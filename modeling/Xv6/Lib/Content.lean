import Mathlib

/-!
# Arrays that grow

`put l off src` is `l` with `src` from `off` on, and longer than `l` if `src` ends behind it; `slice l off n` is what
there is of the `n` elements from `off` on.

* `length_put`, `get_put`: the array after a write, at every index.
* `put_put`: a write in two pieces is a write.
* `slice_put`: what was written is read back.
-/

namespace Xv6

variable {α : Type*} {l src a b : List α} {off n i : ℕ}

def put (l : List α) (off : ℕ) (src : List α) : List α := l.take off ++ (src ++ l.drop (off + src.length))

def slice (l : List α) (off n : ℕ) : List α := (l.drop off).take n

theorem length_put (h : off ≤ l.length) : (put l off src).length = max l.length (off + src.length) := by
  unfold put
  simp only [List.length_append, List.length_take, List.length_drop]
  omega

theorem get_put (h : off ≤ l.length) (i : ℕ) :
    (put l off src)[i]? = if off ≤ i ∧ i < off + src.length then src[i - off]? else l[i]? := by
  have htake : (l.take off).length = off := by simpa using h
  unfold put
  by_cases hlo : i < off
  · rw [List.getElem?_append_left (by omega), List.getElem?_take_of_lt hlo, if_neg (by omega)]
  · rw [List.getElem?_append_right (by omega), htake]
    by_cases hhi : i < off + src.length
    · rw [List.getElem?_append_left (by omega), if_pos (by omega)]
    · rw [List.getElem?_append_right (by omega), List.getElem?_drop, if_neg (by omega)]
      congr 1
      omega

theorem put_nil (h : off ≤ l.length) : put l off [] = l := by
  apply List.ext_getElem?
  intro i
  rw [get_put h, if_neg (by simp)]

/-- **A write in two pieces.** -/
theorem put_put (h : off ≤ l.length) : put (put l off a) (off + a.length) b = put l off (a ++ b) := by
  have hlen : off + a.length ≤ (put l off a).length := by
    rw [length_put h]
    exact le_max_right _ _
  apply List.ext_getElem?
  intro i
  rw [get_put hlen, get_put h, get_put h, List.length_append]
  by_cases hlo : i < off + a.length
  · rw [if_neg (by omega)]
    by_cases hi : off ≤ i
    · rw [if_pos (by omega), if_pos (by omega), List.getElem?_append_left (by omega)]
    · rw [if_neg (by omega), if_neg (by omega)]
  · by_cases hhi : i < off + a.length + b.length
    · rw [if_pos (by omega), if_pos (by omega), List.getElem?_append_right (by omega)]
      congr 1
      omega
    · rw [if_neg (by omega), if_neg (by omega), if_neg (by omega)]

theorem length_slice (l : List α) (off n : ℕ) : (slice l off n).length = min n (l.length - off) := by
  unfold slice
  rw [List.length_take, List.length_drop]

theorem get_slice (l : List α) (off : ℕ) (h : i < n) : (slice l off n)[i]? = l[off + i]? := by
  unfold slice
  rw [List.getElem?_take_of_lt h, List.getElem?_drop]

/-- **What was written is read back.** -/
theorem slice_put (h : off ≤ l.length) : slice (put l off src) off src.length = src := by
  apply List.ext_getElem?
  intro i
  by_cases hi : i < src.length
  · rw [get_slice _ _ hi, get_put h, if_pos (by omega)]
    congr 1
    omega
  · have hlen : (slice (put l off src) off src.length).length ≤ i := by
      rw [length_slice]
      omega
    rw [List.getElem?_eq_none hlen, List.getElem?_eq_none (by omega)]

end Xv6
