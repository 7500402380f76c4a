import Mathlib

/-!
# Reference counts

Places `ι` hold references to objects `ρ`; `refs own r` is the number of places that hold
one to `r`.

* `refs_fill`, `refs_clear`, `refs_swap`: a place gets, drops or changes its reference.
* `refs_pos`: an object that a place refers to has a reference.
* `Counts.fill`, `Counts.clear`, `Counts.congr`: counters that agree with the references go on
  agreeing with them.
-/

namespace Xv6

variable {ι ρ : Type*} [Fintype ι] [DecidableEq ρ]
variable {own own' : ι → Option ρ} {i : ι} {r x : ρ}

/-- How many places refer to `r`. -/
def refs (own : ι → Option ρ) (r : ρ) : ℕ := (Finset.univ.filter fun i => own i = some r).card

theorem refs_congr (h : ∀ i, own' i = own i) (r : ρ) : refs own' r = refs own r := by
  have heq : own' = own := funext h
  rw [heq]

theorem refs_pos (h : own i = some r) : 0 < refs own r := by
  apply Finset.card_pos.2
  exact ⟨i, by simp [h]⟩

/-- Two places refer to `r`. -/
theorem refs_two {j : ι} (hi : own i = some r) (hj : own j = some r) (hij : i ≠ j) : 2 ≤ refs own r := by
  have hcard : 1 < (Finset.univ.filter fun k => own k = some r).card :=
    Finset.one_lt_card.2 ⟨i, by simp [hi], j, by simp [hj], hij⟩
  exact hcard

theorem refs_eq_zero : refs own r = 0 ↔ ∀ i, own i ≠ some r := by
  unfold refs
  rw [Finset.card_eq_zero, Finset.filter_eq_empty_iff]
  simp

section

variable [DecidableEq ι]

/-- The other places that refer to `x`. -/
theorem refs_eq_others (own : ι → Option ρ) (i : ι) (x : ρ) : refs own x =
    ((Finset.univ.erase i).filter fun j => own j = some x).card + if own i = some x then 1 else 0 := by
  have hi : (Finset.univ : Finset ι) = insert i (Finset.univ.erase i) := by
    rw [Finset.insert_erase (Finset.mem_univ i)]
  unfold refs
  rw [hi, Finset.filter_insert]
  have hnot : i ∉ (Finset.univ.erase i).filter fun j => own j = some x := by simp
  by_cases h : own i = some x
  · rw [if_pos h, if_pos h, Finset.card_insert_of_notMem (by simp)]
    simp
  · rw [if_neg h, if_neg h]
    simp

/-- **A place changes its reference.** -/
theorem refs_swap (hne : ∀ j, j ≠ i → own' j = own j) (x : ρ) :
    refs own' x + (if own i = some x then 1 else 0) = refs own x + if own' i = some x then 1 else 0 := by
  have hsame : ((Finset.univ.erase i).filter fun j => own' j = some x) =
      (Finset.univ.erase i).filter fun j => own j = some x := by
    apply Finset.filter_congr
    intro j hj
    rw [hne j (Finset.ne_of_mem_erase hj)]
  rw [refs_eq_others own' i x, refs_eq_others own i x, hsame]
  omega

theorem refs_fill (hi : own i = none) (hi' : own' i = some r) (hne : ∀ j, j ≠ i → own' j = own j) (x : ρ) :
    refs own' x = refs own x + if x = r then 1 else 0 := by
  have h := refs_swap hne x
  rw [hi, hi'] at h
  simp only [reduceCtorEq, if_false, Nat.add_zero, Option.some.injEq] at h
  rw [h]
  simp only [eq_comm]

theorem refs_clear (hi : own i = some r) (hi' : own' i = none) (hne : ∀ j, j ≠ i → own' j = own j) (x : ρ) :
    refs own' x + (if x = r then 1 else 0) = refs own x := by
  have h := refs_swap hne x
  rw [hi, hi'] at h
  simp only [reduceCtorEq, if_false, Nat.add_zero, Option.some.injEq] at h
  rw [← h]
  simp only [eq_comm]

end

/-- The counters of the objects agree with the places that refer to them. -/
def Counts (own : ι → Option ρ) (count : ρ → ℤ) : Prop := ∀ r, count r = refs own r

namespace Counts

variable {count count' : ρ → ℤ}

theorem congr (h : Counts own count) (hown : ∀ i, own' i = own i) (hcount : ∀ r, count' r = count r) :
    Counts own' count' := by
  intro r
  rw [hcount, h r, refs_congr hown]

/-- An object that a place refers to has a positive counter. -/
theorem pos (h : Counts own count) (hi : own i = some r) : 0 < count r := by
  rw [h r]
  exact_mod_cast refs_pos hi

theorem zero (h : Counts own count) (hr : count r = 0) (i : ι) : own i ≠ some r := by
  intro hi
  have := h.pos hi
  omega

variable [DecidableEq ι]

/-- A place without a reference gets one to `r`. -/
theorem fill (h : Counts own count) (hi : own i = none) (hi' : own' i = some r)
    (hne : ∀ j, j ≠ i → own' j = own j) (hr : count' r = count r + 1)
    (hx : ∀ x, x ≠ r → count' x = count x) : Counts own' count' := by
  intro x
  rw [refs_fill hi hi' hne x]
  by_cases hxr : x = r
  · rw [if_pos hxr, hxr, hr, h r]
    push_cast
    rfl
  · rw [if_neg hxr, hx x hxr, h x]
    simp

/-- A place drops its reference to `r`. -/
theorem clear (h : Counts own count) (hi : own i = some r) (hi' : own' i = none)
    (hne : ∀ j, j ≠ i → own' j = own j) (hr : count' r = count r - 1)
    (hx : ∀ x, x ≠ r → count' x = count x) : Counts own' count' := by
  intro x
  have hc := refs_clear hi hi' hne x
  by_cases hxr : x = r
  · rw [if_pos hxr] at hc
    rw [hxr] at hc ⊢
    have hcr := h r
    omega
  · rw [if_neg hxr] at hc
    have hcx := h x
    rw [hx x hxr]
    omega

end Counts

end Xv6
