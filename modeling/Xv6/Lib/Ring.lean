import Xv6.Lib.Numerals

/-!
# Ring buffers with free running counters

`r` counts what was taken out and `w` what was put in, in `k` bits that wrap around. The item with number `c` is in
slot `c % N`. `N` divides `2 ^ k`, so the slots go on in order where a counter wraps.

* `held r w`: how many items the ring holds; `held_push`, `held_pop`, `held_add`: how the counters change it.
* `items data r w`: these items, the oldest first.
* `items_push`, `items_pop`, `items_unpush`: an item is put at the end, taken from the front, taken back from the end.
* `items_append`: the ring is cut in two at a counter in between.
-/

namespace Xv6.Ring

variable {k N : ℕ} {α : Type*} {r w e : BitVec k}

/-! ## The counters -/

/-- How many items lie between the counters. -/
def held (r w : BitVec k) : ℕ := (w - r).toNat

theorem held_lt (r w : BitVec k) : held r w < 2 ^ k := (w - r).isLt

@[simp] theorem held_self (r : BitVec k) : held r r = 0 := by simp [held]

theorem held_eq_zero : held r w = 0 ↔ r = w := by
  unfold held
  constructor
  · intro h
    have hz : w - r = 0#k := BitVec.eq_of_toNat_eq (by simpa using h)
    have hw : w = r + (w - r) := by rw [BitVec.add_comm, BitVec.sub_add_cancel]
    rw [hw, hz, BitVec.add_zero]
  · rintro rfl
    simp

/-- The counter `held r w` places after `r` is `w`. -/
theorem add_held (r w : BitVec k) : r + BitVec.ofNat k (held r w) = w := by
  unfold held
  rw [BitVec.ofNat_toNat, BitVec.setWidth_eq, BitVec.add_comm, BitVec.sub_add_cancel]

theorem held_ofNat {n : ℕ} (hn : n < 2 ^ k) (r : BitVec k) : held r (r + BitVec.ofNat k n) = n := by
  unfold held
  rw [BitVec.add_comm, BitVec.add_sub_cancel, BitVec.toNat_ofNat, Nat.mod_eq_of_lt hn]

/-- A test that the ring holds `n` items. -/
theorem held_eq_iff {n : ℕ} (hn : n < 2 ^ k) : held r w = n ↔ w = r + BitVec.ofNat k n := by
  constructor
  · intro h
    rw [← h, add_held]
  · rintro rfl
    exact held_ofNat hn r

theorem held_add (h : held r w + held w e < 2 ^ k) : held r e = held r w + held w e := by
  have he : e = r + BitVec.ofNat k (held r w + held w e) := by
    rw [BitVec.ofNat_add, ← BitVec.add_assoc, add_held, add_held]
  rw [held_eq_iff h]
  exact he

theorem held_succ (hk : 1 < 2 ^ k) (r : BitVec k) : held r (r + 1#k) = 1 := held_ofNat hk r

theorem held_push (h : held r w + 1 < 2 ^ k) : held r (w + 1#k) = held r w + 1 := by
  have hk : 1 < 2 ^ k := by omega
  have hw := held_succ hk w
  rw [held_add (by rw [hw]; exact h), hw]

theorem held_pop (h : r ≠ w) : held (r + 1#k) w + 1 = held r w := by
  have hpos : held r w ≠ 0 := fun h0 => h (held_eq_zero.1 h0)
  have hlt := held_lt r w
  -- one step from `r`, and the rest of the way
  have hrest : held (r + 1#k) w = held r w - 1 := by
    rw [held_eq_iff (by omega), BitVec.add_assoc, ← BitVec.ofNat_add]
    have hsum : 1 + (held r w - 1) = held r w := by omega
    rw [hsum, add_held]
  omega

theorem held_unpush (h : r ≠ w) : held r (w - 1#k) + 1 = held r w := by
  have hpos : held r w ≠ 0 := fun h0 => h (held_eq_zero.1 h0)
  have hlt := held_lt r w
  have hrest : held r (w - 1#k) = held r w - 1 := by
    rw [held_eq_iff (by omega), BitVec.sub_eq_iff_eq_add, BitVec.add_assoc, ← BitVec.ofNat_add]
    have hsum : held r w - 1 + 1 = held r w := by omega
    rw [hsum, add_held]
  omega

/-! ## The items -/

variable [NeZero N]

/-- The slot of the item with number `c`. -/
def slot (c : BitVec k) : Fin N := Fin.ofNat N c.toNat

/-- The items between the counters, the oldest first. -/
def items (data : Fin N → α) (r w : BitVec k) : List α :=
  (List.range (held r w)).map fun i => data (slot (r + BitVec.ofNat k i))

@[simp] theorem items_length (data : Fin N → α) (r w : BitVec k) : (items data r w).length = held r w := by
  simp [items]

@[simp] theorem items_self (data : Fin N → α) (r : BitVec k) : items data r r = [] := by simp [items]

theorem items_eq_nil {data : Fin N → α} : items data r w = [] ↔ r = w := by
  rw [← List.length_eq_zero_iff, items_length, held_eq_zero]

/-- The slots go on in order where the counter wraps. -/
theorem slot_add (hN : N ∣ 2 ^ k) (r : BitVec k) (i : ℕ) :
    ((slot (r + BitVec.ofNat k i) : Fin N) : ℕ) = (r.toNat + i) % N := by
  show (r + BitVec.ofNat k i).toNat % N = _
  rw [BitVec.toNat_add, BitVec.toNat_ofNat, Nat.add_mod_mod, Nat.mod_mod_of_dvd _ hN]

/-- Items less than `N` apart are in different slots. -/
theorem slot_ne (hN : N ∣ 2 ^ k) (r : BitVec k) {i j : ℕ} (hij : i < j) (hj : j < i + N) :
    (slot (r + BitVec.ofNat k i) : Fin N) ≠ slot (r + BitVec.ofNat k j) := by
  intro h
  have hval := congrArg Fin.val h
  rw [slot_add hN, slot_add hN] at hval
  -- the difference of the two numbers would be a multiple of `N`
  have hmod : (r.toNat + i) ≡ (r.toNat + j) [MOD N] := hval
  have hdvd : N ∣ (r.toNat + j) - (r.toNat + i) := (Nat.modEq_iff_dvd' (by omega)).1 hmod
  have hle := Nat.le_of_dvd (by omega) hdvd
  omega

theorem items_append (data : Fin N → α) (h : held r w + held w e < 2 ^ k) :
    items data r e = items data r w ++ items data w e := by
  unfold items
  rw [held_add h, List.range_add, List.map_append, List.map_map]
  congr 1
  apply List.map_congr_left
  intro i _
  show data (slot (r + BitVec.ofNat k (held r w + i))) = data (slot (w + BitVec.ofNat k i))
  rw [BitVec.ofNat_add, ← BitVec.add_assoc, add_held]

theorem items_one (hk : 1 < 2 ^ k) (data : Fin N → α) (w : BitVec k) : items data w (w + 1#k) = [data (slot w)] := by
  unfold items
  rw [held_succ hk]
  simp

theorem items_snoc (data : Fin N → α) (h : held r w + 1 < 2 ^ k) :
    items data r (w + 1#k) = items data r w ++ [data (slot w)] := by
  have hk : 1 < 2 ^ k := by omega
  rw [items_append data (w := w) (by rw [held_succ hk]; exact h), items_one hk]

theorem items_pop (data : Fin N → α) (h : r ≠ w) : items data r w = data (slot r) :: items data (r + 1#k) w := by
  have hpop := held_pop h
  have hlt := held_lt r w
  have hk : 1 < 2 ^ k := by
    have hpos : held r w ≠ 0 := fun h0 => h (held_eq_zero.1 h0)
    omega
  rw [items_append data (w := r + 1#k) (by rw [held_succ hk]; omega), items_one hk]
  rfl

theorem items_unpush (data : Fin N → α) (h : r ≠ w) :
    items data r w = items data r (w - 1#k) ++ [data (slot (w - 1#k))] := by
  have hlt := held_lt r w
  have hcut := held_unpush h
  have hw : w - 1#k + 1#k = w := BitVec.sub_add_cancel w 1#k
  have hsnoc := items_snoc data (r := r) (w := w - 1#k) (by omega)
  rw [hw] at hsnoc
  exact hsnoc

/-- A slot outside the ring is written. -/
theorem items_update (hN : N ∣ 2 ^ k) (data : Fin N → α) (x : α) (h : held r w < N) :
    items (Function.update data (slot w) x) r w = items data r w := by
  unfold items
  apply List.map_congr_left
  intro i hi
  have hlt : i < held r w := List.mem_range.1 hi
  have hne : (slot (r + BitVec.ofNat k i) : Fin N) ≠ slot w := by
    have hw := slot_ne hN r hlt (by omega)
    rw [add_held] at hw
    exact hw
  rw [Function.update_of_ne hne]

theorem items_push (hN : N ∣ 2 ^ k) (data : Fin N → α) (x : α) (h : held r w < N) (hk : held r w + 1 < 2 ^ k) :
    items (Function.update data (slot w) x) r (w + 1#k) = items data r w ++ [x] := by
  rw [items_snoc _ hk, items_update hN data x h, Function.update_self]

end Xv6.Ring
