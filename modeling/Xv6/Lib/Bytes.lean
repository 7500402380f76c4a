import Xv6.Lib.Numerals

/-!
# Little-endian integers in a byte array

`getLE d off len` is the integer stored in the `len` bytes of `d` from `off`,
least significant byte first; `putLE d off len v` stores `v` there, truncated to
`len` bytes. Reading back gives the value modulo `256 ^ len` (`getLE_putLE`), and
a read that does not meet the bytes written is unchanged (`getLE_putLE_disjoint`).

`getBit` and `setBit` are the bits of the array, eight to a byte.
-/

namespace Xv6

abbrev Byte := BitVec 8

/-- An array of bytes; only the bytes an access names are looked at. -/
abbrev Bytes := ℕ → Byte

/-- The little-endian integer in the `len` bytes from `off`. -/
def getLE (d : Bytes) (off : ℕ) : ℕ → ℕ
  | 0 => 0
  | len + 1 => (d off).toNat + 256 * getLE d (off + 1) len

/-- Store `v` in the `len` bytes from `off`. -/
def putLE (d : Bytes) (off len v : ℕ) : Bytes := fun k =>
  if off ≤ k ∧ k < off + len then BitVec.ofNat 8 (v / 256 ^ (k - off)) else d k

theorem getLE_congr {d d' : Bytes} (len : ℕ) : ∀ {off : ℕ},
    (∀ k, off ≤ k → k < off + len → d k = d' k) → getLE d off len = getLE d' off len := by
  induction len with
  | zero => intro off _; rfl
  | succ len ih =>
    intro off h
    simp only [getLE]
    rw [h off le_rfl (by omega), ih fun k h1 h2 => h k (by omega) (by omega)]

theorem getLE_zero {d : Bytes} (len : ℕ) : ∀ {off : ℕ}, (∀ k, off ≤ k → k < off + len → d k = 0) →
    getLE d off len = 0 := by
  induction len with
  | zero => intro off _; rfl
  | succ len ih =>
    intro off h
    simp only [getLE]
    rw [h off le_rfl (by omega), ih fun k h1 h2 => h k (by omega) (by omega)]
    rfl

theorem getLE_putLE_disjoint {d : Bytes} {off len v off' len' : ℕ}
    (h : off' + len' ≤ off ∨ off + len ≤ off') :
    getLE (putLE d off len v) off' len' = getLE d off' len' :=
  getLE_congr _ fun k h1 h2 => if_neg (by omega)

/-- **Reading back** what was stored. -/
theorem getLE_putLE (d : Bytes) (len : ℕ) : ∀ off v,
    getLE (putLE d off len v) off len = v % 256 ^ len := by
  induction len with
  | zero => intro off v; simp [getLE, Nat.mod_one]
  | succ len ih =>
    intro off v
    have hhead : putLE d off (len + 1) v off = BitVec.ofNat 8 v := by simp [putLE]
    -- the bytes after the first hold `v / 256`
    have htail : getLE (putLE d off (len + 1) v) (off + 1) len =
        getLE (putLE d (off + 1) len (v / 256)) (off + 1) len := by
      apply getLE_congr
      intro k h1 h2
      have hk : k - off = (k - (off + 1)) + 1 := by omega
      simp only [putLE]
      rw [if_pos (by omega), if_pos (by omega), hk, pow_succ', ← Nat.div_div_eq_div_mul]
    simp only [getLE]
    rw [hhead, htail, ih, BitVec.toNat_ofNat, pow_succ' 256]
    exact (@Nat.mod_mul 256 (256 ^ len) v).symm

theorem getLE_putLE_of_lt {d : Bytes} {off len v : ℕ} (h : v < 256 ^ len) :
    getLE (putLE d off len v) off len = v := by
  rw [getLE_putLE, Nat.mod_eq_of_lt h]

/-! ## Arrays of 32-bit words -/

/-- Word `i` of the array: `((uint*)d)[i]`. -/
def word (d : Bytes) (i : ℕ) : ℕ := getLE d (4 * i) 4

/-- `((uint*)d)[i] = v`. -/
def setWord (d : Bytes) (i v : ℕ) : Bytes := putLE d (4 * i) 4 v

theorem word_setWord_self {d : Bytes} {i v : ℕ} (h : v < 2 ^ 32) : word (setWord d i v) i = v :=
  getLE_putLE_of_lt (by omega)

theorem word_setWord_ne {d : Bytes} {i j v : ℕ} (h : i ≠ j) : word (setWord d i v) j = word d j :=
  getLE_putLE_disjoint (by omega)

theorem word_zero (i : ℕ) : word (fun _ => 0) i = 0 := getLE_zero 4 fun _ _ _ => rfl

/-! ## Bits -/

/-- `d[i/8] & (1 << i%8)` is not zero. -/
def getBit (d : Bytes) (i : ℕ) : Bool := (d (i / 8)).getLsbD (i % 8)

/-- `d[i/8] |= 1 << i%8`. -/
def setBit (d : Bytes) (i : ℕ) : Bytes :=
  Function.update d (i / 8) (d (i / 8) ||| 1#8 <<< (i % 8))

/-- `d[i/8] &= ~(1 << i%8)`. -/
def clearBit (d : Bytes) (i : ℕ) : Bytes :=
  Function.update d (i / 8) (d (i / 8) &&& ~~~(1#8 <<< (i % 8)))

theorem getBit_iff (d : Bytes) (i : ℕ) :
    getBit d i = decide (d (i / 8) &&& 1#8 <<< (i % 8) ≠ 0#8) := by
  have hi : i % 8 < 8 := Nat.mod_lt _ (by decide)
  unfold getBit
  generalize d (i / 8) = b
  revert b
  interval_cases i % 8 <;> decide

theorem getLsbD_one_shift (k j : ℕ) (hk : k < 8) (hj : j < 8) :
    (1#8 <<< k).getLsbD j = decide (j = k) := by
  interval_cases k <;> interval_cases j <;> decide

theorem getBit_setBit (d : Bytes) (i j : ℕ) :
    getBit (setBit d i) j = (getBit d j || decide (i = j)) := by
  have hi : i % 8 < 8 := Nat.mod_lt _ (by decide)
  have hj : j % 8 < 8 := Nat.mod_lt _ (by decide)
  unfold getBit setBit
  by_cases h : j / 8 = i / 8
  · rw [h, Function.update_self, BitVec.getLsbD_or, getLsbD_one_shift _ _ hi hj]
    congr 2
    apply propext
    omega
  · rw [Function.update_of_ne h]
    simp [show i ≠ j from fun hij => h (by rw [hij])]

theorem getBit_clearBit (d : Bytes) (i j : ℕ) :
    getBit (clearBit d i) j = (getBit d j && decide (i ≠ j)) := by
  have hi : i % 8 < 8 := Nat.mod_lt _ (by decide)
  have hj : j % 8 < 8 := Nat.mod_lt _ (by decide)
  unfold getBit clearBit
  by_cases h : j / 8 = i / 8
  · rw [h, Function.update_self, BitVec.getLsbD_and, BitVec.getLsbD_not, getLsbD_one_shift _ _ hi hj]
    simp only [hj, decide_true, Bool.true_and]
    have : (j % 8 = i % 8) ↔ i = j := by omega
    by_cases hij : i = j <;> simp [this, hij]
  · rw [Function.update_of_ne h]
    simp [show i ≠ j from fun hij => h (by rw [hij])]

end Xv6
