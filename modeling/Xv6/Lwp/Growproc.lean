import Xv6.Lwp.Memory

/-!
# `growproc`

The whole function, with its lock, its result and the pages that it gets one by one.

* `Pages.allocuvm`: the loop of `allocuvm`, for any outcome of each `kalloc` and `mappages`.
* `growproc_step`: the kernel makes it in one step, or in two if a size is stored.
* `AllOrNothing`: what the function should have done when it returns.
* **`growproc_exact`**: it did so if and only if it got what it asked for (`Smooth`).
* **`growproc_gives_all_back`**: shrinking to nothing returns -1 with the pages gone and the lock held.
-/

namespace Xv6.Lwp

/-! ## `allocuvm`, page by page -/

/-- What `allocuvm` gets for a page. -/
inductive Got
  /-- `kalloc` returns 0 -/
  | noPage
  /-- `mappages` finds no page for a page table -/
  | noTable
  | page
  deriving DecidableEq

/-- The loop of `allocuvm`: what is mapped in the end, and the result. -/
def Pages.allocLoop (oldsz newsz : BitVec 32) (got : ℕ → Got) : Pages → List ℕ → Except Trap (Pages × BitVec 32)
  | m, [] => .ok (m, newsz)
  | m, i :: l =>
    match got i with
    | .noPage => .ok (m.dealloc newsz oldsz, 0)
    | .noTable => .ok (m.dealloc newsz oldsz, 0)
    | .page => do
      let m ← m.map i
      allocLoop oldsz newsz got m l

def Pages.allocuvm (m : Pages) (oldsz newsz : BitVec 32) (got : ℕ → Got) : Except Trap (Pages × BitVec 32) :=
  if newsz ≥ KERNBASE then .ok (m, 0)
  else if newsz < oldsz then .ok (m, oldsz)
  else m.allocLoop oldsz newsz got (pagesFrom (pgroundup oldsz) newsz)

/-- All pages from `oldsz` to `newsz` are found. -/
def FoundAll (oldsz newsz : BitVec 32) (got : ℕ → Got) : Prop :=
  ∀ i ∈ pagesFrom (pgroundup oldsz) newsz, got i = .page

instance (oldsz newsz : BitVec 32) (got : ℕ → Got) : Decidable (FoundAll oldsz newsz got) := by
  unfold FoundAll
  infer_instance

variable {n : ℕ} {s s' : MState n} {c : Fin n} {p m : Slot} {x x' : Pages} {sz newsz k r : BitVec 32} {got : ℕ → Got}
  {d : Dir} {l : List ℕ}

/-- Without a failure the loop maps its pages. -/
theorem allocLoop_found (h : ∀ i ∈ l, got i = .page) :
    x.allocLoop sz newsz got l = (l.foldlM Pages.map x).map fun x => (x, newsz) := by
  induction l generalizing x with
  | nil => rfl
  | cons i l ih =>
    unfold Pages.allocLoop
    rw [h i List.mem_cons_self, List.foldlM_cons]
    cases x.map i with
    | error t => rfl
    | ok y => exact ih fun j hj => h j (List.mem_cons_of_mem i hj)

/-- With a failure it returns 0. -/
theorem allocLoop_ok (h : x.allocLoop sz newsz got l = .ok (x', r)) (hr : r ≠ 0) :
    r = newsz ∧ (∀ i ∈ l, got i = .page) ∧ l.foldlM Pages.map x = .ok x' := by
  induction l generalizing x with
  | nil =>
    cases h
    exact ⟨rfl, fun i hi => absurd hi List.not_mem_nil, rfl⟩
  | cons i l ih =>
    unfold Pages.allocLoop at h
    cases hi : got i with
    | noPage =>
      rw [hi] at h
      cases h
      exact absurd rfl hr
    | noTable =>
      rw [hi] at h
      cases h
      exact absurd rfl hr
    | page =>
      rw [hi] at h
      obtain ⟨y, hy, hrest⟩ := bind_ok.1 h
      obtain ⟨hnew, hl, hmap⟩ := ih hrest
      refine ⟨hnew, fun j hj => ?_, ?_⟩
      · rcases List.mem_cons.1 hj with rfl | hj
        · exact hi
        · exact hl j hj
      · rw [List.foldlM_cons, hy]
        exact hmap

/-- What is mapped was not there before. -/
theorem map_loop_new (h : l.foldlM Pages.map x = .ok x') :
    (∀ i ∈ l, x i = false) ∧ ∀ i, x' i = (decide (i ∈ l) || x i) := by
  induction l generalizing x with
  | nil =>
    cases h
    exact ⟨fun i hi => absurd hi List.not_mem_nil, fun i => by simp⟩
  | cons j l ih =>
    rw [List.foldlM_cons] at h
    obtain ⟨y, hy, hrest⟩ := bind_ok.1 h
    unfold Pages.map at hy
    split at hy
    · cases hy
    · rename_i hj
      cases hy
      obtain ⟨hnew, hx'⟩ := ih hrest
      refine ⟨fun i hi => ?_, fun i => ?_⟩
      · by_cases hij : i = j
        · rw [hij]
          simpa using hj
        · have hil := (List.mem_cons.1 hi).resolve_left hij
          have hold := hnew i hil
          rwa [Function.update_of_ne hij] at hold
      · rw [hx' i]
        by_cases hij : i = j
        · simp [hij]
        · simp [hij]

/-! ## The function -/

/-- `sz` after the two branches of `growproc`, and the pages. -/
def Pages.resize (x : Pages) (sz k : BitVec 32) (got : ℕ → Got) : Except Trap (Pages × BitVec 32) :=
  if BitVec.slt 0 k then x.allocuvm sz (sz + k) got
  else if BitVec.slt k 0 then .ok (x.dealloc sz (sz + k), deallocuvm sz (sz + k))
  else .ok (x, sz)

/-- `ptable.lock`. -/
def MState.setLock (s : MState n) (o : Option (Fin n)) : MState n := { s with kernel := { s.kernel with lock := o } }

/-- `growproc(n)`, called by `p`, up to `release`: the slot and the size that are to be stored, or nothing when it has
returned -1. -/
def growSection (s : MState n) (c : Fin n) (p : Slot) (k : BitVec 32) (got : ℕ → Got) :
    Except Trap (Option (Slot × BitVec 32) × MState n) :=
  let s := s.setLock (some c)
  if (s.kernel.proc p).limited k then .ok (none, s)
  else
    match s.kernel.proc.main p with
    | none => .error (.proc .nullDeref)
    | some m =>
      match (s.kernel.proc m).pgdir with
      | none => .error (.proc .nullDeref)
      | some d => do
        let (x, sz) ← (s.pages d).resize (s.kernel.proc m).sz k got
        let s := { s with pages := Function.update s.pages d x }
        if k ≠ 0 ∧ sz = 0 then .ok (none, s) else .ok (some (m, sz), s.setLock none)

/-- `growproc(n)`, called by `p`. -/
def growproc (s : MState n) (c : Fin n) (p : Slot) (k : BitVec 32) (got : ℕ → Got) :
    Except Trap (ℤ × MState n) := do
  match ← growSection s c p k got with
  | (none, s) => .ok (-1, s)
  | (some (m, sz), s) =>
    match { s.kernel with proc := s.kernel.proc.resize m sz }.switchuvm c m with
    | .error f => .error (.proc f)
    | .ok kernel => .ok (0, { s with kernel := kernel })

/-! ## What it should do -/

/-- `sz + n`, as it is meant. -/
def total (sz k : BitVec 32) : ℤ := sz.toNat + k.toInt

/-- All or nothing, and the lock released, after a call for the process with main thread `m` and page directory
`d` that returned `r`. -/
structure AllOrNothing (s : MState n) (m : Slot) (d : Dir) (k : BitVec 32) (r : ℤ) (s' : MState n) : Prop where
  lock : s'.kernel.lock = none
  nothing : r = -1 → (s'.kernel.proc m).sz = (s.kernel.proc m).sz ∧ s'.pages d = s.pages d
  all : r = 0 → 0 ≤ total (s.kernel.proc m).sz k → total (s.kernel.proc m).sz k < KERNBASE.toNat →
    ((s'.kernel.proc m).sz.toNat : ℤ) = total (s.kernel.proc m).sz k ∧
      ∀ i, s'.pages d i = true ↔ i * 4096 < (pgroundup (s'.kernel.proc m).sz).toNat

/-- The process gets what it asked for, or the sum leaves the 32 bits and nothing happens; and before the call
its pages are those below its size, as far as they matter. -/
structure Smooth (x : Pages) (sz k : BitVec 32) (got : ℕ → Got) : Prop where
  grows : 0 < k.toInt → total sz k < KERNBASE.toNat ∧ FoundAll sz (sz + k) got ∨ 2 ^ 32 ≤ total sz k
  shrinks : k.toInt < 0 → 0 < total sz k ∨ total sz k < 0 ∧ sz ≠ 0
  pages : 0 ≤ total sz k → total sz k < KERNBASE.toNat →
    ∀ i : ℕ, ((i * 4096 : ℤ) < min (sz.toNat : ℤ) (total sz k) → x i = true) ∧ (sz.toNat ≤ i * 4096 → x i = false)

theorem total_bounds (sz k : BitVec 32) : -2 ^ 31 ≤ k.toInt ∧ k.toInt < 2 ^ 31 ∧ (sz.toNat : ℤ) < 2 ^ 32 := by
  have hsz := sz.isLt
  have hlo := BitVec.le_toInt k
  have hhi := BitVec.toInt_lt (x := k)
  exact ⟨by simpa using hlo, by simpa using hhi, by omega⟩

/-- The unsigned sum. -/
theorem add_toNat (sz k : BitVec 32) : ((sz + k).toNat : ℤ) = total sz k % 2 ^ 32 := by
  unfold total
  rw [BitVec.toNat_add, BitVec.toInt_eq_toNat_cond]
  have hk := k.isLt
  split
  · omega
  · omega

theorem slt_pos (k : BitVec 32) : BitVec.slt 0 k = true ↔ 0 < k.toInt := by
  rw [BitVec.slt_iff_toInt_lt]
  rfl

theorem slt_neg (k : BitVec 32) : BitVec.slt k 0 = true ↔ k.toInt < 0 := by
  rw [BitVec.slt_iff_toInt_lt]
  rfl

theorem toInt_zero (k : BitVec 32) : k.toInt = 0 ↔ k = 0 := by
  constructor
  · intro h
    apply BitVec.eq_of_toInt_eq
    rw [h]
    rfl
  · rintro rfl
    rfl

/-- The bytes below a size end in the page below its rounding. -/
theorem below_pgroundup {sz : BitVec 32} (h : sz.toNat ≤ KERNBASE.toNat) (i : ℕ) :
    i * 4096 < (pgroundup sz).toNat ↔ i * 4096 < sz.toNat := by
  rw [pgroundup_toNat h]
  omega

/-! ## Size and pages -/

/-- The size `r` and the pages are those asked for. -/
def Pages.Resized (x : Pages) (r sz k : BitVec 32) : Prop :=
  0 ≤ total sz k → total sz k < KERNBASE.toNat →
    (r.toNat : ℤ) = total sz k ∧ ∀ i, x i = true ↔ i * 4096 < r.toNat

/-- **Growing.** -/
theorem resize_up (hk : 0 < k.toInt) :
    (∃ x' r, x.resize sz k got = .ok (x', r) ∧ r ≠ 0 ∧ x'.Resized r sz k) ↔ Smooth x sz k got := by
  have hkern : KERNBASE.toNat = 2147483648 := by decide
  have hbounds := total_bounds sz k
  have hadd := add_toNat sz k
  have htotal : total sz k = sz.toNat + k.toInt := rfl
  have hresize : x.resize sz k got = x.allocuvm sz (sz + k) got := if_pos ((slt_pos k).2 hk)
  rw [hresize]
  unfold Pages.allocuvm
  constructor
  · rintro ⟨x', r, h, hr, hx'⟩
    split at h
    · cases h
      exact absurd rfl hr
    · rename_i hlow
      have hlow' : (sz + k).toNat < KERNBASE.toNat := BitVec.not_le.1 hlow
      split at h
      · rename_i hlt
        have hlt' : (sz + k).toNat < sz.toNat := hlt
        -- the sum leaves the 32 bits
        have hwrap : 2 ^ 32 ≤ total sz k := by omega
        refine ⟨fun _ => .inr hwrap, fun hneg => absurd hneg (by omega), fun _ hz => ?_⟩
        omega
      · rename_i hge
        have hge' : sz.toNat ≤ (sz + k).toNat := BitVec.not_lt.1 hge
        obtain ⟨rfl, hfound, hmap⟩ := allocLoop_ok h hr
        obtain ⟨hnew, hall⟩ := map_loop_new hmap
        have hz : ((sz + k).toNat : ℤ) = total sz k := by omega
        obtain ⟨-, hpages⟩ := hx' (by omega) (by omega)
        refine ⟨fun _ => .inl ⟨by omega, hfound⟩, fun hneg => absurd hneg (by omega), fun _ _ i => ?_⟩
        have hi := hpages i
        rw [hall i, Bool.or_eq_true, decide_eq_true_iff] at hi
        have hmem : i ∈ pagesFrom (pgroundup sz) (sz + k) ↔ sz.toNat ≤ i * 4096 ∧ i * 4096 < (sz + k).toNat :=
          mem_pages (by omega)
        constructor
        · intro hlo
          refine (hi.2 (by omega)).resolve_left fun hin => ?_
          have hin' := hmem.1 hin
          omega
        · intro hup
          by_cases hin : i ∈ pagesFrom (pgroundup sz) (sz + k)
          · exact hnew i hin
          · have hout : ¬ i * 4096 < (sz + k).toNat := fun hlt => hin (hmem.2 ⟨hup, hlt⟩)
            have hfalse : ¬ x i = true := fun htrue => hout (hi.1 (.inr htrue))
            simpa using hfalse
  · intro h
    rcases h.grows hk with ⟨hz, hfound⟩ | hwrap
    · have hsum : ((sz + k).toNat : ℤ) = total sz k := by omega
      have hlow : ¬ sz + k ≥ KERNBASE := BitVec.not_le.2 (show (sz + k).toNat < KERNBASE.toNat by omega)
      have hge : ¬ sz + k < sz := BitVec.not_lt.2 (show sz.toNat ≤ (sz + k).toNat by omega)
      have hmem : ∀ i, i ∈ pagesFrom (pgroundup sz) (sz + k) ↔ sz.toNat ≤ i * 4096 ∧ i * 4096 < (sz + k).toNat :=
        fun i => mem_pages (by omega)
      have hpages := h.pages (by omega) hz
      obtain ⟨x', hmap, hx'⟩ := map_loop (m := x) (nodup_pagesFrom (pgroundup sz) (sz + k)) fun i hi =>
        (hpages i).2 ((hmem i).1 hi).1
      refine ⟨x', sz + k, ?_, ?_, fun _ _ => ⟨hsum, fun i => ?_⟩⟩
      · rw [if_neg hlow, if_neg hge, allocLoop_found hfound, hmap]
        rfl
      · intro h0
        rw [h0] at hsum
        have hzero : total sz k = 0 := hsum.symm
        omega
      · rw [hx' i, Bool.or_eq_true, decide_eq_true_iff, hmem i]
        obtain ⟨hlo, hup⟩ := hpages i
        constructor
        · rintro (hin | htrue)
          · exact hin.2
          · by_contra hout
            rw [hup (by omega)] at htrue
            cases htrue
        · intro hlt
          by_cases hin : sz.toNat ≤ i * 4096
          · exact .inl ⟨hin, hlt⟩
          · exact .inr (hlo (by omega))
    · have hlow : ¬ sz + k ≥ KERNBASE := BitVec.not_le.2 (show (sz + k).toNat < KERNBASE.toNat by omega)
      have hlt : sz + k < sz := show (sz + k).toNat < sz.toNat by omega
      refine ⟨x, sz, ?_, ?_, fun _ hz => ?_⟩
      · rw [if_neg hlow, if_pos hlt]
      · rintro rfl
        have hzero : (0 : BitVec 32).toNat = 0 := rfl
        omega
      · omega

/-- **Shrinking.** -/
theorem resize_down (hk : k.toInt < 0) :
    (∃ x' r, x.resize sz k got = .ok (x', r) ∧ r ≠ 0 ∧ x'.Resized r sz k) ↔ Smooth x sz k got := by
  have hkern : KERNBASE.toNat = 2147483648 := by decide
  have hbounds := total_bounds sz k
  have hadd := add_toNat sz k
  have htotal : total sz k = sz.toNat + k.toInt := rfl
  have hresize : x.resize sz k got = .ok (x.dealloc sz (sz + k), deallocuvm sz (sz + k)) := by
    unfold Pages.resize
    rw [if_neg (fun h => absurd ((slt_pos k).1 h) (by omega)), if_pos ((slt_neg k).2 hk)]
  have hzero : ∀ a : BitVec 32, a = 0 ↔ a.toNat = 0 := fun a => by rw [← BitVec.toNat_inj]; rfl
  rw [hresize]
  by_cases hz : 0 ≤ total sz k
  · have hsum : ((sz + k).toNat : ℤ) = total sz k := by omega
    have hge : ¬ sz + k ≥ sz := BitVec.not_le.2 (show (sz + k).toNat < sz.toNat by omega)
    have hr : deallocuvm sz (sz + k) = sz + k := if_neg hge
    -- the pages in between go
    have hpages : total sz k < KERNBASE.toNat → ∀ i, x.dealloc sz (sz + k) i =
        if (sz + k).toNat ≤ i * 4096 ∧ i * 4096 < sz.toNat then false else x i := by
      intro hlt i
      have hmem : i ∈ pagesFrom (pgroundup (sz + k)) sz ↔ (sz + k).toNat ≤ i * 4096 ∧ i * 4096 < sz.toNat :=
        mem_pages (by omega)
      unfold Pages.dealloc
      rw [if_neg hge, unmap_loop]
      simp only [hmem]
    constructor
    · rintro ⟨x', r, h, hne, hx'⟩
      cases h
      rw [hr] at hne hx'
      refine ⟨fun hpos => absurd hpos (by omega), fun _ => .inl ?_, fun _ hlt i => ?_⟩
      · have hne' : ¬ (sz + k).toNat = 0 := fun h0 => hne ((hzero _).2 h0)
        omega
      · have hi := (hx' hz hlt).2 i
        rw [hpages hlt i] at hi
        constructor
        · intro hlo
          have hx := hi.2 (by omega)
          rwa [if_neg (by omega)] at hx
        · intro hup
          rw [if_neg (by omega)] at hi
          have hfalse : ¬ x i = true := fun htrue => absurd (hi.1 htrue) (by omega)
          simpa using hfalse
    · intro h
      have hpos := h.shrinks hk
      refine ⟨_, _, rfl, ?_, fun _ hlt => ⟨?_, fun i => ?_⟩⟩
      · rw [hr]
        intro h0
        have h0' := (hzero _).1 h0
        omega
      · rw [hr]
        exact hsum
      · rw [hr, hpages hlt i]
        obtain ⟨hlo, hup⟩ := h.pages hz hlt i
        split
        · constructor
          · intro hfalse
            cases hfalse
          · intro hlt'
            omega
        · constructor
          · intro htrue
            by_contra hout
            rw [hup (by omega)] at htrue
            cases htrue
          · intro hlt'
            exact hlo (by omega)
  · have hge : sz + k ≥ sz := show sz.toNat ≤ (sz + k).toNat by omega
    have hr : deallocuvm sz (sz + k) = sz := if_pos hge
    constructor
    · rintro ⟨x', r, h, hne, -⟩
      cases h
      rw [hr] at hne
      exact ⟨fun hpos => absurd hpos (by omega), fun _ => .inr ⟨by omega, hne⟩, fun h0 => absurd h0 hz⟩
    · intro h
      refine ⟨_, _, rfl, ?_, fun h0 => absurd h0 hz⟩
      rw [hr]
      rcases h.shrinks hk with hpos | ⟨-, hne⟩
      · omega
      · exact hne

/-- **A call for nothing.** -/
theorem resize_zero : (∃ x' r, x.resize sz 0 got = .ok (x', r) ∧ x'.Resized r sz 0) ↔ Smooth x sz 0 got := by
  have hkern : KERNBASE.toNat = 2147483648 := by decide
  have hzero : (0 : BitVec 32).toInt = 0 := rfl
  have htotal : total sz 0 = sz.toNat := by
    unfold total
    rw [hzero, add_zero]
  constructor
  · rintro ⟨x', r, h, hx'⟩
    cases h
    refine ⟨fun hpos => absurd hpos (by omega), fun hneg => absurd hneg (by omega), fun h0 hlt i => ?_⟩
    have hi := (hx' h0 hlt).2 i
    constructor
    · intro hlo
      exact hi.2 (by omega)
    · intro hup
      have hfalse : ¬ x i = true := fun htrue => absurd (hi.1 htrue) (by omega)
      simpa using hfalse
  · intro h
    refine ⟨x, sz, rfl, fun h0 hlt => ⟨htotal.symm, fun i => ?_⟩⟩
    obtain ⟨hlo, hup⟩ := h.pages h0 hlt i
    constructor
    · intro htrue
      by_contra hout
      rw [hup (by omega)] at htrue
      cases htrue
    · intro hlt'
      exact hlo (by omega)

/-- **The two branches of `growproc`** do what was asked exactly when the call is smooth. -/
theorem resize_exact (x : Pages) (sz k : BitVec 32) (got : ℕ → Got) :
    (∃ x' r, x.resize sz k got = .ok (x', r) ∧ ¬ (k ≠ 0 ∧ r = 0) ∧ x'.Resized r sz k) ↔ Smooth x sz k got := by
  rcases lt_trichotomy k.toInt 0 with hk | hk | hk
  · have hne : k ≠ 0 := fun h => absurd ((toInt_zero k).2 h) (by omega)
    rw [← resize_down hk]
    simp only [ne_eq, hne, not_false_eq_true, true_and]
  · rw [toInt_zero] at hk
    subst hk
    rw [← resize_zero]
    simp
  · have hne : k ≠ 0 := fun h => absurd ((toInt_zero k).2 h) (by omega)
    rw [← resize_up hk]
    simp only [ne_eq, hne, not_false_eq_true, true_and]

/-! ## The whole function -/

/-- After a call that returned 0. -/
def MState.grown (s : MState n) (c : Fin n) (m : Slot) (d : Dir) (ks : Stack) (x : Pages) (r : BitVec 32) : MState n where
  kernel := { s.kernel with
    lock := none
    proc := s.kernel.proc.resize m r
    cpu := Function.update s.kernel.cpu c { s.kernel.cpu c with esp0 := some ks, cr3 := some d } }
  pages := Function.update s.pages d x

theorem grown_sz (s : MState n) (c : Fin n) (m : Slot) (d : Dir) (ks : Stack) (x : Pages) (r : BitVec 32) :
    ((s.grown c m d ks x r).kernel.proc m).sz = r := by
  show ((s.kernel.proc.resize m r) m).sz = r
  unfold Table.resize Table.upd
  rw [Function.update_self]

theorem grown_pages (s : MState n) (c : Fin n) (m : Slot) (d : Dir) (ks : Stack) (x : Pages) (r : BitVec 32) :
    (s.grown c m d ks x r).pages d = x := by
  show Function.update s.pages d x d = x
  rw [Function.update_self]

/-- The critical section of a process that has its main thread and its page directory. -/
theorem growSection_eq (hmain : s.kernel.proc.main p = some m) (hd : (s.kernel.proc m).pgdir = some d) :
    growSection s c p k got = if (s.kernel.proc p).limited k then .ok (none, s.setLock (some c))
      else ((s.pages d).resize (s.kernel.proc m).sz k got).map fun y =>
        if k ≠ 0 ∧ y.2 = 0 then (none, { s.setLock (some c) with pages := Function.update s.pages d y.1 })
        else (some (m, y.2), { s.setLock none with pages := Function.update s.pages d y.1 }) := by
  unfold growSection
  dsimp only [MState.setLock]
  split
  · rfl
  · rw [hmain]
    dsimp only
    rw [hd]
    dsimp only
    cases (s.pages d).resize (s.kernel.proc m).sz k got with
    | error t => rfl
    | ok y =>
      show (if k ≠ 0 ∧ y.2 = 0 then _ else _) = Except.ok (if k ≠ 0 ∧ y.2 = 0 then _ else _)
      split <;> rfl

theorem growSection_kernel {x : Slot × BitVec 32} (hmain : s.kernel.proc.main p = some m)
    (hd : (s.kernel.proc m).pgdir = some d) (h : growSection s c p k got = .ok (some x, s')) :
    s'.kernel = { s.kernel with lock := none } := by
  rw [growSection_eq hmain hd] at h
  split at h
  · cases h
  · cases hres : (s.pages d).resize (s.kernel.proc m).sz k got with
    | error t => rw [hres] at h; cases h
    | ok y =>
      rw [hres] at h
      have h' : (if k ≠ 0 ∧ y.2 = 0 then _ else _) = (some x, s') := Except.ok.inj h
      split at h' <;> cases h'
      rfl

/-- `growproc` of a process that has its main thread, its page directory and its stack. -/
theorem growproc_eq {ks : Stack} (hmain : s.kernel.proc.main p = some m) (hd : (s.kernel.proc m).pgdir = some d)
    (hks : (s.kernel.proc m).kstack = some ks) :
    growproc s c p k got = if (s.kernel.proc p).limited k then .ok (-1, s.setLock (some c))
      else ((s.pages d).resize (s.kernel.proc m).sz k got).map fun y =>
        if k ≠ 0 ∧ y.2 = 0 then (-1, { s.setLock (some c) with pages := Function.update s.pages d y.1 })
        else (0, s.grown c m d ks y.1 y.2) := by
  have hd' : ∀ r, ((s.kernel.proc.resize m r) m).pgdir = some d := fun r => by
    unfold Table.resize Table.upd
    rw [Function.update_self]
    exact hd
  have hks' : ∀ r, ((s.kernel.proc.resize m r) m).kstack = some ks := fun r => by
    unfold Table.resize Table.upd
    rw [Function.update_self]
    exact hks
  unfold growproc
  rw [growSection_eq hmain hd]
  split
  · rfl
  · cases (s.pages d).resize (s.kernel.proc m).sz k got with
    | error t => rfl
    | ok y =>
      obtain ⟨x', r⟩ := y
      dsimp only [Except.map, bind, Except.bind]
      by_cases hbad : k ≠ 0 ∧ r = 0
      · rw [if_pos hbad, if_pos hbad]
      · rw [if_neg hbad, if_neg hbad]
        unfold State.switchuvm MState.setLock
        dsimp only
        rw [hks' r, hd' r]
        rfl

/-- **`growproc` is all or nothing**, and releases its lock, if and only if the process is within its memory limit and
the call is smooth. -/
theorem growproc_exact (s : MState n) (c : Fin n) (p m : Slot) (d : Dir) (ks : Stack) (k : BitVec 32) (got : ℕ → Got)
    (hmain : s.kernel.proc.main p = some m) (hd : (s.kernel.proc m).pgdir = some d)
    (hks : (s.kernel.proc m).kstack = some ks) :
    (∃ r s', growproc s c p k got = .ok (r, s') ∧ AllOrNothing s m d k r s') ↔
      ¬ (s.kernel.proc p).limited k ∧ Smooth (s.pages d) (s.kernel.proc m).sz k got := by
  rw [growproc_eq hmain hd hks]
  by_cases hlim : (s.kernel.proc p).limited k
  · rw [if_pos hlim]
    constructor
    · rintro ⟨r, s', h, hall⟩
      cases h
      cases hall.lock
    · rintro ⟨hnot, -⟩
      exact absurd hlim hnot
  · rw [if_neg hlim, ← resize_exact]
    constructor
    · rintro ⟨r, s', h, hall⟩
      refine ⟨hlim, ?_⟩
      cases hres : (s.pages d).resize (s.kernel.proc m).sz k got with
      | error t =>
        rw [hres] at h
        cases h
      | ok y =>
        obtain ⟨x', sz⟩ := y
        rw [hres] at h
        have h' : (if k ≠ 0 ∧ sz = 0 then _ else _) = (r, s') := Except.ok.inj h
        split at h'
        · cases h'
          cases hall.lock
        · rename_i hne
          cases h'
          refine ⟨x', sz, rfl, hne, fun h0 hlt => ?_⟩
          obtain ⟨hsz, hpages⟩ := hall.all rfl h0 hlt
          rw [grown_sz] at hsz hpages
          rw [grown_pages] at hpages
          refine ⟨hsz, fun i => (hpages i).trans (below_pgroundup (by omega) i)⟩
    · rintro ⟨-, x', sz, hres, hne, hx'⟩
      refine ⟨0, s.grown c m d ks x' sz, ?_, rfl, fun h => (by cases h), fun _ h0 hlt => ?_⟩
      · rw [hres]
        show Except.ok (if k ≠ 0 ∧ sz = 0 then _ else _) = _
        rw [if_neg hne]
      · obtain ⟨hsz, hpages⟩ := hx' h0 hlt
        rw [grown_sz, grown_pages]
        exact ⟨hsz, fun i => (hpages i).trans (below_pgroundup (by omega) i).symm⟩

/-! ## As a step of the kernel -/

/-- What was mapped before a failure is unmapped with the rest. -/
theorem dealloc_update (hsz : sz.toNat ≤ KERNBASE.toNat) {i : ℕ} (hi : i ∈ pagesFrom (pgroundup sz) newsz) :
    Pages.dealloc (Function.update x i true) newsz sz = x.dealloc newsz sz := by
  have hrange := (mem_pages hsz).1 hi
  have hlt : ¬ sz ≥ newsz := BitVec.not_le.2 (show sz.toNat < newsz.toNat by omega)
  funext j
  unfold Pages.dealloc
  rw [if_neg hlt, if_neg hlt, unmap_loop, unmap_loop]
  by_cases hij : j = i
  · rw [hij, if_pos hi, if_pos hi]
  · rw [Function.update_of_ne hij]

theorem allocLoop_failed (hsz : sz.toNat ≤ KERNBASE.toNat) (hl : ∀ i ∈ l, i ∈ pagesFrom (pgroundup sz) newsz)
    (hfail : ¬ ∀ i ∈ l, got i = .page) (h : x.allocLoop sz newsz got l = .ok (x', r)) :
    x' = x.dealloc newsz sz ∧ r = 0 := by
  induction l generalizing x with
  | nil => exact absurd (fun i hi => absurd hi List.not_mem_nil) hfail
  | cons i l ih =>
    unfold Pages.allocLoop at h
    cases hi : got i with
    | noPage =>
      rw [hi] at h
      cases h
      exact ⟨rfl, rfl⟩
    | noTable =>
      rw [hi] at h
      cases h
      exact ⟨rfl, rfl⟩
    | page =>
      rw [hi] at h
      obtain ⟨y, hy, hrest⟩ := bind_ok.1 h
      unfold Pages.map at hy
      split at hy
      · cases hy
      · cases hy
        have hfail' : ¬ ∀ j ∈ l, got j = .page := by
          intro hall
          apply hfail
          intro j hj
          rcases List.mem_cons.1 hj with rfl | hj
          · exact hi
          · exact hall j hj
        obtain ⟨rfl, rfl⟩ := ih (fun j hj => hl j (List.mem_cons_of_mem i hj)) hfail' hrest
        exact ⟨dealloc_update hsz (hl i List.mem_cons_self), rfl⟩

/-- **Page by page** `allocuvm` does what the model of the kernel says of it. -/
theorem allocuvm_refines (h : x.allocuvm sz newsz got = .ok (x', r)) :
    x.alloc sz newsz (decide (FoundAll sz newsz got)) = .ok x' ∧
      r = allocuvm sz newsz (decide (FoundAll sz newsz got)) := by
  unfold Pages.allocuvm at h
  unfold Pages.alloc allocuvm
  split at h
  · rename_i hkern
    cases h
    rw [if_pos hkern, if_pos hkern]
    exact ⟨rfl, rfl⟩
  · rename_i hkern
    rw [if_neg hkern, if_neg hkern]
    split at h
    · rename_i hlt
      cases h
      rw [if_pos hlt, if_pos hlt]
      exact ⟨rfl, rfl⟩
    · rename_i hge
      have hsz : sz.toNat ≤ KERNBASE.toNat :=
        le_trans (BitVec.not_lt.1 hge) (Nat.le_of_lt (BitVec.not_le.1 hkern))
      rw [if_neg hge, if_neg hge]
      by_cases hfound : FoundAll sz newsz got
      · rw [allocLoop_found hfound] at h
        rw [decide_eq_true hfound, if_pos rfl, if_pos rfl]
        cases hmap : (pagesFrom (pgroundup sz) newsz).foldlM Pages.map x with
        | error t =>
          rw [hmap] at h
          cases h
        | ok y =>
          rw [hmap] at h
          cases h
          exact ⟨rfl, rfl⟩
      · obtain ⟨rfl, rfl⟩ := allocLoop_failed hsz (fun _ hi => hi) hfound h
        rw [decide_eq_false hfound]
        exact ⟨rfl, rfl⟩

theorem resize_refines (h : x.resize sz k got = .ok (x', r)) :
    x.grow sz k (decide (FoundAll sz (sz + k) got)) = .ok x' ∧
      newSize sz k (decide (FoundAll sz (sz + k) got)) = if k ≠ 0 ∧ r = 0 then none else some r := by
  unfold Pages.resize at h
  unfold Pages.grow newSize
  split at h
  · rename_i hpos
    have hne : k ≠ 0 := by
      rintro rfl
      cases hpos
    obtain ⟨hx', rfl⟩ := allocuvm_refines h
    rw [if_pos hpos, if_pos hpos]
    refine ⟨hx', ?_⟩
    simp only [ne_eq, hne, not_false_eq_true, true_and]
  · rename_i hpos
    rw [if_neg hpos, if_neg hpos]
    split at h
    · rename_i hneg
      have hne : k ≠ 0 := by
        rintro rfl
        cases hneg
      cases h
      rw [if_pos hneg, if_pos hneg]
      refine ⟨rfl, ?_⟩
      simp only [ne_eq, hne, not_false_eq_true, true_and]
    · rename_i hneg
      cases h
      rw [if_neg hneg, if_neg hneg]
      have hzero : k = 0 := by
        rw [slt_pos] at hpos
        rw [slt_neg] at hneg
        rw [← toInt_zero]
        omega
      refine ⟨rfl, ?_⟩
      rw [if_neg fun h => h.1 hzero]

/-- What the critical section leaves: on the stack of the caller, what is to be stored. -/
def MState.between (s : MState n) (c : Fin n) : Option (Slot × BitVec 32) → MState n
  | none => s
  | some (m, sz) => { s with kernel := s.kernel.setFrame c ⟨.grow m sz, false⟩ }

/-- **The critical section is a step of the kernel.** -/
theorem growSection_step {o : Option (Slot × BitVec 32)} (hu : s.kernel.user c = some p) (hfree : s.kernel.Free)
    (hmain : s.kernel.proc.main p = some m) (hd : (s.kernel.proc m).pgdir = some d)
    (h : growSection s c p k got = .ok (o, s')) :
    mstep s (.proc (.growproc c k
      (decide (FoundAll (s.kernel.proc m).sz ((s.kernel.proc m).sz + k) got)))) = some (.ok (s'.between c o)) := by
  rw [growSection_eq hmain hd] at h
  unfold mstep step pagesAfter
  simp only [hu, if_pos hfree]
  by_cases hlim : (s.kernel.proc p).limited k
  · rw [if_pos hlim] at h
    cases h
    rw [if_pos hlim, if_pos hlim]
    rfl
  · rw [if_neg hlim] at h
    rw [if_neg hlim, if_neg hlim, hmain]
    dsimp only
    rw [hd]
    dsimp only
    cases hres : (s.pages d).resize (s.kernel.proc m).sz k got with
    | error t =>
      rw [hres] at h
      cases h
    | ok y =>
      obtain ⟨x', r⟩ := y
      rw [hres] at h
      obtain ⟨hgrow, hnew⟩ := resize_refines hres
      rw [hgrow]
      unfold State.growproc
      rw [hnew, hd, if_neg (by simp)]
      have h' : (if k ≠ 0 ∧ r = 0 then _ else _) = (o, s') := Except.ok.inj h
      split at h'
      · rename_i hbad
        cases h'
        rw [if_pos hbad]
        rfl
      · rename_i hgood
        cases h'
        rw [if_neg hgood]
        show some (Except.ok _) = _
        unfold MState.between MState.setLock State.setFrame
        rw [show s.kernel.lock = none from hfree]

/-- And so is what follows it. -/
theorem growStore_mstep {s : MState n} {sz : BitVec 32} {u : State n} (hu : s.kernel.user c = some p)
    (hsw : { s.kernel with proc := s.kernel.proc.resize m sz }.switchuvm c m = .ok u) :
    mstep (s.between c (some (m, sz))) (.proc (.growStore c)) = some (.ok { s with kernel := u }) := by
  obtain ⟨hp, hf⟩ := current_some (user_some hu)
  obtain ⟨ks, d, hks, hd, rfl⟩ := switchuvm_ok hsw
  have hcur : (s.kernel.setFrame c ⟨.grow m sz, false⟩).current c = some (p, ⟨.grow m sz, false⟩) :=
    current_setFrame hp _ rfl rfl
  -- the frame is as it was
  have hframe : Function.update (Function.update s.kernel.frame (s.kernel.cpu c).stack ⟨.grow m sz, false⟩)
      (s.kernel.cpu c).stack .idle = s.kernel.frame := by
    rw [Function.update_idem, ← hf]
    exact Function.update_eq_self _ _
  have hstep : step (s.kernel.setFrame c ⟨.grow m sz, false⟩) (.growStore c) = some (.ok
      ({ s.kernel with proc := s.kernel.proc.resize m sz }.setCpu c
        { s.kernel.cpu c with esp0 := some ks, cr3 := some d })) := by
    have hks' : ((s.kernel.setFrame c ⟨.grow m sz, false⟩).proc.resize m sz m).kstack = some ks := hks
    have hd' : ((s.kernel.setFrame c ⟨.grow m sz, false⟩).proc.resize m sz m).pgdir = some d := hd
    simp only [step, hcur, State.growStore, State.switchuvm, hks', hd', bind, Except.bind]
    simp only [State.setFrame, State.setCpu, Function.update_self, hframe]
  simp only [mstep, MState.between, hstep]
  rfl

/-- **`growproc` is one or two steps of the kernel**, when nothing else runs in between. -/
theorem growproc_step {ret : ℤ} (hu : s.kernel.user c = some p) (hfree : s.kernel.Free)
    (hmain : s.kernel.proc.main p = some m) (hd : (s.kernel.proc m).pgdir = some d)
    (h : growproc s c p k got = .ok (ret, s')) :
    (mmachine n).run s (.proc (.growproc c k
      (decide (FoundAll (s.kernel.proc m).sz ((s.kernel.proc m).sz + k) got))) ::
        if ret = 0 then [.proc (.growStore c)] else []) = some (.ok s') := by
  rw [growproc] at h
  cases hsec : growSection s c p k got with
  | error t => rw [hsec] at h; cases h
  | ok y =>
    obtain ⟨o, s₁⟩ := y
    rw [hsec] at h
    refine (Machine.run_cons (growSection_step hu hfree hmain hd hsec) _).trans ?_
    cases o with
    | none => cases h; rfl
    | some x =>
      obtain ⟨m', sz⟩ := x
      have hkernel : s₁.kernel = { s.kernel with lock := none } := growSection_kernel hmain hd hsec
      dsimp only [bind, Except.bind] at h
      split at h
      · cases h
      · rename_i u hsw
        cases h
        exact Machine.run_cons (growStore_mstep (by rw [hkernel]; exact hu) hsw) []

theorem mboot_smooth : Smooth ((mboot 1).pages 0) PGSIZE 4096 fun _ => .page := by
  have htotal : total PGSIZE 4096 = 8192 := by decide
  refine ⟨fun _ => .inl ⟨by rw [htotal]; decide, fun _ _ => rfl⟩, fun hneg => absurd hneg (by decide), ?_⟩
  rw [htotal]
  intro _ _ i
  have hpage : (mboot 1).pages 0 i = Function.update Pages.empty 0 true i := rfl
  have hsize : PGSIZE.toNat = 4096 := rfl
  rw [hpage, hsize]
  by_cases hi : i = 0
  · subst hi
    exact ⟨fun _ => rfl, fun h => absurd h (by decide)⟩
  · rw [Function.update_of_ne hi]
    refine ⟨fun h => ?_, fun _ => rfl⟩
    omega

/-- `init` grows by a page. -/
theorem growproc_exact_boot : ∃ r s', growproc (mboot 1) 0 0 4096 (fun _ => .page) = .ok (r, s') ∧
    AllOrNothing (mboot 1) 0 0 4096 r s' :=
  (growproc_exact (mboot 1) 0 0 0 0 0 4096 (fun _ => .page) rfl rfl rfl).2 ⟨by decide, mboot_smooth⟩

/-- **Shrinking to nothing** returns -1, and yet the page is gone; and the lock stays held. -/
theorem growproc_gives_all_back : ∃ s', growproc (mboot 1) 0 0 (-4096) (fun _ => .page) = .ok (-1, s') ∧
    s'.kernel.lock = some 0 ∧ (mboot 1).pages 0 0 = true ∧ s'.pages 0 0 = false ∧
    (s'.kernel.proc 0).sz = 4096 ∧ ¬ AllOrNothing (mboot 1) 0 0 (-4096) (-1) s' := by
  have hrun : growproc (mboot 1) 0 0 (-4096) (fun _ => .page) = .ok (-1, { (mboot 1).setLock (some 0) with
      pages := Function.update (mboot 1).pages 0 (((mboot 1).pages 0).dealloc 4096 0) }) := by
    have hks : ((mboot 1).kernel.proc 0).kstack = some 0 := rfl
    have hd : ((mboot 1).kernel.proc 0).pgdir = some 0 := rfl
    have hmain : (mboot 1).kernel.proc.main 0 = some 0 := rfl
    rw [growproc_eq hmain hd hks]
    rfl
  refine ⟨_, hrun, rfl, rfl, by decide, rfl, fun h => ?_⟩
  cases h.lock

end Xv6.Lwp
