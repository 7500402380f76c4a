import Xv6.Lwp.Dirs
import Xv6.Lwp.Frames

/-!
# The pages of a process

Every page directory has the user pages that are present in it. The main thread and its
LWPs share them, but each has a `sz` of its own: `allocuvm` and `deallocuvm` go by that of
the main thread, `copyuvm` and the checks of the arguments of system calls by that of the
caller.

* `mmachine`: the kernel with its page directories.
* `OneSize`: all that share a page directory agree on its size.
* `Resizes`: the size changes while no LWP has a copy of it.
-/

namespace Xv6.Lwp

/-- The user pages that are present, by number. -/
abbrev Pages := ℕ → Bool

inductive Trap
  | proc (f : Fault)
  /-- `panic("remap")` -/
  | remap
  /-- `panic("copyuvm")` -/
  | copyuvm
  deriving DecidableEq

/-- The page of an address. -/
def pageOf (a : BitVec 32) : ℕ := a.toNat / 4096

/-- The pages of `for(; a < sz; a += PGSIZE)`. -/
def pagesFrom (a sz : BitVec 32) : List ℕ := List.range' (pageOf a) ((sz.toNat + 4095) / 4096 - pageOf a)

namespace Pages

/-- The user part of what `setupkvm` returns. -/
def empty : Pages := fun _ => false

/-- `mappages`, for one page. -/
def map (m : Pages) (i : ℕ) : Except Trap Pages :=
  if m i then .error .remap else .ok (Function.update m i true)

/-- `deallocuvm` skips the pages that are not present. -/
def dealloc (m : Pages) (oldsz newsz : BitVec 32) : Pages :=
  if newsz ≥ oldsz then m
  else (pagesFrom (pgroundup newsz) oldsz).foldl (fun m i => Function.update m i false) m

/-- `allocuvm`; `ok` says that it finds the pages. -/
def alloc (m : Pages) (oldsz newsz : BitVec 32) (ok : Bool) : Except Trap Pages :=
  if newsz ≥ KERNBASE then .ok m
  else if newsz < oldsz then .ok m
  else if ok then (pagesFrom (pgroundup oldsz) newsz).foldlM map m
  else .ok (m.dealloc newsz oldsz)

/-- `freevm`. -/
def free (m : Pages) : Pages := m.dealloc KERNBASE 0

def copyPage (m d : Pages) (i : ℕ) : Except Trap Pages := if m i then d.map i else .error .copyuvm

/-- `copyuvm`, when it finds the pages. -/
def copy (m : Pages) (sz : BitVec 32) : Except Trap Pages := (pagesFrom 0 sz).foldlM m.copyPage empty

/-- The calls in `growproc`. -/
def grow (m : Pages) (sz n : BitVec 32) (ok : Bool) : Except Trap Pages :=
  if BitVec.slt 0 n then m.alloc sz (sz + n) ok
  else if BitVec.slt n 0 then .ok (m.dealloc sz (sz + n))
  else .ok m

end Pages

/-- A segment that ends at `e` is loaded; nothing is left when `allocuvm` returns 0. -/
def loadSegment (x : Option (Pages × BitVec 32)) (e : BitVec 32) : Except Trap (Option (Pages × BitVec 32)) :=
  match x with
  | none => .ok none
  | some (m, sz) =>
    (m.alloc sz e true).map fun m => if allocuvm sz e true = 0 then none else some (m, allocuvm sz e true)

/-- The image that `exec` makes of segments that end at `ends`, with `stack` bytes for the stack. -/
def loadImage (ends : List (BitVec 32)) (stack : BitVec 32) : Except Trap (Option (Pages × BitVec 32)) := do
  match ← ends.foldlM loadSegment (some (Pages.empty, 0)) with
  | none => .ok none
  | some (m, sz) => loadSegment (some (m, pgroundup sz)) (pgroundup sz + stack)

variable {n : ℕ}

/-- The kernel and its page directories. -/
structure MState (n : ℕ) where
  kernel : State n
  pages : Dir → Pages

inductive MEvent (n : ℕ)
  | proc (e : Event n)
  /-- `exec`, or `exec2` with `stacksize`, from the segments to the commit -/
  | commit (c : Fin n) (ends : List (BitVec 32)) (stacksize : BitVec 32)

/-- The bytes of the stack that `exec` makes: two pages, and in `exec2` those of its argument and a guard page. -/
def State.stackBytes (s : State n) (c : Fin n) (stacksize : BitVec 32) : BitVec 32 :=
  match s.current c with
  | some (_, ⟨.exec true _, _⟩) => (stacksize + 1) * PGSIZE
  | _ => 2 * PGSIZE

/-- What a step of the kernel, in the state before it, does to the pages. -/
def pagesAfter (s : State n) (x : Dir → Pages) : Event n → Except Trap (Dir → Pages)
  | .growproc c k ok =>
    match s.user c with
    | none => .ok x
    | some p =>
      if (s.proc p).limited k then .ok x
      else
        match s.proc.main p with
        | none => .ok x
        | some m =>
          match (s.proc m).pgdir with
          | none => .ok x
          | some d => ((x d).grow (s.proc m).sz k ok).map (Function.update x d)
  | .threadMap c pages _ =>
    match (s.cpu c).proc.bind s.proc.main with
    | none => .ok x
    | some m =>
      match (s.proc m).pgdir with
      | none => .ok x
      | some d =>
        ((x d).alloc (pgroundup (s.proc m).sz) (pgroundup (s.proc m).sz + 2 * PGSIZE) pages).map
          (Function.update x d)
  | .forkCopy c true =>
    match (s.cpu c).proc with
    | none => .ok x
    | some p =>
      match (s.proc p).pgdir with
      | none => .ok x
      | some d => ((x d).copy (s.proc p).sz).map (Function.update x s.nextDir)
  | .execSetup _ => .ok (Function.update x s.nextDir Pages.empty)
  | .execBad c =>
    match s.current c with
    | some (_, ⟨.exec _ (some d), _⟩) => .ok (Function.update x d (x d).free)
    | _ => .ok x
  | .wait c =>
    match s.reaps c with
    | none => .ok x
    | some z =>
      match (s.proc z).pgdir with
      | none => .ok x
      | some d => .ok (Function.update x d (x d).free)
  | _ => .ok x

/-- The new image replaces the old one. -/
def pagesCommit (s : State n) (x : Dir → Pages) (c : Fin n) (m : Pages) : Dir → Pages :=
  match s.current c with
  | some (p, ⟨.exec _ (some d), _⟩) =>
    match (s.proc p).pgdir with
    | some old => Function.update (Function.update x d m) old (x old).free
    | none => x
  | _ => x

def mstep (s : MState n) : MEvent n → Option (Except Trap (MState n))
  | .proc (.execCommit _ _) => none
  | .proc e =>
    match step s.kernel e with
    | none => none
    | some (.error f) => some (.error (.proc f))
    | some (.ok k) => some ((pagesAfter s.kernel s.pages e).map fun x => ⟨k, x⟩)
  | .commit c ends stacksize =>
    match loadImage ends (s.kernel.stackBytes c stacksize) with
    | .error t => some (.error t)
    | .ok none => none
    | .ok (some (m, sz)) =>
      match step s.kernel (.execCommit c sz) with
      | none => none
      | some (.error f) => some (.error (.proc f))
      | some (.ok k) => some (.ok ⟨k, pagesCommit s.kernel s.pages c m⟩)

def mmachine (n : ℕ) : Machine (MState n) (MEvent n) Trap := ⟨mstep⟩

/-- A step of the kernel faults as it did, or the pages follow it. -/
theorem mstep_proc {s : MState n} {e : Event n} {r : Except Trap (MState n)} (h : mstep s (.proc e) = some r) :
    (∃ f, step s.kernel e = some (.error f) ∧ r = .error (.proc f)) ∨
      ∃ k, step s.kernel e = some (.ok k) ∧ r = (pagesAfter s.kernel s.pages e).map fun x => ⟨k, x⟩ := by
  cases e with
  | execCommit c sz => cases h
  | _ =>
    simp only [mstep] at h
    split at h
    · cases h
    · rename_i f hs
      exact .inl ⟨f, hs, (Option.some.inj h).symm⟩
    · rename_i k hs
      exact .inr ⟨k, hs, (Option.some.inj h).symm⟩

/-- After `userinit`: the first process has page 0. -/
def mboot (n : ℕ) : MState n where
  kernel := boot n
  pages d := if d = 0 then Function.update Pages.empty 0 true else Pages.empty

/-! ## The arguments of system calls -/

/-- The addresses that `fetchint` reads. -/
def Proc.fetchint (x : Proc) (addr : BitVec 32) : Bool := !(addr ≥ x.sz || addr + 4 > x.sz)

/-- The blocks that `argptr` accepts. -/
def Proc.argptr (x : Proc) (i size : BitVec 32) : Bool :=
  !(BitVec.slt size 0 || i ≥ x.sz || i + size > x.sz)

/-! ## What should hold -/

/-- The size of `q`: in `growproc` after `release`, the one that `q` is about to store. -/
def State.size (s : State n) (q : Slot) : BitVec 32 :=
  match (s.frameOf q).call.grows with
  | some (m, sz) => if m = q then sz else (s.proc q).sz
  | none => (s.proc q).sz

/-- All that share a page directory have its size. -/
structure OneSize (s : MState n) : Prop where
  size : ∀ p q d, (s.kernel.proc p).Live → (s.kernel.proc q).Live → (s.kernel.proc p).pgdir = some d →
    (s.kernel.proc q).pgdir = some d → (s.kernel.proc p).sz = (s.kernel.proc q).sz
  /-- the pages below `KERNBASE` -/
  mapped : ∀ p d, (s.kernel.proc p).Live → (s.kernel.proc p).pgdir = some d →
    ∀ i, i * 4096 < KERNBASE.toNat →
      (s.pages d i = true ↔ i * 4096 < (pgroundup (s.kernel.size p)).toNat)

/-- What `fetchint` and `argptr` accept is mapped, for a process that is not in `growproc`. -/
structure ArgsMapped (s : MState n) : Prop where
  fetchint : ∀ p d addr, (s.kernel.proc p).Live → (s.kernel.frameOf p).call.grows = none →
    (s.kernel.proc p).pgdir = some d → (s.kernel.proc p).fetchint addr = true →
    ∀ k < 4, s.pages d ((addr.toNat + k) / 4096) = true
  argptr : ∀ p d i size, (s.kernel.proc p).Live → (s.kernel.frameOf p).call.grows = none →
    (s.kernel.proc p).pgdir = some d → (s.kernel.proc p).argptr i size = true →
    ∀ k < size.toNat, s.pages d ((i.toNat + k) / 4096) = true

/-! ## The condition -/

/-- A process that has its page directory, or will. -/
def State.Uses (s : State n) (q : Slot) : Prop :=
  (s.proc q).Main ∨ (s.proc q).Live ∨ ∃ p, (s.frameOf p).call.fills = some q

instance (s : State n) (q : Slot) : Decidable (s.Uses q) := by unfold State.Uses; infer_instance

/-- Only `m` has its page directory. -/
def State.Alone (s : State n) (m : Slot) : Prop :=
  ∀ q, q ≠ m → s.Uses q → (s.proc q).pgdir ≠ (s.proc m).pgdir

instance (s : State n) (m : Slot) : Decidable (s.Alone m) := by unfold State.Alone; infer_instance

/-- `m` is the main thread of `p`. -/
def State.Leads (s : State n) (m p : Slot) : Prop := (s.proc m).Main ∧ (s.proc m).pgdir = (s.proc p).pgdir

instance (s : State n) (m p : Slot) : Decidable (s.Leads m p) := by unfold State.Leads; infer_instance

/-- `growproc` gets pages. -/
def Grows (sz k : BitVec 32) (ok : Bool) : Prop := BitVec.slt 0 k = true ∧ ok = true ∧ sz + k < KERNBASE

/-- `growproc` gives pages back. -/
def Shrinks (sz k : BitVec 32) : Prop := BitVec.slt 0 k = false ∧ BitVec.slt k 0 = true ∧ sz + k < sz

instance (sz k : BitVec 32) (ok : Bool) : Decidable (Grows sz k ok) := by unfold Grows; infer_instance

instance (sz k : BitVec 32) : Decidable (Shrinks sz k) := by unfold Shrinks; infer_instance

/-- The main thread is still there when its size is read or stored; the size changes only while
the main thread has no LWP, `growproc` does not give back everything, and `thread_create` finds
its pages. -/
def Resizes (s : State n) : Event n → Prop
  | .growproc c k ok => ∀ p m, s.user c = some p → s.proc.main p = some m → ¬ (s.proc p).limited k →
      s.Leads m p ∧ (Grows (s.proc m).sz k ok ∨ Shrinks (s.proc m).sz k → s.Alone m) ∧
        (Shrinks (s.proc m).sz k → (s.proc m).sz + k ≠ 0)
  | .growStore c => (s.current c).all fun x => x.2.call.grows.all fun g => s.Leads g.1 x.1
  | .threadMap c pages _ => ∀ p m, (s.cpu c).proc = some p → s.proc.main p = some m →
      s.Leads m p ∧ s.Alone m ∧ pages = true ∧ pgroundup (s.proc m).sz + 2 * PGSIZE < KERNBASE
  | _ => True

instance (s : State n) (e : Event n) : Decidable (Resizes s e) := by
  unfold Resizes; rcases e with ⟨⟩ <;> infer_instance

def Careful (s : MState n) : MEvent n → Prop
  | .proc e => Orderly s.kernel e ∧ Resizes s.kernel e
  | .commit c _ _ => Orderly s.kernel (.execCommit c 0)

instance (s : MState n) (e : MEvent n) : Decidable (Careful s e) := by
  unfold Careful; rcases e with ⟨⟩ <;> infer_instance

/-! ## Page directories that have all pages below a size -/

/-- The pages below `sz`, and no others. -/
def Pages.Full (m : Pages) (sz : BitVec 32) : Prop := ∀ i, m i = true ↔ i * 4096 < sz.toNat

section Pages

variable {m : Pages} {sz newsz : BitVec 32} {ok : Bool} {l : List ℕ}

theorem pgroundup_toNat (h : sz.toNat ≤ KERNBASE.toNat) :
    (pgroundup sz).toNat = (sz.toNat + 4095) / 4096 * 4096 := by
  have hadd : (sz + (PGSIZE - 1)).toNat = sz.toNat + 4095 := by
    have hmask : (PGSIZE - 1).toNat = 4095 := by decide
    have hkern : KERNBASE.toNat = 2147483648 := by decide
    rw [BitVec.toNat_add, hmask]
    omega
  -- the low twelve bits go
  have hshift : ∀ x : BitVec 32, x &&& ~~~(PGSIZE - 1) = x >>> 12 <<< 12 := by
    intro x
    have hmask : ∀ i (h : i < 32), (~~~(PGSIZE - 1))[i] = !decide (i < 12) := by decide
    ext i hi
    rw [BitVec.getElem_and, hmask i hi, BitVec.getElem_shiftLeft]
    by_cases h12 : i < 12
    · simp [h12]
    · have hback : 12 + (i - 12) = i := by omega
      simp [h12, hback, BitVec.getLsbD_eq_getElem hi]
  unfold pgroundup
  rw [hshift, BitVec.toNat_shiftLeft, BitVec.toNat_ushiftRight, hadd, Nat.shiftRight_eq_div_pow,
    Nat.shiftLeft_eq]
  have hkern : KERNBASE.toNat = 2147483648 := by decide
  omega

theorem mem_pagesFrom {a : BitVec 32} {i : ℕ} : i ∈ pagesFrom a sz ↔ pageOf a ≤ i ∧ i * 4096 < sz.toNat := by
  unfold pagesFrom
  rw [List.mem_range'_1]
  omega

theorem nodup_pagesFrom (a sz : BitVec 32) : (pagesFrom a sz).Nodup := List.nodup_range'

theorem pageOf_pgroundup (h : sz.toNat ≤ KERNBASE.toNat) : pageOf (pgroundup sz) = (sz.toNat + 4095) / 4096 := by
  unfold pageOf
  rw [pgroundup_toNat h]
  omega

/-- The pages of the loop of `allocuvm` and `deallocuvm`. -/
theorem mem_pages {i : ℕ} (h : sz.toNat ≤ KERNBASE.toNat) :
    i ∈ pagesFrom (pgroundup sz) newsz ↔ sz.toNat ≤ i * 4096 ∧ i * 4096 < newsz.toNat := by
  rw [mem_pagesFrom, pageOf_pgroundup h]
  omega

theorem unmap_loop (m : Pages) (i : ℕ) :
    (l.foldl (fun m i => Function.update m i false) m) i = if i ∈ l then false else m i := by
  induction l generalizing m with
  | nil => rw [if_neg List.not_mem_nil]; rfl
  | cons j l ih =>
    rw [List.foldl_cons, ih]
    by_cases hij : i = j
    · simp [hij]
    · simp [hij]

/-- Pages that are not there can be mapped. -/
theorem map_loop (hn : l.Nodup) (hm : ∀ i ∈ l, m i = false) :
    ∃ m', l.foldlM Pages.map m = .ok m' ∧ ∀ i, m' i = (decide (i ∈ l) || m i) := by
  induction l generalizing m with
  | nil => exact ⟨m, rfl, fun i => by simp⟩
  | cons j l ih =>
    have hj : m j = false := hm j List.mem_cons_self
    have hnot : j ∉ l := (List.nodup_cons.1 hn).1
    obtain ⟨m', hrun, hm'⟩ := ih (m := Function.update m j true) (List.nodup_cons.1 hn).2 fun i hi => by
      have hij : i ≠ j := fun e => hnot (e ▸ hi)
      rw [Function.update_of_ne hij]
      exact hm i (List.mem_cons_of_mem j hi)
    refine ⟨m', ?_, fun i => ?_⟩
    · rw [List.foldlM_cons]
      unfold Pages.map
      rw [hj]
      exact hrun
    · rw [hm' i]
      by_cases hij : i = j
      · simp [hij]
      · simp [hij]

theorem full_empty : Pages.Full Pages.empty 0 := by
  intro i
  simp [Pages.empty]

namespace Pages.Full

theorem round (h : m.Full sz) (hsz : sz.toNat ≤ KERNBASE.toNat) : m.Full (pgroundup sz) := by
  intro i
  rw [h i, pgroundup_toNat hsz]
  omega

theorem dealloc (h : m.Full sz) (hsz : sz.toNat ≤ KERNBASE.toNat) (hle : newsz ≤ sz) :
    (m.dealloc sz newsz).Full newsz := by
  intro i
  have hle' : newsz.toNat ≤ sz.toNat := hle
  unfold Pages.dealloc
  split
  · rename_i hge
    rw [BitVec.le_antisymm hle hge]
    exact h i
  · rw [unmap_loop]
    split
    · rename_i hi
      rw [mem_pages (hle'.trans hsz)] at hi
      simp only [Bool.false_eq_true, false_iff]
      omega
    · rename_i hi
      rw [mem_pages (hle'.trans hsz)] at hi
      rw [h i]
      omega

/-- **`allocuvm`** maps the pages up to the new size, or none. -/
theorem alloc (h : m.Full sz) (hle : sz.toNat ≤ KERNBASE.toNat) (newsz : BitVec 32) (ok : Bool) :
    ∃ m', m.alloc sz newsz ok = .ok m' ∧
      m'.Full (if allocuvm sz newsz ok = 0 then sz else allocuvm sz newsz ok) := by
  unfold Pages.alloc allocuvm
  by_cases hkern : newsz ≥ KERNBASE
  · rw [if_pos hkern, if_pos hkern]
    exact ⟨m, rfl, by rwa [if_pos rfl]⟩
  · rw [if_neg hkern, if_neg hkern]
    by_cases hlt : newsz < sz
    · rw [if_pos hlt, if_pos hlt]
      refine ⟨m, rfl, ?_⟩
      split <;> exact h
    · rw [if_neg hlt, if_neg hlt]
      have hge : sz ≤ newsz := BitVec.not_lt.1 hlt
      have hge' : sz.toNat ≤ newsz.toNat := hge
      cases ok with
      | false =>
        refine ⟨_, rfl, ?_⟩
        -- what was mapped is unmapped
        simp only [Bool.false_eq_true, if_false, if_true]
        intro i
        unfold Pages.dealloc
        split
        · exact h i
        · rw [unmap_loop]
          split
          · rename_i hi
            rw [mem_pages hle] at hi
            simp only [Bool.false_eq_true, false_iff]
            omega
          · exact h i
      | true =>
        simp only [if_true]
        obtain ⟨m', hrun, hm'⟩ := map_loop (m := m) (nodup_pagesFrom (pgroundup sz) newsz) fun i hi => by
          rw [mem_pages hle] at hi
          have hnot : ¬ m i = true := by rw [h i]; omega
          simpa using hnot
        refine ⟨m', hrun, fun i => ?_⟩
        rw [hm' i, Bool.or_eq_true, decide_eq_true_iff, mem_pages hle, h i]
        split
        · rename_i h0
          rw [h0] at hge'
          simp at hge'
          rw [h0]
          simp [hge']
        · omega

/-- **`copyuvm`** of a full page directory. -/
theorem copy (h : m.Full sz) : ∃ d, m.copy sz = .ok d ∧ d.Full sz := by
  obtain ⟨d, hrun, hd⟩ := map_loop (m := Pages.empty) (nodup_pagesFrom 0 sz) fun _ _ => rfl
  have hsame : ∀ (l : List ℕ) (d : Pages), (∀ i ∈ l, m i = true) →
      l.foldlM m.copyPage d = l.foldlM Pages.map d := by
    intro l
    induction l with
    | nil => exact fun _ _ => rfl
    | cons j l ih =>
      intro d hl
      rw [List.foldlM_cons, List.foldlM_cons]
      have hj : m.copyPage d j = d.map j := if_pos (hl j List.mem_cons_self)
      rw [hj]
      cases d.map j with
      | error e => rfl
      | ok d' => exact ih d' fun i hi => hl i (List.mem_cons_of_mem j hi)
  refine ⟨d, ?_, fun i => ?_⟩
  · unfold Pages.copy
    rw [hsame _ _ fun i hi => (h i).2 (mem_pagesFrom.1 hi).2]
    exact hrun
  · rw [hd i, Bool.or_eq_true, decide_eq_true_iff, mem_pagesFrom]
    simp [Pages.empty, pageOf]

end Pages.Full

theorem allocuvm_le (hsz : sz.toNat ≤ KERNBASE.toNat) : (allocuvm sz newsz ok).toNat ≤ KERNBASE.toNat := by
  unfold allocuvm
  split
  · exact Nat.zero_le _
  · rename_i hkern
    split
    · exact hsz
    · split
      · exact Nat.le_of_lt (BitVec.not_le.1 hkern)
      · exact Nat.zero_le _

theorem deallocuvm_le : (deallocuvm sz newsz).toNat ≤ sz.toNat := by
  unfold deallocuvm
  split
  · exact le_rfl
  · rename_i hge
    exact Nat.le_of_lt (BitVec.not_le.1 hge)

/-- `growproc` keeps the size when it does not get pages or give pages back. -/
theorem newSize_same {k sz' : BitVec 32} (h : newSize sz k ok = some sz') (hgrow : ¬ Grows sz k ok)
    (hshrink : ¬ Shrinks sz k) : sz' = sz := by
  unfold newSize at h
  split_ifs at h with hpos h0 hneg h0
  · cases h
    unfold allocuvm at h0 ⊢
    split_ifs at h0 ⊢ with hkern hlt hok
    · exact absurd rfl h0
    · rfl
    · exact absurd ⟨hpos, hok, BitVec.not_le.1 hkern⟩ hgrow
    · exact absurd rfl h0
  · cases h
    unfold deallocuvm
    split_ifs with hge
    · rfl
    · exact absurd ⟨by simpa using hpos, hneg, BitVec.not_le.1 hge⟩ hshrink
  · cases h
    rfl

theorem newSize_le_kernbase {k sz' : BitVec 32} (h : newSize sz k ok = some sz')
    (hsz : sz.toNat ≤ KERNBASE.toNat) : sz'.toNat ≤ KERNBASE.toNat := by
  unfold newSize at h
  split_ifs at h
  · cases h; exact allocuvm_le hsz
  · cases h; exact deallocuvm_le.trans hsz
  · cases h; exact hsz

/-- **`growproc`** keeps the pages below the size, unless it gives everything back. -/
theorem Pages.Full.grow (h : m.Full sz) (hsz : sz.toNat ≤ KERNBASE.toNat) (k : BitVec 32) (ok : Bool)
    (hall : Shrinks sz k → sz + k ≠ 0) :
    ∃ m', m.grow sz k ok = .ok m' ∧ m'.Full ((newSize sz k ok).getD sz) := by
  unfold Pages.grow newSize
  by_cases hpos : BitVec.slt 0 k = true
  · rw [if_pos hpos, if_pos hpos]
    obtain ⟨m', hrun, hm'⟩ := h.alloc hsz (sz + k) ok
    refine ⟨m', hrun, ?_⟩
    split at hm' <;> rename_i h0
    · rwa [if_pos h0]
    · rwa [if_neg h0]
  · rw [if_neg hpos, if_neg hpos]
    by_cases hneg : BitVec.slt k 0 = true
    · rw [if_pos hneg, if_pos hneg]
      refine ⟨_, rfl, ?_⟩
      unfold deallocuvm
      by_cases hge : sz + k ≥ sz
      · -- nothing is given back
        have hsame : m.dealloc sz (sz + k) = m := if_pos hge
        rw [hsame, if_pos hge]
        split <;> exact h
      · have hlt := BitVec.not_le.1 hge
        rw [if_neg hge, if_neg (hall ⟨by simpa using hpos, hneg, hlt⟩)]
        exact h.dealloc hsz (BitVec.le_of_lt hlt)
    · rw [if_neg hneg, if_neg hneg]
      exact ⟨m, rfl, h⟩

/-- A partly loaded image. -/
def Loaded (x : Option (Pages × BitVec 32)) : Prop :=
  ∀ m sz, x = some (m, sz) → m.Full sz ∧ sz.toNat ≤ KERNBASE.toNat

theorem loaded_segment {x : Option (Pages × BitVec 32)} (h : Loaded x) (e : BitVec 32) :
    ∃ y, loadSegment x e = .ok y ∧ Loaded y := by
  match x with
  | none => exact ⟨none, rfl, h⟩
  | some (m, sz) =>
    obtain ⟨hm, hsz⟩ := h m sz rfl
    obtain ⟨m', hrun, hm'⟩ := hm.alloc hsz e true
    refine ⟨_, by rw [loadSegment, hrun]; rfl, ?_⟩
    intro m₁ sz₁ he
    split at he
    · cases he
    · rename_i h0
      cases he
      rw [if_neg h0] at hm'
      exact ⟨hm', allocuvm_le hsz⟩

/-- **An image has the pages below its size.** -/
theorem loaded_image (ends : List (BitVec 32)) (stack : BitVec 32) :
    ∃ y, loadImage ends stack = .ok y ∧ Loaded y := by
  have hloop : ∀ (l : List (BitVec 32)) x, Loaded x → ∃ y, l.foldlM loadSegment x = .ok y ∧ Loaded y := by
    intro l
    induction l with
    | nil => exact fun x hx => ⟨x, rfl, hx⟩
    | cons e l ih =>
      intro x hx
      obtain ⟨y, hy, hyl⟩ := loaded_segment hx e
      obtain ⟨z, hz, hzl⟩ := ih y hyl
      refine ⟨z, ?_, hzl⟩
      rw [List.foldlM_cons, hy]
      exact hz
  obtain ⟨y, hy, hyl⟩ := hloop ends (some (Pages.empty, 0)) fun m sz he => by
    cases he
    exact ⟨full_empty, Nat.zero_le _⟩
  unfold loadImage
  rw [hy]
  match y with
  | none => exact ⟨none, rfl, hyl⟩
  | some (m, sz) =>
    obtain ⟨hm, hsz⟩ := hyl m sz rfl
    have hround : (pgroundup sz).toNat ≤ KERNBASE.toNat := by
      rw [pgroundup_toNat hsz]
      have hkern : KERNBASE.toNat = 2147483648 := by decide
      omega
    have hx : Loaded (some (m, pgroundup sz)) := by
      intro m₁ sz₁ he
      obtain ⟨rfl, rfl⟩ := Prod.mk.inj (Option.some.inj he)
      exact ⟨hm.round hsz, hround⟩
    obtain ⟨z, hz, hzl⟩ := loaded_segment hx (pgroundup sz + stack)
    refine ⟨z, ?_, hzl⟩
    simp only [bind, Except.bind]
    exact hz

end Pages

end Xv6.Lwp
