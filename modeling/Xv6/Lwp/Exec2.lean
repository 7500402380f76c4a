import Xv6.Lwp.Exec

/-!
# `exec2`

`exec` with a stack of any size, given as an `int`. It does not kill the LWPs.

* `exec2`: the whole function, with the `PTE_U` bits, the page tables that `copyout` walks, and what it writes.
* `Asked`: what a call should do. With 0 the new stack is `Laid`, with -1 the process is as before.
* `pushArgs2_spec`: the loop over the arguments against the same descent in unbounded integers (`lowered`).
* **`exec2_asked_iff`**: a call does it if and only if the stack fits (`Roomy`), or the process had that `stacksize`
  already and the call is refused without a panic (`Refused`).
* **`exec2_over_image`**: with -1 there is no guard page, and the arguments go over the image.
-/

namespace Xv6.Lwp

variable {n : ℕ}

/-! ## The page tables -/

/-- The page directory entries that `setupkvm` fills in. -/
def kernelTable (i : ℕ) : Bool := 512 ≤ i ∧ i < 568 ∨ 1016 ≤ i

/-- `walkpgdir` finds a page table for page `i`. -/
def Pages.table (x : Pages) (i : ℕ) : Bool :=
  kernelTable (i / 1024) || (List.range 1024).any fun j => x (i / 1024 * 1024 + j)

inductive Exec2Trap
  | exec (t : ExecTrap)
  /-- `uva2ka` reads through the null pointer that `walkpgdir` returns -/
  | uva2ka
  deriving DecidableEq

def lift2 {α : Type} : Except ExecTrap α → Except Exec2Trap α
  | .ok x => .ok x
  | .error t => .error (.exec t)

/-! ## The stack -/

/-- A string, as long as `strlen` can tell. -/
abbrev Arg := { a : List Byte // a.length < 2 ^ 31 }

/-- The loop of `copyout` over its pages; false is its -1. -/
def copyoutPages (x user : Pages) : List ℕ → Except Exec2Trap Bool
  | [] => .ok true
  | i :: l =>
    if x.table i = false then .error .uva2ka
    else if user i = false then .ok false
    else copyoutPages x user l

/-- `copyout` of `len` bytes, which are not none. -/
def copyout2 (x user : Pages) (va : BitVec 32) (len : ℕ) : Except Exec2Trap Bool :=
  copyoutPages x user
    ((List.range ((va.toNat % 4096 + len + 4095) / 4096)).map fun j => (pageOf va + j) % 2 ^ 20)

/-- The addresses that were written, with the lengths. -/
abbrev Writes := List (BitVec 32 × ℕ)

/-- Push the argument strings; the result is `argc`, `sp` and what was written. -/
def pushArgs2 (x user : Pages) : List Arg → ℕ → BitVec 32 → Writes → Except Exec2Trap (Option (ℕ × BitVec 32 × Writes))
  | [], argc, sp, w => .ok (some (argc, sp, w))
  | arg :: argv, argc, sp, w =>
    if argc ≥ MAXARG then .ok none
    else do
      let sp := (sp - BitVec.ofNat 32 (arg.1.length + 1)) &&& ~~~3
      if (← copyout2 x user sp (arg.1.length + 1)) = false then .ok none
      else pushArgs2 x user argv (argc + 1) sp ((sp, arg.1.length + 1) :: w)

/-- The new stack. -/
structure NewStack where
  sz : BitVec 32
  sp : BitVec 32
  user : Pages
  written : Writes

/-- Push `ustack`: the fake return PC, `argc`, `argv` and the pointers to the strings. -/
def pushUstack (x user : Pages) (sz : BitVec 32) (argc : ℕ) (sp : BitVec 32) (w : Writes) :
    Except Exec2Trap (Option NewStack) := do
  let size := (3 + argc + 1) * 4
  let sp := sp - BitVec.ofNat 32 size
  if (← copyout2 x user sp size) = false then .ok none
  else .ok (some ⟨sz, sp, user, (sp, size) :: w⟩)

/-- Push argument strings, prepare rest of stack in `ustack`. -/
def pushAll (x user : Pages) (sz : BitVec 32) (argv : List Arg) : Except Exec2Trap (Option NewStack) := do
  match ← pushArgs2 x user argv 0 sz [] with
  | none => .ok none
  | some (argc, sp, w) => pushUstack x user sz argc sp w

/-- The pages of the stack and what is pushed there. -/
def buildStack2 (x : Pages) (sz stacksize : BitVec 32) (got : ℕ → Got) (argv : List Arg) :
    Except Exec2Trap (Option NewStack × Pages) := do
  let old := pgroundup sz
  let len := (stacksize + 1) * PGSIZE
  let (x, sz) ← lift2 (vm (x.allocuvm old (old + len) got))
  if sz = 0 then .ok (none, x)
  else if x.table (pageOf (sz - len)) = false then .error (.exec .clearpteu)
  else
    let st ← pushAll x (Function.update x (pageOf (sz - len)) false) sz argv
    .ok (st, x)

/-! ## The function -/

/-- With the `stacksize` of the processes, the pages with `PTE_U`, and what `copyout` wrote. -/
structure YState (n : ℕ) extends XState n where
  stacksize : Slot → BitVec 32
  user : Dir → Pages
  written : Dir → Writes

def YState.setX (s : YState n) (x : XState n) : YState n := { s with toXState := x }

/-- `bad`, with `pgdir` and `ip` as they are there. -/
def YState.bad2 (s : YState n) (pgdir : Option Dir) (ip : Bool) : ℤ × YState n := (-1, s.setX (s.bad pgdir ip).2)

/-- Commit to the user image. -/
def YState.commit2 (s : YState n) (c : Fin n) (p : Slot) (d : Dir) (st : NewStack) (entry : BitVec 32) :
    Except Exec2Trap (ℤ × YState n) := do
  let (r, x) ← lift2 (s.commit c p d st.sz entry st.sp)
  .ok (r, { s with
    toXState := x
    user := Function.update s.user d st.user
    written := Function.update s.written d st.written })

/-- The end of `exec2`, with the stack or without. -/
def YState.finish (s : YState n) (c : Fin n) (p : Slot) (d : Dir) (entry : BitVec 32) :
    Option NewStack × Pages → Except Exec2Trap (ℤ × YState n)
  | (none, x) => .ok ((s.setX (s.setPages d x)).bad2 (some d) false)
  | (some st, x) => (s.setX (s.setPages d x)).commit2 c p d st entry

/-- `exec2(path, argv, stacksize)`, called by `p`; `file` is what `namei(path)` finds. -/
def exec2 (s : YState n) (c : Fin n) (p : Slot) (file : Option Program) (argv : List Arg) (stacksize : BitVec 32)
    (g : Grants) : Except Exec2Trap (ℤ × YState n) :=
  let s := s.setX (s.addOps 1)
  match file with
  | none => .ok (-1, s.setX (s.addOps (-1)))
  | some f =>
    if f.readi 0 elfhdrSize ≠ elfhdrSize.toNat then .ok (s.bad2 none true)
    else if f.elfhdr.magic ≠ ELF_MAGIC then .ok (s.bad2 none true)
    else if g.kvm = false then .ok (s.bad2 none true)
    else do
      let d := s.base.kernel.nextDir
      let s := s.setX ((s.setKernel { s.base.kernel with nextDir := d + 1 }).setPages d Pages.empty)
      match ← lift2 (loadHeaders f g.headers f.elfhdr.phnum f.elfhdr.phoff Pages.empty 0) with
      | (none, x) => .ok ((s.setX (s.setPages d x)).bad2 (some d) true)
      | (some sz, x) =>
        let s := { s.setX (s.addOps (-1)) with stacksize := Function.update s.stacksize p stacksize }
        s.finish c p d f.elfhdr.entry (← buildStack2 x sz stacksize g.stack argv)

/-! ## What a call should do -/

/-- The stack that was asked for, above an image that ends at `base`, and everything pushed inside it. -/
structure Laid (s : YState n) (p : Slot) (d : Dir) (base stacksize : BitVec 32) : Prop where
  pgdir : (s.base.kernel.proc p).pgdir = some d
  size : ((s.base.kernel.proc p).sz.toNat : ℤ) = base.toNat + (stacksize.toInt + 1) * 4096
  below : (s.base.kernel.proc p).sz.toNat < KERNBASE.toNat
  guard : s.base.pages d (pageOf base) = true ∧ s.user d (pageOf base) = false
  stack : ∀ i, base.toNat + 4096 ≤ i * 4096 → i * 4096 < (s.base.kernel.proc p).sz.toNat → s.user d i = true
  esp : base.toNat + 4096 ≤ (s.tf p).esp.toNat ∧ (s.tf p).esp.toNat < (s.base.kernel.proc p).sz.toNat
  written : ∀ w ∈ s.written d, base.toNat + 4096 ≤ w.1.toNat ∧ w.1.toNat + w.2 ≤ (s.base.kernel.proc p).sz.toNat

/-- Nothing happened, but for the page directory that was made for nothing. -/
structure LeftAlone (s s' : YState n) : Prop where
  proc : s'.base.kernel.proc = s.base.kernel.proc
  tf : s'.tf = s.tf
  stacksize : s'.stacksize = s.stacksize
  pages : ∀ d, d ≠ s.base.kernel.nextDir → s'.base.pages d = s.base.pages d ∧ s'.user d = s.user d

/-- The image loads: its pages, and where it ends. -/
def Loads (file : Option Program) (g : Grants) (x : Pages) (sz : BitVec 32) : Prop :=
  ∃ f, file = some f ∧ f.readi 0 elfhdrSize = elfhdrSize.toNat ∧ f.elfhdr.magic = ELF_MAGIC ∧ g.kvm = true ∧
    loadHeaders f g.headers f.elfhdr.phnum f.elfhdr.phoff Pages.empty 0 = .ok (some sz, x)

/-- What the result of `exec2` should be: no panic, the stack on success, and nothing on failure. -/
def Asked (s : YState n) (p : Slot) (file : Option Program) (stacksize : BitVec 32) (g : Grants) :
    Except Exec2Trap (ℤ × YState n) → Prop
  | .error _ => False
  | .ok (r, s') =>
    r = 0 ∧ (∃ x sz, Loads file g x sz ∧ Laid s' p s.base.kernel.nextDir (pgroundup sz) stacksize) ∨
      r = -1 ∧ LeftAlone s s'

/-- A process that can call `exec2`: it has a kernel stack, and a page directory that is not free. -/
structure Caller (s : State n) (p : Slot) : Prop where
  kstack : ∃ k, (s.proc p).kstack = some k
  pgdir : ∃ d, (s.proc p).pgdir = some d ∧ d ≠ s.nextDir

/-! ## The condition -/

/-- Where a string goes that is pushed at `sp`. -/
def Arg.lower (a : Arg) (sp : ℤ) : ℤ := (sp - (a.1.length + 1)) / 4 * 4

/-- Where the arguments end. -/
def lowered : List Arg → ℤ → ℤ
  | [], sp => sp
  | a :: argv, sp => lowered argv (a.lower sp)

/-- The arguments fit between `bottom` and `top`. -/
def Fits (argv : List Arg) (top bottom : ℤ) : Prop :=
  argv.length ≤ MAXARG ∧ bottom ≤ lowered argv top - 4 * (argv.length + 4)

/-- So far below address 0 that it comes out between the mappings of the kernel. -/
def Stray (v : ℤ) : Prop := -0x72000000 ≤ v ∧ v < -0x2000000

instance (v : ℤ) : Decidable (Stray v) := by unfold Stray; infer_instance

/-- The first string that does not fit goes there. -/
def Strays (bottom : ℤ) : ℕ → List Arg → ℤ → Prop
  | _, [], _ => False
  | argc, a :: argv, sp =>
    argc < MAXARG ∧ (Stray (a.lower sp) ∨ bottom ≤ a.lower sp ∧ Strays bottom (argc + 1) argv (a.lower sp))

/-- Where the stack begins, and the size that the process gets. -/
def topOf (base new : BitVec 32) : BitVec 32 := if base < new then new else base

/-- `allocuvm` gives no memory for the stack. -/
def NoMemory (base new : BitVec 32) (got : ℕ → Got) : Prop :=
  KERNBASE ≤ new ∨ base ≤ new ∧ ¬ FoundAll base new got ∨ topOf base new = 0

/-- The lowest address that the user can write to, when the guard page is at `guard`. -/
def bottomOf (top guard : BitVec 32) : ℤ := if guard < top then (guard.toNat / 4096 + 1) * 4096 else 0

/-- There is a page table for `a`, when the pages below `top` are there. -/
def HasTable (top a : BitVec 32) : Prop := kernelTable (a.toNat / 2 ^ 22) = true ∨ a.toNat / 2 ^ 22 * 2 ^ 22 < top.toNat

/-- There is room for the stack, and for the arguments in it. -/
structure Roomy (base stacksize : BitVec 32) (got : ℕ → Got) (argv : List Arg) : Prop where
  pos : 0 < stacksize.toInt
  below : base.toNat + (stacksize.toInt + 1) * 4096 < KERNBASE.toNat
  found : FoundAll base (base + (stacksize + 1) * PGSIZE) got
  fits : Fits argv (base.toNat + (stacksize.toInt + 1) * 4096) (base.toNat + 4096)

/-- The call is refused: by `allocuvm`, or for the arguments and after `clearpteu`. -/
def Refused (base stacksize : BitVec 32) (got : ℕ → Got) (argv : List Arg) : Prop :=
  let len := (stacksize + 1) * PGSIZE
  let top := topOf base (base + len)
  let bottom := bottomOf top (top - len)
  NoMemory base (base + len) got ∨
    HasTable top (top - len) ∧ ¬ Fits argv top.toNat bottom ∧ ¬ Strays bottom 0 argv top.toNat


/-! ## Copying to the stack -/

variable {x user : Pages} {top guard sp : BitVec 32} {l : List ℕ} {argv : List Arg}

/-- The low two bits go. -/
theorem align_toNat (a : BitVec 32) : (a &&& ~~~3).toNat = a.toNat / 4 * 4 := by
  have hshift : a &&& ~~~(3 : BitVec 32) = a >>> 2 <<< 2 := by
    have hmask : ∀ i (h : i < 32), (~~~(3 : BitVec 32))[i] = !decide (i < 2) := by decide
    ext i hi
    rw [BitVec.getElem_and, hmask i hi, BitVec.getElem_shiftLeft]
    by_cases h2 : i < 2
    · simp [h2]
    · have hback : 2 + (i - 2) = i := by omega
      simp [h2, hback, BitVec.getLsbD_eq_getElem hi]
  rw [hshift, BitVec.toNat_shiftLeft, BitVec.toNat_ushiftRight, Nat.shiftRight_eq_div_pow, Nat.shiftLeft_eq]
  have hlt := a.isLt
  omega

/-- Where `sp` goes for a string. -/
theorem push_toNat (a : Arg) (sp : BitVec 32) :
    (((sp - BitVec.ofNat 32 (a.1.length + 1)) &&& ~~~3).toNat : ℤ) = a.lower sp.toNat % 2 ^ 32 := by
  have hlen := a.2
  have hsp := sp.isLt
  rw [align_toNat, BitVec.toNat_sub, BitVec.toNat_ofNat]
  unfold Arg.lower
  omega

/-- With all page tables there, `copyout` goes by the pages. -/
theorem copyoutPages_eq (h : ∀ i ∈ l, x.table i = true) : copyoutPages x user l = .ok (l.all user) := by
  induction l with
  | nil => rfl
  | cons i l ih =>
    have hi := h i List.mem_cons_self
    have hl := ih fun j hj => h j (List.mem_cons_of_mem i hj)
    unfold copyoutPages
    rw [hi, if_neg (by simp), hl]
    cases hu : user i with
    | false => simp [hu]
    | true => simp [hu]

/-- A page has its page table. -/
theorem table_of_page {i : ℕ} (h : x i = true) : x.table i = true := by
  unfold Pages.table
  rw [Bool.or_eq_true, List.any_eq_true]
  refine .inr ⟨i % 1024, List.mem_range.2 (by omega), ?_⟩
  have hi : i / 1024 * 1024 + i % 1024 = i := by omega
  rw [hi]
  exact h

/-- The page tables, when all pages below `top` are there. -/
theorem table_iff (h : x.Full top) (a : BitVec 32) : x.table (pageOf a) = true ↔ HasTable top a := by
  unfold Pages.table HasTable pageOf
  have hdiv : a.toNat / 4096 / 1024 = a.toNat / 2 ^ 22 := by omega
  rw [hdiv, Bool.or_eq_true, List.any_eq_true]
  generalize a.toNat / 2 ^ 22 = k
  have hregion : ∀ j, (k * 1024 + j) * 4096 = k * 2 ^ 22 + j * 4096 := fun j => by ring
  apply or_congr Iff.rfl
  constructor
  · rintro ⟨j, -, hj⟩
    have hlow := (h (k * 1024 + j)).1 hj
    rw [hregion] at hlow
    exact lt_of_le_of_lt (Nat.le_add_right _ _) hlow
  · intro hlow
    have hpage := (h (k * 1024 + 0)).2 (by rw [hregion, Nat.zero_mul, Nat.add_zero]; exact hlow)
    exact ⟨0, List.mem_range.2 (Nat.zero_lt_succ 1023), hpage⟩

/-- The pages that `copyout` walks, when the addresses do not wrap. -/
theorem mem_walk (va : BitVec 32) (len i : ℕ) (h : va.toNat + len ≤ 2 ^ 32) :
    (i ∈ (List.range ((va.toNat % 4096 + len + 4095) / 4096)).map fun j => (pageOf va + j) % 2 ^ 20) ↔
      va.toNat / 4096 ≤ i ∧ i * 4096 < va.toNat + len := by
  unfold pageOf
  rw [List.mem_map]
  constructor
  · rintro ⟨j, hj, rfl⟩
    have hj := List.mem_range.1 hj
    have hmod : (va.toNat / 4096 + j) % 2 ^ 20 = va.toNat / 4096 + j := Nat.mod_eq_of_lt (by omega)
    rw [hmod]
    omega
  · rintro ⟨hlo, hhi⟩
    refine ⟨i - va.toNat / 4096, List.mem_range.2 (by omega), ?_⟩
    have hback : va.toNat / 4096 + (i - va.toNat / 4096) = i := by omega
    rw [hback]
    exact Nat.mod_eq_of_lt (by omega)

/-- What the user can write to: the pages below `top`, but for the one at `guard`. -/
structure Stacked (x user : Pages) (top guard : BitVec 32) : Prop where
  full : x.Full top
  le : top.toNat ≤ KERNBASE.toNat
  aligned : top.toNat % 4096 = 0
  user : user = Function.update x (pageOf guard) false

theorem Stacked.user_iff (h : Stacked x user top guard) (i : ℕ) :
    user i = true ↔ i * 4096 < top.toNat ∧ i ≠ pageOf guard := by
  rw [h.user]
  by_cases hi : i = pageOf guard
  · rw [hi, Function.update_self]
    simp
  · rw [Function.update_of_ne hi, h.full i]
    simp [hi]

theorem bottomOf_nonneg (top guard : BitVec 32) : 0 ≤ bottomOf top guard := by
  unfold bottomOf
  split
  · omega
  · exact le_rfl

/-- **A copy** that begins below `top`, and ends where the last one began or up to three bytes below. -/
theorem copyout2_eq (h : Stacked x user top guard) {va : BitVec 32} {len : ℕ} {sp : ℤ}
    (hend : (va.toNat : ℤ) + len ≤ sp) (hnear : sp < va.toNat + len + 4) (hsp : bottomOf top guard ≤ sp)
    (htop : sp ≤ top.toNat) :
    copyout2 x user va len = .ok (decide (bottomOf top guard ≤ va.toNat)) := by
  have hle := h.le
  have haligned := h.aligned
  have hkern : KERNBASE.toNat = 2147483648 := by decide
  have hmem := fun i => mem_walk va len i (by omega)
  unfold copyout2
  rw [copyoutPages_eq fun i hi => table_of_page ((h.full i).2 (by have hi := (hmem i).1 hi; omega))]
  congr 1
  rw [Bool.eq_iff_iff, List.all_eq_true, decide_eq_true_iff]
  unfold bottomOf pageOf at *
  constructor
  · intro hall
    split
    · rename_i hguard
      rw [if_pos hguard] at hsp
      have hguard : guard.toNat < top.toNat := hguard
      by_contra hlow
      -- the guard page is on the way
      have hon := hall (guard.toNat / 4096) ((hmem _).2 (by omega))
      exact ((h.user_iff _).1 hon).2 rfl
    · omega
  · intro hlow i hi
    have hi := (hmem i).1 hi
    refine (h.user_iff i).2 ⟨by omega, ?_⟩
    split at hlow
    · unfold pageOf
      omega
    · rename_i hguard
      have hguard : top.toNat ≤ guard.toNat := BitVec.not_lt.1 hguard
      unfold pageOf
      omega

/-- A copy to the addresses of the kernel. -/
theorem copyout2_kernel (h : Stacked x user top guard) {va : BitVec 32} {len : ℕ} (hlen : 0 < len)
    (hva : KERNBASE.toNat ≤ va.toNat) :
    copyout2 x user va len = if kernelTable (va.toNat / 2 ^ 22) = true then .ok false else .error .uva2ka := by
  have hle := h.le
  have hkern : KERNBASE.toNat = 512 * 2 ^ 22 := by decide
  obtain ⟨k, hk⟩ : ∃ k, (va.toNat % 4096 + len + 4095) / 4096 = k + 1 :=
    ⟨(va.toNat % 4096 + len + 4095) / 4096 - 1, by omega⟩
  have hfirst : (pageOf va + 0) % 2 ^ 20 = pageOf va := by
    have hlt := va.isLt
    unfold pageOf
    omega
  have htable : x.table (pageOf va) = kernelTable (va.toNat / 2 ^ 22) := by
    rw [Bool.eq_iff_iff, table_iff h.full]
    constructor
    · rintro (hk | hlow)
      · exact hk
      · omega
    · exact .inl
  have huser : user (pageOf va) = false := by
    rw [← Bool.not_eq_true, h.user_iff]
    unfold pageOf
    omega
  unfold copyout2
  rw [hk, List.range_succ_eq_map, List.map_cons, hfirst]
  unfold copyoutPages
  rw [htable, huser]
  cases kernelTable (va.toNat / 2 ^ 22) with
  | false => rfl
  | true => rfl

/-! ## Pushing the arguments -/

/-- **A copy down from the stack pointer** `sp`, to `v` as an unbounded integer. -/
theorem copyout2_down (h : Stacked x user top guard) {va : BitVec 32} {len : ℕ} {v sp : ℤ} (hlen : 0 < len)
    (hva : (va.toNat : ℤ) = v % 2 ^ 32) (hlow : -2147483648 ≤ v) (hend : v + len ≤ sp) (hnear : sp < v + len + 4)
    (hsp : bottomOf top guard ≤ sp) (htop : sp ≤ top.toNat) :
    copyout2 x user va len =
      if Stray v then .error .uva2ka else .ok (decide (bottomOf top guard ≤ v)) := by
  have hbottom := bottomOf_nonneg top guard
  have hkern : KERNBASE.toNat = 2147483648 := by decide
  have hle := h.le
  by_cases h0 : 0 ≤ v
  · have hva : (va.toNat : ℤ) = v := by omega
    have hstray : ¬ Stray v := by
      unfold Stray
      omega
    rw [copyout2_eq h (by omega) (by omega) hsp htop, hva, if_neg hstray]
  · -- the address wraps
    have hva : (va.toNat : ℤ) = v + 2 ^ 32 := by omega
    have hfalse : decide (bottomOf top guard ≤ v) = false := decide_eq_false (by omega)
    have hkt : kernelTable (va.toNat / 2 ^ 22) = true ↔ ¬ Stray v := by
      unfold kernelTable Stray
      rw [decide_eq_true_iff]
      omega
    rw [copyout2_kernel h hlen (by omega), hfalse]
    by_cases hstray : Stray v
    · rw [if_pos hstray, if_neg fun hk => hkt.1 hk hstray]
    · rw [if_neg hstray, if_pos (hkt.2 hstray)]

theorem lower_bounds (a : Arg) (sp : ℤ) (h0 : 0 ≤ sp) :
    a.lower sp + (a.1.length + 1) ≤ sp ∧ sp < a.lower sp + (a.1.length + 1) + 4 ∧ a.lower sp % 4 = 0 ∧
      -2147483648 ≤ a.lower sp := by
  have hlen := a.2
  unfold Arg.lower
  omega

/-- A push, from a stack pointer that is not below the bottom. -/
theorem push_copy (h : Stacked x user top guard) (a : Arg) (hsp : bottomOf top guard ≤ sp.toNat)
    (htop : sp.toNat ≤ top.toNat) :
    copyout2 x user ((sp - BitVec.ofNat 32 (a.1.length + 1)) &&& ~~~3) (a.1.length + 1) =
      if Stray (a.lower sp.toNat) then .error .uva2ka
      else .ok (decide (bottomOf top guard ≤ a.lower sp.toNat)) := by
  obtain ⟨hend, hnear, -, hlow⟩ := lower_bounds a sp.toNat (by omega)
  exact copyout2_down h (Nat.succ_pos _) (push_toNat a sp) hlow (by push_cast; omega) (by push_cast; omega) hsp
    (by omega)

/-- The push of `ustack`: it is too short to stray. -/
theorem ustack_copy (h : Stacked x user top guard) {argc : ℕ} (hargc : argc ≤ MAXARG) (sp : BitVec 32)
    (hsp : bottomOf top guard ≤ sp.toNat) (htop : sp.toNat ≤ top.toNat) :
    copyout2 x user (sp - BitVec.ofNat 32 ((3 + argc + 1) * 4)) ((3 + argc + 1) * 4) =
        .ok (decide (bottomOf top guard ≤ (sp.toNat : ℤ) - 4 * (argc + 4))) ∧
      (((sp - BitVec.ofNat 32 ((3 + argc + 1) * 4)).toNat : ℤ) = ((sp.toNat : ℤ) - 4 * (argc + 4)) % 2 ^ 32) := by
  have hbottom := bottomOf_nonneg top guard
  have hsplt := sp.isLt
  have hargc : argc ≤ 32 := hargc
  have hva : (((sp - BitVec.ofNat 32 ((3 + argc + 1) * 4)).toNat : ℤ) =
      ((sp.toNat : ℤ) - 4 * (argc + 4)) % 2 ^ 32) := by
    rw [BitVec.toNat_sub, BitVec.toNat_ofNat]
    omega
  have hstray : ¬ Stray ((sp.toNat : ℤ) - 4 * (argc + 4)) := by
    unfold Stray
    omega
  refine ⟨?_, hva⟩
  rw [copyout2_down h (by omega) hva (by omega) (by push_cast; omega) (by push_cast; omega) hsp (by omega),
    if_neg hstray]

/-! ### All of them -/

theorem lowered_bounds (argv : List Arg) : ∀ (sp : ℤ), sp % 4 = 0 → lowered argv sp ≤ sp ∧ lowered argv sp % 4 = 0 := by
  induction argv with
  | nil => exact fun _ h => ⟨le_rfl, h⟩
  | cons a argv ih =>
    intro sp _
    have hlow : a.lower sp ≤ sp ∧ a.lower sp % 4 = 0 := by
      unfold Arg.lower
      omega
    obtain ⟨hle, hmod⟩ := ih (a.lower sp) hlow.2
    exact ⟨le_trans hle hlow.1, hmod⟩

/-- Arguments that fit do not stray. -/
theorem not_strays {bottom : ℤ} (hbottom : 0 ≤ bottom) (argv : List Arg) : ∀ {argc : ℕ} {sp : ℤ}, sp % 4 = 0 →
    bottom ≤ lowered argv sp → ¬ Strays bottom argc argv sp := by
  induction argv with
  | nil => exact fun _ _ h => h
  | cons a argv ih =>
    intro argc sp _ hfit hstrays
    have hmod : a.lower sp % 4 = 0 := by
      unfold Arg.lower
      omega
    obtain ⟨-, hstray | ⟨-, hrest⟩⟩ := hstrays
    · have hle := (lowered_bounds argv _ hmod).1
      unfold Stray at hstray
      unfold lowered at hfit
      omega
    · exact ih hmod hfit hrest

/-- **The loop over the arguments** against the descent in unbounded integers. -/
theorem pushArgs2_spec (h : Stacked x user top guard) (argv : List Arg) : ∀ (argc : ℕ) (sp : BitVec 32) (w : Writes),
    argc ≤ MAXARG → bottomOf top guard ≤ sp.toNat → sp.toNat ≤ top.toNat → sp.toNat % 4 = 0 →
    (Strays (bottomOf top guard) argc argv sp.toNat → pushArgs2 x user argv argc sp w = .error .uva2ka) ∧
    (¬ Strays (bottomOf top guard) argc argv sp.toNat →
      ¬ (argc + argv.length ≤ MAXARG ∧ bottomOf top guard ≤ lowered argv sp.toNat) →
      pushArgs2 x user argv argc sp w = .ok none) ∧
    (argc + argv.length ≤ MAXARG ∧ bottomOf top guard ≤ lowered argv sp.toNat →
      ∃ sp' w', pushArgs2 x user argv argc sp w = .ok (some (argc + argv.length, sp', w')) ∧
        (sp'.toNat : ℤ) = lowered argv sp.toNat ∧
        ∀ e ∈ w', e ∈ w ∨ bottomOf top guard ≤ e.1.toNat ∧ e.1.toNat + e.2 ≤ sp.toNat) := by
  induction argv with
  | nil =>
    intro argc sp w hargc hsp _ _
    refine ⟨fun hstrays => hstrays.elim, fun _ hno => absurd ⟨hargc, hsp⟩ hno, fun _ => ?_⟩
    exact ⟨sp, w, rfl, rfl, fun e he => .inl he⟩
  | cons a argv ih =>
    intro argc sp w hargc hsp htop hmod
    have hbottom := bottomOf_nonneg top guard
    have hcopy := push_copy h a hsp htop
    have hpush := push_toNat a sp
    obtain ⟨hend, -, hmod', hlow⟩ := lower_bounds a sp.toNat (by omega)
    have hle := (lowered_bounds argv _ hmod').1
    have hlen : argc + (a :: argv).length = argc + 1 + argv.length := by
      rw [List.length_cons]
      omega
    by_cases hmax : argc ≥ MAXARG
    · -- too many arguments
      have hnone : pushArgs2 x user (a :: argv) argc sp w = .ok none := if_pos hmax
      refine ⟨fun hstrays => absurd hstrays.1 (Nat.not_lt.2 hmax), fun _ _ => hnone, fun hfit => ?_⟩
      have hfit := hfit.1
      omega
    · have hturn : pushArgs2 x user (a :: argv) argc sp w =
          copyout2 x user ((sp - BitVec.ofNat 32 (a.1.length + 1)) &&& ~~~3) (a.1.length + 1) >>= fun ok =>
            if ok = false then .ok none
            else pushArgs2 x user argv (argc + 1) ((sp - BitVec.ofNat 32 (a.1.length + 1)) &&& ~~~3)
              (((sp - BitVec.ofNat 32 (a.1.length + 1)) &&& ~~~3, a.1.length + 1) :: w) := if_neg hmax
      rw [hturn, hcopy]
      generalize (sp - BitVec.ofNat 32 (a.1.length + 1)) &&& ~~~3 = sp' at hpush ⊢
      by_cases hstray : Stray (a.lower sp.toNat)
      · -- the copy reads through a null pointer
        rw [if_pos hstray]
        refine ⟨fun _ => rfl, fun hno => absurd ⟨Nat.not_le.1 hmax, .inl hstray⟩ hno, fun hfit => ?_⟩
        exact absurd ⟨Nat.not_le.1 hmax, .inl hstray⟩ (not_strays hbottom (a :: argv) (by omega) hfit.2)
      · rw [if_neg hstray]
        by_cases hfits : bottomOf top guard ≤ a.lower sp.toNat
        · -- on to the next argument
          have hsp' : (sp'.toNat : ℤ) = a.lower sp.toNat := by
            have hsplt := sp.isLt
            omega
          rw [decide_eq_true hfits]
          obtain ⟨hbad, hnone, hsome⟩ := ih (argc + 1) sp' ((sp', a.1.length + 1) :: w) (by omega)
            (by omega) (by omega) (by omega)
          rw [hsp'] at hbad hnone hsome
          have hstrays : Strays (bottomOf top guard) argc (a :: argv) sp.toNat ↔
              Strays (bottomOf top guard) (argc + 1) argv (a.lower sp.toNat) := by
            constructor
            · rintro ⟨-, hs | ⟨-, hs⟩⟩
              · exact absurd hs hstray
              · exact hs
            · exact fun hs => ⟨Nat.not_le.1 hmax, .inr ⟨hfits, hs⟩⟩
          rw [hstrays, hlen]
          refine ⟨hbad, hnone, fun hfit => ?_⟩
          obtain ⟨sp'', w', hrun, hlast, hw⟩ := hsome hfit
          refine ⟨sp'', w', hrun, hlast, fun e he => ?_⟩
          rcases hw e he with he | he
          · rcases List.mem_cons.1 he with rfl | he
            · dsimp only
              omega
            · exact .inl he
          · omega
        · -- the copy fails
          rw [decide_eq_false hfits]
          refine ⟨fun hs => ?_, fun _ _ => rfl, fun hfit => ?_⟩
          · obtain ⟨-, hs | ⟨hs, -⟩⟩ := hs
            · exact absurd hs hstray
            · exact absurd hs hfits
          · exact absurd (le_trans hfit.2 hle) hfits

/-! ## Building the stack -/

variable {sz newsz stacksize : BitVec 32} {got : ℕ → Got} {x' : Pages}

/-- Pages that are not there can be mapped, as long as they are found. -/
theorem allocLoop_total (hn : l.Nodup) (hx : ∀ i ∈ l, x i = false) :
    ∃ x' r, x.allocLoop sz newsz got l = .ok (x', r) := by
  induction l generalizing x with
  | nil => exact ⟨x, newsz, rfl⟩
  | cons i l ih =>
    obtain ⟨hi, hn⟩ := List.nodup_cons.1 hn
    unfold Pages.allocLoop
    cases hgot : got i with
    | noPage => exact ⟨_, _, rfl⟩
    | noTable => exact ⟨_, _, rfl⟩
    | page =>
      have hmap : x.map i = .ok (Function.update x i true) := by
        unfold Pages.map
        rw [hx i List.mem_cons_self]
        rfl
      rw [hmap]
      refine ih hn fun j hj => ?_
      have hji : j ≠ i := by
        rintro rfl
        exact hi hj
      rw [Function.update_of_ne hji]
      exact hx j (List.mem_cons_of_mem i hj)

/-- **`allocuvm`** does not panic when the pages below the old size are there and no others. -/
theorem allocuvm_full (hfull : x.Full sz) (hsz : sz.toNat ≤ KERNBASE.toNat) (newsz : BitVec 32) (got : ℕ → Got) :
    ∃ x' r, x.allocuvm sz newsz got = .ok (x', r) ∧ r = allocuvm sz newsz (decide (FoundAll sz newsz got)) ∧
      (r ≠ 0 → x'.Full r ∧ r.toNat ≤ KERNBASE.toNat) := by
  have hrun : ∃ x' r, x.allocuvm sz newsz got = .ok (x', r) := by
    unfold Pages.allocuvm
    split
    · exact ⟨_, _, rfl⟩
    · split
      · exact ⟨_, _, rfl⟩
      · refine allocLoop_total (nodup_pagesFrom _ _) fun i hi => ?_
        have hrange := (mem_pages hsz).1 hi
        rw [← Bool.not_eq_true, hfull i]
        omega
  obtain ⟨x', r, hrun⟩ := hrun
  exact ⟨x', r, hrun, (allocuvm_refines hrun).2, (allocuvm_trim hfull hsz hrun).2⟩

theorem allocuvm_top (base new : BitVec 32) (got : ℕ → Got) :
    (allocuvm base new (decide (FoundAll base new got)) = 0 ↔ NoMemory base new got) ∧
      (¬ NoMemory base new got → allocuvm base new (decide (FoundAll base new got)) = topOf base new) := by
  unfold allocuvm NoMemory topOf
  by_cases hkern : new ≥ KERNBASE
  · rw [if_pos hkern]
    exact ⟨⟨fun _ => .inl hkern, fun _ => rfl⟩, fun hno => absurd (.inl hkern) hno⟩
  · rw [if_neg hkern]
    by_cases hlt : new < base
    · have hnot : ¬ base < new := fun h => absurd (show new.toNat < base.toNat from hlt) (by
        have h : base.toNat < new.toNat := h
        omega)
      have hle : ¬ base ≤ new := BitVec.not_le.2 hlt
      rw [if_pos hlt, if_neg hnot]
      refine ⟨⟨fun h => .inr (.inr h), ?_⟩, fun _ => rfl⟩
      rintro (h | ⟨h, -⟩ | h)
      · exact absurd h hkern
      · exact absurd h hle
      · exact h
    · have hle : base ≤ new := BitVec.not_lt.1 hlt
      have htop : (if base < new then new else base) = new := by
        split
        · rfl
        · rename_i hnot
          exact BitVec.le_antisymm hle (BitVec.not_lt.1 hnot)
      rw [if_neg hlt, htop]
      by_cases hfound : FoundAll base new got
      · rw [decide_eq_true hfound, if_pos rfl]
        refine ⟨⟨fun h => .inr (.inr h), ?_⟩, fun _ => rfl⟩
        rintro (h | ⟨-, h⟩ | h)
        · exact absurd h hkern
        · exact absurd hfound h
        · exact h
      · rw [decide_eq_false hfound, if_neg (by decide)]
        have hno : base ≤ new ∧ ¬ FoundAll base new got := ⟨hle, hfound⟩
        exact ⟨⟨fun _ => .inr (.inl hno), fun _ => rfl⟩, fun h => absurd (.inr (.inl hno)) h⟩

/-- The call is accepted. -/
def Accepted (base stacksize : BitVec 32) (got : ℕ → Got) (argv : List Arg) : Prop :=
  let len := (stacksize + 1) * PGSIZE
  let top := topOf base (base + len)
  ¬ NoMemory base (base + len) got ∧ HasTable top (top - len) ∧ Fits argv top.toNat (bottomOf top (top - len))

/-- The new stack, with `top` for its end and the page at `guard` taken from the user. -/
structure Placed (x : Pages) (st : NewStack) (top guard : BitVec 32) (argv : List Arg) : Prop where
  sz : st.sz = top
  pages : Stacked x st.user top guard
  sp : (st.sp.toNat : ℤ) = lowered argv top.toNat - 4 * (argv.length + 4)
  written : ∀ e ∈ st.written, bottomOf top guard ≤ e.1.toNat ∧ e.1.toNat + e.2 ≤ top.toNat

theorem pushUstack_eq {argc : ℕ} {w : Writes} {ok : Bool}
    (hcopy : copyout2 x user (sp - BitVec.ofNat 32 ((3 + argc + 1) * 4)) ((3 + argc + 1) * 4) = .ok ok) :
    pushUstack x user top argc sp w =
      .ok (if ok = false then none else some ⟨top, sp - BitVec.ofNat 32 ((3 + argc + 1) * 4), user,
        (sp - BitVec.ofNat 32 ((3 + argc + 1) * 4), (3 + argc + 1) * 4) :: w⟩) := by
  unfold pushUstack
  dsimp only
  rw [hcopy]
  cases ok with
  | false => rfl
  | true => rfl

theorem pushAll_some {argc : ℕ} {w : Writes} (hrun : pushArgs2 x user argv 0 top [] = .ok (some (argc, sp, w))) :
    pushAll x user top argv = pushUstack x user top argc sp w := by
  unfold pushAll
  simp only [hrun, bind, Except.bind]

/-- The pushes, when the memory is there: they stray, they fail, or they fit. -/
theorem pushAll_cases (h : Stacked x user top guard) (htop : bottomOf top guard ≤ top.toNat) (argv : List Arg) :
    Strays (bottomOf top guard) 0 argv top.toNat ∧ ¬ Fits argv top.toNat (bottomOf top guard) ∧
        pushAll x user top argv = .error .uva2ka ∨
      ¬ Strays (bottomOf top guard) 0 argv top.toNat ∧ ¬ Fits argv top.toNat (bottomOf top guard) ∧
        pushAll x user top argv = .ok none ∨
      Fits argv top.toNat (bottomOf top guard) ∧
        ∃ st, pushAll x user top argv = .ok (some st) ∧ Placed x st top guard argv := by
  have hbottom := bottomOf_nonneg top guard
  have hmod : top.toNat % 4 = 0 := by
    have hdvd : (4 : ℕ) ∣ 4096 := by decide
    rw [← Nat.mod_mod_of_dvd _ hdvd, h.aligned]
  obtain ⟨hstray, hnone, hsome⟩ := pushArgs2_spec h argv 0 top [] (Nat.zero_le _) htop le_rfl
    hmod
  rw [Nat.zero_add] at hnone hsome
  by_cases hs : Strays (bottomOf top guard) 0 argv top.toNat
  · refine .inl ⟨hs, fun hfit => ?_, ?_⟩
    · have hroom := hfit.2
      exact not_strays hbottom argv (by omega) (by omega) hs
    · unfold pushAll
      rw [hstray hs]
      rfl
  · by_cases hfirst : argv.length ≤ MAXARG ∧ bottomOf top guard ≤ lowered argv top.toNat
    · obtain ⟨sp, w, hrun, hsp, hw⟩ := hsome hfirst
      obtain ⟨hle, -⟩ := lowered_bounds argv top.toNat (by omega)
      obtain ⟨hcopy, hva⟩ := ustack_copy h hfirst.1 sp (by omega) (by omega)
      have hall := (pushAll_some hrun).trans (pushUstack_eq hcopy)
      rw [hsp] at hva hall
      by_cases hfit : bottomOf top guard ≤ lowered argv top.toNat - 4 * (argv.length + 4)
      · rw [decide_eq_true hfit, if_neg (by decide)] at hall
        have htoNat : ((sp - BitVec.ofNat 32 ((3 + argv.length + 1) * 4)).toNat : ℤ) =
            lowered argv top.toNat - 4 * (argv.length + 4) := by
          have htoplt := top.isLt
          omega
        refine .inr (.inr ⟨⟨hfirst.1, hfit⟩, _, hall, rfl, h, htoNat, fun e he => ?_⟩)
        rcases List.mem_cons.1 he with rfl | he
        · dsimp only
          omega
        · exact (hw e he).resolve_left List.not_mem_nil
      · rw [decide_eq_false hfit, if_pos rfl] at hall
        exact .inr (.inl ⟨hs, fun h => hfit h.2, hall⟩)
    · refine .inr (.inl ⟨hs, fun hfit => hfirst ⟨hfit.1, ?_⟩, ?_⟩)
      · have hroom := hfit.2
        omega
      · unfold pushAll
        rw [hnone hs hfirst]
        rfl

theorem topOf_aligned (base : BitVec 32) (hbase : base.toNat % 4096 = 0) (k : BitVec 32) :
    (topOf base (base + k * PGSIZE)).toNat % 4096 = 0 := by
  have hpage : PGSIZE.toNat = 4096 := by decide
  unfold topOf
  split
  · rw [BitVec.toNat_add, BitVec.toNat_mul, hpage]
    omega
  · exact hbase

theorem bottomOf_le {top guard : BitVec 32} (htop : top.toNat % 4096 = 0) :
    bottomOf top guard ≤ top.toNat := by
  unfold bottomOf
  split
  · rename_i hlt
    have hlt : guard.toNat < top.toNat := hlt
    omega
  · omega

/-- **The stack**: refused, a panic, or as it was asked for. -/
theorem buildStack2_cases (hfull : x.Full sz) (hsz : sz.toNat ≤ KERNBASE.toNat) (stacksize : BitVec 32)
    (got : ℕ → Got) (argv : List Arg) :
    Refused (pgroundup sz) stacksize got argv ∧ ¬ Accepted (pgroundup sz) stacksize got argv ∧
        (∃ x', buildStack2 x sz stacksize got argv = .ok (none, x') ∧ x'.Trim) ∨
      ¬ Refused (pgroundup sz) stacksize got argv ∧ ¬ Accepted (pgroundup sz) stacksize got argv ∧
        (∃ t, buildStack2 x sz stacksize got argv = .error t) ∨
      ¬ Refused (pgroundup sz) stacksize got argv ∧ Accepted (pgroundup sz) stacksize got argv ∧
        ∃ st x', buildStack2 x sz stacksize got argv = .ok (some st, x') ∧
          Placed x' st (topOf (pgroundup sz) (pgroundup sz + (stacksize + 1) * PGSIZE))
            (topOf (pgroundup sz) (pgroundup sz + (stacksize + 1) * PGSIZE) - (stacksize + 1) * PGSIZE) argv := by
  have hkern : KERNBASE.toNat = 2147483648 := by decide
  have hround := pgroundup_toNat hsz
  have haligned := topOf_aligned (pgroundup sz) (by omega) (stacksize + 1)
  have hbfull := hfull.round hsz
  unfold buildStack2 Refused Accepted
  generalize pgroundup sz = b at hround haligned hbfull ⊢
  dsimp only
  generalize (stacksize + 1) * PGSIZE = len at haligned ⊢
  obtain ⟨x', r, hrun, hr, hx'⟩ := allocuvm_full hbfull (by omega) (b + len) got
  obtain ⟨hzero, htop⟩ := allocuvm_top b (b + len) got
  rw [← hr] at hzero htop
  obtain ⟨htrim, -⟩ := allocuvm_trim hbfull (by omega) hrun
  have hlift : lift2 (vm (x.allocuvm b (b + len) got)) = .ok (x', r) := by
    rw [hrun]
    rfl
  simp only [hlift, bind, Except.bind]
  by_cases hmem : NoMemory b (b + len) got
  · rw [if_pos (hzero.2 hmem)]
    exact .inl ⟨.inl hmem, fun h => h.1 hmem, x', rfl, htrim⟩
  · obtain rfl := htop hmem
    have hne : topOf b (b + len) ≠ 0 := fun h => hmem (hzero.1 h)
    rw [if_neg hne]
    obtain ⟨htopfull, htople⟩ := hx' hne
    have htable := table_iff htopfull (topOf b (b + len) - len)
    generalize topOf b (b + len) = top at haligned hne htopfull htople htable ⊢
    by_cases hhas : HasTable top (top - len)
    · rw [if_neg (by rw [htable.2 hhas]; decide)]
      have hstacked : Stacked x' (Function.update x' (pageOf (top - len)) false) top (top - len) :=
        ⟨htopfull, htople, haligned, rfl⟩
      rcases pushAll_cases hstacked (bottomOf_le haligned) argv with
        ⟨hstrays, hfit, hpush⟩ | ⟨hstrays, hfit, hpush⟩ | ⟨hfit, st, hpush, hplaced⟩
      · rw [hpush]
        refine .inr (.inl ⟨?_, fun h => hfit h.2.2, _, rfl⟩)
        rintro (h | ⟨-, -, h⟩)
        · exact hmem h
        · exact h hstrays
      · rw [hpush]
        exact .inl ⟨.inr ⟨hhas, hfit, hstrays⟩, fun h => hfit h.2.2, x', rfl, htrim⟩
      · rw [hpush]
        refine .inr (.inr ⟨?_, ⟨hmem, hhas, hfit⟩, st, x', rfl, hplaced⟩)
        rintro (h | ⟨-, h, -⟩)
        · exact hmem h
        · exact h hfit
    · -- `clearpteu` finds no page table
      have hno : x'.table (pageOf (top - len)) = false := by
        rw [← Bool.not_eq_true, htable]
        exact hhas
      rw [if_pos hno]
      refine .inr (.inl ⟨?_, fun h => hhas h.2.1, _, rfl⟩)
      rintro (h | ⟨h, -⟩)
      · exact hmem h
      · exact hhas h

/-! ## Loading the image -/

theorem loadPages_ok {addr offset : BitVec 32} {f : Program} (h : ∀ i ∈ l, x (pageOf (addr + PGSIZE * BitVec.ofNat 32 i)) = true) :
    ∃ b, loadPages x addr f offset sz l = .ok b := by
  induction l with
  | nil => exact ⟨true, rfl⟩
  | cons i l ih =>
    unfold loadPages
    dsimp only
    rw [if_neg (by rw [h i List.mem_cons_self]; decide)]
    generalize (if sz - PGSIZE * BitVec.ofNat 32 i < PGSIZE then _ else _ : BitVec 32) = m
    by_cases hread : f.readi (offset + PGSIZE * BitVec.ofNat 32 i) m ≠ m.toNat
    · exact ⟨false, if_pos hread⟩
    · rw [if_neg hread]
      exact ih fun j hj => h j (List.mem_cons_of_mem i hj)

/-- A segment whose pages are there loads without a panic. -/
theorem loaduvm_ok {addr end_ : BitVec 32} (offset : BitVec 32) (f : Program) (haddr : addr % PGSIZE = 0) (hfull : x.Full end_)
    (hend : addr.toNat + sz.toNat ≤ end_.toNat) : ∃ b, loaduvm x addr f offset sz = .ok b := by
  have hpage : PGSIZE.toNat = 4096 := by decide
  have hlt := end_.isLt
  unfold loaduvm
  rw [if_neg fun h => h haddr]
  refine loadPages_ok fun i hi => (hfull _).2 ?_
  have hi := List.mem_range.1 hi
  have hmul : (PGSIZE * BitVec.ofNat 32 i).toNat = 4096 * i := by
    rw [BitVec.toNat_mul, hpage, BitVec.toNat_ofNat]
    omega
  unfold pageOf
  rw [BitVec.toNat_add, hmul]
  omega

/-- **A program header** is loaded without a panic. -/
theorem loadHeader_ok (f : Program) (off : BitVec 32) (hfull : x.Full sz) (hsz : sz.toNat ≤ KERNBASE.toNat)
    (got : ℕ → Got) : ∃ o x', loadHeader f off got x sz = .ok (o, x') := by
  unfold loadHeader
  split
  · exact ⟨_, _, rfl⟩
  · dsimp only
    split
    · exact ⟨_, _, rfl⟩
    · split
      · exact ⟨_, _, rfl⟩
      · rename_i hfilesz
        split
        · exact ⟨_, _, rfl⟩
        · rename_i hwrap
          generalize f.proghdr off = ph at hfilesz hwrap ⊢
          obtain ⟨x', r, hrun, hr, hx'⟩ := allocuvm_full hfull hsz (ph.vaddr + ph.memsz) got
          simp only [hrun, vm, bind, Except.bind]
          by_cases hzero : r = 0
          · exact ⟨_, _, if_pos hzero⟩
          · rw [if_neg hzero]
            obtain ⟨hfull', -⟩ := hx' hzero
            by_cases haddr : ph.vaddr % PGSIZE = 0
            · rw [if_neg fun h => h haddr]
              -- the new size is not below the end of the segment
              have hend : ph.vaddr.toNat + ph.filesz.toNat ≤ r.toNat := by
                have hsum : (ph.vaddr + ph.memsz).toNat ≤ r.toNat := by
                  rw [hr] at hzero ⊢
                  unfold allocuvm at hzero ⊢
                  split at hzero
                  · exact absurd rfl hzero
                  · rename_i hkern
                    rw [if_neg hkern]
                    split at hzero
                    · rename_i hlt
                      rw [if_pos hlt]
                      exact Nat.le_of_lt hlt
                    · rename_i hlt
                      rw [if_neg hlt]
                      split at hzero
                      · rename_i hfound
                        rw [if_pos hfound]
                      · exact absurd rfl hzero
                have hfilesz : ph.filesz.toNat ≤ ph.memsz.toNat := BitVec.not_lt.1 hfilesz
                have hwrap : ph.vaddr.toNat ≤ (ph.vaddr + ph.memsz).toNat := BitVec.not_lt.1 hwrap
                have hmemsz := ph.memsz.isLt
                have hvaddr := ph.vaddr.isLt
                rw [BitVec.toNat_add] at hsum hwrap
                omega
              obtain ⟨b, hload⟩ := loaduvm_ok ph.off f haddr hfull' hend
              rw [hload]
              dsimp only
              split
              · exact ⟨_, _, rfl⟩
              · exact ⟨_, _, rfl⟩
            · exact ⟨_, _, if_pos haddr⟩

/-- **The image** is loaded without a panic, or not at all. -/
theorem loadHeaders_ok (f : Program) (got : ℕ → ℕ → Got) (j : ℕ) : ∀ (off : BitVec 32) {x : Pages} {sz : BitVec 32},
    x.Full sz → sz.toNat ≤ KERNBASE.toNat → ∃ o x', loadHeaders f got j off x sz = .ok (o, x') := by
  induction j with
  | zero => exact fun _ _ _ _ _ => ⟨_, _, rfl⟩
  | succ j ih =>
    intro off x sz hfull hsz
    obtain ⟨o, x', hrun⟩ := loadHeader_ok f off hfull hsz (got j)
    obtain ⟨-, hsize⟩ := loadHeader_trim hfull hsz hrun
    unfold loadHeaders
    rw [hrun]
    cases o with
    | none => exact ⟨_, _, rfl⟩
    | some sz =>
      obtain ⟨hfull', hsz'⟩ := hsize sz rfl
      exact ih _ hfull' hsz'

/-! ## The whole call -/

variable {s s' : YState n} {c : Fin n} {p : Slot} {file : Option Program} {g : Grants} {d : Dir} {b : BitVec 32}
  {st : NewStack}

/-- The unsigned sum, as it wraps. -/
theorem request_toNat (b stacksize : BitVec 32) :
    ((b + (stacksize + 1) * PGSIZE).toNat : ℤ) = ((b.toNat : ℤ) + (stacksize.toInt + 1) * 4096) % 2 ^ 32 := by
  have hpage : PGSIZE.toNat = 4096 := by decide
  have hone : (1 : BitVec 32).toNat = 1 := by decide
  have hlt := stacksize.isLt
  rw [BitVec.toNat_add, BitVec.toNat_mul, BitVec.toNat_add, hpage, hone, BitVec.toInt_eq_toNat_cond]
  split
  · omega
  · omega

/-- Where everything is when the request is above the image. -/
theorem layout_above (len : BitVec 32) (hb : b.toNat % 4096 = 0) (hlt : b.toNat < (b + len).toNat) :
    topOf b (b + len) = b + len ∧ b + len - len = b ∧ bottomOf (b + len) b = b.toNat + 4096 := by
  refine ⟨if_pos hlt, BitVec.add_sub_cancel b len, ?_⟩
  unfold bottomOf
  rw [if_pos (show b < b + len from hlt)]
  omega

theorem Roomy.toNat {got : ℕ → Got} (h : Roomy b stacksize got argv) :
    ((b + (stacksize + 1) * PGSIZE).toNat : ℤ) = (b.toNat : ℤ) + (stacksize.toInt + 1) * 4096 := by
  have hkern : KERNBASE.toNat = 2147483648 := by decide
  have hpos := h.pos
  have hbelow := h.below
  rw [request_toNat]
  omega

/-- A call with room is accepted. -/
theorem Roomy.accepted {got : ℕ → Got} (h : Roomy b stacksize got argv) (hb : b.toNat % 4096 = 0) :
    Accepted b stacksize got argv := by
  have hkern : KERNBASE.toNat = 2147483648 := by decide
  have hnew := h.toNat
  have hpos := h.pos
  have hbelow := h.below
  have hfound := h.found
  have hfits := h.fits
  unfold Accepted
  dsimp only
  generalize (stacksize + 1) * PGSIZE = len at hnew hfound ⊢
  obtain ⟨htop, hguard, hbottom⟩ := layout_above len hb (by omega)
  rw [htop, hguard, hbottom, hnew]
  refine ⟨?_, .inr ?_, hfits⟩
  · unfold NoMemory
    rw [htop]
    rintro (hk | ⟨-, hno⟩ | hzero)
    · have hk : KERNBASE.toNat ≤ (b + len).toNat := hk
      omega
    · exact hno hfound
    · rw [hzero] at hnew
      have hz : (0 : BitVec 32).toNat = 0 := rfl
      omega
  · have hdiv := Nat.div_mul_le_self b.toNat (2 ^ 22)
    omega

/-- **The stack that was made is the one that was asked for** if and only if there was room for it. -/
theorem laid_iff {got : ℕ → Got} (hb : b.toNat % 4096 = 0) (hacc : Accepted b stacksize got argv)
    (hst : Placed (s'.base.pages d) st (topOf b (b + (stacksize + 1) * PGSIZE))
      (topOf b (b + (stacksize + 1) * PGSIZE) - (stacksize + 1) * PGSIZE) argv)
    (hpgdir : (s'.base.kernel.proc p).pgdir = some d) (hsz : (s'.base.kernel.proc p).sz = st.sz)
    (huser : s'.user d = st.user) (hwritten : s'.written d = st.written) (hsp : (s'.tf p).esp = st.sp) :
    Laid s' p d b stacksize ↔ Roomy b stacksize got argv := by
  have hkern : KERNBASE.toNat = 2147483648 := by decide
  have htopsz := hst.sz
  constructor
  · intro h
    have hsize := h.size
    have hbelow := h.below
    obtain ⟨hlo, hhi⟩ := h.esp
    obtain ⟨hmem, -, hfits⟩ := hacc
    rw [hsz, htopsz] at hsize hbelow hhi
    have hreq := request_toNat b stacksize
    generalize hlen : (stacksize + 1) * PGSIZE = len at *
    -- the new size is above the image, so it is what was asked for
    have hlt : b.toNat < (b + len).toNat := by
      by_contra hnot
      have hbase : topOf b (b + len) = b := if_neg hnot
      rw [hbase] at hsize hhi
      omega
    obtain ⟨htop, hguard, hbottom⟩ := layout_above len hb hlt
    rw [htop] at hsize hbelow hhi hfits
    rw [hguard, hbottom, hsize] at hfits
    refine ⟨by omega, by omega, ?_, hfits⟩
    by_contra hno
    rw [hlen] at hno
    exact hmem (.inr (.inl ⟨Nat.le_of_lt hlt, hno⟩))
  · intro h
    have hnew := h.toNat
    have hpos := h.pos
    have hbelow := h.below
    obtain ⟨hmax, hfits⟩ := h.fits
    generalize (stacksize + 1) * PGSIZE = len at *
    obtain ⟨htop, hguard, hbottom⟩ := layout_above len hb (by omega)
    rw [htop, hguard] at hst
    obtain ⟨hsz', hstacked, hsp', hw⟩ := hst
    rw [hbottom] at hw
    rw [hsz'] at hsz
    have hdown := (lowered_bounds argv (b + len).toNat (by omega)).1
    rw [← hnew] at hfits
    have hguardPage : pageOf b * 4096 = b.toNat := by
      unfold pageOf
      omega
    have huserIff := hstacked.user_iff
    rw [← huser] at huserIff
    refine ⟨hpgdir, ?_, ?_, ⟨(hstacked.full _).2 (by omega), ?_⟩, fun i hlo hhi => ?_, ?_, ?_⟩
    · rw [hsz]
      exact hnew
    · rw [hsz]
      omega
    · rw [← Bool.not_eq_true, huserIff]
      exact fun hu => hu.2 rfl
    · rw [hsz] at hhi
      refine (huserIff i).2 ⟨hhi, ?_⟩
      rintro rfl
      omega
    · rw [hsz, hsp]
      omega
    · rw [hsz, hwritten]
      intro e he
      have he := hw e he
      omega

/-- The state in which the stack is built. -/
def YState.loaded (s : YState n) (p : Slot) (stacksize : BitVec 32) : YState n :=
  let t := s.setX (s.addOps 1)
  let t := t.setX ((t.setKernel { t.base.kernel with nextDir := s.base.kernel.nextDir + 1 }).setPages
    s.base.kernel.nextDir Pages.empty)
  { t.setX (t.addOps (-1)) with stacksize := Function.update t.stacksize p stacksize }

/-- **An image that loads**: the rest is the stack. -/
theorem exec2_loads (s : YState n) (c : Fin n) (p : Slot) (argv : List Arg) (stacksize : BitVec 32)
    (h : Loads file g x sz) : ∃ entry, exec2 s c p file argv stacksize g =
    buildStack2 x sz stacksize g.stack argv >>= (s.loaded p stacksize).finish c p s.base.kernel.nextDir entry := by
  obtain ⟨f, rfl, hread, hmagic, hkvm, hload⟩ := h
  refine ⟨f.elfhdr.entry, ?_⟩
  unfold exec2
  dsimp only
  rw [if_neg fun h => h hread, if_neg fun h => h hmagic, if_neg (by rw [hkvm]; decide), hload]
  rfl

/-- An image that does not load changes nothing. -/
theorem exec2_unloaded (s : YState n) (c : Fin n) (p : Slot) (argv : List Arg) (stacksize : BitVec 32)
    (h : ¬ ∃ x sz, Loads file g x sz) :
    ∃ s', exec2 s c p file argv stacksize g = .ok (-1, s') ∧ LeftAlone s s' := by
  unfold exec2
  cases file with
  | none => exact ⟨_, rfl, rfl, rfl, rfl, fun _ _ => ⟨rfl, rfl⟩⟩
  | some f =>
    dsimp only
    split
    · exact ⟨_, rfl, rfl, rfl, rfl, fun _ _ => ⟨rfl, rfl⟩⟩
    · rename_i hread
      split
      · exact ⟨_, rfl, rfl, rfl, rfl, fun _ _ => ⟨rfl, rfl⟩⟩
      · rename_i hmagic
        split
        · exact ⟨_, rfl, rfl, rfl, rfl, fun _ _ => ⟨rfl, rfl⟩⟩
        · rename_i hkvm
          obtain ⟨o, x, hload⟩ := loadHeaders_ok f g.headers f.elfhdr.phnum f.elfhdr.phoff
            full_empty (Nat.zero_le _)
          rw [hload]
          cases o with
          | some sz =>
            refine absurd ⟨x, sz, f, rfl, ?_, ?_, ?_, hload⟩ h
            · simpa using hread
            · simpa using hmagic
            · simpa using hkvm
          | none =>
            refine ⟨_, rfl, rfl, rfl, rfl, fun d hd => ⟨?_, rfl⟩⟩
            show Function.update (Function.update (Function.update s.base.pages s.base.kernel.nextDir Pages.empty)
              s.base.kernel.nextDir x) s.base.kernel.nextDir _ d = s.base.pages d
            rw [Function.update_of_ne hd, Function.update_of_ne hd, Function.update_of_ne hd]

/-- A call that is refused after the image was loaded has changed `stacksize`. -/
theorem finish_refused (s : YState n) (c : Fin n) (p : Slot) (stacksize entry : BitVec 32) (x : Pages) :
    ∃ s', (s.loaded p stacksize).finish c p s.base.kernel.nextDir entry (none, x) = .ok (-1, s') ∧
      (LeftAlone s s' ↔ s.stacksize p = stacksize) := by
  refine ⟨_, rfl, ?_⟩
  constructor
  · intro h
    have hsame := congrFun h.stacksize p
    have hself : Function.update s.stacksize p stacksize p = s.stacksize p := hsame
    rw [Function.update_self] at hself
    exact hself.symm
  · rintro rfl
    refine ⟨rfl, rfl, Function.update_eq_self p s.stacksize, fun d hd => ⟨?_, rfl⟩⟩
    show Function.update (Function.update (Function.update s.base.pages s.base.kernel.nextDir Pages.empty)
      s.base.kernel.nextDir x) s.base.kernel.nextDir _ d = s.base.pages d
    rw [Function.update_of_ne hd, Function.update_of_ne hd, Function.update_of_ne hd]

/-- What a commit leaves. -/
theorem commit_leaves {t t' : XState n} {old : Dir} {entry sp : BitVec 32} {r : ℤ}
    (hold : (t.base.kernel.proc p).pgdir = some old) (hne : d ≠ old)
    (h : t.commit c p d sz entry sp = .ok (r, t')) :
    (t'.base.kernel.proc p).pgdir = some d ∧ (t'.base.kernel.proc p).sz = sz ∧ t'.base.pages d = t.base.pages d ∧
      t'.tf p = ⟨entry, sp⟩ := by
  unfold XState.commit at h
  dsimp only at h
  rw [hold] at h
  split at h
  · cases h
  · rename_i heq
    cases heq
  · rename_i k old' hswitch heq
    cases heq
    cases h
    obtain ⟨stack, d', -, -, rfl⟩ := switchuvm_ok hswitch
    refine ⟨?_, ?_, Function.update_of_ne hne _ _, Function.update_self _ _ _⟩
    · show ((t.base.kernel.proc.upd p fun x => { x with pgdir := some d, sz := sz }) p).pgdir = some d
      rw [upd_self]
    · show ((t.base.kernel.proc.upd p fun x => { x with pgdir := some d, sz := sz }) p).sz = sz
      rw [upd_self]

/-- A process with a kernel stack and a page directory can commit. -/
theorem commit_caller {t : XState n} {k : Stack} {old : Dir} (hk : (t.base.kernel.proc p).kstack = some k)
    (hold : (t.base.kernel.proc p).pgdir = some old) (c : Fin n) (d : Dir) (sz entry sp : BitVec 32) :
    ∃ t', t.commit c p d sz entry sp = .ok (0, t') := by
  unfold XState.commit
  dsimp only
  rw [hold]
  split
  · rename_i f heq
    unfold State.switchuvm XState.setKernel at heq
    simp only [upd_self, hk] at heq
    cases heq
  · rename_i heq
    cases heq
  · exact ⟨_, rfl⟩

theorem commit2_of_commit {t' : XState n} {entry : BitVec 32} {r : ℤ} (h : s.toXState.commit c p d st.sz entry st.sp = .ok (r, t')) :
    s.commit2 c p d st entry =
      .ok (r, ⟨t', s.stacksize, Function.update s.user d st.user, Function.update s.written d st.written⟩) := by
  unfold YState.commit2
  rw [h]
  rfl

/-- A commit of `exec2`. -/
theorem finish_committed (hcaller : Caller s.base.kernel p) (c : Fin n) (stacksize entry : BitVec 32)
    (st : NewStack) (x : Pages) :
    ∃ s', (s.loaded p stacksize).finish c p s.base.kernel.nextDir entry (some st, x) = .ok (0, s') ∧
      (s'.base.kernel.proc p).pgdir = some s.base.kernel.nextDir ∧ (s'.base.kernel.proc p).sz = st.sz ∧
      s'.base.pages s.base.kernel.nextDir = x ∧ s'.user s.base.kernel.nextDir = st.user ∧
      s'.written s.base.kernel.nextDir = st.written ∧ (s'.tf p).esp = st.sp := by
  obtain ⟨⟨k, hk⟩, old, hold, hne⟩ := hcaller
  have hk' : (((s.loaded p stacksize).setPages s.base.kernel.nextDir x).base.kernel.proc p).kstack = some k := hk
  have hold' : (((s.loaded p stacksize).setPages s.base.kernel.nextDir x).base.kernel.proc p).pgdir = some old := hold
  obtain ⟨t', hrun⟩ := commit_caller hk' hold' c s.base.kernel.nextDir st.sz entry st.sp
  obtain ⟨hpgdir, hsz, hpages, htf⟩ := commit_leaves hold' (Ne.symm hne) hrun
  refine ⟨⟨t', (s.loaded p stacksize).stacksize, Function.update s.user s.base.kernel.nextDir st.user,
    Function.update s.written s.base.kernel.nextDir st.written⟩, ?_, hpgdir, hsz, ?_, Function.update_self _ _ _,
    Function.update_self _ _ _, ?_⟩
  · exact commit2_of_commit (s := (s.loaded p stacksize).setX
      ((s.loaded p stacksize).setPages s.base.kernel.nextDir x)) hrun
  · exact hpages.trans (Function.update_self _ _ _)
  · rw [htf]

/-- **`exec2` does what it is asked for** if and only if, when the image loads, there is room for the stack, or the
process has this `stacksize` already and the call is refused. -/
theorem exec2_asked_iff (s : YState n) (c : Fin n) (p : Slot) (file : Option Program) (argv : List Arg)
    (stacksize : BitVec 32) (g : Grants) (hcaller : Caller s.base.kernel p) :
    Asked s p file stacksize g (exec2 s c p file argv stacksize g) ↔
      ∀ x sz, Loads file g x sz → Roomy (pgroundup sz) stacksize g.stack argv ∨
        s.stacksize p = stacksize ∧ Refused (pgroundup sz) stacksize g.stack argv := by
  by_cases hloads : ∃ x sz, Loads file g x sz
  · obtain ⟨x, sz, hl⟩ := hloads
    obtain ⟨entry, hrun⟩ := exec2_loads s c p argv stacksize hl
    have hl' := hl
    obtain ⟨f, hfile, -, -, -, hload⟩ := hl'
    obtain ⟨-, hsize⟩ := loadHeaders_trim _ full_empty (Nat.zero_le _) hload
    obtain ⟨hfull, hsz⟩ := hsize sz rfl
    have halign : (pgroundup sz).toNat % 4096 = 0 := by
      rw [pgroundup_toNat hsz]
      omega
    -- there is one image
    have honly : ∀ x' sz', Loads file g x' sz' → x' = x ∧ sz' = sz := by
      rintro x' sz' ⟨f', hf', -, -, -, hload'⟩
      rw [hfile] at hf'
      cases hf'
      rw [hload] at hload'
      cases hload'
      exact ⟨rfl, rfl⟩
    have hall : (∀ x' sz', Loads file g x' sz' → Roomy (pgroundup sz') stacksize g.stack argv ∨
        s.stacksize p = stacksize ∧ Refused (pgroundup sz') stacksize g.stack argv) ↔
          Roomy (pgroundup sz) stacksize g.stack argv ∨
            s.stacksize p = stacksize ∧ Refused (pgroundup sz) stacksize g.stack argv := by
      constructor
      · exact fun h => h x sz hl
      · intro h x' sz' hl'
        rw [(honly x' sz' hl').2]
        exact h
    rw [hall, hrun]
    rcases buildStack2_cases hfull hsz stacksize g.stack argv with
      ⟨href, hacc, x', hstack, -⟩ | ⟨href, hacc, t, hstack⟩ | ⟨href, hacc, st, x', hstack, hplaced⟩
    · -- refused
      obtain ⟨s', hfin, hsame⟩ := finish_refused s c p stacksize entry x'
      have hres : (buildStack2 x sz stacksize g.stack argv >>=
          (s.loaded p stacksize).finish c p s.base.kernel.nextDir entry) = .ok (-1, s') := by
        rw [hstack]
        exact hfin
      rw [hres]
      constructor
      · rintro (⟨h, -⟩ | ⟨-, h⟩)
        · cases h
        · exact .inr ⟨hsame.1 h, href⟩
      · rintro (h | ⟨h, -⟩)
        · exact absurd (h.accepted halign) hacc
        · exact .inr ⟨rfl, hsame.2 h⟩
    · -- a panic
      have hres : (buildStack2 x sz stacksize g.stack argv >>=
          (s.loaded p stacksize).finish c p s.base.kernel.nextDir entry) = .error t := by
        rw [hstack]
        rfl
      rw [hres]
      constructor
      · exact fun h => h.elim
      · rintro (h | ⟨-, h⟩)
        · exact absurd (h.accepted halign) hacc
        · exact absurd h href
    · -- committed
      obtain ⟨s', hfin, hpgdir, hsz', hpages, huser, hwritten, hsp⟩ :=
        finish_committed hcaller c stacksize entry st x'
      have hres : (buildStack2 x sz stacksize g.stack argv >>=
          (s.loaded p stacksize).finish c p s.base.kernel.nextDir entry) = .ok (0, s') := by
        rw [hstack]
        exact hfin
      rw [← hpages] at hplaced
      have hlaid := laid_iff halign hacc hplaced hpgdir hsz' huser hwritten hsp
      rw [hres]
      constructor
      · rintro (⟨-, x'', sz'', hl'', h⟩ | ⟨h, -⟩)
        · rw [(honly x'' sz'' hl'').2] at h
          exact .inl (hlaid.1 h)
        · cases h
      · rintro (h | ⟨-, h⟩)
        · exact .inl ⟨rfl, x, sz, hl, hlaid.2 h⟩
        · exact absurd h href
  · obtain ⟨s', hrun, hsame⟩ := exec2_unloaded s c p argv stacksize hloads
    rw [hrun]
    exact ⟨fun _ x sz hl => absurd ⟨x, sz, hl⟩ hloads, fun _ => .inr ⟨rfl, hsame⟩⟩

/-- A program with one segment: a page of zeros at address 0. -/
def onePage : Program where
  data := putLE (putLE (putLE (putLE (putLE (fun _ => 0) 0 4 ELF_MAGIC.toNat) 28 4 elfhdrSize.toNat) 44 2 1) 52 4
    ELF_PROG_LOAD.toNat) 72 4 4096
  size := 84

/-- `init` has page directory 0, and wants to be another program. -/
def beforeExec2 : YState 1 where
  base := mboot 1
  tf _ := ⟨0, 0⟩
  stacksize _ := 0
  user _ := Pages.empty
  written _ := []

theorem beforeExec2_caller : Caller beforeExec2.base.kernel 0 := ⟨⟨0, rfl⟩, 0, rfl, by decide⟩

/-- One page of stack, and a program without arguments. -/
theorem exec2_asked_onePage :
    Asked beforeExec2 0 (some onePage) 1 plenty (exec2 beforeExec2 0 0 (some onePage) [] 1 plenty) := by
  rw [exec2_asked_iff _ _ _ _ _ _ _ beforeExec2_caller]
  intro x sz hl
  apply Or.inl
  obtain ⟨f, hf, -, -, -, hload⟩ := hl
  cases hf
  have hsize : (loadHeaders onePage plenty.headers onePage.elfhdr.phnum onePage.elfhdr.phoff Pages.empty 0).map
      Prod.fst = .ok (some 4096) := by decide +kernel
  rw [hload] at hsize
  cases hsize
  exact ⟨by decide, by decide, fun _ _ => rfl, by decide, by decide⟩

/-- The result of a call, and what it wrote to the new page directory. -/
def exec2Writes (s : YState 1) (stacksize : BitVec 32) : Option (ℤ × Writes) :=
  match exec2 s 0 0 (some onePage) [] stacksize plenty with
  | .ok (r, s') => some (r, s'.written s.base.kernel.nextDir)
  | .error _ => none

/-- There is no stack of -1 pages. -/
theorem not_asked_minus : ¬ Asked s p file (-1) g (.ok (0, s')) := by
  rintro (⟨-, x, sz, -, hlaid⟩ | ⟨h, -⟩)
  · have hminus : (-1 : BitVec 32).toInt = -1 := by decide
    have hsize := hlaid.size
    obtain ⟨hlo, hhi⟩ := hlaid.esp
    rw [hminus] at hsize
    omega
  · cases h

/-- **With a `stacksize` of -1** the call succeeds: there is no stack, and the arguments go over the image. -/
theorem exec2_over_image : exec2Writes beforeExec2 (-1) = some (0, [(4080, 16)]) ∧
    ¬ Asked beforeExec2 0 (some onePage) (-1) plenty (exec2 beforeExec2 0 0 (some onePage) [] (-1) plenty) := by
  have hwrites : exec2Writes beforeExec2 (-1) = some (0, [(4080, 16)]) := by decide +kernel
  refine ⟨hwrites, ?_⟩
  unfold exec2Writes at hwrites
  split at hwrites
  · rename_i r s' hrun
    obtain rfl : r = 0 := congrArg Prod.fst (Option.some.inj hwrites)
    rw [hrun]
    exact not_asked_minus
  · cases hwrites

end Xv6.Lwp
