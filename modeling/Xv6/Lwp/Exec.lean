import Xv6.Lib.Bytes
import Xv6.Lwp.Growproc
import Xv6.Lwp.Group
import Xv6.Lwp.Walk

/-!
# `exec`

The whole function, over the bytes of the file, the arguments and what every `kalloc` gives.

* `exec`: the ELF header, `kill_thread`, the segments, the stack, and the commit.
* `exec_failed`: where a call that returns -1 leaves the process table.
* **`exec_atomic`**: it leaves the group of the caller alone if and only if it fails before `kill_thread`, or there is
  nobody to kill.
* `exec_failed_steps`: what the model of the kernel says of a failing call, when nothing runs in between.
* **`exec_kills_and_fails`**: a file with a good header and no segments frees the LWPs and returns -1.
-/

namespace Xv6.Lwp

variable {n : ℕ}

/-! ## The file -/

/-- What `readi` reads from: a regular file. -/
structure Program where
  data : Bytes
  size : ℕ

/-- The number of bytes that `readi` reads, or -1. -/
def Program.readi (f : Program) (off n : BitVec 32) : ℤ :=
  if off.toNat > f.size ∨ off + n < off then -1
  else if (off + n).toNat > f.size then f.size - off.toNat
  else n.toNat

/-- The `uint` at an offset. -/
def Program.uint (f : Program) (off : ℕ) : BitVec 32 := BitVec.ofNat 32 (getLE f.data off 4)

/-- What `exec` uses of the ELF header. -/
structure Elfhdr where
  magic : BitVec 32
  entry : BitVec 32
  phoff : BitVec 32
  phnum : ℕ

def Program.elfhdr (f : Program) : Elfhdr := ⟨f.uint 0, f.uint 24, f.uint 28, getLE f.data 44 2⟩

/-- `sizeof(struct elfhdr)` -/
abbrev elfhdrSize : BitVec 32 := 52

/-- What `exec` uses of a program header. -/
structure Proghdr where
  type : BitVec 32
  off : BitVec 32
  vaddr : BitVec 32
  filesz : BitVec 32
  memsz : BitVec 32

def Program.proghdr (f : Program) (off : BitVec 32) : Proghdr where
  type := f.uint off.toNat
  off := f.uint (off.toNat + 4)
  vaddr := f.uint (off.toNat + 8)
  filesz := f.uint (off.toNat + 16)
  memsz := f.uint (off.toNat + 20)

/-- `sizeof(struct proghdr)` -/
abbrev proghdrSize : BitVec 32 := 32

abbrev ELF_MAGIC : BitVec 32 := 0x464C457F

abbrev ELF_PROG_LOAD : BitVec 32 := 1

abbrev MAXARG : ℕ := 32

/-! ## The new image -/

inductive ExecTrap
  | vm (t : Trap)
  /-- `panic("loaduvm: ...")` -/
  | loaduvm
  /-- `panic("clearpteu")` -/
  | clearpteu
  deriving DecidableEq

def vm {α : Type} : Except Trap α → Except ExecTrap α
  | .ok x => .ok x
  | .error t => .error (.vm t)

/-- The loop of `loaduvm`, from page `i` of the segment on; false is its -1. -/
def loadPages (x : Pages) (addr : BitVec 32) (f : Program) (offset sz : BitVec 32) :
    List ℕ → Except ExecTrap Bool
  | [] => .ok true
  | i :: l =>
    let i := PGSIZE * BitVec.ofNat 32 i
    if x (pageOf (addr + i)) = false then .error .loaduvm
    else
      let n := if sz - i < PGSIZE then sz - i else PGSIZE
      if f.readi (offset + i) n ≠ n.toNat then .ok false
      else loadPages x addr f offset sz l

def loaduvm (x : Pages) (addr : BitVec 32) (f : Program) (offset sz : BitVec 32) : Except ExecTrap Bool :=
  if addr % PGSIZE ≠ 0 then .error .loaduvm
  else loadPages x addr f offset sz (List.range ((sz.toNat + 4095) / 4096))

/-- A turn of the loop over the program headers, for the one at `off`. Nothing stands for `goto bad`. -/
def loadHeader (f : Program) (off : BitVec 32) (got : ℕ → Got) (x : Pages) (sz : BitVec 32) :
    Except ExecTrap (Option (BitVec 32) × Pages) :=
  if f.readi off proghdrSize ≠ proghdrSize.toNat then .ok (none, x)
  else
    let ph := f.proghdr off
    if ph.type ≠ ELF_PROG_LOAD then .ok (some sz, x)
    else if ph.memsz < ph.filesz then .ok (none, x)
    else if ph.vaddr + ph.memsz < ph.vaddr then .ok (none, x)
    else do
      let (x, sz) ← vm (x.allocuvm sz (ph.vaddr + ph.memsz) got)
      if sz = 0 then .ok (none, x)
      else if ph.vaddr % PGSIZE ≠ 0 then .ok (none, x)
      else
        let loaded ← loaduvm x ph.vaddr f ph.off ph.filesz
        if loaded = false then .ok (none, x) else .ok (some sz, x)

/-- The loop over the program headers; `got j` is for the header with `j` of them still to come. -/
def loadHeaders (f : Program) (got : ℕ → ℕ → Got) :
    ℕ → BitVec 32 → Pages → BitVec 32 → Except ExecTrap (Option (BitVec 32) × Pages)
  | 0, _, x, sz => .ok (some sz, x)
  | j + 1, off, x, sz => do
    match ← loadHeader f off (got j) x sz with
    | (none, x) => .ok (none, x)
    | (some sz, x) => loadHeaders f got j (off + proghdrSize) x sz

/-- `copyout`: whether the pages that it writes to are there for the user. -/
def copyout (user : Pages) (va : BitVec 32) (len : ℕ) : Bool :=
  len = 0 ∨ (List.range ((va.toNat % 4096 + len + 4095) / 4096)).all fun j => user ((pageOf va + j) % 2 ^ 20)

/-- Push the argument strings; the result is `argc` and `sp`. -/
def pushArgs (user : Pages) : List (List Byte) → ℕ → BitVec 32 → Option (ℕ × BitVec 32)
  | [], argc, sp => some (argc, sp)
  | arg :: argv, argc, sp =>
    if argc ≥ MAXARG then none
    else
      let sp := (sp - BitVec.ofNat 32 (arg.length + 1)) &&& ~~~3
      if copyout user sp (arg.length + 1) = false then none
      else pushArgs user argv (argc + 1) sp

/-- The two pages of the stack and what is pushed there; the result is `sz` and `sp`. -/
def buildStack (x : Pages) (sz : BitVec 32) (got : ℕ → Got) (argv : List (List Byte)) :
    Except ExecTrap (Option (BitVec 32 × BitVec 32) × Pages) := do
  let old := pgroundup sz
  let (x, sz) ← vm (x.allocuvm old (old + 2 * PGSIZE) got)
  if sz = 0 then .ok (none, x)
  else if x (pageOf (sz - 2 * PGSIZE)) = false then .error .clearpteu
  else
    let user : Pages := Function.update x (pageOf (sz - 2 * PGSIZE)) false
    match pushArgs user argv 0 sz with
    | none => .ok (none, x)
    | some (argc, sp) =>
      let size := (3 + argc + 1) * 4
      let sp := sp - BitVec.ofNat 32 size
      if copyout user sp size = false then .ok (none, x) else .ok (some (sz, sp), x)

/-! ## The function -/

/-- What `exec` writes of a trap frame. -/
structure Trapframe where
  eip : BitVec 32
  esp : BitVec 32
  deriving DecidableEq

/-- The kernel, its page directories and the trap frames of the processes. -/
structure XState (n : ℕ) where
  base : MState n
  tf : Slot → Trapframe

/-- What `exec` is given by the allocator: `kvm` is for `setupkvm`. -/
structure Grants where
  kvm : Bool
  headers : ℕ → ℕ → Got
  stack : ℕ → Got

def XState.setKernel (s : XState n) (k : State n) : XState n := { s with base := { s.base with kernel := k } }

def XState.setPages (s : XState n) (d : Dir) (x : Pages) : XState n :=
  { s with base := { s.base with pages := Function.update s.base.pages d x } }

/-- `begin_op`, or `end_op`. -/
def XState.addOps (s : XState n) (i : ℤ) : XState n :=
  s.setKernel { s.base.kernel with outstanding := s.base.kernel.outstanding + i }

/-- `freevm`. -/
def XState.freevm (s : XState n) (d : Dir) : XState n :=
  let k := s.base.kernel
  (s.setKernel { k with freed := Function.update k.freed d (k.freed d + 1) }).setPages d (s.base.pages d).free

/-- `bad`, with `pgdir` and `ip` as they are there. -/
def XState.bad (s : XState n) (pgdir : Option Dir) (ip : Bool) : ℤ × XState n :=
  let s := match pgdir with
    | none => s
    | some d => s.freevm d
  (-1, if ip then s.addOps (-1) else s)

/-- Commit to the user image. -/
def XState.commit (s : XState n) (c : Fin n) (p : Slot) (d : Dir) (sz entry sp : BitVec 32) :
    Except ExecTrap (ℤ × XState n) :=
  let old := (s.base.kernel.proc p).pgdir
  let s := s.setKernel { s.base.kernel with
    proc := s.base.kernel.proc.upd p fun x => { x with pgdir := some d, sz := sz } }
  let s := { s with tf := Function.update s.tf p ⟨entry, sp⟩ }
  match s.base.kernel.switchuvm c p, old with
  | .error f, _ => .error (.vm (.proc f))
  | .ok _, none => .error (.vm (.proc .freevm))
  | .ok k, some old => .ok (0, (s.setKernel k).freevm old)

/-- `exec(path, argv)`, called by `p`; `file` is what `namei(path)` finds. -/
def exec (s : XState n) (c : Fin n) (p : Slot) (file : Option Program) (argv : List (List Byte)) (g : Grants) :
    Except ExecTrap (ℤ × XState n) :=
  let s := s.addOps 1
  match file with
  | none => .ok (-1, s.addOps (-1))
  | some f =>
    if f.readi 0 elfhdrSize ≠ elfhdrSize.toNat then .ok (s.bad none true)
    else if f.elfhdr.magic ≠ ELF_MAGIC then .ok (s.bad none true)
    else if g.kvm = false then .ok (s.bad none true)
    else
      let d := s.base.kernel.nextDir
      let s := (s.setKernel { s.base.kernel with nextDir := d + 1 }).setPages d Pages.empty
      match killThread s.base.kernel.proc p with
      | .error e => .error (.vm (.proc e))
      | .ok t => do
        let s := s.setKernel { s.base.kernel with proc := t }
        match ← loadHeaders f g.headers f.elfhdr.phnum f.elfhdr.phoff Pages.empty 0 with
        | (none, x) => .ok ((s.setPages d x).bad (some d) true)
        | (some sz, x) =>
          let s := s.addOps (-1)
          match ← buildStack x sz g.stack argv with
          | (none, x) => .ok ((s.setPages d x).bad (some d) false)
          | (some (sz, sp), x) => (s.setPages d x).commit c p d sz f.elfhdr.entry sp

/-! ## What a failing call should leave -/

/-- The caller, the other LWPs of its group, and its main thread. -/
def Table.InGroup (t : Table) (p q : Slot) : Prop :=
  q = p ∨ t.main p = some q ∨ (t q).isThread = true ∧ (t q).parent ≠ none ∧ (t q).parent = t.main p

/-- The group is as it was. -/
def Intact (s : XState n) (p : Slot) (s' : XState n) : Prop :=
  ∀ q, s.base.kernel.proc.InGroup p q →
    (s'.base.kernel.proc q).state = (s.base.kernel.proc q).state ∧
    (s'.base.kernel.proc q).killed = (s.base.kernel.proc q).killed ∧
    (s'.base.kernel.proc q).parent = (s.base.kernel.proc q).parent ∧
    (s'.base.kernel.proc q).pgdir = (s.base.kernel.proc q).pgdir ∧
    (s'.base.kernel.proc q).sz = (s.base.kernel.proc q).sz ∧ s'.tf q = s.tf q

/-- `exec` fails before it calls `kill_thread`. -/
def FailsFirst (file : Option Program) (kvm : Bool) : Prop :=
  ∀ f, file = some f →
    f.readi 0 elfhdrSize ≠ elfhdrSize.toNat ∨ f.elfhdr.magic ≠ ELF_MAGIC ∨ kvm = false

/-- A main thread without LWPs. -/
def Table.Lone (t : Table) (p : Slot) : Prop := (t p).isThread = false ∧ ∀ q, ¬ t.Child p q

/-! ## The pages of the new image -/

variable {s s' : XState n} {c : Fin n} {p : Slot} {file : Option Program} {argv : List (List Byte)} {g : Grants}
  {x x' : Pages} {sz : BitVec 32} {d : Dir}

/-- The pages below some size, and no others. -/
def Pages.Trim (x : Pages) : Prop := ∃ sz : BitVec 32, x.Full sz ∧ sz.toNat ≤ KERNBASE.toNat

theorem Pages.Trim.free (h : x.Trim) : x.free = Pages.empty := by
  obtain ⟨sz, hfull, hsz⟩ := h
  funext i
  unfold Pages.free Pages.dealloc
  rw [if_neg (by decide), unmap_loop]
  split
  · rfl
  · rename_i hi
    have hzero : pageOf (pgroundup 0) = 0 := by decide
    rw [mem_pagesFrom, hzero] at hi
    have hnot : ¬ x i = true := by
      rw [hfull i]
      omega
    simpa [Pages.empty] using hnot

/-- **`allocuvm`** of such pages leaves such pages, and the size tells which unless it is 0. -/
theorem allocuvm_trim {newsz r : BitVec 32} {got : ℕ → Got} (hfull : x.Full sz) (hsz : sz.toNat ≤ KERNBASE.toNat)
    (h : x.allocuvm sz newsz got = .ok (x', r)) :
    x'.Trim ∧ (r ≠ 0 → x'.Full r ∧ r.toNat ≤ KERNBASE.toNat) := by
  obtain ⟨halloc, rfl⟩ := allocuvm_refines h
  obtain ⟨y, hy, hyfull⟩ := hfull.alloc hsz newsz (decide (FoundAll sz newsz got))
  obtain rfl : x' = y := Except.ok.inj (halloc.symm.trans hy)
  split at hyfull
  · rename_i h0
    exact ⟨⟨sz, hyfull, hsz⟩, fun hne => absurd h0 hne⟩
  · exact ⟨⟨_, hyfull, allocuvm_le hsz⟩, fun _ => ⟨hyfull, allocuvm_le hsz⟩⟩

theorem vm_ok {α : Type} {r : Except Trap α} {a : α} (h : vm r = .ok a) : r = .ok a := by
  cases r with
  | error t => cases h
  | ok b =>
    cases h
    rfl

/-- A segment. -/
theorem loadHeader_trim {f : Program} {off : BitVec 32} {got : ℕ → Got} {o : Option (BitVec 32)} (hfull : x.Full sz)
    (hsz : sz.toNat ≤ KERNBASE.toNat) (h : loadHeader f off got x sz = .ok (o, x')) :
    x'.Trim ∧ ∀ r, o = some r → x'.Full r ∧ r.toNat ≤ KERNBASE.toNat := by
  have hnone : x.Trim ∧ ∀ r, (none : Option (BitVec 32)) = some r → x.Full r ∧ r.toNat ≤ KERNBASE.toNat :=
    ⟨⟨sz, hfull, hsz⟩, fun r hr => (by cases hr)⟩
  unfold loadHeader at h
  split at h
  · cases h
    exact hnone
  · dsimp only at h
    split at h
    · cases h
      exact ⟨⟨sz, hfull, hsz⟩, fun r hr => by cases hr; exact ⟨hfull, hsz⟩⟩
    · split at h
      · cases h
        exact hnone
      · split at h
        · cases h
          exact hnone
        · obtain ⟨⟨y, r⟩, hy, h⟩ := bind_ok.1 h
          obtain ⟨htrim, hr⟩ := allocuvm_trim hfull hsz (vm_ok hy)
          dsimp only at h
          split at h
          · cases h
            exact ⟨htrim, fun r hr => (by cases hr)⟩
          · rename_i hne
            split at h
            · cases h
              exact ⟨htrim, fun r hr => (by cases hr)⟩
            · obtain ⟨b, -, h⟩ := bind_ok.1 h
              split at h
              · cases h
                exact ⟨htrim, fun r hr => (by cases hr)⟩
              · cases h
                exact ⟨htrim, fun r' hr' => by cases hr'; exact hr hne⟩

/-- All segments. -/
theorem loadHeaders_trim {f : Program} {got : ℕ → ℕ → Got} {o : Option (BitVec 32)} (j : ℕ) :
    ∀ {off : BitVec 32} {x : Pages} {sz : BitVec 32}, x.Full sz → sz.toNat ≤ KERNBASE.toNat →
      loadHeaders f got j off x sz = .ok (o, x') →
      x'.Trim ∧ ∀ r, o = some r → x'.Full r ∧ r.toNat ≤ KERNBASE.toNat := by
  induction j with
  | zero =>
    intro off x sz hfull hsz h
    cases h
    exact ⟨⟨sz, hfull, hsz⟩, fun r hr => by cases hr; exact ⟨hfull, hsz⟩⟩
  | succ j ih =>
    intro off x sz hfull hsz h
    obtain ⟨⟨o', y⟩, hy, h⟩ := bind_ok.1 h
    obtain ⟨htrim, hr⟩ := loadHeader_trim hfull hsz hy
    cases o' with
    | none =>
      cases h
      exact ⟨htrim, fun r hr => (by cases hr)⟩
    | some r =>
      obtain ⟨hfull', hsz'⟩ := hr r rfl
      exact ih hfull' hsz' h

/-- The stack. -/
theorem buildStack_trim {got : ℕ → Got} {o : Option (BitVec 32 × BitVec 32)} (hfull : x.Full sz)
    (hsz : sz.toNat ≤ KERNBASE.toNat) (h : buildStack x sz got argv = .ok (o, x')) : x'.Trim := by
  have hround : (pgroundup sz).toNat ≤ KERNBASE.toNat := by
    rw [pgroundup_toNat hsz]
    have hkern : KERNBASE.toNat = 2147483648 := by decide
    omega
  obtain ⟨⟨y, r⟩, hy, h⟩ := bind_ok.1 h
  obtain ⟨htrim, -⟩ := allocuvm_trim (hfull.round hsz) hround (vm_ok hy)
  dsimp only at h
  split at h
  · cases h
    exact htrim
  · split at h
    · cases h
    · split at h
      · cases h
        exact htrim
      · split at h
        · cases h
          exact htrim
        · cases h
          exact htrim

/-! ## Where a failing call leaves the kernel -/

/-- `bad` after `kill_thread`: the page directory was made for nothing. -/
def XState.failed (s : XState n) (t : Table) : XState n where
  base := {
    kernel := { s.base.kernel with
      proc := t
      nextDir := s.base.kernel.nextDir + 1
      freed := Function.update s.base.kernel.freed s.base.kernel.nextDir
        (s.base.kernel.freed s.base.kernel.nextDir + 1) }
    pages := Function.update s.base.pages s.base.kernel.nextDir Pages.empty }
  tf := s.tf

/-- `begin_op` and `end_op`. -/
theorem addOps_cancel (s : XState n) : (s.addOps 1).addOps (-1) = s := by
  show (⟨⟨{ s.base.kernel with outstanding := s.base.kernel.outstanding + 1 + -1 }, s.base.pages⟩, s.tf⟩ :
    XState n) = s
  rw [Int.add_neg_cancel_right]

/-- The exits after `kill_thread`, with the operation still open or not. -/
theorem bad_failed (s : XState n) (t : Table) (hx : x.Trim) (d : Dir) (hd : d = s.base.kernel.nextDir) :
    (⟨⟨{ s.base.kernel with
          proc := t
          nextDir := d + 1
          freed := Function.update s.base.kernel.freed d (s.base.kernel.freed d + 1)
          outstanding := s.base.kernel.outstanding + 1 + -1 },
        Function.update (Function.update (Function.update s.base.pages d Pages.empty) d x) d
          (Function.update (Function.update s.base.pages d Pages.empty) d x d).free⟩, s.tf⟩ :
      XState n) = s.failed t := by
  subst hd
  rw [Int.add_neg_cancel_right, Function.update_self, Function.update_idem, Function.update_idem, hx.free]
  rfl

/-- A commit returns 0. -/
theorem commit_ok {d : Dir} {sz entry sp : BitVec 32} {r : ℤ} (h : s.commit c p d sz entry sp = .ok (r, s')) :
    r = 0 := by
  unfold XState.commit at h
  dsimp only at h
  split at h
  · cases h
  · cases h
  · cases h
    rfl

/-- **A failing call**: before `kill_thread`, and then nothing happened, or after it. -/
theorem exec_failed (h : exec s c p file argv g = .ok (-1, s')) :
    FailsFirst file g.kvm ∧ s' = s ∨
      ¬ FailsFirst file g.kvm ∧ ∃ t, killThread s.base.kernel.proc p = .ok t ∧ s' = s.failed t := by
  unfold exec at h
  cases file with
  | none =>
    cases h
    exact .inl ⟨fun f hf => (by cases hf), addOps_cancel s⟩
  | some f =>
    dsimp only at h
    split at h
    · rename_i hread
      cases h
      exact .inl ⟨fun f' hf' => by cases hf'; exact .inl hread, addOps_cancel s⟩
    · rename_i hread
      split at h
      · rename_i hmagic
        cases h
        exact .inl ⟨fun f' hf' => by cases hf'; exact .inr (.inl hmagic), addOps_cancel s⟩
      · rename_i hmagic
        split at h
        · rename_i hkvm
          cases h
          exact .inl ⟨fun f' hf' => by cases hf'; exact .inr (.inr hkvm), addOps_cancel s⟩
        · rename_i hkvm
          have hlate : ¬ FailsFirst (some f) g.kvm := by
            intro hfirst
            rcases hfirst f rfl with hx | hx | hx
            · exact hread hx
            · exact hmagic hx
            · exact hkvm hx
          split at h
          · cases h
          · rename_i t hkill
            obtain ⟨⟨o, x⟩, hload, h⟩ := bind_ok.1 h
            obtain ⟨htrim, hsize⟩ := loadHeaders_trim _ full_empty (Nat.zero_le _) hload
            refine .inr ⟨hlate, t, hkill, ?_⟩
            cases o with
            | none =>
              cases h
              exact bad_failed s t htrim _ rfl
            | some sz =>
              obtain ⟨hfull, hsz⟩ := hsize sz rfl
              obtain ⟨⟨o, y⟩, hstack, h⟩ := bind_ok.1 h
              cases o with
              | none =>
                cases h
                exact bad_failed s t (buildStack_trim hfull hsz hstack) _ rfl
              | some zp =>
                have hzero := commit_ok h
                cases hzero

/-- `kill_thread` leaves the caller's group alone only when there is nobody to kill. -/
theorem killThread_intact {t t' : Table} (hkill : killThread t p = .ok t') :
    (∀ q, t.InGroup p q → (t' q).parent = (t q).parent) ↔ t.Lone p := by
  by_cases hth : (t p).isThread = true
  · -- an LWP takes the place of its main thread, whose parent is recovered
    obtain ⟨m, gp, hm, hgp, -, -, -, rfl⟩ := (killThread_lwp hth).1 hkill
    have hmain : t.main p = some m := by
      unfold Table.main
      rw [if_pos hth, hm]
    have hgone : ((t.heir p m gp) gp).parent = none := by
      unfold Table.heir
      rw [upd_self]
      rfl
    constructor
    · intro hsame
      have hp := hsame p (.inl rfl)
      have hmm := hsame m (.inr (.inl hmain))
      exfalso
      by_cases hpg : p = gp
      · have hnone : ((t.heir p m gp) p).parent = none :=
          (congrArg (fun q => ((t.heir p m gp) q).parent) hpg).trans hgone
        rw [hnone, hm] at hp
        cases hp
      · have hself : ((t.heir p m gp) p).parent = some gp := by
          unfold Table.heir
          rw [upd_ne _ hpg, upd_self]
        rw [hself, hm] at hp
        obtain rfl : gp = m := Option.some.inj hp
        rw [hgone, hgp] at hmm
        cases hmm
    · rintro ⟨hmainthread, -⟩
      rw [hth] at hmainthread
      cases hmainthread
  · have hth' : (t p).isThread = false := by simpa using hth
    rw [killThread_main hth'] at hkill
    split at hkill
    · cases hkill
      have hmain : t.main p = some p := by
        unfold Table.main
        rw [if_neg hth]
      constructor
      · intro hsame
        refine ⟨hth', fun q hq => ?_⟩
        have hgroup : t.InGroup p q := .inr (.inr ⟨hq.2, by rw [hq.1]; simp, by rw [hq.1, hmain]⟩)
        have hswept : (t.sweep (t.Child p)) q = (t q).recovered := if_pos hq
        have hpar := hsame q hgroup
        rw [hswept, hq.1] at hpar
        cases hpar
      · rintro ⟨-, hnone⟩ q -
        have hkept : (t.sweep (t.Child p)) q = t q := if_neg (hnone q)
        rw [hkept]
    · cases hkill

/-- **A failing `exec` leaves the process as it was** if and only if it fails before it calls `kill_thread`, or the
caller is a main thread without LWPs. -/
theorem exec_atomic (s s' : XState n) (c : Fin n) (p : Slot) (file : Option Program) (argv : List (List Byte))
    (g : Grants) (h : exec s c p file argv g = .ok (-1, s')) :
    Intact s p s' ↔ FailsFirst file g.kvm ∨ s.base.kernel.proc.Lone p := by
  rcases exec_failed h with ⟨hfirst, rfl⟩ | ⟨hlate, t, hkill, rfl⟩
  · exact ⟨fun _ => .inl hfirst, fun _ q _ => ⟨rfl, rfl, rfl, rfl, rfl, rfl⟩⟩
  · constructor
    · intro hintact
      exact .inr ((killThread_intact hkill).1 fun q hq => (hintact q hq).2.2.1)
    · rintro (hfirst | hlone)
      · exact absurd hfirst hlate
      · have hsame : t = s.base.kernel.proc := by
          rw [killThread_main hlone.1] at hkill
          split at hkill
          · cases hkill
            funext q
            exact if_neg (hlone.2 q)
          · cases hkill
        rw [hsame]
        exact fun q _ => ⟨rfl, rfl, rfl, rfl, rfl, rfl⟩

/-- A file that ends with the ELF header, which says that there is a program header behind it. -/
def headerOnly : Program where
  data := putLE (putLE (putLE (fun _ => 0) 0 4 ELF_MAGIC.toNat) 28 4 elfhdrSize.toNat) 44 2 1
  size := elfhdrSize.toNat

/-- Every `kalloc` gives a page. -/
def plenty : Grants := ⟨true, fun _ _ => .page, fun _ => .page⟩

/-- The process `0` calls `exec` on `headerOnly`. -/
def execHeaderOnly (s : MState 1) : Except ExecTrap (ℤ × XState 1) :=
  exec ⟨s, fun _ => ⟨0, 0⟩⟩ 0 0 (some headerOnly) [] plenty

/-- What the call returns, and how it leaves a slot. -/
def execHeaderOnlyState (s : MState 1) (q : Slot) : Option (ℤ × ProcState) :=
  match execHeaderOnly s with
  | .ok (r, s') => some (r, (s'.base.kernel.proc q).state)
  | .error _ => none

theorem execHeaderOnly_of_state {s : MState 1} {q : Slot} {st : ProcState}
    (h : execHeaderOnlyState s q = some (-1, st)) :
    ∃ s', execHeaderOnly s = .ok (-1, s') ∧ (s'.base.kernel.proc q).state = st := by
  unfold execHeaderOnlyState at h
  split at h
  · rename_i r s' hok
    cases h
    exact ⟨s', hok, rfl⟩
  · cases h

/-- `init` has no LWPs. -/
theorem exec_atomic_headerOnly : ∃ s', execHeaderOnly (mboot 1) = .ok (-1, s') ∧
    Intact ⟨mboot 1, fun _ => ⟨0, 0⟩⟩ 0 s' := by
  have hcall : execHeaderOnlyState (mboot 1) 0 = some (-1, .runnable) := by decide
  obtain ⟨s', hs', -⟩ := execHeaderOnly_of_state hcall
  have hlone : (mboot 1).kernel.proc.Lone 0 := by
    refine ⟨rfl, fun q hq => ?_⟩
    obtain ⟨hpar, -⟩ := hq
    revert q
    decide
  have hiff := exec_atomic ⟨mboot 1, fun _ => ⟨0, 0⟩⟩ s' 0 0 (some headerOnly) [] plenty hs'
  exact ⟨s', hs', hiff.2 (.inr hlone)⟩

/-- Init creates an LWP. -/
def initWithLwp : List (MEvent 1) :=
  [.proc (.sched 0 0), .proc (.threadCreate 0 true), .proc (.threadMap 0 true true), .proc (.threadReady 0)]

/-- **A failing `exec` frees the LWPs**: the caller goes on, without the one that it had. -/
theorem exec_kills_and_fails : ∃ s s', (mmachine 1).run (mboot 1) initWithLwp = some (.ok s) ∧
    execHeaderOnly s = .ok (-1, s') ∧ (s.kernel.proc 1).state = .runnable ∧
    (s'.base.kernel.proc 1).state = .unused ∧ ¬ Intact ⟨s, fun _ => ⟨0, 0⟩⟩ 0 s' := by
  obtain ⟨s, hr, hlwp, hth, hpar, hcall⟩ : ∃ s, (mmachine 1).run (mboot 1) initWithLwp = some (.ok s) ∧
      (s.kernel.proc 1).state = .runnable ∧ s.kernel.proc.main 0 = some 0 ∧
      s.kernel.proc.Child 0 1 ∧ execHeaderOnlyState s 1 = some (-1, .unused) :=
    Machine.run_of_reaches (by decide)
  obtain ⟨s', hs', hst⟩ := execHeaderOnly_of_state hcall
  refine ⟨s, s', hr, hs', hlwp, hst, fun hintact => ?_⟩
  have hgroup : s.kernel.proc.InGroup 0 1 := by
    refine .inr (.inr ⟨hpar.2, ?_, ?_⟩)
    · rw [hpar.1]
      simp
    · rw [hpar.1, hth]
  have hsame := (hintact 1 hgroup).1
  rw [hst] at hsame
  exact absurd (hsame.trans hlwp) (by decide)

/-! ## As steps of the kernel -/

/-- A failing call in the steps of the kernel model: before `kill_thread`, or after the `kills` events of that. -/
def failingExec (c : Fin n) : Option ℕ → List (MEvent n)
  | none => [.proc (.execBegin c false), .proc (.execBad c)]
  | some kills =>
    .proc (.execBegin c false) :: .proc (.execSetup c) ::
      (List.replicate kills (.proc (.execKill c)) ++ [.proc (.execBad c)])

/-- A caller that was idle is idle again. -/
theorem frame_idle {k : State n} (hu : k.user c = some p) :
    Function.update k.frame (k.cpu c).stack .idle = k.frame :=
  Function.update_eq_self_iff.2 (current_some (user_some hu)).2.symm

/-- In `exec`, with the operation open. -/
def XState.execing (s : XState n) (c : Fin n) : State n :=
  { s.base.kernel with outstanding := s.base.kernel.outstanding + 1 }.setFrame c ⟨.exec false none, true⟩

theorem execing_current (hu : s.base.kernel.user c = some p) :
    (s.execing c).current c = some (p, ⟨.exec false none, true⟩) := by
  have hcpu := (current_some (user_some hu)).1
  unfold State.current XState.execing State.setFrame
  dsimp only
  rw [hcpu, Function.update_self]
  rfl

theorem execBegin_step (hu : s.base.kernel.user c = some p) :
    mstep s.base (.proc (.execBegin c false)) = some (.ok ⟨s.execing c, s.base.pages⟩) := by
  unfold mstep step
  simp only [hu]
  rfl

/-- `bad` before `kill_thread`. -/
theorem execBad_step (hu : s.base.kernel.user c = some p) :
    mstep ⟨s.execing c, s.base.pages⟩ (.proc (.execBad c)) = some (.ok s.base) := by
  have hstep : step (s.execing c) (.execBad c) = some (.ok s.base.kernel) := by
    unfold step
    dsimp only
    rw [execing_current hu]
    show some (Except.ok { s.base.kernel with
      outstanding := s.base.kernel.outstanding + 1 - 1
      frame := Function.update (Function.update s.base.kernel.frame (s.base.kernel.cpu c).stack
        ⟨.exec false none, true⟩) (s.base.kernel.cpu c).stack .idle }) = _
    rw [Function.update_idem, frame_idle hu, Int.add_sub_cancel]
  have hpages : pagesAfter (s.execing c) s.base.pages (.execBad c) = .ok s.base.pages := by
    unfold pagesAfter
    dsimp only
    rw [execing_current hu]
  unfold mstep
  dsimp only
  rw [hstep]
  dsimp only
  rw [hpages]
  rfl

/-- In `exec`, with the new page directory and the LWPs killed. -/
def XState.loading (s : XState n) (c : Fin n) (t : Table) : MState n where
  kernel := { s.execing c with proc := t, nextDir := s.base.kernel.nextDir + 1 }.setFrame c
    ⟨.exec false (some s.base.kernel.nextDir), true⟩
  pages := Function.update s.base.pages s.base.kernel.nextDir Pages.empty

/-- With the new page directory. -/
def XState.created (s : XState n) (c : Fin n) : State n := { s.execing c with nextDir := s.base.kernel.nextDir + 1 }

theorem execSetup_step (hu : s.base.kernel.user c = some p) :
    mstep ⟨s.execing c, s.base.pages⟩ (.proc (.execSetup c)) = some (.ok
      ⟨(s.created c).walk c s.base.kernel.nextDir (s.created c).proc
        (.loop ((s.created c).proc p).isThread (List.finRange NPROC)),
        Function.update s.base.pages s.base.kernel.nextDir Pages.empty⟩) := by
  have hstep : step (s.execing c) (.execSetup c) = some (.ok ((s.created c).walk c s.base.kernel.nextDir
      (s.created c).proc (.loop ((s.created c).proc p).isThread (List.finRange NPROC)))) := by
    unfold step
    dsimp only
    rw [execing_current hu]
    rfl
  unfold mstep
  dsimp only
  rw [hstep]
  rfl

/-- `kill_thread` leaves the pages. -/
theorem mrun_execKill {k k' : State n} {x : Dir → Pages} (j : ℕ)
    (h : (machine n).run k (List.replicate j (.execKill c)) = some (.ok k')) :
    (mmachine n).run ⟨k, x⟩ (List.replicate j (.proc (.execKill c))) = some (.ok ⟨k', x⟩) := by
  induction j generalizing k with
  | zero => cases h; rfl
  | succ j ih =>
    obtain ⟨k₁, hstep, hrest⟩ := Machine.run_cons_ok.1 h
    have hm : (mmachine n).step ⟨k, x⟩ (.proc (.execKill c)) = some (.ok ⟨k₁, x⟩) := by
      show mstep ⟨k, x⟩ (.proc (.execKill c)) = _
      unfold mstep
      dsimp only
      rw [show step k (.execKill c) = some (.ok k₁) from hstep]
      rfl
    exact (Machine.run_cons hm _).trans (ih hrest)

/-- `kill_thread`, when it does not fault. -/
theorem killThread_run {t : Table} (hu : s.base.kernel.user c = some p)
    (hkill : killThread s.base.kernel.proc p = .ok t) : ∃ kills, (mmachine n).run
      ⟨(s.created c).walk c s.base.kernel.nextDir (s.created c).proc
        (.loop ((s.created c).proc p).isThread (List.finRange NPROC)),
        Function.update s.base.pages s.base.kernel.nextDir Pages.empty⟩
      (List.replicate kills (.proc (.execKill c))) = some (.ok (s.loading c t)) := by
  have hcpu : ((s.created c).cpu c).proc = some p := (current_some (user_some hu)).1
  have hproc : killThread (s.created c).proc p = .ok t := hkill
  obtain ⟨kills, hrun⟩ := killThread_walk (d := s.base.kernel.nextDir) hcpu
  rw [hproc] at hrun
  exact ⟨kills, mrun_execKill kills hrun⟩

/-- `bad` after `kill_thread`. -/
theorem execBad_late {t : Table} (hu : s.base.kernel.user c = some p) :
    mstep (s.loading c t) (.proc (.execBad c)) = some (.ok (s.failed t).base) := by
  have hcpu := (current_some (user_some hu)).1
  have hcur : (s.loading c t).kernel.current c =
      some (p, ⟨.exec false (some s.base.kernel.nextDir), true⟩) := by
    unfold State.current XState.loading State.setFrame XState.execing State.setFrame
    dsimp only
    rw [hcpu, Function.update_self]
    rfl
  have hstep : step (s.loading c t).kernel (.execBad c) = some (.ok (s.failed t).base.kernel) := by
    unfold step
    dsimp only
    rw [hcur]
    show some (Except.ok { s.base.kernel with
      proc := t
      nextDir := s.base.kernel.nextDir + 1
      freed := Function.update s.base.kernel.freed s.base.kernel.nextDir
        (s.base.kernel.freed s.base.kernel.nextDir + 1)
      outstanding := s.base.kernel.outstanding + 1 - 1
      frame := Function.update (Function.update (Function.update s.base.kernel.frame (s.base.kernel.cpu c).stack
        ⟨.exec false none, true⟩) (s.base.kernel.cpu c).stack ⟨.exec false (some s.base.kernel.nextDir), true⟩)
        (s.base.kernel.cpu c).stack .idle }) = _
    rw [Function.update_idem, Function.update_idem, frame_idle hu, Int.add_sub_cancel]
    rfl
  have hpages : pagesAfter (s.loading c t).kernel (s.loading c t).pages (.execBad c) =
      .ok (s.failed t).base.pages := by
    have hfree : Pages.empty.free = Pages.empty := Pages.Trim.free ⟨0, full_empty, Nat.zero_le _⟩
    unfold pagesAfter
    dsimp only
    rw [hcur]
    show Except.ok (Function.update (Function.update s.base.pages s.base.kernel.nextDir Pages.empty)
      s.base.kernel.nextDir (Function.update s.base.pages s.base.kernel.nextDir Pages.empty
        s.base.kernel.nextDir).free) = _
    rw [Function.update_self, hfree, Function.update_idem]
    rfl
  unfold mstep
  dsimp only
  rw [hstep]
  dsimp only
  rw [hpages]
  rfl

/-- **A failing `exec` is a run of the kernel**, when nothing else runs in between. -/
theorem exec_failed_steps (hu : s.base.kernel.user c = some p) (h : exec s c p file argv g = .ok (-1, s')) :
    ∃ kills, (mmachine n).run s.base (failingExec c kills) = some (.ok s'.base) := by
  have hbegin : (mmachine n).step s.base (.proc (.execBegin c false)) = _ := execBegin_step hu
  rcases exec_failed h with ⟨-, rfl⟩ | ⟨-, t, hkill, rfl⟩
  · have hbad : (mmachine n).step _ (.proc (.execBad c)) = _ := execBad_step hu
    exact ⟨none, (Machine.run_cons hbegin _).trans (Machine.run_cons hbad [])⟩
  · have hsetup : (mmachine n).step _ (.proc (.execSetup c)) = _ := execSetup_step hu
    have hbad : (mmachine n).step (s.loading c t) (.proc (.execBad c)) = _ := execBad_late hu
    obtain ⟨kills, hrun⟩ := killThread_run hu hkill
    refine ⟨some kills, (Machine.run_cons hbegin _).trans ((Machine.run_cons hsetup _).trans ?_)⟩
    exact (Machine.run_append hrun).trans (Machine.run_cons hbad [])

end Xv6.Lwp
