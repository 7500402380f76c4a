import Xv6.Lwp.Limit
import Xv6.Lwp.ThreadCreate

/-!
# The argument and the result of a thread

The three system calls of threads with the values that go through them: `argptr` takes every argument of
`thread_create` but the number of the call, and the value of `thread_exit`, for a pointer to four bytes.

* `sysThreadCreate`: `thread_create` with the stack and the trap frame of the new LWP.
* `sysThreadExit`, `UState.joinPass`: the value goes into the slot, and from there to the memory of the caller.
* `exited_run`: a slot that has exited keeps its value until it is freed.
* **`values_pass`**: which values go through unchanged.
-/

namespace Xv6.Lwp

/-! ## Words in user memory -/

/-- User memory, byte by byte. -/
abbrev Mem := BitVec 32 → BitVec 8

/-- Byte `i` of a word. -/
def byteOf (w : BitVec 32) (i : ℕ) : BitVec 8 := w.extractLsb' (8 * i) 8

def Mem.setWord (m : Mem) (a w : BitVec 32) : Mem := fun x =>
  if (x - a).toNat < 4 then byteOf w (x - a).toNat else m x

/-- The word at `a`. -/
def Mem.HasWord (m : Mem) (a w : BitVec 32) : Prop := ∀ i : Fin 4, m (a + BitVec.ofNat 32 i) = byteOf w i

instance (m : Mem) (a w : BitVec 32) : Decidable (m.HasWord a w) := by unfold Mem.HasWord; infer_instance

/-- The word `v` at `b` leaves the word `w` at `a` as it is. -/
def Spares (b v a w : BitVec 32) : Prop := ∀ i : Fin 4, (a + BitVec.ofNat 32 i - b).toNat < 4 →
  byteOf v (a + BitVec.ofNat 32 i - b).toNat = byteOf w i

instance (b v a w : BitVec 32) : Decidable (Spares b v a w) := by unfold Spares; infer_instance

theorem setWord_hasWord (m : Mem) (a w : BitVec 32) : (m.setWord a w).HasWord a w := by
  intro i
  have hdiff : a + BitVec.ofNat 32 i - a = BitVec.ofNat 32 i := by
    rw [BitVec.add_comm, BitVec.add_sub_cancel]
  have hi : (BitVec.ofNat 32 i).toNat = i := by
    rw [BitVec.toNat_ofNat, Nat.mod_eq_of_lt (by omega)]
  unfold Mem.setWord
  rw [hdiff, hi, if_pos i.isLt]

/-- Another word is written. -/
theorem hasWord_setWord {m : Mem} {a w : BitVec 32} (h : m.HasWord a w) (b v : BitVec 32) :
    (m.setWord b v).HasWord a w ↔ Spares b v a w := by
  unfold Mem.HasWord Mem.setWord Spares
  refine forall_congr' fun i => ?_
  by_cases hlt : (a + BitVec.ofNat 32 i - b).toNat < 4
  · rw [if_pos hlt]
    exact ⟨fun heq _ => heq, fun heq => heq hlt⟩
  · rw [if_neg hlt, h i]
    exact iff_of_true rfl fun hlt' => absurd hlt' hlt

/-! ## The system calls -/

/-- The word at `i` lies below `sz`. -/
def argptrOk (sz i : BitVec 32) : Prop := i < sz ∧ i + 4 ≤ sz

instance (sz i : BitVec 32) : Decidable (argptrOk sz i) := by unfold argptrOk; infer_instance

theorem argptr_four (x : Proc) (i : BitVec 32) : x.argptr i 4 = true ↔ argptrOk x.sz i := by
  simp [Proc.argptr, argptrOk, BitVec.not_le]

/-- What `thread_create` and `exec` set of a trap frame. -/
structure Tf where
  eip : BitVec 32
  esp : BitVec 32
  eax : BitVec 32

structure UState (n : ℕ) where
  kernel : MState n
  /-- user memory, by page directory -/
  mem : Dir → Mem
  /-- the trap frame on the kernel stack of a slot -/
  tf : Slot → Tf

variable {n : ℕ}

def UState.proc (u : UState n) : Table := u.kernel.kernel.proc

def UState.setWord (u : UState n) (d : Option Dir) (a w : BitVec 32) : UState n :=
  match d with
  | none => u
  | some d => { u with mem := Function.update u.mem d ((u.mem d).setWord a w) }

/-- What `thread_create`, called by `p`, writes to user memory and to the trap frame of the LWP `thrd`: the stack of
the LWP, and its tid. -/
def UState.start (u : UState n) (p m thrd : Slot) (thread startRoutine arg : BitVec 32) : UState n :=
  let sp := (u.proc thrd).sz - 8
  let d := (u.proc thrd).pgdir
  let u := (u.setWord d sp 0xffffffff).setWord d (sp + 4) arg
  let u := u.setWord (u.proc p).pgdir thread (BitVec.ofNat 32 (u.proc thrd).tid)
  { u with tf := Function.update u.tf thrd { u.tf m with eip := startRoutine, esp := sp, eax := 0 } }

/-- `sys_thread_create`, called by `p`. -/
def sysThreadCreate (u : UState n) (c : Fin n) (p : Slot) (thread startRoutine arg : BitVec 32) (kstack : Bool)
    (got : ℕ → Got) (copied : Bool) : Except Trap (ℤ × UState n) :=
  if ¬ ((u.proc p).argptr thread 4 = true ∧ (u.proc p).argptr startRoutine 4 = true ∧
      (u.proc p).argptr arg 4 = true) then .ok (-1, u)
  else do
    let (r, s) ← threadCreate u.kernel c p kstack got copied
    let u' := { u with kernel := s }
    match findUnused u.proc, u.proc.main p with
    | some thrd, some m => .ok (r, if r = 0 then u'.start p m thrd thread startRoutine arg else u')
    | _, _ => .ok (r, u')

/-- `sys_thread_exit`, called by `p`. -/
def sysThreadExit (s : State n) (c : Fin n) (p : Slot) (retval : BitVec 32) : Option (Except Fault (State n)) :=
  if (s.proc p).argptr retval 4 then step s (.threadExit c retval) else some (.ok s)

/-- A pass of the loop of `thread_join`, called by `p`, that finds the LWP `z`: the result goes to `*retval`. -/
def UState.joinPass (u : UState n) (c : Fin n) (p : Slot) (thread : ℕ) (retval : BitVec 32) :
    Except Fault (UState n) := do
  let s ← u.kernel.kernel.joinPass c p thread
  let u' := { u with kernel := { u.kernel with kernel := s } }
  match findJoin u.proc p thread with
  | some z =>
    if (u.proc z).parent = some p then .ok (u'.setWord (u.proc p).pgdir retval (s.proc z).retval) else .ok u'
  | none => .ok u'

/-! ## Creation -/

section

variable {u u' : UState n} {s s' : MState n} {c : Fin n} {p m thrd : Slot} {kstack copied : Bool} {got : ℕ → Got}
  {thread startRoutine arg b : BitVec 32}

/-- The size of a process of size `sz` after `thread_create`. -/
def stackTop (sz : BitVec 32) : BitVec 32 :=
  if pgroundup sz + 2 * PGSIZE < pgroundup sz then pgroundup sz else pgroundup sz + 2 * PGSIZE

theorem allocuvm_stackTop {x x' : Pages} {sz r : BitVec 32}
    (h : x.allocuvm (pgroundup sz) (pgroundup sz + 2 * PGSIZE) got = .ok (x', r)) (hr : r ≠ 0) : r = stackTop sz := by
  unfold Pages.allocuvm at h
  unfold stackTop
  split at h
  · cases h
    exact absurd rfl hr
  · split at h
    · rename_i hlt
      cases h
      rw [if_pos hlt]
    · rename_i hlt
      rw [if_neg hlt]
      exact (allocLoop_ok h hr).1

/-- Filling a slot in leaves the sizes, the page directories and the parents. -/
theorem allocated_field {α : Type*} (g : Proc → α)
    (hg : ∀ (x : Proc) (k : Option Stack) pid, g { x.taken pid with kstack := k } = g x) (s : MState n) (p thrd q : Slot) :
    g (s.allocated p thrd q) = g (s.kernel.proc q) :=
  upd_field g s.kernel.proc thrd q _ (hg _ _ _)

theorem allocated_main (s : MState n) (p thrd : Slot) : (s.allocated p thrd).main p = s.kernel.proc.main p := by
  have hthread := allocated_field Proc.isThread (fun _ _ _ => rfl) s p thrd p
  have hparent := allocated_field Proc.parent (fun _ _ _ => rfl) s p thrd p
  unfold Table.main
  rw [hthread, hparent]

/-- **The new LWP** of a call that returns 0. -/
structure Created (s : MState n) (p m thrd : Slot) (s' : MState n) : Prop where
  find : findUnused s.kernel.proc = some thrd
  main : s.kernel.proc.main p = some m
  state : (s'.kernel.proc thrd).state = .runnable
  tid : (s'.kernel.proc thrd).tid = s.kernel.nexttid
  sz : (s'.kernel.proc thrd).sz = stackTop (s.kernel.proc m).sz
  pgdir : (s'.kernel.proc thrd).pgdir = (s.kernel.proc m).pgdir
  mapped : (s.kernel.proc m).pgdir ≠ none
  other : ∀ q, q ≠ thrd → (s'.kernel.proc q).pgdir = (s.kernel.proc q).pgdir

theorem threadCreate_created (h : threadCreate s c p kstack got copied = .ok (0, s')) :
    ∃ m thrd, Created s p m thrd s' := by
  cases hfind : findUnused s.kernel.proc with
  | none =>
    obtain ⟨hr, -⟩ := threadCreate_full hfind h
    cases hr
  | some thrd =>
    cases kstack with
    | false =>
      obtain ⟨hr, -⟩ := threadCreate_noStack hfind h
      cases hr
    | true =>
      obtain ⟨m, d, hmain, hd⟩ := threadCreate_late hfind h
      rw [threadCreate_eq hfind hmain hd] at h
      have hszm := allocated_field Proc.sz (fun _ _ _ => rfl) s p thrd m
      have hdm := allocated_field Proc.pgdir (fun _ _ _ => rfl) s p thrd m
      cases hgot : (s.pages d).allocuvm (pgroundup (s.allocated p thrd m).sz)
          (pgroundup (s.allocated p thrd m).sz + 2 * PGSIZE) got with
      | error t =>
        rw [hgot] at h
        cases h
      | ok y =>
        obtain ⟨x, sz⟩ := y
        rw [hgot] at h
        have h' : (if sz = 0 then _ else _) = ((0 : ℤ), s') := Except.ok.inj h
        split at h'
        · cases h'
        · rename_i h0
          split at h'
          · cases h'
          · cases h'
            have hsz := allocuvm_stackTop hgot h0
            have hpgdir : ∀ q, (((s.allocated p thrd).resize m sz) q).pgdir = (s.kernel.proc q).pgdir := fun q =>
              (upd_field Proc.pgdir _ m q _ rfl).trans (allocated_field Proc.pgdir (fun _ _ _ => rfl) s p thrd q)
            have hself : (s.created (((((s.allocated p thrd).resize m sz).share m thrd sz).adopt m thrd
                s.kernel.nexttid).upd thrd fun x => { x with state := .runnable }) (s.kernel.nexttid + 1) d
                x).kernel.proc thrd = { ((s.allocated p thrd).resize m sz thrd) with
                  pgdir := ((s.allocated p thrd).resize m sz m).pgdir, sz := sz
                  parent := if (((s.allocated p thrd).resize m sz).share m thrd sz m).isThread then
                    (((s.allocated p thrd).resize m sz).share m thrd sz m).parent else some m
                  isThread := true, tid := s.kernel.nexttid, state := .runnable } := by
              unfold MState.created Table.adopt Table.share Table.upd
              simp only [Function.update_self]
            refine ⟨m, thrd, hfind, ?_, ?_, ?_, ?_, ?_, ?_, fun q hq => ?_⟩
            · rw [← hmain, allocated_main]
            · rw [hself]
            · rw [hself]
            · rw [hself, ← hszm]
              exact hsz
            · rw [hself, ← hpgdir m]
            · rw [← hdm, hd]
              simp
            · rw [← hpgdir q]
              unfold MState.created Table.adopt Table.share
              dsimp only
              rw [upd_ne _ hq, upd_ne _ hq, upd_ne _ hq]

theorem setWord_proc (u : UState n) (d : Option Dir) (a w : BitVec 32) :
    (u.setWord d a w).kernel = u.kernel ∧ (u.setWord d a w).tf = u.tf := by
  cases d <;> exact ⟨rfl, rfl⟩

theorem setWord_mem (u : UState n) (d : Dir) (a w : BitVec 32) :
    (u.setWord (some d) a w).mem d = (u.mem d).setWord a w := Function.update_self ..

theorem setWord_mem_ne (u : UState n) {d : Dir} {d' : Option Dir} (h : d' ≠ some d) (a w : BitVec 32) :
    (u.setWord d' a w).mem d = u.mem d := by
  cases d' with
  | none => rfl
  | some d' => exact Function.update_of_ne (fun heq => h (by rw [heq])) ..

/-- **The stack of the LWP** has the argument, if the tid does not go there. -/
theorem start_hasWord (u : UState n) (p m thrd : Slot) (thread startRoutine arg : BitVec 32) {d : Dir}
    (hd : (u.proc thrd).pgdir = some d) :
    ((u.start p m thrd thread startRoutine arg).mem d).HasWord ((u.proc thrd).sz - 8 + 4) arg ↔
      ((u.proc p).pgdir = some d →
        Spares thread (BitVec.ofNat 32 (u.proc thrd).tid) ((u.proc thrd).sz - 8 + 4) arg) := by
  unfold UState.start
  dsimp only
  rw [hd]
  set sp := (u.proc thrd).sz - 8
  set v := (u.setWord (some d) sp 0xffffffff).setWord (some d) (sp + 4) arg with hv
  have hkernel : v.kernel = u.kernel := by rw [hv, (setWord_proc _ _ _ _).1, (setWord_proc _ _ _ _).1]
  have hproc : v.proc = u.proc := by
    unfold UState.proc
    rw [hkernel]
  have hword : (v.mem d).HasWord (sp + 4) arg := by
    rw [hv, setWord_mem]
    exact setWord_hasWord _ _ _
  rw [hproc]
  by_cases hp : (u.proc p).pgdir = some d
  · rw [hp, setWord_mem, hasWord_setWord hword]
    exact ⟨fun hs _ => hs, fun hs => hs rfl⟩
  · rw [setWord_mem_ne v hp]
    exact iff_of_true hword fun hp' => absurd hp' hp

/-- **The call passes the argument**: it returns 0, and the new LWP starts in `start_routine` with the argument on its
stack. -/
def PassesArg (u : UState n) (c : Fin n) (p : Slot) (thread startRoutine arg : BitVec 32) (kstack : Bool)
    (got : ℕ → Got) (copied : Bool) : Prop :=
  ∃ u' thrd d, sysThreadCreate u c p thread startRoutine arg kstack got copied = .ok (0, u') ∧
    findUnused u.proc = some thrd ∧ (u'.proc thrd).state = .runnable ∧ (u'.proc thrd).pgdir = some d ∧
    (u'.tf thrd).eip = startRoutine ∧ (u'.mem d).HasWord ((u'.tf thrd).esp + 4) arg

/-- `*thread = tid` leaves the argument on the new stack alone. -/
def TidElsewhere (u : UState n) (p : Slot) (thread arg : BitVec 32) : Prop :=
  ∀ m ∈ u.proc.main p, (u.proc p).pgdir = (u.proc m).pgdir →
    Spares thread (BitVec.ofNat 32 u.kernel.kernel.nexttid) (stackTop (u.proc m).sz - 8 + 4) arg

/-- A call that returns 0, and what it does. -/
theorem sysThreadCreate_zero (h : sysThreadCreate u c p thread startRoutine b kstack got copied = .ok (0, u')) :
    argptrOk (u.proc p).sz thread ∧ argptrOk (u.proc p).sz startRoutine ∧ argptrOk (u.proc p).sz b ∧
      ∃ m thrd s, threadCreate u.kernel c p kstack got copied = .ok (0, s) ∧ Created u.kernel p m thrd s ∧
        u' = ({ u with kernel := s } : UState n).start p m thrd thread startRoutine b := by
  unfold sysThreadCreate at h
  simp only [argptr_four] at h
  split at h
  · cases h
  · rename_i hargs
    obtain ⟨h0, h1, h2⟩ := not_not.1 hargs
    refine ⟨h0, h1, h2, ?_⟩
    obtain ⟨⟨r, s⟩, hcall, hrest⟩ := bind_ok.1 h
    dsimp only at hrest
    have hr : r = 0 := by
      split at hrest
      · exact congrArg Prod.fst (Except.ok.inj hrest)
      · exact congrArg Prod.fst (Except.ok.inj hrest)
    subst hr
    obtain ⟨m, thrd, hcr⟩ := threadCreate_created hcall
    have hfind : findUnused u.proc = some thrd := hcr.find
    have hmain : u.proc.main p = some m := hcr.main
    rw [hfind, hmain] at hrest
    refine ⟨m, thrd, s, hcall, hcr, ?_⟩
    have heq := congrArg Prod.snd (Except.ok.inj hrest)
    exact heq.symm

/-- The result of a call does not depend on the value of an argument that `argptr` accepts. -/
theorem sysThreadCreate_eq {s : MState n} (hthread : argptrOk (u.proc p).sz thread)
    (hstart : argptrOk (u.proc p).sz startRoutine) (harg : argptrOk (u.proc p).sz arg)
    (hcall : threadCreate u.kernel c p kstack got copied = .ok (0, s)) (hcr : Created u.kernel p m thrd s) :
    sysThreadCreate u c p thread startRoutine arg kstack got copied =
      .ok (0, ({ u with kernel := s } : UState n).start p m thrd thread startRoutine arg) := by
  have hfind : findUnused u.proc = some thrd := hcr.find
  have hmain : u.proc.main p = some m := hcr.main
  unfold sysThreadCreate
  simp only [argptr_four]
  rw [if_neg (not_not.2 ⟨hthread, hstart, harg⟩), hcall, hfind, hmain]
  rfl

/-- **The argument of `thread_create`.** Where a call succeeds for some argument, it passes `arg` if and only if
`argptr` takes `arg` for a pointer into the memory of the caller, and the tid is not written over it. -/
theorem passesArg_iff (hrun : (u.proc p).state ≠ .unused)
    (h : sysThreadCreate u c p thread startRoutine b kstack got copied = .ok (0, u')) :
    PassesArg u c p thread startRoutine arg kstack got copied ↔
      argptrOk (u.proc p).sz arg ∧ TidElsewhere u p thread arg := by
  obtain ⟨h0, h1, -, m, thrd, s, hcall, hcr, -⟩ := sysThreadCreate_zero h
  set v : UState n := { u with kernel := s } with hv
  have hvproc : v.proc = s.kernel.proc := rfl
  obtain ⟨d, hd⟩ := Option.ne_none_iff_exists'.1 hcr.mapped
  have hdthrd : (v.proc thrd).pgdir = some d := by
    rw [hvproc, hcr.pgdir]
    exact hd
  have hstart := start_hasWord v p m thrd thread startRoutine arg hdthrd
  have htid : (v.proc thrd).tid = u.kernel.kernel.nexttid := hcr.tid
  have hsz : (v.proc thrd).sz = stackTop (u.proc m).sz := hcr.sz
  have hne : p ≠ thrd := by
    rintro rfl
    exact hrun (findUnused_some hcr.find)
  have hpgdir : (v.proc p).pgdir = (u.proc p).pgdir := hcr.other p hne
  have hdm : (u.proc m).pgdir = some d := hd
  rw [htid, hsz, hpgdir] at hstart
  have helsewhere : TidElsewhere u p thread arg ↔ ((u.proc p).pgdir = some d →
      Spares thread (BitVec.ofNat 32 u.kernel.kernel.nexttid) (stackTop (u.proc m).sz - 8 + 4) arg) := by
    have hmain : u.proc.main p = some m := hcr.main
    unfold TidElsewhere
    rw [hmain, ← hdm]
    constructor
    · exact fun hall => hall m rfl
    · rintro hall m' ⟨⟩
      exact hall
  -- the state after the call, for this argument
  have hkernel : ∀ a, (v.start p m thrd thread startRoutine a).kernel = s := by
    intro a
    unfold UState.start
    dsimp only
    rw [(setWord_proc _ _ _ _).1, (setWord_proc _ _ _ _).1, (setWord_proc _ _ _ _).1]
  have htf : ∀ a, ((v.start p m thrd thread startRoutine a).tf thrd).eip = startRoutine ∧
      ((v.start p m thrd thread startRoutine a).tf thrd).esp = (v.proc thrd).sz - 8 := by
    intro a
    unfold UState.start
    dsimp only
    rw [Function.update_self]
    exact ⟨rfl, rfl⟩
  constructor
  · rintro ⟨w, thrd', d', hw, hfind, -, hd', -, hword⟩
    obtain ⟨-, -, harg, -⟩ := sysThreadCreate_zero hw
    refine ⟨harg, helsewhere.2 (hstart.1 ?_)⟩
    obtain rfl : thrd = thrd' := Option.some.inj (hcr.find.symm.trans hfind)
    rw [sysThreadCreate_eq h0 h1 harg hcall hcr] at hw
    obtain rfl : v.start p m thrd thread startRoutine arg = w := congrArg Prod.snd (Except.ok.inj hw)
    have hproc : (v.start p m thrd thread startRoutine arg).proc = v.proc := by
      unfold UState.proc
      rw [hkernel]
    rw [hproc, hdthrd] at hd'
    obtain rfl := Option.some.inj hd'
    rw [(htf arg).2, hsz] at hword
    exact hword
  · rintro ⟨harg, hspares⟩
    refine ⟨_, thrd, d, sysThreadCreate_eq h0 h1 harg hcall hcr, hcr.find, ?_, ?_, ?_, ?_⟩
    · unfold UState.proc
      rw [hkernel]
      exact hcr.state
    · unfold UState.proc
      rw [hkernel]
      exact hdthrd
    · exact (htf arg).1
    · rw [(htf arg).2, hsz]
      exact hstart.2 (helsewhere.1 hspares)

end

/-! ## Exit -/

section

variable {s s' : State n} {c : Fin n} {p z : Slot} {e : Event n} {v : BitVec 32}

theorem step_threadExit (hu : s.user c = some p) (hfree : s.Free) (v : BitVec 32) :
    step s (.threadExit c v) = some ((threadExit s.proc p v).map fun t => { s with proc := t }.leave c) := by
  simp only [step, hu, if_pos hfree]

/-- A call after which the CPU is free. -/
theorem sysThreadExit_left (hu : s.user c = some p) (hfree : s.Free) (h : sysThreadExit s c p v = some (.ok s'))
    (hleft : (s'.cpu c).proc = none) : argptrOk (s.proc p).sz v ∧ (s.proc p).pid ≠ 1 := by
  have hcpu := (current_some (user_some hu)).1
  unfold sysThreadExit at h
  simp only [argptr_four] at h
  split at h
  · rename_i hv
    refine ⟨hv, fun hpid => ?_⟩
    rw [step_threadExit hu hfree] at h
    unfold threadExit at h
    rw [if_pos hpid] at h
    cases h
  · cases h
    rw [hcpu] at hleft
    cases hleft

/-- **The value of `thread_exit`** goes into the slot. -/
theorem sysThreadExit_zombie (hu : s.user c = some p) (hfree : s.Free) (hv : argptrOk (s.proc p).sz v)
    (hpid : (s.proc p).pid ≠ 1) : ∃ s', sysThreadExit s c p v = some (.ok s') ∧
      step s (.threadExit c v) = some (.ok s') ∧ (s'.cpu c).proc = none ∧ (s'.proc p).state = .zombie ∧
      (s'.proc p).retval = v := by
  unfold sysThreadExit
  rw [if_pos ((argptr_four _ _).2 hv), step_threadExit hu hfree]
  unfold threadExit
  rw [if_neg hpid]
  refine ⟨_, rfl, rfl, ?_, ?_, ?_⟩
  · show (Function.update s.cpu c { s.cpu c with proc := none, cr3 := none } c).proc = none
    rw [Function.update_self]
  · show (((wakeup1 s.proc ((s.proc p).parent.map .proc)).upd p fun x =>
      { x with retval := v, state := .zombie }) p).state = .zombie
    rw [upd_self]
  · show (((wakeup1 s.proc ((s.proc p).parent.map .proc)).upd p fun x =>
      { x with retval := v, state := .zombie }) p).retval = v
    rw [upd_self]

/-! ## The result of an LWP that has exited -/

/-- The slot is free, or it is a zombie with the result `v`. -/
def Result (z : Slot) (v : BitVec 32) (t : Table) : Prop :=
  (t z).state = .unused ∨ (t z).state = .zombie ∧ (t z).retval = v

theorem Killed.result {t t' : Table} (hk : Killed t t' p) (hz : (t z).state = .zombie) (hv : (t z).retval = v) :
    Result z v t' := by
  by_cases hvic : t.Victim p z
  · left
    rw [hk.victim z hvic]
    rfl
  · right
    by_cases hzp : z = p
    · subst hzp
      obtain ⟨pr, kl, he⟩ := hk.self hvic
      rw [he]
      exact ⟨hz, hv⟩
    · by_cases hm : t.Marked p z
      · rw [hk.marked z hzp hvic hm]
        exact ⟨hz, hv⟩
      · rw [hk.other z hzp hvic hm]
        exact ⟨hz, hv⟩

/-- **A zombie keeps its result** until its slot is freed. -/
theorem zombie_step (hs : Sane s) (hz : (s.proc z).state = .zombie) (hv : (s.proc z).retval = v)
    (hstep : step s e = some (.ok s')) : Result z v s'.proc := by
  -- one slot changes, and not this one
  have hother : ∀ {p}, (∀ q, q ≠ p → s'.proc q = s.proc q) → (s.proc p).state ≠ .zombie → Result z v s'.proc := by
    intro p hrest hne
    have hzp : z ≠ p := by
      rintro rfl
      exact hne hz
    unfold Result
    rw [hrest z hzp]
    exact .inr ⟨hz, hv⟩
  have hsame : (s'.proc z).state = (s.proc z).state → (s'.proc z).retval = (s.proc z).retval → Result z v s'.proc :=
    fun hst hrv => .inr ⟨hst.trans hz, hrv.trans hv⟩
  have hwoke : Woke (s.proc z) (s'.proc z) → (s'.proc z).retval = (s.proc z).retval → Result z v s'.proc := by
    intro hw hrv
    rcases hw.state with hst | ⟨hst, -⟩
    · exact hsame hst hrv
    · rw [hz] at hst
      cases hst
  have hcur : ∀ {c p f}, s.current c = some (p, f) → (s.proc p).state ≠ .zombie := by
    intro c p f h
    rw [(hs.frame_current h).1]
    simp
  have hrun : ∀ {c p}, (s.cpu c).proc = some p → (s.proc p).state ≠ .zombie := by
    intro c p h
    rw [(hs.onCpu c p h).1]
    simp
  have hcreating : ∀ {c p np f}, s.current c = some (p, f) → f.call.creates = some np →
      (s.proc np).state ≠ .zombie := by
    intro c p np f h hcr
    rw [hs.creating p np (by rw [(hs.frame_current h).2.2, hcr])]
    simp
  have hunused : ∀ {np}, findUnused s.proc = some np → (s.proc np).state ≠ .zombie := by
    intro np h
    rw [findUnused_some h]
    simp
  cases step_effect hstep with
  | stay => exact .inr ⟨hz, hv⟩
  | dispatch c p k d hidle hst => exact hother (fun q hq => Function.update_of_ne hq _ s.proc) (by rw [hst]; simp)
  | yield c p hp => exact hother (fun q hq => Function.update_of_ne hq _ s.proc) (hrun hp)
  | sleep c p chan hp => exact hother (fun q hq => Function.update_of_ne hq _ s.proc) (hrun hp)
  | wakeup chan => exact hwoke (wakeup1_woke _ _ z) (wakeup1_field Proc.retval (fun _ _ _ => rfl) _ _ z)
  | exit c p t hp ht =>
    have hzp : z ≠ p := by
      rintro rfl
      exact hcur hp hz
    exact hwoke ((exit_ok ht).1 z hzp) (exit_field Proc.retval (fun _ _ _ => rfl) ht z)
  | threadExit c p retval t hp ht =>
    have hzp : z ≠ p := by
      rintro rfl
      exact hcur hp hz
    refine hwoke ((threadExit_ok ht).1 z hzp) ?_
    unfold threadExit at ht
    split at ht
    · cases ht
    · cases ht
      show ((wakeup1 s.proc _).upd p _ z).retval = _
      rw [upd_ne _ hzp]
      exact wakeup1_field Proc.retval (fun _ _ _ => rfl) _ _ z
  | reap c p z' f d hp hf hz' =>
    by_cases hzz : z = z'
    · left
      show (s.proc.upd z' Proc.reaped z).state = .unused
      rw [hzz, upd_self]
      rfl
    · refine hsame ?_ ?_
      · exact congrArg Proc.state (upd_ne _ hzz _)
      · exact congrArg Proc.retval (upd_ne _ hzz _)
  | join c p z' f thread hp hf hz' =>
    by_cases hzz : z = z'
    · left
      show (s.proc.upd z' Proc.recovered z).state = .unused
      rw [hzz, upd_self]
      rfl
    · refine hsame ?_ ?_
      · exact congrArg Proc.state (upd_ne _ hzz _)
      · exact congrArg Proc.retval (upd_ne _ hzz _)
  | waited => exact .inr ⟨hz, hv⟩
  | block e c p f call he hp => exact hother (fun q hq => Function.update_of_ne hq _ s.proc) (hcur hp)
  | kill c p p₀ pid t hp hfind ht =>
    have hk := (killThread_killed ht).result hz hv
    show Result z v (t.upd p₀ Proc.kill)
    unfold Result at hk ⊢
    rw [upd_apply]
    split
    · rename_i hzp
      subst hzp
      rcases hk with hst | ⟨hst, hrv⟩
      · left
        unfold Proc.kill
        dsimp only
        rw [if_neg (by rw [hst]; simp), hst]
      · right
        unfold Proc.kill
        dsimp only
        rw [if_neg (by rw [hst]; simp)]
        exact ⟨hst, hrv⟩
    · exact hk
  | fork c p np hp hnp => exact hother (fun q hq => Function.update_of_ne hq _ s.proc) (hunused hnp)
  | forkFail c np hnp => exact hother (fun q hq => Function.update_of_ne hq _ s.proc) (hunused hnp)
  | forkCopy c p np hp => exact hother (fun q hq => Function.update_of_ne hq _ s.proc) (hcreating hp rfl)
  | forkCopyFail c p np hp => exact hother (fun q hq => Function.update_of_ne hq _ s.proc) (hcreating hp rfl)
  | forkReady c p np hp => exact hother (fun q hq => Function.update_of_ne hq _ s.proc) (hcreating hp rfl)
  | threadCreate c p thrd hp hthrd => exact hother (fun q hq => Function.update_of_ne hq _ s.proc) (hunused hthrd)
  | threadCreateFail c p thrd hp hthrd => exact hother (fun q hq => Function.update_of_ne hq _ s.proc) (hunused hthrd)
  | threadMapFail c p m thrd sz t pages copied hp hm ht =>
    refine hsame ?_ ?_
    · rcases ht with rfl | rfl
      · exact upd_field Proc.state _ m z _ rfl
      · exact (upd_field Proc.state _ thrd z _ rfl).trans (upd_field Proc.state _ m z _ rfl)
    · rcases ht with rfl | rfl
      · exact upd_field Proc.retval _ m z _ rfl
      · exact (upd_field Proc.retval _ thrd z _ rfl).trans (upd_field Proc.retval _ m z _ rfl)
  | threadMap c p m thrd sz pages copied hp hm =>
    refine hsame ?_ ?_
    · exact (upd_field Proc.state _ thrd z _ rfl).trans
        ((upd_field Proc.state _ thrd z _ rfl).trans (upd_field Proc.state _ m z _ rfl))
    · exact (upd_field Proc.retval _ thrd z _ rfl).trans
        ((upd_field Proc.retval _ thrd z _ rfl).trans (upd_field Proc.retval _ m z _ rfl))
  | threadReady c p thrd hp => exact hother (fun q hq => Function.update_of_ne hq _ s.proc) (hcreating hp rfl)
  | execBegin => exact .inr ⟨hz, hv⟩
  | execSetup => exact .inr ⟨hz, hv⟩
  | killTest => exact .inr ⟨hz, hv⟩
  | killRecover c p y d w call hp =>
    by_cases hzy : z = y
    · exact .inl (by rw [hzy]; exact congrArg Proc.state (upd_self ..))
    · exact hsame (congrArg Proc.state (upd_ne _ hzy _)) (congrArg Proc.retval (upd_ne _ hzy _))
  | killMark c p m d hp hm => exact hsame (upd_field Proc.state _ m z _ rfl) (upd_field Proc.retval _ m z _ rfl)
  | killHeir c p m d hp hm => exact hsame (upd_field Proc.state _ p z _ rfl) (upd_field Proc.retval _ p z _ rfl)
  | execLoaded => exact .inr ⟨hz, hv⟩
  | execCommit c p two d old k sz hp => exact hother (fun q hq => Function.update_of_ne hq _ s.proc) (hcur hp)
  | execBad => exact .inr ⟨hz, hv⟩
  | beginOp => exact .inr ⟨hz, hv⟩
  | endOp => exact .inr ⟨hz, hv⟩
  | growFail => exact .inr ⟨hz, hv⟩
  | growproc => exact .inr ⟨hz, hv⟩
  | growStore c p m sz =>
    exact hsame (upd_field Proc.state _ m z _ rfl) (upd_field Proc.retval _ m z _ rfl)
  | setmemorylimit => exact .inr ⟨hz, hv⟩
  | limitStore c p q limit =>
    exact hsame (upd_field Proc.state _ q z _ rfl) (upd_field Proc.retval _ q z _ rfl)

/-- The slot is in use. -/
def InUse (z : Slot) (s : State n) (_ : Event n) : Prop := (s.proc z).state ≠ .unused

instance (z : Slot) (s : State n) (e : Event n) : Decidable (InUse z s e) := by unfold InUse; infer_instance

/-- Over a run in which the slot is not freed. -/
theorem exited_run {es : List (Event n)} (hs : Sane s) (hz : (s.proc z).state = .zombie) (hv : (s.proc z).retval = v)
    (hG : (machine n).Guarded (fun s e => Settled s e ∧ InUse z s e) s es) (hr : (machine n).run s es = some (.ok s')) :
    Sane s' ∧ Result z v s'.proc := by
  refine Machine.guarded_inv (I := fun s => Sane s ∧ Result z v s.proc) ⟨hs, .inr ⟨hz, hv⟩⟩ ?_ hG hr
  rintro s e s' ⟨hs, hres⟩ ⟨hset, huse⟩ hstep
  refine ⟨sane_step hs hset hstep, ?_⟩
  rcases hres with hfree | ⟨hst, hrv⟩
  · exact absurd hfree huse
  · exact zombie_step hs hst hrv hstep

/-- `thread_join` stores the result of the slot. -/
theorem joinPass_hasWord {u u' : UState n} {thread : ℕ} {retval : BitVec 32} {d : Dir}
    (h : u.joinPass c p thread retval = .ok u') (hz : findJoin u.proc p thread = some z)
    (hpar : (u.proc z).parent = some p) (hd : (u.proc p).pgdir = some d) :
    (u'.mem d).HasWord retval (u.proc z).retval := by
  have hpass : u.kernel.kernel.joinPass c p thread =
      (recovery u.proc z).map fun t => { u.kernel.kernel with proc := t, lock := none }.setFrame c .idle := by
    unfold State.joinPass
    have hz' : findJoin u.kernel.kernel.proc p thread = some z := hz
    have hpar' : ¬ (u.kernel.kernel.proc z).parent ≠ some p := not_not.2 hpar
    rw [hz']
    exact if_neg hpar'
  unfold UState.joinPass at h
  rw [hpass] at h
  obtain ⟨s, hs, hrest⟩ := bind_ok.1 h
  obtain ⟨t, ht, rfl⟩ := map_ok (congrArg some hs)
  rw [hz] at hrest
  dsimp only at hrest
  rw [if_pos hpar] at hrest
  cases hrest
  have hrv : (t z).retval = (u.proc z).retval := by
    unfold recovery at ht
    split at ht
    · cases ht
    · cases ht
      exact upd_field Proc.retval _ z z _ rfl
  rw [hd, setWord_mem]
  show Mem.HasWord _ _ _
  rw [← hrv]
  exact setWord_hasWord _ _ _

/-- **The call passes the result**: the LWP ends, and as long as its slot is not freed, a `thread_join` that finds it
stores `v`. -/
def PassesResult (s : State n) (c : Fin n) (p : Slot) (v : BitVec 32) : Prop :=
  ∃ s', sysThreadExit s c p v = some (.ok s') ∧ (s'.cpu c).proc = none ∧ (s'.proc p).state = .zombie ∧
    ∀ es (u u' : UState n) c' q thread retval d,
      (machine n).Guarded (fun s e => Settled s e ∧ InUse p s e) s' es →
      (machine n).run s' es = some (.ok u.kernel.kernel) → findJoin u.proc q thread = some p →
      (u.proc p).parent = some q → (u.proc q).pgdir = some d → u.joinPass c' q thread retval = .ok u' →
      (u'.mem d).HasWord retval v

theorem passesResult_iff (hs : Sane s) (hu : s.user c = some p) (hfree : s.Free) (v : BitVec 32) :
    PassesResult s c p v ↔ argptrOk (s.proc p).sz v ∧ (s.proc p).pid ≠ 1 := by
  constructor
  · rintro ⟨s', h, hleft, -⟩
    exact sysThreadExit_left hu hfree h hleft
  · rintro ⟨hv, hpid⟩
    obtain ⟨s', h, hstep', hleft, hst, hrv⟩ := sysThreadExit_zombie hu hfree hv hpid
    refine ⟨s', h, hleft, hst, ?_⟩
    intro es u u' c' q thread retval d hG hr hfind hpar hd hjoin
    have hs' : Sane s' := sane_step hs (fun q hq => by cases hq) hstep'
    obtain ⟨-, hres⟩ := exited_run hs' hst hrv hG hr
    have hzombie : (u.proc p).state = .zombie := (findJoin_some hfind hpar).2
    have hval : (u.proc p).retval = v := by
      rcases hres with hun | ⟨-, hrv'⟩
      · have hun' : (u.proc p).state = .unused := hun
        rw [hzombie] at hun'
        cases hun'
      · exact hrv'
    rw [← hval]
    exact joinPass_hasWord hjoin hfind hpar hd

end

/-! ## The result -/

/-- **Arguments and results of threads.** In every state where `thread_create` succeeds for some argument, it passes
`arg` if and only if `arg` could be a pointer to a word of the caller, and the tid is not written over it. In every
state that is reached while `kill_thread` recovers no slot in use, `thread_exit` passes `v` if and only if `v` could
be a pointer to a word of the LWP, which is not one of init. -/
theorem values_pass : (∀ (u u' : UState n) (c : Fin n) (p : Slot) (thread startRoutine arg b : BitVec 32)
      (kstack : Bool) (got : ℕ → Got) (copied : Bool), (u.proc p).state ≠ .unused →
      sysThreadCreate u c p thread startRoutine b kstack got copied = .ok (0, u') →
      (PassesArg u c p thread startRoutine arg kstack got copied ↔
        argptrOk (u.proc p).sz arg ∧ TidElsewhere u p thread arg)) ∧
    ∀ (es : List (Event n)) (s : State n) (c : Fin n) (p : Slot) (v : BitVec 32),
      (machine n).Guarded Settled (boot n) es → (machine n).run (boot n) es = some (.ok s) →
      s.user c = some p → s.Free → (PassesResult s c p v ↔ argptrOk (s.proc p).sz v ∧ (s.proc p).pid ≠ 1) := by
  refine ⟨fun u u' c p thread startRoutine arg b kstack got copied hrun h => passesArg_iff hrun h, ?_⟩
  intro es s c p v hG hr hu hfree
  have hs : Sane s := Machine.guarded_inv (I := Sane) boot_sane (fun _ _ _ hs hG h => sane_step hs hG h) hG hr
  exact passesResult_iff hs hu hfree v

/-- Init, with memory of zeros. -/
def uboot : UState 1 where
  kernel := mboot 1
  mem _ _ := 0
  tf _ := ⟨0, 0, 0⟩

theorem uboot_creates : ∃ u', sysThreadCreate uboot 0 0 0 0 100 true (fun _ => .page) true = .ok (0, u') := by
  unfold sysThreadCreate uboot threadCreate
  dsimp only [MState.setLock]
  exact ⟨_, rfl⟩

/-- A child of init creates an LWP, which runs. -/
def childLwp : List (Event 1) :=
  [.sched 0 0, .fork 0 true, .forkCopy 0 true, .forkReady 0, .yield 0,
    .sched 0 1, .threadCreate 0 true, .threadMap 0 true true, .threadReady 0, .yield 0, .sched 0 2]

theorem childLwp_reached : ∃ s, (machine 1).run (boot 1) childLwp = some (.ok s) ∧ s.user 0 = some 2 ∧ s.Free ∧
    (s.proc 2).sz = 12288 ∧ (s.proc 2).pid = 2 := Machine.run_of_reaches (by decide)

/-- 200 is passed both ways. -/
theorem values_pass_small : PassesArg uboot 0 0 0 0 200 true (fun _ => .page) true ∧
    ∃ s, (machine 1).run (boot 1) childLwp = some (.ok s) ∧ PassesResult s 0 2 200 := by
  obtain ⟨u', h⟩ := uboot_creates
  obtain ⟨s, hr, hu, hfree, hsz, hpid⟩ := childLwp_reached
  refine ⟨((values_pass.1 uboot u' 0 0 0 0 200 100 true (fun _ => .page) true (by decide) h).2
    ⟨by decide, ?_⟩), s, hr, ?_⟩
  · rintro m ⟨⟩ -
    decide
  · refine ((values_pass.2 childLwp s 0 2 200 (Machine.guarded_of_check (by decide)) hr hu hfree).2 ⟨?_, ?_⟩)
    · rw [hsz]
      decide
    · rw [hpid]
      decide

/-- **A value that is no address of the process is not passed**, either way. -/
theorem minus_one_fails : (∃ u', sysThreadCreate uboot 0 0 0 0 100 true (fun _ => .page) true = .ok (0, u')) ∧
    ¬ PassesArg uboot 0 0 0 0 0xffffffff true (fun _ => .page) true ∧
    ∃ s, (machine 1).run (boot 1) childLwp = some (.ok s) ∧ s.user 0 = some 2 ∧ s.Free ∧ (s.proc 2).pid = 2 ∧
      sysThreadExit s 0 2 0xffffffff = some (.ok s) ∧ ¬ PassesResult s 0 2 0xffffffff := by
  obtain ⟨u', h⟩ := uboot_creates
  obtain ⟨s, hr, hu, hfree, hsz, hpid⟩ := childLwp_reached
  have hrej : (s.proc 2).argptr 0xffffffff 4 = false := by
    unfold Proc.argptr
    rw [hsz]
    decide
  refine ⟨⟨u', h⟩, fun hpass => ?_, s, hr, hu, hfree, hpid, ?_, ?_⟩
  · have harg := ((passesArg_iff (by decide) h).1 hpass).1
    revert harg
    decide
  · unfold sysThreadExit
    rw [hrej]
    rfl
  · rintro ⟨s', hexit, hleft, -⟩
    have hok := (sysThreadExit_left hu hfree hexit hleft).1
    rw [hsz] at hok
    revert hok
    decide

end Xv6.Lwp
