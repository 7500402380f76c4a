import Xv6.Lib.Machine

/-!
# Processes and light-weight processes of `project2`

`proc.c`, `pthread.c`, `exec.c` and `procmng.c`: the process table, where an LWP is a slot
with `isThread` set whose `parent` is the main thread of its process, and the CPUs.

* The table alone: `recovery`, `kill_thread`, `kill`, `exit` and `thread_exit` up to `sched`.
* The kernel: a critical section of `ptable.lock` is one event, and so is each stretch of
  kernel code between two of them. `fork`, `thread_create` and `exec` are cut where other
  processes can run in between; a process that `wait` or `thread_join` put to sleep goes
  on with the lock held.
* `exec` calls `kill_thread` without the lock: there each test of a slot is an event, each
  `recovery` is another, and what an LWP does with its parents is three. `kill` holds the
  lock, so its `kill_thread` is part of one event.
* `growproc` stores the size after `release`, and `setmemorylimit` has no lock between its
  test of the size and its store of the limit: both stores are events of their own.

A kernel stack and a page directory are named by the `kalloc` and `setupkvm` that made
them, so a name is never used twice. What a process is in the middle of in the kernel is
on its kernel stack (`Frame`): a slot that is given away while its last owner still runs
has a new stack, and the old owner goes on with the old one. `scheduler` may pick any
`RUNNABLE` process, where the source goes through the table in order. Files, names, trap
frames and the contents of memory are left out.
-/

namespace Xv6.Lwp

abbrev NPROC : ℕ := 64

/-- A slot of `ptable.proc`; a pointer to one is an `Option Slot`. -/
abbrev Slot := Fin NPROC

/-- A page directory. -/
abbrev Dir := ℕ

/-- A kernel stack. -/
abbrev Stack := ℕ

inductive ProcState
  | unused | embryo | sleeping | runnable | running | zombie
  deriving DecidableEq

/-- What a process sleeps on: a process in `wait` and `thread_join`, or anything else. -/
inductive Chan
  | proc (p : Slot)
  | other (n : ℕ)
  deriving DecidableEq

structure Proc where
  sz : BitVec 32
  pgdir : Option Dir
  kstack : Option Stack
  state : ProcState
  pid : ℕ
  parent : Option Slot
  chan : Option Chan
  killed : Bool
  /-- memory limit; 0 is no limit -/
  memlim : BitVec 32
  /-- an LWP -/
  isThread : Bool
  tid : ℕ
  retval : BitVec 32

inductive Fault
  /-- panic("kfree") -/
  | kfree
  /-- panic("init exiting") -/
  | initExiting
  /-- panic("switchuvm: ...") -/
  | switchuvm
  /-- panic("freevm: no pgdir") -/
  | freevm
  /-- an access through a null pointer -/
  | nullDeref
  /-- an access past the end of the process table -/
  | outOfBounds
  deriving DecidableEq

abbrev Table := Slot → Proc

def Table.upd (t : Table) (p : Slot) (f : Proc → Proc) : Table := Function.update t p (f (t p))

/-- The first process. -/
def initproc : Slot := 0

/-! ## The table -/

def wakeup1 (t : Table) (chan : Option Chan) : Table := fun p =>
  if (t p).state = .sleeping ∧ (t p).chan = chan then { t p with state := .runnable } else t p

/-- The fields of a slot after `recovery`. -/
def Proc.recovered (x : Proc) : Proc :=
  { x with kstack := none, pid := 0, parent := none, killed := false, state := .unused,
           isThread := false, tid := 0 }

def recovery (t : Table) (thread : Slot) : Except Fault Table :=
  if (t thread).kstack = none then .error .kfree else .ok (t.upd thread Proc.recovered)

/-- The test of the first loop of `kill_thread`: an LWP whose parent is `p`. -/
def Table.Child (t : Table) (p q : Slot) : Prop := (t q).parent = some p ∧ (t q).isThread = true

/-- That of the second loop: another LWP with the parent of `p`. -/
def Table.Sibling (t : Table) (p q : Slot) : Prop :=
  (t q).parent = (t p).parent ∧ (t q).isThread = true ∧ (t q).tid ≠ (t p).tid

instance (t : Table) (p q : Slot) : Decidable (t.Child p q) := by unfold Table.Child; infer_instance

instance (t : Table) (p q : Slot) : Decidable (t.Sibling p q) := by unfold Table.Sibling; infer_instance

/-- The body of the first loop of `kill_thread`. -/
def killChild (p : Slot) (t : Table) (child : Slot) : Except Fault Table :=
  if t.Child p child then
    recovery (t.upd child fun x => { x with killed := true }) child
  else .ok t

/-- The body of the second loop of `kill_thread`. -/
def killSibling (p : Slot) (t : Table) (child : Slot) : Except Fault Table :=
  if t.Sibling p child then
    recovery (t.upd child fun x => { x with killed := true }) child
  else .ok t

def killThread (t : Table) (p : Slot) : Except Fault Table :=
  if (t p).isThread = false then (List.finRange NPROC).foldlM (killChild p) t
  else do
    let t ← (List.finRange NPROC).foldlM (killSibling p) t
    match (t p).parent with
    | none => .error .nullDeref
    | some m =>
      let t := t.upd m fun x => { x with killed := true }
      -- p is the main thread now
      let t := t.upd p fun x => { x with isThread := false, parent := (t m).parent }
      match (t p).parent with
      | none => .error .nullDeref
      | some g => recovery t g

def findPid (t : Table) (pid : ℕ) : Option Slot :=
  (List.finRange NPROC).find? fun p => (t p).pid = pid

/-- The process that `kill` found, after `kill_thread`. -/
def Proc.kill (x : Proc) : Proc :=
  { x with killed := true, state := if x.state = .sleeping then .runnable else x.state }

/-- `kill`; `none` is its -1. -/
def kill (t : Table) (pid : ℕ) : Option (Except Fault Table) :=
  (findPid t pid).map fun p => (killThread t p).map fun t => t.upd p Proc.kill

/-- Pass one abandoned child to init. -/
def reparent (curproc : Slot) (t : Table) (p : Slot) : Table :=
  if (t p).parent = some curproc then
    let t := t.upd p fun x => { x with parent := some initproc }
    if (t p).state = .zombie then wakeup1 t (some (.proc initproc)) else t
  else t

/-- `exit`, from `acquire(&ptable.lock)` to `sched`. -/
def exit (t : Table) (curproc : Slot) : Except Fault Table :=
  if curproc = initproc then .error .initExiting
  else
    let t := wakeup1 t ((t curproc).parent.map .proc)
    let t := (List.finRange NPROC).foldl (reparent curproc) t
    .ok (t.upd curproc fun x => { x with state := .zombie })

/-- `thread_exit`, from `acquire(&ptable.lock)` to `sched`. -/
def threadExit (t : Table) (curproc : Slot) (retval : BitVec 32) : Except Fault Table :=
  if (t curproc).pid = 1 then .error .initExiting
  else .ok ((wakeup1 t ((t curproc).parent.map .proc)).upd curproc fun x =>
    { x with retval := retval, state := .zombie })

/-- The exited child that `wait` finds first. -/
def findZombie (t : Table) (curproc : Slot) : Option Slot :=
  (List.finRange NPROC).find? fun p => (t p).parent = some curproc ∧ (t p).state = .zombie

def havekids (t : Table) (curproc : Slot) : Bool :=
  (List.finRange NPROC).any fun p => (t p).parent = some curproc

/-- The fields of a slot that `wait` freed. -/
def Proc.reaped (x : Proc) : Proc :=
  { x with kstack := none, pid := 0, parent := none, killed := false, state := .unused }

/-- The slot at which the loop of `thread_join` stops: one with the tid that is not the
caller's, or that has exited. -/
def findJoin (t : Table) (curproc : Slot) (thread : ℕ) : Option Slot :=
  (List.finRange NPROC).find? fun p =>
    (t p).tid = thread ∧ ((t p).parent ≠ some curproc ∨ (t p).state = .zombie)

def findUnused (t : Table) : Option Slot :=
  (List.finRange NPROC).find? fun p => (t p).state = .unused

/-! ## Memory sizes -/

abbrev PGSIZE : BitVec 32 := 4096

abbrev KERNBASE : BitVec 32 := 0x80000000

def pgroundup (sz : BitVec 32) : BitVec 32 := (sz + (PGSIZE - 1)) &&& ~~~(PGSIZE - 1)

/-- The size that `allocuvm` returns; `ok` says that it finds the pages. -/
def allocuvm (oldsz newsz : BitVec 32) (ok : Bool) : BitVec 32 :=
  if newsz ≥ KERNBASE then 0
  else if newsz < oldsz then oldsz
  else if ok then newsz else 0

def deallocuvm (oldsz newsz : BitVec 32) : BitVec 32 := if newsz ≥ oldsz then oldsz else newsz

/-- `growproc` refuses a process over its memory limit. -/
def Proc.limited (x : Proc) (n : BitVec 32) : Prop := x.memlim ≠ 0 ∧ x.memlim < x.sz + n

instance (x : Proc) (n : BitVec 32) : Decidable (x.limited n) := by unfold Proc.limited; infer_instance

/-- The size that `growproc` gives the process, or nothing when it returns -1. -/
def newSize (sz n : BitVec 32) (ok : Bool) : Option (BitVec 32) :=
  if BitVec.slt 0 n then
    if allocuvm sz (sz + n) ok = 0 then none else some (allocuvm sz (sz + n) ok)
  else if BitVec.slt n 0 then
    if deallocuvm sz (sz + n) = 0 then none else some (deallocuvm sz (sz + n))
  else some sz

/-! ## CPUs -/

/-- How far `exec` is in `kill_thread`. -/
inductive Walk
  /-- in the first loop, or with `lwp` in the second, with the slots `rest` to come -/
  | loop (lwp : Bool) (rest : List Slot)
  /-- `child` has passed the test, and is not recovered yet -/
  | hit (lwp : Bool) (child : Slot) (rest : List Slot)
  /-- after `p->parent->killed=1` -/
  | marked
  /-- before `recovery(p->parent)`, with `p->parent` overwritten -/
  | heir
  deriving DecidableEq

/-- The kernel code that a process is in the middle of. -/
inductive Call
  | none
  /-- in `fork`, with `np` allocated -/
  | fork (np : Slot)
  /-- in `fork`, with `np` filled in -/
  | forked (np : Slot)
  /-- in `thread_create`, with `thrd` allocated -/
  | create (thrd : Slot)
  /-- in `thread_create`, with `thrd` filled in -/
  | created (thrd : Slot)
  /-- in `exec` or, with `two`, in `exec2`; `pgdir` is the new page directory -/
  | exec (two : Bool) (pgdir : Option Dir)
  /-- in `kill_thread`, called by `exec` -/
  | killThread (pgdir : Dir) (w : Walk)
  /-- in `growproc`, with the lock released and the size `sz` of `m` not stored yet -/
  | grow (m : Slot) (sz : BitVec 32)
  /-- in `setmemorylimit`, with `p` found and its size below `limit` -/
  | limit (p : Slot) (limit : BitVec 32)
  /-- asleep in `wait` -/
  | wait
  /-- asleep in `thread_join` -/
  | join (thread : ℕ)
  deriving DecidableEq

/-- What is on a kernel stack: the call, and whether the process is between `begin_op`
and `end_op`. -/
structure Frame where
  call : Call
  inOp : Bool
  deriving DecidableEq

/-- A process that is in user space, or in a system call that changes no process. -/
def Frame.idle : Frame := ⟨.none, false⟩

structure Cpu where
  proc : Option Slot
  /-- the kernel stack of the process it runs -/
  stack : Stack
  /-- `ts.esp0`, by the stack that it is the top of -/
  esp0 : Option Stack
  /-- the loaded page directory; `none` is `kpgdir` -/
  cr3 : Option Dir

variable {n : ℕ}

structure State (n : ℕ) where
  proc : Table
  nextpid : ℕ
  nexttid : ℕ
  nextStack : Stack
  nextDir : Dir
  /-- how often `freevm` was called on a page directory -/
  freed : Dir → ℕ
  frame : Stack → Frame
  /-- `log.outstanding` -/
  outstanding : ℤ
  /-- the CPU that holds `ptable.lock` -/
  lock : Option (Fin n)
  cpu : Fin n → Cpu

inductive Event (n : ℕ)
  /-- `scheduler` picks `p` -/
  | sched (c : Fin n) (p : Slot)
  | yield (c : Fin n)
  | sleep (c : Fin n) (chan : ℕ)
  | wakeup (chan : ℕ)
  | exit (c : Fin n)
  | threadExit (c : Fin n) (retval : BitVec 32)
  | wait (c : Fin n)
  | threadJoin (c : Fin n) (thread : ℕ)
  | kill (c : Fin n) (pid : ℕ)
  /-- `fork` up to the end of `allocproc` -/
  | fork (c : Fin n) (kstack : Bool)
  /-- `fork` up to its last critical section -/
  | forkCopy (c : Fin n) (copied : Bool)
  | forkReady (c : Fin n)
  /-- `thread_create` up to the end of `allocate` -/
  | threadCreate (c : Fin n) (kstack : Bool)
  /-- the critical section of `thread_create` that fills in the LWP -/
  | threadMap (c : Fin n) (pages copied : Bool)
  | threadReady (c : Fin n)
  /-- `exec`, or `exec2`, up to the check of the ELF header -/
  | execBegin (c : Fin n) (two : Bool)
  /-- `setupkvm` -/
  | execSetup (c : Fin n)
  /-- the next test or `recovery` in the `kill_thread` of `exec` -/
  | execKill (c : Fin n)
  /-- the program is in memory, up to `end_op` -/
  | execLoaded (c : Fin n)
  /-- commit to the user image -/
  | execCommit (c : Fin n) (sz : BitVec 32)
  /-- `bad`, and the return for a name that does not exist -/
  | execBad (c : Fin n)
  /-- `begin_op` in another system call -/
  | beginOp (c : Fin n)
  | endOp (c : Fin n)
  /-- `growproc` up to `release` -/
  | growproc (c : Fin n) (n : BitVec 32) (ok : Bool)
  /-- `growproc` stores the size -/
  | growStore (c : Fin n)
  /-- `setmemorylimit` up to its last test -/
  | setmemorylimit (c : Fin n) (pid : ℕ) (limit : BitVec 32)
  /-- `setmemorylimit` stores the limit -/
  | limitStore (c : Fin n)

/-- `ptable.lock` is free. -/
def State.Free (s : State n) : Prop := s.lock = none

instance (s : State n) : Decidable s.Free := by unfold State.Free; infer_instance

/-- The process that `c` runs, and what is on its kernel stack. -/
def State.current (s : State n) (c : Fin n) : Option (Slot × Frame) :=
  (s.cpu c).proc.map fun p => (p, s.frame (s.cpu c).stack)

/-- The process that `c` runs, when it can make a system call. -/
def State.user (s : State n) (c : Fin n) : Option Slot :=
  if s.frame (s.cpu c).stack = .idle then (s.cpu c).proc else none

def State.setFrame (s : State n) (c : Fin n) (f : Frame) : State n :=
  { s with frame := Function.update s.frame (s.cpu c).stack f }

def State.setCpu (s : State n) (c : Fin n) (x : Cpu) : State n :=
  { s with cpu := Function.update s.cpu c x }

/-- `sched`, back to `scheduler`, which releases the lock. -/
def State.leave (s : State n) (c : Fin n) : State n :=
  { s.setCpu c { s.cpu c with proc := none, cr3 := none } with lock := none }

/-- `switchuvm`. -/
def State.switchuvm (s : State n) (c : Fin n) (p : Slot) : Except Fault (State n) :=
  match (s.proc p).kstack, (s.proc p).pgdir with
  | some k, some d => .ok (s.setCpu c { s.cpu c with esp0 := some k, cr3 := some d })
  | _, _ => .error .switchuvm

/-- `freevm`. -/
def State.freevm (s : State n) (pgdir : Option Dir) : Except Fault (State n) :=
  match pgdir with
  | none => .error .freevm
  | some d => .ok { s with freed := Function.update s.freed d (s.freed d + 1) }

/-- The process goes on with the lock if it was asleep in `wait` or `thread_join`. -/
def Call.Locks : Call → Bool
  | .wait | .join _ => true
  | _ => false

/-- `switchuvm`, `RUNNING` and `swtch` to `p`. -/
def State.dispatch (s : State n) (c : Fin n) (p : Slot) : Except Fault (State n) :=
  match (s.proc p).kstack, (s.proc p).pgdir with
  | some k, some d =>
    .ok { s with
      proc := s.proc.upd p fun x => { x with state := .running, chan := none }
      cpu := Function.update s.cpu c ⟨some p, k, some k, some d⟩
      lock := if (s.frame k).call.Locks then some c else none }
  | _, _ => .error .switchuvm

/-- `wait` frees the slot `p` and returns. -/
def State.reap (s : State n) (c : Fin n) (p : Slot) : Except Fault (State n) :=
  if (s.proc p).kstack = none then .error .kfree
  else do
    let s ← s.freevm (s.proc p).pgdir
    .ok ({ s with proc := s.proc.upd p Proc.reaped, lock := none }.setFrame c .idle)

/-- `wait` and `thread_join` go to sleep. -/
def State.sleepOn (s : State n) (c : Fin n) (p : Slot) (call : Call) : State n :=
  ({ s with proc := s.proc.upd p fun x => { x with chan := some (.proc p), state := .sleeping } }.setFrame
    c ⟨call, false⟩).leave c

/-- A pass of the loop of `wait`, with the lock held. -/
def State.waitPass (s : State n) (c : Fin n) (p : Slot) : Except Fault (State n) :=
  match findZombie s.proc p with
  | some z => s.reap c z
  | none =>
    if havekids s.proc p = false ∨ (s.proc p).killed then .ok ({ s with lock := none }.setFrame c .idle)
    else .ok (s.sleepOn c p .wait)

/-- A pass of the loop of `thread_join`, with the lock held. -/
def State.joinPass (s : State n) (c : Fin n) (p : Slot) (thread : ℕ) : Except Fault (State n) :=
  match findJoin s.proc p thread with
  | some z =>
    if (s.proc z).parent ≠ some p then .ok ({ s with lock := none }.setFrame c .idle)
    else (recovery s.proc z).map fun t => { s with proc := t, lock := none }.setFrame c .idle
  | none =>
    if (s.proc p).killed then .ok ({ s with lock := none }.setFrame c .idle)
    else .ok (s.sleepOn c p (.join thread))

/-- The stack of a new process. -/
def Proc.embryo (x : Proc) (pid : ℕ) (kstack : Stack) : Proc :=
  { x with state := .embryo, pid := pid, kstack := some kstack }

/-- `allocproc`, called by `fork`. -/
def State.fork (s : State n) (c : Fin n) (kstack : Bool) : State n :=
  match findUnused s.proc with
  | none => s
  | some np =>
    if kstack then
      { s with
        proc := s.proc.upd np fun x => { x.embryo s.nextpid s.nextStack with memlim := 0 }
        nextpid := s.nextpid + 1
        nextStack := s.nextStack + 1
        frame := Function.update s.frame s.nextStack .idle }.setFrame c ⟨.fork np, false⟩
    else
      { s with
        proc := s.proc.upd np fun x => { x with pid := s.nextpid, memlim := 0, kstack := none }
        nextpid := s.nextpid + 1 }

/-- `copyuvm` and the fields of the child. -/
def State.forkCopy (s : State n) (c : Fin n) (p np : Slot) (copied : Bool) : Except Fault (State n) :=
  if copied then
    .ok ({ s with
      proc := s.proc.upd np fun x =>
        { x with pgdir := some s.nextDir, sz := (s.proc p).sz, parent := some p,
                 isThread := false, tid := 0, retval := 0 }
      nextDir := s.nextDir + 1 }.setFrame c ⟨.forked np, false⟩)
  else if (s.proc np).kstack = none then .error .kfree
  else
    .ok ({ s with proc := s.proc.upd np fun x =>
      { x with pgdir := none, kstack := none, state := .unused } }.setFrame c .idle)

/-- `allocate`, called by `thread_create`. -/
def State.threadCreate (s : State n) (c : Fin n) (p : Slot) (kstack : Bool) : State n :=
  match findUnused s.proc with
  | none => s
  | some thrd =>
    if kstack then
      { s with
        proc := s.proc.upd thrd fun x => x.embryo (s.proc p).pid s.nextStack
        nextStack := s.nextStack + 1
        frame := Function.update s.frame s.nextStack .idle }.setFrame c ⟨.create thrd, false⟩
    else
      { s with proc := s.proc.upd thrd fun x => { x with pid := (s.proc p).pid, kstack := none } }

/-- The process whose memory `p` uses: `p`, or its parent when it is an LWP. -/
def Table.main (t : Table) (p : Slot) : Option Slot := if (t p).isThread then (t p).parent else some p

def Table.resize (t : Table) (p : Slot) (sz : BitVec 32) : Table := t.upd p fun x => { x with sz := sz }

/-- The LWP gets the page directory of the main thread `m`. -/
def Table.share (t : Table) (m thrd : Slot) (sz : BitVec 32) : Table :=
  t.upd thrd fun x => { x with pgdir := (t m).pgdir, sz := sz }

/-- The LWP becomes a child of `m`, or of its parent should it be an LWP. -/
def Table.adopt (t : Table) (m thrd : Slot) (tid : ℕ) : Table :=
  t.upd thrd fun x =>
    { x with parent := if (t m).isThread then (t m).parent else some m, isThread := true, tid := tid }

/-- The critical section of `thread_create` for main thread `m`; `pages` says that
`allocuvm` finds the pages, `copied` that `copyout` does not fail. -/
def State.threadMap (s : State n) (c : Fin n) (m thrd : Slot) (pages copied : Bool) :
    Except Fault (State n) :=
  let sz := allocuvm (pgroundup (s.proc m).sz) (pgroundup (s.proc m).sz + 2 * PGSIZE) pages
  if (s.proc m).pgdir = none then .error .nullDeref
  else if sz = 0 then .ok ({ s with proc := s.proc.resize m sz }.setFrame c .idle)
  else if copied = false then
    .ok ({ s with proc := (s.proc.resize m sz).share m thrd sz }.setFrame c .idle)
  else
    .ok ({ s with
      proc := ((s.proc.resize m sz).share m thrd sz).adopt m thrd s.nexttid
      nexttid := s.nexttid + 1 }.setFrame c ⟨.created thrd, false⟩)

/-- `growproc` for main thread `m`, once the memory limit is checked. -/
def State.growproc (s : State n) (c : Fin n) (m : Slot) (k : BitVec 32) (ok : Bool) :
    Except Fault (State n) :=
  if (s.proc m).pgdir = none then .error .nullDeref
  else
    match newSize (s.proc m).sz k ok with
    -- the source returns with the lock held
    | none => .ok { s with lock := some c }
    | some sz => .ok (s.setFrame c ⟨.grow m sz, false⟩)

/-- `growproc` after `release`. -/
def State.growStore (s : State n) (c : Fin n) (m : Slot) (sz : BitVec 32) : Except Fault (State n) := do
  let s ← { s with proc := s.proc.resize m sz }.switchuvm c m
  .ok (s.setFrame c .idle)

/-- After `setupkvm`: `exec` calls `kill_thread`, and `exec2` does not. -/
def Call.setup (two : Bool) (pgdir : Dir) (lwp : Bool) : Call :=
  if two then .exec true (some pgdir) else .killThread pgdir (.loop lwp (List.finRange NPROC))

/-- The loop of `kill_thread` tests the slot. -/
def Table.Test (t : Table) (lwp : Bool) (p child : Slot) : Prop := if lwp then t.Sibling p child else t.Child p child

instance (t : Table) (lwp : Bool) (p child : Slot) : Decidable (t.Test lwp p child) := by
  unfold Table.Test; infer_instance

/-- The next test or `recovery` in `kill_thread`, called by `exec` of `p` without the lock. -/
def State.killStep (s : State n) (c : Fin n) (p : Slot) (pgdir : Dir) : Walk → Except Fault (State n)
  | .loop lwp (child :: rest) =>
    .ok (s.setFrame c ⟨.killThread pgdir (if s.proc.Test lwp p child then .hit lwp child rest
      else .loop lwp rest), true⟩)
  | .hit lwp child rest =>
    (recovery (s.proc.upd child fun x => { x with killed := true }) child).map fun t =>
      { s with proc := t }.setFrame c ⟨.killThread pgdir (.loop lwp rest), true⟩
  | .loop false [] => .ok (s.setFrame c ⟨.exec false (some pgdir), true⟩)
  | .loop true [] =>
    match (s.proc p).parent with
    | none => .error .nullDeref
    | some m =>
      .ok ({ s with proc := s.proc.upd m fun x => { x with killed := true } }.setFrame c
        ⟨.killThread pgdir .marked, true⟩)
  | .marked =>
    match (s.proc p).parent with
    | none => .error .nullDeref
    | some m =>
      .ok ({ s with proc := s.proc.upd p fun x => { x with isThread := false, parent := (s.proc m).parent } }.setFrame
        c ⟨.killThread pgdir .heir, true⟩)
  | .heir =>
    match (s.proc p).parent with
    | none => .error .nullDeref
    | some g => (recovery s.proc g).map fun t =>
      { s with proc := t }.setFrame c ⟨.exec false (some pgdir), true⟩

/-- Commit to the user image. -/
def State.execCommit (s : State n) (c : Fin n) (p : Slot) (pgdir : Dir) (sz : BitVec 32) :
    Except Fault (State n) := do
  let s' ← { s with proc := s.proc.upd p fun x => { x with pgdir := some pgdir, sz := sz } }.switchuvm c p
  let s' ← s'.freevm (s.proc p).pgdir
  .ok (s'.setFrame c .idle)

/-- `bad`: free what `setupkvm` made, and end the operation if `ip` is not released yet. -/
def State.execBad (s : State n) (c : Fin n) (pgdir : Option Dir) (inOp : Bool) : State n :=
  { s with
    freed := match pgdir with
      | none => s.freed
      | some d => Function.update s.freed d (s.freed d + 1)
    outstanding := if inOp then s.outstanding - 1 else s.outstanding }.setFrame c .idle

def step (s : State n) : Event n → Option (Except Fault (State n))
  | .sched c p =>
    if (s.cpu c).proc = none ∧ s.Free ∧ (s.proc p).state = .runnable then some (s.dispatch c p)
    else none
  | .yield c =>
    match (s.cpu c).proc with
    | some p =>
      if s.Free then
        some (.ok ({ s with proc := s.proc.upd p fun x => { x with state := .runnable } }.leave c))
      else none
    | none => none
  | .sleep c chan =>
    match (s.cpu c).proc with
    | some p =>
      if s.Free then
        some (.ok ({ s with proc := s.proc.upd p fun x =>
          { x with chan := some (.other chan), state := .sleeping } }.leave c))
      else none
    | none => none
  | .wakeup chan =>
    if s.Free then some (.ok { s with proc := wakeup1 s.proc (some (.other chan)) }) else none
  | .exit c =>
    match s.user c with
    | some p =>
      if s.Free then some ((exit s.proc p).map fun t => { s with proc := t }.leave c) else none
    | none => none
  | .threadExit c retval =>
    match s.user c with
    | some p =>
      if s.Free then some ((threadExit s.proc p retval).map fun t => { s with proc := t }.leave c)
      else none
    | none => none
  | .wait c =>
    match s.current c with
    | some (p, f) =>
      if f = .idle ∧ s.Free ∨ f = ⟨.wait, false⟩ ∧ s.lock = some c then some (s.waitPass c p) else none
    | none => none
  | .threadJoin c thread =>
    match s.current c with
    | some (p, f) =>
      if f = .idle ∧ s.Free ∨ f = ⟨.join thread, false⟩ ∧ s.lock = some c then
        some (s.joinPass c p thread)
      else none
    | none => none
  | .kill c pid =>
    if (s.user c).isSome ∧ s.Free then
      match kill s.proc pid with
      | none => some (.ok s)
      | some r => some (r.map fun t => { s with proc := t })
    else none
  | .fork c kstack => if (s.user c).isSome ∧ s.Free then some (.ok (s.fork c kstack)) else none
  | .forkCopy c copied =>
    match s.current c with
    | some (p, ⟨.fork np, false⟩) => some (s.forkCopy c p np copied)
    | _ => none
  | .forkReady c =>
    match s.current c with
    | some (_, ⟨.forked np, false⟩) =>
      if s.Free then
        some (.ok ({ s with proc := s.proc.upd np fun x => { x with state := .runnable } }.setFrame c
          .idle))
      else none
    | _ => none
  | .threadCreate c kstack =>
    match s.user c with
    | some p => if s.Free then some (.ok (s.threadCreate c p kstack)) else none
    | none => none
  | .threadMap c pages copied =>
    match s.current c with
    | some (p, ⟨.create thrd, false⟩) =>
      if s.Free then
        match s.proc.main p with
        | none => some (.error .nullDeref)
        | some m => some (s.threadMap c m thrd pages copied)
      else none
    | _ => none
  | .threadReady c =>
    match s.current c with
    | some (_, ⟨.created thrd, false⟩) =>
      if s.Free then
        some (.ok ({ s with proc := s.proc.upd thrd fun x => { x with state := .runnable } }.setFrame c
          .idle))
      else none
    | _ => none
  | .execBegin c two =>
    if (s.user c).isSome then
      some (.ok ({ s with outstanding := s.outstanding + 1 }.setFrame c ⟨.exec two none, true⟩))
    else none
  | .execSetup c =>
    match s.current c with
    | some (p, ⟨.exec two none, true⟩) =>
      some (.ok ({ s with nextDir := s.nextDir + 1 }.setFrame c
        ⟨.setup two s.nextDir (s.proc p).isThread, true⟩))
    | _ => none
  | .execKill c =>
    match s.current c with
    | some (p, ⟨.killThread pgdir w, true⟩) => some (s.killStep c p pgdir w)
    | _ => none
  | .execLoaded c =>
    match s.current c with
    | some (_, ⟨.exec two (some d), true⟩) =>
      some (.ok ({ s with outstanding := s.outstanding - 1 }.setFrame c ⟨.exec two (some d), false⟩))
    | _ => none
  | .execCommit c sz =>
    match s.current c with
    | some (p, ⟨.exec _ (some d), false⟩) => some (s.execCommit c p d sz)
    | _ => none
  | .execBad c =>
    match s.current c with
    | some (_, ⟨.exec _ pgdir, inOp⟩) => some (.ok (s.execBad c pgdir inOp))
    | _ => none
  | .beginOp c =>
    if (s.user c).isSome then
      some (.ok ({ s with outstanding := s.outstanding + 1 }.setFrame c ⟨.none, true⟩))
    else none
  | .endOp c =>
    match s.current c with
    | some (_, ⟨.none, true⟩) =>
      some (.ok ({ s with outstanding := s.outstanding - 1 }.setFrame c .idle))
    | _ => none
  | .growproc c k ok =>
    match s.user c with
    | some p =>
      if s.Free then
        -- the source returns with the lock held
        if (s.proc p).limited k then some (.ok { s with lock := some c })
        else
          match s.proc.main p with
          | none => some (.error .nullDeref)
          | some m => some (s.growproc c m k ok)
      else none
    | none => none
  | .growStore c =>
    match s.current c with
    | some (_, ⟨.grow m sz, false⟩) => some (s.growStore c m sz)
    | _ => none
  | .setmemorylimit c pid limit =>
    if (s.user c).isSome then
      if BitVec.slt limit 0 then some (.ok s)
      else
        match findPid s.proc pid with
        | none => some (.error .outOfBounds)
        | some p =>
          if limit < (s.proc p).sz then some (.ok s)
          else some (.ok (s.setFrame c ⟨.limit p limit, false⟩))
    else none
  | .limitStore c =>
    match s.current c with
    | some (_, ⟨.limit p limit, false⟩) =>
      some (.ok ({ s with proc := s.proc.upd p fun x => { x with memlim := limit } }.setFrame c .idle))
    | _ => none

/-- The kernel with `n` CPUs. -/
def machine (n : ℕ) : Machine (State n) (Event n) Fault := ⟨step⟩

/-- A slot that was never used. -/
def Proc.zero : Proc := ⟨0, none, none, .unused, 0, none, none, false, 0, false, 0, 0⟩

/-- After `userinit`: the first process has slot 0, pid 1, a page of memory, the first
stack and the first page directory. -/
def boot (n : ℕ) : State n where
  proc p := if p = initproc then
      { Proc.zero with state := .runnable, pid := 1, kstack := some 0, pgdir := some 0, sz := PGSIZE }
    else Proc.zero
  nextpid := 2
  nexttid := 1
  nextStack := 1
  nextDir := 1
  freed _ := 0
  frame _ := .idle
  outstanding := 0
  lock := none
  cpu _ := ⟨none, 0, none, none⟩

end Xv6.Lwp
