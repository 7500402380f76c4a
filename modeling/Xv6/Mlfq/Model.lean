import Xv6.Lib.Machine

/-!
# The multilevel feedback queue of `project1`

`proc.c`, `queue.c` and `syscalluser.c`: the process table, the three queues that
share the `next` field of `struct proc`, the scheduler lock, and the CPUs that run
`scheduler`.

What one CPU does while it holds `ptable.lock` in the kernel is one event, with two
exceptions. The loop of `scheduler` goes one step at a time, from one dispatch,
test or list node to the next; and a process that `wait` put to sleep goes on inside
`wait` with the lock held. Kernel code that runs without the lock is cut where it can
be interrupted: `fork` between `allocproc` and the last critical section, and
`schedulerLock` and `schedulerUnlock` between their assignments.

The fields of `struct proc` that no queue or scheduler code reads (memory, files,
trap frame, name) are left out. `kalloc` and `copyuvm` appear as the choice between
`cont` and `forkFail`.
-/

namespace Xv6.Mlfq

abbrev NPROC : ℕ := 64

/-- A slot of `ptable.proc`; a pointer to one is an `Option Slot`. -/
abbrev Slot := Fin NPROC

inductive ProcState
  | unused | embryo | sleeping | runnable | running | zombie
  deriving DecidableEq

/-- What a process sleeps on: `&ticks`, a process in `wait`, or anything else. -/
inductive Chan
  | ticks
  | proc (p : Slot)
  | other (n : ℕ)
  deriving DecidableEq

structure Proc where
  state : ProcState
  pid : ℕ
  parent : Option Slot
  chan : Option Chan
  killed : Bool
  /-- priority in L2 -/
  pr : ℕ
  /-- local tick -/
  lt : ℕ
  /-- queue level -/
  ql : ℕ
  next : Option Slot

structure Queue where
  front : Option Slot
  rear : Option Slot
  count : ℕ
  level : ℕ
  /-- time quantum -/
  tq : ℕ

/-- `queueLzero`, `queueLone`, `queueLtwo`. -/
inductive Lv
  | zero | one | two
  deriving DecidableEq

def Lv.level : Lv → ℕ
  | .zero => 0
  | .one => 1
  | .two => 2

inductive Fault
  /-- panic("pop error") -/
  | popError
  /-- panic("init exiting") -/
  | initExiting
  /-- panic("setPriority error") -/
  | setPriorityError
  | nullDeref
  /-- a list walk that never ends -/
  | hang
  deriving DecidableEq

structure Kernel where
  proc : Slot → Proc
  queue : Lv → Queue
  ticks : ℕ
  isLocked : Bool
  isUnlocked : Bool
  me : Option Slot
  nextpid : ℕ
  initproc : Option Slot

def Kernel.upd (k : Kernel) (p : Slot) (f : Proc → Proc) : Kernel :=
  { k with proc := Function.update k.proc p (f (k.proc p)) }

def Kernel.setNext (k : Kernel) (p : Slot) (n : Option Slot) : Kernel :=
  k.upd p fun x => { x with next := n }

def Kernel.setQueue (k : Kernel) (q : Lv) (v : Queue) : Kernel :=
  { k with queue := Function.update k.queue q v }

/-! ## queue.c -/

def initQueue (level : ℕ) : Queue := ⟨none, none, 0, level, level * 2 + 4⟩

/-- The loop of `isThere`. More than `NPROC` nodes are a cycle. -/
def isThereLoop (k : Kernel) (p : Slot) : ℕ → Option Slot → Except Fault Bool
  | _, none => .ok false
  | 0, some _ => .error .hang
  | fuel + 1, some q => if q = p then .ok true else isThereLoop k p fuel (k.proc q).next

def isThere (k : Kernel) (que : Lv) (p : Slot) : Except Fault Bool :=
  isThereLoop k p NPROC (k.queue que).front

def push (k : Kernel) (que : Lv) (newRear : Slot) : Except Fault Kernel :=
  let q := k.queue que
  if q.count = 0 then
    .ok ((k.setNext newRear none).setQueue que
      { q with front := some newRear, rear := some newRear, count := q.count + 1 })
  else
    match q.rear with
    | none => .error .nullDeref
    | some oldRear =>
      .ok (((k.setNext oldRear (some newRear)).setNext newRear none).setQueue que
        { q with rear := some newRear, count := q.count + 1 })

/-- The loop of `del`, at node `q`. -/
def delLoop (k : Kernel) (que : Lv) (p : Slot) : ℕ → Option Slot → Except Fault Kernel
  | _, none => .ok k
  | 0, some _ => .error .hang
  | fuel + 1, some q =>
    let v := k.queue que
    if v.front = some q ∧ q = p then
      .ok (k.setQueue que { v with front := (k.proc q).next, count := v.count - 1 })
    else if (k.proc q).next = v.rear ∧ v.rear = some p then
      .ok ((k.setNext q none).setQueue que { v with rear := some q, count := v.count - 1 })
    else if (k.proc q).next = some p then
      .ok ((k.setNext q (k.proc p).next).setQueue que { v with count := v.count - 1 })
    else delLoop k que p fuel (k.proc q).next

def del (k : Kernel) (que : Lv) (p : Slot) : Except Fault Kernel :=
  if (k.queue que).count = 0 then .error .popError
  else delLoop k que p NPROC (k.queue que).front

/-! ## proc.c -/

def pushLzero (k : Kernel) (p : Slot) : Except Fault Kernel :=
  push (k.upd p fun x => { x with lt := 0, ql := 0, pr := 3, next := none }) .zero p

/-- A loop of `boostPr`, at node `p`. -/
def boostLoop (que : Lv) : ℕ → Kernel → Option Slot → Except Fault Kernel
  | _, k, none => .ok k
  | 0, _, some _ => .error .hang
  | fuel + 1, k, some p => do
    let k ← del k que p
    let k ← pushLzero k p
    boostLoop que fuel k (k.proc p).next

def boostPr (k : Kernel) : Except Fault Kernel := do
  let k ← boostLoop .one NPROC k (k.queue .one).front
  let k ← boostLoop .two NPROC k (k.queue .two).front
  .ok { k with ticks := 0 }

/-- The body of the loop of `wakeup1`. -/
def wakeSlot (chan : Option Chan) (k : Kernel) (p : Slot) : Except Fault Kernel :=
  if (k.proc p).state = .sleeping ∧ (k.proc p).chan = chan then do
    let k := k.upd p fun x => { x with state := .runnable }
    if ← isThere k .zero p then
      let k ← del k .zero p
      push k .zero p
    else if ← isThere k .one p then
      let k ← del k .one p
      push k .one p
    else if ← isThere k .two p then
      -- the source takes it out of L1 here
      let k ← del k .one p
      push k .two p
    else pushLzero k p
  else .ok k

def wakeup1 (k : Kernel) (chan : Option Chan) : Except Fault Kernel :=
  (List.finRange NPROC).foldlM (wakeSlot chan) k

/-- `allocproc`, up to the release of `ptable.lock`. -/
def allocproc (k : Kernel) : Option (Slot × Kernel) :=
  match (List.finRange NPROC).find? fun p => (k.proc p).state = .unused with
  | none => none
  | some p => some (p, { (k.upd p fun x => { x with state := .embryo, pid := k.nextpid }) with
      nextpid := k.nextpid + 1 })

/-- The last critical section of `fork`. -/
def forkReady (k : Kernel) (curproc np : Slot) : Except Fault Kernel :=
  pushLzero (k.upd np fun x => { x with parent := some curproc, state := .runnable }) np

/-- Pass one abandoned child to init. -/
def reparent (curproc : Slot) (k : Kernel) (p : Slot) : Except Fault Kernel :=
  if (k.proc p).parent = some curproc then
    let k := k.upd p fun x => { x with parent := k.initproc }
    if (k.proc p).state = .zombie then wakeup1 k (k.initproc.map .proc) else .ok k
  else .ok k

/-- `exit`, from `acquire(&ptable.lock)` to `sched`. -/
def exit (k : Kernel) (curproc : Slot) : Except Fault Kernel :=
  if k.initproc = some curproc then .error .initExiting
  else do
    let k ← wakeup1 k ((k.proc curproc).parent.map .proc)
    let k ← (List.finRange NPROC).foldlM (reparent curproc) k
    .ok (k.upd curproc fun x => { x with state := .zombie })

/-- The exited child that `wait` finds first. -/
def findZombie (k : Kernel) (curproc : Slot) : Option Slot :=
  (List.finRange NPROC).find? fun p =>
    (k.proc p).parent = some curproc ∧ (k.proc p).state = .zombie

def havekids (k : Kernel) (curproc : Slot) : Bool :=
  (List.finRange NPROC).any fun p => (k.proc p).parent = some curproc

/-- `wait` frees the slot of `p`. -/
def reap (k : Kernel) (p : Slot) : Kernel :=
  k.upd p fun x => { x with pid := 0, parent := none, killed := false, state := .unused }

def goToSleep (k : Kernel) (p : Slot) (chan : Chan) : Kernel :=
  k.upd p fun x => { x with chan := some chan, state := .sleeping }

def findPid (k : Kernel) (pid : ℕ) : Option Slot :=
  (List.finRange NPROC).find? fun p => (k.proc p).pid = pid

def kill (k : Kernel) (pid : ℕ) : Kernel :=
  match findPid k pid with
  | none => k
  | some p => k.upd p fun x =>
      { x with killed := true, state := if x.state = .sleeping then .runnable else x.state }

def setPriority (k : Kernel) (pid : ℕ) (priority : ℤ) : Except Fault Kernel :=
  if priority > 3 ∨ priority < 0 then .error .setPriorityError
  else
    match findPid k pid with
    | none => .ok k
    | some p => .ok (k.upd p fun x => { x with pr := priority.toNat })

/-! ## The scheduler -/

/-- The end of a time slice in L0 and L1: `p` moves down a level when its quantum is used. -/
def demote (k : Kernel) (que down : Lv) (p : Slot) : Except Fault Kernel :=
  let k := k.upd p fun x => { x with lt := x.lt + 1 }
  if (k.queue que).tq = (k.proc p).lt then do
    let k ← del k que p
    let k := k.upd p fun x => { x with lt := 0 }
    let k ← push k down p
    .ok (k.upd p fun x => { x with ql := x.ql + 1 })
  else .ok k

/-- The end of a time slice in L2. -/
def promote (k : Kernel) (p : Slot) : Kernel :=
  let k := k.upd p fun x => { x with lt := x.lt + 1 }
  if (k.queue .two).tq = (k.proc p).lt then
    k.upd p fun x => { x with lt := 0, pr := x.pr - 1 }
  else k

/-- `q` goes before the front of L0, and counts if it was not there. -/
def linkFront (k : Kernel) (q : Slot) (there : Bool) : Kernel :=
  let v := k.queue .zero
  (k.setQueue .zero
    { v with front := some q, count := if there then v.count else v.count + 1 }).setNext q v.front

/-- Back to MLFQ from the scheduler lock of `q`. -/
def releaseLock (k : Kernel) (q : Slot) : Except Fault Kernel := do
  let there ← isThere k .zero q
  let k := linkFront k q there
  if k.isUnlocked then
    .ok { (k.upd q fun x => { x with pr := 3, lt := 0 }) with isUnlocked := false }
  else
    boostPr { (k.upd q fun x => { x with lt := 0 }) with isLocked := false, isUnlocked := false }

/-- The part of `scheduler` that dispatched the running process. -/
inductive Kont
  | lock | l0 | l1 | l2
  deriving DecidableEq

/-- Where a CPU is. -/
inductive Pc
  /-- at the head of the loop of `scheduler`, without the lock -/
  | top
  /-- at the head of `while (isLocked==1)` -/
  | lockTest (q : Slot)
  | mlfq
  /-- in the loop over L2, at node `p` -/
  | l2 (min : ℕ) (p : Option Slot)
  /-- at the last `if (ticks==100) boostPr()` -/
  | boost
  /-- the process runs, without the lock -/
  | run (p : Slot) (k : Kont)
  /-- the process runs and holds the lock -/
  | held (p : Slot) (k : Kont)
  /-- back from the `swtch` to the process -/
  | ret (p : Slot) (k : Kont)
  deriving DecidableEq

/-- The CPU holds `ptable.lock`. -/
def Pc.Holds : Pc → Bool
  | .top | .run _ _ => false
  | _ => true

/-- `c->proc`. -/
def Pc.proc : Pc → Option Slot
  | .run p _ | .held p _ | .ret p _ => some p
  | _ => none

/-- The kernel code that a process is in the middle of. -/
inductive Call
  | none
  /-- in `fork`, with `np` allocated -/
  | fork (np : Slot)
  /-- asleep in `wait` -/
  | wait
  | lockSet | lockTicks | lockFail | lockKill
  | unlockSet | unlockClear | unlockFail
  deriving DecidableEq

variable {n : ℕ}

/-- The kernel and `n` CPUs. -/
structure State (n : ℕ) where
  kernel : Kernel
  call : Slot → Call
  pc : Fin n → Pc

inductive Event (n : ℕ)
  /-- one step of `scheduler` -/
  | sched (c : Fin n)
  /-- the timer interrupt, up to its `wakeup` -/
  | tick
  /-- any `wakeup`, by the running process or in an interrupt -/
  | wakeup (chan : Chan)
  | yield (c : Fin n)
  | sleep (c : Fin n) (chan : Chan)
  | exit (c : Fin n)
  | wait (c : Fin n)
  | kill (c : Fin n) (pid : ℕ)
  | setPriority (c : Fin n) (pid : ℕ) (priority : ℤ)
  | fork (c : Fin n)
  | forkFail (c : Fin n)
  | schedulerLock (c : Fin n) (ok : Bool)
  | schedulerUnlock (c : Fin n) (ok : Bool)
  /-- the running process goes on in `fork`, `schedulerLock` or `schedulerUnlock` -/
  | cont (c : Fin n)

/-- `ptable.lock` is free. -/
def State.Free (s : State n) : Prop := ∀ c, (s.pc c).Holds = false

instance (s : State n) : Decidable s.Free := by unfold State.Free; infer_instance

def State.goto (s : State n) (c : Fin n) (pc : Pc) : State n :=
  { s with pc := Function.update s.pc c pc }

def State.setCall (s : State n) (p : Slot) (x : Call) : State n :=
  { s with call := Function.update s.call p x }

/-- `swtch` to `p`. A process that comes back from `sleep` clears its `chan`; one that
`wait` put to sleep still holds the lock. -/
def State.dispatch (s : State n) (c : Fin n) (p : Slot) (k : Kont) : State n :=
  { s with kernel := s.kernel.upd p fun x => { x with state := .running, chan := none } }.goto c
    (if s.call p = Call.wait then .held p k else .run p k)

/-- The kernel after a critical section, and where the CPU goes. -/
def State.after (s : State n) (c : Fin n) (r : Except Fault Kernel) (pc : Pc) :
    Option (Except Fault (State n)) :=
  some (r.map fun k => { s with kernel := k }.goto c pc)

/-- A critical section after which no CPU is elsewhere. -/
def State.within (s : State n) (r : Except Fault Kernel) : Option (Except Fault (State n)) :=
  some (r.map fun k => { s with kernel := k })

/-- `p->state != RUNNABLE && p->state != RUNNING`. -/
def Proc.idle (x : Proc) : Prop := x.state ≠ .runnable ∧ x.state ≠ .running

instance (x : Proc) : Decidable x.idle := by unfold Proc.idle; infer_instance

/-- The branch of `scheduler` for L0 and for L1. -/
def State.front (s : State n) (c : Fin n) (que : Lv) (k : Kont) : Option (Except Fault (State n)) :=
  match (s.kernel.queue que).front with
  | none => some (.error .nullDeref)
  | some p =>
    if (s.kernel.proc p).idle then s.after c (del s.kernel que p) .top
    else if (s.kernel.queue que).tq > (s.kernel.proc p).lt then some (.ok (s.dispatch c p k))
    else some (.ok (s.goto c .boost))

/-- One step of `scheduler`. -/
def State.sched (s : State n) (c : Fin n) : Option (Except Fault (State n)) :=
  match s.pc c with
  | .top =>
    if s.Free then
      if s.kernel.isLocked then
        match s.kernel.me with
        | none => some (.error .nullDeref)
        | some q => some (.ok (s.goto c (.lockTest q)))
      else some (.ok (s.goto c .mlfq))
    else none
  | .lockTest q =>
    if s.kernel.isLocked then
      if (s.kernel.proc q).state ≠ .runnable then
        s.after c (.ok { s.kernel with isLocked := false, me := none }) .mlfq
      else some (.ok (s.dispatch c q .lock))
    else some (.ok (s.goto c .mlfq))
  | .mlfq =>
    if (s.kernel.queue .zero).count ≠ 0 then s.front c .zero .l0
    else if (s.kernel.queue .one).count ≠ 0 then s.front c .one .l1
    else if (s.kernel.queue .two).count ≠ 0 then
      some (.ok (s.goto c (.l2 0 (s.kernel.queue .two).front)))
    else some (.ok (s.goto c .boost))
  | .l2 min none =>
    if min < 3 then some (.ok (s.goto c (.l2 (min + 1) (s.kernel.queue .two).front)))
    else some (.ok (s.goto c .boost))
  | .l2 min (some p) =>
    if (s.kernel.proc p).idle then
      some ((del s.kernel .two p).map fun k => { s with kernel := k }.goto c (.l2 min (k.proc p).next))
    else if (s.kernel.proc p).pr = min ∧ (s.kernel.queue .two).tq > (s.kernel.proc p).lt then
      some (.ok (s.dispatch c p .l2))
    else some (.ok (s.goto c (.l2 min (s.kernel.proc p).next)))
  | .boost => s.after c (if s.kernel.ticks = 100 then boostPr s.kernel else .ok s.kernel) .top
  | .ret p .lock =>
    let k := s.kernel.upd p fun x => { x with lt := x.lt + 1 }
    if k.ticks = 100 ∨ k.isUnlocked then s.after c (releaseLock k p) .mlfq
    else s.after c (.ok k) (.lockTest p)
  | .ret p .l0 => s.after c (demote s.kernel .zero .one p) .boost
  | .ret p .l1 => s.after c (demote s.kernel .one .two p) .boost
  | .ret p .l2 => s.after c (.ok (promote s.kernel p)) .boost
  | .run _ _ | .held _ _ => none

/-- The process that runs on `c`, outside any kernel code that it is in the middle of. -/
def State.user (s : State n) (c : Fin n) : Option (Slot × Kont) :=
  match s.pc c with
  | .run p k => if s.call p = .none then some (p, k) else none
  | _ => none

/-- The next step of `fork`, `schedulerLock` or `schedulerUnlock` of process `p`. -/
def State.cont (s : State n) (p : Slot) : Option (Except Fault (State n)) :=
  let k := s.kernel
  let step (r : Except Fault Kernel) (x : Call) : Option (Except Fault (State n)) :=
    some (r.map fun k => { s with kernel := k }.setCall p x)
  match s.call p with
  | .fork np => if s.Free then step (forkReady k p np) .none else none
  | .lockSet => step (.ok { k with isLocked := true }) .lockTicks
  | .lockTicks =>
    if s.Free then step (wakeup1 { k with ticks := 0 } (some .ticks)) .none else none
  | .lockFail => step (.ok { k with isLocked := false }) .lockKill
  | .lockKill =>
    if s.Free then
      match k.me with
      | none => some (.error .nullDeref)
      | some m => step (.ok (kill k (k.proc m).pid)) .none
    else none
  | .unlockSet => step (.ok { k with isUnlocked := true }) .unlockClear
  | .unlockClear => step (.ok { k with isLocked := false }) .none
  | .unlockFail =>
    if s.Free then
      match k.me with
      | none => some (.error .nullDeref)
      | some m => step (.ok (kill k (k.proc m).pid)) .none
    else none
  | .none | .wait => none

/-- A pass of the loop of `wait`, with the lock held, by process `p` dispatched by `k`. -/
def State.waitPass (s : State n) (c : Fin n) (p : Slot) (k : Kont) : State n :=
  match findZombie s.kernel p with
  | some z => ({ s with kernel := reap s.kernel z }.setCall p .none).goto c (.run p k)
  | none =>
    if havekids s.kernel p = false ∨ (s.kernel.proc p).killed then
      (s.setCall p .none).goto c (.run p k)
    else
      ({ s with kernel := goToSleep s.kernel p (.proc p) }.setCall p .wait).goto c (.ret p k)

def step (s : State n) : Event n → Option (Except Fault (State n))
  | .sched c => s.sched c
  | .tick => some (.ok { s with kernel := { s.kernel with ticks := (s.kernel.ticks + 1) % 2 ^ 32 } })
  | .wakeup chan => if s.Free then s.within (wakeup1 s.kernel (some chan)) else none
  | .yield c =>
    match s.pc c with
    | .run p k =>
      if s.Free then
        s.after c (.ok (s.kernel.upd p fun x => { x with state := .runnable })) (.ret p k)
      else none
    | _ => none
  | .sleep c chan =>
    match s.user c with
    | some (p, k) => if s.Free then s.after c (.ok (goToSleep s.kernel p chan)) (.ret p k) else none
    | none => none
  | .exit c =>
    match s.user c with
    | some (p, k) => if s.Free then s.after c (exit s.kernel p) (.ret p k) else none
    | none => none
  | .wait c =>
    match s.pc c with
    | .run p k => if s.Free ∧ s.call p = .none then some (.ok (s.waitPass c p k)) else none
    | .held p k => some (.ok (s.waitPass c p k))
    | _ => none
  | .kill c pid =>
    if (s.user c).isSome ∧ s.Free then s.within (.ok (kill s.kernel pid)) else none
  | .setPriority c pid priority =>
    if (s.user c).isSome then s.within (setPriority s.kernel pid priority) else none
  | .fork c =>
    match s.user c with
    | some (p, _) =>
      if s.Free then
        match allocproc s.kernel with
        | some (np, k) => some (.ok ({ s with kernel := k }.setCall p (.fork np)))
        | none => some (.ok s)
      else none
    | none => none
  | .forkFail c =>
    match s.pc c with
    | .run p _ =>
      match s.call p with
      | .fork np => some (.ok ({ s with kernel := s.kernel.upd np fun x =>
          { x with state := .unused } }.setCall p .none))
      | _ => none
    | _ => none
  | .schedulerLock c ok =>
    match s.user c with
    | some (p, _) => some (.ok ({ s with kernel := { s.kernel with me := some p } }.setCall p
        (if ok then .lockSet else .lockFail)))
    | none => none
  | .schedulerUnlock c ok =>
    match s.user c with
    | some (p, _) => some (.ok ({ s with kernel := { s.kernel with me := some p } }.setCall p
        (if ok then .unlockSet else .unlockFail)))
    | none => none
  | .cont c =>
    match s.pc c with
    | .run p _ => s.cont p
    | _ => none

/-- The kernel with `n` CPUs. -/
def machine (n : ℕ) : Machine (State n) (Event n) Fault := ⟨step⟩

/-- The process table before `userinit`. -/
def Kernel.zero : Kernel where
  proc _ := ⟨.unused, 0, none, none, false, 0, 0, 0, none⟩
  queue q := initQueue q.level
  ticks := 0
  isLocked := false
  isUnlocked := false
  me := none
  nextpid := 1
  initproc := none

/-- `userinit`, whose `allocproc` takes the first slot. -/
def userinit (k : Kernel) : Except Fault Kernel :=
  match allocproc k with
  | none => .error .nullDeref
  | some (p, k) => pushLzero { (k.upd p fun x => { x with state := .runnable }) with initproc := some p } p

/-- Every CPU is about to schedule for the first time. -/
def boot (n : ℕ) (k : Kernel) : State n := ⟨k, fun _ => .none, fun _ => .top⟩

/-- A run from `userinit`, with the kernel it starts from. -/
def bootRun (es : List (Event n)) : Option (Kernel × State n) :=
  match userinit Kernel.zero with
  | .error _ => none
  | .ok k =>
    match (machine n).run (boot n k) es with
    | some (.ok s) => some (k, s)
    | _ => none

theorem bootRun_any (es : List (Event n)) (P : Kernel × State n → Bool)
    (h : (bootRun es).any P = true) : ∃ k s, userinit Kernel.zero = .ok k ∧
      (machine n).run (boot n k) es = some (.ok s) ∧ P (k, s) = true := by
  unfold bootRun at h
  split at h
  · cases h
  · rename_i k hk
    split at h
    · rename_i s hs; exact ⟨k, s, hk, hs, h⟩
    · cases h

end Xv6.Mlfq
