import Xv6.Mlfq.Model

/-!
# The locks of `project1` on several CPUs

What the kernel code does with `tickslock` and `ptable.lock`, operation by operation: each function is
the list of its lock operations and of what it does to `ticks`, under the name of the source. A CPU runs
the list of its scheduler or of a process, and the timer interrupt puts its own in front while interrupts
are on. Everything else that a process does between two critical sections is left to its choice, and so
is which process `scheduler` picks.

`acquire` takes two steps: the CPU turns its interrupts off and spins (`waiting`), and it takes the lock when
the lock is free.
-/

namespace Xv6.Smp

open Xv6.Mlfq (Slot NPROC)

inductive Lock
  | ptable
  | ticks
  deriving DecidableEq

inductive Op
  | acquire (l : Lock)
  | release (l : Lock)
  /-- `ticks++` -/
  | tick
  /-- `ticks = 0` -/
  | reset
  /-- `if (ticks==100) boostPr()` -/
  | test
  /-- the end of the loop of the scheduler lock: `boostPr` and out of the loop, or once more -/
  | lockTest
  /-- `while (isLocked==1)` -/
  | lockLoop
  | mlfq
  /-- `swtch` from `scheduler` to the process -/
  | dispatch (p : Slot)
  /-- `sched` -/
  | sched
  /-- the last `sched` of a process -/
  | stop
  /-- `fork` makes the process RUNNABLE -/
  | create (np : Slot)
  /-- the loop of `sys_sleep` -/
  | sleepLoop
  /-- the loop of `wait` -/
  | waitLoop
  /-- the end of an interrupt handler -/
  | iret
  deriving DecidableEq

/-! ## The functions -/

def wakeup : List Op := [.acquire .ptable, .release .ptable]

def boostPr : List Op := [.acquire .ticks, .reset, .release .ticks]

def scheduler : List Op := [.acquire .ptable, .lockLoop]

/-- The end of `scheduler`'s pass. -/
def endPass : List Op := .release .ptable :: scheduler

def yield : List Op := [.acquire .ptable, .sched, .release .ptable]

/-- `sleep(&ticks, &tickslock)` -/
def sleepTicks : List Op :=
  [.acquire .ptable, .release .ticks, .sched, .release .ptable, .acquire .ticks]

/-- `sleep` with any other lock, which is left out. -/
def sleep : List Op := [.acquire .ptable, .sched, .release .ptable]

def exit : List Op := [.acquire .ptable, .stop]

def forkret : List Op := [.release .ptable]

/-- The part of the timer interrupt that CPU 0 executes. -/
def timer : List Op := [.acquire .ticks, .tick] ++ wakeup ++ [.release .ticks]

/-- What a process in user space can call. -/
inductive Call
  | schedulerLock
  | sys_sleep
  | sys_uptime
  /-- anything that takes `ptable.lock` and releases it: `kill`, `wakeup`, `allocproc` -/
  | wakeup
  | sleep
  | fork (np : Slot)
  | wait
  | exit

def Call.ops : Call → List Op
  | .schedulerLock => [.acquire .ticks, .reset] ++ Smp.wakeup ++ [.release .ticks]
  | .sys_sleep => [.acquire .ticks, .sleepLoop]
  | .sys_uptime => [.acquire .ticks, .release .ticks]
  | .wakeup => Smp.wakeup
  | .sleep => Smp.sleep
  | .fork np => [.acquire .ptable, .create np, .release .ptable]
  | .wait => [.acquire .ptable, .waitLoop]
  | .exit => Smp.exit

/-- How the code goes on where the rest of the state decides. -/
inductive Choice
  /-- the owner of the scheduler lock runs -/
  | owner (p : Slot)
  /-- it runs, and comes back with `isUnlocked` -/
  | unlocked (p : Slot)
  /-- the scheduler lock is free, or its owner is not RUNNABLE -/
  | leave
  /-- a time slice of L0, L1 or L2 -/
  | slice (p : Slot)
  /-- no process is picked -/
  | none
  /-- the front of L0 or L1 is taken off -/
  | drop
  /-- once more around the loop of `sys_sleep` or `wait` -/
  | sleep
  | done

def Op.next : Op → Choice → Option (List Op)
  | .lockLoop, .owner p => some [.dispatch p, .lockTest]
  | .lockLoop, .unlocked p => some [.dispatch p, .mlfq]
  | .lockLoop, .leave => some [.mlfq]
  | .mlfq, .slice p => some ([.dispatch p, .test] ++ endPass)
  | .mlfq, .none => some (.test :: endPass)
  | .mlfq, .drop => some endPass
  | .sleepLoop, .sleep => some (sleepTicks ++ [.sleepLoop])
  | .sleepLoop, .done => some [.release .ticks]
  | .waitLoop, .sleep => some [.sched, .waitLoop]
  | .waitLoop, .done => some [.release .ptable]
  | _, _ => none

/-! ## The machine -/

inductive Fault
  /-- panic("acquire") -/
  | acquire
  /-- panic("release") -/
  | release
  /-- panic("sched ptable.lock") or panic("sched locks") -/
  | sched
  deriving DecidableEq

structure State (n : ℕ) where
  ticks : ℕ
  owner : Lock → Option (Fin n)
  /-- the process that runs; none while the CPU is in `scheduler` -/
  cur : Fin n → Option Slot
  todo : Fin n → List Op
  /-- spinning in `acquire` -/
  waiting : Fin n → Bool
  /-- the context of `scheduler` -/
  context : Fin n → List Op
  /-- the context of a process that is off the CPU -/
  saved : Slot → Option (List Op)

inductive Event (n : ℕ)
  | step (c : Fin n)
  | choose (c : Fin n) (x : Choice)
  /-- the timer interrupt; `dead`: the process it interrupts is killed, and was in user space -/
  | timer (c : Fin n) (dead : Bool)
  /-- another interrupt, that calls `wakeup` -/
  | irq (c : Fin n)
  | call (c : Fin n) (x : Call)

variable {n : ℕ}

def State.setTodo (s : State n) (c : Fin n) (ops : List Op) : State n :=
  { s with todo := Function.update s.todo c ops }

/-- Interrupts are on: the CPU is not in `acquire`, holds no lock and is in no handler. -/
def State.sti (s : State n) (c : Fin n) : Prop :=
  s.waiting c = false ∧ (∀ l, s.owner l ≠ some c) ∧ Op.iret ∉ s.todo c

/-- The CPU holds `ptable.lock` and no other lock. -/
def State.only (s : State n) (c : Fin n) : Prop := s.owner .ptable = some c ∧ s.owner .ticks ≠ some c

instance : Fintype Lock := ⟨{.ptable, .ticks}, fun l => by cases l <;> decide⟩

instance (s : State n) (c : Fin n) : Decidable (s.sti c) := by unfold State.sti; infer_instance

instance (s : State n) (c : Fin n) : Decidable (s.only c) := by unfold State.only; infer_instance

/-- The next operation of a CPU. -/
def State.exec (s : State n) (c : Fin n) : Option (Except Fault (State n)) :=
  match s.todo c with
  | .acquire l :: ops =>
    if s.waiting c then
      if s.owner l = none then
        some (.ok ({ s with
          owner := Function.update s.owner l (some c)
          waiting := Function.update s.waiting c false }.setTodo c ops))
      else none
    else if s.owner l = some c then some (.error .acquire)
    else some (.ok { s with waiting := Function.update s.waiting c true })
  | .release l :: ops =>
    if s.owner l = some c then
      some (.ok ({ s with owner := Function.update s.owner l none }.setTodo c ops))
    else some (.error .release)
  | .tick :: ops => some (.ok ({ s with ticks := s.ticks + 1 }.setTodo c ops))
  | .reset :: ops => some (.ok ({ s with ticks := 0 }.setTodo c ops))
  | .test :: ops => some (.ok (s.setTodo c (if s.ticks = 100 then boostPr ++ ops else ops)))
  | .lockTest :: _ =>
    some (.ok (s.setTodo c (if s.ticks = 100 then boostPr ++ [.mlfq] else [.lockLoop])))
  | .dispatch p :: ops =>
    match s.saved p with
    | some k => some (.ok ({ s with
        cur := Function.update s.cur c (some p)
        context := Function.update s.context c ops
        saved := Function.update s.saved p none }.setTodo c k))
    | none => none
  | .sched :: ops =>
    match s.cur c with
    | some p =>
      if s.only c then
        some (.ok ({ s with
          cur := Function.update s.cur c none
          saved := Function.update s.saved p (some ops) }.setTodo c (s.context c)))
      else some (.error .sched)
    | none => none
  | .stop :: _ =>
    match s.cur c with
    | some _ =>
      if s.only c then
        some (.ok ({ s with cur := Function.update s.cur c none }.setTodo c (s.context c)))
      else some (.error .sched)
    | none => none
  | .create np :: ops =>
    if s.saved np = none ∧ ∀ c', s.cur c' ≠ some np then
      some (.ok ({ s with saved := Function.update s.saved np (some forkret) }.setTodo c ops))
    else none
  | .iret :: ops => some (.ok (s.setTodo c ops))
  | _ => none

/-- The handler of the timer interrupt, in `trap`. -/
def State.handler (s : State n) (c : Fin n) (dead : Bool) : List Op :=
  (if (c : ℕ) = 0 then timer else []) ++
    match s.cur c with
    | some _ => if dead then exit else yield ++ [.iret]
    | none => [.iret]

def step (s : State n) : Event n → Option (Except Fault (State n))
  | .step c => s.exec c
  | .choose c x =>
    match s.todo c with
    | op :: ops => (op.next x).map fun new => .ok (s.setTodo c (new ++ ops))
    | [] => none
  | .timer c dead =>
    if s.sti c ∧ (dead → s.todo c = []) then some (.ok (s.setTodo c (s.handler c dead ++ s.todo c))) else none
  | .irq c => if s.sti c then some (.ok (s.setTodo c (wakeup ++ .iret :: s.todo c))) else none
  | .call c x =>
    if (s.cur c).isSome ∧ s.todo c = [] then some (.ok (s.setTodo c x.ops)) else none

def machine (n : ℕ) : Machine (State n) (Event n) Fault := ⟨step⟩

/-- Every CPU is about to schedule for the first time, and there is one process. -/
def boot (n : ℕ) : State n where
  ticks := 0
  owner _ := none
  cur _ := none
  todo _ := scheduler
  waiting _ := false
  context _ := []
  saved p := if p = 0 then some forkret else none

end Xv6.Smp
