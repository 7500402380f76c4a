import Xv6.Lib.Bytes
import Xv6.Lib.Monitor
import Xv6.Lib.Ring

/-!
# Pipes

`pipe.c`: `piperead`, `pipewrite` and `pipeclose` as code of a monitor, for any number of processes that read, write
and close the two ends of one pipe in any interleaving. A place of the code is named by what is done next.

The descriptors of each end are counted with the processes that hold them: a process hands a descriptor on when it
forks or duplicates it, and the last `fileclose` of an end calls `pipeclose`. A process in a call of the pipe does
nothing else with its descriptors.

The history variables `wrote` and `got` list the bytes put into the buffer and taken out, with the process that did
it, and `writes` and `reads` the finished calls.
-/

namespace Xv6.Pipes

abbrev PIPESIZE : ℕ := 512

structure Pipe where
  data : Fin PIPESIZE → Byte
  /-- number of bytes read -/
  nread : BitVec 32
  /-- number of bytes written -/
  nwrite : BitVec 32
  /-- read fd is still open -/
  readopen : Bool
  /-- write fd is still open -/
  writeopen : Bool

/-- What `pipealloc` makes of a page. -/
def pipealloc (page : Fin PIPESIZE → Byte) : Pipe := ⟨page, 0, 0, true, true⟩

/-- The two ends: `writable` of `pipeclose`. -/
inductive Side
  | read
  | write
  deriving DecidableEq

def Side.other : Side → Side
  | .read => .write
  | .write => .read

/-- The channels `&p->nread` and `&p->nwrite`. -/
inductive Chan
  | nread
  | nwrite
  deriving DecidableEq

def Pipe.opened (x : Pipe) : Side → Bool
  | .read => x.readopen
  | .write => x.writeopen

/-- A finished `pipewrite`. -/
structure Write (P : Type*) where
  proc : P
  addr : List Byte
  /-- how many of the bytes it put into the buffer -/
  stored : ℕ
  ret : ℤ

/-- A finished `piperead`. -/
structure Read (P : Type*) where
  proc : P
  n : ℕ
  /-- the bytes at `addr` -/
  addr : List Byte
  ret : ℤ

structure World (P : Type*) where
  pipe : Pipe
  /-- how often the page was given to `kfree` -/
  frees : ℕ
  /-- who holds the descriptors of the read end -/
  readers : Multiset P
  writers : Multiset P
  wrote : List (P × Byte)
  got : List (P × Byte)
  writes : List (Write P)
  reads : List (Read P)

variable {P : Type*}

def World.holders (w : World P) : Side → Multiset P
  | .read => w.readers
  | .write => w.writers

def World.setHolders (w : World P) : Side → Multiset P → World P
  | .read, m => { w with readers := m }
  | .write, m => { w with writers := m }

@[simp] theorem World.setHolders_self (w : World P) (e : Side) (m : Multiset P) : (w.setHolders e m).holders e = m := by
  cases e <;> rfl

theorem World.setHolders_ne (w : World P) {e e' : Side} (m : Multiset P) (h : e' ≠ e) :
    (w.setHolders e m).holders e' = w.holders e' := by
  cases e <;> cases e' <;> first | rfl | exact absurd rfl h

@[simp] theorem World.setHolders_pipe (w : World P) (e : Side) (m : Multiset P) : (w.setHolders e m).pipe = w.pipe := by
  cases e <;> rfl

@[simp] theorem World.setHolders_frees (w : World P) (e : Side) (m : Multiset P) :
    (w.setHolders e m).frees = w.frees := by
  cases e <;> rfl

/-- Where a process is in the code. -/
inductive Label
  | readAcquire (n : ℕ)
  /-- `while(p->nread == p->nwrite && p->writeopen)` -/
  | readTest (n : ℕ)
  | readSleep (n : ℕ)
  /-- the copying loop; `acc` is copied -/
  | readCopy (n : ℕ) (acc : List Byte)
  | readWakeup (n : ℕ) (acc : List Byte)
  | readRelease (n : ℕ) (acc : List Byte) (ret : ℤ)
  | writeAcquire (addr : List Byte)
  /-- the loops of `pipewrite` -/
  | writeLoop (addr : List Byte) (i : ℕ)
  | writeFull (addr : List Byte) (i : ℕ)
  | writeSleep (addr : List Byte) (i : ℕ)
  | writeWakeup (addr : List Byte)
  | writeRelease (addr : List Byte) (i : ℕ) (ret : ℤ)
  | closeAcquire (e : Side)
  | closeMark (e : Side)
  | closeWakeup (e : Side)
  | closeTest
  | closeFree

/-- The calls on the files of the pipe. -/
inductive Req (P : Type*)
  | read (n : ℕ)
  | write (addr : List Byte)
  | fileclose (e : Side)
  /-- `filedup`, for the caller (`dup`) or for another process (`fork`) -/
  | filedup (e : Side) (q : P)

inductive Fault
  /-- a panic of the spin lock -/
  | panic
  /-- the page is used after it was freed -/
  | freed
  deriving DecidableEq

/-- `p->nwrite == p->nread + PIPESIZE` -/
def Pipe.Full (x : Pipe) : Prop := x.nwrite = x.nread + BitVec.ofNat 32 PIPESIZE

def Pipe.Empty (x : Pipe) : Prop := x.nread = x.nwrite

instance (x : Pipe) : Decidable x.Full := by
  unfold Pipe.Full
  infer_instance

instance (x : Pipe) : Decidable x.Empty := by
  unfold Pipe.Empty
  infer_instance

/-- `p->data[p->nwrite++ % PIPESIZE] = b` -/
def Pipe.put (x : Pipe) (b : Byte) : Pipe :=
  { x with data := Function.update x.data (Ring.slot x.nwrite) b, nwrite := x.nwrite + 1#32 }

/-- `p->data[p->nread++ % PIPESIZE]` -/
def Pipe.front (x : Pipe) : Byte := x.data (Ring.slot x.nread)

def Pipe.take (x : Pipe) : Pipe := { x with nread := x.nread + 1#32 }

def Pipe.close (x : Pipe) : Side → Pipe
  | .read => { x with readopen := false }
  | .write => { x with writeopen := false }

@[simp] theorem Pipe.close_self (x : Pipe) (e : Side) : (x.close e).opened e = false := by cases e <;> rfl

theorem Pipe.close_ne (x : Pipe) {e e' : Side} (h : e' ≠ e) : (x.close e).opened e' = x.opened e' := by
  cases e <;> cases e' <;> first | rfl | exact absurd rfl h

/-- The channel that `pipeclose` wakes. -/
def Side.chan : Side → Chan
  | .read => .nwrite
  | .write => .nread

/-- `fileread`, `filewrite` and `fileclose` up to the functions of the pipe. -/
def call [DecidableEq P] (p : P) : Req P → World P → Option (World P × Option Label)
  | .read n, w => if p ∈ w.readers then some (w, some (.readAcquire n)) else none
  | .write addr, w => if p ∈ w.writers then some (w, some (.writeAcquire addr)) else none
  | .filedup e q, w => if p ∈ w.holders e then some (w.setHolders e (q ::ₘ w.holders e), none) else none
  | .fileclose e, w =>
    if p ∈ w.holders e then
      some (w.setHolders e ((w.holders e).erase p),
        if (w.holders e).erase p = 0 then some (.closeAcquire e) else none)
    else none

/-- The code of the pipe, on a page that is there. -/
def code (p : P) (killed : Bool) (w : World P) : Label → Act (World P) Label Chan Fault
  | .readAcquire n => .acquire (.readTest n)
  | .readTest n =>
    if w.pipe.Empty ∧ w.pipe.writeopen then
      if killed then .plain w (some (.readRelease n [] (-1))) else .plain w (some (.readSleep n))
    else .plain w (some (.readCopy n []))
  | .readSleep n => .sleep .nread (.readTest n)
  | .readCopy n acc =>
    if acc.length < n ∧ ¬ w.pipe.Empty then
      .plain { w with pipe := w.pipe.take, got := w.got ++ [(p, w.pipe.front)] }
        (some (.readCopy n (acc ++ [w.pipe.front])))
    else .plain w (some (.readWakeup n acc))
  | .readWakeup n acc => .wakeup .nwrite (.readRelease n acc acc.length)
  | .readRelease n acc ret => .release { w with reads := w.reads ++ [⟨p, n, acc, ret⟩] } none
  | .writeAcquire addr => .acquire (.writeLoop addr 0)
  | .writeLoop addr i =>
    match addr[i]? with
    | none => .plain w (some (.writeWakeup addr))
    | some b =>
      if w.pipe.Full then
        if w.pipe.readopen = false ∨ killed then .plain w (some (.writeRelease addr i (-1)))
        else .plain w (some (.writeFull addr i))
      else .plain { w with pipe := w.pipe.put b, wrote := w.wrote ++ [(p, b)] } (some (.writeLoop addr (i + 1)))
  | .writeFull addr i => .wakeup .nread (.writeSleep addr i)
  | .writeSleep addr i => .sleep .nwrite (.writeLoop addr i)
  | .writeWakeup addr => .wakeup .nread (.writeRelease addr addr.length addr.length)
  | .writeRelease addr i ret => .release { w with writes := w.writes ++ [⟨p, addr, i, ret⟩] } none
  | .closeAcquire e => .acquire (.closeMark e)
  | .closeMark e => .plain { w with pipe := w.pipe.close e } (some (.closeWakeup e))
  | .closeWakeup e => .wakeup e.chan .closeTest
  | .closeTest =>
    if w.pipe.readopen = false ∧ w.pipe.writeopen = false then .release w (some .closeFree) else .release w none
  | .closeFree => .plain { w with frees := w.frees + 1 } none

/-- A pipe and its processes. -/
def pipe (P : Type*) [DecidableEq P] : Monitor P (Req P) (World P) Label Chan Fault where
  call := call
  act p killed w l := if w.frees = 0 then code p killed w l else .fault .freed
  panic := .panic

/-- The state after `p` called `pipe`. -/
def opened (p : P) (page : Fin PIPESIZE → Byte) : Monitor.State P (World P) Label Chan where
  data := ⟨pipealloc page, 0, {p}, {p}, [], [], [], []⟩
  lock := none
  ctl _ := .out
  killed _ := false

abbrev State (P : Type*) := Monitor.State P (World P) Label Chan

abbrev Event (P : Type*) := Monitor.Event P (Req P)

theorem opened_fresh (p : P) (page : Fin PIPESIZE → Byte) : Monitor.Fresh (opened p page) :=
  ⟨rfl, fun _ => rfl⟩

/-- The places between `acquire` and `release`. -/
def Label.Inside : Label → Prop
  | .readAcquire _ | .writeAcquire _ | .closeAcquire _ | .closeFree => False
  | _ => True

variable [DecidableEq P]

theorem act_code {p : P} {k : Bool} {w : World P} {l : Label} {a : Act (World P) Label Chan Fault}
    (h : (pipe P).act p k w l = a) (ha : ∀ f, a ≠ .fault f) : w.frees = 0 ∧ code p k w l = a := by
  simp only [pipe] at h
  split at h
  · rename_i h0
    exact ⟨h0, h⟩
  · exact absurd h.symm (ha _)

omit [DecidableEq P] in
/-- Only the freed page faults. -/
theorem code_ne_fault (p : P) (k : Bool) (w : World P) (l : Label) (f : Fault) : code p k w l ≠ .fault f := by
  intro h
  cases l with
  | readTest n =>
    simp only [code] at h
    split at h
    · split at h <;> cases h
    · cases h
  | readCopy n acc =>
    simp only [code] at h
    split at h <;> cases h
  | writeLoop addr i =>
    simp only [code] at h
    split at h
    · cases h
    · split at h
      · split at h <;> cases h
      · cases h
  | closeTest =>
    simp only [code] at h
    split at h <;> cases h
  | _ => cases h

omit [DecidableEq P] in
theorem code_brackets (p : P) (k : Bool) (w : World P) (l : Label) :
    Monitor.Brackets Label.Inside l (code p k w l) := by
  cases l with
  | readTest n =>
    simp only [code]
    split
    · split <;> exact Iff.rfl
    · exact Iff.rfl
  | readCopy n acc =>
    simp only [code]
    split <;> exact Iff.rfl
  | writeLoop addr i =>
    simp only [code]
    split
    · exact Iff.rfl
    · split
      · split <;> exact Iff.rfl
      · exact Iff.rfl
  | closeTest =>
    simp only [code]
    split
    · exact ⟨trivial, id⟩
    · exact trivial
  | _ => simp [code, Monitor.Brackets, Label.Inside]

/-- `pipe.c` takes and gives back `p->lock` in pairs. -/
theorem pipe_bracketed : (pipe P).Bracketed Label.Inside where
  call := by
    intro p r d d' l h
    cases r <;> simp only [pipe, call] at h <;> split at h <;> simp at h
    · rw [← h.2]; exact id
    · rw [← h.2]; exact id
    · rw [← h.2.2]; exact id
  act := by
    intro p k w l
    simp only [pipe]
    split
    · exact code_brackets p k w l
    · exact trivial

end Xv6.Pipes
