import Xv6.Lib.Circular
import Xv6.Lib.Machine

/-!
# The buffer cache and the disk driver

`bio.c` and `ide.c` for any number of processes that read, modify, write and release blocks. What a process does
under `bcache.lock` or `idelock` is one event; a process waits for the sleep lock of a buffer and for the disk. The
drive is the hardware: it executes one command at a time, and raises one interrupt when it is done.

The links of the LRU list are those of the source. `idequeue` with `qnext` is a list.

History variables: `cur` is the contents of a block as the last `bwrite` or `log_write` left it, `touched` says that
the holder of a buffer has modified it since, `users` are the processes that refer to a buffer, `asked` is the block
that the holder of a buffer asked for, and `stamp` tells when a buffer was last released by all.
-/

namespace Xv6.Cache

structure Buf (D : Type*) where
  dev : ℕ
  blockno : ℕ
  /-- `B_VALID` -/
  valid : Bool
  /-- `B_DIRTY` -/
  dirty : Bool
  refcnt : ℕ
  data : D

/-- A command for the drive: its unit, its sector, and the data of a write. -/
inductive Cmd (D : Type*)
  | read (unit sector : ℕ)
  | write (unit sector : ℕ) (data : D)

inductive Drive (D : Type*)
  | idle
  | busy (c : Cmd D)
  /-- it has raised the interrupt; a read has left its data -/
  | done (latch : Option D)

/-- Where a process is in the code. -/
inductive Pc (n : ℕ)
  | out
  /-- `bget` before `acquiresleep(&b->lock)`, for a block -/
  | locking (b : Fin n) (dev blockno : ℕ)
  /-- `bread` after `bget` -/
  | reading (b : Fin n)
  /-- `iderw` -/
  | starting (b : Fin n)
  /-- `while((b->flags & (B_VALID|B_DIRTY)) != B_VALID)` -/
  | waiting (b : Fin n)
  /-- `brelse` after `releasesleep(&b->lock)` -/
  | releasing (b : Fin n)
  deriving DecidableEq

structure State (n : ℕ) (P D : Type*) where
  buf : Fin n → Buf D
  /-- the list through `prev` and `next` -/
  list : Circular (Fin n)
  /-- who has the sleep lock -/
  lock : Fin n → Option P
  idequeue : List (Fin n)
  drive : Drive D
  disk : ℕ → ℕ → D
  pc : P → Pc n
  cur : ℕ → ℕ → D
  touched : Fin n → Bool
  users : Fin n → Multiset P
  asked : Fin n → ℕ × ℕ
  clock : ℕ
  stamp : Fin n → ℕ

inductive Panic
  /-- `bget: no buffers` -/
  | noBuffers
  | bwrite
  | brelse
  /-- `iderw: buf not locked` -/
  | notLocked
  /-- `iderw: nothing to do` -/
  | nothingToDo
  /-- `iderw: ide disk 1 not present` -/
  | noDisk
  /-- `incorrect blockno` -/
  | blockno
  deriving DecidableEq

variable {n : ℕ} {P D : Type*} [DecidableEq P]

def State.setBuf (s : State n P D) (b : Fin n) (x : Buf D) : State n P D :=
  { s with buf := Function.update s.buf b x }

def State.go (s : State n P D) (p : P) (x : Pc n) : State n P D := { s with pc := Function.update s.pc p x }

/-- `binit` -/
def binit (n : ℕ) : Circular (Fin n) := (List.finRange n).foldl (fun d b => d.pushFront b) .empty

/-- The state after `binit` and `ideinit`, with the disk as it is. -/
def boot (n : ℕ) (P : Type*) (zero : D) (disk : ℕ → ℕ → D) : State n P D where
  buf _ := ⟨0, 0, false, false, 0, zero⟩
  list := binit n
  lock _ := none
  idequeue := []
  drive := .idle
  disk := disk
  pc _ := .out
  cur := disk
  touched _ := false
  users _ := 0
  asked _ := (0, 0)
  clock := 0
  stamp _ := 0

/-- Is the block already cached? -/
def State.cached (s : State n P D) (dev blockno : ℕ) : Option (Fin n) :=
  scan s.list.next (fun b => decide ((s.buf b).dev = dev ∧ (s.buf b).blockno = blockno)) n s.list.first

/-- An unused buffer, from the other end. -/
def State.unused (s : State n P D) : Option (Fin n) :=
  scan s.list.prev (fun b => decide ((s.buf b).refcnt = 0) && !(s.buf b).dirty) n s.list.last

/-- `b->refcnt++` -/
def State.hit (s : State n P D) (p : P) (b : Fin n) (dev blockno : ℕ) : State n P D :=
  { s.setBuf b { s.buf b with refcnt := (s.buf b).refcnt + 1 } with
    users := Function.update s.users b (p ::ₘ s.users b) }.go p (.locking b dev blockno)

/-- The buffer gets another block, which is not in it yet. -/
def State.recycle (s : State n P D) (p : P) (b : Fin n) (dev blockno : ℕ) : State n P D :=
  { s.setBuf b ⟨dev, blockno, false, false, 1, (s.buf b).data⟩ with
    users := Function.update s.users b (p ::ₘ s.users b) }.go p (.locking b dev blockno)

/-- `bget`, up to `acquiresleep`. -/
def bget (s : State n P D) (p : P) (dev blockno : ℕ) : Except Panic (State n P D) :=
  match s.cached dev blockno with
  | some b => .ok (s.hit p b dev blockno)
  | none =>
    match s.unused with
    | some b => .ok (s.recycle p b dev blockno)
    | none => .error .noBuffers

/-- `acquiresleep(&b->lock)` of a free lock -/
def State.acquiresleep (s : State n P D) (p : P) (b : Fin n) (dev blockno : ℕ) : State n P D :=
  { s with
    lock := Function.update s.lock b (some p)
    asked := Function.update s.asked b (dev, blockno) }.go p (.reading b)

/-- `releasesleep(&b->lock)` -/
def State.releasesleep (s : State n P D) (p : P) (b : Fin n) : State n P D :=
  { s with lock := Function.update s.lock b none }.go p (.releasing b)

/-- The command of `idestart`: `b->dev & 1` is the unit. -/
def Buf.cmd (x : Buf D) : Cmd D :=
  if x.dirty then .write (x.dev % 2) x.blockno x.data else .read (x.dev % 2) x.blockno

def State.command (s : State n P D) (b : Fin n) : State n P D := { s with drive := .busy (s.buf b).cmd }

def idestart (fssize : ℕ) (s : State n P D) (b : Fin n) : Except Panic (State n P D) :=
  if fssize ≤ (s.buf b).blockno then .error .blockno else .ok (s.command b)

/-- `(b->flags & (B_VALID|B_DIRTY)) == B_VALID` -/
def Buf.Synced (x : Buf D) : Prop := x.valid = true ∧ x.dirty = false

instance (x : Buf D) : Decidable x.Synced := by
  unfold Buf.Synced
  infer_instance

/-- Append b to idequeue. -/
def State.enqueue (s : State n P D) (p : P) (b : Fin n) : State n P D :=
  { s with idequeue := s.idequeue ++ [b] }.go p (.waiting b)

/-- `iderw`, up to the loop. -/
def iderw (fssize : ℕ) (havedisk1 : Bool) (s : State n P D) (p : P) (b : Fin n) : Except Panic (State n P D) :=
  if s.lock b ≠ some p then .error .notLocked
  else if (s.buf b).Synced then .error .nothingToDo
  else if (s.buf b).dev ≠ 0 ∧ havedisk1 = false then .error .noDisk
  else if s.idequeue = [] then idestart fssize (s.enqueue p b) b
  else .ok (s.enqueue p b)

/-- The request of `b` is done: read data if needed, set `B_VALID` and clear `B_DIRTY`. -/
def State.serve (s : State n P D) (b : Fin n) (q : List (Fin n)) (latch : Option D) : State n P D :=
  { s.setBuf b { s.buf b with
      valid := true
      dirty := false
      data := if (s.buf b).dirty then (s.buf b).data else latch.getD (s.buf b).data } with
    idequeue := q
    drive := .idle }

/-- `ideintr`, for the data that the drive has. -/
def ideintr (fssize : ℕ) (s : State n P D) (latch : Option D) : Except Panic (State n P D) :=
  match s.idequeue with
  | [] => .ok { s with drive := .idle }
  | [b] => .ok (s.serve b [] latch)
  | b :: b' :: q => idestart fssize (s.serve b (b' :: q) latch) b'

/-- The block is what its holder made of it: `bwrite` and `log_write` set `B_DIRTY`. -/
def State.mark (s : State n P D) (b : Fin n) : State n P D :=
  { s.setBuf b { s.buf b with dirty := true } with
    cur := Function.update s.cur (s.buf b).dev
      (Function.update (s.cur (s.buf b).dev) (s.buf b).blockno (s.buf b).data)
    touched := Function.update s.touched b false }

/-- `b->data` is modified. -/
def State.modify (s : State n P D) (b : Fin n) (data : D) : State n P D :=
  { s.setBuf b { s.buf b with data := data } with touched := Function.update s.touched b true }

/-- `b->refcnt--` -/
def State.drop (s : State n P D) (p : P) (b : Fin n) : State n P D :=
  { s.setBuf b { s.buf b with refcnt := (s.buf b).refcnt - 1 } with
    users := Function.update s.users b ((s.users b).erase p) }.go p .out

/-- no one is waiting for it: move to the head of the MRU list -/
def State.toFront (s : State n P D) (b : Fin n) : State n P D :=
  { s with
    list := (s.list.remove b).pushFront b
    clock := s.clock + 1
    stamp := Function.update s.stamp b (s.clock + 1) }

/-- The end of `brelse`. -/
def brelse (s : State n P D) (p : P) (b : Fin n) : State n P D :=
  if (s.buf b).refcnt - 1 = 0 then (s.drop p b).toFront b else s.drop p b

/-- What the drive does with the disk. -/
def Cmd.exec (c : Cmd D) (disk : ℕ → ℕ → D) : (ℕ → ℕ → D) × Option D :=
  match c with
  | .read unit sector => (disk, some (disk unit sector))
  | .write unit sector data => (Function.update disk unit (Function.update (disk unit) sector data), none)

/-- The drive is done. -/
def State.finish (s : State n P D) (c : Cmd D) (error : Bool) : State n P D :=
  if error then { s with drive := .done none }
  else { s with disk := (c.exec s.disk).1, drive := .done (c.exec s.disk).2 }

inductive Event (n : ℕ) (P D : Type*)
  | bread (p : P) (dev blockno : ℕ)
  /-- the holder of a buffer modifies its data -/
  | modify (p : P) (b : Fin n) (data : D)
  | bwrite (p : P) (b : Fin n)
  | log_write (p : P) (b : Fin n)
  | brelse (p : P) (b : Fin n)
  /-- the process goes on -/
  | run (p : P)
  /-- the drive is done, with an error or without -/
  | finish (error : Bool)
  | intr

/-- The next action of `p`. -/
def advance (fssize : ℕ) (havedisk1 : Bool) (s : State n P D) (p : P) : Option (Except Panic (State n P D)) :=
  match s.pc p with
  | .out => none
  | .locking b dev blockno => if s.lock b = none then some (.ok (s.acquiresleep p b dev blockno)) else none
  | .reading b => if (s.buf b).valid then some (.ok (s.go p .out)) else some (.ok (s.go p (.starting b)))
  | .starting b => some (iderw fssize havedisk1 s p b)
  | .waiting b => if (s.buf b).Synced then some (.ok (s.go p .out)) else none
  | .releasing b => some (.ok (brelse s p b))

def step (fssize : ℕ) (havedisk1 : Bool) (s : State n P D) : Event n P D → Option (Except Panic (State n P D))
  | .bread p dev blockno => if s.pc p = .out then some (bget s p dev blockno) else none
  | .modify p b data => if s.pc p = .out ∧ s.lock b = some p then some (.ok (s.modify b data)) else none
  | .bwrite p b =>
    if s.pc p = .out then
      if s.lock b = some p then some (.ok ((s.mark b).go p (.starting b))) else some (.error .bwrite)
    else none
  | .log_write p b => if s.pc p = .out ∧ s.lock b = some p then some (.ok (s.mark b)) else none
  | .brelse p b =>
    if s.pc p = .out then
      if s.lock b = some p then some (.ok (s.releasesleep p b)) else some (.error .brelse)
    else none
  | .run p => advance fssize havedisk1 s p
  | .finish error =>
    match s.drive with
    | .busy c => some (.ok (s.finish c error))
    | _ => none
  | .intr =>
    match s.drive with
    | .done latch => some (ideintr fssize s latch)
    | _ => none

def cache (fssize : ℕ) (havedisk1 : Bool) (n : ℕ) (P D : Type*) [DecidableEq P] :
    Machine (State n P D) (Event n P D) Panic :=
  ⟨step fssize havedisk1⟩

/-- What the callers promise: the only device is the root device, with `fssize` blocks; who modifies a buffer writes it
before it releases it; and the disk has no errors. -/
def Proper (fssize : ℕ) (s : State n P D) : Event n P D → Prop
  | .bread _ dev blockno => dev = 1 ∧ blockno < fssize
  | .brelse _ b => s.touched b = false
  | .finish error => error = false
  | _ => True

instance (fssize : ℕ) (s : State n P D) (e : Event n P D) : Decidable (Proper fssize s e) := by
  cases e <;> (unfold Proper; infer_instance)

/-- **What an event does.** -/
inductive Step (fssize : ℕ) (s : State n P D) : Event n P D → State n P D → Prop
  | hit {p dev blockno b} (hp : s.pc p = .out) (hb : s.cached dev blockno = some b) :
    Step fssize s (.bread p dev blockno) (s.hit p b dev blockno)
  | recycle {p dev blockno b} (hp : s.pc p = .out) (hnone : s.cached dev blockno = none) (hb : s.unused = some b) :
    Step fssize s (.bread p dev blockno) (s.recycle p b dev blockno)
  | modify {p b data} (hp : s.pc p = .out) (hl : s.lock b = some p) :
    Step fssize s (.modify p b data) (s.modify b data)
  | bwrite {p b} (hp : s.pc p = .out) (hl : s.lock b = some p) :
    Step fssize s (.bwrite p b) ((s.mark b).go p (.starting b))
  | log_write {p b} (hp : s.pc p = .out) (hl : s.lock b = some p) : Step fssize s (.log_write p b) (s.mark b)
  | releasesleep {p b} (hp : s.pc p = .out) (hl : s.lock b = some p) :
    Step fssize s (.brelse p b) (s.releasesleep p b)
  | acquiresleep {p b dev blockno} (hp : s.pc p = .locking b dev blockno) (hl : s.lock b = none) :
    Step fssize s (.run p) (s.acquiresleep p b dev blockno)
  | valid {p b} (hp : s.pc p = .reading b) (hv : (s.buf b).valid = true) : Step fssize s (.run p) (s.go p .out)
  | invalid {p b} (hp : s.pc p = .reading b) (hv : (s.buf b).valid = false) :
    Step fssize s (.run p) (s.go p (.starting b))
  | enqueue {p b} (hp : s.pc p = .starting b) (hl : s.lock b = some p) (hs : ¬ (s.buf b).Synced)
    (hq : s.idequeue ≠ []) : Step fssize s (.run p) (s.enqueue p b)
  | start {p b} (hp : s.pc p = .starting b) (hl : s.lock b = some p) (hs : ¬ (s.buf b).Synced)
    (hq : s.idequeue = []) (hn : (s.buf b).blockno < fssize) :
    Step fssize s (.run p) ((s.enqueue p b).command b)
  | synced {p b} (hp : s.pc p = .waiting b) (hs : (s.buf b).Synced) : Step fssize s (.run p) (s.go p .out)
  | drop {p b} (hp : s.pc p = .releasing b) (h1 : (s.buf b).refcnt - 1 ≠ 0) : Step fssize s (.run p) (s.drop p b)
  | dropLast {p b} (hp : s.pc p = .releasing b) (h1 : (s.buf b).refcnt - 1 = 0) :
    Step fssize s (.run p) ((s.drop p b).toFront b)
  | finish {c error} (hd : s.drive = .busy c) : Step fssize s (.finish error) (s.finish c error)
  | spurious {latch} (hd : s.drive = .done latch) (hq : s.idequeue = []) :
    Step fssize s .intr { s with drive := .idle }
  | serve {latch b} (hd : s.drive = .done latch) (hq : s.idequeue = [b]) : Step fssize s .intr (s.serve b [] latch)
  | serveNext {latch b b' q} (hd : s.drive = .done latch) (hq : s.idequeue = b :: b' :: q)
    (hn : ((s.serve b (b' :: q) latch).buf b').blockno < fssize) :
    Step fssize s .intr ((s.serve b (b' :: q) latch).command b')

variable {fssize : ℕ} {havedisk1 : Bool} {s s' : State n P D} {e : Event n P D}

omit [DecidableEq P] in
theorem idestart_ok {b : Fin n} (h : idestart fssize s b = .ok s') :
    (s.buf b).blockno < fssize ∧ s' = s.command b := by
  unfold idestart at h
  split at h
  · cases h
  · rename_i hn
    cases h
    exact ⟨by omega, rfl⟩

theorem advance_ok {p : P} (h : advance fssize havedisk1 s p = some (.ok s')) : Step fssize s (.run p) s' := by
  unfold advance at h
  cases hp : s.pc p with
  | out => rw [hp] at h; cases h
  | locking b dev blockno =>
    rw [hp] at h
    simp only at h
    split at h
    · rename_i hl
      cases h
      exact .acquiresleep hp hl
    · cases h
  | reading b =>
    rw [hp] at h
    simp only at h
    split at h
    · rename_i hv
      cases h
      exact .valid hp hv
    · rename_i hv
      cases h
      exact .invalid hp (by simpa using hv)
  | starting b =>
    rw [hp] at h
    simp only [iderw, Option.some.injEq] at h
    split at h
    · cases h
    · rename_i hl
      split at h
      · cases h
      · rename_i hs
        split at h
        · cases h
        · split at h
          · rename_i hq
            obtain ⟨hn, rfl⟩ := idestart_ok h
            exact .start hp (by simpa using hl) hs hq hn
          · rename_i hq
            cases h
            exact .enqueue hp (by simpa using hl) hs hq
  | waiting b =>
    rw [hp] at h
    simp only at h
    split at h
    · rename_i hs
      cases h
      exact .synced hp hs
    · cases h
  | releasing b =>
    rw [hp] at h
    simp only [brelse] at h
    split at h
    · rename_i h1
      cases h
      exact .dropLast hp h1
    · rename_i h1
      cases h
      exact .drop hp h1

theorem step_ok (h : (cache fssize havedisk1 n P D).step s e = some (.ok s')) : Step fssize s e s' := by
  cases e with
  | bread p dev blockno =>
    simp only [cache, step] at h
    split at h
    · rename_i hp
      simp only [bget, Option.some.injEq] at h
      cases hc : s.cached dev blockno with
      | some b =>
        rw [hc] at h
        cases h
        exact .hit hp hc
      | none =>
        rw [hc] at h
        cases hu : s.unused with
        | some b =>
          rw [hu] at h
          cases h
          exact .recycle hp hc hu
        | none => rw [hu] at h; cases h
    · cases h
  | modify p b data =>
    simp only [cache, step] at h
    split at h
    · rename_i hc
      cases h
      exact .modify hc.1 hc.2
    · cases h
  | bwrite p b =>
    simp only [cache, step] at h
    split at h
    · rename_i hp
      split at h
      · rename_i hl
        cases h
        exact .bwrite hp hl
      · cases h
    · cases h
  | log_write p b =>
    simp only [cache, step] at h
    split at h
    · rename_i hc
      cases h
      exact .log_write hc.1 hc.2
    · cases h
  | brelse p b =>
    simp only [cache, step] at h
    split at h
    · rename_i hp
      split at h
      · rename_i hl
        cases h
        exact .releasesleep hp hl
      · cases h
    · cases h
  | run p => exact advance_ok h
  | finish error =>
    simp only [cache, step] at h
    cases hd : s.drive with
    | busy c =>
      rw [hd] at h
      cases h
      exact .finish hd
    | idle => rw [hd] at h; cases h
    | done latch => rw [hd] at h; cases h
  | intr =>
    simp only [cache, step] at h
    cases hd : s.drive with
    | busy c => rw [hd] at h; cases h
    | idle => rw [hd] at h; cases h
    | done latch =>
      rw [hd] at h
      simp only [ideintr, Option.some.injEq] at h
      split at h
      · rename_i hq
        cases h
        exact .spurious hd hq
      · rename_i b hq
        cases h
        exact .serve hd hq
      · rename_i b b' q hq
        obtain ⟨hn, rfl⟩ := idestart_ok h
        exact .serveNext hd hq hn

end Xv6.Cache
