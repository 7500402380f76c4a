import Xv6.Lib.Machine
import Xv6.Lib.Bytes

/-!
# The write-ahead log of `project3/log.c`

The state is the disk, the buffer cache (`bio.c`), `struct log` and where each
file-system call is between its `begin_op` and the return of its `end_op`. One
event is one critical section of `log.lock`, one change of a locked buffer, or
one pass of a copying loop, which makes exactly one block write; a crash may come
between any two events.

A call that `begin_op` puts to sleep is a call whose `begin` event is not enabled
yet. The two tests at the head of `log_write` run before `log.lock` is taken, so
they are an event of their own (`logWrite`), and recording the block is another
(`append`).

`History` records what the theorems speak about. No code reads it.
-/

namespace Xv6.Log

/-- Max # of blocks any FS op writes. -/
def MAXOPBLOCKS : ℕ := 10

/-- Max data blocks in on-disk log. -/
def LOGSIZE : ℕ := MAXOPBLOCKS * 3

abbrev Block := Bytes

/-- `log.start` and `log.size`, read from the super block by `initlog`. -/
structure Geometry where
  start : ℕ
  size : ℕ
  pos : 0 < size

/-- A block outside the log area. -/
def Geometry.Home (g : Geometry) (b : ℕ) : Prop := b < g.start ∨ g.start + g.size ≤ b

/-- The log area that `mkfs` lays out: `nlog = LOGSIZE` blocks after the boot and the
super block, the log header among them. -/
def mkfs : Geometry := ⟨2, LOGSIZE, by decide⟩

instance (g : Geometry) (b : ℕ) : Decidable (g.Home b) := by unfold Geometry.Home; infer_instance

/-- A cached block. `dirty` is `B_DIRTY`; a cached block is always `B_VALID`. -/
structure Buf where
  data : Block
  dirty : Bool

/-- The part of `struct log` that changes. `lh` is `lh.block[0..lh.n-1]`. -/
structure LogState where
  outstanding : ℕ
  committing : Bool
  lh : List ℕ

/-- A file-system call, named by the boot it runs in and a serial number. -/
structure Call where
  boot : ℕ
  serial : ℕ
  deriving DecidableEq

/-- Where `commit` is. -/
inductive Commit
  | writeLog (tail : ℕ)
  | install (tail : ℕ)
  | finish
  deriving DecidableEq

/-- Where a call is. -/
inductive Pc
  | idle
  | inOp
  /-- it holds the buffer of `b`, has changed its data and not yet called `log_write` -/
  | modified (b : ℕ)
  /-- in `log_write`, past the two tests -/
  | logging (b : ℕ)
  /-- in the committing `end_op` -/
  | committing (k : Commit)
  | returned
  deriving DecidableEq

/-- Where the boot is: in `recover_from_log`, or past it. -/
inductive Mode
  | readHead
  | install (tail : ℕ)
  | running
  deriving DecidableEq

/-- What happened so far. -/
structure History where
  /-- every change of a block, oldest first -/
  writes : List (Call × ℕ × Block)
  /-- the calls between their `begin_op` and their `end_op` -/
  active : Finset Call
  /-- the blocks each call has recorded in the log, without repetition -/
  logged : Call → List ℕ
  /-- the call has made its `end_op` -/
  ended : Call → Bool
  /-- the call has returned from an `end_op` that committed -/
  acked : Call → Bool
  /-- the call had begun at the commit point of some commit -/
  durable : Call → Bool
  /-- the cache contents at the last commit whose header write reached the disk -/
  committed : ℕ → Block

structure State where
  disk : ℕ → Block
  buf : ℕ → Option Buf
  /-- the blocks whose buffer's sleep lock is held between two events -/
  locked : List ℕ
  log : LogState
  mode : Mode
  boot : ℕ
  pc : Call → Pc
  hist : History

inductive Panic
  /-- "too big a transaction" -/
  | tooBig
  /-- "log_write outside of trans" -/
  | outsideTrans
  /-- "log.committing" -/
  | logCommitting
  deriving DecidableEq

inductive Event
  | begin (c : Call)
  | fetch (b : ℕ)
  | modify (c : Call) (b : ℕ) (v : Block)
  | logWrite (c : Call) (b : ℕ)
  | append (c : Call) (b : ℕ)
  | endOp (c : Call)
  | commit (c : Call)
  | evict (b : ℕ)
  | crash
  | recover

/-! ## The buffer cache -/

/-- What `bread` returns for block `b`. -/
def State.view (s : State) (b : ℕ) : Block :=
  match s.buf b with
  | some bf => bf.data
  | none => s.disk b

/-- `bread` then `brelse`: the block is cached. -/
def State.fetch (s : State) (b : ℕ) : State :=
  match s.buf b with
  | some _ => s
  | none => { s with buf := Function.update s.buf b (some ⟨s.disk b, false⟩) }

/-- `bwrite` of the buffer of `b`, whose data is now `d`. -/
def State.bwrite (s : State) (b : ℕ) (d : Block) : State :=
  { s with disk := Function.update s.disk b d, buf := Function.update s.buf b (some ⟨d, false⟩) }

/-- `B_DIRTY` of block `b`. -/
def State.dirty (s : State) (b : ℕ) : Bool :=
  match s.buf b with
  | some bf => bf.dirty
  | none => false

/-! ## The log header block -/

/-- `hb->block[i] = bl[0]`, `hb->block[i + 1] = bl[1]` and so on, as words of the block. -/
def putBlocks (d : Block) (i : ℕ) : List ℕ → Block
  | [] => d
  | b :: bl => putBlocks (setWord d i b) (i + 1) bl

/-- The header block `write_head` makes of the block it read. -/
def encodeHead (d : Block) (bl : List ℕ) : Block := putBlocks (setWord d 0 bl.length) 1 bl

/-- The block list `read_head` takes from a header block. -/
def decodeHead (d : Block) : List ℕ := (List.range (word d 0)).map fun i => word d (i + 1)

/-! ## log.c -/

variable (g : Geometry)

/-- `begin_op` does not sleep. -/
def LogState.admits (l : LogState) : Prop :=
  l.committing = false ∧ l.lh.length + (l.outstanding + 1) * MAXOPBLOCKS ≤ LOGSIZE

instance (l : LogState) : Decidable l.admits := by unfold LogState.admits; infer_instance

/-- The block list after `log_write`: an absorbed block keeps its place. -/
def absorb (lh : List ℕ) (b : ℕ) : List ℕ := if b ∈ lh then lh else lh ++ [b]

/-- One pass of the loop of `write_log`, for `log.lh.block[tail] = b`. -/
def State.writeLog (s : State) (tail b : ℕ) : State :=
  (s.fetch b).bwrite (g.start + tail + 1) (s.view b)

/-- One pass of the loop of `install_trans`. -/
def State.installTrans (s : State) (tail b : ℕ) : State :=
  (s.fetch (g.start + tail + 1)).bwrite b (s.view (g.start + tail + 1))

/-- `write_head`. -/
def State.writeHead (s : State) : State :=
  s.bwrite g.start (encodeHead (s.view g.start) s.log.lh)

def State.setPc (s : State) (c : Call) (p : Pc) : State := { s with pc := Function.update s.pc c p }

/-- The commit point: every call that has begun is durable, in the image `img`. -/
def State.markDurable (s : State) (img : ℕ → Block) : State :=
  { s with hist := { s.hist with
      durable := fun c => s.hist.durable c || decide (s.pc c ≠ .idle)
      committed := img } }

/-- One event of `commit` and of the end of `end_op`. -/
def State.commit (s : State) (c : Call) : Commit → State
  | .writeLog tail =>
    if h : tail < s.log.lh.length then
      (s.writeLog g tail s.log.lh[tail]).setPc c (.committing (.writeLog (tail + 1)))
    else if s.log.lh.length = 0 then
      (s.markDurable s.hist.committed).setPc c (.committing .finish)
    else
      ((s.markDurable s.view).writeHead g).setPc c (.committing (.install 0))
  | .install tail =>
    if h : tail < s.log.lh.length then
      (s.installTrans g tail s.log.lh[tail]).setPc c (.committing (.install (tail + 1)))
    else
      ({ s with log := { s.log with lh := [] } }.writeHead g).setPc c (.committing .finish)
  | .finish =>
    { s with
      log := { s.log with committing := false }
      pc := Function.update s.pc c .returned
      hist := { s.hist with acked := Function.update s.hist.acked c true } }

/-- One event of `recover_from_log`. -/
def State.recover (s : State) : Mode → Option State
  | .readHead => some
      { s.fetch g.start with
        log := { s.log with lh := decodeHead (s.view g.start) }
        mode := .install 0 }
  | .install tail => some <|
    if h : tail < s.log.lh.length then
      { s.installTrans g tail s.log.lh[tail] with mode := .install (tail + 1) }
    else
      { ({ s with log := { s.log with lh := [] } }.writeHead g) with mode := .running }
  | .running => none

/-- The state in which a boot finds the disk. -/
def State.reboot (s : State) : State :=
  { s with
    buf := fun _ => none
    locked := []
    log := ⟨0, false, []⟩
    mode := .readHead
    boot := s.boot + 1
    pc := fun _ => .idle
    hist := { s.hist with active := ∅ } }

/-- The changes a call makes to a block it holds are the writes of the file system. -/
def State.modify (s : State) (c : Call) (b : ℕ) (v : Block) : State :=
  { s with
    buf := Function.update s.buf b (some ⟨v, s.dirty b⟩)
    locked := b :: s.locked
    pc := Function.update s.pc c (.modified b)
    hist := { s.hist with writes := s.hist.writes ++ [(c, b, v)] } }

/-- `log_write`, from `acquire(&log.lock)` on, and the `brelse` after it. -/
def State.append (s : State) (c : Call) (b : ℕ) : State :=
  { s with
    log := { s.log with lh := absorb s.log.lh b }
    buf := Function.update s.buf b (some ⟨s.view b, true⟩)
    locked := s.locked.erase b
    pc := Function.update s.pc c .inOp
    hist := { s.hist with logged := Function.update s.hist.logged c (absorb (s.hist.logged c) b) } }

/-- `begin_op`, from the last test on. -/
def State.beginOp (s : State) (c : Call) : State :=
  { s with
    log := { s.log with outstanding := s.log.outstanding + 1 }
    pc := Function.update s.pc c .inOp
    hist := { s.hist with active := insert c s.hist.active } }

/-- `end_op`, up to the release of `log.lock`. -/
def State.endOp (s : State) (c : Call) : State :=
  let last := decide (s.log.outstanding - 1 = 0)
  { s with
    log := { s.log with outstanding := s.log.outstanding - 1, committing := last }
    pc := Function.update s.pc c (if last then .committing (.writeLog 0) else .returned)
    hist := { s.hist with
      active := s.hist.active.erase c
      ended := Function.update s.hist.ended c true } }

def step (s : State) : Event → Option (Except Panic State)
  | .begin c =>
    if s.mode = .running ∧ c.boot = s.boot ∧ s.pc c = .idle ∧ s.log.admits then some (.ok (s.beginOp c))
    else none
  | .fetch b => if b ∉ s.locked then some (.ok (s.fetch b)) else none
  | .modify c b v =>
    -- the file system proper never touches the log area
    if s.pc c = .inOp ∧ b ∉ s.locked ∧ g.Home b ∧ b < 2 ^ 32 then some (.ok (s.modify c b v))
    else none
  | .logWrite c b =>
    if s.pc c = .modified b then
      if LOGSIZE ≤ s.log.lh.length ∨ g.size - 1 ≤ s.log.lh.length then some (.error .tooBig)
      else if s.log.outstanding < 1 then some (.error .outsideTrans)
      else some (.ok (s.setPc c (.logging b)))
    else none
  | .append c b => if s.pc c = .logging b then some (.ok (s.append c b)) else none
  | .endOp c =>
    if s.pc c = .inOp then
      if s.log.committing then some (.error .logCommitting) else some (.ok (s.endOp c))
    else none
  | .commit c =>
    match s.pc c with
    | .committing k => some (.ok (s.commit g c k))
    | _ => none
  | .evict b =>
    if s.dirty b = false ∧ b ∉ s.locked then
      some (.ok { s with buf := Function.update s.buf b none })
    else none
  | .crash => some (.ok s.reboot)
  | .recover => (s.recover g s.mode).map .ok

/-- The log system of a disk with log area `g`. -/
def machine : Machine State Event Panic := ⟨step g⟩

/-- The first boot from disk `d`. -/
def init (d : ℕ → Block) : State where
  disk := d
  buf := fun _ => none
  locked := []
  log := ⟨0, false, []⟩
  mode := .readHead
  boot := 0
  pc := fun _ => .idle
  hist := ⟨[], ∅, fun _ => [], fun _ => false, fun _ => false, fun _ => false, d⟩

end Xv6.Log
