import Xv6.Lib.Bytes
import Xv6.Lib.Prog

/-!
# Blocks

The bitmap allocator, the block map of an inode and its truncation, as `fs.c` has them, over the
blocks of one disk as the buffer cache shows them.

* `bread` and `brelse` take and release the lock of a buffer; a pointer to a buffer is the number
  of its block.
* `log_write` notes which blocks the transaction has written.
* `bmap` goes through at most three index blocks; `indirect` is one of them.
* `itrunc` has two variables, `bp` and `a`, which its nested loops share.
-/

namespace Xv6.Block

abbrev BSIZE : ℕ := 512
abbrev BPB : ℕ := BSIZE * 8
abbrev NDIRECT : ℕ := 10
abbrev NINDIRECT : ℕ := 128
abbrev NADDRS : ℕ := NDIRECT + 1 + 1 + 1
abbrev MAXFILE : ℕ := NDIRECT + NINDIRECT + NINDIRECT * NINDIRECT + NINDIRECT * NINDIRECT * NINDIRECT

/-- Inodes per block. -/
abbrev IPB : ℕ := 8

/-- What the kernel knows of the disk: the superblock, and how many blocks the log takes. -/
structure Super where
  size : ℕ
  ninodes : ℕ
  inodestart : ℕ
  bmapstart : ℕ
  logsize : ℕ

/-- The block of an inode. -/
def Super.iblock (sb : Super) (inum : ℕ) : ℕ := inum / IPB + sb.inodestart

/-- The block of the bitmap with the bit of block `b`. -/
def Super.bblock (sb : Super) (b : ℕ) : ℕ := b / BPB + sb.bmapstart

/-- How many blocks the bitmap has. -/
def Super.nbitmap (sb : Super) : ℕ := (sb.size + BPB - 1) / BPB

inductive Fault
  | outOfBlocks | freeingFree | brelse | outOfRange | tooBig | shortWrite
  /-- asleep for a buffer that the process itself has locked -/
  | asleep
  deriving DecidableEq

/-- An inode in memory. -/
structure Inode where
  type : ℕ
  major : ℕ
  minor : ℕ
  nlink : ℕ
  size : ℕ
  addrs : ℕ → ℕ

structure State where
  block : ℕ → Bytes
  /-- the buffers that are locked -/
  held : Finset ℕ
  /-- the blocks that the transaction has written -/
  logged : Finset ℕ
  /-- the inodes in memory, by number -/
  inode : ℕ → Inode

abbrev M := Prog State Fault

def State.setBlock (s : State) (b : ℕ) (f : Bytes → Bytes) : State :=
  { s with block := Function.update s.block b (f (s.block b)) }

def State.setInode (s : State) (ip : ℕ) (f : Inode → Inode) : State :=
  { s with inode := Function.update s.inode ip (f (s.inode ip)) }

def State.setAddr (s : State) (ip i addr : ℕ) : State :=
  s.setInode ip fun x => { x with addrs := Function.update x.addrs i addr }

def setBlock (b : ℕ) (f : Bytes → Bytes) : M Unit := Prog.modify fun s => s.setBlock b f

def setAddr (ip i addr : ℕ) : M Unit := Prog.modify fun s => s.setAddr ip i addr

/-! ## Buffers -/

def bread (b : ℕ) : M Unit := do
  let s ← Prog.get
  Prog.assert (b ∉ s.held) .asleep
  Prog.modify fun s => { s with held := insert b s.held }

def brelse (b : ℕ) : M Unit := do
  let s ← Prog.get
  Prog.assert (b ∈ s.held) .brelse
  Prog.modify fun s => { s with held := s.held.erase b }

def log_write (sb : Super) (b : ℕ) : M Unit := do
  let s ← Prog.get
  Prog.assert (s.logged.card < sb.logsize) .tooBig
  Prog.modify fun s => { s with logged := insert b s.logged }

/-- `a[i]`, when `a` points into the buffer of block `b`. -/
def index (b i : ℕ) : M ℕ := do
  let s ← Prog.get
  pure (word (s.block b) i)

/-! ## The bitmap -/

def bzero (sb : Super) (b : ℕ) : M Unit := do
  bread b
  setBlock b fun _ _ => 0
  log_write sb b
  brelse b

/-- The bit of block `b` in the bitmap. -/
def State.used (sb : Super) (s : State) (b : ℕ) : Bool := getBit (s.block (sb.bblock b)) (b % BPB)

/-- The first clear bit in block `k` of the bitmap, among those of blocks that the disk has. -/
@[irreducible] def firstFree (sb : Super) (k : ℕ) (d : Bytes) : Option ℕ :=
  (List.range BPB).find? fun bi => k * BPB + bi < sb.size ∧ getBit d bi = false

/-- The loop of `balloc` over the blocks of the bitmap. -/
def ballocLoop (sb : Super) : List ℕ → M ℕ
  | [] => Prog.throw .outOfBlocks
  | k :: ks => do
    bread (k + sb.bmapstart)
    let s ← Prog.get
    match firstFree sb k (s.block (k + sb.bmapstart)) with
    | some bi => do
      setBlock (k + sb.bmapstart) fun d => setBit d bi
      log_write sb (k + sb.bmapstart)
      brelse (k + sb.bmapstart)
      bzero sb (k * BPB + bi)
      pure (k * BPB + bi)
    | none => do
      brelse (k + sb.bmapstart)
      ballocLoop sb ks

def balloc (sb : Super) : M ℕ := ballocLoop sb (List.range sb.nbitmap)

def bfree (sb : Super) (b : ℕ) : M Unit := do
  bread (sb.bblock b)
  let s ← Prog.get
  Prog.assert (s.used sb b = true) .freeingFree
  setBlock (sb.bblock b) fun d => clearBit d (b % BPB)
  log_write sb (sb.bblock b)
  brelse (sb.bblock b)

/-! ## The block map -/

/-- `ip->addrs[i]`, allocated if it is zero. -/
def direct (sb : Super) (ip i : ℕ) : M ℕ := do
  let s ← Prog.get
  if (s.inode ip).addrs i = 0 then do
    let addr ← balloc sb
    setAddr ip i addr
    pure addr
  else pure ((s.inode ip).addrs i)

/-- `a[i]` of the index block `b`, allocated if it is zero: the same steps at every level. -/
def indirect (sb : Super) (b i : ℕ) : M ℕ := do
  bread b
  let addr ← index b i
  if addr = 0 then do
    let addr ← balloc sb
    setBlock b fun d => setWord d i addr
    log_write sb b
    brelse b
    pure addr
  else do
    brelse b
    pure addr

def bmap (sb : Super) (ip bn : ℕ) : M ℕ :=
  if bn < NDIRECT then direct sb ip bn
  else
    let bn := bn - NDIRECT
    if bn < NINDIRECT then do
      let addr ← direct sb ip NDIRECT
      indirect sb addr bn
    else if bn < NINDIRECT * NINDIRECT then do
      let addr ← direct sb ip (NDIRECT + 1)
      let addr ← indirect sb addr (bn / NINDIRECT)
      indirect sb addr (bn % NINDIRECT)
    else if bn < NINDIRECT * NINDIRECT * NINDIRECT then do
      let addr ← direct sb ip (NDIRECT + 2)
      let addr ← indirect sb addr (bn / (NINDIRECT * NINDIRECT))
      let addr ← indirect sb addr (bn % (NINDIRECT * NINDIRECT) / NINDIRECT)
      indirect sb addr (bn % NINDIRECT)
    else Prog.throw .outOfRange

/-! ## Inodes on disk -/

/-- The dinode in the words of its block, from word `w` on. -/
def putDinode (d : Bytes) (w : ℕ) (x : Inode) : Bytes :=
  (List.range NADDRS).foldl (fun d i => setWord d (w + 3 + i) (x.addrs i))
    (setWord (setWord (setWord d w (x.type + x.major * 65536)) (w + 1) (x.minor + x.nlink * 65536)) (w + 2) x.size)

def iupdate (sb : Super) (ip : ℕ) : M Unit := do
  bread (sb.iblock ip)
  let s ← Prog.get
  setBlock (sb.iblock ip) fun d => putDinode d (ip % IPB * 16) (s.inode ip)
  log_write sb (sb.iblock ip)
  brelse (sb.iblock ip)

/-! ## Truncation -/

/-- `for (i …) if (ip->addrs[i])`. -/
def freeDirect (sb : Super) (ip : ℕ) : List ℕ → M Unit
  | [] => pure ()
  | i :: is => do
    let s ← Prog.get
    Prog.when ((s.inode ip).addrs i ≠ 0) do
      bfree sb ((s.inode ip).addrs i)
      setAddr ip i 0
    freeDirect sb ip is

/-- `for (j …) if (a[j]) bfree(a[j])`. -/
def freeEntries (sb : Super) (a : ℕ) : List ℕ → M Unit
  | [] => pure ()
  | j :: js => do
    let addr ← index a j
    Prog.when (addr ≠ 0) (bfree sb addr)
    freeEntries sb a js

/-- The loop over a double indirect block, and over the second level of a triple indirect block:
from `bp` and `a`, and with what they are afterwards. -/
def doubleLoop (sb : Super) : List ℕ → ℕ × ℕ → M (ℕ × ℕ)
  | [], v => pure v
  | i :: is, (bp, a) => do
    let addr ← index a i
    if addr = 0 then doubleLoop sb is (bp, a)
    else do
      bread addr
      freeEntries sb addr (List.range NINDIRECT)
      brelse addr
      -- `bp` and `a` are those of the inner block now
      let addr' ← index addr i
      bfree sb addr'
      doubleLoop sb is (addr, addr)

/-- The loop over a triple indirect block. -/
def tripleLoop (sb : Super) : List ℕ → ℕ × ℕ → M (ℕ × ℕ)
  | [], v => pure v
  | i :: is, (bp, a) => do
    let addr ← index a i
    if addr = 0 then tripleLoop sb is (bp, a)
    else do
      bread addr
      let (bp, a) ← doubleLoop sb (List.range NINDIRECT) (addr, addr)
      brelse bp
      let addr' ← index a i
      bfree sb addr'
      tripleLoop sb is (bp, a)

/-- The end of a level: its block is freed. -/
def freeRoot (sb : Super) (ip i bp : ℕ) : M Unit := do
  brelse bp
  let s ← Prog.get
  bfree sb ((s.inode ip).addrs i)
  setAddr ip i 0

def freeSingle (sb : Super) (ip : ℕ) : M Unit := do
  let s ← Prog.get
  let bp := (s.inode ip).addrs NDIRECT
  Prog.when (bp ≠ 0) do
    bread bp
    freeEntries sb bp (List.range NINDIRECT)
    freeRoot sb ip NDIRECT bp

def freeDouble (sb : Super) (ip : ℕ) : M Unit := do
  let s ← Prog.get
  let bp := (s.inode ip).addrs (NDIRECT + 1)
  Prog.when (bp ≠ 0) do
    bread bp
    let (bp, _) ← doubleLoop sb (List.range NINDIRECT) (bp, bp)
    freeRoot sb ip (NDIRECT + 1) bp

def freeTriple (sb : Super) (ip : ℕ) : M Unit := do
  let s ← Prog.get
  let bp := (s.inode ip).addrs (NDIRECT + 2)
  Prog.when (bp ≠ 0) do
    bread bp
    let (bp, _) ← tripleLoop sb (List.range NINDIRECT) (bp, bp)
    freeRoot sb ip (NDIRECT + 2) bp

def itrunc (sb : Super) (ip : ℕ) : M Unit := do
  freeDirect sb ip (List.range NDIRECT)
  freeSingle sb ip
  freeDouble sb ip
  freeTriple sb ip
  Prog.modify fun s => s.setInode ip fun x => { x with size := 0 }
  iupdate sb ip

end Xv6.Block
