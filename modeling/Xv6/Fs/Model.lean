import Xv6.Lib.Prog

/-!
# Inodes, directories and names

The inode cache, the inodes on disk, and what `fs.c` does with them. The content of an inode is
the list of its bytes: which blocks hold it is another module's matter.

`broken` says that the protocol of the inode cache was not kept: a field of an inode was looked
at without its lock or before it was read from disk (`examine`), or `namei` or `iput` was called
outside a transaction (`inside`).
-/

namespace Xv6.Fs

abbrev NPROC : ℕ := 64
abbrev NOFILE : ℕ := 16
abbrev NFILE : ℕ := 100
abbrev NINODE : ℕ := 50
abbrev NINODES : ℕ := 200
abbrev ROOTINO : ℕ := 1
abbrev DIRSIZ : ℕ := 14
abbrev BSIZE : ℕ := 512
abbrev NDIRECT : ℕ := 10
abbrev NINDIRECT : ℕ := 128
abbrev MAXFILE : ℕ := NDIRECT + NINDIRECT + NINDIRECT * NINDIRECT + NINDIRECT * NINDIRECT * NINDIRECT

/-- A process, by its slot in `ptable`. -/
abbrev Slot := Fin NPROC

/-- A `struct inode *`. -/
abbrev Iref := Fin NINODE

/-- A `struct file *`. -/
abbrev Fref := Fin NFILE

abbrev Fd := Fin NOFILE

abbrev Bytes := List UInt8

/-- What stops the kernel, or the process for good. -/
inductive Fault
  | iget | ilock | noType | iunlock | ialloc | bmap | brelse
  | notDir | dirlookupRead | dirlinkRead | dirlink | createDots | createDirlink
  | isdirempty | unlinkNlink | unlinkWritei | filedup | fileclose | tooLong
  | shortWrite | fileread | filewrite | initExiting
  /-- an address that is not mapped -/
  | trap
  /-- asleep for a lock that nobody will release -/
  | asleep
  deriving DecidableEq

inductive IType
  | free | dir | file | dev | symlink
  deriving DecidableEq

/-- An inode on disk, with its content. -/
structure Dinode where
  type : IType
  major : ℕ
  minor : ℕ
  nlink : ℤ
  data : Bytes

/-- An entry of the inode cache. -/
structure Inode where
  inum : ℕ
  ref : ℤ
  /-- who has the sleep lock -/
  lock : Option Slot
  valid : Bool
  /-- the copy of the inode on disk -/
  di : Dinode

inductive FdType
  | none | pipe | inode
  deriving DecidableEq

structure File where
  type : FdType
  ref : ℕ
  readable : Bool
  writable : Bool
  ip : Iref
  off : ℕ

inductive PState
  | unused | used | zombie
  deriving DecidableEq

/-- The file table and what the processes have of it. -/
structure Tables where
  file : Fref → File
  ofile : Slot → Fd → Option Fref
  cwd : Slot → Option Iref
  state : Slot → PState

structure State where
  disk : ℕ → Dinode
  inode : Iref → Inode
  tables : Tables
  /-- between `begin_op` and `end_op` -/
  inOp : Bool
  broken : Bool
  /-- the devices, by major number: what a read of so many bytes returns -/
  devsw : ℕ → Option (ℕ → Bytes)

abbrev M := Prog State Fault

def State.setInode (s : State) (ip : Iref) (f : Inode → Inode) : State :=
  { s with inode := Function.update s.inode ip (f (s.inode ip)) }

def State.setDisk (s : State) (inum : ℕ) (f : Dinode → Dinode) : State :=
  { s with disk := Function.update s.disk inum (f (s.disk inum)) }

def setInode (ip : Iref) (f : Inode → Inode) : M Unit := Prog.modify fun s => s.setInode ip f

def getInode (ip : Iref) : M Inode := do
  let s ← Prog.get
  pure (s.inode ip)

def begin_op : M Unit := Prog.modify fun s => { s with inOp := true }

def end_op : M Unit := Prog.modify fun s => { s with inOp := false }

/-! ## The protocol -/

/-- The process looks at the fields that the lock of `ip` protects. -/
def examine (p : Slot) (ip : Iref) : M Unit := Prog.modify fun s =>
  if (s.inode ip).lock = some p ∧ (s.inode ip).valid then s else { s with broken := true }

/-- The process calls what must run inside a transaction. -/
def inside : M Unit := Prog.modify fun s => if s.inOp then s else { s with broken := true }

/-! ## The inode cache -/

def iget (inum : ℕ) : M Iref := do
  let s ← Prog.get
  match (List.finRange NINODE).find? fun i => 0 < (s.inode i).ref ∧ (s.inode i).inum = inum with
  | some ip => do
    setInode ip fun x => { x with ref := x.ref + 1 }
    pure ip
  | none =>
    match (List.finRange NINODE).find? fun i => (s.inode i).ref = 0 with
    | none => Prog.throw .iget
    | some ip => do
      setInode ip fun x => { x with inum := inum, ref := 1, valid := false }
      pure ip

def idup (ip : Iref) : M Iref := do
  setInode ip fun x => { x with ref := x.ref + 1 }
  pure ip

/-- Nobody else runs who could release the lock. -/
def acquiresleep (p : Slot) (ip : Iref) : M Unit := do
  let x ← getInode ip
  if x.lock = none then setInode ip fun x => { x with lock := some p } else Prog.throw .asleep

def releasesleep (ip : Iref) : M Unit := setInode ip fun x => { x with lock := none }

def ilock (p : Slot) (ip : Iref) : M Unit := do
  let x ← getInode ip
  Prog.assert (1 ≤ x.ref) .ilock
  acquiresleep p ip
  if x.valid then pure ()
  else do
    let s ← Prog.get
    setInode ip fun y => { y with di := s.disk x.inum, valid := true }
    Prog.assert ((s.disk x.inum).type ≠ .free) .noType

def iunlock (p : Slot) (ip : Iref) : M Unit := do
  let x ← getInode ip
  Prog.assert (x.lock = some p ∧ 1 ≤ x.ref) .iunlock
  releasesleep ip

/-- Copy a modified in-memory inode to disk. -/
def iupdate (p : Slot) (ip : Iref) : M Unit := do
  examine p ip
  Prog.modify fun s => s.setDisk (s.inode ip).inum fun _ => (s.inode ip).di

/-- A file with blocks beyond the single indirect block makes `itrunc` release a buffer twice. -/
def itrunc (p : Slot) (ip : Iref) : M Unit := do
  examine p ip
  let x ← getInode ip
  Prog.assert (x.di.data.length ≤ (NDIRECT + NINDIRECT) * BSIZE) .brelse
  setInode ip fun x => { x with di := { x.di with data := [] } }
  iupdate p ip

def iput (p : Slot) (ip : Iref) : M Unit := do
  inside
  acquiresleep p ip
  let x ← getInode ip
  Prog.when (x.valid ∧ x.di.nlink = 0 ∧ x.ref = 1) do
    itrunc p ip
    setInode ip fun x => { x with di := { x.di with type := .free } }
    iupdate p ip
    setInode ip fun x => { x with valid := false }
  releasesleep ip
  setInode ip fun x => { x with ref := x.ref - 1 }

def iunlockput (p : Slot) (ip : Iref) : M Unit := do
  iunlock p ip
  iput p ip

def ialloc (type : IType) : M Iref := do
  let s ← Prog.get
  match (List.range' 1 (NINODES - 1)).find? fun inum => (s.disk inum).type = .free with
  | none => Prog.throw .ialloc
  | some inum => do
    Prog.modify fun s => s.setDisk inum fun _ => ⟨type, 0, 0, 0, []⟩
    iget inum

/-! ## Content -/

/-- Nothing for -1. -/
def readi (p : Slot) (ip : Iref) (off n : ℕ) : M (Option Bytes) := do
  examine p ip
  let s ← Prog.get
  let x := (s.inode ip).di
  if x.type = .dev then pure ((s.devsw x.major).map fun read => read n)
  else if x.data.length < off ∨ 2 ^ 32 ≤ off + n then pure none
  else pure (some ((x.data.drop off).take n))

/-- `data` with `bs` at `off`. -/
def splice (data : Bytes) (off : ℕ) (bs : Bytes) : Bytes := data.take off ++ bs ++ data.drop (off + bs.length)

/-- Nothing for -1. -/
def writei (p : Slot) (ip : Iref) (off : ℕ) (bs : Bytes) : M (Option ℕ) := do
  examine p ip
  let s ← Prog.get
  let x := (s.inode ip).di
  if x.type = .dev then pure ((s.devsw x.major).map fun _ => bs.length)
  else if x.data.length < off ∨ 2 ^ 32 ≤ off + bs.length ∨ MAXFILE * BSIZE < off + bs.length then pure none
  else do
    Prog.assert (bs = [] ∨ (off + bs.length - 1) / BSIZE < NDIRECT + NINDIRECT * NINDIRECT * NINDIRECT) .bmap
    let data := splice x.data off bs
    setInode ip fun y => { y with di := { y.di with data := data } }
    Prog.modify fun s => s.setDisk (s.inode ip).inum fun d => { d with data := data }
    Prog.when (x.data.length < off + bs.length) (iupdate p ip)
    pure (some bs.length)

/-! ## Directories -/

/-- A name in an entry, or in a path: at most `DIRSIZ` bytes, without NUL. -/
abbrev Name := Bytes

def direntSize : ℕ := 16

/-- `de.inum`. -/
def deInum (de : Bytes) : ℕ :=
  match de with
  | a :: b :: _ => a.toNat + 256 * b.toNat
  | _ => 0

/-- `de.name`, up to NUL. -/
def deName (de : Bytes) : Name := ((de.drop 2).take DIRSIZ).takeWhile (· ≠ 0)

/-- The entry `(name, inum)`. -/
def dirent (inum : ℕ) (name : Name) : Bytes :=
  [UInt8.ofNat (inum % 256), UInt8.ofNat (inum / 256 % 256)] ++
    (name.take DIRSIZ ++ List.replicate (DIRSIZ - name.length) 0)

/-- The offsets of the entries, from `off` on. -/
def offsets (size off : ℕ) : List ℕ :=
  (List.range' (off / direntSize) ((size + direntSize - 1) / direntSize - off / direntSize)).map (· * direntSize)

/-- The entry at `off`. -/
def readDirent (p : Slot) (dp : Iref) (off : ℕ) (e : Fault) : M Bytes := do
  match ← readi p dp off direntSize with
  | none => Prog.throw e
  | some de => do
    Prog.assert (de.length = direntSize) e
    pure de

/-- The loop of `dirlookup`. -/
def lookupLoop (p : Slot) (dp : Iref) (name : Name) : List ℕ → M (Option (Iref × ℕ))
  | [] => pure none
  | off :: offs => do
    let de ← readDirent p dp off .dirlookupRead
    if deInum de ≠ 0 ∧ deName de = name then do
      let ip ← iget (deInum de)
      pure (some (ip, off))
    else lookupLoop p dp name offs

/-- The inode and the offset of the entry. -/
def dirlookup (p : Slot) (dp : Iref) (name : Name) : M (Option (Iref × ℕ)) := do
  examine p dp
  let x ← getInode dp
  Prog.assert (x.di.type = .dir) .notDir
  lookupLoop p dp name (offsets x.di.data.length 0)

/-- The offset of an empty entry, or of the end. -/
def emptyLoop (p : Slot) (dp : Iref) (last : ℕ) : List ℕ → M ℕ
  | [] => pure last
  | off :: offs => do
    let de ← readDirent p dp off .dirlinkRead
    if deInum de = 0 then pure off else emptyLoop p dp last offs

/-- False for -1. -/
def dirlink (p : Slot) (dp : Iref) (name : Name) (inum : ℕ) : M Bool := do
  match ← dirlookup p dp name with
  | some (ip, _) => do
    iput p ip
    pure false
  | none => do
    examine p dp
    let x ← getInode dp
    let offs := offsets x.di.data.length 0
    let off ← emptyLoop p dp (offs.length * direntSize) offs
    let r ← writei p dp off (dirent inum name)
    Prog.assert (r = some direntSize) .dirlink
    pure true

/-! ## Paths -/

def slash : UInt8 := 47

/-- A path in memory: its bytes up to NUL, or, where it is torn, up to the end of the memory that is mapped. -/
structure Path where
  bytes : Bytes
  torn : Bool
  deriving DecidableEq

/-- The path with a NUL behind it. -/
@[coe]
def Path.whole (bytes : Bytes) : Path := ⟨bytes, false⟩

instance : Coe Bytes Path := ⟨Path.whole⟩

@[simp] theorem Path.whole_bytes (bytes : Bytes) : (Path.whole bytes).bytes = bytes := rfl

@[simp] theorem Path.whole_torn (bytes : Bytes) : (Path.whole bytes).torn = false := rfl

/-- The next path element, and what follows it. There is none either where a torn path ends before the byte that
follows. -/
def skipelem (path : Path) : Option (Name × Path) :=
  match path.bytes.dropWhile (· = slash) with
  | [] => none
  | b :: bytes =>
    let rest := ((b :: bytes).dropWhile (· ≠ slash)).dropWhile (· = slash)
    if path.torn ∧ rest = [] then none
    else some (((b :: bytes).takeWhile (· ≠ slash)).take DIRSIZ, ⟨rest, path.torn⟩)

/-- The elements that `skipelem` takes from the path, one after the other, at most `k`. -/
def elemsLoop : ℕ → Path → List Name
  | 0, _ => []
  | k + 1, path =>
    match skipelem path with
    | none => []
    | some (name, rest) => name :: elemsLoop k rest

def elems (path : Path) : List Name := elemsLoop path.bytes.length path

/-- The loop of `namex`, with the elements that are left. Behind the last of a torn path, `skipelem` reads what is not
mapped. -/
def walk (p : Slot) (parent torn : Bool) : List Name → Iref → M (Option (Iref × Name))
  | [], ip => do
    if torn then Prog.throw .trap
    else if parent then do
      iput p ip
      pure none
    else pure (some (ip, []))
  | name :: rest, ip => do
    ilock p ip
    examine p ip
    let x ← getInode ip
    if x.di.type ≠ .dir then do
      iunlockput p ip
      pure none
    else if parent ∧ torn = false ∧ rest = [] then do
      iunlock p ip
      pure (some (ip, name))
    else do
      match ← dirlookup p ip name with
      | none => do
        iunlockput p ip
        pure none
      | some (next, _) => do
        iunlockput p ip
        walk p parent torn rest next

/-- Where `namex` starts. -/
def start (p : Slot) (path : Path) : M Iref :=
  if path.bytes.head? = some slash then iget ROOTINO
  else if path.torn ∧ path.bytes = [] then Prog.throw .trap
  else do
    let s ← Prog.get
    match s.tables.cwd p with
    | none => Prog.throw .trap
    | some ip => idup ip

def namex (p : Slot) (path : Path) (parent : Bool) : M (Option (Iref × Name)) := do
  inside
  let ip ← start p path
  walk p parent path.torn (elems path) ip

def namei (p : Slot) (path : Path) : M (Option Iref) := do
  let r ← namex p path false
  pure (r.map Prod.fst)

def nameiparent (p : Slot) (path : Path) : M (Option (Iref × Name)) := namex p path true

end Xv6.Fs
