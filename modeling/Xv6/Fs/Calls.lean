import Xv6.Fs.Model
import Xv6.Lib.Machine

/-!
# System calls on files

`file.c` and `sysfile.c`, with `fork` and `exit` as far as files go, and the machine that makes
one call after the other.

* `argstr` gives a pointer into the memory of the process; `str` is the path that is there
  when the kernel looks at it.
* `sysSymlink` has two arrays on its stack, which `argstr` takes for pointers.
* `followLinks` is the loop of `sys_open` and `sys_exec`.
-/

namespace Xv6.Fs

abbrev MAX_PATH : BitVec 32 := 4096

abbrev O_WRONLY : BitVec 32 := 0x001
abbrev O_RDWR : BitVec 32 := 0x002
abbrev O_CREATE : BitVec 32 := 0x200
abbrev O_NOFOLLOW : BitVec 32 := 0x800

/-- `omode & flag`. -/
def has (omode flag : BitVec 32) : Bool := omode &&& flag ≠ 0

/-! ## Memory of the process -/

/-- The user memory of a process. -/
structure User where
  sz : ℕ
  byte : ℕ → UInt8

/-- The bytes from `addr` up to NUL, within `k` bytes. -/
def strFrom (byte : ℕ → UInt8) (addr : ℕ) : ℕ → Option Bytes
  | 0 => none
  | k + 1 => if byte addr = 0 then some [] else (strFrom byte (addr + 1) k).map (byte addr :: ·)

/-- The end of the last page. -/
def User.mapped (u : User) : ℕ := (u.sz + 4095) / 4096 * 4096

/-- An argument of a system call; nothing when `argint` fails. -/
abbrev Arg := Option (BitVec 32)

/-- `argstr`: the pointer, if it points to a string. -/
def argstr (u : User) (arg : Arg) : Option (BitVec 32) :=
  arg.filter fun addr => addr.toNat < u.sz ∧ (strFrom u.byte addr.toNat (u.sz - addr.toNat)).isSome

/-- The path at `addr`, as far as there is memory. -/
def str (u : User) (addr : BitVec 32) : Path :=
  match strFrom u.byte addr.toNat (u.mapped - addr.toNat) with
  | some bytes => bytes
  | none => ⟨(List.range' addr.toNat (u.mapped - addr.toNat)).map u.byte, true⟩

/-- The kernel writes to the memory of the process. -/
def User.write (u : User) (addr : BitVec 32) (bs : Bytes) : User :=
  { u with byte := fun a =>
      if addr.toNat ≤ a ∧ a < addr.toNat + bs.length then bs.getD (a - addr.toNat) 0 else u.byte a }

/-! ## Files -/

def State.setFile (s : State) (f : Fref) (g : File → File) : State :=
  { s with tables := { s.tables with file := Function.update s.tables.file f (g (s.tables.file f)) } }

def setFile (f : Fref) (g : File → File) : M Unit := Prog.modify fun s => s.setFile f g

def State.setOfile (s : State) (p : Slot) (fd : Fd) (f : Option Fref) : State :=
  { s with tables := { s.tables with
      ofile := Function.update s.tables.ofile p (Function.update (s.tables.ofile p) fd f) } }

def setOfile (p : Slot) (fd : Fd) (f : Option Fref) : M Unit := Prog.modify fun s => s.setOfile p fd f

def State.setCwd (s : State) (p : Slot) (ip : Option Iref) : State :=
  { s with tables := { s.tables with cwd := Function.update s.tables.cwd p ip } }

def setCwd (p : Slot) (ip : Option Iref) : M Unit := Prog.modify fun s => s.setCwd p ip

def State.setProc (s : State) (p : Slot) (st : PState) : State :=
  { s with tables := { s.tables with state := Function.update s.tables.state p st } }

def setProc (p : Slot) (st : PState) : M Unit := Prog.modify fun s => s.setProc p st

def filealloc : M (Option Fref) := do
  let s ← Prog.get
  match (List.finRange NFILE).find? fun f => (s.tables.file f).ref = 0 with
  | none => pure none
  | some f => do
    setFile f fun x => { x with ref := 1 }
    pure (some f)

def filedup (f : Fref) : M Unit := do
  let s ← Prog.get
  Prog.assert (1 ≤ (s.tables.file f).ref) .filedup
  setFile f fun x => { x with ref := x.ref + 1 }

def fileclose (p : Slot) (f : Fref) : M Unit := do
  let s ← Prog.get
  let ff := s.tables.file f
  Prog.assert (1 ≤ ff.ref) .fileclose
  if 1 < ff.ref then setFile f fun x => { x with ref := x.ref - 1 }
  else do
    setFile f fun x => { x with ref := 0, type := .none }
    if ff.type = .inode then do
      begin_op
      iput p ff.ip
      end_op
    else pure ()

/-- The loop of `filewrite`, with at most `k` chunks left. -/
def filewriteLoop (p : Slot) (f : Fref) : ℕ → Bytes → M Bool
  | 0, bs => pure (bs = [])
  | k + 1, bs =>
    if bs = [] then pure true
    else do
      let chunk := bs.take 1536
      begin_op
      let s ← Prog.get
      let ip := (s.tables.file f).ip
      ilock p ip
      let r ← writei p ip (s.tables.file f).off chunk
      setFile f fun x => { x with off := x.off + r.getD 0 }
      iunlock p ip
      end_op
      match r with
      | none => pure false
      | some r => do
        Prog.assert (r = chunk.length) .shortWrite
        filewriteLoop p f k (bs.drop 1536)

/-- `answer` is what `pipewrite` returns. -/
def filewrite (p : Slot) (f : Fref) (bs : Bytes) (answer : ℤ) : M ℤ := do
  let s ← Prog.get
  if (s.tables.file f).writable = false then pure (-1)
  else
    match (s.tables.file f).type with
    | .pipe => pure answer
    | .inode => do
      let done ← filewriteLoop p f bs.length bs
      pure (if done then bs.length else -1)
    | .none => Prog.throw .filewrite

/-- Nothing for -1; `answer` is what `piperead` returns. -/
def fileread (p : Slot) (f : Fref) (n : ℕ) (answer : Option Bytes) : M (Option Bytes) := do
  let s ← Prog.get
  if (s.tables.file f).readable = false then pure none
  else
    match (s.tables.file f).type with
    | .pipe => pure answer
    | .inode => do
      let ip := (s.tables.file f).ip
      ilock p ip
      let r ← readi p ip (s.tables.file f).off n
      setFile f fun x => { x with off := x.off + (r.getD []).length }
      iunlock p ip
      pure r
    | .none => Prog.throw .fileread

def filestat (p : Slot) (f : Fref) : M ℤ := do
  let s ← Prog.get
  if (s.tables.file f).type = .inode then do
    let ip := (s.tables.file f).ip
    ilock p ip
    examine p ip
    iunlock p ip
    pure 0
  else pure (-1)

/-- `mem` says that there is a page for the pipe. -/
def pipealloc (p : Slot) (mem : Bool) : M (Option (Fref × Fref)) := do
  match ← filealloc with
  | none => pure none
  | some f0 => do
    match ← filealloc with
    | none => do
      fileclose p f0
      pure none
    | some f1 =>
      if mem then do
        setFile f0 fun x => { x with type := .pipe, readable := true, writable := false }
        setFile f1 fun x => { x with type := .pipe, readable := false, writable := true }
        pure (some (f0, f1))
      else do
        fileclose p f0
        fileclose p f1
        pure none

def fdalloc (p : Slot) (f : Fref) : M (Option Fd) := do
  let s ← Prog.get
  match (List.finRange NOFILE).find? fun fd => s.tables.ofile p fd = none with
  | none => pure none
  | some fd => do
    setOfile p fd (some f)
    pure (some fd)

/-! ## System calls -/

def sysDup (p : Slot) (fd : Fd) : M ℤ := do
  let s ← Prog.get
  match s.tables.ofile p fd with
  | none => pure (-1)
  | some f => do
    match ← fdalloc p f with
    | none => pure (-1)
    | some fd' => do
      filedup f
      pure fd'.val

def sysRead (p : Slot) (fd : Fd) (n : ℕ) (answer : Option Bytes) : M ℤ := do
  let s ← Prog.get
  match s.tables.ofile p fd with
  | none => pure (-1)
  | some f => do
    let r ← fileread p f n answer
    pure (r.elim (-1) fun bs => bs.length)

def sysWrite (p : Slot) (fd : Fd) (bs : Bytes) (answer : ℤ) : M ℤ := do
  let s ← Prog.get
  match s.tables.ofile p fd with
  | none => pure (-1)
  | some f => filewrite p f bs answer

def sysClose (p : Slot) (fd : Fd) : M ℤ := do
  let s ← Prog.get
  match s.tables.ofile p fd with
  | none => pure (-1)
  | some f => do
    setOfile p fd none
    fileclose p f
    pure 0

def sysFstat (p : Slot) (fd : Fd) : M ℤ := do
  let s ← Prog.get
  match s.tables.ofile p fd with
  | none => pure (-1)
  | some f => filestat p f

/-- `bad` in `sys_link`. -/
def linkBad (p : Slot) (ip : Iref) : M ℤ := do
  ilock p ip
  examine p ip
  setInode ip fun x => { x with di := { x.di with nlink := x.di.nlink - 1 } }
  iupdate p ip
  iunlockput p ip
  end_op
  pure (-1)

def sysLink (p : Slot) (u : User) (old new : Arg) : M ℤ :=
  match argstr u old, argstr u new with
  | some old, some new => do
    begin_op
    let oldPath := str u old
    match ← namei p oldPath with
    | none => do
      end_op
      pure (-1)
    | some ip => do
      ilock p ip
      examine p ip
      let x ← getInode ip
      if x.di.type = .dir then do
        iunlockput p ip
        end_op
        pure (-1)
      else do
        setInode ip fun x => { x with di := { x.di with nlink := x.di.nlink + 1 } }
        iupdate p ip
        iunlock p ip
        let newPath := str u new
        match ← nameiparent p newPath with
        | none => linkBad p ip
        | some (dp, name) => do
          ilock p dp
          if ← dirlink p dp name x.inum then do
            iunlockput p dp
            iput p ip
            end_op
            pure 0
          else do
            iunlockput p dp
            linkBad p ip
  | _, _ => pure (-1)

/-- The loop of `isdirempty`. -/
def emptyDirLoop (p : Slot) (dp : Iref) : List ℕ → M Bool
  | [] => pure true
  | off :: offs => do
    let de ← readDirent p dp off .isdirempty
    if deInum de ≠ 0 then pure false else emptyDirLoop p dp offs

def isdirempty (p : Slot) (dp : Iref) : M Bool := do
  examine p dp
  let x ← getInode dp
  emptyDirLoop p dp (offsets x.di.data.length (2 * direntSize))

/-- `sys_unlink`, once the entry is found. -/
def unlinkEntry (p : Slot) (dp ip : Iref) (off : ℕ) : M ℤ := do
  let r ← writei p dp off (List.replicate direntSize 0)
  Prog.assert (r = some direntSize) .unlinkWritei
  examine p ip
  let x ← getInode ip
  Prog.when (x.di.type = .dir) do
    examine p dp
    setInode dp fun x => { x with di := { x.di with nlink := x.di.nlink - 1 } }
    iupdate p dp
  iunlockput p dp
  setInode ip fun x => { x with di := { x.di with nlink := x.di.nlink - 1 } }
  iupdate p ip
  iunlockput p ip
  end_op
  pure 0

def sysUnlink (p : Slot) (u : User) (path : Arg) : M ℤ :=
  match argstr u path with
  | none => pure (-1)
  | some path => do
    begin_op
    let path := str u path
    match ← nameiparent p path with
    | none => do
      end_op
      pure (-1)
    | some (dp, name) => do
      ilock p dp
      let bad : M ℤ := do
        iunlockput p dp
        end_op
        pure (-1)
      if name = [46] ∨ name = [46, 46] then bad
      else do
        match ← dirlookup p dp name with
        | none => bad
        | some (ip, off) => do
          ilock p ip
          examine p ip
          let x ← getInode ip
          Prog.assert (1 ≤ x.di.nlink) .unlinkNlink
          let empty ← (if x.di.type = .dir then isdirempty p ip else pure true : M Bool)
          if empty then unlinkEntry p dp ip off
          else do
            iunlockput p ip
            bad

/-- The inode is locked. -/
def create (p : Slot) (path : Path) (type : IType) (major minor : ℕ) : M (Option Iref) := do
  match ← nameiparent p path with
  | none => pure none
  | some (dp, name) => do
    ilock p dp
    match ← dirlookup p dp name with
    | some (ip, _) => do
      iunlockput p dp
      ilock p ip
      examine p ip
      let x ← getInode ip
      if type = .file ∧ x.di.type = .file ∨ type = .symlink then pure (some ip)
      else do
        iunlockput p ip
        pure none
    | none => do
      let ip ← ialloc type
      ilock p ip
      setInode ip fun x => { x with di := { x.di with major := major, minor := minor, nlink := 1 } }
      iupdate p ip
      let x ← getInode ip
      let y ← getInode dp
      Prog.when (type = .dir) do
        -- for ".."
        examine p dp
        setInode dp fun x => { x with di := { x.di with nlink := x.di.nlink + 1 } }
        iupdate p dp
        let dot ← dirlink p ip [46] x.inum
        Prog.assert (dot = true) .createDots
        let dots ← dirlink p ip [46, 46] y.inum
        Prog.assert (dots = true) .createDots
      let linked ← dirlink p dp name x.inum
      Prog.assert (linked = true) .createDirlink
      iunlockput p dp
      pure (some ip)

/-- The bytes of an address, or of an `int`. -/
def wordBytes (a : BitVec 32) : Bytes :=
  [UInt8.ofNat (a.toNat % 256), UInt8.ofNat (a.toNat / 256 % 256), UInt8.ofNat (a.toNat / 65536 % 256),
    UInt8.ofNat (a.toNat / 16777216)]

/-- A path on the kernel stack. -/
def stackPath (stack : Bytes) : Path :=
  if (0 : UInt8) ∈ stack then (stack.takeWhile (· ≠ 0) : Bytes) else ⟨stack, true⟩

/-- A string on the kernel stack. -/
def stackStr (stack : Bytes) : M Bytes :=
  if (0 : UInt8) ∈ stack then pure (stack.takeWhile (· ≠ 0)) else Prog.throw .trap

/-- `targetRest` and `pathRest` are on the stack above the pointers that `argstr` stores in
`target` and `path`. -/
def sysSymlink (p : Slot) (u : User) (target path : Arg) (targetRest pathRest : Bytes) : M ℤ :=
  match argstr u target, argstr u path with
  | some target, some path => do
    begin_op
    let path := stackPath (wordBytes path ++ pathRest)
    match ← create p path .symlink 0 0 with
    | none => do
      end_op
      pure (-1)
    | some ip => do
      let target ← stackStr (wordBytes target ++ targetRest)
      let _ ← writei p ip 0 (wordBytes (BitVec.ofNat 32 target.length))
      let _ ← writei p ip 4 (target ++ [0])
      iupdate p ip
      iunlockput p ip
      end_op
      pure 0
  | _, _ => pure (-1)

/-- `len`, when `bs` was read into it. -/
def linkLen (bs : Bytes) : BitVec 32 :=
  BitVec.ofNat 32 ((bs.getD 0 0).toNat + 256 * (bs.getD 1 0).toNat + 65536 * (bs.getD 2 0).toNat +
    16777216 * (bs.getD 3 0).toNat)

/-- The loop over symlinks, with `k` rounds left: nothing if there is no such name. -/
def followLinks (p : Slot) (path : BitVec 32) : ℕ → User → Iref → M (Option (User × Iref × ℕ))
  | 0, u, ip => do
    examine p ip
    pure (some (u, ip, 0))
  | k + 1, u, ip => do
    examine p ip
    let x ← getInode ip
    if x.di.type ≠ .symlink then pure (some (u, ip, k + 1))
    else do
      let head ← readi p ip 0 4
      let len := linkLen (head.getD [])
      Prog.assert (BitVec.slt MAX_PATH len = false) .tooLong
      let bs ← readi p ip 4 (len + 1).toNat
      let u := u.write path (bs.getD [])
      Prog.assert (path.toNat + (bs.getD []).length ≤ u.mapped) .trap
      iunlockput p ip
      let next := str u path
      match ← namei p next with
      | none => pure none
      | some ip => do
        ilock p ip
        followLinks p path k u ip

/-- The end of `sys_open`, with `ip` locked. -/
def openFile (p : Slot) (omode : BitVec 32) (ip : Iref) : M ℤ := do
  let bad : M ℤ := do
    iunlockput p ip
    end_op
    pure (-1)
  match ← filealloc with
  | none => bad
  | some f => do
    match ← fdalloc p f with
    | none => do
      fileclose p f
      bad
    | some fd => do
      iunlock p ip
      end_op
      setFile f fun x => { x with
        type := .inode, ip := ip, off := 0, readable := !has omode O_WRONLY,
        writable := has omode O_WRONLY || has omode O_RDWR }
      pure fd.val

def sysOpen (p : Slot) (u : User) (path : Arg) (omode : BitVec 32) : M ℤ :=
  match argstr u path with
  | none => pure (-1)
  | some path => do
    begin_op
    let name := str u path
    if has omode O_CREATE then do
      match ← create p name .file 0 0 with
      | none => do
        end_op
        pure (-1)
      | some ip => openFile p omode ip
    else do
      match ← namei p name with
      | none => do
        end_op
        pure (-1)
      | some ip => do
        ilock p ip
        examine p ip
        let x ← getInode ip
        if x.di.type = .dir ∧ omode ≠ 0 then do
          iunlockput p ip
          end_op
          pure (-1)
        else if x.di.type = .symlink ∧ has omode O_NOFOLLOW then do
          match ← followLinks p path 5 u ip with
          | none => do
            end_op
            pure (-1)
          | some (_, ip, k) =>
            if k = 0 then do
              iunlockput p ip
              end_op
              pure (-1)
            else openFile p omode ip
        else openFile p omode ip

/-- `sys_mkdir` and `sys_mknod`. -/
def makeNode (p : Slot) (u : User) (path : Arg) (type : IType) (major minor : ℕ) : M ℤ := do
  begin_op
  match argstr u path with
  | none => do
    end_op
    pure (-1)
  | some path => do
    let path := str u path
    match ← create p path type major minor with
    | none => do
      end_op
      pure (-1)
    | some ip => do
      iunlockput p ip
      end_op
      pure 0

def sysMkdir (p : Slot) (u : User) (path : Arg) : M ℤ := makeNode p u path .dir 0 0

def sysMknod (p : Slot) (u : User) (path : Arg) (major minor : ℕ) : M ℤ := makeNode p u path .dev major minor

def sysChdir (p : Slot) (u : User) (path : Arg) : M ℤ := do
  begin_op
  match argstr u path with
  | none => do
    end_op
    pure (-1)
  | some path => do
    let path := str u path
    match ← namei p path with
    | none => do
      end_op
      pure (-1)
    | some ip => do
      ilock p ip
      examine p ip
      let x ← getInode ip
      if x.di.type ≠ .dir then do
        iunlockput p ip
        end_op
        pure (-1)
      else do
        iunlock p ip
        let s ← Prog.get
        match s.tables.cwd p with
        | none => Prog.throw .trap
        | some cwd => do
          iput p cwd
          end_op
          setCwd p (some ip)
          pure 0

/-- `exec`, as far as inodes go: it reads the program and puts the inode back, whether it is a
program or not. -/
def exec (p : Slot) (path : Path) : M ℤ := do
  begin_op
  match ← namei p path with
  | none => do
    end_op
    pure (-1)
  | some ip => do
    ilock p ip
    let _ ← readi p ip 0 52
    iunlockput p ip
    end_op
    pure 0

/-- `argv` says that the pointers and strings of the second argument can be read. -/
def sysExec (p : Slot) (u : User) (path : Arg) (argv : Bool) : M ℤ :=
  match argstr u path with
  | none => pure (-1)
  | some path => do
    let name := str u path
    match ← namei p name with
    | none => pure (-1)
    | some ip => do
      examine p ip
      match ← followLinks p path 5 u ip with
      | none => pure (-1)
      | some (u, ip, k) =>
        if k = 0 then do
          iunlockput p ip
          pure (-1)
        else if argv = false then pure (-1)
        else do
          let name := str u path
          exec p name

/-- The files of the child; the rest of `fork` is another module's matter. -/
def forkFiles (p np : Slot) : M Unit := do
  (List.finRange NOFILE).forM fun fd => do
    let s ← Prog.get
    match s.tables.ofile p fd with
    | none => pure ()
    | some f => do
      filedup f
      setOfile np fd (some f)
  let s ← Prog.get
  match s.tables.cwd p with
  | none => Prog.throw .trap
  | some ip => do
    let ip ← idup ip
    setCwd np (some ip)

def fork (p : Slot) : M ℤ := do
  let s ← Prog.get
  match (List.finRange NPROC).find? fun q => s.tables.state q = .unused with
  | none => pure (-1)
  | some np => do
    forkFiles p np
    setProc np .used
    pure 1

def initproc : Slot := 0

def exit (p : Slot) : M ℤ := do
  Prog.assert (p ≠ initproc) .initExiting
  (List.finRange NOFILE).forM fun fd => do
    let s ← Prog.get
    match s.tables.ofile p fd with
    | none => pure ()
    | some f => do
      fileclose p f
      setOfile p fd none
  let s ← Prog.get
  match s.tables.cwd p with
  | none => Prog.throw .trap
  | some ip => do
    begin_op
    iput p ip
    end_op
    setCwd p none
    setProc p .zombie
    pure 0

/-- `wait` finds the zombie `q`. -/
def reap (q : Slot) : M ℤ := do
  let s ← Prog.get
  if s.tables.state q = .zombie then do
    setProc q .unused
    pure q.val
  else pure (-1)

/-- `fds` says that the argument points to two integers. -/
def sysPipe (p : Slot) (fds mem : Bool) : M ℤ :=
  if fds = false then pure (-1)
  else do
    match ← pipealloc p mem with
    | none => pure (-1)
    | some (rf, wf) => do
      match ← fdalloc p rf with
      | none => do
        fileclose p rf
        fileclose p wf
        pure (-1)
      | some fd0 => do
        match ← fdalloc p wf with
        | none => do
          setOfile p fd0 none
          fileclose p rf
          fileclose p wf
          pure (-1)
        | some _ => pure 0

/-! ## The machine -/

inductive Call
  | open (path : Arg) (omode : BitVec 32)
  | symlink (target path : Arg) (targetRest pathRest : Bytes)
  | close (fd : Fd)
  | dup (fd : Fd)
  | read (fd : Fd) (n : ℕ) (answer : Option Bytes)
  | write (fd : Fd) (bs : Bytes) (answer : ℤ)
  | fstat (fd : Fd)
  | pipe (fds mem : Bool)
  | link (old new : Arg)
  | unlink (path : Arg)
  | mkdir (path : Arg)
  | mknod (path : Arg) (major minor : ℕ)
  | chdir (path : Arg)
  | exec (path : Arg) (argv : Bool)
  | fork
  | exit
  | reap (q : Slot)

/-- The call, made by process `p` with memory `u`. -/
def Call.run (p : Slot) (u : User) : Call → M ℤ
  | .open path omode => sysOpen p u path omode
  | .symlink target path targetRest pathRest => sysSymlink p u target path targetRest pathRest
  | .close fd => sysClose p fd
  | .dup fd => sysDup p fd
  | .read fd n answer => sysRead p fd n answer
  | .write fd bs answer => sysWrite p fd bs answer
  | .fstat fd => sysFstat p fd
  | .pipe fds mem => sysPipe p fds mem
  | .link old new => sysLink p u old new
  | .unlink path => sysUnlink p u path
  | .mkdir path => sysMkdir p u path
  | .mknod path major minor => sysMknod p u path major minor
  | .chdir path => sysChdir p u path
  | .exec path argv => sysExec p u path argv
  | .fork => Fs.fork p
  | .exit => Fs.exit p
  | .reap q => Fs.reap q

/-- A call, with who makes it. -/
structure Event where
  proc : Slot
  user : User
  call : Call

def step (s : State) (e : Event) : Option (Except Fault State) :=
  if s.tables.state e.proc = .used then
    match (e.call.run e.proc e.user) s with
    | (.ok _, s') => some (.ok s')
    | (.error f, _) => some (.error f)
  else none

def machine : Machine State Event Fault := ⟨step⟩

end Xv6.Fs
