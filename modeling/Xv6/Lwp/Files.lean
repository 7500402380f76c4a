import Xv6.Lwp.Model

/-!
# Files of `project2`

`file.c`, and what `sysfile.c`, `pipe.c`, `proc.c` and `pthread.c` do with descriptors and
working directories: the file table with its reference counts, the descriptors and the
working directory of every slot, and the references of inodes.

The file system machine runs the kernel of `Xv6.Lwp.Model`, with what its events do to
files, and the system calls on descriptors. A call on files is one event: `exit` closes
the files of a process when it turns it into a zombie, `fork` duplicates them when it fills
the new slot in, and `thread_create` between its two critical sections, where other
processes run: until then it keeps `curproc`, the thread whose files it takes, on its
stack. `namei` has found or made the inode of `open` and `chdir`. Offsets, modes and the
contents of files and pipes are left out.
-/

namespace Xv6.Lwp

abbrev NOFILE : ℕ := 16

abbrev NFILE : ℕ := 100

/-- A file descriptor. -/
abbrev Fd := Fin NOFILE

/-- An entry of `ftable.file`. -/
abbrev File := Fin NFILE

/-- An in-memory inode. -/
abbrev Inode := ℕ

inductive FileType
  | none
  | pipe
  | inode (ip : Inode)
  deriving DecidableEq

structure FileEntry where
  type : FileType
  ref : ℤ

structure Files where
  file : File → FileEntry
  ofile : Slot × Fd → Option File
  cwd : Slot → Option Inode
  /-- `ip->ref` -/
  iref : Inode → ℤ

inductive FileFault
  | proc (f : Fault)
  /-- panic("filedup") -/
  | filedup
  /-- panic("fileclose") -/
  | fileclose
  /-- an access through a null pointer -/
  | nullDeref
  deriving DecidableEq

namespace Files

def setFile (x : Files) (f : File) (e : FileEntry) : Files := { x with file := Function.update x.file f e }

def setOfile (x : Files) (p : Slot) (fd : Fd) (f : Option File) : Files :=
  { x with ofile := Function.update x.ofile (p, fd) f }

def setCwd (x : Files) (p : Slot) (ip : Option Inode) : Files :=
  { x with cwd := Function.update x.cwd p ip }

/-- `iget` and `idup`. -/
def iget (x : Files) (ip : Inode) : Files := { x with iref := Function.update x.iref ip (x.iref ip + 1) }

def iput (x : Files) (ip : Inode) : Files := { x with iref := Function.update x.iref ip (x.iref ip - 1) }

def filealloc (x : Files) : Option (File × Files) :=
  ((List.finRange NFILE).find? fun f => (x.file f).ref = 0).map fun f =>
    (f, x.setFile f { x.file f with ref := 1 })

def filedup (x : Files) (f : File) : Except FileFault Files :=
  if (x.file f).ref < 1 then .error .filedup
  else .ok (x.setFile f { x.file f with ref := (x.file f).ref + 1 })

/-- The inode or the pipe of a file that was closed for the last time. -/
def release (x : Files) : FileType → Files
  | .inode ip => x.iput ip
  | _ => x

def fileclose (x : Files) (f : File) : Except FileFault Files :=
  if (x.file f).ref < 1 then .error .fileclose
  else if (x.file f).ref - 1 > 0 then .ok (x.setFile f { x.file f with ref := (x.file f).ref - 1 })
  else .ok ((x.setFile f ⟨.none, 0⟩).release (x.file f).type)

def fdalloc (x : Files) (p : Slot) (f : File) : Option Files :=
  ((List.finRange NOFILE).find? fun fd => x.ofile (p, fd) = Option.none).map fun fd => x.setOfile p fd (some f)

def sysDup (x : Files) (p : Slot) (fd : Fd) : Except FileFault Files :=
  match x.ofile (p, fd) with
  | Option.none => .ok x
  | some f =>
    match x.fdalloc p f with
    | Option.none => .ok x
    | some x' => x'.filedup f

def sysClose (x : Files) (p : Slot) (fd : Fd) : Except FileFault Files :=
  match x.ofile (p, fd) with
  | Option.none => .ok x
  | some f => (x.setOfile p fd Option.none).fileclose f

/-- `sys_open` once `namei` or `create` has returned `ip`. -/
def sysOpen (x : Files) (p : Slot) (ip : Inode) : Except FileFault Files :=
  let x := x.iget ip
  match x.filealloc with
  | Option.none => .ok (x.iput ip)
  | some (f, x) =>
    match x.fdalloc p f with
    | Option.none => (x.fileclose f).map fun x => x.iput ip
    | some x => .ok (x.setFile f { x.file f with type := .inode ip })

/-- `pipealloc`; `page` says that `kalloc` finds a page. -/
def pipealloc (x : Files) (page : Bool) : Except FileFault (Files × Option (File × File)) :=
  match x.filealloc with
  | Option.none => .ok (x, Option.none)
  | some (f0, x) =>
    match x.filealloc with
    | Option.none => (x.fileclose f0).map fun x => (x, Option.none)
    | some (f1, x) =>
      if page then
        .ok ((x.setFile f0 { x.file f0 with type := .pipe }).setFile f1 { x.file f1 with type := .pipe },
          some (f0, f1))
      else do
        let x ← x.fileclose f0
        let x ← x.fileclose f1
        .ok (x, Option.none)

def sysPipe (x : Files) (p : Slot) (page : Bool) : Except FileFault Files := do
  match ← x.pipealloc page with
  | (x, Option.none) => .ok x
  | (x, some (rf, wf)) =>
    match (List.finRange NOFILE).find? fun fd => x.ofile (p, fd) = Option.none with
    | Option.none => do
      let x ← x.fileclose rf
      x.fileclose wf
    | some fd0 =>
      let x := x.setOfile p fd0 (some rf)
      match x.fdalloc p wf with
      | some x => .ok x
      | Option.none => do
        let x ← (x.setOfile p fd0 Option.none).fileclose rf
        x.fileclose wf

/-- `iput(curproc->cwd)`. -/
def putCwd (x : Files) (p : Slot) : Except FileFault Files :=
  match x.cwd p with
  | Option.none => .error .nullDeref
  | some ip => .ok (x.iput ip)

/-- `sys_chdir` to a directory. -/
def sysChdir (x : Files) (p : Slot) (ip : Inode) : Except FileFault Files := do
  let x ← (x.iget ip).putCwd p
  .ok (x.setCwd p (some ip))

/-- The body of the loop that closes the files of a process. -/
def closeFd (p : Slot) (x : Files) (fd : Fd) : Except FileFault Files :=
  match x.ofile (p, fd) with
  | Option.none => .ok x
  | some f => (x.fileclose f).map fun x => x.setOfile p fd Option.none

/-- What `exit` and `thread_exit` do to the files of a process. -/
def closeAll (x : Files) (p : Slot) : Except FileFault Files := do
  let x ← (List.finRange NOFILE).foldlM (closeFd p) x
  let x ← x.putCwd p
  .ok (x.setCwd p Option.none)

/-- The body of the loop that duplicates the files of a process. -/
def dupFd (p np : Slot) (x : Files) (fd : Fd) : Except FileFault Files :=
  match x.ofile (p, fd) with
  | Option.none => .ok x
  | some f => (x.filedup f).map fun x => x.setOfile np fd (some f)

/-- What `fork` and `thread_create` do to the files of the new process. -/
def dupAll (x : Files) (p np : Slot) : Except FileFault Files := do
  let x ← (List.finRange NOFILE).foldlM (dupFd p np) x
  match x.cwd p with
  | Option.none => .error .nullDeref
  | some ip => .ok ((x.iget ip).setCwd np (some ip))

end Files

variable {n : ℕ}

/-- The kernel and its files. -/
structure FState (n : ℕ) where
  kernel : State n
  files : Files
  /-- on the stack of a process in `thread_create`, from its critical section until the LWP has its files: `curproc` -/
  curproc : Stack → Option Slot

inductive FEvent (n : ℕ)
  | proc (e : Event n)
  /-- `thread_create` gives the LWP its files and its working directory -/
  | dupFiles (c : Fin n)
  | sysOpen (c : Fin n) (ip : Inode)
  | sysDup (c : Fin n) (fd : Fd)
  | sysClose (c : Fin n) (fd : Fd)
  | sysPipe (c : Fin n) (page : Bool)
  | sysChdir (c : Fin n) (ip : Inode)

/-- What an event of the kernel, in the state before it, does to the files. -/
def Files.event (x : Files) (s : State n) : Event n → Except FileFault Files
  | .exit c | .threadExit c _ =>
    match s.user c with
    | some p => x.closeAll p
    | none => .ok x
  | .forkCopy c true =>
    match s.current c with
    | some (p, ⟨.fork np, _⟩) => x.dupAll p np
    | _ => .ok x
  | _ => .ok x

/-- `curproc` after an event of the kernel, with the state after it: the main thread, once `thread_create` has filled
the LWP in. -/
def FState.creators (s : FState n) (k : State n) : Event n → Stack → Option Slot
  | .threadMap c _ _ =>
    match s.kernel.current c, k.current c with
    | some (p, _), some (_, ⟨.created _, _⟩) =>
      Function.update s.curproc (s.kernel.cpu c).stack (s.kernel.proc.main p)
    | _, _ => s.curproc
  | _ => s.curproc

/-- `thread_create` makes the LWP `RUNNABLE` when it has its files. -/
def FState.Permits (s : FState n) : Event n → Prop
  | .threadReady c => s.curproc (s.kernel.cpu c).stack = none
  | _ => True

instance (s : FState n) (e : Event n) : Decidable (s.Permits e) := by
  unfold FState.Permits; rcases e with ⟨⟩ <;> infer_instance

/-- A system call on files of the process that `c` runs. -/
def FState.call (s : FState n) (c : Fin n) (f : Files → Slot → Except FileFault Files) :
    Option (Except FileFault (FState n)) :=
  (s.kernel.user c).map fun p => (f s.files p).map fun x => { s with files := x }

def fstep (s : FState n) : FEvent n → Option (Except FileFault (FState n))
  | .proc e =>
    if s.Permits e then
      match step s.kernel e with
      | none => none
      | some (.error f) => some (.error (.proc f))
      | some (.ok k) => some ((s.files.event s.kernel e).map fun x => ⟨k, x, s.creators k e⟩)
    else none
  | .dupFiles c =>
    match s.kernel.current c with
    | some (_, ⟨.created thrd, false⟩) =>
      (s.curproc (s.kernel.cpu c).stack).map fun curproc =>
        (s.files.dupAll curproc thrd).map fun x =>
          { s with files := x, curproc := Function.update s.curproc (s.kernel.cpu c).stack none }
    | _ => none
  | .sysOpen c ip => s.call c fun x p => x.sysOpen p ip
  | .sysDup c fd => s.call c fun x p => x.sysDup p fd
  | .sysClose c fd => s.call c fun x p => x.sysClose p fd
  | .sysPipe c page => s.call c fun x p => x.sysPipe p page
  | .sysChdir c ip => s.call c fun x p => x.sysChdir p ip

def fmachine (n : ℕ) : Machine (FState n) (FEvent n) FileFault := ⟨fstep⟩

/-- The inode of `/`. -/
def rootInode : Inode := 1

/-- After `userinit`: the first process has no file and is in `/`. -/
def fboot (n : ℕ) : FState n where
  kernel := boot n
  files := {
    file := fun _ => ⟨.none, 0⟩
    ofile := fun _ => none
    cwd := fun p => if p = initproc then some rootInode else none
    iref := fun ip => if ip = rootInode then 1 else 0 }
  curproc _ := none

end Xv6.Lwp
