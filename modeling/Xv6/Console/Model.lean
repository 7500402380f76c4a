import Xv6.Lib.Bytes
import Xv6.Lib.Machine
import Xv6.Lib.Ring

/-!
# Console input

`consoleintr` and `consoleread` of `console.c`, for any number of processes that read. What happens under `cons.lock` is
one event: an interrupt with the keys it finds, and what a read does until it returns or sleeps. A sleeper that goes
on tests `input.r == input.w` again, so who wakes it is left open.

`Dev` is what keys and reads do to the input. `console` is the ring buffer of the source; the line discipline that it
implements is another.

History variables: `entered` are the bytes that `input.w` has passed, `taken` those that `input.r` has passed, with the
process that took them, and `returns` are the calls that have returned.
-/

namespace Xv6.Console

abbrev INPUT_BUF : ℕ := 128

instance : NeZero INPUT_BUF := ⟨by decide⟩

/-- `C(x)` -/
def C (x : Char) : Byte := BitVec.ofNat 8 (x.toNat - '@'.toNat)

def newline : Byte := 10

def carriage : Byte := 13

def delete : Byte := 127

structure Input where
  buf : Fin INPUT_BUF → Byte
  r : BitVec 32
  w : BitVec 32
  e : BitVec 32

/-- Where a read stops: it returns, or it sleeps with `n` bytes to go. -/
inductive Outcome
  | done (dst : List Byte)
  | asleep (n : ℕ) (dst : List Byte)

/-! ## The source -/

/-- The loop of `C('U')`, for at most the bytes from `w` to `e`. -/
def killLoop : ℕ → Input → Input
  | 0, x => x
  | k + 1, x =>
    if x.e ≠ x.w ∧ x.buf (Ring.slot (x.e - 1#32)) ≠ newline then killLoop k { x with e := x.e - 1#32 } else x

def Input.store (x : Input) (c : Byte) : Input :=
  { x with buf := Function.update x.buf (Ring.slot x.e) c, e := x.e + 1#32 }

/-- The default case of `consoleintr`, for the byte that is stored. -/
def Input.put (x : Input) (c : Byte) : Input :=
  if c = newline ∨ c = C 'D' ∨ x.e + 1#32 = x.r + 128#32 then { x.store c with w := (x.store c).e } else x.store c

/-- The switch of `consoleintr`. -/
def Input.key (x : Input) (c : Byte) : Input :=
  if c = C 'P' then x
  else if c = C 'U' then killLoop (Ring.held x.w x.e) x
  else if c = C 'H' ∨ c = delete then if x.e ≠ x.w then { x with e := x.e - 1#32 } else x
  else if c ≠ 0 ∧ x.e - x.r < 128#32 then x.put (if c = carriage then newline else c)
  else x

/-- The loop of `consoleread`. -/
def Input.read (target : ℕ) : ℕ → Input → List Byte → Input × Outcome
  | 0, x, dst => (x, .done dst)
  | n + 1, x, dst =>
    if x.r = x.w then (x, .asleep (n + 1) dst)
    else
      let c := x.buf (Ring.slot x.r)
      let x := { x with r := x.r + 1#32 }
      if c = C 'D' then
        -- save ^D for next time
        if n + 1 < target then ({ x with r := x.r - 1#32 }, .done dst) else (x, .done dst)
      else if c = newline then (x, .done (dst ++ [c]))
      else Input.read target n x (dst ++ [c])

/-! ## The machine -/

/-- What keys and reads do to an input, and the bytes that are there for a read. -/
structure Dev (I : Type*) where
  key : I → Byte → I
  read : ℕ → ℕ → I → List Byte → I × Outcome
  ready : I → List Byte

def Input.ready (x : Input) : List Byte := Ring.items x.buf x.r x.w

def console : Dev Input := ⟨Input.key, Input.read, Input.ready⟩

/-- A call of `consoleread`: the bytes it was asked for, those to go, and those it has. -/
structure Reading where
  target : ℕ
  n : ℕ
  dst : List Byte

/-- A call that has returned. -/
structure Return (P : Type*) where
  proc : P
  target : ℕ
  dst : List Byte
  ret : ℤ

structure State (I P : Type*) where
  input : I
  reading : P → Option Reading
  killed : P → Bool
  returns : List (Return P)
  entered : List Byte
  taken : List (P × Byte)

inductive Event (P : Type*)
  | consoleintr (keys : List Byte)
  | consoleread (p : P) (n : ℕ)
  /-- a sleeper goes on -/
  | run (p : P)
  | kill (p : P)

variable {I P : Type*} [DecidableEq P]

/-- The keys that an interrupt finds. -/
def State.type (d : Dev I) (s : State I P) (keys : List Byte) : State I P :=
  let input := keys.foldl d.key s.input
  { s with input := input, entered := s.entered ++ (d.ready input).drop (d.ready s.input).length }

/-- `p` has read from the input. -/
def State.take (d : Dev I) (s : State I P) (p : P) (input : I) : State I P :=
  let taken := (d.ready s.input).take ((d.ready s.input).length - (d.ready input).length)
  { s with input := input, taken := s.taken ++ taken.map (Prod.mk p) }

def State.finish (s : State I P) (p : P) (a : Reading) (dst : List Byte) (ret : ℤ) : State I P :=
  { s with reading := Function.update s.reading p none, returns := s.returns ++ [⟨p, a.target, dst, ret⟩] }

def State.sleep (s : State I P) (p : P) (a : Reading) : State I P :=
  { s with reading := Function.update s.reading p (some a) }

/-- `p` reads until it returns or sleeps. -/
def State.go (d : Dev I) (s : State I P) (p : P) (a : Reading) : State I P :=
  let s' := s.take d p (d.read a.target a.n s.input a.dst).1
  match (d.read a.target a.n s.input a.dst).2 with
  | .done dst => s'.finish p a dst dst.length
  | .asleep n dst => if s.killed p then s'.finish p a dst (-1) else s'.sleep p ⟨a.target, n, dst⟩

def step (d : Dev I) (s : State I P) : Event P → Option (Except Empty (State I P))
  | .consoleintr keys => some (.ok (s.type d keys))
  | .consoleread p n => if (s.reading p).isNone then some (.ok (s.go d p ⟨n, n, []⟩)) else none
  | .run p => (s.reading p).map fun a => .ok (s.go d p a)
  | .kill p => some (.ok { s with killed := Function.update s.killed p true })

def machine (d : Dev I) (P : Type*) [DecidableEq P] : Machine (State I P) (Event P) Empty := ⟨step d⟩

def start (P : Type*) (input : I) : State I P := ⟨input, fun _ => none, fun _ => false, [], [], []⟩

/-- `input` at boot -/
def Input.zero : Input := ⟨fun _ => 0, 0#32, 0#32, 0#32⟩

end Xv6.Console
