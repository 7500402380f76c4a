import Xv6.Block.Rw
import Xv6.Lib.Content

/-!
# Files as byte arrays

`fileread` and `filewrite` of regular files, by any descriptors, and what they mean.

* `filewrite`: a write goes to `writei` in chunks of at most `maxWrite` bytes, each in a transaction of its own.
* `Spec`: a file is an array of bytes, and a descriptor has a place in it.
* `readi_spec`: what `readi` reads, however the blocks of the file are found.
* `filewrite_spec`: all the chunks together.
* `Spec.write_read`: what a descriptor writes another one reads.
* **`files_refine`**: calls on descriptors return what they return on arrays of bytes.
-/

namespace Xv6.Block

open Prog

/-! ## The functions -/

abbrev MAXOPBLOCKS : ℕ := 10

/-- An open file of type `FD_INODE`. -/
structure File where
  readable : Bool
  writable : Bool
  ip : ℕ
  off : ℕ
  deriving DecidableEq

/-- `f->off += r`, for a result that is positive. -/
def File.advance (f : File) (r : ℤ) : File := if 0 < r then { f with off := (f.off + r.toNat) % 2 ^ 32 } else f

/-- `end_op` of the only operation. -/
def end_op : M Unit := Prog.modify fun s => { s with logged := ∅ }

/-- The result, `addr` afterwards, and the file afterwards. -/
def fileread (sb : Super) (devsw : Devsw) (f : File) (addr : Bytes) (n : ℕ) : M (ℤ × Bytes × File) :=
  if f.readable = false then pure (-1, addr, f)
  else do
    let (r, addr) ← readi sb devsw f.ip addr f.off n
    pure (r, addr, f.advance r)

/-- `max`. -/
abbrev maxWrite : ℕ := (MAXOPBLOCKS - 1 - 1 - 2) / 2 * 512

/-- The loop of `filewrite`, from `i` on. -/
def filewriteLoop (sb : Super) (devsw : Devsw) (addr : Bytes) (n i : ℕ) (f : File) : M (ℤ × File) :=
  if i < n then do
    let n1 := min (n - i) maxWrite
    let r ← writei sb devsw f.ip (fun k => addr (i + k)) f.off n1
    let f := f.advance r
    end_op
    if r < 0 then pure (-1, f)
    else if r ≠ n1 then Prog.throw .shortWrite
    else filewriteLoop sb devsw addr n (i + n1) f
  else pure (if i = n then n else -1, f)
termination_by n - i
decreasing_by
  have hmax : 0 < maxWrite := by decide
  omega

def filewrite (sb : Super) (devsw : Devsw) (f : File) (addr : Bytes) (n : ℕ) : M (ℤ × File) :=
  if f.writable = false then pure (-1, f) else filewriteLoop sb devsw addr n 0 f

/-! ## Calls on descriptors -/

/-- The disk, the open files, and what the calls returned, the last one first. -/
structure FState where
  base : State
  file : ℕ → File
  out : List (ℤ × List Byte)

inductive FEvent
  /-- read `n` bytes to `addr` -/
  | read (fd n : ℕ) (addr : Bytes)
  | write (fd : ℕ) (src : List Byte)

/-- The buffer of a write. -/
def buffer (src : List Byte) : Bytes := fun i => src.getD i 0

/-- What a call returned. -/
def FState.returns (s : FState) (t : State) (fd : ℕ) (f : File) (r : ℤ) (data : List Byte) : FState where
  base := t
  file := Function.update s.file fd f
  out := (r, data) :: s.out

def fstep (sb : Super) (devsw : Devsw) (s : FState) : FEvent → Option (Except Fault FState)
  | .read fd n addr =>
    match fileread sb devsw (s.file fd) addr n s.base with
    | (.ok (r, addr, f), t) => some (.ok (s.returns t fd f r ((List.range r.toNat).map addr)))
    | (.error e, _) => some (.error e)
  | .write fd src =>
    match filewrite sb devsw (s.file fd) (buffer src) src.length s.base with
    | (.ok (r, f), t) => some (.ok (s.returns t fd f r []))
    | (.error e, _) => some (.error e)

def fmachine (sb : Super) (devsw : Devsw) : Machine FState FEvent Fault := ⟨fstep sb devsw⟩

/-! ## What they mean -/

/-- Files as arrays of bytes. -/
structure Spec where
  content : ℕ → List Byte
  file : ℕ → File
  out : List (ℤ × List Byte)

def Spec.step (a : Spec) : FEvent → Spec
  | .read fd n _ =>
    let f := a.file fd
    if f.readable = false ∨ (a.content f.ip).length < f.off then { a with out := (-1, []) :: a.out }
    else
      let bytes := slice (a.content f.ip) f.off n
      { a with
        file := Function.update a.file fd { f with off := f.off + bytes.length }
        out := (bytes.length, bytes) :: a.out }
  | .write fd src =>
    let f := a.file fd
    if f.writable = false then { a with out := (-1, []) :: a.out }
    else if src = [] then { a with out := (0, []) :: a.out }
    else if (a.content f.ip).length < f.off then { a with out := (-1, []) :: a.out }
    else { a with
      content := Function.update a.content f.ip (put (a.content f.ip) f.off src)
      file := Function.update a.file fd { f with off := f.off + src.length }
      out := (src.length, []) :: a.out }

/-- What one descriptor writes another reads. -/
theorem Spec.write_read (a : Spec) {fd fd' : ℕ} (src : List Byte) (addr : Bytes) (hne : fd' ≠ fd)
    (hw : (a.file fd).writable = true) (hr : (a.file fd').readable = true)
    (hip : (a.file fd').ip = (a.file fd).ip) (hoff : (a.file fd').off = (a.file fd).off)
    (hle : (a.file fd).off ≤ (a.content (a.file fd).ip).length) :
    ((a.step (.write fd src)).step (.read fd' src.length addr)).out.head? = some ((src.length : ℤ), src) := by
  have hfalse : ∀ b : Bool, b = true → b ≠ false := fun b hb hb' => by rw [hb] at hb'; cases hb'
  have hread : ∀ b : Spec, b.file fd' = a.file fd' → slice (b.content (a.file fd).ip) (a.file fd).off src.length = src →
      (a.file fd).off ≤ (b.content (a.file fd).ip).length →
      (b.step (.read fd' src.length addr)).out.head? = some ((src.length : ℤ), src) := by
    intro b hfile hslice hle'
    unfold Spec.step
    dsimp only
    rw [hfile, hip, hoff, if_neg (not_or.2 ⟨hfalse _ hr, not_lt.2 hle'⟩), hslice]
    rfl
  by_cases hnil : src = []
  · refine hread _ ?_ ?_ ?_
    all_goals
      unfold Spec.step
      dsimp only
      rw [if_neg (hfalse _ hw), if_pos hnil]
    · rw [hnil]
      rfl
    · exact hle
  · have hstep : a.step (.write fd src) = { a with
        content := Function.update a.content (a.file fd).ip (put (a.content (a.file fd).ip) (a.file fd).off src)
        file := Function.update a.file fd { a.file fd with off := (a.file fd).off + src.length }
        out := (src.length, []) :: a.out } := by
      unfold Spec.step
      dsimp only
      rw [if_neg (hfalse _ hw), if_neg hnil, if_neg (not_lt.2 hle)]
    rw [hstep]
    refine hread _ (Function.update_of_ne hne ..) ?_ ?_
    · dsimp only
      rw [Function.update_self, slice_put hle]
    · dsimp only
      rw [Function.update_self, length_put hle]
      omega

/-- The inode has the content. -/
structure Holds (s : State) (ip : ℕ) (l : List Byte) : Prop where
  size : (s.inode ip).size = l.length
  small : l.length ≤ NBLOCKS * BSIZE
  block : ∀ i, i < l.length → s.blockOf (Node.ofBlock ip (i / BSIZE)) ≠ 0
  byte : ∀ i, i < l.length → l[i]? = some (s.byte ip i)

/-- **The files in `F` are these arrays of bytes**, and the descriptors are open on files in `F`. -/
structure Refines (sb : Super) (data : ℕ) (F : Set ℕ) (s : FState) (a : Spec) : Prop where
  rest : Rest sb data s.base
  holds : ∀ ip, ip ∈ F → ip < sb.ninodes ∧ (s.base.inode ip).type ≠ T_DEV ∧ Holds s.base ip (a.content ip)
  file : s.file = a.file
  fd : ∀ fd, (a.file fd).ip ∈ F ∧ (a.file fd).off < 2 ^ 32
  out : s.out = a.out

/-- The call is for a number of bytes that is an `int`, and a write ends within the range of `bmap`. -/
def InRange (s : FState) : FEvent → Prop
  | .read _ n _ => n < 2 ^ 31
  | .write fd src => src.length < 2 ^ 31 ∧ (s.file fd).off + src.length ≤ NBLOCKS * BSIZE

instance (s : FState) (e : FEvent) : Decidable (InRange s e) := by
  unfold InRange
  rcases e with ⟨⟩ <;> infer_instance

section

variable {sb : Super} {devsw : Devsw} {data : ℕ} {s t u : State} {ip n tot off : ℕ} {addr dst : Bytes} {l l' : List Byte}
  {f : File}

/-! ## Reading -/

/-- Reading and releasing a block changes nothing. -/
theorem readRound_spec {m : ℕ} (hheld : s.held = ∅) (hbn : off / BSIZE < NBLOCKS)
    (h0 : s.blockOf (Node.ofBlock ip (off / BSIZE)) ≠ 0) :
    Triple (fun t => t = s) (readRound sb ip tot off m dst)
      (fun r t => t = s ∧
        r = memmove dst tot (s.block (s.blockOf (Node.ofBlock ip (off / BSIZE)))) (off % BSIZE) m) fun _ _ => False := by
  set b := s.blockOf (Node.ofBlock ip (off / BSIZE)) with hb
  have hbmap : Triple (fun t => t = s) (bmap sb ip (off / BSIZE)) (fun r t => r = b ∧ t = s) fun _ _ => False := by
    rintro t rfl
    rw [bmap_old hheld hbn h0]
    exact ⟨rfl, rfl⟩
  have hfree : b ∉ s.held := by
    rw [hheld]
    exact Finset.notMem_empty b
  refine Triple.bind hbmap fun r => Triple.of_fact fun hr => ?_
  subst hr
  refine Triple.bind (bread_spec hfree) fun _ => ?_
  set s₁ : State := { s with held := insert b s.held } with hs₁
  have hlocked : b ∈ s₁.held := Finset.mem_insert_self b s.held
  refine Triple.bind (R := fun a t => a = s₁ ∧ t = s₁) (Triple.get fun t h => ⟨h, h⟩) fun a => Triple.of_fact fun ha => ?_
  subst ha
  refine Triple.bind (brelse_spec hlocked) fun _ => Triple.pure fun t ht => ⟨?_, rfl⟩
  rw [ht]
  show ({ s with held := (insert b s.held).erase b } : State) = s
  rw [Finset.erase_insert hfree]

/-- **The loop of `readi`** copies the bytes that are there. -/
theorem readiLoop_spec (hheld : s.held = ∅) : ∀ k tot off dst, n - tot = k →
    (∀ i, i < n - tot → (off + i) / BSIZE < NBLOCKS ∧ s.blockOf (Node.ofBlock ip ((off + i) / BSIZE)) ≠ 0) →
    Triple (fun t => t = s) (readiLoop sb ip n tot off dst)
      (fun r t => t = s ∧ ∀ i, r i = if tot ≤ i ∧ i < n then s.byte ip (off + (i - tot)) else dst i)
      fun _ _ => False := by
  intro k
  induction k using Nat.strong_induction_on with
  | _ k ih =>
    intro tot off dst hk hmap
    rw [readiLoop]
    refine Triple.ite (fun hlt => ?_) fun hge => ?_
    · obtain ⟨hpos, hround⟩ := round_le off hlt
      dsimp only
      set m := min (n - tot) (BSIZE - off % BSIZE)
      have hmn : m ≤ n - tot := min_le_left _ _
      obtain ⟨hbn, h0⟩ := hmap 0 (by omega)
      refine Triple.bind (readRound_spec hheld hbn h0) fun dst' => Triple.of_state fun t ht => ?_
      obtain ⟨rfl, hdst⟩ := ht
      have hmap' : ∀ i, i < n - (tot + m) → (off + m + i) / BSIZE < NBLOCKS ∧
          t.blockOf (Node.ofBlock ip ((off + m + i) / BSIZE)) ≠ 0 := by
        intro i hi
        have hthere := hmap (m + i) (by omega)
        rwa [← Nat.add_assoc] at hthere
      refine (ih (n - (tot + m)) (by omega) (tot + m) (off + m) dst' rfl hmap').post ?_
      rintro r u ⟨rfl, hr⟩
      refine ⟨rfl, fun i => ?_⟩
      rw [hr i]
      by_cases hhi : tot + m ≤ i ∧ i < n
      · rw [if_pos hhi, if_pos (by omega)]
        congr 1
        omega
      · rw [if_neg hhi, hdst]
        unfold memmove
        by_cases hlo : tot ≤ i ∧ i < tot + m
        · -- the byte is in this block
          rw [if_pos hlo, if_pos (by omega)]
          have hoff := Nat.div_add_mod off BSIZE
          have hdiv : (off + (i - tot)) / BSIZE = off / BSIZE := by
            apply Nat.div_eq_of_lt_le
            · rw [Nat.mul_comm]
              omega
            · rw [Nat.succ_mul, Nat.mul_comm]
              omega
          have hmod : (off + (i - tot)) % BSIZE = off % BSIZE + (i - tot) := by
            have hsplit := Nat.div_add_mod (off + (i - tot)) BSIZE
            rw [hdiv] at hsplit
            omega
          unfold State.byte
          rw [hdiv, hmod]
        · rw [if_neg hlo, if_neg (by omega)]
    · refine Triple.pure fun t ht => ⟨ht, fun i => ?_⟩
      rw [if_neg (by omega)]

/-- **`readi`** of a file with content `l`. -/
theorem readi_spec (devsw : Devsw) (hheld : s.held = ∅) (hl : Holds s ip l) (htype : (s.inode ip).type ≠ T_DEV)
    (hoff : off ≤ l.length) (hn : n < 2 ^ 31) :
    Triple (fun t => t = s) (readi sb devsw ip dst off n)
      (fun r t => t = s ∧ r.1 = ((slice l off n).length : ℤ) ∧
        (List.range (slice l off n).length).map r.2 = slice l off n) fun _ _ => False := by
  have hsmall := hl.small
  have hblocks : NBLOCKS * BSIZE = 1073746944 := by decide
  have hsize := hl.size
  have hwrap : (off + n) % 2 ^ 32 = off + n := Nat.mod_eq_of_lt (by omega)
  have hlen := length_slice l off n
  refine Triple.bind (R := fun a t => a = s ∧ t = s) (Triple.get fun t h => ⟨h, h⟩) fun a => Triple.of_fact fun ha => ?_
  subst ha
  rw [if_neg htype, if_neg (by omega), hwrap]
  have hcount : (if (a.inode ip).size < off + n then (a.inode ip).size - off else n) = (slice l off n).length := by
    rw [hlen]
    split <;> omega
  dsimp only
  rw [hcount]
  refine Triple.bind (readiLoop_spec hheld _ 0 off dst rfl fun i hi => ?_) fun dst' => Triple.pure fun t ht => ?_
  · have hil : off + i < l.length := by omega
    refine ⟨?_, hl.block (off + i) hil⟩
    rw [Nat.div_lt_iff_lt_mul (by decide)]
    omega
  · refine ⟨ht.1, rfl, ?_⟩
    apply List.ext_getElem?
    intro i
    by_cases hi : i < (slice l off n).length
    · rw [get_slice l off (by omega), hl.byte (off + i) (by omega), List.getElem?_map, List.getElem?_range hi]
      show some (dst' i) = _
      rw [ht.2 i, if_pos ⟨Nat.zero_le i, hi⟩, Nat.sub_zero]
    · rw [List.getElem?_eq_none (by simpa using hi), List.getElem?_eq_none (by omega)]

/-! ## Writing -/

/-- The file `ip` becomes `l`, and every other file keeps its content. -/
structure Became (sb : Super) (data ip : ℕ) (l : List Byte) (s t : State) : Prop where
  rest : Rest sb data t
  here : Holds t ip l
  other : ∀ ip' l', ip' ≠ ip → Holds s ip' l' → Holds t ip' l'
  type : ∀ ip', (t.inode ip').type = (s.inode ip').type

theorem Became.trans (h : Became sb data ip l s t) (h' : Became sb data ip l' t u) : Became sb data ip l' s u where
  rest := h'.rest
  here := h'.here
  other ip' l'' hne hl := h'.other ip' l'' hne (h.other ip' l'' hne hl)
  type ip' := (h'.type ip').trans (h.type ip')

/-- The log does not say what is in a file. -/
theorem Holds.commit (h : Holds s ip l) : Holds { s with logged := ∅ } ip l := by
  have hsame : ∀ k, State.blockOf { s with logged := ∅ } k = s.blockOf k := State.blockOf_same rfl rfl
  refine ⟨h.size, h.small, fun i hi => ?_, fun i hi => ?_⟩
  · rw [hsame]
    exact h.block i hi
  · rw [h.byte i hi]
    unfold State.byte
    rw [hsame]

/-- A file keeps its content when its size and its bytes stay. -/
theorem Holds.keep (h : Holds s ip l) (hsize : (t.inode ip).size = (s.inode ip).size)
    (hkeep : ∀ bn, bn < NBLOCKS → s.blockOf (Node.ofBlock ip bn) ≠ 0 →
      t.blockOf (Node.ofBlock ip bn) = s.blockOf (Node.ofBlock ip bn))
    (hbyte : ∀ i, i < l.length → t.byte ip i = s.byte ip i) : Holds t ip l := by
  have hbn : ∀ i, i < l.length → i / BSIZE < NBLOCKS := by
    intro i hi
    have hsmall := h.small
    rw [Nat.div_lt_iff_lt_mul (by decide)]
    omega
  refine ⟨hsize.trans h.size, h.small, fun i hi => ?_, fun i hi => ?_⟩
  · rw [hkeep _ (hbn i hi) (h.block i hi)]
    exact h.block i hi
  · rw [hbyte i hi]
    exact h.byte i hi

/-- **`writei`** puts the bytes into the array. -/
theorem Put.became {src : Bytes} {bytes : List Byte} (h : Put sb data ip off n src s t) (hl : Holds s ip l)
    (hoff : off ≤ l.length) (hlen : bytes.length = n) (hsrc : ∀ i, i < n → bytes[i]? = some (src i))
    (hend : off + n ≤ NBLOCKS * BSIZE) : Became sb data ip (put l off bytes) s t := by
  have hbn : ∀ i, i < NBLOCKS * BSIZE → i / BSIZE < NBLOCKS := fun i hi => by
    rw [Nat.div_lt_iff_lt_mul (by decide)]
    omega
  have hsmall := hl.small
  refine ⟨h.rest, ⟨?_, ?_, fun i hi => ?_, fun i hi => ?_⟩, fun ip' l' hne hl' => ?_, fun ip' => ?_⟩
  · rw [h.inode ip, if_pos rfl, length_put hoff, hl.size, hlen]
  · rw [length_put hoff, hlen]
    omega
  · rw [length_put hoff, hlen] at hi
    by_cases hin : off ≤ i ∧ i < off + n
    · have hhere := (h.here (i - off) (by omega)).1
      rwa [show off + (i - off) = i by omega] at hhere
    · have hil : i < l.length := by omega
      rw [h.keep ip _ (hbn i (by omega)) (hl.block i hil)]
      exact hl.block i hil
  · rw [length_put hoff, hlen] at hi
    rw [get_put hoff, hlen]
    by_cases hin : off ≤ i ∧ i < off + n
    · have hhere := (h.here (i - off) (by omega)).2
      rw [show off + (i - off) = i by omega] at hhere
      rw [if_pos hin, hsrc (i - off) (by omega), hhere]
    · have hil : i < l.length := by omega
      rw [if_neg hin, hl.byte i hil, h.other ip i (hbn i (by omega)) (hl.block i hil) fun _ => by omega]
  · refine hl'.keep ?_ (h.keep ip') fun i hi => ?_
    · rw [h.inode ip', if_neg hne]
    · have hsmall' := hl'.small
      exact h.other ip' i (hbn i (by omega)) (hl'.block i hi) fun he => absurd he hne
  · rw [h.inode ip']

theorem writei_became {src : Bytes} {bytes : List Byte} (devsw : Devsw) (hg : Geometry sb data) (hr : Rest sb data s)
    (hip : ip < sb.ninodes) (htype : (s.inode ip).type ≠ T_DEV) (hl : Holds s ip l) (hoff : off ≤ l.length)
    (hlen : bytes.length = n) (hsrc : ∀ i, i < n → bytes[i]? = some (src i)) (hend : off + n ≤ NBLOCKS * BSIZE) :
    Triple (fun t => t = s) (writei sb devsw ip src off n)
      (fun r t => r = (n : ℤ) ∧ Became sb data ip (put l off bytes) s t) Full := by
  have hsmall := hl.small
  have hblocks : NBLOCKS * BSIZE = 1073746944 := by decide
  have hmax : MAXFILE * BSIZE = 1082201088 := by decide
  have hadm : Admitted s ip off n := by
    refine ⟨by omega, by omega, htype, ?_, by omega, by omega⟩
    rw [hl.size]
    exact hoff
  exact (writei_spec src devsw hg hr hip hadm fun _ => hend).post fun r t ht =>
    ⟨ht.1, ht.2.became hl hoff hlen hsrc hend⟩

theorem end_op_became (hb : Became sb data ip l s t) :
    Triple (fun u => u = t) end_op (fun _ u => Became sb data ip l s u) Full := by
  refine Triple.modify fun u hu => ?_
  subst hu
  exact ⟨⟨hb.rest.forest.same rfl rfl, hb.rest.held⟩, hb.here.commit,
    fun ip' l' hne hl' => (hb.other ip' l' hne hl').commit, hb.type⟩

/-- **The loop of `filewrite`**: the chunks together are one write. -/
theorem filewriteLoop_spec (devsw : Devsw) (hg : Geometry sb data) (src : List Byte) : ∀ k i f s l, src.length - i = k →
    i ≤ src.length → Rest sb data s → f.ip < sb.ninodes → (s.inode f.ip).type ≠ T_DEV → Holds s f.ip l →
    f.off ≤ l.length → f.off + (src.length - i) ≤ NBLOCKS * BSIZE →
    Triple (fun t => t = s) (filewriteLoop sb devsw (buffer src) src.length i f)
      (fun r t => r = ((src.length : ℤ), { f with off := f.off + (src.length - i) }) ∧
        Became sb data f.ip (put l f.off (src.drop i)) s t) Full := by
  intro k
  induction k using Nat.strong_induction_on with
  | _ k ih =>
    intro i f s l hk hi hr hip htype hl hoff hend
    have hblocks : NBLOCKS * BSIZE = 1073746944 := by decide
    have hpos : 0 < maxWrite := by decide
    rw [filewriteLoop]
    refine Triple.ite (fun hlt => ?_) fun hge => ?_
    · dsimp only
      set n1 := min (src.length - i) maxWrite
      have hn1 : n1 ≤ src.length - i := min_le_left _ _
      have hn0 : 0 < n1 := by omega
      -- the chunk
      set a := (src.drop i).take n1
      have ha : a.length = n1 := by
        rw [List.length_take, List.length_drop]
        omega
      have hsrc : ∀ j, j < n1 → a[j]? = some (buffer src (i + j)) := by
        intro j hj
        rw [List.getElem?_take_of_lt hj, List.getElem?_drop, List.getElem?_eq_getElem (by omega)]
        unfold buffer
        rw [List.getD_eq_getElem src 0 (by omega)]
      have hsplit : a ++ src.drop (i + n1) = src.drop i := by
        rw [← List.drop_drop]
        exact List.take_append_drop n1 (src.drop i)
      refine Triple.bind (writei_became devsw hg hr hip htype hl hoff ha hsrc (by omega)) fun r =>
        Triple.of_fact fun hr1 => Triple.of_state fun t ht => ?_
      subst hr1
      have hadv : f.advance n1 = { f with off := f.off + n1 } := by
        unfold File.advance
        rw [if_pos (by omega), Int.toNat_natCast, Nat.mod_eq_of_lt (by omega)]
      rw [hadv]
      refine Triple.bind (end_op_became ht) fun _ => Triple.of_state fun u hu => ?_
      rw [if_neg (by omega), if_neg (by simp)]
      have hoff' : f.off + n1 ≤ (put l f.off a).length := by
        rw [length_put hoff, ha]
        exact le_max_right _ _
      have htype' : (u.inode f.ip).type ≠ T_DEV := by
        rw [hu.type]
        exact htype
      refine (ih (src.length - (i + n1)) (by omega) (i + n1) { f with off := f.off + n1 } u _ rfl (by omega) hu.rest hip
        htype' hu.here hoff' (by dsimp only; omega)).post ?_
      rintro r v ⟨rfl, hv⟩
      refine ⟨?_, ?_⟩
      · rw [Prod.mk.injEq]
        refine ⟨rfl, ?_⟩
        rw [File.mk.injEq]
        exact ⟨rfl, rfl, rfl, by dsimp only; omega⟩
      · have hboth := hu.trans hv
        have hput : put (put l f.off a) (f.off + n1) (src.drop (i + n1)) = put l f.off (src.drop i) := by
          rw [← hsplit, ← put_put hoff, ha]
        dsimp only at hboth
        rwa [hput] at hboth
    · obtain rfl : i = src.length := by omega
      refine Triple.pure fun t ht => ?_
      subst ht
      rw [if_pos rfl, Nat.sub_self, List.drop_length, put_nil hoff]
      exact ⟨rfl, hr, hl, fun _ _ _ h => h, fun _ => rfl⟩

/-! ## Beyond the end of the file -/

theorem readi_beyond (devsw : Devsw) (htype : (s.inode ip).type ≠ T_DEV) (hoff : (s.inode ip).size < off) :
    Triple (fun t => t = s) (readi sb devsw ip dst off n) (fun r t => t = s ∧ r = (-1, dst)) fun _ _ => False := by
  refine Triple.bind (R := fun a t => a = s ∧ t = s) (Triple.get fun t h => ⟨h, h⟩) fun a => Triple.of_fact fun ha => ?_
  subst ha
  rw [if_neg htype, if_pos (.inl hoff)]
  exact Triple.pure fun t ht => ⟨ht, rfl⟩

theorem writei_past (devsw : Devsw) {src : Bytes} (htype : (s.inode ip).type ≠ T_DEV) (hoff : (s.inode ip).size < off) :
    Triple (fun t => t = s) (writei sb devsw ip src off n) (fun r t => r = -1 ∧ t = s) Full := by
  refine Triple.bind (R := fun a t => a = s ∧ t = s) (Triple.get fun t h => ⟨h, h⟩) fun a => Triple.of_fact fun ha => ?_
  subst ha
  rw [if_neg htype, if_pos (.inl hoff)]
  exact Triple.pure fun t ht => ⟨rfl, ht⟩

theorem filewriteLoop_past (devsw : Devsw) {src : Bytes} (htype : (s.inode f.ip).type ≠ T_DEV)
    (hoff : (s.inode f.ip).size < f.off) (hn : 0 < n) :
    Triple (fun t => t = s) (filewriteLoop sb devsw src n 0 f)
      (fun r t => r = (-1, f) ∧ t = { s with logged := ∅ }) Full := by
  rw [filewriteLoop, if_pos hn]
  refine Triple.bind (writei_past devsw htype hoff) fun r => Triple.of_fact fun hr => ?_
  subst hr
  have hadv : f.advance (-1) = f := if_neg (by decide)
  rw [hadv]
  refine Triple.bind (R := fun _ t => t = { s with logged := ∅ }) (Triple.modify fun t ht => by rw [ht]) fun _ => ?_
  rw [if_pos (by decide)]
  exact Triple.pure fun t ht => ⟨rfl, ht⟩

/-! ## The calls -/

variable {F : Set ℕ} {x x' : FState} {a : Spec} {e : FEvent}

/-- What a call that returns leaves, when it is what it should be. -/
theorem Refines.next {fd : ℕ} {r : ℤ} {bytes : List Byte} {g : File} {content : ℕ → List Byte} {file : ℕ → File}
    (h : Refines sb data F x a) (hrest : Rest sb data t)
    (hholds : ∀ ip, ip ∈ F → (t.inode ip).type = (x.base.inode ip).type ∧ Holds t ip (content ip))
    (hfile : Function.update x.file fd g = file) (hip : g.ip = (x.file fd).ip) (hoff : g.off < 2 ^ 32) :
    Refines sb data F (x.returns t fd g r bytes) ⟨content, file, (r, bytes) :: a.out⟩ where
  rest := hrest
  holds ip hF := by
    obtain ⟨hlt, htype, -⟩ := h.holds ip hF
    obtain ⟨htype', hl⟩ := hholds ip hF
    exact ⟨hlt, by show (t.inode ip).type ≠ T_DEV; rwa [htype'], hl⟩
  file := hfile
  fd fd' := by
    show (file fd').ip ∈ F ∧ (file fd').off < 2 ^ 32
    rw [← hfile]
    by_cases hfd : fd' = fd
    · rw [hfd, Function.update_self, hip, h.file]
      exact ⟨(h.fd fd).1, hoff⟩
    · rw [Function.update_of_ne hfd, h.file]
      exact h.fd fd'
  out := by
    show (r, bytes) :: x.out = _
    rw [h.out]

/-- Nothing changes but what is returned, and the log. -/
theorem Refines.stay {fd : ℕ} {r : ℤ} {bytes : List Byte} (h : Refines sb data F x a)
    (ht : t = x.base ∨ t = { x.base with logged := ∅ }) :
    Refines sb data F (x.returns t fd (x.file fd) r bytes) { a with out := (r, bytes) :: a.out } := by
  have hfile : Function.update x.file fd (x.file fd) = a.file := by
    rw [Function.update_eq_self, h.file]
  have hoff : (x.file fd).off < 2 ^ 32 := by
    rw [h.file]
    exact (h.fd fd).2
  rcases ht with rfl | rfl
  · exact h.next h.rest (fun ip hF => ⟨rfl, (h.holds ip hF).2.2⟩) hfile rfl hoff
  · exact h.next ⟨h.rest.forest.same rfl rfl, h.rest.held⟩ (fun ip hF => ⟨rfl, (h.holds ip hF).2.2.commit⟩) hfile rfl hoff

/-- **`fileread`.** -/
theorem read_refines (devsw : Devsw) (fd : ℕ) (addr : Bytes) (h : Refines sb data F x a) (hn : n < 2 ^ 31) :
    Triple (fun t => t = x.base) (fileread sb devsw (x.file fd) addr n)
      (fun r t => Refines sb data F (x.returns t fd r.2.2 r.1 ((List.range r.1.toNat).map r.2.1))
        (a.step (.read fd n addr))) fun _ _ => False := by
  obtain ⟨hF, hoff⟩ := h.fd fd
  obtain ⟨-, htype, hl⟩ := h.holds _ hF
  rw [← h.file] at hF hoff htype hl
  unfold fileread Spec.step
  dsimp only
  have hfd : a.file fd = x.file fd := by rw [h.file]
  rw [hfd]
  refine Triple.ite (fun hread => ?_) fun hread => ?_
  · refine Triple.pure fun t ht => ?_
    rw [if_pos (.inl hread)]
    exact h.stay (.inl ht)
  · by_cases hpast : (a.content (x.file fd).ip).length < (x.file fd).off
    · rw [if_pos (.inr hpast)]
      have hsize : (x.base.inode (x.file fd).ip).size < (x.file fd).off := by
        rw [hl.size]
        exact hpast
      refine Triple.bind (readi_beyond devsw htype hsize) fun r => Triple.pure ?_
      rintro t ⟨rfl, rfl⟩
      have hadv : (x.file fd).advance (-1) = x.file fd := if_neg (by decide)
      rw [hadv]
      exact h.stay (.inl rfl)
    · rw [if_neg (by tauto)]
      have hle := not_lt.1 hpast
      have hsmall := hl.small
      have hblocks : NBLOCKS * BSIZE = 1073746944 := by decide
      have hlen := length_slice (a.content (x.file fd).ip) (x.file fd).off n
      refine Triple.bind (readi_spec devsw h.rest.held hl htype hle hn) fun r => Triple.pure ?_
      rintro t ⟨rfl, hr, hbytes⟩
      obtain ⟨r, dst⟩ := r
      dsimp only at hr hbytes ⊢
      subst hr
      rw [Int.toNat_natCast, hbytes]
      set bytes := slice (a.content (x.file fd).ip) (x.file fd).off n
      have hadv : (x.file fd).advance bytes.length = { x.file fd with off := (x.file fd).off + bytes.length } := by
        unfold File.advance
        split
        · rw [Int.toNat_natCast, Nat.mod_eq_of_lt (by omega)]
        · rename_i hzero
          have hzero' : bytes.length = 0 := by omega
          rw [hzero', Nat.add_zero]
      rw [hadv]
      refine h.next h.rest (fun ip hF => ⟨rfl, (h.holds ip hF).2.2⟩) (by rw [h.file]) rfl ?_
      show (x.file fd).off + bytes.length < 2 ^ 32
      omega

/-- **`filewrite`.** -/
theorem write_refines (devsw : Devsw) {fd : ℕ} {src : List Byte} (hg : Geometry sb data) (h : Refines sb data F x a)
    (hend : (x.file fd).off + src.length ≤ NBLOCKS * BSIZE) :
    Triple (fun t => t = x.base) (filewrite sb devsw (x.file fd) (buffer src) src.length)
      (fun r t => Refines sb data F (x.returns t fd r.2 r.1 []) (a.step (.write fd src))) Full := by
  obtain ⟨hF, hoff⟩ := h.fd fd
  obtain ⟨hip, htype, hl⟩ := h.holds _ hF
  rw [← h.file] at hF hoff hip htype hl
  unfold filewrite Spec.step
  dsimp only
  have hfd : a.file fd = x.file fd := by rw [h.file]
  rw [hfd]
  refine Triple.ite (fun hwrite => ?_) fun hwrite => ?_
  · refine Triple.pure fun t ht => ?_
    rw [if_pos hwrite]
    exact h.stay (.inl ht)
  · rw [if_neg hwrite]
    by_cases hnil : src = []
    · rw [if_pos hnil]
      subst hnil
      rw [filewriteLoop, if_neg (by simp), List.length_nil, if_pos rfl]
      refine Triple.pure fun t ht => ?_
      exact h.stay (.inl ht)
    · rw [if_neg hnil]
      have hpos : 0 < src.length := List.length_pos_of_ne_nil hnil
      by_cases hpast : (a.content (x.file fd).ip).length < (x.file fd).off
      · rw [if_pos hpast]
        have hsize : (x.base.inode (x.file fd).ip).size < (x.file fd).off := by
          rw [hl.size]
          exact hpast
        refine (filewriteLoop_past devsw htype hsize hpos).post ?_
        rintro r t ⟨rfl, rfl⟩
        exact h.stay (.inr rfl)
      · rw [if_neg hpast]
        have hblocks : NBLOCKS * BSIZE = 1073746944 := by decide
        refine (filewriteLoop_spec devsw hg src _ 0 (x.file fd) x.base _ rfl (Nat.zero_le _) h.rest hip htype hl
          (not_lt.1 hpast) hend).post ?_
        rintro r t ⟨rfl, ht⟩
        rw [List.drop_zero] at ht
        refine h.next ht.rest (fun ip' hF' => ⟨ht.type ip', ?_⟩) (by rw [h.file]; rfl) rfl ?_
        · by_cases hne : ip' = (x.file fd).ip
          · rw [hne, Function.update_self]
            exact ht.here
          · rw [Function.update_of_ne hne]
            exact ht.other ip' _ hne (h.holds ip' hF').2.2
        · show (x.file fd).off + (src.length - 0) < 2 ^ 32
          omega

/-! ## Runs -/

/-- The call is a write. -/
def FEvent.Writes : FEvent → Prop
  | .read .. => False
  | .write .. => True

/-- What a call does. -/
def Returns (sb : Super) (devsw : Devsw) (data : ℕ) (F : Set ℕ) (x : FState) (e : FEvent) (a : Spec) : Prop :=
  (∃ y, fstep sb devsw x e = some (.ok y) ∧ Refines sb data F y a) ∨
    e.Writes ∧ (fstep sb devsw x e = some (.error .outOfBlocks) ∨ fstep sb devsw x e = some (.error .tooBig))

/-- **One call.** -/
theorem refines_step (devsw : Devsw) (hg : Geometry sb data) (h : Refines sb data F x a) (he : InRange x e) :
    Returns sb devsw data F x e (a.step e) := by
  cases e with
  | read fd n addr =>
    rcases (read_refines devsw fd addr h he).ends rfl with ⟨r, t, hm, hQ⟩ | ⟨f, t, -, hE⟩
    · refine .inl ⟨_, ?_, hQ⟩
      unfold fstep
      dsimp only
      rw [hm]
    · exact hE.elim
  | write fd src =>
    rcases (write_refines devsw hg h he.2).ends rfl with ⟨r, t, hm, hQ⟩ | ⟨f, t, hm, hE⟩
    · refine .inl ⟨_, ?_, hQ⟩
      unfold fstep
      dsimp only
      rw [hm]
    · have hfault : fstep sb devsw x (.write fd src) = some (.error f) := by
        unfold fstep
        dsimp only
        rw [hm]
      refine .inr ⟨trivial, ?_⟩
      rcases hE with rfl | rfl
      · exact .inl hfault
      · exact .inr hfault

/-- **Files are arrays of bytes.** -/
theorem files_refine (sb : Super) (devsw : Devsw) (data : ℕ) (hg : Geometry sb data) (F : Set ℕ) (x y : FState)
    (a : Spec) (h : Refines sb data F x a) (es : List FEvent)
    (hG : (fmachine sb devsw).Guarded InRange x es) (hr : (fmachine sb devsw).run x es = some (.ok y)) :
    Refines sb data F y (es.foldl Spec.step a) ∧
      ∀ e, InRange y e → Returns sb devsw data F y e ((es ++ [e]).foldl Spec.step a) := by
  have hrun : Refines sb data F y (es.foldl Spec.step a) := by
    refine Machine.run_induct (P := fun es y => (fmachine sb devsw).Guarded InRange x es →
      Refines sb data F y (es.foldl Spec.step a)) (fun _ => h) ?_ es y hr hG
    intro es s e s' hr ih hs hG
    rw [List.foldl_append]
    rcases refines_step devsw hg (ih hG.init) (hG.last hr) with ⟨z, hz, hrest⟩ | ⟨-, hz | hz⟩
    · have hzs : z = s' := by
        have heq := hz.symm.trans hs
        cases heq
        rfl
      rw [← hzs]
      exact hrest
    · cases hz.symm.trans hs
    · cases hz.symm.trans hs
  refine ⟨hrun, fun e he => ?_⟩
  rw [List.foldl_append]
  exact refines_step devsw hg hrun he

end

/-- Two descriptors of the empty file 1. -/
def opened : FState where
  base := fresh
  file _ := ⟨true, true, 1, 0⟩
  out := []

theorem opened_refines : Refines small 4 {1, 2} opened ⟨fun _ => [], opened.file, []⟩ where
  rest := fresh_rest
  holds ip hip := by
    refine ⟨?_, (by intro htype; cases htype), rfl, Nat.zero_le _, fun i hi => absurd hi (Nat.not_lt_zero i),
      fun i hi => absurd hi (Nat.not_lt_zero i)⟩
    rcases hip with rfl | rfl <;> decide
  file := rfl
  fd _ := ⟨.inl rfl, Nat.two_pow_pos 32⟩
  out := rfl

theorem files_refine_opened : ∃ y, (fmachine small noDevsw).run opened [.write 0 [7, 8, 9], .read 1 2 fun _ => 0] =
    some (.ok y) ∧ y.out = [(2, [7, 8]), (3, [])] ∧
    Refines small 4 {1, 2} y (([.write 0 [7, 8, 9], .read 1 2 fun _ => 0] : List FEvent).foldl Spec.step
      ⟨fun _ => [], opened.file, []⟩) := by
  obtain ⟨y, hr, hout⟩ : ∃ y, (fmachine small noDevsw).run opened [.write 0 [7, 8, 9], .read 1 2 fun _ => 0] =
    some (.ok y) ∧ y.out = [(2, [7, 8]), (3, [])] := Machine.run_of_reaches (by decide +kernel)
  exact ⟨y, hr, hout, (files_refine small noDevsw 4 small_geometry {1, 2} opened y _ opened_refines _
    (Machine.guarded_of_check (by decide +kernel)) hr).1⟩

end Xv6.Block
