import Xv6.Block.File

/-!
# The image that mkfs builds

`mkfs.c` writes an image of the disk, sector by sector, from a list of files.

* `iappend` appends to an inode; it knows the direct blocks and one index block.
* `mkfs`: the root directory, the files, the size of the root directory, and the bitmap.
* `Packed`: no block of the image is at two places, and the inodes have their content.
* **`iappend_spec`**: `iappend` appends, as long as the index block has entries.
-/

namespace Xv6.Block.Mkfs

open Prog

abbrev FSSIZE : ℕ := 2100000
abbrev NINODES : ℕ := 200
abbrev LOGSIZE : ℕ := 30
abbrev ROOTINO : ℕ := 1
abbrev DIRSIZ : ℕ := 14
abbrev T_DIR : ℕ := 1
abbrev T_FILE : ℕ := 2

abbrev nbitmap : ℕ := FSSIZE / (BSIZE * 8) + 1
abbrev ninodeblocks : ℕ := NINODES / IPB + 1
abbrev nlog : ℕ := LOGSIZE

/-- The boot block, the superblock, the log, the inodes and the bitmap. -/
abbrev nmeta : ℕ := 2 + nlog + ninodeblocks + nbitmap

def sb : Super where
  size := FSSIZE
  ninodes := NINODES
  inodestart := 2 + nlog
  bmapstart := 2 + nlog + ninodeblocks
  logsize := nlog

/-- The image: what the inode blocks hold is `dinode`. -/
structure Image where
  sect : ℕ → Bytes
  dinode : ℕ → Inode
  freeinode : ℕ
  freeblock : ℕ

inductive Fault
  | slash | rootino | maxfile | bitmap
  /-- an index behind the array `indirect` -/
  | outside
  deriving DecidableEq

abbrev M := Prog Image Fault

def wsect (sec : ℕ) (buf : Bytes) : M Unit := Prog.modify fun m => { m with sect := Function.update m.sect sec buf }

def rsect (sec : ℕ) : M Bytes := do
  let m ← Prog.get
  pure (m.sect sec)

def Image.put (m : Image) (inum : ℕ) (ip : Inode) : Image := { m with dinode := Function.update m.dinode inum ip }

def winode (inum : ℕ) (ip : Inode) : M Unit := Prog.modify fun m => m.put inum ip

def rinode (inum : ℕ) : M Inode := do
  let m ← Prog.get
  pure (m.dinode inum)

def ialloc (type : ℕ) : M ℕ := do
  let m ← Prog.get
  Prog.modify fun m => { m with freeinode := m.freeinode + 1 }
  winode m.freeinode ⟨type, 0, 0, 1, 0, fun _ => 0⟩
  pure m.freeinode

/-- `freeblock++`. -/
def takeBlock : M ℕ := do
  let m ← Prog.get
  Prog.modify fun m => { m with freeblock := m.freeblock + 1 }
  pure m.freeblock

/-- `din.addrs[i]`, with a new block if it is zero. -/
def addr (din : Inode) (i : ℕ) : M Inode :=
  if din.addrs i = 0 then do
    let b ← takeBlock
    pure { din with addrs := Function.update din.addrs i b }
  else pure din

/-- `x` in `iappend`: the block of the file. -/
def blockFor (din : Inode) (fbn : ℕ) : M (Inode × ℕ) :=
  if fbn < NDIRECT then do
    let din ← addr din fbn
    pure (din, din.addrs fbn)
  else do
    let din ← addr din NDIRECT
    let indirect ← rsect (din.addrs NDIRECT)
    Prog.assert (fbn - NDIRECT < NINDIRECT) .outside
    if word indirect (fbn - NDIRECT) = 0 then do
      let b ← takeBlock
      wsect (din.addrs NDIRECT) (setWord indirect (fbn - NDIRECT) b)
      pure (din, b)
    else pure (din, word indirect (fbn - NDIRECT))

/-- The loop of `iappend`, with at most `k` rounds left. -/
def iappendLoop : ℕ → List Byte → Inode → ℕ → M (Inode × ℕ)
  | 0, _, din, off => pure (din, off)
  | k + 1, p, din, off =>
    if p = [] then pure (din, off)
    else do
      let fbn := off / BSIZE
      Prog.assert (fbn < MAXFILE) .maxfile
      let (din, x) ← blockFor din fbn
      let n1 := min p.length ((fbn + 1) * BSIZE - off)
      let buf ← rsect x
      wsect x (memmove buf (off - fbn * BSIZE) (buffer p) 0 n1)
      iappendLoop k (p.drop n1) din (off + n1)

def iappend (inum : ℕ) (p : List Byte) : M Unit := do
  let din ← rinode inum
  let (din, off) ← iappendLoop p.length p din din.size
  winode inum { din with size := off }

/-- A directory entry, with the name as `strncpy` puts it there. -/
def dirent (inum : ℕ) (name : List Byte) : List Byte :=
  [BitVec.ofNat 8 inum, BitVec.ofNat 8 (inum / 256)] ++ (name.take DIRSIZ ++ List.replicate (DIRSIZ - name.length) 0)

/-- The bits of the blocks below `used`. -/
def bits (used : ℕ) : Bytes := (List.range used).foldl setBit fun _ => 0

def balloc (used : ℕ) : M Unit := do
  Prog.assert (used < BSIZE * 8) .bitmap
  wsect sb.bmapstart (bits used)

/-- A file: its name on the command line, and what `read` returns of it, piece by piece. -/
structure Input where
  argv : List Byte
  chunks : List (List Byte)

/-- Without the `_`. -/
def Input.name (f : Input) : List Byte :=
  match f.argv with
  | 95 :: name => name
  | name => name

def Input.bytes (f : Input) : List Byte := f.chunks.flatten

def addFile (f : Input) : M Unit := do
  Prog.assert (47 ∉ f.argv) .slash
  let inum ← ialloc T_FILE
  iappend ROOTINO (dirent inum f.name)
  f.chunks.forM (iappend inum)

def mkfs (files : List Input) : M Unit := do
  let rootino ← ialloc T_DIR
  Prog.assert (rootino = ROOTINO) .rootino
  iappend ROOTINO (dirent ROOTINO [46])
  iappend ROOTINO (dirent ROOTINO [46, 46])
  files.forM addFile
  let din ← rinode ROOTINO
  winode ROOTINO { din with size := (din.size / BSIZE + 1) * BSIZE }
  let m ← Prog.get
  balloc m.freeblock

/-- The image before `mkfs`: zeroes. -/
def blank : Image where
  sect := fun _ _ => 0
  dinode := fun _ => ⟨0, 0, 0, 0, 0, fun _ => 0⟩
  freeinode := 1
  freeblock := nmeta

/-- What the kernel finds on the image. -/
def Image.kernel (m : Image) : State where
  block := m.sect
  held := ∅
  logged := ∅
  inode := m.dinode

section

variable {m m' : Image} {s t : State} {free b i j inum off n : ℕ} {content : ℕ → List Byte} {reach reach' : ℕ → ℕ}
variable {d : Node} {din : Inode}

/-! ## Blocks and their places -/

/-- **The blocks below `free` are apart**, inode `ip` has blocks below `reach ip` only, and its content is there. -/
structure Packed (s : State) (free : ℕ) (content : ℕ → List Byte) (reach : ℕ → ℕ) : Prop where
  low : nmeta ≤ free
  inj : ∀ k l : Node, k.Valid → l.Valid → s.blockOf k = s.blockOf l → s.blockOf k ≠ 0 → k = l
  place : ∀ k : Node, k.Valid → s.blockOf k ≠ 0 → nmeta ≤ s.blockOf k ∧ s.blockOf k < free
  clear : ∀ ip bn, bn < NBLOCKS → reach ip ≤ bn → s.blockOf (Node.ofBlock ip bn) = 0
  zero : ∀ b, b < nmeta ∨ free ≤ b → s.block b = fun _ => 0
  backed : ∀ ip i, i < (content ip).length → i / BSIZE < NBLOCKS ∧
    s.blockOf (Node.ofBlock ip (i / BSIZE)) ≠ 0 ∧ (content ip)[i]? = some (s.byte ip i)

/-- The blocks from `reach'` on are among those from `reach` on, and `d` is none of them. -/
def Beyond (reach reach' : ℕ → ℕ) (d : Node) : Prop :=
  ∀ ip bn, bn < NBLOCKS → reach' ip ≤ bn → reach ip ≤ bn ∧ Node.ofBlock ip bn ≠ d

theorem Packed.weaken (h : Packed s free content reach) (hreach : Beyond reach reach' d) :
    Packed s free content reach' :=
  ⟨h.low, h.inj, h.place, fun ip bn hbn hle => h.clear ip bn hbn (hreach ip bn hbn hle).1, h.zero, h.backed⟩

/-- A place that was empty gets the next block. -/
theorem Packed.fill (h : Packed s free content reach) (hf : Fill s d free t)
    (hleaf : ∀ k : Node, k.Valid → k.Leaf → s.blockOf k ≠ 0 → t.block (s.blockOf k) = s.block (s.blockOf k))
    (hzero : ∀ b, b < nmeta ∨ free ≤ b → t.block b = s.block b)
    (hreach : Beyond reach reach' d) : Packed t (free + 1) content reach' := by
  have hmeta : 0 < nmeta := by decide
  have hfree := h.low
  have hb := hf.blockOf (by omega)
  have hold : ∀ k : Node, k.Valid → s.blockOf k ≠ free := by
    intro k hk heq
    have hplace := h.place k hk (by omega)
    omega
  have hkeep : ∀ k : Node, k.Valid → s.blockOf k ≠ 0 → t.blockOf k = s.blockOf k := by
    intro k hk h0
    rw [hb k hk, if_neg]
    rintro rfl
    exact h0 hf.empty
  constructor
  · omega
  · intro k l hk hl heq h0
    rw [hb k hk, hb l hl] at heq
    rw [hb k hk] at h0
    by_cases hkd : k = d
    · by_cases hld : l = d
      · rw [hkd, hld]
      · rw [if_pos hkd, if_neg hld] at heq
        exact absurd heq.symm (hold l hl)
    · rw [if_neg hkd] at heq h0
      by_cases hld : l = d
      · rw [if_pos hld] at heq
        exact absurd heq (hold k hk)
      · rw [if_neg hld] at heq
        exact h.inj k l hk hl heq h0
  · intro k hk h0
    rw [hb k hk] at h0 ⊢
    by_cases hkd : k = d
    · rw [if_pos hkd]
      omega
    · rw [if_neg hkd] at h0 ⊢
      have hplace := h.place k hk h0
      omega
  · intro ip bn hbn hle
    obtain ⟨hr, hne⟩ := hreach ip bn hbn hle
    rw [hb _ (ofBlock_valid hbn), if_neg hne]
    exact h.clear ip bn hbn hr
  · intro b hb
    rw [hzero b (by omega)]
    exact h.zero b (by omega)
  · intro ip i hi
    obtain ⟨hbn, h0, hbyte⟩ := h.backed ip i hi
    have hv : (Node.ofBlock ip (i / BSIZE)).Valid := ofBlock_valid hbn
    refine ⟨hbn, ?_, ?_⟩
    · rw [hkeep _ hv h0]
      exact h0
    · rw [hbyte]
      unfold State.byte
      rw [hkeep _ hv h0, hleaf _ hv (ofBlock_leaf ..) h0]

/-- A new block at `addrs[i]`. -/
theorem fill_addr (h : Packed s free content reach) (hi : i < NADDRS) (h0 : (s.inode inum).addrs i = 0) :
    Fill s ⟨inum, i, []⟩ free (s.setAddr inum i free) where
  valid := ⟨hi, Nat.zero_le _, by simp⟩
  empty := h0
  parent := by simp
  addrs ip' i' := by
    unfold State.setAddr State.setInode
    by_cases hip : ip' = inum
    · subst hip
      by_cases hii : i' = i
      · subst hii
        simp
      · simp [hii]
    · simp [hip]
  words ip' i' j js _ _ := by
    rw [if_neg (by simp)]
    rfl
  zero := h.zero free (.inr le_rfl)

/-- A new block in the index block at `addrs[NDIRECT]`. -/
theorem fill_word (h : Packed s free content reach) (hfree : free < 2 ^ 32) (hb : s.blockOf ⟨inum, NDIRECT, []⟩ = b)
    (hb0 : b ≠ 0) (hj : j < NINDIRECT) (h0 : word (s.block b) j = 0) :
    Fill s ⟨inum, NDIRECT, [j]⟩ free (s.setBlock b fun d => setWord d j free) := by
  have hv : Node.Valid ⟨inum, NDIRECT, [j]⟩ := ⟨(by decide : NDIRECT < NADDRS), le_of_eq rfl, by simpa using hj⟩
  have hbfree : b ≠ free := by
    have hplace := h.place _ hv.up (by rw [hb]; exact hb0)
    omega
  refine ⟨hv, ?_, ?_, fun ip' i' => ?_, fun ip' i' j' js' hv' h0' => ?_, ?_⟩
  · rw [State.blockOf_cons, hb, if_neg hb0, h0]
  · rintro ip' i' j' js' heq
    cases heq
    rw [hb]
    exact hb0
  · rw [if_neg (by simp)]
    rfl
  · by_cases hsame : s.blockOf ⟨ip', i', js'⟩ = b
    · -- another entry of the same index block, or this one
      have hnode := h.inj _ _ hv'.up hv.up (by rw [hsame, hb]) h0'
      cases hnode
      rw [hsame, State.setBlock_self]
      by_cases hjj : j' = j
      · rw [if_pos (by rw [hjj]), hjj, word_setWord_self hfree]
      · rw [if_neg (by simpa using hjj), word_setWord_ne (fun h => hjj h.symm)]
    · have hne : (⟨ip', i', j' :: js'⟩ : Node) ≠ ⟨inum, NDIRECT, [j]⟩ := by
        intro heq
        cases heq
        exact hsame hb
      rw [if_neg hne, State.setBlock_ne _ _ hsame]
  · rw [State.setBlock_ne _ _ hbfree.symm]
    exact h.zero free (.inr le_rfl)

/-- Bytes behind the content of a file, in one of its blocks. -/
theorem Packed.write {l : List Byte} {p : List Byte} {x fbn n1 : ℕ} (h : Packed s free content reach)
    (hl : content inum = l) (hfbn : l.length / BSIZE = fbn) (hbn : fbn < NBLOCKS)
    (hx : s.blockOf (Node.ofBlock inum fbn) = x) (hx0 : x ≠ 0) (hn1 : n1 ≤ p.length)
    (hfit : l.length + n1 ≤ (fbn + 1) * BSIZE) (hinode : t.inode = s.inode)
    (hblock : t.block = Function.update s.block x (memmove (s.block x) (l.length - fbn * BSIZE) (buffer p) 0 n1)) :
    Packed t free (Function.update content inum (l ++ p.take n1)) reach := by
  have hv : (Node.ofBlock inum fbn).Valid := ofBlock_valid hbn
  have hleaf := ofBlock_leaf inum fbn
  have hplace := h.place _ hv (by rw [hx]; exact hx0)
  rw [hx] at hplace
  have hblock_ne : ∀ b, b ≠ x → t.block b = s.block b := by
    intro b hb
    rw [hblock, Function.update_of_ne hb]
  have hsame : ∀ k : Node, k.Valid → t.blockOf k = s.blockOf k := by
    apply State.blockOf_congr
    · intro ip
      rw [hinode]
    · intro k hk hk0 hkl
      apply hblock_ne
      intro heq
      rw [h.inj k _ hk hv (by rw [heq, hx]) hk0] at hkl
      exact hkl hleaf
  have hdiv := Nat.div_add_mod l.length BSIZE
  rw [hfbn] at hdiv
  constructor
  · exact h.low
  · intro k l hk hl
    rw [hsame k hk, hsame l hl]
    exact h.inj k l hk hl
  · intro k hk
    rw [hsame k hk]
    exact h.place k hk
  · intro ip bn hbn' hle
    rw [hsame _ (ofBlock_valid hbn')]
    exact h.clear ip bn hbn' hle
  · intro b hb
    rw [hblock_ne b (by omega)]
    exact h.zero b hb
  · intro ip i hi
    -- the bytes of other blocks stay
    have hother : ∀ (hbn' : i / BSIZE < NBLOCKS), Node.ofBlock ip (i / BSIZE) ≠ Node.ofBlock inum fbn →
        s.blockOf (Node.ofBlock ip (i / BSIZE)) ≠ 0 → t.byte ip i = s.byte ip i := by
      intro hbn' hne h0
      unfold State.byte
      rw [hsame _ (ofBlock_valid hbn'), hblock_ne]
      intro heq
      exact hne (h.inj _ _ (ofBlock_valid hbn') hv (by rw [heq, hx]) h0)
    by_cases hip : ip = inum
    · subst hip
      rw [Function.update_self] at hi ⊢
      rw [List.length_append, List.length_take, min_eq_left hn1] at hi
      by_cases hold : i < l.length
      · obtain ⟨hbn', h0, hbyte⟩ := h.backed ip i (by rw [hl]; exact hold)
        refine ⟨hbn', by rw [hsame _ (ofBlock_valid hbn')]; exact h0, ?_⟩
        rw [List.getElem?_append_left hold, ← hl, hbyte]
        by_cases hsameblock : i / BSIZE = fbn
        · unfold State.byte
          rw [hsame _ (ofBlock_valid hbn'), hsameblock, hx, hblock, Function.update_self]
          unfold memmove
          have hmod := Nat.div_add_mod i BSIZE
          rw [hsameblock] at hmod
          rw [if_neg]
          rw [Nat.mul_comm] at hmod hdiv
          omega
        · rw [hother hbn' (fun heq => hsameblock (ofBlock_inj heq)) h0]
      · have hi_div : i / BSIZE = fbn := by
          apply Nat.div_eq_of_lt_le
          · rw [Nat.mul_comm]
            omega
          · omega
        refine ⟨by rw [hi_div]; exact hbn, ?_, ?_⟩
        · rw [hsame _ (by rw [hi_div]; exact hv), hi_div, hx]
          exact hx0
        · rw [List.getElem?_append_right (by omega), List.getElem?_take_of_lt (by omega)]
          unfold State.byte
          have hmod := Nat.div_add_mod i BSIZE
          rw [hi_div] at hmod
          rw [hsame _ (by rw [hi_div]; exact hv), hi_div, hx, hblock, Function.update_self]
          unfold memmove buffer
          rw [Nat.mul_comm] at hmod hdiv
          rw [if_pos (by omega), List.getD_eq_getElem?_getD]
          have hindex : 0 + (i % BSIZE - (l.length - fbn * BSIZE)) = i - l.length := by omega
          rw [hindex, List.getElem?_eq_getElem (by omega)]
          rfl
    · rw [Function.update_of_ne hip] at hi ⊢
      obtain ⟨hbn', h0, hbyte⟩ := h.backed ip i hi
      refine ⟨hbn', by rw [hsame _ (ofBlock_valid hbn')]; exact h0, ?_⟩
      rw [hbyte, hother hbn' (fun heq => hip ?_) h0]
      have hnode := congrArg Node.ip heq
      rwa [ofBlock_ip, ofBlock_ip] at hnode

/-! ## `iappend` -/

/-- The blocks that an appending `iappend` takes; inodes are written later. -/
structure Kept (m t : Image) (din din' : Inode) : Prop where
  dinode : t.dinode = m.dinode
  freeinode : t.freeinode = m.freeinode
  mono : m.freeblock ≤ t.freeblock
  other : din' = { din with addrs := din'.addrs }

theorem Kept.refl (m : Image) (din : Inode) : Kept m m din din := ⟨rfl, rfl, le_rfl, rfl⟩

theorem Kept.trans {m u t : Image} {din din' din'' : Inode} (h : Kept m u din din') (h' : Kept u t din' din'') :
    Kept m t din din'' where
  dinode := h'.dinode.trans h.dinode
  freeinode := h'.freeinode.trans h.freeinode
  mono := h.mono.trans h'.mono
  other := by
    rw [h'.other, h.other]

/-- As long as one block of the bitmap is enough for them, blocks are apart. -/
def Keeps (inum : ℕ) (m t : Image) (din din' : Inode) (d : Node) : Prop :=
  t.freeblock ≤ BPB → ∀ content reach reach', Beyond reach reach' d →
    Packed (m.put inum din).kernel m.freeblock content reach →
      Packed (t.put inum din').kernel t.freeblock content reach'

theorem addr_spec (inum : ℕ) (hi : i < NADDRS) : Triple (fun t => t = m) (addr din i)
    (fun din' t => Kept m t din din' ∧ Keeps inum m t din din' ⟨inum, i, []⟩ ∧ (0 < m.freeblock → din'.addrs i ≠ 0))
    fun _ _ => False := by
  refine Triple.ite (fun h0 => ?_) fun h0 => ?_
  · refine Triple.bind (R := fun b t => b = m.freeblock ∧ t = { m with freeblock := m.freeblock + 1 }) ?_ fun b =>
      Triple.of_fact fun hb => Triple.pure fun t ht => ?_
    · rintro t rfl
      exact ⟨rfl, rfl⟩
    subst hb ht
    refine ⟨⟨rfl, rfl, Nat.le_succ _, rfl⟩, fun hmax content reach reach' hreach h => ?_, fun hpos => ?_⟩
    · have hinode : (m.put inum din).kernel.inode inum = din := Function.update_self ..
      have hfill := fill_addr h hi (by rw [hinode]; exact h0)
      have hnext := h.fill hfill (fun _ _ _ _ => rfl) (fun _ _ => rfl) hreach
      have hstate : (m.put inum din).kernel.setAddr inum i m.freeblock =
          (Image.put { m with freeblock := m.freeblock + 1 } inum
            { din with addrs := Function.update din.addrs i m.freeblock }).kernel := by
        unfold State.setAddr State.setInode Image.kernel Image.put
        simp
      rwa [hstate] at hnext
    · show Function.update din.addrs i m.freeblock i ≠ 0
      rw [Function.update_self]
      omega
  · refine Triple.pure fun t ht => ?_
    subst ht
    exact ⟨Kept.refl t din, fun _ content reach reach' hreach h => h.weaken hreach, fun _ => h0⟩

/-- The inode has its blocks up to `bn`. -/
def upTo (reach : ℕ → ℕ) (inum bn : ℕ) : ℕ → ℕ := Function.update reach inum (max (reach inum) (bn + 1))

theorem beyond_block (reach : ℕ → ℕ) (inum bn : ℕ) : Beyond reach (upTo reach inum bn) (Node.ofBlock inum bn) := by
  intro ip k _ hle
  unfold upTo at hle
  by_cases hip : ip = inum
  · rw [hip, Function.update_self, max_le_iff] at hle
    refine ⟨by rw [hip]; exact hle.1, fun heq => ?_⟩
    have hk := ofBlock_inj heq
    omega
  · rw [Function.update_of_ne hip] at hle
    refine ⟨hle, fun heq => hip ?_⟩
    have hnode := congrArg Node.ip heq
    rwa [ofBlock_ip, ofBlock_ip] at hnode

/-- An index block is no block of the file. -/
theorem beyond_index (reach : ℕ → ℕ) (inum : ℕ) : Beyond reach reach ⟨inum, NDIRECT, []⟩ := by
  intro ip bn _ hle
  refine ⟨hle, ?_⟩
  unfold Node.ofBlock
  split
  · rename_i hbn
    intro heq
    have hi := congrArg Node.i heq
    dsimp only at hi
    omega
  split
  · simp
  split
  · simp
  · simp

/-- What `blockFor` gives is the block of the file. -/
def Gives (inum fbn : ℕ) (m t : Image) (din din' : Inode) (x : ℕ) : Prop :=
  t.freeblock ≤ BPB → ∀ content reach, Packed (m.put inum din).kernel m.freeblock content reach →
    Packed (t.put inum din').kernel t.freeblock content (upTo reach inum fbn) ∧
      (t.put inum din').kernel.blockOf (Node.ofBlock inum fbn) = x ∧ x ≠ 0

theorem blockFor_spec (inum fbn : ℕ) : Triple (fun t => t = m) (blockFor din fbn)
    (fun r t => fbn < NDIRECT + NINDIRECT ∧ Kept m t din r.1 ∧ Gives inum fbn m t din r.1 r.2)
    fun e _ => e = .outside ∧ NDIRECT + NINDIRECT ≤ fbn := by
  have hmeta : 0 < nmeta := by decide
  have hput : ∀ (t : Image) din', (t.put inum din').kernel.inode inum = din' := fun t din' => Function.update_self ..
  refine Triple.ite (fun hd => ?_) fun hd => ?_
  · have hnode : Node.ofBlock inum fbn = ⟨inum, fbn, []⟩ := if_pos hd
    refine Triple.bind ((addr_spec inum (lt_trans hd (by decide))).conseq (fun _ => id) (fun _ _ => id)
      fun _ _ h => h.elim) fun din' => Triple.pure fun t ht => ?_
    obtain ⟨hkept, hkeeps, hne⟩ := ht
    refine ⟨by omega, hkept, fun hmax content reach h => ⟨?_, ?_, ?_⟩⟩
    · refine hkeeps hmax content reach _ ?_ h
      rw [← hnode]
      exact beyond_block reach inum fbn
    · rw [hnode, State.blockOf_nil, hput]
    · have hlow := h.low
      exact hne (by omega)
  · refine Triple.bind ((addr_spec inum (by decide : NDIRECT < NADDRS)).conseq (fun _ => id) (fun _ _ => id)
      fun _ _ h => h.elim) fun din' => Triple.of_state fun u hu => ?_
    obtain ⟨hkept, hkeeps, hne⟩ := hu
    refine Triple.bind (R := fun r t => r = u.sect (din'.addrs NDIRECT) ∧ t = u) ?_ fun indirect =>
      Triple.of_fact fun hindirect => ?_
    · rintro t rfl
      exact ⟨rfl, rfl⟩
    refine Triple.bind (R := fun _ t => fbn - NDIRECT < NINDIRECT ∧ t = u) (Triple.assert (fun hj t ht => ⟨hj, ht⟩)
      fun hj t _ => ⟨rfl, by omega⟩) fun _ => Triple.of_fact fun hj => ?_
    have hnode : Node.ofBlock inum fbn = ⟨inum, NDIRECT, [fbn - NDIRECT]⟩ := by
      unfold Node.ofBlock
      rw [if_neg hd, if_pos hj]
    subst hindirect
    refine Triple.ite (fun h0 => ?_) fun h0 => ?_
    · refine Triple.bind (R := fun b t => b = u.freeblock ∧ t = { u with freeblock := u.freeblock + 1 }) ?_ fun b =>
        Triple.of_fact fun hb => ?_
      · rintro t rfl
        exact ⟨rfl, rfl⟩
      subst hb
      refine Triple.bind (R := fun _ t => t = { u with
        freeblock := u.freeblock + 1
        sect := Function.update u.sect (din'.addrs NDIRECT)
          (setWord (u.sect (din'.addrs NDIRECT)) (fbn - NDIRECT) u.freeblock) })
        (Triple.modify fun t ht => by rw [ht]) fun _ => Triple.pure fun t ht => ?_
      have hkept' : Kept m t din din' := by
        rw [ht]
        exact ⟨hkept.dinode, hkept.freeinode, hkept.mono.trans (Nat.le_succ _), hkept.other⟩
      refine ⟨by omega, hkept', fun hmax content reach h => ?_⟩
      have hfree : u.freeblock < BPB := by
        rw [ht] at hmax
        exact hmax
      have hu := hkeeps hfree.le content reach _ (beyond_index reach inum) h
      have hlow := h.low
      have hroot : (u.put inum din').kernel.blockOf ⟨inum, NDIRECT, []⟩ = din'.addrs NDIRECT := by
        rw [State.blockOf_nil, hput]
      have hroot0 : din'.addrs NDIRECT ≠ 0 := hne (by omega)
      have hv : Node.Valid ⟨inum, NDIRECT, []⟩ := ⟨(by decide : NDIRECT < NADDRS), Nat.zero_le _, by simp⟩
      have hplace := hu.place _ hv (by rw [hroot]; exact hroot0)
      rw [hroot] at hplace
      have hfill := fill_word hu (lt_trans hfree (by decide)) hroot hroot0 hj h0
      have hstate : (t.put inum din').kernel = (u.put inum din').kernel.setBlock (din'.addrs NDIRECT)
          fun d => setWord d (fbn - NDIRECT) u.freeblock := by
        rw [ht]
        rfl
      have htfree : t.freeblock = u.freeblock + 1 := by rw [ht]
      rw [hstate, htfree]
      refine ⟨hu.fill hfill (fun k hk hl h0 => ?_) (fun b hb => ?_) ?_, ?_, by omega⟩
      · refine State.setBlock_ne _ _ fun heq => ?_
        have hnode' := hu.inj k _ hk hv (by rw [heq, hroot]) h0
        rw [hnode'] at hl
        cases hl
      · exact State.setBlock_ne _ _ (by omega)
      · rw [← hnode]
        exact beyond_block reach inum fbn
      · have hboth := hfill.blockOf (by omega) _ hfill.valid
        rwa [if_pos rfl, ← hnode] at hboth
    · refine Triple.pure fun t ht => ?_
      subst ht
      refine ⟨by omega, hkept, fun hmax content reach h => ?_⟩
      have hu := hkeeps hmax content reach _ (beyond_index reach inum) h
      have hlow := h.low
      refine ⟨hu.weaken (beyond_block reach inum fbn), ?_, h0⟩
      rw [hnode, State.blockOf_cons, State.blockOf_nil, hput, if_neg (hne (by omega))]
      rfl

/-- What `iappend` can put into a file. -/
abbrev CAPACITY : ℕ := (NDIRECT + NINDIRECT) * BSIZE

def append (content : ℕ → List Byte) (inum : ℕ) (p : List Byte) : ℕ → List Byte :=
  Function.update content inum (content inum ++ p)

/-- How many blocks the content takes. -/
def blocks (content : ℕ → List Byte) (ip : ℕ) : ℕ := ((content ip).length + BSIZE - 1) / BSIZE

theorem append_self (content : ℕ → List Byte) (inum : ℕ) (p : List Byte) :
    append content inum p inum = content inum ++ p := Function.update_self ..

theorem append_append (content : ℕ → List Byte) (inum : ℕ) (p q : List Byte) :
    append (append content inum p) inum q = append content inum (p ++ q) := by
  unfold append
  rw [Function.update_self, Function.update_idem, List.append_assoc]

theorem append_nil (content : ℕ → List Byte) (inum : ℕ) : append content inum [] = content := by
  unfold append
  rw [List.append_nil, Function.update_eq_self]

/-- Bytes in the block `fbn`, which the content has reached. -/
theorem upTo_blocks {p : List Byte} {fbn : ℕ} (hfbn : (content inum).length / BSIZE = fbn) (hp : 0 < p.length)
    (hfit : (content inum).length + p.length ≤ (fbn + 1) * BSIZE) :
    upTo (blocks content) inum fbn = blocks (append content inum p) := by
  funext ip
  unfold upTo
  by_cases hip : ip = inum
  · rw [hip, Function.update_self]
    unfold blocks
    rw [append_self, List.length_append]
    simp only [BSIZE] at *
    omega
  · rw [Function.update_of_ne hip]
    unfold blocks append
    rw [Function.update_of_ne hip]

/-- The blocks are apart, as long as one block of the bitmap is enough for them. -/
def Whole (m : Image) (inum : ℕ) (din : Inode) (content : ℕ → List Byte) : Prop :=
  m.freeblock ≤ BPB → Packed (m.put inum din).kernel m.freeblock content (blocks content)

theorem iappendLoop_spec (inum : ℕ) (k : ℕ) : ∀ p din m content, p.length ≤ k →
    (content inum).length ≤ CAPACITY → Whole m inum din content →
    Triple (fun t => t = m) (iappendLoop k p din (content inum).length)
      (fun r t => Kept m t din r.1 ∧ r.2 = (content inum ++ p).length ∧ r.2 ≤ CAPACITY ∧
        Whole t inum r.1 (append content inum p))
      fun e _ => e = .outside ∧ CAPACITY < (content inum ++ p).length := by
  induction k with
  | zero =>
    intro p din m content hk hcap hwhole
    have hp : p = [] := List.length_eq_zero_iff.1 (by omega)
    refine Triple.pure fun t ht => ?_
    subst ht hp
    rw [append_nil, List.append_nil]
    exact ⟨Kept.refl t din, rfl, hcap, hwhole⟩
  | succ k ih =>
    intro p din m content hk hcap hwhole
    refine Triple.ite (fun hp => ?_) fun hp => ?_
    · refine Triple.pure fun t ht => ?_
      subst ht hp
      rw [append_nil, List.append_nil]
      exact ⟨Kept.refl t din, rfl, hcap, hwhole⟩
    have hpos : 0 < p.length := List.length_pos_iff.2 hp
    obtain ⟨off, hoff⟩ : ∃ off, off = (content inum).length := ⟨_, rfl⟩
    rw [← hoff] at hcap ⊢
    dsimp only
    obtain ⟨fbn, hfbn⟩ : ∃ fbn, fbn = off / BSIZE := ⟨_, rfl⟩
    rw [← hfbn]
    have hdiv := Nat.div_add_mod off BSIZE
    have hmod : off % BSIZE < BSIZE := Nat.mod_lt _ (by decide)
    rw [← hfbn] at hdiv
    have hcapacity : CAPACITY = 138 * BSIZE := rfl
    have hmax : MAXFILE = 2113674 := rfl
    have hnblocks : NBLOCKS = 2097162 := rfl
    have hlen : (content inum ++ p).length = off + p.length := by rw [List.length_append, hoff]
    refine Triple.bind (R := fun _ t => t = m) (Triple.assert (fun _ t ht => ht) fun hlt => ?_) fun _ => ?_
    · simp only [BSIZE] at *
      omega
    refine Triple.bind ((blockFor_spec inum fbn).conseq (fun _ => id) (fun _ _ => id) ?_) fun r =>
      Triple.of_state fun u hu => ?_
    · rintro e t ⟨he, hle⟩
      refine ⟨he, ?_⟩
      simp only [BSIZE, NDIRECT, NINDIRECT] at *
      omega
    obtain ⟨hroom, hkept, hgives⟩ := hu
    obtain ⟨din', x⟩ := r
    dsimp only at hkept hgives ⊢
    obtain ⟨n1, hn1⟩ : ∃ n1, n1 = min p.length ((fbn + 1) * BSIZE - off) := ⟨_, rfl⟩
    rw [← hn1]
    have hn1pos : 0 < n1 ∧ n1 ≤ p.length ∧ off + n1 ≤ (fbn + 1) * BSIZE := by
      simp only [BSIZE] at *
      omega
    refine Triple.bind (R := fun buf t => buf = u.sect x ∧ t = u) ?_ fun buf => Triple.of_fact fun hbuf => ?_
    · rintro t rfl
      exact ⟨rfl, rfl⟩
    subst hbuf
    refine Triple.bind (R := fun _ t => t = { u with
      sect := Function.update u.sect x (memmove (u.sect x) (off - fbn * BSIZE) (buffer p) 0 n1) })
      (Triple.modify fun t ht => by rw [ht]) fun _ => Triple.of_state fun v hv => ?_
    have htake : (p.take n1).length = n1 := by rw [List.length_take, min_eq_left hn1pos.2.1]
    have hkept' : Kept m v din din' := by
      rw [hv]
      exact ⟨hkept.dinode, hkept.freeinode, hkept.mono, hkept.other⟩
    have hwhole' : Whole v inum din' (append content inum (p.take n1)) := by
      intro hvmax
      have humax : u.freeblock ≤ BPB := by
        rw [hv] at hvmax
        exact hvmax
      obtain ⟨hpacked, hx, hx0⟩ := hgives humax content _ (hwhole (hkept.mono.trans humax))
      have hupTo : upTo (blocks content) inum fbn = blocks (append content inum (p.take n1)) := by
        apply upTo_blocks
        · rw [← hoff, ← hfbn]
        · omega
        · rw [htake, ← hoff]
          exact hn1pos.2.2
      rw [hupTo] at hpacked
      have hfree : v.freeblock = u.freeblock := by rw [hv]
      rw [hfree]
      refine hpacked.write rfl (by rw [← hoff, ← hfbn]) ?_ hx hx0 hn1pos.2.1 (by rw [← hoff]; exact hn1pos.2.2) ?_ ?_
      · exact lt_trans hroom (by decide)
      · rw [hv]
        rfl
      · rw [hv, ← hoff]
        rfl
    have hnext := ih (p.drop n1) din' v (append content inum (p.take n1)) (by rw [List.length_drop]; omega) ?_ hwhole'
    · rw [append_append, append_self, List.append_assoc, List.take_append_drop, List.length_append, htake,
        ← hoff] at hnext
      refine hnext.conseq (fun _ => id) ?_ fun _ _ h => h
      rintro r t ⟨hk', h⟩
      exact ⟨hkept'.trans hk', h⟩
    · rw [append_self, List.length_append, htake, ← hoff]
      simp only [BSIZE, NDIRECT, NINDIRECT] at *
      omega

/-- Only the addresses and the sectors matter. -/
theorem Packed.congr (h : Packed s free content reach) (hblock : t.block = s.block)
    (haddrs : ∀ ip, (t.inode ip).addrs = (s.inode ip).addrs) : Packed t free content reach := by
  have hsame : ∀ k : Node, k.Valid → t.blockOf k = s.blockOf k :=
    State.blockOf_congr haddrs fun _ _ _ _ => by rw [hblock]
  refine ⟨h.low, fun k l hk hl => ?_, fun k hk => ?_, fun ip bn hbn => ?_, fun b => ?_, fun ip i hi => ?_⟩
  · rw [hsame k hk, hsame l hl]
    exact h.inj k l hk hl
  · rw [hsame k hk]
    exact h.place k hk
  · rw [hsame _ (ofBlock_valid hbn)]
    exact h.clear ip bn hbn
  · rw [hblock]
    exact h.zero b
  · obtain ⟨hbn, h0, hbyte⟩ := h.backed ip i hi
    unfold State.byte
    rw [hsame _ (ofBlock_valid hbn), hblock]
    exact ⟨hbn, h0, hbyte⟩

/-- The image has inodes with this content. -/
structure Holding (m : Image) (content : ℕ → List Byte) : Prop where
  size : ∀ ip, (m.dinode ip).size = (content ip).length
  cap : ∀ ip, (content ip).length ≤ CAPACITY
  whole : m.freeblock ≤ BPB → Packed m.kernel m.freeblock content (blocks content)

/-- Nothing but addresses and sizes of inodes differs. -/
structure Same (m t : Image) : Prop where
  freeinode : t.freeinode = m.freeinode
  type : ∀ ip, (t.dinode ip).type = (m.dinode ip).type

/-- **`iappend`** appends, up to the last entry of the index block. -/
theorem iappend_spec (inum : ℕ) (p : List Byte) (h : Holding m content) :
    Triple (fun t => t = m) (iappend inum p)
      (fun _ t => Holding t (append content inum p) ∧ Same m t ∧ ∀ ip, ip ≠ inum → t.dinode ip = m.dinode ip)
      fun e _ => e = .outside ∧ CAPACITY < (content inum ++ p).length := by
  refine Triple.bind (R := fun din t => din = m.dinode inum ∧ t = m) ?_ fun din => Triple.of_fact fun hdin => ?_
  · rintro t rfl
    exact ⟨rfl, rfl⟩
  subst hdin
  have hwhole : Whole m inum (m.dinode inum) content := by
    have hput : m.put inum (m.dinode inum) = m := by
      unfold Image.put
      rw [Function.update_eq_self]
    intro hmax
    rw [hput]
    exact h.whole hmax
  rw [h.size]
  refine Triple.bind (iappendLoop_spec inum p.length p _ m content le_rfl (h.cap inum) hwhole) fun r =>
    Triple.of_state fun u hu => ?_
  obtain ⟨din', off⟩ := r
  obtain ⟨hkept, hoff, hcap, hwhole'⟩ := hu
  dsimp only at hkept hoff hcap hwhole'
  refine Triple.modify fun t ht => ?_
  subst ht
  have hother : ∀ ip, ip ≠ inum → (t.put inum { din' with size := off }).dinode ip = m.dinode ip := by
    intro ip hip
    show Function.update t.dinode inum _ ip = _
    rw [Function.update_of_ne hip, hkept.dinode]
  have hself : (t.put inum { din' with size := off }).dinode inum = { din' with size := off } := Function.update_self ..
  refine ⟨⟨fun ip => ?_, fun ip => ?_, fun hmax => (hwhole' hmax).congr rfl fun ip => ?_⟩,
    ⟨hkept.freeinode, fun ip => ?_⟩, hother⟩
  · by_cases hip : ip = inum
    · rw [hip, hself, append_self]
      exact hoff
    · rw [hother ip hip, h.size]
      unfold append
      rw [Function.update_of_ne hip]
  · by_cases hip : ip = inum
    · rw [hip, append_self, ← hoff]
      exact hcap
    · unfold append
      rw [Function.update_of_ne hip]
      exact h.cap ip
  · show (Function.update t.dinode inum _ ip).addrs = (Function.update t.dinode inum _ ip).addrs
    by_cases hip : ip = inum
    · rw [hip, Function.update_self, Function.update_self]
    · rw [Function.update_of_ne hip, Function.update_of_ne hip]
  · by_cases hip : ip = inum
    · rw [hip, hself, hkept.other]
    · rw [hother ip hip]

end

end Xv6.Block.Mkfs
