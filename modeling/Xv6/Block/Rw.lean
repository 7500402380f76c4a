import Xv6.Block.Stable

/-!
# Reading and writing inodes

`readi` and `writei` go through the file block by block.

* `Wrote`: the bytes that a write puts into a file are there, and all other bytes of files are as before.
* `writeRound_rule`: one round of the loop of `writei`.
* `writeiLoop_spec`: the loop, as long as the write ends within the range of `bmap`.
* **`writei_in_range`**: `writei` asks `bmap` for a block that is out of range if and only if the write goes on
  beyond the first `NBLOCKS` blocks.
-/

namespace Xv6.Block

open Prog

abbrev T_DEV : ℕ := 3
abbrev NDEV : ℕ := 10

/-- The functions of the devices, by major number. -/
structure Devsw where
  read : ℕ → Option (Bytes → ℕ → M (ℤ × Bytes))
  write : ℕ → Option (Bytes → ℕ → M ℤ)

/-- `memmove(d + i, src + j, m)`. -/
def memmove (d : Bytes) (i : ℕ) (src : Bytes) (j m : ℕ) : Bytes := fun k =>
  if i ≤ k ∧ k < i + m then src (j + (k - i)) else d k

/-- One round of the loop of `readi`. -/
def readRound (sb : Super) (ip tot off m : ℕ) (dst : Bytes) : M Bytes := do
  let b ← bmap sb ip (off / BSIZE)
  bread b
  let s ← Prog.get
  brelse b
  pure (memmove dst tot (s.block b) (off % BSIZE) m)

def readiLoop (sb : Super) (ip n tot off : ℕ) (dst : Bytes) : M Bytes :=
  if tot < n then do
    let m := min (n - tot) (BSIZE - off % BSIZE)
    let dst ← readRound sb ip tot off m dst
    readiLoop sb ip n (tot + m) (off + m) dst
  else pure dst
termination_by n - tot
decreasing_by
  have hoff : off % BSIZE < BSIZE := Nat.mod_lt _ (by decide)
  omega

/-- The result, and `dst` afterwards. A negative major number is one from 32768 on here. -/
def readi (sb : Super) (devsw : Devsw) (ip : ℕ) (dst : Bytes) (off n : ℕ) : M (ℤ × Bytes) := do
  let s ← Prog.get
  if (s.inode ip).type = T_DEV then
    match if (s.inode ip).major < NDEV then devsw.read (s.inode ip).major else none with
    | none => pure (-1, dst)
    | some read => read dst n
  else if (s.inode ip).size < off ∨ (off + n) % 2 ^ 32 < off then pure (-1, dst)
  else do
    let n := if (s.inode ip).size < (off + n) % 2 ^ 32 then (s.inode ip).size - off else n
    let dst ← readiLoop sb ip n 0 off dst
    pure (n, dst)

/-- One round of the loop of `writei`. -/
def writeRound (sb : Super) (ip : ℕ) (src : Bytes) (tot off m : ℕ) : M Unit := do
  let b ← bmap sb ip (off / BSIZE)
  bread b
  setBlock b fun d => memmove d (off % BSIZE) src tot m
  log_write sb b
  brelse b

/-- With what `off` is in the end. -/
def writeiLoop (sb : Super) (ip : ℕ) (src : Bytes) (n tot off : ℕ) : M ℕ :=
  if tot < n then do
    let m := min (n - tot) (BSIZE - off % BSIZE)
    writeRound sb ip src tot off m
    writeiLoop sb ip src n (tot + m) (off + m)
  else pure off
termination_by n - tot
decreasing_by
  have hoff : off % BSIZE < BSIZE := Nat.mod_lt _ (by decide)
  omega

def writei (sb : Super) (devsw : Devsw) (ip : ℕ) (src : Bytes) (off n : ℕ) : M ℤ := do
  let s ← Prog.get
  if (s.inode ip).type = T_DEV then
    match if (s.inode ip).major < NDEV then devsw.write (s.inode ip).major else none with
    | none => pure (-1)
    | some write => write src n
  else if (s.inode ip).size < off ∨ (off + n) % 2 ^ 32 < off then pure (-1)
  else if MAXFILE * BSIZE < (off + n) % 2 ^ 32 then pure (-1)
  else do
    let off ← writeiLoop sb ip src n 0 off
    let s ← Prog.get
    Prog.when (0 < n ∧ (s.inode ip).size < off) do
      Prog.modify fun s => s.setInode ip fun x => { x with size := off }
      iupdate sb ip
    pure n

/-- Byte `i` of the file, if its block is there. -/
def State.byte (s : State) (ip i : ℕ) : Byte := s.block (s.blockOf (Node.ofBlock ip (i / BSIZE))) (i % BSIZE)

section

variable {sb : Super} {data : ℕ} {s t u : State} {ip n m tot off : ℕ} {src : Bytes} {E : Fault → State → Prop}

/-! ## Writing into a block of a file -/

/-- The content of data blocks does not say what is where. -/
theorem Forest.write (hg : Geometry sb data) (hp : Forest sb data s) {d : Node} (hd : d.Valid) (hl : d.Leaf)
    (h0 : s.blockOf d ≠ 0) (hinode : t.inode = s.inode) (hblock : ∀ b, b ≠ s.blockOf d → t.block b = s.block b) :
    (∀ k : Node, k.Valid → t.blockOf k = s.blockOf k) ∧ (∀ b, b < sb.size → t.used sb b = s.used sb b) ∧
      Forest sb data t := by
  have hsame : ∀ k : Node, k.Valid → t.blockOf k = s.blockOf k := by
    apply State.blockOf_congr
    · intro ip
      rw [hinode]
    · intro k hk hk0 hkl
      apply hblock
      intro heq
      rw [hp.inj k d hk hd heq hk0] at hkl
      exact hkl hl
  have hused : ∀ b, b < sb.size → t.used sb b = s.used sb b := by
    intro b hb
    have hdata := (hp.place d hd h0).1
    have hbitmap := hg.bitmap b hb
    unfold State.used
    rw [hblock _ (by omega)]
  refine ⟨hsame, hused, hp.congr hsame fun b hb h => ?_⟩
  rw [hused b hb, h]

/-- Bytes `off` to `off + m` of the file are those of `src` from `k` on, and no other byte of a file changed. -/
structure Wrote (sb : Super) (data ip off m : ℕ) (src : Bytes) (k : ℕ) (s t : State) : Prop where
  rest : Rest sb data t
  here : ∀ i, i < m → t.blockOf (Node.ofBlock ip ((off + i) / BSIZE)) ≠ 0 ∧ t.byte ip (off + i) = src (k + i)
  keep : ∀ ip' bn, bn < NBLOCKS → s.blockOf (Node.ofBlock ip' bn) ≠ 0 →
    t.blockOf (Node.ofBlock ip' bn) = s.blockOf (Node.ofBlock ip' bn)
  other : ∀ ip' i, i / BSIZE < NBLOCKS → s.blockOf (Node.ofBlock ip' (i / BSIZE)) ≠ 0 →
    (ip' = ip → i < off ∨ off + m ≤ i) → t.byte ip' i = s.byte ip' i
  inode : ∀ ip', t.inode ip' = { s.inode ip' with addrs := (t.inode ip').addrs }

theorem Wrote.refl (hr : Rest sb data s) (ip off : ℕ) (src : Bytes) (k : ℕ) : Wrote sb data ip off 0 src k s s :=
  ⟨hr, fun _ hi => absurd hi (Nat.not_lt_zero _), fun _ _ _ _ => rfl, fun _ _ _ _ _ => rfl, fun _ => rfl⟩

/-- One write after the other. -/
theorem Wrote.trans {k m' : ℕ} (h : Wrote sb data ip off m src k s t) (h' : Wrote sb data ip (off + m) m' src (k + m) t u)
    (hend : off + m ≤ NBLOCKS * BSIZE) : Wrote sb data ip off (m + m') src k s u := by
  have hbn : ∀ i, i < m → (off + i) / BSIZE < NBLOCKS := by
    intro i hi
    rw [Nat.div_lt_iff_lt_mul (by decide)]
    omega
  constructor
  · exact h'.rest
  · intro i hi
    by_cases him : i < m
    · obtain ⟨h0, hbyte⟩ := h.here i him
      have hkeep := h'.keep ip _ (hbn i him) h0
      refine ⟨by rwa [hkeep], ?_⟩
      rw [h'.other ip (off + i) (hbn i him) h0 fun _ => .inl (by omega), hbyte]
    · obtain ⟨j, rfl⟩ : ∃ j, i = m + j := ⟨i - m, by omega⟩
      have hhere := h'.here j (by omega)
      rw [← Nat.add_assoc, ← Nat.add_assoc]
      exact hhere
  · intro ip' bn hb h0
    have hkeep := h.keep ip' bn hb h0
    rw [h'.keep ip' bn hb (by rwa [hkeep]), hkeep]
  · intro ip' i hb h0 hout
    have hkeep := h.keep ip' _ hb h0
    rw [h'.other ip' i hb (by rwa [hkeep]) fun hip => ?_, h.other ip' i hb h0 fun hip => ?_]
    · have := hout hip
      omega
    · have := hout hip
      omega
  · intro ip'
    rw [h'.inode ip', h.inode ip']

/-! ## The loop of `writei` -/

/-- **One round**, given what `bmap` does. -/
theorem writeRound_rule {P : State → Prop} (hg : Geometry sb data) (hr : Rest sb data s)
    (hbn : off / BSIZE < NBLOCKS) (hm : off % BSIZE + m ≤ BSIZE)
    (hb : Triple (fun t => t = s) (bmap sb ip (off / BSIZE))
      (fun r t => P t ∧ Mapped sb data s (Node.ofBlock ip (off / BSIZE)) (Node.ofBlock ip (off / BSIZE)) r t) E)
    (hlog : ∀ u, P u → ¬ u.logged.card < sb.logsize → ∀ t, E .tooBig t) :
    Triple (fun t => t = s) (writeRound sb ip src tot off m)
      (fun _ t => Wrote sb data ip off m src tot s t ∧ ∃ u b, P u ∧ t.logged = insert b u.logged ∧
        ∀ c, c < sb.size → t.used sb c = u.used sb c) E := by
  set d := Node.ofBlock ip (off / BSIZE) with hd
  have hv : d.Valid := ofBlock_valid hbn
  have hl : d.Leaf := ofBlock_leaf ip _
  refine Triple.bind hb fun r => Triple.of_state fun u hu => ?_
  obtain ⟨hP, hmap⟩ := hu
  have hheld : u.held = ∅ := by rw [hmap.grown.held, hr.held]
  have hfree : r ∉ u.held := by
    rw [hheld]
    exact Finset.notMem_empty r
  refine Triple.bind (bread_spec hfree) fun _ => ?_
  refine Triple.bind (R := fun _ t => t = ({ u with held := insert r u.held } : State).setBlock r
    fun d => memmove d (off % BSIZE) src tot m) (Triple.modify fun t h => by rw [h]) fun _ => ?_
  refine Triple.bind (log_write_spec r fun hfull => hlog u hP hfull _) fun _ => Triple.of_fact fun _ => ?_
  refine (brelse_spec (Finset.mem_insert_self r u.held)).post fun _ t ht => ?_
  have hinode : t.inode = u.inode := by
    rw [ht]
    rfl
  have hne : ∀ b, b ≠ r → t.block b = u.block b := by
    intro b hb
    rw [ht]
    show (u.setBlock r fun d => memmove d (off % BSIZE) src tot m).block b = u.block b
    exact State.setBlock_ne u _ hb
  have hself : t.block r = memmove (u.block r) (off % BSIZE) src tot m := by
    rw [ht]
    show (u.setBlock r fun d => memmove d (off % BSIZE) src tot m).block r = _
    exact State.setBlock_self u r _
  have h0 : u.blockOf d ≠ 0 := by
    rw [hmap.here]
    exact hmap.ne
  obtain ⟨hsame, hused, hforest⟩ := hmap.forest.write hg hv hl h0 hinode fun b hb => hne b (by rwa [hmap.here] at hb)
  have hrest : Rest sb data t := by
    refine ⟨hforest, ?_⟩
    rw [ht]
    show (insert r u.held).erase r = ∅
    rw [Finset.erase_insert hfree, hheld]
  refine ⟨⟨hrest, fun i hi => ?_, fun ip' bn hbn' hbn0 => ?_, fun ip' i hi hi0 hout => ?_, fun ip' => ?_⟩,
    ⟨u, r, hP, ?_, hused⟩⟩
  · -- a byte that is written
    have hblock : (off + i) / BSIZE = off / BSIZE := by
      simp only [BSIZE] at hm ⊢
      omega
    have hmod : (off + i) % BSIZE = off % BSIZE + i := by
      simp only [BSIZE] at hm ⊢
      omega
    unfold State.byte
    rw [hblock, ← hd, hsame d hv, hmap.here]
    refine ⟨hmap.ne, ?_⟩
    rw [hself, hmod]
    unfold memmove
    rw [if_pos ⟨by omega, by omega⟩]
    congr 1
    omega
  · rw [hsame _ (ofBlock_valid hbn'), hmap.grown.keep _ (ofBlock_valid hbn') hbn0]
  · -- another byte, in this block or in another
    have hv' : (Node.ofBlock ip' (i / BSIZE)).Valid := ofBlock_valid hi
    have hkeep := hmap.grown.keep _ hv' hi0
    have hcontent := hmap.grown.content _ hv' (ofBlock_leaf ip' _) hi0
    unfold State.byte
    rw [hsame _ hv', hkeep]
    by_cases heq : s.blockOf (Node.ofBlock ip' (i / BSIZE)) = r
    · have hnode : Node.ofBlock ip' (i / BSIZE) = d := by
        refine hmap.forest.inj _ _ hv' hv ?_ (by rwa [hkeep])
        rw [hkeep, heq, hmap.here]
      have hip : ip' = ip := by rw [← ofBlock_ip ip' (i / BSIZE), hnode, hd, ofBlock_ip]
      have hblock := ofBlock_inj hnode
      have hrange := hout hip
      rw [heq] at hcontent ⊢
      rw [hself, ← hcontent]
      unfold memmove
      apply if_neg
      rintro ⟨h1, h2⟩
      simp only [BSIZE] at hblock h1 h2 hm
      omega
    · rw [hne _ heq, hcontent]
  · rw [hinode]
    exact hmap.grown.other ip'
  · rw [ht]
    rfl

theorem writeRound_spec (hg : Geometry sb data) (hr : Rest sb data s) (hbn : off / BSIZE < NBLOCKS)
    (hm : off % BSIZE + m ≤ BSIZE) :
    Triple (fun t => t = s) (writeRound sb ip src tot off m) (fun _ t => Wrote sb data ip off m src tot s t) Full := by
  refine (writeRound_rule (P := fun _ => True) hg hr hbn hm ?_ fun _ _ _ _ => .inr rfl).post fun _ _ h => h.1
  exact (bmap_spec hg hr.forest hr.held hbn).post fun r t h => ⟨trivial, h⟩

theorem writeRound_room {f l : ℕ} (hg : Geometry sb data) (hr : Rest sb data s) (hbn : off / BSIZE < NBLOCKS)
    (hm : off % BSIZE + m ≤ BSIZE) (hroom : Room sb (f + 4) (l + 12) s) :
    Triple (fun t => t = s) (writeRound sb ip src tot off m)
      (fun _ t => Wrote sb data ip off m src tot s t ∧ Room sb f l t) fun _ _ => False := by
  have hroom' : Room sb (f + 4) (l + 1 + 11) s := hroom
  refine (writeRound_rule hg hr hbn hm (bmap_room hg hr.forest hr.held hbn hroom') fun u hu hfull => ?_).post fun _ t h => ?_
  · have hlog := hu.log
    omega
  · obtain ⟨hwrote, u, b, hu, hlogged, hused⟩ := h
    exact ⟨hwrote, hu.write hused (subset_of_eq hlogged)⟩

/-- How much a round writes: up to the end of the block, or of what there is to write. -/
theorem round_le (off : ℕ) (h : tot < n) : 0 < min (n - tot) (BSIZE - off % BSIZE) ∧
    off % BSIZE + min (n - tot) (BSIZE - off % BSIZE) ≤ BSIZE := by
  have hoff : off % BSIZE < BSIZE := Nat.mod_lt _ (by decide)
  omega

theorem bmap_beyond {bn : ℕ} (hbn : NBLOCKS ≤ bn) : bmap sb ip bn = Prog.throw .outOfRange := by
  unfold bmap
  simp only [NBLOCKS, NDIRECT, NINDIRECT] at hbn ⊢
  rw [if_neg (by omega), if_neg (by omega), if_neg (by omega), if_neg (by omega)]

/-- **The loop of `writei`**, within the range of `bmap`. -/
theorem writeiLoop_spec (hg : Geometry sb data) : ∀ k tot off s, n - tot = k → tot ≤ n → Rest sb data s →
    (tot < n → off + (n - tot) ≤ NBLOCKS * BSIZE) →
    Triple (fun t => t = s) (writeiLoop sb ip src n tot off)
      (fun r t => r = off + (n - tot) ∧ Wrote sb data ip off (n - tot) src tot s t) Full := by
  intro k
  induction k using Nat.strong_induction_on with
  | _ k ih =>
    intro tot off s hk htot hr hend
    rw [writeiLoop]
    refine Triple.ite (fun hlt => ?_) fun hge => ?_
    · obtain ⟨hpos, hround⟩ := round_le off hlt
      dsimp only
      set m := min (n - tot) (BSIZE - off % BSIZE)
      replace hend := hend hlt
      have hmn : m ≤ n - tot := min_le_left _ _
      have hbn : off / BSIZE < NBLOCKS := by
        rw [Nat.div_lt_iff_lt_mul (by decide)]
        omega
      refine Triple.bind (writeRound_spec hg hr hbn hround) fun _ => Triple.of_state fun t ht => ?_
      refine (ih (n - (tot + m)) (by omega) (tot + m) (off + m) t rfl (by omega) ht.rest fun _ => by omega).post ?_
      rintro r u ⟨hr, hu⟩
      refine ⟨by omega, ?_⟩
      have hwrote := ht.trans hu (by omega)
      rwa [show m + (n - (tot + m)) = n - tot by omega] at hwrote
    · refine Triple.pure fun t ht => ?_
      rw [ht, show n - tot = 0 by omega]
      exact ⟨rfl, Wrote.refl hr ip off src tot⟩

/-- **Beyond the range of `bmap`** the loop does not come to an end. -/
theorem writeiLoop_out (hg : Geometry sb data) : ∀ k tot off s, NBLOCKS - off / BSIZE = k → Rest sb data s →
    tot < n → NBLOCKS * BSIZE < off + (n - tot) → Room sb (4 * k) (12 * k) s →
    Triple (fun t => t = s) (writeiLoop sb ip src n tot off) (fun _ _ => False) fun e _ => e = .outOfRange := by
  intro k
  induction k with
  | zero =>
    intro tot off s hk _ hlt _ _
    rw [writeiLoop, if_pos hlt]
    dsimp only
    unfold writeRound
    rw [bmap_beyond (by omega)]
    exact fun _ _ => rfl
  | succ k ih =>
    intro tot off s hk hr hlt hend hroom
    rw [writeiLoop, if_pos hlt]
    have hoff : off % BSIZE < BSIZE := Nat.mod_lt _ (by decide)
    have hdiv := Nat.div_add_mod off BSIZE
    -- the write goes on beyond this block
    have hm : min (n - tot) (BSIZE - off % BSIZE) = BSIZE - off % BSIZE := by
      apply min_eq_right
      have hbound : (off / BSIZE + 1) * BSIZE ≤ NBLOCKS * BSIZE := Nat.mul_le_mul_right _ (by omega)
      rw [Nat.succ_mul, Nat.mul_comm] at hbound
      omega
    dsimp only
    rw [hm]
    have hnext : (off + (BSIZE - off % BSIZE)) / BSIZE = off / BSIZE + 1 := by
      have heq : off + (BSIZE - off % BSIZE) = (off / BSIZE + 1) * BSIZE := by
        rw [Nat.succ_mul, Nat.mul_comm]
        omega
      rw [heq, Nat.mul_div_cancel _ (by decide)]
    refine Triple.bind ((writeRound_room hg hr (by omega) (by omega) hroom).conseq (fun _ => id) (fun _ _ => id)
      fun _ _ => False.elim) fun _ => Triple.of_state fun t ht => ?_
    refine ih _ _ t (by omega) ht.1.rest ?_ ?_ ht.2
    · have hbound : (off / BSIZE + 1) * BSIZE ≤ NBLOCKS * BSIZE := Nat.mul_le_mul_right _ (by omega)
      rw [Nat.succ_mul, Nat.mul_comm] at hbound
      omega
    · have hbound : (off / BSIZE + 1) * BSIZE ≤ NBLOCKS * BSIZE := Nat.mul_le_mul_right _ (by omega)
      rw [Nat.succ_mul, Nat.mul_comm] at hbound
      omega

/-! ## `writei` -/

/-- The write passes the checks of `writei`. -/
structure Admitted (s : State) (ip off n : ℕ) : Prop where
  off_lt : off < 2 ^ 32
  n_lt : n < 2 ^ 32
  type : (s.inode ip).type ≠ T_DEV
  size : off ≤ (s.inode ip).size
  wrap : off ≤ (off + n) % 2 ^ 32
  max : (off + n) % 2 ^ 32 ≤ MAXFILE * BSIZE

theorem Admitted.no_wrap (h : Admitted s ip off n) : off + n < 2 ^ 32 := by
  have h1 := h.off_lt
  have h2 := h.n_lt
  have h3 := h.wrap
  omega

/-- What `writei` does to the files. -/
structure Put (sb : Super) (data ip off n : ℕ) (src : Bytes) (s t : State) : Prop where
  rest : Rest sb data t
  here : ∀ i, i < n → t.blockOf (Node.ofBlock ip ((off + i) / BSIZE)) ≠ 0 ∧ t.byte ip (off + i) = src i
  keep : ∀ ip' bn, bn < NBLOCKS → s.blockOf (Node.ofBlock ip' bn) ≠ 0 →
    t.blockOf (Node.ofBlock ip' bn) = s.blockOf (Node.ofBlock ip' bn)
  other : ∀ ip' i, i / BSIZE < NBLOCKS → s.blockOf (Node.ofBlock ip' (i / BSIZE)) ≠ 0 →
    (ip' = ip → i < off ∨ off + n ≤ i) → t.byte ip' i = s.byte ip' i
  inode : ∀ ip', t.inode ip' = { s.inode ip' with
    addrs := (t.inode ip').addrs, size := if ip' = ip then max (s.inode ip).size (off + n) else (s.inode ip').size }

/-- Nothing that `iupdate` writes is a block of a file. -/
theorem Wrote.put (hg : Geometry sb data) (hip : ip < sb.ninodes) (h : Wrote sb data ip off n src 0 s u)
    (hend : 0 < n → off + n ≤ NBLOCKS * BSIZE) (hheld : t.held = u.held) (hblock : ∀ b, b ≠ sb.iblock ip → t.block b = u.block b)
    (hinode : ∀ ip', t.inode ip' = { u.inode ip' with
      size := if ip' = ip then max (s.inode ip).size (off + n) else (s.inode ip').size }) :
    Put sb data ip off n src s t := by
  have hp := h.rest.forest
  have htree : ∀ k : Node, k.Valid → u.blockOf k ≠ 0 → t.block (u.blockOf k) = u.block (u.blockOf k) := by
    intro k hk hk0
    have hdata := (hp.place k hk hk0).1
    have hiblock := hg.inodes ip hip
    apply hblock
    omega
  have hsame : ∀ k : Node, k.Valid → t.blockOf k = u.blockOf k := by
    apply State.blockOf_congr
    · intro ip'
      rw [hinode]
    · intro k hk hk0 _
      exact htree k hk hk0
  have hused : ∀ b, b < sb.size → t.used sb b = u.used sb b := by
    intro b hb
    unfold State.used
    rw [hblock _ (hg.apart ip b hip hb).symm]
  have hbyte : ∀ ip' i, i / BSIZE < NBLOCKS → u.blockOf (Node.ofBlock ip' (i / BSIZE)) ≠ 0 →
      t.byte ip' i = u.byte ip' i := by
    intro ip' i hi h0
    unfold State.byte
    rw [hsame _ (ofBlock_valid hi), htree _ (ofBlock_valid hi) h0]
  have hforest : Forest sb data t := by
    refine hp.congr hsame fun b hb hb' => ?_
    rw [hused b hb, hb']
  refine ⟨⟨hforest, by rw [hheld, h.rest.held]⟩, fun i hi => ?_, fun ip' bn hbn h0 => ?_, fun ip' i hi h0 hout => ?_,
    fun ip' => ?_⟩
  · have hbn : (off + i) / BSIZE < NBLOCKS := by
      have hrange := hend (by omega)
      rw [Nat.div_lt_iff_lt_mul (by decide)]
      omega
    obtain ⟨h0, hsrc⟩ := h.here i hi
    rw [hsame _ (ofBlock_valid hbn), hbyte ip _ hbn h0, hsrc, Nat.zero_add]
    exact ⟨h0, rfl⟩
  · rw [hsame _ (ofBlock_valid hbn), h.keep ip' bn hbn h0]
  · have hkeep := h.keep ip' _ hi h0
    rw [hbyte ip' i hi (by rwa [hkeep]), h.other ip' i hi h0 hout]
  · rw [hinode, h.inode]

/-- **`writei`**, within the range of `bmap`. -/
theorem writei_spec (src : Bytes) (devsw : Devsw) (hg : Geometry sb data) (hr : Rest sb data s) (hip : ip < sb.ninodes)
    (h : Admitted s ip off n) (hend : 0 < n → off + n ≤ NBLOCKS * BSIZE) :
    Triple (fun t => t = s) (writei sb devsw ip src off n) (fun r t => r = (n : ℤ) ∧ Put sb data ip off n src s t) Full := by
  have hwrap := h.no_wrap
  have hmod : (off + n) % 2 ^ 32 = off + n := Nat.mod_eq_of_lt hwrap
  have hsize := h.size
  have hmax := h.max
  refine Triple.bind (R := fun a t => a = s ∧ t = s) (Triple.get fun t h => ⟨h, h⟩) fun a => ?_
  refine Triple.of_fact fun ha => ?_
  subst ha
  rw [if_neg h.type, if_neg (by omega), if_neg (by omega)]
  refine Triple.bind (writeiLoop_spec hg n 0 off a (by omega) (Nat.zero_le n) hr hend) fun r =>
    Triple.of_state fun u hu => ?_
  obtain ⟨rfl, hwrote⟩ := hu
  rw [Nat.sub_zero] at hwrote ⊢
  have hisize : (u.inode ip).size = (a.inode ip).size := by rw [hwrote.inode]
  refine Triple.bind (R := fun b t => b = u ∧ t = u) (Triple.get fun t h => ⟨h, h⟩) fun b => ?_
  refine Triple.of_fact fun hb => ?_
  subst hb
  refine Triple.bind (R := fun _ t => Put sb data ip off n src a t) ?_ fun _ => Triple.pure fun _ h => ⟨rfl, h⟩
  refine Triple.ite (fun hgrow => ?_) fun hkeep => ?_
  · -- the file has grown
    rw [hisize] at hgrow
    refine Triple.bind (R := fun _ t => t = b.setInode ip fun x => { x with size := off + n })
      (Triple.modify fun t h => by rw [h]) fun _ => ?_
    have hheld : (b.setInode ip fun x => { x with size := off + n }).held = ∅ := hwrote.rest.held
    refine (iupdate_spec (by rw [hheld]; exact Finset.notMem_empty _) fun _ _ => .inr rfl).post fun _ t ht => ?_
    refine hwrote.put hg hip hend ?_ (fun c hc => ?_) fun ip' => ?_
    · rw [ht.2]
      rfl
    · rw [ht.2]
      exact Function.update_of_ne hc ..
    · rw [ht.2]
      show (Function.update b.inode ip { b.inode ip with size := off + n }) ip' = _
      by_cases hip' : ip' = ip
      · subst hip'
        rw [Function.update_self, if_pos rfl, max_eq_right (by omega)]
      · rw [Function.update_of_ne hip', if_neg hip', hwrote.inode ip']
  · refine Triple.pure fun t ht => ?_
    rw [hisize] at hkeep
    rw [ht]
    refine hwrote.put hg hip hend rfl (fun _ _ => rfl) fun ip' => ?_
    by_cases hip' : ip' = ip
    · subst hip'
      rw [if_pos rfl, max_eq_left (by omega), ← hisize]
    · rw [if_neg hip', hwrote.inode ip']

/-! ## The range of `bmap` -/

/-- How many blocks a write goes through, of those that `bmap` has a range for. -/
def spanned (off n : ℕ) : ℕ := min ((off + n + BSIZE - 1) / BSIZE) NBLOCKS - off / BSIZE

/-- A write that ends within the range does not leave it. -/
theorem writei_within (devsw : Devsw) (hg : Geometry sb data) (hr : Rest sb data s) (hip : ip < sb.ninodes)
    (h : Admitted s ip off n) (hend : n = 0 ∨ off + n ≤ NBLOCKS * BSIZE) :
    (writei sb devsw ip src off n s).1 ≠ .error .outOfRange := by
  have hspec := writei_spec src devsw hg hr hip h (by omega) s rfl
  intro hout
  revert hspec hout
  match writei sb devsw ip src off n s with
  | (.ok _, _) =>
    rintro - ⟨⟩
  | (.error _, _) =>
    rintro (rfl | rfl) ⟨⟩

/-- A write that ends beyond the range leaves it, if nothing else stops it before. -/
theorem writei_beyond (devsw : Devsw) (hg : Geometry sb data) (hr : Rest sb data s) (h : Admitted s ip off n)
    (hroom : Room sb (4 * spanned off n) (12 * spanned off n) s) (hn : 0 < n) (hend : NBLOCKS * BSIZE < off + n) :
    (writei sb devsw ip src off n s).1 = .error .outOfRange := by
  have hwrap := h.no_wrap
  have hmod : (off + n) % 2 ^ 32 = off + n := Nat.mod_eq_of_lt hwrap
  have hsize := h.size
  have hmax := h.max
  have hspanned : spanned off n = NBLOCKS - off / BSIZE := by
    unfold spanned
    rw [min_eq_right]
    rw [Nat.le_div_iff_mul_le (by decide)]
    simp only [BSIZE] at hend ⊢
    omega
  rw [hspanned] at hroom
  have hspec : Triple (fun t => t = s) (writei sb devsw ip src off n) (fun _ _ => False) fun e _ => e = .outOfRange := by
    refine Triple.bind (R := fun a t => a = s ∧ t = s) (Triple.get fun t h => ⟨h, h⟩) fun a => ?_
    refine Triple.of_fact fun ha => ?_
    subst ha
    rw [if_neg h.type, if_neg (by omega), if_neg (by omega)]
    refine Triple.bind (R := fun _ _ => False) ?_ fun _ _ hfalse => hfalse.elim
    exact writeiLoop_out hg _ 0 off a rfl hr hn (by omega) hroom
  have hrun := hspec s rfl
  revert hrun
  match writei sb devsw ip src off n s with
  | (.ok _, _) => exact False.elim
  | (.error _, _) =>
    rintro rfl
    rfl

theorem bmap_within (hg : Geometry sb data) (hr : Rest sb data s) {bn : ℕ} (hbn : bn < NBLOCKS) :
    (bmap sb ip bn s).1 ≠ .error .outOfRange := by
  have hspec := (bmap_spec hg hr.forest hr.held hbn : Triple _ (bmap sb ip bn) _ _) s rfl
  intro hout
  revert hspec hout
  match bmap sb ip bn s with
  | (.ok _, _) =>
    rintro - ⟨⟩
  | (.error _, _) =>
    rintro (rfl | rfl) ⟨⟩

/-- **The range of `bmap`.** For a write that passes the checks of `writei`, `bmap` is not asked for a block out of its
range if the write ends within the first `NBLOCKS` blocks; and only then, with enough free blocks and room in the log
for those that come before. Of the blocks that `MAXFILE` admits, `bmap` has no range for those from `NBLOCKS` on. -/
theorem writei_in_range (devsw : Devsw) (hg : Geometry sb data) (hr : Rest sb data s) (hip : ip < sb.ninodes)
    (h : Admitted s ip off n) :
    (n = 0 ∨ off + n ≤ NBLOCKS * BSIZE → (writei sb devsw ip src off n s).1 ≠ .error .outOfRange) ∧
    (Room sb (4 * spanned off n) (12 * spanned off n) s →
      ((writei sb devsw ip src off n s).1 ≠ .error .outOfRange ↔ n = 0 ∨ off + n ≤ NBLOCKS * BSIZE)) ∧
    ∀ bn, bn < MAXFILE → ((bmap sb ip bn s).1 ≠ .error .outOfRange ↔ bn < NBLOCKS) := by
  have hwithin : n = 0 ∨ off + n ≤ NBLOCKS * BSIZE → (writei sb devsw ip src off n s).1 ≠ .error .outOfRange :=
    writei_within devsw hg hr hip h
  refine ⟨hwithin, fun hroom => ⟨fun hne => ?_, hwithin⟩, fun bn _ => ⟨fun hne => ?_, bmap_within hg hr⟩⟩
  · by_contra hend
    exact hne (writei_beyond devsw hg hr h hroom (by omega) (by omega))
  · by_contra hbn
    rw [bmap_beyond (by omega)] at hne
    exact hne rfl

/-- A file of all the blocks that `bmap` has a range for. -/
def long : State := fresh.setInode 1 fun x => { x with size := NBLOCKS * BSIZE }

/-- No device. -/
def noDevsw : Devsw := ⟨fun _ => none, fun _ => none⟩

theorem long_rest : Rest small 4 long := by
  refine ⟨fresh_rest.forest.congr (State.blockOf_congr (fun ip => ?_) fun _ _ _ _ => rfl) fun _ _ => id, rfl⟩
  show (Function.update fresh.inode 1 { fresh.inode 1 with size := NBLOCKS * BSIZE } ip).addrs = _
  by_cases hip : ip = 1
  · rw [hip, Function.update_self]
  · rw [Function.update_of_ne hip]

theorem long_admitted : Admitted long 1 (NBLOCKS * BSIZE) 1 := by
  constructor <;> decide

theorem long_room : Room small (4 * spanned (NBLOCKS * BSIZE) 1) (12 * spanned (NBLOCKS * BSIZE) 1) long := by
  constructor
  · exact Nat.zero_le _
  · decide

theorem writei_in_range_long :
    ((writei small noDevsw 1 (fun _ => 0) (NBLOCKS * BSIZE) 1 long).1 ≠ .error .outOfRange ↔
      1 = 0 ∨ NBLOCKS * BSIZE + 1 ≤ NBLOCKS * BSIZE) ∧
    ∀ bn, bn < MAXFILE → ((bmap small 1 bn long).1 ≠ .error .outOfRange ↔ bn < NBLOCKS) :=
  have h := writei_in_range noDevsw small_geometry long_rest (by decide) long_admitted
  ⟨h.2.1 long_room, h.2.2⟩

/-- **One more byte** at the end of this file. -/
theorem writei_out_of_range : Admitted long 1 (NBLOCKS * BSIZE) 1 ∧ NBLOCKS < MAXFILE ∧
    (writei small noDevsw 1 (fun _ => 0) (NBLOCKS * BSIZE) 1 long).1 = .error .outOfRange :=
  ⟨long_admitted, by decide, writei_beyond noDevsw small_geometry long_rest long_admitted long_room (by decide) (by decide)⟩

end

end Xv6.Block
