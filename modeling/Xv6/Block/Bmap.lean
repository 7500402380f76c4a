import Xv6.Block.Tree

/-!
# The block map

* `direct_spec`, `indirect_spec`: one level of `bmap` fills one place, if it is empty.
* `Node.ofBlock ip bn`: the place of block `bn` of a file; `ofBlock_inj`: distinct blocks have distinct
  places.
* `bmap_rule`: what holds level after level holds of `bmap`.
* `bmap_spec`: `bmap` returns what is at this place, and only places on the way to it got blocks.
* `bmap_old`: where there is a block already, nothing changes.
* `bmap_room`: with room for the blocks and in the log, it does not fail.
-/

namespace Xv6.Block

open Prog

section

variable {sb : Super} {data : ℕ} {s t u : State} {A B : Node → Prop} {b n : ℕ} {m : Node} {ip i j : ℕ} {js : List ℕ}

theorem State.blockOf_same (hblock : t.block = s.block) (hinode : t.inode = s.inode) (m : Node) :
    t.blockOf m = s.blockOf m := by
  obtain ⟨ip, i, js⟩ := m
  induction js with
  | nil => rw [State.blockOf_nil, State.blockOf_nil, hinode]
  | cons j js ih => rw [State.blockOf_cons, State.blockOf_cons, ih, hblock]

theorem State.used_same (hblock : t.block = s.block) (b : ℕ) : t.used sb b = s.used sb b := by
  unfold State.used
  rw [hblock]

/-- What is locked is no block that `balloc` touches. -/
def Calm (sb : Super) (data : ℕ) (s : State) : Prop := ∀ b, b ∈ s.held → data ≤ b ∧ s.used sb b = true

/-- A block in use that is locked is none of these. -/
theorem Calm.bread (hc : Calm sb data s) (hdata : data ≤ b) (hused : s.used sb b = true) :
    Calm sb data { s with held := insert b s.held } := by
  intro c hcb
  rcases Finset.mem_insert.1 hcb with rfl | hcb
  · exact ⟨hdata, hused⟩
  · exact hc c hcb

theorem Calm.of_empty (h : s.held = ∅) : Calm sb data s := by
  intro b hb
  rw [h] at hb
  exact absurd hb (Finset.notMem_empty b)

theorem Forest.ready (hg : Geometry sb data) (hp : Forest sb data s) (hc : Calm sb data s) : Ready sb data s := by
  refine ⟨hp.reserved, fun b hb hheld => ?_, fun b hb hfree hheld => ?_⟩
  · have h1 := hg.bitmap b hb
    have h2 := (hc _ hheld).1
    omega
  · rw [(hc b hheld).2] at hfree
    cases hfree

theorem Forest.same (hp : Forest sb data s) (hblock : t.block = s.block) (hinode : t.inode = s.inode) :
    Forest sb data t := by
  constructor
  · intro n m hn hm
    rw [State.blockOf_same hblock hinode n, State.blockOf_same hblock hinode m]
    exact hp.inj n m hn hm
  · intro n hn
    rw [State.blockOf_same hblock hinode n, State.used_same hblock]
    exact hp.place n hn
  · intro b
    rw [State.used_same hblock]
    exact hp.reserved b

/-- The allocation leaves the blocks of the trees alone. -/
theorem Allocated.block_tree (h : Allocated sb s n t) (hg : Geometry sb data) (hp : Forest sb data s) {k : Node}
    (hk : k.Valid) (h0 : s.blockOf k ≠ 0) : t.block (s.blockOf k) = s.block (s.blockOf k) := by
  obtain ⟨h1, h2, h3⟩ := hp.place k hk h0
  refine h.block _ ?_ ?_
  · intro heq
    rw [heq, h.free] at h3
    cases h3
  · intro heq
    have := hg.bitmap n h.lt
    omega

/-- What a level of `bmap` returns: the block that is at the place afterwards. -/
structure Got (sb : Super) (data : ℕ) (s : State) (m : Node) (r : ℕ) (t : State) : Prop where
  forest : Forest sb data t
  grown : Grown sb data (fun k => k = m) s t
  here : t.blockOf m = r
  ne : r ≠ 0

theorem Got.of_old (hp : Forest sb data s) (h0 : s.blockOf m ≠ 0) : Got sb data s m (s.blockOf m) s :=
  ⟨hp, Grown.refl s, rfl, h0⟩

/-- The place was empty, and got the block that was allocated. -/
theorem Got.of_fill (hg : Geometry sb data) (hp : Forest sb data s) (hc : Calm sb data s) (ha : Allocated sb s n u)
    (hf : Fill s m n t) (hused : ∀ b, b < sb.size → t.used sb b = u.used sb b)
    (hcontent : ∀ k : Node, k.Valid → k.Leaf → s.blockOf k ≠ 0 → t.block (s.blockOf k) = s.block (s.blockOf k))
    (hheld : t.held = s.held) (hother : ∀ ip, t.inode ip = { s.inode ip with addrs := (t.inode ip).addrs }) :
    Got sb data s m n t := by
  have hdata := ha.data_le (hp.ready hg hc)
  have hboot := hg.boot
  have hn : n ≠ 0 := by omega
  have hused' : ∀ b, b < sb.size → t.used sb b = (s.used sb b || decide (n = b)) := by
    intro b hb
    rw [hused b hb, ha.used b hb]
  have hb := hf.blockOf hn
  refine ⟨hf.forest hp hdata ha.lt hboot ha.free hused', ⟨fun k hk h0 => ?_, fun k hk hne => ?_, fun k hk h0 ht => ?_,
    fun b hbs h => ?_, hcontent, hheld, hother⟩, ?_, hn⟩
  · have hne : k ≠ m := by
      rintro rfl
      exact h0 hf.empty
    rw [hb k hk, if_neg hne]
  · rw [hb k hk, if_neg hne]
  · by_cases hkm : k = m
    · rw [hb k hk, if_pos hkm]
      exact ha.free
    · rw [hb k hk, if_neg hkm] at ht
      exact absurd h0 ht
  · rw [hused' b hbs, h, Bool.true_or]
  · rw [hb m hf.valid, if_pos rfl]

/-- **`ip->addrs[i]`.** -/
theorem direct_spec (hg : Geometry sb data) (hp : Forest sb data s) (hc : Calm sb data s) (hi : i < NADDRS) :
    Triple (fun t => t = s) (direct sb ip i) (fun r t => Got sb data s ⟨ip, i, []⟩ r t) Full := by
  refine Triple.bind (R := fun a t => a = s ∧ t = s) (Triple.get fun t h => ⟨h, h⟩) fun a => ?_
  refine Triple.of_fact fun ha => ?_
  subst ha
  refine Triple.ite (fun h0 => ?_) fun h0 => ?_
  · refine Triple.bind (balloc_spec hg (hp.ready hg hc) Stops.full) fun n => Triple.of_state fun u ha => ?_
    refine Triple.bind (R := fun _ t => t = u.setAddr ip i n) (Triple.modify fun t h => by rw [h]) fun _ =>
      Triple.pure fun t h => ?_
    subst h
    have haddrs : ∀ ip' i', ((u.setAddr ip i n).inode ip').addrs i' =
        if (⟨ip', i', []⟩ : Node) = ⟨ip, i, []⟩ then n else (a.inode ip').addrs i' := by
      intro ip' i'
      unfold State.setAddr State.setInode
      rw [ha.inode]
      by_cases hip : ip' = ip
      · subst hip
        by_cases hii : i' = i
        · subst hii
          simp
        · simp [hii]
      · simp [hip]
    refine Got.of_fill hg hp hc ha ⟨⟨hi, Nat.zero_le _, by simp⟩, h0, by simp, haddrs, fun ip' i' j js hv hk => ?_, ha.zero⟩
      (fun _ _ => rfl) (fun k hk _ hk0 => ha.block_tree hg hp hk hk0) ha.held fun ip' => ?_
    · rw [if_neg (by simp)]
      show word (u.block _) j = _
      rw [ha.block_tree hg hp hv.up hk]
    · unfold State.setAddr State.setInode
      rw [ha.inode]
      by_cases hip : ip' = ip
      · subst hip
        simp
      · simp [hip]
  · refine Triple.pure fun t h => ?_
    rw [h]
    exact Got.of_old (m := ⟨ip, i, []⟩) hp h0

/-- **One index block**: `a[j]`, for the block that is at the place above. -/
theorem indirect_spec (hg : Geometry sb data) (hp : Forest sb data s) (hc : Calm sb data s)
    (hv : Node.Valid ⟨ip, i, j :: js⟩) (h0 : s.blockOf ⟨ip, i, js⟩ ≠ 0) (hheld : s.blockOf ⟨ip, i, js⟩ ∉ s.held) :
    Triple (fun t => t = s) (indirect sb (s.blockOf ⟨ip, i, js⟩) j)
      (fun r t => Got sb data s ⟨ip, i, j :: js⟩ r t) Full := by
  obtain ⟨hdata, hsize, hused⟩ := hp.place _ hv.up h0
  set pb := s.blockOf ⟨ip, i, js⟩ with hpb
  have hback : (insert pb s.held).erase pb = s.held := Finset.erase_insert hheld
  refine Triple.bind (bread_spec hheld) fun _ => Triple.of_state fun s₁ hs₁ => ?_
  have hblock₁ : s₁.block = s.block := by rw [hs₁]
  have hinode₁ : s₁.inode = s.inode := by rw [hs₁]
  have hheld₁ : s₁.held = insert pb s.held := by rw [hs₁]
  have hp₁ : Forest sb data s₁ := hp.same hblock₁ hinode₁
  have hpb₁ : s₁.blockOf ⟨ip, i, js⟩ = pb := State.blockOf_same hblock₁ hinode₁ _
  have hc₁ : Calm sb data s₁ := by
    rw [hs₁]
    exact hc.bread hdata hused
  refine Triple.bind (index_spec pb j) fun addr => Triple.of_fact fun haddr => ?_
  rw [hblock₁] at haddr
  have hword : s.blockOf ⟨ip, i, j :: js⟩ = addr := by
    rw [State.blockOf_cons, if_neg h0, haddr]
  refine Triple.ite (fun hz => ?_) fun hz => ?_
  · refine Triple.bind (balloc_spec hg (hp₁.ready hg hc₁) Stops.full) fun n => Triple.of_state fun u ha => ?_
    refine Triple.bind (R := fun _ t => t = u.setBlock pb fun d => setWord d j n) (Triple.modify fun t h => by rw [h])
      fun _ => ?_
    refine Triple.bind (log_write_spec pb fun _ => .inr rfl) fun _ => Triple.of_fact fun _ => ?_
    have hmem : pb ∈ u.held := by
      rw [ha.held, hheld₁]
      exact Finset.mem_insert_self pb s.held
    refine Triple.bind (brelse_spec hmem) fun _ => Triple.pure fun t h => ?_
    have hblock : t.block = (u.setBlock pb fun d => setWord d j n).block := by rw [h]
    have hinode : t.inode = s.inode := by
      rw [h, ← hinode₁, ← ha.inode]
      rfl
    have hheldt : t.held = s.held := by
      rw [h]
      show u.held.erase pb = s.held
      rw [ha.held, hheld₁, hback]
    have hnpb : n ≠ pb := by
      rintro rfl
      have hfree := ha.free
      rw [State.used_same hblock₁, hused] at hfree
      cases hfree
    have htree : ∀ k : Node, k.Valid → s.blockOf k ≠ 0 → u.block (s.blockOf k) = s.block (s.blockOf k) := by
      intro k hk hk0
      have heq := State.blockOf_same hblock₁ hinode₁ k
      have htree₁ := ha.block_tree hg hp₁ hk (by rwa [heq])
      rwa [heq, hblock₁] at htree₁
    have hnlt : n < 2 ^ 32 := by
      have h1 := ha.lt
      have h2 := hg.small
      omega
    have ha' : Allocated sb s n { u with held := s.held } := by
      refine ⟨ha.lt, ?_, fun b hb => ?_, fun b hb => ?_, ha.zero, fun b h1 h2 => ?_, rfl, ?_, ?_⟩
      · rw [← State.used_same hblock₁]
        exact ha.free
      · rw [← State.used_same hblock₁]
        exact ha.least b hb
      · rw [← State.used_same hblock₁ b]
        exact ha.used b hb
      · rw [← hblock₁]
        exact ha.block b h1 h2
      · have hlogged := ha.logged
        rw [hs₁] at hlogged
        exact hlogged
      · show u.inode = s.inode
        rw [ha.inode, hinode₁]
    refine Got.of_fill hg hp hc ha' ⟨hv, by rw [hword, hz], ?_, fun ip' i' => ?_, fun ip' i' j' js' hv' h0' => ?_, ?_⟩
      (fun b hb => ?_) (fun k hk hl hk0 => ?_) hheldt fun ip' => ?_
    · rintro ip' i' j' js' heq
      cases heq
      exact h0
    · rw [if_neg (by simp), hinode]
    · rw [hblock]
      by_cases hsame : s.blockOf ⟨ip', i', js'⟩ = pb
      · -- another entry of the same index block, or this one
        have hnode := hp.inj _ _ hv'.up hv.up hsame h0'
        cases hnode
        rw [hsame, State.setBlock_self, htree _ hv.up h0]
        by_cases hjj : j' = j
        · subst hjj
          rw [if_pos rfl, word_setWord_self hnlt]
        · rw [if_neg (by simpa using hjj), word_setWord_ne (fun h => hjj h.symm)]
      · have hne : (⟨ip', i', j' :: js'⟩ : Node) ≠ ⟨ip, i, j :: js⟩ := by
          intro heq
          cases heq
          exact hsame rfl
        rw [if_neg hne, State.setBlock_ne _ _ hsame, htree _ hv'.up h0']
    · rw [hblock, State.setBlock_ne _ _ hnpb]
      exact ha.zero
    · show getBit (t.block (sb.bblock b)) (b % BPB) = _
      rw [hblock, State.setBlock_ne]
      · rfl
      · have := hg.bitmap b hb
        omega
    · have hne : s.blockOf k ≠ pb := by
        intro heq
        have hnode := hp.inj _ _ hk hv.up heq hk0
        rw [hnode] at hl
        have hdepth := hv.depth
        simp only [List.length_cons] at hdepth
        have hl' : js.length = level i := hl
        omega
      rw [hblock, State.setBlock_ne _ _ hne, htree k hk hk0]
    · rw [hinode]
  · refine Triple.bind (brelse_spec ?_) fun _ => Triple.pure fun t h => ?_
    · rw [hheld₁]
      exact Finset.mem_insert_self pb s.held
    · have ht : t = s := by
        rw [h, hs₁]
        show ({ s with held := (insert pb s.held).erase pb } : State) = s
        rw [hback]
      rw [ht, ← hword]
      exact Got.of_old hp (by rwa [hword])

/-! ## All the levels -/

/-- How many blocks a file can have. -/
abbrev NBLOCKS : ℕ := NDIRECT + NINDIRECT * NINDIRECT * NINDIRECT

/-- The place of block `bn` of a file. -/
def Node.ofBlock (ip bn : ℕ) : Node :=
  if bn < NDIRECT then ⟨ip, bn, []⟩
  else if bn - NDIRECT < NINDIRECT then ⟨ip, NDIRECT, [bn - NDIRECT]⟩
  else if bn - NDIRECT < NINDIRECT * NINDIRECT then
    ⟨ip, NDIRECT + 1, [(bn - NDIRECT) % NINDIRECT, (bn - NDIRECT) / NINDIRECT]⟩
  else
    ⟨ip, NDIRECT + 2, [(bn - NDIRECT) % NINDIRECT, (bn - NDIRECT) % (NINDIRECT * NINDIRECT) / NINDIRECT,
      (bn - NDIRECT) / (NINDIRECT * NINDIRECT)]⟩

/-- A place on the way to another. -/
def Node.Above (d k : Node) : Prop := k.ip = d.ip ∧ k.i = d.i ∧ k.js <:+ d.js

theorem ofBlock_ip (ip bn : ℕ) : (Node.ofBlock ip bn).ip = ip := by
  unfold Node.ofBlock
  split
  · rfl
  split
  · rfl
  split
  · rfl
  · rfl

theorem ofBlock_valid {bn : ℕ} (h : bn < NBLOCKS) : (Node.ofBlock ip bn).Valid := by
  simp only [NBLOCKS, NDIRECT, NINDIRECT] at h
  unfold Node.ofBlock
  split
  · rename_i hbn
    refine ⟨?_, Nat.zero_le _, by simp⟩
    show bn < 13
    simp only [NDIRECT] at hbn
    omega
  split
  · rename_i hbn
    refine ⟨by norm_num, le_of_eq rfl, ?_⟩
    simpa using hbn
  split
  · rename_i hbn
    refine ⟨by norm_num, le_of_eq rfl, ?_⟩
    simp only [NDIRECT, NINDIRECT, List.mem_cons, List.not_mem_nil, or_false, forall_eq_or_imp, forall_eq] at hbn ⊢
    omega
  · refine ⟨by norm_num, le_of_eq rfl, ?_⟩
    simp only [NDIRECT, NINDIRECT, List.mem_cons, List.not_mem_nil, or_false, forall_eq_or_imp, forall_eq]
    omega

theorem ofBlock_leaf (ip bn : ℕ) : (Node.ofBlock ip bn).Leaf := by
  unfold Node.ofBlock
  split
  · rename_i hbn
    show 0 = bn - 9
    simp only [NDIRECT] at hbn
    omega
  split
  · rfl
  split
  · rfl
  · rfl

/-- **Distinct blocks of a file have distinct places.** -/
theorem ofBlock_inj {ip' bn bn' : ℕ} (h : Node.ofBlock ip bn = Node.ofBlock ip' bn') : bn = bn' := by
  revert h
  unfold Node.ofBlock
  simp only [NDIRECT, NINDIRECT]
  split_ifs <;> simp only [Node.mk.injEq, List.cons.injEq, reduceCtorEq, and_false, and_true, false_imp_iff] <;> omega

theorem Grown.weaken (h : Grown sb data A s t) (hAB : ∀ k, A k → B k) : Grown sb data B s t :=
  ⟨h.keep, fun k hk hn => h.only k hk fun ha => hn (hAB k ha), h.fresh, h.mono, h.content, h.held, h.other⟩

/-- What `bmap` leaves. -/
structure Mapped (sb : Super) (data : ℕ) (s : State) (d m : Node) (r : ℕ) (t : State) : Prop where
  forest : Forest sb data t
  grown : Grown sb data d.Above s t
  here : t.blockOf m = r
  ne : r ≠ 0

/-- One level after the others. -/
theorem Mapped.step (hg : Geometry sb data) {d : Node} {r : ℕ} (h : Mapped sb data s d ⟨ip, i, js⟩ r t)
    (hheld : s.held = ∅) (hv : Node.Valid ⟨ip, i, j :: js⟩) (habove : d.Above ⟨ip, i, j :: js⟩) :
    Triple (fun u => u = t) (indirect sb r j) (fun r' u => Mapped sb data s d ⟨ip, i, j :: js⟩ r' u) Full := by
  have hempty : t.held = ∅ := by rw [h.grown.held, hheld]
  have hc : Calm sb data t := Calm.of_empty hempty
  have h0 : t.blockOf ⟨ip, i, js⟩ ≠ 0 := by
    rw [h.here]
    exact h.ne
  have hspec := indirect_spec hg h.forest hc hv h0 (by rw [hempty]; simp)
  rw [h.here] at hspec
  refine hspec.post fun r' u hu => ⟨hu.forest, ?_, hu.here, hu.ne⟩
  refine h.grown.trans (hu.grown.weaken fun k hk => ?_) hu.forest
  rw [hk]
  exact habove

theorem Mapped.root (d : Node) (hg : Geometry sb data) (hp : Forest sb data s) (hheld : s.held = ∅) (hi : i < NADDRS)
    (habove : d.Above ⟨ip, i, []⟩) :
    Triple (fun t => t = s) (direct sb ip i) (fun r t => Mapped sb data s d ⟨ip, i, []⟩ r t) Full := by
  have hc : Calm sb data s := Calm.of_empty hheld
  refine (direct_spec hg hp hc hi).post fun r t h => ⟨h.forest, h.grown.weaken fun k hk => ?_, h.here, h.ne⟩
  rw [hk]
  exact habove

/-- **Going down**: what holds of the levels on the way to block `bn` holds of `bmap`. -/
theorem bmap_rule {I : Node → ℕ → State → Prop} {E : Fault → State → Prop} {bn : ℕ} (hbn : bn < NBLOCKS)
    (hroot : ∀ i, i < NADDRS → (Node.ofBlock ip bn).Above ⟨ip, i, []⟩ →
      Triple (fun t => t = s) (direct sb ip i) (fun r t => I ⟨ip, i, []⟩ r t) E)
    (hstep : ∀ i j js r t, Node.Valid ⟨ip, i, j :: js⟩ → (Node.ofBlock ip bn).Above ⟨ip, i, j :: js⟩ →
      I ⟨ip, i, js⟩ r t → Triple (fun u => u = t) (indirect sb r j) (fun r' u => I ⟨ip, i, j :: js⟩ r' u) E) :
    Triple (fun t => t = s) (bmap sb ip bn) (fun r t => I (Node.ofBlock ip bn) r t) E := by
  have hv : (Node.ofBlock ip bn).Valid := ofBlock_valid hbn
  unfold bmap
  unfold Node.ofBlock at hv hroot hstep ⊢
  split at hv
  · rename_i h1
    rw [if_pos h1] at hroot ⊢
    rw [if_pos h1]
    exact hroot _ hv.addr ⟨rfl, rfl, List.suffix_refl _⟩
  rename_i h1
  rw [if_neg h1] at hroot ⊢
  rw [if_neg h1] at hstep ⊢
  dsimp only
  split at hv
  · rename_i h2
    rw [if_pos h2] at hroot hstep ⊢
    rw [if_pos h2]
    refine Triple.bind (hroot _ hv.addr ⟨rfl, rfl, List.nil_suffix⟩) fun r => Triple.of_state fun t ht => ?_
    exact hstep _ _ _ r t hv ⟨rfl, rfl, List.suffix_refl _⟩ ht
  rename_i h2
  rw [if_neg h2] at hroot hstep ⊢
  rw [if_neg h2]
  split at hv
  · rename_i h3
    rw [if_pos h3] at hroot hstep ⊢
    rw [if_pos h3]
    refine Triple.bind (hroot _ hv.addr ⟨rfl, rfl, List.nil_suffix⟩) fun r => Triple.of_state fun t ht => ?_
    refine Triple.bind (hstep _ _ _ r t hv.up ⟨rfl, rfl, List.suffix_cons _ _⟩ ht) fun r => Triple.of_state fun t ht => ?_
    exact hstep _ _ _ r t hv ⟨rfl, rfl, List.suffix_refl _⟩ ht
  · rename_i h3
    have h4 : bn - NDIRECT < NINDIRECT * NINDIRECT * NINDIRECT := by
      simp only [NBLOCKS, NDIRECT, NINDIRECT] at hbn ⊢
      omega
    rw [if_neg h3] at hroot hstep ⊢
    rw [if_neg h3, if_pos h4]
    refine Triple.bind (hroot _ hv.addr ⟨rfl, rfl, List.nil_suffix⟩) fun r => Triple.of_state fun t ht => ?_
    refine Triple.bind (hstep _ _ _ r t hv.up.up ⟨rfl, rfl, ?_⟩ ht) fun r => Triple.of_state fun t ht => ?_
    · exact (List.suffix_cons _ _).trans (List.suffix_cons _ _)
    refine Triple.bind (hstep _ _ _ r t hv.up ⟨rfl, rfl, List.suffix_cons _ _⟩ ht) fun r => Triple.of_state fun t ht => ?_
    exact hstep _ _ _ r t hv ⟨rfl, rfl, List.suffix_refl _⟩ ht

/-- **`bmap`** returns the block at the place of `bn`, and fills only places on the way there. -/
theorem bmap_spec (hg : Geometry sb data) (hp : Forest sb data s) (hheld : s.held = ∅) {bn : ℕ} (hbn : bn < NBLOCKS) :
    Triple (fun t => t = s) (bmap sb ip bn)
      (fun r t => Mapped sb data s (Node.ofBlock ip bn) (Node.ofBlock ip bn) r t) Full := by
  apply bmap_rule hbn
  · intro i hi habove
    exact Mapped.root _ hg hp hheld hi habove
  · intro i j js r t hv habove h
    exact h.step hg hheld hv habove

/-! ## A place that has a block -/

/-- What the index block holds is returned, and nothing changes. -/
theorem direct_old (h0 : s.blockOf ⟨ip, i, []⟩ ≠ 0) :
    Triple (fun t => t = s) (direct sb ip i) (fun r t => r = s.blockOf ⟨ip, i, []⟩ ∧ t = s) fun _ _ => False := by
  refine Triple.bind (R := fun a t => a = s ∧ t = s) (Triple.get fun t h => ⟨h, h⟩) fun a => ?_
  refine Triple.of_fact fun ha => ?_
  subst ha
  refine Triple.ite (fun hz => absurd hz h0) fun _ => Triple.pure fun t h => ⟨rfl, h⟩

theorem indirect_old (h0 : s.blockOf ⟨ip, i, j :: js⟩ ≠ 0) (hheld : s.held = ∅) :
    Triple (fun t => t = s) (indirect sb (s.blockOf ⟨ip, i, js⟩) j)
      (fun r t => r = s.blockOf ⟨ip, i, j :: js⟩ ∧ t = s) fun _ _ => False := by
  have hup := State.blockOf_up h0
  have hword : s.blockOf ⟨ip, i, j :: js⟩ = word (s.block (s.blockOf ⟨ip, i, js⟩)) j := by
    rw [State.blockOf_cons, if_neg hup]
  set pb := s.blockOf ⟨ip, i, js⟩
  have hpb : pb ∉ s.held := by
    rw [hheld]
    exact Finset.notMem_empty pb
  refine Triple.bind (bread_spec hpb) fun _ => ?_
  refine Triple.bind (index_spec pb j) fun addr => Triple.of_fact fun haddr => ?_
  refine Triple.ite (fun hz => ?_) fun _ => ?_
  · rw [hword, ← haddr] at h0
    exact absurd hz h0
  · refine Triple.bind (brelse_spec (Finset.mem_insert_self pb s.held)) fun _ => Triple.pure fun t h => ⟨?_, ?_⟩
    · rw [haddr, hword]
    · rw [h]
      show ({ s with held := (insert pb s.held).erase pb } : State) = s
      rw [Finset.erase_insert hpb]

/-- There is a block above a block. -/
theorem Node.Above.ne_zero {d k : Node} (h : d.Above k) (h0 : s.blockOf d ≠ 0) : s.blockOf k ≠ 0 := by
  obtain ⟨ip, i, js⟩ := d
  obtain ⟨ip', i', js'⟩ := k
  obtain ⟨rfl, rfl, hjs⟩ := h
  dsimp only at hjs
  induction js with
  | nil =>
    rw [List.suffix_nil.1 hjs]
    exact h0
  | cons j js ih =>
    rcases List.suffix_cons_iff.1 hjs with rfl | hjs
    · exact h0
    · exact ih (State.blockOf_up h0) hjs

/-- **`bmap` of a block that is there** does nothing else. -/
theorem bmap_old (hheld : s.held = ∅) {bn : ℕ} (hbn : bn < NBLOCKS) (h0 : s.blockOf (Node.ofBlock ip bn) ≠ 0) :
    bmap sb ip bn s = (.ok (s.blockOf (Node.ofBlock ip bn)), s) := by
  have hspec : Triple (fun t => t = s) (bmap sb ip bn) (fun r t => r = s.blockOf (Node.ofBlock ip bn) ∧ t = s)
      fun _ _ => False := by
    apply bmap_rule (I := fun k r t => r = s.blockOf k ∧ t = s) hbn
    · intro i _ habove
      exact direct_old (habove.ne_zero h0)
    · rintro i j js r t - habove ⟨rfl, rfl⟩
      exact indirect_old (habove.ne_zero h0) hheld
  have h := hspec s rfl
  revert h
  match bmap sb ip bn s with
  | (.ok r, t) =>
    rintro ⟨rfl, rfl⟩
    rfl
  | (.error _, _) => exact False.elim

/-! ## Room -/

variable {f l : ℕ}

theorem direct_room (hg : Geometry sb data) (hp : Forest sb data s) (hc : Calm sb data s)
    (hroom : Room sb (f + 1) (l + 2) s) :
    Triple (fun t => t = s) (direct sb ip i) (fun _ t => Room sb f l t) fun _ _ => False := by
  refine Triple.bind (R := fun a t => a = s ∧ t = s) (Triple.get fun t h => ⟨h, h⟩) fun a => ?_
  refine Triple.of_fact fun ha => ?_
  subst ha
  refine Triple.ite (fun _ => ?_) fun _ => ?_
  · refine Triple.bind (balloc_room hg (hp.ready hg hc) hroom) fun n => Triple.of_state fun u hu => ?_
    refine Triple.bind (R := fun _ t => t = u.setAddr ip i n) (Triple.modify fun t h => by rw [h]) fun _ =>
      Triple.pure fun t h => ?_
    rw [h]
    exact ⟨hu.2.blocks, hu.2.log⟩
  · refine Triple.pure fun t h => ?_
    rw [h]
    exact hroom.weaken (by omega) (by omega)

theorem indirect_room (hg : Geometry sb data) (hp : Forest sb data s) (hc : Calm sb data s) (hdata : data ≤ b)
    (hused : s.used sb b = true) (hheld : b ∉ s.held) (hroom : Room sb (f + 1) (l + 3) s) :
    Triple (fun t => t = s) (indirect sb b j) (fun _ t => Room sb f l t) fun _ _ => False := by
  refine Triple.bind (bread_spec hheld) fun _ => Triple.of_state fun s₁ hs₁ => ?_
  have hp₁ : Forest sb data s₁ := by
    rw [hs₁]
    exact hp.same rfl rfl
  have hc₁ : Calm sb data s₁ := by
    rw [hs₁]
    exact hc.bread hdata hused
  have hroom₁ : Room sb (f + 1) (l + 1 + 2) s₁ := by
    rw [hs₁]
    exact ⟨hroom.blocks, hroom.log⟩
  have hmem : b ∈ s₁.held := by
    rw [hs₁]
    exact Finset.mem_insert_self b s.held
  refine Triple.bind (index_spec b j) fun addr => Triple.of_fact fun _ => ?_
  refine Triple.ite (fun _ => ?_) fun _ => ?_
  · refine Triple.bind (balloc_room hg (hp₁.ready hg hc₁) hroom₁) fun n => Triple.of_state fun u hu => ?_
    refine Triple.bind (R := fun _ t => t = u.setBlock b fun d => setWord d j n) (Triple.modify fun t h => by rw [h])
      fun _ => ?_
    have hlog := hu.2.log
    refine Triple.bind (log_write_spec b fun hfull => ?_) fun _ => Triple.of_fact fun _ => ?_
    · rw [State.setBlock_logged] at hfull
      omega
    refine Triple.bind (brelse_spec ?_) fun _ => Triple.pure fun t h => ?_
    · show b ∈ u.held
      rw [hu.1.held]
      exact hmem
    rw [h]
    refine hu.2.write (b := b) (fun c hcs => ?_) (Finset.Subset.refl _)
    -- the bitmap is not in the block
    have hne : sb.bblock c ≠ b := by
      have := hg.bitmap c hcs
      omega
    show getBit ((u.setBlock b fun d => setWord d j n).block (sb.bblock c)) (c % BPB) = _
    rw [State.setBlock_ne _ _ hne]
    rfl
  · refine Triple.bind (brelse_spec hmem) fun _ => Triple.pure fun t h => ?_
    have hblocks := hroom₁.blocks
    have hlog := hroom₁.log
    rw [h]
    constructor
    · show f ≤ s₁.nfree sb
      omega
    · show s₁.logged.card + l ≤ sb.logsize
      omega

/-- What a call of `bmap` needs at the most: a block at each level, and the log for it. -/
theorem bmap_room (hg : Geometry sb data) (hp : Forest sb data s) (hheld : s.held = ∅) {bn : ℕ} (hbn : bn < NBLOCKS)
    (hroom : Room sb (f + 4) (l + 11) s) :
    Triple (fun t => t = s) (bmap sb ip bn)
      (fun r t => Room sb f l t ∧ Mapped sb data s (Node.ofBlock ip bn) (Node.ofBlock ip bn) r t) fun _ _ => False := by
  have hrule : Triple (fun t => t = s) (bmap sb ip bn) (fun r t =>
      Room sb (f + 3 - (Node.ofBlock ip bn).js.length) (l + 9 - 3 * (Node.ofBlock ip bn).js.length) t ∧
        Mapped sb data s (Node.ofBlock ip bn) (Node.ofBlock ip bn) r t) fun _ _ => False := by
    apply bmap_rule (I := fun k r t => Room sb (f + 3 - k.js.length) (l + 9 - 3 * k.js.length) t ∧
      Mapped sb data s (Node.ofBlock ip bn) k r t) hbn
    · intro i hi habove
      refine ((direct_room hg hp (Calm.of_empty hheld) hroom).and (Mapped.root _ hg hp hheld hi habove)).pre ?_
      exact fun t h => ⟨h, h⟩
    · rintro i j js r t hv habove ⟨hroom', h⟩
      have hempty : t.held = ∅ := by rw [h.grown.held, hheld]
      have h0 : t.blockOf ⟨ip, i, js⟩ ≠ 0 := by
        rw [h.here]
        exact h.ne
      obtain ⟨hdata, -, hused⟩ := h.forest.place _ hv.up h0
      rw [h.here] at hdata hused
      have hdepth : js.length + 1 ≤ 3 := by
        have haddr := hv.addr
        have hlen := hv.depth
        simp only [level, NADDRS, NDIRECT, List.length_cons] at haddr hlen
        omega
      refine ((indirect_room hg h.forest (Calm.of_empty hempty) hdata hused (by rw [hempty]; simp)
        (hroom'.weaken ?_ ?_)).and (h.step hg hheld hv habove)).pre ?_
      · simp only [List.length_cons]
        omega
      · simp only [List.length_cons]
        omega
      · exact fun t h => ⟨h, h⟩
  refine hrule.post fun r t h => ⟨h.1.weaken ?_ ?_, h.2⟩
  all_goals
    have hv : (Node.ofBlock ip bn).Valid := ofBlock_valid hbn
    have haddr := hv.addr
    have hlen := hv.depth
    simp only [level, NADDRS, NDIRECT] at haddr hlen
    omega

end

end Xv6.Block
