import Xv6.Block.Stable

/-!
# Truncation

`itrunc` of an inode whose blocks form a tree as `bmap` builds it.

* `Frees sb ip s L Z t`: from `s` to `t` the blocks of `L` were freed, and `addrs[i]` cleared for `i` in `Z`.
* `bfree_spec`, `freeDirect_spec`, `freeEntries_spec`: what the loops free.
* `freeDouble_lost`: the loop over index blocks ends with a buffer that it has released.
* **`itrunc_exact`**: `itrunc` does what it should if and only if there is no double and no triple indirect
  block, and the log has room.
-/

namespace Xv6.Block

open Prog

section

variable {sb : Super} {data : ℕ} {s t u : State} {ip i b a : ℕ} {L L' : List ℕ} {S : Finset ℕ}
  {E : Fault → State → Prop}

/-! ## Freeing blocks -/

/-- The blocks of `L` were freed, and the addresses in `Z` cleared; nothing else of interest changed. -/
structure Frees (sb : Super) (ip : ℕ) (s : State) (L Z : List ℕ) (t : State) : Prop where
  used : ∀ b, b < sb.nbitmap * BPB → t.used sb b = (s.used sb b && decide (b ∉ L))
  block : ∀ c, (∀ b ∈ L, c ≠ sb.bblock b) → t.block c = s.block c
  held : t.held = s.held
  logged : t.logged = s.logged ∪ (L.map sb.bblock).toFinset
  addrs : ∀ i, (t.inode ip).addrs i = if i ∈ Z then 0 else (s.inode ip).addrs i
  same : ∀ ip', t.inode ip' = { s.inode ip' with addrs := (t.inode ip').addrs }
  others : ∀ ip', ip' ≠ ip → t.inode ip' = s.inode ip'

theorem Frees.refl (s : State) : Frees sb ip s [] [] s := by
  refine ⟨fun b _ => ?_, fun _ _ => rfl, rfl, ?_, fun i => ?_, fun _ => rfl, fun _ _ => rfl⟩
  · simp
  · simp
  · simp

/-- First some, then others. -/
theorem Frees.trans {Z Z' : List ℕ} (h : Frees sb ip s L Z t) (h' : Frees sb ip t L' Z' u) :
    Frees sb ip s (L ++ L') (Z ++ Z') u := by
  constructor
  · intro b hb
    rw [h'.used b hb, h.used b hb]
    by_cases h1 : b ∈ L <;> by_cases h2 : b ∈ L' <;> simp [h1, h2]
  · intro c hc
    rw [h'.block c fun b hb => hc b (List.mem_append_right L hb), h.block c fun b hb => hc b (List.mem_append_left L' hb)]
  · rw [h'.held, h.held]
  · rw [h'.logged, h.logged, List.map_append, List.toFinset_append, Finset.union_assoc]
  · intro i
    rw [h'.addrs i, h.addrs i]
    by_cases h1 : i ∈ Z <;> by_cases h2 : i ∈ Z' <;> simp [h1, h2]
  · intro ip'
    rw [h'.same ip', h.same ip']
  · intro ip' hip
    rw [h'.others ip' hip, h.others ip' hip]

/-- The lock of a buffer that was taken before is free again. -/
theorem Frees.unlock {Z : List ℕ} (hb : b ∉ s.held) (h : Frees sb ip { s with held := insert b s.held } L Z t) :
    Frees sb ip s L Z { t with held := t.held.erase b } := by
  refine ⟨h.used, h.block, ?_, h.logged, h.addrs, h.same, h.others⟩
  show t.held.erase b = s.held
  rw [h.held]
  exact Finset.erase_insert hb

/-- `addrs[i]` is cleared. -/
theorem Frees.clear (s : State) (ip i : ℕ) : Frees sb ip s [] [i] (s.setAddr ip i 0) := by
  refine ⟨fun b _ => ?_, fun _ _ => rfl, rfl, ?_, fun k => ?_, fun ip' => ?_, fun ip' hip => ?_⟩
  · show s.used sb b = _
    simp
  · show s.logged = _
    simp
  · unfold State.setAddr State.setInode
    by_cases hk : k = i
    · simp [hk]
    · simp [hk]
  · unfold State.setAddr State.setInode
    by_cases hip : ip' = ip
    · subst hip
      simp
    · simp [hip]
  · unfold State.setAddr State.setInode
    simp [hip]

/-- Every bit of the bitmap is in a block of the bitmap. -/
theorem Geometry.bit (hg : Geometry sb data) (hb : b < sb.nbitmap * BPB) : sb.bblock b < data := by
  have hblock : sb.bblock (b / BPB * BPB) = sb.bblock b := by
    simp only [Super.bblock, BPB, BSIZE]
    omega
  rw [← hblock]
  refine hg.bitmap _ ?_
  simp only [Super.nbitmap, BPB, BSIZE] at hb ⊢
  omega

/-- The blocks of `L` can be freed, and the log then has the blocks `S`. -/
structure Freeable (sb : Super) (S : Finset ℕ) (s : State) (L : List ℕ) : Prop where
  nodup : L.Nodup
  used : ∀ b ∈ L, b < sb.size ∧ s.used sb b = true
  free : ∀ b, b < sb.size → sb.bblock b ∉ s.held
  room : s.logged ∪ (L.map sb.bblock).toFinset ⊆ S

theorem Freeable.left (h : Freeable sb S s (L ++ L')) : Freeable sb S s L := by
  refine ⟨(List.nodup_append.1 h.nodup).1, fun b hb => h.used b (List.mem_append_left L' hb), h.free, ?_⟩
  refine Finset.Subset.trans (Finset.union_subset_union_right ?_) h.room
  rw [List.map_append, List.toFinset_append]
  exact Finset.subset_union_left

/-- What is left to free after the first part. -/
theorem Freeable.right {Z : List ℕ} (h : Freeable sb S s (L ++ L')) (hf : Frees sb ip s L Z t) : Freeable sb S t L' := by
  obtain ⟨-, hnodup, hdisjoint⟩ := List.nodup_append.1 h.nodup
  refine ⟨hnodup, fun b hb => ?_, fun b hb => ?_, ?_⟩
  · obtain ⟨hsize, hused⟩ := h.used b (List.mem_append_right L hb)
    have hout : b ∉ L := fun hmem => hdisjoint b hmem b hb rfl
    refine ⟨hsize, ?_⟩
    rw [hf.used b (Nat.lt_of_lt_of_le hsize sb.size_le), hused]
    simp [hout]
  · rw [hf.held]
    exact h.free b hb
  · rw [hf.logged, Finset.union_assoc, ← List.toFinset_append, ← List.map_append]
    exact h.room

/-- Another buffer is locked, which is none of the bitmap. -/
theorem Freeable.lock (h : Freeable sb S s L) (hb : ∀ c, c < sb.size → sb.bblock c ≠ b) :
    Freeable sb S { s with held := insert b s.held } L := by
  refine ⟨h.nodup, h.used, fun c hc hmem => ?_, h.room⟩
  rcases Finset.mem_insert.1 hmem with heq | hmem
  · exact hb c hc heq
  · exact h.free c hc hmem

/-- **`bfree`** clears one bit. -/
theorem bfree_spec (ip : ℕ) (h : Freeable sb S s [b]) (hE : ∀ t, ¬ S.card < sb.logsize → E .tooBig t) :
    Triple (fun t => t = s) (bfree sb b) (fun _ t => Frees sb ip s [b] [] t) E := by
  obtain ⟨hsize, hused⟩ := h.used b List.mem_cons_self
  have hheld := h.free b hsize
  have hback : (insert (sb.bblock b) s.held).erase (sb.bblock b) = s.held := Finset.erase_insert hheld
  refine Triple.bind (bread_spec hheld) fun _ => ?_
  refine Triple.bind (R := fun a t => a = t ∧ t = { s with held := insert (sb.bblock b) s.held })
    (Triple.get fun t h => ⟨rfl, h⟩) fun a => ?_
  refine Triple.fact (c := a.used sb b = true) (fun t h => by rw [h.1, h.2]; exact hused) fun ha => ?_
  refine Triple.bind (R := fun _ t => t = { s with held := insert (sb.bblock b) s.held })
    (Triple.assert (fun _ t h => h.2) fun hn => absurd ha hn) fun _ => ?_
  refine Triple.bind (R := fun _ t => t = { s.setBlock (sb.bblock b) fun d => clearBit d (b % BPB) with
    held := insert (sb.bblock b) s.held }) (Triple.modify fun t h => by rw [h]; rfl) fun _ => ?_
  refine Triple.bind (log_write_spec (sb.bblock b) fun hfull => hE _ fun hroom => hfull ?_) fun _ => Triple.of_fact fun _ => ?_
  · exact Nat.lt_of_le_of_lt (Finset.card_le_card (Finset.Subset.trans Finset.subset_union_left h.room)) hroom
  refine (brelse_spec (Finset.mem_insert_self _ _)).post fun _ t ht => ?_
  rw [ht]
  refine ⟨fun c hc => ?_, fun c hc => ?_, hback, ?_, fun i => by simp, fun _ => rfl, fun _ _ => rfl⟩
  · show getBit ((s.setBlock (sb.bblock b) fun d => clearBit d (b % BPB)).block (sb.bblock c)) (c % BPB) = _
    unfold State.used
    by_cases hblock : sb.bblock c = sb.bblock b
    · rw [hblock, State.setBlock_self, getBit_clearBit]
      have hiff : (b % BPB = c % BPB) ↔ c = b :=
        ⟨fun h => sb.bit_inj hblock h.symm, fun h => by rw [h]⟩
      simp [hiff]
    · have hne : c ≠ b := by
        rintro rfl
        exact hblock rfl
      rw [State.setBlock_ne _ _ hblock]
      simp [hne]
  · exact State.setBlock_ne s (fun d => clearBit d (b % BPB)) (hc b List.mem_cons_self)
  · show insert (sb.bblock b) s.logged = _
    rw [Finset.insert_eq, Finset.union_comm]
    simp

/-! ## The loops -/

/-- Those that are blocks. -/
def taken (l : List ℕ) : List ℕ := l.filter fun b => b ≠ 0

theorem taken_cons_zero {l : List ℕ} (h : b = 0) : taken (b :: l) = taken l := by
  unfold taken
  rw [List.filter_cons_of_neg (by simpa using h)]

theorem taken_cons {l : List ℕ} (h : b ≠ 0) : taken (b :: l) = [b] ++ taken l := by
  unfold taken
  rw [List.filter_cons_of_pos (by simpa using h)]
  rfl

/-- **The loop over the direct blocks.** -/
theorem freeDirect_spec (hE : ∀ t, ¬ S.card < sb.logsize → E .tooBig t) {is : List ℕ} :
    ∀ {s : State}, is.Nodup → Freeable sb S s (taken (is.map (s.inode ip).addrs)) →
      Triple (fun t => t = s) (freeDirect sb ip is)
        (fun _ t => Frees sb ip s (taken (is.map (s.inode ip).addrs)) is t) E := by
  induction is with
  | nil =>
    intro s _ _
    rw [freeDirect]
    refine Triple.pure fun t h => ?_
    rw [h]
    exact Frees.refl s
  | cons i is ih =>
    intro s hnodup hfree
    obtain ⟨hi, hnodup⟩ := List.nodup_cons.1 hnodup
    -- the other addresses are still there when this one is cleared
    have hrest : ∀ {L : List ℕ} {t : State}, Frees sb ip s L [i] t →
        is.map (t.inode ip).addrs = is.map (s.inode ip).addrs := by
      intro L t h
      refine List.map_congr_left fun k hk => ?_
      have hne : k ∉ [i] := by
        intro hmem
        rw [List.mem_singleton.1 hmem] at hk
        exact hi hk
      rw [h.addrs k, if_neg hne]
    rw [freeDirect, List.map_cons]
    rw [List.map_cons] at hfree
    refine Triple.bind (R := fun a t => a = s ∧ t = s) (Triple.get fun t h => ⟨h, h⟩) fun a => ?_
    refine Triple.of_fact fun ha => ?_
    subst ha
    by_cases h0 : (a.inode ip).addrs i = 0
    · rw [taken_cons_zero h0] at hfree ⊢
      refine Triple.bind (R := fun _ t => t = a) (Triple.ite (fun h => absurd h0 h) fun _ => Triple.pure fun t h => h)
        fun _ => ?_
      refine (ih hnodup hfree).post fun _ t h => ?_
      have hzero : Frees sb ip a [] [i] a := by
        have hrefl : Frees sb ip a [] [] a := Frees.refl a
        refine ⟨hrefl.used, fun _ _ => rfl, rfl, hrefl.logged, fun k => ?_, fun _ => rfl, fun _ _ => rfl⟩
        by_cases hk : k = i
        · rw [hk, if_pos List.mem_cons_self, h0]
        · rw [if_neg (by simpa using hk)]
      exact hzero.trans h
    · rw [taken_cons h0] at hfree ⊢
      refine Triple.bind (R := fun _ t => Frees sb ip a [(a.inode ip).addrs i] [i] t) (Triple.ite (fun _ => ?_) fun h =>
        absurd h0 h) fun _ => Triple.of_state fun t ht => ?_
      · refine Triple.bind (bfree_spec ip hfree.left hE) fun _ => ?_
        exact Triple.modify fun t h => h.trans (Frees.clear t ip i)
      · have hlist := hrest ht
        have hspec := ih hnodup (by rw [hlist]; exact hfree.right ht)
        rw [hlist] at hspec
        exact hspec.post fun _ u hu => ht.trans hu

/-- **The loop over an index block.** -/
theorem freeEntries_spec (ip : ℕ) (hg : Geometry sb data) (hE : ∀ t, ¬ S.card < sb.logsize → E .tooBig t) (ha : data ≤ a)
    {js : List ℕ} : ∀ {s : State}, Freeable sb S s (taken (js.map (word (s.block a)))) →
      Triple (fun t => t = s) (freeEntries sb a js)
        (fun _ t => Frees sb ip s (taken (js.map (word (s.block a)))) [] t) E := by
  induction js with
  | nil =>
    intro s _
    rw [freeEntries]
    refine Triple.pure fun t h => ?_
    rw [h]
    exact Frees.refl s
  | cons j js ih =>
    intro s hfree
    rw [freeEntries, List.map_cons]
    rw [List.map_cons] at hfree
    refine Triple.bind (index_spec a j) fun addr => Triple.of_fact fun haddr => ?_
    rw [← haddr] at hfree ⊢
    by_cases h0 : addr = 0
    · rw [taken_cons_zero h0] at hfree ⊢
      refine Triple.bind (R := fun _ t => t = s) (Triple.ite (fun h => absurd h0 h) fun _ => Triple.pure fun t h => h)
        fun _ => ?_
      exact ih hfree
    · rw [taken_cons h0] at hfree ⊢
      refine Triple.bind (R := fun _ t => Frees sb ip s [addr] [] t) (Triple.ite (fun _ => bfree_spec ip hfree.left hE)
        fun h => absurd h0 h) fun _ => Triple.of_state fun t ht => ?_
      -- the index block is none of the bitmap
      have hblock : t.block a = s.block a := by
        refine ht.block a fun b hb heq => ?_
        have hsize := (hfree.used b (List.mem_append_left _ hb)).1
        have hbit := hg.bitmap b hsize
        omega
      have hspec := ih (s := t) (by rw [hblock]; exact hfree.right ht)
      rw [hblock] at hspec
      exact hspec.post fun _ u hu => ht.trans hu

/-! ## The direct blocks and the single indirect block -/

/-- The blocks of the single indirect block, and the block itself. -/
def State.single (s : State) (ip : ℕ) : List ℕ :=
  taken ((List.range NINDIRECT).map fun j => s.blockOf ⟨ip, NDIRECT, [j]⟩) ++ taken [s.blockOf ⟨ip, NDIRECT, []⟩]

/-- The blocks that are not below a double or triple indirect block, in the order in which they are freed. -/
def State.shallow (s : State) (ip : ℕ) : List ℕ :=
  taken ((List.range NDIRECT).map (s.inode ip).addrs) ++ s.single ip

theorem taken_zero {l : List ℕ} (h : ∀ b ∈ l, b = 0) : taken l = [] := by
  unfold taken
  rw [List.filter_eq_nil_iff]
  intro b hb
  simp [h b hb]

theorem single_none (h : (s.inode ip).addrs NDIRECT = 0) : s.single ip = [] := by
  have h0 : s.blockOf ⟨ip, NDIRECT, []⟩ = 0 := h
  unfold State.single
  rw [taken_zero, taken_zero, List.append_nil]
  · intro b hb
    rw [List.mem_singleton.1 hb, h0]
  · intro b hb
    obtain ⟨j, -, rfl⟩ := List.mem_map.1 hb
    rw [State.blockOf_cons, if_pos h0]

theorem single_some (h : (s.inode ip).addrs NDIRECT ≠ 0) : s.single ip =
    taken ((List.range NINDIRECT).map (word (s.block ((s.inode ip).addrs NDIRECT)))) ++ [(s.inode ip).addrs NDIRECT] := by
  have h0 : s.blockOf ⟨ip, NDIRECT, []⟩ ≠ 0 := h
  have hword : ∀ j, s.blockOf ⟨ip, NDIRECT, [j]⟩ = word (s.block ((s.inode ip).addrs NDIRECT)) j := by
    intro j
    rw [State.blockOf_cons, if_neg h0]
    rfl
  unfold State.single
  rw [taken_cons h0, taken_zero (l := []) (by simp), List.append_nil]
  simp only [hword]
  rfl

/-- **The single indirect block.** -/
theorem freeSingle_spec (hg : Geometry sb data) (hE : ∀ t, ¬ S.card < sb.logsize → E .tooBig t)
    (hfree : Freeable sb S s (s.single ip)) (hdata : (s.inode ip).addrs NDIRECT ≠ 0 → data ≤ (s.inode ip).addrs NDIRECT)
    (hheld : (s.inode ip).addrs NDIRECT ∉ s.held) :
    Triple (fun t => t = s) (freeSingle sb ip) (fun _ t => Frees sb ip s (s.single ip) [NDIRECT] t) E := by
  refine Triple.bind (R := fun a t => a = s ∧ t = s) (Triple.get fun t h => ⟨h, h⟩) fun a => ?_
  refine Triple.of_fact fun ha => ?_
  subst ha
  refine Triple.ite (fun h0 => ?_) fun h0 => Triple.pure fun t h => ?_
  · have hlist := single_some (s := a) h0
    rw [hlist] at hfree ⊢
    set bp := (a.inode ip).addrs NDIRECT with hbp
    have hbp' := hdata h0
    have hnot : ∀ c, c < sb.size → sb.bblock c ≠ bp := by
      intro c hc heq
      have hbit := hg.bitmap c hc
      omega
    refine Triple.bind (bread_spec hheld) fun _ => ?_
    refine Triple.bind (freeEntries_spec ip hg hE hbp' (hfree.left.lock hnot)) fun _ =>
      Triple.of_state fun t ht => ?_
    have hmem : bp ∈ t.held := by
      rw [ht.held]
      exact Finset.mem_insert_self bp a.held
    refine Triple.bind (brelse_spec hmem) fun _ => Triple.of_state fun u hu => ?_
    have hfrees : Frees sb ip a (taken ((List.range NINDIRECT).map (word (a.block bp)))) [] u := by
      rw [hu]
      exact ht.unlock hheld
    refine Triple.bind (R := fun x t => x = u ∧ t = u) (Triple.get fun t h => ⟨h, h⟩) fun x => ?_
    refine Triple.of_fact fun hx => ?_
    subst hx
    have haddr : (x.inode ip).addrs NDIRECT = bp := by
      rw [hfrees.addrs, if_neg (by simp)]
    rw [haddr]
    refine Triple.bind (bfree_spec ip (hfree.right hfrees) hE) fun _ => Triple.modify fun t h => ?_
    have hclear := (hfrees.trans h).trans (Frees.clear t ip NDIRECT)
    rwa [List.append_nil] at hclear
  · have h0' : (a.inode ip).addrs NDIRECT = 0 := by simpa using h0
    have hrefl : Frees sb ip a [] [] a := Frees.refl a
    rw [single_none h0', h]
    refine ⟨hrefl.used, fun _ _ => rfl, rfl, hrefl.logged, fun k => ?_, fun _ => rfl, fun _ _ => rfl⟩
    by_cases hk : k = NDIRECT
    · rw [hk, if_pos List.mem_cons_self, h0']
    · rw [if_neg (by simpa using hk)]

theorem shallow_spec (hg : Geometry sb data) (hr : Rest sb data s) (hE : ∀ t, ¬ S.card < sb.logsize → E .tooBig t)
    (hfree : Freeable sb S s (s.shallow ip)) {rest : M Unit} {Q : Unit → State → Prop}
    (hrest : ∀ t, Frees sb ip s (s.shallow ip) (List.range (NDIRECT + 1)) t → Triple (fun u => u = t) rest Q E) :
    Triple (fun t => t = s) (do freeDirect sb ip (List.range NDIRECT); freeSingle sb ip; rest) Q E := by
  refine Triple.bind (freeDirect_spec hE List.nodup_range hfree.left) fun _ => Triple.of_state fun t ht => ?_
  have haddr : (t.inode ip).addrs NDIRECT = (s.inode ip).addrs NDIRECT := by
    rw [ht.addrs, if_neg (by simp)]
  have hplace : (s.inode ip).addrs NDIRECT ≠ 0 → data ≤ (s.inode ip).addrs NDIRECT := fun h0 =>
    (hr.forest.place ⟨ip, NDIRECT, []⟩ ⟨by norm_num, Nat.zero_le _, by simp⟩ h0).1
  -- the index block is none that was freed from the bitmap
  have hsingle : t.single ip = s.single ip := by
    by_cases h0 : (s.inode ip).addrs NDIRECT = 0
    · rw [single_none h0, single_none (by rw [haddr, h0])]
    · have hblock : t.block ((s.inode ip).addrs NDIRECT) = s.block ((s.inode ip).addrs NDIRECT) := by
        refine ht.block _ fun b hb heq => ?_
        have hbit := hg.bitmap b (hfree.left.used b hb).1
        have hdata := hplace h0
        omega
      rw [single_some h0, single_some (by rwa [haddr]), haddr, hblock]
  have hspec : Triple (fun u => u = t) (freeSingle sb ip) (fun _ u => Frees sb ip t (t.single ip) [NDIRECT] u) E := by
    refine freeSingle_spec hg hE ?_ ?_ ?_
    · rw [hsingle]
      exact hfree.right ht
    · rw [haddr]
      exact hplace
    · rw [ht.held, hr.held]
      exact Finset.notMem_empty _
  refine Triple.bind hspec fun _ => Triple.of_state fun u hu => hrest u ?_
  rw [hsingle] at hu
  have hrange : List.range (NDIRECT + 1) = List.range NDIRECT ++ [NDIRECT] := List.range_succ
  rw [hrange]
  exact ht.trans hu

/-! ## The whole of `itrunc` -/

/-- Block `b` is a block of the inode, for data or indices. -/
def State.Holds (s : State) (ip b : ℕ) : Prop := b ≠ 0 ∧ ∃ k : Node, k.Valid ∧ k.ip = ip ∧ s.blockOf k = b

/-- What `itrunc` should do: free the blocks of the inode and no others, release every buffer, and leave
the inode empty. -/
structure Freed (sb : Super) (s : State) (ip : ℕ) (t : State) : Prop where
  used : ∀ b, b < sb.nbitmap * BPB → (t.used sb b = true ↔ s.used sb b = true ∧ ¬ s.Holds ip b)
  held : t.held = s.held
  size : (t.inode ip).size = 0
  addrs : ∀ i, i < NADDRS → (t.inode ip).addrs i = 0
  others : ∀ ip', ip' ≠ ip → t.inode ip' = s.inode ip'
  trees : ∀ k : Node, k.Valid → k.ip ≠ ip → t.blockOf k = s.blockOf k

/-- The blocks that the log has after `itrunc`, but for that of the inode. -/
def State.toLog (sb : Super) (s : State) (ip : ℕ) : Finset ℕ := s.logged ∪ ((s.shallow ip).map sb.bblock).toFinset

/-- The places whose blocks are freed with the single indirect block. -/
def Node.shallow (ip : ℕ) : List Node :=
  (List.range NDIRECT).map (fun i => ⟨ip, i, []⟩) ++ ((List.range NINDIRECT).map (fun j => ⟨ip, NDIRECT, [j]⟩) ++
    [⟨ip, NDIRECT, []⟩])

theorem shallow_eq (s : State) (ip : ℕ) : s.shallow ip = taken ((Node.shallow ip).map s.blockOf) := by
  unfold State.shallow State.single Node.shallow taken
  rw [List.map_append, List.map_append, List.filter_append, List.filter_append, List.map_map, List.map_map]
  rfl

theorem shallow_valid {k : Node} (hk : k ∈ Node.shallow ip) : k.Valid ∧ k.ip = ip := by
  unfold Node.shallow at hk
  rcases List.mem_append.1 hk with hk | hk
  · obtain ⟨i, hi, rfl⟩ := List.mem_map.1 hk
    have hlt := List.mem_range.1 hi
    refine ⟨⟨?_, Nat.zero_le _, by simp⟩, rfl⟩
    show i < 13
    simp only [NDIRECT] at hlt
    omega
  rcases List.mem_append.1 hk with hk | hk
  · obtain ⟨j, hj, rfl⟩ := List.mem_map.1 hk
    refine ⟨⟨by norm_num, le_of_eq rfl, ?_⟩, rfl⟩
    simpa using List.mem_range.1 hj
  · rw [List.mem_singleton.1 hk]
    exact ⟨⟨by norm_num, Nat.zero_le _, by simp⟩, rfl⟩

theorem shallow_nodup (ip : ℕ) : (Node.shallow ip).Nodup := by
  unfold Node.shallow
  rw [List.nodup_append, List.nodup_append]
  refine ⟨?_, ⟨?_, List.nodup_singleton _, ?_⟩, ?_⟩
  · exact List.nodup_range.map fun i i' h => (Node.mk.inj h).2.1
  · exact List.nodup_range.map fun j j' h => (List.cons.inj (Node.mk.inj h).2.2).1
  · rintro k hk l hl rfl
    obtain ⟨j, -, rfl⟩ := List.mem_map.1 hk
    simp at hl
  · rintro k hk l hl rfl
    obtain ⟨i, hi, rfl⟩ := List.mem_map.1 hk
    have hlt := List.mem_range.1 hi
    rcases List.mem_append.1 hl with hl | hl
    · obtain ⟨j, -, hj⟩ := List.mem_map.1 hl
      simp at hj
    · have hi' := (Node.mk.inj (List.mem_singleton.1 hl)).2.1
      omega

/-- Without double and triple indirect blocks, these are all the places with blocks. -/
theorem mem_shallow (h₁ : (s.inode ip).addrs (NDIRECT + 1) = 0) (h₂ : (s.inode ip).addrs (NDIRECT + 2) = 0) :
    b ∈ s.shallow ip ↔ s.Holds ip b := by
  rw [shallow_eq]
  unfold taken State.Holds
  simp only [List.mem_filter, List.mem_map, decide_eq_true_eq]
  constructor
  · rintro ⟨⟨k, hk, rfl⟩, h0⟩
    obtain ⟨hv, hip⟩ := shallow_valid hk
    exact ⟨h0, k, hv, hip, rfl⟩
  · rintro ⟨h0, ⟨ip', i, js⟩, hv, rfl, rfl⟩
    refine ⟨⟨_, ?_, rfl⟩, h0⟩
    have haddr : i < 13 := hv.addr
    have hdepth : js.length ≤ i - 9 := hv.depth
    -- the places under an empty address are empty
    have hnone : (s.inode ip').addrs i ≠ 0 := by
      intro hz
      have hall : ∀ js, s.blockOf ⟨ip', i, js⟩ = 0 := by
        intro js
        induction js with
        | nil => exact hz
        | cons j js ih => rw [State.blockOf_cons, if_pos ih]
      exact h0 (hall js)
    have hi : i ≤ 10 := by
      by_contra hgt
      have hcases : i = NDIRECT + 1 ∨ i = NDIRECT + 2 := by
        simp only [NDIRECT]
        omega
      rcases hcases with rfl | rfl
      · exact hnone h₁
      · exact hnone h₂
    unfold Node.shallow
    cases js with
    | nil =>
      by_cases hlt : i < NDIRECT
      · refine List.mem_append_left _ (List.mem_map.2 ⟨i, List.mem_range.2 hlt, rfl⟩)
      · have heq : i = NDIRECT := by
          simp only [NDIRECT] at hlt ⊢
          omega
        rw [heq]
        simp
    | cons j js =>
      simp only [List.length_cons] at hdepth
      have heq : i = NDIRECT := by
        simp only [NDIRECT]
        omega
      have hjs : js = [] := by
        rw [← List.length_eq_zero_iff]
        omega
      have hj : j < NINDIRECT := hv.index j List.mem_cons_self
      rw [heq, hjs]
      refine List.mem_append_right _ (List.mem_append_left _ (List.mem_map.2 ⟨j, List.mem_range.2 hj, rfl⟩))

theorem shallow_freeable (hr : Rest sb data s) :
    Freeable sb (s.toLog sb ip) s (s.shallow ip) := by
  refine ⟨?_, fun b hb => ?_, fun b _ => ?_, Finset.Subset.refl _⟩
  · rw [shallow_eq]
    unfold taken
    rw [List.filter_map]
    refine List.Nodup.map_on (fun k hk l hl heq => ?_) ((shallow_nodup ip).filter _)
    obtain ⟨hk, h0⟩ := List.mem_filter.1 hk
    obtain ⟨hl, -⟩ := List.mem_filter.1 hl
    exact hr.forest.inj k l (shallow_valid hk).1 (shallow_valid hl).1 heq (by simpa using h0)
  · rw [shallow_eq] at hb
    obtain ⟨hmem, h0⟩ := List.mem_filter.1 hb
    obtain ⟨k, hk, rfl⟩ := List.mem_map.1 hmem
    exact (hr.forest.place k (shallow_valid hk).1 (by simpa using h0)).2
  · rw [hr.held]
    exact Finset.notMem_empty _

/-- The blocks of the trees are none of the bitmap. -/
theorem Frees.block_tree {Z : List ℕ} (hg : Geometry sb data) (hr : Rest sb data s) (hf : Freeable sb S s L)
    (h : Frees sb ip s L Z t) {k : Node} (hk : k.Valid) (h0 : s.blockOf k ≠ 0) :
    t.block (s.blockOf k) = s.block (s.blockOf k) := by
  refine h.block _ fun b hb heq => ?_
  have hdata := (hr.forest.place k hk h0).1
  have hbit := hg.bitmap b (hf.used b hb).1
  omega

/-- **Without double and triple indirect blocks** `itrunc` does what it should, if the log has room. -/
theorem itrunc_shallow (hg : Geometry sb data) (hr : Rest sb data s) (hip : ip < sb.ninodes)
    (h₁ : (s.inode ip).addrs (NDIRECT + 1) = 0) (h₂ : (s.inode ip).addrs (NDIRECT + 2) = 0) :
    Triple (fun t => t = s) (itrunc sb ip) (fun _ t => Freed sb s ip t ∧ (s.toLog sb ip).card < sb.logsize)
      (fun _ _ => ¬ (s.toLog sb ip).card < sb.logsize) := by
  have hfree : Freeable sb (s.toLog sb ip) s (s.shallow ip) := shallow_freeable hr
  refine shallow_spec hg hr (fun _ h => h) hfree fun t ht => ?_
  have hkeep : ∀ i, NDIRECT < i → (t.inode ip).addrs i = (s.inode ip).addrs i := by
    intro i hi
    rw [ht.addrs, if_neg]
    rw [List.mem_range]
    omega
  refine Triple.bind (R := fun _ u => u = t) ?_ fun _ => ?_
  · refine Triple.bind (R := fun a u => a = t ∧ u = t) (Triple.get fun t h => ⟨h, h⟩) fun a => ?_
    refine Triple.of_fact fun ha => ?_
    subst ha
    refine Triple.ite (fun h => absurd ?_ h) fun _ => Triple.pure fun _ h => h
    rw [hkeep _ (by omega), h₁]
  refine Triple.bind (R := fun _ u => u = t) ?_ fun _ => ?_
  · refine Triple.bind (R := fun a u => a = t ∧ u = t) (Triple.get fun t h => ⟨h, h⟩) fun a => ?_
    refine Triple.of_fact fun ha => ?_
    subst ha
    refine Triple.ite (fun h => absurd ?_ h) fun _ => Triple.pure fun _ h => h
    rw [hkeep _ (by omega), h₂]
  refine Triple.bind (R := fun _ u => u = t.setInode ip fun x => { x with size := 0 })
    (Triple.modify fun u h => by rw [h]) fun _ => ?_
  set v := t.setInode ip fun x => { x with size := 0 } with hv
  have hheld : v.held = ∅ := by
    show t.held = ∅
    rw [ht.held, hr.held]
  have hlogged : v.logged = s.toLog sb ip := ht.logged
  refine (iupdate_spec (by rw [hheld]; exact Finset.notMem_empty _) fun _ h => by rwa [hlogged] at h).post fun _ u hu => ?_
  rw [hlogged] at hu
  obtain ⟨hroom, hu⟩ := hu
  have hinode : u.inode = v.inode := by rw [hu]; rfl
  have hblock : ∀ c, c ≠ sb.iblock ip → u.block c = t.block c := by
    intro c hc
    rw [hu]
    exact State.setBlock_ne v (fun d => putDinode d (ip % IPB * 16) (v.inode ip)) hc
  have hself : v.inode ip = { t.inode ip with size := 0 } := Function.update_self ..
  refine ⟨⟨fun b hb => ?_, ?_, ?_, fun i hi => ?_, fun ip' hip' => ?_, fun k hk hkip => ?_⟩, hroom⟩
  · have hbit : u.used sb b = t.used sb b := by
      unfold State.used
      rw [hblock]
      have hapart := hg.apart ip (b / BPB * BPB) hip (by
        simp only [Super.nbitmap, BPB, BSIZE] at hb ⊢
        omega)
      intro heq
      refine hapart ?_
      rw [← heq]
      simp only [Super.bblock, BPB, BSIZE]
      omega
    rw [hbit, ht.used b hb, Bool.and_eq_true, decide_eq_true_eq, mem_shallow h₁ h₂]
  · rw [hu]
    exact ht.held
  · rw [hinode, hself]
  · rw [hinode, hself]
    show (t.inode ip).addrs i = 0
    by_cases hlt : i < NDIRECT + 1
    · rw [ht.addrs, if_pos (List.mem_range.2 hlt)]
    · rw [hkeep i (by omega)]
      have hcases : i = NDIRECT + 1 ∨ i = NDIRECT + 2 := by
        simp only [NADDRS, NDIRECT] at hi hlt ⊢
        omega
      rcases hcases with rfl | rfl
      · exact h₁
      · exact h₂
  · rw [hinode]
    show Function.update t.inode ip _ ip' = _
    rw [Function.update_of_ne hip', ht.others ip' hip']
  · -- the index blocks of other inodes
    have haddrs : (u.inode k.ip).addrs = (s.inode k.ip).addrs := by
      rw [hinode]
      show (Function.update t.inode ip _ k.ip).addrs = _
      rw [Function.update_of_ne hkip, ht.others k.ip hkip]
    refine State.blockOf_inode haddrs (fun m hm _ h0 _ => ?_) k hk rfl
    have hdata := (hr.forest.place m hm h0).1
    have hiblock := hg.inodes ip hip
    rw [hblock _ (by omega)]
    exact ht.block_tree hg hr hfree hm h0

/-! ## Double and triple indirect blocks -/

/-- Every index block of the inode has an entry. -/
def Built (s : State) (ip : ℕ) : Prop := ∀ i js, Node.Valid ⟨ip, i, js⟩ → ¬ Node.Leaf ⟨ip, i, js⟩ →
  s.blockOf ⟨ip, i, js⟩ ≠ 0 → ∃ j, j < NINDIRECT ∧ s.blockOf ⟨ip, i, j :: js⟩ ≠ 0

/-- Something happens to be true whatever goes wrong. -/
def Any (_ : Fault) (_ : State) : Prop := True

theorem bread_any {P Q : State → Prop} (h : ∀ s, P s → Q { s with held := insert b s.held }) :
    Triple P (bread b) (fun _ => Q) Any := by
  refine Triple.bind (R := fun a t => a = t ∧ P t) (Triple.get fun t h => ⟨rfl, h⟩) fun a => ?_
  refine Triple.bind (R := fun _ t => P t) (Triple.assert (fun _ _ h => h.2) fun _ _ _ => trivial) fun _ => ?_
  exact Triple.modify h

/-- A buffer is not locked after its release. -/
theorem brelse_any {P : State → Prop} : Triple P (brelse b) (fun _ t => b ∉ t.held) Any := by
  refine Triple.bind (R := fun _ _ => True) (Triple.get fun _ _ => trivial) fun a => ?_
  refine Triple.bind (R := fun _ _ => True) (Triple.assert (fun _ _ _ => trivial) fun _ _ _ => trivial) fun _ => ?_
  exact Triple.modify fun t _ => Finset.notMem_erase b t.held

theorem brelse_lost {P : State → Prop} {Q : Unit → State → Prop} : Triple (fun t => b ∉ t.held ∧ P t) (brelse b) Q Any :=
  Triple.of_state fun _ h => brelse_panics h.1 trivial

theorem index_any {P : State → Prop} {j : ℕ} : Triple P (index b j) (fun _ => P) Any :=
  Triple.of_state fun s hs => (index_spec b j).post fun _ t h => by rw [h.2]; exact hs

/-- `bfree` locks no buffer. -/
theorem bfree_lost : Triple (fun t => a ∉ t.held) (bfree sb b) (fun _ t => a ∉ t.held) Any := by
  refine Triple.bind (bread_any (Q := fun t => a ∉ t.held.erase (sb.bblock b)) fun t h => ?_) fun _ => ?_
  · intro hmem
    obtain ⟨hne, hmem⟩ := Finset.mem_erase.1 hmem
    rcases Finset.mem_insert.1 hmem with heq | hmem
    · exact hne heq
    · exact h hmem
  refine Triple.bind (R := fun _ t => a ∉ t.held.erase (sb.bblock b)) (Triple.get fun _ h => h) fun x => ?_
  refine Triple.bind (R := fun _ t => a ∉ t.held.erase (sb.bblock b)) (Triple.assert (fun _ _ h => h) fun _ _ _ =>
    trivial) fun _ => ?_
  refine Triple.bind (R := fun _ t => a ∉ t.held.erase (sb.bblock b)) (Triple.modify fun _ h => h) fun _ => ?_
  refine Triple.bind (R := fun _ t => a ∉ t.held.erase (sb.bblock b)) (Triple.of_state fun t ht =>
    (log_write_spec (sb.bblock b) fun _ => trivial).post fun _ u hu => by rw [hu.2]; exact ht) fun _ => ?_
  exact Triple.of_state fun t ht => Triple.bind (R := fun x u => x = t ∧ u = t) (Triple.get fun u h => ⟨h, h⟩) fun x =>
    Triple.of_fact fun _ => Triple.bind (R := fun _ u => u = t) (Triple.assert (fun _ _ h => h) fun _ _ _ => trivial)
      fun _ => Triple.modify fun u h => by rw [h]; exact ht

/-- A round of the loop ends with the buffer of the inner block, released. -/
theorem doubleRound_lost {P : State → Prop} {i addr : ℕ} {is : List ℕ}
    (ih : ∀ bp a, Triple (fun t => bp ∉ t.held) (doubleLoop sb is (bp, a)) (fun v t => v.1 ∉ t.held) Any) :
    Triple P (do
      bread addr
      freeEntries sb addr (List.range NINDIRECT)
      brelse addr
      let addr' ← index addr i
      bfree sb addr'
      doubleLoop sb is (addr, addr)) (fun v t => v.1 ∉ t.held) Any := by
  refine Triple.bind (bread_any (Q := fun _ => True) fun _ _ => trivial) fun _ => ?_
  refine Triple.bind (R := fun _ _ => True) (fun s _ => ?_) fun _ => ?_
  · match freeEntries sb addr (List.range NINDIRECT) s with
    | (.ok _, _) => trivial
    | (.error _, _) => trivial
  refine Triple.bind brelse_any fun _ => ?_
  refine Triple.bind index_any fun addr' => ?_
  exact Triple.bind bfree_lost fun _ => ih addr addr

/-- Once a buffer was released, the loop ends with one that is. -/
theorem doubleLoop_lost {is : List ℕ} : ∀ bp a : ℕ,
    Triple (fun t => bp ∉ t.held) (doubleLoop sb is (bp, a)) (fun v t => v.1 ∉ t.held) Any := by
  induction is with
  | nil =>
    intro bp a
    rw [doubleLoop]
    exact Triple.pure fun _ h => h
  | cons i is ih =>
    intro bp a
    rw [doubleLoop]
    refine Triple.bind index_any fun addr => ?_
    exact Triple.ite (fun _ => ih bp a) fun _ => doubleRound_lost ih

/-- **The buffer of a double indirect block with an entry is lost.** -/
theorem doubleLoop_deep {is : List ℕ} (h : ∃ i ∈ is, word (s.block a) i ≠ 0) (bp : ℕ) :
    Triple (fun t => t = s) (doubleLoop sb is (bp, a)) (fun v t => v.1 ∉ t.held) Any := by
  induction is with
  | nil =>
    obtain ⟨i, hi, -⟩ := h
    simp at hi
  | cons i is ih =>
    rw [doubleLoop]
    refine Triple.bind (index_spec a i) fun addr => Triple.of_fact fun haddr => ?_
    refine Triple.ite (fun h0 => ih ?_) fun _ => doubleRound_lost doubleLoop_lost
    obtain ⟨k, hk, hword⟩ := h
    rcases List.mem_cons.1 hk with rfl | hk
    · rw [← haddr] at hword
      exact absurd h0 hword
    · exact ⟨k, hk, hword⟩

/-- **A triple indirect block with a double indirect block that has an entry**: its loop does not end. -/
theorem tripleLoop_deep {is : List ℕ} (h : ∃ i ∈ is, word (s.block a) i ≠ 0)
    (hentry : ∀ i ∈ is, word (s.block a) i ≠ 0 →
      ∃ j ∈ List.range NINDIRECT, word (s.block (word (s.block a) i)) j ≠ 0) (bp : ℕ) :
    Triple (fun t => t = s) (tripleLoop sb is (bp, a)) (fun _ _ => False) Any := by
  induction is with
  | nil =>
    obtain ⟨i, hi, -⟩ := h
    simp at hi
  | cons i is ih =>
    rw [tripleLoop]
    refine Triple.bind (index_spec a i) fun addr => Triple.of_fact fun haddr => ?_
    refine Triple.ite (fun h0 => ih ?_ fun k hk => hentry k (List.mem_cons_of_mem i hk)) fun h0 => ?_
    · obtain ⟨k, hk, hword⟩ := h
      rcases List.mem_cons.1 hk with rfl | hk
      · rw [← haddr] at hword
        exact absurd h0 hword
      · exact ⟨k, hk, hword⟩
    · have hin := hentry i List.mem_cons_self (by rwa [← haddr])
      rw [← haddr] at hin
      refine Triple.bind (bread_any (Q := fun t => t = { s with held := insert addr s.held }) fun t h => by rw [h])
        fun _ => ?_
      refine Triple.bind (doubleLoop_deep (s := { s with held := insert addr s.held }) hin addr) fun v => ?_
      refine Triple.bind (R := fun _ _ => False) ?_ fun _ _ h => h.elim
      exact brelse_lost.pre fun t h => ⟨h, trivial⟩

theorem Built.entry (h : Built s ip) {js : List ℕ} (hv : Node.Valid ⟨ip, i, js⟩) (hl : ¬ Node.Leaf ⟨ip, i, js⟩)
    (h0 : s.blockOf ⟨ip, i, js⟩ ≠ 0) : ∃ j ∈ List.range NINDIRECT, word (s.block (s.blockOf ⟨ip, i, js⟩)) j ≠ 0 := by
  obtain ⟨j, hj, hblock⟩ := h i js hv hl h0
  rw [State.blockOf_cons, if_neg h0] at hblock
  exact ⟨j, List.mem_range.2 hj, hblock⟩

/-- **With a double or triple indirect block** `itrunc` panics. -/
theorem itrunc_deep (hg : Geometry sb data) (hr : Rest sb data s) (hbuilt : Built s ip)
    (h : (s.inode ip).addrs (NDIRECT + 1) ≠ 0 ∨ (s.inode ip).addrs (NDIRECT + 2) ≠ 0) :
    Triple (fun t => t = s) (itrunc sb ip) (fun _ _ => False) Any := by
  have hfree : Freeable sb (s.toLog sb ip) s (s.shallow ip) := shallow_freeable hr
  refine shallow_spec hg hr (fun _ _ => trivial) hfree fun t ht => ?_
  have hkeep : ∀ i, NDIRECT < i → (t.inode ip).addrs i = (s.inode ip).addrs i := by
    intro i hi
    rw [ht.addrs, if_neg]
    rw [List.mem_range]
    omega
  have hblock : ∀ k : Node, k.Valid → s.blockOf k ≠ 0 → t.block (s.blockOf k) = s.block (s.blockOf k) :=
    fun k hk h0 => ht.block_tree hg hr hfree hk h0
  by_cases h₁ : (s.inode ip).addrs (NDIRECT + 1) = 0
  · -- nothing to do for the double indirect block
    have h₂ := h.resolve_left (not_not_intro h₁)
    have hv : Node.Valid ⟨ip, NDIRECT + 2, []⟩ := ⟨by norm_num, Nat.zero_le _, by simp⟩
    refine Triple.bind (R := fun _ u => u = t) ?_ fun _ => ?_
    · refine Triple.bind (R := fun a u => a = t ∧ u = t) (Triple.get fun t h => ⟨h, h⟩) fun a => ?_
      refine Triple.of_fact fun ha => ?_
      subst ha
      refine Triple.ite (fun h => absurd ?_ h) fun _ => Triple.pure fun _ h => h
      rw [hkeep _ (by omega), h₁]
    refine Triple.bind (R := fun _ _ => False) ?_ fun _ _ h => h.elim
    refine Triple.bind (R := fun a u => a = t ∧ u = t) (Triple.get fun t h => ⟨h, h⟩) fun a => ?_
    refine Triple.of_fact fun ha => ?_
    subst ha
    have haddr := hkeep (NDIRECT + 2) (by omega)
    rw [haddr]
    refine Triple.ite (fun _ => ?_) fun h => absurd h₂ h
    set bp := (s.inode ip).addrs (NDIRECT + 2)
    have hroot : a.block bp = s.block bp := hblock _ hv h₂
    refine Triple.bind (bread_any (Q := fun t => t = { a with held := insert bp a.held }) fun t h => by rw [h])
      fun _ => ?_
    refine Triple.bind (tripleLoop_deep (s := { a with held := insert bp a.held }) ?_ (fun i hi hword => ?_) bp)
      fun _ _ h => h.elim
    · show ∃ i ∈ _, word (a.block bp) i ≠ 0
      rw [hroot]
      exact hbuilt.entry hv (show ¬ (0 : ℕ) = 3 by decide) h₂
    · have hword' : word (s.block bp) i ≠ 0 := by rwa [← hroot]
      have hplace : s.blockOf ⟨ip, NDIRECT + 2, [i]⟩ = word (s.block bp) i := if_neg h₂
      have hi' : i < NINDIRECT := List.mem_range.1 hi
      have hv' : Node.Valid ⟨ip, NDIRECT + 2, [i]⟩ := ⟨by norm_num, show 1 ≤ 3 by decide, by simpa using hi'⟩
      show ∃ j ∈ _, word (a.block (word (a.block bp) i)) j ≠ 0
      rw [hroot, ← hplace, hblock _ hv' (by rwa [hplace])]
      exact hbuilt.entry hv' (show ¬ (1 : ℕ) = 3 by decide) (by rwa [hplace])
  · have hv : Node.Valid ⟨ip, NDIRECT + 1, []⟩ := ⟨by norm_num, Nat.zero_le _, by simp⟩
    refine Triple.bind (R := fun _ _ => False) ?_ fun _ _ h => h.elim
    refine Triple.bind (R := fun a u => a = t ∧ u = t) (Triple.get fun t h => ⟨h, h⟩) fun a => ?_
    refine Triple.of_fact fun ha => ?_
    subst ha
    have haddr := hkeep (NDIRECT + 1) (by omega)
    rw [haddr]
    refine Triple.ite (fun _ => ?_) fun h => absurd h₁ h
    set bp := (s.inode ip).addrs (NDIRECT + 1)
    have hroot : a.block bp = s.block bp := hblock _ hv h₁
    refine Triple.bind (bread_any (Q := fun t => t = { a with held := insert bp a.held }) fun t h => by rw [h])
      fun _ => ?_
    refine Triple.bind (doubleLoop_deep (s := { a with held := insert bp a.held }) ?_ bp) fun v => ?_
    · show ∃ i ∈ _, word (a.block bp) i ≠ 0
      rw [hroot]
      exact hbuilt.entry hv (show ¬ (0 : ℕ) = 2 by decide) h₁
    · refine Triple.bind (R := fun _ _ => False) ?_ fun _ _ h => h.elim
      exact brelse_lost.pre fun t h => ⟨h, trivial⟩

/-! ## Trees as `bmap` builds them -/

theorem blockOf_suffix {js js' : List ℕ} (h : js <:+ js') (h0 : s.blockOf ⟨ip, i, js'⟩ ≠ 0) :
    s.blockOf ⟨ip, i, js⟩ ≠ 0 := by
  induction js' with
  | nil =>
    rw [List.suffix_nil.1 h]
    exact h0
  | cons j js' ih =>
    rcases List.suffix_cons_iff.1 h with rfl | h
    · exact h0
    · exact ih h (State.blockOf_up h0)

/-- A step leaves no index block without an entry. -/
theorem step_built (hg : Geometry sb data) (hr : Rest sb data s) {e : Event} (hb : Built s ip)
    (h : (machine sb).step s e = some (.ok t)) : Built t ip := by
  obtain ⟨hrt, hgrown⟩ := step_forest hg hr h
  intro i js hv hl h0
  by_cases hs : s.blockOf ⟨ip, i, js⟩ = 0
  · -- a new index block lies on the way to the block that was asked for
    have hfill : e.fills ⟨ip, i, js⟩ := by
      by_contra hno
      rw [hgrown.only _ hv hno] at h0
      exact h0 hs
    cases e with
    | balloc => exact hfill.elim
    | commit => exact hfill.elim
    | bmap ip' bn =>
      obtain ⟨r, hbm⟩ := outcome_ok (Option.some.inj h)
      have hm := bmap_ok hg hr hbm
      have hvd : (Node.ofBlock ip' bn).Valid := ofBlock_valid (bmap_range hbm)
      have hleaf := ofBlock_leaf ip' bn
      have hd : t.blockOf (Node.ofBlock ip' bn) ≠ 0 := by
        rw [hm.here]
        exact hm.ne
      obtain ⟨hip, hi, hsuffix⟩ := hfill
      revert hvd hleaf hd hip hi hsuffix
      generalize Node.ofBlock ip' bn = d
      rcases d with ⟨ip'', i', js'⟩
      intro hvd hleaf hd hip hi hsuffix
      dsimp only at hip hi hsuffix
      subst hip
      subst hi
      obtain ⟨pre, rfl⟩ := hsuffix
      rcases List.eq_nil_or_concat pre with rfl | ⟨pre', j, rfl⟩
      · exact absurd hleaf hl
      · rw [List.concat_eq_append] at hd hvd
        have hsuf : j :: js <:+ pre' ++ [j] ++ js := ⟨pre', by simp⟩
        exact ⟨j, hvd.index j (by simp), blockOf_suffix hsuf hd⟩
  · obtain ⟨j, hj, hj0⟩ := hb i js hv hl hs
    have hdepth := hv.depth
    have hv' : Node.Valid ⟨ip, i, j :: js⟩ := by
      refine ⟨hv.addr, ?_, fun k hk => ?_⟩
      · have hne : js.length ≠ level i := hl
        show js.length + 1 ≤ level i
        have hle : js.length ≤ level i := hdepth
        omega
      · rcases List.mem_cons.1 hk with rfl | hk
        · exact hj
        · exact hv.index k hk
    refine ⟨j, hj, ?_⟩
    rw [hgrown.keep _ hv' hj0]
    exact hj0

/-- **What `bmap` builds** from nothing, with anything else going on. -/
theorem run_built (hg : Geometry sb data) (hr : Rest sb data s) (hzero : ∀ i, (s.inode ip).addrs i = 0)
    {es : List Event} (h : (machine sb).run s es = some (.ok t)) : Rest sb data t ∧ Built t ip := by
  refine Machine.run_inv (M := machine sb) (I := fun t => Rest sb data t ∧ Built t ip) ⟨hr, ?_⟩ ?_ h
  · intro i js _ _ h0
    exact absurd (State.blockOf_zero hzero i js) h0
  · rintro s₁ e s₂ ⟨hr₁, hb₁⟩ hstep
    exact ⟨(step_forest hg hr₁ hstep).1, step_built hg hr₁ hb₁ hstep⟩

/-! ## The result -/

/-- **`itrunc` frees the blocks of an inode** as `bmap` builds it if and only if it has no double and no
triple indirect block, and the log has room for the blocks of the bitmap; otherwise it panics. -/
theorem itrunc_exact (hg : Geometry sb data) (hr : Rest sb data s) (hbuilt : Built s ip) (hip : ip < sb.ninodes) :
    (∃ t, itrunc sb ip s = (.ok (), t) ∧ Freed sb s ip t) ↔
      (s.inode ip).addrs (NDIRECT + 1) = 0 ∧ (s.inode ip).addrs (NDIRECT + 2) = 0 ∧
        (s.toLog sb ip).card < sb.logsize := by
  constructor
  · rintro ⟨t, ht, -⟩
    have hshallow : (s.inode ip).addrs (NDIRECT + 1) = 0 ∧ (s.inode ip).addrs (NDIRECT + 2) = 0 := by
      by_contra hdeep
      exact (itrunc_deep hg hr hbuilt (by tauto)).ok rfl ht
    exact ⟨hshallow.1, hshallow.2, ((itrunc_shallow hg hr hip hshallow.1 hshallow.2).ok rfl ht).2⟩
  · rintro ⟨h₁, h₂, hroom⟩
    have h := itrunc_shallow hg hr hip h₁ h₂ s rfl
    revert h
    match itrunc sb ip s with
    | (.ok _, t) => exact fun h => ⟨t, rfl, h.1⟩
    | (.error _, _) => exact fun h => absurd hroom h

/-! ## Two files -/

/-- The file has a block below its single indirect block. -/
theorem itrunc_exact_small : ∃ s t, bmap small 1 20 fresh = (.ok 6, s) ∧ itrunc small 1 s = (.ok (), t) ∧
    Freed small s 1 t := by
  have hrun : (machine small).run fresh [.bmap 1 20] = some (.ok (bmap small 1 20 fresh).2) := by
    have hb : bmap small 1 20 fresh = (.ok 6, (bmap small 1 20 fresh).2) := Prod.ext (by decide +kernel) rfl
    have hstep : (machine small).step fresh (.bmap 1 20) = some (.ok (bmap small 1 20 fresh).2) := by
      show some (outcome (bmap small 1 20 fresh)) = _
      rw [hb]
      rfl
    exact Machine.run_cons hstep []
  obtain ⟨hr, hbuilt⟩ : Rest small 4 _ ∧ Built _ 1 := run_built small_geometry fresh_rest (fun _ => rfl) hrun
  obtain ⟨t, ht⟩ := (itrunc_exact small_geometry hr hbuilt (by decide)).2
    ⟨by decide +kernel, by decide +kernel, by decide +kernel⟩
  exact ⟨_, t, Prod.ext (by decide +kernel) rfl, ht⟩

/-- The file has block 140, below its double indirect block: `itrunc` frees block 0, and then panics
because it is free. -/
theorem itrunc_frees_boot : ∃ s, (machine small).run fresh [.bmap 1 140] = some (.ok s) ∧ Rest small 4 s ∧ Built s 1 ∧
    (itrunc small 1 s).1 = .error .freeingFree ∧ s.used small 0 = true ∧ (itrunc small 1 s).2.used small 0 = false ∧
    ¬ ∃ t, itrunc small 1 s = (.ok (), t) ∧ Freed small s 1 t := by
  have hrun : (machine small).run fresh [.bmap 1 140] = some (.ok (bmap small 1 140 fresh).2) := by
    have hb : bmap small 1 140 fresh = (.ok 7, (bmap small 1 140 fresh).2) := Prod.ext (by decide +kernel) rfl
    have hstep : (machine small).step fresh (.bmap 1 140) = some (.ok (bmap small 1 140 fresh).2) := by
      show some (outcome (bmap small 1 140 fresh)) = _
      rw [hb]
      rfl
    exact Machine.run_cons hstep []
  obtain ⟨hr, hbuilt⟩ : Rest small 4 _ ∧ Built _ 1 := run_built small_geometry fresh_rest (fun _ => rfl) hrun
  have herror : (itrunc small 1 (bmap small 1 140 fresh).2).1 = .error .freeingFree := by decide +kernel
  refine ⟨_, hrun, hr, hbuilt, herror, by decide +kernel, by decide +kernel, ?_⟩
  rintro ⟨t, ht, -⟩
  rw [ht] at herror
  cases herror

end

end Xv6.Block
