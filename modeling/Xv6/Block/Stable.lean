import Xv6.Block.Bmap
import Xv6.Lib.Machine

/-!
# The block map over runs

Calls of `bmap` for any inodes, allocations for anything else, and commits of the log, in any
order.

* `step_forest`: a step keeps the trees apart and moves no block.
* **`bmap_stable`**: `bmap` returns the same block for the same index, different blocks for different
  indices, and a block that was free when it was first returned.
-/

namespace Xv6.Block

open Prog

inductive Event
  | bmap (ip bn : ℕ)
  | balloc
  /-- the log is written and empty again -/
  | commit
  deriving DecidableEq

/-- The state after a function, or its fault. -/
def outcome {α : Type} (r : Except Fault α × State) : Except Fault State :=
  match r with
  | (.ok _, t) => .ok t
  | (.error e, _) => .error e

def step (sb : Super) (s : State) : Event → Option (Except Fault State)
  | .bmap ip bn => some (outcome (bmap sb ip bn s))
  | .balloc => some (outcome (balloc sb s))
  | .commit => some (.ok { s with logged := ∅ })

def machine (sb : Super) : Machine State Event Fault := ⟨step sb⟩

section

variable {sb : Super} {data : ℕ} {s t u : State} {A B : Node → Prop} {n ip bn r : ℕ} {e : Event}

theorem outcome_ok {α : Type} {x : Except Fault α × State} (h : outcome x = .ok t) : ∃ a, x = (.ok a, t) := by
  match x, h with
  | (.ok a, _), h =>
    cases h
    exact ⟨a, rfl⟩

/-- Between calls. -/
structure Rest (sb : Super) (data : ℕ) (s : State) : Prop where
  forest : Forest sb data s
  held : s.held = ∅

theorem Rest.calm (h : Rest sb data s) : Calm sb data s := by
  intro b hb
  rw [h.held] at hb
  simp at hb

/-- An allocation for something else leaves the trees alone. -/
theorem Allocated.grown (h : Allocated sb s n t) (hg : Geometry sb data) (hr : Rest sb data s) :
    Rest sb data t ∧ Grown sb data (fun _ => False) s t := by
  have hp := hr.forest
  have hblock : ∀ k : Node, k.Valid → t.blockOf k = s.blockOf k :=
    State.blockOf_congr (fun ip => by rw [h.inode]) fun k hk h0 _ => h.block_tree hg hp hk h0
  have hmono : ∀ b, b < sb.size → s.used sb b = true → t.used sb b = true := by
    intro b hb hused
    rw [h.used b hb, hused, Bool.true_or]
  refine ⟨⟨hp.congr hblock hmono, by rw [h.held, hr.held]⟩, ⟨fun k hk _ => hblock k hk, fun k hk _ => hblock k hk,
    fun k hk h0 ht => ?_, hmono, fun k hk _ h0 => h.block_tree hg hp hk h0, h.held, fun ip => by rw [h.inode]⟩⟩
  rw [hblock k hk] at ht
  exact absurd h0 ht

/-- Which places a step may fill. -/
def Event.fills : Event → Node → Prop
  | .bmap ip bn => (Node.ofBlock ip bn).Above
  | _ => fun _ => False

theorem bmap_range (h : bmap sb ip bn s = (.ok r, t)) : bn < NBLOCKS := by
  by_contra hn
  have h1 : ¬ bn < NDIRECT := by
    simp only [NBLOCKS, NDIRECT, NINDIRECT] at hn ⊢
    omega
  have h2 : ¬ bn - NDIRECT < NINDIRECT := by
    simp only [NBLOCKS, NDIRECT, NINDIRECT] at hn ⊢
    omega
  have h3 : ¬ bn - NDIRECT < NINDIRECT * NINDIRECT := by
    simp only [NBLOCKS, NDIRECT, NINDIRECT] at hn ⊢
    omega
  have h4 : ¬ bn - NDIRECT < NINDIRECT * NINDIRECT * NINDIRECT := by
    simp only [NBLOCKS, NDIRECT, NINDIRECT] at hn ⊢
    omega
  unfold bmap at h
  simp only [h1, h2, h3, h4, if_false] at h
  cases h

theorem bmap_ok (hg : Geometry sb data) (hr : Rest sb data s) (h : bmap sb ip bn s = (.ok r, t)) :
    Mapped sb data s (Node.ofBlock ip bn) (Node.ofBlock ip bn) r t :=
  (bmap_spec hg hr.forest hr.held (bmap_range h)).ok rfl h

/-- **One step** moves no block, and fills only places on the way to where it goes. -/
theorem step_forest (hg : Geometry sb data) (hr : Rest sb data s) (h : (machine sb).step s e = some (.ok t)) :
    Rest sb data t ∧ Grown sb data e.fills s t := by
  cases e with
  | bmap ip bn =>
    obtain ⟨r, hb⟩ := outcome_ok (Option.some.inj h)
    have hm := bmap_ok hg hr hb
    refine ⟨⟨hm.forest, ?_⟩, hm.grown⟩
    rw [hm.grown.held, hr.held]
  | balloc =>
    obtain ⟨n, hb⟩ := outcome_ok (Option.some.inj h)
    exact ((balloc_spec hg (hr.forest.ready hg hr.calm) Stops.full).ok rfl hb).grown hg hr
  | commit =>
    cases h
    refine ⟨⟨hr.forest.same rfl rfl, hr.held⟩, ?_⟩
    have hblock : ∀ k : Node, ({ s with logged := ∅ } : State).blockOf k = s.blockOf k := State.blockOf_same rfl rfl
    exact ⟨fun k _ _ => hblock k, fun k _ _ => hblock k, fun k _ h0 ht => absurd h0 (by rwa [hblock k] at ht),
      fun _ _ => id, fun _ _ _ _ => rfl, rfl, fun _ => rfl⟩

/-- A place for data is filled by the call for its block only. -/
theorem above_leaf {k d : Node} (h : d.Above k) (hk : k.Leaf) (hd : d.Leaf) : k = d := by
  obtain ⟨hip, hi, hsuffix⟩ := h
  have hlen : k.js.length = d.js.length := by
    rw [hk, hd, hi]
  have hjs := hsuffix.eq_of_length hlen
  cases k
  cases d
  simp only at hip hi hjs
  rw [hip, hi, hjs]

theorem State.blockOf_zero (h : ∀ i, (s.inode ip).addrs i = 0) (i : ℕ) (js : List ℕ) : s.blockOf ⟨ip, i, js⟩ = 0 := by
  induction js with
  | nil =>
    rw [State.blockOf_nil]
    exact h i
  | cons j js ih => rw [State.blockOf_cons, if_pos ih]

/-- An inode with no blocks has none at the place of any block. -/
theorem ofBlock_zero (h : ∀ i, (s.inode ip).addrs i = 0) (bn : ℕ) : s.blockOf (Node.ofBlock ip bn) = 0 := by
  have hblock := State.blockOf_zero h (Node.ofBlock ip bn).i (Node.ofBlock ip bn).js
  have hnode : (⟨(Node.ofBlock ip bn).ip, (Node.ofBlock ip bn).i, (Node.ofBlock ip bn).js⟩ : Node) =
    Node.ofBlock ip bn := rfl
  rw [ofBlock_ip] at hnode
  rwa [hnode] at hblock

/-- As long as `bmap` was not called for a block, its place is empty. -/
theorem run_empty (hg : Geometry sb data) (hr : Rest sb data s) (hzero : ∀ i, (s.inode ip).addrs i = 0)
    {es : List Event} (h : (machine sb).run s es = some (.ok t)) :
    Rest sb data t ∧ ∀ bn, bn < NBLOCKS → (∀ e ∈ es, e ≠ .bmap ip bn) → t.blockOf (Node.ofBlock ip bn) = 0 := by
  refine Machine.run_induct (P := fun es t => Rest sb data t ∧
    ∀ bn, bn < NBLOCKS → (∀ e ∈ es, e ≠ .bmap ip bn) → t.blockOf (Node.ofBlock ip bn) = 0) ?_ ?_ es t h
  · exact ⟨hr, fun bn _ _ => ofBlock_zero hzero bn⟩
  · rintro es s₁ e s₂ - ⟨hr₁, hempty⟩ hstep
    obtain ⟨hr₂, hgrown⟩ := step_forest hg hr₁ hstep
    refine ⟨hr₂, fun bn hbn hne => ?_⟩
    rw [hgrown.only _ (ofBlock_valid hbn), hempty bn hbn fun e he => hne e (by simp [he])]
    intro hfills
    cases e with
    | balloc => exact hfills
    | commit => exact hfills
    | bmap ip' bn' =>
      have hnode := above_leaf hfills (ofBlock_leaf ip bn) (ofBlock_leaf ip' bn')
      have hip : ip' = ip := by rw [← ofBlock_ip ip' bn', ← hnode, ofBlock_ip]
      have hbn' := ofBlock_inj hnode
      exact hne (.bmap ip' bn') (by simp) (by rw [hip, hbn'])

/-- What has a place keeps it. -/
theorem run_keep (hg : Geometry sb data) (hr : Rest sb data s) {es : List Event}
    (h : (machine sb).run s es = some (.ok t)) :
    Rest sb data t ∧ ∀ k : Node, k.Valid → s.blockOf k ≠ 0 → t.blockOf k = s.blockOf k := by
  refine Machine.run_inv (M := machine sb) (I := fun t => Rest sb data t ∧
    ∀ k : Node, k.Valid → s.blockOf k ≠ 0 → t.blockOf k = s.blockOf k) ⟨hr, fun _ _ _ => rfl⟩ ?_ h
  rintro s₁ e s₂ ⟨hr₁, hkeep⟩ hstep
  obtain ⟨hr₂, hgrown⟩ := step_forest hg hr₁ hstep
  refine ⟨hr₂, fun k hk h0 => ?_⟩
  have heq := hkeep k hk h0
  rw [hgrown.keep k hk (by rwa [heq]), heq]

/-- **`bmap` is a stable injection.** The inode `ip` starts with no blocks; `bmap` is called for any
blocks of any inodes, and blocks are allocated for anything else. Once `bmap` has returned `r` for
block `bn` of `ip`, it does so ever after, and changes nothing; for no other block does it return `r`,
and `r` is at no other place of this inode or another. The first time, `r` was free. -/
theorem bmap_stable (hg : Geometry sb data) {s₀ s' : State} (hr : Rest sb data s₀)
    (hzero : ∀ i, (s₀.inode ip).addrs i = 0) {es₁ es₂ : List Event} (h₁ : (machine sb).run s₀ es₁ = some (.ok s))
    (hb : bmap sb ip bn s = (.ok r, t)) (h₂ : (machine sb).run t es₂ = some (.ok s')) :
    bmap sb ip bn s' = (.ok r, s') ∧
    (∀ ip' bn' r' t', bmap sb ip' bn' s' = (.ok r', t') → (r' = r ↔ ip' = ip ∧ bn' = bn)) ∧
    (∀ k : Node, k.Valid → s'.blockOf k = r → k = Node.ofBlock ip bn) ∧
    (∀ n t', balloc sb s' = (.ok n, t') → n ≠ r) ∧
    ((∀ e ∈ es₁, e ≠ .bmap ip bn) → s.used sb r = false) := by
  have hbn := bmap_range hb
  obtain ⟨hrs, hempty⟩ := run_empty hg hr hzero h₁
  have hm := bmap_ok hg hrs hb
  have hrt : Rest sb data t := ⟨hm.forest, by rw [hm.grown.held, hrs.held]⟩
  obtain ⟨hrs', hkeep⟩ := run_keep hg hrt h₂
  have h0 : t.blockOf (Node.ofBlock ip bn) ≠ 0 := by
    rw [hm.here]
    exact hm.ne
  have hhere : s'.blockOf (Node.ofBlock ip bn) = r := by rw [hkeep _ (ofBlock_valid hbn) h0, hm.here]
  have h0' : s'.blockOf (Node.ofBlock ip bn) ≠ 0 := by
    rw [hhere]
    exact hm.ne
  have honly : ∀ k : Node, k.Valid → s'.blockOf k = r → k = Node.ofBlock ip bn := by
    intro k hk heq
    refine hrs'.forest.inj k _ hk (ofBlock_valid hbn) (by rw [heq, hhere]) ?_
    rw [heq]
    exact hm.ne
  have hold : bmap sb ip bn s' = (.ok r, s') := by
    rw [bmap_old hrs'.held hbn h0', hhere]
  refine ⟨hold, fun ip' bn' r' t' hb' => ⟨fun heq => ?_, ?_⟩, honly, fun n t' hn heq => ?_, fun hne => ?_⟩
  · -- the same block at the place of another call
    have hm' := bmap_ok hg hrs' hb'
    have hhere' : t'.blockOf (Node.ofBlock ip bn) = r := by
      rw [hm'.grown.keep _ (ofBlock_valid hbn) h0', hhere]
    have hnode := hm'.forest.inj _ _ (ofBlock_valid (bmap_range hb')) (ofBlock_valid hbn)
      (by rw [hm'.here, heq, hhere']) (by rw [hm'.here]; exact hm'.ne)
    have hip : ip' = ip := by rw [← ofBlock_ip ip' bn', hnode, ofBlock_ip]
    exact ⟨hip, ofBlock_inj hnode⟩
  · rintro ⟨rfl, rfl⟩
    rw [hold] at hb'
    cases hb'
    rfl
  · -- `r` is in use
    have halloc := (balloc_spec hg (hrs'.forest.ready hg hrs'.calm) Stops.full).ok rfl hn
    have hused := (hrs'.forest.place _ (ofBlock_valid hbn) h0').2.2
    rw [hhere, ← heq, halloc.free] at hused
    cases hused
  · -- the place was empty before
    have hfresh := hm.grown.fresh _ (ofBlock_valid hbn) (hempty bn hbn hne) h0
    rwa [hm.here] at hfresh

/-! ## A small disk -/

/-- Sixteen blocks, of which the first four are reserved, and one is in use. -/
def small : Super := { size := 16, ninodes := 8, inodestart := 1, bmapstart := 2, logsize := 30 }

/-- No file has a block yet. -/
def fresh : State where
  block := Function.update (fun _ _ => 0) 2 fun i => if i = 0 then 31 else 0
  held := ∅
  logged := ∅
  inode := fun _ => { type := 2, major := 0, minor := 0, nlink := 1, size := 0, addrs := fun _ => 0 }

theorem small_geometry : Geometry small 4 := by
  refine ⟨fun b hb => ?_, fun ip hip => ?_, fun ip b hip hb => ?_, by decide, by decide⟩
  all_goals simp only [small, Super.bblock, Super.iblock, BPB, BSIZE, IPB] at *
  all_goals omega

theorem fresh_rest : Rest small 4 fresh := by
  have h0 : ∀ k : Node, fresh.blockOf k = 0 := fun k => State.blockOf_zero (fun _ => rfl) k.i k.js
  refine ⟨⟨fun n m _ _ _ hn => absurd (h0 n) hn, fun n _ hn => absurd (h0 n) hn, fun b hb _ => ?_⟩, rfl⟩
  interval_cases b <;> decide

theorem bmap_stable_small :
    ∃ s', (machine small).run (bmap small 1 140 fresh).2 [.balloc, .commit, .bmap 1 0] = some (.ok s') ∧
      bmap small 1 140 s' = (.ok 7, s') ∧ fresh.used small 7 = false := by
  have hb : bmap small 1 140 fresh = (.ok 7, (bmap small 1 140 fresh).2) := by
    rw [Prod.ext_iff]
    exact ⟨by decide +kernel, rfl⟩
  obtain ⟨s', hrun, -⟩ : ∃ s', (machine small).run (bmap small 1 140 fresh).2 [.balloc, .commit, .bmap 1 0] =
      some (.ok s') ∧ s'.held = ∅ := Machine.run_of_reaches (by decide +kernel)
  have h := bmap_stable small_geometry fresh_rest (fun _ => rfl) (rfl : (machine small).run fresh [] = _) hb hrun
  exact ⟨s', hrun, h.1, h.2.2.2.2 (by simp)⟩

end

end Xv6.Block
