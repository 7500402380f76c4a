import Xv6.Block.Alloc

/-!
# The trees of blocks

A node is a place where an inode can have a block: one of its `addrs`, and from there at most three
indices. `s.blockOf n` is the block that is there, or 0.

* `Forest`: no block is at two places, and every block of a node is in use.
* `Grown A s t`: from `s` to `t` only nodes in `A` got blocks, and these were free.
* `Forest.fill`: a place gets a new block.
-/

namespace Xv6.Block

open Prog

/-- A place for a block: the indices are those of the last index block first. -/
structure Node where
  ip : ℕ
  i : ℕ
  js : List ℕ
  deriving DecidableEq

/-- How many index blocks lead from `addrs[i]` to data. -/
def level (i : ℕ) : ℕ := i - 9

structure Node.Valid (n : Node) : Prop where
  addr : n.i < NADDRS
  depth : n.js.length ≤ level n.i
  index : ∀ j ∈ n.js, j < NINDIRECT

/-- The node is a place for data. -/
def Node.Leaf (n : Node) : Prop := n.js.length = level n.i

def State.ptr (s : State) (ip i : ℕ) : List ℕ → ℕ
  | [] => (s.inode ip).addrs i
  | j :: js => if s.ptr ip i js = 0 then 0 else word (s.block (s.ptr ip i js)) j

def State.blockOf (s : State) (n : Node) : ℕ := s.ptr n.ip n.i n.js

/-- No block is at two places. -/
structure Forest (sb : Super) (data : ℕ) (s : State) : Prop where
  inj : ∀ n m : Node, n.Valid → m.Valid → s.blockOf n = s.blockOf m → s.blockOf n ≠ 0 → n = m
  place : ∀ n : Node, n.Valid → s.blockOf n ≠ 0 →
    data ≤ s.blockOf n ∧ s.blockOf n < sb.size ∧ s.used sb (s.blockOf n) = true
  reserved : ∀ b, b < data → b < sb.size → s.used sb b = true

/-- Nodes in `A` got blocks that were free; leaves keep their content. -/
structure Grown (sb : Super) (data : ℕ) (A : Node → Prop) (s t : State) : Prop where
  keep : ∀ n : Node, n.Valid → s.blockOf n ≠ 0 → t.blockOf n = s.blockOf n
  only : ∀ n : Node, n.Valid → ¬ A n → t.blockOf n = s.blockOf n
  fresh : ∀ n : Node, n.Valid → s.blockOf n = 0 → t.blockOf n ≠ 0 → s.used sb (t.blockOf n) = false
  mono : ∀ b, b < sb.size → s.used sb b = true → t.used sb b = true
  content : ∀ n : Node, n.Valid → n.Leaf → s.blockOf n ≠ 0 → t.block (s.blockOf n) = s.block (s.blockOf n)
  held : t.held = s.held
  other : ∀ ip, t.inode ip = { s.inode ip with addrs := (t.inode ip).addrs }

section

variable {sb : Super} {data : ℕ} {s t u : State} {A B : Node → Prop} {b n : ℕ} {m : Node} {ip i j : ℕ} {js : List ℕ}

theorem Node.Valid.up (h : Node.Valid ⟨ip, i, j :: js⟩) : Node.Valid ⟨ip, i, js⟩ := by
  have hdepth := h.depth
  simp only [List.length_cons] at hdepth
  refine ⟨h.addr, ?_, fun k hk => h.index k (List.mem_cons_of_mem j hk)⟩
  show js.length ≤ level i
  omega

theorem State.blockOf_nil (s : State) (ip i : ℕ) : s.blockOf ⟨ip, i, []⟩ = (s.inode ip).addrs i := rfl

theorem State.blockOf_cons (s : State) (ip i j : ℕ) (js : List ℕ) : s.blockOf ⟨ip, i, j :: js⟩ =
    if s.blockOf ⟨ip, i, js⟩ = 0 then 0 else word (s.block (s.blockOf ⟨ip, i, js⟩)) j := rfl

/-- A place under a place with no block has no block. -/
theorem State.blockOf_up (h : s.blockOf ⟨ip, i, j :: js⟩ ≠ 0) : s.blockOf ⟨ip, i, js⟩ ≠ 0 := by
  intro h0
  rw [State.blockOf_cons, if_pos h0] at h
  exact h rfl

/-- The index blocks of an inode, and only these, decide what is where. -/
theorem State.blockOf_inode (hinode : (t.inode ip).addrs = (s.inode ip).addrs) (hblock : ∀ m : Node, m.Valid →
    m.ip = ip → s.blockOf m ≠ 0 → ¬ m.Leaf → t.block (s.blockOf m) = s.block (s.blockOf m)) :
    ∀ m : Node, m.Valid → m.ip = ip → t.blockOf m = s.blockOf m := by
  rintro ⟨ip', i, js⟩ hv rfl
  dsimp only at hinode hblock
  induction js with
  | nil => rw [State.blockOf_nil, State.blockOf_nil, hinode]
  | cons j js ih =>
    rw [State.blockOf_cons, State.blockOf_cons, ih hv.up]
    by_cases h0 : s.blockOf ⟨ip', i, js⟩ = 0
    · rw [if_pos h0, if_pos h0]
    · have hdepth := hv.depth
      simp only [List.length_cons] at hdepth
      have hleaf : ¬ Node.Leaf ⟨ip', i, js⟩ := by
        show ¬ js.length = level i
        omega
      rw [if_neg h0, if_neg h0, hblock _ hv.up rfl h0 hleaf]

theorem State.blockOf_congr (hinode : ∀ ip, (t.inode ip).addrs = (s.inode ip).addrs)
    (hblock : ∀ m : Node, m.Valid → s.blockOf m ≠ 0 → ¬ m.Leaf → t.block (s.blockOf m) = s.block (s.blockOf m))
    (m : Node) (hm : m.Valid) : t.blockOf m = s.blockOf m :=
  State.blockOf_inode (hinode m.ip) (fun k hk _ => hblock k hk) m hm rfl

theorem Grown.refl (s : State) : Grown sb data A s s :=
  ⟨fun _ _ _ => rfl, fun _ _ _ => rfl, fun _ _ h0 h => absurd h0 h, fun _ _ => id, fun _ _ _ _ => rfl, rfl,
    fun _ => rfl⟩

theorem Grown.trans (hst : Grown sb data A s t) (htu : Grown sb data A t u) (hp : Forest sb data u) :
    Grown sb data A s u := by
  constructor
  · intro n hn h0
    have hkeep := hst.keep n hn h0
    rw [htu.keep n hn (by rwa [hkeep]), hkeep]
  · intro n hn ha
    rw [htu.only n hn ha, hst.only n hn ha]
  · intro n hn h0 hu
    by_cases ht : t.blockOf n = 0
    · have hfresh := htu.fresh n hn ht hu
      by_contra hused
      have hmono := hst.mono _ (hp.place n hn hu).2.1 (by simpa using hused)
      rw [hfresh] at hmono
      cases hmono
    · have hkeep := htu.keep n hn ht
      rw [hkeep]
      exact hst.fresh n hn h0 ht
  · exact fun b hb h => htu.mono b hb (hst.mono b hb h)
  · intro n hn hl h0
    have hkeep := hst.keep n hn h0
    have hcontent := htu.content n hn hl (by rwa [hkeep])
    rw [hkeep] at hcontent
    rw [hcontent, hst.content n hn hl h0]
  · rw [htu.held, hst.held]
  · intro ip
    rw [htu.other ip, hst.other ip]

/-- What decides whether the trees are apart. -/
theorem Forest.congr (hp : Forest sb data s) (hsame : ∀ m : Node, m.Valid → t.blockOf m = s.blockOf m)
    (hmono : ∀ b, b < sb.size → s.used sb b = true → t.used sb b = true) : Forest sb data t := by
  constructor
  · intro n m hn hm
    rw [hsame n hn, hsame m hm]
    exact hp.inj n m hn hm
  · intro n hn h0
    rw [hsame n hn] at h0 ⊢
    obtain ⟨hdata, hsize, hused⟩ := hp.place n hn h0
    exact ⟨hdata, hsize, hmono _ hsize hused⟩
  · intro b hb hbs
    exact hmono b hbs (hp.reserved b hb hbs)

/-! ## A new block -/

/-- The place `m` gets the block `n`, which is zero; nothing else changes in the trees. -/
structure Fill (s : State) (m : Node) (n : ℕ) (t : State) : Prop where
  valid : m.Valid
  empty : s.blockOf m = 0
  parent : ∀ ip i j js, m = ⟨ip, i, j :: js⟩ → s.blockOf ⟨ip, i, js⟩ ≠ 0
  addrs : ∀ ip i, (t.inode ip).addrs i = if (⟨ip, i, []⟩ : Node) = m then n else (s.inode ip).addrs i
  words : ∀ ip i j js, Node.Valid ⟨ip, i, j :: js⟩ → s.blockOf ⟨ip, i, js⟩ ≠ 0 →
    word (t.block (s.blockOf ⟨ip, i, js⟩)) j =
      if (⟨ip, i, j :: js⟩ : Node) = m then n else word (s.block (s.blockOf ⟨ip, i, js⟩)) j
  zero : t.block n = fun _ => 0

/-- **What is where** after a place was filled. -/
theorem Fill.blockOf (h : Fill s m n t) (hn : n ≠ 0) :
    ∀ k : Node, k.Valid → t.blockOf k = if k = m then n else s.blockOf k := by
  rintro ⟨ip, i, js⟩
  induction js with
  | nil =>
    intro _
    exact h.addrs ip i
  | cons j js ih =>
    intro hv
    rw [State.blockOf_cons, ih hv.up]
    by_cases hup : (⟨ip, i, js⟩ : Node) = m
    · -- a place under the new block, which is zero
      have hne : (⟨ip, i, j :: js⟩ : Node) ≠ m := by
        rw [← hup]
        intro heq
        simp at heq
      have h0 : s.blockOf ⟨ip, i, j :: js⟩ = 0 := by
        rw [State.blockOf_cons, hup, if_pos h.empty]
      rw [if_pos hup, if_neg hn, h.zero, word_zero, if_neg hne, h0]
    · rw [if_neg hup]
      by_cases h0 : s.blockOf ⟨ip, i, js⟩ = 0
      · have hne : (⟨ip, i, j :: js⟩ : Node) ≠ m := fun heq => h.parent ip i j js heq.symm h0
        rw [if_pos h0, if_neg hne, State.blockOf_cons, if_pos h0]
      · rw [if_neg h0, h.words ip i j js hv h0, State.blockOf_cons, if_neg h0]

/-- The trees are still apart when the new block was free. -/
theorem Fill.forest (h : Fill s m n t) (hp : Forest sb data s) (hdata : data ≤ n) (hlt : n < sb.size)
    (hboot : 0 < data) (hfree : s.used sb n = false) (hused : ∀ b, b < sb.size → t.used sb b = (s.used sb b || decide (n = b))) :
    Forest sb data t := by
  have hn : n ≠ 0 := by omega
  have hb := h.blockOf hn
  have hold : ∀ k : Node, k.Valid → s.blockOf k ≠ n := by
    intro k hk heq
    have hplace := hp.place k hk (by omega)
    rw [heq, hfree] at hplace
    exact absurd hplace.2.2 (by simp)
  constructor
  · intro k l hk hl heq h0
    rw [hb k hk, hb l hl] at heq
    rw [hb k hk] at h0
    by_cases hkm : k = m
    · by_cases hlm : l = m
      · rw [hkm, hlm]
      · rw [if_pos hkm, if_neg hlm] at heq
        exact absurd heq.symm (hold l hl)
    · rw [if_neg hkm] at heq h0
      by_cases hlm : l = m
      · rw [if_pos hlm] at heq
        exact absurd heq (hold k hk)
      · rw [if_neg hlm] at heq
        exact hp.inj k l hk hl heq h0
  · intro k hk h0
    rw [hb k hk] at h0 ⊢
    by_cases hkm : k = m
    · rw [if_pos hkm, hused n hlt]
      exact ⟨hdata, hlt, by simp⟩
    · rw [if_neg hkm] at h0 ⊢
      obtain ⟨h1, h2, h3⟩ := hp.place k hk h0
      refine ⟨h1, h2, ?_⟩
      rw [hused _ h2, h3, Bool.true_or]
  · intro b hbd hbs
    rw [hused b hbs, hp.reserved b hbd hbs, Bool.true_or]

end

end Xv6.Block
