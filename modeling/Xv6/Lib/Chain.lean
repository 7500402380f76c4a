import Mathlib

/-!
# Singly linked lists through a `next` field

`Chain next a l`: following `next` from `a` visits exactly `l` and then ends. Several
chains may share one `next` field; an update of `next` at a node leaves every chain
alone that the node is not on.

`IsQueue next front rear count l`: front, rear and count describe the chain `l`. The
rear of an empty queue means nothing.

* `Chain.nodup`: a chain that ends visits no node twice.
* `IsQueue.snoc`, `IsQueue.tail`, `IsQueue.dropLast`, `IsQueue.unlink`: the pointer
  updates that add a node at the end and take out the first, last or another node.
-/

namespace Xv6

variable {ι : Type*} {next next' : ι → Option ι} {a : Option ι} {l l₁ l₂ : List ι} {x y : ι}

/-- Following `next` from `a` visits `l` and ends. -/
def Chain (next : ι → Option ι) : Option ι → List ι → Prop
  | a, [] => a = none
  | a, x :: l => a = some x ∧ Chain next (next x) l

theorem Chain.congr (h : Chain next a l) (hl : ∀ x ∈ l, next' x = next x) : Chain next' a l := by
  induction l generalizing a with
  | nil => exact h
  | cons x l ih =>
    obtain ⟨rfl, h⟩ := h
    refine ⟨rfl, ?_⟩
    rw [hl x (by simp)]
    exact ih h fun y hy => hl y (by simp [hy])

theorem Chain.head (h : Chain next a l) : a = l.head? := by
  cases l with
  | nil => exact h
  | cons x l => exact h.1

/-- The nodes after `x`. -/
theorem Chain.suffix (h : Chain next a (l₁ ++ x :: l₂)) : Chain next (next x) l₂ := by
  induction l₁ generalizing a with
  | nil => exact h.2
  | cons y l ih => exact ih h.2

/-- Following `next` from `a` visits `x`, whether it ends or not. -/
def Reaches (next : ι → Option ι) (a : Option ι) (x : ι) : Prop :=
  ∃ m : ℕ, (fun b => b.bind next)^[m] a = some x

theorem not_reaches_none : ¬ Reaches next none x := by
  rintro ⟨m, hm⟩
  induction m with
  | zero => cases hm
  | succ m ih => exact ih hm

theorem reaches_some : Reaches next (some y) x ↔ x = y ∨ Reaches next (next y) x := by
  constructor
  · rintro ⟨m, hm⟩
    cases m with
    | zero => cases hm; exact .inl rfl
    | succ m => exact .inr ⟨m, hm⟩
  · rintro (rfl | ⟨m, hm⟩)
    · exact ⟨0, rfl⟩
    · exact ⟨m + 1, hm⟩

/-- The nodes that a chain visits are those of its list. -/
theorem Chain.reaches_iff (h : Chain next a l) : Reaches next a x ↔ x ∈ l := by
  induction l generalizing a with
  | nil =>
    rw [show a = none from h]
    simp [not_reaches_none]
  | cons y l ih =>
    obtain ⟨rfl, h⟩ := h
    rw [reaches_some, ih h, List.mem_cons]

theorem Chain.unique (h : Chain next a l₁) (h' : Chain next a l₂) : l₁ = l₂ := by
  induction l₁ generalizing a l₂ with
  | nil =>
    cases l₂ with
    | nil => rfl
    | cons x l => rw [show a = none from h] at h'; exact absurd h'.1 (by simp)
  | cons x l ih =>
    obtain ⟨rfl, h⟩ := h
    cases l₂ with
    | nil => exact absurd h' (by simp [Chain])
    | cons y l' =>
      obtain ⟨hy, h'⟩ := h'
      cases hy
      rw [ih h h']

/-- **A chain that ends has no repetition**: from a repeated node the rest would be
two lists of different lengths. -/
theorem Chain.nodup (h : Chain next a l) : l.Nodup := by
  induction l generalizing a with
  | nil => exact List.nodup_nil
  | cons x l ih =>
    refine List.nodup_cons.2 ⟨fun hx => ?_, ih h.2⟩
    obtain ⟨l₁, l₂, rfl⟩ := List.append_of_mem hx
    have heq := h.2.unique h.2.suffix
    have := congrArg List.length heq
    simp at this
    omega

/-- The successor of a node is another node. -/
theorem Chain.next_mem (h : Chain next a l) (hx : x ∈ l) (hy : next x = some y) : y ∈ l ∧ y ≠ x := by
  have hnd := h.nodup
  obtain ⟨l₁, l₂, rfl⟩ := List.append_of_mem hx
  have hs := h.suffix
  rw [hy] at hs
  cases l₂ with
  | nil => cases hs
  | cons z l₂ =>
    cases hs.1
    refine ⟨by simp, ?_⟩
    rintro rfl
    simp [List.nodup_append] at hnd

section Update

variable [DecidableEq ι]

theorem Chain.update (h : Chain next a l) (hx : x ∉ l) (v : Option ι) :
    Chain (Function.update next x v) a l :=
  h.congr fun y hy => Function.update_of_ne (by rintro rfl; exact hx hy) _ _

/-- The last node gets a successor. -/
theorem Chain.snoc (h : Chain next a (l ++ [y])) (hx : x ∉ l ++ [y]) :
    Chain (Function.update (Function.update next y (some x)) x none) a (l ++ [y, x]) := by
  induction l generalizing a with
  | nil =>
    have hxy : y ≠ x := by rintro rfl; simp at hx
    refine ⟨h.1, ?_, ?_⟩
    · rw [Function.update_of_ne hxy, Function.update_self]
    · simp [Chain]
  | cons z l ih =>
    have hz : z ≠ x := by rintro rfl; simp at hx
    have hzy : z ≠ y := by
      have := h.nodup
      rintro rfl
      simp at this
    refine ⟨h.1, ?_⟩
    rw [Function.update_of_ne hz, Function.update_of_ne hzy]
    exact ih h.2 (by simpa using (List.not_mem_of_not_mem_cons hx))

/-- A node is unlinked from its predecessor. -/
theorem Chain.unlink (h : Chain next a (l₁ ++ y :: x :: l₂)) :
    Chain (Function.update next y (next x)) a (l₁ ++ y :: l₂) := by
  have hnd := h.nodup
  induction l₁ generalizing a with
  | nil =>
    refine ⟨h.1, ?_⟩
    rw [Function.update_self]
    refine h.2.2.update ?_ _
    simp at hnd
    tauto
  | cons z l ih =>
    have hzy : z ≠ y := by rintro rfl; simp at hnd
    refine ⟨h.1, ?_⟩
    rw [Function.update_of_ne hzy]
    exact ih h.2 (List.nodup_cons.1 hnd).2

end Update

/-- The queue `front .. rear` of `count` nodes is the chain `l`. -/
structure IsQueue (next : ι → Option ι) (front rear : Option ι) (count : ℕ) (l : List ι) : Prop where
  chain : Chain next front l
  count : count = l.length
  rear : l ≠ [] → rear = l.getLast?

namespace IsQueue

variable {front rear : Option ι} {count : ℕ}

theorem congr (h : IsQueue next front rear count l) (hl : ∀ x ∈ l, next' x = next x) :
    IsQueue next' front rear count l := ⟨h.chain.congr hl, h.count, h.rear⟩

theorem nodup (h : IsQueue next front rear count l) : l.Nodup := h.chain.nodup

theorem eq_nil (h : IsQueue next front rear count l) (h0 : count = 0) : l = [] :=
  List.length_eq_zero_iff.1 (h.count ▸ h0)

theorem unique {l' : List ι} (h : IsQueue next front rear count l)
    (h' : IsQueue next front rear count l') : l = l' := h.chain.unique h'.chain

theorem empty : IsQueue next none rear 0 [] := ⟨rfl, rfl, fun h => absurd rfl h⟩

theorem single (hx : next x = none) : IsQueue next (some x) (some x) 1 [x] :=
  ⟨⟨rfl, hx⟩, rfl, fun _ => rfl⟩

/-- Without its first node. -/
theorem tail (h : IsQueue next front rear count (x :: l)) :
    IsQueue next (next x) rear (count - 1) l where
  chain := h.chain.2
  count := by have := h.count; simp at this; omega
  rear hl := by
    rw [h.rear (by simp)]
    obtain ⟨z, l', rfl⟩ := List.exists_cons_of_ne_nil hl
    simp [List.getLast?_cons_cons]

/-- With a node before the first one. -/
theorem cons (h : IsQueue next front rear count l) (hx : next x = front)
    (hrear : l = [] → rear = some x) : IsQueue next (some x) rear (count + 1) (x :: l) where
  chain := ⟨rfl, by rw [hx]; exact h.chain⟩
  count := by simp [h.count]
  rear _ := by
    cases l with
    | nil => simpa using hrear rfl
    | cons z l => rw [h.rear (by simp)]; simp [List.getLast?_cons_cons]

variable [DecidableEq ι]

/-- With a node after the last one. -/
theorem snoc (h : IsQueue next front (some y) count l) (hl : l ≠ []) (hx : x ∉ l) :
    IsQueue (Function.update (Function.update next y (some x)) x none) front (some x) (count + 1)
      (l ++ [x]) := by
  obtain ⟨l', z, rfl⟩ : ∃ l' z, l = l' ++ [z] := ⟨_, _, (List.dropLast_append_getLast hl).symm⟩
  have hz : y = z := by simpa using h.rear hl
  subst hz
  refine ⟨by simpa using h.chain.snoc hx, by simp [h.count], fun _ => by simp⟩

/-- Without its last node, when there are two. -/
theorem dropLast (h : IsQueue next front rear count (l ++ [y, x])) :
    IsQueue (Function.update next y none) front (some y) (count - 1) (l ++ [y]) where
  chain := by
    have hc : Chain next front ((l ++ [y]) ++ x :: []) := by simpa using h.chain
    have hc' : Chain next front (l ++ y :: x :: []) := h.chain
    have hx : next x = none := hc.suffix
    have := hc'.unlink
    rwa [hx] at this
  count := by have := h.count; simp at this ⊢; omega
  rear _ := by simp

/-- Without a node that is neither the first nor the last. -/
theorem unlink (h : IsQueue next front rear count (l₁ ++ y :: x :: l₂)) (hl : l₂ ≠ []) :
    IsQueue (Function.update next y (next x)) front rear (count - 1) (l₁ ++ y :: l₂) where
  chain := h.chain.unlink
  count := by have := h.count; simp at this ⊢; omega
  rear _ := by
    rw [h.rear (by simp)]
    obtain ⟨z, l', rfl⟩ := List.exists_cons_of_ne_nil hl
    simp [List.getLast?_append, List.getLast?_cons_cons]

end IsQueue

end Xv6
