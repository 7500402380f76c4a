import Xv6.Lib.Chain

/-!
# Circular lists with two links

A doubly linked list that goes through a head of its own. The head is `none`: `first` and `last` are its links, and
the links of the nodes at both ends lead to it.

* `Linked d l`: the links describe the list `l`, from both sides.
* **`Linked.remove`**, **`Linked.pushFront`**: the pointer updates that take a node out and put one in front.
* `scan`: the loop that follows a link up to a node that fits; `Chain.scan`: it finds the first one.
-/

namespace Xv6

structure Circular (ι : Type*) where
  first : Option ι
  last : Option ι
  next : ι → Option ι
  prev : ι → Option ι

namespace Circular

variable {ι : Type*}

/-- The links describe the list. -/
structure Linked (d : Circular ι) (l : List ι) : Prop where
  next : Chain d.next d.first l
  prev : Chain d.prev d.last l.reverse

/-- The list of a head alone. -/
def empty : Circular ι := ⟨none, none, fun _ => none, fun _ => none⟩

variable {d : Circular ι} {l l₁ l₂ : List ι} {b x y : ι}

theorem linked_empty : Linked (empty : Circular ι) [] := ⟨rfl, rfl⟩

namespace Linked

theorem nodup (h : Linked d l) : l.Nodup := h.next.nodup

theorem unique (h : Linked d l₁) (h' : Linked d l₂) : l₁ = l₂ := h.next.unique h'.next

/-- The node before `b`. -/
theorem prev_eq (h : Linked d (l₁ ++ b :: l₂)) : d.prev b = l₁.getLast? := by
  have hp := h.prev
  rw [List.reverse_append, List.reverse_cons, List.append_assoc] at hp
  have hs : Chain d.prev (d.prev b) l₁.reverse := hp.suffix
  rw [hs.head, List.head?_reverse]

theorem next_eq (h : Linked d (l₁ ++ b :: l₂)) : d.next b = l₂.head? := h.next.suffix.head

end Linked

variable [DecidableEq ι]

def setNext (d : Circular ι) : Option ι → Option ι → Circular ι
  | none, y => { d with first := y }
  | some x, y => { d with next := Function.update d.next x y }

def setPrev (d : Circular ι) : Option ι → Option ι → Circular ι
  | none, y => { d with last := y }
  | some x, y => { d with prev := Function.update d.prev x y }

/-- `b->next->prev = b->prev; b->prev->next = b->next` -/
def remove (d : Circular ι) (b : ι) : Circular ι :=
  let d := d.setPrev (d.next b) (d.prev b)
  d.setNext (d.prev b) (d.next b)

/-- `b->next = head.next; b->prev = &head; head.next->prev = b; head.next = b` -/
def pushFront (d : Circular ι) (b : ι) : Circular ι :=
  let d := d.setNext (some b) d.first
  let d := d.setPrev (some b) none
  let d := d.setPrev d.first (some b)
  { d with first := some b }

/-- A chain without one of its nodes: the link before it goes on after it. -/
theorem cut {next : ι → Option ι} {a : Option ι} (h : Chain next a (l₁ ++ b :: l₂)) :
    (l₁ = [] → Chain next (next b) l₂) ∧
      ∀ l' y, l₁ = l' ++ [y] → Chain (Function.update next y (next b)) a (l₁ ++ l₂) := by
  constructor
  · rintro rfl
    exact h.2
  · rintro l' y rfl
    have hun : Chain next a (l' ++ y :: b :: l₂) := by simpa using h
    simpa using hun.unlink

/-- **A node is taken out.** -/
theorem Linked.remove (h : Linked d (l₁ ++ b :: l₂)) : Linked (d.remove b) (l₁ ++ l₂) := by
  have hnd := h.nodup
  have hprev := h.prev_eq
  have hnext := h.next_eq
  have hrev : Chain d.prev d.last (l₂.reverse ++ b :: l₁.reverse) := by simpa using h.prev
  obtain ⟨hn0, hn1⟩ := cut h.next
  obtain ⟨hp0, hp1⟩ := cut hrev
  -- the first assignment leaves the links of `b` alone
  have hkeep : (d.setPrev (d.next b) (d.prev b)).prev b = d.prev b ∧
      (d.setPrev (d.next b) (d.prev b)).next = d.next ∧ (d.setPrev (d.next b) (d.prev b)).first = d.first := by
    rw [hnext]
    cases l₂ with
    | nil => exact ⟨rfl, rfl, rfl⟩
    | cons y l₂ =>
      have hby : b ≠ y := by
        rintro rfl
        simp [List.nodup_append] at hnd
      exact ⟨Function.update_of_ne hby _ _, rfl, rfl⟩
  unfold Circular.remove
  simp only [hkeep.1, hkeep.2.1]
  rw [hprev]
  constructor
  · rcases List.eq_nil_or_concat l₁ with rfl | ⟨l', y, hl⟩
    · show Chain (d.setPrev _ _).next (d.next b) l₂
      rw [← hprev, hkeep.2.1]
      exact hn0 rfl
    · rw [List.concat_eq_append] at hl
      subst hl
      rw [List.getLast?_append, List.getLast?_singleton, Option.some_or] at hprev ⊢
      show Chain (Function.update (d.setPrev _ _).next y (d.next b)) (d.setPrev _ _).first _
      rw [← hprev, hkeep.2.1, hkeep.2.2]
      exact hn1 l' y rfl
  · have hdone : Chain (d.setPrev (d.next b) (d.prev b)).prev (d.setPrev (d.next b) (d.prev b)).last
        (l₂.reverse ++ l₁.reverse) := by
      rw [hnext]
      cases l₂ with
      | nil => exact hp0 rfl
      | cons y l₂ => exact hp1 l₂.reverse y List.reverse_cons
    rw [List.reverse_append, ← hprev]
    cases hpb : d.prev b with
    | none =>
      rw [hpb] at hdone
      exact hdone
    | some z =>
      rw [hpb] at hdone
      exact hdone

/-- **A node is put in front.** -/
theorem Linked.pushFront (h : Linked d l) (hb : b ∉ l) : Linked (d.pushFront b) (b :: l) := by
  have hbr : b ∉ l.reverse := by simpa using hb
  have hnext := h.next.update hb d.first
  cases l with
  | nil =>
    have hfirst : d.first = none := h.next
    simp only [Circular.pushFront, setNext, hfirst, setPrev]
    refine ⟨⟨rfl, ?_⟩, ⟨rfl, ?_⟩⟩
    · show Chain _ (Function.update d.next b none b) []
      rw [Function.update_self]
      rfl
    · show Chain _ (Function.update d.prev b none b) []
      rw [Function.update_self]
      rfl
  | cons y l =>
    have hfirst : d.first = some y := h.next.1
    have hby : b ≠ y := by
      rintro rfl
      simp at hb
    simp only [Circular.pushFront, setNext, hfirst, setPrev]
    rw [hfirst] at hnext
    constructor
    · refine ⟨rfl, ?_⟩
      show Chain _ (Function.update d.next b (some y) b) (y :: l)
      rw [Function.update_self]
      exact hnext
    · have hsnoc : Chain d.prev d.last (l.reverse ++ [y]) := by simpa using h.prev
      have hin : b ∉ l.reverse ++ [y] := by simpa using hbr
      have hdone := hsnoc.snoc hin
      rw [Function.update_comm hby.symm] at hdone
      simpa using hdone

end Circular

section Scan

variable {ι : Type*} {next : ι → Option ι} {a : Option ι} {l : List ι}

/-- `for(b = a; b != &head; b = next b) if(p b) return b;`, at most `k` times around. -/
def scan (next : ι → Option ι) (p : ι → Bool) : ℕ → Option ι → Option ι
  | 0, _ => none
  | _ + 1, none => none
  | k + 1, some b => if p b then some b else scan next p k (next b)

theorem Chain.scan (h : Chain next a l) (p : ι → Bool) {k : ℕ} (hk : l.length ≤ k) :
    Xv6.scan next p k a = l.find? p := by
  induction l generalizing a k with
  | nil =>
    obtain rfl : a = none := h
    cases k <;> rfl
  | cons x l ih =>
    obtain ⟨rfl, h⟩ := h
    cases k with
    | zero => simp at hk
    | succ k =>
      rw [List.length_cons] at hk
      rw [Xv6.scan, List.find?_cons, ih h (by omega)]
      cases p x <;> rfl

end Scan

end Xv6
