import Xv6.Lib.Numerals

/-!
# Programs over a state, with faults

A program takes a state to a result or a fault, and a state either way: what was written before
a fault stays written.

* `Triple P m Q E`: from a state that meets `P`, `m` returns a result as `Q` says, or faults as
  `E` says.
* `Triple.bind`, `Triple.pure`, `Triple.throw`, `Triple.ite`, `Triple.conseq`: the rules.
* `Triple.forM`: what every round of a loop keeps, the loop keeps.
-/

namespace Xv6

universe u

/-- A program over states `σ`, with faults `φ`. -/
def Prog (σ φ α : Type u) : Type u := σ → Except φ α × σ

namespace Prog

variable {σ φ α β : Type u}

def throw (e : φ) : Prog σ φ α := fun s => (.error e, s)

def get : Prog σ φ σ := fun s => (.ok s, s)

def modify (f : σ → σ) : Prog σ φ PUnit := fun s => (.ok ⟨⟩, f s)

def andThen (m : Prog σ φ α) (f : α → Prog σ φ β) : Prog σ φ β := fun s =>
  match m s with
  | (.ok a, s') => f a s'
  | (.error e, s') => (.error e, s')

instance : Monad (Prog σ φ) where
  pure a := fun s => (.ok a, s)
  bind := andThen

protected theorem id_map (m : Prog σ φ α) : id <$> m = m := by
  funext s
  show andThen m (fun a => pure a) s = m s
  unfold andThen
  cases m s with
  | mk r t => cases r <;> rfl

protected theorem bind_assoc {γ : Type u} (m : Prog σ φ α) (f : α → Prog σ φ β) (g : β → Prog σ φ γ) :
    (m >>= f) >>= g = m >>= fun a => f a >>= g := by
  funext s
  show andThen (andThen m f) g s = andThen m (fun a => andThen (f a) g) s
  unfold andThen
  cases m s with
  | mk r t => cases r <;> rfl

instance : LawfulMonad (Prog σ φ) := LawfulMonad.mk' _ Prog.id_map (fun _ _ => rfl) Prog.bind_assoc

theorem bind_of_ok {m : Prog σ φ α} {s t : σ} {a : α} (h : m s = (.ok a, t)) (f : α → Prog σ φ β) : (m >>= f) s = f a t := by
  show andThen m f s = _
  unfold andThen
  rw [h]

theorem map_ok {m : Prog σ φ α} {s t : σ} {a : α} (h : m s = (.ok a, t)) (f : α → β) : (f <$> m) s = (.ok (f a), t) := by
  show andThen m (fun a => pure (f a)) s = _
  unfold andThen
  rw [h]
  rfl

/-- `throw` unless the test is passed. -/
def assert (c : Prop) [Decidable c] (e : φ) : Prog σ φ PUnit := if c then pure ⟨⟩ else throw e

/-- The program, if the test is passed. -/
def when (c : Prop) [Decidable c] (m : Prog σ φ PUnit) : Prog σ φ PUnit := if c then m else pure ⟨⟩

/-- A run that returned, with a result and in a state that meet `c`. -/
def returns (c : α → σ → Prop) [∀ a s, Decidable (c a s)] (r : Except φ α × σ) : Bool :=
  match r with
  | (.ok a, s) => decide (c a s)
  | (.error _, _) => false

theorem of_returns {c : α → σ → Prop} [∀ a s, Decidable (c a s)] {r : Except φ α × σ} (h : returns c r = true) :
    ∃ a s, r = (.ok a, s) ∧ c a s := by
  obtain ⟨a | a, s⟩ := r
  · cases h
  · exact ⟨a, s, rfl, of_decide_eq_true h⟩

/-- The program, from a state that meets `P`. -/
def Triple (P : σ → Prop) (m : Prog σ φ α) (Q : α → σ → Prop) (E : φ → σ → Prop) : Prop :=
  ∀ s, P s → match m s with
    | (.ok a, s') => Q a s'
    | (.error e, s') => E e s'

namespace Triple

variable {P A : σ → Prop} {m : Prog σ φ α} {Q Q' : α → σ → Prop} {E E' : φ → σ → Prop}

theorem ok (h : Triple P m Q E) {s s' : σ} {a : α} (hP : P s) (hm : m s = (.ok a, s')) : Q a s' := by
  have := h s hP
  rwa [hm] at this

theorem error (h : Triple P m Q E) {s s' : σ} {e : φ} (hP : P s) (hm : m s = (.error e, s')) : E e s' := by
  have := h s hP
  rwa [hm] at this

/-- What holds of the state either way. -/
theorem state {R : σ → Prop} (h : Triple P m (fun _ => R) fun _ => R) {s : σ} (hP : P s) : R (m s).2 := by
  have hs := h s hP
  revert hs
  match m s with
  | (.ok _, _) => exact id
  | (.error _, _) => exact id

/-- How a program ends. -/
theorem ends {s : σ} (h : Triple P m Q E) (hP : P s) :
    (∃ a t, m s = (.ok a, t) ∧ Q a t) ∨ ∃ e t, m s = (.error e, t) ∧ E e t := by
  have hs := h s hP
  cases hm : m s with
  | mk r t =>
    rw [hm] at hs
    cases r with
    | ok a => exact .inl ⟨a, t, rfl, hs⟩
    | error e => exact .inr ⟨e, t, rfl, hs⟩

theorem pure {a : α} (h : ∀ s, P s → Q a s) : Triple P (Pure.pure a) Q E := h

theorem throw {e : φ} (h : ∀ s, P s → E e s) : Triple P (throw e : Prog σ φ α) Q E := h

theorem get {Q : σ → σ → Prop} (h : ∀ s, P s → Q s s) : Triple P get Q E := h

theorem modify {f : σ → σ} {Q : PUnit → σ → Prop} (h : ∀ s, P s → Q ⟨⟩ (f s)) : Triple P (modify f) Q E := h

/-- **One program after the other.** -/
theorem bind {R : α → σ → Prop} {f : α → Prog σ φ β} {Q : β → σ → Prop} (hm : Triple P m R E)
    (hf : ∀ a, Triple (R a) (f a) Q E) : Triple P (m >>= f) Q E := by
  intro s hs
  have h := hm s hs
  show match andThen m f s with
    | (.ok a, s') => Q a s'
    | (.error e, s') => E e s'
  unfold andThen
  revert h
  match m s with
  | (.ok a, s') => exact hf a s'
  | (.error e, s') => exact id

/-- Another program that starts in the same way is followed. -/
theorem bind_with {γ : Type u} {R : α → σ → Prop} {f : α → Prog σ φ β} {g : α → Prog σ φ γ}
    {o : Except φ γ × σ} {Q : β → σ → Prop} (hm : Triple P m R E)
    (hf : ∀ a, Triple (fun s => g a s = o ∧ R a s) (f a) Q E) :
    Triple (fun s => (m >>= g) s = o ∧ P s) (m >>= f) Q E := by
  rintro s ⟨ho, hs⟩
  have h := hm s hs
  have ho' : andThen m g s = o := ho
  show match andThen m f s with
    | (.ok a, s') => Q a s'
    | (.error e, s') => E e s'
  unfold andThen at ho' ⊢
  revert h ho'
  match m s with
  | (.ok a, s') => exact fun h ho' => hf a s' ⟨ho', h⟩
  | (.error e, s') => exact fun h _ => h

theorem conseq (h : Triple A m Q' E') (hP : ∀ s, P s → A s) (hQ : ∀ a s, Q' a s → Q a s)
    (hE : ∀ e s, E' e s → E e s) : Triple P m Q E := by
  intro s hs
  have h' := h s (hP s hs)
  revert h'
  match m s with
  | (.ok a, s') => exact hQ a s'
  | (.error e, s') => exact hE e s'

theorem pre (h : Triple A m Q E) (hP : ∀ s, P s → A s) : Triple P m Q E :=
  h.conseq hP (fun _ _ => id) fun _ _ => id

theorem post (h : Triple P m Q' E) (hQ : ∀ a s, Q' a s → Q a s) : Triple P m Q E :=
  h.conseq (fun _ => id) hQ fun _ _ => id

theorem ite {c : Prop} [Decidable c] {m' : Prog σ φ α} (ht : c → Triple P m Q E)
    (hf : ¬ c → Triple P m' Q E) : Triple P (if c then m else m') Q E := by
  split
  · rename_i h; exact ht h
  · rename_i h; exact hf h

theorem when {c : Prop} [Decidable c] {m : Prog σ φ PUnit} (h : c → Triple P m (fun _ => P) E) :
    Triple P (when c m) (fun _ => P) E :=
  ite h fun _ => Triple.pure fun _ => id

/-- From each of the states. -/
theorem of_state (h : ∀ s, P s → Triple (fun t => t = s) m Q E) : Triple P m Q E :=
  fun s hs => h s hs s rfl

/-- What the precondition says, besides the state. -/
theorem of_fact {c : Prop} (h : c → Triple P m Q E) : Triple (fun s => c ∧ P s) m Q E :=
  fun s hs => h hs.1 s hs.2

/-- A fact that the precondition implies. -/
theorem fact {c : Prop} (hP : ∀ s, P s → c) (h : c → Triple P m Q E) : Triple P m Q E :=
  fun s hs => h (hP s hs) s hs

/-- Two facts about one program. -/
theorem and (h : Triple P m Q E) (h' : Triple A m Q' E') :
    Triple (fun s => P s ∧ A s) m (fun a s => Q a s ∧ Q' a s) E := by
  intro s hs
  have h1 := h s hs.1
  have h2 := h' s hs.2
  revert h1 h2
  match m s with
  | (.ok a, s') => exact And.intro
  | (.error e, s') => exact fun h1 _ => h1

theorem exists_pre {ι : Sort*} {P : ι → σ → Prop} (h : ∀ i, Triple (P i) m Q E) :
    Triple (fun s => ∃ i, P i s) m Q E := by
  rintro s ⟨i, hi⟩
  exact h i s hi

theorem assert {c : Prop} [Decidable c] {e : φ} {Q : PUnit → σ → Prop} (ht : c → ∀ s, P s → Q ⟨⟩ s)
    (hf : ¬ c → ∀ s, P s → E e s) : Triple P (assert c e) Q E :=
  ite (fun h => Triple.pure (ht h)) fun h => Triple.throw (hf h)

/-- **What every round of a loop keeps, the loop keeps.** -/
theorem forM {γ : Type u} {l : List γ} {f : γ → Prog σ φ PUnit} (h : ∀ a ∈ l, Triple P (f a) (fun _ => P) E) :
    Triple P (l.forM f) (fun _ => P) E := by
  induction l with
  | nil => exact Triple.pure fun _ => id
  | cons a l ih => exact (h a List.mem_cons_self).bind fun _ => ih fun b hb => h b (List.mem_cons_of_mem a hb)

end Triple

end Prog

end Xv6
