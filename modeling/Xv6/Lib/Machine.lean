import Xv6.Lib.Numerals

/-!
# Runs of a partial machine that may fault

A machine takes an event to `none` (the event is not enabled), to a fault (the
machine stops) or to a new state. `run` executes a list of events; nothing
happens after a fault.

* `run_induct`: induction along a run, one event at a time from its end.
* `run_inv`: an invariant kept by every step holds in every state of a run.
* `guarded_inv`: the same for runs all of whose events meet a guard.
* `guarded_iff`: what a guard decides in both directions.
* `Happened`: some event of the run meets a condition; `happened_snoc`: it is the last, or one before it.
* `run_fault`: a faulting run is a good run and one faulting event.
* `bind_ok`, `foldlM_ok`: what a computation that may fault did when it did not.
-/

namespace Xv6

/-- A machine over states `σ`, events `ε` and faults `φ`. -/
structure Machine (σ ε φ : Type*) where
  step : σ → ε → Option (Except φ σ)

namespace Machine

variable {σ ε φ : Type*} (M : Machine σ ε φ)

/-- The run of a list of events. -/
def run : σ → List ε → Option (Except φ σ)
  | s, [] => some (.ok s)
  | s, e :: es =>
    match M.step s e with
    | none => none
    | some (.error f) => if es.isEmpty then some (.error f) else none
    | some (.ok s') => run s' es

/-- Every event of the run meets the guard `G` in the state before it. -/
def Guarded (G : σ → ε → Prop) (s₀ : σ) (es : List ε) : Prop :=
  ∀ es₁ e es₂ s, es = es₁ ++ e :: es₂ → M.run s₀ es₁ = some (.ok s) → G s e

/-- An event of the run meets `G` in the state before it. -/
def Happened (G : σ → ε → Prop) (s₀ : σ) (es : List ε) : Prop :=
  ∃ es₁ e es₂ s, es = es₁ ++ e :: es₂ ∧ M.run s₀ es₁ = some (.ok s) ∧ G s e

/-- `Guarded` by running the events. -/
def check (G : σ → ε → Prop) [∀ s e, Decidable (G s e)] : σ → List ε → Bool
  | _, [] => true
  | s, e :: es => decide (G s e) &&
    match M.step s e with
    | some (.ok s') => check G s' es
    | _ => true

/-- The run ends without a fault, in a state that meets `P`. -/
def reaches (P : σ → Prop) [DecidablePred P] (s₀ : σ) (es : List ε) : Bool :=
  match M.run s₀ es with
  | some (.ok s) => decide (P s)
  | _ => false

/-- The run ends with the fault `f`. -/
def faults [DecidableEq φ] (f : φ) (s₀ : σ) (es : List ε) : Bool :=
  match M.run s₀ es with
  | some (.error f') => decide (f' = f)
  | _ => false

variable {M} {s₀ : σ}

theorem run_cons {s s' : σ} {e : ε} (h : M.step s e = some (.ok s')) (es : List ε) :
    M.run s (e :: es) = M.run s' es := by
  simp only [run, h]

theorem run_cons_ok {e : ε} {es : List ε} {s s' : σ} :
    M.run s (e :: es) = some (.ok s') ↔ ∃ s₁, M.step s e = some (.ok s₁) ∧ M.run s₁ es = some (.ok s') := by
  simp only [run]
  cases hs : M.step s e with
  | none => simp
  | some x =>
    cases x with
    | error f => cases es <;> simp
    | ok s₁ => simp

theorem run_snoc (es : List ε) (e : ε) (s : σ) (r : Except φ σ) :
    M.run s (es ++ [e]) = some r ↔ ∃ s', M.run s es = some (.ok s') ∧ M.step s' e = some r := by
  induction es generalizing s with
  | nil =>
    simp only [List.nil_append, run, List.isEmpty_nil, if_true]
    constructor
    · intro h
      refine ⟨s, rfl, ?_⟩
      cases hs : M.step s e with
      | none => rw [hs] at h; exact absurd h (by simp)
      | some x => rw [hs] at h; cases x <;> exact h
    · rintro ⟨s', h1, h2⟩
      cases h1
      rw [h2]
      cases r <;> rfl
  | cons a es ih =>
    simp only [List.cons_append, run]
    cases hs : M.step s a with
    | none => simp
    | some x =>
      cases x with
      | error f => simp [List.isEmpty_iff]
      | ok s' => exact ih s'

theorem run_append {es₁ es₂ : List ε} {s s' : σ} (h : M.run s es₁ = some (.ok s')) :
    M.run s (es₁ ++ es₂) = M.run s' es₂ := by
  induction es₁ generalizing s with
  | nil => cases h; rfl
  | cons e es ih =>
    simp only [run] at h
    simp only [List.cons_append, run]
    cases hs : M.step s e with
    | none => rw [hs] at h; cases h
    | some r =>
      rw [hs] at h
      cases r with
      | error f => simp only at h; split at h <;> simp at h
      | ok s₁ => exact ih h

/-- **Induction along a run.** -/
theorem run_induct {P : List ε → σ → Prop} (h0 : P [] s₀)
    (hstep : ∀ es s e s', M.run s₀ es = some (.ok s) → P es s → M.step s e = some (.ok s') →
      P (es ++ [e]) s') :
    ∀ es s, M.run s₀ es = some (.ok s) → P es s := by
  intro es
  induction es using List.reverseRecOn with
  | nil => intro s h; cases h; exact h0
  | append_singleton es e ih =>
    intro s h
    obtain ⟨s', h1, h2⟩ := (run_snoc es e s₀ _).1 h
    exact hstep es s' e s h1 (ih s' h1) h2

/-- **An invariant of the steps is an invariant of the runs.** -/
theorem run_inv {I : σ → Prop} (h0 : I s₀)
    (hstep : ∀ s e s', I s → M.step s e = some (.ok s') → I s') {es : List ε} {s : σ}
    (h : M.run s₀ es = some (.ok s)) : I s :=
  run_induct (P := fun _ s => I s) h0 (fun _ _ _ _ _ hI hs => hstep _ _ _ hI hs) es s h

theorem Guarded.init {G : σ → ε → Prop} {es : List ε} {e : ε}
    (h : M.Guarded G s₀ (es ++ [e])) : M.Guarded G s₀ es :=
  fun es₁ a es₂ s hes hr => h es₁ a (es₂ ++ [e]) s (by simp [hes]) hr

theorem Guarded.last {G : σ → ε → Prop} {es : List ε} {e : ε} {s : σ}
    (h : M.Guarded G s₀ (es ++ [e])) (hr : M.run s₀ es = some (.ok s)) : G s e :=
  h es e [] s (by simp) hr

theorem Guarded.nil {G : σ → ε → Prop} : M.Guarded G s₀ [] := fun es₁ e es₂ _ hes _ => by simp at hes

theorem Guarded.snoc {G : σ → ε → Prop} {es : List ε} {e : ε} (h : M.Guarded G s₀ es)
    (he : ∀ s, M.run s₀ es = some (.ok s) → G s e) : M.Guarded G s₀ (es ++ [e]) := by
  intro es₁ a es₂ s hes hr
  rcases List.eq_nil_or_concat es₂ with rfl | ⟨es₂', x, rfl⟩
  · obtain ⟨rfl, hae⟩ := List.append_inj' hes rfl
    cases hae
    exact he s hr
  · have hes' : es ++ [e] = (es₁ ++ a :: es₂') ++ [x] := by simpa using hes
    obtain ⟨rfl, -⟩ := List.append_inj' hes' rfl
    exact h es₁ a es₂' s rfl hr

theorem Happened.snoc {G : σ → ε → Prop} {es : List ε} (h : M.Happened G s₀ es) (e : ε) :
    M.Happened G s₀ (es ++ [e]) := by
  obtain ⟨es₁, a, es₂, s, rfl, hr, ha⟩ := h
  exact ⟨es₁, a, es₂ ++ [e], s, by simp, hr, ha⟩

theorem happened_last {G : σ → ε → Prop} {es : List ε} {e : ε} {s : σ} (hr : M.run s₀ es = some (.ok s))
    (he : G s e) : M.Happened G s₀ (es ++ [e]) :=
  ⟨es, e, [], s, rfl, hr, he⟩

theorem happened_snoc {G : σ → ε → Prop} {es : List ε} {e : ε} {s : σ} (hr : M.run s₀ es = some (.ok s))
    (h : M.Happened G s₀ (es ++ [e])) : M.Happened G s₀ es ∨ G s e := by
  obtain ⟨es₁, a, es₂, s', hes, hr', ha⟩ := h
  rcases List.eq_nil_or_concat es₂ with rfl | ⟨es₂', x, rfl⟩
  · obtain ⟨rfl, hae⟩ := List.append_inj' hes rfl
    cases hae
    cases hr.symm.trans hr'
    exact .inr ha
  · have hes' : es ++ [e] = (es₁ ++ a :: es₂') ++ [x] := by simpa using hes
    obtain ⟨rfl, -⟩ := List.append_inj' hes' rfl
    exact .inl ⟨es₁, a, es₂', s', rfl, hr', ha⟩

theorem not_happened_nil {G : σ → ε → Prop} : ¬ M.Happened G s₀ [] := by
  rintro ⟨es₁, e, es₂, s, hes, -⟩
  simp at hes

/-- The first part of a good run is a good run. -/
theorem run_prefix {es₁ es₂ : List ε} {s : σ} (h : M.run s₀ (es₁ ++ es₂) = some (.ok s)) :
    ∃ s₁, M.run s₀ es₁ = some (.ok s₁) := by
  induction es₂ using List.reverseRecOn generalizing s with
  | nil => exact ⟨s, by simpa using h⟩
  | append_singleton es₂ e ih =>
    rw [← List.append_assoc] at h
    obtain ⟨s', h', -⟩ := (run_snoc _ e s₀ _).1 h
    exact ih h'

theorem Guarded.take {G : σ → ε → Prop} {es₁ es₂ : List ε} (h : M.Guarded G s₀ (es₁ ++ es₂)) :
    M.Guarded G s₀ es₁ := by
  intro es a es' s hes hr
  exact h es a (es' ++ es₂) s (by simp [hes]) hr

theorem Guarded.drop {G : σ → ε → Prop} {es₁ es₂ : List ε} {s : σ} (h : M.Guarded G s₀ (es₁ ++ es₂))
    (hr : M.run s₀ es₁ = some (.ok s)) : M.Guarded G s es₂ := by
  intro es e es' s' hes hr'
  exact h (es₁ ++ es) e es' s' (by simp [hes]) ((run_append hr).trans hr')

theorem Guarded.cons {G : σ → ε → Prop} {e : ε} {es : List ε} {s s' : σ} (he : G s e)
    (hs : M.step s e = some (.ok s')) (h : M.Guarded G s' es) : M.Guarded G s (e :: es) := by
  intro es₁ a es₂ t hes hr
  cases es₁ with
  | nil =>
    cases hes
    cases hr
    exact he
  | cons b es₁ =>
    cases hes
    rw [run_cons hs] at hr
    exact h es₁ a es₂ t rfl hr

theorem guarded_of_check {G : σ → ε → Prop} [∀ s e, Decidable (G s e)] {es : List ε} :
    ∀ {s : σ}, M.check G s es = true → M.Guarded G s es := by
  induction es with
  | nil => intro s _ es₁ e es₂ _ hes; simp at hes
  | cons e es ih =>
    intro s h es₁ a es₂ s' hes hr
    obtain ⟨he, hrest⟩ : decide (G s e) = true ∧ _ := by simpa [check] using h
    cases es₁ with
    | nil =>
      cases hr
      cases hes
      exact of_decide_eq_true he
    | cons x es₁ =>
      obtain ⟨rfl, rfl⟩ : e = x ∧ es = es₁ ++ a :: es₂ := by simpa using hes
      cases hs : M.step s e with
      | none => simp [run, hs] at hr
      | some r =>
        cases r with
        | error f => cases es₁ <;> simp [run, hs] at hr
        | ok s₁ =>
          rw [hs] at hrest
          exact ih hrest es₁ a es₂ s' rfl (by simpa [run, hs] using hr)

theorem guarded_of_mem {G : σ → ε → Prop} {es : List ε} (h : ∀ e ∈ es, ∀ s, G s e) : M.Guarded G s₀ es :=
  fun es₁ e es₂ s hes _ => h e (by rw [hes]; simp) s

/-- A run by computation. -/
theorem run_of_reaches {P : σ → Prop} [DecidablePred P] {es : List ε} (h : M.reaches P s₀ es = true) :
    ∃ s, M.run s₀ es = some (.ok s) ∧ P s := by
  unfold reaches at h
  split at h
  · rename_i s hs; exact ⟨s, hs, of_decide_eq_true h⟩
  · cases h

theorem run_of_faults [DecidableEq φ] {f : φ} {es : List ε} (h : M.faults f s₀ es = true) :
    M.run s₀ es = some (.error f) := by
  unfold faults at h
  split at h
  · rename_i f' hs
    rw [hs, of_decide_eq_true h]
  · cases h

theorem Guarded.mono {G G' : σ → ε → Prop} (hG : ∀ s e, G s e → G' s e) {es : List ε}
    (h : M.Guarded G s₀ es) : M.Guarded G' s₀ es :=
  fun es₁ e es₂ s hes hr => hG s e (h es₁ e es₂ s hes hr)

/-- **Invariants of guarded runs.** If the steps that meet the guard keep the
invariant, it holds in every state that a guarded run reaches. -/
theorem guarded_inv {G : σ → ε → Prop} {I : σ → Prop} (h0 : I s₀)
    (hstep : ∀ s e s', I s → G s e → M.step s e = some (.ok s') → I s') {es : List ε} {s : σ}
    (hG : M.Guarded G s₀ es) (h : M.run s₀ es = some (.ok s)) : I s := by
  refine run_induct (P := fun es s => M.Guarded G s₀ es → I s) (fun _ => h0) ?_ es s h hG
  intro es s e s' hr ih hs hg
  exact hstep s e s' (ih hg.init) (hg.last hr) hs

/-- A faulting run is a run without a fault followed by the faulting event. -/
theorem run_fault : ∀ {es : List ε} {f : φ}, M.run s₀ es = some (.error f) →
    ∃ es' e s, es = es' ++ [e] ∧ M.run s₀ es' = some (.ok s) ∧ M.step s e = some (.error f) := by
  intro es f h
  rcases List.eq_nil_or_concat es with rfl | ⟨es', e, rfl⟩
  · cases h
  · obtain ⟨s, h1, h2⟩ := (run_snoc es' e s₀ _).1 (by simpa using h)
    exact ⟨es', e, s, by simp, h1, h2⟩

/-- **A guard that is exact.** Where the events that miss the guard, and only they, break a property for good, a run
keeps the property if and only if all its events meet the guard. -/
theorem guarded_iff {G : σ → ε → Prop} {I P : σ → Prop} (h0 : I s₀) (hP : P s₀)
    (hstep : ∀ s e s', I s → M.step s e = some (.ok s') → I s' ∧ (P s' ↔ P s ∧ G s e)) {es : List ε} {s : σ}
    (h : M.run s₀ es = some (.ok s)) : P s ↔ M.Guarded G s₀ es := by
  have hrun : I s ∧ (P s ↔ M.Guarded G s₀ es) := by
    refine run_induct (P := fun es s => I s ∧ (P s ↔ M.Guarded G s₀ es)) ⟨h0, fun _ => .nil, fun _ => hP⟩ ?_ es s h
    rintro es s e s' hr ⟨hI, hiff⟩ hs
    obtain ⟨hI', hP'⟩ := hstep s e s' hI hs
    refine ⟨hI', fun hp => ?_, fun hG => ?_⟩
    · obtain ⟨hp, he⟩ := hP'.1 hp
      apply (hiff.1 hp).snoc
      intro s₁ h1
      cases hr.symm.trans h1
      exact he
    · exact hP'.2 ⟨hiff.2 hG.init, hG.last hr⟩
  exact hrun.2

/-- A guarded run does not fault if no guarded step from an invariant state does. -/
theorem guarded_no_fault {G : σ → ε → Prop} {I : σ → Prop} (h0 : I s₀)
    (hstep : ∀ s e s', I s → G s e → M.step s e = some (.ok s') → I s')
    (hsafe : ∀ s e f, I s → G s e → M.step s e ≠ some (.error f)) {es : List ε}
    (hG : M.Guarded G s₀ es) (f : φ) : M.run s₀ es ≠ some (.error f) := by
  intro h
  obtain ⟨es', e, s, rfl, h1, h2⟩ := run_fault h
  exact hsafe s e f (guarded_inv h0 hstep hG.init h1) (hG.last h1) h2

end Machine

/-! ## Computations that may fault -/

section Except

universe u

variable {φ : Type*} {α β : Type u}

/-- The result is there, and meets `c`. -/
def okWith (c : α → Prop) [DecidablePred c] : Except φ α → Bool
  | .ok a => decide (c a)
  | .error _ => false

theorem of_okWith {c : α → Prop} [DecidablePred c] {r : Except φ α} {a : α} (h : okWith c r = true) (hr : r = .ok a) :
    c a := by
  rw [hr] at h
  exact of_decide_eq_true h

theorem bind_ok {x : Except φ α} {f : α → Except φ β} {b : β} :
    (x >>= f) = .ok b ↔ ∃ a, x = .ok a ∧ f a = .ok b := by
  cases x with
  | error e =>
    constructor
    · intro h; cases h
    · rintro ⟨_, h, _⟩; cases h
  | ok a =>
    constructor
    · intro h; exact ⟨a, rfl, h⟩
    · rintro ⟨_, h, h'⟩; cases h; exact h'

/-- What every round of a loop keeps, the loop keeps. -/
theorem foldlM_ok {γ : Type*} {f : β → γ → Except φ β} {P : β → Prop} {l : List γ} :
    ∀ {b b' : β}, (∀ b a b', a ∈ l → P b → f b a = .ok b' → P b') → P b → l.foldlM f b = .ok b' →
      P b' := by
  induction l with
  | nil => intro b b' _ hb h; cases h; exact hb
  | cons a l ih =>
    intro b b' hf hb h
    rw [List.foldlM_cons, bind_ok] at h
    obtain ⟨b₁, h1, h2⟩ := h
    exact ih (fun b x b' hx => hf b x b' (by simp [hx])) (hf b a b₁ (by simp) hb h1) h2

end Except

end Xv6
