import Xv6.Pipe.Model

/-!
# The life of a pipe

The page of a pipe belongs to the files of its two ends. `pipeclose` of the second end gives it to `kfree`, after it
released the lock.

* `Life`: what the descriptors, the flags `readopen` and `writeopen` and the processes in `pipe.c` know of each other.
* `Life.move`, `Life.leave`: most actions of a process change none of that; `Life.step` has the others.
* **`page_freed_once`**: no action meets a freed page or panics, and the page is freed exactly when both ends are closed
  and nobody is in the code any more, once.
-/

namespace Xv6.Pipes

variable {P : Type*}

/-- A process there is in `piperead` or in `pipewrite`. -/
def Label.Uses : Label → Side → Prop
  | .readAcquire _, e | .readTest _, e | .readSleep _, e | .readCopy _ _, e | .readWakeup _ _, e
  | .readRelease _ _ _, e => e = .read
  | .writeAcquire _, e | .writeLoop _ _, e | .writeFull _ _, e | .writeSleep _ _, e | .writeWakeup _, e
  | .writeRelease _ _ _, e => e = .write
  | _, _ => False

/-- It is going to clear the flag of the end. -/
def Label.Closes : Label → Side → Prop
  | .closeAcquire e', e | .closeMark e', e => e' = e
  | _, _ => False

/-- It cleared a flag, and may have the page to free. -/
def Label.Ends : Label → Prop
  | .closeWakeup _ | .closeTest | .closeFree => True
  | _ => False

theorem Label.cases (l : Label) : (∃ e, l.Uses e) ∨ (∃ e, l.Closes e) ∨ l.Ends := by
  cases l <;> simp [Uses, Closes, Ends]

/-- The descriptors, the flags and the places of the processes. -/
structure Life (w : World P) (pl : P → Option Label) : Prop where
  /-- a process in a call has a descriptor for it -/
  uses : ∀ {p l e}, pl p = some l → l.Uses e → p ∈ w.holders e
  /-- an end is closed after its last descriptor -/
  closing : ∀ {p l e}, pl p = some l → l.Closes e → w.holders e = 0
  one : ∀ {p q l l' e}, pl p = some l → l.Closes e → pl q = some l' → l'.Closes e → p = q
  opened : ∀ e, w.pipe.opened e = true ↔ w.holders e ≠ 0 ∨ ∃ p l, pl p = some l ∧ l.Closes e
  /-- somebody has the page of a closed pipe to free -/
  shut : (∀ e, w.pipe.opened e = false) → w.frees = 1 ∨ ∃ p l, pl p = some l ∧ l.Ends
  last : ∀ {p}, pl p = some .closeFree → w.frees = 0 ∧ (∀ e, w.pipe.opened e = false) ∧ ∀ q, q ≠ p → pl q = none
  gone : w.frees ≠ 0 → w.frees = 1 ∧ (∀ e, w.pipe.opened e = false) ∧ ∀ q, pl q = none

namespace Life

variable {w w' : World P} {pl pl' : P → Option Label} {p : P} {l l' : Label}

/-- An end whose flag is cleared has no descriptors, and nobody works on it. -/
theorem closed (h : Life w pl) {e : Side} (he : w.pipe.opened e = false) :
    w.holders e = 0 ∧ ∀ p l, pl p = some l → ¬ l.Uses e ∧ ¬ l.Closes e := by
  have hno : ¬ (w.holders e ≠ 0 ∨ ∃ p l, pl p = some l ∧ l.Closes e) := by
    rw [← h.opened e, he]
    simp
  push Not at hno
  refine ⟨hno.1, fun p l hp => ⟨fun hu => ?_, hno.2 p l hp⟩⟩
  have hmem := h.uses hp hu
  rw [hno.1] at hmem
  exact Multiset.notMem_zero p hmem

/-- `p` goes on in its call. -/
theorem move (h : Life w pl) (hp : pl p = some l) (hp' : pl' p = some l') (hne : ∀ q, q ≠ p → pl' q = pl q)
    (hholders : w'.holders = w.holders) (hopened : w'.pipe.opened = w.pipe.opened) (hfrees : w'.frees = w.frees)
    (huses : ∀ e, l'.Uses e → l.Uses e) (hcloses : ∀ e, l'.Closes e ↔ l.Closes e) (hends : l.Ends → l'.Ends)
    (hfree : l' ≠ .closeFree) : Life w' pl' := by
  -- whoever closes an end now did so before
  have hback : ∀ {q l₁ e}, pl' q = some l₁ → l₁.Closes e → ∃ l₀, pl q = some l₀ ∧ l₀.Closes e := by
    intro q l₁ e hq hc
    by_cases hqp : q = p
    · rw [hqp, hp'] at hq
      cases hq
      exact ⟨l, by rw [hqp]; exact hp, (hcloses e).1 hc⟩
    · rw [hne q hqp] at hq
      exact ⟨l₁, hq, hc⟩
  have hfwd : ∀ {q l₁} (X : Label → Prop), (X l → X l') → pl q = some l₁ → X l₁ → ∃ q l₂, pl' q = some l₂ ∧ X l₂ := by
    intro q l₁ X hX hq hx
    by_cases hqp : q = p
    · rw [hqp, hp] at hq
      cases hq
      exact ⟨p, l', hp', hX hx⟩
    · exact ⟨q, l₁, by rw [hne q hqp]; exact hq, hx⟩
  constructor
  · intro q l₁ e hq hu
    rw [hholders]
    by_cases hqp : q = p
    · rw [hqp, hp'] at hq
      cases hq
      rw [hqp]
      exact h.uses hp (huses e hu)
    · rw [hne q hqp] at hq
      exact h.uses hq hu
  · intro q l₁ e hq hc
    obtain ⟨l₀, h1, h2⟩ := hback hq hc
    rw [hholders]
    exact h.closing h1 h2
  · intro q q' l₁ l₂ e hq hc hq' hc'
    obtain ⟨_, h1, h2⟩ := hback hq hc
    obtain ⟨_, h3, h4⟩ := hback hq' hc'
    exact h.one h1 h2 h3 h4
  · intro e
    rw [hopened, hholders, h.opened e]
    constructor
    · rintro (h1 | ⟨q, l₁, h1, h2⟩)
      · exact .inl h1
      · exact .inr (hfwd (fun l => l.Closes e) (hcloses e).2 h1 h2)
    · rintro (h1 | ⟨q, l₁, h1, h2⟩)
      · exact .inl h1
      · obtain ⟨l₀, h3, h4⟩ := hback h1 h2
        exact .inr ⟨q, l₀, h3, h4⟩
  · intro ho
    rw [hopened] at ho
    rw [hfrees]
    rcases h.shut ho with h1 | ⟨q, l₁, h1, h2⟩
    · exact .inl h1
    · exact .inr (hfwd Label.Ends hends h1 h2)
  · intro q hq
    have hqp : q ≠ p := by
      rintro rfl
      rw [hp'] at hq
      exact hfree (Option.some.inj hq)
    rw [hne q hqp] at hq
    have hout := (h.last hq).2.2 p (Ne.symm hqp)
    rw [hp] at hout
    cases hout
  · intro h0
    rw [hfrees] at h0
    have hout := (h.gone h0).2.2 p
    rw [hp] at hout
    cases hout

/-- `p` returns. -/
theorem leave (h : Life w pl) (hp : pl p = some l) (hp' : pl' p = none) (hne : ∀ q, q ≠ p → pl' q = pl q)
    (hholders : w'.holders = w.holders) (hopened : w'.pipe.opened = w.pipe.opened) (hfrees : w'.frees = w.frees)
    (hcloses : ∀ e, ¬ l.Closes e) (hends : l.Ends → ∃ e, w.pipe.opened e = true) : Life w' pl' := by
  have hback : ∀ {q l₁}, pl' q = some l₁ → pl q = some l₁ ∧ q ≠ p := by
    intro q l₁ hq
    have hqp : q ≠ p := by
      rintro rfl
      rw [hp'] at hq
      cases hq
    rw [hne q hqp] at hq
    exact ⟨hq, hqp⟩
  constructor
  · intro q l₁ e hq hu
    rw [hholders]
    exact h.uses (hback hq).1 hu
  · intro q l₁ e hq hc
    rw [hholders]
    exact h.closing (hback hq).1 hc
  · intro q q' l₁ l₂ e hq hc hq' hc'
    exact h.one (hback hq).1 hc (hback hq').1 hc'
  · intro e
    rw [hopened, hholders, h.opened e]
    constructor
    · rintro (h1 | ⟨q, l₁, h1, h2⟩)
      · exact .inl h1
      · have hqp : q ≠ p := by
          rintro rfl
          rw [hp] at h1
          cases h1
          exact hcloses e h2
        exact .inr ⟨q, l₁, by rw [hne q hqp]; exact h1, h2⟩
    · rintro (h1 | ⟨q, l₁, h1, h2⟩)
      · exact .inl h1
      · exact .inr ⟨q, l₁, (hback h1).1, h2⟩
  · intro ho
    rw [hopened] at ho
    rw [hfrees]
    rcases h.shut ho with h1 | ⟨q, l₁, h1, h2⟩
    · exact .inl h1
    · refine .inr ⟨q, l₁, ?_, h2⟩
      have hqp : q ≠ p := by
        rintro rfl
        rw [hp] at h1
        cases h1
        obtain ⟨e, he⟩ := hends h2
        rw [ho e] at he
        cases he
      rw [hne q hqp]
      exact h1
  · intro q hq
    obtain ⟨hq, hqp⟩ := hback hq
    have hout := (h.last hq).2.2 p (Ne.symm hqp)
    rw [hp] at hout
    cases hout
  · intro h0
    rw [hfrees] at h0
    have hout := (h.gone h0).2.2 p
    rw [hp] at hout
    cases hout

/-- An end with a descriptor is open, and so the page is there. -/
theorem held (h : Life w pl) {e : Side} (hmem : p ∈ w.holders e) : w.pipe.opened e = true ∧ w.frees = 0 := by
  have hopen : w.pipe.opened e = true := by
    apply (h.opened e).2
    left
    intro h0
    rw [h0] at hmem
    exact Multiset.notMem_zero p hmem
  refine ⟨hopen, ?_⟩
  by_contra h0
  rw [(h.gone h0).2.1 e] at hopen
  cases hopen

/-- A call of `piperead` or `pipewrite` begins. -/
theorem enter (h : Life w pl) {e : Side} (hmem : p ∈ w.holders e) (hp : pl p = none) (hp' : pl' p = some l')
    (hne : ∀ q, q ≠ p → pl' q = pl q) (huses : ∀ e', l'.Uses e' → e' = e) (hcloses : ∀ e', ¬ l'.Closes e')
    (hfree : l' ≠ .closeFree) : Life w pl' := by
  have hback : ∀ {q l₁ e'}, pl' q = some l₁ → l₁.Closes e' → pl q = some l₁ := by
    intro q l₁ e' hq hc
    by_cases hqp : q = p
    · rw [hqp, hp'] at hq
      cases hq
      exact absurd hc (hcloses e')
    · rw [hne q hqp] at hq
      exact hq
  have hfwd : ∀ {q l₁}, pl q = some l₁ → pl' q = some l₁ := by
    intro q l₁ hq
    rw [hne q ?_]
    · exact hq
    · rintro rfl
      rw [hp] at hq
      cases hq
  obtain ⟨hopen, hfrees⟩ := h.held hmem
  constructor
  · intro q l₁ e' hq hu
    by_cases hqp : q = p
    · rw [hqp, hp'] at hq
      cases hq
      rw [huses e' hu, hqp]
      exact hmem
    · rw [hne q hqp] at hq
      exact h.uses hq hu
  · intro q l₁ e' hq hc
    exact h.closing (hback hq hc) hc
  · intro q q' l₁ l₂ e' hq hc hq' hc'
    exact h.one (hback hq hc) hc (hback hq' hc') hc'
  · intro e'
    rw [h.opened e']
    constructor
    · rintro (h1 | ⟨q, l₁, h1, h2⟩)
      · exact .inl h1
      · exact .inr ⟨q, l₁, hfwd h1, h2⟩
    · rintro (h1 | ⟨q, l₁, h1, h2⟩)
      · exact .inl h1
      · exact .inr ⟨q, l₁, hback h1 h2, h2⟩
  · intro ho
    rw [ho e] at hopen
    cases hopen
  · intro q hq
    have hqp : q ≠ p := by
      rintro rfl
      rw [hp'] at hq
      exact hfree (Option.some.inj hq)
    rw [hne q hqp] at hq
    rw [(h.last hq).2.1 e] at hopen
    cases hopen
  · intro h0
    exact absurd hfrees h0

variable [DecidableEq P]

omit [DecidableEq P] in
/-- The descriptors of an end with several of them change. -/
theorem hold (h : Life w pl) {e : Side} {m : Multiset P} (hmem : p ∈ w.holders e) (hm : m ≠ 0)
    (hkeep : ∀ q l, pl q = some l → l.Uses e → q ∈ m) : Life (w.setHolders e m) pl := by
  obtain ⟨hopen, hfrees⟩ := h.held hmem
  have hne0 : w.holders e ≠ 0 := by
    intro h0
    rw [h0] at hmem
    exact Multiset.notMem_zero p hmem
  constructor
  · intro q l₁ e' hq hu
    by_cases he : e' = e
    · rw [he, World.setHolders_self]
      rw [he] at hu
      exact hkeep q l₁ hq hu
    · rw [World.setHolders_ne w m he]
      exact h.uses hq hu
  · intro q l₁ e' hq hc
    by_cases he : e' = e
    · rw [he] at hc
      exact absurd (h.closing hq hc) hne0
    · rw [World.setHolders_ne w m he]
      exact h.closing hq hc
  · exact h.one
  · intro e'
    rw [World.setHolders_pipe, h.opened e']
    by_cases he : e' = e
    · rw [he, World.setHolders_self]
      exact ⟨fun _ => .inl hm, fun _ => .inl hne0⟩
    · rw [World.setHolders_ne w m he]
  · intro ho
    rw [World.setHolders_pipe] at ho
    rw [ho e] at hopen
    cases hopen
  · intro q hq
    rw [(h.last hq).2.1 e] at hopen
    cases hopen
  · intro h0
    rw [World.setHolders_frees] at h0
    exact absurd hfrees h0

/-- The last descriptor of an end is closed, and `pipeclose` begins. -/
theorem closeLast (h : Life w pl) {e : Side} (hmem : p ∈ w.holders e) (hlast : (w.holders e).erase p = 0)
    (hp : pl p = none) (hp' : pl' p = some (.closeAcquire e)) (hne : ∀ q, q ≠ p → pl' q = pl q) :
    Life (w.setHolders e 0) pl' := by
  obtain ⟨hopen, hfrees⟩ := h.held hmem
  have honly : w.holders e = {p} := by
    rw [← Multiset.cons_erase hmem, hlast]
    rfl
  -- nobody else has a descriptor, so nobody is in a call
  have hidle : ∀ q l, pl q = some l → ¬ l.Uses e ∧ ¬ l.Closes e := by
    intro q l₁ hq
    constructor
    · intro hu
      have hq' := h.uses hq hu
      rw [honly, Multiset.mem_singleton] at hq'
      rw [hq', hp] at hq
      cases hq
    · intro hc
      have h0 := h.closing hq hc
      rw [h0] at hmem
      exact Multiset.notMem_zero p hmem
  have hback : ∀ {q l₁}, pl' q = some l₁ → l₁ = .closeAcquire e ∧ q = p ∨ pl q = some l₁ ∧ q ≠ p := by
    intro q l₁ hq
    by_cases hqp : q = p
    · rw [hqp, hp'] at hq
      exact .inl ⟨(Option.some.inj hq).symm, hqp⟩
    · rw [hne q hqp] at hq
      exact .inr ⟨hq, hqp⟩
  constructor
  · intro q l₁ e' hq hu
    rcases hback hq with ⟨rfl, -⟩ | ⟨hq, -⟩
    · exact hu.elim
    · by_cases he : e' = e
      · rw [he] at hu
        exact absurd hu (hidle q l₁ hq).1
      · rw [World.setHolders_ne w _ he]
        exact h.uses hq hu
  · intro q l₁ e' hq hc
    by_cases he : e' = e
    · rw [he, World.setHolders_self]
    · rw [World.setHolders_ne w _ he]
      rcases hback hq with ⟨rfl, -⟩ | ⟨hq, -⟩
      · exact absurd hc.symm he
      · exact h.closing hq hc
  · intro q q' l₁ l₂ e' hq hc hq' hc'
    rcases hback hq with ⟨rfl, rfl⟩ | ⟨h1, -⟩ <;> rcases hback hq' with ⟨rfl, rfl⟩ | ⟨h2, -⟩
    · rfl
    · have he : e = e' := hc
      exact absurd hc' (he ▸ (hidle q' l₂ h2).2)
    · have he : e = e' := hc'
      exact absurd hc (he ▸ (hidle q l₁ h1).2)
    · exact h.one h1 hc h2 hc'
  · intro e'
    rw [World.setHolders_pipe, h.opened e']
    by_cases he : e' = e
    · rw [he, World.setHolders_self]
      refine ⟨fun _ => .inr ⟨p, _, hp', rfl⟩, fun _ => .inl ?_⟩
      rw [honly]
      exact Multiset.singleton_ne_zero p
    · rw [World.setHolders_ne w _ he]
      constructor
      · rintro (h1 | ⟨q, l₁, h1, h2⟩)
        · exact .inl h1
        · refine .inr ⟨q, l₁, ?_, h2⟩
          rw [hne q ?_]
          · exact h1
          · rintro rfl
            rw [hp] at h1
            cases h1
      · rintro (h1 | ⟨q, l₁, h1, h2⟩)
        · exact .inl h1
        · rcases hback h1 with ⟨rfl, -⟩ | ⟨h1, -⟩
          · exact absurd h2.symm he
          · exact .inr ⟨q, l₁, h1, h2⟩
  · intro ho
    rw [World.setHolders_pipe] at ho
    rw [ho e] at hopen
    cases hopen
  · intro q hq
    rcases hback hq with ⟨hl, -⟩ | ⟨hq, -⟩
    · cases hl
    · rw [(h.last hq).2.1 e] at hopen
      cases hopen
  · intro h0
    rw [World.setHolders_frees] at h0
    exact absurd hfrees h0

omit [DecidableEq P] in
/-- `pipeclose` clears the flag. -/
theorem mark (h : Life w pl) {e : Side} (hp : pl p = some (.closeMark e)) (hp' : pl' p = some (.closeWakeup e))
    (hne : ∀ q, q ≠ p → pl' q = pl q) : Life { w with pipe := w.pipe.close e } pl' := by
  have hback : ∀ {q l₁ e'}, pl' q = some l₁ → l₁.Closes e' → pl q = some l₁ ∧ e' ≠ e := by
    intro q l₁ e' hq hc
    have hqp : q ≠ p := by
      rintro rfl
      rw [hp'] at hq
      cases hq
      exact hc
    rw [hne q hqp] at hq
    refine ⟨hq, ?_⟩
    rintro rfl
    exact hqp (h.one hq hc hp rfl)
  constructor
  · intro q l₁ e' hq hu
    have hqp : q ≠ p := by
      rintro rfl
      rw [hp'] at hq
      cases hq
      exact hu
    rw [hne q hqp] at hq
    exact h.uses hq hu
  · intro q l₁ e' hq hc
    exact h.closing (hback hq hc).1 hc
  · intro q q' l₁ l₂ e' hq hc hq' hc'
    exact h.one (hback hq hc).1 hc (hback hq' hc').1 hc'
  · intro e'
    by_cases he : e' = e
    · rw [he]
      show (w.pipe.close e).opened e = true ↔ w.holders e ≠ 0 ∨ _
      rw [Pipe.close_self, h.closing hp rfl]
      constructor
      · intro hf
        cases hf
      · rintro (h1 | ⟨q, l₁, h1, h2⟩)
        · exact absurd rfl h1
        · exact absurd rfl (hback h1 h2).2
    · show (w.pipe.close e).opened e' = true ↔ w.holders e' ≠ 0 ∨ _
      rw [Pipe.close_ne _ he, h.opened e']
      constructor
      · rintro (h1 | ⟨q, l₁, h1, h2⟩)
        · exact .inl h1
        · refine .inr ⟨q, l₁, ?_, h2⟩
          rw [hne q ?_]
          · exact h1
          · rintro rfl
            rw [hp] at h1
            cases h1
            exact he h2.symm
      · rintro (h1 | ⟨q, l₁, h1, h2⟩)
        · exact .inl h1
        · exact .inr ⟨q, l₁, (hback h1 h2).1, h2⟩
  · intro _
    exact .inr ⟨p, _, hp', trivial⟩
  · intro q hq
    have hqp : q ≠ p := by
      rintro rfl
      rw [hp'] at hq
      cases hq
    rw [hne q hqp] at hq
    have hout := (h.last hq).2.2 p (Ne.symm hqp)
    rw [hp] at hout
    cases hout
  · intro h0
    have hout := (h.gone h0).2.2 p
    rw [hp] at hout
    cases hout

/-- Both ends are closed, and `p` is the only one left in the code. -/
theorem ready (h : Life w pl) (hp : pl p = some .closeTest) (hclosed : ∀ e, w.pipe.opened e = false)
    (hunique : ∀ q l, pl q = some l → l.Ends → l ≠ .closeFree → q = p) (hp' : pl' p = some .closeFree)
    (hne : ∀ q, q ≠ p → pl' q = pl q) : Life w pl' := by
  have halone : ∀ q, q ≠ p → pl' q = none := by
    intro q hqp
    rw [hne q hqp]
    cases hq : pl q with
    | none => rfl
    | some l =>
      rcases l.cases with ⟨e, hu⟩ | ⟨e, hc⟩ | he
      · exact absurd hu ((h.closed (hclosed e)).2 q l hq).1
      · exact absurd hc ((h.closed (hclosed e)).2 q l hq).2
      · by_cases hl : l = .closeFree
        · rw [hl] at hq
          have hout := (h.last hq).2.2 p (Ne.symm hqp)
          rw [hp] at hout
          cases hout
        · exact absurd (hunique q l hq he hl) hqp
  have hfrees : w.frees = 0 := by
    by_contra h0
    have hout := (h.gone h0).2.2 p
    rw [hp] at hout
    cases hout
  have honly : ∀ {q l}, pl' q = some l → q = p ∧ l = .closeFree := by
    intro q l hq
    by_cases hqp : q = p
    · rw [hqp, hp'] at hq
      exact ⟨hqp, (Option.some.inj hq).symm⟩
    · rw [halone q hqp] at hq
      cases hq
  constructor
  · intro q l₁ e hq hu
    rw [(honly hq).2] at hu
    exact hu.elim
  · intro q l₁ e hq hc
    rw [(honly hq).2] at hc
    exact hc.elim
  · intro q q' l₁ l₂ e hq hc
    rw [(honly hq).2] at hc
    exact hc.elim
  · intro e
    rw [hclosed e, (h.closed (hclosed e)).1]
    constructor
    · intro hf
      cases hf
    · rintro (h1 | ⟨q, l₁, h1, h2⟩)
      · exact absurd rfl h1
      · rw [(honly h1).2] at h2
        exact h2.elim
  · intro _
    exact .inr ⟨p, _, hp', trivial⟩
  · intro q hq
    rw [(honly hq).1]
    exact ⟨hfrees, hclosed, halone⟩
  · intro h0
    exact absurd hfrees h0

/-- `kfree`. -/
theorem kfree (h : Life w pl) (hp : pl p = some .closeFree) (hp' : pl' p = none) (hne : ∀ q, q ≠ p → pl' q = pl q) :
    Life { w with frees := w.frees + 1 } pl' := by
  obtain ⟨hfrees, hclosed, halone⟩ := h.last hp
  have hout : ∀ q, pl' q = none := by
    intro q
    by_cases hqp : q = p
    · rw [hqp, hp']
    · rw [hne q hqp, halone q hqp]
  have hno : ∀ {q l}, pl' q ≠ some l := by
    intro q l hq
    rw [hout q] at hq
    cases hq
  have hone : w.frees + 1 = 1 := by omega
  constructor
  · intro q l₁ e hq _
    exact absurd hq hno
  · intro q l₁ e hq _
    exact absurd hq hno
  · intro q q' l₁ l₂ e hq _ _ _
    exact absurd hq hno
  · intro e
    show w.pipe.opened e = true ↔ w.holders e ≠ 0 ∨ _
    rw [hclosed e, (h.closed (hclosed e)).1]
    constructor
    · intro hf
      cases hf
    · rintro (h1 | ⟨q, l₁, h1, -⟩)
      · exact absurd rfl h1
      · exact absurd h1 hno
  · intro _
    exact .inl hone
  · intro q hq
    exact absurd hq hno
  · intro _
    exact ⟨hone, hclosed, hout⟩

end Life

/-! ## The steps -/

variable [DecidableEq P] {s s' : State P} {e : Event P}

/-- The places of the processes. -/
def places (s : State P) (p : P) : Option Label := (s.ctl p).place

/-- What the action of a place does to the data, and where it leads. -/
theorem effect_code {p : P} {k : Bool} {w d : World P} {l : Label} {o : Option Label}
    (h : Monitor.effect w ((pipe P).act p k w l) = some (d, o)) :
    w.frees = 0 ∧ Monitor.effect w (code p k w l) = some (d, o) := by
  simp only [pipe] at h
  split at h
  · rename_i h0
    exact ⟨h0, h⟩
  · cases h

/-- **The branches of the code**: where a place leads to, and when. -/
inductive Leads (k : Bool) (w : World P) : Label → Option Label → Prop
  | readAcquire n : Leads k w (.readAcquire n) (some (.readTest n))
  | readKilled {n ret} (h : w.pipe.Empty ∧ w.pipe.writeopen = true) (hk : k = true) (hret : ret = -1) :
    Leads k w (.readTest n) (some (.readRelease n [] ret))
  | readWait {n} (h : w.pipe.Empty ∧ w.pipe.writeopen = true) (hk : k = false) :
    Leads k w (.readTest n) (some (.readSleep n))
  | readStart {n} (h : ¬ (w.pipe.Empty ∧ w.pipe.writeopen = true)) : Leads k w (.readTest n) (some (.readCopy n []))
  | readSleep n : Leads k w (.readSleep n) (some (.readTest n))
  | readOne {n acc acc'} (hacc : acc' = acc ++ [w.pipe.front]) (h : acc.length < n ∧ ¬ w.pipe.Empty) :
    Leads k w (.readCopy n acc) (some (.readCopy n acc'))
  | readStop {n acc} (h : ¬ (acc.length < n ∧ ¬ w.pipe.Empty)) :
    Leads k w (.readCopy n acc) (some (.readWakeup n acc))
  | readWakeup {n acc ret} (hret : ret = (acc.length : ℤ)) :
    Leads k w (.readWakeup n acc) (some (.readRelease n acc ret))
  | readRelease n acc ret : Leads k w (.readRelease n acc ret) none
  | writeAcquire addr : Leads k w (.writeAcquire addr) (some (.writeLoop addr 0))
  | writeStop {addr i} (h : addr[i]? = none) : Leads k w (.writeLoop addr i) (some (.writeWakeup addr))
  | writeBroken {addr i ret} (hfull : w.pipe.Full) (h : w.pipe.readopen = false ∨ k = true) (hret : ret = -1) :
    Leads k w (.writeLoop addr i) (some (.writeRelease addr i ret))
  | writeWait {addr i} (hfull : w.pipe.Full) (h : ¬ (w.pipe.readopen = false ∨ k = true)) :
    Leads k w (.writeLoop addr i) (some (.writeFull addr i))
  | writeOne {addr i b} (hb : addr[i]? = some b) (hfull : ¬ w.pipe.Full) :
    Leads k w (.writeLoop addr i) (some (.writeLoop addr (i + 1)))
  | writeFull addr i : Leads k w (.writeFull addr i) (some (.writeSleep addr i))
  | writeSleep addr i : Leads k w (.writeSleep addr i) (some (.writeLoop addr i))
  | writeWakeup {addr ret} (hret : ret = (addr.length : ℤ)) :
    Leads k w (.writeWakeup addr) (some (.writeRelease addr addr.length ret))
  | writeRelease addr i ret : Leads k w (.writeRelease addr i ret) none
  | closeAcquire e : Leads k w (.closeAcquire e) (some (.closeMark e))
  | closeMark e : Leads k w (.closeMark e) (some (.closeWakeup e))
  | closeWakeup e : Leads k w (.closeWakeup e) (some .closeTest)
  | closeLast (h : w.pipe.readopen = false ∧ w.pipe.writeopen = false) : Leads k w .closeTest (some .closeFree)
  | closeFirst (h : ¬ (w.pipe.readopen = false ∧ w.pipe.writeopen = false)) : Leads k w .closeTest none
  | closeFree : Leads k w .closeFree none

omit [DecidableEq P] in
theorem effect_leads {p : P} {k : Bool} {w d : World P} {l : Label} {o : Option Label}
    (ha : Monitor.effect w (code p k w l) = some (d, o)) : Leads k w l o := by
  cases l with
  | readAcquire n => cases ha; exact .readAcquire n
  | readTest n =>
    simp only [code] at ha
    split at ha
    · rename_i h
      split at ha
      · rename_i hk
        cases ha
        exact .readKilled h hk rfl
      · rename_i hk
        cases ha
        exact .readWait h (by simpa using hk)
    · rename_i h
      cases ha
      exact .readStart h
  | readSleep n => cases ha; exact .readSleep n
  | readCopy n acc =>
    simp only [code] at ha
    split at ha
    · rename_i h
      cases ha
      exact .readOne rfl h
    · rename_i h
      cases ha
      exact .readStop h
  | readWakeup n acc => cases ha; exact .readWakeup rfl
  | readRelease n acc ret => cases ha; exact .readRelease n acc ret
  | writeAcquire addr => cases ha; exact .writeAcquire addr
  | writeLoop addr i =>
    simp only [code] at ha
    split at ha
    · rename_i h
      cases ha
      exact .writeStop h
    · rename_i b hb
      split at ha
      · rename_i hfull
        split at ha
        · rename_i h
          cases ha
          exact .writeBroken hfull h rfl
        · rename_i h
          cases ha
          exact .writeWait hfull h
      · rename_i hfull
        cases ha
        exact .writeOne hb hfull
  | writeFull addr i => cases ha; exact .writeFull addr i
  | writeSleep addr i => cases ha; exact .writeSleep addr i
  | writeWakeup addr => cases ha; exact .writeWakeup rfl
  | writeRelease addr i ret => cases ha; exact .writeRelease addr i ret
  | closeAcquire e => cases ha; exact .closeAcquire e
  | closeMark e => cases ha; exact .closeMark e
  | closeWakeup e => cases ha; exact .closeWakeup e
  | closeTest =>
    simp only [code] at ha
    split at ha
    · rename_i h
      cases ha
      exact .closeLast h
    · rename_i h
      cases ha
      exact .closeFirst h
  | closeFree => cases ha; exact .closeFree

/-- Readers sleep on `nread`, writers on `nwrite`, and test again when they go on. -/
def Fits : Chan → Label → Prop
  | .nread, l => ∃ n, l = .readTest n
  | .nwrite, l => ∃ addr i, l = .writeLoop addr i

theorem pipe_sleep {p : P} {k : Bool} {w : World P} {l l' : Label} {c : Chan}
    (h : (pipe P).act p k w l = .sleep c l') : (∃ n, l = .readSleep n ∧ c = .nread ∧ l' = .readTest n) ∨
      ∃ addr i, l = .writeSleep addr i ∧ c = .nwrite ∧ l' = .writeLoop addr i := by
  obtain ⟨-, h⟩ := act_code h (by simp)
  cases l with
  | readSleep n =>
    cases h
    exact .inl ⟨n, rfl, rfl, rfl⟩
  | writeSleep addr i =>
    cases h
    exact .inr ⟨addr, i, rfl, rfl, rfl⟩
  | readTest n =>
    simp only [code] at h
    split at h
    · split at h <;> cases h
    · cases h
  | readCopy n acc =>
    simp only [code] at h
    split at h <;> cases h
  | writeLoop addr i =>
    simp only [code] at h
    split at h
    · cases h
    · split at h
      · split at h <;> cases h
      · cases h
  | closeTest =>
    simp only [code] at h
    split at h <;> cases h
  | _ => cases h

theorem sleep_fits (p : P) (k : Bool) (w : World P) (l : Label) (c : Chan) (l' : Label)
    (h : (pipe P).act p k w l = .sleep c l') : Fits c l' := by
  rcases pipe_sleep h with ⟨n, -, rfl, rfl⟩ | ⟨addr, i, -, rfl, rfl⟩
  · exact ⟨n, rfl⟩
  · exact ⟨addr, i, rfl⟩

omit [DecidableEq P] in
/-- A process at a place where nobody sleeps is running. -/
theorem go_of_place (hS : Monitor.Sleepers Fits s) {p : P} {l : Label} (hp : places s p = some l)
    (hread : ∀ n, l ≠ .readTest n) (hwrite : ∀ addr i, l ≠ .writeLoop addr i) : s.ctl p = .go l := by
  have hno : ∀ c, ¬ Fits c l := by
    intro c hf
    cases c with
    | nread =>
      obtain ⟨n, hl⟩ := hf
      exact hread n hl
    | nwrite =>
      obtain ⟨addr, i, hl⟩ := hf
      exact hwrite addr i hl
  unfold places at hp
  cases hx : s.ctl p with
  | out => rw [hx] at hp; cases hp
  | go l₁ =>
    rw [hx] at hp
    cases hp
    rfl
  | asleep c l₁ =>
    rw [hx] at hp
    cases hp
    exact absurd (hS.asleep p c l hx) (hno c)
  | woken l₁ =>
    rw [hx] at hp
    cases hp
    obtain ⟨c, hf⟩ := hS.woken p l hx
    exact absurd hf (hno c)

/-- A call, up to the functions of the pipe. -/
theorem Life.call (h : Life s.data (places s)) {p : P} {r : Req P} {d : World P} {o : Option Label}
    (hp : places s p = none) (hr : call p r s.data = some (d, o)) (ho : places s' p = o)
    (hne : ∀ q, q ≠ p → places s' q = places s q) : Life d (places s') := by
  have hsame : o = none → places s' = places s := by
    rintro rfl
    funext q
    by_cases hq : q = p
    · rw [hq, ho, hp]
    · exact hne q hq
  cases r with
  | read n =>
    simp only [Pipes.call] at hr
    split at hr
    · rename_i hmem
      cases hr
      exact h.enter (e := .read) hmem hp ho hne (fun e he => he) (fun e hc => hc) (by simp)
    · cases hr
  | write addr =>
    simp only [Pipes.call] at hr
    split at hr
    · rename_i hmem
      cases hr
      exact h.enter (e := .write) hmem hp ho hne (fun e he => he) (fun e hc => hc) (by simp)
    · cases hr
  | filedup e q =>
    simp only [Pipes.call] at hr
    split at hr
    · rename_i hmem
      cases hr
      rw [hsame rfl]
      exact h.hold hmem (Multiset.cons_ne_zero) fun q' l hq' hu => Multiset.mem_cons_of_mem (h.uses hq' hu)
    · cases hr
  | fileclose e =>
    simp only [Pipes.call] at hr
    split at hr
    · rename_i hmem
      by_cases hlast : (s.data.holders e).erase p = 0
      · rw [if_pos hlast] at hr
        cases hr
        rw [hlast]
        exact h.closeLast hmem hlast hp ho hne
      · rw [if_neg hlast] at hr
        cases hr
        rw [hsame rfl]
        refine h.hold hmem hlast fun q l hq hu => ?_
        -- the caller is in no call itself
        have hqp : q ≠ p := by
          rintro rfl
          rw [hp] at hq
          cases hq
        exact (Multiset.mem_erase_of_ne hqp).2 (h.uses hq hu)
    · cases hr

/-- An action of the code. -/
theorem Life.code (h : Life s.data (places s)) (hL : Monitor.Locked Label.Inside s) (hS : Monitor.Sleepers Fits s)
    {p : P} {k : Bool} {l : Label} {d : World P} {o : Option Label} (hgo : s.ctl p = .go l)
    (ha : Monitor.effect s.data (code p k s.data l) = some (d, o)) (ho : places s' p = o)
    (hne : ∀ q, q ≠ p → places s' q = places s q) : Life d (places s') := by
  have hp : places s p = some l := by
    unfold places
    rw [hgo]
    rfl
  cases l with
  | closeMark e =>
    cases ha
    exact h.mark hp ho hne
  | closeTest =>
    simp only [Pipes.code] at ha
    split at ha
    · rename_i hclosed
      cases ha
      refine h.ready hp (fun e => ?_) (fun q l hq hends hl => ?_) ho hne
      · cases e
        · exact hclosed.1
        · exact hclosed.2
      · -- the others that end have the lock
        have hq' : s.ctl q = .go l := by
          refine go_of_place hS hq ?_ ?_
          · rintro n rfl
            exact hends
          · rintro addr i rfl
            exact hends
        refine hL.unique hq' ?_ hgo trivial
        cases l <;> trivial
    · rename_i hopen
      cases ha
      refine h.leave hp ho hne rfl rfl rfl (fun e => id) fun _ => ?_
      by_contra hno
      push Not at hno
      apply hopen
      exact ⟨by simpa [Pipe.opened] using hno .read, by simpa [Pipe.opened] using hno .write⟩
  | closeFree =>
    cases ha
    exact h.kfree hp ho hne
  | readTest n =>
    simp only [Pipes.code] at ha
    split at ha
    · split at ha <;> cases ha <;>
        exact h.move hp ho hne rfl rfl rfl (fun e => id) (fun e => Iff.rfl) id (by simp)
    · cases ha
      exact h.move hp ho hne rfl rfl rfl (fun e => id) (fun e => Iff.rfl) id (by simp)
  | readCopy n acc =>
    simp only [Pipes.code] at ha
    split at ha <;> cases ha
    · exact h.move hp ho hne rfl (by funext e; cases e <;> rfl) rfl (fun e => id) (fun e => Iff.rfl) id (by simp)
    · exact h.move hp ho hne rfl rfl rfl (fun e => id) (fun e => Iff.rfl) id (by simp)
  | writeLoop addr i =>
    simp only [Pipes.code] at ha
    split at ha
    · cases ha
      exact h.move hp ho hne rfl rfl rfl (fun e => id) (fun e => Iff.rfl) id (by simp)
    · split at ha
      · split at ha <;> cases ha <;>
          exact h.move hp ho hne rfl rfl rfl (fun e => id) (fun e => Iff.rfl) id (by simp)
      · cases ha
        exact h.move hp ho hne rfl (by funext e; cases e <;> rfl) rfl (fun e => id) (fun e => Iff.rfl) id (by simp)
  | readRelease n acc ret =>
    cases ha
    exact h.leave hp ho hne (by funext e; cases e <;> rfl) rfl rfl (fun e => id) fun hf => hf.elim
  | writeRelease addr i ret =>
    cases ha
    exact h.leave hp ho hne (by funext e; cases e <;> rfl) rfl rfl (fun e => id) fun hf => hf.elim
  | closeWakeup e =>
    cases ha
    exact h.move hp ho hne rfl rfl rfl (fun e => id) (fun e => Iff.rfl) id (by simp)
  | closeAcquire e =>
    cases ha
    exact h.move hp ho hne rfl rfl rfl (fun e => id) (fun e => Iff.rfl) id (by simp)
  | _ =>
    cases ha
    exact h.move hp ho hne rfl rfl rfl (fun e => id) (fun e => Iff.rfl) id (by simp)

theorem Life.step (h : Life s.data (places s)) (hL : Monitor.Locked Label.Inside s) (hS : Monitor.Sleepers Fits s)
    (hs : Monitor.View (pipe P) s s' e) : Life s'.data (places s') := by
  cases hs with
  | call hp hr hd ho hne =>
    rw [hd]
    refine h.call ?_ hr ho hne
    unfold places
    rw [hp]
    rfl
  | still hd hpl =>
    have hsame : places s' = places s := funext hpl
    rw [hd, hsame]
    exact h
  | act hp ha hd ho hne =>
    rw [hd]
    exact h.code hL hS hp (effect_code ha).2 ho hne

omit [DecidableEq P] in
theorem opened_life (p : P) (page : Fin PIPESIZE → Byte) : Life (opened p page).data (places (opened p page)) where
  uses hq _ := by cases hq
  closing hq _ := by cases hq
  one hq _ _ _ := by cases hq
  opened e := by cases e <;> simp [Pipes.opened, World.holders, Pipe.opened, pipealloc]
  shut ho := by cases ho .read
  last hq := by cases hq
  gone h0 := absurd rfl h0

variable {p₀ : P} {page : Fin PIPESIZE → Byte} {es : List (Event P)}

theorem life_run (h : (pipe P).machine.run (opened p₀ page) es = some (.ok s)) :
    Monitor.Locked Label.Inside s ∧ Monitor.Sleepers Fits s ∧ Life s.data (places s) := by
  have h0 := opened_fresh p₀ page
  refine Machine.run_inv (I := fun s => Monitor.Locked Label.Inside s ∧ Monitor.Sleepers Fits s ∧ Life s.data (places s))
    ⟨h0.locked, h0.sleepers, opened_life p₀ page⟩ ?_ h
  rintro s e s' ⟨hL, hS, hl⟩ hs
  have hstep := Monitor.step_ok hs
  exact ⟨hL.step pipe_bracketed hstep, hS.step sleep_fits hstep, hl.step hL hS hstep.view⟩

/-- **The page of a pipe is freed once, after everybody is done with it.** -/
theorem page_freed_once (p₀ : P) (page : Fin PIPESIZE → Byte) (es : List (Event P)) :
    (∀ f, (pipe P).machine.run (opened p₀ page) es ≠ some (.error f)) ∧
    ∀ s, (pipe P).machine.run (opened p₀ page) es = some (.ok s) →
      s.data.frees ≤ 1 ∧
      (s.data.frees = 1 ↔ s.data.readers = 0 ∧ s.data.writers = 0 ∧ ∀ q, s.ctl q = .out) := by
  constructor
  · intro f hf
    obtain ⟨es', e, s, -, hrun, hstep⟩ := Machine.run_fault hf
    obtain ⟨hL, -, hl⟩ := life_run hrun
    obtain ⟨p, l, -, hp, ha⟩ := hL.fault pipe_bracketed hstep
    -- the process that meets the freed page would not be in the code
    have h0 : s.data.frees ≠ 0 := by
      intro h0
      simp only [pipe, h0, if_true] at ha
      exact code_ne_fault _ _ _ _ _ ha
    have hout := (hl.gone h0).2.2 p
    unfold places at hout
    rw [hp] at hout
    cases hout
  · intro s hs
    obtain ⟨-, -, hl⟩ := life_run hs
    refine ⟨?_, ?_, ?_⟩
    · by_cases h0 : s.data.frees = 0
      · omega
      · rw [(hl.gone h0).1]
    · intro h1
      obtain ⟨-, hclosed, hout⟩ := hl.gone (by rw [h1]; simp)
      exact ⟨(hl.closed (hclosed .read)).1, (hl.closed (hclosed .write)).1, fun q => Ctl.place_eq_none.1 (hout q)⟩
    · rintro ⟨hr, hw, hout⟩
      have hnone : ∀ q, places s q = none := fun q => Ctl.place_eq_none.2 (hout q)
      -- a flag that is up has a descriptor or a closer behind it
      have hclosed : ∀ e, s.data.pipe.opened e = false := by
        intro e
        by_contra ho
        rcases (hl.opened e).1 (by simpa using ho) with h1 | ⟨q, l, h1, -⟩
        · cases e
          · exact h1 hr
          · exact h1 hw
        · rw [hnone q] at h1
          cases h1
      rcases hl.shut hclosed with h1 | ⟨q, l, h1, -⟩
      · exact h1
      · rw [hnone q] at h1
        cases h1

end Xv6.Pipes
