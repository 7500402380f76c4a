import Xv6.Lwp.Model

/-!
# A `thread_join` for no thread

The loop of `thread_join` stops at a slot that has the tid and another parent, or that has exited. With
no such slot it goes to sleep, whether or not there is a thread that could end.

* `findJoin_none`, `findJoin_other`: what the loop of `thread_join` has seen when it ends.
* **`join_never_waits`**: when `thread_join` returns -1 for a tid that no LWP of the caller has.
-/

namespace Xv6.Lwp

variable {n : ℕ} {s : State n} {c : Fin n} {t : Table} {p q z : Slot} {f : Frame} {thread : ℕ}

/-- An LWP of `p` that is not joined yet. -/
def Table.Joinable (t : Table) (p : Slot) (thread : ℕ) (q : Slot) : Prop :=
  (t q).state ≠ .unused ∧ (t q).isThread = true ∧ (t q).tid = thread ∧ (t q).parent = some p

instance (t : Table) (p : Slot) (thread : ℕ) (q : Slot) : Decidable (t.Joinable p thread q) := by
  unfold Table.Joinable; infer_instance

/-- `thread_join` has returned -1. -/
def State.joinFailed (s : State n) (c : Fin n) : State n := { s with lock := none }.setFrame c .idle

/-- The slot has the tid, but belongs to somebody else. -/
def Table.Foreign (t : Table) (p : Slot) (thread : ℕ) (q : Slot) : Prop :=
  (t q).tid = thread ∧ (t q).parent ≠ some p

instance (t : Table) (p : Slot) (thread : ℕ) (q : Slot) : Decidable (t.Foreign p thread q) := by
  unfold Table.Foreign; infer_instance

/-- An exited child of `p` has the tid. -/
def Table.Exited (t : Table) (p : Slot) (thread : ℕ) (q : Slot) : Prop :=
  (t q).tid = thread ∧ (t q).parent = some p ∧ (t q).state = .zombie

instance (t : Table) (p : Slot) (thread : ℕ) (q : Slot) : Decidable (t.Exited p thread q) := by
  unfold Table.Exited; infer_instance

/-- A slot with the tid that belongs to somebody else comes before all exited children with the tid, or there are no
such children and the caller has been killed. -/
def Table.JoinFails (t : Table) (p : Slot) (thread : ℕ) : Prop :=
  (∃ q, t.Foreign p thread q ∧ ∀ z, z < q → ¬ t.Exited p thread z) ∨
    (t p).killed = true ∧ ∀ z, ¬ t.Exited p thread z

/-- Where the loop of `thread_join` stops. -/
theorem stops_iff (t : Table) (p : Slot) (thread : ℕ) (q : Slot) :
    ((t q).tid = thread ∧ ((t q).parent ≠ some p ∨ (t q).state = .zombie)) ↔
      t.Foreign p thread q ∨ t.Exited p thread q := by
  unfold Table.Foreign Table.Exited
  by_cases hpar : (t q).parent = some p
  · simp [hpar]
  · simp [hpar]

theorem findJoin_none (h : findJoin t p thread = none) (q : Slot) :
    ¬ t.Foreign p thread q ∧ ¬ t.Exited p thread q := by
  unfold findJoin at h
  rw [List.find?_eq_none] at h
  have hq := h q (List.mem_finRange q)
  rw [decide_eq_true_eq, stops_iff] at hq
  exact not_or.1 hq

/-- The slot where the loop stops, and those before it. -/
theorem findJoin_first (h : findJoin t p thread = some q) : (t.Foreign p thread q ∨ t.Exited p thread q) ∧
    ∀ z, z < q → ¬ t.Foreign p thread z ∧ ¬ t.Exited p thread z := by
  unfold findJoin at h
  obtain ⟨hq, i, hi, hget, hbefore⟩ := List.find?_eq_some_iff_getElem.1 h
  have hqi : q = ⟨i, by simpa using hi⟩ := by
    rw [← hget]
    simp
  refine ⟨(stops_iff t p thread q).1 (by simpa using hq), fun z hz => ?_⟩
  have hzi : z.val < i := by
    rw [hqi] at hz
    exact hz
  have hz' := hbefore z.val hzi
  rw [List.getElem_finRange] at hz'
  have hnot : ¬ (t.Foreign p thread z ∨ t.Exited p thread z) := by
    rw [← stops_iff]
    intro hstop
    have hfalse : (!decide ((t z).tid = thread ∧ ((t z).parent ≠ some p ∨ (t z).state = .zombie))) = true := hz'
    rw [decide_eq_true hstop] at hfalse
    cases hfalse
  exact not_or.1 hnot

theorem joinPass_joinFailed (s : State n) (c : Fin n) (p : Slot) (thread : ℕ) (hcpu : (s.cpu c).proc = some p) :
    s.joinPass c p thread = .ok (s.joinFailed c) ↔ s.proc.JoinFails p thread := by
  unfold State.joinPass
  cases hfind : findJoin s.proc p thread with
  | some q =>
    obtain ⟨hq, hbefore⟩ := findJoin_first hfind
    by_cases hpar : (s.proc q).parent = some p
    · -- an exited child is recovered
      have hexited : s.proc.Exited p thread q := hq.resolve_left fun hf => hf.2 hpar
      have hno : ¬ s.proc.JoinFails p thread := by
        rintro (⟨z, hz, hzbefore⟩ | ⟨-, hnone⟩)
        · rcases lt_trichotomy z q with hlt | rfl | hlt
          · exact (hbefore z hlt).1 hz
          · exact hz.2 hpar
          · exact hzbefore q hlt hexited
        · exact hnone q hexited
      refine iff_of_false ?_ hno
      dsimp only
      rw [if_neg (by simpa using hpar)]
      unfold recovery
      split
      · rintro ⟨⟩
      · intro h
        have htable : s.proc.upd q Proc.recovered = s.proc := congrArg State.proc (Except.ok.inj h)
        have hst := congrArg Proc.state (congrFun htable q)
        rw [hexited.2.2, Table.upd, Function.update_self] at hst
        cases hst
    · dsimp only
      rw [if_pos hpar]
      refine iff_of_true rfl (.inl ⟨q, ⟨?_, hpar⟩, fun z hz => (hbefore z hz).2⟩)
      rcases hq with hf | he
      · exact hf.1
      · exact he.1
  | none =>
    have hnone := findJoin_none hfind
    by_cases hkilled : (s.proc p).killed = true
    · rw [if_pos hkilled]
      exact iff_of_true rfl (.inr ⟨hkilled, fun z => (hnone z).2⟩)
    · rw [if_neg hkilled]
      -- the caller leaves the CPU
      refine iff_of_false (fun h => ?_) ?_
      · have hleft := congrArg (fun s => (s.cpu c).proc) (Except.ok.inj h)
        have hsleep : ((s.sleepOn c p (.join thread)).cpu c).proc = none := by
          show (Function.update s.cpu c { s.cpu c with proc := none, cr3 := none } c).proc = none
          rw [Function.update_self]
        have hstay : ((s.joinFailed c).cpu c).proc = some p := hcpu
        rw [hsleep, hstay] at hleft
        cases hleft
      · rintro (⟨z, hz, -⟩ | ⟨hk, -⟩)
        · exact (hnone z).1 hz
        · exact hkilled hk

/-- The pass of the loop, called or woken up. -/
theorem step_threadJoin (hcur : s.current c = some (p, f)) (hen : (step s (.threadJoin c thread)).isSome = true) :
    step s (.threadJoin c thread) = some (s.joinPass c p thread) ∧ (s.cpu c).proc = some p := by
  constructor
  · simp only [step, hcur] at hen ⊢
    split at hen
    · rename_i hready
      rw [if_pos hready]
    · cases hen
  · unfold State.current at hcur
    cases hp : (s.cpu c).proc with
    | none => rw [hp] at hcur; cases hcur
    | some q => rw [hp] at hcur; cases hcur; rfl

/-- With no LWP of the caller that has the tid and is not joined yet, `thread_join`, called or woken up, returns -1. -/
def NeverWaits (s : State n) (c : Fin n) (p : Slot) (thread : ℕ) : Prop :=
  (∀ q, ¬ s.proc.Joinable p thread q) → step s (.threadJoin c thread) = some (.ok (s.joinFailed c))

/-- **A `thread_join` for no thread** returns -1 if and only if there is such an LWP after all, or a slot with the tid
belongs to somebody else and comes before all exited children of the caller with the tid, or there are no such
children and the caller has been killed. -/
theorem join_never_waits (s : State n) (c : Fin n) (p : Slot) (f : Frame) (thread : ℕ)
    (hcur : s.current c = some (p, f)) (hen : (step s (.threadJoin c thread)).isSome = true) :
    NeverWaits s c p thread ↔ (∃ q, s.proc.Joinable p thread q) ∨ s.proc.JoinFails p thread := by
  obtain ⟨hstep, hcpu⟩ := step_threadJoin hcur hen
  unfold NeverWaits
  rw [hstep, Option.some.injEq, joinPass_joinFailed s c p thread hcpu]
  constructor
  · intro h
    by_cases hj : ∃ q, s.proc.Joinable p thread q
    · exact .inl hj
    · exact .inr (h (not_exists.1 hj))
  · rintro (⟨q, hq⟩ | hfails) hnone
    · exact absurd hq (hnone q)
    · exact hfails

/-- Init waits for the LWP 0: its own slot has this tid, and no parent. -/
theorem join_never_waits_zero : ∃ s, (machine 1).run (boot 1) [.sched 0 0] = some (.ok s) ∧ NeverWaits s 0 0 0 := by
  obtain ⟨s, hr, hcur, hen, hfails⟩ : ∃ s, (machine 1).run (boot 1) [.sched 0 0] = some (.ok s) ∧
      s.current 0 = some (0, .idle) ∧ (step s (.threadJoin 0 0)).isSome = true ∧ s.proc.Foreign 0 0 0 :=
    Machine.run_of_reaches (by decide)
  refine ⟨s, hr, (join_never_waits s 0 0 .idle 0 hcur hen).2 (.inr (.inl ⟨0, hfails, fun z hz => ?_⟩))⟩
  exact absurd hz (Fin.not_lt_zero z)

/-- **Init waits for an LWP that was never created**, and sleeps. -/
theorem join_waits_forever : ∃ s, (machine 1).run (boot 1) [.sched 0 0] = some (.ok s) ∧
    ¬ NeverWaits s 0 0 7 ∧ ∃ s', (machine 1).run (boot 1) [.sched 0 0, .threadJoin 0 7] = some (.ok s') ∧
      (s'.proc 0).state = .sleeping := by
  obtain ⟨s, hr, hcur, hen, hnone⟩ : ∃ s, (machine 1).run (boot 1) [.sched 0 0] = some (.ok s) ∧
      s.current 0 = some (0, .idle) ∧ (step s (.threadJoin 0 7)).isSome = true ∧
      (s.proc 0).killed = false ∧ ∀ q, (s.proc q).tid ≠ 7 := Machine.run_of_reaches (by decide)
  refine ⟨s, hr, fun h => ?_, Machine.run_of_reaches (by decide)⟩
  obtain ⟨hstep, hcpu⟩ := step_threadJoin hcur hen
  have hfailed := h fun q hq => hnone.2 q hq.2.2.1
  rw [hstep, Option.some.injEq, joinPass_joinFailed s 0 0 7 hcpu] at hfailed
  rcases hfailed with ⟨q, hq, -⟩ | ⟨hk, -⟩
  · exact hnone.2 q hq.1
  · rw [hnone.1] at hk
    cases hk

end Xv6.Lwp
