import Xv6.Smp.Model

/-!
# `tickslock` and `ptable.lock`

`wakeup` in the timer interrupt and in `schedulerLock`, and `sleep` in `sys_sleep`, take `ptable.lock` under
`tickslock`; `boostPr` takes `tickslock` under `ptable.lock`.

* `fits`, `Disciplined`: the code that a CPU has left to run takes and releases its locks in pairs.
* `no_panic`: no panic of `acquire`, `release` and `sched` is reachable.
* `Apart`: no boost waits for `tickslock` while its holder is bound for `ptable.lock`.
* **`no_deadlock`**: then no deadlock of the two locks is reachable.
* **`tick_meets_boost`**: two CPUs deadlock.
-/

namespace Xv6.Smp

open Xv6.Mlfq (Slot)

variable {n : ℕ} {s s' : State n} {c c' a b : Fin n} {ops : List Op}

/-! ## The locks that a CPU holds -/

/-- The code can run with the given locks held, `ptable.lock` and `tickslock`. -/
def fits : Bool → Bool → List Op → Bool
  | pt, t, [] => !pt && !t
  | pt, t, .acquire .ptable :: ops => !pt && fits true t ops
  | pt, t, .acquire .ticks :: ops => !t && fits pt true ops
  | pt, t, .release .ptable :: ops => pt && fits false t ops
  | pt, t, .release .ticks :: ops => t && fits pt false ops
  | pt, t, .tick :: ops | pt, t, .reset :: ops => t && fits pt t ops
  | pt, t, .test :: ops | pt, t, .create _ :: ops => pt && !t && fits pt t ops
  | pt, t, .dispatch _ :: ops | pt, t, .sched :: ops => pt && !t && fits true false ops
  | pt, t, .lockLoop :: ops | pt, t, .lockTest :: ops | pt, t, .mlfq :: ops => pt && !t && ops.isEmpty
  | pt, t, .stop :: _ => pt && !t
  | pt, t, .sleepLoop :: ops => !pt && t && fits false false ops
  | pt, t, .waitLoop :: ops => pt && !t && fits false false ops
  | pt, t, .iret :: ops => !pt && !t && fits false false ops

def State.fits (s : State n) (c : Fin n) (ops : List Op) : Prop :=
  Smp.fits (decide (s.owner .ptable = some c)) (decide (s.owner .ticks = some c)) ops = true

theorem fits_only (h : s.only c) (ops : List Op) : s.fits c ops ↔ fits true false ops = true := by
  unfold State.fits
  rw [decide_eq_true h.1, decide_eq_false h.2]

theorem fits_sti (h : s.sti c) (ops : List Op) : s.fits c ops ↔ fits false false ops = true := by
  unfold State.fits
  rw [decide_eq_false (h.2.1 .ptable), decide_eq_false (h.2.1 .ticks)]

theorem only_iff : (decide (s.owner .ptable = some c) && !decide (s.owner .ticks = some c)) = true ↔ s.only c := by
  simp [State.only]

/-- The locks of every CPU are those that its code counts on, who waits is in `acquire`, and who is off the
CPU comes back with `ptable.lock`. -/
structure Disciplined (s : State n) : Prop where
  todo : ∀ c, s.fits c (s.todo c)
  spin : ∀ c, s.waiting c = true → ∃ l ops, s.todo c = .acquire l :: ops
  saved : ∀ p k, s.saved p = some k → fits true false k = true
  context : ∀ c p, s.cur c = some p → fits true false (s.context c) = true

/-- A step of CPU `c`. -/
theorem Disciplined.keep (h : Disciplined s) (c : Fin n) (hother : ∀ c', c' ≠ c → s'.todo c' = s.todo c')
    (hwaiting : ∀ c', c' ≠ c → s'.waiting c' = s.waiting c')
    (howner : ∀ c', c' ≠ c → ∀ l, s'.owner l = some c' ↔ s.owner l = some c') (hself : s'.fits c (s'.todo c))
    (hspin : s'.waiting c = true → ∃ l ops, s'.todo c = .acquire l :: ops)
    (hsaved : ∀ p k, s'.saved p = some k → fits true false k = true)
    (hcontext : ∀ c' p, s'.cur c' = some p → fits true false (s'.context c') = true) : Disciplined s' := by
  refine ⟨fun c' => ?_, fun c' hw => ?_, hsaved, hcontext⟩
  · by_cases hc : c' = c
    · rw [hc]
      exact hself
    · have hold := h.todo c'
      unfold State.fits at hold ⊢
      rw [hother c' hc]
      simp only [howner c' hc]
      exact hold
  · by_cases hc : c' = c
    · rw [hc] at hw ⊢
      exact hspin hw
    · rw [hwaiting c' hc] at hw
      rw [hother c' hc]
      exact h.spin c' hw

/-- A CPU that is not in `acquire` does not wait. -/
theorem Disciplined.calm (h : Disciplined s) {op : Op} (htodo : s.todo c = op :: ops)
    (hop : ∀ l, op ≠ .acquire l) : s.waiting c = false := by
  cases hw : s.waiting c with
  | false => rfl
  | true =>
    obtain ⟨l, ops', h'⟩ := h.spin c hw
    rw [htodo] at h'
    cases h'
    exact absurd rfl (hop l)

theorem setTodo_self (s : State n) (c : Fin n) (ops : List Op) : (s.setTodo c ops).todo c = ops :=
  Function.update_self ..

theorem setTodo_ne (s : State n) (ops : List Op) (h : c' ≠ c) : (s.setTodo c ops).todo c' = s.todo c' :=
  Function.update_of_ne h ..

theorem Disciplined.user (h : Disciplined s) (htodo : s.todo c = []) : s.waiting c = false := by
  cases hw : s.waiting c with
  | false => rfl
  | true =>
    obtain ⟨l, ops, h'⟩ := h.spin c hw
    rw [htodo] at h'
    cases h'

/-- A step that only replaces the code of `c`. -/
theorem Disciplined.setTodo (h : Disciplined s) (hops : s.fits c ops) (hw : s.waiting c = false) :
    Disciplined (s.setTodo c ops) := by
  refine h.keep c (fun c' hc => setTodo_ne s ops hc) (fun _ _ => rfl) (fun c' _ l => Iff.rfl) ?_ (fun h' => ?_)
    h.saved h.context
  · rw [setTodo_self]
    exact hops
  · exact absurd (hw.symm.trans h') (by simp)

/-! ## What an operation does -/

/-- The ways in which the next operation of `c` takes `s` to `s'`. -/
inductive Exec (s : State n) (c : Fin n) : State n → Prop
  | spin (l : Lock) (ops : List Op) (htodo : s.todo c = .acquire l :: ops) (hw : s.waiting c = false)
    (hown : s.owner l ≠ some c) : Exec s c { s with waiting := Function.update s.waiting c true }
  | take (l : Lock) (ops : List Op) (htodo : s.todo c = .acquire l :: ops) (hw : s.waiting c = true)
    (hfree : s.owner l = none) : Exec s c ({ s with
      owner := Function.update s.owner l (some c)
      waiting := Function.update s.waiting c false }.setTodo c ops)
  | release (l : Lock) (ops : List Op) (htodo : s.todo c = .release l :: ops) (hown : s.owner l = some c) :
    Exec s c ({ s with owner := Function.update s.owner l none }.setTodo c ops)
  | tick (ops : List Op) (htodo : s.todo c = .tick :: ops) :
    Exec s c ({ s with ticks := s.ticks + 1 }.setTodo c ops)
  | reset (ops : List Op) (htodo : s.todo c = .reset :: ops) : Exec s c ({ s with ticks := 0 }.setTodo c ops)
  | test (ops new : List Op) (htodo : s.todo c = .test :: ops) (hnew : new = boostPr ++ ops ∨ new = ops) :
    Exec s c (s.setTodo c new)
  | lockTest (ops new : List Op) (htodo : s.todo c = .lockTest :: ops)
    (hnew : new = boostPr ++ [.mlfq] ∨ new = [.lockLoop]) : Exec s c (s.setTodo c new)
  | dispatch (p : Slot) (ops k : List Op) (htodo : s.todo c = .dispatch p :: ops) (hsaved : s.saved p = some k) :
    Exec s c ({ s with
      cur := Function.update s.cur c (some p)
      context := Function.update s.context c ops
      saved := Function.update s.saved p none }.setTodo c k)
  | sched (p : Slot) (ops : List Op) (htodo : s.todo c = .sched :: ops) (hcur : s.cur c = some p)
    (honly : s.only c) : Exec s c ({ s with
      cur := Function.update s.cur c none
      saved := Function.update s.saved p (some ops) }.setTodo c (s.context c))
  | stop (p : Slot) (ops : List Op) (htodo : s.todo c = .stop :: ops) (hcur : s.cur c = some p)
    (honly : s.only c) : Exec s c ({ s with cur := Function.update s.cur c none }.setTodo c (s.context c))
  | create (np : Slot) (ops : List Op) (htodo : s.todo c = .create np :: ops) :
    Exec s c ({ s with saved := Function.update s.saved np (some forkret) }.setTodo c ops)
  | iret (ops : List Op) (htodo : s.todo c = .iret :: ops) : Exec s c (s.setTodo c ops)

theorem exec_cases (h : s.exec c = some (.ok s')) : Exec s c s' := by
  unfold State.exec at h
  split at h
  · rename_i l ops htodo
    split at h
    · rename_i hw
      split at h
      · rename_i hfree
        cases h
        exact .take l ops htodo hw hfree
      · cases h
    · rename_i hw
      split at h
      · cases h
      · rename_i hown
        cases h
        exact .spin l ops htodo (by simpa using hw) hown
  · rename_i l ops htodo
    split at h
    · rename_i hown
      cases h
      exact .release l ops htodo hown
    · cases h
  · rename_i ops htodo
    cases h
    exact .tick ops htodo
  · rename_i ops htodo
    cases h
    exact .reset ops htodo
  · rename_i ops htodo
    cases h
    refine .test ops _ htodo ?_
    split
    · exact .inl rfl
    · exact .inr rfl
  · rename_i ops htodo
    cases h
    refine .lockTest ops _ htodo ?_
    split
    · exact .inl rfl
    · exact .inr rfl
  · rename_i p ops htodo
    split at h
    · rename_i k hk
      cases h
      exact .dispatch p ops k htodo hk
    · cases h
  · rename_i ops htodo
    split at h
    · rename_i p hp
      split at h
      · rename_i honly
        cases h
        exact .sched p ops htodo hp honly
      · cases h
    · cases h
  · rename_i ops htodo
    split at h
    · rename_i p hp
      split at h
      · rename_i honly
        cases h
        exact .stop p ops htodo hp honly
      · cases h
    · cases h
  · rename_i np ops htodo
    split at h
    · cases h
      exact .create np ops htodo
    · cases h
  · rename_i ops htodo
    cases h
    exact .iret ops htodo
  · cases h

/-- Only CPU `c` has taken or released the lock. -/
theorem owner_other {l : Lock} {v : Option (Fin n)} (hold : s.owner l = none ∨ s.owner l = some c)
    (hv : v = none ∨ v = some c) (hc : c' ≠ c) (l' : Lock) :
    Function.update s.owner l v l' = some c' ↔ s.owner l' = some c' := by
  have hne : ∀ {w : Option (Fin n)}, w = none ∨ w = some c → w ≠ some c' := by
    rintro w (rfl | rfl) h
    · cases h
    · exact hc (Option.some.inj h).symm
  rw [Function.update_apply]
  split
  · rename_i hl
    subst hl
    exact ⟨fun h => absurd h (hne hv), fun h => absurd h (hne hold)⟩
  · rfl

/-- **The next operation** of a CPU keeps the locks and the code together. -/
theorem disciplined_exec (h : Disciplined s) (hs : Exec s c s') : Disciplined s' := by
  have hc := h.todo c
  unfold State.fits at hc
  have hcalm : ∀ {op : Op} {ops : List Op} {P : Prop}, s.todo c = op :: ops →
      (∀ l, op ≠ .acquire l) → s.waiting c = true → P := by
    intro op ops P htodo hop hw
    exact absurd ((h.calm htodo hop).symm.trans hw) (by simp)
  cases hs with
  | spin l ops htodo hw hown =>
    exact h.keep c (fun _ _ => rfl) (fun c' hc' => Function.update_of_ne hc' ..) (fun _ _ _ => Iff.rfl)
      (h.todo c) (fun _ => ⟨l, ops, htodo⟩) h.saved h.context
  | take l ops htodo hw hfree =>
    refine h.keep c (fun c' hc' => setTodo_ne _ ops hc') (fun c' hc' => Function.update_of_ne hc' ..)
      (fun c' hc' => owner_other (.inl hfree) (.inr rfl) hc') ?_ (fun hw' => ?_) h.saved h.context
    swap
    · exact absurd ((Function.update_self ..).symm.trans hw') (by simp)
    rw [htodo] at hc
    unfold State.fits
    rw [setTodo_self]
    cases l with
    | ptable => simpa [fits, hfree, State.setTodo] using hc
    | ticks => simpa [fits, hfree, State.setTodo] using hc
  | release l ops htodo hown =>
    refine h.keep c (fun c' hc' => setTodo_ne _ ops hc') (fun _ _ => rfl)
      (fun c' hc' => owner_other (.inr hown) (.inl rfl) hc') ?_ (hcalm htodo (by simp)) h.saved h.context
    rw [htodo] at hc
    unfold State.fits
    rw [setTodo_self]
    cases l with
    | ptable => simpa [fits, hown, State.setTodo] using hc
    | ticks => simpa [fits, hown, State.setTodo] using hc
  | tick ops htodo =>
    rw [htodo] at hc
    simp only [fits, Bool.and_eq_true] at hc
    exact h.keep c (fun c' hc' => setTodo_ne _ ops hc') (fun _ _ => rfl) (fun _ _ _ => Iff.rfl)
      (by rw [setTodo_self]; exact hc.2) (hcalm htodo (by simp)) h.saved h.context
  | reset ops htodo =>
    rw [htodo] at hc
    simp only [fits, Bool.and_eq_true] at hc
    exact h.keep c (fun c' hc' => setTodo_ne _ ops hc') (fun _ _ => rfl) (fun _ _ _ => Iff.rfl)
      (by rw [setTodo_self]; exact hc.2) (hcalm htodo (by simp)) h.saved h.context
  | test ops new htodo hnew =>
    rw [htodo, fits, Bool.and_eq_true, only_iff] at hc
    refine h.setTodo ?_ (h.calm htodo (by simp))
    rw [fits_only hc.1]
    have hops := (fits_only hc.1 ops).1 hc.2
    rcases hnew with rfl | rfl
    · exact hops
    · exact hops
  | lockTest ops new htodo hnew =>
    rw [htodo, fits, Bool.and_eq_true, only_iff] at hc
    refine h.setTodo ?_ (h.calm htodo (by simp))
    rw [fits_only hc.1]
    rcases hnew with rfl | rfl
    · rfl
    · rfl
  | dispatch p ops k htodo hsaved =>
    rw [htodo, fits, Bool.and_eq_true, only_iff] at hc
    refine h.keep c (fun c' hc' => setTodo_ne _ k hc') (fun _ _ => rfl) (fun _ _ _ => Iff.rfl) ?_
      (hcalm htodo (by simp)) (fun q k' hq => ?_) fun c' q hq => ?_
    · rw [setTodo_self]
      exact (fits_only hc.1 k).2 (h.saved p k hsaved)
    · have hq' : Function.update s.saved p none q = some k' := hq
      rw [Function.update_apply] at hq'
      split at hq'
      · cases hq'
      · exact h.saved q k' hq'
    · show fits true false (Function.update s.context c ops c') = true
      have hq' : Function.update s.cur c (some p) c' = some q := hq
      rw [Function.update_apply] at hq' ⊢
      split
      · exact hc.2
      · rename_i hne
        rw [if_neg hne] at hq'
        exact h.context c' q hq'
  | sched p ops htodo hcur honly =>
    rw [htodo, fits, Bool.and_eq_true] at hc
    refine h.keep c (fun c' hc' => setTodo_ne _ _ hc') (fun _ _ => rfl) (fun _ _ _ => Iff.rfl) ?_
      (hcalm htodo (by simp)) (fun q k hq => ?_) fun c' q hq => ?_
    · rw [setTodo_self]
      exact (fits_only honly _).2 (h.context c p hcur)
    · have hq' : Function.update s.saved p (some ops) q = some k := hq
      rw [Function.update_apply] at hq'
      split at hq'
      · cases hq'
        exact hc.2
      · exact h.saved q k hq'
    · have hq' : Function.update s.cur c none c' = some q := hq
      rw [Function.update_apply] at hq'
      split at hq'
      · cases hq'
      · exact h.context c' q hq'
  | stop p ops htodo hcur honly =>
    refine h.keep c (fun c' hc' => setTodo_ne _ _ hc') (fun _ _ => rfl) (fun _ _ _ => Iff.rfl) ?_
      (hcalm htodo (by simp)) h.saved fun c' q hq => ?_
    · rw [setTodo_self]
      exact (fits_only honly _).2 (h.context c p hcur)
    · have hq' : Function.update s.cur c none c' = some q := hq
      rw [Function.update_apply] at hq'
      split at hq'
      · cases hq'
      · exact h.context c' q hq'
  | create np ops htodo =>
    rw [htodo, fits, Bool.and_eq_true] at hc
    refine h.keep c (fun c' hc' => setTodo_ne _ _ hc') (fun _ _ => rfl) (fun _ _ _ => Iff.rfl) ?_
      (hcalm htodo (by simp)) (fun q k hq => ?_) h.context
    · rw [setTodo_self]
      exact hc.2
    · have hq' : Function.update s.saved np (some forkret) q = some k := hq
      rw [Function.update_apply] at hq'
      split at hq'
      · cases hq'
        rfl
      · exact h.saved q k hq'
  | iret ops htodo =>
    rw [htodo, fits, Bool.and_eq_true, Bool.and_eq_true] at hc
    refine h.setTodo ?_ (h.calm htodo (by simp))
    unfold State.fits
    rw [Bool.not_eq_true'] at hc
    rw [hc.1.1]
    simp only [Bool.not_eq_true'] at hc
    rw [hc.1.2]
    exact hc.2

/-- **No panic** of `acquire`, `release` and `sched`. -/
theorem exec_no_panic (h : Disciplined s) (f : Fault) : s.exec c ≠ some (.error f) := by
  intro hs
  have hc := h.todo c
  unfold State.fits at hc
  unfold State.exec at hs
  split at hs
  · rename_i l ops htodo
    rw [htodo] at hc
    split at hs
    · split at hs
      · cases hs
      · cases hs
    · split at hs
      · rename_i hown
        cases l with
        | ptable =>
          rw [fits, hown] at hc
          simp at hc
        | ticks =>
          rw [fits, hown] at hc
          simp at hc
      · cases hs
  · rename_i l ops htodo
    rw [htodo] at hc
    split at hs
    · cases hs
    · rename_i hown
      cases l with
      | ptable =>
        rw [fits, decide_eq_false hown] at hc
        simp at hc
      | ticks =>
        rw [fits, decide_eq_false hown] at hc
        simp at hc
  · cases hs
  · cases hs
  · cases hs
  · cases hs
  · split at hs
    · cases hs
    · cases hs
  · rename_i ops htodo
    rw [htodo, fits, Bool.and_eq_true, only_iff] at hc
    split at hs
    · split at hs
      · cases hs
      · rename_i hno
        exact hno hc.1
    · cases hs
  · rename_i ops htodo
    rw [htodo, fits, only_iff] at hc
    split at hs
    · split at hs
      · cases hs
      · rename_i hno
        exact hno hc
    · cases hs
  · split at hs
    · cases hs
    · cases hs
  · cases hs
  · cases hs

/-! ## Steps -/

theorem fits_next {pt t : Bool} {op : Op} {x : Choice} {new : List Op} (h : fits pt t (op :: ops) = true)
    (hx : op.next x = some new) : fits pt t (new ++ ops) = true := by
  cases op with
  | lockLoop =>
    simp only [fits, Bool.and_eq_true, Bool.not_eq_true', List.isEmpty_iff] at h
    obtain ⟨⟨rfl, rfl⟩, rfl⟩ := h
    cases x <;> cases hx <;> rfl
  | mlfq =>
    simp only [fits, Bool.and_eq_true, Bool.not_eq_true', List.isEmpty_iff] at h
    obtain ⟨⟨rfl, rfl⟩, rfl⟩ := h
    cases x <;> cases hx <;> rfl
  | sleepLoop =>
    simp only [fits, Bool.and_eq_true, Bool.not_eq_true'] at h
    obtain ⟨⟨rfl, rfl⟩, h⟩ := h
    cases x <;> cases hx <;> exact h
  | waitLoop =>
    simp only [fits, Bool.and_eq_true, Bool.not_eq_true'] at h
    obtain ⟨⟨rfl, rfl⟩, h⟩ := h
    cases x <;> cases hx <;> exact h
  | _ => cases hx

theorem fits_handler (hops : fits false false ops = true) (s : State n) (c : Fin n) (dead : Bool) :
    fits false false (s.handler c dead ++ ops) = true := by
  unfold State.handler
  split
  · split
    · cases dead with
      | false => exact hops
      | true => rfl
    · exact hops
  · split
    · cases dead with
      | false => exact hops
      | true => rfl
    · exact hops

/-- **Every step** keeps the locks and the code together. -/
theorem disciplined_step (h : Disciplined s) {e : Event n} (hs : step s e = some (.ok s')) : Disciplined s' := by
  cases e with
  | step c => exact disciplined_exec h (exec_cases hs)
  | choose c x =>
    simp only [step] at hs
    split at hs
    · rename_i op ops htodo
      have hc := h.todo c
      rw [htodo] at hc
      cases hx : op.next x with
      | none =>
        rw [hx] at hs
        cases hs
      | some new =>
        rw [hx] at hs
        cases hs
        refine h.setTodo (fits_next hc hx) (h.calm htodo fun l hl => ?_)
        rw [hl] at hx
        cases hx
    · cases hs
  | timer c dead =>
    simp only [step] at hs
    split at hs
    · rename_i hsti
      cases hs
      have hc := (fits_sti hsti.1 _).1 (h.todo c)
      exact h.setTodo ((fits_sti hsti.1 _).2 (fits_handler hc s c dead)) hsti.1.1
    · cases hs
  | irq c =>
    simp only [step] at hs
    split at hs
    · rename_i hsti
      cases hs
      have hc := (fits_sti hsti _).1 (h.todo c)
      exact h.setTodo ((fits_sti hsti _).2 hc) hsti.1
    · cases hs
  | call c x =>
    simp only [step] at hs
    split at hs
    · rename_i hu
      cases hs
      have hc := h.todo c
      rw [hu.2] at hc
      refine h.setTodo ?_ (h.user hu.2)
      unfold State.fits at hc ⊢
      rw [fits, Bool.and_eq_true, Bool.not_eq_true', Bool.not_eq_true'] at hc
      rw [hc.1, hc.2]
      cases x <;> rfl
    · cases hs

theorem disciplined_boot (n : ℕ) : Disciplined (boot n) := by
  refine ⟨fun c => rfl, fun c hw => (by cases hw), fun p k hk => ?_, fun c p hp => by cases hp⟩
  simp only [boot] at hk
  split at hk
  · cases hk
    rfl
  · cases hk

/-- **No panic of the locks** is reachable, on any number of CPUs. -/
theorem no_panic (es : List (Event n)) (f : Fault) : (machine n).run (boot n) es ≠ some (.error f) := by
  intro hr
  obtain ⟨es', e, s, rfl, h1, h2⟩ := Machine.run_fault hr
  have h : Disciplined s := Machine.run_inv (M := machine n) (disciplined_boot n)
    (fun _ _ _ hI hs => disciplined_step hI hs) h1
  have hs : step s e = some (.error f) := h2
  cases e with
  | step c => exact exec_no_panic h f hs
  | choose c x =>
    simp only [step] at hs
    split at hs
    · rename_i op ops htodo
      cases hx : op.next x with
      | none =>
        rw [hx] at hs
        cases hs
      | some new =>
        rw [hx] at hs
        cases hs
    · cases hs
  | timer c dead =>
    simp only [step] at hs
    split at hs
    · cases hs
    · cases hs
  | irq c =>
    simp only [step] at hs
    split at hs
    · cases hs
    · cases hs
  | call c x =>
    simp only [step] at hs
    split at hs
    · cases hs
    · cases hs

/-! ## The two orders -/

/-- The CPU spins in `acquire` of the lock. -/
def State.waits (s : State n) (c : Fin n) (l : Lock) : Prop :=
  s.waiting c = true ∧ (s.todo c).head? = some (.acquire l)

/-- The CPU waits in `boostPr` for `tickslock`, with `ptable.lock` held. -/
def Boosting (s : State n) (a : Fin n) : Prop := s.owner .ptable = some a ∧ s.waits a .ticks

/-- The code takes `ptable.lock` before it releases any lock. -/
def bound : List Op → Bool
  | .acquire .ptable :: _ => true
  | .tick :: ops | .reset :: ops => bound ops
  | _ => false

/-- The CPU holds `tickslock` and is bound for `ptable.lock`. -/
def Bound (s : State n) (b : Fin n) : Prop := s.owner .ticks = some b ∧ bound (s.todo b) = true

/-- One CPU holds `ptable.lock` and waits for `tickslock`, and another one the other way round. -/
def Deadlock (s : State n) : Prop :=
  ∃ a b, a ≠ b ∧ s.owner .ptable = some a ∧ s.waits a .ticks ∧ s.owner .ticks = some b ∧ s.waits b .ptable

instance (s : State n) (c : Fin n) (l : Lock) : Decidable (s.waits c l) := by
  unfold State.waits; infer_instance

instance (s : State n) (a : Fin n) : Decidable (Boosting s a) := by unfold Boosting; infer_instance

instance (s : State n) (b : Fin n) : Decidable (Bound s b) := by unfold Bound; infer_instance

instance (s : State n) : Decidable (Deadlock s) := by unfold Deadlock; infer_instance

/-- The condition on a step: no boost begins to wait while the holder of `tickslock` is bound for
`ptable.lock`, and nobody takes `tickslock` bound for `ptable.lock`, or decides to sleep under it, while a
boost waits. -/
def Apart (s : State n) : Event n → Prop
  | .step c =>
    match s.todo c with
    | .acquire .ticks :: ops =>
      if s.waiting c then bound ops = true → ∀ a, ¬ Boosting s a
      else s.owner .ptable = some c → ∀ b, ¬ Bound s b
    | _ => True
  | .choose c .sleep => (s.todo c).head? = some .sleepLoop → ∀ a, ¬ Boosting s a
  | _ => True

instance (s : State n) (e : Event n) : Decidable (Apart s e) := by
  unfold Apart
  split <;> (try split) <;> (try split) <;> infer_instance

/-- No boost waits while the holder of `tickslock` is bound for `ptable.lock`. -/
def Clear (s : State n) : Prop := ∀ a b, Boosting s a → ¬ Bound s b

theorem Clear.undeadlocked (h : Clear s) : ¬ Deadlock s := by
  rintro ⟨a, b, -, hpt, hwa, ht, hwb⟩
  refine h a b ⟨hpt, hwa⟩ ⟨ht, ?_⟩
  obtain ⟨-, hhead⟩ := hwb
  cases htodo : s.todo b with
  | nil =>
    rw [htodo] at hhead
    cases hhead
  | cons op ops =>
    rw [htodo] at hhead
    cases hhead
    rfl

/-- **A step of `c`**: it begins to wait in `boostPr` while nobody is bound for `ptable.lock`, or it does not
wait; and it was bound for `ptable.lock` before, or nobody else waits in `boostPr`. -/
theorem Clear.keep (h : Clear s) (c : Fin n) (hother : ∀ c', c' ≠ c → s'.todo c' = s.todo c')
    (hwaiting : ∀ c', c' ≠ c → s'.waiting c' = s.waiting c')
    (howner : ∀ c', c' ≠ c → ∀ l, s'.owner l = some c' → s.owner l = some c')
    (hboost : s'.waiting c = false ∨ (Boosting s' c → ∀ b, ¬ Bound s b))
    (hbound : Bound s' c → Bound s c ∨ ∀ a, a ≠ c → ¬ Boosting s' a) : Clear s' := by
  have hold : ∀ {a}, a ≠ c → Boosting s' a → Boosting s a := by
    intro a hac ha
    refine ⟨howner a hac _ ha.1, ?_⟩
    unfold State.waits
    rw [← hwaiting a hac, ← hother a hac]
    exact ha.2
  have hself : ∀ {a}, Boosting s' a → ¬ Bound s' a := by
    rintro a ⟨-, -, hhead⟩ ⟨-, hb⟩
    cases htodo : s'.todo a with
    | nil =>
      rw [htodo] at hhead
      cases hhead
    | cons op ops =>
      rw [htodo] at hhead hb
      cases hhead
      cases hb
  intro a b ha hb
  by_cases hbc : b = c
  · subst hbc
    by_cases hab : a = b
    · subst hab
      exact hself ha hb
    · rcases hbound hb with hb' | hno
      · exact h a b (hold hab ha) hb'
      · exact hno a hab ha
  · have hb' : Bound s b := ⟨howner b hbc _ hb.1, by rw [← hother b hbc]; exact hb.2⟩
    by_cases hac : a = c
    · subst hac
      rcases hboost with hw | hno
      · rw [ha.2.1] at hw
        cases hw
      · exact hno ha b hb'
    · exact h a b (hold hac ha) hb'

/-- A step of `c` that leaves the locks alone, without `tickslock`. -/
theorem Clear.still (h : Clear s) (c : Fin n) (hother : ∀ c', c' ≠ c → s'.todo c' = s.todo c')
    (hwaiting : s'.waiting = s.waiting) (howner : s'.owner = s.owner) (hw : s.waiting c = false)
    (hno : s.owner .ticks ≠ some c) : Clear s' := by
  refine h.keep c hother (fun c' _ => by rw [hwaiting]) (fun c' _ l hl => by rwa [howner] at hl)
    (.inl (by rw [hwaiting]; exact hw)) fun hb => ?_
  have hb' := hb.1
  rw [howner] at hb'
  exact absurd hb' hno

/-- **The next operation** of a CPU that stays apart. -/
theorem clear_exec (h : Clear s) (hd : Disciplined s) (ha : Apart s (.step c)) (hs : Exec s c s') :
    Clear s' := by
  have hc := hd.todo c
  unfold State.fits at hc
  unfold Apart at ha
  -- without `tickslock`
  have hstill : ∀ {op : Op} {ops : List Op}, s.todo c = op :: ops → (∀ l, op ≠ .acquire l) → s.only c →
      ∀ {t : State n}, (∀ c', c' ≠ c → t.todo c' = s.todo c') → t.waiting = s.waiting → t.owner = s.owner → Clear t := by
    intro op ops htodo hop honly t hother hwaiting howner
    exact h.still c hother hwaiting howner (hd.calm htodo hop) honly.2
  cases hs with
  | spin l ops htodo hw hown =>
    refine h.keep c (fun _ _ => rfl) (fun c' hc' => Function.update_of_ne hc' ..) (fun _ _ _ hl => hl)
      (.inr fun hb => ?_) fun hb => .inl hb
    cases l with
    | ptable => exact absurd hb.1 hown
    | ticks =>
      simp only [htodo, hw, Bool.false_eq_true, if_false] at ha
      exact ha hb.1
  | take l ops htodo hw hfree =>
    refine h.keep c (fun c' hc' => setTodo_ne _ ops hc') (fun c' hc' => Function.update_of_ne hc' ..)
      (fun c' hc' l' => (owner_other (.inl hfree) (.inr rfl) hc' l').1) (.inl (Function.update_self ..)) fun hb =>
      .inr fun a hac hboost => ?_
    cases l with
    | ptable =>
      have h1 : Function.update s.owner .ptable (some c) .ptable = some a := hboost.1
      rw [Function.update_self] at h1
      exact hac (Option.some.inj h1).symm
    | ticks =>
      simp only [htodo, hw, if_true] at ha
      have hops := hb.2
      rw [setTodo_self] at hops
      refine ha hops a ⟨(owner_other (.inl hfree) (.inr rfl) hac .ptable).1 hboost.1, ?_⟩
      obtain ⟨h1, h2⟩ := hboost.2
      rw [setTodo_ne _ _ hac] at h2
      have h1' : Function.update s.waiting c false a = true := h1
      rw [Function.update_of_ne hac] at h1'
      exact ⟨h1', h2⟩
  | release l ops htodo hown =>
    refine h.keep c (fun c' hc' => setTodo_ne _ ops hc') (fun _ _ => rfl)
      (fun c' hc' l' => (owner_other (.inr hown) (.inl rfl) hc' l').1) (.inl (hd.calm htodo (by simp))) fun hb =>
      .inr fun a _ hboost => ?_
    cases l with
    | ptable =>
      have h1 : Function.update s.owner .ptable none .ptable = some a := hboost.1
      rw [Function.update_self] at h1
      cases h1
    | ticks =>
      have h1 : Function.update s.owner .ticks none .ticks = some c := hb.1
      rw [Function.update_self] at h1
      cases h1
  | tick ops htodo =>
    refine h.keep c (fun c' hc' => setTodo_ne _ ops hc') (fun _ _ => rfl) (fun _ _ _ hl => hl)
      (.inl (hd.calm htodo (by simp))) fun hb => .inl ⟨hb.1, ?_⟩
    have hops := hb.2
    rw [setTodo_self] at hops
    rw [htodo]
    exact hops
  | reset ops htodo =>
    refine h.keep c (fun c' hc' => setTodo_ne _ ops hc') (fun _ _ => rfl) (fun _ _ _ hl => hl)
      (.inl (hd.calm htodo (by simp))) fun hb => .inl ⟨hb.1, ?_⟩
    have hops := hb.2
    rw [setTodo_self] at hops
    rw [htodo]
    exact hops
  | test ops new htodo _ =>
    rw [htodo, fits, Bool.and_eq_true, only_iff] at hc
    exact hstill htodo (by simp) hc.1 (fun c' hc' => setTodo_ne _ _ hc') rfl rfl
  | lockTest ops new htodo _ =>
    rw [htodo, fits, Bool.and_eq_true, only_iff] at hc
    exact hstill htodo (by simp) hc.1 (fun c' hc' => setTodo_ne _ _ hc') rfl rfl
  | dispatch p ops k htodo _ =>
    rw [htodo, fits, Bool.and_eq_true, only_iff] at hc
    exact hstill htodo (by simp) hc.1 (fun c' hc' => setTodo_ne _ _ hc') rfl rfl
  | sched p ops htodo _ honly =>
    exact hstill htodo (by simp) honly (fun c' hc' => setTodo_ne _ _ hc') rfl rfl
  | stop p ops htodo _ honly =>
    exact hstill htodo (by simp) honly (fun c' hc' => setTodo_ne _ _ hc') rfl rfl
  | create np ops htodo =>
    rw [htodo, fits, Bool.and_eq_true, only_iff] at hc
    exact hstill htodo (by simp) hc.1 (fun c' hc' => setTodo_ne _ _ hc') rfl rfl
  | iret ops htodo =>
    rw [htodo, fits, Bool.and_eq_true, Bool.and_eq_true, Bool.not_eq_true', Bool.not_eq_true'] at hc
    exact h.still c (fun c' hc' => setTodo_ne _ _ hc') rfl rfl (hd.calm htodo (by simp)) (of_decide_eq_false hc.1.2)

/-- **Every step** that stays apart. -/
theorem clear_step (h : Clear s) (hd : Disciplined s) {e : Event n} (ha : Apart s e)
    (hs : step s e = some (.ok s')) : Clear s' := by
  cases e with
  | step c => exact clear_exec h hd ha (exec_cases hs)
  | choose c x =>
    simp only [step] at hs
    split at hs
    · rename_i op ops htodo
      cases hx : op.next x with
      | none =>
        rw [hx] at hs
        cases hs
      | some new =>
        rw [hx] at hs
        cases hs
        have hw : s.waiting c = false := by
          refine hd.calm htodo fun l hl => ?_
          rw [hl] at hx
          cases hx
        refine h.keep c (fun c' hc' => setTodo_ne _ _ hc') (fun _ _ => rfl) (fun _ _ _ hl => hl) (.inl hw)
          fun hb => .inr fun a hac hboost => ?_
        obtain ⟨hticks, hops⟩ := hb
        rw [setTodo_self] at hops
        have hold : Boosting s a := by
          refine ⟨hboost.1, hboost.2.1, ?_⟩
          have h2 := hboost.2.2
          rwa [setTodo_ne _ _ hac] at h2
        have hc := hd.todo c
        unfold State.fits at hc
        rw [htodo] at hc
        cases op with
        | sleepLoop =>
          cases x with
          | sleep => exact ha (by rw [htodo]; rfl) a hold
          | done =>
            cases hx
            cases hops
          | _ => cases hx
        | lockLoop =>
          rw [fits, Bool.and_eq_true, only_iff] at hc
          exact hc.1.2 hticks
        | mlfq =>
          rw [fits, Bool.and_eq_true, only_iff] at hc
          exact hc.1.2 hticks
        | waitLoop =>
          rw [fits, Bool.and_eq_true, only_iff] at hc
          exact hc.1.2 hticks
        | _ => cases hx
    · cases hs
  | timer c dead =>
    simp only [step] at hs
    split at hs
    · rename_i hsti
      cases hs
      exact h.still c (fun c' hc' => setTodo_ne _ _ hc') rfl rfl hsti.1.1 (hsti.1.2.1 .ticks)
    · cases hs
  | irq c =>
    simp only [step] at hs
    split at hs
    · rename_i hsti
      cases hs
      exact h.still c (fun c' hc' => setTodo_ne _ _ hc') rfl rfl hsti.1 (hsti.2.1 .ticks)
    · cases hs
  | call c x =>
    simp only [step] at hs
    split at hs
    · rename_i hu
      cases hs
      have hc := hd.todo c
      unfold State.fits at hc
      rw [hu.2, fits, Bool.and_eq_true, Bool.not_eq_true', Bool.not_eq_true'] at hc
      exact h.still c (fun c' hc' => setTodo_ne _ _ hc') rfl rfl (hd.user hu.2) (of_decide_eq_false hc.2)
    · cases hs

/-! ## Runs -/

/-- Who waits in `boostPr` is not bound for `ptable.lock`. -/
theorem Boosting.not_bound (h : Boosting s a) : ¬ Bound s a := by
  obtain ⟨-, -, hhead⟩ := h
  rintro ⟨-, hb⟩
  cases htodo : s.todo a with
  | nil =>
    rw [htodo] at hhead
    cases hhead
  | cons op ops =>
    rw [htodo] at hhead hb
    cases hhead
    cases hb

/-- **A boost that waits for a CPU bound for `ptable.lock`** ends in a deadlock, by the steps of that CPU. -/
theorem deadlock_of_bound (ops : List Op) : ∀ {s : State n}, s.todo b = ops → Boosting s a → Bound s b →
    ∃ j t, (machine n).run s (List.replicate j (.step b)) = some (.ok t) ∧ Deadlock t := by
  induction ops with
  | nil =>
    intro s htodo _ hb
    have hops := hb.2
    rw [htodo] at hops
    cases hops
  | cons op ops ih =>
    intro s htodo ha hb
    have hab : a ≠ b := by
      rintro rfl
      exact ha.not_bound hb
    have hops := hb.2
    rw [htodo] at hops
    -- the CPU changes `ticks` and goes on
    have hgo : ∀ m : ℕ, s.exec b = some (.ok ({ s with ticks := m }.setTodo b ops)) → bound ops = true →
        ∃ j t, (machine n).run s (List.replicate j (.step b)) = some (.ok t) ∧ Deadlock t := by
      intro m hexec hbound
      have ha' : Boosting ({ s with ticks := m }.setTodo b ops) a :=
        ⟨ha.1, ha.2.1, by rw [setTodo_ne _ _ hab]; exact ha.2.2⟩
      have hb' : Bound ({ s with ticks := m }.setTodo b ops) b := ⟨hb.1, by rw [setTodo_self]; exact hbound⟩
      obtain ⟨j, t, hrun, ht⟩ := ih (setTodo_self ..) ha' hb'
      have hstep : (machine n).step s (.step b) = some (.ok ({ s with ticks := m }.setTodo b ops)) := hexec
      refine ⟨j + 1, t, ?_, ht⟩
      rw [List.replicate_succ, Machine.run_cons hstep]
      exact hrun
    cases op with
    | acquire l =>
      cases l with
      | ticks => cases hops
      | ptable =>
        cases hw : s.waiting b with
        | true => exact ⟨0, s, rfl, a, b, hab, ha.1, ha.2, hb.1, hw, by rw [htodo]; rfl⟩
        | false =>
          have hne : s.owner .ptable ≠ some b := by
            rw [ha.1]
            exact fun h => hab (Option.some.inj h)
          refine ⟨1, { s with waiting := Function.update s.waiting b true }, ?_, a, b, hab, ha.1, ⟨?_, ha.2.2⟩, hb.1,
            Function.update_self .., by rw [htodo]; rfl⟩
          · refine (Machine.run_cons (M := machine n) ?_ []).trans rfl
            show s.exec b = _
            unfold State.exec
            simp only [htodo, hw, Bool.false_eq_true, if_false, hne]
          · show Function.update s.waiting b true a = true
            rw [Function.update_of_ne hab]
            exact ha.2.1
    | tick =>
      refine hgo (s.ticks + 1) ?_ hops
      unfold State.exec
      simp only [htodo]
    | reset =>
      refine hgo 0 ?_ hops
      unfold State.exec
      simp only [htodo]
    | _ => cases hops

/-- **A step that is not apart** leaves a boost that waits for a CPU bound for `ptable.lock`. -/
theorem bound_of_not_apart (hd : Disciplined s) {e : Event n} (hs : step s e = some (.ok s')) (ha : ¬ Apart s e) :
    ∃ a b, Boosting s' a ∧ Bound s' b := by
  unfold Apart at ha
  split at ha
  · rename_i c
    split at ha
    · rename_i ops htodo
      have hexec : s.exec c = some (.ok s') := hs
      unfold State.exec at hexec
      simp only [htodo] at hexec
      have hc := hd.todo c
      unfold State.fits at hc
      rw [htodo, fits, Bool.and_eq_true] at hc
      cases hw : s.waiting c with
      | true =>
        simp only [hw, if_true] at ha hexec
        push Not at ha
        obtain ⟨hops, a, hboost⟩ := ha
        split at hexec
        · rename_i hfree
          cases hexec
          have hac : a ≠ c := by
            rintro rfl
            -- it holds `ptable.lock`, so its code does not take it
            rw [decide_eq_true hboost.1] at hc
            have hfits : ∀ l : List Op, bound l = true → fits true true l = true → False := by
              intro l
              induction l with
              | nil =>
                intro h _
                cases h
              | cons op l ih =>
                intro h1 h2
                cases op with
                | acquire l' => cases l' <;> simp_all [bound, fits]
                | tick => exact ih h1 (by simpa [fits] using h2)
                | reset => exact ih h1 (by simpa [fits] using h2)
                | _ => cases h1
            exact hfits ops hops hc.2
          have hown : Function.update s.owner .ticks (some c) .ticks = some c := Function.update_self ..
          refine ⟨a, c, ⟨?_, ?_, ?_⟩, ⟨hown, by rw [setTodo_self]; exact hops⟩⟩
          · show Function.update s.owner .ticks (some c) .ptable = some a
            rw [Function.update_of_ne (by simp)]
            exact hboost.1
          · show Function.update s.waiting c false a = true
            rw [Function.update_of_ne hac]
            exact hboost.2.1
          · rw [setTodo_ne _ _ hac]
            exact hboost.2.2
        · cases hexec
      | false =>
        simp only [hw, Bool.false_eq_true, if_false] at ha hexec
        push Not at ha
        obtain ⟨hown, b, hb⟩ := ha
        split at hexec
        · cases hexec
        · cases hexec
          exact ⟨c, b, ⟨hown, Function.update_self .., by rw [htodo]; rfl⟩, hb⟩
    · exact absurd trivial ha
  · rename_i c
    push Not at ha
    obtain ⟨hhead, a, hboost⟩ := ha
    simp only [step] at hs
    split at hs
    · rename_i op ops htodo
      rw [htodo] at hhead
      cases hhead
      cases hs
      have hac : a ≠ c := by
        rintro rfl
        have h2 := hboost.2.2
        rw [htodo] at h2
        cases h2
      have hc := hd.todo c
      unfold State.fits at hc
      rw [htodo, fits, Bool.and_eq_true, Bool.and_eq_true] at hc
      exact ⟨a, c, ⟨hboost.1, hboost.2.1, by rw [setTodo_ne _ _ hac]; exact hboost.2.2⟩,
        of_decide_eq_true hc.1.2, by rw [setTodo_self]; rfl⟩
    · cases hs
  · exact absurd trivial ha

/-- **No deadlock of `tickslock` and `ptable.lock`** is reachable, on any number of CPUs, in a run that keeps the
boost apart from the sections that take `ptable.lock` under `tickslock`. A step that does not leads to a
deadlock. -/
theorem no_deadlock (n : ℕ) (es : List (Event n)) (s : State n)
    (hG : (machine n).Guarded Apart (boot n) es) (hr : (machine n).run (boot n) es = some (.ok s)) :
    ¬ Deadlock s ∧ ∀ e s', step s e = some (.ok s') → ¬ Apart s e →
      ∃ b j t, (machine n).run s' (List.replicate j (.step b)) = some (.ok t) ∧ Deadlock t := by
  have hboot : Disciplined (boot n) ∧ Clear (boot n) :=
    ⟨disciplined_boot n, fun a b ha => by cases ha.1⟩
  obtain ⟨hd, hc⟩ := Machine.guarded_inv (M := machine n) (I := fun s => Disciplined s ∧ Clear s) hboot
    (fun s e s' hI ha hs => ⟨disciplined_step hI.1 hs, clear_step hI.2 hI.1 ha hs⟩) hG hr
  refine ⟨hc.undeadlocked, fun e s' hs ha => ?_⟩
  obtain ⟨a, b, hboost, hbound⟩ := bound_of_not_apart hd hs ha
  obtain ⟨j, t, hrun, ht⟩ := deadlock_of_bound _ rfl hboost hbound
  exact ⟨b, j, t, hrun, ht⟩

/-- The timer interrupt of CPU 0 in `scheduler`, and a pass that finds no process. -/
def idleTick : List (Event 2) :=
  .timer 0 false :: List.replicate 8 (.step 0) ++
    [.step 0, .step 0, .choose 0 .leave, .choose 0 .none, .step 0, .step 0]

theorem no_deadlock_idleTick : ∃ s, (machine 2).run (boot 2) idleTick = some (.ok s) ∧ ¬ Deadlock s := by
  have hreach : (machine 2).reaches (fun s => s.ticks = 1) (boot 2) idleTick = true := by decide +kernel
  obtain ⟨s, hr, -⟩ := Machine.run_of_reaches hreach
  have hG : (machine 2).Guarded Apart (boot 2) idleTick := Machine.guarded_of_check (by decide +kernel)
  exact ⟨s, hr, (no_deadlock 2 _ s hG hr).1⟩

/-- CPU 1 runs a process. After 100 ticks its time slice ends, and `scheduler` on CPU 1 calls `boostPr`; the next
timer interrupt arrives on CPU 0. -/
def tickDuringBoost : List (Event 2) :=
  [.step 1, .step 1, .choose 1 .leave, .choose 1 (.slice 0), .step 1, .step 1] ++
    (List.replicate 99 idleTick).flatten ++
  .timer 0 false :: List.replicate 8 (.step 0) ++
  [.timer 1 false, .step 1, .step 1, .step 1, .step 1, .timer 0 false, .step 0, .step 0, .step 0, .step 0, .step 1]

/-- **The timer interrupt meets the boost**: CPU 1 holds `ptable.lock` and waits for `tickslock`, and CPU 0 holds
`tickslock` and waits for `ptable.lock`. -/
theorem tick_meets_boost : ∃ s, (machine 2).run (boot 2) tickDuringBoost = some (.ok s) ∧ Deadlock s := by
  exact Machine.run_of_reaches (by decide +kernel)

end Xv6.Smp
