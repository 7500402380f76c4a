import Xv6.Mlfq.Quantum

/-!
# The priority boost and the timer interrupt

`scheduler` calls `boostPr` when `ticks == 100`, and tests this only after a time slice. The timer
interrupt adds one to `ticks` wherever interrupts are enabled: while a process runs, which then
yields, and in `scheduler` between `sti` and `acquire`.

* `watch`: one CPU with its timer interrupts (trap.c). The history variable `late` says that `ticks` has
  come to 100 at a place with no test of it behind.
* `OnTime`: no interrupt arrives while the boost is late.
* **`boost_never_skipped`**: then `ticks` never passes 100.
* **`boost_skipped`**: an interrupt between `sti` and `acquire` brings `ticks` to 100, and the next one to 101.
-/

namespace Xv6.Mlfq

variable {s s' : State 1} {k k' : Kernel} {p q : Slot}

/-! ## The timer interrupt -/

/-- The timer interrupt, in `trap`. The process that it interrupts in user space exits if it is killed
(`dead`), and any other process yields. -/
def interrupt (s : State 1) (dead : Bool) : Option (Except Fault (State 1)) :=
  if s.Free then
    match wakeup1 { s.kernel with ticks := (s.kernel.ticks + 1) % 2 ^ 32 } (some .ticks) with
    | .error f => some (.error f)
    | .ok k =>
      let s := { s with kernel := k }
      match s.pc 0 with
      | .run p _ =>
        if dead then
          if (s.kernel.proc p).killed then step s (.exit 0) else none
        else step s (.yield 0)
      | _ => some (.ok s)
  else none

inductive Irq
  | timer (dead : Bool)
  | other (e : Event 1)

structure Watched where
  state : State 1
  /-- `ticks` is 100, and `scheduler` will not test it before it dispatches a process -/
  late : Bool

/-- The loop of the scheduler lock ends without the test of `ticks`. -/
def State.leaves (s : State 1) : Event 1 → Bool
  | .sched _ =>
    match s.pc 0 with
    | .ret _ .lock => s.kernel.isUnlocked
    | _ => false
  | _ => false

def Watched.step (w : Watched) : Irq → Option (Except Fault Watched)
  | .timer dead => (interrupt w.state dead).map fun r => r.map fun s =>
      ⟨s, decide (s.kernel.ticks = 100) && (w.late || decide (w.state.pc 0 = .top))⟩
  | .other .tick => none
  | .other e => (Mlfq.step w.state e).map fun r => r.map fun s =>
      ⟨s, decide (s.kernel.ticks = 100) && (w.late || w.state.leaves e)⟩

/-- One CPU with its timer interrupts. -/
def watch : Machine Watched Irq Fault := ⟨Watched.step⟩

def watchFrom (k : Kernel) : Watched := ⟨boot 1 k, false⟩

/-- No timer interrupt arrives while the boost is late. -/
def OnTime (w : Watched) : Irq → Prop
  | .timer _ => w.late = false
  | .other _ => True

instance (w : Watched) (i : Irq) : Decidable (OnTime w i) := by
  unfold OnTime
  rcases i with ⟨⟩ <;> infer_instance

/-! ## Ticks -/

/-- `scheduler` tests `ticks` before it dispatches a process. -/
def Pc.Checks : Pc → Prop
  | .ret _ _ | .boost => True
  | _ => False

/-- **100 ticks do not pass a test** of `scheduler`. -/
theorem sched_checks (hs : s.sched 0 = some (.ok s')) (h100 : s'.kernel.ticks = 100) :
    ¬ (s.pc 0).Checks ∨ (s'.pc 0).Checks ∨ s.leaves (.sched 0) = true := by
  by_cases hb : s.pc 0 = .boost
  · unfold State.sched at hs
    simp only [hb] at hs
    obtain ⟨k', hk, rfl⟩ := after_ok hs
    split at hk
    · have h0 : k'.ticks = 0 := boostPr_ticks hk
      exact absurd (h0.symm.trans h100) (by decide)
    · rename_i ht
      cases hk
      exact absurd h100 ht
  by_cases hr : ∃ p, s.pc 0 = .ret p .lock
  · obtain ⟨p, hp⟩ := hr
    have hleaves : s.leaves (.sched 0) = s.kernel.isUnlocked := by
      unfold State.leaves
      rw [hp]
    unfold State.sched at hs
    simp only [hp] at hs
    split at hs
    · obtain ⟨k', hk, rfl⟩ := after_ok hs
      rcases releaseLock_ticks hk with h0 | ⟨-, hu⟩
      · exact absurd (h0.symm.trans h100) (by decide)
      · exact .inr (.inr (hleaves.trans hu))
    · rename_i hto
      obtain ⟨k', hk, rfl⟩ := after_ok hs
      cases hk
      exact absurd (.inl h100) hto
  push Not at hr
  have hchoose : (s.pc 0).Choosing → ¬ (s.pc 0).Checks := by
    intro hc hk
    cases hpc : s.pc 0 with
    | boost => exact hb hpc
    | ret p x =>
      rw [hpc] at hc
      exact hc
    | _ =>
      rw [hpc] at hk
      exact hk
  have hpc : ∀ {pc : Pc}, s.pc 0 = pc → ¬ pc.Checks → ¬ (s.pc 0).Checks := by
    intro pc h hn
    rwa [h]
  cases (sched_cases hs : SchedStep s 0 s') with
  | acquire pc h _ _ _ => exact .inl (hpc h id)
  | go pc h _ _ _ => exact .inl (hchoose h)
  | forget q h _ => exact .inl (hpc h id)
  | lock q h _ _ => exact .inl (hpc h id)
  | drop que q k' h _ _ => exact .inl (hpc h id)
  | slice que x q h _ _ _ => exact .inl (hpc h id)
  | dropL2 min q k' h _ _ => exact .inl (hpc h id)
  | sliceL2 min q h _ => exact .inl (hpc h id)
  | boost k' h _ => exact absurd h hb
  | release q k' h _ _ => exact absurd h (hr q)
  | again q h => exact absurd h (hr q)
  | demote que down x q k' h _ _ _ =>
    refine .inr (.inl ?_)
    rw [goto_pc]
    trivial
  | promote q h =>
    refine .inr (.inl ?_)
    rw [goto_pc]
    trivial

/-- **A process steps** where no test of `ticks` is due. -/
theorem step_checks {e : Event 1} (hsched : e ≠ .sched 0) (hs : step s e = some (.ok s')) :
    ¬ (s.pc 0).Checks ∨ s'.pc 0 = s.pc 0 := by
  have hrun : ∀ {p : Slot} {x : Kont}, s.pc 0 = .run p x → ¬ (s.pc 0).Checks := by
    intro p x hpc
    rw [hpc]
    exact id
  cases e with
  | sched c =>
    obtain rfl : c = 0 := Subsingleton.elim _ _
    exact absurd rfl hsched
  | tick =>
    rw [step_tick hs]
    exact .inr rfl
  | wakeup chan =>
    obtain ⟨-, k', -, rfl⟩ := step_wakeup hs
    exact .inr rfl
  | yield c =>
    obtain rfl : c = 0 := Subsingleton.elim _ _
    obtain ⟨p, x, hpc, -, -⟩ := step_yield hs
    exact .inl (hrun hpc)
  | sleep c chan =>
    obtain rfl : c = 0 := Subsingleton.elim _ _
    obtain ⟨p, x, hpc, -, -, -⟩ := step_sleep hs
    exact .inl (hrun hpc)
  | exit c =>
    obtain rfl : c = 0 := Subsingleton.elim _ _
    obtain ⟨p, x, k', hpc, -, -, -, -⟩ := step_exit hs
    exact .inl (hrun hpc)
  | wait c =>
    obtain rfl : c = 0 := Subsingleton.elim _ _
    obtain ⟨p, x, hpc, -⟩ := step_wait hs
    rcases hpc with ⟨hpc, -⟩ | hpc
    · exact .inl (hrun hpc)
    · apply Or.inl
      rw [hpc]
      exact id
  | kill c pid =>
    rw [step_kill hs]
    exact .inr rfl
  | setPriority c pid pr =>
    obtain ⟨k', -, rfl⟩ := step_setPriority hs
    exact .inr rfl
  | fork c =>
    obtain ⟨p, x, -, -, rfl | ⟨np, k', -, -, rfl⟩⟩ := step_fork hs
    · exact .inr rfl
    · exact .inr rfl
  | forkFail c =>
    obtain ⟨p, x, np, -, -, rfl⟩ := step_forkFail hs
    exact .inr rfl
  | schedulerLock c ok =>
    obtain ⟨p, x, y, -, -, -, rfl⟩ := step_schedulerLock hs
    exact .inr rfl
  | schedulerUnlock c ok =>
    obtain ⟨p, x, y, -, -, -, rfl⟩ := step_schedulerUnlock hs
    exact .inr rfl
  | cont c =>
    obtain ⟨p, x, k', y, -, -, rfl, -⟩ := step_cont hs
    exact .inr rfl

/-- **The timer interrupt** adds one to `ticks`, and the process that it interrupts leaves the CPU. -/
theorem interrupt_ticks {dead : Bool} (h : interrupt s dead = some (.ok s')) :
    s'.kernel.ticks = (s.kernel.ticks + 1) % 2 ^ 32 ∧ (s.pc 0).Holds = false ∧
      (s.pc 0 = .top ∨ (s'.pc 0).Checks) := by
  unfold interrupt at h
  split at h
  · rename_i hfree
    split at h
    · cases h
    · rename_i k hk
      have ht : k.ticks = (s.kernel.ticks + 1) % 2 ^ 32 := globals_ticks (wakeup1_globals hk)
      dsimp only at h
      refine ⟨?_, hfree 0, ?_⟩
      · split at h
        · split at h
          · split at h
            · obtain ⟨p, x, k', -, -, -, hk', rfl⟩ := step_exit h
              exact (globals_ticks (exit_globals hk')).trans ht
            · cases h
          · obtain ⟨p, x, -, -, rfl⟩ := step_yield h
            exact ht
        · cases h
          exact ht
      · split at h
        · refine .inr ?_
          split at h
          · split at h
            · obtain ⟨p, x, k', -, -, -, -, rfl⟩ := step_exit h
              rw [goto_pc]
              trivial
            · cases h
          · obtain ⟨p, x, -, -, rfl⟩ := step_yield h
            rw [goto_pc]
            trivial
        · rename_i hno
          refine .inl ?_
          have hf := hfree 0
          cases hpc : s.pc 0 with
          | top => rfl
          | run p x => exact absurd hpc (hno p x)
          | _ =>
            rw [hpc] at hf
            cases hf
  · cases h

/-! ## Runs -/

/-- `ticks` is at most 100, and 100 ticks are tested next or the boost is late. -/
structure Boosted (w : Watched) : Prop where
  le : w.state.kernel.ticks ≤ 100
  checked : w.state.kernel.ticks = 100 → w.late = false → (w.state.pc 0).Checks
  late : w.late = true → w.state.kernel.ticks = 100

/-- An event other than the timer interrupt. -/
theorem watch_other {w w' : Watched} {e : Event 1} (hs : w.step (.other e) = some (.ok w')) : e ≠ .tick ∧
    step w.state e = some (.ok w'.state) ∧
      w'.late = (decide (w'.state.kernel.ticks = 100) && (w.late || w.state.leaves e)) := by
  unfold Watched.step at hs
  split at hs
  · rename_i dead heq
    cases heq
  · cases hs
  · rename_i e' hne heq
    cases heq
    refine ⟨fun h => hne (h ▸ rfl), ?_⟩
    cases hstep : Mlfq.step w.state e with
    | none =>
      rw [hstep] at hs
      cases hs
    | some r =>
      rw [hstep] at hs
      cases r with
      | error f => cases hs
      | ok s =>
        cases hs
        exact ⟨rfl, rfl⟩

theorem watch_timer {w w' : Watched} {dead : Bool} (hs : w.step (.timer dead) = some (.ok w')) :
    interrupt w.state dead = some (.ok w'.state) ∧
      w'.late = (decide (w'.state.kernel.ticks = 100) && (w.late || decide (w.state.pc 0 = .top))) := by
  unfold Watched.step at hs
  dsimp only at hs
  cases hstep : interrupt w.state dead with
  | none =>
    rw [hstep] at hs
    cases hs
  | some r =>
    rw [hstep] at hs
    cases r with
    | error f => cases hs
    | ok s =>
      cases hs
      exact ⟨rfl, rfl⟩

/-- **An interrupt that is on time**, or any other event. -/
theorem boosted_step {w w' : Watched} (h : Boosted w) {i : Irq} (hi : OnTime w i)
    (hs : w.step i = some (.ok w')) : Boosted w' := by
  have hle := h.le
  cases i with
  | timer dead =>
    have hnot : w.late = false := hi
    obtain ⟨hint, hlate⟩ := watch_timer hs
    obtain ⟨ht, hfree, hplace⟩ := interrupt_ticks hint
    -- 100 ticks that are not late would be tested next, but interrupts are off there
    have hne : w.state.kernel.ticks ≠ 100 := by
      intro h100
      have hc := h.checked h100 hnot
      cases hpc : w.state.pc 0 with
      | ret p x =>
        rw [hpc] at hfree
        cases hfree
      | boost =>
        rw [hpc] at hfree
        cases hfree
      | _ =>
        rw [hpc] at hc
        exact hc
    refine ⟨by omega, fun h100 hl => ?_, fun hl => ?_⟩
    · refine hplace.resolve_left fun htop => ?_
      rw [hlate, h100, htop] at hl
      simp at hl
    · rw [hlate, Bool.and_eq_true] at hl
      exact of_decide_eq_true hl.1
  | other e =>
    obtain ⟨htick, hstep, hlate⟩ := watch_other hs
    have hend : w'.late = true → w'.state.kernel.ticks = 100 := by
      intro hl
      rw [hlate, Bool.and_eq_true] at hl
      exact of_decide_eq_true hl.1
    -- without a test before it the boost stays late
    have hstay : w'.state.kernel.ticks = 100 → w'.late = false →
        w.late = false ∧ w.state.leaves e = false := by
      intro h100 hl
      rw [hlate, h100] at hl
      simpa using hl
    by_cases hsched : e = .sched 0
    · subst hsched
      have ht := sched_ticks hstep
      refine ⟨by omega, fun h100 hl => ?_, hend⟩
      obtain ⟨hold, hleaves⟩ := hstay h100 hl
      rcases sched_checks hstep h100 with hn | hc | hv
      · exact absurd (h.checked (by omega) hold) hn
      · exact hc
      · rw [hleaves] at hv
        cases hv
    · have ht := step_ticks htick hstep
      refine ⟨by omega, fun h100 hl => ?_, hend⟩
      have hc := h.checked (by omega) (hstay h100 hl).1
      rcases step_checks hsched hstep with hn | hpc
      · exact absurd hc hn
      · rw [hpc]
        exact hc

theorem boosted_run (hk : userinit Kernel.zero = .ok k) {es : List Irq} {w : Watched}
    (hG : watch.Guarded OnTime (watchFrom k) es) (hr : watch.run (watchFrom k) es = some (.ok w)) : Boosted w := by
  have h0 : k.ticks = 0 := by
    have h : (match userinit Kernel.zero with
        | .ok k => decide (k.ticks = 0)
        | .error _ => false) = true := by decide +kernel
    rw [hk] at h
    exact of_decide_eq_true h
  have hinit : Boosted (watchFrom k) := by
    refine ⟨?_, fun h => ?_, fun h => by cases h⟩
    · show k.ticks ≤ 100
      omega
    · have h' : k.ticks = 100 := h
      omega
  exact Machine.guarded_inv (M := watch) (I := Boosted) hinit (fun _ _ _ hI hg hs => boosted_step hI hg hs) hG hr

/-- **The boost is never skipped** on one CPU, in every run from `userinit` in which no timer interrupt arrives
while the boost is late: `ticks` never passes 100, so no process is dispatched above it; 100 ticks that are
not late are tested before anything else, and an interrupt that finds the boost late does pass 100. -/
theorem boost_never_skipped (k : Kernel) (hk : userinit Kernel.zero = .ok k) (es : List Irq) (w : Watched)
    (hG : watch.Guarded OnTime (watchFrom k) es) (hr : watch.run (watchFrom k) es = some (.ok w)) :
    w.state.kernel.ticks ≤ 100 ∧
    (∀ i w' p, w.step i = some (.ok w') → (w.state.pc 0).proc = none → (w'.state.pc 0).proc = some p →
      ¬ w.state.kernel.ticks > 100) ∧
    (w.state.kernel.ticks = 100 → w.late = false → (w.state.pc 0).Checks) ∧
    ∀ dead w', w.step (.timer dead) = some (.ok w') → (w'.state.kernel.ticks > 100 ↔ ¬ OnTime w (.timer dead)) := by
  have h := boosted_run hk hG hr
  refine ⟨h.le, fun i w' p _ _ _ => Nat.not_lt.2 h.le, h.checked, fun dead w' hs => ⟨fun ht hi => ?_, fun hi => ?_⟩⟩
  · have hle := (boosted_step h hi hs).le
    omega
  · have hlate : w.late = true := by
      cases hw : w.late with
      | true => rfl
      | false => exact absurd hw hi
    have h100 := h.late hlate
    have ht := (interrupt_ticks (watch_timer hs).1).1
    omega

/-- A run from `userinit` with timer interrupts, and what holds at its end. -/
theorem watch_any (es : List Irq) (P : Kernel → Watched → Bool)
    (h : (match userinit Kernel.zero with
      | .ok k => match watch.run (watchFrom k) es with
        | some (.ok w) => P k w
        | _ => false
      | .error _ => false) = true) : ∃ k w, userinit Kernel.zero = .ok k ∧
      watch.run (watchFrom k) es = some (.ok w) ∧ P k w = true := by
  split at h
  · rename_i k hk
    split at h
    · rename_i w hw
      exact ⟨k, w, hk, hw, h⟩
    · cases h
  · cases h

/-- `initproc` gets two time slices, with a timer interrupt each. -/
def twoSlices : List Irq :=
  [.other (.sched 0), .other (.sched 0), .timer false, .other (.sched 0), .other (.sched 0),
    .other (.sched 0), .other (.sched 0), .timer false]

theorem boost_never_skipped_twoSlices : ∃ k w, userinit Kernel.zero = .ok k ∧
    watch.run (watchFrom k) twoSlices = some (.ok w) ∧ w.state.kernel.ticks ≤ 100 := by
  obtain ⟨k, w, hk, hr, hP⟩ := watch_any twoSlices (fun k _ => watch.check OnTime (watchFrom k) twoSlices)
    (by decide +kernel)
  exact ⟨k, w, hk, hr, (boost_never_skipped k hk _ w (Machine.guarded_of_check hP) hr).1⟩

/-- `initproc` sleeps while 99 timer interrupts arrive between `sti` and `acquire`. Then it is woken up and the
next interrupt arrives there too, and one more in its time slice. -/
def interruptBeforeAcquire : List Irq :=
  [.other (.sched 0), .other (.sched 0), .other (.sleep 0 (.other 7)), .other (.sched 0), .other (.sched 0),
    .other (.sched 0), .other (.sched 0)] ++
  (List.replicate 99 [.timer false, .other (.sched 0), .other (.sched 0), .other (.sched 0)]).flatten ++
  [.other (.wakeup (.other 7)), .timer false, .other (.sched 0), .other (.sched 0), .timer false,
    .other (.sched 0), .other (.sched 0), .other (.sched 0)]

/-- **A process is dispatched at 101 ticks**: the boost was due at 100, and nobody tested `ticks` then. -/
theorem boost_skipped : ∃ k w w', userinit Kernel.zero = .ok k ∧
    watch.run (watchFrom k) interruptBeforeAcquire = some (.ok w) ∧
    w.step (.other (.sched 0)) = some (.ok w') ∧ (w.state.pc 0).proc = none ∧ (w'.state.pc 0).proc = some 0 ∧
    w.state.kernel.ticks = 101 := by
  obtain ⟨k, w, hk, hr, hP⟩ := watch_any interruptBeforeAcquire
    (fun _ w => match w.step (.other (.sched 0)) with
      | some (.ok w') => decide ((w.state.pc 0).proc = none ∧ (w'.state.pc 0).proc = some 0 ∧
          w.state.kernel.ticks = 101)
      | _ => false) (by decide +kernel)
  split at hP
  · rename_i w' hs
    exact ⟨k, w, w', hk, hr, hs, of_decide_eq_true hP⟩
  · cases hP

end Xv6.Mlfq
