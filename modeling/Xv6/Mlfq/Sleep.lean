import Xv6.Mlfq.Step

/-!
# How long `sleep` sleeps

`sys_sleep` compares `ticks - ticks0`, an unsigned difference, with its argument. A boost and `schedulerLock` reset
`ticks` in the middle of a sleep.

* `napping`: the kernel with its sleeping processes. The history variable `seen` counts the timer interrupts
  that came since a sleep began.
* `Nap.Fits.tick`, `Nap.Fits.reset`: what `ticks` can be after that many of them.
* `NotBefore`: no test of the loop finds `ticks` below `ticks0` too soon.
* **`sleep_lasts`**: then, and only then, every sleep that returned 0 lasted as long as asked.
* **`sleep_returns_early`**: after a reset a sleep returns with no timer interrupt at all.
-/

namespace Xv6.Mlfq

variable {m : ℕ}

/-! ## The system call -/

/-- A call of `sys_sleep`. -/
structure Nap where
  /-- its argument -/
  n : ℤ
  ticks0 : ℕ
  /-- how many timer interrupts were counted since it began -/
  seen : ℕ
  deriving DecidableEq

/-- `ticks - ticks0`, an unsigned 32-bit number. -/
def elapsed (ticks ticks0 : ℕ) : ℕ := (ticks + 2 ^ 32 - ticks0) % 2 ^ 32

/-- `ticks - ticks0 < n`. The comparison makes `n` unsigned too. -/
def Nap.Waits (x : Nap) (ticks : ℕ) : Prop := elapsed ticks x.ticks0 < (x.n % 2 ^ 32).toNat

instance (x : Nap) (ticks : ℕ) : Decidable (x.Waits ticks) := by
  unfold Nap.Waits
  infer_instance

structure Naps (m : ℕ) where
  base : State m
  /-- the process is in `sys_sleep` -/
  nap : Slot → Option Nap
  /-- the calls that returned 0 -/
  slept : List Nap

def Naps.setNap (w : Naps m) (p : Slot) (x : Option Nap) : Naps m :=
  { w with nap := Function.update w.nap p x }

/-- The test of the loop of `sys_sleep`, and what it leads to. It holds `tickslock` from the test up to the end
of `sleep`. -/
def Naps.test (w : Naps m) (c : Fin m) (p : Slot) (x : Nap) : Option (Except Fault (Naps m)) :=
  if x.Waits w.base.kernel.ticks then
    if (w.base.kernel.proc p).killed then some (.ok (w.setNap p none))
    else (step w.base (.sleep c .ticks)).map fun r => r.map fun s => { w with base := s }.setNap p (some x)
  else some (.ok { w.setNap p none with slept := x :: w.slept })

/-- The CPU whose process makes a system call. -/
def Event.caller : Event m → Option (Fin m)
  | .sleep c _ | .exit c | .wait c | .kill c _ | .setPriority c _ _ | .fork c | .forkFail c | .schedulerLock c _
  | .schedulerUnlock c _ | .cont c => some c
  | .sched _ | .tick | .wakeup _ | .yield _ => none

inductive NapEvent (m : ℕ)
  | other (e : Event m)
  | sysSleep (c : Fin m) (n : ℤ)
  /-- the process is back from `sleep(&ticks, &tickslock)` -/
  | resume (c : Fin m)

/-- The process on `c` is in `sys_sleep`. -/
def Naps.asleep (w : Naps m) (c : Fin m) : Bool := ((w.base.pc c).proc.bind w.nap).isSome

/-- The timer interrupt is counted. -/
def Nap.count : Event m → Nap → Nap
  | .tick, x => { x with seen := x.seen + 1 }
  | _, x => x

def Naps.step (w : Naps m) : NapEvent m → Option (Except Fault (Naps m))
  | .other e =>
    if e.caller.any w.asleep then none
    else (Mlfq.step w.base e).map fun r => r.map fun s =>
      { w with base := s, nap := fun p => (w.nap p).map (Nap.count e) }
  | .sysSleep c n =>
    match w.base.user c with
    | some (p, _) =>
      if w.nap p = none ∧ -2 ^ 31 ≤ n ∧ n < 2 ^ 31 then w.test c p ⟨n, w.base.kernel.ticks, 0⟩ else none
    | none => none
  | .resume c =>
    match w.base.user c with
    | some (p, _) =>
      match w.nap p with
      | some x => w.test c p x
      | none => none
    | none => none

/-- The kernel with `m` CPUs and the processes that call `sys_sleep`. -/
def napping (m : ℕ) : Machine (Naps m) (NapEvent m) Fault := ⟨Naps.step⟩

def napsFrom (m : ℕ) (k : Kernel) : Naps m := ⟨boot m k, fun _ => none, []⟩

/-! ## One sleep -/

/-- The call lasted as long as asked. -/
def Nap.Served (x : Nap) : Prop := 0 ≤ x.n → x.n ≤ x.seen

/-- `ticks` is not below `ticks0`; or `n` timer interrupts have come; or the difference is not yet `n` even so. -/
def Nap.NotBefore (x : Nap) (ticks : ℕ) : Prop :=
  x.n < 0 ∨ x.ticks0 ≤ ticks ∨ x.n ≤ x.seen ∨ 2 ^ 32 < x.n + (x.ticks0 - ticks)

instance (x : Nap) (ticks : ℕ) : Decidable (x.NotBefore ticks) := by
  unfold Nap.NotBefore
  infer_instance

/-- What is known of a call while it sleeps. -/
structure Nap.Fits (x : Nap) (ticks : ℕ) : Prop where
  arg : -2 ^ 31 ≤ x.n ∧ x.n < 2 ^ 31
  start : x.ticks0 < 2 ^ 32
  /-- either `ticks` was not reset, or it counts some of the interrupts that came -/
  count : ticks = (x.ticks0 + x.seen) % 2 ^ 32 ∨ ∃ r ≤ x.seen, ticks = r % 2 ^ 32

theorem Nap.fits_start {n : ℤ} {ticks : ℕ} (hn : -2 ^ 31 ≤ n ∧ n < 2 ^ 31) (ht : ticks < 2 ^ 32) :
    (⟨n, ticks, 0⟩ : Nap).Fits ticks := by
  refine ⟨hn, ht, .inl ?_⟩
  show ticks = (ticks + 0) % 2 ^ 32
  omega

theorem Nap.Fits.tick {x : Nap} {ticks : ℕ} (h : x.Fits ticks) :
    ({ x with seen := x.seen + 1 } : Nap).Fits ((ticks + 1) % 2 ^ 32) := by
  refine ⟨h.arg, h.start, ?_⟩
  show (ticks + 1) % 2 ^ 32 = (x.ticks0 + (x.seen + 1)) % 2 ^ 32 ∨ ∃ r ≤ x.seen + 1, (ticks + 1) % 2 ^ 32 = r % 2 ^ 32
  rcases h.count with h | ⟨r, hr, h⟩
  · apply Or.inl
    omega
  · exact .inr ⟨r + 1, by omega, by omega⟩

theorem Nap.Fits.reset {x : Nap} {ticks : ℕ} (h : x.Fits ticks) : x.Fits 0 :=
  ⟨h.arg, h.start, .inr ⟨0, by omega, rfl⟩⟩

/-- The argument as an unsigned number. -/
theorem Nap.Fits.toNat_arg {x : Nap} {ticks : ℕ} (h : x.Fits ticks) (hn : 0 ≤ x.n) : ((x.n % 2 ^ 32).toNat : ℤ) = x.n := by
  have hlt := h.arg.2
  omega

/-- **The loop of `sys_sleep` ends too early** exactly when its test finds `ticks` too far below `ticks0`. -/
theorem Nap.served_iff {x : Nap} {ticks : ℕ} (h : x.Fits ticks) (hw : ¬ x.Waits ticks) :
    x.Served ↔ x.NotBefore ticks := by
  unfold Nap.Waits elapsed at hw
  unfold Nap.Served Nap.NotBefore
  have hstart := h.start
  by_cases hn : 0 ≤ x.n
  · have harg := h.toNat_arg hn
    constructor
    · intro hs
      exact .inr (.inr (.inl (hs hn)))
    · rintro (hneg | hle | hs | hfar) -
      · omega
      · -- without a reset the difference is what was seen, and after one `ticks` alone is at most that
        rcases h.count with ht | ⟨r, hr, ht⟩
        · omega
        · omega
      · exact hs
      · omega
  · constructor
    · intro _
      apply Or.inl
      omega
    · intro _ hpos
      exact absurd hpos hn

/-- A test that sends the process back to sleep does no harm. -/
theorem Nap.notBefore_of_waits {x : Nap} {ticks : ℕ} (h : x.Fits ticks) (hticks : ticks < 2 ^ 32)
    (hw : x.Waits ticks) : x.NotBefore ticks := by
  unfold Nap.Waits elapsed at hw
  unfold Nap.NotBefore
  have hstart := h.start
  by_cases hn : 0 ≤ x.n
  · have harg := h.toNat_arg hn
    by_cases hle : x.ticks0 ≤ ticks
    · exact .inr (.inl hle)
    · refine .inr (.inr (.inr ?_))
      omega
  · apply Or.inl
    omega

/-! ## Runs -/

/-- No test of the loop finds `ticks` below `ticks0` too soon. -/
def NotBefore (w : Naps m) : NapEvent m → Prop
  | .resume c => ∀ x ∈ (w.base.pc c).proc.bind w.nap, x.NotBefore w.base.kernel.ticks
  | _ => True

instance (w : Naps m) (e : NapEvent m) : Decidable (NotBefore w e) := by
  unfold NotBefore
  cases e with
  | resume c =>
    dsimp only
    cases h : (w.base.pc c).proc.bind w.nap with
    | none => exact isTrue (by simp)
    | some x => exact decidable_of_iff (x.NotBefore w.base.kernel.ticks) (by simp)
  | _ => exact isTrue trivial

/-- `ticks` fits all sleeping processes. -/
structure Rested (w : Naps m) : Prop where
  ticks : w.base.kernel.ticks < 2 ^ 32
  fits : ∀ p x, w.nap p = some x → x.Fits w.base.kernel.ticks

/-- Every sleep that returned 0 lasted as long as asked. -/
def Naps.Served (w : Naps m) : Prop := ∀ x ∈ w.slept, x.Served

theorem Rested.congr {w : Naps m} {s : State m} (h : Rested w) (ht : s.kernel.ticks = w.base.kernel.ticks) :
    Rested { w with base := s } := by
  refine ⟨?_, fun p x hx => ?_⟩
  · show s.kernel.ticks < 2 ^ 32
    rw [ht]
    exact h.ticks
  · show x.Fits s.kernel.ticks
    rw [ht]
    exact h.fits p x hx

theorem Rested.setNap {w : Naps m} (h : Rested w) {p : Slot} {o : Option Nap}
    (ho : ∀ x, o = some x → x.Fits w.base.kernel.ticks) : Rested (w.setNap p o) := by
  refine ⟨h.ticks, fun q x hx => ?_⟩
  have hq : Function.update w.nap p o q = some x := hx
  by_cases hqp : q = p
  · subst hqp
    rw [Function.update_self] at hq
    exact ho x hq
  · rw [Function.update_of_ne hqp] at hq
    exact h.fits q x hq

/-- The rest of the system steps. -/
theorem rested_other {w : Naps m} (h : Rested w) {e : Event m} {s' : State m} (hs : step w.base e = some (.ok s')) :
    Rested { w with base := s', nap := fun p => (w.nap p).map (Nap.count e) } := by
  have hticks := h.ticks
  by_cases he : e = .tick
  · subst he
    rw [step_tick hs]
    refine ⟨?_, fun p x hx => ?_⟩
    · show (w.base.kernel.ticks + 1) % 2 ^ 32 < 2 ^ 32
      omega
    · obtain ⟨y, hy, rfl⟩ := Option.map_eq_some_iff.1 hx
      exact (h.fits p y hy).tick
  · have hcount : Nap.count e = id := by
      funext x
      cases e with
      | tick => exact absurd rfl he
      | _ => rfl
    have hcases := step_ticks he hs
    refine ⟨?_, fun p x hx => ?_⟩
    · show s'.kernel.ticks < 2 ^ 32
      omega
    · have hx' : (w.nap p).map (Nap.count e) = some x := hx
      rw [hcount, Option.map_id, id] at hx'
      show x.Fits s'.kernel.ticks
      rcases hcases with ht | ht
      · rw [ht]
        exact h.fits p x hx'
      · rw [ht]
        exact (h.fits p x hx').reset

/-- **The test of the loop** breaks the property exactly when it comes too soon. -/
theorem rested_test {w w' : Naps m} (h : Rested w) {c : Fin m} {p : Slot} {x : Nap}
    (hx : x.Fits w.base.kernel.ticks) (hs : w.test c p x = some (.ok w')) :
    Rested w' ∧ (w'.Served ↔ w.Served ∧ x.NotBefore w.base.kernel.ticks) := by
  unfold Naps.test at hs
  split at hs
  · rename_i hwaits
    have hnot := Nap.notBefore_of_waits hx h.ticks hwaits
    split at hs
    · cases hs
      refine ⟨h.setNap fun y hy => (by cases hy), ?_⟩
      exact ⟨fun hserved => ⟨hserved, hnot⟩, fun hserved => hserved.1⟩
    · cases hstep : step w.base (.sleep c .ticks) with
      | none =>
        rw [hstep] at hs
        cases hs
      | some r =>
        rw [hstep] at hs
        cases r with
        | error f => cases hs
        | ok s =>
          cases hs
          have ht : s.kernel.ticks = w.base.kernel.ticks := by
            obtain ⟨q, y, -, -, -, rfl⟩ := step_sleep hstep
            rfl
          have hbase : Rested { w with base := s } := h.congr ht
          refine ⟨hbase.setNap fun z hz => ?_, ?_⟩
          · cases hz
            show x.Fits s.kernel.ticks
            rwa [ht]
          · exact ⟨fun hserved => ⟨hserved, hnot⟩, fun hserved => hserved.1⟩
  · rename_i hends
    cases hs
    have hnap : Rested (w.setNap p none) := h.setNap fun y hy => by cases hy
    refine ⟨⟨hnap.ticks, hnap.fits⟩, ?_⟩
    rw [← Nap.served_iff hx hends]
    constructor
    · intro hserved
      exact ⟨fun y hy => hserved y (List.mem_cons_of_mem x hy), hserved x List.mem_cons_self⟩
    · rintro ⟨hserved, hnew⟩ y hy
      rcases List.mem_cons.1 hy with rfl | hy
      · exact hnew
      · exact hserved y hy

theorem rested_step (w : Naps m) (e : NapEvent m) (w' : Naps m) (h : Rested w) (hs : w.step e = some (.ok w')) :
    Rested w' ∧ (w'.Served ↔ w.Served ∧ NotBefore w e) := by
  cases e with
  | other e =>
    unfold Naps.step at hs
    dsimp only at hs
    split at hs
    · cases hs
    · cases hstep : step w.base e with
      | none =>
        rw [hstep] at hs
        cases hs
      | some r =>
        rw [hstep] at hs
        cases r with
        | error f => cases hs
        | ok s =>
          cases hs
          exact ⟨rested_other h hstep, fun hserved => ⟨hserved, trivial⟩, fun hserved => hserved.1⟩
  | sysSleep c n =>
    unfold Naps.step at hs
    dsimp only at hs
    split at hs
    · rename_i p k hu
      split at hs
      · rename_i hn
        have hfits := Nap.fits_start hn.2 h.ticks
        obtain ⟨hrested, hiff⟩ := rested_test h hfits hs
        -- at the start `ticks` is `ticks0`
        have hnot : (⟨n, w.base.kernel.ticks, 0⟩ : Nap).NotBefore w.base.kernel.ticks := .inr (.inl le_rfl)
        refine ⟨hrested, fun hserved => ⟨(hiff.1 hserved).1, trivial⟩, fun hserved => hiff.2 ⟨hserved.1, hnot⟩⟩
      · cases hs
    · cases hs
  | resume c =>
    unfold Naps.step at hs
    dsimp only at hs
    split at hs
    · rename_i p k hu
      split at hs
      · rename_i x hx
        obtain ⟨hpc, -⟩ := user_some hu
        have hguard : NotBefore w (.resume c) ↔ x.NotBefore w.base.kernel.ticks := by
          show (∀ y ∈ (w.base.pc c).proc.bind w.nap, y.NotBefore w.base.kernel.ticks) ↔ _
          rw [hpc]
          show (∀ y ∈ w.nap p, y.NotBefore w.base.kernel.ticks) ↔ _
          rw [hx]
          simp
        rw [hguard]
        exact rested_test h (h.fits p x hx) hs
      · cases hs
    · cases hs

theorem userinit_ticks {k : Kernel} (hk : userinit Kernel.zero = .ok k) : k.ticks = 0 := by
  have h : okWith (fun k : Kernel => k.ticks = 0) (userinit Kernel.zero) = true := by decide +kernel
  have hticks := of_okWith h hk
  exact hticks

/-- **A sleep lasts at least as long as asked**: in every run from `userinit`, of any number of CPUs, all calls of
`sys_sleep` that returned 0 saw at least as many timer interrupts as their argument says, if and only if no test of
the loop found `ticks` below `ticks0` too soon. -/
theorem sleep_lasts (m : ℕ) (k : Kernel) (hk : userinit Kernel.zero = .ok k) (es : List (NapEvent m)) (w : Naps m)
    (hr : (napping m).run (napsFrom m k) es = some (.ok w)) :
    (∀ x ∈ w.slept, 0 ≤ x.n → x.n ≤ x.seen) ↔ (napping m).Guarded NotBefore (napsFrom m k) es := by
  have h0 : Rested (napsFrom m k) := by
    refine ⟨?_, fun p x hx => (by cases hx)⟩
    show k.ticks < 2 ^ 32
    rw [userinit_ticks hk]
    decide
  have hP : (napsFrom m k).Served := fun x hx => by cases hx
  exact Machine.guarded_iff (M := napping m) (I := Rested) (P := Naps.Served) h0 hP rested_step hr

/-- A run from `userinit`, and what holds at its end. -/
theorem napping_any (es : List (NapEvent m)) (P : Kernel → Naps m → Bool)
    (h : (match userinit Kernel.zero with
      | .ok k => match (napping m).run (napsFrom m k) es with
        | some (.ok w) => P k w
        | _ => false
      | .error _ => false) = true) : ∃ k w, userinit Kernel.zero = .ok k ∧
      (napping m).run (napsFrom m k) es = some (.ok w) ∧ P k w = true := by
  split at h
  · rename_i k hk
    split at h
    · rename_i w hw
      exact ⟨k, w, hk, hw, h⟩
    · cases h
  · cases h

/-- The only process calls `sys_sleep(1)`, and the next timer interrupt wakes it up. -/
def sleepOne : List (NapEvent 1) :=
  [.other (.sched 0), .other (.sched 0), .sysSleep 0 1, .other (.sched 0), .other (.sched 0), .other .tick,
    .other (.wakeup .ticks), .other (.sched 0), .other (.sched 0), .resume 0]

theorem sleep_lasts_sleepOne : ∃ k w, userinit Kernel.zero = .ok k ∧
    (napping 1).run (napsFrom 1 k) sleepOne = some (.ok w) ∧ w.slept = [⟨1, 0, 1⟩] ∧
    ∀ x ∈ w.slept, 0 ≤ x.n → x.n ≤ x.seen := by
  obtain ⟨k, w, hk, hr, hP⟩ := napping_any sleepOne
    (fun k w => (napping 1).check NotBefore (napsFrom 1 k) sleepOne && decide (w.slept = [⟨1, 0, 1⟩]))
    (by decide +kernel)
  obtain ⟨hG, hslept⟩ := (Bool.and_eq_true _ _).mp hP
  exact ⟨k, w, hk, hr, of_decide_eq_true hslept, (sleep_lasts 1 k hk _ w hr).2 (Machine.guarded_of_check hG)⟩

/-- `init` forks, and after the first timer interrupt it calls `sys_sleep(3)`. The child takes the scheduler lock,
which resets `ticks` and wakes `init` up, ends it and waits for something else. -/
def sleepThenLock : List (NapEvent 1) :=
  [.other (.sched 0), .other (.sched 0), .other (.fork 0), .other (.cont 0), .other .tick, .other (.wakeup .ticks),
    .other (.yield 0)] ++ List.replicate 4 (.other (.sched 0)) ++
  [.sysSleep 0 3] ++ List.replicate 6 (.other (.sched 0)) ++
  [.other (.schedulerLock 0 true), .other (.cont 0), .other (.cont 0), .other (.schedulerUnlock 0 true),
    .other (.cont 0), .other (.cont 0), .other (.sleep 0 (.other 7))] ++ List.replicate 6 (.other (.sched 0)) ++
  [.resume 0]

/-- **A sleep returns at once**: `ticks` is 0 and `ticks0` is 1, so their difference is the largest number. -/
theorem sleep_returns_early : ∃ k w, userinit Kernel.zero = .ok k ∧
    (napping 1).run (napsFrom 1 k) sleepThenLock = some (.ok w) ∧ ¬ ∀ x ∈ w.slept, 0 ≤ x.n → x.n ≤ x.seen := by
  obtain ⟨k, w, hk, hr, hP⟩ := napping_any sleepThenLock (fun _ w => decide ((⟨3, 1, 0⟩ : Nap) ∈ w.slept))
    (by decide +kernel)
  refine ⟨k, w, hk, hr, fun h => ?_⟩
  exact absurd (h ⟨3, 1, 0⟩ (of_decide_eq_true hP) (by decide)) (by decide)

end Xv6.Mlfq
