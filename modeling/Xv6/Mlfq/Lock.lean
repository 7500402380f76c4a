import Xv6.Mlfq.Release

/-!
# Runs under the scheduler lock

* `step_protocol`: every orderly step keeps to the protocol.
* `history`, `begins`, `ends`: the locks that a run takes and ends.
* **`lock_protocol`**: the protocol in every orderly run on one CPU.
* **`unlock_in_a_slice`**: a lock and unlock within one time slice of L0 break it.
-/

namespace Xv6.Mlfq

variable {s s' : State 1} {k k' k'' : Kernel} {p q r : Slot} {que : Lv}

/-! ## Steps -/

/-- The password was wrong. -/
def Call.Failed : Call → Prop
  | .lockFail | .lockKill | .unlockFail => True
  | _ => False

/-- No call has a wrong password, and a process that comes back with `ptable.lock` is in `wait`. -/
structure Called (s : State 1) : Prop where
  right : ∀ p, ¬ (s.call p).Failed
  held : ∀ p x, s.pc 0 = .held p x → s.call p = .wait

theorem sched_held (hs : SchedStep s 0 s') :
    s'.call = s.call ∧ ∀ p x, s'.pc 0 = .held p x → s.call p = .wait := by
  have hgoto : ∀ (k' : Kernel) {pc : Pc}, (∀ p x, pc ≠ .held p x) → ∀ p x,
      ({ s with kernel := k' }.goto 0 pc).pc 0 = .held p x → s.call p = .wait := by
    intro k' pc hpc p x h
    rw [goto_pc] at h
    exact absurd h (hpc p x)
  have hdispatch : ∀ q y p x, (s.dispatch 0 q y).pc 0 = .held p x → s.call p = .wait := by
    intro q y p x h
    unfold State.dispatch at h
    rw [goto_pc] at h
    split at h
    · rename_i hq
      cases h
      exact hq
    · cases h
  cases hs with
  | acquire pc _ _ hto _ => exact ⟨rfl, hgoto s.kernel fun p x h => by subst h; exact hto⟩
  | go pc _ hto _ _ => exact ⟨rfl, hgoto s.kernel fun p x h => by subst h; exact hto⟩
  | forget q _ _ => exact ⟨rfl, hgoto _ (by simp)⟩
  | lock q _ _ _ => exact ⟨rfl, hdispatch q .lock⟩
  | drop que p k' _ _ _ => exact ⟨rfl, hgoto _ (by simp)⟩
  | slice que x q _ _ _ _ => exact ⟨rfl, hdispatch q x⟩
  | dropL2 min p k' _ _ _ => exact ⟨rfl, hgoto _ (by simp)⟩
  | sliceL2 min q _ _ => exact ⟨rfl, hdispatch q .l2⟩
  | boost k' _ _ => exact ⟨rfl, hgoto _ (by simp)⟩
  | release p k' _ _ _ => exact ⟨rfl, hgoto _ (by simp)⟩
  | again q _ => exact ⟨rfl, hgoto _ (by simp)⟩
  | demote que down x p k' _ _ _ _ => exact ⟨rfl, hgoto _ (by simp)⟩
  | promote q _ => exact ⟨rfl, hgoto _ (by simp)⟩

/-- What `wait` leaves of the lock, the caller and its place. -/
theorem waitPass_lock (s : State 1) (p : Slot) (x : Kont) :
    SameLock s.kernel (s.waitPass 0 p x).kernel ∧
      ((s.waitPass 0 p x).pc 0 = .run p x ∨ (s.waitPass 0 p x).pc 0 = .ret p x) ∧
      ∃ y : Call, (y = .none ∨ y = .wait) ∧ (s.waitPass 0 p x).call = Function.update s.call p y := by
  unfold State.waitPass
  split
  · exact ⟨⟨rfl, rfl, rfl⟩, .inl (goto_pc ..), .none, .inl rfl, rfl⟩
  · split
    · exact ⟨.refl _, .inl (goto_pc ..), .none, .inl rfl, rfl⟩
    · exact ⟨⟨rfl, rfl, rfl⟩, .inr (goto_pc ..), .wait, .inr rfl, rfl⟩

/-- A step of a system call in progress changes the call, and leaves the CPU where it is. -/
theorem cont_call (hright : ∀ p, ¬ (s.call p).Failed) (hs : step s (.cont 0) = some (.ok s')) :
    ∃ p x y, s.pc 0 = .run p x ∧ s'.pc 0 = .run p x ∧ ¬ y.Failed ∧ s'.call = Function.update s.call p y := by
  simp only [step] at hs
  split at hs
  · rename_i p x hpc
    have hmap : ∀ {r : Except Fault Kernel} {y : Call}, ¬ y.Failed →
        some (r.map fun k => { s with kernel := k }.setCall p y) = some (.ok s') →
        ∃ q z y, Pc.run p x = .run q z ∧ s'.pc 0 = .run q z ∧ ¬ y.Failed ∧ s'.call = Function.update s.call q y := by
      intro r y hy h
      cases r with
      | error e => cases h
      | ok k =>
        cases h
        exact ⟨p, x, y, rfl, hpc, hy, rfl⟩
    rw [hpc]
    unfold State.cont at hs
    have hnot := hright p
    cases hcall : s.call p with
    | lockFail => exact absurd (by rw [hcall]; trivial) hnot
    | lockKill => exact absurd (by rw [hcall]; trivial) hnot
    | unlockFail => exact absurd (by rw [hcall]; trivial) hnot
    | none =>
      rw [hcall] at hs
      cases hs
    | wait =>
      rw [hcall] at hs
      cases hs
    | fork np =>
      rw [hcall] at hs
      dsimp only at hs
      split at hs
      · exact hmap id hs
      · cases hs
    | lockTicks =>
      rw [hcall] at hs
      dsimp only at hs
      split at hs
      · exact hmap id hs
      · cases hs
    | lockSet =>
      rw [hcall] at hs
      exact hmap id hs
    | unlockSet =>
      rw [hcall] at hs
      exact hmap id hs
    | unlockClear =>
      rw [hcall] at hs
      exact hmap id hs
  · cases hs

/-- **Calls with the right password** leave no failed one behind. -/
theorem called_step (h : Called s) {e : Event 1} (hr : e.right) (hs : step s e = some (.ok s')) : Called s' := by
  have hsame : ∀ {t : State 1}, t.call = s.call → (t.pc 0 = s.pc 0 ∨ ∀ p x, t.pc 0 ≠ .held p x) → Called t := by
    intro t hc hpc
    refine ⟨fun p => by rw [hc]; exact h.right p, fun p x hp => ?_⟩
    rcases hpc with hpc | hpc
    · rw [hpc] at hp
      rw [hc]
      exact h.held p x hp
    · exact absurd hp (hpc p x)
  have hset : ∀ {t : State 1} {r : Slot} {y : Call}, t.call = Function.update s.call r y →
      ¬ y.Failed → (∀ p x, t.pc 0 ≠ .held p x) → Called t := by
    intro t r y hc hy hpc
    refine ⟨fun p => ?_, fun p x hp => absurd hp (hpc p x)⟩
    rw [hc, Function.update_apply]
    split
    · exact hy
    · exact h.right p
  cases e with
  | sched c =>
    obtain rfl : c = 0 := Subsingleton.elim _ _
    obtain ⟨hc, hheld⟩ := sched_held (sched_cases hs)
    exact ⟨fun p => by rw [hc]; exact h.right p, fun p x hp => by rw [hc]; exact hheld p x hp⟩
  | tick =>
    rw [step_tick hs]
    exact hsame rfl (.inl rfl)
  | wakeup chan =>
    obtain ⟨-, k', -, rfl⟩ := step_wakeup hs
    exact hsame rfl (.inl rfl)
  | yield c =>
    obtain rfl : c = 0 := Subsingleton.elim _ _
    obtain ⟨p, x, -, -, rfl⟩ := step_yield hs
    exact hsame rfl (.inr fun q y => by rw [goto_pc]; simp)
  | sleep c chan =>
    obtain rfl : c = 0 := Subsingleton.elim _ _
    obtain ⟨p, x, -, -, -, rfl⟩ := step_sleep hs
    exact hsame rfl (.inr fun q y => by rw [goto_pc]; simp)
  | exit c =>
    obtain rfl : c = 0 := Subsingleton.elim _ _
    obtain ⟨p, x, k', -, -, -, -, rfl⟩ := step_exit hs
    exact hsame rfl (.inr fun q y => by rw [goto_pc]; simp)
  | wait c =>
    obtain rfl : c = 0 := Subsingleton.elim _ _
    obtain ⟨p, x, -, rfl⟩ := step_wait hs
    obtain ⟨-, hpc, y, hy, hcall⟩ := waitPass_lock s p x
    refine hset hcall ?_ fun q z => ?_
    · rcases hy with rfl | rfl
      · exact id
      · exact id
    · rcases hpc with hpc | hpc
      · rw [hpc]
        simp
      · rw [hpc]
        simp
  | kill c pid =>
    rw [step_kill hs]
    exact hsame rfl (.inl rfl)
  | setPriority c pid pr =>
    obtain ⟨k', -, rfl⟩ := step_setPriority hs
    exact hsame rfl (.inl rfl)
  | fork c =>
    obtain rfl : c = 0 := Subsingleton.elim _ _
    obtain ⟨p, x, hpc, -, rfl | ⟨np, k', -, -, rfl⟩⟩ := step_fork hs
    · exact h
    · exact hset rfl id fun q y => by show s.pc 0 ≠ _; rw [hpc]; simp
  | forkFail c =>
    obtain rfl : c = 0 := Subsingleton.elim _ _
    obtain ⟨p, x, np, hpc, -, rfl⟩ := step_forkFail hs
    exact hset rfl id fun q y => by show s.pc 0 ≠ _; rw [hpc]; simp
  | schedulerLock c ok =>
    obtain rfl : c = 0 := Subsingleton.elim _ _
    obtain rfl : ok = true := hr
    simp only [step] at hs
    split at hs
    · rename_i p x hu
      cases hs
      exact hset rfl id fun q y => by show s.pc 0 ≠ _; rw [(user_some hu).1]; simp
    · cases hs
  | schedulerUnlock c ok =>
    obtain rfl : c = 0 := Subsingleton.elim _ _
    obtain rfl : ok = true := hr
    simp only [step] at hs
    split at hs
    · rename_i p x hu
      cases hs
      exact hset rfl id fun q y => by show s.pc 0 ≠ _; rw [(user_some hu).1]; simp
    · cases hs
  | cont c =>
    obtain rfl : c = 0 := Subsingleton.elim _ _
    obtain ⟨p, x, y, -, hpc, hy, hcall⟩ := cont_call h.right hs
    exact hset hcall hy fun q z => by rw [hpc]; simp

/-- **The system calls in progress.** -/
theorem cont_protocol (h : Lawful s) (hcalled : Called s) (ho : Orderly s (.cont 0))
    (hs : step s (.cont 0) = some (.ok s')) : Obeys s (action s (.cont 0)) s' := by
  simp only [step] at hs
  split at hs
  · rename_i r x hpc
    unfold Orderly at ho
    simp only [hpc] at ho
    -- a step that has nothing to do with the lock
    have hother : ∀ {k' : Kernel}, SameLock s.kernel k' → s.call r ≠ .unlockClear →
        s' = { s with kernel := k' }.setCall r .none → Obeys s .other s' := by
      intro k' hk hc hs'
      subst hs'
      refine .of_lawfully (.other _) trivial
        (h.running (.inl hpc) (.inl hpc) hk.locked hk.unlocked (.inl hk.me) hc ?_)
      rw [setCall_self]
      simp
    unfold State.cont at hs
    cases hcall : s.call r with
    | none =>
      simp only [hcall] at hs
      cases hs
    | wait =>
      simp only [hcall] at hs
      cases hs
    | fork np =>
      have hact : action s (.cont 0) = .other := by simp only [action, hpc, hcall]
      simp only [hcall] at hs
      split at hs
      · rw [hact]
        cases hk : forkReady s.kernel r np with
        | error e =>
          rw [hk] at hs
          cases hs
        | ok k' =>
          rw [hk] at hs
          cases hs
          exact hother (.of_globals (forkReady_globals hk)) (by rw [hcall]; simp) rfl
      · cases hs
    | lockSet =>
      have hact : action s (.cont 0) = .lock r := by simp only [action, hpc, hcall]
      simp only [hcall] at hs ho
      cases hs
      obtain ⟨y, hproto, hlaw⟩ := h.lockSet hpc hcall ho rfl
      rw [hact]
      exact .of_lawfully hproto trivial hlaw
    | lockTicks =>
      have hact : action s (.cont 0) = .other := by simp only [action, hpc, hcall]
      simp only [hcall] at hs
      split at hs
      · rw [hact]
        cases hk : wakeup1 { s.kernel with ticks := 0 } (some .ticks) with
        | error e =>
          rw [hk] at hs
          cases hs
        | ok k' =>
          rw [hk] at hs
          cases hs
          have h1 : SameLock s.kernel { s.kernel with ticks := 0 } := ⟨rfl, rfl, rfl⟩
          exact hother (h1.trans (.of_globals (wakeup1_globals hk))) (by rw [hcall]; simp) rfl
      · cases hs
    | lockFail => exact absurd (by rw [hcall]; trivial) (hcalled.right r)
    | lockKill => exact absurd (by rw [hcall]; trivial) (hcalled.right r)
    | unlockSet =>
      have hact : action s (.cont 0) = .unlock r := by simp only [action, hpc, hcall]
      simp only [hcall] at hs ho
      cases hs
      obtain ⟨y, hproto, hlaw⟩ := h.unlockSet hpc hcall ho rfl
      rw [hact]
      exact .of_lawfully hproto trivial hlaw
    | unlockClear =>
      have hact : action s (.cont 0) = .clear r := by simp only [action, hpc, hcall]
      simp only [hcall] at hs ho
      cases hs
      obtain ⟨y, hproto, hlaw⟩ := h.unlockClear hpc hcall ho rfl
      rw [hact]
      exact .of_lawfully hproto trivial hlaw
    | unlockFail => exact absurd (by rw [hcall]; trivial) (hcalled.right r)
  · cases hs

/-- **Every orderly step keeps to the protocol.** -/
theorem step_protocol (h : Lawful s) (hcalled : Called s) {e : Event 1} (hr : e.right) (ho : Orderly s e)
    (hs : step s e = some (.ok s')) : Obeys s (action s e) s' := by
  have hother : Lawfully s' s.phase → Obeys s .other s' := fun hl => .of_lawfully (.other _) trivial hl
  cases e with
  | sched c =>
    obtain rfl : c = 0 := Subsingleton.elim _ _
    exact sched_protocol h ho hs
  | tick =>
    rw [step_tick hs] at hother ⊢
    exact hother (h.quiet ⟨rfl, rfl, rfl⟩ rfl rfl (fun _ => rfl) fun _ hx => hx)
  | wakeup chan =>
    obtain ⟨hfree, k', hk, rfl⟩ := step_wakeup hs
    refine hother (h.quiet (.of_globals (wakeup1_globals hk)) rfl rfl (fun hm => ?_) fun x hx => ?_)
    · have hf := hfree 0
      rw [hm] at hf
      cases hf
    · rcases (wakeup1_woke hk).state x with h1 | ⟨-, h1⟩
      · exact h1.trans hx
      · exact h1
  | yield c =>
    obtain rfl : c = 0 := Subsingleton.elim _ _
    obtain ⟨p, x, hpc, -, rfl⟩ := step_yield hs
    refine hother (h.yield hpc (goto_pc ..) ⟨rfl, rfl, rfl⟩ rfl ?_)
    show ((s.kernel.upd p fun x => { x with state := .runnable }).proc p).state = _
    rw [upd_proc_self]
  | sleep c chan =>
    obtain rfl : c = 0 := Subsingleton.elim _ _
    obtain ⟨p, x, hpc, hcall, -, rfl⟩ := step_sleep hs
    have hc : s.call p ≠ .unlockClear := by
      rw [hcall]
      simp
    exact hother (h.running (.inl hpc) (.inr (goto_pc ..)) rfl rfl (.inl rfl) hc hc)
  | exit c =>
    obtain rfl : c = 0 := Subsingleton.elim _ _
    obtain ⟨p, x, k', hpc, hcall, -, hk, rfl⟩ := step_exit hs
    have hc : s.call p ≠ .unlockClear := by
      rw [hcall]
      simp
    have hlock := SameLock.of_globals (exit_globals hk)
    exact hother (h.running (.inl hpc) (.inr (goto_pc ..)) hlock.locked hlock.unlocked (.inl hlock.me) hc hc)
  | wait c =>
    obtain rfl : c = 0 := Subsingleton.elim _ _
    obtain ⟨p, x, hpc, rfl⟩ := step_wait hs
    obtain ⟨hlock, hpc', y, hy, hcall⟩ := waitPass_lock s p x
    have hc : s.call p ≠ .unlockClear := by
      rcases hpc with ⟨-, -, hc⟩ | hpc
      · rw [hc]
        simp
      · rw [hcalled.held p x hpc]
        simp
    refine hother (h.running (hpc.imp (fun h => h.1) id) hpc' hlock.locked hlock.unlocked (.inl hlock.me) hc ?_)
    rw [hcall, Function.update_self]
    rcases hy with rfl | rfl
    · simp
    · simp
  | kill c pid =>
    rw [step_kill hs] at hother ⊢
    have hm := kill_mild s.kernel pid
    refine hother (h.quiet (.of_globals (kill_globals s.kernel pid)) rfl rfl (fun _ => hm.queue) fun x hx => ?_)
    rcases hm.state x with h1 | ⟨-, h1⟩
    · exact h1.trans hx
    · exact h1
  | setPriority c pid pr =>
    obtain ⟨k', hk, rfl⟩ := step_setPriority hs
    have hm := setPriority_mild hk
    refine hother (h.quiet (.of_globals (setPriority_globals hk)) rfl rfl (fun _ => hm.queue) fun x hx => ?_)
    rcases hm.state x with h1 | ⟨-, h1⟩
    · exact h1.trans hx
    · exact h1
  | fork c =>
    obtain rfl : c = 0 := Subsingleton.elim _ _
    obtain ⟨p, x, hpc, hcall, rfl | ⟨np, k', -, hk, rfl⟩⟩ := step_fork hs
    · exact hother ⟨rfl, h⟩
    · have hlock := SameLock.of_globals (allocproc_globals hk)
      refine hother (h.running (.inl hpc) (.inl hpc) hlock.locked hlock.unlocked (.inl hlock.me)
        (by rw [hcall]; simp) ?_)
      rw [setCall_self]
      simp
  | forkFail c =>
    obtain rfl : c = 0 := Subsingleton.elim _ _
    obtain ⟨p, x, np, hpc, hcall, rfl⟩ := step_forkFail hs
    refine hother (h.running (.inl hpc) (.inl hpc) rfl rfl (.inl rfl) (by rw [hcall]; simp) ?_)
    rw [setCall_self]
    simp
  | schedulerLock c ok =>
    obtain rfl : c = 0 := Subsingleton.elim _ _
    obtain rfl : ok = true := hr
    simp only [step] at hs
    split at hs
    · rename_i p x hu
      obtain ⟨hpc, hcall⟩ := user_some hu
      cases hs
      refine hother (h.running (.inl hpc) (.inl hpc) rfl rfl (.inr rfl) (by rw [hcall]; simp) ?_)
      rw [setCall_self]
      simp
    · cases hs
  | schedulerUnlock c ok =>
    obtain rfl : c = 0 := Subsingleton.elim _ _
    obtain rfl : ok = true := hr
    simp only [step] at hs
    split at hs
    · rename_i p x hu
      obtain ⟨hpc, hcall⟩ := user_some hu
      cases hs
      refine hother (h.running (.inl hpc) (.inl hpc) rfl rfl (.inr rfl) (by rw [hcall]; simp) ?_)
      rw [setCall_self]
      simp
    · cases hs
  | cont c =>
    obtain rfl : c = 0 := Subsingleton.elim _ _
    exact cont_protocol h hcalled ho hs

/-! ## Who gets the CPU -/

/-- Nothing but `scheduler` gives the CPU to a process. -/
theorem step_proc {e : Event 1} (he : e ≠ .sched 0) (hs : step s e = some (.ok s')) :
    (s'.pc 0).proc = (s.pc 0).proc := by
  cases e with
  | sched c =>
    obtain rfl : c = 0 := Subsingleton.elim _ _
    exact absurd rfl he
  | tick => rw [step_tick hs]
  | wakeup chan =>
    obtain ⟨-, k', -, rfl⟩ := step_wakeup hs
    rfl
  | yield c =>
    obtain rfl : c = 0 := Subsingleton.elim _ _
    obtain ⟨p, x, hpc, -, rfl⟩ := step_yield hs
    rw [goto_pc, hpc]
    rfl
  | sleep c chan =>
    obtain rfl : c = 0 := Subsingleton.elim _ _
    obtain ⟨p, x, hpc, -, -, rfl⟩ := step_sleep hs
    rw [goto_pc, hpc]
    rfl
  | exit c =>
    obtain rfl : c = 0 := Subsingleton.elim _ _
    obtain ⟨p, x, k', hpc, -, -, -, rfl⟩ := step_exit hs
    rw [goto_pc, hpc]
    rfl
  | wait c =>
    obtain rfl : c = 0 := Subsingleton.elim _ _
    obtain ⟨p, x, hpc, rfl⟩ := step_wait hs
    obtain ⟨-, hpc', -⟩ := waitPass_lock s p x
    have hold : (s.pc 0).proc = some p := by
      rcases hpc with ⟨hpc, -⟩ | hpc
      · rw [hpc]
        rfl
      · rw [hpc]
        rfl
    rw [hold]
    rcases hpc' with hpc' | hpc'
    · rw [hpc']
      rfl
    · rw [hpc']
      rfl
  | kill c pid => rw [step_kill hs]
  | setPriority c pid pr =>
    obtain ⟨k', -, rfl⟩ := step_setPriority hs
    rfl
  | fork c =>
    obtain ⟨p, x, -, -, rfl | ⟨np, k', -, -, rfl⟩⟩ := step_fork hs
    · rfl
    · rfl
  | forkFail c =>
    obtain ⟨p, x, np, -, -, rfl⟩ := step_forkFail hs
    rfl
  | schedulerLock c ok =>
    obtain ⟨p, x, y, -, -, -, rfl⟩ := step_schedulerLock hs
    rfl
  | schedulerUnlock c ok =>
    obtain ⟨p, x, y, -, -, -, rfl⟩ := step_schedulerUnlock hs
    rfl
  | cont c =>
    obtain rfl : c = 0 := Subsingleton.elim _ _
    obtain ⟨p, x, k', y, -, -, rfl, -⟩ := step_cont hs
    rfl

theorem action_dispatch {e : Event 1} (hs : step s e = some (.ok s')) (hold : (s.pc 0).proc = none)
    (hnew : (s'.pc 0).proc = some p) : action s e = .dispatch p := by
  by_cases he : e = .sched 0
  · subst he
    have hnot : ∀ (k' : Kernel) {pc : Pc}, pc.proc = none →
        (({ s with kernel := k' }.goto 0 pc).pc 0).proc ≠ some p := by
      intro k' pc hpc h
      rw [goto_pc, hpc] at h
      cases h
    have hpick : ∀ {q x}, ((s.dispatch 0 q x).pc 0).proc = some p → q = p := by
      intro q x h
      rcases dispatch_pc s q x with hd | hd
      · rw [hd] at h
        exact Option.some.inj h
      · rw [hd] at h
        exact Option.some.inj h
    cases (sched_cases hs : SchedStep s 0 s') with
    | acquire pc _ _ hto _ => exact absurd hnew (hnot s.kernel hto.proc)
    | go pc _ hto _ _ => exact absurd hnew (hnot s.kernel hto.proc)
    | forget q _ _ => exact absurd hnew (hnot _ rfl)
    | lock q hpc hlock hst =>
      obtain rfl := hpick hnew
      simp only [action, hpc, hlock, if_true, if_pos hst]
    | drop que q k' _ _ _ => exact absurd hnew (hnot _ rfl)
    | slice que x q hpc _ _ hp =>
      obtain rfl := hpick hnew
      rw [hpc] at hp
      simp only [action, hpc, hp]
    | dropL2 min q k' _ _ _ => exact absurd hnew (hnot _ rfl)
    | sliceL2 min q hpc hp =>
      obtain rfl := hpick hnew
      rw [hpc] at hp
      simp only [action, hpc, hp]
    | boost k' _ _ => exact absurd hnew (hnot _ rfl)
    | release q k' hpc _ _ =>
      rw [hpc] at hold
      cases hold
    | again q hpc =>
      rw [hpc] at hold
      cases hold
    | demote que down x q k' hpc _ _ _ =>
      rw [hpc] at hold
      cases hold
    | promote q hpc =>
      rw [hpc] at hold
      cases hold
  · rw [step_proc he hs, hold] at hnew
    cases hnew

/-! ## Runs -/

/-- The locks that are not ended yet. -/
def Phase.pending : Phase → ℕ
  | .free | .released _ | .lost => 0
  | .held _ | .unlocking _ | .unlocked _ => 1
  | .relocked _ => 2

/-- A lock is taken, by a process that has none in force. -/
def begins : Phase × Action → Bool
  | (.free, .lock _) | (.unlocked _, .lock _) => true
  | _ => false

/-- A lock is ended: the release is carried out, or the owner is not RUNNABLE. -/
def ends : Phase × Action → Bool
  | (_, .release _) | (_, .timeout _) | (_, .drop _) => true
  | _ => false

theorem Proto.balance {x y : Phase} {a : Action} (h : Proto x a y) :
    (if begins (x, a) then 1 else 0) + x.pending = (if ends (x, a) then 1 else 0) + y.pending := by
  cases h with
  | other => cases x <;> rfl
  | owner p x hx => rcases hx with rfl | rfl | rfl <;> rfl
  | _ => rfl

/-- The phases and the actions of a run. -/
def history (s : State 1) : List (Event 1) → List (Phase × Action)
  | [] => []
  | e :: es => (s.phase, action s e) ::
    match step s e with
    | some (.ok s') => history s' es
    | _ => []

theorem history_snoc {es : List (Event 1)} (e : Event 1) (hr : (machine 1).run s es = some (.ok s')) :
    history s (es ++ [e]) = history s es ++ [(s'.phase, action s' e)] := by
  induction es generalizing s with
  | nil =>
    cases hr
    simp only [List.nil_append, history]
    split <;> rfl
  | cons a es ih =>
    simp only [Machine.run] at hr
    simp only [List.cons_append, history]
    have hstep : (machine 1).step s a = step s a := rfl
    cases hs : step s a with
    | none =>
      rw [hstep, hs] at hr
      cases hr
    | some r =>
      rw [hstep, hs] at hr
      cases r with
      | error f =>
        dsimp only at hr
        split at hr <;> cases hr
      | ok t => exact congrArg ((s.phase, action s a) :: ·) (ih hr)

/-- The state and the history of an orderly run from `userinit`. -/
structure Balanced (s₀ : State 1) (es : List (Event 1)) (s : State 1) : Prop where
  lawful : Lawful s
  called : Called s
  balance : (history s₀ es).countP begins = (history s₀ es).countP ends + s.phase.pending

theorem lock_run (hk : userinit Kernel.zero = .ok k) {es : List (Event 1)}
    (hG : (machine 1).Guarded (fun s e => e.right ∧ Orderly s e) (boot 1 k) es)
    (hr : (machine 1).run (boot 1 k) es = some (.ok s)) : Balanced (boot 1 k) es s := by
  have hflags : k.isLocked = false ∧ k.isUnlocked = false := by
    have h : okWith (fun k : Kernel => k.isLocked = false ∧ k.isUnlocked = false) (userinit Kernel.zero) = true := by
      decide
    have hboth := of_okWith h hk
    exact hboth
  have h0 : Lawfully (boot 1 k) .free := .intro (phase_free.2 hflags) trivial
  have hc0 : Called (boot 1 k) := ⟨fun p => id, fun p x h => by cases h⟩
  have hb0 : (history (boot 1 k) []).countP begins =
      (history (boot 1 k) []).countP ends + (boot 1 k).phase.pending := by
    rw [h0.1]
    rfl
  refine Machine.run_induct (M := machine 1)
    (P := fun es s => (machine 1).Guarded (fun s e => e.right ∧ Orderly s e) (boot 1 k) es → Balanced (boot 1 k) es s)
    (fun _ => ⟨h0.2, hc0, hb0⟩) (fun es s e s' hr ih hs hG => ?_) es s hr hG
  obtain ⟨hright, hord⟩ := hG.last hr
  obtain ⟨hlaw, hcalled, hbal⟩ := ih hG.init
  obtain ⟨hproto, -, hlaw'⟩ := step_protocol hlaw hcalled hright hord hs
  refine ⟨hlaw', called_step hcalled hright hs, ?_⟩
  have hstep := hproto.balance
  rw [history_snoc e hr, List.countP_append, List.countP_append, List.countP_singleton, List.countP_singleton]
  omega

/-- **The protocol of the scheduler lock** on one CPU, in every run from `userinit` in which the calls have the
right password and the steps are orderly: every lock is ended exactly once, every step keeps to the protocol,
the release puts the owner at the front of L0 with a fresh quantum and clears the flags, and a process other
than the owner gets the CPU only while both flags are 0. -/
theorem lock_protocol (k : Kernel) (hk : userinit Kernel.zero = .ok k) (es : List (Event 1)) (s : State 1)
    (hG : (machine 1).Guarded (fun s e => e.right ∧ Orderly s e) (boot 1 k) es)
    (hr : (machine 1).run (boot 1 k) es = some (.ok s)) :
    (history (boot 1 k) es).countP begins = (history (boot 1 k) es).countP ends + s.phase.pending ∧
    ∀ e s', e.right → Orderly s e → step s e = some (.ok s') →
      Proto s.phase (action s e) s'.phase ∧
      (∀ p, action s e = .release p ∨ action s e = .timeout p →
        (s'.kernel.queue .zero).front = some p ∧ (s'.kernel.proc p).lt = 0 ∧ s'.kernel.isUnlocked = false ∧
          (action s e = .timeout p → s'.kernel.isLocked = false)) ∧
      ∀ p, (s.pc 0).proc = none → (s'.pc 0).proc = some p →
        s.kernel.isLocked = false ∧ s.kernel.isUnlocked = false ∨ s.kernel.me = some p := by
  obtain ⟨hlaw, hcalled, hbal⟩ := lock_run hk hG hr
  refine ⟨hbal, fun e s' hright hord hs => ?_⟩
  obtain ⟨hproto, hdone, -⟩ := step_protocol hlaw hcalled hright hord hs
  refine ⟨hproto, fun p ha => ?_, fun p hold hnew => ?_⟩
  · rcases ha with ha | ha
    · rw [ha] at hdone
      exact ⟨hdone.1.front, hdone.1.lt, hdone.2, fun h => by rw [ha] at h; cases h⟩
    · rw [ha] at hdone
      exact ⟨hdone.1.front, hdone.1.lt, hdone.2.1, fun _ => hdone.2.2⟩
  · rw [action_dispatch hs hold hnew] at hproto
    exact hproto.who.imp phase_free.1 fun hx => (force_flags hx).2

/-- A process locks the scheduler and unlocks it in its next time slice. -/
def lockThenUnlock : List (Event 1) :=
  [.sched 0, .sched 0, .schedulerLock 0 true, .cont 0, .cont 0, .yield 0, .sched 0, .sched 0, .sched 0, .sched 0,
    .schedulerUnlock 0 true, .cont 0, .cont 0, .yield 0, .sched 0]

theorem lock_protocol_lockThenUnlock : ∃ k s, userinit Kernel.zero = .ok k ∧
    (machine 1).run (boot 1 k) lockThenUnlock = some (.ok s) ∧ s.phase = .free ∧
    (history (boot 1 k) lockThenUnlock).countP begins = (history (boot 1 k) lockThenUnlock).countP ends + 0 := by
  obtain ⟨k, s, hk, hr, hP⟩ := bootRun_any lockThenUnlock
    (fun x => (machine 1).check (fun s e => e.right ∧ Orderly s e) (boot 1 x.1) lockThenUnlock &&
      decide (x.2.phase = .free)) (by decide)
  rw [Bool.and_eq_true] at hP
  have hph := of_decide_eq_true hP.2
  have hbal := (lock_protocol k hk _ s (Machine.guarded_of_check hP.1) hr).1
  rw [hph] at hbal
  exact ⟨k, s, hk, hr, hph, hbal⟩

/-- `initproc` forks, locks and unlocks the scheduler within one time slice of L0, and sleeps. -/
def unlockInASlice : List (Event 1) :=
  [.sched 0, .sched 0, .fork 0, .cont 0, .schedulerLock 0 true, .cont 0, .cont 0, .schedulerUnlock 0 true,
    .cont 0, .cont 0, .sleep 0 (.other 7), .sched 0, .sched 0, .sched 0, .sched 0, .sched 0]

/-- **`isUnlocked` outlives its lock**: after a completed pair of `schedulerLock` and `schedulerUnlock` another
process gets the CPU, and the release has not been carried out. -/
theorem unlock_in_a_slice : ∃ k s s', userinit Kernel.zero = .ok k ∧ (∀ e ∈ unlockInASlice, e.right) ∧
    (machine 1).run (boot 1 k) unlockInASlice = some (.ok s) ∧ step s (.sched 0) = some (.ok s') ∧
    (s.pc 0).proc = none ∧ (s'.pc 0).proc = some 1 ∧ s.kernel.isLocked = false ∧
    s.kernel.isUnlocked = true ∧ s.kernel.me = some 0 := by
  obtain ⟨k, s, hk, hr, hP⟩ := bootRun_any unlockInASlice
    (fun x => match step x.2 (.sched 0) with
      | some (.ok s') => decide ((x.2.pc 0).proc = none ∧ (s'.pc 0).proc = some 1 ∧
          x.2.kernel.isLocked = false ∧ x.2.kernel.isUnlocked = true ∧ x.2.kernel.me = some 0)
      | _ => false) (by decide)
  dsimp only at hP
  split at hP
  · rename_i s' hs
    exact ⟨k, s, s', hk, by decide, hr, hs, of_decide_eq_true hP⟩
  · cases hP

end Xv6.Mlfq
