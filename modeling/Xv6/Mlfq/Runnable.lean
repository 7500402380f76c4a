import Xv6.Mlfq.Exclusive

/-!
# No runnable process is lost

`runnable_reachable`: in every state of a one-CPU run from `userinit` every `RUNNABLE`
process is on one of the three queues, as long as no step breaks a queue (`Tame`) and
no `kill` finds a sleeping process that `scheduler` has already taken off its queue
(`Saving`). `wakeup1` puts such a process back on L0; `kill` only makes it `RUNNABLE`.

`kill_loses_process`: a parent kills its sleeping child, which no pass of `scheduler`
will find again.
-/

namespace Xv6.Mlfq

variable {n : ℕ} {k k' : Kernel} {ls ls' : Lv → List Slot} {p : Slot}

/-- Every `RUNNABLE` process is on a queue. -/
def Dispatchable (k : Kernel) : Prop :=
  ∀ p, (k.proc p).state = .runnable → ∃ que, k.On que p

/-- A sleeping process that `kill` finds is on a queue. -/
def Kernel.KillsLinked (k : Kernel) (pid : ℕ) : Prop :=
  ∀ p, findPid k pid = some p → (k.proc p).state = .sleeping → ¬ k.Unlinked p

instance (k : Kernel) (pid : ℕ) : Decidable (k.KillsLinked pid) := by
  unfold Kernel.KillsLinked; infer_instance

/-- The event loses no process that it kills. -/
def Saving (s : State n) : Event n → Prop
  | .kill _ pid => s.kernel.KillsLinked pid
  | .cont c => ∀ p, (s.pc c).proc = some p → s.call p = .lockKill ∨ s.call p = .unlockFail →
      ∀ m, s.kernel.me = some m → s.kernel.KillsLinked (s.kernel.proc m).pid
  | _ => True

instance (s : State n) (e : Event n) : Decidable (Saving s e) := by
  unfold Saving; rcases e with ⟨⟩ <;> infer_instance

/-! ## Membership by `isThere` -/

theorem Links.linked (h : Links k ls) (hp : ¬ k.Unlinked p) : Linked ls p := by
  by_contra hno
  have hfalse : ∀ que, isThere k que p = .ok false := by
    intro que
    rw [isThere_total h que p, decide_eq_false fun hmem => hno ⟨que, hmem⟩]
  exact hp ⟨hfalse .zero, hfalse .one, hfalse .two⟩

/-! ## The invariant -/

theorem Kernel.KillsLinked.linked {pid : ℕ} (hk : k.KillsLinked pid) (h : Links k ls) (p : Slot)
    (hp : findPid k pid = some p) (hs : (k.proc p).state = .sleeping) : Linked ls p :=
  h.linked (hk p hp hs)

/-- `kill` moves nobody. -/
theorem kill_moved {pid : ℕ}
    (hk : ∀ p, findPid k pid = some p → (k.proc p).state = .sleeping → Linked ls p) :
    Moved k ls (kill k pid) ls := by
  unfold kill
  split
  · exact .refl k ls
  · rename_i p hp
    refine .upd (fun hr => ?_) (fun _ => rfl) fun _ => rfl
    by_cases hs : (k.proc p).state = .sleeping
    · exact .inr (hk p hp hs)
    · dsimp only at hr
      rw [if_neg hs] at hr
      exact .inl hr

theorem Flagged.moved (h : Queues k ls) {x : Call} (hf : Flagged k x k')
    (hk : x = .lockKill ∨ x = .unlockFail → ∀ m, k.me = some m → k.KillsLinked (k.proc m).pid) :
    Moved k ls k' ls := by
  cases hf with
  | lockSet => exact .of_proc rfl fun _ => rfl
  | lockFail => exact .of_proc rfl fun _ => rfl
  | lockKill m hm => exact kill_moved ((hk (.inl rfl) m hm).linked h.toLinks)
  | unlockSet => exact .of_proc rfl fun _ => rfl
  | unlockClear => exact .of_proc rfl fun _ => rfl
  | unlockFail m hm => exact kill_moved ((hk (.inr rfl) m hm).linked h.toLinks)

theorem setPriority_moved {pid : ℕ} {pr : ℤ} (h : setPriority k pid pr = .ok k') : Moved k ls k' ls := by
  unfold setPriority at h
  split at h
  · cases h
  · rename_i hpr
    split at h
    · cases h; exact .refl k ls
    · cases h
      refine ⟨⟨fun q x hx => .inr ⟨hx, ?_⟩, fun h3 x => ?_, fun _ => rfl⟩, fun _ h => h, fun x hx => .inl ?_⟩
      · rw [upd_proc]; split <;> rfl
      · rw [upd_proc]
        split
        · show pr.toNat ≤ 3
          omega
        · exact h3 x
      · rw [upd_proc] at hx
        split at hx <;> exact hx

/-- Whoever is runnable, or has the CPU, is on a queue. -/
structure Kept (s : State 1) (ls : Lv → List Slot) : Prop where
  queues : Queues s.kernel ls
  slice : ∀ p q, (s.pc 0).slice = some (p, q) → p ∈ ls q
  ready : ∀ p, (s.kernel.proc p).state = .runnable → Linked ls p
  current : ∀ p, (s.pc 0).proc = some p → Linked ls p

variable {s s' : State 1}

theorem Kept.dispatchable (h : Kept s ls) : Dispatchable s.kernel := by
  intro p hp
  obtain ⟨que, hq⟩ := h.ready p hp
  exact ⟨que, h.queues.toLinks.on_iff.2 hq⟩

/-- Processes move and the CPU keeps its process. -/
theorem Kept.moved (h : Kept s ls) (hq : Queues s'.kernel ls') (hg : Grows ls ls')
    (hm : Moved s.kernel ls s'.kernel ls') (hslice : (s'.pc 0).slice = (s.pc 0).slice)
    (hproc : (s'.pc 0).proc = (s.pc 0).proc) : Kept s' ls' where
  queues := hq
  slice p q hp := hg q p (h.slice p q (hslice ▸ hp))
  ready p hp := by
    rcases hm.ready p hp with hr | hr
    · exact hm.kept p (h.ready p hr)
    · exact hr
  current p hp := hm.kept p (h.current p (hproc ▸ hp))

/-- Processes move and the CPU has none. -/
theorem Kept.choosing (h : Kept s ls) (hq : Queues k' ls') (hkept : ∀ x, Linked ls x → Linked ls' x)
    (hready : ∀ x, (k'.proc x).state = .runnable → (s.kernel.proc x).state = .runnable ∨ Linked ls' x)
    {pc : Pc} (hslice : pc.slice = none) (hproc : pc.proc = none) :
    Kept ({ s with kernel := k' }.goto 0 pc) ls' where
  queues := hq
  slice p q hp := by rw [goto_pc, hslice] at hp; cases hp
  ready p hp := by
    rcases hready p hp with hr | hr
    · exact hkept p (h.ready p hr)
    · exact hr
  current p hp := by rw [goto_pc, hproc] at hp; cases hp

/-- A process that does not want to run leaves its queue. -/
theorem Kept.drop (h : Kept s ls) {que : Lv} (hdel : del s.kernel que p = .ok k')
    (hidle : (s.kernel.proc p).idle) {pc : Pc} (hslice : pc.slice = none) (hproc : pc.proc = none) :
    ∃ ls', Kept ({ s with kernel := k' }.goto 0 pc) ls' := by
  have hcore := del_core hdel
  have hq : ∃ ls', Queues k' ls' ∧ ∀ x, x ≠ p → Linked ls x → Linked ls' x := by
    by_cases hp : p ∈ ls que
    · refine ⟨_, del_queues h.queues hp hdel, ?_⟩
      rintro x hxp ⟨q, hx⟩
      exact ⟨q, (h.queues.toLinks.mem_erase hp).2 ⟨hx, hxp⟩⟩
    · rw [del_notMem h.queues.toLinks hp hdel]
      exact ⟨ls, h.queues, fun _ _ hx => hx⟩
  obtain ⟨ls', hq', hkept⟩ := hq
  refine ⟨ls', hq', fun x q hx => ?_, fun x hx => ?_, fun x hx => ?_⟩
  · rw [goto_pc, hslice] at hx; cases hx
  · have hr : (s.kernel.proc x).state = .runnable := (core_state hcore x).symm.trans hx
    have hxp : x ≠ p := by rintro rfl; exact hidle.1 hr
    exact hkept x hxp (h.ready x hr)
  · rw [goto_pc, hproc] at hx; cases hx

/-- A process on a queue gets the CPU. -/
theorem Kept.dispatch (h : Kept s ls) (hp : Linked ls p) {x : Kont}
    (hslice : ∀ q, x.que = some q → p ∈ ls q) : Kept (s.dispatch 0 p x) ls := by
  have hpc : ((s.dispatch 0 p x).pc 0).slice = x.que.map (fun q => (p, q)) ∧
      ((s.dispatch 0 p x).pc 0).proc = some p := by
    rw [State.dispatch, goto_pc]
    split <;> exact ⟨rfl, rfl⟩
  refine ⟨h.queues.wake p, fun y q hy => ?_, fun y hy => ?_, fun y hy => ?_⟩
  · rw [hpc.1, Option.map_eq_some_iff] at hy
    obtain ⟨q', hq', heq⟩ := hy
    cases heq
    exact hslice q hq'
  · have hst : ((s.kernel.upd p fun x => { x with state := .running, chan := none }).proc y).state =
        .runnable := hy
    rw [upd_state] at hst
    split at hst
    · cases hst
    · exact h.ready y hst
  · rw [hpc.2] at hy
    cases hy
    exact hp

/-! ## Steps -/

/-- While `scheduler` chooses on the only CPU nobody is running. -/
theorem fresh_one (h : Running s) (e : Event 1) : Fresh s e := by
  cases e with
  | sched c =>
    intro p hpick
    obtain ⟨hchoose, hidle, -⟩ := sched_picks hpick
    have hnot : (s.kernel.proc p).state ≠ .running := by
      intro hrun
      obtain ⟨c', hc'⟩ := h.onCpu p hrun
      rw [Subsingleton.elim c' c, hchoose.running] at hc'
      cases hc'
    unfold Proc.idle at hidle
    push Not at hidle
    by_contra hst
    exact hnot (hidle hst)
  | _ => trivial

theorem Moved.addTick (p : Slot) (h : Moved (k.upd p fun x => { x with lt := x.lt + 1 }) ls k' ls') :
    (∀ x, Linked ls x → Linked ls' x) ∧
      ∀ x, (k'.proc x).state = .runnable → (k.proc x).state = .runnable ∨ Linked ls' x := by
  refine ⟨h.kept, fun x hx => ?_⟩
  have := h.ready x hx
  rw [upd_state] at this
  split at this
  · rename_i hxp; rw [hxp]; exact hxp ▸ this
  · exact this

theorem sched_kept (hrun : Running s) (h : Kept s ls) (hG : s.kernel.TameSched (s.pc 0))
    (hs : SchedStep s 0 s') : ∃ ls', Kept s' ls' := by
  cases hs with
  | acquire pc _ _ hto _ =>
    exact ⟨ls, h.choosing h.queues (fun _ hx => hx) (fun _ hx => .inl hx) hto.slice hto.proc⟩
  | go pc _ hto _ _ =>
    exact ⟨ls, h.choosing h.queues (fun _ hx => hx) (fun _ hx => .inl hx) hto.slice hto.proc⟩
  | forget q _ _ =>
    have hq : Queues { s.kernel with isLocked := false, me := none } ls :=
      h.queues.congr rfl rfl fun _ => rfl
    exact ⟨ls, h.choosing hq (fun _ hx => hx) (fun _ hx => .inl hx) rfl rfl⟩
  | lock q _ _ hst => exact ⟨ls, h.dispatch (h.ready q hst) fun q hq => by cases hq⟩
  | drop que p k' _ hidle hdel => exact h.drop hdel hidle rfl rfl
  | dropL2 min p k' _ hidle hdel => exact h.drop hdel hidle rfl rfl
  | slice que x p _ hk hfront _ =>
    have hp : p ∈ ls que := by
      have := (h.queues.queue que).chain.head
      rw [hfront] at this
      exact List.mem_of_mem_head? this.symm
    refine ⟨ls, h.dispatch ⟨que, hp⟩ fun q hq => ?_⟩
    rw [hk] at hq
    cases hq
    exact hp
  | sliceL2 min p _ hpick =>
    exact ⟨ls, h.dispatch (h.ready p (fresh_one hrun (.sched 0) p hpick)) fun q hq => by cases hq⟩
  | boost k' _ hk =>
    rcases hk with rfl | hk
    · exact ⟨ls, h.choosing h.queues (fun _ hx => hx) (fun _ hx => .inl hx) rfl rfl⟩
    · obtain ⟨ls', hq, hm⟩ := boostPr_queues h.queues hk
      exact ⟨ls', h.choosing hq hm.kept hm.ready rfl rfl⟩
  | release p k' hpc hto hk =>
    rw [hpc] at hG
    obtain ⟨hfree, hl, hrear⟩ := hG hto
    have hp := hfree.free h.queues.toLinks
    obtain ⟨ls', hq, hm⟩ := releaseLock_queues (h.queues.addTick p) hp
      (by rw [upd_proc, if_pos rfl]; exact hl)
      (fun hnil => hrear (by rw [(h.queues.queue .zero).count, hnil]; rfl)) hk
    obtain ⟨hkept, hready⟩ := Moved.addTick p hm
    exact ⟨ls', h.choosing hq hkept hready rfl rfl⟩
  | again p _ =>
    obtain ⟨hkept, hready⟩ := Moved.addTick p (.refl _ ls)
    exact ⟨ls, h.choosing (h.queues.addTick p) hkept hready rfl rfl⟩
  | demote que down x p k' hpc hk hlv hd =>
    have hp : p ∈ ls que := h.slice p que (by rw [hpc]; simp [Pc.slice, hk])
    obtain ⟨ls', hq, hm, -⟩ := demote_queues h.queues hp hlv hd
    obtain ⟨hkept, hready⟩ := Moved.addTick p hm
    exact ⟨ls', h.choosing hq hkept hready rfl rfl⟩
  | promote p _ =>
    obtain ⟨hq, hm, -⟩ := promote_queues (p := p) h.queues
    obtain ⟨hkept, hready⟩ := Moved.addTick p hm
    exact ⟨ls, h.choosing hq hkept hready rfl rfl⟩

theorem waitPass_moved (s : State n) (c : Fin n) (p : Slot) (x : Kont) (ls : Lv → List Slot) :
    Moved s.kernel ls (s.waitPass c p x).kernel ls := by
  unfold State.waitPass
  split
  · exact .upd (f := fun x => { x with pid := 0, parent := none, killed := false, state := .unused })
      (fun hr => by cases hr) (fun _ => rfl) fun _ => rfl
  · split
    · exact .refl _ ls
    · exact .upd (f := fun x => { x with chan := some (.proc p), state := .sleeping })
        (fun hr => by cases hr) (fun _ => rfl) fun _ => rfl

theorem waitPass_pc {s : State 1} {p : Slot} {x : Kont}
    (hpc : s.pc 0 = .run p x ∧ s.Free ∧ s.call p = .none ∨ s.pc 0 = .held p x) :
    ((s.waitPass 0 p x).pc 0).slice = (s.pc 0).slice ∧ ((s.waitPass 0 p x).pc 0).proc = (s.pc 0).proc := by
  have hold : (s.pc 0).slice = x.que.map (fun q => (p, q)) ∧ (s.pc 0).proc = some p := by
    rcases hpc with ⟨hpc, -⟩ | hpc <;> rw [hpc] <;> exact ⟨rfl, rfl⟩
  rw [hold.1, hold.2]
  unfold State.waitPass
  split
  · rw [goto_pc]; exact ⟨rfl, rfl⟩
  · split <;> rw [goto_pc] <;> exact ⟨rfl, rfl⟩

/-- **Every tame event that loses no process it kills.** -/
theorem kept_step (hrun : Running s) (h : Kept s ls) {e : Event 1} (hG : Tame s e) (hS : Saving s e)
    (hs : step s e = some (.ok s')) : ∃ ls', Kept s' ls' := by
  have hq := h.queues
  -- an event that moves nobody
  have hstay : ∀ s' : State 1, Queues s'.kernel ls → Moved s.kernel ls s'.kernel ls →
      s'.pc 0 = s.pc 0 → ∃ ls', Kept s' ls' := fun s' hq' hm hpc =>
    ⟨ls, h.moved hq' (.refl ls) hm (by rw [hpc]) (by rw [hpc])⟩
  cases e with
  | sched c =>
    obtain rfl : c = 0 := Subsingleton.elim _ _
    exact sched_kept hrun h hG (sched_cases hs)
  | tick =>
    rw [step_tick hs]
    exact hstay _ (hq.congr rfl rfl fun _ => rfl) (.of_proc rfl fun _ => rfl) rfl
  | wakeup chan =>
    obtain ⟨-, k', hk, rfl⟩ := step_wakeup hs
    obtain ⟨ls', hq', hg, -, hm⟩ := wakeup1_queues hq (Kernel.Calm.calmOn hG hq.toLinks) hk
    exact ⟨ls', h.moved hq' hg hm rfl rfl⟩
  | yield c =>
    obtain rfl : c = 0 := Subsingleton.elim _ _
    obtain ⟨p, x, hpc, -, rfl⟩ := step_yield hs
    have hp : Linked ls p := h.current p (by rw [hpc]; rfl)
    have hm : Moved s.kernel ls (s.kernel.upd p fun x => { x with state := .runnable }) ls :=
      .upd (fun _ => .inr hp) (fun _ => rfl) fun _ => rfl
    refine ⟨ls, h.moved (hq.setState p _) (.refl ls) hm ?_ ?_⟩ <;> rw [goto_pc, hpc] <;> rfl
  | sleep c chan =>
    obtain rfl : c = 0 := Subsingleton.elim _ _
    obtain ⟨p, x, hpc, -, -, rfl⟩ := step_sleep hs
    refine ⟨ls, h.moved (hq.goToSleep p chan) (.refl ls) (.upd
      (f := fun x => { x with chan := some chan, state := .sleeping }) (fun hr => by cases hr)
      (fun _ => rfl) fun _ => rfl) ?_ ?_⟩ <;> rw [goto_pc, hpc] <;> rfl
  | exit c =>
    obtain rfl : c = 0 := Subsingleton.elim _ _
    obtain ⟨p, x, k', hpc, -, -, hk, rfl⟩ := step_exit hs
    obtain ⟨ls', hq', hg, -, hm⟩ := exit_queues hq (hG p (by rw [hpc]; rfl)) hk
    refine ⟨ls', h.moved hq' hg hm ?_ ?_⟩ <;> rw [goto_pc, hpc] <;> rfl
  | wait c =>
    obtain rfl : c = 0 := Subsingleton.elim _ _
    obtain ⟨p, x, hpc, rfl⟩ := step_wait hs
    obtain ⟨hslice, hproc⟩ := waitPass_pc hpc
    exact ⟨ls, h.moved (waitPass_queues hq) (.refl ls) (waitPass_moved s 0 p x ls) hslice hproc⟩
  | kill c pid =>
    rw [step_kill hs]
    have hm := kill_mild s.kernel pid
    exact hstay _ (hq.congr hm.next hm.queue hm.ql)
      (kill_moved (Kernel.KillsLinked.linked hS hq.toLinks)) rfl
  | setPriority c pid pr =>
    obtain ⟨k', hk, rfl⟩ := step_setPriority hs
    have hm := setPriority_mild hk
    exact hstay _ (hq.congr hm.next hm.queue hm.ql) (setPriority_moved hk) rfl
  | fork c =>
    obtain ⟨p, x, -, -, rfl | ⟨np, k', -, ha, rfl⟩⟩ := step_fork hs
    · exact ⟨ls, h⟩
    · obtain ⟨-, rfl⟩ := allocproc_some ha
      refine hstay _ ((hq.upd (p := np) (f := fun x => { x with state := .embryo, pid := s.kernel.nextpid })
        (fun _ => rfl) fun _ => rfl).congr rfl rfl fun _ => rfl) ?_ rfl
      have hm : Moved s.kernel ls
          (s.kernel.upd np fun x => { x with state := .embryo, pid := s.kernel.nextpid }) ls :=
        .upd (fun hr => by cases hr) (fun _ => rfl) fun _ => rfl
      exact hm.trans (.of_proc rfl fun _ => rfl)
  | forkFail c =>
    obtain ⟨p, x, np, -, -, rfl⟩ := step_forkFail hs
    have hm : Moved s.kernel ls (s.kernel.upd np fun x => { x with state := .unused }) ls :=
      .upd (fun hr => by cases hr) (fun _ => rfl) fun _ => rfl
    exact hstay _ (hq.setState np _) hm rfl
  | schedulerLock c ok =>
    obtain ⟨p, x, y, -, -, -, rfl⟩ := step_schedulerLock hs
    exact hstay _ (hq.congr rfl rfl fun _ => rfl) (.of_proc rfl fun _ => rfl) rfl
  | schedulerUnlock c ok =>
    obtain ⟨p, x, y, -, -, -, rfl⟩ := step_schedulerUnlock hs
    exact hstay _ (hq.congr rfl rfl fun _ => rfl) (.of_proc rfl fun _ => rfl) rfl
  | cont c =>
    obtain rfl : c = 0 := Subsingleton.elim _ _
    obtain ⟨p, x, k', y, hpc, -, rfl, ⟨np, hcall, -, hk⟩ | ⟨hcall, -, hk⟩ | hf⟩ := step_cont hs
    · have hfree := hG p (by rw [hpc]; rfl)
      rw [hcall] at hfree
      obtain ⟨ls', hq', hg, hm⟩ := forkReady_queues hq (Kernel.Unlinked.free hfree hq.toLinks) hk
      exact ⟨ls', h.moved hq' hg hm rfl rfl⟩
    · have hcalm : s.kernel.TameCont (s.call p) := hG p (by rw [hpc]; rfl)
      rw [hcall] at hcalm
      have hcalm' : CalmOn s.kernel ls (some .ticks) := Kernel.Calm.calmOn hcalm hq.toLinks
      have hq0 : Queues { s.kernel with ticks := 0 } ls := hq.congr rfl rfl fun _ => rfl
      have hm0 : Moved s.kernel ls { s.kernel with ticks := 0 } ls := .of_proc rfl fun _ => rfl
      obtain ⟨ls', hq', hg, -, hm⟩ := wakeup1_queues hq0 hcalm' hk
      exact ⟨ls', h.moved hq' hg (hm0.trans hm) rfl rfl⟩
    · have hm := hf.mild
      exact hstay _ (hq.congr hm.next hm.queue hm.ql) (hf.moved hq (hS p (by rw [hpc]; rfl))) rfl

/-! ## From `userinit` -/

/-- What `userinit` leaves: one runnable process, on L0, and fresh quanta. -/
theorem userinit_fresh (hk : userinit Kernel.zero = .ok k) :
    (∀ p, (k.proc p).state = .runnable → isThere k .zero p = .ok true) ∧
      (∀ p, (k.proc p).lt = 0 ∧ (k.proc p).pr ≤ 3) ∧ ∀ q, (k.queue q).tq = q.level * 2 + 4 := by
  have h : (match userinit Kernel.zero with
      | .ok k => decide ((∀ p, (k.proc p).state = .runnable → isThere k .zero p = .ok true) ∧
          (∀ p, (k.proc p).lt = 0 ∧ (k.proc p).pr ≤ 3) ∧ (k.queue .zero).tq = 4 ∧
          (k.queue .one).tq = 6 ∧ (k.queue .two).tq = 8)
      | .error _ => false) = true := by decide
  rw [hk] at h
  obtain ⟨hready, hproc, h0, h1, h2⟩ := of_decide_eq_true h
  refine ⟨hready, hproc, fun q => ?_⟩
  cases q with
  | zero => exact h0
  | one => exact h1
  | two => exact h2

theorem running_run_one (hk : userinit Kernel.zero = .ok k) {es : List (Event 1)}
    (hr : (machine 1).run (boot 1 k) es = some (.ok s)) : Running s :=
  Machine.run_inv (M := machine 1) (I := Running) (userinit_running hk)
    (fun _ e _ hI hs => running_step hI (fresh_one hI e) hs) hr

/-- **No runnable process is lost** in a one-CPU run from `userinit` whose events break
no queue and lose no process they kill. -/
theorem runnable_reachable (k : Kernel) (hk : userinit Kernel.zero = .ok k) (es : List (Event 1))
    (s : State 1) (hG : (machine 1).Guarded (fun s e => Tame s e ∧ Saving s e) (boot 1 k) es)
    (hr : (machine 1).run (boot 1 k) es = some (.ok s)) : Dispatchable s.kernel := by
  obtain ⟨k', hk', ls, hq⟩ := userinit_queues
  rw [hk'] at hk
  cases hk
  obtain ⟨hready, -, -⟩ := userinit_fresh hk'
  have h0 : Kept (boot 1 k) ls := by
    refine ⟨hq, fun p q h => (by cases h), fun p hp => ?_, fun p h => (by cases h)⟩
    exact ⟨.zero, (isThere_iff hq.toLinks (hready p hp)).1 rfl⟩
  have hinv := Machine.guarded_inv (M := machine 1) (I := fun s => Running s ∧ ∃ ls, Kept s ls)
    ⟨userinit_running hk', ls, h0⟩ (fun s e s' hI hg hs => by
      obtain ⟨hrun, ls, hI⟩ := hI
      exact ⟨running_step hrun (fresh_one hrun e) hs, kept_step hrun hI hg.1 hg.2 hs⟩) hG hr
  obtain ⟨-, ls', h⟩ := hinv
  exact h.dispatchable

/-- The parent kills its child before that ran, and gives up the CPU. -/
def forkAndKill : List (Event 1) :=
  [.sched 0, .sched 0, .fork 0, .cont 0, .kill 0 2, .yield 0, .sched 0, .sched 0]

theorem runnable_reachable_forkAndKill : ∃ k s, userinit Kernel.zero = .ok k ∧
    (machine 1).run (boot 1 k) forkAndKill = some (.ok s) ∧ Dispatchable s.kernel := by
  obtain ⟨k, s, hk, hr, hG⟩ := bootRun_any forkAndKill
    (fun x => (machine 1).check (fun s e => Tame s e ∧ Saving s e) (boot 1 x.1) forkAndKill)
    (by decide)
  exact ⟨k, s, hk, hr, runnable_reachable k hk _ s (Machine.guarded_of_check hG) hr⟩

/-- The parent sleeps, its child runs and blocks too, `scheduler` takes it off L0, and
the parent, awake again, kills it. -/
def killSleeping : List (Event 1) :=
  [.sched 0, .sched 0, .fork 0, .cont 0, .sleep 0 (.other 7), .sched 0, .sched 0, .sched 0, .sched 0,
    .sched 0, .sched 0, .sleep 0 (.other 8), .sched 0, .sched 0, .sched 0, .sched 0,
    .wakeup (.other 7), .sched 0, .sched 0, .kill 0 2]

/-- **A killed process is lost**: it is `RUNNABLE` and on no queue. -/
theorem kill_loses_process : ∃ k s, userinit Kernel.zero = .ok k ∧
    (machine 1).run (boot 1 k) killSleeping = some (.ok s) ∧ s.Free ∧ ¬ Dispatchable s.kernel := by
  obtain ⟨k, s, hk, hr, hP⟩ := bootRun_any killSleeping
    (fun x => decide (x.2.Free ∧ (x.2.kernel.proc 1).state = .runnable ∧ x.2.kernel.Unlinked 1))
    (by decide)
  obtain ⟨hfree, hst, h0, h1, h2⟩ := of_decide_eq_true hP
  refine ⟨k, s, hk, hr, hfree, fun hd => ?_⟩
  obtain ⟨que, hon⟩ := hd 1 hst
  cases que with
  | zero => have := (isThere_on h0).2 hon; cases this
  | one => have := (isThere_on h1).2 hon; cases this
  | two => have := (isThere_on h2).2 hon; cases this

end Xv6.Mlfq
