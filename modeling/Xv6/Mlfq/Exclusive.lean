import Xv6.Mlfq.Invariant

/-!
# One CPU for a process

`scheduler` skips processes that are neither `RUNNABLE` nor `RUNNING`, so it takes a
process from a queue that another CPU is running. `scheduler_exclusive`: no two CPUs
have the same process in any state of a run, for any number of CPUs, exactly when
every process that is taken from a queue in it is `RUNNABLE`.

`two_cpus_one_process` is the shortest run in which this fails: the first process is
still the front of L0 while it runs.
-/

namespace Xv6.Mlfq

variable {n : ℕ} {s s' : State n} {c : Fin n} {k k' : Kernel} {p : Slot}

/-- No two CPUs have the same process as `c->proc`. -/
def Exclusive (s : State n) : Prop :=
  ∀ c c' p, (s.pc c).proc = some p → (s.pc c').proc = some p → c = c'

theorem upd_state (k : Kernel) (p y : Slot) (f : Proc → Proc) :
    ((k.upd p f).proc y).state = if y = p then (f (k.proc p)).state else (k.proc y).state := by
  rw [upd_proc]
  split
  · rename_i hy; rw [hy]
  · rfl

/-- A process taken from a queue is `RUNNABLE`. -/
def Fresh (s : State n) : Event n → Prop
  | .sched c => ∀ p, s.kernel.picks (s.pc c) = some p → (s.kernel.proc p).state = .runnable
  | _ => True

instance (s : State n) (e : Event n) : Decidable (Fresh s e) := by
  unfold Fresh; rcases e with ⟨⟩ <;> infer_instance

/-- The process that executes on the CPU. -/
def Pc.running : Pc → Option Slot
  | .run p _ | .held p _ => some p
  | _ => none

theorem Pc.running_proc {pc : Pc} (h : pc.running = some p) : pc.proc = some p := by
  cases pc <;> first | exact h | cases h

theorem Pc.proc_cases {pc : Pc} (h : pc.proc = some p) : pc.running = some p ∨ pc.Holds = true := by
  cases pc <;> first | exact .inl h | exact .inr rfl

theorem Pc.Choosing.proc {pc : Pc} (h : pc.Choosing) : pc.proc = none := by
  cases pc <;> first | rfl | exact h.elim

theorem Pc.Choosing.running {pc : Pc} (h : pc.Choosing) : pc.running = none := by
  cases pc <;> first | rfl | exact h.elim

theorem Pc.Choosing.holds {pc : Pc} (h : pc.Choosing) : pc.Holds = true := by
  cases pc <;> first | rfl | exact h.elim

/-- What holds as long as taken processes are `RUNNABLE`. -/
structure Running (s : State n) : Prop where
  holder : ∀ c c', (s.pc c).Holds = true → (s.pc c').Holds = true → c = c'
  exclusive : Exclusive s
  state : ∀ c p, (s.pc c).running = some p → (s.kernel.proc p).state = .running
  onCpu : ∀ p, (s.kernel.proc p).state = .running → ∃ c, (s.pc c).running = some p
  fork : ∀ p np, s.call p = .fork np → (s.kernel.proc np).state = .embryo
  forkInj : ∀ p p' np, s.call p = .fork np → s.call p' = .fork np → p = p'

/-- An event after which a CPU has the process it had, or none. -/
theorem Running.keep (h : Running s) {w : Pc} {call' : Slot → Call}
    (hpc : s'.pc = Function.update s.pc c w) (hholds : w.Holds = true → (s.pc c).Holds = true ∨ s.Free)
    (hproc : w.proc = (s.pc c).proc ∨ w.proc = none)
    (hother : ∀ x, (s.pc c).running ≠ some x →
      ((s'.kernel.proc x).state = .running ↔ (s.kernel.proc x).state = .running))
    (hself : ∀ x, (s.pc c).running = some x → ((s'.kernel.proc x).state = .running ↔ w.running = some x))
    (hnew : ∀ x, w.running = some x → (s.pc c).running = some x)
    (hcall : s'.call = call')
    (hfork : ∀ p np, call' p = .fork np → (s'.kernel.proc np).state = .embryo)
    (hforkInj : ∀ p p' np, call' p = .fork np → call' p' = .fork np → p = p') : Running s' := by
  have hx : ∀ c', c' ≠ c → s'.pc c' = s.pc c' := fun c' hc => by rw [hpc, Function.update_of_ne hc]
  have hc : s'.pc c = w := by rw [hpc, Function.update_self]
  refine ⟨?_, ?_, ?_, ?_, by rw [hcall]; exact hfork, by rw [hcall]; exact hforkInj⟩
  · intro c₁ c₂ h1 h2
    by_cases e1 : c₁ = c <;> by_cases e2 : c₂ = c
    · rw [e1, e2]
    · rw [hx c₂ e2] at h2
      rw [e1, hc] at h1
      rcases hholds h1 with hh | hf
      · exact e1.trans (h.holder c c₂ hh h2)
      · rw [hf c₂] at h2; cases h2
    · rw [hx c₁ e1] at h1
      rw [e2, hc] at h2
      rcases hholds h2 with hh | hf
      · exact (h.holder c₁ c h1 hh).trans e2.symm
      · rw [hf c₁] at h1; cases h1
    · rw [hx c₁ e1] at h1
      rw [hx c₂ e2] at h2
      exact h.holder c₁ c₂ h1 h2
  · intro c₁ c₂ x h1 h2
    by_cases e1 : c₁ = c <;> by_cases e2 : c₂ = c
    · rw [e1, e2]
    · rw [hx c₂ e2] at h2
      rw [e1, hc] at h1
      rcases hproc with hp | hp <;> rw [hp] at h1
      · exact e1.trans (h.exclusive c c₂ x h1 h2)
      · cases h1
    · rw [hx c₁ e1] at h1
      rw [e2, hc] at h2
      rcases hproc with hp | hp <;> rw [hp] at h2
      · exact (h.exclusive c₁ c x h1 h2).trans e2.symm
      · cases h2
    · rw [hx c₁ e1] at h1
      rw [hx c₂ e2] at h2
      exact h.exclusive c₁ c₂ x h1 h2
  · intro c₁ x h1
    by_cases e1 : c₁ = c
    · rw [e1, hc] at h1
      exact (hself x (hnew x h1)).2 h1
    · rw [hx c₁ e1] at h1
      refine (hother x fun hr => e1 ?_).2 (h.state c₁ x h1)
      exact h.exclusive c₁ c x (Pc.running_proc h1) (Pc.running_proc hr)
  · intro x hr
    by_cases hself' : (s.pc c).running = some x
    · exact ⟨c, by rw [hc]; exact (hself x hself').1 hr⟩
    · obtain ⟨c₁, h1⟩ := h.onCpu x ((hother x hself').1 hr)
      have e1 : c₁ ≠ c := by rintro rfl; exact hself' h1
      exact ⟨c₁, by rw [hx c₁ e1]; exact h1⟩

/-- Some sleeping processes wake up, and nothing else happens to any process. -/
theorem Running.woke (h : Running s) {pc' : Pc} (hpc : s'.pc = Function.update s.pc c pc')
    (hholds : pc'.Holds = true → (s.pc c).Holds = true ∨ s.Free)
    (hproc : pc'.proc = (s.pc c).proc ∨ pc'.proc = none) (hrun : pc'.running = (s.pc c).running)
    (hw : Woke s.kernel s'.kernel) (hcall : s'.call = s.call) : Running s' := by
  refine h.keep hpc hholds hproc (fun x _ => hw.state_iff (by simp) (by simp)) (fun x hx => ?_)
    (fun x hx => hrun ▸ hx) hcall (fun p np hf => ?_) h.forkInj
  · rw [hw.state_iff (by simp) (by simp), hrun]
    exact ⟨fun _ => hx, fun _ => h.state c x hx⟩
  · exact (hw.state_iff (by simp) (by simp)).2 (h.fork p np hf)

/-- The processes wake up under an event that moves no CPU. -/
theorem Running.still (h : Running s) (hpc : s'.pc = s.pc) (hw : Woke s.kernel s'.kernel)
    (hfork : ∀ p np, s'.call p = .fork np → s.call p = .fork np) : Running s' where
  holder := by rw [hpc]; exact h.holder
  exclusive := by unfold Exclusive; rw [hpc]; exact h.exclusive
  state c x hx := (hw.state_iff (by simp) (by simp)).2 (h.state c x (hpc ▸ hx))
  onCpu x hx := by rw [hpc]; exact h.onCpu x ((hw.state_iff (by simp) (by simp)).1 hx)
  fork p np hf := (hw.state_iff (by simp) (by simp)).2 (h.fork p np (hfork p np hf))
  forkInj p p' np hf hf' := h.forkInj p p' np (hfork p np hf) (hfork p' np hf')

/-- **A dispatch of a `RUNNABLE` process.** -/
theorem Running.dispatch (h : Running s) {x : Kont} (hc : (s.pc c).Choosing)
    (hp : (s.kernel.proc p).state = .runnable) : Running (s.dispatch c p x) := by
  have hpc : ∀ c', (s.dispatch c p x).pc c' = if c' = c then
      (if s.call p = Call.wait then .held p x else .run p x) else s.pc c' := by
    intro c'; simp [State.dispatch, State.goto, Function.update_apply]
  have hst : ∀ y, ((s.dispatch c p x).kernel.proc y).state =
      if y = p then .running else (s.kernel.proc y).state := by
    intro y
    exact upd_state s.kernel p y fun x => { x with state := .running, chan := none }
  have hnew : ((if s.call p = Call.wait then Pc.held p x else Pc.run p x)).proc = some p := by
    split <;> rfl
  have hrun : ((if s.call p = Call.wait then Pc.held p x else Pc.run p x)).running = some p := by
    split <;> rfl
  -- no other CPU has the process
  have hother : ∀ c', c' ≠ c → (s.pc c').proc ≠ some p := by
    intro c' hne hpr
    rcases Pc.proc_cases hpr with hr | hh
    · rw [h.state c' p hr] at hp; cases hp
    · exact hne (h.holder c' c hh hc.holds)
  refine ⟨?_, ?_, ?_, ?_, ?_, h.forkInj⟩
  · intro c₁ c₂ h1 h2
    rw [hpc] at h1 h2
    by_cases e1 : c₁ = c <;> by_cases e2 : c₂ = c
    · rw [e1, e2]
    · rw [if_neg e2] at h2; exact e1.trans (h.holder c c₂ hc.holds h2)
    · rw [if_neg e1] at h1; exact (h.holder c₁ c h1 hc.holds).trans e2.symm
    · rw [if_neg e1] at h1; rw [if_neg e2] at h2; exact h.holder c₁ c₂ h1 h2
  · intro c₁ c₂ y h1 h2
    rw [hpc] at h1 h2
    by_cases e1 : c₁ = c <;> by_cases e2 : c₂ = c
    · rw [e1, e2]
    · rw [if_pos e1, hnew] at h1
      rw [if_neg e2] at h2
      cases h1
      exact absurd h2 (hother c₂ e2)
    · rw [if_neg e1] at h1
      rw [if_pos e2, hnew] at h2
      cases h2
      exact absurd h1 (hother c₁ e1)
    · rw [if_neg e1] at h1; rw [if_neg e2] at h2; exact h.exclusive c₁ c₂ y h1 h2
  · intro c₁ y h1
    rw [hpc] at h1
    rw [hst]
    split at h1
    · rw [hrun] at h1; cases h1; rw [if_pos rfl]
    · split
      · rfl
      · exact h.state c₁ y h1
  · intro y hy
    rw [hst] at hy
    by_cases hyp : y = p
    · exact ⟨c, by rw [hpc, if_pos rfl, hrun, hyp]⟩
    · rw [if_neg hyp] at hy
      obtain ⟨c₁, h1⟩ := h.onCpu y hy
      have e1 : c₁ ≠ c := by rintro rfl; rw [hc.running] at h1; cases h1
      exact ⟨c₁, by rw [hpc, if_neg e1]; exact h1⟩
  · intro q np hf
    have hold := h.fork q np hf
    rw [hst, if_neg]
    · exact hold
    · rintro rfl; rw [hp] at hold; cases hold

theorem del_woke {que : Lv} (h : del k que p = .ok k') : Woke k k' := .of_core (del_core h)

theorem demote_woke {que down : Lv} (h : demote k que down p = .ok k') : Woke k k' := by
  unfold demote at h
  dsimp only at h
  have h1 : Woke k (k.upd p fun x => { x with lt := x.lt + 1 }) :=
    .of_upd (fun _ => rfl) (fun _ => rfl) fun _ => rfl
  split at h
  · simp only [bind_ok] at h
    obtain ⟨k₁, hdel, k₂, hpush, hk⟩ := h
    cases hk
    have h2 : Woke k₁ (k₁.upd p fun x => { x with lt := 0 }) :=
      .of_upd (fun _ => rfl) (fun _ => rfl) fun _ => rfl
    have h3 : Woke k₂ (k₂.upd p fun x => { x with ql := x.ql + 1 }) :=
      .of_upd (fun _ => rfl) (fun _ => rfl) fun _ => rfl
    exact h1.trans ((del_woke hdel).trans (h2.trans ((Woke.of_core (push_core hpush)).trans h3)))
  · cases h; exact h1

theorem promote_woke (k : Kernel) (p : Slot) : Woke k (promote k p) := by
  have h1 : Woke k (k.upd p fun x => { x with lt := x.lt + 1 }) :=
    .of_upd (fun _ => rfl) (fun _ => rfl) fun _ => rfl
  unfold promote
  dsimp only
  split
  · refine h1.trans ?_
    exact .of_upd (f := fun x => { x with lt := 0, pr := x.pr - 1 }) (fun _ => rfl) (fun _ => rfl)
      fun _ => rfl
  · exact h1

theorem releaseLock_woke (h : releaseLock k p = .ok k') : Woke k k' := by
  simp only [releaseLock, bind_ok] at h
  obtain ⟨b, -, h⟩ := h
  have h1 : Woke k (linkFront k p b) := .of_core (linkFront_core k p b)
  split at h
  · cases h
    have h2 : Woke (linkFront k p b) ((linkFront k p b).upd p fun x => { x with pr := 3, lt := 0 }) :=
      .of_upd (fun _ => rfl) (fun _ => rfl) fun _ => rfl
    have hw := h1.trans h2
    exact ⟨hw.state, hw.chan, hw.parent, hw.initproc⟩
  · have h2 : Woke (linkFront k p b) ((linkFront k p b).upd p fun x => { x with lt := 0 }) :=
      .of_upd (fun _ => rfl) (fun _ => rfl) fun _ => rfl
    have hw := h1.trans h2
    refine Woke.trans ?_ (boostPr_woke h)
    exact ⟨hw.state, hw.chan, hw.parent, hw.initproc⟩

/-- **One step of `scheduler`.** -/
theorem sched_running (h : Running s) (hG : Fresh s (.sched c)) (hs : SchedStep s c s') :
    Running s' := by
  cases hs with
  | acquire pc hpc hfree hto _ =>
    exact h.woke rfl (fun _ => .inr hfree) (.inr hto.proc) (by rw [hto.running, hpc]; rfl) (.refl _) rfl
  | go pc hpc hto _ _ =>
    exact h.woke rfl (fun _ => .inl hpc.holds) (.inr hto.proc) (by rw [hto.running, hpc.running])
      (.refl _) rfl
  | forget q hpc _ =>
    exact h.woke rfl (fun _ => .inl (by rw [hpc]; rfl)) (.inr rfl) (by rw [hpc]; rfl)
      ⟨fun _ => .inl rfl, fun _ => rfl, fun _ => rfl, rfl⟩ rfl
  | lock q hpc _ hst => exact h.dispatch (by rw [hpc]; trivial) hst
  | drop que p k' hpc _ hdel =>
    exact h.woke rfl (fun hh => by cases hh) (.inr rfl) (by rw [hpc]; rfl) (del_woke hdel) rfl
  | slice que k p hpc hk hfront hpick => exact h.dispatch (by rw [hpc]; trivial) (hG p hpick)
  | dropL2 min p k' hpc _ hdel =>
    exact h.woke rfl (fun _ => .inl (by rw [hpc]; rfl)) (.inr rfl) (by rw [hpc]; rfl) (del_woke hdel) rfl
  | sliceL2 min p hpc hpick => exact h.dispatch (by rw [hpc]; trivial) (hG p hpick)
  | boost k' hpc hk =>
    refine h.woke rfl (fun hh => by cases hh) (.inr rfl) (by rw [hpc]; rfl) ?_ rfl
    rcases hk with rfl | hk
    · exact .refl _
    · exact boostPr_woke hk
  | release p k' hpc hto hk =>
    refine h.woke rfl (fun _ => .inl (by rw [hpc]; rfl)) (.inr rfl) (by rw [hpc]; rfl) ?_ rfl
    exact (Woke.of_upd (f := fun x => { x with lt := x.lt + 1 }) (fun _ => rfl) (fun _ => rfl)
      fun _ => rfl).trans (releaseLock_woke hk)
  | again p hpc =>
    refine h.woke rfl (fun _ => .inl (by rw [hpc]; rfl)) (.inr rfl) (by rw [hpc]; rfl) ?_ rfl
    exact .of_upd (f := fun x => { x with lt := x.lt + 1 }) (fun _ => rfl) (fun _ => rfl) fun _ => rfl
  | demote que down k p k' hpc hk hlv hd =>
    exact h.woke rfl (fun _ => .inl (by rw [hpc]; rfl)) (.inr rfl) (by rw [hpc]; rfl) (demote_woke hd) rfl
  | promote p hpc =>
    exact h.woke rfl (fun _ => .inl (by rw [hpc]; rfl)) (.inr rfl) (by rw [hpc]; rfl)
      (promote_woke _ _) rfl

/-- The running process gives up the CPU. -/
theorem Running.stop (h : Running s) {x : Kont} (hpc : (s.pc c).running = some p)
    (hfree : (s.pc c).Holds = true ∨ s.Free) (hpc' : s'.pc = Function.update s.pc c (.ret p x))
    (hp : (s'.kernel.proc p).state ≠ .running) {call' : Slot → Call} (hcall : s'.call = call')
    (hcall' : ∀ q np, call' q = .fork np → s.call q = .fork np)
    (hother : ∀ y, y ≠ p → (s'.kernel.proc y).state = (s.kernel.proc y).state ∨
      (s.kernel.proc y).state = .sleeping ∧ (s'.kernel.proc y).state = .runnable) : Running s' := by
  have hst : ∀ y, y ≠ p → ∀ st, st ≠ .sleeping → st ≠ .runnable →
      ((s'.kernel.proc y).state = st ↔ (s.kernel.proc y).state = st) := by
    intro y hy st h1 h2
    rcases hother y hy with h3 | ⟨h3, h4⟩
    · rw [h3]
    · rw [h3, h4]; exact ⟨fun e => absurd e.symm h2, fun e => absurd e.symm h1⟩
  refine h.keep hpc' (fun _ => hfree) (.inl (Pc.running_proc hpc).symm) (fun y hy => ?_) (fun y hy => ?_)
    (fun y hy => by cases hy) hcall (fun q np hf => ?_) fun q q' np hf hf' =>
      h.forkInj q q' np (hcall' q np hf) (hcall' q' np hf')
  · exact hst y (by rintro rfl; exact hy hpc) _ (by simp) (by simp)
  · rw [hpc] at hy
    cases hy
    exact ⟨fun hr => absurd hr hp, fun hr => by cases hr⟩
  · have hold := h.fork q np (hcall' q np hf)
    refine (hst np ?_ _ (by simp) (by simp)).2 hold
    rintro rfl
    rw [h.state c np hpc] at hold
    cases hold

/-- What `exit` leaves of the states. -/
theorem exit_states (h : exit k p = .ok k') : (k'.proc p).state = .zombie ∧
    ∀ y, y ≠ p → (k'.proc y).state = (k.proc y).state ∨
      (k.proc y).state = .sleeping ∧ (k'.proc y).state = .runnable := by
  unfold exit at h
  split at h
  · cases h
  · simp only [bind_ok] at h
    obtain ⟨k₁, h1, k₂, h2, h3⟩ := h
    cases h3
    have hw := wakeup1_woke h1
    -- the loop over the children wakes sleeping processes too
    have hP := foldlM_ok (P := fun b : Kernel => ∀ y, (b.proc y).state = (k.proc y).state ∨
        (k.proc y).state = .sleeping ∧ (b.proc y).state = .runnable) (f := reparent p)
      (l := List.finRange NPROC) ?_ hw.state h2
    · refine ⟨by rw [upd_proc, if_pos rfl], fun y hy => ?_⟩
      rw [upd_proc, if_neg hy]
      exact hP y
    · intro b q b' _ hb hr y
      have hstep : (b'.proc y).state = (b.proc y).state ∨
          (b.proc y).state = .sleeping ∧ (b'.proc y).state = .runnable := by
        unfold reparent at hr
        split at hr
        · dsimp only at hr
          have hu : ((b.upd q fun x => { x with parent := b.initproc }).proc y).state =
              (b.proc y).state := by rw [upd_proc]; split <;> rfl
          split at hr
          · rw [← hu]; exact (wakeup1_woke hr).state y
          · cases hr; exact .inl hu
        · cases hr; exact .inl rfl
      rcases hstep with h4 | ⟨h4, h5⟩
      · rw [h4]; exact hb y
      · right
        rcases hb y with h6 | ⟨-, h6⟩
        · exact ⟨h6 ▸ h4, h5⟩
        · rw [h6] at h4; cases h4

theorem findZombie_some {z : Slot} (h : findZombie k p = some z) : (k.proc z).state = .zombie := by
  unfold findZombie at h
  have := List.find?_some h
  simp only [decide_eq_true_eq] at this
  exact this.2

theorem setCall_fork {s : State n} {x : Call} (hx : ∀ np, x ≠ .fork np) {q np : Slot}
    (h : (s.setCall p x).call q = .fork np) : s.call q = .fork np ∧ q ≠ p := by
  by_cases hq : q = p
  · subst hq; exact absurd (by simpa [State.setCall] using h) (hx np)
  · exact ⟨by simpa [State.setCall, hq] using h, hq⟩

theorem waitPass_running (h : Running s) {x : Kont}
    (hpc : s.pc c = .run p x ∧ s.Free ∧ s.call p = .none ∨ s.pc c = .held p x) :
    Running (s.waitPass c p x) := by
  have hrun : (s.pc c).running = some p := by rcases hpc with ⟨hpc, -⟩ | hpc <;> rw [hpc] <;> rfl
  have hproc : (s.pc c).proc = some p := Pc.running_proc hrun
  have hp := h.state c p hrun
  unfold State.waitPass
  split
  · rename_i z hz
    have hz := findZombie_some hz
    have hst : ∀ y, ((reap s.kernel z).proc y).state =
        if y = z then .unused else (s.kernel.proc y).state := by
      intro y; unfold reap; rw [upd_proc]; split <;> rfl
    refine h.keep (c := c) (w := .run p x) rfl (fun hh => by cases hh) (.inl hproc.symm) (fun y _ => ?_)
      (fun y hy => ?_) (fun y hy => by rw [hrun]; exact hy) rfl (fun q np hf => ?_) ?_
    · show ((reap s.kernel z).proc y).state = _ ↔ _
      rw [hst]
      split
      · rename_i hyz; rw [hyz, hz]; simp
      · rfl
    · show ((reap s.kernel z).proc y).state = _ ↔ _
      rw [hrun] at hy
      cases hy
      have hpz : p ≠ z := by rintro rfl; rw [hp] at hz; cases hz
      rw [hst, if_neg hpz]
      exact ⟨fun _ => rfl, fun _ => hp⟩
    · obtain ⟨hf, -⟩ := setCall_fork (s := { s with kernel := reap s.kernel z }) (by simp) hf
      have hold := h.fork q np hf
      show ((reap s.kernel z).proc np).state = _
      rw [hst, if_neg]
      · exact hold
      · rintro rfl; rw [hz] at hold; cases hold
    · intro q q' np hf hf'
      exact h.forkInj q q' np
        (setCall_fork (s := { s with kernel := reap s.kernel z }) (by simp) hf).1
        (setCall_fork (s := { s with kernel := reap s.kernel z }) (by simp) hf').1
  · split
    · refine h.keep (c := c) (w := .run p x) rfl (fun hh => by cases hh) (.inl hproc.symm)
        (fun y _ => Iff.rfl) (fun y hy => ?_) (fun y hy => by rw [hrun]; exact hy) rfl (fun q np hf => ?_) ?_
      · rw [hrun] at hy
        cases hy
        exact ⟨fun _ => rfl, fun _ => hp⟩
      · exact h.fork q np (setCall_fork (s := s) (by simp) hf).1
      · intro q q' np hf hf'
        exact h.forkInj q q' np (setCall_fork (s := s) (by simp) hf).1 (setCall_fork (s := s) (by simp) hf').1
    · refine h.stop hrun ?_ rfl ?_ rfl (fun q np hf => ?_) fun y hy => .inl ?_
      · rcases hpc with ⟨-, hf, -⟩ | hpc
        · exact .inr hf
        · left; rw [hpc]; rfl
      · show ((goToSleep s.kernel p (.proc p)).proc p).state ≠ _
        rw [goToSleep, upd_state, if_pos rfl]
        simp
      · exact (setCall_fork (s := { s with kernel := goToSleep s.kernel p (.proc p) }) (by simp) hf).1
      · show ((goToSleep s.kernel p (.proc p)).proc y).state = _
        rw [goToSleep, upd_state, if_neg hy]

/-- **Every event that takes only `RUNNABLE` processes.** -/
theorem running_step (h : Running s) {e : Event n} (hG : Fresh s e) (hs : step s e = some (.ok s')) :
    Running s' := by
  cases e with
  | sched c => exact sched_running h hG (sched_cases hs)
  | tick =>
    rw [step_tick hs]
    exact h.still rfl ⟨fun _ => .inl rfl, fun _ => rfl, fun _ => rfl, rfl⟩ fun _ _ hf => hf
  | wakeup chan =>
    obtain ⟨-, k', hk, rfl⟩ := step_wakeup hs
    exact h.still rfl (wakeup1_woke hk) fun _ _ hf => hf
  | yield c =>
    obtain ⟨p, x, hpc, hfree, rfl⟩ := step_yield hs
    refine h.stop (by rw [hpc]; rfl) (.inr hfree) rfl ?_ rfl (fun _ _ hf => hf) fun y hy => .inl ?_
    · show ((s.kernel.upd p fun x => { x with state := .runnable }).proc p).state ≠ _
      rw [upd_state, if_pos rfl]
      simp
    · show ((s.kernel.upd p fun x => { x with state := .runnable }).proc y).state = _
      rw [upd_state, if_neg hy]
  | sleep c chan =>
    obtain ⟨p, x, hpc, -, hfree, rfl⟩ := step_sleep hs
    refine h.stop (by rw [hpc]; rfl) (.inr hfree) rfl ?_ rfl (fun _ _ hf => hf) fun y hy => .inl ?_
    · show ((goToSleep s.kernel p chan).proc p).state ≠ _
      rw [goToSleep, upd_state, if_pos rfl]
      simp
    · show ((goToSleep s.kernel p chan).proc y).state = _
      rw [goToSleep, upd_state, if_neg hy]
  | exit c =>
    obtain ⟨p, x, k', hpc, -, hfree, hk, rfl⟩ := step_exit hs
    obtain ⟨hz, hother⟩ := exit_states hk
    refine h.stop (by rw [hpc]; rfl) (.inr hfree) rfl ?_ rfl (fun _ _ hf => hf) hother
    show (k'.proc p).state ≠ _
    rw [hz]; simp
  | wait c =>
    obtain ⟨p, x, hpc, rfl⟩ := step_wait hs
    exact waitPass_running h hpc
  | kill c pid =>
    rw [step_kill hs]
    exact h.still rfl (kill_mild _ _).toWoke fun _ _ hf => hf
  | setPriority c pid pr =>
    obtain ⟨k', hk, rfl⟩ := step_setPriority hs
    exact h.still rfl (setPriority_mild hk).toWoke fun _ _ hf => hf
  | fork c =>
    obtain ⟨p, x, hpc, hcall, rfl | ⟨np, k', -, ha, rfl⟩⟩ := step_fork hs
    · exact h
    · obtain ⟨hnp, hk⟩ := allocproc_some ha
      have hst : ∀ y, (k'.proc y).state = if y = np then .embryo else (s.kernel.proc y).state := by
        intro y
        rw [hk]
        exact upd_state s.kernel np y fun x => { x with state := .embryo, pid := s.kernel.nextpid }
      have hother : ∀ q m, ({ s with kernel := k' }.setCall p (.fork np)).call q = .fork m →
          (q = p ∧ m = np) ∨ (q ≠ p ∧ m ≠ np ∧ s.call q = .fork m) := by
        intro q m hf
        by_cases hq : q = p
        · subst hq
          have : Call.fork np = .fork m := by simpa [State.setCall] using hf
          cases this
          exact .inl ⟨rfl, rfl⟩
        · have hold : s.call q = .fork m := by simpa [State.setCall, hq] using hf
          refine .inr ⟨hq, ?_, hold⟩
          rintro rfl
          rw [h.fork q m hold] at hnp
          cases hnp
      refine h.keep (c := c) (w := s.pc c) (by simp [State.setCall]) .inl (.inl rfl) (fun y _ => ?_)
        (fun y hy => ?_) (fun _ => id) rfl (fun q m hf => ?_) fun q q' m hf hf' => ?_
      · show (k'.proc y).state = _ ↔ _
        rw [hst]
        split
        · rename_i hy; rw [hy, hnp]; simp
        · rfl
      · show (k'.proc y).state = _ ↔ _
        have hrun := h.state c y hy
        rw [hst, if_neg (by rintro rfl; rw [hrun] at hnp; cases hnp)]
        exact ⟨fun _ => hy, fun _ => hrun⟩
      · show (k'.proc m).state = _
        rw [hst]
        rcases hother q m hf with ⟨-, rfl⟩ | ⟨-, hm, hq⟩
        · rw [if_pos rfl]
        · rw [if_neg hm]; exact h.fork q m hq
      · rcases hother q m hf with ⟨rfl, rfl⟩ | ⟨-, hm, hq⟩
        · rcases hother q' m hf' with ⟨rfl, -⟩ | ⟨-, hm', -⟩
          · rfl
          · exact absurd rfl hm'
        · rcases hother q' m hf' with ⟨-, rfl⟩ | ⟨-, -, hq'⟩
          · exact absurd rfl hm
          · exact h.forkInj q q' m hq hq'
  | forkFail c =>
    obtain ⟨p, x, np, hpc, hcall, rfl⟩ := step_forkFail hs
    have hnp := h.fork p np hcall
    have hst : ∀ y, ((s.kernel.upd np fun x => { x with state := .unused }).proc y).state =
        if y = np then .unused else (s.kernel.proc y).state := by
      intro y; rw [upd_proc]; split <;> rfl
    have hfk : ∀ q m, ({ s with kernel := s.kernel.upd np fun x => { x with state := .unused } }.setCall
        p .none).call q = .fork m → s.call q = .fork m ∧ q ≠ p := fun q m hf =>
      setCall_fork (s := { s with kernel := s.kernel.upd np fun x => { x with state := .unused } })
        (by simp) hf
    refine h.keep (c := c) (w := s.pc c) (by simp [State.setCall]) .inl (.inl rfl) (fun y _ => ?_)
      (fun y hy => ?_) (fun _ => id) rfl (fun q m hf => ?_) fun q q' m hf hf' =>
        h.forkInj q q' m (hfk q m hf).1 (hfk q' m hf').1
    · show ((s.kernel.upd np fun x => { x with state := .unused }).proc y).state = _ ↔ _
      rw [hst]
      split
      · rename_i hy; rw [hy, hnp]; simp
      · rfl
    · show ((s.kernel.upd np fun x => { x with state := .unused }).proc y).state = _ ↔ _
      have hrun := h.state c y hy
      rw [hst, if_neg (by rintro rfl; rw [hrun] at hnp; cases hnp)]
      exact ⟨fun _ => hy, fun _ => hrun⟩
    · obtain ⟨hq, hqp⟩ := hfk q m hf
      show ((s.kernel.upd np fun x => { x with state := .unused }).proc m).state = _
      rw [hst, if_neg]
      · exact h.fork q m hq
      · rintro rfl; exact hqp (h.forkInj q p m hq hcall)
  | schedulerLock c ok =>
    obtain ⟨p, x, y, -, -, hy, rfl⟩ := step_schedulerLock hs
    refine h.still rfl ⟨fun _ => .inl rfl, fun _ => rfl, fun _ => rfl, rfl⟩ fun q np hf =>
      (setCall_fork (s := { s with kernel := { s.kernel with me := some p } }) ?_ hf).1
    rintro np rfl; exact hy
  | schedulerUnlock c ok =>
    obtain ⟨p, x, y, -, -, hy, rfl⟩ := step_schedulerUnlock hs
    refine h.still rfl ⟨fun _ => .inl rfl, fun _ => rfl, fun _ => rfl, rfl⟩ fun q np hf =>
      (setCall_fork (s := { s with kernel := { s.kernel with me := some p } }) ?_ hf).1
    rintro np rfl; exact hy
  | cont c =>
    obtain ⟨p, x, k', y, hpc, hy, rfl, hcases⟩ := step_cont hs
    have hfk : ∀ q m, ({ s with kernel := k' }.setCall p y).call q = .fork m →
        s.call q = .fork m ∧ q ≠ p := fun q m hf =>
      setCall_fork (s := { s with kernel := k' }) (by rintro np rfl; exact hy) hf
    rcases hcases with ⟨np, hcall, -, hk⟩ | ⟨-, -, hk⟩ | hm
    · have hnp := h.fork p np hcall
      have hst : ∀ z, (k'.proc z).state = if z = np then .runnable else (s.kernel.proc z).state := by
        intro z
        have hw := (pushLzero_woke hk).state z
        have hz : ((s.kernel.upd np fun x => { x with parent := some p, state := .runnable }).proc z).state =
            if z = np then .runnable else (s.kernel.proc z).state := by
          rw [upd_proc]; split <;> rfl
        rw [← hz]
        rcases hw with hw | ⟨hw, -⟩
        · exact hw
        · unfold forkReady pushLzero at hk
          rw [core_state (push_core hk)]
          simp only [upd_proc]
          split <;> rfl
      refine h.keep (c := c) (w := s.pc c) (by simp [State.setCall]) .inl (.inl rfl) (fun z _ => ?_)
        (fun z hz => ?_) (fun _ => id) rfl (fun q m hf => ?_) fun q q' m hf hf' =>
          h.forkInj q q' m (hfk q m hf).1 (hfk q' m hf').1
      · show (k'.proc z).state = _ ↔ _
        rw [hst]
        split
        · rename_i hz; rw [hz, hnp]; simp
        · rfl
      · show (k'.proc z).state = _ ↔ _
        have hrun := h.state c z hz
        rw [hst, if_neg (by rintro rfl; rw [hrun] at hnp; cases hnp)]
        exact ⟨fun _ => hz, fun _ => hrun⟩
      · obtain ⟨hq, hqp⟩ := hfk q m hf
        show (k'.proc m).state = _
        rw [hst, if_neg]
        · exact h.fork q m hq
        · rintro rfl; exact hqp (h.forkInj q p m hq hcall)
    · have hw := wakeup1_woke hk
      exact h.still rfl ⟨hw.state, hw.chan, hw.parent, hw.initproc⟩ fun q m hf => (hfk q m hf).1
    · exact h.still rfl hm.mild.toWoke fun q m hf => (hfk q m hf).1

theorem userinit_running (hk : userinit Kernel.zero = .ok k) : Running (boot n k) := by
  have hidle : ∀ x, (k.proc x).state ≠ .running := by
    unfold userinit at hk
    split at hk
    · cases hk
    · rename_i q k₀ ha
      obtain ⟨-, rfl⟩ := allocproc_some ha
      intro x hx
      rw [(pushLzero_woke hk).state_iff (by simp) (by simp)] at hx
      simp only [upd_proc] at hx
      split at hx <;> cases hx
  constructor
  · intro _ _ h; cases h
  · intro _ _ _ h; cases h
  · intro _ _ h; cases h
  · exact fun x hx => absurd hx (hidle x)
  · intro _ _ h; cases h
  · intro _ _ _ h; cases h

theorem running_run (hk : userinit Kernel.zero = .ok k) {es : List (Event n)}
    (hG : (machine n).Guarded Fresh (boot n k) es)
    (hr : (machine n).run (boot n k) es = some (.ok s)) : Running s :=
  Machine.guarded_inv (M := machine n) (I := Running) (userinit_running hk)
    (fun _ _ _ hI hg hs => running_step hI hg hs) hG hr

/-- Taking a process that is running gives it a second CPU. -/
theorem not_fresh_shares (h : Running s) {e : Event n} (hG : ¬ Fresh s e)
    (hs : step s e = some (.ok s')) : ¬ Exclusive s' := by
  cases e with
  | sched c =>
    unfold Fresh at hG
    push Not at hG
    obtain ⟨p, hpick, hst⟩ := hG
    obtain ⟨hchoose, hidle, x, hd⟩ := sched_picks hpick
    have hrun : (s.kernel.proc p).state = .running := by
      unfold Proc.idle at hidle
      push Not at hidle
      exact hidle hst
    obtain ⟨c', hc'⟩ := h.onCpu p hrun
    have hne : c' ≠ c := by rintro rfl; rw [hchoose.running] at hc'; cases hc'
    rw [show step s (.sched c) = s.sched c from rfl, hd] at hs
    cases hs
    intro hex
    refine hne (hex c' c p ?_ ?_)
    · rw [show (s.dispatch c p x).pc c' = s.pc c' by simp [State.dispatch, State.goto, hne]]
      exact Pc.running_proc hc'
    · simp only [State.dispatch, State.goto, Function.update_self]
      split <;> rfl
  | _ => exact absurd trivial hG

/-- **At most one CPU runs a process**, in every state of a run of any number of CPUs,
exactly when every process that `scheduler` takes from a queue is `RUNNABLE`. -/
theorem scheduler_exclusive (n : ℕ) (k : Kernel) (hk : userinit Kernel.zero = .ok k)
    (es : List (Event n)) (s : State n) (hr : (machine n).run (boot n k) es = some (.ok s)) :
    (∀ es₁ es₂ s₁, es = es₁ ++ es₂ → (machine n).run (boot n k) es₁ = some (.ok s₁) → Exclusive s₁) ↔
      (machine n).Guarded Fresh (boot n k) es := by
  constructor
  · intro hex
    -- the guard, one event at a time: a process taken while it runs shows at once
    have hall : ∀ es₁ es₂, es = es₁ ++ es₂ → (machine n).Guarded Fresh (boot n k) es₁ := by
      intro es₁
      induction es₁ using List.reverseRecOn with
      | nil => intro _ _; exact .nil
      | append_singleton es₁ e ih =>
        intro es₂ hes
        have hg := ih (e :: es₂) (by simp [hes])
        refine hg.snoc fun s₁ h1 => ?_
        by_contra hnot
        rw [hes] at hr
        obtain ⟨s₂, h2⟩ := Machine.run_prefix hr
        obtain ⟨s₁', h1', hs⟩ := (Machine.run_snoc es₁ e _ _).1 h2
        rw [h1] at h1'
        cases h1'
        exact not_fresh_shares (running_run hk hg h1) hnot hs (hex _ es₂ s₂ hes h2)
    exact hall es [] (by simp)
  · intro hG es₁ es₂ s₁ hes h1
    rw [hes] at hG
    exact (running_run hk hG.take h1).exclusive

/-- Two CPUs, each with one step to take the lock and one to choose. -/
def bothSchedule : List (Event 2) := [.sched 0, .sched 0, .sched 1, .sched 1]

/-- **Two CPUs run one process.** -/
theorem two_cpus_one_process : ∃ k s, userinit Kernel.zero = .ok k ∧
    (machine 2).run (boot 2 k) bothSchedule = some (.ok s) ∧ ¬ Exclusive s := by
  obtain ⟨k, s, hk, hr, hP⟩ := bootRun_any bothSchedule
    (fun x => decide ((x.2.pc 0).proc = some 0 ∧ (x.2.pc 1).proc = some 0)) (by decide)
  obtain ⟨h0, h1⟩ := of_decide_eq_true hP
  exact ⟨k, s, hk, hr, fun hex => absurd (hex 0 1 0 h0 h1) (by decide)⟩

/-- The first process blocks before the second CPU comes to look. -/
def sleepFirst : List (Event 2) :=
  [.sched 0, .sched 0, .sleep 0 (.other 7), .sched 0, .sched 0, .sched 1, .sched 1]

theorem scheduler_exclusive_sleepFirst : ∃ k s, userinit Kernel.zero = .ok k ∧
    (machine 2).run (boot 2 k) sleepFirst = some (.ok s) ∧ Exclusive s := by
  obtain ⟨k, s, hk, hr, hG⟩ := bootRun_any sleepFirst
    (fun x => (machine 2).check Fresh (boot 2 x.1) sleepFirst) (by decide)
  exact ⟨k, s, hk, hr, (scheduler_exclusive 2 k hk _ s hr).2 (Machine.guarded_of_check hG) _ [] s
    (by simp) hr⟩

end Xv6.Mlfq
