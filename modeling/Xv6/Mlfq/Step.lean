import Xv6.Mlfq.Ops

/-!
# What an event does

`SchedStep s c s'` lists the ways in which one step of `scheduler` on CPU `c` takes
`s` to `s'`, with what was tested on the way. The lemmas `step_yield`, `step_exit`
and so on do the same for the other events. The proofs about runs use these and not
the definition of `step`.
-/

namespace Xv6.Mlfq

variable {n : ℕ} {s s' : State n} {c : Fin n} {k k' k'' : Kernel}

/-- Nothing happened that a queue or a running process would notice. -/
structure Mild (k k' : Kernel) : Prop extends Woke k k' where
  next : k'.next = k.next
  queue : k'.queue = k.queue
  ql : ∀ x, (k'.proc x).ql = (k.proc x).ql

theorem kill_mild (k : Kernel) (pid : ℕ) : Mild k (kill k pid) := by
  unfold kill
  split
  · exact ⟨.refl _, rfl, rfl, fun _ => rfl⟩
  · refine ⟨⟨fun x => ?_, fun x => ?_, fun x => ?_, rfl⟩, upd_next fun _ => rfl, rfl,
      upd_ql fun _ => rfl⟩ <;> rw [upd_proc]
    · split
      · dsimp only
        split
        · rename_i h; exact .inr ⟨h, rfl⟩
        · exact .inl rfl
      · exact .inl rfl
    · split <;> rfl
    · split <;> rfl

theorem setPriority_mild {pid : ℕ} {pr : ℤ} (h : setPriority k pid pr = .ok k') : Mild k k' := by
  unfold setPriority at h
  split at h
  · cases h
  · split at h
    · cases h; exact ⟨.refl _, rfl, rfl, fun _ => rfl⟩
    · cases h
      exact ⟨.of_upd (fun _ => rfl) (fun _ => rfl) fun _ => rfl, upd_next fun _ => rfl, rfl,
        upd_ql fun _ => rfl⟩

/-- A change of the globals only. -/
theorem Mild.of_proc (hp : k'.proc = k.proc) (hq : k'.queue = k.queue) (hi : k'.initproc = k.initproc) :
    Mild k k' :=
  ⟨⟨fun x => .inl (by rw [hp]), fun x => by rw [hp], fun x => by rw [hp], hi⟩,
    by funext x; simp [Kernel.next, hp], hq, fun x => by rw [hp]⟩

theorem Mild.trans (h : Mild k k') (h' : Mild k' k'') : Mild k k'' :=
  ⟨h.toWoke.trans h'.toWoke, h'.next.trans h.next, h'.queue.trans h.queue,
    fun x => (h'.ql x).trans (h.ql x)⟩

theorem after_ok {r : Except Fault Kernel} {pc : Pc} (h : s.after c r pc = some (.ok s')) :
    ∃ k', r = .ok k' ∧ s' = { s with kernel := k' }.goto c pc := by
  unfold State.after at h
  cases r with
  | error e => cases h
  | ok k => cases h; exact ⟨k, rfl, rfl⟩

theorem within_ok {r : Except Fault Kernel} (h : s.within r = some (.ok s')) :
    ∃ k', r = .ok k' ∧ s' = { s with kernel := k' } := by
  unfold State.within at h
  cases r with
  | error e => cases h
  | ok k => cases h; exact ⟨k, rfl, rfl⟩

theorem user_some {p : Slot} {k : Kont} (h : s.user c = some (p, k)) :
    s.pc c = .run p k ∧ s.call p = .none := by
  unfold State.user at h
  split at h
  · rename_i hpc
    split at h
    · rename_i hcall; cases h; exact ⟨hpc, hcall⟩
    · cases h
  · cases h

/-! ## The scheduler -/

/-- The branch of `scheduler` for a queue. -/
def Kont.que : Kont → Option Lv
  | .l0 => some .zero
  | .l1 => some .one
  | _ => none

/-- In `scheduler` with the lock and no process. -/
def Pc.Choosing : Pc → Prop
  | .mlfq | .lockTest _ | .l2 _ _ | .boost => True
  | _ => False

/-- The queue whose front `scheduler` looks at. -/
def Kernel.turn (k : Kernel) : Option Lv :=
  if (k.queue .zero).count ≠ 0 then some .zero
  else if (k.queue .one).count ≠ 0 then some .one
  else none

/-- The process wants to run and has not used up its time on the queue. -/
def Kernel.Due (k : Kernel) (que : Lv) (p : Slot) : Prop :=
  ¬ (k.proc p).idle ∧ (k.proc p).lt < (k.queue que).tq

instance (k : Kernel) (que : Lv) (p : Slot) : Decidable (k.Due que p) := by
  unfold Kernel.Due; infer_instance

/-- The process that `scheduler` takes from a queue in its next step. -/
def Kernel.picks (k : Kernel) : Pc → Option Slot
  | .mlfq => k.turn.bind fun que => (k.queue que).front.filter fun p => k.Due que p
  | .l2 min (some p) => if k.Due .two p ∧ (k.proc p).pr = min then some p else none
  | _ => none

/-- The walk over L2 comes to `p`: at its front, or after another node. -/
def Kernel.Walks (k : Kernel) (pc : Pc) (p : Slot) : Prop :=
  (k.queue .two).front = some p ∨ ∃ min q, pc = .l2 min (some q) ∧ (k.proc q).next = some p

/-- What a step of `scheduler` can do. -/
inductive SchedStep (s : State n) (c : Fin n) : State n → Prop
  | acquire (pc : Pc) (hpc : s.pc c = .top) (hfree : s.Free) (hto : pc.Choosing)
    (hstart : ∀ min p, pc ≠ .l2 min p) : SchedStep s c (s.goto c pc)
  /-- a test that fails, or the next node of a list -/
  | go (pc : Pc) (hpc : (s.pc c).Choosing) (hto : pc.Choosing)
    (hlock : ∀ q, s.pc c = .lockTest q → s.kernel.isLocked = false)
    (hwalk : ∀ min p, pc = .l2 min (some p) → s.kernel.Walks (s.pc c) p) :
    SchedStep s c (s.goto c pc)
  | forget (q : Slot) (hpc : s.pc c = .lockTest q) (hst : (s.kernel.proc q).state ≠ .runnable) :
    SchedStep s c ({ s with kernel := { s.kernel with isLocked := false, me := none } }.goto c .mlfq)
  | lock (q : Slot) (hpc : s.pc c = .lockTest q) (hlock : s.kernel.isLocked = true)
    (hst : (s.kernel.proc q).state = .runnable) :
    SchedStep s c (s.dispatch c q .lock)
  /-- the front of L0 or L1 does not want to run -/
  | drop (que : Lv) (p : Slot) (k' : Kernel) (hpc : s.pc c = .mlfq) (hidle : (s.kernel.proc p).idle)
    (hdel : del s.kernel que p = .ok k') :
    SchedStep s c ({ s with kernel := k' }.goto c .top)
  | slice (que : Lv) (k : Kont) (p : Slot) (hpc : s.pc c = .mlfq) (hk : k.que = some que)
    (hfront : (s.kernel.queue que).front = some p) (hpick : s.kernel.picks (s.pc c) = some p) :
    SchedStep s c (s.dispatch c p k)
  | dropL2 (min : ℕ) (p : Slot) (k' : Kernel) (hpc : s.pc c = .l2 min (some p))
    (hidle : (s.kernel.proc p).idle) (hdel : del s.kernel .two p = .ok k') :
    SchedStep s c ({ s with kernel := k' }.goto c (.l2 min (k'.proc p).next))
  | sliceL2 (min : ℕ) (p : Slot) (hpc : s.pc c = .l2 min (some p))
    (hpick : s.kernel.picks (s.pc c) = some p) : SchedStep s c (s.dispatch c p .l2)
  | boost (k' : Kernel) (hpc : s.pc c = .boost)
    (hk : k' = s.kernel ∨ boostPr s.kernel = .ok k') :
    SchedStep s c ({ s with kernel := k' }.goto c .top)
  | release (p : Slot) (k' : Kernel) (hpc : s.pc c = .ret p .lock)
    (hto : s.kernel.ticks = 100 ∨ s.kernel.isUnlocked = true)
    (hk : releaseLock (s.kernel.upd p fun x => { x with lt := x.lt + 1 }) p = .ok k') :
    SchedStep s c ({ s with kernel := k' }.goto c .mlfq)
  | again (p : Slot) (hpc : s.pc c = .ret p .lock) :
    SchedStep s c ({ s with kernel := s.kernel.upd p fun x => { x with lt := x.lt + 1 } }.goto c
      (.lockTest p))
  | demote (que down : Lv) (k : Kont) (p : Slot) (k' : Kernel) (hpc : s.pc c = .ret p k)
    (hq : k.que = some que) (hlv : down.level = que.level + 1)
    (hk : demote s.kernel que down p = .ok k') : SchedStep s c ({ s with kernel := k' }.goto c .boost)
  | promote (p : Slot) (hpc : s.pc c = .ret p .l2) :
    SchedStep s c ({ s with kernel := promote s.kernel p }.goto c .boost)

theorem front_cases {que : Lv} {k : Kont} (hpc : s.pc c = .mlfq) (hk : k.que = some que)
    (hturn : s.kernel.turn = some que) (h : s.front c que k = some (.ok s')) : SchedStep s c s' := by
  unfold State.front at h
  split at h
  · cases h
  · rename_i p hfront
    split at h
    · rename_i hidle
      obtain ⟨k', hdel, rfl⟩ := after_ok h
      exact .drop que p k' hpc hidle hdel
    · rename_i hidle
      split at h
      · rename_i htq
        cases h
        refine .slice que k p hpc hk hfront ?_
        rw [hpc]
        simp [Kernel.picks, hturn, hfront, Kernel.Due, hidle, htq]
      · cases h
        exact .go _ (by rw [hpc]; trivial) trivial (by simp [hpc]) (by simp)

/-- **One step of `scheduler`.** -/
theorem sched_cases (h : s.sched c = some (.ok s')) : SchedStep s c s' := by
  unfold State.sched at h
  split at h
  · rename_i hpc
    split at h
    · rename_i hfree
      split at h
      · split at h
        · cases h
        · cases h; exact .acquire _ hpc hfree trivial (by simp)
      · cases h; exact .acquire _ hpc hfree trivial (by simp)
    · cases h
  · rename_i q hpc
    split at h
    · rename_i hlock
      split at h
      · rename_i hst
        obtain ⟨k', hk, rfl⟩ := after_ok h
        cases hk
        exact .forget q hpc hst
      · rename_i hst
        cases h
        exact .lock q hpc hlock (not_not.1 hst)
    · rename_i hlock
      cases h
      exact .go _ (by rw [hpc]; trivial) trivial (fun _ _ => by simpa using hlock) (by simp)
  · rename_i hpc
    split at h
    · rename_i h0; exact front_cases hpc rfl (if_pos h0) h
    · rename_i h0
      split at h
      · rename_i h1; exact front_cases hpc rfl ((if_neg h0).trans (if_pos h1)) h
      · split at h
        · cases h
          refine .go _ (by rw [hpc]; trivial) trivial (by simp [hpc]) fun m p hw => .inl ?_
          simp only [Pc.l2.injEq] at hw
          exact hw.2
        · cases h
          exact .go _ (by rw [hpc]; trivial) trivial (by simp [hpc]) (by simp)
  · rename_i min hpc
    split at h
    · cases h
      refine .go _ (by rw [hpc]; trivial) trivial (by simp [hpc]) fun m p hw => .inl ?_
      simp only [Pc.l2.injEq] at hw
      exact hw.2
    · cases h
      exact .go _ (by rw [hpc]; trivial) trivial (by simp [hpc]) (by simp)
  · rename_i min p hpc
    split at h
    · rename_i hidle
      cases hd : del s.kernel .two p with
      | error e => rw [hd] at h; cases h
      | ok k' => rw [hd] at h; cases h; exact .dropL2 min p k' hpc hidle hd
    · rename_i hidle
      split at h
      · rename_i hmin
        cases h
        refine .sliceL2 min p hpc ?_
        rw [hpc]
        exact if_pos ⟨⟨hidle, hmin.2⟩, hmin.1⟩
      · cases h
        refine .go _ (by rw [hpc]; trivial) trivial (by simp [hpc]) fun m x hw => .inr ?_
        simp only [Pc.l2.injEq] at hw
        exact ⟨min, p, hpc, hw.2⟩
  · rename_i hpc
    obtain ⟨k', hk, rfl⟩ := after_ok h
    refine .boost k' hpc ?_
    split at hk
    · exact .inr hk
    · cases hk; exact .inl rfl
  · rename_i p hpc
    dsimp only at h
    split at h
    · rename_i hto
      obtain ⟨k', hk, rfl⟩ := after_ok h
      exact .release p k' hpc hto hk
    · obtain ⟨k', hk, rfl⟩ := after_ok h
      cases hk
      exact .again p hpc
  · rename_i p hpc
    obtain ⟨k', hk, rfl⟩ := after_ok h
    exact .demote .zero .one .l0 p k' hpc rfl rfl hk
  · rename_i p hpc
    obtain ⟨k', hk, rfl⟩ := after_ok h
    exact .demote .one .two .l1 p k' hpc rfl rfl hk
  · rename_i p hpc
    obtain ⟨k', hk, rfl⟩ := after_ok h
    cases hk
    exact .promote p hpc
  · cases h
  · cases h

/-- The process that `picks` names is the one that runs next. -/
theorem sched_picks {p : Slot} (h : s.kernel.picks (s.pc c) = some p) :
    (s.pc c).Choosing ∧ ¬ (s.kernel.proc p).idle ∧ ∃ k, s.sched c = some (.ok (s.dispatch c p k)) := by
  cases hpc : s.pc c with
  | mlfq =>
    rw [hpc] at h
    simp only [Kernel.picks, Option.bind_eq_some_iff, Option.filter_eq_some_iff, decide_eq_true_eq] at h
    obtain ⟨que, hturn, hfront, hidle, hlt⟩ := h
    refine ⟨trivial, hidle, ?_⟩
    unfold Kernel.turn at hturn
    unfold State.sched
    rw [hpc]
    dsimp only
    split at hturn
    · rename_i h0
      cases hturn
      refine ⟨.l0, ?_⟩
      rw [if_pos h0, State.front, hfront]
      simp only [if_neg hidle, gt_iff_lt, if_pos hlt]
    · rename_i h0
      split at hturn
      · rename_i h1
        cases hturn
        refine ⟨.l1, ?_⟩
        rw [if_neg h0, if_pos h1, State.front, hfront]
        simp only [if_neg hidle, gt_iff_lt, if_pos hlt]
      · cases hturn
  | l2 min q =>
    rw [hpc] at h
    cases q with
    | none => cases h
    | some q =>
      simp only [Kernel.picks] at h
      split at h
      · rename_i hd
        cases h
        obtain ⟨⟨hidle, hlt⟩, hmin⟩ := hd
        refine ⟨trivial, hidle, .l2, ?_⟩
        unfold State.sched
        rw [hpc]
        dsimp only
        rw [if_neg hidle, if_pos ⟨hmin, hlt⟩]
      · cases h
  | top => rw [hpc] at h; cases h
  | lockTest q => rw [hpc] at h; cases h
  | boost => rw [hpc] at h; cases h
  | run p k => rw [hpc] at h; cases h
  | held p k => rw [hpc] at h; cases h
  | ret p k => rw [hpc] at h; cases h

/-! ## Processes -/

theorem step_wakeup {chan : Chan} (h : step s (.wakeup chan) = some (.ok s')) :
    s.Free ∧ ∃ k', wakeup1 s.kernel (some chan) = .ok k' ∧ s' = { s with kernel := k' } := by
  simp only [step] at h
  split at h
  · rename_i hfree; exact ⟨hfree, within_ok h⟩
  · cases h

theorem step_yield (h : step s (.yield c) = some (.ok s')) : ∃ p k, s.pc c = .run p k ∧ s.Free ∧
    s' = { s with kernel := s.kernel.upd p fun x => { x with state := .runnable } }.goto c (.ret p k) := by
  simp only [step] at h
  split at h
  · rename_i p k hpc
    split at h
    · rename_i hfree
      obtain ⟨k', hk, rfl⟩ := after_ok h
      cases hk
      exact ⟨p, k, hpc, hfree, rfl⟩
    · cases h
  · cases h

theorem step_sleep {chan : Chan} (h : step s (.sleep c chan) = some (.ok s')) :
    ∃ p k, s.pc c = .run p k ∧ s.call p = .none ∧ s.Free ∧
      s' = { s with kernel := goToSleep s.kernel p chan }.goto c (.ret p k) := by
  simp only [step] at h
  split at h
  · rename_i p k hu
    obtain ⟨hpc, hcall⟩ := user_some hu
    split at h
    · rename_i hfree
      obtain ⟨k', hk, rfl⟩ := after_ok h
      cases hk
      exact ⟨p, k, hpc, hcall, hfree, rfl⟩
    · cases h
  · cases h

theorem step_exit (h : step s (.exit c) = some (.ok s')) :
    ∃ p k k', s.pc c = .run p k ∧ s.call p = .none ∧ s.Free ∧ exit s.kernel p = .ok k' ∧
      s' = { s with kernel := k' }.goto c (.ret p k) := by
  simp only [step] at h
  split at h
  · rename_i p k hu
    obtain ⟨hpc, hcall⟩ := user_some hu
    split at h
    · rename_i hfree
      obtain ⟨k', hk, rfl⟩ := after_ok h
      exact ⟨p, k, k', hpc, hcall, hfree, hk, rfl⟩
    · cases h
  · cases h

theorem step_wait (h : step s (.wait c) = some (.ok s')) : ∃ p k,
    (s.pc c = .run p k ∧ s.Free ∧ s.call p = .none ∨ s.pc c = .held p k) ∧ s' = s.waitPass c p k := by
  simp only [step] at h
  split at h
  · rename_i p k hpc
    split at h
    · rename_i hf; cases h; exact ⟨p, k, .inl ⟨hpc, hf⟩, rfl⟩
    · cases h
  · rename_i p k hpc
    cases h
    exact ⟨p, k, .inr hpc, rfl⟩
  · cases h

theorem step_kill {pid : ℕ} (h : step s (.kill c pid) = some (.ok s')) :
    s' = { s with kernel := kill s.kernel pid } := by
  simp only [step] at h
  split at h
  · obtain ⟨k', hk, rfl⟩ := within_ok h
    cases hk
    rfl
  · cases h

theorem step_setPriority {pid : ℕ} {pr : ℤ} (h : step s (.setPriority c pid pr) = some (.ok s')) :
    ∃ k', setPriority s.kernel pid pr = .ok k' ∧ s' = { s with kernel := k' } := by
  simp only [step] at h
  split at h
  · exact within_ok h
  · cases h

theorem step_tick (h : step s .tick = some (.ok s')) :
    s' = { s with kernel := { s.kernel with ticks := (s.kernel.ticks + 1) % 2 ^ 32 } } := by
  simp only [step] at h
  cases h
  rfl

theorem step_fork (h : step s (.fork c) = some (.ok s')) :
    ∃ p k, s.pc c = .run p k ∧ s.call p = .none ∧ (s' = s ∨ ∃ np k', s.Free ∧
      allocproc s.kernel = some (np, k') ∧ s' = { s with kernel := k' }.setCall p (.fork np)) := by
  simp only [step] at h
  split at h
  · rename_i p k hu
    obtain ⟨hpc, hcall⟩ := user_some hu
    refine ⟨p, k, hpc, hcall, ?_⟩
    split at h
    · rename_i hfree
      split at h
      · rename_i np k' ha; cases h; exact .inr ⟨np, k', hfree, ha, rfl⟩
      · cases h; exact .inl rfl
    · cases h
  · cases h

theorem step_forkFail (h : step s (.forkFail c) = some (.ok s')) :
    ∃ p k np, s.pc c = .run p k ∧ s.call p = .fork np ∧
      s' = { s with kernel := s.kernel.upd np fun x => { x with state := .unused } }.setCall p .none := by
  simp only [step] at h
  split at h
  · rename_i p k hpc
    split at h
    · rename_i np hcall; cases h; exact ⟨p, k, np, hpc, hcall, rfl⟩
    · cases h
  · cases h

/-- Neither in `fork` nor in `wait`. -/
def Call.Plain : Call → Prop
  | .fork _ | .wait => False
  | _ => True

theorem step_schedulerLock {ok : Bool} (h : step s (.schedulerLock c ok) = some (.ok s')) :
    ∃ p k x, s.pc c = .run p k ∧ s.call p = .none ∧ x.Plain ∧
      s' = { s with kernel := { s.kernel with me := some p } }.setCall p x := by
  simp only [step] at h
  split at h
  · rename_i p k hu
    obtain ⟨hpc, hcall⟩ := user_some hu
    cases h
    refine ⟨p, k, _, hpc, hcall, ?_, rfl⟩
    cases ok <;> trivial
  · cases h

theorem step_schedulerUnlock {ok : Bool} (h : step s (.schedulerUnlock c ok) = some (.ok s')) :
    ∃ p k x, s.pc c = .run p k ∧ s.call p = .none ∧ x.Plain ∧
      s' = { s with kernel := { s.kernel with me := some p } }.setCall p x := by
  simp only [step] at h
  split at h
  · rename_i p k hu
    obtain ⟨hpc, hcall⟩ := user_some hu
    cases h
    refine ⟨p, k, _, hpc, hcall, ?_, rfl⟩
    cases ok <;> trivial
  · cases h

/-- What `schedulerLock` and `schedulerUnlock` do in a step without a `wakeup`. -/
inductive Flagged (k : Kernel) : Call → Kernel → Prop
  | lockSet : Flagged k .lockSet { k with isLocked := true }
  | lockFail : Flagged k .lockFail { k with isLocked := false }
  | lockKill (m : Slot) (hm : k.me = some m) : Flagged k .lockKill (kill k (k.proc m).pid)
  | unlockSet : Flagged k .unlockSet { k with isUnlocked := true }
  | unlockClear : Flagged k .unlockClear { k with isLocked := false }
  | unlockFail (m : Slot) (hm : k.me = some m) : Flagged k .unlockFail (kill k (k.proc m).pid)

theorem Flagged.plain {x : Call} (h : Flagged k x k') : x.Plain ∧ x ≠ .lockTicks := by
  cases h <;> exact ⟨trivial, by simp⟩

theorem Flagged.mild {x : Call} (h : Flagged k x k') : Mild k k' := by
  cases h with
  | lockSet => exact .of_proc rfl rfl rfl
  | lockFail => exact .of_proc rfl rfl rfl
  | lockKill m _ => exact kill_mild _ _
  | unlockSet => exact .of_proc rfl rfl rfl
  | unlockClear => exact .of_proc rfl rfl rfl
  | unlockFail m _ => exact kill_mild _ _

/-- A process goes on with `fork`, with the `wakeup` of `schedulerLock`, or with the
flags of the scheduler lock. -/
theorem step_cont (h : step s (.cont c) = some (.ok s')) : ∃ p k k' x, s.pc c = .run p k ∧ x.Plain ∧
    s' = { s with kernel := k' }.setCall p x ∧
    ((∃ np, s.call p = .fork np ∧ s.Free ∧ forkReady s.kernel p np = .ok k') ∨
      s.call p = .lockTicks ∧ s.Free ∧
        wakeup1 { s.kernel with ticks := 0 } (some .ticks) = .ok k' ∨
      Flagged s.kernel (s.call p) k') := by
  have hmap : ∀ {r : Except Fault Kernel} {p : Slot} {x : Call},
      some (r.map fun k => { s with kernel := k }.setCall p x) = some (.ok s') →
      ∃ k', r = .ok k' ∧ s' = { s with kernel := k' }.setCall p x := by
    intro r p x h
    cases r with
    | error e => cases h
    | ok k => cases h; exact ⟨k, rfl, rfl⟩
  simp only [step] at h
  split at h
  · rename_i p k hpc
    simp only [State.cont] at h
    cases hcall : s.call p with
    | none => rw [hcall] at h; cases h
    | wait => rw [hcall] at h; cases h
    | fork np =>
      rw [hcall] at h
      dsimp only at h
      split at h
      · rename_i hfree
        obtain ⟨k', hk, rfl⟩ := hmap h
        refine ⟨p, k, k', _, hpc, ?_, rfl, .inl ⟨np, hcall, hfree, hk⟩⟩
        trivial
      · cases h
    | lockTicks =>
      rw [hcall] at h
      dsimp only at h
      split at h
      · rename_i hfree
        obtain ⟨k', hk, rfl⟩ := hmap h
        refine ⟨p, k, k', _, hpc, ?_, rfl, .inr (.inl ⟨hcall, hfree, hk⟩)⟩
        trivial
      · cases h
    | lockSet =>
      rw [hcall] at h
      obtain ⟨k', hk, rfl⟩ := hmap h
      cases hk
      refine ⟨p, k, _, _, hpc, ?_, rfl, .inr (.inr (hcall ▸ .lockSet))⟩
      trivial
    | unlockSet =>
      rw [hcall] at h
      obtain ⟨k', hk, rfl⟩ := hmap h
      cases hk
      refine ⟨p, k, _, _, hpc, ?_, rfl, .inr (.inr (hcall ▸ .unlockSet))⟩
      trivial
    | unlockClear =>
      rw [hcall] at h
      obtain ⟨k', hk, rfl⟩ := hmap h
      cases hk
      refine ⟨p, k, _, _, hpc, ?_, rfl, .inr (.inr (hcall ▸ .unlockClear))⟩
      trivial
    | lockFail =>
      rw [hcall] at h
      obtain ⟨k', hk, rfl⟩ := hmap h
      cases hk
      refine ⟨p, k, _, _, hpc, ?_, rfl, .inr (.inr (hcall ▸ .lockFail))⟩
      trivial
    | lockKill =>
      rw [hcall] at h
      dsimp only at h
      split at h
      · split at h
        · cases h
        · rename_i m hm
          obtain ⟨k', hk, rfl⟩ := hmap h
          cases hk
          refine ⟨p, k, _, _, hpc, ?_, rfl, .inr (.inr (hcall ▸ .lockKill m hm))⟩
          trivial
      · cases h
    | unlockFail =>
      rw [hcall] at h
      dsimp only at h
      split at h
      · split at h
        · cases h
        · rename_i m hm
          obtain ⟨k', hk, rfl⟩ := hmap h
          cases hk
          refine ⟨p, k, _, _, hpc, ?_, rfl, .inr (.inr (hcall ▸ .unlockFail m hm))⟩
          trivial
      · cases h
  · cases h

/-! ## `ticks` -/

theorem boostPr_ticks (h : boostPr k = .ok k') : k'.ticks = 0 := by
  simp only [boostPr, bind_ok] at h
  obtain ⟨k₁, -, k₂, -, h3⟩ := h
  cases h3
  rfl

theorem releaseLock_ticks {q : Slot} (h : releaseLock k q = .ok k') :
    k'.ticks = 0 ∨ k'.ticks = k.ticks ∧ k.isUnlocked = true := by
  simp only [releaseLock, bind_ok] at h
  obtain ⟨there, -, h⟩ := h
  split at h
  · rename_i hu
    cases h
    exact .inr ⟨rfl, hu⟩
  · exact .inl (boostPr_ticks h)

/-- A step of `scheduler` resets `ticks` in a boost. -/
theorem sched_ticks (hs : s.sched c = some (.ok s')) :
    s'.kernel.ticks = s.kernel.ticks ∨ s'.kernel.ticks = 0 := by
  cases (sched_cases hs : SchedStep s c s') with
  | drop que q k' _ _ hdel => exact .inl (globals_ticks (core_globals (del_core hdel)))
  | dropL2 min q k' _ _ hdel => exact .inl (globals_ticks (core_globals (del_core hdel)))
  | boost k' _ hk =>
    rcases hk with rfl | hk
    · exact .inl rfl
    · exact .inr (boostPr_ticks hk)
  | release q k' _ _ hk =>
    rcases releaseLock_ticks hk with h0 | ⟨ht, -⟩
    · exact .inr h0
    · exact .inl ht
  | demote que down x q k' _ _ _ hd => exact .inl (globals_ticks (demote_globals hd))
  | promote q _ => exact .inl (globals_ticks (promote_globals s.kernel q))
  | _ => exact .inl rfl

/-- **Only the timer interrupt counts**: every other event leaves `ticks` or resets it. -/
theorem step_ticks {e : Event n} (htick : e ≠ .tick) (hs : step s e = some (.ok s')) :
    s'.kernel.ticks = s.kernel.ticks ∨ s'.kernel.ticks = 0 := by
  cases e with
  | tick => exact absurd rfl htick
  | sched c => exact sched_ticks hs
  | wakeup chan =>
    obtain ⟨-, k', hk, rfl⟩ := step_wakeup hs
    exact .inl (globals_ticks (wakeup1_globals hk))
  | yield c =>
    obtain ⟨p, x, -, -, rfl⟩ := step_yield hs
    exact .inl rfl
  | sleep c chan =>
    obtain ⟨p, x, -, -, -, rfl⟩ := step_sleep hs
    exact .inl rfl
  | exit c =>
    obtain ⟨p, x, k', -, -, -, hk, rfl⟩ := step_exit hs
    exact .inl (globals_ticks (exit_globals hk))
  | wait c =>
    obtain ⟨p, x, -, rfl⟩ := step_wait hs
    apply Or.inl
    unfold State.waitPass
    split
    · rfl
    · split
      · rfl
      · rfl
  | kill c pid =>
    rw [step_kill hs]
    exact .inl (globals_ticks (kill_globals _ _))
  | setPriority c pid pr =>
    obtain ⟨k', hk, rfl⟩ := step_setPriority hs
    exact .inl (globals_ticks (setPriority_globals hk))
  | fork c =>
    obtain ⟨p, x, -, -, rfl | ⟨np, k', -, hk, rfl⟩⟩ := step_fork hs
    · exact .inl rfl
    · exact .inl (globals_ticks (allocproc_globals hk))
  | forkFail c =>
    obtain ⟨p, x, np, -, -, rfl⟩ := step_forkFail hs
    exact .inl rfl
  | schedulerLock c ok =>
    obtain ⟨p, x, y, -, -, -, rfl⟩ := step_schedulerLock hs
    exact .inl rfl
  | schedulerUnlock c ok =>
    obtain ⟨p, x, y, -, -, -, rfl⟩ := step_schedulerUnlock hs
    exact .inl rfl
  | cont c =>
    obtain ⟨p, x, k', y, -, -, rfl, hk⟩ := step_cont hs
    rcases hk with ⟨np, -, -, hk⟩ | ⟨-, -, hk⟩ | hk
    · exact .inl (globals_ticks (forkReady_globals hk))
    · exact .inr (globals_ticks (wakeup1_globals hk))
    · apply Or.inl
      generalize s.call p = c' at hk
      cases hk with
      | lockKill m _ => exact (globals_ticks (kill_globals s.kernel (s.kernel.proc m).pid) :)
      | unlockFail m _ => exact (globals_ticks (kill_globals s.kernel (s.kernel.proc m).pid) :)
      | _ => rfl

end Xv6.Mlfq
