import Xv6.Mlfq.Step

/-!
# The queues of a one-CPU kernel

In every state that a one-CPU kernel reaches from `userinit` the three queues are well
formed (`queues_wellFormed`), as long as no step does one of the things that the code
does not guard against (`Tame`):

* a process that sleeps on the channel of a `wakeup1` is on L2: the source takes it out
  of L1 and links it into L2 a second time;
* `fork` gets a slot that is still linked from the life of its last owner;
* the scheduler lock ends while its owner is on a queue, or does not have level 0, or
  leaves L0 without a rear: the source puts it before the front of L0 without
  taking it out of anywhere.

`scheduler_lock_breaks_queue`: one process that locks and unlocks the scheduler is linked
to itself.
-/

namespace Xv6.Mlfq

variable {n : ℕ} {k k' : Kernel} {ls ls' : Lv → List Slot} {p : Slot} {chan : Option Chan}

/-! ## The steps that the code does not guard against -/

instance : DecidableEq (Except Fault Bool)
  | .ok a, .ok b => decidable_of_iff (a = b) (by simp)
  | .error a, .error b => decidable_of_iff (a = b) (by simp)
  | .ok _, .error _ => isFalse (by simp)
  | .error _, .ok _ => isFalse (by simp)

/-- The process is on no queue. -/
def Kernel.Unlinked (k : Kernel) (p : Slot) : Prop :=
  isThere k .zero p = .ok false ∧ isThere k .one p = .ok false ∧ isThere k .two p = .ok false

/-- Nobody who sleeps on `chan` is on L2. -/
def Kernel.Calm (k : Kernel) (chan : Option Chan) : Prop :=
  ∀ p, (k.proc p).state = .sleeping ∧ (k.proc p).chan = chan → isThere k .two p = .ok false

/-- The scheduler lock of `q` can end. -/
def Kernel.Releasable (k : Kernel) (q : Slot) : Prop :=
  k.Unlinked q ∧ (k.proc q).ql = 0 ∧ ((k.queue .zero).count = 0 → (k.queue .zero).rear = some q)

/-- The exit of `p` wakes nobody who is on L2. -/
def Kernel.CalmExit (k : Kernel) (p : Slot) : Prop :=
  k.Calm ((k.proc p).parent.map .proc) ∧
    ((∃ z, (k.proc z).parent = some p ∧ (k.proc z).state = .zombie) → k.Calm (k.initproc.map .proc))

/-- What process `p` does next in `fork` or `schedulerLock` breaks no queue. -/
def Kernel.TameCont (k : Kernel) : Call → Prop
  | .fork np => k.Unlinked np
  | .lockTicks => k.Calm (some .ticks)
  | _ => True

/-- The next step of `scheduler` breaks no queue. -/
def Kernel.TameSched (k : Kernel) : Pc → Prop
  | .ret q .lock => k.ticks = 100 ∨ k.isUnlocked = true → k.Releasable q
  | _ => True

/-- The event breaks no queue. -/
def Tame (s : State n) : Event n → Prop
  | .sched c => s.kernel.TameSched (s.pc c)
  | .wakeup chan => s.kernel.Calm (some chan)
  | .exit c => ∀ p, (s.pc c).proc = some p → s.kernel.CalmExit p
  | .cont c => ∀ p, (s.pc c).proc = some p → s.kernel.TameCont (s.call p)
  | _ => True

instance (k : Kernel) (p : Slot) : Decidable (k.Unlinked p) := by unfold Kernel.Unlinked; infer_instance

instance (k : Kernel) (chan : Option Chan) : Decidable (k.Calm chan) := by
  unfold Kernel.Calm; infer_instance

instance (k : Kernel) (x : Call) : Decidable (k.TameCont x) := by
  unfold Kernel.TameCont; rcases x with ⟨⟩ <;> infer_instance

instance (k : Kernel) (p : Slot) : Decidable (k.Releasable p) := by
  unfold Kernel.Releasable; infer_instance

instance (k : Kernel) (pc : Pc) : Decidable (k.TameSched pc) := by
  unfold Kernel.TameSched; split <;> infer_instance

instance (k : Kernel) (p : Slot) : Decidable (k.CalmExit p) := by
  unfold Kernel.CalmExit; infer_instance

instance (s : State n) (e : Event n) : Decidable (Tame s e) := by
  unfold Tame; rcases e with ⟨⟩ <;> infer_instance

theorem Kernel.Unlinked.free (h : k.Unlinked p) (hl : Links k ls) (q : Lv) : p ∉ ls q := by
  intro hp
  obtain ⟨h0, h1, h2⟩ := h
  cases q with
  | zero => have := (isThere_iff hl h0).2 hp; cases this
  | one => have := (isThere_iff hl h1).2 hp; cases this
  | two => have := (isThere_iff hl h2).2 hp; cases this

theorem Kernel.Calm.calmOn (h : k.Calm chan) (hl : Links k ls) : CalmOn k ls chan := by
  intro x hs hc hx
  have := (isThere_iff hl (h x ⟨hs, hc⟩)).2 hx
  cases this

/-! ## `exit` and `fork` -/

/-- What the loop of `exit` over the children has done so far. -/
structure Reparented (curproc : Slot) (k b : Kernel) (ls : Lv → List Slot) : Prop where
  queues : Requeued k ls b
  initproc : b.initproc = k.initproc
  sleeping : ∀ x, (b.proc x).state = .sleeping →
    (k.proc x).state = .sleeping ∧ (b.proc x).chan = (k.proc x).chan
  zombie : ∀ x, (b.proc x).state = .zombie → (k.proc x).state = .zombie
  parent : ∀ x, (b.proc x).parent = some curproc → (k.proc x).parent = some curproc

theorem reparent_step {curproc : Slot} {b b' : Kernel} (hinit : k.initproc ≠ some curproc)
    (hcalm : (∃ z, (k.proc z).parent = some curproc ∧ (k.proc z).state = .zombie) →
      CalmOn k ls (k.initproc.map .proc))
    (h : Reparented curproc k b ls) (hb : reparent curproc b p = .ok b') :
    Reparented curproc k b' ls := by
  unfold reparent at hb
  split at hb
  · rename_i hp
    dsimp only at hb
    -- the child has a new parent
    have h1 : Reparented curproc k (b.upd p fun x => { x with parent := b.initproc }) ls := by
      obtain ⟨ls', hq, hg, h2, hm⟩ := h.queues
      refine ⟨⟨ls', hq.upd (fun _ => rfl) fun _ => rfl, hg, h2,
        hm.trans (.upd (fun hr => .inl hr) (fun _ => rfl) fun _ => rfl)⟩, h.initproc, ?_, ?_, ?_⟩
      · intro x hx
        rw [upd_proc] at hx ⊢
        split at hx
        · rename_i hxp; rw [if_pos hxp]; exact h.sleeping x hx
        · rename_i hxp; rw [if_neg hxp]; exact h.sleeping x hx
      · intro x hx
        rw [upd_proc] at hx
        split at hx <;> exact h.zombie x hx
      · intro x hx
        rw [upd_proc] at hx
        split at hx
        · exact absurd (h.initproc ▸ hx) hinit
        · exact h.parent x hx
    split at hb
    · rename_i hz
      have hz' : (b.proc p).state = .zombie := by
        rw [upd_proc, if_pos rfl] at hz; exact hz
      have hc := hcalm ⟨p, h.parent p hp, h.zombie p hz'⟩
      obtain ⟨ls', hq, hg, h2, hm⟩ := h1.queues
      have hw := wakeup1_woke hb
      obtain ⟨ls'', hq', hg', h2', hm'⟩ := wakeup1_queues hq (fun x hs hch => by
        obtain ⟨hs', hc'⟩ := h1.sleeping x hs
        rw [h2]
        exact hc x hs' (by rw [← hc', hch]; exact congrArg _ h.initproc)) hb
      refine ⟨⟨ls'', hq', hg.trans hg', h2'.trans h2, hm.trans hm'⟩, hw.initproc.trans h1.initproc, ?_, ?_, ?_⟩
      · intro x hx
        obtain ⟨ha, hb⟩ := h1.sleeping x (hw.sleeping hx)
        exact ⟨ha, (hw.chan x).trans hb⟩
      · intro x hx
        exact h1.zombie x ((hw.state_iff (by simp) (by simp)).1 hx)
      · intro x hx
        exact h1.parent x (by rw [← hw.parent]; exact hx)
    · cases hb; exact h1
  · cases hb; exact h

theorem exit_queues (h : Queues k ls) (hcalm : k.CalmExit p) (he : exit k p = .ok k') :
    Requeued k ls k' := by
  unfold exit at he
  split at he
  · cases he
  · rename_i hinit
    simp only [bind_ok] at he
    obtain ⟨k₁, h1, k₂, h2, h3⟩ := he
    cases h3
    have hw := wakeup1_woke h1
    have hP := foldlM_ok (P := fun b => Reparented p k b ls) (f := reparent p)
      (l := List.finRange NPROC)
      (fun _ _ _ _ hb hr => reparent_step hinit (fun hz => (hcalm.2 hz).calmOn h.toLinks) hb hr)
      ⟨wakeup1_queues h (hcalm.1.calmOn h.toLinks) h1, hw.initproc,
        fun x hx => ⟨hw.sleeping hx, hw.chan x⟩,
        fun x hx => (hw.state_iff (by simp) (by simp)).1 hx,
        fun x hx => by rw [← hw.parent]; exact hx⟩ h2
    obtain ⟨ls', hq, hg, htwo, hm⟩ := hP.queues
    exact ⟨ls', hq.upd (fun _ => rfl) fun _ => rfl, hg, htwo,
      hm.trans (.upd (fun hr => by cases hr) (fun _ => rfl) fun _ => rfl)⟩

theorem forkReady_queues {curproc : Slot} (h : Queues k ls) (hp : ∀ q, p ∉ ls q)
    (hf : forkReady k curproc p = .ok k') :
    ∃ ls', Queues k' ls' ∧ Grows ls ls' ∧ Moved k ls k' ls' := by
  have h1 : Queues (k.upd p fun x => { x with parent := some curproc, state := .runnable }) ls :=
    h.upd (fun _ => rfl) fun _ => rfl
  have hm : Moved _ ls k' _ := pushLzero_moved hf
  refine ⟨_, pushLzero_queues h1 hp hf, grows_push _ _ _, ?_, hm.kept, fun x hx => ?_⟩
  · exact Timed.trans (.upd (f := fun x => { x with parent := some curproc, state := .runnable })
      (fun _ => rfl) fun _ => rfl) hm.toTimed
  · by_cases hxp : x = p
    · exact .inr ⟨.zero, mem_push.2 (.inr ⟨rfl, hxp⟩)⟩
    · have := hm.ready x hx
      rwa [upd_proc_ne k hxp] at this

theorem allocproc_some {np : Slot} (h : allocproc k = some (np, k')) :
    (k.proc np).state = .unused ∧
      k' = { (k.upd np fun x => { x with state := .embryo, pid := k.nextpid }) with
        nextpid := k.nextpid + 1 } := by
  unfold allocproc at h
  split at h
  · cases h
  · rename_i p hp
    cases h
    exact ⟨by simpa using List.find?_some hp, rfl⟩

section Fields

variable (h : Queues k ls) (p : Slot)
include h

theorem Queues.setState (st : ProcState) : Queues (k.upd p fun x => { x with state := st }) ls :=
  h.upd (fun _ => rfl) fun _ => rfl

theorem Queues.addTick : Queues (k.upd p fun x => { x with lt := x.lt + 1 }) ls :=
  h.upd (fun _ => rfl) fun _ => rfl

theorem Queues.goToSleep (chan : Chan) : Queues (goToSleep k p chan) ls :=
  h.upd (f := fun x => { x with chan := some chan, state := .sleeping }) (fun _ => rfl) fun _ => rfl

theorem Queues.reap : Queues (reap k p) ls :=
  h.upd (f := fun x => { x with pid := 0, parent := none, killed := false, state := .unused })
    (fun _ => rfl) fun _ => rfl

theorem Queues.wake : Queues (k.upd p fun x => { x with state := .running, chan := none }) ls :=
  h.upd (fun _ => rfl) fun _ => rfl

end Fields

theorem waitPass_queues {s : State n} {c : Fin n} {p : Slot} {x : Kont} (h : Queues s.kernel ls) :
    Queues (s.waitPass c p x).kernel ls := by
  unfold State.waitPass
  split
  · exact h.reap _
  · split
    · exact h
    · exact h.goToSleep p _

/-! ## The invariant -/

/-- The process whose time slice in L0 or L1 is running, and its queue. -/
def Pc.slice : Pc → Option (Slot × Lv)
  | .run p k | .held p k | .ret p k => k.que.map fun q => (p, q)
  | _ => none

theorem Pc.Choosing.slice {pc : Pc} (h : pc.Choosing) : pc.slice = none := by
  cases pc <;> first | rfl | exact h.elim

/-- The queues are well formed, and the process in a time slice of L0 or L1 is still
on that queue. -/
def Sound (s : State 1) : Prop :=
  ∃ ls, Queues s.kernel ls ∧ ∀ p q, (s.pc 0).slice = some (p, q) → p ∈ ls q

variable {s s' : State 1}

theorem Sound.wellFormed (h : Sound s) : WellFormed s.kernel := by
  obtain ⟨ls, hq, -⟩ := h; exact ⟨ls, hq⟩

theorem Sound.of_wellFormed (h : WellFormed s.kernel) (hpc : (s.pc 0).slice = none) : Sound s := by
  obtain ⟨ls, hq⟩ := h
  exact ⟨ls, hq, fun p q hs => by rw [hpc] at hs; cases hs⟩

theorem goto_pc (s : State 1) (c : Fin 1) (pc : Pc) : (s.goto c pc).pc 0 = pc := by
  obtain rfl : c = 0 := Subsingleton.elim _ _
  simp [State.goto]

theorem dispatch_pc (s : State 1) (p : Slot) (x : Kont) :
    (s.dispatch 0 p x).pc 0 = .run p x ∨ (s.dispatch 0 p x).pc 0 = .held p x := by
  rw [State.dispatch, goto_pc]
  split
  · exact .inr rfl
  · exact .inl rfl

theorem goto_kernel {n : ℕ} (s : State n) (c : Fin n) (pc : Pc) : (s.goto c pc).kernel = s.kernel := rfl

/-- No queue loses a process and the time slice goes on. -/
theorem Sound.grow (hs : ∀ p q, (s.pc 0).slice = some (p, q) → p ∈ ls q)
    (hq' : Queues s'.kernel ls') (hg : Grows ls ls') (hpc : (s'.pc 0).slice = (s.pc 0).slice) :
    Sound s' := ⟨ls', hq', fun p q h => hg q p (hs p q (hpc ▸ h))⟩

/-- **One step of `scheduler`.** -/
theorem sched_sound (h : Sound s) (hG : s.kernel.TameSched (s.pc 0)) (hs : SchedStep s 0 s') :
    Sound s' := by
  obtain ⟨ls, hq, hslice⟩ := h
  have hwf : WellFormed s.kernel := ⟨ls, hq⟩
  cases hs with
  | acquire pc _ _ hto _ =>
    exact .of_wellFormed hwf (by rw [goto_pc, hto.slice])
  | go pc _ hto _ _ =>
    exact .of_wellFormed hwf (by rw [goto_pc, hto.slice])
  | forget q _ _ => exact .of_wellFormed ⟨ls, hq.congr rfl rfl fun _ => rfl⟩ (by rw [goto_pc]; rfl)
  | lock q _ _ _ =>
    exact .of_wellFormed ⟨ls, hq.wake q⟩ (by rw [State.dispatch, goto_pc]; split <;> rfl)
  | drop que p k' _ _ hdel => exact .of_wellFormed (del_wellFormed hq hdel) (by rw [goto_pc]; rfl)
  | slice que k p _ hk hfront _ =>
    have hp : p ∈ ls que := by
      have := (hq.queue que).chain.head
      rw [hfront] at this
      exact List.mem_of_mem_head? this.symm
    refine ⟨ls, hq.wake p, fun x q hx => ?_⟩
    rw [State.dispatch, goto_pc] at hx
    have hx' : some (p, que) = some (x, q) := by
      rw [← hx]; split <;> simp [Pc.slice, hk]
    cases hx'
    exact hp
  | dropL2 min p k' _ _ hdel => exact .of_wellFormed (del_wellFormed hq hdel) (by rw [goto_pc]; rfl)
  | sliceL2 min p _ _ =>
    exact .of_wellFormed ⟨ls, hq.wake p⟩ (by rw [State.dispatch, goto_pc]; split <;> rfl)
  | boost k' _ hk =>
    refine .of_wellFormed ?_ (by rw [goto_pc]; rfl)
    rcases hk with rfl | hk
    · exact hwf
    · obtain ⟨ls', hq', -⟩ := boostPr_queues hq hk
      exact ⟨ls', hq'⟩
  | release p k' hpc hto hk =>
    refine .of_wellFormed ?_ (by rw [goto_pc]; rfl)
    rw [hpc] at hG
    obtain ⟨hfree, hl, hrear⟩ := hG hto
    have hp := hfree.free hq.toLinks
    obtain ⟨ls', hq', -⟩ := releaseLock_queues (hq.addTick p) hp
      (by rw [upd_proc, if_pos rfl]; exact hl)
      (fun hnil => hrear (by rw [(hq.queue .zero).count, hnil]; rfl)) hk
    exact ⟨ls', hq'⟩
  | again p _ =>
    exact .of_wellFormed ⟨ls, hq.addTick p⟩ (by rw [goto_pc]; rfl)
  | demote que down k p k' hpc hk hlv hd =>
    refine .of_wellFormed ?_ (by rw [goto_pc]; rfl)
    have hp : p ∈ ls que := hslice p que (by rw [hpc]; simp [Pc.slice, hk])
    obtain ⟨ls', hq', -⟩ := demote_queues hq hp hlv hd
    exact ⟨ls', hq'⟩
  | promote p _ => exact .of_wellFormed ⟨ls, (promote_queues hq).1⟩ (by rw [goto_pc]; rfl)

/-- **Every tame event keeps the queues.** -/
theorem sound_step (h : Sound s) {e : Event 1} (hG : Tame s e) (hs : step s e = some (.ok s')) :
    Sound s' := by
  obtain ⟨ls, hq, hslice⟩ := h
  -- an event that queues and running process do not notice
  have hmild : ∀ s' : State 1, Mild s.kernel s'.kernel → (s'.pc 0).slice = (s.pc 0).slice →
      Sound s' := by
    intro s' hm hpc
    exact .grow hslice (hq.congr hm.next hm.queue hm.ql) (.refl ls) hpc
  cases e with
  | sched c =>
    obtain rfl : c = 0 := Subsingleton.elim _ _
    exact sched_sound ⟨ls, hq, hslice⟩ hG (sched_cases hs)
  | tick =>
    rw [step_tick hs]
    exact hmild _ (.of_proc rfl rfl rfl) rfl
  | wakeup chan =>
    obtain ⟨-, k', hk, rfl⟩ := step_wakeup hs
    obtain ⟨ls', hq', hg, -⟩ := wakeup1_queues hq (Kernel.Calm.calmOn hG hq.toLinks) hk
    exact .grow hslice hq' hg rfl
  | yield c =>
    obtain rfl : c = 0 := Subsingleton.elim _ _
    obtain ⟨p, k, hpc, -, rfl⟩ := step_yield hs
    exact .grow hslice (hq.setState p _) (.refl ls) (by rw [goto_pc, hpc]; rfl)
  | sleep c chan =>
    obtain rfl : c = 0 := Subsingleton.elim _ _
    obtain ⟨p, k, hpc, -, -, rfl⟩ := step_sleep hs
    exact .grow hslice (hq.goToSleep p chan) (.refl ls) (by rw [goto_pc, hpc]; rfl)
  | exit c =>
    obtain rfl : c = 0 := Subsingleton.elim _ _
    obtain ⟨p, k, k', hpc, -, -, hk, rfl⟩ := step_exit hs
    obtain ⟨ls', hq', hg, -⟩ := exit_queues hq (hG p (by rw [hpc]; rfl)) hk
    exact .grow hslice hq' hg (by rw [goto_pc, hpc]; rfl)
  | wait c =>
    obtain rfl : c = 0 := Subsingleton.elim _ _
    obtain ⟨p, k, hpc, rfl⟩ := step_wait hs
    refine .grow hslice (waitPass_queues hq) (.refl ls) ?_
    have hold : (s.pc 0).slice = k.que.map fun q => (p, q) := by
      rcases hpc with ⟨hpc, -⟩ | hpc <;> rw [hpc] <;> rfl
    rw [hold]
    unfold State.waitPass
    split
    · rw [goto_pc]; rfl
    · split <;> rw [goto_pc] <;> rfl
  | kill c pid =>
    rw [step_kill hs]
    exact hmild _ (kill_mild _ _) rfl
  | setPriority c pid pr =>
    obtain ⟨k', hk, rfl⟩ := step_setPriority hs
    exact hmild _ (setPriority_mild hk) rfl
  | fork c =>
    obtain ⟨p, k, -, -, rfl | ⟨np, k', -, ha, rfl⟩⟩ := step_fork hs
    · exact ⟨ls, hq, hslice⟩
    · obtain ⟨-, rfl⟩ := allocproc_some ha
      refine .grow hslice ?_ (.refl ls) rfl
      exact (hq.upd (p := np) (f := fun x => { x with state := .embryo, pid := s.kernel.nextpid })
        (fun _ => rfl) fun _ => rfl).congr rfl rfl fun _ => rfl
  | forkFail c =>
    obtain ⟨p, k, np, -, -, rfl⟩ := step_forkFail hs
    exact .grow hslice (hq.setState np _) (.refl ls) rfl
  | schedulerLock c ok =>
    obtain ⟨p, k, x, -, -, -, rfl⟩ := step_schedulerLock hs
    exact hmild _ (.of_proc rfl rfl rfl) rfl
  | schedulerUnlock c ok =>
    obtain ⟨p, k, x, -, -, -, rfl⟩ := step_schedulerUnlock hs
    exact hmild _ (.of_proc rfl rfl rfl) rfl
  | cont c =>
    obtain rfl : c = 0 := Subsingleton.elim _ _
    obtain ⟨p, k, k', x, hpc, -, rfl, ⟨np, hcall, -, hk⟩ | ⟨hcall, -, hk⟩ | hm⟩ := step_cont hs
    · have hfree := hG p (by rw [hpc]; rfl)
      rw [hcall] at hfree
      obtain ⟨ls', hq', hg, -⟩ := forkReady_queues hq (Kernel.Unlinked.free hfree hq.toLinks) hk
      exact .grow hslice hq' hg rfl
    · have hcalm : s.kernel.TameCont (s.call p) := hG p (by rw [hpc]; rfl)
      rw [hcall] at hcalm
      have hcalm' : CalmOn s.kernel ls (some .ticks) := Kernel.Calm.calmOn hcalm hq.toLinks
      have hq0 : Queues { s.kernel with ticks := 0 } ls := hq.congr rfl rfl fun _ => rfl
      obtain ⟨ls', hq', hg, -⟩ := wakeup1_queues hq0 hcalm' hk
      exact .grow hslice hq' hg rfl
    · exact hmild _ hm.mild rfl

/-! ## From `userinit` -/

/-- The first process, alone on L0. -/
theorem userinit_queues : ∃ k, userinit Kernel.zero = .ok k ∧ WellFormed k := by
  have hzero : Queues Kernel.zero fun _ => [] :=
    ⟨⟨fun _ => .empty, fun _ _ _ h => absurd h (by simp)⟩, fun _ _ h => absurd h (by simp)⟩
  unfold userinit
  cases ha : allocproc Kernel.zero with
  | none => exact absurd ha (by decide)
  | some x =>
    obtain ⟨p, k₀⟩ := x
    obtain ⟨-, rfl⟩ := allocproc_some ha
    dsimp only
    have hq : Queues { (Kernel.upd { (Kernel.zero.upd p fun x => { x with
        state := .embryo, pid := Kernel.zero.nextpid }) with nextpid := Kernel.zero.nextpid + 1 } p
        fun x => { x with state := .runnable }) with initproc := some p } fun _ => [] :=
      hzero.congr (by funext x; simp only [Kernel.next, upd_proc]; split <;> rfl) rfl
        fun x => by simp only [upd_proc]; split <;> rfl
    obtain ⟨k', hk⟩ : ∃ k', pushLzero { (Kernel.upd { (Kernel.zero.upd p fun x => { x with
        state := .embryo, pid := Kernel.zero.nextpid }) with nextpid := Kernel.zero.nextpid + 1 } p
        fun x => { x with state := .runnable }) with initproc := some p } p = .ok k' := ⟨_, rfl⟩
    exact ⟨k', hk, _, pushLzero_queues hq (by simp) hk⟩

/-- **The queues are well formed** in every state that a tame run of a one-CPU kernel
reaches from `userinit`. -/
theorem queues_wellFormed (k : Kernel) (hk : userinit Kernel.zero = .ok k) (es : List (Event 1))
    (s : State 1) (hG : (machine 1).Guarded Tame (boot 1 k) es)
    (hr : (machine 1).run (boot 1 k) es = some (.ok s)) : WellFormed s.kernel := by
  obtain ⟨k', hk', hwf⟩ := userinit_queues
  rw [hk'] at hk
  cases hk
  exact (Machine.guarded_inv (M := machine 1) (I := Sound) (.of_wellFormed hwf rfl)
    (fun _ _ _ hI hg hs => sound_step hI hg hs) hG hr).wellFormed

/-- A fork, and both processes get a time slice. -/
def forkAndYield : List (Event 1) :=
  [.sched 0, .sched 0, .fork 0, .cont 0, .yield 0, .sched 0, .sched 0, .sched 0, .sched 0]

theorem queues_wellFormed_forkAndYield : ∃ k s, userinit Kernel.zero = .ok k ∧
    (machine 1).run (boot 1 k) forkAndYield = some (.ok s) ∧ WellFormed s.kernel := by
  obtain ⟨k, s, hk, hr, hG⟩ := bootRun_any forkAndYield
    (fun x => (machine 1).check Tame (boot 1 x.1) forkAndYield) (by decide)
  exact ⟨k, s, hk, hr, queues_wellFormed k hk _ s (Machine.guarded_of_check hG) hr⟩

/-- The only process locks the scheduler, is scheduled under the lock, unlocks it and
gives up the CPU. -/
def lockAndUnlock : List (Event 1) :=
  [.sched 0, .sched 0, .schedulerLock 0 true, .cont 0, .cont 0, .yield 0, .sched 0, .sched 0,
    .sched 0, .sched 0, .schedulerUnlock 0 true, .cont 0, .cont 0, .yield 0, .sched 0, .sched 0]

/-- **The end of the scheduler lock ties its owner to itself**: it is put before the
front of L0, which it is. -/
theorem scheduler_lock_breaks_queue : ∃ k s, userinit Kernel.zero = .ok k ∧
    (machine 1).run (boot 1 k) lockAndUnlock = some (.ok s) ∧ s.Free ∧ ¬ WellFormed s.kernel := by
  obtain ⟨k, s, hk, hr, hP⟩ := bootRun_any lockAndUnlock
    (fun x => decide (x.2.Free ∧ (x.2.kernel.queue .zero).front = some 0 ∧
      (x.2.kernel.proc 0).next = some 0)) (by decide)
  obtain ⟨hfree, hfront, hnext⟩ := of_decide_eq_true hP
  refine ⟨k, s, hk, hr, hfree, ?_⟩
  rintro ⟨ls, hq⟩
  -- the list would be its own tail
  have hc := (hq.queue .zero).chain
  rw [hfront] at hc
  cases hl : ls .zero with
  | nil => rw [hl] at hc; cases hc
  | cons x l =>
    rw [hl] at hc
    obtain ⟨hx, hc'⟩ := hc
    cases hx
    have hself : s.kernel.next 0 = some 0 := hnext
    rw [hself] at hc'
    have hlen := congrArg List.length (hc'.unique (show Chain s.kernel.next (some 0) (0 :: l) from
      ⟨rfl, by rw [hself]; exact hc'⟩))
    simp at hlen

end Xv6.Mlfq
