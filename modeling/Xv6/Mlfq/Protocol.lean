import Xv6.Mlfq.Quantum

/-!
# The protocol of the scheduler lock

What `schedulerLock`, `schedulerUnlock` and the loop of the lock in `scheduler` should do together, as
a protocol (`Proto`) over phases: a lock is taken, it is ended by the `schedulerUnlock` of its owner, by
`ticks` reaching 100 or by its owner not being RUNNABLE, and its release is carried out once; while it
is in force no other process is dispatched.

* `State.phase`, `action`: the phase that the flags and `me` stand for, and what a step does to the lock.
* `Orderly`: the condition under which a step keeps to the protocol.
* `Owned`, `Lawful`: the invariant.
* `Lawful.keep`: a step within a phase.
* `Lawful.lockSet`, `Lawful.unlockSet`, `Lawful.unlockClear`: the flags.
-/

namespace Xv6.Mlfq

/-- What the scheduler lock is doing; `p` is its owner. -/
inductive Phase
  | free
  | held (p : Slot)
  /-- `schedulerUnlock` has begun -/
  | unlocking (p : Slot)
  /-- ended by `schedulerUnlock`, the release is to come -/
  | unlocked (p : Slot)
  /-- taken again before the release of the last lock -/
  | relocked (p : Slot)
  /-- released, but `schedulerUnlock` has not ended -/
  | released (p : Slot)
  /-- a flag is set, but nobody owns the lock -/
  | lost
  deriving DecidableEq

inductive Action
  /-- `isLocked = 1` -/
  | lock (p : Slot)
  /-- `isUnlocked = 1` -/
  | unlock (p : Slot)
  /-- `isLocked = 0` in `schedulerUnlock` -/
  | clear (p : Slot)
  /-- the release, because of `isUnlocked` -/
  | release (p : Slot)
  /-- the release, because of `ticks` -/
  | timeout (p : Slot)
  /-- the owner is not RUNNABLE -/
  | drop (p : Slot)
  | dispatch (p : Slot)
  | other
  deriving DecidableEq

/-- The lock is in force, with owner `p`. -/
def Phase.Force (p : Slot) (x : Phase) : Prop := x = .held p ∨ x = .unlocking p ∨ x = .released p

/-- The release is to come. -/
def Phase.Ending (p : Slot) (x : Phase) : Prop := x = .unlocked p ∨ x = .relocked p

/-- **The protocol.** -/
inductive Proto : Phase → Action → Phase → Prop
  | other (x : Phase) : Proto x .other x
  | dispatch (p : Slot) : Proto .free (.dispatch p) .free
  /-- only the owner is dispatched -/
  | owner (p : Slot) (x : Phase) (hx : x.Force p) : Proto x (.dispatch p) x
  | lock (p : Slot) : Proto .free (.lock p) (.held p)
  | relock (p : Slot) : Proto (.held p) (.lock p) (.held p)
  | drop (p : Slot) : Proto (.held p) (.drop p) .free
  | timeout (p : Slot) : Proto (.held p) (.timeout p) .free
  | unlock (p : Slot) : Proto (.held p) (.unlock p) (.unlocking p)
  | clear (p : Slot) : Proto (.unlocking p) (.clear p) (.unlocked p)
  | release (p : Slot) : Proto (.unlocked p) (.release p) .free
  /-- the owner was off the CPU within `schedulerUnlock` -/
  | early (p : Slot) : Proto (.unlocking p) (.release p) (.released p)
  | clearReleased (p : Slot) : Proto (.released p) (.clear p) .free
  /-- the owner calls `schedulerUnlock` again before the release -/
  | unlockAgain (p : Slot) : Proto (.unlocked p) (.unlock p) (.unlocked p)
  | clearAgain (p : Slot) : Proto (.unlocked p) (.clear p) (.unlocked p)
  /-- a second `schedulerUnlock` comes to its end after the release -/
  | clearFree (p : Slot) : Proto .free (.clear p) .free
  | lockAgain (p : Slot) : Proto (.unlocked p) (.lock p) (.relocked p)
  | relockAgain (p : Slot) : Proto (.relocked p) (.lock p) (.relocked p)
  | releaseOld (p : Slot) : Proto (.relocked p) (.release p) (.held p)

/-- A process gets the CPU if no lock is in force, or its own. -/
theorem Proto.who {x y : Phase} {p : Slot} (h : Proto x (.dispatch p) y) : x = .free ∨ x.Force p := by
  cases h with
  | dispatch => exact .inl rfl
  | owner p x hx => exact .inr hx

/-! ## The code -/

variable {s s' : State 1} {k k' k'' : Kernel} {p q r : Slot} {que : Lv}

def State.phase (s : State 1) : Phase :=
  match s.kernel.isLocked, s.kernel.isUnlocked, s.kernel.me with
  | false, false, _ => .free
  | true, false, some p => if s.call p = .unlockClear then .released p else .held p
  | true, true, some p => if s.call p = .unlockClear then .unlocking p else .relocked p
  | false, true, some p => .unlocked p
  | _, _, none => .lost

/-- What a step does to the lock. -/
def action (s : State 1) : Event 1 → Action
  | .cont c =>
    match s.pc c with
    | .run p _ =>
      match s.call p with
      | .lockSet => .lock p
      | .unlockSet => .unlock p
      | .unlockClear => .clear p
      | _ => .other
    | _ => .other
  | .sched c =>
    match s.pc c with
    | .lockTest q =>
      if s.kernel.isLocked then
        if (s.kernel.proc q).state = .runnable then .dispatch q else .drop q
      else .other
    | .ret p .lock =>
      if s.kernel.isUnlocked then .release p
      else if s.kernel.ticks = 100 then .timeout p else .other
    | pc =>
      match s.kernel.picks pc with
      | some p => .dispatch p
      | none => .other
  | _ => .other

/-- The calls of `schedulerLock` and `schedulerUnlock` have the right password. -/
def Event.right : Event 1 → Prop
  | .schedulerLock _ ok | .schedulerUnlock _ ok => ok = true
  | _ => True

instance (e : Event 1) : Decidable e.right := by
  unfold Event.right; rcases e with ⟨⟩ <;> infer_instance

/-- The condition on a step: `schedulerLock` sets `isLocked` while `me` is still its caller;
`schedulerUnlock` sets `isUnlocked` for a lock whose predecessor is released, or again before the release, and
clears `isLocked` in a dispatch by the loop of the lock, unless the release is done; the release is not done
again because of `ticks`, and L0 counts the owner if it is there. -/
def Orderly (s : State 1) : Event 1 → Prop
  | .cont c =>
    match s.pc c with
    | .run p x =>
      match s.call p with
      | .lockSet => s.kernel.me = some p
      | .unlockSet => s.kernel.isLocked ≠ s.kernel.isUnlocked
      | .unlockClear => x = .lock ∨ s.kernel.isUnlocked = false
      | _ => True
    | _ => True
  | .sched c =>
    match s.pc c with
    | .ret p .lock =>
      (s.kernel.ticks = 100 → s.kernel.isUnlocked = true ∨
        s.kernel.isLocked = true ∧ s.call p ≠ .unlockClear) ∧
      (isThere s.kernel .zero p = .ok true → (s.kernel.queue .zero).count ≠ 0)
    | _ => True
  | _ => True

instance (s : State 1) (e : Event 1) : Decidable (Orderly s e) := by
  unfold Orderly
  rcases e with ⟨⟩ <;> dsimp only <;> (repeat' split) <;> infer_instance

/-! ## The invariant -/

/-- Where the CPU can be while the lock of `p` is in force. -/
def Pc.Only (p : Slot) : Pc → Prop
  | .top | .boost | .mlfq => True
  | .lockTest q | .run q _ | .held q _ | .ret q _ => q = p
  | .l2 _ _ => False

/-- `p` runs, or wants to. -/
def Ready (s : State 1) (p : Slot) : Prop :=
  match s.pc 0 with
  | .run _ _ => True
  | .held _ _ => False
  | _ => (s.kernel.proc p).state = .runnable

structure Owned (s : State 1) (p : Slot) : Prop where
  me : s.kernel.me = some p
  only : (s.pc 0).Only p
  front : s.pc 0 = .mlfq → (s.kernel.queue .zero).count ≠ 0 ∧ (s.kernel.queue .zero).front = some p

/-- `p` runs in the loop of the lock, or comes back there. -/
def InLock (s : State 1) (p : Slot) : Prop :=
  s.pc 0 = .run p .lock ∨ s.pc 0 = .held p .lock ∨ s.pc 0 = .ret p .lock

theorem InLock.self (h : InLock s p) {x : Kont} (hpc : s.pc 0 = .run r x ∨ s.pc 0 = .held r x) :
    r = p ∧ x = .lock := by
  rcases h with h | h | h <;> rcases hpc with hpc | hpc <;> rw [hpc] at h <;> cases h <;> exact ⟨rfl, rfl⟩

/-- The invariant, by phase. -/
def LawfulAs (s : State 1) : Phase → Prop
  | .free => True
  | .held p => Owned s p
  | .unlocking p | .released p => Owned s p ∧ Ready s p
  | .unlocked p | .relocked p => InLock s p
  | .lost => False

def Lawful (s : State 1) : Prop := LawfulAs s s.phase

/-- The flags and the owner of the lock are the same. -/
structure SameLock (k k' : Kernel) : Prop where
  locked : k'.isLocked = k.isLocked
  unlocked : k'.isUnlocked = k.isUnlocked
  me : k'.me = k.me

theorem SameLock.refl (k : Kernel) : SameLock k k := ⟨rfl, rfl, rfl⟩

theorem SameLock.trans (h : SameLock k k') (h' : SameLock k' k'') : SameLock k k'' :=
  ⟨h'.locked.trans h.locked, h'.unlocked.trans h.unlocked, h'.me.trans h.me⟩

theorem SameLock.of_globals (h : k'.globals = k.globals) : SameLock k k' :=
  ⟨(globals_flags h).1, (globals_flags h).2, globals_me h⟩

theorem SameLock.of_core (h : k'.core = k.core) : SameLock k k' := .of_globals (core_globals h)

theorem SameLock.upd (k : Kernel) (p : Slot) (f : Proc → Proc) : SameLock k (k.upd p f) := ⟨rfl, rfl, rfl⟩

/-- The phase depends on the flags, the owner and its call only. -/
theorem phase_congr (h : SameLock s.kernel s'.kernel)
    (hcall : ∀ p, s.kernel.me = some p → (s'.call p = .unlockClear ↔ s.call p = .unlockClear)) :
    s'.phase = s.phase := by
  unfold State.phase
  rw [h.locked, h.unlocked, h.me]
  cases hme : s.kernel.me with
  | none => cases s.kernel.isLocked <;> cases s.kernel.isUnlocked <;> rfl
  | some p =>
    have hiff := hcall p hme
    cases s.kernel.isLocked <;> cases s.kernel.isUnlocked <;> simp only [hiff]

theorem ite_eq_iff_left (A B : Slot → Phase) (hA : ∀ {x y}, A x = A y ↔ x = y) (hB : ∀ {x y}, B x ≠ A y)
    (C : Slot → Prop) [DecidablePred C] : (if C q then A q else B q) = A p ↔ q = p ∧ C p := by
  by_cases hq : C q
  · rw [if_pos hq, hA]
    exact ⟨fun h => ⟨h, h ▸ hq⟩, fun h => h.1⟩
  · rw [if_neg hq]
    refine ⟨fun h => absurd h hB, ?_⟩
    rintro ⟨rfl, h⟩
    exact absurd h hq

theorem phase_free : s.phase = .free ↔ s.kernel.isLocked = false ∧ s.kernel.isUnlocked = false := by
  unfold State.phase
  cases s.kernel.isLocked <;> cases s.kernel.isUnlocked <;> cases s.kernel.me <;> simp
  · split <;> simp
  · split <;> simp

theorem phase_held : s.phase = .held p ↔ s.kernel.isLocked = true ∧ s.kernel.isUnlocked = false ∧
    s.kernel.me = some p ∧ s.call p ≠ .unlockClear := by
  unfold State.phase
  cases s.kernel.isLocked <;> cases s.kernel.isUnlocked <;> cases s.kernel.me <;> simp
  · rw [← ite_not]
    exact ite_eq_iff_left .held .released (by simp) (by simp) fun q => s.call q ≠ .unlockClear
  · split <;> simp

theorem phase_released : s.phase = .released p ↔ s.kernel.isLocked = true ∧ s.kernel.isUnlocked = false ∧
    s.kernel.me = some p ∧ s.call p = .unlockClear := by
  unfold State.phase
  cases s.kernel.isLocked <;> cases s.kernel.isUnlocked <;> cases s.kernel.me <;> simp
  · exact ite_eq_iff_left .released .held (by simp) (by simp) fun q => s.call q = .unlockClear
  · split <;> simp

theorem phase_unlocking : s.phase = .unlocking p ↔ s.kernel.isLocked = true ∧ s.kernel.isUnlocked = true ∧
    s.kernel.me = some p ∧ s.call p = .unlockClear := by
  unfold State.phase
  cases s.kernel.isLocked <;> cases s.kernel.isUnlocked <;> cases s.kernel.me <;> simp
  · split <;> simp
  · exact ite_eq_iff_left .unlocking .relocked (by simp) (by simp) fun q => s.call q = .unlockClear

theorem phase_relocked : s.phase = .relocked p ↔ s.kernel.isLocked = true ∧ s.kernel.isUnlocked = true ∧
    s.kernel.me = some p ∧ s.call p ≠ .unlockClear := by
  unfold State.phase
  cases s.kernel.isLocked <;> cases s.kernel.isUnlocked <;> cases s.kernel.me <;> simp
  · split <;> simp
  · rw [← ite_not]
    exact ite_eq_iff_left .relocked .unlocking (by simp) (by simp) fun q => s.call q ≠ .unlockClear

theorem phase_unlocked : s.phase = .unlocked p ↔ s.kernel.isLocked = false ∧ s.kernel.isUnlocked = true ∧
    s.kernel.me = some p := by
  unfold State.phase
  cases s.kernel.isLocked <;> cases s.kernel.isUnlocked <;> cases s.kernel.me <;> simp
  · split <;> simp
  · split <;> simp

/-! ## Steps within a phase -/

theorem force_flags (h : s.phase.Force p) : s.kernel.isLocked = true ∧ s.kernel.me = some p := by
  rcases h with h | h | h
  · exact ⟨(phase_held.1 h).1, (phase_held.1 h).2.2.1⟩
  · exact ⟨(phase_unlocking.1 h).1, (phase_unlocking.1 h).2.2.1⟩
  · exact ⟨(phase_released.1 h).1, (phase_released.1 h).2.2.1⟩

/-- The owner is within `schedulerUnlock` exactly when its lock is in force and being ended. -/
theorem force_call (h : s.phase.Force p) :
    s.call p = .unlockClear ↔ s.phase = .unlocking p ∨ s.phase = .released p := by
  rcases h with h | h | h
  · rw [h]
    simp [(phase_held.1 h).2.2.2]
  · rw [h]
    simp [(phase_unlocking.1 h).2.2.2]
  · rw [h]
    simp [(phase_released.1 h).2.2.2]

theorem Lawful.owned (h : Lawful s) (hf : s.phase.Force p) : Owned s p := by
  unfold Lawful at h
  rcases hf with hf | hf | hf
  · rw [hf] at h
    exact h
  · rw [hf] at h
    exact h.1
  · rw [hf] at h
    exact h.1

theorem Lawful.inLock (h : Lawful s) (hp : s.phase.Ending p) : InLock s p := by
  unfold Lawful at h
  rcases hp with hp | hp
  · rw [hp] at h
    exact h
  · rw [hp] at h
    exact h

theorem Lawful.ready (h : Lawful s) (hf : s.phase.Force p) (hc : s.call p = .unlockClear) : Ready s p := by
  unfold Lawful at h
  rcases (force_call hf).1 hc with hp | hp
  · rw [hp] at h
    exact h.2
  · rw [hp] at h
    exact h.2

/-- Nobody owns the lock, its owner is in force, or the release is to come. -/
theorem Lawful.which (h : Lawful s) :
    s.phase = .free ∨ (∃ p, s.phase.Force p) ∨ ∃ p, s.phase.Ending p := by
  unfold Lawful at h
  cases hph : s.phase with
  | free => exact .inl rfl
  | held p => exact .inr (.inl ⟨p, .inl rfl⟩)
  | unlocking p => exact .inr (.inl ⟨p, .inr (.inl rfl)⟩)
  | released p => exact .inr (.inl ⟨p, .inr (.inr rfl)⟩)
  | unlocked p => exact .inr (.inr ⟨p, .inl rfl⟩)
  | relocked p => exact .inr (.inr ⟨p, .inr rfl⟩)
  | lost =>
    rw [hph] at h
    exact h.elim

/-- The new state is lawful, in the phase `x`. -/
def Lawfully (s : State 1) (x : Phase) : Prop := s.phase = x ∧ Lawful s

theorem Lawfully.intro {x : Phase} (hx : s.phase = x) (h : LawfulAs s x) : Lawfully s x := by
  refine ⟨hx, ?_⟩
  unfold Lawful
  rwa [hx]

/-- **A step within a phase**: what the phase asks for carries over. -/
theorem Lawful.keep (h : Lawful s) (hphase : s'.phase = s.phase)
    (hown : ∀ p, s.phase.Force p → Owned s p → Owned s' p)
    (hready : ∀ p, s.phase.Force p → s.call p = .unlockClear → Ready s p → Ready s' p)
    (hin : ∀ p, s.phase.Ending p → InLock s p → InLock s' p) : Lawfully s' s.phase := by
  refine .intro hphase ?_
  cases hph : s.phase with
  | free => trivial
  | held p => exact hown p (.inl hph) (h.owned (.inl hph))
  | unlocking p =>
    have hf : s.phase.Force p := .inr (.inl hph)
    have hc := (force_call hf).2 (.inl hph)
    exact ⟨hown p hf (h.owned hf), hready p hf hc (h.ready hf hc)⟩
  | released p =>
    have hf : s.phase.Force p := .inr (.inr hph)
    have hc := (force_call hf).2 (.inr hph)
    exact ⟨hown p hf (h.owned hf), hready p hf hc (h.ready hf hc)⟩
  | unlocked p => exact hin p (.inl hph) (h.inLock (.inl hph))
  | relocked p => exact hin p (.inr hph) (h.inLock (.inr hph))
  | lost =>
    unfold Lawful at h
    rw [hph] at h
    exact h

theorem Owned.self (h : Owned s p) {x : Kont} (hpc : s.pc 0 = .run r x ∨ s.pc 0 = .held r x) : r = p := by
  have := h.only
  rcases hpc with hpc | hpc
  · rw [hpc] at this
    exact this
  · rw [hpc] at this
    exact this

/-- The owner is the process that runs. -/
theorem Lawful.self (h : Lawful s) {x : Kont} (hpc : s.pc 0 = .run r x ∨ s.pc 0 = .held r x)
    (hp : s.phase.Force p ∨ s.phase.Ending p) : r = p := by
  rcases hp with hp | hp
  · exact (h.owned hp).self hpc
  · exact ((h.inLock hp).self hpc).1

/-- **A step by which the running process neither begins nor ends its lock**, outside `schedulerUnlock`. -/
theorem Lawful.running (h : Lawful s) {x : Kont} (hpc : s.pc 0 = .run r x ∨ s.pc 0 = .held r x)
    (hpc' : s'.pc 0 = .run r x ∨ s'.pc 0 = .ret r x) (hl : s'.kernel.isLocked = s.kernel.isLocked)
    (hu : s'.kernel.isUnlocked = s.kernel.isUnlocked)
    (hme : s'.kernel.me = s.kernel.me ∨ s'.kernel.me = some r)
    (hr : s.call r ≠ .unlockClear) (hr' : s'.call r ≠ .unlockClear) : Lawfully s' s.phase := by
  have hme' : s.kernel.me = some r → s'.kernel.me = some r := fun h => hme.elim (fun h' => h'.trans h) id
  have honly : (s'.pc 0).Only r ∧ s'.pc 0 ≠ .mlfq := by
    rcases hpc' with hpc' | hpc'
    · rw [hpc']
      exact ⟨rfl, by simp⟩
    · rw [hpc']
      exact ⟨rfl, by simp⟩
  have hphase : s'.phase = s.phase := by
    rcases h.which with hp | ⟨p, hp⟩ | ⟨p, hp⟩
    · obtain ⟨h1, h2⟩ := phase_free.1 hp
      rw [hp]
      exact phase_free.2 ⟨hl.trans h1, hu.trans h2⟩
    · obtain rfl := h.self hpc (.inl hp)
      have hph : s.phase = .held r := hp.resolve_right fun hx => hr ((force_call hp).2 hx)
      obtain ⟨h1, h2, h3, -⟩ := phase_held.1 hph
      rw [hph]
      exact phase_held.2 ⟨hl.trans h1, hu.trans h2, hme' h3, hr'⟩
    · obtain rfl := h.self hpc (.inr hp)
      rcases hp with hp | hp
      · obtain ⟨h1, h2, h3⟩ := phase_unlocked.1 hp
        rw [hp]
        exact phase_unlocked.2 ⟨hl.trans h1, hu.trans h2, hme' h3⟩
      · obtain ⟨h1, h2, h3, -⟩ := phase_relocked.1 hp
        rw [hp]
        exact phase_relocked.2 ⟨hl.trans h1, hu.trans h2, hme' h3, hr'⟩
  refine h.keep hphase (fun p hp ho => ?_) (fun p hp hc _ => ?_) fun p hp hin => ?_
  · obtain rfl := ho.self hpc
    exact ⟨hme' ho.me, honly.1, fun hm => absurd hm honly.2⟩
  · obtain rfl := h.self hpc (.inl hp)
    exact absurd hc hr
  · obtain ⟨rfl, rfl⟩ := hin.self hpc
    exact hpc'.elim .inl fun h => .inr (.inr h)

/-- **The time slice of the running process ends.** -/
theorem Lawful.yield (h : Lawful s) {x : Kont} (hpc : s.pc 0 = .run r x) (hpc' : s'.pc 0 = .ret r x)
    (hlock : SameLock s.kernel s'.kernel) (hcall : s'.call = s.call)
    (hst : (s'.kernel.proc r).state = .runnable) : Lawfully s' s.phase := by
  refine h.keep (phase_congr hlock fun p _ => by rw [hcall]) (fun p hp ho => ?_) (fun p hp _ _ => ?_)
    fun p hp hin => ?_
  · obtain rfl := ho.self (.inl hpc)
    refine ⟨hlock.me.trans ho.me, by rw [hpc']; rfl, fun hm => ?_⟩
    rw [hpc'] at hm
    cases hm
  · obtain rfl := h.self (.inl hpc) (.inl hp)
    unfold Ready
    rw [hpc']
    exact hst
  · obtain ⟨rfl, rfl⟩ := hin.self (.inl hpc)
    exact .inr (.inr hpc')

/-- **A step in which nobody but an interrupt does anything.** -/
theorem Lawful.quiet (h : Lawful s) (hlock : SameLock s.kernel s'.kernel) (hcall : s'.call = s.call)
    (hpc : s'.pc 0 = s.pc 0) (hqueue : s.pc 0 = .mlfq → s'.kernel.queue = s.kernel.queue)
    (hrun : ∀ x, (s.kernel.proc x).state = .runnable → (s'.kernel.proc x).state = .runnable) :
    Lawfully s' s.phase := by
  refine h.keep (phase_congr hlock fun p _ => by rw [hcall]) (fun p hp ho => ?_) (fun p _ _ hp => ?_)
    fun p _ hin => ?_
  · refine ⟨hlock.me.trans ho.me, by rw [hpc]; exact ho.only, fun hm => ?_⟩
    rw [hpc] at hm
    rw [hqueue hm]
    exact ho.front hm
  · unfold Ready at hp ⊢
    rw [hpc]
    split
    · trivial
    · rename_i hheld
      rw [hheld] at hp
      exact hp
    · rename_i h1 h2
      split at hp
      · rename_i h3
        exact absurd h3 (h1 _ _)
      · exact hp.elim
      · exact hrun p hp
  · unfold InLock
    rw [hpc]
    exact hin

/-- **A step of `scheduler`** that leaves the lock alone and turns to nobody but the owner. -/
theorem Lawful.moves (h : Lawful s) (hno : ∀ p, ¬ s.phase.Ending p) (hlock : SameLock s.kernel s'.kernel)
    (hcall : s'.call = s.call) (hpc : ∀ p, s.phase.Force p → (s'.pc 0).Only p ∧ s'.pc 0 ≠ .mlfq)
    (hready : ∀ p, s.phase.Force p → s.call p = .unlockClear → Ready s p → Ready s' p) :
    Lawfully s' s.phase :=
  h.keep (phase_congr hlock fun p _ => by rw [hcall])
    (fun p hp ho => ⟨hlock.me.trans ho.me, (hpc p hp).1, fun hm => absurd hm (hpc p hp).2⟩) hready
    fun p hp => absurd hp (hno p)

/-! ## The flags -/

theorem setCall_self (s : State 1) (r : Slot) (y : Call) : (s.setCall r y).call r = y :=
  Function.update_self ..

/-- **`isLocked = 1`.** -/
theorem Lawful.lockSet (h : Lawful s) {x : Kont} (hpc : s.pc 0 = .run r x) (hcall : s.call r = .lockSet)
    (hme : s.kernel.me = some r) (hk : k = { s.kernel with isLocked := true }) :
    ∃ y, Proto s.phase (.lock r) y ∧ Lawfully ({ s with kernel := k }.setCall r .lockTicks) y := by
  subst hk
  have hself := setCall_self { s with kernel := { s.kernel with isLocked := true } } r .lockTicks
  have hclear : ({ s with kernel := { s.kernel with isLocked := true } }.setCall r .lockTicks).call r ≠
      .unlockClear := by
    rw [hself]
    simp
  have hheld : s.kernel.isUnlocked = false →
      Lawfully ({ s with kernel := { s.kernel with isLocked := true } }.setCall r .lockTicks) (.held r) := by
    intro hu
    refine .intro (phase_held.2 ⟨rfl, hu, hme, hclear⟩) ⟨hme, ?_, fun hm => ?_⟩
    · show (s.pc 0).Only r
      rw [hpc]
      rfl
    · have hm' : s.pc 0 = .mlfq := hm
      rw [hpc] at hm'
      cases hm'
  rcases h.which with hp | ⟨p, hp⟩ | ⟨p, hp⟩
  · rw [hp]
    exact ⟨_, .lock r, hheld (phase_free.1 hp).2⟩
  · obtain rfl := h.self (.inl hpc) (.inl hp)
    have hph : s.phase = .held r := by
      refine hp.resolve_right fun hx => ?_
      rw [(force_call hp).2 hx] at hcall
      cases hcall
    rw [hph]
    exact ⟨_, .relock r, hheld (phase_held.1 hph).2.1⟩
  · obtain rfl := h.self (.inl hpc) (.inr hp)
    have hin := h.inLock hp
    rcases hp with hp | hp
    · rw [hp]
      exact ⟨_, .lockAgain r, .intro (phase_relocked.2 ⟨rfl, (phase_unlocked.1 hp).2.1, hme, hclear⟩) hin⟩
    · rw [hp]
      exact ⟨_, .relockAgain r, .intro (phase_relocked.2 ⟨rfl, (phase_relocked.1 hp).2.1, hme, hclear⟩) hin⟩

/-- **`isUnlocked = 1`.** -/
theorem Lawful.unlockSet (h : Lawful s) {x : Kont} (hpc : s.pc 0 = .run r x) (hcall : s.call r = .unlockSet)
    (hf : s.kernel.isLocked ≠ s.kernel.isUnlocked) (hk : k = { s.kernel with isUnlocked := true }) :
    ∃ y, Proto s.phase (.unlock r) y ∧ Lawfully ({ s with kernel := k }.setCall r .unlockClear) y := by
  subst hk
  have hself := setCall_self { s with kernel := { s.kernel with isUnlocked := true } } r .unlockClear
  rcases h.which with hp | ⟨p, hp⟩ | ⟨p, hp⟩
  · obtain ⟨h1, h2⟩ := phase_free.1 hp
    exact absurd (h1.trans h2.symm) hf
  · obtain rfl := h.self (.inl hpc) (.inl hp)
    have hph : s.phase = .held r := by
      refine hp.resolve_right fun hx => ?_
      rw [(force_call hp).2 hx] at hcall
      cases hcall
    obtain ⟨h1, -, h3, -⟩ := phase_held.1 hph
    have ho := h.owned hp
    rw [hph]
    refine ⟨_, .unlock r, .intro (phase_unlocking.2 ⟨h1, rfl, h3, hself⟩) ⟨⟨h3, ho.only, ho.front⟩, ?_⟩⟩
    unfold Ready
    show match s.pc 0 with
      | .run _ _ => True
      | .held _ _ => False
      | _ => _
    rw [hpc]
    trivial
  · obtain rfl := h.self (.inl hpc) (.inr hp)
    have hin := h.inLock hp
    rcases hp with hp | hp
    · obtain ⟨h1, -, h3⟩ := phase_unlocked.1 hp
      rw [hp]
      exact ⟨_, .unlockAgain r, .intro (phase_unlocked.2 ⟨h1, rfl, h3⟩) hin⟩
    · obtain ⟨h1, h2, -⟩ := phase_relocked.1 hp
      exact absurd (h1.trans h2.symm) hf

/-- **`isLocked = 0`.** -/
theorem Lawful.unlockClear (h : Lawful s) {x : Kont} (hpc : s.pc 0 = .run r x)
    (hcall : s.call r = .unlockClear) (hx : x = .lock ∨ s.kernel.isUnlocked = false)
    (hk : k = { s.kernel with isLocked := false }) :
    ∃ y, Proto s.phase (.clear r) y ∧ Lawfully ({ s with kernel := k }.setCall r .none) y := by
  subst hk
  rcases h.which with hp | ⟨p, hp⟩ | ⟨p, hp⟩
  · rw [hp]
    exact ⟨_, .clearFree r, .intro (phase_free.2 ⟨rfl, (phase_free.1 hp).2⟩) trivial⟩
  · obtain rfl := h.self (.inl hpc) (.inl hp)
    rcases (force_call hp).1 hcall with hph | hph
    · obtain ⟨-, h2, h3, -⟩ := phase_unlocking.1 hph
      rw [h2] at hx
      obtain rfl := hx.resolve_right (by simp)
      rw [hph]
      exact ⟨_, .clear r, .intro (phase_unlocked.2 ⟨rfl, h2, h3⟩) (.inl hpc)⟩
    · rw [hph]
      exact ⟨_, .clearReleased r, .intro (phase_free.2 ⟨rfl, (phase_released.1 hph).2.1⟩) trivial⟩
  · obtain rfl := h.self (.inl hpc) (.inr hp)
    have hin := h.inLock hp
    rcases hp with hp | hp
    · obtain ⟨-, h2, h3⟩ := phase_unlocked.1 hp
      rw [hp]
      exact ⟨_, .clearAgain r, .intro (phase_unlocked.2 ⟨rfl, h2, h3⟩) hin⟩
    · exact absurd hcall (phase_relocked.1 hp).2.2.2

end Xv6.Mlfq
