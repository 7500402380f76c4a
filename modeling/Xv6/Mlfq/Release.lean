import Xv6.Mlfq.Protocol

/-!
# The scheduler under the scheduler lock

* `First`, `releaseLock_first`: what the release does to the owner of the lock.
* `ret_protocol`: the loop of the lock, when its owner comes back.
* **`sched_protocol`**: every orderly step of `scheduler` keeps to the protocol.
-/

namespace Xv6.Mlfq

variable {s s' : State 1} {k k' k'' : Kernel} {p q r : Slot} {que : Lv}

/-! ## The release -/

theorem isThereLoop_congr (hn : k'.next = k.next) {fuel : ℕ} {a : Option Slot} :
    isThereLoop k' p fuel a = isThereLoop k p fuel a := by
  induction fuel generalizing a with
  | zero => cases a <;> rfl
  | succ fuel ih =>
    cases a with
    | none => rfl
    | some q =>
      simp only [isThereLoop]
      have hq : (k'.proc q).next = (k.proc q).next := congrFun hn q
      rw [hq, ih]

/-- `q` is at the front of L0 with a fresh quantum, and L0 knows that it is not empty. -/
structure First (k : Kernel) (q : Slot) : Prop where
  front : (k.queue .zero).front = some q
  count : (k.queue .zero).count ≠ 0
  lt : (k.proc q).lt = 0

/-- A change of the queues, the priorities and the quanta, after which `q` is still first. -/
structure Keeps (q : Slot) (k k' : Kernel) : Prop extends SameLock k k' where
  first : First k q → First k' q

theorem Keeps.trans (h : Keeps q k k') (h' : Keeps q k' k'') : Keeps q k k'' :=
  ⟨h.toSameLock.trans h'.toSameLock, fun hf => h'.first (h.first hf)⟩

theorem Keeps.refl (q : Slot) (k : Kernel) : Keeps q k k := ⟨.refl k, id⟩

theorem delLoop_queue {fuel : ℕ} {a : Option Slot} (h : delLoop k que p fuel a = .ok k') {v : Lv} (hv : v ≠ que) :
    k'.queue v = k.queue v := by
  induction fuel generalizing a with
  | zero =>
    cases a with
    | none =>
      cases h
      rfl
    | some x => cases h
  | succ fuel ih =>
    cases a with
    | none =>
      cases h
      rfl
    | some x =>
      simp only [delLoop] at h
      split at h
      · cases h
        exact Function.update_of_ne hv ..
      · split at h
        · cases h
          exact Function.update_of_ne hv ..
        · split at h
          · cases h
            exact Function.update_of_ne hv ..
          · exact ih h

theorem del_keeps (h : del k que p = .ok k') (hque : que ≠ .zero) : Keeps q k k' := by
  have hcore := del_core h
  have hzero : k'.queue .zero = k.queue .zero := by
    unfold del at h
    split at h
    · cases h
    · exact delLoop_queue h (Ne.symm hque)
  refine ⟨.of_core hcore, fun hf => ⟨?_, ?_, ?_⟩⟩
  · rw [hzero]
    exact hf.front
  · rw [hzero]
    exact hf.count
  · exact (core_lt hcore q).trans hf.lt

/-- `push` appends, unless the queue is empty. -/
theorem push_front (h : push k que p = .ok k') (hc : (k.queue que).count ≠ 0) :
    (k'.queue que).front = (k.queue que).front ∧ (k'.queue que).count ≠ 0 := by
  unfold push at h
  dsimp only at h
  rw [if_neg hc] at h
  split at h
  · cases h
  · cases h
    rw [setQueue_queue, Function.update_self]
    exact ⟨rfl, Nat.succ_ne_zero _⟩

theorem pushLzero_keeps (h : pushLzero k p = .ok k') : Keeps q k k' := by
  have hcore := push_core h
  refine ⟨.trans (.upd k p fun x => { x with lt := 0, ql := 0, pr := 3, next := none }) (.of_core hcore),
    fun hf => ?_⟩
  obtain ⟨hfront, hcount⟩ := push_front h hf.count
  refine ⟨hfront.trans hf.front, hcount, (core_lt hcore q).trans ?_⟩
  rw [upd_proc]
  split
  · rfl
  · exact hf.lt

theorem boostLoop_keeps {fuel : ℕ} {a : Option Slot} (hque : que ≠ .zero)
    (h : boostLoop que fuel k a = .ok k') : Keeps q k k' := by
  induction fuel generalizing k a with
  | zero =>
    cases a with
    | none =>
      cases h
      exact .refl q _
    | some p => cases h
  | succ fuel ih =>
    cases a with
    | none =>
      cases h
      exact .refl q _
    | some p =>
      simp only [boostLoop, bind_ok] at h
      obtain ⟨k₁, h1, k₂, h2, h3⟩ := h
      exact (del_keeps h1 hque).trans ((pushLzero_keeps h2).trans (ih h3))

theorem boostPr_keeps (h : boostPr k = .ok k') : Keeps q k k' := by
  simp only [boostPr, bind_ok] at h
  obtain ⟨k₁, h1, k₂, h2, h3⟩ := h
  cases h3
  have hk : Keeps q k k₂ := (boostLoop_keeps (by simp) h1).trans (boostLoop_keeps (by simp) h2)
  exact ⟨⟨hk.locked, hk.unlocked, hk.me⟩, fun hf => ⟨(hk.first hf).front, (hk.first hf).count, (hk.first hf).lt⟩⟩

/-- **What the release does to the owner and the flags.** -/
theorem releaseLock_first (h : releaseLock k q = .ok k')
    (hc : isThere k .zero q = .ok true → (k.queue .zero).count ≠ 0) :
    First k' q ∧ k'.isUnlocked = false ∧ k'.isLocked = (k.isUnlocked && k.isLocked) ∧ k'.me = k.me := by
  simp only [releaseLock, bind_ok] at h
  obtain ⟨there, hthere, h⟩ := h
  have hcore := linkFront_core k q there
  have hlock : SameLock k (linkFront k q there) := .of_core hcore
  have hzero : (linkFront k q there).queue .zero = { k.queue .zero with
      front := some q
      count := if there then (k.queue .zero).count else (k.queue .zero).count + 1 } := by
    unfold linkFront
    simp only [setNext_queue, setQueue_queue, Function.update_self]
  have hcount : ((linkFront k q there).queue .zero).count ≠ 0 := by
    rw [hzero]
    cases there with
    | false => exact Nat.succ_ne_zero _
    | true => exact hc hthere
  have hfront : ((linkFront k q there).queue .zero).front = some q := by rw [hzero]
  have hlt : ∀ f : Proc → Proc, (∀ x, (f x).lt = 0) → (((linkFront k q there).upd q f).proc q).lt = 0 := by
    intro f hf
    rw [upd_proc_self]
    exact hf _
  cases hu : k.isUnlocked with
  | true =>
    simp only [hlock.unlocked, hu, if_true] at h
    cases h
    exact ⟨⟨hfront, hcount, hlt (fun x => { x with pr := 3, lt := 0 }) fun _ => rfl⟩, rfl, hlock.locked, hlock.me⟩
  | false =>
    simp only [hlock.unlocked, hu, Bool.false_eq_true, if_false] at h
    have hk : Keeps q _ k' := boostPr_keeps h
    exact ⟨hk.first ⟨hfront, hcount, hlt (fun x => { x with lt := 0 }) fun _ => rfl⟩, hk.unlocked, hk.locked,
      hk.me.trans hlock.me⟩

/-! ## Steps of the scheduler -/

/-- A step of `scheduler` that touches the lock, or what the others leave alone. -/
theorem sched_same (hs : SchedStep s 0 s') :
    (∃ q, s.pc 0 = .lockTest q ∧ (s.kernel.proc q).state ≠ .runnable ∧
      s' = { s with kernel := { s.kernel with isLocked := false, me := none } }.goto 0 .mlfq) ∨
    (∃ q k', s.pc 0 = .ret q .lock ∧ (s.kernel.ticks = 100 ∨ s.kernel.isUnlocked = true) ∧
      releaseLock (s.kernel.upd q fun x => { x with lt := x.lt + 1 }) q = .ok k' ∧
      s' = { s with kernel := k' }.goto 0 .mlfq) ∨
    SameLock s.kernel s'.kernel ∧ s'.call = s.call ∧
      ∀ p, s.call p ≠ .wait → ((s'.pc 0).proc = none ∨ (s'.pc 0).proc = some p) →
        (s.kernel.proc p).state = .runnable → Ready s' p := by
  have hwoke : ∀ {k' : Kernel} {pc : Pc}, Woke s.kernel k' → (∀ p x, pc ≠ .held p x) →
      ∀ p, (s.kernel.proc p).state = .runnable → Ready ({ s with kernel := k' }.goto 0 pc) p := by
    intro k' pc hw hpc p hp
    have hp' : (k'.proc p).state = .runnable := by
      rcases hw.state p with h1 | ⟨h1, -⟩
      · exact h1.trans hp
      · rw [hp] at h1
        cases h1
    unfold Ready
    rw [goto_pc]
    split
    · trivial
    · rename_i q x
      exact hpc q x rfl
    · exact hp'
  have hdispatch : ∀ {q x} p, s.call p ≠ .wait →
      (((s.dispatch 0 q x).pc 0).proc = none ∨ ((s.dispatch 0 q x).pc 0).proc = some p) →
      Ready (s.dispatch 0 q x) p := by
    intro q x p hp hproc
    unfold Ready
    unfold State.dispatch at hproc ⊢
    rw [goto_pc] at hproc ⊢
    split at hproc
    · rename_i hq
      rcases hproc with hproc | hproc
      · cases hproc
      · cases hproc
        exact absurd hq hp
    · rename_i hq
      rw [if_neg hq]
      trivial
  cases hs with
  | acquire pc hpc hfree hto _ =>
    exact .inr (.inr ⟨.refl _, rfl, fun p _ _ hp => hwoke (.refl _) (fun q x h => by subst h; exact hto) p hp⟩)
  | go pc hpc hto _ _ =>
    exact .inr (.inr ⟨.refl _, rfl, fun p _ _ hp => hwoke (.refl _) (fun q x h => by subst h; exact hto) p hp⟩)
  | forget q hpc hst => exact .inl ⟨q, hpc, hst, rfl⟩
  | lock q _ _ _ => exact .inr (.inr ⟨⟨rfl, rfl, rfl⟩, rfl, fun p hw hproc _ => hdispatch p hw hproc⟩)
  | drop que p k' _ _ hdel =>
    exact .inr (.inr ⟨.of_core (del_core hdel), rfl, fun p _ _ hp => hwoke (del_woke hdel) (by simp) p hp⟩)
  | slice que x q _ _ _ _ => exact .inr (.inr ⟨⟨rfl, rfl, rfl⟩, rfl, fun p hw hproc _ => hdispatch p hw hproc⟩)
  | dropL2 min p k' _ _ hdel =>
    exact .inr (.inr ⟨.of_core (del_core hdel), rfl, fun p _ _ hp => hwoke (del_woke hdel) (by simp) p hp⟩)
  | sliceL2 min q _ _ => exact .inr (.inr ⟨⟨rfl, rfl, rfl⟩, rfl, fun p hw hproc _ => hdispatch p hw hproc⟩)
  | boost k' _ hk =>
    rcases hk with rfl | hk
    · exact .inr (.inr ⟨.refl _, rfl, fun p _ _ hp => hwoke (.refl _) (by simp) p hp⟩)
    · have hkeep : Keeps 0 s.kernel k' := boostPr_keeps hk
      exact .inr (.inr ⟨hkeep.toSameLock, rfl, fun p _ _ hp => hwoke (boostPr_woke hk) (by simp) p hp⟩)
  | release p k' hpc hto hk => exact .inr (.inl ⟨p, k', hpc, hto, hk, rfl⟩)
  | again q _ =>
    have hw : Woke s.kernel (s.kernel.upd q fun x => { x with lt := x.lt + 1 }) :=
      .of_upd (fun _ => rfl) (fun _ => rfl) fun _ => rfl
    exact .inr (.inr ⟨⟨rfl, rfl, rfl⟩, rfl, fun p _ _ hp => hwoke hw (by simp) p hp⟩)
  | demote que down x p k' _ _ _ hd =>
    exact .inr (.inr ⟨.of_globals (demote_globals hd), rfl, fun p _ _ hp => hwoke (demote_woke hd) (by simp) p hp⟩)
  | promote q _ =>
    exact .inr (.inr ⟨.of_globals (promote_globals ..), rfl, fun p _ _ hp => hwoke (promote_woke _ q) (by simp) p hp⟩)

/-- While the lock of `p` is in force, `scheduler` turns to no other process, and it dispatches `p`. -/
theorem sched_only (ho : Owned s p) (hl : s.kernel.isLocked = true) (hret : ∀ q, s.pc 0 ≠ .ret q .lock)
    (htest : s.pc 0 = .lockTest p → (s.kernel.proc p).state = .runnable) (hs : s.sched 0 = some (.ok s')) :
    (s'.pc 0).Only p ∧ s'.pc 0 ≠ .mlfq ∧ ((s'.pc 0).proc = none ∨ (s'.pc 0).proc = some p) ∧
      ∀ q, s.kernel.picks (s.pc 0) = some q → q = p := by
  have hdispatch : ∀ x, ((s.dispatch 0 p x).pc 0).Only p ∧ (s.dispatch 0 p x).pc 0 ≠ .mlfq ∧
      (((s.dispatch 0 p x).pc 0).proc = none ∨ ((s.dispatch 0 p x).pc 0).proc = some p) := by
    intro x
    rcases dispatch_pc s p x with h | h
    · rw [h]
      exact ⟨rfl, by simp, .inr rfl⟩
    · rw [h]
      exact ⟨rfl, by simp, .inr rfl⟩
  have hafter : ∀ {r : Except Fault Kernel} {pc : Pc}, s.after 0 r pc = some (.ok s') →
      pc = .top ∨ pc = .boost → (s'.pc 0).Only p ∧ s'.pc 0 ≠ .mlfq ∧
        ((s'.pc 0).proc = none ∨ (s'.pc 0).proc = some p) := by
    intro r pc h hpc
    obtain ⟨k', -, rfl⟩ := after_ok h
    rw [goto_pc]
    rcases hpc with rfl | rfl
    · exact ⟨trivial, by simp, .inl rfl⟩
    · exact ⟨trivial, by simp, .inl rfl⟩
  have honly := ho.only
  have hfront := ho.front
  unfold State.sched at hs
  cases hpc : s.pc 0 with
  | top =>
    simp only [hpc, hl, if_true, ho.me] at hs
    split at hs
    · cases hs
      rw [goto_pc]
      exact ⟨rfl, by simp, .inl rfl, fun q hq => by cases hq⟩
    · cases hs
  | lockTest q =>
    rw [hpc] at honly
    obtain rfl : q = p := honly
    simp only [hpc, hl, if_true, htest hpc, ne_eq, not_true_eq_false, if_false] at hs
    cases hs
    obtain ⟨h1, h2, h3⟩ := hdispatch .lock
    exact ⟨h1, h2, h3, fun q hq => by cases hq⟩
  | mlfq =>
    obtain ⟨hcount, hf⟩ := hfront hpc
    have hpicks : ∀ q, s.kernel.picks .mlfq = some q → q = p := by
      intro q hq
      have hturn : s.kernel.turn = some .zero := if_pos hcount
      simp only [Kernel.picks, hturn, Option.bind_some, hf, Option.filter_eq_some_iff,
        Option.some.injEq] at hq
      exact hq.1.symm
    simp only [hpc, hcount, ne_eq, not_false_eq_true, if_true, State.front, hf] at hs
    split at hs
    · obtain ⟨h1, h2, h3⟩ := hafter hs (.inl rfl)
      exact ⟨h1, h2, h3, hpicks⟩
    · split at hs
      · cases hs
        obtain ⟨h1, h2, h3⟩ := hdispatch .l0
        exact ⟨h1, h2, h3, hpicks⟩
      · cases hs
        rw [goto_pc]
        exact ⟨trivial, by simp, .inl rfl, hpicks⟩
  | l2 min q =>
    rw [hpc] at honly
    exact honly.elim
  | boost =>
    simp only [hpc] at hs
    obtain ⟨h1, h2, h3⟩ := hafter hs (.inl rfl)
    exact ⟨h1, h2, h3, fun q hq => by cases hq⟩
  | run q x =>
    simp only [hpc] at hs
    cases hs
  | held q x =>
    simp only [hpc] at hs
    cases hs
  | ret q x =>
    simp only [hpc] at hs
    cases x with
    | lock => exact absurd hpc (hret q)
    | l0 =>
      obtain ⟨h1, h2, h3⟩ := hafter hs (.inr rfl)
      exact ⟨h1, h2, h3, fun q hq => by cases hq⟩
    | l1 =>
      obtain ⟨h1, h2, h3⟩ := hafter hs (.inr rfl)
      exact ⟨h1, h2, h3, fun q hq => by cases hq⟩
    | l2 =>
      obtain ⟨h1, h2, h3⟩ := hafter hs (.inr rfl)
      exact ⟨h1, h2, h3, fun q hq => by cases hq⟩

/-- What the action leaves: a release puts its owner first and clears the flags. -/
def Action.Done (k : Kernel) : Action → Prop
  | .release p => First k p ∧ k.isUnlocked = false
  | .timeout p => First k p ∧ k.isUnlocked = false ∧ k.isLocked = false
  | .drop _ => k.isLocked = false
  | _ => True

/-- The step keeps to the protocol. -/
def Obeys (s : State 1) (a : Action) (s' : State 1) : Prop :=
  Proto s.phase a s'.phase ∧ a.Done s'.kernel ∧ Lawful s'

theorem Obeys.of_lawfully {a : Action} {y : Phase} (hp : Proto s.phase a y) (ha : a.Done s'.kernel)
    (h : Lawfully s' y) : Obeys s a s' := ⟨h.1.symm ▸ hp, ha, h.2⟩

/-- Back in the loop of the lock: the release, or one more round. -/
theorem ret_protocol (h : Lawful s) (ho : Orderly s (.sched 0)) (hpc : s.pc 0 = .ret q .lock)
    (hs : s.sched 0 = some (.ok s')) : Obeys s (action s (.sched 0)) s' := by
  have hact : action s (.sched 0) = if s.kernel.isUnlocked then .release q
      else if s.kernel.ticks = 100 then .timeout q else .other := by
    simp only [action, hpc]
  unfold Orderly at ho
  simp only [hpc] at ho
  obtain ⟨h100, hcount⟩ := ho
  have howner : ∀ p, s.phase.Force p ∨ s.phase.Ending p → q = p := by
    rintro p (hp | hp)
    · have := (h.owned hp).only
      rw [hpc] at this
      exact this
    · rcases h.inLock hp with hin | hin | hin
      · rw [hpc] at hin
        cases hin
      · rw [hpc] at hin
        cases hin
      · rw [hpc] at hin
        cases hin
        rfl
  unfold State.sched at hs
  simp only [hpc] at hs
  by_cases hto : s.kernel.ticks = 100 ∨ s.kernel.isUnlocked = true
  · obtain ⟨k', hk, rfl⟩ := after_ok ((if_pos hto).symm.trans hs)
    set k := s.kernel.upd q fun x => { x with lt := x.lt + 1 } with hkdef
    have hthere : isThere k .zero q = isThere s.kernel .zero q :=
      isThereLoop_congr (upd_next (f := fun x => { x with lt := x.lt + 1 }) fun _ => rfl)
    obtain ⟨hfirst, hu, hl, hme⟩ := releaseLock_first hk fun ht => hcount (hthere ▸ ht)
    have hl' : k'.isLocked = (s.kernel.isUnlocked && s.kernel.isLocked) := hl
    have hme' : k'.me = s.kernel.me := hme
    set s' := { s with kernel := k' }.goto 0 .mlfq with hs'
    have hpc' : s'.pc 0 = .mlfq := goto_pc ..
    have howned : s.kernel.me = some q → Owned s' q := by
      intro hm
      refine ⟨hme'.trans hm, ?_, fun _ => ⟨hfirst.count, hfirst.front⟩⟩
      rw [hpc']
      trivial
    cases hun : s.kernel.isUnlocked with
    | true =>
      rw [hact, hun, if_pos rfl]
      rw [hun, Bool.true_and] at hl'
      rcases h.which with hp | ⟨p, hp⟩ | ⟨p, hp⟩
      · rw [(phase_free.1 hp).2] at hun
        cases hun
      · obtain rfl := howner p (.inl hp)
        have hph : s.phase = .unlocking q := by
          rcases hp with hp | hp | hp
          · rw [(phase_held.1 hp).2.1] at hun
            cases hun
          · exact hp
          · rw [(phase_released.1 hp).2.1] at hun
            cases hun
        obtain ⟨h1, -, h3, h4⟩ := phase_unlocking.1 hph
        refine .of_lawfully (hph ▸ .early q) ⟨hfirst, hu⟩
          (.intro (phase_released.2 ⟨hl'.trans h1, hu, hme'.trans h3, h4⟩) ⟨howned h3, ?_⟩)
        -- the owner was preempted, so it is still RUNNABLE
        have hst := h.ready hp h4
        unfold Ready at hst ⊢
        rw [hpc] at hst
        rw [hpc']
        rcases (releaseLock_woke hk).state q with hw | ⟨-, hw⟩
        · exact hw.trans ((congrArg Proc.state (upd_proc_self ..)).trans hst)
        · exact hw
      · obtain rfl := howner p (.inr hp)
        rcases hp with hp | hp
        · exact .of_lawfully (hp ▸ .release q) ⟨hfirst, hu⟩
            (.intro (phase_free.2 ⟨hl'.trans (phase_unlocked.1 hp).1, hu⟩) trivial)
        · obtain ⟨h1, -, h3, h4⟩ := phase_relocked.1 hp
          exact .of_lawfully (hp ▸ .releaseOld q) ⟨hfirst, hu⟩
            (.intro (phase_held.2 ⟨hl'.trans h1, hu, hme'.trans h3, h4⟩) (howned h3))
    | false =>
      have ht : s.kernel.ticks = 100 := hto.resolve_right (by rw [hun]; simp)
      rw [hact, hun, if_neg (by simp), if_pos ht]
      rw [hun, Bool.false_and] at hl'
      obtain ⟨hlk, hc⟩ := (h100 ht).resolve_left (by rw [hun]; simp)
      rcases h.which with hp | ⟨p, hp⟩ | ⟨p, hp⟩
      · rw [(phase_free.1 hp).1] at hlk
        cases hlk
      · obtain rfl := howner p (.inl hp)
        have hph : s.phase = .held q := hp.resolve_right fun hx => hc ((force_call hp).2 hx)
        exact .of_lawfully (hph ▸ .timeout q) ⟨hfirst, hu, hl'⟩ (.intro (phase_free.2 ⟨hl', hu⟩) trivial)
      · rcases hp with hp | hp
        · rw [(phase_unlocked.1 hp).2.1] at hun
          cases hun
        · rw [(phase_relocked.1 hp).2.1] at hun
          cases hun
  · obtain ⟨k', hk, rfl⟩ := after_ok ((if_neg hto).symm.trans hs)
    cases hk
    push Not at hto
    have hun : s.kernel.isUnlocked = false := by simpa using hto.2
    rw [hact, hun, if_neg (by simp), if_neg hto.1]
    refine .of_lawfully (.other _) trivial (h.moves (fun p hp => ?_) ⟨rfl, rfl, rfl⟩ rfl (fun p hp => ?_)
      fun p hp hc hst => ?_)
    · rcases hp with hp | hp
      · rw [(phase_unlocked.1 hp).2.1] at hun
        cases hun
      · rw [(phase_relocked.1 hp).2.1] at hun
        cases hun
    · obtain rfl := howner p (.inl hp)
      rw [goto_pc]
      exact ⟨rfl, by simp⟩
    · obtain rfl := howner p (.inl hp)
      unfold Ready at hst ⊢
      rw [hpc] at hst
      rw [goto_pc]
      have hst' : (s.kernel.proc q).state = .runnable := hst
      show ((s.kernel.upd q fun x => { x with lt := x.lt + 1 }).proc q).state = .runnable
      rw [upd_proc_self]
      exact hst'

/-- **Every step of `scheduler`.** -/
theorem sched_protocol (h : Lawful s) (ho : Orderly s (.sched 0)) (hs : s.sched 0 = some (.ok s')) :
    Obeys s (action s (.sched 0)) s' := by
  by_cases hret : ∃ q, s.pc 0 = .ret q .lock
  · obtain ⟨q, hq⟩ := hret
    exact ret_protocol h ho hq hs
  push Not at hret
  have hsame := sched_same (sched_cases hs)
  rcases h.which with hp | ⟨p, hp⟩ | ⟨p, hp⟩
  · -- nobody has the lock
    obtain ⟨hl, hu⟩ := phase_free.1 hp
    have hact : (∃ p, action s (.sched 0) = .dispatch p) ∨ action s (.sched 0) = .other := by
      unfold action
      dsimp only
      split
      · rw [hl]
        exact .inr rfl
      · rename_i q hq
        exact absurd hq (hret q)
      · split
        · exact .inl ⟨_, rfl⟩
        · exact .inr rfl
    have hfree : Lawfully s' .free := by
      rcases hsame with ⟨q, -, -, rfl⟩ | ⟨q, k', hq, -⟩ | ⟨hlock, -⟩
      · exact .intro (phase_free.2 ⟨rfl, hu⟩) trivial
      · exact absurd hq (hret q)
      · exact .intro (phase_free.2 ⟨hlock.locked.trans hl, hlock.unlocked.trans hu⟩) trivial
    rcases hact with ⟨p, hact⟩ | hact
    · rw [hact]
      exact .of_lawfully (hp ▸ .dispatch p) trivial hfree
    · rw [hact]
      exact .of_lawfully (hp ▸ .other _) trivial hfree
  · -- the lock of `p` is in force
    obtain ⟨hl, hme⟩ := force_flags hp
    have how := h.owned hp
    have hunique : ∀ x, s.phase.Force x → x = p := by
      intro x hx
      have hx' := (force_flags hx).2
      rw [hme] at hx'
      exact (Option.some.inj hx').symm
    by_cases hdrop : s.pc 0 = .lockTest p ∧ (s.kernel.proc p).state ≠ .runnable
    · obtain ⟨hpc, hst⟩ := hdrop
      have hact : action s (.sched 0) = .drop p := by
        simp only [action, hpc, hl, if_true, if_neg hst]
      have hph : s.phase = .held p := by
        refine hp.resolve_right fun hx => hst ?_
        have hready := h.ready hp ((force_call hp).2 hx)
        unfold Ready at hready
        rw [hpc] at hready
        exact hready
      unfold State.sched at hs
      simp only [hpc, hl, if_true, ne_eq, hst, not_false_eq_true] at hs
      obtain ⟨k', hk, rfl⟩ := after_ok hs
      cases hk
      rw [hact]
      exact .of_lawfully (hph ▸ .drop p) rfl (.intro (phase_free.2 ⟨rfl, (phase_held.1 hph).2.1⟩) trivial)
    · have htest : s.pc 0 = .lockTest p → (s.kernel.proc p).state = .runnable := by
        intro hpc
        by_contra hst
        exact hdrop ⟨hpc, hst⟩
      obtain ⟨honly, hne, hproc, hpicks⟩ := sched_only how hl hret htest hs
      have hact : action s (.sched 0) = .dispatch p ∨ action s (.sched 0) = .other := by
        unfold action
        dsimp only
        split
        · rename_i q hq
          have hqp := how.only
          rw [hq] at hqp
          obtain rfl : q = p := hqp
          rw [if_pos hl, if_pos (htest hq)]
          exact .inl rfl
        · rename_i q hq
          exact absurd hq (hret q)
        · split
          · rename_i x hx
            rw [hpicks x hx]
            exact .inl rfl
          · exact .inr rfl
      have hmoves : Lawfully s' s.phase := by
        rcases hsame with ⟨q, hq, hst, -⟩ | ⟨q, k', hq, -⟩ | ⟨hlock, hcall, hready⟩
        · have hqp := how.only
          rw [hq] at hqp
          obtain rfl : q = p := hqp
          exact absurd (htest hq) hst
        · exact absurd hq (hret q)
        · refine h.moves (fun x hx => ?_) hlock hcall (fun x hx => ?_) fun x hx hc hst => ?_
          · rcases hx with hx | hx
            · rw [(phase_unlocked.1 hx).1] at hl
              cases hl
            · have hin := h.inLock (.inr hx)
              rcases hin with hin | hin | hin
              · unfold State.sched at hs
                simp only [hin] at hs
                cases hs
              · unfold State.sched at hs
                simp only [hin] at hs
                cases hs
              · exact absurd hin (hret x)
          · obtain rfl := hunique x hx
            exact ⟨honly, hne⟩
          · obtain rfl := hunique x hx
            refine hready x (by rw [hc]; simp) hproc ?_
            unfold Ready at hst
            split at hst
            · rename_i hpc
              unfold State.sched at hs
              simp only [hpc] at hs
              cases hs
            · exact hst.elim
            · exact hst
      rcases hact with hact | hact
      · rw [hact]
        exact .of_lawfully (.owner p _ hp) trivial hmoves
      · rw [hact]
        exact .of_lawfully (.other _) trivial hmoves
  · -- the release is to come, so the CPU is in the loop of the lock
    unfold State.sched at hs
    rcases h.inLock hp with hin | hin | hin
    · simp only [hin] at hs
      cases hs
    · simp only [hin] at hs
      cases hs
    · exact absurd hin (hret p)

end Xv6.Mlfq
