import Xv6.Mlfq.Runnable

/-!
# No process blocks its queue

`scheduler` takes the front of L0 or L1 only while `tq > lt`, and moves it down only
when `tq == lt`. So a process with `lt` over the quantum stays at the front for good.

`quanta_left`: in a one-CPU run from `userinit` whose events break no queue, no process
on a queue has used up its quantum while no scheduler lock is in force, as long as the
owner of the scheduler lock has time left whenever it leaves the lock other than
through the release block (`Timely`); the front of L0 or L1 then runs or leaves, and a
pass over L2 runs a process if one wants to.

The loop of the scheduler lock counts ticks without demoting. `wrong_password_blocks`:
its owner gives a wrong password after five ticks, and is never scheduled again.
-/

namespace Xv6.Mlfq

variable {n : ℕ} {k k' : Kernel} {ls ls' : Lv → List Slot} {p : Slot}

instance : Fintype Lv := ⟨{.zero, .one, .two}, fun q => by cases q <;> decide⟩

/-- Every process on a queue has time left there. -/
def Prompt (k : Kernel) : Prop := ∀ que p, k.On que p → (k.proc p).lt < 2 * que.level + 4

/-- The process has used up its quantum and is still on the queue. -/
def Kernel.Spent (k : Kernel) (p : Slot) : Prop :=
  ∃ que, isThere k que p = .ok true ∧ (k.queue que).tq ≤ (k.proc p).lt

instance (k : Kernel) (p : Slot) : Decidable (k.Spent p) := by unfold Kernel.Spent; infer_instance

/-- Nobody leaves the scheduler lock with a used up quantum. -/
def Timely (s : State n) : Event n → Prop
  | .sched c => ∀ q, s.pc c = .lockTest q →
      s.kernel.isLocked = false ∨ (s.kernel.proc q).state ≠ .runnable → ¬ s.kernel.Spent q
  | .cont c => ∀ p, (s.pc c).proc = some p → s.call p = .lockFail ∨ s.call p = .unlockClear →
      s.kernel.isUnlocked = false → ¬ s.kernel.Spent p
  | _ => True

instance (s : State n) (e : Event n) : Decidable (Timely s e) := by
  unfold Timely; rcases e with ⟨⟩ <;> infer_instance

/-! ## The invariant -/

/-- The queue that a process was taken from. -/
def Kont.home : Kont → Option Lv
  | .lock => none
  | .l0 => some .zero
  | .l1 => some .one
  | .l2 => some .two

/-- A process that has to stay on a queue: the one in a time slice, or the one that the
walk over L2 has come to. -/
def Pc.place : Pc → Option (Slot × Lv)
  | .run p k | .held p k | .ret p k => k.home.map fun q => (p, q)
  | .l2 _ (some p) => some (p, .two)
  | _ => none

/-- The process that the loop of the scheduler lock is about. -/
def Pc.owner : Pc → Option Slot
  | .lockTest q | .run q .lock | .held q .lock | .ret q .lock => some q
  | _ => none

/-- In the loop of the scheduler lock itself. -/
def Pc.InLoop : Pc → Prop
  | .lockTest _ | .ret _ .lock => True
  | _ => False

theorem Pc.InLoop.holds {pc : Pc} (h : pc.InLoop) : pc.Holds = true := by
  cases pc <;> first | rfl | cases h

/-- The scheduler lock covers the process. -/
def Excused (s : State 1) (p : Slot) : Prop :=
  (s.pc 0).owner = some p ∧
    ((s.pc 0).InLoop ∨ s.kernel.isLocked = true ∨ s.kernel.isUnlocked = true)

structure Timing (s : State 1) (ls : Lv → List Slot) : Prop where
  queues : Queues s.kernel ls
  place : ∀ p q, (s.pc 0).place = some (p, q) → p ∈ ls q
  tq : ∀ q, (s.kernel.queue q).tq = q.level * 2 + 4
  pr : ∀ p, (s.kernel.proc p).pr ≤ 3
  lt : ∀ q p, p ∈ ls q → (s.kernel.proc p).lt < (s.kernel.queue q).tq ∨ Excused s p

variable {s s' : State 1}

theorem Kont.home_of_que {x : Kont} {q : Lv} (h : x.que = some q) : x.home = some q := by
  cases x <;> first | exact h | cases h

/-- While `scheduler` chooses, only the walk over L2 depends on a place. -/
theorem Pc.Choosing.place {pc : Pc} (h : pc.Choosing) {q : Lv} (hp : pc.place = some (p, q)) :
    q = .two ∧ ∃ min, pc = .l2 min (some p) := by
  cases pc with
  | l2 min x =>
    cases x with
    | none => cases hp
    | some x => cases hp; exact ⟨rfl, min, rfl⟩
  | run p k => cases h
  | held p k => cases h
  | ret p k => cases h
  | _ => cases hp

theorem Timing.spent (h : Timing s ls) {q : Lv} (hp : p ∈ ls q) (hno : ¬ s.kernel.Spent p) :
    (s.kernel.proc p).lt < (s.kernel.queue q).tq := by
  by_contra hlt
  have hb := isThere_total h.queues.toLinks q p
  rw [decide_eq_true hp] at hb
  exact hno ⟨q, hb, not_lt.1 hlt⟩

/-- Nobody is over the quantum once the lock covers nobody. -/
theorem Timing.left (h : Timing s ls) {q : Lv} (hp : p ∈ ls q) (hown : (s.pc 0).owner = none) :
    (s.kernel.proc p).lt < (s.kernel.queue q).tq := by
  rcases h.lt q p hp with hlt | hex
  · exact hlt
  · exact absurd (hown.symm.trans hex.1) (by simp)

theorem Timing.prompt (h : Timing s ls) (hfree : s.Free) (hl : s.kernel.isLocked = false)
    (hu : s.kernel.isUnlocked = false) : Prompt s.kernel := by
  intro que p hp
  have hmem := h.queues.toLinks.on_iff.1 hp
  rcases h.lt que p hmem with hlt | ⟨-, hloop | hf | hf⟩
  · rw [h.tq] at hlt; omega
  · -- the loop holds the lock
    have hheld := hfree 0
    rw [hloop.holds] at hheld
    cases hheld
  · rw [hl] at hf; cases hf
  · rw [hu] at hf; cases hf

/-- Processes move, and the lock goes on covering whom it covers. -/
theorem Timing.moved (h : Timing s ls) (hq : Queues s'.kernel ls') (hm : Timed s.kernel ls s'.kernel ls')
    (hplace : ∀ p q, (s'.pc 0).place = some (p, q) → p ∈ ls' q)
    (hex : ∀ q p, p ∈ ls q → Excused s p →
      (s.kernel.proc p).lt < (s.kernel.queue q).tq ∨ Excused s' p) : Timing s' ls' where
  queues := hq
  place := hplace
  tq q := (hm.tq q).trans (h.tq q)
  pr := hm.pr h.pr
  lt q p hp := by
    rw [hm.tq]
    rcases hm.lt q p hp with h0 | ⟨hold, hlt⟩
    · left
      rw [h0, h.tq]
      omega
    · rw [hlt]
      rcases h.lt q p hold with hl | he
      · exact .inl hl
      · exact hex q p hold he

/-- The same while the CPU keeps its process. -/
theorem Timing.same (h : Timing s ls) (hq : Queues s'.kernel ls') (hg : Grows ls ls')
    (hm : Timed s.kernel ls s'.kernel ls') (hplace : (s'.pc 0).place = (s.pc 0).place)
    (hown : (s'.pc 0).owner = (s.pc 0).owner) (hloop : (s.pc 0).InLoop → (s'.pc 0).InLoop)
    (hl : s'.kernel.isLocked = s.kernel.isLocked) (hu : s'.kernel.isUnlocked = s.kernel.isUnlocked) :
    Timing s' ls' := by
  refine h.moved hq hm (fun p q hp => hg q p (h.place p q (hplace ▸ hp))) fun q p _ he => .inr ?_
  refine ⟨hown.trans he.1, ?_⟩
  rw [hl, hu]
  exact he.2.imp hloop id

/-- The CPU is back from a process, which is one tick older. -/
theorem Timing.ret (h : Timing s ls) {x : Kont} {pc : Pc} (hpc : s.pc 0 = .ret p x) (hq : Queues k' ls')
    (hm : Timed (s.kernel.upd p fun x => { x with lt := x.lt + 1 }) ls k' ls')
    (hself : ∀ q, p ∈ ls' q → (k'.proc p).lt < (k'.queue q).tq ∨
      Excused ({ s with kernel := k' }.goto 0 pc) p)
    (hplace : pc.place = none) : Timing ({ s with kernel := k' }.goto 0 pc) ls' where
  queues := hq
  place y q hy := by rw [goto_pc, hplace] at hy; cases hy
  tq q := (hm.tq q).trans (h.tq q)
  pr := hm.pr fun y => by
    rw [upd_proc]
    split <;> exact h.pr y
  lt q y hy := by
    by_cases hyp : y = p
    · subst hyp; exact hself q hy
    · left
      show (k'.proc y).lt < (k'.queue q).tq
      have htq : (k'.queue q).tq = (s.kernel.queue q).tq := hm.tq q
      rw [htq]
      rcases hm.lt q y hy with h0 | ⟨hold, hlt⟩
      · rw [h0, h.tq]
        omega
      · rw [hlt, upd_proc_ne _ hyp]
        rcases h.lt q y hold with hl | he
        · exact hl
        · -- the lock covers nobody but `p`
          have hown := he.1
          rw [hpc] at hown
          cases x <;> first | (cases hown; exact absurd rfl hyp) | cases hown

/-- The CPU goes on choosing. -/
theorem Timing.choosing (h : Timing s ls) (hq : Queues k' ls') (hm : Timed s.kernel ls k' ls') {pc : Pc}
    (hplace : ∀ p q, pc.place = some (p, q) → p ∈ ls' q)
    (hleave : ∀ q p, p ∈ ls q → (s.pc 0).owner = some p → (s.kernel.proc p).lt < (s.kernel.queue q).tq) :
    Timing ({ s with kernel := k' }.goto 0 pc) ls' :=
  h.moved hq hm (fun p q hp => hplace p q (by rwa [goto_pc] at hp)) fun q p hp he =>
    .inl (hleave q p hp he.1)

/-- A process leaves its queue. -/
theorem Timing.drop (h : Timing s ls) {que : Lv} (hp : p ∈ ls que) (hdel : del s.kernel que p = .ok k')
    (hown : (s.pc 0).owner = none) {pc : Pc}
    (hplace : ∀ x q, pc.place = some (x, q) → x ∈ ls q ∧ x ≠ p) :
    Timing ({ s with kernel := k' }.goto 0 pc) (Function.update ls que ((ls que).erase p)) := by
  have hcore := del_core hdel
  refine h.choosing (del_queues h.queues hp hdel) ⟨fun q x hx => ?_, fun h3 x => ?_, del_tq hdel⟩
    (fun x q hx => ?_) fun q x _ ho => ?_
  · exact .inr ⟨((h.queues.toLinks.mem_erase hp).1 hx).1, core_lt hcore x⟩
  · rw [core_pr hcore]; exact h3 x
  · exact (h.queues.toLinks.mem_erase hp).2 (hplace x q hx)
  · rw [hown] at ho; cases ho

/-- A process gets the CPU. -/
theorem Timing.dispatch (h : Timing s ls) {x : Kont} (hplace : ∀ q, x.home = some q → p ∈ ls q)
    (hlock : ∀ q, (s.pc 0).owner = some q → x = .lock ∧ q = p ∧ s.kernel.isLocked = true) :
    Timing (s.dispatch 0 p x) ls := by
  have hpc : ((s.dispatch 0 p x).pc 0).place = x.home.map (fun q => (p, q)) ∧
      (x = .lock → ((s.dispatch 0 p x).pc 0).owner = some p) := by
    rw [State.dispatch, goto_pc]
    split <;> exact ⟨rfl, by rintro rfl; rfl⟩
  have hm : Timed s.kernel ls (s.kernel.upd p fun x => { x with state := .running, chan := none }) ls :=
    .upd (fun _ => rfl) fun _ => rfl
  refine h.moved (h.queues.wake p) hm (fun y q hy => ?_) fun q y hy he => ?_
  · rw [hpc.1, Option.map_eq_some_iff] at hy
    obtain ⟨q', hq', heq⟩ := hy
    cases heq
    exact hplace q hq'
  · obtain ⟨hx, rfl, hl⟩ := hlock y he.1
    exact .inr ⟨hpc.2 hx, .inr (.inl hl)⟩

/-- The end of a time slice, for the process itself. -/
theorem Timing.self (h : Timing s ls) {que : Lv} (hp : p ∈ ls que) (hown : (s.pc 0).owner = none)
    (hm : Timed (s.kernel.upd p fun x => { x with lt := x.lt + 1 }) ls k' ls')
    (hend : (k'.proc p).lt = 0 ∨ (s.kernel.queue que).tq ≠ (s.kernel.proc p).lt + 1) (q : Lv)
    (hq : p ∈ ls' q) : (k'.proc p).lt < (k'.queue q).tq := by
  have htq : (k'.queue q).tq = (s.kernel.queue q).tq := hm.tq q
  rw [htq]
  rcases hm.lt q p hq with h0 | ⟨hold, hlt⟩
  · rw [h0, h.tq]
    omega
  · obtain rfl := h.queues.disjoint q que p hold hp
    have hleft := h.left hp hown
    rcases hend with h0 | hne
    · rw [h0, h.tq]
      omega
    · rw [hlt, upd_proc_self]
      show (s.kernel.proc p).lt + 1 < _
      omega

/-! ## Steps -/

theorem sched_timing (h : Timing s ls) (hG : s.kernel.TameSched (s.pc 0)) (hT : Timely s (.sched 0))
    (hs : SchedStep s 0 s') : ∃ ls', Timing s' ls' := by
  have hq := h.queues
  -- who walks over L2 is on it
  have hwalk : ∀ x, s.kernel.Walks (s.pc 0) x → x ∈ ls .two := by
    rintro x (hfront | ⟨m, y, hpc, hnext⟩)
    · have := (hq.queue .two).chain.head
      rw [hfront] at this
      exact List.mem_of_mem_head? this.symm
    · have hy : y ∈ ls .two := h.place y .two (by rw [hpc]; rfl)
      exact ((hq.queue .two).chain.next_mem hy hnext).1
  cases hs with
  | acquire pc hpc _ hto hstart =>
    refine ⟨ls, h.choosing hq (.refl _ ls) (fun p q hp => ?_) fun q p _ ho => ?_⟩
    · obtain ⟨-, m, rfl⟩ := hto.place hp
      exact absurd rfl (hstart m _)
    · rw [hpc] at ho; cases ho
  | go pc hpc hto hlock hw =>
    refine ⟨ls, h.choosing hq (.refl _ ls) (fun p q hp => ?_) fun q p hp ho => ?_⟩
    · obtain ⟨rfl, m, rfl⟩ := hto.place hp
      exact hwalk p (hw m p rfl)
    · cases hpc' : s.pc 0 with
      | lockTest x =>
        rw [hpc'] at ho
        cases ho
        exact h.spent hp (hT _ hpc' (.inl (hlock _ hpc')))
      | _ => rw [hpc'] at ho hpc; cases hpc <;> cases ho
  | forget x hpc hst =>
    have hq' : Queues { s.kernel with isLocked := false, me := none } ls := hq.congr rfl rfl fun _ => rfl
    refine ⟨ls, h.choosing hq' ⟨fun _ _ hx => .inr ⟨hx, rfl⟩, fun h3 => h3, fun _ => rfl⟩
      (fun p q hp => by cases hp) fun q p hp ho => ?_⟩
    rw [hpc] at ho
    cases ho
    exact h.spent hp (hT _ hpc (.inr hst))
  | lock x hpc hlock _ =>
    refine ⟨ls, h.dispatch (fun q hq => by cases hq) fun q ho => ?_⟩
    rw [hpc] at ho
    cases ho
    exact ⟨rfl, rfl, hlock⟩
  | drop que p k' hpc _ hdel =>
    have hown : (s.pc 0).owner = none := by rw [hpc]; rfl
    by_cases hp : p ∈ ls que
    · exact ⟨_, h.drop hp hdel hown fun x q hx => by cases hx⟩
    · rw [del_notMem hq.toLinks hp hdel]
      refine ⟨ls, h.choosing hq (.refl _ ls) (fun p q hp => by cases hp) fun q p _ ho => ?_⟩
      rw [hown] at ho
      cases ho
  | dropL2 m p k' hpc _ hdel =>
    have hp : p ∈ ls .two := h.place p .two (by rw [hpc]; rfl)
    refine ⟨_, h.drop hp hdel (by rw [hpc]; rfl) fun x q hx => ?_⟩
    rw [show (k'.proc p).next = (s.kernel.proc p).next from del_next_self hq.toLinks hdel] at hx
    cases hn : (s.kernel.proc p).next with
    | none => rw [hn] at hx; cases hx
    | some y =>
      rw [hn] at hx
      cases hx
      exact (hq.queue .two).chain.next_mem hp hn
  | slice que x p hpc hk hfront _ =>
    have hp : p ∈ ls que := by
      have := (hq.queue que).chain.head
      rw [hfront] at this
      exact List.mem_of_mem_head? this.symm
    refine ⟨ls, h.dispatch (fun q hx => ?_) fun q ho => ?_⟩
    · rw [Kont.home_of_que hk] at hx
      cases hx
      exact hp
    · rw [hpc] at ho; cases ho
  | sliceL2 m p hpc _ =>
    refine ⟨ls, h.dispatch (fun q hx => ?_) fun q ho => ?_⟩
    · cases hx
      exact h.place p .two (by rw [hpc]; rfl)
    · rw [hpc] at ho; cases ho
  | boost k' hpc hk =>
    have hown : ∀ q p, p ∈ ls q → (s.pc 0).owner = some p →
        (s.kernel.proc p).lt < (s.kernel.queue q).tq := by
      intro q p _ ho
      rw [hpc] at ho
      cases ho
    rcases hk with rfl | hk
    · exact ⟨ls, h.choosing hq (.refl _ ls) (fun p q hp => by cases hp) hown⟩
    · obtain ⟨ls', hq', hm⟩ := boostPr_queues hq hk
      exact ⟨ls', h.choosing hq' hm.toTimed (fun p q hp => by cases hp) hown⟩
  | release p k' hpc hto hk =>
    rw [hpc] at hG
    obtain ⟨hfree, hl, hrear⟩ := hG hto
    have hp := hfree.free hq.toLinks
    obtain ⟨ls', hq', hm⟩ := releaseLock_queues (hq.addTick p) hp
      (by rw [upd_proc, if_pos rfl]; exact hl)
      (fun hnil => hrear (by rw [(hq.queue .zero).count, hnil]; rfl)) hk
    refine ⟨ls', h.ret hpc hq' hm.toTimed (fun q hpq => .inl ?_) rfl⟩
    have htq : (k'.queue q).tq = (s.kernel.queue q).tq := hm.tq q
    rcases hm.lt q p hpq with h0 | ⟨hold, -⟩
    · rw [h0, htq, h.tq]
      omega
    · exact absurd hold (hp q)
  | again p hpc =>
    refine ⟨ls, h.ret hpc (hq.addTick p) (.refl _ ls) (fun q _ => .inr ⟨?_, .inl ?_⟩) rfl⟩
    · rw [goto_pc]; rfl
    · rw [goto_pc]; trivial
  | demote que down x p k' hpc hk hlv hd =>
    have hp : p ∈ ls que := h.place p que (by rw [hpc]; simp [Pc.place, Kont.home_of_que hk])
    have hown : (s.pc 0).owner = none := by rw [hpc]; cases x <;> first | rfl | cases hk
    obtain ⟨ls', hq', hm, hend⟩ := demote_queues hq hp hlv hd
    exact ⟨ls', h.ret hpc hq' hm.toTimed (fun q hpq => .inl (h.self hp hown hm.toTimed hend q hpq)) rfl⟩
  | promote p hpc =>
    have hp : p ∈ ls .two := h.place p .two (by rw [hpc]; rfl)
    have hown : (s.pc 0).owner = none := by rw [hpc]; rfl
    obtain ⟨hq', hm, hend⟩ := promote_queues (p := p) hq
    exact ⟨ls, h.ret hpc hq' hm.toTimed (fun q hpq => .inl (h.self hp hown hm.toTimed hend q hpq)) rfl⟩

theorem kill_timed (k : Kernel) (pid : ℕ) (ls : Lv → List Slot) : Timed k ls (kill k pid) ls := by
  unfold kill
  split
  · exact .refl k ls
  · exact .upd (fun _ => rfl) fun _ => rfl

/-- `kill` leaves the flags of the scheduler lock. -/
theorem kill_kept (k : Kernel) (pid : ℕ) (c : Prop) (hf : k.isLocked = true ∨ k.isUnlocked = true) :
    (kill k pid).isLocked = true ∨ (kill k pid).isUnlocked = true ∨ c := by
  rw [(globals_flags (kill_globals _ _)).1, (globals_flags (kill_globals _ _)).2]
  exact hf.imp id .inl

/-- A flag of the scheduler lock is given up only by the two calls that `Timely` names. -/
theorem Flagged.timed {x : Call} (h : Flagged k x k') (ls : Lv → List Slot) : Timed k ls k' ls ∧
    (k.isLocked = true ∨ k.isUnlocked = true → k'.isLocked = true ∨ k'.isUnlocked = true ∨
      (x = .lockFail ∨ x = .unlockClear) ∧ k.isUnlocked = false) := by
  cases h with
  | lockSet => exact ⟨⟨fun _ _ h => .inr ⟨h, rfl⟩, id, fun _ => rfl⟩, fun _ => .inl rfl⟩
  | unlockSet => exact ⟨⟨fun _ _ h => .inr ⟨h, rfl⟩, id, fun _ => rfl⟩, fun _ => .inr (.inl rfl)⟩
  | lockFail =>
    refine ⟨⟨fun _ _ h => .inr ⟨h, rfl⟩, id, fun _ => rfl⟩, fun _ => ?_⟩
    cases hu : k.isUnlocked with
    | true => exact .inr (.inl rfl)
    | false => exact .inr (.inr ⟨.inl rfl, rfl⟩)
  | unlockClear =>
    refine ⟨⟨fun _ _ h => .inr ⟨h, rfl⟩, id, fun _ => rfl⟩, fun _ => ?_⟩
    cases hu : k.isUnlocked with
    | true => exact .inr (.inl rfl)
    | false => exact .inr (.inr ⟨.inr rfl, rfl⟩)
  | lockKill m hm => exact ⟨kill_timed _ _ ls, kill_kept k _ _⟩
  | unlockFail m hm => exact ⟨kill_timed _ _ ls, kill_kept k _ _⟩

/-! ### The flags of the scheduler lock -/

theorem waitPass_owner {s : State 1} {p : Slot} {x : Kont}
    (hpc : s.pc 0 = .run p x ∧ s.Free ∧ s.call p = .none ∨ s.pc 0 = .held p x) :
    ((s.waitPass 0 p x).pc 0).place = (s.pc 0).place ∧ ((s.waitPass 0 p x).pc 0).owner = (s.pc 0).owner ∧
      ¬ (s.pc 0).InLoop := by
  have hold : (s.pc 0).place = x.home.map (fun q => (p, q)) ∧ (s.pc 0).owner = (Pc.ret p x).owner ∧
      ¬ (s.pc 0).InLoop := by
    rcases hpc with ⟨hpc, -⟩ | hpc <;> rw [hpc] <;> cases x <;> exact ⟨rfl, rfl, fun h => h⟩
  rw [hold.1, hold.2.1]
  unfold State.waitPass
  split
  · rw [goto_pc]; cases x <;> exact ⟨rfl, rfl, hold.2.2⟩
  · split <;> rw [goto_pc] <;> cases x <;> exact ⟨rfl, rfl, hold.2.2⟩

theorem waitPass_flags (s : State n) (c : Fin n) (p : Slot) (x : Kont) :
    (s.waitPass c p x).kernel.isLocked = s.kernel.isLocked ∧
      (s.waitPass c p x).kernel.isUnlocked = s.kernel.isUnlocked := by
  unfold State.waitPass
  split
  · exact ⟨rfl, rfl⟩
  · split <;> exact ⟨rfl, rfl⟩

/-- **Every tame event whose process leaves the scheduler lock in time.** -/
theorem timing_step (h : Timing s ls) {e : Event 1} (hG : Tame s e) (hT : Timely s e)
    (hs : step s e = some (.ok s')) : ∃ ls', Timing s' ls' := by
  have hq := h.queues
  -- the running process stops: if the lock covers it, the loop of the lock goes on
  have hstop : ∀ {p x k' ls'}, s.pc 0 = .run p x → Queues k' ls' → Grows ls ls' →
      Timed s.kernel ls k' ls' → k'.isLocked = s.kernel.isLocked → k'.isUnlocked = s.kernel.isUnlocked →
      Timing ({ s with kernel := k' }.goto 0 (.ret p x)) ls' := by
    intro p x k' ls' hpc hq' hg hm hl hu
    refine h.same hq' hg hm ?_ ?_ ?_ hl hu <;> rw [goto_pc, hpc]
    · rfl
    · cases x <;> rfl
    · intro hloop; cases hloop
  cases e with
  | sched c =>
    obtain rfl : c = 0 := Subsingleton.elim _ _
    exact sched_timing h hG hT (sched_cases hs)
  | tick =>
    rw [step_tick hs]
    exact ⟨ls, h.same (hq.congr rfl rfl fun _ => rfl) (.refl ls)
      ⟨fun _ _ h => .inr ⟨h, rfl⟩, id, fun _ => rfl⟩ rfl rfl id rfl rfl⟩
  | wakeup chan =>
    obtain ⟨-, k', hk, rfl⟩ := step_wakeup hs
    obtain ⟨ls', hq', hg, -, hm⟩ := wakeup1_queues hq (Kernel.Calm.calmOn hG hq.toLinks) hk
    obtain ⟨hl, hu⟩ := globals_flags (wakeup1_globals hk)
    exact ⟨ls', h.same hq' hg hm.toTimed rfl rfl id hl hu⟩
  | yield c =>
    obtain rfl : c = 0 := Subsingleton.elim _ _
    obtain ⟨p, x, hpc, -, rfl⟩ := step_yield hs
    exact ⟨ls, hstop hpc (hq.setState p _) (.refl ls) (.upd (fun _ => rfl) fun _ => rfl) rfl rfl⟩
  | sleep c chan =>
    obtain rfl : c = 0 := Subsingleton.elim _ _
    obtain ⟨p, x, hpc, -, -, rfl⟩ := step_sleep hs
    have hm : Timed s.kernel ls (goToSleep s.kernel p chan) ls := .upd (fun _ => rfl) fun _ => rfl
    exact ⟨ls, hstop hpc (hq.goToSleep p chan) (.refl ls) hm rfl rfl⟩
  | exit c =>
    obtain rfl : c = 0 := Subsingleton.elim _ _
    obtain ⟨p, x, k', hpc, -, -, hk, rfl⟩ := step_exit hs
    obtain ⟨ls', hq', hg, -, hm⟩ := exit_queues hq (hG p (by rw [hpc]; rfl)) hk
    obtain ⟨hl, hu⟩ := globals_flags (exit_globals hk)
    exact ⟨ls', hstop hpc hq' hg hm.toTimed hl hu⟩
  | wait c =>
    obtain rfl : c = 0 := Subsingleton.elim _ _
    obtain ⟨p, x, hpc, rfl⟩ := step_wait hs
    obtain ⟨hplace, hown, hloop⟩ := waitPass_owner hpc
    obtain ⟨hl, hu⟩ := waitPass_flags s 0 p x
    exact ⟨ls, h.same (waitPass_queues hq) (.refl ls) (waitPass_moved s 0 p x ls).toTimed hplace hown
      (fun hin => absurd hin hloop) hl hu⟩
  | kill c pid =>
    rw [step_kill hs]
    have hm := kill_mild s.kernel pid
    obtain ⟨hl, hu⟩ := globals_flags (kill_globals s.kernel pid)
    exact ⟨ls, h.same (hq.congr hm.next hm.queue hm.ql) (.refl ls) (kill_timed _ _ ls) rfl rfl id hl hu⟩
  | setPriority c pid pr =>
    obtain ⟨k', hk, rfl⟩ := step_setPriority hs
    have hm := setPriority_mild hk
    have hf : k'.isLocked = s.kernel.isLocked ∧ k'.isUnlocked = s.kernel.isUnlocked := by
      unfold setPriority at hk
      split at hk
      · cases hk
      · split at hk <;> (cases hk; exact ⟨rfl, rfl⟩)
    exact ⟨ls, h.same (hq.congr hm.next hm.queue hm.ql) (.refl ls) (setPriority_moved hk).toTimed rfl rfl
      id hf.1 hf.2⟩
  | fork c =>
    obtain ⟨p, x, -, -, rfl | ⟨np, k', -, ha, rfl⟩⟩ := step_fork hs
    · exact ⟨ls, h⟩
    · obtain ⟨-, rfl⟩ := allocproc_some ha
      refine ⟨ls, h.same ((hq.upd (p := np)
        (f := fun x => { x with state := .embryo, pid := s.kernel.nextpid })
        (fun _ => rfl) fun _ => rfl).congr rfl rfl fun _ => rfl) (.refl ls) ?_ rfl rfl id rfl rfl⟩
      have hm : Timed s.kernel ls
          (s.kernel.upd np fun x => { x with state := .embryo, pid := s.kernel.nextpid }) ls :=
        .upd (fun _ => rfl) fun _ => rfl
      exact hm.trans ⟨fun _ _ h => .inr ⟨h, rfl⟩, id, fun _ => rfl⟩
  | forkFail c =>
    obtain ⟨p, x, np, -, -, rfl⟩ := step_forkFail hs
    have hm : Timed s.kernel ls (s.kernel.upd np fun x => { x with state := .unused }) ls :=
      .upd (fun _ => rfl) fun _ => rfl
    exact ⟨ls, h.same (hq.setState np _) (.refl ls) hm rfl rfl id rfl rfl⟩
  | schedulerLock c ok =>
    obtain ⟨p, x, y, -, -, -, rfl⟩ := step_schedulerLock hs
    exact ⟨ls, h.same (hq.congr rfl rfl fun _ => rfl) (.refl ls)
      ⟨fun _ _ h => .inr ⟨h, rfl⟩, id, fun _ => rfl⟩ rfl rfl id rfl rfl⟩
  | schedulerUnlock c ok =>
    obtain ⟨p, x, y, -, -, -, rfl⟩ := step_schedulerUnlock hs
    exact ⟨ls, h.same (hq.congr rfl rfl fun _ => rfl) (.refl ls)
      ⟨fun _ _ h => .inr ⟨h, rfl⟩, id, fun _ => rfl⟩ rfl rfl id rfl rfl⟩
  | cont c =>
    obtain rfl : c = 0 := Subsingleton.elim _ _
    obtain ⟨p, x, k', y, hpc, -, rfl, ⟨np, hcall, -, hk⟩ | ⟨hcall, -, hk⟩ | hf⟩ := step_cont hs
    · have hfree := hG p (by rw [hpc]; rfl)
      rw [hcall] at hfree
      obtain ⟨ls', hq', hg, hm⟩ := forkReady_queues hq (Kernel.Unlinked.free hfree hq.toLinks) hk
      obtain ⟨hl, hu⟩ := globals_flags (core_globals (push_core (k := _) hk))
      exact ⟨ls', h.same hq' hg hm.toTimed rfl rfl id hl hu⟩
    · have hcalm : s.kernel.TameCont (s.call p) := hG p (by rw [hpc]; rfl)
      rw [hcall] at hcalm
      have hcalm' : CalmOn s.kernel ls (some .ticks) := Kernel.Calm.calmOn hcalm hq.toLinks
      have hq0 : Queues { s.kernel with ticks := 0 } ls := hq.congr rfl rfl fun _ => rfl
      have hm0 : Timed s.kernel ls { s.kernel with ticks := 0 } ls :=
        ⟨fun _ _ h => .inr ⟨h, rfl⟩, id, fun _ => rfl⟩
      obtain ⟨ls', hq', hg, -, hm⟩ := wakeup1_queues hq0 hcalm' hk
      obtain ⟨hl, hu⟩ := globals_flags (wakeup1_globals hk)
      exact ⟨ls', h.same hq' hg (hm0.trans hm.toTimed) rfl rfl id hl hu⟩
    · -- the flags: the lock may stop covering the running process
      obtain ⟨hm, hflags⟩ := hf.timed ls
      have hmild := hf.mild
      refine ⟨ls, h.moved (hq.congr hmild.next hmild.queue hmild.ql) hm h.place fun q z hz he => ?_⟩
      obtain ⟨hown, hloop | hcover⟩ := he
      · rw [hpc] at hloop; cases hloop
      · rcases hflags hcover with hl | hu | ⟨hcall, hu⟩
        · exact .inr ⟨hown, .inr (.inl hl)⟩
        · exact .inr ⟨hown, .inr (.inr hu)⟩
        · obtain rfl : z = p := by
            rw [hpc] at hown
            cases x <;> first | (cases hown; rfl) | cases hown
          exact .inl (h.spent hz (hT z (by rw [hpc]; rfl) hcall hu))

/-! ## Passes of `scheduler` -/

/-- A look at the front of L0 or L1 runs the process or takes it off. -/
theorem front_pass (h : Timing s ls) (hpc : s.pc 0 = .mlfq) {que : Lv} {x : Kont}
    (hcount : (s.kernel.queue que).count ≠ 0) : ∃ p s', (s.kernel.queue que).front = some p ∧
      s.front 0 que x = some (.ok s') ∧ ((s'.pc 0).proc = some p ∨ ¬ s'.kernel.On que p) := by
  have hQ := h.queues.queue que
  have hown : (s.pc 0).owner = none := by rw [hpc]; rfl
  cases hl : ls que with
  | nil =>
    rw [hQ.count, hl] at hcount
    exact absurd rfl hcount
  | cons p l =>
    have hfront : (s.kernel.queue que).front = some p := by rw [hQ.chain.head, hl]; rfl
    have hp : p ∈ ls que := by rw [hl]; simp
    unfold State.front
    rw [hfront]
    dsimp only
    by_cases hidle : (s.kernel.proc p).idle
    · obtain ⟨k', hdel⟩ := del_total h.queues.toLinks hp
      rw [if_pos hidle, hdel]
      refine ⟨p, _, rfl, rfl, .inr fun hon => ?_⟩
      have hq' := del_queues h.queues hp hdel
      exact h.queues.toLinks.erase_free hp que (hq'.toLinks.on_iff.1 hon)
    · rw [if_neg hidle, if_pos (h.left hp hown)]
      refine ⟨p, _, rfl, rfl, .inl ?_⟩
      rw [State.dispatch, goto_pc]
      split <;> rfl

theorem turn_pass (h : Timing s ls) (hpc : s.pc 0 = .mlfq) {que : Lv} (hturn : s.kernel.turn = some que) :
    ∃ p s', (s.kernel.queue que).front = some p ∧ step s (.sched 0) = some (.ok s') ∧
      ((s'.pc 0).proc = some p ∨ ¬ s'.kernel.On que p) := by
  show ∃ p s', _ ∧ s.sched 0 = _ ∧ _
  unfold State.sched
  rw [hpc]
  unfold Kernel.turn at hturn
  dsimp only
  split at hturn
  · rename_i h0
    cases hturn
    rw [if_pos h0]
    exact front_pass h hpc h0
  · rename_i h0
    split at hturn
    · rename_i h1
      cases hturn
      rw [if_neg h0, if_pos h1]
      exact front_pass h hpc h1
    · cases hturn

/-- The walk over L2 dispatches a process that wants to run. -/
def DispatchesL2 (s : State 1) (ls : Lv → List Slot) : Prop :=
  ∃ j s' p, (machine 1).run s (List.replicate j (.sched 0)) = some (.ok s') ∧ (s'.pc 0).proc = some p ∧
    p ∈ ls .two ∧ ¬ (s.kernel.proc p).idle

/-- The walk has come from `s` to `s'`, taking only processes off that do not want to run. -/
structure Walked (s : State 1) (ls : Lv → List Slot) (s' : State 1) (ls' : Lv → List Slot) : Prop where
  timing : Timing s' ls'
  core : s'.kernel.core = s.kernel.core
  sub : ∀ x ∈ ls' .two, x ∈ ls .two
  keeps : ∀ x ∈ ls .two, ¬ (s.kernel.proc x).idle → x ∈ ls' .two
  run : ∃ j, (machine 1).run s (List.replicate j (.sched 0)) = some (.ok s')

theorem Walked.idle (h : Walked s ls s' ls') (x : Slot) :
    (s'.kernel.proc x).idle ↔ (s.kernel.proc x).idle := by
  unfold Proc.idle
  rw [core_state h.core]

theorem Walked.dispatches (h : Walked s ls s' ls') (hd : DispatchesL2 s' ls') : DispatchesL2 s ls := by
  obtain ⟨j, s'', p, hr, hproc, hp, hidle⟩ := hd
  obtain ⟨i, hi⟩ := h.run
  refine ⟨i + j, s'', p, ?_, hproc, h.sub p hp, fun hid => hidle ((h.idle p).2 hid)⟩
  rw [List.replicate_add, Machine.run_append hi]
  exact hr

theorem Walked.trans {s'' : State 1} {ls'' : Lv → List Slot} (h : Walked s ls s' ls')
    (h' : Walked s' ls' s'' ls'') : Walked s ls s'' ls'' where
  timing := h'.timing
  core := h'.core.trans h.core
  sub x hx := h.sub x (h'.sub x hx)
  keeps x hx hidle := h'.keeps x (h.keeps x hx hidle) fun hid => hidle ((h.idle x).1 hid)
  run := by
    obtain ⟨i, hi⟩ := h.run
    obtain ⟨j, hj⟩ := h'.run
    exact ⟨i + j, by rw [List.replicate_add, Machine.run_append hi]; exact hj⟩

theorem run_sched {s s' : State 1} (h : s.sched 0 = some (.ok s')) :
    (machine 1).run s (List.replicate 1 (.sched 0)) = some (.ok s') := by
  have hstep : (machine 1).step s (.sched 0) = some (.ok s') := h
  exact Machine.run_cons hstep []

/-- One node of the walk. -/
theorem walk_step (h : Timing s ls) {m : ℕ} {l₁ l : List Slot} (hpc : s.pc 0 = .l2 m (some p))
    (hls : ls .two = l₁ ++ p :: l) : DispatchesL2 s ls ∨ ∃ s' ls' l₁', Walked s ls s' ls' ∧
      s'.pc 0 = .l2 m l.head? ∧ ls' .two = l₁' ++ l ∧ ((s.kernel.proc p).idle ∨ (s.kernel.proc p).pr ≠ m) := by
  have hp : p ∈ ls .two := by rw [hls]; simp
  have hown : (s.pc 0).owner = none := by rw [hpc]; rfl
  have hQ := h.queues.queue .two
  have hchain := hQ.chain
  rw [hls] at hchain
  have hnext : (s.kernel.proc p).next = l.head? := hchain.suffix.head
  have hnd := hQ.nodup
  rw [hls] at hnd
  by_cases hidle : (s.kernel.proc p).idle
  · obtain ⟨k', hdel⟩ := del_total h.queues.toLinks hp
    have hn' : (k'.proc p).next = l.head? := (del_next_self h.queues.toLinks hdel).trans hnext
    have hsched : s.sched 0 = some (.ok ({ s with kernel := k' }.goto 0 (.l2 m l.head?))) := by
      unfold State.sched
      rw [hpc]
      dsimp only
      rw [if_pos hidle, hdel, ← hn']
      rfl
    have herase : (ls .two).erase p = l₁ ++ l := by
      have hpl : p ∉ l₁ := fun hm => (List.nodup_append.1 hnd).2.2 p hm p (by simp) rfl
      rw [hls, List.erase_append_right _ hpl, List.erase_cons_head]
    refine .inr ⟨_, Function.update ls .two ((ls .two).erase p), l₁, ⟨?_, del_core hdel, fun x hx => ?_, fun x hx hx' => ?_, 1, run_sched hsched⟩,
      goto_pc _ _ _, ?_, .inl hidle⟩
    · refine h.drop hp hdel hown fun x q hx => ?_
      cases hh : l.head? with
      | none => rw [hh] at hx; cases hx
      | some y =>
        rw [hh] at hx
        cases hx
        exact hQ.chain.next_mem hp (hnext.trans hh)
    · exact ((h.queues.toLinks.mem_erase hp).1 hx).1
    · exact (h.queues.toLinks.mem_erase hp).2 ⟨hx, by rintro rfl; exact hx' hidle⟩
    · rw [Function.update_self, herase]
  · by_cases hpr : (s.kernel.proc p).pr = m
    · have hsched : s.sched 0 = some (.ok (s.dispatch 0 p .l2)) := by
        unfold State.sched
        rw [hpc]
        dsimp only
        rw [if_neg hidle, if_pos ⟨hpr, h.left hp hown⟩]
      refine .inl ⟨1, _, p, run_sched hsched, ?_, hp, hidle⟩
      rw [State.dispatch, goto_pc]
      split <;> rfl
    · have hsched : s.sched 0 = some (.ok (s.goto 0 (.l2 m l.head?))) := by
        unfold State.sched
        rw [hpc]
        dsimp only
        rw [if_neg hidle, if_neg (fun hc => hpr hc.1), hnext]
      refine .inr ⟨s.goto 0 (.l2 m l.head?), ls, l₁ ++ [p], ⟨?_, rfl, fun _ hx => hx, fun _ hx _ => hx, 1, run_sched hsched⟩,
        goto_pc _ _ _, by rw [hls]; simp, .inr hpr⟩
      refine h.choosing h.queues (.refl _ ls) (fun x q hx => ?_) fun q x _ ho => ?_
      · cases hh : l.head? with
        | none => rw [hh] at hx; cases hx
        | some y =>
          rw [hh] at hx
          cases hx
          exact (hQ.chain.next_mem hp (hnext.trans hh)).1
      · rw [hown] at ho; cases ho

/-- The walk to the end of L2 for one priority, from the nodes `l` on. -/
theorem walk_round (m : ℕ) (l : List Slot) : ∀ {s : State 1} {ls : Lv → List Slot} {l₁ : List Slot},
    Timing s ls → s.pc 0 = .l2 m l.head? → ls .two = l₁ ++ l → DispatchesL2 s ls ∨ ∃ s' ls',
      Walked s ls s' ls' ∧ s'.pc 0 = .l2 m none ∧
        ∀ x ∈ l, (s.kernel.proc x).idle ∨ (s.kernel.proc x).pr ≠ m := by
  induction l with
  | nil =>
    intro s ls l₁ h hpc _
    exact .inr ⟨s, ls, ⟨h, rfl, fun _ hx => hx, fun _ hx _ => hx, 0, rfl⟩, hpc, by simp⟩
  | cons p l ih =>
    intro s ls l₁ h hpc hls
    rcases walk_step h hpc hls with hd | ⟨s₁, ls₁, l₁', hw, hpc₁, hls₁, hp⟩
    · exact .inl hd
    · rcases ih hw.timing hpc₁ hls₁ with hd | ⟨s₂, ls₂, hw₂, hpc₂, hall⟩
      · exact .inl (hw.dispatches hd)
      · refine .inr ⟨s₂, ls₂, hw.trans hw₂, hpc₂, fun x hx => ?_⟩
        rcases List.mem_cons.1 hx with rfl | hx
        · exact hp
        · exact (hall x hx).imp (hw.idle x).1 fun hne heq => hne ((core_pr hw.core x).trans heq)

/-- The walks for the priorities from `m` on find a process with one of them. -/
theorem walk_rounds (j : ℕ) : ∀ {s : State 1} {ls : Lv → List Slot} {m : ℕ}, m + j = 4 → Timing s ls →
    s.pc 0 = .l2 m (s.kernel.queue .two).front → ∀ x ∈ ls .two, ¬ (s.kernel.proc x).idle →
    m ≤ (s.kernel.proc x).pr → DispatchesL2 s ls := by
  induction j with
  | zero =>
    intro s ls m hm h _ x _ _ hle
    have hpr := h.pr x
    omega
  | succ j ih =>
    intro s ls m hm h hpc x hx hidle hle
    have hfront := (h.queues.queue .two).chain.head
    rw [hfront] at hpc
    rcases walk_round m (ls .two) h hpc (List.nil_append _).symm with hd | ⟨s₁, ls₁, hw, hpc₁, hall⟩
    · exact hd
    · have hpr : (s.kernel.proc x).pr ≠ m := (hall x hx).resolve_left hidle
      have hle' : m + 1 ≤ (s.kernel.proc x).pr := by omega
      have hm3 : m < 3 := by
        have := h.pr x
        omega
      -- on to the next priority
      have hsched : s₁.sched 0 = some (.ok (s₁.goto 0 (.l2 (m + 1) (s₁.kernel.queue .two).front))) := by
        unfold State.sched
        rw [hpc₁]
        dsimp only
        rw [if_pos hm3]
      have hT : Timing (s₁.goto 0 (.l2 (m + 1) (s₁.kernel.queue .two).front)) ls₁ := by
        refine hw.timing.choosing hw.timing.queues (.refl _ ls₁) (fun y q hy => ?_) fun q y _ ho => ?_
        · have hhead := (hw.timing.queues.queue .two).chain.head
          cases hf : (s₁.kernel.queue .two).front with
          | none => rw [hf] at hy; cases hy
          | some z =>
            rw [hf] at hy hhead
            cases hy
            exact List.mem_of_mem_head? hhead.symm
        · rw [hpc₁] at ho; cases ho
      have hw' : Walked s₁ ls₁ (s₁.goto 0 (.l2 (m + 1) (s₁.kernel.queue .two).front)) ls₁ :=
        ⟨hT, rfl, fun _ hx => hx, fun _ hx _ => hx, 1, run_sched hsched⟩
      have hw := hw.trans hw'
      refine hw.dispatches (ih (by omega) hT (goto_pc _ _ _) x (hw.keeps x hx hidle) ?_ ?_)
      · exact fun hid => hidle ((hw.idle x).1 hid)
      · rw [core_pr hw.core]; exact hle'

theorem l2_pass (h : Timing s ls) (hpc : s.pc 0 = .mlfq) (hturn : s.kernel.turn = none) {x : Slot}
    (hx : x ∈ ls .two) (hidle : ¬ (s.kernel.proc x).idle) : DispatchesL2 s ls := by
  have hcount : (s.kernel.queue .two).count ≠ 0 := by
    intro h0
    rw [(h.queues.queue .two).eq_nil h0] at hx
    cases hx
  have hsched : s.sched 0 = some (.ok (s.goto 0 (.l2 0 (s.kernel.queue .two).front))) := by
    unfold Kernel.turn at hturn
    unfold State.sched
    rw [hpc]
    dsimp only
    split at hturn
    · cases hturn
    · rename_i h0
      split at hturn
      · cases hturn
      · rename_i h1
        rw [if_neg h0, if_neg h1, if_pos hcount]
  have hT : Timing (s.goto 0 (.l2 0 (s.kernel.queue .two).front)) ls := by
    refine h.choosing h.queues (.refl _ ls) (fun y q hy => ?_) fun q y _ ho => ?_
    · have hhead := (h.queues.queue .two).chain.head
      cases hf : (s.kernel.queue .two).front with
      | none => rw [hf] at hy; cases hy
      | some z =>
        rw [hf] at hy hhead
        cases hy
        exact List.mem_of_mem_head? hhead.symm
    · rw [hpc] at ho; cases ho
  have hw : Walked s ls (s.goto 0 (.l2 0 (s.kernel.queue .two).front)) ls :=
    ⟨hT, rfl, fun _ hx => hx, fun _ hx _ => hx, 1, run_sched hsched⟩
  exact hw.dispatches (walk_rounds 4 rfl hT (goto_pc _ _ _) x hx hidle (Nat.zero_le _))

/-! ## From `userinit` -/

theorem timing_run (hk : userinit Kernel.zero = .ok k) {es : List (Event 1)}
    (hG : (machine 1).Guarded (fun s e => Tame s e ∧ Timely s e) (boot 1 k) es)
    (hr : (machine 1).run (boot 1 k) es = some (.ok s)) : ∃ ls, Timing s ls := by
  obtain ⟨k', hk', ls, hq⟩ := userinit_queues
  rw [hk'] at hk
  cases hk
  obtain ⟨-, hproc, htq⟩ := userinit_fresh hk'
  have h0 : Timing (boot 1 k) ls := by
    refine ⟨hq, fun p q h => (by cases h), htq, fun p => (hproc p).2, fun q p _ => .inl ?_⟩
    show (k.proc p).lt < (k.queue q).tq
    rw [(hproc p).1, htq]
    omega
  exact Machine.guarded_inv (M := machine 1) (I := fun s => ∃ ls, Timing s ls) ⟨ls, h0⟩
    (fun s e s' hI hg hs => by
      obtain ⟨ls, hI⟩ := hI
      exact timing_step hI hg.1 hg.2 hs) hG hr

/-- **No process blocks its queue** in a one-CPU run from `userinit` whose events break no
queue and leave the scheduler lock in time: nobody on a queue has used up its quantum
while no lock is in force, a look at the front of L0 or L1 runs the process or takes
it off, and a pass over L2 runs a process if a runnable one is there. -/
theorem quanta_left (k : Kernel) (hk : userinit Kernel.zero = .ok k) (es : List (Event 1)) (s : State 1)
    (hG : (machine 1).Guarded (fun s e => Tame s e ∧ Timely s e) (boot 1 k) es)
    (hr : (machine 1).run (boot 1 k) es = some (.ok s)) :
    (s.Free → s.kernel.isLocked = false → s.kernel.isUnlocked = false → Prompt s.kernel) ∧
    (∀ que, s.pc 0 = .mlfq → s.kernel.turn = some que → ∃ p s', (s.kernel.queue que).front = some p ∧
      step s (.sched 0) = some (.ok s') ∧ ((s'.pc 0).proc = some p ∨ ¬ s'.kernel.On que p)) ∧
    (∀ p, s.pc 0 = .mlfq → s.kernel.turn = none → s.kernel.On .two p →
      (s.kernel.proc p).state = .runnable → ∃ j s' p',
        (machine 1).run s (List.replicate j (.sched 0)) = some (.ok s') ∧ (s'.pc 0).proc = some p' ∧
          s.kernel.On .two p' ∧ (s.kernel.proc p').state = .runnable) := by
  obtain ⟨ls, h⟩ := timing_run hk hG hr
  have hrun := running_run_one hk hr
  refine ⟨h.prompt, fun que hpc hturn => turn_pass h hpc hturn, fun p hpc hturn hon hp => ?_⟩
  have hidle : ¬ (s.kernel.proc p).idle := fun hid => hid.1 hp
  obtain ⟨j, s', p', hj, hproc, hp', hidle'⟩ :=
    l2_pass h hpc hturn (h.queues.toLinks.on_iff.1 hon) hidle
  refine ⟨j, s', p', hj, hproc, h.queues.toLinks.on_iff.2 hp', ?_⟩
  -- nobody runs while `scheduler` chooses
  have hnot : (s.kernel.proc p').state ≠ .running := by
    intro hst
    obtain ⟨c, hc⟩ := hrun.onCpu p' hst
    rw [Subsingleton.elim c 0, hpc] at hc
    cases hc
  unfold Proc.idle at hidle'
  by_contra hst
  exact hidle' ⟨hst, hnot⟩

/-- A process locks the scheduler, gets two slices under the lock, and sleeps in time. -/
def lockInTime : List (Event 1) :=
  [.sched 0, .sched 0, .schedulerLock 0 true, .cont 0, .cont 0, .yield 0, .sched 0, .sched 0,
    .sched 0, .sched 0, .yield 0, .sched 0, .sched 0, .sleep 0 (.other 7), .sched 0, .sched 0, .sched 0]

theorem quanta_left_lockInTime : ∃ k s, userinit Kernel.zero = .ok k ∧
    (machine 1).run (boot 1 k) lockInTime = some (.ok s) ∧
    (s.Free → s.kernel.isLocked = false → s.kernel.isUnlocked = false → Prompt s.kernel) := by
  obtain ⟨k, s, hk, hr, hG⟩ := bootRun_any lockInTime
    (fun x => (machine 1).check (fun s e => Tame s e ∧ Timely s e) (boot 1 x.1) lockInTime)
    (by decide)
  exact ⟨k, s, hk, hr, (quanta_left k hk _ s (Machine.guarded_of_check hG) hr).1⟩

/-- The owner of the scheduler lock gets four slices under it and gives a wrong
password. After one more tick it is the front of L0 with five ticks of four. -/
def wrongPassword : List (Event 1) :=
  [.sched 0, .sched 0, .schedulerLock 0 true, .cont 0, .cont 0, .yield 0, .sched 0, .sched 0,
    .sched 0, .sched 0, .yield 0, .sched 0, .sched 0, .yield 0, .sched 0, .sched 0, .yield 0,
    .sched 0, .sched 0, .schedulerLock 0 false, .cont 0, .cont 0, .yield 0, .sched 0, .sched 0, .sched 0, .sched 0]

/-- **A process blocks L0**: nobody holds the scheduler lock, and a pass of `scheduler`
neither runs the front of L0 nor takes it off. -/
theorem wrong_password_blocks : ∃ k s s', userinit Kernel.zero = .ok k ∧
    (machine 1).run (boot 1 k) wrongPassword = some (.ok s) ∧
    s.Free ∧ s.kernel.isLocked = false ∧ s.kernel.isUnlocked = false ∧ ¬ Prompt s.kernel ∧
    (machine 1).run (boot 1 k) (wrongPassword ++ [.sched 0, .sched 0]) = some (.ok s') ∧
    (s'.pc 0).proc = none ∧ (s'.kernel.queue .zero).front = some 0 := by
  obtain ⟨k, s, hk, hr, hP⟩ := bootRun_any wrongPassword
    (fun x => decide (x.2.Free ∧ x.2.kernel.isLocked = false ∧ x.2.kernel.isUnlocked = false ∧
      isThere x.2.kernel .zero 0 = .ok true ∧ (x.2.kernel.proc 0).lt = 5)) (by decide)
  obtain ⟨hfree, hl, hu, hon, hlt⟩ := of_decide_eq_true hP
  obtain ⟨k', s', hk', hr', hP'⟩ := bootRun_any (wrongPassword ++ [.sched 0, .sched 0])
    (fun x => decide ((x.2.pc 0).proc = none ∧ (x.2.kernel.queue .zero).front = some 0))
    (by decide)
  obtain ⟨hproc, hfront⟩ := of_decide_eq_true hP'
  rw [hk] at hk'
  cases hk'
  refine ⟨k, s, s', hk, hr, hfree, hl, hu, fun hprompt => ?_, hr', hproc, hfront⟩
  have hbound := hprompt .zero 0 ((isThere_on hon).1 rfl)
  rw [hlt] at hbound
  exact absurd hbound (by decide)

end Xv6.Mlfq
