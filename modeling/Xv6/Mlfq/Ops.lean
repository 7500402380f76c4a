import Xv6.Mlfq.Queue

/-!
# What the kernel functions do to processes and queues

`Woke k k'`: from `k` to `k'` some sleeping processes became runnable, and apart from
queue places and priorities nothing happened to any process. This holds whatever the
queues look like.

`Queues k ls`: the queues are well formed lists and every process knows the level of
its queue. `WellFormed` hides the lists.

`Kernel.globals` is what no queue operation touches.

* `wakeup1_woke`, `wakeup1_globals`, `wakeup1_queues`
* `pushLzero_queues`, `boostPr_queues`, `demote_queues`, `releaseLock_queues`
-/

namespace Xv6.Mlfq

variable {k k' k'' : Kernel} {ls ls' : Lv → List Slot} {que : Lv} {p : Slot} {chan : Option Chan}

/-! ## States -/

structure Woke (k k' : Kernel) : Prop where
  state : ∀ x, (k'.proc x).state = (k.proc x).state ∨
    (k.proc x).state = .sleeping ∧ (k'.proc x).state = .runnable
  chan : ∀ x, (k'.proc x).chan = (k.proc x).chan
  parent : ∀ x, (k'.proc x).parent = (k.proc x).parent
  initproc : k'.initproc = k.initproc

theorem Woke.refl (k : Kernel) : Woke k k := ⟨fun _ => .inl rfl, fun _ => rfl, fun _ => rfl, rfl⟩

theorem Woke.trans (h : Woke k k') (h' : Woke k' k'') : Woke k k'' where
  state x := by
    rcases h'.state x with h1 | ⟨h1, h2⟩
    · rw [h1]; exact h.state x
    · right
      rcases h.state x with h3 | ⟨-, h3⟩
      · exact ⟨h3 ▸ h1, h2⟩
      · rw [h3] at h1; cases h1
  chan x := (h'.chan x).trans (h.chan x)
  parent x := (h'.parent x).trans (h.parent x)
  initproc := h'.initproc.trans h.initproc

theorem Woke.of_core (h : k'.core = k.core) : Woke k k' :=
  ⟨fun x => .inl (core_state h x), core_chan h, fun x => congrArg (fun c => (c.proc x).parent) h,
    congrArg (fun c => c.initproc) h⟩

/-- A change of `pr`, `lt`, `ql` and `next` only. -/
theorem Woke.of_upd {f : Proc → Proc} (hs : ∀ x, (f x).state = x.state) (hc : ∀ x, (f x).chan = x.chan)
    (hp : ∀ x, (f x).parent = x.parent) : Woke k (k.upd p f) := by
  refine ⟨fun x => .inl ?_, fun x => ?_, fun x => ?_, rfl⟩ <;> rw [upd_proc] <;> split <;> simp [*]

theorem Woke.sleeping (h : Woke k k') {x : Slot} (hx : (k'.proc x).state = .sleeping) :
    (k.proc x).state = .sleeping := by
  rcases h.state x with h1 | ⟨h1, -⟩
  · rw [← h1]; exact hx
  · exact h1

/-- Only sleeping and runnable processes are concerned. -/
theorem Woke.state_iff (h : Woke k k') {x : Slot} {st : ProcState} (h1 : st ≠ .sleeping)
    (h2 : st ≠ .runnable) : (k'.proc x).state = st ↔ (k.proc x).state = st := by
  rcases h.state x with h3 | ⟨h3, h4⟩
  · rw [h3]
  · rw [h3, h4]
    exact ⟨fun hx => absurd hx.symm h2, fun hx => absurd hx.symm h1⟩

theorem pushLzero_woke (h : pushLzero k p = .ok k') : Woke k k' := by
  have h1 : Woke k (k.upd p fun x => { x with lt := 0, ql := 0, pr := 3, next := none }) :=
    .of_upd (fun _ => rfl) (fun _ => rfl) fun _ => rfl
  exact h1.trans (.of_core (push_core h))

theorem boostLoop_woke {fuel : ℕ} {a : Option Slot} (h : boostLoop que fuel k a = .ok k') :
    Woke k k' := by
  induction fuel generalizing k a with
  | zero =>
    cases a with
    | none => cases h; exact .refl _
    | some p => cases h
  | succ fuel ih =>
    cases a with
    | none => cases h; exact .refl _
    | some p =>
      simp only [boostLoop, bind_ok] at h
      obtain ⟨k₁, h1, k₂, h2, h3⟩ := h
      exact (Woke.of_core (del_core h1)).trans ((pushLzero_woke h2).trans (ih h3))

theorem boostPr_woke (h : boostPr k = .ok k') : Woke k k' := by
  simp only [boostPr, bind_ok] at h
  obtain ⟨k₁, h1, k₂, h2, h3⟩ := h
  cases h3
  have hw : Woke k k₂ := (boostLoop_woke h1).trans (boostLoop_woke h2)
  exact ⟨hw.state, hw.chan, hw.parent, hw.initproc⟩

/-- What the body of `wakeup1` does with a sleeping process, by the queue it is on. -/
theorem wakeSlot_cases (h : wakeSlot chan k p = .ok k') :
    k' = k ∧ ¬ ((k.proc p).state = .sleeping ∧ (k.proc p).chan = chan) ∨
    ((k.proc p).state = .sleeping ∧ (k.proc p).chan = chan) ∧
      ∃ k₁, k₁ = (k.upd p fun x => { x with state := .runnable }) ∧
        ((isThere k₁ .zero p = .ok true ∧ ∃ k₂, del k₁ .zero p = .ok k₂ ∧ push k₂ .zero p = .ok k') ∨
          isThere k₁ .zero p = .ok false ∧
          ((isThere k₁ .one p = .ok true ∧ ∃ k₂, del k₁ .one p = .ok k₂ ∧ push k₂ .one p = .ok k') ∨
            isThere k₁ .one p = .ok false ∧
            ((isThere k₁ .two p = .ok true ∧ ∃ k₂, del k₁ .one p = .ok k₂ ∧ push k₂ .two p = .ok k') ∨
              isThere k₁ .two p = .ok false ∧ pushLzero k₁ p = .ok k'))) := by
  unfold wakeSlot at h
  split at h
  · rename_i hsl
    refine .inr ⟨hsl, _, rfl, ?_⟩
    simp only [bind_ok] at h
    obtain ⟨b0, h0, h⟩ := h
    cases b0 with
    | true =>
      simp only [if_true, bind_ok] at h
      exact .inl ⟨h0, h⟩
    | false =>
      simp only [Bool.false_eq_true, if_false, bind_ok] at h
      obtain ⟨b1, h1, h⟩ := h
      refine .inr ⟨h0, ?_⟩
      cases b1 with
      | true =>
        simp only [if_true, bind_ok] at h
        exact .inl ⟨h1, h⟩
      | false =>
        simp only [Bool.false_eq_true, if_false, bind_ok] at h
        obtain ⟨b2, h2, h⟩ := h
        refine .inr ⟨h1, ?_⟩
        cases b2 with
        | true =>
          simp only [if_true, bind_ok] at h
          exact .inl ⟨h2, h⟩
        | false =>
          simp only [Bool.false_eq_true, if_false] at h
          exact .inr ⟨h2, h⟩
  · rename_i hsl
    cases h
    exact .inl ⟨rfl, hsl⟩

theorem wakeSlot_woke (h : wakeSlot chan k p = .ok k') : Woke k k' := by
  rcases wakeSlot_cases h with ⟨rfl, -⟩ | ⟨⟨hs, -⟩, k₁, rfl, hq⟩
  · exact .refl _
  · have h1 : Woke k (k.upd p fun x => { x with state := .runnable }) := by
      refine ⟨fun x => ?_, fun x => ?_, fun x => ?_, rfl⟩ <;> rw [upd_proc]
      · split
        · rename_i hx; rw [hx]; exact .inr ⟨hs, rfl⟩
        · exact .inl rfl
      · split <;> rfl
      · split <;> rfl
    refine h1.trans ?_
    rcases hq with ⟨-, k₂, h2, h3⟩ | ⟨-, ⟨-, k₂, h2, h3⟩ | ⟨-, ⟨-, k₂, h2, h3⟩ | ⟨-, h2⟩⟩⟩
    · exact (Woke.of_core (del_core h2)).trans (.of_core (push_core h3))
    · exact (Woke.of_core (del_core h2)).trans (.of_core (push_core h3))
    · exact (Woke.of_core (del_core h2)).trans (.of_core (push_core h3))
    · exact pushLzero_woke h2

theorem wakeup1_woke (h : wakeup1 k chan = .ok k') : Woke k k' :=
  foldlM_ok (P := Woke k) (fun _ _ _ _ hw hb => hw.trans (wakeSlot_woke hb)) (.refl k) h

/-! ## Globals -/

/-- `ticks`, the flags of the scheduler lock and its owner. -/
def Kernel.globals (k : Kernel) : ℕ × Bool × Bool × Option Slot := (k.ticks, k.isLocked, k.isUnlocked, k.me)

theorem core_globals (h : k'.core = k.core) : k'.globals = k.globals := (congrArg Kernel.globals h :)

theorem globals_ticks (h : k'.globals = k.globals) : k'.ticks = k.ticks := congrArg Prod.fst h

theorem globals_flags (h : k'.globals = k.globals) :
    k'.isLocked = k.isLocked ∧ k'.isUnlocked = k.isUnlocked :=
  ⟨congrArg (fun g => g.2.1) h, congrArg (fun g => g.2.2.1) h⟩

theorem globals_me (h : k'.globals = k.globals) : k'.me = k.me := congrArg (fun g => g.2.2.2) h

theorem wakeSlot_globals (h : wakeSlot chan k p = .ok k') : k'.globals = k.globals := by
  rcases wakeSlot_cases h with ⟨rfl, -⟩ | ⟨-, k₁, rfl, hq⟩
  · rfl
  · rcases hq with ⟨-, k₂, h2, h3⟩ | ⟨-, ⟨-, k₂, h2, h3⟩ | ⟨-, ⟨-, k₂, h2, h3⟩ | ⟨-, h2⟩⟩⟩
    · exact (core_globals ((push_core h3).trans (del_core h2)) :)
    · exact (core_globals ((push_core h3).trans (del_core h2)) :)
    · exact (core_globals ((push_core h3).trans (del_core h2)) :)
    · exact (core_globals (push_core h2) :)

theorem wakeup1_globals (h : wakeup1 k chan = .ok k') : k'.globals = k.globals :=
  foldlM_ok (P := fun b : Kernel => b.globals = k.globals)
    (fun _ _ _ _ hb hs => (wakeSlot_globals hs).trans hb) rfl h

theorem exit_globals (h : exit k p = .ok k') : k'.globals = k.globals := by
  unfold exit at h
  split at h
  · cases h
  · simp only [bind_ok] at h
    obtain ⟨k₁, h1, k₂, h2, h3⟩ := h
    cases h3
    have hloop : k₂.globals = k.globals := by
      refine foldlM_ok (P := fun b : Kernel => b.globals = k.globals) (fun b q b' _ hb hr => ?_)
        (wakeup1_globals h1) h2
      unfold reparent at hr
      split at hr
      · dsimp only at hr
        split at hr
        · exact (wakeup1_globals hr).trans hb
        · cases hr
          exact hb
      · cases hr
        exact hb
    exact hloop

theorem forkReady_globals {np : Slot} (h : forkReady k p np = .ok k') : k'.globals = k.globals :=
  (core_globals (push_core h) :)

theorem allocproc_globals {np : Slot} (h : allocproc k = some (np, k')) : k'.globals = k.globals := by
  unfold allocproc at h
  split at h
  · cases h
  · cases h
    rfl

theorem kill_globals (k : Kernel) (pid : ℕ) : (kill k pid).globals = k.globals := by
  unfold kill
  split
  · rfl
  · rfl

theorem setPriority_globals {pid : ℕ} {pr : ℤ} (h : setPriority k pid pr = .ok k') :
    k'.globals = k.globals := by
  unfold setPriority at h
  split at h
  · cases h
  · split at h
    · cases h
      rfl
    · cases h
      rfl

theorem demote_globals {down : Lv} (h : demote k que down p = .ok k') : k'.globals = k.globals := by
  unfold demote at h
  dsimp only at h
  split at h
  · simp only [bind_ok] at h
    obtain ⟨k₁, hdel, k₂, hpush, hk⟩ := h
    cases hk
    have h1 := core_globals (del_core hdel)
    have h2 := core_globals (push_core hpush)
    exact (h2.trans h1 :)
  · cases h
    rfl

theorem promote_globals (k : Kernel) (p : Slot) : (promote k p).globals = k.globals := by
  unfold promote
  dsimp only
  split
  · rfl
  · rfl

/-! ## Queues -/

structure Queues (k : Kernel) (ls : Lv → List Slot) : Prop extends Links k ls where
  level : ∀ q p, p ∈ ls q → (k.proc p).ql = q.level

/-- Somewhere on the queues. -/
def Linked (ls : Lv → List Slot) (p : Slot) : Prop := ∃ q, p ∈ ls q

/-- Who comes to a queue has a fresh quantum there, and nobody's quantum changes otherwise. -/
structure Timed (k : Kernel) (ls : Lv → List Slot) (k' : Kernel) (ls' : Lv → List Slot) : Prop where
  lt : ∀ q x, x ∈ ls' q → (k'.proc x).lt = 0 ∨ x ∈ ls q ∧ (k'.proc x).lt = (k.proc x).lt
  pr : (∀ x, (k.proc x).pr ≤ 3) → ∀ x, (k'.proc x).pr ≤ 3
  tq : ∀ q, (k'.queue q).tq = (k.queue q).tq

/-- The processes move between queues: nobody gets lost, and who becomes runnable is on
a queue. -/
structure Moved (k : Kernel) (ls : Lv → List Slot) (k' : Kernel) (ls' : Lv → List Slot) : Prop
    extends Timed k ls k' ls' where
  kept : ∀ x, Linked ls x → Linked ls' x
  ready : ∀ x, (k'.proc x).state = .runnable → (k.proc x).state = .runnable ∨ Linked ls' x

theorem Timed.refl (k : Kernel) (ls : Lv → List Slot) : Timed k ls k ls :=
  ⟨fun _ _ h => .inr ⟨h, rfl⟩, fun h => h, fun _ => rfl⟩

theorem Timed.trans {ls'' : Lv → List Slot} (h : Timed k ls k' ls') (h' : Timed k' ls' k'' ls'') :
    Timed k ls k'' ls'' where
  lt q x hx := by
    rcases h'.lt q x hx with h0 | ⟨hx', h1⟩
    · exact .inl h0
    · rw [h1]; exact h.lt q x hx'
  pr hpr := h'.pr (h.pr hpr)
  tq q := (h'.tq q).trans (h.tq q)

/-- One process changes, but neither its time nor its priority. -/
theorem Timed.upd {f : Proc → Proc} (hlt : ∀ x, (f x).lt = x.lt) (hpr : ∀ x, (f x).pr = x.pr) :
    Timed k ls (k.upd p f) ls where
  lt q x hx := by
    refine .inr ⟨hx, ?_⟩
    rw [upd_proc]; split <;> simp [hlt]
  pr h x := by
    rw [upd_proc]; split <;> simp [hpr, h]
  tq _ := rfl

theorem Moved.refl (k : Kernel) (ls : Lv → List Slot) : Moved k ls k ls :=
  ⟨.refl k ls, fun _ h => h, fun _ h => .inl h⟩

theorem Moved.trans {ls'' : Lv → List Slot} (h : Moved k ls k' ls') (h' : Moved k' ls' k'' ls'') :
    Moved k ls k'' ls'' where
  toTimed := h.toTimed.trans h'.toTimed
  kept x hx := h'.kept x (h.kept x hx)
  ready x hx := by
    rcases h'.ready x hx with hr | hr
    · rcases h.ready x hr with hr | hr
      · exact .inl hr
      · exact .inr (h'.kept x hr)
    · exact .inr hr

/-- Nobody changes. -/
theorem Moved.of_proc (hp : k'.proc = k.proc) (htq : ∀ q, (k'.queue q).tq = (k.queue q).tq) :
    Moved k ls k' ls :=
  ⟨⟨fun _ _ h => .inr ⟨h, by rw [hp]⟩, fun h => by rw [hp]; exact h, htq⟩, fun _ h => h,
    fun _ h => .inl (by rw [← hp]; exact h)⟩

/-- One process changes, and does not become runnable off the queues. -/
theorem Moved.upd {f : Proc → Proc} (hs : (f (k.proc p)).state = .runnable →
      (k.proc p).state = .runnable ∨ Linked ls p)
    (hlt : ∀ x, (f x).lt = x.lt) (hpr : ∀ x, (f x).pr = x.pr) : Moved k ls (k.upd p f) ls := by
  refine ⟨.upd hlt hpr, fun _ h => h, fun x hx => ?_⟩
  rw [upd_proc] at hx
  split at hx
  · rename_i hxp; subst hxp; exact hs hx
  · exact .inl hx

/-- The queues are well formed lists without a common process, and every process on
one of them has its level. -/
def WellFormed (k : Kernel) : Prop := ∃ ls, Queues k ls

/-- Whoever is on a queue stays there. -/
def Grows (ls ls' : Lv → List Slot) : Prop := ∀ q p, p ∈ ls q → p ∈ ls' q

theorem Grows.refl (ls : Lv → List Slot) : Grows ls ls := fun _ _ h => h

theorem Grows.trans {ls'' : Lv → List Slot} (h : Grows ls ls') (h' : Grows ls' ls'') : Grows ls ls'' :=
  fun q p hp => h' q p (h q p hp)

theorem Queues.congr (h : Queues k ls) (hn : k'.next = k.next) (hq : k'.queue = k.queue)
    (hl : ∀ x, (k'.proc x).ql = (k.proc x).ql) : Queues k' ls :=
  ⟨h.toLinks.congr hn hq, fun q p hp => (hl p).trans (h.level q p hp)⟩

theorem upd_ql {f : Proc → Proc} (hf : ∀ x, (f x).ql = x.ql) (x : Slot) :
    ((k.upd p f).proc x).ql = (k.proc x).ql := by
  rw [upd_proc]; split <;> simp [hf]

/-- A change of one process that keeps its place and level. -/
theorem Queues.upd (h : Queues k ls) {f : Proc → Proc} (hn : ∀ x, (f x).next = x.next)
    (hl : ∀ x, (f x).ql = x.ql) : Queues (k.upd p f) ls :=
  h.congr (upd_next hn) rfl (upd_ql hl)

/-- A process on no queue may change as it likes. -/
theorem Links.upd_free (h : Links k ls) (hp : ∀ q, p ∉ ls q) (f : Proc → Proc) :
    Links (k.upd p f) ls := by
  refine ⟨fun q => (h.queue q).congr fun x hx => ?_, h.disjoint⟩
  have hxp : x ≠ p := by rintro rfl; exact hp q hx
  simp [Kernel.next, upd_proc, hxp]

/-- `push` to the queue of the process's level. -/
theorem push_queues (h : Queues k ls) (hp : ∀ q, p ∉ ls q) (hl : (k.proc p).ql = que.level)
    (hpush : push k que p = .ok k') : Queues k' (Function.update ls que (ls que ++ [p])) where
  toLinks := push_links h.toLinks hp hpush
  level q x hx := by
    rw [core_ql (push_core hpush)]
    by_cases hq : q = que
    · subst hq
      rw [Function.update_self, List.mem_append, List.mem_singleton] at hx
      rcases hx with hx | rfl
      · exact h.level q x hx
      · exact hl
    · rw [Function.update_of_ne hq] at hx
      exact h.level q x hx

/-- With a fresh quantum, at the end of L0. -/
theorem pushLzero_links (h : Links k ls) (hp : ∀ q, p ∉ ls q) (hpush : pushLzero k p = .ok k') :
    Links k' (Function.update ls .zero (ls .zero ++ [p])) :=
  push_links (h.upd_free hp _) hp hpush

theorem pushLzero_queues (h : Queues k ls) (hp : ∀ q, p ∉ ls q) (hpush : pushLzero k p = .ok k') :
    Queues k' (Function.update ls .zero (ls .zero ++ [p])) := by
  refine push_queues ⟨h.toLinks.upd_free hp _, fun q x hx => ?_⟩ hp ?_ hpush
  · have hxp : x ≠ p := by rintro rfl; exact hp q hx
    rw [upd_proc, if_neg hxp]
    exact h.level q x hx
  · rw [upd_proc, if_pos rfl]; rfl

theorem mem_push {q : Lv} {x : Slot} :
    x ∈ Function.update ls que (ls que ++ [p]) q ↔ x ∈ ls q ∨ q = que ∧ x = p := by
  by_cases hq : q = que
  · subst hq; simp
  · simp [hq]

theorem grows_push (ls : Lv → List Slot) (que : Lv) (p : Slot) :
    Grows ls (Function.update ls que (ls que ++ [p])) := fun _ _ hx => mem_push.2 (.inl hx)

/-- A process gets a fresh quantum and goes to the end of L0. -/
theorem pushLzero_moved (hpush : pushLzero k p = .ok k') :
    Moved k ls k' (Function.update ls .zero (ls .zero ++ [p])) where
  kept x := by rintro ⟨q, hx⟩; exact ⟨q, mem_push.2 (.inl hx)⟩
  ready x hx := by
    rw [core_state (push_core hpush), upd_proc] at hx
    split at hx <;> exact .inl hx
  lt q x hx := by
    rw [core_lt (push_core hpush), upd_proc]
    split
    · exact .inl rfl
    · rename_i hxp; exact .inr ⟨(mem_push.1 hx).resolve_right fun h => hxp h.2, rfl⟩
  pr h x := by
    rw [core_pr (push_core hpush), upd_proc]
    split
    · rfl
    · exact h x
  tq q := push_tq hpush q

theorem del_queues (h : Queues k ls) (hp : p ∈ ls que) (hdel : del k que p = .ok k') :
    Queues k' (Function.update ls que ((ls que).erase p)) where
  toLinks := del_links h.toLinks hp hdel
  level q x hx := by
    rw [core_ql (del_core hdel)]
    by_cases hq : q = que
    · subst hq
      rw [Function.update_self] at hx
      exact h.level q x (List.mem_of_mem_erase hx)
    · rw [Function.update_of_ne hq] at hx
      exact h.level q x hx

/-- `del` whether the process is on the queue or not. -/
theorem del_wellFormed (h : Queues k ls) (hdel : del k que p = .ok k') : WellFormed k' := by
  by_cases hp : p ∈ ls que
  · exact ⟨_, del_queues h hp hdel⟩
  · rw [del_notMem h.toLinks hp hdel]; exact ⟨ls, h⟩

/-- Off its queue, a process is on none. -/
theorem Links.erase_free (h : Links k ls) (hp : p ∈ ls que) (q : Lv) :
    p ∉ Function.update ls que ((ls que).erase p) q := by
  by_cases hq : q = que
  · subst hq
    rw [Function.update_self, (h.queue q).nodup.mem_erase_iff]
    simp
  · rw [Function.update_of_ne hq]
    exact fun hx => hq (h.disjoint q que p hx hp)

theorem Links.mem_erase (h : Links k ls) (hp : p ∈ ls que) {q : Lv} {x : Slot} :
    x ∈ Function.update ls que ((ls que).erase p) q ↔ x ∈ ls q ∧ x ≠ p := by
  constructor
  · intro hx
    have hxp : x ≠ p := by rintro rfl; exact h.erase_free hp q hx
    by_cases hq : q = que
    · subst hq
      rw [Function.update_self] at hx
      exact ⟨List.mem_of_mem_erase hx, hxp⟩
    · rw [Function.update_of_ne hq] at hx
      exact ⟨hx, hxp⟩
  · rintro ⟨hx, hxp⟩
    by_cases hq : q = que
    · subst hq
      rw [Function.update_self]
      exact (List.mem_erase_of_ne hxp).2 hx
    · rwa [Function.update_of_ne hq]

/-- From any queue to the end of L0. -/
theorem shift_moved (h : Links k ls) (hp : p ∈ ls que) (hdel : del k que p = .ok k')
    (hpush : pushLzero k' p = .ok k'') (ls' : Lv → List Slot)
    (hls : ls' = Function.update ls que ((ls que).erase p)) :
    Moved k ls k'' (Function.update ls' .zero (ls' .zero ++ [p])) := by
  have hm : Moved k' ls' k'' _ := pushLzero_moved hpush
  have hmem : ∀ {q x}, x ∈ ls' q ↔ x ∈ ls q ∧ x ≠ p := by rw [hls]; exact h.mem_erase hp
  refine ⟨⟨fun q x hx => ?_, fun hpr => ?_, fun q => ?_⟩, ?_, fun x hx => ?_⟩
  · rcases hm.lt q x hx with h0 | ⟨hx', h1⟩
    · exact .inl h0
    · exact .inr ⟨(hmem.1 hx').1, h1.trans (core_lt (del_core hdel) x)⟩
  · exact hm.pr fun x => by rw [core_pr (del_core hdel)]; exact hpr x
  · exact (hm.tq q).trans (del_tq hdel q)
  · rintro x ⟨q, hx⟩
    by_cases hxp : x = p
    · exact ⟨.zero, mem_push.2 (.inr ⟨rfl, hxp⟩)⟩
    · exact ⟨q, mem_push.2 (.inl (hmem.2 ⟨hx, hxp⟩))⟩
  · rcases hm.ready x hx with hr | hr
    · exact .inl ((core_state (del_core hdel) x).symm.trans hr)
    · exact .inr hr

/-- To the end of its own queue. -/
theorem requeue_queues (h : Queues k ls) (hp : p ∈ ls que) (hdel : del k que p = .ok k')
    (hpush : push k' que p = .ok k'') :
    Queues k'' (Function.update ls que ((ls que).erase p ++ [p])) := by
  have hl : (k'.proc p).ql = que.level := by rw [core_ql (del_core hdel)]; exact h.level que p hp
  have := push_queues (del_queues h hp hdel) (h.toLinks.erase_free hp) hl hpush
  rwa [Function.update_self, Function.update_idem] at this

theorem mem_requeue (hp : p ∈ ls que) {q : Lv} {x : Slot} :
    x ∈ Function.update ls que ((ls que).erase p ++ [p]) q ↔ x ∈ ls q := by
  by_cases hq : q = que
  · subst hq
    rw [Function.update_self, List.mem_append, List.mem_singleton]
    constructor
    · rintro (hx | rfl)
      · exact List.mem_of_mem_erase hx
      · exact hp
    · intro hx
      by_cases hxp : x = p
      · exact .inr hxp
      · exact .inl ((List.mem_erase_of_ne hxp).2 hx)
  · rw [Function.update_of_ne hq]

theorem requeue_moved (hp : p ∈ ls que) (hdel : del k que p = .ok k') (hpush : push k' que p = .ok k'') :
    Moved k ls k'' (Function.update ls que ((ls que).erase p ++ [p])) := by
  have hcore : k''.core = k.core := (push_core hpush).trans (del_core hdel)
  refine ⟨⟨fun q x hx => ?_, fun h x => ?_, fun q => ?_⟩, fun x hx => ?_, fun x hx => ?_⟩
  · exact .inr ⟨(mem_requeue hp).1 hx, core_lt hcore x⟩
  · rw [core_pr hcore]; exact h x
  · exact (push_tq hpush q).trans (del_tq hdel q)
  · obtain ⟨q, hx⟩ := hx; exact ⟨q, (mem_requeue hp).2 hx⟩
  · exact .inl ((core_state hcore x).symm.trans hx)

theorem grows_requeue (hp : p ∈ ls que) :
    Grows ls (Function.update ls que ((ls que).erase p ++ [p])) := fun _ _ hx => (mem_requeue hp).2 hx

/-- What waking does to the queues: nothing leaves its queue, L2 stays as it is, and
nobody gets lost. -/
def Requeued (k : Kernel) (ls : Lv → List Slot) (k' : Kernel) : Prop :=
  ∃ ls', Queues k' ls' ∧ Grows ls ls' ∧ ls' .two = ls .two ∧ Moved k ls k' ls'

theorem Requeued.refl (h : Queues k ls) : Requeued k ls k := ⟨ls, h, .refl ls, rfl, .refl k ls⟩

theorem wakeSlot_queues (h : Queues k ls)
    (hcalm : (k.proc p).state = .sleeping → (k.proc p).chan = chan → p ∉ ls .two)
    (hw : wakeSlot chan k p = .ok k') : Requeued k ls k' := by
  rcases wakeSlot_cases hw with ⟨rfl, -⟩ | ⟨⟨hs, hc⟩, k₁, rfl, hq⟩
  · exact .refl h
  · have h1 : Queues (k.upd p fun x => { x with state := .runnable }) ls :=
      h.upd (fun _ => rfl) fun _ => rfl
    have htwo : p ∉ ls .two := hcalm hs hc
    -- it is enough to know where `p` ends up
    have hmoved : ∀ {ls'}, Moved (k.upd p fun x => { x with state := .runnable }) ls k' ls' →
        Linked ls' p → Moved k ls k' ls' := by
      intro ls' hm hp
      refine ⟨Timed.trans (.upd (f := fun x => { x with state := .runnable }) (fun _ => rfl)
        fun _ => rfl) hm.toTimed, hm.kept, fun x hx => ?_⟩
      by_cases hxp : x = p
      · rw [hxp]; exact .inr hp
      · have := hm.ready x hx
        rwa [upd_proc_ne k hxp] at this
    rcases hq with ⟨h0, k₂, h2, h3⟩ | ⟨h0, ⟨ho, k₂, h2, h3⟩ | ⟨ho, ⟨ht, k₂, h2, h3⟩ | ⟨ht, h2⟩⟩⟩
    · have hp := (isThere_iff h1.toLinks h0).1 rfl
      refine ⟨_, requeue_queues h1 hp h2 h3, grows_requeue hp, rfl, hmoved (requeue_moved hp h2 h3) ?_⟩
      exact ⟨.zero, (mem_requeue hp).2 hp⟩
    · have hp := (isThere_iff h1.toLinks ho).1 rfl
      refine ⟨_, requeue_queues h1 hp h2 h3, grows_requeue hp, rfl, hmoved (requeue_moved hp h2 h3) ?_⟩
      exact ⟨.one, (mem_requeue hp).2 hp⟩
    · exact absurd ((isThere_iff h1.toLinks ht).1 rfl) htwo
    · have hfree : ∀ q, p ∉ ls q := by
        intro q hp
        cases q with
        | zero => have := (isThere_iff h1.toLinks h0).2 hp; cases this
        | one => have := (isThere_iff h1.toLinks ho).2 hp; cases this
        | two => exact htwo hp
      refine ⟨_, pushLzero_queues h1 hfree h2, grows_push _ _ _, rfl, hmoved (pushLzero_moved h2) ?_⟩
      exact ⟨.zero, mem_push.2 (.inr ⟨rfl, rfl⟩)⟩

/-- Nobody who sleeps on `chan` is on L2. -/
def CalmOn (k : Kernel) (ls : Lv → List Slot) (chan : Option Chan) : Prop :=
  ∀ x, (k.proc x).state = .sleeping → (k.proc x).chan = chan → x ∉ ls .two

theorem CalmOn.mono (h : CalmOn k ls chan) (hw : Woke k k') (h2 : ls' .two = ls .two) :
    CalmOn k' ls' chan := by
  intro x hs hc
  rw [h2]
  exact h x (hw.sleeping hs) (by rw [← hw.chan]; exact hc)

/-- **`wakeup1` keeps the queues**, if nobody whom it wakes is on L2. -/
theorem wakeup1_queues (h : Queues k ls) (hcalm : CalmOn k ls chan) (hw : wakeup1 k chan = .ok k') :
    Requeued k ls k' := by
  have hP := foldlM_ok (P := fun b => Woke k b ∧ Requeued k ls b) (f := wakeSlot chan)
    (l := List.finRange NPROC) ?_ ⟨.refl k, .refl h⟩ hw
  · exact hP.2
  · rintro b p b' - ⟨hwk, ls', hq, hg, h2, hm⟩ hb
    refine ⟨hwk.trans (wakeSlot_woke hb), ?_⟩
    obtain ⟨ls'', hq', hg', h2', hm'⟩ := wakeSlot_queues hq (hcalm.mono hwk h2 p) hb
    exact ⟨ls'', hq', hg.trans hg', h2'.trans h2, hm.trans hm'⟩

/-- The new rear has no successor. -/
theorem push_next_self (h : push k que p = .ok k') : (k'.proc p).next = none := by
  unfold push at h
  dsimp only at h
  split at h
  · cases h; exact congrFun (setNext_next _ _ _) p |>.trans (by simp)
  · split at h
    · cases h
    · cases h; exact congrFun (setNext_next _ _ _) p |>.trans (by simp)

/-- A loop of `boostPr` ends after one round: the process it moved has no successor in
its new place. -/
theorem boostLoop_queues (h : Queues k ls) {fuel : ℕ}
    (hb : boostLoop que fuel k (k.queue que).front = .ok k') :
    ∃ ls', Queues k' ls' ∧ Moved k ls k' ls' := by
  have hf := (h.queue que).chain.head
  cases hl : ls que with
  | nil => rw [hf, hl] at hb; cases fuel <;> (cases hb; exact ⟨ls, h, .refl k ls⟩)
  | cons p l =>
    rw [hf, hl] at hb
    cases fuel with
    | zero => cases hb
    | succ fuel =>
      simp only [List.head?_cons, boostLoop, bind_ok] at hb
      obtain ⟨k₁, h1, k₂, h2, h3⟩ := hb
      rw [push_next_self h2] at h3
      have hp : p ∈ ls que := by rw [hl]; simp
      have hq := pushLzero_queues (del_queues h hp h1) (h.toLinks.erase_free hp) h2
      have hm := shift_moved h.toLinks hp h1 h2 _ rfl
      cases fuel <;> (cases h3; exact ⟨_, hq, hm⟩)

theorem boostPr_queues (h : Queues k ls) (hb : boostPr k = .ok k') :
    ∃ ls', Queues k' ls' ∧ Moved k ls k' ls' := by
  simp only [boostPr, bind_ok] at hb
  obtain ⟨k₁, h1, k₂, h2, h3⟩ := hb
  cases h3
  obtain ⟨ls₁, hq₁, hm₁⟩ := boostLoop_queues h h1
  obtain ⟨ls₂, hq₂, hm₂⟩ := boostLoop_queues hq₁ h2
  refine ⟨ls₂, hq₂.congr rfl rfl fun _ => rfl, hm₁.trans (hm₂.trans ?_)⟩
  exact .of_proc rfl fun _ => rfl

/-- From one queue to the end of another, with a fresh quantum and the next level. -/
theorem down_queues {down : Lv} {k₁ k₂ k₃ : Kernel} (h : Queues k ls) (hp : p ∈ ls que)
    (hlv : down.level = que.level + 1) (hdel : del k que p = .ok k₁)
    (hpush : push (k₁.upd p fun x => { x with lt := 0 }) down p = .ok k₂)
    (hk : k₃ = k₂.upd p fun x => { x with ql := x.ql + 1 }) :
    ∃ ls', Queues k₃ ls' ∧ Moved k ls k₃ ls' ∧ (k₃.proc p).lt = 0 := by
  have h2 := del_queues h hp hdel
  have hfree := h.toLinks.erase_free hp
  have h3 := push_links (h2.upd (f := fun x => { x with lt := 0 }) (p := p)
    (fun _ => rfl) fun _ => rfl).toLinks hfree hpush
  -- everybody but `p` keeps what it has
  have hproc : ∀ x, x ≠ p → (k₃.proc x).core = (k.proc x).core := by
    intro x hxp
    rw [hk, upd_proc_ne k₂ hxp, core_proc (push_core hpush), upd_proc_ne k₁ hxp, core_proc (del_core hdel)]
  have hself : (k₃.proc p).core = { (k.proc p).core with lt := 0, ql := (k.proc p).ql + 1 } := by
    have h4 : (k₂.proc p).core = { (k.proc p).core with lt := 0 } := by
      rw [core_proc (push_core hpush), upd_proc_self]
      show { (k₁.proc p).core with lt := 0 } = _
      rw [core_proc (del_core hdel)]
    rw [hk, upd_proc_self]
    show { (k₂.proc p).core with ql := (k₂.proc p).core.ql + 1 } = _
    rw [h4]
    rfl
  have hmem : ∀ {q x}, x ∈ Function.update (Function.update ls que ((ls que).erase p)) down
      (Function.update ls que ((ls que).erase p) down ++ [p]) q → x ≠ p → x ∈ ls q := by
    intro q x hx hxp
    have hx := (mem_push.1 hx).resolve_right fun h => hxp h.2
    exact ((h.toLinks.mem_erase hp).1 hx).1
  refine ⟨_, ⟨h3.congr (by rw [hk]; exact upd_next fun _ => rfl) (by rw [hk]; rfl), fun q x hx => ?_⟩,
    ⟨⟨fun q x hx => ?_, fun hpr x => ?_, fun q => ?_⟩, ?_, fun x hx => ?_⟩, (congrArg Proc.lt hself :)⟩
  · by_cases hxp : x = p
    · subst hxp
      have hq : q = down := by
        by_contra hq
        rw [Function.update_of_ne hq] at hx
        exact hfree q hx
      have hql : (k₃.proc x).ql = (k.proc x).ql + 1 := (congrArg Proc.ql hself :)
      rw [hq, hlv, ← h.level que x hp, hql]
    · have hql : (k₃.proc x).ql = (k.proc x).ql := (congrArg Proc.ql (hproc x hxp) :)
      rw [hql]
      exact h.level q x (hmem hx hxp)
  · by_cases hxp : x = p
    · subst hxp; exact .inl (congrArg Proc.lt hself :)
    · exact .inr ⟨hmem hx hxp, (congrArg Proc.lt (hproc x hxp) :)⟩
  · by_cases hxp : x = p
    · subst hxp; exact (congrArg Proc.pr hself :).trans_le (hpr x)
    · exact (congrArg Proc.pr (hproc x hxp) :).trans_le (hpr x)
  · rw [hk]
    exact (push_tq hpush q).trans (del_tq hdel q)
  · rintro x ⟨q, hx⟩
    by_cases hxp : x = p
    · exact ⟨down, mem_push.2 (.inr ⟨rfl, hxp⟩)⟩
    · exact ⟨q, mem_push.2 (.inl ((h.toLinks.mem_erase hp).2 ⟨hx, hxp⟩))⟩
  · by_cases hxp : x = p
    · subst hxp
      exact .inl ((congrArg Proc.state hself :).symm.trans hx)
    · exact .inl ((congrArg Proc.state (hproc x hxp) :).symm.trans hx)

/-- The end of a time slice in L0 and L1: `p` is one tick older, and moves one level
down if this ends its quantum. -/
theorem demote_queues {down : Lv} (h : Queues k ls) (hp : p ∈ ls que)
    (hlv : down.level = que.level + 1) (hd : demote k que down p = .ok k') :
    ∃ ls', Queues k' ls' ∧ Moved (k.upd p fun x => { x with lt := x.lt + 1 }) ls k' ls' ∧
      ((k'.proc p).lt = 0 ∨ (k.queue que).tq ≠ (k.proc p).lt + 1) := by
  unfold demote at hd
  dsimp only at hd
  have h1 : Queues (k.upd p fun x => { x with lt := x.lt + 1 }) ls := h.upd (fun _ => rfl) fun _ => rfl
  split at hd
  · simp only [bind_ok] at hd
    obtain ⟨k₁, hdel, k₂, hpush, hk⟩ := hd
    cases hk
    obtain ⟨ls', hq, hm, hlt⟩ := down_queues h1 hp hlv hdel hpush rfl
    exact ⟨ls', hq, hm, .inl hlt⟩
  · rename_i htq
    cases hd
    rw [upd_proc_self] at htq
    exact ⟨ls, h1, .refl _ ls, .inr htq⟩

/-- The end of a time slice in L2. -/
theorem promote_queues (h : Queues k ls) : Queues (promote k p) ls ∧
    Moved (k.upd p fun x => { x with lt := x.lt + 1 }) ls (promote k p) ls ∧
      (((promote k p).proc p).lt = 0 ∨ (k.queue .two).tq ≠ (k.proc p).lt + 1) := by
  have h1 : Queues (k.upd p fun x => { x with lt := x.lt + 1 }) ls := h.upd (fun _ => rfl) fun _ => rfl
  unfold promote
  dsimp only
  split
  · have h2 := h1.upd (p := p) (f := fun x => { x with lt := 0, pr := x.pr - 1 }) (fun _ => rfl)
      fun _ => rfl
    refine ⟨h2, ⟨⟨fun q x hx => ?_, fun hpr x => ?_, fun _ => rfl⟩, fun _ h => h, fun x hx => ?_⟩, .inl ?_⟩
    · rw [upd_proc]
      split
      · exact .inl rfl
      · exact .inr ⟨hx, rfl⟩
    · rw [upd_proc]
      split
      · exact (Nat.sub_le _ _).trans (hpr x)
      · exact hpr x
    · rw [upd_proc] at hx
      split at hx <;> exact .inl hx
    · rw [upd_proc_self]
  · rename_i htq
    rw [upd_proc_self] at htq
    exact ⟨h1, .refl _ ls, .inr htq⟩

theorem linkFront_core (k : Kernel) (q : Slot) (there : Bool) : (linkFront k q there).core = k.core :=
  (setNext_core _ _ _).trans (setQueue_core _ _ _)

/-- A process on no queue goes before the front of L0. -/
theorem linkFront_links (h : Links k ls) (hp : ∀ q, p ∉ ls q)
    (hrear : ls .zero = [] → (k.queue .zero).rear = some p) :
    Links (linkFront k p false) (Function.update ls .zero (p :: ls .zero)) := by
  have hfree : ∀ q, ∀ x ∈ ls q, x ≠ p := by
    rintro q x hx rfl
    exact hp q hx
  unfold linkFront
  refine h.update (fun q hq => by simp [hq]) (fun q _ x hx => ?_) ?_ ?_
  · simp [hfree q x hx]
  · simp only [setNext_next, setQueue_next, setNext_queue, setQueue_queue, Function.update_self,
      Bool.false_eq_true, if_false]
    refine IsQueue.cons ((h.queue .zero).congr fun x hx => ?_) (by simp) hrear
    simp [hfree _ x hx]
  · intro x hx q hq hxq
    rcases List.mem_cons.1 hx with rfl | hx
    · exact hp q hxq
    · exact hq (h.disjoint q .zero x hxq hx)

/-- **The end of the scheduler lock** keeps the queues if its owner is on none of them
and knows it will be on L0, and L0 has a rear. -/
theorem releaseLock_queues (h : Queues k ls) (hp : ∀ q, p ∉ ls q) (hl : (k.proc p).ql = 0)
    (hrear : ls .zero = [] → (k.queue .zero).rear = some p) (hr : releaseLock k p = .ok k') :
    ∃ ls', Queues k' ls' ∧ Moved k ls k' ls' := by
  simp only [releaseLock, bind_ok] at hr
  obtain ⟨b, hb, hr⟩ := hr
  have hbf : b = false := by
    have := isThere_iff h.toLinks hb
    cases b with
    | false => rfl
    | true => exact absurd (this.1 rfl) (hp _)
  subst hbf
  have hcore := linkFront_core k p false
  have hq : Queues (linkFront k p false) (Function.update ls .zero (p :: ls .zero)) := by
    constructor
    · exact linkFront_links h.toLinks hp hrear
    · intro q x hx
      rw [core_ql hcore]
      by_cases hqz : q = .zero
      · subst hqz
        rw [Function.update_self] at hx
        rcases List.mem_cons.1 hx with rfl | hx
        · exact hl
        · exact h.level _ x hx
      · rw [Function.update_of_ne hqz] at hx
        exact h.level q x hx
  -- the owner gets a fresh quantum
  have hmoved : ∀ f : Proc → Proc, (∀ x, (f x).state = x.state) → (∀ x, (f x).lt = 0) →
      (∀ x, (f x).pr ≤ max 3 x.pr) → ∀ k₁, k₁.proc = ((linkFront k p false).upd p f).proc →
      k₁.queue = (linkFront k p false).queue →
      Moved k ls k₁ (Function.update ls .zero (p :: ls .zero)) := by
    intro f hs hlt hpr k₁ hk hkq
    refine ⟨⟨fun q x hx => ?_, fun h3 x => ?_, fun q => ?_⟩, ?_, fun x hx => ?_⟩
    · rw [hk, upd_proc]
      split
      · exact .inl (hlt _)
      · rename_i hxp
        refine .inr ⟨?_, core_lt hcore x⟩
        rw [Function.update_apply] at hx
        split at hx
        · rename_i hqz; exact hqz ▸ (List.mem_cons.1 hx).resolve_left hxp
        · exact hx
    · rw [hk, upd_proc]
      split
      · exact (hpr _).trans (max_le (le_refl 3) ((core_pr hcore x).trans_le (h3 x)))
      · exact (core_pr hcore x).trans_le (h3 x)
    · rw [hkq]
      exact setQueue_tq .zero (m := k) rfl (by rfl) q
    · rintro x ⟨q, hx⟩
      refine ⟨q, ?_⟩
      rw [Function.update_apply]
      split
      · rename_i hqz; exact List.mem_cons_of_mem p (hqz ▸ hx)
      · exact hx
    · rw [hk, upd_proc] at hx
      split at hx
      · exact .inl ((core_state hcore x).symm.trans ((hs _).symm.trans hx))
      · exact .inl ((core_state hcore x).symm.trans hx)
  split at hr
  · cases hr
    refine ⟨_, Queues.congr (hq.upd (p := p) (f := fun x => { x with pr := 3, lt := 0 })
      (fun _ => rfl) fun _ => rfl) rfl rfl fun _ => rfl, ?_⟩
    exact hmoved (fun x => { x with pr := 3, lt := 0 }) (fun _ => rfl) (fun _ => rfl)
      (fun _ => le_max_left _ _) _ rfl rfl
  · obtain ⟨ls', hq', hm'⟩ := boostPr_queues (k := { (linkFront k p false).upd p fun x =>
      { x with lt := 0 } with isLocked := false, isUnlocked := false }) (Queues.congr (hq.upd (p := p)
      (f := fun x => { x with lt := 0 }) (fun _ => rfl) fun _ => rfl) rfl rfl fun _ => rfl) hr
    refine ⟨ls', hq', Moved.trans ?_ hm'⟩
    exact hmoved (fun x => { x with lt := 0 }) (fun _ => rfl) (fun _ => rfl)
      (fun _ => le_max_right _ _) _ rfl rfl

end Xv6.Mlfq
