import Xv6.Lib.Machine

/-!
# Monitors

Code that shares its data under one spin lock, and sleeps on channels with the lock given up. A `Monitor` says what
a call does before its first lock operation and what a process does next at each place `L` of the code; a place may
look at whether the process was killed. A killed process is woken wherever it sleeps.

* `machine`: the processes in any interleaving, one action at a time. `Step`: what an action does, case by case.
* `Bracketed`: the code takes and gives back the lock in pairs.
* **`Locked.step`**: then a process has the lock if and only if it is at a place inside; `Locked.fault`: no operation on
  the lock panics.
* `Sleepers`: where those who sleep on a channel go on.
* `Awake`: who sleeps on a channel is blocked by the data, or the holder of the lock has yet to wake the channel.
* **`Awake.step`**: every action that pays what it owes keeps this; `Awake.free`: a free lock owes nothing.
-/

namespace Xv6

/-- What a process does next. -/
inductive Act (σ L C φ : Type*)
  | acquire (l : L)
  /-- work on the data; the call returns where no place is next -/
  | plain (d : σ) (l : Option L)
  /-- `sleep`: give the lock up until woken, and take it again -/
  | sleep (c : C) (l : L)
  | wakeup (c : C) (l : L)
  | release (d : σ) (l : Option L)
  | fault (f : φ)

/-- Where a process is. -/
inductive Ctl (L C : Type*)
  /-- in no call -/
  | out
  | go (l : L)
  | asleep (c : C) (l : L)
  /-- woken, and waiting for the lock -/
  | woken (l : L)
  deriving DecidableEq

namespace Ctl

variable {L C : Type*}

def next : Option L → Ctl L C
  | none => .out
  | some l => .go l

def isOut : Ctl L C → Bool
  | .out => true
  | _ => false

theorem isOut_iff {x : Ctl L C} : x.isOut = true ↔ x = .out := by cases x <;> simp [isOut]

def rouse : Ctl L C → Ctl L C
  | .asleep _ l => .woken l
  | x => x

def wake [DecidableEq C] (c : C) : Ctl L C → Ctl L C
  | .asleep c' l => if c' = c then .woken l else .asleep c' l
  | x => x

/-- The place a process is at, asleep or not. -/
def place : Ctl L C → Option L
  | .out => none
  | .go l | .asleep _ l | .woken l => some l

@[simp] theorem place_next (o : Option L) : (next o : Ctl L C).place = o := by cases o <;> rfl

@[simp] theorem place_rouse (x : Ctl L C) : x.rouse.place = x.place := by cases x <;> rfl

theorem place_eq_none {x : Ctl L C} : x.place = none ↔ x = .out := by cases x <;> simp [place]

theorem next_go {o : Option L} {l : L} : (next o : Ctl L C) = .go l ↔ o = some l := by
  cases o <;> simp [next]

theorem next_ne_asleep {o : Option L} {c : C} {l : L} : next o ≠ .asleep c l := by cases o <;> simp [next]

theorem next_ne_woken {o : Option L} {l : L} : (next o : Ctl L C) ≠ .woken l := by cases o <;> simp [next]

theorem rouse_go {x : Ctl L C} {l : L} : x.rouse = .go l ↔ x = .go l := by cases x <;> simp [rouse]

theorem rouse_ne_asleep {x : Ctl L C} {c : C} {l : L} : x.rouse ≠ .asleep c l := by cases x <;> simp [rouse]

theorem rouse_woken {x : Ctl L C} {l : L} : x.rouse = .woken l → x = .woken l ∨ ∃ c, x = .asleep c l := by
  cases x <;> simp [rouse]

variable [DecidableEq C]

@[simp] theorem place_wake (c : C) (x : Ctl L C) : (x.wake c).place = x.place := by
  cases x with
  | asleep c' l => by_cases h : c' = c <;> simp [wake, h, place]
  | _ => rfl

theorem wake_go {c : C} {x : Ctl L C} {l : L} : x.wake c = .go l ↔ x = .go l := by
  cases x with
  | asleep c' l' => by_cases h : c' = c <;> simp [wake, h]
  | _ => simp [wake]

theorem wake_asleep {c c' : C} {x : Ctl L C} {l : L} : x.wake c = .asleep c' l ↔ x = .asleep c' l ∧ c' ≠ c := by
  cases x with
  | asleep c₁ l₁ =>
    by_cases h : c₁ = c
    · simp only [wake, h, if_true, reduceCtorEq, false_iff, not_and, asleep.injEq]
      rintro ⟨rfl, -⟩ hne
      exact hne rfl
    · simp only [wake, h, if_false, asleep.injEq]
      constructor
      · rintro ⟨rfl, rfl⟩; exact ⟨⟨rfl, rfl⟩, h⟩
      · exact fun hx => hx.1
  | _ => simp [wake]

theorem wake_woken {c : C} {x : Ctl L C} {l : L} (h : x.wake c = .woken l) :
    x = .woken l ∨ ∃ c', x = .asleep c' l := by
  cases x with
  | asleep c₁ l₁ =>
    by_cases hc : c₁ = c
    · simp only [wake, hc, if_true, woken.injEq] at h
      exact .inr ⟨c₁, by rw [h]⟩
    · simp [wake, hc] at h
  | _ => simp_all [wake]

end Ctl

/-- The code of the calls `R` of the processes `P`, over the data `σ`. -/
structure Monitor (P R σ L C φ : Type*) where
  /-- what a call does before its first lock operation -/
  call : P → R → σ → Option (σ × Option L)
  /-- the next action of a process, which may have been killed -/
  act : P → Bool → σ → L → Act σ L C φ
  /-- `acquire` of one's own lock, `release` and `sleep` without the lock -/
  panic : φ

namespace Monitor

structure State (P σ L C : Type*) where
  data : σ
  lock : Option P
  ctl : P → Ctl L C
  killed : P → Bool

inductive Event (P R : Type*)
  | call (p : P) (r : R)
  /-- the next action of `p` -/
  | run (p : P)
  | kill (p : P)

set_option linter.unusedSectionVars false

variable {P R σ L C φ : Type*} [DecidableEq P] [DecidableEq C]

def State.go (s : State P σ L C) (p : P) (x : Ctl L C) : State P σ L C :=
  { s with ctl := Function.update s.ctl p x }

section

variable (M : Monitor P R σ L C φ)

/-- The next action of `p`, which is at `l`. -/
def advance (s : State P σ L C) (p : P) (l : L) : Option (Except φ (State P σ L C)) :=
  match M.act p (s.killed p) s.data l with
  | .acquire l' =>
    if s.lock = none then some (.ok { s.go p (.go l') with lock := some p })
    else if s.lock = some p then some (.error M.panic)
    else none
  | .plain d o => some (.ok { s.go p (.next o) with data := d })
  | .sleep c l' =>
    if s.lock = some p then some (.ok { s.go p (.asleep c l') with lock := none }) else some (.error M.panic)
  | .wakeup c l' => some (.ok ({ s with ctl := fun q => (s.ctl q).wake c }.go p (.go l')))
  | .release d o =>
    if s.lock = some p then some (.ok { s.go p (.next o) with data := d, lock := none })
    else some (.error M.panic)
  | .fault f => some (.error f)

def step (s : State P σ L C) : Event P R → Option (Except φ (State P σ L C))
  | .call p r =>
    if (s.ctl p).isOut then (M.call p r s.data).map fun x => .ok { s.go p (.next x.2) with data := x.1 } else none
  | .run p =>
    match s.ctl p with
    | .go l => M.advance s p l
    | .woken l => if s.lock = none then some (.ok { s.go p (.go l) with lock := some p }) else none
    | .out | .asleep _ _ => none
  | .kill p => some (.ok { s.go p (s.ctl p).rouse with killed := Function.update s.killed p true })

def machine : Machine (State P σ L C) (Event P R) φ := ⟨M.step⟩

/-- **What an action does.** -/
inductive Step (s : State P σ L C) : Event P R → State P σ L C → Prop
  | call {p r d o} (hp : s.ctl p = .out) (hr : M.call p r s.data = some (d, o)) :
    Step s (.call p r) { s.go p (.next o) with data := d }
  | kill (p) : Step s (.kill p) { s.go p (s.ctl p).rouse with killed := Function.update s.killed p true }
  | resume {p l} (hp : s.ctl p = .woken l) (hl : s.lock = none) :
    Step s (.run p) { s.go p (.go l) with lock := some p }
  | acquire {p l l'} (hp : s.ctl p = .go l) (ha : M.act p (s.killed p) s.data l = .acquire l')
    (hl : s.lock = none) : Step s (.run p) { s.go p (.go l') with lock := some p }
  | plain {p l d o} (hp : s.ctl p = .go l) (ha : M.act p (s.killed p) s.data l = .plain d o) :
    Step s (.run p) { s.go p (.next o) with data := d }
  | sleep {p l c l'} (hp : s.ctl p = .go l) (ha : M.act p (s.killed p) s.data l = .sleep c l')
    (hl : s.lock = some p) : Step s (.run p) { s.go p (.asleep c l') with lock := none }
  | wakeup {p l c l'} (hp : s.ctl p = .go l) (ha : M.act p (s.killed p) s.data l = .wakeup c l') :
    Step s (.run p) ({ s with ctl := fun q => (s.ctl q).wake c }.go p (.go l'))
  | release {p l d o} (hp : s.ctl p = .go l) (ha : M.act p (s.killed p) s.data l = .release d o)
    (hl : s.lock = some p) : Step s (.run p) { s.go p (.next o) with data := d, lock := none }

end

variable {M : Monitor P R σ L C φ} {s s' : State P σ L C} {e : Event P R} {p q : P} {l : L}

@[simp] theorem State.go_self (s : State P σ L C) (p : P) (x : Ctl L C) : (s.go p x).ctl p = x :=
  Function.update_self ..

theorem State.go_ne (s : State P σ L C) (x : Ctl L C) (h : q ≠ p) : (s.go p x).ctl q = s.ctl q :=
  Function.update_of_ne h ..

theorem advance_ok (hp : s.ctl p = .go l) (h : M.advance s p l = some (.ok s')) : Step M s (.run p) s' := by
  unfold advance at h
  cases ha : M.act p (s.killed p) s.data l with
  | acquire l' =>
    simp only [ha] at h
    split at h
    · rename_i hl
      cases h
      exact .acquire hp ha hl
    · split at h <;> cases h
  | plain d o =>
    simp only [ha] at h
    cases h
    exact .plain hp ha
  | sleep c l' =>
    simp only [ha] at h
    split at h
    · rename_i hl
      cases h
      exact .sleep hp ha hl
    · cases h
  | wakeup c l' =>
    simp only [ha] at h
    cases h
    exact .wakeup hp ha
  | release d o =>
    simp only [ha] at h
    split at h
    · rename_i hl
      cases h
      exact .release hp ha hl
    · cases h
  | fault f =>
    simp only [ha] at h
    cases h

theorem step_ok (h : M.machine.step s e = some (.ok s')) : Step M s e s' := by
  cases e with
  | call p r =>
    simp only [machine, step] at h
    split at h
    · rename_i hp
      obtain ⟨⟨d, o⟩, hr, hs⟩ := Option.map_eq_some_iff.1 h
      cases hs
      exact .call (Ctl.isOut_iff.1 hp) hr
    · cases h
  | run p =>
    simp only [machine, step] at h
    cases hp : s.ctl p with
    | go l =>
      rw [hp] at h
      exact advance_ok hp h
    | woken l =>
      rw [hp] at h
      simp only at h
      split at h
      · rename_i hl
        cases h
        exact .resume hp hl
      · cases h
    | out => rw [hp] at h; cases h
    | asleep c l => rw [hp] at h; cases h
  | kill p =>
    cases h
    exact .kill p

theorem Step.ok (h : Step M s e s') : M.machine.step s e = some (.ok s') := by
  cases h with
  | call hp hr => simp [machine, step, hp, hr, Ctl.isOut]
  | kill p => rfl
  | resume hp hl => simp [machine, step, hp, hl]
  | acquire hp ha hl => simp [machine, step, advance, hp, ha, hl]
  | plain hp ha => simp [machine, step, advance, hp, ha]
  | sleep hp ha hl => simp [machine, step, advance, hp, ha, hl]
  | wakeup hp ha => simp [machine, step, advance, hp, ha]
  | release hp ha hl => simp [machine, step, advance, hp, ha, hl]

/-- A run goes on with one more step. -/
theorem run_step {s₀ : State P σ L C} {es : List (Event P R)} (hr : M.machine.run s₀ es = some (.ok s))
    (h : Step M s e s') : M.machine.run s₀ (es ++ [e]) = some (.ok s') :=
  (Machine.run_snoc es e s₀ _).2 ⟨s, hr, h.ok⟩

/-! ## What the data see of a step -/

/-- The data after an action, and the next place. -/
def effect (d : σ) : Act σ L C φ → Option (σ × Option L)
  | .acquire l | .sleep _ l | .wakeup _ l => some (d, some l)
  | .plain d' o | .release d' o => some (d', o)
  | .fault _ => none

/-- A step without the lock and the sleeping: a call, an action at a place, or nothing. -/
inductive View (M : Monitor P R σ L C φ) (s s' : State P σ L C) : Event P R → Prop
  | call {p r d o} (hp : s.ctl p = .out) (hr : M.call p r s.data = some (d, o)) (hd : s'.data = d)
    (ho : (s'.ctl p).place = o) (hne : ∀ q, q ≠ p → (s'.ctl q).place = (s.ctl q).place) : View M s s' (.call p r)
  | still {e : Event P R} (hd : s'.data = s.data) (hpl : ∀ q, (s'.ctl q).place = (s.ctl q).place) : View M s s' e
  | act {p l d o} (hp : s.ctl p = .go l) (ha : effect s.data (M.act p (s.killed p) s.data l) = some (d, o))
    (hd : s'.data = d) (ho : (s'.ctl p).place = o) (hne : ∀ q, q ≠ p → (s'.ctl q).place = (s.ctl q).place) :
    View M s s' (.run p)

theorem Step.view (h : Step M s e s') : View M s s' e := by
  -- only the place of `p` changes
  have hself : ∀ {s₁ : State P σ L C} {p : P} {x : Ctl L C}, ((s₁.go p x).ctl p).place = x.place := by
    intro s₁ p x
    rw [State.go_self]
  have hother : ∀ {s₁ : State P σ L C} {p q : P} {x : Ctl L C}, q ≠ p → ((s₁.go p x).ctl q).place = (s₁.ctl q).place := by
    intro s₁ p q x hq
    rw [State.go_ne s₁ x hq]
  cases h with
  | call hp hr => exact .call hp hr rfl (hself.trans (Ctl.place_next _)) fun q hq => hother hq
  | kill p =>
    refine .still rfl fun q => ?_
    by_cases hq : q = p
    · rw [hq]
      exact hself.trans (Ctl.place_rouse _)
    · exact hother hq
  | @resume p l hp hl =>
    refine .still rfl fun q => ?_
    by_cases hq : q = p
    · rw [hq, hp]
      exact hself
    · exact hother hq
  | acquire hp ha hl => exact .act hp (by rw [ha]; rfl) rfl hself fun q hq => hother hq
  | plain hp ha => exact .act hp (by rw [ha]; rfl) rfl (hself.trans (Ctl.place_next _)) fun q hq => hother hq
  | sleep hp ha hl => exact .act hp (by rw [ha]; rfl) rfl hself fun q hq => hother hq
  | wakeup hp ha =>
    refine .act hp (by rw [ha]; rfl) rfl hself fun q hq => ?_
    exact (hother hq).trans (Ctl.place_wake _ _)
  | release hp ha hl => exact .act hp (by rw [ha]; rfl) rfl (hself.trans (Ctl.place_next _)) fun q hq => hother hq

/-- Who was killed stays killed. -/
theorem Step.killed (h : Step M s e s') (hq : s.killed q = true) : s'.killed q = true := by
  cases h with
  | kill p =>
    show Function.update s.killed p true q = true
    by_cases hqp : q = p
    · rw [hqp, Function.update_self]
    · rw [Function.update_of_ne hqp]
      exact hq
  | _ => exact hq

/-! ## The lock -/

/-- The action of the place `l` takes and gives back the lock in pairs; `inside` are the places in between. -/
def Brackets (inside : L → Prop) (l : L) : Act σ L C φ → Prop
  | .acquire l' => ¬ inside l ∧ inside l'
  | .plain _ (some l') => inside l' ↔ inside l
  | .plain _ none => ¬ inside l
  | .sleep _ l' => inside l ∧ inside l'
  | .wakeup _ l' => inside l' ↔ inside l
  | .release _ (some l') => inside l ∧ ¬ inside l'
  | .release _ none => inside l
  | .fault _ => True

structure Bracketed (M : Monitor P R σ L C φ) (inside : L → Prop) : Prop where
  call : ∀ {p r d d' l}, M.call p r d = some (d', some l) → ¬ inside l
  act : ∀ p k d l, Brackets inside l (M.act p k d l)

namespace Bracketed

variable {inside : L → Prop} {k : Bool} {d d' : σ} {l' : L} {c : C} {o : Option L} (hM : M.Bracketed inside)

include hM

theorem acquire (ha : M.act p k d l = .acquire l') : ¬ inside l ∧ inside l' := by
  have h := hM.act p k d l
  rw [ha] at h
  exact h

theorem plain (ha : M.act p k d l = .plain d' (some l')) : inside l' ↔ inside l := by
  have h := hM.act p k d l
  rw [ha] at h
  exact h

theorem leave (ha : M.act p k d l = .plain d' none) : ¬ inside l := by
  have h := hM.act p k d l
  rw [ha] at h
  exact h

theorem sleep (ha : M.act p k d l = .sleep c l') : inside l ∧ inside l' := by
  have h := hM.act p k d l
  rw [ha] at h
  exact h

theorem wakeup (ha : M.act p k d l = .wakeup c l') : inside l' ↔ inside l := by
  have h := hM.act p k d l
  rw [ha] at h
  exact h

theorem release (ha : M.act p k d l = .release d' o) : inside l ∧ ∀ l', o = some l' → ¬ inside l' := by
  have h := hM.act p k d l
  rw [ha] at h
  cases o with
  | none => exact ⟨h, fun l' hl => by cases hl⟩
  | some l₁ =>
    refine ⟨h.1, ?_⟩
    rintro l' ⟨⟩
    exact h.2

end Bracketed

variable {inside : L → Prop}

/-- The holder of the lock is the process at a place inside. -/
structure Locked (inside : L → Prop) (s : State P σ L C) : Prop where
  holder : ∀ p, s.lock = some p ↔ ∃ l, s.ctl p = .go l ∧ inside l
  /-- a sleeper goes on inside -/
  asleep : ∀ p c l, s.ctl p = .asleep c l → inside l
  woken : ∀ p l, s.ctl p = .woken l → inside l

theorem Locked.unique (h : Locked inside s) {l' : L} (hp : s.ctl p = .go l) (hl : inside l) (hq : s.ctl q = .go l')
    (hl' : inside l') : p = q := by
  have h1 := (h.holder p).2 ⟨l, hp, hl⟩
  have h2 := (h.holder q).2 ⟨l', hq, hl'⟩
  rw [h1] at h2
  exact Option.some.inj h2

/-- Only `p` moves; the lock is its own afterwards if and only if it is inside. -/
theorem Locked.move (h : Locked inside s) {x : Ctl L C} (hctl : s'.ctl p = x)
    (hne : ∀ q, q ≠ p → s'.ctl q = s.ctl q) (hlock : ∀ q, q ≠ p → (s'.lock = some q ↔ s.lock = some q))
    (hx : s'.lock = some p ↔ ∃ l, x = .go l ∧ inside l) (hsleep : ∀ c l, x = .asleep c l → inside l)
    (hwoken : ∀ l, x = .woken l → inside l) : Locked inside s' := by
  constructor
  · intro q
    by_cases hq : q = p
    · rw [hq, hctl]
      exact hx
    · rw [hlock q hq, hne q hq]
      exact h.holder q
  · intro q c l hql
    by_cases hq : q = p
    · rw [hq, hctl] at hql
      exact hsleep c l hql
    · rw [hne q hq] at hql
      exact h.asleep q c l hql
  · intro q l hql
    by_cases hq : q = p
    · rw [hq, hctl] at hql
      exact hwoken l hql
    · rw [hne q hq] at hql
      exact h.woken q l hql

/-- Waking processes is no lock operation. -/
theorem Locked.rouse (h : Locked inside s) {f : P → Ctl L C → Ctl L C} (hlock : s'.lock = s.lock)
    (hctl : ∀ q, s'.ctl q = f q (s.ctl q)) (hgo : ∀ q x l, f q x = .go l ↔ x = .go l)
    (hasleep : ∀ q x c l, f q x = .asleep c l → x = .asleep c l)
    (hwoken : ∀ q x l, f q x = .woken l → x = .woken l ∨ ∃ c, x = .asleep c l) : Locked inside s' := by
  constructor
  · intro q
    rw [hlock, hctl, h.holder q]
    simp only [hgo]
  · intro q c l hq
    rw [hctl] at hq
    exact h.asleep q c l (hasleep _ _ _ _ hq)
  · intro q l hq
    rw [hctl] at hq
    rcases hwoken _ _ _ hq with hq | ⟨c, hq⟩
    · exact h.woken q l hq
    · exact h.asleep q c l hq

theorem Locked.step (hM : M.Bracketed inside) (h : Locked inside s) (hs : Step M s e s') : Locked inside s' := by
  -- an action that keeps the lock as it is, and its process on the same side
  have hkeep : ∀ {p l} {s'' : State P σ L C} {o : Option L}, s.ctl p = .go l → s''.lock = s.lock →
      s''.ctl = Function.update s.ctl p (.next o) → (∀ l', o = some l' → (inside l' ↔ inside l)) →
      (o = none → ¬ inside l) → Locked inside s'' := by
    intro p l s'' o hp hlock hctl hsome hnone
    refine h.move (p := p) (by rw [hctl, Function.update_self]) (fun q hq => by rw [hctl, Function.update_of_ne hq])
      (fun q _ => by rw [hlock]) ?_ (fun c l' hx => absurd hx Ctl.next_ne_asleep)
      (fun l' hx => absurd hx Ctl.next_ne_woken)
    rw [hlock, h.holder p]
    cases o with
    | none =>
      have hout := hnone rfl
      constructor
      · rintro ⟨l', hl', hin⟩
        rw [hp] at hl'
        cases hl'
        exact absurd hin hout
      · rintro ⟨l', hl', -⟩
        cases hl'
    | some l₁ =>
      have hside := hsome l₁ rfl
      constructor
      · rintro ⟨l', hl', hin⟩
        rw [hp] at hl'
        cases hl'
        exact ⟨l₁, rfl, hside.2 hin⟩
      · rintro ⟨l', hl', hin⟩
        cases hl'
        exact ⟨l, hp, hside.1 hin⟩
  cases hs with
  | @call p r d o hp hr =>
    refine h.move (p := p) (State.go_self ..) (fun q hq => State.go_ne s _ hq) (fun q _ => Iff.rfl) ?_
      (fun c l hx => absurd hx Ctl.next_ne_asleep) (fun l hx => absurd hx Ctl.next_ne_woken)
    show s.lock = some p ↔ _
    rw [h.holder p]
    constructor
    · rintro ⟨l, hl, -⟩
      rw [hp] at hl
      cases hl
    · rintro ⟨l, hl, hin⟩
      obtain rfl := Ctl.next_go.1 hl
      exact absurd hin (hM.call hr)
  | kill p =>
    refine h.rouse (f := fun q x => if q = p then x.rouse else x) rfl ?_ ?_ ?_ ?_
    · intro q
      by_cases hq : q = p
      · rw [if_pos hq, hq]
        exact State.go_self ..
      · rw [if_neg hq]
        exact State.go_ne s _ hq
    · intro q x l
      split
      · exact Ctl.rouse_go
      · exact Iff.rfl
    · intro q x c l hx
      split at hx
      · exact absurd hx Ctl.rouse_ne_asleep
      · exact hx
    · intro q x l hx
      split at hx
      · exact Ctl.rouse_woken hx
      · exact .inl hx
  | @resume p l hp hl =>
    refine h.move (p := p) (State.go_self ..) (fun q hq => State.go_ne s _ hq) (fun q hq => ?_) ?_
      (fun c l hx => by cases hx) (fun l hx => by cases hx)
    · rw [hl]
      simp [Ne.symm hq]
    · exact iff_of_true rfl ⟨l, rfl, h.woken p l hp⟩
  | @acquire p l l' hp ha hl =>
    refine h.move (p := p) (State.go_self ..) (fun q hq => State.go_ne s _ hq) (fun q hq => ?_) ?_
      (fun c l hx => by cases hx) (fun l hx => by cases hx)
    · rw [hl]
      simp [Ne.symm hq]
    · exact iff_of_true rfl ⟨l', rfl, (hM.acquire ha).2⟩
  | @plain p l d o hp ha =>
    refine hkeep hp rfl rfl ?_ ?_
    · rintro l' rfl
      exact hM.plain ha
    · rintro rfl
      exact hM.leave ha
  | @sleep p l c l' hp ha hl =>
    refine h.move (p := p) (State.go_self ..) (fun q hq => State.go_ne s _ hq) (fun q hq => ?_) ?_ ?_
      (fun l hx => by cases hx)
    · rw [hl]
      simp [Ne.symm hq]
    · simp
    · rintro c' l₁ hx
      cases hx
      exact (hM.sleep ha).2
  | @wakeup p l c l' hp ha =>
    -- the channel is woken, then the process goes on
    have hwake : Locked inside { s with ctl := fun q => (s.ctl q).wake c } :=
      h.rouse (f := fun _ x => x.wake c) rfl (fun _ => rfl) (fun _ _ _ => Ctl.wake_go)
        (fun _ _ _ _ hx => (Ctl.wake_asleep.1 hx).1) fun _ _ _ hx => Ctl.wake_woken hx
    refine hwake.move (p := p) (State.go_self ..) (fun q hq => State.go_ne _ _ hq) (fun q _ => Iff.rfl) ?_
      (fun c l hx => by cases hx) (fun l hx => by cases hx)
    show s.lock = some p ↔ _
    rw [h.holder p, hp]
    have hside := hM.wakeup ha
    constructor
    · rintro ⟨l₁, hl₁, hin⟩
      cases hl₁
      exact ⟨l', rfl, hside.2 hin⟩
    · rintro ⟨l₁, hl₁, hin⟩
      cases hl₁
      exact ⟨l, rfl, hside.1 hin⟩
  | @release p l d o hp ha hl =>
    refine h.move (p := p) (State.go_self ..) (fun q hq => State.go_ne s _ hq) (fun q hq => ?_) ?_
      (fun c l hx => absurd hx Ctl.next_ne_asleep) (fun l hx => absurd hx Ctl.next_ne_woken)
    · rw [hl]
      simp [Ne.symm hq]
    · constructor
      · intro hx
        cases hx
      · rintro ⟨l', hl', hin⟩
        exact absurd hin ((hM.release ha).2 l' (Ctl.next_go.1 hl'))

/-- No lock operation of bracketed code panics: a fault is one of the code's own. -/
theorem Locked.fault (hM : M.Bracketed inside) (h : Locked inside s) {f : φ}
    (hs : M.machine.step s e = some (.error f)) :
    ∃ p l, e = .run p ∧ s.ctl p = .go l ∧ M.act p (s.killed p) s.data l = .fault f := by
  cases e with
  | call p r =>
    simp only [machine, Monitor.step] at hs
    split at hs
    · obtain ⟨x, -, hx⟩ := Option.map_eq_some_iff.1 hs
      cases hx
    · cases hs
  | kill p => cases hs
  | run p =>
    simp only [machine, Monitor.step] at hs
    cases hp : s.ctl p with
    | out => rw [hp] at hs; cases hs
    | asleep c l => rw [hp] at hs; cases hs
    | woken l =>
      rw [hp] at hs
      simp only at hs
      split at hs <;> cases hs
    | go l =>
      rw [hp] at hs
      refine ⟨p, l, rfl, hp, ?_⟩
      simp only [advance] at hs
      cases ha : M.act p (s.killed p) s.data l with
      | acquire l' =>
        simp only [ha] at hs
        split at hs
        · cases hs
        · split at hs
          · rename_i hl
            -- the process would be inside already
            obtain ⟨l₁, hl₁, hin⟩ := (h.holder p).1 hl
            rw [hp] at hl₁
            cases hl₁
            exact absurd hin (hM.acquire ha).1
          · cases hs
      | plain d o => simp only [ha] at hs; cases hs
      | sleep c l' =>
        simp only [ha, (h.holder p).2 ⟨l, hp, (hM.sleep ha).1⟩, if_true] at hs
        cases hs
      | wakeup c l' => simp only [ha] at hs; cases hs
      | release d o =>
        simp only [ha, (h.holder p).2 ⟨l, hp, (hM.release ha).1⟩, if_true] at hs
        cases hs
      | fault f' =>
        simp only [ha] at hs
        cases hs
        rfl

/-- Nobody has made a call. -/
structure Fresh (s : State P σ L C) : Prop where
  lock : s.lock = none
  out : ∀ p, s.ctl p = .out

theorem Fresh.locked (h : Fresh s) : Locked inside s where
  holder p := by simp [h.lock, h.out]
  asleep p c l hp := by rw [h.out] at hp; cases hp
  woken p l hp := by rw [h.out] at hp; cases hp

/-! ## Sleepers -/

/-- Who sleeps on a channel, and who was woken from it, goes on at a place that fits the channel. -/
structure Sleepers (fits : C → L → Prop) (s : State P σ L C) : Prop where
  asleep : ∀ p c l, s.ctl p = .asleep c l → fits c l
  woken : ∀ p l, s.ctl p = .woken l → ∃ c, fits c l

variable {fits : C → L → Prop}

theorem Fresh.sleepers (h : Fresh s) : Sleepers fits s where
  asleep p c l hp := by rw [h.out] at hp; cases hp
  woken p l hp := by rw [h.out] at hp; cases hp

theorem Sleepers.step (hfits : ∀ p k d l c l', M.act p k d l = .sleep c l' → fits c l') (h : Sleepers fits s)
    (hs : Step M s e s') : Sleepers fits s' := by
  -- `p` goes on at a place, and the others stay or are woken
  have hmove : ∀ {p : P} {x : Ctl L C} {s₁ : State P σ L C} (f : Ctl L C → Ctl L C),
      (∀ y c l, f y = .asleep c l → y = .asleep c l) → (∀ y l, f y = .woken l → y = .woken l ∨ ∃ c, y = .asleep c l) →
      (∀ c l, x = .asleep c l → fits c l) → (∀ l, x = .woken l → ∃ c, fits c l) →
      s₁.ctl = Function.update (fun q => f (s.ctl q)) p x → Sleepers fits s₁ := by
    intro p x s₁ f hfa hfw hxa hxw hctl
    constructor
    · intro q c l hq
      by_cases hqp : q = p
      · rw [hqp, hctl, Function.update_self] at hq
        exact hxa c l hq
      · rw [hctl, Function.update_of_ne hqp] at hq
        exact h.asleep q c l (hfa _ c l hq)
    · intro q l hq
      by_cases hqp : q = p
      · rw [hqp, hctl, Function.update_self] at hq
        exact hxw l hq
      · rw [hctl, Function.update_of_ne hqp] at hq
        rcases hfw _ l hq with hw | ⟨c, ha⟩
        · exact h.woken q l hw
        · exact ⟨c, h.asleep q c l ha⟩
  have hid : ∀ {p : P} {x : Ctl L C} {s₁ : State P σ L C}, (∀ c l, x = .asleep c l → fits c l) →
      (∀ l, x = .woken l → ∃ c, fits c l) → s₁.ctl = Function.update s.ctl p x → Sleepers fits s₁ :=
    fun hxa hxw hctl => hmove id (fun _ _ _ hy => hy) (fun _ _ hy => .inl hy) hxa hxw hctl
  cases hs with
  | call hp hr => exact hid (fun c l hx => absurd hx Ctl.next_ne_asleep) (fun l hx => absurd hx Ctl.next_ne_woken) rfl
  | kill p =>
    refine hid (fun c l hx => absurd hx Ctl.rouse_ne_asleep) (fun l hx => ?_) rfl
    rcases Ctl.rouse_woken hx with hw | ⟨c, ha⟩
    · exact h.woken p l hw
    · exact ⟨c, h.asleep p c l ha⟩
  | resume hp hl => exact hid (fun c l hx => by cases hx) (fun l hx => by cases hx) rfl
  | acquire hp ha hl => exact hid (fun c l hx => by cases hx) (fun l hx => by cases hx) rfl
  | plain hp ha => exact hid (fun c l hx => absurd hx Ctl.next_ne_asleep) (fun l hx => absurd hx Ctl.next_ne_woken) rfl
  | @sleep p l c₀ l₀ hp ha hl =>
    refine hid (fun c l hx => ?_) (fun l hx => by cases hx) rfl
    cases hx
    exact hfits _ _ _ _ _ _ ha
  | @wakeup p l c₀ l₀ hp ha =>
    exact hmove (Ctl.wake c₀) (fun y c l hy => (Ctl.wake_asleep.1 hy).1) (fun y l hy => Ctl.wake_woken hy)
      (fun c l hx => by cases hx) (fun l hx => by cases hx) rfl
  | release hp ha hl =>
    exact hid (fun c l hx => absurd hx Ctl.next_ne_asleep) (fun l hx => absurd hx Ctl.next_ne_woken) rfl

/-- A sleeper is blocked by the data, or somebody inside has yet to wake its channel. -/
def Awake (blocked : σ → C → Prop) (owes : L → C → Prop) (s : State P σ L C) : Prop :=
  ∀ p c l, s.ctl p = .asleep c l → blocked s.data c ∨ ∃ q l', s.ctl q = .go l' ∧ owes l' c

/-- The action leaves no sleeper of the channel `c` without its wakeup. -/
def Pays (blocked : σ → C → Prop) (owes : L → C → Prop) (d : σ) (l : L) (c : C) : Act σ L C φ → Prop
  | .acquire _ => True
  | .plain d' o => blocked d c ∨ owes l c → blocked d' c ∨ ∃ l', o = some l' ∧ owes l' c
  | .sleep _ _ => owes l c → blocked d c
  | .wakeup c' l' => c ≠ c' → owes l c → blocked d c ∨ owes l' c
  | .release d' _ => blocked d c ∨ owes l c → blocked d' c
  | .fault _ => True

variable {blocked : σ → C → Prop} {owes : L → C → Prop}

theorem Fresh.awake (h : Fresh s) : Awake blocked owes s := by
  intro p c l hp
  rw [h.out] at hp
  cases hp

/-- Nobody falls asleep, and a blocked or owed channel stays so: the debtor is `p`, or nobody moves. -/
theorem Awake.mono (h : Awake blocked owes s)
    (hasleep : ∀ q c l, s'.ctl q = .asleep c l → s.ctl q = .asleep c l)
    (hblocked : ∀ q c l, s'.ctl q = .asleep c l → blocked s.data c →
      blocked s'.data c ∨ ∃ q l', s'.ctl q = .go l' ∧ owes l' c)
    (howes : ∀ q c l, s'.ctl q = .asleep c l → ∀ q₁ l₁, s.ctl q₁ = .go l₁ → owes l₁ c →
      blocked s'.data c ∨ ∃ q l', s'.ctl q = .go l' ∧ owes l' c) : Awake blocked owes s' := by
  intro q c l hq
  rcases h q c l (hasleep q c l hq) with hb | ⟨q₁, l₁, h1, h2⟩
  · exact hblocked q c l hq hb
  · exact howes q c l hq q₁ l₁ h1 h2

/-- **A step that pays what it owes strands no sleeper.** -/
theorem Awake.step (hM : M.Bracketed inside) (hin : ∀ l c, owes l c → inside l) (hL : Locked inside s)
    (h : Awake blocked owes s) (hs : Step M s e s')
    (hcall : ∀ p r d o c, e = .call p r → M.call p r s.data = some (d, o) → blocked s.data c → blocked d c)
    (hsleep : ∀ p l c l', e = .run p → s.ctl p = .go l → M.act p (s.killed p) s.data l = .sleep c l' →
      blocked s.data c)
    (hpays : ∀ p l c, e = .run p → s.ctl p = .go l → (∃ q l', s.ctl q = .asleep c l') →
      Pays blocked owes s.data l c (M.act p (s.killed p) s.data l)) : Awake blocked owes s' := by
  -- the only place that owes is that of the process inside
  have hdebt : ∀ {p l q l₁ c}, s.ctl p = .go l → inside l → s.ctl q = .go l₁ → owes l₁ c → owes l c := by
    intro p l q l₁ c hp hl hq ho
    obtain rfl := hL.unique hp hl hq (hin l₁ c ho)
    rw [hp] at hq
    cases hq
    exact ho
  cases hs with
  | @call p r d o hp hr =>
    refine h.mono ?_ ?_ ?_
    · intro q c l hq
      by_cases hqp : q = p
      · rw [hqp, State.go_self] at hq
        exact absurd hq Ctl.next_ne_asleep
      · rw [State.go_ne s _ hqp] at hq
        exact hq
    · intro q c l _ hb
      exact .inl (hcall p r d o c rfl hr hb)
    · intro q c l _ q₁ l₁ h1 h2
      have hne : q₁ ≠ p := by
        rintro rfl
        rw [hp] at h1
        cases h1
      exact .inr ⟨q₁, l₁, by rw [State.go_ne s _ hne]; exact h1, h2⟩
  | kill p =>
    refine h.mono ?_ (fun _ _ _ _ hb => .inl hb) ?_
    · intro q c l hq
      by_cases hqp : q = p
      · rw [hqp, State.go_self] at hq
        exact absurd hq Ctl.rouse_ne_asleep
      · rw [State.go_ne s _ hqp] at hq
        exact hq
    · intro q c l _ q₁ l₁ h1 h2
      refine .inr ⟨q₁, l₁, ?_, h2⟩
      by_cases hqp : q₁ = p
      · rw [hqp, State.go_self, Ctl.rouse_go, ← hqp]
        exact h1
      · rw [State.go_ne s _ hqp]
        exact h1
  | @resume p l hp hl =>
    refine h.mono ?_ (fun _ _ _ _ hb => .inl hb) ?_
    · intro q c l hq
      by_cases hqp : q = p
      · rw [hqp, State.go_self] at hq
        cases hq
      · rw [State.go_ne s _ hqp] at hq
        exact hq
    · intro q c l _ q₁ l₁ h1 h2
      -- the lock was free
      have hlock := (hL.holder q₁).2 ⟨l₁, h1, hin l₁ c h2⟩
      rw [hl] at hlock
      cases hlock
  | @acquire p l l' hp ha hl =>
    refine h.mono ?_ (fun _ _ _ _ hb => .inl hb) ?_
    · intro q c l hq
      by_cases hqp : q = p
      · rw [hqp, State.go_self] at hq
        cases hq
      · rw [State.go_ne s _ hqp] at hq
        exact hq
    · intro q c l _ q₁ l₁ h1 h2
      have hlock := (hL.holder q₁).2 ⟨l₁, h1, hin l₁ c h2⟩
      rw [hl] at hlock
      cases hlock
  | @plain p l d o hp ha =>
    have hsleeper : ∀ q c l', ({ s.go p (.next o) with data := d } : State P σ L C).ctl q = .asleep c l' →
        s.ctl q = .asleep c l' := by
      intro q c l' hq
      by_cases hqp : q = p
      · rw [hqp, State.go_self] at hq
        exact absurd hq Ctl.next_ne_asleep
      · rw [State.go_ne s _ hqp] at hq
        exact hq
    have hpay : ∀ q c l', s.ctl q = .asleep c l' → blocked s.data c ∨ owes l c →
        blocked d c ∨ ∃ q l', (s.go p (.next o)).ctl q = .go l' ∧ owes l' c := by
      intro q c l' hq hx
      have hp' := hpays p l c rfl hp ⟨q, l', hq⟩
      rw [ha] at hp'
      rcases hp' hx with hb | ⟨l₁, ho, h1⟩
      · exact .inl hb
      · exact .inr ⟨p, l₁, by rw [State.go_self, Ctl.next_go]; exact ho, h1⟩
    refine h.mono hsleeper ?_ ?_
    · intro q c l' hq hb
      exact hpay q c l' (hsleeper q c l' hq) (.inl hb)
    · intro q c l' hq q₁ l₁ h1 h2
      by_cases hqp : q₁ = p
      · rw [hqp, hp] at h1
        cases h1
        exact hpay q c l' (hsleeper q c l' hq) (.inr h2)
      · exact .inr ⟨q₁, l₁, by rw [State.go_ne s _ hqp]; exact h1, h2⟩
  | @sleep p l c₀ l₀ hp ha hl =>
    intro q c l' hq
    by_cases hqp : q = p
    · rw [hqp, State.go_self] at hq
      cases hq
      exact .inl (hsleep p l c₀ l₀ rfl hp ha)
    · rw [State.go_ne s _ hqp] at hq
      refine .inl ?_
      rcases h q c l' hq with hb | ⟨q₁, l₁, h1, h2⟩
      · exact hb
      · have hp' := hpays p l c rfl hp ⟨q, l', hq⟩
        rw [ha] at hp'
        exact hp' (hdebt hp (hM.sleep ha).1 h1 h2)
  | @wakeup p l c₀ l₀ hp ha =>
    intro q c l' hq
    by_cases hqp : q = p
    · rw [hqp, State.go_self] at hq
      cases hq
    · rw [State.go_ne _ _ hqp] at hq
      obtain ⟨hq, hne⟩ := Ctl.wake_asleep.1 hq
      rcases h q c l' hq with hb | ⟨q₁, l₁, h1, h2⟩
      · exact .inl hb
      · by_cases hqp₁ : q₁ = p
        · rw [hqp₁, hp] at h1
          cases h1
          have hp' := hpays p l c rfl hp ⟨q, l', hq⟩
          rw [ha] at hp'
          rcases hp' hne h2 with hb | ho
          · exact .inl hb
          · exact .inr ⟨p, l₀, State.go_self .., ho⟩
        · refine .inr ⟨q₁, l₁, ?_, h2⟩
          rw [State.go_ne _ _ hqp₁]
          exact Ctl.wake_go.2 h1
  | @release p l d o hp ha hl =>
    intro q c l' hq
    by_cases hqp : q = p
    · rw [hqp, State.go_self] at hq
      exact absurd hq Ctl.next_ne_asleep
    · rw [State.go_ne s _ hqp] at hq
      have hp' := hpays p l c rfl hp ⟨q, l', hq⟩
      rw [ha] at hp'
      rcases h q c l' hq with hb | ⟨q₁, l₁, h1, h2⟩
      · exact .inl (hp' (.inl hb))
      · exact .inl (hp' (.inr (hdebt hp (hM.release ha).1 h1 h2)))

/-- **Nobody sleeps in vain while the lock is free.** -/
theorem Awake.free (hin : ∀ l c, owes l c → inside l) (hL : Locked inside s) (h : Awake blocked owes s)
    (hfree : s.lock = none) {c : C} (hp : s.ctl p = .asleep c l) : blocked s.data c := by
  rcases h p c l hp with hb | ⟨q, l', h1, h2⟩
  · exact hb
  · have hlock := (hL.holder q).2 ⟨l', h1, hin l' c h2⟩
    rw [hfree] at hlock
    cases hlock

end Monitor

end Xv6
