import Xv6.Lib.Monitor

/-!
# Sleep locks

`sleeplock.c`: `acquiresleep`, `holdingsleep` and `releasesleep` on one lock, as code of a monitor under `lk->lk`.
`brelse` and `iunlock` ask `holdingsleep` first, and panic if it says no; `unlock` is that pair. The history variable
`has` tells who took the lock and did not give it back.

* `Sane`: the fields of the lock and the places of the processes agree on who has it.
* **`one_holder`**: at most one process has the lock, the fields say which, and only a process without it panics.
* **`sleeper_has_reason`**: while `lk->lk` is free, who sleeps in `acquiresleep` sleeps at a lock that somebody has.

The check compares pids, so that much is needed of them: different processes have different ones.
-/

namespace Xv6.Sync

structure Sleeplock (P : Type*) where
  locked : Bool
  /-- process holding lock -/
  pid : ℕ
  has : P → Bool

/-- Where a process is in the code. -/
inductive Label
  | acqAcquire
  /-- `while (lk->locked)` -/
  | acqTest
  | acqSleep
  | acqTake
  | acqRelease
  | holdAcquire
  | holdTest
  | holdRelease (r : Bool)
  /-- `if(!holdingsleep(lk)) panic` -/
  | check (r : Bool)
  | relAcquire
  | relClear
  | relWakeup
  | relRelease
  deriving DecidableEq

inductive Req
  | acquiresleep
  /-- `holdingsleep` and `releasesleep` -/
  | unlock

inductive Fault
  /-- a panic of the spin lock -/
  | spin
  /-- a panic of `brelse` or `iunlock` -/
  | panic
  deriving DecidableEq

variable {P : Type*}

/-- `initsleeplock` -/
def initsleeplock : Sleeplock P := ⟨false, 0, fun _ => false⟩

section

variable [DecidableEq P] (pid : P → ℕ)

def code (p : P) (lk : Sleeplock P) : Label → Act (Sleeplock P) Label Unit Fault
  | .acqAcquire => .acquire .acqTest
  | .acqTest => if lk.locked then .plain lk (some .acqSleep) else .plain lk (some .acqTake)
  | .acqSleep => .sleep () .acqTest
  | .acqTake => .plain ⟨true, pid p, Function.update lk.has p true⟩ (some .acqRelease)
  | .acqRelease => .release lk none
  | .holdAcquire => .acquire .holdTest
  | .holdTest => .plain lk (some (.holdRelease (lk.locked && decide (lk.pid = pid p))))
  | .holdRelease r => .release lk (some (.check r))
  | .check r => if r then .plain lk (some .relAcquire) else .fault .panic
  | .relAcquire => .acquire .relClear
  | .relClear => .plain ⟨false, 0, Function.update lk.has p false⟩ (some .relWakeup)
  | .relWakeup => .wakeup () .relRelease
  | .relRelease => .release lk none

/-- A sleep lock and its processes. -/
def sleeplock : Monitor P Req (Sleeplock P) Label Unit Fault where
  call _ r lk :=
    match r with
    | .acquiresleep => some (lk, some .acqAcquire)
    | .unlock => some (lk, some .holdAcquire)
  act p _ lk l := code pid p lk l
  panic := .spin

end

abbrev State (P : Type*) := Monitor.State P (Sleeplock P) Label Unit

abbrev Event (P : Type*) := Monitor.Event P Req

def start : State P := ⟨initsleeplock, none, fun _ => .out, fun _ => false⟩

theorem start_fresh : Monitor.Fresh (start : State P) := ⟨rfl, fun _ => rfl⟩

/-- The places between `acquire(&lk->lk)` and `release(&lk->lk)`. -/
def Label.Inside : Label → Prop
  | .acqAcquire | .holdAcquire | .check _ | .relAcquire => False
  | _ => True

variable [DecidableEq P] {pid : P → ℕ} {s s' : State P} {e : Event P} {p q : P} {l : Label}

theorem sleeplock_bracketed : (sleeplock pid).Bracketed Label.Inside where
  call := by
    intro p r d d' l h
    cases r <;> (cases h; exact id)
  act := by
    intro p k lk l
    cases l with
    | acqTest =>
      simp only [sleeplock, code]
      split <;> exact Iff.rfl
    | check r =>
      cases r
      · exact trivial
      · exact Iff.rfl
    | _ => simp [sleeplock, code, Monitor.Brackets, Label.Inside]

/-- Where the processes are. -/
def places (s : State P) (p : P) : Option Label := (s.ctl p).place

/-- The lock and its processes agree on who has it. -/
structure Sane (pid : P → ℕ) (lk : Sleeplock P) (pl : P → Option Label) : Prop where
  locked : lk.locked = true ↔ ∃ p, lk.has p = true
  one : ∀ {p q}, lk.has p = true → lk.has q = true → p = q
  pid : ∀ {p}, lk.has p = true → lk.pid = pid p
  free : ∀ {p}, pl p = some .acqTake → lk.locked = false
  /-- who is about to sleep has seen the lock taken -/
  taken : ∀ {p}, pl p = some .acqSleep → lk.locked = true
  checked : ∀ {p r}, pl p = some (.holdRelease r) ∨ pl p = some (.check r) → (r = true ↔ lk.has p = true)
  releasing : ∀ {p}, pl p = some .relAcquire ∨ pl p = some .relClear → lk.has p = true

/-- Whoever sleeps tests again when it goes on. -/
def Fits (_ : Unit) (l : Label) : Prop := l = .acqTest

theorem sleep_fits (p : P) (k : Bool) (lk : Sleeplock P) (l : Label) (c : Unit) (l' : Label)
    (h : (sleeplock pid).act p k lk l = .sleep c l') : Fits c l' := by
  cases l with
  | acqSleep =>
    cases h
    exact rfl
  | acqTest =>
    simp only [sleeplock, code] at h
    split at h <;> cases h
  | check r =>
    simp only [sleeplock, code] at h
    split at h <;> cases h
  | _ => cases h

omit [DecidableEq P] in
theorem go_of_place (hS : Monitor.Sleepers Fits s) (hp : places s p = some l) (hl : l ≠ .acqTest) :
    s.ctl p = .go l := by
  unfold places at hp
  cases hx : s.ctl p with
  | out => rw [hx] at hp; cases hp
  | go l₁ =>
    rw [hx] at hp
    cases hp
    rfl
  | asleep c l₁ =>
    rw [hx] at hp
    cases hp
    exact absurd (hS.asleep p c l hx) hl
  | woken l₁ =>
    rw [hx] at hp
    cases hp
    obtain ⟨c, hf⟩ := hS.woken p l hx
    exact absurd hf hl

namespace Sane

variable {lk : Sleeplock P} {pl pl' : P → Option Label}

/-- `p` goes on, and leaves the lock as it is. -/
theorem move (h : Sane pid lk pl) (hne : ∀ q, q ≠ p → pl' q = pl q)
    (hfree : pl' p = some .acqTake → lk.locked = false) (htaken : pl' p = some .acqSleep → lk.locked = true)
    (hchecked : ∀ r, pl' p = some (.holdRelease r) ∨ pl' p = some (.check r) → (r = true ↔ lk.has p = true))
    (hreleasing : pl' p = some .relAcquire ∨ pl' p = some .relClear → lk.has p = true) : Sane pid lk pl' := by
  refine ⟨h.locked, h.one, h.pid, ?_, ?_, ?_, ?_⟩
  · intro q hq
    by_cases hqp : q = p
    · rw [hqp] at hq
      exact hfree hq
    · rw [hne q hqp] at hq
      exact h.free hq
  · intro q hq
    by_cases hqp : q = p
    · rw [hqp] at hq
      exact htaken hq
    · rw [hne q hqp] at hq
      exact h.taken hq
  · intro q r hq
    by_cases hqp : q = p
    · rw [hqp] at hq ⊢
      exact hchecked r hq
    · rw [hne q hqp] at hq
      exact h.checked hq
  · intro q hq
    by_cases hqp : q = p
    · rw [hqp] at hq ⊢
      exact hreleasing hq
    · rw [hne q hqp] at hq
      exact h.releasing hq

/-- `lk->locked = 1; lk->pid = myproc()->pid` -/
theorem take (h : Sane pid lk pl) (hp : pl p = some .acqTake) (hp' : pl' p = some .acqRelease)
    (hne : ∀ q, q ≠ p → pl' q = pl q) (halone : ∀ q, q ≠ p → pl q ≠ some .acqTake) :
    Sane pid ⟨true, pid p, Function.update lk.has p true⟩ pl' := by
  have hnone : ∀ q, lk.has q = false := by
    intro q
    by_contra hq
    have hlocked := h.locked.2 ⟨q, by simpa using hq⟩
    rw [h.free hp] at hlocked
    cases hlocked
  have honly : ∀ {q}, Function.update lk.has p true q = true → q = p := by
    intro q hq
    by_contra hqp
    rw [Function.update_of_ne hqp, hnone q] at hq
    cases hq
  refine ⟨⟨fun _ => ⟨p, Function.update_self ..⟩, fun _ => rfl⟩, ?_, ?_, ?_, fun _ => rfl, ?_, ?_⟩
  · intro q q' hq hq'
    rw [honly hq, honly hq']
  · intro q hq
    rw [honly hq]
  · intro q hq
    by_cases hqp : q = p
    · rw [hqp, hp'] at hq
      cases hq
    · rw [hne q hqp] at hq
      exact absurd hq (halone q hqp)
  · intro q r hq
    have hqp : q ≠ p := by
      rintro rfl
      rw [hp'] at hq
      rcases hq with hq | hq <;> cases hq
    rw [hne q hqp] at hq
    show r = true ↔ Function.update lk.has p true q = true
    rw [Function.update_of_ne hqp]
    exact h.checked hq
  · intro q hq
    have hqp : q ≠ p := by
      rintro rfl
      rw [hp'] at hq
      rcases hq with hq | hq <;> cases hq
    rw [hne q hqp] at hq
    -- nobody had the lock, so nobody gives it back
    have hq' := h.releasing hq
    rw [hnone q] at hq'
    cases hq'

/-- `lk->locked = 0; lk->pid = 0` -/
theorem clear (h : Sane pid lk pl) (hp : pl p = some .relClear) (hp' : pl' p = some .relWakeup)
    (hne : ∀ q, q ≠ p → pl' q = pl q) (halone : ∀ q, pl q ≠ some .acqSleep) :
    Sane pid ⟨false, 0, Function.update lk.has p false⟩ pl' := by
  have hhas := h.releasing (.inr hp)
  have hnone : ∀ q, Function.update lk.has p false q ≠ true := by
    intro q hq
    by_cases hqp : q = p
    · rw [hqp, Function.update_self] at hq
      cases hq
    · rw [Function.update_of_ne hqp] at hq
      exact hqp (h.one hq hhas)
  refine ⟨⟨?_, ?_⟩, ?_, ?_, fun _ => rfl, ?_, ?_, ?_⟩
  · intro hf
    cases hf
  · rintro ⟨q, hq⟩
    exact absurd hq (hnone q)
  · intro q q' hq
    exact absurd hq (hnone q)
  · intro q hq
    exact absurd hq (hnone q)
  · intro q hq
    have hqp : q ≠ p := by
      rintro rfl
      rw [hp'] at hq
      cases hq
    rw [hne q hqp] at hq
    exact absurd hq (halone q)
  · intro q r hq
    have hqp : q ≠ p := by
      rintro rfl
      rw [hp'] at hq
      rcases hq with hq | hq <;> cases hq
    rw [hne q hqp] at hq
    show r = true ↔ Function.update lk.has p false q = true
    rw [Function.update_of_ne hqp]
    exact h.checked hq
  · intro q hq
    have hqp : q ≠ p := by
      rintro rfl
      rw [hp'] at hq
      rcases hq with hq | hq <;> cases hq
    rw [hne q hqp] at hq
    exact absurd (h.one (h.releasing hq) hhas) hqp

omit [DecidableEq P] in
/-- What `holdingsleep` returns. -/
theorem holding (h : Sane pid lk pl) (hpid : Function.Injective pid) (p : P) :
    (lk.locked && decide (lk.pid = pid p)) = true ↔ lk.has p = true := by
  rw [Bool.and_eq_true, decide_eq_true_eq]
  constructor
  · rintro ⟨hlocked, hp⟩
    obtain ⟨q, hq⟩ := h.locked.1 hlocked
    rw [h.pid hq] at hp
    rw [← hpid hp]
    exact hq
  · intro hp
    exact ⟨h.locked.2 ⟨p, hp⟩, h.pid hp⟩

theorem code (h : Sane pid s.data (places s)) (hpid : Function.Injective pid) (hL : Monitor.Locked Label.Inside s)
    (hS : Monitor.Sleepers Fits s) {d : Sleeplock P} {o : Option Label} (hgo : s.ctl p = .go l)
    (ha : Monitor.effect s.data (Sync.code pid p s.data l) = some (d, o)) (ho : places s' p = o)
    (hne : ∀ q, q ≠ p → places s' q = places s q) : Sane pid d (places s') := by
  have hp : places s p = some l := by
    unfold places
    rw [hgo]
    rfl
  cases l with
  | acqTest =>
    simp only [Sync.code] at ha
    split at ha
    · rename_i htaken
      cases ha
      refine h.move hne ?_ (fun _ => htaken) ?_ ?_ <;> simp [ho]
    · rename_i hfree
      cases ha
      refine h.move hne (fun _ => by simpa using hfree) ?_ ?_ ?_ <;> simp [ho]
  | acqTake =>
    cases ha
    refine h.take hp ho hne fun q hqp hq => hqp ?_
    exact hL.unique (go_of_place hS hq (by simp)) trivial hgo trivial
  | holdTest =>
    cases ha
    refine h.move hne ?_ ?_ ?_ ?_
    · simp [ho]
    · simp [ho]
    · intro r hr
      rw [ho] at hr
      obtain rfl : (s.data.locked && decide (s.data.pid = pid p)) = r := by simpa using hr
      exact h.holding hpid p
    · simp [ho]
  | holdRelease r =>
    cases ha
    refine h.move hne ?_ ?_ ?_ ?_
    · simp [ho]
    · simp [ho]
    · intro r' hr
      rw [ho] at hr
      obtain rfl : r = r' := by simpa using hr
      exact h.checked (.inl hp)
    · simp [ho]
  | check r =>
    simp only [Sync.code] at ha
    split at ha
    · rename_i hr
      cases ha
      refine h.move hne ?_ ?_ ?_ (fun _ => (h.checked (.inr hp)).1 hr) <;> simp [ho]
    · cases ha
  | relAcquire =>
    cases ha
    refine h.move hne ?_ ?_ ?_ (fun _ => h.releasing (.inl hp)) <;> simp [ho]
  | relClear =>
    cases ha
    refine h.clear hp ho hne fun q hq => ?_
    -- a process about to sleep would have the spin lock
    have hqp := hL.unique (go_of_place hS hq (by simp)) trivial hgo trivial
    rw [hqp, hp] at hq
    cases hq
  | _ =>
    cases ha
    refine h.move hne ?_ ?_ ?_ ?_ <;> simp [ho]

theorem step (h : Sane pid s.data (places s)) (hpid : Function.Injective pid) (hL : Monitor.Locked Label.Inside s)
    (hS : Monitor.Sleepers Fits s) (hs : Monitor.View (sleeplock pid) s s' e) : Sane pid s'.data (places s') := by
  cases hs with
  | @call p r d o hp hr hd ho hne =>
    have ho' : places s' p = o := ho
    have hd' : d = s.data := by
      cases r <;> (cases hr; rfl)
    rw [hd, hd']
    refine h.move hne ?_ ?_ ?_ ?_ <;> (cases r <;> (cases hr; simp [ho']))
  | still hd hpl =>
    have hsame : places s' = places s := funext hpl
    rw [hd, hsame]
    exact h
  | act hp ha hd ho hne =>
    rw [hd]
    exact h.code hpid hL hS hp ha ho hne

end Sane

/-- The invariants of the runs. -/
structure Inv (pid : P → ℕ) (s : State P) : Prop where
  locked : Monitor.Locked Label.Inside s
  sleepers : Monitor.Sleepers Fits s
  sane : Sane pid s.data (places s)

variable {es : List (Event P)}

theorem inv_run (hpid : Function.Injective pid) (h : (sleeplock pid).machine.run start es = some (.ok s)) :
    Inv pid s := by
  refine Machine.run_inv (I := Inv pid) ?_ ?_ h
  · refine ⟨start_fresh.locked, start_fresh.sleepers, ⟨⟨?_, ?_⟩, ?_, ?_, ?_, ?_, ?_, ?_⟩⟩
    · intro hf
      cases hf
    · rintro ⟨p, hp⟩
      cases hp
    · intro p q hp
      cases hp
    · intro p hp
      cases hp
    · intro p hp
      cases hp
    · intro p hp
      cases hp
    · rintro p r (hp | hp) <;> cases hp
    · rintro p (hp | hp) <;> cases hp
  · intro s e s' hI hs
    have hstep := Monitor.step_ok hs
    exact ⟨hI.locked.step sleeplock_bracketed hstep, hI.sleepers.step sleep_fits hstep,
      hI.sane.step hpid hI.locked hI.sleepers hstep.view⟩

/-- **One holder.** At most one process has the lock, `locked` and `pid` say which; and the machine stops only when
`brelse` or `iunlock` is called by a process that has not got the lock. -/
theorem one_holder (hpid : Function.Injective pid) (es : List (Event P)) :
    (∀ s, (sleeplock pid).machine.run start es = some (.ok s) →
      (∀ p q, s.data.has p = true → s.data.has q = true → p = q) ∧
      (s.data.locked = true ↔ ∃ p, s.data.has p = true) ∧ ∀ p, s.data.has p = true → s.data.pid = pid p) ∧
    ∀ f, (sleeplock pid).machine.run start es = some (.error f) →
      f = .panic ∧ ∃ es' p s, es = es' ++ [.run p] ∧ (sleeplock pid).machine.run start es' = some (.ok s) ∧
        s.ctl p = .go (.check false) ∧ s.data.has p = false := by
  constructor
  · intro s h
    have hS := (inv_run hpid h).sane
    exact ⟨fun p q => hS.one, hS.locked, fun p => hS.pid⟩
  · intro f hf
    obtain ⟨es', e, s, hes, hrun, hstep⟩ := Machine.run_fault hf
    have hI := inv_run hpid hrun
    obtain ⟨p, l, rfl, hp, ha⟩ := hI.locked.fault sleeplock_bracketed hstep
    -- the only place that faults is the check
    have hl : l = .check false ∧ f = .panic := by
      cases l with
      | acqTest =>
        simp only [sleeplock, code] at ha
        split at ha <;> cases ha
      | check r =>
        cases r
        · cases ha
          exact ⟨rfl, rfl⟩
        · cases ha
      | _ => cases ha
    obtain ⟨rfl, rfl⟩ := hl
    have hpl : places s p = some (.check false) := by
      unfold places
      rw [hp]
      rfl
    have hno := hI.sane.checked (.inr hpl)
    exact ⟨rfl, es', p, s, hes, hrun, hp, by simpa using hno⟩

/-- Process 0 takes the lock and process 1 tries to. -/
def contend : List (Event ℕ) :=
  .call 0 .acquiresleep :: List.replicate 4 (.run 0) ++ .call 1 .acquiresleep :: List.replicate 3 (.run 1)

theorem one_holder_id : ∃ s : State ℕ, (sleeplock id).machine.run start contend = some (.ok s) ∧
    s.data.has 0 = true ∧ s.data.has 1 = false ∧ s.data.pid = id 0 := by
  obtain ⟨s, hs, h0⟩ : ∃ s : State ℕ, (sleeplock id).machine.run start contend = some (.ok s) ∧
      s.data.has 0 = true := Machine.run_of_reaches (by decide)
  obtain ⟨hone, -, hpid⟩ := (one_holder Function.injective_id contend).1 s hs
  refine ⟨s, hs, h0, ?_, hpid 0 h0⟩
  cases h1 : s.data.has 1 with
  | false => rfl
  | true => exact absurd (hone 0 1 h0 h1) (by decide)

/-! ## Sleepers -/

/-- The lock is taken. -/
def Taken (lk : Sleeplock P) (_ : Unit) : Prop := lk.locked = true

def Owes : Label → Unit → Prop
  | .relWakeup, _ => True
  | _, _ => False

theorem owes_inside {c : Unit} (h : Owes l c) : l.Inside := by
  cases l <;> trivial

theorem awake_step (hI : Inv pid s) (h : Monitor.Awake Taken Owes s) (hs : Monitor.Step (sleeplock pid) s e s') :
    Monitor.Awake Taken Owes s' := by
  refine h.step sleeplock_bracketed (fun l c ho => owes_inside ho) hI.locked hs ?_ ?_ ?_
  · intro p r d o c _ hr ht
    cases r <;> (cases hr; exact ht)
  · intro p l c l' _ hp ha
    have hl : l = .acqSleep := by
      cases l with
      | acqSleep => rfl
      | acqTest =>
        simp only [sleeplock, code] at ha
        split at ha <;> cases ha
      | check r =>
        simp only [sleeplock, code] at ha
        split at ha <;> cases ha
      | _ => cases ha
    subst hl
    refine hI.sane.taken (p := p) ?_
    unfold places
    rw [hp]
    rfl
  · intro p l c _ _ _
    cases l with
    | acqTest =>
      simp only [sleeplock, code]
      split <;> exact fun h => .inl (h.elim id False.elim)
    | acqTake => exact fun _ => .inl rfl
    | check r =>
      cases r
      · exact trivial
      · exact fun h => .inl (h.elim id False.elim)
    | relClear => exact fun _ => .inr ⟨_, rfl, trivial⟩
    | relWakeup => exact fun hc _ => absurd rfl hc
    | acqSleep => exact False.elim
    | acqRelease => exact fun h => h.elim id False.elim
    | holdTest => exact fun h => .inl (h.elim id False.elim)
    | holdRelease r => exact fun h => h.elim id False.elim
    | relRelease => exact fun h => h.elim id False.elim
    | _ => exact trivial

/-- **No wakeup is lost**: while `lk->lk` is free, a sleeper waits for a process that has the lock. -/
theorem sleeper_has_reason (hpid : Function.Injective pid) (h : (sleeplock pid).machine.run start es = some (.ok s))
    (hfree : s.lock = none) (hq : s.ctl q = .asleep () l) : ∃ p, s.data.has p = true := by
  have hawake : Monitor.Awake Taken Owes s := by
    refine Machine.run_induct (P := fun _ s => Monitor.Awake Taken Owes s) start_fresh.awake ?_ es s h
    intro es s e s' hrun hA hs
    exact awake_step (inv_run hpid hrun) hA (Monitor.step_ok hs)
  have hI := inv_run hpid h
  exact hI.sane.locked.1 (hawake.free (fun l c ho => owes_inside ho) hI.locked hfree hq)

theorem sleeper_has_reason_contend : ∃ s : State ℕ, (sleeplock id).machine.run start contend = some (.ok s) ∧
    s.ctl 1 = .asleep () .acqTest ∧ ∃ p, s.data.has p = true := by
  obtain ⟨s, hs, hfree, hq⟩ : ∃ s : State ℕ, (sleeplock id).machine.run start contend = some (.ok s) ∧
      s.lock = none ∧ s.ctl 1 = .asleep () .acqTest := Machine.run_of_reaches (by decide)
  exact ⟨s, hs, hq, sleeper_has_reason Function.injective_id hs hfree hq⟩

end Xv6.Sync
