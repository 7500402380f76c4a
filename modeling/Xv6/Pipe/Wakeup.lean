import Xv6.Pipe.Fifo

/-!
# Who sleeps on a pipe

* `World.Waits`: what a channel waits for; `Owes`: who has yet to wake it.
* `Tested`: a process about to sleep has just seen that it must.
* **`no_lost_wakeup`**: while the lock is free, a sleeping writer has a full pipe with an open read end, and a sleeping
  reader an empty pipe with an open write end, unless a killed writer gave up a write before.
* **`killed_writer_strands_reader`**: `pipewrite` does not call `wakeup(&p->nread)` when it gives up, and so a reader
  can sleep at a full pipe.
-/

namespace Xv6.Pipes

variable {P : Type*}

/-- What the sleepers of a channel wait for has not come. The readers of a pipe with `B` are left out. -/
def World.Waits (B : Prop) (w : World P) : Chan → Prop
  | .nread => B ∨ w.pipe.Empty ∧ w.pipe.writeopen = true
  | .nwrite => w.pipe.Full ∧ w.pipe.readopen = true

/-- A process there calls `wakeup` before it releases the lock. -/
def Owes : Label → Chan → Prop
  | .writeLoop _ _, c | .writeFull _ _, c | .writeWakeup _, c => c = .nread
  | .readCopy _ _, c | .readWakeup _ _, c => c = .nwrite
  | .closeWakeup e, c => c = e.chan
  | _, _ => False

theorem owes_inside {l : Label} {c : Chan} (h : Owes l c) : l.Inside := by
  cases l <;> trivial

variable [DecidableEq P] {s s' : State P} {e : Event P} {p q : P} {l : Label} {B : Prop}

/-- A killed writer finds the pipe full, and returns -1 although there are readers. -/
def GivesUp (s : State P) (e : Event P) : Prop :=
  ∃ p addr i, e = .run p ∧ s.ctl p = .go (.writeLoop addr i) ∧ i < addr.length ∧ s.data.pipe.Full ∧
    s.data.pipe.readopen = true ∧ s.killed p = true

/-- A process that is about to sleep has seen that it must. -/
structure Tested (w : World P) (pl : P → Option Label) : Prop where
  read : ∀ {p n}, pl p = some (.readSleep n) → w.pipe.Empty ∧ w.pipe.writeopen = true
  write : ∀ {p addr i}, pl p = some (.writeFull addr i) ∨ pl p = some (.writeSleep addr i) →
    w.pipe.Full ∧ w.pipe.readopen = true

theorem Tested.code {w d : World P} {o : Option Label} (h : Tested s.data (places s)) (hI : Inv s) (hw : s.data = w)
    (hgo : s.ctl p = .go l) (ha : Monitor.effect w (code p (s.killed p) w l) = some (d, o)) (ho : places s' p = o)
    (hne : ∀ q, q ≠ p → places s' q = places s q) : Tested d (places s') := by
  subst hw
  have hlead := effect_leads ha
  have hp : places s p = some l := by
    unfold places
    rw [hgo]
    rfl
  constructor
  · intro q n hq
    by_cases hqp : q = p
    · rw [hqp, ho] at hq
      subst hq
      cases hlead with
      | readWait htest hk =>
        simp only [Pipes.code, if_pos htest, hk] at ha
        cases ha
        exact htest
    · rw [hne q hqp] at hq
      rw [pipe_alone hI.locked (go_of_place hI.sleepers hq (by simp) (by simp)) trivial hgo hqp ha]
      exact h.read hq
  · intro q addr i hq
    by_cases hqp : q = p
    · rw [hqp, ho] at hq
      rcases hq with rfl | rfl
      · cases hlead with
        | writeWait hfull hbroken =>
          simp only [Pipes.code] at ha
          split at ha
          · cases ha
          · rw [if_pos hfull, if_neg hbroken] at ha
            cases ha
            push Not at hbroken
            exact ⟨hfull, by simpa using hbroken.1⟩
      · cases hlead with
        | writeFull =>
          cases ha
          exact h.write (.inl hp)
    · rw [hne q hqp] at hq
      have hgo' : ∃ l', s.ctl q = .go l' ∧ l'.Inside := by
        rcases hq with hq | hq <;> exact ⟨_, go_of_place hI.sleepers hq (by simp) (by simp), trivial⟩
      obtain ⟨l', hgo', hin⟩ := hgo'
      rw [pipe_alone hI.locked hgo' hin hgo hqp ha]
      exact h.write hq

theorem Tested.step (h : Tested s.data (places s)) (hI : Inv s) (hs : Monitor.View (pipe P) s s' e) :
    Tested s'.data (places s') := by
  cases hs with
  | @call p r d o hp hr hd ho hne =>
    rw [hd]
    obtain ⟨hpipe, -, -, -, -, hlabel⟩ := call_same hr
    have hother : ∀ {q l}, places s' q = some l → ¬ l.Starts → places s q = some l :=
      fun hq hns => place_of_call (f := places s) (g := places s') hlabel ho hne hq hns
    constructor
    · intro q n hq
      rw [hpipe]
      exact h.read (hother hq id)
    · intro q addr i hq
      rw [hpipe]
      exact h.write (hq.imp (fun h1 => hother h1 id) fun h1 => hother h1 id)
  | still hd hpl =>
    have hsame : places s' = places s := funext hpl
    rw [hd, hsame]
    exact h
  | act hp ha hd ho hne =>
    rw [hd]
    exact h.code hI rfl hp (effect_code ha).2 ho hne

/-! ## What an action owes -/

/-- Nobody sleeps at a closed end. -/
theorem asleep_open (hI : Inv s) (hq : s.ctl q = .asleep .nread l) : s.data.pipe.readopen = true := by
  obtain ⟨n, rfl⟩ := hI.sleepers.asleep q .nread l hq
  have hpl : places s q = some (.readTest n) := by
    unfold places
    rw [hq]
    rfl
  exact (hI.life.held (hI.life.uses (e := .read) hpl rfl)).1

/-- **Every action pays for the sleepers**, or a writer gives up. -/
theorem code_pays (hI : Inv s) (hB : B ∨ ¬ GivesUp s (.run p)) (hgo : s.ctl p = .go l) {c : Chan}
    (hc : ∃ q l', s.ctl q = .asleep c l') :
    Monitor.Pays (World.Waits B) Owes s.data l c (code p (s.killed p) s.data l) := by
  cases l with
  | readTest n =>
    simp only [code]
    split
    · split <;> exact fun h => .inl (h.elim id False.elim)
    · exact fun h => .inl (h.elim id False.elim)
  | readCopy n acc =>
    simp only [code]
    split
    · rename_i hcopy
      -- the reader wakes the writers afterwards
      intro h
      cases c with
      | nread =>
        rcases h with h | h
        · rcases h with hb | ⟨hempty, -⟩
          · exact .inl (.inl hb)
          · exact absurd hempty hcopy.2
        · cases h
      | nwrite => exact .inr ⟨_, rfl, rfl⟩
    · exact fun h => h.elim .inl fun ho => .inr ⟨_, rfl, ho⟩
  | readWakeup n acc =>
    intro hne ho
    exact absurd ho hne
  | readRelease n acc ret => exact fun h => h.elim id False.elim
  | readSleep n => exact False.elim
  | writeLoop addr i =>
    simp only [code]
    split
    · exact fun h => h.elim .inl fun ho => .inr ⟨_, rfl, ho⟩
    · rename_i b hb
      split
      · rename_i hfull
        split
        · rename_i hbroken
          -- nobody reads any more, or this writer gives up
          rintro (h | rfl)
          · exact .inl h
          · obtain ⟨q, l', hq⟩ := hc
            have hopen := asleep_open hI hq
            rcases hB with hB | hcalm
            · exact .inl (.inl hB)
            · have hkilled : s.killed p = true := by
                rcases hbroken with hr | hk
                · rw [hopen] at hr
                  cases hr
                · exact hk
              have hlt : i < addr.length := (List.getElem?_eq_some_iff.1 hb).1
              exact absurd ⟨p, addr, i, rfl, hgo, hlt, hfull, hopen, hkilled⟩ hcalm
        · exact fun h => h.elim .inl fun ho => .inr ⟨_, rfl, ho⟩
      · rename_i hfull
        intro h
        cases c with
        | nread => exact .inr ⟨_, rfl, rfl⟩
        | nwrite =>
          rcases h with h | h
          · exact absurd h.1 hfull
          · cases h
  | writeFull addr i =>
    intro hne ho
    exact absurd ho hne
  | writeWakeup addr =>
    intro hne ho
    exact absurd ho hne
  | writeSleep addr i => exact False.elim
  | writeRelease addr i ret => exact fun h => h.elim id False.elim
  | closeMark e =>
    intro h
    -- the channel of the other end is woken next
    by_cases hce : c = e.chan
    · exact .inr ⟨_, rfl, hce⟩
    · rcases h with h | h
      · left
        cases e <;> cases c <;> first | exact absurd rfl hce | exact h
      · cases h
  | closeWakeup e =>
    intro hne ho
    exact absurd ho hne
  | closeTest =>
    simp only [code]
    split <;> exact fun h => h.elim id False.elim
  | closeFree => exact fun h => .inl (h.elim id False.elim)
  | _ => exact trivial

/-! ## The runs -/

theorem awake_step (hI : Inv s) (hT : Tested s.data (places s)) (hB : B ∨ ¬ GivesUp s e)
    (h : Monitor.Awake (World.Waits B) Owes s) (hs : Monitor.Step (pipe P) s e s') :
    Monitor.Awake (World.Waits B) Owes s' := by
  have hact : ∀ {p l}, s.ctl p = .go l → (pipe P).act p (s.killed p) s.data l = code p (s.killed p) s.data l := by
    intro p l hp
    have hfrees : s.data.frees = 0 := by
      by_contra h0
      have hout := (hI.life.gone h0).2.2 p
      unfold places at hout
      rw [hp] at hout
      cases hout
    simp only [pipe, hfrees, if_true]
  refine h.step pipe_bracketed (fun l c ho => owes_inside ho) hI.locked hs ?_ ?_ ?_
  · intro p r d o c _ hr hw
    obtain ⟨hpipe, -⟩ := call_same hr
    cases c <;> (simp only [World.Waits, hpipe] at hw ⊢; exact hw)
  · intro p l c l' _ hp ha
    have hpl : places s p = some l := by
      unfold places
      rw [hp]
      rfl
    rcases pipe_sleep ha with ⟨n, rfl, rfl, -⟩ | ⟨addr, i, rfl, rfl, -⟩
    · exact .inr (hT.read hpl)
    · exact hT.write (.inr hpl)
  · intro p l c he hp hc
    rw [hact hp]
    exact code_pays hI (by rw [← he]; exact hB) hp hc

variable {p₀ : P} {page : Fin PIPESIZE → Byte} {es : List (Event P)}

theorem tested_run (h : (pipe P).machine.run (opened p₀ page) es = some (.ok s)) : Tested s.data (places s) := by
  refine Machine.run_induct (P := fun _ s => Tested s.data (places s)) ?_ ?_ es s h
  · constructor
    · intro p n hq
      cases hq
    · rintro p addr i (hq | hq) <;> cases hq
  · intro es s e s' hrun hT hs
    exact hT.step (inv_run hrun) (Monitor.step_ok hs).view

theorem awake_run (hB : B ∨ ¬ (pipe P).machine.Happened GivesUp (opened p₀ page) es)
    (h : (pipe P).machine.run (opened p₀ page) es = some (.ok s)) : Monitor.Awake (World.Waits B) Owes s := by
  revert hB
  refine Machine.run_induct (P := fun es s => B ∨ ¬ (pipe P).machine.Happened GivesUp (opened p₀ page) es →
    Monitor.Awake (World.Waits B) Owes s) ?_ ?_ es s h
  · exact fun _ => (opened_fresh p₀ page).awake
  · intro es s e s' hrun ih hs hB
    refine awake_step (inv_run hrun) (tested_run hrun) ?_ (ih ?_) (Monitor.step_ok hs)
    · exact hB.imp id fun hno hg => hno (Machine.happened_last hrun hg)
    · exact hB.imp id fun hno hg => hno (hg.snoc e)

/-- **No wakeup is lost**, but for a killed writer that gives up: while the lock is free, who sleeps in `pipewrite` has
a full pipe with an open read end, and who sleeps in `piperead` an empty pipe with an open write end. -/
theorem no_lost_wakeup (h : (pipe P).machine.run (opened p₀ page) es = some (.ok s)) (hfree : s.lock = none) :
    (∀ p l, s.ctl p = .asleep .nwrite l → s.data.pipe.Full ∧ s.data.pipe.readopen = true) ∧
    ∀ p l, s.ctl p = .asleep .nread l → s.data.pipe.Empty ∧ s.data.pipe.writeopen = true ∨
      (pipe P).machine.Happened GivesUp (opened p₀ page) es := by
  have hI := inv_run h
  constructor
  · intro p l hp
    exact (awake_run (B := True) (.inl trivial) h).free (fun l c ho => owes_inside ho) hI.locked hfree hp
  · intro p l hp
    by_cases hg : (pipe P).machine.Happened GivesUp (opened p₀ page) es
    · exact .inr hg
    · have hw := (awake_run (B := False) (.inr hg) h).free (fun l c ho => owes_inside ho) hI.locked hfree hp
      exact .inl (hw.resolve_left id)

/-- A reader sleeps at the new pipe. -/
theorem no_lost_wakeup_reader : ∃ s,
    (pipe ℕ).machine.run (opened 0 fun _ => 0) [.call 0 (.read 3), .run 0, .run 0, .run 0] = some (.ok s) ∧
      s.lock = none ∧ ∀ p l, s.ctl p = .asleep .nread l → s.data.pipe.Empty ∧ s.data.pipe.writeopen = true ∨
        (pipe ℕ).machine.Happened GivesUp (opened 0 fun _ => 0) [.call 0 (.read 3), .run 0, .run 0, .run 0] := by
  obtain ⟨s, hs, hfree⟩ : ∃ s, (pipe ℕ).machine.run (opened 0 fun _ => 0)
      [.call 0 (.read 3), .run 0, .run 0, .run 0] = some (.ok s) ∧ s.lock = none :=
    Machine.run_of_reaches (by decide)
  exact ⟨s, hs, hfree, (no_lost_wakeup hs hfree).2⟩

/-! ## The lost wakeup -/

/-- `q` sleeps in `piperead`; `p`, which was killed, has put `i` bytes into the buffer. -/
structure Filling (p q : P) (n : ℕ) (addr : List Byte) (i : ℕ) (s : State P) : Prop where
  lock : s.lock = some p
  writer : s.ctl p = .go (.writeLoop addr i)
  reader : s.ctl q = .asleep .nread (.readTest n)
  others : ∀ x, x ≠ p → x ≠ q → s.ctl x = .out
  killed : s.killed p = true
  frees : s.data.frees = 0
  readopen : s.data.pipe.readopen = true
  items : s.data.pipe.items = addr.take i
  writes : s.data.writes = []

section Strand

variable {n i : ℕ} {addr : List Byte}

theorem Filling.next (h : Filling p q n addr i s) (hpq : p ≠ q) (hi : i < PIPESIZE) (hlen : PIPESIZE < addr.length) :
    ∃ s', Monitor.Step (pipe P) s (.run p) s' ∧ Filling p q n addr (i + 1) s' := by
  have hlt : i < addr.length := by omega
  have hroom : s.data.pipe.items.length < PIPESIZE := by
    rw [h.items, List.length_take]
    omega
  have hfull : ¬ s.data.pipe.Full := by
    rw [full_iff]
    omega
  have hb : addr[i]? = some addr[i] := List.getElem?_eq_getElem hlt
  refine ⟨_, .plain h.writer (d := { s.data with pipe := s.data.pipe.put addr[i], wrote := s.data.wrote ++ [(p, addr[i])] })
    (o := some (.writeLoop addr (i + 1))) ?_, ?_⟩
  · simp only [pipe, h.frees, code, hb, hfull, if_true, if_false]
  · refine ⟨h.lock, Monitor.State.go_self .., ?_, ?_, h.killed, h.frees, h.readopen, ?_, h.writes⟩
    · exact (Monitor.State.go_ne s _ (Ne.symm hpq)).trans h.reader
    · intro x hxp hxq
      exact (Monitor.State.go_ne s _ hxp).trans (h.others x hxp hxq)
    · show (s.data.pipe.put addr[i]).items = _
      rw [items_put hroom, h.items, List.take_add_one, hb]
      rfl

theorem Filling.fill (h : Filling p q n addr 0 s) (hpq : p ≠ q) (hlen : PIPESIZE < addr.length) {s₀ : State P}
    {es : List (Event P)} (hr : (pipe P).machine.run s₀ es = some (.ok s)) :
    ∀ i, i ≤ PIPESIZE → ∃ es' s', (pipe P).machine.run s₀ es' = some (.ok s') ∧ Filling p q n addr i s' := by
  intro i
  induction i with
  | zero => exact fun _ => ⟨es, s, hr, h⟩
  | succ i ih =>
    intro hi
    obtain ⟨es', s', hr', hF⟩ := ih (by omega)
    obtain ⟨s'', hs, hF'⟩ := hF.next hpq (by omega) hlen
    exact ⟨es' ++ [.run p], s'', Monitor.run_step hr' hs, hF'⟩

/-- `q` calls `piperead` and falls asleep, and `p` calls `pipewrite` and is killed. -/
theorem filling_starts (hpq : p ≠ q) (page : Fin PIPESIZE → Byte) (n : ℕ) (addr : List Byte) :
    ∃ es s, (pipe P).machine.run (opened p page) es = some (.ok s) ∧ Filling p q n addr 0 s := by
  have hqp : q ≠ p := Ne.symm hpq
  set d : World P := { (opened p page).data with readers := q ::ₘ {p} } with hd
  have hempty : d.pipe.Empty := rfl
  -- `p` forks `q`
  set s₁ : State P := { (opened p page).go p (.next none) with data := d } with h1
  have hs₁ : Monitor.Step (pipe P) (opened p page) (.call p (.filedup .read q)) s₁ := by
    refine .call rfl ?_
    simp [pipe, call, opened, World.holders, World.setHolders, hd]
  have hout₁ : ∀ x, s₁.ctl x = .out := by
    intro x
    by_cases hx : x = p
    · rw [hx]
      exact Monitor.State.go_self ..
    · exact (Monitor.State.go_ne _ _ hx).trans rfl
  -- `q` reads and falls asleep
  set s₂ : State P := { s₁.go q (.next (some (.readAcquire n))) with data := d } with h2
  have hs₂ : Monitor.Step (pipe P) s₁ (.call q (.read n)) s₂ := by
    refine .call (hout₁ q) ?_
    simp [pipe, call, h1, hd]
  set s₃ : State P := { s₂.go q (.go (.readTest n)) with lock := some q } with h3
  have hs₃ : Monitor.Step (pipe P) s₂ (.run q) s₃ := .acquire (Monitor.State.go_self ..) rfl rfl
  set s₄ : State P := { s₃.go q (.next (some (.readSleep n))) with data := d } with h4
  have hs₄ : Monitor.Step (pipe P) s₃ (.run q) s₄ := by
    refine .plain (Monitor.State.go_self ..) ?_
    have htest : d.pipe.Empty ∧ d.pipe.writeopen = true := ⟨hempty, rfl⟩
    show (pipe P).act q false d (.readTest n) = _
    simp only [pipe, code, if_pos htest]
    rfl
  set s₅ : State P := { s₄.go q (.asleep .nread (.readTest n)) with lock := none } with h5
  have hs₅ : Monitor.Step (pipe P) s₄ (.run q) s₅ := .sleep (Monitor.State.go_self ..) rfl rfl
  have hout₅ : ∀ x, x ≠ q → s₅.ctl x = .out := by
    intro x hx
    refine (Monitor.State.go_ne _ _ hx).trans ((Monitor.State.go_ne _ _ hx).trans ?_)
    exact (Monitor.State.go_ne _ _ hx).trans ((Monitor.State.go_ne _ _ hx).trans (hout₁ x))
  -- `p` writes, takes the lock, and is killed
  set s₆ : State P := { s₅.go p (.next (some (.writeAcquire addr))) with data := d } with h6
  have hs₆ : Monitor.Step (pipe P) s₅ (.call p (.write addr)) s₆ := by
    refine .call (hout₅ p hpq) ?_
    have hmem : p ∈ d.writers := Multiset.mem_singleton_self p
    show call p (.write addr) d = _
    simp only [call, if_pos hmem]
  set s₇ : State P := { s₆.go p (.go (.writeLoop addr 0)) with lock := some p } with h7
  have hs₇ : Monitor.Step (pipe P) s₆ (.run p) s₇ := .acquire (Monitor.State.go_self ..) rfl rfl
  have hrun₀ : (pipe P).machine.run (opened p page) [] = some (.ok (opened p page)) := rfl
  have hrun₄ := Monitor.run_step (Monitor.run_step (Monitor.run_step (Monitor.run_step hrun₀ hs₁) hs₂) hs₃) hs₄
  have hrun := Monitor.run_step (Monitor.run_step (Monitor.run_step (Monitor.run_step hrun₄ hs₅) hs₆) hs₇) (.kill p)
  refine ⟨_, _, hrun, ?_⟩
  have hq₇ : s₇.ctl q = .asleep .nread (.readTest n) := by
    refine (Monitor.State.go_ne _ _ hqp).trans ((Monitor.State.go_ne _ _ hqp).trans ?_)
    exact Monitor.State.go_self ..
  have hp₇ : s₇.ctl p = .go (.writeLoop addr 0) := Monitor.State.go_self ..
  refine ⟨rfl, ?_, ?_, ?_, Function.update_self .., rfl, rfl, ?_, rfl⟩
  · show (s₇.go p (s₇.ctl p).rouse).ctl p = _
    rw [Monitor.State.go_self, hp₇]
    rfl
  · exact (Monitor.State.go_ne _ _ hqp).trans hq₇
  · intro x hxp hxq
    refine (Monitor.State.go_ne _ _ hxp).trans ((Monitor.State.go_ne _ _ hxp).trans ?_)
    exact (Monitor.State.go_ne _ _ hxp).trans (hout₅ x hxq)
  · exact empty_iff.1 hempty

/-- **The wakeup that is lost.** A killed writer that fills the pipe while a reader sleeps gives up without waking the
reader, which goes on sleeping at a full pipe with nobody in the code. -/
theorem killed_writer_strands_reader (hpq : p ≠ q) (page : Fin PIPESIZE → Byte) (n : ℕ) (hlen : PIPESIZE < addr.length) :
    ∃ es s, (pipe P).machine.run (opened p page) es = some (.ok s) ∧ s.lock = none ∧
      s.ctl q = .asleep .nread (.readTest n) ∧ s.data.pipe.items = addr.take PIPESIZE ∧
      s.data.writes = [⟨p, addr, PIPESIZE, -1⟩] ∧ ∀ x, x ≠ q → s.ctl x = .out := by
  obtain ⟨es₀, s₀, hr₀, hF₀⟩ := filling_starts hpq page n addr
  obtain ⟨es₁, s₁, hr₁, hF⟩ := hF₀.fill hpq hlen hr₀ PIPESIZE le_rfl
  have hqp : q ≠ p := Ne.symm hpq
  have hfull : s₁.data.pipe.Full := by
    rw [full_iff, hF.items, List.length_take]
    omega
  -- the test finds the pipe full and the process killed
  have hgive : Monitor.Step (pipe P) s₁ (.run p)
      { s₁.go p (.next (some (.writeRelease addr PIPESIZE (-1)))) with data := s₁.data } := by
    refine .plain hF.writer ?_
    have hb : addr[PIPESIZE]? = some addr[PIPESIZE] := List.getElem?_eq_getElem hlen
    simp only [pipe, hF.frees, code, hb, hfull, hF.killed, if_true, or_true]
  have hrelease := Monitor.Step.release (M := pipe P) (p := p) (l := .writeRelease addr PIPESIZE (-1))
    (s := { s₁.go p (.next (some (.writeRelease addr PIPESIZE (-1)))) with data := s₁.data })
    (d := { s₁.data with writes := s₁.data.writes ++ [⟨p, addr, PIPESIZE, -1⟩] }) (o := none)
    (Monitor.State.go_self ..) (by simp only [pipe, Monitor.State.go, hF.frees, code, if_true]) hF.lock
  refine ⟨_, _, Monitor.run_step (Monitor.run_step hr₁ hgive) hrelease, rfl, ?_, hF.items, ?_, ?_⟩
  · exact (Monitor.State.go_ne _ _ hqp).trans ((Monitor.State.go_ne _ _ hqp).trans hF.reader)
  · show s₁.data.writes ++ _ = _
    rw [hF.writes, List.nil_append]
  · intro x hx
    by_cases hxp : x = p
    · rw [hxp]
      exact Monitor.State.go_self ..
    · exact (Monitor.State.go_ne _ _ hxp).trans ((Monitor.State.go_ne _ _ hxp).trans (hF.others x hxp hx))

end Strand

theorem killed_writer_strands_reader_zeros : ∃ es s,
    (pipe ℕ).machine.run (opened 0 fun _ => 0) es = some (.ok s) ∧ s.lock = none ∧
      s.ctl 1 = .asleep .nread (.readTest 10) ∧ s.data.pipe.items = (List.replicate 513 0).take PIPESIZE ∧
      s.data.writes = [⟨0, List.replicate 513 0, PIPESIZE, -1⟩] ∧ ∀ x, x ≠ 1 → s.ctl x = .out :=
  killed_writer_strands_reader (p := 0) (q := 1) (by decide) (fun _ => 0) 10 (by rw [List.length_replicate]; decide)

end Xv6.Pipes
