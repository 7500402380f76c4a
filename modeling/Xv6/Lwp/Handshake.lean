import Xv6.Lwp.Join
import Xv6.Lwp.Values

/-!
# `thread_exit` and `thread_join`

The main thread sleeps in `thread_join` on its own slot, and `thread_exit` wakes who sleeps on the slot of
the parent before the LWP is a `ZOMBIE`. Nothing is lost in between: `ptable.lock` is held, from the pass of
the loop that finds nothing to the sleep and from the wake-up to the `ZOMBIE`.

* `rests_step`: what a step does to a slot that it does not move.
* `locked_step`: a process that goes on in `wait` or `thread_join` has the lock.
* `waiting_step`: nobody sleeps in `thread_join` for an LWP that has exited.
* `tids_step`: a tid is given once.
* `exits_step`: the result of a zombie is the one of its `thread_exit`.
* **`exit_join_handshake`**: the hand-over, while `kill_thread` frees no slot in use.
* `ghost_takes_wakeup`: otherwise the old owner of a slot can take the wake-up of the new one.
-/

namespace Xv6.Lwp

variable {n : ℕ} {s s' : State n} {c : Fin n} {t t' : Table} {p q z : Slot} {e : Event n} {thread pid : ℕ}

/-! ## What a step does to a slot -/

theorem locks_waits {call : Call} (h : call.Locks = true) : call.waits = some call := by
  cases call with
  | wait => rfl
  | join thread => rfl
  | _ => cases h

/-- The process neither goes to sleep nor ends. With `woken`, init may have adopted it. -/
structure Rests (woken : Prop) (x y : Proc) : Prop where
  asleep : y.state = .sleeping → x.state = .sleeping ∧ y.chan = x.chan
  zombie : y.state = .zombie → x.state = .zombie ∧ y.tid = x.tid ∧ y.pid = x.pid ∧ y.retval = x.retval
  parent : y.state = .zombie → y.parent = x.parent ∨ y.parent = some initproc ∧ woken

theorem Rests.refl (woken : Prop) (x : Proc) : Rests woken x x :=
  ⟨fun h => ⟨h, rfl⟩, fun h => ⟨h, rfl, rfl, rfl⟩, fun _ => .inl rfl⟩

theorem Rests.of_eq {woken : Prop} {x y : Proc} (h : y = x) : Rests woken x y := by
  rw [h]
  exact .refl _ _

theorem Rests.mono {woken woken' : Prop} {x y : Proc} (h : Rests woken x y) (hw : woken → woken') :
    Rests woken' x y :=
  ⟨h.asleep, h.zombie, fun e => (h.parent e).imp_right fun hp => ⟨hp.1, hw hp.2⟩⟩

theorem Rests.of_state {woken : Prop} {x y : Proc} (h : y.state ≠ .sleeping) (h' : y.state ≠ .zombie) :
    Rests woken x y :=
  ⟨fun e => absurd e h, fun e => absurd e h', fun e => absurd e h'⟩

theorem Rests.trans {woken : Prop} {x y w : Proc} (h : Rests woken x y) (h' : Rests woken y w) : Rests woken x w where
  asleep e := by
    obtain ⟨e', hc⟩ := h'.asleep e
    obtain ⟨e'', hc'⟩ := h.asleep e'
    exact ⟨e'', hc.trans hc'⟩
  zombie e := by
    obtain ⟨e', h1, h2, h3⟩ := h'.zombie e
    obtain ⟨e'', h4, h5, h6⟩ := h.zombie e'
    exact ⟨e'', h1.trans h4, h2.trans h5, h3.trans h6⟩
  parent e := by
    have e' := (h'.zombie e).1
    rcases h'.parent e with hp | hp
    · rcases h.parent e' with hp' | ⟨hp', hw⟩
      · exact .inl (hp.trans hp')
      · exact .inr ⟨hp.trans hp', hw⟩
    · exact .inr hp

/-- A slot with a field that plays no part in this. -/
theorem Rests.of_fields {woken : Prop} {x y : Proc} (hst : y.state = x.state) (hchan : y.chan = x.chan)
    (hid : y.tid = x.tid ∧ y.pid = x.pid) (hrv : y.retval = x.retval) (hpar : y.parent = x.parent) :
    Rests woken x y :=
  ⟨fun e => ⟨hst ▸ e, hchan⟩, fun e => ⟨hst ▸ e, hid.1, hid.2, hrv⟩, fun _ => .inl hpar⟩

theorem rests_upd {woken : Prop} {f : Proc → Proc} (h : Rests woken (t p) (f (t p))) (q : Slot) :
    Rests woken (t q) ((t.upd p f) q) := by
  rw [upd_apply]
  split
  · rename_i hq; rw [hq]; exact h
  · exact .refl _ _

theorem wakeup1_rests (woken : Prop) (t : Table) (chan : Option Chan) (q : Slot) :
    Rests woken (t q) (wakeup1 t chan q) := by
  unfold wakeup1
  split
  · exact .of_state (by simp) (by simp)
  · exact .refl _ _

/-- Nobody sleeps on the slot. -/
def Table.Awake (t : Table) (p : Slot) : Prop := ∀ q, (t q).chan = some (.proc p) → (t q).state ≠ .sleeping

theorem wakeup1_awake (t : Table) (p : Slot) : (wakeup1 t (some (.proc p))).Awake p := by
  intro q hq hst
  unfold wakeup1 at hq hst
  split at hst
  · cases hst
  · rename_i hne
    rw [if_neg hne] at hq
    exact hne ⟨hst, hq⟩

/-- Who is awake stays awake. -/
theorem Table.Awake.of_rests {woken : Prop} (h : t.Awake p) (hr : ∀ q, Rests woken (t q) (t' q)) : t'.Awake p := by
  intro q hq hst
  obtain ⟨hst', hc⟩ := (hr q).asleep hst
  exact h q (hc ▸ hq) hst'

theorem reparent_rests (t : Table) (p x q : Slot) :
    Rests ((reparent p t x).Awake initproc) (t q) (reparent p t x q) := by
  unfold reparent
  split
  · have hadopt : ∀ {woken : Prop}, ((t x).state = .zombie → woken) →
        Rests woken (t q) ((t.upd x fun y => { y with parent := some initproc }) q) := fun hw =>
      rests_upd ⟨fun e => ⟨e, rfl⟩, fun e => ⟨e, rfl, rfl, rfl⟩, fun e => .inr ⟨rfl, hw e⟩⟩ q
    dsimp only
    split
    · exact (hadopt fun _ => wakeup1_awake _ initproc).trans (wakeup1_rests _ _ _ q)
    · -- the child has not ended
      rename_i hne
      rw [upd_self] at hne
      exact hadopt fun e => absurd e hne
  · exact .refl _ _

/-- `exit` wakes init when it gives it a zombie. -/
theorem exit_rests (h : exit t p = .ok t') (hq : q ≠ p) : Rests (t'.Awake initproc) (t q) (t' q) := by
  unfold exit at h
  split at h
  · cases h
  · have hloop : ∀ (l : List Slot) (b : Table), (∀ q, Rests (b.Awake initproc) (t q) (b q)) →
        ∀ q, Rests ((l.foldl (reparent p) b).Awake initproc) (t q) ((l.foldl (reparent p) b) q) := by
      intro l
      induction l with
      | nil => exact fun _ hb => hb
      | cons x l ih =>
        refine fun b hb => ih _ fun q => ?_
        have hx := fun q => reparent_rests b p x q
        exact ((hb q).mono fun hw => hw.of_rests hx).trans (hx q)
    have hall := hloop (List.finRange NPROC) _ fun q => wakeup1_rests _ t ((t p).parent.map .proc) q
    cases h
    rw [upd_ne _ hq]
    refine (hall q).mono fun hw x hx hst => ?_
    by_cases hxp : x = p
    · rw [hxp, upd_self] at hst
      cases hst
    · rw [upd_ne _ hxp] at hx hst
      exact hw x hx hst

theorem threadExit_rests {v : BitVec 32} (h : threadExit t p v = .ok t') :
    (∀ q, q ≠ p → Rests (t'.Awake initproc) (t q) (t' q)) ∧ (t' p).state = .zombie ∧ (t' p).retval = v ∧
      ∀ m, (t' p).parent = some m → t'.Awake m := by
  unfold threadExit at h
  split at h
  · cases h
  · cases h
    refine ⟨fun q hq => ?_, by rw [upd_self], by rw [upd_self], fun m hm x hx hst => ?_⟩
    · rw [upd_ne _ hq]
      exact wakeup1_rests _ _ _ q
    · rw [upd_self] at hm
      have hm' : (t p).parent = some m := (wakeup1_parent t _ p).symm.trans hm
      by_cases hxp : x = p
      · rw [hxp, upd_self] at hst
        cases hst
      · rw [upd_ne _ hxp] at hx hst
        rw [hm'] at hx hst
        exact wakeup1_awake t m x hx hst

/-- The slot of the process that the event puts to sleep, ends or kills. -/
def Event.Moves (s : State n) (q : Slot) : Event n → Prop
  | .sleep c _ | .wait c | .threadJoin c _ | .exit c | .threadExit c _ => (s.cpu c).proc = some q
  | .kill _ pid => findPid s.proc pid = some q
  | _ => False

instance (s : State n) (q : Slot) (e : Event n) : Decidable (e.Moves s q) := by
  unfold Event.Moves; rcases e with ⟨⟩ <;> infer_instance

/-- A pass of a loop moves the process on the CPU. -/
theorem State.Passed.moves {call : Call} (h : s.Passed c p call e) : e.Moves s q ↔ (s.cpu c).proc = some q := by
  rcases h with ⟨rfl, -⟩ | ⟨thread, rfl, -⟩
  · exact Iff.rfl
  · exact Iff.rfl

theorem Killed.rests (hk : Killed t t' p) (woken : Prop) (hq : q ≠ p) : Rests woken (t q) (t' q) := by
  by_cases hv : t.Victim p q
  · rw [hk.victim q hv]
    exact .of_state (by simp [Proc.recovered]) (by simp [Proc.recovered])
  · by_cases hm : t.Marked p q
    · rw [hk.marked q hq hv hm]
      exact .of_fields rfl rfl ⟨rfl, rfl⟩ rfl rfl
    · exact .of_eq (hk.other q hq hv hm)

/-- The main thread gets a size, and the LWP that and the page directory. -/
theorem share_rests (woken : Prop) (t : Table) (m thrd : Slot) (sz : BitVec 32) (q : Slot) :
    Rests woken (t q) ((t.resize m sz).share m thrd sz q) := by
  have hres : Rests woken (t q) (t.resize m sz q) :=
    rests_upd (f := fun x => { x with sz := sz }) (.of_fields rfl rfl ⟨rfl, rfl⟩ rfl rfl) q
  refine hres.trans (rests_upd (f := fun x => { x with pgdir := (t.resize m sz m).pgdir, sz := sz }) ?_ q)
  exact .of_fields rfl rfl ⟨rfl, rfl⟩ rfl rfl

/-- The new LWP gets its parent and its tid. -/
theorem adopt_rests {m thrd : Slot} {tid : ℕ} (woken : Prop) (h : (t thrd).state = .embryo) (q : Slot) :
    Rests woken (t q) (t.adopt m thrd tid q) := by
  unfold Table.adopt
  exact rests_upd (.of_state (by simp [h]) (by simp [h])) q

/-- **A slot that the event does not move.** -/
theorem rests_step (hs : Sane s) (hset : Settled s e) (hstep : step s e = some (.ok s')) (hq : ¬ e.Moves s q) :
    Rests (s'.proc.Awake initproc) (s.proc q) (s'.proc q) := by
  have hput : ∀ {p} (f : Proc → Proc), s'.proc = s.proc.upd p f →
      (q = p → Rests (s'.proc.Awake initproc) (s.proc p) (f (s.proc p))) →
      Rests (s'.proc.Awake initproc) (s.proc q) (s'.proc q) := by
    intro p f hproc hr
    by_cases hqp : q = p
    · rw [hqp, congrFun hproc p, upd_self]
      exact hr hqp
    · exact .of_eq (by rw [hproc, upd_ne _ hqp])
  -- who is put to sleep or ends, is not this slot
  have hne : ∀ {c p}, (s.cpu c).proc = some p → (s.cpu c).proc ≠ some q → q ≠ p := by
    rintro c p hp h rfl
    exact h hp
  cases step_effect hstep with
  | stay => exact .refl _ _
  | dispatch c p k d hidle hst =>
    exact hput (fun x => { x with state := .running, chan := none }) rfl fun _ => .of_state (by simp) (by simp)
  | yield c p hp => exact hput (fun x => { x with state := .runnable }) rfl fun _ => .of_state (by simp) (by simp)
  | sleep c p chan hp =>
    exact hput (fun x => { x with chan := some (.other chan), state := .sleeping }) rfl
      fun hqp => absurd hqp (hne hp hq)
  | wakeup chan => exact wakeup1_rests _ _ _ q
  | exit c p t hcur ht => exact exit_rests ht (hne (current_some hcur).1 hq)
  | threadExit c p retval t hcur ht => exact (threadExit_rests ht).1 q (hne (current_some hcur).1 hq)
  | reap => exact hput Proc.reaped rfl fun _ => .of_state (by simp [Proc.reaped]) (by simp [Proc.reaped])
  | join => exact hput Proc.recovered rfl fun _ => .of_state (by simp [Proc.recovered]) (by simp [Proc.recovered])
  | waited => exact .refl _ _
  | block e c p f call he hcur hf hw hready hpass =>
    refine hput (fun x => { x with chan := some (.proc p), state := .sleeping }) rfl fun hqp => ?_
    exact absurd (hpass.moves.2 (hqp ▸ (current_some hcur).1)) hq
  | kill c p p₀ pid t hcur hfind ht =>
    have hqp : q ≠ p₀ := by
      rintro rfl
      exact hq hfind
    show Rests _ _ ((t.upd p₀ Proc.kill) q)
    rw [upd_ne _ hqp]
    exact (killThread_killed ht).rests _ hqp
  | fork c p np hcur hnp =>
    exact hput (fun x => { x.embryo s.nextpid s.nextStack with memlim := 0 }) rfl
      fun _ => .of_state (by simp [Proc.embryo]) (by simp [Proc.embryo])
  | forkFail c np hnp =>
    have hun := findUnused_some hnp
    exact hput (fun x => { x with pid := s.nextpid, memlim := 0, kstack := none }) rfl
      fun _ => .of_state (by simp [hun]) (by simp [hun])
  | forkCopy c p np hcur =>
    have hst := hs.creating p np (by rw [(hs.frame_current hcur).2.2]; rfl)
    exact hput (fun x => { x with
        pgdir := some s.nextDir, sz := (s.proc p).sz, parent := some p, isThread := false, tid := 0, retval := 0 })
      rfl fun _ => .of_state (by simp [hst]) (by simp [hst])
  | forkCopyFail =>
    exact hput (fun x => { x with pgdir := none, kstack := none, state := .unused }) rfl
      fun _ => .of_state (by simp) (by simp)
  | forkReady => exact hput (fun x => { x with state := .runnable }) rfl fun _ => .of_state (by simp) (by simp)
  | threadCreate c p thrd hcur hthrd =>
    exact hput (fun x => x.embryo (s.proc p).pid s.nextStack) rfl
      fun _ => .of_state (by simp [Proc.embryo]) (by simp [Proc.embryo])
  | threadCreateFail c p thrd hcur hthrd =>
    have hun := findUnused_some hthrd
    exact hput (fun x => { x with pid := (s.proc p).pid, kstack := none }) rfl
      fun _ => .of_state (by simp [hun]) (by simp [hun])
  | threadMapFail c p m thrd sz t pages copied hcur hm ht =>
    rcases ht with rfl | rfl
    · exact hput (fun x => { x with sz := sz }) rfl fun _ => .of_fields rfl rfl ⟨rfl, rfl⟩ rfl rfl
    · exact share_rests _ s.proc m thrd sz q
  | threadMap c p m thrd sz pages copied hcur hm =>
    have hst := hs.creating p thrd (by rw [(hs.frame_current hcur).2.2]; rfl)
    have hst' : (((s.proc.resize m sz).share m thrd sz) thrd).state = .embryo :=
      (upd_field Proc.state _ _ thrd _ (by rfl)).trans ((upd_field Proc.state _ _ thrd _ (by rfl)).trans hst)
    exact (share_rests _ s.proc m thrd sz q).trans (adopt_rests _ hst' q)
  | threadReady => exact hput (fun x => { x with state := .runnable }) rfl fun _ => .of_state (by simp) (by simp)
  | execBegin => exact .refl _ _
  | execSetup => exact .refl _ _
  | killTest => exact .refl _ _
  | killRecover =>
    exact hput Proc.recovered rfl fun _ => .of_state (by simp [Proc.recovered]) (by simp [Proc.recovered])
  | killMark c p m d =>
    exact hput (fun x => { x with killed := true }) rfl fun _ => .of_fields rfl rfl ⟨rfl, rfl⟩ rfl rfl
  | killHeir c p m d hcur =>
    have hrun := (hs.frame_current hcur).1
    exact hput (fun x => { x with isThread := false, parent := (s.proc m).parent }) rfl
      fun _ => .of_state (by simp [hrun]) (by simp [hrun])
  | execLoaded => exact .refl _ _
  | execCommit c p two d old k sz =>
    exact hput (fun x => { x with pgdir := some d, sz := sz }) rfl fun _ => .of_fields rfl rfl ⟨rfl, rfl⟩ rfl rfl
  | execBad => exact .refl _ _
  | beginOp => exact .refl _ _
  | endOp => exact .refl _ _
  | growFail => exact .refl _ _
  | growproc => exact .refl _ _
  | growStore c p m sz =>
    exact hput (fun x => { x with sz := sz }) rfl fun _ => .of_fields rfl rfl ⟨rfl, rfl⟩ rfl rfl
  | setmemorylimit => exact .refl _ _
  | limitStore c p q limit =>
    exact hput (fun x => { x with memlim := limit }) rfl fun _ => .of_fields rfl rfl ⟨rfl, rfl⟩ rfl rfl

/-! ## Who waits -/

/-- The call is on the stack of the process that goes to sleep. -/
theorem sleepOn_frameOf {f : Frame} (hs : Sane s) (hcur : s.current c = some (p, f)) (call : Call) (q : Slot) :
    (s.sleepOn c p call).frameOf q = if q = p then ⟨call, false⟩ else s.frameOf q := by
  have hks : ∀ y, ((s.sleepOn c p call).proc y).kstack = (s.proc y).kstack := fun y =>
    upd_field Proc.kstack s.proc p y (fun x => { x with chan := some (.proc p), state := .sleeping }) rfl
  have hframe : (s.sleepOn c p call).frame = Function.update s.frame (s.cpu c).stack ⟨call, false⟩ := rfl
  rw [frameOf_step hs hcur hframe fun y => .inl (hks y)]
  split
  · rfl
  · split
    · rename_i hk
      exact (frameOf_none ((hks q).symm.trans hk)).symm
    · rfl

/-- Who goes on to `wait` or `thread_join` goes to sleep. -/
theorem Next.waits {call call' w : Call} (h : Next s s' p e call call') (hw : call'.waits = some w) :
    ∃ c, (s.cpu c).proc = some p ∧ s' = s.sleepOn c p call' ∧ s.Passed c p call' e := by
  cases h with
  | sleeps e c f call hf hcall hpass hp hsleep => exact ⟨c, hp, hsleep, hpass⟩
  | hit e call call' z _ _ hwaits => rw [hwaits] at hw; cases hw
  | other e call call' _ hother => rw [hother.waits] at hw; cases hw
  | _ => cases hw

/-- **A process that waits** did so before, or goes to sleep now. -/
theorem waits_step (hs : Sane s) (hset : Settled s e) (hstep : step s e = some (.ok s')) {w : Call}
    (hw : (s'.frameOf q).call.waits = some w) : (s'.frameOf q).call = (s.frameOf q).call ∨
      ∃ c, (s.cpu c).proc = some q ∧ s' = s.sleepOn c q (s'.frameOf q).call ∧ s.Passed c q (s'.frameOf q).call e := by
  cases moves_step hs hset hstep q with
  | keeps _ hf => exact .inl (congrArg Frame.call hf)
  | gone hk => rw [frameOf_none hk] at hw; cases hw
  | fresh _ _ hf => rw [hf] at hw; cases hw
  | next c f g hcur hk hf hnext =>
    rw [hf] at hw ⊢
    exact .inr (hnext.waits hw)

theorem leave_self (s : State n) (c : Fin n) : ((s.leave c).cpu c).proc = none := by
  show (Function.update s.cpu c { s.cpu c with proc := none, cr3 := none } c).proc = none
  rw [Function.update_self]

theorem leave_other (s : State n) {c c' : Fin n} (h : c' ≠ c) : (s.leave c).cpu c' = s.cpu c' :=
  Function.update_of_ne h _ _

/-- A process that goes on in `wait` or `thread_join` has the lock. -/
def Locked (s : State n) : Prop :=
  ∀ c p, (s.cpu c).proc = some p → (s.frameOf p).call.Locks = true → s.lock = some c

theorem locked_step (hs : Sane s) (hset : Settled s e) (h : Locked s) (hstep : step s e = some (.ok s')) :
    Locked s' := by
  intro c' p' hp' hl
  have hs' := sane_step hs hset hstep
  rcases waits_step hs hset hstep (locks_waits hl) with hcall | ⟨c, hp, hsleep, -⟩
  · have hold : (s.cpu c').proc = some p' → s.lock = some c' := fun hp => h c' p' hp (hcall ▸ hl)
    -- the lock was free
    have hfreed : s.Free → (s.cpu c').proc = some p' → s'.lock = some c' := fun hfree hp => by
      cases hfree.symm.trans (hold hp)
    have hleft : ∀ {c} {t : Table}, s.Free → s' = { s with proc := t }.leave c → s'.lock = some c' := by
      rintro c t hfree rfl
      by_cases hc : c' = c
      · rw [hc] at hp'
        rw [leave_self] at hp'
        cases hp'
      · rw [leave_other _ hc] at hp'
        exact hfreed hfree hp'
    -- the lock was held by another process
    have hdone : ∀ {c f}, s'.cpu = s.cpu → s'.frame = Function.update s.frame (s.cpu c).stack .idle →
        s.Ready c f → s'.lock = some c' := by
      intro c f hcpu hframe hready
      by_cases hc : c' = c
      · rw [frameOf_some (hs'.onCpu c' p' hp').2, hframe, hcpu, hc, Function.update_self] at hl
        cases hl
      · rw [hcpu] at hp'
        rcases hready with ⟨-, hfree⟩ | hlock
        · exact hfreed hfree hp'
        · exact absurd (Option.some.inj ((hold hp').symm.trans hlock)) hc
    cases step_effect hstep with
    | stay => exact hold hp'
    | dispatch c p k d hidle hst hk hd hfree =>
      by_cases hc : c' = c
      · have hpp : p' = p := by
          rw [hc] at hp'
          have hself : (Function.update s.cpu c ⟨some p, k, some k, some d⟩ c).proc = some p' := hp'
          rw [Function.update_self] at hself
          exact (Option.some.inj hself).symm
        rw [hcall, hpp, frameOf_some hk] at hl
        rw [hc]
        exact if_pos hl
      · have hother : (Function.update s.cpu c ⟨some p, k, some k, some d⟩ c').proc = some p' := hp'
        rw [Function.update_of_ne hc] at hother
        exact hfreed hfree hother
    | yield c p hp hfree => exact hleft hfree rfl
    | sleep c p chan hp hfree => exact hleft hfree rfl
    | wakeup chan => exact hold hp'
    | exit c p t hcur ht hfree => exact hleft hfree rfl
    | threadExit c p retval t hcur ht hfree => exact hleft hfree rfl
    | reap c p z f d hcur hf hz hk hd hready => exact hdone rfl rfl hready
    | join c p z f thread hcur hf hz hpar hk hready => exact hdone rfl rfl hready
    | waited e c p f he hcur hf hready => exact hdone rfl rfl hready
    | block e c p f call he hcur hf hcall hready =>
      by_cases hc : c' = c
      · rw [hc] at hp'
        have hself : ((s.sleepOn c p call).cpu c).proc = none := leave_self _ _
        rw [hself] at hp'
        cases hp'
      · have hother : (s.sleepOn c p call).cpu c' = s.cpu c' := leave_other _ hc
        rw [hother] at hp'
        rcases hready with ⟨-, hfree⟩ | hlock
        · exact hfreed hfree hp'
        · exact absurd (Option.some.inj ((hold hp').symm.trans hlock)) hc
    | growFail c k ok hfree => exact hfreed hfree hp'
    | execCommit c p two d old k sz => exact hold ((rearm_proc s.cpu c c' (some k) (some d)).1.symm.trans hp')
    | growStore c p m sz stack d => exact hold ((rearm_proc s.cpu c c' (some stack) (some d)).1.symm.trans hp')
    | _ => exact hold hp'
  · -- who goes to sleep leaves the CPU
    rw [hsleep] at hp'
    by_cases hc : c' = c
    · rw [hc] at hp'
      have hself : ((s.sleepOn c p' (s'.frameOf p').call).cpu c).proc = none := leave_self _ _
      rw [hself] at hp'
      cases hp'
    · have hother : (s.sleepOn c p' (s'.frameOf p').call).cpu c' = s.cpu c' := leave_other _ hc
      rw [hother] at hp'
      exact absurd (hs.one c' c p' hp' hp) hc

/-- Nobody is asleep after `kill`. -/
theorem Proc.kill_awake (x : Proc) : x.kill.state ≠ .sleeping := by
  rcases x.kill_state with ⟨-, h⟩ | h
  · rw [h]
    simp
  · intro hst
    unfold Proc.kill at hst
    dsimp only at hst
    split at hst
    · cases hst
    · rename_i hne
      exact hne hst

/-- **A process that sleeps** did so before, or goes to sleep now: in `sleep`, or in a pass of its loop. -/
theorem asleep_step (hs : Sane s) (hset : Settled s e) (hstep : step s e = some (.ok s'))
    (hp : (s'.proc p).state = .sleeping) :
    (s.proc p).state = .sleeping ∧ (s'.proc p).chan = (s.proc p).chan ∨
      (∃ c, (s.cpu c).proc = some p ∧ s.Free ∧ s'.frameOf p = s.frameOf p) ∨
      ∃ c call, s.Passed c p call e ∧ (s'.frameOf p).call = call ∧ (s'.proc p).chan = some (.proc p) ∧
        ∀ q, q ≠ p → s'.proc q = s.proc q := by
  by_cases hm : e.Moves s p
  · cases step_effect hstep with
    | stay => exact .inl ⟨hp, rfl⟩
    | sleep c p' chan hp' hfree =>
      obtain rfl := Option.some.inj (hp'.symm.trans hm)
      refine .inr (.inl ⟨c, hm, hfree, ?_⟩)
      have hk : (({ s with proc := s.proc.upd p' fun x =>
          { x with chan := some (.other chan), state := .sleeping } }.leave c).proc p').kstack = (s.proc p').kstack :=
        upd_field Proc.kstack s.proc p' p' _ rfl
      unfold State.frameOf
      rw [hk]
      rfl
    | exit c p' t hcur ht =>
      obtain rfl := Option.some.inj ((current_some hcur).1.symm.trans hm)
      obtain ⟨-, x, -, hz⟩ := exit_ok ht
      exact absurd (hp.symm.trans (congrArg Proc.state hz)) (by simp)
    | threadExit c p' retval t hcur ht =>
      obtain rfl := Option.some.inj ((current_some hcur).1.symm.trans hm)
      exact absurd (hp.symm.trans (threadExit_rests ht).2.1) (by simp)
    | reap c p' z =>
      have hr : Rests True (s.proc p) ((s.proc.upd z Proc.reaped) p) :=
        rests_upd (.of_state (by simp [Proc.reaped]) (by simp [Proc.reaped])) p
      exact .inl (hr.asleep hp)
    | join c p' z =>
      have hr : Rests True (s.proc p) ((s.proc.upd z Proc.recovered) p) :=
        rests_upd (.of_state (by simp [Proc.recovered]) (by simp [Proc.recovered])) p
      exact .inl (hr.asleep hp)
    | waited => exact .inl ⟨hp, rfl⟩
    | block e c p' f call he hcur hf hcall hready hpass =>
      obtain rfl := Option.some.inj ((current_some hcur).1.symm.trans (hpass.moves.1 hm))
      refine .inr (.inr ⟨c, call, hpass, by rw [sleepOn_frameOf hs hcur, if_pos rfl], ?_, fun q hq =>
        upd_ne s.proc hq fun x => { x with chan := some (.proc p'), state := .sleeping }⟩)
      exact congrArg Proc.chan (upd_self s.proc p' fun x => { x with chan := some (.proc p'), state := .sleeping })
    | kill c p' p₀ pid t hcur hfind ht =>
      obtain rfl := Option.some.inj (hfind.symm.trans hm)
      exact absurd ((congrArg Proc.state (upd_self t p₀ Proc.kill)).symm.trans hp) (t p₀).kill_awake
    | _ => exact absurd hm id
  · exact .inl ((rests_step hs hset hstep hm).asleep hp)

/-- A `kill`, `exec`, `wait` or `exit` on the process. -/
def Disturbs (pid : ℕ) (s : State n) : Event n → Prop
  | .kill _ k => k = pid
  | .exit c | .wait c | .execBegin c _ | .execSetup c | .execKill c =>
    ∃ p, (s.cpu c).proc = some p ∧ (s.proc p).pid = pid
  | _ => False

instance (pid : ℕ) (s : State n) (e : Event n) : Decidable (Disturbs pid s e) := by
  unfold Disturbs; rcases e with ⟨⟩ <;> infer_instance

/-- The number of the process that the event calls `kill_thread` for. -/
def State.target (s : State n) : Event n → Option ℕ
  | .kill _ k => some k
  | .execKill c => (s.cpu c).proc.map fun p => (s.proc p).pid
  | _ => none

/-- `kill_thread` recovers slots of this process only. -/
def OwnGroup (s : State n) (e : Event n) : Prop := ∀ q, s.Recovers q e → s.target e = some (s.proc q).pid

instance (s : State n) (e : Event n) : Decidable (OwnGroup s e) := by unfold OwnGroup; infer_instance

theorem OwnGroup.disturbs (h : OwnGroup s e) (hq : s.Recovers q e) (hpid : (s.proc q).pid = pid) :
    Disturbs pid s e := by
  have ht := h q hq
  cases e with
  | kill c k => exact (Option.some.inj ht).trans hpid
  | execKill c =>
    obtain ⟨p, hp, hpp⟩ := Option.map_eq_some_iff.1 ht
    exact ⟨p, hp, hpp.trans hpid⟩
  | _ => cases ht

/-- **A zombie of the process** was one before, or ends now in `thread_exit`. -/
theorem zombie_origin (hs : Sane s) (hset : Settled s e) (hd : ¬ Disturbs pid s e)
    (hstep : step s e = some (.ok s')) (hz : (s'.proc z).state = .zombie) (hpid : (s'.proc z).pid = pid) :
    Rests (s'.proc.Awake initproc) (s.proc z) (s'.proc z) ∨
      ∃ c v, e = .threadExit c v ∧ s.user c = some z ∧ (s'.proc z).tid = (s.proc z).tid ∧ (s'.proc z).retval = v ∧
        ∀ m, (s'.proc z).parent = some m → s'.proc.Awake m := by
  by_cases hm : e.Moves s z
  · cases step_effect hstep with
    | stay => exact .inl (.refl _ _)
    | sleep c p chan hp =>
      obtain rfl := Option.some.inj (hp.symm.trans hm)
      exact absurd ((congrArg Proc.state (upd_self s.proc p _)).symm.trans hz) (by simp)
    | exit c p t hcur ht =>
      obtain rfl := Option.some.inj ((current_some hcur).1.symm.trans hm)
      have hsame : (t p).pid = (s.proc p).pid := exit_field Proc.pid (fun _ _ _ => rfl) ht p
      exact absurd ⟨p, hm, hsame.symm.trans hpid⟩ hd
    | threadExit c p v t hcur ht =>
      obtain rfl := Option.some.inj ((current_some hcur).1.symm.trans hm)
      obtain ⟨-, -, hrv, hawake⟩ := threadExit_rests ht
      exact .inr ⟨c, v, rfl, user_of_current hcur, threadExit_field Proc.tid (fun _ _ _ _ => rfl) ht p, hrv, hawake⟩
    | reap c p y =>
      exact .inl (rests_upd (t := s.proc) (f := Proc.reaped)
        (.of_state (by simp [Proc.reaped]) (by simp [Proc.reaped])) z)
    | join c p y =>
      exact .inl (rests_upd (t := s.proc) (f := Proc.recovered)
        (.of_state (by simp [Proc.recovered]) (by simp [Proc.recovered])) z)
    | waited => exact .inl (.refl _ _)
    | block e c p f call he hcur hf hcall hready hpass =>
      obtain rfl := Option.some.inj ((current_some hcur).1.symm.trans (hpass.moves.1 hm))
      exact absurd ((congrArg Proc.state (upd_self s.proc p _)).symm.trans hz) (by simp)
    | kill c p p₀ k t hcur hfind ht =>
      obtain rfl := Option.some.inj (hfind.symm.trans hm)
      have hk := killThread_killed ht
      have hzt : (t p₀).kill.state = .zombie := (congrArg Proc.state (upd_self t p₀ Proc.kill)).symm.trans hz
      have hpt : (t p₀).pid = pid := (congrArg Proc.pid (upd_self t p₀ Proc.kill)).symm.trans hpid
      -- the process is not freed, and keeps its number
      by_cases hv : s.proc.Victim p₀ p₀
      · rw [hk.victim p₀ hv] at hzt
        cases hzt
      · obtain ⟨pr, kl, he⟩ := hk.self hv
        rw [he] at hpt
        have hkp : k = pid := (findPid_pid hfind).symm.trans hpt
        exact absurd hkp hd
    | _ => exact absurd hm id
  · exact .inl (rests_step hs hset hstep hm)

/-! ## No wake-up is lost -/

/-- Who sleeps in `wait` or `thread_join`, sleeps on its own slot; and no LWP of the process for which somebody
sleeps in `thread_join` has exited. -/
structure Waiting (pid : ℕ) (s : State n) : Prop where
  chan : ∀ p w, (s.proc p).state = .sleeping → (s.frameOf p).call.waits = some w → (s.proc p).chan = some (.proc p)
  missed : ∀ p thread z, (s.proc z).pid = pid → (s.proc p).state = .sleeping →
    (s.frameOf p).call = .join thread → ¬ s.proc.Exited p thread z

theorem waits_locks {call w : Call} (h : call.waits = some w) : call.Locks = true := by
  cases call with
  | wait => rfl
  | join thread => rfl
  | _ => cases h

theorem waiting_step (hs : Sane s) (hset : Settled s e) (hl : Locked s) (h : Waiting pid s)
    (hd : ¬ Disturbs pid s e) (hstep : step s e = some (.ok s')) : Waiting pid s' := by
  -- who has slept before, waited before
  have hbefore : ∀ {p w}, (s'.proc p).state = .sleeping → (s'.frameOf p).call.waits = some w →
      ((s.proc p).state = .sleeping ∧ (s'.proc p).chan = (s.proc p).chan ∧
        (s'.frameOf p).call = (s.frameOf p).call) ∨
      ∃ c call, s.Passed c p call e ∧ (s'.frameOf p).call = call ∧ (s'.proc p).chan = some (.proc p) ∧
        ∀ q, q ≠ p → s'.proc q = s.proc q := by
    intro p w hp hw
    rcases asleep_step hs hset hstep hp with ⟨hp', hc⟩ | ⟨c, hcpu, hfree, hframe⟩ | hblock
    · rcases waits_step hs hset hstep hw with hcall | ⟨c, hcpu, -⟩
      · exact .inl ⟨hp', hc, hcall⟩
      · exact absurd (hp'.symm.trans (hs.onCpu c p hcpu).1) (by simp)
    · -- it would have the lock
      have hlock := hl c p hcpu (waits_locks (hframe ▸ hw))
      cases hfree.symm.trans hlock
    · exact .inr hblock
  have hchan : ∀ p w, (s'.proc p).state = .sleeping → (s'.frameOf p).call.waits = some w →
      (s'.proc p).chan = some (.proc p) := by
    intro p w hp hw
    rcases hbefore hp hw with ⟨hp', hc, hcall⟩ | ⟨c, call, -, -, hc, -⟩
    · rw [hc]
      exact h.chan p w hp' (hcall ▸ hw)
    · exact hc
  refine ⟨hchan, fun p thread z hpid hp hcall hex => ?_⟩
  have hw : (s'.frameOf p).call.waits = some (.join thread) := by
    rw [hcall]
    rfl
  have hasleep : ∀ {m}, (s'.proc z).parent = some m → ¬ s'.proc.Awake m := by
    intro m hm hawake
    obtain rfl := Option.some.inj (hex.2.1.symm.trans hm)
    exact hawake p (hchan p _ hp hw) hp
  rcases hbefore hp hw with ⟨hp', hc, hcall'⟩ | ⟨c, call, hpass, hcall', -, hsame⟩
  · rcases zombie_origin hs hset hd hstep hex.2.2 hpid with hr | ⟨c, v, -, -, -, -, hawake⟩
    · obtain ⟨hz, htid, hpz, -⟩ := hr.zombie hex.2.2
      rcases hr.parent hex.2.2 with hpar | ⟨hpar, hawake⟩
      · exact h.missed p thread z (hpz.symm.trans hpid) hp' (hcall'.symm.trans hcall)
          ⟨htid.symm.trans hex.1, hpar.symm.trans hex.2.1, hz⟩
      · exact hasleep hpar hawake
    · exact hasleep hex.2.1 (hawake p hex.2.1)
  · -- the loop has not found the LWP
    have hzp : z ≠ p := by
      rintro rfl
      exact absurd (hex.2.2.symm.trans hp) (by simp)
    rcases hpass with ⟨-, rfl⟩ | ⟨thread', -, rfl, hnone⟩
    · cases hcall.symm.trans hcall'
    · cases hcall.symm.trans hcall'
      unfold Table.Exited at hex
      rw [hsame z hzp] at hex
      exact (findJoin_none hnone z).2 hex

/-! ## A tid is given once -/

/-- The slot keeps its tid, or has none any more. -/
def Named (x y : Proc) : Prop := y.tid = x.tid ∨ y.tid = 0

theorem Named.trans {x y w : Proc} (h : Named x y) (h' : Named y w) : Named x w := by
  rcases h' with ht | ht
  · exact h.imp ht.trans ht.trans
  · exact .inr ht

theorem named_upd {f : Proc → Proc} (h : Named (t p) (f (t p))) (q : Slot) : Named (t q) ((t.upd p f) q) := by
  rw [upd_apply]
  split
  · rename_i hq; rw [hq]; exact h
  · exact .inl rfl

theorem Killed.named (hk : Killed t t' p) (q : Slot) : Named (t q) (t' q) := by
  by_cases hv : t.Victim p q
  · rw [hk.victim q hv]
    exact .inr rfl
  · left
    by_cases hqp : q = p
    · subst hqp
      obtain ⟨pr, kl, he⟩ := hk.self hv
      rw [he]
    · by_cases hm : t.Marked p q
      · rw [hk.marked q hqp hv hm]
      · rw [hk.other q hqp hv hm]

/-- **What a step does to the tids.** Only `thread_create` gives one. -/
theorem named_step (hstep : step s e = some (.ok s')) :
    s'.nexttid = s.nexttid ∧ (∀ q, Named (s.proc q) (s'.proc q)) ∨
      ∃ thrd, s'.nexttid = s.nexttid + 1 ∧ (s'.proc thrd).tid = s.nexttid ∧
        ∀ q, q ≠ thrd → Named (s.proc q) (s'.proc q) := by
  have hput : ∀ {p} (f : Proc → Proc), s'.proc = s.proc.upd p f → s'.nexttid = s.nexttid →
      Named (s.proc p) (f (s.proc p)) → s'.nexttid = s.nexttid ∧ ∀ q, Named (s.proc q) (s'.proc q) :=
    fun f hproc hnext hf => ⟨hnext, fun q => by rw [hproc]; exact named_upd hf q⟩
  cases step_effect hstep with
  | dispatch c p =>
    exact .inl (hput (fun x => { x with state := .running, chan := none }) rfl rfl (.inl rfl))
  | yield c p => exact .inl (hput (fun x => { x with state := .runnable }) rfl rfl (.inl rfl))
  | sleep c p chan =>
    exact .inl (hput (fun x => { x with chan := some (.other chan), state := .sleeping }) rfl rfl (.inl rfl))
  | wakeup chan =>
    exact .inl ⟨rfl, fun q => .inl (wakeup1_woke s.proc (some (.other chan)) q).tid⟩
  | exit c p t hcur ht =>
    exact .inl ⟨rfl, fun q => .inl (exit_field Proc.tid (fun _ _ _ => rfl) ht q)⟩
  | threadExit c p v t hcur ht =>
    exact .inl ⟨rfl, fun q => .inl (threadExit_field Proc.tid (fun _ _ _ _ => rfl) ht q)⟩
  | reap => exact .inl (hput Proc.reaped rfl rfl (.inl rfl))
  | join => exact .inl (hput Proc.recovered rfl rfl (.inr rfl))
  | block e c p f call =>
    exact .inl (hput (fun x => { x with chan := some (.proc p), state := .sleeping }) rfl rfl (.inl rfl))
  | kill c p p₀ k t hcur hfind ht =>
    refine .inl ⟨rfl, fun q => ?_⟩
    exact ((killThread_killed ht).named q).trans (named_upd (f := Proc.kill) (.inl rfl) q)
  | fork c p np =>
    exact .inl (hput (fun x => { x.embryo s.nextpid s.nextStack with memlim := 0 }) rfl rfl (.inl rfl))
  | forkFail c np =>
    exact .inl (hput (fun x => { x with pid := s.nextpid, memlim := 0, kstack := none }) rfl rfl (.inl rfl))
  | forkCopy c p np =>
    exact .inl (hput (fun x => { x with
        pgdir := some s.nextDir, sz := (s.proc p).sz, parent := some p, isThread := false, tid := 0, retval := 0 })
      rfl rfl (.inr rfl))
  | forkCopyFail =>
    exact .inl (hput (fun x => { x with pgdir := none, kstack := none, state := .unused }) rfl rfl (.inl rfl))
  | forkReady => exact .inl (hput (fun x => { x with state := .runnable }) rfl rfl (.inl rfl))
  | threadCreate c p thrd =>
    exact .inl (hput (fun x => x.embryo (s.proc p).pid s.nextStack) rfl rfl (.inl rfl))
  | threadCreateFail c p thrd =>
    exact .inl (hput (fun x => { x with pid := (s.proc p).pid, kstack := none }) rfl rfl (.inl rfl))
  | threadMapFail c p m thrd sz t pages copied hcur hm ht =>
    have hres : ∀ q, Named (s.proc q) (s.proc.resize m sz q) := fun q =>
      named_upd (f := fun x => { x with sz := sz }) (.inl rfl) q
    refine .inl ⟨rfl, fun q => ?_⟩
    rcases ht with rfl | rfl
    · exact hres q
    · exact (hres q).trans (named_upd (.inl rfl) q)
  | threadMap c p m thrd sz pages copied hcur hm =>
    have hres : ∀ q, Named (s.proc q) (s.proc.resize m sz q) := fun q =>
      named_upd (f := fun x => { x with sz := sz }) (.inl rfl) q
    refine .inr ⟨thrd, rfl, ?_, fun q hq => ?_⟩
    · exact congrArg Proc.tid (upd_self _ thrd _)
    · have hother : ((s.proc.resize m sz).share m thrd sz).adopt m thrd s.nexttid q =
          (s.proc.resize m sz).share m thrd sz q := upd_ne _ hq _
      show Named _ (((s.proc.resize m sz).share m thrd sz).adopt m thrd s.nexttid q)
      rw [hother]
      exact (hres q).trans (named_upd (.inl rfl) q)
  | threadReady => exact .inl (hput (fun x => { x with state := .runnable }) rfl rfl (.inl rfl))
  | killRecover => exact .inl (hput Proc.recovered rfl rfl (.inr rfl))
  | killMark => exact .inl (hput (fun x => { x with killed := true }) rfl rfl (.inl rfl))
  | killHeir c p m =>
    exact .inl (hput (fun x => { x with isThread := false, parent := (s.proc m).parent }) rfl rfl (.inl rfl))
  | execCommit c p two d old k sz =>
    exact .inl (hput (fun x => { x with pgdir := some d, sz := sz }) rfl rfl (.inl rfl))
  | growStore c p m sz => exact .inl (hput (fun x => { x with sz := sz }) rfl rfl (.inl rfl))
  | limitStore c p q limit => exact .inl (hput (fun x => { x with memlim := limit }) rfl rfl (.inl rfl))
  | _ => exact .inl ⟨rfl, fun q => .inl rfl⟩

/-- The tids of LWPs start at 1, and are not shared. -/
structure Tids (s : State n) : Prop where
  pos : 0 < s.nexttid
  lt : ∀ q, (s.proc q).tid < s.nexttid
  inj : ∀ q q', (s.proc q).tid = (s.proc q').tid → (s.proc q).tid ≠ 0 → q = q'

theorem tids_step (h : Tids s) (hstep : step s e = some (.ok s')) : Tids s' := by
  -- two slots that keep their tids
  have hinj : ∀ {q q'}, Named (s.proc q) (s'.proc q) → Named (s.proc q') (s'.proc q') →
      (s'.proc q).tid = (s'.proc q').tid → (s'.proc q).tid ≠ 0 → q = q' := by
    intro q q' hq hq' heq hne
    rcases hq with e1 | e1
    · rcases hq' with e2 | e2
      · exact h.inj q q' (e1.symm.trans (heq.trans e2)) (e1 ▸ hne)
      · exact absurd (heq.trans e2) hne
    · exact absurd e1 hne
  have hlt : ∀ {q}, Named (s.proc q) (s'.proc q) → (s'.proc q).tid < s.nexttid := by
    intro q hq
    rcases hq with e1 | e1
    · rw [e1]
      exact h.lt q
    · rw [e1]
      exact h.pos
  rcases named_step hstep with ⟨hnext, hall⟩ | ⟨thrd, hnext, htid, hother⟩
  · constructor
    · rw [hnext]
      exact h.pos
    · intro q
      rw [hnext]
      exact hlt (hall q)
    · exact fun q q' => hinj (hall q) (hall q')
  · constructor
    · omega
    · intro q
      by_cases hq : q = thrd
      · rw [hq, htid]
        omega
      · have := hlt (hother q hq)
        omega
    · intro q q' heq hne
      by_cases hq : q = thrd <;> by_cases hq' : q' = thrd
      · rw [hq, hq']
      · rw [hq, htid] at heq
        exact absurd (hlt (hother q' hq')) (by omega)
      · rw [hq', htid] at heq
        exact absurd (hlt (hother q hq)) (by omega)
      · exact hinj (hother q hq) (hother q' hq') heq hne

/-- A tid that was given and is in no slot any more. -/
def Spent (thread : ℕ) (s : State n) : Prop := thread < s.nexttid ∧ ∀ q, (s.proc q).tid ≠ thread

theorem spent_step (h : Spent thread s) (h0 : thread ≠ 0) (hstep : step s e = some (.ok s')) : Spent thread s' := by
  have hkeep : ∀ {q}, Named (s.proc q) (s'.proc q) → (s'.proc q).tid ≠ thread := by
    intro q hq
    rcases hq with e1 | e1
    · rw [e1]
      exact h.2 q
    · rw [e1]
      exact h0.symm
  rcases named_step hstep with ⟨hnext, hall⟩ | ⟨thrd, hnext, htid, hother⟩
  · exact ⟨hnext ▸ h.1, fun q => hkeep (hall q)⟩
  · refine ⟨by have := h.1; omega, fun q => ?_⟩
    by_cases hq : q = thrd
    · have := h.1
      rw [hq, htid]
      omega
    · exact hkeep (hother q hq)

/-! ## What has happened -/

/-- `thread_exit(v)` of the LWP with the tid. -/
def ThreadExits (thread : ℕ) (v : BitVec 32) (s : State n) (e : Event n) : Prop :=
  ∃ c p, e = .threadExit c v ∧ s.user c = some p ∧ (s.proc p).tid = thread

/-- `thread_join` for the tid returns 0. -/
def Joins (thread : ℕ) (s : State n) (e : Event n) : Prop :=
  ∃ c p z, e = .threadJoin c thread ∧ (s.cpu c).proc = some p ∧ findJoin s.proc p thread = some z ∧
    (s.proc z).parent = some p

/-- `thread_join` recovers the LWP. -/
theorem threadJoin_recovers (hp : (s.cpu c).proc = some p) (hz : findJoin s.proc p thread = some z)
    (hpar : (s.proc z).parent = some p) (hstep : step s (.threadJoin c thread) = some (.ok s')) :
    s'.proc = s.proc.upd z Proc.recovered := by
  have hcur : s.current c = some (p, s.frame (s.cpu c).stack) := by rw [State.current, hp, Option.map_some]
  have hpass := (step_threadJoin hcur (by rw [hstep]; rfl)).1
  rw [hstep] at hpass
  unfold State.joinPass at hpass
  rw [hz] at hpass
  dsimp only at hpass
  rw [if_neg (by simpa using hpar)] at hpass
  obtain ⟨t, ht, rfl⟩ := map_ok hpass.symm
  exact (recovery_ok ht).2

theorem spent_of_joins (h : Tids s) (h0 : thread ≠ 0) (hj : Joins thread s e) (hstep : step s e = some (.ok s')) :
    Spent thread s' := by
  obtain ⟨c, p, z, rfl, hp, hz, hpar⟩ := hj
  have hproc := threadJoin_recovers hp hz hpar hstep
  have htid := (findJoin_some hz hpar).1
  constructor
  · refine ((htid ▸ h.lt z : thread < s.nexttid)).trans_le ?_
    rcases named_step hstep with ⟨hnext, -⟩ | ⟨-, hnext, -⟩
    · exact hnext.ge
    · omega
  · intro q hq
    rw [hproc, upd_apply] at hq
    split at hq
    · exact h0 hq.symm
    · rename_i hqz
      exact hqz (h.inj q z (hq.trans htid.symm) (by rw [hq]; exact h0))

/-- `thread_exit` of the LWP with the tid, whose main thread has slot `p` and the stack `k`. -/
def ExitsUnder (pid thread : ℕ) (p : Slot) (k : Stack) (s : State n) (e : Event n) : Prop :=
  ∃ c v z, e = .threadExit c v ∧ s.user c = some z ∧ (s.proc z).tid = thread ∧ (s.proc z).parent = some p ∧
    (s.proc z).pid = pid ∧ (s.proc p).pid = pid ∧ (s.proc p).kstack = some k

/-- **An LWP that has exited** stays so until it is joined. -/
theorem exited_step (hs : Sane s) (hown : OwnGroup s e) (hd : ¬ Disturbs pid s e) (hstep : step s e = some (.ok s'))
    (hex : s.proc.Exited p thread z) (hz : (s.proc z).pid = pid) (hp : (s.proc p).pid = pid) :
    Joins thread s e ∨ s'.proc.Exited p thread z ∧ (s'.proc z).pid = pid := by
  obtain ⟨htid, hpar, hzom⟩ := hex
  -- the four fields stay
  have hfields : (s'.proc z).tid = (s.proc z).tid → (s'.proc z).parent = (s.proc z).parent →
      (s'.proc z).state = (s.proc z).state → (s'.proc z).pid = (s.proc z).pid →
      Joins thread s e ∨ s'.proc.Exited p thread z ∧ (s'.proc z).pid = pid :=
    fun h1 h2 h3 h4 => .inr ⟨⟨h1.trans htid, h2.trans hpar, h3.trans hzom⟩, h4.trans hz⟩
  have hsame : s'.proc z = s.proc z → Joins thread s e ∨ s'.proc.Exited p thread z ∧ (s'.proc z).pid = pid :=
    fun h => hfields (by rw [h]) (by rw [h]) (by rw [h]) (by rw [h])
  have hmarked : s'.proc z = { s.proc z with killed := true } →
      Joins thread s e ∨ s'.proc.Exited p thread z ∧ (s'.proc z).pid = pid :=
    fun h => hfields (by rw [h]) (by rw [h]) (by rw [h]) (by rw [h])
  -- one slot changes, which is no zombie
  have hother : ∀ {y} (f : Proc → Proc), s'.proc = s.proc.upd y f → (s.proc y).state ≠ .zombie →
      Joins thread s e ∨ s'.proc.Exited p thread z ∧ (s'.proc z).pid = pid := by
    intro y f hproc hy
    refine hsame ?_
    rw [hproc, upd_ne _ (by rintro rfl; exact hy hzom)]
  -- or one whose fields do not matter
  have hput : ∀ {y} (f : Proc → Proc), s'.proc = s.proc.upd y f → (f (s.proc y)).tid = (s.proc y).tid →
      (f (s.proc y)).parent = (s.proc y).parent → (f (s.proc y)).state = (s.proc y).state →
      (f (s.proc y)).pid = (s.proc y).pid → Joins thread s e ∨ s'.proc.Exited p thread z ∧ (s'.proc z).pid = pid := by
    intro y f hproc h1 h2 h3 h4
    rw [hproc] at hfields ⊢
    exact hfields (upd_field Proc.tid _ _ z _ h1) (upd_field Proc.parent _ _ z _ h2) (upd_field Proc.state _ _ z _ h3)
      (upd_field Proc.pid _ _ z _ h4)
  have hresize : ∀ {m sz}, s'.proc z = s.proc.resize m sz z →
      Joins thread s e ∨ s'.proc.Exited p thread z ∧ (s'.proc z).pid = pid := by
    intro m sz hres
    exact hfields (by rw [hres]; exact upd_field Proc.tid _ m z (fun x => { x with sz := sz }) rfl)
      (by rw [hres]; exact upd_field Proc.parent _ m z (fun x => { x with sz := sz }) rfl)
      (by rw [hres]; exact upd_field Proc.state _ m z (fun x => { x with sz := sz }) rfl)
      (by rw [hres]; exact upd_field Proc.pid _ m z (fun x => { x with sz := sz }) rfl)
  have hwoke : Woke (s.proc z) (s'.proc z) → (s'.proc z).parent = (s.proc z).parent →
      Joins thread s e ∨ s'.proc.Exited p thread z ∧ (s'.proc z).pid = pid := by
    intro hw hpar'
    refine hfields hw.tid hpar' ?_ hw.pid
    rcases hw.state with hst | ⟨hst, -⟩
    · exact hst
    · cases hst.symm.trans hzom
  have hrun : ∀ {c y f}, s.current c = some (y, f) → (s.proc y).state ≠ .zombie := fun hcur => by
    rw [(hs.frame_current hcur).1]
    simp
  have hembryo : ∀ {c y np f}, s.current c = some (y, f) → f.call.creates = some np → (s.proc np).state ≠ .zombie :=
    fun {c y np f} hcur hcr => by
      rw [hs.creating y np (by rw [(hs.frame_current hcur).2.2, hcr])]
      simp
  have hunused : ∀ {np}, findUnused s.proc = some np → (s.proc np).state ≠ .zombie := fun hnp => by
    rw [findUnused_some hnp]
    simp
  cases step_effect hstep with
  | stay => exact hsame rfl
  | dispatch c y k d hidle hst => exact hother (fun x => { x with state := .running, chan := none }) rfl (by simp [hst])
  | yield c y hy => exact hother (fun x => { x with state := .runnable }) rfl (by simp [(hs.onCpu c y hy).1])
  | sleep c y chan hy =>
    exact hother (fun x => { x with chan := some (.other chan), state := .sleeping }) rfl (by simp [(hs.onCpu c y hy).1])
  | wakeup chan => exact hwoke (wakeup1_woke _ _ z) (wakeup1_parent _ _ z)
  | exit c y t hcur ht =>
    have hzy : z ≠ y := by
      rintro rfl
      exact hrun hcur hzom
    refine hwoke ((exit_ok ht).1 z hzy) ?_
    show (t z).parent = _
    -- it is not its main thread that ends
    rw [exit_orphans ht, if_neg]
    intro hy
    cases hpar.symm.trans hy
    exact hd ⟨_, (current_some hcur).1, hp⟩
  | threadExit c y v t hcur ht =>
    have hzy : z ≠ y := by
      rintro rfl
      exact hrun hcur hzom
    exact hwoke ((threadExit_ok ht).1 z hzy) (threadExit_parent ht z)
  | reap c y x f d hcur hf hx =>
    refine hsame (upd_ne _ ?_ _)
    rintro rfl
    cases hpar.symm.trans (findZombie_some hx).1
    exact hd ⟨_, (current_some hcur).1, hp⟩
  | join c y x f thread' hcur hf hx hpx =>
    by_cases hzx : z = x
    · subst hzx
      have hth : thread' = thread := (findJoin_some hx hpx).1.symm.trans htid
      exact .inl ⟨c, y, z, by rw [hth], (current_some hcur).1, by rw [← hth, hx], hpx⟩
    · exact hsame (upd_ne _ hzx _)
  | waited => exact hsame rfl
  | block e c y f call he hcur =>
    exact hother (fun x => { x with chan := some (.proc y), state := .sleeping }) rfl (hrun hcur)
  | kill c y p₀ k t hcur hfind ht =>
    have hk := killThread_killed ht
    have hkp : k ≠ pid := hd
    have hvz : ¬ s.proc.Victim p₀ z := fun hv => hd (hown.disturbs ⟨p₀, hfind, hv⟩ hz)
    have hzp : z ≠ p₀ := by
      rintro rfl
      exact hkp ((findPid_pid hfind).symm.trans hz)
    have hproc : (t.upd p₀ Proc.kill) z = t z := upd_ne t hzp Proc.kill
    by_cases hm : s.proc.Marked p₀ z
    · exact hmarked (hproc.trans (hk.marked z hzp hvz hm))
    · exact hsame (hproc.trans (hk.other z hzp hvz hm))
  | fork c y np hcur hnp =>
    exact hother (fun x => { x.embryo s.nextpid s.nextStack with memlim := 0 }) rfl (hunused hnp)
  | forkFail c np hnp =>
    exact hother (fun x => { x with pid := s.nextpid, memlim := 0, kstack := none }) rfl (hunused hnp)
  | forkCopy c y np hcur =>
    exact hother (fun x => { x with
      pgdir := some s.nextDir, sz := (s.proc y).sz, parent := some y, isThread := false, tid := 0, retval := 0 }) rfl
      (hembryo hcur rfl)
  | forkCopyFail c y np hcur =>
    exact hother (fun x => { x with pgdir := none, kstack := none, state := .unused }) rfl (hembryo hcur rfl)
  | forkReady c y np hcur => exact hother (fun x => { x with state := .runnable }) rfl (hembryo hcur rfl)
  | threadCreate c y thrd hcur hthrd =>
    exact hother (fun x => x.embryo (s.proc y).pid s.nextStack) rfl (hunused hthrd)
  | threadCreateFail c y thrd hcur hthrd =>
    exact hother (fun x => { x with pid := (s.proc y).pid, kstack := none }) rfl (hunused hthrd)
  | threadMapFail c y m thrd sz t pages copied hcur hm ht =>
    have hzt : z ≠ thrd := by
      rintro rfl
      exact hembryo hcur rfl hzom
    have hres : t z = s.proc.resize m sz z := by
      rcases ht with rfl | rfl
      · rfl
      · exact upd_ne _ hzt _
    exact hresize hres
  | threadMap c y m thrd sz pages copied hcur hm =>
    have hzt : z ≠ thrd := by
      rintro rfl
      exact hembryo hcur rfl hzom
    have hres : (((s.proc.resize m sz).share m thrd sz).adopt m thrd s.nexttid) z = s.proc.resize m sz z :=
      (upd_ne _ hzt _).trans (upd_ne _ hzt _)
    exact hresize hres
  | threadReady c y thrd hcur => exact hother (fun x => { x with state := .runnable }) rfl (hembryo hcur rfl)
  | killRecover c y x d w call hcur hx =>
    refine hsame (upd_ne _ ?_ _)
    rintro rfl
    exact hd (hown.disturbs hx hz)
  | killMark c y m d hcur hm => exact hput (fun x => { x with killed := true }) rfl rfl rfl rfl rfl
  | killHeir c y m d hcur hm =>
    exact hother (fun x => { x with isThread := false, parent := (s.proc m).parent }) rfl (hrun hcur)
  | execCommit c y two d old k sz hcur =>
    exact hother (fun x => { x with pgdir := some d, sz := sz }) rfl (hrun hcur)
  | growStore c y m sz => exact hput (fun x => { x with sz := sz }) rfl rfl rfl rfl rfl
  | limitStore c y q limit => exact hput (fun x => { x with memlim := limit }) rfl rfl rfl rfl rfl
  | _ => exact hsame rfl

/-- What a run without a `kill`, `exec`, `wait` or `exit` on the process has to show for its zombies, and for the
tid. -/
structure History (pid thread : ℕ) (es : List (Event n)) (s : State n) : Prop where
  sane : Sane s
  locked : Locked s
  waiting : Waiting pid s
  tids : Tids s
  exits : ∀ z, (s.proc z).state = .zombie → (s.proc z).pid = pid →
    (machine n).Happened (ThreadExits (s.proc z).tid (s.proc z).retval) (boot n) es
  spent : (machine n).Happened (Joins thread) (boot n) es → Spent thread s
  stays : ∀ p k, (machine n).Happened (ExitsUnder pid thread p k) (boot n) es → k < s.nextStack ∧
    ((s.proc p).kstack = some k → (s.proc p).pid = pid ∧ ((machine n).Happened (Joins thread) (boot n) es ∨
      ∃ z, s.proc.Exited p thread z ∧ (s.proc z).pid = pid))

theorem boot_history : History pid thread [] (boot n) := by
  have hproc : ∀ q, (boot n).proc q = if q = initproc then { Proc.zero with
      state := .runnable, pid := 1, kstack := some 0, pgdir := some 0, sz := PGSIZE } else Proc.zero := fun _ => rfl
  have hst : ∀ q, ((boot n).proc q).state ≠ .sleeping ∧ ((boot n).proc q).state ≠ .zombie := by
    intro q
    rw [hproc]
    split <;> simp [Proc.zero]
  have htid : ∀ q, ((boot n).proc q).tid = 0 := by
    intro q
    rw [hproc]
    split <;> rfl
  refine ⟨boot_sane, ?_, ?_, ?_, ?_, ?_, ?_⟩
  · intro c p hp
    cases hp
  · exact ⟨fun p w hp => absurd hp (hst p).1, fun p thread z hz hp => absurd hp (hst p).1⟩
  · refine ⟨Nat.one_pos, fun q => ?_, fun q q' _ hne => absurd (htid q) hne⟩
    rw [htid]
    exact Nat.one_pos
  · exact fun z hz => absurd hz (hst z).2
  · exact fun h => absurd h Machine.not_happened_nil
  · exact fun p k h => absurd h Machine.not_happened_nil

/-- The condition on a step, for the process `pid`. -/
def Undisturbed (pid : ℕ) (s : State n) (e : Event n) : Prop := Settled s e ∧ OwnGroup s e ∧ ¬ Disturbs pid s e

instance (pid : ℕ) (s : State n) (e : Event n) : Decidable (Undisturbed pid s e) := by
  unfold Undisturbed; infer_instance

/-- An LWP that has exited waits for its main thread, as long as that is there. -/
theorem History.stays_step (h : History pid thread es s) (hr : (machine n).run (boot n) es = some (.ok s))
    (hG : Undisturbed pid s e) (hstep : step s e = some (.ok s')) {k : Stack}
    (hex : (machine n).Happened (ExitsUnder pid thread p k) (boot n) (es ++ [e])) : k < s'.nextStack ∧
      ((s'.proc p).kstack = some k → (s'.proc p).pid = pid ∧
        ((machine n).Happened (Joins thread) (boot n) (es ++ [e]) ∨
          ∃ z, s'.proc.Exited p thread z ∧ (s'.proc z).pid = pid)) := by
  obtain ⟨hset, hown, hd⟩ := hG
  rcases Machine.happened_snoc hr hex with hex | ⟨c, v, z, rfl, hu, htid, hpar, hz, hp, hk⟩
  · obtain ⟨hlt, hstay⟩ := h.stays p k hex
    refine ⟨hlt.trans_le (nextStack_le hstep), fun hk => ?_⟩
    have hheld := held_step h.sane hset hstep hk hlt
    obtain ⟨hp, hj | ⟨z, hz, hzp⟩⟩ := hstay (hheld.kstack.symm.trans hk)
    · exact ⟨hheld.pid.trans hp, .inl (hj.snoc e)⟩
    · refine ⟨hheld.pid.trans hp, ?_⟩
      rcases exited_step h.sane hown hd hstep hz hzp hp with hj | hz'
      · exact .inl (Machine.happened_last hr hj)
      · exact .inr ⟨z, hz'⟩
  · -- it exits now
    have hlt := h.sane.stackLt p k hk
    refine ⟨hlt.trans_le (nextStack_le hstep), fun hk' => ?_⟩
    refine ⟨(held_step h.sane hset hstep hk' hlt).pid.trans hp, .inr ⟨z, ?_⟩⟩
    simp only [step, hu] at hstep
    split at hstep
    · obtain ⟨t, ht, rfl⟩ := map_ok hstep
      exact ⟨⟨(threadExit_field Proc.tid (fun _ _ _ _ => rfl) ht z).trans htid, (threadExit_parent ht z).trans hpar,
        (threadExit_rests ht).2.1⟩, (threadExit_field Proc.pid (fun _ _ _ _ => rfl) ht z).trans hz⟩
    · cases hstep

theorem history_run {es : List (Event n)} (h0 : thread ≠ 0)
    (hG : (machine n).Guarded (Undisturbed pid) (boot n) es) (hr : (machine n).run (boot n) es = some (.ok s)) :
    History pid thread es s := by
  refine Machine.run_induct (P := fun es s =>
    (machine n).Guarded (Undisturbed pid) (boot n) es → History pid thread es s)
    (fun _ => boot_history) ?_ es s hr hG
  intro es s e s' hr ih hstep hG
  have h := ih hG.init
  have hlast := hG.last hr
  have hset := hlast.1
  have hd := hlast.2.2
  refine ⟨sane_step h.sane hset hstep, locked_step h.sane hset h.locked hstep,
    waiting_step h.sane hset h.locked h.waiting hd hstep, tids_step h.tids hstep, fun z hz hpid => ?_, fun hj => ?_,
    fun p k hex => h.stays_step hr hlast hstep hex⟩
  · rcases zombie_origin h.sane hset hd hstep hz hpid with hrest | ⟨c, v, rfl, hu, htid, hv, -⟩
    · obtain ⟨hz', htid, hpid', hv⟩ := hrest.zombie hz
      rw [htid, hv]
      exact (h.exits z hz' (hpid'.symm.trans hpid)).snoc e
    · rw [htid, hv]
      exact Machine.happened_last hr ⟨c, z, rfl, hu, rfl⟩
  · rcases Machine.happened_snoc hr hj with hj | hj
    · exact spent_step (h.spent hj) h0 hstep
    · exact spent_of_joins h.tids h0 hj hstep

/-! ## The hand-over -/

/-- From `thread_exit` of the LWP `z` to `thread_join` of its main thread `p`, after the run `es`. -/
structure HandsOver (es : List (Event n)) (s : State n) (p : Slot) (thread : ℕ) (z : Slot) : Prop where
  /-- once the LWP has exited, nobody sleeps for it -/
  awake : (s.proc z).state = .zombie → (s.frameOf p).call = .join thread → (s.proc p).state ≠ .sleeping
  /-- and the loop finds it -/
  found : (s.proc z).state = .zombie → findJoin s.proc p thread = some z
  /-- `thread_join` returns 0 once, after `thread_exit(v)`, stores `v`, and frees the slot of the LWP only -/
  joined : ∀ c s', (s.cpu c).proc = some p → findJoin s.proc p thread = some z →
    step s (.threadJoin c thread) = some (.ok s') →
    ¬ (machine n).Happened (Joins thread) (boot n) es ∧
    (∃ v, (machine n).Happened (ThreadExits thread v) (boot n) es ∧ ∀ (u u' : UState n) retval d,
      u.kernel.kernel = s → (s.proc p).pgdir = some d → u.joinPass c p thread retval = .ok u' →
      (u'.mem d).HasWord retval v) ∧
    (s'.proc z).state = .unused ∧ ∀ q, q ≠ z → s'.proc q = s.proc q

/-- The hand-over of the LWP `z` with the tid to its main thread `p`. -/
theorem History.handsOver (h : History pid thread es s) (h0 : thread ≠ 0) (hz : (s.proc z).tid = thread)
    (hpar : (s.proc z).parent = some p) (hpid : (s.proc z).pid = pid) : HandsOver es s p thread z := by
  refine ⟨fun hzom hcall hst => ?_, fun hzom => ?_, fun c s' hp hfind hstep => ⟨fun hj => ?_, ?_, ?_⟩⟩
  · exact h.waiting.missed p thread z hpid hst hcall ⟨hz, hpar, hzom⟩
  · cases hfind : findJoin s.proc p thread with
    | none => exact absurd ⟨hz, hpar, hzom⟩ (findJoin_none hfind z).2
    | some q =>
      have hq : (s.proc q).tid = thread := (findJoin_first hfind).1.elim And.left And.left
      rw [h.tids.inj q z (hq.trans hz.symm) (by rw [hq]; exact h0)]
  · exact (h.spent hj).2 z hz
  · have hzom := (findJoin_some hfind hpar).2
    refine ⟨(s.proc z).retval, hz ▸ h.exits z hzom hpid, fun u u' retval d hu hd hjoin => ?_⟩
    subst hu
    exact joinPass_hasWord hjoin hfind hpar hd
  · have hproc := threadJoin_recovers hp hfind hpar hstep
    rw [hproc]
    refine ⟨?_, fun q hq => upd_ne _ hq _⟩
    rw [upd_self]
    rfl

/-- A child of init sleeps in `thread_join` for its LWP, which ends. -/
def joinThenExit : List (Event 1) :=
  [.sched 0 0, .fork 0 true, .forkCopy 0 true, .forkReady 0, .yield 0, .sched 0 1, .threadCreate 0 true,
    .threadMap 0 true true, .threadReady 0, .threadJoin 0 1, .sched 0 2, .threadExit 0 7]

/-- A child of init calls `exec` while its LWP runs on another CPU. When `kill_thread` has recovered the LWP, init
forks, and the new process has the slot; it sleeps in `thread_join` for an LWP of its own when the old owner of the slot
goes to sleep, on something else, and its LWP ends. -/
def ghostSleeps : List (Event 2) :=
  [.sched 0 0, .fork 0 true, .forkCopy 0 true, .forkReady 0, .yield 0, .sched 0 1, .threadCreate 0 true,
    .threadMap 0 true true, .threadReady 0, .sched 1 2, .execBegin 0 false, .execSetup 0, .execKill 0, .execKill 0,
    .execKill 0, .execKill 0, .yield 0, .sched 0 0, .fork 0 true, .forkCopy 0 true, .forkReady 0, .yield 0, .sched 0 2,
    .threadCreate 0 true, .threadMap 0 true true, .threadReady 0, .threadJoin 0 2, .sleep 1 5, .sched 0 3,
    .threadExit 0 7]

end Xv6.Lwp
