import Xv6.Lwp.Limit

/-!
# A process that calls `exit`

`exit` ends its caller and gives the caller's children to init. It looks at no other member of the thread
group: these run on, under the number of a process that has exited.

* `uses_step`: a slot in use was in use before, with its number, or is new.
* `left_run`: a number without a live process stays so.
* **`exit_ends_process`**: what `exit` does to the process, by what the other members are.
* `lwp_exit_goes_on`: an LWP exits, and its main thread runs.
-/

namespace Xv6.Lwp

variable {n : ℕ} {s s' : State n} {c : Fin n} {t t' : Table} {p q z : Slot} {e : Event n} {pid : ℕ}

/-! ## What a step does to the numbers in use -/

/-- A slot in use that was in use before, with its number, and that is a zombie if it was one. -/
def Stays (x y : Proc) : Prop :=
  y.state ≠ .unused → x.state ≠ .unused ∧ y.pid = x.pid ∧ (x.state = .zombie → y.state = .zombie)

theorem Stays.refl (x : Proc) : Stays x x := fun h => ⟨h, rfl, id⟩

theorem Stays.of_fields {x y : Proc} (hst : y.state = x.state) (hpid : y.pid = x.pid) : Stays x y :=
  fun h => ⟨hst ▸ h, hpid, fun hz => hst.trans hz⟩

/-- The process does anything but end for good. -/
theorem Stays.of_live {x y : Proc} (hun : x.state ≠ .unused) (hz : x.state ≠ .zombie) (hpid : y.pid = x.pid) :
    Stays x y :=
  fun _ => ⟨hun, hpid, fun h => absurd h hz⟩

theorem Stays.of_unused {x y : Proc} (h : y.state = .unused) : Stays x y := fun hne => absurd h hne

theorem Stays.trans {x y w : Proc} (h : Stays x y) (h' : Stays y w) : Stays x w := by
  intro hw
  obtain ⟨hy, hpid, hz⟩ := h' hw
  obtain ⟨hx, hpid', hz'⟩ := h hy
  exact ⟨hx, hpid.trans hpid', fun hxz => hz (hz' hxz)⟩

theorem Woke.stays {x y : Proc} (h : Woke x y) : Stays x y := by
  rcases h.state with hst | ⟨hst, hst'⟩
  · exact .of_fields hst h.pid
  · exact .of_live (by simp [hst]) (by simp [hst]) h.pid

theorem stays_upd {f : Proc → Proc} (h : Stays (t p) (f (t p))) (q : Slot) : Stays (t q) ((t.upd p f) q) := by
  rw [upd_apply]
  split
  · rename_i hq; rw [hq]; exact h
  · exact .refl _

theorem Killed.stays (hk : Killed t t' p) (q : Slot) : Stays (t q) (t' q) := by
  by_cases hv : t.Victim p q
  · rw [hk.victim q hv]
    exact .of_unused rfl
  · by_cases hqp : q = p
    · subst hqp
      obtain ⟨pr, kl, he⟩ := hk.self hv
      rw [he]
      exact .of_fields rfl rfl
    · by_cases hm : t.Marked p q
      · rw [hk.marked q hqp hv hm]
        exact .of_fields rfl rfl
      · rw [hk.other q hqp hv hm]
        exact .refl _

theorem Proc.kill_stays (x : Proc) : Stays x x.kill := by
  rcases x.kill_state with ⟨hst, -⟩ | hst
  · exact .of_live (by simp [hst]) (by simp [hst]) rfl
  · exact .of_fields hst rfl

theorem exit_stays (hrun : (s.proc p).state = .running) (h : exit s.proc p = .ok t) (q : Slot) :
    Stays (s.proc q) (t q) := by
  obtain ⟨hother, -⟩ := exit_ok h
  by_cases hq : q = p
  · subst hq
    exact .of_live (by simp [hrun]) (by simp [hrun]) (exit_field Proc.pid (fun _ _ _ => rfl) h q)
  · exact (hother q hq).stays

/-- A new process: the child of `fork` or an LWP of the caller. -/
def Begins (s : State n) (x : Proc) : Prop := x.pid = s.nextpid ∨ ∃ c p, s.user c = some p ∧ x.pid = (s.proc p).pid

/-- **A slot in use** stays, or is new. -/
theorem uses_step (hs : Sane s) (hstep : step s e = some (.ok s')) (q : Slot) :
    Stays (s.proc q) (s'.proc q) ∨ Begins s (s'.proc q) := by
  have hput : ∀ {p} (f : Proc → Proc), s'.proc = s.proc.upd p f → Stays (s.proc p) (f (s.proc p)) →
      Stays (s.proc q) (s'.proc q) := fun f hproc hf => by rw [hproc]; exact stays_upd hf q
  -- a process takes an unused slot
  have hspawn : ∀ {np} (f : Proc → Proc), s'.proc = s.proc.upd np f → Begins s (f (s.proc np)) →
      Stays (s.proc q) (s'.proc q) ∨ Begins s (s'.proc q) := by
    intro np f hproc hb
    rw [hproc, upd_apply]
    split
    · rename_i hq
      rw [hq]
      exact .inr hb
    · exact .inl (.refl _)
  have hembryo : ∀ {c p np f}, s.current c = some (p, f) → f.call.creates = some np → (s.proc np).state = .embryo :=
    fun {c p np f} hcur hcr => hs.creating p np (by rw [(hs.frame_current hcur).2.2, hcr])
  have hlive : ∀ {c p} {y : Proc}, (s.cpu c).proc = some p → y.pid = (s.proc p).pid → Stays (s.proc p) y := by
    intro c p y hp hpid
    have hrun := (hs.onCpu c p hp).1
    exact .of_live (by simp [hrun]) (by simp [hrun]) hpid
  cases step_effect hstep with
  | dispatch c p k d hidle hst =>
    exact .inl (hput (fun x => { x with state := .running, chan := none }) rfl
      (.of_live (by simp [hst]) (by simp [hst]) rfl))
  | yield c p hp => exact .inl (hput (fun x => { x with state := .runnable }) rfl (hlive hp rfl))
  | sleep c p chan hp =>
    exact .inl (hput (fun x => { x with chan := some (.other chan), state := .sleeping }) rfl (hlive hp rfl))
  | wakeup chan => exact .inl (wakeup1_woke _ _ q).stays
  | exit c p t hcur ht => exact .inl (exit_stays (hs.frame_current hcur).1 ht q)
  | threadExit c p v t hcur ht =>
    left
    obtain ⟨hother, x, hx, hz⟩ := threadExit_ok ht
    have hrun := (hs.frame_current hcur).1
    by_cases hq : q = p
    · subst hq
      exact .of_live (by simp [hrun]) (by simp [hrun]) ((congrArg Proc.pid hz).trans hx.pid)
    · exact (hother q hq).stays
  | reap => exact .inl (hput Proc.reaped rfl (.of_unused rfl))
  | join => exact .inl (hput Proc.recovered rfl (.of_unused rfl))
  | block e c p f call he hcur =>
    exact .inl (hput (fun x => { x with chan := some (.proc p), state := .sleeping }) rfl
      (hlive (current_some hcur).1 rfl))
  | kill c p p₀ k t hcur hfind ht =>
    exact .inl (((killThread_killed ht).stays q).trans (stays_upd (f := Proc.kill) (t p₀).kill_stays q))
  | fork c p np =>
    exact hspawn (fun x => { x.embryo s.nextpid s.nextStack with memlim := 0 }) rfl (.inl rfl)
  | forkFail c np =>
    exact hspawn (fun x => { x with pid := s.nextpid, memlim := 0, kstack := none }) rfl (.inl rfl)
  | forkCopy c p np hcur =>
    have hst := hembryo hcur rfl
    exact .inl (hput (fun x => { x with
        pgdir := some s.nextDir, sz := (s.proc p).sz, parent := some p, isThread := false, tid := 0, retval := 0 })
      rfl (.of_live (by simp [hst]) (by simp [hst]) rfl))
  | forkCopyFail =>
    exact .inl (hput (fun x => { x with pgdir := none, kstack := none, state := .unused }) rfl (.of_unused rfl))
  | forkReady c p np hcur =>
    have hst := hembryo hcur rfl
    exact .inl (hput (fun x => { x with state := .runnable }) rfl (.of_live (by simp [hst]) (by simp [hst]) rfl))
  | threadCreate c p thrd hcur =>
    exact hspawn (fun x => x.embryo (s.proc p).pid s.nextStack) rfl (.inr ⟨c, p, user_of_current hcur, rfl⟩)
  | threadCreateFail c p thrd hcur =>
    exact hspawn (fun x => { x with pid := (s.proc p).pid, kstack := none }) rfl
      (.inr ⟨c, p, user_of_current hcur, rfl⟩)
  | threadMapFail c p m thrd sz t pages copied hcur hm ht =>
    left
    have hres : Stays (s.proc q) (s.proc.resize m sz q) :=
      stays_upd (f := fun x => { x with sz := sz }) (.of_fields rfl rfl) q
    rcases ht with rfl | rfl
    · exact hres
    · exact hres.trans (stays_upd (.of_fields rfl rfl) q)
  | threadMap c p m thrd sz pages copied hcur hm =>
    left
    have hres : Stays (s.proc q) (s.proc.resize m sz q) :=
      stays_upd (f := fun x => { x with sz := sz }) (.of_fields rfl rfl) q
    have hshare : Stays (s.proc q) (((s.proc.resize m sz).share m thrd sz) q) :=
      hres.trans (stays_upd (.of_fields rfl rfl) q)
    exact hshare.trans (stays_upd (.of_fields rfl rfl) q)
  | threadReady c p thrd hcur =>
    have hst := hembryo hcur rfl
    exact .inl (hput (fun x => { x with state := .runnable }) rfl (.of_live (by simp [hst]) (by simp [hst]) rfl))
  | killRecover c p z => exact .inl (hput Proc.recovered rfl (.of_unused rfl))
  | killMark c p m => exact .inl (hput (fun x => { x with killed := true }) rfl (.of_fields rfl rfl))
  | killHeir c p m =>
    exact .inl (hput (fun x => { x with isThread := false, parent := (s.proc m).parent }) rfl (.of_fields rfl rfl))
  | execCommit c p two d old k sz =>
    exact .inl (hput (fun x => { x with pgdir := some d, sz := sz }) rfl (.of_fields rfl rfl))
  | growStore c p m sz => exact .inl (hput (fun x => { x with sz := sz }) rfl (.of_fields rfl rfl))
  | limitStore c p k limit => exact .inl (hput (fun x => { x with memlim := limit }) rfl (.of_fields rfl rfl))
  | _ => exact .inl (.refl _)

/-! ## A number whose processes have exited -/

/-- The number is taken, and all that is left of its processes are zombies. -/
structure Left (pid : ℕ) (s : State n) : Prop where
  taken : pid < s.nextpid
  zombie : ∀ q, (s.proc q).state ≠ .unused → (s.proc q).pid = pid → (s.proc q).state = .zombie

/-- The slots in use with the number are among these. -/
def Confined (pid : ℕ) (C : Slot → Prop) (s : State n) : Prop :=
  ∀ q, (s.proc q).state ≠ .unused → (s.proc q).pid = pid → C q

/-- A process in user space has another number. -/
theorem Left.user (h : Left pid s) (hs : Sane s) (hu : s.user c = some q) : (s.proc q).pid ≠ pid := by
  intro hpid
  have hrun := (hs.frame_current (user_some hu)).1
  have hz := h.zombie q (by simp [hrun]) hpid
  exact absurd (hrun.symm.trans hz) (by simp)

/-- Nothing begins with the number. -/
theorem Left.not_begins (h : Left pid s) (hs : Sane s) {x : Proc} (hx : x.pid = pid) : ¬ Begins s x := by
  rintro (hnew | ⟨c, p, hu, hp⟩)
  · exact absurd h.taken (by rw [← hx, hnew]; exact lt_irrefl _)
  · exact h.user hs hu (hp.symm.trans hx)

theorem left_step (hs : Sane s) (hn : Numbered s) (h : Left pid s) (hstep : step s e = some (.ok s')) :
    Left pid s' := by
  refine ⟨h.taken.trans_le (numbered_step hn hstep).2, fun q hq hpid => ?_⟩
  rcases uses_step hs hstep q with hst | hb
  · obtain ⟨hun, hsame, hz⟩ := hst hq
    exact hz (h.zombie q hun (hsame.symm.trans hpid))
  · exact absurd hb (h.not_begins hs hpid)

theorem confined_step {C : Slot → Prop} (hs : Sane s) (h : Left pid s) (hc : Confined pid C s)
    (hstep : step s e = some (.ok s')) : Confined pid C s' := by
  intro q hq hpid
  rcases uses_step hs hstep q with hst | hb
  · obtain ⟨hun, hsame, -⟩ := hst hq
    exact hc q hun (hsame.symm.trans hpid)
  · exact absurd hb (h.not_begins hs hpid)

/-- `wait` frees the slot. -/
def Reaps (p : Slot) (s : State n) (e : Event n) : Prop := ∃ c, e = .wait c ∧ s.reaps c = some p

theorem reaps_step (hr : Reaps p s e) (hstep : step s e = some (.ok s')) : (s'.proc p).state = .unused := by
  obtain ⟨c, rfl, hz⟩ := hr
  unfold State.reaps at hz
  rw [Option.bind_eq_some_iff] at hz
  obtain ⟨q, hq, hz⟩ := hz
  simp only [step, State.current, hq, Option.map_some] at hstep
  split at hstep
  · unfold State.waitPass at hstep
    rw [hz] at hstep
    dsimp only at hstep
    unfold State.reap at hstep
    split at hstep
    · cases hstep
    · obtain ⟨s₁, h1, h2⟩ := bind_ok.1 (Option.some.inj hstep)
      obtain ⟨d, -, rfl⟩ := freevm_ok h1
      cases h2
      show ((s.proc.upd p Proc.reaped) p).state = .unused
      rw [upd_self]
      rfl
  · cases hstep

/-- What stays true once all members of the process have exited. -/
structure AfterExit (pid : ℕ) (s : State n) : Prop where
  sane : Sane s
  numbered : Numbered s
  left : Left pid s

theorem afterExit_step (h : AfterExit pid s) (hset : Settled s e) (hstep : step s e = some (.ok s')) :
    AfterExit pid s' :=
  ⟨sane_step h.sane hset hstep, (numbered_step h.numbered hstep).1, left_step h.sane h.numbered h.left hstep⟩

theorem left_run {es : List (Event n)} (h : AfterExit pid s) (hG : (machine n).Guarded Settled s es)
    (hr : (machine n).run s es = some (.ok s')) : AfterExit pid s' :=
  Machine.guarded_inv (M := machine n) (I := AfterExit pid) h (fun _ _ _ hI hset hs => afterExit_step hI hset hs) hG hr

/-- Where `p` is all that is left of the process, nothing is left when `wait` has freed it. -/
theorem reclaimed_run {es : List (Event n)} (h : AfterExit pid s) (hc : Confined pid (· = p) s)
    (hG : (machine n).Guarded Settled s es) (hr : (machine n).run s es = some (.ok s'))
    (hw : (machine n).Happened (Reaps p) s es) : Confined pid (fun _ => False) s' := by
  have hrun : AfterExit pid s' ∧ Confined pid (· = p) s' ∧
      ((machine n).Happened (Reaps p) s es → Confined pid (fun _ => False) s') := by
    refine Machine.run_induct (M := machine n) (P := fun es s' => (machine n).Guarded Settled s es →
      AfterExit pid s' ∧ Confined pid (· = p) s' ∧
        ((machine n).Happened (Reaps p) s es → Confined pid (fun _ => False) s')) ?_ ?_ es s' hr hG
    · exact fun _ => ⟨h, hc, fun hw => absurd hw Machine.not_happened_nil⟩
    · intro es s₁ e s₂ hr₁ ih hstep hG
      obtain ⟨h₁, hc₁, hw₁⟩ := ih hG.init
      have hc₂ := confined_step h₁.sane h₁.left hc₁ hstep
      refine ⟨afterExit_step h₁ (hG.last hr₁) hstep, hc₂, fun hw => ?_⟩
      rcases Machine.happened_snoc hr₁ hw with hw | hw
      · exact confined_step h₁.sane h₁.left (hw₁ hw) hstep
      · intro q hq hpid
        rw [hc₂ q hq hpid] at hq
        exact hq (reaps_step hw hstep)
  exact hrun.2.2 hw

/-! ## The process -/

instance (t : Table) (p q : Slot) : Decidable (t.Member p q) := by unfold Table.Member; infer_instance

/-- After `exit` by `p`, no process with the number of `p` is in user space. -/
def StaysOut (s : State n) (c : Fin n) (p : Slot) : Prop :=
  ∀ s₁ es s', step s (.exit c) = some (.ok s₁) → (machine n).Guarded Settled s₁ es →
    (machine n).run s₁ es = some (.ok s') → ∀ c' q, s'.user c' = some q → (s'.proc q).pid ≠ (s.proc p).pid

/-- After `exit` by `p`, and a `wait` that frees `p`, no slot in use has the number of `p`. -/
def WaitReclaims (s : State n) (c : Fin n) (p : Slot) : Prop :=
  ∀ s₁ es s', step s (.exit c) = some (.ok s₁) → (machine n).Guarded Settled s₁ es →
    (machine n).run s₁ es = some (.ok s') → (machine n).Happened (Reaps p) s₁ es →
    Confined (s.proc p).pid (fun _ => False) s'

/-- Another member is in user space, or is about to be; `trap` does not send it to `exit`. -/
def State.Survives (s : State n) (p q : Slot) : Prop :=
  q ≠ p ∧ (s.proc q).pid = (s.proc p).pid ∧ (s.proc q).killed = false ∧ s.frameOf q = .idle ∧
    ((s.proc q).state = .running ∨ (s.proc q).state = .runnable ∧ (s.proc q).pgdir ≠ none)

theorem step_exit (hu : s.user c = some p) (hfree : s.Free) (hp : p ≠ initproc) :
    ∃ t, exit s.proc p = .ok t ∧ step s (.exit c) = some (.ok ({ s with proc := t }.leave c)) := by
  cases ht : exit s.proc p with
  | error f =>
    unfold exit at ht
    rw [if_neg hp] at ht
    cases ht
  | ok t =>
    refine ⟨t, rfl, ?_⟩
    simp only [step, hu, if_pos hfree, ht]
    rfl

theorem exit_pid (h : exit t p = .ok t') (q : Slot) : (t' q).pid = (t q).pid :=
  exit_field Proc.pid (fun _ _ _ => rfl) h q

/-- All other members are zombies: `exit` ends the last one. -/
theorem afterExit_exit (hs : Sane s) (hn : Numbered s) (hu : s.user c = some p) (hfree : s.Free) (hp : p ≠ initproc)
    (hz : ∀ q, q ≠ p → s.proc.Member p q → (s.proc q).state = .zombie) {s₁ : State n}
    (hstep : step s (.exit c) = some (.ok s₁)) : AfterExit (s.proc p).pid s₁ := by
  obtain ⟨t, ht, hok⟩ := step_exit hu hfree hp
  cases hok.symm.trans hstep
  refine ⟨sane_step hs (fun q hq => by cases hq) hstep, (numbered_step hn hstep).1, ?_, fun q hq hpid => ?_⟩
  · exact (hn p).trans_le (numbered_step hn hstep).2
  · obtain ⟨hother, x, -, hzp⟩ := exit_ok ht
    by_cases hqp : q = p
    · rw [hqp]
      exact congrArg Proc.state hzp
    · obtain ⟨hun, hsame, hzom⟩ := (hother q hqp).stays hq
      exact hzom (hz q hqp ⟨hun, (exit_pid ht q).symm.trans hpid⟩)

/-- The scheduler takes a process that goes on in user space. -/
theorem sched_user {k : Stack} {d : Dir} (hidle : (s.cpu c).proc = none) (hfree : s.Free)
    (hst : (s.proc p).state = .runnable) (hk : (s.proc p).kstack = some k) (hd : (s.proc p).pgdir = some d)
    (hframe : s.frame k = .idle) : ∃ s', step s (.sched c p) = some (.ok s') ∧ s'.user c = some p ∧
      (s'.proc p).pid = (s.proc p).pid := by
  have hstep : step s (.sched c p) = some (s.dispatch c p) := if_pos ⟨hidle, hfree, hst⟩
  unfold State.dispatch at hstep
  rw [hk, hd] at hstep
  have hcpu : Function.update s.cpu c ⟨some p, k, some k, some d⟩ c = ⟨some p, k, some k, some d⟩ :=
    Function.update_self c _ s.cpu
  refine ⟨_, hstep, ?_, ?_⟩
  · apply user_of_current
    unfold State.current
    dsimp only
    rw [hcpu, Option.map_some, hframe]
  · exact upd_field Proc.pid s.proc p p (fun x => { x with state := .running, chan := none }) rfl

/-- A member that survives is in user space after `exit`, or after it gets the CPU. -/
theorem survives_exit (hs : Sane s) (hu : s.user c = some p) (hfree : s.Free) (hp : p ≠ initproc)
    (hq : s.Survives p q) : ¬ StaysOut s c p := by
  obtain ⟨hqp, hpid, -, hidle, hst⟩ := hq
  obtain ⟨t, ht, hok⟩ := step_exit hu hfree hp
  have hw : Woke (s.proc q) (t q) := (exit_ok ht).1 q hqp
  have hpid' : (t q).pid = (s.proc p).pid := hw.pid.trans hpid
  intro hout
  rcases hst with hrun | ⟨hrun, hd⟩
  · -- it runs on another CPU
    obtain ⟨c', hc'⟩ := hs.cpuOf q hrun
    have hcc : c' ≠ c := by
      rintro rfl
      exact hqp (Option.some.inj (hc'.symm.trans (current_some (user_some hu)).1))
    refine hout _ [] _ hok .nil rfl c' q ?_ hpid'
    have hcpu : ({ s with proc := t }.leave c).cpu c' = s.cpu c' := Function.update_of_ne hcc _ _
    have hframe : s.frame (s.cpu c').stack = .idle := by rw [← frameOf_some (hs.onCpu c' q hc').2, hidle]
    unfold State.user
    rw [hcpu]
    exact (if_pos hframe).trans hc'
  · -- the CPU of `p` takes it
    obtain ⟨d, hd'⟩ := Option.ne_none_iff_exists'.1 hd
    obtain ⟨k, hk⟩ := Option.ne_none_iff_exists'.1 fun hk => by
      have hun := (hs.used q).2 hk
      exact absurd (hun.symm.trans hrun) (by simp)
    have htst : (t q).state = .runnable := by
      rcases hw.state with h | ⟨-, h⟩
      · exact h.trans hrun
      · exact h
    have hframe : s.frame k = .idle := by rw [← frameOf_some hk, hidle]
    have hidle' : (({ s with proc := t }.leave c).cpu c).proc = none := by
      show (Function.update s.cpu c { s.cpu c with proc := none, cr3 := none } c).proc = none
      rw [Function.update_self]
    obtain ⟨s', hsched, huser, hsame⟩ := sched_user (p := q) hidle' rfl htst (hw.kstack.trans hk)
      (hw.pgdir.trans hd') hframe
    refine hout _ [.sched c q] s' hok (Machine.guarded_of_mem fun e he s p hp => ?_) (Machine.run_cons hsched []) c q
      huser (hsame.trans hpid')
    rw [List.mem_singleton.1 he] at hp
    cases hp

/-- **A process that calls `exit`**, in every state that is reached while `kill_thread` frees no slot in use: it
stays out of user space if the other members have exited before, and not if one survives; and `wait` reclaims it
if there are none. -/
theorem exit_ends_process (n : ℕ) (es : List (Event n)) (s : State n) (c : Fin n) (p : Slot)
    (hG : (machine n).Guarded Settled (boot n) es) (hr : (machine n).run (boot n) es = some (.ok s))
    (hu : s.user c = some p) (hfree : s.Free) (hp : p ≠ initproc) :
    ((∀ q, q ≠ p → ¬ s.proc.Member p q) → StaysOut s c p ∧ WaitReclaims s c p) ∧
    ((∀ q, q ≠ p → s.proc.Member p q → (s.proc q).state = .zombie) → StaysOut s c p) ∧
    ((∃ q, s.Survives p q) → ¬ StaysOut s c p) := by
  obtain ⟨hs, hn⟩ : Sane s ∧ Numbered s :=
    Machine.guarded_inv (M := machine n) (I := fun s => Sane s ∧ Numbered s) ⟨boot_sane, boot_numbered⟩
      (fun _ _ _ h hset hstep => ⟨sane_step h.1 hset hstep, (numbered_step h.2 hstep).1⟩) hG hr
  have hout : (∀ q, q ≠ p → s.proc.Member p q → (s.proc q).state = .zombie) → StaysOut s c p := by
    intro hz s₁ es s' hstep hG hr c' q hq
    have h := left_run (afterExit_exit hs hn hu hfree hp hz hstep) hG hr
    exact h.left.user h.sane hq
  refine ⟨fun hnone => ⟨hout fun q hq hm => absurd hm (hnone q hq), ?_⟩, hout, fun ⟨q, hq⟩ =>
    survives_exit hs hu hfree hp hq⟩
  intro s₁ es s' hstep hG hr hw
  refine reclaimed_run (afterExit_exit hs hn hu hfree hp (fun q hq hm => absurd hm (hnone q hq)) hstep) ?_ hG hr hw
  -- `exit` takes no slot into use
  obtain ⟨t, ht, hok⟩ := step_exit hu hfree hp
  cases hok.symm.trans hstep
  intro q hq hpid
  by_contra hqp
  obtain ⟨hun, -, -⟩ := ((exit_ok ht).1 q hqp).stays hq
  exact hnone q hqp ⟨hun, (exit_pid ht q).symm.trans hpid⟩

/-- A child of init that runs. -/
def childAlone : List (Event 1) :=
  [.sched 0 0, .fork 0 true, .forkCopy 0 true, .forkReady 0, .yield 0, .sched 0 1]

theorem exit_ends_process_alone : ∃ s, (machine 1).run (boot 1) childAlone = some (.ok s) ∧
    StaysOut s 0 1 ∧ WaitReclaims s 0 1 := by
  obtain ⟨s, hr, hu, hfree, hnone⟩ : ∃ s, (machine 1).run (boot 1) childAlone = some (.ok s) ∧
      s.user 0 = some 1 ∧ s.Free ∧ ∀ q, q ≠ 1 → ¬ s.proc.Member 1 q := Machine.run_of_reaches (by decide)
  exact ⟨s, hr, (exit_ends_process 1 childAlone s 0 1 (Machine.guarded_of_check (by decide)) hr hu hfree
    (by decide)).1 hnone⟩

/-- A child of init creates an LWP, which runs. -/
def lwpAndMain : List (Event 1) :=
  [.sched 0 0, .fork 0 true, .forkCopy 0 true, .forkReady 0, .yield 0,
    .sched 0 1, .threadCreate 0 true, .threadMap 0 true true, .threadReady 0, .yield 0, .sched 0 2]

/-- **An LWP calls `exit`**, and its main thread goes on. -/
theorem lwp_exit_goes_on : ∃ s, (machine 1).run (boot 1) lwpAndMain = some (.ok s) ∧ s.user 0 = some 2 ∧
    (s.proc 2).isThread = true ∧ (s.proc 2).parent = some 1 ∧ ¬ (StaysOut s 0 2 ∧ WaitReclaims s 0 2) := by
  obtain ⟨s, hr, hu, hfree, hlwp, hpar, hpid, hk, hidle, hst, hd⟩ : ∃ s,
      (machine 1).run (boot 1) lwpAndMain = some (.ok s) ∧ s.user 0 = some 2 ∧ s.Free ∧
      (s.proc 2).isThread = true ∧ (s.proc 2).parent = some 1 ∧ (s.proc 1).pid = (s.proc 2).pid ∧
      (s.proc 1).killed = false ∧ s.frameOf 1 = .idle ∧ (s.proc 1).state = .runnable ∧ (s.proc 1).pgdir ≠ none :=
    Machine.run_of_reaches (by decide)
  have hs : Sane s := Machine.guarded_inv (M := machine 1) (I := Sane) boot_sane
    (fun _ _ _ h hset hstep => sane_step h hset hstep) (Machine.guarded_of_check (by decide)) hr
  refine ⟨s, hr, hu, hlwp, hpar, fun h => ?_⟩
  exact survives_exit hs hu hfree (by decide) ⟨by decide, hpid, hk, hidle, .inr ⟨hst, hd⟩⟩ h.1

end Xv6.Lwp
