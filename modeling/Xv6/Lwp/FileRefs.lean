import Xv6.Lwp.FileOps
import Xv6.Lwp.Frames
import Xv6.Lwp.Reclaim

/-!
# Reference counts of files and working directories

* `Booked`: the counters are right, and a slot that is `UNUSED`, a zombie or not filled in
  yet has no files.
* `file_refs_conserved`: the counters are right in every state of a run in which
  `kill_thread` recovers zombies only.
* `exec_leaks_files`: `exec` recovers an LWP that is live, and its references stay.
-/

namespace Xv6.Lwp

variable {n : ℕ} {s s' : State n} {c : Fin n} {t t' : Table} {p q np : Slot}
variable {x x' : Files} {ip : Inode}

/-! ## Slots without files -/

/-- The slot that `fork` or `thread_create` has allocated, before it has files. -/
def Call.begins : Call → Option Slot
  | .fork np | .create np => some np
  | _ => Option.none

/-- `UNUSED` or a zombie. -/
def Proc.Done (x : Proc) : Prop := x.state = .unused ∨ x.state = .zombie

/-- The slot is free, has exited, or was only just allocated. -/
def State.Bare (s : State n) (q : Slot) : Prop :=
  (s.proc q).Done ∨ ∃ p, (s.frameOf p).call.begins = some q

/-- The event ends the process `q`. -/
def Event.Ends (s : State n) (q : Slot) (e : Event n) : Prop :=
  ∃ c, s.user c = some q ∧ (e = .exit c ∨ ∃ retval, e = .threadExit c retval)

theorem Woke.done {x y : Proc} (h : Woke x y) (hy : y.Done) : x.Done := by
  rcases h.state with e | ⟨-, e⟩
  · rcases hy with g | g
    · exact .inl (e ▸ g)
    · exact .inr (e ▸ g)
  · rcases hy with g | g <;> (rw [e] at g; cases g)

theorem done_upd {f : Proc → Proc} (hf : (f (t p)).Done → (t p).Done) (h : ((t.upd p f) q).Done) : (t q).Done := by
  rw [upd_apply] at h
  split at h
  · rename_i hq; rw [hq]; exact hf (hq ▸ h)
  · exact h

theorem Killed.done (hk : Killed s.proc t p) (hz : ∀ q, s.proc.Victim p q → (s.proc q).state = .zombie)
    (h : (t q).Done) : (s.proc q).Done := by
  by_cases hv : s.proc.Victim p q
  · exact .inr (hz q hv)
  · by_cases hqp : q = p
    · subst hqp
      obtain ⟨pr, kl, he⟩ := hk.self hv
      rw [he] at h
      exact h
    · by_cases hm : s.proc.Marked p q
      · rw [hk.marked q hqp hv hm] at h; exact h
      · rw [hk.other q hqp hv hm] at h; exact h

theorem Proc.kill_done {x : Proc} (h : x.kill.Done) : x.Done := by
  rcases x.kill_state with ⟨-, e⟩ | e
  · rcases h with g | g <;> (rw [e] at g; cases g)
  · unfold Proc.Done at h ⊢
    rw [← e]
    exact h

theorem not_done {x : Proc} (hun : x.state ≠ .unused) (hz : x.state ≠ .zombie) : ¬ x.Done := by
  rintro (h | h)
  · exact hun h
  · exact hz h

theorem threadMap_state (t : Table) (m thrd : Slot) (sz : BitVec 32) (tid : ℕ) (q : Slot) :
    (((t.resize m sz).share m thrd sz).adopt m thrd tid q).state = (t q).state :=
  (upd_field Proc.state _ _ q _ rfl).trans ((upd_field Proc.state _ _ q _ rfl).trans (upd_field Proc.state _ _ q _ rfl))

/-- **No process is done** but at its end: one that is in creation may be given back. -/
theorem done_step (hs : Sane s) {e : Event n} (hG : KillsZombies s e) (hstep : step s e = some (.ok s'))
    (hq : (s'.proc q).Done) : s.Bare q ∨ e.Ends s q := by
  -- the state of one slot changes
  have hput : ∀ {p : Slot} (f : Proc → Proc), s'.proc = s.proc.upd p f → ((f (s.proc p)).Done → (s.proc p).Done) →
      s.Bare q := by
    intro p f hproc hf
    rw [hproc] at hq
    exact .inl (done_upd hf hq)
  -- or none does
  have hkeep : (s'.proc q).state = (s.proc q).state → s.Bare q := by
    intro hst
    unfold Proc.Done at hq
    rw [hst] at hq
    exact .inl hq
  cases step_effect hstep with
  | stay => exact .inl (.inl hq)
  | dispatch c p k d =>
    exact .inl (hput (fun x => { x with state := .running, chan := none }) rfl fun h => absurd h (not_done (by simp) (by simp)))
  | yield c p =>
    exact .inl (hput (fun x => { x with state := .runnable }) rfl fun h => absurd h (not_done (by simp) (by simp)))
  | sleep c p chan =>
    exact .inl (hput (fun x => { x with chan := some (.other chan), state := .sleeping }) rfl
      fun h => absurd h (not_done (by simp) (by simp)))
  | wakeup chan => exact .inl (.inl ((wakeup1_woke _ _ q).done hq))
  | exit c p t hcur ht =>
    by_cases hqp : q = p
    · exact .inr ⟨c, hqp ▸ user_of_current hcur, .inl rfl⟩
    · exact .inl (.inl (((exit_ok ht).1 q hqp).done hq))
  | threadExit c p retval t hcur ht =>
    by_cases hqp : q = p
    · exact .inr ⟨c, hqp ▸ user_of_current hcur, .inr ⟨retval, rfl⟩⟩
    · exact .inl (.inl (((threadExit_ok ht).1 q hqp).done hq))
  | reap c p z f d hcur hf hz => exact .inl (hput Proc.reaped rfl fun _ => .inr (findZombie_some hz).2)
  | join c p z f thread hcur hf hz hpar => exact .inl (hput Proc.recovered rfl fun _ => .inr (findJoin_some hz hpar).2)
  | waited e c p f he hcur => exact .inl (hkeep rfl)
  | block e c p f call =>
    exact .inl (hput (fun x => { x with chan := some (.proc p), state := .sleeping }) rfl
      fun h => absurd h (not_done (by simp) (by simp)))
  | kill c p p₀ pid t hcur hfind ht =>
    refine .inl (.inl ((killThread_killed ht).done (fun q hv => hG q ⟨p₀, hfind, hv⟩) ?_))
    have hd : ((t.upd p₀ Proc.kill) q).Done := hq
    rw [upd_apply] at hd
    split at hd
    · exact Proc.kill_done hd
    · exact hd
  | fork c p np hcur hnp =>
    exact .inl (hput (fun x => { x.embryo s.nextpid s.nextStack with memlim := 0 }) rfl fun _ => .inl (findUnused_some hnp))
  | forkFail c np hnp =>
    exact .inl (hput (fun x => { x with pid := s.nextpid, memlim := 0, kstack := none }) rfl
      fun _ => .inl (findUnused_some hnp))
  | forkCopy c p np => exact .inl (hkeep (upd_field Proc.state _ _ q _ rfl))
  | forkCopyFail c p np hcur =>
    -- the slot in creation is given back
    have hd : ((s.proc.upd np fun x => { x with pgdir := none, kstack := none, state := .unused }) q).Done := hq
    rw [upd_apply] at hd
    split at hd
    · rename_i hqn
      exact .inl (.inr ⟨p, by rw [(hs.frame_current hcur).2.2, hqn]; rfl⟩)
    · exact .inl (.inl hd)
  | forkReady c p np =>
    exact .inl (hput (fun x => { x with state := .runnable }) rfl fun h => absurd h (not_done (by simp) (by simp)))
  | threadCreate c p thrd hcur hthrd =>
    exact .inl (hput (fun x => x.embryo (s.proc p).pid s.nextStack) rfl fun _ => .inl (findUnused_some hthrd))
  | threadCreateFail c p thrd hcur hthrd =>
    exact .inl (hput (fun x => { x with pid := (s.proc p).pid, kstack := none }) rfl fun _ => .inl (findUnused_some hthrd))
  | threadMapFail c p m thrd sz t pages copied hcur hm ht =>
    refine .inl (hkeep ?_)
    have hres : ((s.proc.resize m sz) q).state = (s.proc q).state := upd_field Proc.state _ _ q _ rfl
    rcases ht with rfl | rfl
    · exact hres
    · exact (upd_field Proc.state _ _ q _ rfl).trans hres
  | threadMap c p m thrd sz => exact .inl (hkeep (threadMap_state ..))
  | threadReady c p thrd =>
    exact .inl (hput (fun x => { x with state := .runnable }) rfl fun h => absurd h (not_done (by simp) (by simp)))
  | execBegin | execSetup | killTest | execLoaded | execBad | beginOp | endOp | growFail | growproc
  | setmemorylimit => exact .inl (hkeep rfl)
  | killRecover c p z d w call hcur hz => exact .inl (hput Proc.recovered rfl fun _ => .inr (hG z hz))
  | killMark c p m => exact .inl (hkeep (upd_field Proc.state _ _ q _ rfl))
  | killHeir c p m => exact .inl (hkeep (upd_field Proc.state _ _ q _ rfl))
  | execCommit c p two d old k sz => exact .inl (hkeep (upd_field Proc.state _ _ q _ rfl))
  | growStore c p m sz => exact .inl (hkeep (upd_field Proc.state _ _ q _ rfl))
  | limitStore c p z limit => exact .inl (hkeep (upd_field Proc.state _ _ q _ rfl))

/-! ## The file system machine -/

section

variable {s s' : FState n} {e : Event n}

/-- The LWP is filled in, and `thread_create` has not given it its files yet. -/
def FState.Mapped (s : FState n) (q : Slot) : Prop :=
  ∃ p k, (s.kernel.proc p).kstack = some k ∧ (s.kernel.frame k).call = .created q ∧ s.curproc k ≠ none

/-- A slot that has no files. -/
def FState.Bare (s : FState n) (q : Slot) : Prop := s.kernel.Bare q ∨ s.Mapped q

/-- The kernel is sane, the counters are right, and a bare slot has no files. -/
structure Booked (s : FState n) : Prop where
  sane : Sane s.kernel
  ok : FilesOk s.files
  empty : ∀ p, s.Bare p → s.files.Empty p

/-- `kill_thread` recovers zombies only. -/
def ReclaimsZombies (s : FState n) : FEvent n → Prop
  | .proc e => KillsZombies s.kernel e
  | _ => True

instance (s : FState n) (e : FEvent n) : Decidable (ReclaimsZombies s e) := by
  unfold ReclaimsZombies; rcases e with ⟨⟩ <;> infer_instance

theorem Call.begins_creates {call : Call} (h : call.begins = some p) : call.creates = some p := by
  cases call <;> cases h <;> rfl

/-- A bare slot does not run. -/
theorem bare_not_running (hs : Sane s.kernel) (h : s.Bare q) : (s.kernel.proc q).state ≠ .running := by
  have hcreated : ∀ {p}, (s.kernel.frameOf p).call.creates = some q → (s.kernel.proc q).state ≠ .running :=
    fun hp => by rw [hs.creating _ q hp]; simp
  rcases h with ((hd | hd) | ⟨p, hp⟩) | ⟨p, k, hk, hp, -⟩
  · rw [hd]; simp
  · rw [hd]; simp
  · exact hcreated (Call.begins_creates hp)
  · exact hcreated (p := p) (by rw [frameOf_some hk, hp]; rfl)

/-- A slot in creation that has its files is not bare. -/
theorem not_bare (hs : Sane s.kernel) (hcr : (s.kernel.frameOf p).call.creates = some q)
    (hb : (s.kernel.frameOf p).call.begins = none)
    (hm : (s.kernel.frameOf p).call = .created q → ∀ k, (s.kernel.proc p).kstack = some k → s.curproc k = none) :
    ¬ s.Bare q := by
  rintro (((hd | hd) | ⟨x, hx⟩) | ⟨x, k, hk, hx, hc⟩)
  · rw [hs.creating p q hcr] at hd; cases hd
  · rw [hs.creating p q hcr] at hd; cases hd
  · rw [hs.creator x p q (Call.begins_creates hx) hcr, hb] at hx
    cases hx
  · have hfx : (s.kernel.frameOf x).call = .created q := by rw [frameOf_some hk, hx]
    obtain rfl := hs.creator x p q (by rw [hfx]; rfl) hcr
    exact hc (hm hfx k hk)

/-- `curproc` is written for the process that fills its LWP in, and for no other. -/
theorem creators_of_created {k' : State n} {k : Stack} (hstep : step s.kernel e = some (.ok k'))
    (hk : (s.kernel.frame k).call = .created q) : s.creators k' e k = s.curproc k := by
  cases e with
  | threadMap c pages copied =>
    simp only [step] at hstep
    split at hstep
    · rename_i p thrd hcur
      have hne : k ≠ (s.kernel.cpu c).stack := by
        rintro rfl
        rw [(current_some hcur).2] at hk
        cases hk
      simp only [FState.creators, hcur]
      rcases k'.current c with _ | ⟨x, call, inOp⟩
      · rfl
      · cases call with
        | created y => exact Function.update_of_ne hne ..
        | _ => rfl
    · cases hstep
  | _ => rfl

/-- **No step of the kernel makes a slot bare** but the end of its process. -/
theorem bare_step (hs : Sane s.kernel) (hG : KillsZombies s.kernel e)
    (hstep : step s.kernel e = some (.ok s'.kernel)) (hc : s'.curproc = s.creators s'.kernel e)
    (hq : s'.Bare q) : s.Bare q ∨ e.Ends s.kernel q := by
  have hset := hG.settled hs
  rcases hq with (hd | ⟨p, hp⟩) | ⟨p, k, hk, hp, hcp⟩
  · exact (done_step hs hG hstep hd).imp_left .inl
  · left
    have hcr := Call.begins_creates hp
    rcases (creates_step hs hset hstep hcr).2 with hsame | hnext
    · exact .inl (.inr ⟨p, hsame ▸ hp⟩)
    · rcases hnext.creates hcr with ⟨hun, -⟩ | ⟨-, hcall⟩ | ⟨-, hcall, -⟩
      · exact .inl (.inl (.inl hun))
      · rw [hcall] at hp; cases hp
      · rw [hcall] at hp; cases hp
  · left
    have hfp : (s'.kernel.frameOf p).call = .created q := by rw [frameOf_some hk, hp]
    have hcr : (s'.kernel.frameOf p).call.creates = some q := by rw [hfp]; rfl
    obtain ⟨hks, hcall⟩ := creates_step hs hset hstep hcr
    rw [hk] at hks
    rcases hcall with hsame | hnext
    · rw [hfp, frameOf_some hks.symm] at hsame
      refine .inr ⟨p, k, hks.symm, hsame.symm, ?_⟩
      rw [hc, creators_of_created hstep hsame.symm] at hcp
      exact hcp
    · rcases hnext.creates hcr with ⟨hun, -⟩ | ⟨-, hcall⟩ | ⟨hcall, -⟩
      · exact .inl (.inl (.inl hun))
      · rw [hfp] at hcall; cases hcall
      · exact .inl (.inr ⟨p, by rw [hcall]; rfl⟩)

/-- What an event does to the files: nothing, or it closes those of the process that it
ends, or gives those of another to a slot that had none. -/
theorem event_ok (hs : Sane s.kernel) (hs' : Sane s'.kernel) (hstep : step s.kernel e = some (.ok s'.kernel))
    (hx : s.files.event s.kernel e = .ok x') :
    (x' = s.files ∧ ∀ q, ¬ e.Ends s.kernel q) ∨
      (∃ p, e.Ends s.kernel p ∧ (∀ q, e.Ends s.kernel q → q = p) ∧ s.files.closeAll p = .ok x') ∨
      ∃ m np, s.Bare np ∧ ¬ s'.Bare np ∧ (∀ q, ¬ e.Ends s.kernel q) ∧ s.files.dupAll m np = .ok x' := by
  have hends : (∀ c, e ≠ .exit c) → (∀ c retval, e ≠ .threadExit c retval) → ∀ q, ¬ e.Ends s.kernel q := by
    rintro h1 h2 q ⟨c, -, rfl | ⟨retval, rfl⟩⟩
    · exact h1 c rfl
    · exact h2 c retval rfl
  -- the process of the CPU is the only one that ends
  have hlast : ∀ {c p}, s.kernel.user c = some p → (e = .exit c ∨ ∃ retval, e = .threadExit c retval) →
      ∀ q, e.Ends s.kernel q → q = p := by
    rintro c p hp he q ⟨c', hq, he'⟩
    have hc : c' = c := by
      rcases he with rfl | ⟨_, rfl⟩ <;> rcases he' with he' | ⟨_, he'⟩ <;> cases he' <;> rfl
    rw [hc, hp] at hq
    exact (Option.some.inj hq).symm
  cases e with
  | exit c =>
    cases hu : s.kernel.user c with
    | none =>
      simp only [step, hu] at hstep
      cases hstep
    | some p =>
      simp only [Files.event, hu] at hx
      exact .inr (.inl ⟨p, ⟨c, hu, .inl rfl⟩, hlast hu (.inl rfl), hx⟩)
  | threadExit c retval =>
    cases hu : s.kernel.user c with
    | none =>
      simp only [step, hu] at hstep
      cases hstep
    | some p =>
      simp only [Files.event, hu] at hx
      exact .inr (.inl ⟨p, ⟨c, hu, .inr ⟨retval, rfl⟩⟩, hlast hu (.inr ⟨retval, rfl⟩), hx⟩)
  | forkCopy c copied =>
    have hno := hends (by simp) (by simp)
    cases copied with
    | false => cases hx; exact .inl ⟨rfl, hno⟩
    | true =>
      simp only [step] at hstep
      split at hstep
      · rename_i p np hcur
        simp only [Files.event, hcur] at hx
        refine .inr (.inr ⟨p, np, .inl (.inr ⟨p, by rw [(hs.frame_current hcur).2.2]; rfl⟩), ?_, hno, hx⟩)
        have hcur' : s'.kernel.current c = some (p, ⟨.forked np, false⟩) := by
          have hk : s'.kernel = _ := (Except.ok.inj (Option.some.inj hstep)).symm
          exact current_setFrame (current_some hcur).1 ⟨.forked np, false⟩ (by rw [hk]; rfl) (by rw [hk]; rfl)
        have hfr := (hs'.frame_current hcur').2.2
        exact not_bare hs' (p := p) (by rw [hfr]; rfl) (by rw [hfr]; rfl) (by rw [hfr]; exact fun h => by cases h)
      · cases hstep
  | _ => cases hx; exact .inl ⟨rfl, hends (by simp) (by simp)⟩

/-- A step of the kernel, and what it does to the files. -/
theorem fstep_proc (h : fstep s (.proc e) = some (.ok s')) :
    step s.kernel e = some (.ok s'.kernel) ∧ s.files.event s.kernel e = .ok s'.files ∧
      s'.curproc = s.creators s'.kernel e := by
  simp only [fstep] at h
  split at h
  · split at h
    · cases h
    · cases h
    · rename_i k hk
      cases hx : s.files.event s.kernel e with
      | error f => rw [hx] at h; cases h
      | ok x' =>
        rw [hx] at h
        cases h
        exact ⟨hk, rfl, rfl⟩
  · cases h

/-- `thread_create` gives the LWP its files. -/
theorem fstep_dupFiles (h : fstep s (.dupFiles c) = some (.ok s')) : ∃ p thrd m,
    s.kernel.current c = some (p, ⟨.created thrd, false⟩) ∧ s.curproc (s.kernel.cpu c).stack = some m ∧
    s'.kernel = s.kernel ∧ s.files.dupAll m thrd = .ok s'.files ∧
    s'.curproc = Function.update s.curproc (s.kernel.cpu c).stack none := by
  simp only [fstep] at h
  split at h
  · rename_i p thrd hcur
    rw [Option.map_eq_some_iff] at h
    obtain ⟨m, hm, h⟩ := h
    cases hx : s.files.dupAll m thrd with
    | error f => rw [hx] at h; cases h
    | ok x' =>
      rw [hx] at h
      cases h
      exact ⟨p, thrd, m, hcur, hm, rfl, hx, rfl⟩
  · cases h

/-- A call on the files of the process that runs. -/
theorem fstep_call {f : Files → Slot → Except FileFault Files} (h : s.call c f = some (.ok s')) : ∃ p,
    s.kernel.user c = some p ∧ f s.files p = .ok s'.files ∧ s'.kernel = s.kernel ∧ s'.curproc = s.curproc := by
  simp only [FState.call, Option.map_eq_some_iff] at h
  obtain ⟨p, hu, h⟩ := h
  cases hx : f s.files p with
  | error e => rw [hx] at h; cases h
  | ok x' =>
    rw [hx] at h
    cases h
    exact ⟨p, hu, hx, rfl, rfl⟩

theorem bare_congr (hk : s'.kernel = s.kernel) (hc : ∀ k, s'.curproc k ≠ none → s.curproc k ≠ none) (h : s'.Bare q) :
    s.Bare q := by
  rcases h with h | ⟨p, k, hks, hp, hcp⟩
  · exact .inl (hk ▸ h)
  · rw [hk] at hks hp
    exact .inr ⟨p, k, hks, hp, hc k hcp⟩

theorem Booked.call (h : Booked s) (f : Files → Slot → Except FileFault Files) (hstep : s.call c f = some (.ok s'))
    (hf : ∀ p x', f s.files p = .ok x' → FilesOk x' ∧ s.files.Only x' p) : Booked s' := by
  obtain ⟨p, hu, hx, hk, hc⟩ := fstep_call hstep
  obtain ⟨hok, honly⟩ := hf p _ hx
  refine ⟨hk ▸ h.sane, hok, fun q hq => ?_⟩
  have hb := bare_congr hk (fun k => by rw [hc]; exact id) hq
  refine honly.empty ?_ (h.empty q hb)
  -- the process runs, so its slot is not bare
  rintro rfl
  exact bare_not_running h.sane hb (h.sane.frame_current (user_some hu)).1

/-- `thread_create` gives files to a slot that had none. -/
theorem Booked.dupFiles (h : Booked s) (hstep : fstep s (.dupFiles c) = some (.ok s')) : Booked s' := by
  obtain ⟨p, thrd, m, hcur, hm, hk, hd, hc⟩ := fstep_dupFiles hstep
  obtain ⟨-, hks, hfr⟩ := h.sane.frame_current hcur
  have hbare : s.Bare thrd := .inr ⟨p, _, hks, by rw [(current_some hcur).2], by rw [hm]; simp⟩
  obtain ⟨hok, honly⟩ := dupAll_ok h.ok (h.empty thrd hbare) hd
  have hs' : Sane s'.kernel := hk ▸ h.sane
  have hdone : ¬ s'.Bare thrd := by
    have hcall : (s'.kernel.frameOf p).call = .created thrd := by rw [hk, hfr]
    refine not_bare hs' (p := p) (by rw [hcall]; rfl) (by rw [hcall]; rfl) fun _ k hk' => ?_
    rw [hk, hks] at hk'
    cases hk'
    rw [hc, Function.update_self]
  refine ⟨hs', hok, fun q hq => honly.empty (by rintro rfl; exact hdone hq) (h.empty q (bare_congr hk (fun k hk' => ?_) hq))⟩
  rw [hc, Function.update_apply] at hk'
  split at hk'
  · exact absurd rfl hk'
  · exact hk'

/-- A step of the kernel. -/
theorem Booked.proc (h : Booked s) (hG : KillsZombies s.kernel e) (hstep : fstep s (.proc e) = some (.ok s')) :
    Booked s' := by
  obtain ⟨hk, hx, hc⟩ := fstep_proc hstep
  have hsane := sane_step h.sane (hG.settled h.sane) hk
  have hbare : ∀ q, s'.Bare q → s.Bare q ∨ e.Ends s.kernel q := fun q hq => bare_step h.sane hG hk hc hq
  rcases event_ok h.sane hsane hk hx with ⟨hsame, hno⟩ | ⟨p, -, hlast, hcl⟩ | ⟨m, np, hb, hnb, hno, hd⟩
  · refine ⟨hsane, hsame ▸ h.ok, fun q hq => ?_⟩
    rw [hsame]
    exact h.empty q ((hbare q hq).resolve_right (hno q))
  · obtain ⟨hok, honly, hempty⟩ := closeAll_ok h.ok hcl
    refine ⟨hsane, hok, fun q hq => ?_⟩
    by_cases hqp : q = p
    · rw [hqp]; exact hempty
    · exact honly.empty hqp (h.empty q ((hbare q hq).resolve_right fun he => hqp (hlast q he)))
  · obtain ⟨hok, honly⟩ := dupAll_ok h.ok (h.empty np hb) hd
    refine ⟨hsane, hok, fun q hq => honly.empty ?_ (h.empty q ((hbare q hq).resolve_right (hno q)))⟩
    rintro rfl
    exact hnb hq

/-- **Every step** in which `kill_thread` recovers zombies only. -/
theorem booked_step (h : Booked s) {e : FEvent n} (hG : ReclaimsZombies s e) (hstep : fstep s e = some (.ok s')) :
    Booked s' := by
  cases e with
  | proc e => exact h.proc hG hstep
  | dupFiles c => exact h.dupFiles hstep
  | sysOpen c ip => exact h.call (fun x p => x.sysOpen p ip) hstep fun p x' hx => sysOpen_ok h.ok hx
  | sysDup c fd => exact h.call (fun x p => x.sysDup p fd) hstep fun p x' hx => sysDup_ok h.ok hx
  | sysClose c fd => exact h.call (fun x p => x.sysClose p fd) hstep fun p x' hx => sysClose_ok h.ok hx
  | sysPipe c page => exact h.call (fun x p => x.sysPipe p page) hstep fun p x' hx => sysPipe_ok h.ok hx
  | sysChdir c ip => exact h.call (fun x p => x.sysChdir p ip) hstep fun p x' hx => sysChdir_ok h.ok hx

end

/-! ## Runs -/

theorem fboot_booked : Booked (fboot n) := by
  refine ⟨boot_sane, ⟨?_, ?_, fun _ _ => rfl⟩, ?_⟩
  · intro f
    have h0 : refs (fboot n).files.ofile f = 0 := refs_eq_zero.2 fun _ => by simp [fboot]
    rw [h0]
    rfl
  · have hempty : Counts (fun _ : File ⊕ Slot => (none : Option Inode)) fun _ => 0 := by
      intro ip
      have h0 : refs (fun _ : File ⊕ Slot => (none : Option Inode)) ip = 0 := refs_eq_zero.2 (by simp)
      rw [h0]
      rfl
    -- the only reference is the working directory of the first process
    refine hempty.fill (i := .inr initproc) (r := rootInode) rfl (by simp [Files.holder, fboot])
      (fun j hj => ?_) (by simp [fboot]) fun y hy => by simp [fboot, hy]
    cases j with
    | inl g => rfl
    | inr q =>
      have hq : q ≠ initproc := fun e => hj (by rw [e])
      simp [Files.holder, fboot, hq]
  · intro p hp
    have hne : p ≠ initproc := by
      rintro rfl
      rcases hp with ((e | e) | ⟨y, hy⟩) | ⟨y, k, -, -, hc⟩
      · simp [fboot, boot] at e
      · simp [fboot, boot] at e
      · have hidle : (fboot n).kernel.frameOf y = .idle := by unfold State.frameOf; split <;> rfl
        rw [hidle] at hy
        cases hy
      · exact hc rfl
    exact ⟨fun _ => rfl, if_neg hne⟩

/-- The slots that are in use. -/
def State.Used (s : State n) (p : Slot) : Prop := (s.proc p).state ≠ .unused

instance (s : State n) (p : Slot) : Decidable (s.Used p) := by unfold State.Used; infer_instance

/-- The counters of files are the descriptors of the slots in use, and the references to an
inode that no file has are the working directories of the slots in use. -/
structure RefsConserved (s : FState n) : Prop where
  files : ∀ f, (s.files.file f).ref =
    (Finset.univ.filter fun i : Slot × Fd => s.kernel.Used i.1 ∧ s.files.ofile i = some f).card
  cwds : ∀ ip, s.files.iref ip - (Finset.univ.filter fun f => (s.files.file f).type = .inode ip).card =
    (Finset.univ.filter fun p => s.kernel.Used p ∧ s.files.cwd p = some ip).card

theorem held_some {ty : FileType} : ty.held = some ip ↔ ty = .inode ip := by
  cases ty <;> simp [FileType.held]

/-- The references to an inode, by kind. -/
theorem refs_holder (x : Files) (ip : Inode) : refs x.holder ip =
    (Finset.univ.filter fun f => (x.file f).type = .inode ip).card +
      (Finset.univ.filter fun p => x.cwd p = some ip).card := by
  have hfile : ∀ f, x.holder (.inl f) = some ip ↔ (x.file f).type = .inode ip := fun f => held_some
  have hcwd : ∀ p, x.holder (.inr p) = some ip ↔ x.cwd p = some ip := fun _ => .rfl
  unfold refs
  simp only [Finset.card_filter, Fintype.sum_sum_type, hfile, hcwd]

theorem Booked.conserved {s : FState n} (h : Booked s) : RefsConserved s := by
  have hused : ∀ p, ¬ s.files.Empty p → s.kernel.Used p := fun p hp hst => hp (h.empty p (.inl (.inl (.inl hst))))
  constructor
  · intro f
    have hset : (Finset.univ.filter fun i : Slot × Fd => s.kernel.Used i.1 ∧ s.files.ofile i = some f) =
        Finset.univ.filter fun i => s.files.ofile i = some f := by
      ext i
      simp only [Finset.mem_filter, Finset.mem_univ, true_and]
      refine ⟨fun hi => hi.2, fun hi => ⟨hused i.1 fun he => ?_, hi⟩⟩
      have hnone := he.1 i.2
      rw [hi] at hnone
      cases hnone
    rw [hset]
    exact h.ok.files f
  · intro ip
    have hcwd : (Finset.univ.filter fun p => s.kernel.Used p ∧ s.files.cwd p = some ip) =
        Finset.univ.filter fun p => s.files.cwd p = some ip := by
      ext p
      simp only [Finset.mem_filter, Finset.mem_univ, true_and]
      refine ⟨fun hp => hp.2, fun hp => ⟨hused p fun he => ?_, hp⟩⟩
      rw [he.2] at hp
      cases hp
    rw [h.ok.inodes ip, refs_holder, hcwd]
    push_cast
    omega

/-- **References are conserved** in every state of a run in which `kill_thread` recovers
zombies only. -/
theorem file_refs_conserved (n : ℕ) (es : List (FEvent n)) (s : FState n)
    (hG : (fmachine n).Guarded ReclaimsZombies (fboot n) es)
    (hr : (fmachine n).run (fboot n) es = some (.ok s)) : RefsConserved s :=
  (Machine.guarded_inv (M := fmachine n) (I := Booked) fboot_booked
    (fun _ _ _ hI hg hs => booked_step hI hg hs) hG hr).conserved

/-- Init opens a file and creates an LWP, which exits; then init calls `exec`. -/
def openThenExec : List (FEvent 1) :=
  [.proc (.sched 0 0), .sysOpen 0 7, .proc (.threadCreate 0 true), .proc (.threadMap 0 true true),
    .dupFiles 0, .proc (.threadReady 0), .proc (.yield 0), .proc (.sched 0 1), .sysDup 0 0, .proc (.exit 0),
    .proc (.sched 0 0), .proc (.execBegin 0 false), .proc (.execSetup 0), .proc (.execKill 0),
    .proc (.execKill 0), .proc (.execKill 0)]

theorem file_refs_conserved_openThenExec : ∃ s, (fmachine 1).run (fboot 1) openThenExec = some (.ok s) ∧
    (s.files.file 0).ref = 1 ∧ RefsConserved s := by
  obtain ⟨s, hr, h1⟩ : ∃ s, (fmachine 1).run (fboot 1) openThenExec = some (.ok s) ∧
      (s.files.file 0).ref = 1 := Machine.run_of_reaches (by decide +kernel)
  have hG : (fmachine 1).Guarded ReclaimsZombies (fboot 1) openThenExec :=
    Machine.guarded_of_check (by decide +kernel)
  exact ⟨s, hr, h1, file_refs_conserved 1 _ s hG hr⟩

/-- Init opens a file and creates an LWP; then init calls `exec`. -/
def execWithLwp : List (FEvent 1) :=
  [.proc (.sched 0 0), .sysOpen 0 7, .proc (.threadCreate 0 true), .proc (.threadMap 0 true true),
    .dupFiles 0, .proc (.threadReady 0), .proc (.execBegin 0 false), .proc (.execSetup 0), .proc (.execKill 0),
    .proc (.execKill 0), .proc (.execKill 0)]

/-- **`exec` leaks the files of the LWPs that it kills**: one descriptor refers to the file,
and its counter is 2. -/
theorem exec_leaks_files : ∃ s, (fmachine 1).run (fboot 1) execWithLwp = some (.ok s) ∧
    (s.kernel.proc 1).state = .unused ∧ (s.files.file 0).ref = 2 ∧ ¬ RefsConserved s := by
  obtain ⟨s, hr, hst, h2, hcard⟩ : ∃ s, (fmachine 1).run (fboot 1) execWithLwp = some (.ok s) ∧
      (s.kernel.proc 1).state = .unused ∧ (s.files.file 0).ref = 2 ∧
      (Finset.univ.filter fun i : Slot × Fd => s.kernel.Used i.1 ∧ s.files.ofile i = some 0).card = 1 :=
    Machine.run_of_reaches (by decide +kernel)
  refine ⟨s, hr, hst, h2, fun h => ?_⟩
  have hf := h.files 0
  rw [h2, hcard] at hf
  cases hf

end Xv6.Lwp
