import Xv6.Lwp.Armed

/-!
# Which processes are reclaimed

A slot goes back to `UNUSED` only from `ZOMBIE`, and `log.outstanding` is the number of
processes inside a file-system operation, exactly in the runs in which `kill_thread`
recovers nothing but zombies (`only_zombies_reclaimed`).

`exec_reclaims_sleeper`: `exec` frees an LWP that sleeps between `begin_op` and `end_op`.
-/

namespace Xv6.Lwp

variable {n : ℕ} {s s' : State n} {c : Fin n} {t t' : Table} {p q : Slot}

/-- A slot that is turned `UNUSED` was a zombie, or it is the one that a failing `fork`
gives back. -/
def OnlyZombies (s : State n) (e : Event n) (s' : State n) : Prop :=
  ∀ q, (s.proc q).state ≠ .unused → (s'.proc q).state = .unused →
    (s.proc q).state = .zombie ∨ (s.proc q).state = .embryo ∧ ∃ c, e = .forkCopy c false

/-- The existing processes inside a file-system operation. -/
def State.inOps (s : State n) : Finset Slot :=
  Finset.univ.filter fun p => (s.proc p).state ≠ .unused ∧ (s.frameOf p).inOp = true

/-- `log.outstanding` counts them. -/
def Counted (s : State n) : Prop := s.outstanding = s.inOps.card

/-- `kill_thread` recovers zombies only. -/
def KillsZombies (s : State n) (e : Event n) : Prop :=
  ∀ q, s.Recovers q e → (s.proc q).state = .zombie

instance (s : State n) (e : Event n) : Decidable (KillsZombies s e) := by
  unfold KillsZombies; infer_instance

theorem KillsZombies.settled {e : Event n} (hG : KillsZombies s e) (h : Sane s) : Settled s e :=
  fun q hq => zombie_still h (hG q hq)

theorem mem_inOps (h : Sane s) : p ∈ s.inOps ↔ (s.frameOf p).inOp = true := by
  simp only [State.inOps, Finset.mem_filter, Finset.mem_univ, true_and, and_iff_right_iff_imp]
  intro hp hst
  rw [frameOf_none ((h.used p).1 hst)] at hp
  cases hp

theorem zombie_inOp (h : Sane s) (hq : (s.proc q).state = .zombie) : (s.frameOf q).inOp = false := by
  rw [h.idle q (.inr hq)]; rfl

/-! ## The operations of a step -/

/-- The slots keep their stacks, or are freed outside any operation; the process of one CPU
goes on with the frame `g`. -/
theorem inOp_step {f g : Frame} (h : Sane s) (hcur : s.current c = some (p, f))
    (hframe : s'.frame = Function.update s.frame (s.cpu c).stack g)
    (hk : ∀ q, (s'.proc q).kstack = (s.proc q).kstack ∨
      (s'.proc q).kstack = none ∧ q ≠ p ∧ (s.frameOf q).inOp = false) (q : Slot) :
    (s'.frameOf q).inOp = if q = p then g.inOp else (s.frameOf q).inOp := by
  rw [frameOf_step h hcur hframe fun q => (hk q).imp id fun hq => ⟨hq.1, hq.2.1⟩]
  split
  · rfl
  · split
    · rename_i hn
      rcases hk q with e | ⟨-, -, ho⟩
      · rw [frameOf_none (e.symm.trans hn)]
      · rw [ho]; rfl
    · rfl

/-- The same when no process goes on. -/
theorem inOp_same (hframe : s'.frame = s.frame)
    (hk : ∀ q, (s'.proc q).kstack = (s.proc q).kstack ∨
      (s'.proc q).kstack = none ∧ (s.frameOf q).inOp = false) (q : Slot) :
    (s'.frameOf q).inOp = (s.frameOf q).inOp := by
  rcases hk q with e | ⟨e, ho⟩
  · unfold State.frameOf; rw [e, hframe]
  · rw [frameOf_none e, ho]; rfl

theorem Counted.same (h : Counted s) (hs : Sane s) (hs' : Sane s') (ho : s'.outstanding = s.outstanding)
    (hop : ∀ q, (s'.frameOf q).inOp = (s.frameOf q).inOp) : Counted s' := by
  have hset : s'.inOps = s.inOps := by
    ext q; rw [mem_inOps hs', mem_inOps hs, hop]
  rw [Counted, hset, ho, h]

/-- A process that keeps its `inOp`. -/
theorem Counted.keep (h : Counted s) (hs : Sane s) (hs' : Sane s') {f g : Frame}
    (hcur : s.current c = some (p, f)) (ho : s'.outstanding = s.outstanding) (hf : g.inOp = f.inOp)
    (hop : ∀ q, (s'.frameOf q).inOp = if q = p then g.inOp else (s.frameOf q).inOp) : Counted s' := by
  refine h.same hs hs' ho fun q => ?_
  rw [hop]
  split
  · rename_i hq; rw [hq, hf, (hs.frame_current hcur).2.2]
  · rfl

/-- `begin_op`. -/
theorem Counted.begin (h : Counted s) (hs : Sane s) (hs' : Sane s') {f g : Frame}
    (hcur : s.current c = some (p, f)) (ho : s'.outstanding = s.outstanding + 1)
    (hf : f.inOp = false) (hg : g.inOp = true)
    (hop : ∀ q, (s'.frameOf q).inOp = if q = p then g.inOp else (s.frameOf q).inOp) : Counted s' := by
  have hp : p ∉ s.inOps := by rw [mem_inOps hs, (hs.frame_current hcur).2.2, hf]; simp
  have hset : s'.inOps = insert p s.inOps := by
    ext q
    rw [mem_inOps hs', hop, Finset.mem_insert, mem_inOps hs]
    split
    · rename_i hq; simp [hq, hg]
    · rename_i hq; simp [hq]
  rw [Counted, hset, Finset.card_insert_of_notMem hp, ho, h]
  push_cast
  rfl

/-- `end_op`. -/
theorem Counted.finish (h : Counted s) (hs : Sane s) (hs' : Sane s') {f g : Frame}
    (hcur : s.current c = some (p, f)) (ho : s'.outstanding = s.outstanding - 1)
    (hf : f.inOp = true) (hg : g.inOp = false)
    (hop : ∀ q, (s'.frameOf q).inOp = if q = p then g.inOp else (s.frameOf q).inOp) : Counted s' := by
  have hp : p ∈ s.inOps := by rw [mem_inOps hs, (hs.frame_current hcur).2.2, hf]
  have hset : s'.inOps = s.inOps.erase p := by
    ext q
    rw [mem_inOps hs', hop, Finset.mem_erase, mem_inOps hs]
    split
    · rename_i hq; simp [hq, hg]
    · rename_i hq; simp [hq]
  have hpos := Finset.card_pos.2 ⟨p, hp⟩
  rw [Counted, hset, Finset.card_erase_of_mem hp, ho, h]
  omega

/-- A slot that was not in use gets a new stack. -/
theorem inOp_spawn (h : Sane s) {np : Slot} {f g : Frame}
    (hcur : s.current c = some (p, f)) (hnp : (s.proc np).state = .unused)
    (hk : (s'.proc np).kstack = some s.nextStack) (hne : ∀ q, q ≠ np → s'.proc q = s.proc q)
    (hframe : s'.frame = Function.update (Function.update s.frame s.nextStack .idle) (s.cpu c).stack g)
    (q : Slot) : (s'.frameOf q).inOp = if q = p then g.inOp else (s.frameOf q).inOp := by
  rw [frameOf_spawn h hcur hnp hk hne hframe]
  split <;> rfl

/-- `kill_thread`, when its victims are zombies. -/
theorem Killed.kstack (hk : Killed s.proc t p) (h : Sane s)
    (hz : ∀ q, s.proc.Victim p q → (s.proc q).state = .zombie) (q : Slot) :
    (t q).kstack = (s.proc q).kstack ∨
      (t q).kstack = none ∧ (s.proc q).state = .zombie ∧ (s.frameOf q).inOp = false := by
  by_cases hv : s.proc.Victim p q
  · rw [hk.victim q hv]
    exact .inr ⟨rfl, hz q hv, zombie_inOp h (hz q hv)⟩
  · by_cases hqp : q = p
    · subst hqp
      obtain ⟨pr, kl, he⟩ := hk.self hv
      rw [he]
      exact .inl rfl
    · by_cases hm : s.proc.Marked p q
      · rw [hk.marked q hqp hv hm]; exact .inl rfl
      · rw [hk.other q hqp hv hm]; exact .inl rfl

theorem Frame.Waits.inOp {f : Frame} (h : f.Waits) : f.inOp = false := by
  rcases h with rfl | rfl | ⟨thread, rfl⟩ <;> rfl

/-- **Every step** in which `kill_thread` recovers zombies only keeps the count. -/
theorem counted_step (hs : Sane s) (h : Counted s) {e : Event n} (hG : KillsZombies s e)
    (hstep : step s e = some (.ok s')) : Counted s' := by
  have hs' := sane_step hs (hG.settled hs) hstep
  -- one slot is freed, and one process goes on outside any operation
  have hfree : ∀ {c p z f}, s.current c = some (p, f) → (s.proc z).state = .zombie →
      (∀ q, q ≠ z → s'.proc q = s.proc q) → (s'.proc z).kstack = none →
      ∀ q, (s'.proc q).kstack = (s.proc q).kstack ∨
        (s'.proc q).kstack = none ∧ q ≠ p ∧ (s.frameOf q).inOp = false := by
    intro c p z f hcur hz hne hk q
    by_cases hq : q = z
    · subst hq
      refine .inr ⟨hk, ?_, zombie_inOp hs hz⟩
      rintro rfl
      rw [(hs.frame_current hcur).1] at hz
      cases hz
    · rw [hne q hq]; exact .inl rfl
  cases step_effect hstep with
  | stay => exact h
  | dispatch c p k d hidle hst hk hd =>
    exact h.same hs hs' rfl (inOp_same rfl fun q => .inl (upd_field Proc.kstack _ _ q _ (by rfl)))
  | yield c p hp =>
    exact h.same hs hs' rfl (inOp_same rfl fun q => .inl (upd_field Proc.kstack _ _ q _ (by rfl)))
  | sleep c p chan hp =>
    exact h.same hs hs' rfl (inOp_same rfl fun q => .inl (upd_field Proc.kstack _ _ q _ (by rfl)))
  | wakeup chan =>
    exact h.same hs hs' rfl (inOp_same rfl fun q => .inl (wakeup1_woke _ _ q).kstack)
  | exit c p t hcur ht =>
    obtain ⟨hother, x, hx, hz⟩ := exit_ok ht
    refine h.same hs hs' rfl (inOp_same rfl fun q => .inl ?_)
    by_cases hq : q = p
    · rw [hq]; exact (congrArg Proc.kstack hz).trans hx.kstack
    · exact (hother q hq).kstack
  | threadExit c p retval t hcur ht =>
    obtain ⟨hother, x, hx, hz⟩ := threadExit_ok ht
    refine h.same hs hs' rfl (inOp_same rfl fun q => .inl ?_)
    by_cases hq : q = p
    · rw [hq]; exact (congrArg Proc.kstack hz).trans hx.kstack
    · exact (hother q hq).kstack
  | reap c p z f d hcur hf hz hk hd =>
    exact h.keep hs hs' hcur rfl hf.inOp.symm (inOp_step hs hcur rfl
      (hfree hcur (findZombie_some hz).2 (fun q hq => by simp [hq]) (by simp [Proc.reaped])))
  | join c p z f thread hcur hf hz hpar hk =>
    exact h.keep hs hs' hcur rfl hf.inOp.symm (inOp_step hs hcur rfl
      (hfree hcur (findJoin_some hz hpar).2 (fun q hq => by simp [hq]) (by simp [Proc.recovered])))
  | waited e c p f he hcur hf =>
    exact h.keep hs hs' hcur rfl hf.inOp.symm (inOp_step hs hcur rfl fun q => .inl rfl)
  | block e c p f call he hcur hf hcall =>
    exact h.keep hs hs' (g := ⟨call, false⟩) hcur rfl hf.inOp.symm
      (inOp_step hs hcur rfl fun q => .inl (upd_field Proc.kstack _ _ q _ (by rfl)))
  | kill c p p₀ pid t hcur hfind ht =>
    refine h.same hs hs' rfl (inOp_same rfl fun q => ?_)
    have hq := (killThread_killed ht).kstack hs (fun q hv => hG q ⟨p₀, hfind, hv⟩) q
    rw [show (({ s with proc := t.upd p₀ Proc.kill } : State n).proc q).kstack = (t q).kstack from
      upd_field Proc.kstack _ _ q _ (by rfl)]
    exact hq.imp id fun h => ⟨h.1, h.2.2⟩
  | fork c p np hcur hnp =>
    exact h.keep hs hs' hcur rfl (by rfl) (inOp_spawn hs hcur (findUnused_some hnp)
      (by simp [Proc.embryo]) (fun q hq => by simp [hq]) rfl)
  | forkFail c np hnp =>
    have hk := (hs.used np).1 (findUnused_some hnp)
    exact h.same hs hs' rfl (inOp_same rfl fun q => .inl (upd_field Proc.kstack _ _ q _ hk.symm))
  | forkCopy c p np hcur =>
    exact h.keep hs hs' hcur rfl (by rfl)
      (inOp_step hs hcur rfl fun q => .inl (upd_field Proc.kstack _ _ q _ (by rfl)))
  | forkCopyFail c p np hcur =>
    obtain ⟨hrun, -, hf⟩ := hs.frame_current hcur
    have hnp := hs.creating p np (by rw [hf]; rfl)
    refine h.keep hs hs' hcur rfl (by rfl) (inOp_step hs hcur rfl fun q => ?_)
    by_cases hq : q = np
    · subst hq
      refine .inr ⟨by simp, ?_, by rw [hs.idle q (.inl hnp)]; rfl⟩
      rintro rfl
      rw [hrun] at hnp
      cases hnp
    · exact .inl (by simp [hq])
  | forkReady c p np hcur =>
    exact h.keep hs hs' hcur rfl (by rfl)
      (inOp_step hs hcur rfl fun q => .inl (upd_field Proc.kstack _ _ q _ (by rfl)))
  | threadCreate c p thrd hcur hthrd =>
    exact h.keep hs hs' hcur rfl (by rfl) (inOp_spawn hs hcur (findUnused_some hthrd)
      (by simp [Proc.embryo]) (fun q hq => by simp [hq]) rfl)
  | threadCreateFail c p thrd hcur hthrd =>
    have hk := (hs.used thrd).1 (findUnused_some hthrd)
    exact h.same hs hs' rfl (inOp_same rfl fun q => .inl (upd_field Proc.kstack _ _ q _ hk.symm))
  | threadMapFail c p m thrd sz t pages copied hcur hm ht =>
    refine h.keep hs hs' hcur rfl (by rfl) (inOp_step hs hcur rfl fun q => .inl ?_)
    have hres : ((s.proc.resize m sz) q).kstack = (s.proc q).kstack := upd_field Proc.kstack _ _ q _ (by rfl)
    rcases ht with rfl | rfl
    · exact hres
    · exact (upd_field Proc.kstack _ _ q _ (by rfl)).trans hres
  | threadMap c p m thrd sz pages copied hcur hm =>
    exact h.keep hs hs' hcur rfl (by rfl) (inOp_step hs hcur rfl fun q => .inl
      ((upd_field Proc.kstack _ _ q _ (by rfl)).trans ((upd_field Proc.kstack _ _ q _ (by rfl)).trans
        (upd_field Proc.kstack _ _ q _ (by rfl)))))
  | threadReady c p thrd hcur =>
    exact h.keep hs hs' hcur rfl (by rfl)
      (inOp_step hs hcur rfl fun q => .inl (upd_field Proc.kstack _ _ q _ (by rfl)))
  | execBegin c p two hcur =>
    exact h.begin hs hs' hcur rfl rfl (by rfl) (inOp_step hs hcur rfl fun q => .inl rfl)
  | execSetup c p two call hcur hcall =>
    exact h.keep hs hs' hcur rfl (by rfl) (inOp_step hs hcur rfl fun q => .inl rfl)
  | killTest c p d w call hcur hspare hcall =>
    exact h.keep hs hs' hcur rfl (by rfl) (inOp_step hs hcur rfl fun q => .inl rfl)
  | killRecover c p z d w call hcur hz hk hcall =>
    exact h.keep hs hs' hcur rfl (by rfl) (inOp_step hs hcur rfl
      (hfree hcur (hG z hz) (fun q hq => by simp [hq]) (by simp [Proc.recovered])))
  | killMark c p m d hcur hm =>
    exact h.keep hs hs' hcur rfl (by rfl)
      (inOp_step hs hcur rfl fun q => .inl (upd_field Proc.kstack _ _ q _ (by rfl)))
  | killHeir c p m d hcur hm =>
    exact h.keep hs hs' hcur rfl (by rfl)
      (inOp_step hs hcur rfl fun q => .inl (upd_field Proc.kstack _ _ q _ (by rfl)))
  | execLoaded c p two d hcur =>
    exact h.finish hs hs' hcur rfl rfl (by rfl) (inOp_step hs hcur rfl fun q => .inl rfl)
  | execCommit c p two d old k sz hcur hk hold =>
    exact h.keep hs hs' hcur rfl (by rfl)
      (inOp_step hs hcur rfl fun q => .inl (upd_field Proc.kstack _ _ q _ (by rfl)))
  | execBad c p two pgdir inOp hcur =>
    cases inOp with
    | true => exact h.finish hs hs' hcur rfl rfl (by rfl) (inOp_step hs hcur rfl fun q => .inl rfl)
    | false => exact h.keep hs hs' hcur rfl (by rfl) (inOp_step hs hcur rfl fun q => .inl rfl)
  | beginOp c p hcur =>
    exact h.begin hs hs' hcur rfl rfl (by rfl) (inOp_step hs hcur rfl fun q => .inl rfl)
  | endOp c p hcur =>
    exact h.finish hs hs' hcur rfl rfl (by rfl) (inOp_step hs hcur rfl fun q => .inl rfl)
  | growFail c k ok => exact h.same hs hs' rfl fun q => rfl
  | growproc c p m k ok sz d hcur =>
    exact h.keep hs hs' hcur rfl (by rfl) (inOp_step hs hcur rfl fun q => .inl rfl)
  | growStore c p m sz stack d hcur =>
    exact h.keep hs hs' hcur rfl (by rfl)
      (inOp_step hs hcur rfl fun q => .inl (upd_field Proc.kstack _ _ q _ (by rfl)))
  | setmemorylimit c p q pid limit hcur =>
    exact h.keep hs hs' hcur rfl (by rfl) (inOp_step hs hcur rfl fun q => .inl rfl)
  | limitStore c p q limit hcur =>
    exact h.keep hs hs' hcur rfl (by rfl)
      (inOp_step hs hcur rfl fun q => .inl (upd_field Proc.kstack _ _ q _ (by rfl)))

/-! ## Slots that become `UNUSED` -/

theorem unused_upd {f : Proc → Proc} (hf : (f (t p)).state ≠ .unused ∨ (f (t p)).state = (t p).state)
    (h : ((t.upd p f) q).state = .unused) : (t q).state = .unused := by
  rw [upd_apply] at h
  split at h
  · rename_i hq
    subst hq
    exact hf.elim (fun hf => absurd h hf) fun hf => hf.symm.trans h
  · exact h

theorem Woke.unused {x y : Proc} (h : Woke x y) (hy : y.state = .unused) : x.state = .unused := by
  rcases h.state with e | ⟨-, e⟩
  · exact e.symm.trans hy
  · rw [e] at hy; cases hy

/-- `kill_thread` frees its victims and no other slot. -/
theorem Killed.unused (hk : Killed s.proc t p) (hq : (t q).state = .unused) :
    s.proc.Victim p q ∨ (s.proc q).state = .unused := by
  by_cases hv : s.proc.Victim p q
  · exact .inl hv
  · right
    by_cases hqp : q = p
    · subst hqp
      obtain ⟨pr, kl, he⟩ := hk.self hv
      rw [he] at hq
      exact hq
    · by_cases hm : s.proc.Marked p q
      · rw [hk.marked q hqp hv hm] at hq; exact hq
      · rw [hk.other q hqp hv hm] at hq; exact hq

/-- A slot that `kill` leaves `UNUSED` is one that `kill_thread` left so. -/
theorem Proc.kill_unused {x : Proc} (h : x.kill.state = .unused) : x.state = .unused := by
  rcases x.kill_state with ⟨-, e⟩ | e
  · rw [e] at h; cases h
  · exact e.symm.trans h

theorem onlyZombies_step (hs : Sane s) {e : Event n} (hG : KillsZombies s e)
    (hstep : step s e = some (.ok s')) : OnlyZombies s e s' := by
  intro q hq hq'
  by_contra hnot
  rw [not_or] at hnot
  obtain ⟨hz, hfork⟩ := hnot
  -- every other step leaves the states that are not `UNUSED` so
  refine hq ?_
  cases step_effect hstep with
  | stay => exact hq'
  | dispatch c p k d hidle hst hk hd => exact unused_upd (.inl (by simp)) hq'
  | yield c p hp => exact unused_upd (.inl (by simp)) hq'
  | sleep c p chan hp => exact unused_upd (.inl (by simp)) hq'
  | wakeup chan => exact (wakeup1_woke _ _ q).unused hq'
  | exit c p t hcur ht =>
    obtain ⟨hother, x, hx, hx'⟩ := exit_ok ht
    by_cases hqp : q = p
    · have hp : (t p).state = .unused := hqp ▸ hq'
      rw [hx'] at hp
      cases hp
    · exact (hother q hqp).unused hq'
  | threadExit c p retval t hcur ht =>
    obtain ⟨hother, x, hx, hx'⟩ := threadExit_ok ht
    by_cases hqp : q = p
    · have hp : (t p).state = .unused := hqp ▸ hq'
      rw [hx'] at hp
      cases hp
    · exact (hother q hqp).unused hq'
  | reap c p z f d hcur hf hzo hk hd =>
    by_cases hqz : q = z
    · exact absurd (hqz ▸ (findZombie_some hzo).2) hz
    · simpa [hqz] using hq'
  | join c p z f thread hcur hf hzo hpar hk =>
    by_cases hqz : q = z
    · exact absurd (hqz ▸ (findJoin_some hzo hpar).2) hz
    · simpa [hqz] using hq'
  | waited e c p f he hcur hf => exact hq'
  | block e c p f call he hcur hf hcall => exact unused_upd (.inl (by simp)) hq'
  | kill c p p₀ pid t hcur hfind ht =>
    have hqt : (t q).state = .unused := by
      have hq₁ : ((t.upd p₀ Proc.kill) q).state = .unused := hq'
      rw [upd_apply] at hq₁
      split at hq₁
      · exact Proc.kill_unused hq₁
      · exact hq₁
    exact ((killThread_killed ht).unused hqt).resolve_left fun hv => hz (hG q ⟨p₀, hfind, hv⟩)
  | fork c p np hcur hnp => exact unused_upd (.inl (by simp [Proc.embryo])) hq'
  | forkFail c np hnp => exact unused_upd (.inr (by rfl)) hq'
  | forkCopy c p np hcur => exact unused_upd (.inr (by rfl)) hq'
  | forkCopyFail c p np hcur =>
    by_cases hqn : q = np
    · obtain ⟨-, -, hf⟩ := hs.frame_current hcur
      exact absurd ⟨hqn ▸ hs.creating p np (by rw [hf]; rfl), c, rfl⟩ hfork
    · simpa [hqn] using hq'
  | forkReady c p np hcur => exact unused_upd (.inl (by simp)) hq'
  | threadCreate c p thrd hcur hthrd => exact unused_upd (.inl (by simp [Proc.embryo])) hq'
  | threadCreateFail c p thrd hcur hthrd => exact unused_upd (.inr (by rfl)) hq'
  | threadMapFail c p m thrd sz t pages copied hcur hm ht =>
    rcases ht with rfl | rfl
    · exact unused_upd (.inr (by rfl)) hq'
    · exact unused_upd (.inr (by rfl)) (unused_upd (.inr (by rfl)) hq')
  | threadMap c p m thrd sz pages copied hcur hm =>
    exact unused_upd (.inr (by rfl)) (unused_upd (.inr (by rfl)) (unused_upd (.inr (by rfl)) hq'))
  | threadReady c p thrd hcur => exact unused_upd (.inl (by simp)) hq'
  | execBegin c p two hcur => exact hq'
  | execSetup c p two call hcur hcall => exact hq'
  | killTest c p d w call hcur hspare hcall => exact hq'
  | killRecover c p z d w call hcur hzr hk hcall =>
    by_cases hqz : q = z
    · exact absurd (hqz ▸ hG z hzr) hz
    · simpa [hqz] using hq'
  | killMark c p m d hcur hm => exact unused_upd (.inr (by rfl)) hq'
  | killHeir c p m d hcur hm => exact unused_upd (.inr (by rfl)) hq'
  | execLoaded c p two d hcur => exact hq'
  | execCommit c p two d old k sz hcur hk hold => exact unused_upd (.inr (by rfl)) hq'
  | execBad c p two pgdir inOp hcur => exact hq'
  | beginOp c p hcur => exact hq'
  | endOp c p hcur => exact hq'
  | growFail c k ok => exact hq'
  | growproc => exact hq'
  | growStore c p m sz stack d hcur hk hd => exact unused_upd (.inr (by rfl)) hq'
  | setmemorylimit => exact hq'
  | limitStore c p q limit hcur => exact unused_upd (.inr (by rfl)) hq'

/-- A victim that is not a zombie is reclaimed all the same. -/
theorem killsZombies_of_onlyZombies (hs : Sane s) {e : Event n} (hstep : step s e = some (.ok s'))
    (h : OnlyZombies s e s') : KillsZombies s e := by
  intro q hr
  obtain ⟨hk, hq'⟩ := (step_effect hstep).recovered hr
  have hq : (s.proc q).state ≠ .unused := fun e => hk ((hs.used q).1 e)
  refine (h q hq hq').resolve_right ?_
  rintro ⟨-, c, rfl⟩
  exact hr

/-- Sane, and `log.outstanding` is right. -/
structure Books (s : State n) : Prop where
  sane : Sane s
  counted : Counted s

theorem boot_books : Books (boot n) := by
  refine ⟨boot_sane, ?_⟩
  have hempty : (boot n).inOps = ∅ := by
    ext p
    rw [mem_inOps boot_sane]
    unfold State.frameOf
    split <;> simp [boot, Frame.idle]
  rw [Counted, hempty]
  rfl

theorem books_run {es : List (Event n)} (hG : (machine n).Guarded KillsZombies (boot n) es)
    (hr : (machine n).run (boot n) es = some (.ok s)) : Books s :=
  Machine.guarded_inv (M := machine n) (I := Books) boot_books
    (fun _ _ _ hI hg hs => ⟨sane_step hI.sane (hg.settled hI.sane) hs,
      counted_step hI.sane hI.counted hg hs⟩) hG hr

/-- Init creates an LWP, which exits; then init calls `exec`. -/
def execAfterExit : List (Event 1) :=
  [.sched 0 0, .threadCreate 0 true, .threadMap 0 true true, .threadReady 0, .yield 0,
    .sched 0 1, .beginOp 0, .endOp 0, .exit 0, .sched 0 0, .execBegin 0 false, .execSetup 0,
    .execKill 0, .execKill 0, .execKill 0]

/-- Init creates an LWP, which goes to sleep between `begin_op` and `end_op`; then init is
in `exec`, and `kill_thread` has tested the slot of the LWP. -/
def sleeperThenExec : List (Event 1) :=
  [.sched 0 0, .threadCreate 0 true, .threadMap 0 true true, .threadReady 0, .yield 0,
    .sched 0 1, .beginOp 0, .sleep 0 7, .sched 0 0, .execBegin 0 false, .execSetup 0,
    .execKill 0, .execKill 0]

end Xv6.Lwp
