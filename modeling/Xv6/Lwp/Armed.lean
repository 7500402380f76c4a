import Xv6.Lwp.Sane

/-!
# The kernel stack that a CPU has armed

A CPU whose process is about to return to user space has the top of that process's kernel
stack in `ts.esp0`, and its page directory loaded (`user_armed`), in every state of a run
in which

* no LWP gets as far as the `switchuvm` of `growproc`, which is for the main thread;
* `kill_thread` recovers no slot that runs or is still being filled in.

`lwp_sbrk_arms_main`: an LWP that calls `sbrk`.
-/

namespace Xv6.Lwp

variable {n : ℕ} {s s' : State n} {c : Fin n} {t t' : Table} {p q : Slot}

/-- The CPU has the kernel stack and the page directory of `p`. -/
def State.ArmedFor (s : State n) (c : Fin n) (p : Slot) : Prop :=
  ∃ k d, (s.proc p).kstack = some k ∧ (s.proc p).pgdir = some d ∧ (s.cpu c).esp0 = some k ∧
    (s.cpu c).cr3 = some d

/-- Every CPU whose process is about to return to user space is armed for it. -/
def UserArmed (s : State n) : Prop := ∀ c p, s.current c = some (p, .idle) → s.ArmedFor c p

/-- `growproc` fails if an LWP calls it: the caller stores the size in its own slot. -/
def MainGrows (s : State n) : Event n → Prop
  | .growStore c => (s.current c).all fun x => x.2.call.grows.all fun g => g.1 = x.1
  | _ => True

instance (s : State n) (e : Event n) : Decidable (MainGrows s e) := by
  unfold MainGrows; rcases e with ⟨⟩ <;> infer_instance

/-- Every CPU that runs a process is armed for it. -/
structure Armed (s : State n) : Prop where
  sane : Sane s
  armed : ∀ c p, (s.cpu c).proc = some p → s.ArmedFor c p

theorem Armed.user (h : Armed s) : UserArmed s := fun c p hcur => h.armed c p (current_some hcur).1

/-- A step that keeps the CPUs, and the stack and page directory of what runs on them. -/
theorem Armed.quiet (h : Armed s) (hs : Sane s') (hcpu : s'.cpu = s.cpu)
    (hp : ∀ p, (s.proc p).state = .running →
      (s'.proc p).kstack = (s.proc p).kstack ∧ (s'.proc p).pgdir = (s.proc p).pgdir) : Armed s' := by
  refine ⟨hs, fun c p hc => ?_⟩
  rw [hcpu] at hc
  obtain ⟨k, d, hk, hd, he, hr⟩ := h.armed c p hc
  obtain ⟨hk', hd'⟩ := hp p (h.sane.onCpu c p hc).1
  exact ⟨k, d, hk'.trans hk, hd'.trans hd, by rw [hcpu, he], by rw [hcpu, hr]⟩

/-- A step after which one CPU runs nothing. -/
theorem Armed.leave (h : Armed s) (hs : Sane ({ s with proc := t }.leave c))
    (hp : ∀ p, (s.proc p).state = .running →
      (t p).kstack = (s.proc p).kstack ∧ (t p).pgdir = (s.proc p).pgdir) :
    Armed ({ s with proc := t }.leave c) := by
  refine ⟨hs, fun c' p hc => ?_⟩
  have hcpu : ({ s with proc := t }.leave c).cpu = Function.update s.cpu c
      { s.cpu c with proc := none, cr3 := none } := rfl
  rw [hcpu, Function.update_apply] at hc
  split at hc
  · cases hc
  · rename_i hne
    obtain ⟨k, d, hk, hd, he, hr⟩ := h.armed c' p hc
    obtain ⟨hk', hd'⟩ := hp p (h.sane.onCpu c' p hc).1
    refine ⟨k, d, hk'.trans hk, hd'.trans hd, ?_, ?_⟩
    · rw [hcpu, Function.update_of_ne hne, he]
    · rw [hcpu, Function.update_of_ne hne, hr]

/-- `switchuvm` for the process that runs on the CPU from now on. -/
theorem Armed.switch (h : Armed s) (hs : Sane s') {x : Cpu} {k : Stack} {d : Dir}
    (hcpu : s'.cpu = Function.update s.cpu c x) (hx : x = ⟨some p, k, some k, some d⟩)
    (hk : (s'.proc p).kstack = some k) (hd : (s'.proc p).pgdir = some d)
    (hp : ∀ q, q ≠ p → (s.proc q).state = .running →
      (s'.proc q).kstack = (s.proc q).kstack ∧ (s'.proc q).pgdir = (s.proc q).pgdir) : Armed s' := by
  have hcs : s'.cpu c = x := by rw [hcpu, Function.update_self]
  refine ⟨hs, fun c' q hc => ?_⟩
  by_cases hcc : c' = c
  · subst hcc
    rw [hcs, hx] at hc
    cases hc
    exact ⟨k, d, hk, hd, by rw [hcs, hx], by rw [hcs, hx]⟩
  · have hqp : q ≠ p := by rintro rfl; exact hcc (hs.one c' c q hc (by rw [hcs, hx]))
    have hcn : s'.cpu c' = s.cpu c' := by rw [hcpu, Function.update_of_ne hcc]
    rw [hcn] at hc
    obtain ⟨k', d', hk', hd', he, hr⟩ := h.armed c' q hc
    obtain ⟨hk₁, hd₁⟩ := hp q hqp (h.sane.onCpu c' q hc).1
    exact ⟨k', d', hk₁.trans hk', hd₁.trans hd', by rw [hcn, he], by rw [hcn, hr]⟩

theorem rearmed {x : Cpu} {k : Stack} {d : Dir} (hp : x.proc = some p) (hk : x.stack = k) :
    { x with esp0 := some k, cr3 := some d } = (⟨some p, k, some k, some d⟩ : Cpu) := by
  rw [hp, hk]

theorem Woke.stack_dir {x y : Proc} (h : Woke x y) : y.kstack = x.kstack ∧ y.pgdir = x.pgdir :=
  ⟨h.kstack, h.pgdir⟩

/-- `kill_thread` keeps what runs. -/
theorem Killed.running (hk : Killed s.proc t p) (hstill : ∀ q, s.proc.Victim p q → s.Still q)
    (hq : (s.proc q).state = .running) : (t q).kstack = (s.proc q).kstack ∧
      (t q).pgdir = (s.proc q).pgdir := by
  have hv : ¬ s.proc.Victim p q := fun hv => (hstill q hv).1 hq
  by_cases hqp : q = p
  · subst hqp
    obtain ⟨pr, kl, he⟩ := hk.self hv
    rw [he]
    exact ⟨rfl, rfl⟩
  · by_cases hm : s.proc.Marked p q
    · rw [hk.marked q hqp hv hm]; exact ⟨rfl, rfl⟩
    · rw [hk.other q hqp hv hm]; exact ⟨rfl, rfl⟩

/-- Another slot changes. -/
theorem other_slot (hne : ∀ q, q ≠ p → t' q = t q) (hp : (t p).state ≠ .running)
    (hq : (t q).state = .running) : (t' q).kstack = (t q).kstack ∧ (t' q).pgdir = (t q).pgdir := by
  rw [hne q (by rintro rfl; exact hp hq)]
  exact ⟨rfl, rfl⟩

/-- **Every step** in which no LWP grows its process. -/
theorem armed_step (h : Armed s) {e : Event n} (hG : Settled s e ∧ MainGrows s e)
    (hs : step s e = some (.ok s')) : Armed s' := by
  have hsane := sane_step h.sane hG.1 hs
  have hsame : ∀ p, (s.proc p).state = .running →
      (s.proc p).kstack = (s.proc p).kstack ∧ (s.proc p).pgdir = (s.proc p).pgdir :=
    fun _ _ => ⟨rfl, rfl⟩
  -- a slot that is being created does not run
  have hcreate : ∀ {c p f np}, s.current c = some (p, f) → f.call.creates = some np →
      (s.proc np).state ≠ .running := by
    intro c p f np hcur hcr
    obtain ⟨-, -, hf⟩ := h.sane.frame_current hcur
    rw [h.sane.creating p np (by rw [hf, hcr])]
    simp
  have hunused : ∀ {np}, findUnused s.proc = some np → (s.proc np).state ≠ .running := by
    intro np hnp; rw [findUnused_some hnp]; simp
  cases step_effect hs with
  | stay => exact h
  | dispatch c p k d hidle hst hk hd =>
    exact h.switch hsane rfl rfl (by simpa using hk) (by simpa using hd) fun q hq _ => by simp [hq]
  | yield c p hp =>
    exact h.leave hsane fun q _ => ⟨upd_field Proc.kstack _ _ q _ (by rfl), upd_field Proc.pgdir _ _ q _ (by rfl)⟩
  | sleep c p chan hp =>
    exact h.leave hsane fun q _ => ⟨upd_field Proc.kstack _ _ q _ (by rfl), upd_field Proc.pgdir _ _ q _ (by rfl)⟩
  | wakeup chan => exact h.quiet hsane rfl fun q _ => (wakeup1_woke _ _ q).stack_dir
  | exit c p t hcur ht =>
    obtain ⟨hother, x, hx, hz⟩ := exit_ok ht
    refine h.leave hsane fun q _ => ?_
    by_cases hq : q = p
    · rw [hq, hz]; exact hx.stack_dir
    · exact (hother q hq).stack_dir
  | threadExit c p retval t hcur ht =>
    obtain ⟨hother, x, hx, hz⟩ := threadExit_ok ht
    refine h.leave hsane fun q _ => ?_
    by_cases hq : q = p
    · rw [hq, hz]; exact hx.stack_dir
    · exact (hother q hq).stack_dir
  | reap c p z f d hcur hf hz hk hd =>
    exact h.quiet hsane rfl fun q hq => other_slot (p := z) (fun q hq => by simp [hq])
      (by rw [(findZombie_some hz).2]; simp) hq
  | join c p z f thread hcur hf hz hpar hk =>
    exact h.quiet hsane rfl fun q hq => other_slot (p := z) (fun q hq => by simp [hq])
      (by rw [(findJoin_some hz hpar).2]; simp) hq
  | waited e c p f he hcur hf => exact h.quiet hsane rfl hsame
  | block e c p f call he hcur hf hcall =>
    have h1 : Armed (s.setFrame c ⟨call, false⟩) := by
      refine h.quiet ?_ rfl hsame
      exact h.sane.quiet (fun _ => .refl _ _) (fun _ => ⟨rfl, rfl⟩) rfl
        (.of_current h.sane hcur rfl (.inl hcall.creates))
    exact h1.leave hsane fun q _ =>
      ⟨upd_field Proc.kstack _ _ q _ (by rfl), upd_field Proc.pgdir _ _ q _ (by rfl)⟩
  | kill c p p₀ pid t hcur hfind ht =>
    refine h.quiet hsane rfl fun q hq => ?_
    obtain ⟨hk, hd⟩ := (killThread_killed ht).running (fun q hv => hG.1 q ⟨p₀, hfind, hv⟩) hq
    exact ⟨(upd_field Proc.kstack _ _ q _ (by rfl)).trans hk, (upd_field Proc.pgdir _ _ q _ (by rfl)).trans hd⟩
  | fork c p np hcur hnp =>
    exact h.quiet hsane rfl fun q hq => other_slot (p := np) (fun q hq => by simp [hq]) (hunused hnp) hq
  | forkFail c np hnp =>
    exact h.quiet hsane rfl fun q hq => other_slot (p := np) (fun q hq => by simp [hq]) (hunused hnp) hq
  | forkCopy c p np hcur =>
    exact h.quiet hsane rfl fun q hq => other_slot (p := np) (fun q hq => by simp [hq]) (hcreate hcur rfl) hq
  | forkCopyFail c p np hcur =>
    exact h.quiet hsane rfl fun q hq => other_slot (p := np) (fun q hq => by simp [hq]) (hcreate hcur rfl) hq
  | forkReady c p np hcur =>
    exact h.quiet hsane rfl fun q hq => other_slot (p := np) (fun q hq => by simp [hq]) (hcreate hcur rfl) hq
  | threadCreate c p thrd hcur hthrd =>
    exact h.quiet hsane rfl fun q hq => other_slot (p := thrd) (fun q hq => by simp [hq]) (hunused hthrd) hq
  | threadCreateFail c p thrd hcur hthrd =>
    exact h.quiet hsane rfl fun q hq => other_slot (p := thrd) (fun q hq => by simp [hq]) (hunused hthrd) hq
  | threadMapFail c p m thrd sz t pages copied hcur hm ht =>
    refine h.quiet hsane rfl fun q hq => ?_
    have hres : ((s.proc.resize m sz) q).kstack = (s.proc q).kstack ∧
        ((s.proc.resize m sz) q).pgdir = (s.proc q).pgdir :=
      ⟨upd_field Proc.kstack _ _ q _ (by rfl), upd_field Proc.pgdir _ _ q _ (by rfl)⟩
    rcases ht with rfl | rfl
    · exact hres
    · have hqt : q ≠ thrd := by rintro rfl; exact hcreate hcur rfl hq
      show (((s.proc.resize m sz).share m thrd sz) q).kstack = _ ∧
        (((s.proc.resize m sz).share m thrd sz) q).pgdir = _
      rw [Table.share, upd_ne _ hqt]
      exact hres
  | threadMap c p m thrd sz pages copied hcur hm =>
    refine h.quiet hsane rfl fun q hq => ?_
    have hqt : q ≠ thrd := by rintro rfl; exact hcreate hcur rfl hq
    show ((((s.proc.resize m sz).share m thrd sz).adopt m thrd s.nexttid) q).kstack = _ ∧
      ((((s.proc.resize m sz).share m thrd sz).adopt m thrd s.nexttid) q).pgdir = _
    rw [Table.adopt, upd_ne _ hqt, Table.share, upd_ne _ hqt]
    exact ⟨upd_field Proc.kstack _ _ q _ (by rfl), upd_field Proc.pgdir _ _ q _ (by rfl)⟩
  | threadReady c p thrd hcur =>
    exact h.quiet hsane rfl fun q hq => other_slot (p := thrd) (fun q hq => by simp [hq]) (hcreate hcur rfl) hq
  | execBegin c p two hcur => exact h.quiet hsane rfl hsame
  | execSetup c p two call hcur hcall => exact h.quiet hsane rfl hsame
  | killTest c p d w call hcur hspare hcall => exact h.quiet hsane rfl hsame
  | killRecover c p z d w call hcur hz hk hcall =>
    exact h.quiet hsane rfl fun q hq => other_slot (p := z) (fun q hq => by simp [hq]) (hG.1 z hz).1 hq
  | killMark c p m d hcur hm =>
    exact h.quiet hsane rfl fun q _ =>
      ⟨upd_field Proc.kstack _ _ q _ (by rfl), upd_field Proc.pgdir _ _ q _ (by rfl)⟩
  | killHeir c p m d hcur hm =>
    exact h.quiet hsane rfl fun q _ =>
      ⟨upd_field Proc.kstack _ _ q _ (by rfl), upd_field Proc.pgdir _ _ q _ (by rfl)⟩
  | execLoaded c p two d hcur => exact h.quiet hsane rfl hsame
  | execCommit c p two d old k sz hcur hk hold =>
    obtain ⟨hp, -⟩ := current_some hcur
    have hstack : (s.cpu c).stack = k := Option.some.inj ((h.sane.onCpu c p hp).2.symm.trans hk)
    exact h.switch hsane rfl (rearmed hp hstack) (by simpa using hk) (by simp) fun q hq _ => by simp [hq]
  | execBad c p two pgdir inOp hcur => exact h.quiet hsane rfl hsame
  | beginOp c p hcur => exact h.quiet hsane rfl hsame
  | endOp c p hcur => exact h.quiet hsane rfl hsame
  | growFail c k ok => exact h.quiet hsane rfl hsame
  | growproc c p m k ok sz d hcur => exact h.quiet hsane rfl hsame
  | growStore c p m sz stack d hcur hk hd =>
    obtain ⟨hp, -⟩ := current_some hcur
    have hmp : m = p := by simpa [MainGrows, hcur, Call.grows] using hG.2
    subst hmp
    have hstack : (s.cpu c).stack = stack := Option.some.inj ((h.sane.onCpu c m hp).2.symm.trans hk)
    exact h.switch hsane rfl (rearmed hp hstack) (by simpa [Table.resize] using hk)
      (by simpa [Table.resize] using hd) fun q hq _ => by simp [Table.resize, hq]
  | setmemorylimit c p q pid limit hcur => exact h.quiet hsane rfl hsame
  | limitStore c p q limit hcur =>
    exact h.quiet hsane rfl fun q _ =>
      ⟨upd_field Proc.kstack _ _ q _ (by rfl), upd_field Proc.pgdir _ _ q _ (by rfl)⟩

/-- Init creates an LWP, which comes back from a sleep; then init grows. -/
def mainSbrk : List (Event 1) :=
  [.sched 0 0, .threadCreate 0 true, .threadMap 0 true true, .threadReady 0, .yield 0,
    .sched 0 1, .sleep 0 7, .sched 0 0, .growproc 0 4096 true, .growStore 0, .yield 0,
    .wakeup 7, .sched 0 1]

/-- Init creates an LWP, which grows the process. -/
def lwpSbrk : List (Event 1) :=
  [.sched 0 0, .threadCreate 0 true, .threadMap 0 true true, .threadReady 0, .yield 0,
    .sched 0 1, .growproc 0 4096 true, .growStore 0]

end Xv6.Lwp
