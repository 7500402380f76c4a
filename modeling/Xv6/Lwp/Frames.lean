import Xv6.Lwp.Sane

/-!
# What a step does to the kernel stacks

`Moves`: a slot keeps its stack and what is on it, loses it, or gets a new one, or its process goes on from one call
to the next (`Next`). `moves_step`: every step in which `kill_thread` recovers no slot in use.
-/

namespace Xv6.Lwp

variable {n : ℕ} {s s' : State n} {c : Fin n} {t t' : Table} {p q np : Slot} {e : Event n}

/-- `wait` or `thread_join`, asleep or going on after a sleep. -/
def Call.waits : Call → Option Call
  | .wait => some .wait
  | .join thread => some (.join thread)
  | _ => Option.none

/-- The slot that has its memory and is not ready yet. -/
def Call.fills : Call → Option Slot
  | .forked np | .created np => some np
  | _ => Option.none

theorem Call.fills_creates {call : Call} (h : call.fills = some q) : call.creates = some q := by
  cases call <;> cases h <;> rfl

theorem newDir_fills {call : Call} {d : Dir} (h : call.newDir = some d) : call.fills = none := by
  cases call with
  | forked np => cases h
  | created thrd => cases h
  | _ => rfl

/-- Outside `fork`, `thread_create`, `wait` and `thread_join`, no slot has passed the test of `kill_thread`, and no
size and no limit is to be stored. -/
structure Call.Other (call : Call) : Prop where
  creates : call.creates = Option.none
  waits : call.waits = Option.none
  hit : call.hit = Option.none
  grows : call.grows = Option.none
  limits : call.limits = Option.none

theorem newDir_other {call : Call} {d : Dir} (h : call.newDir = some d) (hhit : call.hit = none) : call.Other := by
  cases call with
  | exec two pgdir => exact ⟨rfl, rfl, rfl, rfl, rfl⟩
  | killThread pgdir w => exact ⟨rfl, rfl, hhit, rfl, rfl⟩
  | _ => cases h

theorem newDir_waits {call : Call} {d : Dir} (h : call.newDir = some d) : call.waits = none := by
  cases call with
  | exec two pgdir => rfl
  | killThread pgdir w => rfl
  | _ => cases h

theorem newDir_grows {call : Call} {d : Dir} (h : call.newDir = some d) : call.grows = none := by
  cases call with
  | exec two pgdir => rfl
  | killThread pgdir w => rfl
  | _ => cases h

theorem newDir_limits {call : Call} {d : Dir} (h : call.newDir = some d) : call.limits = none := by
  cases call with
  | exec two pgdir => rfl
  | killThread pgdir w => rfl
  | _ => cases h

/-- How the process `p` goes on, from one call to the next. -/
inductive Next (s s' : State n) (p : Slot) : Event n → Call → Call → Prop
  | fork (c : Fin n) (np : Slot) (hun : (s.proc np).state = .unused) : Next s s' p (.fork c true) .none (.fork np)
  | forked (c : Fin n) (np : Slot) : Next s s' p (.forkCopy c true) (.fork np) (.forked np)
  | create (c : Fin n) (thrd : Slot) (hun : (s.proc thrd).state = .unused) :
    Next s s' p (.threadCreate c true) .none (.create thrd)
  | created (c : Fin n) (thrd : Slot) (pages copied : Bool) :
    Next s s' p (.threadMap c pages copied) (.create thrd) (.created thrd)
  | sleeps (e : Event n) (c : Fin n) (f : Frame) (call : Call) (hf : f.Waits) (hcall : Frame.Waits ⟨call, false⟩)
      (hpass : s.Passed c p call e) (hp : (s.cpu c).proc = some p) (hsleep : s' = s.sleepOn c p call) :
    Next s s' p e f.call call
  | hit (e : Event n) (call call' : Call) (z : Slot) (hfrom : call.grows = Option.none)
      (hcreates : call'.creates = Option.none)
      (hwaits : call'.waits = Option.none) (hgrows : call'.grows = Option.none)
      (hlimits : call'.limits = Option.none) (hz : call'.hit = some z) (hth : (s.proc z).isThread = true) :
    Next s s' p e call call'
  | grow (c : Fin n) (m : Slot) (k : BitVec 32) (ok : Bool) (sz : BitVec 32) (hu : s.user c = some p)
      (hm : s.proc.main p = some m) (hlim : ¬ (s.proc p).limited k) (hsz : newSize (s.proc m).sz k ok = some sz) :
    Next s s' p (.growproc c k ok) .none (.grow m sz)
  | limit (c : Fin n) (q : Slot) (pid : ℕ) (limit : BitVec 32) (hneg : BitVec.slt limit 0 = false) :
    Next s s' p (.setmemorylimit c pid limit) .none (.limit q limit)
  | other (e : Event n) (call call' : Call) (hfrom : call.grows = Option.none ∨ ∃ c, e = .growStore c)
      (h : call'.Other) : Next s s' p e call call'

theorem waits_creates {call : Call} (h : Frame.Waits ⟨call, false⟩) : call.creates = none := by
  rcases h with h | h | ⟨thread, h⟩ <;> (cases h; rfl)

/-- A call that creates a slot goes on. -/
theorem Next.creates {call call' : Call} (h : Next s s' p e call call') (hq : call'.creates = some q) :
    (s.proc q).state = .unused ∧ (call' = .fork q ∧ (∃ c, e = .fork c true) ∨ call' = .create q) ∨
      call = .fork q ∧ call' = .forked q ∨
      call = .create q ∧ call' = .created q ∧ ∃ c pages copied, e = .threadMap c pages copied := by
  cases h with
  | fork c np hun => cases hq; exact .inl ⟨hun, .inl ⟨rfl, c, rfl⟩⟩
  | forked c np => cases hq; exact .inr (.inl ⟨rfl, rfl⟩)
  | create c thrd hun => cases hq; exact .inl ⟨hun, .inr rfl⟩
  | created c thrd pages copied => cases hq; exact .inr (.inr ⟨rfl, rfl, c, pages, copied, rfl⟩)
  | sleeps e c f call hf hcall => rw [waits_creates hcall] at hq; cases hq
  | hit e call call' z hfrom hcreates => rw [hcreates] at hq; cases hq
  | grow => cases hq
  | limit => cases hq
  | other e call call' hfrom hother => rw [hother.creates] at hq; cases hq

theorem waits_stores {f : Frame} (h : f.Waits) : f.call.grows = none ∧ f.call.limits = none := by
  rcases h with rfl | rfl | ⟨thread, rfl⟩ <;> exact ⟨rfl, rfl⟩

/-- A size to be stored was so before, or comes from `growproc`. -/
theorem Next.grows {call call' : Call} {m : Slot} {sz : BitVec 32} (h : Next s s' p e call call')
    (hq : call' = .grow m sz) : ∃ c k ok, e = .growproc c k ok ∧ s.user c = some p ∧ s.proc.main p = some m ∧
      ¬ (s.proc p).limited k ∧ newSize (s.proc m).sz k ok = some sz := by
  have hg : call'.grows = some (m, sz) := by rw [hq]; rfl
  cases h with
  | grow c m k ok sz hu hm hlim hsz => cases hq; exact ⟨c, k, ok, rfl, hu, hm, hlim, hsz⟩
  | sleeps e c f call hf hcall => rw [(waits_stores hcall).1] at hg; cases hg
  | hit e call call' z hfrom hcreates hwaits hgrows => rw [hgrows] at hg; cases hg
  | other e call call' hfrom hother => rw [hother.grows] at hg; cases hg
  | _ => cases hq

/-- Only the store ends that. -/
theorem Next.leaves {call call' : Call} (h : Next s s' p e call call') (he : ∀ c, e ≠ .growStore c) :
    call.grows = none := by
  cases h with
  | sleeps e c f call hf => exact (waits_stores hf).1
  | hit e call call' z hfrom => exact hfrom
  | other e call call' hfrom => exact hfrom.resolve_right fun ⟨c, hc⟩ => he c hc
  | _ => rfl

/-- A limit to be stored has passed the test of `setmemorylimit`. -/
theorem Next.limits {call call' : Call} {q : Slot} {limit : BitVec 32} (h : Next s s' p e call call')
    (hq : call' = .limit q limit) : BitVec.slt limit 0 = false := by
  have hl : call'.limits = some (q, limit) := by rw [hq]; rfl
  cases h with
  | limit c q pid limit hneg => cases hq; exact hneg
  | sleeps e c f call hf hcall => rw [(waits_stores hcall).2] at hl; cases hl
  | hit e call call' z hfrom hcreates hwaits hgrows hlimits => rw [hlimits] at hl; cases hl
  | other e call call' hfrom hother => rw [hother.limits] at hl; cases hl
  | _ => cases hq

/-- The slot keeps its stack and its number. -/
structure Held (x y : Proc) : Prop where
  kstack : y.kstack = x.kstack
  pid : y.pid = x.pid

theorem held_upd {f : Proc → Proc} (h : Held (t p) (f (t p))) (q : Slot) : Held (t q) ((t.upd p f) q) :=
  ⟨upd_field Proc.kstack t p q f h.kstack, upd_field Proc.pid t p q f h.pid⟩

/-- What a step does to the kernel stack of a slot. -/
inductive Moves (s s' : State n) (e : Event n) (q : Slot) : Prop
  | keeps (hk : Held (s.proc q) (s'.proc q)) (hf : s'.frameOf q = s.frameOf q)
  | gone (hk : (s'.proc q).kstack = none)
  | fresh (hun : (s.proc q).state = .unused) (hk : (s'.proc q).kstack = some s.nextStack) (hf : s'.frameOf q = .idle)
  | next (c : Fin n) (f g : Frame) (hcur : s.current c = some (q, f)) (hk : Held (s.proc q) (s'.proc q))
      (hf : s'.frameOf q = g) (hnext : Next s s' q e f.call g.call)

/-- No process goes on. -/
theorem moves_same (e : Event n) (hframe : s'.frame = s.frame)
    (hk : ∀ q, Held (s.proc q) (s'.proc q) ∨ (s'.proc q).kstack = none) (q : Slot) : Moves s s' e q := by
  rcases hk q with hq | hq
  · refine .keeps hq ?_
    unfold State.frameOf
    rw [hq.kstack, hframe]
  · exact .gone hq

/-- The process of one CPU goes on. -/
theorem moves_current {f g : Frame} (h : Sane s) (hcur : s.current c = some (p, f))
    (hframe : s'.frame = Function.update s.frame (s.cpu c).stack g)
    (hk : ∀ q, Held (s.proc q) (s'.proc q) ∨ (s'.proc q).kstack = none ∧ q ≠ p)
    (hnext : Next s s' p e f.call g.call) (q : Slot) : Moves s s' e q := by
  have hfr := frameOf_step h hcur hframe (fun q => (hk q).imp_left Held.kstack) q
  rcases hk q with hq | ⟨hq, -⟩
  · by_cases hqp : q = p
    · subst hqp
      exact .next c f g hcur hq (hfr.trans (if_pos rfl)) hnext
    · rw [if_neg hqp] at hfr
      refine .keeps hq (hfr.trans ?_)
      split
      · rename_i hn; exact (frameOf_none (hq.kstack.symm.trans hn)).symm
      · rfl
  · exact .gone hq

/-- And it takes an unused slot. -/
theorem moves_spawn {f g : Frame} (h : Sane s) (hcur : s.current c = some (p, f)) (hun : (s.proc np).state = .unused)
    (hk : (s'.proc np).kstack = some s.nextStack) (hne : ∀ q, q ≠ np → s'.proc q = s.proc q)
    (hframe : s'.frame = Function.update (Function.update s.frame s.nextStack .idle) (s.cpu c).stack g)
    (hnext : Next s s' p e f.call g.call) (q : Slot) : Moves s s' e q := by
  have hfr := frameOf_spawn h hcur hun hk hne hframe q
  by_cases hqp : q = p
  · have hpn : q ≠ np := by rintro rfl; rw [hqp, (h.frame_current hcur).1] at hun; cases hun
    subst hqp
    exact .next c f g hcur ⟨by rw [hne q hpn], by rw [hne q hpn]⟩ (hfr.trans (if_pos rfl)) hnext
  · rw [if_neg hqp] at hfr
    by_cases hqn : q = np
    · subst hqn
      exact .fresh hun hk (hfr.trans (frameOf_none ((h.used q).1 hun)))
    · exact .keeps ⟨by rw [hne q hqn], by rw [hne q hqn]⟩ hfr

/-! ## Fields that are not written -/

/-- A field that `exit`, `wait` and the scheduler do not write. -/
theorem wakeup1_field {α : Type*} (g : Proc → α)
    (hg : ∀ (x : Proc) st pr, g { x with state := st, parent := pr } = g x) (t : Table) (chan : Option Chan)
    (q : Slot) : g (wakeup1 t chan q) = g (t q) := by
  unfold wakeup1
  split
  · exact hg (t q) .runnable (t q).parent
  · rfl

theorem reparent_field {α : Type*} (g : Proc → α)
    (hg : ∀ (x : Proc) st pr, g { x with state := st, parent := pr } = g x) (t : Table) (x : Slot)
    (q : Slot) : g (reparent p t x q) = g (t q) := by
  have hpar : g ((t.upd x fun y => { y with parent := some initproc }) q) = g (t q) :=
    upd_field g t x q _ (hg (t x) (t x).state (some initproc))
  unfold reparent
  split
  · dsimp only
    split
    · rw [wakeup1_field g hg, hpar]
    · exact hpar
  · rfl

theorem exit_field {α : Type*} (g : Proc → α)
    (hg : ∀ (x : Proc) st pr, g { x with state := st, parent := pr } = g x) (h : exit t p = .ok t')
    (q : Slot) : g (t' q) = g (t q) := by
  unfold exit at h
  split at h
  · cases h
  · have hloop : ∀ (l : List Slot) (b : Table), g (b q) = g (t q) →
        g ((l.foldl (reparent p) b) q) = g (t q) := by
      intro l
      induction l with
      | nil => exact fun _ hb => hb
      | cons x l ih => exact fun b hb => ih _ ((reparent_field g hg b x q).trans hb)
    have hall := hloop (List.finRange NPROC) _ (wakeup1_field g hg t ((t p).parent.map .proc) q)
    cases h
    refine Eq.trans (upd_field g _ p q (fun x => { x with state := .zombie }) ?_) hall
    exact hg _ .zombie _

theorem threadExit_field {α : Type*} (g : Proc → α) {retval : BitVec 32}
    (hg : ∀ (x : Proc) st pr rv, g { x with state := st, parent := pr, retval := rv } = g x)
    (h : threadExit t p retval = .ok t') (q : Slot) : g (t' q) = g (t q) := by
  have hg' : ∀ (x : Proc) st pr, g { x with state := st, parent := pr } = g x :=
    fun x st pr => hg x st pr x.retval
  unfold threadExit at h
  split at h
  · cases h
  · cases h
    refine Eq.trans (upd_field g _ p q (fun x => { x with retval := retval, state := .zombie }) ?_)
      (wakeup1_field g hg' t ((t p).parent.map .proc) q)
    exact hg _ .zombie _ retval

/-- A slot gives its stack up. -/
theorem freed_held {z : Slot} {r : Proc → Proc} (hr : (r (t z)).kstack = none) (q : Slot) :
    Held (t q) ((t.upd z r) q) ∨ ((t.upd z r) q).kstack = none ∧ q = z := by
  by_cases hq : q = z
  · exact .inr ⟨by rw [hq, upd_self, hr], hq⟩
  · exact .inl ⟨by rw [upd_ne _ hq], by rw [upd_ne _ hq]⟩

theorem resize_held (t : Table) (m : Slot) (sz : BitVec 32) (q : Slot) : Held (t q) (t.resize m sz q) :=
  held_upd (f := fun x => { x with sz := sz }) ⟨rfl, rfl⟩ q

theorem share_held (t : Table) (m thrd : Slot) (sz : BitVec 32) (q : Slot) :
    Held (t q) ((t.resize m sz).share m thrd sz q) := by
  have hres := resize_held t m sz q
  have hsh : Held (t.resize m sz q) ((t.resize m sz).share m thrd sz q) := held_upd ⟨rfl, rfl⟩ q
  exact ⟨hsh.kstack.trans hres.kstack, hsh.pid.trans hres.pid⟩

theorem Killed.held (hk : Killed s.proc t p) (q : Slot) : Held (s.proc q) (t q) ∨ (t q).kstack = none := by
  by_cases hv : s.proc.Victim p q
  · exact .inr (by rw [hk.victim q hv]; rfl)
  · left
    by_cases hqp : q = p
    · subst hqp
      obtain ⟨pr, kl, he⟩ := hk.self hv
      rw [he]
      exact ⟨rfl, rfl⟩
    · by_cases hm : s.proc.Marked p q
      · rw [hk.marked q hqp hv hm]
        exact ⟨rfl, rfl⟩
      · rw [hk.other q hqp hv hm]
        exact ⟨rfl, rfl⟩

/-! ## Every step -/

/-- **Every settled step.** -/
theorem moves_step (hs : Sane s) (hset : Settled s e) (hstep : step s e = some (.ok s')) (q : Slot) :
    Moves s s' e q := by
  -- no process goes on
  have hstays : s'.frame = s.frame → (∀ q, Held (s.proc q) (s'.proc q) ∨ (s'.proc q).kstack = none) →
      Moves s s' e q := fun hframe hk => moves_same e hframe hk q
  have hsame : s'.frame = s.frame → (∀ q, Held (s.proc q) (s'.proc q)) → Moves s s' e q :=
    fun hframe hk => hstays hframe fun q => .inl (hk q)
  -- the process of one CPU does
  have hgoes : ∀ {c p f g}, s.current c = some (p, f) → s'.frame = Function.update s.frame (s.cpu c).stack g →
      (∀ q, Held (s.proc q) (s'.proc q)) → Next s s' p e f.call g.call → Moves s s' e q :=
    fun hcur hframe hk hnext => moves_current hs hcur hframe (fun q => .inl (hk q)) hnext q
  -- and frees a slot that does not run
  have hfrees : ∀ {c p z f g} (r : Proc → Proc), s.current c = some (p, f) → s'.proc = s.proc.upd z r →
      s'.frame = Function.update s.frame (s.cpu c).stack g → (s.proc z).state ≠ .running →
      (r (s.proc z)).kstack = none → f.call.grows = none → g.call.Other → Moves s s' e q := by
    intro c p z f g r hcur hproc hframe hz hr hf hg
    refine moves_current hs hcur hframe (fun q => ?_) (.other _ _ _ (.inl hf) hg) q
    rw [hproc]
    refine (freed_held hr q).imp_right fun hq => ⟨hq.1, ?_⟩
    rintro rfl
    exact hz (hq.2 ▸ (hs.frame_current hcur).1)
  -- an unused slot gets a number
  have hnumber : ∀ {np} (r : Proc → Proc), s'.proc = s.proc.upd np r → s'.frame = s.frame →
      (r (s.proc np)).kstack = none → Moves s s' e q := by
    intro np r hproc hframe hr
    refine hstays hframe fun q => ?_
    rw [hproc]
    exact (freed_held hr q).imp_right And.left
  have hput : ∀ {p : Slot} (f : Proc → Proc), s'.proc = s.proc.upd p f → Held (s.proc p) (f (s.proc p)) →
      ∀ q, Held (s.proc q) (s'.proc q) := by
    intro p f hproc hf q
    rw [hproc]
    exact held_upd hf q
  cases step_effect hstep with
  | stay => exact .keeps ⟨rfl, rfl⟩ rfl
  | dispatch c p k d => exact hsame rfl (hput (fun x => { x with state := .running, chan := none }) rfl ⟨rfl, rfl⟩)
  | yield c p => exact hsame rfl (hput (fun x => { x with state := .runnable }) rfl ⟨rfl, rfl⟩)
  | sleep c p chan =>
    exact hsame rfl (hput (fun x => { x with chan := some (.other chan), state := .sleeping }) rfl ⟨rfl, rfl⟩)
  | wakeup chan => exact hsame rfl fun q => ⟨(wakeup1_woke _ _ q).kstack, (wakeup1_woke _ _ q).pid⟩
  | exit c p t hcur ht =>
    exact hsame rfl fun q => ⟨exit_field Proc.kstack (fun _ _ _ => rfl) ht q,
      exit_field Proc.pid (fun _ _ _ => rfl) ht q⟩
  | threadExit c p retval t hcur ht =>
    exact hsame rfl fun q => ⟨threadExit_field Proc.kstack (fun _ _ _ _ => rfl) ht q,
      threadExit_field Proc.pid (fun _ _ _ _ => rfl) ht q⟩
  | reap c p z f d hcur hf hz =>
    exact hfrees Proc.reaped hcur rfl rfl (by rw [(findZombie_some hz).2]; simp) rfl (waits_stores hf).1
      ⟨rfl, rfl, rfl, rfl, rfl⟩
  | join c p z f thread hcur hf hz hpar =>
    exact hfrees Proc.recovered hcur rfl rfl (by rw [(findJoin_some hz hpar).2]; simp) rfl (waits_stores hf).1
      ⟨rfl, rfl, rfl, rfl, rfl⟩
  | waited e c p f he hcur hf =>
    exact hgoes hcur rfl (fun _ => ⟨rfl, rfl⟩) (.other _ _ _ (.inl (waits_stores hf).1) ⟨rfl, rfl, rfl, rfl, rfl⟩)
  | block e c p f call he hcur hf hcall hready hpass =>
    exact hgoes (g := ⟨call, false⟩) hcur rfl (hput (fun x => { x with chan := some (.proc p), state := .sleeping }) rfl
      ⟨rfl, rfl⟩)
      (.sleeps _ c f call hf hcall hpass (current_some hcur).1 rfl)
  | kill c p p₀ pid t hcur hfind ht =>
    refine hstays rfl fun q => ?_
    have hkill : Held (t q) ((t.upd p₀ Proc.kill) q) := held_upd (f := Proc.kill) ⟨rfl, rfl⟩ q
    exact ((killThread_killed ht).held q).imp
      (fun hq => ⟨hkill.kstack.trans hq.kstack, hkill.pid.trans hq.pid⟩) hkill.kstack.trans
  | fork c p np hcur hnp =>
    have hun := findUnused_some hnp
    exact moves_spawn hs hcur hun (by simp [Proc.embryo]) (fun q hq => by simp [hq]) rfl (.fork c np hun) q
  | forkFail c np hnp => exact hnumber (fun x => { x with pid := s.nextpid, memlim := 0, kstack := none }) rfl rfl rfl
  | forkCopy c p np hcur =>
    exact hgoes hcur rfl (hput (fun x => { x with
      pgdir := some s.nextDir, sz := (s.proc p).sz, parent := some p, isThread := false, tid := 0, retval := 0 }) rfl
      ⟨rfl, rfl⟩)
      (.forked c np)
  | forkCopyFail c p np hcur =>
    have hnp := hs.creating p np (by rw [(hs.frame_current hcur).2.2]; rfl)
    exact hfrees (fun x => { x with pgdir := none, kstack := none, state := .unused }) hcur rfl rfl
      (by rw [hnp]; simp) rfl rfl ⟨rfl, rfl, rfl, rfl, rfl⟩
  | forkReady c p np hcur =>
    exact hgoes hcur rfl (hput (fun x => { x with state := .runnable }) rfl ⟨rfl, rfl⟩)
      (.other _ _ _ (.inl rfl) ⟨rfl, rfl, rfl, rfl, rfl⟩)
  | threadCreate c p thrd hcur hthrd =>
    have hun := findUnused_some hthrd
    exact moves_spawn hs hcur hun (by simp [Proc.embryo]) (fun q hq => by simp [hq]) rfl (.create c thrd hun) q
  | threadCreateFail c p thrd hcur hthrd =>
    exact hnumber (fun x => { x with pid := (s.proc p).pid, kstack := none }) rfl rfl rfl
  | threadMapFail c p m thrd sz t pages copied hcur hm ht =>
    refine hgoes hcur rfl (fun q => ?_) (.other _ _ _ (.inl rfl) ⟨rfl, rfl, rfl, rfl, rfl⟩)
    rcases ht with rfl | rfl
    · exact resize_held s.proc m sz q
    · exact share_held s.proc m thrd sz q
  | threadMap c p m thrd sz pages copied hcur hm =>
    refine hgoes hcur rfl (fun q => ?_) (.created c thrd pages copied)
    have hsh := share_held s.proc m thrd sz q
    have had : Held (((s.proc.resize m sz).share m thrd sz) q)
        (((s.proc.resize m sz).share m thrd sz).adopt m thrd s.nexttid q) := held_upd ⟨rfl, rfl⟩ q
    exact ⟨had.kstack.trans hsh.kstack, had.pid.trans hsh.pid⟩
  | threadReady c p thrd hcur =>
    exact hgoes hcur rfl (hput (fun x => { x with state := .runnable }) rfl ⟨rfl, rfl⟩)
      (.other _ _ _ (.inl rfl) ⟨rfl, rfl, rfl, rfl, rfl⟩)
  | execBegin c p two hcur =>
    exact hgoes hcur rfl (fun _ => ⟨rfl, rfl⟩) (.other _ _ _ (.inl rfl) ⟨rfl, rfl, rfl, rfl, rfl⟩)
  | execSetup c p two call hcur hcall hhit =>
    exact hgoes hcur rfl (fun _ => ⟨rfl, rfl⟩) (.other _ _ _ (.inl rfl) (newDir_other hcall hhit))
  | killTest c p d w call hcur hspare hcall hhit =>
    cases hz : call.hit with
    | none => exact hgoes hcur rfl (fun _ => ⟨rfl, rfl⟩) (.other _ _ _ (.inl rfl) (newDir_other hcall hz))
    | some z =>
      exact hgoes hcur rfl (fun _ => ⟨rfl, rfl⟩) (.hit _ _ _ z rfl (newDir_creates hcall) (newDir_waits hcall)
        (newDir_grows hcall) (newDir_limits hcall) hz (hhit z hz))
  | killRecover c p z d w call hcur hz hk hcall hhit =>
    exact hfrees Proc.recovered hcur rfl rfl (hset z hz).1 rfl rfl (newDir_other hcall hhit)
  | killMark c p m d hcur hm =>
    exact hgoes hcur rfl (hput (fun x => { x with killed := true }) rfl ⟨rfl, rfl⟩)
      (.other _ _ _ (.inl rfl) ⟨rfl, rfl, rfl, rfl, rfl⟩)
  | killHeir c p m d hcur hm =>
    exact hgoes hcur rfl (hput (fun x => { x with isThread := false, parent := (s.proc m).parent }) rfl ⟨rfl, rfl⟩)
      (.other _ _ _ (.inl rfl) ⟨rfl, rfl, rfl, rfl, rfl⟩)
  | execLoaded c p two d hcur =>
    exact hgoes hcur rfl (fun _ => ⟨rfl, rfl⟩) (.other _ _ _ (.inl rfl) ⟨rfl, rfl, rfl, rfl, rfl⟩)
  | execCommit c p two d old k sz hcur =>
    exact hgoes hcur rfl (hput (fun x => { x with pgdir := some d, sz := sz }) rfl ⟨rfl, rfl⟩)
      (.other _ _ _ (.inl rfl) ⟨rfl, rfl, rfl, rfl, rfl⟩)
  | execBad c p two pgdir inOp hcur =>
    exact hgoes hcur rfl (fun _ => ⟨rfl, rfl⟩) (.other _ _ _ (.inl rfl) ⟨rfl, rfl, rfl, rfl, rfl⟩)
  | beginOp c p hcur => exact hgoes hcur rfl (fun _ => ⟨rfl, rfl⟩) (.other _ _ _ (.inl rfl) ⟨rfl, rfl, rfl, rfl, rfl⟩)
  | endOp c p hcur => exact hgoes hcur rfl (fun _ => ⟨rfl, rfl⟩) (.other _ _ _ (.inl rfl) ⟨rfl, rfl, rfl, rfl, rfl⟩)
  | growFail c k ok => exact hsame rfl fun _ => ⟨rfl, rfl⟩
  | growproc c p m k ok sz d hcur hm hlim hsz =>
    exact hgoes hcur rfl (fun _ => ⟨rfl, rfl⟩) (.grow c m k ok sz (user_of_current hcur) hm hlim hsz)
  | growStore c p m sz stack d hcur =>
    exact hgoes hcur rfl (hput (fun x => { x with sz := sz }) rfl ⟨rfl, rfl⟩)
      (.other _ _ _ (.inr ⟨c, rfl⟩) ⟨rfl, rfl, rfl, rfl, rfl⟩)
  | setmemorylimit c p q pid limit hcur hfind hneg =>
    exact hgoes hcur rfl (fun _ => ⟨rfl, rfl⟩) (.limit c q pid limit hneg)
  | limitStore c p q limit hcur =>
    exact hgoes hcur rfl (hput (fun x => { x with memlim := limit }) rfl ⟨rfl, rfl⟩)
      (.other _ _ _ (.inl rfl) ⟨rfl, rfl, rfl, rfl, rfl⟩)

/-- Stacks are new. -/
theorem nextStack_le (hstep : step s e = some (.ok s')) : s.nextStack ≤ s'.nextStack := by
  cases step_effect hstep with
  | fork => exact Nat.le_succ _
  | threadCreate => exact Nat.le_succ _
  | _ => exact le_rfl

/-- Who has a stack after a step had it before, or the stack is new. -/
theorem held_step (hs : Sane s) (hset : Settled s e) (hstep : step s e = some (.ok s')) {k : Stack}
    (hk : (s'.proc q).kstack = some k) (hlt : k < s.nextStack) : Held (s.proc q) (s'.proc q) := by
  cases moves_step hs hset hstep q with
  | keeps h => exact h
  | gone h => rw [h] at hk; cases hk
  | fresh _ h => rw [h] at hk; cases hk; exact absurd hlt (lt_irrefl _)
  | next c f g _ h => exact h

/-- A process in the middle of `fork` or `thread_create` was so before, with the same stack; or it has just got so far. -/
theorem creates_step (hs : Sane s) (hset : Settled s e) (hstep : step s e = some (.ok s'))
    (hq : (s'.frameOf p).call.creates = some q) :
    (s'.proc p).kstack = (s.proc p).kstack ∧
      ((s'.frameOf p).call = (s.frameOf p).call ∨ Next s s' p e (s.frameOf p).call (s'.frameOf p).call) := by
  cases moves_step hs hset hstep p with
  | keeps hk hf => exact ⟨hk.kstack, .inl (by rw [hf])⟩
  | gone hk => rw [frameOf_none hk] at hq; cases hq
  | fresh _ _ hf => rw [hf] at hq; cases hq
  | next c f g hcur hk hf hnext =>
    refine ⟨hk.kstack, .inr ?_⟩
    rw [(hs.frame_current hcur).2.2, hf]
    exact hnext

/-- A process between `release` and the store in `growproc` was there before, or has just got so far. -/
theorem grows_step (hs : Sane s) (hset : Settled s e) (hstep : step s e = some (.ok s')) {m : Slot} {sz : BitVec 32}
    (hp : (s'.frameOf p).call = .grow m sz) : (s'.proc p).kstack = (s.proc p).kstack ∧
      ((s.frameOf p).call = .grow m sz ∨ ∃ c k ok, e = .growproc c k ok ∧ s.user c = some p ∧
        s.proc.main p = some m ∧ ¬ (s.proc p).limited k ∧ newSize (s.proc m).sz k ok = some sz) := by
  cases moves_step hs hset hstep p with
  | keeps hk hf => exact ⟨hk.kstack, .inl (by rw [← hf, hp])⟩
  | gone hk => rw [frameOf_none hk] at hp; cases hp
  | fresh _ _ hf => rw [hf] at hp; cases hp
  | next c f g hcur hk hf hnext => exact ⟨hk.kstack, .inr (hnext.grows (by rw [← hf, hp]))⟩

/-- Other steps leave it there. -/
theorem grows_keep (hs : Sane s) (hset : Settled s e) (hstep : step s e = some (.ok s'))
    (hgrow : ∀ c k ok, e ≠ .growproc c k ok) (hstore : ∀ c, e ≠ .growStore c) (hp : (s'.proc p).kstack ≠ none) :
    (s'.frameOf p).call.grows = (s.frameOf p).call.grows := by
  cases moves_step hs hset hstep p with
  | keeps hk hf => rw [hf]
  | gone hk => exact absurd hk hp
  | fresh hun _ hf => rw [hf, frameOf_none ((hs.used p).1 hun)]
  | next c f g hcur hk hf hnext =>
    rw [(hs.frame_current hcur).2.2, hf, hnext.leaves hstore]
    cases hg : g.call with
    | grow m sz =>
      obtain ⟨c, k, ok, he, -⟩ := hnext.grows hg
      exact absurd he (hgrow c k ok)
    | _ => rfl

/-- And in `setmemorylimit`, with a limit that is not negative. -/
theorem limits_step (hs : Sane s) (hset : Settled s e) (hstep : step s e = some (.ok s')) {limit : BitVec 32}
    (hp : (s'.frameOf p).call = .limit q limit) :
    (s.frameOf p).call = .limit q limit ∨ BitVec.slt limit 0 = false := by
  cases moves_step hs hset hstep p with
  | keeps hk hf => exact .inl (by rw [← hf, hp])
  | gone hk => rw [frameOf_none hk] at hp; cases hp
  | fresh _ _ hf => rw [hf] at hp; cases hp
  | next c f g hcur hk hf hnext => exact .inr (hnext.limits (by rw [← hf, hp]))

end Xv6.Lwp
