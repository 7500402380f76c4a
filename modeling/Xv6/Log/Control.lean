import Xv6.Log.Model

/-!
# Who is in the log, and where

The facts about `log.outstanding`, `log.committing`, the sleep locks and the
places of the calls that hold in every state: `outstanding` counts the calls
between `begin_op` and `end_op`; while one call commits no other is active; a
held buffer belongs to one active call (`Control`, `control_run`).

The first section says what one event does (`step_begin`, `step_modify` and so
on); later modules use these and not the definition of `step`.
-/

namespace Xv6.Log

variable {g : Geometry} {s s' : State}

/-! ## What an event does -/

theorem step_begin {c : Call} : step g s (.begin c) = some (.ok s') ↔
    (s.mode = .running ∧ c.boot = s.boot ∧ s.pc c = .idle ∧ s.log.admits) ∧ s' = s.beginOp c := by
  simp only [step]; split <;> simp_all [eq_comm]

theorem step_fetch {b : ℕ} : step g s (.fetch b) = some (.ok s') ↔ b ∉ s.locked ∧ s' = s.fetch b := by
  simp only [step]; split <;> simp_all [eq_comm]

theorem step_modify {c : Call} {b : ℕ} {v : Block} : step g s (.modify c b v) = some (.ok s') ↔
    (s.pc c = .inOp ∧ b ∉ s.locked ∧ g.Home b ∧ b < 2 ^ 32) ∧ s' = s.modify c b v := by
  simp only [step]; split <;> simp_all [eq_comm]

theorem step_logWrite {c : Call} {b : ℕ} : step g s (.logWrite c b) = some (.ok s') ↔
    (s.pc c = .modified b ∧ s.log.lh.length < LOGSIZE ∧ s.log.lh.length < g.size - 1 ∧
      1 ≤ s.log.outstanding) ∧ s' = s.setPc c (.logging b) := by
  simp only [step]
  split
  · split
    · simp; omega
    · split
      · simp; omega
      · simp_all [eq_comm]; omega
  · simp_all

theorem step_append {c : Call} {b : ℕ} : step g s (.append c b) = some (.ok s') ↔
    s.pc c = .logging b ∧ s' = s.append c b := by
  simp only [step]; split <;> simp_all [eq_comm]

theorem step_endOp {c : Call} : step g s (.endOp c) = some (.ok s') ↔
    (s.pc c = .inOp ∧ s.log.committing = false) ∧ s' = s.endOp c := by
  simp only [step]
  by_cases hc : s.pc c = .inOp
  · cases hl : s.log.committing
    · simp only [hc, if_true, Bool.false_eq_true, if_false, Option.some.injEq, Except.ok.injEq, and_self,
        true_and]
      exact eq_comm
    · simp [hc]
  · simp [hc]

theorem step_commit {c : Call} : step g s (.commit c) = some (.ok s') ↔
    ∃ k, s.pc c = .committing k ∧ s' = s.commit g c k := by
  simp only [step]
  cases hk : s.pc c <;> simp [eq_comm]

theorem step_evict {b : ℕ} : step g s (.evict b) = some (.ok s') ↔
    (s.dirty b = false ∧ b ∉ s.locked) ∧ s' = { s with buf := Function.update s.buf b none } := by
  simp only [step]
  by_cases h : s.dirty b = false ∧ b ∉ s.locked
  · rw [if_pos h, Option.some.injEq, Except.ok.injEq, eq_comm]; exact (and_iff_right h).symm
  · rw [if_neg h]; simp [h]

theorem step_crash : step g s .crash = some (.ok s') ↔ s' = s.reboot := by
  simp [step, eq_comm]

theorem step_recover : step g s .recover = some (.ok s') ↔ s.recover g s.mode = some s' := by
  simp only [step]; cases s.recover g s.mode <;> simp

/-- The only event that can reach "too big a transaction". -/
theorem step_tooBig {e : Event} : step g s e = some (.error .tooBig) ↔
    ∃ c b, e = .logWrite c b ∧ s.pc c = .modified b ∧
      (LOGSIZE ≤ s.log.lh.length ∨ g.size - 1 ≤ s.log.lh.length) := by
  cases e <;> simp only [step]
  case logWrite c b =>
    split
    · split
      · simp_all
      · split <;> simp_all
    · simp_all
  case endOp c => split <;> [split; skip] <;> simp
  case commit c => split <;> simp
  case recover => cases s.recover g s.mode <;> simp
  all_goals (try split) <;> simp

/-! ## What the cache operations leave alone -/

section Frame

variable (s) (b : ℕ)

@[simp] theorem fetch_disk : (s.fetch b).disk = s.disk := by unfold State.fetch; split <;> rfl
@[simp] theorem fetch_log : (s.fetch b).log = s.log := by unfold State.fetch; split <;> rfl
@[simp] theorem fetch_pc : (s.fetch b).pc = s.pc := by unfold State.fetch; split <;> rfl
@[simp] theorem fetch_mode : (s.fetch b).mode = s.mode := by unfold State.fetch; split <;> rfl
@[simp] theorem fetch_boot : (s.fetch b).boot = s.boot := by unfold State.fetch; split <;> rfl
@[simp] theorem fetch_hist : (s.fetch b).hist = s.hist := by unfold State.fetch; split <;> rfl
@[simp] theorem fetch_locked : (s.fetch b).locked = s.locked := by unfold State.fetch; split <;> rfl

@[simp] theorem fetch_view (x : ℕ) : (s.fetch b).view x = s.view x := by
  unfold State.fetch
  split
  · rfl
  · rename_i h
    by_cases hx : x = b
    · subst hx; simp [State.view, h]
    · simp [State.view, Function.update_of_ne hx]

@[simp] theorem fetch_dirty (x : ℕ) : (s.fetch b).dirty x = s.dirty x := by
  unfold State.fetch
  split
  · rfl
  · rename_i h
    by_cases hx : x = b
    · subst hx; simp [State.dirty, h]
    · simp [State.dirty, Function.update_of_ne hx]

variable (d : Block)

@[simp] theorem bwrite_log : (s.bwrite b d).log = s.log := rfl
@[simp] theorem bwrite_pc : (s.bwrite b d).pc = s.pc := rfl
@[simp] theorem bwrite_mode : (s.bwrite b d).mode = s.mode := rfl
@[simp] theorem bwrite_boot : (s.bwrite b d).boot = s.boot := rfl
@[simp] theorem bwrite_hist : (s.bwrite b d).hist = s.hist := rfl
@[simp] theorem bwrite_locked : (s.bwrite b d).locked = s.locked := rfl

theorem bwrite_view (x : ℕ) : (s.bwrite b d).view x = if x = b then d else s.view x := by
  by_cases hx : x = b
  · subst hx; simp [State.bwrite, State.view]
  · simp [State.bwrite, State.view, hx]

theorem bwrite_dirty (x : ℕ) :
    (s.bwrite b d).dirty x = if x = b then false else s.dirty x := by
  by_cases hx : x = b
  · subst hx; simp [State.bwrite, State.dirty]
  · simp [State.bwrite, State.dirty, hx]

end Frame

/-- Whatever `commit` does, the committing call moves on and at most the block list
is emptied. -/
theorem commit_frame (s : State) (c : Call) (k : Commit) : ∃ p : Pc, p ≠ .idle ∧
    (s.commit g c k).pc = Function.update s.pc c p ∧
    (s.commit g c k).hist.active = s.hist.active ∧ (s.commit g c k).hist.logged = s.hist.logged ∧
    (s.commit g c k).boot = s.boot ∧ (s.commit g c k).mode = s.mode ∧
    ((s.commit g c k).log.lh = s.log.lh ∨ (s.commit g c k).log.lh = []) := by
  cases k with
  | writeLog tail =>
    simp only [State.commit]
    split
    · exact ⟨.committing (.writeLog (tail + 1)), by simp [State.setPc, State.writeLog]⟩
    · split
      · exact ⟨.committing .finish, by simp, rfl, rfl, rfl, rfl, rfl, .inl rfl⟩
      · exact ⟨.committing (.install 0), by simp, rfl, rfl, rfl, rfl, rfl, .inl rfl⟩
  | install tail =>
    simp only [State.commit]
    split
    · exact ⟨.committing (.install (tail + 1)), by simp [State.setPc, State.installTrans]⟩
    · exact ⟨.committing .finish, by simp, rfl, rfl, rfl, rfl, rfl, .inr rfl⟩
  | finish => exact ⟨.returned, by simp, rfl, rfl, rfl, rfl, rfl, .inl rfl⟩

/-! ## The control invariant -/

/-- Between `begin_op` and `end_op`. -/
def Pc.Active : Pc → Prop
  | .inOp | .modified _ | .logging _ => True
  | _ => False

/-- The call holds the buffer of `b`. -/
def Pc.Holds (b : ℕ) (p : Pc) : Prop := p = .modified b ∨ p = .logging b

theorem Pc.Holds.active {b : ℕ} {p : Pc} (h : p.Holds b) : p.Active := by
  rcases h with rfl | rfl <;> trivial

/-- The part of the state that decides who may do what. -/
structure Control (s : State) : Prop where
  active : ∀ c, c ∈ s.hist.active ↔ (s.pc c).Active
  outstanding : s.log.outstanding = s.hist.active.card
  committing : s.log.committing = true ↔ ∃ c k, s.pc c = .committing k
  unique : ∀ c c' k k', s.pc c = .committing k → s.pc c' = .committing k' → c = c'
  quiet : s.log.committing = true → s.hist.active = ∅
  locked : ∀ b ∈ s.locked, ∃ c, (s.pc c).Holds b
  nodup : s.locked.Nodup
  holds : ∀ c b, (s.pc c).Holds b → b ∈ s.locked
  exclusive : ∀ c c' b, (s.pc c).Holds b → (s.pc c').Holds b → c = c'
  boot : ∀ c, s.pc c ≠ .idle → c.boot = s.boot
  booting : s.mode ≠ .running → ∀ c, s.pc c = .idle

/-- While a call commits no buffer is held. -/
theorem Control.unlocked (h : Control s) (hc : s.log.committing = true) : s.locked = [] := by
  rw [List.eq_nil_iff_forall_not_mem]
  intro b hb
  obtain ⟨c, hh⟩ := h.locked b hb
  have := (h.active c).2 hh.active
  rw [h.quiet hc] at this
  simp at this

theorem Control.running (h : Control s) {c : Call} (hc : s.pc c ≠ .idle) : s.mode = .running :=
  by_contra fun hm => hc (h.booting hm c)

/-- The invariant speaks about these fields only. -/
theorem Control.congr (h : Control s) (hpc : s'.pc = s.pc) (hact : s'.hist.active = s.hist.active)
    (hout : s'.log.outstanding = s.log.outstanding) (hcom : s'.log.committing = s.log.committing)
    (hlock : s'.locked = s.locked) (hboot : s'.boot = s.boot)
    (hmode : s'.mode = .running ∨ s'.mode = s.mode ∨ s.mode ≠ .running) : Control s' where
  active := by rw [hpc, hact]; exact h.active
  outstanding := by rw [hout, hact]; exact h.outstanding
  committing := by rw [hcom, hpc]; exact h.committing
  unique := by rw [hpc]; exact h.unique
  quiet := by rw [hcom, hact]; exact h.quiet
  locked := by rw [hlock, hpc]; exact h.locked
  nodup := by rw [hlock]; exact h.nodup
  holds := by rw [hpc, hlock]; exact h.holds
  exclusive := by rw [hpc]; exact h.exclusive
  boot := by rw [hpc, hboot]; exact h.boot
  booting := by
    rw [hpc]
    rcases hmode with hm | hm | hm
    · exact fun hn => absurd hm hn
    · rw [hm]; exact h.booting
    · exact fun _ => h.booting hm

/-- A committing call moves on inside `commit`. -/
theorem Control.commit_pc (h : Control s) {c : Call} {k k' : Commit} (hk : s.pc c = .committing k) :
    Control (s.setPc c (.committing k')) := by
  have hcom : s.log.committing = true := h.committing.2 ⟨c, k, hk⟩
  have hlock := h.unlocked hcom
  -- no other call is committing or holds a buffer
  have hne : ∀ x, x ≠ c → ∀ k, s.pc x ≠ .committing k := fun x hx k' hk' => hx (h.unique x c k' k hk' hk)
  have hno : ∀ x b, ¬ ((s.setPc c (.committing k')).pc x).Holds b := by
    intro x b hx
    by_cases hxc : x = c
    · subst hxc; simp [State.setPc, Pc.Holds] at hx
    · simp only [State.setPc, Function.update_of_ne hxc] at hx
      have := h.holds x b hx
      simp [hlock] at this
  refine ⟨?_, h.outstanding, ?_, ?_, h.quiet, ?_, h.nodup, ?_, ?_, ?_, ?_⟩
  · intro x
    by_cases hxc : x = c
    · subst hxc
      simp only [State.setPc, Function.update_self]
      rw [h.active, hk]; rfl
    · simp only [State.setPc, Function.update_of_ne hxc]; exact h.active x
  · refine ⟨fun _ => ⟨c, k', by simp [State.setPc]⟩, fun _ => hcom⟩
  · intro x x' m m' hx hx'
    by_cases hxc : x = c <;> by_cases hxc' : x' = c
    · rw [hxc, hxc']
    · simp only [State.setPc, Function.update_of_ne hxc'] at hx'
      exact absurd hx' (hne x' hxc' m')
    · simp only [State.setPc, Function.update_of_ne hxc] at hx
      exact absurd hx (hne x hxc m)
    · simp only [State.setPc, Function.update_of_ne hxc] at hx
      exact absurd hx (hne x hxc m)
  · intro b hb
    have : b ∈ s.locked := hb
    simp [hlock] at this
  · exact fun x b hx => absurd hx (hno x b)
  · exact fun x x' b hx _ => absurd hx (hno x b)
  · intro x hx
    by_cases hxc : x = c
    · subst hxc; exact h.boot x (by simp [hk])
    · simp only [State.setPc, Function.update_of_ne hxc] at hx; exact h.boot x hx
  · intro hm
    exact absurd (h.running (c := c) (by simp [hk])) hm

theorem control_commit (h : Control s) {c : Call} {k : Commit} (hk : s.pc c = .committing k) :
    Control (s.commit g c k) := by
  cases k with
  | writeLog tail =>
    simp only [State.commit]
    split
    · rename_i hlt
      have h' : Control (s.writeLog g tail s.log.lh[tail]) := by
        unfold State.writeLog
        exact h.congr (by simp) (by simp) (by simp) (by simp) (by simp) (by simp) (by simp)
      exact h'.commit_pc (by simpa [State.writeLog] using hk)
    · split
      · have h' : Control (s.markDurable s.hist.committed) :=
          h.congr rfl rfl rfl rfl rfl rfl (.inr (.inl rfl))
        exact h'.commit_pc hk
      · have h' : Control ((s.markDurable s.view).writeHead g) :=
          h.congr rfl rfl rfl rfl rfl rfl (.inr (.inl rfl))
        exact h'.commit_pc hk
  | install tail =>
    simp only [State.commit]
    split
    · rename_i hlt
      have h' : Control (s.installTrans g tail s.log.lh[tail]) := by
        unfold State.installTrans
        exact h.congr (by simp) (by simp) (by simp) (by simp) (by simp) (by simp) (by simp)
      exact h'.commit_pc (by simpa [State.installTrans] using hk)
    · have h' : Control ({ s with log := { s.log with lh := [] } }.writeHead g) :=
        h.congr rfl rfl rfl rfl rfl rfl (.inr (.inl rfl))
      exact h'.commit_pc hk
  | finish =>
    have hcom : s.log.committing = true := h.committing.2 ⟨c, _, hk⟩
    have hlock := h.unlocked hcom
    have hpc : ∀ x, (s.commit g c .finish).pc x = if x = c then .returned else s.pc x := by
      intro x; simp [State.commit, Function.update_apply]
    refine ⟨?_, h.outstanding, ?_, ?_, ?_, ?_, h.nodup, ?_, ?_, ?_, ?_⟩
    · intro x
      rw [hpc]
      split
      · rename_i hx; subst hx; simp [State.commit, h.active, hk, Pc.Active]
      · exact h.active x
    · simp only [hpc]
      refine ⟨fun hc => by simp [State.commit] at hc, ?_⟩
      rintro ⟨x, k, hx⟩
      split at hx
      · cases hx
      · rename_i hxc; exact absurd (h.unique x c k _ hx hk) hxc
    · intro x x' k k' hx hx'
      rw [hpc] at hx hx'
      split at hx
      · cases hx
      · split at hx'
        · cases hx'
        · exact h.unique x x' k k' hx hx'
    · intro hc; simp [State.commit] at hc
    · intro b hb
      have : b ∈ s.locked := hb
      simp [hlock] at this
    · intro x b hx
      rw [hpc] at hx
      split at hx
      · simp [Pc.Holds] at hx
      · exact h.holds x b hx
    · intro x x' b hx hx'
      rw [hpc] at hx hx'
      split at hx
      · simp [Pc.Holds] at hx
      · split at hx'
        · simp [Pc.Holds] at hx'
        · exact h.exclusive x x' b hx hx'
    · intro x hx
      rw [hpc] at hx
      split at hx
      · rename_i hxc; subst hxc; exact h.boot x (by simp [hk])
      · exact h.boot x hx
    · intro hm
      exact absurd (h.running (c := c) (by simp [hk])) hm

/-- An active call moves on between `begin_op` and `end_op`, holding the buffer
of `b` or none. -/
theorem Control.active_pc (h : Control s) {c : Call} {p : Pc} {l : List ℕ} (hc : (s.pc c).Active)
    (hp : p.Active) (hpc : s'.pc = Function.update s.pc c p) (hact : s'.hist.active = s.hist.active)
    (hout : s'.log.outstanding = s.log.outstanding) (hcom : s'.log.committing = s.log.committing)
    (hlock : s'.locked = l) (hboot : s'.boot = s.boot) (hmode : s'.mode = s.mode)
    (hnodup : l.Nodup) (hin : ∀ b, b ∈ l ↔ p.Holds b ∨ ∃ x, x ≠ c ∧ (s.pc x).Holds b)
    (hfree : ∀ b, p.Holds b → ∀ x, x ≠ c → ¬ (s.pc x).Holds b) : Control s' := by
  have hpcx : ∀ x, s'.pc x = if x = c then p else s.pc x := by
    intro x; rw [hpc, Function.update_apply]
  have hidle : s.pc c ≠ .idle := by intro h0; rw [h0] at hc; exact hc
  have hncom : ∀ k, p ≠ .committing k := by rintro k rfl; exact hp
  have hncom' : ∀ k, s.pc c ≠ .committing k := by intro k hk; rw [hk] at hc; exact hc
  refine ⟨?_, by rw [hout, hact]; exact h.outstanding, ?_, ?_, by rw [hcom, hact]; exact h.quiet, ?_,
    by rw [hlock]; exact hnodup, ?_, ?_, ?_, ?_⟩
  · intro x
    rw [hact, hpcx]
    split
    · rename_i hx; subst hx; simp [h.active, hc, hp]
    · exact h.active x
  · rw [hcom, h.committing]
    constructor
    · rintro ⟨x, k, hk⟩
      have hx : x ≠ c := by rintro rfl; exact hncom' k hk
      exact ⟨x, k, by rw [hpcx, if_neg hx]; exact hk⟩
    · rintro ⟨x, k, hk⟩
      rw [hpcx] at hk
      split at hk
      · exact absurd hk (hncom k)
      · exact ⟨x, k, hk⟩
  · intro x x' k k' hx hx'
    rw [hpcx] at hx hx'
    split at hx
    · exact absurd hx (hncom k)
    · split at hx'
      · exact absurd hx' (hncom k')
      · exact h.unique x x' k k' hx hx'
  · intro b hb
    rw [hlock, hin] at hb
    rcases hb with hb | ⟨x, hx, hb⟩
    · exact ⟨c, by rw [hpcx, if_pos rfl]; exact hb⟩
    · exact ⟨x, by rw [hpcx, if_neg hx]; exact hb⟩
  · intro x b hx
    rw [hlock, hin]
    rw [hpcx] at hx
    split at hx
    · exact .inl hx
    · rename_i hxc; exact .inr ⟨x, hxc, hx⟩
  · intro x x' b hx hx'
    rw [hpcx] at hx hx'
    split at hx <;> split at hx'
    · rename_i h1 h2; rw [h1, h2]
    · rename_i h1 h2; exact absurd hx' (hfree b hx x' h2)
    · rename_i h1 h2; exact absurd hx (hfree b hx' x h1)
    · exact h.exclusive x x' b hx hx'
  · intro x hx
    rw [hboot]
    rw [hpcx] at hx
    split at hx
    · rename_i hxc; subst hxc; exact h.boot x hidle
    · exact h.boot x hx
  · intro hm
    rw [hmode] at hm
    exact absurd (h.running hidle) hm

theorem control_beginOp (h : Control s) {c : Call} (hm : s.mode = .running) (hb : c.boot = s.boot)
    (hc : s.pc c = .idle) (hadm : s.log.admits) : Control (s.beginOp c) := by
  have hpc : ∀ x, (s.beginOp c).pc x = if x = c then .inOp else s.pc x := by
    intro x; simp [State.beginOp, Function.update_apply]
  have hnot : c ∉ s.hist.active := by rw [h.active, hc]; exact id
  refine ⟨?_, ?_, ?_, ?_, ?_, ?_, h.nodup, ?_, ?_, ?_, ?_⟩
  · intro x
    rw [hpc]
    split
    · rename_i hx; subst hx; simp [State.beginOp, Pc.Active]
    · rename_i hx; simp [State.beginOp, hx, h.active]
  · simp [State.beginOp, h.outstanding, hnot]
  · simp only [hpc]
    constructor
    · intro hcom; exact absurd hcom (by simp [State.beginOp, hadm.1])
    · rintro ⟨x, k, hk⟩
      split at hk
      · cases hk
      · have := h.committing.2 ⟨x, k, hk⟩; simp [hadm.1] at this
  · intro x x' k k' hx hx'
    rw [hpc] at hx hx'
    split at hx
    · cases hx
    · split at hx'
      · cases hx'
      · exact h.unique x x' k k' hx hx'
  · intro hcom; simp [State.beginOp, hadm.1] at hcom
  · intro b hbl
    obtain ⟨x, hx⟩ := h.locked b hbl
    have hxc : x ≠ c := by rintro rfl; rw [hc] at hx; simp [Pc.Holds] at hx
    exact ⟨x, by rw [hpc, if_neg hxc]; exact hx⟩
  · intro x b hx
    rw [hpc] at hx
    split at hx
    · simp [Pc.Holds] at hx
    · exact h.holds x b hx
  · intro x x' b hx hx'
    rw [hpc] at hx hx'
    split at hx
    · simp [Pc.Holds] at hx
    · split at hx'
      · simp [Pc.Holds] at hx'
      · exact h.exclusive x x' b hx hx'
  · intro x hx
    rw [hpc] at hx
    split at hx
    · rename_i hxc; subst hxc; exact hb
    · exact h.boot x hx
  · intro hne; exact absurd hm hne

theorem control_endOp (h : Control s) {c : Call} (hc : s.pc c = .inOp)
    (hcom : s.log.committing = false) : Control (s.endOp c) := by
  set last := decide (s.log.outstanding - 1 = 0) with hlast
  have hpc : ∀ x, (s.endOp c).pc x =
      if x = c then (if last then .committing (.writeLog 0) else .returned) else s.pc x := by
    intro x; simp [State.endOp, Function.update_apply, hlast]
  have hin : c ∈ s.hist.active := by rw [h.active, hc]; trivial
  have hno : ∀ x k, s.pc x ≠ .committing k := by
    intro x k hk; have := h.committing.2 ⟨x, k, hk⟩; simp [hcom] at this
  -- the call that ends holds nothing
  have hhold : ∀ x b, ((s.endOp c).pc x).Holds b ↔ (s.pc x).Holds b := by
    intro x b
    rw [hpc]
    split
    · rename_i hx; subst hx; cases last <;> simp [Pc.Holds, hc]
    · rfl
  have hcard : (s.hist.active.erase c).card = s.log.outstanding - 1 := by
    rw [Finset.card_erase_of_mem hin, h.outstanding]
  refine ⟨?_, ?_, ?_, ?_, ?_, ?_, h.nodup, ?_, ?_, ?_, ?_⟩
  · intro x
    rw [hpc]
    split
    · rename_i hx; subst hx; cases last <;> simp [State.endOp, Pc.Active]
    · rename_i hx; simp [State.endOp, hx, h.active]
  · exact hcard.symm
  · simp only [hpc]
    constructor
    · intro hl
      have hl' : last = true := hl
      exact ⟨c, .writeLog 0, by simp [hl']⟩
    · rintro ⟨x, k, hk⟩
      split at hk
      · show last = true
        cases hl : last
        · simp [hl] at hk
        · rfl
      · exact absurd hk (hno x k)
  · intro x x' k k' hx hx'
    rw [hpc] at hx hx'
    split at hx
    · split at hx'
      · rename_i h1 h2; rw [h1, h2]
      · exact absurd hx' (hno x' k')
    · exact absurd hx (hno x k)
  · intro hl
    have hl' : last = true := hl
    rw [hlast, decide_eq_true_eq] at hl'
    rw [← Finset.card_eq_zero]
    exact hcard.trans hl'
  · intro b hb
    obtain ⟨x, hx⟩ := h.locked b hb
    exact ⟨x, (hhold x b).2 hx⟩
  · exact fun x b hx => h.holds x b ((hhold x b).1 hx)
  · exact fun x x' b hx hx' => h.exclusive x x' b ((hhold x b).1 hx) ((hhold x' b).1 hx')
  · intro x hx
    rw [hpc] at hx
    split at hx
    · rename_i hxc; subst hxc; exact h.boot x (by simp [hc])
    · exact h.boot x hx
  · intro hm
    exact absurd (h.running (c := c) (by simp [hc])) hm

theorem control_reboot (s : State) : Control s.reboot := by
  constructor <;> simp [State.reboot, Pc.Active, Pc.Holds]

theorem control_init (d : ℕ → Block) : Control (init d) := by
  constructor <;> simp [init, Pc.Active, Pc.Holds]

theorem control_modify (h : Control s) {c : Call} {b : ℕ} {v : Block} (hc : s.pc c = .inOp)
    (hb : b ∉ s.locked) : Control (s.modify c b v) := by
  have hno : ∀ x, ¬ (s.pc x).Holds b := fun x hx => hb (h.holds x b hx)
  refine h.active_pc (c := c) (p := .modified b) (l := b :: s.locked) (by rw [hc]; trivial) trivial
    rfl rfl rfl rfl rfl rfl rfl (List.nodup_cons.2 ⟨hb, h.nodup⟩) ?_ ?_
  · intro x
    simp only [List.mem_cons, Pc.Holds, Pc.modified.injEq, reduceCtorEq, or_false]
    constructor
    · rintro (rfl | hx)
      · exact .inl rfl
      · obtain ⟨y, hy⟩ := h.locked x hx
        exact .inr ⟨y, by rintro rfl; simp [hc, Pc.Holds] at hy, hy⟩
    · rintro (rfl | ⟨y, -, hy⟩)
      · exact .inl rfl
      · exact .inr (h.holds y x hy)
  · intro x hx y _
    simp only [Pc.Holds, Pc.modified.injEq, reduceCtorEq, or_false] at hx
    subst hx
    exact hno y

theorem control_logWrite (h : Control s) {c : Call} {b : ℕ} (hc : s.pc c = .modified b) :
    Control (s.setPc c (.logging b)) := by
  refine h.active_pc (c := c) (p := .logging b) (l := s.locked) (by rw [hc]; trivial) trivial
    rfl rfl rfl rfl rfl rfl rfl h.nodup ?_ ?_
  · intro x
    constructor
    · intro hx
      obtain ⟨y, hy⟩ := h.locked x hx
      by_cases hyc : y = c
      · subst hyc; rw [hc] at hy; left; simpa [Pc.Holds] using hy
      · exact .inr ⟨y, hyc, hy⟩
    · rintro (hx | ⟨y, -, hy⟩)
      · exact h.holds c x (by rw [hc]; simpa [Pc.Holds] using hx)
      · exact h.holds y x hy
  · intro x hx y hyc hy
    exact hyc (h.exclusive y c x hy (by rw [hc]; simpa [Pc.Holds] using hx))

theorem control_append (h : Control s) {c : Call} {b : ℕ} (hc : s.pc c = .logging b) :
    Control (s.append c b) := by
  have hcb : (s.pc c).Holds b := .inr hc
  refine h.active_pc (c := c) (p := .inOp) (l := s.locked.erase b) (by rw [hc]; trivial) trivial
    rfl rfl rfl rfl rfl rfl rfl (h.nodup.erase b) ?_ ?_
  · intro x
    rw [h.nodup.mem_erase_iff]
    constructor
    · rintro ⟨hxb, hx⟩
      obtain ⟨y, hy⟩ := h.locked x hx
      refine .inr ⟨y, ?_, hy⟩
      rintro rfl
      rw [hc] at hy
      simp only [Pc.Holds, reduceCtorEq, Pc.logging.injEq, false_or] at hy
      exact hxb hy.symm
    · rintro (hx | ⟨y, hyc, hy⟩)
      · simp [Pc.Holds] at hx
      · refine ⟨?_, h.holds y x hy⟩
        rintro rfl
        exact hyc (h.exclusive y c x hy hcb)
  · intro x hx
    simp [Pc.Holds] at hx

/-- **Every event keeps the control invariant.** -/
theorem control_step (h : Control s) {e : Event} (hs : step g s e = some (.ok s')) : Control s' := by
  cases e with
  | begin c =>
    obtain ⟨⟨hm, hb, hc, hadm⟩, rfl⟩ := step_begin.1 hs
    exact control_beginOp h hm hb hc hadm
  | fetch b =>
    obtain ⟨-, rfl⟩ := step_fetch.1 hs
    exact h.congr (by simp) (by simp) (by simp) (by simp) (by simp) (by simp) (by simp)
  | modify c b v =>
    obtain ⟨⟨hc, hb, -, -⟩, rfl⟩ := step_modify.1 hs
    exact control_modify h hc hb
  | logWrite c b =>
    obtain ⟨⟨hc, -⟩, rfl⟩ := step_logWrite.1 hs
    exact control_logWrite h hc
  | append c b =>
    obtain ⟨hc, rfl⟩ := step_append.1 hs
    exact control_append h hc
  | endOp c =>
    obtain ⟨⟨hc, hcom⟩, rfl⟩ := step_endOp.1 hs
    exact control_endOp h hc hcom
  | commit c =>
    obtain ⟨k, hk, rfl⟩ := step_commit.1 hs
    exact control_commit h hk
  | evict b =>
    obtain ⟨-, rfl⟩ := step_evict.1 hs
    exact h.congr rfl rfl rfl rfl rfl rfl (.inr (.inl rfl))
  | crash =>
    rw [step_crash.1 hs]
    exact control_reboot s
  | recover =>
    rw [step_recover] at hs
    cases hm : s.mode with
    | readHead =>
      rw [hm] at hs
      cases hs
      exact h.congr (by simp) (by simp) rfl rfl (by simp) (by simp) (.inr (.inr (by simp [hm])))
    | install tail =>
      rw [hm] at hs
      cases hs
      split <;>
        exact h.congr (by simp [State.installTrans, State.writeHead])
          (by simp [State.installTrans, State.writeHead])
          (by simp [State.installTrans, State.writeHead])
          (by simp [State.installTrans, State.writeHead])
          (by simp [State.installTrans, State.writeHead])
          (by simp [State.installTrans, State.writeHead]) (.inr (.inr (by simp [hm])))
    | running => rw [hm] at hs; cases hs

theorem control_run {d : ℕ → Block} {es : List Event}
    (h : (machine g).run (init d) es = some (.ok s)) : Control s :=
  Machine.run_inv (M := machine g) (control_init d) (fun _ _ _ hI hs => control_step hI hs) h

/-! ## The blocks in the log -/

/-- The blocks that a call can log: outside the log area, and named by 32 bits. -/
def Geometry.Named (g : Geometry) (b : ℕ) : Prop := g.Home b ∧ b < 2 ^ 32

/-- Once the boot is over, held and logged blocks are blocks that a call can log, and
none is logged twice. -/
structure Logged (g : Geometry) (s : State) : Prop where
  held : ∀ c b, (s.pc c).Holds b → g.Named b
  lh : s.mode = .running → ∀ b ∈ s.log.lh, g.Named b
  nodup : s.mode = .running → s.log.lh.Nodup

theorem mem_absorb {lh : List ℕ} {b x : ℕ} : x ∈ absorb lh b ↔ x ∈ lh ∨ x = b := by
  unfold absorb; split <;> simp_all

theorem absorb_nodup {lh : List ℕ} (h : lh.Nodup) (b : ℕ) : (absorb lh b).Nodup := by
  unfold absorb
  split
  · exact h
  · rename_i hb
    refine List.nodup_append.2 ⟨h, List.nodup_singleton b, ?_⟩
    rintro a ha x hx rfl
    exact hb (List.mem_singleton.1 hx ▸ ha)

theorem absorb_length_le (lh : List ℕ) (b : ℕ) : (absorb lh b).length ≤ lh.length + 1 := by
  unfold absorb; split <;> simp

/-- A call moves to a place where it holds nothing new. -/
theorem Logged.move (h : Logged g s) {c : Call} {p : Pc} (hpc : s'.pc = Function.update s.pc c p)
    (hp : ∀ b, p.Holds b → g.Named b) (hmode : s'.mode = s.mode)
    (hlh : s'.log.lh = s.log.lh ∨ s'.log.lh = []) : Logged g s' where
  held x b hx := by
    rw [hpc] at hx
    by_cases hxc : x = c
    · subst hxc; exact hp b (by simpa using hx)
    · exact h.held x b (by simpa [Function.update_of_ne hxc] using hx)
  lh hm b hb := by
    rw [hmode] at hm
    rcases hlh with hlh | hlh <;> rw [hlh] at hb
    · exact h.lh hm b hb
    · simp at hb
  nodup hm := by
    rw [hmode] at hm
    rcases hlh with hlh | hlh <;> rw [hlh]
    · exact h.nodup hm
    · exact List.nodup_nil

theorem logged_step (hC : Control s) (h : Logged g s) {e : Event}
    (hs : step g s e = some (.ok s')) : Logged g s' := by
  cases e with
  | begin c =>
    obtain ⟨-, rfl⟩ := step_begin.1 hs
    exact h.move (c := c) rfl (by simp [Pc.Holds]) rfl (.inl rfl)
  | fetch b =>
    obtain ⟨-, rfl⟩ := step_fetch.1 hs
    exact ⟨by simpa using h.held, by simpa using h.lh, by simpa using h.nodup⟩
  | modify c b v =>
    obtain ⟨⟨-, -, hn⟩, rfl⟩ := step_modify.1 hs
    exact h.move (c := c) rfl (by simpa [Pc.Holds, Geometry.Named] using hn) rfl (.inl rfl)
  | logWrite c b =>
    obtain ⟨⟨hpc, -⟩, rfl⟩ := step_logWrite.1 hs
    exact h.move (c := c) rfl (by simpa [Pc.Holds] using h.held c b (.inl hpc)) rfl (.inl rfl)
  | append c b =>
    obtain ⟨hpc, rfl⟩ := step_append.1 hs
    refine ⟨fun x y hx => ?_, fun hm x hx => ?_, fun hm => absorb_nodup (h.nodup hm) b⟩
    · by_cases hxc : x = c
      · subst hxc; simp [State.append, Pc.Holds] at hx
      · exact h.held x y (by simpa [State.append, Function.update_of_ne hxc] using hx)
    · rcases mem_absorb.1 hx with hx | rfl
      · exact h.lh hm x hx
      · exact h.held c x (.inr hpc)
  | endOp c =>
    obtain ⟨-, rfl⟩ := step_endOp.1 hs
    refine h.move (c := c) rfl ?_ rfl (.inl rfl)
    intro b hb
    split at hb <;> simp [Pc.Holds] at hb
  | commit c =>
    obtain ⟨k, hk, rfl⟩ := step_commit.1 hs
    obtain ⟨p, -, hpc, -, -, -, hmode, hlh⟩ := commit_frame (g := g) s c k
    refine h.move hpc ?_ hmode hlh
    -- nothing is held during a commit
    intro b hb
    have hin := (control_commit (g := g) hC hk).holds c b (by rw [hpc]; simpa using hb)
    have hlock : (s.commit g c k).locked = s.locked := by
      cases k <;> simp only [State.commit] <;> (repeat' split) <;>
        simp [State.setPc, State.writeLog, State.installTrans, State.writeHead, State.markDurable]
    rw [hlock, hC.unlocked (hC.committing.2 ⟨c, k, hk⟩)] at hin
    simp at hin
  | evict b =>
    obtain ⟨-, rfl⟩ := step_evict.1 hs
    exact ⟨h.held, h.lh, h.nodup⟩
  | crash =>
    rw [step_crash.1 hs]
    constructor <;> simp [State.reboot, Pc.Holds]
  | recover =>
    rw [step_recover] at hs
    cases hm : s.mode with
    | readHead =>
      rw [hm] at hs
      cases hs
      exact ⟨by simpa using h.held, by simp, by simp⟩
    | install tail =>
      rw [hm] at hs
      cases hs
      split
      · exact ⟨by simpa [State.installTrans] using h.held, by simp, by simp⟩
      · exact ⟨by simpa [State.writeHead] using h.held, by simp [State.writeHead],
          by simp [State.writeHead]⟩
    | running => rw [hm] at hs; cases hs

theorem logged_run {d : ℕ → Block} {es : List Event}
    (h : (machine g).run (init d) es = some (.ok s)) : Logged g s := by
  refine (Machine.run_inv (M := machine g) (I := fun s => Control s ∧ Logged g s)
    ⟨control_init d, ?_⟩ (fun _ _ _ hI hs => ⟨control_step hI.1 hs, logged_step hI.1 hI.2 hs⟩) h).2
  constructor <;> simp [init, Pc.Holds]

end Xv6.Log
