import Xv6.Log.Control

/-!
# When `begin_op`'s reservation is enough

`begin_op` reserves `MAXOPBLOCKS` blocks for every outstanding call against
`LOGSIZE`, but `log_write` already panics at `log.size - 1`, and it does so before
it looks whether the block would be absorbed. With the geometry of `mkfs`
(`log.size = LOGSIZE`) the last two blocks that `begin_op` gives away are not
there: three calls of `MAXOPBLOCKS` blocks each panic (`three_full_calls_panic`).

* `State.reserved`: the blocks in the log and those the active calls may still add.
* `reserved_run`: if every `begin_op` leaves `reserved` at most `log.size - 2`, it
  stays there.
* `logWrite_never_tooBig`: in such runs "too big a transaction" is not reached.
-/

namespace Xv6.Log

open Finset

variable {g : Geometry} {s s' : State}

/-- The blocks that call `c` passes to `log_write`. -/
def passed (c : Call) (es : List Event) : List ℕ :=
  es.filterMap fun e =>
    match e with
    | .logWrite c' b => if c' = c then some b else none
    | _ => none

/-- Every call passes at most `MAXOPBLOCKS` distinct blocks to `log_write`. -/
def Bounded (es : List Event) : Prop := ∀ c, (passed c es).dedup.length ≤ MAXOPBLOCKS

/-- The length of the block list, with room for what the active calls may still log. -/
def State.reserved (s : State) : ℕ :=
  s.log.lh.length + ∑ c ∈ s.hist.active, (MAXOPBLOCKS - (s.hist.logged c).length)

/-- A call is admitted only while its `MAXOPBLOCKS` blocks still leave the reservation
two short of the log area. -/
def Admitted (g : Geometry) (s : State) : Event → Prop
  | .begin _ => s.reserved + MAXOPBLOCKS ≤ g.size - 2
  | _ => True

instance (g : Geometry) (s : State) (e : Event) : Decidable (Admitted g s e) := by
  unfold Admitted; rcases e with ⟨⟩ <;> infer_instance

theorem passed_append (c : Call) (es fs : List Event) :
    passed c (es ++ fs) = passed c es ++ passed c fs := List.filterMap_append

theorem passed_snoc (c : Call) (es : List Event) (e : Event) :
    passed c (es ++ [e]) = passed c es ++ passed c [e] := passed_append c es [e]

theorem Bounded.init {es : List Event} {e : Event} (h : Bounded (es ++ [e])) : Bounded es := by
  intro c
  refine le_trans ?_ (h c)
  rw [passed_snoc]
  refine List.Subperm.length_le (List.subperm_of_subset (List.nodup_dedup _) fun b hb => ?_)
  rw [List.mem_dedup] at hb ⊢
  exact List.mem_append_left _ hb

/-- Distinct blocks that a call has passed are at most `MAXOPBLOCKS`. -/
theorem Bounded.length_le {es : List Event} (h : Bounded es) {c : Call} {l : List ℕ} (hl : l.Nodup)
    (hsub : ∀ b ∈ l, b ∈ passed c es) : l.length ≤ MAXOPBLOCKS :=
  le_trans (List.subperm_of_subset hl fun b hb => List.mem_dedup.2 (hsub b hb)).length_le (h c)

/-! ## The books

What `History` says about the calls that are active, in every run. -/

structure Books (es : List Event) (s : State) : Prop where
  control : Control s
  sub : ∀ c ∈ s.hist.active, ∀ b ∈ s.hist.logged c, b ∈ s.log.lh
  nodup : ∀ c, (s.hist.logged c).Nodup
  fresh : ∀ c, s.boot < c.boot ∨ c.boot = s.boot ∧ s.pc c = .idle →
    s.hist.logged c = [] ∧ passed c es = []
  logged : ∀ c, ∀ b ∈ s.hist.logged c, b ∈ passed c es
  logging : ∀ c b, s.pc c = .logging b → b ∈ passed c es
  spent : ∀ c ∈ s.hist.active, ∀ b ∈ passed c es, b ∈ s.hist.logged c ∨ s.pc c = .logging b

theorem mem_passed_snoc {c : Call} {es : List Event} {e : Event} {b : ℕ} (h : b ∈ passed c es) :
    b ∈ passed c (es ++ [e]) := by
  rw [passed_snoc]; exact List.mem_append_left _ h

/-- An event that is no part of `log_write`. -/
theorem Books.frame {es : List Event} {e : Event} (h : Books es s) (hc : Control s')
    (he : ∀ c, passed c [e] = []) (hlog : s'.hist.logged = s.hist.logged)
    (hsub : ∀ c ∈ s'.hist.active, s.hist.logged c = [] ∧ passed c es = [] ∨
      c ∈ s.hist.active ∧ s'.log.lh = s.log.lh)
    (hfresh : ∀ c, s'.boot < c.boot ∨ c.boot = s'.boot ∧ s'.pc c = .idle →
      s.boot < c.boot ∨ c.boot = s.boot ∧ s.pc c = .idle)
    (hpc : ∀ c ∈ s'.hist.active, ∀ b, s'.pc c = .logging b ↔ s.pc c = .logging b) :
    Books (es ++ [e]) s' := by
  have hpass : ∀ c, passed c (es ++ [e]) = passed c es := by
    intro c; rw [passed_snoc, he, List.append_nil]
  refine ⟨hc, ?_, by rw [hlog]; exact h.nodup, ?_, ?_, ?_, ?_⟩
  · intro c hcact b hb
    rw [hlog] at hb
    rcases hsub c hcact with ⟨hnil, -⟩ | ⟨hold, hlh⟩
    · simp [hnil] at hb
    · rw [hlh]; exact h.sub c hold b hb
  · intro c hcf
    rw [hlog, hpass]
    exact h.fresh c (hfresh c hcf)
  · intro c b hb
    rw [hlog] at hb
    rw [hpass]
    exact h.logged c b hb
  · intro c b hcb
    rw [hpass]
    exact h.logging c b ((hpc c ((hc.active c).2 (by rw [hcb]; trivial)) b).1 hcb)
  · intro c hcact b hb
    rw [hpass] at hb
    rw [hlog, hpc c hcact b]
    rcases hsub c hcact with ⟨-, hnil⟩ | ⟨hold, -⟩
    · simp [hnil] at hb
    · exact h.spent c hold b hb

/-- An event of one call, which stays or becomes active or ends, out of `log_write`. -/
theorem Books.move {es : List Event} {e : Event} {c : Call} {p : Pc} (h : Books es s)
    (hc : Control s') (he : ∀ c, passed c [e] = []) (hp : s'.pc = Function.update s.pc c p)
    (hold : ∀ b, s.pc c ≠ .logging b) (hnew : ∀ b, p ≠ .logging b) (hidle : p ≠ .idle)
    (hlog : s'.hist.logged = s.hist.logged) (hboot : s'.boot = s.boot)
    (hsub : ∀ x ∈ s'.hist.active, s.hist.logged x = [] ∧ passed x es = [] ∨
      x ∈ s.hist.active ∧ s'.log.lh = s.log.lh) : Books (es ++ [e]) s' := by
  refine h.frame hc he hlog hsub ?_ ?_
  · intro x hx
    rw [hboot, hp] at hx
    refine hx.imp_right fun ⟨h1, h2⟩ => ⟨h1, ?_⟩
    by_cases hxc : x = c
    · subst hxc; simp [hidle] at h2
    · simpa [Function.update_of_ne hxc] using h2
  · intro x _ b
    rw [hp]
    by_cases hxc : x = c
    · subst hxc; simp [hold b, hnew b]
    · rw [Function.update_of_ne hxc]

theorem books_begin {es : List Event} {c : Call} (h : Books es s)
    (hs : step g s (.begin c) = some (.ok s')) : Books (es ++ [.begin c]) s' := by
  have hc' := control_step h.control hs
  obtain ⟨⟨-, hb, hidle, -⟩, rfl⟩ := step_begin.1 hs
  refine h.move (c := c) (p := .inOp) hc' (fun _ => rfl) rfl (by simp [hidle]) (by simp) (by simp) rfl
    rfl ?_
  intro x hx
  rcases mem_insert.1 hx with rfl | hx
  · exact .inl (h.fresh x (.inr ⟨hb, hidle⟩))
  · exact .inr ⟨hx, rfl⟩

theorem books_logWrite {es : List Event} {c : Call} {b : ℕ} (h : Books es s)
    (hs : step g s (.logWrite c b) = some (.ok s')) : Books (es ++ [.logWrite c b]) s' := by
  have hc' := control_step h.control hs
  obtain ⟨⟨hpc, -⟩, rfl⟩ := step_logWrite.1 hs
  have hcb : c.boot = s.boot := h.control.boot c (by simp [hpc])
  have hself : passed c [.logWrite c b] = [b] := by simp [passed]
  have hother : ∀ x, x ≠ c → passed x [.logWrite c b] = [] := by
    intro x hx; simp [passed, Ne.symm hx]
  refine ⟨hc', h.sub, h.nodup, ?_, fun x y hy => mem_passed_snoc (h.logged x y hy), ?_, ?_⟩
  · intro x hx
    have hxc : x ≠ c := by
      rintro rfl
      rcases hx with hx | ⟨-, hx⟩
      · change s.boot < x.boot at hx; omega
      · simp [State.setPc] at hx
    rw [passed_snoc, hother x hxc, List.append_nil]
    exact h.fresh x (by simpa [State.setPc, Function.update_of_ne hxc] using hx)
  · intro x y hx
    by_cases hxc : x = c
    · subst hxc
      have hby : b = y := by simpa [State.setPc] using hx
      rw [passed_snoc, hself, hby]
      simp
    · exact mem_passed_snoc (h.logging x y (by simpa [State.setPc, Function.update_of_ne hxc] using hx))
  · intro x hx y hy
    by_cases hxc : x = c
    · subst hxc
      rw [passed_snoc, hself, List.mem_append, List.mem_singleton] at hy
      rcases hy with hy | rfl
      · exact .inl ((h.spent x hx y hy).resolve_right (by simp [hpc]))
      · right; simp [State.setPc]
    · rw [passed_snoc, hother x hxc, List.append_nil] at hy
      simpa [State.setPc, Function.update_of_ne hxc] using h.spent x hx y hy

theorem append_logged (s : State) (c x : Call) (b : ℕ) : (s.append c b).hist.logged x =
    if x = c then absorb (s.hist.logged c) b else s.hist.logged x := by
  simp [State.append, Function.update_apply]

theorem books_append {es : List Event} {c : Call} {b : ℕ} (h : Books es s)
    (hs : step g s (.append c b) = some (.ok s')) : Books (es ++ [.append c b]) s' := by
  have hc' := control_step h.control hs
  obtain ⟨hpc, rfl⟩ := step_append.1 hs
  have hcb : c.boot = s.boot := h.control.boot c (by simp [hpc])
  have hpass : ∀ x, passed x (es ++ [.append c b]) = passed x es := by
    intro x; rw [passed_snoc]; exact List.append_nil _
  have hpcx : ∀ x, x ≠ c → (s.append c b).pc x = s.pc x := by
    intro x hx; simp [State.append, Function.update_of_ne hx]
  refine ⟨hc', ?_, ?_, ?_, ?_, ?_, ?_⟩
  · intro x hx y hy
    rw [append_logged] at hy
    show y ∈ absorb s.log.lh b
    rw [mem_absorb]
    split at hy
    · rename_i hxc
      subst hxc
      exact (mem_absorb.1 hy).imp_left (h.sub x hx y)
    · exact .inl (h.sub x hx y hy)
  · intro x
    rw [append_logged]
    split
    · exact absorb_nodup (h.nodup c) b
    · exact h.nodup x
  · intro x hx
    have hxc : x ≠ c := by
      rintro rfl
      rcases hx with hx | ⟨-, hx⟩
      · change s.boot < x.boot at hx; omega
      · simp [State.append] at hx
    rw [append_logged, if_neg hxc, hpass]
    rw [hpcx x hxc] at hx
    exact h.fresh x hx
  · intro x y hy
    rw [append_logged] at hy
    rw [hpass]
    split at hy
    · rename_i hxc
      subst hxc
      rcases mem_absorb.1 hy with hy | rfl
      · exact h.logged x y hy
      · exact h.logging x y hpc
    · exact h.logged x y hy
  · intro x y hx
    rw [hpass]
    by_cases hxc : x = c
    · subst hxc; simp [State.append] at hx
    · exact h.logging x y (by rwa [hpcx x hxc] at hx)
  · intro x hx y hy
    rw [hpass] at hy
    rw [append_logged]
    by_cases hxc : x = c
    · subst hxc
      rw [if_pos rfl, mem_absorb]
      refine .inl ((h.spent x hx y hy).imp_right fun hlg => ?_)
      rw [hpc] at hlg
      exact (Pc.logging.inj hlg).symm
    · rw [if_neg hxc, hpcx x hxc]
      exact h.spent x hx y hy

theorem books_commit {es : List Event} {c : Call} (h : Books es s)
    (hs : step g s (.commit c) = some (.ok s')) : Books (es ++ [.commit c]) s' := by
  have hc' := control_step h.control hs
  obtain ⟨k, hk, rfl⟩ := step_commit.1 hs
  have hact := h.control.quiet (h.control.committing.2 ⟨c, k, hk⟩)
  obtain ⟨p, hp, hpc, hact', hlog, hboot, -, -⟩ := commit_frame (g := g) s c k
  refine h.frame hc' (fun _ => rfl) hlog (by simp [hact', hact]) ?_ (by simp [hact', hact])
  intro x hx
  rw [hboot, hpc] at hx
  refine hx.imp_right fun ⟨h1, h2⟩ => ⟨h1, ?_⟩
  by_cases hxc : x = c
  · subst hxc; simp [hp] at h2
  · simpa [Function.update_of_ne hxc] using h2

/-- Before the boot is over no call is active. -/
theorem Control.booting_active (h : Control s) (hm : s.mode ≠ .running) : s.hist.active = ∅ := by
  refine eq_empty_of_forall_notMem fun x hx => ?_
  have := (h.active x).1 hx
  rw [h.booting hm x] at this
  exact this

/-- **Every event keeps the books.** -/
theorem books_step {es : List Event} {e : Event} (h : Books es s)
    (hs : step g s e = some (.ok s')) : Books (es ++ [e]) s' := by
  have hc' := control_step h.control hs
  cases e with
  | begin c => exact books_begin h hs
  | fetch b =>
    obtain ⟨-, rfl⟩ := step_fetch.1 hs
    exact h.frame hc' (fun _ => rfl) (by simp) (by simp +contextual) (by simp) (by simp)
  | modify c b v =>
    obtain ⟨⟨hpc, -⟩, rfl⟩ := step_modify.1 hs
    exact h.move (c := c) hc' (fun _ => rfl) rfl (by simp [hpc]) (by simp) (by simp) rfl rfl
      fun x hx => .inr ⟨hx, rfl⟩
  | logWrite c b => exact books_logWrite h hs
  | append c b => exact books_append h hs
  | endOp c =>
    obtain ⟨⟨hpc, -⟩, rfl⟩ := step_endOp.1 hs
    refine h.move (c := c) hc' (fun _ => rfl) rfl (by simp [hpc]) ?_ ?_ rfl rfl
      fun x hx => .inr ⟨mem_of_mem_erase hx, rfl⟩
    · intro b; split <;> simp
    · split <;> simp
  | commit c => exact books_commit h hs
  | evict b =>
    obtain ⟨-, rfl⟩ := step_evict.1 hs
    exact h.frame hc' (fun _ => rfl) rfl (fun c hc => .inr ⟨hc, rfl⟩) (fun _ => id) fun _ _ _ => Iff.rfl
  | crash =>
    rw [step_crash.1 hs] at hc' ⊢
    refine h.frame hc' (fun _ => rfl) rfl (by simp [State.reboot]) ?_ (by simp [State.reboot])
    intro c hx
    left
    rcases hx with hx | ⟨hx, -⟩ <;> simp only [State.reboot] at hx <;> omega
  | recover =>
    rw [step_recover] at hs
    cases hm : s.mode with
    | readHead =>
      have hempty := h.control.booting_active (by simp [hm])
      rw [hm] at hs
      cases hs
      exact h.frame hc' (fun _ => rfl) (by simp) (by simp [hempty]) (by simp) (by simp)
    | install tail =>
      have hempty := h.control.booting_active (by simp [hm])
      rw [hm] at hs
      cases hs
      split at hc' <;> split <;> try contradiction
      · exact h.frame hc' (fun _ => rfl) (by simp [State.installTrans])
          (by simp [State.installTrans, hempty]) (by simp [State.installTrans])
          (by simp [State.installTrans])
      · exact h.frame hc' (fun _ => rfl) rfl (by simp [State.writeHead, hempty]) (fun _ => id)
          fun _ _ _ => Iff.rfl
    | running => rw [hm] at hs; cases hs

theorem books_run {d : ℕ → Block} {es : List Event}
    (h : (machine g).run (init d) es = some (.ok s)) : Books es s :=
  Machine.run_induct (M := machine g) (P := Books)
    ⟨control_init d, by simp [init], by simp [init], by simp [init, passed], by simp [init],
      by simp [init], by simp [init]⟩
    (fun _ _ _ _ _ ih hs => books_step ih hs) es s h

/-! ## The reservation -/

theorem reserved_begin {es : List Event} {c : Call} (h : Books es s)
    (hs : step g s (.begin c) = some (.ok s')) : s'.reserved = s.reserved + MAXOPBLOCKS := by
  obtain ⟨⟨-, hb, hidle, -⟩, rfl⟩ := step_begin.1 hs
  have hnot : c ∉ s.hist.active := by rw [h.control.active, hidle]; exact id
  have hnil : s.hist.logged c = [] := (h.fresh c (.inr ⟨hb, hidle⟩)).1
  simp only [State.reserved, State.beginOp]
  rw [sum_insert hnot, hnil]
  simp only [List.length_nil, Nat.sub_zero]
  omega

/-- What the active calls may still log, before and after `c` records `b`. -/
theorem sum_append {c : Call} (b : ℕ) (hin : c ∈ s.hist.active) :
    ∑ x ∈ s.hist.active, (MAXOPBLOCKS - ((s.append c b).hist.logged x).length) +
        (MAXOPBLOCKS - (s.hist.logged c).length) =
      ∑ x ∈ s.hist.active, (MAXOPBLOCKS - (s.hist.logged x).length) +
        (MAXOPBLOCKS - (absorb (s.hist.logged c) b).length) := by
  rw [← add_sum_erase _ _ hin, ← add_sum_erase _ (fun x => MAXOPBLOCKS - (s.hist.logged x).length) hin,
    append_logged, if_pos rfl]
  have : ∑ x ∈ s.hist.active.erase c, (MAXOPBLOCKS - ((s.append c b).hist.logged x).length) =
      ∑ x ∈ s.hist.active.erase c, (MAXOPBLOCKS - (s.hist.logged x).length) := by
    refine sum_congr rfl fun x hx => ?_
    rw [append_logged, if_neg (ne_of_mem_erase hx)]
  omega

/-- **Recording a block keeps the reservation**: a block new to the call uses up one
of the blocks reserved for it, any other is absorbed. -/
theorem reserved_append {es : List Event} {c : Call} {b : ℕ} (h : Books es s) (hB : Bounded es)
    (hs : step g s (.append c b) = some (.ok s')) : s'.reserved ≤ s.reserved := by
  obtain ⟨hpc, rfl⟩ := step_append.1 hs
  have hin : c ∈ s.hist.active := (h.control.active c).2 (by rw [hpc]; trivial)
  have hsum := sum_append b hin
  have hlen : (absorb (s.hist.logged c) b).length ≤ MAXOPBLOCKS := by
    refine hB.length_le (c := c) (absorb_nodup (h.nodup c) b) fun x hx => ?_
    rcases mem_absorb.1 hx with hx | rfl
    · exact h.logged c x hx
    · exact h.logging c x hpc
  show (absorb s.log.lh b).length + _ ≤ _
  unfold State.reserved
  rw [show (s.append c b).hist.active = s.hist.active from rfl]
  by_cases hmem : b ∈ s.hist.logged c
  · have h1 : absorb (s.hist.logged c) b = s.hist.logged c := if_pos hmem
    have h2 : absorb s.log.lh b = s.log.lh := if_pos (h.sub c hin b hmem)
    rw [h1] at hsum
    rw [h2]
    omega
  · have h1 : (absorb (s.hist.logged c) b).length = (s.hist.logged c).length + 1 := by
      rw [absorb, if_neg hmem]; simp
    have h2 := absorb_length_le s.log.lh b
    omega

/-- The reservation does not grow but at `begin_op`. -/
theorem reserved_frame (hlh : s'.log.lh.length ≤ s.log.lh.length)
    (hlog : s'.hist.logged = s.hist.logged) (hact : s'.hist.active ⊆ s.hist.active) :
    s'.reserved ≤ s.reserved := by
  unfold State.reserved
  rw [hlog]
  exact Nat.add_le_add hlh (sum_le_sum_of_subset hact)

/-- **One event of a bounded run that keeps the margin.** -/
theorem reserved_step {es : List Event} {e : Event} {m : ℕ} (h : Books es s) (hB : Bounded es)
    (hg : ∀ c, e = .begin c → s.reserved + MAXOPBLOCKS ≤ m) (hr : s.mode = .running → s.reserved ≤ m)
    (hs : step g s e = some (.ok s')) : s'.mode = .running → s'.reserved ≤ m := by
  intro hm'
  cases e with
  | begin c => rw [reserved_begin h hs]; exact hg c rfl
  | fetch b =>
    obtain ⟨-, rfl⟩ := step_fetch.1 hs
    exact (reserved_frame (by simp) (by simp) (by simp)).trans (hr (by simpa using hm'))
  | modify c b v =>
    obtain ⟨-, rfl⟩ := step_modify.1 hs
    exact hr hm'
  | logWrite c b =>
    obtain ⟨-, rfl⟩ := step_logWrite.1 hs
    exact hr hm'
  | append c b =>
    have := reserved_append h hB hs
    obtain ⟨-, rfl⟩ := step_append.1 hs
    exact this.trans (hr hm')
  | endOp c =>
    obtain ⟨-, rfl⟩ := step_endOp.1 hs
    have : (s.endOp c).reserved ≤ s.reserved := reserved_frame le_rfl rfl (erase_subset _ _)
    exact this.trans (hr hm')
  | commit c =>
    obtain ⟨k, hk, rfl⟩ := step_commit.1 hs
    obtain ⟨p, -, -, hact, hlog, -, hmode, hlh⟩ := commit_frame (g := g) s c k
    rw [hmode] at hm'
    exact (reserved_frame (by rcases hlh with h | h <;> simp [h]) hlog (by rw [hact])).trans (hr hm')
  | evict b =>
    obtain ⟨-, rfl⟩ := step_evict.1 hs
    exact hr hm'
  | crash =>
    rw [step_crash.1 hs] at hm'
    simp [State.reboot] at hm'
  | recover =>
    rw [step_recover] at hs
    cases hm : s.mode with
    | readHead => rw [hm] at hs; cases hs; simp at hm'
    | install tail =>
      rw [hm] at hs
      cases hs
      split at hm'
      · simp at hm'
      · rename_i hlen
        rw [dif_neg hlen]
        simp [State.reserved, State.writeHead, h.control.booting_active (s := s) (by simp [hm])]
    | running => rw [hm] at hs; cases hs

/-- In a run whose admissions keep the margin, so does the reservation. -/
theorem reserved_run {d : ℕ → Block} {es : List Event} (hB : Bounded es)
    (hG : (machine g).Guarded (Admitted g) (init d) es)
    (h : (machine g).run (init d) es = some (.ok s)) (hm : s.mode = .running) :
    s.reserved ≤ g.size - 2 := by
  refine Machine.run_induct (M := machine g)
    (P := fun es s => Bounded es → (machine g).Guarded (Admitted g) (init d) es →
      s.mode = .running → s.reserved ≤ g.size - 2) ?_ ?_ es s h hB hG hm
  · intro _ _ h0; simp [init] at h0
  · intro es s e s' hr ih hs hB hG
    refine reserved_step (books_run hr) hB.init ?_ (ih hB.init hG.init) hs
    rintro c rfl
    exact hG.last hr

theorem no_tooBig (hsize : g.size = LOGSIZE) {d : ℕ → Block} {es : List Event} (hB : Bounded es)
    (hG : (machine g).Guarded (Admitted g) (init d) es) :
    (machine g).run (init d) es ≠ some (.error .tooBig) := by
  intro hf
  obtain ⟨es, e, s, rfl, hr, hs⟩ := Machine.run_fault hf
  obtain ⟨c, b, rfl, hpc, hfull⟩ := step_tooBig.1 hs
  have hres := reserved_run hB.init hG.init hr ((books_run hr).control.running (c := c) (by simp [hpc]))
  have hle : s.log.lh.length ≤ s.reserved := Nat.le_add_right _ _
  rw [hsize] at hfull hres
  simp only [LOGSIZE, MAXOPBLOCKS] at hfull hres
  omega

/-! ## Three full calls

`begin_op` admits three calls, since `0 + 3 * MAXOPBLOCKS ≤ LOGSIZE`. -/

/-- Call `c` changes and logs the `n` blocks from `b`. -/
def logs (c : Call) (b n : ℕ) : List Event :=
  (List.range n).flatMap fun i => [.modify c (b + i) 0, .logWrite c (b + i), .append c (b + i)]

/-- A boot, and three calls that begin together and log ten distinct blocks each, up to
the tests at the head of the last `log_write`. -/
def threeFullCalls : List Event :=
  [.recover, .recover, .begin ⟨0, 0⟩, .begin ⟨0, 1⟩, .begin ⟨0, 2⟩] ++ logs ⟨0, 0⟩ 32 10 ++
    logs ⟨0, 1⟩ 42 10 ++ logs ⟨0, 2⟩ 52 9 ++ [.modify ⟨0, 2⟩ 61 0, .logWrite ⟨0, 2⟩ 61]

theorem passed_logs (c x : Call) (b n : ℕ) :
    passed x (logs c b n) = if x = c then (List.range n).map (b + ·) else [] := by
  induction n with
  | zero => simp [logs, passed]
  | succ n ih =>
    have hsucc : logs c b (n + 1) = logs c b n ++
        [.modify c (b + n) 0, .logWrite c (b + n), .append c (b + n)] := by
      simp [logs, List.range_succ]
    rw [hsucc, passed_append, ih]
    by_cases hx : x = c
    · subst hx; simp [passed, List.range_succ]
    · simp [passed, hx, Ne.symm hx]

theorem bounded_threeFullCalls : Bounded threeFullCalls := by
  intro c
  simp only [threeFullCalls, passed_append, passed_logs]
  by_cases h0 : c = ⟨0, 0⟩
  · subst h0; decide
  · by_cases h1 : c = ⟨0, 1⟩
    · subst h1; decide
    · by_cases h2 : c = ⟨0, 2⟩
      · subst h2; decide
      · simp [passed, h0, h1, h2, Ne.symm h2]

def isTooBig : Option (Except Panic State) → Bool
  | some (.error .tooBig) => true
  | _ => false

theorem isTooBig_iff (r : Option (Except Panic State)) :
    isTooBig r = true ↔ r = some (.error .tooBig) := by
  constructor
  · intro h
    unfold isTooBig at h
    split at h
    · rfl
    · cases h
  · rintro rfl; rfl

/-- **The reservation of `begin_op` is not enough**: three calls of `MAXOPBLOCKS`
distinct blocks each reach "too big a transaction". -/
theorem three_full_calls_panic : Bounded threeFullCalls ∧
    (machine mkfs).run (init fun _ _ => 0) threeFullCalls = some (.error .tooBig) :=
  ⟨bounded_threeFullCalls, (isTooBig_iff _).1 (by decide +kernel)⟩

/-! ## Admission beyond the margin

From a state whose reservation exceeds `log.size - 2` the active calls can run into
the panic, without any of them logging more than `MAXOPBLOCKS` distinct blocks. -/

section Sharp

variable {d : ℕ → Block} {es : List Event} {c : Call} {b : ℕ}

/-- The state in which a call has changed and logged block `b`. -/
def State.write (s : State) (c : Call) (b : ℕ) : State :=
  ((s.modify c b 0).setPc c (.logging b)).append c b

theorem run_write (hr : (machine g).run (init d) es = some (.ok s)) (hpc : s.pc c = .inOp)
    (hb : b ∉ s.locked) (hn : g.Named b) (hlen : s.log.lh.length < LOGSIZE)
    (hsize : s.log.lh.length < g.size - 1) :
    (machine g).run (init d) (es ++ [.modify c b 0, .logWrite c b, .append c b]) =
      some (.ok (s.write c b)) := by
  have hC := control_run hr
  have hout : 1 ≤ s.log.outstanding := by
    rw [hC.outstanding, Nat.one_le_iff_ne_zero, Finset.card_ne_zero]
    exact ⟨c, (hC.active c).2 (by rw [hpc]; trivial)⟩
  have h1 := (Machine.run_snoc (M := machine g) es (.modify c b 0) (init d) (.ok (s.modify c b 0))).2
    ⟨s, hr, step_modify.2 ⟨⟨hpc, hb, hn⟩, rfl⟩⟩
  have h2 := (Machine.run_snoc (M := machine g) _ (.logWrite c b) (init d)
    (.ok ((s.modify c b 0).setPc c (.logging b)))).2
    ⟨_, h1, step_logWrite.2 ⟨⟨by simp [State.modify], hlen, hsize, hout⟩, rfl⟩⟩
  have h3 := (Machine.run_snoc (M := machine g) _ (.append c b) (init d) (.ok (s.write c b))).2
    ⟨_, h2, (step_append (g := g)).2 ⟨by simp [State.setPc], rfl⟩⟩
  simpa using h3

theorem run_tooBig (hr : (machine g).run (init d) es = some (.ok s)) (hpc : s.pc c = .inOp)
    (hb : b ∉ s.locked) (hn : g.Named b) (hfull : g.size - 1 ≤ s.log.lh.length) :
    (machine g).run (init d) (es ++ [.modify c b 0, .logWrite c b]) = some (.error .tooBig) := by
  have h1 := (Machine.run_snoc (M := machine g) es (.modify c b 0) (init d) (.ok (s.modify c b 0))).2
    ⟨s, hr, step_modify.2 ⟨⟨hpc, hb, hn⟩, rfl⟩⟩
  have h2 := (Machine.run_snoc (M := machine g) _ (.logWrite c b) (init d) (.error .tooBig)).2
    ⟨_, h1, (step_tooBig (s := s.modify c b 0)).2
      ⟨c, b, rfl, by simp [State.modify], .inr hfull⟩⟩
  simpa using h2

/-- A call that has room for `b` may pass it to `log_write`. -/
theorem Bounded.write (hB : Bounded es) (h : Books es s) (hin : c ∈ s.hist.active)
    (hpc : s.pc c = .inOp) (hroom : (absorb (s.hist.logged c) b).length ≤ MAXOPBLOCKS)
    {fs : List Event} (hfs : ∀ x, passed x fs = if x = c then [b] else []) : Bounded (es ++ fs) := by
  intro x
  rw [passed_append, hfs]
  split
  · rename_i hx
    subst hx
    refine le_trans (List.Subperm.length_le (List.subperm_of_subset (List.nodup_dedup _) ?_)) hroom
    intro y hy
    rw [List.mem_dedup, List.mem_append, List.mem_singleton] at hy
    rw [mem_absorb]
    exact hy.imp_left fun hy => (h.spent x hin y hy).resolve_right (by simp [hpc])
  · rw [List.append_nil]; exact hB x

theorem passed_write (x : Call) : passed x [.modify c b 0, .logWrite c b, .append c b] =
    if x = c then [b] else [] := by
  by_cases hx : x = c
  · subst hx; simp [passed]
  · simp [passed, hx, Ne.symm hx]

theorem passed_half (x : Call) : passed x [.modify c b 0, .logWrite c b] =
    if x = c then [b] else [] := by
  by_cases hx : x = c
  · subst hx; simp [passed]
  · simp [passed, hx, Ne.symm hx]

/-- There is always a block that is not in the log yet. -/
theorem exists_fresh (lh : List ℕ) (h : lh.length < LOGSIZE) : ∃ b, mkfs.Named b ∧ b ∉ lh := by
  have hcard : lh.toFinset.card < (Finset.Icc 32 (32 + lh.length)).card := by
    have := lh.toFinset_card_le
    simp only [Nat.card_Icc]
    omega
  obtain ⟨b, hb, hnot⟩ := Finset.exists_mem_notMem_of_card_lt_card hcard
  rw [Finset.mem_Icc] at hb
  simp only [LOGSIZE, MAXOPBLOCKS] at h
  refine ⟨b, ⟨.inr ?_, by omega⟩, fun hm => hnot (List.mem_toFinset.2 hm)⟩
  simp only [mkfs, LOGSIZE, MAXOPBLOCKS]
  omega

/-- No call is inside `log_write` or holds a buffer. -/
def State.Between (s : State) : Prop := ∀ c b, ¬ (s.pc c).Holds b

theorem State.Between.inOp (hbt : s.Between) (hC : Control s) (hin : c ∈ s.hist.active) :
    s.pc c = .inOp := by
  have ha := (hC.active c).1 hin
  have hno := hbt c
  cases hpc : s.pc c with
  | inOp => rfl
  | modified b => exact absurd (.inl hpc) (hno b)
  | logging b => exact absurd (.inr hpc) (hno b)
  | idle => rw [hpc] at ha; exact ha.elim
  | committing k => rw [hpc] at ha; exact ha.elim
  | returned => rw [hpc] at ha; exact ha.elim

theorem State.Between.unlocked (hbt : s.Between) (hC : Control s) : s.locked = [] := by
  rw [List.eq_nil_iff_forall_not_mem]
  intro b hb
  obtain ⟨c, hc⟩ := hC.locked b hb
  exact hbt c b hc

theorem write_between (hbt : s.Between) : (s.write c b).Between := by
  intro x y hx
  by_cases hxc : x = c
  · subst hxc; simp [State.write, State.append, Pc.Holds] at hx
  · refine hbt x y ?_
    simpa [State.write, State.append, State.setPc, State.modify, Function.update_of_ne hxc] using hx

/-- A block new to the log and to the call moves from the reservation into the list. -/
theorem write_reserved (hin : c ∈ s.hist.active) (hb : b ∉ s.log.lh) (hbl : b ∉ s.hist.logged c)
    (hroom : (s.hist.logged c).length < MAXOPBLOCKS) : (s.write c b).reserved = s.reserved := by
  have hsum := sum_append (s := (s.modify c b 0).setPc c (.logging b)) (c := c) b hin
  have h1 : (absorb (s.hist.logged c) b).length = (s.hist.logged c).length + 1 := by
    rw [absorb, if_neg hbl]; simp
  have h2 : (absorb s.log.lh b).length = s.log.lh.length + 1 := by
    rw [absorb, if_neg hb]; simp
  simp only [State.modify, State.setPc] at hsum
  rw [h1] at hsum
  unfold State.reserved State.write
  simp only [State.modify, State.setPc, State.append] at hsum ⊢
  rw [h2]
  omega

/-- **The panic is within reach of a reservation beyond the margin.** -/
theorem exists_tooBig (n : ℕ) : ∀ es s, (machine mkfs).run (init d) es = some (.ok s) → Bounded es →
    s.Between → s.mode = .running → s.hist.active.Nonempty → LOGSIZE - 1 ≤ s.reserved →
    LOGSIZE - 1 - s.log.lh.length = n →
    ∃ fs, Bounded (es ++ fs) ∧ (machine mkfs).run (init d) (es ++ fs) = some (.error .tooBig) := by
  induction n with
  | zero =>
    intro es s hr hB hbt hm hne hres hn
    have hC := control_run hr
    have h := books_run hr
    have hL := logged_run hr
    obtain ⟨c, hin⟩ := hne
    have hpc := hbt.inOp hC hin
    have hlock := hbt.unlocked hC
    -- a block the call has logged before does as well as its first one
    obtain ⟨b, hb, hroom⟩ : ∃ b, mkfs.Named b ∧
        (absorb (s.hist.logged c) b).length ≤ MAXOPBLOCKS := by
      cases hl : s.hist.logged c with
      | nil => exact ⟨32, ⟨.inr (by decide), by decide⟩, by simp [absorb, MAXOPBLOCKS]⟩
      | cons b l =>
        have hmem : b ∈ s.hist.logged c := by simp [hl]
        refine ⟨b, hL.lh hm b (h.sub c hin b hmem), ?_⟩
        rw [absorb, if_pos (by simp), ← hl]
        exact hB.length_le (h.nodup c) (h.logged c)
    refine ⟨_, hB.write h hin hpc hroom passed_half, run_tooBig hr hpc (by simp [hlock]) hb ?_⟩
    simp only [mkfs]
    omega
  | succ n ih =>
    intro es s hr hB hbt hm hne hres hn
    have hC := control_run hr
    have h := books_run hr
    -- some active call has not used up its blocks
    obtain ⟨c, hin, hroom⟩ : ∃ c ∈ s.hist.active, 0 < MAXOPBLOCKS - (s.hist.logged c).length := by
      by_contra hall
      push Not at hall
      have hzero : ∑ c ∈ s.hist.active, (MAXOPBLOCKS - (s.hist.logged c).length) = 0 :=
        sum_eq_zero fun c hc => Nat.le_zero.1 (hall c hc)
      unfold State.reserved at hres
      omega
    have hpc := hbt.inOp hC hin
    obtain ⟨b, hb, hfresh⟩ := exists_fresh s.log.lh (by omega)
    have hbl : b ∉ s.hist.logged c := fun hmem => hfresh (h.sub c hin b hmem)
    have hlen : (absorb (s.hist.logged c) b).length ≤ MAXOPBLOCKS := by
      rw [absorb, if_neg hbl, List.length_append, List.length_singleton]; omega
    have hr' := run_write hr hpc (by simp [hbt.unlocked hC]) hb (by omega)
      (by simp only [mkfs]; omega)
    have hlh : (s.write c b).log.lh.length = s.log.lh.length + 1 := by
      show (absorb s.log.lh b).length = _
      rw [absorb, if_neg hfresh]; simp
    obtain ⟨fs, hB', hf⟩ := ih _ _ hr' (hB.write h hin hpc hlen passed_write) (write_between hbt) hm
      ⟨c, hin⟩ (by rw [write_reserved hin hfresh hbl (by omega)]; exact hres) (by rw [hlh]; omega)
    rw [List.append_assoc] at hB' hf
    exact ⟨_, hB', hf⟩

end Sharp

/-- **Log admission.** With the log area `mkfs` lays out and calls of at most
`MAXOPBLOCKS` distinct blocks, no run panics with "too big a transaction" in which every
`begin_op` leaves the reservation within the margin; and every other `begin_op` of a
state with no call inside `log_write` can be continued to that panic. -/
theorem logWrite_never_tooBig (d : ℕ → Block) :
    (∀ es, Bounded es → (machine mkfs).Guarded (Admitted mkfs) (init d) es →
      (machine mkfs).run (init d) es ≠ some (.error .tooBig)) ∧
    ∀ es c s s', Bounded es → (machine mkfs).run (init d) es = some (.ok s) → s.Between →
      step mkfs s (.begin c) = some (.ok s') → ¬ Admitted mkfs s (.begin c) →
      ∃ fs, Bounded (es ++ .begin c :: fs) ∧
        (machine mkfs).run (init d) (es ++ .begin c :: fs) = some (.error .tooBig) := by
  refine ⟨fun es hB hG => no_tooBig rfl hB hG, ?_⟩
  intro es c s s' hB hr hbt hs hadm
  have hr' := (Machine.run_snoc (M := machine mkfs) es (.begin c) (init d) _).2 ⟨s, hr, hs⟩
  have hres := reserved_begin (books_run hr) hs
  obtain ⟨⟨hm, -⟩, rfl⟩ := step_begin.1 hs
  have hB' : Bounded (es ++ [.begin c]) := by
    intro x; rw [passed_snoc]; simpa [passed] using hB x
  have hbt' : (s.beginOp c).Between := by
    intro x y hx
    by_cases hxc : x = c
    · subst hxc; simp [State.beginOp, Pc.Holds] at hx
    · exact hbt x y (by simpa [State.beginOp, Function.update_of_ne hxc] using hx)
  obtain ⟨fs, hBf, hf⟩ := exists_tooBig _ _ _ hr' hB' hbt' hm ⟨c, mem_insert_self c _⟩ (by
    simp only [Admitted, mkfs] at hadm
    omega) rfl
  rw [List.append_assoc] at hBf hf
  exact ⟨fs, hBf, hf⟩

/-- Two calls that log ten distinct blocks each. -/
def twoFullCalls : List Event :=
  [.recover, .recover, .begin ⟨0, 0⟩, .begin ⟨0, 1⟩] ++ logs ⟨0, 0⟩ 32 10 ++ logs ⟨0, 1⟩ 42 10

theorem bounded_twoFullCalls : Bounded twoFullCalls := by
  intro c
  simp only [twoFullCalls, passed_append, passed_logs]
  by_cases h0 : c = ⟨0, 0⟩
  · subst h0; decide
  · by_cases h1 : c = ⟨0, 1⟩
    · subst h1; decide
    · simp [passed, h0, h1]

/-- Two calls are within the margin, a third one is not. -/
theorem logWrite_never_tooBig_two_calls :
    (machine mkfs).reaches (fun s => s.log.lh.length = 20) (init fun _ _ => 0) twoFullCalls = true ∧
    (machine mkfs).run (init fun _ _ => 0) twoFullCalls ≠ some (.error .tooBig) ∧
    ∃ fs, Bounded ([.recover, .recover, .begin ⟨0, 0⟩, .begin ⟨0, 1⟩] ++ .begin ⟨0, 2⟩ :: fs) ∧
      (machine mkfs).run (init fun _ _ => 0)
        ([.recover, .recover, .begin ⟨0, 0⟩, .begin ⟨0, 1⟩] ++ .begin ⟨0, 2⟩ :: fs) =
          some (.error .tooBig) := by
  have hB : Bounded [.recover, .recover, .begin ⟨0, 0⟩, .begin ⟨0, 1⟩] := by intro c; simp [passed]
  refine ⟨by decide +kernel, ?_, ?_⟩
  · exact (logWrite_never_tooBig _).1 _ bounded_twoFullCalls (Machine.guarded_of_check (by decide +kernel))
  · refine (logWrite_never_tooBig _).2 _ ⟨0, 2⟩ _ _ hB rfl ?_ rfl ?_
    · intro c b
      show ¬ Pc.Holds b
        (Function.update (Function.update (fun _ => Pc.idle) ⟨0, 0⟩ Pc.inOp) ⟨0, 1⟩ Pc.inOp c)
      simp only [Function.update_apply]
      split_ifs <;> simp [Pc.Holds]
    · decide

end Xv6.Log
