import Xv6.Log.Control
import Xv6.Log.Disk

/-!
# Crash atomicity of the log

Whenever a boot is over and nothing commits, the home blocks on the disk are the cache
contents at the last commit whose header write reached the disk; these are the writes
of the durable calls, all of them and no others (`crash_atomic`).

* `Logging`, `Installing`: disk, log and cache on the two sides of the commit point.
* `Story`: the writes since the last commit point are what the cache has and the
  committed image has not.
* `consistent_step`: every event keeps them; `consistent_run`.
* `recover_ends`: `recover_from_log` comes to an end.
-/

namespace Xv6.Log

variable {g : Geometry} {s s' : State} {d : ℕ → Block}

/-- The block recorded by `log_write` still fits the log. -/
def NoOverflow (g : Geometry) (s : State) : Event → Prop
  | .append _ b => (absorb s.log.lh b).length ≤ LOGSIZE ∧ (absorb s.log.lh b).length < g.size
  | _ => True

instance (g : Geometry) (s : State) (e : Event) : Decidable (NoOverflow g s e) := by
  unfold NoOverflow; rcases e with ⟨⟩ <;> infer_instance

/-- The image after the writes `ws` over the image `img`. -/
def replay (img : ℕ → Block) (ws : List (Call × ℕ × Block)) : ℕ → Block :=
  ws.foldl (fun im w => Function.update im w.2.1 w.2.2) img

/-- The writes of the durable calls. -/
def History.kept (h : History) : List (Call × ℕ × Block) := h.writes.filter fun w => h.durable w.1

theorem replay_append (img : ℕ → Block) (ws ws' : List (Call × ℕ × Block)) :
    replay img (ws ++ ws') = replay (replay img ws) ws' := List.foldl_append

theorem replay_congr {b : ℕ} (ws : List (Call × ℕ × Block)) : ∀ {img img' : ℕ → Block},
    img b = img' b → replay img ws b = replay img' ws b := by
  induction ws with
  | nil => intro img img' h; exact h
  | cons w ws ih =>
    intro img img' h
    refine ih ?_
    by_cases hb : b = w.2.1
    · subst hb; simp
    · simpa [Function.update_of_ne hb] using h

/-! ## The cache -/

/-- A buffer that is neither dirty nor held has the data of the disk. -/
def Clean (s : State) : Prop := ∀ b, s.dirty b = false → b ∉ s.locked → s.view b = s.disk b

theorem Clean.fetch (h : Clean s) (b : ℕ) : Clean (s.fetch b) := by
  intro x hx hl
  rw [fetch_dirty] at hx
  rw [fetch_locked] at hl
  rw [fetch_view, fetch_disk]
  exact h x hx hl

theorem bwrite_disk (s : State) (b : ℕ) (v : Block) :
    (s.bwrite b v).disk = Function.update s.disk b v := rfl

theorem Clean.bwrite (h : Clean s) (b : ℕ) (v : Block) : Clean (s.bwrite b v) := by
  intro x hx hl
  rw [bwrite_dirty] at hx
  rw [bwrite_view, bwrite_disk]
  by_cases hxb : x = b
  · subst hxb; simp
  · rw [if_neg hxb] at hx ⊢
    rw [Function.update_of_ne hxb]
    exact h x hx hl

/-! ## The two sides of the commit point -/

/-- Nothing of the current transaction counts yet; `t` of its blocks are in the log. -/
structure Logging (g : Geometry) (s : State) (t : ℕ) : Prop where
  onDisk : OnDisk g s.disk s.hist.committed []
  copied : ∀ i < t, ∀ h : i < s.log.lh.length, s.disk (g.start + i + 1) = s.view s.log.lh[i]
  pinned : ∀ b, s.dirty b = true → b ∈ s.log.lh
  room : s.log.lh.length ≤ LOGSIZE ∧ s.log.lh.length < g.size

/-- The transaction counts; `t` of its blocks are installed. -/
structure Installing (g : Geometry) (s : State) (t : ℕ) : Prop where
  onDisk : OnDisk g s.disk s.hist.committed s.log.lh
  installed : ∀ i < t, ∀ h : i < s.log.lh.length, s.disk s.log.lh[i] = s.hist.committed s.log.lh[i]
  pinned : ∀ b, s.dirty b = true → b ∈ s.log.lh.drop t

theorem Logging.congr {t : ℕ} (h : Logging g s t) (hdisk : s'.disk = s.disk) (hview : s'.view = s.view)
    (hdirty : ∀ b, s'.dirty b = true → s.dirty b = true) (hlh : s'.log.lh = s.log.lh)
    (hcommitted : s'.hist.committed = s.hist.committed) : Logging g s' t := by
  refine ⟨by rw [hdisk, hcommitted]; exact h.onDisk, ?_, ?_, by rw [hlh]; exact h.room⟩
  · simp only [hlh, hdisk, hview]; exact h.copied
  · intro b hb; rw [hlh]; exact h.pinned b (hdirty b hb)

theorem Installing.congr {t : ℕ} (h : Installing g s t) (hdisk : s'.disk = s.disk)
    (hdirty : ∀ b, s'.dirty b = true → s.dirty b = true) (hlh : s'.log.lh = s.log.lh)
    (hcommitted : s'.hist.committed = s.hist.committed) : Installing g s' t := by
  refine ⟨by rw [hdisk, hcommitted, hlh]; exact h.onDisk, ?_, ?_⟩
  · simp only [hlh, hdisk, hcommitted]; exact h.installed
  · intro b hb; rw [hlh]; exact h.pinned b (hdirty b hb)

/-- One pass of `write_log`. -/
theorem Logging.writeLog {t : ℕ} (h : Logging g s t) (hn : ∀ b ∈ s.log.lh, g.Home b)
    (ht : t < s.log.lh.length) : Logging g (s.writeLog g t s.log.lh[t]) (t + 1) := by
  have hsize : t + 1 < g.size := by have := h.room.2; omega
  have hview : ∀ b ∈ s.log.lh, (s.writeLog g t s.log.lh[t]).view b = s.view b := by
    intro b hb
    rw [State.writeLog, bwrite_view, if_neg ((hn b hb).ne_copy hsize), fetch_view]
  refine ⟨?_, ?_, ?_, ?_⟩
  · simp only [State.writeLog, bwrite_disk, fetch_disk, bwrite_hist, fetch_hist]
    exact h.onDisk.writeLog hsize
  · intro i hi hlen
    have hlen' : i < s.log.lh.length := by simpa [State.writeLog] using hlen
    have hlh : (s.writeLog g t s.log.lh[t]).log.lh[i] = s.log.lh[i] := by simp [State.writeLog]
    rw [hlh, hview _ (List.getElem_mem hlen')]
    simp only [State.writeLog, bwrite_disk, fetch_disk]
    by_cases hit : i = t
    · subst hit; simp
    · rw [Function.update_of_ne (by omega)]
      exact h.copied i (by omega) hlen'
  · intro b hb
    rw [State.writeLog, bwrite_dirty, fetch_dirty] at hb
    simp only [State.writeLog, bwrite_log, fetch_log]
    split at hb
    · cases hb
    · exact h.pinned b hb
  · simpa [State.writeLog] using h.room

/-- One pass of `install_trans`: what it copies is what was committed. -/
theorem Installing.view_copy {t : ℕ} (h : Installing g s t) (hc : Clean s) (hl : s.locked = [])
    (ht : t < s.log.lh.length) : s.view (g.start + t + 1) = s.hist.committed s.log.lh[t] := by
  have hsize : t + 1 < g.size := by have := h.onDisk.length; omega
  rw [hc _ ?_ (by simp [hl])]
  · exact h.onDisk.copy t ht
  · by_contra hd
    have hmem := h.pinned _ (by simpa using hd)
    exact (h.onDisk.home _ (List.mem_of_mem_drop hmem)).ne_copy hsize rfl

theorem Installing.installTrans {t : ℕ} (h : Installing g s t) (hc : Clean s) (hl : s.locked = [])
    (ht : t < s.log.lh.length) : Installing g (s.installTrans g t s.log.lh[t]) (t + 1) := by
  have hv := h.view_copy hc hl ht
  refine ⟨?_, ?_, ?_⟩
  · simp only [State.installTrans, bwrite_disk, fetch_disk, bwrite_hist, fetch_hist, bwrite_log, fetch_log]
    exact h.onDisk.install (List.getElem_mem ht) _
  · intro i hi hlen
    simp only [State.installTrans, bwrite_log, fetch_log] at hlen
    simp only [State.installTrans, bwrite_disk, fetch_disk, bwrite_hist, fetch_hist, bwrite_log, fetch_log, hv]
    by_cases heq : s.log.lh[i] = s.log.lh[t]
    · rw [heq, Function.update_self]
    · rw [Function.update_of_ne heq]
      refine h.installed i ?_ hlen
      by_contra hge
      exact heq (by simp [show i = t by omega])
  · intro b hb
    rw [State.installTrans, bwrite_dirty, fetch_dirty] at hb
    simp only [State.installTrans, bwrite_log, fetch_log]
    split at hb
    · cases hb
    · rename_i hne
      have hmem := h.pinned b hb
      rw [List.drop_eq_getElem_cons ht] at hmem
      exact (List.mem_cons.1 hmem).resolve_left hne

/-- After the last block the header is cleared. -/
theorem Installing.clear {t : ℕ} (h : Installing g s t) (ht : s.log.lh.length ≤ t) :
    Logging g ({ s with log := { s.log with lh := [] } }.writeHead g) 0 := by
  have hall : ∀ b ∈ s.log.lh, s.disk b = s.hist.committed b := by
    intro b hb
    obtain ⟨i, hi, rfl⟩ := List.getElem_of_mem hb
    exact h.installed i (by omega) hi
  refine ⟨h.onDisk.clear hall _, by simp, ?_, by simp [State.writeHead, g.pos]⟩
  intro b hb
  rw [State.writeHead, bwrite_dirty] at hb
  split at hb
  · cases hb
  · have hmem := h.pinned b hb
    rw [List.drop_eq_nil_of_le ht] at hmem
    simp at hmem

/-- Where a commit is says on which side of the commit point the disk is. -/
def Phase (g : Geometry) (s : State) : Commit → Prop
  | .writeLog t => Logging g s t
  | .install t => Installing g s t
  | .finish => Logging g s 0 ∧ s.log.lh = []

theorem Phase.congr {k : Commit} (h : Phase g s k) (hdisk : s'.disk = s.disk) (hview : s'.view = s.view)
    (hdirty : ∀ b, s'.dirty b = true → s.dirty b = true) (hlh : s'.log.lh = s.log.lh)
    (hcommitted : s'.hist.committed = s.hist.committed) : Phase g s' k := by
  cases k with
  | writeLog t => exact Logging.congr h hdisk hview hdirty hlh hcommitted
  | install t => exact Installing.congr h hdisk hdirty hlh hcommitted
  | finish => exact ⟨h.1.congr hdisk hview hdirty hlh hcommitted, by rw [hlh]; exact h.2⟩

/-- What disk, log and cache are, by where the boot or the commit is. -/
def Stage (g : Geometry) (s : State) : Prop :=
  match s.mode with
  | .readHead => (∃ bl, OnDisk g s.disk s.hist.committed bl) ∧ ∀ b, s.dirty b = false
  | .install t => Installing g s t
  | .running =>
    (s.log.committing = false → Logging g s 0) ∧ ∀ c k, s.pc c = .committing k → Phase g s k

/-- In every state recovery would end in the committed image. -/
theorem Stage.onDisk (h : Stage g s) (hC : Control s) : ∃ bl, OnDisk g s.disk s.hist.committed bl := by
  unfold Stage at h
  cases hm : s.mode with
  | readHead => rw [hm] at h; exact h.1
  | install t => rw [hm] at h; exact ⟨_, h.onDisk⟩
  | running =>
    rw [hm] at h
    cases hcom : s.log.committing with
    | false => exact ⟨_, (h.1 hcom).onDisk⟩
    | true =>
      obtain ⟨c, k, hk⟩ := hC.committing.1 hcom
      have hst := h.2 c k hk
      cases k with
      | writeLog t => exact ⟨_, Logging.onDisk hst⟩
      | install t => exact ⟨_, Installing.onDisk hst⟩
      | finish => exact ⟨_, hst.1.onDisk⟩

theorem Stage.logging (h : Stage g s) (hm : s.mode = .running) (hcom : s.log.committing = false) :
    Logging g s 0 := by
  unfold Stage at h; rw [hm] at h; exact h.1 hcom

theorem Stage.committing (h : Stage g s) (hC : Control s) {c : Call} {k : Commit}
    (hk : s.pc c = .committing k) : Phase g s k := by
  unfold Stage at h
  rw [hC.running (c := c) (by simp [hk])] at h
  exact h.2 c k hk

/-- The state of a running system in which nothing commits. -/
theorem Stage.of_logging (hm : s.mode = .running) (hcom : ∀ c k, s.pc c = .committing k → k = .writeLog 0)
    (h : Logging g s 0) : Stage g s := by
  unfold Stage
  rw [hm]
  refine ⟨fun _ => h, fun c k hk => ?_⟩
  rw [hcom c k hk]
  exact h

/-- An event that leaves disk, cache contents, block list and image alone, and starts a
commit only where none was under way. -/
theorem Stage.frame (h : Stage g s) (hdisk : s'.disk = s.disk) (hview : s'.view = s.view)
    (hdirty : ∀ b, s'.dirty b = true → s.dirty b = true) (hlh : s'.log.lh = s.log.lh)
    (hcommitted : s'.hist.committed = s.hist.committed) (hmode : s'.mode = s.mode)
    (hcom : s'.log.committing = false → s.log.committing = false)
    (hpc : ∀ c k, s'.pc c = .committing k →
      s.pc c = .committing k ∨ s.log.committing = false ∧ k = .writeLog 0) : Stage g s' := by
  unfold Stage at h ⊢
  rw [hmode]
  cases hm : s.mode with
  | readHead =>
    rw [hm] at h
    refine ⟨by rw [hdisk, hcommitted]; exact h.1, fun b => ?_⟩
    by_contra hb
    have := hdirty b (by simpa using hb)
    rw [h.2 b] at this
    cases this
  | install t => rw [hm] at h; exact h.congr hdisk hdirty hlh hcommitted
  | running =>
    rw [hm] at h
    refine ⟨fun hc => (h.1 (hcom hc)).congr hdisk hview hdirty hlh hcommitted, fun c k hk => ?_⟩
    rcases hpc c k hk with hk' | ⟨hc, rfl⟩
    · exact (h.2 c k hk').congr hdisk hview hdirty hlh hcommitted
    · exact (h.1 hc).congr hdisk hview hdirty hlh hcommitted

/-! ## The writes -/

/-- Past its `end_op`. -/
def Pc.Done : Pc → Prop
  | .committing _ | .returned => True
  | _ => False

/-- What the writes so far have to do with the committed image and with the cache. -/
structure Story (g : Geometry) (d : ℕ → Block) (s : State) : Prop where
  kept : ∀ b, g.Home b → s.hist.committed b = replay d s.hist.kept b
  split : ∃ old new, s.hist.writes = old ++ new ∧
    (∀ w ∈ old, s.hist.durable w.1 = true ∨ w.1.boot < s.boot) ∧
    (∀ w ∈ new, s.hist.durable w.1 = false ∧ s.pc w.1 ≠ .idle) ∧
    (s.mode = .running → ∀ b, g.Home b → s.view b = replay s.hist.committed new b)
  ended : ∀ c, s.hist.durable c = true → s.hist.ended c = true
  done : ∀ c, (s.pc c).Done → s.hist.ended c = true
  late : ∀ c, s.hist.durable c = true → c.boot < s.boot ∨ (s.pc c).Done
  acked : ∀ c, s.hist.acked c = true → s.hist.durable c = true
  past : ∀ c, (∃ t, s.pc c = .committing (.install t)) ∨ s.pc c = .committing .finish →
    ∀ x, s.pc x ≠ .idle → s.hist.durable x = true

/-- A call between `begin_op` and `end_op` is not durable. -/
theorem Story.not_durable (h : Story g d s) {c : Call} (hb : c.boot = s.boot)
    (hd : ¬ (s.pc c).Done) : s.hist.durable c = false := by
  by_contra hdur
  rcases h.late c (by simpa using hdur) with hlt | hdone
  · omega
  · exact hd hdone

/-- Past the commit point the cache is the committed image. -/
theorem Story.view_eq (h : Story g d s) (hm : s.mode = .running)
    (hall : ∀ x, s.pc x ≠ .idle → s.hist.durable x = true) {b : ℕ} (hb : g.Home b) :
    s.view b = s.hist.committed b := by
  obtain ⟨old, new, -, -, hnew, hview⟩ := h.split
  have hnil : new = [] := by
    rw [List.eq_nil_iff_forall_not_mem]
    intro w hw
    obtain ⟨hd, hpc⟩ := hnew w hw
    rw [hall _ hpc] at hd
    cases hd
  rw [hview hm b hb, hnil]
  rfl

/-- An event that changes no block and no call. -/
theorem Story.congr (h : Story g d s) (hhist : s'.hist = s.hist) (hpc : s'.pc = s.pc)
    (hboot : s'.boot = s.boot) (hview : s'.mode = .running → s.mode = .running ∧ s'.view = s.view) :
    Story g d s' := by
  obtain ⟨old, new, hw, hold, hnew, hv⟩ := h.split
  refine ⟨by rw [hhist]; exact h.kept, ⟨old, new, ?_⟩, by rw [hhist]; exact h.ended,
    by rw [hhist, hpc]; exact h.done, by rw [hhist, hpc, hboot]; exact h.late,
    by rw [hhist]; exact h.acked, by rw [hhist, hpc]; exact h.past⟩
  rw [hhist, hpc, hboot]
  refine ⟨hw, hold, hnew, fun hm => ?_⟩
  rw [(hview hm).2]
  exact hv (hview hm).1

/-- A call that is not past its `end_op` moves on. -/
theorem Story.move (h : Story g d s) {c : Call} {p : Pc} (hpc : s'.pc = Function.update s.pc c p)
    (hc : ¬ (s.pc c).Done) (hp : p ≠ .idle) (hdone : p.Done → s'.hist.ended c = true)
    (hearly : (∀ t, p ≠ .committing (.install t)) ∧ p ≠ .committing .finish)
    (hquiet : s.pc c ≠ .idle ∨ ∀ x k, s.pc x ≠ .committing k)
    (hwrites : s'.hist.writes = s.hist.writes) (hdurable : s'.hist.durable = s.hist.durable)
    (hcommitted : s'.hist.committed = s.hist.committed) (hacked : s'.hist.acked = s.hist.acked)
    (hended : ∀ x, s.hist.ended x = true → s'.hist.ended x = true) (hboot : s'.boot = s.boot)
    (hmode : s'.mode = s.mode) (hview : s'.view = s.view) : Story g d s' := by
  have hpcx : ∀ x, x ≠ c → s'.pc x = s.pc x := fun x hx => by rw [hpc, Function.update_of_ne hx]
  have hpcc : s'.pc c = p := by rw [hpc, Function.update_self]
  obtain ⟨old, new, hw, hold, hnew, hv⟩ := h.split
  refine ⟨?_, ⟨old, new, by rw [hwrites, hw], by rw [hdurable, hboot]; exact hold, ?_,
    by rw [hmode, hview, hcommitted]; exact hv⟩, ?_, ?_, ?_, by rw [hacked, hdurable]; exact h.acked, ?_⟩
  · rw [hcommitted, History.kept, hwrites, hdurable]; exact h.kept
  · intro w hwn
    rw [hdurable]
    refine ⟨(hnew w hwn).1, ?_⟩
    by_cases hx : w.1 = c
    · rw [hx, hpcc]; exact hp
    · rw [hpcx _ hx]; exact (hnew w hwn).2
  · intro x hx; rw [hdurable] at hx; exact hended x (h.ended x hx)
  · intro x hx
    by_cases hxc : x = c
    · subst hxc; rw [hpcc] at hx; exact hdone hx
    · rw [hpcx x hxc] at hx; exact hended x (h.done x hx)
  · intro x hx
    rw [hdurable] at hx
    rw [hboot]
    refine (h.late x hx).imp_right fun hd => ?_
    have hxc : x ≠ c := by rintro rfl; exact hc hd
    rw [hpcx x hxc]; exact hd
  · intro x hx y hy
    rw [hdurable]
    have hxc : x ≠ c := by
      rintro rfl
      rw [hpcc] at hx
      rcases hx with ⟨t, hx⟩ | hx
      · exact hearly.1 t hx
      · exact hearly.2 hx
    rw [hpcx x hxc] at hx
    refine h.past x hx y ?_
    by_cases hyc : y = c
    · subst hyc
      rcases hquiet with hq | hq
      · exact hq
      · rcases hx with ⟨t, hx⟩ | hx
        · exact absurd hx (hq x _)
        · exact absurd hx (hq x _)
    · rwa [hpcx y hyc] at hy

/-- **The commit point**: the writes that the image lacked are now part of it. -/
theorem Story.markDurable (h : Story g d s) (hC : Control s) {c : Call} {k m : Commit}
    (hk : s.pc c = .committing k) {img : ℕ → Block} (himg : ∀ b, g.Home b → img b = s.view b)
    (hpc : s'.pc = Function.update s.pc c (.committing m))
    (hhist : s'.hist = (s.markDurable img).hist) (hboot : s'.boot = s.boot)
    (hview : ∀ b, g.Home b → s'.view b = s.view b) : Story g d s' := by
  have hm : s.mode = .running := hC.running (c := c) (by simp [hk])
  have hact := hC.quiet (hC.committing.2 ⟨c, k, hk⟩)
  have hpcx : ∀ x, x ≠ c → s'.pc x = s.pc x := fun x hx => by rw [hpc, Function.update_of_ne hx]
  have hpcc : s'.pc c = .committing m := by rw [hpc, Function.update_self]
  have hdur : ∀ x, s'.hist.durable x = true ↔ s.hist.durable x = true ∨ s.pc x ≠ .idle := by
    intro x; rw [hhist]; simp [State.markDurable]
  -- a call that has begun has ended: no other call is active during a commit
  have hdone : ∀ x, s.pc x ≠ .idle → (s.pc x).Done := by
    intro x hx
    have hna : ¬ (s.pc x).Active := by rw [← hC.active, hact]; simp
    cases hp : s.pc x <;> simp_all [Pc.Done, Pc.Active]
  have hdone' : ∀ x, (s'.pc x).Done ↔ (s.pc x).Done := by
    intro x
    by_cases hxc : x = c
    · subst hxc; rw [hpcc, hk]; rfl
    · rw [hpcx x hxc]
  have hend : ∀ x, s'.hist.ended x = s.hist.ended x := by intro x; rw [hhist]; rfl
  obtain ⟨old, new, hw, hold, hnew, hv⟩ := h.split
  have hfold : ∀ w ∈ old, s'.hist.durable w.1 = s.hist.durable w.1 := by
    intro w hwo
    rw [Bool.eq_iff_iff, hdur]
    refine ⟨?_, .inl⟩
    rintro (hd | hp)
    · exact hd
    · refine (hold w hwo).resolve_right fun hlt => ?_
      rw [hC.boot _ hp] at hlt
      exact lt_irrefl _ hlt
  have hkept : s'.hist.kept = old.filter (fun w => s.hist.durable w.1) ++ new := by
    have hws : s'.hist.writes = old ++ new := by rw [hhist]; exact hw
    rw [History.kept, hws, List.filter_append, List.filter_congr hfold]
    congr 1
    rw [List.filter_eq_self]
    exact fun w hwn => (hdur _).2 (.inr (hnew w hwn).2)
  have hkept' : s.hist.kept = old.filter (fun w => s.hist.durable w.1) := by
    have hnil : new.filter (fun w => s.hist.durable w.1) = [] := by
      rw [List.filter_eq_nil_iff]
      intro w hwn
      simp [(hnew w hwn).1]
    rw [History.kept, hw, List.filter_append, hnil, List.append_nil]
  refine ⟨?_, ⟨old ++ new, [], ?_⟩, ?_, ?_, ?_, ?_, ?_⟩
  · intro b hb
    rw [hkept, replay_append, ← hkept', show s'.hist.committed = img by rw [hhist]; rfl, himg b hb,
      hv hm b hb]
    exact replay_congr new (h.kept b hb)
  · refine ⟨by rw [List.append_nil, hhist]; exact hw, ?_, by simp, fun _ b hb => ?_⟩
    · intro w hwm
      rw [hboot]
      rcases List.mem_append.1 hwm with hwo | hwn
      · rw [hfold w hwo]; exact hold w hwo
      · exact .inl ((hdur _).2 (.inr (hnew w hwn).2))
    · rw [hview b hb, ← himg b hb, hhist]; rfl
  · intro x hx
    rw [hend]
    rcases (hdur x).1 hx with hx | hx
    · exact h.ended x hx
    · exact h.done x (hdone x hx)
  · intro x hx; rw [hend]; exact h.done x ((hdone' x).1 hx)
  · intro x hx
    rw [hboot, hdone']
    rcases (hdur x).1 hx with hx | hx
    · exact h.late x hx
    · exact .inr (hdone x hx)
  · intro x hx
    rw [hdur]
    exact .inl (h.acked x (by rw [hhist] at hx; exact hx))
  · intro x _ y hy
    refine (hdur y).2 (.inr ?_)
    by_cases hyc : y = c
    · subst hyc; simp [hk]
    · rwa [hpcx y hyc] at hy

/-! ## Every event keeps them -/

/-- The relation between the disk, the log, the cache and the calls. -/
structure Consistent (g : Geometry) (d : ℕ → Block) (s : State) : Prop where
  control : Control s
  logged : Logged g s
  clean : Clean s
  stage : Stage g s
  story : Story g d s

theorem Control.not_committing (h : Control s) {c : Call} (hc : (s.pc c).Active) :
    s.log.committing = false := by
  by_contra hcom
  have hact := h.quiet (by simpa using hcom)
  have := (h.active c).2 hc
  rw [hact] at this
  simp at this

theorem Control.no_commit (h : Control s) (hcom : s.log.committing = false) (x : Call) (k : Commit) :
    s.pc x ≠ .committing k := by
  intro hk
  rw [h.committing.2 ⟨x, k, hk⟩] at hcom
  cases hcom

theorem consistent_begin (h : Consistent g d s) {c : Call}
    (hs : step g s (.begin c) = some (.ok s')) : Stage g s' ∧ Story g d s' := by
  obtain ⟨⟨-, -, hidle, hcom, -⟩, rfl⟩ := step_begin.1 hs
  refine ⟨h.stage.frame rfl rfl (fun _ => id) rfl rfl rfl id ?_,
    h.story.move (c := c) rfl (by simp [hidle, Pc.Done]) (by simp) (by simp [Pc.Done]) (by simp)
      (.inr (h.control.no_commit hcom)) rfl rfl rfl rfl (fun _ => id) rfl rfl rfl⟩
  intro x k hx
  by_cases hxc : x = c
  · subst hxc; simp [State.beginOp] at hx
  · left; simpa [State.beginOp, Function.update_of_ne hxc] using hx

theorem consistent_modify (h : Consistent g d s) {c : Call} {b : ℕ} {v : Block}
    (hs : step g s (.modify c b v) = some (.ok s')) : Clean s' ∧ Stage g s' ∧ Story g d s' := by
  obtain ⟨⟨hpc, hfree, hhome, -⟩, rfl⟩ := step_modify.1 hs
  have hact : (s.pc c).Active := by rw [hpc]; trivial
  have hcom := h.control.not_committing hact
  have hm := h.control.running (c := c) (by simp [hpc])
  have hview : ∀ x, (s.modify c b v).view x = if x = b then v else s.view x := by
    intro x; by_cases hx : x = b <;> simp [State.modify, State.view, hx]
  have hdirty : ∀ x, (s.modify c b v).dirty x = s.dirty x := by
    intro x; by_cases hx : x = b <;> simp [State.modify, State.dirty, hx]
  have hpcx : ∀ x, x ≠ c → (s.modify c b v).pc x = s.pc x := by
    intro x hx; simp [State.modify, Function.update_of_ne hx]
  have hpcc : (s.modify c b v).pc c = .modified b := by simp [State.modify]
  have hnd : s.hist.durable c = false :=
    h.story.not_durable (h.control.boot c (by simp [hpc])) (by simp [hpc, Pc.Done])
  refine ⟨?_, ?_, ?_⟩
  · intro x hx hl
    obtain ⟨hxb, hxl⟩ : x ≠ b ∧ x ∉ s.locked := by simpa [State.modify] using hl
    rw [hdirty] at hx
    rw [hview, if_neg hxb]
    exact h.clean x hx hxl
  · refine Stage.of_logging hm ?_ ?_
    · intro x k hx
      by_cases hxc : x = c
      · subst hxc; rw [hpcc] at hx; cases hx
      · rw [hpcx x hxc] at hx; exact absurd hx (h.control.no_commit hcom x k)
    · have hl := h.stage.logging hm hcom
      exact ⟨hl.onDisk, by simp, fun x hx => hl.pinned x (by rwa [hdirty] at hx), hl.room⟩
  · obtain ⟨old, new, hw, hold, hnew, hv⟩ := h.story.split
    have hwr : (s.modify c b v).hist.writes = s.hist.writes ++ [(c, b, v)] := rfl
    refine ⟨?_, ⟨old, new ++ [(c, b, v)], by rw [hwr, hw, List.append_assoc], hold, ?_, ?_⟩,
      h.story.ended, ?_, ?_, h.story.acked, ?_⟩
    · intro x hx
      have hkept : (s.modify c b v).hist.kept = s.hist.kept := by
        rw [History.kept, hwr, List.filter_append]
        simp [State.modify, hnd, History.kept]
      rw [hkept]
      exact h.story.kept x hx
    · intro w hwm
      rcases List.mem_append.1 hwm with hwn | hwl
      · refine ⟨(hnew w hwn).1, ?_⟩
        by_cases hx : w.1 = c
        · rw [hx, hpcc]; simp
        · rw [hpcx _ hx]; exact (hnew w hwn).2
      · rw [List.mem_singleton.1 hwl]
        exact ⟨hnd, by rw [hpcc]; simp⟩
    · intro _ x hx
      rw [hview, replay_append]
      by_cases hxb : x = b
      · subst hxb; simp [replay]
      · rw [if_neg hxb, hv hm x hx]
        simp [replay, Function.update_of_ne hxb, State.modify]
    · intro x hx
      by_cases hxc : x = c
      · subst hxc; rw [hpcc] at hx; exact hx.elim
      · rw [hpcx x hxc] at hx; exact h.story.done x hx
    · intro x hx
      refine (h.story.late x hx).imp_right fun hd => ?_
      have hxc : x ≠ c := by rintro rfl; rw [hpc] at hd; exact hd
      rw [hpcx x hxc]; exact hd
    · intro x hx
      have hxc : x ≠ c := by rintro rfl; rw [hpcc] at hx; simp at hx
      rw [hpcx x hxc] at hx
      rcases hx with ⟨t, hx⟩ | hx
      · exact absurd hx (h.control.no_commit hcom x _)
      · exact absurd hx (h.control.no_commit hcom x _)

theorem consistent_logWrite (h : Consistent g d s) {c : Call} {b : ℕ}
    (hs : step g s (.logWrite c b) = some (.ok s')) : Stage g s' ∧ Story g d s' := by
  obtain ⟨⟨hpc, -⟩, rfl⟩ := step_logWrite.1 hs
  refine ⟨h.stage.frame rfl rfl (fun _ => id) rfl rfl rfl id ?_,
    h.story.move (c := c) rfl (by simp [hpc, Pc.Done]) (by simp) (by simp [Pc.Done]) (by simp)
      (.inl (by simp [hpc])) rfl rfl rfl rfl (fun _ => id) rfl rfl rfl⟩
  intro x k hx
  by_cases hxc : x = c
  · subst hxc; simp [State.setPc] at hx
  · left; simpa [State.setPc, Function.update_of_ne hxc] using hx

theorem consistent_append (h : Consistent g d s) {c : Call} {b : ℕ} (hG : NoOverflow g s (.append c b))
    (hs : step g s (.append c b) = some (.ok s')) : Clean s' ∧ Stage g s' ∧ Story g d s' := by
  obtain ⟨hpc, rfl⟩ := step_append.1 hs
  have hact : (s.pc c).Active := by rw [hpc]; trivial
  have hcom := h.control.not_committing hact
  have hm := h.control.running (c := c) (by simp [hpc])
  have hview : (s.append c b).view = s.view := by
    funext x; by_cases hx : x = b <;> simp [State.append, State.view, hx]
  have hdirty : ∀ x, (s.append c b).dirty x = if x = b then true else s.dirty x := by
    intro x; by_cases hx : x = b <;> simp [State.append, State.dirty, hx]
  refine ⟨?_, ?_, h.story.move (c := c) rfl (by simp [hpc, Pc.Done]) (by simp) (by simp [Pc.Done])
    (by simp) (.inl (by simp [hpc])) rfl rfl rfl rfl (fun _ => id) rfl rfl hview⟩
  · intro x hx hl
    rw [hdirty] at hx
    by_cases hxb : x = b
    · rw [if_pos hxb] at hx; cases hx
    · rw [if_neg hxb] at hx
      rw [hview]
      exact h.clean x hx fun hmem => hl ((List.mem_erase_of_ne hxb).2 hmem)
  · refine Stage.of_logging hm ?_ ?_
    · intro x k hx
      by_cases hxc : x = c
      · subst hxc; simp [State.append] at hx
      · have hx' : s.pc x = .committing k := by
          simpa [State.append, Function.update_of_ne hxc] using hx
        exact absurd hx' (h.control.no_commit hcom x k)
    · have hl := h.stage.logging hm hcom
      refine ⟨hl.onDisk, by simp, fun x hx => mem_absorb.2 ?_, hG⟩
      rw [hdirty] at hx
      split at hx
      · rename_i hxb; exact .inr hxb
      · exact .inl (hl.pinned x hx)

theorem consistent_endOp (h : Consistent g d s) {c : Call}
    (hs : step g s (.endOp c) = some (.ok s')) : Stage g s' ∧ Story g d s' := by
  obtain ⟨⟨hpc, hcom⟩, rfl⟩ := step_endOp.1 hs
  refine ⟨h.stage.frame rfl rfl (fun _ => id) rfl rfl rfl (fun _ => hcom) ?_,
    h.story.move (c := c) rfl (by simp [hpc, Pc.Done]) (by split <;> simp)
      (fun _ => by simp [State.endOp]) (by split <;> simp) (.inl (by simp [hpc])) rfl rfl rfl rfl
      ?_ rfl rfl rfl⟩
  · intro x k hx
    by_cases hxc : x = c
    · subst hxc
      simp only [State.endOp, Function.update_self] at hx
      split at hx
      · right; exact ⟨hcom, by simpa using hx.symm⟩
      · cases hx
    · left; simpa [State.endOp, Function.update_of_ne hxc] using hx
  · intro x hx
    by_cases hxc : x = c
    · subst hxc; simp [State.endOp]
    · simpa [State.endOp, Function.update_of_ne hxc] using hx

/-- The committing call moves on without passing the commit point. -/
theorem Story.advance (h : Story g d s) {c : Call} {k m : Commit} (hk : s.pc c = .committing k)
    (hpc : s'.pc = Function.update s.pc c (.committing m)) (hhist : s'.hist = s.hist)
    (hboot : s'.boot = s.boot) (hmode : s'.mode = s.mode) (hview : ∀ b, g.Home b → s'.view b = s.view b)
    (hk' : (∃ t, k = .install t) ∨ ∃ t, m = .writeLog t) : Story g d s' := by
  have hpcx : ∀ x, x ≠ c → s'.pc x = s.pc x := fun x hx => by rw [hpc, Function.update_of_ne hx]
  have hpcc : s'.pc c = .committing m := by rw [hpc, Function.update_self]
  have hdone : ∀ x, (s'.pc x).Done ↔ (s.pc x).Done := by
    intro x
    by_cases hxc : x = c
    · subst hxc; rw [hpcc, hk]; rfl
    · rw [hpcx x hxc]
  have hidle : ∀ x, s'.pc x ≠ .idle ↔ s.pc x ≠ .idle := by
    intro x
    by_cases hxc : x = c
    · subst hxc; simp [hpcc, hk]
    · rw [hpcx x hxc]
  obtain ⟨old, new, hw, hold, hnew, hv⟩ := h.split
  refine ⟨by rw [hhist]; exact h.kept, ⟨old, new, ?_⟩, by rw [hhist]; exact h.ended, ?_, ?_,
    by rw [hhist]; exact h.acked, ?_⟩
  · rw [hhist, hboot, hmode]
    refine ⟨hw, hold, fun w hwn => ⟨(hnew w hwn).1, (hidle _).2 (hnew w hwn).2⟩, fun hm b hb => ?_⟩
    rw [hview b hb]
    exact hv hm b hb
  · intro x hx; rw [hhist]; exact h.done x ((hdone x).1 hx)
  · intro x hx
    rw [hhist] at hx
    rw [hboot, hdone]
    exact h.late x hx
  · intro x hx y hy
    rw [hhist]
    refine h.past x ?_ y ((hidle y).1 hy)
    by_cases hxc : x = c
    · subst hxc
      rcases hk' with ⟨t, rfl⟩ | ⟨t, rfl⟩
      · exact .inl ⟨t, hk⟩
      · rw [hpcc] at hx; simp at hx
    · rwa [hpcx x hxc] at hx

theorem Story.finish (h : Story g d s) {c : Call} (hk : s.pc c = .committing .finish) :
    Story g d (s.commit g c .finish) := by
  have hdur : s.hist.durable c = true := h.past c (.inr hk) c (by simp [hk])
  have hpcx : ∀ x, x ≠ c → (s.commit g c .finish).pc x = s.pc x := by
    intro x hx; simp [State.commit, Function.update_of_ne hx]
  have hpcc : (s.commit g c .finish).pc c = .returned := by simp [State.commit]
  have hdone : ∀ x, ((s.commit g c .finish).pc x).Done ↔ (s.pc x).Done := by
    intro x
    by_cases hxc : x = c
    · subst hxc; rw [hpcc, hk]; rfl
    · rw [hpcx x hxc]
  have hidle : ∀ x, (s.commit g c .finish).pc x ≠ .idle ↔ s.pc x ≠ .idle := by
    intro x
    by_cases hxc : x = c
    · subst hxc; simp [hpcc, hk]
    · rw [hpcx x hxc]
  obtain ⟨old, new, hw, hold, hnew, hv⟩ := h.split
  refine ⟨h.kept, ⟨old, new, hw, hold, fun w hwn => ⟨(hnew w hwn).1, (hidle _).2 (hnew w hwn).2⟩, hv⟩,
    h.ended, fun x hx => h.done x ((hdone x).1 hx), ?_, ?_, ?_⟩
  · intro x hx
    rw [hdone]
    exact h.late x hx
  · intro x hx
    by_cases hxc : x = c
    · subst hxc; exact hdur
    · exact h.acked x (by simpa [State.commit, Function.update_of_ne hxc] using hx)
  · intro x hx y hy
    have hxc : x ≠ c := by rintro rfl; rw [hpcc] at hx; simp at hx
    rw [hpcx x hxc] at hx
    exact h.past x hx y ((hidle y).1 hy)

/-- The one committing call decides the stage. -/
theorem Stage.of_phase (hC : Control s) {c : Call} {k m : Commit} (hk : s.pc c = .committing k)
    (hpc : s'.pc = Function.update s.pc c (.committing m)) (hmode : s'.mode = s.mode)
    (hcom : s'.log.committing = s.log.committing) (hp : Phase g s' m) : Stage g s' := by
  have htrue : s.log.committing = true := hC.committing.2 ⟨c, k, hk⟩
  unfold Stage
  rw [hmode, hC.running (c := c) (by simp [hk])]
  refine ⟨fun hf => ?_, fun x l hx => ?_⟩
  · rw [hcom, htrue] at hf; cases hf
  · by_cases hxc : x = c
    · subst hxc
      rw [hpc, Function.update_self] at hx
      cases hx
      exact hp
    · rw [hpc, Function.update_of_ne hxc] at hx
      exact absurd (hC.unique x c l k hx hk) hxc

theorem Clean.congr (h : Clean s) (hdisk : s'.disk = s.disk) (hbuf : s'.buf = s.buf)
    (hlock : s'.locked = s.locked) : Clean s' := by
  intro b hd hl
  have hdirty : s'.dirty b = s.dirty b := by unfold State.dirty; rw [hbuf]
  have hview : s'.view b = s.view b := by unfold State.view; rw [hbuf, hdisk]
  rw [hview, hdisk]
  exact h b (hdirty ▸ hd) (hlock ▸ hl)

theorem consistent_writeLog (h : Consistent g d s) {c : Call} {t : ℕ}
    (hk : s.pc c = .committing (.writeLog t)) : Clean (s.commit g c (.writeLog t)) ∧
      Stage g (s.commit g c (.writeLog t)) ∧ Story g d (s.commit g c (.writeLog t)) := by
  have hm := h.control.running (c := c) (by simp [hk])
  have hlock := h.control.unlocked (h.control.committing.2 ⟨c, _, hk⟩)
  have hL : Logging g s t := h.stage.committing h.control hk
  have hroom := hL.room
  -- an unlogged home block is neither dirty nor held
  have hrest : ∀ b, b ∉ s.log.lh → s.view b = s.disk b := by
    intro b hb
    refine h.clean b ?_ (by simp [hlock])
    by_contra hd
    exact hb (hL.pinned b (by simpa using hd))
  simp only [State.commit]
  split
  · rename_i ht
    have hview : ∀ b, g.Home b → (s.writeLog g t s.log.lh[t]).view b = s.view b := by
      intro b hb
      rw [State.writeLog, bwrite_view, if_neg (hb.ne_copy (by omega)), fetch_view]
    refine ⟨(h.clean.fetch _).bwrite _ _, ?_, ?_⟩
    · have hL' := hL.writeLog (fun b hb => (h.logged.lh hm b hb).1) ht
      refine Stage.of_phase h.control hk (m := .writeLog (t + 1)) ?_ ?_ ?_
        (Logging.congr hL' rfl rfl (fun _ => id) rfl rfl) <;> simp [State.setPc, State.writeLog]
    · refine h.story.advance hk (m := .writeLog (t + 1)) ?_ ?_ ?_ ?_ hview (.inr ⟨t + 1, rfl⟩) <;>
        simp [State.setPc, State.writeLog]
  · split
    · rename_i ht hlen
      have hnil : s.log.lh = [] := List.length_eq_zero_iff.1 hlen
      refine ⟨h.clean.congr rfl rfl rfl, ?_, ?_⟩
      · refine Stage.of_phase h.control hk (m := .finish) rfl rfl rfl ⟨?_, hnil⟩
        exact Logging.congr (s := s) ⟨hL.onDisk, by simp, hL.pinned, hL.room⟩ rfl rfl (fun _ => id)
          rfl rfl
      · refine h.story.markDurable h.control hk (m := .finish) ?_ rfl rfl rfl fun b _ => rfl
        intro b hb
        rw [hrest b (by simp [hnil]), hL.onDisk.eq_img hb]
    · rename_i ht hlen
      have hcl : Clean (s.markDurable s.view) := h.clean.congr rfl rfl rfl
      have hlen' : s.log.lh.length < 2 ^ 32 := by
        have : s.log.lh.length ≤ 30 := hroom.1
        omega
      have hcopy : ∀ i (hi : i < s.log.lh.length), s.disk (g.start + i + 1) = s.view s.log.lh[i] :=
        fun i hi => hL.copied i (by omega) hi
      refine ⟨hcl.bwrite _ _, ?_, ?_⟩
      · refine Stage.of_phase h.control hk (m := .install 0) rfl rfl rfl ⟨?_, by simp, ?_⟩
        · refine hL.onDisk.writeHead hroom.2 hlen' (h.logged.lh hm) hcopy fun b hb hnot => ?_
          rw [← hL.onDisk.eq_img hb]
          exact (hrest b hnot).symm
        · intro b hb
          rw [List.drop_zero]
          refine hL.pinned b ?_
          have hd : (s.bwrite g.start (encodeHead (s.view g.start) s.log.lh)).dirty b = true := hb
          rw [bwrite_dirty] at hd
          split at hd
          · cases hd
          · exact hd
      · refine h.story.markDurable h.control hk (m := .install 0) (fun b _ => rfl) rfl rfl rfl ?_
        intro b hb
        show (s.bwrite g.start _).view b = s.view b
        rw [bwrite_view, if_neg hb.ne_start]

theorem consistent_install (h : Consistent g d s) {c : Call} {t : ℕ}
    (hk : s.pc c = .committing (.install t)) : Clean (s.commit g c (.install t)) ∧
      Stage g (s.commit g c (.install t)) ∧ Story g d (s.commit g c (.install t)) := by
  have hm := h.control.running (c := c) (by simp [hk])
  have hlock := h.control.unlocked (h.control.committing.2 ⟨c, _, hk⟩)
  have hI : Installing g s t := h.stage.committing h.control hk
  have hall := h.story.past c (.inl ⟨t, hk⟩)
  simp only [State.commit]
  split
  · rename_i ht
    have hv := hI.view_copy h.clean hlock ht
    have hview : ∀ b, g.Home b → (s.installTrans g t s.log.lh[t]).view b = s.view b := by
      intro b hb
      rw [State.installTrans, bwrite_view, fetch_view]
      split
      · rename_i hbt
        rw [hv, hbt, h.story.view_eq hm hall (hI.onDisk.home _ (List.getElem_mem ht))]
      · rfl
    refine ⟨(h.clean.fetch _).bwrite _ _, ?_, ?_⟩
    · have hI' := hI.installTrans h.clean hlock ht
      refine Stage.of_phase h.control hk (m := .install (t + 1)) ?_ ?_ ?_
        (Installing.congr hI' rfl (fun _ => id) rfl rfl) <;> simp [State.setPc, State.installTrans]
    · refine h.story.advance hk (m := .install (t + 1)) ?_ ?_ ?_ ?_ hview (.inl ⟨t, rfl⟩) <;>
        simp [State.setPc, State.installTrans]
  · rename_i ht
    have hL := hI.clear (by omega : s.log.lh.length ≤ t)
    refine ⟨Clean.bwrite (h.clean.congr rfl rfl rfl) _ _, ?_, ?_⟩
    · exact Stage.of_phase h.control hk (m := .finish) rfl rfl rfl
        ⟨Logging.congr hL rfl rfl (fun _ => id) rfl rfl, rfl⟩
    · refine h.story.advance hk (m := .finish) rfl rfl rfl rfl ?_ (.inl ⟨t, rfl⟩)
      intro b hb
      show (s.bwrite g.start _).view b = s.view b
      rw [bwrite_view, if_neg hb.ne_start]

theorem consistent_finish (h : Consistent g d s) {c : Call} (hk : s.pc c = .committing .finish) :
    Clean (s.commit g c .finish) ∧ Stage g (s.commit g c .finish) ∧
      Story g d (s.commit g c .finish) := by
  have hm := h.control.running (c := c) (by simp [hk])
  have hL : Phase g s .finish := h.stage.committing h.control hk
  refine ⟨h.clean.congr rfl rfl rfl, ?_, h.story.finish hk⟩
  refine Stage.of_logging hm ?_ (hL.1.congr rfl rfl (fun _ => id) rfl rfl)
  intro x k hx
  by_cases hxc : x = c
  · subst hxc; simp [State.commit] at hx
  · have hx' : s.pc x = .committing k := by
      simpa [State.commit, Function.update_of_ne hxc] using hx
    exact absurd (h.control.unique x c k _ hx' hk) hxc

theorem consistent_reboot (h : Consistent g d s) : Clean s.reboot ∧ Stage g s.reboot ∧
    Story g d s.reboot := by
  refine ⟨fun _ _ _ => rfl, ⟨h.stage.onDisk h.control, fun _ => rfl⟩, ?_⟩
  obtain ⟨old, new, hw, hold, hnew, -⟩ := h.story.split
  have hboot : s.reboot.boot = s.boot + 1 := rfl
  refine ⟨h.story.kept, ⟨old ++ new, [], by rw [List.append_nil]; exact hw, ?_, by simp, ?_⟩,
    h.story.ended, fun _ hx => hx.elim, ?_, h.story.acked, ?_⟩
  · intro w hwm
    rw [hboot]
    rcases List.mem_append.1 hwm with hwo | hwn
    · refine (hold w hwo).imp_right fun hlt => ?_
      omega
    · have := h.control.boot _ (hnew w hwn).2
      right; omega
  · intro hm; simp [State.reboot] at hm
  · intro x hx
    rw [hboot]
    rcases h.story.late x hx with hlt | hd
    · left; omega
    · have := h.control.boot x (by intro h0; rw [h0] at hd; exact hd)
      left; omega
  · intro x hx; simp [State.reboot] at hx

theorem consistent_recover (h : Consistent g d s) (hs : step g s .recover = some (.ok s')) :
    Clean s' ∧ Stage g s' ∧ Story g d s' := by
  rw [step_recover] at hs
  have hst := h.stage
  have hlock : s.mode ≠ .running → s.locked = [] := by
    intro hm
    rw [List.eq_nil_iff_forall_not_mem]
    intro b hb
    obtain ⟨c, hc⟩ := h.control.locked b hb
    rw [h.control.booting hm c] at hc
    simp [Pc.Holds] at hc
  cases hm : s.mode with
  | readHead =>
    rw [hm] at hs
    cases hs
    unfold Stage at hst
    rw [hm] at hst
    obtain ⟨⟨bl, hD⟩, hdirty⟩ := hst
    have hbl : decodeHead (s.view g.start) = bl := by
      rw [h.clean _ (hdirty _) (by simp [hlock (by simp [hm])]), hD.head]
    refine ⟨(h.clean.fetch g.start).congr rfl rfl rfl, ?_, h.story.congr (by simp) (by simp) (by simp)
      (by simp)⟩
    have hdirty' : ∀ b, (s.fetch g.start).dirty b = false := by
      intro b; rw [fetch_dirty]; exact hdirty b
    refine ⟨by simpa [hbl] using hD, by simp, fun b hb => ?_⟩
    have hb' : (s.fetch g.start).dirty b = true := hb
    rw [hdirty'] at hb'
    cases hb'
  | install t =>
    rw [hm] at hs
    cases hs
    unfold Stage at hst
    rw [hm] at hst
    have hst : Installing g s t := hst
    have hl := hlock (by simp [hm])
    split
    · rename_i ht
      refine ⟨((h.clean.fetch _).bwrite _ _).congr rfl rfl rfl, ?_,
        h.story.congr (by simp [State.installTrans]) (by simp [State.installTrans])
          (by simp [State.installTrans]) (by simp)⟩
      exact (hst.installTrans h.clean hl ht).congr rfl (fun _ => id) rfl rfl
    · rename_i ht
      have hL := hst.clear (by omega : s.log.lh.length ≤ t)
      have hcl : Clean ({ s with log := { s.log with lh := [] } }.writeHead g) :=
        Clean.bwrite (h.clean.congr rfl rfl rfl) _ _
      refine ⟨hcl.congr rfl rfl rfl, ?_, ?_⟩
      · refine Stage.of_logging rfl ?_ (hL.congr rfl rfl (fun _ => id) rfl rfl)
        intro c k hk
        have hk' : s.pc c = .committing k := hk
        rw [h.control.booting (by simp [hm])] at hk'
        cases hk'
      · obtain ⟨old, new, hw, hold, hnew, -⟩ := h.story.split
        -- a boot starts with no writes of its own
        have hnil : new = [] := by
          rw [List.eq_nil_iff_forall_not_mem]
          exact fun w hwn => (hnew w hwn).2 (h.control.booting (by simp [hm]) _)
        refine ⟨h.story.kept, ⟨old, new, hw, hold, hnew, fun _ b hb => ?_⟩, h.story.ended, h.story.done,
          h.story.late, h.story.acked, h.story.past⟩
        rw [hnil]
        have hview := hcl b ?_ (by simp [State.writeHead, hl])
        · exact hview.trans (hL.onDisk.eq_img hb)
        · by_contra hd
          have := hL.pinned b (by simpa using hd)
          simp [State.writeHead] at this
  | running => rw [hm] at hs; cases hs

/-- **Every event that does not overflow the log** keeps the relation. -/
theorem consistent_step (h : Consistent g d s) {e : Event} (hG : NoOverflow g s e)
    (hs : step g s e = some (.ok s')) : Consistent g d s' := by
  have hC := control_step h.control hs
  have hL := logged_step h.control h.logged hs
  cases e with
  | begin c =>
    obtain ⟨hst, hsy⟩ := consistent_begin h hs
    obtain ⟨-, rfl⟩ := step_begin.1 hs
    exact ⟨hC, hL, h.clean.congr rfl rfl rfl, hst, hsy⟩
  | fetch b =>
    obtain ⟨-, rfl⟩ := step_fetch.1 hs
    have hview : (s.fetch b).view = s.view := funext fun x => fetch_view s b x
    exact ⟨hC, hL, h.clean.fetch b,
      h.stage.frame (by simp) hview (by simp) (by simp) (by simp) (by simp) (by simp) (by simp +contextual),
      h.story.congr (by simp) (by simp) (by simp) (by simp [hview])⟩
  | modify c b v =>
    obtain ⟨hcl, hst, hsy⟩ := consistent_modify h hs
    exact ⟨hC, hL, hcl, hst, hsy⟩
  | logWrite c b =>
    obtain ⟨hst, hsy⟩ := consistent_logWrite h hs
    obtain ⟨-, rfl⟩ := step_logWrite.1 hs
    exact ⟨hC, hL, h.clean.congr rfl rfl rfl, hst, hsy⟩
  | append c b =>
    obtain ⟨hcl, hst, hsy⟩ := consistent_append h hG hs
    exact ⟨hC, hL, hcl, hst, hsy⟩
  | endOp c =>
    obtain ⟨hst, hsy⟩ := consistent_endOp h hs
    obtain ⟨-, rfl⟩ := step_endOp.1 hs
    exact ⟨hC, hL, h.clean.congr rfl rfl rfl, hst, hsy⟩
  | commit c =>
    obtain ⟨k, hk, rfl⟩ := step_commit.1 hs
    cases k with
    | writeLog t =>
      obtain ⟨hcl, hst, hsy⟩ := consistent_writeLog h hk
      exact ⟨hC, hL, hcl, hst, hsy⟩
    | install t =>
      obtain ⟨hcl, hst, hsy⟩ := consistent_install h hk
      exact ⟨hC, hL, hcl, hst, hsy⟩
    | finish =>
      obtain ⟨hcl, hst, hsy⟩ := consistent_finish h hk
      exact ⟨hC, hL, hcl, hst, hsy⟩
  | evict b =>
    obtain ⟨⟨hd, hl⟩, rfl⟩ := step_evict.1 hs
    have hview : ∀ x, State.view { s with buf := Function.update s.buf b none } x = s.view x := by
      intro x
      by_cases hx : x = b
      · subst hx; rw [h.clean x hd hl]; simp [State.view]
      · simp [State.view, Function.update_of_ne hx]
    have hdirty : ∀ x, State.dirty { s with buf := Function.update s.buf b none } x = true →
        s.dirty x = true := by
      intro x
      by_cases hx : x = b
      · subst hx; simp [State.dirty]
      · simp [State.dirty, Function.update_of_ne hx]
    refine ⟨hC, hL, ?_, h.stage.frame rfl (funext hview) hdirty rfl rfl rfl id fun _ _ => .inl,
      h.story.congr rfl rfl rfl fun hm => ⟨hm, funext hview⟩⟩
    intro x hx hxl
    by_cases hxb : x = b
    · subst hxb; simp [State.view]
    · rw [hview]
      exact h.clean x (by simpa [State.dirty, Function.update_of_ne hxb] using hx) hxl
  | crash =>
    rw [step_crash.1 hs] at hC hL ⊢
    obtain ⟨hcl, hst, hsy⟩ := consistent_reboot h
    exact ⟨hC, hL, hcl, hst, hsy⟩
  | recover =>
    obtain ⟨hcl, hst, hsy⟩ := consistent_recover h hs
    exact ⟨hC, hL, hcl, hst, hsy⟩

theorem consistent_init (hd : decodeHead (d g.start) = []) : Consistent g d (init d) where
  control := control_init d
  logged := by constructor <;> simp [init, Pc.Holds]
  clean := fun _ _ _ => rfl
  stage := ⟨⟨[], hd, g.pos, by simp, by simp, fun _ _ _ => rfl⟩, fun _ => rfl⟩
  story := ⟨fun _ _ => rfl, ⟨[], [], rfl, by simp, by simp, fun _ _ _ => rfl⟩, by simp [init],
    by simp [init, Pc.Done], by simp [init], by simp [init], by simp [init]⟩

theorem consistent_run (hd : decodeHead (d g.start) = []) {es : List Event}
    (hG : (machine g).Guarded (NoOverflow g) (init d) es)
    (hr : (machine g).run (init d) es = some (.ok s)) : Consistent g d s :=
  Machine.guarded_inv (M := machine g) (I := Consistent g d) (consistent_init hd)
    (fun _ _ _ hI hg hs => consistent_step hI hg hs) hG hr

/-! ## Recovery -/

/-- A crash or a step of `recover_from_log`. -/
def Event.Recovery (e : Event) : Prop := e = .crash ∨ e = .recover

theorem Event.Recovery.noOverflow {e : Event} (h : e.Recovery) : NoOverflow g s e := by
  rcases h with rfl | rfl <;> trivial

theorem recovery_committed {e : Event} (he : e.Recovery) (hs : step g s e = some (.ok s')) :
    s'.hist.committed = s.hist.committed := by
  rcases he with rfl | rfl
  · rw [step_crash.1 hs]; rfl
  · rw [step_recover] at hs
    cases hm : s.mode with
    | readHead => rw [hm] at hs; cases hs; simp
    | install t =>
      rw [hm] at hs
      cases hs
      split <;> simp [State.installTrans, State.writeHead]
    | running => rw [hm] at hs; cases hs

/-- Crashes and recoveries keep the relation and the committed image. -/
theorem recovery_run {es : List Event} (hes : ∀ e ∈ es, e.Recovery) (h : Consistent g d s)
    (hr : (machine g).run s es = some (.ok s')) :
    Consistent g d s' ∧ s'.hist.committed = s.hist.committed := by
  refine Machine.run_induct (M := machine g)
    (P := fun es s' => (∀ e ∈ es, e.Recovery) → Consistent g d s' ∧ s'.hist.committed = s.hist.committed)
    (fun _ => ⟨h, rfl⟩) ?_ es s' hr hes
  intro es s₁ e s₂ _ ih hs hmem
  obtain ⟨h₁, hc⟩ := ih fun x hx => hmem x (by simp [hx])
  have he : e.Recovery := hmem e (by simp)
  exact ⟨consistent_step h₁ he.noOverflow hs, (recovery_committed he hs).trans hc⟩

/-- A step of `recover_from_log` is always possible before its end. -/
theorem recover_next (hm : s.mode ≠ .running) : ∃ s', step g s .recover = some (.ok s') ∧
    ((s.mode = .readHead ∧ s'.mode = .install 0) ∨
      (∃ t, s.mode = .install t ∧ t < s.log.lh.length ∧ s'.mode = .install (t + 1) ∧
        s'.log.lh = s.log.lh) ∨
      s'.mode = .running) := by
  cases hs : s.mode with
  | readHead => exact ⟨_, by rw [step_recover, hs]; rfl, .inl ⟨rfl, rfl⟩⟩
  | install t =>
    refine ⟨_, by rw [step_recover, hs]; rfl, .inr ?_⟩
    split
    · rename_i ht
      exact .inl ⟨t, rfl, ht, rfl, by simp [State.installTrans]⟩
    · exact .inr rfl
  | running => exact absurd hs hm

theorem run_recover_succ {n : ℕ} {s₁ : State} (hs : step g s .recover = some (.ok s₁))
    (hr : (machine g).run s₁ (List.replicate n .recover) = some (.ok s')) :
    (machine g).run s (List.replicate (n + 1) .recover) = some (.ok s') := by
  rw [List.replicate_succ]
  simp only [Machine.run, machine]
  rw [hs]
  exact hr

theorem install_ends (n : ℕ) : ∀ s t, s.mode = .install t → s.log.lh.length - t = n →
    ∃ m s', (machine g).run s (List.replicate m .recover) = some (.ok s') ∧ s'.mode = .running := by
  induction n with
  | zero =>
    intro s t hm hn
    obtain ⟨s₁, hs, h | ⟨t', ht', hlt, -⟩ | h⟩ := recover_next (g := g) (s := s) (by simp [hm])
    · rw [hm] at h; cases h.1
    · rw [hm] at ht'; cases ht'; omega
    · exact ⟨1, s₁, run_recover_succ hs rfl, h⟩
  | succ n ih =>
    intro s t hm hn
    obtain ⟨s₁, hs, h | ⟨t', ht', hlt, hm₁, hlh⟩ | h⟩ := recover_next (g := g) (s := s) (by simp [hm])
    · rw [hm] at h; cases h.1
    · rw [hm] at ht'
      cases ht'
      obtain ⟨m, s', hr, hm'⟩ := ih s₁ (t + 1) hm₁ (by rw [hlh]; omega)
      exact ⟨m + 1, s', run_recover_succ hs hr, hm'⟩
    · exact ⟨1, s₁, run_recover_succ hs rfl, h⟩

/-- **`recover_from_log` comes to an end.** -/
theorem recover_ends (g : Geometry) (s : State) :
    ∃ n s', (machine g).run s (List.replicate n .recover) = some (.ok s') ∧ s'.mode = .running := by
  by_cases hm : s.mode = .running
  · exact ⟨0, s, rfl, hm⟩
  obtain ⟨s₁, hs, ⟨-, h⟩ | ⟨t, -, -, h, -⟩ | h⟩ := recover_next (g := g) hm
  · obtain ⟨m, s', hr, hm'⟩ := install_ends (g := g) _ s₁ 0 h rfl
    exact ⟨m + 1, s', run_recover_succ hs hr, hm'⟩
  · obtain ⟨m, s', hr, hm'⟩ := install_ends (g := g) _ s₁ (t + 1) h rfl
    exact ⟨m + 1, s', run_recover_succ hs hr, hm'⟩
  · exact ⟨1, s₁, run_recover_succ hs rfl, h⟩

/-- While nothing commits the disk is the committed image. -/
theorem Consistent.disk_eq (h : Consistent g d s) (hm : s.mode = .running)
    (hcom : s.log.committing = false) {b : ℕ} (hb : g.Home b) : s.disk b = s.hist.committed b :=
  (h.stage.logging hm hcom).onDisk.eq_img hb

theorem recovery_idle {e : Event} (he : e.Recovery) (hc : s.log.committing = false)
    (hs : step g s e = some (.ok s')) : s'.log.committing = false := by
  rcases he with rfl | rfl
  · rw [step_crash.1 hs]; rfl
  · rw [step_recover] at hs
    cases hm : s.mode with
    | readHead => rw [hm] at hs; cases hs; exact hc
    | install t =>
      rw [hm] at hs
      cases hs
      split <;> simpa [State.installTrans, State.writeHead] using hc
    | running => rw [hm] at hs; cases hs

/-- After a crash nothing commits until the boot is over. -/
theorem recovery_quiet {es : List Event} (hes : ∀ e ∈ es, e.Recovery)
    (hr : (machine g).run s (.crash :: es) = some (.ok s')) : s'.log.committing = false := by
  refine Machine.run_induct (M := machine g)
    (P := fun es s' => (∀ e ∈ es, e.Recovery) → s'.log.committing = false) (fun _ => rfl) ?_ es s' hr hes
  intro es s₁ e s₂ _ ih hs hmem
  exact recovery_idle (hmem e (by simp)) (ih fun x hx => hmem x (by simp [hx])) hs

/-- **Crash atomicity.** In every run that does not overflow the log, crashes and
recoveries included:

* while a boot is over and nothing commits, the home blocks are the cache contents at
  the last commit whose header write reached the disk;
* these are the writes of the durable calls, each of which had made all its writes;
* a call that returned from the committing `end_op` is durable;
* after a crash, and any number of crashes during recovery, recovery ends in them. -/
theorem crash_atomic (hd : decodeHead (d g.start) = []) {es : List Event}
    (hG : (machine g).Guarded (NoOverflow g) (init d) es)
    (hr : (machine g).run (init d) es = some (.ok s)) :
    (s.mode = .running → s.log.committing = false →
      ∀ b, g.Home b → s.disk b = s.hist.committed b) ∧
    (∀ b, g.Home b → s.hist.committed b = replay d s.hist.kept b) ∧
    (∀ c, s.hist.durable c = true → s.hist.ended c = true) ∧
    (∀ c, s.hist.acked c = true → s.hist.durable c = true) ∧
    ∀ es' s', (∀ e ∈ es', e.Recovery) → (machine g).run s (.crash :: es') = some (.ok s') →
      (s'.mode = .running → ∀ b, g.Home b → s'.disk b = s.hist.committed b) ∧
      ∃ n s'', (machine g).run s' (List.replicate n .recover) = some (.ok s'') ∧
        s''.mode = .running ∧ ∀ b, g.Home b → s''.disk b = s.hist.committed b := by
  have h := consistent_run hd hG hr
  refine ⟨fun hm hcom b hb => h.disk_eq hm hcom hb, h.story.kept, h.story.ended, h.story.acked, ?_⟩
  -- what holds at the end of any recovery
  have hend : ∀ es' s', (∀ e ∈ es', e.Recovery) → (machine g).run s (.crash :: es') = some (.ok s') →
      s'.mode = .running → ∀ b, g.Home b → s'.disk b = s.hist.committed b := by
    intro es' s' hes hr' hm b hb
    have hes' : ∀ e ∈ Event.crash :: es', e.Recovery := by
      intro e he
      rcases List.mem_cons.1 he with rfl | he
      · exact .inl rfl
      · exact hes e he
    obtain ⟨h', hc⟩ := recovery_run hes' h hr'
    rw [h'.disk_eq hm (recovery_quiet hes hr') hb, hc]
  intro es' s' hes hr'
  refine ⟨hend es' s' hes hr', ?_⟩
  obtain ⟨n, s'', hr'', hm''⟩ := recover_ends g s'
  refine ⟨n, s'', hr'', hm'', hend (es' ++ List.replicate n .recover) s'' ?_ ?_ hm''⟩
  · intro e he
    rcases List.mem_append.1 he with he | he
    · exact hes e he
    · exact .inr (List.eq_of_mem_replicate he)
  · rw [← List.cons_append]
    exact (Machine.run_append hr').trans hr''

/-- One call, up to the header write of its commit. -/
def oneCommit : List Event :=
  [.recover, .recover, .begin ⟨0, 0⟩, .modify ⟨0, 0⟩ 32 fun _ => 1, .logWrite ⟨0, 0⟩ 32,
    .append ⟨0, 0⟩ 32, .endOp ⟨0, 0⟩, .commit ⟨0, 0⟩, .commit ⟨0, 0⟩]

/-- A crash right after the header write does not lose the call. -/
theorem crash_atomic_oneCommit : ∃ s, (machine mkfs).run (init fun _ _ => 0) oneCommit = some (.ok s) ∧
    ∃ n s', (machine mkfs).run s.reboot (List.replicate n .recover) = some (.ok s') ∧
      s'.disk 32 = fun _ => 1 := by
  refine ⟨_, rfl, ?_⟩
  obtain ⟨-, hkept, -, -, hrec⟩ := crash_atomic (g := mkfs) (d := fun _ _ => 0)
    (by rw [decodeHead, word_zero]; rfl) (Machine.guarded_of_check (by decide))
    (show (machine mkfs).run (init fun _ _ => 0) oneCommit = some (.ok _) from rfl)
  obtain ⟨-, n, s', hr, -, hdisk⟩ := hrec [] _ (by simp) rfl
  refine ⟨n, s', hr, ?_⟩
  rw [hdisk 32 (by decide), hkept 32 (by decide)]
  rfl

end Xv6.Log
