import Xv6.Cache.Refs

/-!
# What the buffers hold

* `Io`: the queue of the disk driver, the command that the drive executes, and the processes that wait for it.
* `Coherent`: a valid buffer has the contents of its block, and so does the disk for a block without a dirty buffer.
* **`cache_coherent`**: a process that has a buffer has the block it asked for, with what the last `bwrite` or
  `log_write` of any process left there, in every run whose callers keep their promises.
* **`only_panics`**: what the cache panics for.
* **`disk_serves`**: who waits for the disk is served, in the order of the queue.
-/

namespace Xv6.Cache

variable {n : ℕ} {P D : Type*} [DecidableEq P] {s s' : State n P D} {e : Event n P D} {fssize : ℕ}
  {havedisk1 : Bool}

/-- The process works on a buffer whose lock it has, in `bread` or `bwrite`. -/
def Pc.Works : Pc n → Fin n → Prop
  | .reading b', b | .starting b', b | .waiting b', b => b' = b
  | _, _ => False

structure Io (s : State n P D) : Prop where
  holder : ∀ {p b}, (s.pc p).Works b → s.lock b = some p
  nodup : s.idequeue.Nodup
  queued : ∀ {b}, b ∈ s.idequeue → ∃ p, s.pc p = .waiting b
  waits : ∀ {p b}, s.pc p = .waiting b → b ∈ s.idequeue ∨ (s.buf b).Synced
  unsynced : ∀ {b}, b ∈ s.idequeue → ¬ (s.buf b).Synced
  starting : ∀ {p b}, s.pc p = .starting b → ¬ (s.buf b).Synced
  idle : s.drive = .idle → s.idequeue = []
  /-- the drive executes the first request -/
  busy : ∀ {c}, s.drive = .busy c → ∃ b q, s.idequeue = b :: q ∧ c = (s.buf b).cmd
  done : ∀ {latch}, s.drive = .done latch → ∃ b q, s.idequeue = b :: q ∧
    ((s.buf b).dirty = true → s.disk ((s.buf b).dev % 2) (s.buf b).blockno = (s.buf b).data) ∧
    ((s.buf b).dirty = false → latch = some (s.disk ((s.buf b).dev % 2) (s.buf b).blockno))

omit [DecidableEq P] in
theorem exec_dirty (x : Buf D) (h : x.dirty = true) (disk : ℕ → ℕ → D) : x.cmd.exec disk =
    (Function.update disk (x.dev % 2) (Function.update (disk (x.dev % 2)) x.blockno x.data), none) := by
  unfold Buf.cmd
  rw [if_pos h]
  rfl

omit [DecidableEq P] in
theorem exec_clean (x : Buf D) (h : x.dirty = false) (disk : ℕ → ℕ → D) :
    x.cmd.exec disk = (disk, some (disk (x.dev % 2) x.blockno)) := by
  unfold Buf.cmd
  rw [if_neg (by simp [h])]
  rfl

namespace Io

omit [DecidableEq P] in
theorem locked (h : Io s) {b : Fin n} (hb : b ∈ s.idequeue) : ∃ p, s.lock b = some p ∧ s.pc p = .waiting b := by
  obtain ⟨p, hp⟩ := h.queued hb
  exact ⟨p, h.holder (by rw [hp]; exact rfl), hp⟩

omit [DecidableEq P] in
/-- The buffer of a process that is not in `iderw` is not in the queue. -/
theorem not_queued (h : Io s) {b : Fin n} {p : P} (hl : s.lock b = some p) (hp : s.pc p ≠ .waiting b) :
    b ∉ s.idequeue := by
  intro hb
  obtain ⟨q, hq, hpc⟩ := h.locked hb
  rw [hl] at hq
  cases hq
  exact hp hpc

omit [DecidableEq P] in
/-- Only the holder works on a buffer. -/
theorem works_unique (h : Io s) {b : Fin n} {p q : P} (hl : s.lock b = some p) (hq : (s.pc q).Works b) : q = p := by
  have hl' := h.holder hq
  rw [hl] at hl'
  exact (Option.some.inj hl').symm

/-- A process moves. -/
theorem go (h : Io s) {p : P} {x : Pc n} (hpc : s'.pc = Function.update s.pc p x) (hbuf : s'.buf = s.buf)
    (hlock : ∀ q b, q ≠ p → (s.pc q).Works b → s'.lock b = some q) (hqueue : s'.idequeue = s.idequeue)
    (hdrive : s'.drive = s.drive) (hdisk : s'.disk = s.disk) (hworks : ∀ b, x.Works b → s'.lock b = some p)
    (hwaits : ∀ b, x ≠ .waiting b) (hstarting : ∀ b, x = .starting b → ¬ (s.buf b).Synced)
    (hleave : ∀ b, s.pc p = .waiting b → b ∉ s.idequeue) : Io s' := by
  have hself : s'.pc p = x := by rw [hpc, Function.update_self]
  have hne : ∀ {q}, q ≠ p → s'.pc q = s.pc q := fun hq => by rw [hpc, Function.update_of_ne hq]
  constructor
  · intro q b hq
    by_cases hqp : q = p
    · rw [hqp, hself] at hq
      rw [hqp]
      exact hworks b hq
    · rw [hne hqp] at hq
      exact hlock q b hqp hq
  · rw [hqueue]
    exact h.nodup
  · intro b hb
    rw [hqueue] at hb
    obtain ⟨q, hq⟩ := h.queued hb
    have hqp : q ≠ p := by
      rintro rfl
      exact hleave b hq hb
    exact ⟨q, by rw [hne hqp]; exact hq⟩
  · intro q b hq
    have hqp : q ≠ p := by
      rintro rfl
      rw [hself] at hq
      exact hwaits b hq
    rw [hne hqp] at hq
    rw [hqueue, hbuf]
    exact h.waits hq
  · intro b hb
    rw [hqueue] at hb
    rw [hbuf]
    exact h.unsynced hb
  · intro q b hq
    rw [hbuf]
    by_cases hqp : q = p
    · rw [hqp, hself] at hq
      exact hstarting b hq
    · rw [hne hqp] at hq
      exact h.starting hq
  · rw [hdrive, hqueue]
    exact h.idle
  · intro c hc
    rw [hdrive] at hc
    rw [hqueue, hbuf]
    exact h.busy hc
  · intro latch hd
    rw [hdrive] at hd
    rw [hqueue, hbuf, hdisk]
    exact h.done hd

/-- A process goes where it works on no buffer. -/
theorem leave (h : Io s) {p : P} {x y : Pc n} (hp : s.pc p = y) (hy : ∀ b, y = .waiting b → b ∉ s.idequeue)
    (hx : ∀ b, ¬ x.Works b) (hpc : s'.pc = Function.update s.pc p x) (hbuf : s'.buf = s.buf) (hlock : s'.lock = s.lock)
    (hqueue : s'.idequeue = s.idequeue) (hdrive : s'.drive = s.drive) (hdisk : s'.disk = s.disk) : Io s' := by
  refine h.go hpc hbuf ?_ hqueue hdrive hdisk (fun b hw => (hx b hw).elim) ?_ ?_ ?_
  · intro q b _ hq
    rw [hlock]
    exact h.holder hq
  · rintro b rfl
    exact hx b rfl
  · rintro b rfl
    exact (hx b rfl).elim
  · intro b hb
    rw [hp] at hb
    exact hy b hb

omit [DecidableEq P] in
/-- A buffer that is not in the queue changes. -/
theorem setBuf (h : Io s) {b : Fin n} {x : Buf D} (hbuf : s'.buf = Function.update s.buf b x) (hb : b ∉ s.idequeue)
    (hwaits : ∀ p, s.pc p ≠ .waiting b) (hstarting : ∀ p, s.pc p ≠ .starting b) (hpc : s'.pc = s.pc)
    (hlock : s'.lock = s.lock) (hqueue : s'.idequeue = s.idequeue) (hdrive : s'.drive = s.drive)
    (hdisk : s'.disk = s.disk) : Io s' := by
  have hne : ∀ {b'}, b' ≠ b → s'.buf b' = s.buf b' := fun hb' => by rw [hbuf, Function.update_of_ne hb']
  have hin : ∀ {b'}, b' ∈ s.idequeue → s'.buf b' = s.buf b' := by
    intro b' hb'
    apply hne
    rintro rfl
    exact hb hb'
  constructor
  · intro p b' hp
    rw [hpc] at hp
    rw [hlock]
    exact h.holder hp
  · rw [hqueue]
    exact h.nodup
  · intro b' hb'
    rw [hqueue] at hb'
    rw [hpc]
    exact h.queued hb'
  · intro p b' hp
    rw [hpc] at hp
    have hb' : b' ≠ b := by
      rintro rfl
      exact hwaits p hp
    rw [hqueue, hne hb']
    exact h.waits hp
  · intro b' hb'
    rw [hqueue] at hb'
    rw [hin hb']
    exact h.unsynced hb'
  · intro p b' hp
    rw [hpc] at hp
    have hb' : b' ≠ b := by
      rintro rfl
      exact hstarting p hp
    rw [hne hb']
    exact h.starting hp
  · rw [hdrive, hqueue]
    exact h.idle
  · intro c hc
    rw [hdrive] at hc
    obtain ⟨b', q, hq, hcmd⟩ := h.busy hc
    refine ⟨b', q, by rw [hqueue, hq], ?_⟩
    rw [hin (by rw [hq]; simp)]
    exact hcmd
  · intro latch hd
    rw [hdrive] at hd
    obtain ⟨b', q, hq, hdone⟩ := h.done hd
    refine ⟨b', q, by rw [hqueue, hq], ?_⟩
    rw [hin (by rw [hq]; simp), hdisk]
    exact hdone

omit [DecidableEq P] in
/-- The count of a buffer changes. -/
theorem setRefcnt (h : Io s) {b : Fin n} {r : ℕ} (hbuf : s'.buf = Function.update s.buf b { s.buf b with refcnt := r })
    (hpc : s'.pc = s.pc) (hlock : s'.lock = s.lock) (hqueue : s'.idequeue = s.idequeue) (hdrive : s'.drive = s.drive)
    (hdisk : s'.disk = s.disk) : Io s' := by
  have hfields : ∀ b', (s'.buf b').Synced = (s.buf b').Synced ∧ (s'.buf b').cmd = (s.buf b').cmd ∧
      (s'.buf b').dirty = (s.buf b').dirty ∧ (s'.buf b').dev = (s.buf b').dev ∧
      (s'.buf b').blockno = (s.buf b').blockno ∧ (s'.buf b').data = (s.buf b').data := by
    intro b'
    rw [hbuf]
    by_cases hb : b' = b
    · rw [hb, Function.update_self]
      exact ⟨rfl, rfl, rfl, rfl, rfl, rfl⟩
    · rw [Function.update_of_ne hb]
      exact ⟨rfl, rfl, rfl, rfl, rfl, rfl⟩
  constructor
  · intro p b' hp
    rw [hpc] at hp
    rw [hlock]
    exact h.holder hp
  · rw [hqueue]
    exact h.nodup
  · intro b' hb'
    rw [hqueue] at hb'
    rw [hpc]
    exact h.queued hb'
  · intro p b' hp
    rw [hpc] at hp
    rw [hqueue, (hfields b').1]
    exact h.waits hp
  · intro b' hb'
    rw [hqueue] at hb'
    rw [(hfields b').1]
    exact h.unsynced hb'
  · intro p b' hp
    rw [hpc] at hp
    rw [(hfields b').1]
    exact h.starting hp
  · rw [hdrive, hqueue]
    exact h.idle
  · intro c hc
    rw [hdrive] at hc
    obtain ⟨b', q, hq, hcmd⟩ := h.busy hc
    exact ⟨b', q, by rw [hqueue, hq], by rw [(hfields b').2.1]; exact hcmd⟩
  · intro latch hd
    rw [hdrive] at hd
    obtain ⟨b', q, hq, hdone⟩ := h.done hd
    obtain ⟨-, -, hdirty, hdev, hblock, hdata⟩ := hfields b'
    refine ⟨b', q, by rw [hqueue, hq], ?_⟩
    rw [hdirty, hdev, hblock, hdata, hdisk]
    exact hdone

/-- `iderw` appends its buffer to the queue. -/
theorem enqueue (h : Io s) {p : P} {b : Fin n} (hp : s.pc p = .starting b) (hpc : s'.pc = Function.update s.pc p (.waiting b))
    (hbuf : s'.buf = s.buf) (hlock : s'.lock = s.lock) (hqueue : s'.idequeue = s.idequeue ++ [b])
    (hdisk : s'.disk = s.disk)
    (hdrive : s.idequeue ≠ [] ∧ s'.drive = s.drive ∨ s.idequeue = [] ∧ s'.drive = .busy (s.buf b).cmd) : Io s' := by
  have hl : s.lock b = some p := h.holder (by rw [hp]; exact rfl)
  have hb : b ∉ s.idequeue := h.not_queued hl (by rw [hp]; simp)
  have hself : s'.pc p = .waiting b := by rw [hpc, Function.update_self]
  have hne : ∀ {q}, q ≠ p → s'.pc q = s.pc q := fun hq => by rw [hpc, Function.update_of_ne hq]
  -- the first request stays the first
  have hhead : ∀ {b' q}, s.idequeue = b' :: q → s'.idequeue = b' :: (q ++ [b]) := by
    intro b' q hq
    rw [hqueue, hq]
    rfl
  constructor
  · intro q b' hq
    rw [hlock]
    by_cases hqp : q = p
    · rw [hqp, hself] at hq
      have hbb : b = b' := hq
      rw [hqp, ← hbb]
      exact hl
    · rw [hne hqp] at hq
      exact h.holder hq
  · rw [hqueue, List.nodup_append]
    refine ⟨h.nodup, List.nodup_singleton b, ?_⟩
    rintro x hx y hy rfl
    rw [List.mem_singleton] at hy
    rw [hy] at hx
    exact hb hx
  · intro b' hb'
    rw [hqueue, List.mem_append, List.mem_singleton] at hb'
    rcases hb' with hb' | rfl
    · obtain ⟨q, hq⟩ := h.queued hb'
      have hqp : q ≠ p := by
        rintro rfl
        rw [hp] at hq
        cases hq
      exact ⟨q, by rw [hne hqp]; exact hq⟩
    · exact ⟨p, hself⟩
  · intro q b' hq
    rw [hqueue, hbuf, List.mem_append, List.mem_singleton]
    by_cases hqp : q = p
    · rw [hqp, hself] at hq
      cases hq
      exact .inl (.inr rfl)
    · rw [hne hqp] at hq
      exact (h.waits hq).imp .inl id
  · intro b' hb'
    rw [hqueue, List.mem_append, List.mem_singleton] at hb'
    rw [hbuf]
    rcases hb' with hb' | rfl
    · exact h.unsynced hb'
    · exact h.starting hp
  · intro q b' hq
    have hqp : q ≠ p := by
      rintro rfl
      rw [hself] at hq
      cases hq
    rw [hne hqp] at hq
    rw [hbuf]
    exact h.starting hq
  · intro hd
    rcases hdrive with ⟨hq, hd'⟩ | ⟨-, hd'⟩
    · rw [hd'] at hd
      exact absurd (h.idle hd) hq
    · rw [hd'] at hd
      cases hd
  · intro c hc
    rw [hbuf]
    rcases hdrive with ⟨hq, hd'⟩ | ⟨hq, hd'⟩
    · rw [hd'] at hc
      obtain ⟨b', q, hq', hcmd⟩ := h.busy hc
      exact ⟨b', _, hhead hq', hcmd⟩
    · rw [hd'] at hc
      cases hc
      exact ⟨b, [], by rw [hqueue, hq]; rfl, rfl⟩
  · intro latch hd
    rw [hbuf, hdisk]
    rcases hdrive with ⟨hq, hd'⟩ | ⟨-, hd'⟩
    · rw [hd'] at hd
      obtain ⟨b', q, hq', hdone⟩ := h.done hd
      exact ⟨b', _, hhead hq', hdone⟩
    · rw [hd'] at hd
      cases hd

omit [DecidableEq P] in
/-- `ideintr` takes the first request off, and starts the next. -/
theorem serve (h : Io s) {b : Fin n} {q : List (Fin n)} {x : Buf D} (hq : s.idequeue = b :: q) (hx : x.Synced)
    (hbuf : s'.buf = Function.update s.buf b x) (hpc : s'.pc = s.pc) (hlock : s'.lock = s.lock)
    (hqueue : s'.idequeue = q)
    (hdrive : q = [] ∧ s'.drive = .idle ∨ ∃ b' q', q = b' :: q' ∧ s'.drive = .busy (s'.buf b').cmd) : Io s' := by
  have hnd := h.nodup
  rw [hq, List.nodup_cons] at hnd
  have hmem : ∀ {b'}, b' ∈ q → b' ∈ s.idequeue ∧ b' ≠ b := by
    intro b' hb'
    refine ⟨by rw [hq]; exact List.mem_cons_of_mem b hb', ?_⟩
    rintro rfl
    exact hnd.1 hb'
  have hself : s'.buf b = x := by rw [hbuf, Function.update_self]
  have hne : ∀ {b'}, b' ≠ b → s'.buf b' = s.buf b' := fun hb' => by rw [hbuf, Function.update_of_ne hb']
  obtain ⟨p₀, hl₀, hp₀⟩ := h.locked (b := b) (by rw [hq]; simp)
  constructor
  · intro p b' hp
    rw [hpc] at hp
    rw [hlock]
    exact h.holder hp
  · rw [hqueue]
    exact hnd.2
  · intro b' hb'
    rw [hqueue] at hb'
    rw [hpc]
    exact h.queued (hmem hb').1
  · intro p b' hp
    rw [hpc] at hp
    rw [hqueue]
    by_cases hb : b' = b
    · rw [hb, hself]
      exact .inr hx
    · rw [hne hb]
      refine (h.waits hp).imp (fun hin => ?_) id
      rw [hq] at hin
      exact (List.mem_cons.1 hin).resolve_left hb
  · intro b' hb'
    rw [hqueue] at hb'
    rw [hne (hmem hb').2]
    exact h.unsynced (hmem hb').1
  · intro p b' hp
    rw [hpc] at hp
    have hb : b' ≠ b := by
      rintro rfl
      -- the process of the request is in the loop
      have hpp := h.works_unique hl₀ (q := p) (by rw [hp]; exact rfl)
      rw [hpp, hp₀] at hp
      cases hp
    rw [hne hb]
    exact h.starting hp
  · intro hd
    rcases hdrive with ⟨h0, -⟩ | ⟨b', q', -, hd'⟩
    · rw [hqueue, h0]
    · rw [hd'] at hd
      cases hd
  · intro c hc
    rcases hdrive with ⟨-, hd'⟩ | ⟨b', q', hq', hd'⟩
    · rw [hd'] at hc
      cases hc
    · rw [hd'] at hc
      cases hc
      exact ⟨b', q', by rw [hqueue, hq'], rfl⟩
  · intro latch hd
    rcases hdrive with ⟨-, hd'⟩ | ⟨b', q', -, hd'⟩ <;> (rw [hd'] at hd; cases hd)

omit [DecidableEq P] in
/-- The drive is done with the first request. -/
theorem finish (h : Io s) {c : Cmd D} (hd : s.drive = .busy c) : Io (s.finish c false) := by
  obtain ⟨b, q, hq, rfl⟩ := h.busy hd
  have hs : s.finish (s.buf b).cmd false =
      { s with disk := ((s.buf b).cmd.exec s.disk).1, drive := .done ((s.buf b).cmd.exec s.disk).2 } := rfl
  rw [hs]
  refine ⟨h.holder, h.nodup, h.queued, h.waits, h.unsynced, h.starting, ?_, ?_, ?_⟩
  · intro hi
    cases hi
  · intro c hc
    cases hc
  · intro latch hl
    cases hl
    refine ⟨b, q, hq, ?_, ?_⟩
    · intro hdirty
      show ((s.buf b).cmd.exec s.disk).1 ((s.buf b).dev % 2) (s.buf b).blockno = (s.buf b).data
      rw [exec_dirty (s.buf b) hdirty]
      simp only [Function.update_self]
    · intro hclean
      show ((s.buf b).cmd.exec s.disk).2 = some (((s.buf b).cmd.exec s.disk).1 ((s.buf b).dev % 2) (s.buf b).blockno)
      rw [exec_clean (s.buf b) hclean]

theorem step (h : Io s) (hR : Refs s) (hlru : ∃ l, Lru s l) (hG : Proper fssize s e) (hs : Step fssize s e s') :
    Io s' := by
  -- who does not work on a buffer has it in no request
  have hnot : ∀ {p b}, s.lock b = some p → s.pc p = .out →
      b ∉ s.idequeue ∧ (∀ q, s.pc q ≠ .waiting b) ∧ ∀ q, s.pc q ≠ .starting b := by
    intro p b hl hp
    refine ⟨h.not_queued hl (by rw [hp]; simp), ?_, ?_⟩
    · intro q hq
      have hqp := h.works_unique hl (q := q) (by rw [hq]; exact rfl)
      rw [hqp, hp] at hq
      cases hq
    · intro q hq
      have hqp := h.works_unique hl (q := q) (by rw [hq]; exact rfl)
      rw [hqp, hp] at hq
      cases hq
  cases hs with
  | @hit p dev blockno b hp hb =>
    have h1 : Io (s.setBuf b { s.buf b with refcnt := (s.buf b).refcnt + 1 }) := h.setRefcnt rfl rfl rfl rfl rfl rfl
    exact h1.leave hp (fun b' hb => by cases hb) (fun _ => id) rfl rfl rfl rfl rfl rfl
  | @recycle p dev blockno b hp hnone hb =>
    obtain ⟨l, hl⟩ := hlru
    obtain ⟨-, hfree, -⟩ := hR.unused (hl.unused_some hb).1
    -- nobody has the lock of the buffer
    have hno : ∀ q, ¬ (s.pc q).Works b := by
      intro q hq
      have hq' := h.holder hq
      rw [hfree] at hq'
      cases hq'
    have hin : b ∉ s.idequeue := by
      intro hmem
      obtain ⟨q, hq, -⟩ := h.locked hmem
      rw [hfree] at hq
      cases hq
    have h1 : Io (s.setBuf b ⟨dev, blockno, false, false, 1, (s.buf b).data⟩) := by
      refine h.setBuf rfl hin ?_ ?_ rfl rfl rfl rfl rfl
      · intro q hq
        exact hno q (by rw [hq]; exact rfl)
      · intro q hq
        exact hno q (by rw [hq]; exact rfl)
    exact h1.leave hp (fun b' hb => by cases hb) (fun _ => id) rfl rfl rfl rfl rfl rfl
  | @modify p b data hp hl =>
    obtain ⟨hin, hw, hst⟩ := hnot hl hp
    exact h.setBuf rfl hin hw hst rfl rfl rfl rfl rfl
  | @bwrite p b hp hl =>
    obtain ⟨hin, hw, hst⟩ := hnot hl hp
    have h1 : Io (s.mark b) := h.setBuf rfl hin hw hst rfl rfl rfl rfl rfl
    refine h1.go (p := p) (x := .starting b) rfl rfl (fun q b' _ hq => h.holder hq) rfl rfl rfl ?_ ?_ ?_ ?_
    · rintro b' hb
      have hbb : b = b' := hb
      rw [← hbb]
      exact hl
    · simp
    · rintro b' ⟨⟩ hsync
      have hd : ((s.mark b).buf b).dirty = false := hsync.2
      have hb : (s.mark b).buf b = { s.buf b with dirty := true } := Function.update_self ..
      rw [hb] at hd
      cases hd
    · intro b' hw'
      have hw'' : s.pc p = .waiting b' := hw'
      rw [hp] at hw''
      cases hw''
  | @log_write p b hp hl =>
    obtain ⟨hin, hw, hst⟩ := hnot hl hp
    exact h.setBuf rfl hin hw hst rfl rfl rfl rfl rfl
  | @releasesleep p b hp hl =>
    refine h.go (p := p) (x := .releasing b) rfl rfl ?_ rfl rfl rfl ?_ ?_ ?_ ?_
    · intro q b' hqp hq
      have hb : b' ≠ b := by
        rintro rfl
        exact hqp (h.works_unique hl hq)
      exact (Function.update_of_ne hb ..).trans (h.holder hq)
    · exact fun b' hw => hw.elim
    · simp
    · simp
    · intro b' hw
      rw [hp] at hw
      cases hw
  | @acquiresleep p b dev blockno hp hl =>
    refine h.go (p := p) (x := .reading b) rfl rfl ?_ rfl rfl rfl ?_ ?_ ?_ ?_
    · intro q b' hqp hq
      have hb : b' ≠ b := by
        rintro rfl
        have hq' := h.holder hq
        rw [hl] at hq'
        cases hq'
      exact (Function.update_of_ne hb ..).trans (h.holder hq)
    · intro b' hb
      have hbb : b = b' := hb
      rw [← hbb]
      exact Function.update_self ..
    · simp
    · simp
    · intro b' hw
      rw [hp] at hw
      cases hw
  | @valid p b hp hv =>
    exact h.leave hp (fun b' hb => by cases hb) (fun _ => id) rfl rfl rfl rfl rfl rfl
  | @invalid p b hp hv =>
    have hl := h.holder (p := p) (b := b) (by rw [hp]; exact rfl)
    refine h.go (p := p) (x := .starting b) rfl rfl (fun q b' _ hq => h.holder hq) rfl rfl rfl ?_ ?_ ?_ ?_
    · intro b' hb
      have hbb : b = b' := hb
      rw [← hbb]
      exact hl
    · simp
    · rintro b' ⟨⟩ hsync
      rw [hsync.1] at hv
      cases hv
    · intro b' hw
      rw [hp] at hw
      cases hw
  | @enqueue p b hp hl hn hq => exact h.enqueue hp rfl rfl rfl rfl rfl (.inl ⟨hq, rfl⟩)
  | @start p b hp hl hn hq hb => exact h.enqueue hp rfl rfl rfl rfl rfl (.inr ⟨hq, rfl⟩)
  | @synced p b hp hn =>
    refine h.leave hp (fun b' hb hin => ?_) (fun _ => id) rfl rfl rfl rfl rfl rfl
    cases hb
    exact h.unsynced hin hn
  | @drop p b hp h1 =>
    have h2 : Io (s.setBuf b { s.buf b with refcnt := (s.buf b).refcnt - 1 }) := h.setRefcnt rfl rfl rfl rfl rfl rfl
    exact h2.leave hp (fun b' hb => by cases hb) (fun _ => id) rfl rfl rfl rfl rfl rfl
  | @dropLast p b hp h1 =>
    have h2 : Io (s.setBuf b { s.buf b with refcnt := (s.buf b).refcnt - 1 }) := h.setRefcnt rfl rfl rfl rfl rfl rfl
    exact h2.leave hp (fun b' hb => by cases hb) (fun _ => id) rfl rfl rfl rfl rfl rfl
  | @finish c error hd =>
    have herr : error = false := hG
    rw [herr]
    exact h.finish hd
  | spurious hd hq =>
    obtain ⟨b, q, hq', -⟩ := h.done hd
    rw [hq] at hq'
    cases hq'
  | @serve latch b hd hq => exact h.serve hq ⟨rfl, rfl⟩ rfl rfl rfl rfl (.inl ⟨rfl, rfl⟩)
  | @serveNext latch b b' q hd hq hn => exact h.serve hq ⟨rfl, rfl⟩ rfl rfl rfl rfl (.inr ⟨b', q, rfl, rfl⟩)

end Io

/-! ## Coherence -/

structure Coherent (s : State n P D) : Prop where
  /-- who is past `bread` has the data -/
  valid : ∀ {p b}, s.lock b = some p → ¬ (s.pc p).Works b → (s.buf b).valid = true
  works : ∀ {p b}, (s.pc p).Works b → s.touched b = false
  touched : ∀ {b}, s.touched b = true → (s.buf b).valid = true ∧ ∃ p, s.lock b = some p
  dirty : ∀ {b}, (s.buf b).dirty = true → (s.buf b).valid = true
  clean : ∀ {b}, (s.buf b).valid = true → s.touched b = false → (s.buf b).data = s.cur (s.buf b).dev (s.buf b).blockno
  disk : ∀ k, (∀ b, (s.buf b).dev = 1 → (s.buf b).blockno = k → (s.buf b).dirty = false) → s.disk 1 k = s.cur 1 k

namespace Coherent

omit [DecidableEq P] in
/-- The buffers and the disk stay as they are. -/
theorem same (h : Coherent s) (hbuf : ∀ b, (s'.buf b).valid = (s.buf b).valid ∧ (s'.buf b).dirty = (s.buf b).dirty ∧
      (s'.buf b).data = (s.buf b).data ∧ (s'.buf b).dev = (s.buf b).dev ∧ (s'.buf b).blockno = (s.buf b).blockno)
    (hdisk : s'.disk = s.disk) (hcur : s'.cur = s.cur) (htouched : s'.touched = s.touched)
    (hvalid : ∀ p b, s'.lock b = some p → ¬ (s'.pc p).Works b → (s.buf b).valid = true)
    (hworks : ∀ p b, (s'.pc p).Works b → s.touched b = false)
    (hlock : ∀ b, s.touched b = true → ∃ p, s'.lock b = some p) : Coherent s' := by
  constructor
  · intro p b hl hp
    rw [(hbuf b).1]
    exact hvalid p b hl hp
  · intro p b hp
    rw [htouched]
    exact hworks p b hp
  · intro b ht
    rw [htouched] at ht
    rw [(hbuf b).1]
    exact ⟨(h.touched ht).1, hlock b ht⟩
  · intro b hd
    rw [(hbuf b).2.1] at hd
    rw [(hbuf b).1]
    exact h.dirty hd
  · intro b hv ht
    obtain ⟨h1, -, h3, h4, h5⟩ := hbuf b
    rw [h1] at hv
    rw [htouched] at ht
    rw [h3, h4, h5, hcur]
    exact h.clean hv ht
  · intro k hk
    rw [hdisk, hcur]
    apply h.disk k
    intro b hdev hblock
    obtain ⟨-, h2, -, h4, h5⟩ := hbuf b
    rw [← h2]
    exact hk b (by rw [h4]; exact hdev) (by rw [h5]; exact hblock)

/-- A process moves. -/
theorem go (h : Coherent s) {p : P} {x y : Pc n} (hpc : s'.pc = Function.update s.pc p x) (hp : s.pc p = y)
    (hvalid : ∀ b, y.Works b → ¬ x.Works b → (s.buf b).valid = true)
    (hworks : ∀ b, x.Works b → y.Works b ∨ s.touched b = false) (hbuf : s'.buf = s.buf) (hdisk : s'.disk = s.disk)
    (hcur : s'.cur = s.cur) (htouched : s'.touched = s.touched) (hlock : s'.lock = s.lock) : Coherent s' := by
  have hself : s'.pc p = x := by rw [hpc, Function.update_self]
  have hne : ∀ {q}, q ≠ p → s'.pc q = s.pc q := fun hq => by rw [hpc, Function.update_of_ne hq]
  refine h.same (fun b => by rw [hbuf]; exact ⟨rfl, rfl, rfl, rfl, rfl⟩) hdisk hcur htouched ?_ ?_ ?_
  · intro q b hl hq
    rw [hlock] at hl
    by_cases hqp : q = p
    · rw [hqp, hself] at hq
      rw [hqp] at hl
      by_cases hw : y.Works b
      · exact hvalid b hw hq
      · exact h.valid hl (by rw [hp]; exact hw)
    · rw [hne hqp] at hq
      exact h.valid hl hq
  · intro q b hq
    by_cases hqp : q = p
    · rw [hqp, hself] at hq
      rcases hworks b hq with hw | ht
      · exact h.works (p := p) (by rw [hp]; exact hw)
      · exact ht
    · rw [hne hqp] at hq
      exact h.works hq
  · intro b ht
    rw [hlock]
    exact (h.touched ht).2

omit [DecidableEq P] in
/-- `b->data` is modified by the process that has `b`. -/
theorem modify (h : Coherent s) (hI : Io s) {p : P} {b : Fin n} {data : D} (hp : s.pc p = .out)
    (hl : s.lock b = some p) : Coherent (s.modify b data) := by
  have hself : (s.modify b data).buf b = { s.buf b with data := data } := Function.update_self ..
  have hne : ∀ {b'}, b' ≠ b → (s.modify b data).buf b' = s.buf b' := fun hb => Function.update_of_ne hb ..
  have htself : (s.modify b data).touched b = true := Function.update_self ..
  have htne : ∀ {b'}, b' ≠ b → (s.modify b data).touched b' = s.touched b' := fun hb => Function.update_of_ne hb ..
  have hv : (s.buf b).valid = true := h.valid hl (by rw [hp]; exact id)
  constructor
  · intro q b' hlq hq
    by_cases hb : b' = b
    · rw [hb, hself]
      exact hv
    · rw [hne hb]
      exact h.valid hlq hq
  · intro q b' hq
    have hq' : (s.pc q).Works b' := hq
    have hb : b' ≠ b := by
      rintro rfl
      have hqp := hI.works_unique hl hq'
      rw [hqp, hp] at hq'
      exact hq'
    rw [htne hb]
    exact h.works hq'
  · intro b' ht
    by_cases hb : b' = b
    · rw [hb, hself]
      exact ⟨hv, p, hl⟩
    · rw [htne hb] at ht
      rw [hne hb]
      exact h.touched ht
  · intro b' hd
    by_cases hb : b' = b
    · rw [hb, hself]
      exact hv
    · rw [hne hb] at hd ⊢
      exact h.dirty hd
  · intro b' hv' ht
    by_cases hb : b' = b
    · rw [hb, htself] at ht
      cases ht
    · rw [hne hb] at hv' ⊢
      rw [htne hb] at ht
      exact h.clean hv' ht
  · intro k hk
    apply h.disk k
    intro b' hdev hblock
    have hk' := hk b'
    by_cases hb : b' = b
    · rw [hb, hself] at hk'
      rw [hb] at hdev hblock ⊢
      exact hk' hdev hblock
    · rw [hne hb] at hk'
      exact hk' hdev hblock

/-- `B_DIRTY` is set by the process that has `b`. -/
theorem mark (h : Coherent s) (hA : Addr fssize s) (hR : Refs s) {p : P} {b : Fin n} (hp : s.pc p = .out)
    (hl : s.lock b = some p) : Coherent (s.mark b) := by
  have hself : (s.mark b).buf b = { s.buf b with dirty := true } := Function.update_self ..
  have hne : ∀ {b'}, b' ≠ b → (s.mark b).buf b' = s.buf b' := fun hb => Function.update_of_ne hb ..
  have htself : (s.mark b).touched b = false := Function.update_self ..
  have htne : ∀ {b'}, b' ≠ b → (s.mark b).touched b' = s.touched b' := fun hb => Function.update_of_ne hb ..
  have hv : (s.buf b).valid = true := h.valid hl (by rw [hp]; exact id)
  have hdev := hA.dev_eq_one hR (hR.mem_of_lock hl)
  -- the contents of the other blocks stay
  have hcur : ∀ k, k ≠ (s.buf b).blockno → (s.mark b).cur 1 k = s.cur 1 k := by
    intro k hk
    show Function.update s.cur (s.buf b).dev _ 1 k = _
    rw [hdev, Function.update_self, Function.update_of_ne hk]
  constructor
  · intro q b' hlq hq
    by_cases hb : b' = b
    · rw [hb, hself]
      exact hv
    · rw [hne hb]
      exact h.valid hlq hq
  · intro q b' hq
    by_cases hb : b' = b
    · rw [hb]
      exact htself
    · rw [htne hb]
      exact h.works hq
  · intro b' ht
    by_cases hb : b' = b
    · rw [hb, htself] at ht
      cases ht
    · rw [htne hb] at ht
      rw [hne hb]
      exact h.touched ht
  · intro b' hd
    by_cases hb : b' = b
    · rw [hb, hself]
      exact hv
    · rw [hne hb] at hd ⊢
      exact h.dirty hd
  · intro b' hv' ht
    by_cases hb : b' = b
    · rw [hb, hself]
      show (s.buf b).data = Function.update s.cur (s.buf b).dev _ (s.buf b).dev (s.buf b).blockno
      rw [Function.update_self, Function.update_self]
    · rw [hne hb] at hv' ⊢
      rw [htne hb] at ht
      have hdev' : (s.buf b').dev = 1 := by
        rcases hA.root b' with h0 | ⟨h1, -⟩
        · rw [(hA.fresh b' h0).1] at hv'
          cases hv'
        · exact h1
      have hk : (s.buf b').blockno ≠ (s.buf b).blockno := fun heq => hb (hA.unique b' b hdev' hdev heq)
      rw [hdev', hcur _ hk, ← hdev']
      exact h.clean hv' ht
  · intro k hk
    -- the block of `b` has a dirty buffer now
    have hkb : k ≠ (s.buf b).blockno := by
      rintro rfl
      have hd := hk b (by rw [hself]; exact hdev) (by rw [hself])
      rw [hself] at hd
      cases hd
    rw [hcur k hkb]
    apply h.disk k
    intro b' hdev' hblock
    have hb : b' ≠ b := by
      rintro rfl
      exact hkb hblock.symm
    have hk' := hk b'
    rw [hne hb] at hk'
    exact hk' hdev' hblock

/-- A buffer that nobody refers to gets another block. -/
theorem recycle (h : Coherent s) {p : P} {b : Fin n} {blockno : ℕ} (hfree : s.lock b = none)
    (hclean : (s.buf b).dirty = false) (hp : s.pc p = .out) : Coherent (s.recycle p b 1 blockno) := by
  have hself : (s.recycle p b 1 blockno).buf b = ⟨1, blockno, false, false, 1, (s.buf b).data⟩ :=
    Function.update_self ..
  have hne : ∀ {b'}, b' ≠ b → (s.recycle p b 1 blockno).buf b' = s.buf b' := fun hb => Function.update_of_ne hb ..
  have hpc : ∀ {q b'}, ((s.recycle p b 1 blockno).pc q).Works b' ↔ (s.pc q).Works b' := by
    intro q b'
    by_cases hqp : q = p
    · have hq : (s.recycle p b 1 blockno).pc p = .locking b 1 blockno := Function.update_self ..
      rw [hqp, hq, hp]
      exact Iff.rfl
    · have hq : (s.recycle p b 1 blockno).pc q = s.pc q := Function.update_of_ne hqp ..
      rw [hq]
  have hlb : ∀ {q b'}, s.lock b' = some q → b' ≠ b := by
    rintro q b' hl rfl
    rw [hfree] at hl
    cases hl
  constructor
  · intro q b' hl hq
    rw [hne (hlb hl)]
    exact h.valid hl fun hw => hq (hpc.2 hw)
  · intro q b' hq
    exact h.works (hpc.1 hq)
  · intro b' ht
    obtain ⟨hv, q, hl⟩ := h.touched ht
    rw [hne (hlb hl)]
    exact ⟨hv, q, hl⟩
  · intro b' hd
    by_cases hb : b' = b
    · rw [hb, hself] at hd
      cases hd
    · rw [hne hb] at hd ⊢
      exact h.dirty hd
  · intro b' hv ht
    by_cases hb : b' = b
    · rw [hb, hself] at hv
      cases hv
    · rw [hne hb] at hv ⊢
      exact h.clean hv ht
  · intro k hk
    apply h.disk k
    intro b' hdev hblock
    by_cases hb : b' = b
    · rw [hb]
      exact hclean
    · have hk' := hk b'
      rw [hne hb] at hk'
      exact hk' hdev hblock

/-- The first request is done. -/
theorem serve (h : Coherent s) (hA : Addr fssize s) (hR : Refs s) (hI : Io s) {b : Fin n} {q : List (Fin n)}
    {latch : Option D} (hd : s.drive = .done latch) (hq : s.idequeue = b :: q) : Coherent (s.serve b q latch) := by
  have hself : (s.serve b q latch).buf b = { s.buf b with
      valid := true
      dirty := false
      data := if (s.buf b).dirty then (s.buf b).data else latch.getD (s.buf b).data } := Function.update_self ..
  have hne : ∀ {b'}, b' ≠ b → (s.serve b q latch).buf b' = s.buf b' := fun hb => Function.update_of_ne hb ..
  obtain ⟨p, hl, hp⟩ := hI.locked (b := b) (by rw [hq]; simp)
  have hdev := hA.dev_eq_one hR (hR.mem_of_lock hl)
  have ht : s.touched b = false := h.works (p := p) (by rw [hp]; exact rfl)
  obtain ⟨b₀, q₀, hq₀, hdone⟩ := hI.done hd
  rw [hq] at hq₀
  cases hq₀
  rw [hdev] at hdone
  have hunit : 1 % 2 = 1 := rfl
  rw [hunit] at hdone
  -- `b` is the only buffer of its block
  have honly : ∀ b', (s.buf b').dev = 1 → (s.buf b').blockno = (s.buf b).blockno → b' = b :=
    fun b' h1 h2 => hA.unique b' b h1 hdev h2
  have hdisk : s.disk 1 (s.buf b).blockno = s.cur 1 (s.buf b).blockno := by
    cases hdirty : (s.buf b).dirty with
    | true =>
      have hclean := h.clean (h.dirty hdirty) ht
      rw [hdev] at hclean
      rw [hdone.1 hdirty, hclean]
    | false =>
      apply h.disk
      intro b' h1 h2
      rw [honly b' h1 h2]
      exact hdirty
  constructor
  · intro p' b' hl' hp'
    by_cases hb : b' = b
    · rw [hb, hself]
    · rw [hne hb]
      exact h.valid hl' hp'
  · exact h.works
  · intro b' ht'
    by_cases hb : b' = b
    · rw [hb] at ht'
      have ht'' : s.touched b = true := ht'
      rw [ht] at ht''
      cases ht''
    · rw [hne hb]
      exact h.touched ht'
  · intro b' hd'
    by_cases hb : b' = b
    · rw [hb, hself]
    · rw [hne hb] at hd' ⊢
      exact h.dirty hd'
  · intro b' hv ht'
    by_cases hb : b' = b
    · rw [hb, hself]
      show (if (s.buf b).dirty then (s.buf b).data else latch.getD (s.buf b).data) = s.cur (s.buf b).dev (s.buf b).blockno
      cases hdirty : (s.buf b).dirty with
      | true =>
        rw [if_pos rfl]
        exact h.clean (h.dirty hdirty) ht
      | false =>
        rw [if_neg (by simp), hdone.2 hdirty, Option.getD_some, hdev]
        exact hdisk
    · rw [hne hb] at hv ⊢
      exact h.clean hv ht'
  · intro k hk
    by_cases hkb : k = (s.buf b).blockno
    · rw [hkb]
      exact hdisk
    · apply h.disk k
      intro b' h1 h2
      have hb : b' ≠ b := by
        rintro rfl
        exact hkb h2.symm
      have hk' := hk b'
      rw [hne hb] at hk'
      exact hk' h1 h2

/-- The drive has executed its command. -/
theorem finish (h : Coherent s) (hA : Addr fssize s) (hR : Refs s) (hI : Io s) {c : Cmd D} (hd : s.drive = .busy c) :
    Coherent (s.finish c false) := by
  obtain ⟨b, q, hq, rfl⟩ := hI.busy hd
  obtain ⟨p, hl, -⟩ := hI.locked (b := b) (by rw [hq]; simp)
  have hdev := hA.dev_eq_one hR (hR.mem_of_lock hl)
  refine ⟨h.valid, h.works, h.touched, h.dirty, h.clean, ?_⟩
  intro k hk
  show ((s.buf b).cmd.exec s.disk).1 1 k = s.cur 1 k
  cases hdirty : (s.buf b).dirty with
  | true =>
    have hkb : k ≠ (s.buf b).blockno := by
      rintro rfl
      have hclean := hk b hdev rfl
      have hclean' : (s.buf b).dirty = false := hclean
      rw [hdirty] at hclean'
      cases hclean'
    have hunit : 1 % 2 = 1 := rfl
    rw [exec_dirty _ hdirty, hdev, hunit]
    show Function.update s.disk 1 (Function.update (s.disk 1) (s.buf b).blockno (s.buf b).data) 1 k = s.cur 1 k
    rw [Function.update_self, Function.update_of_ne hkb]
    exact h.disk k hk
  | false =>
    rw [exec_clean _ hdirty]
    exact h.disk k hk

theorem step (h : Coherent s) (hA : Addr fssize s) (hR : Refs s) (hI : Io s) (hlru : ∃ l, Lru s l)
    (hG : Proper fssize s e) (hs : Step fssize s e s') : Coherent s' := by
  have hrefcnt : ∀ {b : Fin n} {r : ℕ} (b' : Fin n), (Function.update s.buf b { s.buf b with refcnt := r } b').valid =
      (s.buf b').valid ∧ (Function.update s.buf b { s.buf b with refcnt := r } b').dirty = (s.buf b').dirty ∧
      (Function.update s.buf b { s.buf b with refcnt := r } b').data = (s.buf b').data ∧
      (Function.update s.buf b { s.buf b with refcnt := r } b').dev = (s.buf b').dev ∧
      (Function.update s.buf b { s.buf b with refcnt := r } b').blockno = (s.buf b').blockno := by
    intro b r b'
    by_cases hb : b' = b
    · rw [hb, Function.update_self]
      exact ⟨rfl, rfl, rfl, rfl, rfl⟩
    · rw [Function.update_of_ne hb]
      exact ⟨rfl, rfl, rfl, rfl, rfl⟩
  cases hs with
  | @hit p dev blockno b hp hb =>
    have h1 : Coherent (s.setBuf b { s.buf b with refcnt := (s.buf b).refcnt + 1 }) :=
      h.same hrefcnt rfl rfl rfl (fun q b' hl hq => h.valid hl hq) (fun q b' hq => h.works hq)
        fun b' ht => (h.touched ht).2
    exact h1.go rfl hp (fun b' hw => hw.elim) (fun b' hw => hw.elim) rfl rfl rfl rfl rfl
  | @recycle p dev blockno b hp hnone hb =>
    obtain ⟨l, hl⟩ := hlru
    obtain ⟨h0, hclean, -⟩ := hl.unused_some hb
    obtain ⟨rfl, -⟩ := hG
    exact h.recycle (hR.unused h0).2.1 hclean hp
  | modify hp hl => exact h.modify hI hp hl
  | @bwrite p b hp hl =>
    refine (h.mark hA hR hp hl).go rfl hp (fun b' hw => hw.elim) ?_ rfl rfl rfl rfl rfl
    rintro b' ⟨⟩
    exact .inr (Function.update_self ..)
  | log_write hp hl => exact h.mark hA hR hp hl
  | @releasesleep p b hp hl =>
    have hlock : ∀ {b'}, b' ≠ b → (s.releasesleep p b).lock b' = s.lock b' := fun hb => Function.update_of_ne hb ..
    have hfree : (s.releasesleep p b).lock b = none := Function.update_self ..
    have hpc : ∀ {q b'}, ((s.releasesleep p b).pc q).Works b' ↔ (s.pc q).Works b' := by
      intro q b'
      by_cases hqp : q = p
      · have hq : (s.releasesleep p b).pc p = .releasing b := Function.update_self ..
        rw [hqp, hq, hp]
        exact Iff.rfl
      · have hq : (s.releasesleep p b).pc q = s.pc q := Function.update_of_ne hqp ..
        rw [hq]
    refine h.same (fun _ => ⟨rfl, rfl, rfl, rfl, rfl⟩) rfl rfl rfl ?_ ?_ ?_
    · intro q b' hlq hq
      have hb : b' ≠ b := by
        rintro rfl
        rw [hfree] at hlq
        cases hlq
      rw [hlock hb] at hlq
      exact h.valid hlq fun hw => hq (hpc.2 hw)
    · exact fun q b' hq => h.works (hpc.1 hq)
    · intro b' ht
      -- the caller has written what it modified
      have hb : b' ≠ b := by
        rintro rfl
        have ht' : s.touched b' = false := hG
        rw [ht'] at ht
        cases ht
      rw [hlock hb]
      exact (h.touched ht).2
  | @acquiresleep p b dev blockno hp hl =>
    have hlock : ∀ {b'}, b' ≠ b → (s.acquiresleep p b dev blockno).lock b' = s.lock b' :=
      fun hb => Function.update_of_ne hb ..
    have hpc : (s.acquiresleep p b dev blockno).pc p = .reading b := Function.update_self ..
    have hpcne : ∀ {q}, q ≠ p → (s.acquiresleep p b dev blockno).pc q = s.pc q := fun hq => Function.update_of_ne hq ..
    have hno : ∀ b', s.touched b' = true → b' ≠ b := by
      rintro b' ht rfl
      obtain ⟨q, hq⟩ := (h.touched ht).2
      rw [hl] at hq
      cases hq
    refine h.same (fun _ => ⟨rfl, rfl, rfl, rfl, rfl⟩) rfl rfl rfl ?_ ?_ ?_
    · intro q b' hlq hq
      by_cases hqp : q = p
      · rw [hqp, hpc] at hq
        have hb : b' ≠ b := fun hb => hq hb.symm
        rw [hlock hb, hqp] at hlq
        exact h.valid hlq (by rw [hp]; exact id)
      · rw [hpcne hqp] at hq
        have hb : b' ≠ b := by
          rintro rfl
          have hself : (s.acquiresleep p b' dev blockno).lock b' = some p := Function.update_self ..
          rw [hself] at hlq
          cases hlq
          exact hqp rfl
        rw [hlock hb] at hlq
        exact h.valid hlq hq
    · intro q b' hq
      by_cases hqp : q = p
      · rw [hqp, hpc] at hq
        have hb : b = b' := hq
        by_contra ht
        exact hno b' (by simpa using ht) hb.symm
      · rw [hpcne hqp] at hq
        exact h.works hq
    · intro b' ht
      rw [hlock (hno b' ht)]
      exact (h.touched ht).2
  | @valid p b hp hv =>
    refine h.go rfl hp ?_ (fun b' hw => hw.elim) rfl rfl rfl rfl rfl
    rintro b' ⟨⟩ _
    exact hv
  | @invalid p b hp hv =>
    exact h.go rfl hp (fun b' hw hn => absurd hw hn) (fun b' hw => .inl hw) rfl rfl rfl rfl rfl
  | @enqueue p b hp hl hn hq =>
    exact h.go rfl hp (fun b' hw hn => absurd hw hn) (fun b' hw => .inl hw) rfl rfl rfl rfl rfl
  | @start p b hp hl hn hq hb =>
    exact h.go rfl hp (fun b' hw hn => absurd hw hn) (fun b' hw => .inl hw) rfl rfl rfl rfl rfl
  | @synced p b hp hn =>
    refine h.go rfl hp ?_ (fun b' hw => hw.elim) rfl rfl rfl rfl rfl
    rintro b' ⟨⟩ _
    exact hn.1
  | @drop p b hp h1 =>
    have h2 : Coherent (s.setBuf b { s.buf b with refcnt := (s.buf b).refcnt - 1 }) :=
      h.same hrefcnt rfl rfl rfl (fun q b' hl hq => h.valid hl hq) (fun q b' hq => h.works hq)
        fun b' ht => (h.touched ht).2
    exact h2.go rfl hp (fun b' hw => hw.elim) (fun b' hw => hw.elim) rfl rfl rfl rfl rfl
  | @dropLast p b hp h1 =>
    have h2 : Coherent (s.setBuf b { s.buf b with refcnt := (s.buf b).refcnt - 1 }) :=
      h.same hrefcnt rfl rfl rfl (fun q b' hl hq => h.valid hl hq) (fun q b' hq => h.works hq)
        fun b' ht => (h.touched ht).2
    exact h2.go rfl hp (fun b' hw => hw.elim) (fun b' hw => hw.elim) rfl rfl rfl rfl rfl
  | @finish c error hd =>
    have herr : error = false := hG
    rw [herr]
    exact h.finish hA hR hI hd
  | spurious hd hq => exact ⟨h.valid, h.works, h.touched, h.dirty, h.clean, h.disk⟩
  | serve hd hq => exact h.serve hA hR hI hd hq
  | @serveNext latch b b' q hd hq hn =>
    have h1 := h.serve hA hR hI hd hq
    exact ⟨h1.valid, h1.works, h1.touched, h1.dirty, h1.clean, h1.disk⟩

end Coherent

/-! ## The runs -/

/-- The invariants of the runs whose callers keep their promises. -/
structure Inv (fssize : ℕ) (s : State n P D) : Prop where
  lru : ∃ l, Lru s l
  refs : Refs s
  addr : Addr fssize s
  io : Io s
  coherent : Coherent s

theorem Inv.step (h : Inv fssize s) (hG : Proper fssize s e) (hs : Step fssize s e s') : Inv fssize s' where
  lru := by
    obtain ⟨l, hl⟩ := h.lru
    exact hl.step hs
  refs := h.refs.step h.lru hs
  addr := h.addr.step h.refs h.lru (fun b hb => (h.io.locked hb).imp fun _ hp => hp.1) hG hs
  io := h.io.step h.refs h.lru hG hs
  coherent := h.coherent.step h.addr h.refs h.io h.lru hG hs

variable {zero : D} {disk : ℕ → ℕ → D} {es : List (Event n P D)}

theorem boot_inv (zero : D) (disk : ℕ → ℕ → D) : Inv fssize (boot n P zero disk) where
  lru := ⟨_, boot_lru zero disk⟩
  refs := boot_refs zero disk
  addr :=
    { root := fun _ => .inl rfl
      fresh := fun _ _ => ⟨rfl, rfl, rfl⟩
      unique := fun _ _ h1 => by cases h1
      locking := fun hp => by cases hp
      asked := fun hl => by cases hl }
  io :=
    { holder := fun hp => hp.elim
      nodup := List.nodup_nil
      queued := fun hb => by cases hb
      waits := fun hp => by cases hp
      unsynced := fun hb => by cases hb
      starting := fun hp => by cases hp
      idle := fun _ => rfl
      busy := fun hc => by cases hc
      done := fun hd => by cases hd }
  coherent :=
    { valid := fun hl => by cases hl
      works := fun hp => hp.elim
      touched := fun ht => by cases ht
      dirty := fun hd => by cases hd
      clean := fun hv => by cases hv
      disk := fun _ _ => rfl }

theorem inv_run (hG : (cache fssize havedisk1 n P D).Guarded (Proper fssize) (boot n P zero disk) es)
    (h : (cache fssize havedisk1 n P D).run (boot n P zero disk) es = some (.ok s)) : Inv fssize s :=
  Machine.guarded_inv (I := Inv fssize) (boot_inv zero disk) (fun _ _ _ hI hg hs => hI.step hg (step_ok hs)) hG h

/-- **One buffer for a block.** At most one buffer has a block, `refcnt` counts who refers to a buffer, and who has
a buffer has the one of the block it asked for. -/
theorem one_buffer_per_block (hG : (cache fssize havedisk1 n P D).Guarded (Proper fssize) (boot n P zero disk) es)
    (h : (cache fssize havedisk1 n P D).run (boot n P zero disk) es = some (.ok s)) :
    (∀ b b', (s.buf b).dev ≠ 0 → (s.buf b).dev = (s.buf b').dev → (s.buf b).blockno = (s.buf b').blockno → b = b') ∧
    (∀ b, (s.buf b).refcnt = (s.users b).card ∧ ∀ p, (s.users b).count p =
      (if s.lock b = some p then 1 else 0) + if (s.pc p).Refers b then 1 else 0) ∧
    ∀ p b, s.lock b = some p → s.asked b = ((s.buf b).dev, (s.buf b).blockno) := by
  have hI := inv_run hG h
  refine ⟨fun b b' h0 hdev hblock => ?_, fun b => ⟨hI.refs.refcnt b, hI.refs.count b⟩, fun p b hl => hI.addr.asked hl⟩
  have h1 : (s.buf b).dev = 1 := ((hI.addr.root b).resolve_left h0).1
  exact hI.addr.unique b b' h1 (by rw [← hdev]; exact h1) hblock

/-- Process 0 reads block 3 and modifies it. -/
def oneWrite : List (Event 2 ℕ ℕ) := oneRead ++ [.modify 0 0 7, .log_write 0 0]

theorem oneWrite_proper : (cache 10 true 2 ℕ ℕ).Guarded (Proper 10) (boot 2 ℕ 0 fun _ _ => 0) oneWrite :=
  Machine.guarded_of_check (by decide)

theorem one_buffer_per_block_write : ∃ s, (cache 10 true 2 ℕ ℕ).run (boot 2 ℕ 0 fun _ _ => 0) oneWrite = some (.ok s) ∧
    s.lock 0 = some 0 ∧ (s.buf 0).refcnt = (s.users 0).card ∧ s.asked 0 = ((s.buf 0).dev, (s.buf 0).blockno) := by
  obtain ⟨s, hs, hl⟩ : ∃ s, (cache 10 true 2 ℕ ℕ).run (boot 2 ℕ 0 fun _ _ => 0) oneWrite = some (.ok s) ∧
      s.lock 0 = some 0 := Machine.run_of_reaches (by decide)
  have h := one_buffer_per_block oneWrite_proper hs
  exact ⟨s, hs, hl, (h.2.1 0).1, h.2.2 0 0 hl⟩

/-- **The cache is coherent**: who has a buffer after `bread` has the contents of its block, and a block without a
dirty buffer has them on the disk. -/
theorem cache_coherent (hG : (cache fssize havedisk1 n P D).Guarded (Proper fssize) (boot n P zero disk) es)
    (h : (cache fssize havedisk1 n P D).run (boot n P zero disk) es = some (.ok s)) :
    (∀ p b, s.lock b = some p → ¬ (s.pc p).Works b → (s.buf b).valid = true ∧
      (s.touched b = false → (s.buf b).data = s.cur (s.buf b).dev (s.buf b).blockno)) ∧
    ∀ k, (∀ b, (s.buf b).dev = 1 → (s.buf b).blockno = k → (s.buf b).dirty = false) → s.disk 1 k = s.cur 1 k := by
  have hC := (inv_run hG h).coherent
  refine ⟨fun p b hl hp => ?_, hC.disk⟩
  have hv := hC.valid hl hp
  exact ⟨hv, hC.clean hv⟩

theorem cache_coherent_write : ∃ s, (cache 10 true 2 ℕ ℕ).run (boot 2 ℕ 0 fun _ _ => 0) oneWrite = some (.ok s) ∧
    s.lock 0 = some 0 ∧ (s.buf 0).data = s.cur (s.buf 0).dev (s.buf 0).blockno := by
  obtain ⟨s, hs, hl, hp, ht⟩ : ∃ s, (cache 10 true 2 ℕ ℕ).run (boot 2 ℕ 0 fun _ _ => 0) oneWrite = some (.ok s) ∧
      s.lock 0 = some 0 ∧ s.pc 0 = .out ∧ s.touched 0 = false := Machine.run_of_reaches (by decide)
  have h := cache_coherent oneWrite_proper hs
  exact ⟨s, hs, hl, (h.1 0 0 hl (by rw [hp]; exact id)).2 ht⟩

/-! ## Panics -/

omit [DecidableEq P] in
theorem idestart_panic {b : Fin n} {f : Panic} (h : idestart fssize s b = .error f) :
    f = .blockno ∧ fssize ≤ (s.buf b).blockno := by
  unfold idestart at h
  split at h
  · rename_i hn
    cases h
    exact ⟨rfl, hn⟩
  · cases h

/-- A buffer that somebody has is one of a block of the disk. -/
theorem Inv.blockno_lt (h : Inv fssize s) {b : Fin n} {p : P} (hl : s.lock b = some p) : (s.buf b).blockno < fssize := by
  have hdev := h.addr.dev_eq_one h.refs (h.refs.mem_of_lock hl)
  rcases h.addr.root b with h0 | ⟨-, hn⟩
  · omega
  · exact hn

/-- What a step can panic for. -/
theorem Inv.panics (h : Inv fssize s) {f : Panic} (hs : (cache fssize havedisk1 n P D).step s e = some (.error f)) :
    f = .noBuffers ∧ (∀ b, (s.buf b).refcnt ≠ 0 ∨ (s.buf b).dirty = true) ∨
    f = .bwrite ∧ (∃ p b, e = .bwrite p b ∧ s.lock b ≠ some p) ∨
    f = .brelse ∧ (∃ p b, e = .brelse p b ∧ s.lock b ≠ some p) ∨ f = .noDisk ∧ havedisk1 = false := by
  cases e with
  | bread p dev blockno =>
    simp only [cache, Cache.step] at hs
    split at hs
    · simp only [bget, Option.some.injEq] at hs
      split at hs
      · cases hs
      · split at hs
        · cases hs
        · rename_i hu
          cases hs
          obtain ⟨l, hl⟩ := h.lru
          exact .inl ⟨rfl, hl.unused_none.1 hu⟩
    · cases hs
  | modify p b data =>
    simp only [cache, Cache.step] at hs
    split at hs <;> cases hs
  | bwrite p b =>
    simp only [cache, Cache.step] at hs
    split at hs
    · split at hs
      · cases hs
      · rename_i hl
        cases hs
        exact .inr (.inl ⟨rfl, p, b, rfl, hl⟩)
    · cases hs
  | log_write p b =>
    simp only [cache, Cache.step] at hs
    split at hs <;> cases hs
  | brelse p b =>
    simp only [cache, Cache.step] at hs
    split at hs
    · split at hs
      · cases hs
      · rename_i hl
        cases hs
        exact .inr (.inr (.inl ⟨rfl, p, b, rfl, hl⟩))
    · cases hs
  | run p =>
    simp only [cache, Cache.step, advance] at hs
    cases hp : s.pc p with
    | starting b =>
      rw [hp] at hs
      simp only [iderw, Option.some.injEq] at hs
      have hl : s.lock b = some p := h.io.holder (by rw [hp]; exact rfl)
      split at hs
      · rename_i hno
        exact absurd hl hno
      · split at hs
        · rename_i hsync
          exact absurd hsync (h.io.starting hp)
        · split at hs
          · rename_i hd
            cases hs
            exact .inr (.inr (.inr ⟨rfl, hd.2⟩))
          · split at hs
            · obtain ⟨-, hn⟩ := idestart_panic hs
              have hlt := h.blockno_lt hl
              exact absurd hlt (not_lt.2 hn)
            · cases hs
    | out => rw [hp] at hs; cases hs
    | locking b dev blockno =>
      rw [hp] at hs
      simp only at hs
      split at hs <;> cases hs
    | reading b =>
      rw [hp] at hs
      simp only at hs
      split at hs <;> cases hs
    | waiting b =>
      rw [hp] at hs
      simp only at hs
      split at hs <;> cases hs
    | releasing b => rw [hp] at hs; cases hs
  | finish error =>
    simp only [cache, Cache.step] at hs
    split at hs <;> cases hs
  | intr =>
    simp only [cache, Cache.step] at hs
    split at hs
    · simp only [ideintr, Option.some.injEq] at hs
      split at hs
      · cases hs
      · cases hs
      · rename_i latch hd queue b b' q hq
        obtain ⟨-, hn⟩ := idestart_panic hs
        -- the next request is for a block of the disk too
        obtain ⟨p, hl, -⟩ := h.io.locked (b := b') (by rw [hq]; simp)
        have hb : b' ≠ b := by
          have hnd := h.io.nodup
          rw [hq] at hnd
          rintro rfl
          simp at hnd
        have hbuf : (s.serve b (b' :: q) latch).buf b' = s.buf b' := Function.update_of_ne hb ..
        rw [hbuf] at hn
        exact absurd (h.blockno_lt hl) (not_lt.2 hn)
    · cases hs

/-- **What the cache panics for**: `bget` for a want of buffers, when all of them are referred to or dirty, `bwrite` and
`brelse` for a caller that has not got the buffer; never the disk driver, where there is a disk 1. -/
theorem only_panics (hG : (cache fssize havedisk1 n P D).Guarded (Proper fssize) (boot n P zero disk) es) {f : Panic}
    (h : (cache fssize havedisk1 n P D).run (boot n P zero disk) es = some (.error f)) :
    ∃ es' e s, es = es' ++ [e] ∧ (cache fssize havedisk1 n P D).run (boot n P zero disk) es' = some (.ok s) ∧
      (f = .noBuffers ∧ (∀ b, (s.buf b).refcnt ≠ 0 ∨ (s.buf b).dirty = true) ∨
        f = .bwrite ∧ (∃ p b, e = .bwrite p b ∧ s.lock b ≠ some p) ∨
        f = .brelse ∧ (∃ p b, e = .brelse p b ∧ s.lock b ≠ some p) ∨ f = .noDisk ∧ havedisk1 = false) := by
  obtain ⟨es', e, s, rfl, hrun, hstep⟩ := Machine.run_fault h
  exact ⟨es', e, s, rfl, hrun, (inv_run hG.init hrun).panics hstep⟩

/-- A second block with one buffer. -/
def noBuffer : List (Event 1 ℕ ℕ) := [.bread 0 1 3, .bread 1 1 4]

theorem only_panics_noBuffer : ∃ es' e s, noBuffer = es' ++ [e] ∧
    (cache 10 true 1 ℕ ℕ).run (boot 1 ℕ 0 fun _ _ => 0) es' = some (.ok s) ∧
    ∀ b, (s.buf b).refcnt ≠ 0 ∨ (s.buf b).dirty = true := by
  have hG : (cache 10 true 1 ℕ ℕ).Guarded (Proper 10) (boot 1 ℕ 0 fun _ _ => 0) noBuffer :=
    Machine.guarded_of_check (by decide)
  obtain ⟨es', e, s, hes, hs, hf⟩ := only_panics hG (f := .noBuffers) (Machine.run_of_faults (by decide))
  refine ⟨es', e, s, hes, hs, ?_⟩
  rcases hf with hf | hf | hf | hf
  · exact hf.2
  · cases hf.1
  · cases hf.1
  · cases hf.1

/-! ## The queue of the disk -/

def Event.isIntr : Event n P D → Bool
  | .intr => true
  | _ => false

/-- The request of `b` has been served, and its process can go on. -/
def Served (s : State n P D) (b : Fin n) : Prop := (s.buf b).Synced ∧ ∃ p, s.lock b = some p ∧ s.pc p = .waiting b

/-- An interrupt takes the first request off the queue; nothing else does. -/
theorem Inv.queue_step (h : Inv fssize s) (hs : Step fssize s e s') :
    (e.isIntr = true ∧ ∃ b q, s.idequeue = b :: q ∧ s'.idequeue = q ∧ Served s' b) ∨
      (e.isIntr = false ∧ ∃ q, s'.idequeue = s.idequeue ++ q) := by
  have hserved : ∀ {b q latch}, s.idequeue = b :: q → Served (s.serve b q latch) b := by
    intro b q latch hq
    refine ⟨?_, h.io.locked (b := b) (by rw [hq]; simp)⟩
    have hself : (s.serve b q latch).buf b = _ := Function.update_self ..
    rw [hself]
    exact ⟨rfl, rfl⟩
  have hsame : s.idequeue = s.idequeue ++ [] := (List.append_nil _).symm
  cases hs with
  | @serve latch b hd hq => exact .inl ⟨rfl, b, [], hq, rfl, hserved hq⟩
  | @serveNext latch b b' q hd hq hn => exact .inl ⟨rfl, b, b' :: q, hq, rfl, hserved hq⟩
  | @spurious latch hd hq =>
    -- the drive has executed the first request
    obtain ⟨b, q, hq', -⟩ := h.io.done hd
    rw [hq] at hq'
    cases hq'
  | @enqueue p b hp hl hn hq => exact .inr ⟨rfl, [b], rfl⟩
  | @start p b hp hl hn hq hb => exact .inr ⟨rfl, [b], rfl⟩
  | @finish c error hd => refine .inr ⟨rfl, [], ?_⟩; unfold State.finish; split <;> exact hsame
  | _ => exact .inr ⟨rfl, [], hsame⟩

theorem Inv.queue_run {q₁ q₂ : List (Fin n)} {b : Fin n} (hI : Inv fssize s)
    (hG : (cache fssize havedisk1 n P D).Guarded (Proper fssize) s es)
    (h : (cache fssize havedisk1 n P D).run s es = some (.ok s')) (hq : s.idequeue = q₁ ++ b :: q₂) :
    (es.countP Event.isIntr ≤ q₁.length ∧ ∃ q, s'.idequeue = q₁.drop (es.countP Event.isIntr) ++ b :: q) ∨
      (q₁.length < es.countP Event.isIntr ∧ ∃ es₁ es₂ t, es = es₁ ++ .intr :: es₂ ∧
        es₁.countP Event.isIntr = q₁.length ∧
        (cache fssize havedisk1 n P D).run s (es₁ ++ [.intr]) = some (.ok t) ∧ Served t b) := by
  induction es generalizing s q₁ q₂ with
  | nil =>
    cases h
    exact .inl ⟨Nat.zero_le _, q₂, hq⟩
  | cons e es ih =>
    obtain ⟨s₁, hstep, hrun⟩ := Machine.run_cons_ok.1 h
    have hone : (cache fssize havedisk1 n P D).run s [e] = some (.ok s₁) := Machine.run_cons hstep []
    have hG' : (cache fssize havedisk1 n P D).Guarded (Proper fssize) s ([e] ++ es) := hG
    have hG₁ : (cache fssize havedisk1 n P D).Guarded (Proper fssize) s₁ es := hG'.drop hone
    have hI₁ : Inv fssize s₁ := hI.step (hG [] e es s rfl rfl) (step_ok hstep)
    rcases hI.queue_step (step_ok hstep) with ⟨he, b₁, q, hq₁, hq', hserved⟩ | ⟨he, q, hq'⟩
    · have hintr : e = .intr := by cases e <;> first | rfl | cases he
      subst hintr
      rw [hq] at hq₁
      cases q₁ with
      | nil =>
        -- the request of `b` is the first
        cases hq₁
        exact .inr ⟨by simp [Event.isIntr], [], es, s₁, rfl, rfl, hone, hserved⟩
      | cons b₀ q₁ =>
        cases hq₁
        rcases ih hI₁ hG₁ hrun hq' with ⟨hle, q, hdrop⟩ | ⟨hlt, es₁, es₂, t, rfl, hcount, ht, hserved⟩
        · exact .inl ⟨by simp [he]; omega, q, by simpa [he] using hdrop⟩
        · refine .inr ⟨by simp [he] at hlt ⊢; omega, .intr :: es₁, es₂, t, rfl, by simp [he, hcount], ?_, hserved⟩
          exact (Machine.run_cons hstep _).trans ht
    · rw [hq, List.append_assoc, List.cons_append] at hq'
      rcases ih hI₁ hG₁ hrun hq' with ⟨hle, q, hdrop⟩ | ⟨hlt, es₁, es₂, t, rfl, hcount, ht, hserved⟩
      · exact .inl ⟨by simpa [he] using hle, q, by simpa [he] using hdrop⟩
      · refine .inr ⟨by simpa [he] using hlt, e :: es₁, es₂, t, rfl, by simp [he, hcount], ?_, hserved⟩
        exact (Machine.run_cons hstep _).trans ht

/-- **First come, first served**: the drive works as long as there is a request, every interrupt takes the first one
off the queue, and the one after `q₁` is served by the interrupt number `q₁.length + 1`, whatever the processes do. -/
theorem disk_serves {es' : List (Event n P D)} {q₁ q₂ : List (Fin n)} {b : Fin n}
    (hG : (cache fssize havedisk1 n P D).Guarded (Proper fssize) (boot n P zero disk) (es ++ es'))
    (h : (cache fssize havedisk1 n P D).run (boot n P zero disk) es = some (.ok s))
    (h' : (cache fssize havedisk1 n P D).run s es' = some (.ok s')) (hq : s.idequeue = q₁ ++ b :: q₂) :
    s.drive ≠ .idle ∧
    ((es'.countP Event.isIntr ≤ q₁.length ∧ ∃ q, s'.idequeue = q₁.drop (es'.countP Event.isIntr) ++ b :: q) ∨
      (q₁.length < es'.countP Event.isIntr ∧ ∃ es₁ es₂ t, es' = es₁ ++ .intr :: es₂ ∧
        es₁.countP Event.isIntr = q₁.length ∧
        (cache fssize havedisk1 n P D).run s (es₁ ++ [.intr]) = some (.ok t) ∧ Served t b)) := by
  have hI := inv_run hG.take h
  refine ⟨fun hd => ?_, hI.queue_run (hG.drop h) h' hq⟩
  have hnil := hI.io.idle hd
  rw [hq] at hnil
  simp at hnil

/-- Two processes wait for the disk. -/
def twoReads : List (Event 2 ℕ ℕ) :=
  [.bread 0 1 3, .run 0, .run 0, .run 0, .bread 1 1 4, .run 1, .run 1, .run 1]

/-- The drive executes both requests. -/
def bothServed : List (Event 2 ℕ ℕ) := [.finish false, .intr, .finish false, .intr]

theorem disk_serves_two : ∃ s, (cache 10 true 2 ℕ ℕ).run (boot 2 ℕ 0 fun _ _ => 0) twoReads = some (.ok s) ∧
    s.idequeue = [0, 1] ∧ s.drive ≠ .idle ∧ ∃ es₁ es₂ t, bothServed = es₁ ++ .intr :: es₂ ∧
      es₁.countP Event.isIntr = 1 ∧ (cache 10 true 2 ℕ ℕ).run s (es₁ ++ [.intr]) = some (.ok t) ∧ Served t 1 := by
  have hG : (cache 10 true 2 ℕ ℕ).Guarded (Proper 10) (boot 2 ℕ 0 fun _ _ => 0) (twoReads ++ bothServed) :=
    Machine.guarded_of_check (by decide)
  obtain ⟨s, hs, hq⟩ : ∃ s, (cache 10 true 2 ℕ ℕ).run (boot 2 ℕ 0 fun _ _ => 0) twoReads = some (.ok s) ∧
      s.idequeue = [0, 1] := Machine.run_of_reaches (by decide)
  obtain ⟨s', hs', -⟩ : ∃ s', (cache 10 true 2 ℕ ℕ).run (boot 2 ℕ 0 fun _ _ => 0) (twoReads ++ bothServed) =
      some (.ok s') ∧ s'.idequeue = [] := Machine.run_of_reaches (by decide)
  rw [Machine.run_append hs] at hs'
  have hq' : s.idequeue = [0] ++ 1 :: [] := hq
  obtain ⟨hd, ⟨hle, -⟩ | ⟨-, es₁, es₂, t, hes, hcount, ht, hserved⟩⟩ :=
    disk_serves hG hs hs' hq'
  · exact absurd hle (by decide)
  · exact ⟨s, hs, hq, hd, es₁, es₂, t, hes, hcount, ht, hserved⟩

end Xv6.Cache
