import Xv6.Cache.Lru

/-!
# References to buffers

* `Refs`: `refcnt` counts the processes that have the sleep lock of the buffer, wait for it, or have yet to count
  themselves out.
* `Addr`: at most one buffer has a block, and a process gets the buffer of the block it asked for.
* **`one_buffer_per_block`**: both in every state of every run, whatever is evicted meanwhile.
-/

namespace Xv6.Cache

variable {n : ℕ} {P D : Type*} [DecidableEq P] {s s' : State n P D} {e : Event n P D} {fssize : ℕ}
  {havedisk1 : Bool}

/-- The process refers to the buffer without having its lock. -/
def Pc.Refers : Pc n → Fin n → Prop
  | .locking b' _ _, b | .releasing b', b => b' = b
  | _, _ => False

instance (x : Pc n) (b : Fin n) : Decidable (x.Refers b) := by
  unfold Pc.Refers
  split <;> infer_instance

@[simp] theorem refers_out {b : Fin n} : ¬ (Pc.out : Pc n).Refers b := id

@[simp] theorem refers_locking {b b' : Fin n} {dev blockno : ℕ} : (Pc.locking b' dev blockno).Refers b ↔ b' = b := Iff.rfl

@[simp] theorem refers_releasing {b b' : Fin n} : (Pc.releasing b').Refers b ↔ b' = b := Iff.rfl

@[simp] theorem refers_reading {b b' : Fin n} : ¬ (Pc.reading b').Refers b := id

@[simp] theorem refers_starting {b b' : Fin n} : ¬ (Pc.starting b').Refers b := id

@[simp] theorem refers_waiting {b b' : Fin n} : ¬ (Pc.waiting b').Refers b := id

structure Refs (s : State n P D) : Prop where
  count : ∀ b p, (s.users b).count p = (if s.lock b = some p then 1 else 0) + if (s.pc p).Refers b then 1 else 0
  refcnt : ∀ b, (s.buf b).refcnt = (s.users b).card

namespace Refs

/-- Only `p` moves, and only `b` changes. -/
theorem update (h : Refs s) {p : P} {b : Fin n} (hpc : ∀ q, q ≠ p → s'.pc q = s.pc q)
    (hp : ∀ b', b' ≠ b → ((s'.pc p).Refers b' ↔ (s.pc p).Refers b'))
    (hother : ∀ b', b' ≠ b → s'.users b' = s.users b' ∧ s'.lock b' = s.lock b' ∧
      (s'.buf b').refcnt = (s.buf b').refcnt)
    (hcount : ∀ q, (s'.users b).count q =
      (if s'.lock b = some q then 1 else 0) + if (s'.pc q).Refers b then 1 else 0)
    (hrefcnt : (s'.buf b).refcnt = (s'.users b).card) : Refs s' := by
  constructor
  · intro b' q
    by_cases hb : b' = b
    · rw [hb]
      exact hcount q
    · obtain ⟨hu, hl, -⟩ := hother b' hb
      rw [hu, hl, h.count b' q]
      by_cases hq : q = p
      · rw [hq]
        simp only [hp b' hb]
      · rw [hpc q hq]
  · intro b'
    by_cases hb : b' = b
    · rw [hb]
      exact hrefcnt
    · obtain ⟨hu, -, hr⟩ := hother b' hb
      rw [hr, hu]
      exact h.refcnt b'

/-- The references stay as they are. -/
theorem same (h : Refs s) {p : P} (hpc : ∀ q, q ≠ p → s'.pc q = s.pc q)
    (hp : ∀ b, (s'.pc p).Refers b ↔ (s.pc p).Refers b) (husers : s'.users = s.users) (hlock : s'.lock = s.lock)
    (hrefcnt : ∀ b, (s'.buf b).refcnt = (s.buf b).refcnt) : Refs s' := by
  constructor
  · intro b q
    rw [husers, hlock, h.count b q]
    by_cases hq : q = p
    · rw [hq]
      simp only [hp b]
    · rw [hpc q hq]
  · intro b
    rw [hrefcnt, husers]
    exact h.refcnt b

/-- Nobody refers to a buffer with the count 0. -/
theorem unused (h : Refs s) {b : Fin n} (h0 : (s.buf b).refcnt = 0) :
    s.users b = 0 ∧ s.lock b = none ∧ ∀ p, ¬ (s.pc p).Refers b := by
  have husers : s.users b = 0 := by
    rw [h.refcnt b] at h0
    exact Multiset.card_eq_zero.1 h0
  have hzero : ∀ p, (if s.lock b = some p then 1 else 0) + (if (s.pc p).Refers b then 1 else 0) = 0 := by
    intro p
    rw [← h.count b p, husers, Multiset.count_zero]
  refine ⟨husers, ?_, fun p hp => ?_⟩
  · cases hl : s.lock b with
    | none => rfl
    | some p =>
      have hz := hzero p
      rw [if_pos hl] at hz
      omega
  · have hz := hzero p
    rw [if_pos hp] at hz
    omega

theorem mem_of_lock (h : Refs s) {b : Fin n} {p : P} (hl : s.lock b = some p) : p ∈ s.users b := by
  apply Multiset.count_pos.1
  rw [h.count b p, if_pos hl]
  omega

theorem mem_of_refers (h : Refs s) {b : Fin n} {p : P} (hp : (s.pc p).Refers b) : p ∈ s.users b := by
  apply Multiset.count_pos.1
  rw [h.count b p, if_pos hp]
  omega

end Refs

theorem go_pc (s : State n P D) (p : P) (x : Pc n) : (s.go p x).pc p = x := Function.update_self ..

theorem go_pc_ne (s : State n P D) {p q : P} (x : Pc n) (hq : q ≠ p) : (s.go p x).pc q = s.pc q :=
  Function.update_of_ne hq ..

omit [DecidableEq P] in
theorem setBuf_self (s : State n P D) (b : Fin n) (x : Buf D) : (s.setBuf b x).buf b = x := Function.update_self ..

omit [DecidableEq P] in
theorem setBuf_ne (s : State n P D) {b b' : Fin n} (x : Buf D) (hb : b' ≠ b) : (s.setBuf b x).buf b' = s.buf b' :=
  Function.update_of_ne hb ..

omit [DecidableEq P] in
/-- A change of a buffer that keeps its count. -/
theorem setBuf_refcnt (s : State n P D) (b : Fin n) {x : Buf D} (hx : x.refcnt = (s.buf b).refcnt) (b' : Fin n) :
    ((s.setBuf b x).buf b').refcnt = (s.buf b').refcnt := by
  by_cases hb : b' = b
  · rw [hb, setBuf_self, hx]
  · rw [setBuf_ne s x hb]

omit [DecidableEq P] in
theorem serve_refcnt (s : State n P D) (b : Fin n) (q : List (Fin n)) (latch : Option D) (b' : Fin n) :
    ((s.serve b q latch).buf b').refcnt = (s.buf b').refcnt := by
  have h := setBuf_refcnt s b (x := { s.buf b with
    valid := true
    dirty := false
    data := if (s.buf b).dirty then (s.buf b).data else latch.getD (s.buf b).data }) rfl b'
  exact h

/-- A process begins to refer to `b`: `bget`. -/
theorem Refs.enter (h : Refs s) {p : P} {b : Fin n} {dev blockno : ℕ} {x : Buf D} (hp : s.pc p = .out)
    (hx : x.refcnt = (s.users b).card + 1) :
    Refs ({ s.setBuf b x with users := Function.update s.users b (p ::ₘ s.users b) }.go p (.locking b dev blockno)) := by
  refine h.update (p := p) (b := b) (fun q hq => go_pc_ne _ _ hq) ?_ ?_ ?_ ?_
  · intro b' hb
    rw [go_pc, hp]
    exact ⟨fun hr => absurd hr.symm hb, False.elim⟩
  · intro b' hb
    refine ⟨Function.update_of_ne hb .., rfl, ?_⟩
    exact congrArg Buf.refcnt (setBuf_ne s x hb)
  · intro q
    show (Function.update s.users b (p ::ₘ s.users b) b).count q = (if s.lock b = some q then 1 else 0) + _
    rw [Function.update_self]
    by_cases hq : q = p
    · rw [hq, Multiset.count_cons_self, h.count b p, go_pc, hp]
      simp
    · rw [Multiset.count_cons_of_ne hq, h.count b q, go_pc_ne _ _ hq]
      rfl
  · show ((s.setBuf b x).buf b).refcnt = (Function.update s.users b (p ::ₘ s.users b) b).card
    rw [setBuf_self, Function.update_self, Multiset.card_cons, hx]

theorem Refs.acquiresleep (h : Refs s) {p : P} {b : Fin n} {dev blockno : ℕ} (hp : s.pc p = .locking b dev blockno)
    (hl : s.lock b = none) : Refs (s.acquiresleep p b dev blockno) := by
  refine h.update (p := p) (b := b) (fun q hq => go_pc_ne _ _ hq) ?_ ?_ ?_ (h.refcnt b)
  · intro b' hb
    show (((_ : State n P D).go p (.reading b)).pc p).Refers b' ↔ _
    rw [go_pc, hp]
    exact ⟨False.elim, fun hr => hb hr.symm⟩
  · intro b' hb
    exact ⟨rfl, Function.update_of_ne hb .., rfl⟩
  · intro q
    show (s.users b).count q = (if Function.update s.lock b (some p) b = some q then 1 else 0) +
      if (((_ : State n P D).go p (.reading b)).pc q).Refers b then 1 else 0
    rw [Function.update_self, h.count b q, hl]
    by_cases hq : q = p
    · rw [hq, go_pc, hp]
      simp
    · rw [go_pc_ne _ _ hq]
      simp [Ne.symm hq]

theorem Refs.releasesleep (h : Refs s) {p : P} {b : Fin n} (hp : s.pc p = .out) (hl : s.lock b = some p) :
    Refs (s.releasesleep p b) := by
  refine h.update (p := p) (b := b) (fun q hq => go_pc_ne _ _ hq) ?_ ?_ ?_ (h.refcnt b)
  · intro b' hb
    show (((_ : State n P D).go p (.releasing b)).pc p).Refers b' ↔ _
    rw [go_pc, hp]
    exact ⟨fun hr => absurd hr.symm hb, False.elim⟩
  · intro b' hb
    exact ⟨rfl, Function.update_of_ne hb .., rfl⟩
  · intro q
    show (s.users b).count q = (if Function.update s.lock b none b = some q then 1 else 0) +
      if (((_ : State n P D).go p (.releasing b)).pc q).Refers b then 1 else 0
    rw [Function.update_self, h.count b q, hl]
    by_cases hq : q = p
    · rw [hq, go_pc, hp]
      simp
    · rw [go_pc_ne _ _ hq]
      simp [Ne.symm hq]

theorem Refs.drop (h : Refs s) {p : P} {b : Fin n} (hp : s.pc p = .releasing b) : Refs (s.drop p b) := by
  have hmem : p ∈ s.users b := h.mem_of_refers (by rw [hp]; exact rfl)
  refine h.update (p := p) (b := b) (fun q hq => go_pc_ne _ _ hq) ?_ ?_ ?_ ?_
  · intro b' hb
    show (((_ : State n P D).go p .out).pc p).Refers b' ↔ _
    rw [go_pc, hp]
    exact ⟨False.elim, fun hr => hb hr.symm⟩
  · intro b' hb
    refine ⟨Function.update_of_ne hb .., rfl, ?_⟩
    exact congrArg Buf.refcnt (setBuf_ne s _ hb)
  · intro q
    show (Function.update s.users b ((s.users b).erase p) b).count q = (if s.lock b = some q then 1 else 0) +
      if (((_ : State n P D).go p .out).pc q).Refers b then 1 else 0
    rw [Function.update_self]
    by_cases hq : q = p
    · rw [hq, Multiset.count_erase_self, h.count b p, go_pc, hp]
      simp
    · rw [Multiset.count_erase_of_ne hq, h.count b q, go_pc_ne _ _ hq]
      rfl
  · show ((s.setBuf b _).buf b).refcnt = (Function.update s.users b ((s.users b).erase p) b).card
    rw [setBuf_self, Function.update_self, Multiset.card_erase_of_mem hmem]
    show (s.buf b).refcnt - 1 = _
    rw [h.refcnt b]
    rfl

theorem Refs.step (h : Refs s) (hlru : ∃ l, Lru s l) (hs : Step fssize s e s') : Refs s' := by
  cases hs with
  | hit hp hb => exact h.enter hp (by rw [← h.refcnt])
  | @recycle p dev blockno b hp hnone hb =>
    obtain ⟨l, hl⟩ := hlru
    obtain ⟨husers, -⟩ := h.unused (hl.unused_some hb).1
    exact h.enter hp (by rw [husers]; rfl)
  | @modify p b data hp hl =>
    exact h.same (p := p) (fun _ _ => rfl) (fun _ => Iff.rfl) rfl rfl (setBuf_refcnt s b rfl)
  | @bwrite p b hp hl =>
    refine h.same (p := p) (fun q hq => go_pc_ne _ _ hq) (fun b' => ?_) rfl rfl (setBuf_refcnt s b rfl)
    rw [go_pc, hp]
    exact Iff.rfl
  | @log_write p b hp hl =>
    exact h.same (p := p) (fun _ _ => rfl) (fun _ => Iff.rfl) rfl rfl (setBuf_refcnt s b rfl)
  | releasesleep hp hl => exact h.releasesleep hp hl
  | acquiresleep hp hl => exact h.acquiresleep hp hl
  | @valid p b hp hv =>
    refine h.same (p := p) (fun q hq => go_pc_ne _ _ hq) (fun b' => ?_) rfl rfl fun _ => rfl
    rw [go_pc, hp]
    exact Iff.rfl
  | @invalid p b hp hv =>
    refine h.same (p := p) (fun q hq => go_pc_ne _ _ hq) (fun b' => ?_) rfl rfl fun _ => rfl
    rw [go_pc, hp]
    exact Iff.rfl
  | @enqueue p b hp hl hn hq =>
    refine h.same (p := p) (fun q hq => go_pc_ne _ _ hq) (fun b' => ?_) rfl rfl fun _ => rfl
    show (((_ : State n P D).go p (.waiting b)).pc p).Refers b' ↔ _
    rw [go_pc, hp]
    exact Iff.rfl
  | @start p b hp hl hn hq hb =>
    refine h.same (p := p) (fun q hq => go_pc_ne _ _ hq) (fun b' => ?_) rfl rfl fun _ => rfl
    show (((_ : State n P D).go p (.waiting b)).pc p).Refers b' ↔ _
    rw [go_pc, hp]
    exact Iff.rfl
  | @synced p b hp hn =>
    refine h.same (p := p) (fun q hq => go_pc_ne _ _ hq) (fun b' => ?_) rfl rfl fun _ => rfl
    rw [go_pc, hp]
    exact Iff.rfl
  | drop hp h1 => exact h.drop hp
  | dropLast hp h1 =>
    have hd := h.drop hp
    exact ⟨hd.count, hd.refcnt⟩
  | finish hd =>
    unfold State.finish
    split <;> exact ⟨h.count, h.refcnt⟩
  | spurious hd hq => exact ⟨h.count, h.refcnt⟩
  | serve hd hq => exact ⟨h.count, fun b' => (serve_refcnt s _ _ _ b').trans (h.refcnt b')⟩
  | @serveNext latch b b₁ q hd hq hn =>
    exact ⟨h.count, fun b' => (serve_refcnt s b (b₁ :: q) latch b').trans (h.refcnt b')⟩

theorem boot_refs (zero : D) (disk : ℕ → ℕ → D) : Refs (boot n P zero disk) where
  count b p := by
    show (0 : Multiset P).count p = _
    rw [Multiset.count_zero]
    rfl
  refcnt b := rfl

/-! ## Which buffer has which block -/

structure Addr (fssize : ℕ) (s : State n P D) : Prop where
  root : ∀ b, (s.buf b).dev = 0 ∨ (s.buf b).dev = 1 ∧ (s.buf b).blockno < fssize
  /-- a buffer that was never used -/
  fresh : ∀ b, (s.buf b).dev = 0 → (s.buf b).valid = false ∧ (s.buf b).dirty = false ∧ (s.buf b).refcnt = 0
  unique : ∀ b b', (s.buf b).dev = 1 → (s.buf b').dev = 1 → (s.buf b).blockno = (s.buf b').blockno → b = b'
  locking : ∀ {p b dev blockno}, s.pc p = .locking b dev blockno → (s.buf b).dev = dev ∧ (s.buf b).blockno = blockno
  asked : ∀ {p b}, s.lock b = some p → s.asked b = ((s.buf b).dev, (s.buf b).blockno)

namespace Addr

/-- A buffer that somebody refers to has a block. -/
theorem dev_eq_one (h : Addr fssize s) (hR : Refs s) {b : Fin n} {p : P} (hp : p ∈ s.users b) : (s.buf b).dev = 1 := by
  rcases h.root b with h0 | ⟨h1, -⟩
  · have hcard := (h.fresh b h0).2.2
    rw [hR.refcnt b, Multiset.card_eq_zero] at hcard
    rw [hcard] at hp
    exact absurd hp (Multiset.notMem_zero p)
  · exact h1

omit [DecidableEq P] in
/-- The blocks stay where they are. -/
theorem same (h : Addr fssize s) (hdev : ∀ b, (s'.buf b).dev = (s.buf b).dev)
    (hblock : ∀ b, (s'.buf b).blockno = (s.buf b).blockno)
    (hfresh : ∀ b, (s.buf b).dev = 0 → s'.buf b = s.buf b)
    (hlocking : ∀ p b dev blockno, s'.pc p = .locking b dev blockno →
      s.pc p = .locking b dev blockno ∨ (s.buf b).dev = dev ∧ (s.buf b).blockno = blockno)
    (hasked : ∀ p b, s'.lock b = some p → s.lock b = some p ∧ s'.asked b = s.asked b ∨
      s'.asked b = ((s.buf b).dev, (s.buf b).blockno)) : Addr fssize s' := by
  constructor
  · intro b
    rw [hdev, hblock]
    exact h.root b
  · intro b h0
    rw [hdev] at h0
    rw [hfresh b h0]
    exact h.fresh b h0
  · intro b b' h1 h1' heq
    rw [hdev] at h1 h1'
    rw [hblock, hblock] at heq
    exact h.unique b b' h1 h1' heq
  · intro p b dev blockno hp
    rw [hdev, hblock]
    rcases hlocking p b dev blockno hp with hp | hp
    · exact h.locking hp
    · exact hp
  · intro p b hl
    rw [hdev, hblock]
    rcases hasked p b hl with ⟨hl, ha⟩ | ha
    · rw [ha]
      exact h.asked hl
    · exact ha

/-- A process moves. -/
theorem go (h : Addr fssize s) {p : P} {x : Pc n}
    (hx : ∀ b dev blockno, x = .locking b dev blockno → (s.buf b).dev = dev ∧ (s.buf b).blockno = blockno)
    (hpc : s'.pc = Function.update s.pc p x) (hbuf : s'.buf = s.buf) (hlock : s'.lock = s.lock)
    (hasked : s'.asked = s.asked) : Addr fssize s' := by
  refine h.same (fun b => by rw [hbuf]) (fun b => by rw [hbuf]) (fun b _ => by rw [hbuf]) ?_ ?_
  · intro q b dev blockno hq
    rw [hpc] at hq
    by_cases hqp : q = p
    · rw [hqp, Function.update_self] at hq
      exact .inr (hx b dev blockno hq)
    · rw [Function.update_of_ne hqp] at hq
      exact .inl hq
  · intro q b hl
    rw [hlock] at hl
    rw [hasked]
    exact .inl ⟨hl, rfl⟩

omit [DecidableEq P] in
/-- A buffer in use changes, but for its block. -/
theorem setBuf (h : Addr fssize s) {b : Fin n} {x : Buf D} (hbuf : s'.buf = Function.update s.buf b x)
    (hdev : x.dev = (s.buf b).dev) (hblock : x.blockno = (s.buf b).blockno) (hused : (s.buf b).dev = 1)
    (hpc : s'.pc = s.pc) (hlock : s'.lock = s.lock) (hasked : s'.asked = s.asked) : Addr fssize s' := by
  have hb : ∀ b', s'.buf b' = if b' = b then x else s.buf b' := by
    intro b'
    rw [hbuf, Function.update_apply]
  refine h.same ?_ ?_ ?_ ?_ ?_
  · intro b'
    rw [hb]
    split
    · rename_i heq
      rw [hdev, heq]
    · rfl
  · intro b'
    rw [hb]
    split
    · rename_i heq
      rw [hblock, heq]
    · rfl
  · intro b' h0
    rw [hb, if_neg]
    rintro rfl
    omega
  · intro q b' dev blockno hq
    rw [hpc] at hq
    exact .inl hq
  · intro q b' hl
    rw [hlock] at hl
    rw [hasked]
    exact .inl ⟨hl, rfl⟩

/-- `bget` recycles a buffer for a block that no buffer has. -/
theorem recycle (h : Addr fssize s) (hR : Refs s) {p : P} {b : Fin n} {blockno : ℕ} (h0 : (s.buf b).refcnt = 0)
    (hnone : ∀ b, ¬ ((s.buf b).dev = 1 ∧ (s.buf b).blockno = blockno)) (hn : blockno < fssize) :
    Addr fssize (s.recycle p b 1 blockno) := by
  obtain ⟨-, hfree, hrefers⟩ := hR.unused h0
  have hself : (s.recycle p b 1 blockno).buf b = ⟨1, blockno, false, false, 1, (s.buf b).data⟩ :=
    Function.update_self ..
  have hne : ∀ {b'}, b' ≠ b → (s.recycle p b 1 blockno).buf b' = s.buf b' := fun hb => Function.update_of_ne hb ..
  constructor
  · intro b'
    by_cases hb : b' = b
    · rw [hb, hself]
      exact .inr ⟨rfl, hn⟩
    · rw [hne hb]
      exact h.root b'
  · intro b' hd
    by_cases hb : b' = b
    · rw [hb, hself] at hd
      cases hd
    · rw [hne hb] at hd ⊢
      exact h.fresh b' hd
  · intro b₁ b₂ h1 h2 heq
    by_cases hb₁ : b₁ = b <;> by_cases hb₂ : b₂ = b
    · rw [hb₁, hb₂]
    · rw [hb₁, hself, hne hb₂] at heq
      rw [hne hb₂] at h2
      exact absurd ⟨h2, heq.symm⟩ (hnone b₂)
    · rw [hb₂, hself, hne hb₁] at heq
      rw [hne hb₁] at h1
      exact absurd ⟨h1, heq⟩ (hnone b₁)
    · rw [hne hb₁] at h1 heq
      rw [hne hb₂] at h2 heq
      exact h.unique b₁ b₂ h1 h2 heq
  · intro q b' dev blockno' hq
    by_cases hqp : q = p
    · rw [hqp] at hq
      have hpc : (s.recycle p b 1 blockno).pc p = .locking b 1 blockno := Function.update_self ..
      rw [hpc] at hq
      cases hq
      rw [hself]
      exact ⟨rfl, rfl⟩
    · have hpc : (s.recycle p b 1 blockno).pc q = s.pc q := Function.update_of_ne hqp ..
      rw [hpc] at hq
      -- nobody waits for the recycled buffer
      have hb : b' ≠ b := by
        rintro rfl
        apply hrefers q
        rw [hq]
        exact rfl
      rw [hne hb]
      exact h.locking hq
  · intro q b' hl
    have hb : b' ≠ b := by
      rintro rfl
      have hl' : s.lock b' = some q := hl
      rw [hfree] at hl'
      cases hl'
    rw [hne hb]
    exact h.asked hl

theorem step (h : Addr fssize s) (hR : Refs s) (hlru : ∃ l, Lru s l) (hqueue : ∀ b ∈ s.idequeue, ∃ p, s.lock b = some p)
    (hG : Proper fssize s e) (hs : Step fssize s e s') : Addr fssize s' := by
  obtain ⟨l, hl⟩ := hlru
  have hheld : ∀ {b p}, s.lock b = some p → (s.buf b).dev = 1 := fun hlock => h.dev_eq_one hR (hR.mem_of_lock hlock)
  cases hs with
  | @hit p dev blockno b hp hb =>
    obtain ⟨hdev, hblock⟩ := hl.cached_some hb
    obtain ⟨rfl, -⟩ := hG
    have h1 : Addr fssize (s.setBuf b { s.buf b with refcnt := (s.buf b).refcnt + 1 }) :=
      h.setBuf rfl rfl rfl hdev rfl rfl rfl
    refine h1.go (p := p) (x := .locking b 1 blockno) ?_ rfl rfl rfl rfl
    rintro b' d k ⟨⟩
    rw [setBuf_self]
    exact ⟨hdev, hblock⟩
  | @recycle p dev blockno b hp hnone hb =>
    obtain ⟨rfl, hn⟩ := hG
    exact h.recycle hR (hl.unused_some hb).1 (hl.cached_none.1 hnone) hn
  | modify hp hlock => exact h.setBuf rfl rfl rfl (hheld hlock) rfl rfl rfl
  | @bwrite p b hp hlock =>
    have h1 : Addr fssize (s.mark b) := h.setBuf rfl rfl rfl (hheld hlock) rfl rfl rfl
    exact h1.go (p := p) (x := .starting b) (by simp) rfl rfl rfl rfl
  | log_write hp hlock => exact h.setBuf rfl rfl rfl (hheld hlock) rfl rfl rfl
  | @releasesleep p b hp hlock =>
    refine h.same (fun _ => rfl) (fun _ => rfl) (fun _ _ => rfl) ?_ ?_
    · intro q b' dev blockno hq
      by_cases hqp : q = p
      · rw [hqp] at hq
        have hpc : (s.releasesleep p b).pc p = .releasing b := Function.update_self ..
        rw [hpc] at hq
        cases hq
      · exact .inl ((Function.update_of_ne hqp ..).symm.trans hq)
    · intro q b' hlq
      have hlq' : Function.update s.lock b none b' = some q := hlq
      by_cases hb : b' = b
      · rw [hb, Function.update_self] at hlq'
        cases hlq'
      · rw [Function.update_of_ne hb] at hlq'
        exact .inl ⟨hlq', rfl⟩
  | @acquiresleep p b dev blockno hp hlock =>
    refine h.same (fun _ => rfl) (fun _ => rfl) (fun _ _ => rfl) ?_ ?_
    · intro q b' dev' blockno' hq
      by_cases hqp : q = p
      · rw [hqp] at hq
        have hpc : (s.acquiresleep p b dev blockno).pc p = .reading b := Function.update_self ..
        rw [hpc] at hq
        cases hq
      · exact .inl ((Function.update_of_ne hqp ..).symm.trans hq)
    · intro q b' hlq
      by_cases hb : b' = b
      · right
        obtain ⟨hdev, hblock⟩ := h.locking hp
        have ha : (s.acquiresleep p b dev blockno).asked b = (dev, blockno) := Function.update_self ..
        rw [hb, ha, hdev, hblock]
      · left
        exact ⟨(Function.update_of_ne hb ..).symm.trans hlq, Function.update_of_ne hb ..⟩
  | @valid p b hp hv => exact h.go (p := p) (x := .out) (by simp) rfl rfl rfl rfl
  | @invalid p b hp hv => exact h.go (p := p) (x := .starting b) (by simp) rfl rfl rfl rfl
  | @enqueue p b hp hlock hn hq => exact h.go (p := p) (x := .waiting b) (by simp) rfl rfl rfl rfl
  | @start p b hp hlock hn hq hb => exact h.go (p := p) (x := .waiting b) (by simp) rfl rfl rfl rfl
  | @synced p b hp hn => exact h.go (p := p) (x := .out) (by simp) rfl rfl rfl rfl
  | @drop p b hp h1 =>
    have hdev := h.dev_eq_one hR (hR.mem_of_refers (p := p) (b := b) (by rw [hp]; exact rfl))
    have h2 : Addr fssize (s.setBuf b { s.buf b with refcnt := (s.buf b).refcnt - 1 }) :=
      h.setBuf rfl rfl rfl hdev rfl rfl rfl
    exact h2.go (p := p) (x := .out) (by simp) rfl rfl rfl rfl
  | @dropLast p b hp h1 =>
    have hdev := h.dev_eq_one hR (hR.mem_of_refers (p := p) (b := b) (by rw [hp]; exact rfl))
    have h2 : Addr fssize (s.setBuf b { s.buf b with refcnt := (s.buf b).refcnt - 1 }) :=
      h.setBuf rfl rfl rfl hdev rfl rfl rfl
    exact h2.go (p := p) (x := .out) (by simp) rfl rfl rfl rfl
  | finish hd =>
    unfold State.finish
    split <;> exact ⟨h.root, h.fresh, h.unique, h.locking, h.asked⟩
  | spurious hd hq => exact ⟨h.root, h.fresh, h.unique, h.locking, h.asked⟩
  | @serve latch b hd hq =>
    obtain ⟨p, hlock⟩ := hqueue b (by rw [hq]; simp)
    exact h.setBuf rfl rfl rfl (hheld hlock) rfl rfl rfl
  | @serveNext latch b b' q hd hq hn =>
    obtain ⟨p, hlock⟩ := hqueue b (by rw [hq]; simp)
    exact h.setBuf rfl rfl rfl (hheld hlock) rfl rfl rfl

end Addr

end Xv6.Cache
