import Xv6.Lwp.Dirs
import Xv6.Lwp.Frames

/-!
# The memory limit

`setmemorylimit` stores the limit in the slot that `find_proc` finds, and only `growproc`
looks at the limit, at that in the slot of its caller. Neither has `ptable.lock` when it stores.

* `memory_limit`: the limit holds from then on if `find_proc` finds the main thread, which is
  still within the limit (`Under`), and what does not look at its slot (`sbrk` by an LWP,
  `thread_create`, `exec2`) stays within the limit by itself (`Within`).
* `thread_create_over_limit`: `thread_create` takes a process over its limit.
-/

namespace Xv6.Lwp

variable {n : ℕ} {s s' : State n} {c : Fin n} {t t' : Table} {p q m : Slot}
variable {P : ℕ} {L : BitVec 32}

/-- The size of `m` is within the limit, and so is one that `growproc` has not stored yet. -/
def State.Under (s : State n) (m : Slot) (L : BitVec 32) : Prop :=
  (s.proc m).sz ≤ L ∧ ∀ q, (s.frameOf q).call.grows.all fun g => g.1 = m → g.2 ≤ L

instance (s : State n) (m : Slot) (L : BitVec 32) : Decidable (s.Under m L) := by
  unfold State.Under; infer_instance

/-- There are pages up to `sz`, which is beyond the limit. -/
def Over (L sz : BitVec 32) (pages : Bool) : Prop := pages = true ∧ sz < KERNBASE ∧ L < sz

instance (L sz : BitVec 32) (pages : Bool) : Decidable (Over L sz pages) := by
  unfold Over; infer_instance

/-- Process `P` keeps to the limit `L` where the limit is not looked at: an LWP does not ask for
more, the stack of a new LWP and the new image of `exec2` fit, and `kill_thread` makes no LWP
the main thread. -/
def Within (P : ℕ) (L : BitVec 32) (s : State n) : Event n → Prop
  | .growproc c k ok => ∀ p m, s.user c = some p → s.proc.main p = some m → (s.proc m).pid = P →
      (s.proc p).isThread = true → ¬ Over L ((s.proc m).sz + k) ok
  | .threadMap c pages _ => ∀ p m, (s.cpu c).proc = some p → s.proc.main p = some m →
      (s.proc m).pid = P → ¬ Over L (pgroundup (s.proc m).sz + 2 * PGSIZE) pages
  | .execCommit c sz => ∀ p, (s.cpu c).proc = some p → (s.proc p).pid = P →
      (s.proc p).isThread = false → sz ≤ L
  | e => ∀ p, s.promotes e = some p → (s.proc p).pid ≠ P

/-- The event stores another limit in slot `m`. -/
def State.Limits (s : State n) (m : Slot) : Event n → Prop
  | .limitStore c => (s.current c).any fun x => x.2.call.limits.any fun l => l.1 = m
  | _ => False

instance (s : State n) (m : Slot) (e : Event n) : Decidable (s.Limits m e) := by
  unfold State.Limits; rcases e with ⟨⟩ <;> infer_instance

instance (P : ℕ) (L : BitVec 32) (s : State n) (e : Event n) : Decidable (Within P L s e) := by
  unfold Within; rcases e with ⟨⟩ <;> infer_instance

/-! ## Process numbers -/

/-- Process numbers come from `nextpid`. -/
def Numbered (s : State n) : Prop := ∀ p, (s.proc p).pid < s.nextpid

theorem Killed.pid (hk : Killed t t' p) (q : Slot) : (t' q).pid = (t q).pid ∨ (t' q).pid = 0 := by
  by_cases hv : t.Victim p q
  · rw [hk.victim q hv]; exact .inr rfl
  · by_cases hqp : q = p
    · subst hqp
      obtain ⟨pr, kl, he⟩ := hk.self hv
      rw [he]
      exact .inl rfl
    · by_cases hm : t.Marked p q
      · rw [hk.marked q hqp hv hm]; exact .inl rfl
      · rw [hk.other q hqp hv hm]; exact .inl rfl

theorem numbered_step (h : Numbered s) {e : Event n} (hstep : step s e = some (.ok s')) :
    Numbered s' ∧ s.nextpid ≤ s'.nextpid := by
  have hpos : 0 < s.nextpid := (Nat.zero_le _).trans_lt (h initproc)
  -- a step that gives one slot another number
  have htable : ∀ {p} (f : Proc → Proc), s'.proc = s.proc.upd p f → (f (s.proc p)).pid < s'.nextpid →
      s.nextpid ≤ s'.nextpid → Numbered s' ∧ s.nextpid ≤ s'.nextpid := by
    intro p f hproc hpid hle
    refine ⟨fun q => ?_, hle⟩
    rw [hproc, upd_apply]
    split
    · rename_i hq; rw [hq]; exact hpid
    · exact (h q).trans_le hle
  -- a step that keeps the numbers
  have hkeep : (∀ q, (s'.proc q).pid = (s.proc q).pid ∨ (s'.proc q).pid = 0) → s'.nextpid = s.nextpid →
      Numbered s' ∧ s.nextpid ≤ s'.nextpid := by
    intro hpid hnext
    refine ⟨fun q => ?_, hnext.ge⟩
    rw [hnext]
    rcases hpid q with e | e
    · rw [e]; exact h q
    · rw [e]; exact hpos
  have hfield : ∀ (x : Proc) st pr, ({ x with state := st, parent := pr } : Proc).pid = x.pid :=
    fun _ _ _ => rfl
  cases step_effect hstep with
  | dispatch c p k d hidle hst hk hd => exact htable (fun x => { x with state := .running, chan := none }) rfl (h p) le_rfl
  | yield c p hp => exact htable (fun x => { x with state := .runnable }) rfl (h p) le_rfl
  | sleep c p chan hp => exact htable (fun x => { x with chan := some (.other chan), state := .sleeping }) rfl (h p) le_rfl
  | wakeup chan => exact hkeep (fun q => .inl (wakeup1_field Proc.pid hfield _ _ q)) rfl
  | exit c p t hcur ht => exact hkeep (fun q => .inl (exit_field Proc.pid hfield ht q)) rfl
  | threadExit c p retval t hcur ht =>
    exact hkeep (fun q => .inl (threadExit_field Proc.pid (fun _ _ _ _ => rfl) ht q)) rfl
  | reap c p z f d hcur hf hz hk hd => exact htable Proc.reaped rfl hpos le_rfl
  | join c p z f thread hcur hf hz hpar hk => exact htable Proc.recovered rfl hpos le_rfl
  | block e c p f call he hcur hf hw =>
    exact htable (fun x => { x with chan := some (.proc p), state := .sleeping }) rfl (h p) le_rfl
  | kill c p p₀ pid t hcur hfind ht =>
    refine hkeep (fun q => ?_) rfl
    have hkill : ((t.upd p₀ Proc.kill) q).pid = (t q).pid := upd_field Proc.pid _ _ q _ (by rfl)
    exact ((killThread_killed ht).pid q).imp hkill.trans hkill.trans
  | fork c p np hcur hnp =>
    exact htable (fun x => { x.embryo s.nextpid s.nextStack with memlim := 0 }) rfl (Nat.lt_succ_self _)
      (Nat.le_succ _)
  | forkFail c np hnp =>
    exact htable (fun x => { x with pid := s.nextpid, memlim := 0, kstack := none }) rfl
      (Nat.lt_succ_self _) (Nat.le_succ _)
  | forkCopy c p np hcur => exact hkeep (fun q => .inl (upd_field Proc.pid _ _ q _ (by rfl))) rfl
  | forkCopyFail c p np hcur => exact hkeep (fun q => .inl (upd_field Proc.pid _ _ q _ (by rfl))) rfl
  | forkReady c p np hcur => exact hkeep (fun q => .inl (upd_field Proc.pid _ _ q _ (by rfl))) rfl
  | threadCreate c p thrd hcur hthrd =>
    exact htable (fun x => x.embryo (s.proc p).pid s.nextStack) rfl (h p) le_rfl
  | threadCreateFail c p thrd hcur hthrd =>
    exact htable (fun x => { x with pid := (s.proc p).pid, kstack := none }) rfl (h p) le_rfl
  | threadMapFail c p m thrd sz t pages copied hcur hm ht =>
    refine hkeep (fun q => .inl ?_) rfl
    rcases ht with rfl | rfl
    · exact upd_field Proc.pid _ _ q _ (by rfl)
    · exact (upd_field Proc.pid _ _ q _ (by rfl)).trans (upd_field Proc.pid _ _ q _ (by rfl))
  | threadMap c p m thrd sz pages copied hcur hm =>
    exact hkeep (fun q => .inl ((upd_field Proc.pid _ _ q _ (by rfl)).trans
      ((upd_field Proc.pid _ _ q _ (by rfl)).trans (upd_field Proc.pid _ _ q _ (by rfl))))) rfl
  | threadReady c p thrd hcur => exact hkeep (fun q => .inl (upd_field Proc.pid _ _ q _ (by rfl))) rfl
  | killRecover c p z d w call hcur hz => exact htable Proc.recovered rfl hpos le_rfl
  | killMark c p m d hcur hm => exact htable (fun x => { x with killed := true }) rfl (h m) le_rfl
  | killHeir c p m d hcur hm =>
    exact htable (fun x => { x with isThread := false, parent := (s.proc m).parent }) rfl (h p) le_rfl
  | execCommit c p two d old k sz hcur hk hold =>
    exact hkeep (fun q => .inl (upd_field Proc.pid _ _ q _ (by rfl))) rfl
  | growStore c p m sz stack d hcur hk hd => exact hkeep (fun q => .inl (upd_field Proc.pid _ _ q _ (by rfl))) rfl
  | limitStore c p q limit => exact hkeep (fun q => .inl (upd_field Proc.pid _ _ q _ (by rfl))) rfl
  | _ => exact hkeep (fun q => .inl rfl) rfl

theorem boot_numbered : Numbered (boot n) := by
  intro p
  have hproc : (boot n).proc p = if p = initproc then { Proc.zero with
      state := .runnable, pid := 1, kstack := some 0, pgdir := some 0, sz := PGSIZE } else Proc.zero := rfl
  rw [hproc]
  split
  · exact Nat.one_lt_two
  · exact Nat.zero_lt_two

/-! ## The slot of the main thread -/

/-- Slot `m` is within the limit while it is the main thread of process `P`, as is a size that
is to be stored there; and it is not about to become that again. -/
structure Limited (P : ℕ) (L : BitVec 32) (m : Slot) (s : State n) : Prop where
  bound : (s.proc m).Main → (s.proc m).pid = P → (s.proc m).sz ≤ L ∧ (s.proc m).memlim = L
  fork : ∀ q, (s.frameOf q).call = .fork m ∨ (s.frameOf q).call = .forked m → (s.proc m).pid ≠ P
  created : ∀ q, (s.frameOf q).call = .created m → (s.proc m).isThread = true ∨ (s.proc m).pid ≠ P
  grows : (s.proc m).Main → (s.proc m).pid = P → ∀ q sz, (s.frameOf q).call = .grow m sz → sz ≤ L
  next : P < s.nextpid

/-- The slot keeps its number, size and limit, and does not become a main thread. -/
structure Fixed (x y : Proc) : Prop where
  pid : y.pid = x.pid
  isThread : y.isThread = x.isThread
  sz : y.sz = x.sz
  memlim : y.memlim = x.memlim
  main : y.Main → x.Main
  unused : x.state = .unused → y.state = .unused

theorem Fixed.refl (x : Proc) : Fixed x x := ⟨rfl, rfl, rfl, rfl, id, id⟩

/-- What a step does to a slot. -/
inductive Settles (P : ℕ) (L : BitVec 32) (e : Event n) (x y : Proc) : Prop
  | fixed (h : Fixed x y)
  /-- it is no main thread, and not in creation -/
  | apart (hmain : ¬ y.Main) (hst : y.state ≠ .embryo)
  /-- it is another process -/
  | other (hpid : y.pid ≠ P)
  /-- `thread_create` takes it -/
  | taken (hfork : ∀ c kstack, e ≠ .fork c kstack) (hx : x.state = .unused) (hy : ¬ y.Main)
  /-- its size changes, within the limit -/
  | resized (hpid : y.pid = x.pid) (hth : y.isThread = x.isThread) (hlim : y.memlim = x.memlim)
      (hst : y.state = x.state) (hsz : x.Main → x.pid = P → y.sz ≤ L)

/-- The main thread of process `P` was so before. -/
theorem Settles.back {e : Event n} {x y : Proc} (h : Settles P L e x y) (hm : y.Main) (hp : y.pid = P) :
    x.Main ∧ x.pid = P := by
  cases h with
  | fixed hf => exact ⟨hf.main hm, hf.pid ▸ hp⟩
  | apart hmain => exact absurd hm hmain
  | other hpid => exact absurd hp hpid
  | taken hfork hx hy => exact absurd hm hy
  | resized hpid hth hlim hst =>
    have hy := hm.2
    refine ⟨⟨hth ▸ hm.1, ?_⟩, hpid ▸ hp⟩
    unfold Proc.Live at hy ⊢
    rw [hst] at hy
    exact hy

/-- A slot that keeps its number and, in creation, was so before. -/
theorem Limited.calls (h : Limited P L m s) (hs : Sane s) (hs' : Sane s') {e : Event n} (hset : Settled s e)
    (hmap : ∀ c pages copied, e ≠ .threadMap c pages copied) (hstep : step s e = some (.ok s'))
    (hun : (s.proc m).state = .unused → (s'.proc m).state = .unused) (hpid : (s'.proc m).pid = (s.proc m).pid)
    (hth : (s'.proc m).isThread = (s.proc m).isThread) :
    (∀ q, (s'.frameOf q).call = .fork m ∨ (s'.frameOf q).call = .forked m → (s'.proc m).pid ≠ P) ∧
      ∀ q, (s'.frameOf q).call = .created m → (s'.proc m).isThread = true ∨ (s'.proc m).pid ≠ P := by
  have hbefore : ∀ q, (s'.frameOf q).call.creates = some m → (s'.frameOf q).call = (s.frameOf q).call ∨
      (s.frameOf q).call = .fork m ∧ (s'.frameOf q).call = .forked m := by
    intro q hq
    rcases (creates_step hs hset hstep hq).2 with hsame | hnext
    · exact .inl hsame
    · rcases hnext.creates hq with ⟨hx, -⟩ | hfork | ⟨-, -, c, pages, copied, he⟩
      · have hst := hs'.creating q m hq
        rw [hun hx] at hst
        cases hst
      · exact .inr hfork
      · exact absurd he (hmap c pages copied)
  refine ⟨fun q hq => ?_, fun q hq => ?_⟩
  · rw [hpid]
    rcases hbefore q (by rcases hq with e | e <;> (rw [e]; rfl)) with hsame | ⟨hf, -⟩
    · exact h.fork q (hsame ▸ hq)
    · exact h.fork q (.inl hf)
  · rw [hpid, hth]
    rcases hbefore q (by rw [hq]; rfl) with hsame | ⟨-, hf⟩
    · exact h.created q (hsame ▸ hq)
    · rw [hq] at hf; cases hf

/-- A new size within the limit. -/
theorem newSize_le {sz sz' k : BitVec 32} {ok : Bool} (h : newSize sz k ok = some sz') (hsz : sz ≤ L)
    (hk : ¬ Over L (sz + k) ok) : sz' ≤ L := by
  unfold newSize at h
  split_ifs at h with hpos hgrow hneg hshrink
  · cases h
    unfold allocuvm at hgrow ⊢
    split_ifs at hgrow ⊢ with hkern hwrap hok
    · exact absurd rfl hgrow
    · exact hsz
    · exact BitVec.not_lt.1 fun hlt => hk ⟨hok, BitVec.not_le.1 hkern, hlt⟩
    · exact absurd rfl hgrow
  · cases h
    unfold deallocuvm
    split_ifs with hle
    · exact hsz
    · have hlt := BitVec.not_le.1 hle
      simp only [BitVec.lt_def, BitVec.le_def] at hlt hsz ⊢
      omega
  · cases h
    exact hsz

/-- `growproc` has looked at the limit when the main thread called it. -/
theorem Limited.newSize (h : Limited P L m s) (hL : L ≠ 0) {k sz : BitVec 32} {ok : Bool}
    (hW : Within P L s (.growproc c k ok)) (hu : s.user c = some p) (hm : s.proc.main p = some m)
    (hlim : ¬ (s.proc p).limited k) (hsz : newSize (s.proc m).sz k ok = some sz) (hmain : (s.proc m).Main)
    (hpid : (s.proc m).pid = P) : sz ≤ L := by
  obtain ⟨hle, hml⟩ := h.bound hmain hpid
  by_cases hth : (s.proc p).isThread = true
  · exact newSize_le hsz hle (hW p m hu hm hpid hth)
  · -- the main thread itself: its limit was looked at
    have hpm : p = m := by
      unfold Table.main at hm
      rw [if_neg hth] at hm
      exact Option.some.inj hm
    subst hpm
    refine newSize_le hsz hle fun hover => ?_
    unfold Proc.limited at hlim
    rw [hml] at hlim
    exact hlim ⟨hL, hover.2.2⟩

/-- The sizes that are to be stored. -/
theorem Limited.pending (h : Limited P L m s) (hL : L ≠ 0) (hs : Sane s) {e : Event n} (hset : Settled s e)
    (hW : Within P L s e) (hstep : step s e = some (.ok s'))
    (hback : (s'.proc m).Main → (s'.proc m).pid = P → (s.proc m).Main ∧ (s.proc m).pid = P) :
    (s'.proc m).Main → (s'.proc m).pid = P → ∀ q sz, (s'.frameOf q).call = .grow m sz → sz ≤ L := by
  intro hm' hp' q sz hq
  obtain ⟨hm, hp⟩ := hback hm' hp'
  rcases (grows_step hs hset hstep hq).2 with hold | ⟨c, k, ok, rfl, hu, hmain, hlim, hsz⟩
  · exact h.grows hm hp q sz hold
  · exact h.newSize hL hW hu hmain hlim hsz hm hp

theorem Limited.settle (h : Limited P L m s) (hL : L ≠ 0) (hs : Sane s) (hs' : Sane s') {e : Event n}
    (hset : Settled s e) (hW : Within P L s e) (hmap : ∀ c pages copied, e ≠ .threadMap c pages copied)
    (hstep : step s e = some (.ok s')) (hnext : s.nextpid ≤ s'.nextpid)
    (hslot : Settles P L e (s.proc m) (s'.proc m)) : Limited P L m s' := by
  have hgrows := h.pending hL hs hset hW hstep fun hm hp => hslot.back hm hp
  cases hslot with
  | fixed hf =>
    obtain ⟨hfork, hcreated⟩ := h.calls hs hs' hset hmap hstep hf.unused hf.pid hf.isThread
    refine ⟨fun hm hp => ?_, hfork, hcreated, hgrows, h.next.trans_le hnext⟩
    rw [hf.sz, hf.memlim]
    exact h.bound (hf.main hm) (hf.pid ▸ hp)
  | apart hmain hst =>
    have hnot : ∀ q, (s'.frameOf q).call.creates ≠ some m := fun q hq => hst (hs'.creating q m hq)
    refine ⟨fun hm => absurd hm hmain, fun q hq => ?_, fun q hq => ?_, hgrows, h.next.trans_le hnext⟩
    · exact absurd (by rcases hq with e | e <;> (rw [e]; rfl)) (hnot q)
    · exact absurd (by rw [hq]; rfl) (hnot q)
  | other hpid => exact ⟨fun _ hp => absurd hp hpid, fun _ _ => hpid, fun _ _ => .inr hpid, hgrows, h.next.trans_le hnext⟩
  | taken hfork hx hy =>
    -- only `create m` is on a stack
    have hcall : ∀ q, (s'.frameOf q).call.creates = some m → (s'.frameOf q).call = .create m := by
      intro q hq
      rcases (creates_step hs hset hstep hq).2 with hsame | hnext
      · rw [hsame] at hq
        rw [hs.creating q m hq] at hx
        cases hx
      · rcases hnext.creates hq with ⟨-, ⟨-, c, he⟩ | hc⟩ | ⟨hc, -⟩ | ⟨-, -, c, pages, copied, he⟩
        · exact absurd he (hfork c true)
        · exact hc
        · rw [hs.creating q m (by rw [hc]; rfl)] at hx
          cases hx
        · exact absurd he (hmap c pages copied)
    refine ⟨fun hm => absurd hm hy, fun q hq => ?_, fun q hq => ?_, hgrows, h.next.trans_le hnext⟩
    · have hc := hcall q (by rcases hq with e | e <;> (rw [e]; rfl))
      rw [hc] at hq
      rcases hq with e | e <;> cases e
    · have hc := hcall q (by rw [hq]; rfl)
      rw [hc] at hq
      cases hq
  | resized hpid hth hlim hst hsz =>
    have hslot : Settles P L e (s.proc m) (s'.proc m) := .resized hpid hth hlim hst hsz
    obtain ⟨hfork, hcreated⟩ := h.calls hs hs' hset hmap hstep (fun hx => hst.trans hx) hpid hth
    refine ⟨fun hm hp => ?_, hfork, hcreated, hgrows, h.next.trans_le hnext⟩
    obtain ⟨hm₀, hp₀⟩ := hslot.back hm hp
    rw [hlim]
    exact ⟨hsz hm₀ hp₀, (h.bound hm₀ hp₀).2⟩

theorem pgroundup_le (sz : BitVec 32) : (pgroundup sz).toNat ≤ sz.toNat + 4095 := by
  have hand : (pgroundup sz).toNat ≤ (sz + (PGSIZE - 1)).toNat := by
    unfold pgroundup
    rw [BitVec.toNat_and]
    exact Nat.and_le_left
  have hadd : (sz + (PGSIZE - 1)).toNat ≤ sz.toNat + 4095 := by
    rw [BitVec.toNat_add]
    exact Nat.mod_le _ _
  omega

/-- A limit is not negative, so the stack of an LWP does not wrap around. -/
theorem stack_le {sz : BitVec 32} {pages : Bool} (hL : BitVec.slt L 0 = false) (hsz : sz ≤ L)
    (h : ¬ Over L (pgroundup sz + 2 * PGSIZE) pages) :
    allocuvm (pgroundup sz) (pgroundup sz + 2 * PGSIZE) pages ≤ L := by
  have hL' : L.toNat < 2 ^ 31 := by
    have hmsb : L.msb = false := by rw [← BitVec.slt_zero_eq_msb]; exact hL
    rw [BitVec.msb_eq_false_iff_two_mul_lt] at hmsb
    omega
  have hround := pgroundup_le sz
  unfold allocuvm
  split_ifs with hkern hwrap hok
  · simp [BitVec.le_def]
  · -- rounding up stays far below the end of the address space
    exfalso
    have hstack : (2 * PGSIZE).toNat = 8192 := by decide
    simp only [BitVec.lt_def, BitVec.le_def, BitVec.toNat_add, hstack] at hwrap hsz
    omega
  · exact BitVec.not_lt.1 fun hlt => h ⟨hok, BitVec.not_le.1 hkern, hlt⟩
  · simp [BitVec.le_def]

/-- A live process stays live, or exits. -/
theorem Fixed.of_live {x y : Proc} (hpid : y.pid = x.pid) (hth : y.isThread = x.isThread)
    (hsz : y.sz = x.sz) (hlim : y.memlim = x.memlim) (hx : x.Live) : Fixed x y :=
  ⟨hpid, hth, hsz, hlim, fun h => ⟨hth ▸ h.1, .inl hx⟩, fun hu => by
    unfold Proc.Live at hx; rw [hu] at hx; simp at hx⟩

/-- A slot that keeps its state. -/
theorem Fixed.of_state {x y : Proc} (hpid : y.pid = x.pid) (hth : y.isThread = x.isThread)
    (hsz : y.sz = x.sz) (hlim : y.memlim = x.memlim) (hst : y.state = x.state) : Fixed x y := by
  refine ⟨hpid, hth, hsz, hlim, fun h => ⟨hth ▸ h.1, ?_⟩, fun hu => hst.trans hu⟩
  have hy := h.2
  unfold Proc.Live at hy ⊢
  rw [hst] at hy
  exact hy

theorem Woke.fixed {x y : Proc} (h : Woke x y) (hsz : y.sz = x.sz) (hlim : y.memlim = x.memlim) :
    Fixed x y := by
  rcases h.state with e | ⟨e, -⟩
  · exact .of_state h.pid h.isThread hsz hlim e
  · exact .of_live h.pid h.isThread hsz hlim (.inl e)

theorem fixed_upd {f : Proc → Proc} (h : Fixed (t p) (f (t p))) (q : Slot) : Fixed (t q) ((t.upd p f) q) := by
  rw [upd_apply]
  split
  · rename_i hq; rw [hq]; exact h
  · exact .refl _

theorem not_main_unused {x : Proc} (h : x.state = .unused) : ¬ x.Main := by
  unfold Proc.Main Proc.Live
  rw [h]
  simp

/-- A slot that is free. -/
theorem Settles.gone {e : Event n} {x y : Proc} (h : y.state = .unused) : Settles P L e x y :=
  .apart (not_main_unused h) (by rw [h]; simp)

theorem settles_upd {e : Event n} {f : Proc → Proc} (h : m = p → Settles P L e (t p) (f (t p))) :
    Settles P L e (t m) ((t.upd p f) m) := by
  rw [upd_apply]
  split
  · rename_i hm; rw [hm]; exact h hm
  · exact .fixed (.refl _)

theorem Proc.kill_fixed (x : Proc) : Fixed x x.kill := by
  rcases x.kill_state with ⟨e, -⟩ | e
  · exact .of_live rfl rfl rfl rfl (.inl e)
  · exact .of_state rfl rfl rfl rfl e

/-- What `kill_thread` does to a slot. -/
theorem Killed.slot (hk : Killed t t' p) (m : Slot) :
    Fixed (t m) (t' m) ∨ (t' m).state = .unused ∨
      m = p ∧ (t m).isThread = true ∧ (t' m).pid = (t m).pid := by
  by_cases hv : t.Victim p m
  · rw [hk.victim m hv]
    exact .inr (.inl rfl)
  · by_cases hmp : m = p
    · subst hmp
      obtain ⟨pr, kl, he⟩ := hk.self hv
      rw [he]
      by_cases hth : (t m).isThread = true
      · exact .inr (.inr ⟨rfl, hth, rfl⟩)
      · exact .inl (.of_state rfl (by simpa using hth) rfl rfl rfl)
    · left
      by_cases hm : t.Marked p m
      · rw [hk.marked m hmp hv hm]; exact .of_state rfl rfl rfl rfl rfl
      · rw [hk.other m hmp hv hm]; exact .refl _

/-- `kill`, when it makes no LWP of process `P` the main thread. -/
theorem settles_kill {e : Event n} (hk : Killed t t' p) (hp : (t p).isThread = true → (t p).pid ≠ P) :
    Settles P L e (t m) ((t'.upd p Proc.kill) m) := by
  have hfix : Fixed (t' m) ((t'.upd p Proc.kill) m) := fixed_upd (Proc.kill_fixed _) m
  rcases hk.slot m with h | h | ⟨hm, hth, hpid⟩
  · exact .fixed ⟨hfix.pid.trans h.pid, hfix.isThread.trans h.isThread, hfix.sz.trans h.sz,
      hfix.memlim.trans h.memlim, fun hy => h.main (hfix.main hy), fun hx => hfix.unused (h.unused hx)⟩
  · exact .gone (hfix.unused h)
  · exact .other (by rw [hfix.pid, hpid, hm]; rw [hm] at hth; exact hp hth)

/-- The critical section of `thread_create` resizes the main thread, and fills the LWP in. -/
theorem threadMap_slots {thrd : Slot} {pages copied : Bool}
    (h : s.threadMap c m thrd pages copied = .ok s') :
    ∃ g : Frame, s'.frame = Function.update s.frame (s.cpu c).stack g ∧ s'.nextpid = s.nextpid ∧
      (g.call.creates = none ∨ g = ⟨.created thrd, false⟩ ∧ (s'.proc thrd).isThread = true) ∧
      (∀ q, (s'.proc q).kstack = (s.proc q).kstack ∧ (s'.proc q).pid = (s.proc q).pid ∧
        (s'.proc q).memlim = (s.proc q).memlim ∧ (s'.proc q).state = (s.proc q).state) ∧
      ∀ q, q ≠ thrd → (s'.proc q).isThread = (s.proc q).isThread ∧
        ((s'.proc q).sz = (s.proc q).sz ∨ q = m ∧ (s'.proc q).sz =
          allocuvm (pgroundup (s.proc m).sz) (pgroundup (s.proc m).sz + 2 * PGSIZE) pages) := by
  have hres : ∀ (sz : BitVec 32) (q : Slot), q ≠ thrd →
      ((s.proc.resize m sz) q).isThread = (s.proc q).isThread ∧
        (((s.proc.resize m sz) q).sz = (s.proc q).sz ∨ q = m ∧ ((s.proc.resize m sz) q).sz = sz) := by
    intro sz q _
    refine ⟨upd_field Proc.isThread _ _ q _ (by rfl), ?_⟩
    unfold Table.resize
    rw [upd_apply]
    split
    · rename_i hq; exact .inr ⟨hq, rfl⟩
    · exact .inl rfl
  unfold State.threadMap at h
  generalize allocuvm (pgroundup (s.proc m).sz) (pgroundup (s.proc m).sz + 2 * PGSIZE) pages = sz at h ⊢
  dsimp only at h
  split_ifs at h with hd hsz hc
  · -- no pages: the size becomes 0
    cases h
    refine ⟨.idle, rfl, rfl, .inl rfl, fun q => ⟨?_, ?_, ?_, ?_⟩, hres sz⟩
    · exact upd_field Proc.kstack _ _ q _ (by rfl)
    · exact upd_field Proc.pid _ _ q _ (by rfl)
    · exact upd_field Proc.memlim _ _ q _ (by rfl)
    · exact upd_field Proc.state _ _ q _ (by rfl)
  · cases h
    have hshare : ∀ q, q ≠ thrd → ((s.proc.resize m sz).share m thrd sz) q = (s.proc.resize m sz) q :=
      fun q hq => upd_ne _ hq _
    refine ⟨.idle, rfl, rfl, .inl rfl, fun q => ⟨?_, ?_, ?_, ?_⟩, fun q hq => ?_⟩
    · exact (upd_field Proc.kstack _ _ q _ (by rfl)).trans (upd_field Proc.kstack _ _ q _ (by rfl))
    · exact (upd_field Proc.pid _ _ q _ (by rfl)).trans (upd_field Proc.pid _ _ q _ (by rfl))
    · exact (upd_field Proc.memlim _ _ q _ (by rfl)).trans (upd_field Proc.memlim _ _ q _ (by rfl))
    · exact (upd_field Proc.state _ _ q _ (by rfl)).trans (upd_field Proc.state _ _ q _ (by rfl))
    · simpa only [State.setFrame, hshare q hq] using hres sz q hq
  · cases h
    have hadopt : ∀ q, q ≠ thrd → (((s.proc.resize m sz).share m thrd sz).adopt m thrd s.nexttid) q =
        (s.proc.resize m sz) q := fun q hq => (upd_ne _ hq _).trans (upd_ne _ hq _)
    refine ⟨⟨.created thrd, false⟩, rfl, rfl, .inr ⟨rfl, ?_⟩, fun q => ⟨?_, ?_, ?_, ?_⟩, fun q hq => ?_⟩
    · simp [State.setFrame, Table.adopt]
    · exact (upd_field Proc.kstack _ _ q _ (by rfl)).trans
        ((upd_field Proc.kstack _ _ q _ (by rfl)).trans (upd_field Proc.kstack _ _ q _ (by rfl)))
    · exact (upd_field Proc.pid _ _ q _ (by rfl)).trans
        ((upd_field Proc.pid _ _ q _ (by rfl)).trans (upd_field Proc.pid _ _ q _ (by rfl)))
    · exact (upd_field Proc.memlim _ _ q _ (by rfl)).trans
        ((upd_field Proc.memlim _ _ q _ (by rfl)).trans (upd_field Proc.memlim _ _ q _ (by rfl)))
    · exact (upd_field Proc.state _ _ q _ (by rfl)).trans
        ((upd_field Proc.state _ _ q _ (by rfl)).trans (upd_field Proc.state _ _ q _ (by rfl)))
    · simpa only [State.setFrame, hadopt q hq] using hres sz q hq

/-- `thread_create` gives the process its two pages. -/
theorem limited_threadMap {pages copied : Bool} (hs : Sane s) (h : Limited P L m s) (hL₀ : L ≠ 0)
    (hL : BitVec.slt L 0 = false) (hset : Settled s (.threadMap c pages copied))
    (hW : Within P L s (.threadMap c pages copied))
    (hstep : step s (.threadMap c pages copied) = some (.ok s')) : Limited P L m s' := by
  have hgrows := h.pending hL₀ hs hset hW hstep
  simp only [step] at hstep
  split at hstep
  · rename_i p thrd hcur
    split at hstep
    · split at hstep
      · cases hstep
      · rename_i m₀ hm₀
        obtain ⟨g, hframe, hnext, hg, hsame, hslot⟩ := threadMap_slots (by simpa using hstep)
        have hp := (current_some hcur).1
        have hfp : (s.frameOf p).call = .create thrd := by rw [(hs.frame_current hcur).2.2]
        have hemb : (s'.proc thrd).state = .embryo :=
          (hsame thrd).2.2.2.trans (hs.creating p thrd (by rw [hfp]; rfl))
        have hframes := frameOf_step hs hcur hframe fun q => .inl (hsame q).1
        -- the calls of the others stay
        have hcall : ∀ q, q ≠ p → (s'.frameOf q).call.creates = some m →
            (s'.frameOf q).call = (s.frameOf q).call ∧ m ≠ thrd := by
          intro q hqp hq
          rw [hframes, if_neg hqp] at hq ⊢
          split
          · rename_i hn; rw [if_pos hn] at hq; cases hq
          · rename_i hn
            rw [if_neg hn] at hq
            refine ⟨rfl, ?_⟩
            rintro rfl
            exact hqp (hs.creator q p m hq (by rw [hfp]; rfl))
        have hback : (s'.proc m).Main → (s'.proc m).pid = P → (s.proc m).Main ∧ (s.proc m).pid = P := by
          intro hmain hpid
          have hne : m ≠ thrd := by rintro rfl; exact not_main_embryo hemb hmain
          have hl := hmain.2
          refine ⟨⟨(hslot m hne).1 ▸ hmain.1, ?_⟩, (hsame m).2.1 ▸ hpid⟩
          unfold Proc.Live at hl ⊢
          rw [(hsame m).2.2.2] at hl
          exact hl
        refine ⟨fun hmain hpid => ?_, fun q hq => ?_, fun q hq => ?_, hgrows hback, by rw [hnext]; exact h.next⟩
        · have hne : m ≠ thrd := by rintro rfl; exact not_main_embryo hemb hmain
          obtain ⟨hth, hsz⟩ := hslot m hne
          obtain ⟨hmain₀, hpid₀⟩ := hback hmain hpid
          obtain ⟨hle, hml⟩ := h.bound hmain₀ hpid₀
          refine ⟨?_, (hsame m).2.2.1.trans hml⟩
          rcases hsz with e | ⟨rfl, e⟩
          · rw [e]; exact hle
          · rw [e]; exact stack_le hL hle (hW p m hp hm₀ hpid₀)
        · rw [(hsame m).2.1]
          by_cases hqp : q = p
          · rw [hqp, hframes, if_pos rfl] at hq
            rcases hg with hg | ⟨rfl, -⟩
            · rcases hq with e | e <;> (rw [e] at hg; cases hg)
            · simp at hq
          · obtain ⟨hc, -⟩ := hcall q hqp (by rcases hq with e | e <;> (rw [e]; rfl))
            exact h.fork q (hc ▸ hq)
        · rw [(hsame m).2.1]
          by_cases hqp : q = p
          · rw [hqp, hframes, if_pos rfl] at hq
            rcases hg with hg | ⟨rfl, hth⟩
            · rw [hq] at hg; cases hg
            · cases hq; exact .inl hth
          · obtain ⟨hc, hne⟩ := hcall q hqp (by rw [hq]; rfl)
            rw [(hslot m hne).1]
            exact h.created q (hc ▸ hq)
    · cases hstep
  · cases hstep

/-- `exit` and `thread_exit`. -/
theorem settles_ends {e : Event n} {x : Proc} (hrun : (t p).state = .running) (hother : ∀ q, q ≠ p → Woke (t q) (t' q))
    (hx : Woke (t p) x) (hpid : (t' p).pid = x.pid) (hth : (t' p).isThread = x.isThread)
    (hsz : (t' m).sz = (t m).sz) (hlim : (t' m).memlim = (t m).memlim) : Settles P L e (t m) (t' m) := by
  by_cases hm : m = p
  · subst hm
    exact .fixed (.of_live (hpid.trans hx.pid) (hth.trans hx.isThread) hsz hlim (.inr (.inr hrun)))
  · exact .fixed ((hother m hm).fixed hsz hlim)

/-- **Every step within the limit.** -/
theorem limited_step (hs : Sane s) (hn : Numbered s) (h : Limited P L m s) (hL : L ≠ 0)
    (hneg : BitVec.slt L 0 = false) {e : Event n} (hG : Settled s e) (hW : Within P L s e)
    (hlim : ¬ s.Limits m e) (hstep : step s e = some (.ok s')) : Limited P L m s' := by
  have hs' := sane_step hs hG hstep
  by_cases hmap : ∃ c pages copied, e = .threadMap c pages copied
  · obtain ⟨c, pages, copied, rfl⟩ := hmap
    exact limited_threadMap hs h hL hneg hG hW hstep
  -- otherwise it is what happens to slot `m` that decides
  refine h.settle hL hs hs' hG hW (fun c pages copied he => hmap ⟨c, pages, copied, he⟩) hstep
    (numbered_step hn hstep).2 ?_
  have hput : ∀ {p : Slot} (f : Proc → Proc), s'.proc = s.proc.upd p f →
      (m = p → Settles P L e (s.proc p) (f (s.proc p))) → Settles P L e (s.proc m) (s'.proc m) := by
    intro p f hproc hf
    rw [hproc]
    exact settles_upd hf
  have hlive : ∀ {c p}, (s.cpu c).proc = some p → (s.proc p).Live := fun hp => .inr (.inr (hs.onCpu _ _ hp).1)
  cases step_effect hstep with
  | threadMapFail c p m thrd sz t pages copied => exact absurd ⟨c, pages, copied, rfl⟩ hmap
  | threadMap c p m thrd sz pages copied => exact absurd ⟨c, pages, copied, rfl⟩ hmap
  | dispatch c p k d hidle hst =>
    exact hput (fun x => { x with state := .running, chan := none }) rfl
      fun _ => .fixed (.of_live rfl rfl rfl rfl (.inr (.inl hst)))
  | yield c p hp =>
    exact hput (fun x => { x with state := .runnable }) rfl fun _ => .fixed (.of_live rfl rfl rfl rfl (hlive hp))
  | sleep c p chan hp =>
    exact hput (fun x => { x with chan := some (.other chan), state := .sleeping }) rfl
      fun _ => .fixed (.of_live rfl rfl rfl rfl (hlive hp))
  | wakeup chan =>
    exact .fixed ((wakeup1_woke _ _ m).fixed (wakeup1_field Proc.sz (fun _ _ _ => rfl) _ _ m)
      (wakeup1_field Proc.memlim (fun _ _ _ => rfl) _ _ m))
  | exit c p t hcur ht =>
    obtain ⟨hother, x, hx, hz⟩ := exit_ok ht
    have hpid : (t p).pid = x.pid := by rw [hz]
    have hth : (t p).isThread = x.isThread := by rw [hz]
    exact settles_ends (hs.frame_current hcur).1 hother hx hpid hth
      (exit_field Proc.sz (fun _ _ _ => rfl) ht m) (exit_field Proc.memlim (fun _ _ _ => rfl) ht m)
  | threadExit c p retval t hcur ht =>
    obtain ⟨hother, x, hx, hz⟩ := threadExit_ok ht
    have hpid : (t p).pid = x.pid := by rw [hz]
    have hth : (t p).isThread = x.isThread := by rw [hz]
    exact settles_ends (hs.frame_current hcur).1 hother hx hpid hth
      (threadExit_field Proc.sz (fun _ _ _ _ => rfl) ht m) (threadExit_field Proc.memlim (fun _ _ _ _ => rfl) ht m)
  | reap c p z => exact hput Proc.reaped rfl fun _ => .gone rfl
  | join c p z => exact hput Proc.recovered rfl fun _ => .gone rfl
  | block e c p f call he hcur =>
    exact hput (fun x => { x with chan := some (.proc p), state := .sleeping }) rfl
      fun _ => .fixed (.of_live rfl rfl rfl rfl (hlive (current_some hcur).1))
  | kill c p p₀ pid t hcur hfind ht =>
    refine settles_kill (killThread_killed ht) fun hth => hW p₀ ?_
    simp [State.promotes, hfind, hth]
  | fork c p np hcur hnp =>
    exact hput (fun x => { x.embryo s.nextpid s.nextStack with memlim := 0 }) rfl fun _ => .other h.next.ne'
  | forkFail c np hnp =>
    exact hput (fun x => { x with pid := s.nextpid, memlim := 0, kstack := none }) rfl
      fun _ => .gone (findUnused_some hnp)
  | forkCopy c p np hcur =>
    refine hput (fun x => { x with
      pgdir := some s.nextDir, sz := (s.proc p).sz, parent := some p, isThread := false, tid := 0, retval := 0 }) rfl
      fun hm => .other ?_
    exact hm ▸ h.fork p (.inl (by rw [(hs.frame_current hcur).2.2, hm]))
  | forkCopyFail c p np =>
    exact hput (fun x => { x with pgdir := none, kstack := none, state := .unused }) rfl fun _ => .gone rfl
  | forkReady c p np hcur =>
    refine hput (fun x => { x with state := .runnable }) rfl fun hm => .other ?_
    exact hm ▸ h.fork p (.inr (by rw [(hs.frame_current hcur).2.2, hm]))
  | threadCreate c p thrd hcur hthrd =>
    exact hput (fun x => x.embryo (s.proc p).pid s.nextStack) rfl
      fun _ => .taken (by simp) (findUnused_some hthrd) (not_main_embryo rfl)
  | threadCreateFail c p thrd hcur hthrd =>
    exact hput (fun x => { x with pid := (s.proc p).pid, kstack := none }) rfl fun _ => .gone (findUnused_some hthrd)
  | threadReady c p thrd hcur =>
    refine hput (fun x => { x with state := .runnable }) rfl fun hm => ?_
    rcases h.created p (by rw [(hs.frame_current hcur).2.2, hm]) with hth | hpid
    · exact .apart (not_main_lwp (hm ▸ hth)) (by simp)
    · exact .other (hm ▸ hpid)
  | killRecover c p z => exact hput Proc.recovered rfl fun _ => .gone rfl
  | killMark c p m₀ =>
    exact hput (fun x => { x with killed := true }) rfl fun _ => .fixed (.of_state rfl rfl rfl rfl rfl)
  | killHeir c p m₀ d hcur =>
    have hheir : s.heir c = some p := by rw [State.heir, hcur]
    exact hput (fun x => { x with isThread := false, parent := (s.proc m₀).parent }) rfl fun _ => .other (hW p hheir)
  | execCommit c p two d old k sz hcur =>
    exact hput (fun x => { x with pgdir := some d, sz := sz }) rfl fun _ => .resized rfl rfl rfl rfl
      fun hmain hpid => hW p (current_some hcur).1 hpid hmain.1
  | growStore c p m' sz stack d hcur =>
    refine hput (fun x => { x with sz := sz }) rfl fun hm => .resized rfl rfl rfl rfl fun hmain hpid => ?_
    exact h.grows (hm ▸ hmain) (hm ▸ hpid) p sz (by rw [(hs.frame_current hcur).2.2, hm])
  | limitStore c p q limit hcur =>
    refine hput (fun x => { x with memlim := limit }) rfl fun hm => absurd ?_ hlim
    simp [State.Limits, hcur, Call.limits, hm]
  | _ => exact .fixed (.refl _)

/-! ## Runs -/

/-- A limit that is to be stored is not negative. -/
def Signed (s : State n) : Prop := ∀ p q limit, (s.frameOf p).call = .limit q limit → BitVec.slt limit 0 = false

theorem signed_step (hs : Sane s) (h : Signed s) {e : Event n} (hset : Settled s e)
    (hstep : step s e = some (.ok s')) : Signed s' := by
  intro p q limit hp
  rcases limits_step hs hset hstep hp with hold | hneg
  · exact h p q limit hold
  · exact hneg

theorem boot_signed : Signed (boot n) := by
  intro p q limit hp
  unfold State.frameOf at hp
  split at hp <;> cases hp

theorem Sane.not_filled (hs : Sane s) (hm : (s.proc m).Main) (q : Slot) :
    (s.frameOf q).call.creates ≠ some m :=
  fun hq => not_main_embryo (hs.creating q m hq) hm

/-- The limit holds when `setmemorylimit` stores it, if the main thread is within it. -/
theorem limited_store {limit : BitVec 32} (hs : Sane s) (hn : Numbered s)
    (hcur : s.current c = some (p, ⟨.limit m limit, false⟩)) (hm : (s.proc m).Main) (hunder : s.Under m limit)
    (hstep : step s (.limitStore c) = some (.ok s')) : Limited (s.proc m).pid limit m s' := by
  have hset : Settled s (.limitStore c) := fun _ hq => hq.elim
  have hs' : s' = { s with proc := s.proc.upd m fun x => { x with memlim := limit } }.setFrame c .idle := by
    simpa [step, hcur] using hstep.symm
  have hproc : s'.proc = s.proc.upd m fun x => { x with memlim := limit } := by rw [hs']; rfl
  have hlive : (s'.proc m).Main := by rw [hproc, upd_self]; exact hm
  have hnot := (sane_step hs hset hstep).not_filled hlive
  refine ⟨fun _ _ => ?_, fun q hq => ?_, fun q hq => ?_, fun _ _ q sz hq => ?_, ?_⟩
  · rw [hproc, upd_self]
    exact ⟨hunder.1, rfl⟩
  · exact absurd (by rcases hq with e | e <;> (rw [e]; rfl)) (hnot q)
  · exact absurd (by rw [hq]; rfl) (hnot q)
  · rcases (grows_step hs hset hstep hq).2 with hold | ⟨c, k, ok, he, -⟩
    · simpa [hold, Call.grows] using hunder.2 q
    · cases he
  · rw [hs']
    exact hn m

/-- **The limit is kept.** After `setmemorylimit` has stored the limit of the main thread `m` and returned 0, the
size of `m` stays within the limit until another limit is stored, if every step is `Within` it. -/
theorem memory_limit (n : ℕ) (es₁ es₂ : List (Event n)) (s₁ s₁' s₂ : State n) (c : Fin n) (pid : ℕ)
    (limit : BitVec 32) (p m : Slot) (hG₁ : (machine n).Guarded Settled (boot n) es₁)
    (hr₁ : (machine n).run (boot n) es₁ = some (.ok s₁)) (hpos : limit ≠ 0)
    (hcur : s₁.current c = some (p, ⟨.limit m limit, false⟩)) (hm : (s₁.proc m).Main) (hpid : (s₁.proc m).pid = pid)
    (hunder : s₁.Under m limit) (hset : (machine n).step s₁ (.limitStore c) = some (.ok s₁'))
    (hG₂ : (machine n).Guarded (fun s e => Settled s e ∧ Within pid limit s e ∧ ¬ s.Limits m e)
      s₁' es₂)
    (hr₂ : (machine n).run s₁' es₂ = some (.ok s₂)) :
    (s₂.proc m).Main → (s₂.proc m).pid = pid → (s₂.proc m).sz ≤ limit := by
  obtain ⟨hs, hn, hsigned⟩ : Sane s₁ ∧ Numbered s₁ ∧ Signed s₁ :=
    Machine.guarded_inv (M := machine n) (I := fun s => Sane s ∧ Numbered s ∧ Signed s)
      ⟨boot_sane, boot_numbered, boot_signed⟩
      (fun _ _ _ hI hg hs => ⟨sane_step hI.1 hg hs, (numbered_step hI.2.1 hs).1, signed_step hI.1 hI.2.2 hg hs⟩)
      hG₁ hr₁
  have hneg : BitVec.slt limit 0 = false := hsigned p m limit (by rw [(hs.frame_current hcur).2.2])
  have hstep : step s₁ (.limitStore c) = some (.ok s₁') := hset
  have hs' : Sane s₁' := sane_step hs (fun p hp => by cases hp) hstep
  have hn' : Numbered s₁' := (numbered_step hn hstep).1
  have hlim : Limited pid limit m s₁' := hpid ▸ limited_store hs hn hcur hm hunder hstep
  have hend := Machine.guarded_inv (M := machine n)
    (I := fun s => Sane s ∧ Numbered s ∧ Limited pid limit m s) ⟨hs', hn', hlim⟩ ?_ hG₂ hr₂
  · exact fun hmain hpid => (hend.2.2.bound hmain hpid).1
  · rintro s e s' ⟨hs, hn, hl⟩ ⟨hset, hW, hno⟩ hstep
    exact ⟨sane_step hs hset hstep, (numbered_step hn hstep).1,
      limited_step hs hn hl hpos hneg hset hW hno hstep⟩

/-- Init grows by a page and creates an LWP. -/
def sbrkThenThread : List (Event 1) :=
  [.growproc 0 4096 true, .growStore 0, .threadCreate 0 true, .threadMap 0 true true]

theorem memory_limit_sbrkThenThread : ∃ s₁ s₁' s₂,
    (machine 1).run (boot 1) [.sched 0 0, .setmemorylimit 0 1 16384] = some (.ok s₁) ∧
    (machine 1).step s₁ (.limitStore 0) = some (.ok s₁') ∧
    (machine 1).run s₁' sbrkThenThread = some (.ok s₂) ∧ (s₂.proc 0).sz = 16384 ∧
    ((s₂.proc 0).Main → (s₂.proc 0).pid = 1 → (s₂.proc 0).sz ≤ 16384) := by
  obtain ⟨s₁, hr₁, hcur, hm, hpid, hunder, hset⟩ : ∃ s₁,
      (machine 1).run (boot 1) [.sched 0 0, .setmemorylimit 0 1 16384] = some (.ok s₁) ∧
      s₁.current 0 = some (0, ⟨.limit 0 16384, false⟩) ∧ (s₁.proc 0).Main ∧ (s₁.proc 0).pid = 1 ∧ s₁.Under 0 16384 ∧
      (machine 1).reaches (fun s => (machine 1).check (fun s e => Settled s e ∧ Within 1 16384 s e ∧
          ¬ s.Limits 0 e) s sbrkThenThread = true ∧
        (machine 1).reaches (fun s => (s.proc 0).sz = 16384) s sbrkThenThread = true) s₁
        [.limitStore 0] = true := Machine.run_of_reaches (by decide +kernel)
  obtain ⟨s₁', hr₁', hcheck, hend⟩ := Machine.run_of_reaches hset
  obtain ⟨s₂, hr₂, hsz⟩ := Machine.run_of_reaches hend
  obtain ⟨s, hs, hstep⟩ := (Machine.run_snoc [] _ s₁ _).1 hr₁'
  cases hs
  exact ⟨s₁, s₁', s₂, hr₁, hstep, hr₂, hsz, memory_limit 1 _ _ _ _ _ _ _ _ _ _
    (Machine.guarded_of_check (by decide +kernel)) hr₁ (by decide) hcur hm hpid hunder hstep
    (Machine.guarded_of_check hcheck) hr₂⟩

/-- **`thread_create` takes a process over its limit**: init has one page and may have one. -/
theorem thread_create_over_limit : ∃ s₁ s₁' s₂,
    (machine 1).run (boot 1) [.sched 0 0, .setmemorylimit 0 1 4096] = some (.ok s₁) ∧ s₁.Under 0 4096 ∧
    (machine 1).step s₁ (.limitStore 0) = some (.ok s₁') ∧
    (machine 1).run s₁' [.threadCreate 0 true, .threadMap 0 true true] = some (.ok s₂) ∧
    (s₂.proc 0).Main ∧ (s₂.proc 0).pid = 1 ∧ (s₂.proc 0).memlim = 4096 ∧ ¬ (s₂.proc 0).sz ≤ 4096 := by
  obtain ⟨s₁, hr₁, hunder, hset⟩ : ∃ s₁, (machine 1).run (boot 1) [.sched 0 0, .setmemorylimit 0 1 4096] = some (.ok s₁) ∧
      s₁.Under 0 4096 ∧ (machine 1).reaches (fun s => (machine 1).reaches
        (fun s => (s.proc 0).Main ∧ (s.proc 0).pid = 1 ∧ (s.proc 0).memlim = 4096 ∧ ¬ (s.proc 0).sz ≤ 4096)
        s [.threadCreate 0 true, .threadMap 0 true true] = true) s₁ [.limitStore 0] = true :=
    Machine.run_of_reaches (by decide +kernel)
  obtain ⟨s₁', hr₁', hend⟩ := Machine.run_of_reaches hset
  obtain ⟨s₂, hr₂, hover⟩ := Machine.run_of_reaches hend
  obtain ⟨s, hs, hstep⟩ := (Machine.run_snoc [] _ s₁ _).1 hr₁'
  cases hs
  exact ⟨s₁, s₁', s₂, hr₁, hunder, hstep, hr₂, hover⟩

end Xv6.Lwp
