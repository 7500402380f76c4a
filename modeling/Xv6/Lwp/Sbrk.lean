import Xv6.Lwp.Growproc
import Xv6.Lwp.OneSize

/-!
# `sbrk` by the threads of a process

`sys_sbrk` reads the size of the caller's own slot, and `growproc` stores that of the main thread, both without the
lock.

* `hmachine`: calls of `sbrk` and `thread_create` by all processes, in any order, with what each `sbrk` returned and
  where each stack went.
* `Handout`: what `sbrk` returns is the old size, and the memory is the caller's alone.
* `Fresh`: the callers have the size of their main thread, and nobody resizes a process while another of its threads
  is in `sys_sbrk`.
* **`sbrk_disjoint`**: it holds as long as every step is fresh.
* **`sbrk_same_twice`**: an LWP that was created before the last `sbrk` of its main thread gets the same memory again.
-/

namespace Xv6.Lwp

variable {n : ℕ}

/-! ## The calls -/

/-- Memory of a page directory that was given out. -/
inductive Area
  /-- `sbrk(n)` returned `addr` when the size was `old` -/
  | heap (d : Dir) (addr n old : BitVec 32)
  /-- the two pages of `thread_create`, below `sz` -/
  | stack (d : Dir) (sz : BitVec 32)
  deriving DecidableEq

namespace Area

def dir : Area → Dir
  | heap d _ _ _ => d
  | stack d _ => d

/-- The first address. -/
def lo : Area → ℕ
  | heap _ addr _ _ => addr.toNat
  | stack _ sz => sz.toNat - (2 * PGSIZE).toNat

/-- The address after the last one. -/
def hi : Area → ℕ
  | heap _ addr n _ => addr.toNat + n.toNat
  | stack _ sz => sz.toNat

end Area

structure HState (n : ℕ) where
  base : MState n
  /-- `addr` and `n` of a process in `sys_sbrk` -/
  call : Slot → Option (BitVec 32 × BitVec 32)
  /-- that of an `sbrk` from the `release` of `growproc` on -/
  areas : List Area

inductive HEvent (n : ℕ)
  /-- `sys_sbrk`, up to the call of `growproc` -/
  | sbrk (c : Fin n) (k : BitVec 32)
  /-- `growproc` up to `release`; if it fails, `sys_sbrk` returns -1 -/
  | grow (c : Fin n) (got : ℕ → Got)
  /-- `growproc` stores the size, and `sys_sbrk` returns -/
  | store (c : Fin n)
  | other (e : Event n)

/-- The scheduler and `thread_create`. -/
def Event.shares : Event n → Bool
  | .sched .. | .yield _ | .sleep .. | .wakeup _ | .threadCreate .. | .threadMap .. | .threadReady _ => true
  | _ => false

/-- The CPU whose process makes the step; it has no say in a preemption. -/
def Event.caller : Event n → Option (Fin n)
  | .sleep c _ | .threadCreate c _ | .threadMap c _ _ | .threadReady c => some c
  | _ => none

/-- The page directory and the size of the process of `p`. -/
def State.memory (s : State n) (p : Slot) : Option (Dir × BitVec 32) :=
  (s.proc.main p).bind fun m => (s.proc m).pgdir.map fun d => (d, (s.proc m).sz)

/-- The size after the critical section of `thread_create`. -/
def State.mapped (s : State n) (m : Slot) (pages : Bool) : BitVec 32 :=
  allocuvm (pgroundup (s.proc m).sz) (pgroundup (s.proc m).sz + 2 * PGSIZE) pages

/-- The stack that `thread_create` maps in this step. -/
def State.newStack (s : State n) : Event n → Option Area
  | .threadMap c pages _ => do
    let p ← (s.cpu c).proc
    let m ← s.proc.main p
    let d ← (s.proc m).pgdir
    if s.mapped m pages = 0 then none else some (.stack d (s.mapped m pages))
  | _ => none

/-- After the critical section of `growproc`: `sys_sbrk` returns -1, or it is going to return `addr`. -/
def HState.grown (h : HState n) (c : Fin n) (p : Slot) (addr k : BitVec 32) (o : Option (Slot × BitVec 32))
    (s : MState n) : HState n where
  base := s.between c o
  call := if o.isNone then Function.update h.call p none else h.call
  areas :=
    match h.base.kernel.memory p with
    | some (d, old) => if o.isSome then .heap d addr k old :: h.areas else h.areas
    | none => h.areas

def hstep (h : HState n) : HEvent n → Option (Except Trap (HState n))
  | .sbrk c k =>
    match h.base.kernel.user c with
    | some p =>
      if h.call p = none ∧ BitVec.slt 0 k = true then
        some (.ok { h with call := Function.update h.call p (some ((h.base.kernel.proc p).sz, k)) })
      else none
    | none => none
  | .grow c got =>
    match h.base.kernel.user c with
    | some p =>
      match h.call p with
      | some (addr, k) =>
        if h.base.kernel.Free then
          some ((growSection h.base c p k got).map fun (o, s) => h.grown c p addr k o s)
        else none
      | none => none
    | none => none
  | .store c =>
    match h.base.kernel.current c with
    | some (p, ⟨.grow _ _, false⟩) =>
      (mstep h.base (.proc (.growStore c))).map fun r => r.map fun s =>
        { h with base := s, call := Function.update h.call p none }
    | _ => none
  | .other e =>
    if e.shares = true ∧ ∀ c p, e.caller = some c → (h.base.kernel.cpu c).proc = some p → h.call p = none then
      (mstep h.base (.proc e)).map fun r => r.map fun s =>
        { h with base := s, areas := (h.base.kernel.newStack e).toList ++ h.areas }
    else none

def hmachine (n : ℕ) : Machine (HState n) (HEvent n) Trap := ⟨hstep⟩

/-! ## What should hold -/

/-- What `sbrk` gave. -/
structure Handout (h : HState n) : Prop where
  /-- each call returned the old size -/
  old : ∀ d addr k old, .heap d addr k old ∈ h.areas → addr = old
  /-- no two areas of a process have an address in common -/
  apart : h.areas.Pairwise fun a b => a.dir = b.dir → a.hi ≤ b.lo ∨ b.hi ≤ a.lo
  mapped : ∀ d addr k old, .heap d addr k old ∈ h.areas →
    ∀ i, addr.toNat ≤ i → i < addr.toNat + k.toNat → h.base.pages d (i / 4096) = true

/-! ## The condition -/

/-- No other thread of the process with main thread `m` is in `sys_sbrk`. -/
def HState.Only (h : HState n) (p m : Slot) : Prop :=
  ∀ q, q ≠ p → h.base.kernel.proc.main q = some m → h.call q = none

instance (h : HState n) (p m : Slot) : Decidable (h.Only p m) := by
  unfold HState.Only
  infer_instance

/-- What `p` asks for is over its memory limit. -/
def HState.Limited (h : HState n) (p : Slot) : Prop :=
  match h.call p with
  | some (_, k) => (h.base.kernel.proc p).limited k
  | none => False

/-- The caller's own size is that of its main thread; and who resizes a process, up to the store of the size, is the
only one in `sys_sbrk` there, and finds it with a size. -/
def Fresh (h : HState n) : HEvent n → Prop
  | .sbrk c _ => ∀ p m, h.base.kernel.user c = some p → h.base.kernel.proc.main p = some m →
      (h.base.kernel.proc p).sz = (h.base.kernel.proc m).sz
  | .grow c _ => ∀ p m, h.base.kernel.user c = some p → h.base.kernel.proc.main p = some m → ¬ h.Limited p →
      (h.base.kernel.proc m).sz ≠ 0 ∧ h.Only p m
  | .store c => (h.base.kernel.current c).all fun x => x.2.call.grows.all fun g => h.Only x.1 g.1
  | .other (.threadMap c _ _) => ∀ p m, (h.base.kernel.cpu c).proc = some p →
      h.base.kernel.proc.main p = some m → (h.base.kernel.proc m).sz ≠ 0 ∧ h.Only p m
  | .other _ => True

instance (h : HState n) (p : Slot) : Decidable (h.Limited p) := by
  unfold HState.Limited
  split <;> infer_instance

instance (h : HState n) (e : HEvent n) : Decidable (Fresh h e) := by
  unfold Fresh
  split <;> infer_instance

/-! ## Before the calls -/

/-- The main thread of a process is there. -/
def Table.Rooted (t : Table) (q : Slot) : Prop := ∃ m, t.main q = some m ∧ (t m).Main ∧ (t m).pid = (t q).pid

/-- The LWP that has its memory and is not ready yet. -/
def Call.made : Call → Option Slot
  | .created np => some np
  | _ => Option.none

/-- Slot `m` has the size `sz`, or `growproc` is about to store that. -/
def State.Due (s : State n) (m : Slot) (sz : BitVec 32) : Prop :=
  (∃ p, (s.frameOf p).call = .grow m sz) ∨ (∀ p sz', (s.frameOf p).call ≠ .grow m sz') ∧ (s.proc m).sz = sz

/-- Every LWP has its main thread, and a process has the pages below its size, unless it lost that. -/
structure Heap (s : MState n) : Prop where
  dirs : Dirs s.kernel
  rooted : ∀ q, (s.kernel.proc q).Live → s.kernel.proc.Rooted q
  made : ∀ p q, (s.kernel.frameOf p).call.made = some q → s.kernel.proc.Rooted q
  small : ∀ m sz, (s.kernel.proc m).Main → s.kernel.Due m sz → sz.toNat ≤ KERNBASE.toNat
  full : ∀ m d sz, (s.kernel.proc m).Main → (s.kernel.proc m).pgdir = some d → s.kernel.Due m sz → sz ≠ 0 →
    (s.pages d).Full sz

/-- Before the first call. -/
def HState.start (s : MState n) : HState n := ⟨s, fun _ => none, []⟩


/-! ## Steps that resize no process -/

variable {s s' : State n} {c : Fin n} {p q m : Slot} {x x' : Dir → Pages}

/-- A slot keeps its page directory and its place in its process. `made` is for the LWP of a `thread_create` that is not
ready yet. -/
structure CalmAt (made : Prop) (a b : Proc) : Prop where
  pgdir : b.pgdir = a.pgdir
  isThread : b.isThread = a.isThread
  parent : b.parent = a.parent
  pid : b.pid = a.pid ∨ a.state = .unused
  live : a.Live → b.Live
  zombie : b.state = .zombie ↔ a.state = .zombie
  woken : b.Live → a.Live ∨ made

/-- The slots keep their page directories and their places. -/
structure Steady (s s' : State n) : Prop where
  slot : ∀ q, CalmAt (∃ p, (s.frameOf p).call.made = some q) (s.proc q) (s'.proc q)
  made : ∀ p q, (s'.frameOf p).call.made = some q → (s.frameOf p).call.made = some q

/-- A step of the scheduler, or of `thread_create` outside its critical section. -/
structure Calm (s s' : State n) : Prop extends Steady s s' where
  sz : ∀ q, (s'.proc q).sz = (s.proc q).sz
  grows : ∀ q, (s'.frameOf q).call.grows = (s.frameOf q).call.grows

namespace CalmAt

variable {made : Prop} {a b : Proc}

theorem refl (made : Prop) (a : Proc) : CalmAt made a a := ⟨rfl, rfl, rfl, .inl rfl, id, .rfl, .inl⟩

theorem not_zombie (h : a.Live) : a.state ≠ .zombie := by
  rintro he
  rcases h with h | h | h <;> (rw [h] at he; cases he)

/-- Only the size changes. -/
theorem of_size (h : ∃ sz, b = { a with sz := sz }) : CalmAt made a b := by
  obtain ⟨sz, rfl⟩ := h
  exact ⟨rfl, rfl, rfl, .inl rfl, id, .rfl, .inl⟩

/-- The state of a live process changes. -/
theorem of_live (hst : ∃ st chan, b = { a with state := st, chan := chan }) (ha : a.Live) (hb : b.Live) :
    CalmAt made a b := by
  obtain ⟨st, chan, rfl⟩ := hst
  exact ⟨rfl, rfl, rfl, .inl rfl, fun _ => hb,
    ⟨fun h => absurd h (not_zombie hb), fun h => absurd h (not_zombie ha)⟩, fun _ => .inl ha⟩

/-- `allocate` takes the slot, or gives it back. -/
theorem taken {st : ProcState} {pid : ℕ} {ks : Option Stack} (ha : a.state = .unused)
    (hst : st = .unused ∨ st = .embryo) : CalmAt made a { a with state := st, pid := pid, kstack := ks } := by
  have hdead : ¬ (a.Live) := by
    unfold Proc.Live
    simp [ha]
  have hdead' : ¬ ({ a with state := st, pid := pid, kstack := ks } : Proc).Live := by
    unfold Proc.Live
    rcases hst with rfl | rfl <;> simp
  refine ⟨rfl, rfl, rfl, .inr ha, fun h => absurd h hdead, ?_, fun h => absurd h hdead'⟩
  rw [ha]
  rcases hst with rfl | rfl <;> simp

/-- The LWP is ready. -/
theorem ready (hmade : made) (ha : a.state = .embryo) : CalmAt made a { a with state := .runnable } := by
  refine ⟨rfl, rfl, rfl, .inl rfl, fun _ => .inr (.inl rfl), ?_, fun _ => .inr hmade⟩
  rw [ha]
  simp

end CalmAt

/-- A step that writes to one slot. -/
theorem steady_upd {z : Slot} {f : Proc → Proc} (hproc : s'.proc = s.proc.upd z f)
    (hz : CalmAt (∃ p, (s.frameOf p).call.made = some z) (s.proc z) (f (s.proc z)))
    (hsz : (f (s.proc z)).sz = (s.proc z).sz)
    (hmade : ∀ p q, (s'.frameOf p).call.made = some q → (s.frameOf p).call.made = some q) :
    Steady s s' ∧ ∀ q, (s'.proc q).sz = (s.proc q).sz := by
  refine ⟨⟨fun q => ?_, hmade⟩, fun q => ?_⟩
  · by_cases hq : q = z
    · rw [hq, hproc, upd_self]
      exact hz
    · rw [hproc, upd_ne _ hq]
      exact .refl _ _
  · rw [hproc]
    exact upd_field Proc.sz _ _ q _ hsz

/-- The frames stay. -/
theorem made_same (hframe : s'.frame = s.frame) (hk : ∀ q, (s'.proc q).kstack = (s.proc q).kstack) (p q : Slot)
    (h : (s'.frameOf p).call.made = some q) : (s.frameOf p).call.made = some q := by
  rw [calls_same (k := Call.made) rfl hframe (fun z => .inl (hk z)) h] at h
  exact h

/-- One process goes on. -/
theorem made_step (hs : Sane s) {f g : Frame} {y : Slot} (hcur : s.current c = some (y, f))
    (hframe : s'.frame = Function.update s.frame (s.cpu c).stack g)
    (hk : ∀ q, (s'.proc q).kstack = (s.proc q).kstack) (hg : g.call.made = none) (p q : Slot)
    (h : (s'.frameOf p).call.made = some q) : (s.frameOf p).call.made = some q := by
  rw [calls_step (k := Call.made) rfl hs hcur hframe (fun z => .inl (hk z)) hg h] at h
  exact h

theorem made_waits {f : Frame} (h : f.Waits) : f.call.made = none := by
  rcases h with rfl | rfl | ⟨thread, rfl⟩ <;> rfl

theorem steady_step (hs : Sane s) {e : Event n} (he : e.shares = true)
    (hmap : ∀ c pages copied, e ≠ .threadMap c pages copied) (hstep : step s e = some (.ok s')) :
    Steady s s' ∧ ∀ q, (s'.proc q).sz = (s.proc q).sz := by
  have hrun : ∀ {c p}, (s.cpu c).proc = some p → (s.proc p).Live :=
    fun hp => .inr (.inr (hs.onCpu _ _ hp).1)
  cases step_effect hstep with
  | stay => exact ⟨⟨fun q => .refl _ _, fun _ _ h => h⟩, fun _ => rfl⟩
  | dispatch c p k d hidle hst hk hd =>
    refine steady_upd (f := fun x => { x with state := .running, chan := none }) rfl
      (.of_live ⟨_, _, rfl⟩ (.inr (.inl hst)) (.inr (.inr rfl))) rfl (made_same rfl fun q => ?_)
    exact upd_field Proc.kstack _ _ q _ rfl
  | yield c p hp =>
    refine steady_upd (f := fun x => { x with state := .runnable }) rfl
      (.of_live ⟨_, _, rfl⟩ (hrun hp) (.inr (.inl rfl))) rfl (made_same rfl fun q => ?_)
    exact upd_field Proc.kstack _ _ q _ rfl
  | sleep c p chan hp =>
    refine steady_upd (f := fun x => { x with chan := some (.other chan), state := .sleeping }) rfl
      (.of_live ⟨_, _, rfl⟩ (hrun hp) (.inl rfl)) rfl (made_same rfl fun q => ?_)
    exact upd_field Proc.kstack _ _ q _ rfl
  | wakeup chan =>
    refine ⟨⟨fun q => ?_, made_same rfl fun q => (wakeup1_woke _ _ q).kstack⟩,
      fun q => wakeup1_field Proc.sz (fun _ _ _ => rfl) _ _ q⟩
    show CalmAt _ (s.proc q) (wakeup1 s.proc (some (.other chan)) q)
    unfold wakeup1
    split
    · rename_i hq
      exact .of_live ⟨_, _, rfl⟩ (.inl hq.1) (.inr (.inl rfl))
    · exact .refl _ _
  | waited e c p f he hcur hf =>
    exact ⟨⟨fun q => .refl _ _, made_step hs hcur rfl (fun _ => rfl) rfl⟩, fun _ => rfl⟩
  | block e c p f call he hcur hf hw =>
    refine steady_upd (f := fun x => { x with chan := some (.proc p), state := .sleeping }) rfl
      (.of_live ⟨_, _, rfl⟩ (hrun (current_some hcur).1) (.inl rfl)) rfl
      (made_step hs hcur rfl (fun q => ?_) (made_waits hw))
    exact upd_field Proc.kstack _ _ q _ rfl
  | threadCreate c p thrd hcur hthrd =>
    have hun := findUnused_some hthrd
    refine steady_upd (f := fun x => x.embryo (s.proc p).pid s.nextStack) rfl (.taken hun (.inr rfl)) rfl ?_
    intro y q hy
    have hother : ∀ q, q ≠ thrd → (s.proc.upd thrd fun x => x.embryo (s.proc p).pid s.nextStack) q = s.proc q :=
      fun q hq => upd_ne _ hq _
    rw [frameOf_spawn hs hcur hun (congrArg Proc.kstack (upd_self ..)) hother rfl] at hy
    split at hy
    · cases hy
    · exact hy
  | threadCreateFail c p thrd hcur hthrd =>
    have hun := findUnused_some hthrd
    refine steady_upd (f := fun x => { x with pid := (s.proc p).pid, kstack := none }) rfl
      (.taken hun (.inl hun)) rfl (made_same rfl fun q => ?_)
    exact upd_field Proc.kstack _ _ q _ ((hs.used thrd).1 hun).symm
  | threadReady c p thrd hcur =>
    have hframe := (hs.frame_current hcur).2.2
    have hemb : (s.proc thrd).state = .embryo := by
      apply hs.creating p thrd
      rw [hframe]
      rfl
    refine steady_upd (f := fun x => { x with state := .runnable }) rfl (.ready ⟨p, by rw [hframe]; rfl⟩ hemb)
      rfl (made_step hs hcur rfl (fun q => ?_) rfl)
    exact upd_field Proc.kstack _ _ q _ rfl
  | threadMap c p m thrd sz pages copied => exact absurd rfl (hmap c pages copied)
  | threadMapFail c p m thrd sz t pages copied => exact absurd rfl (hmap c pages copied)
  | _ => cases he

theorem shares_quiet {s : State n} {e : Event n} (he : e.shares = true) : KillsQuietly s e := by
  cases e <;> first | exact ⟨rfl, fun _ hq => hq.elim⟩ | cases he

/-- A process between `release` and the store in `growproc` is neither being created nor gone. -/
theorem Sane.grows_live (h : Sane s) (hp : (s.frameOf p).call.grows ≠ none) : (s.proc p).Live := by
  have hne : s.frameOf p ≠ .idle := fun e => hp (by rw [e]; rfl)
  cases hst : (s.proc p).state with
  | unused => exact absurd (frameOf_none ((h.used p).1 hst)) hne
  | embryo => exact absurd (h.idle p (.inl hst)) hne
  | zombie => exact absurd (h.idle p (.inr hst)) hne
  | sleeping => exact .inl hst
  | runnable => exact .inr (.inl hst)
  | running => exact .inr (.inr hst)

/-- **A step that resizes no process.** -/
theorem calm_step (hs : Sane s) {e : Event n} (he : e.shares = true)
    (hmap : ∀ c pages copied, e ≠ .threadMap c pages copied) (hstep : step s e = some (.ok s')) : Calm s s' := by
  obtain ⟨hp, hsz⟩ := steady_step hs he hmap hstep
  have hset : Settled s e := fun q hq => ((shares_quiet he).2 q hq).2.1
  refine ⟨hp, hsz, fun q => ?_⟩
  by_cases hk : (s'.proc q).kstack = none
  · -- it had no stack before
    have hgone : (s.frameOf q).call.grows = none := by
      by_contra hne
      have hlive := (hp.slot q).live (hs.grows_live hne)
      have hun := ((sane_step hs hset hstep).used q).2 hk
      rcases hlive with h | h | h <;> (rw [hun] at h; cases h)
    rw [frameOf_none hk, hgone]
    rfl
  · exact grows_keep hs hset hstep (by rintro c k ok rfl; cases he) (by rintro c rfl; cases he) hk

theorem made_embryo (hd : Dirs s) (h : (s.frameOf p).call.made = some q) :
    (s.proc q).state = .embryo ∧ (s.proc q).isThread = true := by
  have hcall : (s.frameOf p).call = .created q := by
    cases hc : (s.frameOf p).call <;> rw [hc] at h <;> cases h
    rfl
  have hcreates : (s.frameOf p).call.creates = some q := by
    rw [hcall]
    rfl
  exact ⟨hd.sane.creating p q hcreates, ((hd.grouped.fills p).created q hcall).1⟩

namespace Steady

theorem main_iff (h : Steady s s') (hd : Dirs s) (q : Slot) : (s'.proc q).Main ↔ (s.proc q).Main := by
  have hq := h.slot q
  unfold Proc.Main
  rw [hq.isThread, hq.zombie]
  constructor
  · rintro ⟨hth, hl | hz⟩
    · refine ⟨hth, .inl ?_⟩
      rcases hq.woken hl with hl | ⟨p, hp⟩
      · exact hl
      · rw [(made_embryo hd hp).2] at hth
        cases hth
    · exact ⟨hth, .inr hz⟩
  · rintro ⟨hth, hl | hz⟩
    · exact ⟨hth, .inl (hq.live hl)⟩
    · exact ⟨hth, .inr hz⟩

theorem main_eq (h : Steady s s') (q : Slot) : s'.proc.main q = s.proc.main q := by
  unfold Table.main
  rw [(h.slot q).isThread, (h.slot q).parent]

theorem pid (h : Steady s s') (hq : (s.proc q).state ≠ .unused) : (s'.proc q).pid = (s.proc q).pid :=
  (h.slot q).pid.resolve_right hq

theorem rooted (h : Steady s s') (hd : Dirs s) (hq : (s.proc q).state ≠ .unused) (hr : s.proc.Rooted q) :
    s'.proc.Rooted q := by
  obtain ⟨m, hm, hmain, hpid⟩ := hr
  have hused : (s.proc m).state ≠ .unused := by
    rintro he
    rcases hmain.2 with (h | h | h) | h <;> (rw [h] at he; cases he)
  exact ⟨m, (h.main_eq q).trans hm, (h.main_iff hd m).2 hmain, by rw [h.pid hused, h.pid hq, hpid]⟩

end Steady

theorem not_unused {x : Proc} (h : x.Live) : x.state ≠ .unused := by
  rintro he
  rcases h with h | h | h <;> (rw [h] at he; cases he)

theorem Heap.steady {x : Dir → Pages} (h : Heap ⟨s, x⟩) (hc : Steady s s') (hd : Dirs s')
    (hdue : ∀ m sz, s'.Due m sz → s.Due m sz) : Heap ⟨s', x⟩ where
  dirs := hd
  rooted q hq := by
    rcases (hc.slot q).woken hq with hl | ⟨p, hp⟩
    · exact hc.rooted h.dirs (not_unused hl) (h.rooted q hl)
    · have hemb := (made_embryo h.dirs hp).1
      exact hc.rooted h.dirs (by rw [hemb]; simp) (h.made p q hp)
  made p q hp := by
    have hp' := hc.made p q hp
    have hemb := (made_embryo h.dirs hp').1
    exact hc.rooted h.dirs (by rw [hemb]; simp) (h.made p q hp')
  small m sz hm hsz := h.small m sz ((hc.main_iff h.dirs m).1 hm) (hdue m sz hsz)
  full m d sz hm hpg hsz h0 :=
    h.full m d sz ((hc.main_iff h.dirs m).1 hm) ((hc.slot m).pgdir.symm.trans hpg) (hdue m sz hsz) h0

theorem Calm.lock (s : State n) (o : Option (Fin n)) : Calm s { s with lock := o } :=
  ⟨⟨fun _ => .refl _ _, fun _ _ h => h⟩, fun _ => rfl, fun _ => rfl⟩

theorem Calm.call (h : Calm s s') {sz : BitVec 32} :
    (s'.frameOf p).call = .grow m sz ↔ (s.frameOf p).call = .grow m sz := by
  rw [← grows_some, h.grows, grows_some]

theorem Calm.due (h : Calm s s') {sz : BitVec 32} (hsz : s'.Due m sz) : s.Due m sz := by
  rcases hsz with ⟨p, hp⟩ | ⟨hno, hsz⟩
  · exact .inl ⟨p, h.call.1 hp⟩
  · exact .inr ⟨fun p sz' hp => hno p sz' (h.call.2 hp), (h.sz m).symm.trans hsz⟩

/-! ## The invariant -/

structure Given (h : HState n) : Prop where
  heap : Heap h.base
  /-- what `sys_sbrk` read is still the size -/
  reads : ∀ q a, h.call q = some a → (h.base.kernel.proc q).Live ∧ BitVec.slt 0 a.2 = true ∧
    ∃ m, h.base.kernel.proc.main q = some m ∧ a.1 = (h.base.kernel.proc m).sz
  /-- who is about to store a size is in `sys_sbrk` -/
  stores : ∀ q m sz, (h.base.kernel.frameOf q).call = .grow m sz →
    h.call q ≠ none ∧ h.base.kernel.proc.main q = some m
  below : ∀ a ∈ h.areas, ∀ m sz, (h.base.kernel.proc m).Main → (h.base.kernel.proc m).pgdir = some a.dir →
    h.base.kernel.Due m sz → sz ≠ 0 → a.hi ≤ sz.toNat
  handout : Handout h

theorem start_given {s : MState n} (h : Heap s) (hidle : ∀ q, (s.kernel.frameOf q).call.grows = none) :
    Given (HState.start s) where
  heap := h
  reads q a hq := by cases hq
  stores q m sz hq := by
    have hnone := hidle q
    rw [show (s.kernel.frameOf q).call = .grow m sz from hq] at hnone
    cases hnone
  below a ha := absurd ha List.not_mem_nil
  handout := ⟨fun d addr k old ha => absurd ha List.not_mem_nil, .nil,
    fun d addr k old ha => absurd ha List.not_mem_nil⟩

variable {h h' : HState n}

/-- While no other thread of its process is in `sys_sbrk`, `p` is the only one that may be about to store a size. -/
theorem Given.only_stores (hg : Given h) {sz : BitVec 32} (honly : h.Only p m)
    (hq : (h.base.kernel.frameOf q).call = .grow m sz) : q = p := by
  obtain ⟨hcall, hm⟩ := hg.stores q m sz hq
  by_contra hqp
  exact hcall (honly q hqp hm)

/-- **A step that resizes no process** keeps what was given. -/
theorem Given.calm (hg : Given h) (hc : Calm h.base.kernel s') (hd : Dirs s') :
    Given { h with base := ⟨s', h.base.pages⟩ } where
  heap := hg.heap.steady hc.toSteady hd fun _ _ => hc.due
  reads q a hq := by
    obtain ⟨hl, hk, m, hm, ha⟩ := hg.reads q a hq
    exact ⟨(hc.slot q).live hl, hk, m, (hc.main_eq q).trans hm, ha.trans (hc.sz m).symm⟩
  stores q m sz hq := by
    obtain ⟨hcall, hm⟩ := hg.stores q m sz (hc.call.1 hq)
    exact ⟨hcall, (hc.main_eq q).trans hm⟩
  below a ha m sz hm hpg hsz h0 :=
    hg.below a ha m sz ((hc.main_iff hg.heap.dirs m).1 hm) ((hc.slot m).pgdir.symm.trans hpg) (hc.due hsz) h0
  handout := ⟨hg.handout.old, hg.handout.apart, hg.handout.mapped⟩

/-- No other main thread has the page directory. -/
theorem main_inj {m' : Slot} {d : Dir} (h : Dirs s) (hm : (s.proc m).Main) (hm' : (s.proc m').Main)
    (hd : (s.proc m).pgdir = some d) (hd' : (s.proc m').pgdir = some d) : m = m' := by
  have hx := h.owned.inj (m, .own) (m', .own) d ((holds_own hm).trans hd) ((holds_own hm').trans hd')
  exact congrArg Prod.fst hx

/-- The process with main thread `m` and page directory `d` gets the size `sz`, and the pages below it. -/
structure Resizing (s s' : MState n) (m : Slot) (d : Dir) (sz : BitVec 32) : Prop where
  dirs : Dirs s'.kernel
  live : ∀ q, (s'.kernel.proc q).Live ↔ (s.kernel.proc q).Live
  main : ∀ q, (s'.kernel.proc q).Main ↔ (s.kernel.proc q).Main
  tmain : ∀ q, (s.kernel.proc q).state ≠ .embryo → s'.kernel.proc.main q = s.kernel.proc.main q
  pid : ∀ q, (s'.kernel.proc q).pid = (s.kernel.proc q).pid
  made : ∀ p q, (s'.kernel.frameOf p).call.made = some q →
    s'.kernel.proc.main q = some m ∧ (s.kernel.proc m).pid = (s.kernel.proc q).pid ∨
      (s.kernel.frameOf p).call.made = some q ∧ s'.kernel.proc.main q = s.kernel.proc.main q
  pgdir : ∀ q, (s.kernel.proc q).Main → (s'.kernel.proc q).pgdir = (s.kernel.proc q).pgdir
  due : ∀ sz', s'.kernel.Due m sz' → sz' = sz
  other : ∀ q, (s.kernel.proc q).Main → q ≠ m → (s'.kernel.proc q).sz = (s.kernel.proc q).sz
  dueOther : ∀ q sz', (s.kernel.proc q).Main → q ≠ m → s'.kernel.Due q sz' → s.kernel.Due q sz'
  pages : ∀ e, e ≠ d → s'.pages e = s.pages e
  keeps : ∀ i, s.pages d i = true → s'.pages d i = true
  full : sz ≠ 0 → (s'.pages d).Full sz
  small : sz.toNat ≤ KERNBASE.toNat

namespace Resizing

variable {s s' : MState n} {d : Dir} {sz : BitVec 32}

theorem heap (hr : Resizing s s' m d sz) (h : Heap s) (hm : (s.kernel.proc m).Main)
    (hd : (s.kernel.proc m).pgdir = some d) : Heap s' where
  dirs := hr.dirs
  rooted q hq := by
    have hl := (hr.live q).1 hq
    obtain ⟨m', hm', hmain, hpid⟩ := h.rooted q hl
    have hemb : (s.kernel.proc q).state ≠ .embryo := fun he => not_live_embryo he hl
    exact ⟨m', (hr.tmain q hemb).trans hm', (hr.main m').2 hmain, by rw [hr.pid, hr.pid, hpid]⟩
  made p q hp := by
    rcases hr.made p q hp with ⟨hmain, hpid⟩ | ⟨hp', hsame⟩
    · exact ⟨m, hmain, (hr.main m).2 hm, by rw [hr.pid, hr.pid, hpid]⟩
    · obtain ⟨m', hm', hmain, hpid⟩ := h.made p q hp'
      exact ⟨m', hsame.trans hm', (hr.main m').2 hmain, by rw [hr.pid, hr.pid, hpid]⟩
  small q sz' hq hsz := by
    by_cases hqm : q = m
    · rw [hr.due sz' (hqm ▸ hsz)]
      exact hr.small
    · have hq' := (hr.main q).1 hq
      exact h.small q sz' hq' (hr.dueOther q sz' hq' hqm hsz)
  full q e sz' hq hpg hsz h0 := by
    have hq' := (hr.main q).1 hq
    have hpg' := (hr.pgdir q hq').symm.trans hpg
    by_cases hqm : q = m
    · subst hqm
      obtain rfl : d = e := Option.some.inj (hd.symm.trans hpg')
      obtain rfl := hr.due sz' hsz
      exact hr.full h0
    · have hne : e ≠ d := by
        rintro rfl
        exact hqm (main_inj h.dirs hq' hm hpg' hd)
      rw [hr.pages e hne]
      exact h.full q e sz' hq' hpg' (hr.dueOther q sz' hq' hqm hsz) h0

/-- What a step does to the slots that resizes the process, and fills in an LWP that is not ready yet. -/
theorem of_slots (hm : (s.kernel.proc m).Main) (hdirs : Dirs s'.kernel)
    (hself : ∃ r, s'.kernel.proc m = { s.kernel.proc m with sz := r })
    (hdue : ∀ sz', s'.kernel.Due m sz' → sz' = sz)
    (hdueOther : ∀ q sz', (s.kernel.proc q).Main → q ≠ m → s'.kernel.Due q sz' → s.kernel.Due q sz')
    (hother : ∀ q, q ≠ m → (s.kernel.proc q).state ≠ .embryo → s'.kernel.proc q = s.kernel.proc q)
    (hemb : ∀ q, q ≠ m → (s.kernel.proc q).state = .embryo →
      (s'.kernel.proc q).state = .embryo ∧ (s'.kernel.proc q).pid = (s.kernel.proc q).pid)
    (hmade : ∀ p q, (s'.kernel.frameOf p).call.made = some q →
      s'.kernel.proc.main q = some m ∧ (s.kernel.proc m).pid = (s.kernel.proc q).pid ∨
        (s.kernel.frameOf p).call.made = some q ∧ s'.kernel.proc.main q = s.kernel.proc.main q)
    (hpages : ∀ e, e ≠ d → s'.pages e = s.pages e) (hkeeps : ∀ i, s.pages d i = true → s'.pages d i = true)
    (hfull : sz ≠ 0 → (s'.pages d).Full sz) (hsmall : sz.toNat ≤ KERNBASE.toNat) : Resizing s s' m d sz := by
  have hmm : (s.kernel.proc m).state ≠ .embryo := fun he => not_main_embryo he hm
  obtain ⟨r, hself⟩ := hself
  -- the state of a slot stays, and so does what it is
  have hsame : ∀ q, (s.kernel.proc q).state ≠ .embryo → (s'.kernel.proc q).state = (s.kernel.proc q).state ∧
      (s'.kernel.proc q).isThread = (s.kernel.proc q).isThread ∧
      (s'.kernel.proc q).parent = (s.kernel.proc q).parent ∧
      (s'.kernel.proc q).pgdir = (s.kernel.proc q).pgdir ∧ (s'.kernel.proc q).pid = (s.kernel.proc q).pid := by
    intro q hq
    by_cases hqm : q = m
    · rw [hqm, hself]
      exact ⟨rfl, rfl, rfl, rfl, rfl⟩
    · rw [hother q hqm hq]
      exact ⟨rfl, rfl, rfl, rfl, rfl⟩
  have hstate : ∀ q, (s'.kernel.proc q).state = (s.kernel.proc q).state := by
    intro q
    by_cases hq : (s.kernel.proc q).state = .embryo
    · have hqm : q ≠ m := by
        rintro rfl
        exact hmm hq
      rw [hq, (hemb q hqm hq).1]
    · exact (hsame q hq).1
  refine ⟨hdirs, fun q => ?_, fun q => ?_, fun q hq => ?_, fun q => ?_, hmade, fun q hq => ?_, hdue,
    fun q hq hqm => ?_, hdueOther, hpages, hkeeps, hfull, hsmall⟩
  · unfold Proc.Live
    rw [hstate q]
  · by_cases hq : (s.kernel.proc q).state = .embryo
    · exact ⟨fun h => absurd h (not_main_embryo ((hstate q).trans hq)), fun h => absurd h (not_main_embryo hq)⟩
    · unfold Proc.Main Proc.Live
      rw [hstate q, (hsame q hq).2.1]
  · unfold Table.main
    rw [(hsame q hq).2.1, (hsame q hq).2.2.1]
  · by_cases hq : (s.kernel.proc q).state = .embryo
    · have hqm : q ≠ m := by
        rintro rfl
        exact hmm hq
      exact (hemb q hqm hq).2
    · exact (hsame q hq).2.2.2.2
  · have hne : (s.kernel.proc q).state ≠ .embryo := fun he => not_main_embryo he hq
    exact (hsame q hne).2.2.2.1
  · have hne : (s.kernel.proc q).state ≠ .embryo := fun he => not_main_embryo he hq
    rw [hother q hqm hne]

/-- **A process gets memory**: what it gets lies between the old size and the new one. -/
theorem given {h : HState n} {call : Slot → Option (BitVec 32 × BitVec 32)} {o : Option Area}
    (hr : Resizing h.base s' m d sz) (hg : Given h) (hm : (h.base.kernel.proc m).Main)
    (hd : (h.base.kernel.proc m).pgdir = some d) (h0 : (h.base.kernel.proc m).sz ≠ 0)
    (hdue : h.base.kernel.Due m (h.base.kernel.proc m).sz)
    (hle : sz ≠ 0 → (h.base.kernel.proc m).sz.toNat ≤ sz.toNat)
    (hcall : ∀ q a, call q = some a → h.call q = some a ∧
      (h.base.kernel.proc.main q = some m → (s'.kernel.proc m).sz = (h.base.kernel.proc m).sz))
    (hstores : ∀ q m sz, (s'.kernel.frameOf q).call = .grow m sz →
      call q ≠ none ∧ h.base.kernel.proc.main q = some m)
    (ho : ∀ a ∈ o, a.dir = d ∧ (h.base.kernel.proc m).sz.toNat ≤ a.lo ∧ a.hi ≤ sz.toNat)
    (hold : ∀ d addr k old, o = some (.heap d addr k old) → addr = old) :
    Given ⟨s', call, o.toList ++ h.areas⟩ := by
  have hheap := hr.heap hg.heap hm hd
  -- the areas of the process lie below the old size, and so they do below the new one
  have hbelow : ∀ a ∈ h.areas, a.dir = d → a.hi ≤ (h.base.kernel.proc m).sz.toNat :=
    fun a ha had => hg.below a ha m _ hm (by rw [hd, had]) hdue h0
  have hmem : ∀ a, a ∈ o.toList ++ h.areas → a ∈ o ∨ a ∈ h.areas := by
    intro a ha
    rcases List.mem_append.1 ha with ha | ha
    · exact .inl (Option.mem_toList.1 ha)
    · exact .inr ha
  constructor
  · exact hheap
  · intro q a hq
    obtain ⟨hq', hsame⟩ := hcall q a hq
    obtain ⟨hl, hk, m', hm', ha⟩ := hg.reads q a hq'
    have hemb : (h.base.kernel.proc q).state ≠ .embryo := fun he => not_live_embryo he hl
    obtain ⟨m'', hm'', hmain, -⟩ := hg.heap.rooted q hl
    obtain rfl : m' = m'' := Option.some.inj (hm'.symm.trans hm'')
    refine ⟨(hr.live q).2 hl, hk, m', (hr.tmain q hemb).trans hm', ha.trans ?_⟩
    by_cases hmm : m' = m
    · subst hmm
      exact (hsame hm').symm
    · exact (hr.other m' hmain hmm).symm
  · intro q m' sz' hq
    obtain ⟨hcq, hmq⟩ := hstores q m' sz' hq
    obtain ⟨a, ha⟩ := Option.ne_none_iff_exists'.1 hcq
    have hl := (hg.reads q a (hcall q a ha).1).1
    exact ⟨hcq, (hr.tmain q fun he => not_live_embryo he hl).trans hmq⟩
  · intro a ha q sz' hq hpg hdue' hq0
    have hq' := (hr.main q).1 hq
    have hpg' := (hr.pgdir q hq').symm.trans hpg
    rcases hmem a ha with ha | ha
    · obtain ⟨had, -, hhi⟩ := ho a ha
      obtain rfl := main_inj hg.heap.dirs hq' hm hpg' (by rw [hd, had])
      rw [hr.due sz' hdue']
      exact hhi
    · by_cases hqm : q = m
      · subst hqm
        have had : a.dir = d := Option.some.inj (hpg'.symm.trans hd)
        obtain rfl := hr.due sz' hdue'
        exact (hbelow a ha had).trans (hle hq0)
      · exact hg.below a ha q sz' hq' hpg' (hr.dueOther q sz' hq' hqm hdue') hq0
  · constructor
    · intro d' addr k old ha
      rcases hmem _ ha with ha | ha
      · exact hold d' addr k old ha
      · exact hg.handout.old d' addr k old ha
    · show (o.toList ++ h.areas).Pairwise _
      rw [List.pairwise_append]
      refine ⟨?_, hg.handout.apart, fun a ha b hb hab => ?_⟩
      · cases o with
        | none => exact .nil
        | some a => exact List.pairwise_singleton _ a
      · obtain ⟨had, hlo, -⟩ := ho a (Option.mem_toList.1 ha)
        exact .inr ((hbelow b hb (hab.symm.trans had)).trans hlo)
    · intro d' addr k old ha i hi hlt
      show s'.pages d' (i / 4096) = true
      rcases hmem _ ha with ha | ha
      · obtain ⟨had, hlo, hhi⟩ := ho _ ha
        have had' : d' = d := had
        have hhi' : addr.toNat + k.toNat ≤ sz.toNat := hhi
        have hsz : sz ≠ 0 := by
          rintro rfl
          simp at hhi'
          omega
        rw [had', hr.full hsz]
        omega
      · have hold := hg.handout.mapped d' addr k old ha i hi hlt
        by_cases had : d' = d
        · rw [had] at hold ⊢
          exact hr.keeps _ hold
        · rw [hr.pages d' had]
          exact hold

end Resizing

/-! ## The steps -/

theorem full_unique {x y : Pages} {sz : BitVec 32} (hx : x.Full sz) (hy : y.Full sz) : x = y := by
  funext i
  exact Bool.eq_iff_iff.2 ((hx i).trans (hy i).symm)

/-- **`growproc(n)` with `n > 0`** fails and changes nothing but the lock, or the process has pages for `n` bytes
more. -/
theorem growSection_up {s s' : MState n} {d : Dir} {k : BitVec 32} {got : ℕ → Got} {o : Option (Slot × BitVec 32)}
    (hmain : s.kernel.proc.main p = some m) (hd : (s.kernel.proc m).pgdir = some d) (hk : BitVec.slt 0 k = true)
    (hsz : (s.kernel.proc m).sz.toNat ≤ KERNBASE.toNat)
    (hfull : ¬ (s.kernel.proc p).limited k → (s.pages d).Full (s.kernel.proc m).sz)
    (h : growSection s c p k got = .ok (o, s')) :
    o = none ∧ s' = s.setLock (some c) ∨
      o = some (m, (s.kernel.proc m).sz + k) ∧ ¬ (s.kernel.proc p).limited k ∧
        ((s.kernel.proc m).sz + k).toNat = (s.kernel.proc m).sz.toNat + k.toNat ∧
        ((s.kernel.proc m).sz + k).toNat ≤ KERNBASE.toNat ∧
        ∃ x : Pages, x.Full ((s.kernel.proc m).sz + k) ∧
          s' = { s.setLock none with pages := Function.update s.pages d x } := by
  have hpos := (slt_pos k).1 hk
  have hk31 : k.toNat < 2 ^ 31 := by
    have htoInt := BitVec.toInt_eq_toNat_cond k
    split at htoInt
    · omega
    · omega
  have hkern : KERNBASE.toNat = 2147483648 := by decide
  have hadd : ((s.kernel.proc m).sz + k).toNat = (s.kernel.proc m).sz.toNat + k.toNat := by
    rw [BitVec.toNat_add]
    omega
  rw [growSection_eq hmain hd] at h
  split at h
  · cases h
    exact .inl ⟨rfl, rfl⟩
  · rename_i hlim
    have hx := hfull hlim
    have hne : k ≠ 0 := by
      rintro rfl
      cases hk
    unfold Pages.resize at h
    rw [if_pos hk] at h
    cases hgot : (s.pages d).allocuvm (s.kernel.proc m).sz ((s.kernel.proc m).sz + k) got with
    | error t =>
      rw [hgot] at h
      cases h
    | ok y =>
      obtain ⟨x, sz⟩ := y
      rw [hgot] at h
      have h' : (if k ≠ 0 ∧ sz = 0 then _ else _) = (o, s') := Except.ok.inj h
      obtain ⟨halloc, rfl⟩ := allocuvm_refines hgot
      obtain ⟨x', hx', hxfull⟩ := hx.alloc hsz ((s.kernel.proc m).sz + k)
        (decide (FoundAll (s.kernel.proc m).sz ((s.kernel.proc m).sz + k) got))
      obtain rfl : x = x' := Except.ok.inj (halloc.symm.trans hx')
      split at h'
      · rename_i hbad
        cases h'
        -- the pages are those that were there
        rw [if_pos hbad.2] at hxfull
        have hsame : Function.update s.pages d x = s.pages := by
          rw [full_unique hxfull hx]
          exact Function.update_eq_self d s.pages
        refine .inl ⟨rfl, ?_⟩
        unfold MState.setLock
        rw [hsame]
      · rename_i hgood
        cases h'
        have hgood' := fun he => hgood ⟨hne, he⟩
        have hnew : allocuvm (s.kernel.proc m).sz ((s.kernel.proc m).sz + k)
            (decide (FoundAll (s.kernel.proc m).sz ((s.kernel.proc m).sz + k) got)) = (s.kernel.proc m).sz + k ∧
            ((s.kernel.proc m).sz + k).toNat ≤ KERNBASE.toNat := by
          unfold allocuvm at hgood' ⊢
          split at hgood'
          · exact absurd rfl hgood'
          · rename_i hlt
            rw [if_neg hlt]
            have hle : ((s.kernel.proc m).sz + k).toNat ≤ KERNBASE.toNat := Nat.le_of_lt (BitVec.not_le.1 hlt)
            split at hgood'
            · rename_i hless
              rw [BitVec.lt_def, hadd] at hless
              omega
            · rename_i hmore
              rw [if_neg hmore]
              split at hgood'
              · rename_i hfound
                exact ⟨if_pos hfound, hle⟩
              · exact absurd rfl hgood'
        rw [if_neg hgood', hnew.1] at hxfull
        exact .inr ⟨by rw [hnew.1], hlim, hadd, hnew.2, x, hxfull, rfl⟩

/-- A step with the page directories is one without. -/
theorem mstep_ok {s s' : MState n} {e : Event n} (h : mstep s (.proc e) = some (.ok s')) :
    step s.kernel e = some (.ok s'.kernel) ∧ pagesAfter s.kernel s.pages e = .ok s'.pages := by
  rcases mstep_proc h with ⟨f, -, hr⟩ | ⟨k, hk, hr⟩
  · cases hr
  · cases hx : pagesAfter s.kernel s.pages e with
    | error t =>
      rw [hx] at hr
      cases hr
    | ok x =>
      rw [hx] at hr
      cases hr
      exact ⟨hk, rfl⟩

theorem forget_call {call : Slot → Option (BitVec 32 × BitVec 32)} {a : BitVec 32 × BitVec 32}
    (h : Function.update call p none q = some a) : q ≠ p ∧ call q = some a := by
  by_cases hq : q = p
  · rw [hq, Function.update_self] at h
    cases h
  · rw [Function.update_of_ne hq] at h
    exact ⟨hq, h⟩

/-- `p` returns from `sys_sbrk`. -/
theorem Given.forget {h : HState n} (hg : Given h) (hp : (h.base.kernel.frameOf p).call.grows = none) :
    Given { h with call := Function.update h.call p none } where
  heap := hg.heap
  reads q a hq := hg.reads q a (forget_call hq).2
  stores q m sz hq := by
    obtain ⟨hcall, hm⟩ := hg.stores q m sz hq
    refine ⟨?_, hm⟩
    have hqp : q ≠ p := by
      rintro rfl
      rw [show (h.base.kernel.frameOf q).call = .grow m sz from hq] at hp
      cases hp
    show Function.update h.call p none q ≠ none
    rwa [Function.update_of_ne hqp]
  below := hg.below
  handout := ⟨hg.handout.old, hg.handout.apart, hg.handout.mapped⟩

/-- Where the process of a thread has its memory. -/
theorem Heap.memory {s : MState n} (h : Heap s) (hl : (s.kernel.proc p).Live) :
    ∃ m d ks, s.kernel.proc.main p = some m ∧ (s.kernel.proc m).Main ∧
      (s.kernel.proc m).pid = (s.kernel.proc p).pid ∧
      (s.kernel.proc m).pgdir = some d ∧ (s.kernel.proc m).kstack = some ks ∧
      s.kernel.memory p = some (d, (s.kernel.proc m).sz) := by
  obtain ⟨m, hmain, hm, hpid⟩ := h.rooted p hl
  obtain ⟨d, hd⟩ := Option.ne_none_iff_exists'.1 (h.dirs.grouped.main m hm).1
  have hused : (s.kernel.proc m).state ≠ .unused := by
    intro he
    rcases hm.2 with (hx | hx | hx) | hx <;> (rw [hx] at he; cases he)
  obtain ⟨ks, hks⟩ := Option.ne_none_iff_exists'.1 fun e => hused ((h.dirs.sane.used m).2 e)
  refine ⟨m, d, ks, hmain, hm, hpid, hd, hks, ?_⟩
  unfold State.memory
  rw [hmain]
  show ((s.kernel.proc m).pgdir.map fun d => (d, (s.kernel.proc m).sz)) = _
  rw [hd]
  rfl

/-- `growproc` has made the pages, and the size is on the stack of its caller. -/
def MState.grew (s : MState n) (c : Fin n) (m : Slot) (d : Dir) (x : Pages) (sz : BitVec 32) : MState n :=
  { s.setLock none with pages := Function.update s.pages d x }.between c (some (m, sz))

section

variable {s : MState n} {d : Dir} {sz : BitVec 32} {x : Pages}

theorem grew_frame : (s.grew c m d x sz).kernel.frame =
    Function.update s.kernel.frame (s.kernel.cpu c).stack ⟨.grow m sz, false⟩ := rfl

theorem grew_self (hs : Sane s.kernel) (hcur : s.kernel.current c = some (p, .idle)) :
    (s.grew c m d x sz).kernel.frameOf p = ⟨.grow m sz, false⟩ := by
  rw [frameOf_step hs hcur grew_frame fun _ => .inl rfl, if_pos rfl]

theorem grew_other (hs : Sane s.kernel) (hcur : s.kernel.current c = some (p, .idle)) (hq : q ≠ p) :
    (s.grew c m d x sz).kernel.frameOf q = s.kernel.frameOf q :=
  frameOf_other hs hcur grew_frame (fun _ => rfl) hq

theorem grew_pages : (s.grew c m d x sz).pages = Function.update s.pages d x := rfl

theorem grow_resizing (h : Heap s) (hcur : s.kernel.current c = some (p, .idle)) (hm : (s.kernel.proc m).Main)
    (hd : (s.kernel.proc m).pgdir = some d) (hno : ∀ q sz', (s.kernel.frameOf q).call ≠ .grow m sz')
    (h0 : (s.kernel.proc m).sz ≠ 0) (hgrow : (s.kernel.proc m).sz.toNat ≤ sz.toNat) (hle : sz.toNat ≤ KERNBASE.toNat)
    (hx : x.Full sz) (hdirs : Dirs (s.grew c m d x sz).kernel) : Resizing s (s.grew c m d x sz) m d sz := by
  have hs := h.dirs.sane
  obtain ⟨-, -, hfp⟩ := hs.frame_current hcur
  have hfull := h.full m d _ hm hd (.inr ⟨hno, rfl⟩) h0
  apply Resizing.of_slots hm hdirs
  · exact ⟨_, rfl⟩
  · rintro sz' (⟨q, hq⟩ | ⟨hnone, -⟩)
    · by_cases hqp : q = p
      · rw [hqp, grew_self hs hcur] at hq
        cases hq
        rfl
      · rw [grew_other hs hcur hqp] at hq
        exact absurd hq (hno q sz')
    · exact absurd (congrArg Frame.call (grew_self hs hcur)) (hnone p sz)
  · rintro q sz' - hqm (⟨y, hy⟩ | ⟨hnone, hsz⟩)
    · by_cases hyp : y = p
      · rw [hyp, grew_self hs hcur] at hy
        cases hy
        exact absurd rfl hqm
      · rw [grew_other hs hcur hyp] at hy
        exact .inl ⟨y, hy⟩
    · refine .inr ⟨fun y sz'' hy => ?_, hsz⟩
      by_cases hyp : y = p
      · rw [hyp, hfp] at hy
        cases hy
      · exact hnone y sz'' (by rw [grew_other hs hcur hyp, hy])
  · intro q _ _
    rfl
  · intro q _ hemb
    exact ⟨hemb, rfl⟩
  · intro y q hy
    exact .inr ⟨made_step hs hcur grew_frame (fun _ => rfl) rfl y q hy, rfl⟩
  · intro e he
    rw [grew_pages, Function.update_of_ne he]
  · intro i hi
    rw [grew_pages, Function.update_self, hx i]
    have hi' := (hfull i).1 hi
    omega
  · intro _
    rw [grew_pages, Function.update_self]
    exact hx
  · exact hle

end

/-- **`growproc`**, up to `release`. -/
theorem Given.grow {h : HState n} (hg : Given h) {addr k : BitVec 32} {got : ℕ → Got} {o : Option (Slot × BitVec 32)}
    {s' : MState n} (hu : h.base.kernel.user c = some p) (hc : h.call p = some (addr, k)) (hfree : h.base.kernel.Free)
    (hG : Fresh h (.grow c got)) (hrun : growSection h.base c p k got = .ok (o, s')) :
    Given (h.grown c p addr k o s') := by
  obtain ⟨hl, hk, m₀, hm₀, haddr⟩ := hg.reads p (addr, k) hc
  obtain ⟨m, d, -, hmain, hm, -, hd, -, hmem⟩ := hg.heap.memory hl
  obtain rfl : m₀ = m := Option.some.inj (hm₀.symm.trans hmain)
  have haddr' : addr = (h.base.kernel.proc m₀).sz := haddr
  have hcur := user_some hu
  have hidle : (h.base.kernel.frameOf p).call.grows = none := by
    rw [(hg.heap.dirs.sane.frame_current hcur).2.2]
    rfl
  have hlimited : h.Limited p ↔ (h.base.kernel.proc p).limited k := by
    unfold HState.Limited
    rw [hc]
  have hfresh : ¬ (h.base.kernel.proc p).limited k → _ :=
    fun hlim => hG p m₀ hu hmain fun hl => hlim (hlimited.1 hl)
  have hno : ¬ (h.base.kernel.proc p).limited k → ∀ q sz', (h.base.kernel.frameOf q).call ≠ .grow m₀ sz' := by
    intro hlim q sz' hq
    rw [← hg.only_stores (hfresh hlim).2 hq, hq] at hidle
    cases hidle
  -- what the kernel model says of the step
  have hdirs : Dirs (s'.between c o).kernel := by
    have hstep := (mstep_ok (growSection_step hu hfree hmain hd hrun)).1
    have hquiet : ∀ ok, Orderly h.base.kernel (.growproc c k ok) := fun ok => ⟨⟨rfl, fun _ hq => hq.elim⟩, trivial⟩
    exact dirs_step hg.heap.dirs (hquiet _) hstep
  unfold HState.grown
  rw [hmem]
  by_cases hlim : (h.base.kernel.proc p).limited k
  · obtain ⟨rfl, rfl⟩ : o = none ∧ s' = h.base.setLock (some c) := by
      rw [growSection_eq hmain hd, if_pos hlim] at hrun
      cases hrun
      exact ⟨rfl, rfl⟩
    exact (hg.calm (.lock _ _) hdirs).forget hidle
  · obtain ⟨h0, honly⟩ := hfresh hlim
    have hdue : h.base.kernel.Due m₀ (h.base.kernel.proc m₀).sz := .inr ⟨hno hlim, rfl⟩
    have hsz := hg.heap.small m₀ _ hm hdue
    rcases growSection_up hmain hd hk hsz (fun _ => hg.heap.full m₀ d _ hm hd hdue h0) hrun with
      ⟨rfl, rfl⟩ | ⟨rfl, -, hadd, hle, x, hx, rfl⟩
    · exact (hg.calm (.lock _ _) hdirs).forget hidle
    · have hgrow : (h.base.kernel.proc m₀).sz.toNat ≤ ((h.base.kernel.proc m₀).sz + k).toNat := by
        have hadd' : ((h.base.kernel.proc m₀).sz + k).toNat = (h.base.kernel.proc m₀).sz.toNat + k.toNat := hadd
        omega
      have hr := grow_resizing hg.heap hcur hm hd (hno hlim) h0 hgrow hle hx hdirs
      refine hr.given (o := some (.heap d addr k (h.base.kernel.proc m₀).sz)) hg hm hd h0 hdue (fun _ => hgrow) ?_ ?_ ?_
        ?_
      · exact fun q a hq => ⟨hq, fun _ => rfl⟩
      · intro q m sz' hq
        by_cases hqp : q = p
        · rw [hqp] at hq ⊢
          cases (congrArg Frame.call (grew_self hg.heap.dirs.sane hcur)).symm.trans hq
          refine ⟨fun hnone => ?_, hmain⟩
          cases hc.symm.trans hnone
        · refine hg.stores q m sz' ((congrArg Frame.call ?_).trans hq)
          exact (grew_other hg.heap.dirs.sane hcur hqp).symm
      · intro a ha
        cases ha
        refine ⟨rfl, ?_, ?_⟩
        · rw [haddr']
          exact Nat.le_refl _
        · rw [haddr']
          exact hadd.ge
      · intro d' addr' k' old' ho
        cases ho
        exact haddr'

/-- **`growproc` stores the size**, and `sys_sbrk` returns. -/
theorem Given.store {h : HState n} (hg : Given h) {sz : BitVec 32} {s' : MState n}
    (hcur : h.base.kernel.current c = some (p, ⟨.grow m sz, false⟩)) (hG : Fresh h (.store c))
    (hstep : mstep h.base (.proc (.growStore c)) = some (.ok s')) :
    Given { h with base := s', call := Function.update h.call p none } := by
  have hs := hg.heap.dirs.sane
  obtain ⟨hkernel, hafter⟩ := mstep_ok hstep
  have hpages : s'.pages = h.base.pages := (Except.ok.inj hafter).symm
  obtain ⟨-, -, hfp⟩ := hs.frame_current hcur
  have honly : h.Only p m := by simpa [Fresh, hcur, Call.grows] using hG
  obtain ⟨p', m', sz', hcur', hproc, hframe⟩ := growStore_table hkernel
  cases hcur.symm.trans hcur'
  have hk : ∀ q, (s'.kernel.proc q).kstack = (h.base.kernel.proc q).kstack := fun q => by
    rw [hproc]; exact upd_field Proc.kstack _ _ q _ rfl
  have hself : s'.kernel.frameOf p = .idle := by rw [frameOf_step hs hcur hframe fun q => .inl (hk q), if_pos rfl]
  have hother : ∀ q, q ≠ p → s'.kernel.frameOf q = h.base.kernel.frameOf q :=
    fun q hq => frameOf_other hs hcur hframe hk hq
  have hsteady : Steady h.base.kernel s'.kernel := by
    refine ⟨fun q => ?_, made_step hs hcur hframe hk rfl⟩
    by_cases hqm : q = m
    · rw [hproc, hqm, Table.resize, upd_self]
      exact .of_size ⟨_, rfl⟩
    · rw [hproc, Table.resize, upd_ne _ hqm]
      exact .refl _ _
  have hdue : ∀ q sz', s'.kernel.Due q sz' → h.base.kernel.Due q sz' := by
    rintro q sz' (⟨y, hy⟩ | ⟨hnone, hsz⟩)
    · by_cases hyp : y = p
      · rw [hyp, hself] at hy
        cases hy
      · exact .inl ⟨y, by rw [← hother y hyp, hy]⟩
    · by_cases hqm : q = m
      · rw [hproc, hqm, Table.resize, upd_self] at hsz
        exact .inl ⟨p, by rw [hfp, hqm, ← hsz]⟩
      · rw [hproc, Table.resize, upd_ne _ hqm] at hsz
        refine .inr ⟨fun y sz'' hy => ?_, hsz⟩
        by_cases hyp : y = p
        · rw [hyp, hfp] at hy
          cases hy
          exact hqm rfl
        · exact hnone y sz'' (by rw [hother y hyp, hy])
  have hquiet : Orderly h.base.kernel (.growStore c) := ⟨⟨rfl, fun _ hq => hq.elim⟩, trivial⟩
  have hdirs : Dirs s'.kernel := dirs_step hg.heap.dirs hquiet hkernel
  have hbase : s' = ⟨s'.kernel, h.base.pages⟩ := by rw [← hpages]
  rw [hbase]
  constructor
  · exact hg.heap.steady hsteady hdirs hdue
  · intro q a hq
    obtain ⟨hqp, hq'⟩ := forget_call hq
    obtain ⟨hl, hpos, m', hm', ha⟩ := hg.reads q a hq'
    have hne : m' ≠ m := by
      rintro rfl
      rw [honly q hqp hm'] at hq'
      cases hq'
    refine ⟨(hsteady.slot q).live hl, hpos, m', (hsteady.main_eq q).trans hm', ha.trans ?_⟩
    show _ = (s'.kernel.proc m').sz
    rw [hproc, Table.resize, upd_ne _ hne]
  · intro q m' sz' hq
    have hqp : q ≠ p := by
      rintro rfl
      rw [show s'.kernel.frameOf q = .idle from hself] at hq
      cases hq
    obtain ⟨hcq, hmq⟩ := hg.stores q m' sz' (by rw [← hother q hqp]; exact hq)
    refine ⟨?_, (hsteady.main_eq q).trans hmq⟩
    show Function.update h.call p none q ≠ none
    rwa [Function.update_of_ne hqp]
  · intro a ha q sz' hm hpg hsz
    exact hg.below a ha q sz' ((hsteady.main_iff hg.heap.dirs q).1 hm) ((hsteady.slot q).pgdir.symm.trans hpg)
      (hdue q sz' hsz)
  · exact ⟨hg.handout.old, hg.handout.apart, hg.handout.mapped⟩

/-- The exits of the critical section of `thread_create`. -/
theorem threadMap_cases {s s' : State n} {pages copied : Bool}
    (hstep : step s (.threadMap c pages copied) = some (.ok s')) :
    ∃ p thrd m, s.current c = some (p, ⟨.create thrd, false⟩) ∧ s.proc.main p = some m ∧
      (s.mapped m pages = 0 ∧ s' = { s with proc := s.proc.resize m 0 }.setFrame c .idle ∨
        s.mapped m pages ≠ 0 ∧
          (s' = { s with
              proc := (s.proc.resize m (s.mapped m pages)).share m thrd (s.mapped m pages) }.setFrame c .idle ∨
            s' = { s with
              proc := ((s.proc.resize m (s.mapped m pages)).share m thrd (s.mapped m pages)).adopt m thrd s.nexttid
              nexttid := s.nexttid + 1 }.setFrame c ⟨.created thrd, false⟩)) := by
  simp only [step] at hstep
  split at hstep
  · rename_i p thrd hcur
    split at hstep
    · split at hstep
      · cases hstep
      · rename_i m hm
        refine ⟨p, thrd, m, hcur, hm, ?_⟩
        have h : s.threadMap c m thrd pages copied = .ok s' := Option.some.inj hstep
        unfold State.threadMap at h
        dsimp only at h
        split_ifs at h with hd h0 hc
        · cases h
          have h0' : s.mapped m pages = 0 := h0
          exact .inl ⟨h0', by rw [← h0']; rfl⟩
        · cases h
          exact .inr ⟨h0, .inl rfl⟩
        · cases h
          exact .inr ⟨h0, .inr rfl⟩
    · cases hstep
  · cases hstep

theorem mapped_toNat {s : State n} {pages : Bool} (hsz : (s.proc m).sz.toNat ≤ KERNBASE.toNat)
    (h0 : s.mapped m pages ≠ 0) : (s.mapped m pages).toNat = (pgroundup (s.proc m).sz).toNat + 8192 ∧
      (s.mapped m pages).toNat ≤ KERNBASE.toNat := by
  have hround := pgroundup_toNat hsz
  have hkern : KERNBASE.toNat = 2147483648 := by decide
  have hstack : (2 * PGSIZE).toNat = 8192 := by decide
  have hadd : (pgroundup (s.proc m).sz + 2 * PGSIZE).toNat = (pgroundup (s.proc m).sz).toNat + 8192 := by
    rw [BitVec.toNat_add, hstack]
    omega
  unfold State.mapped allocuvm at h0 ⊢
  split at h0
  · exact absurd rfl h0
  · rename_i hlt
    have hbelow := BitVec.not_le.1 hlt
    rw [BitVec.lt_def] at hbelow
    have hle := hbelow.le
    rw [if_neg hlt]
    split at h0
    · rename_i hless
      rw [BitVec.lt_def, hadd] at hless
      omega
    · rename_i hmore
      rw [if_neg hmore]
      split at h0
      · rename_i hpages
        rw [if_pos hpages]
        exact ⟨hadd, hle⟩
      · exact absurd rfl h0

/-- What the critical section writes to the slots: the size of the main thread, and the LWP, which it may finish. -/
theorem threadMap_writes {s s' : State n} {thrd : Slot} {pages copied : Bool}
    (hcur : s.current c = some (p, ⟨.create thrd, false⟩)) (hmain : s.proc.main p = some m)
    (hm : (s.proc m).isThread = false) (hmt : m ≠ thrd)
    (hstep : step s (.threadMap c pages copied) = some (.ok s')) :
    ∃ (f : Proc → Proc) (g : Frame), s'.proc = (s.proc.resize m (s.mapped m pages)).upd thrd f ∧
      s'.frame = Function.update s.frame (s.cpu c).stack g ∧
      (∀ x, (f x).state = x.state ∧ (f x).pid = x.pid ∧ (f x).kstack = x.kstack) ∧
      (g.call.made = none ∧ (∀ x, (f x).isThread = x.isThread ∧ (f x).parent = x.parent) ∨
        g.call.made = some thrd ∧ ∀ x, (f x).isThread = true ∧ (f x).parent = some m) := by
  obtain ⟨p', thrd', m', hcur', hmain', hcase⟩ := threadMap_cases hstep
  cases hcur.symm.trans hcur'
  obtain rfl : m = m' := Option.some.inj (hmain.symm.trans hmain')
  rcases hcase with ⟨h0, rfl⟩ | ⟨-, rfl | rfl⟩
  · refine ⟨id, .idle, ?_, rfl, fun x => ⟨rfl, rfl, rfl⟩, .inl ⟨rfl, fun x => ⟨rfl, rfl⟩⟩⟩
    rw [h0]
    exact (Function.update_eq_self thrd _).symm
  · exact ⟨fun x => { x with
      pgdir := ((s.proc.resize m (s.mapped m pages)) m).pgdir, sz := s.mapped m pages }, .idle, rfl, rfl,
      fun x => ⟨rfl, rfl, rfl⟩, .inl ⟨rfl, fun x => ⟨rfl, rfl⟩⟩⟩
  · refine ⟨fun x => { x with
      pgdir := ((s.proc.resize m (s.mapped m pages)) m).pgdir, sz := s.mapped m pages,
      parent := some m, isThread := true, tid := s.nexttid }, ⟨.created thrd, false⟩, ?_, rfl,
      fun x => ⟨rfl, rfl, rfl⟩, .inr ⟨rfl, fun x => ⟨rfl, rfl⟩⟩⟩
    have hth : (((s.proc.resize m (s.mapped m pages)).share m thrd (s.mapped m pages)) m).isThread = false := by
      unfold Table.share
      rw [upd_ne _ hmt]
      exact (upd_field Proc.isThread _ _ m _ rfl).trans hm
    show Table.adopt _ m thrd s.nexttid = _
    unfold Table.adopt
    rw [hth, if_neg (by simp)]
    unfold Table.share Table.upd
    rw [Function.update_idem, Function.update_self]

theorem grow_stack {s : State n} {sz : BitVec 32} (h : (s.frameOf q).call = .grow m sz) : (s.proc q).kstack ≠ none := by
  intro hk
  rw [frameOf_none hk] at h
  cases h

/-- It leaves the calls of `growproc` alone. -/
theorem threadMap_grows {s s' : State n} {pages copied : Bool} {sz : BitVec 32} (hs : Sane s)
    (hstep : step s (.threadMap c pages copied) = some (.ok s')) (hk : (s'.proc q).kstack ≠ none) :
    (s'.frameOf q).call = .grow m sz ↔ (s.frameOf q).call = .grow m sz := by
  have hset : Settled s (.threadMap c pages copied) := fun _ hr => False.elim hr
  rw [← grows_some, ← grows_some, grows_keep hs hset hstep nofun nofun hk]

/-- **The critical section of `thread_create`** resizes the process. -/
theorem threadMap_resizing {s s' : MState n} {d : Dir} {thrd : Slot} {pages copied : Bool} (h : Heap s)
    (hcur : s.kernel.current c = some (p, ⟨.create thrd, false⟩)) (hmain : s.kernel.proc.main p = some m)
    (hm : (s.kernel.proc m).Main) (hpid : (s.kernel.proc m).pid = (s.kernel.proc p).pid)
    (hd : (s.kernel.proc m).pgdir = some d) (hno : ∀ q sz, (s.kernel.frameOf q).call ≠ .grow m sz)
    (h0 : (s.kernel.proc m).sz ≠ 0) (hstep : mstep s (.proc (.threadMap c pages copied)) = some (.ok s')) :
    Resizing s s' m d (s.kernel.mapped m pages) := by
  obtain ⟨hkernel, hafter⟩ := mstep_ok hstep
  have hs := h.dirs.sane
  have hold : s.kernel.Due m (s.kernel.proc m).sz := .inr ⟨hno, rfl⟩
  have hsz := h.small m _ hm hold
  have hfull := (h.full m d _ hm hd hold h0).round hsz
  have hround := pgroundup_toNat hsz
  have hkern : KERNBASE.toNat = 2147483648 := by decide
  obtain ⟨p', thrd', m', hcur', hmain', hcase⟩ := threadMap_cases hkernel
  cases hcur.symm.trans hcur'
  obtain rfl : m = m' := Option.some.inj (hmain.symm.trans hmain')
  -- the pages
  obtain ⟨x, halloc, hx⟩ := hfull.alloc (by omega) (pgroundup (s.kernel.proc m).sz + 2 * PGSIZE) pages
  have hpages : s'.pages = Function.update s.pages d x := by
    simp only [pagesAfter, (current_some hcur).1, Option.bind_some, hmain, hd, halloc] at hafter
    exact (Except.ok.inj hafter).symm
  have hx' : x.Full (if s.kernel.mapped m pages = 0 then pgroundup (s.kernel.proc m).sz
      else s.kernel.mapped m pages) := hx
  have hdirs : Dirs s'.kernel := by
    refine dirs_step h.dirs ⟨⟨rfl, fun _ => False.elim⟩, fun q y hq hy => ?_⟩ hkernel
    obtain rfl : p = q := Option.some.inj ((current_some hcur).1.symm.trans hq)
    obtain rfl : m = y := Option.some.inj (hmain.symm.trans hy)
    exact ⟨hm, hpid⟩
  have hframe := (hs.frame_current hcur).2.2
  have hemb : (s.kernel.proc thrd).state = .embryo := hs.creating p thrd (by rw [hframe]; rfl)
  have hmt : m ≠ thrd := by
    rintro rfl
    exact not_main_embryo hemb hm
  obtain ⟨f, g, hproc, hg, hf, hmade⟩ := threadMap_writes hcur hmain hm.1 hmt hkernel
  have hself : (s.kernel.proc.resize m (s.kernel.mapped m pages)) m = _ := upd_self s.kernel.proc m _
  have hother : ∀ q, q ≠ m → (s.kernel.proc.resize m (s.kernel.mapped m pages)) q = s.kernel.proc q :=
    fun q hq => upd_ne _ hq _
  have hks : ∀ q, (s'.kernel.proc q).kstack = (s.kernel.proc q).kstack := fun q => by
    rw [hproc]
    exact (upd_field Proc.kstack _ _ q _ (hf _).2.2).trans (upd_field Proc.kstack _ _ q _ rfl)
  apply Resizing.of_slots hm hdirs
  · exact ⟨_, by rw [hproc, upd_ne _ hmt, hself]⟩
  · rintro sz (⟨q, hq⟩ | ⟨-, hsz'⟩)
    · exact absurd ((threadMap_grows hs hkernel (grow_stack hq)).1 hq) (hno q sz)
    · rw [← hsz', hproc, upd_ne _ hmt, hself]
  · rintro q sz hq hqm (⟨y, hy⟩ | ⟨hnone, hsz'⟩)
    · exact .inl ⟨y, (threadMap_grows hs hkernel (grow_stack hy)).1 hy⟩
    · have hqt : q ≠ thrd := by
        rintro rfl
        exact not_main_embryo hemb hq
      rw [hproc, upd_ne _ hqt, hother q hqm] at hsz'
      refine .inr ⟨fun y sz' hy => hnone y sz' ?_, hsz'⟩
      exact (threadMap_grows hs hkernel (by rw [hks y]; exact grow_stack hy)).2 hy
  · intro q hq hne
    have hqt : q ≠ thrd := by
      rintro rfl
      exact hne hemb
    rw [hproc, upd_ne _ hqt, hother q hq]
  · intro q hq hqe
    by_cases hqt : q = thrd
    · rw [hproc, hqt, upd_self, (hf _).1, (hf _).2.1, hother thrd hmt.symm]
      exact ⟨hemb, rfl⟩
    · rw [hproc, upd_ne _ hqt, hother q hq]
      exact ⟨hqe, rfl⟩
  · intro y q hy
    rw [frameOf_step hs hcur hg (fun z => .inl (hks z)) y] at hy
    split at hy
    · -- the caller, with its LWP
      rcases hmade with ⟨hnone, -⟩ | ⟨hmade, hf'⟩
      · rw [hnone] at hy
        cases hy
      · obtain rfl : thrd = q := Option.some.inj (hmade.symm.trans hy)
        refine .inl ⟨?_, ?_⟩
        · unfold Table.main
          rw [hproc, upd_self, (hf' _).1, if_pos rfl, (hf' _).2]
        · rw [hpid, (h.dirs.grouped.fills p).create thrd (by rw [hframe])]
    · rename_i hyp
      split at hy
      · cases hy
      · have hqt : q ≠ thrd := by
          rintro rfl
          have hcreates : (s.kernel.frameOf y).call.creates = some q := by
            cases hc : (s.kernel.frameOf y).call <;> rw [hc] at hy <;> cases hy
            rfl
          exact hyp (hs.creator y p q hcreates (by rw [hframe]; rfl))
        refine .inr ⟨hy, ?_⟩
        unfold Table.main
        rw [hproc, upd_ne _ hqt]
        have hth := upd_field Proc.isThread s.kernel.proc m q (fun x => { x with sz := s.kernel.mapped m pages }) rfl
        have hpar := upd_field Proc.parent s.kernel.proc m q (fun x => { x with sz := s.kernel.mapped m pages }) rfl
        unfold Table.resize
        rw [hth, hpar]
  · intro e he
    rw [hpages, Function.update_of_ne he]
  · intro i hi
    rw [hpages, Function.update_self, hx' i]
    have hi' := (h.full m d _ hm hd hold h0 i).1 hi
    split
    · omega
    · rename_i hne
      have hnew := (mapped_toNat hsz hne).1
      omega
  · intro hne
    rw [hpages, Function.update_self]
    rwa [if_neg hne] at hx'
  · by_cases hne : s.kernel.mapped m pages = 0
    · rw [hne]
      exact Nat.zero_le _
    · exact (mapped_toNat hsz hne).2

/-- The call of `sys_sbrk`. -/
theorem Given.sbrk {h : HState n} (hg : Given h) {k : BitVec 32} (hu : h.base.kernel.user c = some p)
    (hk : BitVec.slt 0 k = true) (hG : Fresh h (.sbrk c k)) :
    Given { h with call := Function.update h.call p (some ((h.base.kernel.proc p).sz, k)) } := by
  refine ⟨hg.heap, fun q a hq => ?_, fun q m sz hq => ?_, hg.below,
    ⟨hg.handout.old, hg.handout.apart, hg.handout.mapped⟩⟩
  rotate_left
  · obtain ⟨hcall, hm⟩ := hg.stores q m sz hq
    refine ⟨?_, hm⟩
    show Function.update h.call p _ q ≠ none
    by_cases hqp : q = p
    · rw [hqp, Function.update_self]
      nofun
    · rwa [Function.update_of_ne hqp]
  have hq' : Function.update h.call p (some ((h.base.kernel.proc p).sz, k)) q = some a := hq
  by_cases hqp : q = p
  · rw [hqp, Function.update_self] at hq'
    cases hq'
    have hl : (h.base.kernel.proc p).Live := .inr (.inr (hg.heap.dirs.sane.frame_current (user_some hu)).1)
    obtain ⟨m, -, -, hmain, -⟩ := hg.heap.memory hl
    rw [hqp]
    exact ⟨hl, hk, m, hmain, hG p m hu hmain⟩
  · rw [Function.update_of_ne hqp] at hq'
    exact hg.reads q a hq'

/-- **`thread_create` maps a stack.** -/
theorem Given.threadMap {h : HState n} (hg : Given h) {pages copied : Bool} {s' : MState n}
    (hidle : ∀ p, (h.base.kernel.cpu c).proc = some p → h.call p = none)
    (hG : Fresh h (.other (.threadMap c pages copied)))
    (hstep : mstep h.base (.proc (.threadMap c pages copied)) = some (.ok s')) :
    Given ⟨s', h.call, (h.base.kernel.newStack (.threadMap c pages copied)).toList ++ h.areas⟩ := by
  obtain ⟨p, thrd, m, hcur, hmain, -⟩ := threadMap_cases (mstep_ok hstep).1
  have hcpu := (current_some hcur).1
  have hl : (h.base.kernel.proc p).Live := .inr (.inr (hg.heap.dirs.sane.frame_current hcur).1)
  obtain ⟨m', d, -, hmain', hm, hpid, hd, -⟩ := hg.heap.memory hl
  obtain rfl : m = m' := Option.some.inj (hmain.symm.trans hmain')
  obtain ⟨h0, honly⟩ := hG p m hcpu hmain
  have hno : ∀ q sz, (h.base.kernel.frameOf q).call ≠ .grow m sz := by
    intro q sz hq
    obtain rfl := hg.only_stores honly hq
    exact (hg.stores q m sz hq).1 (hidle q hcpu)
  have hdue : h.base.kernel.Due m (h.base.kernel.proc m).sz := .inr ⟨hno, rfl⟩
  have hsz := hg.heap.small m _ hm hdue
  have hround := pgroundup_toNat hsz
  have hr := threadMap_resizing hg.heap hcur hmain hm hpid hd hno h0 hstep
  have hstack : h.base.kernel.newStack (.threadMap c pages copied) =
      if h.base.kernel.mapped m pages = 0 then none else some (.stack d (h.base.kernel.mapped m pages)) := by
    unfold State.newStack
    simp only [hcpu, hmain, hd, bind, Option.bind_some]
  refine hr.given hg hm hd h0 hdue (fun hne => ?_) (fun q a hq => ⟨hq, fun hmq => ?_⟩) (fun q m' sz hq => ?_)
    (fun a ha => ?_) ?_
  · have hnew := (mapped_toNat hsz hne).1
    omega
  · by_cases hqp : q = p
    · rw [hqp, hidle p hcpu] at hq
      cases hq
    · rw [honly q hqp hmq] at hq
      cases hq
  · exact hg.stores q m' sz ((threadMap_grows hg.heap.dirs.sane (mstep_ok hstep).1 (grow_stack hq)).1 hq)
  · rw [hstack] at ha
    split at ha
    · cases ha
    · rename_i hne
      cases ha
      have hnew := (mapped_toNat hsz hne).1
      have hsize : (2 * PGSIZE).toNat = 8192 := by decide
      refine ⟨rfl, ?_, Nat.le_refl _⟩
      show _ ≤ (h.base.kernel.mapped m pages).toNat - (2 * PGSIZE).toNat
      omega
  · intro d' addr k old ho
    rw [hstack] at ho
    split at ho <;> cases ho

/-- **A fresh step** keeps what was given. -/
theorem given_step {h h' : HState n} {e : HEvent n} (hg : Given h) (hG : Fresh h e)
    (hs : (hmachine n).step h e = some (.ok h')) : Given h' := by
  have hstep' : hstep h e = some (.ok h') := hs
  cases e with
  | sbrk c k =>
    unfold hstep at hstep'
    dsimp only at hstep'
    split at hstep'
    · rename_i p hu
      split at hstep'
      · rename_i hk
        cases hstep'
        exact hg.sbrk hu hk.2 hG
      · cases hstep'
    · cases hstep'
  | grow c got =>
    unfold hstep at hstep'
    dsimp only at hstep'
    split at hstep'
    · rename_i p hu
      split at hstep'
      · rename_i addr k hc
        split at hstep'
        · rename_i hfree
          cases hrun : growSection h.base c p k got with
          | error t =>
            rw [hrun] at hstep'
            cases hstep'
          | ok y =>
            obtain ⟨o, s'⟩ := y
            rw [hrun] at hstep'
            cases hstep'
            exact hg.grow hu hc hfree hG hrun
        · cases hstep'
      · cases hstep'
    · cases hstep'
  | store c =>
    unfold hstep at hstep'
    dsimp only at hstep'
    split at hstep'
    · rename_i p m sz hcur
      cases hm : mstep h.base (.proc (.growStore c)) with
      | none =>
        rw [hm] at hstep'
        cases hstep'
      | some y =>
        rw [hm] at hstep'
        cases y with
        | error t => cases hstep'
        | ok s' =>
          cases hstep'
          exact hg.store hcur hG hm
    · cases hstep'
  | other e =>
    unfold hstep at hstep'
    dsimp only at hstep'
    split at hstep'
    · rename_i hall
      obtain ⟨hshares, hidle⟩ := hall
      cases hm : mstep h.base (.proc e) with
      | none =>
        rw [hm] at hstep'
        cases hstep'
      | some y =>
        rw [hm] at hstep'
        cases y with
        | error t => cases hstep'
        | ok s' =>
          cases hstep'
          by_cases hmap : ∃ c pages copied, e = .threadMap c pages copied
          · obtain ⟨c, pages, copied, rfl⟩ := hmap
            exact hg.threadMap (fun p hp => hidle c p rfl hp) hG hm
          · have hnot : ∀ c pages copied, e ≠ .threadMap c pages copied :=
              fun c pages copied he => hmap ⟨c, pages, copied, he⟩
            obtain ⟨hkernel, hafter⟩ := mstep_ok hm
            have hcalm := calm_step hg.heap.dirs.sane hshares hnot hkernel
            have hdirs : Dirs s'.kernel := by
              refine dirs_step hg.heap.dirs ⟨shares_quiet hshares, ?_⟩ hkernel
              cases e <;> first | trivial | cases hshares
              exact absurd rfl (hnot _ _ _)
            have hpages : s'.pages = h.base.pages := by
              cases e <;> first | exact (Except.ok.inj hafter).symm | cases hshares
              exact absurd rfl (hnot _ _ _)
            have hnone : h.base.kernel.newStack e = none := by
              cases e <;> first | rfl | cases hshares
              exact absurd rfl (hnot _ _ _)
            have hbase : s' = ⟨s'.kernel, h.base.pages⟩ := by rw [← hpages]
            rw [hnone, hbase]
            exact hg.calm hcalm hdirs
    · cases hstep'

/-! ## Runs -/

/-- **`sbrk` returns the old size**, and gives memory that is nobody else's, in every run in which the callers have the
size of their main thread and nobody resizes a process while another of its threads is in `sys_sbrk`. -/
theorem sbrk_disjoint (n : ℕ) (s₀ : MState n) (es : List (HEvent n)) (h : HState n) (h₀ : Heap s₀)
    (hidle : ∀ q, (s₀.kernel.frameOf q).call.grows = none)
    (hG : (hmachine n).Guarded Fresh (HState.start s₀) es)
    (hr : (hmachine n).run (HState.start s₀) es = some (.ok h)) : Handout h := by
  have hgiven : Given h :=
    Machine.guarded_inv (start_given h₀ hidle) (fun _ _ _ hg hG hs => given_step hg hG hs) hG hr
  exact hgiven.handout

theorem State.Due.of_idle {s : State n} {sz : BitVec 32} (h : s.Due m sz)
    (hidle : ∀ q, (s.frameOf q).call.grows = none) : s.size m = sz := by
  rcases h with ⟨p, hp⟩ | ⟨-, rfl⟩
  · have hnone := hidle p
    rw [hp] at hnone
    cases hnone
  · unfold State.size
    rw [hidle m]

/-- A careful run leaves such a state, as long as every LWP has its main thread and no `growproc` is under way. -/
theorem Sized.heap {s : MState n} (h : Sized s.kernel s.pages)
    (hidle : ∀ q, (s.kernel.frameOf q).call.grows = none)
    (hroot : ∀ q, (s.kernel.proc q).Live → s.kernel.proc.Rooted q)
    (hmade : ∀ p q, (s.kernel.frameOf p).call.made = some q → s.kernel.proc.Rooted q) : Heap s where
  dirs := h.dirs
  rooted := hroot
  made := hmade
  small m sz hm hsz := by
    rw [← hsz.of_idle hidle]
    exact h.small m (.inl hm)
  full m d sz hm hd hsz _ := by
    rw [← hsz.of_idle hidle]
    exact h.full m d (.inl hm) hd

theorem mboot_grows (q : Slot) : ((mboot n).kernel.frameOf q).call.grows = none := by
  rw [show (mboot n).kernel.frameOf q = .idle from boot_frameOf q]
  rfl

theorem mboot_heap : Heap (mboot n) := by
  have hrooted : (mboot n).kernel.proc.Rooted initproc := ⟨initproc, rfl, boot_main.2 rfl, rfl⟩
  refine mboot_sized.heap mboot_grows (fun q hq => ?_) fun p q hp => ?_
  · by_cases hne : q = initproc
    · rw [hne]
      exact hrooted
    · have hz : (mboot n).kernel.proc q = Proc.zero := if_neg hne
      rw [hz] at hq
      rcases hq with e | e | e <;> cases e
  · have hidle : (mboot n).kernel.frameOf p = .idle := boot_frameOf p
    rw [hidle] at hp
    cases hp

/-- Init grows by a page and creates an LWP, which grows it by two. -/
def bothGrow : List (HEvent 1) :=
  [.other (.sched 0 0), .sbrk 0 4096, .grow 0 fun _ => .page, .store 0, .other (.threadCreate 0 true),
    .other (.threadMap 0 true true), .other (.threadReady 0), .other (.yield 0), .other (.sched 0 1), .sbrk 0 8192,
    .grow 0 fun _ => .page, .other (.yield 0), .other (.sched 0 1), .store 0]

theorem sbrk_disjoint_bothGrow : ∃ h, (hmachine 1).run (HState.start (mboot 1)) bothGrow = some (.ok h) ∧
    h.areas = [.heap 0 16384 8192 16384, .stack 0 16384, .heap 0 4096 4096 4096] ∧ Handout h := by
  obtain ⟨h, hr, hareas⟩ : ∃ h, (hmachine 1).run (HState.start (mboot 1)) bothGrow = some (.ok h) ∧
      h.areas = [.heap 0 16384 8192 16384, .stack 0 16384, .heap 0 4096 4096 4096] :=
    Machine.run_of_reaches (by decide +kernel)
  have hG : (hmachine 1).Guarded Fresh (HState.start (mboot 1)) bothGrow := Machine.guarded_of_check (by decide +kernel)
  exact ⟨h, hr, hareas, sbrk_disjoint 1 (mboot 1) bothGrow h mboot_heap mboot_grows hG hr⟩

/-- Init creates an LWP and grows by a page, and then the LWP does. -/
def lwpGrowsLast : List (HEvent 1) :=
  [.other (.sched 0 0), .other (.threadCreate 0 true), .other (.threadMap 0 true true), .other (.threadReady 0),
    .sbrk 0 4096, .grow 0 fun _ => .page, .store 0, .other (.yield 0), .other (.sched 0 1), .sbrk 0 4096,
    .grow 0 fun _ => .page, .store 0]

/-- **An LWP gets the memory of its main thread**: both calls return 12288. -/
theorem sbrk_same_twice : ∃ h, (hmachine 1).run (HState.start (mboot 1)) lwpGrowsLast = some (.ok h) ∧
    h.areas = [.heap 0 12288 4096 16384, .heap 0 12288 4096 12288, .stack 0 12288] ∧ ¬ Handout h := by
  obtain ⟨h, hr, hareas⟩ : ∃ h, (hmachine 1).run (HState.start (mboot 1)) lwpGrowsLast = some (.ok h) ∧
      h.areas = [.heap 0 12288 4096 16384, .heap 0 12288 4096 12288, .stack 0 12288] :=
    Machine.run_of_reaches (by decide +kernel)
  refine ⟨h, hr, hareas, fun hout => ?_⟩
  have hold := hout.old 0 12288 4096 16384 (by rw [hareas]; simp)
  exact absurd hold (by decide)

end Xv6.Lwp
