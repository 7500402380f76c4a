import Xv6.Lib.Owned
import Xv6.Lwp.Sane

/-!
# Who owns a page directory

Page directories are shared with no reference count: the main thread of a process owns
its page directory, its LWPs point to it, and `wait` and `exec` free it without looking
at them. A new one belongs to a child that `fork` is still filling in, or to `exec`.

* `Dirs`: who owns what (`Owned`), and the LWPs of a main thread have its page directory
  (`Grouped`).
* `Dirs.steady`: a step that moves no page directory keeps this.
* `Dirs.forkCopy`, `Dirs.forkReady`, `Dirs.threadMap`, `Dirs.reap`, `Dirs.execCommit`,
  `Dirs.execNew`, `Dirs.execFree`, `Dirs.killed`: the others.
-/

namespace Xv6.Lwp

variable {n : ℕ} {s s' : State n} {c : Fin n} {t t' : Table} {p q : Slot}

/-- `SLEEPING`, `RUNNABLE` or `RUNNING`. -/
def Proc.Live (x : Proc) : Prop := x.state = .sleeping ∨ x.state = .runnable ∨ x.state = .running

/-- A process that is no LWP, until `wait` frees it. -/
def Proc.Main (x : Proc) : Prop := x.isThread = false ∧ (x.Live ∨ x.state = .zombie)

instance (x : Proc) : Decidable x.Live := by unfold Proc.Live; infer_instance

instance (x : Proc) : Decidable x.Main := by unfold Proc.Main; infer_instance

/-- How a process holds a page directory. -/
inductive Holding
  /-- it is the main thread -/
  | own
  /-- it is in `fork`, with the child filled in -/
  | child
  /-- it is in `exec` -/
  | new
  deriving DecidableEq

/-- The child of `fork` that has its memory. -/
def Call.child : Call → Option Slot
  | .forked np => some np
  | _ => Option.none

def State.holds (s : State n) : Slot × Holding → Option Dir
  | (p, .own) => if (s.proc p).Main then (s.proc p).pgdir else none
  | (p, .child) => (s.frameOf p).call.child.bind fun np => (s.proc np).pgdir
  | (p, .new) => (s.frameOf p).call.newDir

/-- The page directories in use and those freed. -/
structure DirsLive (s : State n) : Prop where
  /-- a live process has a page directory that was not freed -/
  live : ∀ p, (s.proc p).Live → ∃ d, (s.proc p).pgdir = some d ∧ s.freed d = 0
  /-- none is freed twice -/
  once : ∀ d, s.freed d ≤ 1
  /-- none is freed while a live process has it -/
  last : ∀ d p, s.freed d ≠ 0 → (s.proc p).Live → (s.proc p).pgdir ≠ some d
  /-- what was made and not freed has an owner, and only one -/
  held : ∀ d, d < s.nextDir → s.freed d = 0 → ∃! h, s.holds h = some d

/-! ## The condition -/

/-- The process has no page directory in the making. -/
def Call.Dirless (call : Call) : Prop := call.child = Option.none ∧ call.newDir = Option.none

instance (call : Call) : Decidable call.Dirless := by unfold Call.Dirless; infer_instance

/-- `kill_thread` makes no LWP the main thread, and recovers an LWP only when it does not run, is not being
filled in, and has no new page directory. -/
def KillsQuietly (s : State n) (e : Event n) : Prop :=
  s.promotes e = none ∧
    ∀ q, s.Recovers q e → (s.proc q).isThread = true ∧ s.Still q ∧ (s.frameOf q).call.Dirless

/-- No other process of the group of `p` is live. -/
def Table.Last (t : Table) (p : Slot) : Prop :=
  (t p).isThread = false ∧ ∀ q, q ≠ p → (t q).Live → (t q).pid ≠ (t p).pid

/-- The zombie that the process on `c` finds in `wait`. -/
def State.reaps (s : State n) (c : Fin n) : Option Slot := (s.cpu c).proc.bind (findZombie s.proc)

/-- `wait` frees, and `exec` replaces, the page directory of a main thread without live
LWPs; and an LWP creates another only as long as its main thread has not exited. -/
def FreesLast (s : State n) : Event n → Prop
  | .wait c => ∀ z, s.reaps c = some z → s.proc.Last z
  | .execCommit c _ => ∀ p, (s.cpu c).proc = some p → s.proc.Last p
  | .threadMap c _ _ => ∀ p m, (s.cpu c).proc = some p → s.proc.main p = some m →
      (s.proc m).Main ∧ (s.proc m).pid = (s.proc p).pid
  | _ => True

def Orderly (s : State n) (e : Event n) : Prop := KillsQuietly s e ∧ FreesLast s e

instance (s : State n) (e : Event n) : Decidable (KillsQuietly s e) := by
  unfold KillsQuietly; infer_instance

instance (t : Table) (p : Slot) : Decidable (t.Last p) := by unfold Table.Last; infer_instance

instance (s : State n) (e : Event n) : Decidable (FreesLast s e) := by
  unfold FreesLast; rcases e with ⟨⟩ <;> infer_instance

instance (s : State n) (e : Event n) : Decidable (Orderly s e) := by unfold Orderly; infer_instance

theorem Orderly.settled {e : Event n} (h : Orderly s e) : Settled s e := fun q hq => (h.1.2 q hq).2.1

/-- The process that `kill` finds is a main thread. -/
theorem promotes_kill {pid : ℕ} (h : s.promotes (.kill c pid) = none) (hp : findPid s.proc pid = some p) :
    (s.proc p).isThread = false := by
  simp only [State.promotes, hp, Option.filter_some] at h
  by_contra hth
  rw [if_pos (by simpa using hth)] at h
  cases h

theorem KillsQuietly.kill {pid : ℕ} (h : KillsQuietly s (.kill c pid)) (hp : findPid s.proc pid = some p) :
    (s.proc p).isThread = false ∧ ∀ q, s.proc.Victim p q → s.Still q ∧ (s.frameOf q).call.Dirless :=
  ⟨promotes_kill h.1 hp, fun q hq => (h.2 q ⟨p, hp, hq⟩).2⟩

/-! ## The invariant -/

/-- A main thread of the same process with the same memory. -/
def Table.HasMain (t : Table) (p : Slot) : Prop :=
  ∃ m, (t m).Main ∧ (t m).pid = (t p).pid ∧ (t m).pgdir = (t p).pgdir

/-- The slot that a process fills in, as far as it got. -/
structure Fills (s : State n) (p : Slot) : Prop where
  create : ∀ np, (s.frameOf p).call = .create np → (s.proc np).pid = (s.proc p).pid
  created : ∀ np, (s.frameOf p).call = .created np → (s.proc np).isThread = true ∧
    (s.proc np).pid = (s.proc p).pid ∧ s.proc.HasMain np
  forked : ∀ np, (s.frameOf p).call = .forked np → (s.proc np).isThread = false ∧
    (s.proc np).pgdir ≠ none ∧ (s.proc np).tid = 0

structure Grouped (s : State n) : Prop where
  init : (s.proc initproc).Main ∧ (s.proc initproc).parent = none
  main : ∀ p, (s.proc p).Main → (s.proc p).pgdir ≠ none ∧ (s.proc p).tid = 0
  lwp : ∀ p, (s.proc p).Live → (s.proc p).isThread = true → s.proc.HasMain p
  fills : ∀ p, Fills s p

/-- The page directories of a state and who has them. -/
structure Dirs (s : State n) : Prop where
  sane : Sane s
  owned : Owned s.holds s.nextDir s.freed
  grouped : Grouped s

theorem Proc.Live.main {x : Proc} (h : x.Live) (hx : x.isThread = false) : x.Main := ⟨hx, .inl h⟩

theorem holds_own (h : (s.proc p).Main) : s.holds (p, .own) = (s.proc p).pgdir := if_pos h

theorem Dirs.live_dir (h : Dirs s) (hp : (s.proc p).Live) : ∃ d, (s.proc p).pgdir = some d ∧ s.freed d = 0 := by
  -- its own, or that of the main thread
  obtain ⟨m, hm, hpg⟩ : ∃ m, (s.proc m).Main ∧ (s.proc m).pgdir = (s.proc p).pgdir := by
    by_cases hth : (s.proc p).isThread = true
    · obtain ⟨m, hm, -, hpg⟩ := h.grouped.lwp p hp hth
      exact ⟨m, hm, hpg⟩
    · exact ⟨p, hp.main (by simpa using hth), rfl⟩
  obtain ⟨d, hd⟩ := Option.ne_none_iff_exists'.1 (h.grouped.main m hm).1
  have hown : s.holds (m, .own) = some d := (holds_own hm).trans hd
  exact ⟨d, hpg ▸ hd, h.owned.live _ d hown⟩

theorem Dirs.dirsLive (h : Dirs s) : DirsLive s where
  live p hp := h.live_dir hp
  once := h.owned.once
  last d p hd hp hpg := by
    obtain ⟨d', hd', h0⟩ := h.live_dir hp
    rw [hpg] at hd'
    cases hd'
    exact hd h0
  held d hlt h0 := by
    obtain ⟨x, hx⟩ := h.owned.covered d hlt h0
    exact ⟨x, hx, fun y hy => h.owned.inj y x d hy hx⟩

/-! ## Steps that move no page directory -/

/-- A slot keeps what matters for the page directories. -/
structure Keeps (x y : Proc) : Prop where
  pgdir : y.pgdir = x.pgdir
  pid : y.pid = x.pid
  isThread : y.isThread = x.isThread
  tid : y.tid = x.tid
  live : y.Live → x.Live
  exists_iff : y.Live ∨ y.state = .zombie ↔ x.Live ∨ x.state = .zombie

theorem Keeps.refl (x : Proc) : Keeps x x := ⟨rfl, rfl, rfl, rfl, id, .rfl⟩

theorem Keeps.main {x y : Proc} (h : Keeps x y) : y.Main ↔ x.Main := by
  unfold Proc.Main
  rw [h.isThread, h.exists_iff]

theorem Proc.Live.of_state {x y : Proc} (hx : x.Live) (h : y.state = x.state) : y.Live := by
  unfold Proc.Live
  rw [h]
  exact hx

/-- A slot that keeps its state. -/
theorem Keeps.of_state {x y : Proc} (hpg : y.pgdir = x.pgdir) (hpid : y.pid = x.pid)
    (hth : y.isThread = x.isThread) (htid : y.tid = x.tid) (hst : y.state = x.state) : Keeps x y := by
  refine ⟨hpg, hpid, hth, htid, fun h => h.of_state hst.symm, ?_⟩
  unfold Proc.Live
  rw [hst]

/-- A live process stays live, or exits. -/
theorem Keeps.of_live {x y : Proc} (hpg : y.pgdir = x.pgdir) (hpid : y.pid = x.pid)
    (hth : y.isThread = x.isThread) (htid : y.tid = x.tid) (hx : x.Live)
    (hy : y.Live ∨ y.state = .zombie) : Keeps x y :=
  ⟨hpg, hpid, hth, htid, fun _ => hx, fun _ => .inl hx, fun _ => hy⟩

theorem Woke.keeps {x y : Proc} (h : Woke x y) : Keeps x y := by
  rcases h.state with e | ⟨e, e'⟩
  · exact .of_state h.pgdir h.pid h.isThread h.tid e
  · exact .of_live h.pgdir h.pid h.isThread h.tid (.inl e) (.inl (.inr (.inl e')))

/-- An update of one slot that keeps what matters. -/
theorem keeps_upd {f : Proc → Proc} (h : Keeps (t p) (f (t p))) (q : Slot) : Keeps (t q) ((t.upd p f) q) := by
  rw [upd_apply]
  split
  · rename_i hq; rw [hq]; exact h
  · exact .refl _

/-- A slot that holds nothing, before and after, and that nobody fills in. -/
structure Blank (s s' : State n) (q : Slot) : Prop where
  before : ¬ (s.proc q).Main
  main : ¬ (s'.proc q).Main
  live : ¬ (s'.proc q).Live
  creating : ¬ s.Creating q

/-- What a step does to the call that a process is in: nothing, or it goes on in `exec`, or it has
no page directory before and after. -/
inductive Turns (s s' : State n) (p : Slot) : Prop
  | same (h : (s'.frameOf p).call = (s.frameOf p).call)
  | execs (d : Dir) (h : (s.frameOf p).call.newDir = some d) (h' : (s'.frameOf p).call.newDir = some d)
  | dirless (h : (s.frameOf p).call.Dirless) (h' : (s'.frameOf p).call.Dirless)
      (hcreated : ∀ np, (s'.frameOf p).call ≠ .created np)
      (hcreate : ∀ np, (s'.frameOf p).call = .create np → (s'.proc np).pid = (s'.proc p).pid)

theorem holds_child_forked {np : Slot} (h : (s.frameOf p).call = .forked np) :
    s.holds (p, .child) = (s.proc np).pgdir := by
  simp only [State.holds, h, Call.child, Option.bind_some]

theorem holds_child_none (h : (s.frameOf p).call.Dirless) : s.holds (p, .child) = none := by
  simp only [State.holds, h.1, Option.bind_none]

theorem holds_new_none (h : (s.frameOf p).call.Dirless) : s.holds (p, .new) = none := h.2

theorem newDir_child {call : Call} {d : Dir} (h : call.newDir = some d) : call.child = none := by
  cases call <;> first | rfl | cases h

theorem holds_child_exec {d : Dir} (h : (s.frameOf p).call.newDir = some d) : s.holds (p, .child) = none := by
  simp only [State.holds, newDir_child h, Option.bind_none]

theorem holds_new_call {call : Call} (h : (s.frameOf p).call = call) : s.holds (p, .new) = call.newDir :=
  congrArg Call.newDir h

theorem Call.child_some {call : Call} {np : Slot} (h : call.child = some np) : call = .forked np := by
  cases call <;> cases h
  rfl

theorem holds_own_not (h : ¬ (s.proc p).Main) : s.holds (p, .own) = none := if_neg h

theorem holds_own_eq (h : Keeps (s.proc p) (s'.proc p) ∨ ¬ (s.proc p).Main ∧ ¬ (s'.proc p).Main) :
    s'.holds (p, .own) = s.holds (p, .own) := by
  rcases h with hk | ⟨hm, hm'⟩
  · by_cases hm : (s.proc p).Main
    · rw [holds_own hm, holds_own (hk.main.2 hm), hk.pgdir]
    · rw [holds_own_not hm, holds_own_not fun h => hm (hk.main.1 h)]
  · rw [holds_own_not hm, holds_own_not hm']

theorem holds_child_eq (h : Turns s s' p)
    (hk : ∀ np, (s.frameOf p).call.creates = some np → (s'.proc np).pgdir = (s.proc np).pgdir) :
    s'.holds (p, .child) = s.holds (p, .child) := by
  rcases h with he | ⟨d, hd, hd'⟩ | ⟨hd, hd', -, -⟩
  · show (s'.frameOf p).call.child.bind _ = (s.frameOf p).call.child.bind _
    rw [he]
    refine Option.bind_congr fun np hnp => hk np ?_
    rw [Call.child_some hnp]
    rfl
  · rw [holds_child_exec hd, holds_child_exec hd']
  · rw [holds_child_none hd, holds_child_none hd']

theorem holds_new_eq (h : Turns s s' p) : s'.holds (p, .new) = s.holds (p, .new) := by
  rcases h with he | ⟨d, hd, hd'⟩ | ⟨hd, hd', -, -⟩
  · exact congrArg Call.newDir he
  · exact hd'.trans hd.symm
  · rw [holds_new_none hd, holds_new_none hd']

/-- The process and the slot that it fills in are kept. -/
theorem Fills.turns (h : Fills s p) (ht : Turns s s' p)
    (hk : ∀ np, (s.frameOf p).call.creates = some np → (s'.frameOf p).call.creates = some np →
      Keeps (s.proc p) (s'.proc p) ∧ Keeps (s.proc np) (s'.proc np) ∧
        ((s.proc np).pid = (s.proc p).pid → s.proc.HasMain np → s'.proc.HasMain np)) : Fills s' p := by
  rcases ht with he | ⟨d, -, hd'⟩ | ⟨-, hd', hcr, hpid⟩
  · constructor
    · intro np hc
      have hc₀ := he.symm.trans hc
      obtain ⟨hkp, hkn, -⟩ := hk np (by rw [hc₀]; rfl) (by rw [hc]; rfl)
      rw [hkn.pid, hkp.pid, h.create np hc₀]
    · intro np hc
      have hc₀ := he.symm.trans hc
      obtain ⟨hkp, hkn, hhas⟩ := hk np (by rw [hc₀]; rfl) (by rw [hc]; rfl)
      obtain ⟨hth, hpid, hm⟩ := h.created np hc₀
      exact ⟨hkn.isThread.trans hth, by rw [hkn.pid, hkp.pid, hpid], hhas hpid hm⟩
    · intro np hc
      have hc₀ := he.symm.trans hc
      obtain ⟨-, hkn, -⟩ := hk np (by rw [hc₀]; rfl) (by rw [hc]; rfl)
      rw [hkn.isThread, hkn.pgdir, hkn.tid]
      exact h.forked np hc₀
  · exact ⟨fun np hc => (by rw [hc] at hd'; cases hd'), fun np hc => (by rw [hc] at hd'; cases hd'),
      fun np hc => (by rw [hc] at hd'; cases hd')⟩
  · refine ⟨hpid, fun np hc => absurd hc (hcr np), fun np hc => ?_⟩
    rw [hc] at hd'
    cases hd'.1

theorem Table.HasMain.keeps (h : s.proc.HasMain p) (hp : Keeps (s.proc p) (s'.proc p))
    (hm : ∀ m, (s.proc m).Main → (s.proc m).pid = (s.proc p).pid → Keeps (s.proc m) (s'.proc m)) :
    s'.proc.HasMain p := by
  obtain ⟨m, hmain, hpid, hpg⟩ := h
  have hk := hm m hmain hpid
  exact ⟨m, hk.main.2 hmain, by rw [hk.pid, hp.pid, hpid], by rw [hk.pgdir, hp.pgdir, hpg]⟩

/-- **A step that moves no page directory.** -/
theorem Dirs.steady (h : Dirs s) (hs' : Sane s') (hnext : s'.nextDir = s.nextDir) (hfreed : s'.freed = s.freed)
    (hslot : ∀ q, Keeps (s.proc q) (s'.proc q) ∨ Blank s s' q) (hcall : ∀ q, Turns s s' q)
    (hinit : (s'.proc initproc).parent = none) : Dirs s' := by
  have hmain : ∀ m, (s.proc m).Main → Keeps (s.proc m) (s'.proc m) :=
    fun m hm => (hslot m).resolve_right fun hb => hb.before hm
  have hnew : ∀ {q np}, (s.frameOf q).call.creates = some np → Keeps (s.proc np) (s'.proc np) :=
    fun {q np} hc => (hslot np).resolve_right fun hb => hb.creating ⟨q, hc⟩
  refine ⟨hs', ?_, ⟨⟨(hmain _ h.grouped.init.1).main.2 h.grouped.init.1, hinit⟩, ?_, ?_, ?_⟩⟩
  · rw [hnext, hfreed]
    refine h.owned.congr ?_
    rintro ⟨p, k⟩
    cases k with
    | own => exact holds_own_eq ((hslot p).imp id fun hb => ⟨hb.before, hb.main⟩)
    | child => exact holds_child_eq (hcall p) fun np hc => (hnew hc).pgdir
    | new => exact holds_new_eq (hcall p)
  · intro p hp
    have hk := (hslot p).resolve_right fun hb => hb.main hp
    rw [hk.pgdir, hk.tid]
    exact h.grouped.main p (hk.main.1 hp)
  · intro p hp hth
    have hk := (hslot p).resolve_right fun hb => hb.live hp
    exact (h.grouped.lwp p (hk.live hp) (hk.isThread ▸ hth)).keeps hk fun m hm _ => hmain m hm
  · intro p
    refine (h.grouped.fills p).turns (hcall p) fun np hc hc' => ?_
    have hk := (hslot p).resolve_right fun hb => hb.live (hs'.creator_live hc')
    exact ⟨hk, hnew hc, fun _ hhas => hhas.keeps (hnew hc) fun m hm _ => hmain m hm⟩

theorem idle_dirless : Frame.idle.call.Dirless := ⟨rfl, rfl⟩

/-- A call without a page directory of its own, and without an LWP. -/
def Call.Plain (call : Call) : Prop :=
  call.Dirless ∧ (∀ np, call ≠ .created np) ∧ ∀ np, call ≠ .create np

theorem idle_plain : Frame.idle.call.Plain := ⟨idle_dirless, fun _ h => (by cases h), fun _ h => (by cases h)⟩

theorem Turns.plain (h : (s.frameOf p).call.Dirless) (h' : (s'.frameOf p).call.Plain) : Turns s s' p :=
  .dirless h h'.1 h'.2.1 fun np hc => absurd hc (h'.2.2 np)

/-- No process goes on. -/
theorem turns_same (hframe : s'.frame = s.frame)
    (hk : ∀ q, (s'.proc q).kstack = (s.proc q).kstack ∨
      (s'.proc q).kstack = none ∧ (s.frameOf q).call.Dirless) (q : Slot) : Turns s s' q := by
  rcases hk q with e | ⟨e, hd⟩
  · refine .same ?_
    unfold State.frameOf
    rw [e, hframe]
  · refine .plain hd ?_
    rw [frameOf_none e]
    exact idle_plain

/-- The process of one CPU goes on. -/
theorem turns_step {f g : Frame} (h : Sane s) (hcur : s.current c = some (p, f))
    (hframe : s'.frame = Function.update s.frame (s.cpu c).stack g)
    (hk : ∀ q, (s'.proc q).kstack = (s.proc q).kstack ∨
      (s'.proc q).kstack = none ∧ q ≠ p ∧ (s.frameOf q).call.Dirless)
    (hfg : g.call = f.call ∨ (∃ d, f.call.newDir = some d ∧ g.call.newDir = some d) ∨
      f.call.Dirless ∧ g.call.Plain) (q : Slot) : Turns s s' q := by
  have hfr := frameOf_step h hcur hframe fun q => (hk q).imp id fun hq => ⟨hq.1, hq.2.1⟩
  by_cases hqp : q = p
  · subst hqp
    have hg : s'.frameOf q = g := by rw [hfr, if_pos rfl]
    obtain ⟨-, -, hf⟩ := h.frame_current hcur
    rcases hfg with he | ⟨d, hd, hd'⟩ | ⟨hd, hp⟩
    · exact .same (by rw [hg, hf, he])
    · exact .execs d (hf ▸ hd) (hg ▸ hd')
    · exact .plain (hf ▸ hd) (hg ▸ hp)
  · rcases hk q with e | ⟨e, -, hd⟩
    · refine .same ?_
      rw [hfr, if_neg hqp]
      split
      · rename_i hn; rw [frameOf_none (e.symm.trans hn)]
      · rfl
    · refine .plain hd ?_
      rw [frameOf_none e]
      exact idle_plain

/-! ## Steps that fill a slot in -/

/-- The process `p` fills in `np`. -/
structure Sets (s s' : State n) (p np : Slot) : Prop where
  creates : (s.frameOf p).call.creates = some np
  others : ∀ q, q ≠ np → Keeps (s.proc q) (s'.proc q)
  frames : ∀ q, q ≠ p → s'.frameOf q = s.frameOf q

namespace Sets

variable {np : Slot}

theorem embryo (h : Sets s s' p np) (hs : Sane s) : (s.proc np).state = .embryo :=
  hs.creating p np h.creates

theorem not_main (h : Sets s s' p np) (hs : Sane s) : ¬ (s.proc np).Main := by
  unfold Proc.Main Proc.Live
  rw [h.embryo hs]
  simp

theorem main_ne (h : Sets s s' p np) (hs : Sane s) (hq : (s.proc q).Main) : q ≠ np := by
  rintro rfl
  exact h.not_main hs hq

theorem creates_ne (h : Sets s s' p np) (hs : Sane s) (hqp : q ≠ p) {x : Slot}
    (hq : (s.frameOf q).call.creates = some x) : x ≠ np := by
  rintro rfl
  exact hqp (hs.creator q p x hq h.creates)

theorem hasMain (h : Sets s s' p np) (hs : Sane s) (hq : q ≠ np) (hm : s.proc.HasMain q) :
    s'.proc.HasMain q :=
  hm.keeps (h.others q hq) fun m hm _ => h.others m (h.main_ne hs hm)

theorem holds (h : Sets s s' p np) (hs : Sane s) {x : Slot × Holding} (hown : x ≠ (np, .own))
    (hchild : x ≠ (p, .child)) (hnew : x ≠ (p, .new)) : s'.holds x = s.holds x := by
  obtain ⟨q, k⟩ := x
  cases k with
  | own => exact holds_own_eq (.inl (h.others q fun e => hown (by rw [e])))
  | child =>
    have hqp : q ≠ p := fun e => hchild (by rw [e])
    exact holds_child_eq (.same (by rw [h.frames q hqp])) fun x hx =>
      (h.others x (h.creates_ne hs hqp hx)).pgdir
  | new =>
    have hqp : q ≠ p := fun e => hnew (by rw [e])
    exact holds_new_eq (.same (by rw [h.frames q hqp]))

theorem grouped (h : Sets s s' p np) (hs : Sane s) (hg : Grouped s)
    (hmain : (s'.proc np).Main → (s'.proc np).pgdir ≠ none ∧ (s'.proc np).tid = 0)
    (hlwp : (s'.proc np).Live → (s'.proc np).isThread = true → s'.proc.HasMain np)
    (hfills : Fills s' p) (hinit : (s'.proc initproc).parent = none) : Grouped s' where
  init := ⟨(h.others _ (h.main_ne hs hg.init.1)).main.2 hg.init.1, hinit⟩
  main q hq := by
    by_cases hqn : q = np
    · exact hqn ▸ hmain (hqn ▸ hq)
    · have hk := h.others q hqn
      rw [hk.pgdir, hk.tid]
      exact hg.main q (hk.main.1 hq)
  lwp q hq hth := by
    by_cases hqn : q = np
    · exact hqn ▸ hlwp (hqn ▸ hq) (hqn ▸ hth)
    · have hk := h.others q hqn
      exact h.hasMain hs hqn (hg.lwp q (hk.live hq) (hk.isThread ▸ hth))
  fills q := by
    by_cases hqp : q = p
    · exact hqp ▸ hfills
    · refine (hg.fills q).turns (.same (by rw [h.frames q hqp])) fun x hx hx' => ?_
      have hxn := h.creates_ne hs hqp hx
      have hqn : q ≠ np := by
        rintro rfl
        rcases hs.creator_live hx with e | e | e <;> (rw [h.embryo hs] at e; cases e)
      exact ⟨h.others q hqn, h.others x hxn, fun _ => h.hasMain hs hxn⟩

end Sets

/-- A step of `p` on CPU `c` that fills in `np`. -/
theorem sets_of_current {f g : Frame} (s' : State n) (np : Slot) (hs : Sane s) (hcur : s.current c = some (p, f))
    (hcr : f.call.creates = some np) (hothers : ∀ q, q ≠ np → Keeps (s.proc q) (s'.proc q))
    (hk : ∀ q, (s'.proc q).kstack = (s.proc q).kstack ∨ (s'.proc q).kstack = none ∧ q = np)
    (hframe : s'.frame = Function.update s.frame (s.cpu c).stack g) :
    Sets s s' p np ∧ s'.frameOf p = g := by
  obtain ⟨hrun, -, hf⟩ := hs.frame_current hcur
  have hnp : (s.proc np).state = .embryo := hs.creating p np (by rw [hf, hcr])
  have hpn : np ≠ p := by rintro rfl; rw [hrun] at hnp; cases hnp
  have hk' : ∀ q, (s'.proc q).kstack = (s.proc q).kstack ∨ (s'.proc q).kstack = none ∧ q ≠ p :=
    fun q => (hk q).imp id fun ⟨hn, hq⟩ => ⟨hn, hq ▸ hpn⟩
  have hfr := frameOf_step hs hcur hframe hk'
  refine ⟨⟨by rw [hf, hcr], hothers, fun q hq => ?_⟩, by rw [hfr, if_pos rfl]⟩
  rw [hfr, if_neg hq]
  split
  · rename_i hn
    rcases hk q with e | ⟨-, rfl⟩
    · rw [frameOf_none (e.symm.trans hn)]
    · rw [hs.idle _ (.inl hnp)]
  · rfl

theorem Frame.Waits.dirless {f : Frame} (h : f.Waits) : f.call.Dirless := by
  rcases h with rfl | rfl | ⟨thread, rfl⟩ <;> exact ⟨rfl, rfl⟩

theorem Frame.Waits.plain {f : Frame} (h : f.Waits) : f.call.Plain := by
  rcases h with rfl | rfl | ⟨thread, rfl⟩ <;>
    exact ⟨⟨rfl, rfl⟩, fun _ hc => (by cases hc), fun _ hc => (by cases hc)⟩

theorem Fills.plain (h : (s.frameOf p).call.Plain) : Fills s p :=
  ⟨fun np hc => absurd hc (h.2.2 np), fun np hc => absurd hc (h.2.1 np), fun np hc => by
    have := h.1.1; rw [hc] at this; cases this⟩

theorem not_main_embryo {x : Proc} (h : x.state = .embryo) : ¬ x.Main := by
  unfold Proc.Main Proc.Live
  rw [h]
  simp

theorem not_live_embryo {x : Proc} (h : x.state = .embryo) : ¬ x.Live := by
  unfold Proc.Live
  rw [h]
  simp

theorem upd_init {np : Slot} {f : Proc → Proc} (h : initproc ≠ np) (hinit : (t initproc).parent = none) :
    ((t.upd np f) initproc).parent = none := by
  rw [upd_ne t h, hinit]

section

variable {np : Slot} {f : Proc → Proc} {x : Proc}

/-- `copyuvm` makes a page directory for the child. -/
theorem Dirs.forkCopy (h : Dirs s) (hcur : s.current c = some (p, ⟨.fork np, false⟩)) (hsane : Sane s')
    (hproc : s'.proc = s.proc.upd np f) (hx : f (s.proc np) = x) (hst : x.state = (s.proc np).state)
    (hk : x.kstack = (s.proc np).kstack) (hpg : x.pgdir = some s.nextDir) (hth : x.isThread = false)
    (htid : x.tid = 0) (hframe : s'.frame = Function.update s.frame (s.cpu c).stack ⟨.forked np, false⟩)
    (hnext : s'.nextDir = s.nextDir + 1) (hfreed : s'.freed = s.freed) : Dirs s' := by
  have hself : s'.proc np = x := by rw [hproc, upd_self, hx]
  have hothers : ∀ q, q ≠ np → s'.proc q = s.proc q := fun q hq => by rw [hproc, upd_ne _ hq]
  obtain ⟨hS, hfp⟩ := sets_of_current s' np h.sane hcur rfl
    (fun q hq => by rw [hothers q hq]; exact .refl _)
    (fun q => .inl (by rw [hproc]; exact upd_field Proc.kstack _ _ q _ (by rw [hx, hk]))) hframe
  have hemb : (s.proc np).state = .embryo := hS.embryo h.sane
  have hemb' : (s'.proc np).state = .embryo := by rw [hself, hst, hemb]
  have hf : (s.frameOf p).call = .fork np := by rw [(h.sane.frame_current hcur).2.2]
  have hcall' : (s'.frameOf p).call = .forked np := by rw [hfp]
  refine ⟨hsane, ?_, ?_⟩
  · -- `p` holds the new page directory for the child
    rw [hnext, hfreed]
    refine h.owned.alloc (h := (p, .child)) (holds_child_none (by rw [hf]; exact ⟨rfl, rfl⟩)) ?_ ?_
    · rw [holds_child_forked hcall', hself, hpg]
    · intro y hy
      by_cases hown : y = (np, .own)
      · rw [hown, holds_own_not (hS.not_main h.sane), holds_own_not (not_main_embryo hemb')]
      · by_cases hnew : y = (p, .new)
        · rw [hnew, holds_new_call hcall', holds_new_call hf]
          rfl
        · exact hS.holds h.sane hown hy hnew
  · refine hS.grouped h.sane h.grouped (fun hm => absurd hm (not_main_embryo hemb'))
      (fun hl _ => absurd hl (not_live_embryo hemb')) ?_ ?_
    · refine ⟨fun y hc => ?_, fun y hc => ?_, fun y hc => ?_⟩
      · rw [hcall'] at hc; cases hc
      · rw [hcall'] at hc; cases hc
      · rw [hcall'] at hc
        cases hc
        rw [hself, hpg]
        exact ⟨hth, by simp, htid⟩
    · rw [hproc]
      exact upd_init (hS.main_ne h.sane h.grouped.init.1) h.grouped.init.2

/-- `fork` is over: the child has its page directory itself. -/
theorem Dirs.forkReady (h : Dirs s) (hcur : s.current c = some (p, ⟨.forked np, false⟩)) (hsane : Sane s')
    (hproc : s'.proc = s.proc.upd np fun x => { x with state := .runnable })
    (hframe : s'.frame = Function.update s.frame (s.cpu c).stack .idle)
    (hnext : s'.nextDir = s.nextDir) (hfreed : s'.freed = s.freed) : Dirs s' := by
  have hself : s'.proc np = { s.proc np with state := .runnable } := by rw [hproc, upd_self]
  have hothers : ∀ q, q ≠ np → s'.proc q = s.proc q := fun q hq => by rw [hproc, upd_ne _ hq]
  obtain ⟨hS, hfp⟩ := sets_of_current s' np h.sane hcur rfl
    (fun q hq => by rw [hothers q hq]; exact .refl _)
    (fun q => .inl (by rw [hproc]; exact upd_field Proc.kstack _ _ q _ (by rfl))) hframe
  have hf : (s.frameOf p).call = .forked np := by rw [(h.sane.frame_current hcur).2.2]
  obtain ⟨hth, hpg, htid⟩ := (h.grouped.fills p).forked np hf
  have hidle : (s'.frameOf p).call.Plain := by rw [hfp]; exact idle_plain
  have hmain : (s'.proc np).Main := by rw [hself]; exact ⟨hth, .inl (.inr (.inl rfl))⟩
  refine ⟨hsane, ?_, ?_⟩
  · rw [hnext, hfreed]
    refine h.owned.move (h := (p, .child)) (g := (np, .own)) (by simp)
      (holds_own_not (hS.not_main h.sane)) (holds_child_none hidle.1) ?_ ?_
    · rw [holds_own hmain, holds_child_forked hf, hself]
    · intro y hchild hown
      by_cases hnew : y = (p, .new)
      · rw [hnew, holds_new_none hidle.1, holds_new_call hf]
        rfl
      · exact hS.holds h.sane hown hchild hnew
  · refine hS.grouped h.sane h.grouped (fun _ => by rw [hself]; exact ⟨hpg, htid⟩) (fun _ hth' => ?_)
      (.plain hidle) ?_
    · rw [hself] at hth'
      exact absurd (hth.symm.trans hth') (by simp)
    · rw [hproc]
      exact upd_init (hS.main_ne h.sane h.grouped.init.1) h.grouped.init.2

/-- A step of `thread_create`, or the end of `fork`, in which nothing changes hands. -/
theorem Dirs.sets (h : Dirs s) (hsane : Sane s') (hS : Sets s s' p np) (hnp : ¬ (s'.proc np).Main)
    (hlwp : (s'.proc np).Live → (s'.proc np).isThread = true → s'.proc.HasMain np)
    (hd : (s.frameOf p).call.Dirless) (hd' : (s'.frameOf p).call.Dirless) (hfills : Fills s' p)
    (hinit : (s'.proc initproc).parent = none) (hnext : s'.nextDir = s.nextDir)
    (hfreed : s'.freed = s.freed) : Dirs s' := by
  refine ⟨hsane, ?_, hS.grouped h.sane h.grouped (fun hm => absurd hm hnp) hlwp hfills hinit⟩
  rw [hnext, hfreed]
  refine h.owned.congr fun y => ?_
  by_cases hown : y = (np, .own)
  · rw [hown, holds_own_not (hS.not_main h.sane), holds_own_not hnp]
  · by_cases hchild : y = (p, .child)
    · rw [hchild, holds_child_none hd, holds_child_none hd']
    · by_cases hnew : y = (p, .new)
      · rw [hnew, holds_new_none hd, holds_new_none hd']
      · exact hS.holds h.sane hown hchild hnew

/-- The critical section of `thread_create`: the LWP gets the page directory of the main
thread of its creator. -/
theorem Dirs.threadMap {m thrd : Slot} {sz : BitVec 32} (h : Dirs s)
    (hcur : s.current c = some (p, ⟨.create thrd, false⟩)) (hmain : (s.proc m).Main)
    (hpid : (s.proc m).pid = (s.proc p).pid) (hsane : Sane s')
    (hproc : s'.proc = ((s.proc.resize m sz).share m thrd sz).adopt m thrd s.nexttid)
    (hframe : s'.frame = Function.update s.frame (s.cpu c).stack ⟨.created thrd, false⟩)
    (hnext : s'.nextDir = s.nextDir) (hfreed : s'.freed = s.freed) : Dirs s' := by
  obtain ⟨hrun, -, hfp₀⟩ := h.sane.frame_current hcur
  have hf : (s.frameOf p).call = .create thrd := by rw [hfp₀]
  have hthrd : (s.proc thrd).state = .embryo := h.sane.creating p thrd (by rw [hf]; rfl)
  have hmt : m ≠ thrd := by rintro rfl; exact not_main_embryo hthrd hmain
  have hpt : p ≠ thrd := by rintro rfl; rw [hrun] at hthrd; cases hthrd
  have hres : ∀ q, Keeps (s.proc q) ((s.proc.resize m sz) q) :=
    keeps_upd (f := fun x => { x with sz := sz }) (.of_state rfl rfl rfl rfl rfl)
  have hothers : ∀ q, q ≠ thrd → Keeps (s.proc q) (s'.proc q) := fun q hq => by
    rw [hproc, Table.adopt, upd_ne _ hq, Table.share, upd_ne _ hq]
    exact hres q
  have hks : ∀ q, (s'.proc q).kstack = (s.proc q).kstack := fun q => by
    rw [hproc]
    exact (upd_field Proc.kstack _ _ q _ (by rfl)).trans ((upd_field Proc.kstack _ _ q _ (by rfl)).trans
      (upd_field Proc.kstack _ _ q _ (by rfl)))
  obtain ⟨hS, hfp⟩ := sets_of_current s' thrd h.sane hcur rfl hothers (fun q => .inl (hks q)) hframe
  have hself : (s'.proc thrd).state = .embryo ∧ (s'.proc thrd).isThread = true ∧
      (s'.proc thrd).pid = (s.proc thrd).pid ∧ (s'.proc thrd).pgdir = (s.proc m).pgdir := by
    rw [hproc, Table.adopt, upd_self, Table.share, upd_self]
    refine ⟨(upd_field Proc.state _ _ thrd _ (by rfl)).trans hthrd, rfl,
      upd_field Proc.pid _ _ thrd _ (by rfl), upd_field Proc.pgdir _ _ m _ (by rfl)⟩
  obtain ⟨hst, hth, hpidt, hpg⟩ := hself
  have hcreate := (h.grouped.fills p).create thrd hf
  have hcall' : (s'.frameOf p).call = .created thrd := by rw [hfp]
  refine h.sets hsane hS (not_main_embryo hst) (fun hl _ => absurd hl (not_live_embryo hst))
    (by rw [hf]; exact ⟨rfl, rfl⟩) (by rw [hcall']; exact ⟨rfl, rfl⟩) ?_ ?_ hnext hfreed
  · refine ⟨fun y hc => ?_, fun y hc => ?_, fun y hc => ?_⟩
    · rw [hcall'] at hc; cases hc
    · rw [hcall'] at hc
      cases hc
      have hkm := hothers m hmt
      refine ⟨hth, ?_, m, hkm.main.2 hmain, ?_, by rw [hkm.pgdir, hpg]⟩
      · rw [hpidt, hcreate, (hothers p hpt).pid]
      · rw [hkm.pid, hpidt, hpid, hcreate]
    · rw [hcall'] at hc; cases hc
  · have hi := hS.main_ne h.sane h.grouped.init.1
    rw [hproc, Table.adopt, upd_ne _ hi, Table.share, upd_ne _ hi]
    exact (upd_field Proc.parent _ _ initproc _ (by rfl)).trans h.grouped.init.2

end

/-! ## Steps that free a page directory, or make one for `exec` -/

section

variable {z : Slot} {d : Dir}

/-- `wait` frees the page directory of a main thread without live LWPs. -/
theorem Dirs.reap (h : Dirs s) {f : Frame} (hcur : s.current c = some (p, f)) (hf : f.Waits)
    (hz : (s.proc z).state = .zombie) (hlast : s.proc.Last z) (hd : (s.proc z).pgdir = some d)
    (hpar : (s.proc z).parent ≠ none) (hsane : Sane s') (hproc : s'.proc = s.proc.upd z Proc.reaped)
    (hframe : s'.frame = Function.update s.frame (s.cpu c).stack .idle) (hnext : s'.nextDir = s.nextDir)
    (hfreed : s'.freed = Function.update s.freed d (s.freed d + 1)) : Dirs s' := by
  have hmain : (s.proc z).Main := ⟨hlast.1, .inr hz⟩
  have hself : s'.proc z = (s.proc z).reaped := by rw [hproc, upd_self]
  have hothers : ∀ q, q ≠ z → s'.proc q = s.proc q := fun q hq => by rw [hproc, upd_ne _ hq]
  have hkeep : ∀ q, q ≠ z → Keeps (s.proc q) (s'.proc q) := fun q hq => by
    rw [hothers q hq]; exact .refl _
  have hgone : ¬ (s'.proc z).Main ∧ ¬ (s'.proc z).Live := by
    rw [hself]
    unfold Proc.Main Proc.Live
    simp [Proc.reaped]
  have hpz : z ≠ p := by rintro rfl; rw [(h.sane.frame_current hcur).1] at hz; cases hz
  have hturn : ∀ q, Turns s s' q := turns_step h.sane hcur hframe
    (fun q => by
      by_cases hq : q = z
      · rw [hq, hself]
        exact .inr ⟨rfl, hpz, by rw [h.sane.idle z (.inr hz)]; exact idle_dirless⟩
      · rw [hothers q hq]; exact .inl rfl)
    (.inr (.inr ⟨hf.dirless, idle_plain⟩))
  have hstill := zombie_still h.sane hz
  have hinit : initproc ≠ z := fun e => hpar (e ▸ h.grouped.init.2)
  -- the LWPs that are live have another main thread
  have hother : ∀ q m, q ≠ z → (s.proc q).Live → (s.proc m).pid = (s.proc q).pid → m ≠ z := by
    rintro q m hq hl hpid rfl
    exact hlast.2 q hq hl hpid.symm
  refine ⟨hsane, ?_, ?_, ?_, ?_, ?_⟩
  · rw [hnext, hfreed]
    refine h.owned.free (h := (z, .own)) ((holds_own hmain).trans hd) (holds_own_not hgone.1) ?_
    rintro ⟨q, k⟩ hq
    cases k with
    | own => exact holds_own_eq (.inl (hkeep q fun e => hq (by rw [e])))
    | child =>
      refine holds_child_eq (hturn q) fun x hx => ?_
      rw [hothers x (by rintro rfl; exact hstill.2 ⟨q, hx⟩)]
    | new => exact holds_new_eq (hturn q)
  · rw [hothers _ hinit]
    exact h.grouped.init
  · intro q hq
    have hqz : q ≠ z := by rintro rfl; exact hgone.1 hq
    rw [hothers q hqz] at hq ⊢
    exact h.grouped.main q hq
  · intro q hq hth
    have hqz : q ≠ z := by rintro rfl; exact hgone.2 hq
    have hq₀ := hq
    rw [hothers q hqz] at hq₀ hth
    exact (h.grouped.lwp q hq₀ hth).keeps (hkeep q hqz) fun m _ hpid =>
      hkeep m (hother q m hqz hq₀ hpid)
  · intro q
    refine (h.grouped.fills q).turns (hturn q) fun x hx hx' => ?_
    have hl := h.sane.creator_live hx
    have hqz : q ≠ z := by rintro rfl; rcases hl with e | e | e <;> (rw [hz] at e; cases e)
    have hxz : x ≠ z := by rintro rfl; exact hstill.2 ⟨q, hx⟩
    exact ⟨hkeep q hqz, hkeep x hxz, fun hpid hm => hm.keeps (hkeep x hxz) fun m _ hm =>
      hkeep m (hother q m hqz hl (hm.trans hpid))⟩

/-- `exec` commits: the old page directory of a main thread without LWPs is freed. -/
theorem Dirs.execCommit (h : Dirs s) {two : Bool} {old : Dir} {f : Proc → Proc}
    (hcur : s.current c = some (p, ⟨.exec two (some d), false⟩)) (hlast : s.proc.Last p)
    (hold : (s.proc p).pgdir = some old) (hsane : Sane s') (hproc : s'.proc = s.proc.upd p f)
    (hf : ∃ sz, f (s.proc p) = { s.proc p with pgdir := some d, sz := sz })
    (hframe : s'.frame = Function.update s.frame (s.cpu c).stack .idle) (hnext : s'.nextDir = s.nextDir)
    (hfreed : s'.freed = Function.update s.freed old (s.freed old + 1)) : Dirs s' := by
  obtain ⟨sz, hx⟩ := hf
  obtain ⟨hrun, -, hfr⟩ := h.sane.frame_current hcur
  have hmain : (s.proc p).Main := ⟨hlast.1, .inl (.inr (.inr hrun))⟩
  have hself : s'.proc p = { s.proc p with pgdir := some d, sz := sz } := by rw [hproc, upd_self, hx]
  have hothers : ∀ q, q ≠ p → s'.proc q = s.proc q := fun q hq => by rw [hproc, upd_ne _ hq]
  have hkeep : ∀ q, q ≠ p → Keeps (s.proc q) (s'.proc q) := fun q hq => by
    rw [hothers q hq]; exact .refl _
  have hmain' : (s'.proc p).Main := by rw [hself]; exact hmain
  have hks : ∀ q, (s'.proc q).kstack = (s.proc q).kstack := fun q => by
    rw [hproc]; exact upd_field Proc.kstack _ _ q _ (by rw [hx])
  have hfrs := frameOf_step h.sane hcur hframe fun q => .inl (hks q)
  have hidle : (s'.frameOf p).call.Plain := by rw [hfrs, if_pos rfl]; exact idle_plain
  have hturn : ∀ q, q ≠ p → Turns s s' q := by
    intro q hq
    refine .same ?_
    rw [hfrs, if_neg hq]
    split
    · rename_i hn; rw [frameOf_none ((hks q).symm.trans hn)]
    · rfl
  have hcall : (s.frameOf p).call = .exec two (some d) := by rw [hfr]
  have hne : ∀ {q x}, (s.frameOf q).call.creates = some x → q ≠ p ∧ x ≠ p := by
    intro q x hc
    refine ⟨?_, ?_⟩
    · rintro rfl; rw [hcall] at hc; cases hc
    · rintro rfl
      have hx := h.sane.creating q _ hc
      rw [hrun] at hx
      cases hx
  -- the LWPs that are live have another main thread
  have hother : ∀ q m, q ≠ p → (s.proc q).Live → (s.proc m).pid = (s.proc q).pid → m ≠ p := by
    rintro q m hq hl hpid rfl
    exact hlast.2 q hq hl hpid.symm
  refine ⟨hsane, ?_, ?_, ?_, ?_, ?_⟩
  · rw [hnext, hfreed]
    -- first the old one is given back, then the new one moves
    have hfree : Owned (Function.update s.holds (p, .own) none) s.nextDir
        (Function.update s.freed old (s.freed old + 1)) :=
      h.owned.free (h := (p, .own)) ((holds_own hmain).trans hold) (Function.update_self ..)
        fun x hx => Function.update_of_ne hx ..
    refine hfree.move (h := (p, .new)) (g := (p, .own)) (by simp) (Function.update_self ..)
      (holds_new_none hidle.1) ?_ ?_
    · rw [holds_own hmain', hself, Function.update_of_ne (by simp), holds_new_call hcall]
      rfl
    · rintro ⟨q, k⟩ hnew hown
      rw [Function.update_of_ne hown]
      cases k with
      | own => exact holds_own_eq (.inl (hkeep q fun e => hown (by rw [e])))
      | child =>
        by_cases hq : q = p
        · rw [hq, holds_child_none hidle.1]
          simp only [State.holds, hcall, Call.child, Option.bind_none]
        · exact holds_child_eq (hturn q hq) fun x hx => by rw [hothers x (hne hx).2]
      | new => exact holds_new_eq (hturn q fun e => hnew (by rw [e]))
  · by_cases hq : initproc = p
    · refine ⟨hq ▸ hmain', ?_⟩
      have hpar := h.grouped.init.2
      rw [hq] at hpar ⊢
      rw [hself, hpar]
    · rw [hothers _ hq]
      exact h.grouped.init
  · intro q hq
    by_cases hqp : q = p
    · rw [hqp, hself]
      exact ⟨by simp, (h.grouped.main p hmain).2⟩
    · rw [hothers q hqp] at hq ⊢
      exact h.grouped.main q hq
  · intro q hq hth
    have hqp : q ≠ p := by
      rintro rfl
      rw [hself] at hth
      exact absurd (hlast.1.symm.trans hth) (by simp)
    have hq₀ := hq
    rw [hothers q hqp] at hq₀ hth
    exact (h.grouped.lwp q hq₀ hth).keeps (hkeep q hqp) fun m _ hpid =>
      hkeep m (hother q m hqp hq₀ hpid)
  · intro q
    by_cases hqp : q = p
    · rw [hqp]; exact .plain hidle
    · refine (h.grouped.fills q).turns (hturn q hqp) fun x hx _ => ?_
      have hl := h.sane.creator_live hx
      exact ⟨hkeep q hqp, hkeep x (hne hx).2, fun hpid hm => hm.keeps (hkeep x (hne hx).2) fun m _ hm =>
        hkeep m (hother q m hqp hl (hm.trans hpid))⟩

/-- Only the call of `p` changes, which fills nothing in after that. -/
theorem Grouped.call (h : Grouped s) (hproc : s'.proc = s.proc) (hturn : ∀ q, q ≠ p → Turns s s' q)
    (hp : (s'.frameOf p).call.creates = none) : Grouped s' where
  init := by rw [hproc]; exact h.init
  main := by rw [hproc]; exact h.main
  lwp := by rw [hproc]; exact h.lwp
  fills q := by
    by_cases hq : q = p
    · rw [hq]
      refine ⟨fun np hc => ?_, fun np hc => ?_, fun np hc => ?_⟩ <;> (rw [hc] at hp; cases hp)
    · refine (h.fills q).turns (hturn q hq) fun np _ _ => ?_
      rw [hproc]
      exact ⟨.refl _, .refl _, fun _ hm => hm⟩

theorem turns_other {f g : Frame} (hs : Sane s) (hcur : s.current c = some (p, f)) (hproc : s'.proc = s.proc)
    (hframe : s'.frame = Function.update s.frame (s.cpu c).stack g) :
    s'.frameOf p = g ∧ ∀ q, q ≠ p → Turns s s' q := by
  have hk : ∀ q, (s'.proc q).kstack = (s.proc q).kstack := fun q => by rw [hproc]
  have hfr := frameOf_step hs hcur hframe fun q => .inl (hk q)
  refine ⟨by rw [hfr, if_pos rfl], fun q hq => .same ?_⟩
  rw [hfr, if_neg hq]
  split
  · rename_i hn; rw [frameOf_none ((hk q).symm.trans hn)]
  · rfl

/-- `setupkvm` in `exec`. -/
theorem Dirs.execNew (h : Dirs s) {two : Bool} {call : Call} (hcur : s.current c = some (p, ⟨.exec two none, true⟩))
    (hnew : call.newDir = some s.nextDir) (hsane : Sane s') (hproc : s'.proc = s.proc)
    (hframe : s'.frame = Function.update s.frame (s.cpu c).stack ⟨call, true⟩)
    (hnext : s'.nextDir = s.nextDir + 1) (hfreed : s'.freed = s.freed) : Dirs s' := by
  obtain ⟨hfp, hturn⟩ := turns_other h.sane hcur hproc hframe
  have hcall : (s.frameOf p).call = .exec two none := by rw [(h.sane.frame_current hcur).2.2]
  have hcall' : (s'.frameOf p).call.newDir = some s.nextDir := by rw [hfp, hnew]
  refine ⟨hsane, ?_, h.grouped.call (p := p) hproc hturn (newDir_creates hcall')⟩
  rw [hnext, hfreed]
  refine h.owned.alloc (h := (p, .new)) (holds_new_call hcall) hcall' ?_
  rintro ⟨q, k⟩ hq
  cases k with
  | own => exact holds_own_eq (.inl (by rw [hproc]; exact .refl _))
  | child =>
    by_cases hqp : q = p
    · rw [hqp, holds_child_exec hcall']
      simp only [State.holds, hcall, Call.child, Option.bind_none]
    · exact holds_child_eq (hturn q hqp) fun x _ => by rw [hproc]
  | new => exact holds_new_eq (hturn q fun e => hq (by rw [e]))

/-- `exec` fails, and frees what `setupkvm` made. -/
theorem Dirs.execFree (h : Dirs s) {two inOp : Bool}
    (hcur : s.current c = some (p, ⟨.exec two (some d), inOp⟩)) (hsane : Sane s') (hproc : s'.proc = s.proc)
    (hframe : s'.frame = Function.update s.frame (s.cpu c).stack .idle) (hnext : s'.nextDir = s.nextDir)
    (hfreed : s'.freed = Function.update s.freed d (s.freed d + 1)) : Dirs s' := by
  obtain ⟨hfp, hturn⟩ := turns_other h.sane hcur hproc hframe
  have hcall : (s.frameOf p).call = .exec two (some d) := by rw [(h.sane.frame_current hcur).2.2]
  have hidle : (s'.frameOf p).call.Dirless := by rw [hfp]; exact idle_dirless
  refine ⟨hsane, ?_, h.grouped.call (p := p) hproc hturn (by rw [hfp]; rfl)⟩
  rw [hnext, hfreed]
  refine h.owned.free (h := (p, .new)) (holds_new_call hcall) (holds_new_none hidle) ?_
  rintro ⟨q, k⟩ hq
  cases k with
  | own => exact holds_own_eq (.inl (by rw [hproc]; exact .refl _))
  | child =>
    by_cases hqp : q = p
    · rw [hqp, holds_child_none hidle]
      simp only [State.holds, hcall, Call.child, Option.bind_none]
    · exact holds_child_eq (hturn q hqp) fun x _ => by rw [hproc]
  | new => exact holds_new_eq (hturn q fun e => hq (by rw [e]))

end

/-! ## `kill_thread` -/

theorem killThread_sweep (hp : (t p).isThread = false) (h : killThread t p = .ok t') :
    t' = t.sweep (t.Child p) := by
  rw [killThread_main hp] at h
  split at h
  · cases h; rfl
  · cases h

/-- What `kill_thread` for a main thread does to the slots. -/
theorem Dirs.kill_slots (h : Dirs s) (hp : (s.proc p).isThread = false)
    (hv : ∀ q, s.proc.Victim p q → s.Still q ∧ (s.frameOf q).call.Dirless)
    (hk : killThread s.proc p = .ok t) (q : Slot) :
    t q = s.proc q ∨ q ≠ p ∧ q ≠ initproc ∧ t q = (s.proc q).recovered ∧ (s.proc q).isThread = true ∧
      s.Still q ∧ (s.frameOf q).call.Dirless := by
  rw [killThread_sweep hp hk]
  unfold Table.sweep
  split
  · rename_i hc
    right
    obtain ⟨hstill, hd⟩ := hv q (by unfold Table.Victim; rw [if_pos hp]; exact hc)
    refine ⟨?_, ?_, rfl, hc.2, hstill, hd⟩
    · rintro rfl
      exact absurd (hp.symm.trans hc.2) (by simp)
    · rintro rfl
      have hpar := h.grouped.init.2
      rw [hc.1] at hpar
      cases hpar
  · exact .inl rfl

theorem not_main_lwp {x : Proc} (h : x.isThread = true) : ¬ x.Main := by
  unfold Proc.Main
  rw [h]
  simp

theorem recovered_gone (x : Proc) : ¬ x.recovered.Main ∧ ¬ x.recovered.Live := by
  unfold Proc.Main Proc.Live
  simp [Proc.recovered]

/-- `kill_thread`, in `exec`, recovers an LWP. -/
theorem Dirs.killRecover (h : Dirs s) {z : Slot} {d : Dir} {w : Walk} {call : Call}
    (hcur : s.current c = some (p, ⟨.killThread d w, true⟩)) (hth : (s.proc z).isThread = true)
    (hstill : s.Still z) (hdirless : (s.frameOf z).call.Dirless) (hcall : call.newDir = some d) (hsane : Sane s')
    (hproc : s'.proc = s.proc.upd z Proc.recovered)
    (hframe : s'.frame = Function.update s.frame (s.cpu c).stack ⟨call, true⟩) (hnext : s'.nextDir = s.nextDir)
    (hfreed : s'.freed = s.freed) : Dirs s' := by
  have hzp : z ≠ p := by rintro rfl; exact hstill.1 (h.sane.frame_current hcur).1
  have hzi : initproc ≠ z := by rintro rfl; exact not_main_lwp hth h.grouped.init.1
  have hself : s'.proc z = (s.proc z).recovered := by rw [hproc, upd_self]
  have hother : ∀ q, q ≠ z → s'.proc q = s.proc q := fun q hq => by rw [hproc, upd_ne _ hq]
  refine h.steady hsane hnext hfreed (fun q => ?_) (turns_step h.sane hcur hframe (fun q => ?_)
    (.inr (.inl ⟨d, rfl, hcall⟩))) (by rw [hother _ hzi, h.grouped.init.2])
  · by_cases hq : q = z
    · obtain ⟨hm, hl⟩ := recovered_gone (s.proc z)
      rw [hq]
      exact .inr ⟨not_main_lwp hth, by rw [hself]; exact hm, by rw [hself]; exact hl, hstill.2⟩
    · exact .inl (by rw [hother q hq]; exact .refl _)
  · by_cases hq : q = z
    · rw [hq]
      exact .inr ⟨by rw [hself]; rfl, hzp, hdirless⟩
    · exact .inl (by rw [hother q hq])

/-- The process that `kill` found. -/
theorem Proc.kill_keeps (x : Proc) : Keeps x x.kill := by
  rcases x.kill_state with ⟨e, e'⟩ | e
  · exact .of_live rfl rfl rfl rfl (.inl e) (.inl (.inr (.inl e')))
  · exact .of_state rfl rfl rfl rfl e

/-- `kill_thread` for a main thread moves no page directory. -/
theorem Dirs.killed (h : Dirs s) (hp : (s.proc p).isThread = false)
    (hv : ∀ q, s.proc.Victim p q → s.Still q ∧ (s.frameOf q).call.Dirless)
    (hk : killThread s.proc p = .ok t) (hsane : Sane s') (hframe : s'.frame = s.frame)
    (hnext : s'.nextDir = s.nextDir) (hfreed : s'.freed = s.freed)
    (hself : s'.proc p = t p ∨ s'.proc p = (t p).kill) (hne : ∀ q, q ≠ p → s'.proc q = t q) : Dirs s' := by
  have hslot := h.kill_slots hp hv hk
  have htp : t p = s.proc p := (hslot p).resolve_right fun e => e.1 rfl
  have hkp : Keeps (s.proc p) (s'.proc p) ∧ (s'.proc p).kstack = (s.proc p).kstack ∧
      (s'.proc p).parent = (s.proc p).parent := by
    rcases hself with e | e
    · rw [e, htp]; exact ⟨.refl _, rfl, rfl⟩
    · rw [e, htp]; exact ⟨Proc.kill_keeps _, rfl, rfl⟩
  refine h.steady hsane hnext hfreed (fun q => ?_) (turns_same hframe fun q => ?_) ?_
  · by_cases hqp : q = p
    · exact .inl (hqp ▸ hkp.1)
    · rcases hslot q with e | ⟨-, -, e, hth, hstill, -⟩
      · exact .inl (by rw [hne q hqp, e]; exact .refl _)
      · obtain ⟨hm, hl⟩ := recovered_gone (s.proc q)
        refine .inr ⟨not_main_lwp hth, ?_, ?_, hstill.2⟩
        · rw [hne q hqp, e]; exact hm
        · rw [hne q hqp, e]; exact hl
  · by_cases hqp : q = p
    · exact .inl (hqp ▸ hkp.2.1)
    · rw [hne q hqp]
      rcases hslot q with e | ⟨-, -, e, -, -, hd⟩
      · exact .inl (by rw [e])
      · exact .inr ⟨by rw [e]; rfl, hd⟩
  · by_cases hip : initproc = p
    · have hpar := h.grouped.init.2
      rw [hip] at hpar ⊢
      rw [hkp.2.2, hpar]
    · rcases hslot initproc with e | ⟨-, hi, -⟩
      · rw [hne _ hip, e, h.grouped.init.2]
      · exact absurd rfl hi

end Xv6.Lwp
