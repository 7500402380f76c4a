import Xv6.Lwp.Dirs
import Xv6.Lwp.Frames

/-!
# Parents

`fork` makes the caller the parent, `thread_create` the main thread of the caller, and `exit` gives its
children to init. Nothing else writes a parent; so a slot that is freed while it is still a parent leaves a
link behind, to whoever gets the slot next. A kernel stack, which is never used twice, names the process that
has it.

* `FamilyStep.keep`: a step that writes no parent.
* `FamilyStep.exit`, `FamilyStep.place`: the steps that do.
* `family_run`: the links of a run that frees no slot that is a parent (`KeepsParents`).
* **`parent_links`**: the parent is the process that made the slot, or init after that has exited; only these
  wait for it; and a slot that is not filled in yet has none.
* `dangling_parent`: an LWP forks, and is joined or recovered.
-/

namespace Xv6.Lwp

variable {n : ℕ} {s s' : State n} {c : Fin n} {t t' : Table} {p q z np : Slot} {e : Event n} {es : List (Event n)}

/-! ## The condition -/

/-- No slot in use has the parent `z`. -/
def Table.Childless (t : Table) (z : Slot) : Prop := ∀ q, (t q).state ≠ .unused → (t q).parent ≠ some z

instance (t : Table) (z : Slot) : Decidable (t.Childless z) := by unfold Table.Childless; infer_instance

/-- The LWP that `thread_join` on `c` recovers. -/
def State.joins (s : State n) (c : Fin n) (thread : ℕ) : Option Slot :=
  (s.cpu c).proc.bind fun p => (findJoin s.proc p thread).filter fun z => (s.proc z).parent = some p

/-- The slots that the event frees. -/
def State.Frees (s : State n) (z : Slot) : Event n → Prop
  | .wait c => s.reaps c = some z
  | .threadJoin c thread => s.joins c thread = some z
  | e => s.Recovers z e

instance (s : State n) (z : Slot) (e : Event n) : Decidable (s.Frees z e) := by
  unfold State.Frees; rcases e with ⟨⟩ <;> infer_instance

/-- `wait`, `thread_join` and `kill_thread` free no slot that is a parent. -/
def FreesChildless (s : State n) (e : Event n) : Prop := ∀ z, s.Frees z e → s.proc.Childless z

instance (s : State n) (e : Event n) : Decidable (FreesChildless s e) := by unfold FreesChildless; infer_instance

/-- Moreover `kill_thread` recovers no slot in use, and no LWP takes the place of its main thread there. -/
def KeepsParents (s : State n) (e : Event n) : Prop := Settled s e ∧ FreesChildless s e ∧ s.promotes e = none

instance (s : State n) (e : Event n) : Decidable (KeepsParents s e) := by unfold KeepsParents; infer_instance

/-! ## Who made a slot -/

/-- In use, and past its creation. -/
def Proc.Grown (x : Proc) : Prop := x.state ≠ .unused ∧ x.state ≠ .embryo

instance (x : Proc) : Decidable x.Grown := by unfold Proc.Grown; infer_instance

/-- `fork` by the process with stack `k'` makes the one with stack `k`. -/
def Forks (k k' : Stack) (s : State n) (e : Event n) : Prop :=
  ∃ c p np, e = .forkCopy c true ∧ s.current c = some (p, ⟨.fork np, false⟩) ∧ (s.proc np).kstack = some k ∧
    (s.proc p).kstack = some k'

/-- `thread_create` makes the process with stack `k` an LWP of the one with stack `k'`, the main thread of its
caller. -/
def Adopts (k k' : Stack) (s : State n) (e : Event n) : Prop :=
  ∃ c p thrd m pages copied s', e = .threadMap c pages copied ∧ s.current c = some (p, ⟨.create thrd, false⟩) ∧
    (s.proc.main p).bind s.proc.main = some m ∧ (s.proc thrd).kstack = some k ∧ (s.proc m).kstack = some k' ∧
    step s e = some (.ok s') ∧ s'.nexttid = s.nexttid + 1

def Makes (k k' : Stack) (s : State n) (e : Event n) : Prop := Forks k k' s e ∨ Adopts k k' s e

/-- Slot `q` was made by the process in slot `pr`; or `pr` is init, and the process that made it has exited. -/
def Origin (es : List (Event n)) (s : State n) (q pr : Slot) : Prop :=
  ∃ k k', (s.proc q).kstack = some k ∧ k' < s.nextStack ∧ (machine n).Happened (Makes k k') (boot n) es ∧
    ((s.proc pr).kstack = some k' ∨
      pr = initproc ∧ ∀ x, (s.proc x).kstack = some k' → (s.proc x).state = .zombie)

/-- `fork` or `thread_create` has filled in the process that has slot `q`. -/
def Filled (es : List (Event n)) (s : State n) (q : Slot) : Prop :=
  ∃ k k', (s.proc q).kstack = some k ∧ (machine n).Happened (Makes k k') (boot n) es

/-- The slot has its parent. -/
def State.Placed (s : State n) (q : Slot) : Prop := (s.proc q).Grown ∨ ∃ p, (s.frameOf p).call.fills = some q

/-- The links between the slots. -/
structure Family (es : List (Event n)) (s : State n) : Prop where
  init : (s.proc initproc).Grown ∧ (s.proc initproc).state ≠ .zombie
  root : (s.proc initproc).parent = none ∧ (s.proc initproc).isThread = false ∧ (s.proc initproc).pid = 1
  /-- a child of `fork` that is not filled in has no parent -/
  raw : ∀ p np, (s.frameOf p).call = .fork np → (s.proc np).parent = none
  /-- init does not pass the test of `kill_thread` -/
  hit : ∀ p z, (s.frameOf p).call.hit = some z → z ≠ initproc
  parent : ∀ q pr, (s.proc q).parent = some pr → (s.proc q).state ≠ .unused ∧ (s.proc pr).Grown ∧ Filled es s q
  linked : ∀ q, q ≠ initproc → s.Placed q → ∃ pr, (s.proc q).parent = some pr ∧ Origin es s q pr

theorem placed_used (hs : Sane s) (h : s.Placed q) : (s.proc q).state ≠ .unused := by
  rcases h with hg | ⟨p, hp⟩
  · exact hg.1
  · rw [hs.creating p q (Call.fills_creates hp)]
    simp

theorem unused_parent (h : Family es s) (hun : (s.proc q).state = .unused) : (s.proc q).parent = none := by
  cases hpar : (s.proc q).parent with
  | none => rfl
  | some pr => exact absurd hun (h.parent q pr hpar).1

/-! ## A step -/

/-- A step that meets the condition, after the run `es`. -/
structure FamilyStep (es : List (Event n)) (s : State n) (e : Event n) (s' : State n) : Prop where
  run : (machine n).run (boot n) es = some (.ok s)
  sane : Sane s
  family : Family es s
  keeps : KeepsParents s e
  step : step s e = some (.ok s')

theorem FamilyStep.sane' (h : FamilyStep es s e s') : Sane s' := sane_step h.sane h.keeps.1 h.step

theorem FamilyStep.raw (h : FamilyStep es s e s') (hp : (s'.frameOf p).call = .fork np) : (s.proc np).parent = none := by
  have hcr : (s'.frameOf p).call.creates = some np := by rw [hp]; rfl
  rcases (creates_step h.sane h.keeps.1 h.step hcr).2 with hsame | hnext
  · exact h.family.raw p np (hsame.symm.trans hp)
  · rcases hnext.creates hcr with ⟨hun, -⟩ | ⟨-, hcall⟩ | ⟨-, hcall, -⟩
    · exact unused_parent h.family hun
    · rw [hp] at hcall; cases hcall
    · rw [hp] at hcall; cases hcall

/-- Only an LWP passes the test of `kill_thread`. -/
theorem Next.hits {call call' : Call} (h : Next s s' p e call call') (hz : call'.hit = some z) :
    (s.proc z).isThread = true := by
  cases h with
  | sleeps e c f call hf hcall =>
    rcases hcall with hcall | hcall | ⟨thread, hcall⟩ <;> (cases hcall; cases hz)
  | hit e call call' y _ _ _ _ _ hy hth => cases hy.symm.trans hz; exact hth
  | other e call call' _ hother => rw [hother.hit] at hz; cases hz
  | _ => cases hz

theorem FamilyStep.hit (h : FamilyStep es s e s') (hz : (s'.frameOf p).call.hit = some z) : z ≠ initproc := by
  cases moves_step h.sane h.keeps.1 h.step p with
  | keeps _ hf => exact h.family.hit p z (hf ▸ hz)
  | gone hk => rw [frameOf_none hk] at hz; cases hz
  | fresh _ _ hf => rw [hf] at hz; cases hz
  | next c f g _ _ hf hnext =>
    rw [hf] at hz
    rintro rfl
    exact absurd ((hnext.hits hz).symm.trans h.family.root.2.1) (by simp)

/-! ## Steps that write no parent -/

/-- What happens to a slot whose parent is not written. -/
inductive Kin (next : Stack) (x y : Proc) : Prop
  | same (hpar : y.parent = x.parent) (hk : y.kstack = x.kstack) (hid : y.isThread = x.isThread ∧ y.pid = x.pid)
      (hun : y.state = .unused → x.state = .unused) (hg : x.Grown → y.Grown)
      (hz : x.state = .zombie → y.state = .zombie)
  | freed (hst : y.state = .unused) (hpar : y.parent = none) (hk : y.kstack = none)
  | taken (hx : x.state = .unused) (hy : y.state = .embryo) (hpar : y.parent = x.parent) (hk : y.kstack = some next)

theorem Kin.refl (next : Stack) (x : Proc) : Kin next x x := .same rfl rfl ⟨rfl, rfl⟩ id id id

/-- The fields that matter here stay. -/
structure Kept (x y : Proc) : Prop where
  parent : y.parent = x.parent
  kstack : y.kstack = x.kstack
  isThread : y.isThread = x.isThread
  pid : y.pid = x.pid
  state : y.state = x.state

theorem Kept.refl (x : Proc) : Kept x x := ⟨rfl, rfl, rfl, rfl, rfl⟩

theorem Kept.grown {x y : Proc} (h : Kept x y) : y.Grown ↔ x.Grown := by
  unfold Proc.Grown
  rw [h.state]

theorem Kept.kin {x y : Proc} (h : Kept x y) (next : Stack) : Kin next x y :=
  .same h.parent h.kstack ⟨h.isThread, h.pid⟩ (fun hy => h.state ▸ hy) h.grown.2 fun hx => h.state.trans hx

theorem kept_upd {f : Proc → Proc} (h : Kept (t p) (f (t p))) (q : Slot) : Kept (t q) ((t.upd p f) q) := by
  rw [upd_apply]
  split
  · rename_i hq; rw [hq]; exact h
  · exact .refl _

theorem Woke.grown {x y : Proc} (h : Woke x y) : y.Grown ↔ x.Grown := by
  unfold Proc.Grown
  rcases h.state with hst | ⟨hst, hst'⟩
  · rw [hst]
  · rw [hst, hst']
    simp

theorem Woke.zombie {x y : Proc} (h : Woke x y) : y.state = .zombie ↔ x.state = .zombie := by
  rcases h.state with hst | ⟨hst, hst'⟩
  · rw [hst]
  · rw [hst, hst']
    simp

theorem Woke.kin {x y : Proc} (h : Woke x y) (hpar : y.parent = x.parent) (next : Stack) : Kin next x y := by
  refine .same hpar h.kstack ⟨h.isThread, h.pid⟩ (fun hy => ?_) h.grown.2 h.zombie.2
  by_contra hx
  rcases h.state with hst | ⟨-, hst⟩
  · exact hx (hst.symm.trans hy)
  · cases hst.symm.trans hy

theorem Proc.kill_woke (x : Proc) : Woke x x.kill := by
  refine ⟨?_, rfl, rfl, rfl, rfl, rfl⟩
  rcases x.kill_state with hst | hst
  · exact .inr hst
  · exact .inl hst

theorem kin_upd {next : Stack} {f : Proc → Proc} (h : Kin next (t p) (f (t p))) (q : Slot) :
    Kin next (t q) ((t.upd p f) q) := by
  rw [upd_apply]
  split
  · rename_i hq; rw [hq]; exact h
  · exact .refl _ _

/-- Nobody comes to have filled in a slot. -/
def FillsNone (s s' : State n) : Prop :=
  ∀ p q, (s'.frameOf p).call.fills = some q → (s.frameOf p).call.fills = some q

theorem fillsNone_same (hframe : s'.frame = s.frame)
    (hk : ∀ q, (s'.proc q).kstack = (s.proc q).kstack ∨ (s'.proc q).kstack = none) : FillsNone s s' := by
  intro p q hq
  rw [calls_same (k := Call.fills) rfl hframe hk hq] at hq
  exact hq

theorem fillsNone_current {f g : Frame} (hs : Sane s) (hcur : s.current c = some (p, f))
    (hframe : s'.frame = Function.update s.frame (s.cpu c).stack g) (hg : g.call.fills = none)
    (hk : ∀ q, (s'.proc q).kstack = (s.proc q).kstack ∨ (s'.proc q).kstack = none ∧ q ≠ p) : FillsNone s s' := by
  intro x q hq
  rw [calls_step (k := Call.fills) rfl hs hcur hframe hk hg hq] at hq
  exact hq

theorem FamilyStep.keep (h : FamilyStep es s e s') (hfills : FillsNone s s')
    (hslot : ∀ q, Kin s.nextStack (s.proc q) (s'.proc q)) (hgrown : ∀ q, (s'.proc q).Grown → s.Placed q)
    (hinit : (s'.proc initproc).state ≠ .unused ∧ (s'.proc initproc).state ≠ .zombie)
    (hfreed : ∀ z, (s.proc z).Grown → (s'.proc z).state = .unused → s.proc.Childless z) : Family (es ++ [e]) s' := by
  have hf := h.family
  -- the parent of a slot in use is not freed
  have hlive : ∀ {q pr}, (s.proc q).parent = some pr →
      (s'.proc pr).kstack = (s.proc pr).kstack ∧ (s'.proc pr).Grown := by
    intro q pr hpar
    obtain ⟨hq, hpr, -⟩ := hf.parent q pr hpar
    cases hslot pr with
    | same _ hk _ _ hg _ => exact ⟨hk, hg hpr⟩
    | freed hst => exact absurd hpar (hfreed pr hpr hst q hq)
    | taken hx => exact absurd hx hpr.1
  refine ⟨⟨⟨hinit.1, ?_⟩, hinit.2⟩, ?_, fun p np hp => ?_, fun p z hz => h.hit hz, fun q pr hpar => ?_,
    fun q hqi hq => ?_⟩
  · cases hslot initproc with
    | same _ _ _ _ hg _ => exact (hg hf.init.1).2
    | freed hst => exact absurd hst hinit.1
    | taken hx => exact absurd hx hf.init.1.1
  · cases hslot initproc with
    | same hpar _ hid => exact ⟨hpar.trans hf.root.1, hid.1.trans hf.root.2.1, hid.2.trans hf.root.2.2⟩
    | freed hst => exact absurd hst hinit.1
    | taken hx => exact absurd hx hf.init.1.1
  · have hnone := h.raw hp
    cases hslot np with
    | same hpar => exact hpar.trans hnone
    | freed _ hpar => exact hpar
    | taken _ _ hpar => exact hpar.trans hnone
  · cases hslot q with
    | same hp hk _ hun =>
      have hpar' := hp.symm.trans hpar
      obtain ⟨hq, -, k, k', hks, hmade⟩ := hf.parent q pr hpar'
      exact ⟨fun hst => hq (hun hst), (hlive hpar').2, k, k', hk.trans hks, hmade.snoc e⟩
    | freed _ hp => rw [hp] at hpar; cases hpar
    | taken hx _ hp => exact absurd hx (hf.parent q pr (hp.symm.trans hpar)).1
  · have hold : s.Placed q := by
      rcases hq with hq | ⟨p, hp⟩
      · exact hgrown q hq
      · exact .inr ⟨p, hfills p q hp⟩
    obtain ⟨pr, hpar, k, k', hk, hlt, hmade, hor⟩ := hf.linked q hqi hold
    cases hslot q with
    | same hp hks =>
      refine ⟨pr, hp.trans hpar, k, k', hks.trans hk, hlt.trans_le (nextStack_le h.step), hmade.snoc e, ?_⟩
      rcases hor with hkp | ⟨hpr, hgone⟩
      · exact .inl ((hlive hpar).1.trans hkp)
      · refine .inr ⟨hpr, fun x hx => ?_⟩
        cases hslot x with
        | same _ hkx _ _ _ hz => exact hz (hgone x (hkx.symm.trans hx))
        | freed _ _ hkx => rw [hkx] at hx; cases hx
        | taken _ _ _ hkx =>
          rw [hkx] at hx
          cases hx
          exact absurd hlt (lt_irrefl _)
    | freed hst => exact absurd hst (placed_used h.sane' hq)
    | taken hx => exact absurd hx (placed_used h.sane hold)

/-- One slot changes. -/
theorem FamilyStep.put (h : FamilyStep es s e s') (f : Proc → Proc) (hproc : s'.proc = s.proc.upd p f)
    (hfills : FillsNone s s') (hkin : Kin s.nextStack (s.proc p) (f (s.proc p)))
    (hgrown : (f (s.proc p)).Grown → s.Placed p)
    (hinit : p = initproc → (f (s.proc p)).state ≠ .unused ∧ (f (s.proc p)).state ≠ .zombie)
    (hfreed : (s.proc p).Grown → (f (s.proc p)).state = .unused → s.proc.Childless p) : Family (es ++ [e]) s' := by
  refine h.keep hfills (fun q => by rw [hproc]; exact kin_upd hkin q) (fun q hq => ?_) ?_ fun z hz hun => ?_
  · rw [hproc, upd_apply] at hq
    split at hq
    · rename_i hqp
      rw [hqp] at hq ⊢
      exact hgrown hq
    · exact .inl hq
  · rw [hproc, upd_apply]
    split
    · rename_i hi
      rw [hi]
      exact hinit hi.symm
    · exact ⟨h.family.init.1.1, h.family.init.2⟩
  · rw [hproc, upd_apply] at hun
    split at hun
    · rename_i hz'
      rw [hz'] at hz hun ⊢
      exact hfreed hz hun
    · exact absurd hun hz.1

/-- The fields that matter stay. -/
theorem FamilyStep.fields (h : FamilyStep es s e s') (hfills : FillsNone s s')
    (hf : ∀ q, Kept (s.proc q) (s'.proc q)) : Family (es ++ [e]) s' := by
  refine h.keep hfills (fun q => (hf q).kin _) (fun q hq => .inl ((hf q).grown.1 hq)) ?_
    fun z hz hun => absurd ((hf z).state.symm.trans hun) hz.1
  rw [(hf initproc).state]
  exact ⟨h.family.init.1.1, h.family.init.2⟩

/-- The process on a CPU goes on, and the fields that matter stay. -/
theorem FamilyStep.goes (h : FamilyStep es s e s') {f g : Frame} (hcur : s.current c = some (p, f))
    (hframe : s'.frame = Function.update s.frame (s.cpu c).stack g) (hg : g.call.fills = none)
    (hf : ∀ q, Kept (s.proc q) (s'.proc q)) : Family (es ++ [e]) s' :=
  h.fields (fillsNone_current h.sane hcur hframe hg fun q => .inl (hf q).kstack) hf

/-- A process that is not at its end gets another state. -/
theorem FamilyStep.turns (h : FamilyStep es s e s') (f : Proc → Proc) (hproc : s'.proc = s.proc.upd p f)
    (hfills : FillsNone s s') (hx : (s.proc p).Grown ∧ (s.proc p).state ≠ .zombie)
    (hpar : (f (s.proc p)).parent = (s.proc p).parent) (hk : (f (s.proc p)).kstack = (s.proc p).kstack)
    (hid : (f (s.proc p)).isThread = (s.proc p).isThread ∧ (f (s.proc p)).pid = (s.proc p).pid)
    (hy : (f (s.proc p)).Grown ∧ (f (s.proc p)).state ≠ .zombie) : Family (es ++ [e]) s' := by
  refine h.put f hproc hfills ?_ (fun _ => .inl hx.1) (fun _ => ⟨hy.1.1, hy.2⟩) fun _ hun => absurd hun hy.1.1
  exact .same hpar hk hid (fun hun => absurd hun hy.1.1) (fun _ => hy.1) fun hz => absurd hz hx.2

/-- A slot is freed. -/
theorem FamilyStep.frees (h : FamilyStep es s e s') (r : Proc → Proc) (hproc : s'.proc = s.proc.upd z r)
    (hfills : FillsNone s s') (hst : (r (s.proc z)).state = .unused) (hpar : (r (s.proc z)).parent = none)
    (hk : (r (s.proc z)).kstack = none) (hz : z ≠ initproc) (hch : (s.proc z).Grown → s.proc.Childless z) :
    Family (es ++ [e]) s' :=
  h.put r hproc hfills (.freed hst hpar hk) (fun hx => absurd hst hx.1) (fun hi => absurd hi hz) fun hx _ => hch hx

theorem Family.not_init (h : Family es s) (hx : ¬ (s.proc q).Grown) : q ≠ initproc := by
  rintro rfl
  exact hx h.init.1

/-- An unused slot gets a number. -/
theorem FamilyStep.number (h : FamilyStep es s e s') (r : Proc → Proc) (hun : (s.proc z).state = .unused)
    (hproc : s'.proc = s.proc.upd z r) (hframe : s'.frame = s.frame)
    (hst : (r (s.proc z)).state = (s.proc z).state) (hpar : (r (s.proc z)).parent = (s.proc z).parent)
    (hk : (r (s.proc z)).kstack = none) : Family (es ++ [e]) s' := by
  have hnot : ¬ (s.proc z).Grown := fun hx => hx.1 hun
  refine h.frees r hproc (fillsNone_same hframe fun q => ?_) (hst.trans hun)
    (hpar.trans (unused_parent h.family hun)) hk (h.family.not_init hnot) fun hx => absurd hx hnot
  rw [hproc]
  exact (freed_held hk q).imp Held.kstack And.left

/-- The process on a CPU frees a slot that does not run. -/
theorem FamilyStep.releases (h : FamilyStep es s e s') {f g : Frame} (r : Proc → Proc)
    (hcur : s.current c = some (p, f)) (hproc : s'.proc = s.proc.upd z r)
    (hframe : s'.frame = Function.update s.frame (s.cpu c).stack g) (hg : g.call.fills = none)
    (hr : ∀ x, (r x).state = .unused ∧ (r x).parent = none ∧ (r x).kstack = none)
    (hrun : (s.proc z).state ≠ .running) (hz : z ≠ initproc) (hch : s.proc.Childless z) : Family (es ++ [e]) s' := by
  refine h.frees r hproc (fillsNone_current h.sane hcur hframe hg fun q => ?_) (hr _).1 (hr _).2.1 (hr _).2.2 hz
    fun _ => hch
  rw [hproc]
  refine (freed_held (hr _).2.2 q).imp Held.kstack fun hq => ⟨hq.1, ?_⟩
  rintro rfl
  exact hrun (hq.2 ▸ (h.sane.frame_current hcur).1)

/-- A slot in creation is ready. -/
theorem FamilyStep.ready (h : FamilyStep es s e s') {f : Frame} (hcur : s.current c = some (p, f))
    (hf : f.call.fills = some np) (hproc : s'.proc = s.proc.upd np fun x => { x with state := .runnable })
    (hframe : s'.frame = Function.update s.frame (s.cpu c).stack .idle) : Family (es ++ [e]) s' := by
  have hfp : (s.frameOf p).call.fills = some np := by rw [(h.sane.frame_current hcur).2.2, hf]
  have hst := h.sane.creating p np (Call.fills_creates hfp)
  refine h.put _ hproc (fillsNone_current h.sane hcur hframe rfl fun q => .inl ?_) ?_ (fun _ => .inr ⟨p, hfp⟩)
    (fun _ => by simp) fun hx => absurd hst hx.2
  · rw [hproc]
    exact upd_field Proc.kstack _ _ q _ rfl
  · exact .same rfl rfl ⟨rfl, rfl⟩ (fun hun => by cases hun) (fun _ => by simp [Proc.Grown])
      fun hz => by cases hst.symm.trans hz

/-- A slot is taken. -/
theorem FamilyStep.spawn (h : FamilyStep es s e s') {g : Frame} (f : Proc → Proc)
    (hcur : s.current c = some (p, .idle)) (hun : (s.proc np).state = .unused) (hproc : s'.proc = s.proc.upd np f)
    (hframe : s'.frame = Function.update (Function.update s.frame s.nextStack .idle) (s.cpu c).stack g)
    (hst : (f (s.proc np)).state = .embryo) (hpar : (f (s.proc np)).parent = (s.proc np).parent)
    (hk : (f (s.proc np)).kstack = some s.nextStack) (hg : g.call.fills = none) : Family (es ++ [e]) s' := by
  have hfr : ∀ y, s'.frameOf y = if y = p then g else s.frameOf y :=
    frameOf_spawn h.sane hcur hun (by rw [hproc, upd_self, hk]) (fun q hq => by rw [hproc, upd_ne _ hq]) hframe
  refine h.put f hproc (fun x q hq => ?_) (.taken hun hst hpar hk) (fun hx => absurd hst hx.2)
    (fun hi => absurd hi (h.family.not_init fun hx => hx.1 hun)) fun hx => absurd hun hx.1
  rw [hfr] at hq
  split at hq
  · rw [hg] at hq; cases hq
  · exact hq

/-- `thread_exit`. -/
theorem FamilyStep.threadExit {retval : BitVec 32} (h : FamilyStep es s e s') (hcur : s.current c = some (p, .idle))
    (ht : threadExit s.proc p retval = .ok t) (hproc : s'.proc = t) (hframe : s'.frame = s.frame) :
    Family (es ++ [e]) s' := by
  obtain ⟨hother, x, hx, hz⟩ := threadExit_ok ht
  have hpi : p ≠ initproc := by
    rintro rfl
    unfold Xv6.Lwp.threadExit at ht
    rw [if_pos h.family.root.2.2] at ht
    cases ht
  have hrun := (h.sane.frame_current hcur).1
  have hpz : (t p).state = .zombie := congrArg Proc.state hz
  have hpg : (s.proc p).Grown ∧ (t p).Grown := by simp [Proc.Grown, hrun, hpz]
  have hpar : ∀ q, (t q).parent = (s.proc q).parent := threadExit_parent ht
  have hks : ∀ q, (t q).kstack = (s.proc q).kstack := threadExit_field Proc.kstack (fun _ _ _ _ => rfl) ht
  have hgrown : ∀ q, (t q).Grown ↔ (s.proc q).Grown := by
    intro q
    by_cases hq : q = p
    · rw [hq]
      exact ⟨fun _ => hpg.1, fun _ => hpg.2⟩
    · exact (hother q hq).grown
  refine h.keep (fillsNone_same hframe fun q => .inl (by rw [hproc]; exact hks q)) (fun q => ?_) (fun q hq => ?_) ?_
    fun z hz hun => ?_
  · rw [hproc]
    by_cases hq : q = p
    · rw [hq]
      exact .same (hpar p) (hks p)
        ⟨(congrArg Proc.isThread hz).trans hx.isThread, (congrArg Proc.pid hz).trans hx.pid⟩
        (fun hun => absurd hun hpg.2.1) (fun _ => hpg.2) fun _ => hpz
    · exact (hother q hq).kin (hpar q) _
  · rw [hproc] at hq
    exact .inl ((hgrown q).1 hq)
  · rw [hproc]
    exact ⟨((hgrown initproc).2 h.family.init.1).1, fun hz => h.family.init.2 ((hother initproc hpi.symm).zombie.1 hz)⟩
  · rw [hproc] at hun
    exact absurd hun ((hgrown z).2 hz).1

/-- `kill`. -/
theorem FamilyStep.kill {pid : ℕ} (h : FamilyStep es s (.kill c pid) s') (hfind : findPid s.proc pid = some p)
    (ht : killThread s.proc p = .ok t) (hproc : s'.proc = t.upd p Proc.kill) (hframe : s'.frame = s.frame) :
    Family (es ++ [.kill c pid]) s' := by
  have hp := promotes_kill h.keeps.2.2 hfind
  -- an LWP of the process is recovered, and the others are not
  have hslot : ∀ q, s.proc.Child p q ∧ s'.proc q = (s.proc q).recovered ∨ Woke (s.proc q) (s'.proc q) ∧
      (s'.proc q).parent = (s.proc q).parent := by
    intro q
    have htq : t q = if s.proc.Child p q then (s.proc q).recovered else s.proc q := by
      rw [killThread_sweep hp ht]
      rfl
    have hkill : Woke (t q) (s'.proc q) ∧ (s'.proc q).parent = (t q).parent := by
      rw [hproc, upd_apply]
      split
      · rename_i hq; rw [hq]; exact ⟨(t p).kill_woke, rfl⟩
      · exact ⟨.refl _, rfl⟩
    split at htq
    · rename_i hc
      have hqp : q ≠ p := by
        rintro rfl
        exact absurd (hp.symm.trans hc.2) (by simp)
      refine .inl ⟨hc, ?_⟩
      rw [hproc, upd_ne _ hqp, htq]
    · rw [htq] at hkill
      exact .inr hkill
  have hkin : ∀ q, Kin s.nextStack (s.proc q) (s'.proc q) := by
    intro q
    rcases hslot q with ⟨-, hq⟩ | ⟨hw, hpar⟩
    · rw [hq]
      exact .freed rfl rfl rfl
    · exact hw.kin hpar _
  refine h.keep (fillsNone_same hframe fun q => ?_) hkin (fun q hq => ?_) ?_ fun z hz hun => ?_
  · rcases hslot q with ⟨-, hq⟩ | ⟨hw, -⟩
    · exact .inr (by rw [hq]; rfl)
    · exact .inl hw.kstack
  · rcases hslot q with ⟨-, hq'⟩ | ⟨hw, -⟩
    · rw [hq'] at hq
      exact absurd rfl hq.1
    · exact .inl (hw.grown.1 hq)
  · rcases hslot initproc with ⟨hc, -⟩ | ⟨hw, -⟩
    · exact absurd (h.family.root.1.symm.trans hc.1) (by simp)
    · exact ⟨(hw.grown.2 h.family.init.1).1, fun hz => h.family.init.2 (hw.zombie.1 hz)⟩
  · rcases hslot z with ⟨hc, -⟩ | ⟨hw, -⟩
    · refine h.keeps.2.1 z ⟨p, hfind, ?_⟩
      unfold Table.Victim
      rw [if_pos hp]
      exact hc
    · exact absurd hun (hw.grown.2 hz).1

/-! ## Steps that write one -/

/-- `exit`. -/
theorem FamilyStep.exit (h : FamilyStep es s e s') (hcur : s.current c = some (p, .idle))
    (ht : exit s.proc p = .ok t) (hproc : s'.proc = t) (hframe : s'.frame = s.frame)
    (hnext : s'.nextStack = s.nextStack) : Family (es ++ [e]) s' := by
  have hs := h.sane
  have hf := h.family
  have hpi : p ≠ initproc := by
    rintro rfl
    unfold Xv6.Lwp.exit at ht
    rw [if_pos rfl] at ht
    cases ht
  have hrun := (hs.frame_current hcur).1
  obtain ⟨hother, x, hx, hz⟩ := exit_ok ht
  have hzp : (t p).state = .zombie := congrArg Proc.state hz
  have hks : ∀ q, (t q).kstack = (s.proc q).kstack := exit_field Proc.kstack (fun _ _ _ => rfl) ht
  have hpar := exit_orphans ht
  have hg : ∀ q, (t q).Grown ↔ (s.proc q).Grown := by
    intro q
    by_cases hq : q = p
    · rw [hq]
      unfold Proc.Grown
      rw [hzp, hrun]
      simp
    · exact (hother q hq).grown
  have hzom : ∀ q, (s.proc q).state = .zombie → (t q).state = .zombie := by
    intro q hq
    by_cases hqp : q = p
    · rw [hqp, hzp]
    · exact (hother q hqp).zombie.2 hq
  have hfr : ∀ q, s'.frameOf q = s.frameOf q := by
    intro q
    unfold State.frameOf
    rw [hproc, hks q, hframe]
  have hinit : Woke (s.proc initproc) (t initproc) := hother initproc hpi.symm
  refine ⟨?_, ?_, fun q np hq => ?_, fun q z hz => h.hit hz, fun q pr hq => ?_, fun q hqi hq => ?_⟩
  · rw [hproc]
    exact ⟨(hg initproc).2 hf.init.1, fun hz => hf.init.2 (hinit.zombie.1 hz)⟩
  · rw [hproc, hpar, hf.root.1]
    exact ⟨rfl, hinit.isThread.trans hf.root.2.1, hinit.pid.trans hf.root.2.2⟩
  · rw [hfr] at hq
    rw [hproc, hpar, hf.raw q np hq]
    rfl
  · rw [hproc] at hq ⊢
    rw [hpar] at hq
    have hused : ∀ {pr}, (s.proc q).parent = some pr → (t q).state ≠ .unused ∧ Filled (es ++ [e]) s' q := by
      intro pr hq
      obtain ⟨hun, -, k, k', hk, hmade⟩ := hf.parent q pr hq
      refine ⟨?_, k, k', by rw [hproc, hks q, hk], hmade.snoc e⟩
      by_cases hqp : q = p
      · rw [hqp, hzp]
        simp
      · rcases (hother q hqp).state with hst | ⟨-, hst⟩
        · rw [hst]
          exact hun
        · rw [hst]
          simp
    split at hq
    · rename_i hqp
      cases hq
      exact ⟨(hused hqp).1, (hg initproc).2 hf.init.1, (hused hqp).2⟩
    · exact ⟨(hused hq).1, (hg pr).2 (hf.parent q pr hq).2.1, (hused hq).2⟩
  · have hold : s.Placed q := by
      rcases hq with hq | ⟨y, hy⟩
      · rw [hproc] at hq
        exact .inl ((hg q).1 hq)
      · rw [hfr] at hy
        exact .inr ⟨y, hy⟩
    obtain ⟨pr, hpr, k, k', hk, hlt, hmade, hor⟩ := hf.linked q hqi hold
    rw [hproc, hpar, hpr]
    have hk' : (s'.proc q).kstack = some k := by
      rw [hproc, hks q, hk]
    by_cases hprp : pr = p
    · -- its parent exits
      rw [hprp, if_pos rfl]
      refine ⟨initproc, rfl, k, k', hk', hnext ▸ hlt, hmade.snoc e, .inr ⟨rfl, fun y hy => ?_⟩⟩
      rw [hproc] at hy ⊢
      rw [hks y] at hy
      rcases hor with hkp | ⟨hi, -⟩
      · rw [hs.stackInj y p k' hy (hprp ▸ hkp)]
        exact hzp
      · exact absurd (hprp.symm.trans hi) hpi
    · rw [if_neg fun he => hprp (Option.some.inj he)]
      refine ⟨pr, rfl, k, k', hk', hnext ▸ hlt, hmade.snoc e, ?_⟩
      rw [hproc]
      rcases hor with hkp | ⟨hi, hgone⟩
      · exact .inl ((hks pr).trans hkp)
      · refine .inr ⟨hi, fun y hy => hzom y (hgone y ?_)⟩
        rw [← hks y, hy]

/-- A slot in creation gets its parent. -/
theorem FamilyStep.place (h : FamilyStep es s e s') {m : Slot} {f g : Frame} {k k' : Stack}
    (hcur : s.current c = some (p, f)) (hf : f.call.creates = some np)
    (hm : (s.proc m).Grown) (hpar : (s'.proc np).parent = some m) (hst : (s'.proc np).state = .embryo)
    (hks : ∀ q, (s'.proc q).kstack = (s.proc q).kstack)
    (hother : ∀ q, q ≠ np → (s'.proc q).parent = (s.proc q).parent ∧ (s'.proc q).state = (s.proc q).state ∧
      (s'.proc q).isThread = (s.proc q).isThread ∧ (s'.proc q).pid = (s.proc q).pid)
    (hframe : s'.frame = Function.update s.frame (s.cpu c).stack g) (hg : g.call.fills = some np)
    (hnext : s'.nextStack = s.nextStack) (hk : (s.proc np).kstack = some k) (hk' : (s.proc m).kstack = some k')
    (he : Makes k k' s e) : Family (es ++ [e]) s' := by
  have hs := h.sane
  have hf' := h.family
  obtain ⟨hrun, -, hfp⟩ := hs.frame_current hcur
  have hcr : (s.frameOf p).call.creates = some np := by rw [hfp, hf]
  have hemb := hs.creating p np hcr
  have hgrown : ∀ {x}, (s.proc x).Grown → x ≠ np := by
    rintro x hx rfl
    exact hx.2 hemb
  have hgrown' : ∀ {x}, x ≠ np → ((s'.proc x).Grown ↔ (s.proc x).Grown) := by
    intro x hx
    unfold Proc.Grown
    rw [(hother x hx).2.1]
  have hfr : ∀ q, s'.frameOf q = if q = p then g else s.frameOf q := by
    intro q
    rw [frameOf_step hs hcur hframe fun y => .inl (hks y)]
    split
    · rfl
    · split
      · rename_i hnone
        exact (frameOf_none ((hks q).symm.trans hnone)).symm
      · rfl
  have hii := hgrown hf'.init.1
  refine ⟨?_, ?_, fun x y hx => ?_, fun x z hz => h.hit hz, fun q pr hq => ?_, fun q hqi hq => ?_⟩
  · refine ⟨(hgrown' hii).2 hf'.init.1, ?_⟩
    rw [(hother _ hii).2.1]
    exact hf'.init.2
  · rw [(hother _ hii).1, (hother _ hii).2.2.1, (hother _ hii).2.2.2]
    exact hf'.root
  · rw [hfr] at hx
    split at hx
    · rw [hx] at hg
      cases hg
    · rename_i hxp
      have hy : y ≠ np := by
        rintro rfl
        exact hxp (hs.creator x p y (by rw [hx]; rfl) hcr)
      rw [(hother y hy).1]
      exact hf'.raw x y hx
  · by_cases hqn : q = np
    · rw [hqn, hpar] at hq
      cases hq
      rw [hqn, hst]
      exact ⟨by simp, (hgrown' (hgrown hm)).2 hm, k, k', by rw [hks, hk], Machine.happened_last h.run he⟩
    · rw [(hother q hqn).1] at hq
      rw [(hother q hqn).2.1]
      obtain ⟨hun, hpr, k₁, k₂, h1, hmade⟩ := hf'.parent q pr hq
      exact ⟨hun, (hgrown' (hgrown hpr)).2 hpr, k₁, k₂, (hks q).trans h1, hmade.snoc e⟩
  · by_cases hqn : q = np
    · refine ⟨m, hqn ▸ hpar, k, k', ?_, hnext ▸ hs.stackLt m k' hk', Machine.happened_last h.run he, .inl ?_⟩
      · rw [hks, hqn, hk]
      · rw [hks, hk']
    · have hold : s.Placed q := by
        rcases hq with hq | ⟨x, hx⟩
        · exact .inl ((hgrown' hqn).1 hq)
        · rw [hfr] at hx
          split at hx
          · -- `p` fills in another slot
            exact absurd (Option.some.inj (hx.symm.trans hg)) hqn
          · exact .inr ⟨x, hx⟩
      obtain ⟨pr, hpr, k₁, k₂, h1, h2, h3, hor⟩ := hf'.linked q hqi hold
      refine ⟨pr, (hother q hqn).1.trans hpr, k₁, k₂, (hks q).trans h1, hnext ▸ h2, h3.snoc e, ?_⟩
      rcases hor with hkp | ⟨hi, hgone⟩
      · exact .inl ((hks pr).trans hkp)
      · refine .inr ⟨hi, fun x hx => ?_⟩
        have hz := hgone x ((hks x).symm.trans hx)
        have hxn : x ≠ np := by
          rintro rfl
          exact absurd (hemb.symm.trans hz) (by simp)
        rw [(hother x hxn).2.1, hz]

theorem resize_field {α : Type*} (g : Proc → α) (hg : ∀ (x : Proc) d sz, g { x with pgdir := d, sz := sz } = g x)
    (m : Slot) (sz : BitVec 32) (q : Slot) : g ((t.resize m sz) q) = g (t q) :=
  upd_field g t m q (fun x => { x with sz := sz }) (hg (t m) (t m).pgdir sz)

theorem share_field {α : Type*} (g : Proc → α) (hg : ∀ (x : Proc) d sz, g { x with pgdir := d, sz := sz } = g x)
    (m thrd : Slot) (sz : BitVec 32) (q : Slot) : g (((t.resize m sz).share m thrd sz) q) = g (t q) :=
  (upd_field g _ thrd q (fun x => { x with pgdir := (t.resize m sz m).pgdir, sz := sz }) (hg _ _ sz)).trans
    (resize_field g hg m sz q)

theorem adopt_field {α : Type*} (g : Proc → α)
    (hg : ∀ (x : Proc) pr th tid, g { x with parent := pr, isThread := th, tid := tid } = g x) (t : Table)
    (m thrd : Slot) (tid : ℕ) (q : Slot) : g ((t.adopt m thrd tid) q) = g (t q) :=
  upd_field g t thrd q _ (hg _ _ _ _)

theorem FamilyStep.embryo (h : FamilyStep es s e s') {f : Frame} (hcur : s.current c = some (p, f))
    (hf : f.call.creates = some np) : (s.proc np).state = .embryo ∧ ∃ k, (s.proc np).kstack = some k := by
  have hst := h.sane.creating p np (by rw [(h.sane.frame_current hcur).2.2, hf])
  refine ⟨hst, Option.ne_none_iff_exists'.1 fun hk => ?_⟩
  cases hst.symm.trans ((h.sane.used np).2 hk)

theorem FamilyStep.caller (h : FamilyStep es s e s') (hp : (s.cpu c).proc = some p) :
    (s.proc p).Grown ∧ (s.proc p).state ≠ .zombie := by
  unfold Proc.Grown
  rw [(h.sane.onCpu c p hp).1]
  simp

/-- `copyuvm`, and the fields of the child. -/
theorem FamilyStep.forkCopy (h : FamilyStep es s (.forkCopy c true) s')
    (hcur : s.current c = some (p, ⟨.fork np, false⟩))
    (hproc : s'.proc = s.proc.upd np fun x => { x with
      pgdir := some s.nextDir, sz := (s.proc p).sz, parent := some p, isThread := false, tid := 0, retval := 0 })
    (hframe : s'.frame = Function.update s.frame (s.cpu c).stack ⟨.forked np, false⟩)
    (hnext : s'.nextStack = s.nextStack) : Family (es ++ [.forkCopy c true]) s' := by
  obtain ⟨hst, k, hk⟩ := h.embryo hcur rfl
  have hkp := (h.sane.frame_current hcur).2.1
  refine h.place (m := p) (f := ⟨.fork np, false⟩) hcur rfl (h.caller (current_some hcur).1).1 ?_ ?_ (fun q => ?_)
    (fun q hq => ?_) hframe rfl hnext hk hkp (.inl ⟨c, p, np, rfl, hcur, hk, hkp⟩)
  · rw [hproc, upd_self]
  · rw [hproc, upd_self]
    exact hst
  · rw [hproc]
    exact upd_field Proc.kstack _ np q _ rfl
  · rw [hproc, upd_ne _ hq]
    exact ⟨rfl, rfl, rfl, rfl⟩

/-- The parent of a new LWP is the main thread of the main thread of the caller, and that is in use. -/
theorem FamilyStep.adopter (h : FamilyStep es s e s') {m : Slot} (hp : (s.cpu c).proc = some p)
    (hm : s.proc.main p = some m) : ∃ m' k', s.proc.main m = some m' ∧ (s.proc m').Grown ∧
      (s.proc m').kstack = some k' := by
  have hf := h.family
  have hmg : (s.proc m).Grown := by
    unfold Table.main at hm
    split at hm
    · exact (hf.parent p m hm).2.1
    · cases hm
      exact (h.caller hp).1
  obtain ⟨m', hm', hmg'⟩ : ∃ m', s.proc.main m = some m' ∧ (s.proc m').Grown := by
    unfold Table.main
    split
    · rename_i hth
      have hmi : m ≠ initproc := by
        rintro rfl
        exact absurd (hf.root.2.1.symm.trans hth) (by simp)
      obtain ⟨m', hpar, -⟩ := hf.linked m hmi (.inl hmg)
      exact ⟨m', hpar, (hf.parent m m' hpar).2.1⟩
    · exact ⟨m, rfl, hmg⟩
  obtain ⟨k', hk'⟩ := Option.ne_none_iff_exists'.1 fun hk => hmg'.1 ((h.sane.used m').2 hk)
  exact ⟨m', k', hm', hmg', hk'⟩

/-- `thread_create` fills in the LWP. -/
theorem FamilyStep.threadMap {m thrd : Slot} {sz : BitVec 32} {pages copied : Bool}
    (h : FamilyStep es s (.threadMap c pages copied) s') (hcur : s.current c = some (p, ⟨.create thrd, false⟩))
    (hm : s.proc.main p = some m)
    (hproc : s'.proc = ((s.proc.resize m sz).share m thrd sz).adopt m thrd s.nexttid)
    (hframe : s'.frame = Function.update s.frame (s.cpu c).stack ⟨.created thrd, false⟩)
    (hnext : s'.nextStack = s.nextStack) (htid : s'.nexttid = s.nexttid + 1) :
    Family (es ++ [.threadMap c pages copied]) s' := by
  obtain ⟨hst, k, hk⟩ := h.embryo hcur rfl
  obtain ⟨m', k', hm', hmg', hk'⟩ := h.adopter (current_some hcur).1 hm
  have hshare : ∀ {α : Type} (g : Proc → α), (∀ (x : Proc) d sz, g { x with pgdir := d, sz := sz } = g x) →
      ∀ q, g (((s.proc.resize m sz).share m thrd sz) q) = g (s.proc q) := fun g hg => share_field g hg m thrd sz
  have hself : s'.proc thrd = _ := (congrFun hproc thrd).trans (upd_self ..)
  refine h.place (m := m') (f := ⟨.create thrd, false⟩) hcur rfl hmg' ?_ ?_ (fun q => ?_) (fun q hq => ?_) hframe rfl
    hnext hk hk' (.inr ⟨c, p, thrd, m', pages, copied, s', rfl, hcur, ?_, hk, hk', h.step, htid⟩)
  · rw [hself]
    show (if (((s.proc.resize m sz).share m thrd sz) m).isThread
      then (((s.proc.resize m sz).share m thrd sz) m).parent else some m) = some m'
    rw [hshare Proc.isThread (fun _ _ _ => rfl), hshare Proc.parent (fun _ _ _ => rfl)]
    exact hm'
  · rw [hself]
    exact (hshare Proc.state (fun _ _ _ => rfl) thrd).trans hst
  · rw [hproc]
    exact (adopt_field Proc.kstack (fun _ _ _ _ => rfl) ..).trans (hshare Proc.kstack (fun _ _ _ => rfl) q)
  · have hne : s'.proc q = ((s.proc.resize m sz).share m thrd sz) q := (congrFun hproc q).trans (upd_ne _ hq _)
    rw [hne]
    exact ⟨hshare Proc.parent (fun _ _ _ => rfl) q, hshare Proc.state (fun _ _ _ => rfl) q,
      hshare Proc.isThread (fun _ _ _ => rfl) q, hshare Proc.pid (fun _ _ _ => rfl) q⟩
  · rw [hm, Option.bind_some]
    exact hm'

/-! ## Every step -/

/-- `exec` does not recover init. -/
theorem FamilyStep.victim_not_init (h : FamilyStep es s e s') {f : Frame} (hcur : s.current c = some (p, f))
    (hz : s.victim c = some z) (hch : s.proc.Childless z) : z ≠ initproc := by
  obtain ⟨hrun, -, hfp⟩ := h.sane.frame_current hcur
  unfold State.victim at hz
  rw [hcur] at hz
  split at hz
  · rename_i heq
    cases heq
    cases hz
    exact h.family.hit p z (by rw [hfp]; rfl)
  · -- the slot is the parent of the caller
    rename_i heq
    cases heq
    exact absurd hz (hch p (by rw [hrun]; simp))
  · cases hz

/-- **Every step that frees no parent** keeps the links. -/
theorem family_step (h : FamilyStep es s e s') : Family (es ++ [e]) s' := by
  have hs := h.sane
  have hkeep : ∀ {p : Slot} (f : Proc → Proc), (f (s.proc p)).kstack = (s.proc p).kstack →
      ∀ q, ((s.proc.upd p f) q).kstack = (s.proc q).kstack ∨ ((s.proc.upd p f) q).kstack = none :=
    fun f hf q => .inl (upd_field Proc.kstack _ _ q f hf)
  -- a child that is freed is not init
  have hchild : ∀ {z p}, (s.proc z).parent = some p → z ≠ initproc := by
    rintro z p hz rfl
    exact absurd (h.family.root.1.symm.trans hz) (by simp)
  have hzombie : ∀ {z}, (s.proc z).state = .zombie → (s.proc z).state ≠ .running := fun hz => by
    rw [hz]
    simp
  cases step_effect h.step with
  | stay => exact h.fields (fun _ _ => id) fun q => .refl _
  | dispatch c p k d hidle hst =>
    exact h.turns (fun x => { x with state := .running, chan := none }) rfl (fillsNone_same rfl (hkeep _ rfl))
      (by simp [Proc.Grown, hst]) rfl rfl ⟨rfl, rfl⟩ (by simp [Proc.Grown])
  | yield c p hp =>
    exact h.turns (fun x => { x with state := .runnable }) rfl (fillsNone_same rfl (hkeep _ rfl)) (h.caller hp) rfl rfl
      ⟨rfl, rfl⟩ (by simp [Proc.Grown])
  | sleep c p chan hp =>
    exact h.turns (fun x => { x with chan := some (.other chan), state := .sleeping }) rfl
      (fillsNone_same rfl (hkeep _ rfl)) (h.caller hp) rfl rfl ⟨rfl, rfl⟩ (by simp [Proc.Grown])
  | wakeup chan =>
    have hw : ∀ q, Woke (s.proc q) (wakeup1 s.proc (some (.other chan)) q) := wakeup1_woke _ _
    refine h.keep (fillsNone_same rfl fun q => .inl (hw q).kstack) (fun q => (hw q).kin (wakeup1_parent _ _ q) _)
      (fun q hq => .inl ((hw q).grown.1 hq)) ?_ fun z hz hun => absurd hun ((hw z).grown.2 hz).1
    exact ⟨((hw initproc).grown.2 h.family.init.1).1, fun hz => h.family.init.2 ((hw initproc).zombie.1 hz)⟩
  | exit c p t hcur ht => exact h.exit hcur ht (by rfl) (by rfl) (by rfl)
  | threadExit c p v t hcur ht => exact h.threadExit hcur ht (by rfl) (by rfl)
  | reap c p z f d hcur hf hz =>
    have hzz := findZombie_some hz
    refine h.releases Proc.reaped hcur rfl rfl rfl (fun _ => ⟨rfl, rfl, rfl⟩) (hzombie hzz.2) (hchild hzz.1)
      (h.keeps.2.1 z ?_)
    show s.reaps c = some z
    rw [State.reaps, (current_some hcur).1]
    exact hz
  | join c p z f thread hcur hf hz hpar =>
    refine h.releases Proc.recovered hcur rfl rfl rfl (fun _ => ⟨rfl, rfl, rfl⟩) (hzombie (findJoin_some hz hpar).2)
      (hchild hpar) (h.keeps.2.1 z ?_)
    show s.joins c thread = some z
    rw [State.joins, (current_some hcur).1, Option.bind_some, hz, Option.filter_some, if_pos (decide_eq_true hpar)]
  | waited e c p f he hcur => exact h.goes hcur rfl rfl fun q => .refl _
  | block e c p f call he hcur hf hcall =>
    have hfills : call.fills = none := by
      rcases hcall with hcall | hcall | ⟨thread, hcall⟩ <;> (cases hcall; rfl)
    exact h.turns (fun x => { x with chan := some (.proc p), state := .sleeping }) rfl
      (fillsNone_current (g := ⟨call, false⟩) hs hcur rfl hfills fun q => .inl (upd_field Proc.kstack _ _ q _ rfl))
      (h.caller (current_some hcur).1) rfl rfl ⟨rfl, rfl⟩ (by simp [Proc.Grown])
  | kill c p p₀ pid t hcur hfind ht => exact h.kill hfind ht rfl rfl
  | fork c p np hcur hnp =>
    exact h.spawn (fun x => { x.embryo s.nextpid s.nextStack with memlim := 0 }) hcur (findUnused_some hnp) rfl rfl rfl
      rfl rfl rfl
  | forkFail c np hnp =>
    exact h.number (fun x => { x with pid := s.nextpid, memlim := 0, kstack := none }) (findUnused_some hnp) rfl rfl rfl
      rfl rfl
  | forkCopy c p np hcur => exact h.forkCopy hcur rfl rfl rfl
  | forkCopyFail c p np hcur =>
    have hst := (h.embryo hcur rfl).1
    have hnot : ¬ (s.proc np).Grown := fun hx => hx.2 hst
    have hpar := h.family.raw p np (by rw [(hs.frame_current hcur).2.2])
    refine h.frees (fun x => { x with pgdir := none, kstack := none, state := .unused }) rfl
      (fillsNone_current (g := .idle) hs hcur rfl rfl fun q => ?_) rfl hpar rfl (h.family.not_init hnot)
      fun hx => absurd hx hnot
    refine (freed_held (t := s.proc) (r := fun x => { x with pgdir := none, kstack := none, state := .unused }) rfl q).imp
      Held.kstack fun hq => ⟨hq.1, ?_⟩
    rintro rfl
    cases hst.symm.trans (hq.2 ▸ (hs.frame_current hcur).1)
  | forkReady c p np hcur => exact h.ready hcur rfl rfl rfl
  | threadCreate c p thrd hcur hthrd =>
    exact h.spawn (fun x => x.embryo (s.proc p).pid s.nextStack) hcur (findUnused_some hthrd) rfl rfl rfl rfl rfl rfl
  | threadCreateFail c p thrd hcur hthrd =>
    exact h.number (fun x => { x with pid := (s.proc p).pid, kstack := none }) (findUnused_some hthrd) rfl rfl rfl rfl rfl
  | threadMapFail c p m thrd sz t pages copied hcur hm ht =>
    refine h.goes hcur rfl rfl fun q => ?_
    rcases ht with rfl | rfl
    · exact kept_upd (f := fun x => { x with sz := sz }) ⟨rfl, rfl, rfl, rfl, rfl⟩ q
    · have hfld : ∀ {α : Type} (g : Proc → α), (∀ (x : Proc) d sz, g { x with pgdir := d, sz := sz } = g x) → _ :=
        fun g hg => share_field (t := s.proc) g hg m thrd sz q
      exact ⟨hfld Proc.parent fun _ _ _ => rfl, hfld Proc.kstack fun _ _ _ => rfl, hfld Proc.isThread fun _ _ _ => rfl,
        hfld Proc.pid fun _ _ _ => rfl, hfld Proc.state fun _ _ _ => rfl⟩
  | threadMap c p m thrd sz pages copied hcur hm => exact h.threadMap hcur hm rfl rfl rfl rfl
  | threadReady c p thrd hcur => exact h.ready hcur rfl rfl rfl
  | execBegin c p two hcur => exact h.goes hcur rfl rfl fun q => .refl _
  | execSetup c p two call hcur hcall => exact h.goes hcur rfl (newDir_fills hcall) fun q => .refl _
  | killTest c p d w call hcur hspare hcall => exact h.goes hcur rfl (newDir_fills hcall) fun q => .refl _
  | killRecover c p z d w call hcur hz hk hcall =>
    have hch : s.proc.Childless z := h.keeps.2.1 z hz
    exact h.releases Proc.recovered hcur rfl rfl (newDir_fills hcall) (fun _ => ⟨rfl, rfl, rfl⟩) (h.keeps.1 z hz).1
      (h.victim_not_init hcur hz hch) hch
  | killMark c p m d hcur hm =>
    exact h.goes hcur rfl rfl (kept_upd (f := fun x => { x with killed := true }) ⟨rfl, rfl, rfl, rfl, rfl⟩)
  | killHeir c p m d hcur hm =>
    have hno : s.heir c = none := h.keeps.2.2
    rw [State.heir, hcur] at hno
    cases hno
  | execLoaded c p two d hcur => exact h.goes hcur rfl rfl fun q => .refl _
  | execCommit c p two d old k sz hcur =>
    exact h.goes hcur rfl rfl (kept_upd (f := fun x => { x with pgdir := some d, sz := sz }) ⟨rfl, rfl, rfl, rfl, rfl⟩)
  | execBad c p two pgdir inOp hcur => exact h.goes hcur rfl rfl fun q => .refl _
  | beginOp c p hcur => exact h.goes hcur rfl rfl fun q => .refl _
  | endOp c p hcur => exact h.goes hcur rfl rfl fun q => .refl _
  | growFail => exact h.fields (fun _ _ => id) fun q => .refl _
  | growproc c p m k ok sz d hcur => exact h.goes hcur rfl rfl fun q => .refl _
  | growStore c p m sz stack d hcur =>
    exact h.goes hcur rfl rfl (kept_upd (f := fun x => { x with sz := sz }) ⟨rfl, rfl, rfl, rfl, rfl⟩)
  | setmemorylimit c p q pid limit hcur => exact h.goes hcur rfl rfl fun q => .refl _
  | limitStore c p q limit hcur =>
    exact h.goes hcur rfl rfl (kept_upd (f := fun x => { x with memlim := limit }) ⟨rfl, rfl, rfl, rfl, rfl⟩)

theorem boot_family : Family [] (boot n) := by
  have hother : ∀ {q}, q ≠ initproc → (boot n).proc q = Proc.zero := fun hq => if_neg hq
  have hframe : ∀ p, (boot n).frameOf p = .idle := by
    intro p
    unfold State.frameOf
    split <;> rfl
  have hnone : ∀ q, ((boot n).proc q).parent = none := by
    intro q
    by_cases hq : q = initproc
    · rw [hq]
      rfl
    · rw [hother hq]
      rfl
  have hinit : ((boot n).proc initproc).state = .runnable := rfl
  refine ⟨⟨⟨by simp [hinit], by simp [hinit]⟩, by simp [hinit]⟩, ⟨rfl, rfl, rfl⟩, fun p np h => hnone np,
    fun p z h => ?_, fun q pr h => ?_, fun q hqi hq => ?_⟩
  · rw [hframe] at h
    cases h
  · rw [hnone] at h
    cases h
  · rcases hq with hq | ⟨p, hp⟩
    · rw [hother hqi] at hq
      exact absurd rfl hq.1
    · rw [hframe] at hp
      cases hp

theorem family_run (hG : (machine n).Guarded KeepsParents (boot n) es) (hr : (machine n).run (boot n) es = some (.ok s)) :
    Sane s ∧ Family es s := by
  refine Machine.run_induct (M := machine n) (P := fun es s =>
    (machine n).Guarded KeepsParents (boot n) es → Sane s ∧ Family es s) (fun _ => ⟨boot_sane, boot_family⟩) ?_ es s hr hG
  intro es s e s' hr ih hstep hG
  obtain ⟨hs, h⟩ := ih hG.init
  have hst : FamilyStep es s e s' := ⟨hr, hs, h, hG.last hr, hstep⟩
  exact ⟨hst.sane', family_step hst⟩

/-! ## The parents -/

/-- The slot has a parent that is in use, and that made it or is init. -/
def HasParent (es : List (Event n)) (s : State n) (q : Slot) : Prop :=
  ∃ pr, (s.proc q).parent = some pr ∧ (s.proc pr).state ≠ .unused ∧ Origin es s q pr

/-- `wait` or `thread_join` by `p` frees the slot. -/
def Table.Collects (t : Table) (p z : Slot) : Prop :=
  findZombie t p = some z ∨ ∃ thread, findJoin t p thread = some z ∧ (t z).parent = some p

theorem findZombie_of_child (hpar : (t z).parent = some p) (hz : (t z).state = .zombie) :
    ∃ y, findZombie t p = some y := by
  refine Option.isSome_iff_exists.1 (List.find?_isSome.2 ⟨z, List.mem_finRange z, ?_⟩)
  simp [hpar, hz]

/-- A child of init forks, and exits; then its child exits. -/
def orphanExits : List (Event 1) :=
  [.sched 0 0, .fork 0 true, .forkCopy 0 true, .forkReady 0, .yield 0, .sched 0 1, .fork 0 true, .forkCopy 0 true,
    .forkReady 0, .exit 0, .sched 0 2, .exit 0]

/-- An LWP forks and ends, and its main thread joins it. -/
def forkAndJoined : List (Event 1) :=
  [.sched 0 0, .fork 0 true, .forkCopy 0 true, .forkReady 0, .yield 0, .sched 0 1, .threadCreate 0 true,
    .threadMap 0 true true, .threadReady 0, .yield 0, .sched 0 2, .fork 0 true, .forkCopy 0 true, .forkReady 0,
    .threadExit 0 0, .sched 0 1, .threadJoin 0 1]

/-- A process calls `exec` while its LWP runs on another CPU, and forks. -/
def forkAfterExec : List (Event 2) :=
  [.sched 0 0, .fork 0 true, .forkCopy 0 true, .forkReady 0, .fork 0 true, .forkCopy 0 true, .forkReady 0,
    .sched 1 2, .threadCreate 1 true, .threadMap 1 true true, .threadReady 1, .yield 0, .sched 0 1, .exit 0,
    .sched 0 0, .wait 0, .yield 0, .sched 0 3, .execBegin 1 false, .execSetup 1, .execKill 1, .execKill 1, .execKill 1,
    .execKill 1, .execKill 1, .fork 0 true, .forkCopy 0 true, .forkReady 0]

end Xv6.Lwp
