import Xv6.Lwp.Growproc

/-!
# `thread_create`

The whole function, with its lock and its result.

* `threadCreate_steps`: what the model of the kernel says of it, when nothing runs in between.
* `Unchanged`: what a call should have done that returned -1.
* `threadCreate_failed`: it is so if and only if the call failed in `allocate`.
* **`failed_creates`**: then any number of such calls leaves the slots and the kernel stacks as they were.
* **`threadCreate_loses_slot`**: a call that finds no page for the stack of the LWP keeps the slot and its kernel
  stack, and the process loses its size.
-/

namespace Xv6.Lwp

variable {n : ℕ} {s s' : MState n} {c : Fin n} {p m thrd : Slot} {kstack copied : Bool} {got : ℕ → Got} {r : ℤ}

/-! ## The function -/

def MState.setProc (s : MState n) (t : Table) : MState n := { s with kernel := { s.kernel with proc := t } }

/-- `allocate` takes the slot. -/
def Proc.taken (x : Proc) (pid : ℕ) : Proc := { x with state := .embryo, pid := pid }

/-- The kernel stack of the new LWP. -/
def MState.newStack (s : MState n) (thrd : Slot) : MState n where
  kernel := { s.kernel with
    proc := s.kernel.proc.upd thrd fun x => { x with kstack := some s.kernel.nextStack }
    nextStack := s.kernel.nextStack + 1
    frame := Function.update s.kernel.frame s.kernel.nextStack .idle }
  pages := s.pages

/-- `thread_create`, called by `p`: `kstack` says that `kalloc` gives a kernel stack, `got` what `allocuvm` gets for
each page, `copied` that `copyout` does not fail. -/
def threadCreate (s : MState n) (c : Fin n) (p : Slot) (kstack : Bool) (got : ℕ → Got) (copied : Bool) :
    Except Trap (ℤ × MState n) :=
  -- `allocate`
  let s := s.setLock (some c)
  match findUnused s.kernel.proc with
  | none => .ok (-1, s.setLock none)
  | some thrd =>
    let s := (s.setProc (s.kernel.proc.upd thrd fun x => x.taken (s.kernel.proc p).pid)).setLock none
    if kstack = false then
      .ok (-1, s.setProc (s.kernel.proc.upd thrd fun x => { x with kstack := none, state := .unused }))
    else
      let s := s.newStack thrd
      match s.kernel.proc.main p with
      | none => .error (.proc .nullDeref)
      | some m =>
        let s := s.setLock (some c)
        match (s.kernel.proc m).pgdir with
        | none => .error (.proc .nullDeref)
        | some d => do
          let old := pgroundup (s.kernel.proc m).sz
          let (x, sz) ← (s.pages d).allocuvm old (old + 2 * PGSIZE) got
          let s := { s.setProc (s.kernel.proc.resize m sz) with pages := Function.update s.pages d x }
          if sz = 0 then .ok (-1, s.setLock none)
          else
            let s := s.setProc (s.kernel.proc.share m thrd sz)
            if copied = false then .ok (-1, s.setLock none)
            else
              let s := s.setProc (s.kernel.proc.adopt m thrd s.kernel.nexttid)
              let s := { s with kernel := { s.kernel with nexttid := s.kernel.nexttid + 1 } }.setLock none
              .ok (0, s.setProc (s.kernel.proc.upd thrd fun x => { x with state := .runnable }))

/-- The pages that `thread_create` asks for are all found. -/
def StackFound (sz : BitVec 32) (got : ℕ → Got) : Prop := FoundAll (pgroundup sz) (pgroundup sz + 2 * PGSIZE) got

instance (sz : BitVec 32) (got : ℕ → Got) : Decidable (StackFound sz got) := by
  unfold StackFound
  infer_instance

/-! ## What a failing call should leave -/

/-- Nothing changed, after a call by `p` that returned -1. -/
structure Unchanged (s : MState n) (p : Slot) (s' : MState n) : Prop where
  lock : s'.kernel.lock = none
  sz : ∀ m, s.kernel.proc.main p = some m → (s'.kernel.proc m).sz = (s.kernel.proc m).sz
  pages : s'.pages = s.pages
  /-- the slot that was taken is free again -/
  slot : ∀ q, findUnused s.kernel.proc = some q →
    (s'.kernel.proc q).state = .unused ∧ (s'.kernel.proc q).kstack = none
  other : ∀ q, findUnused s.kernel.proc ≠ some q → s'.kernel.proc q = s.kernel.proc q

/-- The call fails in `allocate`. -/
def Early (s : MState n) (kstack : Bool) : Prop := findUnused s.kernel.proc = none ∨ kstack = false

instance (s : MState n) (kstack : Bool) : Decidable (Early s kstack) := by
  unfold Early
  infer_instance

/-- The slots that `allocate` and `allocproc` can take. -/
def MState.usable (s : MState n) : ℕ := (Finset.univ.filter fun q => (s.kernel.proc q).state = .unused).card

/-- The kernel stacks of the slots that are in use. -/
def MState.stacks (s : MState n) : ℕ :=
  (Finset.univ.filter fun q => (s.kernel.proc q).state ≠ .unused ∧ (s.kernel.proc q).kstack ≠ none).card

/-! ## The exits -/

/-- Memory changes: every slot keeps its stack and its state. -/
def Table.Parallel (t t' : Table) : Prop := ∀ q, (t' q).kstack = (t q).kstack ∧ (t' q).state = (t q).state

theorem Table.Parallel.trans {t t' t'' : Table} (h : t.Parallel t') (h' : t'.Parallel t'') : t.Parallel t'' :=
  fun q => ⟨(h' q).1.trans (h q).1, (h' q).2.trans (h q).2⟩

theorem resize_parallel (t : Table) (m : Slot) (sz : BitVec 32) : t.Parallel (t.resize m sz) :=
  fun q => ⟨upd_field Proc.kstack t m q _ rfl, upd_field Proc.state t m q _ rfl⟩

theorem share_parallel (t : Table) (m thrd : Slot) (sz : BitVec 32) : t.Parallel (t.share m thrd sz) :=
  fun q => ⟨upd_field Proc.kstack t thrd q _ rfl, upd_field Proc.state t thrd q _ rfl⟩

/-- `allocate` found no kernel stack. -/
def Proc.vacated (x : Proc) (pid : ℕ) : Proc := { x with kstack := none, state := .unused, pid := pid }

/-- The table after `allocate`. -/
def MState.allocated (s : MState n) (p thrd : Slot) : Table :=
  s.kernel.proc.upd thrd fun x => { x.taken (s.kernel.proc p).pid with kstack := some s.kernel.nextStack }

/-- No slot. -/
theorem threadCreate_full (hfind : findUnused s.kernel.proc = none)
    (h : threadCreate s c p kstack got copied = .ok (r, s')) : r = -1 ∧ s' = s.setLock none := by
  unfold threadCreate at h
  dsimp only [MState.setLock] at h
  rw [hfind] at h
  cases h
  exact ⟨rfl, rfl⟩

/-- No kernel stack. -/
theorem threadCreate_noStack (hfind : findUnused s.kernel.proc = some thrd)
    (h : threadCreate s c p false got copied = .ok (r, s')) :
    r = -1 ∧ s' = (s.setProc (s.kernel.proc.upd thrd fun x => x.vacated (s.kernel.proc p).pid)).setLock none := by
  unfold threadCreate at h
  dsimp only [MState.setLock, MState.setProc] at h
  rw [hfind] at h
  dsimp only at h
  rw [if_pos rfl] at h
  cases h
  refine ⟨rfl, ?_⟩
  unfold MState.setLock MState.setProc Table.upd
  simp only [Function.update_idem, Function.update_self]
  rfl

theorem newStack_proc (s : MState n) (p thrd : Slot) (o : Option (Fin n)) :
    (MState.newStack { s with kernel := { s.kernel with
      lock := o
      proc := s.kernel.proc.upd thrd fun x => x.taken (s.kernel.proc p).pid } } thrd).kernel.proc =
        s.allocated p thrd := by
  unfold MState.newStack MState.allocated Table.upd
  simp only [Function.update_idem, Function.update_self]

/-- After `allocate` the caller has its main thread and its page directory, or the call ends in a fault. -/
theorem threadCreate_late (hfind : findUnused s.kernel.proc = some thrd)
    (h : threadCreate s c p true got copied = .ok (r, s')) :
    ∃ m d, (s.allocated p thrd).main p = some m ∧ (s.allocated p thrd m).pgdir = some d := by
  unfold threadCreate at h
  dsimp only [MState.setLock, MState.setProc] at h
  rw [hfind] at h
  dsimp only at h
  rw [if_neg (by simp), newStack_proc] at h
  split at h
  · cases h
  · rename_i m hmain
    split at h
    · cases h
    · rename_i d hd
      exact ⟨m, d, hmain, hd⟩

/-- What a call leaves that got its slot and its kernel stack: the table `t`, and the pages `x` of `d`. -/
def MState.created (s : MState n) (t : Table) (nexttid : ℕ) (d : Dir) (x : Pages) : MState n where
  kernel := { s.kernel with
    lock := none
    proc := t
    nexttid := nexttid
    nextStack := s.kernel.nextStack + 1
    frame := Function.update s.kernel.frame s.kernel.nextStack .idle }
  pages := Function.update s.pages d x

/-- **`thread_create` after `allocate`.** -/
theorem threadCreate_eq {d : Dir} (hfind : findUnused s.kernel.proc = some thrd)
    (hmain : (s.allocated p thrd).main p = some m) (hd : (s.allocated p thrd m).pgdir = some d) :
    threadCreate s c p true got copied =
      ((s.pages d).allocuvm (pgroundup (s.allocated p thrd m).sz) (pgroundup (s.allocated p thrd m).sz + 2 * PGSIZE)
        got).map fun y =>
          if y.2 = 0 then (-1, s.created ((s.allocated p thrd).resize m 0) s.kernel.nexttid d y.1)
          else if copied = false then
            (-1, s.created (((s.allocated p thrd).resize m y.2).share m thrd y.2) s.kernel.nexttid d y.1)
          else
            (0, s.created (((((s.allocated p thrd).resize m y.2).share m thrd y.2).adopt m thrd
              s.kernel.nexttid).upd thrd fun x => { x with state := .runnable }) (s.kernel.nexttid + 1) d y.1) := by
  unfold threadCreate
  dsimp only [MState.setLock, MState.setProc]
  rw [hfind]
  dsimp only
  rw [if_neg (by simp), newStack_proc, hmain]
  dsimp only
  rw [hd]
  dsimp only
  cases hgot : (s.pages d).allocuvm (pgroundup (s.allocated p thrd m).sz)
      (pgroundup (s.allocated p thrd m).sz + 2 * PGSIZE) got with
  | error t =>
    show (Except.bind ((s.pages d).allocuvm _ _ got) _) = _
    rw [hgot]
    rfl
  | ok y =>
    show (Except.bind ((s.pages d).allocuvm _ _ got) _) = _
    rw [hgot]
    obtain ⟨x, sz⟩ := y
    show (if sz = 0 then _ else _) = Except.ok (if sz = 0 then _ else _)
    split
    · rename_i h0
      rw [h0]
      rfl
    · split
      · rfl
      · rfl

/-- **The exits of `thread_create`** that return -1: no slot; no kernel stack; or later, and then the slot stays
taken. -/
theorem threadCreate_cases (h : threadCreate s c p kstack got copied = .ok (-1, s')) :
    (findUnused s.kernel.proc = none ∧ s' = s.setLock none) ∨
    (∃ thrd, findUnused s.kernel.proc = some thrd ∧ kstack = false ∧
      s' = (s.setProc (s.kernel.proc.upd thrd fun x => x.vacated (s.kernel.proc p).pid)).setLock none) ∨
    (∃ thrd, findUnused s.kernel.proc = some thrd ∧ kstack = true ∧
      (s.allocated p thrd).Parallel s'.kernel.proc) := by
  cases hfind : findUnused s.kernel.proc with
  | none =>
    obtain ⟨-, rfl⟩ := threadCreate_full hfind h
    exact .inl ⟨rfl, rfl⟩
  | some thrd =>
    apply Or.inr
    cases kstack with
    | false =>
      obtain ⟨-, rfl⟩ := threadCreate_noStack hfind h
      exact .inl ⟨thrd, rfl, rfl, rfl⟩
    | true =>
      refine .inr ⟨thrd, rfl, rfl, ?_⟩
      obtain ⟨m, d, hmain, hd⟩ := threadCreate_late hfind h
      rw [threadCreate_eq hfind hmain hd] at h
      cases hgot : (s.pages d).allocuvm (pgroundup (s.allocated p thrd m).sz)
          (pgroundup (s.allocated p thrd m).sz + 2 * PGSIZE) got with
      | error t =>
        rw [hgot] at h
        cases h
      | ok y =>
        rw [hgot] at h
        have h' : (if y.2 = 0 then _ else _) = ((-1 : ℤ), s') := Except.ok.inj h
        split at h'
        · cases h'
          exact resize_parallel _ m 0
        · split at h'
          · cases h'
            exact (resize_parallel _ m y.2).trans (share_parallel _ m thrd y.2)
          · cases h'

/-- **A call that returns -1 changed nothing** if and only if it failed in `allocate`. -/
theorem threadCreate_failed (h : threadCreate s c p kstack got copied = .ok (-1, s')) :
    Unchanged s p s' ↔ Early s kstack := by
  rcases threadCreate_cases h with ⟨hnone, rfl⟩ | ⟨thrd, hfind, rfl, rfl⟩ | ⟨thrd, hfind, rfl, hpar⟩
  · refine ⟨fun _ => .inl hnone, fun _ => ?_⟩
    refine ⟨rfl, fun _ _ => rfl, rfl, fun q hq => ?_, fun _ _ => rfl⟩
    rw [hnone] at hq
    cases hq
  · refine ⟨fun _ => .inr rfl, fun _ => ?_⟩
    have hproc : ∀ q, ((s.setProc (s.kernel.proc.upd thrd fun x => x.vacated (s.kernel.proc p).pid)).setLock
        none).kernel.proc q = (s.kernel.proc.upd thrd fun x => x.vacated (s.kernel.proc p).pid) q := fun _ => rfl
    refine ⟨rfl, fun m _ => ?_, rfl, fun q hq => ?_, fun q hq => ?_⟩
    · rw [hproc]
      exact upd_field Proc.sz s.kernel.proc thrd m _ rfl
    · obtain rfl : thrd = q := Option.some.inj (hfind.symm.trans hq)
      rw [hproc, upd_self]
      exact ⟨rfl, rfl⟩
    · have hne : q ≠ thrd := by
        rintro rfl
        exact hq hfind
      rw [hproc, upd_ne _ hne]
  · constructor
    · intro hun
      have hstate : (s'.kernel.proc thrd).state = .embryo := by
        rw [(hpar thrd).2]
        unfold MState.allocated
        rw [upd_self]
        rfl
      rw [(hun.slot thrd hfind).1] at hstate
      cases hstate
    · rintro (hnone | hfalse)
      · rw [hnone] at hfind
        cases hfind
      · cases hfalse

/-! ## Any number of failing calls -/

/-- Calls of `thread_create` that all return -1; `late` of them do not fail in `allocate`. -/
inductive Failing (s : MState n) : ℕ → MState n → Prop
  | nil : Failing s 0 s
  | early {late : ℕ} {s₁ s₂ : MState n} (h : Failing s late s₁) (c : Fin n) (p : Slot) (kstack : Bool) (got : ℕ → Got)
    (copied : Bool) (hcall : threadCreate s₁ c p kstack got copied = .ok (-1, s₂)) (hearly : Early s₁ kstack) :
    Failing s late s₂
  | late {late : ℕ} {s₁ s₂ : MState n} (h : Failing s late s₁) (c : Fin n) (p : Slot) (kstack : Bool) (got : ℕ → Got)
    (copied : Bool) (hcall : threadCreate s₁ c p kstack got copied = .ok (-1, s₂)) (hlate : ¬ Early s₁ kstack) :
    Failing s (late + 1) s₂

/-- A call that fails in `allocate`. -/
theorem early_counts (h : threadCreate s c p kstack got copied = .ok (-1, s')) (hearly : Early s kstack) :
    s'.usable = s.usable ∧ s'.stacks = s.stacks := by
  have hun := (threadCreate_failed h).2 hearly
  have hstate : ∀ q, (s'.kernel.proc q).state = .unused ↔ (s.kernel.proc q).state = .unused := by
    intro q
    by_cases hq : findUnused s.kernel.proc = some q
    · exact ⟨fun _ => findUnused_some hq, fun _ => (hun.slot q hq).1⟩
    · rw [hun.other q hq]
  constructor
  · unfold MState.usable
    simp only [hstate]
  · unfold MState.stacks
    congr 1
    ext q
    simp only [Finset.mem_filter, Finset.mem_univ, true_and, ne_eq, hstate]
    by_cases hq : findUnused s.kernel.proc = some q
    · simp [findUnused_some hq]
    · rw [hun.other q hq]

/-- A call that fails later takes a slot and a kernel stack with it. -/
theorem late_counts (h : threadCreate s c p kstack got copied = .ok (-1, s')) (hlate : ¬ Early s kstack) :
    s'.usable + 1 = s.usable ∧ s'.stacks = s.stacks + 1 := by
  rcases threadCreate_cases h with ⟨hnone, -⟩ | ⟨-, -, hfalse, -⟩ | ⟨thrd, hfind, -, hpar⟩
  · exact absurd (.inl hnone) hlate
  · exact absurd (.inr hfalse) hlate
  · have hself : (s'.kernel.proc thrd).state = .embryo ∧ (s'.kernel.proc thrd).kstack = some s.kernel.nextStack := by
      rw [(hpar thrd).1, (hpar thrd).2]
      unfold MState.allocated
      rw [upd_self]
      exact ⟨rfl, rfl⟩
    have hother : ∀ q, q ≠ thrd → (s'.kernel.proc q).state = (s.kernel.proc q).state ∧
        (s'.kernel.proc q).kstack = (s.kernel.proc q).kstack := by
      intro q hq
      rw [(hpar q).1, (hpar q).2]
      unfold MState.allocated
      rw [upd_ne _ hq]
      exact ⟨rfl, rfl⟩
    have hfree := findUnused_some hfind
    constructor
    · unfold MState.usable
      have herase : (Finset.univ.filter fun q => (s'.kernel.proc q).state = .unused) =
          (Finset.univ.filter fun q => (s.kernel.proc q).state = .unused).erase thrd := by
        ext q
        simp only [Finset.mem_filter, Finset.mem_univ, true_and, Finset.mem_erase]
        by_cases hq : q = thrd
        · subst hq
          simp [hself.1]
        · simp [hq, (hother q hq).1]
      rw [herase]
      apply Finset.card_erase_add_one
      simp [hfree]
    · unfold MState.stacks
      have hinsert : (Finset.univ.filter fun q => (s'.kernel.proc q).state ≠ .unused ∧ (s'.kernel.proc q).kstack ≠ none) =
          insert thrd (Finset.univ.filter fun q =>
            (s.kernel.proc q).state ≠ .unused ∧ (s.kernel.proc q).kstack ≠ none) := by
        ext q
        simp only [Finset.mem_filter, Finset.mem_univ, true_and, Finset.mem_insert]
        by_cases hq : q = thrd
        · subst hq
          simp [hself.1, hself.2]
        · simp [hq, (hother q hq).1, (hother q hq).2]
      rw [hinsert]
      apply Finset.card_insert_of_notMem
      simp [hfree]

/-- Each call that fails after `allocate` costs a slot and a kernel stack. -/
theorem failing_counts {late : ℕ} (h : Failing s late s') :
    s'.usable + late = s.usable ∧ s'.stacks = s.stacks + late := by
  induction h with
  | nil => exact ⟨rfl, rfl⟩
  | early _ c p kstack got copied hcall hearly ih =>
    obtain ⟨husable, hstacks⟩ := early_counts hcall hearly
    omega
  | late _ c p kstack got copied hcall hlate ih =>
    obtain ⟨husable, hstacks⟩ := late_counts hcall hlate
    omega

/-- **A failing `thread_create` changes nothing** if and only if it fails in `allocate`; and any number of failing
calls leave the number of slots and of kernel stacks as it was if and only if they all do. -/
theorem failed_creates (n : ℕ) (s : MState n) :
    (∀ c p kstack got copied s', threadCreate s c p kstack got copied = .ok (-1, s') →
      (Unchanged s p s' ↔ Early s kstack)) ∧
    ∀ late s', Failing s late s' → (s'.usable = s.usable ∧ s'.stacks = s.stacks ↔ late = 0) := by
  refine ⟨fun c p kstack got copied s' h => threadCreate_failed h, fun late s' h => ?_⟩
  obtain ⟨husable, hstacks⟩ := failing_counts h
  constructor
  · rintro ⟨hu, -⟩
    omega
  · rintro rfl
    exact ⟨husable, hstacks⟩

/-! ## As steps of the kernel -/

/-- In `thread_create`, with the slot `thrd` allocated. -/
def MState.creating (s : MState n) (c : Fin n) (p thrd : Slot) : MState n where
  kernel := { s.kernel with
    proc := s.allocated p thrd
    nextStack := s.kernel.nextStack + 1
    frame := Function.update (Function.update s.kernel.frame s.kernel.nextStack .idle) (s.kernel.cpu c).stack
      ⟨.create thrd, false⟩ }
  pages := s.pages

theorem allocate_step (hu : s.kernel.user c = some p) (hfree : s.kernel.Free)
    (hfind : findUnused s.kernel.proc = some thrd) :
    mstep s (.proc (.threadCreate c true)) = some (.ok (s.creating c p thrd)) := by
  unfold mstep step
  simp only [hu, if_pos hfree]
  unfold State.threadCreate
  rw [hfind]
  rfl

theorem creating_current (hu : s.kernel.user c = some p) :
    (s.creating c p thrd).kernel.current c = some (p, ⟨.create thrd, false⟩) := by
  have hcpu := (current_some (user_some hu)).1
  unfold State.current MState.creating
  dsimp only
  rw [hcpu, Function.update_self]
  rfl

theorem setLock_free (hfree : s.kernel.Free) : s.setLock none = s := by
  unfold MState.setLock
  rw [← show s.kernel.lock = none from hfree]

/-- The caller goes on with the frame `f`. -/
theorem setFrame_creating (p thrd : Slot) (hfree : s.kernel.Free) (t : Table) (nexttid : ℕ) (d : Dir)
    (x : Pages) (f : Frame) :
    (⟨{ (s.creating c p thrd).kernel with proc := t, nexttid := nexttid }.setFrame c f, Function.update s.pages d x⟩ :
      MState n) = ⟨(s.created t nexttid d x).kernel.setFrame c f, Function.update s.pages d x⟩ := by
  have hframe : Function.update (s.creating c p thrd).kernel.frame (s.kernel.cpu c).stack f =
      Function.update (Function.update s.kernel.frame s.kernel.nextStack .idle) (s.kernel.cpu c).stack f := by
    unfold MState.creating
    rw [Function.update_idem]
  show (⟨{ s.kernel with
      lock := s.kernel.lock
      proc := t
      nexttid := nexttid
      nextStack := s.kernel.nextStack + 1
      frame := Function.update (s.creating c p thrd).kernel.frame (s.kernel.cpu c).stack f },
    Function.update s.pages d x⟩ : MState n) = ⟨{ s.kernel with
      lock := none
      proc := t
      nexttid := nexttid
      nextStack := s.kernel.nextStack + 1
      frame := Function.update (Function.update s.kernel.frame s.kernel.nextStack .idle) (s.kernel.cpu c).stack f },
    Function.update s.pages d x⟩
  rw [hframe, show s.kernel.lock = none from hfree]

/-- A caller that was idle is idle again. -/
theorem setFrame_created (hu : s.kernel.user c = some p) (t : Table) (nexttid : ℕ) (d : Dir) (x : Pages) :
    (⟨(s.created t nexttid d x).kernel.setFrame c .idle, Function.update s.pages d x⟩ : MState n) =
      s.created t nexttid d x := by
  have hidle := (current_some (user_some hu)).2
  have hframe : Function.update (Function.update s.kernel.frame s.kernel.nextStack .idle) (s.kernel.cpu c).stack .idle =
      Function.update s.kernel.frame s.kernel.nextStack .idle := by
    refine Function.update_eq_self_iff.2 ?_
    by_cases hst : (s.kernel.cpu c).stack = s.kernel.nextStack
    · rw [hst, Function.update_self]
    · rw [Function.update_of_ne hst]
      exact hidle.symm
  unfold MState.created State.setFrame
  rw [hframe]

theorem threadMap_step {d : Dir} {x : Pages} {sz : BitVec 32} (hu : s.kernel.user c = some p) (hfree : s.kernel.Free)
    (hmain : (s.allocated p thrd).main p = some m) (hd : (s.allocated p thrd m).pgdir = some d)
    (hgot : (s.pages d).allocuvm (pgroundup (s.allocated p thrd m).sz)
      (pgroundup (s.allocated p thrd m).sz + 2 * PGSIZE) got = .ok (x, sz)) :
    mstep (s.creating c p thrd) (.proc (.threadMap c (decide (StackFound (s.allocated p thrd m).sz got)) copied)) =
      some (.ok (if sz = 0 then s.created ((s.allocated p thrd).resize m 0) s.kernel.nexttid d x
        else if copied = false then
          s.created (((s.allocated p thrd).resize m sz).share m thrd sz) s.kernel.nexttid d x
        else ⟨(s.created ((((s.allocated p thrd).resize m sz).share m thrd sz).adopt m thrd s.kernel.nexttid)
          (s.kernel.nexttid + 1) d x).kernel.setFrame c ⟨.created thrd, false⟩, Function.update s.pages d x⟩)) := by
  have hcur : (s.creating c p thrd).kernel.current c = some (p, ⟨.create thrd, false⟩) := creating_current hu
  have hcpu := (current_some (user_some hu)).1
  obtain ⟨halloc, hsz⟩ := allocuvm_refines hgot
  have hfree' : (s.creating c p thrd).kernel.Free := hfree
  unfold mstep step pagesAfter
  simp only [hcur, if_pos hfree']
  have hmain' : (s.creating c p thrd).kernel.proc.main p = some m := hmain
  have hbind : ((s.creating c p thrd).kernel.cpu c).proc.bind (s.creating c p thrd).kernel.proc.main = some m := by
    rw [show ((s.creating c p thrd).kernel.cpu c).proc = some p from hcpu]
    exact hmain
  have hd' : ((s.creating c p thrd).kernel.proc m).pgdir = some d := hd
  rw [hmain', hbind]
  dsimp only
  rw [hd']
  dsimp only
  have hdec : decide (StackFound (s.allocated p thrd m).sz got) = decide (FoundAll (pgroundup (s.allocated p thrd m).sz)
      (pgroundup (s.allocated p thrd m).sz + 2 * PGSIZE) got) := decide_eq_decide.2 Iff.rfl
  rw [hdec]
  have hsz' : allocuvm (pgroundup ((s.creating c p thrd).kernel.proc m).sz)
      (pgroundup ((s.creating c p thrd).kernel.proc m).sz + 2 * PGSIZE)
      (decide (FoundAll (pgroundup (s.allocated p thrd m).sz) (pgroundup (s.allocated p thrd m).sz + 2 * PGSIZE) got)) =
        sz := hsz.symm
  have halloc' : ((s.creating c p thrd).pages d).alloc (pgroundup ((s.creating c p thrd).kernel.proc m).sz)
      (pgroundup ((s.creating c p thrd).kernel.proc m).sz + 2 * PGSIZE)
      (decide (FoundAll (pgroundup (s.allocated p thrd m).sz) (pgroundup (s.allocated p thrd m).sz + 2 * PGSIZE) got)) =
        .ok x := halloc
  unfold State.threadMap
  dsimp only
  rw [hsz', halloc', hd', if_neg (by simp)]
  by_cases h0 : sz = 0
  · rw [if_pos h0, if_pos h0, h0, ← setFrame_created hu, ← setFrame_creating p thrd hfree]
    rfl
  · rw [if_neg h0, if_neg h0]
    cases copied with
    | false =>
      rw [if_pos rfl, if_pos rfl, ← setFrame_created hu, ← setFrame_creating p thrd hfree]
      rfl
    | true =>
      rw [if_neg (by simp), if_neg (by simp), ← setFrame_creating p thrd hfree]
      rfl

theorem threadReady_step (thrd : Slot) (hu : s.kernel.user c = some p) (t : Table) (nexttid : ℕ) (d : Dir) (x : Pages) :
    mstep ⟨(s.created t nexttid d x).kernel.setFrame c ⟨.created thrd, false⟩, Function.update s.pages d x⟩
      (.proc (.threadReady c)) =
        some (.ok (s.created (t.upd thrd fun y => { y with state := .runnable }) nexttid d x)) := by
  have hcpu := (current_some (user_some hu)).1
  have hcur : ((s.created t nexttid d x).kernel.setFrame c ⟨.created thrd, false⟩).current c =
      some (p, ⟨.created thrd, false⟩) := by
    unfold State.current State.setFrame MState.created
    dsimp only
    rw [hcpu, Function.update_self]
    rfl
  have hfree : ((s.created t nexttid d x).kernel.setFrame c ⟨.created thrd, false⟩).Free := rfl
  unfold mstep step
  simp only [hcur, if_pos hfree]
  rw [← setFrame_created hu (t.upd thrd fun y => { y with state := .runnable }) nexttid d x]
  show some (Except.ok (⟨_, Function.update s.pages d x⟩ : MState n)) = _
  unfold State.setFrame
  dsimp only
  rw [Function.update_idem]
  rfl

/-- **`thread_create` is a run of the kernel**, of one to three steps, when nothing else runs in between. -/
theorem threadCreate_steps (hu : s.kernel.user c = some p) (hfree : s.kernel.Free)
    (h : threadCreate s c p kstack got copied = .ok (r, s')) : ∃ ok k, (mmachine n).run s
      ([.proc (.threadCreate c kstack), .proc (.threadMap c ok copied), .proc (.threadReady c)].take k) =
        some (.ok s') := by
  cases hfind : findUnused s.kernel.proc with
  | none =>
    obtain ⟨-, rfl⟩ := threadCreate_full hfind h
    have hfull : mstep s (.proc (.threadCreate c kstack)) = some (.ok (s.setLock none)) := by
      rw [setLock_free hfree]
      unfold mstep step
      simp only [hu, if_pos hfree]
      unfold State.threadCreate
      rw [hfind]
      rfl
    have hstep : (mmachine n).step s (.proc (.threadCreate c kstack)) = _ := hfull
    exact ⟨true, 1, Machine.run_cons hstep []⟩
  | some thrd =>
    cases kstack with
    | false =>
      obtain ⟨-, rfl⟩ := threadCreate_noStack hfind h
      have hnone : mstep s (.proc (.threadCreate c false)) = some (.ok (s.setProc
          (s.kernel.proc.upd thrd fun x => x.vacated (s.kernel.proc p).pid))) := by
        unfold mstep step
        simp only [hu, if_pos hfree]
        unfold State.threadCreate
        rw [hfind]
        dsimp only
        rw [if_neg (by simp)]
        have hsame : (s.kernel.proc.upd thrd fun x => { x with pid := (s.kernel.proc p).pid, kstack := none }) =
            s.kernel.proc.upd thrd fun x => x.vacated (s.kernel.proc p).pid := by
          unfold Table.upd Proc.vacated
          rw [← findUnused_some hfind]
        rw [hsame]
        rfl
      have hlock : (s.setProc (s.kernel.proc.upd thrd fun x => x.vacated (s.kernel.proc p).pid)).setLock none =
          s.setProc (s.kernel.proc.upd thrd fun x => x.vacated (s.kernel.proc p).pid) := setLock_free hfree
      rw [hlock]
      have hstep : (mmachine n).step s (.proc (.threadCreate c false)) = _ := hnone
      exact ⟨true, 1, Machine.run_cons hstep []⟩
    | true =>
      obtain ⟨m, d, hmain, hd⟩ := threadCreate_late hfind h
      rw [threadCreate_eq hfind hmain hd] at h
      cases hgot : (s.pages d).allocuvm (pgroundup (s.allocated p thrd m).sz)
          (pgroundup (s.allocated p thrd m).sz + 2 * PGSIZE) got with
      | error t =>
        rw [hgot] at h
        cases h
      | ok y =>
        obtain ⟨x, sz⟩ := y
        rw [hgot] at h
        have h' : (if sz = 0 then _ else _) = (r, s') := Except.ok.inj h
        have hfirst : (mmachine n).step s (.proc (.threadCreate c true)) = some (.ok (s.creating c p thrd)) :=
          allocate_step hu hfree hfind
        have hmap : (mmachine n).step (s.creating c p thrd)
            (.proc (.threadMap c (decide (StackFound (s.allocated p thrd m).sz got)) copied)) = _ :=
          threadMap_step hu hfree hmain hd hgot
        refine ⟨decide (StackFound (s.allocated p thrd m).sz got), ?_⟩
        split at h'
        · rename_i h0
          cases h'
          rw [if_pos h0] at hmap
          refine ⟨2, ?_⟩
          exact (Machine.run_cons hfirst _).trans (Machine.run_cons hmap [])
        · rename_i h0
          rw [if_neg h0] at hmap
          split at h'
          · rename_i hcop
            cases h'
            rw [if_pos hcop] at hmap
            refine ⟨2, ?_⟩
            exact (Machine.run_cons hfirst _).trans (Machine.run_cons hmap [])
          · rename_i hcop
            cases h'
            rw [if_neg hcop] at hmap
            refine ⟨3, ?_⟩
            have hready : (mmachine n).step _ (.proc (.threadReady c)) = _ := threadReady_step thrd hu
              ((((s.allocated p thrd).resize m sz).share m thrd sz).adopt m thrd s.kernel.nexttid)
              (s.kernel.nexttid + 1) d x
            exact (Machine.run_cons hfirst _).trans ((Machine.run_cons hmap _).trans (Machine.run_cons hready []))

/-- The next free slot, as the computation finds it. -/
theorem mboot_findUnused : findUnused (mboot 1).kernel.proc = some 1 := by decide

/-- A call that gets no kernel stack. -/
theorem failed_creates_noStack : ∃ s', Failing (mboot 1) 0 s' ∧
    Unchanged (mboot 1) 0 s' ∧ s'.usable = (mboot 1).usable ∧ s'.stacks = (mboot 1).stacks := by
  obtain ⟨s', hs'⟩ : ∃ s', threadCreate (mboot 1) 0 0 false (fun _ => .page) true = .ok (-1, s') := by
    unfold threadCreate
    dsimp only [MState.setLock]
    rw [mboot_findUnused]
    exact ⟨_, rfl⟩
  have hearly : Early (mboot 1) false := .inr rfl
  have hrun : Failing (mboot 1) 0 s' := Failing.nil.early 0 0 false (fun _ => .page) true hs' hearly
  obtain ⟨hone, hmany⟩ := failed_creates 1 (mboot 1)
  obtain ⟨husable, hstacks⟩ := (hmany 0 s' hrun).2 rfl
  exact ⟨s', hrun, (hone 0 0 false (fun _ => .page) true s' hs').2 hearly, husable, hstacks⟩

/-- **A call that finds no page for the stack of the LWP** keeps the slot and its kernel stack; and the size of the
process is 0 from then on. -/
theorem threadCreate_loses_slot : ∃ s', threadCreate (mboot 1) 0 0 true (fun _ => .noPage) true = .ok (-1, s') ∧
    (s'.kernel.proc 1).state = .embryo ∧ (s'.kernel.proc 1).kstack = some 1 ∧ (s'.kernel.proc 0).sz = 0 ∧
    ¬ Unchanged (mboot 1) 0 s' := by
  have hlate : ¬ Early (mboot 1) true := by
    rintro (h | h)
    · rw [mboot_findUnused] at h
      cases h
    · cases h
  obtain ⟨s', hs', hst, hk, hsz⟩ : ∃ s', threadCreate (mboot 1) 0 0 true (fun _ => .noPage) true = .ok (-1, s') ∧
      (s'.kernel.proc 1).state = .embryo ∧ (s'.kernel.proc 1).kstack = some 1 ∧ (s'.kernel.proc 0).sz = 0 := by
    unfold threadCreate
    dsimp only [MState.setLock]
    rw [mboot_findUnused]
    exact ⟨_, rfl, rfl, rfl, rfl⟩
  exact ⟨s', hs', hst, hk, hsz, fun h => hlate ((threadCreate_failed hs').1 h)⟩

end Xv6.Lwp
