import Xv6.Fs.SysFile

/-!
# Runs of calls

The machine starts with one process in the root directory, on any disk.

* `call_spec`: every call but `sys_exec` keeps `Idle`.
* `reachable_idle`: between calls the cache counts at least what files and directories hold.
* **`refs_exact`**: it counts exactly that, as long as no `sys_exec` finds its path.
* **`respects_iff`**: every call keeps the protocol of the cache, but `sys_exec`.
* **`never_directory`**: no directory is open for writing, unless a symlink to it was opened.
-/

namespace Xv6.Fs

open Prog

/-! ## The start -/

def noDinode : Dinode := ⟨.free, 0, 0, 0, []⟩

/-- `initproc` has the root directory, in the first entry of the cache. -/
def boot (disk : ℕ → Dinode) (devsw : ℕ → Option (ℕ → Bytes)) : State where
  disk := disk
  inode i := if i = 0 then ⟨ROOTINO, 1, none, false, noDinode⟩ else ⟨0, 0, none, false, noDinode⟩
  tables :=
    { file := fun _ => ⟨.none, 0, false, false, 0, 0⟩
      ofile := fun _ _ => none
      cwd := fun q => if q = initproc then some 0 else none
      state := fun q => if q = initproc then .used else .unused }
  inOp := false
  broken := false
  devsw := devsw

section

variable {disk : ℕ → Dinode} {devsw : ℕ → Option (ℕ → Bytes)}
variable {p p' : Slot} {q q' : Bool → Prop} {w : Bool} {x x' : Iref → ℤ} {s s' : State} {e : Event}

theorem boot_owners (i : Iref) : (boot disk devsw).tables.owners i = if i = 0 then 1 else 0 := by
  -- only `initproc` has anything
  have hzero : refs (fun _ : Fref ⊕ Slot => (none : Option Iref)) i = 0 := refs_eq_zero.2 fun _ => by simp
  have hinit : (boot disk devsw).tables.owner (.inr initproc) = some 0 := rfl
  have hother : ∀ o : Fref ⊕ Slot, o ≠ .inr initproc → (boot disk devsw).tables.owner o = none := by
    intro o ho
    cases o with
    | inl f => rfl
    | inr r =>
      have hr : r ≠ initproc := fun hr => ho (by rw [hr])
      exact if_neg hr
  have hfill := refs_fill rfl hinit hother i
  rw [hzero, Nat.zero_add] at hfill
  exact hfill

theorem boot_idle (hq : q false) : Idle p w q (fun _ => 0) (boot disk devsw) := by
  refine ⟨_, ⟨fun _ _ => rfl, fun r hr => ?_⟩, trivial, rfl, fun i => ?_, fun i => ?_, fun i hi => by simp at hi,
    fun i hi => ?_, fun i j hi hj _ => ?_, fun i _ hv => ?_, rfl, hq⟩
  · by_cases hri : r = initproc
    · rw [hri] at hr
      exact absurd rfl hr
    · exact if_neg hri
  · rw [boot_owners]
    by_cases hi : i = 0
    · simp [boot, hi]
    · simp [boot, hi]
  · by_cases hi : i = 0
    · simp [boot, hi]
    · simp [boot, hi]
  · obtain ⟨-, f, hf, -⟩ := hi
    cases hf
  · have honly : ∀ k, 0 < ((boot disk devsw).inode k).ref → k = 0 := by
      intro k hk
      by_contra hk0
      simp [boot, hk0] at hk
    rw [honly i hi, honly j hj]
  · by_cases hi : i = 0
    · simp [boot, hi] at hv
    · simp [boot, hi] at hv

/-- Nobody has a lock, so it does not matter who looks. -/
theorem Idle.proc (h : Idle p w q x s) (p' : Slot) : Idle p' w q x s := by
  obtain ⟨T, hT, -, h⟩ := h
  refine ⟨T, hT, trivial, h.tables, h.refs, fun i => ?_, fun i hi => by simp at hi, h.keep, h.uniq, h.typed, h.inOp,
    h.monitor⟩
  have hlock := h.lock i
  simpa using hlock

/-- The monitor starts anew. -/
theorem Idle.fresh (h : Idle p w q x s) (q' : Bool → Prop) {b : Bool} (hq : q' b) : Idle p w q' x { s with broken := b } := by
  obtain ⟨T, hT, -, h⟩ := h
  exact ⟨T, hT, trivial, h.tables, h.refs, h.lock, h.valid, h.keep, h.uniq, h.typed, h.inOp, hq⟩

/-! ## Calls -/

/-- The call is `sys_exec`, with a path that can be read. -/
def Event.execs (e : Event) : Prop := ∃ path argv addr, e.call = .exec path argv ∧ argstr e.user path = some addr

/-- The call opens a directory for writing, through a symlink. -/
def Event.opensDir (s : State) (e : Event) : Prop :=
  ∃ path omode, e.call = .open path omode ∧ Fs.opensDir e.proc e.user path omode s

/-- **Every call but `sys_exec`** keeps the protocol. -/
theorem call_spec (hx : ∀ i, 0 ≤ x i) (hexec : ∀ path argv, e.call ≠ .exec path argv)
    (hdir : w = true → ¬ e.opensDir s) :
    Triple (fun t => t = s ∧ Idle e.proc w q x t) (e.call.run e.proc e.user) (fun _ => Idle e.proc w q x) (Fine q) := by
  obtain ⟨p, u, call⟩ := e
  have hW : ∀ T : Tables, ∀ i, T.written w i → 0 < T.owners i + x i := fun T => Tables.written_plus hx
  have hdrop : ∀ {m : M ℤ}, Triple (Idle p w q x) m (fun _ => Idle p w q x) (Fine q) →
      Triple (fun t => t = s ∧ Idle p w q x t) m (fun _ => Idle p w q x) (Fine q) := fun h => h.pre fun _ h => h.2
  cases call with
  | «open» path omode =>
    exact sysOpen_spec hx u path omode s fun hw h => hdir hw ⟨path, omode, rfl, h⟩
  | symlink target path tr pr => exact hdrop (idle_of_ctx fun T _ => sysSymlink_ctx (hW T) hx u target path tr pr)
  | close fd => exact hdrop (sysClose_spec hx fd)
  | dup fd => exact hdrop (sysDup_spec fd)
  | read fd n answer => exact hdrop (sysRead_spec fd n answer)
  | write fd bs answer => exact hdrop (sysWrite_spec fd bs answer)
  | fstat fd => exact hdrop (sysFstat_spec fd)
  | pipe fds mem => exact hdrop (sysPipe_spec fds mem)
  | link old new => exact hdrop (idle_of_ctx fun T _ => sysLink_ctx (hW T) hx u old new)
  | unlink path => exact hdrop (idle_of_ctx fun T _ => sysUnlink_ctx (hW T) hx u path)
  | mkdir path => exact hdrop (idle_of_ctx fun T _ => makeNode_ctx (hW T) hx u path .dir 0 0)
  | mknod path major minor => exact hdrop (idle_of_ctx fun T _ => makeNode_ctx (hW T) hx u path .dev major minor)
  | chdir path => exact hdrop (sysChdir_spec hx u path)
  | exec path argv => exact absurd rfl (hexec path argv)
  | fork => exact hdrop (fork_spec hx)
  | exit => exact hdrop (exit_spec hx)
  | reap r => exact hdrop (reap_spec r)

/-- What a step does. -/
theorem step_run (h : step s e = some (.ok s')) : ∃ r, e.call.run e.proc e.user s = (.ok r, s') := by
  unfold step at h
  split at h
  · match hrun : e.call.run e.proc e.user s with
    | (.ok r, s₁) =>
      rw [hrun] at h
      cases h
      exact ⟨r, rfl⟩
    | (.error f, s₁) =>
      rw [hrun] at h
      cases h
  · cases h

/-- A step of a call other than `sys_exec`. -/
theorem step_idle (hx : ∀ i, 0 ≤ x i) (hexec : ∀ path argv, e.call ≠ .exec path argv) (hdir : w = true → ¬ e.opensDir s)
    (h : Idle p w q x s) (hstep : step s e = some (.ok s')) : Idle p w q x s' := by
  obtain ⟨r, hrun⟩ := step_run hstep
  exact ((call_spec hx hexec hdir).ok ⟨rfl, h.proc e.proc⟩ hrun).proc p

/-- Some references more than there should be, but never fewer. -/
def Counted (p : Slot) (w : Bool) (s : State) : Prop := ∃ x, (∀ i, 0 ≤ x i) ∧ Idle p w (fun _ => True) x s

theorem step_counted (hdir : w = true → ¬ e.opensDir s) (h : Counted p w s) (hstep : step s e = some (.ok s')) :
    Counted p w s' := by
  obtain ⟨x, hx, h⟩ := h
  by_cases hexec : ∃ path argv, e.call = .exec path argv
  · obtain ⟨path, argv, hcall⟩ := hexec
    obtain ⟨r, hrun⟩ := step_run hstep
    rw [hcall] at hrun
    obtain ⟨x', hle, h'⟩ := (sysExec_spec trivial hx e.user path argv).ok (h.proc e.proc) hrun
    exact ⟨x', fun i => (hx i).trans (hle i), h'.proc p⟩
  · refine ⟨x, hx, step_idle hx (fun path argv hcall => hexec ⟨path, argv, hcall⟩) hdir h hstep⟩

/-- **Between calls nothing is locked, and no reference is missing.** -/
theorem reachable_counted {es : List Event} (h : machine.run (boot disk devsw) es = some (.ok s)) :
    Counted initproc false s :=
  Machine.run_inv (M := machine) (I := Counted initproc false) ⟨fun _ => 0, fun _ => le_rfl, boot_idle trivial⟩
    (fun _ _ _ hI hstep => step_counted (by simp) hI hstep) h

/-! ## References -/

/-- How many open files refer to the inode, and how many processes are in it. -/
def State.holders (s : State) (i : Iref) : ℕ :=
  (Finset.univ.filter fun f : Fref =>
    0 < (s.tables.file f).ref ∧ (s.tables.file f).type = .inode ∧ (s.tables.file f).ip = i).card +
  (Finset.univ.filter fun r : Slot => s.tables.cwd r = some i).card

theorem owner_inl_iff (T : Tables) (f : Fref) (i : Iref) :
    T.owner (.inl f) = some i ↔ 0 < (T.file f).ref ∧ (T.file f).type = .inode ∧ (T.file f).ip = i := by
  rw [Tables.owner_inl]
  unfold File.owned
  split
  · rename_i h
    simp [h.1, h.2]
  · rename_i h
    constructor
    · intro hn
      cases hn
    · rintro ⟨href, htype, -⟩
      exact absurd ⟨href, htype⟩ h

theorem holders_eq (s : State) (i : Iref) : s.holders i = s.tables.owners i := by
  have hsum : s.tables.owners i =
      (∑ f : Fref, if s.tables.owner (.inl f) = some i then 1 else 0) +
        ∑ r : Slot, if s.tables.owner (.inr r) = some i then 1 else 0 := by
    unfold Tables.owners refs
    rw [Finset.card_filter, Fintype.sum_sum_type]
  rw [hsum, ← Finset.card_filter, ← Finset.card_filter]
  unfold State.holders
  simp only [owner_inl_iff]
  rfl

/-- Whether the path leads to an inode. -/
def lookup (p : Slot) (u : User) (path : BitVec 32) : M Bool := do
  let r ← namei p (str u path)
  pure r.isSome

/-- The call is `sys_exec`, and its path leads to an inode. -/
def Event.execFinds (s : State) (e : Event) : Prop := ∃ path argv addr, e.call = .exec path argv ∧
  argstr e.user path = some addr ∧ (lookup e.proc e.user addr s).1 = .ok true

/-- `sys_exec` leaves a reference behind when it finds its path, and only then. -/
theorem sysExec_exact (hq : q true) (hx : ∀ i, 0 ≤ x i) (u : User) (path : Arg) (argv : Bool) :
    Triple (fun t => t = s ∧ Idle p w q x t) (sysExec p u path argv)
      (fun _ t => Event.execFinds s ⟨p, u, .exec path argv⟩ ∧ (∃ ip, Idle p w q (plus x ip) t) ∨
        ¬ Event.execFinds s ⟨p, u, .exec path argv⟩ ∧ Idle p w q x t) (Any q) := by
  refine Triple.pre (A := fun t => ∃ T, Tidy T ∧ (t = s ∧ Ctx p T (T.written w) q x ∅ false t)) ?_ ?_
  · refine Triple.exists_pre fun T => Triple.of_fact fun hT => ?_
    unfold sysExec
    split
    · rename_i hpath
      refine Triple.pure fun t h => .inr ⟨?_, T, hT, trivial, h.2⟩
      rintro ⟨path', argv', addr, hcall, haddr, -⟩
      cases hcall
      rw [hpath] at haddr
      cases haddr
    rename_i addr haddr
    refine Triple.pre (A := fun t => lookup p u addr t = lookup p u addr s ∧ Ctx p T (T.written w) q x ∅ false t) ?_
      fun t h => ⟨by rw [h.1], h.2⟩
    refine Triple.bind_with (any_of_fine (namei_spec (fun h => absurd hq h) (Tables.written_plus hx) hx (str u addr)))
      fun r => ?_
    match r with
    | none =>
      refine Triple.pure fun t h => .inr ⟨?_, T, hT, trivial, h.2⟩
      rintro ⟨path', argv', addr', hcall, haddr', hfound⟩
      cases hcall
      obtain rfl : addr = addr' := Option.some.inj (haddr.symm.trans haddr')
      rw [← h.1] at hfound
      cases hfound
    | some ip =>
      refine Triple.fact (c := (lookup p u addr s).1 = .ok true) (fun t h => ?_) fun hfound => ?_
      · rw [← h.1]
        rfl
      · refine ((execFound_spec hq hT hx u addr argv).post fun _ t h => ?_).pre fun t h => h.2
        exact .inl ⟨⟨path, argv, addr, rfl, haddr, hfound⟩, ip, h⟩
  · rintro t ⟨ht, T, hT, -, h⟩
    exact ⟨T, hT, ht, h⟩

/-- The count of every entry of the cache is exact. -/
def Exact (s : State) : Prop := ∀ i, (s.inode i).ref = s.holders i

theorem Idle.exact_iff (h : Idle p w q x s) : Exact s ↔ ∀ i, x i = 0 := by
  obtain ⟨T, -, -, h⟩ := h
  have hi : ∀ i, (s.inode i).ref = s.holders i + x i := fun i => by rw [holders_eq, h.tables, h.refs i]
  constructor
  · intro hexact i
    have h1 := hexact i
    have h2 := hi i
    omega
  · intro hx i
    rw [hi i, hx i, add_zero]

/-- **Reference counts stay exact** over one call, unless it is a `sys_exec` that finds its path. -/
theorem exact_step (h : Idle p false (fun _ => True) (fun _ => 0) s) (hstep : step s e = some (.ok s')) :
    Exact s' ↔ ¬ e.execFinds s := by
  have hx : ∀ i : Iref, (0 : ℤ) ≤ (fun _ => 0) i := fun _ => le_rfl
  by_cases hexec : ∃ path argv, e.call = .exec path argv
  · obtain ⟨path, argv, hcall⟩ := hexec
    obtain ⟨r, hrun⟩ := step_run hstep
    have he : e = ⟨e.proc, e.user, .exec path argv⟩ := by rw [← hcall]
    rw [hcall] at hrun
    rcases (sysExec_exact trivial hx e.user path argv).ok ⟨rfl, h.proc e.proc⟩ hrun with ⟨hf, ip, h'⟩ | ⟨hf, h'⟩
    · rw [← he] at hf
      rw [h'.exact_iff]
      refine ⟨fun hzero => ?_, fun hn => absurd hf hn⟩
      have hip := hzero ip
      rw [plus_self] at hip
      omega
    · rw [← he] at hf
      rw [h'.exact_iff]
      exact ⟨fun _ => hf, fun _ _ => rfl⟩
  · have h' := step_idle hx (fun path argv hcall => hexec ⟨path, argv, hcall⟩) (by simp) h hstep
    rw [h'.exact_iff]
    refine ⟨fun _ hf => ?_, fun _ _ => rfl⟩
    obtain ⟨path, argv, -, hcall, -⟩ := hf
    exact hexec ⟨path, argv, hcall⟩

/-- **Every inode has as many references as files and processes refer to it**, in every run in
which no `sys_exec` finds its path. -/
theorem refs_exact (disk : ℕ → Dinode) (devsw : ℕ → Option (ℕ → Bytes)) (es : List Event) (s : State)
    (hG : machine.Guarded (fun s e => ¬ e.execFinds s) (boot disk devsw) es)
    (h : machine.run (boot disk devsw) es = some (.ok s)) (i : Iref) : (s.inode i).ref = s.holders i := by
  have hidle : Idle initproc false (fun _ => True) (fun _ => 0) s := by
    refine Machine.guarded_inv (M := machine) (boot_idle trivial) (fun s e s' hI hfinds hstep => ?_) hG h
    have hexact := (exact_step hI hstep).2 hfinds
    obtain ⟨x, hx, h'⟩ := step_counted (by simp) ⟨_, fun _ => le_rfl, hI⟩ hstep
    have hzero : x = fun _ => 0 := funext (h'.exact_iff.1 hexact)
    rwa [hzero] at h'
  exact hidle.exact_iff.2 (fun _ => rfl) i

end

/-- A disk with one file, `a`. -/
def oneFile : ℕ → Dinode
  | 1 => ⟨.dir, 0, 0, 1, dirent 1 [46] ++ dirent 1 [46, 46] ++ dirent 2 [97]⟩
  | 2 => ⟨.file, 0, 0, 1, []⟩
  | _ => noDinode

/-- The memory of a process that has the string `a` at address 0. -/
def userA : User := ⟨4096, fun addr => if addr = 0 then 97 else 0⟩

theorem refs_exact_open : ∃ es s, machine.run (boot oneFile fun _ => none) es = some (.ok s) ∧
    (s.tables.ofile initproc 0).isSome ∧ (s.inode 1).ref = s.holders 1 := by
  have hrun : ∃ s, machine.run (boot oneFile fun _ => none) [⟨initproc, userA, .open (some 0) 0⟩] = some (.ok s) ∧
      (s.tables.ofile initproc 0).isSome = true := Machine.run_of_reaches (by decide)
  obtain ⟨s, hs, hopen⟩ := hrun
  refine ⟨_, s, hs, hopen, refs_exact oneFile (fun _ => none) _ s (Machine.guarded_of_mem ?_) hs 1⟩
  intro e he s
  obtain rfl : e = ⟨initproc, userA, .open (some 0) 0⟩ := by simpa using he
  rintro ⟨path, argv, addr, hcall, -⟩
  cases hcall

/-- `sys_exec` looks the path up and never puts the inode back. -/
theorem exec_leaks : ¬ ∀ (disk : ℕ → Dinode) (devsw : ℕ → Option (ℕ → Bytes)) (es : List Event) (s : State),
    machine.run (boot disk devsw) es = some (.ok s) → ∀ i, (s.inode i).ref = s.holders i := by
  intro hall
  have hrun : ∃ s, machine.run (boot oneFile fun _ => none) [⟨initproc, userA, .exec (some 0) true⟩] =
      some (.ok s) ∧ (s.inode 1).ref ≠ s.holders 1 := Machine.run_of_reaches (by decide)
  obtain ⟨s, hs, hne⟩ := hrun
  exact hne (hall _ _ _ s hs 1)

/-! ## The protocol -/

section

variable {p : Slot} {T : Tables} {W : Iref → Prop} {q : Bool → Prop} {w : Bool} {x : Iref → ℤ} {L V : Finset Iref}
variable {s : State} {e : Event}

/-- The call keeps to the protocol of the inode cache: no field of an inode is looked at without
its lock, or before it is valid; nothing is unlocked that is not locked; `namei` and `iput` run
inside a transaction. -/
def Respects (s : State) (e : Event) : Prop :=
  let r := e.call.run e.proc e.user { s with broken := false }
  r.2.broken = false ∧ r.1 ≠ .error .iunlock

def Dirty (b : Bool) : Prop := b = true

def Clean (b : Bool) : Prop := b = false

theorem inside_outside : Triple (Core p T W q x L V false) inside
    (fun _ => Core p T W Dirty x L V false) (Any Dirty) := by
  refine Triple.modify fun s h => ?_
  rw [if_neg (by simp [h.inOp])]
  exact ⟨h.tables, h.refs, h.lock, h.valid, h.keep, h.uniq, h.typed, h.inOp, rfl⟩

/-- **`sys_exec` breaks the protocol** as soon as it has a path: it calls `namei` outside a transaction. -/
theorem sysExec_breaks (hx : ∀ i, 0 ≤ x i) {u : User} {path : Arg} {addr : BitVec 32} (haddr : argstr u path = some addr)
    (argv : Bool) : Triple (Idle p w q x) (sysExec p u path argv) (fun _ s => s.broken = true)
      (fun _ s => s.broken = true) := by
  have hq : Dirty true := rfl
  refine Triple.exists_pre fun T => Triple.of_fact fun hT => Triple.of_fact fun _ => ?_
  have hW := Tables.written_plus (T := T) (w := w) hx
  unfold sysExec
  rw [haddr]
  have hnamei : Triple (Ctx p T (T.written w) q x ∅ false) (namei p (str u addr))
      (fun r => Found p T (T.written w) Dirty x ∅ ∅ false r) (Any Dirty) := by
    have hwalk : ∀ ip, Triple (Ctx p T (T.written w) Dirty (plus x ip) ∅ false)
        (walk p false (str u addr).torn (elems (str u addr)) ip)
        (fun r => Found p T (T.written w) Dirty x ∅ ∅ false (r.map Prod.fst)) (Fine Dirty) := fun ip =>
      walk_spec (fun h => absurd hq h) hW false (str u addr).torn (elems (str u addr)) ip
    refine Triple.bind (Triple.bind inside_outside fun _ => ?_) fun _ => Triple.pure fun _ h => h
    exact any_of_fine (Triple.bind (start_spec hW hx (str u addr)) hwalk)
  refine Triple.bind hnamei fun r => ?_
  match r with
  | none => exact Triple.pure fun _ h => h.monitor
  | some ip => exact (execFound_spec hq hT hx u addr argv).post fun _ s h => h.monitor

/-- **Every call keeps to the protocol, but `sys_exec`**, in every state that runs reach. -/
theorem respects_iff (disk : ℕ → Dinode) (devsw : ℕ → Option (ℕ → Bytes)) (es : List Event) (s : State)
    (h : machine.run (boot disk devsw) es = some (.ok s)) (e : Event) : Respects s e ↔ ¬ e.execs := by
  obtain ⟨x, hx, hidle⟩ := reachable_counted h
  have hfresh : Idle e.proc false Clean x { s with broken := false } :=
    (hidle.fresh Clean rfl).proc e.proc
  constructor
  · rintro ⟨hclean, -⟩ ⟨path, argv, addr, hcall, haddr⟩
    have hbreaks := sysExec_breaks (p := e.proc) (w := false) hx haddr argv _ hfresh
    rw [hcall] at hclean
    have hrun : Call.run e.proc e.user (.exec path argv) = sysExec e.proc e.user path argv := rfl
    rw [hrun] at hclean
    revert hbreaks hclean
    match sysExec e.proc e.user path argv { s with broken := false } with
    | (.ok _, s') => exact fun hc hb => Bool.false_ne_true (hc.symm.trans hb)
    | (.error _, s') => exact fun hc hb => Bool.false_ne_true (hc.symm.trans hb)
  · intro hexec
    unfold Respects
    by_cases hcall : ∃ path argv, e.call = .exec path argv
    · -- the path cannot be read
      obtain ⟨path, argv, hcall⟩ := hcall
      have hnone : argstr e.user path = none := by
        by_contra hne
        obtain ⟨addr, haddr⟩ := Option.ne_none_iff_exists'.1 hne
        exact hexec ⟨path, argv, addr, hcall, haddr⟩
      have hrun : e.call.run e.proc e.user = pure (-1) := by
        rw [hcall]
        show sysExec e.proc e.user path argv = _
        unfold sysExec
        rw [hnone]
      rw [hrun]
      exact ⟨rfl, by simp [pure]⟩
    · have hspec := call_spec (w := false) hx (fun path argv hc => hcall ⟨path, argv, hc⟩) (by simp) _
        ⟨rfl, hfresh⟩
      revert hspec
      match e.call.run e.proc e.user { s with broken := false } with
      | (.ok _, s') => exact fun hs => ⟨hs.monitor, by simp⟩
      | (.error f, s') => exact fun hs => ⟨hs.2, fun hf => hs.1 (by simpa using hf)⟩

end

theorem respects_open : Respects (boot oneFile fun _ => none) ⟨initproc, userA, .open (some 0) 0⟩ :=
  (respects_iff oneFile (fun _ => none) [] _ rfl _).2 (by rintro ⟨path, argv, addr, hcall, -⟩; cases hcall)

theorem exec_breaks : ¬ ∀ (disk : ℕ → Dinode) (devsw : ℕ → Option (ℕ → Bytes)) (es : List Event) (s : State),
    machine.run (boot disk devsw) es = some (.ok s) → ∀ e, Respects s e := by
  intro hall
  have hrespects := hall oneFile (fun _ => none) [] _ rfl ⟨initproc, userA, .exec (some 0) true⟩
  revert hrespects
  unfold Respects
  decide

end Xv6.Fs
