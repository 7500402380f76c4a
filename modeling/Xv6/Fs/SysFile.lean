import Xv6.Fs.Table

/-!
# What the system calls keep

`Idle x`: between calls no inode is locked, no transaction is open, and the cache counts what the
open files and the current directories hold, and `x` besides. Every call but `sys_exec` keeps it.

* `create_spec`: `create` returns one locked inode, with a reference.
* `followLinks_spec`: the loop over symlinks goes from one locked inode to the next.
* `openFile_spec`: the reference goes over to the file.
* `sysExec_spec`: what `sys_exec` leaves behind.
-/

namespace Xv6.Fs

open Prog

/-- Between calls. -/
def Idle (p : Slot) (w : Bool) (q : Bool → Prop) (x : Iref → ℤ) : State → Prop :=
  Held p w q (fun _ => True) x ∅ false

section

variable {p : Slot} {T : Tables} {W : Iref → Prop} {q : Bool → Prop} {w : Bool}
variable {x : Iref → ℤ} {L V : Finset Iref} {op : Bool} {ip : Iref}

theorem stackStr_spec (stack : Bytes) : Triple (Core p T W q x L V op) (stackStr stack)
    (fun _ => Core p T W q x L V op) (Fine q) :=
  Triple.ite (fun _ => Triple.pure fun _ h => h) fun _ => Triple.throw fun s h => h.fine (by simp)

/-! ## Creation -/

/-- The new inode, if it is a file, must not turn into a directory. -/
def Created (p : Slot) (T : Tables) (W : Iref → Prop) (q : Bool → Prop) (x : Iref → ℤ) (type : IType)
    (r : Option Iref) (s : State) : Prop :=
  match r with
  | none => Ctx p T W q x ∅ true s
  | some ip => Ctx p T (fun i => W i ∨ (type = .file ∧ i = ip)) q (plus x ip) (insert ip ∅) true s

section

variable (hW : ∀ i, W i → 0 < T.owners i + x i) (hx : ∀ i, 0 ≤ x i)
include hW hx

/-- The call has a reference to the entry that it wants to stay. -/
theorem also_pos (ip : Iref) (c : Prop) : ∀ i, W i ∨ (c ∧ i = ip) → 0 < T.owners i + plus x ip i := by
  rintro i (hi | ⟨-, rfl⟩)
  · exact more hW ip i hi
  · have hxi := hx i
    rw [plus_self]
    omega

/-- **`create`** returns a locked inode, or nothing. -/
theorem create_spec (path : Path) (type : IType) (major minor : ℕ) :
    Triple (Ctx p T W q x ∅ true) (create p path type major minor) (Created p T W q x type) (Fine q) := by
  have hop : ¬ q true → true = true := fun _ => rfl
  refine Triple.bind (nameiparent_spec hop hW hx path) fun r => ?_
  match r with
  | none => exact Triple.pure fun _ h => h
  | some (dp, name) =>
    refine Triple.bind ilock_spec fun _ => Triple.of_fact fun hdp => ?_
    have hmem := Finset.mem_insert_self dp ∅
    refine Triple.bind (dirlookup_spec (more hW dp) hmem hmem name) fun r => ?_
    match r with
    | some (ip, off) =>
      -- the name exists
      show Triple (Ctx p T W q (plus (plus x dp) ip) (insert dp ∅) true) _ _ _
      rw [plus_comm x dp ip]
      refine Triple.bind (put_spec hop (more hW ip dp) hdp) fun _ => ?_
      refine Triple.bind ilock_spec fun _ => Triple.of_fact fun hip => ?_
      have hmem := Finset.mem_insert_self ip ∅
      refine Triple.bind (examine_spec hmem hmem) fun _ => ?_
      refine Triple.bind (getInode_spec _) fun y => Triple.ite (fun hy => ?_) fun _ => ?_
      · refine Triple.pure ?_
        rintro s ⟨h, rfl⟩
        refine h.also hmem fun htype => ?_
        rcases hy with hy | hy
        · simp [hy.2]
        · rw [htype] at hy
          cases hy
      · refine Triple.pre (A := Ctx p T W q (plus x ip) (insert ip ∅) true) ?_ fun _ h => h.1
        exact Triple.bind (put_spec hop (hW ip) hip) fun _ => Triple.pure fun _ h => h
    | none =>
      -- a new inode
      refine Triple.bind (((ialloc_spec (more hW dp) type).and (ialloc_onDisk type)).pre fun s h => ⟨h, trivial⟩)
        fun ip => ?_
      rw [plus_comm x dp ip]
      refine Triple.bind (R := fun _ s => ip ∉ insert dp (∅ : Finset Iref) ∧
        Ctx p T (fun i => W i ∨ (type = .file ∧ i = ip)) q (plus (plus x ip) dp) (insert ip (insert dp ∅)) true s)
        ?_ fun _ => Triple.of_fact fun hip => ?_
      · refine (ilock_spec.and (ilock_onDisk type)).post fun _ s h => ?_
        obtain ⟨⟨hip, h⟩, htype⟩ := h
        have hmem := Finset.mem_insert_self ip (insert dp ∅)
        refine ⟨hip, h.also hmem fun hfile => ?_⟩
        rw [h.type_eq hmem htype, hfile]
        simp
      have hW' := more (also_pos hW hx ip (type = .file)) dp
      have hmem := Finset.mem_insert_self ip (insert dp ∅)
      have hmem' : dp ∈ insert ip (insert dp (∅ : Finset Iref)) := by simp
      refine Triple.bind (setInode_spec fun _ => ⟨rfl, rfl⟩) fun _ => ?_
      refine Triple.bind (iupdate_spec hmem hmem) fun _ => ?_
      refine Triple.bind (getInode_any _) fun y => Triple.bind (getInode_any _) fun z => ?_
      refine Triple.bind (Triple.when fun _ => ?_) fun _ => ?_
      · refine Triple.bind (examine_spec hmem' hmem') fun _ => ?_
        refine Triple.bind (setInode_spec fun _ => ⟨rfl, rfl⟩) fun _ => ?_
        refine Triple.bind (iupdate_spec hmem' hmem') fun _ => ?_
        refine Triple.bind (dirlink_spec hop hW' hmem _ _) fun _ => ?_
        refine Triple.bind (assert_spec (by simp)) fun _ => ?_
        refine Triple.bind (dirlink_spec hop hW' hmem _ _) fun _ => ?_
        exact assert_spec (by simp)
      · refine Triple.bind (dirlink_spec hop hW' hmem' _ _) fun _ => ?_
        refine Triple.bind (assert_spec (by simp)) fun _ => ?_
        have hdp' : dp ∉ insert ip (∅ : Finset Iref) := by
          simpa [eq_comm] using hip
        rw [Finset.insert_comm]
        exact Triple.bind (put_spec hop (also_pos hW hx ip (type = .file) dp) hdp') fun _ => Triple.pure fun _ h => h

/-! ## Symlinks -/

/-- The inode that a chain of symlinks ends at is locked. -/
def Followed (p : Slot) (T : Tables) (W : Iref → Prop) (q : Bool → Prop) (x : Iref → ℤ)
    (r : Option (User × Iref × ℕ)) (s : State) : Prop :=
  match r with
  | none => Ctx p T W q x ∅ true s
  | some (_, ip, _) => Ctx p T W q (plus x ip) (insert ip ∅) true s

/-- **The loop over symlinks** has one inode locked at a time. -/
theorem followLinks_spec (path : BitVec 32) (k : ℕ) : ∀ u ip, Triple (Ctx p T W q (plus x ip) (insert ip ∅) true)
    (followLinks p path k u ip) (Followed p T W q x) (Fine q) := by
  induction k with
  | zero =>
    intro u ip
    have hmem := Finset.mem_insert_self ip ∅
    exact Triple.bind (examine_spec hmem hmem) fun _ => Triple.pure fun _ h => h
  | succ k ih =>
    intro u ip
    have hop : ¬ q true → true = true := fun _ => rfl
    have hmem := Finset.mem_insert_self ip ∅
    refine Triple.bind (examine_spec hmem hmem) fun _ => Triple.bind (getInode_any _) fun y => ?_
    refine Triple.ite (fun _ => Triple.pure fun _ h => h) fun _ => ?_
    refine Triple.bind (readi_spec hmem hmem _ _) fun head => ?_
    refine Triple.bind (assert_spec (by simp)) fun _ => ?_
    refine Triple.bind (readi_spec hmem hmem _ _) fun bs => ?_
    refine Triple.bind (assert_spec (by simp)) fun _ => ?_
    refine Triple.bind (put_spec hop (hW ip) (Finset.notMem_empty ip)) fun _ => ?_
    refine Triple.bind (namei_spec hop hW hx _) fun r => ?_
    match r with
    | none => exact Triple.pure fun _ h => h
    | some ip => exact Triple.bind ilock_spec fun _ => Triple.of_fact fun _ => ih _ ip

end

/-! ## Opening -/

/-- The file gets the reference. -/
def opened (omode : BitVec 32) (ip : Iref) (y : File) : File :=
  { y with type := .inode, ip := ip, off := 0, readable := !has omode O_WRONLY,
           writable := has omode O_WRONLY || has omode O_RDWR }

/-- The entries that must stay while a file is opened. -/
def Opening (T : Tables) (w : Bool) (omode : BitVec 32) (ip : Iref) (i : Iref) : Prop :=
  T.written w i ∨ ((w = true ∧ (has omode O_WRONLY || has omode O_RDWR) = true) ∧ i = ip)

theorem opened_spec {omode : BitVec 32} {f : Fref} {T₀ : Tables} (hT : Tidy T) (hf : T.fresh f)
    (hT₀ : ∀ i, T.written w i → T₀.written w i) :
    Triple (Ctx p T (Opening T₀ w omode ip) q (plus x ip) ∅ false) (setFile f (opened omode ip))
      (fun _ => Idle p w q x) (Fine q) := by
  refine Triple.modify fun s h => ⟨T.setFile f (opened omode ip), hT.setFile fun h0 => ?_, trivial,
    h.retable (fun T => T.setFile f (opened omode ip)) (fun i => ?_) fun i hi => ?_⟩
  · have h1 : (T.file f).ref = 0 := h0
    have h2 := hf.1
    omega
  · have hswap' : ((T.setFile f (opened omode ip)).owners i : ℤ) + _ = _ :=
      Tables.owners_swap (.inl f) (fun o ho => Tables.owner_setFile_ne T _ ho) i
    have howned : (opened omode ip (T.file f)).owned = some ip := by
      unfold File.owned
      rw [if_pos]
      · rfl
      · refine ⟨?_, rfl⟩
        show 0 < (T.file f).ref
        rw [hf.1]
        omega
    rw [Tables.owner_setFile, howned, Tables.owner_inl, File.owned_none (.inr hf.2)] at hswap'
    have hnone : (if (none : Option Iref) = some i then (1 : ℤ) else 0) = 0 := if_neg (by simp)
    rw [hnone, add_zero] at hswap'
    rw [hswap']
    by_cases hi : i = ip
    · subst hi
      rw [if_pos rfl, plus_self]
      omega
    · rw [if_neg (by simpa [eq_comm] using hi), plus_ne x hi]
      omega
  · obtain ⟨hw, f', hf', hwr⟩ := hi
    by_cases hff : f' = f
    · subst hff
      rw [Tables.setFile_self] at hwr
      rw [Tables.owner_setFile] at hf'
      have hip : ip = i := by
        unfold File.owned at hf'
        split at hf'
        · exact Option.some.inj hf'
        · cases hf'
      exact .inr ⟨⟨hw, hwr⟩, hip.symm⟩
    · rw [Tables.owner_setFile_ne T _ (by simp [hff])] at hf'
      rw [Tables.setFile_ne T _ hff] at hwr
      exact .inl (hT₀ i ⟨hw, f', hf', hwr⟩)

/-- **The end of `sys_open`**: the file has the reference, or nobody. -/
theorem openFile_spec (hT : Tidy T) (hx : ∀ i, 0 ≤ x i) (omode : BitVec 32) (ip : Iref) :
    Triple (Ctx p T (Opening T w omode ip) q (plus x ip) (insert ip ∅) true) (openFile p omode ip)
      (fun _ => Idle p w q x) (Fine q) := by
  have hop : ¬ q true → true = true := fun _ => rfl
  have hbad : ∀ T', Tidy T' → (∀ i, T'.written w i → T.written w i) →
      Triple (Ctx p T' (Opening T w omode ip) q (plus x ip) (insert ip ∅) true)
        (do iunlockput p ip; end_op; pure (-1) : M ℤ) (fun _ => Idle p w q x) (Fine q) := by
    intro T' hT' hwr
    refine Triple.pre (A := Ctx p T' (T'.written w) q (plus x ip) (insert ip ∅) true) ?_ fun s h =>
      h.weaken fun i hi => .inl (hwr i hi)
    refine Triple.bind (put_spec hop (Tables.written_plus hx ip) (Finset.notMem_empty ip)) fun _ => ?_
    exact Triple.bind end_op_spec fun _ => Triple.pure fun s h => ⟨T', hT', trivial, h⟩
  refine Triple.bind (filealloc_spec hT) fun r => ?_
  match r with
  | none => exact hbad T hT fun _ => id
  | some f =>
    refine Triple.of_fact fun href => ?_
    have htype := hT.free f href
    set T1 := T.setFile f fun y => { y with ref := 1 }
    have hT1 : Tidy T1 := hT.setFile fun h0 => by cases h0
    have hfresh : T1.fresh f := by
      unfold Tables.fresh
      rw [Tables.setFile_self]
      exact ⟨rfl, by simp [htype]⟩
    have hwr : ∀ i, T1.written w i → T.written w i := fun i =>
      Tables.written_setFile (by rw [File.owned_none (.inl href), File.owned_none (.inr (by simp [htype]))]) fun _ => rfl
    refine Triple.bind (fdalloc_spec f) fun r => ?_
    match r with
    | none =>
      refine Triple.bind (fileclose_last hfresh.1 hfresh.2) fun _ => ?_
      refine hbad _ (hT1.setFile fun _ => rfl) fun i hi => hwr i (Tables.written_setFile ?_ ?_ hi)
      · rw [File.owned_none (.inl rfl), File.owned_none (.inr hfresh.2)]
      · exact fun _ => rfl
    | some fd =>
      refine Triple.bind (unlock_spec (Finset.notMem_empty ip)) fun _ => Triple.bind end_op_spec fun _ => ?_
      have hT2 : Tidy (T1.setOfile p fd (some f)) := hT1.same ⟨rfl, rfl⟩ rfl
      exact Triple.bind (opened_spec hT2 hfresh hwr) fun _ => Triple.pure fun _ h => h

/-! ## Calls that leave the tables alone -/

/-- The end of a call that is given up. -/
theorem giveUp_spec {α : Type} (a : α) : Triple (Core p T W q x L V op) (do end_op; pure a)
    (fun _ => Core p T W q x L V false) (Fine q) :=
  Triple.bind end_op_spec fun _ => Triple.pure fun _ h => h

theorem idle_of_ctx {m : M ℤ} (h : ∀ T, Tidy T → Triple (Ctx p T (T.written w) q x ∅ false) m
    (fun _ => Ctx p T (T.written w) q x ∅ false) (Fine q)) :
    Triple (Idle p w q x) m (fun _ => Idle p w q x) (Fine q) := by
  refine Triple.exists_pre fun T => Triple.of_fact fun hT => Triple.of_fact fun _ => ?_
  exact (h T hT).post fun _ s h => ⟨T, hT, trivial, h⟩

section

variable (hW : ∀ i, W i → 0 < T.owners i + x i) (hx : ∀ i, 0 ≤ x i)
include hW

theorem linkBad_spec : Triple (Ctx p T W q (plus x ip) ∅ true) (linkBad p ip) (fun _ => Ctx p T W q x ∅ false)
    (Fine q) := by
  have hop : ¬ q true → true = true := fun _ => rfl
  have hmem := Finset.mem_insert_self ip ∅
  refine Triple.bind ilock_spec fun _ => Triple.of_fact fun hip => ?_
  refine Triple.bind (examine_spec hmem hmem) fun _ => ?_
  refine Triple.bind (setInode_spec fun _ => ⟨rfl, rfl⟩) fun _ => ?_
  refine Triple.bind (iupdate_spec hmem hmem) fun _ => ?_
  exact Triple.bind (put_spec hop (hW ip) hip) fun _ => giveUp_spec _

include hx

theorem sysLink_ctx (u : User) (old new : Arg) : Triple (Ctx p T W q x ∅ false) (sysLink p u old new)
    (fun _ => Ctx p T W q x ∅ false) (Fine q) := by
  have hop : ¬ q true → true = true := fun _ => rfl
  unfold sysLink
  split
  · refine Triple.bind begin_op_spec fun _ => Triple.bind (namei_spec hop hW hx _) fun r => ?_
    match r with
    | none => exact giveUp_spec _
    | some ip =>
      have hmem := Finset.mem_insert_self ip ∅
      refine Triple.bind ilock_spec fun _ => Triple.of_fact fun hip => ?_
      refine Triple.bind (examine_spec hmem hmem) fun _ => Triple.bind (getInode_any _) fun y => ?_
      refine Triple.ite (fun _ => Triple.bind (put_spec hop (hW ip) hip) fun _ => giveUp_spec _) fun _ => ?_
      refine Triple.bind (setInode_spec fun _ => ⟨rfl, rfl⟩) fun _ => ?_
      refine Triple.bind (iupdate_spec hmem hmem) fun _ => ?_
      refine Triple.bind (unlock_spec hip) fun _ => ?_
      have hx' : ∀ i, 0 ≤ plus x ip i := nonneg_plus hx ip
      refine Triple.bind (nameiparent_spec hop (more hW ip) hx' _) fun r => ?_
      match r with
      | none => exact linkBad_spec hW
      | some (dp, name) =>
        have hmem' := Finset.mem_insert_self dp ∅
        refine Triple.bind ilock_spec fun _ => Triple.of_fact fun hdp => ?_
        refine Triple.bind (dirlink_spec hop (more (more hW ip) dp) hmem' name _) fun linked => ?_
        refine Triple.ite (fun _ => ?_) fun _ => ?_
        · refine Triple.bind (put_spec hop (more hW ip dp) hdp) fun _ => ?_
          exact Triple.bind (iput_spec hop (hW ip)) fun _ => giveUp_spec _
        · exact Triple.bind (put_spec hop (more hW ip dp) hdp) fun _ => linkBad_spec hW
  · exact Triple.pure fun _ h => h

omit hx hW in
theorem emptyDirLoop_spec {dp : Iref} (hL : dp ∈ L) (hV : dp ∈ V) (offs : List ℕ) :
    Triple (Core p T W q x L V op) (emptyDirLoop p dp offs) (fun _ => Core p T W q x L V op) (Fine q) := by
  induction offs with
  | nil => exact Triple.pure fun _ h => h
  | cons off offs ih =>
    refine Triple.bind (readDirent_spec hL hV off (by simp)) fun de => ?_
    exact Triple.ite (fun _ => Triple.pure fun _ h => h) fun _ => ih

omit hx hW in
theorem isdirempty_spec {dp : Iref} (hL : dp ∈ L) (hV : dp ∈ V) :
    Triple (Core p T W q x L V op) (isdirempty p dp) (fun _ => Core p T W q x L V op) (Fine q) :=
  Triple.bind (examine_spec hL hV) fun _ => Triple.bind (getInode_any _) fun _ => emptyDirLoop_spec hL hV _

omit hx in
theorem unlinkEntry_spec {dp : Iref} (off : ℕ) (hdp : dp ∉ insert ip (∅ : Finset Iref)) :
    Triple (Ctx p T W q (plus (plus x ip) dp) (insert dp (insert ip ∅)) true) (unlinkEntry p dp ip off)
      (fun _ => Ctx p T W q x ∅ false) (Fine q) := by
  have hop : ¬ q true → true = true := fun _ => rfl
  have hmem := Finset.mem_insert_self dp (insert ip ∅)
  have hmem' : ip ∈ insert dp (insert ip (∅ : Finset Iref)) := by simp
  have hone := Finset.mem_insert_self ip ∅
  refine Triple.bind (writei_spec hmem hmem off _) fun r => Triple.bind (assert_spec (by simp)) fun _ => ?_
  refine Triple.bind (examine_spec hmem' hmem') fun _ => Triple.bind (getInode_any _) fun y => ?_
  refine Triple.bind (Triple.when fun _ => ?_) fun _ => ?_
  · refine Triple.bind (examine_spec hmem hmem) fun _ => ?_
    exact Triple.bind (setInode_spec fun _ => ⟨rfl, rfl⟩) fun _ => iupdate_spec hmem hmem
  · refine Triple.bind (put_spec hop (more hW ip dp) hdp) fun _ => ?_
    refine Triple.bind (setInode_spec fun _ => ⟨rfl, rfl⟩) fun _ => ?_
    refine Triple.bind (iupdate_spec hone hone) fun _ => ?_
    exact Triple.bind (put_spec hop (hW ip) (Finset.notMem_empty ip)) fun _ => giveUp_spec _

theorem sysUnlink_ctx (u : User) (path : Arg) : Triple (Ctx p T W q x ∅ false) (sysUnlink p u path)
    (fun _ => Ctx p T W q x ∅ false) (Fine q) := by
  have hop : ¬ q true → true = true := fun _ => rfl
  unfold sysUnlink
  split
  · exact Triple.pure fun _ h => h
  · refine Triple.bind begin_op_spec fun _ => Triple.bind (nameiparent_spec hop hW hx _) fun r => ?_
    match r with
    | none => exact giveUp_spec _
    | some (dp, name) =>
      have hmem := Finset.mem_insert_self dp ∅
      refine Triple.bind ilock_spec fun _ => Triple.of_fact fun hdp => ?_
      have hbad : Triple (Ctx p T W q (plus x dp) (insert dp ∅) true) (do iunlockput p dp; end_op; pure (-1) : M ℤ)
          (fun _ => Ctx p T W q x ∅ false) (Fine q) :=
        Triple.bind (put_spec hop (hW dp) hdp) fun _ => giveUp_spec _
      refine Triple.ite (fun _ => hbad) fun _ => ?_
      refine Triple.bind (dirlookup_spec (more hW dp) hmem hmem name) fun r => ?_
      match r with
      | none => exact hbad
      | some (ip, off) =>
        refine Triple.bind ilock_spec fun _ => Triple.of_fact fun hip => ?_
        have hmem' := Finset.mem_insert_self ip (insert dp ∅)
        refine Triple.bind (examine_spec hmem' hmem') fun _ => Triple.bind (getInode_any _) fun y => ?_
        refine Triple.bind (assert_spec (by simp)) fun _ => ?_
        refine Triple.bind (R := fun _ => Ctx p T W q (plus (plus x dp) ip) (insert ip (insert dp ∅)) true)
          (Triple.ite (fun _ => isdirempty_spec hmem' hmem') fun _ => Triple.pure fun _ h => h) fun empty => ?_
        refine Triple.ite (fun _ => ?_) fun _ => ?_
        · rw [plus_comm x dp ip, Finset.insert_comm]
          exact unlinkEntry_spec hW off (by simpa [eq_comm] using hip)
        · exact Triple.bind (put_spec hop (more hW dp ip) hip) fun _ => hbad

omit hx in
/-- A created inode is put back. -/
theorem created_put (type : IType) {α : Type} (a : α) :
    Triple (Created p T W q x type (some ip)) (do iunlockput p ip; end_op; pure a)
      (fun _ => Ctx p T W q x ∅ false) (Fine q) := by
  have hop : ¬ q true → true = true := fun _ => rfl
  refine Triple.pre (A := Ctx p T W q (plus x ip) (insert ip ∅) true) ?_ fun s h => h.weaken fun i hi => .inl hi
  exact Triple.bind (put_spec hop (hW ip) (Finset.notMem_empty ip)) fun _ => giveUp_spec _

theorem makeNode_ctx (u : User) (path : Arg) (type : IType) (major minor : ℕ) :
    Triple (Ctx p T W q x ∅ false) (makeNode p u path type major minor) (fun _ => Ctx p T W q x ∅ false) (Fine q) := by
  refine Triple.bind begin_op_spec fun _ => ?_
  cases argstr u path with
  | none => exact giveUp_spec _
  | some addr =>
    refine Triple.bind (create_spec hW hx _ type major minor) fun r => ?_
    cases r with
    | none => exact giveUp_spec _
    | some ip => exact created_put hW type _

theorem sysSymlink_ctx (u : User) (target path : Arg) (targetRest pathRest : Bytes) :
    Triple (Ctx p T W q x ∅ false) (sysSymlink p u target path targetRest pathRest)
      (fun _ => Ctx p T W q x ∅ false) (Fine q) := by
  unfold sysSymlink
  split
  · refine Triple.bind begin_op_spec fun _ => Triple.bind (create_spec hW hx _ .symlink 0 0) fun r => ?_
    match r with
    | none => exact giveUp_spec _
    | some ip =>
      have hmem := Finset.mem_insert_self ip ∅
      refine Triple.bind (stackStr_spec _) fun target => ?_
      refine Triple.bind (writei_spec hmem hmem _ _) fun _ => Triple.bind (writei_spec hmem hmem _ _) fun _ => ?_
      refine Triple.bind (iupdate_spec hmem hmem) fun _ => ?_
      exact created_put hW .symlink _
  · exact Triple.pure fun _ h => h

end

/-! ## `sys_open` -/

/-- The type of the inode that the symlink `path` leads to, if `path` is a symlink and leads
somewhere within five rounds: `sys_open` up to that point. -/
def linkTarget (p : Slot) (u : User) (path : BitVec 32) : M (Option IType) := do
  begin_op
  let name := str u path
  match ← namei p name with
  | none => pure none
  | some ip => do
    ilock p ip
    examine p ip
    let x ← getInode ip
    if x.di.type = .symlink then do
      match ← followLinks p path 5 u ip with
      | none => pure none
      | some (_, ip, k) => do
        let y ← getInode ip
        pure (if k = 0 then none else some y.di.type)
    else pure none

/-- The path is a symlink that leads to a directory. -/
def leadsToDir (p : Slot) (u : User) (path : BitVec 32) (s : State) : Prop :=
  (linkTarget p u path s).1 = .ok (some .dir)

/-- The call opens a directory for writing, through a symlink. -/
def opensDir (p : Slot) (u : User) (path : Arg) (omode : BitVec 32) (s : State) : Prop :=
  has omode O_CREATE = false ∧ has omode O_NOFOLLOW = true ∧ (has omode O_WRONLY || has omode O_RDWR) = true ∧
    ∃ addr, argstr u path = some addr ∧ leadsToDir p u addr s

theorem writable_ne_zero {omode : BitVec 32} (h : (has omode O_WRONLY || has omode O_RDWR) = true) : omode ≠ 0 := by
  rintro rfl
  exact absurd h (by decide)

theorem sysOpen_spec (hx : ∀ i, 0 ≤ x i) (u : User) (path : Arg) (omode : BitVec 32) (s₀ : State)
    (hsafe : w = true → ¬ opensDir p u path omode s₀) :
    Triple (fun s => s = s₀ ∧ Idle p w q x s) (sysOpen p u path omode) (fun _ => Idle p w q x) (Fine q) := by
  have hop : ¬ q true → true = true := fun _ => rfl
  refine Triple.pre (A := fun s => ∃ T, Tidy T ∧ (s = s₀ ∧ Ctx p T (T.written w) q x ∅ false s)) ?_ ?_
  · refine Triple.exists_pre fun T => Triple.of_fact fun hT => ?_
    have hW := Tables.written_plus (T := T) (w := w) hx
    unfold sysOpen
    split
    · exact Triple.pure fun s h => ⟨T, hT, trivial, h.2⟩
    rename_i addr haddr
    -- `linkTarget` is followed up to the loop
    refine Triple.pre (A := fun s => linkTarget p u addr s = linkTarget p u addr s₀ ∧
      Ctx p T (T.written w) q x ∅ false s) ?_ fun s h => ⟨by rw [h.1], h.2⟩
    have hgive : Triple (Ctx p T (T.written w) q x ∅ true) (do end_op; pure (-1) : M ℤ) (fun _ => Idle p w q x)
        (Fine q) := (giveUp_spec _).post fun _ s h => ⟨T, hT, trivial, h⟩
    have hput : ∀ ip, Triple (Ctx p T (T.written w) q (plus x ip) (insert ip ∅) true)
        (do iunlockput p ip; end_op; pure (-1) : M ℤ) (fun _ => Idle p w q x) (Fine q) := fun ip =>
      Triple.bind (put_spec hop (hW ip) (Finset.notMem_empty ip)) fun _ => hgive
    have hopen : ∀ (ip : Iref) (P : State → Prop),
        (∀ s, P s → Ctx p T (T.written w) q (plus x ip) (insert ip ∅) true s ∧
          (w = true ∧ (has omode O_WRONLY || has omode O_RDWR) = true → (s.inode ip).di.type ≠ .dir)) →
        Triple P (openFile p omode ip) (fun _ => Idle p w q x) (Fine q) := fun ip P hP =>
      (openFile_spec hT hx omode ip).pre fun s h => (hP s h).1.also (Finset.mem_insert_self ip ∅) (hP s h).2
    refine Triple.bind_with begin_op_spec fun _ => ?_
    refine Triple.ite (fun _ => ?_) fun hcreate => ?_
    · -- `create` returns no directory
      refine (Triple.bind (create_spec hW hx _ .file 0 0) fun r => ?_).pre fun s h => h.2
      match r with
      | none => exact hgive
      | some ip =>
        refine (openFile_spec hT hx omode ip).pre fun s h => h.weaken fun i hi => ?_
        exact hi.imp id fun hi => ⟨rfl, hi.2⟩
    · refine Triple.bind_with (namei_spec hop hW hx _) fun r => ?_
      match r with
      | none => exact hgive.pre fun s h => h.2
      | some ip =>
        have hmem := Finset.mem_insert_self ip ∅
        refine Triple.bind_with ilock_spec fun _ => ?_
        refine Triple.pre (A := fun s => _ ∧ Ctx p T (T.written w) q (plus x ip) (insert ip ∅) true s) ?_
          fun s h => ⟨h.1, h.2.2⟩
        refine Triple.bind_with (examine_spec hmem hmem) fun _ => ?_
        refine Triple.bind_with (getInode_spec _) fun y => ?_
        refine Triple.ite (fun _ => (hput ip).pre fun s h => h.2.1) fun hdir => ?_
        refine Triple.ite (fun hlink => ?_) fun hlink => ?_
        · rw [if_pos hlink.1]
          refine Triple.pre (A := fun s => _ ∧ Ctx p T (T.written w) q (plus x ip) (insert ip ∅) true s) ?_
            fun s h => ⟨h.1, h.2.1⟩
          refine Triple.bind_with (followLinks_spec hW hx addr 5 u ip) fun r => ?_
          match r with
          | none => exact hgive.pre fun s h => h.2
          | some (u', ip', k) =>
            refine Triple.ite (fun _ => (hput ip').pre fun s h => h.2) fun hk => ?_
            refine hopen ip' _ fun s h => ⟨h.2, fun hw htype => ?_⟩
            -- this is where `linkTarget` ends
            refine hsafe hw.1 ⟨by simpa using hcreate, hlink.2, hw.2, addr, haddr, ?_⟩
            unfold leadsToDir
            rw [← h.1]
            show Except.ok (if k = 0 then none else some (s.inode ip').di.type) = _
            rw [if_neg hk, htype]
        · refine hopen ip _ fun s h => ⟨h.2.1, fun hw htype => ?_⟩
          exact hdir ⟨by rw [h.2.2]; exact htype, writable_ne_zero hw.2⟩
  · rintro s ⟨hs, T, hT, -, h⟩
    exact ⟨T, hT, hs, h⟩

/-! ## Current directories -/

/-- One reference less. -/
def minus (x : Iref → ℤ) (i : Iref) : Iref → ℤ := Function.update x i (x i - 1)

theorem minus_apply (x : Iref → ℤ) (i j : Iref) : minus x i j = x j - if some i = some j then 1 else 0 := by
  by_cases hij : j = i
  · subst hij
    rw [if_pos rfl]
    exact Function.update_self ..
  · rw [if_neg (by simpa [eq_comm] using hij)]
    have hne : minus x i j = x j := Function.update_of_ne hij ..
    rw [hne, sub_zero]

theorem plus_apply (x : Iref → ℤ) (i j : Iref) : plus x i j = x j + if some i = some j then 1 else 0 := by
  by_cases hij : j = i
  · subst hij
    rw [if_pos rfl, plus_self]
  · rw [if_neg (by simpa [eq_comm] using hij), plus_ne x hij, add_zero]

theorem plus_minus (x : Iref → ℤ) (i : Iref) : plus (minus x i) i = x := by
  funext j
  rw [plus_apply, minus_apply]
  omega

/-- Who writes to an inode that is somebody's current directory is another owner. -/
theorem Tables.written_cwd {cwd : Iref} (hcwd : T.cwd p = some cwd) (hw : T.written w cwd) : 2 ≤ T.owners cwd := by
  obtain ⟨-, f, hf, -⟩ := hw
  have hp : T.owner (.inr p) = some cwd := hcwd
  exact refs_two hf hp (by simp)

/-- A current directory is put, while the call has its other references. -/
theorem iput_cwd {cwd : Iref} (hx : ∀ i, 0 ≤ x i) (hcwd : T.cwd p = some cwd) :
    Triple (Ctx p T (T.written w) q x ∅ true) (iput p cwd) (fun _ => Ctx p T (T.written w) q (minus x cwd) ∅ true)
      (Fine q) := by
  have h : Triple (Ctx p T (T.written w) q (plus (minus x cwd) cwd) ∅ true) (iput p cwd)
      (fun _ => Ctx p T (T.written w) q (minus x cwd) ∅ true) (Fine q) := iput_spec (fun _ => rfl) fun hw => ?_
  · rwa [plus_minus] at h
  · have htwo := Tables.written_cwd hcwd hw
    have hxc := hx cwd
    rw [minus_apply, if_pos rfl]
    omega

/-- A current directory belongs to a process in use. -/
theorem Tidy.used (hT : Tidy T) {cwd : Iref} (hcwd : T.cwd p = some cwd) : T.state p = .used := by
  by_contra hne
  rw [hT.cwd p hne] at hcwd
  cases hcwd

theorem Tidy.setCwd (hT : Tidy T) {o : Option Iref} (h : T.state p = .used) : Tidy (T.setCwd p o) := by
  refine ⟨hT.free, fun r hr => ?_⟩
  by_cases hrp : r = p
  · rw [hrp] at hr
    exact absurd h hr
  · have hne : (T.setCwd p o).cwd r = T.cwd r := Function.update_of_ne hrp ..
    rw [hne]
    exact hT.cwd r hr

theorem sysChdir_spec (hx : ∀ i, 0 ≤ x i) (u : User) (path : Arg) :
    Triple (Idle p w q x) (sysChdir p u path) (fun _ => Idle p w q x) (Fine q) := by
  have hop : ¬ q true → true = true := fun _ => rfl
  refine Triple.exists_pre fun T => Triple.of_fact fun hT => Triple.of_fact fun _ => ?_
  have hW := Tables.written_plus (T := T) (w := w) hx
  have hgive : Triple (Ctx p T (T.written w) q x ∅ true) (do end_op; pure (-1) : M ℤ) (fun _ => Idle p w q x)
      (Fine q) := (giveUp_spec _).post fun _ s h => ⟨T, hT, trivial, h⟩
  unfold sysChdir
  refine Triple.bind begin_op_spec fun _ => ?_
  split
  · exact hgive
  refine Triple.bind (namei_spec hop hW hx _) fun r => ?_
  match r with
  | none => exact hgive
  | some ip =>
    have hmem := Finset.mem_insert_self ip ∅
    refine Triple.bind ilock_spec fun _ => Triple.of_fact fun hip => ?_
    refine Triple.bind (examine_spec hmem hmem) fun _ => Triple.bind (getInode_any _) fun y => ?_
    refine Triple.ite (fun _ => Triple.bind (put_spec hop (hW ip) hip) fun _ => hgive) fun _ => ?_
    refine Triple.bind (unlock_spec hip) fun _ => ?_
    refine Triple.bind (R := fun a s => Ctx p T (T.written w) q (plus x ip) ∅ true s ∧ a.tables = T)
      (Triple.get fun _ h => ⟨h, h.tables⟩) fun a => ?_
    refine Triple.fact (c := a.tables = T) (fun _ h => h.2) fun ha => ?_
    rw [ha]
    refine Triple.pre (A := Ctx p T (T.written w) q (plus x ip) ∅ true) ?_ fun _ h => h.1
    split
    · exact Triple.throw fun s h => h.fine (by simp)
    rename_i cwd hcwd
    refine Triple.bind (iput_cwd (nonneg_plus hx ip) hcwd) fun _ => Triple.bind end_op_spec fun _ => ?_
    refine Triple.bind (setCwd_spec p (some cwd) (some ip) hcwd x fun i => ?_) fun _ =>
      Triple.pure fun s h => ⟨T.setCwd p (some ip), hT.setCwd (hT.used hcwd), trivial, h⟩
    rw [minus_apply, plus_apply]
    omega

/-! ## Descriptors -/

theorem idle_of_held {R : Tables → Prop} {s : State} (h : Held p w q R x ∅ false s) : Idle p w q x s :=
  h.imp fun _ h => ⟨h.1, trivial, h.2.2⟩

/-- A call on the file that a descriptor stands for. -/
theorem onFile_spec {k : Fref → M ℤ} {fd : Fd}
    (hk : ∀ T f, Tidy T → Triple (Ctx p T (T.written w) q x ∅ false) (k f) (fun _ => Idle p w q x) (Fine q)) :
    Triple (Idle p w q x) (do
      let s ← Prog.get
      match s.tables.ofile p fd with
      | none => pure (-1)
      | some f => k f) (fun _ => Idle p w q x) (Fine q) := by
  refine Triple.exists_pre fun T => Triple.of_fact fun hT => Triple.of_fact fun _ => ?_
  refine Triple.bind (R := fun _ => Ctx p T (T.written w) q x ∅ false) (Triple.get fun _ h => h) fun a => ?_
  split
  · exact Triple.pure fun s h => ⟨T, hT, trivial, h⟩
  · exact hk T _ hT

theorem sysDup_spec (fd : Fd) : Triple (Idle p w q x) (sysDup p fd) (fun _ => Idle p w q x) (Fine q) := by
  refine onFile_spec fun T f hT => ?_
  refine Triple.bind (fdalloc_spec f) fun r => ?_
  match r with
  | none => exact Triple.pure fun s h => ⟨T, hT, trivial, h⟩
  | some fd' =>
    have hT' : Tidy (T.setOfile p fd' (some f)) := hT.same ⟨rfl, rfl⟩ rfl
    exact Triple.bind (filedup_held hT' f) fun _ => Triple.pure fun s h => idle_of_held h

theorem sysClose_spec (hx : ∀ i, 0 ≤ x i) (fd : Fd) :
    Triple (Idle p w q x) (sysClose p fd) (fun _ => Idle p w q x) (Fine q) := by
  refine onFile_spec fun T f hT => ?_
  have hT' : Tidy (T.setOfile p fd none) := hT.same ⟨rfl, rfl⟩ rfl
  refine Triple.bind (setOfile_spec p fd none) fun _ => ?_
  exact Triple.bind (fileclose_spec hT' hx f) fun _ => Triple.pure fun s h => idle_of_held h

theorem sysRead_spec (fd : Fd) (n : ℕ) (answer : Option Bytes) :
    Triple (Idle p w q x) (sysRead p fd n answer) (fun _ => Idle p w q x) (Fine q) := by
  refine onFile_spec fun T f hT => ?_
  refine Triple.pre (A := Held p w q (SameProcs T) x ∅ false) ?_ fun s h => ⟨T, hT, .refl T, h⟩
  exact Triple.bind (fileread_spec T f n answer) fun _ => Triple.pure fun s h => idle_of_held h

theorem sysWrite_spec (fd : Fd) (bs : Bytes) (answer : ℤ) :
    Triple (Idle p w q x) (sysWrite p fd bs answer) (fun _ => Idle p w q x) (Fine q) := by
  refine onFile_spec fun T f hT => ?_
  exact ((filewrite_spec T f bs answer).post fun _ s h => idle_of_held h).pre fun s h => ⟨T, hT, .refl T, h⟩

theorem sysFstat_spec (fd : Fd) : Triple (Idle p w q x) (sysFstat p fd) (fun _ => Idle p w q x) (Fine q) := by
  refine onFile_spec fun T f hT => ?_
  exact ((filestat_spec T f).post fun _ s h => idle_of_held h).pre fun s h => ⟨T, hT, .refl T, h⟩

theorem sysPipe_spec (fds mem : Bool) : Triple (Idle p w q x) (sysPipe p fds mem) (fun _ => Idle p w q x) (Fine q) := by
  refine Triple.exists_pre fun T => Triple.of_fact fun hT => Triple.of_fact fun _ => ?_
  refine Triple.ite (fun _ => Triple.pure fun s h => ⟨T, hT, trivial, h⟩) fun _ => ?_
  refine Triple.bind (pipealloc_spec hT mem) fun r => ?_
  match r with
  | none => exact Triple.pure fun s h => idle_of_held h
  | some (rf, wf) =>
    refine Triple.exists_pre fun T => Triple.of_fact fun hT => Triple.of_fact fun hR => ?_
    obtain ⟨hne, hrf, hwf⟩ := hR rf wf rfl
    refine Triple.bind (fdalloc_spec rf) fun r => ?_
    match r with
    | none => exact closeBoth_spec hT hrf hwf hne (-1) fun _ _ => trivial
    | some fd0 =>
      have hT1 : Tidy (T.setOfile p fd0 (some rf)) := hT.same ⟨rfl, rfl⟩ rfl
      refine Triple.bind (fdalloc_spec wf) fun r => ?_
      match r with
      | none =>
        have hT2 : Tidy ((T.setOfile p fd0 (some rf)).setOfile p fd0 none) := hT1.same ⟨rfl, rfl⟩ rfl
        refine Triple.bind (setOfile_spec p fd0 none) fun _ => ?_
        exact closeBoth_spec hT2 hrf hwf hne (-1) fun _ _ => trivial
      | some fd1 =>
        exact Triple.pure fun s h => ⟨(T.setOfile p fd0 (some rf)).setOfile p fd1 (some wf),
          hT1.same ⟨rfl, rfl⟩ rfl, trivial, h⟩

/-! ## Processes -/

theorem forkFiles_spec (hx : ∀ i, 0 ≤ x i) {np : Slot} (hT : Tidy T) (hnp : T.cwd np = none) :
    Triple (Ctx p T (T.written w) q x ∅ false) (forkFiles p np)
      (fun _ s => ∃ T' ip, Tidy T' ∧ SameProcs T T' ∧
        Ctx p (T'.setCwd np (some ip)) (T'.written w) q x ∅ false s) (Fine q) := by
  refine Triple.pre (A := Held p w q (SameProcs T) x ∅ false) ?_ fun s h => ⟨T, hT, .refl T, h⟩
  refine Triple.bind (R := fun _ => Held p w q (SameProcs T) x ∅ false) (Triple.forM fun fd _ => ?_) fun _ => ?_
  · refine Triple.bind (R := fun _ => Held p w q (SameProcs T) x ∅ false) (Triple.get fun _ h => h) fun a => ?_
    split
    · exact Triple.pure fun _ h => h
    · rename_i f _
      refine Triple.exists_pre fun T1 => Triple.of_fact fun hT1 => Triple.of_fact fun hR1 => ?_
      refine Triple.bind (filedup_held hT1 f) fun _ => ?_
      refine Triple.exists_pre fun T2 => Triple.of_fact fun hT2 => Triple.of_fact fun hR2 => ?_
      exact setOfile_held hT2 fd (some f) ((hR1.trans hR2).trans ⟨rfl, rfl⟩)
  · refine Triple.exists_pre fun T1 => Triple.of_fact fun hT1 => Triple.of_fact fun hR1 => ?_
    refine Triple.bind (R := fun a s => Ctx p T1 (T1.written w) q x ∅ false s ∧ a.tables = T1)
      (Triple.get fun _ h => ⟨h, h.tables⟩) fun a => ?_
    refine Triple.fact (c := a.tables = T1) (fun _ h => h.2) fun ha => ?_
    rw [ha]
    refine Triple.pre (A := Ctx p T1 (T1.written w) q x ∅ false) ?_ fun _ h => h.1
    split
    · exact Triple.throw fun s h => h.fine (by simp)
    rename_i cwd hcwd
    have hpos : 0 < T1.owners cwd + x cwd := by
      have h1 := Tables.owners_cwd hcwd
      have h2 := hx cwd
      omega
    have hnone : T1.cwd np = none := by rw [hR1.1, hnp]
    refine Triple.bind (idup_spec hpos) fun ip => Triple.of_fact fun hip => ?_
    rw [hip]
    refine (setCwd_spec np none (some cwd) hnone x fun i => ?_).post fun _ s h => ⟨T1, cwd, hT1, hR1, h⟩
    rw [plus_apply]
    simp

theorem fork_spec (hx : ∀ i, 0 ≤ x i) : Triple (Idle p w q x) (Fs.fork p) (fun _ => Idle p w q x) (Fine q) := by
  refine Triple.exists_pre fun T => Triple.of_fact fun hT => Triple.of_fact fun _ => ?_
  refine Triple.bind (R := fun a s => Ctx p T (T.written w) q x ∅ false s ∧ a.tables = T)
    (Triple.get fun _ h => ⟨h, h.tables⟩) fun a => ?_
  refine Triple.fact (c := a.tables = T) (fun _ h => h.2) fun ha => ?_
  rw [ha]
  refine Triple.pre (A := Ctx p T (T.written w) q x ∅ false) ?_ fun _ h => h.1
  split
  · exact Triple.pure fun s h => ⟨T, hT, trivial, h⟩
  rename_i np hfind
  have hunused : T.state np = .unused := by simpa using List.find?_some hfind
  have hnp : T.cwd np = none := hT.cwd np (by simp [hunused])
  refine Triple.bind (forkFiles_spec hx hT hnp) fun _ => ?_
  refine Triple.exists_pre fun T' => Triple.exists_pre fun ip => Triple.of_fact fun hT' => Triple.of_fact fun hR => ?_
  refine Triple.bind (setProc_spec np .used) fun _ => Triple.pure fun s h =>
    ⟨(T'.setCwd np (some ip)).setProc np .used, ⟨hT'.free, fun r hr => ?_⟩, trivial, h⟩
  by_cases hrn : r = np
  · subst hrn
    have hused : ((T'.setCwd r (some ip)).setProc r .used).state r = .used := Function.update_self ..
    exact absurd hused hr
  · have hstate : ((T'.setCwd np (some ip)).setProc np .used).state r = T'.state r := Function.update_of_ne hrn ..
    have hcwd : ((T'.setCwd np (some ip)).setProc np .used).cwd r = T'.cwd r := Function.update_of_ne hrn ..
    rw [hstate] at hr
    rw [hcwd]
    exact hT'.cwd r hr

theorem exit_spec (hx : ∀ i, 0 ≤ x i) : Triple (Idle p w q x) (Fs.exit p) (fun _ => Idle p w q x) (Fine q) := by
  refine Triple.bind (R := fun _ => Idle p w q x) (Triple.assert (fun _ _ h => h) fun _ s h => ⟨by simp, h.monitor⟩)
    fun _ => ?_
  refine Triple.bind (R := fun _ => Idle p w q x) (Triple.forM fun fd _ => ?_) fun _ => ?_
  · refine Triple.exists_pre fun T => Triple.of_fact fun hT => Triple.of_fact fun _ => ?_
    refine Triple.bind (R := fun _ => Ctx p T (T.written w) q x ∅ false) (Triple.get fun _ h => h) fun a => ?_
    split
    · exact Triple.pure fun s h => ⟨T, hT, trivial, h⟩
    · rename_i f _
      refine Triple.bind (fileclose_spec hT hx f) fun _ => ?_
      refine Triple.exists_pre fun T1 => Triple.of_fact fun hT1 => Triple.of_fact fun hR1 => ?_
      exact setOfile_held hT1 fd none trivial
  · refine Triple.exists_pre fun T => Triple.of_fact fun hT => Triple.of_fact fun _ => ?_
    refine Triple.bind (R := fun a s => Ctx p T (T.written w) q x ∅ false s ∧ a.tables = T)
      (Triple.get fun _ h => ⟨h, h.tables⟩) fun a => ?_
    refine Triple.fact (c := a.tables = T) (fun _ h => h.2) fun ha => ?_
    rw [ha]
    refine Triple.pre (A := Ctx p T (T.written w) q x ∅ false) ?_ fun _ h => h.1
    split
    · exact Triple.throw fun s h => h.fine (by simp)
    rename_i cwd hcwd
    refine Triple.bind begin_op_spec fun _ => Triple.bind (iput_cwd hx hcwd) fun _ => ?_
    refine Triple.bind end_op_spec fun _ => ?_
    refine Triple.bind (setCwd_spec p (some cwd) none hcwd x fun i => ?_) fun _ => ?_
    · rw [minus_apply]
      simp
    · refine Triple.bind (setProc_spec p .zombie) fun _ => Triple.pure fun s h =>
        ⟨(T.setCwd p none).setProc p .zombie, ⟨hT.free, fun r hr => ?_⟩, trivial, h⟩
      by_cases hrp : r = p
      · subst hrp
        exact Function.update_self ..
      · have hstate : ((T.setCwd p none).setProc p .zombie).state r = T.state r := Function.update_of_ne hrp ..
        have hcwd' : ((T.setCwd p none).setProc p .zombie).cwd r = T.cwd r := Function.update_of_ne hrp ..
        rw [hstate] at hr
        rw [hcwd']
        exact hT.cwd r hr

theorem reap_spec (r : Slot) : Triple (Idle p w q x) (Fs.reap r) (fun _ => Idle p w q x) (Fine q) := by
  refine Triple.exists_pre fun T => Triple.of_fact fun hT => Triple.of_fact fun _ => ?_
  refine Triple.bind (R := fun a s => Ctx p T (T.written w) q x ∅ false s ∧ a.tables = T)
    (Triple.get fun _ h => ⟨h, h.tables⟩) fun a => ?_
  refine Triple.fact (c := a.tables = T) (fun _ h => h.2) fun ha => ?_
  rw [ha]
  refine Triple.pre (A := Ctx p T (T.written w) q x ∅ false) ?_ fun _ h => h.1
  refine Triple.ite (fun hz => ?_) fun _ => Triple.pure fun s h => ⟨T, hT, trivial, h⟩
  refine Triple.bind (setProc_spec r .unused) fun _ => Triple.pure fun s h =>
    ⟨T.setProc r .unused, ⟨hT.free, fun r' hr => ?_⟩, trivial, h⟩
  by_cases hrr : r' = r
  · subst hrr
    exact hT.cwd r' (by simp [hz])
  · have hstate : (T.setProc r .unused).state r' = T.state r' := Function.update_of_ne hrr ..
    rw [hstate] at hr
    exact hT.cwd r' hr

/-! ## `sys_exec` -/

theorem exec_spec (hx : ∀ i, 0 ≤ x i) (path : Path) :
    Triple (Idle p w q x) (exec p path) (fun _ => Idle p w q x) (Fine q) := by
  have hop : ¬ q true → true = true := fun _ => rfl
  refine idle_of_ctx fun T hT => ?_
  have hW := Tables.written_plus (T := T) (w := w) hx
  refine Triple.bind begin_op_spec fun _ => Triple.bind (namei_spec hop hW hx path) fun r => ?_
  match r with
  | none => exact giveUp_spec _
  | some ip =>
    have hmem := Finset.mem_insert_self ip ∅
    refine Triple.bind ilock_spec fun _ => Triple.of_fact fun hip => ?_
    refine Triple.bind (readi_spec hmem hmem _ _) fun _ => ?_
    exact Triple.bind (put_spec hop (hW ip) hip) fun _ => giveUp_spec _

/-- A fault, of whatever kind. -/
def Any (q : Bool → Prop) (_ : Fault) (s : State) : Prop := q s.broken

theorem any_of_fine {α : Type} {P : State → Prop} {m : M α} {Q : α → State → Prop} (h : Triple P m Q (Fine q)) :
    Triple P m Q (Any q) := h.conseq (fun _ => id) (fun _ _ => id) fun _ _ h => h.2

theorem readi_broken (hq : q true) (off n : ℕ) : Triple (Core p T W q x L V op) (readi p ip off n)
    (fun _ => Core p T W q x L V op) (Fine q) := by
  refine Triple.bind (examine_broken hq) fun _ => ?_
  refine Triple.bind (R := fun _ => Core p T W q x L V op) (Triple.get fun _ h => h) fun a => ?_
  dsimp only
  split
  · exact Triple.pure fun _ h => h
  · split
    · exact Triple.pure fun _ h => h
    · exact Triple.pure fun _ h => h

/-- What is not locked cannot be unlocked. -/
theorem iunlockput_panics {α : Type} (hip : ip ∉ L) (k : Unit → M α) {Q : α → State → Prop} :
    Triple (Core p T W q x L V op) (iunlockput p ip >>= k) Q (Any q) := by
  refine Triple.bind (R := fun _ _ => False) ?_ fun _ s hs => hs.elim
  refine Triple.bind (R := fun _ _ => False) ?_ fun _ s hs => hs.elim
  refine Triple.bind (getInode_spec (q := q) _ |> any_of_fine) fun y => ?_
  refine Triple.bind (R := fun _ _ => False) (Triple.assert (fun hy s h => ?_) fun _ s h => h.1.monitor) fun _ s hs =>
    hs.elim
  obtain ⟨h, rfl⟩ := h
  rw [h.lock ip, if_neg hip] at hy
  exact absurd hy.1 (by simp)

/-- The loop over symlinks, from an inode that is not locked: it is no symlink, or the kernel
panics. -/
theorem followLinks_unlocked (hq : q true) (path : BitVec 32) (k : ℕ) (u : User) :
    Triple (Ctx p T W q x ∅ op) (followLinks p path (k + 1) u ip)
      (fun r s => r = some (u, ip, k + 1) ∧ Ctx p T W q x ∅ op s) (Any q) := by
  refine Triple.bind (any_of_fine (examine_broken hq)) fun _ => ?_
  refine Triple.bind (getInode_any _) fun y => ?_
  refine Triple.ite (fun _ => Triple.pure fun _ h => ⟨rfl, h⟩) fun _ => ?_
  refine Triple.bind (any_of_fine (readi_broken hq _ _)) fun head => ?_
  refine Triple.bind (any_of_fine (assert_spec (by simp))) fun _ => ?_
  refine Triple.bind (any_of_fine (readi_broken hq _ _)) fun bs => ?_
  refine Triple.bind (any_of_fine (assert_spec (by simp))) fun _ => ?_
  exact iunlockput_panics (Finset.notMem_empty ip) _

/-- What `sys_exec` does once it has an inode: the reference stays. -/
theorem execFound_spec (hq : q true) (hT : Tidy T) (hx : ∀ i, 0 ≤ x i) (u : User) (path : BitVec 32) (argv : Bool) :
    Triple (Ctx p T (T.written w) q (plus x ip) ∅ false) (do
      examine p ip
      match ← followLinks p path 5 u ip with
      | none => pure (-1)
      | some (u, ip, k) =>
        if k = 0 then do
          iunlockput p ip
          pure (-1)
        else if argv = false then pure (-1)
        else do
          let name := str u path
          exec p name : M ℤ)
      (fun _ => Idle p w q (plus x ip)) (Any q) := by
  refine Triple.bind (any_of_fine (examine_broken hq)) fun _ => ?_
  refine Triple.bind (followLinks_unlocked hq path 4 u) fun r => Triple.of_fact fun hr => ?_
  rw [hr]
  refine Triple.ite (fun h5 => absurd h5 (by simp)) fun _ => ?_
  refine Triple.ite (fun _ => Triple.pure fun s h => ⟨T, hT, trivial, h⟩) fun _ => ?_
  exact (any_of_fine (exec_spec (nonneg_plus hx ip) _)).pre fun s h => ⟨T, hT, trivial, h⟩

/-- **`sys_exec`** may leave a reference behind. -/
theorem sysExec_spec (hq : q true) (hx : ∀ i, 0 ≤ x i) (u : User) (path : Arg) (argv : Bool) :
    Triple (Idle p w q x) (sysExec p u path argv) (fun _ s => ∃ x', (∀ i, x i ≤ x' i) ∧ Idle p w q x' s) (Any q) := by
  refine Triple.exists_pre fun T => Triple.of_fact fun hT => Triple.of_fact fun _ => ?_
  have hstay : ∀ s, Ctx p T (T.written w) q x ∅ false s → ∃ x', (∀ i, x i ≤ x' i) ∧ Idle p w q x' s :=
    fun s h => ⟨x, fun _ => le_rfl, T, hT, trivial, h⟩
  unfold sysExec
  split
  · exact Triple.pure hstay
  refine Triple.bind (any_of_fine (namei_spec (fun h => absurd hq h) (Tables.written_plus hx) hx _)) fun r => ?_
  match r with
  | none => exact Triple.pure hstay
  | some ip =>
    refine (execFound_spec hq hT hx u _ argv).post fun _ s h => ⟨plus x ip, fun i => ?_, h⟩
    rw [plus_apply]
    split <;> omega

end

end Xv6.Fs
