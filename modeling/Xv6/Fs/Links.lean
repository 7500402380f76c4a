import Xv6.Fs.Names
import Xv6.Fs.SysFile

/-!
# Following symlinks

`sys_open` and `sys_exec` read the text of a symlink into the string that the process passed, and look it up there.

* `openWrites`, `execWrites`: the calls, with what they write to the memory of the process.
* `State.follow`: the chain of symlinks, as a function of what is seen.
* `followWrites_look`: the loop goes where `follow` goes, or panics where `follow` gives up.
-/

namespace Xv6.Fs

open Prog

/-! ## The calls, with their writes -/

/-- `followLinks`, with what it writes to `path`. -/
def followWrites (p : Slot) (path : BitVec 32) : ℕ → User → Iref → M (List Bytes × Option (User × Iref × ℕ))
  | 0, u, ip => do
    examine p ip
    pure ([], some (u, ip, 0))
  | k + 1, u, ip => do
    examine p ip
    let x ← getInode ip
    if x.di.type ≠ .symlink then pure ([], some (u, ip, k + 1))
    else do
      let head ← readi p ip 0 4
      let len := linkLen (head.getD [])
      Prog.assert (BitVec.slt MAX_PATH len = false) .tooLong
      let bs ← readi p ip 4 (len + 1).toNat
      let u := u.write path (bs.getD [])
      Prog.assert (path.toNat + (bs.getD []).length ≤ u.mapped) .trap
      iunlockput p ip
      let next := str u path
      match ← namei p next with
      | none => pure ([bs.getD []], none)
      | some ip => do
        ilock p ip
        let r ← followWrites p path k u ip
        pure (bs.getD [] :: r.1, r.2)

theorem followLinks_eq (p : Slot) (path : BitVec 32) (k : ℕ) : ∀ u ip,
    followLinks p path k u ip = Prod.snd <$> followWrites p path k u ip := by
  induction k with
  | zero =>
    intro u ip
    unfold followLinks followWrites
    simp only [map_bind, map_pure]
  | succ k ih =>
    intro u ip
    unfold followLinks followWrites
    simp only [map_bind, ih]
    refine bind_congr fun _ => bind_congr fun x => ?_
    split
    · rfl
    · simp only [map_bind]
      refine bind_congr fun head => bind_congr fun _ => bind_congr fun bs => bind_congr fun _ => bind_congr fun _ => ?_
      refine bind_congr fun r => ?_
      cases r with
      | none => rfl
      | some ip => simp only [map_eq_pure_bind, bind_assoc, pure_bind]

/-- `sys_open`, with what it writes to `path`. -/
def openWrites (p : Slot) (u : User) (path : Arg) (omode : BitVec 32) : M (List Bytes × ℤ) :=
  match argstr u path with
  | none => pure ([], -1)
  | some path => do
    begin_op
    let name := str u path
    if has omode O_CREATE then do
      match ← create p name .file 0 0 with
      | none => do
        end_op
        pure ([], -1)
      | some ip => do
        let r ← openFile p omode ip
        pure ([], r)
    else do
      match ← namei p name with
      | none => do
        end_op
        pure ([], -1)
      | some ip => do
        ilock p ip
        examine p ip
        let x ← getInode ip
        if x.di.type = .dir ∧ omode ≠ 0 then do
          iunlockput p ip
          end_op
          pure ([], -1)
        else if x.di.type = .symlink ∧ has omode O_NOFOLLOW then do
          match ← followWrites p path 5 u ip with
          | (w, none) => do
            end_op
            pure (w, -1)
          | (w, some (_, ip, k)) =>
            if k = 0 then do
              iunlockput p ip
              end_op
              pure (w, -1)
            else do
              let r ← openFile p omode ip
              pure (w, r)
        else do
          let r ← openFile p omode ip
          pure ([], r)

theorem sysOpen_eq (p : Slot) (u : User) (path : Arg) (omode : BitVec 32) :
    sysOpen p u path omode = Prod.snd <$> openWrites p u path omode := by
  unfold sysOpen openWrites
  cases argstr u path with
  | none => rfl
  | some path =>
  simp only [map_bind]
  refine bind_congr fun _ => ?_
  split
  · simp only [map_bind]
    refine bind_congr fun r => ?_
    cases r with
    | none => rfl
    | some ip => simp only [map_bind, map_pure, bind_pure]
  · simp only [map_bind]
    refine bind_congr fun r => ?_
    cases r with
    | none => rfl
    | some ip =>
      simp only [map_bind]
      refine bind_congr fun _ => bind_congr fun _ => bind_congr fun x => ?_
      split
      · simp only [map_bind, map_pure]
      split
      · rw [followLinks_eq]
        simp only [map_eq_pure_bind, bind_assoc, pure_bind]
        refine bind_congr fun r => ?_
        obtain ⟨w, o⟩ := r
        cases o with
        | none => rfl
        | some y =>
          obtain ⟨-, ip, k⟩ := y
          dsimp only
          split
          · simp only [bind_assoc, pure_bind]
          · simp only [bind_assoc, pure_bind, bind_pure]
      · simp only [map_bind, map_pure, bind_pure]

/-- `sys_exec`, when there is an inode. -/
def execFound (p : Slot) (u : User) (path : BitVec 32) (argv : Bool) (ip : Iref) : M (List Bytes × ℤ) := do
  examine p ip
  match ← followWrites p path 5 u ip with
  | (w, none) => pure (w, -1)
  | (w, some (u, ip, k)) =>
    if k = 0 then do
      iunlockput p ip
      pure (w, -1)
    else if argv = false then pure (w, -1)
    else do
      let name := str u path
      let r ← exec p name
      pure (w, r)

/-- `sys_exec`, with what it writes to `path`. -/
def execWrites (p : Slot) (u : User) (path : Arg) (argv : Bool) : M (List Bytes × ℤ) :=
  match argstr u path with
  | none => pure ([], -1)
  | some path => do
    let name := str u path
    match ← namei p name with
    | none => pure ([], -1)
    | some ip => execFound p u path argv ip

theorem sysExec_eq (p : Slot) (u : User) (path : Arg) (argv : Bool) :
    sysExec p u path argv = Prod.snd <$> execWrites p u path argv := by
  unfold sysExec execWrites
  cases argstr u path with
  | none => rfl
  | some path =>
  simp only [map_bind]
  refine bind_congr fun r => ?_
  cases r with
  | none => rfl
  | some ip =>
    unfold execFound
    dsimp only
    rw [followLinks_eq]
    simp only [map_eq_pure_bind, bind_assoc, pure_bind]
    refine bind_congr fun _ => bind_congr fun r => ?_
    obtain ⟨w, o⟩ := r
    cases o with
    | none => rfl
    | some y =>
      obtain ⟨u, ip, k⟩ := y
      dsimp only
      split
      · simp only [bind_assoc, pure_bind]
      split
      · rfl
      · simp only [bind_assoc, pure_bind, bind_pure]

/-! ## The chain -/

/-- The bytes that the second `readi` of the loop reads from a symlink. -/
def linkBytes (data : Bytes) : Bytes := (bytesAt data 4 (linkLen (data.take 4) + 1).toNat).getD []

/-- The chain of symlinks from inode `n`, with what is written to `path`; nothing for a panic. -/
def State.follow (s : State) (p : Slot) (path : BitVec 32) : ℕ → User → ℕ → Option (List Bytes × Option (User × ℕ × ℕ))
  | 0, u, n => some ([], some (u, n, 0))
  | k + 1, u, n =>
    if (s.view n).type ≠ .symlink then some ([], some (u, n, k + 1))
    else if BitVec.slt MAX_PATH (linkLen ((s.view n).data.take 4)) then none
    else
      let bs := linkBytes (s.view n).data
      let u := u.write path bs
      if u.mapped < path.toNat + bs.length then none
      else
        if s.Strays p (str u path) then none
        else
          match (s.resolve p false (str u path)).map Prod.fst with
          | none => some ([bs], none)
          | some m => (follow s p path k u m).map fun r => (bs :: r.1, r.2)

section

variable {p : Slot} {op : Bool} {s₀ s : State} {m : Iref → ℕ} {ip : Iref} {path : BitVec 32}

/-- Where the loop ends: an inode that is locked, or none. -/
def Ends (p : Slot) (op : Bool) (s₀ : State) (found : Option (User × ℕ × ℕ)) (r : Option (User × Iref × ℕ))
    (s : State) : Prop :=
  match found, r with
  | none, none => ∃ m, Look p op s₀ (fun _ => 0) m ∅ s
  | some (u, n, k), some (u', ip, k') => u = u' ∧ k = k' ∧
      ∃ m, m ip = n ∧ Look p op s₀ (plus (fun _ => 0) ip) m (insert ip ∅) s
  | _, _ => False

/-- **The loop over symlinks** goes along the chain. -/
theorem followWrites_look (hs : Sound s₀ p) (hroom : Room s₀ 2) (k : ℕ) : ∀ u ip m,
    Triple (Look p op s₀ (plus (fun _ => 0) ip) m (insert ip ∅)) (followWrites p path k u ip)
      (fun r s => ∃ found, s₀.follow p path k u (m ip) = some (r.1, found) ∧ Ends p op s₀ found r.2 s)
      (fun _ _ => s₀.follow p path k u (m ip) = none) := by
  induction k with
  | zero =>
    intro u ip m
    refine Triple.bind (of_never (examine_look (Finset.mem_insert_self ip ∅))) fun _ => Triple.pure fun s h => ?_
    exact ⟨_, rfl, rfl, rfl, m, rfl, h⟩
  | succ k ih =>
    intro u ip m
    have hmem := Finset.mem_insert_self ip (∅ : Finset Iref)
    have hip : ip ∉ (∅ : Finset Iref) := Finset.notMem_empty ip
    unfold State.follow
    refine Triple.bind (of_never (examine_look hmem)) fun _ => ?_
    refine Triple.bind (of_never (seen_look hmem)) fun y => Triple.of_fact fun hy => Triple.of_fact fun _ => ?_
    rw [hy]
    refine Triple.ite (fun htype => ?_) fun htype => ?_
    · rw [if_pos htype]
      exact Triple.pure fun s h => ⟨_, rfl, rfl, rfl, m, rfl, h⟩
    rw [if_neg htype]
    have hdev : (s₀.view (m ip)).type ≠ .dev := by
      rw [not_not.1 htype]
      simp
    refine Triple.bind (of_never (readi_look hmem hdev 0 4)) fun head => Triple.of_fact fun hhead => ?_
    have hlen : head.getD [] = (s₀.view (m ip)).data.take 4 := by
      rw [hhead]
      unfold bytesAt
      rw [if_neg (by omega)]
      rfl
    dsimp only
    rw [hlen]
    refine Triple.bind (R := fun _ s => BitVec.slt MAX_PATH (linkLen ((s₀.view (m ip)).data.take 4)) = false ∧
      Look p op s₀ (plus (fun _ => 0) ip) m (insert ip ∅) s) (Triple.assert (fun hl s h => ⟨hl, h⟩) fun hl _ _ => ?_)
      fun _ => Triple.of_fact fun hl => ?_
    · rw [if_pos (by simpa using hl)]
    rw [if_neg (by rw [hl]; simp)]
    refine Triple.bind (of_never (readi_look hmem hdev 4 _)) fun bs => Triple.of_fact fun hbs => ?_
    have hbytes : bs.getD [] = linkBytes (s₀.view (m ip)).data := by
      rw [hbs]
      rfl
    rw [hbytes]
    set w := linkBytes (s₀.view (m ip)).data
    refine Triple.bind (R := fun _ s => ¬ (u.write path w).mapped < path.toNat + w.length ∧
      Look p op s₀ (plus (fun _ => 0) ip) m (insert ip ∅) s)
      (Triple.assert (fun hl s h => ⟨not_lt.2 hl, h⟩) fun hl _ _ => ?_) fun _ => Triple.of_fact fun hl => ?_
    · rw [if_pos (not_le.1 hl)]
    rw [if_neg hl]
    refine Triple.bind (of_never (put_look hip le_rfl)) fun _ => ?_
    set next := str (u.write path w) path
    have hnamei : Triple (Look p op s₀ (fun _ => 0) m ∅) (namei p next) _ _ :=
      namei_look hs rfl (fun _ => le_rfl) hroom.roomy next
    refine Triple.bind (hnamei.conseq (fun _ => id) (fun _ _ => id) fun _ _ hstray => if_pos hstray) fun r =>
      Triple.of_fact fun hstray => ?_
    rw [if_neg hstray]
    match hfound : (s₀.resolve p false next).map Prod.fst, r with
    | none, none => exact Triple.pure fun s h => ⟨_, rfl, h⟩
    | some n, some ip' =>
      refine Triple.exists_pre fun m' => Triple.of_fact fun hm' => ?_
      refine Triple.bind (of_never (ilock_look (Finset.notMem_empty ip') ?_)) fun _ => ?_
      · rw [plus_self]
        omega
      have hrest := ih (u.write path w) ip' m'
      rw [hm'] at hrest
      refine Triple.bind (hrest.conseq (fun _ => id) (fun _ _ => id) fun _ _ hno => ?_) fun r => Triple.pure fun s h => ?_
      · dsimp only
        rw [hno]
        rfl
      · obtain ⟨found, hfollow, hends⟩ := h
        refine ⟨found, ?_, hends⟩
        dsimp only
        rw [hfollow]
        rfl
    | none, some _ => exact fun s h => h.elim
    | some _, none => exact fun s h => h.elim

/-! ## The end of a call -/

/-- The state with other tables. -/
def State.withTables (s : State) (T : Tables) : State := { s with tables := T }

variable {T : Tables} {x : Iref → ℤ} {L : Finset Iref}

theorem Look.retable (h : Look p op s₀ x m L s) (T : Tables) :
    Look p op (s₀.withTables T) x m L (s.withTables T) :=
  ⟨h.disk, rfl, h.devsw, h.inOp, h.monitor, h.inum, h.ref, h.lock, h.held, h.base, h.pos, h.uniq, h.kept, h.sees,
    h.usable⟩

theorem setFile_look {f : Fref} (g : File → File) : Triple (Look p op (s₀.withTables T) x m L) (setFile f g)
    (fun _ => Look p op (s₀.withTables (T.setFile f g)) x m L) Never := by
  refine Triple.modify fun s h => ?_
  have htables : s.tables = T := h.tables
  have hset : s.setFile f g = s.withTables (T.setFile f g) := by
    unfold State.setFile State.withTables Tables.setFile
    rw [htables]
  rw [hset]
  exact h.retable (T.setFile f g)

theorem setOfile_look (fd : Fd) (o : Option Fref) : Triple (Look p op (s₀.withTables T) x m L) (setOfile p fd o)
    (fun _ => Look p op (s₀.withTables (T.setOfile p fd o)) x m L) Never := by
  refine Triple.modify fun s h => ?_
  have htables : s.tables = T := h.tables
  have hset : s.setOfile p fd o = s.withTables (T.setOfile p fd o) := by
    unfold State.setOfile State.withTables Tables.setOfile
    rw [htables]
  rw [hset]
  exact h.retable (T.setOfile p fd o)

/-- What a call leaves: the tables `T`, and `x` more references. -/
structure Ended (s₀ : State) (T : Tables) (x : Iref → ℤ) (s : State) : Prop where
  tables : s.tables = T
  inOp : s.inOp = false
  monitor : s.broken = s₀.broken
  lock : ∀ i, (s.inode i).lock = none
  ref : ∀ i, (s.inode i).ref = (s₀.inode i).ref + x i
  view : ∀ n, s.view n = s₀.view n

theorem end_op_look : Triple (Look p true (s₀.withTables T) x m ∅) end_op
    (fun _ s => (∀ i, (s.inode i).inum = m i) ∧ Ended s₀ T x s) Never := by
  refine Triple.modify fun s h => ⟨h.inum, h.tables, rfl, h.monitor rfl, fun i => ?_, h.ref, h.view⟩
  exact (h.lock i).trans (if_neg (Finset.notMem_empty i))

theorem end_op_same : Triple (Look p true s₀ x m ∅) end_op (fun _ => Ended s₀ s₀.tables x) Never := by
  show Triple (Look p true (s₀.withTables s₀.tables) x m ∅) _ _ _
  exact end_op_look.post fun _ _ h => h.2

/-- What `filealloc` finds. -/
def Tables.freeFile (T : Tables) : Option Fref := (List.finRange NFILE).find? fun f => (T.file f).ref = 0

/-- What `fdalloc` finds. -/
def Tables.freeFd (T : Tables) (p : Slot) : Option Fd := (List.finRange NOFILE).find? fun fd => T.ofile p fd = none

/-- The file is taken. -/
def Tables.take (T : Tables) (f : Fref) : Tables := T.setFile f fun y => { y with ref := 1 }

/-- The tables with the file open. -/
def Tables.withFile (T : Tables) (p : Slot) (omode : BitVec 32) (ip : Iref) (f : Fref) (fd : Fd) : Tables :=
  ((T.take f).setOfile p fd (some f)).setFile f (opened omode ip)

theorem getTables_look : Triple (Look p op (s₀.withTables T) x m L) Prog.get
    (fun a s => a.tables = T ∧ Look p op (s₀.withTables T) x m L s) Never := Triple.get fun _ h => ⟨h.tables, h⟩

theorem filealloc_look : Triple (Look p op (s₀.withTables T) x m L) filealloc
    (fun r s => r = T.freeFile ∧ Look p op (s₀.withTables (r.elim T T.take)) x m L s) Never := by
  refine Triple.bind getTables_look fun a => Triple.of_fact fun ha => ?_
  rw [ha]
  cases hf : (List.finRange NFILE).find? fun f => (T.file f).ref = 0 with
  | none => exact Triple.pure fun s h => ⟨hf.symm, h⟩
  | some f => exact Triple.bind (setFile_look _) fun _ => Triple.pure fun s h => ⟨hf.symm, h⟩

theorem fdalloc_look (f : Fref) : Triple (Look p op (s₀.withTables T) x m L) (fdalloc p f)
    (fun r s => r = T.freeFd p ∧ Look p op (s₀.withTables (r.elim T fun fd => T.setOfile p fd (some f))) x m L s)
    Never := by
  refine Triple.bind getTables_look fun a => Triple.of_fact fun ha => ?_
  rw [ha]
  cases hfd : (List.finRange NOFILE).find? fun fd => T.ofile p fd = none with
  | none => exact Triple.pure fun s h => ⟨hfd.symm, h⟩
  | some fd => exact Triple.bind (setOfile_look _ _) fun _ => Triple.pure fun s h => ⟨hfd.symm, h⟩

/-- A file that was just taken is given back. -/
theorem fileclose_look {f : Fref} (href : (T.file f).ref = 0) (htype : (T.file f).type = .none) :
    Triple (Look p op (s₀.withTables (T.take f)) x m L) (fileclose p f)
      (fun _ => Look p op (s₀.withTables T) x m L) Never := by
  have hself : (T.take f).file f = { T.file f with ref := 1 } := Tables.setFile_self ..
  have hback : (T.take f).setFile f (fun y => { y with ref := 0, type := .none }) = T := by
    unfold Tables.take Tables.setFile
    dsimp only
    rw [Function.update_self, Function.update_idem]
    have hsame : { T.file f with ref := 0, type := FdType.none } = T.file f := by rw [← href, ← htype]
    rw [hsame, Function.update_eq_self]
  refine Triple.bind getTables_look fun a => Triple.of_fact fun ha => ?_
  dsimp only
  rw [ha, hself]
  refine Triple.bind (R := fun _ => Look p op (s₀.withTables (T.take f)) x m L)
    (Triple.assert (fun _ _ h => h) fun hn => absurd le_rfl hn) fun _ => ?_
  rw [if_neg (by simp)]
  refine Triple.bind (setFile_look _) fun _ => ?_
  rw [hback, if_neg (by rw [htype]; simp)]
  exact Triple.pure fun _ h => h

/-- A call that fails with `ip` locked. -/
theorem fail_look : Triple (Look p true (s₀.withTables T) (plus (fun _ => 0) ip) m (insert ip ∅))
    (do iunlockput p ip; end_op; pure (-1) : M ℤ) (fun r s => r = -1 ∧ Ended s₀ T (fun _ => 0) s) Never := by
  refine Triple.bind (put_look (Finset.notMem_empty ip) le_rfl) fun _ => ?_
  exact Triple.bind end_op_look fun _ => Triple.pure fun s h => ⟨rfl, h.2⟩

/-- What `sys_open` leaves when it has inode `n` locked at `ip`. -/
def Opens (s₀ : State) (p : Slot) (omode : BitVec 32) (ip : Iref) (n : ℕ) (r : ℤ) (s : State) : Prop :=
  match s₀.tables.freeFile, s₀.tables.freeFd p with
  | some f, some fd => r = fd.val ∧ (s.inode ip).inum = n ∧
      Ended s₀ (s₀.tables.withFile p omode ip f fd) (plus (fun _ => 0) ip) s
  | _, _ => r = -1 ∧ Ended s₀ s₀.tables (fun _ => 0) s

/-- **The end of `sys_open`.** -/
theorem openFile_look (hT : ∀ f, (s₀.tables.file f).ref = 0 → (s₀.tables.file f).type = .none) (omode : BitVec 32)
    (ip : Iref) : Triple (Look p true s₀ (plus (fun _ => 0) ip) m (insert ip ∅)) (openFile p omode ip)
      (Opens s₀ p omode ip (m ip)) Never := by
  have hmem := Finset.mem_insert_self ip (∅ : Finset Iref)
  set T := s₀.tables with hT₀
  show Triple (Look p true (s₀.withTables T) (plus (fun _ => 0) ip) m (insert ip ∅)) _ _ _
  unfold Opens
  refine Triple.bind filealloc_look fun r => Triple.of_fact fun hr => ?_
  rw [hr]
  cases hf : T.freeFile with
  | none => exact fail_look
  | some f =>
    have href : (T.file f).ref = 0 := by simpa using List.find?_some hf
    refine Triple.bind (fdalloc_look f) fun r => Triple.of_fact fun hr => ?_
    have hsame : (T.take f).freeFd p = T.freeFd p := rfl
    rw [hr, Option.elim_some, hsame]
    cases hfd : T.freeFd p with
    | none => exact Triple.bind (fileclose_look href (hT f href)) fun _ => fail_look
    | some fd =>
      refine Triple.bind (iunlock_look hmem) fun _ => ?_
      rw [Finset.erase_insert (Finset.notMem_empty ip)]
      refine Triple.bind end_op_look fun _ => ?_
      refine Triple.bind (R := fun _ s => (s.inode ip).inum = m ip ∧
        Ended s₀ (T.withFile p omode ip f fd) (plus (fun _ => 0) ip) s) (Triple.modify fun s h => ?_) fun _ =>
        Triple.pure fun s h => ⟨rfl, h⟩
      obtain ⟨hm, h⟩ := h
      refine ⟨hm ip, ?_, h.inOp, h.monitor, h.lock, h.ref, h.view⟩
      show ({ s.tables with file := _ } : Tables) = _
      rw [h.tables]
      rfl

end

end Xv6.Fs
