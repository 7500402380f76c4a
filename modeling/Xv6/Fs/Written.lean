import Xv6.Fs.Run

/-!
# Directories are not written through descriptors

* `Frame`: a write to a file changes nothing but the inode of the file.
* **`never_directory`**: in every run in which no symlink to a directory is opened for writing, no
  file that is open for writing is a directory, and no write changes one.
* `open_link_writes_directory`: `O_NOFOLLOW` makes `sys_open` follow the symlink, after the check
  that the inode is no directory.
-/

namespace Xv6.Fs

open Prog

/-- Only `ip` has changed, and the file is still the same. -/
structure Frame (s₀ : State) (ip : Iref) (f : Fref) (s : State) : Prop where
  other : ∀ i, i ≠ ip → (s.inode i).di = (s₀.inode i).di
  inum : (s.inode ip).inum = (s₀.inode ip).inum
  disk : ∀ n, n ≠ (s₀.inode ip).inum → s.disk n = s₀.disk n
  file : (s.tables.file f).ip = ip

section

variable {p : Slot} {s₀ : State} {ip : Iref} {f : Fref}

theorem Frame.setInode {s : State} (h : Frame s₀ ip f s) {g : Inode → Inode} (hg : ∀ y, (g y).inum = y.inum) :
    Frame s₀ ip f (s.setInode ip g) := by
  refine ⟨fun i hi => ?_, ?_, h.disk, h.file⟩
  · rw [inode_setInode_ne s g hi]
    exact h.other i hi
  · rw [inode_setInode_self, hg]
    exact h.inum

theorem Frame.setDisk {s : State} (h : Frame s₀ ip f s) (g : Dinode → Dinode) :
    Frame s₀ ip f (s.setDisk (s.inode ip).inum g) := by
  refine ⟨h.other, h.inum, fun n hn => ?_, h.file⟩
  have hne : n ≠ (s.inode ip).inum := by
    rw [h.inum]
    exact hn
  have hdisk : (s.setDisk (s.inode ip).inum g).disk n = s.disk n := Function.update_of_ne hne ..
  rw [hdisk]
  exact h.disk n hn

theorem setInode_frame {g : Inode → Inode} (hg : ∀ y, (g y).inum = y.inum) :
    Triple (Frame s₀ ip f) (setInode ip g) (fun _ => Frame s₀ ip f) (fun _ => Frame s₀ ip f) :=
  Triple.modify fun _ h => h.setInode hg

theorem assert_frame {c : Prop} [Decidable c] {e : Fault} :
    Triple (Frame s₀ ip f) (Prog.assert c e) (fun _ => Frame s₀ ip f) (fun _ => Frame s₀ ip f) :=
  Triple.assert (fun _ _ h => h) fun _ _ h => h

theorem examine_frame : Triple (Frame s₀ ip f) (examine p ip) (fun _ => Frame s₀ ip f) (fun _ => Frame s₀ ip f) := by
  refine Triple.modify fun s h => ?_
  split
  · exact h
  · exact ⟨h.other, h.inum, h.disk, h.file⟩

theorem ilock_frame : Triple (Frame s₀ ip f) (ilock p ip) (fun _ => Frame s₀ ip f) (fun _ => Frame s₀ ip f) := by
  refine Triple.bind (getInode_any _) fun y => Triple.bind assert_frame fun _ => ?_
  refine Triple.bind (R := fun _ => Frame s₀ ip f) ?_ fun _ => ?_
  · refine Triple.bind (getInode_any _) fun z => ?_
    exact Triple.ite (fun _ => setInode_frame fun _ => rfl) fun _ => Triple.throw fun _ h => h
  · refine Triple.ite (fun _ => Triple.pure fun _ h => h) fun _ => ?_
    refine Triple.bind (R := fun _ => Frame s₀ ip f) (Triple.get fun _ h => h) fun a => ?_
    exact Triple.bind (setInode_frame fun _ => rfl) fun _ => assert_frame

theorem iunlock_frame : Triple (Frame s₀ ip f) (iunlock p ip) (fun _ => Frame s₀ ip f) (fun _ => Frame s₀ ip f) :=
  Triple.bind (getInode_any _) fun _ => Triple.bind assert_frame fun _ => setInode_frame fun _ => rfl

theorem iupdate_frame : Triple (Frame s₀ ip f) (iupdate p ip) (fun _ => Frame s₀ ip f) (fun _ => Frame s₀ ip f) :=
  Triple.bind examine_frame fun _ => Triple.modify fun _ h => h.setDisk _

theorem writei_frame (off : ℕ) (bs : Bytes) : Triple (Frame s₀ ip f) (writei p ip off bs) (fun _ => Frame s₀ ip f)
    (fun _ => Frame s₀ ip f) := by
  refine Triple.bind examine_frame fun _ => ?_
  refine Triple.bind (R := fun _ => Frame s₀ ip f) (Triple.get fun _ h => h) fun a => ?_
  dsimp only
  split
  · exact Triple.pure fun _ h => h
  split
  · exact Triple.pure fun _ h => h
  refine Triple.bind assert_frame fun _ => Triple.bind (setInode_frame fun _ => rfl) fun _ => ?_
  refine Triple.bind (R := fun _ => Frame s₀ ip f) (Triple.modify fun _ h => h.setDisk _) fun _ => ?_
  exact Triple.bind (Triple.when fun _ => iupdate_frame) fun _ => Triple.pure fun _ h => h

theorem op_frame {b : Bool} : Triple (Frame s₀ ip f) (Prog.modify fun s => { s with inOp := b } : M Unit)
    (fun _ => Frame s₀ ip f) (fun _ => Frame s₀ ip f) :=
  Triple.modify fun _ h => ⟨h.other, h.inum, h.disk, h.file⟩

theorem setFile_frame {g : File → File} (hg : ∀ y, (g y).ip = y.ip) :
    Triple (Frame s₀ ip f) (setFile f g) (fun _ => Frame s₀ ip f) (fun _ => Frame s₀ ip f) := by
  refine Triple.modify fun s h => ⟨h.other, h.inum, h.disk, ?_⟩
  have hfile : (s.setFile f g).tables.file f = g (s.tables.file f) := Function.update_self ..
  rw [hfile, hg]
  exact h.file

/-- **A write changes the inode of the file, and no other.** -/
theorem filewriteLoop_frame (k : ℕ) : ∀ bs, Triple (Frame s₀ ip f) (filewriteLoop p f k bs) (fun _ => Frame s₀ ip f)
    (fun _ => Frame s₀ ip f) := by
  induction k with
  | zero => exact fun bs => Triple.pure fun _ h => h
  | succ k ih =>
    intro bs
    refine Triple.ite (fun _ => Triple.pure fun _ h => h) fun _ => ?_
    refine Triple.bind op_frame fun _ => ?_
    refine Triple.bind (R := fun a s => Frame s₀ ip f s ∧ (a.tables.file f).ip = ip)
      (Triple.get fun _ h => ⟨h, h.file⟩) fun a => ?_
    refine Triple.fact (c := (a.tables.file f).ip = ip) (fun _ h => h.2) fun hip => ?_
    rw [hip]
    refine Triple.pre (A := Frame s₀ ip f) ?_ fun _ h => h.1
    refine Triple.bind ilock_frame fun _ => Triple.bind (writei_frame _ _) fun r => ?_
    refine Triple.bind (setFile_frame fun _ => rfl) fun _ => Triple.bind iunlock_frame fun _ => ?_
    refine Triple.bind op_frame fun _ => ?_
    match r with
    | none => exact Triple.pure fun _ h => h
    | some n => exact Triple.bind assert_frame fun _ => ih _

theorem filewrite_frame (s : State) (f : Fref) (bs : Bytes) (answer : ℤ) :
    (filewrite p f bs answer s).2 = s ∨ ∃ f', (s.tables.file f').type = .inode ∧ (s.tables.file f').writable = true ∧
      Frame s (s.tables.file f').ip f' (filewrite p f bs answer s).2 := by
  have hget : (Prog.get : M State) s = (.ok s, s) := rfl
  unfold filewrite
  rw [bind_of_ok hget]
  by_cases hw : (s.tables.file f).writable = false
  · rw [if_pos hw]
    exact .inl rfl
  rw [if_neg hw]
  cases htype : (s.tables.file f).type with
  | pipe => exact .inl rfl
  | none => exact .inl rfl
  | inode =>
    refine .inr ⟨f, htype, by simpa using hw, ?_⟩
    have hloop : Triple (Frame s (s.tables.file f).ip f) (do
        let done ← filewriteLoop p f bs.length bs
        pure (if done then bs.length else -1) : M ℤ) (fun _ => Frame s (s.tables.file f).ip f)
        (fun _ => Frame s (s.tables.file f).ip f) :=
      Triple.bind (filewriteLoop_frame bs.length bs) fun _ => Triple.pure fun _ h => h
    exact hloop.state ⟨fun _ _ => rfl, rfl, fun _ _ => rfl, rfl⟩

/-- A write to a descriptor changes nothing, or the inode of a file that is open for writing. -/
theorem sysWrite_frame (s : State) (fd : Fd) (bs : Bytes) (answer : ℤ) :
    (sysWrite p fd bs answer s).2 = s ∨ ∃ f, (s.tables.file f).type = .inode ∧ (s.tables.file f).writable = true ∧
      Frame s (s.tables.file f).ip f (sysWrite p fd bs answer s).2 := by
  have hget : (Prog.get : M State) s = (.ok s, s) := rfl
  unfold sysWrite
  rw [bind_of_ok hget]
  cases s.tables.ofile p fd with
  | none => exact .inl rfl
  | some f => exact filewrite_frame s f bs answer

/-- What is open for writing, and no directory. -/
theorem Idle.writable {q : Bool → Prop} {x : Iref → ℤ} {s : State} (hx : ∀ i, 0 ≤ x i)
    (h : Idle p true q x s) {f : Fref}
    (htype : (s.tables.file f).type = .inode) (hw : (s.tables.file f).writable = true) :
    0 < (s.inode (s.tables.file f).ip).ref ∧ (s.inode (s.tables.file f).ip).valid = true ∧
      (s.inode (s.tables.file f).ip).di.type ≠ .dir ∧
      (s.disk (s.inode (s.tables.file f).ip).inum).type = (s.inode (s.tables.file f).ip).di.type := by
  obtain ⟨T, hT, -, h⟩ := h
  obtain rfl := h.tables
  have hfile : (s.tables.file f).ref ≠ 0 := by
    intro h0
    rw [hT.free f h0] at htype
    cases htype
  have howner : s.tables.owner (.inl f) = some (s.tables.file f).ip :=
    (owner_inl_iff _ _ _).2 ⟨by omega, htype, rfl⟩
  have hwritten : s.tables.written true (s.tables.file f).ip := ⟨rfl, f, howner, hw⟩
  have href : 0 < (s.inode (s.tables.file f).ip).ref := by
    rw [h.refs]
    have hpos := s.tables.owners_pos howner
    have hxi := hx (s.tables.file f).ip
    omega
  obtain ⟨hvalid, hdir⟩ := h.keep _ hwritten
  exact ⟨href, hvalid, hdir, (h.typed _ href hvalid).1⟩

/-- **No directory is open for writing**, and no write changes a directory, in the runs in which
no symlink that leads to a directory is opened for writing. -/
theorem never_directory (disk : ℕ → Dinode) (devsw : ℕ → Option (ℕ → Bytes)) (es : List Event) (s : State)
    (hG : machine.Guarded (fun s e => ¬ e.opensDir s) (boot disk devsw) es)
    (h : machine.run (boot disk devsw) es = some (.ok s)) :
    (∀ f, 0 < (s.tables.file f).ref → (s.tables.file f).type = .inode → (s.tables.file f).writable = true →
      (s.inode (s.tables.file f).ip).di.type ≠ .dir ∧ (s.disk (s.inode (s.tables.file f).ip).inum).type ≠ .dir) ∧
    ∀ p fd bs answer, (∀ n, (s.disk n).type = .dir → (sysWrite p fd bs answer s).2.disk n = s.disk n) ∧
      ∀ i, (s.inode i).di.type = .dir → ((sysWrite p fd bs answer s).2.inode i).di = (s.inode i).di := by
  have hcounted : Counted initproc true s := by
    refine Machine.guarded_inv (M := machine) ⟨fun _ => 0, fun _ => le_rfl, boot_idle trivial⟩ ?_ hG h
    exact fun s e s' hI hdir hstep => step_counted (fun _ => hdir) hI hstep
  obtain ⟨x, hx, hidle⟩ := hcounted
  constructor
  · intro f _ htype hw
    obtain ⟨-, -, hdir, hdisk⟩ := hidle.writable hx htype hw
    exact ⟨hdir, by rwa [hdisk]⟩
  · intro p fd bs answer
    rcases sysWrite_frame (p := p) s fd bs answer with hsame | ⟨f, htype, hw, hframe⟩
    · rw [hsame]
      exact ⟨fun _ _ => rfl, fun _ _ => rfl⟩
    · obtain ⟨-, -, hdir, hdisk⟩ := hidle.writable hx htype hw
      refine ⟨fun n hn => hframe.disk n ?_, fun i hi => hframe.other i ?_⟩
      · rintro rfl
        rw [hdisk] at hn
        exact hdir hn
      · rintro rfl
        exact hdir hi

end

theorem never_directory_open : ∃ es s, machine.run (boot oneFile fun _ => none) es = some (.ok s) ∧
    (∃ f, s.tables.ofile initproc 0 = some f ∧ 0 < (s.tables.file f).ref ∧ (s.tables.file f).type = .inode ∧
      (s.tables.file f).writable = true ∧ (s.inode (s.tables.file f).ip).di.type ≠ .dir) := by
  have hrun : ∃ s, machine.run (boot oneFile fun _ => none) [⟨initproc, userA, .open (some 0) O_RDWR⟩] =
      some (.ok s) ∧ s.tables.ofile initproc 0 = some 0 ∧ 0 < (s.tables.file 0).ref ∧
        (s.tables.file 0).type = .inode ∧ (s.tables.file 0).writable = true :=
    Machine.run_of_reaches (by decide +kernel)
  obtain ⟨s, hs, hopen, href, htype, hw⟩ := hrun
  have hdir := (never_directory oneFile (fun _ => none) _ s (Machine.guarded_of_mem ?_) hs).1 0 href htype hw
  · exact ⟨_, s, hs, 0, hopen, href, htype, hw, hdir.1⟩
  · intro e he s
    obtain rfl : e = ⟨initproc, userA, .open (some 0) O_RDWR⟩ := by simpa using he
    rintro ⟨path, omode, hcall, -, hfollow, -⟩
    cases hcall
    exact absurd hfollow (by decide)

/-- A disk with nothing but the root directory. -/
def rootOnly : ℕ → Dinode
  | 1 => ⟨.dir, 0, 0, 1, dirent 1 [46] ++ dirent 1 [46, 46]⟩
  | _ => noDinode

/-- A memory with short strings at the addresses 0, 0x2f and 0x61. -/
def userLink : User := ⟨4096, fun addr => if addr = 0 ∨ addr = 0x61 ∨ addr = 0x2f then 97 else 0⟩

/-- The symlink `a` leads to the root directory, which `O_NOFOLLOW` opens for writing. -/
theorem open_link_writes_directory : ¬ ∀ (disk : ℕ → Dinode) (devsw : ℕ → Option (ℕ → Bytes)) (es : List Event)
    (s : State), machine.run (boot disk devsw) es = some (.ok s) →
      ∀ f, 0 < (s.tables.file f).ref → (s.tables.file f).type = .inode → (s.tables.file f).writable = true →
        (s.inode (s.tables.file f).ip).di.type ≠ .dir := by
  intro hall
  have hrun : ∃ s, machine.run (boot rootOnly fun _ => none)
      [⟨initproc, userLink, .symlink (some 0x2f) (some 0x61) [] []⟩,
        ⟨initproc, userLink, .open (some 0) (O_NOFOLLOW ||| O_RDWR)⟩] = some (.ok s) ∧
      0 < (s.tables.file 0).ref ∧ (s.tables.file 0).type = .inode ∧ (s.tables.file 0).writable = true ∧
        (s.inode (s.tables.file 0).ip).di.type = .dir := Machine.run_of_reaches (by decide +kernel)
  obtain ⟨s, hs, href, htype, hw, hdir⟩ := hrun
  exact hall _ _ _ s hs 0 href htype hw hdir

end Xv6.Fs
