import Xv6.Lib.Machine
import Xv6.Lib.Refs
import Xv6.Lwp.Files

/-!
# Calls on files keep the reference counts

`FilesOk`: the counters of the files are the descriptors that refer to them, those of the
inodes the open files and the working directories. `sysOpen_ok`, `sysDup_ok`, `sysClose_ok`,
`sysPipe_ok`, `sysChdir_ok`, `closeAll_ok` and `dupAll_ok`: every call on files keeps this,
and leaves the files of the other slots as they are (`Files.Only`).
-/

namespace Xv6.Lwp

variable {p q np : Slot}

/-- The inode of a file. -/
def FileType.held : FileType → Option Inode
  | .inode ip => some ip
  | _ => Option.none

/-- What refers to inodes: open files and working directories. -/
def Files.holder (x : Files) : File ⊕ Slot → Option Inode
  | .inl f => (x.file f).type.held
  | .inr p => x.cwd p

structure FilesOk (x : Files) : Prop where
  files : Counts x.ofile fun f => (x.file f).ref
  inodes : Counts x.holder x.iref
  free : ∀ f, (x.file f).ref = 0 → (x.file f).type = .none

/-- The slot has no files. -/
def Files.Empty (x : Files) (p : Slot) : Prop := (∀ fd, x.ofile (p, fd) = none) ∧ x.cwd p = none

variable {x x' : Files} {f : File} {fd : Fd} {ip : Inode}

theorem filealloc_some (h : x.filealloc = some (f, x')) :
    (x.file f).ref = 0 ∧ x' = x.setFile f { x.file f with ref := 1 } := by
  simp only [Files.filealloc, Option.map_eq_some_iff, Prod.mk.injEq] at h
  obtain ⟨_, hf, rfl, rfl⟩ := h
  exact ⟨by simpa using List.find?_some hf, rfl⟩

theorem fdalloc_some (h : x.fdalloc p f = some x') :
    ∃ fd, x.ofile (p, fd) = none ∧ x' = x.setOfile p fd (some f) := by
  simp only [Files.fdalloc, Option.map_eq_some_iff] at h
  obtain ⟨fd, hfd, rfl⟩ := h
  exact ⟨fd, by simpa using List.find?_some hfd, rfl⟩

theorem filedup_ok (h : x.filedup f = .ok x') :
    x' = x.setFile f { x.file f with ref := (x.file f).ref + 1 } := by
  unfold Files.filedup at h
  split at h
  · cases h
  · cases h; rfl

/-- The last reference releases what the file has; the others are only counted. -/
theorem fileclose_ok (h : x.fileclose f = .ok x') :
    (1 < (x.file f).ref ∧ x' = x.setFile f { x.file f with ref := (x.file f).ref - 1 }) ∨
      ((x.file f).ref = 1 ∧ x' = (x.setFile f ⟨.none, 0⟩).release (x.file f).type) := by
  unfold Files.fileclose at h
  split at h
  · cases h
  · split at h
    · cases h; exact .inl ⟨by omega, rfl⟩
    · cases h; exact .inr ⟨by omega, rfl⟩

theorem release_file (x : Files) (ty : FileType) : (x.release ty).file = x.file := by
  cases ty <;> rfl

theorem release_ofile (x : Files) (ty : FileType) : (x.release ty).ofile = x.ofile := by
  cases ty <;> rfl

theorem release_cwd (x : Files) (ty : FileType) : (x.release ty).cwd = x.cwd := by
  cases ty <;> rfl

theorem fileclose_ofile (h : x.fileclose f = .ok x') : x'.ofile = x.ofile ∧ x'.cwd = x.cwd := by
  rcases fileclose_ok h with ⟨-, rfl⟩ | ⟨-, rfl⟩
  · exact ⟨rfl, rfl⟩
  · rw [release_ofile, release_cwd]
    exact ⟨rfl, rfl⟩

theorem ref_setFile_self (x : Files) (f : File) (e : FileEntry) : (x.setFile f e).file f = e :=
  Function.update_self ..

theorem ref_setFile_ne (x : Files) {f g : File} (e : FileEntry) (h : g ≠ f) :
    (x.setFile f e).file g = x.file g := Function.update_of_ne h ..

/-- Only the counter of a file changes. -/
theorem holder_setRef (x : Files) (f : File) (r : ℤ) (i : File ⊕ Slot) :
    (x.setFile f { x.file f with ref := r }).holder i = x.holder i := by
  cases i with
  | inl g =>
    show ((x.setFile f _).file g).type.held = (x.file g).type.held
    by_cases hg : g = f
    · rw [hg, ref_setFile_self]
    · rw [ref_setFile_ne x _ hg]
  | inr p => rfl

theorem free_setRef (h : ∀ f, (x.file f).ref = 0 → (x.file f).type = .none) (f : File) {r : ℤ} (hr : r ≠ 0)
    (g : File) (hg : ((x.setFile f { x.file f with ref := r }).file g).ref = 0) :
    ((x.setFile f { x.file f with ref := r }).file g).type = .none := by
  by_cases hgf : g = f
  · rw [hgf, ref_setFile_self] at hg
    exact absurd hg hr
  · rw [ref_setFile_ne x _ hgf] at hg ⊢
    exact h g hg

/-- **One more descriptor** for a file. -/
theorem FilesOk.dup (h : FilesOk x) (hf : x.ofile (p, fd) = some f) {fd' : Fd}
    (hnp : x.ofile (np, fd') = none) (hx : x.filedup f = .ok x') :
    FilesOk (x'.setOfile np fd' (some f)) := by
  rw [filedup_ok hx]
  have hpos := h.files.pos hf
  refine ⟨?_, ?_, ?_⟩
  · refine h.files.fill (i := (np, fd')) (r := f) hnp (Function.update_self ..)
      (fun j hj => Function.update_of_ne hj ..) ?_ fun g hg => ?_
    · show ((x.setFile f _).file f).ref = _
      rw [ref_setFile_self]
    · show ((x.setFile f _).file g).ref = _
      rw [ref_setFile_ne x _ hg]
  · exact h.inodes.congr (holder_setRef x f ((x.file f).ref + 1)) fun _ => rfl
  · exact free_setRef h.free f (by omega)

/-- **A descriptor less** for a file, which is released with its last one. -/
theorem FilesOk.drop (h : FilesOk x) (hf : x.ofile (p, fd) = some f) (hx : x.fileclose f = .ok x') :
    FilesOk (x'.setOfile p fd none) := by
  have hown : (x'.setOfile p fd none).ofile = Function.update x.ofile (p, fd) none := by
    show Function.update x'.ofile (p, fd) none = _
    rw [(fileclose_ofile hx).1]
  have hfiles : (x'.file f).ref = (x.file f).ref - 1 → (∀ g, g ≠ f → x'.file g = x.file g) →
      Counts (x'.setOfile p fd none).ofile fun f => ((x'.setOfile p fd none).file f).ref := by
    intro hr hg
    rw [hown]
    refine h.files.clear (i := (p, fd)) (r := f) hf (Function.update_self ..)
      (fun j hj => Function.update_of_ne hj ..) hr fun g hgf => ?_
    show (x'.file g).ref = _
    rw [hg g hgf]
  rcases fileclose_ok hx with ⟨hgt, rfl⟩ | ⟨h1, rfl⟩
  · refine ⟨hfiles (by rw [ref_setFile_self]) fun g hg => ref_setFile_ne x _ hg, ?_, ?_⟩
    · exact h.inodes.congr (holder_setRef x f ((x.file f).ref - 1)) fun _ => rfl
    · exact free_setRef h.free f (by omega)
  · have hfile : ∀ g, (((x.setFile f ⟨.none, 0⟩).release (x.file f).type).file g) =
        (x.setFile f ⟨.none, 0⟩).file g := fun g => by rw [release_file]
    refine ⟨hfiles (by rw [hfile, ref_setFile_self, h1]; rfl) (fun g hg => by
      rw [hfile, ref_setFile_ne x _ hg]), ?_, ?_⟩
    · -- the inode of the file loses a reference, if it has one
      have hself : (x.setFile f ⟨.none, 0⟩).holder (.inl f) = none := by
        show ((x.setFile f ⟨.none, 0⟩).file f).type.held = none
        rw [ref_setFile_self]
        rfl
      have hother : ∀ i, i ≠ .inl f → (x.setFile f ⟨.none, 0⟩).holder i = x.holder i := by
        intro i hi
        cases i with
        | inl g =>
          show ((x.setFile f ⟨.none, 0⟩).file g).type.held = _
          rw [ref_setFile_ne x _ fun e => hi (by rw [e])]
          rfl
        | inr q => rfl
      cases hty : (x.file f).type with
      | inode ip =>
        have hheld : x.holder (.inl f) = some ip := by
          show (x.file f).type.held = some ip
          rw [hty]
          rfl
        have hc : Counts (x.setFile f ⟨.none, 0⟩).holder (Function.update x.iref ip (x.iref ip - 1)) :=
          h.inodes.clear hheld hself hother (Function.update_self ..) fun y hy => Function.update_of_ne hy ..
        exact hc
      | _ =>
        refine h.inodes.congr (fun i => ?_) fun _ => rfl
        by_cases hi : i = .inl f
        · rw [hi]
          refine hself.trans ?_
          show none = (x.file f).type.held
          rw [hty]
          rfl
        · exact hother i hi
    · intro g hg
      show (((x.setFile f ⟨.none, 0⟩).release (x.file f).type).file g).type = _
      have hg' : (((x.setFile f ⟨.none, 0⟩).release (x.file f).type).file g).ref = 0 := hg
      rw [hfile] at hg' ⊢
      by_cases hgf : g = f
      · rw [hgf, ref_setFile_self]
      · rw [ref_setFile_ne x _ hgf] at hg' ⊢
        exact h.free g hg'

/-- **A new file**, with the first descriptor that refers to it. -/
theorem FilesOk.new (h : FilesOk x) (ty : FileType) (hf : (x.file f).ref = 0)
    (hfd : x.ofile (p, fd) = none) (hfile : x'.file = Function.update x.file f ⟨ty, 1⟩)
    (hofile : x'.ofile = Function.update x.ofile (p, fd) (some f)) (hcwd : x'.cwd = x.cwd)
    (hin : ty.held = none ∧ x'.iref = x.iref ∨
      ∃ ip, ty.held = some ip ∧ x'.iref = Function.update x.iref ip (x.iref ip + 1)) : FilesOk x' := by
  have hself : x'.file f = ⟨ty, 1⟩ := by rw [hfile, Function.update_self]
  have hne : ∀ g, g ≠ f → x'.file g = x.file g := fun g hg => by rw [hfile, Function.update_of_ne hg]
  have hold : x.holder (.inl f) = none := by
    show (x.file f).type.held = none
    rw [h.free f hf]
    rfl
  have hnew : x'.holder (.inl f) = ty.held := by
    show (x'.file f).type.held = ty.held
    rw [hself]
  have hother : ∀ i, i ≠ .inl f → x'.holder i = x.holder i := by
    intro i hi
    cases i with
    | inl g =>
      show (x'.file g).type.held = _
      rw [hne g fun e => hi (by rw [e])]
      rfl
    | inr q => exact congrFun hcwd q
  refine ⟨?_, ?_, ?_⟩
  · refine h.files.fill (i := (p, fd)) (r := f) hfd (by rw [hofile, Function.update_self])
      (fun j hj => by rw [hofile, Function.update_of_ne hj]) ?_ fun g hg => by rw [hne g hg]
    rw [hself, hf]
    rfl
  · rcases hin with ⟨hty, hiref⟩ | ⟨ip, hty, hiref⟩
    · refine h.inodes.congr (fun i => ?_) fun _ => by rw [hiref]
      by_cases hi : i = .inl f
      · rw [hi, hnew, hold, hty]
      · exact hother i hi
    · refine h.inodes.fill (i := .inl f) (r := ip) hold (hnew.trans hty) hother ?_ fun y hy => ?_
      · rw [hiref, Function.update_self]
      · rw [hiref, Function.update_of_ne hy]
  · intro g hg
    by_cases hgf : g = f
    · rw [hgf, hself] at hg
      cases hg
    · rw [hne g hgf] at hg ⊢
      exact h.free g hg

theorem FilesOk.congr (h : FilesOk x) (hfile : ∀ f, x'.file f = x.file f) (hofile : x'.ofile = x.ofile)
    (hcwd : x'.cwd = x.cwd) (hiref : ∀ ip, x'.iref ip = x.iref ip) : FilesOk x' := by
  obtain ⟨file, ofile, cwd, iref⟩ := x
  obtain ⟨file', ofile', cwd', iref'⟩ := x'
  obtain rfl : file' = file := funext hfile
  obtain rfl : ofile' = ofile := hofile
  obtain rfl : cwd' = cwd := hcwd
  obtain rfl : iref' = iref := funext hiref
  exact h

/-- The files of the other slots stay. -/
def Files.Only (x x' : Files) (p : Slot) : Prop :=
  ∀ q, q ≠ p → (∀ fd, x'.ofile (q, fd) = x.ofile (q, fd)) ∧ x'.cwd q = x.cwd q

theorem Files.Only.of_eq (hofile : x'.ofile = x.ofile) (hcwd : x'.cwd = x.cwd) : x.Only x' p :=
  fun q _ => ⟨fun fd => by rw [hofile], by rw [hcwd]⟩

theorem Files.Only.of_update {o : Option File} (hofile : x'.ofile = Function.update x.ofile (p, fd) o)
    (hcwd : x'.cwd = x.cwd) : x.Only x' p := by
  intro q hq
  refine ⟨fun fd' => ?_, by rw [hcwd]⟩
  rw [hofile, Function.update_of_ne]
  simp [hq]

theorem Files.Only.trans {x'' : Files} (h : x.Only x' p) (h' : x'.Only x'' p) : x.Only x'' p := by
  intro q hq
  obtain ⟨ho, hc⟩ := h q hq
  obtain ⟨ho', hc'⟩ := h' q hq
  exact ⟨fun fd => (ho' fd).trans (ho fd), hc'.trans hc⟩

theorem Files.Only.empty (h : x.Only x' p) (hq : q ≠ p) (he : x.Empty q) : x'.Empty q :=
  ⟨fun fd => ((h q hq).1 fd).trans (he.1 fd), (h q hq).2.trans he.2⟩

theorem sysDup_ok (h : FilesOk x) (hx : x.sysDup p fd = .ok x') : FilesOk x' ∧ x.Only x' p := by
  unfold Files.sysDup at hx
  split at hx
  · cases hx; exact ⟨h, .of_eq rfl rfl⟩
  · rename_i f hf
    split at hx
    · cases hx; exact ⟨h, .of_eq rfl rfl⟩
    · rename_i x₁ hx₁
      obtain ⟨fd', hfd', rfl⟩ := fdalloc_some hx₁
      -- the descriptor is stored before the counter is raised
      have hdup : x.filedup f = .ok (x.setFile f { x.file f with ref := (x.file f).ref + 1 }) := by
        have hpos := h.files.pos hf
        unfold Files.filedup
        rw [if_neg (by omega)]
      have hok := h.dup hf hfd' hdup
      rw [filedup_ok hx]
      exact ⟨hok, .of_update rfl rfl⟩

theorem fileclose_setOfile (x : Files) (p : Slot) (fd : Fd) (o : Option File) (f : File) :
    (x.setOfile p fd o).fileclose f = (x.fileclose f).map fun x => x.setOfile p fd o := by
  have hfile : (x.setOfile p fd o).file = x.file := rfl
  unfold Files.fileclose
  rw [hfile]
  split
  · rfl
  · split
    · rfl
    · cases (x.file f).type <;> rfl

theorem sysClose_ok (h : FilesOk x) (hx : x.sysClose p fd = .ok x') : FilesOk x' ∧ x.Only x' p := by
  unfold Files.sysClose at hx
  split at hx
  · cases hx; exact ⟨h, .of_eq rfl rfl⟩
  · rename_i f hf
    rw [fileclose_setOfile] at hx
    cases hc : x.fileclose f with
    | error e => rw [hc] at hx; cases hx
    | ok x₁ =>
      rw [hc] at hx
      cases hx
      obtain ⟨ho, hcwd⟩ := fileclose_ofile hc
      have hu : (x₁.setOfile p fd none).ofile = Function.update x.ofile (p, fd) none := by
        show Function.update x₁.ofile (p, fd) none = _
        rw [ho]
      exact ⟨h.drop hf hc, .of_update hu hcwd⟩

/-- A file that was only just allocated is closed. -/
theorem fileclose_fresh (h1 : (x.file f).ref = 1) (hty : (x.file f).type.held = none) :
    x.fileclose f = .ok (x.setFile f ⟨.none, 0⟩) := by
  unfold Files.fileclose
  rw [if_neg (by omega), if_neg (by omega)]
  cases hc : (x.file f).type with
  | inode ip => rw [hc] at hty; cases hty
  | _ => rfl

theorem FilesOk.entry (h : FilesOk x) (hf : (x.file f).ref = 0) : x.file f = ⟨.none, 0⟩ := by
  have hty := h.free f hf
  cases hx : x.file f with
  | mk ty ref =>
    rw [hx] at hf hty
    dsimp only at hf hty
    rw [hf, hty]

theorem iput_iget (x : Files) (ip y : Inode) : ((x.iget ip).iput ip).iref y = x.iref y := by
  show Function.update (Function.update x.iref ip (x.iref ip + 1)) ip
    (Function.update x.iref ip (x.iref ip + 1) ip - 1) y = _
  rw [Function.update_self, Function.update_idem, Function.update_apply]
  split
  · rename_i hy; rw [hy]; omega
  · rfl

theorem sysOpen_ok (h : FilesOk x) (hx : x.sysOpen p ip = .ok x') : FilesOk x' ∧ x.Only x' p := by
  unfold Files.sysOpen at hx
  dsimp only at hx
  split at hx
  · cases hx
    exact ⟨h.congr (fun _ => rfl) rfl rfl (iput_iget x ip), .of_eq rfl rfl⟩
  · rename_i f x₁ ha
    obtain ⟨hf, rfl⟩ := filealloc_some ha
    have hf0 : (x.file f).ref = 0 := hf
    split at hx
    · -- no descriptor: everything is given back
      have hc : ((x.iget ip).setFile f { (x.iget ip).file f with ref := 1 }).fileclose f =
          .ok (((x.iget ip).setFile f { (x.iget ip).file f with ref := 1 }).setFile f ⟨.none, 0⟩) := by
        apply fileclose_fresh
        · rw [ref_setFile_self]
        · rw [ref_setFile_self]
          show (x.file f).type.held = none
          rw [h.free f hf0]
          rfl
      rw [hc] at hx
      cases hx
      refine ⟨h.congr (fun g => ?_) rfl rfl (iput_iget x ip), .of_eq rfl rfl⟩
      show Function.update (Function.update x.file f _) f ⟨.none, 0⟩ g = x.file g
      rw [Function.update_idem, ← h.entry hf0, Function.update_eq_self]
    · rename_i x₂ ho
      obtain ⟨fd, hfd, rfl⟩ := fdalloc_some ho
      cases hx
      refine ⟨h.new (.inode ip) hf0 hfd ?_ rfl rfl (.inr ⟨ip, rfl, rfl⟩), .of_update rfl rfl⟩
      show Function.update (Function.update x.file f _) f
        ⟨.inode ip, (Function.update x.file f ⟨(x.file f).type, 1⟩ f).ref⟩ = _
      rw [Function.update_idem, Function.update_self]

/-- Two files that were only just allocated are closed. -/
theorem close_fresh_pair (y : Files) (t₀ t₁ : FileType) {f₀ f₁ : File} (h : FilesOk x)
    (h0 : (x.file f₀).ref = 0) (h1 : (x.file f₁).ref = 0) (hne : f₁ ≠ f₀) (ht0 : t₀.held = none)
    (ht1 : t₁.held = none)
    (hy : y.file = Function.update (Function.update x.file f₀ ⟨t₀, 1⟩) f₁ ⟨t₁, 1⟩)
    (hofile : y.ofile = x.ofile) (hcwd : y.cwd = x.cwd) (hiref : y.iref = x.iref)
    (hx : (y.fileclose f₀ >>= fun z => z.fileclose f₁) = .ok x') : FilesOk x' ∧ x.Only x' p := by
  have hy0 : y.file f₀ = ⟨t₀, 1⟩ := by rw [hy, Function.update_of_ne hne.symm, Function.update_self]
  have hc0 : y.fileclose f₀ = .ok (y.setFile f₀ ⟨.none, 0⟩) :=
    fileclose_fresh (by rw [hy0]) (by rw [hy0]; exact ht0)
  have hy1 : (y.setFile f₀ ⟨.none, 0⟩).file f₁ = ⟨t₁, 1⟩ := by
    rw [ref_setFile_ne y _ hne, hy, Function.update_self]
  have hc1 : (y.setFile f₀ ⟨.none, 0⟩).fileclose f₁ =
      .ok ((y.setFile f₀ ⟨.none, 0⟩).setFile f₁ ⟨.none, 0⟩) :=
    fileclose_fresh (by rw [hy1]) (by rw [hy1]; exact ht1)
  rw [hc0] at hx
  have hx' : Except.ok ((y.setFile f₀ ⟨.none, 0⟩).setFile f₁ ⟨.none, 0⟩) = (.ok x' : Except FileFault Files) :=
    hc1.symm.trans hx
  cases hx'
  refine ⟨h.congr (fun g => ?_) hofile hcwd fun _ => by rw [← hiref]; rfl, .of_eq hofile hcwd⟩
  by_cases hg1 : g = f₁
  · rw [hg1, ref_setFile_self, h.entry h1]
  · rw [ref_setFile_ne _ _ hg1]
    by_cases hg0 : g = f₀
    · rw [hg0, ref_setFile_self, h.entry h0]
    · rw [ref_setFile_ne _ _ hg0, hy, Function.update_of_ne hg1, Function.update_of_ne hg0]

/-- `pipealloc` gives two new files, or leaves the table as it was. -/
theorem pipealloc_ok (h : FilesOk x) {page : Bool} {r : Option (File × File)}
    (hx : x.pipealloc page = .ok (x', r)) :
    (r = none ∧ FilesOk x' ∧ x.Only x' p) ∨
      ∃ f₀ f₁, r = some (f₀, f₁) ∧ f₁ ≠ f₀ ∧ (x.file f₀).ref = 0 ∧ (x.file f₁).ref = 0 ∧
        x' = { x with file := Function.update (Function.update x.file f₀ ⟨.pipe, 1⟩) f₁ ⟨.pipe, 1⟩ } := by
  unfold Files.pipealloc at hx
  split at hx
  · cases hx; exact .inl ⟨rfl, h, .of_eq rfl rfl⟩
  · rename_i f₀ x₁ ha
    obtain ⟨h0, rfl⟩ := filealloc_some ha
    have hent0 := h.entry h0
    split at hx
    · have hc : (x.setFile f₀ { x.file f₀ with ref := 1 }).fileclose f₀ =
          .ok ((x.setFile f₀ { x.file f₀ with ref := 1 }).setFile f₀ ⟨.none, 0⟩) := by
        apply fileclose_fresh
        · rw [ref_setFile_self]
        · rw [ref_setFile_self, h.free f₀ h0]
          rfl
      rw [hc] at hx
      cases hx
      refine .inl ⟨rfl, h.congr (fun g => ?_) rfl rfl fun _ => rfl, .of_eq rfl rfl⟩
      show Function.update (Function.update x.file f₀ _) f₀ ⟨.none, 0⟩ g = x.file g
      rw [Function.update_idem, ← hent0, Function.update_eq_self]
    · rename_i f₁ x₂ ha₁
      obtain ⟨h1, rfl⟩ := filealloc_some ha₁
      have hne : f₁ ≠ f₀ := by
        rintro rfl
        rw [ref_setFile_self] at h1
        cases h1
      rw [ref_setFile_ne x _ hne] at h1
      have hent1 := h.entry h1
      split at hx
      · cases hx
        refine .inr ⟨f₀, f₁, rfl, hne, h0, h1, congrArg (fun file => { x with file := file }) ?_⟩
        funext g
        by_cases hg1 : g = f₁
        · simp [Files.setFile, hg1, hne]
        · by_cases hg0 : g = f₀
          · simp [Files.setFile, hg0, hne.symm]
          · simp [Files.setFile, hg0, hg1]
      · left
        simp only [bind_ok] at hx
        obtain ⟨y, hy, z, hz, hr⟩ := hx
        cases hr
        refine ⟨rfl, close_fresh_pair ((x.setFile f₀ { x.file f₀ with ref := 1 }).setFile f₁
          { (x.setFile f₀ { x.file f₀ with ref := 1 }).file f₁ with ref := 1 }) .none .none h h0 h1 hne
          rfl rfl ?_ rfl rfl rfl (bind_ok.2 ⟨y, hy, hz⟩)⟩
        funext g
        by_cases hg1 : g = f₁
        · simp [Files.setFile, hg1, hne, hent1]
        · by_cases hg0 : g = f₀
          · simp [Files.setFile, hg0, hne.symm, hent0]
          · simp [Files.setFile, hg0, hg1]

theorem sysPipe_ok (h : FilesOk x) {page : Bool} (hx : x.sysPipe p page = .ok x') :
    FilesOk x' ∧ x.Only x' p := by
  unfold Files.sysPipe at hx
  rw [bind_ok] at hx
  obtain ⟨⟨y, r⟩, hy, hx⟩ := hx
  rcases pipealloc_ok (p := p) h hy with ⟨rfl, hok, honly⟩ | ⟨f₀, f₁, rfl, hne, h0, h1, hy'⟩
  · cases hx; exact ⟨hok, honly⟩
  · dsimp only at hx
    split at hx
    · exact close_fresh_pair y .pipe .pipe h h0 h1 hne rfl rfl (by rw [hy']) (by rw [hy']) (by rw [hy'])
        (by rw [hy']) hx
    · rename_i fd₀ hfd₀
      have hfree : x.ofile (p, fd₀) = none := by simpa [hy'] using List.find?_some hfd₀
      split at hx
      · rename_i x₂ hx₂
        obtain ⟨fd₁, hfd₁, rfl⟩ := fdalloc_some hx₂
        cases hx
        subst hy'
        -- one file after the other
        have hok : FilesOk ((x.setFile f₀ ⟨.pipe, 1⟩).setOfile p fd₀ (some f₀)) :=
          h.new .pipe h0 hfree rfl rfl rfl (.inl ⟨rfl, rfl⟩)
        have h1' : (((x.setFile f₀ ⟨.pipe, 1⟩).setOfile p fd₀ (some f₀)).file f₁).ref = 0 := by
          show ((x.setFile f₀ _).file f₁).ref = 0
          rw [ref_setFile_ne x _ hne, h1]
        have honly : x.Only ((x.setFile f₀ ⟨.pipe, 1⟩).setOfile p fd₀ (some f₀)) p := .of_update rfl rfl
        exact ⟨hok.new .pipe h1' hfd₁ rfl rfl rfl (.inl ⟨rfl, rfl⟩), honly.trans (.of_update rfl rfl)⟩
      · refine close_fresh_pair ((y.setOfile p fd₀ (some f₀)).setOfile p fd₀ none) .pipe .pipe h h0 h1 hne
          rfl rfl (by rw [hy']; rfl) ?_ (by rw [hy']; rfl) (by rw [hy']; rfl) hx
        show Function.update (Function.update y.ofile (p, fd₀) (some f₀)) (p, fd₀) none = x.ofile
        rw [Function.update_idem, hy', ← hfree, Function.update_eq_self]

theorem putCwd_ok (h : x.putCwd p = .ok x') : ∃ ip, x.cwd p = some ip ∧ x' = x.iput ip := by
  unfold Files.putCwd at h
  split at h
  · cases h
  · rename_i ip hip; cases h; exact ⟨ip, hip, rfl⟩

theorem Files.Only.setCwd (x : Files) (o : Option Inode) (hofile : x'.ofile = x.ofile)
    (hcwd : x'.cwd = Function.update x.cwd p o) : x.Only x' p :=
  fun q hq => ⟨fun fd => by rw [hofile], by rw [hcwd, Function.update_of_ne hq]⟩

/-- The working directory is given back. -/
theorem FilesOk.leave (h : FilesOk x) (hip : x.cwd p = some ip) :
    FilesOk ((x.iput ip).setCwd p none) := by
  refine ⟨h.files, ?_, h.free⟩
  have hold : x.holder (.inr p) = some ip := hip
  have hnew : ((x.iput ip).setCwd p none).holder (.inr p) = none := Function.update_self ..
  refine h.inodes.clear hold hnew (fun j hj => ?_) (Function.update_self ..)
    fun y hy => Function.update_of_ne hy ..
  cases j with
  | inl g => rfl
  | inr q => exact Function.update_of_ne (fun e => hj (by rw [e])) ..

/-- A process without a working directory gets one. -/
theorem FilesOk.enter (h : FilesOk x) (hp : x.cwd p = none) (ip : Inode) :
    FilesOk ((x.iget ip).setCwd p (some ip)) := by
  refine ⟨h.files, ?_, h.free⟩
  have hold : x.holder (.inr p) = none := hp
  have hnew : ((x.iget ip).setCwd p (some ip)).holder (.inr p) = some ip := Function.update_self ..
  refine h.inodes.fill hold hnew (fun j hj => ?_) (Function.update_self ..)
    fun y hy => Function.update_of_ne hy ..
  cases j with
  | inl g => rfl
  | inr q => exact Function.update_of_ne (fun e => hj (by rw [e])) ..

theorem sysChdir_ok (h : FilesOk x) (hx : x.sysChdir p ip = .ok x') : FilesOk x' ∧ x.Only x' p := by
  simp only [Files.sysChdir, bind_ok] at hx
  obtain ⟨y, hy, hx⟩ := hx
  cases hx
  obtain ⟨old, hold, rfl⟩ := putCwd_ok hy
  have hold' : x.cwd p = some old := hold
  refine ⟨?_, .setCwd x (some ip) rfl rfl⟩
  -- leaving the old directory and entering the new one, the other way round
  have hok := (h.leave hold').enter (p := p) (Function.update_self ..) ip
  refine hok.congr (fun _ => rfl) rfl ?_ fun y => ?_
  · show Function.update x.cwd p (some ip) = Function.update (Function.update x.cwd p none) p (some ip)
    rw [Function.update_idem]
  · show Function.update (Function.update x.iref ip _) old _ y =
      Function.update (Function.update x.iref old _) ip _ y
    show Function.update (Function.update x.iref ip (x.iref ip + 1)) old
        (Function.update x.iref ip (x.iref ip + 1) old - 1) y =
      Function.update (Function.update x.iref old (x.iref old - 1)) ip
        (Function.update x.iref old (x.iref old - 1) ip + 1) y
    by_cases hio : ip = old
    · subst hio
      rw [Function.update_idem, Function.update_idem, Function.update_self, Function.update_self]
      congr 1
      omega
    · rw [Function.update_of_ne (Ne.symm hio), Function.update_of_ne hio, Function.update_comm hio]

/-! ## The files of a process that ends -/

theorem closeFd_ok (h : FilesOk x) (hx : Files.closeFd p x fd = .ok x') :
    FilesOk x' ∧ x.Only x' p ∧ x'.cwd = x.cwd ∧ x'.ofile = Function.update x.ofile (p, fd) none := by
  unfold Files.closeFd at hx
  split at hx
  · rename_i hf
    cases hx
    refine ⟨h, .of_eq rfl rfl, rfl, ?_⟩
    rw [← hf, Function.update_eq_self]
  · rename_i f hf
    cases hc : x.fileclose f with
    | error e => rw [hc] at hx; cases hx
    | ok x₁ =>
      rw [hc] at hx
      cases hx
      obtain ⟨ho, hcwd⟩ := fileclose_ofile hc
      have hu : (x₁.setOfile p fd none).ofile = Function.update x.ofile (p, fd) none := by
        show Function.update x₁.ofile (p, fd) none = _
        rw [ho]
      exact ⟨h.drop hf hc, .of_update hu hcwd, hcwd, hu⟩

theorem closeLoop_ok (l : List Fd) : ∀ {x : Files}, FilesOk x → l.foldlM (Files.closeFd p) x = .ok x' →
    FilesOk x' ∧ x.Only x' p ∧ x'.cwd = x.cwd ∧
      ∀ fd, (fd ∈ l ∨ x.ofile (p, fd) = none) → x'.ofile (p, fd) = none := by
  induction l with
  | nil =>
    intro x h hx
    cases hx
    exact ⟨h, .of_eq rfl rfl, rfl, fun fd hfd => hfd.resolve_left (by simp)⟩
  | cons a l ih =>
    intro x h hx
    rw [List.foldlM_cons, bind_ok] at hx
    obtain ⟨x₁, h1, h2⟩ := hx
    obtain ⟨hok, honly, hcwd, hofile⟩ := closeFd_ok h h1
    obtain ⟨hok', honly', hcwd', hnone⟩ := ih hok h2
    refine ⟨hok', honly.trans honly', hcwd'.trans hcwd, fun fd hfd => hnone fd ?_⟩
    by_cases hfa : fd = a
    · right
      rw [hofile, hfa, Function.update_self]
    · rcases hfd with hfd | hfd
      · exact .inl ((List.mem_cons.1 hfd).resolve_left hfa)
      · right
        rw [hofile, Function.update_of_ne (by simp [hfa]), hfd]

/-- **`exit` and `thread_exit`** leave a process without files. -/
theorem closeAll_ok (h : FilesOk x) (hx : x.closeAll p = .ok x') :
    FilesOk x' ∧ x.Only x' p ∧ x'.Empty p := by
  simp only [Files.closeAll, bind_ok] at hx
  obtain ⟨y, hy, z, hz, hx⟩ := hx
  cases hx
  obtain ⟨hok, honly, -, hnone⟩ := closeLoop_ok _ h hy
  obtain ⟨ip, hip, rfl⟩ := putCwd_ok hz
  refine ⟨hok.leave hip, honly.trans (.setCwd y none rfl rfl), fun fd => ?_, Function.update_self ..⟩
  exact hnone fd (.inl (List.mem_finRange fd))

/-! ## The files of a new process -/

theorem dupFd_ok (h : FilesOk x) (hnp : x.ofile (np, fd) = none) (hx : Files.dupFd p np x fd = .ok x') :
    FilesOk x' ∧ x.Only x' np ∧ x'.cwd = x.cwd ∧
      ∀ fd', fd' ≠ fd → x'.ofile (np, fd') = x.ofile (np, fd') := by
  unfold Files.dupFd at hx
  split at hx
  · cases hx; exact ⟨h, .of_eq rfl rfl, rfl, fun _ _ => rfl⟩
  · rename_i f hf
    cases hc : x.filedup f with
    | error e => rw [hc] at hx; cases hx
    | ok x₁ =>
      rw [hc] at hx
      cases hx
      have hok := h.dup hf hnp hc
      rw [filedup_ok hc] at hok ⊢
      exact ⟨hok, .of_update rfl rfl, rfl, fun fd' hfd' => Function.update_of_ne (by simp [hfd']) ..⟩

theorem dupLoop_ok (l : List Fd) (hl : l.Nodup) : ∀ {x : Files}, FilesOk x →
    (∀ fd ∈ l, x.ofile (np, fd) = none) → l.foldlM (Files.dupFd p np) x = .ok x' →
      FilesOk x' ∧ x.Only x' np ∧ x'.cwd = x.cwd := by
  induction l with
  | nil => intro x h _ hx; cases hx; exact ⟨h, .of_eq rfl rfl, rfl⟩
  | cons a l ih =>
    intro x h hnp hx
    rw [List.foldlM_cons, bind_ok] at hx
    obtain ⟨x₁, h1, h2⟩ := hx
    obtain ⟨ha, hl⟩ := List.nodup_cons.1 hl
    obtain ⟨hok, honly, hcwd, hofile⟩ := dupFd_ok h (hnp a (by simp)) h1
    have hrest : ∀ fd ∈ l, x₁.ofile (np, fd) = none := by
      intro fd hfd
      rw [hofile fd (by rintro rfl; exact ha hfd)]
      exact hnp fd (List.mem_cons_of_mem _ hfd)
    obtain ⟨hok', honly', hcwd'⟩ := ih hl hok hrest h2
    exact ⟨hok', honly.trans honly', hcwd'.trans hcwd⟩

/-- **`fork` and `thread_create`** give a slot without files the files of another. -/
theorem dupAll_ok (h : FilesOk x) (hnp : x.Empty np) (hx : x.dupAll p np = .ok x') :
    FilesOk x' ∧ x.Only x' np := by
  simp only [Files.dupAll, bind_ok] at hx
  obtain ⟨y, hy, hx⟩ := hx
  obtain ⟨hok, honly, hcwd⟩ := dupLoop_ok _ (List.nodup_finRange _) h (fun fd _ => hnp.1 fd) hy
  split at hx
  · cases hx
  · rename_i ip hip
    cases hx
    refine ⟨hok.enter (by rw [hcwd]; exact hnp.2) ip, honly.trans (.setCwd y (some ip) rfl rfl)⟩

end Xv6.Lwp
