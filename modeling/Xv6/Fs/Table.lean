import Xv6.Fs.Calls
import Xv6.Fs.Spec

/-!
# The file table

The functions of `file.c`: what they do to the files, and so to the references that open files
hold.

* `Tidy`: a free entry of the table has no type, and only a process has a current directory.
* `Tables.written`: the inodes that are open for writing.
* `Held R`: the state of a call, with some tables that meet `R`.
* `Core.retable`: a reference goes from the call to the tables, or back.
-/

namespace Xv6.Fs

open Prog

/-! ## The tables -/

def Tables.setFile (T : Tables) (f : Fref) (g : File → File) : Tables :=
  { T with file := Function.update T.file f (g (T.file f)) }

def Tables.setOfile (T : Tables) (p : Slot) (fd : Fd) (f : Option Fref) : Tables :=
  { T with ofile := Function.update T.ofile p (Function.update (T.ofile p) fd f) }

def Tables.setCwd (T : Tables) (p : Slot) (ip : Option Iref) : Tables :=
  { T with cwd := Function.update T.cwd p ip }

def Tables.setProc (T : Tables) (p : Slot) (st : PState) : Tables :=
  { T with state := Function.update T.state p st }

/-- What holds of the tables between calls. -/
structure Tidy (T : Tables) : Prop where
  free : ∀ f, (T.file f).ref = 0 → (T.file f).type = .none
  cwd : ∀ q, T.state q ≠ .used → T.cwd q = none

/-- The entries of the cache that an open file may write to; none, if that does not matter. -/
def Tables.written (w : Bool) (T : Tables) (i : Iref) : Prop :=
  w = true ∧ ∃ f, T.owner (.inl f) = some i ∧ (T.file f).writable = true

/-- The processes, and their current directories, are the same. -/
def SameProcs (T T' : Tables) : Prop := T'.cwd = T.cwd ∧ T'.state = T.state

section

variable {T T' : Tables} {w : Bool} {f : Fref} {g : File → File} {i : Iref} {p : Slot}

theorem SameProcs.refl (T : Tables) : SameProcs T T := ⟨rfl, rfl⟩

theorem SameProcs.trans {T'' : Tables} (h : SameProcs T T') (h' : SameProcs T' T'') : SameProcs T T'' :=
  ⟨h'.1.trans h.1, h'.2.trans h.2⟩

theorem Tables.written_pos (h : T.written w i) : 0 < T.owners i := by
  obtain ⟨-, f, hf, -⟩ := h
  exact T.owners_pos hf

theorem Tables.written_plus {x : Iref → ℤ} (hx : ∀ i, 0 ≤ x i) : ∀ i, T.written w i → 0 < T.owners i + x i := by
  intro i hi
  have hpos := Tables.written_pos hi
  have hxi := hx i
  omega

@[simp] theorem Tables.setFile_self (T : Tables) (f : Fref) (g : File → File) :
    (T.setFile f g).file f = g (T.file f) := Function.update_self ..

theorem Tables.setFile_ne (T : Tables) (g : File → File) {f' : Fref} (h : f' ≠ f) :
    (T.setFile f g).file f' = T.file f' := Function.update_of_ne h ..

theorem Tables.owner_setFile_ne (T : Tables) (g : File → File) {o : Fref ⊕ Slot} (h : o ≠ .inl f) :
    (T.setFile f g).owner o = T.owner o := by
  cases o with
  | inl f' =>
    have hf : f' ≠ f := fun hf => h (by rw [hf])
    show (if 0 < ((T.setFile f g).file f').ref ∧ _ then _ else _) = _
    rw [Tables.setFile_ne T g hf]
    rfl
  | inr q => rfl

/-- What the file refers to. -/
def File.owned (x : File) : Option Iref := if 0 < x.ref ∧ x.type = .inode then some x.ip else none

theorem Tables.owner_setFile (T : Tables) (f : Fref) (g : File → File) :
    (T.setFile f g).owner (.inl f) = (g (T.file f)).owned := by
  show (if 0 < ((T.setFile f g).file f).ref ∧ _ then _ else _) = _
  rw [Tables.setFile_self]
  rfl

theorem Tables.owner_inl (T : Tables) (f : Fref) : T.owner (.inl f) = (T.file f).owned := rfl

/-- A file that refers to the same, or nothing, as before. -/
theorem Tables.owners_setFile (hg : (g (T.file f)).owned = (T.file f).owned) (i : Iref) :
    (T.setFile f g).owners i = T.owners i := by
  refine refs_congr (fun o => ?_) i
  by_cases ho : o = .inl f
  · rw [ho, Tables.owner_setFile, hg, Tables.owner_inl]
  · exact Tables.owner_setFile_ne T g ho

theorem Tables.written_setFile (hg : (g (T.file f)).owned = (T.file f).owned)
    (hw : (T.file f).owned ≠ none → (g (T.file f)).writable = (T.file f).writable) :
    (T.setFile f g).written w i → T.written w i := by
  rintro ⟨hw', f', hf', hwr⟩
  refine ⟨hw', f', ?_⟩
  by_cases hf : f' = f
  · subst hf
    rw [Tables.owner_setFile, hg] at hf'
    rw [Tables.setFile_self, hw (by rw [hf']; simp)] at hwr
    exact ⟨hf', hwr⟩
  · rw [Tables.owner_setFile_ne T g (by simp [hf])] at hf'
    rw [Tables.setFile_ne T g hf] at hwr
    exact ⟨hf', hwr⟩

theorem Tidy.setFile (h : Tidy T) (hg : (g (T.file f)).ref = 0 → (g (T.file f)).type = .none) :
    Tidy (T.setFile f g) := by
  refine ⟨fun f' hf' => ?_, h.cwd⟩
  by_cases hf : f' = f
  · subst hf
    rw [Tables.setFile_self] at hf' ⊢
    exact hg hf'
  · rw [Tables.setFile_ne T g hf] at hf' ⊢
    exact h.free f' hf'

theorem Tidy.same (h : Tidy T) (hs : SameProcs T T') (hfile : T'.file = T.file) : Tidy T' := by
  refine ⟨fun f => ?_, fun q => ?_⟩
  · rw [hfile]
    exact h.free f
  · rw [hs.1, hs.2]
    exact h.cwd q

theorem File.owned_none {x : File} (hx : x.ref = 0 ∨ x.type ≠ .inode) : x.owned = none := by
  unfold File.owned
  rw [if_neg]
  rintro ⟨href, htype⟩
  rcases hx with hx | hx
  · omega
  · exact hx htype

end

section

variable {p : Slot} {T T' : Tables} {W W' : Iref → Prop} {q : Bool → Prop} {w : Bool}
variable {x x' : Iref → ℤ} {L V : Finset Iref} {op : Bool} {s : State} {ip : Iref} {f : Fref}

theorem Core.weaken (h : Core p T W q x L V op s) (hW : ∀ i, W' i → W i) : Core p T W' q x L V op s :=
  ⟨h.tables, h.refs, h.lock, h.valid, fun i hi => h.keep i (hW i hi), h.uniq, h.typed, h.inOp, h.monitor⟩

/-- One more entry must stay. -/
theorem Core.also (h : Core p T W q x L V op s) (hip : ip ∈ V) {c : Prop} (hc : c → (s.inode ip).di.type ≠ .dir) :
    Core p T (fun i => W i ∨ (c ∧ i = ip)) q x L V op s := by
  refine ⟨h.tables, h.refs, h.lock, h.valid, fun i hi => ?_, h.uniq, h.typed, h.inOp, h.monitor⟩
  rcases hi with hi | ⟨hi, rfl⟩
  · exact h.keep i hi
  · exact ⟨(h.valid i hip).1, hc hi⟩

/-- **The tables change**: what they refer to more or less, the call holds less or more. -/
theorem Core.retable (h : Core p T W q x L V op s) (g : Tables → Tables)
    (href : ∀ i, ((g T).owners i : ℤ) + x' i = T.owners i + x i) (hW : ∀ i, W' i → W i) :
    Core p (g T) W' q x' L V op { s with tables := g s.tables } := by
  refine ⟨?_, fun i => ?_, h.lock, fun i hi => ?_, fun i hi => h.keep i (hW i hi), h.uniq, h.typed, h.inOp,
    h.monitor⟩
  · show g s.tables = g T
    rw [h.tables]
  · show (s.inode i).ref = _
    rw [href i, h.refs i]
  · rw [href i]
    exact h.valid i hi

/-- The state of a call, with some tables. -/
def Held (p : Slot) (w : Bool) (q : Bool → Prop) (R : Tables → Prop) (x : Iref → ℤ) (L : Finset Iref) (op : Bool)
    (s : State) : Prop := ∃ T, Tidy T ∧ R T ∧ Ctx p T (T.written w) q x L op s

/-- A change of a file that refers to the same as before. -/
theorem setFile_spec {g : File → File} (hg : (g (T.file f)).owned = (T.file f).owned) :
    Triple (Core p T W q x L V op) (setFile f g) (fun _ => Core p (T.setFile f g) W q x L V op) (Fine q) := by
  refine Triple.modify fun s h => h.retable (fun T => T.setFile f g) (fun i => ?_) fun _ => id
  rw [Tables.owners_setFile hg]

theorem setOfile_spec (r : Slot) (fd : Fd) (o : Option Fref) : Triple (Core p T W q x L V op) (setOfile r fd o)
    (fun _ => Core p (T.setOfile r fd o) W q x L V op) (Fine q) :=
  Triple.modify fun _ h => h.retable (fun T => T.setOfile r fd o) (fun _ => rfl) fun _ => id

theorem setProc_spec (r : Slot) (st : PState) : Triple (Core p T W q x L V op) (setProc r st)
    (fun _ => Core p (T.setProc r st) W q x L V op) (Fine q) :=
  Triple.modify fun _ h => h.retable (fun T => T.setProc r st) (fun _ => rfl) fun _ => id

/-- A process gets a current directory, to which the call held a reference. -/
theorem setCwd_spec (r : Slot) (old new : Option Iref) (hold : T.cwd r = old)
    (x' : Iref → ℤ) (hx : ∀ i, x' i + (if new = some i then 1 else 0) = x i + if old = some i then 1 else 0) :
    Triple (Core p T W q x L V op) (setCwd r new) (fun _ => Core p (T.setCwd r new) W q x' L V op) (Fine q) := by
  refine Triple.modify fun _ h => h.retable (fun T => T.setCwd r new) (fun i => ?_) fun _ => id
  have hswap : ((T.setCwd r new).owners i : ℤ) + _ = _ := Tables.owners_swap (T := T) (.inr r) (fun o ho => ?_) i
  · have h1 : T.owner (.inr r) = old := hold
    have h2 : (T.setCwd r new).owner (.inr r) = new := Function.update_self ..
    rw [h1, h2] at hswap
    have hxi := hx i
    omega
  · cases o with
    | inl f => rfl
    | inr r' =>
      have hr : r' ≠ r := fun hr => ho (by rw [hr])
      exact Function.update_of_ne hr ..

/-! ## Files -/

/-- The file that was allocated had no references. -/
theorem filealloc_spec (hT : Tidy T) : Triple (Core p T W q x L V op) filealloc
    (fun r s => match r with
      | none => Core p T W q x L V op s
      | some f => (T.file f).ref = 0 ∧ Core p (T.setFile f fun y => { y with ref := 1 }) W q x L V op s)
    (Fine q) := by
  refine Triple.bind (R := fun a s => Core p T W q x L V op s ∧ a.tables = T) (Triple.get fun _ h => ⟨h, h.tables⟩)
    fun a => ?_
  split
  · exact Triple.pure fun _ h => h.1
  · rename_i f hfind
    refine Triple.fact (c := a.tables = T) (fun _ h => h.2) fun ha => ?_
    have href : (T.file f).ref = 0 := by
      rw [← ha]
      simpa using List.find?_some hfind
    have htype := hT.free f href
    have howned : File.owned { T.file f with ref := 1 } = (T.file f).owned := by
      rw [File.owned_none (.inl href), File.owned_none (.inr (by simp [htype]))]
    exact (Triple.bind (setFile_spec howned) fun _ => Triple.pure fun _ h => ⟨href, h⟩).pre fun _ h => h.1

/-- A file that has references refers to the same with another one. -/
theorem File.owned_ref (y : File) (n : ℕ) (hy : 1 ≤ y.ref) (hn : 1 ≤ n) :
    File.owned { y with ref := n } = y.owned := by
  have h1 : 0 < y.ref := hy
  have h2 : 0 < n := hn
  simp only [File.owned, h1, h2, true_and]

theorem filedup_spec (f : Fref) : Triple (Core p T W q x L V op) (filedup f)
    (fun _ s => 1 ≤ (T.file f).ref ∧ Core p (T.setFile f fun y => { y with ref := y.ref + 1 }) W q x L V op s)
    (Fine q) := by
  refine Triple.bind (R := fun a s => Core p T W q x L V op s ∧ a.tables = T) (Triple.get fun _ h => ⟨h, h.tables⟩)
    fun a => ?_
  refine Triple.bind (R := fun _ s => Core p T W q x L V op s ∧ 1 ≤ (T.file f).ref)
    (Triple.assert (fun hf s h => ⟨h.1, ?_⟩) fun _ s h => h.1.fine (by simp)) fun _ => ?_
  · rwa [← h.2]
  refine Triple.fact (c := 1 ≤ (T.file f).ref) (fun _ h => h.2) fun hf => ?_
  exact ((setFile_spec (File.owned_ref _ _ hf (by omega))).post fun _ s h => ⟨hf, h⟩).pre fun _ h => h.1

theorem fdalloc_spec (f : Fref) : Triple (Core p T W q x L V op) (fdalloc p f)
    (fun r s => Core p (match r with | none => T | some fd => T.setOfile p fd (some f)) W q x L V op s) (Fine q) := by
  refine Triple.bind (R := fun _ => Core p T W q x L V op) (Triple.get fun _ h => h) fun a => ?_
  split
  · exact Triple.pure fun _ h => h
  · exact Triple.bind (setOfile_spec p _ _) fun _ => Triple.pure fun _ h => h

/-- The last reference to a file that refers to no inode. -/
theorem fileclose_last (href : (T.file f).ref = 1) (htype : (T.file f).type ≠ .inode) :
    Triple (Core p T W q x L V op) (fileclose p f)
      (fun _ => Core p (T.setFile f fun y => { y with ref := 0, type := .none }) W q x L V op) (Fine q) := by
  refine Triple.bind (R := fun a s => Core p T W q x L V op s ∧ a.tables = T) (Triple.get fun _ h => ⟨h, h.tables⟩)
    fun a => ?_
  refine Triple.fact (c := a.tables = T) (fun _ h => h.2) fun ha => ?_
  rw [ha]
  refine Triple.bind (R := fun _ => Core p T W q x L V op)
    (Triple.assert (fun _ s h => h.1) fun _ s h => h.1.fine (by simp)) fun _ => ?_
  refine Triple.ite (fun h => by omega) fun _ => ?_
  refine Triple.bind (setFile_spec ?_) fun _ => Triple.ite (fun h => absurd h htype) fun _ => Triple.pure fun _ h => h
  rw [File.owned_none (.inl rfl), File.owned_none (.inr htype)]

/-- `fileclose`, outside a transaction. -/
theorem fileclose_spec (hT : Tidy T) (hx : ∀ i, 0 ≤ x i) (f : Fref) :
    Triple (Ctx p T (T.written w) q x L false) (fileclose p f)
      (fun _ => Held p w q (fun T' => SameProcs T T') x L false) (Fine q) := by
  refine Triple.bind (R := fun a s => Ctx p T (T.written w) q x L false s ∧ a.tables = T)
    (Triple.get fun _ h => ⟨h, h.tables⟩) fun a => ?_
  refine Triple.fact (c := a.tables = T) (fun _ h => h.2) fun ha => ?_
  rw [ha]
  refine Triple.bind (R := fun _ s => Ctx p T (T.written w) q x L false s ∧ 1 ≤ (T.file f).ref)
    (Triple.assert (fun hf s h => ⟨h.1, hf⟩) fun _ s h => h.1.fine (by simp)) fun _ => ?_
  refine Triple.fact (c := 1 ≤ (T.file f).ref) (fun _ h => h.2) fun hpos => ?_
  refine Triple.pre (A := Ctx p T (T.written w) q x L false) ?_ fun _ h => h.1
  refine Triple.ite (fun h1 => ?_) fun h1 => ?_
  · -- others have the file too
    have howned : File.owned { T.file f with ref := (T.file f).ref - 1 } = (T.file f).owned :=
      File.owned_ref _ _ hpos (by omega)
    refine (setFile_spec howned).post fun _ s h => ?_
    refine ⟨_, hT.setFile (fun h0 => ?_), ⟨rfl, rfl⟩, h.weaken fun i => Tables.written_setFile howned fun _ => rfl⟩
    have h0' : (T.file f).ref - 1 = 0 := h0
    omega
  · let T' := T.setFile f fun y => { y with ref := 0, type := .none }
    have hT' : Tidy T' := hT.setFile fun _ => rfl
    have hwr : ∀ i, T'.written w i → T.written w i := by
      rintro i ⟨hw, f', hf', hwr⟩
      have hne : f' ≠ f := by
        rintro rfl
        rw [Tables.owner_setFile, File.owned_none (.inl rfl)] at hf'
        cases hf'
      rw [Tables.owner_setFile_ne T _ (by simp [hne])] at hf'
      rw [Tables.setFile_ne T _ hne] at hwr
      exact ⟨hw, f', hf', hwr⟩
    refine Triple.bind (R := fun _ => Ctx p T' (T'.written w) q
      (if (T.file f).type = .inode then plus x (T.file f).ip else x) L false) ?_ fun _ => Triple.ite (fun hty => ?_)
        fun hty => Triple.pure fun s h => ⟨T', hT', ⟨rfl, rfl⟩, by rwa [if_neg hty] at h⟩
    · refine Triple.modify fun s h => h.retable (fun T => T.setFile f fun y => { y with ref := 0, type := .none })
        (fun i => ?_) hwr
      have hswap' : (T'.owners i : ℤ) + _ = _ :=
        Tables.owners_swap (.inl f) (fun o ho => Tables.owner_setFile_ne T _ ho) i
      rw [Tables.owner_setFile, File.owned_none (.inl rfl), Tables.owner_inl] at hswap'
      have hnone : (if (none : Option Iref) = some i then (1 : ℤ) else 0) = 0 := if_neg (by simp)
      rw [hnone, add_zero] at hswap'
      show (T'.owners i : ℤ) + _ = _
      split
      · rename_i hty
        have howned : (T.file f).owned = some (T.file f).ip := by
          unfold File.owned
          rw [if_pos ⟨hpos, hty⟩]
        rw [howned] at hswap'
        by_cases hi : i = (T.file f).ip
        · subst hi
          rw [if_pos rfl] at hswap'
          rw [plus_self]
          omega
        · rw [if_neg (by simpa [eq_comm] using hi)] at hswap'
          rw [plus_ne x hi]
          omega
      · rename_i hty
        rw [File.owned_none (.inr hty)] at hswap'
        simpa using hswap'
    · rw [if_pos hty]
      refine Triple.bind begin_op_spec fun _ => Triple.bind (iput_spec (fun _ => rfl) ?_) fun _ =>
        end_op_spec.post fun _ s h => ⟨T', hT', ⟨rfl, rfl⟩, h⟩
      exact Tables.written_plus hx _

theorem Held.monitor {R : Tables → Prop} (h : Held p w q R x L op s) : q s.broken := by
  obtain ⟨T, -, -, h⟩ := h
  exact h.monitor

/-- A change of a file that keeps what it refers to, and its mode. -/
theorem setFile_held {R : Tables → Prop} {g : File → File} (hT : Tidy T) (hR : R (T.setFile f g))
    (hg : ∀ y, (g y).owned = y.owned ∧ (g y).writable = y.writable ∧ (g y).ref = y.ref ∧ (g y).type = y.type) :
    Triple (Ctx p T (T.written w) q x L op) (setFile f g) (fun _ => Held p w q R x L op) (Fine q) := by
  obtain ⟨howned, hwr, href, htype⟩ := hg (T.file f)
  refine (setFile_spec howned).post fun _ s h => ⟨_, hT.setFile (fun h0 => ?_), hR, ?_⟩
  · rw [href] at h0
    rw [htype]
    exact hT.free f h0
  · exact h.weaken fun i => Tables.written_setFile howned fun _ => hwr

theorem unlock_held {R : Tables → Prop} (hip : ip ∉ L) : Triple (Held p w q R x (insert ip L) op) (iunlock p ip)
    (fun _ => Held p w q R x L op) (Fine q) := by
  refine Triple.exists_pre fun T => Triple.of_fact fun hT => Triple.of_fact fun hR => ?_
  exact (unlock_spec hip).post fun _ s h => ⟨T, hT, hR, h⟩

/-- Every chunk of a write keeps what is held. -/
theorem filewriteLoop_spec (T₀ : Tables) (f : Fref) (k : ℕ) : ∀ bs,
    Triple (Held p w q (SameProcs T₀) x ∅ false) (filewriteLoop p f k bs)
      (fun _ => Held p w q (SameProcs T₀) x ∅ false) (Fine q) := by
  induction k with
  | zero => exact fun bs => Triple.pure fun _ h => h
  | succ k ih =>
    intro bs
    refine Triple.ite (fun _ => Triple.pure fun _ h => h) fun _ => ?_
    refine Triple.exists_pre fun T => Triple.of_fact fun hT => Triple.of_fact fun hR => ?_
    refine Triple.bind begin_op_spec fun _ => ?_
    refine Triple.bind (R := fun _ => Ctx p T (T.written w) q x ∅ true) (Triple.get fun _ h => h) fun a => ?_
    refine Triple.bind ilock_spec fun _ => Triple.of_fact fun hip => ?_
    have hmem := Finset.mem_insert_self (a.tables.file f).ip ∅
    refine Triple.bind (writei_spec hmem hmem _ _) fun r => ?_
    refine Triple.bind (setFile_held hT (R := SameProcs T₀) hR fun _ => ⟨rfl, rfl, rfl, rfl⟩) fun _ => ?_
    refine Triple.bind (unlock_held hip) fun _ => ?_
    refine Triple.bind (R := fun _ => Held p w q (SameProcs T₀) x ∅ false) ?_ fun _ => ?_
    · refine Triple.exists_pre fun T => Triple.of_fact fun hT => Triple.of_fact fun hR => ?_
      exact end_op_spec.post fun _ s h => ⟨T, hT, hR, h⟩
    · match r with
      | none => exact Triple.pure fun _ h => h
      | some n =>
        refine Triple.bind (R := fun _ => Held p w q (SameProcs T₀) x ∅ false)
          (Triple.assert (fun _ _ h => h) fun _ s h => ⟨by simp, h.monitor⟩) fun _ => ih _

theorem filewrite_spec (T₀ : Tables) (f : Fref) (bs : Bytes) (answer : ℤ) :
    Triple (Held p w q (SameProcs T₀) x ∅ false) (filewrite p f bs answer)
      (fun _ => Held p w q (SameProcs T₀) x ∅ false) (Fine q) := by
  refine Triple.bind (R := fun _ => Held p w q (SameProcs T₀) x ∅ false) (Triple.get fun _ h => h) fun a => ?_
  refine Triple.ite (fun _ => Triple.pure fun _ h => h) fun _ => ?_
  split
  · exact Triple.pure fun _ h => h
  · exact Triple.bind (filewriteLoop_spec T₀ f _ bs) fun _ => Triple.pure fun _ h => h
  · exact Triple.throw fun s h => ⟨by simp, h.monitor⟩

theorem fileread_spec (T₀ : Tables) (f : Fref) (n : ℕ) (answer : Option Bytes) :
    Triple (Held p w q (SameProcs T₀) x ∅ false) (fileread p f n answer)
      (fun _ => Held p w q (SameProcs T₀) x ∅ false) (Fine q) := by
  refine Triple.bind (R := fun _ => Held p w q (SameProcs T₀) x ∅ false) (Triple.get fun _ h => h) fun a => ?_
  refine Triple.ite (fun _ => Triple.pure fun _ h => h) fun _ => ?_
  split
  · exact Triple.pure fun _ h => h
  · refine Triple.exists_pre fun T => Triple.of_fact fun hT => Triple.of_fact fun hR => ?_
    refine Triple.bind ilock_spec fun _ => Triple.of_fact fun hip => ?_
    have hmem := Finset.mem_insert_self (a.tables.file f).ip ∅
    refine Triple.bind (readi_spec hmem hmem _ _) fun r => ?_
    refine Triple.bind (setFile_held hT (R := SameProcs T₀) hR fun _ => ⟨rfl, rfl, rfl, rfl⟩) fun _ => ?_
    exact Triple.bind (unlock_held hip) fun _ => Triple.pure fun _ h => h
  · exact Triple.throw fun s h => ⟨by simp, h.monitor⟩

theorem filestat_spec (T₀ : Tables) (f : Fref) : Triple (Held p w q (SameProcs T₀) x ∅ false) (filestat p f)
    (fun _ => Held p w q (SameProcs T₀) x ∅ false) (Fine q) := by
  refine Triple.bind (R := fun _ => Held p w q (SameProcs T₀) x ∅ false) (Triple.get fun _ h => h) fun a => ?_
  refine Triple.ite (fun _ => ?_) fun _ => Triple.pure fun _ h => h
  refine Triple.exists_pre fun T => Triple.of_fact fun hT => Triple.of_fact fun hR => ?_
  refine Triple.bind ilock_spec fun _ => Triple.of_fact fun hip => ?_
  have hmem := Finset.mem_insert_self (a.tables.file f).ip ∅
  refine Triple.bind (examine_spec hmem hmem) fun _ => ?_
  exact Triple.bind (unlock_spec hip) fun _ => Triple.pure fun s h => ⟨T, hT, hR, h⟩

theorem filedup_held (hT : Tidy T) (f : Fref) : Triple (Ctx p T (T.written w) q x L op) (filedup f)
    (fun _ => Held p w q (SameProcs T) x L op) (Fine q) := by
  refine (filedup_spec f).post fun _ s h => ?_
  refine ⟨_, hT.setFile (fun h0 => ?_), ⟨rfl, rfl⟩, h.2.weaken fun i =>
    Tables.written_setFile (File.owned_ref _ _ h.1 (by omega)) fun _ => rfl⟩
  have h0' : (T.file f).ref + 1 = 0 := h0
  omega

theorem setOfile_held {R : Tables → Prop} {r : Slot} (hT : Tidy T) (fd : Fd) (o : Option Fref)
    (hR : R (T.setOfile r fd o)) :
    Triple (Ctx p T (T.written w) q x L op) (setOfile r fd o) (fun _ => Held p w q R x L op) (Fine q) :=
  (setOfile_spec r fd o).post fun _ _ h => ⟨T.setOfile r fd o, hT.same ⟨rfl, rfl⟩ rfl, hR, h⟩

/-! ## Pipes -/

/-- A file that the call alone has, with no inode. -/
def Tables.fresh (T : Tables) (f : Fref) : Prop := (T.file f).ref = 1 ∧ (T.file f).type ≠ .inode

theorem filealloc_held (hT : Tidy T) : Triple (Ctx p T (T.written w) q x L op) filealloc
    (fun r s => match r with
      | none => Ctx p T (T.written w) q x L op s
      | some f => Held p w q (fun T' => (T.file f).ref = 0 ∧ T' = T.setFile f fun y => { y with ref := 1 }) x L op s)
    (Fine q) := by
  refine (filealloc_spec hT).post fun r s h => ?_
  match r with
  | none => exact h
  | some f =>
    obtain ⟨href, h⟩ := h
    have htype := hT.free f href
    have howned : File.owned { T.file f with ref := 1 } = (T.file f).owned := by
      rw [File.owned_none (.inl href), File.owned_none (.inr (by simp [htype]))]
    refine ⟨_, hT.setFile fun h0 => ?_, ⟨href, rfl⟩, h.weaken fun i => Tables.written_setFile howned fun _ => rfl⟩
    cases h0

theorem fileclose_held {R : Tables → Prop} (hT : Tidy T) (hf : T.fresh f)
    (hR : R (T.setFile f fun y => { y with ref := 0, type := .none })) :
    Triple (Ctx p T (T.written w) q x L op) (fileclose p f) (fun _ => Held p w q R x L op) (Fine q) := by
  have howned : File.owned { T.file f with ref := 0, type := .none } = (T.file f).owned := by
    rw [File.owned_none (.inl rfl), File.owned_none (.inr hf.2)]
  refine (fileclose_last hf.1 hf.2).post fun _ s h => ?_
  exact ⟨_, hT.setFile fun _ => rfl, hR, h.weaken fun i => Tables.written_setFile howned fun _ => rfl⟩

/-- Both ends of a pipe are closed. -/
theorem closeBoth_spec {α : Type} {R : α → Tables → Prop} {f' : Fref} (hT : Tidy T) (hf : T.fresh f)
    (hf' : T.fresh f') (hne : f ≠ f') (a : α) (hR : ∀ T', SameProcs T T' → R a T') :
    Triple (Ctx p T (T.written w) q x L op) (do fileclose p f; fileclose p f'; pure a)
      (fun r => Held p w q (R r) x L op) (Fine q) := by
  refine Triple.bind (fileclose_held (R := fun T' => SameProcs T T' ∧ T'.fresh f') hT hf ⟨⟨rfl, rfl⟩, ?_⟩) fun _ => ?_
  · unfold Tables.fresh
    rw [Tables.setFile_ne T _ hne.symm]
    exact hf'
  · refine Triple.exists_pre fun T' => Triple.of_fact fun hT' => Triple.of_fact fun hR' => ?_
    exact Triple.bind (fileclose_held hT' hR'.2 (hR _ (hR'.1.trans ⟨rfl, rfl⟩))) fun _ => Triple.pure fun _ h => h

/-- A fresh file becomes an end of a pipe. -/
theorem setPipe_held {R : Tables → Prop} {g : File → File} (hT : Tidy T) (hf : T.fresh f)
    (hg : ∀ y, g y = { y with type := .pipe, readable := (g y).readable, writable := (g y).writable })
    (hR : R (T.setFile f g)) :
    Triple (Ctx p T (T.written w) q x L op) (setFile f g) (fun _ => Held p w q R x L op) (Fine q) := by
  have htype : (g (T.file f)).type ≠ .inode := by
    rw [hg]
    simp
  have howned : (g (T.file f)).owned = (T.file f).owned := by
    rw [File.owned_none (.inr htype), File.owned_none (.inr hf.2)]
  refine (setFile_spec howned).post fun _ s h => ⟨_, hT.setFile (fun h0 => ?_), hR, h.weaken fun i =>
    Tables.written_setFile howned fun hn => absurd (File.owned_none (.inr hf.2)) hn⟩
  rw [hg] at h0
  have h1 := hf.1
  have h0' : (T.file f).ref = 0 := h0
  omega

theorem pipealloc_spec (hT : Tidy T) (mem : Bool) : Triple (Ctx p T (T.written w) q x L op) (pipealloc p mem)
    (fun r => Held p w q (fun T' => ∀ f f', r = some (f, f') → f ≠ f' ∧ T'.fresh f ∧ T'.fresh f') x L op)
    (Fine q) := by
  refine Triple.bind (filealloc_held hT) fun r => ?_
  match r with
  | none => exact Triple.pure fun s h => ⟨T, hT, by simp, h⟩
  | some f0 =>
    refine Triple.exists_pre fun T1 => Triple.of_fact fun hT1 => Triple.of_fact ?_
    rintro ⟨href0, rfl⟩
    have hfresh0 : (T.setFile f0 fun y => { y with ref := 1 }).fresh f0 := by
      unfold Tables.fresh
      rw [Tables.setFile_self]
      exact ⟨rfl, by simp [hT.free f0 href0]⟩
    refine Triple.bind (filealloc_held hT1) fun r => ?_
    match r with
    | none =>
      exact Triple.bind (fileclose_held hT1 hfresh0 (R := fun _ => True) trivial) fun _ => Triple.pure fun s h =>
        h.imp fun T' h => ⟨h.1, by simp, h.2.2⟩
    | some f1 =>
      refine Triple.exists_pre fun T2 => Triple.of_fact fun hT2 => Triple.of_fact ?_
      rintro ⟨href1, rfl⟩
      have hne : f0 ≠ f1 := by
        rintro rfl
        rw [Tables.setFile_self] at href1
        cases href1
      set T1 := T.setFile f0 fun y => { y with ref := 1 }
      have hfresh0' : (T1.setFile f1 fun y => { y with ref := 1 }).fresh f0 := by
        unfold Tables.fresh
        rw [Tables.setFile_ne T1 _ hne]
        exact hfresh0
      have hfresh1 : (T1.setFile f1 fun y => { y with ref := 1 }).fresh f1 := by
        unfold Tables.fresh
        rw [Tables.setFile_self]
        exact ⟨rfl, by simp [hT1.free f1 href1]⟩
      set T2 := T1.setFile f1 fun y => { y with ref := 1 }
      refine Triple.ite (fun _ => ?_) fun _ => ?_
      · refine Triple.bind (setPipe_held (R := fun T' => T'.fresh f0 ∧ T'.fresh f1) hT2 hfresh0' (fun _ => rfl) ?_) fun _ => ?_
        · refine ⟨?_, ?_⟩
          · unfold Tables.fresh
            rw [Tables.setFile_self]
            exact ⟨hfresh0'.1, by simp⟩
          · unfold Tables.fresh
            rw [Tables.setFile_ne T2 _ hne.symm]
            exact hfresh1
        · refine Triple.exists_pre fun T3 => Triple.of_fact fun hT3 => Triple.of_fact fun hR3 => ?_
          refine Triple.bind (setPipe_held (R := fun T' => T'.fresh f0 ∧ T'.fresh f1) hT3 hR3.2 (fun _ => rfl) ?_)
            fun _ => Triple.pure fun s h => h.imp fun T' h => ⟨h.1, ?_, h.2.2⟩
          · refine ⟨?_, ?_⟩
            · unfold Tables.fresh
              rw [Tables.setFile_ne T3 _ hne]
              exact hR3.1
            · unfold Tables.fresh
              rw [Tables.setFile_self]
              exact ⟨hR3.2.1, by simp⟩
          · rintro f f' ⟨⟩
            exact ⟨hne, h.2.1⟩
      · exact closeBoth_spec hT2 hfresh0' hfresh1 hne none (by simp)

end

end Xv6.Fs
