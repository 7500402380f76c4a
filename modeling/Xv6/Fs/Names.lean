import Xv6.Fs.Calls
import Xv6.Fs.Spec

/-!
# Names as processes see them

What a process sees of an inode is the copy in the cache, or what is on disk if there is none. Looking
names up does not change it, and finds what it says.

* `State.view`, `resolve`: what is seen, and what `namex` finds there.
* `Look`: the cache while names are looked up, compared with the cache before.
* **`namex_look`**: `namex` finds what `resolve` finds, without a panic, and leaves a reference to it.
-/

namespace Xv6.Fs

open Prog

/-! ## The view -/

/-- The entry in use that has a copy of the inode. -/
def State.cached (s : State) (n : ℕ) : Option Iref :=
  (List.finRange NINODE).find? fun i => 0 < (s.inode i).ref ∧ (s.inode i).valid = true ∧ (s.inode i).inum = n

def State.view (s : State) (n : ℕ) : Dinode :=
  match s.cached n with
  | some i => (s.inode i).di
  | none => s.disk n

/-- The directory entry at `off`. -/
def entryAt (data : Bytes) (off : ℕ) : Bytes := (data.drop off).take direntSize

def seekAt (data : Bytes) (name : Name) : List ℕ → Option ℕ
  | [] => none
  | off :: offs =>
    if deInum (entryAt data off) ≠ 0 ∧ deName (entryAt data off) = name then some (deInum (entryAt data off))
    else seekAt data name offs

/-- The inode that a directory has under a name. -/
def seek (data : Bytes) (name : Name) : Option ℕ := seekAt data name (offsets data.length 0)

/-- What there is under the names, from inode `n` on. -/
def find (v : ℕ → Dinode) (parent : Bool) : List Name → ℕ → Option (ℕ × Name)
  | [], n => if parent then none else some (n, [])
  | name :: rest, n =>
    if (v n).type ≠ .dir then none
    else if parent ∧ rest = [] then some (n, name)
    else
      match seek (v n).data name with
      | none => none
      | some k => find v parent rest k

/-- Where `namex` starts. -/
def State.origin (s : State) (p : Slot) (path : Path) : Option ℕ :=
  if path.bytes.head? = some slash then some ROOTINO else (s.tables.cwd p).map fun ip => (s.inode ip).inum

/-- The inode of the path, or of its directory, with the last name. For a torn path it is the inode that `namex` has
when it reads behind what is mapped. -/
def State.resolve (s : State) (p : Slot) (parent : Bool) (path : Path) : Option (ℕ × Name) :=
  (s.origin p path).bind (find s.view (parent && !path.torn) (elems path))

/-- The path is torn, and all its names are found: `namex` reads what is not mapped. -/
def State.Strays (s : State) (p : Slot) (path : Path) : Prop :=
  path.torn = true ∧ (s.resolve p false path).isSome = true

instance (s : State) (p : Slot) (path : Path) : Decidable (s.Strays p path) := by unfold State.Strays; infer_instance

theorem State.not_strays (s : State) (p : Slot) (bytes : Bytes) : ¬ s.Strays p bytes := fun h => by cases h.1

/-- A torn path has no last name. -/
theorem State.resolve_torn (s : State) (p : Slot) (parent : Bool) {path : Path} (h : path.torn = true) :
    s.resolve p parent path = s.resolve p false path := by
  unfold State.resolve
  rw [h]
  simp

/-- The inode can be locked, and putting it again does not free it. -/
def State.Usable (s : State) (n : ℕ) : Prop :=
  (s.view n).type ≠ .free ∧ ((s.view n).nlink ≠ 0 ∨ ∃ i, 0 < (s.inode i).ref ∧ (s.inode i).inum = n)

/-- Nobody has a lock, and no two entries in use have the same inode. -/
structure Quiet (s : State) : Prop where
  lock : ∀ i, (s.inode i).lock = none
  ref : ∀ i, 0 ≤ (s.inode i).ref
  uniq : ∀ i j, 0 < (s.inode i).ref → 0 < (s.inode j).ref → (s.inode i).inum = (s.inode j).inum → i = j

/-- Directories have whole entries, for inodes that exist; and so do the root and the current directory. -/
structure Sound (s : State) (p : Slot) : Prop where
  whole : ∀ n, (s.view n).type = .dir →
    (s.view n).data.length % direntSize = 0 ∧ (s.view n).data.length ≤ MAXFILE * BSIZE
  entries : ∀ n name k, (s.view n).type = .dir → seek (s.view n).data name = some k → s.Usable k
  root : s.Usable ROOTINO
  cwd : ∃ ip, s.tables.cwd p = some ip ∧ 0 < (s.inode ip).ref ∧ (s.view (s.inode ip).inum).type ≠ .free

/-- So many entries of the cache are free. -/
def Room (s : State) (k : ℕ) : Prop := k ≤ (Finset.univ.filter fun i => (s.inode i).ref = 0).card

/-! ## The cache during a lookup -/

/-- The cache with `x i` references more to entry `i`, which has inode `m i`, and the locks `L` of `p`. What is in the
cache is what was seen in `s₀`. -/
structure Look (p : Slot) (op : Bool) (s₀ : State) (x : Iref → ℤ) (m : Iref → ℕ) (L : Finset Iref) (s : State) :
    Prop where
  disk : s.disk = s₀.disk
  tables : s.tables = s₀.tables
  devsw : s.devsw = s₀.devsw
  inOp : s.inOp = op
  monitor : op = true → s.broken = s₀.broken
  inum : ∀ i, (s.inode i).inum = m i
  ref : ∀ i, (s.inode i).ref = (s₀.inode i).ref + x i
  lock : ∀ i, (s.inode i).lock = if i ∈ L then some p else none
  held : ∀ i ∈ L, (s.inode i).valid = true ∧ 0 < x i
  base : ∀ i, 0 ≤ (s₀.inode i).ref
  pos : ∀ i, 0 ≤ x i
  uniq : ∀ i j, 0 < (s₀.inode i).ref + x i → 0 < (s₀.inode j).ref + x j → m i = m j → i = j
  kept : ∀ i, 0 < (s₀.inode i).ref → m i = (s₀.inode i).inum ∧ ((s₀.inode i).valid = true → (s.inode i).valid = true)
  sees : ∀ i, 0 < (s₀.inode i).ref + x i → (s.inode i).valid = true → (s.inode i).di = s₀.view (m i)
  usable : ∀ i, 0 < x i → s₀.Usable (m i)

/-- No fault. -/
def Never (_ : Fault) (_ : State) : Prop := False

/-- No fault is as good as any. -/
theorem of_never {α : Type} {P : State → Prop} {m : M α} {Q : α → State → Prop} {E : Fault → State → Prop}
    (h : Triple P m Q Never) : Triple P m Q E := h.conseq (fun _ => id) (fun _ _ => id) fun _ _ h => h.elim

section

variable {p : Slot} {op : Bool} {s₀ s : State} {x x' : Iref → ℤ} {m m' : Iref → ℕ} {L L' : Finset Iref} {ip : Iref}

theorem cached_some {n : ℕ} (h : s.cached n = some ip) :
    0 < (s.inode ip).ref ∧ (s.inode ip).valid = true ∧ (s.inode ip).inum = n := by
  simpa using List.find?_some h

theorem cached_none {n : ℕ} (h : s.cached n = none) (i : Iref) (href : 0 < (s.inode i).ref)
    (hv : (s.inode i).valid = true) : (s.inode i).inum ≠ n := by
  have hi := List.find?_eq_none.1 h i (List.mem_finRange i)
  simp only [decide_eq_true_eq, not_and] at hi
  exact hi href hv

/-- A valid entry is what is seen. -/
theorem view_of_valid (huniq : ∀ j, 0 < (s.inode j).ref → (s.inode j).inum = (s.inode ip).inum → j = ip)
    (href : 0 < (s.inode ip).ref) (hv : (s.inode ip).valid = true) :
    s.view (s.inode ip).inum = (s.inode ip).di := by
  unfold State.view
  cases hc : s.cached (s.inode ip).inum with
  | none => exact absurd rfl (cached_none hc ip href hv)
  | some j =>
    obtain ⟨hr, -, hj⟩ := cached_some hc
    dsimp only
    rw [huniq j hr hj]

/-- Before the lookup. -/
theorem Quiet.look (h : Quiet s) (hop : s.inOp = op) : Look p op s (fun _ => 0) (fun i => (s.inode i).inum) ∅ s where
  disk := rfl
  tables := rfl
  devsw := rfl
  inOp := hop
  monitor _ := rfl
  inum _ := rfl
  ref _ := (add_zero _).symm
  lock i := by rw [h.lock, if_neg (Finset.notMem_empty i)]
  held i hi := absurd hi (Finset.notMem_empty i)
  base := h.ref
  pos _ := le_rfl
  uniq i j hi hj := h.uniq i j (by omega) (by omega)
  kept _ _ := ⟨rfl, id⟩
  sees i hi hv := by
    rw [view_of_valid (fun j hj he => h.uniq j i hj (by omega) he) (by omega) hv]
  usable i hi := absurd hi (by omega)

/-- An entry that is not valid has what is on disk to come. -/
theorem Look.view_disk (h : Look p op s₀ x m L s) (href : 0 < (s₀.inode ip).ref + x ip)
    (hv : (s.inode ip).valid ≠ true) : s₀.view (m ip) = s.disk (m ip) := by
  rw [h.disk]
  unfold State.view
  cases hc : s₀.cached (m ip) with
  | none => rfl
  | some j =>
    obtain ⟨hr, hvj, hj⟩ := cached_some hc
    obtain ⟨hmj, hvs⟩ := h.kept j hr
    have hxj := h.pos j
    have hji := h.uniq j ip (by omega) href (by rw [hmj, hj])
    rw [hji] at hvs hvj
    exact absurd (hvs hvj) hv

/-- The processes see what they saw. -/
theorem Look.view (h : Look p op s₀ x m L s) (n : ℕ) : s.view n = s₀.view n := by
  cases hc : s.cached n with
  | some i =>
    obtain ⟨hr, hv, hi⟩ := cached_some hc
    rw [h.ref i] at hr
    rw [h.inum i] at hi
    have hview : s.view n = (s.inode i).di := by
      unfold State.view
      rw [hc]
    rw [hview, h.sees i hr hv, hi]
  | none =>
    have hview : s.view n = s.disk n := by
      unfold State.view
      rw [hc]
    rw [hview, h.disk]
    unfold State.view
    cases hc₀ : s₀.cached n with
    | none => rfl
    | some j =>
      obtain ⟨hr, hvj, hj⟩ := cached_some hc₀
      obtain ⟨hmj, hvs⟩ := h.kept j hr
      have hxj := h.pos j
      refine absurd ?_ (cached_none hc j (by rw [h.ref j]; omega) (hvs hvj))
      rw [h.inum j, hmj, hj]

/-- One entry changes. -/
theorem Look.set (h : Look p op s₀ x m L s) (f : Inode → Inode) (hx : ∀ i, i ≠ ip → x' i = x i)
    (hm : ∀ i, i ≠ ip → m' i = m i) (hL : ∀ i, i ≠ ip → (i ∈ L' ↔ i ∈ L))
    (hinum : (f (s.inode ip)).inum = m' ip) (href : (f (s.inode ip)).ref = (s₀.inode ip).ref + x' ip)
    (hlock : (f (s.inode ip)).lock = if ip ∈ L' then some p else none)
    (hheld : ip ∈ L' → (f (s.inode ip)).valid = true ∧ 0 < x' ip) (hpos : 0 ≤ x' ip)
    (huniq : ∀ i, i ≠ ip → 0 < (s₀.inode i).ref + x i → 0 < (s₀.inode ip).ref + x' ip → m i ≠ m' ip)
    (hkept : 0 < (s₀.inode ip).ref → m' ip = (s₀.inode ip).inum ∧
      ((s₀.inode ip).valid = true → (f (s.inode ip)).valid = true))
    (hsees : 0 < (s₀.inode ip).ref + x' ip → (f (s.inode ip)).valid = true → (f (s.inode ip)).di = s₀.view (m' ip))
    (husable : 0 < x' ip → s₀.Usable (m' ip)) : Look p op s₀ x' m' L' (s.setInode ip f) := by
  have hself := inode_setInode_self s ip f
  have hne : ∀ i, i ≠ ip → (s.setInode ip f).inode i = s.inode i := fun i => inode_setInode_ne s f
  refine ⟨h.disk, h.tables, h.devsw, h.inOp, h.monitor, fun i => ?_, fun i => ?_, fun i => ?_, fun i hi => ?_,
    h.base, fun i => ?_, fun i j => ?_, fun i => ?_, fun i => ?_, fun i => ?_⟩
  · by_cases hi : i = ip
    · rw [hi, hself, hinum]
    · rw [hne i hi, hm i hi, h.inum]
  · by_cases hi : i = ip
    · rw [hi, hself, href]
    · rw [hne i hi, hx i hi, h.ref]
  · by_cases hi : i = ip
    · rw [hi, hself, hlock]
    · rw [hne i hi, h.lock i]
      simp only [hL i hi]
  · by_cases hip : i = ip
    · rw [hip] at hi ⊢
      rw [hself]
      exact hheld hi
    · rw [hne i hip, hx i hip]
      exact h.held i ((hL i hip).1 hi)
  · by_cases hi : i = ip
    · rw [hi]
      exact hpos
    · rw [hx i hi]
      exact h.pos i
  · by_cases hi : i = ip
    · by_cases hj : j = ip
      · rw [hi, hj]
        exact fun _ _ _ => rfl
      · rw [hi, hx j hj, hm j hj]
        exact fun hri hrj hij => absurd hij.symm (huniq j hj hrj hri)
    · by_cases hj : j = ip
      · rw [hj, hx i hi, hm i hi]
        exact fun hri hrj hij => absurd hij (huniq i hi hri hrj)
      · rw [hx i hi, hx j hj, hm i hi, hm j hj]
        exact h.uniq i j
  · by_cases hi : i = ip
    · rw [hi, hself]
      exact hkept
    · rw [hne i hi, hm i hi]
      exact h.kept i
  · by_cases hi : i = ip
    · rw [hi, hself]
      exact hsees
    · rw [hne i hi, hx i hi, hm i hi]
      exact h.sees i
  · by_cases hi : i = ip
    · rw [hi]
      exact husable
    · rw [hx i hi, hm i hi]
      exact h.usable i

/-- An entry gets or loses references, or its lock. -/
theorem Look.touch (h : Look p op s₀ x m L s) (f : Inode → Inode) (hx : ∀ i, i ≠ ip → x' i = x i)
    (hL : ∀ i, i ≠ ip → (i ∈ L' ↔ i ∈ L)) (hsame : ∀ y, f y = { y with ref := (f y).ref, lock := (f y).lock })
    (href : (f (s.inode ip)).ref = (s₀.inode ip).ref + x' ip)
    (hlock : (f (s.inode ip)).lock = if ip ∈ L' then some p else none)
    (hheld : ip ∈ L' → (s.inode ip).valid = true ∧ 0 < x' ip) (hpos : 0 ≤ x' ip)
    (hbefore : 0 < (s₀.inode ip).ref + x' ip → 0 < (s₀.inode ip).ref + x ip)
    (husable : 0 < x' ip → s₀.Usable (m ip)) : Look p op s₀ x' m L' (s.setInode ip f) := by
  have hinum : (f (s.inode ip)).inum = (s.inode ip).inum := by rw [hsame]
  have hvalid : (f (s.inode ip)).valid = (s.inode ip).valid := by rw [hsame]
  have hdi : (f (s.inode ip)).di = (s.inode ip).di := by rw [hsame]
  refine h.set f hx (fun _ _ => rfl) hL ?_ href hlock ?_ hpos ?_ ?_ ?_ husable
  · rw [hinum, h.inum]
  · rw [hvalid]
    exact hheld
  · exact fun i hi hri hr hij => hi (h.uniq i ip hri (hbefore hr) hij)
  · rw [hvalid]
    exact h.kept ip
  · rw [hvalid, hdi]
    exact fun hr => h.sees ip (hbefore hr)

/-! ## The inode cache -/

/-- One reference more. -/
theorem Look.ref_succ (h : Look p op s₀ x m L s) (hip : 0 < (s₀.inode ip).ref + x ip) (huse : s₀.Usable (m ip)) :
    Look p op s₀ (plus x ip) m L (s.setInode ip fun y => { y with ref := y.ref + 1 }) := by
  have hpos := h.pos ip
  have href := h.ref ip
  refine h.touch _ (fun i hi => plus_ne x hi) (fun _ _ => .rfl) (fun _ => rfl) ?_ (h.lock ip) (fun hiL => ?_) ?_
    (fun _ => hip) fun _ => huse
  · rw [plus_self]
    show (s.inode ip).ref + 1 = _
    omega
  · rw [plus_self]
    exact ⟨(h.held ip hiL).1, by omega⟩
  · rw [plus_self]
    omega

theorem idup_look (hip : 0 < (s₀.inode ip).ref + x ip) (huse : s₀.Usable (m ip)) :
    Triple (Look p op s₀ x m L) (idup ip) (fun r s => r = ip ∧ Look p op s₀ (plus x ip) m L s) Never := by
  refine Triple.bind (R := fun _ => Look p op s₀ (plus x ip) m L) ?_ fun _ => Triple.pure fun s h => ⟨rfl, h⟩
  exact Triple.modify fun s h => h.ref_succ hip huse

/-- **`iget`** finds an entry, when one is free. -/
theorem iget_look {n : ℕ} (hfree : ∃ i, (s₀.inode i).ref + x i = 0) (huse : s₀.Usable n) :
    Triple (Look p op s₀ x m L) (iget n) (fun r => Look p op s₀ (plus x r) (Function.update m r n) L) Never := by
  refine Triple.bind (R := fun a s => Look p op s₀ x m L s ∧ a = s) (Triple.get fun _ h => ⟨h, rfl⟩) fun a => ?_
  split
  · rename_i ip hfind
    refine Triple.bind (R := fun _ => Look p op s₀ (plus x ip) (Function.update m ip n) L) ?_ fun _ =>
      Triple.pure fun s h => h
    refine Triple.modify ?_
    rintro s ⟨h, rfl⟩
    have hip : 0 < (a.inode ip).ref ∧ (a.inode ip).inum = n := by simpa using List.find?_some hfind
    rw [h.inum] at hip
    rw [h.ref] at hip
    have hm : Function.update m ip n = m := by
      rw [← hip.2]
      exact Function.update_eq_self ..
    rw [hm]
    exact h.ref_succ hip.1 (by rw [hip.2]; exact huse)
  · rename_i hnone
    split
    · rename_i hfull
      refine Triple.throw ?_
      rintro s ⟨h, rfl⟩
      obtain ⟨i, hi⟩ := hfree
      have hi' := List.find?_eq_none.1 hfull i (List.mem_finRange i)
      rw [decide_eq_true_eq, h.ref i] at hi'
      exact hi' hi
    · rename_i ip hfind
      refine Triple.bind (R := fun _ => Look p op s₀ (plus x ip) (Function.update m ip n) L) ?_ fun _ =>
        Triple.pure fun s h => h
      refine Triple.modify ?_
      rintro s ⟨h, rfl⟩
      have href : (a.inode ip).ref = 0 := by simpa using List.find?_some hfind
      have hcount := h.ref ip
      have hposip := h.pos ip
      have hbase := h.base ip
      have hL : ip ∉ L := fun hiL => by
        have hheld := (h.held ip hiL).2
        omega
      refine h.set _ (fun i hi => plus_ne x hi) (fun i hi => Function.update_of_ne hi ..) (fun _ _ => .rfl) ?_ ?_
        (h.lock ip) (fun hiL => absurd hiL hL) ?_ (fun i hi hri _ => ?_) (fun hr => ?_) (fun _ hv => ?_) fun _ => ?_
      · rw [Function.update_self]
      · rw [plus_self]
        show (1 : ℤ) = _
        omega
      · rw [plus_self]
        omega
      · -- no entry of this inode was found
        rw [Function.update_self]
        have hi' := List.find?_eq_none.1 hnone i (List.mem_finRange i)
        simp only [decide_eq_true_eq, not_and] at hi'
        rw [← h.inum i]
        exact hi' (by rw [h.ref i]; exact hri)
      · omega
      · cases hv
      · rw [Function.update_self]
        exact huse

theorem getInode_look {P : State → Prop} :
    Triple P (getInode ip) (fun y s => P s ∧ y = s.inode ip) Never :=
  Triple.bind (R := fun a s => P s ∧ a = s) (Triple.get fun _ h => ⟨h, rfl⟩) fun a => Triple.pure (by
    rintro s ⟨h, rfl⟩
    exact ⟨h, rfl⟩)

/-- What is locked may be looked at. -/
theorem examine_look (hip : ip ∈ L) : Triple (Look p op s₀ x m L) (examine p ip) (fun _ => Look p op s₀ x m L) Never := by
  refine Triple.modify fun s h => ?_
  rw [if_pos ⟨by rw [h.lock, if_pos hip], (h.held ip hip).1⟩]
  exact h

/-- What `getInode` gives of a locked inode. -/
theorem seen_look (hip : ip ∈ L) : Triple (Look p op s₀ x m L) (getInode ip)
    (fun y s => y.di = s₀.view (m ip) ∧ y.inum = m ip ∧ Look p op s₀ x m L s) Never := by
  refine getInode_look.post ?_
  rintro y s ⟨h, rfl⟩
  obtain ⟨hv, hx⟩ := h.held ip hip
  have hbase := h.base ip
  exact ⟨h.sees ip (by omega) hv, h.inum ip, h⟩

theorem setInode_setInode (s : State) (ip : Iref) (f g : Inode → Inode) :
    (s.setInode ip f).setInode ip g = s.setInode ip fun y => g (f y) := by
  unfold State.setInode
  simp only [Function.update_self, Function.update_idem]

/-- **`ilock`** of an inode that the call holds. -/
theorem ilock_look (hip : ip ∉ L) (hx : 0 < x ip) : Triple (Look p op s₀ x m L) (ilock p ip)
    (fun _ => Look p op s₀ x m (insert ip L)) Never := by
  refine Triple.of_state fun s h => ?_
  have hbase := h.base ip
  have href := h.ref ip
  have hlock : (s.inode ip).lock = none := by rw [h.lock, if_neg hip]
  set s₁ := s.setInode ip fun y => { y with lock := some p } with hs₁
  have hself : s₁.inode ip = { s.inode ip with lock := some p } := inode_setInode_self s ip _
  refine Triple.bind (R := fun y t => y = s.inode ip ∧ t = s) (getInode_look.post ?_) fun y => Triple.of_fact fun hy => ?_
  · rintro y t ⟨rfl, rfl⟩
    exact ⟨rfl, rfl⟩
  subst hy
  refine Triple.bind (R := fun _ t => t = s) (Triple.assert (fun _ _ h => h) fun hn => absurd (by omega) hn) fun _ => ?_
  refine Triple.bind (R := fun _ t => t = s₁) ?_ fun _ => ?_
  · refine Triple.bind (R := fun y t => y = s.inode ip ∧ t = s) (getInode_look.post ?_) fun y => Triple.of_fact fun hy => ?_
    · rintro y t ⟨rfl, rfl⟩
      exact ⟨rfl, rfl⟩
    subst hy
    rw [if_pos hlock]
    refine Triple.modify fun t ht => ?_
    rw [ht]
  refine Triple.ite (fun hv => ?_) fun hv => ?_
  · refine Triple.pure fun t ht => ?_
    rw [ht]
    refine h.touch _ (fun _ _ => rfl) (fun i hi => ?_) (fun _ => rfl) href ?_ (fun _ => ⟨hv, hx⟩) (h.pos ip) id
      (h.usable ip)
    · simp [hi]
    · simp
  · -- the inode is read from disk
    have hdisk := h.view_disk (by omega) hv
    refine Triple.bind (R := fun a t => a = s₁ ∧ t = s₁) (Triple.get fun t ht => ⟨ht, ht⟩) fun a =>
      Triple.of_fact fun ha => ?_
    subst ha
    refine Triple.bind (R := fun _ => Look p op s₀ x m (insert ip L)) ?_ fun _ => ?_
    · refine Triple.modify fun t ht => ?_
      rw [ht, hs₁, setInode_setInode]
      refine h.set _ (fun _ _ => rfl) (fun _ _ => rfl) (fun i hi => ?_) (h.inum ip) href ?_ (fun _ => ⟨rfl, hx⟩)
        (h.pos ip) (fun i hi hri hr hij => hi (h.uniq i ip hri hr hij)) (fun hr => ⟨(h.kept ip hr).1, fun _ => rfl⟩)
        (fun _ _ => ?_) (h.usable ip)
      · simp [hi]
      · simp
      · rw [hdisk, ← h.inum ip]
        rfl
    · refine Triple.assert (fun _ _ h => h) fun hn => ?_
      refine absurd ?_ hn
      have hd : (s₁.disk (s.inode ip).inum) = s₀.view (m ip) := by
        rw [hdisk, h.inum]
        rfl
      rw [hd]
      exact (h.usable ip hx).1

theorem releasesleep_look : Triple (Look p op s₀ x m L) (releasesleep ip)
    (fun _ => Look p op s₀ x m (L.erase ip)) Never := by
  refine Triple.modify fun s h => h.touch _ (fun _ _ => rfl) (fun i hi => ?_) (fun _ => rfl) (h.ref ip) ?_
    (fun hip => absurd hip (Finset.notMem_erase ip L)) (h.pos ip) id (h.usable ip)
  · simp [hi]
  · simp

theorem iunlock_look (hip : ip ∈ L) : Triple (Look p op s₀ x m L) (iunlock p ip)
    (fun _ => Look p op s₀ x m (L.erase ip)) Never := by
  refine Triple.bind getInode_look fun y => ?_
  refine Triple.bind (R := fun _ => Look p op s₀ x m L) ?_ fun _ => releasesleep_look
  refine Triple.assert (fun _ s h => h.1) fun hn s h => ?_
  obtain ⟨h, rfl⟩ := h
  have hbase := h.base ip
  have hx := (h.held ip hip).2
  refine hn ⟨by rw [h.lock, if_pos hip], ?_⟩
  rw [h.ref]
  omega

/-- Outside a transaction nothing is known of the monitor. -/
theorem inside_look : Triple (Look p op s₀ x m L) inside (fun _ => Look p op s₀ x m L) Never := by
  refine Triple.modify fun s h => ?_
  split
  · exact h
  · rename_i hin
    refine ⟨h.disk, h.tables, h.devsw, h.inOp, fun hop => ?_, h.inum, h.ref, h.lock, h.held, h.base, h.pos, h.uniq,
      h.kept, h.sees, h.usable⟩
    rw [h.inOp, hop] at hin
    exact absurd rfl hin

/-- **`iput`** gives a reference back, and frees nothing. -/
theorem iput_look (hip : ip ∉ L) (hx : 0 ≤ x ip) :
    Triple (Look p op s₀ (plus x ip) m L) (iput p ip) (fun _ => Look p op s₀ x m L) Never := by
  refine Triple.bind inside_look fun _ => Triple.of_state fun s h => ?_
  have hbase := h.base ip
  have href := h.ref ip
  rw [plus_self] at href
  have hlock : (s.inode ip).lock = none := by rw [h.lock, if_neg hip]
  set s₁ := s.setInode ip fun y => { y with lock := some p } with hs₁
  have hself : s₁.inode ip = { s.inode ip with lock := some p } := inode_setInode_self s ip _
  refine Triple.bind (R := fun _ t => t = s₁) ?_ fun _ => ?_
  · refine Triple.bind (R := fun y t => y = s.inode ip ∧ t = s) (getInode_look.post ?_) fun y => Triple.of_fact fun hy => ?_
    · rintro y t ⟨rfl, rfl⟩
      exact ⟨rfl, rfl⟩
    subst hy
    rw [if_pos hlock]
    exact Triple.modify fun t ht => by rw [ht]
  refine Triple.bind (R := fun y t => y = s₁.inode ip ∧ t = s₁) (getInode_look.post ?_) fun y => Triple.of_fact fun hy => ?_
  · rintro y t ⟨rfl, rfl⟩
    exact ⟨rfl, rfl⟩
  subst hy
  refine Triple.bind (R := fun _ t => t = s₁) (Triple.ite (fun hlast => ?_) fun _ => Triple.pure fun _ h => h) fun _ => ?_
  · -- the last reference to an inode without links is not the call's
    obtain ⟨hv, hn, hr⟩ := hlast
    rw [hself] at hv hn hr
    have hone : (s.inode ip).ref = 1 := hr
    have hsees := h.sees ip (by rw [plus_self]; omega) hv
    have hn' : (s.inode ip).di.nlink = 0 := hn
    rw [hsees] at hn'
    rcases (h.usable ip (by rw [plus_self]; omega)).2 with hlinks | ⟨j, hj, hji⟩
    · exact absurd hn' hlinks
    · have hxj := h.pos j
      have hji' := h.uniq j ip (by omega) (by rw [plus_self]; omega) (by rw [(h.kept j hj).1, hji])
      rw [hji'] at hj
      omega
  refine Triple.bind (R := fun _ t => t = s) ?_ fun _ => ?_
  · refine Triple.modify fun t ht => ?_
    rw [ht, hs₁, setInode_setInode]
    unfold State.setInode
    have hsame : { s.inode ip with lock := none } = s.inode ip := by rw [← hlock]
    dsimp only
    rw [hsame, Function.update_eq_self]
  · refine Triple.modify fun t ht => ?_
    rw [ht]
    refine h.touch _ (fun i hi => (plus_ne x hi).symm) (fun _ _ => .rfl) (fun _ => rfl) ?_ (h.lock ip)
      (fun hL => absurd hL hip) hx (fun hr => ?_) fun hpos => h.usable ip ?_
    · show (s.inode ip).ref - 1 = _
      omega
    · rw [plus_self]
      omega
    · rw [plus_self]
      omega

theorem put_look (hip : ip ∉ L) (hx : 0 ≤ x ip) :
    Triple (Look p op s₀ (plus x ip) m (insert ip L)) (iunlockput p ip) (fun _ => Look p op s₀ x m L) Never := by
  refine Triple.bind (iunlock_look (Finset.mem_insert_self ip L)) fun _ => ?_
  rw [Finset.erase_insert hip]
  exact iput_look hip hx

/-! ## Directories -/

/-- What `readi` reads of an inode that is no device. -/
def bytesAt (data : Bytes) (off n : ℕ) : Option Bytes :=
  if data.length < off ∨ 2 ^ 32 ≤ off + n then none else some ((data.drop off).take n)

theorem readi_look (hip : ip ∈ L) (htype : (s₀.view (m ip)).type ≠ .dev) (off n : ℕ) :
    Triple (Look p op s₀ x m L) (readi p ip off n)
      (fun r s => r = bytesAt (s₀.view (m ip)).data off n ∧ Look p op s₀ x m L s) Never := by
  refine Triple.bind (examine_look hip) fun _ => ?_
  refine Triple.bind (R := fun a s => (a.inode ip).di = s₀.view (m ip) ∧ Look p op s₀ x m L s) ?_ fun a =>
    Triple.of_fact fun ha => ?_
  · refine Triple.get fun s h => ⟨?_, h⟩
    obtain ⟨hv, hx⟩ := h.held ip hip
    have hbase := h.base ip
    exact h.sees ip (by omega) hv
  · dsimp only
    rw [ha, if_neg htype]
    unfold bytesAt
    exact Triple.ite (fun hout => Triple.pure fun s h => ⟨(if_pos hout).symm, h⟩) fun hin =>
      Triple.pure fun s h => ⟨(if_neg hin).symm, h⟩

/-- An offset of `offsets`. -/
theorem mem_offsets {size off : ℕ} (h : off ∈ offsets size 0) (hsize : size % direntSize = 0) :
    off + direntSize ≤ size := by
  unfold offsets at h
  obtain ⟨i, hi, rfl⟩ := List.mem_map.1 h
  rw [List.mem_range'_1] at hi
  unfold direntSize at *
  omega

/-- An entry of a directory with whole entries. -/
theorem readDirent_look {data : Bytes} (hip : ip ∈ L) (htype : (s₀.view (m ip)).type = .dir)
    (hdata : (s₀.view (m ip)).data = data) (hsize : data.length % direntSize = 0 ∧ data.length ≤ MAXFILE * BSIZE)
    {off : ℕ} (hoff : off ∈ offsets data.length 0) (e : Fault) :
    Triple (Look p op s₀ x m L) (readDirent p ip off e)
      (fun de s => de = entryAt data off ∧ Look p op s₀ x m L s) Never := by
  have hin := mem_offsets hoff hsize.1
  have hmax : MAXFILE * BSIZE = 1082201088 := by decide
  have hread : bytesAt (s₀.view (m ip)).data off direntSize = some (entryAt data off) := by
    unfold bytesAt entryAt
    rw [hdata, if_neg]
    have hent : direntSize = 16 := rfl
    omega
  refine Triple.bind (readi_look hip (by rw [htype]; simp) off direntSize) fun r => Triple.of_fact fun hr => ?_
  rw [hr, hread]
  have hlen : (entryAt data off).length = direntSize := by
    unfold entryAt
    rw [List.length_take, List.length_drop]
    omega
  refine Triple.bind (R := fun _ => Look p op s₀ x m L) (Triple.assert (fun _ _ h => h) fun hn => absurd hlen hn)
    fun _ => Triple.pure fun s h => ⟨rfl, h⟩

/-- What a lookup leaves: a reference to what it found. -/
def Finds (p : Slot) (op : Bool) (s₀ : State) (x : Iref → ℤ) (m : Iref → ℕ) (L : Finset Iref) (found : Option ℕ)
    (r : Option Iref) (s : State) : Prop :=
  match found, r with
  | none, none => Look p op s₀ x m L s
  | some n, some ip => Look p op s₀ (plus x ip) (Function.update m ip n) L s
  | _, _ => False

theorem lookupLoop_look {data : Bytes} (hip : ip ∈ L) (htype : (s₀.view (m ip)).type = .dir)
    (hdata : (s₀.view (m ip)).data = data) (hsize : data.length % direntSize = 0 ∧ data.length ≤ MAXFILE * BSIZE)
    (hfree : ∃ i, (s₀.inode i).ref + x i = 0) (name : Name) (offs : List ℕ)
    (hoffs : ∀ off ∈ offs, off ∈ offsets data.length 0) (huse : ∀ k, seekAt data name offs = some k → s₀.Usable k) :
    Triple (Look p op s₀ x m L) (lookupLoop p ip name offs)
      (fun r => Finds p op s₀ x m L (seekAt data name offs) (r.map Prod.fst)) Never := by
  induction offs with
  | nil => exact Triple.pure fun _ h => h
  | cons off offs ih =>
    refine Triple.bind (readDirent_look hip htype hdata hsize (hoffs off (by simp)) _) fun de =>
      Triple.of_fact fun hde => ?_
    subst hde
    unfold seekAt at huse ⊢
    refine Triple.ite (fun hhit => ?_) fun hmiss => ?_
    · rw [if_pos hhit] at huse ⊢
      exact Triple.bind (iget_look hfree (huse _ rfl)) fun r => Triple.pure fun _ h => h
    · rw [if_neg hmiss] at huse ⊢
      exact ih (fun o ho => hoffs o (List.mem_cons_of_mem _ ho)) huse

/-- **`dirlookup`** finds what `seek` finds. -/
theorem dirlookup_look (hs : Sound s₀ p) (hip : ip ∈ L) (htype : (s₀.view (m ip)).type = .dir)
    (hfree : ∃ i, (s₀.inode i).ref + x i = 0) (name : Name) :
    Triple (Look p op s₀ x m L) (dirlookup p ip name)
      (fun r => Finds p op s₀ x m L (seek (s₀.view (m ip)).data name) (r.map Prod.fst)) Never := by
  refine Triple.bind (examine_look hip) fun _ => Triple.bind (seen_look hip) fun y => Triple.of_fact fun hy =>
    Triple.of_fact fun _ => ?_
  rw [hy]
  refine Triple.bind (R := fun _ => Look p op s₀ x m L) (Triple.assert (fun _ _ h => h) fun hn => absurd htype hn)
    fun _ => ?_
  exact lookupLoop_look hip htype rfl (hs.whole _ htype) hfree name _ (fun _ ho => ho)
    fun k hk => hs.entries _ name k htype hk

/-! ## Paths -/

/-- The call can take two entries more. -/
def Roomy (s₀ : State) (x : Iref → ℤ) : Prop :=
  ∃ i j, i ≠ j ∧ (s₀.inode i).ref + x i = 0 ∧ (s₀.inode j).ref + x j = 0

theorem Roomy.one (h : Roomy s₀ x) : ∃ i, (s₀.inode i).ref + x i = 0 := by
  obtain ⟨i, -, -, hi, -⟩ := h
  exact ⟨i, hi⟩

theorem Roomy.plus (h : Roomy s₀ x) (ip : Iref) : ∃ i, (s₀.inode i).ref + Fs.plus x ip i = 0 := by
  obtain ⟨i, j, hij, hi, hj⟩ := h
  by_cases hip : i = ip
  · refine ⟨j, ?_⟩
    rwa [plus_ne x (fun hj => hij (by rw [hip, hj]))]
  · refine ⟨i, ?_⟩
    rwa [plus_ne x hip]

/-- What `namex` leaves: a reference to what it found. -/
def Leads (p : Slot) (op : Bool) (s₀ : State) (x : Iref → ℤ) (L : Finset Iref) (found : Option (ℕ × Name))
    (r : Option (Iref × Name)) (s : State) : Prop :=
  match found, r with
  | none, none => ∃ m, Look p op s₀ x m L s
  | some (n, name), some (ip, name') => name = name' ∧ ∃ m, m ip = n ∧ Look p op s₀ (plus x ip) m L s
  | _, _ => False

/-- **The loop of `namex`** goes where `find` goes; on a torn path it must not arrive there. -/
theorem walk_look (hs : Sound s₀ p) (hL : L = ∅) (hx : ∀ i, 0 ≤ x i) (hroom : Roomy s₀ x)
    (parent torn : Bool) (names : List Name) : ∀ ip m, Triple (Look p op s₀ (plus x ip) m L)
      (walk p parent torn names ip)
      (fun r s => (torn = true → find s₀.view (parent && !torn) names (m ip) = none) ∧
        Leads p op s₀ x L (find s₀.view (parent && !torn) names (m ip)) r s)
      (fun _ _ => torn = true ∧ (find s₀.view (parent && !torn) names (m ip)).isSome = true) := by
  have hnot : ∀ ip, ip ∉ L := fun ip => by rw [hL]; exact Finset.notMem_empty ip
  induction names with
  | nil =>
    intro ip m
    unfold find
    refine Triple.ite (fun htorn => Triple.throw fun s h => ⟨htorn, ?_⟩) fun htorn => ?_
    · rw [htorn]
      simp
    rw [Bool.not_eq_true] at htorn
    subst htorn
    refine Triple.ite (fun hpar => ?_) fun hpar => ?_
    · rw [hpar]
      exact Triple.bind (of_never (iput_look (hnot ip) (hx ip))) fun _ => Triple.pure fun s h => ⟨fun _ => rfl, m, h⟩
    · rw [Bool.not_eq_true] at hpar
      rw [hpar]
      exact Triple.pure fun s h => ⟨fun ht => (by cases ht), rfl, m, rfl, h⟩
  | cons name rest ih =>
    intro ip m
    have hmem := Finset.mem_insert_self ip L
    have hxip : 0 < plus x ip ip := by
      have := hx ip
      rw [plus_self]
      omega
    have hput : ∀ {m E}, Triple (Look p op s₀ (plus x ip) m (insert ip L)) (iunlockput p ip)
        (fun _ => Look p op s₀ x m L) E := of_never (put_look (hnot ip) (hx ip))
    unfold find
    refine Triple.bind (of_never (ilock_look (hnot ip) hxip)) fun _ => ?_
    refine Triple.bind (of_never (examine_look hmem)) fun _ => ?_
    refine Triple.bind (of_never (seen_look hmem)) fun y => Triple.of_fact fun hy => Triple.of_fact fun _ => ?_
    rw [hy]
    refine Triple.ite (fun htype => ?_) fun htype => ?_
    · rw [if_pos htype]
      exact Triple.bind hput fun _ => Triple.pure fun s h => ⟨fun _ => rfl, m, h⟩
    rw [if_neg htype]
    have hlast_iff : (parent = true ∧ torn = false ∧ rest = []) ↔ ((parent && !torn) = true ∧ rest = []) := by
      rw [Bool.and_eq_true, Bool.not_eq_true', and_assoc]
    refine Triple.ite (fun hlast => ?_) fun hlast => ?_
    · rw [if_pos (hlast_iff.1 hlast)]
      refine Triple.bind (of_never (iunlock_look hmem)) fun _ => ?_
      rw [Finset.erase_insert (hnot ip)]
      exact Triple.pure fun s h => ⟨fun ht => absurd (ht.symm.trans hlast.2.1) (by simp), rfl, m, rfl, h⟩
    rw [if_neg (mt hlast_iff.2 hlast)]
    refine Triple.bind (of_never (dirlookup_look hs hmem (not_not.1 htype) (hroom.plus ip) name)) fun r => ?_
    match hfound : seek (s₀.view (m ip)).data name, r with
    | none, none => exact Triple.bind hput fun _ => Triple.pure fun s h => ⟨fun _ => rfl, m, h⟩
    | some n, some (next, off) =>
      have hnext := ih next (Function.update m next n)
      rw [Function.update_self] at hnext
      refine Triple.bind (R := fun _ => Look p op s₀ (plus x next) (Function.update m next n) L) ?_ fun _ => hnext
      refine (of_never (put_look (hnot ip) ?_)).pre fun s h => ?_
      · have hle := nonneg_plus hx next ip
        exact hle
      · have h' : Look p op s₀ (plus (plus x ip) next) (Function.update m next n) (insert ip L) s := h
        rwa [plus_comm] at h'
    | none, some _ => exact fun s h => h.elim
    | some _, none => exact fun s h => h.elim

theorem start_look (hs : Sound s₀ p) (hroom : Roomy s₀ x) (path : Path) :
    Triple (Look p op s₀ x m L) (start p path)
      (fun r s => ∃ n m', s₀.origin p path = some n ∧ m' r = n ∧ Look p op s₀ (plus x r) m' L s)
      (fun _ _ => s₀.Strays p path) := by
  unfold start State.origin
  refine Triple.ite (fun hroot => ?_) fun hrel => ?_
  · rw [if_pos hroot]
    exact (of_never (iget_look hroom.one hs.root)).post fun r s h => ⟨ROOTINO, _, rfl, Function.update_self .., h⟩
  · rw [if_neg hrel]
    obtain ⟨cwd, hcwd, hpos, hfree⟩ := hs.cwd
    refine Triple.ite (fun hend => Triple.throw fun s _ => ⟨hend.1, ?_⟩) fun _ => ?_
    · -- there is not even a first byte
      obtain ⟨bytes, torn⟩ := path
      obtain ⟨rfl, rfl⟩ : torn = true ∧ bytes = [] := hend
      unfold State.resolve State.origin
      rw [if_neg hrel, hcwd]
      rfl
    refine Triple.bind (R := fun a s => a.tables = s₀.tables ∧ Look p op s₀ x m L s)
      (Triple.get fun s h => ⟨h.tables, h⟩) fun a => Triple.of_fact fun ha => ?_
    rw [ha, hcwd]
    refine Triple.of_state fun s h => ?_
    have hbase := h.base cwd
    have hposx := h.pos cwd
    have hm : m cwd = (s₀.inode cwd).inum := (h.kept cwd hpos).1
    have huse : s₀.Usable (m cwd) := by
      rw [hm]
      exact ⟨hfree, .inr ⟨cwd, hpos, rfl⟩⟩
    refine Triple.conseq (A := Look p op s₀ x m L) (idup_look (by omega) huse) (fun t ht => by rw [ht]; exact h) ?_
      fun _ _ h => h.elim
    rintro r t ⟨rfl, ht⟩
    exact ⟨_, m, rfl, hm, ht⟩

/-- **`namex`** finds what `resolve` finds, unless it strays. -/
theorem namex_look (hs : Sound s₀ p) (hL : L = ∅) (hx : ∀ i, 0 ≤ x i) (hroom : Roomy s₀ x)
    (path : Path) (parent : Bool) : Triple (Look p op s₀ x m L) (namex p path parent)
      (fun r s => ¬ s₀.Strays p path ∧ Leads p op s₀ x L (s₀.resolve p parent path) r s)
      (fun _ _ => s₀.Strays p path) := by
  refine Triple.bind (of_never inside_look) fun _ => Triple.bind (start_look hs hroom path) fun ip => ?_
  refine Triple.exists_pre fun n => Triple.exists_pre fun m' => Triple.of_fact fun horigin => Triple.of_fact fun hm => ?_
  have hresolve : s₀.resolve p parent path = find s₀.view (parent && !path.torn) (elems path) (m' ip) := by
    unfold State.resolve
    rw [horigin, hm]
    rfl
  have hwalk : Triple (Look p op s₀ (plus x ip) m' L) (walk p parent path.torn (elems path) ip) _ _ :=
    walk_look hs hL hx hroom parent path.torn (elems path) ip m'
  rw [← hresolve] at hwalk
  refine hwalk.conseq (fun _ => id) (fun r s h => ⟨fun hstray => ?_, h.2⟩) fun _ _ h => ⟨h.1, ?_⟩
  · have hnone := h.1 hstray.1
    rw [s₀.resolve_torn p parent hstray.1] at hnone
    have hfound := hstray.2
    rw [hnone] at hfound
    cases hfound
  · rw [← s₀.resolve_torn p parent h.1]
    exact h.2

/-- The same for `namei`. -/
def Arrives (p : Slot) (op : Bool) (s₀ : State) (x : Iref → ℤ) (L : Finset Iref) (found : Option ℕ)
    (r : Option Iref) (s : State) : Prop :=
  match found, r with
  | none, none => ∃ m, Look p op s₀ x m L s
  | some n, some ip => ∃ m, m ip = n ∧ Look p op s₀ (plus x ip) m L s
  | _, _ => False

theorem namei_look (hs : Sound s₀ p) (hL : L = ∅) (hx : ∀ i, 0 ≤ x i) (hroom : Roomy s₀ x) (path : Path) :
    Triple (Look p op s₀ x m L) (namei p path)
      (fun r s => ¬ s₀.Strays p path ∧ Arrives p op s₀ x L ((s₀.resolve p false path).map Prod.fst) r s)
      (fun _ _ => s₀.Strays p path) := by
  refine Triple.bind (namex_look hs hL hx hroom path false) fun r => Triple.of_fact fun hstray =>
    Triple.pure fun s h => ⟨hstray, ?_⟩
  revert h
  match s₀.resolve p false path, r with
  | none, none => exact id
  | some (n, name), some (ip, name') => exact And.right
  | none, some _ => exact False.elim
  | some _, none => exact False.elim

/-- A path that ends before NUL only leads astray; one with its NUL never does. -/
theorem namei_whole (hs : Sound s₀ p) (hL : L = ∅) (hx : ∀ i, 0 ≤ x i) (hroom : Roomy s₀ x) (path : Bytes) :
    Triple (Look p op s₀ x m L) (namei p path)
      (Arrives p op s₀ x L ((s₀.resolve p false path).map Prod.fst)) Never :=
  (namei_look hs hL hx hroom path).conseq (fun _ => id) (fun _ _ h => h.2) fun _ _ h =>
    absurd h (s₀.not_strays p path)

/-! ## After the lookup -/

theorem Look.quiet (h : Look p op s₀ x m ∅ s) : Quiet s where
  lock i := by rw [h.lock, if_neg (Finset.notMem_empty i)]
  ref i := by
    have hbase := h.base i
    have hpos := h.pos i
    rw [h.ref]
    omega
  uniq i j hi hj hij := by
    rw [h.ref] at hi hj
    rw [h.inum, h.inum] at hij
    exact h.uniq i j hi hj hij

theorem Look.usable_of (h : Look p op s₀ x m L s) {n : ℕ} (hn : s₀.Usable n) : s.Usable n := by
  obtain ⟨htype, hlinks⟩ := hn
  rw [← h.view] at htype hlinks
  refine ⟨htype, hlinks.imp_right ?_⟩
  rintro ⟨i, hi, hin⟩
  have hpos := h.pos i
  refine ⟨i, ?_, ?_⟩
  · rw [h.ref]
    omega
  · rw [h.inum, (h.kept i hi).1, hin]

theorem Look.sound (h : Look p op s₀ x m L s) (hs : Sound s₀ p) : Sound s p where
  whole n := by
    rw [h.view]
    exact hs.whole n
  entries n name k := by
    rw [h.view]
    exact fun htype hk => h.usable_of (hs.entries n name k htype hk)
  root := h.usable_of hs.root
  cwd := by
    obtain ⟨ip, hcwd, href, htype⟩ := hs.cwd
    have hpos := h.pos ip
    refine ⟨ip, by rw [h.tables, hcwd], ?_, ?_⟩
    · rw [h.ref]
      omega
    · rw [h.inum, (h.kept ip href).1, h.view]
      exact htype

/-- With `k` entries free and one taken. -/
theorem Room.roomy_plus (h : Room s₀ 3) (ip : Iref) : Roomy s₀ (plus (fun _ => 0) ip) := by
  unfold Room at h
  have hcard : 1 < ((Finset.univ.filter fun i => (s₀.inode i).ref = 0).erase ip).card := by
    have := Finset.pred_card_le_card_erase (s := Finset.univ.filter fun i => (s₀.inode i).ref = 0) (a := ip)
    omega
  obtain ⟨i, hi, j, hj, hij⟩ := Finset.one_lt_card.1 hcard
  simp only [Finset.mem_erase, Finset.mem_filter, Finset.mem_univ, true_and] at hi hj
  refine ⟨i, j, hij, ?_, ?_⟩
  · rw [plus_ne _ hi.1, hi.2]
    rfl
  · rw [plus_ne _ hj.1, hj.2]
    rfl

theorem Room.roomy (h : Room s₀ 2) : Roomy s₀ fun _ => 0 := by
  obtain ⟨i, hi, j, hj, hij⟩ := Finset.one_lt_card.1 h
  simp only [Finset.mem_filter, Finset.mem_univ, true_and] at hi hj
  exact ⟨i, j, hij, by rw [hi]; rfl, by rw [hj]; rfl⟩

end

end Xv6.Fs
