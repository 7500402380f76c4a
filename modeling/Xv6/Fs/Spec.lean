import Xv6.Fs.Model
import Xv6.Lib.Refs

/-!
# What a call keeps of the inode cache

`Ctx x L op`: the reference count of every entry of the cache is what the open files and
current directories hold of it and, with `x`, what the call holds besides; the call has the
locks `L`; it is inside a transaction or not (`op`). Each function of `fs.c` has one rule that
says what it does to these.

The rules have three parameters: the tables `T`, which no function of `fs.c` changes; the
entries `W` that must stay as they are (no directory, and valid); and whether the call has
kept the protocol (`q`).
-/

namespace Xv6.Fs

open Prog

/-! ## Who has an inode -/

/-- What an open file, or a process, refers to. -/
def Tables.owner (T : Tables) : Fref ⊕ Slot → Option Iref
  | .inl f => if 0 < (T.file f).ref ∧ (T.file f).type = .inode then some (T.file f).ip else none
  | .inr q => T.cwd q

/-- How many open files and current directories refer to the entry. -/
def Tables.owners (T : Tables) (i : Iref) : ℕ := refs T.owner i

/-- One owner refers to something else. -/
theorem Tables.owners_swap {T T' : Tables} (o : Fref ⊕ Slot) (hne : ∀ o', o' ≠ o → T'.owner o' = T.owner o')
    (i : Iref) : (T'.owners i : ℤ) + (if T.owner o = some i then 1 else 0) =
      T.owners i + if T'.owner o = some i then 1 else 0 := by
  exact_mod_cast refs_swap hne i

theorem Tables.owners_pos {T : Tables} {o : Fref ⊕ Slot} {i : Iref} (h : T.owner o = some i) :
    0 < T.owners i := refs_pos h

theorem Tables.owners_cwd {T : Tables} {q : Slot} {i : Iref} (h : T.cwd q = some i) : 0 < T.owners i := by
  have hq : T.owner (.inr q) = some i := h
  exact T.owners_pos hq

/-- One reference more. -/
def plus (x : Iref → ℤ) (i : Iref) : Iref → ℤ := Function.update x i (x i + 1)

@[simp] theorem plus_self (x : Iref → ℤ) (i : Iref) : plus x i i = x i + 1 := Function.update_self ..

@[simp] theorem plus_ne (x : Iref → ℤ) {i j : Iref} (h : j ≠ i) : plus x i j = x j := Function.update_of_ne h ..

theorem plus_comm (x : Iref → ℤ) (i j : Iref) : plus (plus x i) j = plus (plus x j) i := by
  funext k
  by_cases hi : k = i
  · by_cases hj : k = j
    · subst hi hj; rfl
    · subst hi; simp [hj]
  · by_cases hj : k = j
    · subst hj; simp [hi]
    · simp [hi, hj]

theorem nonneg_plus {x : Iref → ℤ} (h : ∀ i, 0 ≤ x i) (i : Iref) : ∀ j, 0 ≤ plus x i j := by
  intro j
  have hj := h j
  by_cases hij : j = i
  · subst hij; simp; omega
  · simpa [hij] using hj

section

variable (p : Slot) (T : Tables) (W : Iref → Prop) (q : Bool → Prop)

/-- The state of a call; the entries `V` are valid. -/
structure Core (x : Iref → ℤ) (L V : Finset Iref) (op : Bool) (s : State) : Prop where
  tables : s.tables = T
  refs : ∀ i, (s.inode i).ref = T.owners i + x i
  lock : ∀ i, (s.inode i).lock = if i ∈ L then some p else none
  valid : ∀ i ∈ V, (s.inode i).valid = true ∧ 0 < T.owners i + x i
  keep : ∀ i, W i → (s.inode i).valid = true ∧ (s.inode i).di.type ≠ .dir
  uniq : ∀ i j, 0 < (s.inode i).ref → 0 < (s.inode j).ref → (s.inode i).inum = (s.inode j).inum → i = j
  typed : ∀ i, 0 < (s.inode i).ref → (s.inode i).valid = true →
    (s.disk (s.inode i).inum).type = (s.inode i).di.type ∧ (s.inode i).di.type ≠ .free
  inOp : s.inOp = op
  monitor : q s.broken

/-- The same, when what is locked is valid. -/
abbrev Ctx (x : Iref → ℤ) (L : Finset Iref) (op : Bool) : State → Prop := Core p T W q x L L op

/-- A call never unlocks what it has not locked, and a fault does not come from a broken protocol. -/
def Fine (e : Fault) (s : State) : Prop := e ≠ .iunlock ∧ q s.broken

end

section

variable {p : Slot} {T : Tables} {W : Iref → Prop} {q : Bool → Prop}
variable {x x' : Iref → ℤ} {L L' V V' : Finset Iref} {op : Bool} {s s' : State} {ip dp : Iref}

theorem Core.fine (h : Core p T W q x L V op s) {e : Fault} (he : e ≠ .iunlock) : Fine q e s := ⟨he, h.monitor⟩

theorem inode_setInode_self (s : State) (ip : Iref) (f : Inode → Inode) :
    (s.setInode ip f).inode ip = f (s.inode ip) := Function.update_self ..

theorem inode_setInode_ne (s : State) (f : Inode → Inode) {i : Iref} (hi : i ≠ ip) :
    (s.setInode ip f).inode i = s.inode i := Function.update_of_ne hi ..

/-- One entry changes. -/
theorem Core.update (h : Core p T W q x L V op s) (f : Inode → Inode) (hx : ∀ i, i ≠ ip → x' i = x i)
    (hL : ∀ i, i ≠ ip → (i ∈ L' ↔ i ∈ L)) (hV : ∀ i, i ≠ ip → i ∈ V' → i ∈ V)
    (href : (f (s.inode ip)).ref = T.owners ip + x' ip)
    (hlock : (f (s.inode ip)).lock = if ip ∈ L' then some p else none)
    (hvalid : ip ∈ V' → (f (s.inode ip)).valid = true ∧ 0 < T.owners ip + x' ip)
    (hkeep : W ip → (f (s.inode ip)).valid = true ∧ (f (s.inode ip)).di.type ≠ .dir)
    (huniq : ∀ i, i ≠ ip → 0 < (f (s.inode ip)).ref → 0 < (s.inode i).ref →
      (f (s.inode ip)).inum ≠ (s.inode i).inum)
    (htyped : 0 < (f (s.inode ip)).ref → (f (s.inode ip)).valid = true →
      (s.disk (f (s.inode ip)).inum).type = (f (s.inode ip)).di.type ∧ (f (s.inode ip)).di.type ≠ .free) :
    Core p T W q x' L' V' op (s.setInode ip f) := by
  have hself := inode_setInode_self s ip f
  have hne : ∀ i, i ≠ ip → (s.setInode ip f).inode i = s.inode i := fun i => inode_setInode_ne s f
  constructor
  · exact h.tables
  · intro i
    by_cases hi : i = ip
    · rw [hi, hself, href]
    · rw [hne i hi, hx i hi, h.refs i]
  · intro i
    by_cases hi : i = ip
    · rw [hi, hself, hlock]
    · rw [hne i hi, h.lock i]
      simp only [hL i hi]
  · intro i hiV
    by_cases hi : i = ip
    · subst hi
      rw [hself]
      exact hvalid hiV
    · rw [hne i hi, hx i hi]
      exact h.valid i (hV i hi hiV)
  · intro i hiW
    by_cases hi : i = ip
    · subst hi
      rw [hself]
      exact hkeep hiW
    · rw [hne i hi]
      exact h.keep i hiW
  · intro i j hri hrj hij
    by_cases hi : i = ip
    · by_cases hj : j = ip
      · rw [hi, hj]
      · subst hi
        rw [hself] at hri hij
        rw [hne j hj] at hrj hij
        exact absurd hij (huniq j hj hri hrj)
    · by_cases hj : j = ip
      · subst hj
        rw [hself] at hrj hij
        rw [hne i hi] at hri hij
        exact absurd hij.symm (huniq i hi hrj hri)
      · rw [hne i hi] at hri hij
        rw [hne j hj] at hrj hij
        exact h.uniq i j hri hrj hij
  · intro i
    by_cases hi : i = ip
    · subst hi
      rw [hself]
      exact htyped
    · rw [hne i hi]
      exact h.typed i
  · exact h.inOp
  · exact h.monitor

/-- An entry that has references keeps its inode, and what is known of its type. -/
theorem Core.touch (h : Core p T W q x L V op s) (f : Inode → Inode) (hx : ∀ i, i ≠ ip → x' i = x i)
    (hL : ∀ i, i ≠ ip → (i ∈ L' ↔ i ∈ L)) (hV : ∀ i ∈ V', i ∈ V)
    (href : (f (s.inode ip)).ref = T.owners ip + x' ip)
    (hlock : (f (s.inode ip)).lock = if ip ∈ L' then some p else none)
    (hpos : 0 < (f (s.inode ip)).ref → 0 < (s.inode ip).ref) (hmem : ip ∈ V' → 0 < T.owners ip + x' ip)
    (hinum : (f (s.inode ip)).inum = (s.inode ip).inum) (hvalid : (f (s.inode ip)).valid = (s.inode ip).valid)
    (htype : (f (s.inode ip)).di.type = (s.inode ip).di.type) :
    Core p T W q x' L' V' op (s.setInode ip f) := by
  refine h.update f hx hL (fun i _ hi => hV i hi) href hlock ?_ ?_ ?_ ?_
  · intro hip
    rw [hvalid]
    exact ⟨(h.valid ip (hV ip hip)).1, hmem hip⟩
  · rw [hvalid, htype]
    exact h.keep ip
  · intro i hi hr hri hij
    rw [hinum] at hij
    exact hi (h.uniq ip i (hpos hr) hri hij).symm
  · intro hr
    rw [hvalid, hinum, htype]
    exact h.typed ip (hpos hr)

/-- Only the content of an entry changes, or its link count. -/
theorem Core.setInode (h : Core p T W q x L V op s) (f : Inode → Inode)
    (hf : ∀ y, f y = { y with di := (f y).di } ∧ (f y).di.type = y.di.type) :
    Core p T W q x L V op (s.setInode ip f) := by
  obtain ⟨heq, htype⟩ := hf (s.inode ip)
  have href : (f (s.inode ip)).ref = (s.inode ip).ref := by rw [heq]
  refine h.touch f (fun _ _ => rfl) (fun _ _ => .rfl) (fun _ => id) ?_ ?_ ?_ ?_ ?_ ?_ htype
  · rw [href, h.refs]
  · rw [heq]
    exact h.lock ip
  · rw [href]
    exact id
  · exact fun hip => (h.valid ip hip).2
  · rw [heq]
  · rw [heq]

/-- An inode on disk changes, as far as its type goes, to what the cache has of it. -/
theorem Core.setDisk (h : Core p T W q x L V op s) (inum : ℕ) (f : Dinode → Dinode)
    (hf : ∀ i, 0 < (s.inode i).ref → (s.inode i).valid = true → (s.inode i).inum = inum →
      (f (s.disk inum)).type = (s.inode i).di.type) :
    Core p T W q x L V op (s.setDisk inum f) := by
  refine ⟨h.tables, h.refs, h.lock, h.valid, h.keep, h.uniq, fun i hr hv => ?_, h.inOp, h.monitor⟩
  refine ⟨?_, (h.typed i hr hv).2⟩
  by_cases hi : (s.inode i).inum = inum
  · have hdisk : (s.setDisk inum f).disk (s.inode i).inum = f (s.disk inum) := by
      rw [hi]
      exact Function.update_self ..
    exact (congrArg Dinode.type hdisk).trans (hf i hr hv hi)
  · have hdisk : (s.setDisk inum f).disk (s.inode i).inum = s.disk (s.inode i).inum := Function.update_of_ne hi ..
    exact (congrArg Dinode.type hdisk).trans (h.typed i hr hv).1

/-- The cache writes an inode back. -/
theorem Core.writeBack (h : Core p T W q x L V op s) (hV : ip ∈ V) (f : Dinode → Dinode)
    (hf : (f (s.disk (s.inode ip).inum)).type = (s.inode ip).di.type) :
    Core p T W q x L V op (s.setDisk (s.inode ip).inum f) := by
  have hpos : 0 < (s.inode ip).ref := by
    rw [h.refs ip]
    exact (h.valid ip hV).2
  refine h.setDisk _ f fun i hr _ hi => ?_
  rw [h.uniq i ip hr hpos hi]
  exact hf

theorem Core.mono (h : Core p T W q x L V op s) (hV : V' ⊆ V) : Core p T W q x L V' op s :=
  ⟨h.tables, h.refs, h.lock, fun i hi => h.valid i (hV hi), h.keep, h.uniq, h.typed, h.inOp, h.monitor⟩

/-! ## The protocol -/

theorem examine_spec (hL : ip ∈ L) (hV : ip ∈ V) :
    Triple (Core p T W q x L V op) (examine p ip) (fun _ => Core p T W q x L V op) (Fine q) := by
  refine Triple.modify fun s h => ?_
  have hlock : (s.inode ip).lock = some p ∧ (s.inode ip).valid = true :=
    ⟨by rw [h.lock, if_pos hL], (h.valid ip hV).1⟩
  rw [if_pos hlock]
  exact h

/-- When the protocol does not matter any more. -/
theorem examine_broken (hq : q true) : Triple (Core p T W q x L V op) (examine p ip)
    (fun _ => Core p T W q x L V op) (Fine q) := by
  refine Triple.modify fun s h => ?_
  split
  · exact h
  · exact ⟨h.tables, h.refs, h.lock, h.valid, h.keep, h.uniq, h.typed, h.inOp, hq⟩

theorem inside_spec (hop : ¬ q true → op = true) :
    Triple (Core p T W q x L V op) inside (fun _ => Core p T W q x L V op) (Fine q) := by
  refine Triple.modify fun s h => ?_
  split
  · exact h
  · rename_i hin
    refine ⟨h.tables, h.refs, h.lock, h.valid, h.keep, h.uniq, h.typed, h.inOp, ?_⟩
    by_contra hq
    rw [h.inOp, hop hq] at hin
    exact hin rfl

theorem begin_op_spec : Triple (Core p T W q x L V op) begin_op (fun _ => Core p T W q x L V true) (Fine q) :=
  Triple.modify fun _ h => ⟨h.tables, h.refs, h.lock, h.valid, h.keep, h.uniq, h.typed, rfl, h.monitor⟩

theorem end_op_spec : Triple (Core p T W q x L V op) end_op (fun _ => Core p T W q x L V false) (Fine q) :=
  Triple.modify fun _ h => ⟨h.tables, h.refs, h.lock, h.valid, h.keep, h.uniq, h.typed, rfl, h.monitor⟩

/-! ## The inode cache -/

theorem getInode_spec (P : State → Prop) :
    Triple P (getInode ip) (fun y s => P s ∧ y = s.inode ip) (Fine q) :=
  Triple.bind (R := fun a s => P s ∧ a = s) (Triple.get fun _ h => ⟨h, rfl⟩) fun a => Triple.pure (by
    rintro s ⟨h, rfl⟩
    exact ⟨h, rfl⟩)

theorem assert_spec {c : Prop} [Decidable c] {e : Fault} (he : e ≠ .iunlock) :
    Triple (Core p T W q x L V op) (Prog.assert c e) (fun _ => Core p T W q x L V op) (Fine q) :=
  Triple.assert (fun _ _ h => h) fun _ _ h => h.fine he

theorem getInode_any (P : State → Prop) {E : Fault → State → Prop} :
    Triple P (getInode ip) (fun _ => P) E :=
  Triple.bind (R := fun _ => P) (Triple.get fun _ h => h) fun _ => Triple.pure fun _ h => h

theorem setInode_spec {f : Inode → Inode} (hf : ∀ y, f y = { y with di := (f y).di } ∧ (f y).di.type = y.di.type) :
    Triple (Core p T W q x L V op) (setInode ip f) (fun _ => Core p T W q x L V op) (Fine q) :=
  Triple.modify fun _ h => h.setInode f hf

/-- One reference more. -/
theorem Core.ref (h : Core p T W q x L V op s) (hip : 0 < T.owners ip + x ip) :
    Core p T W q (plus x ip) L V op (s.setInode ip fun y => { y with ref := y.ref + 1 }) := by
  have hr := h.refs ip
  refine h.touch _ (fun i hi => plus_ne x hi) (fun _ _ => .rfl) (fun _ => id) ?_ (h.lock ip) ?_ ?_ rfl rfl rfl
  · rw [plus_self, ← add_assoc, ← hr]
  · omega
  · intro _
    rw [plus_self]
    omega

theorem idup_spec (hip : 0 < T.owners ip + x ip) : Triple (Core p T W q x L V op) (idup ip)
    (fun r s => r = ip ∧ Core p T W q (plus x ip) L V op s) (Fine q) := by
  refine Triple.bind (R := fun _ => Core p T W q (plus x ip) L V op) ?_ fun _ => Triple.pure fun s h => ⟨rfl, h⟩
  exact Triple.modify fun s h => h.ref hip

/-- `iget` takes an entry that nobody has, or one of the same inode. -/
theorem iget_spec (hW : ∀ i, W i → 0 < T.owners i + x i) (inum : ℕ) : Triple (Core p T W q x L V op) (iget inum)
      (fun r => Core p T W q (plus x r) L V op) (Fine q) := by
  refine Triple.bind (R := fun a s => Core p T W q x L V op s ∧ a = s) (Triple.get fun _ h => ⟨h, rfl⟩) fun a => ?_
  split
  · rename_i ip hfind
    refine Triple.bind (R := fun _ => Core p T W q (plus x ip) L V op) ?_ fun _ => Triple.pure fun s h => h
    refine Triple.modify ?_
    rintro s ⟨h, rfl⟩
    have href : 0 < (a.inode ip).ref ∧ (a.inode ip).inum = inum := by simpa using List.find?_some hfind
    apply h.ref
    rw [← h.refs ip]
    exact href.1
  · rename_i hnone
    split
    · exact Triple.throw fun s h => h.1.fine (by simp)
    · rename_i ip hfind
      refine Triple.bind (R := fun _ => Core p T W q (plus x ip) L V op) ?_ fun _ => Triple.pure fun s h => h
      refine Triple.modify ?_
      rintro s ⟨h, rfl⟩
      have href : (a.inode ip).ref = 0 := by simpa using List.find?_some hfind
      have hcount := h.refs ip
      rw [href] at hcount
      refine h.update _ (fun i hi => plus_ne x hi) (fun _ _ => .rfl) (fun _ _ => id) ?_ (h.lock ip)
        (fun hip => ?_) (fun hip => ?_) (fun i _ _ hi hij => ?_) fun _ hv => ?_
      · rw [plus_self]
        show (1 : ℤ) = _
        omega
      · have := (h.valid ip hip).2
        omega
      · have := hW ip hip
        omega
      · -- no entry of this inode was found
        have hnone' := List.find?_eq_none.1 hnone i (List.mem_finRange i)
        simp only [decide_eq_true_eq, not_and] at hnone'
        exact hnone' hi hij.symm
      · cases hv

/-- What is known of an entry when it gets the lock. -/
theorem acquiresleep_spec (y : Inode) :
    Triple (fun s => Core p T W q x L V op s ∧ y = s.inode ip) (acquiresleep p ip)
      (fun _ s => ip ∉ L ∧ Core p T W q x (insert ip L) V op s ∧ s.inode ip = { y with lock := some p })
      (Fine q) := by
  refine Triple.bind (getInode_spec _) fun z => Triple.ite (fun hz => ?_) fun _ => Triple.throw fun s h =>
    h.1.1.fine (by simp)
  refine Triple.modify fun s h => ?_
  obtain ⟨⟨h, rfl⟩, rfl⟩ := h
  have hip : ip ∉ L := by
    intro hip
    rw [h.lock, if_pos hip] at hz
    cases hz
  refine ⟨hip, h.touch _ (fun _ _ => rfl) (fun i hi => ?_) (fun _ => id) (h.refs ip) ?_ id
    (fun hV => (h.valid ip hV).2) rfl rfl rfl, Function.update_self ..⟩
  · simp [hi]
  · simp

theorem releasesleep_spec (hV : ip ∉ V) : Triple (Core p T W q x L V op) (releasesleep ip)
    (fun _ => Core p T W q x (L.erase ip) V op) (Fine q) := by
  refine Triple.modify fun s h => h.touch _ (fun _ _ => rfl) (fun i hi => ?_) (fun _ => id) (h.refs ip) ?_ id
    (fun hip => absurd hip hV) rfl rfl rfl
  · simp [hi]
  · simp

/-- **`ilock`** locks the inode and makes it valid. -/
theorem ilock_spec : Triple (Ctx p T W q x L op) (ilock p ip)
    (fun _ s => ip ∉ L ∧ Ctx p T W q x (insert ip L) op s) (Fine q) := by
  refine Triple.bind (getInode_spec _) fun y => ?_
  refine Triple.bind (R := fun _ s => (Ctx p T W q x L op s ∧ y = s.inode ip) ∧ 1 ≤ y.ref)
    (Triple.assert (fun hy _ h => ⟨h, hy⟩) fun _ s h => h.1.fine (by simp)) fun _ => ?_
  refine Triple.bind (R := fun _ s => (ip ∉ L ∧ Core p T W q x (insert ip L) L op s ∧
      s.inode ip = { y with lock := some p }) ∧ 1 ≤ y.ref) ?_ fun _ => ?_
  · rintro s ⟨h, href⟩
    have hacq := acquiresleep_spec (q := q) y s h
    revert hacq
    match acquiresleep p ip s with
    | (.ok _, s') => exact fun hacq => ⟨hacq, href⟩
    | (.error e, s') => exact id
  refine Triple.ite (fun hv => ?_) fun hv => ?_
  · -- it was valid
    refine Triple.pure ?_
    rintro s ⟨⟨hip, h, hy⟩, href⟩
    refine ⟨hip, h.tables, h.refs, h.lock, fun i hi => ?_, h.keep, h.uniq, h.typed, h.inOp, h.monitor⟩
    rcases Finset.mem_insert.1 hi with rfl | hi
    · have hr := h.refs i
      rw [hy] at hr ⊢
      have hr' : y.ref = T.owners i + x i := hr
      exact ⟨hv, by omega⟩
    · exact h.valid i hi
  · refine Triple.bind (R := fun a s => ((ip ∉ L ∧ Core p T W q x (insert ip L) L op s ∧
      s.inode ip = { y with lock := some p }) ∧ 1 ≤ y.ref) ∧ a = s) (Triple.get fun _ h => ⟨h, rfl⟩) fun a => ?_
    refine Triple.bind (R := fun _ s => ((ip ∉ L ∧ Core p T W q x (insert ip L) L op a ∧
      a.inode ip = { y with lock := some p }) ∧ 1 ≤ y.ref) ∧
        s = a.setInode ip fun z => { z with di := a.disk y.inum, valid := true }) ?_ fun _ =>
      Triple.assert (fun htype s h => ?_) fun _ s h => ?_
    · refine Triple.modify ?_
      rintro s ⟨h, rfl⟩
      exact ⟨h, rfl⟩
    · obtain ⟨⟨⟨hip, h, hy⟩, href⟩, rfl⟩ := h
      have hr : y.ref = T.owners ip + x ip := by
        have hr := h.refs ip
        rwa [hy] at hr
      have hinum : (a.inode ip).inum = y.inum := by rw [hy]
      have hpos : 0 < (a.inode ip).ref := by
        rw [h.refs ip]
        omega
      refine ⟨hip, h.update _ (fun _ _ => rfl) (fun _ _ => .rfl) (fun i hi hiV => ?_) (h.refs ip) ?_
        (fun _ => ⟨rfl, ?_⟩) (fun hw => ?_) (fun i hi _ hri hij => ?_) fun _ _ => ⟨?_, htype⟩⟩
      · exact (Finset.mem_insert.1 hiV).resolve_left hi
      · exact h.lock ip
      · omega
      · -- what must stay is valid already
        have hkeep := (h.keep ip hw).1
        rw [hy] at hkeep
        exact absurd hkeep hv
      · exact hi (h.uniq ip i hpos hri hij).symm
      · show (a.disk (a.inode ip).inum).type = _
        rw [hinum]
    · obtain ⟨⟨⟨-, h, -⟩, -⟩, rfl⟩ := h
      exact ⟨by simp, h.monitor⟩

theorem iunlock_spec (hip : ip ∈ L) : Triple (Ctx p T W q x L op) (iunlock p ip)
    (fun _ => Ctx p T W q x (L.erase ip) op) (Fine q) := by
  refine Triple.bind (getInode_spec _) fun y => ?_
  refine Triple.bind (R := fun _ => Core p T W q x L (L.erase ip) op) ?_ fun _ =>
    releasesleep_spec (Finset.notMem_erase ip L)
  refine Triple.assert (fun _ s h => h.1.mono (Finset.erase_subset ip L)) fun hn s h => ?_
  obtain ⟨h, rfl⟩ := h
  have hr := h.refs ip
  have hpos := (h.valid ip hip).2
  exact absurd ⟨by rw [h.lock, if_pos hip], by omega⟩ hn

theorem iupdate_spec (hL : ip ∈ L) (hV : ip ∈ V) : Triple (Core p T W q x L V op) (iupdate p ip)
    (fun _ => Core p T W q x L V op) (Fine q) :=
  Triple.bind (examine_spec hL hV) fun _ => Triple.modify fun _ h => h.writeBack hV _ rfl

theorem itrunc_spec (hL : ip ∈ L) (hV : ip ∈ V) : Triple (Core p T W q x L V op) (itrunc p ip)
    (fun _ => Core p T W q x L V op) (Fine q) := by
  refine Triple.bind (examine_spec hL hV) fun _ => ?_
  refine Triple.bind (getInode_spec _) fun y => ?_
  refine Triple.bind (R := fun _ => Core p T W q x L V op)
    (Triple.assert (fun _ _ h => h.1) fun _ s h => h.1.fine (by simp)) fun _ => ?_
  exact Triple.bind (setInode_spec fun _ => ⟨rfl, rfl⟩) fun _ => iupdate_spec hL hV

/-- What `iput` does to an inode that nobody needs any more, after `itrunc`. -/
theorem free_spec (hL : ip ∈ L) (hV : ip ∈ V) (hV' : V' ⊆ V) (hip : ip ∉ V') (hnot : ¬ W ip) :
    Triple (Core p T W q x L V op) (do
      setInode ip fun x => { x with di := { x.di with type := .free } }
      iupdate p ip
      setInode ip fun x => { x with valid := false }) (fun _ => Core p T W q x L V' op) (Fine q) := by
  refine Triple.bind (R := fun _ s => ∃ s₀, Core p T W q x L V op s₀ ∧
    s = s₀.setInode ip fun x => { x with di := { x.di with type := .free } }) (Triple.modify fun s h => ⟨s, h, rfl⟩)
    fun _ => ?_
  refine Triple.bind (R := fun _ s => ∃ s₀ d, Core p T W q x L V op s₀ ∧
    s = (s₀.setInode ip fun x => { x with di := { x.di with type := .free } }).setDisk (s₀.inode ip).inum
      fun _ => d) ?_ fun _ => ?_
  · refine Triple.bind (R := fun _ s => ∃ s₀, Core p T W q x L V op s₀ ∧
      s = s₀.setInode ip fun x => { x with di := { x.di with type := .free } }) ?_ fun _ => ?_
    · refine Triple.modify ?_
      rintro _ ⟨s, h, rfl⟩
      rw [inode_setInode_self, if_pos ⟨by rw [h.lock, if_pos hL], (h.valid ip hV).1⟩]
      exact ⟨s, h, rfl⟩
    · refine Triple.modify ?_
      rintro _ ⟨s, h, rfl⟩
      refine ⟨s, { (s.inode ip).di with type := .free }, h, ?_⟩
      rw [inode_setInode_self]
  · refine Triple.modify ?_
    rintro _ ⟨s, d, h, rfl⟩
    have hpos : 0 < (s.inode ip).ref := by
      rw [h.refs ip]
      exact (h.valid ip hV).2
    -- the entry is not valid, and no other has this inode
    have hone : Core p T W q x L V' op
        (s.setInode ip fun y => { y with di := { y.di with type := .free }, valid := false }) := (h.mono hV').update _
      (fun _ _ => rfl) (fun _ _ => .rfl) (fun _ _ => id) (h.refs ip) (h.lock ip) (fun hi => absurd hi hip)
      (fun hw => absurd hw hnot) (fun i hi _ hri hij => hi (h.uniq ip i hpos hri hij).symm)
      fun _ hv => by cases hv
    have hdisk := hone.setDisk (s.inode ip).inum (fun _ => d) fun i hr hv hi => ?_
    · convert hdisk using 1
      unfold State.setInode State.setDisk
      simp
    · by_cases hii : i = ip
      · subst hii
        rw [inode_setInode_self] at hv
        cases hv
      · rw [inode_setInode_ne s _ hii] at hr hi
        exact absurd (h.uniq i ip hr hpos hi) hii

/-- **`iput`** gives a reference back. An entry that must stay has another one. -/
theorem iput_spec (hop : ¬ q true → op = true) (hW : W ip → 0 < T.owners ip + x ip) :
    Triple (Ctx p T W q (plus x ip) L op) (iput p ip) (fun _ => Ctx p T W q x L op) (Fine q) := by
  refine Triple.bind (inside_spec hop) fun _ => ?_
  refine Triple.bind (R := fun _ s => ip ∉ L ∧ Core p T W q (plus x ip) (insert ip L) L op s) ?_ fun _ => ?_
  · intro s h
    have hacq := acquiresleep_spec (q := q) (s.inode ip) s ⟨h, rfl⟩
    revert hacq
    match acquiresleep p ip s with
    | (.ok _, s') => exact fun hacq => ⟨hacq.1, hacq.2.1⟩
    | (.error e, s') => exact id
  refine Triple.of_fact fun hip => ?_
  refine Triple.bind (getInode_spec _) fun y => ?_
  refine Triple.bind (R := fun _ => Core p T W q (plus x ip) (insert ip L) L op) ?_ fun _ => ?_
  · refine Triple.ite (fun hy => ?_) fun _ => Triple.pure fun s h => h.1
    obtain ⟨hvalid, -, href⟩ := hy
    -- this is the only reference, so the entry need not stay
    refine Triple.fact (c := T.owners ip + x ip = 0) ?_ fun hlast => ?_
    · rintro s ⟨h, rfl⟩
      have hr := h.refs ip
      rw [plus_self] at hr
      omega
    have hnot : ¬ W ip := fun hw => by
      have := hW hw
      omega
    have hmem : ip ∈ insert ip L := Finset.mem_insert_self ip L
    refine Triple.bind (R := fun _ => Ctx p T W q (plus x ip) (insert ip L) op) ?_ fun _ =>
      free_spec hmem hmem (Finset.subset_insert ip L) hip hnot
    refine (itrunc_spec hmem hmem).pre ?_
    rintro s ⟨h, rfl⟩
    refine ⟨h.tables, h.refs, h.lock, fun i hi => ?_, h.keep, h.uniq, h.typed, h.inOp, h.monitor⟩
    rcases Finset.mem_insert.1 hi with rfl | hi
    · refine ⟨hvalid, ?_⟩
      rw [plus_self]
      omega
    · exact h.valid i hi
  refine Triple.bind (releasesleep_spec hip) fun _ => ?_
  rw [Finset.erase_insert hip]
  refine Triple.modify fun s h => ?_
  have hr := h.refs ip
  rw [plus_self] at hr
  refine h.touch _ (fun i hi => (plus_ne x hi).symm) (fun _ _ => .rfl) (fun _ => id) ?_ (h.lock ip) ?_
    (fun hiL => absurd hiL hip) rfl rfl rfl
  · show (s.inode ip).ref - 1 = _
    omega
  · intro hpos
    have hpos' : 0 < (s.inode ip).ref - 1 := hpos
    omega

theorem iunlockput_spec (hop : ¬ q true → op = true) (hW : W ip → 0 < T.owners ip + x ip) (hip : ip ∈ L) :
    Triple (Ctx p T W q (plus x ip) L op) (iunlockput p ip) (fun _ => Ctx p T W q x (L.erase ip) op) (Fine q) :=
  Triple.bind (iunlock_spec hip) fun _ => iput_spec hop hW

theorem ialloc_spec (hW : ∀ i, W i → 0 < T.owners i + x i) (type : IType) :
    Triple (Core p T W q x L V op) (ialloc type) (fun r => Core p T W q (plus x r) L V op) (Fine q) := by
  refine Triple.bind (R := fun a s => Core p T W q x L V op s ∧ a = s) (Triple.get fun _ h => ⟨h, rfl⟩) fun a => ?_
  split
  · exact Triple.throw fun s h => h.1.fine (by simp)
  · rename_i inum hfind
    refine Triple.bind (R := fun _ => Core p T W q x L V op) (Triple.modify ?_) fun _ => iget_spec hW _
    rintro s ⟨h, rfl⟩
    have hfree : (a.disk inum).type = .free := by simpa using List.find?_some hfind
    -- no valid entry has a free inode
    refine h.setDisk inum _ fun i hr hv hi => ?_
    have htyped := h.typed i hr hv
    rw [hi, hfree] at htyped
    exact absurd htyped.1.symm htyped.2

/-! ## Types on disk -/

/-- The type of the inode on disk. -/
def OnDisk (ip : Iref) (type : IType) (s : State) : Prop := (s.disk (s.inode ip).inum).type = type

theorem iget_onDisk (inum : ℕ) (type : IType) : Triple (fun s => (s.disk inum).type = type) (iget inum)
    (fun r => OnDisk r type) (fun _ _ => True) := by
  refine Triple.bind (R := fun a s => (s.disk inum).type = type ∧ a = s) (Triple.get fun _ h => ⟨h, rfl⟩) fun a => ?_
  split
  · rename_i ip hfind
    refine Triple.bind (R := fun _ => OnDisk ip type) ?_ fun _ => Triple.pure fun _ h => h
    refine Triple.modify ?_
    rintro s ⟨h, rfl⟩
    have hinum : 0 < (a.inode ip).ref ∧ (a.inode ip).inum = inum := by simpa using List.find?_some hfind
    unfold OnDisk
    rw [inode_setInode_self]
    show (a.disk (a.inode ip).inum).type = type
    rwa [hinum.2]
  · split
    · exact Triple.throw fun _ _ => trivial
    · rename_i ip _
      refine Triple.bind (R := fun _ => OnDisk ip type) ?_ fun _ => Triple.pure fun _ h => h
      refine Triple.modify ?_
      rintro s ⟨h, rfl⟩
      unfold OnDisk
      rw [inode_setInode_self]
      exact h

theorem ialloc_onDisk (type : IType) : Triple (fun _ => True) (ialloc type) (fun r => OnDisk r type)
    (fun _ _ => True) := by
  refine Triple.bind (R := fun _ _ => True) (Triple.get fun _ _ => trivial) fun a => ?_
  split
  · exact Triple.throw fun _ _ => trivial
  · rename_i inum _
    refine Triple.bind (R := fun _ s => (s.disk inum).type = type) (Triple.modify fun s _ => ?_) fun _ =>
      iget_onDisk inum type
    have hself : (s.setDisk inum fun _ => ⟨type, 0, 0, 0, []⟩).disk inum = ⟨type, 0, 0, 0, []⟩ :=
      Function.update_self ..
    rw [hself]

theorem setInode_onDisk {i : Iref} {type : IType} {f : Inode → Inode} (hf : ∀ y, (f y).inum = y.inum) :
    Triple (OnDisk i type) (setInode ip f) (fun _ => OnDisk i type) (fun _ _ => True) := by
  refine Triple.modify fun s h => ?_
  unfold OnDisk
  by_cases hi : i = ip
  · subst hi
    rw [inode_setInode_self, hf]
    exact h
  · rw [inode_setInode_ne s f hi]
    exact h

theorem ilock_onDisk {i : Iref} (type : IType) : Triple (OnDisk i type) (ilock p ip) (fun _ => OnDisk i type)
    (fun _ _ => True) := by
  refine Triple.bind (R := fun _ => OnDisk i type) (getInode_any _) fun y => ?_
  refine Triple.bind (R := fun _ => OnDisk i type) (Triple.assert (fun _ _ h => h) fun _ _ _ => trivial) fun _ => ?_
  refine Triple.bind (R := fun _ => OnDisk i type) ?_ fun _ => ?_
  · refine Triple.bind (R := fun _ => OnDisk i type) (getInode_any _) fun z => ?_
    exact Triple.ite (fun _ => setInode_onDisk fun _ => rfl) fun _ => Triple.throw fun _ _ => trivial
  · refine Triple.ite (fun _ => Triple.pure fun _ h => h) fun _ => ?_
    refine Triple.bind (R := fun _ => OnDisk i type) (Triple.get fun _ h => h) fun a => ?_
    refine Triple.bind (setInode_onDisk fun _ => rfl) fun _ => ?_
    exact Triple.assert (fun _ _ h => h) fun _ _ _ => trivial

/-- What is on disk is in the cache. -/
theorem Core.type_eq (h : Core p T W q x L V op s) (hip : ip ∈ V) {type : IType} (hd : OnDisk ip type s) :
    (s.inode ip).di.type = type := by
  obtain ⟨hv, hpos⟩ := h.valid ip hip
  rw [← h.refs ip] at hpos
  exact (h.typed ip hpos hv).1.symm.trans hd

/-! ## Content -/

theorem readi_spec (hL : ip ∈ L) (hV : ip ∈ V) (off n : ℕ) : Triple (Core p T W q x L V op) (readi p ip off n)
    (fun _ => Core p T W q x L V op) (Fine q) := by
  refine Triple.bind (examine_spec hL hV) fun _ => ?_
  refine Triple.bind (R := fun _ => Core p T W q x L V op) (Triple.get fun _ h => h) fun a => ?_
  dsimp only
  split
  · exact Triple.pure fun _ h => h
  · split
    · exact Triple.pure fun _ h => h
    · exact Triple.pure fun _ h => h

theorem writei_spec (hL : ip ∈ L) (hV : ip ∈ V) (off : ℕ) (bs : Bytes) :
    Triple (Core p T W q x L V op) (writei p ip off bs) (fun _ => Core p T W q x L V op) (Fine q) := by
  refine Triple.bind (examine_spec hL hV) fun _ => ?_
  refine Triple.bind (R := fun _ => Core p T W q x L V op) (Triple.get fun _ h => h) fun a => ?_
  dsimp only
  split
  · exact Triple.pure fun _ h => h
  · split
    · exact Triple.pure fun _ h => h
    · refine Triple.bind (R := fun _ => Core p T W q x L V op)
        (Triple.assert (fun _ _ h => h) fun _ s h => h.fine (by simp)) fun _ => ?_
      refine Triple.bind (setInode_spec fun _ => ⟨rfl, rfl⟩) fun _ => ?_
      refine Triple.bind (R := fun _ => Core p T W q x L V op)
        (Triple.modify fun s h => h.writeBack hV _ (h.typed ip ?_ (h.valid ip hV).1).1) fun _ => ?_
      · rw [h.refs ip]
        exact (h.valid ip hV).2
      exact Triple.bind (Triple.when fun _ => iupdate_spec hL hV) fun _ => Triple.pure fun _ h => h

/-! ## Directories -/

theorem readDirent_spec (hL : dp ∈ L) (hV : dp ∈ V) (off : ℕ) {e : Fault} (he : e ≠ .iunlock) :
    Triple (Core p T W q x L V op) (readDirent p dp off e) (fun _ => Core p T W q x L V op) (Fine q) := by
  refine Triple.bind (readi_spec hL hV off direntSize) fun r => ?_
  cases r with
  | none => exact Triple.throw fun s h => h.fine he
  | some de =>
    exact Triple.bind (R := fun _ => Core p T W q x L V op)
      (Triple.assert (fun _ _ h => h) fun _ s h => h.fine he) fun _ => Triple.pure fun _ h => h

/-- The inode that was found, if any, has a reference more. -/
def Found (p : Slot) (T : Tables) (W : Iref → Prop) (q : Bool → Prop) (x : Iref → ℤ) (L V : Finset Iref) (op : Bool)
    (r : Option Iref) (s : State) : Prop :=
  match r with
  | none => Core p T W q x L V op s
  | some ip => Core p T W q (plus x ip) L V op s

theorem lookupLoop_spec (hW : ∀ i, W i → 0 < T.owners i + x i) (hL : dp ∈ L) (hV : dp ∈ V)
    (name : Name) (offs : List ℕ) : Triple (Core p T W q x L V op) (lookupLoop p dp name offs)
      (fun r => Found p T W q x L V op (r.map Prod.fst)) (Fine q) := by
  induction offs with
  | nil => exact Triple.pure fun _ h => h
  | cons off offs ih =>
    refine Triple.bind (readDirent_spec hL hV off (by simp)) fun de => ?_
    refine Triple.ite (fun _ => ?_) fun _ => ih
    exact Triple.bind (iget_spec hW _) fun r => Triple.pure fun _ h => h

theorem dirlookup_spec (hW : ∀ i, W i → 0 < T.owners i + x i) (hL : dp ∈ L) (hV : dp ∈ V)
    (name : Name) : Triple (Core p T W q x L V op) (dirlookup p dp name)
      (fun r => Found p T W q x L V op (r.map Prod.fst)) (Fine q) := by
  refine Triple.bind (examine_spec hL hV) fun _ => ?_
  refine Triple.bind (getInode_spec _) fun y => ?_
  refine Triple.bind (R := fun _ => Core p T W q x L V op)
    (Triple.assert (fun _ _ h => h.1) fun _ s h => h.1.fine (by simp)) fun _ => ?_
  exact lookupLoop_spec hW hL hV name _

theorem emptyLoop_spec (hL : dp ∈ L) (hV : dp ∈ V) (last : ℕ) (offs : List ℕ) :
    Triple (Core p T W q x L V op) (emptyLoop p dp last offs) (fun _ => Core p T W q x L V op) (Fine q) := by
  induction offs with
  | nil => exact Triple.pure fun _ h => h
  | cons off offs ih =>
    refine Triple.bind (readDirent_spec hL hV off (by simp)) fun de => ?_
    exact Triple.ite (fun _ => Triple.pure fun _ h => h) fun _ => ih

theorem dirlink_spec (hop : ¬ q true → op = true) (hW : ∀ i, W i → 0 < T.owners i + x i)
    (hL : dp ∈ L) (name : Name) (inum : ℕ) : Triple (Ctx p T W q x L op) (dirlink p dp name inum)
      (fun _ => Ctx p T W q x L op) (Fine q) := by
  refine Triple.bind (dirlookup_spec hW hL hL name) fun r => ?_
  match r with
  | some (ip, off) =>
    exact Triple.bind (R := fun _ => Ctx p T W q x L op) (iput_spec hop (hW ip)) fun _ => Triple.pure fun _ h => h
  | none =>
    refine Triple.bind (examine_spec hL hL) fun _ => ?_
    refine Triple.bind (getInode_spec _) fun y => ?_
    refine (Triple.bind (emptyLoop_spec hL hL _ _) fun off => ?_).pre fun _ h => h.1
    refine Triple.bind (writei_spec hL hL _ _) fun r => ?_
    exact Triple.bind (R := fun _ => Ctx p T W q x L op)
      (Triple.assert (fun _ _ h => h) fun _ s h => h.fine (by simp)) fun _ => Triple.pure fun _ h => h

/-! ## Paths -/

theorem more (hW : ∀ i, W i → 0 < T.owners i + x i) (j : Iref) : ∀ i, W i → 0 < T.owners i + plus x j i := by
  intro i hi
  have hpos := hW i hi
  by_cases hij : i = j
  · rw [hij] at hpos ⊢
    rw [plus_self]
    omega
  · rwa [plus_ne x hij]

/-- A locked inode that the call has a reference to is unlocked and put. -/
theorem put_spec (hop : ¬ q true → op = true) (hW : W ip → 0 < T.owners ip + x ip) (hip : ip ∉ L) :
    Triple (Ctx p T W q (plus x ip) (insert ip L) op) (iunlockput p ip) (fun _ => Ctx p T W q x L op) (Fine q) := by
  have h := iunlockput_spec (p := p) (L := insert ip L) hop hW (Finset.mem_insert_self ip L)
  rwa [Finset.erase_insert hip] at h

theorem unlock_spec (hip : ip ∉ L) : Triple (Ctx p T W q x (insert ip L) op) (iunlock p ip)
    (fun _ => Ctx p T W q x L op) (Fine q) := by
  have h : Triple (Ctx p T W q x (insert ip L) op) (iunlock p ip)
      (fun _ => Ctx p T W q x ((insert ip L).erase ip) op) (Fine q) := iunlock_spec (Finset.mem_insert_self ip L)
  rwa [Finset.erase_insert hip] at h

section

variable (hop : ¬ q true → op = true) (hW : ∀ i, W i → 0 < T.owners i + x i)
include hop hW

theorem walk_spec (par torn : Bool) (names : List Name) : ∀ ip, Triple (Ctx p T W q (plus x ip) L op)
    (walk p par torn names ip) (fun r => Found p T W q x L L op (r.map Prod.fst)) (Fine q) := by
  induction names with
  | nil =>
    intro ip
    refine Triple.ite (fun _ => Triple.throw fun s h => h.fine (by simp)) fun _ => ?_
    refine Triple.ite (fun _ => ?_) fun _ => Triple.pure fun _ h => h
    exact Triple.bind (iput_spec hop (hW ip)) fun _ => Triple.pure fun _ h => h
  | cons name rest ih =>
    intro ip
    refine Triple.bind ilock_spec fun _ => Triple.of_fact fun hip => ?_
    have hmem := Finset.mem_insert_self ip L
    refine Triple.bind (examine_spec hmem hmem) fun _ => ?_
    refine Triple.bind (getInode_spec _) fun y => ?_
    refine Triple.pre (A := Ctx p T W q (plus x ip) (insert ip L) op) ?_ fun _ h => h.1
    refine Triple.ite (fun _ => ?_) fun _ => Triple.ite (fun _ => ?_) fun _ => ?_
    · exact Triple.bind (put_spec hop (hW ip) hip) fun _ => Triple.pure fun _ h => h
    · exact Triple.bind (unlock_spec hip) fun _ => Triple.pure fun _ h => h
    · refine Triple.bind (dirlookup_spec (more hW ip) hmem hmem name) fun r => ?_
      match r with
      | none => exact Triple.bind (put_spec hop (hW ip) hip) fun _ => Triple.pure fun _ h => h
      | some (next, off) =>
        show Triple (Ctx p T W q (plus (plus x ip) next) (insert ip L) op) _ _ _
        rw [plus_comm x ip next]
        exact Triple.bind (put_spec hop (more hW next ip) hip) fun _ => ih next

variable (hx : ∀ i, 0 ≤ x i)
include hx

omit hop in
theorem start_spec (path : Path) : Triple (Ctx p T W q x L op) (start p path)
    (fun r => Ctx p T W q (plus x r) L op) (Fine q) := by
  refine Triple.ite (fun _ => iget_spec hW ROOTINO) fun _ => ?_
  refine Triple.ite (fun _ => Triple.throw fun s h => h.fine (by simp)) fun _ => ?_
  refine Triple.bind (R := fun a s => Ctx p T W q x L op s ∧ a.tables = T) (Triple.get fun _ h => ⟨h, h.tables⟩)
    fun a => ?_
  split
  · exact Triple.throw fun s h => h.1.fine (by simp)
  · rename_i ip hcwd
    refine Triple.fact (c := 0 < T.owners ip + x ip) ?_ fun hip => ?_
    · rintro s ⟨-, rfl⟩
      have howner := Tables.owners_cwd hcwd
      have hxi := hx ip
      omega
    · exact ((idup_spec hip).post fun r s h => by rw [h.1]; exact h.2).pre fun s h => h.1

/-- **`namex`** gives a reference to what it finds, and to nothing else. -/
theorem namex_spec (path : Path) (par : Bool) : Triple (Ctx p T W q x L op) (namex p path par)
    (fun r => Found p T W q x L L op (r.map Prod.fst)) (Fine q) :=
  Triple.bind (inside_spec hop) fun _ => Triple.bind (start_spec hW hx path) fun ip =>
    walk_spec hop hW par path.torn (elems path) ip

theorem namei_spec (path : Path) : Triple (Ctx p T W q x L op) (namei p path)
    (fun r => Found p T W q x L L op r) (Fine q) :=
  Triple.bind (namex_spec hop hW hx path false) fun _ => Triple.pure fun _ h => h

theorem nameiparent_spec (path : Path) : Triple (Ctx p T W q x L op) (nameiparent p path)
    (fun r => Found p T W q x L L op (r.map Prod.fst)) (Fine q) := namex_spec hop hW hx path true

end

end

end Xv6.Fs
