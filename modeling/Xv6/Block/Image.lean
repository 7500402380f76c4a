import Xv6.Block.Mkfs

/-!
# What is on the image

The image that `mkfs` builds from a list of files, as the kernel finds it.

* `layout`: what the inodes should hold.
* `mkfs_spec`: they do, and one block of the bitmap is enough.
* **`image_exact_iff`**: there are no holes and the bitmap is exact, unless the entries of the root directory fill whole
  blocks.
-/

namespace Xv6.Block.Mkfs

open Prog

section

variable {m m' t : Image} {files done : List Input} {f : Input} {inum : ℕ} {content : ℕ → List Byte}

/-! ## What the inodes should hold -/

/-- The entries of the files, the first of which has the inode `n`. -/
def entries (n : ℕ) : List Input → List Byte
  | [] => []
  | f :: fs => dirent n f.name ++ entries (n + 1) fs

def rootData (files : List Input) : List Byte := dirent ROOTINO [46] ++ dirent ROOTINO [46, 46] ++ entries 2 files

def layout (files : List Input) : ℕ → List Byte
  | 0 => []
  | 1 => rootData files
  | k + 2 => (files[k]?.map Input.bytes).getD []

theorem dirent_length (n : ℕ) (name : List Byte) : (dirent n name).length = 16 := by
  unfold dirent
  simp only [List.length_append, List.length_cons, List.length_nil, List.length_take, List.length_replicate, DIRSIZ]
  omega

theorem entries_length (n : ℕ) (files : List Input) : (entries n files).length = 16 * files.length := by
  induction files generalizing n with
  | nil => rfl
  | cons f fs ih =>
    unfold entries
    rw [List.length_append, dirent_length, ih, List.length_cons]
    omega

theorem rootData_length (files : List Input) : (rootData files).length = 16 * (files.length + 2) := by
  unfold rootData
  rw [List.length_append, List.length_append, dirent_length, dirent_length, entries_length]
  omega

theorem entries_snoc (n : ℕ) (files : List Input) (f : Input) :
    entries n (files ++ [f]) = entries n files ++ dirent (n + files.length) f.name := by
  induction files generalizing n with
  | nil => simp [entries]
  | cons g fs ih =>
    rw [List.cons_append]
    unfold entries
    rw [ih, List.append_assoc, List.length_cons, Nat.add_assoc, Nat.add_comm 1]

/-- One file more: an entry in the root directory, and its bytes. -/
theorem layout_snoc (files : List Input) (f : Input) : layout (files ++ [f]) =
    append (append (layout files) ROOTINO (dirent (2 + files.length) f.name)) (2 + files.length) f.bytes := by
  have hrootino : ROOTINO = 1 := rfl
  funext ip
  unfold append
  match ip with
  | 0 =>
    rw [Function.update_of_ne (by omega), Function.update_of_ne (by decide)]
    rfl
  | 1 =>
    rw [Function.update_of_ne (by omega)]
    show rootData (files ++ [f]) = rootData files ++ _
    unfold rootData
    rw [entries_snoc, List.append_assoc (dirent ROOTINO [46] ++ dirent ROOTINO [46, 46])]
  | k + 2 =>
    show ((files ++ [f])[k]?.map Input.bytes).getD [] = _
    by_cases hk : k = files.length
    · rw [hk, Nat.add_comm, Function.update_self, Function.update_of_ne (by omega), List.getElem?_append_right le_rfl,
        Nat.sub_self]
      show f.bytes = (files[files.length]?.map Input.bytes).getD [] ++ f.bytes
      rw [List.getElem?_eq_none le_rfl]
      rfl
    · rw [Function.update_of_ne (by omega), Function.update_of_ne (by omega)]
      show _ = (files[k]?.map Input.bytes).getD []
      by_cases hlt : k < files.length
      · rw [List.getElem?_append_left hlt]
      · rw [List.getElem?_eq_none (by rw [List.length_append, List.length_singleton]; omega),
          List.getElem?_eq_none (by omega)]

/-! ## The files -/

/-- The files `done` are on the image, and the next inodes are new. -/
structure Stores (m : Image) (done : List Input) : Prop where
  holding : Holding m (layout done)
  freeinode : m.freeinode = 2 + done.length
  root : (m.dinode ROOTINO).type = T_DIR
  file : ∀ ip, 2 ≤ ip → ip < 2 + done.length → (m.dinode ip).type = T_FILE
  new : ∀ ip, 2 + done.length ≤ ip → (m.dinode ip).addrs = fun _ => 0

/-- Why `mkfs` may stop at a file. -/
def Refuses (files : List Input) (e : Fault) (_ : Image) : Prop :=
  e = .slash ∧ (∃ f ∈ files, 47 ∈ f.argv) ∨ e = .outside ∧ ∃ f ∈ files, CAPACITY < f.bytes.length

/-- A file, chunk by chunk. -/
theorem chunks_spec (inum : ℕ) (chunks : List (List Byte)) : ∀ m content, Holding m content →
    Triple (fun t => t = m) (chunks.forM (iappend inum))
      (fun _ t => Holding t (append content inum chunks.flatten) ∧ Same m t ∧
        ∀ ip, ip ≠ inum → t.dinode ip = m.dinode ip)
      fun e _ => e = .outside ∧ CAPACITY < (content inum ++ chunks.flatten).length := by
  induction chunks with
  | nil =>
    intro m content h
    refine Triple.pure fun t ht => ?_
    subst ht
    rw [List.flatten_nil, append_nil]
    exact ⟨h, ⟨rfl, fun _ => rfl⟩, fun _ _ => rfl⟩
  | cons p ps ih =>
    intro m content h
    refine Triple.bind ((iappend_spec inum p h).conseq (fun _ => id) (fun _ _ => id) ?_) fun _ =>
      Triple.of_state fun u hu => ?_
    · rintro e t ⟨he, hlt⟩
      refine ⟨he, ?_⟩
      rw [List.flatten_cons, ← List.append_assoc, List.length_append]
      omega
    · obtain ⟨hh, hsame, hother⟩ := hu
      refine (ih u _ hh).conseq (fun _ => id) ?_ ?_
      · rintro _ t ⟨ht, hsame', hother'⟩
        rw [append_append] at ht
        exact ⟨ht, ⟨hsame'.freeinode.trans hsame.freeinode, fun ip => (hsame'.type ip).trans (hsame.type ip)⟩,
          fun ip hip => (hother' ip hip).trans (hother ip hip)⟩
      · rintro e t ⟨he, hlt⟩
        rw [append_self, List.append_assoc] at hlt
        exact ⟨he, hlt⟩

theorem ialloc_spec (type : ℕ) : Triple (fun t => t = m) (ialloc type) (fun r t => r = m.freeinode ∧
    t = Image.put { m with freeinode := m.freeinode + 1 } m.freeinode ⟨type, 0, 0, 1, 0, fun _ => 0⟩)
    fun _ _ => False := by
  rintro t rfl
  exact ⟨rfl, rfl⟩

/-- **One file more.** -/
theorem addFile_spec (h : Stores m done) (hcap : done.length + 3 ≤ NINODES) :
    Triple (fun t => t = m) (addFile f) (fun _ t => Stores t (done ++ [f])) (Refuses [f]) := by
  have hrootino : ROOTINO = 1 := rfl
  refine Triple.bind (R := fun _ t => t = m) (Triple.assert (fun _ t ht => ht) fun hslash t _ =>
    .inl ⟨rfl, f, by simp, not_not.1 hslash⟩) fun _ => ?_
  refine Triple.bind ((ialloc_spec T_FILE).conseq (fun _ => id) (fun _ _ => id) fun _ _ h => h.elim) fun inum =>
    Triple.of_fact fun hinum => Triple.of_state fun u hu => ?_
  rw [h.freeinode] at hinum hu
  subst hinum
  have hnone : layout done (2 + done.length) = [] := by
    rw [Nat.add_comm]
    show (done[done.length]?.map Input.bytes).getD [] = []
    rw [List.getElem?_eq_none le_rfl]
    rfl
  have hself : u.dinode (2 + done.length) = ⟨T_FILE, 0, 0, 1, 0, fun _ => 0⟩ := by
    rw [hu]
    exact Function.update_self ..
  have hne : ∀ ip, ip ≠ 2 + done.length → u.dinode ip = m.dinode ip := by
    intro ip hip
    rw [hu]
    exact Function.update_of_ne hip ..
  have hholding : Holding u (layout done) := by
    refine ⟨fun ip => ?_, h.holding.cap, fun hmax => ?_⟩
    · by_cases hip : ip = 2 + done.length
      · rw [hip, hself, hnone]
        rfl
      · rw [hne ip hip, h.holding.size]
    · have hfree : u.freeblock = m.freeblock := by rw [hu]; rfl
      rw [hfree] at hmax ⊢
      refine (h.holding.whole hmax).congr (by rw [hu]; rfl) fun ip => ?_
      show (u.dinode ip).addrs = (m.dinode ip).addrs
      by_cases hip : ip = 2 + done.length
      · rw [hip, hself, h.new _ le_rfl]
      · rw [hne ip hip]
  have hroot : (layout done ROOTINO ++ dirent (2 + done.length) f.name).length ≤ CAPACITY := by
    rw [List.length_append, dirent_length]
    show (rootData done).length + 16 ≤ _
    rw [rootData_length]
    simp only [NINODES, CAPACITY, NDIRECT, NINDIRECT, BSIZE] at hcap ⊢
    omega
  refine Triple.bind ((iappend_spec ROOTINO _ hholding).conseq (fun _ => id) (fun _ _ => id) ?_) fun _ =>
    Triple.of_state fun v hv => ?_
  · rintro e t ⟨-, hlt⟩
    omega
  obtain ⟨hv, hsame, hother⟩ := hv
  refine (chunks_spec (2 + done.length) f.chunks v _ hv).conseq (fun _ => id) ?_ ?_
  · rintro _ t ⟨ht, hsame', hother'⟩
    have hlen : (done ++ [f]).length = done.length + 1 := by rw [List.length_append, List.length_singleton]
    have htype : ∀ ip, (t.dinode ip).type = (u.dinode ip).type := fun ip => (hsame'.type ip).trans (hsame.type ip)
    refine ⟨?_, ?_, ?_, fun ip hlo hhi => ?_, fun ip hle => ?_⟩
    · rw [layout_snoc]
      exact ht
    · rw [hsame'.freeinode, hsame.freeinode, hu, hlen]
      rfl
    · rw [htype, hne _ (by omega)]
      exact h.root
    · rw [hlen] at hhi
      rw [htype]
      by_cases hip : ip = 2 + done.length
      · rw [hip, hself]
      · rw [hne ip hip]
        exact h.file ip hlo (by omega)
    · rw [hlen] at hle
      rw [hother' ip (by omega), hother ip (by omega), hne ip (by omega)]
      exact h.new ip (by omega)
  · rintro e t ⟨he, hlt⟩
    refine .inr ⟨he, f, by simp, ?_⟩
    have hzero : append (layout done) ROOTINO (dirent (2 + done.length) f.name) (2 + done.length) = [] := by
      unfold append
      rw [Function.update_of_ne (by omega), hnone]
    rwa [hzero, List.nil_append] at hlt

theorem Refuses.mono {files' : List Input} {e : Fault} (h : Refuses files e t) (hsub : ∀ f ∈ files, f ∈ files') :
    Refuses files' e t := by
  rcases h with ⟨he, f, hf, h⟩ | ⟨he, f, hf, h⟩
  · exact .inl ⟨he, f, hsub f hf, h⟩
  · exact .inr ⟨he, f, hsub f hf, h⟩

theorem addFiles_spec (files : List Input) : ∀ m done, Stores m done → done.length + files.length + 2 ≤ NINODES →
    Triple (fun t => t = m) (files.forM addFile) (fun _ t => Stores t (done ++ files)) (Refuses files) := by
  induction files with
  | nil =>
    intro m done h _
    refine Triple.pure fun t ht => ?_
    subst ht
    rwa [List.append_nil]
  | cons f fs ih =>
    intro m done h hcap
    rw [List.length_cons] at hcap
    refine Triple.bind ((addFile_spec h (by omega)).conseq (fun _ => id) (fun _ _ => id)
      fun _ _ he => he.mono (by simp)) fun _ => Triple.of_state fun u hu => ?_
    refine (ih u _ hu ?_).conseq (fun _ => id) ?_ fun _ _ he => he.mono fun g hg => List.mem_cons_of_mem f hg
    · rw [List.length_append, List.length_singleton]
      omega
    · intro _ t ht
      rwa [List.append_assoc, List.singleton_append] at ht

/-! ## The whole image -/

/-- The content of the inodes, which share no block. -/
structure Laid (s : State) (free : ℕ) (content : ℕ → List Byte) : Prop where
  inj : ∀ k l : Node, k.Valid → l.Valid → s.blockOf k = s.blockOf l → s.blockOf k ≠ 0 → k = l
  place : ∀ k : Node, k.Valid → s.blockOf k ≠ 0 → nmeta ≤ s.blockOf k ∧ s.blockOf k < free
  clear : ∀ ip bn, bn < NBLOCKS → blocks content ip ≤ bn → s.blockOf (Node.ofBlock ip bn) = 0
  backed : ∀ ip i, i < (content ip).length → i / BSIZE < NBLOCKS ∧
    s.blockOf (Node.ofBlock ip (i / BSIZE)) ≠ 0 ∧ (content ip)[i]? = some (s.byte ip i)

/-- The blocks before the data do not matter, and neither do sizes. -/
theorem Packed.laid {s u : State} {free : ℕ} (h : Packed s free content (blocks content))
    (hblock : ∀ b, nmeta ≤ b → u.block b = s.block b) (haddrs : ∀ ip, (u.inode ip).addrs = (s.inode ip).addrs) :
    Laid u free content := by
  have hsame : ∀ k : Node, k.Valid → u.blockOf k = s.blockOf k :=
    State.blockOf_congr haddrs fun k hk h0 _ => hblock _ (h.place k hk h0).1
  refine ⟨fun k l hk hl => ?_, fun k hk => ?_, fun ip bn hbn => ?_, fun ip i hi => ?_⟩
  · rw [hsame k hk, hsame l hl]
    exact h.inj k l hk hl
  · rw [hsame k hk]
    exact h.place k hk
  · rw [hsame _ (ofBlock_valid hbn)]
    exact h.clear ip bn hbn
  · obtain ⟨hbn, h0, hbyte⟩ := h.backed ip i hi
    have hv : (Node.ofBlock ip (i / BSIZE)).Valid := ofBlock_valid hbn
    unfold State.byte
    rw [hsame _ hv, hblock _ (h.place _ hv h0).1]
    exact ⟨hbn, h0, hbyte⟩

/-- The root directory as large as its blocks, or larger. -/
def rounded (files : List Input) : ℕ := ((rootData files).length / BSIZE + 1) * BSIZE

/-- **What `mkfs` leaves.** -/
structure Finished (files : List Input) (m : Image) : Prop where
  laid : Laid m.kernel m.freeblock (layout files)
  few : m.freeblock < BPB
  bitmap : ∀ b, b < FSSIZE → m.kernel.used sb b = decide (b < m.freeblock)
  cap : ∀ f ∈ files, f.bytes.length ≤ CAPACITY
  rootSize : (m.dinode ROOTINO).size = rounded files
  size : ∀ ip, ip ≠ ROOTINO → (m.dinode ip).size = (layout files ip).length
  root : (m.dinode ROOTINO).type = T_DIR
  file : ∀ ip, 2 ≤ ip → ip < 2 + files.length → (m.dinode ip).type = T_FILE

theorem getBit_bits (used i : ℕ) : getBit (bits used) i = decide (i < used) := by
  induction used with
  | zero =>
    unfold bits getBit
    simp
  | succ n ih =>
    unfold bits at ih ⊢
    rw [List.range_succ, List.foldl_append, List.foldl_cons, List.foldl_nil, getBit_setBit, ih]
    simp only [← Bool.decide_or, decide_eq_decide]
    omega

theorem blank_holding : Holding blank fun _ => [] := by
  have h0 : ∀ k : Node, blank.kernel.blockOf k = 0 := fun k => State.blockOf_zero (fun _ => rfl) k.i k.js
  refine ⟨fun _ => rfl, fun _ => Nat.zero_le _, fun _ => ?_⟩
  exact ⟨le_rfl, fun k l _ _ _ hk => absurd (h0 k) hk, fun k _ hk => absurd (h0 k) hk, fun ip bn _ _ => h0 _,
    fun _ _ => rfl, fun ip i hi => absurd hi (Nat.not_lt_zero i)⟩

/-- The bytes of a file. -/
theorem layout_file {files : List Input} {i : ℕ} {f : Input} (hf : files[i]? = some f) :
    layout files (i + 2) = f.bytes := by
  show (files[i]?.map Input.bytes).getD [] = f.bytes
  rw [hf]
  rfl

def sized (ip : Inode) (size : ℕ) : Inode := { ip with size := size }

theorem Stores.cap (h : Stores m files) : ∀ f ∈ files, f.bytes.length ≤ CAPACITY := by
  intro f hf
  obtain ⟨i, hi⟩ := List.mem_iff_getElem?.1 hf
  rw [← layout_file hi]
  exact h.holding.cap _

theorem Stores.finished (h : Stores m files) (hfew : m.freeblock < BPB) : Finished files
    { m.put ROOTINO (sized (m.dinode ROOTINO) (rounded files)) with
      sect := Function.update m.sect sb.bmapstart (bits m.freeblock) } := by
  have hpacked := h.holding.whole hfew.le
  have hstart : sb.bmapstart = 58 := rfl
  have hmeta : nmeta = 571 := rfl
  have hput : ∀ ip, ip ≠ ROOTINO →
      (m.put ROOTINO (sized (m.dinode ROOTINO) (rounded files))).dinode ip = m.dinode ip :=
    fun ip hip => Function.update_of_ne hip ..
  have hself : (m.put ROOTINO (sized (m.dinode ROOTINO) (rounded files))).dinode ROOTINO =
      sized (m.dinode ROOTINO) (rounded files) := Function.update_self ROOTINO _ m.dinode
  refine ⟨hpacked.laid (fun b hb => ?_) fun ip => ?_, hfew, fun b hb => ?_, h.cap, ?_, fun ip hip => ?_, ?_,
    fun ip hlo hhi => ?_⟩
  · exact Function.update_of_ne (by omega) ..
  · show ((m.put ROOTINO (sized (m.dinode ROOTINO) (rounded files))).dinode ip).addrs = (m.dinode ip).addrs
    by_cases hip : ip = ROOTINO
    · rw [hip, hself]
      rfl
    · rw [hput ip hip]
  · show getBit (Function.update m.sect sb.bmapstart (bits m.freeblock) (sb.bblock b)) (b % BPB) =
      decide (b < m.freeblock)
    have hfew' : m.freeblock < 4096 := hfew
    have hb' : b < 2100000 := hb
    have hblock : sb.bblock b = b / 4096 + 58 := rfl
    have hbpb : b % BPB = b % 4096 := rfl
    rw [hblock, hstart, hbpb]
    by_cases hfirst : b / 4096 = 0
    · rw [hfirst, Nat.zero_add, Function.update_self, getBit_bits, Nat.mod_eq_of_lt (by omega)]
    · rw [Function.update_of_ne (by omega)]
      have hzero := hpacked.zero (b / 4096 + 58) (.inl (by omega))
      rw [show m.sect (b / 4096 + 58) = fun _ => 0 from hzero]
      have hlarge : ¬ b < m.freeblock := by omega
      simp [getBit, hlarge]
  · show ((m.put ROOTINO (sized (m.dinode ROOTINO) (rounded files))).dinode ROOTINO).size = _
    rw [hself]
    rfl
  · show ((m.put ROOTINO (sized (m.dinode ROOTINO) (rounded files))).dinode ip).size = _
    rw [hput ip hip, h.holding.size]
  · show ((m.put ROOTINO (sized (m.dinode ROOTINO) (rounded files))).dinode ROOTINO).type = _
    rw [hself]
    exact h.root
  · show ((m.put ROOTINO (sized (m.dinode ROOTINO) (rounded files))).dinode ip).type = _
    have hrootino : ROOTINO = 1 := rfl
    rw [hput ip (by omega)]
    exact h.file ip hlo hhi

/-- **`mkfs`** finishes, unless a name has a slash, a file is too large, or there are too many blocks. -/
theorem mkfs_spec (files : List Input) (hcap : files.length + 2 ≤ NINODES) :
    Triple (fun t => t = blank) (mkfs files) (fun _ t => Finished files t)
      fun e t => Refuses files e t ∨ e = .bitmap ∧ ∀ f ∈ files, f.bytes.length ≤ CAPACITY := by
  refine Triple.bind ((ialloc_spec T_DIR).conseq (fun _ => id) (fun _ _ => id) fun _ _ h => h.elim) fun rootino =>
    Triple.of_fact fun hroot => Triple.of_state fun u hu => ?_
  have hone : rootino = ROOTINO := hroot
  subst hone
  refine Triple.bind (R := fun _ t => t = u) (Triple.assert (fun _ t ht => ht) fun hn => absurd rfl hn) fun _ => ?_
  have hself : u.dinode ROOTINO = ⟨T_DIR, 0, 0, 1, 0, fun _ => 0⟩ := by rw [hu]; rfl
  have hne : ∀ ip, ip ≠ ROOTINO → u.dinode ip = ⟨0, 0, 0, 0, 0, fun _ => 0⟩ := by
    intro ip hip
    rw [hu]
    exact Function.update_of_ne hip ..
  have haddrs : ∀ ip, (u.dinode ip).addrs = fun _ => 0 := by
    intro ip
    by_cases hip : ip = ROOTINO
    · rw [hip, hself]
    · rw [hne ip hip]
  have hholding : Holding u fun _ => [] := by
    refine ⟨fun ip => ?_, blank_holding.cap, fun _ => ?_⟩
    · by_cases hip : ip = ROOTINO
      · rw [hip, hself]
        rfl
      · rw [hne ip hip]
        rfl
    · have hfree : u.freeblock = nmeta := by rw [hu]; rfl
      rw [hfree]
      exact (blank_holding.whole (by decide)).congr (by rw [hu]; rfl) haddrs
  have hlong : ∀ (name : List Byte) (content : ℕ → List Byte), (content ROOTINO).length ≤ 16 →
      ¬ CAPACITY < (content ROOTINO ++ dirent ROOTINO name).length := by
    intro name content hlen
    rw [List.length_append, dirent_length]
    have hcapacity : CAPACITY = 70656 := rfl
    omega
  refine Triple.bind ((iappend_spec ROOTINO _ hholding).conseq (fun _ => id) (fun _ _ => id) ?_) fun _ =>
    Triple.of_state fun v hv => ?_
  · rintro e t ⟨-, hlt⟩
    exact absurd hlt (hlong [46] (fun _ => []) (Nat.zero_le _))
  obtain ⟨hv, hsame, hother⟩ := hv
  refine Triple.bind ((iappend_spec ROOTINO _ hv).conseq (fun _ => id) (fun _ _ => id) ?_) fun _ =>
    Triple.of_state fun w hw => ?_
  · rintro e t ⟨-, hlt⟩
    refine absurd hlt (hlong [46, 46] _ ?_)
    rw [append_self, List.nil_append, dirent_length]
  obtain ⟨hw, hsame', hother'⟩ := hw
  have hstores : Stores w [] := by
    have htype : ∀ ip, (w.dinode ip).type = (u.dinode ip).type := fun ip => (hsame'.type ip).trans (hsame.type ip)
    refine ⟨?_, ?_, ?_, fun ip hlo hhi => absurd hhi (by simp; omega), fun ip hle => ?_⟩
    · have hlayout : layout [] = append (append (fun _ => []) ROOTINO (dirent ROOTINO [46])) ROOTINO
          (dirent ROOTINO [46, 46]) := by
        rw [append_append]
        funext ip
        unfold append
        match ip with
        | 0 => rfl
        | 1 =>
          rw [Function.update_self]
          exact List.append_nil _
        | k + 2 =>
          have hne : k + 2 ≠ ROOTINO := by
            have hrootino : ROOTINO = 1 := rfl
            omega
          rw [Function.update_of_ne hne]
          rfl
      rw [hlayout]
      exact hw
    · rw [hsame'.freeinode, hsame.freeinode, hu]
      rfl
    · rw [htype, hself]
    · have hrootino : ROOTINO = 1 := rfl
      have hle' : 2 ≤ ip := hle
      rw [hother' ip (by omega), hother ip (by omega)]
      exact haddrs ip
  refine Triple.bind ((addFiles_spec files w [] hstores (by simpa using hcap)).conseq (fun _ => id) (fun _ _ => id)
    fun _ _ => .inl) fun _ => Triple.of_state fun x hx => ?_
  rw [List.nil_append] at hx
  refine Triple.bind (R := fun din t => din = x.dinode ROOTINO ∧ t = x) ?_ fun din => Triple.of_fact fun hdin => ?_
  · rintro t rfl
    exact ⟨rfl, rfl⟩
  subst hdin
  have hsize : (x.dinode ROOTINO).size = (rootData files).length := hx.holding.size ROOTINO
  rw [hsize]
  refine Triple.bind (R := fun _ t => t = x.put ROOTINO (sized (x.dinode ROOTINO) (rounded files)))
    (Triple.modify fun t ht => by rw [ht]; rfl) fun _ => ?_
  refine Triple.bind (R := fun a t => a.freeblock = x.freeblock ∧
    t = x.put ROOTINO (sized (x.dinode ROOTINO) (rounded files))) ?_ fun a => Triple.of_fact fun ha => ?_
  · rintro t rfl
    exact ⟨rfl, rfl⟩
  rw [ha]
  refine Triple.bind (R := fun _ t => x.freeblock < BPB ∧
    t = x.put ROOTINO (sized (x.dinode ROOTINO) (rounded files))) (Triple.assert (fun hlt t ht => ⟨hlt, ht⟩)
      fun _ t _ => .inr ⟨rfl, hx.cap⟩) fun _ => Triple.of_fact fun hfew => ?_
  refine Triple.modify fun t ht => ?_
  rw [ht]
  exact hx.finished hfew

/-! ## Holes -/

/-- `readi` of an inode without holes changes nothing. -/
theorem readi_quiet {s : State} {ip off n : ℕ} (devsw : Devsw) (dst : Bytes) (hheld : s.held = ∅)
    (hmap : ∀ bn, bn * BSIZE < (s.inode ip).size → bn < NBLOCKS ∧ s.blockOf (Node.ofBlock ip bn) ≠ 0)
    (htype : (s.inode ip).type ≠ T_DEV) (hn : n < 2 ^ 32) (hsize : (s.inode ip).size < 2 ^ 32) :
    ∃ r, readi sb devsw ip dst off n s = (.ok r, s) := by
  have hread : Triple (fun t => t = s) (readi sb devsw ip dst off n) (fun _ t => t = s) fun _ _ => False := by
    refine Triple.bind (R := fun a t => a = s ∧ t = s) (Triple.get fun t h => ⟨h, h⟩) fun a =>
      Triple.of_fact fun ha => ?_
    subst ha
    rw [if_neg htype]
    refine Triple.ite (fun _ => Triple.pure fun _ h => h) fun hin => ?_
    rw [not_or, not_lt, not_lt] at hin
    refine Triple.bind (readiLoop_spec hheld _ 0 off dst rfl fun i hi => ?_) fun _ => Triple.pure fun t ht => ht.1
    apply hmap
    have hdiv := Nat.div_mul_le_self (off + i) BSIZE
    have hlt : off + i < (a.inode ip).size := by
      split at hi <;> omega
    omega
  rcases hread.ends rfl with ⟨r, t, hrun, rfl⟩ | ⟨_, _, _, hno⟩
  · exact ⟨r, hrun⟩
  · exact hno.elim

/-- No holes, no block twice, an exact bitmap; and the kernel reads it as it is. -/
structure Exact (m : Image) : Prop where
  noHoles : ∀ ip bn, bn * BSIZE < (m.dinode ip).size → m.kernel.blockOf (Node.ofBlock ip bn) ≠ 0
  apart : ∀ k l : Node, k.Valid → l.Valid → m.kernel.blockOf k = m.kernel.blockOf l → m.kernel.blockOf k ≠ 0 → k = l
  data : ∀ k : Node, k.Valid → m.kernel.blockOf k ≠ 0 →
    nmeta ≤ m.kernel.blockOf k ∧ m.kernel.blockOf k < FSSIZE
  bitmap : ∀ b, b < FSSIZE → m.kernel.used sb b = decide (b < m.freeblock)
  reads : ∀ devsw ip dst off n, (m.dinode ip).type ≠ T_DEV → n < 2 ^ 32 →
    ∃ r, readi sb devsw ip dst off n m.kernel = (.ok r, m.kernel)

theorem Finished.layout_le (h : Finished files m) {ip : ℕ} (hip : ip ≠ ROOTINO) :
    (layout files ip).length ≤ CAPACITY := by
  match ip with
  | 0 => exact Nat.zero_le _
  | 1 => exact absurd rfl hip
  | k + 2 =>
    cases hf : files[k]? with
    | none =>
      have hnil : layout files (k + 2) = [] := by
        show (files[k]?.map Input.bytes).getD [] = []
        rw [hf]
        rfl
      rw [hnil]
      exact Nat.zero_le _
    | some f =>
      rw [layout_file hf]
      exact h.cap f (List.mem_of_getElem? hf)

theorem Finished.size_le (h : Finished files m) (hcap : files.length + 2 ≤ NINODES) (ip : ℕ) :
    (m.dinode ip).size ≤ CAPACITY := by
  by_cases hip : ip = ROOTINO
  · rw [hip, h.rootSize]
    unfold rounded
    rw [rootData_length]
    simp only [NINODES, CAPACITY, NDIRECT, NINDIRECT, BSIZE] at hcap ⊢
    omega
  · rw [h.size ip hip]
    exact h.layout_le hip

/-- **No holes, unless the entries of the root directory fill whole blocks.** An image that `mkfs` builds is exact if
and only if the number of its root entries, `.` and `..` among them, is no multiple of the 32 that a block has. -/
theorem image_exact_iff (files : List Input) (m : Image) (hcap : files.length + 2 ≤ NINODES)
    (hrun : mkfs files blank = (.ok (), m)) : Exact m ↔ (files.length + 2) % 32 ≠ 0 := by
  have h : Finished files m := (mkfs_spec files hcap).ok rfl hrun
  have hcapacity : CAPACITY = 70656 := rfl
  have hroot : (m.dinode ROOTINO).size = (16 * (files.length + 2) / 512 + 1) * 512 := by
    rw [h.rootSize]
    unfold rounded
    rw [rootData_length]
  have hblocks : blocks (layout files) ROOTINO = (16 * (files.length + 2) + 512 - 1) / 512 := by
    unfold blocks
    rw [show layout files ROOTINO = rootData files from rfl, rootData_length]
  have hnblocks : NBLOCKS = 2097162 := rfl
  constructor
  · intro hexact hmod
    -- the block that the rounding adds
    have hnone := h.laid.clear ROOTINO (16 * (files.length + 2) / 512) ?_ ?_
    · refine hexact.noHoles ROOTINO (16 * (files.length + 2) / 512) ?_ hnone
      rw [hroot]
      simp only [BSIZE]
      omega
    · simp only [NINODES] at hcap
      omega
    · rw [hblocks]
      omega
  · intro hmod
    have hholes : ∀ ip bn, bn * BSIZE < (m.dinode ip).size → m.kernel.blockOf (Node.ofBlock ip bn) ≠ 0 := by
      intro ip bn hbn
      have hlen : bn * BSIZE < (layout files ip).length := by
        by_cases hip : ip = ROOTINO
        · rw [hip, hroot] at hbn
          rw [hip, show layout files ROOTINO = rootData files from rfl, rootData_length]
          simp only [BSIZE] at hbn ⊢
          omega
        · rwa [h.size ip hip] at hbn
      obtain ⟨-, hback, -⟩ := h.laid.backed ip _ hlen
      rwa [Nat.mul_div_cancel _ (by decide)] at hback
    refine ⟨hholes, h.laid.inj, fun k hk h0 => ?_, h.bitmap, fun devsw ip dst off n htype hn => ?_⟩
    · obtain ⟨hlo, hhi⟩ := h.laid.place k hk h0
      exact ⟨hlo, lt_trans (lt_trans hhi h.few) (by decide)⟩
    · have hsize := h.size_le hcap ip
      have hsmall : (m.kernel.inode ip).size < 2 ^ 32 := lt_of_le_of_lt hsize (by decide)
      refine readi_quiet devsw dst rfl (fun bn hbn => ⟨?_, hholes ip bn hbn⟩) htype hn hsmall
      have hbn' : bn * BSIZE < (m.dinode ip).size := hbn
      simp only [BSIZE] at hbn'
      omega

end

/-- One file, `a`, in two pieces. -/
def oneInput : Input := ⟨[97], [[1, 2], [3]]⟩

theorem image_exact_one : ∃ m, mkfs [oneInput] blank = (.ok (), m) ∧ Exact m := by
  have hok : Prog.returns (fun _ _ => True) (mkfs [oneInput] blank) = true := by decide +kernel
  obtain ⟨⟨⟩, m, hrun, -⟩ := Prog.of_returns hok
  exact ⟨m, hrun, (image_exact_iff [oneInput] m (by decide) hrun).2 (by decide)⟩

/-- Thirty empty files, with two letters for a name. -/
def thirty : List Input := (List.range 30).map fun i => ⟨[97, BitVec.ofNat 8 (65 + i)], []⟩

/-- Thirty files: with `.` and `..` they fill a block, and the root directory gets one more that is not there. -/
theorem thirty_files_hole : ∃ m, mkfs thirty blank = (.ok (), m) ∧
    (m.dinode ROOTINO).size = 2 * BSIZE ∧ m.kernel.blockOf (Node.ofBlock ROOTINO 1) = 0 ∧ ¬ Exact m := by
  have hok : Prog.returns (fun _ m => (m.dinode ROOTINO).size = 2 * BSIZE ∧ (m.dinode ROOTINO).addrs 1 = 0)
      (mkfs thirty blank) = true := by decide +kernel
  obtain ⟨⟨⟩, m, hrun, hsize, hzero⟩ := Prog.of_returns hok
  refine ⟨m, hrun, hsize, hzero, fun hexact => hexact.noHoles ROOTINO 1 ?_ hzero⟩
  rw [hsize]
  decide

end Xv6.Block.Mkfs
