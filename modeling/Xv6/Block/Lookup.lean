import Xv6.Block.Image

/-!
# Files by name

The kernel looks the files up in the root directory that `mkfs` builds, and reads them.

* `dirlookup_first`: `dirlookup` finds the first entry with the name.
* **`format_agrees_iff`**: every file is found and has its bytes, if none is too large and the names are distinct.
-/

namespace Xv6.Block.Mkfs

open Prog

/-! ## `dirlookup` -/

/-- The panics of `dirlookup`. -/
inductive DirFault
  | notDir | read
  deriving DecidableEq

/-- `de.inum`. -/
def inumOf (de : Bytes) : ℕ := (de 0).toNat + 256 * (de 1).toNat

/-- What `strncmp` looks at: at most `DIRSIZ` characters, up to NUL. -/
def strn (s : List Byte) : List Byte := (s.take DIRSIZ).takeWhile (· ≠ 0)

/-- `de.name`. -/
def nameOf (de : Bytes) : List Byte := strn ((List.range DIRSIZ).map fun i => de (2 + i))

def dirlookupLoop (devsw : Devsw) (dp : ℕ) (name : List Byte) : List ℕ → Block.M (Except DirFault (Option (ℕ × ℕ)))
  | [] => pure (.ok none)
  | off :: offs => do
    let (r, de) ← readi sb devsw dp (fun _ => 0) off 16
    if r ≠ 16 then pure (.error .read)
    else if inumOf de ≠ 0 ∧ strn name = nameOf de then pure (.ok (some (inumOf de, off)))
    else dirlookupLoop devsw dp name offs

/-- The number of the inode, and `*poff`. -/
def dirlookup (devsw : Devsw) (dp : ℕ) (name : List Byte) : Block.M (Except DirFault (Option (ℕ × ℕ))) := do
  let s ← Prog.get
  if (s.inode dp).type ≠ T_DIR then pure (.error .notDir)
  else dirlookupLoop devsw dp name ((List.range (((s.inode dp).size + 15) / 16)).map (16 * ·))

section

variable {m : Image} {files : List Input} {f : Input} {devsw : Devsw} {s : State} {ip off n i j k : ℕ}
variable {name : List Byte}

/-! ## The entries of the root directory -/

/-- The entries of the files, the first of which has the inode `n`. -/
def named (n : ℕ) : List Input → List (ℕ × List Byte)
  | [] => []
  | f :: fs => (n, f.name) :: named (n + 1) fs

def rootEntries (files : List Input) : List (ℕ × List Byte) := (1, [46]) :: (1, [46, 46]) :: named 2 files

theorem named_get (n : ℕ) (files : List Input) (i : ℕ) :
    (named n files)[i]? = files[i]?.map fun f => (n + i, f.name) := by
  induction files generalizing n i with
  | nil => rfl
  | cons f fs ih =>
    cases i with
    | zero => rfl
    | succ i =>
      show (named (n + 1) fs)[i]? = fs[i]?.map _
      rw [ih]
      congr 1
      funext g
      rw [Nat.add_assoc, Nat.add_comm 1]

theorem named_length (n : ℕ) (files : List Input) : (named n files).length = files.length := by
  induction files generalizing n with
  | nil => rfl
  | cons f fs ih =>
    unfold named
    rw [List.length_cons, ih, List.length_cons]

/-- The entry of a file. -/
theorem rootEntries_file (hf : files[i]? = some f) : (rootEntries files)[i + 2]? = some (i + 2, f.name) := by
  show (named 2 files)[i]? = _
  rw [named_get, hf, Nat.add_comm]
  rfl

theorem rootEntries_length (files : List Input) : (rootEntries files).length = files.length + 2 := by
  unfold rootEntries
  rw [List.length_cons, List.length_cons, named_length]

/-- The inode of an entry. -/
theorem rootEntries_inum {e : ℕ × List Byte} (he : (rootEntries files)[j]? = some e) :
    0 < e.1 ∧ (j < 2 ∧ e.1 = 1 ∨ e.1 = j) ∧ e.1 < files.length + 2 := by
  match j with
  | 0 =>
    obtain rfl := Option.some.inj he
    exact ⟨Nat.one_pos, .inl ⟨by omega, rfl⟩, by omega⟩
  | 1 =>
    obtain rfl := Option.some.inj he
    exact ⟨Nat.one_pos, .inl ⟨by omega, rfl⟩, by omega⟩
  | j + 2 =>
    have hlt := (List.getElem?_eq_some_iff.1 he).1
    rw [rootEntries_length] at hlt
    have he' : (named 2 files)[j]? = some e := he
    rw [named_get] at he'
    obtain ⟨f, -, rfl⟩ := Option.map_eq_some_iff.1 he'
    exact ⟨by omega, .inr (Nat.add_comm 2 j), by omega⟩

theorem entries_eq (n : ℕ) (files : List Input) :
    entries n files = (named n files).flatMap fun e => dirent e.1 e.2 := by
  induction files generalizing n with
  | nil => rfl
  | cons f fs ih =>
    unfold entries named
    rw [List.flatMap_cons, ih]

theorem rootData_eq (files : List Input) : rootData files = (rootEntries files).flatMap fun e => dirent e.1 e.2 := by
  unfold rootData rootEntries
  rw [List.flatMap_cons, List.flatMap_cons, entries_eq, List.append_assoc]

/-- Pieces of sixteen bytes, one after the other. -/
theorem get_pieces (L : List (ℕ × List Byte)) {e : ℕ × List Byte} : ∀ k, L[k]? = some e → i < 16 →
    (L.flatMap fun e => dirent e.1 e.2)[16 * k + i]? = (dirent e.1 e.2)[i]? := by
  induction L with
  | nil =>
    intro k hk
    cases hk
  | cons g L ih =>
    intro k hk hi
    rw [List.flatMap_cons]
    cases k with
    | zero =>
      obtain rfl := Option.some.inj hk
      rw [Nat.mul_zero, Nat.zero_add, List.getElem?_append_left (by rw [dirent_length]; exact hi)]
    | succ k =>
      rw [List.getElem?_append_right (by rw [dirent_length]; omega), dirent_length]
      have hoff : 16 * (k + 1) + i - 16 = 16 * k + i := by omega
      rw [hoff]
      exact ih k hk hi

/-! ## An entry as the kernel reads it -/

theorem takeWhile_zeros (l : List Byte) (k : ℕ) :
    (l ++ List.replicate k 0).takeWhile (· ≠ 0) = l.takeWhile (· ≠ 0) := by
  induction l with
  | nil =>
    cases k with
    | zero => rfl
    | succ k => rfl
  | cons b l ih =>
    rw [List.cons_append, List.takeWhile_cons, List.takeWhile_cons, ih]

theorem entry_read {de : Bytes} (hn : n < 65536) (hde : ∀ i, i < 16 → (dirent n name)[i]? = some (de i)) :
    inumOf de = n ∧ nameOf de = strn name := by
  constructor
  · have h0 : BitVec.ofNat 8 n = de 0 := Option.some.inj (hde 0 (by omega))
    have h1 : BitVec.ofNat 8 (n / 256) = de 1 := Option.some.inj (hde 1 (by omega))
    unfold inumOf
    rw [← h0, ← h1, BitVec.toNat_ofNat, BitVec.toNat_ofNat]
    omega
  · have hpad : (List.range DIRSIZ).map (fun i => de (2 + i)) =
        name.take DIRSIZ ++ List.replicate (DIRSIZ - name.length) 0 := by
      apply List.ext_getElem?
      intro i
      have hdrop : (name.take DIRSIZ ++ List.replicate (DIRSIZ - name.length) (0 : Byte))[i]? =
          (dirent n name)[2 + i]? := by
        rw [Nat.add_comm]
        rfl
      rw [hdrop]
      by_cases hi : i < DIRSIZ
      · rw [hde (2 + i) (by simp only [DIRSIZ] at hi; omega), List.getElem?_map, List.getElem?_range hi]
        rfl
      · rw [List.getElem?_eq_none (by simpa using hi), List.getElem?_eq_none]
        rw [dirent_length]
        simp only [DIRSIZ] at hi
        omega
    unfold nameOf strn
    rw [hpad]
    have htake : (name.take DIRSIZ ++ List.replicate (DIRSIZ - name.length) (0 : Byte)).take DIRSIZ =
        name.take DIRSIZ ++ List.replicate (DIRSIZ - name.length) 0 := by
      apply List.take_of_length_le
      simp only [List.length_append, List.length_take, List.length_replicate]
      omega
    rw [htake, takeWhile_zeros]

/-! ## Reading the image -/

/-- `readi` within the content of an inode. -/
theorem readi_within {dst : Bytes} {content : ℕ → List Byte} {free : ℕ} (devsw : Devsw) (hheld : s.held = ∅)
    (h : Laid s free content) (htype : (s.inode ip).type ≠ T_DEV) (hin : off + n ≤ (content ip).length)
    (hsize : (content ip).length ≤ (s.inode ip).size) (hsmall : (s.inode ip).size < 2 ^ 32) :
    ∃ dst', readi sb devsw ip dst off n s = (.ok (n, dst'), s) ∧
      ∀ i, i < n → (content ip)[off + i]? = some (dst' i) := by
  have hwrap : (off + n) % 2 ^ 32 = off + n := Nat.mod_eq_of_lt (by omega)
  have hread : Triple (fun t => t = s) (readi sb devsw ip dst off n)
      (fun r t => t = s ∧ r.1 = n ∧ ∀ i, i < n → (content ip)[off + i]? = some (r.2 i)) fun _ _ => False := by
    refine Triple.bind (R := fun a t => a = s ∧ t = s) (Triple.get fun t h => ⟨h, h⟩) fun a =>
      Triple.of_fact fun ha => ?_
    subst ha
    rw [if_neg htype, if_neg (by omega), hwrap, if_neg (by omega)]
    refine Triple.bind (readiLoop_spec hheld _ 0 off dst rfl fun i hi => ?_) fun dst' => Triple.pure fun t ht => ?_
    · obtain ⟨hbn, h0, -⟩ := h.backed ip (off + i) (by omega)
      exact ⟨hbn, h0⟩
    · refine ⟨ht.1, rfl, fun i hi => ?_⟩
      obtain ⟨-, -, hbyte⟩ := h.backed ip (off + i) (by omega)
      show _ = some (dst' i)
      rw [hbyte, ht.2 i, if_pos ⟨Nat.zero_le i, hi⟩, Nat.sub_zero]
  rcases hread.ends rfl with ⟨⟨r, dst'⟩, t, hrun, rfl, hr, hbytes⟩ | ⟨_, _, _, hno⟩
  · rw [show r = n from hr] at hrun
    exact ⟨dst', hrun, hbytes⟩
  · exact hno.elim

/-- **`dirlookup` goes on** to the first entry with the name. -/
theorem dirlookupLoop_first (devsw : Devsw) (h : Finished files m) (hcap : files.length + 2 ≤ NINODES) {total : ℕ}
    (htotal : files.length + 2 ≤ total) {e : ℕ × List Byte} (he : (rootEntries files)[j]? = some e)
    (hname : strn name = strn e.2)
    (hfirst : ∀ i e', i < j → (rootEntries files)[i]? = some e' → strn name ≠ strn e'.2) :
    ∀ d k, k + d = j → dirlookupLoop devsw ROOTINO name ((List.range' k (total - k)).map (16 * ·)) m.kernel =
      (.ok (.ok (some (e.1, 16 * j))), m.kernel) := by
  have hj := (List.getElem?_eq_some_iff.1 he).1
  rw [rootEntries_length] at hj
  have hread : ∀ k e', (rootEntries files)[k]? = some e' → ∃ de,
      readi sb devsw ROOTINO (fun _ => 0) (16 * k) 16 m.kernel = (.ok (16, de), m.kernel) ∧
        inumOf de = e'.1 ∧ nameOf de = strn e'.2 := by
    intro k e' hk
    have hlt := (List.getElem?_eq_some_iff.1 hk).1
    rw [rootEntries_length] at hlt
    have hlen := rootData_length files
    have hsize : (m.kernel.inode ROOTINO).size = (16 * (files.length + 2) / 512 + 1) * 512 := by
      show (m.dinode ROOTINO).size = _
      rw [h.rootSize]
      unfold rounded
      rw [hlen]
    have hroot : layout files ROOTINO = rootData files := rfl
    have hinodes : NINODES = 200 := rfl
    have htype : (m.kernel.inode ROOTINO).type ≠ T_DEV := by
      show (m.dinode ROOTINO).type ≠ T_DEV
      rw [h.root]
      decide
    obtain ⟨de, hrun, hde⟩ : ∃ de, readi sb devsw ROOTINO (fun _ => 0) (16 * k) 16 m.kernel =
        (.ok (16, de), m.kernel) ∧ ∀ i, i < 16 → (layout files ROOTINO)[16 * k + i]? = some (de i) :=
      readi_within devsw rfl h.laid htype (by rw [hroot, hlen]; omega) (by rw [hroot, hlen, hsize]; omega)
        (by rw [hsize]; omega)
    refine ⟨de, hrun, entry_read ?_ fun i hi => ?_⟩
    · have hinum := (rootEntries_inum hk).2.2
      omega
    · rw [← hde i hi, hroot, rootData_eq, get_pieces _ k hk hi]
  intro d
  induction d with
  | zero =>
    intro k hk
    obtain rfl : k = j := by omega
    obtain ⟨de, hrun, hinum, hnm⟩ := hread k e he
    have hcount : total - k = (total - k - 1) + 1 := by omega
    rw [hcount, List.range'_succ, List.map_cons]
    unfold dirlookupLoop
    rw [bind_of_ok hrun]
    dsimp only
    have hpos := (rootEntries_inum he).1
    have hhit : inumOf de ≠ 0 ∧ strn name = nameOf de := by
      rw [hinum, hnm]
      exact ⟨by omega, hname⟩
    rw [if_neg (by simp), if_pos hhit, hinum]
    rfl
  | succ d ih =>
    intro k hk
    obtain ⟨e', he'⟩ : ∃ e', (rootEntries files)[k]? = some e' :=
      ⟨_, List.getElem?_eq_getElem (by rw [rootEntries_length]; omega)⟩
    obtain ⟨de, hrun, hinum, hnm⟩ := hread k e' he'
    have hcount : total - k = (total - (k + 1)) + 1 := by omega
    rw [hcount, List.range'_succ, List.map_cons]
    unfold dirlookupLoop
    rw [bind_of_ok hrun]
    dsimp only
    rw [if_neg (by simp), if_neg]
    · exact ih (k + 1) (by omega)
    · rintro ⟨-, heq⟩
      exact hfirst k e' (by omega) he' (by rw [heq, hnm])

/-- **`dirlookup` finds the first entry** with the name. -/
theorem dirlookup_first (devsw : Devsw) (h : Finished files m) (hcap : files.length + 2 ≤ NINODES) {e : ℕ × List Byte}
    (he : (rootEntries files)[j]? = some e) (hname : strn name = strn e.2)
    (hfirst : ∀ i e', i < j → (rootEntries files)[i]? = some e' → strn name ≠ strn e'.2) :
    dirlookup devsw ROOTINO name m.kernel = (.ok (.ok (some (e.1, 16 * j))), m.kernel) := by
  have hroot : (m.kernel.inode ROOTINO).type = T_DIR := h.root
  have hsize : (m.kernel.inode ROOTINO).size = rounded files := h.rootSize
  have htotal : files.length + 2 ≤ (rounded files + 15) / 16 := by
    unfold rounded
    rw [rootData_length]
    simp only [BSIZE]
    omega
  have hloop := dirlookupLoop_first devsw h hcap htotal he hname hfirst j 0 (Nat.zero_add j)
  unfold dirlookup
  have hget : (Prog.get : Block.M State) m.kernel = (.ok m.kernel, m.kernel) := rfl
  rw [bind_of_ok hget, if_neg (by rw [hroot]; simp), hsize, List.range_eq_range']
  exact hloop

/-! ## What mkfs and the kernel agree on -/

/-- The image is built; the kernel finds the files under their names, and reads their bytes. -/
def Agrees (files : List Input) : Prop := ∃ m, mkfs files blank = (.ok (), m) ∧ ∀ devsw i f, files[i]? = some f →
  (∃ off, dirlookup devsw ROOTINO f.name m.kernel = (.ok (.ok (some (i + 2, off))), m.kernel)) ∧
  ∀ dst off n, off ≤ f.bytes.length → n < 2 ^ 31 →
    ∃ dst', readi sb devsw (i + 2) dst off n m.kernel = (.ok ((slice f.bytes off n).length, dst'), m.kernel) ∧
      (List.range (slice f.bytes off n).length).map dst' = slice f.bytes off n

/-- The names of the root directory. -/
def names (files : List Input) : List (List Byte) := [46] :: [46, 46] :: files.map fun f => strn f.name

theorem names_eq (files : List Input) : names files = (rootEntries files).map fun e => strn e.2 := by
  have hnamed : ∀ n, files.map (fun f => strn f.name) = (named n files).map fun e => strn e.2 := by
    induction files with
    | nil => exact fun _ => rfl
    | cons f fs ih =>
      intro n
      unfold named
      rw [List.map_cons, List.map_cons, ih (n + 1)]
  unfold names rootEntries
  rw [hnamed 2]
  rfl

/-- The bytes of a file on the image. -/
theorem Finished.holds (h : Finished files m) (hf : files[i]? = some f) : Holds m.kernel (i + 2) f.bytes := by
  have hlayout := layout_file hf
  have hcap := h.cap f (List.mem_of_getElem? hf)
  refine ⟨?_, hcap.trans (by decide), fun k hk => ?_, fun k hk => ?_⟩
  · rw [← hlayout]
    exact h.size (i + 2) (by simp [ROOTINO])
  · rw [← hlayout] at hk
    exact (h.laid.backed (i + 2) k hk).2.1
  · rw [← hlayout] at hk ⊢
    exact (h.laid.backed (i + 2) k hk).2.2

/-- **mkfs and the kernel agree** on lists of files, for which the assertions of mkfs hold, if and only if no file is
larger than the direct blocks and those of one index block, and no name is there twice. -/
theorem format_agrees_iff (files : List Input) (hcap : files.length + 2 ≤ NINODES)
    (hassert : ∀ e m, mkfs files blank = (.error e, m) → e = .outside) :
    Agrees files ↔ (∀ f ∈ files, f.bytes.length ≤ CAPACITY) ∧ (names files).Nodup := by
  constructor
  · rintro ⟨m, hrun, hfiles⟩
    have h : Finished files m := (mkfs_spec files hcap).ok rfl hrun
    refine ⟨h.cap, ?_⟩
    rw [names_eq, List.nodup_iff_getElem?_ne_getElem?]
    intro j k hjk hk heq
    rw [List.length_map, rootEntries_length] at hk
    have hget : ∀ i, i < files.length + 2 → ∃ e, (rootEntries files)[i]? = some e := fun i hi =>
      ⟨_, List.getElem?_eq_getElem (by rw [rootEntries_length]; exact hi)⟩
    obtain ⟨e, he⟩ := hget j (by omega)
    rw [List.getElem?_map, List.getElem?_map, he] at heq
    match k with
    | 0 => omega
    | 1 =>
      obtain rfl : j = 0 := by omega
      cases he
      revert heq
      exact fun heq => absurd (Option.some.inj heq) (by decide)
    | k + 2 =>
      -- the first entry with this name is another one
      obtain ⟨f, hf⟩ : ∃ f, files[k]? = some f := ⟨_, List.getElem?_eq_getElem (by omega)⟩
      rw [rootEntries_file hf] at heq
      have hmatch : ∃ i, ∃ e' : ℕ × List Byte, (rootEntries files)[i]? = some e' ∧ strn f.name = strn e'.2 :=
        ⟨j, e, he, (Option.some.inj heq).symm⟩
      classical
      obtain ⟨e', he', hname⟩ := Nat.find_spec hmatch
      have hle : Nat.find hmatch ≤ j := Nat.find_min' hmatch ⟨e, he, (Option.some.inj heq).symm⟩
      have hfound := dirlookup_first noDevsw h hcap he' hname fun i e'' hi he'' heq' =>
        Nat.find_min hmatch hi ⟨e'', he'', heq'⟩
      obtain ⟨⟨off, hlookup⟩, -⟩ := hfiles noDevsw k f hf
      rw [hfound] at hlookup
      simp only [Prod.mk.injEq, Except.ok.injEq, Option.some.injEq, and_true] at hlookup
      have hinum := hlookup.1
      rcases (rootEntries_inum he').2.1 with ⟨hlt, hone⟩ | hsame
      · omega
      · omega
  · rintro ⟨hsizes, hnodup⟩
    rcases (mkfs_spec files hcap).ends rfl with ⟨_, m, hrun, h⟩ | ⟨e, m, hrun, hrefuses⟩
    · refine ⟨m, hrun, fun devsw i f hf => ⟨⟨16 * (i + 2), ?_⟩, fun dst off n hoff hn => ?_⟩⟩
      · refine dirlookup_first devsw h hcap (rootEntries_file hf) rfl fun k e' hk he' heq => ?_
        rw [names_eq, List.nodup_iff_getElem?_ne_getElem?] at hnodup
        have hlt := (List.getElem?_eq_some_iff.1 (rootEntries_file hf)).1
        refine hnodup k (i + 2) hk (by rwa [List.length_map]) ?_
        rw [List.getElem?_map, List.getElem?_map, he', rootEntries_file hf]
        exact congrArg some heq.symm
      · have htype : (m.kernel.inode (i + 2)).type ≠ T_DEV := by
          have hlt := (List.getElem?_eq_some_iff.1 hf).1
          show (m.dinode (i + 2)).type ≠ T_DEV
          rw [h.file (i + 2) (by omega) (by omega)]
          decide
        rcases (readi_spec devsw rfl (h.holds hf) htype hoff hn).ends rfl with
          ⟨⟨r, dst'⟩, t, hread, rfl, hr, hbytes⟩ | ⟨_, _, _, hno⟩
        · rw [show r = _ from hr] at hread
          exact ⟨dst', hread, hbytes⟩
        · exact hno.elim
    · have he := hassert e m hrun
      subst he
      rcases hrefuses with (⟨he, -⟩ | ⟨-, f, hf, hlt⟩) | ⟨he, -⟩
      · cases he
      · exact absurd (hsizes f hf) (not_le.2 hlt)
      · cases he

end

theorem format_agrees_one : Agrees [oneInput] := by
  have hok : Prog.returns (fun _ _ => True) (mkfs [oneInput] blank) = true := by decide +kernel
  refine (format_agrees_iff [oneInput] (by decide) fun e m hrun => ?_).2 ⟨by decide, by decide⟩
  rw [hrun] at hok
  cases hok

/-- A file of 139 blocks. -/
def large : Input := ⟨[97], List.replicate 139 (List.replicate 512 0)⟩

/-- The first byte of block 138 is behind the index block, but the assertion of `iappend` allows it. -/
theorem large_file_outside : (∃ m, mkfs [large] blank = (.error .outside, m)) ∧ ¬ Agrees [large] ∧ 139 ≤ MAXFILE := by
  have hcap : ¬ large.bytes.length ≤ CAPACITY := by
    have hlen : large.bytes.length = 139 * 512 := by
      show (List.replicate 139 (List.replicate 512 (0 : Byte))).flatten.length = _
      rw [List.length_flatten, List.map_replicate, List.length_replicate, List.sum_replicate]
      rfl
    rw [hlen]
    decide
  have hfails : ∀ m, mkfs [large] blank ≠ (.ok (), m) := by
    intro m hrun
    have h : Finished [large] m := (mkfs_spec [large] (by decide)).ok rfl hrun
    exact hcap (h.cap large (by simp))
  refine ⟨?_, fun ⟨m, hrun, _⟩ => hfails m hrun, by decide⟩
  rcases (mkfs_spec [large] (by decide)).ends rfl with ⟨_, m, hrun, -⟩ | ⟨e, m, hrun, hrefuses⟩
  · exact absurd hrun (hfails m)
  · rcases hrefuses with (⟨-, f, hf, hslash⟩ | ⟨rfl, -⟩) | ⟨-, hall⟩
    · obtain rfl := List.mem_singleton.1 hf
      exact absurd hslash (by decide)
    · exact ⟨m, hrun⟩
    · exact absurd (hall large (by simp)) hcap

end Xv6.Block.Mkfs
