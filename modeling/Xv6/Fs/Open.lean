import Xv6.Fs.Links
import Xv6.Fs.Run

/-!
# Opening symlinks

* `openWrites_look`: `sys_open` of a symlink goes along the chain, and leaves what it should.
* **`open_symlink_exact`**: with well-formed links it opens what the chain leads to, after four hops at most.
* `boot_ready`, `boot_follows`: small disks with a symlink.
-/

namespace Xv6.Fs

open Prog

section

variable {p : Slot} {s : State} {u : User} {addr omode : BitVec 32} {name : Bytes} {n : ℕ}

/-! ## `sys_open` of a symlink -/

/-- In a transaction. -/
def State.begun (s : State) : State := { s with inOp := true }

theorem follow_begun (s : State) (path : BitVec 32) (k : ℕ) :
    ∀ u n, s.begun.follow p path k u n = s.follow p path k u n := by
  induction k with
  | zero => exact fun _ _ => rfl
  | succ k ih =>
    intro u n
    unfold State.follow
    simp only [ih]
    rfl

theorem Sound.begun (h : Sound s p) : Sound s.begun p := ⟨h.whole, h.entries, h.root, h.cwd⟩

theorem Quiet.begun (h : Quiet s) : Quiet s.begun := ⟨h.lock, h.ref, h.uniq⟩

/-- The argument is the string `name` at `addr`. -/
structure Passes (u : User) (addr : BitVec 32) (name : Bytes) : Prop where
  arg : argstr u (some addr) = some addr
  string : strFrom u.byte addr.toNat (u.mapped - addr.toNat) = some name

/-- A string is a path that is not torn. -/
theorem str_whole {bytes : Bytes} (h : strFrom u.byte addr.toNat (u.mapped - addr.toNat) = some bytes) :
    str u addr = bytes := by
  unfold str
  rw [h]

/-- Between calls: nothing is locked, names can be looked up, and files that are closed have no type. -/
structure Ready (s : State) (p : Slot) (k : ℕ) : Prop where
  quiet : Quiet s
  sound : Sound s p
  room : Room s k
  closed : ∀ f, (s.tables.file f).ref = 0 → (s.tables.file f).type = .none
  inOp : s.inOp = false

/-- The argument leads to a symlink, which is to be followed. -/
structure Follows (s : State) (p : Slot) (u : User) (addr omode : BitVec 32) (name : Bytes) (n : ℕ) : Prop where
  passes : Passes u addr name
  found : (s.resolve p false name).map Prod.fst = some n
  link : (s.view n).type = .symlink
  plain : has omode O_CREATE = false
  nofollow : has omode O_NOFOLLOW = true

theorem Ready.closed_begun {k : ℕ} (h : Ready s p k) (f : Fref) (hf : (s.begun.tables.file f).ref = 0) :
    (s.begun.tables.file f).type = .none := h.closed f hf

theorem Ended.of_begun {T : Tables} {x : Iref → ℤ} {t : State} (h : Ended s.begun T x t) : Ended s T x t :=
  ⟨h.tables, h.inOp, h.monitor, h.lock, h.ref, h.view⟩

theorem Opens.of_begun {ip : Iref} {r : ℤ} {t : State} (h : Opens s.begun p omode ip n r t) :
    Opens s p omode ip n r t := by
  unfold Opens at h ⊢
  have htables : s.begun.tables = s.tables := rfl
  rw [htables] at h
  revert h
  cases s.tables.freeFile with
  | none => exact fun h => ⟨h.1, h.2.of_begun⟩
  | some f =>
    cases s.tables.freeFd p with
    | none => exact fun h => ⟨h.1, h.2.of_begun⟩
    | some fd => exact fun h => ⟨h.1, h.2.1, h.2.2.of_begun⟩

/-- What `sys_open` leaves at the end of the chain. -/
def OpenEnds (s : State) (p : Slot) (omode : BitVec 32) (found : Option (User × ℕ × ℕ)) (r : ℤ) (t : State) : Prop :=
  match found with
  | some (_, n, _ + 1) => ∃ ip, Opens s p omode ip n r t
  | _ => r = -1 ∧ Ended s s.tables (fun _ => 0) t

theorem openWrites_look (hready : Ready s p 2) (hf : Follows s p u addr omode name n) :
    Triple (fun t => t = s) (openWrites p u (some addr) omode)
      (fun r t => ∃ found, s.follow p addr 5 u n = some (r.1, found) ∧ OpenEnds s p omode found r.2 t)
      (fun _ _ => s.follow p addr 5 u n = none) := by
  have hs := hready.sound.begun
  have hroom : Room s.begun 2 := hready.room
  unfold openWrites
  rw [hf.passes.arg]
  dsimp only
  refine Triple.bind (R := fun _ => Look p true s.begun (fun _ => 0) (fun i => (s.inode i).inum) ∅)
    (Triple.modify fun t ht => ?_) fun _ => ?_
  · rw [ht]
    exact hready.quiet.begun.look rfl
  rw [str_whole hf.passes.string, if_neg (by rw [hf.plain]; simp)]
  refine Triple.bind (of_never (namei_whole hs rfl (fun _ => le_rfl) hroom.roomy name)) fun ip => ?_
  have hfound : (s.begun.resolve p false name).map Prod.fst = some n := hf.found
  rw [hfound]
  match ip with
  | none => exact fun t h => h.elim
  | some ip =>
    refine Triple.exists_pre fun m => Triple.of_fact fun hm => ?_
    have hmem := Finset.mem_insert_self ip (∅ : Finset Iref)
    have hview : s.begun.view (m ip) = s.view n := by
      rw [hm]
      rfl
    refine Triple.bind (of_never (ilock_look (Finset.notMem_empty ip) (by rw [plus_self]; omega))) fun _ => ?_
    refine Triple.bind (of_never (examine_look hmem)) fun _ => ?_
    refine Triple.bind (of_never (seen_look hmem)) fun y => Triple.of_fact fun hy => Triple.of_fact fun _ => ?_
    rw [hy, hview, hf.link]
    rw [if_neg (by simp), if_pos ⟨rfl, hf.nofollow⟩]
    have hchain : Triple (Look p true s.begun (plus (fun _ => 0) ip) m (insert ip ∅))
        (followWrites p addr 5 u ip) _ _ :=
      followWrites_look hs hroom 5 u ip m
    rw [follow_begun, hm] at hchain
    refine Triple.bind hchain fun r => ?_
    refine Triple.exists_pre fun found => Triple.of_fact fun hfollow => ?_
    obtain ⟨w, o⟩ := r
    match found, o with
    | none, none =>
      refine Triple.exists_pre fun m' => ?_
      exact Triple.bind (of_never end_op_same) fun _ => Triple.pure fun t h => ⟨none, hfollow, rfl, h.of_begun⟩
    | some (u', n', k), some (u'', ip', k') =>
      refine Triple.of_fact fun _ => Triple.of_fact fun hk => Triple.exists_pre fun m' => Triple.of_fact fun hm' => ?_
      subst hk
      cases k with
      | zero =>
        dsimp only
        rw [if_pos rfl]
        have hfail : Triple (Look p true s.begun (plus (fun _ => 0) ip') m' (insert ip' ∅))
            (do iunlockput p ip'; end_op; pure (w, -1) : M (List Bytes × ℤ))
            (fun r t => r.1 = w ∧ r.2 = -1 ∧ Ended s.begun s.tables (fun _ => 0) t) Never := by
          refine Triple.bind (put_look (Finset.notMem_empty ip') le_rfl) fun _ => ?_
          exact Triple.bind end_op_same fun _ => Triple.pure fun t h => ⟨rfl, rfl, h⟩
        refine (of_never hfail).post ?_
        rintro ⟨w', r'⟩ t ⟨rfl, rfl, h⟩
        exact ⟨_, hfollow, rfl, h.of_begun⟩
      | succ k =>
        dsimp only
        rw [if_neg (by omega)]
        have hopen : Triple (Look p true s.begun (plus (fun _ => 0) ip') m' (insert ip' ∅)) (openFile p omode ip')
            (Opens s.begun p omode ip' (m' ip')) Never := openFile_look hready.closed_begun omode ip'
        rw [hm'] at hopen
        exact Triple.bind (of_never hopen) fun r => Triple.pure fun t h => ⟨_, hfollow, ip', h.of_begun⟩
    | none, some _ => exact fun s h => h.elim
    | some _, none => exact fun s h => h.elim

/-! ## Well-formed links -/

/-- The record that `sys_symlink` writes for the name `text`, which fits into memory from `addr` on. -/
structure Record (u : User) (addr : BitVec 32) (data text : Bytes) : Prop where
  shape : ∃ rest, data = wordBytes (BitVec.ofNat 32 text.length) ++ (text ++ [0] ++ rest)
  noNul : (0 : UInt8) ∉ text
  short : text.length ≤ MAX_PATH.toNat
  fits : addr.toNat + text.length + 1 ≤ u.mapped

/-- The name in a symlink. -/
def linkText (data : Bytes) : Bytes := (data.drop 4).take (linkLen (data.take 4)).toNat

/-- The first inode that is no symlink, after `k` hops at most. -/
def State.target (s : State) (p : Slot) : ℕ → ℕ → Option ℕ
  | 0, n => if (s.view n).type ≠ .symlink then some n else none
  | k + 1, n =>
    if (s.view n).type ≠ .symlink then some n
    else ((s.resolve p false (linkText (s.view n).data)).map Prod.fst).bind (target s p k)

theorem linkLen_wordBytes (a : BitVec 32) : linkLen (wordBytes a) = a := by
  have h := a.isLt
  unfold linkLen wordBytes
  simp only [List.getD_cons_zero, List.getD_cons_succ, UInt8.toNat_ofNat']
  apply BitVec.eq_of_toNat_eq
  rw [BitVec.toNat_ofNat]
  omega

theorem wordBytes_length (a : BitVec 32) : (wordBytes a).length = 4 := rfl

section

variable {data text : Bytes}

theorem Record.take (h : Record u addr data text) : linkLen (data.take 4) = BitVec.ofNat 32 text.length := by
  obtain ⟨rest, rfl⟩ := h.shape
  rw [List.take_left' (wordBytes_length _), linkLen_wordBytes]

theorem Record.len (h : Record u addr data text) : (linkLen (data.take 4)).toNat = text.length := by
  have hshort := h.short
  have hmax : MAX_PATH.toNat = 4096 := rfl
  rw [h.take, BitVec.toNat_ofNat, Nat.mod_eq_of_lt (by omega)]

theorem Record.small (h : Record u addr data text) : BitVec.slt MAX_PATH (linkLen (data.take 4)) = false := by
  have hlen := h.len
  have hshort := h.short
  have hmax : MAX_PATH.toNat = 4096 := rfl
  have hmsb : ∀ a : BitVec 32, a.toNat ≤ 4096 → BitVec.slt MAX_PATH a = false := by
    intro a ha
    rw [BitVec.slt_eq_decide, decide_eq_false_iff_not, not_lt]
    have hi : a.toInt = a.toNat := BitVec.toInt_eq_toNat_of_lt (by omega)
    rw [hi]
    show (a.toNat : ℤ) ≤ 4096
    omega
  exact hmsb _ (by omega)

theorem Record.linkText_eq (h : Record u addr data text) : linkText data = text := by
  unfold linkText
  rw [h.len]
  obtain ⟨rest, rfl⟩ := h.shape
  rw [List.drop_left' (wordBytes_length _), List.append_assoc, List.take_left' rfl]

theorem Record.linkBytes_eq (h : Record u addr data text) : linkBytes data = text ++ [0] := by
  have hlen := h.len
  have hshort := h.short
  have hmax : MAX_PATH.toNat = 4096 := rfl
  have hsucc : (linkLen (data.take 4) + 1).toNat = text.length + 1 := by
    rw [BitVec.toNat_add, hlen]
    show (text.length + 1) % 2 ^ 32 = _
    rw [Nat.mod_eq_of_lt (by omega)]
  obtain ⟨rest, hdata⟩ := h.shape
  unfold linkBytes bytesAt
  rw [hsucc, if_neg, Option.getD_some, hdata, List.drop_left' (wordBytes_length _),
    List.take_left' (by simp)]
  rw [hdata, List.length_append, wordBytes_length]
  omega

end

/-- The string at `addr`, byte by byte. -/
theorem strFrom_some {byte : ℕ → UInt8} {text : Bytes} (hnul : (0 : UInt8) ∉ text) : ∀ {a k : ℕ}, text.length < k →
    (∀ i, i < text.length → byte (a + i) = text.getD i 0) → byte (a + text.length) = 0 →
    strFrom byte a k = some text := by
  induction text with
  | nil =>
    intro a k hk _ hend
    cases k with
    | zero => omega
    | succ k =>
      have hend' : byte a = 0 := hend
      unfold strFrom
      rw [if_pos hend']
  | cons b text ih =>
    intro a k hk hbytes hend
    cases k with
    | zero => omega
    | succ k =>
      have hb : byte a = b := hbytes 0 (by simp)
      have hb0 : b ≠ 0 := fun h0 => hnul (by rw [h0]; simp)
      have hrest : strFrom byte (a + 1) k = some text := by
        refine ih (fun h0 => hnul (by simp [h0])) (by simpa using hk) (fun i hi => ?_) ?_
        · have hi' := hbytes (i + 1) (by simpa using hi)
          rw [show a + (i + 1) = a + 1 + i by omega] at hi'
          simpa using hi'
        · rw [List.length_cons] at hend
          rw [show a + 1 + text.length = a + (text.length + 1) by omega]
          exact hend
      unfold strFrom
      rw [hb, if_neg hb0, hrest]
      rfl

/-- What was written is the path that is found there. -/
theorem write_string {u : User} {text : Bytes} (hnul : (0 : UInt8) ∉ text)
    (hfits : addr.toNat + text.length + 1 ≤ u.mapped) : str (u.write addr (text ++ [0])) addr = text := by
  have hmapped : (u.write addr (text ++ [0])).mapped = u.mapped := rfl
  have hbyte : ∀ i, i < text.length + 1 →
      (u.write addr (text ++ [0])).byte (addr.toNat + i) = (text ++ [0]).getD i 0 := by
    intro i hi
    unfold User.write
    dsimp only
    rw [if_pos ⟨Nat.le_add_right _ _, by rw [List.length_append]; simp; omega⟩, Nat.add_sub_cancel_left]
  refine str_whole (strFrom_some hnul (by rw [hmapped]; omega) (fun i hi => ?_) ?_)
  · rw [hbyte i (by omega), List.getD_append _ _ _ _ hi]
  · rw [hbyte _ (by omega), List.getD_append_right _ _ _ _ le_rfl, Nat.sub_self]
    rfl

/-- All symlinks are well-formed. -/
def Records (s : State) (u : User) (addr : BitVec 32) : Prop :=
  ∀ n, (s.view n).type = .symlink → ∃ text, Record u addr (s.view n).data text

theorem Records.write (h : Records s u addr) (bs : Bytes) : Records s (u.write addr bs) addr := by
  intro n hn
  obtain ⟨text, ht⟩ := h n hn
  exact ⟨text, ht.shape, ht.noNul, ht.short, ht.fits⟩

/-- One hop. -/
theorem follow_hop (hrec : Records s u addr) (hlink : (s.view n).type = .symlink) (k : ℕ) :
    s.follow p addr (k + 1) u n =
      match (s.resolve p false (linkText (s.view n).data)).map Prod.fst with
      | none => some ([linkBytes (s.view n).data], none)
      | some m => (s.follow p addr k (u.write addr (linkBytes (s.view n).data)) m).map fun r =>
          (linkBytes (s.view n).data :: r.1, r.2) := by
  obtain ⟨text, ht⟩ := hrec n hlink
  have hstring := write_string ht.noNul ht.fits
  have hbytes := ht.linkBytes_eq
  have hmapped : (u.write addr (linkBytes (s.view n).data)).mapped = u.mapped := rfl
  have hfits := ht.fits
  have hlen : (linkBytes (s.view n).data).length = text.length + 1 := by
    rw [hbytes, List.length_append]
    rfl
  conv_lhs => unfold State.follow
  rw [if_neg (not_not.2 hlink), if_neg (by rw [ht.small]; simp)]
  dsimp only
  rw [if_neg (by rw [hmapped, hlen]; omega)]
  obtain rfl := ht.linkText_eq
  rw [← hbytes] at hstring
  rw [hstring]
  refine (if_neg (s.not_strays p _)).trans ?_
  cases (s.resolve p false (linkText (s.view n).data)).map Prod.fst with
  | none => rfl
  | some m => rfl

/-- **The loop finds what the chain leads to**, with a round left if that is no symlink. -/
theorem follow_target (k : ℕ) : ∀ u n, Records s u addr → ∃ w found, s.follow p addr (k + 1) u n = some (w, found) ∧
    match s.target p k n with
    | some m => ∃ u' j, found = some (u', m, j + 1)
    | none => found = none ∨ ∃ u' m, found = some (u', m, 0) := by
  induction k with
  | zero =>
    intro u n hrec
    unfold State.target
    by_cases hlink : (s.view n).type = .symlink
    · rw [if_neg (not_not.2 hlink), follow_hop hrec hlink]
      cases (s.resolve p false (linkText (s.view n).data)).map Prod.fst with
      | none => exact ⟨_, _, rfl, .inl rfl⟩
      | some m => exact ⟨_, _, rfl, .inr ⟨_, _, rfl⟩⟩
    · rw [if_pos hlink]
      unfold State.follow
      rw [if_pos hlink]
      exact ⟨_, _, rfl, _, _, rfl⟩
  | succ k ih =>
    intro u n hrec
    unfold State.target
    by_cases hlink : (s.view n).type = .symlink
    · rw [if_neg (not_not.2 hlink), follow_hop hrec hlink]
      cases (s.resolve p false (linkText (s.view n).data)).map Prod.fst with
      | none => exact ⟨_, _, rfl, .inl rfl⟩
      | some m =>
        obtain ⟨w, found, hfollow, hfound⟩ := ih (u.write addr (linkBytes (s.view n).data)) m (hrec.write _)
        refine ⟨linkBytes (s.view n).data :: w, found, ?_, hfound⟩
        dsimp only
        rw [hfollow]
        rfl
    · rw [if_pos hlink]
      unfold State.follow
      rw [if_pos hlink]
      exact ⟨_, _, rfl, _, _, rfl⟩

/-- What `sys_open` of a symlink to `target` returns and leaves: a descriptor for it, if there are a file and a
descriptor for it, and nothing otherwise. -/
def OpensTarget (s : State) (p : Slot) (omode : BitVec 32) (target : Option ℕ) (r : ℤ) (t : State) : Prop :=
  match target, s.tables.freeFile, s.tables.freeFd p with
  | some n, some f, some fd => r = fd.val ∧ ∃ ip, (t.inode ip).inum = n ∧
      Ended s (s.tables.withFile p omode ip f fd) (plus (fun _ => 0) ip) t
  | _, _, _ => r = -1 ∧ Ended s s.tables (fun _ => 0) t

theorem OpenEnds.target {found : Option (User × ℕ × ℕ)} {target : Option ℕ} {r : ℤ} {t : State}
    (h : OpenEnds s p omode found r t) (ht : match target with
      | some m => ∃ u' j, found = some (u', m, j + 1)
      | none => found = none ∨ ∃ u' m, found = some (u', m, 0)) : OpensTarget s p omode target r t := by
  unfold OpensTarget
  cases target with
  | none =>
    rcases ht with rfl | ⟨u', m, rfl⟩
    · exact h
    · exact h
  | some m =>
    obtain ⟨u', j, rfl⟩ := ht
    obtain ⟨ip, h⟩ := h
    unfold Opens at h
    revert h
    cases s.tables.freeFile with
    | none => exact id
    | some f =>
      cases s.tables.freeFd p with
      | none => exact id
      | some fd => exact fun h => ⟨h.1, ip, h.2⟩

/-- **Following symlinks is exact.** With well-formed links and two entries of the inode cache to spare, `sys_open`
returns, with a descriptor for the first inode that is no symlink after four hops at most, or with -1. -/
theorem open_symlink_exact (s : State) (p : Slot) (u : User) (addr omode : BitVec 32) (name : Bytes) (n : ℕ)
    (hready : Ready s p 2) (hf : Follows s p u addr omode name n) (hrec : Records s u addr) :
    ∃ r t, sysOpen p u (some addr) omode s = (.ok r, t) ∧ OpensTarget s p omode (s.target p 4 n) r t := by
  obtain ⟨w, found, hfollow, htarget⟩ := follow_target (p := p) 4 u n hrec
  rw [sysOpen_eq]
  rcases (openWrites_look hready hf).ends rfl with ⟨r, t, hrun, found', hfollow', hends⟩ | ⟨e, t, -, hno⟩
  · rw [hfollow] at hfollow'
    cases hfollow'
    exact ⟨r.2, t, map_ok hrun Prod.snd, hends.target htarget⟩
  · rw [hfollow] at hno
    cases hno

end

/-! ## Small disks -/

/-- With nothing valid in the cache, a process sees the disk. -/
theorem view_disk {s : State} (h : ∀ i, (s.inode i).valid = false) (n : ℕ) : s.view n = s.disk n := by
  unfold State.view
  cases hc : s.cached n with
  | none => rfl
  | some i =>
    obtain ⟨-, hv, -⟩ := cached_some hc
    rw [h i] at hv
    cases hv

/-- What a directory has is one of its entries. -/
theorem seekAt_some {data : Bytes} {name : Name} {k : ℕ} : ∀ {offs : List ℕ}, seekAt data name offs = some k →
    ∃ off ∈ offs, deInum (entryAt data off) = k ∧ k ≠ 0 := by
  intro offs
  induction offs with
  | nil =>
    intro h
    cases h
  | cons off offs ih =>
    intro h
    unfold seekAt at h
    split at h
    · rename_i hhit
      obtain rfl := Option.some.inj h
      exact ⟨off, by simp, rfl, hhit.1⟩
    · obtain ⟨o, ho, hk⟩ := ih h
      exact ⟨o, List.mem_cons_of_mem _ ho, hk⟩

/-- A root directory with the file `b` and the symlink `a`. -/
def linkDisk (data : Bytes) : ℕ → Dinode
  | 1 => ⟨.dir, 0, 0, 1, dirent 1 [46] ++ dirent 1 [46, 46] ++ dirent 2 [97] ++ dirent 3 [98]⟩
  | 2 => ⟨.symlink, 0, 0, 1, data⟩
  | 3 => ⟨.file, 0, 0, 1, []⟩
  | _ => noDinode

/-- The entries of the root directory. -/
theorem linkDisk_entries {data : Bytes} {n k : ℕ} {name : Name} (hn : (linkDisk data n).type = .dir)
    (h : seek (linkDisk data n).data name = some k) : k = 1 ∨ k = 2 ∨ k = 3 := by
  have hroot : n = 1 := by
    unfold linkDisk at hn
    split at hn
    · rfl
    all_goals cases hn
  subst hroot
  obtain ⟨off, hoff, hk, -⟩ := seekAt_some h
  have hall : ∀ off ∈ offsets (linkDisk [] 1).data.length 0, deInum (entryAt (linkDisk [] 1).data off) = 1 ∨
      deInum (entryAt (linkDisk [] 1).data off) = 2 ∨ deInum (entryAt (linkDisk [] 1).data off) = 3 := by
    decide
  rw [← hk]
  exact hall off hoff

theorem linkDisk_usable (data : Bytes) {k : ℕ} (hk : k = 1 ∨ k = 2 ∨ k = 3) :
    (linkDisk data k).type ≠ .free ∧ (linkDisk data k).nlink ≠ 0 := by
  rcases hk with rfl | rfl | rfl
  · exact ⟨by simp [linkDisk], by simp [linkDisk]⟩
  · exact ⟨by simp [linkDisk], by simp [linkDisk]⟩
  · exact ⟨by simp [linkDisk], by simp [linkDisk]⟩

/-- A state with this disk, and nothing valid in the cache. -/
theorem linkDisk_sound {data : Bytes} {s : State} {p : Slot} (hdisk : s.disk = linkDisk data)
    (hvalid : ∀ i, (s.inode i).valid = false) {ip : Iref} (hcwd : s.tables.cwd p = some ip)
    (href : 0 < (s.inode ip).ref) (hroot : (s.inode ip).inum = ROOTINO) : Sound s p where
  whole n := by
    rw [view_disk hvalid, hdisk]
    intro hn
    have hone : n = 1 := by
      unfold linkDisk at hn
      split at hn
      · rfl
      all_goals cases hn
    subst hone
    have hlen : (linkDisk [] 1).data.length % direntSize = 0 ∧ (linkDisk [] 1).data.length ≤ MAXFILE * BSIZE := by
      decide
    exact hlen
  entries n name k := by
    unfold State.Usable
    rw [view_disk hvalid, view_disk hvalid, hdisk]
    intro hn hk
    obtain ⟨htype, hlinks⟩ := linkDisk_usable data (linkDisk_entries hn hk)
    exact ⟨htype, .inl hlinks⟩
  root := by
    unfold State.Usable
    rw [view_disk hvalid, hdisk]
    obtain ⟨htype, hlinks⟩ := linkDisk_usable data (.inl rfl)
    exact ⟨htype, .inl hlinks⟩
  cwd := by
    refine ⟨ip, hcwd, href, ?_⟩
    rw [view_disk hvalid, hdisk, hroot]
    exact (linkDisk_usable data (.inl rfl)).1

theorem boot_valid (disk : ℕ → Dinode) (devsw : ℕ → Option (ℕ → Bytes)) (i : Iref) :
    ((boot disk devsw).inode i).valid = false := by
  unfold boot
  dsimp only
  split <;> rfl

theorem boot_ready (data : Bytes) : Ready (boot (linkDisk data) fun _ => none) initproc 3 where
  quiet := by
    refine ⟨fun i => ?_, fun i => ?_, fun i j hi hj _ => ?_⟩
    · unfold boot
      dsimp only
      split <;> rfl
    · unfold boot
      dsimp only
      split <;> simp
    · have hzero : ∀ i, 0 < ((boot (linkDisk data) fun _ => none).inode i).ref → i = 0 := by
        intro i hi
        unfold boot at hi
        dsimp only at hi
        split at hi
        · assumption
        · cases hi
      rw [hzero i hi, hzero j hj]
  sound := by
    have hcwd : (boot (linkDisk data) fun _ => none).tables.cwd initproc = some 0 := rfl
    exact linkDisk_sound rfl (boot_valid _ _) hcwd Int.one_pos rfl
  room := by
    have hroom : Room (boot (linkDisk []) fun _ => none) 3 := by
      unfold Room
      decide
    exact hroom
  closed _ _ := rfl
  inOp := rfl

/-- The record of the name `b`. -/
def recordB : Bytes := wordBytes 1 ++ ([98] ++ [0] ++ [])

theorem recordB_record : Record userA 0 recordB [98] :=
  ⟨⟨[], rfl⟩, by decide, by decide, by decide⟩

theorem linkDisk_records {s : State} (hdisk : s.disk = linkDisk recordB) (hvalid : ∀ i, (s.inode i).valid = false) :
    Records s userA 0 := by
  intro n hn
  rw [view_disk hvalid, hdisk] at hn ⊢
  have htwo : n = 2 := by
    unfold linkDisk at hn
    split at hn
    · cases hn
    · rfl
    all_goals cases hn
  rw [htwo]
  exact ⟨[98], recordB_record⟩

/-- `a` is a symlink, for a process with the memory `userA`. -/
theorem boot_follows (data : Bytes) :
    Follows (boot (linkDisk data) fun _ => none) initproc userA 0 O_NOFOLLOW [97] 2 where
  passes := ⟨by decide, by decide⟩
  found := by
    have hview : (boot (linkDisk data) fun _ => none).view = linkDisk data := funext (view_disk (boot_valid _ _))
    unfold State.resolve
    rw [hview]
    have horigin : (boot (linkDisk data) fun _ => none).origin initproc (Path.whole [97]) = some 1 := rfl
    have hentries : (linkDisk data 1).data = (linkDisk [] 1).data := rfl
    have helems : elems (Path.whole [97]) = [[97]] := by decide
    have hseek : seek (linkDisk [] 1).data [97] = some 2 := by decide
    rw [horigin, helems]
    show (find (linkDisk data) false [[97]] 1).map Prod.fst = some 2
    unfold find
    rw [if_neg (by simp [linkDisk]), if_neg (by simp), hentries, hseek]
    rfl
  link := by
    rw [view_disk (boot_valid _ _)]
    rfl
  plain := by decide
  nofollow := by decide

theorem open_symlink_exact_b : ∃ r t,
    sysOpen initproc userA (some 0) O_NOFOLLOW (boot (linkDisk recordB) fun _ => none) = (.ok r, t) ∧
      OpensTarget (boot (linkDisk recordB) fun _ => none) initproc O_NOFOLLOW (some 3) r t := by
  have hready := boot_ready recordB
  have htarget : (boot (linkDisk recordB) fun _ => none).target initproc 4 2 = some 3 := by decide
  rw [← htarget]
  exact open_symlink_exact _ initproc userA 0 O_NOFOLLOW [97] 2
    ⟨hready.quiet, hready.sound, le_trans (by omega) hready.room, hready.closed, hready.inOp⟩ (boot_follows recordB)
    (linkDisk_records rfl (boot_valid _ _))

/-- Fifty inodes are in use, but not the one of the symlink `a`. -/
def fullCache : State :=
  { boot (linkDisk recordB) fun _ => none with
    inode := fun i => ⟨if i = 0 then ROOTINO else 100 + i, 1, none, false, noDinode⟩ }

/-- **With a full inode cache** `sys_open` of a well-formed symlink panics. -/
theorem open_symlink_full : Quiet fullCache ∧ Sound fullCache initproc ∧ Records fullCache userA 0 ∧
    Passes userA 0 [97] ∧ (fullCache.view 2).type = .symlink ∧
    ¬ ∃ r t, sysOpen initproc userA (some 0) O_NOFOLLOW fullCache = (.ok r, t) := by
  have hvalid : ∀ i, (fullCache.inode i).valid = false := fun _ => rfl
  refine ⟨⟨fun _ => rfl, fun _ => Int.one_nonneg, fun i j _ _ hij => ?_⟩, ?_, linkDisk_records rfl hvalid,
    (boot_follows recordB).passes, ?_, ?_⟩
  · have hij' : (if i = 0 then ROOTINO else 100 + i.val) = if j = 0 then ROOTINO else 100 + j.val := hij
    have hone : ROOTINO = 1 := rfl
    split at hij' <;> split at hij'
    · simp_all
    · omega
    · omega
    · exact Fin.ext (by omega)
  · have hcwd : fullCache.tables.cwd initproc = some 0 := rfl
    exact linkDisk_sound rfl hvalid hcwd Int.one_pos rfl
  · rw [view_disk hvalid]
    rfl
  · have hpanic : returns (fun _ _ => True) (sysOpen initproc userA (some 0) O_NOFOLLOW fullCache) = false := by decide
    rintro ⟨r, t, h⟩
    rw [h] at hpanic
    cases hpanic

end Xv6.Fs
