import Xv6.Fs.Open

/-!
# Symlinks of any content

A process may open a symlink for writing, and so give it any content.

* `FitLinks`: the links of a chain fit into the string that `sys_open` was passed.
* `open_safe_iff`, `exec_safe_iff`: when `sys_open` and `sys_exec` neither panic nor write too much.
* **`links_safe`**: both of them.
-/

namespace Xv6.Fs

open Prog

section

variable {p : Slot} {s : State} {u : User} {addr omode : BitVec 32} {name : Bytes} {n : ℕ}

/-! ## Links of any content -/

/-- Every symlink of the chain gives a length that is not too long, has no more bytes to read than the string that the
process passed, of length `max`, and its NUL, and leaves a path that does not stray. -/
def FitLinks (s : State) (p : Slot) (addr : BitVec 32) (max : ℕ) : ℕ → User → ℕ → Prop
  | 0, _, _ => True
  | k + 1, u, n => (s.view n).type = .symlink →
    BitVec.slt MAX_PATH (linkLen ((s.view n).data.take 4)) = false ∧ (linkBytes (s.view n).data).length ≤ max + 1 ∧
      ¬ s.Strays p (str (u.write addr (linkBytes (s.view n).data)) addr) ∧
        ∀ m, (s.resolve p false (str (u.write addr (linkBytes (s.view n).data)) addr)).map Prod.fst = some m →
          FitLinks s p addr max k (u.write addr (linkBytes (s.view n).data)) m

theorem fitLinks_iff {max : ℕ} (k : ℕ) : ∀ u n, addr.toNat + max + 1 ≤ u.mapped → (FitLinks s p addr max k u n ↔
    ∃ w found, s.follow p addr k u n = some (w, found) ∧ ∀ bs ∈ w, bs.length ≤ max + 1) := by
  induction k with
  | zero =>
    intro u n _
    exact iff_of_true trivial ⟨[], _, rfl, by simp⟩
  | succ k ih =>
    intro u n hmax
    set bs := linkBytes (s.view n).data with hbs
    have hmapped : (u.write addr bs).mapped = u.mapped := rfl
    unfold FitLinks State.follow
    by_cases hlink : (s.view n).type = .symlink
    swap
    · rw [if_pos hlink]
      exact iff_of_true (fun h => absurd h hlink) ⟨[], _, rfl, by simp⟩
    rw [if_neg (not_not.2 hlink), ← hbs]
    dsimp only
    rw [hmapped]
    by_cases hlen : BitVec.slt MAX_PATH (linkLen ((s.view n).data.take 4)) = true
    · rw [if_pos hlen, hlen]
      refine iff_of_false (fun h => ?_) ?_
      · cases (h hlink).1
      · rintro ⟨w, found, h, -⟩
        cases h
    have hlen' : BitVec.slt MAX_PATH (linkLen ((s.view n).data.take 4)) = false := by simpa using hlen
    rw [if_neg hlen, hlen']
    by_cases hfits : bs.length ≤ max + 1
    swap
    · -- too much is written, or the write fails
      refine iff_of_false (fun h => hfits (h hlink).2.1) ?_
      rintro ⟨w, found, h, hw⟩
      split at h
      · cases h
      split at h
      · cases h
      split at h
      · cases h
        exact hfits (hw bs (by simp))
      · obtain ⟨r, -, hr⟩ := Option.map_eq_some_iff.1 h
        cases hr
        exact hfits (hw bs (by simp))
    rw [if_neg (by omega)]
    by_cases hstray : s.Strays p (str (u.write addr bs) addr)
    · rw [if_pos hstray]
      refine iff_of_false (fun h => (h hlink).2.2.1 hstray) ?_
      rintro ⟨w, found, h, -⟩
      cases h
    rw [if_neg hstray]
    cases hres : (s.resolve p false (str (u.write addr bs) addr)).map Prod.fst with
    | none =>
      refine iff_of_true (fun _ => ⟨rfl, hfits, hstray, fun m hm => ?_⟩) ⟨_, _, rfl, ?_⟩
      · cases hm
      · intro b hb
        rw [List.mem_singleton.1 hb]
        exact hfits
    | some m =>
      have hrest := ih (u.write addr bs) m (by rw [hmapped]; exact hmax)
      constructor
      · intro h
        obtain ⟨-, -, -, hfit⟩ := h hlink
        obtain ⟨w, found, hfollow, hw⟩ := hrest.1 (hfit m rfl)
        dsimp only
        rw [hfollow]
        refine ⟨_, _, rfl, fun b hb => ?_⟩
        rcases List.mem_cons.1 hb with rfl | hb
        · exact hfits
        · exact hw b hb
      · rintro ⟨w, found, h, hw⟩ -
        obtain ⟨⟨w', found'⟩, hfollow, hr⟩ := Option.map_eq_some_iff.1 h
        cases hr
        refine ⟨rfl, hfits, hstray, fun m' hm' => ?_⟩
        obtain rfl := Option.some.inj hm'
        exact hrest.2 ⟨w', found', hfollow, fun b hb => hw b (List.mem_cons_of_mem _ hb)⟩

theorem strFrom_length {byte : ℕ → UInt8} {text : Bytes} :
    ∀ {a k : ℕ}, strFrom byte a k = some text → text.length < k := by
  induction text with
  | nil =>
    intro a k h
    cases k with
    | zero => cases h
    | succ k => simp
  | cons b text ih =>
    intro a k h
    cases k with
    | zero => cases h
    | succ k =>
      unfold strFrom at h
      split at h
      · cases h
      · obtain ⟨r, hr, hcons⟩ := Option.map_eq_some_iff.1 h
        cases hcons
        have hlt := ih hr
        rw [List.length_cons]
        omega

/-- The call does not panic, and writes nothing behind the string `name` that it was passed. -/
def Safely (m : M (List Bytes × ℤ)) (name : Bytes) (s : State) : Prop :=
  ∃ r t, m s = (.ok r, t) ∧ ∀ bs ∈ r.1, bs.length ≤ name.length + 1

theorem open_safe_iff (hready : Ready s p 2) (hf : Follows s p u addr omode name n) :
    Safely (openWrites p u (some addr) omode) name s ↔ FitLinks s p addr name.length 5 u n := by
  have hlen := strFrom_length hf.passes.string
  rw [fitLinks_iff 5 u n (by omega)]
  rcases (openWrites_look hready hf).ends rfl with ⟨r, t, hrun, found, hfollow, -⟩ | ⟨e, t, hrun, hno⟩
  · constructor
    · rintro ⟨r', t', hrun', hw⟩
      rw [hrun] at hrun'
      cases hrun'
      exact ⟨_, _, hfollow, hw⟩
    · rintro ⟨w, found', hfollow', hw⟩
      rw [hfollow] at hfollow'
      cases hfollow'
      exact ⟨r, t, hrun, hw⟩
  · refine iff_of_false ?_ ?_
    · rintro ⟨r', t', hrun', -⟩
      rw [hrun] at hrun'
      cases hrun'
    · rintro ⟨w, found, hfollow, -⟩
      rw [hno] at hfollow
      cases hfollow

/-! ## `sys_exec` of a symlink -/

section

variable {op : Bool} {s₀ t : State} {x : Iref → ℤ} {m : Iref → ℕ} {L : Finset Iref} {ip : Iref} {argv : Bool}

theorem readi_any_look (hip : ip ∈ L) (off k : ℕ) : Triple (Look p op s₀ x m L) (readi p ip off k)
    (fun _ => Look p op s₀ x m L) Never := by
  refine Triple.bind (examine_look hip) fun _ => ?_
  refine Triple.bind (R := fun _ => Look p op s₀ x m L) (Triple.get fun _ h => h) fun a => ?_
  dsimp only
  split
  · exact Triple.pure fun _ h => h
  split
  · exact Triple.pure fun _ h => h
  · exact Triple.pure fun _ h => h

/-- Outside a transaction anything may be looked at. -/
theorem examine_out_look {Q : State → Prop} (hQ : ∀ s b, Q s → Q { s with broken := b }) :
    Triple (fun s => Q s ∧ Look p false s₀ x m L s) (examine p ip)
      (fun _ s => Q s ∧ Look p false s₀ x m L s) Never := by
  refine Triple.modify fun s h => ?_
  split
  · exact h
  · obtain ⟨hq, h⟩ := h
    exact ⟨hQ s true hq, h.disk, h.tables, h.devsw, h.inOp, fun hop => (by cases hop), h.inum, h.ref, h.lock, h.held,
      h.base, h.pos, h.uniq, h.kept, h.sees, h.usable⟩

/-- **`exec`** returns. -/
theorem exec_look (hq : Quiet t) (hs : Sound t p) (hroom : Roomy t fun _ => 0) (path : Bytes) :
    Triple (fun t' => t' = t) (exec p path) (fun _ _ => True) Never := by
  refine Triple.bind (R := fun _ => Look p true t.begun (fun _ => 0) (fun i => (t.inode i).inum) ∅)
    (Triple.modify fun t' ht => ?_) fun _ => ?_
  · rw [ht]
    exact hq.begun.look rfl
  refine Triple.bind (namei_whole hs.begun rfl (fun _ => le_rfl) hroom path) fun r => ?_
  match (t.begun.resolve p false path).map Prod.fst, r with
  | none, none =>
    refine Triple.exists_pre fun m => ?_
    exact Triple.bind end_op_same fun _ => Triple.pure fun _ _ => trivial
  | some k, some ip =>
    refine Triple.exists_pre fun m => Triple.of_fact fun _ => ?_
    have hmem := Finset.mem_insert_self ip (∅ : Finset Iref)
    refine Triple.bind (ilock_look (Finset.notMem_empty ip) (by rw [plus_self]; omega)) fun _ => ?_
    refine Triple.bind (readi_any_look hmem 0 52) fun _ => ?_
    refine Triple.bind (put_look (Finset.notMem_empty ip) le_rfl) fun _ => ?_
    exact Triple.bind end_op_same fun _ => Triple.pure fun _ _ => trivial
  | none, some _ => exact fun s h => h.elim
  | some _, none => exact fun s h => h.elim

/-- The entry is not locked, and looks like a symlink. -/
def Bare (ip : Iref) (t : State) : Prop := (t.inode ip).lock = none ∧ (t.inode ip).di.type = .symlink

theorem examine_bare : Triple (Bare ip) (examine p ip) (fun _ => Bare ip) (fun _ _ => True) := by
  refine Triple.modify fun t h => ?_
  split
  · exact h
  · exact h

theorem readi_bare (off k : ℕ) : Triple (Bare ip) (readi p ip off k) (fun _ => Bare ip) (fun _ _ => True) := by
  refine Triple.bind examine_bare fun _ => ?_
  refine Triple.bind (R := fun _ => Bare ip) (Triple.get fun _ h => h) fun a => ?_
  dsimp only
  split
  · exact Triple.pure fun _ h => h
  split
  · exact Triple.pure fun _ h => h
  · exact Triple.pure fun _ h => h

/-- **An inode that is not locked cannot be unlocked**: the loop panics at the first symlink. -/
theorem followWrites_bare (path : BitVec 32) (k : ℕ) (u : User) :
    Triple (Bare ip) (followWrites p path (k + 1) u ip) (fun _ _ => False) (fun _ _ => True) := by
  refine Triple.bind examine_bare fun _ => ?_
  refine Triple.bind (R := fun y t => y.di.type = .symlink ∧ Bare ip t) ?_ fun y => Triple.of_fact fun hy => ?_
  · refine (getInode_look.conseq (fun _ => id) ?_ fun _ _ h => h.elim)
    rintro y t ⟨h, rfl⟩
    exact ⟨h.2, h⟩
  rw [if_neg (not_not.2 hy)]
  refine Triple.bind (readi_bare _ _) fun head => ?_
  dsimp only
  refine Triple.bind (R := fun _ => Bare ip) (Triple.assert (fun _ _ h => h) fun _ _ _ => trivial) fun _ => ?_
  refine Triple.bind (readi_bare _ _) fun bs => ?_
  refine Triple.bind (R := fun _ => Bare ip) (Triple.assert (fun _ _ h => h) fun _ _ _ => trivial) fun _ => ?_
  refine Triple.bind (R := fun _ _ => False) ?_ fun _ _ h => h.elim
  refine Triple.bind (R := fun _ _ => False) ?_ fun _ _ h => h.elim
  refine Triple.bind (R := fun y t => y.lock = none) ?_ fun y => ?_
  · refine (getInode_look.conseq (fun _ => id) ?_ fun _ _ h => h.elim)
    rintro y t ⟨h, rfl⟩
    exact h.1
  refine Triple.bind (R := fun _ _ => False) (Triple.assert (fun hy t h => ?_) fun _ _ _ => trivial)
    fun _ _ h => h.elim
  have h' : y.lock = none := h
  rw [h'] at hy
  cases hy.1

/-- `sys_exec`, when the entry does not look like a symlink. -/
theorem execFound_look (argv : Bool) (hready : Ready s p 3) (hpass : Passes u addr name) :
    Triple (fun t => (t.inode ip).di.type ≠ .symlink ∧ Look p false s (plus (fun _ => 0) ip) m ∅ t)
      (execFound p u addr argv ip) (fun r _ => r.1 = []) Never := by
  refine Triple.bind (examine_out_look fun _ _ h => h) fun _ => ?_
  have hfollow : Triple (fun t => (t.inode ip).di.type ≠ .symlink ∧ Look p false s (plus (fun _ => 0) ip) m ∅ t)
      (followWrites p addr 5 u ip)
      (fun r t => r = ([], some (u, ip, 5)) ∧ Look p false s (plus (fun _ => 0) ip) m ∅ t) Never := by
    refine Triple.bind (examine_out_look fun _ _ h => h) fun _ => ?_
    refine Triple.bind (R := fun y t => y.di.type ≠ .symlink ∧ Look p false s (plus (fun _ => 0) ip) m ∅ t)
      (getInode_look.post ?_) fun y => Triple.of_fact fun hy => ?_
    · rintro y t ⟨h, rfl⟩
      exact h
    rw [if_pos hy]
    exact Triple.pure fun t h => ⟨rfl, h⟩
  refine Triple.bind hfollow fun r => Triple.of_fact fun hr => ?_
  subst hr
  dsimp only
  rw [if_neg (by omega)]
  refine Triple.ite (fun _ => Triple.pure fun _ _ => rfl) fun _ => ?_
  rw [str_whole hpass.string]
  refine Triple.of_state fun t h => ?_
  have hroom : Roomy t fun _ => 0 := by
    obtain ⟨i, j, hij, hi, hj⟩ := hready.room.roomy_plus ip
    exact ⟨i, j, hij, by rw [h.ref i, hi]; rfl, by rw [h.ref j, hj]; rfl⟩
  exact Triple.bind (exec_look h.quiet (h.sound hready.sound) hroom name) fun _ => Triple.pure fun _ _ => rfl

/-- **`sys_exec`** returns if and only if the entry of the cache that `namei` finds does not look like a symlink. -/
theorem exec_safe_iff (hready : Ready s p 3) (hpass : Passes u addr name) (argv : Bool) :
    Safely (execWrites p u (some addr) argv) name s ↔
      ∀ ip t, namei p name s = (.ok (some ip), t) → (t.inode ip).di.type ≠ .symlink := by
  have hroom : Room s 2 := le_trans (by omega) hready.room
  have hnamei : Triple (Look p false s (fun _ => 0) (fun i => (s.inode i).inum) ∅) (namei p name) _ Never :=
    namei_whole hready.sound rfl (fun _ => le_rfl) hroom.roomy name
  have hexec : execWrites p u (some addr) argv = namei p name >>= fun r =>
      r.elim (pure ([], -1)) (execFound p u addr argv) := by
    unfold execWrites
    rw [hpass.arg]
    dsimp only
    rw [str_whole hpass.string]
    refine congrArg (namei p name >>= ·) (funext fun r => ?_)
    cases r with
    | none => rfl
    | some ip => rfl
  unfold Safely
  rw [hexec]
  rcases hnamei.ends (hready.quiet.look hready.inOp) with ⟨r, t, hrun, harr⟩ | ⟨_, _, _, hno⟩
  swap
  · exact hno.elim
  rw [bind_of_ok hrun]
  cases r with
  | none =>
    refine iff_of_true ⟨([], -1), t, rfl, by simp⟩ ?_
    intro ip t' h
    rw [hrun] at h
    cases h
  | some ip =>
    obtain ⟨m, hlook⟩ : ∃ m, Look p false s (plus (fun _ => 0) ip) m ∅ t := by
      revert harr
      cases (s.resolve p false name).map Prod.fst with
      | none => exact False.elim
      | some k =>
        rintro ⟨m, -, hlook⟩
        exact ⟨m, hlook⟩
    by_cases htype : (t.inode ip).di.type = .symlink
    · refine iff_of_false ?_ fun h => h ip t hrun htype
      have hbare : Bare ip t := ⟨by rw [hlook.lock, if_neg (Finset.notMem_empty ip)], htype⟩
      have hpanic : Triple (Bare ip) (execFound p u addr argv ip) (fun _ _ => False) (fun _ _ => True) :=
        Triple.bind examine_bare fun _ => Triple.bind (followWrites_bare addr 4 u) fun _ _ h => h.elim
      rintro ⟨r, t', h, -⟩
      exact hpanic.ok hbare h
    · refine iff_of_true ?_ fun ip' t' h => ?_
      · rcases (execFound_look argv hready hpass).ends ⟨htype, hlook⟩ with ⟨r, t', h, hw⟩ | ⟨_, _, _, hno⟩
        · exact ⟨r, t', h, by rw [hw]; simp⟩
        · exact hno.elim
      · rw [hrun] at h
        cases h
        exact htype

end

/-- **Symlinks of any content.** With three entries of the inode cache to spare, `sys_open` of a symlink does not panic
and writes only to the string that it was passed if and only if the links of the chain fit into it; and `sys_exec` if
and only if the entry of the cache that `namei` finds does not look like a symlink. Without their writes, `openWrites`
and `execWrites` are the two calls. -/
theorem links_safe (s : State) (p : Slot) (u : User) (addr omode : BitVec 32) (name : Bytes) (n : ℕ) (argv : Bool)
    (hready : Ready s p 3) (hf : Follows s p u addr omode name n) :
    (Safely (openWrites p u (some addr) omode) name s ↔ FitLinks s p addr name.length 5 u n) ∧
      (Safely (execWrites p u (some addr) argv) name s ↔
        ∀ ip t, namei p name s = (.ok (some ip), t) → (t.inode ip).di.type ≠ .symlink) ∧
      sysOpen p u (some addr) omode = Prod.snd <$> openWrites p u (some addr) omode ∧
      sysExec p u (some addr) argv = Prod.snd <$> execWrites p u (some addr) argv := by
  have hready' : Ready s p 2 :=
    ⟨hready.quiet, hready.sound, le_trans (by omega) hready.room, hready.closed, hready.inOp⟩
  exact ⟨open_safe_iff hready' hf, exec_safe_iff hready hf.passes argv, sysOpen_eq .., sysExec_eq ..⟩

end

theorem links_safe_b :
    Safely (openWrites initproc userA (some 0) O_NOFOLLOW) [97] (boot (linkDisk recordB) fun _ => none) ∧
      Safely (execWrites initproc userA (some 0) true) [97] (boot (linkDisk recordB) fun _ => none) := by
  have hsafe := links_safe _ initproc userA 0 O_NOFOLLOW [97] 2 true (boot_ready recordB) (boot_follows recordB)
  refine ⟨hsafe.1.2 fun _ => ⟨by decide, by decide, by decide, fun m hm => ?_⟩, hsafe.2.1.2 fun ip t hrun => ?_⟩
  · have hb : ((boot (linkDisk recordB) fun _ => none).resolve initproc false
        (str (userA.write 0 (linkBytes recordB)) 0)).map Prod.fst = some 3 := by decide
    rw [view_disk (boot_valid _ _)] at hm
    obtain rfl : 3 = m := Option.some.inj (hb.symm.trans hm)
    cases hm
    intro hlink
    rw [view_disk (boot_valid _ _)] at hlink
    cases hlink
  · have hbare : returns (fun r t => ∀ ip ∈ r, (t.inode ip).di.type ≠ .symlink)
        (namei initproc (Path.whole [97]) (boot (linkDisk recordB) fun _ => none)) = true := by decide
    rw [hrun] at hbare
    exact of_decide_eq_true hbare ip rfl

/-- A memory that ends with the string `/a`. -/
def userEnd : User := ⟨4096, fun addr => if addr = 4093 then 47 else if addr = 4094 then 97 else 0⟩

-- The link leaves no NUL, but `x` is no name: `namex` does not get as far as the end of the memory.
example : returns (fun r _ => r = ([[120, 47, 121]], -1)) (openWrites initproc userEnd (some 4093) O_NOFOLLOW
    (boot (linkDisk (wordBytes 2 ++ [120, 47, 121])) fun _ => none)) = true := by decide

/-- A link with the name `bb`, which is longer than `a`. -/
def recordBB : Bytes := wordBytes 2 ++ [98, 98, 0]

/-- `sys_open` writes one byte too many, and `sys_exec` unlocks an inode that was never locked. -/
theorem links_unsafe :
    ¬ Safely (openWrites initproc userA (some 0) O_NOFOLLOW) [97] (boot (linkDisk recordBB) fun _ => none) ∧
      machine.run (boot (linkDisk recordB) fun _ => none)
        [⟨initproc, userA, .open (some 0) 0⟩, ⟨initproc, userA, .exec (some 0) true⟩] = some (.error .iunlock) := by
  refine ⟨fun h => ?_, ?_⟩
  · have hready := boot_ready recordBB
    have hready' : Ready (boot (linkDisk recordBB) fun _ => none) initproc 2 :=
      ⟨hready.quiet, hready.sound, le_trans (by omega) hready.room, hready.closed, hready.inOp⟩
    have hfit := (open_safe_iff hready' (boot_follows recordBB)).1 h (boot_follows recordBB).link
    revert hfit
    have hlong : ¬ (linkBytes ((boot (linkDisk recordBB) fun _ => none).view 2).data).length ≤ 1 + 1 := by
      decide
    exact fun hfit => hlong hfit.2.1
  · exact Machine.run_of_faults (by decide)

end Xv6.Fs
