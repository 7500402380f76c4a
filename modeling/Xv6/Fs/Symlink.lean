import Xv6.Fs.Open

/-!
# Symlinks over existing names

`sys_symlink` takes what `create` gives it, and `create` gives it any inode that has the name already.

* `create_gives`: `create` of a symlink fails only if there is no directory for it.
* **`symlink_harmless_iff`**: when `sys_symlink` of an existing name fails, and changes nothing.
-/

namespace Xv6.Fs

open Prog

section

variable {p : Slot} {s : State} {u : User} {target : Arg} {addr : BitVec 32} {name targetRest pathRest : Bytes}

/-- The path that `create` sees: the bytes of the address, and what is above them on the stack. -/
def kernelName (addr : BitVec 32) (rest : Bytes) : Path := stackPath (wordBytes addr ++ rest)

/-- Whatever a program does, it returns or faults. -/
theorem triple_top {α : Type} {P : State → Prop} (m : M α) : Triple P m (fun _ _ => True) fun _ _ => True := by
  intro t _
  match m t with
  | (.ok _, _) => trivial
  | (.error _, _) => trivial

/-- What is known of the result alone. -/
theorem of_result {α : Type} {P : State → Prop} {m : M α} {c : α → Prop} {Q : α → State → Prop}
    {E : Fault → State → Prop} (h : Triple (fun _ => True) m (fun r _ => c r) fun _ _ => True)
    (hQ : ∀ r t, c r → Q r t) (hE : ∀ e t, E e t) : Triple P m Q E :=
  h.conseq (fun _ _ => trivial) hQ fun e t _ => hE e t

/-- **`create` of a symlink** fails only if there is no directory for it: an inode that has the name already is given
back, whatever its type. -/
theorem create_gives (path : Path) (hs : Sound s p) (hroom : Room s 2) (hquiet : Quiet s) (hop : s.inOp = true) :
    Triple (fun t => t = s) (create p path .symlink 0 0)
      (fun r t => r = none ∧ s.resolve p true path = none ∧ (∃ m, Look p true s (fun _ => 0) m ∅ t) ∨
        r ≠ none ∧ s.resolve p true path ≠ none)
      (fun _ _ => s.resolve p true path ≠ none) := by
  have hwalk : Triple (Look p true s (fun _ => 0) (fun i => (s.inode i).inum) ∅) (nameiparent p path) _ _ :=
    namex_look hs rfl (fun _ => le_rfl) hroom.roomy path true
  refine Triple.bind (hwalk.conseq (fun t ht => ?_) (fun _ _ h => h.2) fun _ _ hstray hnone => ?_) fun r => ?_
  · rw [ht]
    exact hquiet.look hop
  · have hfound := hstray.2
    rw [← s.resolve_torn p true hstray.1, hnone] at hfound
    cases hfound
  cases hres : s.resolve p true path with
  | none =>
    cases r with
    | none => exact Triple.pure fun t h => .inl ⟨rfl, rfl, h⟩
    | some d => exact fun t h => h.elim
  | some d =>
    cases r with
    | none => exact fun t h => h.elim
    | some r =>
      have hdone : ∀ {P : State → Prop} (ip : Iref), Triple P (pure (some ip) : M (Option Iref))
          (fun r _ => r ≠ none) fun _ _ => True := fun ip => Triple.pure fun _ _ h => by cases h
      refine of_result (c := fun r => r ≠ none) ?_ (fun r _ hr => .inr ⟨hr, by simp⟩) fun _ _ => by simp
      refine Triple.bind (triple_top _) fun _ => Triple.bind (triple_top _) fun found => ?_
      match found with
      | some (ip, off) =>
        refine Triple.bind (triple_top _) fun _ => Triple.bind (triple_top _) fun _ => ?_
        refine Triple.bind (triple_top _) fun _ => Triple.bind (triple_top _) fun _ => ?_
        rw [if_pos (.inr rfl)]
        exact hdone ip
      | none =>
        refine Triple.bind (triple_top _) fun ip => Triple.bind (triple_top _) fun _ => ?_
        refine Triple.bind (triple_top _) fun _ => Triple.bind (triple_top _) fun _ => ?_
        refine Triple.bind (triple_top _) fun _ => Triple.bind (triple_top _) fun _ => ?_
        refine Triple.bind (triple_top _) fun _ => Triple.bind (triple_top _) fun _ => ?_
        refine Triple.bind (triple_top _) fun _ => Triple.bind (triple_top _) fun _ => ?_
        exact hdone ip

/-- `sys_symlink` returns -1, and the inode that has the name and its directory are what they were. -/
def Harmless (s : State) (p : Slot) (u : User) (target : Arg) (addr : BitVec 32) (targetRest pathRest name : Bytes) :
    Prop :=
  ∃ t, sysSymlink p u target (some addr) targetRest pathRest s = (.ok (-1), t) ∧
    (∀ n last, s.resolve p false name = some (n, last) → t.view n = s.view n) ∧
    ∀ d last, s.resolve p true name = some (d, last) → t.view d = s.view d

/-- The kernel has a name, but no directory for it. -/
def Lost (s : State) (p : Slot) (addr : BitVec 32) (pathRest : Bytes) : Prop :=
  s.resolve p true (kernelName addr pathRest) = none

theorem sysSymlink_look {a : BitVec 32} (hready : Ready s p 2) (hpass : Passes u addr name)
    (ha : argstr u target = some a) :
    Triple (fun t => t = s) (sysSymlink p u target (some addr) targetRest pathRest)
      (fun r t => r = -1 ∧ Lost s p addr pathRest ∧ Ended s s.tables (fun _ => 0) t ∨ r = 0 ∧ ¬ Lost s p addr pathRest)
      (fun _ _ => ¬ Lost s p addr pathRest) := by
  unfold sysSymlink
  rw [ha, hpass.arg]
  dsimp only
  refine Triple.bind (R := fun _ t => t = s.begun) (Triple.modify fun t ht => by rw [ht]; rfl) fun _ => ?_
  have hcreate := create_gives (kernelName addr pathRest) hready.sound.begun hready.room hready.quiet.begun rfl
  refine Triple.bind hcreate fun r => ?_
  match r with
  | none =>
    refine Triple.bind (R := fun _ t => Lost s p addr pathRest ∧ Ended s s.tables (fun _ => 0) t) ?_ fun _ =>
      Triple.pure fun t h => .inl ⟨rfl, h⟩
    rintro t (⟨-, hres, m, h⟩ | ⟨hr, -⟩)
    · exact ⟨hres, (end_op_same t h).of_begun⟩
    · exact absurd rfl hr
  | some ip =>
    refine Triple.fact (c := ¬ Lost s p addr pathRest) ?_ fun hlost => ?_
    · rintro t (⟨hr, -⟩ | ⟨-, hres⟩) hlost
      · cases hr
      · exact hres hlost
    refine of_result (c := fun r => r = 0) ?_ (fun r _ hr => .inr ⟨hr, hlost⟩) fun _ _ => hlost
    refine Triple.bind (triple_top _) fun _ => Triple.bind (triple_top _) fun _ => ?_
    refine Triple.bind (triple_top _) fun _ => Triple.bind (triple_top _) fun _ => ?_
    refine Triple.bind (triple_top _) fun _ => Triple.bind (triple_top _) fun _ => ?_
    exact Triple.pure fun _ _ => rfl

/-- **Symlinks over existing names.** `sys_symlink` returns -1 and changes neither the inode that has the name nor its
directory if and only if the target is no string of the process, or the kernel's name for it has no directory. -/
theorem symlink_harmless_iff (s : State) (p : Slot) (u : User) (target : Arg) (addr : BitVec 32)
    (targetRest pathRest name : Bytes) (hready : Ready s p 2) (hpass : Passes u addr name) :
    Harmless s p u target addr targetRest pathRest name ↔ argstr u target = none ∨ Lost s p addr pathRest := by
  cases ha : argstr u target with
  | none =>
    have hrun : sysSymlink p u target (some addr) targetRest pathRest = pure (-1) := by
      unfold sysSymlink
      rw [ha]
    refine iff_of_true ⟨s, ?_, fun _ _ _ => rfl, fun _ _ _ => rfl⟩ (.inl rfl)
    rw [hrun]
    rfl
  | some a =>
    rcases (sysSymlink_look hready hpass ha).ends rfl with
      ⟨r, t, hrun, ⟨rfl, hlost, h⟩ | ⟨rfl, hlost⟩⟩ | ⟨e, t, hrun, hlost⟩
    · exact iff_of_true ⟨t, hrun, fun n _ _ => h.view n, fun d _ _ => h.view d⟩ (.inr hlost)
    · refine iff_of_false ?_ (by simpa using hlost)
      rintro ⟨t', hrun', -⟩
      rw [hrun] at hrun'
      cases hrun'
    · refine iff_of_false ?_ (by simpa using hlost)
      rintro ⟨t', hrun', -⟩
      rw [hrun] at hrun'
      cases hrun'

end

theorem symlink_harmless_zero :
    Harmless (boot (linkDisk recordB) fun _ => none) initproc userA (some 0) 0 [] [] [97] := by
  have hready := boot_ready recordB
  have hready' : Ready (boot (linkDisk recordB) fun _ => none) initproc 2 :=
    ⟨hready.quiet, hready.sound, le_trans (by omega) hready.room, hready.closed, hready.inOp⟩
  refine (symlink_harmless_iff _ initproc userA (some 0) 0 [] [] [97] hready' (boot_follows recordB).passes).2
    (.inr ?_)
  unfold Lost
  decide

/-- A disk with a file `a` of eight bytes. -/
def eightBytes : ℕ → Dinode
  | 1 => ⟨.dir, 0, 0, 1, dirent 1 [46] ++ dirent 1 [46, 46] ++ dirent 2 [97]⟩
  | 2 => ⟨.file, 0, 0, 1, [1, 2, 3, 4, 5, 6, 7, 8]⟩
  | _ => noDinode

/-- A memory with the strings `.` and `a` at the addresses that are these strings themselves. -/
def userOwn : User := ⟨4096, fun addr => if addr = 0x2e ∨ addr = 0x61 then UInt8.ofNat addr else 0⟩

/-- A symlink `a` to `a` overwrites the file, and a symlink `.` the entries of the current directory. -/
theorem symlink_overwrites :
    ((boot eightBytes fun _ => none).resolve initproc false (Path.whole [97]) = some (2, []) ∧ Passes userOwn 0x61 [97] ∧
      ¬ Harmless (boot eightBytes fun _ => none) initproc userOwn (some 0x61) 0x61 [] [] [97] ∧
      ((sysSymlink initproc userOwn (some 0x61) (some 0x61) [] [] (boot eightBytes fun _ => none)).2.view 2).data =
        [1, 0, 0, 0, 97, 0, 7, 8]) ∧
    (boot eightBytes fun _ => none).resolve initproc false (Path.whole [46]) = some (1, []) ∧ Passes userOwn 0x2e [46] ∧
      ¬ Harmless (boot eightBytes fun _ => none) initproc userOwn (some 0x61) 0x2e [] [] [46] ∧
      ((sysSymlink initproc userOwn (some 0x61) (some 0x2e) [] [] (boot eightBytes fun _ => none)).2.view 1).data.take
        6 = [1, 0, 0, 0, 97, 0] := by
  have hzero : ∀ addr name, returns (fun r _ => r = 0) (sysSymlink initproc userOwn (some 0x61) (some addr) [] []
      (boot eightBytes fun _ => none)) = true →
      ¬ Harmless (boot eightBytes fun _ => none) initproc userOwn (some 0x61) addr [] [] name := by
    rintro addr name h ⟨t, hrun, -⟩
    rw [hrun] at h
    cases h
  refine ⟨⟨by decide, ⟨by decide, by decide⟩, hzero _ _ (by decide), by decide⟩,
    by decide, ⟨by decide, by decide⟩, hzero _ _ (by decide), by decide⟩

end Xv6.Fs
