import Xv6.Lwp.Step

/-!
# Looking for a pid

`find_proc` takes the first slot that has the pid, also an `UNUSED` one, and if there is none it
returns a pointer one past the table, which `setmemorylimit` and `sys_kill` follow. An `int` pid
is the number that its bits are.

* `Ptable`: the table, with the memory behind it.
* **`kill_noop`**: when `kill` and `sys_kill` leave a pid alone that no process has.
* **`setmemorylimit_exact`**: when `setmemorylimit` does what its comments say.
-/

namespace Xv6.Lwp

/-- The process table, and what is read as a slot one past its end. -/
structure Ptable where
  proc : Table
  past : Proc

variable {x : Ptable} {t : Table} {pid : ℕ} {p : Slot} {limit : BitVec 32}

/-- What a result of `find_proc` points to; `none` is one past the table. -/
def Ptable.at (x : Ptable) : Option Slot → Proc
  | some p => x.proc p
  | none => x.past

def Ptable.upd (x : Ptable) (p : Option Slot) (f : Proc → Proc) : Ptable :=
  match p with
  | some p => { x with proc := x.proc.upd p f }
  | none => { x with past := f x.past }

theorem findPid_some (h : findPid t pid = some p) : (t p).pid = pid := by
  simpa using List.find?_some h

theorem findPid_none : findPid t pid = none ↔ ∀ p, (t p).pid ≠ pid := by
  unfold findPid
  rw [List.find?_eq_none]
  simp

/-! ## `kill` -/

def Ptable.sysKill (x : Ptable) (pid : ℕ) : Except Fault (ℤ × Ptable) :=
  let p := findPid x.proc pid
  if (x.at p).pid ≠ pid then .ok (-1, x)
  else do
    let t ← (kill x.proc pid).getD (.ok x.proc)
    let x := { x with proc := t }
    .ok (if (x.at p).killed then 0 else -1, x)

/-- No process has the pid. -/
def Table.Absent (t : Table) (pid : ℕ) : Prop := ∀ p, (t p).state ≠ .unused → (t p).pid ≠ pid

instance (t : Table) (pid : ℕ) : Decidable (t.Absent pid) := by unfold Table.Absent; infer_instance

/-- Both calls return -1, and no slot changes. -/
structure Ptable.KillsNothing (x : Ptable) (pid : ℕ) : Prop where
  kill : kill x.proc pid = none
  sysKill : x.sysKill pid = .ok (-1, x)

theorem kill_none : kill t pid = none ↔ ∀ p, (t p).pid ≠ pid := by
  unfold kill
  rw [Option.map_eq_none_iff, findPid_none]

/-- With no such slot, what is behind the table decides. -/
theorem sysKill_absent (h : ∀ p, (x.proc p).pid ≠ pid) :
    x.sysKill pid = .ok (if x.past.pid = pid ∧ x.past.killed = true then 0 else -1, x) := by
  have hkill : kill x.proc pid = none := kill_none.2 h
  have hfind : findPid x.proc pid = none := findPid_none.2 h
  unfold Ptable.sysKill
  rw [hkill, hfind]
  by_cases hpast : x.past.pid = pid
  · rw [if_neg (by simpa [Ptable.at] using hpast)]
    by_cases hkilled : x.past.killed = true
    · rw [if_pos ⟨hpast, hkilled⟩]
      show Except.ok (if x.past.killed = true then (0 : ℤ) else -1, x) = _
      rw [if_pos hkilled]
    · rw [if_neg fun h => hkilled h.2]
      show Except.ok (if x.past.killed = true then (0 : ℤ) else -1, x) = _
      rw [if_neg hkilled]
  · rw [if_pos (by simpa [Ptable.at] using hpast), if_neg fun h => hpast h.1]

/-- **A pid that no process has.** `kill` and `sys_kill` do nothing if and only if no `UNUSED` slot has the pid
either, and what is behind the table is not read as a killed process with this pid. -/
theorem kill_noop (x : Ptable) (pid : ℕ) (h : x.proc.Absent pid) :
    x.KillsNothing pid ↔ (∀ p, (x.proc p).state = .unused → (x.proc p).pid ≠ pid) ∧
      ¬ (x.past.pid = pid ∧ x.past.killed = true) := by
  have hall : (∀ p, (x.proc p).state = .unused → (x.proc p).pid ≠ pid) ↔ ∀ p, (x.proc p).pid ≠ pid := by
    refine ⟨fun hu p => ?_, fun hp p _ => hp p⟩
    by_cases hst : (x.proc p).state = .unused
    · exact hu p hst
    · exact h p hst
  rw [hall]
  constructor
  · intro hn
    have hp := kill_none.1 hn.kill
    refine ⟨hp, fun hpast => ?_⟩
    have hsys := hn.sysKill
    rw [sysKill_absent hp, if_pos hpast] at hsys
    cases hsys
  · rintro ⟨hp, hpast⟩
    refine ⟨kill_none.2 hp, ?_⟩
    rw [sysKill_absent hp, if_neg hpast]

/-- The table after `userinit`, with nothing behind it. -/
def Ptable.boot : Ptable := ⟨(Lwp.boot 1).proc, Proc.zero⟩

theorem kill_noop_seven : Ptable.boot.KillsNothing 7 := by
  have habsent : Ptable.boot.proc.Absent 7 := by decide +kernel
  refine (kill_noop Ptable.boot 7 habsent).2 ⟨?_, ?_⟩
  · decide +kernel
  · decide +kernel

/-- Init makes an LWP that calls `exit`, and waits for it. -/
def waitsForLwp : List (Event 1) :=
  [.sched 0 0, .threadCreate 0 true, .threadMap 0 true true, .threadReady 0, .yield 0, .sched 0 1, .exit 0,
    .sched 0 0, .wait 0]

/-- A table in which `kill` of the pid, which no process has, kills a free slot. -/
def Table.KillsFree (t : Table) (pid : ℕ) : Prop :=
  t.Absent pid ∧
    match kill t pid with
    | some (.ok t') => ∃ p, (t p).state = .unused ∧ (t p).killed = false ∧ (t' p).killed = true
    | _ => False

instance (t : Table) (pid : ℕ) : Decidable (t.KillsFree pid) := by
  unfold Table.KillsFree
  split <;> infer_instance

/-- A table in which `kill` of the pid, which no process has, follows a null pointer. -/
def Table.KillFaults (t : Table) (pid : ℕ) : Prop :=
  t.Absent pid ∧
    match kill t pid with
    | some (.error .nullDeref) => True
    | _ => False

instance (t : Table) (pid : ℕ) : Decidable (t.KillFaults pid) := by
  unfold Table.KillFaults
  split <;> infer_instance

/-- **`kill(0)` finds a free slot**: it returns 0 and marks the slot as killed, and when the slot is that of an LWP
that was waited for, it follows the null pointer to its parent. -/
theorem kill_zero : (∃ s, (machine 1).run (boot 1) [.sched 0 0] = some (.ok s) ∧ s.proc.KillsFree 0) ∧
    ∃ s, (machine 1).run (boot 1) waitsForLwp = some (.ok s) ∧ s.proc.KillFaults 0 :=
  ⟨Machine.run_of_reaches (by decide +kernel), Machine.run_of_reaches (by decide +kernel)⟩

/-! ## `setmemorylimit` -/

/-- The slots that `find_proc` reads. -/
def scanned (t : Table) (pid : ℕ) : List Slot :=
  match findPid t pid with
  | some p => (List.finRange NPROC).filter (· ≤ p)
  | none => List.finRange NPROC

/-- The result of a call, the table afterwards, and the pointers that it read and wrote through. -/
structure Outcome where
  result : ℤ
  table : Ptable
  read : List (Option Slot)
  written : List (Option Slot)

def Ptable.setmemorylimit (x : Ptable) (pid : ℕ) (limit : BitVec 32) : Outcome :=
  if BitVec.slt limit 0 then ⟨-1, x, [], []⟩
  else
    let p := findPid x.proc pid
    let read := (scanned x.proc pid).map some ++ [p]
    if (x.at p).pid ≠ pid then ⟨-1, x, read, []⟩
    else if limit < (x.at p).sz then ⟨-1, x, read, []⟩
    else ⟨0, x.upd p fun y => { y with memlim := limit }, read, [p]⟩

/-- The slot is the main thread of a process with this pid. -/
def Table.Process (t : Table) (pid : ℕ) (p : Slot) : Prop :=
  (t p).state ≠ .unused ∧ (t p).pid = pid ∧ (t p).isThread = false

instance (t : Table) (pid : ℕ) (p : Slot) : Decidable (t.Process pid p) := by unfold Table.Process; infer_instance

/-- The limit is at least the size, as numbers. -/
def Proc.Fits (y : Proc) (limit : BitVec 32) : Prop := (y.sz.toNat : ℤ) ≤ limit.toInt

instance (y : Proc) (limit : BitVec 32) : Decidable (y.Fits limit) := by unfold Proc.Fits; infer_instance

/-- The limit may be set: 0 is no limit. -/
def Proc.Allows (y : Proc) (limit : BitVec 32) : Prop := limit = 0 ∨ y.Fits limit

instance (y : Proc) (limit : BitVec 32) : Decidable (y.Allows limit) := by unfold Proc.Allows; infer_instance

/-- **What `setmemorylimit` is for.** -/
structure Limits (x : Ptable) (pid : ℕ) (limit : BitVec 32) (o : Outcome) : Prop where
  inside : none ∉ o.read
  result : o.result = 0 ∨ o.result = -1
  success : o.result = 0 ↔ ∃ p, x.proc.Process pid p ∧ (x.proc p).Allows limit
  set : o.result = 0 → ∃ p, x.proc.Process pid p ∧ (x.proc p).Allows limit ∧ o.written = [some p] ∧
    o.table = x.upd (some p) fun y => { y with memlim := limit }
  keep : o.result = -1 → o.written = [] ∧ o.table = x

/-- `setmemorylimit` finds the main thread, or it may refuse. -/
def Ptable.Served (x : Ptable) (pid : ℕ) (limit : BitVec 32) (p : Slot) : Prop :=
  if (x.proc p).Fits limit then x.proc.Process pid p
  else ∀ q, x.proc.Process pid q → ¬ (x.proc q).Allows limit

/-- A limit that is not negative is compared as it should be. -/
theorem fits_iff {y : Proc} (h : BitVec.slt limit 0 = false) : y.Fits limit ↔ ¬ limit < y.sz := by
  have hpos : 0 ≤ limit.toInt := by
    rw [BitVec.slt_eq_decide, decide_eq_false_iff_not] at h
    simpa using h
  have htoInt : limit.toInt = limit.toNat := by
    rw [BitVec.toInt_eq_toNat_cond] at hpos ⊢
    split
    · rfl
    · rename_i hlt
      rw [if_neg hlt] at hpos
      have := limit.isLt
      omega
  unfold Proc.Fits
  rw [htoInt, BitVec.lt_def]
  omega

/-- A negative limit is never set. -/
theorem not_allows {y : Proc} (h : BitVec.slt limit 0 = true) : ¬ y.Allows limit := by
  have hneg : limit.toInt < 0 := by
    rw [BitVec.slt_eq_decide, decide_eq_true_iff] at h
    simpa using h
  rintro (rfl | hfits)
  · simp at hneg
  · unfold Proc.Fits at hfits
    omega

/-- **`setmemorylimit`** does what it is for if and only if the limit is negative, or `find_proc` finds a slot, and the
limit is at least the size of that slot and it is the main thread of a live process, or the limit is below that size
and no process with the pid would allow it. -/
theorem setmemorylimit_exact (x : Ptable) (pid : ℕ) (limit : BitVec 32) :
    Limits x pid limit (x.setmemorylimit pid limit) ↔
      BitVec.slt limit 0 = true ∨ ∃ p, findPid x.proc pid = some p ∧ x.Served pid limit p := by
  cases hneg : BitVec.slt limit 0 with
  | true =>
    refine ⟨fun _ => .inl rfl, fun _ => ?_⟩
    have hcall : x.setmemorylimit pid limit = ⟨-1, x, [], []⟩ := by
      unfold Ptable.setmemorylimit
      rw [if_pos hneg]
    rw [hcall]
    refine ⟨by simp, .inr rfl, ⟨by simp, ?_⟩, by simp, fun _ => ⟨rfl, rfl⟩⟩
    rintro ⟨p, -, hallows⟩
    exact absurd hallows (not_allows hneg)
  | false =>
    have hcall : x.setmemorylimit pid limit =
        if (x.at (findPid x.proc pid)).pid ≠ pid then
          ⟨-1, x, (scanned x.proc pid).map some ++ [findPid x.proc pid], []⟩
        else if limit < (x.at (findPid x.proc pid)).sz then
          ⟨-1, x, (scanned x.proc pid).map some ++ [findPid x.proc pid], []⟩
        else ⟨0, x.upd (findPid x.proc pid) fun y => { y with memlim := limit },
          (scanned x.proc pid).map some ++ [findPid x.proc pid], [findPid x.proc pid]⟩ := by
      unfold Ptable.setmemorylimit
      rw [hneg]
      rfl
    cases hfind : findPid x.proc pid with
    | none =>
      -- one past the table is read
      refine ⟨fun h => ?_, by simp⟩
      have hread : none ∈ (x.setmemorylimit pid limit).read := by
        rw [hcall, hfind]
        split
        · simp
        · split <;> simp
      exact absurd hread h.inside
    | some p =>
      have hpid := findPid_some hfind
      have hserved : (∃ q, some p = some q ∧ x.Served pid limit q) ↔ x.Served pid limit p := by
        constructor
        · rintro ⟨q, ⟨⟩, hq⟩
          exact hq
        · exact fun hp => ⟨p, rfl, hp⟩
      have hat : x.at (some p) = x.proc p := rfl
      rw [hcall, hfind, hserved, hat, if_neg (by simpa using hpid)]
      simp only [Bool.false_eq_true, false_or]
      have hinside : none ∉ (scanned x.proc pid).map some ++ [some p] := by simp
      by_cases hlt : limit < (x.proc p).sz
      · rw [if_pos hlt]
        have hfits : ¬ (x.proc p).Fits limit := by
          rw [fits_iff hneg]
          exact not_not_intro hlt
        unfold Ptable.Served
        rw [if_neg hfits]
        constructor
        · intro h q hq hallows
          have hzero := h.success.2 ⟨q, hq, hallows⟩
          simp at hzero
        · intro hq
          refine ⟨hinside, .inr rfl, ⟨by simp, ?_⟩, by simp, fun _ => ⟨rfl, rfl⟩⟩
          rintro ⟨q, hproc, hallows⟩
          exact absurd hallows (hq q hproc)
      · rw [if_neg hlt]
        have hfits : (x.proc p).Fits limit := (fits_iff hneg).2 hlt
        unfold Ptable.Served
        rw [if_pos hfits]
        constructor
        · intro h
          obtain ⟨q, hq, -, hwritten, -⟩ := h.set rfl
          have hqp : p = q := by simpa using hwritten
          rwa [hqp]
        · intro hp
          have hallowed := And.intro hp (Or.inr hfits : (x.proc p).Allows limit)
          exact ⟨hinside, .inl rfl, ⟨fun _ => ⟨p, hallowed⟩, fun _ => rfl⟩,
            fun _ => ⟨p, hp, hallowed.2, rfl, rfl⟩, by simp⟩

/-- **No limit** cannot be set for a process that has memory. -/
theorem setmemorylimit_zero : ¬ Limits Ptable.boot 1 0 (Ptable.boot.setmemorylimit 1 0) := by
  intro h
  have hrefuses : (Ptable.boot.setmemorylimit 1 0).result = -1 := by decide +kernel
  have hprocess : Ptable.boot.proc.Process 1 0 := by decide +kernel
  have hzero := h.success.2 ⟨0, hprocess, .inl rfl⟩
  rw [hrefuses] at hzero
  cases hzero

/-- The two events of the machine are this call, as long as it does not leave the table. -/
theorem step_setmemorylimit {n : ℕ} {s s' : State n} {c : Fin n} (past : Proc)
    (h : step s (.setmemorylimit c pid limit) = some (.ok s')) :
    let o := (⟨s.proc, past⟩ : Ptable).setmemorylimit pid limit
    o.result = -1 ∧ s' = s ∧ o.table.proc = s.proc ∨
      o.result = 0 ∧ ∃ u, step s' (.limitStore c) = some (.ok u) ∧ u.proc = o.table.proc := by
  simp only [step] at h
  unfold Ptable.setmemorylimit
  split at h
  · rename_i hu
    split at h
    · rename_i hneg
      cases h
      rw [if_pos hneg]
      exact .inl ⟨rfl, rfl, rfl⟩
    · rename_i hneg
      rw [if_neg hneg]
      cases hfind : findPid s.proc pid with
      | none =>
        rw [hfind] at h
        cases h
      | some p =>
        rw [hfind] at h
        have hpid := findPid_some hfind
        have hat : (⟨s.proc, past⟩ : Ptable).at (some p) = s.proc p := rfl
        dsimp only at h ⊢
        rw [hat, if_neg (by simpa using hpid)]
        split at h
        · rename_i hlt
          cases h
          rw [if_pos hlt]
          exact .inl ⟨rfl, rfl, rfl⟩
        · rename_i hlt
          cases h
          rw [if_neg hlt]
          obtain ⟨q, hq⟩ := Option.isSome_iff_exists.1 hu
          have hcur : (s.setFrame c ⟨.limit p limit, false⟩).current c = some (q, ⟨.limit p limit, false⟩) :=
            current_setFrame (current_some (user_some hq)).1 _ rfl rfl
          refine .inr ⟨rfl, { s.setFrame c ⟨.limit p limit, false⟩ with
            proc := s.proc.upd p fun x => { x with memlim := limit } }.setFrame c .idle, ?_, rfl⟩
          simp only [step, hcur]
          rfl
  · cases h

end Xv6.Lwp
