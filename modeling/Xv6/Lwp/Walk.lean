import Xv6.Lwp.Sane

/-!
# `kill_thread`, one slot at a time

`exec` calls `kill_thread` without `ptable.lock`, and every test and every `recovery` of a slot is an event of its own
there. When nothing else runs in between, they do what the function does (`killThread_walk`).
-/

namespace Xv6.Lwp

variable {n : ℕ} {s : State n} {c : Fin n} {p : Slot} {d : Dir}

/-- The state in the middle of the walk, with table `t`. -/
def State.walk (s : State n) (c : Fin n) (d : Dir) (t : Table) (w : Walk) : State n :=
  { s with proc := t }.setFrame c ⟨.killThread d w, true⟩

/-- And after it. -/
def State.walked (s : State n) (c : Fin n) (d : Dir) (t : Table) : State n :=
  { s with proc := t }.setFrame c ⟨.exec false (some d), true⟩

theorem walk_setFrame (t : Table) (w : Walk) (f : Frame) :
    (s.walk c d t w).setFrame c f = { s with proc := t }.setFrame c f := by
  simp only [State.walk, State.setFrame, Function.update_idem]

theorem walk_step (hp : (s.cpu c).proc = some p) (t : Table) (w : Walk) :
    step (s.walk c d t w) (.execKill c) = some ((s.walk c d t w).killStep c p d w) := by
  have hcur : (s.walk c d t w).current c = some (p, ⟨.killThread d w, true⟩) := by
    simp only [State.current, State.walk, State.setFrame, hp, Function.update_self, Option.map_some]
  simp only [step, hcur]

/-- The body of both loops. -/
def killBody (lwp : Bool) (p : Slot) (t : Table) (child : Slot) : Except Fault Table :=
  if lwp then killSibling p t child else killChild p t child

theorem killBody_test {lwp : Bool} {t : Table} {child : Slot} (h : t.Test lwp p child) :
    killBody lwp p t child = recovery (t.upd child fun x => { x with killed := true }) child := by
  cases lwp with
  | false => exact if_pos h
  | true => exact if_pos h

theorem killBody_pass {lwp : Bool} {t : Table} {child : Slot} (h : ¬ t.Test lwp p child) :
    killBody lwp p t child = .ok t := by
  cases lwp with
  | false => exact if_neg h
  | true => exact if_neg h

/-- A slot that does not pass the test. -/
theorem walk_pass {lwp : Bool} {t : Table} {child : Slot} (rest : List Slot) (hp : (s.cpu c).proc = some p)
    (h : ¬ t.Test lwp p child) : (machine n).step (s.walk c d t (.loop lwp (child :: rest))) (.execKill c) =
      some (.ok (s.walk c d t (.loop lwp rest))) := by
  refine (walk_step hp t _).trans ?_
  have htest : ¬ (s.walk c d t (.loop lwp (child :: rest))).proc.Test lwp p child := h
  simp only [State.killStep, if_neg htest, walk_setFrame]
  rfl

/-- One that does. -/
theorem walk_hit {lwp : Bool} {t : Table} {child : Slot} (rest : List Slot) (hp : (s.cpu c).proc = some p)
    (h : t.Test lwp p child) : (machine n).step (s.walk c d t (.loop lwp (child :: rest))) (.execKill c) =
      some (.ok (s.walk c d t (.hit lwp child rest))) := by
  refine (walk_step hp t _).trans ?_
  have htest : (s.walk c d t (.loop lwp (child :: rest))).proc.Test lwp p child := h
  simp only [State.killStep, if_pos htest, walk_setFrame]
  rfl

theorem walk_recover {lwp : Bool} {t : Table} {child : Slot} (rest : List Slot) (hp : (s.cpu c).proc = some p)
    (h : t.Test lwp p child) : (machine n).step (s.walk c d t (.hit lwp child rest)) (.execKill c) =
      some ((killBody lwp p t child).map fun t => s.walk c d t (.loop lwp rest)) := by
  refine (walk_step hp t _).trans ?_
  rw [killBody_test h]
  have hset : ∀ u : Table, { s.walk c d t (.hit lwp child rest) with proc := u }.setFrame c
      ⟨.killThread d (.loop lwp rest), true⟩ = s.walk c d u (.loop lwp rest) := fun u => by
    simp only [State.walk, State.setFrame, Function.update_idem]
  simp only [State.killStep, hset]
  rfl

/-- **A loop**, slot by slot. -/
theorem walk_loop (hp : (s.cpu c).proc = some p) (lwp : Bool) (rest : List Slot) (t : Table) :
    ∃ k, (machine n).run (s.walk c d t (.loop lwp rest)) (List.replicate k (.execKill c)) =
      some ((rest.foldlM (killBody lwp p) t).map fun t => s.walk c d t (.loop lwp [])) := by
  induction rest generalizing t with
  | nil => exact ⟨0, rfl⟩
  | cons child rest ih =>
    by_cases htest : t.Test lwp p child
    · have hhit := walk_hit (d := d) rest hp htest
      have hrec := walk_recover (d := d) rest hp htest
      cases hbody : killBody lwp p t child with
      | error f =>
        rw [hbody] at hrec
        refine ⟨2, (Machine.run_cons hhit _).trans ?_⟩
        rw [List.foldlM_cons, hbody]
        simp only [List.replicate, Machine.run, hrec]
        rfl
      | ok u =>
        rw [hbody] at hrec
        obtain ⟨k, hk⟩ := ih u
        refine ⟨k + 2, (Machine.run_cons hhit _).trans ((Machine.run_cons hrec _).trans ?_)⟩
        rw [List.foldlM_cons, hbody]
        exact hk
    · have hpass := walk_pass (d := d) rest hp htest
      obtain ⟨k, hk⟩ := ih t
      refine ⟨k + 1, (Machine.run_cons hpass _).trans ?_⟩
      rw [List.foldlM_cons, killBody_pass htest]
      exact hk

/-! ## The end of the walk -/

/-- What `kill_thread` does for an LWP after its loop. -/
def killHeir (t : Table) (p : Slot) : Except Fault Table :=
  match (t p).parent with
  | none => .error .nullDeref
  | some m =>
    let t := t.upd m fun x => { x with killed := true }
    let t := t.upd p fun x => { x with isThread := false, parent := (t m).parent }
    match (t p).parent with
    | none => .error .nullDeref
    | some g => recovery t g

theorem killThread_lwp_eq {t : Table} (h : (t p).isThread = true) :
    killThread t p = (List.finRange NPROC).foldlM (killSibling p) t >>= fun t => killHeir t p := by
  unfold killThread
  rw [if_neg (by simp [h])]
  rfl

theorem walk_end (hp : (s.cpu c).proc = some p) (t : Table) :
    (machine n).step (s.walk c d t (.loop false [])) (.execKill c) = some (.ok (s.walked c d t)) := by
  refine (walk_step hp t _).trans ?_
  simp only [State.killStep, walk_setFrame]
  rfl

/-- The three events of an LWP with its parents. -/
theorem walk_heir (hp : (s.cpu c).proc = some p) (t : Table) :
    ∃ k, (machine n).run (s.walk c d t (.loop true [])) (List.replicate k (.execKill c)) =
      some ((killHeir t p).map (s.walked c d)) := by
  unfold killHeir
  -- the first
  have hmark := walk_step (d := d) hp t (.loop true [])
  have hpar : ((s.walk c d t (.loop true [])).proc p).parent = (t p).parent := rfl
  simp only [State.killStep, hpar] at hmark
  cases hm : (t p).parent with
  | none =>
    rw [hm] at hmark
    exact ⟨1, by simp only [List.replicate, Machine.run, machine, hmark]; rfl⟩
  | some m =>
    rw [hm] at hmark
    dsimp only
    generalize ht₁ : (t.upd m fun x => { x with killed := true }) = t₁
    have hmark' : (machine n).step (s.walk c d t (.loop true [])) (.execKill c) = some (.ok (s.walk c d t₁ .marked)) := by
      refine hmark.trans ?_
      simp only [State.walk, State.setFrame, Function.update_idem, ht₁]
    have hpar₁ : (t₁ p).parent = some m := by
      rw [← ht₁, ← hm]
      exact upd_field Proc.parent t m p _ rfl
    -- the second
    generalize ht₂ : (t₁.upd p fun x => { x with isThread := false, parent := (t₁ m).parent }) = t₂
    have hheir : (machine n).step (s.walk c d t₁ .marked) (.execKill c) = some (.ok (s.walk c d t₂ .heir)) := by
      have hstep := walk_step (d := d) hp t₁ .marked
      have hw : ((s.walk c d t₁ .marked).proc p).parent = some m := hpar₁
      simp only [State.killStep, hw] at hstep
      refine hstep.trans ?_
      rw [← ht₂]
      simp only [State.walk, State.setFrame, Function.update_idem]
    -- the third
    have hlast := walk_step (d := d) hp t₂ .heir
    have hpar₂ : ((s.walk c d t₂ .heir).proc p).parent = (t₂ p).parent := rfl
    simp only [State.killStep, hpar₂] at hlast
    cases hg : (t₂ p).parent with
    | none =>
      rw [hg] at hlast
      refine ⟨3, (Machine.run_cons hmark' _).trans ((Machine.run_cons hheir _).trans ?_)⟩
      simp only [List.replicate, Machine.run, machine, hlast]
      rfl
    | some g =>
      rw [hg] at hlast
      refine ⟨3, (Machine.run_cons hmark' _).trans ((Machine.run_cons hheir _).trans ?_)⟩
      have hset : ∀ u : Table, { s.walk c d t₂ .heir with proc := u }.setFrame c ⟨.exec false (some d), true⟩ =
          s.walked c d u := fun u => by
        simp only [State.walk, State.walked, State.setFrame, Function.update_idem]
      have hrec : (s.walk c d t₂ .heir).proc = t₂ := rfl
      simp only [hset, hrec] at hlast
      simp only [List.replicate, Machine.run, machine, hlast]
      cases recovery t₂ g with
      | error f => rfl
      | ok u => rfl

/-- **The walk alone is `kill_thread`.** -/
theorem killThread_walk (hp : (s.cpu c).proc = some p) :
    ∃ k, (machine n).run (s.walk c d s.proc (.loop (s.proc p).isThread (List.finRange NPROC)))
      (List.replicate k (.execKill c)) = some ((killThread s.proc p).map (s.walked c d)) := by
  obtain ⟨k, hk⟩ := walk_loop (d := d) hp (s.proc p).isThread (List.finRange NPROC) s.proc
  cases hth : (s.proc p).isThread with
  | false =>
    have hloop : killThread s.proc p = (List.finRange NPROC).foldlM (killBody false p) s.proc := by
      unfold killThread
      rw [if_pos hth]
      rfl
    rw [hth] at hk
    rw [hloop]
    cases hres : (List.finRange NPROC).foldlM (killBody false p) s.proc with
    | error f =>
      rw [hres] at hk
      exact ⟨k, hk⟩
    | ok t =>
      rw [hres] at hk
      refine ⟨k + 1, ?_⟩
      rw [List.replicate_succ']
      exact (Machine.run_snoc ..).2 ⟨_, hk, walk_end hp t⟩
  | true =>
    have hloop : killThread s.proc p = (List.finRange NPROC).foldlM (killBody true p) s.proc >>= fun t => killHeir t p :=
      killThread_lwp_eq hth
    rw [hth] at hk
    rw [hloop]
    cases hres : (List.finRange NPROC).foldlM (killBody true p) s.proc with
    | error f =>
      rw [hres] at hk
      exact ⟨k, hk⟩
    | ok t =>
      rw [hres] at hk
      obtain ⟨j, hj⟩ := walk_heir (d := d) hp t
      refine ⟨k + j, ?_⟩
      rw [List.replicate_add]
      exact (Machine.run_append hk).trans hj

end Xv6.Lwp
