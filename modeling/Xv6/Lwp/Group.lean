import Xv6.Lwp.Model

/-!
# What `kill` and `exec` do to a thread group

`kill_thread` recovers the LWPs whose `parent` is the process, when that is a main
thread. For an LWP it recovers the other LWPs of its parent and then, since `p->parent`
was overwritten, the parent's parent.

* `killThread_main`, `killThread_lwp`: the table after `kill_thread`, slot by slot.
* `kill_exec_exact`: `kill` and `exec` affect exactly the group of a process if and only
  if the slots that `kill_thread` recovers or marks belong to it, and every other member
  is one of them or is gone already (`Hits`).
* `lwp_exec_frees_parent`: an LWP that calls `exec` frees the parent of its process.
-/

namespace Xv6.Lwp

variable {t t' : Table} {p q p₀ : Slot}

@[simp] theorem upd_self (t : Table) (p : Slot) (f : Proc → Proc) : (t.upd p f) p = f (t p) := by
  simp [Table.upd]

@[simp] theorem upd_ne (t : Table) {p q : Slot} (h : q ≠ p) (f : Proc → Proc) : (t.upd p f) q = t q := by
  simp [Table.upd, h]

theorem upd_apply (t : Table) (p q : Slot) (f : Proc → Proc) :
    (t.upd p f) q = if q = p then f (t q) else t q := by
  by_cases h : q = p
  · rw [h, upd_self, if_pos rfl]
  · rw [upd_ne t h, if_neg h]

/-! ## The loops of `kill_thread` -/

/-- The slots of `C` recovered. -/
def Table.sweep (t : Table) (C : Slot → Prop) [DecidablePred C] : Table := fun q =>
  if C q then (t q).recovered else t q

theorem sibling_irrefl (t : Table) (p : Slot) : ¬ t.Sibling p p := fun h => h.2.2 rfl

theorem recovery_killed (t : Table) (q : Slot) :
    recovery (t.upd q fun x => { x with killed := true }) q =
      if (t q).kstack = none then .error .kfree else .ok (t.upd q Proc.recovered) := by
  unfold recovery
  rw [upd_self]
  congr 2
  funext x
  by_cases hx : x = q
  · subst hx; simp [Proc.recovered]
  · rw [upd_ne _ hx, upd_ne _ hx, upd_ne _ hx]

/-- A loop that recovers the slots that meet `C`, when recovering one of them does not
change which of the others do. -/
theorem sweep_loop {C : Table → Slot → Prop} [∀ t, DecidablePred (C t)]
    {b : Table → Slot → Except Fault Table}
    (hbody : ∀ t q, b t q =
      if C t q then recovery (t.upd q fun x => { x with killed := true }) q else .ok t)
    (hC : ∀ t q x, C t q → x ≠ q → (C (t.upd q Proc.recovered) x ↔ C t x))
    {l : List Slot} (hl : l.Nodup) (t : Table) :
    l.foldlM b t = if ∀ q ∈ l, C t q → (t q).kstack ≠ none then
      .ok (t.sweep fun q => q ∈ l ∧ C t q) else .error .kfree := by
  induction l generalizing t with
  | nil =>
    rw [if_pos (by simp)]
    have hsweep : (t.sweep fun q => q ∈ ([] : List Slot) ∧ C t q) = t := by
      funext x; simp [Table.sweep]
    rw [hsweep]
    rfl
  | cons q l ih =>
    obtain ⟨hq, hl⟩ := List.nodup_cons.1 hl
    have hne : ∀ x ∈ l, x ≠ q := fun x hx hxq => hq (hxq ▸ hx)
    rw [List.foldlM_cons, hbody, recovery_killed]
    by_cases hc : C t q
    · rw [if_pos hc]
      by_cases hk : (t q).kstack = none
      · rw [if_pos hk, if_neg fun h => h q (by simp) hc hk]
        rfl
      · rw [if_neg hk]
        show List.foldlM b (t.upd q Proc.recovered) l = _
        rw [ih hl]
        -- the rest of the loop sees the same slots
        have hiff : (∀ x ∈ l, C (t.upd q Proc.recovered) x → ((t.upd q Proc.recovered) x).kstack ≠ none) ↔
            ∀ x ∈ q :: l, C t x → (t x).kstack ≠ none := by
          constructor
          · intro h x hx hcx
            rcases List.mem_cons.1 hx with rfl | hx
            · exact hk
            · have := h x hx ((hC t q x hc (hne x hx)).2 hcx)
              rwa [upd_ne _ (hne x hx)] at this
          · intro h x hx hcx
            rw [upd_ne _ (hne x hx)]
            exact h x (List.mem_cons_of_mem _ hx) ((hC t q x hc (hne x hx)).1 hcx)
        have hsweep : ((t.upd q Proc.recovered).sweep fun x => x ∈ l ∧ C (t.upd q Proc.recovered) x) =
            t.sweep fun x => x ∈ q :: l ∧ C t x := by
          funext x
          unfold Table.sweep
          by_cases hx : x = q
          · subst hx
            rw [if_neg fun h => hq h.1, if_pos ⟨by simp, hc⟩, upd_self]
          · simp only [List.mem_cons, hx, false_or, hC t q x hc hx, upd_ne _ hx]
        rw [hsweep]
        exact if_congr hiff rfl rfl
    · rw [if_neg hc]
      show List.foldlM b t l = _
      rw [ih hl]
      have hiff : (∀ x ∈ l, C t x → (t x).kstack ≠ none) ↔ ∀ x ∈ q :: l, C t x → (t x).kstack ≠ none := by
        simp [hc]
      have hsweep : (t.sweep fun x => x ∈ l ∧ C t x) = t.sweep fun x => x ∈ q :: l ∧ C t x := by
        funext x
        unfold Table.sweep
        by_cases hx : x = q
        · subst hx; simp [hc]
        · simp [hx]
      rw [hsweep]
      exact if_congr hiff rfl rfl

theorem killChild_loop (t : Table) (p : Slot) : (List.finRange NPROC).foldlM (killChild p) t =
    if ∀ q, t.Child p q → (t q).kstack ≠ none then .ok (t.sweep (t.Child p)) else .error .kfree := by
  rw [sweep_loop (C := fun t q => t.Child p q) (b := killChild p) (fun _ _ => rfl) ?_
    (List.nodup_finRange _)]
  · have hall : (t.sweep fun q => q ∈ List.finRange NPROC ∧ t.Child p q) = t.sweep (t.Child p) := by
      funext q; simp [Table.sweep, List.mem_finRange]
    rw [hall]
    exact if_congr (by simp [List.mem_finRange]) rfl rfl
  · intro t q x hc hx
    unfold Table.Child
    rw [upd_ne _ hx]

theorem killSibling_loop (t : Table) (p : Slot) : (List.finRange NPROC).foldlM (killSibling p) t =
    if ∀ q, t.Sibling p q → (t q).kstack ≠ none then .ok (t.sweep (t.Sibling p)) else .error .kfree := by
  rw [sweep_loop (C := fun t q => t.Sibling p q) (b := killSibling p) (fun _ _ => rfl) ?_
    (List.nodup_finRange _)]
  · have hall : (t.sweep fun q => q ∈ List.finRange NPROC ∧ t.Sibling p q) = t.sweep (t.Sibling p) := by
      funext q; simp [Table.sweep, List.mem_finRange]
    rw [hall]
    exact if_congr (by simp [List.mem_finRange]) rfl rfl
  · intro t q x hc hx
    have hp : p ≠ q := by rintro rfl; exact sibling_irrefl t _ hc
    unfold Table.Sibling
    rw [upd_ne _ hx, upd_ne _ hp]

/-! ## `kill_thread` -/

/-- The parent of the parent. -/
def Table.Grandparent (t : Table) (p q : Slot) : Prop := ∃ m, (t p).parent = some m ∧ (t m).parent = some q

/-- The slots that `kill_thread` recovers. -/
def Table.Victim (t : Table) (p q : Slot) : Prop :=
  if (t p).isThread = false then t.Child p q else t.Sibling p q ∨ t.Grandparent p q

/-- The main thread whose `killed` is set. -/
def Table.Marked (t : Table) (p q : Slot) : Prop := (t p).isThread = true ∧ (t p).parent = some q

instance (t : Table) (p q : Slot) : Decidable (t.Grandparent p q) := by
  unfold Table.Grandparent; infer_instance

instance (t : Table) (p q : Slot) : Decidable (t.Victim p q) := by
  unfold Table.Victim; infer_instance

instance (t : Table) (p q : Slot) : Decidable (t.Marked p q) := by
  unfold Table.Marked; infer_instance

theorem killThread_main (h : (t p).isThread = false) :
    killThread t p = if ∀ q, t.Child p q → (t q).kstack ≠ none then .ok (t.sweep (t.Child p))
      else .error .kfree := by
  rw [killThread, if_pos h, killChild_loop]

/-- The table that `kill_thread` leaves for an LWP. -/
def Table.heir (t : Table) (p m g : Slot) : Table :=
  (((t.sweep (t.Sibling p)).upd m fun x => { x with killed := true }).upd p fun x =>
    { x with isThread := false, parent := some g }).upd g Proc.recovered

theorem killThread_lwp (h : (t p).isThread = true) : killThread t p = .ok t' ↔
    ∃ m g, (t p).parent = some m ∧ (t m).parent = some g ∧ ¬ t.Sibling p m ∧ ¬ t.Sibling p g ∧
      (∀ q, t.Victim p q → (t q).kstack ≠ none) ∧ t' = t.heir p m g := by
  have hv : ∀ q, t.Victim p q ↔ t.Sibling p q ∨ t.Grandparent p q := by
    intro q; unfold Table.Victim; rw [if_neg (by simp [h])]
  have hp : t.sweep (t.Sibling p) p = t p := if_neg (sibling_irrefl t p)
  rw [killThread, if_neg (by simp [h]), killSibling_loop]
  by_cases hsib : ∀ q, t.Sibling p q → (t q).kstack ≠ none
  · rw [if_pos hsib]
    simp only [bind, Except.bind]
    rw [hp]
    cases hm : (t p).parent with
    | none => simp
    | some m =>
      dsimp only
      rw [upd_self, upd_self]
      -- the parent of the main thread is lost if it was swept away
      have hpar : (t.sweep (t.Sibling p) m).parent = if t.Sibling p m then none else (t m).parent := by
        unfold Table.sweep; split <;> rfl
      rw [hpar]
      by_cases hsm : t.Sibling p m
      · simp [hsm]
      · rw [if_neg hsm]
        cases hg : (t m).parent with
        | none => simp [hg]
        | some g =>
          dsimp only
          have hkg : ((((t.sweep (t.Sibling p)).upd m fun x => { x with killed := true }).upd p fun x =>
              { x with isThread := false, parent := some g }) g).kstack =
                if t.Sibling p g then none else (t g).kstack := by
            have hs : ((t.sweep (t.Sibling p)) g).kstack = if t.Sibling p g then none else (t g).kstack := by
              unfold Table.sweep; split <;> rfl
            rw [← hs, upd_apply, upd_apply]
            split <;> split <;> rfl
          unfold recovery
          rw [hkg]
          by_cases hsg : t.Sibling p g
          · simp [hsg, hg]
          · rw [if_neg hsg]
            by_cases hk : (t g).kstack = none
            · rw [if_pos hk]
              simp only [reduceCtorEq, false_iff]
              rintro ⟨m', g', hm', hg', -, -, hall, -⟩
              cases hm'
              rw [hg] at hg'
              cases hg'
              exact hall g ((hv g).2 (.inr ⟨m, hm, hg⟩)) hk
            · rw [if_neg hk]
              constructor
              · intro ht
                refine ⟨m, g, rfl, hg, hsm, hsg, ?_, (Except.ok.inj ht).symm⟩
                intro q hq
                rcases (hv q).1 hq with hq | ⟨m', hm', hg'⟩
                · exact hsib q hq
                · rw [hm] at hm'; cases hm'
                  rw [hg] at hg'; cases hg'
                  exact hk
              · rintro ⟨m', g', hm', hg', -, -, -, rfl⟩
                cases hm'
                rw [hg] at hg'
                cases hg'
                rfl
  · rw [if_neg hsib]
    refine ⟨fun ht => (by cases ht), ?_⟩
    rintro ⟨m, g, -, -, -, -, hall, -⟩
    exact absurd (fun q hq => hall q ((hv q).2 (.inl hq))) hsib

/-- `kill_thread` does not panic. -/
structure Killable (t : Table) (p : Slot) : Prop where
  kstack : ∀ q, t.Victim p q → (t q).kstack ≠ none
  /-- an LWP has a grandparent, and neither that nor its parent is swept away before it is used -/
  parents : (t p).isThread = true → ∃ m g, (t p).parent = some m ∧ (t m).parent = some g ∧
    ¬ t.Sibling p m ∧ ¬ t.Sibling p g

/-- What `kill_thread` for `p` does to each slot. -/
structure Killed (t t' : Table) (p : Slot) : Prop where
  victim : ∀ q, t.Victim p q → t' q = (t q).recovered
  marked : ∀ q, q ≠ p → ¬ t.Victim p q → t.Marked p q → t' q = { t q with killed := true }
  other : ∀ q, q ≠ p → ¬ t.Victim p q → ¬ t.Marked p q → t' q = t q
  /-- an LWP becomes the main thread -/
  self : ¬ t.Victim p p → ∃ pr kl, t' p = { t p with isThread := false, parent := pr, killed := kl }

theorem heir_killed {m g : Slot} (h : (t p).isThread = true) (hm : (t p).parent = some m)
    (hg : (t m).parent = some g) (hsm : ¬ t.Sibling p m) (hsg : ¬ t.Sibling p g) :
    Killed t (t.heir p m g) p := by
  have hsp : ¬ t.Sibling p p := sibling_irrefl t p
  have hv : ∀ q, t.Victim p q ↔ t.Sibling p q ∨ q = g := by
    intro q
    unfold Table.Victim Table.Grandparent
    rw [if_neg (by simp [h])]
    constructor
    · rintro (hs | ⟨m', hm', hg'⟩)
      · exact .inl hs
      · rw [hm] at hm'; cases hm'
        rw [hg] at hg'; cases hg'
        exact .inr rfl
    · rintro (hs | rfl)
      · exact .inl hs
      · exact .inr ⟨m, hm, hg⟩
  have hmk : ∀ q, t.Marked p q ↔ q = m := by
    intro q; unfold Table.Marked; rw [hm]; simp [h, eq_comm]
  have hsweep : ∀ q, ¬ t.Sibling p q → t.sweep (t.Sibling p) q = t q := fun q hq => if_neg hq
  constructor
  · intro q hq
    rcases (hv q).1 hq with hs | rfl
    · have hqm : q ≠ m := by rintro rfl; exact hsm hs
      have hqp : q ≠ p := by rintro rfl; exact hsp hs
      have hqg : q ≠ g := by rintro rfl; exact hsg hs
      rw [Table.heir, upd_ne _ hqg, upd_ne _ hqp, upd_ne _ hqm]
      exact if_pos hs
    · rw [Table.heir, upd_self, upd_apply, upd_apply, hsweep q hsg]
      split <;> split <;> rfl
  · intro q hqp hq hqm
    obtain rfl := (hmk q).1 hqm
    have hqg : q ≠ g := fun e => hq ((hv q).2 (.inr e))
    rw [Table.heir, upd_ne _ hqg, upd_ne _ hqp, upd_self, hsweep q hsm]
  · intro q hqp hq hqm
    have hqg : q ≠ g := fun e => hq ((hv q).2 (.inr e))
    have hqm' : q ≠ m := fun e => hqm ((hmk q).2 e)
    rw [Table.heir, upd_ne _ hqg, upd_ne _ hqp, upd_ne _ hqm', hsweep q fun e => hq ((hv q).2 (.inl e))]
  · intro hp
    have hpg : p ≠ g := fun e => hp ((hv p).2 (.inr e))
    refine ⟨some g, (t p).killed || decide (p = m), ?_⟩
    rw [Table.heir, upd_ne _ hpg, upd_self, upd_apply, hsweep p hsp]
    by_cases hpm : p = m
    · rw [if_pos hpm, decide_eq_true hpm, Bool.or_true]
    · rw [if_neg hpm, decide_eq_false hpm, Bool.or_false]

/-- **`kill_thread`, slot by slot.** -/
theorem killThread_killed (h : killThread t p = .ok t') : Killed t t' p := by
  by_cases hp : (t p).isThread = false
  · rw [killThread_main hp] at h
    split at h
    · cases h
      have hv : ∀ q, t.Victim p q ↔ t.Child p q := by
        intro q; unfold Table.Victim; rw [if_pos hp]
      have hmk : ∀ q, ¬ t.Marked p q := by
        intro q hq; have := hq.1; rw [hp] at this; cases this
      constructor
      · exact fun q hq => if_pos ((hv q).1 hq)
      · exact fun q _ _ hq => absurd hq (hmk q)
      · exact fun q _ hq _ => if_neg fun e => hq ((hv q).2 e)
      · intro hq
        refine ⟨(t p).parent, (t p).killed, ?_⟩
        rw [← hp]
        exact if_neg fun e => hq ((hv p).2 e)
    · cases h
  · have hp : (t p).isThread = true := by simpa using hp
    obtain ⟨m, g, hm, hg, hsm, hsg, -, rfl⟩ := (killThread_lwp hp).1 h
    exact heir_killed hp hm hg hsm hsg

theorem Killed.kstack_or (hk : Killed t t' p) (q : Slot) :
    (t' q).kstack = (t q).kstack ∨ (t' q).kstack = none := by
  by_cases hv : t.Victim p q
  · rw [hk.victim q hv]; exact .inr rfl
  · by_cases hqp : q = p
    · subst hqp
      obtain ⟨pr, kl, he⟩ := hk.self hv
      rw [he]
      exact .inl rfl
    · by_cases hm : t.Marked p q
      · rw [hk.marked q hqp hv hm]; exact .inl rfl
      · rw [hk.other q hqp hv hm]; exact .inl rfl

theorem killThread_isOk : (∃ t', killThread t p = .ok t') ↔ Killable t p := by
  by_cases hp : (t p).isThread = false
  · have hv : ∀ q, t.Victim p q ↔ t.Child p q := by
      intro q; unfold Table.Victim; rw [if_pos hp]
    rw [killThread_main hp]
    constructor
    · rintro ⟨t', h⟩
      split at h
      · rename_i hall
        exact ⟨fun q hq => hall q ((hv q).1 hq), fun h => absurd h (by simp [hp])⟩
      · cases h
    · intro hk
      exact ⟨_, if_pos fun q hq => hk.kstack q ((hv q).2 hq)⟩
  · have hp : (t p).isThread = true := by simpa using hp
    constructor
    · rintro ⟨t', h⟩
      obtain ⟨m, g, hm, hg, hsm, hsg, hall, -⟩ := (killThread_lwp hp).1 h
      exact ⟨hall, fun _ => ⟨m, g, hm, hg, hsm, hsg⟩⟩
    · intro hk
      obtain ⟨m, g, hm, hg, hsm, hsg⟩ := hk.parents hp
      exact ⟨_, (killThread_lwp hp).2 ⟨m, g, hm, hg, hsm, hsg, hk.kstack, rfl⟩⟩

/-! ## Exactly the group -/

/-- The slot is in use by a process of the group of `p`. -/
def Table.Member (t : Table) (p q : Slot) : Prop := (t q).state ≠ .unused ∧ (t q).pid = (t p).pid

/-- Terminated, or marked to be. -/
def Proc.Gone (x : Proc) : Prop := x.state = .unused ∨ x.state = .zombie ∨ x.killed = true

/-- Every other member of the group of `p` is terminated or marked killed, and no other
process is touched. -/
structure ExactGroup (t t' : Table) (p : Slot) : Prop where
  group : ∀ q, q ≠ p → t.Member p q → (t' q).Gone
  others : ∀ q, (t q).state ≠ .unused → (t q).pid ≠ (t p).pid → (t' q).state = (t q).state ∧
    (t' q).parent = (t q).parent ∧ (t' q).killed = (t q).killed ∧ (t' q).kstack = (t q).kstack ∧
    (t' q).pid = (t q).pid

/-- `kill_thread` for `p₀` hits the group of `p`: it does not panic, what it recovers or
marks is in the group, and what is in the group it recovers or marks, unless it is
`p₀`, `p`, or gone already. -/
structure Hits (t : Table) (p₀ p : Slot) : Prop where
  killable : Killable t p₀
  victims : ∀ q, (t q).state ≠ .unused → t.Victim p₀ q → (t q).pid = (t p).pid
  marked : ∀ q, (t q).state ≠ .unused → t.Marked p₀ q → (t q).pid = (t p).pid ∨ (t q).killed = true
  members : ∀ q, q ≠ p₀ → q ≠ p → t.Member p q → t.Victim p₀ q ∨ t.Marked p₀ q ∨ (t q).Gone

/-- After `kill_thread` for `p₀`, when `p₀` itself is marked or is `p`. -/
theorem exactGroup_iff {t₁ : Table} (hk : Killed t t₁ p₀) (hpid : (t p₀).pid = (t p).pid)
    (hne : ∀ q, q ≠ p₀ → t' q = t₁ q) (hself : p₀ ≠ p → (t' p₀).Gone) : ExactGroup t t' p ↔
      (∀ q, (t q).state ≠ .unused → t.Victim p₀ q → (t q).pid = (t p).pid) ∧
      (∀ q, (t q).state ≠ .unused → t.Marked p₀ q → (t q).pid = (t p).pid ∨ (t q).killed = true) ∧
      (∀ q, q ≠ p₀ → q ≠ p → t.Member p q → t.Victim p₀ q ∨ t.Marked p₀ q ∨ (t q).Gone) := by
  constructor
  · intro h
    refine ⟨fun q hq hv => ?_, fun q hq hm => ?_, fun q hq₀ hqp hq => ?_⟩
    · -- a recovered process of another group loses its state
      by_contra hpq
      have hq₀ : q ≠ p₀ := by rintro rfl; exact hpq hpid
      have := (h.others q hq hpq).1
      rw [hne q hq₀, hk.victim q hv] at this
      exact hq this.symm
    · by_cases hpq : (t q).pid = (t p).pid
      · exact .inl hpq
      · right
        have hq₀ : q ≠ p₀ := by rintro rfl; exact hpq hpid
        obtain ⟨hst, -, hkl, -⟩ := h.others q hq hpq
        rw [hne q hq₀] at hst hkl
        by_cases hv : t.Victim p₀ q
        · rw [hk.victim q hv] at hst
          exact absurd hst.symm hq
        · rw [hk.marked q hq₀ hv hm] at hkl
          exact hkl.symm
    · by_cases hv : t.Victim p₀ q
      · exact .inl hv
      · by_cases hm : t.Marked p₀ q
        · exact .inr (.inl hm)
        · have := h.group q hqp hq
          rw [hne q hq₀, hk.other q hq₀ hv hm] at this
          exact .inr (.inr this)
  · rintro ⟨hvict, hmark, hmem⟩
    constructor
    · intro q hqp hq
      by_cases hq₀ : q = p₀
      · subst hq₀; exact hself hqp
      · rw [hne q hq₀]
        by_cases hv : t.Victim p₀ q
        · rw [hk.victim q hv]; exact .inl rfl
        · by_cases hm : t.Marked p₀ q
          · rw [hk.marked q hq₀ hv hm]; exact .inr (.inr rfl)
          · rw [hk.other q hq₀ hv hm]
            rcases hmem q hq₀ hqp hq with h | h | h
            · exact absurd h hv
            · exact absurd h hm
            · exact h
    · intro q hq hpq
      have hq₀ : q ≠ p₀ := by rintro rfl; exact hpq hpid
      have hv : ¬ t.Victim p₀ q := fun hv => hpq (hvict q hq hv)
      rw [hne q hq₀]
      by_cases hm : t.Marked p₀ q
      · rw [hk.marked q hq₀ hv hm]
        exact ⟨rfl, rfl, ((hmark q hq hm).resolve_left hpq).symm, rfl, rfl⟩
      · rw [hk.other q hq₀ hv hm]
        exact ⟨rfl, rfl, rfl, rfl, rfl⟩

theorem exec_exact (t : Table) (p : Slot) :
    (∃ t', killThread t p = .ok t' ∧ ExactGroup t t' p) ↔ Hits t p p := by
  constructor
  · rintro ⟨t', h, hex⟩
    obtain ⟨h1, h2, h3⟩ := (exactGroup_iff (killThread_killed h) rfl (fun _ _ => rfl) (absurd rfl)).1 hex
    exact ⟨killThread_isOk.1 ⟨t', h⟩, h1, h2, h3⟩
  · intro h
    obtain ⟨t', ht⟩ := killThread_isOk.2 h.killable
    exact ⟨t', ht, (exactGroup_iff (killThread_killed ht) rfl (fun _ _ => rfl) (absurd rfl)).2
      ⟨h.victims, h.marked, h.members⟩⟩

theorem findPid_pid {pid : ℕ} (h : findPid t pid = some p) : (t p).pid = pid := by
  simpa using List.find?_some h

theorem kill_exact (t : Table) (p : Slot) :
    (∃ t', kill t (t p).pid = some (.ok t') ∧ ExactGroup t t' p) ↔
      ∃ p₀, findPid t (t p).pid = some p₀ ∧ Hits t p₀ p := by
  have hdone : ∀ {t₁ : Table} {p₀ : Slot}, killThread t p₀ = .ok t₁ → (t p₀).pid = (t p).pid →
      (ExactGroup t (t₁.upd p₀ Proc.kill) p ↔ _) := fun h hpid =>
    exactGroup_iff (killThread_killed h) hpid (fun q hq => upd_ne _ hq _) fun _ => by
      rw [upd_self]; exact .inr (.inr rfl)
  constructor
  · rintro ⟨t', h, hex⟩
    simp only [kill, Option.map_eq_some_iff] at h
    obtain ⟨p₀, hf, h⟩ := h
    cases hkt : killThread t p₀ with
    | error e => rw [hkt] at h; cases h
    | ok t₁ =>
      rw [hkt] at h
      cases h
      obtain ⟨h1, h2, h3⟩ := (hdone hkt (findPid_pid hf)).1 hex
      exact ⟨p₀, hf, killThread_isOk.1 ⟨t₁, hkt⟩, h1, h2, h3⟩
  · rintro ⟨p₀, hf, h⟩
    obtain ⟨t₁, hkt⟩ := killThread_isOk.2 h.killable
    refine ⟨_, ?_, (hdone hkt (findPid_pid hf)).2 ⟨h.victims, h.marked, h.members⟩⟩
    rw [kill, hf, Option.map_some, hkt]
    rfl

/-- **`kill` and `exec` affect exactly the group of `p`** in exactly the tables in which
`kill_thread` hits it. -/
theorem kill_exec_exact (t : Table) (p : Slot) :
    ((∃ t', kill t (t p).pid = some (.ok t') ∧ ExactGroup t t' p) ↔
      ∃ p₀, findPid t (t p).pid = some p₀ ∧ Hits t p₀ p) ∧
    ((∃ t', killThread t p = .ok t' ∧ ExactGroup t t' p) ↔ Hits t p p) :=
  ⟨kill_exact t p, exec_exact t p⟩

/-- Init forks a process, whose only LWP calls `exec`. -/
def lwpExec : List (Event 1) :=
  [.sched 0 0, .fork 0 true, .forkCopy 0 true, .forkReady 0, .yield 0,
    .sched 0 1, .threadCreate 0 true, .threadMap 0 true true, .threadReady 0, .yield 0,
    .sched 0 2, .execBegin 0 false]

/-- **An LWP that calls `exec` frees the parent of its process**: slot 2 is the LWP of the
process in slot 1, the parent of which is init. -/
theorem lwp_exec_frees_parent : ∃ s t', (machine 1).run (boot 1) lwpExec = some (.ok s) ∧
    s.current 0 = some (2, ⟨.exec false none, true⟩) ∧ killThread s.proc 2 = .ok t' ∧
    ¬ ExactGroup s.proc t' 2 := by
  obtain ⟨s, hr, hcur, hv, hst, hpid, hk, hth, hm, hg, hsm, hsib⟩ : ∃ s,
      (machine 1).run (boot 1) lwpExec = some (.ok s) ∧ s.current 0 = some (2, ⟨.exec false none, true⟩) ∧
      s.proc.Victim 2 0 ∧ (s.proc 0).state ≠ .unused ∧ (s.proc 0).pid ≠ (s.proc 2).pid ∧
      (s.proc 0).kstack ≠ none ∧ (s.proc 2).isThread = true ∧ (s.proc 2).parent = some 1 ∧
      (s.proc 1).parent = some 0 ∧ ¬ s.proc.Sibling 2 1 ∧ ∀ q, ¬ s.proc.Sibling 2 q :=
    Machine.run_of_reaches (by decide +kernel)
  have hkt := (killThread_lwp hth).2 ⟨1, 0, hm, hg, hsm, hsib 0, ?_, rfl⟩
  · refine ⟨s, _, hr, hcur, hkt, fun hex => ?_⟩
    have := (hex.others 0 hst hpid).1
    rw [(killThread_killed hkt).victim 0 hv] at this
    exact hst this.symm
  · intro q hq
    unfold Table.Victim at hq
    rw [if_neg (by simp [hth])] at hq
    rcases hq with hq | ⟨m, hm', hg'⟩
    · exact absurd hq (hsib q)
    · rw [hm] at hm'; cases hm'
      rw [hg] at hg'; cases hg'
      exact hk

end Xv6.Lwp
