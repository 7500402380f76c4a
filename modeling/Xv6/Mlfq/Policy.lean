import Xv6.Mlfq.Quantum

/-!
# A pass of `scheduler` is the MLFQ policy

The policy is about lists: `Choice` says which process a pass dispatches and which processes it only
takes off the queues, `settle` what becomes of the lists when the process is back.

* `search_round`, `search_rounds`: the loops over L2 find the first process with the least priority.
* `demote_policy`, `promote_policy`: the end of a time slice.
* **`pass_refines`**: one pass of `scheduler` on one CPU, with any process coming back in any state but
  RUNNING.
-/

namespace Xv6.Mlfq

/-! ## The policy -/

section Policy

variable {ι : Type*}

/-- Among those of `l` that want to run, `p` is the first with the least key. -/
def FirstLeast (runs : ι → Prop) (key : ι → ℕ) (l : List ι) (p : ι) : Prop :=
  ∃ l₁ l₂, l = l₁ ++ p :: l₂ ∧ runs p ∧ (∀ x ∈ l₁, runs x → key p < key x) ∧ ∀ x ∈ l₂, runs x → key p ≤ key x

theorem FirstLeast.congr {runs runs' : ι → Prop} {key key' : ι → ℕ} {l : List ι} {p : ι}
    (h : FirstLeast runs key l p) (hr : ∀ x, runs x ↔ runs' x) (hk : ∀ x, key x = key' x) :
    FirstLeast runs' key' l p := by
  obtain rfl : runs = runs' := funext fun x => propext (hr x)
  obtain rfl : key = key' := funext hk
  exact h

/-- It does not matter whether those that do not want to run are still there. -/
theorem FirstLeast.of_sublist {runs : ι → Prop} {key : ι → ℕ} {l l' : List ι} {p : ι} (h : FirstLeast runs key l' p)
    (hnd : l.Nodup) (hsub : l'.Sublist l) (hkeep : ∀ x ∈ l, runs x → x ∈ l') : FirstLeast runs key l p := by
  obtain ⟨a, b, rfl, hp, ha, hb⟩ := h
  obtain ⟨A, C, rfl, haA, hC⟩ := List.append_sublist_iff.1 hsub
  obtain ⟨B₁, B₂, rfl, hp', hb'⟩ := List.cons_sublist_iff.1 hC
  obtain ⟨B, B', rfl⟩ := List.append_of_mem hp'
  have hL : A ++ (B ++ p :: B' ++ B₂) = (A ++ B) ++ p :: (B' ++ B₂) := by simp
  rw [hL] at hnd hkeep ⊢
  have hmem : ∀ x, x ∈ a ++ p :: b ↔ x ∈ a ∨ x = p ∨ x ∈ b := by simp
  obtain ⟨-, hnd₂, hdisjoint⟩ := List.nodup_append.1 hnd
  refine ⟨A ++ B, B' ++ B₂, rfl, hp, fun x hx hr => ?_, fun x hx hr => ?_⟩
  · -- what was before `p` is still before it
    rcases (hmem x).1 (hkeep x (List.mem_append_left _ hx) hr) with hxa | rfl | hxb
    · exact ha x hxa hr
    · exact absurd rfl (hdisjoint x hx x List.mem_cons_self)
    · have hx' : x ∈ p :: (B' ++ B₂) := List.mem_cons_of_mem p (List.mem_append_right B' (hb'.subset hxb))
      exact absurd rfl (hdisjoint x hx x hx')
  · rcases (hmem x).1 (hkeep x (List.mem_append_right _ (List.mem_cons_of_mem p hx)) hr) with hxa | rfl | hxb
    · exact le_of_lt (ha x hxa hr)
    · exact le_rfl
    · exact hb x hxb hr

/-- A list without those that a search for `p` meets and that do not want to run. The search for key 0 meets all
up to `p`; a search that has to go on has met all. -/
def Swept (runs : ι → Prop) [DecidablePred runs] (key : ι → ℕ) (p : ι) (l l' : List ι) : Prop :=
  if key p = 0 then ∃ l₁ l₂, l = l₁ ++ p :: l₂ ∧ l' = l₁.filter runs ++ p :: l₂ else l' = l.filter runs

/-- Which process a pass dispatches, if any, and the queues without the processes that it only takes off. -/
inductive Choice (runs : ι → Prop) [DecidablePred runs] (key : ι → ℕ) (ls : Lv → List ι) : Option ι → (Lv → List ι) → Prop
  | zero {p l} (h₀ : ls .zero = p :: l) (hp : runs p) : Choice runs key ls (some p) ls
  | dropZero {p l} (h₀ : ls .zero = p :: l) (hp : ¬ runs p) :
    Choice runs key ls none (Function.update ls .zero l)
  | one {p l} (h₀ : ls .zero = []) (h₁ : ls .one = p :: l) (hp : runs p) : Choice runs key ls (some p) ls
  | dropOne {p l} (h₀ : ls .zero = []) (h₁ : ls .one = p :: l) (hp : ¬ runs p) :
    Choice runs key ls none (Function.update ls .one l)
  | two {p l} (h₀ : ls .zero = []) (h₁ : ls .one = []) (hp : FirstLeast runs key (ls .two) p)
    (hl : Swept runs key p (ls .two) l) : Choice runs key ls (some p) (Function.update ls .two l)
  | none (h₀ : ls .zero = []) (h₁ : ls .one = []) (hp : ∀ x ∈ ls .two, ¬ runs x) :
    Choice runs key ls none (Function.update ls .two [])

/-- The level that a process goes down to. -/
def Lv.down : Lv → Option Lv
  | .zero => some .one
  | .one => some .two
  | .two => none

variable [DecidableEq ι]

/-- A process has used up its time on a level: it goes to the rear of the next level, or stays. -/
def settle (ls : Lv → List ι) (q : Lv) (p : ι) : Lv → List ι :=
  match q.down with
  | some d => Function.update (Function.update ls q ((ls q).erase p)) d (ls d ++ [p])
  | none => ls

end Policy

/-- A process after a time slice at level `q`. -/
def Proc.slice (x : Proc) (q : Lv) (tq : ℕ) : Proc :=
  if x.lt + 1 = tq then
    match q.down with
    | some _ => { x with lt := 0, ql := x.ql + 1 }
    | none => { x with lt := 0, pr := x.pr - 1 }
  else { x with lt := x.lt + 1 }

/-! ## The code -/

variable {s s' s₁ s₂ : State 1} {k k' : Kernel} {ls ls' : Lv → List Slot} {p : Slot} {que : Lv} {pc : Pc}

/-- A part of a pass ends here. -/
def Pc.Stop : Pc → Prop
  | .top | .run _ _ | .held _ _ => True
  | _ => False

/-- Steps of `scheduler` within a part of a pass. -/
inductive Steps : State 1 → State 1 → Prop
  | refl (s : State 1) : Steps s s
  | head {s s₁ s₂ : State 1} (hpc : ¬ (s.pc 0).Stop) (h : s.sched 0 = some (.ok s₁)) (h' : Steps s₁ s₂) : Steps s s₂

/-- From `s` to the next dispatch, or to the end of the pass. -/
def Part (s s' : State 1) : Prop := Steps s s' ∧ (s'.pc 0).Stop

/-- From the beginning of a pass to its dispatch or its end. -/
def Search (s s' : State 1) : Prop := ∃ s₁, s.sched 0 = some (.ok s₁) ∧ Part s₁ s'

theorem Steps.one (hpc : ¬ (s.pc 0).Stop) (h : s.sched 0 = some (.ok s')) : Steps s s' := .head hpc h (.refl s')

theorem Steps.trans (h : Steps s s₁) (h' : Steps s₁ s₂) : Steps s s₂ := by
  induction h with
  | refl s => exact h'
  | head hpc hs _ ih => exact .head hpc hs (ih h')

/-- There is only one way on. -/
theorem Part.unique (h : Part s s₁) (h' : Part s s₂) : s₁ = s₂ := by
  obtain ⟨h, hstop⟩ := h
  obtain ⟨h', hstop'⟩ := h'
  induction h with
  | refl s =>
    cases h' with
    | refl _ => rfl
    | head hpc _ _ => exact absurd hstop hpc
  | head hpc hs _ ih =>
    cases h' with
    | refl _ => exact absurd hstop' hpc
    | head _ hs' h' =>
      rw [hs] at hs'
      cases hs'
      exact ih hstop h'

theorem Search.unique (h : Search s s₁) (h' : Search s s₂) : s₁ = s₂ := by
  obtain ⟨t, ht, hpart⟩ := h
  obtain ⟨t', ht', hpart'⟩ := h'
  rw [ht] at ht'
  cases ht'
  exact hpart.unique hpart'

/-- The front of a queue is taken off. -/
theorem drop_policy (h : Links k ls) {l : List Slot} (hls : ls que = p :: l) : ∃ k', del k que p = .ok k' ∧
    Links k' (Function.update ls que l) ∧ k'.core = k.core := by
  have hp : p ∈ ls que := by rw [hls]; exact List.mem_cons_self
  obtain ⟨k', hdel⟩ := del_total h hp
  have hlinks := del_links h hp hdel
  rw [hls, List.erase_cons_head] at hlinks
  exact ⟨k', hdel, hlinks, del_core hdel⟩

/-! ## The end of a time slice -/

/-- Nothing changes but queues, and `p` as `f` says. -/
structure Sliced (k : Kernel) (p : Slot) (f : Proc → Proc) (k' : Kernel) : Prop where
  self : (k'.proc p).core = (f (k.proc p)).core
  others : ∀ x, x ≠ p → (k'.proc x).core = (k.proc x).core
  ticks : k'.ticks = k.ticks

/-- **A process that was dispatched from L0 or L1.** -/
theorem demote_policy {down : Lv} (h : Links k ls) (hp : p ∈ ls que) (hdown : que.down = some down) :
    ∃ k', demote k que down p = .ok k' ∧ Sliced k p (fun x => x.slice que (k.queue que).tq) k' ∧
      Links k' (if (k.proc p).lt + 1 = (k.queue que).tq then settle ls que p else ls) := by
  have hne : down ≠ que := by
    rintro rfl
    cases down <;> cases hdown
  unfold demote
  dsimp only
  set k₁ := k.upd p fun x => { x with lt := x.lt + 1 } with hk₁
  have hlt : (k₁.proc p).lt = (k.proc p).lt + 1 := by rw [hk₁, upd_proc_self]
  have hlinks₁ : Links k₁ ls := h.congr (upd_next fun _ => rfl) rfl
  have htq : (k₁.queue que).tq = (k.queue que).tq := rfl
  rw [hlt, htq]
  by_cases hspent : (k.proc p).lt + 1 = (k.queue que).tq
  · rw [if_pos hspent.symm, if_pos hspent]
    obtain ⟨k₂, hdel⟩ := del_total hlinks₁ hp
    have hlinks₂ := del_links hlinks₁ hp hdel
    have hfree : ∀ q, p ∉ Function.update ls que ((ls que).erase p) q := hlinks₁.erase_free hp
    have hlinks₃ : Links (k₂.upd p fun x => { x with lt := 0 }) (Function.update ls que ((ls que).erase p)) :=
      hlinks₂.congr (upd_next fun _ => rfl) rfl
    obtain ⟨k₄, hpush⟩ := push_total hlinks₃ down p
    have hlinks₄ := push_links hlinks₃ hfree hpush
    have hcore₂ := del_core hdel
    have hcore₄ := push_core hpush
    rw [hdel]
    dsimp only [bind, Except.bind]
    rw [hpush]
    refine ⟨_, rfl, ⟨?_, fun x hx => ?_, ?_⟩, ?_⟩
    · rw [upd_proc_self]
      have h4 := core_proc hcore₄ p
      have h2 := core_proc hcore₂ p
      rw [upd_proc_self] at h4
      rw [hk₁, upd_proc_self] at h2
      unfold Proc.slice
      rw [if_pos hspent, hdown]
      unfold Proc.core at h2 h4 ⊢
      simp only [Proc.mk.injEq, and_true] at h2 h4 ⊢
      obtain ⟨h41, h42, h43, h44, h45, h46, h47, h48⟩ := h4
      obtain ⟨h21, h22, h23, h24, h25, h26, h27, h28⟩ := h2
      refine ⟨h41.trans h21, h42.trans h22, h43.trans h23, h44.trans h24, h45.trans h25, h46.trans h26, h47, ?_⟩
      rw [h48, h28]
    · rw [upd_proc_ne _ hx, core_proc hcore₄ x, upd_proc_ne _ hx, core_proc hcore₂ x, hk₁, upd_proc_ne _ hx]
    · have h4 := congrArg Kernel.ticks hcore₄
      have h2 := congrArg Kernel.ticks hcore₂
      exact h4.trans h2
    · refine Links.congr ?_ (upd_next fun _ => rfl) rfl
      unfold settle
      rw [hdown]
      rwa [Function.update_of_ne hne] at hlinks₄
  · rw [if_neg (fun heq => hspent heq.symm), if_neg hspent]
    refine ⟨k₁, rfl, ⟨?_, fun x hx => ?_, rfl⟩, hlinks₁⟩
    · rw [hk₁, upd_proc_self]
      unfold Proc.slice
      rw [if_neg hspent]
    · rw [hk₁, upd_proc_ne _ hx]

/-- **A process that was dispatched from L2.** -/
theorem promote_policy (h : Links k ls) : Sliced k p (fun x => x.slice .two (k.queue .two).tq) (promote k p) ∧
    Links (promote k p) (if (k.proc p).lt + 1 = (k.queue .two).tq then settle ls .two p else ls) := by
  have hlists : (if (k.proc p).lt + 1 = (k.queue .two).tq then settle ls .two p else ls) = ls := by
    split <;> rfl
  rw [hlists]
  unfold promote
  dsimp only
  set k₁ := k.upd p fun x => { x with lt := x.lt + 1 } with hk₁
  have hlt : (k₁.proc p).lt = (k.proc p).lt + 1 := by rw [hk₁, upd_proc_self]
  have htq : (k₁.queue .two).tq = (k.queue .two).tq := rfl
  have hlinks₁ : Links k₁ ls := h.congr (upd_next fun _ => rfl) rfl
  rw [hlt, htq]
  by_cases hspent : (k.proc p).lt + 1 = (k.queue .two).tq
  · rw [if_pos hspent.symm]
    refine ⟨⟨?_, fun x hx => ?_, rfl⟩, hlinks₁.congr (upd_next fun _ => rfl) rfl⟩
    · rw [upd_proc_self, hk₁, upd_proc_self]
      unfold Proc.slice
      rw [if_pos hspent]
      rfl
    · rw [upd_proc_ne _ hx, hk₁, upd_proc_ne _ hx]
  · rw [if_neg (fun heq => hspent heq.symm)]
    refine ⟨⟨?_, fun x hx => ?_, rfl⟩, hlinks₁⟩
    · rw [hk₁, upd_proc_self]
      unfold Proc.slice
      rw [if_neg hspent]
    · rw [hk₁, upd_proc_ne _ hx]

/-! ## The search -/

/-- The process wants to run. -/
def Kernel.Runs (k : Kernel) (p : Slot) : Prop := (k.proc p).state = .runnable

instance (k : Kernel) : DecidablePred k.Runs := fun p => inferInstanceAs (Decidable ((k.proc p).state = .runnable))

/-- A pass begins on well formed queues; no process on them has used up its time, and none runs. -/
structure Start (k : Kernel) (ls : Lv → List Slot) : Prop where
  links : Links k ls
  lt : ∀ q p, p ∈ ls q → (k.proc p).lt < (k.queue q).tq
  pr : ∀ q p, p ∈ ls q → (k.proc p).pr ≤ 3
  stopped : ∀ p, (k.proc p).state ≠ .running

theorem Start.idle (h : Start k ls) (p : Slot) : (k.proc p).idle ↔ ¬ k.Runs p :=
  ⟨fun hi => hi.1, fun hr => ⟨hr, h.stopped p⟩⟩

/-- The same processes, and some of those that do not want to run left L2. -/
theorem Start.less (h : Start k ls) (hcore : k'.core = k.core) (htq : ∀ q, (k'.queue q).tq = (k.queue q).tq) {l : List Slot}
    (hlinks : Links k' (Function.update ls .two l)) (hsub : l.Sublist (ls .two)) :
    Start k' (Function.update ls .two l) := by
  have hmem : ∀ q p, p ∈ Function.update ls .two l q → p ∈ ls q := by
    intro q p hp
    by_cases hq : q = .two
    · subst hq
      rw [Function.update_self] at hp
      exact hsub.subset hp
    · rwa [Function.update_of_ne hq] at hp
  refine ⟨hlinks, fun q p hp => ?_, fun q p hp => ?_, fun p => ?_⟩
  · rw [core_lt hcore, htq]
    exact h.lt q p (hmem q p hp)
  · rw [core_pr hcore]
    exact h.pr q p (hmem q p hp)
  · rw [core_state hcore]
    exact h.stopped p

/-- The walk over L2 has come from `s` to `s'`, and L2 is `l` now. -/
structure Walk (s : State 1) (ls : Lv → List Slot) (l : List Slot) (s' : State 1) : Prop where
  steps : Steps s s'
  core : s'.kernel.core = s.kernel.core
  tq : ∀ q, (s'.kernel.queue q).tq = (s.kernel.queue q).tq
  links : Links s'.kernel (Function.update ls .two l)
  sub : l.Sublist (ls .two)

theorem core_runs (h : k'.core = k.core) : k'.Runs = k.Runs := by
  funext x
  unfold Kernel.Runs
  rw [core_state h]

theorem Walk.start {l : List Slot} (h : Walk s ls l s') (hs : Start s.kernel ls) :
    Start s'.kernel (Function.update ls .two l) := hs.less h.core h.tq h.links h.sub

theorem Walk.refl (h : Links s.kernel ls) {l : List Slot} (hl : l = ls .two) : Walk s ls l s := by
  refine ⟨.refl s, rfl, fun _ => rfl, ?_, ?_⟩
  · rwa [hl, Function.update_eq_self]
  · rw [hl]

theorem Walk.trans {l l' : List Slot} (h : Walk s ls l s₁) (h' : Walk s₁ (Function.update ls .two l) l' s₂) :
    Walk s ls l' s₂ := by
  have hl := h'.links
  have hsub := h'.sub
  rw [Function.update_idem] at hl
  rw [Function.update_self] at hsub
  exact ⟨h.steps.trans h'.steps, h'.core.trans h.core, fun q => (h'.tq q).trans (h.tq q), hl, hsub.trans h.sub⟩

/-- Where the walk for priority `m` over the nodes `l` ends, and which of them it leaves. -/
def Found (k : Kernel) (m : ℕ) (l l' : List Slot) : Pc → Prop
  | .l2 m' none => m' = m ∧ l' = l.filter k.Runs ∧ ∀ x ∈ l, k.Runs x → (k.proc x).pr ≠ m
  | .l2 m' (some p) => m' = m ∧ ∃ l₁ l₂, l = l₁ ++ p :: l₂ ∧ l' = l₁.filter k.Runs ++ p :: l₂ ∧ k.Runs p ∧
      (k.proc p).pr = m ∧ ∀ x ∈ l₁, k.Runs x → (k.proc x).pr ≠ m
  | _ => False

/-- A process with another priority. -/
theorem Found.pass {m : ℕ} {l l' : List Slot} (h : Found k m l l' pc) (hp : k.Runs p) (hne : (k.proc p).pr ≠ m) :
    Found k m (p :: l) (p :: l') pc := by
  match pc, h with
  | .l2 m' none, h =>
    obtain ⟨hm, rfl, hall⟩ := h
    refine ⟨hm, ?_, fun x hx hr => ?_⟩
    · rw [List.filter_cons_of_pos (by simpa using hp)]
    · rcases List.mem_cons.1 hx with rfl | hx
      · exact hne
      · exact hall x hx hr
  | .l2 m' (some p'), h =>
    obtain ⟨hm, l₁, l₂, rfl, rfl, hr, hpr, hbefore⟩ := h
    refine ⟨hm, p :: l₁, l₂, rfl, ?_, hr, hpr, fun x hx hx' => ?_⟩
    · rw [List.filter_cons_of_pos (by simpa using hp)]
      rfl
    · rcases List.mem_cons.1 hx with rfl | hx
      · exact hne
      · exact hbefore x hx hx'

/-- A process that was taken off. -/
theorem Found.drop {m : ℕ} {l l' : List Slot} (h : Found k m l l' pc) (hp : ¬ k.Runs p) :
    Found k m (p :: l) l' pc := by
  match pc, h with
  | .l2 m' none, h =>
    obtain ⟨hm, rfl, hall⟩ := h
    refine ⟨hm, ?_, fun x hx hr => ?_⟩
    · rw [List.filter_cons_of_neg (by simpa using hp)]
    · rcases List.mem_cons.1 hx with rfl | hx
      · exact absurd hr hp
      · exact hall x hx hr
  | .l2 m' (some p'), h =>
    obtain ⟨hm, l₁, l₂, rfl, rfl, hr, hpr, hbefore⟩ := h
    refine ⟨hm, p :: l₁, l₂, rfl, ?_, hr, hpr, fun x hx hx' => ?_⟩
    · rw [List.filter_cons_of_neg (by simpa using hp)]
    · rcases List.mem_cons.1 hx with rfl | hx
      · exact absurd hx' hp
      · exact hbefore x hx hx'

theorem Found.congr {m : ℕ} {l l' : List Slot} (h : Found k' m l l' pc) (hcore : k'.core = k.core) :
    Found k m l l' pc := by
  have hruns : ∀ x, k'.Runs x ↔ k.Runs x := fun x => by rw [core_runs hcore]
  have hfilter : ∀ l : List Slot, l.filter k'.Runs = l.filter k.Runs := by
    intro l
    refine List.filter_congr fun x _ => ?_
    simp only [hruns]
  match pc, h with
  | .l2 m' none, h =>
    obtain ⟨hm, rfl, hall⟩ := h
    refine ⟨hm, hfilter l, fun x hx hr => ?_⟩
    rw [← core_pr hcore]
    exact hall x hx ((hruns x).2 hr)
  | .l2 m' (some p'), h =>
    obtain ⟨hm, l₁, l₂, rfl, rfl, hr, hpr, hbefore⟩ := h
    refine ⟨hm, l₁, l₂, rfl, by rw [hfilter], (hruns p').1 hr, by rwa [← core_pr hcore], fun x hx hx' => ?_⟩
    rw [← core_pr hcore]
    exact hbefore x hx ((hruns x).2 hx')

/-- What is found has the least priority, if no other is less than the one looked for. -/
theorem Found.first {m m' : ℕ} {l l' : List Slot} (h : Found k m l l' (.l2 m' (some p)))
    (hle : ∀ x ∈ l, k.Runs x → m ≤ (k.proc x).pr) :
    (k.proc p).pr = m' ∧ FirstLeast k.Runs (fun x => (k.proc x).pr) l p := by
  obtain ⟨rfl, l₁, l₂, rfl, -, hp, hpr, hbefore⟩ := h
  refine ⟨hpr, l₁, l₂, rfl, hp, fun x hx hr => ?_, fun x hx hr => ?_⟩
  · have h1 := hle x (by simp [hx]) hr
    have h2 := hbefore x hx hr
    show (k.proc p).pr < (k.proc x).pr
    omega
  · have h1 := hle x (by simp [hx]) hr
    show (k.proc p).pr ≤ (k.proc x).pr
    omega

/-- One priority: from the nodes `l` of L2 on. -/
theorem search_round (m : ℕ) (l : List Slot) : ∀ {s : State 1} {ls : Lv → List Slot} {l₁ : List Slot},
    Start s.kernel ls → s.pc 0 = .l2 m l.head? → ls .two = l₁ ++ l →
    ∃ s' l', Walk s ls (l₁ ++ l') s' ∧ Found s.kernel m l l' (s'.pc 0) := by
  induction l with
  | nil =>
    intro s ls l₁ h hpc hls
    refine ⟨s, [], Walk.refl h.links hls.symm, ?_⟩
    rw [hpc]
    exact ⟨rfl, rfl, by simp⟩
  | cons p l ih =>
    intro s ls l₁ h hpc hls
    have hp : p ∈ ls .two := by rw [hls]; simp
    have hQ := h.links.queue .two
    have hchain := hQ.chain
    rw [hls] at hchain
    have hnext : (s.kernel.proc p).next = l.head? := hchain.suffix.head
    have hpc' : s.pc 0 = .l2 m (some p) := hpc
    have hgo : ¬ (s.pc 0).Stop := by
      rw [hpc']
      exact id
    by_cases hr : s.kernel.Runs p
    · by_cases hpr : (s.kernel.proc p).pr = m
      · -- this one
        refine ⟨s, p :: l, Walk.refl h.links hls.symm, ?_⟩
        rw [hpc']
        exact ⟨rfl, [], l, rfl, rfl, hr, hpr, by simp⟩
      · have hsched : s.sched 0 = some (.ok (s.goto 0 (.l2 m l.head?))) := by
          unfold State.sched
          rw [hpc']
          dsimp only
          rw [if_neg (fun hi => (h.idle p).1 hi hr), if_neg (fun hc => hpr hc.1), hnext]
        obtain ⟨s', l', hw, hf⟩ := ih (s := s.goto 0 (.l2 m l.head?)) h (goto_pc _ _ _)
          (by rw [hls]; simp : ls .two = (l₁ ++ [p]) ++ l)
        rw [List.append_assoc] at hw
        exact ⟨s', p :: l', ⟨.head hgo hsched hw.steps, hw.core, hw.tq, hw.links, hw.sub⟩, Found.pass hf hr hpr⟩
    · obtain ⟨k', hdel⟩ := del_total h.links hp
      have hn' : (k'.proc p).next = l.head? := (del_next_self h.links hdel).trans hnext
      have hsched : s.sched 0 = some (.ok ({ s with kernel := k' }.goto 0 (.l2 m l.head?))) := by
        unfold State.sched
        rw [hpc']
        dsimp only
        rw [if_pos ((h.idle p).2 hr), hdel, ← hn']
        rfl
      have hnd := hQ.nodup
      rw [hls] at hnd
      have herase : (ls .two).erase p = l₁ ++ l := by
        have hpl : p ∉ l₁ := fun hm => (List.nodup_append.1 hnd).2.2 p hm p (by simp) rfl
        rw [hls, List.erase_append_right _ hpl, List.erase_cons_head]
      have hlinks := del_links h.links hp hdel
      rw [herase] at hlinks
      have hw₁ : Walk s ls (l₁ ++ l) ({ s with kernel := k' }.goto 0 (.l2 m l.head?)) := by
        refine ⟨.one hgo hsched, del_core hdel, del_tq hdel, hlinks, ?_⟩
        rw [hls]
        exact List.Sublist.append_left (List.sublist_cons_self p l) l₁
      obtain ⟨s', l', hw, hf⟩ := ih (hw₁.start h) (goto_pc _ _ _) (Function.update_self ..)
      exact ⟨s', l', hw₁.trans hw, (hf.congr (del_core hdel)).drop hr⟩

/-- On to the next priority. -/
theorem search_next {m : ℕ} (hpc : s.pc 0 = .l2 m none) (hm : m < 3) :
    Steps s (s.goto 0 (.l2 (m + 1) (s.kernel.queue .two).front)) := by
  refine .one ?_ ?_
  · rw [hpc]
    exact id
  · unfold State.sched
    rw [hpc]
    dsimp only
    rw [if_pos hm]

/-- **The search in L2**, when all of L2 want to run. -/
theorem search_rounds (j : ℕ) : ∀ {s : State 1} {ls : Lv → List Slot} {m : ℕ}, m + j = 3 → Start s.kernel ls →
    s.pc 0 = .l2 m (s.kernel.queue .two).front →
    (∀ x ∈ ls .two, s.kernel.Runs x ∧ m ≤ (s.kernel.proc x).pr) →
    ∃ s', Walk s ls (ls .two) s' ∧ (s'.pc 0 = .boost ∧ ls .two = [] ∨
      ∃ m' p, s'.pc 0 = .l2 m' (some p) ∧ m ≤ m' ∧ (s.kernel.proc p).pr = m' ∧
        FirstLeast s.kernel.Runs (fun x => (s.kernel.proc x).pr) (ls .two) p) := by
  induction j with
  | zero =>
    intro s ls m hm h hpc hall
    rw [(h.links.queue .two).chain.head] at hpc
    obtain ⟨s', l', hw, hf⟩ := search_round m (ls .two) h hpc (List.nil_append _).symm
    rw [List.nil_append] at hw
    match hpc' : s'.pc 0, hf with
    | .l2 m' none, hf =>
      -- no priority is left
      obtain ⟨rfl, hl', hne⟩ := hf
      have hnil : ls .two = [] := by
        refine List.eq_nil_iff_forall_not_mem.2 fun x hx => ?_
        have h1 := (hall x hx).2
        have h2 := h.pr .two x hx
        exact hne x hx (hall x hx).1 (by omega)
      rw [hnil] at hl'
      rw [hl'] at hw
      have hsched : s'.sched 0 = some (.ok (s'.goto 0 .boost)) := by
        unfold State.sched
        rw [hpc']
        dsimp only
        rw [if_neg (by omega)]
      have hgo : ¬ (s'.pc 0).Stop := by
        rw [hpc']
        exact id
      rw [hnil]
      exact ⟨_, ⟨hw.steps.trans (.one hgo hsched), hw.core, hw.tq, hw.links, hw.sub⟩, .inl ⟨goto_pc _ _ _, rfl⟩⟩
    | .l2 m' (some p), hf =>
      have hfirst := hf.first fun x hx _ => (hall x hx).2
      obtain ⟨rfl, l₁, l₂, hl, hl', -⟩ := hf
      have hsame : l' = ls .two := by
        rw [hl', hl, List.filter_eq_self.2 fun x hx => by simpa using (hall x (by rw [hl]; simp [hx])).1]
      rw [hsame] at hw
      exact ⟨s', hw, .inr ⟨m', p, hpc', le_rfl, hfirst⟩⟩
  | succ j ih =>
    intro s ls m hm h hpc hall
    rw [(h.links.queue .two).chain.head] at hpc
    obtain ⟨s', l', hw, hf⟩ := search_round m (ls .two) h hpc (List.nil_append _).symm
    rw [List.nil_append] at hw
    match hpc' : s'.pc 0, hf with
    | .l2 m' none, hf =>
      obtain ⟨rfl, hl', hne⟩ := hf
      have hsame : l' = ls .two := by
        rw [hl', List.filter_eq_self.2 fun x hx => by simpa using (hall x hx).1]
      rw [hsame] at hw
      have hw₁ : Walk s ls (ls .two) (s'.goto 0 (.l2 (m' + 1) (s'.kernel.queue .two).front)) :=
        ⟨hw.steps.trans (search_next hpc' (by omega)), hw.core, hw.tq, hw.links, hw.sub⟩
      have hstart := hw₁.start h
      rw [Function.update_eq_self] at hstart
      have hall' : ∀ x ∈ ls .two, s'.kernel.Runs x ∧ m' + 1 ≤ (s'.kernel.proc x).pr := by
        intro x hx
        obtain ⟨hr, hle⟩ := hall x hx
        have h2 := hne x hx hr
        rw [core_runs hw.core, core_pr hw.core]
        exact ⟨hr, by omega⟩
      obtain ⟨s'', hw₂, hend⟩ := ih (s := s'.goto 0 (.l2 (m' + 1) (s'.kernel.queue .two).front)) (by omega)
        hstart (goto_pc _ _ _) hall'
      have hw₂' : Walk (s'.goto 0 (.l2 (m' + 1) (s'.kernel.queue .two).front)) (Function.update ls .two (ls .two)) (ls .two) s'' := by
        rwa [Function.update_eq_self]
      refine ⟨s'', hw₁.trans hw₂', hend.imp id ?_⟩
      rintro ⟨m'', p, hp, hm', hpr, hfirst⟩
      refine ⟨m'', p, hp, by omega, (core_pr hw.core p).symm.trans hpr, ?_⟩
      exact hfirst.congr (fun x => by rw [← core_runs hw.core]; rfl) fun x => core_pr hw.core x
    | .l2 m' (some p), hf =>
      have hfirst := hf.first fun x hx _ => (hall x hx).2
      obtain ⟨rfl, l₁, l₂, hl, hl', -⟩ := hf
      have hsame : l' = ls .two := by
        rw [hl', hl, List.filter_eq_self.2 fun x hx => by simpa using (hall x (by rw [hl]; simp [hx])).1]
      rw [hsame] at hw
      exact ⟨s', hw, .inr ⟨m', p, hpc', le_rfl, hfirst⟩⟩

/-- **The search in L2** finds the first process with the least priority, or none. -/
theorem search_two (h : Start s.kernel ls) (hpc : s.pc 0 = .l2 0 (s.kernel.queue .two).front) :
    ∃ s' l', Walk s ls l' s' ∧ (s'.pc 0 = .boost ∧ l' = [] ∧ (∀ x ∈ ls .two, ¬ s.kernel.Runs x) ∨
      ∃ m p, s'.pc 0 = .l2 m (some p) ∧ (s.kernel.proc p).pr = m ∧
        FirstLeast s.kernel.Runs (fun x => (s.kernel.proc x).pr) (ls .two) p ∧
        Swept s.kernel.Runs (fun x => (s.kernel.proc x).pr) p (ls .two) l') := by
  have hnd := (h.links.queue .two).nodup
  rw [(h.links.queue .two).chain.head] at hpc
  obtain ⟨s₁, l₁, hw, hf⟩ := search_round 0 (ls .two) h hpc (List.nil_append _).symm
  rw [List.nil_append] at hw
  match hpc₁ : s₁.pc 0, hf with
  | .l2 m none, hf =>
    obtain ⟨rfl, hl₁, hne⟩ := hf
    have hw₁ : Walk s ls l₁ (s₁.goto 0 (.l2 (0 + 1) (s₁.kernel.queue .two).front)) :=
      ⟨hw.steps.trans (search_next hpc₁ (by omega)), hw.core, hw.tq, hw.links, hw.sub⟩
    have hall : ∀ x ∈ Function.update ls .two l₁ .two, s₁.kernel.Runs x ∧ 0 + 1 ≤ (s₁.kernel.proc x).pr := by
      intro x hx
      rw [Function.update_self, hl₁] at hx
      obtain ⟨hx, hr⟩ := List.mem_filter.1 hx
      have hr' : s.kernel.Runs x := by simpa using hr
      have hpr := hne x hx hr'
      rw [core_runs hw.core, core_pr hw.core]
      exact ⟨hr', by omega⟩
    obtain ⟨s', hw₂, hend⟩ := search_rounds 2 (s := s₁.goto 0 (.l2 (0 + 1) (s₁.kernel.queue .two).front)) (by omega)
      (hw₁.start h) (goto_pc _ _ _) hall
    have hw' := hw₁.trans hw₂
    rw [Function.update_self] at hw' hend
    refine ⟨s', l₁, hw', hend.imp (fun hb => ⟨hb.1, hb.2, fun x hx hr => ?_⟩) ?_⟩
    · have hmem : x ∈ l₁ := by
        rw [hl₁]
        exact List.mem_filter.2 ⟨hx, by simpa using hr⟩
      rw [hb.2] at hmem
      cases hmem
    · rintro ⟨m, p, hp, hm, hpr, hfirst⟩
      have hpr' : (s.kernel.proc p).pr = m := (core_pr hw.core p).symm.trans hpr
      have hfirst' : FirstLeast s.kernel.Runs (fun x => (s.kernel.proc x).pr) l₁ p :=
        hfirst.congr (fun x => by rw [← core_runs hw.core]; rfl) fun x => core_pr hw.core x
      refine ⟨m, p, hp, hpr', hfirst'.of_sublist hnd hw.sub fun x hx hr => ?_, ?_⟩
      · rw [hl₁]
        exact List.mem_filter.2 ⟨hx, by simpa using hr⟩
      · unfold Swept
        dsimp only
        rw [if_neg (by omega)]
        exact hl₁
  | .l2 m (some p), hf =>
    obtain ⟨hpr, hfirst⟩ := hf.first fun _ _ _ => Nat.zero_le _
    obtain ⟨rfl, a, b, hl, hl₁, -⟩ := hf
    refine ⟨s₁, l₁, hw, .inr ⟨0, p, hpc₁, hpr, hfirst, ?_⟩⟩
    unfold Swept
    rw [if_pos hpr]
    exact ⟨a, b, hl, hl₁⟩

/-! ## A whole pass -/

/-- While `p` runs, processes that are on no queue are pushed to L0. -/
inductive Pushed (k : Kernel) : List Slot → Kernel → Prop
  | nil : Pushed k [] k
  | snoc {l : List Slot} {k₁ k₂ : Kernel} {x : Slot} (h : Pushed k l k₁) (f : Proc → Proc)
    (hx : ∀ q, isThere k₁ q x = .ok false) (hpush : pushLzero (k₁.upd x f) x = .ok k₂) : Pushed k (l ++ [x]) k₂

/-- `p`, which `s₁` dispatched, is back in `s₂`, and `new` were pushed. -/
structure Back (s₁ : State 1) (p : Slot) (new : List Slot) (s₂ : State 1) : Prop where
  pc : ∀ x, s₁.pc 0 = .run p x ∨ s₁.pc 0 = .held p x → s₂.pc 0 = .ret p x
  pushed : ∃ k, Pushed s₁.kernel new k ∧ s₂.kernel.queue = k.queue ∧ s₂.kernel.next = k.next
  lt : (s₂.kernel.proc p).lt = (s₁.kernel.proc p).lt
  state : (s₂.kernel.proc p).state ≠ .running
  ticks : s₂.kernel.ticks ≠ 100

/-- The pass comes to the dispatch of `p`, which is at level `q`; the queues are `ls₁` then. -/
structure Dispatched (s : State 1) (p : Slot) (q : Lv) (ls₁ : Lv → List Slot) (s₁ : State 1) : Prop where
  search : Search s s₁
  pc : ∃ x, x.home = some q ∧ (s₁.pc 0 = .run p x ∨ s₁.pc 0 = .held p x)
  core : s₁.kernel.core = (s.kernel.upd p fun x => { x with state := .running, chan := none }).core
  links : Links s₁.kernel ls₁
  mem : p ∈ ls₁ q
  tq : ∀ q, (s₁.kernel.queue q).tq = (s.kernel.queue q).tq

/-- The pass ends without a dispatch. -/
structure Ended (s : State 1) (ls₁ : Lv → List Slot) (s' : State 1) : Prop where
  search : Search s s'
  pc : s'.pc 0 = .top
  core : s'.kernel.core = s.kernel.core
  links : Links s'.kernel ls₁

theorem Pushed.links {new : List Slot} (h : Pushed k new k') (hl : Links k ls) :
    Links k' (Function.update ls .zero (ls .zero ++ new)) ∧ ∀ q, (k'.queue q).tq = (k.queue q).tq := by
  induction h with
  | nil =>
    rw [List.append_nil, Function.update_eq_self]
    exact ⟨hl, fun _ => rfl⟩
  | snoc h f hx hpush ih =>
    obtain ⟨hlinks, htq⟩ := ih
    have hfree : ∀ q, _ ∉ Function.update ls .zero _ q := fun q hmem =>
      absurd ((isThere_iff hlinks (hx q)).2 hmem) (by simp)
    have hnew := pushLzero_links (hlinks.upd_free hfree f) hfree hpush
    rw [Function.update_self, Function.update_idem, List.append_assoc] at hnew
    exact ⟨hnew, fun q => (push_tq hpush q).trans (htq q)⟩

/-- **The rest of a pass**, when the process is back. -/
theorem Dispatched.back {q : Lv} {new : List Slot} (h : Dispatched s p q ls s₁) (hb : Back s₁ p new s₂) :
    ∃ s', Part s₂ s' ∧ s'.pc 0 = .top ∧
      Sliced s₂.kernel p (fun x => x.slice q (s.kernel.queue q).tq) s'.kernel ∧
      Links s'.kernel (if (s.kernel.proc p).lt + 1 = (s.kernel.queue q).tq
        then settle (Function.update ls .zero (ls .zero ++ new)) q p
        else Function.update ls .zero (ls .zero ++ new)) := by
  obtain ⟨x, hx, hpc⟩ := h.pc
  have hret := hb.pc x hpc
  obtain ⟨k, hpushed, hqueue, hnext⟩ := hb.pushed
  obtain ⟨hlinks, htq⟩ := hpushed.links h.links
  have hlinks₂ : Links s₂.kernel (Function.update ls .zero (ls .zero ++ new)) := hlinks.congr hnext hqueue
  have htq₂ : (s₂.kernel.queue q).tq = (s.kernel.queue q).tq := by rw [hqueue, htq, h.tq]
  have hlt : (s₂.kernel.proc p).lt = (s.kernel.proc p).lt := by
    rw [hb.lt, core_lt h.core, upd_proc_self]
  have hmem : p ∈ Function.update ls .zero (ls .zero ++ new) q := by
    by_cases hq : q = .zero
    · subst hq
      rw [Function.update_self]
      exact List.mem_append_left new h.mem
    · rw [Function.update_of_ne hq]
      exact h.mem
  have hgo : ¬ (s₂.pc 0).Stop := by
    rw [hret]
    exact id
  -- from the end of the time slice to the end of the pass
  have hend : ∀ k', s₂.sched 0 = some (.ok ({ s₂ with kernel := k' }.goto 0 .boost)) →
      Sliced s₂.kernel p (fun x => x.slice q (s.kernel.queue q).tq) k' →
      Part s₂ (({ s₂ with kernel := k' }.goto 0 .boost).goto 0 .top) := by
    intro k' hsched hsliced
    refine ⟨.head hgo hsched (.one ?_ ?_), ?_⟩
    · rw [goto_pc]
      exact id
    · unfold State.sched
      rw [goto_pc]
      dsimp only
      have hticks : k'.ticks ≠ 100 := by
        rw [hsliced.ticks]
        exact hb.ticks
      rw [if_neg (by exact hticks)]
      rfl
    · rw [goto_pc]
      trivial
  cases x with
  | lock => cases hx
  | l0 =>
    cases hx
    obtain ⟨k', hk, hsliced, hl⟩ := demote_policy hlinks₂ hmem rfl
    rw [htq₂] at hsliced hl
    rw [hlt] at hl
    refine ⟨_, hend k' ?_ hsliced, goto_pc _ _ _, hsliced, hl⟩
    unfold State.sched
    rw [hret]
    dsimp only
    rw [hk]
    rfl
  | l1 =>
    cases hx
    obtain ⟨k', hk, hsliced, hl⟩ := demote_policy hlinks₂ hmem rfl
    rw [htq₂] at hsliced hl
    rw [hlt] at hl
    refine ⟨_, hend k' ?_ hsliced, goto_pc _ _ _, hsliced, hl⟩
    unfold State.sched
    rw [hret]
    dsimp only
    rw [hk]
    rfl
  | l2 =>
    cases hx
    obtain ⟨hsliced, hl⟩ : Sliced s₂.kernel p _ _ ∧ _ := promote_policy hlinks₂
    rw [htq₂] at hsliced hl
    rw [hlt] at hl
    refine ⟨_, hend _ ?_ hsliced, goto_pc _ _ _, hsliced, hl⟩
    unfold State.sched
    rw [hret]
    rfl

theorem sched_top (hpc : s.pc 0 = .top) (hlock : s.kernel.isLocked = false) :
    s.sched 0 = some (.ok (s.goto 0 .mlfq)) := by
  have hfree : s.Free := by
    intro c
    obtain rfl : c = 0 := Subsingleton.elim _ _
    rw [hpc]
    rfl
  unfold State.sched
  rw [hpc]
  dsimp only
  rw [if_pos hfree, hlock]
  rfl

theorem dispatch_stop (s : State 1) (p : Slot) (x : Kont) : ((s.dispatch 0 p x).pc 0).Stop := by
  rcases dispatch_pc s p x with h | h
  · rw [h]; trivial
  · rw [h]; trivial

theorem upd_core {f : Proc → Proc} (hf : ∀ x : Proc, (f x).core = (f x.core).core) :
    (k.upd p f).core = (k.core.upd p f).core := by
  have hproc : (fun x => ((k.upd p f).proc x).core) = fun x => ((k.core.upd p f).proc x).core := by
    funext x
    rw [upd_proc, upd_proc]
    split
    · exact hf _
    · rfl
  exact congrArg (fun g => ({ k.core with proc := g } : Kernel)) hproc

theorem dispatch_kernel (s : State 1) (p : Slot) (x : Kont) : (s.dispatch 0 p x).kernel =
    s.kernel.upd p fun y => { y with state := .running, chan := none } := rfl

/-- **The branches for L0 and L1.** -/
theorem front_search (h : Start s.kernel ls) (hpc : s.pc 0 = .top) (hlock : s.kernel.isLocked = false) {x : Kont}
    (hx : x.home = some que) {l : List Slot} (hls : ls que = p :: l)
    (hsched : (s.goto 0 .mlfq).sched 0 = (s.goto 0 .mlfq).front 0 que x) :
    (s.kernel.Runs p → ∃ s₁, Dispatched s p que ls s₁) ∧
      (¬ s.kernel.Runs p → ∃ s', Ended s (Function.update ls que l) s') := by
  have hp : p ∈ ls que := by rw [hls]; exact List.mem_cons_self
  have hfront : (s.kernel.queue que).front = some p := by
    rw [(h.links.queue que).chain.head, hls]
    rfl
  have hgo : ¬ ((s.goto 0 .mlfq).pc 0).Stop := by
    rw [goto_pc]
    exact id
  unfold State.front at hsched
  rw [goto_kernel, hfront] at hsched
  dsimp only at hsched
  constructor
  · intro hr
    rw [if_neg (fun hi => (h.idle p).1 hi hr), if_pos (h.lt que p hp)] at hsched
    refine ⟨_, ⟨_, sched_top hpc hlock, .one hgo hsched, dispatch_stop _ p x⟩, ⟨x, hx, dispatch_pc _ p x⟩, rfl, ?_, hp,
      fun _ => rfl⟩
    rw [dispatch_kernel]
    exact h.links.congr (upd_next fun _ => rfl) rfl
  · intro hr
    obtain ⟨k', hdel, hlinks, hcore⟩ := drop_policy h.links hls
    rw [if_pos ((h.idle p).2 hr), hdel] at hsched
    have hstop : (({ s.goto 0 .mlfq with kernel := k' } : State 1).goto 0 .top).pc 0 = .top := goto_pc _ _ _
    refine ⟨_, ⟨_, sched_top hpc hlock, .one hgo hsched, ?_⟩, hstop, hcore, hlinks⟩
    rw [hstop]
    trivial

/-- **The branch for L2.** -/
theorem two_search (h : Start s.kernel ls) (hpc : s.pc 0 = .top) (hlock : s.kernel.isLocked = false)
    (h₀ : ls .zero = []) (h₁ : ls .one = []) :
    (∃ p l s₁, FirstLeast s.kernel.Runs (fun x => (s.kernel.proc x).pr) (ls .two) p ∧
      Swept s.kernel.Runs (fun x => (s.kernel.proc x).pr) p (ls .two) l ∧
      Dispatched s p .two (Function.update ls .two l) s₁) ∨
    (∀ x ∈ ls .two, ¬ s.kernel.Runs x) ∧
      (s.kernel.ticks ≠ 100 → ∃ s', Ended s (Function.update ls .two []) s') := by
  have hcount : ∀ q, (s.kernel.queue q).count = (ls q).length := fun q => (h.links.queue q).count
  have hgo : ¬ ((s.goto 0 .mlfq).pc 0).Stop := by
    rw [goto_pc]
    exact id
  -- the last test of a pass
  have hboost : ∀ {t : State 1} {ls' : Lv → List Slot}, Steps (s.goto 0 .mlfq) t → t.pc 0 = .boost →
      t.kernel.core = s.kernel.core → Links t.kernel ls' → s.kernel.ticks ≠ 100 → ∃ s', Ended s ls' s' := by
    intro t ls' hsteps ht hcore hlinks hticks
    have hticks' : t.kernel.ticks ≠ 100 := by
      have heq : t.kernel.ticks = s.kernel.ticks := by
        have hcong := congrArg Kernel.ticks hcore
        exact hcong
      rwa [heq]
    have hsched : t.sched 0 = some (.ok (t.goto 0 .top)) := by
      unfold State.sched
      rw [ht]
      dsimp only
      rw [if_neg hticks']
      rfl
    have hgo' : ¬ (t.pc 0).Stop := by
      rw [ht]
      exact id
    have hstop : (t.goto 0 .top).pc 0 = .top := goto_pc _ _ _
    refine ⟨_, ⟨_, sched_top hpc hlock, hsteps.trans (.one hgo' hsched), ?_⟩, hstop, hcore, hlinks⟩
    rw [hstop]
    trivial
  by_cases h2 : (s.kernel.queue .two).count = 0
  · -- nothing anywhere
    have hnil : ls .two = [] := (h.links.queue .two).eq_nil h2
    refine .inr ⟨by simp [hnil], fun hticks => ?_⟩
    have hsched : (s.goto 0 .mlfq).sched 0 = some (.ok ((s.goto 0 .mlfq).goto 0 .boost)) := by
      unfold State.sched
      rw [goto_pc]
      dsimp only
      rw [goto_kernel, hcount .zero, hcount .one, h₀, h₁, h2]
      rfl
    rw [← hnil, Function.update_eq_self]
    exact hboost (.one hgo hsched) (goto_pc _ _ _) rfl h.links hticks
  · set t := (s.goto 0 .mlfq).goto 0 (.l2 0 (s.kernel.queue .two).front) with ht
    have hsched : (s.goto 0 .mlfq).sched 0 = some (.ok t) := by
      unfold State.sched
      rw [goto_pc]
      dsimp only
      rw [goto_kernel, hcount .zero, hcount .one, h₀, h₁]
      rw [if_neg (by simp), if_neg (by simp), if_pos h2]
    have hstart : Start t.kernel ls := h
    obtain ⟨s', l, hw, hend⟩ := search_two hstart (goto_pc _ _ _)
    have hsteps : Steps (s.goto 0 .mlfq) s' := .head hgo hsched hw.steps
    rcases hend with ⟨hb, rfl, hnone⟩ | ⟨m, p, hp, hpr, hfirst, hswept⟩
    · exact .inr ⟨hnone, hboost hsteps hb hw.core hw.links⟩
    · have hruns : s.kernel.Runs p := by
        obtain ⟨l₁, l₂, -, hr, -⟩ := hfirst
        exact hr
      have hmem : p ∈ ls .two := by
        obtain ⟨l₁, l₂, hl, -⟩ := hfirst
        rw [hl]
        simp
      have hmem' : p ∈ l := by
        unfold Swept at hswept
        split at hswept
        · obtain ⟨a, b, -, rfl⟩ := hswept
          simp
        · rw [hswept]
          exact List.mem_filter.2 ⟨hmem, decide_eq_true hruns⟩
      have hmem₁ : p ∈ Function.update ls .two l .two := by rwa [Function.update_self]
      have hgo' : ¬ (s'.pc 0).Stop := by
        rw [hp]
        exact id
      have hstart' := hw.start hstart
      have hruns' : s'.kernel.Runs p := by
        rw [core_runs hw.core]
        exact hruns
      have hsched' : s'.sched 0 = some (.ok (s'.dispatch 0 p .l2)) := by
        unfold State.sched
        rw [hp]
        dsimp only
        rw [if_neg (fun hi => (hstart'.idle p).1 hi hruns'),
          if_pos ⟨(core_pr hw.core p).trans hpr, hstart'.lt .two p hmem₁⟩]
      refine .inl ⟨p, l, _, hfirst, hswept, ⟨_, sched_top hpc hlock, hsteps.trans (.one hgo' hsched'),
        dispatch_stop _ p .l2⟩, ⟨.l2, rfl, dispatch_pc _ p .l2⟩, ?_, ?_, hmem₁, hw.tq⟩
      · have hcore : s'.kernel.core = s.kernel.core := hw.core
        rw [dispatch_kernel, upd_core fun _ => rfl, hcore, ← upd_core fun _ => rfl]
      · rw [dispatch_kernel]
        exact hw.links.congr (upd_next fun _ => rfl) rfl

/-- **One pass of `scheduler` is the MLFQ policy.** On one CPU, with well formed queues, it dispatches the
process that the policy chooses, if any, and takes off the processes that do not want to run. When the process is
back, its time slice counts and it has moved down if its time was used up; nothing else has changed. -/
theorem pass_refines (h : Start s.kernel ls) (hpc : s.pc 0 = .top) (hlock : s.kernel.isLocked = false) :
    (∃ p q ls₁ s₁, Choice s.kernel.Runs (fun x => (s.kernel.proc x).pr) ls (some p) ls₁ ∧ Dispatched s p q ls₁ s₁ ∧
      ∀ new s₂, Back s₁ p new s₂ → ∃ s', Part s₂ s' ∧ s'.pc 0 = .top ∧
        Sliced s₂.kernel p (fun x => x.slice q (s.kernel.queue q).tq) s'.kernel ∧
        Links s'.kernel (if (s.kernel.proc p).lt + 1 = (s.kernel.queue q).tq
          then settle (Function.update ls₁ .zero (ls₁ .zero ++ new)) q p
          else Function.update ls₁ .zero (ls₁ .zero ++ new))) ∨
    ∃ ls₁, Choice s.kernel.Runs (fun x => (s.kernel.proc x).pr) ls none ls₁ ∧
      (s.kernel.ticks ≠ 100 → ∃ s', Ended s ls₁ s') := by
  have hcount : ∀ q, (s.kernel.queue q).count = (ls q).length := fun q => (h.links.queue q).count
  have hzero : ∀ {p l}, ls .zero = p :: l → (s.goto 0 .mlfq).sched 0 = (s.goto 0 .mlfq).front 0 .zero .l0 := by
    intro p l hl
    unfold State.sched
    rw [goto_pc]
    dsimp only
    rw [goto_kernel, hcount .zero, hl]
    rfl
  have hone : ∀ {p l}, ls .zero = [] → ls .one = p :: l →
      (s.goto 0 .mlfq).sched 0 = (s.goto 0 .mlfq).front 0 .one .l1 := by
    intro p l h₀ hl
    unfold State.sched
    rw [goto_pc]
    dsimp only
    rw [goto_kernel, hcount .zero, hcount .one, h₀, hl]
    rfl
  cases h₀ : ls .zero with
  | cons p l =>
    obtain ⟨hrun, hdrop⟩ := front_search h hpc hlock rfl h₀ (hzero h₀)
    by_cases hr : s.kernel.Runs p
    · obtain ⟨s₁, hd⟩ := hrun hr
      exact .inl ⟨p, .zero, ls, s₁, .zero h₀ hr, hd, fun new s₂ hb => hd.back hb⟩
    · exact .inr ⟨_, .dropZero h₀ hr, fun _ => hdrop hr⟩
  | nil =>
    cases h₁ : ls .one with
    | cons p l =>
      obtain ⟨hrun, hdrop⟩ := front_search h hpc hlock rfl h₁ (hone h₀ h₁)
      by_cases hr : s.kernel.Runs p
      · obtain ⟨s₁, hd⟩ := hrun hr
        exact .inl ⟨p, .one, ls, s₁, .one h₀ h₁ hr, hd, fun new s₂ hb => hd.back hb⟩
      · exact .inr ⟨_, .dropOne h₀ h₁ hr, fun _ => hdrop hr⟩
    | nil =>
      rcases two_search h hpc hlock h₀ h₁ with ⟨p, l, s₁, hfirst, hswept, hd⟩ | ⟨hnone, hend⟩
      · exact .inl ⟨p, .two, _, s₁, .two h₀ h₁ hfirst hswept, hd, fun new s₂ hb => hd.back hb⟩
      · exact .inr ⟨_, .none h₀ h₁ hnone, hend⟩

/-- L0 is empty, L1 is 0 and 2, and L2 is 1; 0 has one tick left on L1. -/
def queued : Kernel :=
  { Kernel.zero with
    proc := fun p => { Kernel.zero.proc p with
      state := if p < 3 then .runnable else .unused
      lt := if p = 0 then 5 else 0
      next := if p = 0 then some 2 else none }
    queue := fun
      | .zero => initQueue 0
      | .one => ⟨some 0, some 2, 2, 1, 6⟩
      | .two => ⟨some 1, some 1, 1, 2, 8⟩ }

def queuedLists : Lv → List Slot
  | .zero => []
  | .one => [0, 2]
  | .two => [1]

theorem queued_start : Start queued queuedLists where
  links := by
    refine ⟨fun q => ?_, fun q q' p hp hp' => ?_⟩
    · cases q with
      | zero => exact IsQueue.empty
      | one => exact ⟨⟨rfl, rfl, rfl⟩, rfl, fun _ => rfl⟩
      | two => exact ⟨⟨rfl, rfl⟩, rfl, fun _ => rfl⟩
    · cases q <;> cases q' <;> simp [queuedLists] at hp hp' ⊢
      · rw [hp'] at hp
        rcases hp with hp | hp <;> cases hp
      · rw [hp] at hp'
        rcases hp' with hp' | hp' <;> cases hp'
  lt q p hp := by
    cases q with
    | zero => cases hp
    | one => rcases List.mem_pair.1 hp with rfl | rfl <;> decide
    | two => rw [List.mem_singleton.1 hp]; decide
  pr _ _ _ := Nat.zero_le 3
  stopped p := by
    show (if p < 3 then ProcState.runnable else .unused) ≠ .running
    split <;> simp

/-- 0 is dispatched, uses up its time, and goes to the rear of L2. -/
theorem pass_refines_queued : ∃ ls₁ s₁ s₂ s', Dispatched (boot 1 queued) 0 .one ls₁ s₁ ∧ Back s₁ 0 [] s₂ ∧
    Part s₂ s' ∧ s'.pc 0 = .top ∧ Links s'.kernel (settle queuedLists .one 0) ∧ (s'.kernel.proc 0).lt = 0 := by
  rcases pass_refines (s := boot 1 queued) queued_start rfl rfl with
    ⟨p, q, ls₁, s₁, hchoice, hd, hback⟩ | ⟨ls₁, hchoice, -⟩
  · -- the front of L1 is chosen, and no queue changes
    obtain ⟨rfl, rfl⟩ : p = 0 ∧ ls₁ = queuedLists := by
      cases hchoice with
      | zero h₀ _ => cases h₀
      | one _ h₁ _ =>
        cases h₁
        exact ⟨rfl, rfl⟩
      | two _ h₁ _ _ => cases h₁
    obtain rfl : q = .one := by
      cases q with
      | zero => cases hd.mem
      | one => rfl
      | two => exact absurd (List.mem_singleton.1 hd.mem) (by decide)
    have hcont : ∀ x, s₁.pc 0 = .run 0 x ∨ s₁.pc 0 = .held 0 x → x = .l1 := by
      obtain ⟨y, hy, hpc⟩ := hd.pc
      intro x hx
      have hxy : x = y := by
        rcases hpc with hpc | hpc <;> rw [hpc] at hx <;> rcases hx with hx | hx
        · exact (Pc.run.inj hx).2.symm
        · cases hx
        · cases hx
        · exact (Pc.held.inj hx).2.symm
      rw [hxy]
      cases y with
      | l1 => rfl
      | _ => cases hy
    have hlt : (s₁.kernel.proc 0).lt = 5 := core_lt hd.core 0
    have hticks : s₁.kernel.ticks = 0 := congrArg Kernel.ticks hd.core
    have hproc : ((s₁.kernel.upd 0 fun x => { x with state := .runnable }).proc 0) =
        { s₁.kernel.proc 0 with state := .runnable } := upd_proc_self ..
    have hnext : (s₁.kernel.upd 0 fun x => { x with state := .runnable }).next = s₁.kernel.next :=
      upd_next fun _ => rfl
    set k := s₁.kernel.upd 0 fun x => { x with state := .runnable }
    let s₂ := { s₁ with kernel := k }.goto 0 (.ret 0 .l1)
    have hb : Back s₁ 0 [] s₂ := by
      refine ⟨fun x hx => ?_, ⟨_, .nil, rfl, hnext⟩, (congrArg Proc.lt hproc :), fun h => ?_, ?_⟩
      · rw [hcont x hx]
        exact goto_pc ..
      · cases (congrArg Proc.state hproc).symm.trans h
      · show s₁.kernel.ticks ≠ 100
        omega
    obtain ⟨s', hpart, hpc, hsliced, hlinks⟩ := hback [] s₂ hb
    refine ⟨_, s₁, s₂, s', hd, hb, hpart, hpc, ?_, ?_⟩
    · have hnew : Function.update queuedLists .zero (queuedLists .zero ++ []) = queuedLists :=
        Function.update_eq_self ..
      rw [hnew] at hlinks
      exact hlinks
    · have hself := congrArg Proc.lt hsliced.self
      have hlt₂ : (s₂.kernel.proc 0).lt = 5 := hb.lt.trans hlt
      unfold Proc.slice at hself
      rw [hlt₂, if_pos (by decide)] at hself
      exact hself
  · cases hchoice with
    | dropZero h₀ _ => cases h₀
    | dropOne _ h₁ hp =>
      cases h₁
      exact absurd rfl hp
    | none _ h₁ _ => cases h₁

end Xv6.Mlfq
