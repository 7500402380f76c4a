import Xv6.Mlfq.Effects

/-!
# What the end of the scheduler lock does to the lists

The end of the lock puts its owner before the front of L0 by hand, without taking it out of anywhere, and boosts
if it was the time that ended the lock.

* `toFront`: what should become of the lists.
* `BoostOne`: what a loop of `boostPr` does, whatever the queues look like.
* **`releaseLock_exact`**: when the owner is the first of L0 and nowhere else, and the lists are well formed.
-/

namespace Xv6.Mlfq

variable {k k' k'' : Kernel} {ls ls' : Lv → List Slot} {que : Lv} {p q : Slot}

/-- The process is the first of L0, and nowhere else. -/
def toFront (ls : Lv → List Slot) (q : Slot) : Lv → List Slot := fun que =>
  if que = .zero then q :: (ls .zero).erase q else (ls que).erase q

/-- The owner is first, and everybody else stays where it was, but for the boost. -/
def released (k : Kernel) (ls : Lv → List Slot) (q : Slot) : Lv → List Slot :=
  if k.isUnlocked then toFront ls q else boosted (toFront ls q)

theorem boosted_first (ls : Lv → List Slot) (q : Slot) : ∃ l, boosted (toFront ls q) .zero = q :: l ∧
    ∀ x ∈ (ls .zero).erase q, x ∈ l := by
  refine ⟨(ls .zero).erase q ++ (toFront ls q .one).take 1 ++ (toFront ls q .two).take 1, rfl, fun x hx => ?_⟩
  rw [List.append_assoc]
  exact List.mem_append_left _ hx

theorem released_first (k : Kernel) (ls : Lv → List Slot) (q : Slot) : ∃ l, released k ls q .zero = q :: l ∧
    ∀ x ∈ (ls .zero).erase q, x ∈ l := by
  unfold released
  split
  · exact ⟨(ls .zero).erase q, rfl, fun _ hx => hx⟩
  · exact boosted_first ls q

/-- When the end of the lock does what it should. -/
def Fits (k : Kernel) (ls : Lv → List Slot) (q : Slot) : Prop :=
  (∀ que, q ∉ ls que) ∧ (ls .zero = [] → (k.queue .zero).rear = some q) ∨
    k.isUnlocked = false ∧ ls .zero = [q] ∧ (ls .one ≠ [] ∨ ls .two ≠ [])

/-! ## A loop of `boostPr`, whatever the queues look like -/

/-- The first process of the queue goes to the end of L0, and whoever was the rear there points to it. -/
structure BoostOne (k : Kernel) (que : Lv) (k' : Kernel) : Prop where
  other : ∀ lv, lv ≠ .zero → lv ≠ que → k'.queue lv = k.queue lv
  count : (k'.queue que).count = (k.queue que).count - 1
  zero : (k'.queue .zero).count = (k.queue .zero).count + if (k.queue que).count = 0 then 0 else 1
  front : (k'.queue .zero).front = (k.queue .zero).front
  rear : (k'.queue .zero).rear = if (k.queue que).count = 0 then (k.queue .zero).rear else (k.queue que).front
  next : ∀ x, (k.queue que).front ≠ some x → ((k.queue que).count ≠ 0 → (k.queue .zero).rear ≠ some x) →
    k'.next x = k.next x

theorem push_count_ne (h : push k que p = .ok k') (h0 : (k.queue que).count ≠ 0) : ∃ r, (k.queue que).rear = some r ∧
    k'.next = Function.update (Function.update k.next r (some p)) p none ∧
    k'.queue que = { k.queue que with rear := some p, count := (k.queue que).count + 1 } := by
  unfold push at h
  dsimp only at h
  rw [if_neg h0] at h
  split at h
  · cases h
  · rename_i r hr
    cases h
    refine ⟨r, hr, ?_, ?_⟩
    · simp
    · rw [setQueue_queue, Function.update_self]

/-- The front of a queue is taken off at once. -/
theorem del_front (hf : (k.queue que).front = some p) (h0 : (k.queue que).count ≠ 0) : del k que p =
    .ok (k.setQueue que { k.queue que with front := k.next p, count := (k.queue que).count - 1 }) := by
  unfold del
  rw [if_neg h0, hf]
  show delLoop k que p (63 + 1) (some p) = _
  rw [delLoop, if_pos ⟨hf, rfl⟩]
  rfl

/-- A loop of `boostPr` that has something to do. -/
theorem boostLoop_front (hf : (k.queue que).front = some p) (h0 : (k.queue que).count ≠ 0) :
    boostLoop que NPROC k (k.queue que).front =
      pushLzero (k.setQueue que { k.queue que with front := k.next p, count := (k.queue que).count - 1 }) p := by
  rw [hf]
  show (do
    let k ← del k que p
    let k ← pushLzero k p
    boostLoop que 63 k (k.proc p).next) = _
  rw [del_front hf h0]
  show (do
    let k ← pushLzero (k.setQueue que { k.queue que with front := k.next p, count := (k.queue que).count - 1 }) p
    boostLoop que 63 k (k.proc p).next) = _
  cases hpush : pushLzero (k.setQueue que { k.queue que with front := k.next p, count := (k.queue que).count - 1 }) p with
  | error e => rfl
  | ok k' =>
    show boostLoop que 63 k' (k'.next p) = .ok k'
    rw [show k'.next p = none from push_next_self hpush]
    rfl

/-- The front and the count of the queue go together. -/
def Kernel.Fair (k : Kernel) (que : Lv) : Prop := (k.queue que).front = none ↔ (k.queue que).count = 0

theorem Links.fair (h : Links k ls) (que : Lv) : k.Fair que := by
  have hq := h.queue que
  unfold Kernel.Fair
  rw [hq.chain.head, hq.count, List.head?_eq_none_iff, List.length_eq_zero_iff]

theorem boostLoop_one (hque : que ≠ .zero) (hfair : k.Fair que) (hzero : (k.queue .zero).count ≠ 0)
    (h : boostLoop que NPROC k (k.queue que).front = .ok k') : BoostOne k que k' := by
  by_cases h0 : (k.queue que).count = 0
  · rw [hfair.2 h0] at h
    cases h
    refine ⟨fun _ _ _ => rfl, by rw [h0], by rw [if_pos h0, Nat.add_zero], rfl, by rw [if_pos h0], fun _ _ _ => rfl⟩
  · obtain ⟨p, hp⟩ := Option.ne_none_iff_exists'.1 fun hnone => h0 (hfair.1 hnone)
    rw [boostLoop_front hp h0] at h
    set k₁ := k.setQueue que { k.queue que with front := k.next p, count := (k.queue que).count - 1 } with hk₁
    have hqz : k₁.queue .zero = k.queue .zero := Function.update_of_ne hque.symm ..
    obtain ⟨r, hr, hnext, hqueue⟩ := push_count_ne h (by
      show (k₁.queue .zero).count ≠ 0
      rwa [hqz])
    have hr' : (k.queue .zero).rear = some r := by
      rw [← hqz]
      exact hr
    have hz : k'.queue .zero = { k.queue .zero with rear := some p, count := (k.queue .zero).count + 1 } := by
      rw [hqueue, ← hqz]
      rfl
    refine ⟨fun lv hlv hlq => ?_, ?_, ?_, ?_, ?_, fun x hx hxr => ?_⟩
    · have hother := push_queue_ne h hlv
      rw [hother]
      exact Function.update_of_ne hlq ..
    · have hother := push_queue_ne h hque
      rw [hother]
      show (k₁.queue que).count = _
      rw [hk₁, setQueue_queue, Function.update_self]
    · rw [hz, if_neg h0]
    · rw [hz]
    · rw [hz, if_neg h0, hp]
    · have hxp : x ≠ p := by
        rintro rfl
        exact hx hp
      have hxr' : x ≠ r := by
        rintro rfl
        exact hxr h0 hr'
      rw [hnext, Function.update_of_ne hxp, Function.update_of_ne hxr']
      show ((k₁.upd p fun x => { x with lt := 0, ql := 0, pr := 3, next := none }).proc x).next = _
      rw [upd_proc_ne k₁ hxp]
      rfl

/-- `boostPr`, one loop after the other. -/
theorem boostPr_one (hone : k.Fair .one) (htwo : k.Fair .two) (hzero : (k.queue .zero).count ≠ 0)
    (h : boostPr k = .ok k') : ∃ k₁, BoostOne k .one k₁ ∧ BoostOne k₁ .two k' := by
  simp only [boostPr, bind_ok] at h
  obtain ⟨k₁, h1, k₂, h2, h3⟩ := h
  cases h3
  have hb := boostLoop_one (by decide) hone hzero h1
  have hfair : k₁.Fair .two := by
    unfold Kernel.Fair
    rw [hb.other .two (by decide) (by decide)]
    exact htwo
  have hb' := boostLoop_one (by decide) hfair (by rw [hb.zero]; omega) h2
  exact ⟨k₁, hb, ⟨hb'.other, hb'.count, hb'.zero, hb'.front, hb'.rear, hb'.next⟩⟩

/-! ## The lock ends -/

/-- The kernel after the owner was put before L0. -/
def lockEnd (k : Kernel) (q : Slot) (there : Bool) : Kernel :=
  if k.isUnlocked then { ((linkFront k q there).upd q fun x => { x with pr := 3, lt := 0 }) with isUnlocked := false }
  else { ((linkFront k q there).upd q fun x => { x with lt := 0 }) with isLocked := false, isUnlocked := false }

theorem releaseLock_eq (h : Links k ls) (q : Slot) : releaseLock k q =
    if k.isUnlocked then .ok (lockEnd k q (decide (q ∈ ls .zero))) else boostPr (lockEnd k q (decide (q ∈ ls .zero))) := by
  have hflag : ∀ b, (linkFront k q b).isUnlocked = k.isUnlocked := fun _ => rfl
  unfold releaseLock lockEnd
  rw [isThere_total h .zero q]
  show (if (linkFront k q (decide (q ∈ ls .zero))).isUnlocked = true then _ else _) = _
  rw [hflag]
  split
  · rfl
  · rfl

theorem lockEnd_next (k : Kernel) (q : Slot) (there : Bool) :
    (lockEnd k q there).next = Function.update k.next q (k.queue .zero).front := by
  have hlink : (linkFront k q there).next = Function.update k.next q (k.queue .zero).front := by
    unfold linkFront
    simp
  rw [← hlink]
  unfold lockEnd
  split
  · exact upd_next (f := fun x => { x with pr := 3, lt := 0 }) fun _ => rfl
  · exact upd_next (f := fun x => { x with lt := 0 }) fun _ => rfl

theorem lockEnd_queue (k : Kernel) (q : Slot) (there : Bool) : (lockEnd k q there).queue =
    Function.update k.queue .zero { k.queue .zero with
      front := some q, count := if there then (k.queue .zero).count else (k.queue .zero).count + 1 } := by
  unfold lockEnd
  split
  · rfl
  · rfl

theorem lockEnd_zero (k : Kernel) (q : Slot) (there : Bool) : (lockEnd k q there).queue .zero = { k.queue .zero with
      front := some q, count := if there then (k.queue .zero).count else (k.queue .zero).count + 1 } := by
  rw [lockEnd_queue, Function.update_self]

theorem lockEnd_other (k : Kernel) (q : Slot) (there : Bool) (hque : que ≠ .zero) :
    (lockEnd k q there).queue que = k.queue que := by
  rw [lockEnd_queue, Function.update_of_ne hque]

/-- What the block leaves, by what ended the lock. -/
theorem releaseLock_cases (h : Links k ls) (hr : releaseLock k q = .ok k') :
    k.isUnlocked = true ∧ k' = lockEnd k q (decide (q ∈ ls .zero)) ∨
    k.isUnlocked = false ∧ ∃ k₁, BoostOne (lockEnd k q (decide (q ∈ ls .zero))) .one k₁ ∧ BoostOne k₁ .two k' := by
  rw [releaseLock_eq h] at hr
  split at hr
  · rename_i hu
    cases hr
    exact .inl ⟨hu, rfl⟩
  · rename_i hu
    refine .inr ⟨by simpa using hu, boostPr_one ?_ ?_ ?_ hr⟩
    · unfold Kernel.Fair
      rw [lockEnd_other k q _ (by decide)]
      exact h.fair .one
    · unfold Kernel.Fair
      rw [lockEnd_other k q _ (by decide)]
      exact h.fair .two
    · rw [lockEnd_zero]
      show (if decide (q ∈ ls .zero) = true then _ else _) ≠ 0
      rw [(h.queue .zero).count]
      by_cases hq : q ∈ ls .zero
      · have hpos := List.length_pos_of_mem hq
        simp only [hq, decide_true, if_true]
        omega
      · simp [hq]

/-- **The counts** show that the owner was on L1 or L2. -/
theorem released_count (h : Links k ls) (hr : releaseLock k q = .ok k') (hl : Links k' (released k ls q)) :
    q ∉ ls .one ∧ q ∉ ls .two := by
  have hcount := fun que => (hl.queue que).count
  have hzero := hcount .zero
  have hone := hcount .one
  have htwo := hcount .two
  have hls := fun que => (h.queue que).count
  have herase : ∀ {l : List Slot}, q ∈ l → (l.erase q).length + 1 = l.length := fun hq => by
    have hpos := List.length_pos_of_mem hq
    rw [List.length_erase_of_mem hq]
    omega
  have hne : ∀ {l : List Slot}, q ∉ l → l.erase q = l := fun hq => List.erase_of_not_mem hq
  rcases releaseLock_cases h hr with ⟨hu, rfl⟩ | ⟨hu, k₁, hb₁, hb₂⟩
  · have hlists : released k ls q = toFront ls q := if_pos hu
    rw [hlists] at hone htwo
    rw [lockEnd_other k q _ (by decide), hls] at hone htwo
    have hone' : (ls .one).length = ((ls .one).erase q).length := hone
    have htwo' : (ls .two).length = ((ls .two).erase q).length := htwo
    constructor
    · intro hq
      have := herase hq
      omega
    · intro hq
      have := herase hq
      omega
  · have hlists : released k ls q = boosted (toFront ls q) := if_neg (by rw [hu]; decide)
    rw [hlists] at hzero hone htwo
    have hone₁ := lockEnd_other k q (decide (q ∈ ls .zero)) (show Lv.one ≠ .zero by decide)
    have htwo₁ := lockEnd_other k q (decide (q ∈ ls .zero)) (show Lv.two ≠ .zero by decide)
    rw [hb₂.zero, hb₁.zero, hb₁.other .two (by decide) (by decide), hone₁, htwo₁, lockEnd_zero] at hzero
    rw [hb₂.other .one (by decide) (by decide), hb₁.count, hone₁, hls] at hone
    rw [hb₂.count, hb₁.other .two (by decide) (by decide), htwo₁, hls] at htwo
    have hone' : (ls .one).length - 1 = ((ls .one).erase q).tail.length := hone
    have htwo' : (ls .two).length - 1 = ((ls .two).erase q).tail.length := htwo
    have hzero' : (if decide (q ∈ ls .zero) = true then (k.queue .zero).count else (k.queue .zero).count + 1) +
        (if (k.queue .one).count = 0 then 0 else 1) + (if (k.queue .two).count = 0 then 0 else 1) =
        (q :: (ls .zero).erase q ++ ((ls .one).erase q).take 1 ++ ((ls .two).erase q).take 1).length := hzero
    rw [List.length_tail] at hone' htwo'
    simp only [hls, List.length_append, List.length_cons, List.length_take, decide_eq_true_eq] at hzero'
    constructor
    · intro hq
      have hq0 : q ∉ ls .zero := fun hmem => absurd (h.disjoint _ _ q hmem hq) (by decide)
      have hq2 : q ∉ ls .two := fun hmem => absurd (h.disjoint _ _ q hmem hq) (by decide)
      have hlen := herase hq
      rw [if_neg hq0, hne hq0, hne hq2] at hzero'
      split_ifs at hzero' <;> omega
    · intro hq
      have hq0 : q ∉ ls .zero := fun hmem => absurd (h.disjoint _ _ q hmem hq) (by decide)
      have hq1 : q ∉ ls .one := fun hmem => absurd (h.disjoint _ _ q hmem hq) (by decide)
      have hlen := herase hq
      rw [if_neg hq0, hne hq0, hne hq1] at hzero'
      split_ifs at hzero' <;> omega

/-- Nothing leads back to the first node of a chain. -/
theorem first_not_next {next : Slot → Option Slot} {a : Option Slot} {l : List Slot} (hc : Chain next a (q :: l))
    {y : Slot} (hy : y ∈ q :: l) : next y ≠ some q := by
  intro hyq
  have hnd := hc.nodup
  obtain ⟨l₁, l₂, hl⟩ := List.append_of_mem hy
  rw [hl] at hc hnd
  have hsuffix := hc.suffix
  rw [hyq] at hsuffix
  obtain ⟨l₃, rfl⟩ : ∃ l₃, l₂ = q :: l₃ := by
    cases l₂ with
    | nil => cases hsuffix
    | cons z l₃ =>
      cases hsuffix.1
      exact ⟨l₃, rfl⟩
  -- `q` is the first, and comes once more after `y`
  cases l₁ with
  | nil =>
    cases hl
    simp at hnd
  | cons z l₁ =>
    cases hl
    simp at hnd

/-- If the owner was on L0, it is linked into a ring: its predecessor still points to it. -/
theorem ring (h : Links k ls) (hq : q ∈ ls .zero) (b : Bool) : ∃ y, (y = q ∨ y ∈ (ls .zero).erase q) ∧
    y ∈ ls .zero ∧ (lockEnd k q b).next y = some q ∧ ((k.queue .zero).rear = some y → ls .zero = [q]) := by
  have hQ := h.queue .zero
  have hnd := hQ.nodup
  rw [lockEnd_next]
  obtain ⟨l₁, l₂, hl⟩ := List.append_of_mem hq
  have hrear := hQ.rear (by rw [hl]; simp)
  rcases List.eq_nil_or_concat l₁ with rfl | ⟨l₃, y, rfl⟩
  · -- it is its own predecessor
    refine ⟨q, .inl rfl, hq, ?_, fun hy => ?_⟩
    · rw [Function.update_self, hQ.chain.head, hl]
      rfl
    · rw [hy, hl] at hrear
      rw [hl] at hnd ⊢
      cases l₂ with
      | nil => rfl
      | cons z l₂ =>
        rw [List.nil_append, List.getLast?_cons_cons] at hrear
        have hmem : q ∈ z :: l₂ := List.mem_of_getLast? hrear.symm
        exact absurd hmem (List.nodup_cons.1 hnd).1
  · rw [List.concat_eq_append] at hl
    have hyl : y ∈ ls .zero := by
      rw [hl]
      simp
    have hc := hQ.chain
    rw [hl] at hc hnd
    have hyq : y ≠ q := by
      rintro rfl
      simp [List.nodup_append] at hnd
    have hnext : k.next y = some q := by
      have hc' : Chain k.next (k.queue .zero).front (l₃ ++ y :: (q :: l₂)) := by simpa using hc
      exact hc'.suffix.1
    refine ⟨y, .inr ((List.mem_erase_of_ne hyq).2 hyl), hyl, ?_, fun hy => ?_⟩
    · rw [Function.update_of_ne hyq, hnext]
    · -- the rear has no successor
      rw [hy, hl] at hrear
      have hlast : (l₃ ++ [y] ++ q :: l₂).getLast? = (q :: l₂).getLast? := by
        rw [List.getLast?_append]
        simp [List.getLast?_cons]
      rw [hlast] at hrear
      have hmem : y ∈ q :: l₂ := List.mem_of_getLast? hrear.symm
      exact absurd rfl ((List.nodup_append.1 hnd).2.2 y (by simp) y hmem)

/-- Who the boost does not concern keeps its successor. -/
theorem boost_next (h : Links k ls) {b : Bool} {k₁ : Kernel} (hb₁ : BoostOne (lockEnd k q b) .one k₁)
    (hb₂ : BoostOne k₁ .two k') {x : Slot} (hone : x ∉ ls .one) (htwo : x ∉ ls .two)
    (hrear : ls .one ≠ [] ∨ ls .two ≠ [] → (k.queue .zero).rear ≠ some x) :
    k'.next x = (lockEnd k q b).next x := by
  have hqone := lockEnd_other k q b (show Lv.one ≠ .zero by decide)
  have hqtwo := lockEnd_other k q b (show Lv.two ≠ .zero by decide)
  have hrear₁ : ((lockEnd k q b).queue .zero).rear = (k.queue .zero).rear := by rw [lockEnd_zero]
  have hfront : ∀ que, x ∉ ls que → (k.queue que).front ≠ some x := by
    intro que hx hf
    rw [(h.queue que).chain.head] at hf
    exact hx (List.mem_of_mem_head? hf)
  have hne : ∀ que, (k.queue que).count ≠ 0 → ls que ≠ [] := by
    intro que h0 hnil
    rw [(h.queue que).count, hnil] at h0
    exact h0 rfl
  rw [hb₂.next x, hb₁.next x]
  · rw [hqone]
    exact hfront .one hone
  · intro h0
    rw [hqone] at h0
    rw [hrear₁]
    exact hrear (.inl (hne .one h0))
  · rw [hb₁.other .two (by decide) (by decide), hqtwo]
    exact hfront .two htwo
  · intro h0
    rw [hb₁.other .two (by decide) (by decide), hqtwo] at h0
    rw [hb₁.rear, hqone, hrear₁]
    split
    · exact hrear (.inr (hne .two h0))
    · exact hfront .one hone

/-- **The lists are as they should be only if** the end of the lock fits. -/
theorem fits_of_released (h : Links k ls) (hr : releaseLock k q = .ok k') (hl : Links k' (released k ls q)) :
    Fits k ls q := by
  obtain ⟨hone, htwo⟩ := released_count h hr hl
  obtain ⟨l, hfirst, hmem⟩ := released_first k ls q
  have hc := (hl.queue .zero).chain
  have hrear' := (hl.queue .zero).rear
  rw [hfirst] at hc hrear'
  by_cases hq : q ∈ ls .zero
  · -- a ring, unless the boost cuts it open
    obtain ⟨y, hy, hyl, hnext, hlast⟩ := ring h hq (decide (q ∈ ls .zero))
    have hyl' : y ∈ q :: l := by
      rcases hy with rfl | hy
      · exact List.mem_cons_self
      · exact List.mem_cons_of_mem q (hmem y hy)
    have hne := first_not_next hc hyl'
    rcases releaseLock_cases h hr with ⟨-, rfl⟩ | ⟨hu, k₁, hb₁, hb₂⟩
    · exact absurd hnext hne
    · by_contra hfits
      have hkeep := boost_next h hb₁ hb₂ (x := y) (fun hy1 => absurd (h.disjoint _ _ y hyl hy1) (by decide))
        (fun hy2 => absurd (h.disjoint _ _ y hyl hy2) (by decide))
        fun hpush hry => hfits (.inr ⟨hu, hlast hry, hpush⟩)
      rw [hkeep] at hne
      exact hne hnext
  · have hfree : ∀ que, q ∉ ls que := by
      intro que
      cases que with
      | zero => exact hq
      | one => exact hone
      | two => exact htwo
    refine .inl ⟨hfree, fun hnil => ?_⟩
    by_contra hrear
    rcases releaseLock_cases h hr with ⟨hu, rfl⟩ | ⟨hu, k₁, hb₁, hb₂⟩
    · -- the rear of L0 is somebody else
      have hl0 : l = [] := by
        have hlist : toFront ls q .zero = q :: l := by
          rw [← hfirst]
          exact congrFun (if_pos hu : released k ls q = toFront ls q).symm .zero
        have hlist' : toFront ls q .zero = [q] := by
          show q :: (ls .zero).erase q = _
          rw [hnil]
          rfl
        rw [hlist'] at hlist
        exact (List.cons.inj hlist).2.symm
      rw [hl0, lockEnd_zero] at hrear'
      exact hrear (hrear' (by simp))
    · -- and the owner has no successor
      have hkeep := boost_next h hb₁ hb₂ hone htwo fun _ => hrear
      have hend : k'.next q = none := by
        rw [hkeep, lockEnd_next, Function.update_self, (h.queue .zero).chain.head, hnil]
        rfl
      have hl0 : l = [] := by
        have hrest := hc.2
        rw [hend] at hrest
        cases l with
        | nil => rfl
        | cons z l => cases hrest.1
      have hlist : boosted (toFront ls q) .zero = [q] := by
        rw [← hl0, ← hfirst]
        exact congrFun (if_neg (by rw [hu]; decide) : released k ls q = boosted (toFront ls q)).symm .zero
      have hempty : ∀ que, (que = .one ∨ que = .two) → (k.queue que).count = 0 := by
        have hlen := congrArg List.length hlist
        have hlen' : (q :: (ls .zero).erase q ++ ((ls .one).erase q).take 1 ++ ((ls .two).erase q).take 1).length = 1 := hlen
        rw [List.erase_of_not_mem hone, List.erase_of_not_mem htwo] at hlen'
        simp only [List.length_append, List.length_cons, List.length_take] at hlen'
        rintro que (rfl | rfl)
        · rw [(h.queue .one).count]
          omega
        · rw [(h.queue .two).count]
          omega
      have hr1 := hb₁.rear
      have hr2 := hb₂.rear
      rw [lockEnd_other k q _ (show Lv.one ≠ .zero by decide), if_pos (hempty .one (.inl rfl)), lockEnd_zero] at hr1
      rw [hb₁.other .two (by decide) (by decide), lockEnd_other k q _ (show Lv.two ≠ .zero by decide),
        if_pos (hempty .two (.inr rfl)), hr1] at hr2
      rw [hl0, hr2] at hrear'
      exact hrear (hrear' (by simp))

/-! ## The other direction -/

theorem setNext_setNext (k : Kernel) (p : Slot) (v w : Option Slot) : (k.setNext p v).setNext p w = k.setNext p w := by
  unfold Kernel.setNext Kernel.upd
  simp

theorem setNext_self (k : Kernel) (p : Slot) : k.setNext p (k.next p) = k := by
  unfold Kernel.setNext Kernel.upd Kernel.next
  simp

/-- A link that is overwritten. -/
theorem setNext_upd_setNext (k : Kernel) {r : Slot} (hpr : p ≠ r) (f : Proc → Proc) (v w : Option Slot) :
    ((k.setNext r v).upd p f).setNext r w = (k.upd p f).setNext r w := by
  unfold Kernel.setNext Kernel.upd
  congr 1
  funext x
  by_cases hr : x = r
  · subst hr
    simp [hpr.symm]
  · by_cases hp : x = p
    · subst hp
      simp [hpr]
    · simp [hr, hp]

/-- What the rear of L0 points to does not matter to a push there. -/
theorem boostLoop_rear {r : Slot} (v : Option Slot) (hque : que ≠ .zero) (hf : (k.queue que).front = some p)
    (h0 : (k.queue que).count ≠ 0) (hr : (k.queue .zero).rear = some r) (hz : (k.queue .zero).count ≠ 0)
    (hpr : p ≠ r) : boostLoop que NPROC (k.setNext r v) ((k.setNext r v).queue que).front =
      boostLoop que NPROC k (k.queue que).front := by
  have hnext : (k.setNext r v).next p = k.next p := by rw [setNext_next, Function.update_of_ne hpr]
  have hpush : ∀ m : Kernel, m.queue = Function.update k.queue que
      { k.queue que with front := k.next p, count := (k.queue que).count - 1 } →
      pushLzero m p = .ok ((((m.upd p fun x => { x with lt := 0, ql := 0, pr := 3, next := none }).setNext r
        (some p)).setNext p none).setQueue .zero
        { k.queue .zero with rear := some p, count := (k.queue .zero).count + 1 }) := by
    intro m hm
    have hmz : m.queue .zero = k.queue .zero := by rw [hm, Function.update_of_ne hque.symm]
    unfold pushLzero push
    dsimp only
    rw [upd_queue, hmz, if_neg hz, hr]
  rw [boostLoop_front (k := k.setNext r v) hf h0, boostLoop_front hf h0, hnext, hpush _ rfl, hpush _ rfl]
  have hkernel := setNext_upd_setNext (k.setQueue que { k.queue que with front := k.next p, count := (k.queue que).count - 1 })
    hpr (fun x => { x with lt := 0, ql := 0, pr := 3, next := none }) v (some p)
  exact congrArg (fun m : Kernel => Except.ok ((m.setNext p none).setQueue .zero
    { k.queue .zero with rear := some p, count := (k.queue .zero).count + 1 })) hkernel

theorem boostPr_rear {r : Slot} (v : Option Slot) (h : Links k ls) (hzero : ls .zero = [r])
    (hpush : ls .one ≠ [] ∨ ls .two ≠ []) : boostPr (k.setNext r v) = boostPr k := by
  have hrear : (k.queue .zero).rear = some r := by
    rw [(h.queue .zero).rear (by rw [hzero]; simp), hzero]
    rfl
  have hcount : (k.queue .zero).count ≠ 0 := by
    rw [(h.queue .zero).count, hzero]
    simp
  -- a loop that pushes somebody
  have hloop : ∀ que, que ≠ .zero → ls que ≠ [] →
      boostLoop que NPROC (k.setNext r v) ((k.setNext r v).queue que).front =
        boostLoop que NPROC k (k.queue que).front := by
    intro que hque hne
    obtain ⟨p, l, hl⟩ := List.exists_cons_of_ne_nil hne
    refine boostLoop_rear v hque (p := p) ?_ ?_ hrear hcount ?_
    · rw [(h.queue que).chain.head, hl]
      rfl
    · rw [(h.queue que).count, hl]
      simp
    · rintro rfl
      exact hque (h.disjoint _ _ p (by rw [hl]; simp) (by rw [hzero]; simp))
  unfold boostPr
  by_cases hone : ls .one = []
  · have htwo : ls .two ≠ [] := by
      rcases hpush with h1 | h2
      · exact absurd hone h1
      · exact h2
    have hfront : (k.queue .one).front = none := by
      rw [(h.queue .one).chain.head, hone]
      rfl
    have hfront' : ((k.setNext r v).queue .one).front = none := hfront
    rw [hfront, hfront']
    show (do
      let k ← boostLoop .two NPROC (k.setNext r v) ((k.setNext r v).queue .two).front
      .ok { k with ticks := 0 }) = _
    rw [hloop .two (by decide) htwo]
    rfl
  · rw [hloop .one (by decide) hone]

/-- **The end of the lock does what it should if it fits.** -/
theorem released_of_fits (h : Links k ls) (hfits : Fits k ls q) :
    ∃ k', releaseLock k q = .ok k' ∧ Links k' (released k ls q) := by
  rw [releaseLock_eq h]
  unfold released
  rcases hfits with ⟨hfree, hrear⟩ | ⟨hu, hzero, hpush⟩
  · have hlists : Function.update ls .zero (q :: ls .zero) = toFront ls q := by
      funext que
      unfold toFront
      by_cases hque : que = .zero
      · rw [hque, Function.update_self, if_pos rfl, List.erase_of_not_mem (hfree .zero)]
      · rw [Function.update_of_ne hque, if_neg hque, List.erase_of_not_mem (hfree que)]
    have hb : decide (q ∈ ls .zero) = false := decide_eq_false (hfree .zero)
    rw [hb]
    have hlinks : Links (lockEnd k q false) (toFront ls q) := by
      rw [← hlists]
      refine (linkFront_links h hfree hrear).congr ?_ ?_
      · rw [lockEnd_next]
        unfold linkFront
        simp
      · rw [lockEnd_queue]
        rfl
    split
    · exact ⟨_, rfl, hlinks⟩
    · obtain ⟨k', hk, hlinks', -⟩ := boostPr_effect hlinks
      exact ⟨k', hk, hlinks'⟩
  · -- the owner is alone on L0, and linked to itself
    have hmem : q ∈ ls .zero := by
      rw [hzero]
      exact List.mem_cons_self
    have hq : ∀ que, que ≠ .zero → q ∉ ls que := fun que hque hx => hque (h.disjoint _ _ q hx hmem)
    have hlists : toFront ls q = ls := by
      funext que
      unfold toFront
      by_cases hque : que = .zero
      · rw [if_pos hque, hque, hzero]
        simp
      · rw [if_neg hque, List.erase_of_not_mem (hq que hque)]
    rw [hu, decide_eq_true hmem, hlists]
    have hQ := h.queue .zero
    have hfront : (k.queue .zero).front = some q := by
      rw [hQ.chain.head, hzero]
      rfl
    have hend : k.next q = none := by
      have hc := hQ.chain
      rw [hzero] at hc
      exact hc.2
    have hlinks : Links ((lockEnd k q true).setNext q none) ls := by
      refine h.congr ?_ ?_
      · rw [setNext_next, lockEnd_next, Function.update_idem, ← hend, Function.update_eq_self]
      · rw [setNext_queue, lockEnd_queue, if_pos rfl, ← hfront, Function.update_eq_self]
    have hself : lockEnd k q true = ((lockEnd k q true).setNext q none).setNext q ((lockEnd k q true).next q) := by
      rw [setNext_setNext, setNext_self]
    obtain ⟨k', hk, hlinks', -⟩ := boostPr_effect hlinks
    refine ⟨k', ?_, hlinks'⟩
    rw [← hk]
    exact (congrArg boostPr hself).trans (boostPr_rear _ hlinks hzero hpush)

/-- **The end of the scheduler lock** puts its owner before everybody else, and leaves the queues well formed and the
others where they were but for the boost, if and only if the owner was on no queue and L0 has a rear to begin with,
or a boost opens the ring that it is linked into. -/
theorem releaseLock_exact (k : Kernel) (ls : Lv → List Slot) (q : Slot) (h : Links k ls) :
    (∃ k', releaseLock k q = .ok k' ∧ Links k' (released k ls q)) ↔ Fits k ls q := by
  constructor
  · rintro ⟨k', hr, hl⟩
    exact fits_of_released h hr hl
  · exact released_of_fits h

theorem releaseLock_exact_pair : (∃ k', releaseLock (pair .zero) 2 = .ok k' ∧
      Links k' (released (pair .zero) (Function.update (fun _ => []) .zero [0, 1]) 2)) ↔
    Fits (pair .zero) (Function.update (fun _ => []) .zero [0, 1]) 2 :=
  releaseLock_exact _ _ _ (pair_links .zero)

/-- **An owner that is on L0** is linked before itself. -/
theorem releaseLock_ring : ∃ k ls q, Links k ls ∧ q ∈ ls .zero ∧
    ¬ ∃ k', releaseLock k q = .ok k' ∧ Links k' (released k ls q) := by
  refine ⟨pair .zero, _, 0, pair_links .zero, by decide, ?_⟩
  rintro ⟨k', hr, hl⟩
  rcases fits_of_released (pair_links .zero) hr hl with ⟨hfree, -⟩ | ⟨-, hzero, -⟩
  · exact hfree .zero (by decide)
  · revert hzero
    decide

end Xv6.Mlfq
