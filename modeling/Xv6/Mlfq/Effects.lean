import Xv6.Mlfq.Ops

/-!
# What the kernel functions do to the lists

For queues that are the lists `ls`, and with no run around them.

* **`boostPr_exact`**: `boostPr` empties L1 and L2 into L0 if and only if none of them has a second element:
  the loop goes on from the process that it has just put at the end of L0.
* **`wakeup1_exact`**: `wakeup1` moves the processes that it wakes to the end of their queues if and only if
  none of them is on L2.
-/

namespace Xv6.Mlfq

variable {k k' k'' : Kernel} {ls ls' : Lv → List Slot} {que : Lv} {p : Slot} {chan : Option Chan}

/-! ## `pushLzero` -/

theorem pushLzero_total (h : Links k ls) (hp : ∀ q, p ∉ ls q) : ∃ k', pushLzero k p = .ok k' :=
  push_total (h.upd_free hp _) .zero p

/-- A process that starts anew in L0. -/
def Proc.fresh (x : Proc) : Proc := { x with lt := 0, ql := 0, pr := 3 }

theorem pushLzero_core (hpush : pushLzero k p = .ok k') (x : Slot) :
    (k'.proc x).core = if x = p then (k.proc x).core.fresh else (k.proc x).core := by
  rw [core_proc (push_core hpush), upd_proc]
  split
  · rfl
  · rfl

theorem pushLzero_globals (hpush : pushLzero k p = .ok k') : k'.globals = k.globals :=
  (core_globals (push_core hpush) :)

/-! ## `boostPr` -/

/-- The first of the queue moves to the end of L0. -/
def raise (ls : Lv → List Slot) (que : Lv) : Lv → List Slot :=
  Function.update (Function.update ls que (ls que).tail) .zero (ls .zero ++ (ls que).take 1)

/-- **A loop of `boostPr`** ends after the first process: at the end of L0 it has no successor. -/
theorem boostLoop_effect (h : Links k ls) (hque : que ≠ .zero) :
    ∃ k', boostLoop que NPROC k (k.queue que).front = .ok k' ∧ Links k' (raise ls que) ∧ k'.globals = k.globals ∧
      ∀ x, (k'.proc x).core = if x ∈ (ls que).take 1 then (k.proc x).core.fresh else (k.proc x).core := by
  have hfront := (h.queue que).chain.head
  cases hl : ls que with
  | nil =>
    rw [hfront, hl]
    refine ⟨k, rfl, ?_, rfl, fun x => ?_⟩
    · have hsame : raise ls que = ls := by
        unfold raise
        rw [hl, List.tail_nil, List.take_nil, List.append_nil, ← hl, Function.update_eq_self, Function.update_eq_self]
      rwa [hsame]
    · rw [List.take_nil, if_neg (by simp)]
  | cons p l =>
    rw [hfront, hl]
    have hp : p ∈ ls que := by
      rw [hl]
      exact List.mem_cons_self
    obtain ⟨k₁, hdel⟩ := del_total h hp
    have hlinks := del_links h hp hdel
    have hfree := h.erase_free hp
    obtain ⟨k₂, hpush⟩ := pushLzero_total hlinks hfree
    have hlinks' := pushLzero_links hlinks hfree hpush
    refine ⟨k₂, ?_, ?_, ?_, fun x => ?_⟩
    · show (do
        let k ← del k que p
        let k ← pushLzero k p
        boostLoop que 63 k (k.proc p).next) = .ok k₂
      rw [hdel]
      show (do
        let k ← pushLzero k₁ p
        boostLoop que 63 k (k.proc p).next) = .ok k₂
      rw [hpush]
      show boostLoop que 63 k₂ (k₂.next p) = .ok k₂
      rw [show k₂.next p = none from push_next_self hpush]
      rfl
    · have hraise : raise ls que = Function.update (Function.update ls que ((ls que).erase p)) .zero
          (Function.update ls que ((ls que).erase p) .zero ++ [p]) := by
        unfold raise
        rw [Function.update_of_ne hque.symm, hl]
        simp
      rw [hraise]
      exact hlinks'
    · exact (pushLzero_globals hpush).trans (core_globals (del_core hdel))
    · rw [pushLzero_core hpush, core_proc (del_core hdel)]
      simp

/-- What `boostPr` makes of the lists. -/
def boosted (ls : Lv → List Slot) : Lv → List Slot := raise (raise ls .one) .two

theorem boosted_zero (ls : Lv → List Slot) :
    boosted ls .zero = ls .zero ++ (ls .one).take 1 ++ (ls .two).take 1 := rfl

theorem boosted_one (ls : Lv → List Slot) : boosted ls .one = (ls .one).tail := rfl

theorem boosted_two (ls : Lv → List Slot) : boosted ls .two = (ls .two).tail := rfl

/-- **`boostPr`** moves the first of L1 and the first of L2. -/
theorem boostPr_effect (h : Links k ls) : ∃ k', boostPr k = .ok k' ∧ Links k' (boosted ls) ∧ k'.ticks = 0 ∧
    ∀ x, (k'.proc x).core =
      if x ∈ (ls .one).take 1 ++ (ls .two).take 1 then (k.proc x).core.fresh else (k.proc x).core := by
  obtain ⟨k₁, hone, hlinks₁, -, hcore₁⟩ := boostLoop_effect h (show Lv.one ≠ Lv.zero by decide)
  obtain ⟨k₂, htwo, hlinks₂, -, hcore₂⟩ := boostLoop_effect hlinks₁ (show Lv.two ≠ Lv.zero by decide)
  refine ⟨{ k₂ with ticks := 0 }, ?_, hlinks₂.congr rfl rfl, rfl, fun x => ?_⟩
  · unfold boostPr
    rw [hone]
    show (do
      let k ← boostLoop .two NPROC k₁ (k₁.queue .two).front
      .ok { k with ticks := 0 }) = _
    rw [htwo]
    rfl
  · show (k₂.proc x).core = _
    rw [hcore₂, hcore₁]
    have htake : raise ls .one .two = ls .two := rfl
    rw [htake]
    by_cases h1 : x ∈ (ls .one).take 1 <;> by_cases h2 : x ∈ (ls .two).take 1 <;> simp [h1, h2, Proc.fresh]

/-- Everybody is on L0, in the order of the queues. -/
structure AllBoosted (ls : Lv → List Slot) (k' : Kernel) : Prop where
  links : Links k' fun q => if q = .zero then ls .zero ++ ls .one ++ ls .two else []
  fresh : ∀ x, x ∈ ls .one ++ ls .two → (k'.proc x).lt = 0 ∧ (k'.proc x).ql = 0 ∧ (k'.proc x).pr = 3
  ticks : k'.ticks = 0

theorem Links.unique (h : Links k ls) (h' : Links k ls') : ls = ls' := by
  funext q
  exact (h.queue q).unique (h'.queue q)

/-- **Who is boosted.** `boostPr` puts everybody on L0 if and only if neither L1 nor L2 has a second process. -/
theorem boostPr_exact (k : Kernel) (ls : Lv → List Slot) (h : Links k ls) :
    (∃ k', boostPr k = .ok k' ∧ AllBoosted ls k') ↔ (ls .one).length ≤ 1 ∧ (ls .two).length ≤ 1 := by
  obtain ⟨k', hk, hlinks, hticks, hcore⟩ := boostPr_effect h
  have htail : ∀ {l : List Slot}, l.tail = [] ↔ l.length ≤ 1 := by
    intro l
    rw [← List.length_eq_zero_iff, List.length_tail]
    omega
  constructor
  · rintro ⟨k'', hk'', hb⟩
    rw [hk] at hk''
    cases hk''
    have heq := hb.links.unique hlinks
    have hone := congrFun heq .one
    have htwo := congrFun heq .two
    rw [boosted_one] at hone
    rw [boosted_two] at htwo
    exact ⟨htail.1 hone.symm, htail.1 htwo.symm⟩
  · rintro ⟨hone, htwo⟩
    have htake : ∀ {l : List Slot}, l.length ≤ 1 → l.take 1 = l := fun h => List.take_of_length_le h
    refine ⟨k', hk, ⟨?_, fun x hx => ?_, hticks⟩⟩
    · have heq : boosted ls = fun q => if q = .zero then ls .zero ++ ls .one ++ ls .two else [] := by
        funext q
        cases q with
        | zero => rw [boosted_zero, htake hone, htake htwo, if_pos rfl]
        | one => rw [boosted_one, htail.2 hone, if_neg (by decide)]
        | two => rw [boosted_two, htail.2 htwo, if_neg (by decide)]
      rwa [heq] at hlinks
    · have hfresh := hcore x
      rw [htake hone, htake htwo, if_pos hx] at hfresh
      exact ⟨(congrArg Proc.lt hfresh :), (congrArg Proc.ql hfresh :), (congrArg Proc.pr hfresh :)⟩

/-- The process that is alone on a queue. -/
def Lv.only : Lv → Slot
  | .zero => 0
  | .one => 1
  | .two => 2

/-- One process on each queue. -/
def singles : Kernel :=
  { Kernel.zero with queue := fun q => ⟨some q.only, some q.only, 1, q.level, q.level * 2 + 4⟩ }

theorem singles_links : Links singles fun q => [q.only] where
  queue q := ⟨⟨rfl, rfl⟩, rfl, fun _ => rfl⟩
  disjoint q q' p hp hp' := by
    rw [List.mem_singleton.1 hp] at hp'
    have hq := List.mem_singleton.1 hp'
    cases q <;> cases q' <;> first | rfl | cases hq

/-- All three are on L0 then. -/
theorem boostPr_exact_singles : ∃ k', boostPr singles = .ok k' ∧ AllBoosted (fun q => [q.only]) k' :=
  (boostPr_exact singles _ singles_links).2 ⟨le_rfl, le_rfl⟩

/-- Two processes on one queue. -/
def pair (que : Lv) : Kernel :=
  (Kernel.zero.setNext 0 (some 1)).setQueue que ⟨some 0, some 1, 2, que.level, que.level * 2 + 4⟩

theorem pair_links (que : Lv) : Links (pair que) (Function.update (fun _ => []) que [0, 1]) := by
  constructor
  · intro q
    by_cases hq : q = que
    · subst hq
      have hqueue : (pair q).queue q = ⟨some 0, some 1, 2, q.level, q.level * 2 + 4⟩ := Function.update_self ..
      rw [hqueue, Function.update_self]
      exact ⟨⟨rfl, rfl, rfl⟩, rfl, fun _ => rfl⟩
    · have hqueue : (pair que).queue q = initQueue q.level := Function.update_of_ne hq ..
      rw [hqueue, Function.update_of_ne hq]
      exact IsQueue.empty
  · intro q q' p hp hp'
    have hmem : ∀ q, p ∈ Function.update (fun _ : Lv => ([] : List Slot)) que [0, 1] q → q = que := by
      intro q hq
      by_contra hne
      rw [Function.update_of_ne hne] at hq
      cases hq
    rw [hmem q hp, hmem q' hp']

/-- **Of two processes on L1, one stays there.** -/
theorem boostPr_leaves_one : ∃ k ls k', Links k ls ∧ boostPr k = .ok k' ∧ (k'.queue .one).front = some 1 ∧
    ¬ AllBoosted ls k' := by
  obtain ⟨k', hk, hlinks, -, -⟩ := boostPr_effect (pair_links .one)
  refine ⟨pair .one, _, k', pair_links .one, hk, ?_, fun hb => ?_⟩
  · exact (hlinks.queue .one).chain.head
  · have hone := congrFun (hb.links.unique hlinks) .one
    cases hone

/-! ## `wakeup1` -/

/-- The queue that a process is on, or L0. -/
def dest (ls : Lv → List Slot) (p : Slot) : Lv :=
  if p ∈ ls .one then .one else if p ∈ ls .two then .two else .zero

theorem Links.dest_eq (h : Links k ls) (hp : p ∈ ls que) : dest ls p = que := by
  unfold dest
  cases que with
  | zero =>
    have hone : p ∉ ls .one := fun hmem => absurd (h.disjoint _ _ p hmem hp) (by decide)
    have htwo : p ∉ ls .two := fun hmem => absurd (h.disjoint _ _ p hmem hp) (by decide)
    rw [if_neg hone, if_neg htwo]
  | one => rw [if_pos hp]
  | two =>
    have hone : p ∉ ls .one := fun hmem => absurd (h.disjoint _ _ p hmem hp) (by decide)
    rw [if_neg hone, if_pos hp]

instance (ls : Lv → List Slot) (p : Slot) : Decidable (Linked ls p) :=
  decidable_of_iff (p ∈ ls .zero ∨ p ∈ ls .one ∨ p ∈ ls .two) (by
    constructor
    · rintro (h | h | h)
      · exact ⟨.zero, h⟩
      · exact ⟨.one, h⟩
      · exact ⟨.two, h⟩
    · rintro ⟨q, h⟩
      cases q with
      | zero => exact .inl h
      | one => exact .inr (.inl h)
      | two => exact .inr (.inr h))

/-- Those who are woken go to the end of their queues, one after the other. -/
def awoken (ls : Lv → List Slot) (W : List Slot) : Lv → List Slot := fun q =>
  (ls q).filter (fun x => x ∉ W) ++ W.filter fun x => dest ls x = q

theorem awoken_nil (ls : Lv → List Slot) : awoken ls [] = ls := by
  funext q
  simp [awoken]

/-- One after the other. -/
theorem awoken_cons {W : List Slot} (hp : p ∉ W) (hdest : ∀ x ∈ W, dest (awoken ls [p]) x = dest ls x) :
    awoken (awoken ls [p]) W = awoken ls (p :: W) := by
  funext q
  have hW : (W.filter fun x => dest (awoken ls [p]) x = q) = W.filter fun x => dest ls x = q := by
    apply List.filter_congr
    intro x hx
    rw [hdest x hx]
  have hone : ([p].filter fun x => dest ls x = q).filter (fun x => x ∉ W) = [p].filter fun x => dest ls x = q := by
    apply List.filter_eq_self.2
    intro x hx
    obtain rfl : x = p := by simpa using (List.mem_filter.1 hx).1
    simpa using hp
  have hls : ((ls q).filter fun x => x ∉ [p]).filter (fun x => x ∉ W) = (ls q).filter fun x => x ∉ p :: W := by
    rw [List.filter_filter]
    apply List.filter_congr
    intro x _
    by_cases hxp : x = p <;> by_cases hxW : x ∈ W <;> simp [hxp, hxW]
  show List.filter _ (List.filter _ _ ++ List.filter _ _) ++ _ = _
  rw [hW, List.filter_append, hone, hls, List.append_assoc, ← List.filter_append]
  rfl

/-- One process goes to the end of its queue. -/
theorem awoken_single (h : Links k ls) (p : Slot) : awoken ls [p] =
    Function.update ls (dest ls p) ((ls (dest ls p)).erase p ++ [p]) := by
  funext q
  have hfilter : ((ls q).filter fun x => x ∉ [p]) = (ls q).erase p := by
    rw [(h.queue q).nodup.erase_eq_filter]
    apply List.filter_congr
    intro x _
    by_cases hx : x = p <;> simp [hx]
  unfold awoken
  rw [hfilter]
  by_cases hq : q = dest ls p
  · rw [hq, Function.update_self]
    simp
  · rw [Function.update_of_ne hq, List.erase_of_not_mem fun hp => hq (h.dest_eq hp).symm]
    simp [Ne.symm hq]

/-- A process that was asleep. -/
def Proc.woken (x : Proc) : Proc := { x with state := .runnable }

/-- **One process is woken**, and was not on L2. -/
theorem wakeSlot_effect (h : Links k ls) (hp : (k.proc p).state = .sleeping ∧ (k.proc p).chan = chan)
    (htwo : p ∉ ls .two) : ∃ k', wakeSlot chan k p = .ok k' ∧ Links k' (awoken ls [p]) ∧ k'.globals = k.globals ∧
      ∀ x, (k'.proc x).core = if x = p then
        if Linked ls x then (k.proc x).core.woken else (k.proc x).core.woken.fresh
      else (k.proc x).core := by
  have h₁ : Links (k.upd p Proc.woken) ls := h.congr (upd_next fun _ => rfl) rfl
  have hcore₁ : ∀ x, ((k.upd p Proc.woken).proc x).core = if x = p then (k.proc x).core.woken else (k.proc x).core := by
    intro x
    rw [upd_proc]
    split
    · rfl
    · rfl
  have hslot : wakeSlot chan k p = (do
      if ← isThere (k.upd p Proc.woken) .zero p then
        let k ← del (k.upd p Proc.woken) .zero p
        push k .zero p
      else if ← isThere (k.upd p Proc.woken) .one p then
        let k ← del (k.upd p Proc.woken) .one p
        push k .one p
      else if ← isThere (k.upd p Proc.woken) .two p then
        let k ← del (k.upd p Proc.woken) .one p
        push k .two p
      else pushLzero (k.upd p Proc.woken) p) := if_pos hp
  rw [awoken_single h]
  -- on a queue: to its end
  have hmove : ∀ que, p ∈ ls que → ∃ k', (do
        let k ← del (k.upd p Proc.woken) que p
        push k que p) = .ok k' ∧
      Links k' (Function.update ls (dest ls p) ((ls (dest ls p)).erase p ++ [p])) ∧ k'.globals = k.globals ∧
      ∀ x, (k'.proc x).core = if x = p then
        if Linked ls x then (k.proc x).core.woken else (k.proc x).core.woken.fresh
      else (k.proc x).core := by
    intro que hmem
    obtain ⟨k₂, hdel⟩ := del_total h₁ hmem
    have hlinks := del_links h₁ hmem hdel
    obtain ⟨k₃, hpush⟩ := push_total hlinks que p
    refine ⟨k₃, ?_, ?_, ?_, fun x => ?_⟩
    · rw [hdel]
      exact hpush
    · have hlinks' := push_links hlinks (h₁.erase_free hmem) hpush
      rw [Function.update_self, Function.update_idem] at hlinks'
      rwa [h.dest_eq hmem]
    · have h2 := core_globals (push_core hpush)
      have h1 := core_globals (del_core hdel)
      exact (h2.trans h1 :)
    · rw [core_proc (push_core hpush), core_proc (del_core hdel), hcore₁]
      split
      · rename_i hx
        rw [if_pos ⟨que, hx ▸ hmem⟩]
      · rfl
  rw [hslot, isThere_total h₁ .zero p]
  by_cases hzero : p ∈ ls .zero
  · obtain ⟨k', hk⟩ := hmove .zero hzero
    refine ⟨k', ?_, hk.2⟩
    rw [← hk.1]
    simp [hzero]
    rfl
  rw [isThere_total h₁ .one p]
  by_cases hone : p ∈ ls .one
  · obtain ⟨k', hk⟩ := hmove .one hone
    refine ⟨k', ?_, hk.2⟩
    rw [← hk.1]
    simp [hzero, hone]
    rfl
  rw [isThere_total h₁ .two p]
  have hfree : ∀ q, p ∉ ls q := by
    intro q
    cases q with
    | zero => exact hzero
    | one => exact hone
    | two => exact htwo
  obtain ⟨k', hpush⟩ := pushLzero_total h₁ hfree
  refine ⟨k', ?_, ?_, (pushLzero_globals hpush :), fun x => ?_⟩
  · rw [← hpush]
    simp [hzero, hone, htwo]
    rfl
  · have hdest : dest ls p = .zero := by
      unfold dest
      rw [if_neg hone, if_neg htwo]
    rw [hdest, List.erase_of_not_mem hzero]
    exact pushLzero_links h₁ hfree hpush
  · rw [pushLzero_core hpush, hcore₁]
    split
    · rename_i hx
      rw [if_neg]
      rintro ⟨q, hq⟩
      exact hfree q (hx ▸ hq)
    · rfl

/-- Who of the slots `l` sleeps on the channel. -/
def sleepers (k : Kernel) (chan : Option Chan) (l : List Slot) : List Slot :=
  l.filter fun p => (k.proc p).state = .sleeping ∧ (k.proc p).chan = chan

theorem mem_sleepers {l : List Slot} :
    p ∈ sleepers k chan l ↔ p ∈ l ∧ (k.proc p).state = .sleeping ∧ (k.proc p).chan = chan := by
  simp [sleepers]

theorem sleepers_cons_pos {l : List Slot} (hp : (k.proc p).state = .sleeping ∧ (k.proc p).chan = chan) :
    sleepers k chan (p :: l) = p :: sleepers k chan l := List.filter_cons_of_pos (decide_eq_true hp)

theorem sleepers_cons_neg {l : List Slot} (hp : ¬ ((k.proc p).state = .sleeping ∧ (k.proc p).chan = chan)) :
    sleepers k chan (p :: l) = sleepers k chan l := List.filter_cons_of_neg (by simpa using hp)

theorem sleepers_congr {l : List Slot} (h : ∀ x ∈ l, (k'.proc x).core = (k.proc x).core) :
    sleepers k' chan l = sleepers k chan l := by
  apply List.filter_congr
  intro x hx
  have hstate : (k'.proc x).state = (k.proc x).state := (congrArg Proc.state (h x hx) :)
  have hchan : (k'.proc x).chan = (k.proc x).chan := (congrArg Proc.chan (h x hx) :)
  rw [hstate, hchan]

/-- A process that goes to the end of its queue stays on it, and all others stay where they are. -/
theorem mem_awoken_single (h : Links k ls) {q : Lv} {x : Slot} (hx : x ≠ p) : x ∈ awoken ls [p] q ↔ x ∈ ls q := by
  rw [awoken_single h]
  by_cases hq : q = dest ls p
  · rw [hq, Function.update_self, List.mem_append, List.mem_singleton, or_iff_left hx, List.mem_erase_of_ne hx]
  · rw [Function.update_of_ne hq]

/-- **The loop of `wakeup1`**, when nobody whom it wakes is on L2. -/
theorem wakeLoop_effect : ∀ (l : List Slot) (k : Kernel) (ls : Lv → List Slot), Links k ls → l.Nodup →
    (∀ x ∈ sleepers k chan l, x ∉ ls .two) →
    ∃ k', l.foldlM (wakeSlot chan) k = .ok k' ∧ Links k' (awoken ls (sleepers k chan l)) ∧ k'.globals = k.globals ∧
      ∀ x, (k'.proc x).core = if x ∈ sleepers k chan l then
        if Linked ls x then (k.proc x).core.woken else (k.proc x).core.woken.fresh
      else (k.proc x).core := by
  intro l
  induction l with
  | nil =>
    intro k ls h _ _
    refine ⟨k, rfl, ?_, rfl, fun x => ?_⟩
    · rw [show sleepers k chan [] = [] from rfl, awoken_nil]
      exact h
    · rw [if_neg (by simp [sleepers])]
  | cons p l ih =>
    intro k ls h hnd htwo
    obtain ⟨hpl, hnd⟩ := List.nodup_cons.1 hnd
    rw [List.foldlM_cons]
    by_cases hp : (k.proc p).state = .sleeping ∧ (k.proc p).chan = chan
    · rw [sleepers_cons_pos hp] at htwo ⊢
      have hpt : p ∉ ls .two := htwo p List.mem_cons_self
      obtain ⟨k₁, hk₁, hlinks₁, hglobals₁, hcore₁⟩ := wakeSlot_effect h hp hpt
      have hne : ∀ x ∈ l, x ≠ p := by
        rintro x hx rfl
        exact hpl hx
      have hsame : sleepers k₁ chan l = sleepers k chan l := by
        apply sleepers_congr
        intro x hx
        rw [hcore₁, if_neg (hne x hx)]
      have hW : ∀ x ∈ sleepers k chan l, x ≠ p := fun x hx => hne x (mem_sleepers.1 hx).1
      obtain ⟨k₂, hk₂, hlinks₂, hglobals₂, hcore₂⟩ := ih k₁ (awoken ls [p]) hlinks₁ hnd (by
        intro x hx
        rw [hsame] at hx
        rw [mem_awoken_single h (hW x hx)]
        exact htwo x (List.mem_cons_of_mem p hx))
      rw [hsame] at hlinks₂ hcore₂
      refine ⟨k₂, ?_, ?_, hglobals₂.trans hglobals₁, fun x => ?_⟩
      · rw [hk₁]
        exact hk₂
      · rw [← awoken_cons (fun hmem => hW p hmem rfl) fun x hx => ?_]
        · exact hlinks₂
        · unfold dest
          simp only [mem_awoken_single h (hW x hx)]
      · rw [hcore₂, hcore₁]
        by_cases hxp : x = p
        · subst hxp
          rw [if_neg fun hx => hW x hx rfl, if_pos rfl, if_pos List.mem_cons_self]
        · have hlinked : Linked (awoken ls [p]) x ↔ Linked ls x := by
            unfold Linked
            simp only [mem_awoken_single h hxp]
          rw [if_neg hxp]
          simp only [hlinked, List.mem_cons, hxp, false_or]
    · rw [sleepers_cons_neg hp] at htwo ⊢
      have hslot : wakeSlot chan k p = .ok k := if_neg hp
      rw [hslot]
      exact ih k ls h hnd htwo

/-- What `wakeup1` is for. -/
structure Awoke (k : Kernel) (ls : Lv → List Slot) (chan : Option Chan) (k' : Kernel) : Prop where
  links : Links k' (awoken ls (sleepers k chan (List.finRange NPROC)))
  proc : ∀ x, (k'.proc x).core = if x ∈ sleepers k chan (List.finRange NPROC) then
      if Linked ls x then (k.proc x).core.woken else (k.proc x).core.woken.fresh
    else (k.proc x).core

/-! ### A sleeper on L2 -/

theorem push_queue_ne (h : push k que p = .ok k') {q : Lv} (hq : q ≠ que) : k'.queue q = k.queue q := by
  unfold push at h
  dsimp only at h
  split at h
  · cases h
    exact Function.update_of_ne hq ..
  · split at h
    · cases h
    · cases h
      exact Function.update_of_ne hq ..

theorem push_count (h : push k que p = .ok k') : (k'.queue que).count = (k.queue que).count + 1 := by
  unfold push at h
  dsimp only at h
  split at h
  · cases h
    rw [setQueue_queue, Function.update_self]
  · split at h
    · cases h
    · cases h
      rw [setQueue_queue, Function.update_self]

theorem delLoop_queue_ne {fuel : ℕ} {a : Option Slot} (h : delLoop k que p fuel a = .ok k') {q : Lv} (hq : q ≠ que) :
    k'.queue q = k.queue q := by
  induction fuel generalizing a with
  | zero =>
    cases a with
    | none =>
      cases h
      rfl
    | some x => cases h
  | succ fuel ih =>
    cases a with
    | none =>
      cases h
      rfl
    | some x =>
      simp only [delLoop] at h
      split at h
      · cases h
        exact Function.update_of_ne hq ..
      · split at h
        · cases h
          exact Function.update_of_ne hq ..
        · split at h
          · cases h
            exact Function.update_of_ne hq ..
          · exact ih h

theorem del_queue_ne (h : del k que p = .ok k') {q : Lv} (hq : q ≠ que) : k'.queue q = k.queue q := by
  unfold del at h
  split at h
  · cases h
  · exact delLoop_queue_ne h hq

/-- `wakeup1` takes nobody off L2. -/
theorem wakeSlot_count (h : wakeSlot chan k p = .ok k') : (k.queue .two).count ≤ (k'.queue .two).count := by
  rcases wakeSlot_cases h with ⟨rfl, -⟩ | ⟨-, k₁, rfl, hq⟩
  · exact le_refl _
  · rcases hq with ⟨-, k₂, h2, h3⟩ | ⟨-, ⟨-, k₂, h2, h3⟩ | ⟨-, ⟨-, k₂, h2, h3⟩ | ⟨-, h2⟩⟩⟩
    · rw [push_queue_ne h3 (by decide), del_queue_ne h2 (by decide)]
      rfl
    · rw [push_queue_ne h3 (by decide), del_queue_ne h2 (by decide)]
      rfl
    · rw [push_count h3, del_queue_ne h2 (by decide)]
      exact Nat.le_succ _
    · have hqueue := push_queue_ne h2 (show Lv.two ≠ .zero by decide)
      rw [hqueue]
      rfl

theorem wakeLoop_count {l : List Slot} (h : l.foldlM (wakeSlot chan) k = .ok k') :
    (k.queue .two).count ≤ (k'.queue .two).count := by
  refine foldlM_ok (P := fun b => (k.queue .two).count ≤ (b.queue .two).count) (fun _ _ _ _ hb hw => ?_) (le_refl _) h
  exact hb.trans (wakeSlot_count hw)

/-- **Who is woken on L2** is counted there once more. -/
theorem wakeLoop_miscount : ∀ (l : List Slot) (k : Kernel) (ls : Lv → List Slot), Links k ls → l.Nodup →
    (∃ x ∈ sleepers k chan l, x ∈ ls .two) → ∀ k', l.foldlM (wakeSlot chan) k = .ok k' →
    (ls .two).length < (k'.queue .two).count := by
  intro l
  induction l with
  | nil =>
    rintro k ls _ _ ⟨x, hx, -⟩
    cases hx
  | cons p l ih =>
    rintro k ls h hnd ⟨x, hx, hx2⟩ k' hk'
    obtain ⟨hpl, hnd⟩ := List.nodup_cons.1 hnd
    rw [List.foldlM_cons] at hk'
    obtain ⟨k₁, hk₁, hrest⟩ := bind_ok.1 hk'
    by_cases hp : (k.proc p).state = .sleeping ∧ (k.proc p).chan = chan
    · by_cases hp2 : p ∈ ls .two
      · -- `p` is linked into L2 once more
        refine Nat.lt_of_lt_of_le ?_ (wakeLoop_count hrest)
        have hfree : ∀ q, q ≠ .two → p ∉ ls q := fun q hq hmem => hq (h.disjoint _ _ p hmem hp2)
        rcases wakeSlot_cases hk₁ with ⟨-, hnot⟩ | ⟨-, k₂, rfl, hq⟩
        · exact absurd hp hnot
        have h₂ : Links (k.upd p fun x => { x with state := .runnable }) ls := h.congr (upd_next fun _ => rfl) rfl
        rcases hq with ⟨h0, -⟩ | ⟨-, ⟨h1, -⟩ | ⟨-, ⟨-, k₃, hdel, hpush⟩ | ⟨h2, -⟩⟩⟩
        · exact absurd ((isThere_iff h₂ h0).1 rfl) (hfree _ (by decide))
        · exact absurd ((isThere_iff h₂ h1).1 rfl) (hfree _ (by decide))
        · rw [push_count hpush, del_queue_ne hdel (by decide), (h₂.queue .two).count]
          exact Nat.lt_succ_self _
        · have := (isThere_iff h₂ h2).2 hp2
          cases this
      · obtain ⟨k₂, hk₂, hlinks₂, -, hcore₂⟩ := wakeSlot_effect h hp hp2
        rw [hk₂] at hk₁
        cases hk₁
        have hne : ∀ y ∈ l, y ≠ p := by
          rintro y hy rfl
          exact hpl hy
        have hxl : x ∈ sleepers k chan l := by
          rw [sleepers_cons_pos hp] at hx
          refine (List.mem_cons.1 hx).resolve_left ?_
          rintro rfl
          exact hp2 hx2
        have hsame : sleepers k₁ chan l = sleepers k chan l := by
          apply sleepers_congr
          intro y hy
          rw [hcore₂, if_neg (hne y hy)]
        have htwo : awoken ls [p] .two = ls .two := by
          rw [awoken_single h]
          apply Function.update_of_ne
          unfold dest
          rw [if_neg hp2]
          split
          · decide
          · decide
        have hlt := ih k₁ _ hlinks₂ hnd ⟨x, by rwa [hsame], by rwa [htwo]⟩ k' hrest
        rwa [htwo] at hlt
    · have hslot : wakeSlot chan k p = .ok k := if_neg hp
      rw [hslot] at hk₁
      cases hk₁
      rw [sleepers_cons_neg hp] at hx
      exact ih k ls h hnd ⟨x, hx, hx2⟩ k' hrest

/-- Nobody is lost on the way to the ends of the queues. -/
theorem length_awoken_two (h : Links k ls) {W : List Slot} (hW : W.Nodup) :
    (awoken ls W .two).length = (ls .two).length := by
  have hmem : ∀ x, dest ls x = .two ↔ x ∈ ls .two := by
    intro x
    constructor
    · intro hx
      unfold dest at hx
      split at hx
      · cases hx
      · split at hx
        · assumption
        · cases hx
    · exact h.dest_eq
  have hperm : (W.filter fun x => dest ls x = .two).Perm ((ls .two).filter fun x => x ∈ W) := by
    rw [List.perm_ext_iff_of_nodup (hW.filter _) ((h.queue .two).nodup.filter _)]
    intro x
    simp [hmem, and_comm]
  show (_ ++ _ : List Slot).length = _
  rw [List.length_append, hperm.length_eq]
  have hsplit := List.length_eq_length_filter_add (l := ls .two) fun x => decide (x ∈ W)
  simp only [← decide_not] at hsplit
  omega

/-- A sleeper on L2 is not woken as it should be. -/
theorem not_awoke (h : Links k ls) {x : Slot} (hs : (k.proc x).state = .sleeping) (hc : (k.proc x).chan = chan)
    (hx : x ∈ ls .two) : ¬ ∃ k', wakeup1 k chan = .ok k' ∧ Awoke k ls chan k' := by
  rintro ⟨k', hk', ha⟩
  have hnd : (List.finRange NPROC).Nodup := List.nodup_finRange NPROC
  have hsleeps : x ∈ sleepers k chan (List.finRange NPROC) := mem_sleepers.2 ⟨List.mem_finRange x, hs, hc⟩
  have hlt := wakeLoop_miscount _ k ls h hnd ⟨x, hsleeps, hx⟩ k' hk'
  have hcount := (ha.links.queue .two).count
  have hlength : (awoken ls (sleepers k chan (List.finRange NPROC)) .two).length = (ls .two).length :=
    length_awoken_two h (hnd.filter _)
  omega

/-- **Who is woken.** `wakeup1` wakes those who sleep on the channel, and moves them to the end of their queues and
nobody else, if and only if none of them is on L2. -/
theorem wakeup1_exact (k : Kernel) (ls : Lv → List Slot) (chan : Option Chan) (h : Links k ls) :
    (∃ k', wakeup1 k chan = .ok k' ∧ Awoke k ls chan k') ↔
      ∀ x, (k.proc x).state = .sleeping → (k.proc x).chan = chan → x ∉ ls .two := by
  constructor
  · intro hwoken x hs hc hx
    exact not_awoke h hs hc hx hwoken
  · intro hcalm
    obtain ⟨k', hk', hlinks, -, hcore⟩ := wakeLoop_effect (List.finRange NPROC) k ls h (List.nodup_finRange NPROC)
      fun x hx => by
        obtain ⟨-, hs, hc⟩ := mem_sleepers.1 hx
        exact hcalm x hs hc
    exact ⟨k', hk', hlinks, hcore⟩

/-- Two processes on one queue, of which the first sleeps for the timer. -/
def pairAsleep (que : Lv) : Kernel := (pair que).upd 0 fun x => { x with state := .sleeping, chan := some .ticks }

theorem pairAsleep_links (que : Lv) : Links (pairAsleep que) (Function.update (fun _ => []) que [0, 1]) :=
  (pair_links que).congr (upd_next fun _ => rfl) rfl

theorem wakeup1_exact_pair : (∃ k', wakeup1 (pairAsleep .one) (some .ticks) = .ok k' ∧
      Awoke (pairAsleep .one) (Function.update (fun _ => []) .one [0, 1]) (some .ticks) k') ↔
    ∀ x, ((pairAsleep .one).proc x).state = .sleeping → ((pairAsleep .one).proc x).chan = some .ticks →
      x ∉ Function.update (fun _ => []) Lv.one [(0 : Slot), 1] .two :=
  wakeup1_exact _ _ _ (pairAsleep_links .one)

/-- **A sleeper on L2** is taken out of L1, which is empty. -/
theorem wakeup1_pops_empty : ∃ k ls, Links k ls ∧ (wakeup1 k (some .ticks)).isOk = false ∧
    ¬ ∃ k', wakeup1 k (some .ticks) = .ok k' ∧ Awoke k ls (some .ticks) k' :=
  ⟨pairAsleep .two, _, pairAsleep_links .two, by decide,
    not_awoke (pairAsleep_links .two) (x := 0) rfl rfl (by decide)⟩

end Xv6.Mlfq
