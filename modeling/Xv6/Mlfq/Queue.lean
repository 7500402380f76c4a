import Xv6.Lib.Chain
import Xv6.Mlfq.Model

/-!
# The three queues on one `next` field

`Represents`: one queue of the kernel is a list, whatever the others are.
`Links k ls`: the queues of `k` are the lists `ls`, and no process is on two of them.

* `push_core`, `del_core`: neither touches anything but queues and `next` fields.
* `push_represents`, `del_represents`: what they do to one queue, and to nothing else (`Within`).
* **`queue_refines_list`**: append, erase and membership, on any queue that is well formed.
* `push_links`, `del_links`, `del_notMem`: the same for all three queues.
-/

namespace Xv6.Mlfq

variable {k k' : Kernel} {ls : Lv → List Slot} {que : Lv} {p : Slot}

def Kernel.next (k : Kernel) (p : Slot) : Option Slot := (k.proc p).next

/-- The process without its place in a queue. -/
def Proc.core (x : Proc) : Proc := { x with next := none }

/-- The kernel without its queues. -/
def Kernel.core (k : Kernel) : Kernel :=
  { k with
    proc := fun p => { k.proc p with next := none }
    queue := fun q => initQueue q.level }

@[simp] theorem setNext_next (k : Kernel) (p : Slot) (v : Option Slot) :
    (k.setNext p v).next = Function.update k.next p v := by
  funext x
  by_cases hx : x = p
  · subst hx; simp [Kernel.next, Kernel.setNext, Kernel.upd]
  · simp [Kernel.next, Kernel.setNext, Kernel.upd, hx]

@[simp] theorem setNext_queue (k : Kernel) (p : Slot) (v : Option Slot) :
    (k.setNext p v).queue = k.queue := rfl

@[simp] theorem setNext_core (k : Kernel) (p : Slot) (v : Option Slot) :
    (k.setNext p v).core = k.core := by
  simp only [Kernel.core, Kernel.setNext, Kernel.upd]
  congr 1
  funext x
  by_cases hx : x = p
  · subst hx; simp
  · simp [hx]

@[simp] theorem setQueue_next (k : Kernel) (q : Lv) (v : Queue) : (k.setQueue q v).next = k.next := rfl

@[simp] theorem setQueue_core (k : Kernel) (q : Lv) (v : Queue) : (k.setQueue q v).core = k.core := rfl

@[simp] theorem setQueue_queue (k : Kernel) (q : Lv) (v : Queue) :
    (k.setQueue q v).queue = Function.update k.queue q v := rfl

theorem upd_proc (k : Kernel) (p : Slot) (f : Proc → Proc) (x : Slot) :
    (k.upd p f).proc x = if x = p then f (k.proc x) else k.proc x := by
  by_cases hx : x = p
  · subst hx; simp [Kernel.upd]
  · simp [Kernel.upd, hx]

theorem upd_proc_self (k : Kernel) (p : Slot) (f : Proc → Proc) : (k.upd p f).proc p = f (k.proc p) := by
  rw [upd_proc, if_pos rfl]

theorem upd_proc_ne (k : Kernel) {p x : Slot} (h : x ≠ p) (f : Proc → Proc) :
    (k.upd p f).proc x = k.proc x := by
  rw [upd_proc, if_neg h]

@[simp] theorem upd_queue (k : Kernel) (p : Slot) (f : Proc → Proc) : (k.upd p f).queue = k.queue := rfl

theorem upd_next {f : Proc → Proc} (hf : ∀ x, (f x).next = x.next) : (k.upd p f).next = k.next := by
  funext x
  simp only [Kernel.next, upd_proc]
  split
  · exact hf _
  · rfl

/-! ## What the queue operations leave alone -/

theorem push_core (h : push k que p = .ok k') : k'.core = k.core := by
  unfold push at h
  dsimp only at h
  split at h
  · cases h; simp
  · split at h
    · cases h
    · cases h; simp

theorem delLoop_core {fuel : ℕ} {a : Option Slot} (h : delLoop k que p fuel a = .ok k') :
    k'.core = k.core := by
  induction fuel generalizing a with
  | zero =>
    cases a with
    | none => cases h; rfl
    | some q => cases h
  | succ fuel ih =>
    cases a with
    | none => cases h; rfl
    | some q =>
      simp only [delLoop] at h
      split at h
      · cases h; simp
      · split at h
        · cases h; simp
        · split at h
          · cases h; simp
          · exact ih h

theorem del_core (h : del k que p = .ok k') : k'.core = k.core := by
  unfold del at h
  split at h
  · cases h
  · exact delLoop_core h

/-- A queue that keeps its time quantum. -/
theorem setQueue_tq (que : Lv) {m : Kernel} {v : Queue} (hm : m.queue = k.queue) (hv : v.tq = (k.queue que).tq)
    (q : Lv) : ((m.setQueue que v).queue q).tq = (k.queue q).tq := by
  rw [setQueue_queue, Function.update_apply]
  split
  · rename_i hq; rw [hv, hq]
  · rw [hm]

theorem push_tq (h : push k que p = .ok k') (q : Lv) : (k'.queue q).tq = (k.queue q).tq := by
  unfold push at h
  dsimp only at h
  split at h
  · cases h; exact setQueue_tq _ (by rfl) (by rfl) q
  · split at h
    · cases h
    · cases h; exact setQueue_tq _ (by rfl) (by rfl) q

theorem delLoop_tq {fuel : ℕ} {a : Option Slot} (h : delLoop k que p fuel a = .ok k') (q : Lv) :
    (k'.queue q).tq = (k.queue q).tq := by
  induction fuel generalizing a with
  | zero =>
    cases a with
    | none => cases h; rfl
    | some x => cases h
  | succ fuel ih =>
    cases a with
    | none => cases h; rfl
    | some x =>
      simp only [delLoop] at h
      split at h
      · cases h; exact setQueue_tq _ (by rfl) (by rfl) q
      · split at h
        · cases h; exact setQueue_tq _ (by rfl) (by rfl) q
        · split at h
          · cases h; exact setQueue_tq _ (by rfl) (by rfl) q
          · exact ih h

theorem del_tq (h : del k que p = .ok k') (q : Lv) : (k'.queue q).tq = (k.queue q).tq := by
  unfold del at h
  split at h
  · cases h
  · exact delLoop_tq h q

section Core

variable (h : k'.core = k.core) (x : Slot)
include h

theorem core_state : (k'.proc x).state = (k.proc x).state :=
  congrArg (fun c => (c.proc x).state) h

theorem core_ql : (k'.proc x).ql = (k.proc x).ql := congrArg (fun c => (c.proc x).ql) h

theorem core_chan : (k'.proc x).chan = (k.proc x).chan := congrArg (fun c => (c.proc x).chan) h

theorem core_proc : (k'.proc x).core = (k.proc x).core := congrArg (fun c => c.proc x) h

theorem core_lt : (k'.proc x).lt = (k.proc x).lt := congrArg (fun c => (c.proc x).lt) h

theorem core_pr : (k'.proc x).pr = (k.proc x).pr := congrArg (fun c => (c.proc x).pr) h

end Core

/-! ## One queue -/

/-- The queue is the list `l`. -/
def Kernel.Represents (k : Kernel) (que : Lv) (l : List Slot) : Prop :=
  IsQueue k.next (k.queue que).front (k.queue que).rear (k.queue que).count l

/-- Only the queue changes, and the `next` fields of processes in `l`. -/
structure Within (k : Kernel) (que : Lv) (l : List Slot) (k' : Kernel) : Prop where
  queue : ∀ q, q ≠ que → k'.queue q = k.queue q
  next : ∀ x, x ∉ l → k'.next x = k.next x

variable {l : List Slot}

theorem Kernel.Represents.length_le (h : k.Represents que l) : l.length ≤ NPROC := by
  have hcard := (IsQueue.nodup h).length_le_card
  rwa [Fintype.card_fin] at hcard

/-- **`push`** of a process that is not on the queue. -/
theorem push_represents (hQ : k.Represents que l) (hp : p ∉ l) (hpush : push k que p = .ok k') :
    k'.Represents que (l ++ [p]) ∧ Within k que (l ++ [p]) k' := by
  unfold push at hpush
  dsimp only at hpush
  split at hpush
  · rename_i h0
    cases hpush
    have hnil : l = [] := hQ.eq_nil h0
    refine ⟨?_, fun q hq => by simp [hq], fun x hx => ?_⟩
    · unfold Kernel.Represents
      simp only [setQueue_next, setNext_next, setQueue_queue, Function.update_self, hnil, List.nil_append, h0]
      exact .single (by simp)
    · have hxp : x ≠ p := by rintro rfl; simp at hx
      simp [hxp]
  · rename_i h0
    have hnil : l ≠ [] := by
      intro hnil; rw [hQ.count, hnil] at h0; exact h0 rfl
    split at hpush
    · cases hpush
    · rename_i y hy
      cases hpush
      have hyl : y ∈ l := by
        have hlast := hQ.rear hnil
        rw [hy] at hlast
        exact List.mem_of_getLast? hlast.symm
      refine ⟨?_, fun q hq => by simp [hq], fun x hx => ?_⟩
      · unfold Kernel.Represents at hQ ⊢
        simp only [setQueue_next, setNext_next, setQueue_queue, Function.update_self]
        rw [hy] at hQ
        exact hQ.snoc hnil hp
      · have hxp : x ≠ p := by rintro rfl; simp at hx
        have hxy : x ≠ y := by rintro rfl; simp [hyl] at hx
        simp [hxp, hxy]

theorem push_of_represents (hQ : k.Represents que l) (p : Slot) : ∃ k', push k que p = .ok k' := by
  unfold push
  dsimp only
  split
  · exact ⟨_, rfl⟩
  · rename_i h0
    have hne : l ≠ [] := by
      intro hnil
      rw [hQ.count, hnil] at h0
      exact h0 rfl
    rw [hQ.rear hne, List.getLast?_eq_some_getLast hne]
    exact ⟨_, rfl⟩

/-- Taking a process off a queue it is not on. -/
theorem delLoop_notMem {fuel : ℕ} {a : Option Slot} (hc : Chain k.next a l)
    (hp : p ∉ l) (h : delLoop k que p fuel a = .ok k') : k' = k := by
  induction fuel generalizing a l with
  | zero =>
    cases a with
    | none => cases h; rfl
    | some q => cases h
  | succ fuel ih =>
    cases a with
    | none => cases h; rfl
    | some q =>
      cases l with
      | nil => exact absurd hc (by simp [Chain])
      | cons x l =>
        obtain ⟨hq, hc⟩ := hc
        cases hq
        have hqp : q ≠ p := by rintro rfl; simp at hp
        have hnext : (k.proc q).next ≠ some p := by
          intro hn
          rw [show k.next q = some p from hn] at hc
          cases l with
          | nil => exact absurd hc (by simp [Chain])
          | cons y l => cases hc.1; simp at hp
        simp only [delLoop] at h
        rw [if_neg (by simp [hqp]), if_neg (by rintro ⟨h1, h2⟩; exact hnext (h1.trans h2)),
          if_neg hnext] at h
        exact ih hc (fun hm => hp (by simp [hm])) h

theorem del_represents_notMem (hQ : k.Represents que l) (hp : p ∉ l) (hdel : del k que p = .ok k') : k' = k := by
  unfold del at hdel
  split at hdel
  · cases hdel
  · exact delLoop_notMem hQ.chain hp hdel

/-- The walk of `del`: up to node `q` it has not met `p`. -/
theorem delLoop_represents (hQ : k.Represents que l) {fuel : ℕ} : ∀ {l₁ : List Slot} {q : Slot} {l₂ : List Slot},
    l = l₁ ++ q :: l₂ → (l₁ ≠ [] → q ≠ p) → p ∈ q :: l₂ → delLoop k que p fuel (some q) = .ok k' →
    k'.Represents que (l.erase p) ∧ Within k que l k' := by
  have hnd : l.Nodup := hQ.nodup
  induction fuel with
  | zero => intro l₁ q l₂ _ _ _ hd; cases hd
  | succ fuel ih =>
    intro l₁ q l₂ hl hfirst hp hd
    have hqmem : q ∈ l := by rw [hl]; simp
    have hother : ∀ x, x ∉ l → x ≠ q := by rintro x hx rfl; exact hx hqmem
    have hhead : (k.proc q).next = l₂.head? := by
      have hc := hQ.chain
      rw [hl] at hc
      exact hc.suffix.head
    simp only [delLoop] at hd
    split at hd
    · -- `p` is the front
      rename_i hfp
      obtain ⟨hf, rfl⟩ := hfp
      cases hd
      have hnil : l₁ = [] := by by_contra hne; exact hfirst hne rfl
      subst hnil
      have herase : l.erase q = l₂ := by rw [hl]; simp
      refine ⟨?_, fun q' hq' => by simp [hq'], fun _ _ => rfl⟩
      rw [herase]
      unfold Kernel.Represents at hQ ⊢
      simp only [setQueue_next, setQueue_queue, Function.update_self]
      rw [hl] at hQ
      exact hQ.tail
    · rename_i hfp
      split at hd
      · -- `p` is the rear and comes after `q`
        rename_i hr
        obtain ⟨hqr, hrp⟩ := hr
        cases hd
        rw [hqr, hrp] at hhead
        obtain ⟨l₃, rfl⟩ : ∃ l₃, l₂ = p :: l₃ := by
          cases l₂ with
          | nil => simp at hhead
          | cons y l => simp at hhead; exact ⟨l, by rw [hhead]⟩
        have hnil : l₃ = [] := by
          have hlast := hQ.rear (by rw [hl]; simp)
          rw [hrp, hl] at hlast
          by_contra hne
          obtain ⟨l₄, z, rfl⟩ : ∃ l₄ z, l₃ = l₄ ++ [z] := ⟨_, _, (List.dropLast_append_getLast hne).symm⟩
          have hz : p = z := by
            have : (l₁ ++ q :: p :: (l₄ ++ [z])).getLast? = some z := by
              rw [show l₁ ++ q :: p :: (l₄ ++ [z]) = (l₁ ++ q :: p :: l₄) ++ [z] by simp]
              exact List.getLast?_concat
            rw [this] at hlast
            exact Option.some.inj hlast
          rw [hl, hz] at hnd
          simp [List.nodup_append] at hnd
        subst hnil
        rw [hl] at hnd
        have hp1 : p ∉ l₁ := by
          intro hm
          exact (List.nodup_append.1 hnd).2.2 p hm p (by simp) rfl
        have hpq : p ≠ q := by rintro rfl; simp [List.nodup_append] at hnd
        have herase : l.erase p = l₁ ++ [q] := by
          rw [hl, List.erase_append_right _ hp1]
          simp [hpq.symm]
        refine ⟨?_, fun q' hq' => by simp [hq'], fun x hx => by simp [hother x hx]⟩
        rw [herase]
        unfold Kernel.Represents at hQ ⊢
        simp only [setQueue_next, setNext_next, setQueue_queue, Function.update_self]
        rw [hl] at hQ
        exact hQ.dropLast
      · rename_i hr
        split at hd
        · -- `p` comes after `q`
          rename_i hqp
          cases hd
          rw [hqp] at hhead
          obtain ⟨l₃, rfl⟩ : ∃ l₃, l₂ = p :: l₃ := by
            cases l₂ with
            | nil => simp at hhead
            | cons y l => simp at hhead; exact ⟨l, by rw [hhead]⟩
          have hne : l₃ ≠ [] := by
            rintro rfl
            have hlast := hQ.rear (by rw [hl]; simp)
            rw [hl, show l₁ ++ [q, p] = (l₁ ++ [q]) ++ [p] by simp, List.getLast?_concat] at hlast
            exact hr ⟨hqp.trans hlast.symm, hlast⟩
          rw [hl] at hnd
          have hp1 : p ∉ l₁ := by
            intro hm
            exact (List.nodup_append.1 hnd).2.2 p hm p (by simp) rfl
          have hpq : p ≠ q := by rintro rfl; simp [List.nodup_append] at hnd
          have herase : l.erase p = l₁ ++ q :: l₃ := by
            rw [hl, List.erase_append_right _ hp1]
            simp [hpq.symm]
          refine ⟨?_, fun q' hq' => by simp [hq'], fun x hx => by simp [hother x hx]⟩
          rw [herase]
          unfold Kernel.Represents at hQ ⊢
          simp only [setQueue_next, setNext_next, setQueue_queue, Function.update_self]
          rw [hl] at hQ
          exact hQ.unlink hne
        · -- on to the next node
          rename_i hqp
          have hpq : p ≠ q := by
            rintro rfl
            cases l₁ with
            | nil =>
              have hf := hQ.chain.head
              rw [hl] at hf
              exact hfp ⟨hf, rfl⟩
            | cons y l => exact hfirst (by simp) rfl
          have hp2 : p ∈ l₂ := (List.mem_cons.1 hp).resolve_left hpq
          cases l₂ with
          | nil => simp at hp2
          | cons r l₃ =>
            have hnr : (k.proc q).next = some r := hhead
            rw [hnr] at hd
            refine ih (by rw [hl]; simp : l = (l₁ ++ [q]) ++ r :: l₃) (fun _ => ?_) hp2 hd
            rintro rfl
            exact hqp hnr

/-- **`del`** of a process that is on the queue. -/
theorem del_represents (hQ : k.Represents que l) (hp : p ∈ l) (hdel : del k que p = .ok k') :
    k'.Represents que (l.erase p) ∧ Within k que l k' := by
  unfold del at hdel
  split at hdel
  · cases hdel
  · have hf := hQ.chain.head
    cases l with
    | nil => cases hp
    | cons x l =>
      rw [hf] at hdel
      exact delLoop_represents hQ (List.nil_append (x :: l)).symm (fun h => absurd rfl h) hp hdel

theorem delLoop_total {fuel : ℕ} {a : Option Slot} (hc : Chain k.next a l)
    (hl : l.length ≤ fuel) : ∃ k', delLoop k que p fuel a = .ok k' := by
  induction fuel generalizing a l with
  | zero =>
    rw [List.length_eq_zero_iff.1 (Nat.le_zero.1 hl)] at hc
    rw [show a = none from hc]
    exact ⟨k, rfl⟩
  | succ fuel ih =>
    cases l with
    | nil =>
      rw [show a = none from hc]
      exact ⟨k, rfl⟩
    | cons x l =>
      obtain ⟨rfl, hc⟩ := hc
      have hlen : l.length ≤ fuel := by simpa using hl
      simp only [delLoop]
      split
      · exact ⟨_, rfl⟩
      · split
        · exact ⟨_, rfl⟩
        · split
          · exact ⟨_, rfl⟩
          · exact ih hc hlen

theorem isThereLoop_total {fuel : ℕ} {a : Option Slot} (hc : Chain k.next a l)
    (hl : l.length ≤ fuel) : isThereLoop k p fuel a = .ok (decide (p ∈ l)) := by
  induction fuel generalizing a l with
  | zero =>
    rw [List.length_eq_zero_iff.1 (Nat.le_zero.1 hl)] at hc ⊢
    rw [show a = none from hc]
    rfl
  | succ fuel ih =>
    cases l with
    | nil =>
      rw [show a = none from hc]
      rfl
    | cons x l =>
      obtain ⟨rfl, hc⟩ := hc
      simp only [isThereLoop]
      split
      · rename_i hx
        simp [hx]
      · rename_i hx
        have hlen : l.length ≤ fuel := by simpa using hl
        rw [show (k.proc x).next = k.next x from rfl, ih hc hlen]
        simp [Ne.symm hx]

theorem isThere_of_represents (hQ : k.Represents que l) (p : Slot) : isThere k que p = .ok (decide (p ∈ l)) :=
  isThereLoop_total hQ.chain hQ.length_le

theorem del_of_represents (hQ : k.Represents que l) (p : Slot) (hcount : (k.queue que).count ≠ 0) :
    ∃ k', del k que p = .ok k' := by
  unfold del
  rw [if_neg hcount]
  exact delLoop_total hQ.chain hQ.length_le

/-- **`push`, `del` and `isThere` are append, erase and membership**, and leave everything else on other queues
alone. -/
theorem queue_refines_list (k : Kernel) (que : Lv) (p : Slot) (l : List Slot) (h : k.Represents que l) :
    (p ∉ l → ∃ k', push k que p = .ok k' ∧ k'.Represents que (l ++ [p]) ∧ Within k que (l ++ [p]) k') ∧
      (0 < (k.queue que).count → ∃ k', del k que p = .ok k' ∧ k'.Represents que (l.erase p) ∧ Within k que l k') ∧
      isThere k que p = .ok (decide (p ∈ l)) := by
  refine ⟨fun hp => ?_, fun hcount => ?_, isThere_of_represents h p⟩
  · obtain ⟨k', hpush⟩ := push_of_represents h p
    exact ⟨k', hpush, push_represents h hp hpush⟩
  · obtain ⟨k', hdel⟩ := del_of_represents h p hcount.ne'
    refine ⟨k', hdel, ?_⟩
    by_cases hp : p ∈ l
    · exact del_represents h hp hdel
    · -- nothing is taken off
      obtain rfl := del_represents_notMem h hp hdel
      rw [List.erase_of_not_mem hp]
      exact ⟨h, fun _ _ => rfl, fun _ _ => rfl⟩

/-- L0 after three calls of `push`. -/
def threeInLzero (k : Kernel) : Kernel :=
  let k := ((k.setNext 0 (some 1)).setNext 1 (some 2)).setNext 2 none
  k.setQueue .zero ⟨some 0, some 2, 3, 0, 4⟩

theorem threeInLzero_represents (k : Kernel) : (threeInLzero k).Represents .zero [0, 1, 2] where
  chain := ⟨rfl, rfl, rfl, rfl⟩
  count := rfl
  rear _ := rfl

/-- The process in the middle is taken off, or another one is pushed. -/
theorem queue_refines_list_middle : (∃ k', del (threeInLzero .zero) .zero 1 = .ok k' ∧ k'.Represents .zero [0, 2]) ∧
    ∃ k', push (threeInLzero .zero) .zero 3 = .ok k' ∧ k'.Represents .zero [0, 1, 2, 3] := by
  have hrep := threeInLzero_represents .zero
  obtain ⟨k₁, hdel, hdel', -⟩ := (queue_refines_list _ .zero 1 [0, 1, 2] hrep).2.1 (Nat.zero_lt_succ 2)
  obtain ⟨k₂, hpush, hpush', -⟩ := (queue_refines_list _ .zero 3 [0, 1, 2] hrep).1 (by decide)
  exact ⟨⟨k₁, hdel, hdel'⟩, k₂, hpush, hpush'⟩

/-! ## The lists -/

/-- The queues are the lists `ls`, which share no process. -/
structure Links (k : Kernel) (ls : Lv → List Slot) : Prop where
  queue : ∀ q, IsQueue k.next (k.queue q).front (k.queue q).rear (k.queue q).count (ls q)
  disjoint : ∀ q q' p, p ∈ ls q → p ∈ ls q' → q = q'

theorem Links.congr (h : Links k ls) (hn : k'.next = k.next) (hq : k'.queue = k.queue) :
    Links k' ls := ⟨by rw [hn, hq]; exact h.queue, h.disjoint⟩

/-- One queue changes, and with it only `next` fields of processes on no other queue. -/
theorem Links.update (h : Links k ls) {l : List Slot}
    (hq : ∀ q, q ≠ que → k'.queue q = k.queue q)
    (hnext : ∀ q, q ≠ que → ∀ x ∈ ls q, k'.next x = k.next x)
    (hl : IsQueue k'.next (k'.queue que).front (k'.queue que).rear (k'.queue que).count l)
    (hnew : ∀ x ∈ l, ∀ q, q ≠ que → x ∉ ls q) : Links k' (Function.update ls que l) where
  queue q := by
    by_cases hqq : q = que
    · subst hqq; rw [Function.update_self]; exact hl
    · rw [Function.update_of_ne hqq, hq q hqq]
      exact (h.queue q).congr (hnext q hqq)
  disjoint q q' x hx hx' := by
    by_cases hqq : q = que <;> by_cases hqq' : q' = que
    · rw [hqq, hqq']
    · subst hqq
      rw [Function.update_self] at hx
      rw [Function.update_of_ne hqq'] at hx'
      exact absurd hx' (hnew x hx q' hqq')
    · subst hqq'
      rw [Function.update_self] at hx'
      rw [Function.update_of_ne hqq] at hx
      exact absurd hx (hnew x hx' q hqq)
    · rw [Function.update_of_ne hqq] at hx
      rw [Function.update_of_ne hqq'] at hx'
      exact h.disjoint q q' x hx hx'

/-- The process is on the queue: following `next` from its front visits the process. -/
def Kernel.On (k : Kernel) (que : Lv) (p : Slot) : Prop := Reaches k.next (k.queue que).front p

theorem Links.on_iff (h : Links k ls) : k.On que p ↔ p ∈ ls que := (h.queue que).chain.reaches_iff

theorem isThereLoop_iff {fuel : ℕ} {a : Option Slot} {b : Bool}
    (h : isThereLoop k p fuel a = .ok b) : b = true ↔ Reaches k.next a p := by
  induction fuel generalizing a with
  | zero =>
    cases a with
    | none => cases h; simp [not_reaches_none]
    | some q => cases h
  | succ fuel ih =>
    cases a with
    | none => cases h; simp [not_reaches_none]
    | some q =>
      simp only [isThereLoop] at h
      split at h
      · rename_i hqp; cases h; simp [reaches_some, hqp]
      · rename_i hqp
        rw [ih h, reaches_some]
        exact ⟨.inr, fun hm => hm.resolve_left (Ne.symm hqp)⟩

/-- `isThere` finds what is on the queue, whatever the queue looks like. -/
theorem isThere_on {b : Bool} (hi : isThere k que p = .ok b) : b = true ↔ k.On que p :=
  isThereLoop_iff hi

/-- **`isThere` decides membership.** -/
theorem isThere_iff {b : Bool} (h : Links k ls) (hi : isThere k que p = .ok b) :
    b = true ↔ p ∈ ls que := (isThere_on hi).trans h.on_iff

/-- **`push`** of a process that is on no queue. -/
theorem push_links (h : Links k ls) (hp : ∀ q, p ∉ ls q) (hpush : push k que p = .ok k') :
    Links k' (Function.update ls que (ls que ++ [p])) := by
  obtain ⟨hrep, hwithin⟩ := push_represents (h.queue que) (hp que) hpush
  have hnew : ∀ x ∈ ls que ++ [p], ∀ q, q ≠ que → x ∉ ls q := by
    intro x hx q hq hxq
    rcases List.mem_append.1 hx with hx | hx
    · exact hq (h.disjoint q que x hxq hx)
    · rw [List.mem_singleton.1 hx] at hxq
      exact hp q hxq
  exact h.update hwithin.queue (fun q hq x hx => hwithin.next x fun hl => hnew x hl q hq hx) hrep hnew

theorem del_notMem (h : Links k ls) (hp : p ∉ ls que) (hdel : del k que p = .ok k') : k' = k :=
  del_represents_notMem (h.queue que) hp hdel

/-- **`del`** of a process that is on the queue. -/
theorem del_links (h : Links k ls) (hp : p ∈ ls que) (hdel : del k que p = .ok k') :
    Links k' (Function.update ls que ((ls que).erase p)) := by
  obtain ⟨hrep, hwithin⟩ := del_represents (h.queue que) hp hdel
  have hother : ∀ x ∈ ls que, ∀ q, q ≠ que → x ∉ ls q := fun x hx q hq hxq => hq (h.disjoint q que x hxq hx)
  exact h.update hwithin.queue (fun q hq x hx => hwithin.next x fun hl => hother x hl q hq hx) hrep
    fun x hx => hother x (List.mem_of_mem_erase hx)

/-! ## Taking a process off during a walk -/

/-- On well formed queues `isThere` ends, and decides membership. -/
theorem isThere_total (h : Links k ls) (que : Lv) (p : Slot) : isThere k que p = .ok (decide (p ∈ ls que)) :=
  isThere_of_represents (h.queue que) p

theorem push_total (h : Links k ls) (que : Lv) (p : Slot) : ∃ k', push k que p = .ok k' :=
  push_of_represents (h.queue que) p

/-- A well formed queue is short enough for the walk of `del`. -/
theorem del_total (h : Links k ls) (hp : p ∈ ls que) : ∃ k', del k que p = .ok k' := by
  have hq := h.queue que
  refine del_of_represents hq p ?_
  intro h0
  rw [hq.eq_nil h0] at hp
  cases hp

theorem delLoop_next {fuel : ℕ} {a : Option Slot} {l : List Slot} (hc : Chain k.next a l)
    (h : delLoop k que p fuel a = .ok k') : k'.next p = k.next p := by
  induction fuel generalizing a l with
  | zero =>
    cases a with
    | none => cases h; rfl
    | some x => cases h
  | succ fuel ih =>
    cases l with
    | nil =>
      rw [show a = none from hc] at h
      cases h
      rfl
    | cons x l =>
      obtain ⟨rfl, hc'⟩ := hc
      -- the node before `p` is not `p`
      have hne : k.next x = some p → p ≠ x := by
        rintro hx rfl
        have hnd := Chain.nodup (show Chain k.next (some p) (p :: l) from ⟨rfl, hc'⟩)
        rw [hx] at hc'
        cases l with
        | nil => cases hc'
        | cons y l =>
          cases hc'.1
          simp at hnd
      simp only [delLoop] at h
      split at h
      · cases h; rfl
      · split at h
        · rename_i hr
          cases h
          simp [hne (hr.1.trans hr.2)]
        · split at h
          · rename_i hr
            cases h
            simp [hne hr]
          · exact ih hc' h

/-- The process that `del` takes off still points to its old successor. -/
theorem del_next_self (h : Links k ls) (hdel : del k que p = .ok k') : k'.next p = k.next p := by
  unfold del at hdel
  split at hdel
  · cases hdel
  · exact delLoop_next (h.queue que).chain hdel

end Xv6.Mlfq
