import Xv6.Cache.Model

/-!
# The LRU list

`binit` and `brelse` write the links of the list, and the two loops of `bget` follow them.

* `Lru s l`: the links describe a list of all buffers, the last released first.
* `cached_iff`, `unused_spec`: then the loops see every buffer.
* **`bget_sees_all`**: in every state that a run reaches, `bget` misses no cached block, and what it recycles is the
  least recently released of the buffers that nobody refers to and that are not dirty.
-/

namespace Xv6.Cache

variable {n : ℕ} {P D : Type*} {s s' : State n P D} {l : List (Fin n)}

structure Lru (s : State n P D) (l : List (Fin n)) : Prop where
  linked : s.list.Linked l
  all : ∀ b, b ∈ l
  /-- the last released first -/
  sorted : l.Pairwise fun x y => s.stamp y ≤ s.stamp x
  past : ∀ b, s.stamp b ≤ s.clock

/-- The loop of `binit`. -/
theorem pushFront_all {l' : List (Fin n)} {d : Circular (Fin n)} (h : d.Linked l') (l : List (Fin n))
    (hnd : l.Nodup) (hl : ∀ b ∈ l, b ∉ l') :
    (l.foldl (fun d b => d.pushFront b) d).Linked (l.reverse ++ l') := by
  induction l generalizing d l' with
  | nil => exact h
  | cons b l ih =>
    obtain ⟨hb, hnd'⟩ := List.nodup_cons.1 hnd
    rw [List.foldl_cons, List.reverse_cons, List.append_assoc]
    apply ih (h.pushFront (hl b (by simp))) hnd'
    intro x hx hmem
    rcases List.mem_cons.1 hmem with rfl | hmem
    · exact hb hx
    · exact hl x (by simp [hx]) hmem

theorem boot_lru (zero : D) (disk : ℕ → ℕ → D) : Lru (boot n P zero disk) (List.finRange n).reverse where
  linked := by
    have h := pushFront_all Circular.linked_empty (List.finRange n) (List.nodup_finRange n) (by simp)
    rwa [List.append_nil] at h
  all b := by simp
  sorted := by
    apply List.pairwise_of_forall
    exact fun _ _ => le_rfl
  past b := le_rfl

namespace Lru

theorem length_le (h : Lru s l) : l.length ≤ n := by
  have hcard := h.linked.nodup.length_le_card
  rwa [Fintype.card_fin] at hcard

theorem perm (h : Lru s l) : l.Perm (List.finRange n) := by
  rw [List.perm_ext_iff_of_nodup h.linked.nodup (List.nodup_finRange n)]
  intro b
  exact ⟨fun _ => List.mem_finRange b, fun _ => h.all b⟩

/-- Is the block already cached? -/
theorem cached_eq (h : Lru s l) (dev blockno : ℕ) : s.cached dev blockno =
    l.find? fun b => decide ((s.buf b).dev = dev ∧ (s.buf b).blockno = blockno) :=
  h.linked.next.scan _ h.length_le

theorem unused_eq (h : Lru s l) : s.unused =
    l.reverse.find? fun b => decide ((s.buf b).refcnt = 0) && !(s.buf b).dirty := by
  apply h.linked.prev.scan
  rw [List.length_reverse]
  exact h.length_le

theorem cached_some (h : Lru s l) {dev blockno : ℕ} {b : Fin n} (hb : s.cached dev blockno = some b) :
    (s.buf b).dev = dev ∧ (s.buf b).blockno = blockno := by
  rw [h.cached_eq] at hb
  simpa using List.find?_some hb

theorem cached_none (h : Lru s l) {dev blockno : ℕ} : s.cached dev blockno = none ↔
    ∀ b, ¬ ((s.buf b).dev = dev ∧ (s.buf b).blockno = blockno) := by
  rw [h.cached_eq, List.find?_eq_none]
  constructor
  · intro hall b
    simpa using hall b (h.all b)
  · intro hall b _
    simpa using hall b

theorem unused_none (h : Lru s l) : s.unused = none ↔ ∀ b, (s.buf b).refcnt ≠ 0 ∨ (s.buf b).dirty = true := by
  rw [h.unused_eq, List.find?_eq_none]
  constructor
  · intro hall b
    have hb := hall b (by simpa using h.all b)
    by_cases h0 : (s.buf b).refcnt = 0
    · exact .inr (by simpa [h0] using hb)
    · exact .inl h0
  · intro hall b _
    rcases hall b with h0 | hd
    · simp [h0]
    · simp [hd]

/-- What `bget` recycles. -/
theorem unused_some (h : Lru s l) {b : Fin n} (hb : s.unused = some b) :
    (s.buf b).refcnt = 0 ∧ (s.buf b).dirty = false ∧
      ∀ b', (s.buf b').refcnt = 0 → (s.buf b').dirty = false → s.stamp b ≤ s.stamp b' := by
  rw [h.unused_eq] at hb
  obtain ⟨hp, u, v, hl, hu⟩ := List.find?_eq_some_iff_append.1 hb
  obtain ⟨h0, hd⟩ : (s.buf b).refcnt = 0 ∧ (s.buf b).dirty = false := by simpa using hp
  refine ⟨h0, hd, fun b' h0' hd' => ?_⟩
  have hsorted : l.reverse.Pairwise fun x y => s.stamp x ≤ s.stamp y := List.pairwise_reverse.2 h.sorted
  have hmem : b' ∈ l.reverse := by simpa using h.all b'
  rw [hl] at hsorted hmem
  rcases List.mem_append.1 hmem with hmem | hmem
  · -- the loop has not passed a buffer that fits
    have hskip := hu b' hmem
    simp [h0', hd'] at hskip
  · rcases List.mem_cons.1 hmem with rfl | hmem
    · exact le_rfl
    · exact (List.pairwise_cons.1 (List.pairwise_append.1 hsorted).2.1).1 b' hmem

theorem congr (h : Lru s l) (hlist : s'.list = s.list) (hstamp : s'.stamp = s.stamp) (hclock : s'.clock = s.clock) :
    Lru s' l := by
  constructor
  · rw [hlist]
    exact h.linked
  · exact h.all
  · rw [hstamp]
    exact h.sorted
  · rw [hstamp, hclock]
    exact h.past

/-- A buffer goes to the front. -/
theorem toFront (h : Lru s l) (b : Fin n) : ∃ l', Lru (s.toFront b) l' := by
  obtain ⟨l₁, l₂, rfl⟩ := List.append_of_mem (h.all b)
  have hnd := h.linked.nodup
  have hb : b ∉ l₁ ++ l₂ := by
    rw [List.nodup_middle, List.nodup_cons] at hnd
    exact hnd.1
  have hne : ∀ x ∈ l₁ ++ l₂, Function.update s.stamp b (s.clock + 1) x = s.stamp x := by
    intro x hx
    rw [Function.update_of_ne]
    rintro rfl
    exact hb hx
  refine ⟨b :: (l₁ ++ l₂), ?_, ?_, ?_, ?_⟩
  · exact h.linked.remove.pushFront hb
  · intro x
    have hx := h.all x
    simp only [List.mem_append, List.mem_cons] at hx ⊢
    tauto
  · show List.Pairwise (fun x y => Function.update s.stamp b (s.clock + 1) y ≤
      Function.update s.stamp b (s.clock + 1) x) _
    rw [List.pairwise_cons]
    constructor
    · intro x hx
      rw [hne x hx, Function.update_self]
      have := h.past x
      omega
    · have hsub : (l₁ ++ l₂).Sublist (l₁ ++ b :: l₂) :=
        List.Sublist.append_left (List.sublist_cons_self b l₂) l₁
      refine List.Pairwise.imp_of_mem ?_ (h.sorted.sublist hsub)
      intro x y hx hy hxy
      rw [hne x hx, hne y hy]
      exact hxy
  · intro x
    show Function.update s.stamp b (s.clock + 1) x ≤ s.clock + 1
    by_cases hx : x = b
    · rw [hx, Function.update_self]
    · rw [Function.update_of_ne hx]
      have := h.past x
      omega

variable [DecidableEq P] {e : Event n P D} {fssize : ℕ} {havedisk1 : Bool}

theorem step (h : Lru s l) (hs : Step fssize s e s') : ∃ l', Lru s' l' := by
  cases hs with
  | @dropLast p b hp h1 =>
    have hdrop : Lru (s.drop p b) l := h.congr rfl rfl rfl
    exact hdrop.toFront b
  | @finish c error hd =>
    refine ⟨l, h.congr ?_ ?_ ?_⟩ <;> (unfold State.finish; split <;> rfl)
  | _ => exact ⟨l, h.congr rfl rfl rfl⟩

end Lru

variable [DecidableEq P] {fssize : ℕ} {havedisk1 : Bool} {zero : D} {disk : ℕ → ℕ → D} {es : List (Event n P D)}

theorem lru_run (h : (cache fssize havedisk1 n P D).run (boot n P zero disk) es = some (.ok s)) : ∃ l, Lru s l :=
  Machine.run_inv (I := fun s => ∃ l, Lru s l) ⟨_, boot_lru zero disk⟩
    (fun _ _ _ hl hs => by obtain ⟨l, hl⟩ := hl; exact hl.step (step_ok hs)) h

/-- **The loops of `bget`**: the links go once through all buffers, so a cached block is found, "no buffers" means that
all are in use, and the recycled buffer is the least recently released one that is not. -/
theorem bget_sees_all (h : (cache fssize havedisk1 n P D).run (boot n P zero disk) es = some (.ok s)) :
    (∃ l, s.list.Linked l ∧ l.Perm (List.finRange n)) ∧
    (∀ dev blockno, s.cached dev blockno = none ↔ ∀ b, ¬ ((s.buf b).dev = dev ∧ (s.buf b).blockno = blockno)) ∧
    (s.unused = none ↔ ∀ b, (s.buf b).refcnt ≠ 0 ∨ (s.buf b).dirty = true) ∧
    ∀ b, s.unused = some b → (s.buf b).refcnt = 0 ∧ (s.buf b).dirty = false ∧
      ∀ b', (s.buf b').refcnt = 0 → (s.buf b').dirty = false → s.stamp b ≤ s.stamp b' := by
  obtain ⟨l, hl⟩ := lru_run h
  exact ⟨⟨l, hl.linked, hl.perm⟩, fun dev blockno => hl.cached_none, hl.unused_none, fun b hb => hl.unused_some hb⟩

/-- Process 0 reads block 3. -/
def oneRead : List (Event 2 ℕ ℕ) := [.bread 0 1 3, .run 0, .run 0, .run 0, .finish false, .intr, .run 0]

theorem bget_sees_all_read : ∃ s, (cache 10 true 2 ℕ ℕ).run (boot 2 ℕ 0 fun _ _ => 0) oneRead = some (.ok s) ∧
    s.unused = some 1 ∧ ∀ b', (s.buf b').refcnt = 0 → (s.buf b').dirty = false → s.stamp 1 ≤ s.stamp b' := by
  obtain ⟨s, hs, hb⟩ : ∃ s, (cache 10 true 2 ℕ ℕ).run (boot 2 ℕ 0 fun _ _ => 0) oneRead = some (.ok s) ∧
      s.unused = some 1 := Machine.run_of_reaches (by decide)
  exact ⟨s, hs, hb, ((bget_sees_all hs).2.2.2 1 hb).2.2⟩

end Xv6.Cache
