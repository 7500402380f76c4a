import Xv6.Lib.Chain
import Xv6.Lib.Machine

/-!
# The page allocator

`kalloc.c`: the free pages are a list through their own first words, which belong to whoever has the page. Addresses are
physical, `kend` is the end of the kernel. What happens under `kmem.lock` is one event, and so is a boot phase, which
runs on one CPU.

* `machine`: processes get, write and free pages, before and after `kinit2`.
* `FreeList`: the list has the pages that nobody has.
* **`pages_conserved`**: it does so in every run whose callers write and free only what they have, and nobody panics.

The history variable `owner` says who has a page.
-/

namespace Xv6.Kalloc

abbrev PGSIZE : ℕ := 4096

abbrev PHYSTOP : ℕ := 0xE000000

/-- What `entrypgdir` maps, the end of `kinit1`. -/
abbrev KINIT1 : ℕ := 4 * 1024 * 1024

def PGROUNDUP (a : ℕ) : ℕ := (a + PGSIZE - 1) / PGSIZE * PGSIZE

structure Kmem where
  use_lock : Bool
  freelist : Option ℕ
  /-- the first word of a page, as a pointer -/
  next : ℕ → Option ℕ

inductive Fault
  /-- `panic("kfree")` -/
  | kfree
  deriving DecidableEq

/-- The word that `memset(v, 1, PGSIZE)` leaves. -/
def junk : ℕ := 0x01010101

def kfree (kend : ℕ) (k : Kmem) (v : ℕ) : Except Fault Kmem :=
  if v % PGSIZE ≠ 0 ∨ v < kend ∨ PHYSTOP ≤ v then .error .kfree
  else
    let k := { k with next := Function.update k.next v (some junk) }
    .ok { k with next := Function.update k.next v k.freelist, freelist := some v }

/-- `p + PGSIZE <= vend` for at most `n` pages. -/
def freeLoop (kend vend : ℕ) : ℕ → ℕ → Kmem → Except Fault Kmem
  | 0, _, k => .ok k
  | n + 1, p, k =>
    if p + PGSIZE ≤ vend then (kfree kend k p).bind (freeLoop kend vend n (p + PGSIZE)) else .ok k

def freerange (kend vstart vend : ℕ) (k : Kmem) : Except Fault Kmem :=
  freeLoop kend vend (vend / PGSIZE) (PGROUNDUP vstart) k

def kinit1 (kend : ℕ) (next : ℕ → Option ℕ) : Except Fault Kmem := freerange kend kend KINIT1 ⟨false, none, next⟩

def kinit2 (kend : ℕ) (k : Kmem) : Except Fault Kmem :=
  (freerange kend KINIT1 PHYSTOP k).map fun k => { k with use_lock := true }

def kalloc (k : Kmem) : Kmem × Option ℕ :=
  match k.freelist with
  | some r => ({ k with freelist := k.next r }, some r)
  | none => (k, none)

/-! ## The machine -/

structure State (P : Type*) where
  kmem : Kmem
  owner : ℕ → Option P

inductive Event (P : Type*)
  | kinit2
  | kalloc (p : P)
  | kfree (p : P) (v : ℕ)
  /-- `p` writes to the first word of a page -/
  | write (p : P) (v : ℕ) (word : Option ℕ)

variable {P : Type*}

def State.alloc (s : State P) (p : P) : State P :=
  match (kalloc s.kmem).2 with
  | some r => ⟨(kalloc s.kmem).1, Function.update s.owner r (some p)⟩
  | none => { s with kmem := (kalloc s.kmem).1 }

def State.write (s : State P) (v : ℕ) (word : Option ℕ) : State P :=
  { s with kmem := { s.kmem with next := Function.update s.kmem.next v word } }

def step (kend : ℕ) (s : State P) : Event P → Option (Except Fault (State P))
  | .kinit2 => some ((kinit2 kend s.kmem).map fun k => { s with kmem := k })
  | .kalloc p => some (.ok (s.alloc p))
  | .kfree _ v => some ((kfree kend s.kmem v).map fun k => ⟨k, Function.update s.owner v none⟩)
  | .write _ v word => some (.ok (s.write v word))

def machine (kend : ℕ) (P : Type*) : Machine (State P) (Event P) Fault := ⟨step kend⟩

def boot (kend : ℕ) (P : Type*) (next : ℕ → Option ℕ) : Except Fault (State P) :=
  (kinit1 kend next).map fun k => ⟨k, fun _ => none⟩

/-- `kinit2` is called once, and who frees a page or writes to it has it. -/
def Proper (s : State P) : Event P → Prop
  | .kinit2 => s.kmem.use_lock = false
  | .kalloc _ => True
  | .kfree p v => s.owner v = some p
  | .write p v _ => s.owner v = some p

/-! ## The free list -/

/-- A page between the kernel and `top`. -/
def IsPage (kend top v : ℕ) : Prop := kend ≤ v ∧ v % PGSIZE = 0 ∧ v + PGSIZE ≤ top

structure FreeList (kend top : ℕ) (k : Kmem) (owner : ℕ → Option P) : Prop where
  free : ∃ l, Chain k.next k.freelist l ∧ ∀ v, v ∈ l ↔ IsPage kend top v ∧ owner v = none
  owned : ∀ v p, owner v = some p → IsPage kend top v

variable {kend top : ℕ} {k : Kmem} {owner : ℕ → Option P}

/-- One page more. -/
theorem isPage_succ {p v : ℕ} (hp : p % PGSIZE = 0) (hk : kend ≤ p) :
    IsPage kend (p + PGSIZE) v ↔ IsPage kend p v ∨ v = p := by
  have hp' : p % 4096 = 0 := hp
  have h : (kend ≤ v ∧ v % 4096 = 0 ∧ v + 4096 ≤ p + 4096) ↔
      (kend ≤ v ∧ v % 4096 = 0 ∧ v + 4096 ≤ p) ∨ v = p := by omega
  exact h

theorem kfree_ok {v : ℕ} (hv : v % PGSIZE = 0) (hk : kend ≤ v) (htop : v < PHYSTOP) :
    kfree kend k v = .ok ⟨k.use_lock, some v, Function.update k.next v k.freelist⟩ := by
  unfold kfree
  rw [if_neg (by omega)]
  simp only [Function.update_idem]

/-- A page comes to the front of the list. -/
theorem FreeList.push (h : FreeList kend top k owner) {v top' : ℕ} {owner' : ℕ → Option P}
    (hv : ¬ (IsPage kend top v ∧ owner v = none))
    (hfree : ∀ x, IsPage kend top' x ∧ owner' x = none ↔ (IsPage kend top x ∧ owner x = none) ∨ x = v)
    (howned : ∀ x p, owner' x = some p → IsPage kend top' x) :
    FreeList kend top' ⟨k.use_lock, some v, Function.update k.next v k.freelist⟩ owner' := by
  obtain ⟨l, hl, hmem⟩ := h.free
  have hvl : v ∉ l := fun hin => hv ((hmem v).1 hin)
  refine ⟨⟨v :: l, ⟨rfl, ?_⟩, fun x => ?_⟩, howned⟩
  · show Chain (Function.update k.next v k.freelist) (Function.update k.next v k.freelist v) l
    rw [Function.update_self]
    exact hl.update hvl _
  · rw [List.mem_cons, hmem, hfree]
    exact or_comm

theorem freeLoop_spec {vend : ℕ} (hvend : vend % PGSIZE = 0) (hstop : vend ≤ PHYSTOP) (n : ℕ) {p : ℕ}
    (hp : p % PGSIZE = 0) (hk : kend ≤ p) (hle : p ≤ vend) (hn : vend ≤ p + n * PGSIZE)
    (h : FreeList kend p k owner) :
    ∃ k', freeLoop kend vend n p k = .ok k' ∧ FreeList kend vend k' owner ∧ k'.use_lock = k.use_lock := by
  have hP : PGSIZE = 4096 := rfl
  rw [hP] at hvend hp hn
  induction n generalizing p k with
  | zero =>
    have heq : p = vend := by omega
    rw [heq] at h
    exact ⟨k, rfl, h, rfl⟩
  | succ n ih =>
    unfold freeLoop
    by_cases hroom : p + PGSIZE ≤ vend
    · rw [if_pos hroom, kfree_ok hp hk (by omega)]
      have hnone : owner p = none := by
        cases ho : owner p with
        | none => rfl
        | some q =>
          have hpage := (h.owned p q ho).2.2
          omega
      have hstep : ∀ x, IsPage kend (p + PGSIZE) x ∧ owner x = none ↔ (IsPage kend p x ∧ owner x = none) ∨ x = p := by
        intro x
        rw [isPage_succ hp hk]
        constructor
        · rintro ⟨hx | hx, ho⟩
          · exact .inl ⟨hx, ho⟩
          · exact .inr hx
        · rintro (⟨hx, ho⟩ | rfl)
          · exact ⟨.inl hx, ho⟩
          · exact ⟨.inr rfl, hnone⟩
      have hpush := h.push (v := p) (fun hpage => by have := hpage.1.2.2; omega) hstep
        fun x q ho => (isPage_succ hp hk).2 (.inl (h.owned x q ho))
      exact ih (by omega) (by omega) hroom (by omega) hpush
    · rw [if_neg hroom]
      have heq : p = vend := by omega
      rw [heq] at h
      exact ⟨k, rfl, h, rfl⟩

/-- The invariant of the runs: the pages end where the last phase of the boot has come to. -/
def Inv (kend : ℕ) (s : State P) : Prop :=
  FreeList kend (if s.kmem.use_lock then PHYSTOP else KINIT1) s.kmem s.owner

theorem kinit1_spec (hend : kend ≤ KINIT1) (next : ℕ → Option ℕ) :
    ∃ k, kinit1 kend next = .ok k ∧ FreeList kend KINIT1 k (fun _ => (none : Option P)) ∧ k.use_lock = false := by
  have hend' : kend ≤ 4 * 1024 * 1024 := hend
  have hup : kend ≤ (kend + 4096 - 1) / 4096 * 4096 ∧ (kend + 4096 - 1) / 4096 * 4096 ≤ 4 * 1024 * 1024 ∧
      (kend + 4096 - 1) / 4096 * 4096 < kend + 4096 := by omega
  have hempty : FreeList kend (PGROUNDUP kend) ⟨false, none, next⟩ (fun _ => (none : Option P)) := by
    refine ⟨⟨[], rfl, fun v => ?_⟩, fun v p ho => by cases ho⟩
    have hno : ¬ (kend ≤ v ∧ v % 4096 = 0 ∧ v + 4096 ≤ (kend + 4096 - 1) / 4096 * 4096) := by omega
    exact ⟨fun hv => (by cases hv), fun hv => absurd hv.1 hno⟩
  exact freeLoop_spec (by decide) (by decide) _ (Nat.mul_mod_left _ _) hup.1 hup.2.1 (by
    show KINIT1 ≤ PGROUNDUP kend + KINIT1 / PGSIZE * PGSIZE
    have hdiv : KINIT1 / PGSIZE * PGSIZE = KINIT1 := by decide
    omega) hempty

theorem Inv.kinit2 {s : State P} (h : Inv kend s) (hend : kend ≤ KINIT1) (hlock : s.kmem.use_lock = false) :
    ∃ k, kinit2 kend s.kmem = .ok k ∧ Inv kend { s with kmem := k } := by
  unfold Inv at h
  rw [if_neg (by rw [hlock]; decide)] at h
  have hdiv : PHYSTOP / PGSIZE * PGSIZE = PHYSTOP := by decide
  have hround : PGROUNDUP KINIT1 = KINIT1 := by decide
  obtain ⟨k, hk, hfree, -⟩ := freeLoop_spec (by decide) le_rfl (PHYSTOP / PGSIZE) (p := KINIT1)
    (by decide) hend (by decide) (by omega) h
  refine ⟨{ k with use_lock := true }, ?_, ?_⟩
  · unfold Kalloc.kinit2 freerange
    rw [hround, hk]
    rfl
  · exact ⟨hfree.free, hfree.owned⟩

theorem Inv.step {s : State P} {e : Event P} (h : Inv kend s) (hend : kend ≤ KINIT1) (hG : Proper s e) :
    ∃ s', (machine kend P).step s e = some (.ok s') ∧ Inv kend s' := by
  cases e with
  | kinit2 =>
    obtain ⟨k, hk, hI⟩ := h.kinit2 hend hG
    refine ⟨{ s with kmem := k }, ?_, hI⟩
    show some ((Kalloc.kinit2 kend s.kmem).map fun k => { s with kmem := k }) = _
    rw [hk]
    rfl
  | kalloc p =>
    refine ⟨s.alloc p, rfl, ?_⟩
    obtain ⟨l, hl, hmem⟩ := h.free
    have hnd := hl.nodup
    unfold State.alloc kalloc
    cases l with
    | nil =>
      have hnone : s.kmem.freelist = none := hl
      rw [hnone]
      exact h
    | cons r l =>
      have hsome : s.kmem.freelist = some r := hl.1
      rw [hsome]
      rw [List.nodup_cons] at hnd
      refine ⟨⟨l, hl.2, fun v => ?_⟩, fun v q ho => ?_⟩
      · show v ∈ l ↔ _ ∧ Function.update s.owner r (some p) v = none
        have hv := hmem v
        rw [List.mem_cons] at hv
        by_cases hvr : v = r
        · rw [hvr, Function.update_self]
          exact ⟨fun hin => absurd hin hnd.1, fun hno => by cases hno.2⟩
        · rw [Function.update_of_ne hvr, ← hv]
          exact ⟨.inr, fun hin => hin.resolve_left hvr⟩
      · by_cases hvr : v = r
        · rw [hvr]
          exact ((hmem r).1 (by simp)).1
        · have ho' : Function.update s.owner r (some p) v = some q := ho
          rw [Function.update_of_ne hvr] at ho'
          exact h.owned v q ho'
  | kfree p v =>
    have hown : s.owner v = some p := hG
    have hpage := h.owned v p hown
    have hstop : v < PHYSTOP := by
      have h1 := hpage.2.2
      have h2 : KINIT1 ≤ PHYSTOP := by decide
      have hP : PGSIZE = 4096 := rfl
      split at h1 <;> omega
    refine ⟨⟨⟨s.kmem.use_lock, some v, Function.update s.kmem.next v s.kmem.freelist⟩,
      Function.update s.owner v none⟩, ?_, ?_⟩
    · show some ((kfree kend s.kmem v).map fun k => (⟨k, Function.update s.owner v none⟩ : State P)) = _
      rw [kfree_ok hpage.2.1 hpage.1 hstop]
      rfl
    · show FreeList kend (if s.kmem.use_lock then PHYSTOP else KINIT1)
        ⟨s.kmem.use_lock, some v, Function.update s.kmem.next v s.kmem.freelist⟩ (Function.update s.owner v none)
      refine h.push (by rw [hown]; simp) (fun x => ?_) fun x q ho => ?_
      · by_cases hx : x = v
        · rw [hx, Function.update_self]
          exact ⟨fun _ => .inr rfl, fun _ => ⟨hpage, rfl⟩⟩
        · rw [Function.update_of_ne hx]
          exact ⟨.inl, fun hf => hf.resolve_right hx⟩
      · by_cases hx : x = v
        · rw [hx, Function.update_self] at ho
          cases ho
        · rw [Function.update_of_ne hx] at ho
          exact h.owned x q ho
  | write p v word =>
    have hown : s.owner v = some p := hG
    refine ⟨s.write v word, rfl, ?_⟩
    obtain ⟨l, hl, hmem⟩ := h.free
    -- the page of the caller is not in the list
    have hvl : v ∉ l := by
      intro hin
      have hnone := ((hmem v).1 hin).2
      rw [hown] at hnone
      cases hnone
    exact ⟨⟨l, hl.update hvl word, hmem⟩, h.owned⟩

/-- **Pages are conserved.** In every run of a booted machine whose callers free and write only what they have, no call
panics, the free list ends and has each page that nobody has once, `kalloc` gives one of them, and it fails only
when all pages are taken. -/
theorem pages_conserved (hend : kend ≤ KINIT1) (next : ℕ → Option ℕ) : ∃ s₀, boot kend P next = .ok s₀ ∧
    ∀ es, (machine kend P).Guarded Proper s₀ es → (∀ f, (machine kend P).run s₀ es ≠ some (.error f)) ∧
      ∀ s, (machine kend P).run s₀ es = some (.ok s) → ∃ top l, top = (if s.kmem.use_lock then PHYSTOP else KINIT1) ∧
        Chain s.kmem.next s.kmem.freelist l ∧ l.Nodup ∧ (∀ v, v ∈ l ↔ IsPage kend top v ∧ s.owner v = none) ∧
        (∀ v p, s.owner v = some p → IsPage kend top v) ∧
        (∀ r, (kalloc s.kmem).2 = some r → IsPage kend top r ∧ s.owner r = none) ∧
        ((kalloc s.kmem).2 = none → ∀ v, IsPage kend top v → ∃ p, s.owner v = some p) := by
  obtain ⟨k, hk, hfree, hlock⟩ := kinit1_spec (P := P) hend next
  have h0 : Inv kend (⟨k, fun _ => none⟩ : State P) := by
    unfold Inv
    rw [if_neg (by rw [hlock]; decide)]
    exact hfree
  refine ⟨⟨k, fun _ => none⟩, by unfold boot; rw [hk]; rfl, fun es hG => ?_⟩
  have hkeep : ∀ s e s', Inv kend s → Proper s e → (machine kend P).step s e = some (.ok s') → Inv kend s' := by
    intro s e s' hI hg hs
    obtain ⟨s₁, hs₁, hI₁⟩ := hI.step hend hg
    rw [hs] at hs₁
    cases hs₁
    exact hI₁
  constructor
  · refine Machine.guarded_no_fault h0 hkeep ?_ hG
    intro s e f hI hg hs
    obtain ⟨s₁, hs₁, -⟩ := hI.step hend hg
    rw [hs] at hs₁
    cases hs₁
  · intro s hs
    have hI := Machine.guarded_inv h0 hkeep hG hs
    obtain ⟨l, hl, hmem⟩ := hI.free
    have hhead : (kalloc s.kmem).2 = l.head? := by
      rw [← hl.head]
      unfold kalloc
      cases s.kmem.freelist <;> rfl
    refine ⟨_, l, rfl, hl, hl.nodup, hmem, hI.owned, fun r hr => ?_, fun hnone v hv => ?_⟩
    · rw [hhead] at hr
      exact (hmem r).1 (List.mem_of_head? hr)
    · rw [hhead, List.head?_eq_none_iff] at hnone
      cases ho : s.owner v with
      | some p => exact ⟨p, rfl⟩
      | none =>
        have hin := (hmem v).2 ⟨hv, ho⟩
        rw [hnone] at hin
        cases hin

theorem kfree_lock {k' : Kmem} {v : ℕ} (h : kfree kend k v = .ok k') : k'.use_lock = k.use_lock := by
  unfold kfree at h
  split at h <;> cases h
  rfl

theorem kinit2_lock {k' : Kmem} (h : kinit2 kend k = .ok k') : k'.use_lock = true := by
  unfold kinit2 at h
  cases hr : freerange kend KINIT1 PHYSTOP k with
  | error f =>
    rw [hr] at h
    cases h
  | ok k₁ =>
    rw [hr] at h
    cases h
    rfl

/-- The lock is used from `kinit2` on. -/
theorem step_lock {s s' : State P} {e : Event P} (h : (machine kend P).step s e = some (.ok s')) :
    (e = .kinit2 → s'.kmem.use_lock = true) ∧ (e ≠ .kinit2 → s'.kmem.use_lock = s.kmem.use_lock) := by
  cases e with
  | kinit2 =>
    refine ⟨fun _ => ?_, fun hne => absurd rfl hne⟩
    have h' : some ((kinit2 kend s.kmem).map fun k => { s with kmem := k }) = some (.ok s') := h
    cases hk : kinit2 kend s.kmem with
    | error f =>
      rw [hk] at h'
      cases h'
    | ok k =>
      rw [hk] at h'
      cases h'
      exact kinit2_lock hk
  | kalloc p =>
    refine ⟨fun he => (by cases he), fun _ => ?_⟩
    cases h
    unfold State.alloc kalloc
    cases s.kmem.freelist <;> rfl
  | kfree p v =>
    refine ⟨fun he => (by cases he), fun _ => ?_⟩
    have h' : some ((kfree kend s.kmem v).map fun k => (⟨k, Function.update s.owner v none⟩ : State P)) =
      some (.ok s') := h
    cases hk : kfree kend s.kmem v with
    | error f =>
      rw [hk] at h'
      cases h'
    | ok k =>
      rw [hk] at h'
      cases h'
      exact kfree_lock hk
  | write p v word =>
    refine ⟨fun he => (by cases he), fun _ => ?_⟩
    cases h
    rfl

/-- A page is taken, written to and given back; after `kinit2` one is taken again. -/
def reuse (r : ℕ) : List (Event ℕ) := [.kalloc 0, .write 0 r (some 7), .kfree 0 r, .kinit2, .kalloc 1]

theorem pages_conserved_kernel : ∃ s₀ r s l, boot 0x115000 ℕ (fun _ => none) = .ok s₀ ∧
    (machine 0x115000 ℕ).run s₀ (reuse r) = some (.ok s) ∧ Chain s.kmem.next s.kmem.freelist l ∧
    ∀ v, v ∈ l ↔ IsPage 0x115000 PHYSTOP v ∧ s.owner v = none := by
  have hend : 0x115000 ≤ KINIT1 := by decide
  obtain ⟨k, hk, hfree, hlock⟩ := kinit1_spec (P := ℕ) hend fun _ => none
  obtain ⟨s₀, h0, hrun⟩ := pages_conserved (P := ℕ) hend fun _ => none
  obtain rfl : (⟨k, fun _ => none⟩ : State ℕ) = s₀ := by
    unfold boot at h0
    rw [hk] at h0
    cases h0
    rfl
  have hI : Inv 0x115000 (⟨k, fun _ => none⟩ : State ℕ) := by
    unfold Inv
    rw [if_neg (by rw [hlock]; decide)]
    exact hfree
  obtain ⟨l, hl, hmem⟩ := hfree.free
  obtain ⟨r, l, rfl⟩ : ∃ r l', l = r :: l' := by
    refine List.exists_cons_of_ne_nil ?_
    rintro rfl
    cases (hmem 0x115000).2 ⟨⟨le_rfl, by decide, by decide⟩, rfl⟩
  -- `r` is the first page of the list
  obtain ⟨next, hnext⟩ : ∃ next, (⟨k, fun _ => none⟩ : State ℕ).alloc 0 =
      ⟨⟨false, next, k.next⟩, Function.update (fun _ => none) r (some 0)⟩ := by
    have hfirst : k.freelist = some r := hl.1
    refine ⟨k.next r, ?_⟩
    unfold State.alloc kalloc
    rw [hfirst, ← hlock]
  have hown : Function.update (fun _ => none) r (some 0) r = some 0 := Function.update_self ..
  obtain ⟨s₁, h₁, hI₁⟩ := hI.step hend (e := .kalloc 0) trivial
  obtain rfl : State.alloc _ _ = s₁ := by cases h₁; rfl
  rw [hnext] at h₁ hI₁
  obtain ⟨s₂, h₂, hI₂⟩ := hI₁.step hend (e := .write 0 r (some 7)) hown
  obtain rfl : State.write _ r (some 7) = s₂ := by cases h₂; rfl
  obtain ⟨s₃, h₃, hI₃⟩ := hI₂.step hend (e := .kfree 0 r) hown
  have hlock₃ : s₃.kmem.use_lock = false := (step_lock h₃).2 (by simp)
  obtain ⟨s₄, h₄, hI₄⟩ := hI₃.step hend (e := .kinit2) hlock₃
  obtain ⟨s₅, h₅, -⟩ := hI₄.step hend (e := .kalloc 1) trivial
  have hlock₅ : s₅.kmem.use_lock = true := ((step_lock h₅).2 (by simp)).trans ((step_lock h₄).1 rfl)
  have hr : (machine 0x115000 ℕ).run ⟨k, fun _ => none⟩ (reuse r) = some (.ok s₅) := by
    unfold reuse
    rw [Machine.run_cons h₁, Machine.run_cons h₂, Machine.run_cons h₃, Machine.run_cons h₄, Machine.run_cons h₅]
    rfl
  have hG : (machine 0x115000 ℕ).Guarded Proper ⟨k, fun _ => none⟩ (reuse r) :=
    .cons trivial h₁ (.cons hown h₂ (.cons hown h₃ (.cons hlock₃ h₄ (.cons trivial h₅ .nil))))
  obtain ⟨top, l', htop, hchain, -, hall, -⟩ := (hrun _ hG).2 s₅ hr
  rw [hlock₅, if_pos rfl] at htop
  rw [htop] at hall
  exact ⟨_, r, s₅, l', h0, hr, hchain, hall⟩

end Xv6.Kalloc
