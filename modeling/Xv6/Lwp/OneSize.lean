import Xv6.Lwp.Memory
import Xv6.Lwp.Limit
import Xv6.Lwp.PageDir

/-!
# One size for an address space

* `Sized`: all that use a page directory have its size, and it has the pages below that.
* `sized_step`: what a careful step does to it; the pages are found, so it does not panic.
* `one_size`: in the runs in which the size changes only while the main thread has no LWP
  (`Careful`), the main thread and its LWPs agree on the size, and what `fetchint`, `argptr`
  and `copyuvm` go to is mapped.
* `sbrk_leaves_lwp_behind`: `sbrk` by the main thread while it has an LWP.
-/

namespace Xv6.Lwp

variable {n : ℕ} {s s' : State n} {c : Fin n} {t t' : Table} {p q m : Slot} {x x' : Dir → Pages} {d : Dir}

/-! ## Who uses a page directory -/

theorem not_uses (hm : ¬ (s.proc q).Main) (hl : ¬ (s.proc q).Live)
    (hf : ∀ p, (s.frameOf p).call.fills ≠ some q) : ¬ s.Uses q := by
  rintro (h | h | ⟨p, h⟩)
  · exact hm h
  · exact hl h
  · exact hf p h

theorem not_uses_unused (hs : Sane s) (hq : (s.proc q).state = .unused) : ¬ s.Uses q := by
  refine not_uses ?_ ?_ fun p hp => ?_
  · unfold Proc.Main Proc.Live; rw [hq]; simp
  · unfold Proc.Live; rw [hq]; simp
  · have hst := hs.creating p q (Call.fills_creates hp)
    rw [hq] at hst
    cases hst

/-- Whose page directory a process uses: that of a main thread of its process, or one that
`fork` just made. -/
theorem Dirs.user (h : Dirs s) (hq : s.Uses q) : ∃ d, (s.proc q).pgdir = some d ∧
    ((∃ m, (s.proc m).pid = (s.proc q).pid ∧ s.holds (m, .own) = some d) ∨
      ∃ p, s.holds (p, .child) = some d) := by
  have hmain : ∀ m, (s.proc m).Main → (s.proc m).pid = (s.proc q).pid →
      (s.proc m).pgdir = (s.proc q).pgdir → ∃ d, (s.proc q).pgdir = some d ∧
        ((∃ m, (s.proc m).pid = (s.proc q).pid ∧ s.holds (m, .own) = some d) ∨
          ∃ p, s.holds (p, .child) = some d) := by
    intro m hm hpid hpg
    obtain ⟨d, hd⟩ := Option.ne_none_iff_exists'.1 (h.grouped.main m hm).1
    exact ⟨d, hpg ▸ hd, .inl ⟨m, hpid, (holds_own hm).trans hd⟩⟩
  rcases hq with hq | hq | ⟨p, hp⟩
  · exact hmain q hq rfl rfl
  · by_cases hth : (s.proc q).isThread = true
    · obtain ⟨m, hm, hpid, hpg⟩ := h.grouped.lwp q hq hth
      exact hmain m hm hpid hpg
    · exact hmain q (hq.main (by simpa using hth)) rfl rfl
  · cases hc : (s.frameOf p).call <;> rw [hc] at hp <;> cases hp
    · -- in `fork`
      obtain ⟨-, hpg, -⟩ := (h.grouped.fills p).forked q hc
      obtain ⟨d, hd⟩ := Option.ne_none_iff_exists'.1 hpg
      exact ⟨d, hd, .inr ⟨p, (holds_child_forked hc).trans hd⟩⟩
    · -- in `thread_create`
      obtain ⟨-, -, m, hm, hpid, hpg⟩ := (h.grouped.fills p).created q hc
      exact hmain m hm hpid hpg

/-- A page directory that `exec` is making is not in use. -/
theorem Dirs.new_unused (h : Dirs s) (hd : s.holds (p, .new) = some d) (hq : s.Uses q) :
    (s.proc q).pgdir ≠ some d := by
  intro hpg
  obtain ⟨d', hd', hx⟩ := h.user hq
  obtain rfl : d = d' := Option.some.inj (hpg.symm.trans hd')
  rcases hx with ⟨m, -, hm⟩ | ⟨p', hp'⟩
  · exact absurd (h.owned.inj _ _ d hm hd) (by simp)
  · exact absurd (h.owned.inj _ _ d hp' hd) (by simp)

/-- Nor is the next one. -/
theorem Dirs.next_unused (h : Dirs s) (hq : s.Uses q) : (s.proc q).pgdir ≠ some s.nextDir := by
  intro hpg
  obtain ⟨d', hd', hx⟩ := h.user hq
  obtain rfl : s.nextDir = d' := Option.some.inj (hpg.symm.trans hd')
  rcases hx with ⟨m, -, hm⟩ | ⟨p', hp'⟩
  · exact absurd (h.owned.lt _ _ hm) (lt_irrefl _)
  · exact absurd (h.owned.lt _ _ hp') (lt_irrefl _)

/-- A main thread without live LWPs, that creates none, is alone. -/
theorem Dirs.last_alone (h : Dirs s) (hm : (s.proc m).Main) (hlast : s.proc.Last m)
    (hcall : (s.frameOf m).call.fills = none) : s.Alone m := by
  obtain ⟨dm, hdm⟩ := Option.ne_none_iff_exists'.1 (h.grouped.main m hm).1
  have hown : s.holds (m, .own) = some dm := (holds_own hm).trans hdm
  intro q hqm hq hpg
  obtain ⟨d, hd, hx⟩ := h.user hq
  obtain rfl : dm = d := Option.some.inj (hdm.symm.trans (hpg.symm.trans hd))
  rcases hx with ⟨m', hpid, hm'⟩ | ⟨p', hp'⟩
  · obtain rfl : m' = m := congrArg Prod.fst (h.owned.inj _ _ dm hm' hown)
    rcases hq with hq | hq | ⟨p, hp⟩
    · exact hqm (congrArg Prod.fst (h.owned.inj _ _ dm ((holds_own hq).trans hd) hown))
    · exact hlast.2 q hqm hq hpid.symm
    · -- who fills it in is live
      have hpm : p ≠ m' := by rintro rfl; rw [hcall] at hp; cases hp
      have hlive : (s.proc p).Live := h.sane.creator_live (Call.fills_creates hp)
      cases hc : (s.frameOf p).call <;> rw [hc] at hp <;> cases hp
      · have hchild : s.holds (p, .child) = some dm := (holds_child_forked hc).trans hd
        exact absurd (h.owned.inj _ _ dm hchild hown) (by simp)
      · have hpq := ((h.grouped.fills p).created q hc).2.1
        exact hlast.2 p hpm hlive (hpq.symm.trans hpid.symm)
  · exact absurd (h.owned.inj _ _ dm hp' hown) (by simp)

/-! ## The invariant -/

/-- All that use a page directory have its size, and it has the pages below that. -/
structure Sized (s : State n) (x : Dir → Pages) : Prop where
  dirs : Dirs s
  small : ∀ q, s.Uses q → (s.size q).toNat ≤ KERNBASE.toNat
  size : ∀ p q, s.Uses p → s.Uses q → (s.proc p).pgdir = (s.proc q).pgdir → s.size p = s.size q
  full : ∀ q d, s.Uses q → (s.proc q).pgdir = some d → (x d).Full (s.size q)
  /-- what is to be stored is the size -/
  grows : ∀ q m sz, s.Uses q → (s.frameOf q).call = .grow m sz → s.size q = sz
  /-- and is there already, unless nobody else can see it -/
  alone : ∀ q, s.Uses q → (s.proc q).sz = s.size q ∨ s.Alone q

theorem size_stored (h : (s.frameOf q).call.grows = none) : s.size q = (s.proc q).sz := by
  unfold State.size
  rw [h]

theorem size_own {sz : BitVec 32} (h : (s.frameOf q).call = .grow q sz) : s.size q = sz := by
  unfold State.size
  rw [h]
  exact if_pos rfl

theorem size_other {sz : BitVec 32} (h : (s.frameOf q).call = .grow m sz) (hm : m ≠ q) :
    s.size q = (s.proc q).sz := by
  unfold State.size
  rw [h]
  exact if_neg hm

/-- Who is not alone has its size in its slot. -/
theorem Sized.stored (h : Sized s x) (hq : s.Uses q) (hp : s.Uses p) (hne : p ≠ q)
    (hpg : (s.proc p).pgdir = (s.proc q).pgdir) : (s.proc q).sz = s.size q :=
  (h.alone q hq).resolve_right fun ha => ha p hne hp hpg

theorem uses_kstack (hs : Sane s) (hq : s.Uses q) : (s.proc q).kstack ≠ none :=
  fun hk => not_uses_unused hs ((hs.used q).2 hk) hq

/-- The slot keeps its memory, and does not come to use it. -/
structure Same (a b : Proc) : Prop where
  pgdir : b.pgdir = a.pgdir
  sz : b.sz = a.sz
  main : b.Main → a.Main
  live : b.Live → a.Live

theorem Same.refl (a : Proc) : Same a a := ⟨rfl, rfl, id, id⟩

theorem Keeps.same {a b : Proc} (h : Keeps a b) (hsz : b.sz = a.sz) : Same a b :=
  ⟨h.pgdir, hsz, h.main.1, h.live⟩

/-- `q` uses its page directory as before. -/
structure SameSize (s s' : State n) (q : Slot) : Prop where
  uses : s.Uses q
  pgdir : (s'.proc q).pgdir = (s.proc q).pgdir
  sz : (s'.proc q).sz = (s.proc q).sz
  grows : (s'.frameOf q).call.grows = (s.frameOf q).call.grows

theorem SameSize.size (h : SameSize s s' q) : s'.size q = s.size q := by
  unfold State.size
  rw [h.grows, h.sz]

theorem SameSize.call {sz : BitVec 32} (h : SameSize s s' q) (hc : (s'.frameOf q).call = .grow m sz) :
    (s.frameOf q).call = .grow m sz := by
  have hg := h.grows
  rw [hc] at hg
  cases hf : (s.frameOf q).call with
  | grow m' sz' => rw [hf] at hg; cases hg; rfl
  | _ => rw [hf] at hg; cases hg

/-- `q` uses the page directory `d`, which has the size `sz`. -/
structure HasSize (s : State n) (d : Dir) (sz : BitVec 32) (q : Slot) : Prop where
  pgdir : (s.proc q).pgdir = some d
  size : s.size q = sz
  grows : ∀ m sz', (s.frameOf q).call = .grow m sz' → sz' = sz
  alone : (s.proc q).sz = sz ∨ s.Alone q

theorem HasSize.of_stored {sz : BitVec 32} (hf : (s.frameOf q).call.grows = none) (hpg : (s.proc q).pgdir = some d)
    (hsz : (s.proc q).sz = sz) : HasSize s d sz q where
  pgdir := hpg
  size := (size_stored hf).trans hsz
  grows m sz' hc := by rw [hc] at hf; cases hf
  alone := .inl hsz

/-- **The page directory `d` gets a size**: those that use it after the step have that size, and
the others use another. -/
theorem Sized.resize (h : Sized s x) (hd : Dirs s') {sz : BitVec 32} (hsmall : sz.toNat ≤ KERNBASE.toNat)
    (hfull : (x' d).Full sz)
    (hslot : ∀ q, s'.Uses q → HasSize s' d sz q ∨ SameSize s s' q ∧ (s.proc q).pgdir ≠ some d)
    (hpages : ∀ q e, s'.Uses q → (s'.proc q).pgdir = some e → e ≠ d → x' e = x e) : Sized s' x' where
  dirs := hd
  small q hq := by
    rcases hslot q hq with hn | ⟨hk, -⟩
    · rw [hn.size]; exact hsmall
    · rw [hk.size]; exact h.small q hk.uses
  size p q hp hq hpg := by
    rcases hslot p hp with hnp | ⟨hkp, hpd⟩ <;> rcases hslot q hq with hnq | ⟨hkq, hqd⟩
    · rw [hnp.size, hnq.size]
    · exact absurd (hkq.pgdir.symm.trans (hpg.symm.trans hnp.pgdir)) hqd
    · exact absurd (hkp.pgdir.symm.trans (hpg.trans hnq.pgdir)) hpd
    · rw [hkp.size, hkq.size]
      exact h.size p q hkp.uses hkq.uses (hkp.pgdir.symm.trans (hpg.trans hkq.pgdir))
  full q e hq he := by
    rcases hslot q hq with hn | ⟨hk, hne⟩
    · obtain rfl : d = e := Option.some.inj (hn.pgdir.symm.trans he)
      rw [hn.size]
      exact hfull
    · have he₀ : (s.proc q).pgdir = some e := hk.pgdir.symm.trans he
      have hed : e ≠ d := by rintro rfl; exact hne he₀
      rw [hk.size, hpages q e hq he hed]
      exact h.full q e hk.uses he₀
  grows q m sz' hq hc := by
    rcases hslot q hq with hn | ⟨hk, -⟩
    · exact hn.size.trans (hn.grows m sz' hc).symm
    · rw [hk.size]
      exact h.grows q m sz' hk.uses (hk.call hc)
  alone q hq := by
    rcases hslot q hq with hn | ⟨hk, hne⟩
    · rw [hn.size]
      exact hn.alone
    · rw [hk.sz, hk.size]
      refine (h.alone q hk.uses).imp_right fun ha p hpq hp hpg => ?_
      rcases hslot p hp with hnp | ⟨hkp, -⟩
      · exact hne (hk.pgdir.symm.trans (hpg.symm.trans hnp.pgdir))
      · exact ha p hpq hkp.uses (hkp.pgdir.symm.trans (hpg.trans hk.pgdir))

/-- **No size changes**, and nobody comes to use a page directory. -/
theorem Sized.back (h : Sized s x) (hd : Dirs s') (hslot : ∀ q, s'.Uses q → SameSize s s' q)
    (hpages : ∀ q e, s.Uses q → s'.Uses q → (s.proc q).pgdir = some e → (x' e).Full (s.size q)) :
    Sized s' x' where
  dirs := hd
  small q hq := by
    rw [(hslot q hq).size]
    exact h.small q (hslot q hq).uses
  size p q hp hq hpg := by
    have hkp := hslot p hp
    have hkq := hslot q hq
    rw [hkp.size, hkq.size]
    exact h.size p q hkp.uses hkq.uses (by rw [← hkp.pgdir, ← hkq.pgdir, hpg])
  full q e hq he := by
    have hk := hslot q hq
    rw [hk.size]
    exact hpages q e hk.uses hq (hk.pgdir.symm.trans he)
  grows q m sz hq hc := by
    have hk := hslot q hq
    rw [hk.size]
    exact h.grows q m sz hk.uses (hk.call hc)
  alone q hq := by
    have hk := hslot q hq
    rw [hk.sz, hk.size]
    refine (h.alone q hk.uses).imp_right fun ha p hpq hp hpg => ?_
    have hkp := hslot p hp
    exact ha p hpq hkp.uses (hkp.pgdir.symm.trans (hpg.trans hk.pgdir))

theorem Sized.steady (h : Sized s x) (hd : Dirs s') (hslot : ∀ q, Same (s.proc q) (s'.proc q) ∨ ¬ s'.Uses q)
    (hgrows : ∀ q, s'.Uses q → (s'.frameOf q).call.grows = (s.frameOf q).call.grows)
    (hcall : ∀ p q, (s'.frameOf p).call.fills = some q → (s.frameOf p).call.fills = some q)
    (hpages : ∀ q e, s.Uses q → s'.Uses q → (s.proc q).pgdir = some e → (x' e).Full (s.size q)) :
    Sized s' x' := by
  refine h.back hd (fun q hq => ?_) hpages
  have hk := (hslot q).resolve_right fun hn => hn hq
  refine ⟨?_, hk.pgdir, hk.sz, hgrows q hq⟩
  rcases hq with hq | hq | ⟨p, hp⟩
  · exact .inl (hk.main hq)
  · exact .inr (.inl (hk.live hq))
  · exact .inr (.inr ⟨p, hcall p q hp⟩)

/-! ## Steps that leave the pages -/

/-- The events that touch page directories. -/
def Event.pages : Event n → Bool
  | .growproc .. | .growStore _ | .threadMap .. | .forkCopy _ true | .execSetup _ | .execBad _ | .execCommit .. => true
  | _ => false

theorem same_upd {f : Proc → Proc} (h : Same (t p) (f (t p))) (q : Slot) : Same (t q) ((t.upd p f) q) := by
  rw [upd_apply]
  split
  · rename_i hq; rw [hq]; exact h
  · exact .refl _

/-- What `kill_thread` does to a slot when it is called for a main thread. -/
theorem Killed.same (hk : Killed t t' p) (hp : (t p).isThread = false) (q : Slot) :
    Same (t q) (t' q) ∨ (t' q).state = .unused := by
  by_cases hv : t.Victim p q
  · rw [hk.victim q hv]; exact .inr rfl
  · left
    by_cases hqp : q = p
    · subst hqp
      obtain ⟨pr, kl, he⟩ := hk.self hv
      rw [he]
      exact ⟨rfl, rfl, fun h => ⟨hp, h.2⟩, id⟩
    · by_cases hm : t.Marked p q
      · rw [hk.marked q hqp hv hm]; exact ⟨rfl, rfl, id, id⟩
      · rw [hk.other q hqp hv hm]; exact .refl _

/-- A step in which no process goes on. -/
theorem Sized.table (h : Sized s x) (hd : Dirs s') (hframe : s'.frame = s.frame)
    (hgrows : ∀ q, s'.Uses q → (s'.frameOf q).call.grows = (s.frameOf q).call.grows)
    (hk : ∀ q, (s'.proc q).kstack = (s.proc q).kstack ∨ (s'.proc q).kstack = none)
    (hslot : ∀ q, Same (s.proc q) (s'.proc q) ∨ (s'.proc q).state = .unused) : Sized s' x := by
  refine h.steady hd (fun q => (hslot q).imp_right (not_uses_unused hd.sane)) hgrows (fun p q hp => ?_)
    fun q e hq _ he => h.full q e hq he
  rw [calls_same (k := Call.fills) rfl hframe hk hp] at hp
  exact hp

/-- A step of one process, outside `fork` and `thread_create`. -/
theorem Sized.goes (h : Sized s x) (hd : Dirs s') {f g : Frame} (hcur : s.current c = some (p, f))
    (hframe : s'.frame = Function.update s.frame (s.cpu c).stack g) (hg : g.call.fills = none)
    (hgrows : ∀ q, s'.Uses q → (s'.frameOf q).call.grows = (s.frameOf q).call.grows)
    (hk : ∀ q, (s'.proc q).kstack = (s.proc q).kstack ∨ (s'.proc q).kstack = none ∧ q ≠ p)
    (hslot : ∀ q, Same (s.proc q) (s'.proc q) ∨ ¬ s'.Uses q)
    (hpages : ∀ q e, s.Uses q → s'.Uses q → (s.proc q).pgdir = some e → (x' e).Full (s.size q)) :
    Sized s' x' := by
  refine h.steady hd hslot hgrows (fun y q hy => ?_) hpages
  rw [calls_step (k := Call.fills) rfl h.dirs.sane hcur hframe hk hg hy] at hy
  exact hy

/-- A step that takes an unused slot. -/
theorem Sized.spawn (h : Sized s x) (hd : Dirs s') {np : Slot} {call : Call} (f : Proc → Proc)
    (hcur : s.current c = some (p, .idle)) (hun : (s.proc np).state = .unused)
    (hproc : s'.proc = s.proc.upd np f)
    (hframe : s'.frame = Function.update (Function.update s.frame s.nextStack .idle) (s.cpu c).stack
      ⟨call, false⟩)
    (hk : (f (s.proc np)).kstack = some s.nextStack) (hst : (f (s.proc np)).state = .embryo)
    (hgrows : ∀ q, s'.Uses q → (s'.frameOf q).call.grows = (s.frameOf q).call.grows)
    (hcall : call.fills = none) : Sized s' x := by
  have hs := h.dirs.sane
  have hself : s'.proc np = f (s.proc np) := by rw [hproc, upd_self]
  have hfr := frameOf_spawn hs hcur hun (by rw [hself, hk]) (fun y hy => by rw [hproc, upd_ne _ hy]) hframe
  have hback : ∀ y q, (s'.frameOf y).call.fills = some q → (s.frameOf y).call.fills = some q := by
    intro y q hy
    rw [hfr] at hy
    split at hy
    · rw [hcall] at hy; cases hy
    · exact hy
  refine h.steady hd (fun q => ?_) hgrows hback fun q e hq _ he => h.full q e hq he
  by_cases hq : q = np
  · right
    rw [hq]
    refine not_uses (by rw [hself]; exact not_main_embryo hst) (by rw [hself]; exact not_live_embryo hst)
      fun y hy => ?_
    have hemb := hs.creating y np (Call.fills_creates (hback y np hy))
    rw [hun] at hemb
    cases hemb
  · rw [hproc, upd_ne _ hq]
    exact .inl (.refl _)

/-- A slot that has its memory becomes `RUNNABLE`. -/
theorem Sized.ready (h : Sized s x) (hd : Dirs s') {f : Frame} {np : Slot} (hcur : s.current c = some (p, f))
    (hf : f.call.fills = some np) (hproc : s'.proc = s.proc.upd np fun y => { y with state := .runnable })
    (hgrows : ∀ q, s'.Uses q → (s'.frameOf q).call.grows = (s.frameOf q).call.grows)
    (hframe : s'.frame = Function.update s.frame (s.cpu c).stack .idle) : Sized s' x := by
  have hs := h.dirs.sane
  refine h.back hd (fun q hq => ?_) fun q e hq _ he => h.full q e hq he
  have hpg : (s'.proc q).pgdir = (s.proc q).pgdir := by rw [hproc]; exact upd_field Proc.pgdir _ _ q _ (by rfl)
  have hsz : (s'.proc q).sz = (s.proc q).sz := by rw [hproc]; exact upd_field Proc.sz _ _ q _ (by rfl)
  refine ⟨?_, hpg, hsz, hgrows q hq⟩
  by_cases hqn : q = np
  · refine .inr (.inr ⟨p, ?_⟩)
    rw [(hs.frame_current hcur).2.2, hf, hqn]
  · have hsame : s'.proc q = s.proc q := by rw [hproc, upd_ne _ hqn]
    rcases hq with hq | hq | ⟨y, hy⟩
    · exact .inl (hsame ▸ hq)
    · exact .inr (.inl (hsame ▸ hq))
    · have hk : ∀ q, (s'.proc q).kstack = (s.proc q).kstack := fun q => by
        rw [hproc]; exact upd_field Proc.kstack _ _ q _ (by rfl)
      rw [calls_step (k := Call.fills) rfl hs hcur hframe (fun q => .inl (hk q)) rfl hy] at hy
      exact .inr (.inr ⟨y, hy⟩)

/-- **A step that leaves the pages.** -/
theorem sized_plain (h : Sized s x) {e : Event n} (hG : Orderly s e) (he : e.pages = false)
    (hwait : ∀ c, e = .wait c → s.reaps c = none) (hstep : step s e = some (.ok s')) : Sized s' x := by
  have hs := h.dirs.sane
  have hd := dirs_step h.dirs hG hstep
  have hgrows : ∀ q, s'.Uses q → (s'.frameOf q).call.grows = (s.frameOf q).call.grows := fun q hq =>
    grows_keep hs hG.settled hstep (by rintro c k ok rfl; cases he) (by rintro c rfl; cases he) (uses_kstack hd.sane hq)
  -- a step that writes to one slot of the table
  have htable : ∀ {p} (f : Proc → Proc), s'.proc = s.proc.upd p f → s'.frame = s.frame →
      (f (s.proc p)).kstack = (s.proc p).kstack → Same (s.proc p) (f (s.proc p)) → Sized s' x := by
    intro p f hproc hframe hk hf
    refine h.table hd hframe hgrows (fun q => .inl ?_) fun q => .inl ?_
    · rw [hproc]; exact upd_field Proc.kstack _ _ q _ hk
    · rw [hproc]; exact same_upd hf q
  -- a step of one process that leaves the table
  have hcalled : ∀ {c p f g}, s.current c = some (p, f) → s'.proc = s.proc →
      s'.frame = Function.update s.frame (s.cpu c).stack g → g.call.fills = none → Sized s' x := by
    intro c p f g hcur hproc hframe hg
    refine h.goes hd hcur hframe hg hgrows (fun q => .inl ?_) (fun q => .inl ?_) fun q e hq _ he => h.full q e hq he
    · rw [hproc]
    · rw [hproc]; exact .refl _
  -- a step of one process that writes to one slot
  have hone : ∀ {c p f g z} (y : Proc → Proc), s.current c = some (p, f) → s'.proc = s.proc.upd z y →
      s'.frame = Function.update s.frame (s.cpu c).stack g → g.call.fills = none →
      (y (s.proc z)).kstack = (s.proc z).kstack ∨ (y (s.proc z)).kstack = none ∧ z ≠ p →
      Same (s.proc z) (y (s.proc z)) ∨ ¬ s'.Uses z → Sized s' x := by
    intro c p f g z y hcur hproc hframe hg hk hy
    refine h.goes hd hcur hframe hg hgrows (fun q => ?_) (fun q => ?_) fun q e hq _ he => h.full q e hq he
    · by_cases hq : q = z
      · rw [hq, hproc, upd_self]; exact hk
      · rw [hproc, upd_ne _ hq]; exact .inl rfl
    · by_cases hq : q = z
      · rw [hq]
        refine hy.imp_left fun hy => ?_
        rw [hproc, upd_self]
        exact hy
      · rw [hproc, upd_ne _ hq]; exact .inl (.refl _)
  have hrun : ∀ {c p}, (s.cpu c).proc = some p → (s.proc p).Live :=
    fun hp => .inr (.inr (hs.onCpu _ _ hp).1)
  have hgone : ∀ {q}, (s'.proc q).state = .unused → ¬ s'.Uses q := fun hq => not_uses_unused hd.sane hq
  cases step_effect hstep with
  | stay => exact h
  | dispatch c p k d hidle hst hk hd =>
    exact htable (fun y => { y with state := .running, chan := none }) rfl rfl rfl
      ⟨rfl, rfl, fun hm => ⟨hm.1, .inl (.inr (.inl hst))⟩, fun _ => .inr (.inl hst)⟩
  | yield c p hp =>
    exact htable (fun y => { y with state := .runnable }) rfl rfl rfl
      ⟨rfl, rfl, fun hm => ⟨hm.1, .inl (hrun hp)⟩, fun _ => hrun hp⟩
  | sleep c p chan hp =>
    exact htable (fun y => { y with chan := some (.other chan), state := .sleeping }) rfl rfl rfl
      ⟨rfl, rfl, fun hm => ⟨hm.1, .inl (hrun hp)⟩, fun _ => hrun hp⟩
  | wakeup chan =>
    exact h.table hd rfl hgrows (fun q => .inl (wakeup1_woke _ _ q).kstack) fun q => .inl
      ((wakeup1_woke _ _ q).keeps.same (wakeup1_field Proc.sz (fun _ _ _ => rfl) _ _ q))
  | exit c p t hcur ht =>
    obtain ⟨hother, y, hy, hz⟩ := exit_ok ht
    have hk := keeps_exit (hs.frame_current hcur).1 hother hy (by rw [hz]) (by rw [hz]) (by rw [hz])
      (by rw [hz]) (by rw [hz])
    exact h.table hd rfl hgrows (fun q => .inl (exit_field Proc.kstack (fun _ _ _ => rfl) ht q)) fun q => .inl
      ((hk q).same (exit_field Proc.sz (fun _ _ _ => rfl) ht q))
  | threadExit c p retval t hcur ht =>
    obtain ⟨hother, y, hy, hz⟩ := threadExit_ok ht
    have hk := keeps_exit (hs.frame_current hcur).1 hother hy (by rw [hz]) (by rw [hz]) (by rw [hz])
      (by rw [hz]) (by rw [hz])
    exact h.table hd rfl hgrows (fun q => .inl (threadExit_field Proc.kstack (fun _ _ _ _ => rfl) ht q))
      fun q => .inl ((hk q).same (threadExit_field Proc.sz (fun _ _ _ _ => rfl) ht q))
  | reap c p z f d hcur hf hz hk hd =>
    have hnone := hwait c rfl
    rw [State.reaps, (current_some hcur).1] at hnone
    cases hz.symm.trans hnone
  | join c p z f thread hcur hf hz hpar hk =>
    have hst := (findJoin_some hz hpar).2
    have hzp : z ≠ p := by rintro rfl; rw [(hs.frame_current hcur).1] at hst; cases hst
    exact hone Proc.recovered hcur rfl rfl rfl (.inr ⟨rfl, hzp⟩) (.inr (hgone (by simp [Proc.recovered])))
  | waited e c p f he' hcur hf => exact hcalled hcur rfl rfl rfl
  | block e c p f call he' hcur hf hw =>
    have hlive : (s.proc p).Live := .inr (.inr (hs.frame_current hcur).1)
    have hfills : (Frame.mk call false).call.fills = none := by
      rcases hw with hw | hw | ⟨thread, hw⟩ <;> (rw [hw]; rfl)
    exact hone (g := ⟨call, false⟩) (fun y => { y with chan := some (.proc p), state := .sleeping }) hcur rfl
      rfl hfills (.inl rfl) (.inl ⟨rfl, rfl, fun hm => ⟨hm.1, .inl hlive⟩, fun _ => hlive⟩)
  | kill c p p₀ pid t hcur hfind ht =>
    have hk := killThread_killed ht
    have hkill : ∀ q, ((t.upd p₀ Proc.kill) q).kstack = (t q).kstack :=
      fun q => upd_field Proc.kstack _ _ q _ (by rfl)
    refine h.table hd rfl hgrows (fun q => (hk.kstack_or q).imp (hkill q).trans (hkill q).trans) fun q => ?_
    show Same (s.proc q) ((t.upd p₀ Proc.kill) q) ∨ ((t.upd p₀ Proc.kill) q).state = .unused
    rcases hk.same (hG.1.kill hfind).1 q with e | e
    · have hafter : Same (t q) ((t.upd p₀ Proc.kill) q) := same_upd ((t p₀).kill_keeps.same rfl) q
      exact .inl ⟨hafter.pgdir.trans e.pgdir, hafter.sz.trans e.sz, fun hy => e.main (hafter.main hy),
        fun hy => e.live (hafter.live hy)⟩
    · right
      rw [upd_apply]
      split
      · unfold Proc.kill
        rw [e]
        rfl
      · exact e
  | fork c p np hcur hnp =>
    exact h.spawn hd (fun y => { y.embryo s.nextpid s.nextStack with memlim := 0 }) hcur
      (findUnused_some hnp) rfl rfl rfl rfl hgrows rfl
  | forkFail c np hnp =>
    have hun := findUnused_some hnp
    refine h.table hd rfl hgrows (fun q => .inl ?_) fun q => ?_
    · exact upd_field Proc.kstack _ _ q _ ((hs.used np).1 hun).symm
    · by_cases hq : q = np
      · exact .inr (by simpa [hq] using hun)
      · exact .inl (by simpa [hq] using Same.refl (s.proc q))
  | forkCopy => cases he
  | forkCopyFail c p np hcur =>
    have hnp := hs.creating p np (by rw [(hs.frame_current hcur).2.2]; rfl)
    have hne : np ≠ p := by rintro rfl; rw [(hs.frame_current hcur).1] at hnp; cases hnp
    exact hone (fun y => { y with pgdir := none, kstack := none, state := .unused }) hcur rfl rfl rfl
      (.inr ⟨rfl, hne⟩) (.inr (hgone (by simp)))
  | forkReady c p np hcur => exact h.ready hd hcur rfl rfl hgrows rfl
  | threadCreate c p thrd hcur hthrd =>
    exact h.spawn hd (fun y => y.embryo (s.proc p).pid s.nextStack) hcur (findUnused_some hthrd) rfl rfl rfl
      rfl hgrows rfl
  | threadCreateFail c p thrd hcur hthrd =>
    have hun := findUnused_some hthrd
    refine h.table hd rfl hgrows (fun q => .inl ?_) fun q => ?_
    · exact upd_field Proc.kstack _ _ q _ ((hs.used thrd).1 hun).symm
    · by_cases hq : q = thrd
      · exact .inr (by simpa [hq] using hun)
      · exact .inl (by simpa [hq] using Same.refl (s.proc q))
  | threadReady c p thrd hcur => exact h.ready hd hcur rfl rfl hgrows rfl
  | execBegin c p two hcur => exact hcalled hcur rfl rfl rfl
  | killTest c p d w call hcur hspare hcall => exact hcalled hcur rfl rfl (newDir_fills hcall)
  | killRecover c p z d w call hcur hz hk hcall =>
    have hzp : z ≠ p := by rintro rfl; exact (hG.settled z hz).1 (hs.frame_current hcur).1
    exact hone Proc.recovered hcur rfl rfl (newDir_fills hcall) (.inr ⟨rfl, hzp⟩)
      (.inr (hgone (by simp [Proc.recovered])))
  | killMark c p m d hcur hm =>
    exact hone (fun y => { y with killed := true }) hcur rfl rfl rfl (.inl rfl) (.inl ⟨rfl, rfl, id, id⟩)
  | killHeir c p m d hcur hm =>
    have hno : s.heir c = none := hG.1.1
    rw [State.heir, hcur] at hno
    cases hno
  | execLoaded c p two d hcur => exact hcalled hcur rfl rfl rfl
  | beginOp c p hcur => exact hcalled hcur rfl rfl rfl
  | endOp c p hcur => exact hcalled hcur rfl rfl rfl
  | setmemorylimit c p q pid limit hcur => exact hcalled hcur rfl rfl rfl
  | limitStore c p q limit hcur =>
    exact hone (fun y => { y with memlim := limit }) hcur rfl rfl rfl (.inl rfl) (.inl ⟨rfl, rfl, id, id⟩)
  | _ => cases he

/-! ## Steps that touch the pages -/

theorem update_full (h : Sized s x) (mp : Pages)
    (hd : ∀ q, s.Uses q → (s.proc q).pgdir = some d → mp.Full (s.size q))
    (q : Slot) (e : Dir) (hq : s.Uses q) (he : (s.proc q).pgdir = some e) :
    (Function.update x d mp e).Full (s.size q) := by
  by_cases hed : e = d
  · rw [hed, Function.update_self]
    exact hd q hq (hed ▸ he)
  · rw [Function.update_of_ne hed]
    exact h.full q e hq he

theorem sized_execSetup (h : Sized s x) (hG : Orderly s (.execSetup c))
    (hstep : step s (.execSetup c) = some (.ok s')) : Sized s' (Function.update x s.nextDir Pages.empty) := by
  have hd := dirs_step h.dirs hG hstep
  have hpages := update_full (d := s.nextDir) h Pages.empty fun q hq hpg =>
    absurd hpg (h.dirs.next_unused hq)
  have hgrows : ∀ q, s'.Uses q → (s'.frameOf q).call.grows = (s.frameOf q).call.grows := fun q hq =>
    grows_keep h.dirs.sane hG.settled hstep (fun _ _ _ => nofun) (fun _ => nofun) (uses_kstack hd.sane hq)
  simp only [step] at hstep
  split at hstep
  · rename_i p two hcur
    cases hstep
    exact h.goes hd hcur rfl (newDir_fills (setup_newDir two _ _)) hgrows (fun q => .inl rfl) (fun q => .inl (.refl _))
      fun q e hq _ => hpages q e hq
  · cases hstep

theorem sized_execBad (h : Sized s x) (hG : Orderly s (.execBad c))
    (hstep : step s (.execBad c) = some (.ok s')) :
    ∃ x', pagesAfter s x (.execBad c) = .ok x' ∧ Sized s' x' := by
  have hs := h.dirs.sane
  have hd := dirs_step h.dirs hG hstep
  obtain ⟨x', hx', hpages⟩ : ∃ x', pagesAfter s x (.execBad c) = .ok x' ∧
      ∀ q e, s.Uses q → (s.proc q).pgdir = some e → (x' e).Full (s.size q) := by
    simp only [pagesAfter]
    split
    · rename_i p two d inOp hcur
      refine ⟨_, rfl, update_full h _ fun q hq hpg => absurd hpg (h.dirs.new_unused (p := p) ?_ hq)⟩
      show (s.frameOf p).call.newDir = some d
      rw [(hs.frame_current hcur).2.2]
      rfl
    · exact ⟨x, rfl, h.full⟩
  refine ⟨x', hx', ?_⟩
  have hgrows : ∀ q, s'.Uses q → (s'.frameOf q).call.grows = (s.frameOf q).call.grows := fun q hq =>
    grows_keep hs hG.settled hstep (fun _ _ _ => nofun) (fun _ => nofun) (uses_kstack hd.sane hq)
  simp only [step] at hstep
  split at hstep
  · rename_i p two pgdir inOp hcur
    cases hstep
    exact h.goes hd hcur rfl rfl hgrows (fun q => .inl rfl) (fun q => .inl (.refl _)) fun q e hq _ => hpages q e hq
  · cases hstep

/-- `wait`, when it finds a zombie. -/
theorem wait_reap {z : Slot} (hz : s.reaps c = some z) (hstep : step s (.wait c) = some (.ok s')) :
    ∃ p f d, s.current c = some (p, f) ∧ (s.proc z).pgdir = some d ∧
      s'.proc = s.proc.upd z Proc.reaped ∧ s'.frame = Function.update s.frame (s.cpu c).stack .idle := by
  simp only [step] at hstep
  split at hstep
  · rename_i p f hcur
    have hfind : findZombie s.proc p = some z := by
      rw [State.reaps, (current_some hcur).1] at hz
      exact hz
    split at hstep
    · simp only [Option.some.injEq, State.waitPass, hfind, State.reap] at hstep
      split at hstep
      · cases hstep
      · simp only [bind_ok] at hstep
        obtain ⟨s₁, h1, h2⟩ := hstep
        obtain ⟨d, hd, rfl⟩ := freevm_ok h1
        cases h2
        exact ⟨p, f, d, hcur, hd, rfl, rfl⟩
    · cases hstep
  · cases hstep

theorem sized_reap (h : Sized s x) {z : Slot} (hG : Orderly s (.wait c)) (hz : s.reaps c = some z)
    (hstep : step s (.wait c) = some (.ok s')) :
    ∃ x', pagesAfter s x (.wait c) = .ok x' ∧ Sized s' x' := by
  have hs := h.dirs.sane
  have hd := dirs_step h.dirs hG hstep
  have hgrows : ∀ q, s'.Uses q → (s'.frameOf q).call.grows = (s.frameOf q).call.grows := fun q hq =>
    grows_keep hs hG.settled hstep (fun _ _ _ => nofun) (fun _ => nofun) (uses_kstack hd.sane hq)
  obtain ⟨p, f, d, hcur, hpg, hproc, hframe⟩ := wait_reap hz hstep
  have hst : (s.proc z).state = .zombie := by
    rw [State.reaps, (current_some hcur).1] at hz
    exact (findZombie_some hz).2
  have hlast : s.proc.Last z := hG.2 z hz
  have hzp : z ≠ p := by rintro rfl; rw [(hs.frame_current hcur).1] at hst; cases hst
  have halone : s.Alone z := h.dirs.last_alone ⟨hlast.1, .inr hst⟩ hlast (by rw [hs.idle z (.inr hst)]; rfl)
  have hgone : ¬ s'.Uses z := not_uses_unused hd.sane (by rw [hproc, upd_self]; rfl)
  refine ⟨Function.update x d (x d).free, ?_, h.goes hd hcur hframe rfl hgrows (fun q => ?_) (fun q => ?_)
    fun q e hq hq' he => ?_⟩
  · simp only [pagesAfter, hz, hpg]
  · by_cases hq : q = z
    · exact .inr ⟨by rw [hq, hproc, upd_self]; rfl, hq ▸ hzp⟩
    · rw [hproc, upd_ne _ hq]; exact .inl rfl
  · by_cases hq : q = z
    · exact .inr (hq ▸ hgone)
    · rw [hproc, upd_ne _ hq]; exact .inl (.refl _)
  · have hqz : q ≠ z := by rintro rfl; exact hgone hq'
    have hed : e ≠ d := by
      rintro rfl
      exact halone q hqz hq (he.trans hpg.symm)
    rw [Function.update_of_ne hed]
    exact h.full q e hq he

theorem sized_forkCopy (h : Sized s x) (hG : Orderly s (.forkCopy c true))
    (hstep : step s (.forkCopy c true) = some (.ok s')) :
    ∃ x', pagesAfter s x (.forkCopy c true) = .ok x' ∧ Sized s' x' := by
  have hs := h.dirs.sane
  have hd := dirs_step h.dirs hG hstep
  have hgrows : ∀ q, s'.Uses q → (s'.frameOf q).call.grows = (s.frameOf q).call.grows := fun q hq =>
    grows_keep hs hG.settled hstep (fun _ _ _ => nofun) (fun _ => nofun) (uses_kstack hd.sane hq)
  simp only [step] at hstep
  split at hstep
  · rename_i p np hcur
    have hp := (current_some hcur).1
    have hlive : (s.proc p).Live := .inr (.inr (hs.frame_current hcur).1)
    have huse : s.Uses p := .inr (.inl hlive)
    obtain ⟨d, hpg, -⟩ := h.dirs.live_dir hlive
    have hsz : s.size p = (s.proc p).sz := size_stored (by rw [(hs.frame_current hcur).2.2]; rfl)
    have hemb := hs.creating p np (by rw [(hs.frame_current hcur).2.2]; rfl)
    obtain ⟨mp, hcopy, hfull⟩ := (hsz ▸ h.full p d huse hpg).copy
    have hx' : pagesAfter s x (.forkCopy c true) = .ok (Function.update x s.nextDir mp) := by
      simp only [pagesAfter, hp, hpg, hcopy]
      rfl
    refine ⟨_, hx', ?_⟩
    simp only [Option.some.injEq, State.forkCopy, if_true] at hstep
    cases hstep
    refine h.resize (d := s.nextDir) hd (hsz ▸ h.small p huse) (by rw [Function.update_self]; exact hfull)
      (fun q hq => ?_) fun q e _ _ hne => Function.update_of_ne hne _ _
    by_cases hqn : q = np
    · left
      subst hqn
      refine .of_stored ?_ (by simp) (by simp)
      rw [hgrows q hq, hs.idle q (.inl hemb)]
      rfl
    · right
      have hsame : (Table.upd s.proc np (fun y => { y with
          pgdir := some s.nextDir, sz := (s.proc p).sz, parent := some p, isThread := false, tid := 0,
          retval := 0 })) q = s.proc q := upd_ne _ hqn _
      have huq : s.Uses q := by
        rcases hq with hq | hq | ⟨y, hy⟩
        · exact .inl (hsame ▸ hq)
        · exact .inr (.inl (hsame ▸ hq))
        · refine .inr (.inr ⟨y, ?_⟩)
          rw [frameOf_step (g := ⟨.forked np, false⟩) hs hcur rfl
            (fun z => .inl (upd_field Proc.kstack _ _ z _ (by rfl)))] at hy
          split at hy
          · exact absurd (Option.some.inj hy).symm hqn
          · split at hy
            · cases hy
            · exact hy
      refine ⟨⟨huq, ?_, ?_, hgrows q hq⟩, h.dirs.next_unused huq⟩
      · exact congrArg Proc.pgdir hsame
      · exact congrArg Proc.sz hsame
  · cases hstep

/-- The table after the critical section of `thread_create`. -/
theorem threadMap_table {thrd : Slot} {pages copied : Bool} {sz : BitVec 32}
    (hsz : allocuvm (pgroundup (s.proc m).sz) (pgroundup (s.proc m).sz + 2 * PGSIZE) pages = sz)
    (h0 : sz ≠ 0) (hne : m ≠ thrd) (h : s.threadMap c m thrd pages copied = .ok s') :
    ∃ g : Frame, s'.frame = Function.update s.frame (s.cpu c).stack g ∧
      (g.call.fills = none ∨ g.call.fills = some thrd) ∧
      (∀ q, (s'.proc q).kstack = (s.proc q).kstack) ∧
      (∀ q, q ≠ m → q ≠ thrd → s'.proc q = s.proc q) ∧
      (s'.proc m).sz = sz ∧ (s'.proc m).pgdir = (s.proc m).pgdir ∧
      (s'.proc thrd).sz = sz ∧ (s'.proc thrd).pgdir = (s.proc m).pgdir := by
  have hm : ((s.proc.resize m sz) m).pgdir = (s.proc m).pgdir := upd_field Proc.pgdir _ _ m _ (by rfl)
  unfold State.threadMap at h
  rw [hsz] at h
  dsimp only at h
  split_ifs at h with hd hc
  · cases h
    refine ⟨.idle, rfl, .inl rfl, fun q => ?_, fun q hqm hqt => ?_, ?_, ?_, ?_, ?_⟩
    · exact (upd_field Proc.kstack _ _ q _ (by rfl)).trans (upd_field Proc.kstack _ _ q _ (by rfl))
    · simp [State.setFrame, Table.share, Table.resize, hqm, hqt]
    · simp [State.setFrame, Table.share, Table.resize, hne]
    · simp [State.setFrame, Table.share, Table.resize, hne]
    · simp [State.setFrame, Table.share, Table.resize]
    · simpa [State.setFrame, Table.share] using hm
  · cases h
    refine ⟨⟨.created thrd, false⟩, rfl, .inr rfl, fun q => ?_, fun q hqm hqt => ?_, ?_, ?_, ?_, ?_⟩
    · exact (upd_field Proc.kstack _ _ q _ (by rfl)).trans
        ((upd_field Proc.kstack _ _ q _ (by rfl)).trans (upd_field Proc.kstack _ _ q _ (by rfl)))
    · simp [State.setFrame, Table.adopt, Table.share, Table.resize, hqm, hqt]
    · simp [State.setFrame, Table.adopt, Table.share, Table.resize, hne]
    · simp [State.setFrame, Table.adopt, Table.share, Table.resize, hne]
    · simp [State.setFrame, Table.adopt, Table.share, Table.resize]
    · simpa [State.setFrame, Table.adopt, Table.share] using hm

theorem sized_threadMap (h : Sized s x) {pages copied : Bool} (hG : Orderly s (.threadMap c pages copied))
    (hR : Resizes s (.threadMap c pages copied))
    (hstep : step s (.threadMap c pages copied) = some (.ok s')) :
    ∃ x', pagesAfter s x (.threadMap c pages copied) = .ok x' ∧ Sized s' x' := by
  have hs := h.dirs.sane
  have hd := dirs_step h.dirs hG hstep
  have hgrows : ∀ q, s'.Uses q → (s'.frameOf q).call.grows = (s.frameOf q).call.grows := fun q hq =>
    grows_keep hs hG.settled hstep (fun _ _ _ => nofun) (fun _ => nofun) (uses_kstack hd.sane hq)
  simp only [step] at hstep
  split at hstep
  · rename_i p thrd hcur
    split at hstep
    · split at hstep
      · cases hstep
      · rename_i hm
        obtain ⟨hmain, -⟩ := hG.2 p _ (current_some hcur).1 hm
        obtain ⟨hlead, halone, rfl, hkern⟩ := hR p _ (current_some hcur).1 hm
        rename_i m
        have hum : s.Uses m := .inl hmain
        -- the caller uses the page directory, so it is the main thread
        have hup : s.Uses p := .inr (.inl (.inr (.inr (hs.frame_current hcur).1)))
        have hpm : p = m := by
          by_contra hne
          exact halone p hne hup hlead.2.symm
        have hfm : (s.frameOf m).call.grows = none := by rw [← hpm, (hs.frame_current hcur).2.2]; rfl
        have hszm₀ : s.size m = (s.proc m).sz := size_stored hfm
        obtain ⟨d, hpg⟩ := Option.ne_none_iff_exists'.1 (h.dirs.grouped.main m hmain).1
        have hsm := hszm₀ ▸ h.small m hum
        -- two pages more
        have hround := pgroundup_toNat hsm
        have hk : KERNBASE.toNat = 2147483648 := by decide
        have hstack : (2 * PGSIZE).toNat = 8192 := by decide
        have hadd : (pgroundup (s.proc m).sz + 2 * PGSIZE).toNat = (pgroundup (s.proc m).sz).toNat + 8192 := by
          rw [BitVec.toNat_add, hstack]
          omega
        have hsz : allocuvm (pgroundup (s.proc m).sz) (pgroundup (s.proc m).sz + 2 * PGSIZE) true =
            pgroundup (s.proc m).sz + 2 * PGSIZE := by
          have hge : ¬ pgroundup (s.proc m).sz + 2 * PGSIZE < pgroundup (s.proc m).sz := by
            rw [BitVec.lt_def, hadd]
            omega
          unfold allocuvm
          rw [if_neg (BitVec.not_le.2 hkern), if_neg hge, if_pos rfl]
        have h0 : pgroundup (s.proc m).sz + 2 * PGSIZE ≠ 0 := by
          intro h0
          rw [h0] at hadd
          simp at hadd
        obtain ⟨mp, hrun, hmp⟩ := ((hszm₀ ▸ h.full m d hum hpg).round hsm).alloc (by omega)
          (pgroundup (s.proc m).sz + 2 * PGSIZE) true
        rw [hsz, if_neg h0] at hmp
        have hx' : pagesAfter s x (.threadMap c true copied) = .ok (Function.update x d mp) := by
          simp only [pagesAfter, (current_some hcur).1, Option.bind_some, hm, hpg, hrun]
          rfl
        refine ⟨_, hx', ?_⟩
        have hemb := hs.creating p thrd (by rw [(hs.frame_current hcur).2.2]; rfl)
        have hmt : m ≠ thrd := by rintro rfl; exact not_main_embryo hemb hmain
        obtain ⟨g, hframe, hg, hks, hother, hszm, hpgm, hszt, hpgt⟩ :=
          threadMap_table hsz h0 hmt (by simpa using hstep)
        refine h.resize (d := d) hd (Nat.le_of_lt hkern) (by rw [Function.update_self]; exact hmp)
          (fun q hq => ?_) fun q e _ _ hne => Function.update_of_ne hne _ _
        by_cases hqm : q = m
        · subst hqm
          exact .inl (.of_stored ((hgrows q hq).trans hfm) (hpgm.trans hpg) hszm)
        · by_cases hqt : q = thrd
          · subst hqt
            refine .inl (.of_stored ?_ (hpgt.trans hpg) hszt)
            rw [hgrows q hq, hs.idle q (.inl hemb)]
            rfl
          · right
            have hsame := hother q hqm hqt
            have huq : s.Uses q := by
              rcases hq with hq | hq | ⟨y, hy⟩
              · exact .inl (hsame ▸ hq)
              · exact .inr (.inl (hsame ▸ hq))
              · refine .inr (.inr ⟨y, ?_⟩)
                rw [frameOf_step hs hcur hframe (fun z => .inl (hks z))] at hy
                split at hy
                · rcases hg with hg | hg
                  · rw [hg] at hy; cases hy
                  · rw [hg] at hy; exact absurd (Option.some.inj hy).symm hqt
                · split at hy
                  · cases hy
                  · exact hy
            refine ⟨⟨huq, by rw [hsame], by rw [hsame], hgrows q hq⟩, ?_⟩
            rw [← hpg]
            exact halone q hqm huq
    · cases hstep
  · cases hstep

theorem frameOf_other {f g : Frame} (hs : Sane s) (hcur : s.current c = some (p, f))
    (hframe : s'.frame = Function.update s.frame (s.cpu c).stack g)
    (hk : ∀ q, (s'.proc q).kstack = (s.proc q).kstack) (hq : q ≠ p) : s'.frameOf q = s.frameOf q := by
  rw [frameOf_step hs hcur hframe (fun q => .inl (hk q)), if_neg hq]
  split
  · rename_i hn; exact (frameOf_none ((hk q).symm.trans hn)).symm
  · rfl

/-- `growproc` has the pages, and the size is not stored yet. -/
theorem Sized.grow (h : Sized s x) {sz : BitVec 32} {mp : Pages} (hd : Dirs s')
    (hcur : s.current c = some (p, .idle)) (hproc : s'.proc = s.proc)
    (hframe : s'.frame = Function.update s.frame (s.cpu c).stack ⟨.grow m sz, false⟩) (hlead : s.Leads m p)
    (hpg : (s.proc m).pgdir = some d) (hsmall : sz.toNat ≤ KERNBASE.toNat) (hfull : mp.Full sz)
    (hsz : (s.proc m).sz = sz ∨ s.Alone m) : Sized s' (Function.update x d mp) := by
  have hs := h.dirs.sane
  obtain ⟨hrun, -, hfp⟩ := hs.frame_current hcur
  have hup : s.Uses p := .inr (.inl (.inr (.inr hrun)))
  have hum : s.Uses m := .inl hlead.1
  have hpd : (s.proc p).pgdir = some d := hlead.2 ▸ hpg
  have hszp : s.size p = (s.proc p).sz := size_stored (by rw [hfp]; rfl)
  have hfrp : s'.frameOf p = ⟨.grow m sz, false⟩ := by
    rw [frameOf_step hs hcur hframe (fun q => .inl (by rw [hproc])), if_pos rfl]
  have hfr : ∀ q, q ≠ p → s'.frameOf q = s.frameOf q := fun q hq =>
    frameOf_other hs hcur hframe (fun q => by rw [hproc]) hq
  have hback : ∀ q, s'.Uses q → s.Uses q := by
    rintro q (hq | hq | ⟨y, hy⟩)
    · exact .inl (hproc ▸ hq)
    · exact .inr (.inl (hproc ▸ hq))
    · rw [calls_step (k := Call.fills) rfl hs hcur hframe (fun q => .inl (by rw [hproc])) rfl hy] at hy
      exact .inr (.inr ⟨y, hy⟩)
  have hsize : ∀ q, q ≠ p → s'.size q = s.size q := by
    intro q hq
    unfold State.size
    rw [hfr q hq, hproc]
  refine h.resize (d := d) hd hsmall (by rw [Function.update_self]; exact hfull) (fun q hq => ?_)
    fun q e _ _ hne => Function.update_of_ne hne _ _
  have huq : s.Uses q := hback q hq
  by_cases hqd : (s.proc q).pgdir = some d
  · left
    have hqd' : (s'.proc q).pgdir = some d := by rw [hproc]; exact hqd
    by_cases hpm : p = m ∧ s.Alone m
    · -- the main thread by itself
      obtain ⟨rfl, halone⟩ := hpm
      have hqp : q = p := by
        by_contra hne
        exact halone q hne huq (hqd.trans hpg.symm)
      subst hqp
      refine ⟨hqd', size_own (by rw [hfrp]), fun m' sz' hc => ?_, .inr fun r hr hru => ?_⟩
      · rw [hfrp] at hc
        cases hc
        rfl
      · rw [hproc]
        exact halone r hr (hback r hru)
    · -- a size that is there already
      have hall : ∀ r, s.Uses r → (s.proc r).pgdir = some d → s.size r = sz := by
        have hszm : (s.proc m).sz = sz := by
          refine hsz.resolve_right fun ha => hpm ⟨?_, ha⟩
          by_contra hne
          exact ha p hne hup hlead.2.symm
        have hm : s.size m = (s.proc m).sz := by
          by_cases hpm : p = m
          · rw [← hpm, hszp]
          · exact (h.stored hum hup hpm hlead.2.symm).symm
        intro r hr hrd
        rw [h.size r m hr hum (hrd.trans hpg.symm), hm, hszm]
      by_cases hqp : q = p
      · subst hqp
        have hszq : (s'.proc q).sz = sz := by rw [hproc, ← hszp]; exact hall q hup hpd
        refine ⟨hqd', ?_, fun m' sz' hc => ?_, .inl hszq⟩
        · by_cases hmp : m = q
          · exact size_own (by rw [hfrp, hmp])
          · rw [size_other (by rw [hfrp]) hmp]
            exact hszq
        · rw [hfrp] at hc
          cases hc
          rfl
      · refine ⟨hqd', (hsize q hqp).trans (hall q huq hqd), fun m' sz' hc => ?_, .inl ?_⟩
        · rw [hfr q hqp] at hc
          rw [← h.grows q m' sz' huq hc, hall q huq hqd]
        · rw [hproc]
          exact (h.stored huq hup (Ne.symm hqp) (hpd.trans hqd.symm)).trans (hall q huq hqd)
  · have hqp : q ≠ p := fun e => hqd (e ▸ hpd)
    exact .inr ⟨⟨huq, by rw [hproc], by rw [hproc], by rw [hfr q hqp]⟩, hqd⟩

theorem sized_growproc (h : Sized s x) {k : BitVec 32} {ok : Bool} (hG : Orderly s (.growproc c k ok))
    (hR : Resizes s (.growproc c k ok)) (hstep : step s (.growproc c k ok) = some (.ok s')) :
    ∃ x', pagesAfter s x (.growproc c k ok) = .ok x' ∧ Sized s' x' := by
  have hd := dirs_step h.dirs hG hstep
  -- the table and the frames stay
  have hkeep : ∀ {x'}, s'.proc = s.proc → s'.frame = s.frame →
      (∀ q e, s.Uses q → (s.proc q).pgdir = some e → (x' e).Full (s.size q)) → Sized s' x' := by
    intro x' hproc hframe hpages
    have hfr : ∀ q, s'.frameOf q = s.frameOf q := fun q => by unfold State.frameOf; rw [hproc, hframe]
    refine h.steady hd (fun q => .inl ?_) (fun q _ => by rw [hfr]) (fun p q hp => hfr p ▸ hp)
      fun q e hq _ => hpages q e hq
    rw [hproc]
    exact .refl _
  simp only [step] at hstep
  split at hstep
  · rename_i p hu
    split at hstep
    · split at hstep
      · rename_i hlim
        cases hstep
        exact ⟨x, by simp only [pagesAfter, hu, if_pos hlim], hkeep rfl rfl h.full⟩
      · rename_i hlim
        split at hstep
        · cases hstep
        · rename_i m hm
          have hcur := user_some hu
          obtain ⟨hrun, -, hfp⟩ := h.dirs.sane.frame_current hcur
          obtain ⟨hlead, halone, hall⟩ := hR p m hu hm hlim
          have hum : s.Uses m := .inl hlead.1
          have hup : s.Uses p := .inr (.inl (.inr (.inr hrun)))
          obtain ⟨d, hpg⟩ := Option.ne_none_iff_exists'.1 (h.dirs.grouped.main m hlead.1).1
          -- the size of the main thread is in its slot
          have hszm : s.size m = (s.proc m).sz := by
            by_cases hpm : p = m
            · exact size_stored (by rw [← hpm, hfp]; rfl)
            · exact (h.stored hum hup hpm hlead.2.symm).symm
          obtain ⟨mp, hgrow, hmp⟩ := (hszm ▸ h.full m d hum hpg).grow (hszm ▸ h.small m hum) k ok hall
          have hx' : pagesAfter s x (.growproc c k ok) = .ok (Function.update x d mp) := by
            simp only [pagesAfter, hu, if_neg hlim, hm, hpg, hgrow]
            rfl
          refine ⟨_, hx', ?_⟩
          have hne : (s.proc m).pgdir ≠ none := by rw [hpg]; simp
          simp only [State.growproc, if_neg hne, Option.some.injEq] at hstep
          cases hnew : newSize (s.proc m).sz k ok with
          | none =>
            rw [hnew] at hstep hmp
            cases hstep
            refine hkeep rfl rfl (update_full h _ fun q hq hqd => ?_)
            rw [h.size q m hq hum (hqd.trans hpg.symm), hszm]
            exact hmp
          | some sz =>
            rw [hnew] at hstep hmp
            cases hstep
            refine h.grow hd hcur rfl rfl hlead hpg (newSize_le_kernbase hnew (hszm ▸ h.small m hum)) hmp ?_
            by_cases hchange : Grows (s.proc m).sz k ok ∨ Shrinks (s.proc m).sz k
            · exact .inr (halone hchange)
            · exact .inl (newSize_same hnew (fun hg => hchange (.inl hg)) fun hs => hchange (.inr hs)).symm
    · cases hstep
  · cases hstep

/-- `growproc` stores the size. -/
theorem growStore_table (hstep : step s (.growStore c) = some (.ok s')) :
    ∃ p m sz, s.current c = some (p, ⟨.grow m sz, false⟩) ∧ s'.proc = s.proc.resize m sz ∧
      s'.frame = Function.update s.frame (s.cpu c).stack .idle := by
  simp only [step] at hstep
  split at hstep
  · rename_i p m sz hcur
    simp only [Option.some.injEq, State.growStore, bind_ok] at hstep
    obtain ⟨s₁, h1, h2⟩ := hstep
    obtain ⟨k, d, -, -, rfl⟩ := switchuvm_ok h1
    cases h2
    refine ⟨p, m, sz, hcur, rfl, ?_⟩
    simp only [State.setFrame, State.setCpu, Function.update_self]
  · cases hstep

theorem sized_growStore (h : Sized s x) (hG : Orderly s (.growStore c)) (hR : Resizes s (.growStore c))
    (hstep : step s (.growStore c) = some (.ok s')) : Sized s' x := by
  have hs := h.dirs.sane
  have hd := dirs_step h.dirs hG hstep
  obtain ⟨p, m, sz, hcur, hproc, hframe⟩ := growStore_table hstep
  obtain ⟨hrun, -, hfp⟩ := hs.frame_current hcur
  have hlead : s.Leads m p := by simpa [Resizes, hcur, Call.grows] using hR
  have hup : s.Uses p := .inr (.inl (.inr (.inr hrun)))
  have hum : s.Uses m := .inl hlead.1
  obtain ⟨d, hpg⟩ := Option.ne_none_iff_exists'.1 (h.dirs.grouped.main m hlead.1).1
  have hpd : (s.proc p).pgdir = some d := hlead.2 ▸ hpg
  -- everybody has the size
  have hall : ∀ r, s.Uses r → (s.proc r).pgdir = some d → s.size r = sz := by
    intro r hr hrd
    rw [h.size r p hr hup (hrd.trans hpd.symm), h.grows p m sz hup (by rw [hfp])]
  have hks : ∀ q, (s'.proc q).kstack = (s.proc q).kstack := fun q => by
    rw [hproc]; exact upd_field Proc.kstack _ _ q _ (by rfl)
  have hpgdir : ∀ q, (s'.proc q).pgdir = (s.proc q).pgdir := fun q => by
    rw [hproc]; exact upd_field Proc.pgdir _ _ q _ (by rfl)
  have hself : s'.proc m = { s.proc m with sz := sz } := by rw [hproc, Table.resize, upd_self]
  have hne : ∀ q, q ≠ m → s'.proc q = s.proc q := fun q hq => by rw [hproc, Table.resize, upd_ne _ hq]
  have hfrp : s'.frameOf p = .idle := by rw [frameOf_step hs hcur hframe (fun q => .inl (hks q)), if_pos rfl]
  have hfr : ∀ q, q ≠ p → s'.frameOf q = s.frameOf q := fun q hq => frameOf_other hs hcur hframe hks hq
  have hback : ∀ q, s'.Uses q → s.Uses q := by
    rintro q (hq | hq | ⟨y, hy⟩)
    · by_cases hqm : q = m
      · exact hqm ▸ hum
      · exact .inl (hne q hqm ▸ hq)
    · by_cases hqm : q = m
      · exact hqm ▸ hum
      · exact .inr (.inl (hne q hqm ▸ hq))
    · rw [calls_step (k := Call.fills) rfl hs hcur hframe (fun q => .inl (hks q)) rfl hy] at hy
      exact .inr (.inr ⟨y, hy⟩)
  refine h.resize (d := d) hd (hall m hum hpg ▸ h.small m hum) (hall m hum hpg ▸ h.full m d hum hpg) (fun q hq => ?_)
    fun q e _ _ _ => rfl
  have huq := hback q hq
  by_cases hqd : (s.proc q).pgdir = some d
  · left
    -- the size is in every slot from now on
    have hszq : (s'.proc q).sz = sz := by
      by_cases hqm : q = m
      · rw [hqm, hself]
      · rw [hne q hqm, ← hall q huq hqd]
        exact h.stored huq hum (Ne.symm hqm) (hpg.trans hqd.symm)
    have hgrow : ∀ m' sz', (s'.frameOf q).call = .grow m' sz' → sz' = sz := by
      intro m' sz' hc
      by_cases hqp : q = p
      · rw [hqp, hfrp] at hc
        cases hc
      · rw [hfr q hqp] at hc
        rw [← h.grows q m' sz' huq hc, hall q huq hqd]
    refine ⟨(hpgdir q).trans hqd, ?_, hgrow, .inl hszq⟩
    cases hc : (s'.frameOf q).call with
    | grow m' sz' =>
      by_cases hm' : m' = q
      · exact (size_own (hm' ▸ hc)).trans (hgrow m' sz' hc)
      · exact (size_other hc hm').trans hszq
    | _ => exact (size_stored (by rw [hc]; rfl)).trans hszq
  · have hqp : q ≠ p := fun e => hqd (e ▸ hpd)
    have hqm : q ≠ m := fun e => hqd (e ▸ hpg)
    exact .inr ⟨⟨huq, hpgdir q, by rw [hne q hqm], by rw [hfr q hqp]⟩, hqd⟩

/-- `exec` commits to the new image. -/
theorem execCommit_table {sz : BitVec 32} (hstep : step s (.execCommit c sz) = some (.ok s')) :
    ∃ p two d old, s.current c = some (p, ⟨.exec two (some d), false⟩) ∧ (s.proc p).pgdir = some old ∧
      s'.proc = (s.proc.upd p fun y => { y with pgdir := some d, sz := sz }) ∧
      s'.frame = Function.update s.frame (s.cpu c).stack .idle := by
  simp only [step] at hstep
  split at hstep
  · rename_i p two d hcur
    simp only [Option.some.injEq, State.execCommit, bind_ok] at hstep
    obtain ⟨s₁, h1, s₂, h2, h3⟩ := hstep
    obtain ⟨k, d', -, -, rfl⟩ := switchuvm_ok h1
    obtain ⟨old, hold, rfl⟩ := freevm_ok h2
    cases h3
    refine ⟨p, two, d, old, hcur, hold, rfl, ?_⟩
    simp only [State.setFrame, State.setCpu, Function.update_self]
  · cases hstep

theorem sized_commit (h : Sized s x) {mp : Pages} {sz : BitVec 32} (hG : Orderly s (.execCommit c sz))
    (hfull : mp.Full sz) (hsz : sz.toNat ≤ KERNBASE.toNat)
    (hstep : step s (.execCommit c sz) = some (.ok s')) : Sized s' (pagesCommit s x c mp) := by
  have hs := h.dirs.sane
  have hd := dirs_step h.dirs hG hstep
  obtain ⟨p, two, d, old, hcur, hold, hproc, hframe⟩ := execCommit_table hstep
  obtain ⟨hrun, -, hfp⟩ := hs.frame_current hcur
  have hnew : s.holds (p, .new) = some d := by
    show (s.frameOf p).call.newDir = some d
    rw [hfp]
    rfl
  have hlast : s.proc.Last p := hG.2 p (current_some hcur).1
  have hmain : (s.proc p).Main := ⟨hlast.1, .inl (.inr (.inr hrun))⟩
  have halone : s.Alone p := h.dirs.last_alone hmain hlast (by rw [hfp]; rfl)
  have hdo : d ≠ old := by
    rintro rfl
    exact h.dirs.new_unused hnew (.inl hmain) hold
  have hx' : pagesCommit s x c mp = Function.update (Function.update x d mp) old (x old).free := by
    simp only [pagesCommit, hcur, hold]
  have hks : ∀ q, (s'.proc q).kstack = (s.proc q).kstack := fun q => by
    rw [hproc]; exact upd_field Proc.kstack _ _ q _ (by rfl)
  have hback : ∀ q, q ≠ p → s'.Uses q → s.Uses q ∧ s'.proc q = s.proc q := by
    intro q hqp hq
    have hsame : s'.proc q = s.proc q := by rw [hproc, upd_ne _ hqp]
    refine ⟨?_, hsame⟩
    rcases hq with hq | hq | ⟨y, hy⟩
    · exact .inl (hsame ▸ hq)
    · exact .inr (.inl (hsame ▸ hq))
    · rw [calls_step (k := Call.fills) rfl hs hcur hframe (fun z => .inl (hks z)) rfl hy] at hy
      exact .inr (.inr ⟨y, hy⟩)
  have hself : s'.proc p = { s.proc p with pgdir := some d, sz := sz } := by rw [hproc, upd_self]
  have hgrows : ∀ q, s'.Uses q → (s'.frameOf q).call.grows = (s.frameOf q).call.grows := fun q hq =>
    grows_keep hs hG.settled hstep (fun _ _ _ => nofun) (fun _ => nofun) (uses_kstack hd.sane hq)
  rw [hx']
  refine h.resize (d := d) hd hsz ?_ (fun q hq => ?_) fun q e hq he hed => ?_
  · rw [Function.update_of_ne hdo, Function.update_self]
    exact hfull
  · by_cases hqp : q = p
    · subst hqp
      refine .inl (.of_stored ?_ (by rw [hself]) (by rw [hself]))
      rw [hgrows q hq, hfp]
      rfl
    · obtain ⟨hu, hsame⟩ := hback q hqp hq
      exact .inr ⟨⟨hu, by rw [hsame], by rw [hsame], hgrows q hq⟩, h.dirs.new_unused hnew hu⟩
  · have hqp : q ≠ p := by
      rintro rfl
      rw [hself] at he
      exact hed (Option.some.inj he).symm
    obtain ⟨hu, hsame⟩ := hback q hqp hq
    have heo : e ≠ old := by
      rintro rfl
      refine halone q hqp hu ?_
      rw [hold, ← he, hsame]
    rw [Function.update_of_ne heo, Function.update_of_ne hed]

/-- **A careful step finds its pages**, and leaves one size for every page directory. -/
theorem sized_step (h : Sized s x) {e : Event n} (hG : Orderly s e) (hR : Resizes s e)
    (hne : ∀ c sz, e ≠ .execCommit c sz) (hstep : step s e = some (.ok s')) :
    ∃ x', pagesAfter s x e = .ok x' ∧ Sized s' x' := by
  have hplain : e.pages = false → (∀ c, e = .wait c → s.reaps c = none) → Sized s' x :=
    fun he hwait => sized_plain h hG he hwait hstep
  cases e with
  | growproc c k ok => exact sized_growproc h hG hR hstep
  | growStore c => exact ⟨x, rfl, sized_growStore h hG hR hstep⟩
  | threadMap c pages copied => exact sized_threadMap h hG hR hstep
  | forkCopy c copied =>
    cases copied with
    | true => exact sized_forkCopy h hG hstep
    | false => exact ⟨x, rfl, hplain rfl (by simp)⟩
  | execSetup c => exact ⟨_, rfl, sized_execSetup h hG hstep⟩
  | execBad c => exact sized_execBad h hG hstep
  | execCommit c sz => exact absurd rfl (hne c sz)
  | wait c =>
    cases hz : s.reaps c with
    | some z => exact sized_reap h hG hz hstep
    | none =>
      refine ⟨x, by simp only [pagesAfter, hz], hplain rfl fun c' hc => ?_⟩
      cases hc
      exact hz
  | _ => exact ⟨x, rfl, hplain rfl (by simp)⟩

/-! ## Runs -/

/-- What is left of a step that is careful. -/
theorem sized_mstep {s : MState n} (h : Sized s.kernel s.pages) {e : MEvent n} (hC : Careful s e)
    {r : Except Trap (MState n)} (hstep : mstep s e = some r) :
    (∃ s', r = .ok s' ∧ Sized s'.kernel s'.pages) ∨ ∃ f, r = .error (.proc f) := by
  cases e with
  | proc e =>
    by_cases hcommit : ∃ c sz, e = .execCommit c sz
    · obtain ⟨c, sz, rfl⟩ := hcommit
      cases hstep
    · have hne : ∀ c sz, e ≠ .execCommit c sz := fun c sz he => hcommit ⟨c, sz, he⟩
      rcases mstep_proc hstep with ⟨f, -, rfl⟩ | ⟨k, hs, rfl⟩
      · exact .inr ⟨f, rfl⟩
      · obtain ⟨x', hx', hsized⟩ := sized_step h hC.1 hC.2 hne hs
        rw [hx']
        exact .inl ⟨⟨k, x'⟩, rfl, hsized⟩
  | commit c ends stacksize =>
    obtain ⟨y, hload, hy⟩ := loaded_image ends (s.kernel.stackBytes c stacksize)
    simp only [mstep, hload] at hstep
    cases y with
    | none => cases hstep
    | some y =>
      obtain ⟨mp, sz⟩ := y
      obtain ⟨hfull, hsz⟩ := hy mp sz rfl
      dsimp only at hstep
      split at hstep
      · cases hstep
      · rename_i f hs
        cases hstep
        exact .inr ⟨f, rfl⟩
      · rename_i k hs
        cases hstep
        have hC' : Orderly s.kernel (.execCommit c sz) := ⟨hC.1, hC.2⟩
        exact .inl ⟨_, rfl, sized_commit h hC' hfull hsz hs⟩

theorem Sized.oneSize {s : MState n} (h : Sized s.kernel s.pages) : OneSize s where
  size p q d hp hq hpg hqg := by
    have hup : s.kernel.Uses p := .inr (.inl hp)
    have huq : s.kernel.Uses q := .inr (.inl hq)
    by_cases hpq : p = q
    · rw [hpq]
    · have hsame := hpg.trans hqg.symm
      rw [h.stored hup huq (Ne.symm hpq) hsame.symm, h.stored huq hup hpq hsame, h.size p q hup huq hsame]
  mapped p d hp hpg i _ := by
    have hu : s.kernel.Uses p := .inr (.inl hp)
    rw [h.full p d hu hpg i, pgroundup_toNat (h.small p hu)]
    omega

theorem Sized.argsMapped {s : MState n} (h : Sized s.kernel s.pages) : ArgsMapped s where
  fetchint p d addr hp hno hpg hf k hk := by
    have hu : s.kernel.Uses p := .inr (.inl hp)
    have hsmall := h.small p hu
    have hsz := size_stored hno
    have hkern : KERNBASE.toNat = 2147483648 := by decide
    have hfour : (4 : BitVec 32).toNat = 4 := by decide
    obtain ⟨hlt, hle⟩ : addr.toNat < (s.kernel.proc p).sz.toNat ∧
        (addr + 4).toNat ≤ (s.kernel.proc p).sz.toNat := by
      simpa [Proc.fetchint, BitVec.lt_def, BitVec.le_def] using hf
    rw [BitVec.toNat_add, hfour] at hle
    rw [h.full p d hu hpg, hsz]
    rw [hsz] at hsmall
    omega
  argptr p d i size hp hno hpg hf k hk := by
    have hu : s.kernel.Uses p := .inr (.inl hp)
    have hsmall := h.small p hu
    have hsz := size_stored hno
    have hkern : KERNBASE.toNat = 2147483648 := by decide
    obtain ⟨⟨hneg, hlt⟩, hle⟩ : (BitVec.slt size 0 = false ∧ i.toNat < (s.kernel.proc p).sz.toNat) ∧
        (i + size).toNat ≤ (s.kernel.proc p).sz.toNat := by
      simpa [Proc.argptr, BitVec.lt_def, BitVec.le_def] using hf
    have hsize : size.toNat < 2 ^ 31 := by
      have hmsb : size.msb = false := by rw [← BitVec.slt_zero_eq_msb]; exact hneg
      rw [BitVec.msb_eq_false_iff_two_mul_lt] at hmsb
      omega
    rw [BitVec.toNat_add] at hle
    rw [h.full p d hu hpg, hsz]
    rw [hsz] at hsmall
    omega

theorem mboot_sized : Sized (mboot n).kernel (mboot n).pages := by
  have hinit : ∀ q, (boot n).Uses q → q = initproc := by
    intro q hq
    by_contra hne
    have hz : (boot n).proc q = Proc.zero := if_neg hne
    rcases hq with hq | hq | ⟨p, hp⟩
    · exact hne (boot_main.1 hq)
    · rw [hz] at hq
      rcases hq with e | e | e <;> cases e
    · rw [boot_frameOf] at hp
      cases hp
  have hsize : ∀ q, (boot n).size q = ((boot n).proc q).sz := fun q => size_stored (by rw [boot_frameOf]; rfl)
  refine ⟨boot_dirs, fun q hq => ?_, fun p q hp hq _ => ?_, fun q d hq hpg => ?_, fun q m sz _ hc => ?_,
    fun q _ => .inl (hsize q).symm⟩
  · show ((boot n).size q).toNat ≤ _
    rw [hsize, hinit q hq]
    show PGSIZE.toNat ≤ KERNBASE.toNat
    decide
  · rw [hinit p hp, hinit q hq]
  · show ((mboot n).pages d).Full ((boot n).size q)
    rw [hsize]
    rw [hinit q hq] at hpg ⊢
    obtain rfl : 0 = d := Option.some.inj hpg
    intro i
    show (Function.update Pages.empty 0 true) i = true ↔ i * 4096 < 4096
    by_cases hi : i = 0
    · simp [hi]
    · simp [Pages.empty, hi]
  · rw [show (mboot n).kernel = boot n from rfl, boot_frameOf] at hc
    cases hc

/-- **One size for an address space**, and no panic over a page that is not there, in every run
in which the size changes only while the main thread has no LWP. -/
theorem one_size (n : ℕ) (es : List (MEvent n)) (hG : (mmachine n).Guarded Careful (mboot n) es) :
    (∀ s, (mmachine n).run (mboot n) es = some (.ok s) → OneSize s ∧ ArgsMapped s) ∧
      (mmachine n).run (mboot n) es ≠ some (.error .copyuvm) ∧
      (mmachine n).run (mboot n) es ≠ some (.error .remap) := by
  have hstep : ∀ (s : MState n) e s', Sized s.kernel s.pages → Careful s e →
      (mmachine n).step s e = some (.ok s') → Sized s'.kernel s'.pages := by
    intro s e s' h hC hs
    rcases sized_mstep h hC hs with ⟨s₁, he, h'⟩ | ⟨f, he⟩
    · cases he; exact h'
    · cases he
  have htrap : ∀ t, (mmachine n).run (mboot n) es = some (.error t) → ∃ f, t = .proc f := by
    intro t hr
    obtain ⟨es', e, s, rfl, h1, h2⟩ := Machine.run_fault hr
    have h := Machine.guarded_inv (I := fun s : MState n => Sized s.kernel s.pages) mboot_sized hstep hG.init h1
    rcases sized_mstep h (hG.last h1) h2 with ⟨s₁, he, -⟩ | ⟨f, he⟩
    · cases he
    · cases he; exact ⟨f, rfl⟩
  refine ⟨fun s hr => ?_, fun hr => ?_, fun hr => ?_⟩
  · have h := Machine.guarded_inv (I := fun s : MState n => Sized s.kernel s.pages) mboot_sized hstep hG hr
    exact ⟨h.oneSize, h.argsMapped⟩
  · obtain ⟨f, hf⟩ := htrap _ hr
    cases hf
  · obtain ⟨f, hf⟩ := htrap _ hr
    cases hf

/-- Init grows by a page and creates an LWP, which forks. -/
def lwpForks : List (MEvent 1) :=
  [.proc (.sched 0 0), .proc (.growproc 0 4096 true), .proc (.growStore 0), .proc (.threadCreate 0 true),
    .proc (.threadMap 0 true true), .proc (.threadReady 0), .proc (.yield 0), .proc (.sched 0 1),
    .proc (.fork 0 true), .proc (.forkCopy 0 true), .proc (.forkReady 0)]

theorem one_size_lwpForks : ∃ s, (mmachine 1).run (mboot 1) lwpForks = some (.ok s) ∧
    (s.kernel.proc 2).Live ∧ (s.kernel.proc 2).sz = 16384 ∧ OneSize s ∧ ArgsMapped s := by
  obtain ⟨s, hr, hl, hsz⟩ : ∃ s, (mmachine 1).run (mboot 1) lwpForks = some (.ok s) ∧
      (s.kernel.proc 2).Live ∧ (s.kernel.proc 2).sz = 16384 := Machine.run_of_reaches (by decide +kernel)
  have hG : (mmachine 1).Guarded Careful (mboot 1) lwpForks := Machine.guarded_of_check (by decide +kernel)
  exact ⟨s, hr, hl, hsz, (one_size 1 lwpForks hG).1 s hr⟩

/-- Init creates an LWP and grows by a page. -/
def growsWithLwp : List (MEvent 1) :=
  [.proc (.sched 0 0), .proc (.threadCreate 0 true), .proc (.threadMap 0 true true),
    .proc (.threadReady 0), .proc (.growproc 0 4096 true), .proc (.growStore 0)]

/-- **`sbrk` leaves the LWP behind**: its size stays what it was when it was created. -/
theorem sbrk_leaves_lwp_behind : ∃ s, (mmachine 1).run (mboot 1) growsWithLwp = some (.ok s) ∧
    (s.kernel.proc 0).Live ∧ (s.kernel.proc 1).Live ∧ (s.kernel.proc 0).pgdir = some 0 ∧
    (s.kernel.proc 1).pgdir = some 0 ∧ (s.kernel.proc 0).sz = 16384 ∧ (s.kernel.proc 1).sz = 12288 ∧
    ¬ OneSize s := by
  obtain ⟨s, hr, h0, h1, hpg0, hpg1, hsz0, hsz1⟩ : ∃ s, (mmachine 1).run (mboot 1) growsWithLwp = some (.ok s) ∧
      (s.kernel.proc 0).Live ∧ (s.kernel.proc 1).Live ∧ (s.kernel.proc 0).pgdir = some 0 ∧
      (s.kernel.proc 1).pgdir = some 0 ∧ (s.kernel.proc 0).sz = 16384 ∧ (s.kernel.proc 1).sz = 12288 :=
    Machine.run_of_reaches (by decide +kernel)
  refine ⟨s, hr, h0, h1, hpg0, hpg1, hsz0, hsz1, fun h => ?_⟩
  have heq := h.size 0 1 0 h0 h1 hpg0 hpg1
  rw [hsz0, hsz1] at heq
  exact absurd heq (by decide)

end Xv6.Lwp
