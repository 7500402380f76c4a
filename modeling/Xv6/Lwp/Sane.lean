import Xv6.Lwp.Step

/-!
# Processes, stacks and CPUs

`Sane`: a `RUNNING` process is on one CPU, which executes on the process's own kernel
stack; kernel stacks are not shared; and a slot in creation has one creator. Every step
keeps this (`sane_step`) as long as `kill_thread` recovers no slot that runs or is still
being filled in (`Settled`).
-/

namespace Xv6.Lwp

variable {n : ℕ} {s s' : State n} {c : Fin n} {t t' : Table} {p q : Slot}

/-- The slot that a process is filling in. -/
def Call.creates : Call → Option Slot
  | .fork np | .forked np | .create np | .created np => some np
  | _ => Option.none

theorem newDir_creates {call : Call} {d : Dir} (h : call.newDir = some d) : call.creates = none := by
  cases call <;> first | rfl | cases h

/-- What is on the kernel stack of a slot. -/
def State.frameOf (s : State n) (p : Slot) : Frame :=
  match (s.proc p).kstack with
  | some k => s.frame k
  | none => .idle

/-- Somebody is in the middle of creating the slot. -/
def State.Creating (s : State n) (q : Slot) : Prop := ∃ p, (s.frameOf p).call.creates = some q

instance (s : State n) (q : Slot) : Decidable (s.Creating q) := by unfold State.Creating; infer_instance

structure Sane (s : State n) : Prop where
  onCpu : ∀ c p, (s.cpu c).proc = some p →
    (s.proc p).state = .running ∧ (s.proc p).kstack = some (s.cpu c).stack
  cpuOf : ∀ p, (s.proc p).state = .running → ∃ c, (s.cpu c).proc = some p
  one : ∀ c c' p, (s.cpu c).proc = some p → (s.cpu c').proc = some p → c = c'
  stackInj : ∀ p q k, (s.proc p).kstack = some k → (s.proc q).kstack = some k → p = q
  stackLt : ∀ p k, (s.proc p).kstack = some k → k < s.nextStack
  used : ∀ p, (s.proc p).state = .unused ↔ (s.proc p).kstack = none
  idle : ∀ p, (s.proc p).state = .embryo ∨ (s.proc p).state = .zombie → s.frameOf p = .idle
  creating : ∀ p np, (s.frameOf p).call.creates = some np → (s.proc np).state = .embryo
  creator : ∀ p q np, (s.frameOf p).call.creates = some np → (s.frameOf q).call.creates = some np → p = q

theorem frameOf_some {k : Stack} (h : (s.proc p).kstack = some k) : s.frameOf p = s.frame k := by
  unfold State.frameOf; rw [h]

theorem frameOf_none (h : (s.proc p).kstack = none) : s.frameOf p = .idle := by
  unfold State.frameOf; rw [h]

theorem Sane.frame_current {f : Frame} (h : Sane s) (hcur : s.current c = some (p, f)) :
    (s.proc p).state = .running ∧ (s.proc p).kstack = some (s.cpu c).stack ∧ s.frameOf p = f := by
  obtain ⟨hp, hf⟩ := current_some hcur
  obtain ⟨hst, hk⟩ := h.onCpu c p hp
  exact ⟨hst, hk, (frameOf_some hk).trans hf⟩

/-- A process that fills a slot in is neither being created nor gone. -/
theorem Sane.creator_live {np : Slot} (h : Sane s) (hp : (s.frameOf p).call.creates = some np) :
    (s.proc p).state = .sleeping ∨ (s.proc p).state = .runnable ∨ (s.proc p).state = .running := by
  have hne : s.frameOf p ≠ .idle := fun e => by rw [e] at hp; cases hp
  cases hst : (s.proc p).state with
  | unused => exact absurd (frameOf_none ((h.used p).1 hst)) hne
  | embryo => exact absurd (h.idle p (.inl hst)) hne
  | zombie => exact absurd (h.idle p (.inr hst)) hne
  | sleeping => exact .inl rfl
  | runnable => exact .inr (.inl rfl)
  | running => exact .inr (.inr rfl)

/-- The slots keep their stacks, or are freed; the process of one CPU goes on with the
frame `g`. -/
theorem frameOf_step {f g : Frame} (h : Sane s) (hcur : s.current c = some (p, f))
    (hframe : s'.frame = Function.update s.frame (s.cpu c).stack g)
    (hk : ∀ q, (s'.proc q).kstack = (s.proc q).kstack ∨ (s'.proc q).kstack = none ∧ q ≠ p) (q : Slot) :
    s'.frameOf q = if q = p then g else if (s'.proc q).kstack = none then .idle else s.frameOf q := by
  obtain ⟨-, hkp, -⟩ := h.frame_current hcur
  rcases hk q with e | ⟨e, hqp⟩
  · cases hkq : (s.proc q).kstack with
    | none =>
      have hqp : q ≠ p := by rintro rfl; rw [hkp] at hkq; cases hkq
      rw [if_neg hqp, if_pos (e.trans hkq), frameOf_none (e.trans hkq)]
    | some k =>
      have hne : (s'.proc q).kstack ≠ none := by rw [e, hkq]; simp
      rw [frameOf_some (e.trans hkq), if_neg hne, frameOf_some hkq, hframe, Function.update_apply]
      by_cases hqp : q = p
      · subst hqp
        rw [hkp] at hkq
        cases hkq
        rw [if_pos rfl, if_pos rfl]
      · have hks : k ≠ (s.cpu c).stack := by rintro rfl; exact hqp (h.stackInj q p _ hkq hkp)
        rw [if_neg hks, if_neg hqp]
  · rw [frameOf_none e, if_neg hqp, if_pos e]

/-- The same when no process goes on. -/
theorem frameOf_same (hframe : s'.frame = s.frame)
    (hk : ∀ q, (s'.proc q).kstack = (s.proc q).kstack ∨ (s'.proc q).kstack = none) (q : Slot) :
    s'.frameOf q = if (s'.proc q).kstack = none then .idle else s.frameOf q := by
  split
  · rename_i hn; exact frameOf_none hn
  · rename_i hn
    unfold State.frameOf
    rw [(hk q).resolve_right hn, hframe]

/-- A slot that was not in use gets a new stack, with nothing on it. -/
theorem frameOf_spawn (h : Sane s) {np : Slot} {f g : Frame}
    (hcur : s.current c = some (p, f)) (hnp : (s.proc np).state = .unused)
    (hk : (s'.proc np).kstack = some s.nextStack) (hne : ∀ q, q ≠ np → s'.proc q = s.proc q)
    (hframe : s'.frame = Function.update (Function.update s.frame s.nextStack .idle) (s.cpu c).stack g)
    (q : Slot) : s'.frameOf q = if q = p then g else s.frameOf q := by
  obtain ⟨hrun, hkp, -⟩ := h.frame_current hcur
  have hpn : p ≠ np := by rintro rfl; rw [hrun] at hnp; cases hnp
  have hlt := h.stackLt p _ hkp
  by_cases hq : q = np
  · subst hq
    rw [if_neg hpn.symm, frameOf_some hk, hframe, Function.update_of_ne hlt.ne', Function.update_self,
      frameOf_none ((h.used q).1 hnp)]
  · unfold State.frameOf
    rw [hne q hq]
    cases hkq : (s.proc q).kstack with
    | none =>
      have hqp : q ≠ p := by rintro rfl; rw [hkp] at hkq; cases hkq
      rw [if_neg hqp]
    | some k =>
      show s'.frame k = if q = p then g else s.frame k
      rw [hframe, Function.update_apply]
      by_cases hqp : q = p
      · subst hqp
        rw [hkp] at hkq
        cases hkq
        rw [if_pos rfl, if_pos rfl]
      · have hkc : k ≠ (s.cpu c).stack := by rintro rfl; exact hqp (h.stackInj q p _ hkq hkp)
        rw [if_neg hkc, if_neg hqp, Function.update_of_ne (h.stackLt q k hkq).ne]

/-- A process that is doing something `k` after a step in which none goes on did it before. -/
theorem calls_same {α : Type*} {k : Call → Option α} {a : α} (h0 : k .none = none)
    (hframe : s'.frame = s.frame)
    (hk : ∀ q, (s'.proc q).kstack = (s.proc q).kstack ∨ (s'.proc q).kstack = none)
    (hx : k (s'.frameOf q).call = some a) : (s'.frameOf q).call = (s.frameOf q).call := by
  rw [frameOf_same hframe hk] at hx ⊢
  split
  · rename_i hn; rw [if_pos hn] at hx; exact absurd (h0.symm.trans hx) (by simp)
  · rfl

/-- The same when the process that goes on does not do it. -/
theorem calls_step {α : Type*} {k : Call → Option α} {a : α} {f g : Frame} (h0 : k .none = none)
    (hs : Sane s) (hcur : s.current c = some (p, f))
    (hframe : s'.frame = Function.update s.frame (s.cpu c).stack g)
    (hk : ∀ q, (s'.proc q).kstack = (s.proc q).kstack ∨ (s'.proc q).kstack = none ∧ q ≠ p)
    (hg : k g.call = none) (hx : k (s'.frameOf q).call = some a) :
    (s'.frameOf q).call = (s.frameOf q).call := by
  rw [frameOf_step hs hcur hframe hk] at hx ⊢
  split
  · rename_i hq; rw [if_pos hq, hg] at hx; cases hx
  · rename_i hq
    rw [if_neg hq] at hx
    split
    · rename_i hn; rw [if_pos hn] at hx; exact absurd (h0.symm.trans hx) (by simp)
    · rfl

/-- What happens to a slot that neither starts nor stops running: nothing to its state,
or it wakes up, or it is freed while nobody runs it or (`busy`) fills it in. -/
inductive Quiet (busy : Prop) (x y : Proc) : Prop
  | same (hst : y.state = x.state) (hk : y.kstack = x.kstack)
  | wake (hx : x.state = .sleeping) (hy : y.state = .runnable) (hk : y.kstack = x.kstack)
  | freed (hrun : x.state ≠ .running) (hbusy : ¬ busy) (hy : y.state = .unused) (hk : y.kstack = none)

theorem Quiet.refl (busy : Prop) (x : Proc) : Quiet busy x x := .same rfl rfl

theorem Quiet.kstack {busy : Prop} {x y : Proc} (h : Quiet busy x y) {k : Stack}
    (hk : y.kstack = some k) : x.kstack = some k := by
  cases h with
  | same _ h => rw [← h, hk]
  | wake _ _ h => rw [← h, hk]
  | freed _ _ _ h => rw [h] at hk; cases hk

theorem Quiet.state {busy : Prop} {x y : Proc} (h : Quiet busy x y) : y.state = x.state ∨
    y.state = .unused ∨ x.state = .sleeping ∧ y.state = .runnable := by
  cases h with
  | same h _ => exact .inl h
  | wake h1 h2 _ => exact .inr (.inr ⟨h1, h2⟩)
  | freed _ _ h _ => exact .inr (.inl h)

theorem Quiet.running {busy : Prop} {x y : Proc} (h : Quiet busy x y) :
    y.state = .running ↔ x.state = .running := by
  cases h with
  | same h _ => rw [h]
  | wake h1 h2 _ => rw [h1, h2]; simp
  | freed h1 _ h2 _ => rw [h2]; simp [h1]

theorem Quiet.embryo {busy : Prop} {x y : Proc} (h : Quiet busy x y) (hb : busy)
    (hx : x.state = .embryo) : y.state = .embryo := by
  cases h with
  | same h _ => rw [h, hx]
  | wake h1 _ _ => rw [h1] at hx; cases hx
  | freed _ h _ _ => exact absurd hb h

theorem Quiet.used {busy : Prop} {x y : Proc} (h : Quiet busy x y)
    (hx : x.state = .unused ↔ x.kstack = none) : y.state = .unused ↔ y.kstack = none := by
  cases h with
  | same h1 h2 => rw [h1, h2, hx]
  | wake h1 h2 h3 =>
    rw [h1] at hx
    rw [h2, h3, ← hx]
    simp
  | freed _ _ h1 h2 => rw [h1, h2]; simp

/-- The kernel stacks that stay have what they had on them, except that the process `p`
on CPU `c`, if any, is now in the call `f`. -/
structure Framed (s s' : State n) : Prop where
  other : ∀ q k, (s.proc q).kstack = some k → (s.proc q).state ≠ .running → s'.frame k = s.frame k
  running : ∀ q k, (s.proc q).kstack = some k → (s.proc q).state = .running →
    (s'.frame k).call.creates = none ∨ (s'.frame k).call.creates = (s.frame k).call.creates

theorem Framed.of_eq (h : s'.frame = s.frame) : Framed s s' :=
  ⟨fun _ _ _ _ => by rw [h], fun _ _ _ _ => .inr (by rw [h])⟩

theorem Framed.of_current {f f' : Frame} (h : Sane s) (hcur : s.current c = some (p, f))
    (hs : s'.frame = Function.update s.frame (s.cpu c).stack f')
    (hf : f'.call.creates = none ∨ f'.call.creates = f.call.creates) : Framed s s' := by
  obtain ⟨hrun, hk, -⟩ := h.frame_current hcur
  obtain ⟨-, hfr⟩ := current_some hcur
  constructor
  · intro q k hq hst
    rw [hs, Function.update_of_ne]
    rintro rfl
    rw [h.stackInj q p _ hq hk] at hst
    exact hst hrun
  · intro q k hq _
    rw [hs, Function.update_apply]
    split
    · rename_i hkc; rw [hkc, hfr]; exact hf
    · exact .inr rfl

/-- A slot fills in what it filled in before, or nothing. -/
theorem Framed.creates {busy : Slot → Prop} (hf : Framed s s')
    (ht : ∀ q, Quiet (busy q) (s.proc q) (s'.proc q)) {np : Slot}
    (hp : (s'.frameOf p).call.creates = some np) : (s.frameOf p).call.creates = some np := by
  cases hk : (s'.proc p).kstack with
  | none => rw [frameOf_none hk] at hp; cases hp
  | some k =>
    have hk' := (ht p).kstack hk
    rw [frameOf_some hk] at hp
    rw [frameOf_some hk']
    by_cases hrun : (s.proc p).state = .running
    · rcases hf.running p k hk' hrun with h | h
      · rw [h] at hp; cases hp
      · rw [← h, hp]
    · rw [← hf.other p k hk' hrun, hp]

/-- **A step that moves no process on or off a CPU.** -/
theorem Sane.quiet (h : Sane s) (ht : ∀ q, Quiet (s.Creating q) (s.proc q) (s'.proc q))
    (hcpu : ∀ c, (s'.cpu c).proc = (s.cpu c).proc ∧ (s'.cpu c).stack = (s.cpu c).stack)
    (hnext : s'.nextStack = s.nextStack) (hf : Framed s s') : Sane s' := by
  have hcr : ∀ p np, (s'.frameOf p).call.creates = some np → (s.frameOf p).call.creates = some np :=
    fun p np => hf.creates ht
  constructor
  · intro c p hp
    rw [(hcpu c).1] at hp
    obtain ⟨hst, hk⟩ := h.onCpu c p hp
    refine ⟨(ht p).running.2 hst, ?_⟩
    rw [(hcpu c).2]
    cases ht p with
    | same _ hk' => rw [hk', hk]
    | wake _ _ hk' => rw [hk', hk]
    | freed hrun _ _ _ => exact absurd hst hrun
  · intro p hp
    obtain ⟨c, hc⟩ := h.cpuOf p ((ht p).running.1 hp)
    exact ⟨c, by rw [(hcpu c).1, hc]⟩
  · intro c c' p hp hp'
    rw [(hcpu c).1] at hp
    rw [(hcpu c').1] at hp'
    exact h.one c c' p hp hp'
  · exact fun p q k hp hq => h.stackInj p q k ((ht p).kstack hp) ((ht q).kstack hq)
  · exact fun p k hp => hnext ▸ h.stackLt p k ((ht p).kstack hp)
  · exact fun p => (ht p).used (h.used p)
  · intro p hp
    cases hk : (s'.proc p).kstack with
    | none => exact frameOf_none hk
    | some k =>
      have hk' := (ht p).kstack hk
      -- the slot was not running, so nobody wrote on its stack
      have hold : (s.proc p).state = .embryo ∨ (s.proc p).state = .zombie := by
        rcases (ht p).state with hst | hst | ⟨-, hst⟩ <;> rw [hst] at hp
        · exact hp
        · simp at hp
        · simp at hp
      have hrun : (s.proc p).state ≠ .running := by rcases hold with hst | hst <;> rw [hst] <;> simp
      rw [frameOf_some hk, hf.other p k hk' hrun, ← frameOf_some hk', h.idle p hold]
  · intro p np hp
    exact (ht np).embryo ⟨p, hcr p np hp⟩ (h.creating p np (hcr p np hp))
  · exact fun p q np hp hq => h.creator p q np (hcr p np hp) (hcr q np hq)

/-- **A process leaves its CPU.** -/
theorem Sane.leave (h : Sane s) (hp : (s.cpu c).proc = some p)
    (ht : ∀ q, q ≠ p → Quiet (s.Creating q) (s.proc q) (s'.proc q))
    (hst : (s'.proc p).state = .runnable ∨ (s'.proc p).state = .sleeping ∨ (s'.proc p).state = .zombie)
    (hk : (s'.proc p).kstack = (s.proc p).kstack) (hc : (s'.cpu c).proc = none)
    (hcpu : ∀ c', c' ≠ c → s'.cpu c' = s.cpu c') (hnext : s'.nextStack = s.nextStack)
    (hf : Framed s s') (hz : (s'.proc p).state = .zombie → s'.frame (s.cpu c).stack = .idle) : Sane s' := by
  obtain ⟨hrun, hkp⟩ := h.onCpu c p hp
  have hks : ∀ q k, (s'.proc q).kstack = some k → (s.proc q).kstack = some k := by
    intro q k hq
    by_cases hqp : q = p
    · subst hqp; rw [← hk, hq]
    · exact (ht q hqp).kstack hq
  have hcr : ∀ q np, (s'.frameOf q).call.creates = some np → (s.frameOf q).call.creates = some np := by
    intro q np hq
    cases hkq : (s'.proc q).kstack with
    | none => rw [frameOf_none hkq] at hq; cases hq
    | some k =>
      have hk' := hks q k hkq
      rw [frameOf_some hkq] at hq
      rw [frameOf_some hk']
      by_cases hr : (s.proc q).state = .running
      · rcases hf.running q k hk' hr with he | he
        · rw [he] at hq; cases hq
        · rw [← he, hq]
      · rw [← hf.other q k hk' hr, hq]
  have hne : ∀ c' q, (s'.cpu c').proc = some q → c' ≠ c ∧ q ≠ p ∧ (s.cpu c').proc = some q := by
    intro c' q hq
    have hc' : c' ≠ c := by rintro rfl; rw [hc] at hq; cases hq
    rw [hcpu c' hc'] at hq
    refine ⟨hc', ?_, hq⟩
    rintro rfl
    exact hc' (h.one c' c q hq hp)
  constructor
  · intro c' q hq
    obtain ⟨hc', hqp, hq'⟩ := hne c' q hq
    obtain ⟨hst', hk'⟩ := h.onCpu c' q hq'
    refine ⟨(ht q hqp).running.2 hst', ?_⟩
    rw [hcpu c' hc']
    cases ht q hqp with
    | same _ hk => rw [hk, hk']
    | wake _ _ hk => rw [hk, hk']
    | freed hr _ _ _ => exact absurd hst' hr
  · intro q hq
    have hqp : q ≠ p := by rintro rfl; rcases hst with e | e | e <;> rw [e] at hq <;> cases hq
    obtain ⟨c', hc'⟩ := h.cpuOf q ((ht q hqp).running.1 hq)
    have hne' : c' ≠ c := by rintro rfl; rw [hp] at hc'; exact hqp (Option.some.inj hc').symm
    exact ⟨c', by rw [hcpu c' hne', hc']⟩
  · intro c₁ c₂ q h1 h2
    exact h.one c₁ c₂ q (hne c₁ q h1).2.2 (hne c₂ q h2).2.2
  · exact fun a b k ha hb => h.stackInj a b k (hks a k ha) (hks b k hb)
  · exact fun a k ha => hnext ▸ h.stackLt a k (hks a k ha)
  · intro q
    by_cases hqp : q = p
    · subst hqp
      rw [hk, hkp]
      rcases hst with e | e | e <;> rw [e] <;> simp
    · exact (ht q hqp).used (h.used q)
  · intro q hq
    by_cases hqp : q = p
    · subst hqp
      rw [frameOf_some (hk.trans hkp)]
      rcases hst with e | e | e
      · rw [e] at hq; simp at hq
      · rw [e] at hq; simp at hq
      · exact hz e
    · cases hkq : (s'.proc q).kstack with
      | none => exact frameOf_none hkq
      | some k =>
        have hk' := hks q k hkq
        have hold : (s.proc q).state = .embryo ∨ (s.proc q).state = .zombie := by
          rcases (ht q hqp).state with e | e | ⟨-, e⟩ <;> rw [e] at hq
          · exact hq
          · simp at hq
          · simp at hq
        have hr : (s.proc q).state ≠ .running := by rcases hold with e | e <;> rw [e] <;> simp
        rw [frameOf_some hkq, hf.other q k hk' hr, ← frameOf_some hk', h.idle q hold]
  · intro q np hq
    have hold := h.creating q np (hcr q np hq)
    have hnp : np ≠ p := by rintro rfl; rw [hrun] at hold; cases hold
    exact (ht np hnp).embryo ⟨q, hcr q np hq⟩ hold
  · exact fun a b np ha hb => h.creator a b np (hcr a np ha) (hcr b np hb)

/-- **A process gets a CPU.** -/
theorem Sane.dispatch (h : Sane s) {k : Stack} {x : Cpu} (hc : (s.cpu c).proc = none)
    (hst : (s.proc p).state = .runnable) (hk : (s.proc p).kstack = some k)
    (hself : (s'.proc p).state = .running ∧ (s'.proc p).kstack = (s.proc p).kstack)
    (hne : ∀ q, q ≠ p → s'.proc q = s.proc q) (hx : x.proc = some p ∧ x.stack = k)
    (hcpu : s'.cpu = Function.update s.cpu c x) (hnext : s'.nextStack = s.nextStack)
    (hframe : s'.frame = s.frame) : Sane s' := by
  have hks : ∀ q, (s'.proc q).kstack = (s.proc q).kstack := by
    intro q
    by_cases hq : q = p
    · rw [hq, hself.2]
    · rw [hne q hq]
  have hfr : ∀ q, s'.frameOf q = s.frameOf q := by
    intro q; unfold State.frameOf; rw [hks q, hframe]
  have hcs : s'.cpu c = x := by rw [hcpu, Function.update_self]
  have hcn : ∀ c', c' ≠ c → s'.cpu c' = s.cpu c' := fun c' hc' => by
    rw [hcpu, Function.update_of_ne hc']
  have hoff : ∀ c', (s.cpu c').proc ≠ some p := by
    intro c' hp
    rw [(h.onCpu c' p hp).1] at hst
    cases hst
  constructor
  · intro c' q hq
    by_cases hc' : c' = c
    · subst hc'
      rw [hcs, hx.1] at hq
      cases hq
      rw [hself.2, hcs, hx.2]
      exact ⟨hself.1, hk⟩
    · rw [hcn c' hc'] at hq ⊢
      have hqp : q ≠ p := by rintro rfl; exact hoff c' hq
      rw [hne q hqp]
      exact h.onCpu c' q hq
  · intro q hq
    by_cases hqp : q = p
    · exact ⟨c, by rw [hcs, hx.1, hqp]⟩
    · rw [hne q hqp] at hq
      obtain ⟨c', hc'⟩ := h.cpuOf q hq
      have hne' : c' ≠ c := by rintro rfl; rw [hc] at hc'; cases hc'
      exact ⟨c', by rw [hcn c' hne', hc']⟩
  · intro c₁ c₂ q h1 h2
    by_cases e1 : c₁ = c <;> by_cases e2 : c₂ = c
    · rw [e1, e2]
    · rw [e1, hcs, hx.1] at h1
      cases h1
      rw [hcn c₂ e2] at h2
      exact absurd h2 (hoff c₂)
    · rw [e2, hcs, hx.1] at h2
      cases h2
      rw [hcn c₁ e1] at h1
      exact absurd h1 (hoff c₁)
    · rw [hcn c₁ e1] at h1
      rw [hcn c₂ e2] at h2
      exact h.one c₁ c₂ q h1 h2
  · intro a b k' ha hb
    rw [hks] at ha hb
    exact h.stackInj a b k' ha hb
  · intro a k' ha
    rw [hks] at ha
    rw [hnext]
    exact h.stackLt a k' ha
  · intro q
    by_cases hqp : q = p
    · rw [hqp, hself.1, hself.2, hk]; simp
    · rw [hne q hqp]; exact h.used q
  · intro q hq
    rw [hfr]
    by_cases hqp : q = p
    · rw [hqp, hself.1] at hq; simp at hq
    · rw [hne q hqp] at hq; exact h.idle q hq
  · intro q np hq
    rw [hfr] at hq
    have hold := h.creating q np hq
    have hnp : np ≠ p := by rintro rfl; rw [hst] at hold; cases hold
    rw [hne np hnp, hold]
  · intro a b np ha hb
    rw [hfr] at ha hb
    exact h.creator a b np ha hb

/-- **A process takes an `UNUSED` slot**, with a new kernel stack. -/
theorem Sane.spawn (h : Sane s) {np : Slot} {call : Call}
    (hcur : s.current c = some (p, .idle)) (hnp : (s.proc np).state = .unused)
    (hself : (s'.proc np).state = .embryo ∧ (s'.proc np).kstack = some s.nextStack)
    (hne : ∀ q, q ≠ np → s'.proc q = s.proc q) (hcpu : s'.cpu = s.cpu) (hnext : s'.nextStack = s.nextStack + 1)
    (hframe : s'.frame = Function.update (Function.update s.frame s.nextStack .idle) (s.cpu c).stack
      ⟨call, false⟩) (hcall : call.creates = some np) : Sane s' := by
  obtain ⟨hrun, hkp, -⟩ := h.frame_current hcur
  have hpn : p ≠ np := by rintro rfl; rw [hrun] at hnp; cases hnp
  have hfr := frameOf_spawn h hcur hnp hself.2 hne hframe
  have hfp : s'.frameOf p = ⟨call, false⟩ := by rw [hfr, if_pos rfl]
  have hfq : ∀ q, q ≠ p → s'.frameOf q = s.frameOf q := fun q hqp => by rw [hfr, if_neg hqp]
  have hfnp : s'.frameOf np = .idle := by rw [hfq np hpn.symm, frameOf_none ((h.used np).1 hnp)]
  -- who is creating a slot: `p` creates `np`, which nobody did before
  have hcr : ∀ q x, (s'.frameOf q).call.creates = some x → q = p ∧ x = np ∨
      q ≠ p ∧ x ≠ np ∧ (s.frameOf q).call.creates = some x := by
    intro q x hq
    by_cases hqp : q = p
    · rw [hqp, hfp, hcall] at hq
      exact .inl ⟨hqp, (Option.some.inj hq).symm⟩
    · rw [hfq q hqp] at hq
      refine .inr ⟨hqp, ?_, hq⟩
      rintro rfl
      rw [h.creating q x hq] at hnp
      cases hnp
  constructor
  · intro c' q hq
    rw [hcpu] at hq ⊢
    obtain ⟨hst, hk⟩ := h.onCpu c' q hq
    rw [hne q (by rintro rfl; rw [hst] at hnp; cases hnp)]
    exact ⟨hst, hk⟩
  · intro q hq
    by_cases hqn : q = np
    · rw [hqn, hself.1] at hq; cases hq
    · rw [hne q hqn] at hq
      rw [hcpu]
      exact h.cpuOf q hq
  · rw [hcpu]; exact h.one
  · intro a b k ha hb
    by_cases ea : a = np <;> by_cases eb : b = np
    · rw [ea, eb]
    · rw [ea, hself.2] at ha
      cases ha
      rw [hne b eb] at hb
      exact absurd (h.stackLt b _ hb) (lt_irrefl _)
    · rw [eb, hself.2] at hb
      cases hb
      rw [hne a ea] at ha
      exact absurd (h.stackLt a _ ha) (lt_irrefl _)
    · rw [hne a ea] at ha
      rw [hne b eb] at hb
      exact h.stackInj a b k ha hb
  · intro a k ha
    rw [hnext]
    by_cases ea : a = np
    · rw [ea, hself.2] at ha
      cases ha
      exact Nat.lt_succ_self _
    · rw [hne a ea] at ha
      exact (h.stackLt a k ha).trans (Nat.lt_succ_self _)
  · intro q
    by_cases hqn : q = np
    · rw [hqn, hself.1, hself.2]; simp
    · rw [hne q hqn]; exact h.used q
  · intro q hq
    by_cases hqn : q = np
    · rw [hqn, hfnp]
    · rw [hne q hqn] at hq
      have hqp : q ≠ p := by rintro rfl; rw [hrun] at hq; simp at hq
      rw [hfq q hqp]
      exact h.idle q hq
  · intro q x hq
    rcases hcr q x hq with ⟨-, rfl⟩ | ⟨-, hx, hq⟩
    · rw [hself.1]
    · rw [hne x hx]; exact h.creating q x hq
  · intro a b x ha hb
    rcases hcr a x ha with ⟨rfl, rfl⟩ | ⟨-, hx, ha⟩
    · rcases hcr b x hb with ⟨rfl, -⟩ | ⟨-, hx, -⟩
      · rfl
      · exact absurd rfl hx
    · rcases hcr b x hb with ⟨-, rfl⟩ | ⟨-, -, hb⟩
      · exact absurd rfl hx
      · exact h.creator a b x ha hb

/-- **A slot leaves creation**: it becomes `RUNNABLE`, or is given back. -/
theorem Sane.finish (h : Sane s) {np : Slot} {f : Frame}
    (hcur : s.current c = some (p, f)) (hcr : f.call.creates = some np)
    (hg : (s'.proc np).state = .runnable ∧ (s'.proc np).kstack = (s.proc np).kstack ∨
      (s'.proc np).state = .unused ∧ (s'.proc np).kstack = none)
    (hne : ∀ q, q ≠ np → s'.proc q = s.proc q) (hcpu : s'.cpu = s.cpu) (hnext : s'.nextStack = s.nextStack)
    (hframe : s'.frame = Function.update s.frame (s.cpu c).stack .idle) : Sane s' := by
  obtain ⟨hrun, hkp, hfp⟩ := h.frame_current hcur
  have hnp : (s.proc np).state = .embryo := h.creating p np (by rw [hfp, hcr])
  have hpn : p ≠ np := by rintro rfl; rw [hrun] at hnp; cases hnp
  have hks : ∀ q k, (s'.proc q).kstack = some k → (s.proc q).kstack = some k := by
    intro q k hq
    by_cases hqn : q = np
    · subst hqn
      rcases hg with ⟨-, e⟩ | ⟨-, e⟩ <;> rw [e] at hq
      · exact hq
      · cases hq
    · rwa [hne q hqn] at hq
  have hfr : ∀ q k, (s'.proc q).kstack = some k → q ≠ p → s'.frameOf q = s.frameOf q := by
    intro q k hq hqp
    have hk := hks q k hq
    rw [frameOf_some hq, frameOf_some hk, hframe, Function.update_of_ne]
    rintro rfl
    exact hqp (h.stackInj q p _ hk hkp)
  have hfp' : s'.frameOf p = .idle := by
    rw [frameOf_some (by rw [hne p hpn]; exact hkp), hframe, Function.update_self]
  -- nobody creates `np` any more
  have hcr' : ∀ q x, (s'.frameOf q).call.creates = some x →
      x ≠ np ∧ (s.frameOf q).call.creates = some x := by
    intro q x hq
    have hqp : q ≠ p := by rintro rfl; rw [hfp'] at hq; cases hq
    cases hk : (s'.proc q).kstack with
    | none => rw [frameOf_none hk] at hq; cases hq
    | some k =>
      rw [hfr q k hk hqp] at hq
      refine ⟨?_, hq⟩
      rintro rfl
      exact hqp (h.creator q p x hq (by rw [hfp, hcr]))
  constructor
  · intro c' q hq
    rw [hcpu] at hq ⊢
    obtain ⟨hst, hk⟩ := h.onCpu c' q hq
    rw [hne q (by rintro rfl; rw [hst] at hnp; cases hnp)]
    exact ⟨hst, hk⟩
  · intro q hq
    by_cases hqn : q = np
    · rw [hqn] at hq
      rcases hg with ⟨e, -⟩ | ⟨e, -⟩ <;> rw [e] at hq <;> cases hq
    · rw [hne q hqn] at hq
      rw [hcpu]
      exact h.cpuOf q hq
  · rw [hcpu]; exact h.one
  · exact fun a b k ha hb => h.stackInj a b k (hks a k ha) (hks b k hb)
  · exact fun a k ha => hnext ▸ h.stackLt a k (hks a k ha)
  · intro q
    by_cases hqn : q = np
    · subst hqn
      rcases hg with ⟨e1, e2⟩ | ⟨e1, e2⟩
      · have := h.used q
        rw [hnp] at this
        rw [e1, e2, ← this]
        simp
      · rw [e1, e2]; simp
    · rw [hne q hqn]; exact h.used q
  · intro q hq
    by_cases hqn : q = np
    · rw [hqn] at hq
      rcases hg with ⟨e, -⟩ | ⟨e, -⟩ <;> rw [e] at hq <;> simp at hq
    · cases hk : (s'.proc q).kstack with
      | none => exact frameOf_none hk
      | some k =>
        rw [hne q hqn] at hq
        have hqp : q ≠ p := by rintro rfl; rw [hrun] at hq; simp at hq
        rw [hfr q k hk hqp]
        exact h.idle q hq
  · intro q x hq
    obtain ⟨hx, hq⟩ := hcr' q x hq
    rw [hne x hx]
    exact h.creating q x hq
  · intro a b x ha hb
    exact h.creator a b x (hcr' a x ha).2 (hcr' b x hb).2

/-! ## The operations of the table -/

/-- A process that at most wakes up. -/
structure Woke (x y : Proc) : Prop where
  state : y.state = x.state ∨ x.state = .sleeping ∧ y.state = .runnable
  kstack : y.kstack = x.kstack
  pgdir : y.pgdir = x.pgdir
  pid : y.pid = x.pid
  isThread : y.isThread = x.isThread
  tid : y.tid = x.tid

theorem Woke.refl (x : Proc) : Woke x x := ⟨.inl rfl, rfl, rfl, rfl, rfl, rfl⟩

theorem Woke.trans {x y z : Proc} (h : Woke x y) (h' : Woke y z) : Woke x z where
  state := by
    rcases h.state with e | ⟨e, e'⟩ <;> rcases h'.state with g | ⟨g, g'⟩
    · exact .inl (g.trans e)
    · exact .inr ⟨e ▸ g, g'⟩
    · exact .inr ⟨e, g.trans e'⟩
    · rw [e'] at g; cases g
  kstack := h'.kstack.trans h.kstack
  pgdir := h'.pgdir.trans h.pgdir
  pid := h'.pid.trans h.pid
  isThread := h'.isThread.trans h.isThread
  tid := h'.tid.trans h.tid

theorem Woke.quiet {x y : Proc} (h : Woke x y) (busy : Prop) : Quiet busy x y := by
  rcases h.state with e | ⟨e, e'⟩
  · exact .same e h.kstack
  · exact .wake e e' h.kstack

theorem wakeup1_woke (t : Table) (chan : Option Chan) (q : Slot) : Woke (t q) (wakeup1 t chan q) := by
  unfold wakeup1
  split
  · rename_i h; exact ⟨.inr ⟨h.1, rfl⟩, rfl, rfl, rfl, rfl, rfl⟩
  · exact .refl _

theorem wakeup1_parent (t : Table) (chan : Option Chan) (q : Slot) : (wakeup1 t chan q).parent = (t q).parent := by
  unfold wakeup1
  split <;> rfl

theorem reparent_woke (t : Table) (p x q : Slot) : Woke (t q) (reparent p t x q) := by
  unfold reparent
  split
  · have h1 : Woke (t q) ((t.upd x fun y => { y with parent := some initproc }) q) := by
      rw [upd_apply]
      split
      · exact ⟨.inl rfl, rfl, rfl, rfl, rfl, rfl⟩
      · exact .refl _
    dsimp only
    split
    · exact h1.trans (wakeup1_woke _ _ q)
    · exact h1
  · exact .refl _

/-- `exit` wakes other processes, and leaves a zombie. -/
theorem exit_ok (h : exit t p = .ok t') : (∀ q, q ≠ p → Woke (t q) (t' q)) ∧
    ∃ x, Woke (t p) x ∧ t' p = { x with state := .zombie } := by
  unfold exit at h
  split at h
  · cases h
  · have hloop : ∀ (l : List Slot) (b : Table), (∀ q, Woke (t q) (b q)) →
        ∀ q, Woke (t q) ((l.foldl (reparent p) b) q) := by
      intro l
      induction l with
      | nil => exact fun _ hb => hb
      | cons x l ih => exact fun b hb => ih _ fun q => (hb q).trans (reparent_woke b p x q)
    have hall := hloop (List.finRange NPROC) _ fun q => wakeup1_woke t ((t p).parent.map .proc) q
    cases h
    refine ⟨fun q hq => ?_, _, hall p, upd_self ..⟩
    rw [upd_ne _ hq]
    exact hall q

theorem threadExit_ok {retval : BitVec 32} (h : threadExit t p retval = .ok t') :
    (∀ q, q ≠ p → Woke (t q) (t' q)) ∧
      ∃ x, Woke (t p) x ∧ t' p = { x with retval := retval, state := .zombie } := by
  unfold threadExit at h
  split at h
  · cases h
  · cases h
    refine ⟨fun q hq => ?_, _, wakeup1_woke t ((t p).parent.map .proc) p, upd_self ..⟩
    rw [upd_ne _ hq]
    exact wakeup1_woke _ _ q

/-- Nobody runs on the slot or fills it in. -/
def State.Still (s : State n) (q : Slot) : Prop := (s.proc q).state ≠ .running ∧ ¬ s.Creating q

instance (s : State n) (q : Slot) : Decidable (s.Still q) := by unfold State.Still; infer_instance

/-- `kill_thread` recovers a slot only when nobody runs on it or fills it in. -/
def Settled (s : State n) (e : Event n) : Prop := ∀ q, s.Recovers q e → s.Still q

instance (s : State n) (e : Event n) : Decidable (Settled s e) := by unfold Settled; infer_instance

theorem killed_quiet (hk : Killed s.proc t p) (hstill : ∀ q, s.proc.Victim p q → s.Still q) (q : Slot) :
    Quiet (s.Creating q) (s.proc q) (t q) := by
  by_cases hv : s.proc.Victim p q
  · obtain ⟨hrun, hcr⟩ := hstill q hv
    rw [hk.victim q hv]
    exact .freed hrun hcr rfl rfl
  · by_cases hq : q = p
    · subst hq
      obtain ⟨pr, kl, he⟩ := hk.self hv
      rw [he]
      exact .same rfl rfl
    · by_cases hm : s.proc.Marked p q
      · rw [hk.marked q hq hv hm]; exact .same rfl rfl
      · rw [hk.other q hq hv hm]; exact .refl _ _

/-- The process that `kill` found wakes up, or keeps its state. -/
theorem Proc.kill_state (x : Proc) : (x.state = .sleeping ∧ x.kill.state = .runnable) ∨
    x.kill.state = x.state := by
  unfold Proc.kill
  by_cases h : x.state = .sleeping
  · exact .inl ⟨h, if_pos h⟩
  · exact .inr (if_neg h)

theorem kill_quiet (hk : Killed s.proc t p) (hstill : ∀ q, s.proc.Victim p q → s.Still q) (q : Slot) :
    Quiet (s.Creating q) (s.proc q) ((t.upd p Proc.kill) q) := by
  have h := killed_quiet hk hstill q
  rw [upd_apply]
  split
  · cases h with
    | same h1 h2 =>
      rcases (t q).kill_state with ⟨e, e'⟩ | e
      · exact .wake (h1 ▸ e) e' h2
      · exact .same (e.trans h1) h2
    | wake h1 h2 h3 =>
      rcases (t q).kill_state with ⟨e, e'⟩ | e
      · exact .wake h1 e' h3
      · exact .wake h1 (e.trans h2) h3
    | freed h1 h2 h3 h4 =>
      rcases (t q).kill_state with ⟨e, e'⟩ | e
      · rw [h3] at e; cases e
      · exact .freed h1 h2 (e.trans h3) h4
  · exact h

/-! ## One step -/

theorem Frame.Waits.creates {f : Frame} (h : f.Waits) : f.call.creates = none := by
  rcases h with rfl | rfl | ⟨thread, rfl⟩ <;> rfl

theorem zombie_still (h : Sane s) {z : Slot} (hz : (s.proc z).state = .zombie) : s.Still z := by
  refine ⟨by rw [hz]; simp, ?_⟩
  rintro ⟨p, hp⟩
  rw [h.creating p z hp] at hz
  cases hz

/-- A field that the update does not change. -/
theorem upd_field {α : Type*} (g : Proc → α) (t : Table) (p q : Slot) (f : Proc → Proc)
    (h : g (f (t p)) = g (t p)) : g ((t.upd p f) q) = g (t q) := by
  rw [upd_apply]
  split
  · rename_i hq; rw [hq, h]
  · rfl

/-- `exit` gives its children to init. -/
theorem reparent_parents (hp : p ≠ initproc) (l : List Slot) : ∀ (t : Table) (q : Slot),
    ((l.foldl (reparent p) t) q).parent =
      if q ∈ l ∧ (t q).parent = some p then some initproc else (t q).parent := by
  -- one round
  have hround : ∀ (t : Table) (x q : Slot), (reparent p t x q).parent =
      if q = x ∧ (t q).parent = some p then some initproc else (t q).parent := by
    intro t x q
    unfold reparent
    by_cases hx : (t x).parent = some p
    · rw [if_pos hx]
      have hadopt : ((t.upd x fun y => { y with parent := some initproc }) q).parent =
          if q = x ∧ (t q).parent = some p then some initproc else (t q).parent := by
        rw [upd_apply]
        by_cases hq : q = x
        · rw [if_pos hq, if_pos ⟨hq, hq ▸ hx⟩]
        · rw [if_neg hq, if_neg fun h => hq h.1]
      split
      · rw [wakeup1_parent, hadopt]
      · exact hadopt
    · rw [if_neg hx, if_neg]
      rintro ⟨rfl, h⟩
      exact hx h
  induction l with
  | nil => intro t q; simp
  | cons x l ih =>
    intro t q
    rw [List.foldl_cons, ih, hround]
    by_cases hq : q = x ∧ (t q).parent = some p
    · have hne : some initproc ≠ some p := fun h => hp (Option.some.inj h).symm
      rw [if_pos hq, if_neg fun h => hne h.2, if_pos ⟨by rw [hq.1]; simp, hq.2⟩]
    · rw [if_neg hq]
      refine if_congr ?_ rfl rfl
      constructor
      · exact fun h => ⟨List.mem_cons_of_mem _ h.1, h.2⟩
      · rintro ⟨hmem, hpar⟩
        refine ⟨(List.mem_cons.1 hmem).resolve_left fun h => hq ⟨h, hpar⟩, hpar⟩

theorem exit_orphans (h : exit t p = .ok t') (q : Slot) :
    (t' q).parent = if (t q).parent = some p then some initproc else (t q).parent := by
  unfold exit at h
  split at h
  · cases h
  · rename_i hp
    have hall := reparent_parents hp (List.finRange NPROC) (wakeup1 t ((t p).parent.map .proc)) q
    rw [wakeup1_parent] at hall
    cases h
    refine (upd_field Proc.parent _ p q (fun x => { x with state := .zombie }) rfl).trans (hall.trans ?_)
    exact if_congr (by simp [List.mem_finRange]) rfl rfl

theorem threadExit_parent {v : BitVec 32} (h : threadExit t p v = .ok t') (q : Slot) :
    (t' q).parent = (t q).parent := by
  unfold threadExit at h
  split at h
  · cases h
  · cases h
    exact (upd_field Proc.parent _ p q (fun x => { x with retval := v, state := .zombie }) rfl).trans
      (wakeup1_parent _ _ q)

/-- A slot some of whose other fields change. -/
theorem quiet_of_ne (hne : ∀ q, q ≠ p → t' q = t q) (hst : (t' p).state = (t p).state)
    (hk : (t' p).kstack = (t p).kstack) (busy : Prop) (q : Slot) : Quiet busy (t q) (t' q) := by
  by_cases hq : q = p
  · subst hq; exact .same hst hk
  · rw [hne q hq]; exact .refl _ _

theorem share_quiet (t : Table) (m thrd : Slot) (sz : BitVec 32) (q : Slot) (busy : Prop) :
    Quiet busy (t q) ((t.resize m sz).share m thrd sz q) :=
  .same ((upd_field Proc.state _ _ q _ (by rfl)).trans (upd_field Proc.state _ _ q _ (by rfl)))
    ((upd_field Proc.kstack _ _ q _ (by rfl)).trans (upd_field Proc.kstack _ _ q _ (by rfl)))

theorem adopt_quiet (t : Table) (m thrd : Slot) (sz : BitVec 32) (tid : ℕ) (q : Slot) (busy : Prop) :
    Quiet busy (t q) (((t.resize m sz).share m thrd sz).adopt m thrd tid q) := by
  cases share_quiet t m thrd sz q busy with
  | same hst hk =>
    exact .same ((upd_field Proc.state _ _ q _ (by rfl)).trans hst)
      ((upd_field Proc.kstack _ _ q _ (by rfl)).trans hk)
  | wake hx hy hk =>
    exact .wake hx ((upd_field Proc.state _ _ q _ (by rfl)).trans hy)
      ((upd_field Proc.kstack _ _ q _ (by rfl)).trans hk)
  | freed h1 h2 hy hk =>
    exact .freed h1 h2 ((upd_field Proc.state _ _ q _ (by rfl)).trans hy)
      ((upd_field Proc.kstack _ _ q _ (by rfl)).trans hk)

/-- `switchuvm` moves no process. -/
theorem rearm_proc (cpu : Fin n → Cpu) (c c' : Fin n) (esp0 : Option Stack) (cr3 : Option Dir) :
    (Function.update cpu c { cpu c with esp0 := esp0, cr3 := cr3 } c').proc = (cpu c').proc ∧
      (Function.update cpu c { cpu c with esp0 := esp0, cr3 := cr3 } c').stack = (cpu c').stack := by
  rw [Function.update_apply]
  split
  · rename_i hc; rw [hc]; exact ⟨rfl, rfl⟩
  · exact ⟨rfl, rfl⟩

/-- A slot that nobody runs or fills in is freed. -/
theorem quiet_free {z : Slot} (h : s.Still z) (hne : ∀ q, q ≠ z → t q = s.proc q)
    (hst : (t z).state = .unused) (hk : (t z).kstack = none) (q : Slot) :
    Quiet (s.Creating q) (s.proc q) (t q) := by
  by_cases hq : q = z
  · subst hq; exact .freed h.1 h.2 hst hk
  · rw [hne q hq]; exact .refl _ _

/-- The process of a CPU stops, and the others at most wake up. -/
theorem Sane.stop (h : Sane s) {f : Frame} (hcur : s.current c = some (p, f))
    (ht : ∀ q, q ≠ p → Woke (s.proc q) (t q)) (hk : (t p).kstack = (s.proc p).kstack)
    (hst : (t p).state = .runnable ∨ (t p).state = .sleeping ∨ (t p).state = .zombie ∧ f = .idle) :
    Sane ({ s with proc := t }.leave c) := by
  obtain ⟨hp, hf⟩ := current_some hcur
  refine h.leave hp (fun q hq => (ht q hq).quiet _) ?_ hk ?_ (fun c' hc' => ?_) rfl (.of_eq rfl) ?_
  · rcases hst with e | e | ⟨e, -⟩
    · exact .inl e
    · exact .inr (.inl e)
    · exact .inr (.inr e)
  · show (Function.update s.cpu c _ c).proc = none
    rw [Function.update_self]
  · exact Function.update_of_ne hc' _ _
  · intro hz
    rcases hst with e | e | ⟨-, rfl⟩
    · exact absurd (hz.symm.trans e) (by simp)
    · exact absurd (hz.symm.trans e) (by simp)
    · exact hf

theorem Woke.of_eq {x y : Proc} (h : y = x) : Woke x y := h ▸ .refl x

/-- **Every settled step.** -/
theorem sane_step (h : Sane s) {e : Event n} (hG : Settled s e) (hs : step s e = some (.ok s')) :
    Sane s' := by
  have hcpu : ∀ c, (s.cpu c).proc = (s.cpu c).proc ∧ (s.cpu c).stack = (s.cpu c).stack :=
    fun _ => ⟨rfl, rfl⟩
  have hcur : ∀ {c p}, (s.cpu c).proc = some p → s.current c = some (p, s.frame (s.cpu c).stack) :=
    fun hp => by rw [State.current, hp, Option.map_some]
  cases step_effect hs with
  | stay => exact h
  | dispatch c p k d hidle hst hk hd =>
    exact h.dispatch hidle hst hk (by simp) (fun q hq => by simp [hq]) ⟨rfl, rfl⟩ rfl rfl rfl
  | yield c p hp =>
    exact h.stop (hcur hp) (fun q hq => .of_eq (by simp [hq])) (by rw [upd_self]) (.inl (by rw [upd_self]))
  | sleep c p chan hp =>
    exact h.stop (hcur hp) (fun q hq => .of_eq (by simp [hq])) (by rw [upd_self]) (.inr (.inl (by rw [upd_self])))
  | wakeup chan =>
    exact h.quiet (fun q => (wakeup1_woke _ _ q).quiet _) hcpu rfl (.of_eq rfl)
  | exit c p t hcur ht =>
    obtain ⟨hother, x, hx, hz⟩ := exit_ok ht
    refine h.stop hcur hother ?_ (.inr (.inr ⟨by rw [hz], rfl⟩))
    rw [hz]; exact hx.kstack
  | threadExit c p retval t hcur ht =>
    obtain ⟨hother, x, hx, hz⟩ := threadExit_ok ht
    refine h.stop hcur hother ?_ (.inr (.inr ⟨by rw [hz], rfl⟩))
    rw [hz]; exact hx.kstack
  | reap c p z f d hcur hf hz hk hd =>
    exact h.quiet (quiet_free (zombie_still h (findZombie_some hz).2)
      (fun q hq => by simp [hq]) (by simp [Proc.reaped]) (by simp [Proc.reaped])) hcpu rfl
      (.of_current h hcur rfl (.inl rfl))
  | join c p z f thread hcur hf hz hpar hk =>
    exact h.quiet (quiet_free (zombie_still h (findJoin_some hz hpar).2)
      (fun q hq => by simp [hq]) (by simp [Proc.recovered]) (by simp [Proc.recovered])) hcpu rfl
      (.of_current h hcur rfl (.inl rfl))
  | waited e c p f he hcur hf =>
    exact h.quiet (fun _ => .refl _ _) hcpu rfl (.of_current h hcur rfl (.inl rfl))
  | block e c p f call he hcur hf hcall =>
    -- first the new call, then the sleep
    have h1 : Sane (s.setFrame c ⟨call, false⟩) :=
      h.quiet (fun _ => .refl _ _) hcpu rfl (.of_current h hcur rfl (.inl hcall.creates))
    have hcur' : (s.setFrame c ⟨call, false⟩).current c = some (p, ⟨call, false⟩) := by
      obtain ⟨hp, -⟩ := current_some hcur
      rw [State.current, setFrame_cpu, hp, setFrame_frame, if_pos rfl]
      rfl
    exact h1.stop hcur' (fun q hq => .of_eq (by simp [hq])) (by simp) (.inr (.inl (by simp)))
  | kill c p p₀ pid t hcur hfind ht =>
    exact h.quiet (kill_quiet (killThread_killed ht) fun q hq => hG q ⟨p₀, hfind, hq⟩) hcpu rfl (.of_eq rfl)
  | fork c p np hcur hnp =>
    exact h.spawn hcur (findUnused_some hnp) (by simp [Proc.embryo]) (fun q hq => by simp [hq]) rfl rfl rfl rfl
  | forkFail c np hnp =>
    have hk := (h.used np).1 (findUnused_some hnp)
    exact h.quiet (fun q => quiet_of_ne (p := np) (fun q hq => by simp [hq]) (by simp) (by simp [hk]) _ q) hcpu rfl (.of_eq rfl)
  | forkCopy c p np hcur =>
    exact h.quiet (fun q => quiet_of_ne (p := np) (fun q hq => by simp [hq]) (by simp) (by simp) _ q) hcpu rfl
      (.of_current h hcur rfl (.inr rfl))
  | forkCopyFail c p np hcur =>
    exact h.finish hcur rfl (.inr (by simp)) (fun q hq => by simp [hq]) rfl rfl rfl
  | forkReady c p np hcur => exact h.finish hcur rfl (.inl (by simp)) (fun q hq => by simp [hq]) rfl rfl rfl
  | threadCreate c p thrd hcur hthrd =>
    exact h.spawn hcur (findUnused_some hthrd) (by simp [Proc.embryo]) (fun q hq => by simp [hq]) rfl rfl rfl rfl
  | threadCreateFail c p thrd hcur hthrd =>
    have hk := (h.used thrd).1 (findUnused_some hthrd)
    exact h.quiet (fun q => quiet_of_ne (p := thrd) (fun q hq => by simp [hq]) (by simp) (by simp [hk]) _ q) hcpu rfl (.of_eq rfl)
  | threadMapFail c p m thrd sz t pages copied hcur hm ht =>
    refine h.quiet (fun q => ?_) hcpu rfl (.of_current h hcur rfl (.inl rfl))
    rcases ht with rfl | rfl
    · exact .same (upd_field Proc.state _ _ q _ (by rfl)) (upd_field Proc.kstack _ _ q _ (by rfl))
    · exact share_quiet _ m thrd sz q _
  | threadMap c p m thrd sz pages copied hcur hm =>
    refine h.quiet (fun q => ?_) hcpu rfl (.of_current h hcur rfl (.inr rfl))
    exact adopt_quiet _ m thrd sz s.nexttid q _
  | threadReady c p thrd hcur => exact h.finish hcur rfl (.inl (by simp)) (fun q hq => by simp [hq]) rfl rfl rfl
  | execBegin c p two hcur =>
    exact h.quiet (fun _ => .refl _ _) hcpu rfl (.of_current h hcur rfl (.inl rfl))
  | execSetup c p two call hcur hcall =>
    exact h.quiet (fun _ => .refl _ _) hcpu rfl (.of_current h hcur rfl (.inl (newDir_creates hcall)))
  | killTest c p d w call hcur hspare hcall =>
    exact h.quiet (fun _ => .refl _ _) hcpu rfl (.of_current h hcur rfl (.inl (newDir_creates hcall)))
  | killRecover c p z d w call hcur hz hk hcall =>
    exact h.quiet (quiet_free (hG z hz) (fun q hq => by simp [hq]) (by simp [Proc.recovered])
      (by simp [Proc.recovered])) hcpu rfl (.of_current h hcur rfl (.inl (newDir_creates hcall)))
  | killMark c p m d hcur hm =>
    exact h.quiet (fun q => quiet_of_ne (p := m) (fun q hq => by simp [hq]) (by simp) (by simp) _ q) hcpu rfl
      (.of_current h hcur rfl (.inl rfl))
  | killHeir c p m d hcur hm =>
    exact h.quiet (fun q => quiet_of_ne (p := p) (fun q hq => by simp [hq]) (by simp) (by simp) _ q) hcpu rfl
      (.of_current h hcur rfl (.inl rfl))
  | execLoaded c p two d hcur =>
    exact h.quiet (fun _ => .refl _ _) hcpu rfl (.of_current h hcur rfl (.inl rfl))
  | execCommit c p two d old k sz hcur hk hold =>
    refine h.quiet (fun q => quiet_of_ne (p := p) (fun q hq => by simp [hq]) (by simp) (by simp) _ q) (fun c' => ?_) rfl
      (.of_current h hcur rfl (.inl rfl))
    exact rearm_proc s.cpu c c' (some k) (some d)
  | execBad c p two pgdir inOp hcur =>
    exact h.quiet (fun _ => .refl _ _) hcpu rfl (.of_current h hcur rfl (.inl rfl))
  | beginOp c p hcur =>
    exact h.quiet (fun _ => .refl _ _) hcpu rfl (.of_current h hcur rfl (.inl rfl))
  | endOp c p hcur =>
    exact h.quiet (fun _ => .refl _ _) hcpu rfl (.of_current h hcur rfl (.inl rfl))
  | growFail c k ok => exact h.quiet (fun _ => .refl _ _) hcpu rfl (.of_eq rfl)
  | growproc c p m k ok sz d hcur =>
    exact h.quiet (fun _ => .refl _ _) hcpu rfl (.of_current h hcur rfl (.inl rfl))
  | growStore c p m sz stack d hcur hk hd =>
    refine h.quiet (fun q => quiet_of_ne (p := m) (fun q hq => by simp [Table.resize, hq])
      (by simp [Table.resize]) (by simp [Table.resize]) _ q) (fun c' => ?_) rfl (.of_current h hcur rfl (.inl rfl))
    exact rearm_proc s.cpu c c' (some stack) (some d)
  | setmemorylimit c p q pid limit hcur =>
    exact h.quiet (fun _ => .refl _ _) hcpu rfl (.of_current h hcur rfl (.inl rfl))
  | limitStore c p q limit hcur =>
    exact h.quiet (fun x => quiet_of_ne (p := q) (fun x hx => by simp [hx]) (by simp) (by simp) _ x) hcpu rfl
      (.of_current h hcur rfl (.inl rfl))

theorem boot_sane : Sane (boot n) := by
  have hproc : ∀ p, (boot n).proc p = if p = initproc then { Proc.zero with
      state := .runnable, pid := 1, kstack := some 0, pgdir := some 0, sz := PGSIZE } else Proc.zero :=
    fun _ => rfl
  have hframe : ∀ p, (boot n).frameOf p = .idle := by
    intro p; unfold State.frameOf; split <;> rfl
  constructor
  · intro c p h; cases h
  · intro p h
    rw [hproc] at h
    split at h <;> cases h
  · intro c c' p h; cases h
  · intro p q k hp hq
    rw [hproc] at hp hq
    split at hp
    · split at hq
      · rename_i h1 h2; rw [h1, h2]
      · cases hq
    · cases hp
  · intro p k hp
    rw [hproc] at hp
    split at hp
    · cases hp; exact Nat.zero_lt_one
    · cases hp
  · intro p
    rw [hproc]
    split <;> simp [Proc.zero]
  · exact fun p _ => hframe p
  · intro p np h; rw [hframe] at h; cases h
  · intro p q np h; rw [hframe] at h; cases h

end Xv6.Lwp
