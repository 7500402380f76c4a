import Xv6.Mlfq.Invariant
import Xv6.Mlfq.Unlock

/-!
# What user code can panic

On one CPU, `del` panics when it is called on an empty queue, and `setPriority` on a priority out of range.

* `WellQueued`: the queues are well formed, and the loop over L2 stands at a process of L2.
* `wellQueued_fault`: a tame event faults at the most because `init` exits or a pointer is null.
* **`no_queue_panic`**: a run of tame events does not reach either panic.
* `wrong_queue_panics`, `setPriority_panics`: runs that reach them.
-/

namespace Xv6.Mlfq

variable {n : ℕ} {s s' : State 1} {k k' : Kernel} {ls : Lv → List Slot} {que : Lv} {p : Slot} {chan : Option Chan}
  {f : Fault}

/-! ## What does not fail on well formed queues -/

/-- A loop whose rounds do not fail does not fail. -/
theorem foldlM_total {φ α β : Type} {f : β → α → Except φ β} {P : β → Prop} {l : List α} :
    ∀ {b : β}, (∀ b a, a ∈ l → P b → ∃ b', f b a = .ok b' ∧ P b') → P b → ∃ b', l.foldlM f b = .ok b' ∧ P b' := by
  induction l with
  | nil =>
    intro b _ hb
    exact ⟨b, rfl, hb⟩
  | cons a l ih =>
    intro b hf hb
    obtain ⟨b₁, h1, hb₁⟩ := hf b a List.mem_cons_self hb
    obtain ⟨b₂, h2, hb₂⟩ := ih (fun b x hx => hf b x (List.mem_cons_of_mem a hx)) hb₁
    refine ⟨b₂, ?_, hb₂⟩
    rw [List.foldlM_cons, h1]
    exact h2

theorem wakeup1_total (h : Links k ls) (hcalm : CalmOn k ls chan) : ∃ k', wakeup1 k chan = .ok k' := by
  obtain ⟨k', hk', -⟩ := wakeLoop_effect (List.finRange NPROC) k ls h (List.nodup_finRange NPROC) fun x hx => by
    obtain ⟨-, hs, hc⟩ := mem_sleepers.1 hx
    exact hcalm x hs hc
  exact ⟨k', hk'⟩

theorem demote_total {down : Lv} (h : Links k ls) (hp : p ∈ ls que) : ∃ k', demote k que down p = .ok k' := by
  have h₁ : Links (k.upd p fun x => { x with lt := x.lt + 1 }) ls := h.congr (upd_next fun _ => rfl) rfl
  unfold demote
  dsimp only
  split
  · obtain ⟨k₁, hdel⟩ := del_total h₁ hp
    have h₂ : Links (k₁.upd p fun x => { x with lt := 0 }) _ :=
      (del_links h₁ hp hdel).congr (upd_next fun _ => rfl) rfl
    obtain ⟨k₂, hpush⟩ := push_total h₂ down p
    rw [hdel]
    show ∃ k', (do
      let k ← push (k₁.upd p fun x => { x with lt := 0 }) down p
      .ok (k.upd p fun x => { x with ql := x.ql + 1 })) = .ok k'
    rw [hpush]
    exact ⟨_, rfl⟩
  · exact ⟨_, rfl⟩

theorem releaseLock_total (h : Links k ls) (hr : k.Releasable p) :
    ∃ k', releaseLock (k.upd p fun x => { x with lt := x.lt + 1 }) p = .ok k' := by
  have h₁ : Links (k.upd p fun x => { x with lt := x.lt + 1 }) ls := h.congr (upd_next fun _ => rfl) rfl
  obtain ⟨hfree, -, hrear⟩ := hr
  have hfits : Fits (k.upd p fun x => { x with lt := x.lt + 1 }) ls p := by
    refine .inl ⟨hfree.free h, fun hnil => hrear ?_⟩
    rw [(h.queue .zero).count, hnil]
    rfl
  obtain ⟨k', hk, -⟩ := released_of_fits h₁ hfits
  exact ⟨k', hk⟩

theorem exit_total (h : Queues k ls) (hcalm : k.CalmExit p) (hinit : k.initproc ≠ some p) :
    ∃ k', exit k p = .ok k' := by
  obtain ⟨k₁, h1⟩ := wakeup1_total h.toLinks (hcalm.1.calmOn h.toLinks)
  have hw := wakeup1_woke h1
  have hchild : (∃ z, (k.proc z).parent = some p ∧ (k.proc z).state = .zombie) → CalmOn k ls (k.initproc.map .proc) :=
    fun hz => (hcalm.2 hz).calmOn h.toLinks
  have h₁ : Reparented p k k₁ ls :=
    ⟨wakeup1_queues h (hcalm.1.calmOn h.toLinks) h1, hw.initproc, fun x hx => ⟨hw.sleeping hx, hw.chan x⟩,
      fun x hx => (hw.state_iff (by simp) (by simp)).1 hx, fun x hx => by rw [← hw.parent]; exact hx⟩
  -- one child
  have hround : ∀ b q, Reparented p k b ls → ∃ b', reparent p b q = .ok b' ∧ Reparented p k b' ls := by
    intro b q hb
    have htotal : ∃ b', reparent p b q = .ok b' := by
      unfold reparent
      split
      · rename_i hp
        dsimp only
        split
        · rename_i hz
          obtain ⟨ls', hq, -, h2, -⟩ := hb.queues
          have hq' : Queues (b.upd q fun x => { x with parent := b.initproc }) ls' := hq.upd (fun _ => rfl) fun _ => rfl
          have hz' : (b.proc q).state = .zombie := by
            rw [upd_proc_self] at hz
            exact hz
          have hc := hchild ⟨q, hb.parent q hp, hb.zombie q hz'⟩
          refine wakeup1_total hq'.toLinks fun x hs hch => ?_
          have hx : ((b.upd q fun x => { x with parent := b.initproc }).proc x).state = (b.proc x).state ∧
              ((b.upd q fun x => { x with parent := b.initproc }).proc x).chan = (b.proc x).chan := by
            rw [upd_proc]
            split
            · exact ⟨rfl, rfl⟩
            · exact ⟨rfl, rfl⟩
          rw [hx.1] at hs
          rw [hx.2] at hch
          obtain ⟨hs', hc'⟩ := hb.sleeping x hs
          rw [h2]
          refine hc x hs' ?_
          rw [← hc', hch]
          exact congrArg _ hb.initproc
        · exact ⟨_, rfl⟩
      · exact ⟨_, rfl⟩
    obtain ⟨b', hb'⟩ := htotal
    exact ⟨b', hb', reparent_step hinit hchild hb hb'⟩
  obtain ⟨k₂, h2, -⟩ := foldlM_total (l := List.finRange NPROC) (fun b q _ hb => hround b q hb) h₁
  refine ⟨k₂.upd p fun x => { x with state := .zombie }, ?_⟩
  unfold exit
  rw [if_neg hinit, h1]
  show (do
    let k ← (List.finRange NPROC).foldlM (reparent p) k₁
    .ok (k.upd p fun x => { x with state := .zombie })) = _
  rw [h2]
  rfl

theorem forkReady_total {curproc : Slot} (h : Links k ls) (hp : ∀ q, p ∉ ls q) :
    ∃ k', forkReady k curproc p = .ok k' :=
  pushLzero_total (h.congr (upd_next fun _ => rfl) rfl : Links (k.upd p fun x =>
    { x with parent := some curproc, state := .runnable }) ls) hp

/-! ## The invariant -/

/-- The loop of `scheduler` over L2 stands at a process of L2. -/
def Walking (s : State 1) : Prop := ∀ min p, s.pc 0 = .l2 min (some p) → s.kernel.On .two p

/-- The queues are well formed, and the loop over L2 is on them. -/
def WellQueued (s : State 1) : Prop := Sound s ∧ Walking s

theorem Walking.of_pc (h : ∀ min p, s.pc 0 ≠ .l2 min (some p)) : Walking s :=
  fun min p hpc => absurd hpc (h min p)

/-- **One step of `scheduler`** keeps the place in L2. -/
theorem sched_walking (h : Sound s) (hw : Walking s) (hs : SchedStep s 0 s') : Walking s' := by
  obtain ⟨ls, hq, -⟩ := h
  have hlinks := hq.toLinks
  cases hs with
  | acquire pc _ _ _ hstart =>
    intro min p hpc
    rw [goto_pc] at hpc
    exact absurd hpc (hstart min (some p))
  | go pc _ _ _ hwalk =>
    intro min p hpc
    rw [goto_pc] at hpc
    rcases hwalk min p hpc with hfront | ⟨m, q, hq', hnext⟩
    · refine ⟨0, ?_⟩
      exact hfront
    · have hmem := hlinks.on_iff.1 (hw m q hq')
      obtain ⟨hp, -⟩ := (hlinks.queue .two).chain.next_mem hmem hnext
      exact hlinks.on_iff.2 hp
  | dropL2 min p k' hpc _ hdel =>
    intro m q hpc'
    rw [goto_pc, Pc.l2.injEq] at hpc'
    have hp := hlinks.on_iff.1 (hw min p hpc)
    have hnext : k'.next p = some q := hpc'.2
    rw [del_next_self hlinks hdel] at hnext
    obtain ⟨hq', hne⟩ := (hlinks.queue .two).chain.next_mem hp hnext
    have hlinks' := del_links hlinks hp hdel
    show k'.On .two q
    refine hlinks'.on_iff.2 ?_
    rw [Function.update_self]
    exact (List.mem_erase_of_ne hne).2 hq'
  | forget q _ _ => exact .of_pc (by simp [goto_pc])
  | lock q _ _ _ => exact .of_pc fun m x => by rcases dispatch_pc s q .lock with hd | hd <;> simp [hd]
  | drop que p k' _ _ _ => exact .of_pc (by simp [goto_pc])
  | slice que k p _ _ _ _ => exact .of_pc fun m x => by rcases dispatch_pc s p k with hd | hd <;> simp [hd]
  | sliceL2 min p _ _ => exact .of_pc fun m x => by rcases dispatch_pc s p .l2 with hd | hd <;> simp [hd]
  | boost k' _ _ => exact .of_pc (by simp [goto_pc])
  | release p k' _ _ _ => exact .of_pc (by simp [goto_pc])
  | again p _ => exact .of_pc (by simp [goto_pc])
  | demote que down k p k' _ _ _ _ => exact .of_pc (by simp [goto_pc])
  | promote p _ => exact .of_pc (by simp [goto_pc])

theorem Walking.mild (h : Walking s) (hm : Mild s.kernel s'.kernel) (hpc : s'.pc = s.pc) : Walking s' := by
  intro min p hp
  rw [hpc] at hp
  have hon := h min p hp
  unfold Kernel.On at hon ⊢
  rw [hm.next, hm.queue]
  exact hon

/-- While the loop over L2 holds the lock, nothing else goes on. -/
theorem Free.walking (hfree : s.Free) (hpc : s'.pc = s.pc) : Walking s' := by
  refine .of_pc fun min p hp => ?_
  rw [hpc] at hp
  have hholds := hfree 0
  rw [hp] at hholds
  cases hholds

theorem run_walking {x : Kont} (hrun : s.pc 0 = .run p x) (hpc : s'.pc = s.pc) : Walking s' := by
  refine .of_pc fun min q hq => ?_
  rw [hpc, hrun] at hq
  cases hq

theorem step_walking (h : Sound s) (hw : Walking s) {e : Event 1} (hs : step s e = some (.ok s')) : Walking s' := by
  cases e with
  | sched c =>
    obtain rfl : c = 0 := Subsingleton.elim _ _
    exact sched_walking h hw (sched_cases hs)
  | tick =>
    rw [step_tick hs]
    exact hw.mild (.of_proc rfl rfl rfl) rfl
  | wakeup chan =>
    obtain ⟨hfree, k', -, rfl⟩ := step_wakeup hs
    exact Free.walking hfree rfl
  | yield c =>
    obtain rfl : c = 0 := Subsingleton.elim _ _
    obtain ⟨p, k, -, -, rfl⟩ := step_yield hs
    exact .of_pc (by simp [goto_pc])
  | sleep c chan =>
    obtain rfl : c = 0 := Subsingleton.elim _ _
    obtain ⟨p, k, -, -, -, rfl⟩ := step_sleep hs
    exact .of_pc (by simp [goto_pc])
  | exit c =>
    obtain rfl : c = 0 := Subsingleton.elim _ _
    obtain ⟨p, k, k', -, -, -, -, rfl⟩ := step_exit hs
    exact .of_pc (by simp [goto_pc])
  | wait c =>
    obtain rfl : c = 0 := Subsingleton.elim _ _
    obtain ⟨p, k, -, rfl⟩ := step_wait hs
    refine .of_pc fun min q => ?_
    unfold State.waitPass
    split
    · simp [goto_pc]
    · split
      · simp [goto_pc]
      · simp [goto_pc]
  | kill c pid =>
    rw [step_kill hs]
    exact hw.mild (kill_mild _ _) rfl
  | setPriority c pid pr =>
    obtain ⟨k', hk, rfl⟩ := step_setPriority hs
    exact hw.mild (setPriority_mild hk) rfl
  | fork c =>
    obtain rfl : c = 0 := Subsingleton.elim _ _
    obtain ⟨p, k, hpc, -, rfl | ⟨np, k', -, -, rfl⟩⟩ := step_fork hs
    · exact hw
    · exact run_walking hpc rfl
  | forkFail c =>
    obtain rfl : c = 0 := Subsingleton.elim _ _
    obtain ⟨p, k, np, hpc, -, rfl⟩ := step_forkFail hs
    exact run_walking hpc rfl
  | schedulerLock c ok =>
    obtain ⟨p, k, x, -, -, -, rfl⟩ := step_schedulerLock hs
    exact hw.mild (.of_proc rfl rfl rfl) rfl
  | schedulerUnlock c ok =>
    obtain ⟨p, k, x, -, -, -, rfl⟩ := step_schedulerUnlock hs
    exact hw.mild (.of_proc rfl rfl rfl) rfl
  | cont c =>
    obtain rfl : c = 0 := Subsingleton.elim _ _
    obtain ⟨p, k, k', x, hpc, -, rfl, -⟩ := step_cont hs
    exact run_walking hpc rfl

/-- **Every tame event keeps the order.** -/
theorem wellQueued_step (h : WellQueued s) {e : Event 1} (hG : Tame s e) (hs : step s e = some (.ok s')) :
    WellQueued s' :=
  ⟨sound_step h.1 hG hs, step_walking h.1 h.2 hs⟩

/-! ## Faults -/

theorem after_error {c : Fin n} {s : State n} {r : Except Fault Kernel} {pc : Pc}
    (h : s.after c r pc = some (.error f)) : r = .error f := by
  unfold State.after at h
  cases r with
  | error e =>
    cases h
    rfl
  | ok k => cases h

theorem within_error {s : State n} {r : Except Fault Kernel} (h : s.within r = some (.error f)) : r = .error f := by
  unfold State.within at h
  cases r with
  | error e =>
    cases h
    rfl
  | ok k => cases h

/-- What succeeds does not fault. -/
theorem not_error {r : Except Fault Kernel} (h : ∃ k', r = .ok k') : r ≠ .error f := by
  obtain ⟨k', rfl⟩ := h
  rintro ⟨⟩

theorem front_fault {x : Kont} (h : Links s.kernel ls) (hs : s.front 0 que x = some (.error f)) : f = .nullDeref := by
  unfold State.front at hs
  split at hs
  · cases hs
    rfl
  · rename_i p hfront
    split at hs
    · have hp : p ∈ ls que := by
        have hhead := (h.queue que).chain.head
        rw [hfront] at hhead
        exact List.mem_of_mem_head? hhead.symm
      exact absurd (after_error hs) (not_error (del_total h hp))
    · split at hs
      · cases hs
      · cases hs

/-- **`scheduler`** faults at the most on a null pointer. -/
theorem sched_fault (h : WellQueued s) (hG : s.kernel.TameSched (s.pc 0)) (hs : s.sched 0 = some (.error f)) :
    f = .nullDeref := by
  obtain ⟨⟨ls, hq, hslice⟩, hw⟩ := h
  have hlinks := hq.toLinks
  unfold State.sched at hs
  split at hs
  · split at hs
    · split at hs
      · split at hs
        · cases hs
          rfl
        · cases hs
      · cases hs
    · cases hs
  · split at hs
    · split at hs
      · cases after_error hs
      · cases hs
    · cases hs
  · split at hs
    · exact front_fault hlinks hs
    · split at hs
      · exact front_fault hlinks hs
      · split at hs
        · cases hs
        · cases hs
  · split at hs
    · cases hs
    · cases hs
  · rename_i min p hpc
    split at hs
    · obtain ⟨k', hdel⟩ := del_total hlinks (hlinks.on_iff.1 (hw min p hpc))
      rw [hdel] at hs
      cases hs
    · split at hs
      · cases hs
      · cases hs
  · have herror := after_error hs
    split at herror
    · obtain ⟨k', hk, -⟩ := boostPr_effect hlinks
      exact absurd herror (not_error ⟨k', hk⟩)
    · cases herror
  · rename_i p hpc
    dsimp only at hs
    split at hs
    · rename_i hto
      rw [hpc] at hG
      exact absurd (after_error hs) (not_error (releaseLock_total hlinks (hG hto)))
    · cases after_error hs
  · rename_i p hpc
    have hp : p ∈ ls .zero := hslice p .zero (by rw [hpc]; rfl)
    exact absurd (after_error hs) (not_error (demote_total hlinks hp))
  · rename_i p hpc
    have hp : p ∈ ls .one := hslice p .one (by rw [hpc]; rfl)
    exact absurd (after_error hs) (not_error (demote_total hlinks hp))
  · cases after_error hs
  · cases hs
  · cases hs

/-- The priorities of `setPriority` are those of L2. -/
def InRange : Event n → Prop
  | .setPriority _ _ pr => 0 ≤ pr ∧ pr ≤ 3
  | _ => True

instance (e : Event n) : Decidable (InRange e) := by
  unfold InRange
  rcases e with ⟨⟩ <;> infer_instance

/-- A process going on in `fork`, `schedulerLock` or `schedulerUnlock`. -/
theorem cont_fault (h : Queues s.kernel ls) (hG : s.kernel.TameCont (s.call p)) (hs : s.cont p = some (.error f)) :
    f = .nullDeref := by
  have hmap : ∀ {r : Except Fault Kernel} {x : Call},
      some (r.map fun k => { s with kernel := k }.setCall p x) = some (.error f) → r = .error f := by
    intro r x hr
    cases r with
    | error e =>
      cases hr
      rfl
    | ok k => cases hr
  simp only [State.cont] at hs
  cases hcall : s.call p with
  | none =>
    rw [hcall] at hs
    cases hs
  | wait =>
    rw [hcall] at hs
    cases hs
  | fork np =>
    rw [hcall] at hs hG
    dsimp only at hs
    split at hs
    · exact absurd (hmap hs) (not_error (forkReady_total h.toLinks (Kernel.Unlinked.free hG h.toLinks)))
    · cases hs
  | lockTicks =>
    rw [hcall] at hs hG
    dsimp only at hs
    split at hs
    · have hcalm : CalmOn s.kernel ls (some .ticks) := Kernel.Calm.calmOn hG h.toLinks
      have h₀ : Links { s.kernel with ticks := 0 } ls := h.toLinks.congr rfl rfl
      exact absurd (hmap hs) (not_error (wakeup1_total h₀ hcalm))
    · cases hs
  | lockSet =>
    rw [hcall] at hs
    cases hmap hs
  | unlockSet =>
    rw [hcall] at hs
    cases hmap hs
  | unlockClear =>
    rw [hcall] at hs
    cases hmap hs
  | lockFail =>
    rw [hcall] at hs
    cases hmap hs
  | lockKill =>
    rw [hcall] at hs
    dsimp only at hs
    split at hs
    · split at hs
      · cases hs
        rfl
      · cases hmap hs
    · cases hs
  | unlockFail =>
    rw [hcall] at hs
    dsimp only at hs
    split at hs
    · split at hs
      · cases hs
        rfl
      · cases hmap hs
    · cases hs

/-- **A tame event** faults at the most because `init` exits or a pointer is null. -/
theorem wellQueued_fault (h : WellQueued s) {e : Event 1} (hG : Tame s e) (hr : InRange e)
    (hs : step s e = some (.error f)) : f = .initExiting ∨ f = .nullDeref := by
  have horderly := h
  obtain ⟨⟨ls, hq, -⟩, -⟩ := h
  cases e with
  | sched c =>
    obtain rfl : c = 0 := Subsingleton.elim _ _
    exact .inr (sched_fault horderly hG hs)
  | tick => cases hs
  | wakeup chan =>
    simp only [step] at hs
    split at hs
    · exact absurd (within_error hs) (not_error (wakeup1_total hq.toLinks (Kernel.Calm.calmOn hG hq.toLinks)))
    · cases hs
  | yield c =>
    simp only [step] at hs
    split at hs
    · split at hs
      · cases after_error hs
      · cases hs
    · cases hs
  | sleep c chan =>
    simp only [step] at hs
    split at hs
    · split at hs
      · cases after_error hs
      · cases hs
    · cases hs
  | exit c =>
    simp only [step] at hs
    split at hs
    · rename_i p x hu
      obtain ⟨hpc, -⟩ := user_some hu
      split at hs
      · have herror := after_error hs
        by_cases hinit : s.kernel.initproc = some p
        · unfold exit at herror
          rw [if_pos hinit] at herror
          cases herror
          exact .inl rfl
        · exact absurd herror (not_error (exit_total hq (hG p (by rw [hpc]; rfl)) hinit))
      · cases hs
    · cases hs
  | wait c =>
    simp only [step] at hs
    split at hs
    · split at hs
      · cases hs
      · cases hs
    · cases hs
    · cases hs
  | kill c pid =>
    simp only [step] at hs
    split at hs
    · cases within_error hs
    · cases hs
  | setPriority c pid pr =>
    simp only [step] at hs
    split at hs
    · have herror := within_error hs
      unfold setPriority at herror
      obtain ⟨h0, h3⟩ := hr
      rw [if_neg (by omega)] at herror
      split at herror
      · cases herror
      · cases herror
    · cases hs
  | fork c =>
    simp only [step] at hs
    split at hs
    · split at hs
      · split at hs
        · cases hs
        · cases hs
      · cases hs
    · cases hs
  | forkFail c =>
    simp only [step] at hs
    split at hs
    · split at hs
      · cases hs
      · cases hs
    · cases hs
  | schedulerLock c ok =>
    simp only [step] at hs
    split at hs
    · cases hs
    · cases hs
  | schedulerUnlock c ok =>
    simp only [step] at hs
    split at hs
    · cases hs
    · cases hs
  | cont c =>
    obtain rfl : c = 0 := Subsingleton.elim _ _
    simp only [step] at hs
    split at hs
    · rename_i p x hpc
      exact .inr (cont_fault hq (hG p (by rw [hpc]; rfl)) hs)
    · cases hs

/-- The event breaks no queue, and sets no priority out of range. -/
def Meek (s : State 1) (e : Event 1) : Prop := Tame s e ∧ InRange e

instance (s : State 1) (e : Event 1) : Decidable (Meek s e) := by
  unfold Meek
  infer_instance

/-- **No panic of the queues.** A run whose events wake nobody on L2, give `fork` no slot that is still linked, end the
scheduler lock only where that puts the owner on one place, and set priorities from 0 to 3, reaches neither
`panic("pop error")` nor `panic("setPriority error")`. -/
theorem no_queue_panic (k : Kernel) (hk : userinit Kernel.zero = .ok k) (es : List (Event 1))
    (hG : (machine 1).Guarded Meek (boot 1 k) es) :
    (machine 1).run (boot 1 k) es ≠ some (.error .popError) ∧
      (machine 1).run (boot 1 k) es ≠ some (.error .setPriorityError) := by
  obtain ⟨k', hk', hwf⟩ := userinit_queues
  rw [hk'] at hk
  cases hk
  have h₀ : WellQueued (boot 1 k) := ⟨.of_wellFormed hwf rfl, .of_pc fun min p hpc => by cases hpc⟩
  have hfault : ∀ f, (machine 1).run (boot 1 k) es = some (.error f) → f = .initExiting ∨ f = .nullDeref := by
    intro f hr
    obtain ⟨es', e, s, rfl, hrun, hstep⟩ := Machine.run_fault hr
    have hs : WellQueued s :=
      Machine.guarded_inv (M := machine 1) h₀ (fun _ _ _ hI hg hs => wellQueued_step hI hg.1 hs)
      hG.init hrun
    obtain ⟨htame, hrange⟩ := hG.last hrun
    exact wellQueued_fault hs htame hrange hstep
  constructor
  · intro hr
    rcases hfault _ hr with h | h
    · cases h
    · cases h
  · intro hr
    rcases hfault _ hr with h | h
    · cases h
    · cases h

theorem no_queue_panic_forkAndYield : ∃ k, userinit Kernel.zero = .ok k ∧
    (machine 1).run (boot 1 k) forkAndYield ≠ some (.error .popError) ∧
      (machine 1).run (boot 1 k) forkAndYield ≠ some (.error .setPriorityError) := by
  obtain ⟨k, s, hk, -, hG⟩ := bootRun_any forkAndYield
    (fun x => (machine 1).check Meek (boot 1 x.1) forkAndYield) (by decide)
  exact ⟨k, hk, no_queue_panic k hk _ (Machine.guarded_of_check hG)⟩

/-- A time slice in L0 or L1. -/
def slice : List (Event 1) := [.sched 0, .sched 0, .yield 0, .sched 0, .sched 0]

/-- The only process uses up its time in L0 and L1, and then sleeps in its first slice in L2. -/
def sleepOnL2 : List (Event 1) :=
  (List.replicate 10 slice).flatten ++ List.replicate 9 (.sched 0) ++
    [.sleep 0 .ticks, .sched 0, .sched 0, .wakeup .ticks]

/-- A run from `userinit` that faults. -/
def bootFault (es : List (Event 1)) : Option Fault :=
  match userinit Kernel.zero with
  | .error _ => none
  | .ok k =>
    match (machine 1).run (boot 1 k) es with
    | some (.error f) => some f
    | _ => none

theorem bootFault_some {es : List (Event 1)} (h : bootFault es = some f) : ∃ k, userinit Kernel.zero = .ok k ∧
    (machine 1).run (boot 1 k) es = some (.error f) := by
  unfold bootFault at h
  split at h
  · cases h
  · rename_i k hk
    split at h
    · rename_i f' hf
      cases h
      exact ⟨k, hk, hf⟩
    · cases h

/-- **User code panics the scheduler**: by sleeping on L2, and by a priority out of range. -/
theorem user_code_panics : (∃ k, userinit Kernel.zero = .ok k ∧
      (machine 1).run (boot 1 k) sleepOnL2 = some (.error .popError)) ∧
    ∃ k, userinit Kernel.zero = .ok k ∧
      (machine 1).run (boot 1 k) [.sched 0, .sched 0, .setPriority 0 1 7] = some (.error .setPriorityError) :=
  ⟨bootFault_some (by decide), bootFault_some (by decide)⟩

end Xv6.Mlfq
