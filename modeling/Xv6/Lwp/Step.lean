import Xv6.Lwp.Group

/-!
# One step of the kernel

`Effect`: what an event does when it does not fault, with the state after it written
out. `step_effect`: every step has one.
-/

namespace Xv6.Lwp

variable {n : ℕ} {s s' : State n} {c : Fin n} {t t' : Table} {p q : Slot}

@[simp] theorem setFrame_proc (s : State n) (c : Fin n) (f : Frame) : (s.setFrame c f).proc = s.proc := rfl

@[simp] theorem setFrame_cpu (s : State n) (c : Fin n) (f : Frame) : (s.setFrame c f).cpu = s.cpu := rfl

@[simp] theorem leave_proc (s : State n) (c : Fin n) : (s.leave c).proc = s.proc := rfl

@[simp] theorem leave_frame (s : State n) (c : Fin n) : (s.leave c).frame = s.frame := rfl

theorem setFrame_frame (s : State n) (c : Fin n) (f : Frame) (k : Stack) :
    (s.setFrame c f).frame k = if k = (s.cpu c).stack then f else s.frame k := by
  show Function.update s.frame (s.cpu c).stack f k = _
  exact Function.update_apply ..

theorem current_some {f : Frame} (h : s.current c = some (p, f)) :
    (s.cpu c).proc = some p ∧ s.frame (s.cpu c).stack = f := by
  simp only [State.current, Option.map_eq_some_iff, Prod.mk.injEq] at h
  obtain ⟨_, hp, rfl, rfl⟩ := h
  exact ⟨hp, rfl⟩

theorem current_setFrame (hp : (s.cpu c).proc = some p) (f : Frame) (hcpu : s'.cpu = s.cpu)
    (hframe : s'.frame = Function.update s.frame (s.cpu c).stack f) : s'.current c = some (p, f) := by
  rw [State.current, hcpu, hp, hframe, Function.update_self]
  rfl

theorem user_some (h : s.user c = some p) : s.current c = some (p, .idle) := by
  unfold State.user at h
  split at h
  · rename_i hf; rw [State.current, h, Option.map_some, hf]
  · cases h

theorem user_of_current (h : s.current c = some (p, .idle)) : s.user c = some p := by
  obtain ⟨hp, hf⟩ := current_some h
  rw [State.user, if_pos hf, hp]

theorem findUnused_some {np : Slot} (h : findUnused t = some np) : (t np).state = .unused := by
  simpa using List.find?_some h

theorem findZombie_some {z : Slot} (h : findZombie t p = some z) :
    (t z).parent = some p ∧ (t z).state = .zombie := by
  simpa using List.find?_some h

theorem recovery_ok (h : recovery t p = .ok t') : (t p).kstack ≠ none ∧ t' = t.upd p Proc.recovered := by
  unfold recovery at h
  split at h
  · cases h
  · rename_i hk; cases h; exact ⟨hk, rfl⟩

/-- The loop of `thread_join` recovers a child that exited. -/
theorem findJoin_some {z : Slot} {thread : ℕ} (h : findJoin t p thread = some z)
    (hz : (t z).parent = some p) : (t z).tid = thread ∧ (t z).state = .zombie := by
  have := List.find?_some h
  simp only [ne_eq, decide_eq_true_eq] at this
  exact ⟨this.1, this.2.resolve_left fun h => h hz⟩

theorem switchuvm_ok {s' : State n} (h : s.switchuvm c p = .ok s') : ∃ k d, (s.proc p).kstack = some k ∧
    (s.proc p).pgdir = some d ∧ s' = s.setCpu c { s.cpu c with esp0 := some k, cr3 := some d } := by
  unfold State.switchuvm at h
  split at h
  · rename_i k d hk hd; cases h; exact ⟨k, d, hk, hd, rfl⟩
  · cases h

theorem freevm_ok {pgdir : Option Dir} (h : s.freevm pgdir = .ok s') : ∃ d, pgdir = some d ∧
    s' = { s with freed := Function.update s.freed d (s.freed d + 1) } := by
  unfold State.freevm at h
  split at h
  · cases h
  · rename_i d; cases h; exact ⟨d, rfl, rfl⟩

/-- `wait` and `thread_join` start, or go on after a sleep. -/
def Frame.Waits (f : Frame) : Prop := f = .idle ∨ f = ⟨.wait, false⟩ ∨ ∃ thread, f = ⟨.join thread, false⟩

/-- A pass of their loops has the lock: it is free when they start, and held after a sleep. -/
def State.Ready (s : State n) (c : Fin n) (f : Frame) : Prop := f = .idle ∧ s.Free ∨ s.lock = some c

/-- The event is a pass of the loop of `call` that found nothing. -/
def State.Passed (s : State n) (c : Fin n) (p : Slot) (call : Call) (e : Event n) : Prop :=
  e = .wait c ∧ call = .wait ∨
    ∃ thread, e = .threadJoin c thread ∧ call = .join thread ∧ findJoin s.proc p thread = Option.none

/-- The page directory that `exec` made. -/
def Call.newDir : Call → Option Dir
  | .exec _ pgdir => pgdir
  | .killThread pgdir _ => some pgdir
  | _ => Option.none

theorem setup_newDir (two lwp : Bool) (d : Dir) : (Call.setup two d lwp).newDir = some d := by cases two <;> rfl

/-- The slot that has passed the test of `kill_thread`. -/
def Call.hit : Call → Option Slot
  | .killThread _ (.hit _ child _) => some child
  | _ => Option.none

theorem setup_hit (two lwp : Bool) (d : Dir) : (Call.setup two d lwp).hit = none := by cases two <;> rfl

/-- The slot whose size `growproc` has not stored yet, and the size. -/
def Call.grows : Call → Option (Slot × BitVec 32)
  | .grow m sz => some (m, sz)
  | _ => Option.none

theorem grows_some {call : Call} {m : Slot} {sz : BitVec 32} : call.grows = some (m, sz) ↔ call = .grow m sz := by
  refine ⟨fun h => ?_, fun h => h ▸ rfl⟩
  cases call <;> cases h
  rfl

/-- The slot whose limit `setmemorylimit` has not stored yet, and the limit. -/
def Call.limits : Call → Option (Slot × BitVec 32)
  | .limit p lim => some (p, lim)
  | _ => Option.none

/-- The slot that the process on `c`, in the `kill_thread` of `exec`, recovers next. -/
def State.victim (s : State n) (c : Fin n) : Option Slot :=
  match s.current c with
  | some (_, ⟨.killThread _ (.hit _ child _), true⟩) => some child
  | some (p, ⟨.killThread _ .heir, true⟩) => (s.proc p).parent
  | _ => none

/-- The LWP on `c` that takes the place of its main thread in the `kill_thread` of `exec`. -/
def State.heir (s : State n) (c : Fin n) : Option Slot :=
  match s.current c with
  | some (p, ⟨.killThread _ .marked, true⟩) => some p
  | _ => none

/-- The event recovers the slot `q` in `kill_thread`. -/
def State.Recovers (s : State n) (q : Slot) : Event n → Prop
  | .kill _ pid => ∃ p, findPid s.proc pid = some p ∧ s.proc.Victim p q
  | .execKill c => s.victim c = some q
  | _ => False

/-- The LWP that `kill_thread` makes the main thread in this event. -/
def State.promotes (s : State n) : Event n → Option Slot
  | .kill _ pid => (findPid s.proc pid).filter fun p => (s.proc p).isThread
  | .execKill c => s.heir c
  | _ => none

instance (s : State n) (q : Slot) (e : Event n) : Decidable (s.Recovers q e) := by
  unfold State.Recovers; rcases e with ⟨⟩ <;> infer_instance

/-- The event leaves `kill_thread` alone. -/
def State.Spares (s : State n) (e : Event n) : Prop := ∀ q, ¬ s.Recovers q e

/-- What an event does. -/
inductive Effect (s : State n) : Event n → State n → Prop
  | stay (e : Event n) (he : s.Spares e) : Effect s e s
  | dispatch (c : Fin n) (p : Slot) (k : Stack) (d : Dir) (hidle : (s.cpu c).proc = none)
      (hst : (s.proc p).state = .runnable) (hk : (s.proc p).kstack = some k)
      (hd : (s.proc p).pgdir = some d) (hfree : s.Free) :
    Effect s (.sched c p) { s with
      proc := s.proc.upd p fun x => { x with state := .running, chan := none }
      cpu := Function.update s.cpu c ⟨some p, k, some k, some d⟩
      lock := if (s.frame k).call.Locks then some c else none }
  | yield (c : Fin n) (p : Slot) (hp : (s.cpu c).proc = some p) (hfree : s.Free) :
    Effect s (.yield c) ({ s with proc := s.proc.upd p fun x => { x with state := .runnable } }.leave c)
  | sleep (c : Fin n) (p : Slot) (chan : ℕ) (hp : (s.cpu c).proc = some p) (hfree : s.Free) :
    Effect s (.sleep c chan) ({ s with proc := s.proc.upd p fun x =>
      { x with chan := some (.other chan), state := .sleeping } }.leave c)
  | wakeup (chan : ℕ) : Effect s (.wakeup chan) { s with proc := wakeup1 s.proc (some (.other chan)) }
  | exit (c : Fin n) (p : Slot) (t : Table) (hcur : s.current c = some (p, .idle))
      (ht : exit s.proc p = .ok t) (hfree : s.Free) :
    Effect s (.exit c) ({ s with proc := t }.leave c)
  | threadExit (c : Fin n) (p : Slot) (retval : BitVec 32) (t : Table)
      (hcur : s.current c = some (p, .idle)) (ht : threadExit s.proc p retval = .ok t) (hfree : s.Free) :
    Effect s (.threadExit c retval) ({ s with proc := t }.leave c)
  /-- `wait` frees a child -/
  | reap (c : Fin n) (p z : Slot) (f : Frame) (d : Dir) (hcur : s.current c = some (p, f))
      (hf : f.Waits) (hz : findZombie s.proc p = some z) (hk : (s.proc z).kstack ≠ none)
      (hd : (s.proc z).pgdir = some d) (hready : s.Ready c f) :
    Effect s (.wait c) ({ s with
      freed := Function.update s.freed d (s.freed d + 1)
      proc := s.proc.upd z Proc.reaped, lock := none }.setFrame c .idle)
  /-- `thread_join` frees an LWP -/
  | join (c : Fin n) (p z : Slot) (f : Frame) (thread : ℕ) (hcur : s.current c = some (p, f))
      (hf : f.Waits) (hz : findJoin s.proc p thread = some z) (hpar : (s.proc z).parent = some p)
      (hk : (s.proc z).kstack ≠ none) (hready : s.Ready c f) :
    Effect s (.threadJoin c thread)
      ({ s with proc := s.proc.upd z Proc.recovered, lock := none }.setFrame c .idle)
  /-- `wait` or `thread_join` returns without a child -/
  | waited (e : Event n) (c : Fin n) (p : Slot) (f : Frame) (he : s.Spares e)
      (hcur : s.current c = some (p, f)) (hf : f.Waits) (hready : s.Ready c f) :
    Effect s e ({ s with lock := none }.setFrame c .idle)
  /-- `wait` or `thread_join` goes to sleep -/
  | block (e : Event n) (c : Fin n) (p : Slot) (f : Frame) (call : Call) (he : s.Spares e)
      (hcur : s.current c = some (p, f)) (hf : f.Waits) (hcall : Frame.Waits ⟨call, false⟩)
      (hready : s.Ready c f) (hpass : s.Passed c p call e) :
    Effect s e (s.sleepOn c p call)
  | kill (c : Fin n) (p p₀ : Slot) (pid : ℕ) (t : Table) (hcur : s.current c = some (p, .idle))
      (hfind : findPid s.proc pid = some p₀) (ht : killThread s.proc p₀ = .ok t) :
    Effect s (.kill c pid) { s with proc := t.upd p₀ Proc.kill }
  | fork (c : Fin n) (p np : Slot) (hcur : s.current c = some (p, .idle))
      (hnp : findUnused s.proc = some np) :
    Effect s (.fork c true) ({ s with
      proc := s.proc.upd np fun x => { x.embryo s.nextpid s.nextStack with memlim := 0 }
      nextpid := s.nextpid + 1
      nextStack := s.nextStack + 1
      frame := Function.update s.frame s.nextStack .idle }.setFrame c ⟨.fork np, false⟩)
  | forkFail (c : Fin n) (np : Slot) (hnp : findUnused s.proc = some np) :
    Effect s (.fork c false) { s with
      proc := s.proc.upd np fun x => { x with pid := s.nextpid, memlim := 0, kstack := none }
      nextpid := s.nextpid + 1 }
  | forkCopy (c : Fin n) (p np : Slot) (hcur : s.current c = some (p, ⟨.fork np, false⟩)) :
    Effect s (.forkCopy c true) ({ s with
      proc := s.proc.upd np fun x =>
        { x with pgdir := some s.nextDir, sz := (s.proc p).sz, parent := some p,
                 isThread := false, tid := 0, retval := 0 }
      nextDir := s.nextDir + 1 }.setFrame c ⟨.forked np, false⟩)
  | forkCopyFail (c : Fin n) (p np : Slot) (hcur : s.current c = some (p, ⟨.fork np, false⟩)) :
    Effect s (.forkCopy c false) ({ s with proc := s.proc.upd np fun x =>
      { x with pgdir := none, kstack := none, state := .unused } }.setFrame c .idle)
  | forkReady (c : Fin n) (p np : Slot) (hcur : s.current c = some (p, ⟨.forked np, false⟩)) :
    Effect s (.forkReady c)
      ({ s with proc := s.proc.upd np fun x => { x with state := .runnable } }.setFrame c .idle)
  | threadCreate (c : Fin n) (p thrd : Slot) (hcur : s.current c = some (p, .idle))
      (hthrd : findUnused s.proc = some thrd) :
    Effect s (.threadCreate c true) ({ s with
      proc := s.proc.upd thrd fun x => x.embryo (s.proc p).pid s.nextStack
      nextStack := s.nextStack + 1
      frame := Function.update s.frame s.nextStack .idle }.setFrame c ⟨.create thrd, false⟩)
  | threadCreateFail (c : Fin n) (p thrd : Slot) (hcur : s.current c = some (p, .idle))
      (hthrd : findUnused s.proc = some thrd) :
    Effect s (.threadCreate c false)
      { s with proc := s.proc.upd thrd fun x => { x with pid := (s.proc p).pid, kstack := none } }
  /-- `thread_create` fails, and leaves the slot that it allocated -/
  | threadMapFail (c : Fin n) (p m thrd : Slot) (sz : BitVec 32) (t : Table) (pages copied : Bool)
      (hcur : s.current c = some (p, ⟨.create thrd, false⟩)) (hm : s.proc.main p = some m)
      (ht : t = s.proc.resize m sz ∨ t = (s.proc.resize m sz).share m thrd sz) :
    Effect s (.threadMap c pages copied) ({ s with proc := t }.setFrame c .idle)
  | threadMap (c : Fin n) (p m thrd : Slot) (sz : BitVec 32) (pages copied : Bool)
      (hcur : s.current c = some (p, ⟨.create thrd, false⟩)) (hm : s.proc.main p = some m) :
    Effect s (.threadMap c pages copied) ({ s with
      proc := ((s.proc.resize m sz).share m thrd sz).adopt m thrd s.nexttid
      nexttid := s.nexttid + 1 }.setFrame c ⟨.created thrd, false⟩)
  | threadReady (c : Fin n) (p thrd : Slot) (hcur : s.current c = some (p, ⟨.created thrd, false⟩)) :
    Effect s (.threadReady c)
      ({ s with proc := s.proc.upd thrd fun x => { x with state := .runnable } }.setFrame c .idle)
  | execBegin (c : Fin n) (p : Slot) (two : Bool) (hcur : s.current c = some (p, .idle)) :
    Effect s (.execBegin c two)
      ({ s with outstanding := s.outstanding + 1 }.setFrame c ⟨.exec two none, true⟩)
  | execSetup (c : Fin n) (p : Slot) (two : Bool) (call : Call)
      (hcur : s.current c = some (p, ⟨.exec two none, true⟩)) (hcall : call.newDir = some s.nextDir)
      (hhit : call.hit = none) :
    Effect s (.execSetup c) ({ s with nextDir := s.nextDir + 1 }.setFrame c ⟨call, true⟩)
  /-- `kill_thread` of `exec` tests a slot, or comes to its end -/
  | killTest (c : Fin n) (p : Slot) (d : Dir) (w : Walk) (call : Call)
      (hcur : s.current c = some (p, ⟨.killThread d w, true⟩)) (hspare : s.Spares (.execKill c))
      (hcall : call.newDir = some d) (hhit : ∀ z, call.hit = some z → (s.proc z).isThread = true) :
    Effect s (.execKill c) (s.setFrame c ⟨call, true⟩)
  /-- it recovers a slot -/
  | killRecover (c : Fin n) (p z : Slot) (d : Dir) (w : Walk) (call : Call)
      (hcur : s.current c = some (p, ⟨.killThread d w, true⟩)) (hz : s.victim c = some z)
      (hk : (s.proc z).kstack ≠ none) (hcall : call.newDir = some d) (hhit : call.hit = none) :
    Effect s (.execKill c)
      ({ s with proc := s.proc.upd z Proc.recovered }.setFrame c ⟨call, true⟩)
  /-- called for an LWP, it marks the main thread -/
  | killMark (c : Fin n) (p m : Slot) (d : Dir) (hcur : s.current c = some (p, ⟨.killThread d (.loop true []), true⟩))
      (hm : (s.proc p).parent = some m) :
    Effect s (.execKill c) ({ s with proc := s.proc.upd m fun x => { x with killed := true } }.setFrame c
      ⟨.killThread d .marked, true⟩)
  /-- and the LWP takes its place -/
  | killHeir (c : Fin n) (p m : Slot) (d : Dir) (hcur : s.current c = some (p, ⟨.killThread d .marked, true⟩))
      (hm : (s.proc p).parent = some m) :
    Effect s (.execKill c) ({ s with proc := s.proc.upd p fun x =>
      { x with isThread := false, parent := (s.proc m).parent } }.setFrame c ⟨.killThread d .heir, true⟩)
  | execLoaded (c : Fin n) (p : Slot) (two : Bool) (d : Dir)
      (hcur : s.current c = some (p, ⟨.exec two (some d), true⟩)) :
    Effect s (.execLoaded c)
      ({ s with outstanding := s.outstanding - 1 }.setFrame c ⟨.exec two (some d), false⟩)
  | execCommit (c : Fin n) (p : Slot) (two : Bool) (d old : Dir) (k : Stack) (sz : BitVec 32)
      (hcur : s.current c = some (p, ⟨.exec two (some d), false⟩)) (hk : (s.proc p).kstack = some k)
      (hold : (s.proc p).pgdir = some old) :
    Effect s (.execCommit c sz) { s with
      proc := s.proc.upd p fun x => { x with pgdir := some d, sz := sz }
      cpu := Function.update s.cpu c { s.cpu c with esp0 := some k, cr3 := some d }
      freed := Function.update s.freed old (s.freed old + 1)
      frame := Function.update s.frame (s.cpu c).stack .idle }
  | execBad (c : Fin n) (p : Slot) (two : Bool) (pgdir : Option Dir) (inOp : Bool)
      (hcur : s.current c = some (p, ⟨.exec two pgdir, inOp⟩)) :
    Effect s (.execBad c) (s.execBad c pgdir inOp)
  | beginOp (c : Fin n) (p : Slot) (hcur : s.current c = some (p, .idle)) :
    Effect s (.beginOp c) ({ s with outstanding := s.outstanding + 1 }.setFrame c ⟨.none, true⟩)
  | endOp (c : Fin n) (p : Slot) (hcur : s.current c = some (p, ⟨.none, true⟩)) :
    Effect s (.endOp c) ({ s with outstanding := s.outstanding - 1 }.setFrame c .idle)
  /-- `growproc` fails, and keeps the lock -/
  | growFail (c : Fin n) (k : BitVec 32) (ok : Bool) (hfree : s.Free) :
    Effect s (.growproc c k ok) { s with lock := some c }
  | growproc (c : Fin n) (p m : Slot) (k : BitVec 32) (ok : Bool) (sz : BitVec 32) (d : Dir)
      (hcur : s.current c = some (p, .idle)) (hm : s.proc.main p = some m)
      (hlim : ¬ (s.proc p).limited k) (hsz : newSize (s.proc m).sz k ok = some sz)
      (hd : (s.proc m).pgdir = some d) (hfree : s.Free) :
    Effect s (.growproc c k ok) (s.setFrame c ⟨.grow m sz, false⟩)
  | growStore (c : Fin n) (p m : Slot) (sz : BitVec 32) (stack : Stack) (d : Dir)
      (hcur : s.current c = some (p, ⟨.grow m sz, false⟩))
      (hk : (s.proc m).kstack = some stack) (hd : (s.proc m).pgdir = some d) :
    Effect s (.growStore c) { s with
      proc := s.proc.resize m sz
      cpu := Function.update s.cpu c { s.cpu c with esp0 := some stack, cr3 := some d }
      frame := Function.update s.frame (s.cpu c).stack .idle }
  | setmemorylimit (c : Fin n) (p q : Slot) (pid : ℕ) (limit : BitVec 32) (hcur : s.current c = some (p, .idle))
      (hfind : findPid s.proc pid = some q) (hneg : BitVec.slt limit 0 = false) (hsz : ¬ limit < (s.proc q).sz) :
    Effect s (.setmemorylimit c pid limit) (s.setFrame c ⟨.limit q limit, false⟩)
  | limitStore (c : Fin n) (p q : Slot) (limit : BitVec 32) (hcur : s.current c = some (p, ⟨.limit q limit, false⟩)) :
    Effect s (.limitStore c)
      ({ s with proc := s.proc.upd q fun x => { x with memlim := limit } }.setFrame c .idle)

theorem killThread_spares {d : Dir} {w : Walk} (hcur : s.current c = some (p, ⟨.killThread d w, true⟩))
    (hw : ∀ lwp child rest, w ≠ .hit lwp child rest) (hh : w ≠ .heir) : s.Spares (.execKill c) := by
  intro q (hq : s.victim c = some q)
  unfold State.victim at hq
  rw [hcur] at hq
  cases w with
  | loop lwp rest => cases hq
  | hit lwp child rest => exact hw lwp child rest rfl
  | marked => cases hq
  | heir => exact hh rfl

/-- The fields of a slot that is marked and recovered. -/
theorem recovered_killed (t : Table) (q : Slot) :
    (t.upd q fun x => { x with killed := true }).upd q Proc.recovered = t.upd q Proc.recovered := by
  funext x
  by_cases hx : x = q
  · rw [hx, upd_self, upd_self, upd_self]; rfl
  · rw [upd_ne _ hx, upd_ne _ hx, upd_ne _ hx]

theorem map_ok {r : Except Fault Table} {f : Table → State n}
    (h : some (r.map f) = some (.ok s')) : ∃ t, r = .ok t ∧ s' = f t := by
  cases r with
  | error e => cases h
  | ok t => cases h; exact ⟨t, rfl, rfl⟩

theorem waitPass_effect {f : Frame} (hcur : s.current c = some (p, f)) (hf : f.Waits) (hready : s.Ready c f)
    (h : s.waitPass c p = .ok s') : Effect s (.wait c) s' := by
  unfold State.waitPass at h
  split at h
  · rename_i z hz
    unfold State.reap at h
    split at h
    · cases h
    · rename_i hk
      simp only [bind_ok] at h
      obtain ⟨s₁, h1, h2⟩ := h
      obtain ⟨d, hd, rfl⟩ := freevm_ok h1
      cases h2
      exact .reap c p z f d hcur hf hz hk hd hready
  · split at h
    · cases h; exact .waited _ c p f (fun _ => id) hcur hf hready
    · cases h; exact .block _ c p f .wait (fun _ => id) hcur hf (.inr (.inl rfl)) hready (.inl ⟨rfl, rfl⟩)

theorem joinPass_effect {f : Frame} {thread : ℕ} (hcur : s.current c = some (p, f)) (hf : f.Waits)
    (hready : s.Ready c f) (h : s.joinPass c p thread = .ok s') : Effect s (.threadJoin c thread) s' := by
  unfold State.joinPass at h
  split at h
  · rename_i z hz
    split at h
    · cases h; exact .waited _ c p f (fun _ => id) hcur hf hready
    · rename_i hpar
      cases hr : recovery s.proc z with
      | error e => rw [hr] at h; cases h
      | ok t =>
        rw [hr] at h
        cases h
        obtain ⟨hk, rfl⟩ := recovery_ok hr
        exact .join c p z f thread hcur hf hz (not_not.1 hpar) hk hready
  · rename_i hnone
    split at h
    · cases h; exact .waited _ c p f (fun _ => id) hcur hf hready
    · cases h
      exact .block _ c p f (.join thread) (fun _ => id) hcur hf (.inr (.inr ⟨thread, rfl⟩)) hready
        (.inr ⟨thread, rfl, rfl, hnone⟩)

theorem threadMap_effect {m thrd : Slot} {pages copied : Bool}
    (hcur : s.current c = some (p, ⟨.create thrd, false⟩)) (hm : s.proc.main p = some m)
    (h : s.threadMap c m thrd pages copied = .ok s') : Effect s (.threadMap c pages copied) s' := by
  unfold State.threadMap at h
  generalize allocuvm (pgroundup (s.proc m).sz) (pgroundup (s.proc m).sz + 2 * PGSIZE) pages = sz at h
  dsimp only at h
  split at h
  · cases h
  · split at h
    · cases h; exact .threadMapFail c p m thrd _ _ _ _ hcur hm (.inl rfl)
    · split at h
      · cases h; exact .threadMapFail c p m thrd _ _ _ _ hcur hm (.inr rfl)
      · cases h; exact .threadMap c p m thrd _ _ _ hcur hm

theorem growproc_effect {m : Slot} {k : BitVec 32} {ok : Bool} (hfree : s.Free) (hcur : s.current c = some (p, .idle))
    (hm : s.proc.main p = some m) (hlim : ¬ (s.proc p).limited k)
    (h : s.growproc c m k ok = .ok s') : Effect s (.growproc c k ok) s' := by
  unfold State.growproc at h
  split at h
  · cases h
  · rename_i hd
    obtain ⟨d, hd⟩ := Option.ne_none_iff_exists'.1 hd
    cases hsz : newSize (s.proc m).sz k ok with
    | none => rw [hsz] at h; cases h; exact .growFail c _ _ hfree
    | some sz => rw [hsz] at h; cases h; exact .growproc c p m k ok sz d hcur hm hlim hsz hd hfree

theorem growStore_effect {m : Slot} {sz : BitVec 32} (hcur : s.current c = some (p, ⟨.grow m sz, false⟩))
    (h : s.growStore c m sz = .ok s') : Effect s (.growStore c) s' := by
  simp only [State.growStore, bind_ok] at h
  obtain ⟨s₁, h1, h2⟩ := h
  obtain ⟨stack, d, hk, hd, rfl⟩ := switchuvm_ok h1
  cases h2
  -- the size is the only field that changes
  have hres : ∀ {α} (f : Proc → α), (∀ x, f { x with sz := sz } = f x) →
      f ((s.proc.resize m sz) m) = f (s.proc m) := by
    intro α f hf; rw [Table.resize, upd_self, hf]
  have hfr : (Function.update s.cpu c { s.cpu c with esp0 := some stack, cr3 := some d } c).stack =
      (s.cpu c).stack := by rw [Function.update_self]
  have he := Effect.growStore c p m sz stack d hcur ((hres Proc.kstack fun _ => rfl).symm.trans hk)
    ((hres Proc.pgdir fun _ => rfl).symm.trans hd)
  rw [← hfr] at he
  exact he

theorem execCommit_effect {two : Bool} {d : Dir} {sz : BitVec 32}
    (hcur : s.current c = some (p, ⟨.exec two (some d), false⟩))
    (h : s.execCommit c p d sz = .ok s') : Effect s (.execCommit c sz) s' := by
  simp only [State.execCommit, bind_ok] at h
  obtain ⟨s₁, h1, s₂, h2, h3⟩ := h
  obtain ⟨k, d', hk, hd', rfl⟩ := switchuvm_ok h1
  obtain ⟨old, hold, rfl⟩ := freevm_ok h2
  cases h3
  simp only [upd_self] at hk hd'
  cases hd'
  have hfr : (Function.update s.cpu c { s.cpu c with esp0 := some k, cr3 := some d } c).stack =
      (s.cpu c).stack := by rw [Function.update_self]
  have he := Effect.execCommit c p two d old k sz hcur hk hold
  rw [← hfr] at he
  exact he

/-- Only an LWP passes the test. -/
theorem test_thread {lwp : Bool} (h : t.Test lwp p q) : (t q).isThread = true := by
  cases lwp with
  | false => exact h.2
  | true => exact h.2.1

/-- A step of `kill_thread` in `exec`. -/
theorem killStep_effect {d : Dir} {w : Walk} (hcur : s.current c = some (p, ⟨.killThread d w, true⟩))
    (h : s.killStep c p d w = .ok s') : Effect s (.execKill c) s' := by
  cases w with
  | loop lwp rest =>
    have hspare := killThread_spares hcur (by simp) (by simp)
    cases rest with
    | cons child rest =>
      cases h
      refine .killTest c p d _ _ hcur hspare rfl fun z hz => ?_
      split at hz
      · rename_i htest; cases hz; exact test_thread htest
      · cases hz
    | nil =>
      cases lwp with
      | false => cases h; exact .killTest c p d _ _ hcur hspare rfl (fun _ hz => by cases hz)
      | true =>
        simp only [State.killStep] at h
        split at h
        · cases h
        · rename_i m hm; cases h; exact .killMark c p m d hcur hm
  | hit lwp child rest =>
    have hz : s.victim c = some child := by rw [State.victim, hcur]
    obtain ⟨t, ht, rfl⟩ := map_ok (congrArg some h)
    obtain ⟨hk, rfl⟩ := recovery_ok ht
    rw [upd_self] at hk
    rw [recovered_killed]
    exact .killRecover c p child d _ _ hcur hz hk rfl rfl
  | marked =>
    simp only [State.killStep] at h
    split at h
    · cases h
    · rename_i m hm; cases h; exact .killHeir c p m d hcur hm
  | heir =>
    simp only [State.killStep] at h
    split at h
    · cases h
    · rename_i g hg
      have hz : s.victim c = some g := by rw [State.victim, hcur]; exact hg
      obtain ⟨t, ht, rfl⟩ := map_ok (congrArg some h)
      obtain ⟨hk, rfl⟩ := recovery_ok ht
      exact .killRecover c p g d _ _ hcur hz hk rfl rfl

/-- A slot that `kill_thread` recovers. -/
theorem Effect.recovered {e : Event n} (h : Effect s e s') (hq : s.Recovers q e) :
    (s.proc q).kstack ≠ none ∧ (s'.proc q).state = .unused := by
  cases h with
  | stay e he => exact absurd hq (he q)
  | waited e c p f he => exact absurd hq (he q)
  | block e c p f call he => exact absurd hq (he q)
  | kill c p p₀ pid t hcur hfind ht =>
    obtain ⟨p₁, hp₁, hv⟩ := hq
    cases hfind.symm.trans hp₁
    have hst : (t q).state = .unused := by rw [(killThread_killed ht).victim q hv]; rfl
    refine ⟨(killThread_isOk.1 ⟨t, ht⟩).kstack q hv, ?_⟩
    show ((t.upd p₀ Proc.kill) q).state = .unused
    rw [upd_apply]
    split
    · unfold Proc.kill; rw [hst]; rfl
    · exact hst
  | killTest c p d w call hcur hspare => exact absurd hq (hspare q)
  | killRecover c p z d w call hcur hz hk =>
    cases hz.symm.trans hq
    exact ⟨hk, congrArg Proc.state (upd_self ..)⟩
  | killMark c p m d hcur => exact absurd hq (killThread_spares hcur (by simp) (by simp) q)
  | killHeir c p m d hcur => exact absurd hq (killThread_spares hcur (by simp) (by simp) q)
  | _ => exact hq.elim

theorem sched_effect {p : Slot} (h : step s (.sched c p) = some (.ok s')) : Effect s (.sched c p) s' := by
  simp only [step] at h
  split at h
  · rename_i hc
    simp only [Option.some.injEq, State.dispatch] at h
    split at h
    · rename_i k d hk hd; cases h; exact .dispatch c p k d hc.1 hc.2.2 hk hd hc.2.1
    · cases h
  · cases h

theorem yield_effect (h : step s (.yield c) = some (.ok s')) : Effect s (.yield c) s' := by
  simp only [step] at h
  split at h
  · rename_i p hp
    split at h
    · rename_i hfree; cases h; exact .yield c p hp hfree
    · cases h
  · cases h

theorem sleep_effect {chan : ℕ} (h : step s (.sleep c chan) = some (.ok s')) : Effect s (.sleep c chan) s' := by
  simp only [step] at h
  split at h
  · rename_i p hp
    split at h
    · rename_i hfree; cases h; exact .sleep c p chan hp hfree
    · cases h
  · cases h

theorem wakeup_effect {chan : ℕ} (h : step s (.wakeup chan) = some (.ok s')) : Effect s (.wakeup chan) s' := by
  simp only [step] at h
  split at h
  · cases h; exact .wakeup chan
  · cases h

theorem exit_effect (h : step s (.exit c) = some (.ok s')) : Effect s (.exit c) s' := by
  simp only [step] at h
  split at h
  · rename_i p hu
    split at h
    · rename_i hfree
      obtain ⟨t, ht, rfl⟩ := map_ok h
      exact .exit c p t (user_some hu) ht hfree
    · cases h
  · cases h

theorem threadExit_effect {retval : BitVec 32} (h : step s (.threadExit c retval) = some (.ok s')) :
    Effect s (.threadExit c retval) s' := by
  simp only [step] at h
  split at h
  · rename_i p hu
    split at h
    · rename_i hfree
      obtain ⟨t, ht, rfl⟩ := map_ok h
      exact .threadExit c p retval t (user_some hu) ht hfree
    · cases h
  · cases h

theorem wait_effect (h : step s (.wait c) = some (.ok s')) : Effect s (.wait c) s' := by
  simp only [step] at h
  split at h
  · rename_i p f hcur
    split at h
    · rename_i hf
      exact waitPass_effect hcur (hf.imp And.left fun h => .inl h.1) (hf.imp_right And.right)
        (by simpa using h)
    · cases h
  · cases h

theorem threadJoin_effect {thread : ℕ} (h : step s (.threadJoin c thread) = some (.ok s')) :
    Effect s (.threadJoin c thread) s' := by
  simp only [step] at h
  split at h
  · rename_i p f hcur
    split at h
    · rename_i hf
      exact joinPass_effect hcur (hf.imp And.left fun h => .inr ⟨thread, h.1⟩) (hf.imp_right And.right)
        (by simpa using h)
    · cases h
  · cases h

theorem kill_effect {pid : ℕ} (h : step s (.kill c pid) = some (.ok s')) : Effect s (.kill c pid) s' := by
  simp only [step] at h
  split at h
  · rename_i hu
    obtain ⟨p, hp⟩ := Option.isSome_iff_exists.1 hu.1
    cases hkill : kill s.proc pid with
    | none =>
      rw [hkill] at h
      cases h
      have hnone : findPid s.proc pid = none := by simpa only [kill, Option.map_eq_none_iff] using hkill
      refine .stay _ fun q hq => ?_
      obtain ⟨p, hp, -⟩ := hq
      rw [hnone] at hp
      cases hp
    | some r =>
      rw [hkill] at h
      obtain ⟨t, ht, rfl⟩ := map_ok h
      simp only [kill, Option.map_eq_some_iff] at hkill
      obtain ⟨p₀, hfind, hr⟩ := hkill
      cases hkt : killThread s.proc p₀ with
      | error e => rw [hkt, ht] at hr; cases hr
      | ok t₁ =>
        rw [hkt, ht] at hr
        cases hr
        exact .kill c p p₀ pid t₁ (user_some hp) hfind hkt
  · cases h

theorem fork_effect {kstack : Bool} (h : step s (.fork c kstack) = some (.ok s')) : Effect s (.fork c kstack) s' := by
  simp only [step] at h
  split at h
  · rename_i hu
    obtain ⟨p, hp⟩ := Option.isSome_iff_exists.1 hu.1
    cases h
    unfold State.fork
    split
    · exact .stay _ fun _ => id
    · rename_i np hnp
      cases kstack with
      | true => exact .fork c p np (user_some hp) hnp
      | false => exact .forkFail c np hnp
  · cases h

theorem forkCopy_effect {copied : Bool} (h : step s (.forkCopy c copied) = some (.ok s')) :
    Effect s (.forkCopy c copied) s' := by
  simp only [step] at h
  split at h
  · rename_i p np hcur
    simp only [Option.some.injEq, State.forkCopy] at h
    cases copied with
    | true => cases h; exact .forkCopy c p np hcur
    | false =>
      simp only [Bool.false_eq_true, if_false] at h
      split at h
      · cases h
      · cases h; exact .forkCopyFail c p np hcur
  · cases h

theorem forkReady_effect (h : step s (.forkReady c) = some (.ok s')) : Effect s (.forkReady c) s' := by
  simp only [step] at h
  split at h
  · rename_i p np hcur
    split at h
    · cases h; exact .forkReady c p np hcur
    · cases h
  · cases h

theorem threadCreate_effect {kstack : Bool} (h : step s (.threadCreate c kstack) = some (.ok s')) :
    Effect s (.threadCreate c kstack) s' := by
  simp only [step] at h
  split at h
  · rename_i p hu
    split at h
    · cases h
      unfold State.threadCreate
      split
      · exact .stay _ fun _ => id
      · rename_i thrd hthrd
        cases kstack with
        | true => exact .threadCreate c p thrd (user_some hu) hthrd
        | false => exact .threadCreateFail c p thrd (user_some hu) hthrd
    · cases h
  · cases h

theorem step_threadMap_effect {pages copied : Bool} (h : step s (.threadMap c pages copied) = some (.ok s')) :
    Effect s (.threadMap c pages copied) s' := by
  simp only [step] at h
  split at h
  · rename_i p thrd hcur
    split at h
    · split at h
      · cases h
      · rename_i m hm; exact threadMap_effect hcur hm (by simpa using h)
    · cases h
  · cases h

theorem threadReady_effect (h : step s (.threadReady c) = some (.ok s')) : Effect s (.threadReady c) s' := by
  simp only [step] at h
  split at h
  · rename_i p thrd hcur
    split at h
    · cases h; exact .threadReady c p thrd hcur
    · cases h
  · cases h

theorem execBegin_effect {two : Bool} (h : step s (.execBegin c two) = some (.ok s')) :
    Effect s (.execBegin c two) s' := by
  simp only [step] at h
  split at h
  · rename_i hu
    obtain ⟨p, hp⟩ := Option.isSome_iff_exists.1 hu
    cases h; exact .execBegin c p two (user_some hp)
  · cases h

theorem execSetup_effect (h : step s (.execSetup c) = some (.ok s')) : Effect s (.execSetup c) s' := by
  simp only [step] at h
  split at h
  · rename_i p two hcur; cases h; exact .execSetup c p two _ hcur (setup_newDir ..) (setup_hit ..)
  · cases h

theorem execKill_effect (h : step s (.execKill c) = some (.ok s')) : Effect s (.execKill c) s' := by
  simp only [step] at h
  split at h
  · rename_i p d w hcur
    exact killStep_effect hcur (Option.some.inj h)
  · cases h

theorem execLoaded_effect (h : step s (.execLoaded c) = some (.ok s')) : Effect s (.execLoaded c) s' := by
  simp only [step] at h
  split at h
  · rename_i p two d hcur; cases h; exact .execLoaded c p two d hcur
  · cases h

theorem step_execCommit_effect {sz : BitVec 32} (h : step s (.execCommit c sz) = some (.ok s')) :
    Effect s (.execCommit c sz) s' := by
  simp only [step] at h
  split at h
  · rename_i p two d hcur; exact execCommit_effect hcur (by simpa using h)
  · cases h

theorem execBad_effect (h : step s (.execBad c) = some (.ok s')) : Effect s (.execBad c) s' := by
  simp only [step] at h
  split at h
  · rename_i p two pgdir inOp hcur; cases h; exact .execBad c p two pgdir inOp hcur
  · cases h

theorem beginOp_effect (h : step s (.beginOp c) = some (.ok s')) : Effect s (.beginOp c) s' := by
  simp only [step] at h
  split at h
  · rename_i hu
    obtain ⟨p, hp⟩ := Option.isSome_iff_exists.1 hu
    cases h; exact .beginOp c p (user_some hp)
  · cases h

theorem endOp_effect (h : step s (.endOp c) = some (.ok s')) : Effect s (.endOp c) s' := by
  simp only [step] at h
  split at h
  · rename_i p hcur; cases h; exact .endOp c p hcur
  · cases h

theorem step_growproc_effect {k : BitVec 32} {ok : Bool} (h : step s (.growproc c k ok) = some (.ok s')) :
    Effect s (.growproc c k ok) s' := by
  simp only [step] at h
  split at h
  · rename_i p hu
    split at h
    · rename_i hfree
      split at h
      · cases h; exact .growFail c _ _ hfree
      · rename_i hlim
        split at h
        · cases h
        · rename_i m hm; exact growproc_effect hfree (user_some hu) hm hlim (by simpa using h)
    · cases h
  · cases h

theorem setmemorylimit_effect {pid : ℕ} {limit : BitVec 32} (h : step s (.setmemorylimit c pid limit) = some (.ok s')) :
    Effect s (.setmemorylimit c pid limit) s' := by
  simp only [step] at h
  split at h
  · rename_i hu
    obtain ⟨q, hq⟩ := Option.isSome_iff_exists.1 hu
    split at h
    · cases h; exact .stay _ fun _ => id
    · rename_i hneg
      split at h
      · cases h
      · rename_i p hp
        split at h
        · cases h; exact .stay _ fun _ => id
        · rename_i hsz
          cases h
          exact .setmemorylimit c q p pid limit (user_some hq) hp (by simpa using hneg) hsz
  · cases h

theorem step_growStore_effect (h : step s (.growStore c) = some (.ok s')) : Effect s (.growStore c) s' := by
  simp only [step] at h
  split at h
  · rename_i p m sz hcur; exact growStore_effect hcur (by simpa using h)
  · cases h

theorem limitStore_effect (h : step s (.limitStore c) = some (.ok s')) : Effect s (.limitStore c) s' := by
  simp only [step] at h
  split at h
  · rename_i p q limit hcur; cases h; exact .limitStore c p q limit hcur
  · cases h

/-- **Every step has its effect.** -/
theorem step_effect {e : Event n} (h : step s e = some (.ok s')) : Effect s e s' := by
  cases e with
  | sched c p => exact sched_effect h
  | yield c => exact yield_effect h
  | sleep c chan => exact sleep_effect h
  | wakeup chan => exact wakeup_effect h
  | exit c => exact exit_effect h
  | threadExit c retval => exact threadExit_effect h
  | wait c => exact wait_effect h
  | threadJoin c thread => exact threadJoin_effect h
  | kill c pid => exact kill_effect h
  | fork c kstack => exact fork_effect h
  | forkCopy c copied => exact forkCopy_effect h
  | forkReady c => exact forkReady_effect h
  | threadCreate c kstack => exact threadCreate_effect h
  | threadMap c pages copied => exact step_threadMap_effect h
  | threadReady c => exact threadReady_effect h
  | execBegin c two => exact execBegin_effect h
  | execSetup c => exact execSetup_effect h
  | execKill c => exact execKill_effect h
  | execLoaded c => exact execLoaded_effect h
  | execCommit c sz => exact step_execCommit_effect h
  | execBad c => exact execBad_effect h
  | beginOp c => exact beginOp_effect h
  | endOp c => exact endOp_effect h
  | growproc c k ok => exact step_growproc_effect h
  | growStore c => exact step_growStore_effect h
  | setmemorylimit c pid limit => exact setmemorylimit_effect h
  | limitStore c => exact limitStore_effect h

end Xv6.Lwp
