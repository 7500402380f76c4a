import Xv6.Console.Model

/-!
# The line discipline

A terminal has the bytes that readers can have, and the line that is being typed.

* `Term.key`, `Term.read`: what keys and reads do to it.
* `Shows`: the ring of `input` has the bytes of a terminal.
* **`console_refines`**: the console behaves as a terminal, in every run.
* `Books`: who got which bytes.
* **`typed_is_read`**: the bytes that were entered are read once, in their order, and what a call returns is a line, or
  a part of one.
-/

namespace Xv6.Console

structure Term where
  ready : List Byte
  line : List Byte

def Term.size (t : Term) : ℕ := t.ready.length + t.line.length

/-- A byte is typed; the end of a line, or of the room, enters the line. -/
def Term.put (t : Term) (c : Byte) : Term :=
  if c = newline ∨ c = C 'D' ∨ t.size + 1 = INPUT_BUF then ⟨t.ready ++ t.line ++ [c], []⟩
  else { t with line := t.line ++ [c] }

def Term.key (t : Term) (c : Byte) : Term :=
  if c = C 'P' then t
  else if c = C 'U' then { t with line := [] }
  else if c = C 'H' ∨ c = delete then { t with line := t.line.dropLast }
  else if c ≠ 0 ∧ t.size < INPUT_BUF then t.put (if c = carriage then newline else c)
  else t

def readLine (target : ℕ) : ℕ → List Byte → List Byte → List Byte × Outcome
  | 0, ready, dst => (ready, .done dst)
  | n + 1, [], dst => ([], .asleep (n + 1) dst)
  | n + 1, c :: ready, dst =>
    if c = C 'D' then (if n + 1 < target then c :: ready else ready, .done dst)
    else if c = newline then (ready, .done (dst ++ [c]))
    else readLine target n ready (dst ++ [c])

def Term.read (target n : ℕ) (t : Term) (dst : List Byte) : Term × Outcome :=
  ({ t with ready := (readLine target n t.ready dst).1 }, (readLine target n t.ready dst).2)

def discipline : Dev Term := ⟨Term.key, Term.read, Term.ready⟩

/-- There is room, and the line that is being typed has not ended. -/
structure Term.Fits (t : Term) : Prop where
  room : t.size ≤ INPUT_BUF
  line : ∀ c ∈ t.line, c ≠ newline ∧ c ≠ C 'D'

def Input.term (x : Input) : Term := ⟨Ring.items x.buf x.r x.w, Ring.items x.buf x.w x.e⟩

/-! ## The ring -/

variable {x : Input} {c : Byte}

theorem INPUT_BUF_dvd : INPUT_BUF ∣ 2 ^ 32 := by decide

theorem size_eq (x : Input) : x.term.size = Ring.held x.r x.w + Ring.held x.w x.e := by
  unfold Term.size Input.term
  rw [Ring.items_length, Ring.items_length]

/-- Both parts of the ring lie one after the other. -/
theorem held_eq (h : x.term.size ≤ INPUT_BUF) : Ring.held x.r x.e = x.term.size := by
  have hsize := size_eq x
  have hN : INPUT_BUF = 128 := rfl
  rw [hsize]
  apply Ring.held_add
  omega

theorem items_eq (h : x.term.size ≤ INPUT_BUF) : Ring.items x.buf x.r x.e = x.term.ready ++ x.term.line := by
  have hsize := size_eq x
  have hN : INPUT_BUF = 128 := rfl
  apply Ring.items_append
  omega

theorem store_line (h : x.term.size < INPUT_BUF) (c : Byte) :
    (x.store c).term = { x.term with line := x.term.line ++ [c] } := by
  have hsize := size_eq x
  have hN : INPUT_BUF = 128 := rfl
  have hheld := held_eq (x := x) (by omega)
  have hline : Ring.items (Function.update x.buf (Ring.slot x.e) c) x.w (x.e + 1#32) = x.term.line ++ [c] :=
    Ring.items_push INPUT_BUF_dvd x.buf c (by omega) (by omega)
  -- the slot is not one of those from `r` to `e`
  have hold : Ring.items (Function.update x.buf (Ring.slot x.e) c) x.r x.e = x.term.ready ++ x.term.line := by
    rw [Ring.items_update INPUT_BUF_dvd x.buf c (by omega), items_eq (by omega)]
  have hcut : Ring.items (Function.update x.buf (Ring.slot x.e) c) x.r x.w ++
      Ring.items (Function.update x.buf (Ring.slot x.e) c) x.w x.e = x.term.ready ++ x.term.line := by
    rw [← hold]
    exact (Ring.items_append _ (by omega)).symm
  have hready := (List.append_inj hcut (by simp [Input.term])).1
  show Term.mk _ _ = Term.mk _ _
  rw [← hline, ← hready]
  rfl

theorem put_term (h : x.term.size < INPUT_BUF) (c : Byte) : (x.put c).term = x.term.put c := by
  have hN : INPUT_BUF = 128 := rfl
  have hheld := held_eq (x := x) (by omega)
  have hstore := store_line h c
  have hlen : (x.store c).term.size = x.term.size + 1 := by
    rw [hstore]
    simp [Term.size]
    omega
  -- the test for a full ring
  have hfull : x.e + 1#32 = x.r + 128#32 ↔ x.term.size + 1 = INPUT_BUF := by
    have hpush := Ring.held_push (r := x.r) (w := x.e) (by omega)
    have hiff := Ring.held_eq_iff (r := x.r) (w := x.e + 1#32) (n := 128) (by decide)
    rw [← hiff, hpush, hheld]
  have hend : (c = newline ∨ c = C 'D' ∨ x.e + 1#32 = x.r + 128#32) ↔
      (c = newline ∨ c = C 'D' ∨ x.term.size + 1 = INPUT_BUF) := by rw [hfull]
  unfold Input.put Term.put
  by_cases hc : c = newline ∨ c = C 'D' ∨ x.term.size + 1 = INPUT_BUF
  · rw [if_pos hc, if_pos (hend.2 hc)]
    have hall := items_eq (x := x.store c) (by omega)
    rw [hstore] at hall
    show Term.mk _ _ = Term.mk _ _
    have hnil : Ring.items (x.store c).buf (x.store c).e (x.store c).e = [] := Ring.items_self ..
    rw [List.append_assoc]
    congr 1
  · rw [if_neg hc, if_neg (fun h' => hc (hend.1 h'))]
    exact hstore

theorem line_eq_nil : x.term.line = [] ↔ x.e = x.w := by
  unfold Input.term
  rw [Ring.items_eq_nil]
  exact eq_comm

theorem unput_term (h : x.e ≠ x.w) : ({ x with e := x.e - 1#32 } : Input).term =
    { x.term with line := x.term.line.dropLast } := by
  have hline : x.term.line = _ := Ring.items_unpush x.buf (Ne.symm h)
  show Term.mk _ _ = Term.mk _ _
  rw [hline, List.dropLast_concat]
  rfl

/-- The loop stops at `w`. -/
theorem killLoop_term {k : ℕ} (hk : Ring.held x.w x.e ≤ k) (hline : ∀ c ∈ x.term.line, c ≠ newline) :
    (killLoop k x).term = { x.term with line := [] } := by
  induction k generalizing x with
  | zero =>
    have he : x.w = x.e := Ring.held_eq_zero.1 (by omega)
    have hnil := line_eq_nil.2 he.symm
    show x.term = _
    rw [← hnil]
  | succ k ih =>
    unfold killLoop
    by_cases he : x.e = x.w
    · have hnil := line_eq_nil.2 he
      rw [if_neg (fun h => h.1 he), ← hnil]
    · have hsplit : x.term.line = _ := Ring.items_unpush x.buf (Ne.symm he)
      have hlast : x.buf (Ring.slot (x.e - 1#32)) ≠ newline := hline _ (by rw [hsplit]; simp)
      have hheld := Ring.held_unpush (r := x.w) (w := x.e) (Ne.symm he)
      rw [if_pos ⟨he, hlast⟩, ih (x := { x with e := x.e - 1#32 }) (by show Ring.held x.w (x.e - 1#32) ≤ k; omega) ?_]
      · rw [unput_term he]
      · rw [unput_term he]
        exact fun c hc => hline c (List.mem_of_mem_dropLast hc)

theorem key_term (h : x.term.Fits) (c : Byte) : (x.key c).term = x.term.key c := by
  have hN : INPUT_BUF = 128 := rfl
  have hheld := held_eq h.room
  unfold Input.key Term.key
  by_cases hp : c = C 'P'
  · rw [if_pos hp, if_pos hp]
  rw [if_neg hp, if_neg hp]
  by_cases hu : c = C 'U'
  · rw [if_pos hu, if_pos hu]
    exact killLoop_term le_rfl fun c hc => (h.line c hc).1
  rw [if_neg hu, if_neg hu]
  by_cases hh : c = C 'H' ∨ c = delete
  · rw [if_pos hh, if_pos hh]
    by_cases he : x.e = x.w
    · have hnil := line_eq_nil.2 he
      rw [if_neg (not_not.2 he), hnil, List.dropLast_nil, ← hnil]
    · rw [if_pos he, unput_term he]
  rw [if_neg hh, if_neg hh]
  have hroom : x.e - x.r < 128#32 ↔ x.term.size < INPUT_BUF := by
    rw [BitVec.lt_def, ← hheld]
    rfl
  by_cases hc : c ≠ 0 ∧ x.term.size < INPUT_BUF
  · rw [if_pos hc, if_pos ⟨hc.1, hroom.2 hc.2⟩, put_term hc.2]
  · rw [if_neg hc, if_neg (fun h' => hc ⟨h'.1, hroom.1 h'.2⟩)]

theorem read_term (target : ℕ) (n : ℕ) (x : Input) (dst : List Byte) :
    (x.read target n dst).1.term = (x.term.read target n dst).1 ∧
      (x.read target n dst).2 = (x.term.read target n dst).2 := by
  induction n generalizing x dst with
  | zero => exact ⟨rfl, rfl⟩
  | succ n ih =>
    unfold Input.read
    by_cases hr : x.r = x.w
    · have hnil : x.term.ready = [] := Ring.items_eq_nil.2 hr
      rw [if_pos hr]
      unfold Term.read
      rw [hnil]
      exact ⟨by rw [readLine, ← hnil], rfl⟩
    · have hcons : x.term.ready = x.buf (Ring.slot x.r) :: ({ x with r := x.r + 1#32 } : Input).term.ready :=
        Ring.items_pop x.buf hr
      rw [if_neg hr]
      unfold Term.read
      rw [hcons, readLine]
      by_cases hd : x.buf (Ring.slot x.r) = C 'D'
      · rw [if_pos hd]
        simp only [if_pos hd]
        by_cases hn : n + 1 < target
        · simp only [if_pos hn, and_true]
          -- the byte is back in the ring
          rw [BitVec.add_sub_cancel, ← hcons]
        · simp only [if_neg hn, and_true]
          rfl
      · simp only [if_neg hd]
        by_cases hnl : x.buf (Ring.slot x.r) = newline
        · simp only [if_pos hnl, and_true]
          rfl
        · simp only [if_neg hnl]
          exact ih { x with r := x.r + 1#32 } (dst ++ [x.buf (Ring.slot x.r)])

/-! ## The terminal -/

variable {t : Term}

theorem put_fits (h : t.Fits) (hsize : t.size < INPUT_BUF) (c : Byte) : (t.put c).Fits := by
  unfold Term.put
  by_cases hc : c = newline ∨ c = C 'D' ∨ t.size + 1 = INPUT_BUF
  · rw [if_pos hc]
    refine ⟨?_, fun c hc => by cases hc⟩
    simp only [Term.size, List.length_append, List.length_singleton, List.length_nil] at hsize ⊢
    omega
  · rw [if_neg hc]
    constructor
    · simp only [Term.size, List.length_append, List.length_singleton] at hsize ⊢
      omega
    · intro c' hc'
      rcases List.mem_append.1 hc' with hc' | hc'
      · exact h.line c' hc'
      · rw [List.mem_singleton.1 hc']
        exact ⟨fun h1 => hc (.inl h1), fun h1 => hc (.inr (.inl h1))⟩

theorem key_fits (h : t.Fits) (c : Byte) : (t.key c).Fits := by
  have hroom := h.room
  unfold Term.key
  split
  · exact h
  split
  · refine ⟨?_, fun c hc => by cases hc⟩
    simp only [Term.size, List.length_nil] at hroom ⊢
    omega
  split
  · constructor
    · simp only [Term.size, List.length_dropLast] at hroom ⊢
      omega
    · exact fun c hc => h.line c (List.mem_of_mem_dropLast hc)
  split
  · rename_i hc
    exact put_fits h hc.2 _
  · exact h

theorem put_ready (t : Term) (c : Byte) : ∃ l, (t.put c).ready = t.ready ++ l := by
  unfold Term.put
  split
  · exact ⟨_, List.append_assoc ..⟩
  · exact ⟨[], (List.append_nil _).symm⟩

/-- A key enters bytes at the end. -/
theorem key_ready (t : Term) (c : Byte) : ∃ l, (t.key c).ready = t.ready ++ l := by
  have hsame : t.ready = t.ready ++ [] := (List.append_nil _).symm
  unfold Term.key
  split
  · exact ⟨[], hsame⟩
  split
  · exact ⟨[], hsame⟩
  split
  · exact ⟨[], hsame⟩
  split
  · exact put_ready t _
  · exact ⟨[], hsame⟩

theorem keys_ready (keys : List Byte) (t : Term) : ∃ l, (keys.foldl Term.key t).ready = t.ready ++ l := by
  induction keys generalizing t with
  | nil => exact ⟨[], (List.append_nil _).symm⟩
  | cons c keys ih =>
    obtain ⟨l₁, h1⟩ := key_ready t c
    obtain ⟨l₂, h2⟩ := ih (t.key c)
    exact ⟨l₁ ++ l₂, by rw [List.foldl_cons, h2, h1, List.append_assoc]⟩

theorem keys_term (keys : List Byte) {x : Input} (h : x.term.Fits) :
    (keys.foldl Input.key x).term = keys.foldl Term.key x.term ∧ (keys.foldl Input.key x).term.Fits := by
  induction keys generalizing x with
  | nil => exact ⟨rfl, h⟩
  | cons c keys ih =>
    have hkey := key_term h c
    obtain ⟨h1, h2⟩ := ih (x := x.key c) (by rw [hkey]; exact key_fits h c)
    rw [hkey] at h1
    exact ⟨h1, h2⟩

def Outcome.bytes : Outcome → List Byte
  | .done dst => dst
  | .asleep _ dst => dst

/-- No end of a line or of the file. -/
def Open (dst : List Byte) : Prop := ∀ c ∈ dst, c ≠ newline ∧ c ≠ C 'D'

/-- A line, or a part of one. -/
def Closed (dst : List Byte) : Prop := Open dst ∨ ∃ l, Open l ∧ dst = l ++ [newline]

/-- What a read leaves in `dst`. -/
def Outcome.Fine (target : ℕ) : Outcome → Prop
  | .done dst => dst.length ≤ target ∧ Closed dst
  | .asleep n dst => dst.length + n = target ∧ Open dst

theorem Open.snoc {dst : List Byte} {c : Byte} (h : Open dst) (hn : c ≠ newline) (hd : c ≠ C 'D') :
    Open (dst ++ [c]) := by
  intro c' hc'
  rcases List.mem_append.1 hc' with hc' | hc'
  · exact h c' hc'
  · rw [List.mem_singleton.1 hc']
    exact ⟨hn, hd⟩

/-- A read takes bytes from the front, and gives them to its caller but for an end of the file. -/
theorem readLine_taken (target n : ℕ) (ready dst : List Byte) : ∃ l, ready = l ++ (readLine target n ready dst).1 ∧
    (readLine target n ready dst).2.bytes = dst ++ l.filter (· ≠ C 'D') := by
  induction n generalizing ready dst with
  | zero => exact ⟨[], rfl, (List.append_nil _).symm⟩
  | succ n ih =>
    cases ready with
    | nil => exact ⟨[], rfl, (List.append_nil _).symm⟩
    | cons c ready =>
      rw [readLine]
      by_cases hd : c = C 'D'
      · rw [if_pos hd]
        by_cases hn : n + 1 < target
        · exact ⟨[], by rw [if_pos hn]; rfl, (List.append_nil _).symm⟩
        · refine ⟨[c], by rw [if_neg hn]; rfl, ?_⟩
          rw [hd]
          exact (List.append_nil _).symm
      rw [if_neg hd]
      by_cases hn : c = newline
      · rw [if_pos hn]
        exact ⟨[c], rfl, by simp [Outcome.bytes, hd]⟩
      · rw [if_neg hn]
        obtain ⟨l, hl, hbytes⟩ := ih ready (dst ++ [c])
        refine ⟨c :: l, by rw [List.cons_append, ← hl], ?_⟩
        rw [hbytes]
        simp [hd]

/-- It stops at the end of a line, and has no more than it was asked for. -/
theorem readLine_fine {target : ℕ} (n : ℕ) (ready dst : List Byte) (hlen : dst.length + n = target) (hopen : Open dst) :
    (readLine target n ready dst).2.Fine target := by
  induction n generalizing ready dst with
  | zero => exact ⟨by omega, .inl hopen⟩
  | succ n ih =>
    cases ready with
    | nil => exact ⟨hlen, hopen⟩
    | cons c ready =>
      have hsnoc : (dst ++ [c]).length + n = target := by
        rw [List.length_append, List.length_singleton]
        omega
      rw [readLine]
      by_cases hd : c = C 'D'
      · rw [if_pos hd]
        exact ⟨by omega, .inl hopen⟩
      rw [if_neg hd]
      by_cases hn : c = newline
      · rw [if_pos hn, hn]
        rw [hn] at hsnoc
        exact ⟨by omega, .inr ⟨dst, hopen, rfl⟩⟩
      · rw [if_neg hn]
        exact ih ready (dst ++ [c]) hsnoc (hopen.snoc hn hd)

/-! ## The runs -/

variable {P : Type*} [DecidableEq P] {s s' : State Input P} {es : List (Event P)}

/-- The terminal that the console shows. -/
def State.term (s : State Input P) : State Term P :=
  ⟨s.input.term, s.reading, s.killed, s.returns, s.entered, s.taken⟩

theorem go_term (s : State Input P) (p : P) (a : Reading) : (s.go console p a).term = s.term.go discipline p a := by
  obtain ⟨hinput, hout⟩ := read_term a.target a.n s.input a.dst
  have htake : (s.take console p (s.input.read a.target a.n a.dst).1).term =
      s.term.take discipline p (s.input.term.read a.target a.n a.dst).1 := by
    rw [← hinput]
    rfl
  have hstart : s.term.input = s.input.term := rfl
  unfold State.go
  simp only [console, discipline, hstart] at htake ⊢
  rw [← hout, ← htake]
  cases (s.input.read a.target a.n a.dst).2 with
  | done dst => rfl
  | asleep n dst =>
    have hkilled : s.term.killed p = s.killed p := rfl
    simp only [hkilled]
    split <;> rfl

theorem go_fits (h : s.input.term.Fits) (p : P) (a : Reading) : (s.go console p a).input.term.Fits := by
  have hinput : (s.go console p a).input = (s.input.read a.target a.n a.dst).1 := by
    unfold State.go
    simp only [console]
    cases (s.input.read a.target a.n a.dst).2 with
    | done dst => rfl
    | asleep n dst => simp only; split <;> rfl
  have hroom := h.room
  rw [hinput, (read_term a.target a.n s.input a.dst).1]
  refine ⟨?_, h.line⟩
  obtain ⟨l, hl, -⟩ := readLine_taken a.target a.n s.input.term.ready a.dst
  have hlen := congrArg List.length hl
  rw [List.length_append] at hlen
  simp only [Term.size, Term.read] at hroom ⊢
  omega

theorem step_term {e : Event P} (h : s.input.term.Fits) (hs : (machine console P).step s e = some (.ok s')) :
    (machine discipline P).step s.term e = some (.ok s'.term) ∧ s'.input.term.Fits := by
  cases e with
  | consoleintr keys =>
    cases hs
    obtain ⟨hkeys, hfits⟩ := keys_term keys h
    refine ⟨?_, hfits⟩
    show some (Except.ok (s.term.type discipline keys)) = some (Except.ok (s.type console keys).term)
    have hstart : s.term.input = s.input.term := rfl
    unfold State.type
    simp only [discipline, console, hstart, ← hkeys]
    rfl
  | consoleread p n =>
    simp only [machine, step] at hs ⊢
    have hreading : s.term.reading p = s.reading p := rfl
    rw [hreading]
    split at hs
    · cases hs
      rename_i hp
      rw [if_pos hp, go_term]
      exact ⟨rfl, go_fits h p _⟩
    · cases hs
  | run p =>
    simp only [machine, step] at hs ⊢
    have hreading : s.term.reading p = s.reading p := rfl
    rw [hreading]
    cases hp : s.reading p with
    | none => rw [hp] at hs; cases hs
    | some a =>
      rw [hp] at hs
      cases hs
      rw [go_term]
      exact ⟨rfl, go_fits h p a⟩
  | kill p =>
    cases hs
    exact ⟨rfl, h⟩

/-- **The console behaves as a terminal**: keys edit the line that is typed, a line that has ended can be read, and no
more than `INPUT_BUF` bytes wait. -/
theorem console_refines (h : (machine console P).run (start P Input.zero) es = some (.ok s)) :
    (machine discipline P).run (start P ⟨[], []⟩) es = some (.ok s.term) ∧ s.input.term.Fits := by
  refine Machine.run_induct (P := fun es s => (machine discipline P).run (start P ⟨[], []⟩) es = some (.ok s.term) ∧
    s.input.term.Fits) ?_ ?_ es s h
  · have hzero : Input.zero.term = ⟨[], []⟩ := by
      show Term.mk (Ring.items Input.zero.buf 0#32 0#32) (Ring.items Input.zero.buf 0#32 0#32) = _
      rw [Ring.items_self]
    have hterm : (start P Input.zero).term = start P ⟨[], []⟩ := by
      show State.mk _ _ _ _ _ _ = _
      rw [← hzero]
      rfl
    have hinput : (start P Input.zero).input.term = ⟨[], []⟩ := hzero
    rw [hterm, hinput]
    exact ⟨rfl, by decide, fun c hc => by cases hc⟩
  · rintro es s e s' - ⟨hrun, hfits⟩ hs
    obtain ⟨hstep, hfits'⟩ := step_term hfits hs
    exact ⟨(Machine.run_snoc es e _ _).2 ⟨s.term, hrun, hstep⟩, hfits'⟩

/-- Two keys are typed with an error between them, and process 0 reads the line. -/
def typeAndRead : List (Event ℕ) :=
  [.consoleread 0 5, .consoleintr [97, 98, 8], .consoleintr [99, 13], .run 0]

theorem console_refines_line : ∃ s, (machine console ℕ).run (start ℕ Input.zero) typeAndRead = some (.ok s) ∧
    s.returns.map Return.dst = [[97, 99, newline]] ∧
    (machine discipline ℕ).run (start ℕ ⟨[], []⟩) typeAndRead = some (.ok s.term) := by
  obtain ⟨s, hs, hr⟩ : ∃ s, (machine console ℕ).run (start ℕ Input.zero) typeAndRead = some (.ok s) ∧
      s.returns.map Return.dst = [[97, 99, newline]] := Machine.run_of_reaches (by decide)
  exact ⟨s, hs, hr, (console_refines hs).1⟩

/-! ## Who reads what -/

section Books

variable {I : Type*}

/-- The bytes that `p` has taken, but for ends of the file. -/
def State.takenBy (s : State I P) (p : P) : List Byte :=
  ((s.taken.filter fun x => x.1 = p).map Prod.snd).filter (· ≠ C 'D')

/-- What the calls of `p` have returned. -/
def State.returnedTo (s : State I P) (p : P) : List Byte := (s.returns.filter fun r => r.proc = p).flatMap Return.dst

/-- What `p` has read in the call that it is in. -/
def State.current (s : State I P) (p : P) : List Byte := ((s.reading p).map Reading.dst).getD []

/-- A call returns what it has read, or -1 to a killed process. -/
def State.Returned (s : State I P) (r : Return P) : Prop :=
  r.dst.length ≤ r.target ∧ Closed r.dst ∧ (r.ret = r.dst.length ∨ r.ret = -1 ∧ s.killed r.proc = true)

end Books

structure Books (s : State Term P) : Prop where
  order : s.entered = s.taken.map Prod.snd ++ s.input.ready
  got : ∀ p, s.takenBy p = s.returnedTo p ++ s.current p
  reading : ∀ p a, s.reading p = some a → a.dst.length + a.n = a.target ∧ Open a.dst
  returns : ∀ r ∈ s.returns, s.Returned r

/-- The books while `p` reads, and has `dst`. -/
structure Reads (s : State Term P) (p : P) (dst : List Byte) : Prop where
  order : s.entered = s.taken.map Prod.snd ++ s.input.ready
  self : s.takenBy p = s.returnedTo p ++ dst
  got : ∀ q, q ≠ p → s.takenBy q = s.returnedTo q ++ s.current q
  reading : ∀ q a, s.reading q = some a → a.dst.length + a.n = a.target ∧ Open a.dst
  returns : ∀ r ∈ s.returns, s.Returned r

variable {t t' : State Term P} {p : P} {a : Reading} {dst : List Byte}

omit [DecidableEq P] in
theorem taken_take (t : State Term P) (p : P) {l rest : List Byte} (h : t.input.ready = l ++ rest) (line : List Byte) :
    (t.take discipline p ⟨rest, line⟩).taken = t.taken ++ l.map (Prod.mk p) := by
  have htake : t.input.ready.take (t.input.ready.length - rest.length) = l := by
    rw [h, List.length_append, Nat.add_sub_cancel, List.take_left]
  rw [← htake]
  rfl

theorem takenBy_take (t : State Term P) (p q : P) {l rest : List Byte} (h : t.input.ready = l ++ rest)
    (line : List Byte) : (t.take discipline p ⟨rest, line⟩).takenBy q =
      t.takenBy q ++ if q = p then l.filter (· ≠ C 'D') else [] := by
  unfold State.takenBy
  rw [taken_take t p h, List.filter_append, List.map_append, List.filter_append]
  congr 1
  by_cases hq : q = p
  · rw [if_pos hq, hq]
    congr 1
    rw [List.filter_map, List.map_map]
    simp [Function.comp_def]
  · rw [if_neg hq, List.filter_map]
    simp [Function.comp_def, Ne.symm hq]

theorem Books.take (h : Books t) (hcur : t.current p = a.dst) :
    Reads (t.take discipline p (t.input.read a.target a.n a.dst).1) p (t.input.read a.target a.n a.dst).2.bytes := by
  obtain ⟨l, hl, hbytes⟩ := readLine_taken a.target a.n t.input.ready a.dst
  have hread : (t.input.read a.target a.n a.dst).2.bytes = a.dst ++ l.filter (· ≠ C 'D') := hbytes
  constructor
  · have htaken : (t.take discipline p (t.input.read a.target a.n a.dst).1).taken = t.taken ++ l.map (Prod.mk p) :=
      taken_take t p hl t.input.line
    have hsnd : (l.map (Prod.mk p)).map Prod.snd = l := by simp [Function.comp_def]
    rw [htaken, List.map_append, hsnd, List.append_assoc]
    have horder := h.order
    rw [hl] at horder
    exact horder
  · have hp := takenBy_take t p p hl t.input.line
    rw [if_pos rfl, h.got p, hcur, List.append_assoc] at hp
    rw [hread]
    exact hp
  · intro q hq
    have hp := takenBy_take t p q hl t.input.line
    rw [if_neg hq, List.append_nil, h.got q] at hp
    exact hp
  · exact h.reading
  · exact h.returns

theorem Reads.finish (h : Reads t p dst) (hlen : dst.length ≤ a.target) (hclosed : Closed dst) {ret : ℤ}
    (hret : ret = dst.length ∨ ret = -1 ∧ t.killed p = true) : Books (t.finish p a dst ret) := by
  have hreturned : ∀ q, (t.finish p a dst ret).returnedTo q = t.returnedTo q ++ if q = p then dst else [] := by
    intro q
    unfold State.returnedTo State.finish
    rw [List.filter_append, List.flatMap_append]
    by_cases hq : q = p
    · simp [hq]
    · simp [hq, Ne.symm hq]
  have hself : (t.finish p a dst ret).reading p = none := Function.update_self ..
  have hne : ∀ {q}, q ≠ p → (t.finish p a dst ret).reading q = t.reading q := fun hq => Function.update_of_ne hq ..
  refine ⟨h.order, fun q => ?_, fun q b hb => ?_, fun r hr => ?_⟩
  · rw [hreturned q]
    by_cases hq : q = p
    · have hcur : (t.finish p a dst ret).current p = [] := by unfold State.current; rw [hself]; rfl
      rw [if_pos hq, hq, hcur, List.append_nil]
      exact h.self
    · have hcur : (t.finish p a dst ret).current q = t.current q := by unfold State.current; rw [hne hq]
      rw [if_neg hq, hcur, List.append_nil]
      exact h.got q hq
  · by_cases hq : q = p
    · rw [hq, hself] at hb
      cases hb
    · rw [hne hq] at hb
      exact h.reading q b hb
  · rcases List.mem_append.1 hr with hr | hr
    · exact h.returns r hr
    · rw [List.mem_singleton.1 hr]
      exact ⟨hlen, hclosed, hret⟩

theorem Reads.sleep (h : Reads t p dst) {n : ℕ} (hlen : dst.length + n = a.target) (hopen : Open dst) :
    Books (t.sleep p ⟨a.target, n, dst⟩) := by
  have hself : (t.sleep p ⟨a.target, n, dst⟩).reading p = some ⟨a.target, n, dst⟩ := Function.update_self ..
  have hne : ∀ {q}, q ≠ p → (t.sleep p ⟨a.target, n, dst⟩).reading q = t.reading q := fun hq => Function.update_of_ne hq ..
  refine ⟨h.order, fun q => ?_, fun q b hb => ?_, h.returns⟩
  · by_cases hq : q = p
    · have hcur : (t.sleep p ⟨a.target, n, dst⟩).current p = dst := by unfold State.current; rw [hself]; rfl
      rw [hq, hcur]
      exact h.self
    · have hcur : (t.sleep p ⟨a.target, n, dst⟩).current q = t.current q := by unfold State.current; rw [hne hq]
      rw [hcur]
      exact h.got q hq
  · by_cases hq : q = p
    · rw [hq, hself] at hb
      cases hb
      exact ⟨hlen, hopen⟩
    · rw [hne hq] at hb
      exact h.reading q b hb

theorem Books.go (h : Books t) (hcur : t.current p = a.dst) (hlen : a.dst.length + a.n = a.target) (hopen : Open a.dst) :
    Books (t.go discipline p a) := by
  have hreads := h.take hcur
  have hfine : (t.input.read a.target a.n a.dst).2.Fine a.target := readLine_fine a.n t.input.ready a.dst hlen hopen
  unfold State.go
  simp only [discipline]
  cases hout : (t.input.read a.target a.n a.dst).2 with
  | done dst =>
    rw [hout] at hreads hfine
    exact hreads.finish hfine.1 hfine.2 (.inl rfl)
  | asleep n dst =>
    rw [hout] at hreads hfine
    have hle : dst.length ≤ a.target := by
      have hsum := hfine.1
      omega
    by_cases hk : t.killed p = true
    · simp only [if_pos hk]
      exact hreads.finish hle (.inl hfine.2) (.inr ⟨rfl, hk⟩)
    · simp only [if_neg hk]
      exact hreads.sleep hfine.1 hfine.2

theorem Books.step {e : Event P} (h : Books t) (hs : (machine discipline P).step t e = some (.ok t')) : Books t' := by
  cases e with
  | consoleintr keys =>
    cases hs
    obtain ⟨l, hl⟩ := keys_ready keys t.input
    refine ⟨?_, h.got, h.reading, h.returns⟩
    show t.entered ++ (keys.foldl Term.key t.input).ready.drop t.input.ready.length =
      t.taken.map Prod.snd ++ (keys.foldl Term.key t.input).ready
    rw [hl, List.drop_left, h.order, List.append_assoc]
  | consoleread p n =>
    simp only [machine, Console.step] at hs
    split at hs
    · rename_i hp
      cases hs
      refine h.go ?_ (Nat.zero_add n) fun c hc => by cases hc
      unfold State.current
      rw [Option.isNone_iff_eq_none.1 hp]
      rfl
    · cases hs
  | run p =>
    simp only [machine, Console.step] at hs
    cases hp : t.reading p with
    | none => rw [hp] at hs; cases hs
    | some a =>
      rw [hp] at hs
      cases hs
      obtain ⟨hlen, hopen⟩ := h.reading p a hp
      refine h.go ?_ hlen hopen
      unfold State.current
      rw [hp]
      rfl
  | kill p =>
    cases hs
    refine ⟨h.order, h.got, h.reading, fun r hr => ?_⟩
    obtain ⟨hlen, hclosed, hret⟩ := h.returns r hr
    refine ⟨hlen, hclosed, hret.imp id fun ⟨h1, hk⟩ => ⟨h1, ?_⟩⟩
    show Function.update t.killed p true r.proc = true
    by_cases hp : r.proc = p
    · rw [hp, Function.update_self]
    · rw [Function.update_of_ne hp]
      exact hk

theorem start_books : Books (start P (⟨[], []⟩ : Term)) where
  order := rfl
  got _ := rfl
  reading p a hp := by cases hp
  returns r hr := by cases hr

/-- **What is typed is read**: the bytes that were entered are taken once and in their order, and who takes them returns
them but for ends of the file, line by line. -/
theorem typed_is_read (h : (machine console P).run (start P Input.zero) es = some (.ok s)) :
    s.entered = s.taken.map Prod.snd ++ s.input.ready ∧ (∀ p, s.takenBy p = s.returnedTo p ++ s.current p) ∧
      ∀ r ∈ s.returns, s.Returned r := by
  have hb : Books s.term := Machine.run_inv start_books (fun _ _ _ hI hs => hI.step hs) (console_refines h).1
  exact ⟨hb.order, hb.got, hb.returns⟩

theorem typed_is_read_line : ∃ s, (machine console ℕ).run (start ℕ Input.zero) typeAndRead = some (.ok s) ∧
    s.entered = [97, 99, newline] ∧ s.takenBy 0 = s.returnedTo 0 ++ s.current 0 := by
  obtain ⟨s, hs, he⟩ : ∃ s, (machine console ℕ).run (start ℕ Input.zero) typeAndRead = some (.ok s) ∧
      s.entered = [97, 99, newline] := Machine.run_of_reaches (by decide)
  exact ⟨s, hs, he, (typed_is_read hs).2.1 0⟩

end Xv6.Console
