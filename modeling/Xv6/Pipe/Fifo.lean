import Xv6.Pipe.Life

/-!
# A pipe is a queue of bytes

* `Fifo`: the bytes written are the bytes read and then the bytes in the buffer, in order, however often `nread` and
  `nwrite` wrap around; what each process wrote and read is what its calls say, and a read takes bytes that follow one
  another.
* `Quiet`, `effect_cases`: an action puts a byte, takes a byte, ends a call, or changes none of that.
* **`pipe_fifo`**: every run keeps this.
* **`end_of_file`**: a read that was asked for bytes and returned 0 is the end: the write end is closed, and all that
  was ever written has been read.
-/

namespace Xv6.Pipes

variable {P : Type*}

/-- What the write of a process has put into the buffer so far. -/
def storing : Option Label → List Byte
  | some (.writeLoop addr i) | some (.writeFull addr i) | some (.writeSleep addr i)
  | some (.writeRelease addr i _) => addr.take i
  | some (.writeWakeup addr) => addr
  | _ => []

/-- What the read of a process has taken out so far. -/
def copied : Option Label → List Byte
  | some (.readCopy _ acc) | some (.readWakeup _ acc) | some (.readRelease _ acc _) => acc
  | _ => []

/-- `pipewrite` returns the number of bytes, having put all of them into the buffer, or -1. -/
def WriteOk (addr : List Byte) (stored : ℕ) (ret : ℤ) : Prop :=
  stored = addr.length ∧ ret = addr.length ∨ stored < addr.length ∧ ret = -1

/-- `piperead` returns how many bytes it took, at most as many as asked for, or -1. -/
def ReadOk (n : ℕ) (addr : List Byte) (ret : ℤ) : Prop :=
  addr.length ≤ n ∧ (ret = addr.length ∨ addr = [] ∧ ret = -1)

/-- The local variables of the calls. -/
def Label.Counts : Label → Prop
  | .writeLoop addr i => i ≤ addr.length
  | .writeFull addr i | .writeSleep addr i => i < addr.length
  | .writeRelease addr i ret => WriteOk addr i ret
  | .readCopy n acc | .readWakeup n acc => acc.length ≤ n
  | .readRelease n acc ret => ReadOk n acc ret
  | _ => True

variable [DecidableEq P]

/-- The bytes of one process. -/
def bytesOf (p : P) (l : List (P × Byte)) : List Byte := (l.filter fun x => x.1 = p).map Prod.snd

/-- What the finished writes of `p` put into the buffer. -/
def World.written (w : World P) (p : P) : List Byte :=
  (w.writes.filter fun c => c.proc = p).flatMap fun c => c.addr.take c.stored

/-- What the finished reads of `p` took. -/
def World.taken (w : World P) (p : P) : List Byte := (w.reads.filter fun c => c.proc = p).flatMap Read.addr

/-- What the finished reads took, one read after the other. -/
def World.took (w : World P) : List (P × Byte) := w.reads.flatMap fun c => c.addr.map (Prod.mk c.proc)

/-- The bytes in the buffer. -/
def Pipe.items (x : Pipe) : List Byte := Ring.items x.data x.nread x.nwrite

structure Fifo (w : World P) (pl : P → Option Label) : Prop where
  /-- first in, first out -/
  queue : w.wrote.map Prod.snd = w.got.map Prod.snd ++ w.pipe.items
  room : w.pipe.items.length ≤ PIPESIZE
  wrote : ∀ p, bytesOf p w.wrote = w.written p ++ storing (pl p)
  got : ∀ p, bytesOf p w.got = w.taken p ++ copied (pl p)
  /-- no read is cut by another: the bytes of each are consecutive -/
  apart : (∀ p, copied (pl p) = []) → w.got = w.took
  going : ∀ p, copied (pl p) ≠ [] → w.got = w.took ++ (copied (pl p)).map (Prod.mk p)
  writes : ∀ c ∈ w.writes, WriteOk c.addr c.stored c.ret
  reads : ∀ c ∈ w.reads, ReadOk c.n c.addr c.ret
  counts : ∀ p l, pl p = some l → l.Counts

/-! ## The buffer -/

section Buffer

variable {x : Pipe}

theorem held_eq_length (x : Pipe) : Ring.held x.nread x.nwrite = x.items.length := (Ring.items_length ..).symm

theorem full_iff : x.Full ↔ x.items.length = PIPESIZE := by
  rw [← held_eq_length]
  exact (Ring.held_eq_iff (by decide)).symm

theorem empty_iff : x.Empty ↔ x.items = [] := Ring.items_eq_nil.symm

/-- The buffer gets a byte at its end. -/
theorem items_put (h : x.items.length < PIPESIZE) (b : Byte) : (x.put b).items = x.items ++ [b] := by
  rw [← held_eq_length] at h
  have hN : PIPESIZE ∣ 2 ^ 32 := by decide
  have hsize : PIPESIZE = 512 := rfl
  have hk : Ring.held x.nread x.nwrite + 1 < 2 ^ 32 := by omega
  exact Ring.items_push hN x.data b h hk

/-- The buffer loses its first byte. -/
theorem items_take (h : ¬ x.Empty) : x.items = x.front :: x.take.items := Ring.items_pop x.data h

end Buffer

/-! ## The actions -/

omit [DecidableEq P] in
/-- An action that leaves the bytes and the finished calls alone. -/
structure Quiet (w d : World P) (l : Label) (o : Option Label) : Prop where
  items : d.pipe.items = w.pipe.items
  wrote : d.wrote = w.wrote
  got : d.got = w.got
  writes : d.writes = w.writes
  reads : d.reads = w.reads
  storing : Pipes.storing o = Pipes.storing (some l)
  copied : Pipes.copied o = Pipes.copied (some l)
  counts : l.Counts → ∀ l', o = some l' → l'.Counts

variable {w d : World P} {p : P} {k : Bool} {l : Label} {o : Option Label} {pl pl' : P → Option Label}

omit [DecidableEq P] in
/-- **What an action does to the bytes.** -/
theorem effect_cases (h : Monitor.effect w (code p k w l) = some (d, o)) :
    Quiet w d l o ∨
    (∃ addr i b, l = .writeLoop addr i ∧ addr[i]? = some b ∧ ¬ w.pipe.Full ∧
      d = { w with pipe := w.pipe.put b, wrote := w.wrote ++ [(p, b)] } ∧ o = some (.writeLoop addr (i + 1))) ∨
    (∃ n acc, l = .readCopy n acc ∧ acc.length < n ∧ ¬ w.pipe.Empty ∧
      d = { w with pipe := w.pipe.take, got := w.got ++ [(p, w.pipe.front)] } ∧
      o = some (.readCopy n (acc ++ [w.pipe.front]))) ∨
    (∃ addr i ret, l = .writeRelease addr i ret ∧ d = { w with writes := w.writes ++ [⟨p, addr, i, ret⟩] } ∧ o = none) ∨
    (∃ n acc ret, l = .readRelease n acc ret ∧ d = { w with reads := w.reads ++ [⟨p, n, acc, ret⟩] } ∧ o = none) := by
  cases l with
  | readTest n =>
    simp only [code] at h
    left
    split at h
    · split at h <;> cases h
      · refine ⟨rfl, rfl, rfl, rfl, rfl, rfl, rfl, ?_⟩
        rintro - l' ⟨⟩
        exact ⟨by simp, .inr ⟨rfl, rfl⟩⟩
      · exact ⟨rfl, rfl, rfl, rfl, rfl, rfl, rfl, fun _ l' hl => by cases hl; exact trivial⟩
    · cases h
      exact ⟨rfl, rfl, rfl, rfl, rfl, rfl, rfl, fun _ l' hl => by cases hl; exact Nat.zero_le n⟩
  | readCopy n acc =>
    simp only [code] at h
    split at h
    · rename_i hc
      cases h
      exact .inr (.inr (.inl ⟨n, acc, rfl, hc.1, hc.2, rfl, rfl⟩))
    · cases h
      exact .inl ⟨rfl, rfl, rfl, rfl, rfl, rfl, rfl, fun hc l' hl => by cases hl; exact hc⟩
  | readWakeup n acc =>
    cases h
    exact .inl ⟨rfl, rfl, rfl, rfl, rfl, rfl, rfl, fun hc l' hl => by cases hl; exact ⟨hc, .inl rfl⟩⟩
  | readRelease n acc ret =>
    cases h
    exact .inr (.inr (.inr (.inr ⟨n, acc, ret, rfl, rfl, rfl⟩)))
  | writeLoop addr i =>
    simp only [code] at h
    split at h
    · rename_i hi
      cases h
      -- the loop is over: `i` is the length
      have hlen : addr.length ≤ i := List.getElem?_eq_none_iff.1 hi
      have htake : addr.take i = addr := List.take_of_length_le hlen
      exact .inl ⟨rfl, rfl, rfl, rfl, rfl, htake.symm, rfl, fun _ l' hl => by cases hl; exact trivial⟩
    · rename_i b hb
      have hlt : i < addr.length := (List.getElem?_eq_some_iff.1 hb).1
      split at h
      · split at h <;> cases h
        · exact .inl ⟨rfl, rfl, rfl, rfl, rfl, rfl, rfl, fun _ l' hl => by cases hl; exact .inr ⟨hlt, rfl⟩⟩
        · exact .inl ⟨rfl, rfl, rfl, rfl, rfl, rfl, rfl, fun _ l' hl => by cases hl; exact hlt⟩
      · rename_i hfull
        cases h
        exact .inr (.inl ⟨addr, i, b, rfl, hb, hfull, rfl, rfl⟩)
  | writeWakeup addr =>
    cases h
    refine .inl ⟨rfl, rfl, rfl, rfl, rfl, ?_, rfl, fun _ l' hl => by cases hl; exact .inl ⟨rfl, rfl⟩⟩
    exact List.take_length
  | writeFull addr i =>
    cases h
    exact .inl ⟨rfl, rfl, rfl, rfl, rfl, rfl, rfl, fun hc l' hl => by cases hl; exact hc⟩
  | writeSleep addr i =>
    cases h
    exact .inl ⟨rfl, rfl, rfl, rfl, rfl, rfl, rfl, fun hc l' hl => by cases hl; exact Nat.le_of_lt hc⟩
  | writeRelease addr i ret =>
    cases h
    exact .inr (.inr (.inr (.inl ⟨addr, i, ret, rfl, rfl, rfl⟩)))
  | writeAcquire addr =>
    cases h
    exact .inl ⟨rfl, rfl, rfl, rfl, rfl, rfl, rfl, fun _ l' hl => by cases hl; exact Nat.zero_le _⟩
  | closeMark e =>
    cases h
    refine .inl ⟨?_, rfl, rfl, rfl, rfl, rfl, rfl, fun _ l' hl => by cases hl; exact trivial⟩
    cases e <;> rfl
  | closeTest =>
    simp only [code] at h
    split at h <;> cases h <;>
      exact .inl ⟨rfl, rfl, rfl, rfl, rfl, rfl, rfl, fun _ l' hl => by cases hl <;> exact trivial⟩
  | _ =>
    cases h
    exact .inl ⟨rfl, rfl, rfl, rfl, rfl, rfl, rfl, fun _ l' hl => by cases hl <;> exact trivial⟩

/-- The first place of a call. -/
def Label.Starts : Label → Prop
  | .readAcquire _ | .writeAcquire _ | .closeAcquire _ => True
  | _ => False

/-- A call changes nothing but the descriptors, up to the functions of the pipe. -/
theorem call_same {r : Req P} (hr : call p r w = some (d, o)) : d.pipe = w.pipe ∧ d.wrote = w.wrote ∧ d.got = w.got ∧
    d.writes = w.writes ∧ d.reads = w.reads ∧ ∀ l, o = some l → l.Starts := by
  cases r with
  | read n =>
    simp only [call] at hr
    split at hr <;> cases hr
    exact ⟨rfl, rfl, rfl, rfl, rfl, fun l hl => by cases hl; exact trivial⟩
  | write addr =>
    simp only [call] at hr
    split at hr <;> cases hr
    exact ⟨rfl, rfl, rfl, rfl, rfl, fun l hl => by cases hl; exact trivial⟩
  | filedup e q =>
    simp only [call] at hr
    split at hr <;> cases hr
    cases e <;> exact ⟨rfl, rfl, rfl, rfl, rfl, fun l hl => by cases hl⟩
  | fileclose e =>
    simp only [call] at hr
    split at hr
    · by_cases hlast : (w.holders e).erase p = 0
      · rw [if_pos hlast] at hr
        cases hr
        cases e <;> exact ⟨rfl, rfl, rfl, rfl, rfl, fun l hl => by cases hl; exact trivial⟩
      · rw [if_neg hlast] at hr
        cases hr
        cases e <;> exact ⟨rfl, rfl, rfl, rfl, rfl, fun l hl => by cases hl⟩
    · cases hr

omit [DecidableEq P] in
/-- Who is further in the code after a call was there before it. -/
theorem place_of_call {f g : P → Option Label} (hl : ∀ l, o = some l → l.Starts) (hp' : g p = o)
    (hne : ∀ q, q ≠ p → g q = f q) {q : P} (hq : g q = some l) (hns : ¬ l.Starts) : f q = some l := by
  by_cases hqp : q = p
  · rw [hqp, hp'] at hq
    exact absurd (hl l hq) hns
  · rw [hne q hqp] at hq
    exact hq

/-! ## The queue -/

theorem bytesOf_snoc (p q : P) (b : Byte) (l : List (P × Byte)) :
    bytesOf p (l ++ [(q, b)]) = bytesOf p l ++ if q = p then [b] else [] := by
  unfold bytesOf
  by_cases h : q = p <;> simp [h]

theorem written_snoc (w : World P) (p : P) (c : Write P) :
    ({ w with writes := w.writes ++ [c] } : World P).written p =
      w.written p ++ if c.proc = p then c.addr.take c.stored else [] := by
  unfold World.written
  by_cases h : c.proc = p <;> simp [h]

omit [DecidableEq P] in
theorem took_snoc (w : World P) (c : Read P) :
    ({ w with reads := w.reads ++ [c] } : World P).took = w.took ++ c.addr.map (Prod.mk c.proc) := by
  unfold World.took
  rw [List.flatMap_append, List.flatMap_singleton]

theorem taken_snoc (w : World P) (p : P) (c : Read P) :
    ({ w with reads := w.reads ++ [c] } : World P).taken p = w.taken p ++ if c.proc = p then c.addr else [] := by
  unfold World.taken
  by_cases h : c.proc = p <;> simp [h]

namespace Fifo

/-- What has been taken, while no process but `p` copies. -/
theorem got_only (h : Fifo w pl) (hone : ∀ q, q ≠ p → copied (pl q) = []) :
    w.got = w.took ++ (copied (pl p)).map (Prod.mk p) := by
  by_cases hp : copied (pl p) = []
  · rw [hp, List.map_nil, List.append_nil]
    refine h.apart fun q => ?_
    by_cases hq : q = p
    · rw [hq, hp]
    · exact hone q hq
  · exact h.going p hp

/-- One process moves, and leaves the bytes and the finished calls alone. -/
theorem same (h : Fifo w pl) (hne : ∀ q, q ≠ p → pl' q = pl q) (hitems : d.pipe.items = w.pipe.items)
    (hwrote : d.wrote = w.wrote) (hgot : d.got = w.got) (hwrites : d.writes = w.writes) (hreads : d.reads = w.reads)
    (hstoring : storing (pl' p) = storing (pl p)) (hcopied : copied (pl' p) = copied (pl p))
    (hcounts : ∀ l, pl' p = some l → l.Counts) : Fifo d pl' := by
  have hcopy : ∀ q, copied (pl' q) = copied (pl q) := by
    intro q
    by_cases hq : q = p
    · rw [hq, hcopied]
    · rw [hne q hq]
  have htook : d.took = w.took := by
    unfold World.took
    rw [hreads]
  constructor
  · rw [hwrote, hgot, hitems]
    exact h.queue
  · rw [hitems]
    exact h.room
  · intro q
    have hq : storing (pl' q) = storing (pl q) := by
      by_cases hq : q = p
      · rw [hq, hstoring]
      · rw [hne q hq]
    rw [hwrote, hq]
    unfold World.written
    rw [hwrites]
    exact h.wrote q
  · intro q
    rw [hgot, hcopy q]
    unfold World.taken
    rw [hreads]
    exact h.got q
  · intro hall
    rw [hgot, htook]
    exact h.apart fun q => by rw [← hcopy q, hall q]
  · intro q hq
    rw [hcopy q] at hq ⊢
    rw [hgot, htook]
    exact h.going q hq
  · rw [hwrites]
    exact h.writes
  · rw [hreads]
    exact h.reads
  · intro q l' hq
    by_cases hqp : q = p
    · rw [hqp] at hq
      exact hcounts l' hq
    · rw [hne q hqp] at hq
      exact h.counts q l' hq

/-- `p->data[p->nwrite++ % PIPESIZE] = addr[i]` -/
theorem put (h : Fifo w pl) {addr : List Byte} {i : ℕ} {b : Byte} (hp : pl p = some (.writeLoop addr i))
    (hb : addr[i]? = some b) (hfull : ¬ w.pipe.Full) (hp' : pl' p = some (.writeLoop addr (i + 1)))
    (hne : ∀ q, q ≠ p → pl' q = pl q) :
    Fifo { w with pipe := w.pipe.put b, wrote := w.wrote ++ [(p, b)] } pl' := by
  have hlt : i < addr.length := (List.getElem?_eq_some_iff.1 hb).1
  have hroom : w.pipe.items.length < PIPESIZE := by
    have hle := h.room
    rw [full_iff] at hfull
    omega
  have hitems := items_put hroom b
  have hcopy : ∀ q, copied (pl' q) = copied (pl q) := by
    intro q
    by_cases hq : q = p
    · rw [hq, hp, hp']
      rfl
    · rw [hne q hq]
  constructor
  · show (w.wrote ++ [(p, b)]).map Prod.snd = w.got.map Prod.snd ++ (w.pipe.put b).items
    rw [List.map_append, h.queue, hitems, List.append_assoc]
    rfl
  · show (w.pipe.put b).items.length ≤ PIPESIZE
    rw [hitems, List.length_append, List.length_singleton]
    omega
  · intro q
    show bytesOf q (w.wrote ++ [(p, b)]) = w.written q ++ storing (pl' q)
    rw [bytesOf_snoc, h.wrote q]
    by_cases hq : p = q
    · have htake : addr.take (i + 1) = addr.take i ++ [b] := by
        rw [List.take_add_one, hb]
        rfl
      rw [if_pos hq, ← hq, hp, hp', List.append_assoc]
      show _ ++ (addr.take i ++ [b]) = _ ++ addr.take (i + 1)
      rw [htake]
    · rw [if_neg hq, hne q (Ne.symm hq), List.append_nil]
  · intro q
    show bytesOf q w.got = w.taken q ++ copied (pl' q)
    rw [h.got q, hcopy q]
  · exact fun hall => h.apart fun q => by rw [← hcopy q, hall q]
  · intro q hq
    rw [hcopy q] at hq ⊢
    exact h.going q hq
  · exact h.writes
  · exact h.reads
  · intro q l' hq
    by_cases hqp : q = p
    · rw [hqp, hp'] at hq
      cases hq
      exact hlt
    · rw [hne q hqp] at hq
      exact h.counts q l' hq

/-- `addr[i] = p->data[p->nread++ % PIPESIZE]` -/
theorem take (h : Fifo w pl) {n : ℕ} {acc : List Byte} (hp : pl p = some (.readCopy n acc)) (hn : acc.length < n)
    (hempty : ¬ w.pipe.Empty) (hp' : pl' p = some (.readCopy n (acc ++ [w.pipe.front])))
    (hne : ∀ q, q ≠ p → pl' q = pl q) (hone : ∀ q, q ≠ p → copied (pl q) = []) :
    Fifo { w with pipe := w.pipe.take, got := w.got ++ [(p, w.pipe.front)] } pl' := by
  have hitems := items_take hempty
  constructor
  · show w.wrote.map Prod.snd = (w.got ++ [(p, w.pipe.front)]).map Prod.snd ++ w.pipe.take.items
    rw [h.queue, hitems, List.map_append, List.append_assoc]
    rfl
  · show w.pipe.take.items.length ≤ PIPESIZE
    have hle := h.room
    rw [hitems, List.length_cons] at hle
    omega
  · intro q
    show bytesOf q w.wrote = w.written q ++ storing (pl' q)
    rw [h.wrote q]
    by_cases hq : q = p
    · rw [hq, hp, hp']
      rfl
    · rw [hne q hq]
  · intro q
    show bytesOf q (w.got ++ [(p, w.pipe.front)]) = w.taken q ++ copied (pl' q)
    rw [bytesOf_snoc, h.got q]
    by_cases hq : p = q
    · rw [if_pos hq, ← hq, hp, hp', List.append_assoc]
      rfl
    · rw [if_neg hq, hne q (Ne.symm hq), List.append_nil]
  · intro hall
    have hnil := hall p
    rw [hp'] at hnil
    exact absurd hnil (List.concat_ne_nil _ _)
  · intro q hq
    have hqp : q = p := by
      by_contra hqp
      rw [hne q hqp] at hq
      exact hq (hone q hqp)
    have hgot := h.got_only hone
    rw [hp] at hgot
    show w.got ++ [(p, w.pipe.front)] = w.took ++ (copied (pl' q)).map (Prod.mk q)
    rw [hqp, hp', hgot, List.append_assoc]
    show _ ++ (acc.map (Prod.mk p) ++ _) = _ ++ (acc ++ [w.pipe.front]).map (Prod.mk p)
    rw [List.map_append]
    rfl
  · exact h.writes
  · exact h.reads
  · intro q l' hq
    by_cases hqp : q = p
    · rw [hqp, hp'] at hq
      cases hq
      show (acc ++ [w.pipe.front]).length ≤ n
      rw [List.length_append, List.length_singleton]
      omega
    · rw [hne q hqp] at hq
      exact h.counts q l' hq

/-- `pipewrite` returns. -/
theorem endWrite (h : Fifo w pl) {addr : List Byte} {i : ℕ} {ret : ℤ} (hp : pl p = some (.writeRelease addr i ret))
    (hp' : pl' p = none) (hne : ∀ q, q ≠ p → pl' q = pl q) :
    Fifo { w with writes := w.writes ++ [⟨p, addr, i, ret⟩] } pl' := by
  have hcopy : ∀ q, copied (pl' q) = copied (pl q) := by
    intro q
    by_cases hq : q = p
    · rw [hq, hp, hp']
      rfl
    · rw [hne q hq]
  refine ⟨h.queue, h.room, ?_, ?_, fun hall => h.apart fun q => by rw [← hcopy q, hall q], ?_, ?_, h.reads, ?_⟩
  · intro q
    rw [written_snoc]
    show bytesOf q w.wrote = _
    rw [h.wrote q, List.append_assoc]
    by_cases hq : p = q
    · rw [if_pos hq, ← hq, hp, hp']
      exact congrArg _ (List.append_nil _).symm
    · rw [if_neg hq, hne q (Ne.symm hq), List.nil_append]
  · intro q
    show bytesOf q w.got = w.taken q ++ copied (pl' q)
    rw [h.got q, hcopy q]
  · intro q hq
    rw [hcopy q] at hq ⊢
    exact h.going q hq
  · intro c hc
    rcases List.mem_append.1 hc with hc | hc
    · exact h.writes c hc
    · rw [List.mem_singleton.1 hc]
      exact h.counts p _ hp
  · intro q l' hq
    have hqp : q ≠ p := by
      rintro rfl
      rw [hp'] at hq
      cases hq
    rw [hne q hqp] at hq
    exact h.counts q l' hq

/-- `piperead` returns. -/
theorem endRead (h : Fifo w pl) {n : ℕ} {acc : List Byte} {ret : ℤ} (hp : pl p = some (.readRelease n acc ret))
    (hp' : pl' p = none) (hne : ∀ q, q ≠ p → pl' q = pl q) (hone : ∀ q, q ≠ p → copied (pl q) = []) :
    Fifo { w with reads := w.reads ++ [⟨p, n, acc, ret⟩] } pl' := by
  have hnil : ∀ q, copied (pl' q) = [] := by
    intro q
    by_cases hq : q = p
    · rw [hq, hp']
      rfl
    · rw [hne q hq, hone q hq]
  refine ⟨h.queue, h.room, ?_, ?_, fun _ => ?_, fun q hq => absurd (hnil q) hq, h.writes, ?_, ?_⟩
  · intro q
    show bytesOf q w.wrote = w.written q ++ storing (pl' q)
    rw [h.wrote q]
    by_cases hq : q = p
    · rw [hq, hp, hp']
      rfl
    · rw [hne q hq]
  · intro q
    rw [taken_snoc]
    show bytesOf q w.got = _
    rw [h.got q, List.append_assoc]
    by_cases hq : p = q
    · rw [if_pos hq, ← hq, hp, hp']
      exact congrArg _ (List.append_nil _).symm
    · rw [if_neg hq, hne q (Ne.symm hq), List.nil_append]
  · rw [took_snoc]
    have hgot := h.got_only hone
    rw [hp] at hgot
    exact hgot
  · intro c hc
    rcases List.mem_append.1 hc with hc | hc
    · exact h.reads c hc
    · rw [List.mem_singleton.1 hc]
      exact h.counts p _ hp
  · intro q l' hq
    have hqp : q ≠ p := by
      rintro rfl
      rw [hp'] at hq
      cases hq
    rw [hne q hqp] at hq
    exact h.counts q l' hq

/-- A call, up to the functions of the pipe. -/
theorem call (h : Fifo w pl) {r : Req P} (hr : call p r w = some (d, o)) (hp : pl p = none) (hp' : pl' p = o)
    (hne : ∀ q, q ≠ p → pl' q = pl q) : Fifo d pl' := by
  obtain ⟨hpipe, hwrote, hgot, hwrites, hreads, hlabel⟩ := call_same hr
  -- at its start a call has no bytes
  have hstart : storing o = [] ∧ copied o = [] ∧ ∀ l, o = some l → l.Counts := by
    cases o with
    | none => exact ⟨rfl, rfl, fun l hl => by cases hl⟩
    | some l =>
      have hl := hlabel l rfl
      cases l <;> first | exact hl.elim | exact ⟨rfl, rfl, fun l hl => by cases hl; exact trivial⟩
  refine h.same hne (by rw [hpipe]) hwrote hgot hwrites hreads ?_ ?_ ?_
  · rw [hp', hp, hstart.1]
    rfl
  · rw [hp', hp, hstart.2.1]
    rfl
  · intro l hl
    rw [hp'] at hl
    exact hstart.2.2 l hl

/-- An action of the code. -/
theorem code (h : Fifo w pl) (ha : Monitor.effect w (code p k w l) = some (d, o)) (hp : pl p = some l)
    (hp' : pl' p = o) (hne : ∀ q, q ≠ p → pl' q = pl q)
    (hone : l.Inside → ∀ q, q ≠ p → copied (pl q) = []) : Fifo d pl' := by
  rcases effect_cases ha with hd | ⟨addr, i, b, rfl, hb, hfull, rfl, rfl⟩ | ⟨n, acc, rfl, hn, hempty, rfl, rfl⟩ |
    ⟨addr, i, ret, rfl, rfl, rfl⟩ | ⟨n, acc, ret, rfl, rfl, rfl⟩
  · refine h.same hne hd.items hd.wrote hd.got hd.writes hd.reads ?_ ?_ ?_
    · rw [hp', hp, hd.storing]
    · rw [hp', hp, hd.copied]
    · intro l' hl
      rw [hp'] at hl
      exact hd.counts (h.counts p l hp) l' hl
  · exact h.put hp hb hfull hp' hne
  · exact h.take hp hn hempty hp' hne (hone trivial)
  · exact h.endWrite hp hp' hne
  · exact h.endRead hp hp' hne (hone trivial)

end Fifo

variable {s s' : State P} {e : Event P} {p₀ : P} {page : Fin PIPESIZE → Byte} {es : List (Event P)}

/-- Who has copied bytes is inside. -/
theorem copied_inside {l : Label} (h : copied (some l) ≠ []) : l.Inside ∧ (∀ n, l ≠ .readTest n) ∧
    ∀ addr i, l ≠ .writeLoop addr i := by
  cases l <;> first | exact absurd rfl h | exact ⟨trivial, by simp, by simp⟩

/-- While a process is inside, no other has bytes that it has just copied. -/
theorem copied_alone (hL : Monitor.Locked Label.Inside s) (hS : Monitor.Sleepers Fits s) {l : Label}
    (hgo : s.ctl p = .go l) (hin : l.Inside) {q : P} (hne : q ≠ p) : copied (places s q) = [] := by
  by_contra hcopied
  cases hq : places s q with
  | none =>
    rw [hq] at hcopied
    exact hcopied rfl
  | some l' =>
    rw [hq] at hcopied
    obtain ⟨hin', hread, hwrite⟩ := copied_inside hcopied
    exact hne (hL.unique (go_of_place hS hq hread hwrite) hin' hgo hin)

theorem Fifo.step (h : Fifo s.data (places s)) (hL : Monitor.Locked Label.Inside s) (hS : Monitor.Sleepers Fits s)
    (hs : Monitor.View (pipe P) s s' e) : Fifo s'.data (places s') := by
  cases hs with
  | call hp hr hd ho hne =>
    rw [hd]
    exact h.call hr (by unfold places; rw [hp]; rfl) ho hne
  | still hd hpl =>
    have hsame : places s' = places s := funext hpl
    rw [hd, hsame]
    exact h
  | act hp ha hd ho hne =>
    rw [hd]
    exact h.code (effect_code ha).2 (by unfold places; rw [hp]; rfl) ho hne fun hin _ => copied_alone hL hS hp hin

theorem opened_fifo (p : P) (page : Fin PIPESIZE → Byte) : Fifo (opened p page).data (places (opened p page)) where
  queue := by
    show ([] : List Byte) = [] ++ Ring.items page (0 : BitVec 32) 0
    rw [Ring.items_self, List.append_nil]
  room := by
    show (Ring.items page (0 : BitVec 32) 0).length ≤ PIPESIZE
    simp
  wrote _ := rfl
  got _ := rfl
  apart _ := rfl
  going _ hp := absurd rfl hp
  writes c hc := by cases hc
  reads c hc := by cases hc
  counts q l hq := by cases hq

/-- **A pipe is a queue of bytes**, in every state of every run. -/
theorem pipe_fifo (h : (pipe P).machine.run (opened p₀ page) es = some (.ok s)) : Fifo s.data (places s) := by
  have h0 := opened_fresh p₀ page
  have hI : Monitor.Locked Label.Inside s ∧ Monitor.Sleepers Fits s ∧ Fifo s.data (places s) := by
    refine Machine.run_inv (I := fun s : State P => Monitor.Locked Label.Inside s ∧ Monitor.Sleepers Fits s ∧
      Fifo s.data (places s)) ⟨h0.locked, h0.sleepers, opened_fifo p₀ page⟩ ?_ h
    rintro s e s' ⟨hL, hS, hF⟩ hs
    have hstep := Monitor.step_ok hs
    exact ⟨hL.step pipe_bracketed hstep, hS.step sleep_fits hstep, hF.step hL hS hstep.view⟩
  exact hI.2.2

/-- Two bytes are written and one is read. -/
def turn : List (Event ℕ) :=
  .call 0 (.write [7, 8]) :: List.replicate 6 (.run 0) ++ .call 0 (.read 1) :: List.replicate 6 (.run 0)

set_option maxRecDepth 2000 in
theorem pipe_fifo_turn : ∃ s, (pipe ℕ).machine.run (opened 0 fun _ => 0) turn = some (.ok s) ∧
    s.data.reads.map Read.addr = [[7]] ∧ Fifo s.data (places s) := by
  obtain ⟨s, hs, hr⟩ : ∃ s, (pipe ℕ).machine.run (opened 0 fun _ => 0) turn = some (.ok s) ∧
      s.data.reads.map Read.addr = [[7]] := Machine.run_of_reaches (by decide)
  exact ⟨s, hs, hr, pipe_fifo hs⟩

/-! ## How calls end -/

/-- The write end is closed, and everything was read. -/
def World.Over (w : World P) : Prop := w.pipe.writeopen = false ∧ w.pipe.Empty

/-- What the processes know of the pipe when their calls end with 0 or -1. -/
structure Ending (w : World P) (pl : P → Option Label) (killed : P → Bool) : Prop where
  copying : ∀ {p n}, pl p = some (.readCopy n []) → ¬ (w.pipe.Empty ∧ w.pipe.writeopen = true)
  nothing : ∀ {p n}, pl p = some (.readWakeup n []) ∨ pl p = some (.readRelease n [] 0) → 0 < n → w.Over
  reads : ∀ c ∈ w.reads, 0 < c.n → c.ret = 0 → w.Over
  refused : ∀ {p n acc}, pl p = some (.readRelease n acc (-1)) → killed p = true
  refusals : ∀ c ∈ w.reads, c.ret = -1 → killed c.proc = true
  broken : ∀ {p addr i}, pl p = some (.writeRelease addr i (-1)) → w.pipe.readopen = false ∨ killed p = true
  writes : ∀ c ∈ w.writes, c.ret = -1 → w.pipe.readopen = false ∨ killed c.proc = true

omit [DecidableEq P] in
/-- The flags are never set again. -/
theorem effect_flags (ha : Monitor.effect w (code p k w l) = some (d, o)) :
    (w.pipe.readopen = false → d.pipe.readopen = false) ∧ (w.pipe.writeopen = false → d.pipe.writeopen = false) := by
  rcases effect_cases ha with - | ⟨addr, i, b, -, -, -, rfl, -⟩ | ⟨n, acc, -, -, -, rfl, -⟩ |
    ⟨addr, i, ret, -, rfl, -⟩ | ⟨n, acc, ret, -, rfl, -⟩
  · cases l with
    | closeMark e =>
      cases ha
      cases e
      · exact ⟨fun _ => rfl, id⟩
      · exact ⟨id, fun _ => rfl⟩
    | readTest n =>
      simp only [Pipes.code] at ha
      split at ha
      · split at ha <;> cases ha <;> exact ⟨id, id⟩
      · cases ha
        exact ⟨id, id⟩
    | readCopy n acc =>
      simp only [Pipes.code] at ha
      split at ha <;> cases ha <;> exact ⟨id, id⟩
    | writeLoop addr i =>
      simp only [Pipes.code] at ha
      split at ha
      · cases ha
        exact ⟨id, id⟩
      · split at ha
        · split at ha <;> cases ha <;> exact ⟨id, id⟩
        · cases ha
          exact ⟨id, id⟩
    | closeTest =>
      simp only [Pipes.code] at ha
      split at ha <;> cases ha <;> exact ⟨id, id⟩
    | _ =>
      cases ha
      exact ⟨id, id⟩
  all_goals exact ⟨id, id⟩

omit [DecidableEq P] in
theorem World.Over.effect (h : w.Over) (hl : Life w pl) (hp : pl p = some l)
    (ha : Monitor.effect w (code p k w l) = some (d, o)) : d.Over := by
  refine ⟨(effect_flags ha).2 h.1, ?_⟩
  rcases effect_cases ha with hd | ⟨addr, i, b, rfl, -, -, rfl, -⟩ | ⟨n, acc, -, -, hempty, -, -⟩ |
    ⟨addr, i, ret, -, rfl, -⟩ | ⟨n, acc, ret, -, rfl, -⟩
  · rw [empty_iff, hd.items, ← empty_iff]
    exact h.2
  · -- a writer would keep the write end open
    exact absurd rfl ((hl.closed (e := .write) h.1).2 p _ hp).1
  · exact absurd h.2 hempty
  · exact h.2
  · exact h.2

/-- While a process is inside, the others leave the pipe alone. -/
theorem pipe_alone (hL : Monitor.Locked Label.Inside s) {q : P} {l₁ : Label} (hq : s.ctl q = .go l₁) (hin : l₁.Inside)
    (hp : s.ctl p = .go l) (hne : q ≠ p) (ha : Monitor.effect s.data (code p k s.data l) = some (d, o)) :
    d.pipe = s.data.pipe := by
  have hout : ¬ l.Inside := fun hl => hne (hL.unique hq hin hp hl)
  cases l with
  | readAcquire n => cases ha; rfl
  | writeAcquire addr => cases ha; rfl
  | closeAcquire e => cases ha; rfl
  | closeFree => cases ha; rfl
  | _ => exact absurd trivial hout

omit [DecidableEq P] in
/-- The finished calls after an action: one more if it returns. -/
theorem effect_finished (ha : Monitor.effect w (code p k w l) = some (d, o)) :
    (d.reads = w.reads ∨ ∃ n acc ret, l = .readRelease n acc ret ∧ d.reads = w.reads ++ [⟨p, n, acc, ret⟩] ∧
      d.pipe = w.pipe) ∧
    (d.writes = w.writes ∨ ∃ addr i ret, l = .writeRelease addr i ret ∧ d.writes = w.writes ++ [⟨p, addr, i, ret⟩] ∧
      d.pipe = w.pipe) := by
  rcases effect_cases ha with hd | ⟨addr, i, b, -, -, -, rfl, -⟩ | ⟨n, acc, -, -, -, rfl, -⟩ |
    ⟨addr, i, ret, hl, rfl, -⟩ | ⟨n, acc, ret, hl, rfl, -⟩
  · exact ⟨.inl hd.reads, .inl hd.writes⟩
  · exact ⟨.inl rfl, .inl rfl⟩
  · exact ⟨.inl rfl, .inl rfl⟩
  · exact ⟨.inl rfl, .inr ⟨addr, i, ret, hl, rfl, rfl⟩⟩
  · exact ⟨.inr ⟨n, acc, ret, hl, rfl, rfl⟩, .inl rfl⟩

theorem Ending.code (h : Ending s.data (places s) s.killed) (hL : Monitor.Locked Label.Inside s)
    (hS : Monitor.Sleepers Fits s) (hl : Life s.data (places s)) (hF : Fifo s.data (places s))
    (hgo : s.ctl p = .go l) (ha : Monitor.effect s.data (Pipes.code p (s.killed p) s.data l) = some (d, o))
    (ho : places s' p = o) (hne : ∀ q, q ≠ p → places s' q = places s q)
    (hk : ∀ q, s.killed q = true → s'.killed q = true) : Ending d (places s') s'.killed := by
  have hp : places s p = some l := by
    unfold places
    rw [hgo]
    rfl
  obtain ⟨hro, hwo⟩ := effect_flags ha
  obtain ⟨hreads, hwrites⟩ := effect_finished ha
  have hlead := effect_leads ha
  constructor
  · intro q n hq
    by_cases hqp : q = p
    · -- the process has just made the test
      rw [hqp, ho] at hq
      subst hq
      cases hlead with
      | readStart htest =>
        simp only [Pipes.code, if_neg htest] at ha
        cases ha
        exact htest
      | readOne hacc _ => simp at hacc
    · rw [hne q hqp] at hq
      have hgo' := go_of_place hS hq (by simp) (by simp)
      rw [pipe_alone hL hgo' trivial hgo hqp ha]
      exact h.copying hq
  · intro q n hq hn
    by_cases hqp : q = p
    · rw [hqp, ho] at hq
      rcases hq with rfl | rfl
      · cases hlead with
        | readStop hstop =>
          simp only [Pipes.code, if_neg hstop] at ha
          cases ha
          -- nothing was copied although bytes were asked for
          have hempty : s.data.pipe.Empty := by
            by_contra hx
            exact hstop ⟨hn, hx⟩
          have hopen := h.copying hp
          exact ⟨by simpa using fun hw => hopen ⟨hempty, hw⟩, hempty⟩
      · cases hlead with
        | readKilled _ _ hret => cases hret
        | readWakeup hret =>
          cases ha
          exact h.nothing (.inl hp) hn
    · rw [hne q hqp] at hq
      exact (h.nothing hq hn).effect hl hp ha
  · intro c hc hn h0
    rcases hreads with hr | ⟨n, acc, ret, rfl, hr, hpipe⟩
    · rw [hr] at hc
      exact (h.reads c hc hn h0).effect hl hp ha
    · rw [hr] at hc
      rcases List.mem_append.1 hc with hc | hc
      · exact (h.reads c hc hn h0).effect hl hp ha
      · rw [List.mem_singleton.1 hc] at hn h0
        have hret : ret = 0 := h0
        subst hret
        -- the count is right: no byte was copied
        obtain ⟨-, hlen | ⟨-, habs⟩⟩ := hF.counts p _ hp
        · obtain rfl : acc = [] := List.length_eq_zero_iff.1 (by exact_mod_cast hlen.symm)
          exact (h.nothing (.inr hp) hn).effect hl hp ha
        · cases habs
  · intro q n acc hq
    by_cases hqp : q = p
    · rw [hqp, ho] at hq
      subst hq
      rw [hqp]
      cases hlead with
      | readKilled _ hkilled _ => exact hk p hkilled
      | readWakeup hret => omega
    · rw [hne q hqp] at hq
      exact hk q (h.refused hq)
  · intro c hc h1
    rcases hreads with hr | ⟨n, acc, ret, rfl, hr, hpipe⟩
    · rw [hr] at hc
      exact hk _ (h.refusals c hc h1)
    · rw [hr] at hc
      rcases List.mem_append.1 hc with hc | hc
      · exact hk _ (h.refusals c hc h1)
      · rw [List.mem_singleton.1 hc] at h1 ⊢
        have hret : ret = -1 := h1
        subst hret
        exact hk p (h.refused hp)
  · intro q addr i hq
    by_cases hqp : q = p
    · rw [hqp, ho] at hq
      subst hq
      rw [hqp]
      cases hlead with
      | writeBroken _ hor _ =>
        exact hor.imp hro (hk p)
      | writeWakeup hret => omega
    · rw [hne q hqp] at hq
      exact (h.broken hq).imp hro (hk q)
  · intro c hc h1
    rcases hwrites with hr | ⟨addr, i, ret, rfl, hr, hpipe⟩
    · rw [hr] at hc
      exact (h.writes c hc h1).imp hro (hk _)
    · rw [hr] at hc
      rcases List.mem_append.1 hc with hc | hc
      · exact (h.writes c hc h1).imp hro (hk _)
      · rw [List.mem_singleton.1 hc] at h1 ⊢
        have hret : ret = -1 := h1
        subst hret
        exact (h.broken hp).imp hro (hk p)

/-- The invariants of the runs. -/
structure Inv (s : State P) : Prop where
  locked : Monitor.Locked Label.Inside s
  sleepers : Monitor.Sleepers Fits s
  life : Life s.data (places s)
  fifo : Fifo s.data (places s)
  ending : Ending s.data (places s) s.killed

theorem Ending.step (h : Inv s) (hs : Monitor.View (pipe P) s s' e)
    (hk : ∀ q, s.killed q = true → s'.killed q = true) : Ending s'.data (places s') s'.killed := by
  have hE := h.ending
  cases hs with
  | @call p r d o hp hr hd ho hne =>
    rw [hd]
    obtain ⟨hpipe, -, -, hwrites, hreads, hlabel⟩ := call_same hr
    have hother : ∀ {q l}, places s' q = some l → ¬ l.Starts → places s q = some l :=
      fun hq hns => place_of_call (f := places s) (g := places s') hlabel ho hne hq hns
    have hover : s.data.Over → d.Over := by
      unfold World.Over
      rw [hpipe]
      exact id
    constructor
    · intro q n hq
      rw [hpipe]
      exact hE.copying (hother hq id)
    · intro q n hq hn
      apply hover
      rcases hq with hq | hq
      · exact hE.nothing (.inl (hother hq id)) hn
      · exact hE.nothing (.inr (hother hq id)) hn
    · rw [hreads]
      exact fun c hc hn h0 => hover (hE.reads c hc hn h0)
    · intro q n acc hq
      exact hk q (hE.refused (hother hq id))
    · rw [hreads]
      exact fun c hc h1 => hk _ (hE.refusals c hc h1)
    · intro q addr i hq
      rw [hpipe]
      exact (hE.broken (hother hq id)).imp id (hk q)
    · rw [hwrites, hpipe]
      exact fun c hc h1 => (hE.writes c hc h1).imp id (hk _)
  | still hd hpl =>
    have hsame : places s' = places s := funext hpl
    rw [hd, hsame]
    exact ⟨hE.copying, hE.nothing, hE.reads, fun hq => hk _ (hE.refused hq), fun c hc h1 => hk _ (hE.refusals c hc h1),
      fun hq => (hE.broken hq).imp id (hk _), fun c hc h1 => (hE.writes c hc h1).imp id (hk _)⟩
  | act hp ha hd ho hne =>
    rw [hd]
    exact hE.code h.locked h.sleepers h.life h.fifo hp (effect_code ha).2 ho hne hk

theorem inv_run (h : (pipe P).machine.run (opened p₀ page) es = some (.ok s)) : Inv s := by
  have h0 := opened_fresh p₀ page
  refine Machine.run_inv (I := Inv) ?_ ?_ h
  · refine ⟨h0.locked, h0.sleepers, opened_life p₀ page, opened_fifo p₀ page, ?_⟩
    constructor
    · intro q n hq
      cases hq
    · rintro q n (hq | hq) <;> cases hq
    · intro c hc
      cases hc
    · intro q n acc hq
      cases hq
    · intro c hc
      cases hc
    · intro q addr i hq
      cases hq
    · intro c hc
      cases hc
  · intro s e s' hI hs
    have hstep := Monitor.step_ok hs
    exact ⟨hI.locked.step pipe_bracketed hstep, hI.sleepers.step sleep_fits hstep,
      hI.life.step hI.locked hI.sleepers hstep.view, hI.fifo.step hI.locked hI.sleepers hstep.view,
      Ending.step hI hstep.view fun q hq => hstep.killed hq⟩

/-- **How calls end.** A read that was asked for bytes and returned 0 is the end of the file: nobody has the write end,
and all that was written has been read. A read returns -1 only to a killed process, and a write returns -1 only to a
killed process or when nobody has the read end. -/
theorem end_of_file (h : (pipe P).machine.run (opened p₀ page) es = some (.ok s)) :
    (∀ c ∈ s.data.reads, 0 < c.n → c.ret = 0 →
      s.data.writers = 0 ∧ s.data.wrote.map Prod.snd = s.data.got.map Prod.snd) ∧
    (∀ c ∈ s.data.reads, c.ret = -1 → s.killed c.proc = true) ∧
    ∀ c ∈ s.data.writes, c.ret = -1 → s.data.readers = 0 ∨ s.killed c.proc = true := by
  have hI := inv_run h
  refine ⟨fun c hc hn h0 => ?_, hI.ending.refusals, fun c hc h1 => ?_⟩
  · obtain ⟨hclosed, hempty⟩ := hI.ending.reads c hc hn h0
    refine ⟨(hI.life.closed (e := .write) hclosed).1, ?_⟩
    rw [hI.fifo.queue, empty_iff.1 hempty, List.append_nil]
  · refine (hI.ending.writes c hc h1).imp (fun hr => ?_) id
    exact (hI.life.closed (e := .read) hr).1

set_option maxRecDepth 2000 in
/-- The write end is closed, and a read returns 0. -/
theorem end_of_file_closed : ∃ s, (pipe ℕ).machine.run (opened 0 fun _ => 0)
      (.call 0 (.fileclose .write) :: List.replicate 4 (.run 0) ++ .call 0 (.read 1) :: List.replicate 5 (.run 0)) =
        some (.ok s) ∧ s.data.reads.map Read.ret = [0] ∧
      (∀ c ∈ s.data.reads, 0 < c.n → c.ret = 0 →
        s.data.writers = 0 ∧ s.data.wrote.map Prod.snd = s.data.got.map Prod.snd) := by
  obtain ⟨s, hs, hr⟩ : ∃ s, (pipe ℕ).machine.run (opened 0 fun _ => 0)
      (.call 0 (.fileclose .write) :: List.replicate 4 (.run 0) ++ .call 0 (.read 1) :: List.replicate 5 (.run 0)) =
        some (.ok s) ∧ s.data.reads.map Read.ret = [0] := Machine.run_of_reaches (by decide)
  exact ⟨s, hs, hr, (end_of_file hs).1⟩

end Xv6.Pipes
