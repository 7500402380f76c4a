import Xv6.Log.Model

/-!
# The log on the disk

`read_head` gets back the block list that `write_head` stored (`decodeHead_encodeHead`).

`OnDisk g disk img bl` says that recovery of `disk` ends in the image `img`: the header
names the blocks `bl`, the log holds their contents and every other home block has its
contents already. The rules are those of a redo log: while the header is empty the log
area is free to change; writing the header moves to a new image at once; installing a
logged block changes nothing; once all are installed the header may be cleared.
-/

namespace Xv6.Log

/-! ## The header block -/

theorem word_putBlocks_lt {bl : List ℕ} : ∀ {i j : ℕ} {d : Block}, j < i →
    word (putBlocks d i bl) j = word d j := by
  induction bl with
  | nil => intro i j d _; rfl
  | cons b bl ih =>
    intro i j d h
    rw [putBlocks, ih (by omega), word_setWord_ne (by omega)]

theorem word_putBlocks {bl : List ℕ} (hbl : ∀ b ∈ bl, b < 2 ^ 32) : ∀ {i : ℕ} {d : Block} (k : ℕ)
    (hk : k < bl.length), word (putBlocks d i bl) (i + k) = bl[k] := by
  induction bl with
  | nil => intro i d k hk; simp at hk
  | cons b bl ih =>
    intro i d k hk
    rw [putBlocks]
    cases k with
    | zero =>
      rw [word_putBlocks_lt (by omega), Nat.add_zero, word_setWord_self (hbl b (by simp))]
      rfl
    | succ k =>
      rw [show i + (k + 1) = i + 1 + k by omega,
        ih (fun x hx => hbl x (by simp [hx])) k (by simpa using hk)]
      rfl

/-- **`read_head` after `write_head`.** -/
theorem decodeHead_encodeHead (d : Block) {bl : List ℕ} (hlen : bl.length < 2 ^ 32)
    (hbl : ∀ b ∈ bl, b < 2 ^ 32) : decodeHead (encodeHead d bl) = bl := by
  have h0 : word (encodeHead d bl) 0 = bl.length := by
    rw [encodeHead, word_putBlocks_lt (by omega), word_setWord_self hlen]
  unfold decodeHead
  rw [h0]
  refine List.ext_getElem (by simp) fun k hk hk' => ?_
  rw [List.getElem_map, List.getElem_range, Nat.add_comm k 1, encodeHead]
  exact word_putBlocks hbl k hk'

/-! ## The redo log -/

structure OnDisk (g : Geometry) (disk img : ℕ → Block) (bl : List ℕ) : Prop where
  head : decodeHead (disk g.start) = bl
  length : bl.length < g.size
  home : ∀ b ∈ bl, g.Home b
  copy : ∀ i (h : i < bl.length), disk (g.start + i + 1) = img bl[i]
  rest : ∀ b, g.Home b → b ∉ bl → disk b = img b

variable {g : Geometry} {disk img img' : ℕ → Block} {bl : List ℕ} {b : ℕ} {v : Block}

theorem Geometry.Home.ne_start (h : g.Home b) : b ≠ g.start := by
  have := g.pos
  rcases h with h | h <;> omega

theorem Geometry.Home.ne_copy (h : g.Home b) {i : ℕ} (hi : i + 1 < g.size) : b ≠ g.start + i + 1 := by
  rcases h with h | h <;> omega

theorem OnDisk.eq_img (h : OnDisk g disk img []) (hb : g.Home b) : disk b = img b :=
  h.rest b hb (by simp)

/-- While the header is empty the log area may be written. -/
theorem OnDisk.writeLog (h : OnDisk g disk img []) {i : ℕ} (hi : i + 1 < g.size) :
    OnDisk g (Function.update disk (g.start + i + 1) v) img [] where
  head := by rw [Function.update_of_ne (by omega)]; exact h.head
  length := h.length
  home := h.home
  copy := by simp
  rest b hb _ := by
    rw [Function.update_of_ne (hb.ne_copy hi)]
    exact h.eq_img hb

/-- **Writing the header** moves to the image whose logged blocks are in the log. -/
theorem OnDisk.writeHead (h : OnDisk g disk img []) (hlen : bl.length < g.size)
    (hlen' : bl.length < 2 ^ 32) (hbl : ∀ b ∈ bl, g.Home b ∧ b < 2 ^ 32)
    (hcopy : ∀ i (hi : i < bl.length), disk (g.start + i + 1) = img' bl[i])
    (hrest : ∀ b, g.Home b → b ∉ bl → img b = img' b) :
    OnDisk g (Function.update disk g.start (encodeHead v bl)) img' bl where
  head := by rw [Function.update_self]; exact decodeHead_encodeHead v hlen' fun b hb => (hbl b hb).2
  length := hlen
  home b hb := (hbl b hb).1
  copy i hi := by rw [Function.update_of_ne (by omega)]; exact hcopy i hi
  rest b hb hnot := by
    rw [Function.update_of_ne hb.ne_start, h.eq_img hb]
    exact hrest b hb hnot

/-- Installing a logged block leaves what recovery makes of the disk. -/
theorem OnDisk.install (h : OnDisk g disk img bl) (hb : b ∈ bl) (v : Block) :
    OnDisk g (Function.update disk b v) img bl where
  head := by rw [Function.update_of_ne (h.home b hb).ne_start.symm]; exact h.head
  length := h.length
  home := h.home
  copy i hi := by
    have := h.length
    rw [Function.update_of_ne ((h.home b hb).ne_copy (by omega)).symm]
    exact h.copy i hi
  rest x hx hnot := by
    rw [Function.update_of_ne (by rintro rfl; exact hnot hb)]
    exact h.rest x hx hnot

/-- Once every logged block is installed the header may be cleared. -/
theorem OnDisk.clear (h : OnDisk g disk img bl) (hall : ∀ b ∈ bl, disk b = img b) (v : Block) :
    OnDisk g (Function.update disk g.start (encodeHead v [])) img [] where
  head := by rw [Function.update_self]; exact decodeHead_encodeHead v (by simp) (by simp)
  length := g.pos
  home := by simp
  copy := by simp
  rest b hb _ := by
    rw [Function.update_of_ne hb.ne_start]
    by_cases hmem : b ∈ bl
    · exact hall b hmem
    · exact h.rest b hb hmem

end Xv6.Log
