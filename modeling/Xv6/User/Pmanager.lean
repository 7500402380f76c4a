import Xv6.Lib.Bytes

/-!
# `pmanager`

The shell of project 2 reads a line and works on it in place.

* `parsemytoken`, `parsemycmd`: a line is cut at its blanks, and the first token says what to do.
* `validateNum`: the check of a number, and `atoi` behind it.
* **`parsemytoken_splits`**: the tokens are the fields between single blanks, and only the blanks are written to.
* `parsemycmd_command`: what the command is, given the first field.
* **`validateNum_documented_iff`**: the check is right if and only if the string has a bad character, or is a number
  in the bounds, or is mapped to -1 by an overflow.
* `validateNum_overflows`: 4294967297 is taken for 1.
-/

namespace Xv6.User

/-! ## Strings in memory -/

/-- The bytes at `a`. -/
def BytesAt (mem : Bytes) (a : ℕ) (l : List Byte) : Prop := ∀ i (h : i < l.length), mem (a + i) = l[i]

/-- The NUL-terminated string at `a`. -/
structure StringAt (mem : Bytes) (a : ℕ) (l : List Byte) : Prop where
  bytes : BytesAt mem a l
  nul : mem (a + l.length) = 0
  nonzero : 0 ∉ l

variable {mem : Bytes} {a buf i : ℕ} {l text : List Byte} {c : Byte}

theorem bytesAt_nil : BytesAt mem a [] := fun _ h => absurd h (Nat.not_lt_zero _)

theorem BytesAt.congr {mem' : Bytes} (h : BytesAt mem a l) (hm : ∀ k, a ≤ k → k < a + l.length → mem' k = mem k) :
    BytesAt mem' a l := by
  intro i hi
  rw [hm (a + i) (by omega) (by omega)]
  exact h i hi

/-- With one more byte. -/
theorem BytesAt.snoc (h : BytesAt mem a l) (hc : mem (a + l.length) = c) : BytesAt mem a (l ++ [c]) := by
  intro i hi
  rw [List.length_append, List.length_singleton] at hi
  by_cases hlast : i < l.length
  · rw [List.getElem_append_left hlast]
    exact h i hlast
  · have hi' : i = l.length := by omega
    subst hi'
    rw [hc]
    simp

theorem notMem_snoc {b : Byte} (hb : b ∉ l) (hc : b ≠ c) : b ∉ l ++ [c] := by
  rw [List.mem_append, List.mem_singleton, not_or]
  exact ⟨hb, hc⟩

theorem stringAt_cons : StringAt mem a (c :: l) ↔ mem a = c ∧ c ≠ 0 ∧ StringAt mem (a + 1) l := by
  constructor
  · rintro ⟨hbytes, hnul, hzero⟩
    rw [List.mem_cons, not_or] at hzero
    refine ⟨hbytes 0 (Nat.zero_lt_succ _), Ne.symm hzero.1, fun i hi => ?_, ?_, hzero.2⟩
    · have hi' := hbytes (i + 1) (Nat.succ_lt_succ hi)
      rw [Nat.add_right_comm]
      exact hi'
    · rw [Nat.add_right_comm]
      exact hnul
  · rintro ⟨hc, hc0, hbytes, hnul, hzero⟩
    refine ⟨fun i hi => ?_, ?_, ?_⟩
    · cases i with
      | zero => exact hc
      | succ i =>
        have hi' := hbytes i (Nat.lt_of_succ_lt_succ hi)
        rw [Nat.add_right_comm] at hi'
        exact hi'
    · rw [Nat.add_right_comm] at hnul
      exact hnul
    · rw [List.mem_cons, not_or]
      exact ⟨Ne.symm hc0, hzero⟩

/-! ## Tokens -/

abbrev SPACE : Byte := 32

/-- The memory, the token array, and the local variables of `parsemytoken`. -/
structure Scan where
  mem : Bytes
  tokens : ℕ → ℕ
  tokenCount : ℕ
  start : ℕ

/-- `if (tokenCount < maxTokens) tokens[tokenCount] = &buf[start];` -/
def Scan.setToken (s : Scan) (buf maxTokens : ℕ) : ℕ → ℕ :=
  if s.tokenCount < maxTokens then Function.update s.tokens s.tokenCount (buf + s.start) else s.tokens

/-- A turn of the loop, at `buf[i]`. -/
def Scan.turn (s : Scan) (buf maxTokens i : ℕ) : Scan :=
  if s.mem (buf + i) = SPACE then
    { mem := Function.update s.mem (buf + i) 0
      tokens := s.setToken buf maxTokens
      tokenCount := if s.tokenCount < maxTokens then s.tokenCount + 1 else s.tokenCount
      start := i + 1 }
  else s

/-- The loop, up to the NUL. -/
def parseLoop (buf maxTokens : ℕ) : ℕ → ℕ → Scan → Option Scan
  | 0, _, _ => none
  | fuel + 1, i, s => if s.mem (buf + i) = 0 then some s else parseLoop buf maxTokens fuel (i + 1) (s.turn buf maxTokens i)

/-- `parsemytoken(buf, tokens, maxTokens)`: the memory and the token array after it. -/
def parsemytoken (fuel : ℕ) (mem : Bytes) (buf : ℕ) (tokens : ℕ → ℕ) (maxTokens : ℕ) : Option (Bytes × (ℕ → ℕ)) :=
  (parseLoop buf maxTokens fuel 0 ⟨mem, tokens, 0, 0⟩).map fun s => (s.mem, s.setToken buf maxTokens)

/-- The text between the blanks. -/
def fields (text : List Byte) : List (List Byte) := text.splitOn SPACE

/-- The memory when the blanks of the `len` bytes from `a` are overwritten. -/
def blanked (mem : Bytes) (a len : ℕ) : Bytes := fun k => if a ≤ k ∧ k < a + len ∧ mem k = SPACE then 0 else mem k

/-- What the rest of the loop does with the fields that are still to come. -/
structure Splits (s : Scan) (buf maxTokens i : ℕ) (l : List Byte) (pieces : List (List Byte)) (s' : Scan) : Prop where
  mem : s'.mem = blanked s.mem (buf + i) l.length
  tokens : ∀ j (hj : j < pieces.length), s.tokenCount + j < maxTokens →
    StringAt s'.mem (s'.setToken buf maxTokens (s.tokenCount + j)) pieces[j]
  first : s.tokenCount < maxTokens → s'.setToken buf maxTokens s.tokenCount = buf + s.start
  rest : ∀ k, k < s.tokenCount ∨ s.tokenCount + pieces.length ≤ k ∨ maxTokens ≤ k →
    s'.setToken buf maxTokens k = s.tokens k

variable {s s' : Scan} {maxTokens fuel : ℕ} {pre : List Byte} {pieces : List (List Byte)}

theorem setToken_of_ne {k : ℕ} (h : k < s.tokenCount ∨ s.tokenCount < k ∨ maxTokens ≤ k) :
    s.setToken buf maxTokens k = s.tokens k := by
  unfold Scan.setToken
  split
  · exact Function.update_of_ne (by omega) _ _
  · rfl

theorem setToken_self (h : s.tokenCount < maxTokens) : s.setToken buf maxTokens s.tokenCount = buf + s.start := by
  unfold Scan.setToken
  rw [if_pos h, Function.update_self]

/-- A character that is not a blank is passed over. -/
theorem turn_char (h : s.mem (buf + i) ≠ SPACE) : s.turn buf maxTokens i = s := if_neg h

/-- A blank ends a token. -/
theorem turn_space (maxTokens : ℕ) (h : s.mem (buf + i) = SPACE) :
    (s.turn buf maxTokens i).mem = Function.update s.mem (buf + i) 0 ∧
      (s.turn buf maxTokens i).tokens = s.setToken buf maxTokens ∧
      (s.turn buf maxTokens i).tokenCount = (if s.tokenCount < maxTokens then s.tokenCount + 1 else s.tokenCount) ∧
      (s.turn buf maxTokens i).start = i + 1 := by
  unfold Scan.turn
  rw [if_pos h]
  exact ⟨rfl, rfl, rfl, rfl⟩

theorem blanked_char {len : ℕ} (h : mem a ≠ SPACE) : blanked mem (a + 1) len = blanked mem a (len + 1) := by
  funext k
  unfold blanked
  by_cases hk : k = a
  · rw [hk, if_neg (by omega), if_neg (by tauto)]
  · have hlo : a + 1 ≤ k ↔ a ≤ k := by omega
    have hhi : k < a + 1 + len ↔ k < a + (len + 1) := by omega
    simp only [hlo, hhi]

theorem blanked_space {len : ℕ} (h : mem a = SPACE) :
    blanked (Function.update mem a 0) (a + 1) len = blanked mem a (len + 1) := by
  funext k
  unfold blanked
  by_cases hk : k = a
  · rw [hk, if_neg (by omega), if_pos ⟨le_rfl, by omega, h⟩, Function.update_self]
  · have hlo : a + 1 ≤ k ↔ a ≤ k := by omega
    have hhi : k < a + 1 + len ↔ k < a + (len + 1) := by omega
    rw [Function.update_of_ne hk]
    simp only [hlo, hhi]

/-- Nothing below the blanks is overwritten. -/
theorem blanked_below {len k : ℕ} (h : k < a) : blanked mem a len k = mem k := if_neg (by omega)

/-- **The loop.** `pre` is what has been read of the pending token, and `l` what is still to be read. -/
theorem parseLoop_splits (buf maxTokens : ℕ) (l : List Byte) : ∀ (s : Scan) (i : ℕ) (pre : List Byte) {fuel : ℕ},
    StringAt s.mem (buf + i) l → BytesAt s.mem (buf + s.start) pre → s.start + pre.length = i → SPACE ∉ pre →
    0 ∉ pre → l.length < fuel →
    ∃ s', parseLoop buf maxTokens fuel i s = some s' ∧ Splits s buf maxTokens i l (fields (pre ++ l)) s' := by
  induction l with
  | nil =>
    intro s i pre fuel hl hpre hi hspace hzero hfuel
    -- the pending token is the last one
    obtain ⟨fuel, rfl⟩ : ∃ f, fuel = f + 1 := ⟨fuel - 1, by omega⟩
    have hnul : s.mem (buf + i) = 0 := hl.nul
    have hfields : fields (pre ++ []) = [pre] := by
      rw [List.append_nil]
      exact List.splitOn_eq_singleton hspace
    refine ⟨s, if_pos hnul, ?_, ?_, setToken_self, ?_⟩
    · funext k
      exact (if_neg (by simp; omega)).symm
    · intro j hj hmax
      simp only [hfields, List.length_singleton, Nat.lt_one_iff] at hj
      subst hj
      simp only [hfields, List.getElem_singleton]
      rw [Nat.add_zero, setToken_self hmax]
      refine ⟨hpre, ?_, hzero⟩
      rw [Nat.add_assoc, hi]
      exact hnul
    · intro k hk
      rw [hfields, List.length_singleton] at hk
      exact setToken_of_ne (by omega)
  | cons c l ih =>
    intro s i pre fuel hl hpre hi hspace hzero hfuel
    obtain ⟨fuel, rfl⟩ : ∃ f, fuel = f + 1 := ⟨fuel - 1, by omega⟩
    obtain ⟨hc, hc0, hl'⟩ := stringAt_cons.1 hl
    have hfuel' : l.length < fuel := by
      rw [List.length_cons] at hfuel
      omega
    have hloop : parseLoop buf maxTokens (fuel + 1) i s =
        parseLoop buf maxTokens fuel (i + 1) (s.turn buf maxTokens i) := if_neg (by rw [hc]; exact hc0)
    rw [hloop]
    by_cases hcs : c = SPACE
    · -- the token ends here, and the next one begins
      subst hcs
      have hfields : fields (pre ++ SPACE :: l) = pre :: fields l := List.splitOn_append_cons_self_of_not_mem hspace l
      obtain ⟨htmem, httokens, htcount, htstart⟩ := turn_space maxTokens hc
      generalize s.turn buf maxTokens i = t at htmem httokens htcount htstart ⊢
      have hnext : StringAt t.mem (buf + (i + 1)) l := by
        rw [htmem]
        refine ⟨hl'.bytes.congr fun k hk _ => Function.update_of_ne (by omega) _ _, ?_, hl'.nonzero⟩
        rw [Function.update_of_ne (by omega)]
        exact hl'.nul
      obtain ⟨s', hrun, hmem, htokens, -, hrest⟩ := ih t (i + 1) [] hnext bytesAt_nil htstart List.not_mem_nil
        List.not_mem_nil hfuel'
      rw [List.nil_append] at htokens hrest
      rw [htmem, ← Nat.add_assoc] at hmem
      have htoken : StringAt s'.mem (buf + s.start) pre := by
        rw [hmem]
        refine ⟨fun j hj => ?_, ?_, hzero⟩
        · rw [blanked_below (by omega), Function.update_of_ne (by omega)]
          exact hpre j hj
        · have hend : buf + s.start + pre.length = buf + i := by omega
          rw [hend, blanked_below (by omega), Function.update_self]
      have hfirst : s.tokenCount < maxTokens → s'.setToken buf maxTokens s.tokenCount = buf + s.start := by
        intro hcount
        rw [if_pos hcount] at htcount
        rw [hrest _ (by omega), httokens, setToken_self hcount]
      refine ⟨s', hrun, hmem.trans (blanked_space hc), fun j hj hmax => ?_, hfirst, fun k hk => ?_⟩
      · have hcount : s.tokenCount < maxTokens := by omega
        rw [if_pos hcount] at htcount
        rw [hfields, List.length_cons] at hj
        cases j with
        | zero =>
          rw [Nat.add_zero, hfirst hcount]
          simp only [hfields]
          exact htoken
        | succ j =>
          have hj' := htokens j (by omega) (by omega)
          rw [htcount, Nat.add_assoc, Nat.add_comm 1 j] at hj'
          simp only [hfields]
          exact hj'
      · rw [hfields, List.length_cons] at hk
        have hk' : k < s.tokenCount ∨ s.tokenCount < k ∨ maxTokens ≤ k := by omega
        have hdone : k < t.tokenCount ∨ t.tokenCount + (fields l).length ≤ k ∨ maxTokens ≤ k := by
          rw [htcount]
          split
          · omega
          · omega
        rw [hrest k hdone, httokens, setToken_of_ne hk']
    · -- one more character of the pending token
      have hfields : pre ++ c :: l = (pre ++ [c]) ++ l := by simp
      have hnot : s.mem (buf + i) ≠ SPACE := by
        rw [hc]
        exact hcs
      rw [turn_char hnot, hfields]
      have hpend : s.mem (buf + s.start + pre.length) = c := by
        rw [Nat.add_assoc, hi]
        exact hc
      obtain ⟨s', hrun, hmem, htokens, hfirst, hrest⟩ := ih s (i + 1) (pre ++ [c]) hl' (hpre.snoc hpend)
        (by rw [List.length_append, List.length_singleton]; omega) (notMem_snoc hspace (Ne.symm hcs))
        (notMem_snoc hzero (Ne.symm hc0)) hfuel'
      refine ⟨s', hrun, ?_, htokens, hfirst, hrest⟩
      rw [hmem]
      exact blanked_char hnot

theorem fields_ne_nil (text : List Byte) : fields text ≠ [] := List.splitOn_ne_nil _ _

/-- A field has no blanks. -/
theorem notMem_fields {f : List Byte} (text : List Byte) (h : f ∈ fields text) : SPACE ∉ f := by
  induction text generalizing f with
  | nil =>
    have hnil : fields [] = [[]] := List.splitOn_nil _
    rw [hnil, List.mem_singleton] at h
    rw [h]
    exact List.not_mem_nil
  | cons c text ih =>
    have hcons : fields (c :: text) = if c == SPACE then [] :: fields text else (fields text).modifyHead (c :: ·) :=
      List.splitOn_cons_eq_if_modifyHead c text
    rw [hcons] at h
    obtain ⟨g, gs, hg⟩ := List.exists_cons_of_ne_nil (fields_ne_nil text)
    split at h
    · rcases List.mem_cons.1 h with rfl | h
      · exact List.not_mem_nil
      · exact ih h
    · rename_i hc
      have hne : SPACE ≠ c := fun e => hc (by rw [e]; exact beq_self_eq_true c)
      rw [hg, List.modifyHead_cons, List.mem_cons] at h
      rcases h with rfl | h
      · rw [List.mem_cons, not_or]
        exact ⟨hne, ih (by rw [hg]; exact List.mem_cons_self)⟩
      · exact ih (by rw [hg]; exact List.mem_cons_of_mem g h)

/-- What `parsemytoken` leaves in the memory and in the token array. -/
theorem parsemytoken_fields (h : StringAt mem buf text) (hfuel : text.length < fuel) (tokens : ℕ → ℕ)
    (maxTokens : ℕ) : ∃ tokens',
      parsemytoken fuel mem buf tokens maxTokens = some (blanked mem buf text.length, tokens') ∧
      (∀ j (hj : j < (fields text).length), j < maxTokens →
        StringAt (blanked mem buf text.length) (tokens' j) (fields text)[j]) ∧
      (0 < maxTokens → tokens' 0 = buf) ∧
      ∀ k, (fields text).length ≤ k ∨ maxTokens ≤ k → tokens' k = tokens k := by
  obtain ⟨s', hrun, hmem, htokens, hfirst, hrest⟩ := parseLoop_splits buf maxTokens text ⟨mem, tokens, 0, 0⟩ 0 [] h
    bytesAt_nil rfl List.not_mem_nil List.not_mem_nil hfuel
  rw [List.nil_append] at htokens hrest
  have hmem' : s'.mem = blanked mem buf text.length := hmem
  refine ⟨s'.setToken buf maxTokens, ?_, fun j hj hmax => ?_, hfirst, fun k hk => ?_⟩
  · unfold parsemytoken
    rw [hrun, ← hmem']
    rfl
  · have hj' := htokens j hj (by rw [Nat.zero_add]; exact hmax)
    rw [Nat.zero_add] at hj'
    rw [← hmem']
    exact hj'
  · refine hrest k (.inr ?_)
    rw [Nat.zero_add]
    exact hk

/-- A string ends at the first NUL. -/
theorem StringAt.length_le {k : ℕ} (h : StringAt mem a l) (hk : mem (a + k) = 0) : l.length ≤ k := by
  by_contra hlt
  have hlt : k < l.length := by omega
  have hbyte : l[k] = 0 := (h.bytes k hlt).symm.trans hk
  exact h.nonzero (by rw [← hbyte]; exact List.getElem_mem hlt)

/-- Without blanks nothing is overwritten. -/
theorem blanked_of_notMem (h : StringAt mem a l) (hl : SPACE ∉ l) : blanked mem a l.length = mem := by
  funext k
  unfold blanked
  split
  · rename_i hk
    obtain ⟨hlo, hhi, hspace⟩ := hk
    have hin : k - a < l.length := by omega
    have hbyte := h.bytes (k - a) hin
    have hback : a + (k - a) = k := by omega
    rw [hback, hspace] at hbyte
    exact absurd (by rw [hbyte]; exact List.getElem_mem hin) hl
  · rfl

/-- The first field is what is left at the beginning of the buffer. -/
theorem first_field (h : StringAt mem buf text) :
    StringAt (blanked mem buf text.length) buf ((fields text).head (fields_ne_nil text)) := by
  have hpos : 0 < (fields text).length := List.length_pos_of_ne_nil (fields_ne_nil text)
  obtain ⟨tokens', -, htokens, hfirst, -⟩ :=
    parsemytoken_fields h (Nat.lt_succ_self _) (fun _ => 0) 1
  have h0 := htokens 0 hpos Nat.zero_lt_one
  rw [hfirst Nat.zero_lt_one] at h0
  rw [List.head_eq_getElem]
  exact h0

/-- A second pass finds the first field, and changes nothing. -/
theorem parsemytoken_again (h : StringAt mem buf text) (hfuel : text.length < fuel) (tokens : ℕ → ℕ)
    (hmax : 1 ≤ maxTokens) : ∃ tokens',
      parsemytoken fuel (blanked mem buf text.length) buf tokens maxTokens =
        some (blanked mem buf text.length, tokens') ∧
      tokens' 0 = buf ∧
      StringAt (blanked mem buf text.length) (tokens' 0) ((fields text).head (fields_ne_nil text)) := by
  have hfirst := first_field h
  have hspace := notMem_fields text (List.head_mem (fields_ne_nil text))
  have hnul : blanked mem buf text.length (buf + text.length) = 0 := by
    unfold blanked
    rw [if_neg (by omega)]
    exact h.nul
  have hlen := hfirst.length_le hnul
  obtain ⟨tokens', hrun, -, htok, -⟩ := parsemytoken_fields hfirst (lt_of_le_of_lt hlen hfuel) tokens maxTokens
  rw [blanked_of_notMem hfirst hspace] at hrun
  refine ⟨tokens', hrun, htok hmax, ?_⟩
  rw [htok hmax]
  exact hfirst

/-- **`parsemytoken` splits at the blanks**, as far as there is room in the token array, and a second pass finds the
first field again. -/
theorem parsemytoken_splits (mem : Bytes) (buf : ℕ) (text : List Byte) (tokens : ℕ → ℕ) (maxTokens fuel : ℕ)
    (h : StringAt mem buf text) (hmax : 1 ≤ maxTokens) (hfuel : text.length < fuel) :
    ∃ mem' tokens', parsemytoken fuel mem buf tokens maxTokens = some (mem', tokens') ∧
      (∀ i (hi : i < (fields text).length), i < maxTokens → StringAt mem' (tokens' i) (fields text)[i]) ∧
      (∀ i, min (fields text).length maxTokens ≤ i → tokens' i = tokens i) ∧
      (∀ a, mem' a = if buf ≤ a ∧ a < buf + text.length ∧ mem a = SPACE then 0 else mem a) ∧
      ∀ again maxAgain, 1 ≤ maxAgain → ∃ tokens'', parsemytoken fuel mem' buf again maxAgain = some (mem', tokens'') ∧
        tokens'' 0 = tokens' 0 ∧ StringAt mem' (tokens'' 0) ((fields text).head (fields_ne_nil text)) := by
  obtain ⟨tokens', hrun, htokens, hfirst, hrest⟩ := parsemytoken_fields h hfuel tokens maxTokens
  refine ⟨_, tokens', hrun, htokens, fun i hi => hrest i (by omega), fun _ => rfl, fun again maxAgain hagain => ?_⟩
  obtain ⟨tokens'', hrun', h0, hfield⟩ := parsemytoken_again h hfuel again hagain
  refine ⟨tokens'', hrun', ?_, hfield⟩
  rw [h0, hfirst hmax]

/-- The memory with a string at address 0. -/
def memOf (l : List Byte) : Bytes := fun a => l.getD a 0

theorem stringAt_memOf (h : 0 ∉ l) : StringAt (memOf l) 0 l := by
  refine ⟨fun i hi => ?_, ?_, h⟩
  · unfold memOf
    rw [Nat.zero_add, List.getD_eq_getElem l 0 hi]
  · unfold memOf
    rw [Nat.zero_add, List.getD_eq_default l 0 le_rfl]

/-- The bytes of a word. -/
def ascii (s : String) : List Byte := s.toList.map fun c => BitVec.ofNat 8 c.toNat

/-- Two blanks, and room for two tokens. -/
theorem parsemytoken_splits_kill : ∃ mem' tokens',
    parsemytoken 10 (memOf (ascii "kill  7")) 0 (fun _ => 99) 2 = some (mem', tokens') ∧
      StringAt mem' (tokens' 0) (ascii "kill") ∧ StringAt mem' (tokens' 1) [] ∧ tokens' 2 = 99 := by
  obtain ⟨mem', tokens', hrun, htokens, hrest, -, -⟩ := parsemytoken_splits (memOf (ascii "kill  7")) 0
    (ascii "kill  7") (fun _ => 99) 2 10 (stringAt_memOf (by decide)) (by decide) (by decide)
  have hfields : fields (ascii "kill  7") = [ascii "kill", [], ascii "7"] := by decide
  simp only [hfields] at htokens hrest
  exact ⟨mem', tokens', hrun, htokens 0 (by decide) (by decide), htokens 1 (by decide) (by decide),
    hrest 2 (by decide)⟩

/-! ## The command -/

inductive Command
  | list
  | kill
  | exec
  | memlim
  | exit
  | invalid
  deriving DecidableEq

/-- `command[0] == .. && command[1] == ..`, which stops at the first character that differs. -/
def startsWith (mem : Bytes) : ℕ → List Byte → Bool
  | _, [] => true
  | a, c :: w => mem a == c && startsWith mem (a + 1) w

/-- The first word that the token begins with. `sizeof(command)` is never 0. -/
def commandOf (starts : List Byte → Bool) : Command :=
  if starts (ascii "list") then .list
  else if starts (ascii "kill") then .kill
  else if starts (ascii "execute") then .exec
  else if starts (ascii "memlim") then .memlim
  else if starts (ascii "exit") then .exit
  else .invalid

/-- `parsemycmd(buf)`; `tokens` is what the local array holds before. -/
def parsemycmd (fuel : ℕ) (mem : Bytes) (buf : ℕ) (tokens : ℕ → ℕ) : Option (Bytes × Command) :=
  (parsemytoken fuel mem buf tokens 4).map fun (mem, tokens) => (mem, commandOf (startsWith mem (tokens 0)))

/-- A word that does not contain the NUL is found if and only if it is a prefix. -/
theorem startsWith_eq {w : List Byte} (h : StringAt mem a l) (hw : 0 ∉ w) : startsWith mem a w = w.isPrefixOf l := by
  induction w generalizing a l with
  | nil => rfl
  | cons b w ih =>
    rw [List.mem_cons, not_or] at hw
    unfold startsWith
    cases l with
    | nil =>
      have hnul : mem a = 0 := h.nul
      rw [hnul, beq_eq_false_iff_ne.2 hw.1]
      rfl
    | cons c l =>
      obtain ⟨hc, -, hl⟩ := stringAt_cons.1 h
      rw [hc, ih hl hw.2, List.isPrefixOf_cons_cons, Bool.beq_comm]

/-- **What the command is**, when the line is cut already: it goes by what the first field begins with. -/
theorem parsemycmd_command (h : StringAt mem buf text) (hfuel : text.length < fuel) (tokens : ℕ → ℕ) :
    parsemycmd fuel (blanked mem buf text.length) buf tokens = some (blanked mem buf text.length,
      commandOf fun w => w.isPrefixOf ((fields text).head (fields_ne_nil text))) := by
  obtain ⟨tokens', hrun, -, hfield⟩ := parsemytoken_again h hfuel tokens (Nat.succ_le_succ (Nat.zero_le 3))
  unfold parsemycmd
  rw [hrun, Option.map_some]
  dsimp only
  unfold commandOf
  simp only [startsWith_eq hfield (show 0 ∉ ascii "list" by decide), startsWith_eq hfield (show 0 ∉ ascii "kill" by decide),
    startsWith_eq hfield (show 0 ∉ ascii "execute" by decide),
    startsWith_eq hfield (show 0 ∉ ascii "memlim" by decide), startsWith_eq hfield (show 0 ∉ ascii "exit" by decide)]

/-! ## Numbers -/

abbrev NEWLINE : Byte := 10

/-- `'0' <= c && c <= '9'`, for a signed `char`. -/
def isDigit (c : Byte) : Bool := BitVec.sle 48 c && BitVec.sle c 57

/-- The loop of `atoi`, with the `int` as it wraps. -/
def atoiLoop (mem : Bytes) : ℕ → ℕ → BitVec 32 → Option (BitVec 32)
  | 0, _, _ => none
  | fuel + 1, s, n =>
    if isDigit (mem s) then atoiLoop mem fuel (s + 1) (n * 10 + (mem s).signExtend 32 - 48) else some n

def atoi (fuel : ℕ) (mem : Bytes) (s : ℕ) : Option (BitVec 32) := atoiLoop mem fuel s 0

def strlen (mem : Bytes) : ℕ → ℕ → Option ℕ
  | 0, _ => none
  | fuel + 1, s => if mem s = 0 then some 0 else (strlen mem fuel (s + 1)).map (· + 1)

/-- `validate_num(txt)`. -/
def validateNum (fuel : ℕ) (mem : Bytes) (txt : ℕ) : Option (BitVec 32) := do
  let n ← strlen mem fuel txt
  if (List.range n).any fun i => !isDigit (mem (txt + i)) && mem (txt + i) ≠ NEWLINE then some (-1)
  else atoi fuel mem txt

/-- The number that digits denote. -/
def decimal (ds : List Byte) : ℕ := ds.foldl (fun n c => n * 10 + (c.toNat - 48)) 0

/-- The string is a number: digits, and perhaps a newline at the end. -/
structure Denotes (text ds : List Byte) : Prop where
  ne_nil : ds ≠ []
  digits : ∀ c ∈ ds, isDigit c = true
  text : text = ds ∨ text = ds ++ [NEWLINE]

/-- `validate_num` should return the number from 0 to 1000000000, or -1 when the string is none. -/
structure Documented (text : List Byte) (r : BitVec 32) : Prop where
  number : ∀ ds, Denotes text ds → decimal ds ≤ 1000000000 → r.toInt = decimal ds
  other : (¬ ∃ ds, Denotes text ds ∧ decimal ds ≤ 1000000000) → r = -1

/-- The string has a bad character, or is a number in the bounds, or its first digits overflow to -1. -/
def Validated (text : List Byte) : Prop :=
  (∃ c ∈ text, isDigit c = false ∧ c ≠ NEWLINE) ∨ (∃ ds, Denotes text ds ∧ decimal ds ≤ 1000000000) ∨
    decimal (text.takeWhile isDigit) % 2 ^ 32 = 2 ^ 32 - 1

theorem isDigit_iff (c : Byte) : isDigit c = true ↔ 48 ≤ c.toNat ∧ c.toNat ≤ 57 := by
  have h48 : (48 : Byte).toInt = 48 := by decide
  have h57 : (57 : Byte).toInt = 57 := by decide
  unfold isDigit
  rw [Bool.and_eq_true, BitVec.sle_iff_toInt_le, BitVec.sle_iff_toInt_le, h48, h57, BitVec.toInt_eq_toNat_cond]
  have hlt := c.isLt
  split
  · omega
  · omega

theorem strlen_eq (h : StringAt mem a l) (hfuel : l.length < fuel) : strlen mem fuel a = some l.length := by
  induction l generalizing a fuel with
  | nil =>
    obtain ⟨fuel, rfl⟩ : ∃ f, fuel = f + 1 := ⟨fuel - 1, by omega⟩
    exact if_pos h.nul
  | cons c l ih =>
    obtain ⟨fuel, rfl⟩ : ∃ f, fuel = f + 1 := ⟨fuel - 1, by omega⟩
    obtain ⟨hc, hc0, hl⟩ := stringAt_cons.1 h
    rw [List.length_cons] at hfuel
    unfold strlen
    rw [if_neg (by rw [hc]; exact hc0), ih hl (by omega)]
    rfl

/-- A turn of the loop of `atoi`. -/
theorem atoi_step {c : Byte} (h : isDigit c = true) (n : ℕ) :
    BitVec.ofNat 32 n * 10 + c.signExtend 32 - 48 = BitVec.ofNat 32 (n * 10 + (c.toNat - 48)) := by
  obtain ⟨hlo, hhi⟩ := (isDigit_iff c).1 h
  have hmsb : c.msb = false := by
    rw [BitVec.msb_eq_false_iff_two_mul_lt]
    omega
  rw [BitVec.signExtend_eq_setWidth_of_msb_false hmsb]
  apply BitVec.eq_of_toNat_eq
  have h10 : (10 : BitVec 32).toNat = 10 := rfl
  have h48 : (48 : BitVec 32).toNat = 48 := rfl
  rw [BitVec.toNat_sub, BitVec.toNat_add, BitVec.toNat_mul, BitVec.toNat_setWidth, BitVec.toNat_ofNat,
    BitVec.toNat_ofNat, h10, h48]
  omega

/-- **`atoi`** is the number that the first digits denote, modulo `2 ^ 32`. -/
theorem atoiLoop_eq (h : StringAt mem a l) (hfuel : l.length < fuel) (n : ℕ) :
    atoiLoop mem fuel a (BitVec.ofNat 32 n) =
      some (BitVec.ofNat 32 ((l.takeWhile isDigit).foldl (fun n c => n * 10 + (c.toNat - 48)) n)) := by
  induction l generalizing a fuel n with
  | nil =>
    obtain ⟨fuel, rfl⟩ : ∃ f, fuel = f + 1 := ⟨fuel - 1, by omega⟩
    have hnul : mem a = 0 := h.nul
    exact if_neg (by rw [hnul]; decide)
  | cons c l ih =>
    obtain ⟨fuel, rfl⟩ : ∃ f, fuel = f + 1 := ⟨fuel - 1, by omega⟩
    obtain ⟨hc, -, hl⟩ := stringAt_cons.1 h
    rw [List.length_cons] at hfuel
    unfold atoiLoop
    rw [hc]
    by_cases hd : isDigit c = true
    · rw [if_pos hd, atoi_step hd, ih hl (by omega), List.takeWhile_cons, if_pos hd, List.foldl_cons]
    · rw [if_neg hd, List.takeWhile_cons, if_neg hd]
      rfl

/-- The characters that `validate_num` refuses. -/
theorem any_bad (h : BytesAt mem a l) :
    ((List.range l.length).any fun i => !isDigit (mem (a + i)) && mem (a + i) ≠ NEWLINE) = true ↔
      ∃ c ∈ l, isDigit c = false ∧ c ≠ NEWLINE := by
  rw [List.any_eq_true]
  constructor
  · rintro ⟨i, hi, hbad⟩
    have hi := List.mem_range.1 hi
    rw [h i hi, Bool.and_eq_true, Bool.not_eq_true', decide_eq_true_iff] at hbad
    exact ⟨l[i], List.getElem_mem hi, hbad⟩
  · rintro ⟨c, hc, hbad⟩
    obtain ⟨i, hi, rfl⟩ := List.getElem_of_mem hc
    refine ⟨i, List.mem_range.2 hi, ?_⟩
    rw [h i hi, Bool.and_eq_true, Bool.not_eq_true', decide_eq_true_iff]
    exact hbad

/-- The digits of a number are its first digits. -/
theorem Denotes.takeWhile {ds : List Byte} (h : Denotes text ds) : text.takeWhile isDigit = ds := by
  have hall : ds.takeWhile isDigit = ds := List.takeWhile_eq_self_iff.2 h.digits
  rcases h.text with rfl | rfl
  · exact hall
  · rw [List.takeWhile_append_of_pos h.digits, List.takeWhile_cons, if_neg (by decide), List.append_nil]

theorem Denotes.good {ds : List Byte} (h : Denotes text ds) : ¬ ∃ c ∈ text, isDigit c = false ∧ c ≠ NEWLINE := by
  rintro ⟨c, hc, hdigit, hnl⟩
  have hds : c ∉ ds := fun hm => by
    rw [h.digits c hm] at hdigit
    cases hdigit
  rcases h.text with rfl | rfl
  · exact hds hc
  · rcases List.mem_append.1 hc with hc | hc
    · exact hds hc
    · exact hnl (List.mem_singleton.1 hc)

/-- What `validate_num` returns. -/
theorem validateNum_eq (h : StringAt mem a text) (hfuel : text.length < fuel) :
    (∃ c ∈ text, isDigit c = false ∧ c ≠ NEWLINE) ∧ validateNum fuel mem a = some (-1) ∨
      (¬ ∃ c ∈ text, isDigit c = false ∧ c ≠ NEWLINE) ∧
        validateNum fuel mem a = some (BitVec.ofNat 32 (decimal (text.takeWhile isDigit))) := by
  unfold validateNum
  rw [strlen_eq h hfuel, Option.bind_eq_bind, Option.bind_some]
  by_cases hbad : ∃ c ∈ text, isDigit c = false ∧ c ≠ NEWLINE
  · exact .inl ⟨hbad, if_pos ((any_bad h.bytes).2 hbad)⟩
  · refine .inr ⟨hbad, ?_⟩
    rw [if_neg fun hany => hbad ((any_bad h.bytes).1 hany)]
    exact atoiLoop_eq h hfuel 0

/-- **`validate_num` does what its comment says** if and only if the string has a bad character, or is a number in
the bounds, or begins with digits that overflow to -1. -/
theorem validateNum_documented_iff (mem : Bytes) (txt : ℕ) (text : List Byte) (fuel : ℕ) (h : StringAt mem txt text)
    (hfuel : text.length < fuel) :
    ∃ r, validateNum fuel mem txt = some r ∧ (Documented text r ↔ Validated text) := by
  rcases validateNum_eq h hfuel with ⟨hbad, hrun⟩ | ⟨hgood, hrun⟩
  · refine ⟨_, hrun, fun _ => .inl hbad, fun _ => ⟨fun ds hds _ => ?_, fun _ => rfl⟩⟩
    exact absurd hbad hds.good
  · refine ⟨_, hrun, ?_⟩
    by_cases hnum : ∃ ds, Denotes text ds ∧ decimal ds ≤ 1000000000
    · -- a number in the bounds
      refine ⟨fun _ => .inr (.inl hnum), fun _ => ⟨fun ds hds hle => ?_, fun hno => absurd hnum hno⟩⟩
      rw [hds.takeWhile, BitVec.toInt_eq_toNat_cond, BitVec.toNat_ofNat]
      split
      · omega
      · omega
    · constructor
      · intro hdoc
        have hr := congrArg BitVec.toNat (hdoc.other hnum)
        rw [BitVec.toNat_ofNat] at hr
        exact .inr (.inr hr)
      · rintro (hbad | hnum' | hover)
        · exact absurd hbad hgood
        · exact absurd hnum' hnum
        · refine ⟨fun ds hds hle => absurd ⟨ds, hds, hle⟩ hnum, fun _ => BitVec.eq_of_toNat_eq ?_⟩
          rw [BitVec.toNat_ofNat, hover]
          rfl

/-- A number in the bounds, with the newline that `gets` leaves. -/
theorem validateNum_documented_limit : ∃ r, validateNum 20 (memOf (ascii "1000000000\n")) 0 = some r ∧
    Documented (ascii "1000000000\n") r := by
  obtain ⟨r, hrun, hiff⟩ := validateNum_documented_iff (memOf (ascii "1000000000\n")) 0 (ascii "1000000000\n") 20
    (stringAt_memOf (by decide)) (by decide)
  have hnum : Denotes (ascii "1000000000\n") (ascii "1000000000") := ⟨by decide, by decide, .inr (by decide)⟩
  exact ⟨r, hrun, hiff.2 (.inr (.inl ⟨_, hnum, by decide⟩))⟩

/-- **4294967297 is taken for 1**, and the empty string for 0. -/
theorem validateNum_overflows : (∃ r, validateNum 20 (memOf (ascii "4294967297")) 0 = some r ∧ r = 1 ∧
      ¬ Documented (ascii "4294967297") r) ∧
    ∃ r, validateNum 1 (memOf []) 0 = some r ∧ r = 0 ∧ ¬ Documented [] r := by
  refine ⟨⟨1, by decide, rfl, fun hdoc => ?_⟩, 0, by decide, rfl, fun hdoc => ?_⟩
  · have hlarge : ¬ ∃ ds, Denotes (ascii "4294967297") ds ∧ decimal ds ≤ 1000000000 := by
      rintro ⟨ds, hds, hle⟩
      have hdigits := hds.takeWhile
      have hwhole : (ascii "4294967297").takeWhile isDigit = ascii "4294967297" := by decide
      rw [hwhole] at hdigits
      rw [← hdigits] at hle
      exact absurd hle (by decide)
    exact absurd (hdoc.other hlarge) (by decide)
  · have hempty : ¬ ∃ ds, Denotes [] ds ∧ decimal ds ≤ 1000000000 := by
      rintro ⟨ds, hds, -⟩
      exact hds.ne_nil hds.takeWhile.symm
    exact absurd (hdoc.other hempty) (by decide)

end Xv6.User
