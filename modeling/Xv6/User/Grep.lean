import Mathlib.Computability.Language
import Xv6.Lib.Bytes

/-!
# grep

`grep.c`: the matcher, on strings without their terminating zero, with the language that a pattern means, and the loop
over the input with its buffer.

* `matchhere`: the recursion of the source; `matchstar` gets what comes after the star as a function.
* `lang`: a pattern as a language, where only `.`, `*` and a `$` at the end are special.
* **`match_exact`**: a text matches if and only if a part of it is in the language of the pattern, at the start with `^`
  and at the end with `$`.
* **`grep_prints`**: the lines of a file that match are written.
* **`short_read_loses`**: a part of a line that a pipe gives without its end is dropped.
-/

namespace Xv6.Grep

open Computability

def caret : Byte := 94

def dollar : Byte := 36

def star : Byte := 42

def dot : Byte := 46

/-! ## The source -/

/-- `c == '.' || c == *text` -/
def Accepts (c x : Byte) : Prop := c = dot ∨ c = x

instance (c x : Byte) : Decidable (Accepts c x) := by
  unfold Accepts
  infer_instance

/-- `matchstar`: a `*` matches zero or more instances. -/
def matchstar (c : Byte) (here : List Byte → Bool) : List Byte → Bool
  | [] => here []
  | x :: text => here (x :: text) || decide (Accepts c x) && matchstar c here text

/-- `matchhere`: search for `re` at the beginning of the text. -/
def matchhere : List Byte → List Byte → Bool
  | [], _ => true
  | [c], text => if c = dollar then text.isEmpty else text.head?.any fun x => decide (Accepts c x)
  | c :: d :: re, text =>
    if d = star then matchstar c (matchhere re) text
    else
      match text with
      | [] => false
      | x :: text => decide (Accepts c x) && matchhere (d :: re) text

/-- The loop of `match`, which looks at the empty string too. -/
def search (re : List Byte) : List Byte → Bool
  | [] => matchhere re []
  | x :: text => matchhere re (x :: text) || search re text

/-- The pattern after `^`. -/
def body : List Byte → List Byte
  | [] => []
  | c :: re => if c = caret then re else c :: re

/-- `match` -/
def grepMatch (re text : List Byte) : Bool :=
  if re.head? = some caret then matchhere (body re) text else search (body re) text

/-! ## The languages -/

/-- What one character of a pattern stands for. -/
def one (c : Byte) : Language Byte := {w | ∃ x, w = [x] ∧ Accepts c x}

def lang : List Byte → Language Byte
  | [] => 1
  | [c] => if c = dollar then 1 else one c
  | c :: d :: re => if d = star then (one c)∗ * lang re else one c * lang (d :: re)

/-- The pattern ends with the anchor `$`. -/
def Ends : List Byte → Prop
  | [] => False
  | [c] => c = dollar
  | _ :: d :: re => if d = star then Ends re else Ends (d :: re)

variable {c x : Byte} {u text : List Byte}

theorem mem_one : u ∈ one c ↔ ∃ x, u = [x] ∧ Accepts c x := Iff.rfl

theorem cons_mem_kstar : x :: u ∈ (one c)∗ ↔ Accepts c x ∧ u ∈ (one c)∗ := by
  constructor
  · intro h
    obtain ⟨l, hl, hmem⟩ := Language.mem_kstar.1 h
    cases l with
    | nil => cases hl
    | cons w l =>
      obtain ⟨y, rfl, hy⟩ := mem_one.1 (hmem w (by simp))
      obtain ⟨rfl, rfl⟩ : x = y ∧ u = l.flatten := by simpa using hl
      exact ⟨hy, Language.mem_kstar.2 ⟨l, rfl, fun w hw => hmem w (by simp [hw])⟩⟩
  · rintro ⟨hx, hu⟩
    obtain ⟨l, rfl, hmem⟩ := Language.mem_kstar.1 hu
    refine Language.mem_kstar.2 ⟨[x] :: l, rfl, fun w hw => ?_⟩
    rcases List.mem_cons.1 hw with rfl | hw
    · exact mem_one.2 ⟨x, rfl, hx⟩
    · exact hmem w hw

/-- The loop stops where what comes after the star is found. -/
theorem matchstar_iff (here : List Byte → Bool) (text : List Byte) :
    matchstar c here text = true ↔ ∃ u ∈ (one c)∗, ∃ v, text = u ++ v ∧ here v = true := by
  induction text with
  | nil =>
    constructor
    · intro h
      exact ⟨[], Language.nil_mem_kstar _, [], rfl, h⟩
    · rintro ⟨u, -, v, huv, hv⟩
      obtain ⟨rfl, rfl⟩ := List.append_eq_nil_iff.1 huv.symm
      exact hv
  | cons x text ih =>
    rw [matchstar, Bool.or_eq_true, Bool.and_eq_true, decide_eq_true_iff, ih]
    constructor
    · rintro (h | ⟨hx, u, hu, v, rfl, hv⟩)
      · exact ⟨[], Language.nil_mem_kstar _, x :: text, rfl, h⟩
      · exact ⟨x :: u, cons_mem_kstar.2 ⟨hx, hu⟩, v, rfl, hv⟩
    · rintro ⟨u, hu, v, huv, hv⟩
      cases u with
      | nil =>
        left
        rw [huv]
        exact hv
      | cons y u =>
        obtain ⟨rfl, rfl⟩ : x = y ∧ text = u ++ v := by simpa using huv
        obtain ⟨hx, hu⟩ := cons_mem_kstar.1 hu
        exact .inr ⟨hx, u, hu, v, rfl, hv⟩

/-- One character of the text. -/
theorem head_iff {L : Language Byte} {P : List Byte → Prop} : (∃ u ∈ one c * L, ∃ v, text = u ++ v ∧ P v) ↔
    ∃ x text', text = x :: text' ∧ Accepts c x ∧ ∃ u ∈ L, ∃ v, text' = u ++ v ∧ P v := by
  constructor
  · rintro ⟨u, hu, v, rfl, hv⟩
    obtain ⟨a, ha, b, hb, rfl⟩ := Language.mem_mul.1 hu
    obtain ⟨x, rfl, hx⟩ := mem_one.1 ha
    exact ⟨x, b ++ v, rfl, hx, b, hb, v, rfl, hv⟩
  · rintro ⟨x, text', rfl, hx, u, hu, v, rfl, hv⟩
    exact ⟨[x] ++ u, Language.mem_mul.2 ⟨[x], mem_one.2 ⟨x, rfl, hx⟩, u, hu, rfl⟩, v, rfl, hv⟩

/-- **`matchhere` finds the prefixes that are in the language.** -/
theorem matchhere_iff (re text : List Byte) :
    matchhere re text = true ↔ ∃ u ∈ lang re, ∃ v, text = u ++ v ∧ (Ends re → v = []) := by
  induction re using lang.induct generalizing text with
  | case1 =>
    constructor
    · exact fun _ => ⟨[], Language.mem_one _ |>.2 rfl, text, rfl, False.elim⟩
    · exact fun _ => rfl
  | case2 =>
    rw [matchhere, if_pos rfl, lang, if_pos rfl, List.isEmpty_iff]
    constructor
    · rintro rfl
      exact ⟨[], Language.mem_one _ |>.2 rfl, [], rfl, fun _ => rfl⟩
    · rintro ⟨u, hu, v, rfl, hv⟩
      rw [(Language.mem_one u).1 hu, hv rfl]
      rfl
  | case3 c hc =>
    have hone : lang [c] = one c * 1 := by rw [lang, if_neg hc, mul_one]
    have hends : Ends [c] ↔ False := iff_false_intro hc
    rw [matchhere, if_neg hc, hone, head_iff]
    constructor
    · intro h
      cases text with
      | nil => cases h
      | cons x text =>
        exact ⟨x, text, rfl, of_decide_eq_true h, [], Language.mem_one _ |>.2 rfl, text, rfl, fun he => (hends.1 he).elim⟩
    · rintro ⟨x, text, rfl, hx, -⟩
      exact decide_eq_true hx
  | case4 c re ih =>
    have hlang : lang (c :: star :: re) = (one c)∗ * lang re := by rw [lang, if_pos rfl]
    have hends : Ends (c :: star :: re) ↔ Ends re := by rw [Ends, if_pos rfl]
    have hstar : matchhere (c :: star :: re) text = matchstar c (matchhere re) text := if_pos rfl
    rw [hstar, matchstar_iff, hlang, hends]
    constructor
    · rintro ⟨u, hu, v, rfl, hv⟩
      obtain ⟨u', hu', v', rfl, hv'⟩ := (ih v).1 hv
      exact ⟨u ++ u', Language.mem_mul.2 ⟨u, hu, u', hu', rfl⟩, v', (List.append_assoc ..).symm, hv'⟩
    · rintro ⟨w, hw, v, rfl, hv⟩
      obtain ⟨u, hu, u', hu', rfl⟩ := Language.mem_mul.1 hw
      exact ⟨u, hu, u' ++ v, List.append_assoc .., (ih _).2 ⟨u', hu', v, rfl, hv⟩⟩
  | case5 c d re hd ih =>
    have hlang : lang (c :: d :: re) = one c * lang (d :: re) := by rw [lang, if_neg hd]
    have hends : Ends (c :: d :: re) ↔ Ends (d :: re) := by rw [Ends, if_neg hd]
    have hnil : matchhere (c :: d :: re) [] = false := if_neg hd
    have hcons : ∀ x text, matchhere (c :: d :: re) (x :: text) =
        (decide (Accepts c x) && matchhere (d :: re) text) := fun x text => if_neg hd
    rw [hlang, hends, head_iff]
    constructor
    · intro h
      cases text with
      | nil =>
        rw [hnil] at h
        cases h
      | cons x text =>
        rw [hcons, Bool.and_eq_true] at h
        exact ⟨x, text, rfl, of_decide_eq_true h.1, (ih text).1 h.2⟩
    · rintro ⟨x, text, rfl, hx, h⟩
      rw [hcons, Bool.and_eq_true]
      exact ⟨decide_eq_true hx, (ih text).2 h⟩

theorem search_iff (re text : List Byte) :
    search re text = true ↔ ∃ a v, text = a ++ v ∧ matchhere re v = true := by
  induction text with
  | nil =>
    constructor
    · exact fun h => ⟨[], [], rfl, h⟩
    · rintro ⟨a, v, hav, hv⟩
      obtain ⟨rfl, rfl⟩ := List.append_eq_nil_iff.1 hav.symm
      exact hv
  | cons x text ih =>
    rw [search, Bool.or_eq_true, ih]
    constructor
    · rintro (h | ⟨a, v, rfl, hv⟩)
      · exact ⟨[], x :: text, rfl, h⟩
      · exact ⟨x :: a, v, rfl, hv⟩
    · rintro ⟨a, v, hav, hv⟩
      cases a with
      | nil =>
        left
        rw [hav]
        exact hv
      | cons y a =>
        obtain ⟨rfl, rfl⟩ : x = y ∧ text = a ++ v := by simpa using hav
        exact .inr ⟨a, v, rfl, hv⟩

/-- **What matches**: a text with a part in the language of the pattern, which starts at the beginning if the pattern
starts with `^`, and goes to the end if it ends with `$`. -/
theorem match_exact (re text : List Byte) : grepMatch re text = true ↔ ∃ a u v, text = a ++ (u ++ v) ∧
    u ∈ lang (body re) ∧ (re.head? = some caret → a = []) ∧ (Ends (body re) → v = []) := by
  unfold grepMatch
  by_cases hc : re.head? = some caret
  · rw [if_pos hc, matchhere_iff]
    constructor
    · rintro ⟨u, hu, v, rfl, hv⟩
      exact ⟨[], u, v, rfl, hu, fun _ => rfl, hv⟩
    · rintro ⟨a, u, v, rfl, hu, ha, hv⟩
      rw [ha hc]
      exact ⟨u, hu, v, rfl, hv⟩
  · rw [if_neg hc, search_iff]
    constructor
    · rintro ⟨a, w, rfl, hw⟩
      obtain ⟨u, hu, v, rfl, hv⟩ := (matchhere_iff _ w).1 hw
      exact ⟨a, u, v, rfl, hu, fun h => absurd h hc, hv⟩
    · rintro ⟨a, u, v, rfl, hu, -, hv⟩
      exact ⟨a, u ++ v, rfl, (matchhere_iff _ _).2 ⟨u, hu, v, rfl, hv⟩⟩

/-! ## The lines of the input -/

def newline : Byte := 10

/-- `strchr(p, '\n')`: the line, and what is after it. -/
def cutLine : List Byte → Option (List Byte × List Byte)
  | [] => none
  | x :: p =>
    if x = newline then some ([], p) else if x = 0 then none else (cutLine p).map fun c => (x :: c.1, c.2)

/-- The inner loop of `grep`, for at most `k` lines: what it writes, and where `p` is after it. -/
def printLines (pattern : List Byte) : ℕ → List Byte → List Byte × List Byte
  | 0, p => ([], p)
  | k + 1, p =>
    match cutLine p with
    | none => ([], p)
    | some (line, rest) =>
      let r := printLines pattern k rest
      ((if grepMatch pattern line then line ++ [newline] else []) ++ r.1, r.2)

/-- `grep`: what it writes. `sizes` says how many bytes each `read` is ready to give, `buf` is what the last round left. -/
def grep (pattern : List Byte) : List ℕ → List Byte → List Byte → List Byte
  | [], _, _ => []
  | size :: sizes, buf, file =>
    let chunk := file.take (min size (1024 - buf.length - 1))
    if chunk = [] then []
    else
      let r := printLines pattern (buf ++ chunk).length (buf ++ chunk)
      -- `if(p == buf) m = 0;`
      r.1 ++ grep pattern sizes (if r.2.length = (buf ++ chunk).length then [] else r.2) (file.drop chunk.length)

/-- The lines that end. -/
def lines (file : List Byte) : List (List Byte) := (file.splitOn newline).dropLast

def printed (pattern : List Byte) (ls : List (List Byte)) : List Byte :=
  (ls.filter fun l => grepMatch pattern l).flatMap fun l => l ++ [newline]

variable {pattern l p rest : List Byte}

theorem lines_of_not_mem (h : newline ∉ p) : lines p = [] := by
  unfold lines
  rw [List.splitOn_eq_singleton h]
  rfl

theorem lines_cons (h : newline ∉ l) (rest : List Byte) : lines (l ++ newline :: rest) = l :: lines rest := by
  unfold lines
  rw [List.splitOn_append_cons_self_of_not_mem h]
  exact List.dropLast_cons_of_ne_nil (List.splitOn_ne_nil newline rest)

theorem printed_append (ls ls' : List (List Byte)) : printed pattern (ls ++ ls') = printed pattern ls ++ printed pattern ls' := by
  unfold printed
  rw [List.filter_append, List.flatMap_append]

theorem cutLine_none (h0 : (0 : Byte) ∉ p) (h : cutLine p = none) : newline ∉ p := by
  induction p with
  | nil => exact List.not_mem_nil
  | cons x p ih =>
    rw [cutLine] at h
    by_cases hx : x = newline
    · rw [if_pos hx] at h
      cases h
    · rw [if_neg hx, if_neg (fun hx0 => h0 (by simp [hx0])), Option.map_eq_none_iff] at h
      have hp := ih (fun hp => h0 (List.mem_cons_of_mem x hp)) h
      simp [Ne.symm hx, hp]

theorem cutLine_some (h : cutLine p = some (l, rest)) : p = l ++ newline :: rest ∧ newline ∉ l := by
  induction p generalizing l with
  | nil => cases h
  | cons x p ih =>
    rw [cutLine] at h
    by_cases hx : x = newline
    · rw [if_pos hx] at h
      cases h
      exact ⟨by rw [hx]; rfl, List.not_mem_nil⟩
    · rw [if_neg hx] at h
      by_cases h0 : x = 0
      · rw [if_pos h0] at h
        cases h
      · rw [if_neg h0, Option.map_eq_some_iff] at h
        obtain ⟨⟨l', rest'⟩, hc, heq⟩ := h
        cases heq
        obtain ⟨rfl, hl⟩ := ih hc
        exact ⟨rfl, by simp [Ne.symm hx, hl]⟩

/-- The inner loop writes the lines that match, and leaves what is after the last newline. -/
theorem printLines_spec (pattern : List Byte) (k : ℕ) {p : List Byte} (hk : p.length ≤ k) (h0 : (0 : Byte) ∉ p) :
    ∃ ls done, (printLines pattern k p).1 = printed pattern ls ∧ newline ∉ (printLines pattern k p).2 ∧
      p = done ++ (printLines pattern k p).2 ∧ (newline ∈ p ↔ done ≠ []) ∧
      ∀ s, lines (p ++ s) = ls ++ lines ((printLines pattern k p).2 ++ s) := by
  induction k generalizing p with
  | zero =>
    have hp : p = [] := List.length_eq_zero_iff.1 (by omega)
    rw [hp]
    exact ⟨[], [], rfl, List.not_mem_nil, rfl, by simp, fun s => rfl⟩
  | succ k ih =>
    rw [printLines]
    cases hc : cutLine p with
    | none =>
      have hno := cutLine_none h0 hc
      exact ⟨[], [], rfl, hno, rfl, by simp [hno], fun s => rfl⟩
    | some c =>
      obtain ⟨l, rest⟩ := c
      obtain ⟨rfl, hl⟩ := cutLine_some hc
      have hlen : rest.length ≤ k := by
        rw [List.length_append, List.length_cons] at hk
        omega
      obtain ⟨ls, done, hout, hleft, hrest, -, hlines⟩ := ih hlen fun h =>
        h0 (List.mem_append_right l (List.mem_cons_of_mem newline h))
      refine ⟨l :: ls, l ++ newline :: done, ?_, hleft, ?_, by simp, fun s => ?_⟩
      · show (if grepMatch pattern l then l ++ [newline] else []) ++ (printLines pattern k rest).1 = printed pattern (l :: ls)
        rw [hout]
        unfold printed
        rw [List.filter_cons]
        split <;> simp
      · show l ++ newline :: rest = l ++ newline :: done ++ (printLines pattern k rest).2
        rw [List.append_assoc, List.cons_append, ← hrest]
      · show lines (l ++ newline :: rest ++ s) = l :: ls ++ lines ((printLines pattern k rest).2 ++ s)
        rw [List.append_assoc, List.cons_append, lines_cons hl, hlines s]
        rfl

/-- What a full `read` leaves of the file. -/
theorem take_spec (n : ℕ) (file : List Byte) : file = file.take n ++ file.drop (file.take n).length ∧
    (file.drop (file.take n).length = [] ∨ (file.take n).length = n) := by
  rw [List.length_take]
  rcases Nat.le_total n file.length with h | h
  · rw [Nat.min_eq_left h]
    exact ⟨(List.take_append_drop n file).symm, .inr rfl⟩
  · rw [Nat.min_eq_right h, List.drop_length, List.take_of_length_le h]
    exact ⟨(List.append_nil file).symm, .inl rfl⟩

theorem grep_spec {sizes : List ℕ} (hsizes : ∀ k ∈ sizes, 1024 ≤ k) {buf file : List Byte}
    (hmany : file.length < sizes.length) (hbuf : newline ∉ buf) (hroom : buf.length < 1023)
    (h0 : (0 : Byte) ∉ buf ++ file) (hlines : ∀ l ∈ lines (buf ++ file), l.length < 1023) :
    grep pattern sizes buf file = printed pattern (lines (buf ++ file)) := by
  induction sizes generalizing buf file with
  | nil => cases hmany
  | cons size sizes ih =>
    have hsizes' : ∀ k ∈ sizes, 1024 ≤ k := fun k hk => hsizes k (List.mem_cons_of_mem size hk)
    have hsize : min size (1024 - buf.length - 1) = 1023 - buf.length := by
      have hle := hsizes size (by simp)
      omega
    obtain ⟨hfile, hfull⟩ := take_spec (1023 - buf.length) file
    have hshort : (file.take (1023 - buf.length)).length ≤ 1023 - buf.length := List.length_take_le ..
    rw [grep, hsize]
    revert hfile hfull hshort
    generalize file.take (1023 - buf.length) = chunk
    generalize file.drop chunk.length = rest
    rintro rfl hfull hshort
    by_cases hchunk : chunk = []
    · have hrest : rest = [] := by
        refine hfull.resolve_right fun h => ?_
        rw [hchunk, List.length_nil] at h
        omega
      rw [if_pos hchunk, hchunk, hrest, List.append_nil, List.append_nil, lines_of_not_mem hbuf]
      rfl
    rw [if_neg hchunk]
    rw [← List.append_assoc] at h0 hlines ⊢
    have hpos := List.length_pos_of_ne_nil hchunk
    have hmany' : rest.length < sizes.length := by
      rw [List.length_append, List.length_cons] at hmany
      omega
    have hdata : (0 : Byte) ∉ buf ++ chunk := fun h => h0 (List.mem_append_left rest h)
    obtain ⟨ls, done, hout, hleft, hdone, hne, hcut⟩ := printLines_spec pattern (buf ++ chunk).length le_rfl hdata
    show (printLines pattern (buf ++ chunk).length (buf ++ chunk)).1 ++ _ = _
    rw [hout, hcut rest, printed_append]
    rw [hcut rest] at hlines
    generalize (printLines pattern (buf ++ chunk).length (buf ++ chunk)).2 = left at hlines hleft hdone hcut ⊢
    by_cases hnl : newline ∈ buf ++ chunk
    · -- what is left of the last line goes before the next chunk
      have hlt : left.length < (buf ++ chunk).length := by
        have hdpos := List.length_pos_of_ne_nil (hne.1 hnl)
        rw [hdone, List.length_append]
        omega
      rw [if_neg (by omega)]
      congr 1
      rw [List.length_append] at hlt
      rw [hdone, List.append_assoc] at h0
      exact ih hsizes' hmany' hleft (by omega) (fun h => h0 (List.mem_append_right done h))
        fun l hl => hlines l (List.mem_append_right ls hl)
    · have hnil : done = [] := by
        by_contra h
        exact hnl (hne.2 h)
      rw [hnil, List.nil_append] at hdone
      subst hdone
      have hls : ls = [] := by
        have hlen := congrArg List.length (hcut rest)
        rw [List.length_append] at hlen
        exact List.length_eq_zero_iff.1 (by omega)
      -- a line would be too long for the buffer
      have hrest : newline ∉ rest := by
        intro hin
        obtain ⟨l, r, rfl, hl⟩ := List.eq_append_cons_of_mem hin
        have hlen : chunk.length = 1023 - buf.length := hfull.resolve_left (by simp)
        have hcons : lines (buf ++ chunk ++ (l ++ newline :: r)) = (buf ++ chunk ++ l) :: lines r := by
          rw [← List.append_assoc]
          exact lines_cons (List.not_mem_append hnl hl) r
        have hlong := hlines (buf ++ chunk ++ l) (by rw [hcons]; simp)
        rw [List.length_append, List.length_append] at hlong
        omega
      rw [if_pos rfl, hls, lines_of_not_mem (List.not_mem_append hnl hrest)]
      rw [ih hsizes' hmany' List.not_mem_nil (by decide) (fun h => h0 (List.mem_append_right (buf ++ chunk) h))]
      · rw [List.nil_append, lines_of_not_mem hrest]
      · rw [List.nil_append, lines_of_not_mem hrest]
        exact fun l hl => by cases hl

/-- **What grep writes**: the lines that match, in their order, if no line is longer than the buffer and every `read`
gives what it is asked for, as that of a file does. -/
theorem grep_prints (pattern : List Byte) {sizes : List ℕ} {file : List Byte} (hsizes : ∀ k ∈ sizes, 1024 ≤ k)
    (hmany : file.length < sizes.length) (h0 : (0 : Byte) ∉ file) (hlines : ∀ l ∈ lines file, l.length < 1023) :
    grep pattern sizes [] file = printed pattern (lines file) :=
  grep_spec hsizes hmany List.not_mem_nil (by decide) h0 hlines

theorem grep_prints_two : grep [97] (List.replicate 5 1024) [] [97, 10, 98, 10] = [97, 10] :=
  (grep_prints [97] (by decide) (by decide) (by decide) (by decide)).trans (by decide)

/-- **A short read loses bytes**: if a `read` (of a pipe, say) ends within a line that begins in the buffer, `p == buf`
and all that the buffer has of the line is dropped; only what comes after it is looked at, and written. -/
theorem short_read_loses (pattern : List Byte) {buf a b rest : List Byte} {sizes : List ℕ} (ha : a ≠ [])
    (hline : newline ∉ buf ++ a ++ b) (hroom : buf.length + a.length < 1024)
    (h0 : (0 : Byte) ∉ buf ++ a ++ (b ++ newline :: rest)) (hlines : ∀ l ∈ b :: lines rest, l.length < 1023)
    (hsizes : ∀ k ∈ sizes, 1024 ≤ k) (hmany : (b ++ newline :: rest).length < sizes.length) :
    lines (buf ++ a ++ (b ++ newline :: rest)) = (buf ++ a ++ b) :: lines rest ∧
      grep pattern (a.length :: sizes) buf (a ++ (b ++ newline :: rest)) = printed pattern (b :: lines rest) := by
  have hcur : newline ∉ buf ++ a := fun h => hline (List.mem_append_left b h)
  have hb : newline ∉ b := fun h => hline (List.mem_append_right (buf ++ a) h)
  refine ⟨by rw [← List.append_assoc, lines_cons hline], ?_⟩
  have hmin : min a.length (1024 - buf.length - 1) = a.length := by omega
  obtain ⟨ls, done, hout, -, hdone, hne, hcut⟩ :=
    printLines_spec pattern (buf ++ a).length le_rfl fun h => h0 (List.mem_append_left _ h)
  have hnil : done = [] := by
    by_contra h
    exact hcur (hne.2 h)
  rw [hnil, List.nil_append] at hdone
  have hls : ls = [] := by
    have hempty := hcut []
    rw [List.append_nil, lines_of_not_mem hcur] at hempty
    exact (List.append_eq_nil_iff.1 hempty.symm).1
  -- the loop goes on with an empty buffer
  have hnext : grep pattern sizes [] (b ++ newline :: rest) = printed pattern (b :: lines rest) := by
    rw [← lines_cons hb rest] at hlines ⊢
    exact grep_spec hsizes hmany List.not_mem_nil (by decide) (fun h => h0 (List.mem_append_right (buf ++ a) h)) hlines
  rw [grep, hmin, List.take_left]
  simp only [if_neg ha, List.drop_left, hout, hls, ← hdone, if_true]
  rw [hnext]
  rfl

theorem short_read_loses_begin : grep [97] [1, 1024, 1024, 1024, 1024, 1024] [120] [97, 98, 10, 97, 10] = [97, 10] :=
  (short_read_loses [97] (show ([97] : List Byte) ≠ [] by decide) (show newline ∉ [120] ++ [97] ++ [98] by decide)
    (by decide) (show (0 : Byte) ∉ [120] ++ [97] ++ ([98] ++ newline :: [97, 10]) by decide) (by decide) (by decide)
    (by decide)).2.trans (by decide)

end Xv6.Grep
