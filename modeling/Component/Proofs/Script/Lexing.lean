/-
Which token begins a text: gaps, marks, words and string literals.
-/
import Component.Code.Printer
import Component.Proofs.Script.Reading
import Mathlib.Tactic.IntervalCases

namespace Component.Script

/-! ### Gaps -/

theorem skipGap_newline (gap : Gap) (newline : Bool) (offset : Nat) (text : Text) :
    skipGap gap newline offset text =
      (skipGap gap false offset text).map fun r => (newline || r.1, r.2) := by
  induction text generalizing gap newline offset with
  | nil => simp only [skipGap]; split <;> simp
  | cons c rest ih =>
    simp only [skipGap]
    cases gap.step c rest.head? with
    | none => simp
    | some gap =>
      dsimp only
      rw [ih, ih gap (false || isLineBreak c)]
      simp [Option.map_map, Function.comp_def, Bool.or_assoc]

/-- A blank or a line break in front of a text. -/
theorem front_cons_gap {c : Char} (hc : (isLineBreak c || isSpace c) = true) (text : Text) :
    front (c :: text) = (front text).map fun r => (r.1, isLineBreak c || r.2.1, r.2.2) := by
  have hstep : Gap.plain.step c text.head? = some .plain := by simp only [Gap.step, hc, if_true]
  rw [← map_readLexeme ⟨text, 0 + c.utf8Size⟩]
  simp only [front, readLexeme, skipGap, hstep]
  rw [skipGap_newline]
  cases skipGap .plain false (0 + c.utf8Size) text with
  | none => rfl
  | some r =>
    simp only [Option.map_some, Option.bind_eq_bind, Option.bind_some, Bool.false_or]
    cases readToken r.2.rest <;> rfl

/-- Whether a text consists of blanks and line ends, as the printer writes them. -/
def isGap (lead : Text) : Bool := lead.all fun c => c == ' ' || c == '\n'

theorem isGap_nil : isGap [] = true := rfl

theorem isGap_space : isGap [' '] = true := rfl

theorem isGap_newline : isGap ['\n'] = true := rfl

theorem isGap_append {lead gap : Text} (hlead : isGap lead = true) (hgap : isGap gap = true) :
    isGap (lead ++ gap) = true := by
  rw [isGap, List.all_append, Bool.and_eq_true]
  exact ⟨hlead, hgap⟩

namespace Begins

variable {text after : Text} {token : Token} {newline : Bool}

theorem space (h : Begins text token newline after) : Begins (' ' :: text) token newline after := by
  rw [Begins, front_cons_gap (by decide), h]
  rfl

theorem line (h : Begins text token newline after) : Begins ('\n' :: text) token true after := by
  rw [Begins, front_cons_gap (by decide), h]
  rfl

/-- A token may stand after blanks and line ends. -/
theorem gap {lead : Text} (hlead : isGap lead = true) (h : Begins text token newline after) :
    ∃ newline', Begins (lead ++ text) token newline' after := by
  induction lead with
  | nil => exact ⟨newline, h⟩
  | cons c lead ih =>
    simp only [isGap, List.all_cons, Bool.and_eq_true, Bool.or_eq_true, beq_iff_eq] at hlead
    obtain ⟨newline', hmore⟩ := ih hlead.2
    obtain rfl | rfl := hlead.1
    · exact ⟨_, hmore.space⟩
    · exact ⟨_, hmore.line⟩

/-- The token at the very front of a text. -/
theorem of_readToken {c : Char} (hgap : Gap.plain.step c text.head? = none)
    (h : readToken (c :: text) = some (token, after)) : Begins (c :: text) token false after := by
  simp [Begins, front, readLexeme, skipGap, hgap, h, Input.past]

theorem nil : Begins [] .endOfInput false [] := rfl

/-! ### Marks -/

theorem leftBrace (text : Text) : Begins ('{' :: text) (.symbol .leftBrace) false text :=
  of_readToken rfl rfl

theorem rightBrace (text : Text) : Begins ('}' :: text) (.symbol .rightBrace) false text :=
  of_readToken rfl rfl

theorem leftParen (text : Text) : Begins ('(' :: text) (.symbol .leftParen) false text :=
  of_readToken rfl rfl

theorem rightParen (text : Text) : Begins (')' :: text) (.symbol .rightParen) false text :=
  of_readToken rfl rfl

theorem semicolon (text : Text) : Begins (';' :: text) (.symbol .semicolon) false text :=
  of_readToken rfl rfl

theorem comma (text : Text) : Begins (',' :: text) (.symbol .comma) false text :=
  of_readToken rfl rfl

theorem assign (text : Text) : Begins ('=' :: ' ' :: text) (.symbol .assign) false (' ' :: text) :=
  of_readToken rfl rfl

theorem same (text : Text) :
    Begins ('=' :: '=' :: '=' :: text) (.symbol (.binary 6)) false text :=
  of_readToken rfl rfl

end Begins

/-! ### Words -/

/-- Whether a text has the characters of an identifier. -/
def isWord : Text → Bool
  | [] => false
  | c :: rest => Identifier.isStart c && rest.all Identifier.isPart

/-- Whether a word that stands before a text ends there. -/
def endsWord : Text → Bool
  | [] => true
  | c :: _ => !Identifier.isPart c && c != '\\'

theorem isPart_of_isStart {c : Char} (h : Identifier.isStart c = true) :
    Identifier.isPart c = true := by
  unfold Identifier.isStart at h
  unfold Identifier.isPart
  split at h
  case isTrue hascii => simp_all [Char.isAlphanum, or_assoc]; tauto
  case isFalse hascii => simp [hascii, h]

/-- The characters above ASCII in the stretches that whitespace divides them into. -/
def unspacedRanges : List (Nat × Nat) :=
  [(0x80, 0x84), (0x86, 0x9f), (0xa1, 0x167f), (0x1681, 0x1fff), (0x200b, 0x2027), (0x202a, 0x202e),
    (0x2030, 0x205e), (0x2060, 0x2fff), (0x3001, 0x10ffff)]

/-- Every range of the tables of identifiers lies in one stretch without whitespace. -/
theorem ranges_unspaced {r : Nat × Nat}
    (h : r ∈ Identifier.startRanges ∨ r ∈ Identifier.continueRanges) :
    ∃ u ∈ unspacedRanges, u.1 ≤ r.1 ∧ r.2 ≤ u.2 := by
  have hall : ((Identifier.startRanges ++ Identifier.continueRanges).all fun r =>
      unspacedRanges.any fun u => u.1.ble r.1 && r.2.ble u.2) = true := by decide +kernel
  simpa using List.all_eq_true.1 hall r (List.mem_append.2 h)

theorem isBlank_eq_false_of_within {c : Char}
    (h : Identifier.within Identifier.startRanges c.toNat = true ∨
      Identifier.within Identifier.continueRanges c.toNat = true) : isBlank c = false := by
  have hrange : ∃ r, (r ∈ Identifier.startRanges ∨ r ∈ Identifier.continueRanges) ∧
      r.1 ≤ c.toNat ∧ c.toNat ≤ r.2 := by
    simp only [Identifier.within, List.any_eq_true, Bool.and_eq_true, decide_eq_true_eq] at h
    rcases h with ⟨r, hr, hc⟩ | ⟨r, hr, hc⟩
    · exact ⟨r, .inl hr, hc⟩
    · exact ⟨r, .inr hr, hc⟩
  obtain ⟨r, hr, hlow, hhigh⟩ := hrange
  obtain ⟨u, hu, hstart, hstop⟩ := ranges_unspaced hr
  have hc : u.1 ≤ c.toNat ∧ c.toNat ≤ u.2 := by omega
  have hnot : ∀ u ∈ unspacedRanges, u.1 ≤ c.toNat ∧ c.toNat ≤ u.2 → isBlank c = false := by
    simp only [unspacedRanges, List.forall_mem_cons, isBlank, Bool.or_eq_false_iff,
      Bool.and_eq_false_iff, decide_eq_false_iff_not, beq_eq_false_iff_ne]
    refine ⟨?_, ?_, ?_, ?_, ?_, ?_, ?_, ?_, ?_, by simp⟩ <;> omega
  exact hnot u hu hc

/-- No part of an identifier is whitespace. -/
theorem isBlank_eq_false_of_isPart {c : Char} (h : Identifier.isPart c = true) :
    isBlank c = false := by
  have hascii : ∀ n < 128, Identifier.isPart (Char.ofNat n) = true →
      isBlank (Char.ofNat n) = false := by decide +kernel
  by_cases hlow : c.toNat < 128
  · rw [← Char.ofNat_toNat c] at h ⊢
    exact hascii _ hlow h
  · simp only [Identifier.isPart, hlow, if_false, Bool.or_eq_true, beq_iff_eq, or_assoc] at h
    rcases h with h | h | hwithin
    · simp [isBlank, h]
    · simp [isBlank, h]
    · exact isBlank_eq_false_of_within hwithin

/-- No gap begins with a character that a word may begin with. -/
theorem isStart_eq_false_of_gap {c : Char} (h : (isLineBreak c || isSpace c) = true) :
    Identifier.isStart c = false := by
  have hmarks : ∀ n ∈ [0xfeff, 0x200b], Identifier.isStart (Char.ofNat n) = false := by
    decide +kernel
  have hcases : isBlank c = true ∨ c.toNat ∈ [0xfeff, 0x200b] := by
    simp only [isLineBreak, isSpace, Bool.or_eq_true, beq_iff_eq] at h
    rcases h with (((rfl | rfl) | h) | h) | ((h | h) | h) <;> simp_all [isBlank]
  rcases hcases with hblank | hmark
  · refine Bool.eq_false_iff.2 fun hstart => ?_
    simp [isBlank_eq_false_of_isPart (isPart_of_isStart hstart)] at hblank
  · simpa using hmarks _ hmark

theorem isDigit_eq_false_of_isStart {c : Char} (h : Identifier.isStart c = true) :
    c.isDigit = false := by
  have hdigits : ∀ n < 10, Identifier.isStart (Char.ofNat (n + 48)) = false := by decide +kernel
  by_contra hdigit
  simp only [Char.isDigit, ge_iff_le, Bool.not_eq_false, Bool.and_eq_true, decide_eq_true_eq,
    UInt32.le_iff_toNat_le] at hdigit
  have hlow : 48 ≤ c.toNat := hdigit.1
  have hhigh : c.toNat ≤ 57 := hdigit.2
  obtain ⟨n, hn⟩ := Nat.exists_eq_add_of_le' hlow
  have hstart := hdigits n (by omega)
  rw [← hn, Char.ofNat_toNat] at hstart
  simp [hstart] at h

theorem plain_step_of_isStart {c : Char} (h : Identifier.isStart c = true) (next : Option Char) :
    Gap.plain.step c next = none := by
  have hgap : ¬ (isLineBreak c || isSpace c) = true := by
    intro hgap
    simp [isStart_eq_false_of_gap hgap] at h
  have hslash : c ≠ '/' := by
    rintro rfl
    revert h
    decide
  simp only [Gap.step, hgap, hslash, decide_false, Bool.false_and]
  rfl

theorem readWord_parts {name rest : Text} (hname : name.all Identifier.isPart = true)
    (hrest : endsWord rest = true) (steps : Nat) (hsteps : name.length < steps) :
    readWord steps false (name ++ rest) = some (name, false, rest) := by
  induction name generalizing steps with
  | nil =>
    obtain ⟨steps, rfl⟩ := Nat.exists_eq_add_of_lt hsteps
    cases rest with
    | nil => rfl
    | cons c rest =>
      simp [endsWord] at hrest
      simp [readWord, hrest]
  | cons c name ih =>
    obtain ⟨extra, rfl⟩ := Nat.exists_eq_add_of_lt hsteps
    simp only [List.all_cons, Bool.and_eq_true] at hname
    have hescape : c ≠ '\\' := by
      rintro rfl
      exact absurd hname.1 (by decide)
    have hmore := ih hname.2 (name.length + 1 + extra) (by omega)
    simp [readWord, hescape, hname.1, hmore]

theorem readWordToken_word {c : Char} {name rest : Text} (hstart : Identifier.isStart c = true)
    (hname : name.all Identifier.isPart = true) (hrest : endsWord rest = true) :
    readWordToken (c :: (name ++ rest)) = some (.word (c :: name) false, rest) := by
  have hescape : c ≠ '\\' := by
    rintro rfl
    exact absurd hstart (by decide)
  have hsteps : name.length < (name ++ rest).length + 1 := by
    rw [List.length_append]
    omega
  have hparts := readWord_parts hname hrest _ hsteps
  simp only [List.length_append] at hparts
  simp [readWordToken, readWord, hescape, hstart, hparts]

/-- A word, where it ends. -/
theorem Begins.word {name rest : Text} (hname : isWord name = true)
    (hrest : endsWord rest = true) : Begins (name ++ rest) (.word name false) false rest := by
  cases name with
  | nil => simp [isWord] at hname
  | cons c name =>
    simp only [isWord, Bool.and_eq_true] at hname
    obtain ⟨hstart, hparts⟩ := hname
    have hne : ∀ d, Identifier.isStart d = false → c ≠ d := by
      rintro d hd rfl
      simp [hd] at hstart
    have hdigit := isDigit_eq_false_of_isStart hstart
    refine of_readToken (plain_step_of_isStart hstart _) ?_
    rw [← readWordToken_word hstart hparts hrest]
    unfold readToken
    split
    case h_1 heq => simp at heq
    case h_2 heq => exact absurd (List.cons.inj heq).1 (hne _ (by decide))
    case h_3 heq => exact absurd (List.cons.inj heq).1 (hne _ (by decide))
    case h_4 heq =>
      obtain ⟨rfl, rfl⟩ := List.cons.inj heq
      simp [hne '"' (by decide), hne '\'' (by decide), hne '.' (by decide), hdigit, hstart]

/-- The dot before the name of a property. -/
theorem Begins.dot {name : Text} (hname : isWord name = true) (rest : Text) :
    Begins ('.' :: (name ++ rest)) (.symbol .dot) false (name ++ rest) := by
  cases name with
  | nil => simp [isWord] at hname
  | cons c name =>
    simp only [isWord, Bool.and_eq_true] at hname
    have hdot : c ≠ '.' := by
      rintro rfl
      exact absurd hname.1 (by decide)
    have hdigit := isDigit_eq_false_of_isStart hname.1
    have hmark : mark? ('.' :: c :: (name ++ rest)) = some (.dot, 1) := by
      simp [mark?, longMarks, shortMarks, List.lookup_cons, hdot.symm]
    have hstart : Identifier.isStart '.' = false := by decide
    refine of_readToken rfl ?_
    simp [readToken, hdigit, hmark, hstart]

/-! ### String literals -/

theorem digit?_digitChar {n : Nat} (h : n < 16) :
    Markup.Reference.digit? 16 n.digitChar = some n ∧ n.digitChar ≠ '_' ∧ n.digitChar ≠ '{' := by
  revert n
  decide

theorem hexDigits_digitChar {digit : Nat} (h : digit < 16) (count value : Nat) (rest : Text) :
    hexDigits (count + 1) value (digit.digitChar :: rest) =
      hexDigits count (16 * value + digit) rest := by
  obtain ⟨hdigit, hscore, -⟩ := digit?_digitChar h
  simp [hexDigits, hdigit, hscore]

theorem hexDigits_zero (value : Nat) (rest : Text) :
    hexDigits 0 value rest = .ok (value, rest) := by
  cases rest <;> simp [hexDigits]

theorem codePoint_hex4 {n : Nat} (h : n < 0x10000) (rest : Text) :
    codePoint (Code.hex4 n ++ rest) = .ok (n, rest) := by
  have hdigit : ∀ shift, n >>> shift % 16 < 16 := fun shift => Nat.mod_lt _ (by decide)
  have hvalue : 16 * (16 * (16 * (16 * 0 + n >>> 12 % 16) + n >>> 8 % 16) + n >>> 4 % 16) +
      n >>> 0 % 16 = n := by
    simp only [Nat.shiftRight_eq_div_pow]
    omega
  have hbrace := (digit?_digitChar (hdigit 12)).2.2
  unfold codePoint
  split
  case h_1 heq => exact absurd (List.cons.inj heq).1 hbrace
  case h_2 =>
    simp only [Code.hex4, List.map_cons, List.map_nil, List.cons_append, List.nil_append]
    rw [hexDigits_digitChar (hdigit 12), hexDigits_digitChar (hdigit 8),
      hexDigits_digitChar (hdigit 4), hexDigits_digitChar (hdigit 0), hexDigits_zero, hvalue]

theorem charOfCodePoint_toNat (c : Char) : charOfCodePoint c.toNat = c := by
  have hvalid : c.toNat.isValidChar := c.valid
  rw [charOfCodePoint, if_pos hvalid, Char.ofNat_toNat]

theorem readUnicodeEscape_hex4 {c : Char} (h : c.toNat < 0xd800) (text : Text) :
    readUnicodeEscape (Code.hex4 c.toNat ++ text) = .ok ([c], text) := by
  have hsurrogate : ¬ 0xd800 ≤ c.toNat := by omega
  simp only [readUnicodeEscape, codePoint_hex4 (show c.toNat < 0x10000 by omega)]
  dsimp only [bind, Except.bind, pure, Except.pure]
  split <;> simp [hsurrogate, charOfCodePoint_toNat]

/-- A character of a string literal is written as itself, or as an escape that stands for
it. -/
theorem escape_cases (c : Char) :
    (Code.escape c = [c] ∧ c ≠ '\\' ∧ c ≠ '"' ∧ c ≠ '\n' ∧ c ≠ '\r') ∨
      ∃ body, Code.escape c = '\\' :: body ∧
        ∀ text, readEscape (body ++ text) = .ok ([c], text) := by
  unfold Code.escape
  split_ifs with hbackslash hquote hline hreturn htab hcontrol
  · exact .inr ⟨_, rfl, fun text => by simp [readEscape, escapedChar, isLineBreak, hbackslash]⟩
  · exact .inr ⟨_, rfl, fun text => by simp [readEscape, escapedChar, isLineBreak, hquote]⟩
  · exact .inr ⟨_, rfl, fun text => by simp [readEscape, escapedChar, isLineBreak, hline]⟩
  · exact .inr ⟨_, rfl, fun text => by simp [readEscape, escapedChar, isLineBreak, hreturn]⟩
  · exact .inr ⟨_, rfl, fun text => by simp [readEscape, escapedChar, isLineBreak, htab]⟩
  · simp only [Bool.or_eq_true, decide_eq_true_eq] at hcontrol
    exact .inr ⟨_, rfl, fun text => readUnicodeEscape_hex4 (by omega) text⟩
  · exact .inl ⟨rfl, hbackslash, hquote, hline, hreturn⟩

theorem readString_quote (value rest : Text) (steps : Nat) (hsteps : value.length < steps) :
    ∃ escaped, readString '"' steps (value.flatMap Code.escape ++ '"' :: rest) =
      some (value, escaped, rest) := by
  induction value generalizing steps with
  | nil =>
    obtain ⟨extra, rfl⟩ := Nat.exists_eq_add_of_lt hsteps
    exact ⟨false, by simp [readString]⟩
  | cons c value ih =>
    obtain ⟨extra, rfl⟩ := Nat.exists_eq_add_of_lt hsteps
    obtain ⟨escaped, hmore⟩ := ih (value.length + 1 + extra) (by omega)
    rw [List.flatMap_cons, List.append_assoc]
    obtain ⟨hplain, hbackslash, hquote, hline, hreturn⟩ | ⟨body, hescape, hread⟩ := escape_cases c
    · exact ⟨escaped, by simp [hplain, readString, hbackslash, hquote, hline, hreturn, hmore]⟩
    · exact ⟨true, by simp [hescape, readString, hread, Except.toOption, hmore]⟩

theorem length_le_length_flatMap_escape (value : Text) :
    value.length ≤ (value.flatMap Code.escape).length := by
  induction value with
  | nil => simp
  | cons c value ih =>
    have hpos : 0 < (Code.escape c).length := by
      obtain ⟨hplain, -⟩ | ⟨body, hescape, -⟩ := escape_cases c
      · simp [hplain]
      · simp [hescape]
    simp only [List.flatMap_cons, List.length_append, List.length_cons]
    omega

/-- A string literal as the printer writes it. -/
theorem Begins.quote (value rest : Text) :
    ∃ escaped, Begins (Code.quote value ++ rest) (.string value escaped) false rest := by
  have hlength := length_le_length_flatMap_escape value
  obtain ⟨escaped, hread⟩ :=
    readString_quote value rest ((value.flatMap Code.escape ++ '"' :: rest).length + 1) (by
      simp only [List.length_append, List.length_cons]
      omega)
  have htoken : ∀ text, readToken ('"' :: text) =
      (readString '"' (text.length + 1) text).map fun r => (.string r.1 r.2.1, r.2.2) :=
    fun _ => rfl
  refine ⟨escaped, ?_⟩
  rw [Code.quote, List.cons_append, List.append_assoc, List.singleton_append]
  refine of_readToken rfl ?_
  rw [htoken, hread]
  rfl

/-! ### Lists -/

/-- A loop reads items that commas separate if each step reads one of them.  `Kept` is what
the loop knows of the items it has read. -/
theorem Parser.Loops.separated {α β γ : Type} {step : α → Parser (α ⊕ β)} (Kept : α → Prop)
    {Fits : β → Prop} (Item : γ → Prop) {render : γ → Text} {gap ending rest : Text}
    (hgap : isGap gap = true)
    (hmore : ∀ a lead item text, Kept a → Item item → isGap lead = true → (front text).isSome →
      (step a).Reads (lead ++ (render item ++ ',' :: text))
      (fun r => ∃ b, r = .inl b ∧ Kept b) text)
    (hlast : ∀ a lead item, Kept a → Item item → isGap lead = true →
      (step a).Reads (lead ++ (render item ++ ending)) (fun r => ∃ b, r = .inr b ∧ Fits b) rest)
    {item : γ} {items : List γ} (hitems : ∀ x ∈ item :: items, Item x) {a : α} (ha : Kept a)
    {lead : Text} (hlead : isGap lead = true) :
    Parser.Loops step a (lead ++ (Text.join (',' :: gap) ((item :: items).map render) ++ ending))
      Fits rest := by
  induction items generalizing item a lead with
  | nil => exact .done (hlast a lead item ha (hitems item (by simp)) hlead)
  | cons next items ih =>
    have hloop : ∀ b, Kept b → Parser.Loops step b
        (gap ++ (Text.join (',' :: gap) ((next :: items).map render) ++ ending)) Fits rest :=
      fun b hb => ih (fun x hx => hitems x (List.mem_cons_of_mem _ hx)) hb hgap
    have hnext := ((hloop a ha) _ (Nat.lt_succ_self _)).1
    have hstep := hmore a lead item _ ha (hitems item (by simp)) hlead hnext
    have htext : lead ++ (Text.join (',' :: gap) ((item :: next :: items).map render) ++ ending) =
        lead ++ (render item ++ ',' :: (gap ++
          (Text.join (',' :: gap) ((next :: items).map render) ++ ending))) := by
      simp [Text.join]
    rw [htext]
    refine .more hstep ?_ hloop
    simp only [List.length_append, List.length_cons]
    omega

/-- A loop over names. -/
theorem Parser.Loops.names {α β : Type} {step : α → Parser (α ⊕ β)} (Kept : α → Prop)
    {Fits : β → Prop} (Item : Text → Prop) {ending rest : Text}
    (hmore : ∀ a lead name text, Kept a → Item name → isGap lead = true → (front text).isSome →
      (step a).Reads (lead ++ (name ++ ',' :: text)) (fun r => ∃ b, r = .inl b ∧ Kept b) text)
    (hlast : ∀ a lead name, Kept a → Item name → isGap lead = true →
      (step a).Reads (lead ++ (name ++ ending)) (fun r => ∃ b, r = .inr b ∧ Fits b) rest)
    {name : Text} {names : List Text} (hnames : ∀ x ∈ name :: names, Item x) {a : α} (ha : Kept a)
    {lead : Text} (hlead : isGap lead = true) :
    Parser.Loops step a (lead ++ (Text.join ", " (name :: names) ++ ending)) Fits rest := by
  rw [← List.map_id (name :: names)]
  exact .separated Kept Item isGap_space hmore hlast hnames ha hlead

end Component.Script
