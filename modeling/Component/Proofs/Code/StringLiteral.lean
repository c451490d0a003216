/-
String literals as scripts read them.

A literal in double quotes holds characters that stand for themselves, escapes, and line ends
behind a backslash.  What it stands for is a string of code units.  The literal that is
written for a text stands for that text and for nothing else, and it ends at its last quote
whatever follows it.
-/
import Component.Proofs.Markup.References
import Component.Proofs.Script.Lexing

namespace Component.Code

open Markup.Reference (IsNumeral numeral)

/-! ### Literals -/

/-- The code units of a code point: itself, or two surrogates. -/
def codeUnits (n : Nat) : List Nat :=
  if n < 0x10000 then [n]
  else [0xd800 + (n - 0x10000) / 0x400, 0xdc00 + (n - 0x10000) % 0x400]

/-- A text as a string of code units. -/
def stringValue (t : Text) : List Nat := t.flatMap fun c => codeUnits c.toNat

/-- The first code units tell which character they belong to: surrogates are no characters. -/
theorem codeUnits_append_inj {c d : Char} {u v : List Nat}
    (h : codeUnits c.toNat ++ u = codeUnits d.toNat ++ v) : c = d ∧ u = v := by
  have hc : c.toNat < 0xd800 ∨ (0xdfff < c.toNat ∧ c.toNat < 0x110000) := c.valid
  have hd : d.toNat < 0xd800 ∨ (0xdfff < d.toNat ∧ d.toNat < 0x110000) := d.valid
  rw [← Char.toNat_inj]
  unfold codeUnits at h
  split_ifs at h with hsmall hsmall' hsmall' <;>
    simp only [List.cons_append, List.nil_append, List.cons.injEq] at h
  · exact h
  · omega
  · omega
  · exact ⟨by omega, h.2.2⟩

theorem stringValue_inj {s t : Text} : stringValue s = stringValue t ↔ s = t := by
  constructor
  · intro h
    have hpos : ∀ n, codeUnits n ≠ [] := fun n => by
      unfold codeUnits
      split_ifs <;> simp
    induction s generalizing t with
    | nil =>
        cases t with
        | nil => rfl
        | cons d t => exact absurd h.symm (by simp [stringValue, hpos])
    | cons c s ih =>
        cases t with
        | nil => exact absurd h (by simp [stringValue, hpos])
        | cons d t =>
            obtain ⟨rfl, hmore⟩ := codeUnits_append_inj h
            rw [ih hmore]
  · rintro rfl
    rfl

/-- What a character behind a backslash stands for: six letters for control characters, and
any other character for itself. -/
def escapedUnits (c : Char) : List Nat :=
  match [('b', 8), ('t', 9), ('n', 10), ('v', 11), ('f', 12), ('r', 13)].lookup c with
  | some n => [n]
  | none => codeUnits c.toNat

/-- `Escape t value rest`: behind a backslash, `t` begins with an escape that stands for
`value`, and `rest` follows it.  A line end stands for nothing. -/
inductive Escape : Text → List Nat → Text → Prop where
  | character {c : Char} {rest : Text} (hdigit : c.isDigit = false) (hmark : c ≠ 'x' ∧ c ≠ 'u')
      (hline : Script.isLineBreak c = false) : Escape (c :: rest) (escapedUnits c) rest
  | null {rest : Text} (h : ∀ d ∈ rest.head?, d.isDigit = false) : Escape ('0' :: rest) [0] rest
  | byte {digits rest : Text} (hdigits : IsNumeral 16 digits) (hlength : digits.length = 2) :
      Escape ('x' :: (digits ++ rest)) [numeral 16 digits] rest
  | unit {digits rest : Text} (hdigits : IsNumeral 16 digits) (hlength : digits.length = 4) :
      Escape ('u' :: (digits ++ rest)) [numeral 16 digits] rest
  | codePoint {digits rest : Text} (hdigits : IsNumeral 16 digits)
      (hmax : numeral 16 digits ≤ 0x10ffff) :
      Escape ('u' :: '{' :: (digits ++ '}' :: rest)) (codeUnits (numeral 16 digits)) rest
  | lineBreak {c : Char} {rest : Text} (hline : Script.isLineBreak c = true)
      (h : c = '\r' → rest.head? ≠ some '\n') : Escape (c :: rest) [] rest
  | returnAndLineFeed {rest : Text} : Escape ('\r' :: '\n' :: rest) [] rest

/-- `Contents t value rest`: behind its opening quote, the literal at the front of `t` stands
for `value`, and `rest` follows its closing quote. -/
inductive Contents : Text → List Nat → Text → Prop where
  | closed {rest : Text} : Contents ('"' :: rest) [] rest
  | plain {c : Char} {t rest : Text} {value : List Nat} (hc : c ∉ ['"', '\\', '\n', '\r'])
      (h : Contents t value rest) : Contents (c :: t) (codeUnits c.toNat ++ value) rest
  | escape {t more rest : Text} {units value : List Nat} (hescape : Escape t units more)
      (h : Contents more value rest) : Contents ('\\' :: t) (units ++ value) rest

/-- A string literal in double quotes at the front of a text: its value, and what follows. -/
def IsLiteral (t : Text) (value : List Nat) (rest : Text) : Prop :=
  ∃ body, t = '"' :: body ∧ Contents body value rest

theorem contents_quote_iff {rest after : Text} {value : List Nat} :
    Contents ('"' :: rest) value after ↔ value = [] ∧ after = rest := by
  constructor
  · intro h
    cases h with
    | closed => exact ⟨rfl, rfl⟩
    | plain hc _ => exact absurd List.mem_cons_self hc
  · rintro ⟨rfl, rfl⟩
    exact .closed

theorem contents_plain_iff {c : Char} (hc : c ∉ ['"', '\\', '\n', '\r']) {t after : Text}
    {value : List Nat} : Contents (c :: t) value after ↔
      ∃ more, value = codeUnits c.toNat ++ more ∧ Contents t more after := by
  constructor
  · intro h
    cases h with
    | closed => exact absurd List.mem_cons_self hc
    | plain _ h => exact ⟨_, rfl, h⟩
    | escape _ _ => exact absurd (List.mem_cons_of_mem _ List.mem_cons_self) hc
  · rintro ⟨more, rfl, h⟩
    exact .plain hc h

theorem contents_escape_iff {t after : Text} {value : List Nat} :
    Contents ('\\' :: t) value after ↔ ∃ units more rest, value = units ++ more ∧
      Escape t units rest ∧ Contents rest more after := by
  constructor
  · intro h
    cases h with
    | plain hc _ => exact absurd (List.mem_cons_of_mem _ List.mem_cons_self) hc
    | escape hescape h => exact ⟨_, _, _, rfl, hescape, h⟩
  · rintro ⟨units, more, rest, rfl, hescape, h⟩
    exact .escape hescape h

theorem escape_character_iff {c : Char} (hdigit : c.isDigit = false) (hmark : c ≠ 'x' ∧ c ≠ 'u')
    (hline : Script.isLineBreak c = false) {t rest : Text} {units : List Nat} :
    Escape (c :: t) units rest ↔ units = escapedUnits c ∧ rest = t := by
  constructor
  · intro h
    cases h with
    | character => exact ⟨rfl, rfl⟩
    | null _ => exact absurd hdigit (by decide)
    | byte _ _ => exact absurd rfl hmark.1
    | unit _ _ => exact absurd rfl hmark.2
    | codePoint _ _ => exact absurd rfl hmark.2
    | lineBreak h _ => exact absurd (h.symm.trans hline) (by decide)
    | returnAndLineFeed => exact absurd hline (by decide)
  · rintro ⟨rfl, rfl⟩
    exact .character hdigit hmark hline

theorem escape_unit_iff {digits : Text} (hdigits : IsNumeral 16 digits)
    (hlength : digits.length = 4) {t rest : Text} {units : List Nat} :
    Escape ('u' :: (digits ++ t)) units rest ↔ units = [numeral 16 digits] ∧ rest = t := by
  constructor
  · generalize htext : 'u' :: (digits ++ t) = text
    intro h
    cases h with
    | character _ hmark _ => exact absurd (List.cons.inj htext).1.symm hmark.2
    | null _ => exact absurd (List.cons.inj htext).1 (by decide)
    | byte _ _ => exact absurd (List.cons.inj htext).1 (by decide)
    | unit hother hsame =>
        obtain ⟨rfl, rfl⟩ := List.append_inj (List.cons.inj htext).2 (hlength.trans hsame.symm)
        exact ⟨rfl, rfl⟩
    | codePoint _ _ =>
        -- A brace is no digit, and there are digits.
        have hbrace : '{' ∉ digits := hdigits.not_mem (by decide)
        rcases digits with _ | ⟨d, digits⟩
        · exact absurd rfl hdigits.1
        · have hd : d = '{' := (List.cons.inj (List.cons.inj htext).2).1
          exact absurd List.mem_cons_self (hd ▸ hbrace)
    | lineBreak hline _ =>
        rw [← (List.cons.inj htext).1] at hline
        exact absurd hline (by decide)
    | returnAndLineFeed => exact absurd (List.cons.inj htext).1 (by decide)
  · rintro ⟨rfl, rfl⟩
    exact .unit hdigits hlength

/-! ### Written literals -/

theorem digitChar_spec {d : Nat} (h : d < 16) :
    (d.digitChar.toLower ∈ Markup.Reference.digitsOf 16 ∧
      Markup.Reference.digitValue d.digitChar = d) ∧
    Script.isLineBreak d.digitChar = false ∧ 0x20 ≤ d.digitChar.toNat := by
  revert d
  decide

theorem isNumeral_hex4 (n : Nat) : IsNumeral 16 (hex4 n) := by
  refine ⟨by simp [hex4], ?_⟩
  intro c hc
  obtain ⟨shift, -, rfl⟩ := List.mem_map.mp hc
  exact (digitChar_spec (Nat.mod_lt _ (by decide))).1.1

theorem hex4_one_line {n : Nat} {c : Char} (h : c ∈ hex4 n) :
    Script.isLineBreak c = false ∧ 0x20 ≤ c.toNat := by
  obtain ⟨shift, -, rfl⟩ := List.mem_map.mp h
  exact (digitChar_spec (Nat.mod_lt _ (by decide))).2

theorem numeral_hex4 {n : Nat} (h : n < 0x10000) : numeral 16 (hex4 n) = n := by
  have hvalue : ∀ shift, Markup.Reference.digitValue (Nat.digitChar (n >>> shift % 16)) =
      n / 2 ^ shift % 16 := by
    intro shift
    rw [(digitChar_spec (Nat.mod_lt _ (by decide))).1.2, Nat.shiftRight_eq_div_pow]
  have hnil : numeral 16 [] = 0 := rfl
  simp only [hex4, List.map_cons, List.map_nil, Markup.Reference.numeral_cons, hvalue, hnil,
    List.length_cons, List.length_nil]
  omega

/-- A character is written as itself, as a backslash and one character, or by its number. -/
theorem escape_forms (c : Char) :
    (escape c = [c] ∧ c ∉ ['"', '\\', '\n', '\r'] ∧ Script.isLineBreak c = false ∧ 0x20 ≤ c.toNat) ∨
      (∃ d ∈ ['\\', '"', 'n', 'r', 't'], escape c = ['\\', d] ∧
        escapedUnits d = codeUnits c.toNat) ∨
      (escape c = '\\' :: 'u' :: hex4 c.toNat ∧ c.toNat < 0x10000) := by
  unfold escape
  split_ifs with hbackslash hquote hline hreturn htab hcontrol
  · exact .inr (.inl ⟨'\\', by decide, rfl, by rw [hbackslash]; decide⟩)
  · exact .inr (.inl ⟨'"', by decide, rfl, by rw [hquote]; decide⟩)
  · exact .inr (.inl ⟨'n', by decide, rfl, by rw [hline]; decide⟩)
  · exact .inr (.inl ⟨'r', by decide, rfl, by rw [hreturn]; decide⟩)
  · exact .inr (.inl ⟨'t', by decide, rfl, by rw [htab]; decide⟩)
  · simp only [Bool.or_eq_true, decide_eq_true_eq] at hcontrol
    exact .inr (.inr ⟨rfl, by omega⟩)
  · simp only [Bool.or_eq_true, decide_eq_true_eq, not_or] at hcontrol
    refine .inl ⟨rfl, by simp [hbackslash, hquote, hline, hreturn], ?_, by omega⟩
    simp [Script.isLineBreak, hline, hreturn, hcontrol]

theorem contents_of_escape_iff {t more after : Text} {units value : List Nat}
    (hescape : ∀ units' rest, Escape t units' rest ↔ units' = units ∧ rest = more) :
    Contents ('\\' :: t) value after ↔
      ∃ later, value = units ++ later ∧ Contents more later after := by
  rw [contents_escape_iff]
  constructor
  · rintro ⟨_, later, _, rfl, hread, h⟩
    obtain ⟨rfl, rfl⟩ := (hescape _ _).mp hread
    exact ⟨later, rfl, h⟩
  · rintro ⟨later, rfl, h⟩
    exact ⟨units, later, more, rfl, (hescape _ _).mpr ⟨rfl, rfl⟩, h⟩

/-- What is written for a character is read as that character. -/
theorem contents_char_iff (c : Char) {t after : Text} {value : List Nat} :
    Contents (escape c ++ t) value after ↔
      ∃ more, value = codeUnits c.toNat ++ more ∧ Contents t more after := by
  obtain ⟨hform, hplain, -⟩ | ⟨d, hd, hform, hunits⟩ | ⟨hform, hsmall⟩ := escape_forms c
  · rw [hform]
    exact contents_plain_iff hplain
  · have hclass : ∀ d ∈ ['\\', '"', 'n', 'r', 't'], d.isDigit = false ∧ (d ≠ 'x' ∧ d ≠ 'u') ∧
        Script.isLineBreak d = false := by
      simp [Script.isLineBreak]
    obtain ⟨hdigit, hmark, hline⟩ := hclass d hd
    rw [hform, ← hunits]
    exact contents_of_escape_iff fun _ _ => escape_character_iff hdigit hmark hline
  · have hunits : codeUnits c.toNat = [numeral 16 (hex4 c.toNat)] := by
      rw [numeral_hex4 hsmall, codeUnits, if_pos hsmall]
    rw [hform, hunits]
    exact contents_of_escape_iff fun _ _ => escape_unit_iff (isNumeral_hex4 _) rfl

theorem contents_text_iff (s : Text) {rest after : Text} {value : List Nat} :
    Contents (s.flatMap escape ++ '"' :: rest) value after ↔
      value = stringValue s ∧ after = rest := by
  induction s generalizing value with
  | nil => exact contents_quote_iff
  | cons c s ih =>
      rw [List.flatMap_cons, List.append_assoc, contents_char_iff, stringValue, List.flatMap_cons]
      simp only [ih]
      constructor
      · rintro ⟨more, rfl, rfl, rfl⟩
        exact ⟨rfl, rfl⟩
      · rintro ⟨rfl, rfl⟩
        exact ⟨_, rfl, rfl, rfl⟩

/-- A text without its escapes: every backslash is left out with the character behind it. -/
def unescaped : Text → Text
  | '\\' :: _ :: rest => unescaped rest
  | c :: rest => c :: unescaped rest
  | [] => []

theorem unescaped_append {t : Text} (h : '\\' ∉ t) (rest : Text) :
    unescaped (t ++ rest) = t ++ unescaped rest := by
  induction t with
  | nil => rfl
  | cons c t ih =>
      have hc : c ≠ '\\' := fun heq => h (heq ▸ List.mem_cons_self)
      rw [List.cons_append, unescaped, ih (fun hmem => h (List.mem_cons_of_mem _ hmem))]
      · rfl
      · exact fun _ _ heq _ => hc heq

theorem escape_one_line (c : Char) :
    ∀ d ∈ escape c, Script.isLineBreak d = false ∧ 0x20 ≤ d.toNat := by
  intro d hd
  obtain ⟨hform, -, hline, hcontrol⟩ | ⟨x, hx, hform, -⟩ | ⟨hform, -⟩ := escape_forms c
  · rw [hform, List.mem_singleton] at hd
    exact hd ▸ ⟨hline, hcontrol⟩
  · have hclass : ∀ x ∈ ['\\', '"', 'n', 'r', 't'],
        Script.isLineBreak x = false ∧ 0x20 ≤ x.toNat := by
      simp [Script.isLineBreak]
    rw [hform] at hd
    rcases List.mem_cons.mp hd with rfl | hd
    · decide
    · exact List.mem_singleton.mp hd ▸ hclass x hx
  · rw [hform] at hd
    rcases List.mem_cons.mp hd with rfl | hd
    · decide
    · rcases List.mem_cons.mp hd with rfl | hd
      · decide
      · exact hex4_one_line hd

/-- A quote in a text is written behind a backslash. -/
theorem unescaped_escape (c : Char) :
    ∃ part, '"' ∉ part ∧ ∀ t, unescaped (escape c ++ t) = part ++ unescaped t := by
  obtain ⟨hform, hplain, -⟩ | ⟨x, hx, hform, -⟩ | ⟨hform, -⟩ := escape_forms c
  · simp only [List.mem_cons, List.not_mem_nil, or_false, not_or] at hplain
    refine ⟨[c], ?_, fun t => ?_⟩
    · exact fun h => hplain.1 (List.mem_singleton.mp h).symm
    · rw [hform]
      exact unescaped_append (fun h => hplain.2.1 (List.mem_singleton.mp h).symm) t
  · exact ⟨[], List.not_mem_nil, fun t => by rw [hform]; rfl⟩
  · have hdigits := isNumeral_hex4 c.toNat
    refine ⟨hex4 c.toNat, hdigits.not_mem (by decide), fun t => ?_⟩
    rw [hform]
    exact unescaped_append (hdigits.not_mem (by decide)) t

theorem unescaped_text (s : Text) :
    ∃ part, '"' ∉ part ∧ ∀ t, unescaped (s.flatMap escape ++ t) = part ++ unescaped t := by
  induction s with
  | nil => exact ⟨[], List.not_mem_nil, fun t => rfl⟩
  | cons c s ih =>
      obtain ⟨front, hfront, hc⟩ := unescaped_escape c
      obtain ⟨part, hpart, hs⟩ := ih
      refine ⟨front ++ part, fun h => (List.mem_append.mp h).elim hfront hpart, fun t => ?_⟩
      rw [List.flatMap_cons, List.append_assoc, hc, hs, List.append_assoc]

/-- The literal of a text is one line, with no quote in it but the first and the last that no
backslash escapes.  Whatever follows, it is read as a literal in one way only: it stands for
that text and no other, and ends at its last quote.  The reader of scripts finds the same. -/
theorem quote_reads_back_alone (s : Text) :
    (∀ c ∈ quote s, Script.isLineBreak c = false ∧ 0x20 ≤ c.toNat) ∧
      (∃ inner, unescaped (quote s) = '"' :: (inner ++ ['"']) ∧ '"' ∉ inner) ∧
      (∀ rest value after, IsLiteral (quote s ++ rest) value after ↔
        value = stringValue s ∧ after = rest) ∧
      (∀ t, stringValue t = stringValue s ↔ t = s) ∧
      ∀ rest, ∃ escaped, Script.Begins (quote s ++ rest) (.string s escaped) false rest := by
  have hwritten : ∀ rest, quote s ++ rest = '"' :: (s.flatMap escape ++ '"' :: rest) := by
    simp [quote]
  refine ⟨?_, ?_, fun rest value after => ?_, fun t => stringValue_inj, Script.Begins.quote s⟩
  · intro c hc
    rw [← List.append_nil (quote s), hwritten, List.mem_cons, List.mem_append,
      List.mem_singleton] at hc
    rcases hc with rfl | hc | rfl
    · decide
    · obtain ⟨d, -, hd⟩ := List.mem_flatMap.mp hc
      exact escape_one_line d c hd
    · decide
  · obtain ⟨inner, hinner, hs⟩ := unescaped_text s
    exact ⟨inner, congrArg ('"' :: ·) (hs ['"']), hinner⟩
  · rw [hwritten, ← contents_text_iff]
    constructor
    · rintro ⟨_, heq, h⟩
      exact (List.cons.inj heq).2 ▸ h
    · exact fun h => ⟨_, rfl, h⟩

end Component.Code
