/-
Lexemes and the tokens of a text.

A lexeme is one character that may open it and characters that open nothing.  So
the tokens that begin at a place or after it are the tokens of the text from that
place on, but for the rest of a lexeme that the place may cut.
-/
import Mathlib.Data.List.TakeWhile
import Mathlib.Data.Nat.Init
import Mathlib.Tactic.Common
import Component.Markup.Token

namespace Component

namespace Text

theorem size_pos_of_ne_nil {t : Text} (h : t ≠ []) : 0 < t.size := by
  cases t with
  | nil => exact absurd rfl h
  | cons c rest =>
      have hpos := c.utf8Size_pos
      rw [size_cons]
      omega

theorem size_eq_zero_iff {t : Text} : t.size = 0 ↔ t = [] := by
  constructor
  · intro hsize
    by_contra hne
    have hpos := size_pos_of_ne_nil hne
    omega
  · rintro rfl
    rfl

end Text

namespace Markup

/-- The characters that stand nowhere in a lexeme but at its front. -/
def opensLexeme (c : Char) : Bool :=
  c == '<' || c == '=' || c == '"' || c == '\'' || c == '{' || c == '}' || isBlank c

theorem opensLexeme_of_isRunChar {c : Char} (h : isRunChar c = true) : opensLexeme c = false := by
  simp only [isRunChar, Bool.not_eq_true', Bool.or_eq_false_iff] at h
  simp [opensLexeme, h]

theorem exists_lexeme (c : Char) (rest : Text) :
    ∃ kind tail more, lexeme c rest = (kind, c :: tail, more) ∧ rest = tail ++ more ∧
      ∀ x ∈ tail, opensLexeme x = false := by
  unfold lexeme
  split
  case h_13 =>
    split_ifs
    · exact ⟨_, [], rest, rfl, rfl, by simp⟩
    · exact ⟨_, [], rest, rfl, rfl, by simp⟩
    · refine ⟨_, rest.takeWhile isRunChar, rest.dropWhile isRunChar, rfl,
        List.takeWhile_append_dropWhile.symm, ?_⟩
      intro x hx
      exact opensLexeme_of_isRunChar (List.mem_takeWhile_imp hx)
  all_goals exact ⟨_, _, _, rfl, rfl, by simp [opensLexeme, isBlank]⟩

theorem lexeme_kind_ne_endOfFile {c : Char} {rest text more : Text} {kind : TokenKind}
    (h : lexeme c rest = (some kind, text, more)) : kind ≠ .endOfFile := by
  rintro rfl
  unfold lexeme at h
  split at h
  case h_13 =>
    split_ifs at h
    · simp at h
    · simp at h
    · simp only [Prod.mk.injEq, Option.some.injEq] at h
      split_ifs at h <;> simp at h
  all_goals simp at h

theorem isGap_of_lexeme {c : Char} {rest text more : Text}
    (h : lexeme c rest = (none, text, more)) : isGap c = true ∧ text = [c] ∧ more = rest := by
  unfold lexeme at h
  split at h
  case h_13 =>
    split_ifs at h with hgap
    · simp only [Prod.mk.injEq, true_and] at h
      exact ⟨hgap, h.1.symm, h.2.symm⟩
    all_goals simp at h
  all_goals simp at h

theorem lexeme_of_isRunChar {c : Char} (h : isRunChar c = true) (rest : Text) :
    lexeme c rest =
      (some (if isName (c :: rest.takeWhile isRunChar) then .name else .text),
        c :: rest.takeWhile isRunChar, rest.dropWhile isRunChar) := by
  have hblank : isBlank c = false := by
    simp only [isRunChar, Bool.not_eq_true', Bool.or_eq_false_iff] at h
    exact h.2
  have hgap : isGap c = false := by
    simp only [isGap, Bool.or_eq_false_iff, beq_eq_false_iff_ne]
    refine ⟨⟨⟨?_, ?_⟩, ?_⟩, ?_⟩ <;>
      · rintro rfl
        exact absurd hblank (by decide)
  unfold lexeme
  split
  case h_13 => simp [hgap, hblank]
  all_goals exact absurd h (by decide)

theorem toNat_of_isAlphanum {c : Char} (h : c.isAlphanum = true) :
    48 ≤ c.toNat ∧ c.toNat ≤ 122 := by
  unfold Char.isAlphanum Char.isAlpha Char.isUpper Char.isLower Char.isDigit at h
  simp only [Bool.or_eq_true, Bool.and_eq_true, decide_eq_true_eq, ge_iff_le,
    UInt32.le_iff_toNat_le] at h
  have hnat : c.toNat = c.val.toNat := rfl
  simp at h
  omega

theorem isBlank_eq_false_of_toNat {c : Char} (hlow : 33 ≤ c.toNat) (hhigh : c.toNat ≤ 126) :
    isBlank c = false := by
  simp only [isBlank, Bool.or_eq_false_iff, Bool.and_eq_false_iff, decide_eq_false_iff_not,
    beq_eq_false_iff_ne]
  omega

theorem isRunChar_of_isNameChar {c : Char} (h : isNamePart c = true ∨ c = '@') :
    isRunChar c = true := by
  have hrange : 33 ≤ c.toNat ∧ c.toNat ≤ 126 := by
    simp only [isNamePart, Bool.or_eq_true, beq_iff_eq] at h
    rcases h with ((((halnum | rfl) | rfl) | rfl) | rfl) | rfl
    · have hbounds := toNat_of_isAlphanum halnum
      omega
    all_goals decide
  simp only [isRunChar, isBlank_eq_false_of_toNat hrange.1 hrange.2, Bool.or_false,
    Bool.not_eq_true', Bool.or_eq_false_iff, beq_eq_false_iff_ne]
  refine ⟨⟨⟨⟨⟨⟨⟨?_, ?_⟩, ?_⟩, ?_⟩, ?_⟩, ?_⟩, ?_⟩, ?_⟩ <;>
    · rintro rfl
      revert h
      decide

theorem isRunChar_of_isNamePart {c : Char} (h : isNamePart c = true) : isRunChar c = true :=
  isRunChar_of_isNameChar (Or.inl h)

theorem isNamePart_of_isAlpha {c : Char} (h : c.isAlpha = true) : isNamePart c = true := by
  simp [isNamePart, Char.isAlphanum, h]

/-- The tokens of a text that begins at `offset`. -/
def tokensAt (offset : Nat) (t : Text) : List Token := tokensFrom t.length offset t

theorem tokens_eq_tokensAt (source : Text) : tokens source = tokensAt 0 source := rfl

@[simp] theorem tokensAt_nil (offset : Nat) : tokensAt offset [] = [.endOfFile offset] := rfl

/-- The token of a lexeme, if it has a kind. -/
def lexemeToken (kind : Option TokenKind) (offset : Nat) (text : Text) : List Token :=
  (kind.map fun kind => ⟨kind, ⟨offset, offset + text.size⟩, text⟩).toList

theorem tokensFrom_succ {c : Char} {rest text more : Text} {kind : Option TokenKind}
    (h : lexeme c rest = (kind, text, more)) (steps offset : Nat) :
    tokensFrom (steps + 1) offset (c :: rest) =
      lexemeToken kind offset text ++ tokensFrom steps (offset + text.size) more := by
  rw [tokensFrom]
  cases kind <;> simp [h, lexemeToken]

theorem tokensFrom_eq_tokensAt (steps offset : Nat) (t : Text) (hsteps : t.length ≤ steps) :
    tokensFrom steps offset t = tokensAt offset t := by
  induction hlength : t.length using Nat.strong_induction_on generalizing steps offset t with
  | _ n ih =>
      cases t with
      | nil => simp [tokensFrom, tokensAt]
      | cons c rest =>
          obtain ⟨kind, tail, more, hlexeme, hrest, -⟩ := exists_lexeme c rest
          have hmore : more.length ≤ rest.length := by simp [hrest]
          simp only [List.length_cons] at hlength hsteps
          obtain ⟨steps, rfl⟩ :=
            Nat.exists_eq_add_of_le' (Nat.le_trans (Nat.le_add_left 1 _) hsteps)
          rw [tokensAt, List.length_cons, tokensFrom_succ hlexeme, tokensFrom_succ hlexeme,
            ih more.length (by omega) steps _ more (by omega) rfl,
            ih more.length (by omega) rest.length _ more hmore rfl]

theorem tokensAt_cons {c : Char} {rest text more : Text} {kind : Option TokenKind}
    (h : lexeme c rest = (kind, text, more)) (offset : Nat) :
    tokensAt offset (c :: rest) =
      lexemeToken kind offset text ++ tokensAt (offset + text.size) more := by
  obtain ⟨_, tail, _, hlexeme, hrest, -⟩ := exists_lexeme c rest
  rw [h, Prod.mk.injEq, Prod.mk.injEq] at hlexeme
  obtain ⟨-, -, rfl⟩ := hlexeme
  rw [tokensAt, List.length_cons, tokensFrom_succ h,
    tokensFrom_eq_tokensAt _ _ more (by simp [hrest])]

theorem tokensAt_token {c : Char} {rest text more : Text} {kind : TokenKind}
    (h : lexeme c rest = (some kind, text, more)) (offset : Nat) :
    tokensAt offset (c :: rest) =
      ⟨kind, ⟨offset, offset + text.size⟩, text⟩ :: tokensAt (offset + text.size) more :=
  tokensAt_cons h offset

theorem tokensAt_gap {c : Char} (hgap : isGap c = true) (rest : Text) (offset : Nat) :
    tokensAt offset (c :: rest) = tokensAt (offset + c.utf8Size) rest := by
  have hlexeme : lexeme c rest = (none, [c], rest) := by
    simp only [isGap, Bool.or_eq_true, beq_iff_eq] at hgap
    rcases hgap with ((rfl | rfl) | rfl) | rfl <;> rfl
  simpa [lexemeToken] using tokensAt_cons hlexeme offset

/-- Induction over the lexemes of a text. -/
@[elab_as_elim]
theorem lexeme_induction {motive : Text → Prop} (t : Text) (nil : motive [])
    (cons : ∀ c kind tail more, lexeme c (tail ++ more) = (kind, c :: tail, more) →
      (∀ x ∈ tail, opensLexeme x = false) → motive more → motive (c :: (tail ++ more))) :
    motive t := by
  induction hlength : t.length using Nat.strong_induction_on generalizing t with
  | _ n ih =>
      cases t with
      | nil => exact nil
      | cons c rest =>
          obtain ⟨kind, tail, more, hlexeme, rfl, htail⟩ := exists_lexeme c rest
          apply cons c kind tail more hlexeme htail
          apply ih more.length _ more rfl
          rw [← hlength, List.length_cons, List.length_append]
          omega

theorem le_start_of_mem_tokensAt (offset : Nat) (t : Text) :
    ∀ token ∈ tokensAt offset t, offset ≤ token.span.start := by
  induction t using lexeme_induction generalizing offset with
  | nil =>
      intro token htoken
      rw [tokensAt_nil, List.mem_singleton] at htoken
      rw [htoken]
      exact Nat.le_refl _
  | cons c kind tail more hlexeme _ ih =>
      intro token htoken
      rw [tokensAt_cons hlexeme, List.mem_append] at htoken
      rcases htoken with hfirst | hmore
      · cases kind with
        | none => simp [lexemeToken] at hfirst
        | some kind =>
            simp only [lexemeToken, Option.map_some, Option.toList_some,
              List.mem_singleton] at hfirst
            rw [hfirst]
      · exact Nat.le_trans (Nat.le_add_right _ _) (ih _ token hmore)

theorem start_eq_of_endOfFile_mem_tokensAt (offset : Nat) (t : Text) :
    ∀ token ∈ tokensAt offset t, token.kind = .endOfFile → token.span.start = offset + t.size := by
  induction t using lexeme_induction generalizing offset with
  | nil =>
      intro token htoken _
      rw [tokensAt_nil, List.mem_singleton] at htoken
      rw [htoken]
      rfl
  | cons c kind tail more hlexeme _ ih =>
      intro token htoken hkind
      rw [tokensAt_cons hlexeme, List.mem_append] at htoken
      rcases htoken with hfirst | hmore
      · cases kind with
        | none => simp [lexemeToken] at hfirst
        | some kind =>
            simp only [lexemeToken, Option.map_some, Option.toList_some,
              List.mem_singleton] at hfirst
            rw [hfirst] at hkind
            exact absurd hkind (lexeme_kind_ne_endOfFile hlexeme)
      · rw [ih _ token hmore hkind]
        simp only [Text.size_cons, Text.size_append]
        omega

theorem tokensAt_ne_nil (offset : Nat) (t : Text) : tokensAt offset t ≠ [] := by
  induction t using lexeme_induction generalizing offset with
  | nil => simp
  | cons c kind tail more hlexeme _ ih =>
      rw [tokensAt_cons hlexeme]
      exact List.append_ne_nil_of_right_ne_nil _ (ih _)

/-- The first token of a text and the tokens after it. -/
theorem tokensAt_cases (offset : Nat) (t : Text) :
    tokensAt offset t = [.endOfFile (offset + t.size)] ∨
      ∃ (gap : Text) (c : Char) (tail more : Text) (kind : TokenKind),
        t = gap ++ c :: (tail ++ more) ∧ (∀ x ∈ gap, isGap x = true) ∧
        lexeme c (tail ++ more) = (some kind, c :: tail, more) ∧
        tokensAt offset t =
          ⟨kind, ⟨offset + gap.size, offset + gap.size + Text.size (c :: tail)⟩, c :: tail⟩ ::
            tokensAt (offset + gap.size + Text.size (c :: tail)) more := by
  induction t using lexeme_induction generalizing offset with
  | nil => exact Or.inl rfl
  | cons c kind tail more hlexeme _ ih =>
      cases kind with
      | some kind =>
          exact Or.inr ⟨[], c, tail, more, kind, rfl, by simp, hlexeme, tokensAt_token hlexeme _⟩
      | none =>
          obtain ⟨hgap, htail, -⟩ := isGap_of_lexeme hlexeme
          obtain rfl : tail = [] := by simpa using htail
          rw [List.nil_append, tokensAt_gap hgap]
          rcases ih (offset + c.utf8Size) with
            hend | ⟨gap, d, tail, rest, kind, rfl, hgaps, hd, heq⟩
          · left
            rw [hend, Text.size_cons, Nat.add_assoc]
          · right
            refine ⟨c :: gap, d, tail, rest, kind, rfl, ?_, hd, ?_⟩
            · intro x hx
              rcases List.mem_cons.mp hx with rfl | hmem
              · exact hgap
              · exact hgaps x hmem
            · rw [heq, Text.size_cons c gap]
              simp only [Nat.add_assoc]

theorem dropWhile_tokensAt_of_le {offset bound : Nat} (hbound : bound ≤ offset) (t : Text) :
    (tokensAt offset t).dropWhile (fun token => token.span.start < bound) = tokensAt offset t := by
  cases htokens : tokensAt offset t with
  | nil => rfl
  | cons token more =>
      have hstart := le_start_of_mem_tokensAt offset t token (by simp [htokens])
      rw [List.dropWhile_cons_of_neg]
      simp only [decide_eq_true_eq]
      omega

/-- The tokens that begin after the text `a` or later are the tokens of the text after
it, less what may remain of a lexeme that begins in `a`. -/
theorem dropWhile_tokensAt (offset : Nat) (a b : Text) :
    ∃ cut more : Text, b = cut ++ more ∧ (∀ c ∈ cut, opensLexeme c = false) ∧
      (tokensAt offset (a ++ b)).dropWhile (fun token => token.span.start < offset + a.size) =
        tokensAt (offset + a.size + cut.size) more := by
  induction hlength : a.length using Nat.strong_induction_on generalizing offset a with
  | _ n ih =>
      cases a with
      | nil =>
          refine ⟨[], b, rfl, by simp, ?_⟩
          exact dropWhile_tokensAt_of_le (Nat.le_refl _) b
      | cons c rest =>
          obtain ⟨kind, tail, more, hlexeme, hsplit, htail⟩ := exists_lexeme c (rest ++ b)
          have hpos := c.utf8Size_pos
          have hdrop : ∀ bound, offset < bound →
              (tokensAt offset (c :: rest ++ b)).dropWhile (fun token => token.span.start < bound) =
                (tokensAt (offset + Text.size (c :: tail)) more).dropWhile
                  (fun token => token.span.start < bound) := by
            intro bound hbound
            rw [List.cons_append, tokensAt_cons hlexeme]
            cases kind with
            | none => rfl
            | some kind => simp [lexemeToken, hbound]
          rw [hdrop _ (by rw [Text.size_cons]; omega)]
          -- The first lexeme ends in `b`, which it then cuts, or it ends in `a`.
          rcases List.append_eq_append_iff.mp hsplit with ⟨cut, rfl, rfl⟩ | ⟨rest, rfl, rfl⟩
          · refine ⟨cut, more, rfl, fun x hx => htail x (List.mem_append_right _ hx), ?_⟩
            rw [dropWhile_tokensAt_of_le]
            · simp only [Text.size_cons, Text.size_append, Nat.add_assoc]
            · simp only [Text.size_cons, Text.size_append]
              omega
          · have hsize : offset + Text.size (c :: (tail ++ rest)) =
                offset + Text.size (c :: tail) + Text.size rest := by
              simp only [Text.size_cons, Text.size_append]
              omega
            rw [hsize]
            apply ih rest.length _ _ rest rfl
            rw [← hlength, List.length_cons, List.length_append]
            omega

/-- Before a character that opens a lexeme, and at the end of the text, no lexeme is cut. -/
theorem dropWhile_tokensAt_of_opensLexeme (offset : Nat) (a b : Text)
    (hb : ∀ c ∈ b.head?, opensLexeme c = true) :
    (tokensAt offset (a ++ b)).dropWhile (fun token => token.span.start < offset + a.size) =
      tokensAt (offset + a.size) b := by
  obtain ⟨cut, more, rfl, hcut, heq⟩ := dropWhile_tokensAt offset a b
  cases cut with
  | nil => exact heq
  | cons c cut =>
      have hopens := hb c rfl
      rw [hcut c List.mem_cons_self] at hopens
      exact absurd hopens (by decide)

end Markup

end Component
