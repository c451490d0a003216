/-
Tokens as the longest matches of rules.

Each kind of token has a rule: a fixed spelling, the form of a name, or any run without
delimiters.  The tokens of a source lie in it in order, with nothing but separators between
them.  Each is the longest text that a rule accepts where it begins, and its rule is the one
of highest priority among those that accept it.
-/
import Component.Proofs.Markup.Placement
import Component.Proofs.Markup.Printing

namespace Component.Markup

/-- A character whose offset lies within a text is one of the text. -/
theorem mem_of_offset_within {front text more before after : Text} {c : Char}
    (h : front ++ (text ++ more) = before ++ c :: after) (hfront : front.size ≤ before.size)
    (hstop : before.size < front.size + text.size) : c ∈ text := by
  obtain ⟨first, rfl⟩ := exists_append_of_size_le h hfront
  rw [List.append_assoc, List.append_cancel_left_eq] at h
  rw [Text.size_append] at hstop
  obtain ⟨last, rfl⟩ := exists_append_of_size_le h.symm (by omega)
  rw [List.append_assoc, List.append_cancel_left_eq] at h
  cases last with
  | nil => simp at hstop
  | cons d last =>
      obtain ⟨rfl, -⟩ := List.cons.inj h
      simp

/-! ### Rules -/

/-- The characters that are skipped between tokens. -/
def separators : List Char := [' ', '\t', '\r', '\x0c']

/-- The characters that end a run. -/
def delimiters : List Char := ['<', '>', '/', '=', '"', '\'', '{', '}']

/-- No character of the text is a delimiter or whitespace. -/
def DelimiterFree (t : Text) : Prop := ∀ c ∈ t, c ∉ delimiters ∧ isBlank c = false

/-- An ASCII letter, `_`, `:` or `@`, and then ASCII letters, digits, `_`, `:`, `.` and `-`. -/
def HasNameForm : Text → Prop
  | [] => False
  | c :: rest =>
      (c.isAlpha = true ∨ c ∈ ['_', ':', '@']) ∧
        ∀ d ∈ rest, d.isAlphanum = true ∨ d ∈ ['_', ':', '.', '-']

/-- Whitespace that neither separates tokens nor is one: all but separators and line feeds. -/
def IsStray (c : Char) : Prop := isBlank c = true ∧ c ∉ separators ∧ c ≠ '\n'

/-- How a token is written, for the kinds that are always written the same. -/
def TokenKind.spelling? : TokenKind → Option Text
  | .commentOpen => some ['<', '!', '-', '-']
  | .closingOpen => some ['<', '/']
  | .tagOpen => some ['<']
  | .selfClose => some ['/', '>']
  | .tagClose => some ['>']
  | .slash => some ['/']
  | .equals => some ['=']
  | .doubleQuote => some ['"']
  | .singleQuote => some ['\'']
  | .leftBrace => some ['{']
  | .rightBrace => some ['}']
  | .newline => some ['\n']
  | .name | .text | .endOfFile | .invalid => none

/-- The rule of a kind of token accepts a text.  There are no rules for the end of a source and
for invalid tokens. -/
inductive TokenKind.Accepts : TokenKind → Text → Prop where
  | spelled {kind : TokenKind} {t : Text} (h : kind.spelling? = some t) : Accepts kind t
  | name {t : Text} (h : HasNameForm t) : Accepts .name t
  | text {t : Text} (hne : t ≠ []) (h : DelimiterFree t) : Accepts .text t

/-- Of two rules that accept the same text, the one of higher priority counts. -/
def TokenKind.priority : TokenKind → Nat
  | .commentOpen => 12
  | .closingOpen | .selfClose => 11
  | .name => 4
  | .text => 1
  | .endOfFile | .invalid => 0
  | _ => 10

/-- A text is what the rules take from the front of `rest`, and the rule of its kind takes it. -/
structure BestMatch (kind : TokenKind) (text rest : Text) : Prop where
  front : text <+: rest
  accepts : kind.Accepts text
  /-- No rule accepts more. -/
  longest : ∀ (other : TokenKind) (longer : Text), longer <+: rest → other.Accepts longer →
    longer.length ≤ text.length
  /-- Every other rule that accepts as much has a lower priority. -/
  preferred : ∀ other : TokenKind, other.Accepts text →
    other = kind ∨ other.priority < kind.priority
  /-- Nothing there is skipped. -/
  unskipped : ∀ c ∈ rest.head?, c ∉ separators

theorem isGap_iff {c : Char} : isGap c = true ↔ c ∈ separators := by
  simp [isGap, separators, or_assoc]

theorem isRunChar_iff {c : Char} : isRunChar c = true ↔ c ∉ delimiters ∧ isBlank c = false := by
  simp [isRunChar, delimiters, and_assoc]

theorem delimiterFree_iff {t : Text} : DelimiterFree t ↔ ∀ c ∈ t, isRunChar c = true := by
  simp only [DelimiterFree, isRunChar_iff]

theorem hasNameForm_iff {t : Text} : HasNameForm t ↔ isName t = true := by
  cases t with
  | nil => simp [HasNameForm, isName]
  | cons c rest => simp [HasNameForm, isName, isNameStart, isNamePart, or_assoc]

theorem isBlank_of_mem_separators {c : Char} (h : c ∈ separators) : isBlank c = true := by
  simp only [separators, List.mem_cons, List.not_mem_nil, or_false] at h
  rcases h with rfl | rfl | rfl | rfl <;> decide

namespace TokenKind

/-- Only three spellings are longer than one character. -/
theorem spelling?_long {kind : TokenKind} {t : Text} (h : kind.spelling? = some t) :
    t.length = 1 ∨ t ∈ [['<', '!', '-', '-'], ['<', '/'], ['/', '>']] := by
  cases kind <;> simp only [spelling?, Option.some.injEq, reduceCtorEq] at h <;> subst h <;> simp

theorem spelling?_inj {kind other : TokenKind} {t : Text} (h : kind.spelling? = some t)
    (ho : other.spelling? = some t) : other = kind := by
  cases kind <;> simp only [spelling?, Option.some.injEq, reduceCtorEq] at h <;> subst h <;>
    cases other <;> first | rfl | simp [spelling?] at ho

/-- A spelling begins with a character that belongs to no run. -/
theorem spelling?_head {kind : TokenKind} {t : Text} (h : kind.spelling? = some t) :
    ∃ c rest, t = c :: rest ∧ isRunChar c = false ∧ (isBlank c = true → c = '\n') := by
  cases kind <;> simp only [spelling?, Option.some.injEq, reduceCtorEq] at h <;> subst h <;>
    exact ⟨_, _, rfl, by decide, by decide⟩

/-- What a rule accepts is spelled so or is a run. -/
theorem Accepts.spelled_or_run {kind : TokenKind} {t : Text} (h : kind.Accepts t) :
    kind.spelling? = some t ∨ (t ≠ [] ∧ ∀ c ∈ t, isRunChar c = true) := by
  cases h with
  | spelled h => exact .inl h
  | name h =>
      refine .inr ⟨?_, isRunChar_of_isName (hasNameForm_iff.mp h)⟩
      rintro rfl
      exact h
  | text hne h => exact .inr ⟨hne, delimiterFree_iff.mp h⟩

/-- No rule accepts anything before whitespace other than a line feed. -/
theorem not_accepts_of_isBlank {c : Char} (hblank : isBlank c = true) (hfeed : c ≠ '\n')
    {rest text : Text} (hfront : text <+: c :: rest) (kind : TokenKind) : ¬kind.Accepts text := by
  intro h
  rcases h.spelled_or_run with hspelled | ⟨hne, hrun⟩
  · obtain ⟨d, tail, rfl, -, hd⟩ := spelling?_head hspelled
    obtain ⟨rfl, -⟩ := List.cons_prefix_cons.mp hfront
    exact hfeed (hd hblank)
  · obtain ⟨d, tail, rfl⟩ := List.exists_cons_of_ne_nil hne
    obtain ⟨rfl, -⟩ := List.cons_prefix_cons.mp hfront
    have hd := (isRunChar_iff.mp (hrun d List.mem_cons_self)).2
    rw [hblank] at hd
    cases hd

end TokenKind

/-! ### One lexeme -/

theorem lexeme_of_isStray {c : Char} (h : IsStray c) (rest : Text) :
    lexeme c rest = (some .invalid, [c], rest) := by
  obtain ⟨hblank, hsep, hnewline⟩ := h
  have hgap : ¬isGap c = true := fun hgap => hsep (isGap_iff.mp hgap)
  unfold lexeme
  split
  case h_12 => exact absurd rfl hnewline
  case h_13 => rw [if_neg hgap, if_pos hblank]
  all_goals exact absurd hblank (by decide)

section LexemeToken

variable {c : Char} {rest text more : Text} {kind : TokenKind}

/-- A lexeme that is a token is a spelling, a run, or a stray character. -/
theorem lexeme_token_cases (h : lexeme c rest = (some kind, text, more)) :
    kind.spelling? = some text ∨
      (isRunChar c = true ∧ text = c :: rest.takeWhile isRunChar ∧
        kind = if isName text then .name else .text) ∨
      (IsStray c ∧ kind = .invalid ∧ text = [c]) := by
  unfold lexeme at h
  split at h
  case h_13 =>
    split_ifs at h with hgap hblank <;>
      simp only [Prod.mk.injEq, Option.some.injEq, reduceCtorEq, false_and] at h
    · obtain ⟨rfl, rfl, -⟩ := h
      refine .inr (.inr ⟨⟨hblank, fun hsep => hgap (isGap_iff.mpr hsep), ?_⟩, rfl, rfl⟩)
      assumption
    · obtain ⟨rfl, rfl, -⟩ := h
      refine .inr (.inl ⟨?_, rfl, rfl⟩)
      simp_all [isRunChar]
  all_goals
    simp only [Prod.mk.injEq, Option.some.injEq] at h
    obtain ⟨rfl, rfl, -⟩ := h
    exact .inl rfl

theorem not_mem_separators_of_lexeme (h : lexeme c rest = (some kind, text, more)) :
    c ∉ separators := by
  intro hsep
  simp only [separators, List.mem_cons, List.not_mem_nil, or_false] at hsep
  rcases hsep with rfl | rfl | rfl | rfl <;> cases congrArg Prod.fst h

theorem accepts_of_lexeme (h : lexeme c rest = (some kind, text, more))
    (hkind : kind ≠ .invalid) : kind.Accepts text := by
  rcases lexeme_token_cases h with hspelled | ⟨hrun, rfl, rfl⟩ | ⟨-, hinvalid, -⟩
  · exact .spelled hspelled
  · split_ifs with hname
    · exact .name (hasNameForm_iff.mpr hname)
    · refine .text (List.cons_ne_nil _ _) (delimiterFree_iff.mpr fun d hd => ?_)
      rcases List.mem_cons.mp hd with rfl | hmem
      · exact hrun
      · exact List.mem_takeWhile_imp hmem
  · exact absurd hinvalid hkind

/-- Of the rules that accept a lexeme, its own comes first. -/
theorem priority_of_lexeme (h : lexeme c rest = (some kind, text, more)) {other : TokenKind}
    (hother : other.Accepts text) : other = kind ∨ other.priority < kind.priority := by
  rcases lexeme_token_cases h with hspelled | ⟨hrun, htext, rfl⟩ | ⟨hstray, -, rfl⟩
  · left
    obtain ⟨d, tail, rfl, hd, -⟩ := TokenKind.spelling?_head hspelled
    rcases hother.spelled_or_run with ho | ⟨-, hall⟩
    · exact TokenKind.spelling?_inj hspelled ho
    · rw [hall d List.mem_cons_self] at hd
      cases hd
  · cases hother with
    | spelled ho =>
        obtain ⟨d, tail, rfl, hd, -⟩ := TokenKind.spelling?_head ho
        rw [(List.cons.inj htext).1, hrun] at hd
        cases hd
    | name ho =>
        left
        rw [if_pos (hasNameForm_iff.mp ho)]
    | text =>
        split_ifs
        · exact .inr (by decide)
        · exact .inl rfl
  · exact absurd hother
      (TokenKind.not_accepts_of_isBlank hstray.1 hstray.2.2 (List.prefix_append [c] rest) other)

/-- No rule accepts more than the lexeme. -/
theorem length_le_of_accepts {kind : Option TokenKind} (h : lexeme c rest = (kind, text, more))
    {other : TokenKind} {longer : Text} (hfront : longer <+: c :: rest)
    (hother : other.Accepts longer) : longer.length ≤ text.length := by
  rcases hother.spelled_or_run with hspelled | ⟨hne, hrun⟩
  · rcases TokenKind.spelling?_long hspelled with hone | hlong
    · obtain ⟨_, tail, _, hlexeme, -, -⟩ := exists_lexeme c rest
      rw [h, Prod.mk.injEq, Prod.mk.injEq] at hlexeme
      simp [hone, hlexeme.2.1]
    · -- Where one of the long spellings stands, it is the lexeme.
      simp only [List.mem_cons, List.not_mem_nil, or_false] at hlong
      obtain ⟨after, hafter⟩ := hfront
      rcases hlong with rfl | rfl | rfl
      all_goals
        obtain ⟨rfl, rfl⟩ := List.cons.inj hafter
        exact (congrArg (fun found => found.2.1.length) h).le
  · obtain ⟨d, run, rfl⟩ := List.exists_cons_of_ne_nil hne
    obtain ⟨rfl, after, rfl⟩ := List.cons_prefix_cons.mp hfront
    have htake : (run ++ after).takeWhile isRunChar = run ++ after.takeWhile isRunChar :=
      List.takeWhile_append_of_pos fun x hx => hrun x (List.mem_cons_of_mem d hx)
    rw [lexeme_of_isRunChar (hrun d List.mem_cons_self), htake, Prod.mk.injEq, Prod.mk.injEq] at h
    simp [← h.2.1]

/-- A lexeme is the best match where it begins. -/
theorem bestMatch_of_lexeme (h : lexeme c rest = (some kind, text, more))
    (hkind : kind ≠ .invalid) : BestMatch kind text (c :: rest) := by
  have hfront : text <+: c :: rest := by
    obtain ⟨_, tail, _, hlexeme, rfl, -⟩ := exists_lexeme c rest
    rw [h, Prod.mk.injEq, Prod.mk.injEq] at hlexeme
    rw [hlexeme.2.1]
    exact List.prefix_append (c :: tail) _
  refine ⟨hfront, accepts_of_lexeme h hkind, fun _ _ => length_le_of_accepts h,
    fun _ => priority_of_lexeme h, ?_⟩
  intro d hd
  obtain rfl : c = d := by simpa using hd
  exact not_mem_separators_of_lexeme h

end LexemeToken

/-! ### The tokens of a source -/

/-- The token is a lexeme of a text that begins at `offset`. -/
def Token.IsLexemeOf (offset : Nat) (t : Text) (token : Token) : Prop :=
  ∃ (before : Text) (c : Char) (tail more : Text),
    t = before ++ c :: (tail ++ more) ∧
    lexeme c (tail ++ more) = (some token.kind, c :: tail, more) ∧
    (∀ x ∈ tail, opensLexeme x = false) ∧
    token = ⟨token.kind, ⟨offset + before.size, offset + before.size + Text.size (c :: tail)⟩,
      c :: tail⟩

/-- The tokens of a text are lexemes, and at last the mark of its end. -/
theorem tokensAt_eq_append (offset : Nat) (t : Text) :
    ∃ init : List Token, tokensAt offset t = init ++ [.endOfFile (offset + t.size)] ∧
      ∀ token ∈ init, token.IsLexemeOf offset t := by
  induction t using lexeme_induction generalizing offset with
  | nil => exact ⟨[], rfl, by simp⟩
  | cons c kind tail more hlexeme htail ih =>
      obtain ⟨init, hinit, hall⟩ := ih (offset + Text.size (c :: tail))
      refine ⟨lexemeToken kind offset (c :: tail) ++ init, ?_, ?_⟩
      · rw [tokensAt_cons hlexeme, hinit, List.append_assoc, ← List.cons_append, Text.size_append,
          Nat.add_assoc]
      · intro token htoken
        rcases List.mem_append.mp htoken with hfirst | hmore
        · cases kind with
          | none => simp [lexemeToken] at hfirst
          | some kind =>
              obtain rfl := List.mem_singleton.mp hfirst
              exact ⟨[], c, tail, more, rfl, hlexeme, htail, rfl⟩
        · obtain ⟨before, d, rest, after, rfl, hd, hrest, heq⟩ := hall token hmore
          refine ⟨c :: (tail ++ before), d, rest, after, by simp, hd, hrest, ?_⟩
          rw [heq]
          simp [Nat.add_assoc]

theorem tokensAt_ordered (offset : Nat) (t : Text) :
    (tokensAt offset t).Pairwise fun a b => a.span.stop ≤ b.span.start := by
  induction t using lexeme_induction generalizing offset with
  | nil => simp
  | cons c kind tail more hlexeme _ ih =>
      rw [tokensAt_cons hlexeme]
      cases kind with
      | none => exact ih _
      | some kind =>
          refine List.pairwise_cons.mpr ⟨fun later hlater => ?_, ih _⟩
          exact le_start_of_mem_tokensAt _ more later hlater

/-- Every character that is not skipped lies in a token. -/
theorem exists_token_over {t before after : Text} {c : Char} (h : t = before ++ c :: after)
    (hc : isGap c = false) (offset : Nat) :
    ∃ token ∈ tokensAt offset t,
      token.span.start ≤ offset + before.size ∧ offset + before.size < token.span.stop := by
  induction t using lexeme_induction generalizing offset before with
  | nil => simp at h
  | cons d kind tail more hlexeme _ ih =>
      rw [tokensAt_cons hlexeme]
      have hlater : ∀ first, before = d :: tail ++ first → more = first ++ c :: after →
          ∃ token ∈ lexemeToken kind offset (d :: tail) ++
              tokensAt (offset + Text.size (d :: tail)) more,
            token.span.start ≤ offset + before.size ∧ offset + before.size < token.span.stop := by
        rintro first rfl hmore
        obtain ⟨token, htoken, hover⟩ := ih hmore (offset + Text.size (d :: tail))
        rw [Nat.add_assoc, ← Text.size_append] at hover
        exact ⟨token, List.mem_append_right _ htoken, hover⟩
      rw [← List.cons_append] at h
      -- The character stands behind the first lexeme or in it, and then the lexeme is a token.
      rcases List.append_eq_append_iff.mp h with ⟨first, hbefore, hmore⟩ | ⟨last, hlast, hmore⟩
      · exact hlater first hbefore hmore
      · cases last with
        | nil => exact hlater [] (by simpa using hlast.symm) (by simpa using hmore.symm)
        | cons e last =>
            obtain ⟨rfl, -⟩ := List.cons.inj hmore
            cases kind with
            | none =>
                obtain ⟨hgap, htail, -⟩ := isGap_of_lexeme hlexeme
                rw [hlast] at htail
                have hcd : c ∈ [d] := htail ▸ List.mem_append_right before List.mem_cons_self
                rw [List.mem_singleton.mp hcd, hgap] at hc
                cases hc
            | some kind =>
                refine ⟨_, List.mem_append_left _ (List.mem_singleton.mpr rfl),
                  Nat.le_add_right _ _, ?_⟩
                have hpos := c.utf8Size_pos
                rw [hlast]
                simp only [Text.size_append, Text.size_cons]
                omega

/-- A character that stands only at the front of lexemes begins a token. -/
theorem mem_tokens_of_opensLexeme {c : Char} {after text more : Text} {kind : TokenKind}
    (hc : opensLexeme c = true) (h : lexeme c after = (some kind, text, more)) (before : Text) :
    ⟨kind, ⟨before.size, before.size + text.size⟩, text⟩ ∈ tokens (before ++ c :: after) := by
  have hdrop := dropWhile_tokensAt_of_opensLexeme 0 before (c :: after) (by simpa using hc)
  rw [Nat.zero_add, tokensAt_token h] at hdrop
  exact (List.dropWhile_suffix _).subset (hdrop ▸ List.mem_cons_self)

theorem exists_token_at_angle (before after : Text) :
    ∃ token ∈ tokens (before ++ '<' :: after),
      token.span.start = before.size ∧ token.text.head? = some '<' := by
  obtain ⟨kind, tail, more, hlexeme, -, -⟩ := exists_lexeme '<' after
  cases kind with
  | none => exact absurd (isGap_of_lexeme hlexeme).1 (by decide)
  | some kind => exact ⟨_, mem_tokens_of_opensLexeme (by decide) hlexeme before, rfl, rfl⟩

/-- The tokens cut up the source without loss, and each is the longest that the rules allow. -/
structure MaximalMunch (source : Text) (tokens : List Token) : Prop where
  /-- The last token marks the end of the source, and no other does. -/
  ends : ∃ init : List Token, tokens = init ++ [.endOfFile source.size] ∧
    ∀ token ∈ init, token.kind ≠ .endOfFile
  /-- Each token ends before the next one begins. -/
  ordered : tokens.Pairwise fun a b => a.span.stop ≤ b.span.start
  /-- The text of a token is what its span covers. -/
  placed : ∀ token ∈ tokens, token.span.Covers source token.text
  /-- A token is not empty, unless it marks the end. -/
  nonempty : ∀ token ∈ tokens, token.kind ≠ .endOfFile → token.span.start < token.span.stop
  /-- The characters that lie in no token are the separators. -/
  gaps : ∀ (before : Text) (c : Char) (after : Text), source = before ++ c :: after →
    (c ∈ separators ↔ ∀ token ∈ tokens,
      ¬(token.span.start ≤ before.size ∧ before.size < token.span.stop))
  /-- A token is the best match where it begins. -/
  best : ∀ token ∈ tokens, token.kind ≠ .endOfFile → token.kind ≠ .invalid →
    BestMatch token.kind token.text (source.dropBytes token.span.start)
  /-- A token at a run without delimiters is the whole run, and is a name just when the whole
  run has the form of one. -/
  runs : ∀ token ∈ tokens, ∀ run more : Text,
    source.dropBytes token.span.start = run ++ more → run ≠ [] → DelimiterFree run →
    (∀ c ∈ more.head?, ¬DelimiterFree [c]) →
    token.text = run ∧ (token.kind = .name ↔ HasNameForm run) ∧
      (token.kind = .text ↔ ¬HasNameForm run)
  /-- A stray character is an invalid token of its own. -/
  strays : ∀ (before : Text) (c : Char) (after : Text), source = before ++ c :: after →
    IsStray c → ⟨.invalid, ⟨before.size, before.size + c.utf8Size⟩, [c]⟩ ∈ tokens
  /-- An invalid token is a stray character, at which no rule accepts anything. -/
  invalid : ∀ token ∈ tokens, token.kind = .invalid →
    (∃ c, token.text = [c] ∧ IsStray c) ∧
      ∀ (kind : TokenKind) (text : Text), text <+: source.dropBytes token.span.start →
        ¬kind.Accepts text
  /-- No token contains `<` but at its front. -/
  angle_first : ∀ token ∈ tokens, '<' ∉ token.text.tail
  /-- Every `<` begins a token. -/
  angle_begins : ∀ before after : Text, source = before ++ '<' :: after →
    ∃ token ∈ tokens, token.span.start = before.size ∧ token.text.head? = some '<'

namespace Token

variable {source : Text} {token : Token}

theorem IsLexemeOf.covers (h : token.IsLexemeOf 0 source) :
    token.span.Covers source token.text := by
  obtain ⟨before, c, tail, more, rfl, -, -, heq⟩ := h
  rw [heq]
  exact ⟨before, more, by simp, by simp⟩

theorem IsLexemeOf.kind_ne_endOfFile (h : token.IsLexemeOf 0 source) :
    token.kind ≠ .endOfFile := by
  obtain ⟨_, _, _, _, -, hlexeme, -, -⟩ := h
  exact lexeme_kind_ne_endOfFile hlexeme

theorem IsLexemeOf.start_lt_stop (h : token.IsLexemeOf 0 source) :
    token.span.start < token.span.stop := by
  obtain ⟨before, c, tail, more, -, -, -, heq⟩ := h
  have hpos := c.utf8Size_pos
  rw [heq]
  simp only [Text.size_cons]
  omega

/-- What is left of the source where the token begins. -/
theorem IsLexemeOf.rest (h : token.IsLexemeOf 0 source) :
    ∃ (c : Char) (tail more : Text), source.dropBytes token.span.start = c :: (tail ++ more) ∧
      lexeme c (tail ++ more) = (some token.kind, c :: tail, more) ∧ token.text = c :: tail := by
  obtain ⟨before, c, tail, more, rfl, hlexeme, -, heq⟩ := h
  refine ⟨c, tail, more, ?_, hlexeme, by rw [heq]⟩
  rw [heq]
  simp only [Nat.zero_add]
  exact Text.dropBytes_size_append before _

end Token

/-- A token is a lexeme of the source or marks its end. -/
theorem mem_tokens_cases {source : Text} {token : Token} (h : token ∈ tokens source) :
    token.IsLexemeOf 0 source ∨ token = .endOfFile source.size := by
  obtain ⟨init, hinit, hall⟩ := tokensAt_eq_append 0 source
  rw [tokens_eq_tokensAt, hinit, Nat.zero_add] at h
  rcases List.mem_append.mp h with hmem | hlast
  · exact .inl (hall token hmem)
  · exact .inr (List.mem_singleton.mp hlast)

theorem isLexemeOf_of_mem_tokens {source : Text} {token : Token} (h : token ∈ tokens source)
    (hkind : token.kind ≠ .endOfFile) : token.IsLexemeOf 0 source := by
  rcases mem_tokens_cases h with hlexeme | rfl
  · exact hlexeme
  · exact absurd rfl hkind

/-- A separator lies in no token. -/
theorem not_over_separator {source before after : Text} {c : Char}
    (h : source = before ++ c :: after) (hc : c ∈ separators) {token : Token}
    (htoken : token ∈ tokens source) :
    ¬(token.span.start ≤ before.size ∧ before.size < token.span.stop) := by
  rintro ⟨hstart, hstop⟩
  rcases mem_tokens_cases htoken with ⟨front, d, tail, more, hsource, hlexeme, htail, heq⟩ | rfl
  · rw [heq] at hstart hstop
    simp only [Nat.zero_add] at hstart hstop
    have hsame : front ++ (d :: tail ++ more) = before ++ c :: after := hsource.symm.trans h
    rcases List.mem_cons.mp (mem_of_offset_within hsame hstart hstop) with rfl | hmem
    · exact not_mem_separators_of_lexeme hlexeme hc
    · have hopens := htail c hmem
      simp [opensLexeme, isBlank_of_mem_separators hc] at hopens
  · exact absurd (Nat.lt_of_le_of_lt hstart hstop) (Nat.lt_irrefl _)

/-- The separators are the characters that lie in no token. -/
theorem mem_separators_iff {source before after : Text} {c : Char}
    (h : source = before ++ c :: after) :
    c ∈ separators ↔ ∀ token ∈ tokens source,
      ¬(token.span.start ≤ before.size ∧ before.size < token.span.stop) := by
  refine ⟨fun hc token => not_over_separator h hc, fun hnone => ?_⟩
  by_contra hc
  have hgap : isGap c = false := by
    rw [Bool.eq_false_iff, ne_eq, isGap_iff]
    exact hc
  obtain ⟨token, htoken, hover⟩ := exists_token_over h hgap 0
  rw [Nat.zero_add] at hover
  exact hnone token htoken hover

theorem run_of_mem_tokens {source : Text} {token : Token} (htoken : token ∈ tokens source)
    {run more : Text} (hrest : source.dropBytes token.span.start = run ++ more) (hne : run ≠ [])
    (hrun : DelimiterFree run) (hmore : ∀ c ∈ more.head?, ¬DelimiterFree [c]) :
    token.text = run ∧ (token.kind = .name ↔ HasNameForm run) ∧
      (token.kind = .text ↔ ¬HasNameForm run) := by
  rcases mem_tokens_cases htoken with hlexeme | rfl
  · obtain ⟨c, tail, rest, hfront, hlexeme, htext⟩ := hlexeme.rest
    obtain ⟨d, run, rfl⟩ := List.exists_cons_of_ne_nil hne
    rw [hfront, List.cons_append, List.cons.injEq] at hrest
    obtain ⟨rfl, hrest⟩ := hrest
    have hstop : ∀ x ∈ more.head?, isRunChar x = false := by
      intro x hx
      have hnot := hmore x hx
      simpa [delimiterFree_iff] using hnot
    rw [hrest, lexeme_of_run (delimiterFree_iff.mp hrun) hstop, Prod.mk.injEq, Prod.mk.injEq,
      Option.some.injEq] at hlexeme
    obtain ⟨hkind, hall, -⟩ := hlexeme
    refine ⟨htext.trans hall.symm, ?_⟩
    rw [← hkind, hasNameForm_iff]
    split_ifs with hname <;> simp [hname]
  · have hnone := Text.dropBytes_size_append source []
    rw [List.append_nil] at hnone
    rw [Token.endOfFile, Span.empty, hnone] at hrest
    exact absurd (List.append_eq_nil_iff.mp hrest.symm).1 hne

theorem invalid_of_mem_tokens {source : Text} {token : Token} (htoken : token ∈ tokens source)
    (hkind : token.kind = .invalid) :
    (∃ c, token.text = [c] ∧ IsStray c) ∧
      ∀ (kind : TokenKind) (text : Text), text <+: source.dropBytes token.span.start →
        ¬kind.Accepts text := by
  have hlexemeOf := isLexemeOf_of_mem_tokens htoken (by simp [hkind])
  obtain ⟨c, tail, more, hrest, hlexeme, htext⟩ := hlexemeOf.rest
  rw [hkind] at hlexeme
  rcases lexeme_token_cases hlexeme with hspelled | ⟨-, -, hrun⟩ | ⟨hstray, -, hone⟩
  · cases hspelled
  · split_ifs at hrun
  · refine ⟨⟨c, htext.trans hone, hstray⟩, fun kind text hfront => ?_⟩
    rw [hrest] at hfront
    exact TokenKind.not_accepts_of_isBlank hstray.1 hstray.2.2 hfront kind

/-- Lexing is lossless and takes the longest match each time: every token is the longest text
that a rule accepts where it begins, by the rule of highest priority, and only separators
stand outside of tokens. -/
theorem tokens_lossless_maximal_munch (source : Text) : MaximalMunch source (tokens source) where
  ends := by
    obtain ⟨init, hinit, hall⟩ := tokensAt_eq_append 0 source
    rw [Nat.zero_add] at hinit
    exact ⟨init, hinit, fun token htoken => (hall token htoken).kind_ne_endOfFile⟩
  ordered := tokensAt_ordered 0 source
  placed token htoken := by
    rcases mem_tokens_cases htoken with hlexeme | rfl
    · exact hlexeme.covers
    · exact ⟨source, [], by simp [Token.endOfFile], rfl⟩
  nonempty token htoken hkind := (isLexemeOf_of_mem_tokens htoken hkind).start_lt_stop
  gaps before c after hsource := mem_separators_iff hsource
  best token htoken hend hkind := by
    obtain ⟨c, tail, more, hrest, hlexeme, htext⟩ := (isLexemeOf_of_mem_tokens htoken hend).rest
    rw [hrest, htext]
    exact bestMatch_of_lexeme hlexeme hkind
  runs token htoken run more hrest := run_of_mem_tokens htoken hrest
  strays before c after hsource hc := by
    rw [hsource]
    exact mem_tokens_of_opensLexeme (by simp [opensLexeme, hc.1]) (lexeme_of_isStray hc after)
      before
  invalid token htoken := invalid_of_mem_tokens htoken
  angle_first token htoken := by
    rcases mem_tokens_cases htoken with ⟨before, c, tail, more, -, -, htail, heq⟩ | rfl
    · rw [heq]
      intro hmem
      exact absurd (htail '<' hmem) (by decide)
    · simp [Token.endOfFile]
  angle_begins before after hsource := by
    rw [hsource]
    exact exists_token_at_angle before after

end Component.Markup
