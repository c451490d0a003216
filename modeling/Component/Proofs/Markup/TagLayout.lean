/-
The layout of start tags in markup without errors.

A start tag is `<`, a name, its attributes with whitespace between them, and `>` or `/>`.
There is one exception: directly after a bare value that ends in `/`, a `>` belongs to the
lexeme `/>` that begins inside the value, and is passed over as if it were whitespace.
-/
import Component.Proofs.Markup.Continuing

namespace Component.Markup

/-! ### Lexemes before `>` -/

/-- Whether a text ends in a `/` that is not part of `</`. -/
def endsInSlash (text : Text) : Bool :=
  text.getLast? == some '/' && text.dropLast.getLast? != some '<'

theorem endsInSlash_append {front text : Text} (htext : text ≠ [])
    (hfront : text = ['/'] → front.getLast? ≠ some '<') :
    endsInSlash (front ++ text) = endsInSlash text := by
  have hlast : ∀ last : Text, last ≠ [] → (front ++ last).getLast? = last.getLast? := by
    intro last hne
    rw [List.getLast?_append, List.getLast?_eq_some_getLast hne, Option.some_or]
  rw [endsInSlash, endsInSlash, hlast text htext, List.dropLast_append_of_ne_nil htext]
  by_cases hone : text.dropLast = []
  · -- A single character is read together with the last one before it.
    obtain ⟨c, rfl⟩ : ∃ c, text = [c] := by
      rcases text with _ | ⟨c, _ | ⟨d, more⟩⟩
      · exact absurd rfl htext
      · exact ⟨c, rfl⟩
      · cases hone
    by_cases hc : c = '/'
    · subst hc
      rw [List.dropLast_singleton, List.append_nil, bne_iff_ne.2 (hfront rfl)]
      rfl
    · have hnot : ([c].getLast? == some '/') = false := by simp [hc]
      rw [hnot, Bool.false_and, Bool.false_and]
  · rw [hlast _ hone]

theorem lexeme_slash_of_mem {c : Char} {rest tail more : Text} {kind : Option TokenKind}
    (h : lexeme c rest = (kind, c :: tail, more)) :
    ('>' ∈ tail → c = '/' ∧ tail = ['>']) ∧ ('/' ∈ tail → c = '<' ∧ tail = ['/']) := by
  unfold lexeme at h
  split at h
  case h_13 =>
    have hrun : ∀ x ∈ rest.takeWhile isRunChar, x ≠ '>' ∧ x ≠ '/' := by
      intro x hx
      have hchar := List.mem_takeWhile_imp hx
      constructor <;> (rintro rfl; exact absurd hchar (by decide))
    split_ifs at h <;> simp only [Prod.mk.injEq, List.cons.injEq, true_and] at h
    · simp [← h.2.1]
    · simp [← h.2.1]
    · rw [← h.2.1]
      exact ⟨fun hmem => absurd rfl (hrun _ hmem).1, fun hmem => absurd rfl (hrun _ hmem).2⟩
  all_goals
    simp only [Prod.mk.injEq, List.cons.injEq, true_and] at h
    simp [← h.2.1]

/-- A lexeme that stops before `>` does not end in a `/` of its own. -/
theorem endsInSlash_lexeme {c : Char} {tail more : Text} {kind : Option TokenKind}
    (h : lexeme c (tail ++ '>' :: more) = (kind, c :: tail, '>' :: more)) :
    endsInSlash (c :: tail) = false := by
  cases htail : tail with
  | nil =>
      have hc : c ≠ '/' := by
        rintro rfl
        rw [htail] at h
        simp [lexeme] at h
      simp [endsInSlash, hc]
  | cons d rest =>
      by_contra hends
      have hlast : (c :: d :: rest).getLast? = some '/' := by
        simp only [endsInSlash, Bool.not_eq_false, Bool.and_eq_true, beq_iff_eq] at hends
        exact hends.1
      rw [List.getLast?_cons_cons] at hlast
      have hmem : '/' ∈ tail := htail ▸ List.mem_of_getLast? hlast
      obtain ⟨rfl, hslash⟩ := (lexeme_slash_of_mem h).2 hmem
      rw [← htail, hslash] at hends
      exact hends rfl

/-- A lexeme that stops before `/` does not end in `<`. -/
theorem getLast?_lexeme {c : Char} {tail more : Text} {kind : Option TokenKind}
    (h : lexeme c (tail ++ '/' :: more) = (kind, c :: tail, '/' :: more)) :
    (c :: tail).getLast? ≠ some '<' := by
  obtain ⟨_, tail', _, hspec, -, hopens⟩ := exists_lexeme c (tail ++ '/' :: more)
  rw [h, Prod.mk.injEq, Prod.mk.injEq, List.cons.injEq] at hspec
  obtain ⟨-, ⟨-, rfl⟩, -⟩ := hspec
  cases htail : tail with
  | nil =>
      have hc : c ≠ '<' := by
        rintro rfl
        rw [htail] at h
        simp [lexeme] at h
      simp [hc]
  | cons d rest =>
      rw [List.getLast?_cons_cons]
      intro hlast
      have hmem : '<' ∈ tail := htail ▸ List.mem_of_getLast? hlast
      exact absurd (hopens '<' hmem) (by decide)

/-- A lexeme in front of a text changes nothing about how the text ends before `>`. -/
theorem endsInSlash_lexeme_append {c : Char} {tail rest more : Text} {kind : Option TokenKind}
    (h : lexeme c (tail ++ (rest ++ '>' :: more)) = (kind, c :: tail, rest ++ '>' :: more)) :
    endsInSlash (c :: (tail ++ rest)) = endsInSlash rest := by
  cases hrest : rest with
  | nil =>
      rw [hrest] at h
      rw [List.append_nil]
      exact endsInSlash_lexeme h
  | cons d others =>
      rw [← List.cons_append]
      apply endsInSlash_append (List.cons_ne_nil d others)
      intro hslash
      rw [hrest, hslash] at h
      exact getLast?_lexeme h

theorem dropWhile_tokensAt_lexeme {c : Char} {rest tail more : Text} {kind : Option TokenKind}
    (h : lexeme c rest = (kind, c :: tail, more)) {offset bound : Nat} (hbound : offset < bound) :
    (tokensAt offset (c :: rest)).dropWhile (fun token => token.span.start < bound) =
      (tokensAt (offset + Text.size (c :: tail)) more).dropWhile
        (fun token => token.span.start < bound) := by
  rw [tokensAt_cons h]
  cases kind with
  | none => rfl
  | some kind => simp [lexemeToken, hbound]

/-- The tokens that begin at a `>` or later, when the text before it has been passed: a `/>`
that begins there takes the `>` away. -/
theorem dropWhile_tokensAt_tagClose (offset : Nat) (a more : Text) :
    (tokensAt offset (a ++ '>' :: more)).dropWhile
        (fun token => token.span.start < offset + a.size) =
      if endsInSlash a then tokensAt (offset + a.size + 1) more
      else tokensAt (offset + a.size) ('>' :: more) := by
  induction hlength : a.length using Nat.strong_induction_on generalizing offset a with
  | _ n ih =>
      cases a with
      | nil => exact dropWhile_tokensAt_of_le (Nat.le_refl _) _
      | cons c rest =>
          obtain ⟨kind, tail, others, hlexeme, hsplit, -⟩ := exists_lexeme c (rest ++ '>' :: more)
          have hbound : offset < offset + Text.size (c :: rest) := by
            have hpos := c.utf8Size_pos
            rw [Text.size_cons]
            omega
          rw [List.cons_append, dropWhile_tokensAt_lexeme hlexeme hbound]
          -- The first lexeme takes the `>`, or it ends in `a`.
          rcases List.append_eq_append_iff.mp hsplit with
            ⟨cut, htail, hcut⟩ | ⟨last, hrest, hothers⟩
          · cases cut with
            | nil =>
                obtain rfl : tail = rest := by rw [htail, List.append_nil]
                obtain rfl : others = '>' :: more := hcut.symm
                rw [endsInSlash_lexeme hlexeme, dropWhile_tokensAt_of_le (Nat.le_refl _)]
                rfl
            | cons d cut =>
                obtain ⟨rfl, hmore⟩ := List.cons.inj hcut
                obtain ⟨rfl, hclose⟩ := (lexeme_slash_of_mem hlexeme).1 (by simp [htail])
                obtain ⟨rfl, rfl⟩ : rest = [] ∧ cut = [] := by
                  rw [htail] at hclose
                  simpa [List.append_eq_singleton_iff] using hclose
                obtain rfl : more = others := hmore
                rw [htail]
                exact dropWhile_tokensAt_of_le (Nat.add_le_add_left (by decide) offset) more
          · subst hrest hothers
            have hsize : offset + Text.size (c :: (tail ++ last)) =
                offset + Text.size (c :: tail) + Text.size last := by
              simp only [Text.size_cons, Text.size_append]
              omega
            rw [List.append_assoc] at hlexeme
            rw [hsize, endsInSlash_lexeme_append hlexeme]
            apply ih last.length _ _ last rfl
            rw [← hlength, List.length_cons, List.length_append]
            omega

/-- The kinds of lexeme that are one delimiter. -/
def TokenKind.delimiter? : TokenKind → Option Char
  | .equals => some '='
  | .doubleQuote => some '"'
  | .singleQuote => some '\''
  | .leftBrace => some '{'
  | _ => none

theorem text_eq_of_delimiter? {c delimiter : Char} {rest text more : Text} {kind : TokenKind}
    (h : lexeme c rest = (some kind, text, more)) (hkind : kind.delimiter? = some delimiter) :
    text = [delimiter] := by
  unfold lexeme at h
  split at h
  case h_13 =>
    split_ifs at h <;> simp only [Prod.mk.injEq, Option.some.injEq, reduceCtorEq, false_and] at h
    · rw [← h.1] at hkind
      cases hkind
    · rw [← h.1] at hkind
      split_ifs at hkind <;> cases hkind
  all_goals
    simp only [Prod.mk.injEq, Option.some.injEq] at h
    obtain ⟨rfl, rfl, -⟩ := h
    cases hkind <;> rfl

/-- Names and texts are runs. -/
theorem isRunChar_of_lexeme {c : Char} {rest text more : Text} {kind : TokenKind}
    (h : lexeme c rest = (some kind, text, more)) (hkind : kind = .name ∨ kind = .text) :
    isRunChar c = true ∧ (kind = .name → isName text = true) := by
  unfold lexeme at h
  split at h
  case h_13 =>
    split_ifs at h with hgap hblank <;>
      simp only [Prod.mk.injEq, Option.some.injEq, reduceCtorEq, false_and] at h
    · rw [← h.1] at hkind
      simp at hkind
    · obtain ⟨rfl, rfl, -⟩ := h
      constructor
      · simp_all [isRunChar]
      · intro hname
        by_contra hnot
        simp [hnot] at hname
  all_goals
    simp only [Prod.mk.injEq, Option.some.injEq] at h
    rw [← h.1] at hkind
    simp at hkind

/-! ### Readers inside a tag -/

namespace Reader

/-- The reader `r'` stands after a text, and nothing was reported on the way. -/
structure Passes (r : Reader) (text : Text) (r' : Reader) : Prop where
  rest_eq : r.rest = text ++ r'.rest
  offset_eq : r'.offset = r.offset + text.size
  errors_eq : r'.errors = r.errors

theorem Passes.refl (r : Reader) : r.Passes [] r := ⟨rfl, rfl, rfl⟩

theorem Passes.trans {r r' r'' : Reader} {text text' : Text} (h : r.Passes text r')
    (h' : r'.Passes text' r'') : r.Passes (text ++ text') r'' := by
  refine ⟨?_, ?_, h'.errors_eq.trans h.errors_eq⟩
  · rw [h.rest_eq, h'.rest_eq, List.append_assoc]
  · rw [h'.offset_eq, h.offset_eq, Text.size_append, Nat.add_assoc]

theorem Passes.stop_eq {r r' : Reader} {gap text : Text} (h : r.Passes (gap ++ text) r') :
    r'.offset = r.offset + gap.size + text.size := by
  rw [h.offset_eq, Text.size_append, Nat.add_assoc]

/-- The tokens of the reader are those of the text that follows `skipped`. -/
def Skips (r : Reader) (skipped : Text) : Prop :=
  ∃ more, r.rest = skipped ++ more ∧ r.tokens = tokensAt (r.offset + skipped.size) more

theorem skips_before (offset : Nat) (text : Text) (errors : List Error) :
    (before offset text errors).Skips [] := ⟨text, rfl, rfl⟩

theorem Skips.eq_before {r : Reader} (h : r.Skips []) : r = before r.offset r.rest r.errors := by
  obtain ⟨more, hrest, htokens⟩ := h
  rcases r with ⟨rest, offset, tokens, errors⟩
  obtain rfl : rest = more := hrest
  rw [before, Reader.mk.injEq]
  exact ⟨rfl, rfl, htokens, rfl⟩

/-- The next token of the reader `r'` is a lexeme that stands after `gap`, counted from `r`. -/
structure Meets (r r' : Reader) (gap text : Text) : Prop where
  lexeme_eq : ∃ c tail, text = c :: tail ∧
    lexeme c (tail ++ r'.advance.rest) = (some r'.kind, text, r'.advance.rest)
  current_eq : r'.current =
    ⟨r'.kind, ⟨r.offset + gap.size, r.offset + gap.size + text.size⟩, text⟩
  passes : r.Passes (gap ++ text) r'.advance
  skips : r'.advance.Skips []

theorem Meets.eq_mark {r r' : Reader} {gap text mark : Text} (h : r.Meets r' gap text)
    (hmark : r'.kind.mark? = some mark) : text = mark := by
  obtain ⟨c, tail, -, hlexeme⟩ := h.lexeme_eq
  exact text_eq_of_mark? hlexeme hmark

theorem Meets.eq_delimiter {r r' : Reader} {gap text : Text} {delimiter : Char}
    (h : r.Meets r' gap text) (hkind : r'.kind.delimiter? = some delimiter) :
    text = [delimiter] := by
  obtain ⟨c, tail, -, hlexeme⟩ := h.lexeme_eq
  exact text_eq_of_delimiter? hlexeme hkind

theorem Passes.meets {r r₁ r' : Reader} {passed gap text : Text} (hpasses : r.Passes passed r₁)
    (h : r₁.Meets r' gap text) : r.Meets r' (passed ++ gap) text where
  lexeme_eq := h.lexeme_eq
  current_eq := by
    rw [h.current_eq, hpasses.offset_eq, Text.size_append, Nat.add_assoc r.offset]
  passes := by
    rw [List.append_assoc]
    exact hpasses.trans h.passes
  skips := h.skips

theorem Skips.meets {r : Reader} {skipped : Text} (h : r.Skips skipped)
    (hkind : r.kind ≠ .endOfFile) :
    ∃ gap text, (∀ c ∈ gap, isGap c = true) ∧ r.Meets r (skipped ++ gap) text := by
  obtain ⟨rest, hrest, htokens⟩ := h
  rcases tokensAt_cases (r.offset + skipped.size) rest with
    hend | ⟨gap, c, tail, more, kind, hsplit, hgap, hlexeme, hcons⟩
  · refine absurd ?_ hkind
    rw [Reader.kind, current, htokens, hend]
    rfl
  · rw [hcons, Nat.add_assoc r.offset, ← Text.size_append] at htokens
    have hsource : r.rest = (skipped ++ gap) ++ ((c :: tail) ++ more) := by
      rw [hrest, hsplit, List.append_assoc, List.cons_append]
    have hnext := hasNext_of_tokens hsource (List.cons_ne_nil c tail)
      (lexeme_kind_ne_endOfFile hlexeme) htokens
    have hcurrent : r.current = ⟨kind, ⟨r.offset + (skipped ++ gap).size,
        r.offset + (skipped ++ gap).size + Text.size (c :: tail)⟩, c :: tail⟩ := by
      rw [current, htokens]
      rfl
    have hadvance := hnext.advance_eq
    refine ⟨gap, c :: tail, hgap, ⟨c, tail, rfl, ?_⟩, ?_, ⟨?_, ?_, ?_⟩, ?_⟩
    · rw [hadvance, Reader.kind, hcurrent]
      exact hlexeme
    · rw [Reader.kind, hcurrent]
    · rw [hadvance, hsource, ← List.append_assoc]
    · rw [hadvance, Text.size_append (skipped ++ gap), Nat.add_assoc]
    · rw [hadvance]
    · rw [hadvance]
      exact skips_before _ _ _

/-- Whitespace inside a tag. -/
def IsBlankRun (blanks : Text) : Prop := ∀ c ∈ blanks, isGap c = true ∨ c = '\n'

theorem isBlankRun_of_gap {gap : Text} (h : ∀ c ∈ gap, isGap c = true) : IsBlankRun gap :=
  fun c hc => Or.inl (h c hc)

theorem IsBlankRun.append {first second : Text} (h : IsBlankRun first) (h' : IsBlankRun second) :
    IsBlankRun (first ++ second) := by
  intro c hc
  rcases List.mem_append.1 hc with hc | hc
  · exact h c hc
  · exact h' c hc

/-- Whitespace up to and with a line feed, or none. -/
def IsBlankLines (lines : Text) : Prop :=
  IsBlankRun lines ∧ (lines = [] ∨ lines.getLast? = some '\n')

/-- Nothing but blanks stands before the next line feed. -/
def BeginsLine (t : Text) : Prop :=
  ∃ gap more : Text, (∀ c ∈ gap, isGap c = true) ∧ t = gap ++ '\n' :: more

theorem kind_of_beginsLine (offset : Nat) {t : Text} (h : BeginsLine t) (errors : List Error) :
    (before offset t errors).kind = .newline := by
  obtain ⟨gap, more, hgap, rfl⟩ := h
  have htokens : tokensAt offset (gap ++ '\n' :: more) =
      tokensAt (offset + gap.size) ('\n' :: more) := by
    induction gap generalizing offset with
    | nil => rfl
    | cons c rest ih =>
        rw [List.cons_append, tokensAt_gap (hgap c List.mem_cons_self),
          ih _ fun d hd => hgap d (List.mem_cons_of_mem c hd), Text.size_cons, Nat.add_assoc]
  rw [Reader.kind, current, before, htokens]
  rfl

/-- A reader at a line feed passes it. -/
theorem Skips.newline {r : Reader} {skipped : Text} (h : r.Skips skipped)
    (hkind : r.kind = .newline) :
    ∃ line, IsBlankRun line ∧ line.getLast? = some '\n' ∧ r.Passes (skipped ++ line) r.advance ∧
      r.advance.Skips [] := by
  obtain ⟨gap, text, hgap, hmeets⟩ := h.meets (by simp [hkind])
  have htext : text = ['\n'] := hmeets.eq_mark (by rw [hkind]; rfl)
  refine ⟨gap ++ text, (isBlankRun_of_gap hgap).append ?_, ?_, ?_, hmeets.skips⟩
  · intro c hc
    rw [htext] at hc
    exact Or.inr (List.mem_singleton.1 hc)
  · simp [htext]
  · rw [← List.append_assoc]
    exact hmeets.passes

theorem Skips.skipNewlines {r : Reader} (h : r.Skips []) :
    ∃ lines, IsBlankLines lines ∧ r.Passes lines r.skipNewlines ∧ r.skipNewlines.Skips [] ∧
      r.skipNewlines.kind ≠ .newline := by
  induction hlength : r.rest.length using Nat.strong_induction_on generalizing r with
  | _ n ih =>
      by_cases hkind : r.kind = .newline
      · obtain ⟨first, hfirst, hend, hpassed, hskips⟩ := h.newline hkind
        have hlt : r.advance.rest.length < n := by
          have hpos := List.length_pos_iff.2 (List.ne_nil_of_mem (List.mem_of_getLast? hend))
          rw [← hlength, hpassed.rest_eq, List.length_append, List.nil_append]
          omega
        obtain ⟨lines, ⟨hlines, hends⟩, hpasses, hafter⟩ := ih _ hlt hskips rfl
        rw [skipNewlines_of_newline hkind]
        refine ⟨first ++ lines, ⟨hfirst.append hlines, Or.inr ?_⟩, hpassed.trans hpasses, hafter⟩
        rcases hends with rfl | hends
        · rw [List.append_nil]
          exact hend
        · rw [List.getLast?_append, hends, Option.some_or]
      · rw [skipNewlines_eq_self hkind]
        exact ⟨[], ⟨fun c hc => absurd hc List.not_mem_nil, Or.inl rfl⟩, Passes.refl r, h, hkind⟩

theorem Skips.not_beginsLine {r : Reader} (h : r.Skips []) (hkind : r.kind ≠ .newline) :
    ¬ BeginsLine r.rest := by
  intro hline
  apply hkind
  rw [h.eq_before]
  exact kind_of_beginsLine _ hline _

/-- The first token after whitespace. -/
theorem Skips.meets_after {r : Reader} {skipped : Text} (h : r.Skips skipped)
    (hkind : r.skipNewlines.kind ≠ .endOfFile) :
    ∃ blanks text, IsBlankRun blanks ∧ r.Meets r.skipNewlines (skipped ++ blanks) text := by
  by_cases hnewline : r.kind = .newline
  · obtain ⟨first, hfirst, -, hpassed, hskips⟩ := h.newline hnewline
    obtain ⟨lines, hlines, hpasses, hafter, -⟩ := hskips.skipNewlines
    rw [skipNewlines_of_newline hnewline] at hkind ⊢
    obtain ⟨gap, text, hgap, hmeets⟩ := hafter.meets hkind
    have hmeets := (hpassed.trans hpasses).meets hmeets
    refine ⟨first ++ lines ++ gap, text,
      (hfirst.append hlines.1).append (isBlankRun_of_gap hgap), ?_⟩
    simpa only [List.append_assoc, List.nil_append] using hmeets
  · rw [skipNewlines_eq_self hnewline] at hkind ⊢
    obtain ⟨gap, text, hgap, hmeets⟩ := h.meets hkind
    exact ⟨gap, text, isBlankRun_of_gap hgap, hmeets⟩

/-- A reader passes a value and the delimiter that closes it. -/
theorem Skips.close {r : Reader} (h : r.Skips []) {value more : Text} {closing : Char}
    {kind : TokenKind} (hrest : r.rest = value ++ closing :: more)
    (hlexeme : lexeme closing more = (some kind, [closing], more)) (hsize : closing.utf8Size = 1)
    (hopens : opensLexeme closing = true) :
    r.Passes (value ++ [closing]) (r.seek (r.offset + value.size)).advance ∧
      (r.seek (r.offset + value.size)).advance.Skips [] := by
  have hseek : (r.seek (r.offset + value.size)).advance =
      before (r.offset + value.size + 1) more r.errors := by
    conv_lhs => rw [h.eq_before, hrest]
    rw [before_offset, seek_before _ _ _ _ (by simp [hopens]),
      before_advance_char hlexeme hsize]
  rw [hseek]
  refine ⟨⟨?_, ?_, rfl⟩, skips_before _ _ _⟩
  · rw [hrest, List.append_assoc]
    rfl
  · rw [before_offset, Text.size_append, Nat.add_assoc]
    simp [hsize]

/-- A `>` that a lexeme from before it has taken is skipped. -/
theorem InStep.skips_tagClose {source passed more : Text} {r : Reader} (h : r.InStep source)
    (hsource : source = passed ++ r.rest) (hoffset : r.offset = passed.size)
    (hrest : r.rest = '>' :: more) : r.Skips (if endsInSlash passed then ['>'] else []) := by
  have htokens := dropWhile_tokensAt_tagClose 0 passed more
  rw [Nat.zero_add, ← hoffset, ← hrest, ← hsource] at htokens
  refine ⟨if endsInSlash passed then more else r.rest, ?_, ?_⟩
  · rw [hrest]
    split <;> rfl
  · rw [h.tokens_eq, Markup.tokens_eq_tokensAt, htokens]
    split <;> rfl

end Reader

/-! ### Values and attributes as they are written -/

/-- A value as it is written: between quotes, between braces or bare. -/
inductive AttributeValue.Written : AttributeValue → Bool → Text → Prop where
  | quoted {span : Span} {value : Text} {quote : Char} (hquote : quote = '"' ∨ quote = '\'')
      (hvalue : quote ∉ value) : Written (.text span value) false (quote :: (value ++ [quote]))
  | braced {outer inner : Span} {value : Text} :
      Written (.expression outer inner value) false ('{' :: (value ++ ['}']))
  | bare {span : Span} {value : Text} (hne : value ≠ [])
      (hvalue : ∀ c ∈ value, isBlank c = false ∧ c ≠ '>') : Written (.text span value) true value

/-- What is passed over after a value without being part of anything: the `>` after a bare value
that ends in `/`. -/
def AttributeValue.skipped (bare : Bool) (more : Text) : AttributeValue → Text
  | .text _ value => if bare && endsInSlash value && more.head? == some '>' then ['>'] else []
  | _ => []

theorem Text.not_mem_breakBefore (quote : Char) (t : Text) :
    quote ∉ (Text.breakBefore (fun t => t.head? == some quote) t).1 := by
  induction t with
  | nil => exact List.not_mem_nil
  | cons c rest ih =>
      by_cases hc : c = quote
      · simp [Text.breakBefore, hc]
      · simpa [Text.breakBefore, hc, Ne.symm hc] using ih

theorem readQuotedValue_written {r r' : Reader} {name : Text} {quote : Char} {v : AttributeValue}
    (h : r.Skips []) (hquote : quote = '"' ∨ quote = '\'') (hkind : r.kind.delimiter? = some quote)
    (hread : readQuotedValue name quote r = (some v, r')) :
    ∃ gap text, (∀ c ∈ gap, isGap c = true) ∧ v.Written false text ∧ r.Passes (gap ++ text) r' ∧
      r'.Skips [] := by
  have hne : r.kind ≠ .endOfFile := by
    intro heq
    rw [heq] at hkind
    cases hkind
  obtain ⟨gap, text, hgap, hmeets⟩ := h.meets hne
  obtain rfl := hmeets.eq_delimiter hkind
  have hsplit := Text.breakBefore_append (fun t => t.head? == some quote) r.advance.rest
  have hvalue := Text.not_mem_breakBefore quote r.advance.rest
  have htail := Text.breakBefore_snd (fun t => t.head? == some quote) r.advance.rest
  unfold readQuotedValue at hread
  simp only at hread
  generalize Text.breakBefore (fun t => t.head? == some quote) r.advance.rest = cut at *
  obtain ⟨value, tail⟩ := cut
  simp only at hread hsplit hvalue htail
  split_ifs at hread with hempty
  · cases hread
  · obtain ⟨more, rfl⟩ : ∃ more, tail = quote :: more := by
      cases tail with
      | nil => exact absurd rfl hempty
      | cons c more =>
          obtain rfl : c = quote := by simpa using htail
          exact ⟨more, rfl⟩
    rw [Prod.mk.injEq, Option.some.injEq] at hread
    obtain ⟨rfl, rfl⟩ := hread
    have hclose : r.advance.Passes (value ++ [quote])
        (r.advance.seek (r.advance.offset + value.size)).advance ∧
          (r.advance.seek (r.advance.offset + value.size)).advance.Skips [] := by
      rcases hquote with rfl | rfl <;> exact hmeets.skips.close hsplit.symm rfl rfl rfl
    refine ⟨gap, _, hgap, .quoted hquote hvalue, ?_, hclose.2⟩
    have hpasses := hmeets.passes.trans hclose.1
    simpa using hpasses

theorem readExpressionValue_written {r r' : Reader} {name : Text} {v : AttributeValue}
    (h : r.Skips []) (hkind : r.kind = .leftBrace)
    (hread : readExpressionValue name r = (some v, r')) :
    ∃ gap text, (∀ c ∈ gap, isGap c = true) ∧ v.Written false text ∧ r.Passes (gap ++ text) r' ∧
      r'.Skips [] := by
  obtain ⟨gap, text, hgap, hmeets⟩ := h.meets (by simp [hkind])
  obtain rfl : text = ['{'] := hmeets.eq_delimiter (by rw [hkind]; rfl)
  unfold readExpressionValue at hread
  simp only at hread
  split at hread
  · cases hread
  · next value tail hvalue =>
    obtain ⟨hsplit, more, rfl⟩ := expressionFrom_eq_some hvalue
    rw [Prod.mk.injEq, Option.some.injEq] at hread
    obtain ⟨rfl, rfl⟩ := hread
    obtain ⟨hclose, hskips⟩ := hmeets.skips.close hsplit rfl rfl rfl
    refine ⟨gap, _, hgap, .braced, ?_, hskips⟩
    have hpasses := hmeets.passes.trans hclose
    simpa using hpasses

/-- What is skipped after a bare value that has been passed. -/
theorem Reader.InStep.skips_after {source : Text} {r : Reader} (h : r.InStep source)
    (before : Text) {value : Text} {span : Span} (hsource : source = before ++ value ++ r.rest)
    (hoffset : r.offset = (before ++ value).size) (hfirst : ∃ c ∈ value.head?, isRunChar c = true)
    (hafter : ∀ c ∈ r.rest.head?, (isBlank c || c == '>') = true) :
    r.Skips ((AttributeValue.text span value).skipped true r.rest) := by
  rcases hrest : r.rest with _ | ⟨c, more⟩
  · have htokens := h.tokens_eq_tokensAt (by simp [hrest])
    have hnone : (AttributeValue.text span value).skipped true [] = [] := by
      simp [AttributeValue.skipped]
    rw [hnone]
    exact ⟨r.rest, rfl, htokens⟩
  · have hc : isBlank c = true ∨ c = '>' := by simpa [hrest] using hafter
    by_cases hclose : c = '>'
    · subst hclose
      have hskips := h.skips_tagClose hsource hoffset hrest
      obtain ⟨d, hd, hrun⟩ := hfirst
      have hends : endsInSlash (before ++ value) = endsInSlash value := by
        apply endsInSlash_append
        · rintro rfl
          cases hd
        · rintro rfl
          obtain rfl : d = '/' := by simpa using hd.symm
          exact absurd hrun (by decide)
      rw [hends] at hskips
      simpa [AttributeValue.skipped] using hskips
    · have hblank := hc.resolve_right hclose
      have htokens := h.tokens_eq_tokensAt (by simp [hrest, opensLexeme, hblank])
      have hnone : (AttributeValue.text span value).skipped true (c :: more) = [] := by
        simp [AttributeValue.skipped, hclose]
      rw [hnone]
      exact ⟨r.rest, rfl, htokens⟩

theorem readBareValue_written {source : Text} {r r' : Reader} {v : AttributeValue}
    (hr : r.InStep source) (h : r.Skips []) (hkind : r.kind = .name ∨ r.kind = .text)
    (hread : readBareValue r = (v, r')) :
    ∃ gap text, (∀ c ∈ gap, isGap c = true) ∧ v.Written true text ∧ r.Passes (gap ++ text) r' ∧
      r'.Skips (v.skipped true r'.rest) := by
  have hne : r.kind ≠ .endOfFile := by rcases hkind with hkind | hkind <;> simp [hkind]
  have hstep := (readBareValue_spec hr hne).1.inStep
  rw [hread] at hstep
  obtain ⟨gap, text, hgap, hmeets⟩ := h.meets hne
  obtain ⟨c, tail, rfl, hlexeme⟩ := hmeets.lexeme_eq
  have hrun := (isRunChar_of_lexeme hlexeme hkind).1
  have hvalueChar : (!(isBlank c || c == '>')) = true := by
    simp only [isRunChar, Bool.not_eq_true', Bool.or_eq_false_iff] at hrun
    simp [hrun]
  set after := c :: (tail ++ r.advance.rest) with hafter
  have hrest : r.rest = gap ++ after := by
    rw [hmeets.passes.rest_eq]
    simp [hafter]
  set value := after.takeWhile fun c => !(isBlank c || c == '>') with hvalue
  have hsplit : r.rest = (gap ++ value) ++ after.dropWhile fun c => !(isBlank c || c == '>') := by
    rw [hrest, hvalue, List.append_assoc, List.takeWhile_append_dropWhile]
  have hfirst : value = c :: (tail ++ r.advance.rest).takeWhile fun c =>
      !(isBlank c || c == '>') := by
    rw [hvalue, hafter]
    exact List.takeWhile_cons_of_pos hvalueChar
  unfold readBareValue at hread
  have hdrop : Text.dropBytes (r.offset + gap.size - r.offset) r.rest = after := by
    rw [Nat.add_sub_cancel_left, hrest, Text.dropBytes_size_append]
  rw [hmeets.current_eq] at hread
  simp only [List.nil_append, hdrop, ← hvalue] at hread
  rw [Prod.mk.injEq, Nat.add_assoc, ← Text.size_append] at hread
  obtain ⟨rfl, rfl⟩ := hread
  have hpasses : r.Passes (gap ++ value) (r.seek (r.offset + (gap ++ value).size)) :=
    ⟨by rw [Reader.seek_rest hsplit]; exact hsplit, rfl, rfl⟩
  refine ⟨gap, value, hgap, .bare ?_ ?_, hpasses, ?_⟩
  · rw [hfirst]
    exact List.cons_ne_nil _ _
  · intro d hd
    have hchar := List.mem_takeWhile_imp hd
    simpa using hchar
  · obtain ⟨before, hsource, hoffset⟩ := hr.boundary
    apply hstep.skips_after (before ++ gap)
    · rw [hsource, Reader.seek_rest hsplit, hsplit]
      simp
    · rw [Reader.seek_offset, hoffset]
      simp
    · exact ⟨c, by simp [hfirst], hrun⟩
    · intro d hd
      rw [Reader.seek_rest hsplit] at hd
      have hnot := List.head?_dropWhile_not (fun c => !(isBlank c || c == '>')) after
      rw [Option.mem_def] at hd
      rw [hd] at hnot
      simpa only [Bool.not_eq_true', Bool.not_eq_false'] using hnot

theorem AttributeValue.skipped_of_not_bare (v : AttributeValue) (more : Text) :
    v.skipped false more = [] := by
  cases v <;> rfl

/-- A value that is read is one as it is written, and after it nothing is skipped but the `>` that
a bare value takes with it. -/
theorem readValue_written {source : Text} {r r' : Reader} {name : Text} {v : AttributeValue}
    (hr : r.InStep source) (h : r.Skips []) (hread : readValue name r = (some v, r')) :
    ∃ gap text bare, (∀ c ∈ gap, isGap c = true) ∧ v.Written bare text ∧
      r.Passes (gap ++ text) r' ∧ r'.Skips (v.skipped bare r'.rest) := by
  have hdelimited : (∃ gap text, (∀ c ∈ gap, isGap c = true) ∧ v.Written false text ∧
      r.Passes (gap ++ text) r' ∧ r'.Skips []) → ∃ gap text bare, (∀ c ∈ gap, isGap c = true) ∧
        v.Written bare text ∧ r.Passes (gap ++ text) r' ∧ r'.Skips (v.skipped bare r'.rest) := by
    rintro ⟨gap, text, hgap, hwritten, hpasses, hskips⟩
    refine ⟨gap, text, false, hgap, hwritten, hpasses, ?_⟩
    rw [v.skipped_of_not_bare]
    exact hskips
  have hbare : r.kind = .name ∨ r.kind = .text →
      (some (readBareValue r).1, (readBareValue r).2) = (some v, r') →
      ∃ gap text bare, (∀ c ∈ gap, isGap c = true) ∧ v.Written bare text ∧
        r.Passes (gap ++ text) r' ∧ r'.Skips (v.skipped bare r'.rest) := by
    intro hkind heq
    rw [Prod.mk.injEq, Option.some.injEq] at heq
    obtain ⟨gap, text, hwritten⟩ := readBareValue_written hr h hkind (Prod.ext heq.1 heq.2)
    exact ⟨gap, text, true, hwritten⟩
  unfold readValue at hread
  split at hread
  case h_1 hkind =>
    exact hdelimited (readQuotedValue_written h (Or.inl rfl) (by rw [hkind]; rfl) hread)
  case h_2 hkind =>
    exact hdelimited (readQuotedValue_written h (Or.inr rfl) (by rw [hkind]; rfl) hread)
  case h_3 hkind => exact hdelimited (readExpressionValue_written h hkind hread)
  case h_4 hkind => exact hbare (Or.inl hkind) hread
  case h_5 hkind => exact hbare (Or.inr hkind) hread
  case h_6 => cases hread

/-- An attribute as it is written, with whitespace around `=`.  Whitespace after the name of an
attribute without a value counts as part of the attribute. -/
inductive Attribute.Written (a : Attribute) : Bool → Text → Prop where
  | valueless {blanks : Text} (hblanks : Reader.IsBlankRun blanks) (hvalue : a.value = .absent) :
      Written a false (a.name ++ blanks)
  | valued {before after text : Text} {bare : Bool} (hbefore : Reader.IsBlankRun before)
      (hafter : Reader.IsBlankRun after) (hvalue : a.value.Written bare text) :
      Written a bare (a.name ++ (before ++ '=' :: (after ++ text)))

/-- An attribute as its span covers it, with the text that follows.  The span of an attribute
without a value goes on over the lines of whitespace after the name. -/
inductive Attribute.Spelled (a : Attribute) : Bool → Text → Text → Prop where
  | valueless {lines more : Text} (hlines : Reader.IsBlankLines lines)
      (hmore : ¬ Reader.BeginsLine more) (hvalue : a.value = .absent) :
      Spelled a false (a.name ++ lines) more
  | valued {before after text more : Text} {bare : Bool} (hbefore : Reader.IsBlankRun before)
      (hafter : Reader.IsBlankRun after) (hvalue : a.value.Written bare text) :
      Spelled a bare (a.name ++ (before ++ '=' :: (after ++ text))) more

theorem Attribute.Spelled.written {a : Attribute} {bare : Bool} {text more : Text}
    (h : a.Spelled bare text more) : a.Written bare text := by
  cases h with
  | valueless hlines _ hvalue => exact .valueless hlines.1 hvalue
  | valued hbefore hafter hvalue => exact .valued hbefore hafter hvalue

theorem readAttribute_spelled {source : Text} {r r' : Reader} {skipped : Text} {a : Attribute}
    (hr : r.InStep source) (h : r.Skips skipped) (hkind : r.skipNewlines.kind = .name)
    (hread : readAttribute r.skipNewlines = (some a, r')) :
    ∃ blanks text bare, Reader.IsBlankRun blanks ∧ isName a.name = true ∧
      a.Spelled bare text r'.rest ∧
      a.span = ⟨r.offset + (skipped ++ blanks).size,
        r.offset + (skipped ++ blanks).size + text.size⟩ ∧
      r.Passes (skipped ++ blanks ++ text) r' ∧ r'.Skips (a.value.skipped bare r'.rest) := by
  obtain ⟨blanks, name, hblanks, hmeets⟩ := h.meets_after (by simp [hkind])
  have hname : isName name = true := by
    obtain ⟨c, tail, -, hlexeme⟩ := hmeets.lexeme_eq
    exact (isRunChar_of_lexeme hlexeme (Or.inl hkind)).2 hkind
  have hstep := hr.skipNewlines.inStep.advance.inStep
  obtain ⟨before, hbefore, hpassed, hskips, hnewline⟩ := hmeets.skips.skipNewlines
  unfold readAttribute at hread
  simp only [hmeets.current_eq] at hread
  -- Everything up to what follows the name.
  have hnamed := hmeets.passes.trans hpassed
  split_ifs at hread with hequals
  · obtain ⟨gap, text, hgap, hsign⟩ := hskips.meets (by simp [hequals])
    obtain rfl : text = ['='] := hsign.eq_delimiter (by rw [hequals]; rfl)
    obtain ⟨after, hafter, hpassed', hskips', -⟩ := hsign.skips.skipNewlines
    have hstep' := hstep.skipNewlines.inStep.advance.inStep.skipNewlines.inStep
    rcases hvalue : readValue name
      r.skipNewlines.advance.skipNewlines.advance.skipNewlines with ⟨_ | v, r₁⟩
    · rw [hvalue] at hread
      cases hread
    · rw [hvalue, Option.map_some, Prod.mk.injEq, Option.some.injEq] at hread
      obtain ⟨rfl, rfl⟩ := hread
      obtain ⟨gap', text, bare, hgap', hwritten, hpasses, hafterValue⟩ :=
        readValue_written hstep' hskips' hvalue
      have hall : r.Passes (skipped ++ blanks ++
          (name ++ (before ++ gap ++ '=' :: (after ++ gap' ++ text)))) r₁ := by
        have hpasses := hnamed.trans ((hsign.passes.trans hpassed').trans hpasses)
        simpa only [List.append_assoc, List.cons_append, List.nil_append] using hpasses
      refine ⟨blanks, _, bare, hblanks, hname,
        .valued (hbefore.1.append (Reader.isBlankRun_of_gap hgap))
          (hafter.1.append (Reader.isBlankRun_of_gap hgap')) hwritten, ?_, hall, hafterValue⟩
      exact congrArg _ hall.stop_eq
  · rw [Option.map_some, Prod.mk.injEq, Option.some.injEq] at hread
    obtain ⟨rfl, rfl⟩ := hread
    have hall : r.Passes (skipped ++ blanks ++ (name ++ before))
        r.skipNewlines.advance.skipNewlines := by
      rw [← List.append_assoc]
      exact hnamed
    refine ⟨blanks, _, false, hblanks, hname,
      .valueless hbefore (hskips.not_beginsLine hnewline) rfl, ?_, hall, hskips⟩
    exact congrArg _ hall.stop_eq

/-! ### Tags -/

/-- The text of a start tag after its name, which begins at an offset: attributes with whitespace
before them, and `>` or `/>` at the end.  Between an attribute and what follows it stands nothing
but whitespace, after what the value of the attribute skips. -/
inductive TagLayout : Nat → Text → List Attribute → Text → Prop where
  | close {offset : Nat} {skipped blanks mark : Text} (hblanks : Reader.IsBlankRun blanks)
      (hmark : mark = ['>'] ∨ mark = ['/', '>']) :
      TagLayout offset skipped [] (skipped ++ blanks ++ mark)
  | next {offset : Nat} {skipped blanks text more : Text} {a : Attribute}
      {attributes : List Attribute} {bare : Bool} (hblanks : Reader.IsBlankRun blanks)
      (hname : isName a.name = true) (hwritten : a.Written bare text)
      (hspan : a.span = ⟨offset + (skipped ++ blanks).size,
        offset + (skipped ++ blanks).size + text.size⟩)
      (hmore : TagLayout a.span.stop (a.value.skipped bare more) attributes more) :
      TagLayout offset skipped (a :: attributes) (skipped ++ blanks ++ text ++ more)

theorem TagLayout.ne_nil {offset : Nat} {skipped text : Text} {attributes : List Attribute}
    (h : TagLayout offset skipped attributes text) : text ≠ [] := by
  induction h with
  | close _ hmark => rcases hmark with rfl | rfl <;> simp
  | next _ _ _ _ _ ih => simp [ih]

/-- What is skipped after a value depends on the next character only. -/
theorem AttributeValue.skipped_append (v : AttributeValue) (bare : Bool) {text : Text}
    (htext : text ≠ []) (more : Text) : v.skipped bare (text ++ more) = v.skipped bare text := by
  cases v <;> simp [AttributeValue.skipped, htext]

theorem readValue_none {r r' : Reader} {name : Text} (h : readValue name r = (none, r')) :
    r'.errors ≠ [] := by
  unfold readValue at h
  split at h
  case h_1 | h_2 =>
    unfold readQuotedValue at h
    simp only at h
    split_ifs at h
    · obtain rfl := (Prod.mk.inj h).2
      simp [Reader.seekEnd]
    · cases h
  case h_3 =>
    unfold readExpressionValue at h
    simp only at h
    split at h
    · obtain rfl := (Prod.mk.inj h).2
      simp [Reader.seekEnd]
    · cases h
  case h_4 | h_5 => cases h
  case h_6 =>
    obtain rfl := (Prod.mk.inj h).2
    simp [Reader.reportHere]

/-- An attribute without a proper value is reported. -/
theorem readAttribute_none {r r' : Reader} (h : readAttribute r = (none, r')) :
    r'.errors ≠ [] := by
  unfold readAttribute at h
  simp only at h
  split_ifs at h
  · rw [Prod.mk.injEq, Option.map_eq_none_iff] at h
    exact readValue_none (Prod.ext h.1 h.2)
  · cases h

theorem ReadsAttributes.layout {source : Text} {known found : List Attribute} {r r₁ : Reader}
    (h : ReadsAttributes known r found r₁) (hr : r.InStep source) {skipped : Text}
    (hskips : r.Skips skipped) (hend : r₁.kind = .tagClose ∨ r₁.kind = .selfClose)
    (herrors : r₁.errors = []) :
    ∃ attributes text, found = known ++ attributes ∧ r.Passes text r₁.advance ∧
      TagLayout r.offset skipped attributes text := by
  induction h generalizing skipped with
  | leave hleave =>
      cases hleave with
      | tagEnd _ =>
          obtain ⟨blanks, mark, hblanks, hmeets⟩ := hskips.meets_after (by
            rcases hend with hend | hend <;> simp [hend])
          refine ⟨[], _, (List.append_nil _).symm, hmeets.passes, .close hblanks ?_⟩
          rcases hend with hend | hend
          · exact Or.inl (hmeets.eq_mark (by rw [hend]; rfl))
          · exact Or.inr (hmeets.eq_mark (by rw [hend]; rfl))
      | noValue _ hread => exact absurd herrors (readAttribute_none hread)
  | @turn known _ found r r₂ r₁ hturn hmore ih =>
      have hstep := (hturn.onward hr).inStep
      have hclean := ((hmore.spec hstep).1).errors_eq_nil herrors
      cases hturn with
      | @kept _ a hkind hread _ =>
          obtain ⟨blanks, text, bare, hblanks, hname, hspelled, hspan, hpasses, hafter⟩ :=
            readAttribute_spelled hr hskips hkind hread
          obtain ⟨attributes, more, hfound, hpassed, hlayout⟩ := ih hstep hafter hend herrors
          have hstop : r₂.offset = a.span.stop := by
            rw [hspan]
            exact hpasses.stop_eq
          rw [hpassed.rest_eq, a.value.skipped_append bare hlayout.ne_nil, hstop] at hlayout
          refine ⟨a :: attributes, _, ?_, hpasses.trans hpassed,
            .next hblanks hname hspelled.written hspan hlayout⟩
          rw [hfound, List.append_assoc]
          rfl
      | dropped _ _ _ => simp at hclean
      | passedOver hkind =>
          have hreport := (hr.skipNewlines.inStep.reportHere
            (.unexpectedToken .attributeName r.skipNewlines.kind) rfl).inStep.advance
          exact absurd (hreport.errors_eq_nil hclean) (by simp [Reader.reportHere])

/-- A start tag in which nothing was reported is laid out from its name on. -/
theorem readStartTag_layout {source : Text} {r r' : Reader} {tag : StartTag} (h : r.InStep source)
    (hopens : opensTag r.rest = true) (htag : readStartTag r = (tag, r'))
    (herrors : r'.errors = []) :
    ∃ text, (Span.mk r.offset r'.offset).read source = '<' :: (tag.name ++ text) ∧
      TagLayout (r.offset + 1 + tag.name.size) [] tag.attributes text := by
  obtain ⟨-, -, name, more, -, hrest, hname, hafter⟩ := h.tagName hopens
  have hstart := (h.expect .tagOpen).trans (h.expect .tagOpen).inStep.advance
  set r₀ := (r.expect .tagOpen).advance with hr₀
  have hreads := exists_readsAttributes r₀.tokens.length [] r₀ hstart.inStep (Nat.le_refl _)
  have hstep := (hreads.spec hstart.inStep).1.inStep
  have hskips : r₀.Skips [] := hafter ▸ Reader.skips_before _ more _
  have hoffset : r₀.offset = r.offset + 1 + name.size := by rw [hafter]
  set r₁ := (readAttributes r₀.tokens.length [] r₀).2 with hr₁
  -- Either end of a tag leaves the reader after its mark.
  have hclose : tag.name = name → tag.attributes = (readAttributes r₀.tokens.length [] r₀).1 →
      r₁.kind = .tagClose ∨ r₁.kind = .selfClose → r₁.advance = r' →
      ∃ text, (Span.mk r.offset r'.offset).read source = '<' :: (tag.name ++ text) ∧
        TagLayout (r.offset + 1 + tag.name.size) [] tag.attributes text := by
    intro htagName hattributes hkind hadvance
    have hclean := hstep.advance.errors_eq_nil (hadvance ▸ herrors)
    obtain ⟨attributes, text, hfound, hpasses, hlayout⟩ :=
      hreads.layout hstart.inStep hskips hkind hclean
    rw [hadvance] at hpasses
    have hmore : more = text ++ r'.rest := by
      rw [← hpasses.rest_eq, hafter]
    have hwhole : r.rest = ('<' :: (name ++ text)) ++ r'.rest := by
      rw [hrest, hmore]
      simp
    have hstop : r'.offset = r.offset + Text.size ('<' :: (name ++ text)) := by
      have hsize : '<'.utf8Size = 1 := rfl
      rw [hpasses.offset_eq, hoffset, Text.size_cons, Text.size_append, hsize]
      omega
    refine ⟨text, ?_, ?_⟩
    · rw [htagName, hstop]
      exact h.read_front hwhole
    · rw [htagName, hattributes, hfound, ← hoffset]
      exact hlayout
  unfold readStartTag at htag
  simp only [← hr₀, ← hr₁] at htag
  split_ifs at htag with hkind
  · obtain ⟨rfl, hadvance⟩ := Prod.mk.inj htag
    exact hclose hname rfl (Or.inr hkind) hadvance
  · obtain ⟨rfl, hexpect⟩ := Prod.mk.inj htag
    rw [← hexpect] at herrors
    obtain ⟨hkind, hadvance⟩ := Reader.expect_of_errors_eq_nil herrors
    exact hclose hname rfl (Or.inl hkind) (hadvance.symm.trans hexpect)

section Elements

variable {options : Options} {source : Text} {P : Node → Prop}
  (htext : ∀ span data blank, P (.text span data blank))
  (hcomment : ∀ span data, P (.comment span data))
  (helement : ∀ (r r' : Reader) (tag : StartTag), r.InStep source → opensTag r.rest = true →
    readStartTag r = (tag, r') → r'.errors = [] → ∀ stop children selfClosing,
      P (.element ⟨r.offset, stop⟩ tag.name tag.attributes children selfClosing))

include htext hcomment helement

theorem ReadsFlat.forall_of_startTag {r r' : Reader} {node : Node}
    (h : ReadsFlat options r node r') (hr : r.InStep source) (herrors : r'.errors = []) :
    ∀ other, Occurs other [node] → P other := by
  intro other hother
  cases h with
  | comment hopens =>
      obtain ⟨data, hnode, -⟩ := readComment_spec hr hopens
      rw [hnode] at hother
      rcases occurs_singleton hother with rfl | hbelow
      · exact hcomment _ _
      · exact absurd hbelow (not_occurs_nil other)
  | text hrest hopens =>
      obtain ⟨-, data, -, -, -, hnode⟩ := readText_spec hr hrest hopens
      rw [hnode] at hother
      rcases occurs_singleton hother with rfl | hbelow
      · exact htext _ _ _
      · exact absurd hbelow (not_occurs_nil other)
  | leaf hopens htag hleaf =>
      rcases occurs_singleton hother with rfl | hbelow
      · exact helement _ _ _ hr hopens htag herrors _ _ _
      · exact absurd hbelow (not_occurs_nil other)
  | @raw r₁ r₂ tag children hopens htag _ _ hbody =>
      have hstart := (readStartTag_further hr hopens htag).1
      obtain ⟨hraw, data, -, -, hnodes⟩ := readRawText_spec hstart.inStep tag.name
      rw [hbody] at hraw hnodes
      simp only at hnodes
      obtain ⟨herrors₂, -⟩ := readClosingTag_closes hraw.inStep herrors
      rcases occurs_singleton hother with rfl | hbelow
      · exact helement _ _ _ hr hopens htag (hraw.errors_eq_nil herrors₂) _ _ _
      · rw [Node.children, hnodes] at hbelow
        split_ifs at hbelow
        · exact absurd hbelow (not_occurs_nil other)
        · rcases occurs_singleton hbelow with rfl | hdeeper
          · exact htext _ _ _
          · exact absurd hdeeper (not_occurs_nil other)

/-- What holds of texts, of comments and of elements whose start tag was read without an error
holds of every node of markup without errors. -/
theorem Reads.forall_of_startTag {inside : Bool} {r r' : Reader} {nodes : List Node}
    (h : Reads options inside r nodes r') (hr : r.InStep source) (herrors : r'.errors = []) :
    ∀ node, Occurs node nodes → P node := by
  induction h with
  | done _ => exact fun node hnode => absurd hnode (not_occurs_nil node)
  | closing _ => exact fun node hnode => absurd hnode (not_occurs_nil node)
  | stray hopens hmore _ =>
      -- A stray closing tag is reported, so there is none.
      obtain ⟨name, r', -, -, heq⟩ := skipClosingTag_spec hr hopens
      have hnone := hmore.errors_eq_nil (skipClosingTag_further hr hopens).1.inStep herrors
      rw [heq] at hnone
      simp at hnone
  | @flat _ _ _ _ node nodes hnode hmore ih =>
      intro other hother
      have hfurther := (hnode.further hr).1
      rcases occurs_append (show Occurs other ([node] ++ nodes) from hother) with hfirst | hrest
      · exact hnode.forall_of_startTag htext hcomment helement hr
          (hmore.errors_eq_nil hfurther.inStep herrors) other hfirst
      · exact ih hfurther.inStep herrors other hrest
  | @element _ r r₁ r₂ _ tag children nodes hopens htag _ _ hchildren hmore ihchildren ih =>
      intro other hother
      have hstart := (readStartTag_further hr hopens htag).1.toFurther
      have hbody := hchildren.further hstart.inStep
      have hclosing := readClosingTag_further hbody.inStep tag.name r.offset
      have hclosingErrors := hmore.errors_eq_nil hclosing.inStep herrors
      obtain ⟨hbodyErrors, -⟩ := readClosingTag_closes hbody.inStep hclosingErrors
      rcases occurs_append (show Occurs other ([_] ++ nodes) from hother) with hfirst | hrest
      · rcases occurs_singleton hfirst with rfl | hdeeper
        · exact helement _ _ _ hr hopens htag
            (hchildren.errors_eq_nil hstart.inStep hbodyErrors) _ _ _
        · exact ihchildren hstart.inStep hbodyErrors other hdeeper
      · exact ih hclosing.inStep herrors other hrest

end Elements

/-- The start tag of an element holds its name, its attributes at their spans and whitespace,
but for what values skip. -/
def Node.LaidOut (source : Text) : Node → Prop
  | .element span name attributes _ _ =>
      ∃ tag tagEnd text, StartTagAt source span.start tag tagEnd ∧ tag.name = name ∧
        tag.attributes = attributes ∧
        (Span.mk span.start tagEnd).read source = '<' :: (name ++ text) ∧
        TagLayout (span.start + 1 + name.size) [] attributes text
  | _ => True

/-- In a document without errors every start tag, at whatever depth, holds nothing but its
attributes and whitespace, and each `>` that a bare value ending in `/` has before it. -/
theorem start_tags_hold_attributes_and_skipped_closes (options : Options) (source : Text)
    (h : (parse options source).errors = []) :
    ∀ node, Occurs node (parse options source).nodes → node.LaidOut source := by
  obtain ⟨r, hreads, -, herrors⟩ := exists_reads_parse options source
  rw [h] at herrors
  refine hreads.forall_of_startTag (P := Node.LaidOut source) (fun _ _ _ => trivial)
    (fun _ _ => trivial) ?_ (Reader.inStep_start source) herrors.symm
  intro r r' tag hr hopens htag herrors stop children selfClosing
  obtain ⟨text, hread, hlayout⟩ := readStartTag_layout hr hopens htag herrors
  exact ⟨tag, r'.offset, text, ⟨r, r', hr, rfl, htag, rfl⟩, rfl, rfl, hread, hlayout⟩

namespace LayoutWitness

/-- A link whose first value ends in `/`, before attributes with `>` between quotes and braces. -/
def source : Text := "<a b=c/>d='x>y' e=\x7bz>0\x7d\n f >t</a>"

def link : Node :=
  .element ⟨0, 33⟩ "a" [⟨⟨3, 7⟩, ⟨3, 4⟩, "b", .text ⟨5, 7⟩ "c/"⟩,
    ⟨⟨8, 15⟩, ⟨8, 9⟩, "d", .text ⟨11, 14⟩ "x>y"⟩,
    ⟨⟨16, 23⟩, ⟨16, 17⟩, "e", .expression ⟨18, 23⟩ ⟨19, 22⟩ "z>0"⟩,
    ⟨⟨25, 26⟩, ⟨25, 26⟩, "f", .absent⟩] [.text ⟨28, 29⟩ "t" false] false

theorem parse_source : parse {} source = ⟨⟨0, 33⟩, [link], []⟩ := by
  decide +kernel

end LayoutWitness

open LayoutWitness in
theorem link_laid_out :
    (parse {} source).errors = [] ∧ Occurs link (parse {} source).nodes ∧ link.LaidOut source := by
  have herrors : (parse {} source).errors = [] := by rw [parse_source]
  have hlink : Occurs link (parse {} source).nodes := by
    rw [parse_source]
    exact .here (List.mem_singleton.2 rfl)
  exact ⟨herrors, hlink, start_tags_hold_attributes_and_skipped_closes {} source herrors link hlink⟩

/-- A link whose value ends in `/` before the `>` of its start tag. -/
def LayoutWitness.shortLink : Text := "<a b=c/>d></a>"

open LayoutWitness in
/-- The `>` after the value, at offset 7, does not end the start tag, which goes on to offset 10,
and is part of no attribute.  What follows it has become an attribute. -/
theorem close_swallowed_after_slash :
    (parse {} shortLink).errors = [] ∧ ∃ attributes,
      Occurs (.element ⟨0, 14⟩ "a" attributes [] false) (parse {} shortLink).nodes ∧
      (∃ tag, StartTagAt shortLink 0 tag 10) ∧ attributes.map (·.name) = ["b".toList, "d".toList] ∧
      (∀ a ∈ attributes, ¬ (a.span.start ≤ 7 ∧ 7 < a.span.stop)) ∧
      (Span.mk 7 8).read shortLink = ['>'] := by
  refine ⟨rfl, [⟨⟨3, 7⟩, ⟨3, 4⟩, "b", .text ⟨5, 7⟩ "c/"⟩, ⟨⟨8, 9⟩, ⟨8, 9⟩, "d", .absent⟩],
    .here (List.mem_singleton.2 rfl), ?_, rfl, by decide, rfl⟩
  exact ⟨_, .start shortLink, _, Reader.inStep_start shortLink, rfl, rfl, rfl⟩

end Component.Markup
