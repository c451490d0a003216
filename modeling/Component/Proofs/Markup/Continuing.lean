/-
Readers of a source that goes on.

No lexeme reaches into markup that follows it, and a search that has found something
finds it again in a longer text.  So up to the end of its own source a reader meets the
same tokens when the source goes on with markup.
-/
import Component.Proofs.Markup.Bracketing
import Component.Proofs.Markup.Reporting
import Component.Proofs.Markup.RoundTrip

namespace Component

namespace Text

/-- A search that finds something goes on to find it when the text goes on, if the test
looks at no more characters than a hit has. -/
theorem breakBefore_append_of_found {p : Text → Bool} {length : Nat} {t more : Text}
    (hlong : ∀ s, p s = true → length ≤ s.length)
    (hsame : ∀ s : Text, length ≤ s.length → p (s ++ more) = p s)
    (hfound : (breakBefore p t).2 ≠ []) :
    breakBefore p (t ++ more) = ((breakBefore p t).1, (breakBefore p t).2 ++ more) := by
  induction t with
  | nil => exact absurd rfl hfound
  | cons c rest ih =>
      by_cases hp : p (c :: rest) = true
      · have hp' : p (c :: (rest ++ more)) = true := by
          rw [← hp]
          exact hsame (c :: rest) (hlong _ hp)
        simp [breakBefore, hp, hp']
      · have hrest : (breakBefore p rest).2 ≠ [] := by simpa [breakBefore, hp] using hfound
        have hhit := hlong _ ((breakBefore_snd p rest).resolve_left hrest)
        have hsplit := congrArg List.length (breakBefore_append p rest)
        rw [List.length_append] at hsplit
        have hp' : p (c :: (rest ++ more)) = false := by
          rw [← Bool.eq_false_iff.mpr hp]
          exact hsame (c :: rest) (by rw [List.length_cons]; omega)
        simp [breakBefore, hp, hp', ih hrest]

/-- A search ends at the latest where a text goes on with something to be found. -/
theorem breakBefore_append_of_stable {p : Text → Bool} {t more : Text}
    (hsame : ∀ c s, p (c :: s ++ more) = p (c :: s)) (hmore : more = [] ∨ p more = true) :
    breakBefore p (t ++ more) = ((breakBefore p t).1, (breakBefore p t).2 ++ more) := by
  induction t with
  | nil =>
      cases more with
      | nil => rfl
      | cons c rest =>
          have hp := hmore.resolve_left (List.cons_ne_nil c rest)
          simp [breakBefore, hp]
  | cons c rest ih =>
      have hc := hsame c rest
      rw [List.cons_append] at hc ⊢
      by_cases hp : p (c :: rest) = true
      · simp [breakBefore, hp, hc]
      · simp [breakBefore, hp, hc, ih]

theorem length_le_of_isPrefixOf {pattern t : Text} (h : pattern.isPrefixOf t = true) :
    pattern.length ≤ t.length :=
  (List.isPrefixOf_iff_prefix.mp h).length_le

theorem isPrefixOf_append_of_length_le (pattern : Text) {t : Text}
    (h : pattern.length ≤ t.length) (more : Text) :
    pattern.isPrefixOf (t ++ more) = pattern.isPrefixOf t := by
  rw [Bool.eq_iff_iff, List.isPrefixOf_iff_prefix, List.isPrefixOf_iff_prefix]
  constructor
  · intro hlong
    exact List.prefix_of_prefix_length_le hlong (List.prefix_append t more) h
  · intro hshort
    exact hshort.trans (List.prefix_append t more)

end Text

namespace Markup

theorem expressionFrom_append {s : BraceState} {t value tail : Text}
    (h : expressionFrom s t = some (value, tail)) (more : Text) :
    expressionFrom s (t ++ more) = some (value, tail ++ more) := by
  induction t generalizing s value with
  | nil => simp [expressionFrom] at h
  | cons c rest ih =>
      have hgo : ∀ s', (expressionFrom s' rest).map (fun cut => (c :: cut.1, cut.2)) =
            some (value, tail) →
          (expressionFrom s' (rest ++ more)).map (fun cut => (c :: cut.1, cut.2)) =
            some (value, tail ++ more) := by
        intro s' hmap
        obtain ⟨⟨body, tail'⟩, hbody, heq⟩ := Option.map_eq_some_iff.mp hmap
        obtain ⟨rfl, rfl⟩ := Prod.mk.inj heq
        rw [ih hbody]
        rfl
      rw [List.cons_append]
      unfold expressionFrom at h ⊢
      simp only at h ⊢
      split at h
      case h_1 => split_ifs at h ⊢ <;> exact hgo _ h
      case h_2 =>
        split_ifs at h ⊢
        all_goals first
          | exact hgo _ h
          | (obtain ⟨rfl, rfl⟩ := Prod.mk.inj (Option.some.inj h)
             rfl)

theorem takeWhile_append_of_not {p : Char → Bool} {t more : Text}
    (hmore : ∀ c ∈ more.head?, p c = false) :
    (t ++ more).takeWhile p = t.takeWhile p ∧ (t ++ more).dropWhile p = t.dropWhile p ++ more := by
  induction t with
  | nil => exact takeWhile_append_of_head (by simp) hmore
  | cons c rest ih => by_cases hc : p c = true <;> simp [hc, ih]

theorem takeWhile_append_of_stopped {p : Char → Bool} {t : Text} (hstop : t.dropWhile p ≠ [])
    (more : Text) : (t ++ more).takeWhile p = t.takeWhile p := by
  induction t with
  | nil => exact absurd rfl hstop
  | cons c rest ih =>
      by_cases hc : p c = true
      · rw [List.dropWhile_cons_of_pos hc] at hstop
        simp [hc, ih hstop]
      · simp [hc]

theorem lexeme_lt (rest : Text) :
    lexeme '<' rest =
      if ['!', '-', '-'].isPrefixOf rest then
        (some .commentOpen, ['<', '!', '-', '-'], rest.drop 3)
      else if ['/'].isPrefixOf rest then (some .closingOpen, ['<', '/'], rest.drop 1)
      else (some .tagOpen, ['<'], rest) := by
  split_ifs with hcomment hclosing
  · obtain ⟨more, rfl⟩ := List.isPrefixOf_iff_prefix.mp hcomment
    rfl
  · obtain ⟨more, rfl⟩ := List.isPrefixOf_iff_prefix.mp hclosing
    rfl
  · unfold lexeme
    split <;> simp_all [List.isPrefixOf]

theorem lexeme_slash (rest : Text) :
    lexeme '/' rest =
      if ['>'].isPrefixOf rest then (some .selfClose, ['/', '>'], rest.drop 1)
      else (some .slash, ['/'], rest) := by
  split_ifs with hclose
  · obtain ⟨more, rfl⟩ := List.isPrefixOf_iff_prefix.mp hclose
    rfl
  · unfold lexeme
    split <;> simp_all [List.isPrefixOf]

/-- A character that begins neither a tag nor the end of one is a lexeme alone, whatever
follows it, or belongs to a run. -/
theorem lexeme_alone_or_run {c : Char} (hlt : c ≠ '<') (hslash : c ≠ '/') :
    (∃ kind, ∀ rest, lexeme c rest = (kind, [c], rest)) ∨ isRunChar c = true := by
  by_cases hrun : isRunChar c = true
  · exact .inr hrun
  left
  simp only [isRunChar, Bool.not_eq_true, Bool.not_eq_false', Bool.or_eq_true, beq_iff_eq] at hrun
  rcases hrun with hmark | hblank
  · rcases hmark with ((((((rfl | rfl) | rfl) | rfl) | rfl) | rfl) | rfl) | rfl
    all_goals first
      | exact absurd rfl hlt
      | exact absurd rfl hslash
      | exact ⟨_, fun rest => rfl⟩
  · by_cases hnewline : c = '\n'
    · exact ⟨some .newline, fun rest => by rw [hnewline]; rfl⟩
    refine ⟨if isGap c then none else some .invalid, fun rest => ?_⟩
    unfold lexeme
    split
    case h_12 => exact absurd rfl hnewline
    case h_13 => split_ifs <;> rfl
    all_goals exact absurd hblank (by decide)

section Lexemes

variable {b : Text} (hb : ∀ c ∈ b.head?, c = '<')

include hb

/-- A lexeme does not reach into markup that follows its text. -/
theorem lexeme_append {c : Char} {rest text more : Text} {kind : Option TokenKind}
    (h : lexeme c rest = (kind, text, more)) :
    lexeme c (rest ++ b) = (kind, text, more ++ b) := by
  by_cases hlt : c = '<'
  · subst hlt
    have hcomment : ['!', '-', '-'].isPrefixOf (rest ++ b) = ['!', '-', '-'].isPrefixOf rest :=
      isPrefixOf_append_of_head (by decide) hb
    have hclosing : ['/'].isPrefixOf (rest ++ b) = ['/'].isPrefixOf rest :=
      isPrefixOf_append_of_head (by decide) hb
    rw [lexeme_lt] at h ⊢
    rw [hcomment, hclosing]
    split_ifs at h ⊢ with hopens hopens'
    · obtain ⟨rfl, rfl, rfl⟩ := h
      obtain ⟨more, rfl⟩ := List.isPrefixOf_iff_prefix.mp hopens
      rfl
    · obtain ⟨rfl, rfl, rfl⟩ := h
      obtain ⟨more, rfl⟩ := List.isPrefixOf_iff_prefix.mp hopens'
      rfl
    · obtain ⟨rfl, rfl, rfl⟩ := h
      rfl
  by_cases hslash : c = '/'
  · subst hslash
    have hclose : ['>'].isPrefixOf (rest ++ b) = ['>'].isPrefixOf rest :=
      isPrefixOf_append_of_head (by decide) hb
    rw [lexeme_slash] at h ⊢
    rw [hclose]
    split_ifs at h ⊢ with hopens
    · obtain ⟨rfl, rfl, rfl⟩ := h
      obtain ⟨more, rfl⟩ := List.isPrefixOf_iff_prefix.mp hopens
      rfl
    · obtain ⟨rfl, rfl, rfl⟩ := h
      rfl
  rcases lexeme_alone_or_run hlt hslash with ⟨kind', halone⟩ | hrun
  · rw [halone] at h ⊢
    obtain ⟨rfl, rfl, rfl⟩ := h
    rfl
  · -- A run ends before `<`.
    have hnot : ∀ d ∈ b.head?, isRunChar d = false := fun d hd => by rw [hb d hd]; decide
    obtain ⟨htake, hdrop⟩ := takeWhile_append_of_not (t := rest) hnot
    rw [lexeme_of_isRunChar hrun] at h ⊢
    rw [htake, hdrop]
    obtain ⟨rfl, rfl, rfl⟩ := h
    rfl

/-- The tokens of a text before markup are its own, and then those of the markup. -/
theorem tokensAt_append (offset : Nat) (a : Text) :
    ∃ init : List Token, tokensAt offset a = init ++ [.endOfFile (offset + a.size)] ∧
      tokensAt offset (a ++ b) = init ++ tokensAt (offset + a.size) b := by
  induction a using lexeme_induction generalizing offset with
  | nil => exact ⟨[], rfl, rfl⟩
  | cons c kind tail more hlexeme _ ih =>
      obtain ⟨init, hmore, hlong⟩ := ih (offset + Text.size (c :: tail))
      have hsize : offset + Text.size (c :: (tail ++ more)) =
          offset + Text.size (c :: tail) + Text.size more := by
        simp only [Text.size_cons, Text.size_append]
        omega
      refine ⟨lexemeToken kind offset (c :: tail) ++ init, ?_, ?_⟩
      · rw [tokensAt_cons hlexeme, hmore, hsize, List.append_assoc]
      · rw [List.cons_append, tokensAt_cons (lexeme_append hb hlexeme), hlong, hsize,
          List.append_assoc]

end Lexemes

namespace Reader

/-- The reader at the same offset of another source. -/
def within (source : Text) (r : Reader) : Reader :=
  ⟨source.dropBytes r.offset, r.offset,
    (Markup.tokens source).dropWhile fun token => token.span.start < r.offset, r.errors⟩

@[simp] theorem within_offset (source : Text) (r : Reader) :
    (r.within source).offset = r.offset := rfl

/-- A reader in step is determined by its offset and its errors. -/
theorem InStep.eq_within {source : Text} {r r' : Reader} (h : r'.InStep source)
    (hoffset : r'.offset = r.offset) (herrors : r'.errors = r.errors) : r' = r.within source := by
  obtain ⟨before, hsource, hbefore⟩ := h.boundary
  have hrest : source.dropBytes r.offset = r'.rest := by
    rw [← hoffset, hbefore, hsource, Text.dropBytes_size_append]
  have htokens := h.tokens_eq
  rcases r' with ⟨rest, offset, tokens, errors⟩
  simp only at hoffset herrors hrest htokens
  rw [within, hrest, ← hoffset, ← herrors, ← htokens]

theorem Onward.errors_eq_nil {source : Text} {r r' : Reader} (h : Onward source r r')
    (herrors : r'.errors = []) : r.errors = [] := by
  obtain ⟨found, hfound, -⟩ := h.errors
  rw [hfound] at herrors
  exact (List.append_eq_nil_iff.mp herrors).1

theorem InStep.kind_of_rest_eq_nil {source : Text} {r : Reader} (h : r.InStep source)
    (hrest : r.rest = []) : r.kind = .endOfFile := by
  have htokens := h.tokens_eq_tokensAt (by simp [hrest])
  rw [kind, current, htokens, hrest]
  rfl

theorem InStep.kind_seekEnd {source : Text} {r : Reader} (h : r.InStep source) :
    r.seekEnd.kind = .endOfFile :=
  h.seekEnd.inStep.kind_of_rest_eq_nil (seek_rest (List.append_nil r.rest).symm)

theorem InStep.advance_offset {source : Text} {r : Reader} (h : r.InStep source)
    (hkind : r.kind ≠ .endOfFile) : r.advance.offset = r.current.span.stop := by
  obtain ⟨gap, text, more, hnext⟩ := h.hasNext hkind
  rw [hnext.advance_eq, hnext.span_eq]

theorem InStep.tokens_of_endOfFile {source : Text} {r : Reader} (h : r.InStep source)
    (hkind : r.kind = .endOfFile) : ∃ offset, r.tokens = [.endOfFile offset] := by
  obtain ⟨cut, more, -, -, htokens⟩ := h.exists_tokens
  rcases tokensAt_cases (r.offset + cut.size) more with
    hend | ⟨gap, c, tail, rest, kind, -, -, hlexeme, hcons⟩
  · exact ⟨_, htokens.trans hend⟩
  · rw [Reader.kind, current, htokens, hcons] at hkind
    exact absurd hkind (lexeme_kind_ne_endOfFile hlexeme)

theorem InStep.kind_of_suffix {source : Text} {r : Reader} (h : r.InStep source) {offset : Nat}
    (hsuffix : r.tokens <:+ [.endOfFile offset]) : r.kind = .endOfFile := by
  rcases List.suffix_cons_iff.mp hsuffix with hsame | hnil
  · rw [kind, current, hsame]
    rfl
  · exact absurd (List.suffix_nil.mp hnil) h.tokens_ne_nil

/-- A reader that has come to the end of the source stays there. -/
theorem Further.kind_ne_endOfFile {source : Text} {r r' : Reader} (h : Further source r r')
    (hr : r.InStep source) (hkind : r'.kind ≠ .endOfFile) : r.kind ≠ .endOfFile := by
  intro hend
  obtain ⟨offset, htokens⟩ := hr.tokens_of_endOfFile hend
  have hsuffix : r'.tokens <:+ [.endOfFile offset] := by
    rw [h.inStep.tokens_eq, ← hr.dropWhile_tokens _ h.offset_le, htokens]
    exact List.dropWhile_suffix _
  exact hkind (h.inStep.kind_of_suffix hsuffix)

section Within

variable {a b : Text} {r : Reader} (h : r.InStep a)

include h

theorem InStep.within_rest : (r.within (a ++ b)).rest = r.rest ++ b := by
  obtain ⟨before, hsource, hoffset⟩ := h.boundary
  have hdrop := Text.dropBytes_size_append before (r.rest ++ b)
  rw [← hoffset, ← List.append_assoc, ← hsource] at hdrop
  exact hdrop

theorem InStep.inStep_within : (r.within (a ++ b)).InStep (a ++ b) := by
  obtain ⟨before, hsource, hoffset⟩ := h.boundary
  refine ⟨⟨before, ?_, hoffset⟩, rfl⟩
  rw [h.within_rest, ← List.append_assoc, ← hsource]

theorem InStep.opensTag_within (hopens : opensTag r.rest = true) :
    opensTag (r.within (a ++ b)).rest = true := by
  obtain ⟨c, rest, hrest, halpha⟩ := exists_of_opensTag hopens
  rw [h.within_rest, hrest]
  exact halpha

theorem InStep.seek_within {passed rest : Text} (hrest : r.rest = passed ++ rest) :
    (r.within (a ++ b)).seek (r.offset + passed.size) =
      (r.seek (r.offset + passed.size)).within (a ++ b) := by
  have hlong : (r.within (a ++ b)).rest = passed ++ (rest ++ b) := by
    rw [h.within_rest, hrest, List.append_assoc]
  have hseek := h.inStep_within.seek hlong
  exact hseek.inStep.eq_within rfl rfl

variable (hb : ∀ c ∈ b.head?, c = '<')

include hb

/-- Up to the end of its own source, a reader meets the same tokens. -/
theorem InStep.within_current (hkind : r.kind ≠ .endOfFile) :
    (r.within (a ++ b)).current = r.current := by
  obtain ⟨init, hshort, hlong⟩ := tokensAt_append hb 0 a
  have htokens := h.tokens_eq
  have hwithin := (h.inStep_within (b := b)).tokens_eq
  rw [Markup.tokens_eq_tokensAt, hshort, List.dropWhile_append] at htokens
  rw [Markup.tokens_eq_tokensAt, hlong, List.dropWhile_append] at hwithin
  cases hinit : init.dropWhile fun token => decide (token.span.start < r.offset) with
  | nil =>
      have hsuffix : r.tokens <:+ [.endOfFile (0 + a.size)] := by
        rw [htokens, hinit]
        exact List.dropWhile_suffix _
      exact absurd (h.kind_of_suffix hsuffix) hkind
  | cons token more =>
      rw [hinit] at htokens
      rw [show (r.within (a ++ b)).offset = r.offset from rfl, hinit] at hwithin
      rw [current, current, htokens, hwithin]
      rfl

theorem InStep.within_kind (hkind : r.kind ≠ .endOfFile) : (r.within (a ++ b)).kind = r.kind := by
  rw [kind, h.within_current hb hkind]
  rfl

theorem InStep.advance_within (hkind : r.kind ≠ .endOfFile) :
    (r.within (a ++ b)).advance = r.advance.within (a ++ b) := by
  have hkind' := h.within_kind hb hkind
  have hstep : (r.within (a ++ b)).InStep (a ++ b) := h.inStep_within
  refine hstep.advance.inStep.eq_within ?_ ?_
  · rw [hstep.advance_offset (by rw [hkind']; exact hkind), h.within_current hb hkind,
      h.advance_offset hkind]
  · rw [advance_errors, advance_errors]
    rfl

theorem InStep.reportHere_within (hkind : r.kind ≠ .endOfFile) (fault : Fault) :
    (r.within (a ++ b)).reportHere fault = (r.reportHere fault).within (a ++ b) := by
  rw [Reader.reportHere, h.within_current hb hkind]
  rfl

theorem InStep.expect_within (hkind : r.kind ≠ .endOfFile) (kind : TokenKind) :
    (r.within (a ++ b)).expect kind = (r.expect kind).within (a ++ b) := by
  unfold Reader.expect
  rw [h.within_kind hb hkind, h.advance_within hb hkind, h.reportHere_within hb hkind]
  split_ifs <;> rfl

theorem InStep.takeName_within (hkind : r.kind ≠ .endOfFile) :
    (r.within (a ++ b)).takeName = (r.takeName.1, r.takeName.2.within (a ++ b)) := by
  unfold Reader.takeName
  rw [h.within_kind hb hkind, h.within_current hb hkind, h.advance_within hb hkind]
  split_ifs <;> rfl

theorem InStep.skipNewlines_within (hkind : r.skipNewlines.kind ≠ .endOfFile) :
    (r.within (a ++ b)).skipNewlines = r.skipNewlines.within (a ++ b) := by
  induction hlength : r.tokens.length using Nat.strong_induction_on generalizing r with
  | _ n ih =>
      have hne := h.skipNewlines.toFurther.kind_ne_endOfFile h hkind
      have hkind' := h.within_kind hb hne
      by_cases hnewline : r.kind = .newline
      · obtain ⟨gap, text, more, hnext⟩ := h.hasNext hne
        have hfewer := h.advance.toFurther.length_tokens_lt h hnext.start_lt_advance
        rw [skipNewlines_of_newline hnewline] at hkind ⊢
        rw [skipNewlines_of_newline (hkind'.trans hnewline), h.advance_within hb hne]
        exact ih _ (hlength ▸ hfewer) h.advance.inStep hkind rfl
      · rw [skipNewlines_eq_self hnewline, skipNewlines_eq_self (hkind' ▸ hnewline)]

end Within

end Reader

end Markup

end Component
