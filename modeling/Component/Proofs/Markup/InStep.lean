/-
Readers in step: the byte offset and the next token of a reader belong together.

A reader is in step with its source when its offset lies between two characters and
its next token is the first one that begins there or later.  Every move of a reader
keeps it in step, wherever a search through the text has left it.
-/
import Component.Markup.Reader
import Component.Proofs.Markup.Lexing

namespace Component

theorem dropWhile_congr_of_mem {α : Type} {p q : α → Bool} {items : List α}
    (h : ∀ item ∈ items, p item = q item) : items.dropWhile p = items.dropWhile q := by
  induction items with
  | nil => rfl
  | cons head tail ih =>
      have htail := ih fun item hitem => h item (List.mem_cons_of_mem head hitem)
      simp only [List.dropWhile_cons, h head List.mem_cons_self, htail]

theorem dropWhile_dropWhile_of_imp {α : Type} {p q : α → Bool}
    (h : ∀ item, p item = true → q item = true) (items : List α) :
    (items.dropWhile p).dropWhile q = items.dropWhile q := by
  induction items with
  | nil => rfl
  | cons head tail ih =>
      by_cases hp : p head = true
      · rw [List.dropWhile_cons_of_pos hp, List.dropWhile_cons_of_pos (h head hp), ih]
      · rw [List.dropWhile_cons_of_neg hp]

namespace Markup

/-- Faults inside a tag, which say nothing about the tree. -/
def Fault.isInTag : Fault → Bool
  | .unclosedTag _ | .unexpectedClosingTag _ | .unterminatedComment => false
  | _ => true

namespace Reader

/-- The reader stands between two characters of the source, and its tokens are those
that begin there or later. -/
structure InStep (source : Text) (r : Reader) : Prop where
  boundary : ∃ before : Text, source = before ++ r.rest ∧ r.offset = before.size
  tokens_eq : r.tokens =
    (Markup.tokens source).dropWhile fun token => token.span.start < r.offset

/-- The reader `r'` stands at `r` or further on, in step with the source. -/
structure Further (source : Text) (r r' : Reader) : Prop where
  inStep : r'.InStep source
  passed : ∃ text : Text, r.rest = text ++ r'.rest ∧ r'.offset = r.offset + text.size

/-- The reader `r'` stands further on, and only faults inside a tag were found on the way. -/
structure Onward (source : Text) (r r' : Reader) : Prop extends Further source r r' where
  errors : ∃ found, r'.errors = r.errors ++ found ∧ ∀ e ∈ found, e.fault.isInTag = true

theorem Further.trans {source : Text} {r r' r'' : Reader} (h : Further source r r')
    (h' : Further source r' r'') : Further source r r'' := by
  obtain ⟨text, hrest, hoffset⟩ := h.passed
  obtain ⟨text', hrest', hoffset'⟩ := h'.passed
  refine ⟨h'.inStep, text ++ text', ?_, ?_⟩
  · rw [hrest, hrest', List.append_assoc]
  · rw [hoffset', hoffset, Text.size_append, Nat.add_assoc]

theorem Further.offset_le {source : Text} {r r' : Reader} (h : Further source r r') :
    r.offset ≤ r'.offset := by
  obtain ⟨text, _, hoffset⟩ := h.passed
  omega

theorem Onward.refl {source : Text} {r : Reader} (h : r.InStep source) : Onward source r r where
  inStep := h
  passed := ⟨[], rfl, rfl⟩
  errors := ⟨[], by simp⟩

theorem Onward.trans {source : Text} {r r' r'' : Reader} (h : Onward source r r')
    (h' : Onward source r' r'') : Onward source r r'' := by
  obtain ⟨found, herrors, hfound⟩ := h.errors
  obtain ⟨found', herrors', hfound'⟩ := h'.errors
  refine ⟨h.toFurther.trans h'.toFurther, found ++ found', ?_, ?_⟩
  · rw [herrors', herrors, List.append_assoc]
  · intro e he
    rcases List.mem_append.mp he with hmem | hmem
    · exact hfound e hmem
    · exact hfound' e hmem

@[simp] theorem report_offset (r : Reader) (fault : Fault) (span : Span) :
    (r.report fault span).offset = r.offset := rfl

@[simp] theorem report_errors (r : Reader) (fault : Fault) (span : Span) :
    (r.report fault span).errors = r.errors ++ [⟨fault, span⟩] := rfl

@[simp] theorem seek_offset (r : Reader) (offset : Nat) : (r.seek offset).offset = offset := rfl

@[simp] theorem seek_errors (r : Reader) (offset : Nat) : (r.seek offset).errors = r.errors := rfl

theorem inStep_start (source : Text) : (start source).InStep source where
  boundary := ⟨[], rfl, rfl⟩
  tokens_eq := (dropWhile_tokensAt_of_le (Nat.le_refl 0) source).symm

theorem InStep.report {source : Text} {r : Reader} (h : r.InStep source) (fault : Fault)
    (span : Span) : (r.report fault span).InStep source :=
  ⟨h.boundary, h.tokens_eq⟩

theorem InStep.further_report {source : Text} {r : Reader} (h : r.InStep source) (fault : Fault)
    (span : Span) : Further source r (r.report fault span) :=
  ⟨h.report fault span, [], rfl, rfl⟩

theorem InStep.onward_report {source : Text} {r : Reader} (h : r.InStep source) (fault : Fault)
    (hfault : fault.isInTag = true) (span : Span) : Onward source r (r.report fault span) where
  inStep := h.report fault span
  passed := ⟨[], rfl, rfl⟩
  errors := ⟨[⟨fault, span⟩], rfl, by simpa using hfault⟩

theorem InStep.exists_tokens {source : Text} {r : Reader} (h : r.InStep source) :
    ∃ cut more : Text, r.rest = cut ++ more ∧ (∀ c ∈ cut, opensLexeme c = false) ∧
      r.tokens = tokensAt (r.offset + cut.size) more := by
  obtain ⟨before, hsource, hoffset⟩ := h.boundary
  obtain ⟨cut, more, hrest, hcut, htokens⟩ := dropWhile_tokensAt 0 before r.rest
  refine ⟨cut, more, hrest, hcut, ?_⟩
  rw [h.tokens_eq, hsource, hoffset, tokens_eq_tokensAt]
  simpa using htokens

/-- Where a lexeme has to begin, the tokens of a reader are those of the text it has
before it. -/
theorem InStep.tokens_eq_tokensAt {source : Text} {r : Reader} (h : r.InStep source)
    (hopens : ∀ c ∈ r.rest.head?, opensLexeme c = true) :
    r.tokens = tokensAt r.offset r.rest := by
  obtain ⟨before, hsource, hoffset⟩ := h.boundary
  have htokens := dropWhile_tokensAt_of_opensLexeme 0 before r.rest hopens
  rw [h.tokens_eq, hsource, hoffset, Markup.tokens_eq_tokensAt]
  simpa using htokens

theorem InStep.offset_add_size {source : Text} {r : Reader} (h : r.InStep source) :
    r.offset + r.rest.size = source.size := by
  obtain ⟨before, hsource, hoffset⟩ := h.boundary
  rw [hsource, hoffset, Text.size_append]

theorem InStep.dropWhile_tokens {source : Text} {r : Reader} (h : r.InStep source) (bound : Nat)
    (hbound : r.offset ≤ bound) :
    r.tokens.dropWhile (fun token => token.span.start < bound) =
      (Markup.tokens source).dropWhile fun token => token.span.start < bound := by
  rw [h.tokens_eq]
  apply dropWhile_dropWhile_of_imp
  intro token hstart
  simp only [decide_eq_true_eq] at hstart ⊢
  omega

theorem InStep.start_of_endOfFile {source : Text} {r : Reader} (h : r.InStep source) {token : Token}
    (htoken : token ∈ r.tokens) (hkind : token.kind = .endOfFile) :
    token.span.start = source.size := by
  rw [h.tokens_eq] at htoken
  have hmem := (List.dropWhile_suffix _).subset htoken
  rw [start_eq_of_endOfFile_mem_tokensAt 0 source token hmem hkind, Nat.zero_add]

theorem seek_rest {r : Reader} {passed rest : Text} (hrest : r.rest = passed ++ rest) :
    (r.seek (r.offset + passed.size)).rest = rest := by
  rw [seek, hrest, Nat.add_sub_cancel_left]
  exact Text.dropBytes_size_append passed rest

theorem InStep.seek {source : Text} {r : Reader} (h : r.InStep source) {passed rest : Text}
    (hrest : r.rest = passed ++ rest) : Onward source r (r.seek (r.offset + passed.size)) := by
  have hrest' := seek_rest hrest
  obtain ⟨before, hsource, hoffset⟩ := h.boundary
  refine ⟨⟨⟨⟨before ++ passed, ?_, ?_⟩, ?_⟩, ⟨passed, ?_, rfl⟩⟩, ⟨[], by simp⟩⟩
  · rw [hrest', hsource, hrest, List.append_assoc]
  · rw [Text.size_append, ← hoffset, seek_offset]
  · refine Eq.trans (dropWhile_congr_of_mem ?_) (h.dropWhile_tokens _ (Nat.le_add_right _ _))
    intro token htoken
    by_cases hkind : token.kind = .endOfFile
    · have hstart := h.start_of_endOfFile htoken hkind
      have hsize := h.offset_add_size
      rw [hrest, Text.size_append] at hsize
      have hnot : ¬ token.span.start < r.offset + passed.size := by omega
      simp only [hnot, decide_false, Bool.and_false, seek_offset]
    · rw [bne_iff_ne.mpr hkind, Bool.true_and]
      rfl
  · rw [hrest', hrest]

theorem InStep.seekEnd {source : Text} {r : Reader} (h : r.InStep source) :
    Onward source r r.seekEnd :=
  h.seek (List.append_nil r.rest).symm

/-- The next token of a reader: after `gap` its text, and then `more`. -/
structure HasNext (r : Reader) (gap text more : Text) : Prop where
  rest_eq : r.rest = gap ++ (text ++ more)
  text_ne_nil : text ≠ []
  kind_ne_endOfFile : r.kind ≠ .endOfFile
  tokens_eq : r.tokens = r.current :: tokensAt (r.offset + gap.size + text.size) more
  text_eq : r.current.text = text
  span_eq : r.current.span = ⟨r.offset + gap.size, r.offset + gap.size + text.size⟩
  advance_eq : r.advance = ⟨more, r.offset + gap.size + text.size,
    tokensAt (r.offset + gap.size + text.size) more, r.errors⟩

theorem hasNext_of_tokens {r : Reader} {gap text more : Text} {kind : TokenKind}
    (hrest : r.rest = gap ++ (text ++ more)) (htext : text ≠ []) (hkind : kind ≠ .endOfFile)
    (htokens : r.tokens =
      ⟨kind, ⟨r.offset + gap.size, r.offset + gap.size + text.size⟩, text⟩ ::
        tokensAt (r.offset + gap.size + text.size) more) :
    r.HasNext gap text more := by
  have hcurrent : r.current =
      ⟨kind, ⟨r.offset + gap.size, r.offset + gap.size + text.size⟩, text⟩ := by
    rw [current, htokens]
    rfl
  have hdrop : Text.dropBytes (r.offset + gap.size + text.size - r.offset) r.rest = more := by
    have hsize : r.offset + gap.size + text.size - r.offset = (gap ++ text).size := by
      rw [Text.size_append]
      omega
    rw [hsize, hrest, ← List.append_assoc, Text.dropBytes_size_append]
  refine ⟨hrest, htext, ?_, ?_, ?_, ?_, ?_⟩
  · rw [Reader.kind, hcurrent]
    exact hkind
  · rw [hcurrent, htokens]
  · rw [hcurrent]
  · rw [hcurrent]
  · rw [advance, htokens]
    simp only [hkind, ↓reduceIte, hdrop]

theorem InStep.next_cases {source : Text} {r : Reader} (h : r.InStep source) :
    (r.kind = .endOfFile ∧ r.advance = r) ∨ ∃ gap text more, r.HasNext gap text more := by
  obtain ⟨cut, rest, hrest, -, htokens⟩ := h.exists_tokens
  rcases tokensAt_cases (r.offset + cut.size) rest with
    hend | ⟨gap, c, tail, more, kind, hsplit, -, hlexeme, hcons⟩
  · left
    rw [hend] at htokens
    simp [kind, current, advance, htokens, Token.endOfFile]
  · right
    refine ⟨cut ++ gap, c :: tail, more, hasNext_of_tokens ?_ (List.cons_ne_nil c tail)
      (lexeme_kind_ne_endOfFile hlexeme) ?_⟩
    · rw [hrest, hsplit, List.append_assoc, List.cons_append]
    · rw [htokens, hcons, Text.size_append, Nat.add_assoc r.offset]

/-- A lexeme that opens at the place of a reader is its next token. -/
theorem InStep.front {source : Text} {r : Reader} (h : r.InStep source) {c : Char}
    {rest text more : Text} {kind : TokenKind} (hrest : r.rest = c :: rest)
    (hopens : opensLexeme c = true) (hlexeme : lexeme c rest = (some kind, text, more)) :
    r.HasNext [] text more ∧ r.current = ⟨kind, ⟨r.offset, r.offset + text.size⟩, text⟩ := by
  have htokens : r.tokens =
      ⟨kind, ⟨r.offset, r.offset + text.size⟩, text⟩ :: tokensAt (r.offset + text.size) more := by
    rw [h.tokens_eq_tokensAt (by simp [hrest, hopens]), hrest]
    exact tokensAt_token hlexeme r.offset
  obtain ⟨_, tail, _, hspec, hsplit, -⟩ := exists_lexeme c rest
  rw [hlexeme, Prod.mk.injEq, Prod.mk.injEq] at hspec
  obtain ⟨-, rfl, rfl⟩ := hspec
  constructor
  · apply hasNext_of_tokens _ (List.cons_ne_nil c tail) (lexeme_kind_ne_endOfFile hlexeme) htokens
    rw [hrest, hsplit]
    rfl
  · rw [current, htokens]
    rfl

theorem InStep.hasNext {source : Text} {r : Reader} (h : r.InStep source)
    (hkind : r.kind ≠ .endOfFile) : ∃ gap text more, r.HasNext gap text more := by
  rcases h.next_cases with ⟨hend, -⟩ | hnext
  · exact absurd hend hkind
  · exact hnext

theorem HasNext.start_lt_advance {r : Reader} {gap text more : Text}
    (h : r.HasNext gap text more) : r.current.span.start < r.advance.offset := by
  have hpos := Text.size_pos_of_ne_nil h.text_ne_nil
  simp only [h.span_eq, h.advance_eq]
  omega

theorem HasNext.onward_advance {source : Text} {r : Reader} {gap text more : Text}
    (h : r.HasNext gap text more) (hr : r.InStep source) : Onward source r r.advance := by
  obtain ⟨before, hsource, hoffset⟩ := hr.boundary
  have hnext := h.advance_eq
  have hpos := Text.size_pos_of_ne_nil h.text_ne_nil
  refine ⟨⟨⟨⟨before ++ (gap ++ text), ?_, ?_⟩, ?_⟩, ⟨gap ++ text, ?_, ?_⟩⟩, ⟨[], ?_⟩⟩
  · simp only [hnext, hsource, h.rest_eq, List.append_assoc]
  · simp only [hnext, Text.size_append, ← hoffset, Nat.add_assoc]
  · have hdrop := hr.dropWhile_tokens r.advance.offset
      (Nat.le_trans (by rw [h.span_eq]; exact Nat.le_add_right _ _) h.start_lt_advance.le)
    rw [← hdrop, h.tokens_eq, List.dropWhile_cons_of_pos (by simpa using h.start_lt_advance),
      dropWhile_tokensAt_of_le (by rw [hnext]), hnext]
  · simp only [hnext, h.rest_eq, List.append_assoc]
  · simp only [hnext, Text.size_append, Nat.add_assoc]
  · simp [hnext]

theorem InStep.advance {source : Text} {r : Reader} (h : r.InStep source) :
    Onward source r r.advance := by
  rcases h.next_cases with ⟨-, hsame⟩ | ⟨gap, text, more, hnext⟩
  · rw [hsame]
    exact Onward.refl h
  · exact hnext.onward_advance h

theorem InStep.reportHere {source : Text} {r : Reader} (h : r.InStep source) (fault : Fault)
    (hfault : fault.isInTag = true) : Onward source r (r.reportHere fault) :=
  h.onward_report fault hfault r.current.span

theorem InStep.eat {source : Text} {r : Reader} (h : r.InStep source) (kind : TokenKind) :
    Onward source r (r.eat kind) := by
  unfold Reader.eat
  split_ifs
  · exact h.advance
  · exact Onward.refl h

theorem InStep.expect {source : Text} {r : Reader} (h : r.InStep source) (kind : TokenKind) :
    Onward source r (r.expect kind) := by
  unfold Reader.expect
  split_ifs
  · exact h.advance
  · exact h.reportHere _ rfl

theorem InStep.takeName {source : Text} {r : Reader} (h : r.InStep source) :
    Onward source r r.takeName.2 := by
  unfold Reader.takeName
  split_ifs
  · exact h.advance
  · exact Onward.refl h

theorem InStep.skipNewlines {source : Text} {r : Reader} (h : r.InStep source) :
    Onward source r r.skipNewlines := by
  have hfold : ∀ (passed : List Token) (r : Reader), r.InStep source →
      Onward source r (passed.foldl (fun r _ => r.advance) r) := by
    intro passed
    induction passed with
    | nil =>
        intro r hr
        exact Onward.refl hr
    | cons token more ih =>
        intro r hr
        exact hr.advance.trans (ih r.advance hr.advance.inStep)
  exact hfold _ r h

theorem InStep.tokens_ne_nil {source : Text} {r : Reader} (h : r.InStep source) :
    r.tokens ≠ [] := by
  obtain ⟨cut, more, -, -, htokens⟩ := h.exists_tokens
  rw [htokens]
  exact tokensAt_ne_nil _ _

/-- A reader that has passed its next token has fewer tokens before it. -/
theorem Further.length_tokens_lt {source : Text} {r r' : Reader} (h : Further source r r')
    (hr : r.InStep source) (hpassed : r.current.span.start < r'.offset) :
    r'.tokens.length < r.tokens.length := by
  have htokens : r'.tokens = r.tokens.dropWhile fun token => token.span.start < r'.offset := by
    rw [h.inStep.tokens_eq, hr.dropWhile_tokens _ h.offset_le]
  cases hcase : r.tokens with
  | nil => exact absurd hcase (hr.tokens_ne_nil)
  | cons token more =>
      have hcurrent : r.current = token := by
        rw [current, hcase]
        rfl
      rw [hcurrent] at hpassed
      rw [htokens, hcase, List.dropWhile_cons_of_pos (by simpa using hpassed), List.length_cons]
      have hle := (List.dropWhile_suffix
        (fun token : Token => decide (token.span.start < r'.offset)) (l := more)).length_le
      omega

theorem Further.length_tokens_le {source : Text} {r r' : Reader} (h : Further source r r')
    (hr : r.InStep source) : r'.tokens.length ≤ r.tokens.length := by
  rw [h.inStep.tokens_eq, ← hr.dropWhile_tokens _ h.offset_le]
  exact (List.dropWhile_suffix _).length_le

theorem Further.length_rest_lt {source : Text} {r r' : Reader} (h : Further source r r')
    (hpassed : r.offset < r'.offset) : r'.rest.length < r.rest.length := by
  obtain ⟨text, hrest, hoffset⟩ := h.passed
  have hne : text ≠ [] := by
    rintro rfl
    rw [Text.size_nil] at hoffset
    omega
  have hpos := List.length_pos_iff.mpr hne
  rw [hrest, List.length_append]
  omega

end Reader

end Markup

end Component
