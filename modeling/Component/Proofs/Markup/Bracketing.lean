/-
Markup without errors is properly bracketed.

When nothing was reported, the text of every element is its start tag, the texts of
its children and a closing tag of its own name, and an element without a closing tag
is void or says so in its start tag.
-/
import Component.Proofs.Markup.Printing
import Component.Proofs.Markup.Tiling

namespace Component.Markup

/-- The text of the tokens that are always written the same. -/
def TokenKind.mark? : TokenKind → Option Text
  | .selfClose => some ['/', '>']
  | .tagClose => some ['>']
  | .newline => some ['\n']
  | _ => none

theorem text_eq_of_mark? {c : Char} {rest text more mark : Text} {kind : TokenKind}
    (h : lexeme c rest = (some kind, text, more)) (hmark : kind.mark? = some mark) :
    text = mark := by
  unfold lexeme at h
  split at h
  case h_13 =>
    split_ifs at h <;> simp only [Prod.mk.injEq, Option.some.injEq, reduceCtorEq, false_and] at h
    · rw [← h.1] at hmark
      exact absurd hmark (by simp [TokenKind.mark?])
    · rw [← h.1] at hmark
      split_ifs at hmark <;> exact absurd hmark (by simp [TokenKind.mark?])
  all_goals
    simp only [Prod.mk.injEq, Option.some.injEq] at h
    obtain ⟨rfl, rfl, -⟩ := h
    simp_all [TokenKind.mark?]

theorem text_eq_of_mem_tokensAt (offset : Nat) (t : Text) {mark : Text} :
    ∀ token ∈ tokensAt offset t, token.kind.mark? = some mark → token.text = mark := by
  induction t using lexeme_induction generalizing offset with
  | nil =>
      intro token htoken hmark
      rw [tokensAt_nil, List.mem_singleton] at htoken
      rw [htoken] at hmark
      exact absurd hmark (by simp [Token.endOfFile, TokenKind.mark?])
  | cons c kind tail more hlexeme _ ih =>
      intro token htoken hmark
      rw [tokensAt_cons hlexeme, List.mem_append] at htoken
      rcases htoken with hfirst | hmore
      · cases kind with
        | none => simp [lexemeToken] at hfirst
        | some kind =>
            simp only [lexemeToken, Option.map_some, Option.toList_some,
              List.mem_singleton] at hfirst
            rw [hfirst] at hmark ⊢
            exact text_eq_of_mark? hlexeme hmark
      · exact ih _ token hmore hmark

namespace Reader

/-- A reader in step passes a mark together with all that it had skipped before it. -/
theorem InStep.advance_mark {source : Text} {r : Reader} (h : r.InStep source) {mark : Text}
    (hmark : r.kind.mark? = some mark) :
    ∃ gap, r.rest = gap ++ (mark ++ r.advance.rest) := by
  have hkind : r.kind ≠ .endOfFile := by
    intro heq
    rw [heq] at hmark
    exact absurd hmark (by simp [TokenKind.mark?])
  obtain ⟨gap, text, more, hnext⟩ := h.hasNext hkind
  have hmem : r.current ∈ Markup.tokens source := by
    have hcurrent : r.current ∈ r.tokens := by
      rw [hnext.tokens_eq]
      exact List.mem_cons_self
    rw [h.tokens_eq] at hcurrent
    exact (List.dropWhile_suffix _).subset hcurrent
  have htext := text_eq_of_mem_tokensAt 0 source r.current hmem hmark
  rw [hnext.text_eq] at htext
  refine ⟨gap, ?_⟩
  rw [hnext.advance_eq, hnext.rest_eq, htext]

/-- The next token of a reader before a text, after nothing but gaps. -/
theorem before_next (offset : Nat) (t : Text) (errors : List Error)
    (hkind : (before offset t errors).kind ≠ .endOfFile) :
    ∃ gap text more : Text, t = gap ++ (text ++ more) ∧ (∀ c ∈ gap, isGap c = true) ∧
      (before offset t errors).current.text = text ∧
      (∀ mark, (before offset t errors).kind.mark? = some mark → text = mark) ∧
      (before offset t errors).advance =
        before (offset + gap.size + text.size) more errors := by
  rcases tokensAt_cases offset t with
    hend | ⟨gap, c, tail, more, kind, hsplit, hgap, hlexeme, htokens⟩
  · refine absurd ?_ hkind
    rw [kind, current, before, hend]
    rfl
  · have hrest : (before offset t errors).rest = gap ++ ((c :: tail) ++ more) := hsplit
    have hnext := hasNext_of_tokens hrest (List.cons_ne_nil c tail)
      (lexeme_kind_ne_endOfFile hlexeme) htokens
    have hcurrent : (before offset t errors).kind = kind := by
      rw [Reader.kind, current, before, htokens]
      rfl
    refine ⟨gap, c :: tail, more, hsplit, hgap, hnext.text_eq, ?_, hnext.advance_eq⟩
    intro mark hmark
    rw [hcurrent] at hmark
    exact text_eq_of_mark? hlexeme hmark

theorem takeName_before (offset : Nat) (t : Text) (errors : List Error) :
    ∃ gap more offset', t = gap ++ ((before offset t errors).takeName.1 ++ more) ∧
      (∀ c ∈ gap, isGap c = true) ∧
      (before offset t errors).takeName.2 = before offset' more errors := by
  by_cases hname : (before offset t errors).kind = .name
  · obtain ⟨gap, text, more, hsplit, hgap, htext, -, hadvance⟩ :=
      before_next offset t errors (by simp [hname])
    refine ⟨gap, more, offset + gap.size + text.size, ?_, hgap, ?_⟩
    · simp only [takeName, hname, ↓reduceIte, htext]
      exact hsplit
    · simp only [takeName, hname, ↓reduceIte, hadvance]
  · refine ⟨[], t, offset, ?_, by simp, ?_⟩
    · simp [takeName, hname]
    · simp [takeName, hname]

theorem skipNewlines_of_newline {r : Reader} (hkind : r.kind = .newline) :
    r.skipNewlines = r.advance.skipNewlines := by
  cases htokens : r.tokens with
  | nil =>
      rw [kind, current, htokens] at hkind
      exact absurd hkind (by simp [Token.endOfFile])
  | cons token more =>
      have htoken : token.kind = .newline := by
        rw [kind, current, htokens] at hkind
        exact hkind
      have hmore : r.advance.tokens = more := by
        simp [advance, htokens, htoken]
      rw [skipNewlines, htokens, List.takeWhile_cons_of_pos (by simp [htoken]), List.foldl_cons,
        skipNewlines, hmore]

theorem skipNewlines_before (offset : Nat) (t : Text) (errors : List Error) :
    ∃ gap more offset', t = gap ++ more ∧ (∀ c ∈ gap, isGap c = true ∨ c = '\n') ∧
      (before offset t errors).skipNewlines = before offset' more errors := by
  induction hlength : t.length using Nat.strong_induction_on generalizing offset t with
  | _ n ih =>
      by_cases hkind : (before offset t errors).kind = .newline
      · obtain ⟨gap, text, more, hsplit, hgap, -, hmark, hadvance⟩ :=
          before_next offset t errors (by simp [hkind])
        obtain rfl : text = ['\n'] := hmark _ (by rw [hkind]; rfl)
        obtain ⟨gap', more', offset', hmore, hgap', hskip⟩ :=
          ih more.length (by rw [← hlength, hsplit]; simp; omega)
            (offset + gap.size + Text.size ['\n']) more rfl
        refine ⟨gap ++ ('\n' :: gap'), more', offset', ?_, ?_, ?_⟩
        · rw [hsplit, hmore]
          simp
        · intro c hc
          rcases List.mem_append.mp hc with hfirst | hrest
          · exact Or.inl (hgap c hfirst)
          · rcases List.mem_cons.mp hrest with rfl | hmem
            · exact Or.inr rfl
            · exact hgap' c hmem
        · rw [skipNewlines_of_newline hkind, hadvance, hskip]
      · exact ⟨[], t, offset, rfl, by simp, skipNewlines_eq_self hkind⟩

theorem expect_of_errors_eq_nil {r : Reader} {kind : TokenKind}
    (herrors : (r.expect kind).errors = []) :
    r.kind = kind ∧ r.expect kind = r.advance := by
  by_cases hkind : r.kind = kind
  · exact ⟨hkind, by rw [expect, if_pos hkind]⟩
  · rw [expect, if_neg hkind] at herrors
    simp [reportHere] at herrors

theorem Further.read {source : Text} {r r' : Reader} (h : Further source r r')
    (hr : r.InStep source) : r.rest = (Span.mk r.offset r'.offset).read source ++ r'.rest := by
  obtain ⟨text, hrest, hoffset⟩ := h.passed
  rw [hoffset, hr.read_front hrest]
  exact hrest

end Reader

/-- A text that begins with `<` and a name and ends with `>`. -/
def IsStartTag (name text : Text) : Prop := '<' :: name <+: text ∧ ['>'] <:+ text

/-- A closing tag of a name, which it may write in other letters. -/
def IsClosingTag (name text : Text) : Prop :=
  ∃ blanks found gap : Text, text = '<' :: '/' :: (blanks ++ (found ++ (gap ++ ['>']))) ∧
    (∀ c ∈ blanks, isGap c = true) ∧ (∀ c ∈ gap, isGap c = true ∨ c = '\n') ∧
    found.eqIgnoreCase name = true

/-- The text of an element is bracketed by its tags, or is a start tag that needs no
closing tag. -/
def Node.Bracketed (source : Text) : Node → Prop
  | .element span name attributes children selfClosing =>
      ∃ tag tagEnd, StartTagAt source span.start tag tagEnd ∧ tag.name = name ∧
        tag.attributes = attributes ∧
        IsStartTag name ((Span.mk span.start tagEnd).read source) ∧
        (selfClosing = false → ∃ closing, IsClosingTag name closing ∧
          span.read source = (Span.mk span.start tagEnd).read source ++
            (children.flatMap (·.span.read source) ++ closing)) ∧
        (selfClosing = true → children = [] ∧ ['>'] <:+ span.read source) ∧
        (isVoid name = false →
          ¬ ['/', '>'] <:+ (Span.mk span.start tagEnd).read source → selfClosing = false)
  | _ => True

/-- A start tag in which nothing was reported ends with `>`, and with `/>` if it closes
its element. -/
theorem readStartTag_ends {source : Text} {r r₁ : Reader} {tag : StartTag} (h : r.InStep source)
    (hopens : opensTag r.rest = true) (htag : readStartTag r = (tag, r₁))
    (herrors : r₁.errors = []) :
    IsStartTag tag.name ((Span.mk r.offset r₁.offset).read source) ∧
      (tag.selfClosed = true → ['/', '>'] <:+ (Span.mk r.offset r₁.offset).read source) := by
  obtain ⟨honward, ⟨more, hmore⟩, -, hordered⟩ := readStartTag_spec h hopens
  rw [htag] at honward hmore hordered
  have hread := honward.toFurther.read h
  have hbegins : '<' :: tag.name <+: (Span.mk r.offset r₁.offset).read source := by
    obtain ⟨tail, htail⟩ := read_element_begins h hmore honward.toFurther hordered.le
    exact ⟨tail, htail.symm⟩
  -- The tag ends with the mark that is read after its attributes.
  have hend : ∀ (r₂ : Reader) (mark : Text), Reader.Onward source r r₂ →
      r₂.kind.mark? = some mark → r₂.advance = r₁ →
      mark <:+ (Span.mk r.offset r₁.offset).read source := by
    intro r₂ mark honward₂ hmark hadvance
    obtain ⟨gap, hgap⟩ := honward₂.inStep.advance_mark hmark
    have hbefore := honward₂.toFurther.read h
    rw [hgap, hadvance, hread, ← List.append_assoc, ← List.append_assoc] at hbefore
    have htext := List.append_cancel_right hbefore
    rw [htext]
    exact List.suffix_append _ _
  have hstart := (h.expect .tagOpen).trans (h.expect .tagOpen).inStep.advance
  set r₀ := (r.expect .tagOpen).advance with hr₀
  have hreads := exists_readsAttributes r₀.tokens.length [] r₀ hstart.inStep (Nat.le_refl _)
  have honward₂ := hstart.trans (hreads.spec hstart.inStep).1
  unfold readStartTag at htag
  simp only [← hr₀] at htag
  split_ifs at htag with hkind
  · rw [Prod.mk.injEq] at htag
    have hsuffix := hend _ ['/', '>'] honward₂ (by rw [hkind]; rfl) htag.2
    exact ⟨⟨hbegins, (List.suffix_cons '/' ['>']).trans hsuffix⟩, fun _ => hsuffix⟩
  · rw [Prod.mk.injEq] at htag
    obtain ⟨htag, hr₁⟩ := htag
    rw [← hr₁] at herrors
    obtain ⟨hclose, hexpect⟩ := Reader.expect_of_errors_eq_nil herrors
    have hsuffix := hend _ ['>'] honward₂ (by rw [hclose]; rfl) (hexpect.symm.trans hr₁)
    refine ⟨⟨hbegins, hsuffix⟩, fun hclosed => ?_⟩
    rw [← htag] at hclosed
    exact absurd hclosed Bool.false_ne_true

/-- A closing tag in which nothing was reported is one of the name asked for. -/
theorem readClosingTag_closes {source : Text} {r : Reader} (h : r.InStep source) {name : Text}
    {start : Nat} (herrors : (readClosingTag name start r).errors = []) :
    r.errors = [] ∧ ∃ closing, IsClosingTag name closing ∧
      r.rest = closing ++ (readClosingTag name start r).rest := by
  by_cases hopens : opensClosingTag r.rest = true
  · obtain ⟨more, hrest, hnext, -⟩ := h.closingOpen hopens
    have hadvance : r.advance = Reader.before (r.offset + 2) more r.errors := hnext.advance_eq
    obtain ⟨blanks, more₁, offset₁, hsplit, hblanks, hname⟩ :=
      Reader.takeName_before (r.offset + 2) more r.errors
    obtain ⟨gap, more₂, offset₂, hsplit', hgap, hskip⟩ :=
      Reader.skipNewlines_before offset₁ more₁ r.errors
    simp only [readClosingTag, hopens, ↓reduceIte, hadvance, hname, hskip] at herrors ⊢
    split_ifs at herrors ⊢ with hfound
    · obtain ⟨hclose, hexpect⟩ := Reader.expect_of_errors_eq_nil herrors
      obtain ⟨gap', text, more₃, hsplit'', hgap', -, hmark, hpassed⟩ :=
        Reader.before_next offset₂ more₂ r.errors (by simp [hclose])
      obtain rfl : text = ['>'] := hmark _ (by rw [hclose]; rfl)
      rw [hexpect, hpassed] at herrors ⊢
      refine ⟨herrors, _, ⟨blanks, _, gap ++ gap', rfl, hblanks, ?_, hfound⟩, ?_⟩
      · intro c hc
        rcases List.mem_append.mp hc with hfirst | hsecond
        · exact hgap c hfirst
        · exact Or.inl (hgap' c hsecond)
      · rw [hrest]
        conv_lhs => rw [hsplit, hsplit', hsplit'']
        simp [Reader.before]
    · simp at herrors
  · rw [readClosingTag_of_not_opens (Bool.eq_false_iff.mpr hopens)] at herrors
    simp at herrors

/-- What is read inside an element is the texts of its children, one after another. -/
theorem Reads.rest_eq {options : Options} {source : Text} {inside : Bool} {r r' : Reader}
    {nodes : List Node} (h : Reads options inside r nodes r') (hr : r.InStep source)
    (hinside : inside = true) :
    r.rest = nodes.flatMap (·.span.read source) ++ r'.rest := by
  induction h with
  | done _ => rfl
  | closing _ => rfl
  | stray _ _ _ => exact absurd hinside Bool.false_ne_true
  | flat hnode _ ih =>
      have hfurther := (hnode.further hr).1
      rw [List.flatMap_cons, hnode.span_eq hr, List.append_assoc,
        ← ih hfurther.inStep hinside]
      exact hfurther.read hr
  | @element _ r r₁ r₂ _ tag _ _ hopens htag _ _ hchildren _ _ ih =>
      have hstart := (readStartTag_further hr hopens htag).1.toFurther
      have hbody := hchildren.further hstart.inStep
      have hwhole := hstart.trans
        (hbody.trans (readClosingTag_further hbody.inStep tag.name r.offset))
      rw [List.flatMap_cons, List.append_assoc, ← ih hwhole.inStep hinside]
      exact hwhole.read hr

theorem Reads.errors_eq_nil {options : Options} {source : Text} {inside : Bool} {r r' : Reader}
    {nodes : List Node} (h : Reads options inside r nodes r') (hr : r.InStep source)
    (herrors : r'.errors = []) : r.errors = [] := by
  obtain ⟨found, hfound, -⟩ := h.accounted hr
  rw [hfound.errors_eq] at herrors
  exact (List.append_eq_nil_iff.mp herrors).1

/-- An element that was read over its children up to its closing tag. -/
theorem bracketed_closed {source : Text} {r r₁ r₂ : Reader} {tag : StartTag}
    {children : List Node} (h : r.InStep source) (hopens : opensTag r.rest = true)
    (htag : readStartTag r = (tag, r₁)) (herrors : r₁.errors = [])
    (hfurther : Reader.Further source r₁ r₂)
    (hchildren : r₁.rest = children.flatMap (·.span.read source) ++ r₂.rest)
    (hclosing : (readClosingTag tag.name r.offset r₂).errors = []) :
    Node.Bracketed source (.element ⟨r.offset, (readClosingTag tag.name r.offset r₂).offset⟩
      tag.name tag.attributes children false) := by
  have hstart := (readStartTag_further h hopens htag).1.toFurther
  have hwhole := hstart.trans
    (hfurther.trans (readClosingTag_further hfurther.inStep tag.name r.offset))
  obtain ⟨-, closing, hcloses, hrest⟩ := readClosingTag_closes hfurther.inStep hclosing
  refine ⟨tag, r₁.offset, ⟨r, r₁, h, rfl, htag, rfl⟩, rfl, rfl,
    (readStartTag_ends h hopens htag herrors).1, ?_, by simp, by simp⟩
  intro _
  refine ⟨closing, hcloses, ?_⟩
  have hread := hwhole.read h
  rw [hstart.read h, hchildren, hrest, ← List.append_assoc, ← List.append_assoc] at hread
  rw [← List.append_assoc]
  exact (List.append_cancel_right hread).symm

theorem ReadsFlat.bracketed {options : Options} {source : Text} {r r' : Reader} {node : Node}
    (h : ReadsFlat options r node r') (hr : r.InStep source) (herrors : r'.errors = []) :
    ∀ other, Occurs other [node] → other.Bracketed source := by
  intro other hother
  cases h with
  | comment hopens =>
      obtain ⟨data, hnode, -⟩ := readComment_spec hr hopens
      rw [hnode] at hother
      rcases occurs_singleton hother with rfl | hbelow
      · trivial
      · exact absurd hbelow (not_occurs_nil other)
  | text hrest hopens =>
      obtain ⟨-, data, -, -, -, hnode⟩ := readText_spec hr hrest hopens
      rw [hnode] at hother
      rcases occurs_singleton hother with rfl | hbelow
      · trivial
      · exact absurd hbelow (not_occurs_nil other)
  | @leaf _ tag hopens htag hleaf =>
      rcases occurs_singleton hother with rfl | hbelow
      · obtain ⟨hends, hclosed⟩ := readStartTag_ends hr hopens htag herrors
        refine ⟨tag, r'.offset, ⟨r, r', hr, rfl, htag, rfl⟩, rfl, rfl, hends, by simp,
          fun _ => ⟨rfl, hends.2⟩, ?_⟩
        intro hvoid hnot
        rw [hvoid, Bool.or_false] at hleaf
        exact absurd (hclosed hleaf) hnot
      · exact absurd hbelow (not_occurs_nil other)
  | @raw r₁ r₂ tag children hopens htag _ _ hbody =>
      have hstart := (readStartTag_further hr hopens htag).1
      obtain ⟨hraw, data, hrest, hoffset, hnodes⟩ := readRawText_spec hstart.inStep tag.name
      rw [hbody] at hraw hrest hoffset hnodes
      simp only at hnodes
      obtain ⟨herrors₂, -⟩ := readClosingTag_closes hraw.inStep herrors
      have herrors₁ : r₁.errors = [] := by
        obtain ⟨found, hfound, -⟩ := hraw.errors
        rw [herrors₂] at hfound
        exact (List.append_eq_nil_iff.mp hfound.symm).1
      rcases occurs_singleton hother with rfl | hbelow
      · apply bracketed_closed hr hopens htag herrors₁ hraw.toFurther _ herrors
        rw [hnodes, hrest]
        by_cases hdata : data = []
        · simp [hdata]
        · have hread := hstart.inStep.read_front hrest
          rw [List.isEmpty_eq_false_iff.mpr hdata]
          simp [Node.span, hread]
      · rw [Node.children, hnodes] at hbelow
        split_ifs at hbelow
        · exact absurd hbelow (not_occurs_nil other)
        · rcases occurs_singleton hbelow with rfl | hdeeper
          · trivial
          · exact absurd hdeeper (not_occurs_nil other)

theorem Reads.bracketed {options : Options} {source : Text} {inside : Bool} {r r' : Reader}
    {nodes : List Node} (h : Reads options inside r nodes r') (hr : r.InStep source)
    (herrors : r'.errors = []) : ∀ node, Occurs node nodes → node.Bracketed source := by
  induction h with
  | done _ => exact fun node hnode => absurd hnode (not_occurs_nil node)
  | closing _ => exact fun node hnode => absurd hnode (not_occurs_nil node)
  | stray hopens hmore _ =>
      -- A stray closing tag is reported, so there is none.
      obtain ⟨name, r', -, -, heq⟩ := skipClosingTag_spec hr hopens
      have hnone := hmore.errors_eq_nil (skipClosingTag_further hr hopens).1.inStep herrors
      rw [heq] at hnone
      simp at hnone
  | @flat _ _ _ _ node nodes hnode hmore ih =>
      intro other hother
      have hfurther := (hnode.further hr).1
      rcases occurs_append (show Occurs other ([node] ++ nodes) from hother) with hfirst | hrest
      · exact hnode.bracketed hr (hmore.errors_eq_nil hfurther.inStep herrors) other hfirst
      · exact ih hfurther.inStep herrors other hrest
  | @element _ r r₁ r₂ _ tag children nodes hopens htag _ _ hchildren hmore ihchildren ih =>
      intro other hother
      have hstart := (readStartTag_further hr hopens htag).1.toFurther
      have hbody := hchildren.further hstart.inStep
      have hclosing := readClosingTag_further hbody.inStep tag.name r.offset
      have hclosingErrors := hmore.errors_eq_nil hclosing.inStep herrors
      obtain ⟨hbodyErrors, -⟩ := readClosingTag_closes hbody.inStep hclosingErrors
      rcases occurs_append (show Occurs other ([_] ++ nodes) from hother) with hfirst | hrest
      · rcases occurs_singleton hfirst with rfl | hdeeper
        · exact bracketed_closed hr hopens htag
            (hchildren.errors_eq_nil hstart.inStep hbodyErrors) hbody
            (hchildren.rest_eq hstart.inStep rfl) hclosingErrors
        · exact ihchildren hstart.inStep hbodyErrors other hdeeper
      · exact ih hclosing.inStep herrors other hrest

/-- In a document without errors every element, at whatever depth, is bracketed by its
tags. -/
theorem error_free_document_bracketed (options : Options) (source : Text)
    (h : (parse options source).errors = []) :
    ∀ node, Occurs node (parse options source).nodes → node.Bracketed source := by
  obtain ⟨r, hreads, -, herrors⟩ := exists_reads_parse options source
  rw [h] at herrors
  exact hreads.bracketed (Reader.inStep_start source) herrors.symm

namespace BracketingWitness

/-- A list whose item is closed in other letters, with a void element and an element
that closes itself. -/
def source : Text := "<ul><li>a<br><i/></LI \n></ul>"

def item : Node :=
  .element ⟨4, 24⟩ "li" [] [.text ⟨8, 9⟩ "a" false, .element ⟨9, 13⟩ "br" [] [] true,
    .element ⟨13, 17⟩ "i" [] [] true] false

theorem parse_source :
    parse {} source = ⟨⟨0, 29⟩, [.element ⟨0, 29⟩ "ul" [] [item] false], []⟩ := by
  decide +kernel

end BracketingWitness

open BracketingWitness in
theorem list_item_bracketed :
    (parse {} source).errors = [] ∧ Occurs item (parse {} source).nodes ∧
      item.Bracketed source := by
  have herrors : (parse {} source).errors = [] := by rw [parse_source]
  have hitem : Occurs item (parse {} source).nodes := by
    rw [parse_source]
    exact .deeper (List.mem_singleton.mpr rfl) (.here (List.mem_singleton.mpr rfl))
  exact ⟨herrors, hitem, error_free_document_bracketed {} source herrors item hitem⟩

end Component.Markup
