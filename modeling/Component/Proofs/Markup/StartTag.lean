/-
What is read of a start tag.

Every value, attribute and start tag is read by a reader that stays in step, the
spans of a tag's attributes follow one another inside the tag, and names and values
are the texts that their spans cover.
-/
import Component.Markup.Document
import Component.Proofs.Markup.InStep

namespace Component

theorem Span.read_append (before text after : Text) :
    (Span.mk before.size (before.size + text.size)).read (before ++ (text ++ after)) = text := by
  rw [Span.read, Text.slice, Text.dropBytes_size_append, Nat.add_sub_cancel_left,
    Text.takeBytes_size_append]

theorem Text.breakBefore_snd (p : Text → Bool) (t : Text) :
    (breakBefore p t).2 = [] ∨ p (breakBefore p t).2 = true := by
  induction t with
  | nil => exact Or.inl rfl
  | cons c rest ih =>
      by_cases hp : p (c :: rest) = true
      · right
        simp [breakBefore, hp]
      · simpa [breakBefore, hp] using ih

namespace Markup

theorem Reader.InStep.read {source : Text} {r : Reader} (h : r.InStep source)
    {gap text more : Text} (hrest : r.rest = gap ++ (text ++ more)) :
    (Span.mk (r.offset + gap.size) (r.offset + gap.size + text.size)).read source = text := by
  obtain ⟨before, hsource, hoffset⟩ := h.boundary
  have hread := Span.read_append (before ++ gap) text more
  rw [Text.size_append, ← hoffset] at hread
  rw [hsource, hrest, ← List.append_assoc]
  exact hread

theorem Reader.InStep.read_front {source : Text} {r : Reader} (h : r.InStep source)
    {text more : Text} (hrest : r.rest = text ++ more) :
    (Span.mk r.offset (r.offset + text.size)).read source = text := by
  have hread := h.read (show r.rest = [] ++ (text ++ more) from hrest)
  exact hread

theorem Reader.InStep.read_current {source : Text} {r : Reader} (h : r.InStep source)
    (hkind : r.kind ≠ .endOfFile) : r.current.span.read source = r.current.text := by
  obtain ⟨gap, text, more, hnext⟩ := h.hasNext hkind
  rw [hnext.span_eq, hnext.text_eq]
  exact h.read hnext.rest_eq

/-- The text of a value is what its span covers. -/
def AttributeValue.ReadsFrom (source : Text) : AttributeValue → Prop
  | .absent => True
  | .text span value => span.read source = value
  | .expression _ inner value => inner.read source = value

/-- The name and the value of an attribute are what their spans cover. -/
def Attribute.ReadsFrom (source : Text) (a : Attribute) : Prop :=
  a.nameSpan.read source = a.name ∧ a.value.ReadsFrom source

theorem expressionFrom_eq_some {s : BraceState} {t value tail : Text}
    (h : expressionFrom s t = some (value, tail)) :
    t = value ++ tail ∧ ∃ more, tail = '}' :: more := by
  induction t generalizing s value with
  | nil => simp [expressionFrom] at h
  | cons c rest ih =>
      have hstep : (∃ s', (expressionFrom s' rest).map (fun cut => (c :: cut.1, cut.2)) =
          some (value, tail)) ∨ (c = '}' ∧ value = [] ∧ tail = c :: rest) := by
        unfold expressionFrom at h
        simp only at h
        split at h
        · split_ifs at h <;> exact Or.inl ⟨_, h⟩
        · split_ifs at h with _ _ hbrace
          all_goals first
            | exact Or.inl ⟨_, h⟩
            | (simp only [Option.some.injEq, Prod.mk.injEq] at h
               exact Or.inr ⟨hbrace, h.1.symm, h.2.symm⟩)
      rcases hstep with ⟨s', hmap⟩ | ⟨rfl, rfl, rfl⟩
      · obtain ⟨⟨body, tail'⟩, hbody, heq⟩ := Option.map_eq_some_iff.mp hmap
        simp only [Prod.mk.injEq] at heq
        obtain ⟨rfl, rfl⟩ := heq
        obtain ⟨rfl, hmore⟩ := ih hbody
        exact ⟨rfl, hmore⟩
      · exact ⟨rfl, rest, rfl⟩

theorem readQuotedValue_spec {source : Text} {r : Reader} (h : r.InStep source) (name : Text)
    (quote : Char) :
    Reader.Onward source r (readQuotedValue name quote r).2 ∧
      ∀ value ∈ (readQuotedValue name quote r).1, value.ReadsFrom source := by
  have hadvance := h.advance
  have hsplit := Text.breakBefore_append (fun t => t.head? == some quote) r.advance.rest
  unfold readQuotedValue
  simp only
  split_ifs
  · refine ⟨hadvance.trans ?_, by simp⟩
    have hreport := hadvance.inStep.onward_report (.unterminatedAttributeValue name) rfl
      r.current.span
    exact hreport.trans hreport.inStep.seekEnd
  · have hseek := hadvance.inStep.seek hsplit.symm
    refine ⟨hadvance.trans (hseek.trans hseek.inStep.advance), ?_⟩
    intro value hvalue
    simp only [Option.mem_def, Option.some.injEq] at hvalue
    rw [← hvalue]
    exact hadvance.inStep.read_front hsplit.symm

theorem readBareValue_spec {source : Text} {r : Reader} (h : r.InStep source)
    (hkind : r.kind ≠ .endOfFile) :
    Reader.Onward source r (readBareValue r).2 ∧ (readBareValue r).1.ReadsFrom source := by
  obtain ⟨gap, text, more, hnext⟩ := h.hasNext hkind
  have hdrop : Text.dropBytes (r.offset + gap.size - r.offset) r.rest = text ++ more := by
    rw [Nat.add_sub_cancel_left, hnext.rest_eq, Text.dropBytes_size_append]
  unfold readBareValue
  simp only [hnext.span_eq, hdrop]
  set value := (text ++ more).takeWhile fun c => !(isBlank c || c == '>') with hvalue
  have hrest : r.rest =
      gap ++ (value ++ (text ++ more).dropWhile fun c => !(isBlank c || c == '>')) := by
    rw [hvalue, List.takeWhile_append_dropWhile, hnext.rest_eq]
  refine ⟨?_, h.read hrest⟩
  have hseek := h.seek (hrest.trans (List.append_assoc _ _ _).symm)
  rwa [Text.size_append, ← Nat.add_assoc] at hseek

theorem readExpressionValue_spec {source : Text} {r : Reader} (h : r.InStep source) (name : Text) :
    Reader.Onward source r (readExpressionValue name r).2 ∧
      ∀ value ∈ (readExpressionValue name r).1, value.ReadsFrom source := by
  have hadvance := h.advance
  unfold readExpressionValue
  simp only
  split
  · refine ⟨hadvance.trans ?_, by simp⟩
    have hreport := hadvance.inStep.onward_report (.unterminatedAttributeValue name) rfl
      r.current.span
    exact hreport.trans hreport.inStep.seekEnd
  · rename_i value tail hvalue
    obtain ⟨hsplit, -⟩ := expressionFrom_eq_some hvalue
    have hseek := hadvance.inStep.seek hsplit
    refine ⟨hadvance.trans (hseek.trans hseek.inStep.advance), ?_⟩
    intro found hfound
    simp only [Option.mem_def, Option.some.injEq] at hfound
    rw [← hfound]
    exact hadvance.inStep.read_front hsplit

theorem readValue_spec {source : Text} {r : Reader} (h : r.InStep source) (name : Text) :
    Reader.Onward source r (readValue name r).2 ∧
      ∀ value ∈ (readValue name r).1, value.ReadsFrom source := by
  have hbare : r.kind ≠ .endOfFile → Reader.Onward source r (readBareValue r).2 ∧
      ∀ value ∈ some (readBareValue r).1, value.ReadsFrom source := by
    intro hkind
    obtain ⟨honward, hreads⟩ := readBareValue_spec h hkind
    refine ⟨honward, fun value hvalue => ?_⟩
    rw [Option.mem_def, Option.some.injEq] at hvalue
    rwa [← hvalue]
  unfold readValue
  split
  · exact readQuotedValue_spec h name _
  · exact readQuotedValue_spec h name _
  · exact readExpressionValue_spec h name
  · exact hbare (by simp [*])
  · exact hbare (by simp [*])
  · exact ⟨h.reportHere _ rfl, by simp⟩

theorem readAttribute_spec {source : Text} {r : Reader} (h : r.InStep source)
    (hkind : r.kind = .name) :
    Reader.Onward source r (readAttribute r).2 ∧
      r.current.span.start < (readAttribute r).2.offset ∧
      ∀ a ∈ (readAttribute r).1, a.ReadsFrom source ∧ r.offset ≤ a.span.start ∧
        a.span.start < a.span.stop ∧ a.span.stop = (readAttribute r).2.offset := by
  have hne : r.kind ≠ .endOfFile := by simp [hkind]
  obtain ⟨gap, text, more, hnext⟩ := h.hasNext hne
  have hstart : r.offset ≤ r.current.span.start := by
    rw [hnext.span_eq]
    exact Nat.le_add_right _ _
  have hname := h.read_current hne
  have hskip := h.advance.trans h.advance.inStep.skipNewlines
  have hpassed := Nat.lt_of_lt_of_le hnext.start_lt_advance h.advance.inStep.skipNewlines.offset_le
  unfold readAttribute
  simp only
  split_ifs with hequals
  · have hvalueStart := hskip.inStep.advance.trans hskip.inStep.advance.inStep.skipNewlines
    obtain ⟨hvalue, hreads⟩ := readValue_spec hvalueStart.inStep r.current.text
    have hpassed' := Nat.lt_of_lt_of_le hpassed (hvalueStart.trans hvalue).offset_le
    refine ⟨hskip.trans (hvalueStart.trans hvalue), hpassed', ?_⟩
    intro a ha
    obtain ⟨value, hfound, rfl⟩ := Option.map_eq_some_iff.mp ha
    exact ⟨⟨hname, hreads value hfound⟩, hstart, hpassed', rfl⟩
  · refine ⟨hskip, hpassed, ?_⟩
    intro a ha
    simp only [Option.map_some, Option.mem_def, Option.some.injEq] at ha
    subst ha
    exact ⟨⟨hname, trivial⟩, hstart, hpassed, rfl⟩

/-- One turn of the attribute loop after which the loop goes on: an attribute is kept,
an attribute of a known name is dropped, or a token that begins no attribute is
passed over. -/
inductive AttributeTurn : List Attribute → Reader → List Attribute → Reader → Prop where
  | kept {known : List Attribute} {r r' : Reader} {a : Attribute}
      (hkind : r.skipNewlines.kind = .name)
      (hread : readAttribute r.skipNewlines = (some a, r'))
      (hnew : known.any (·.name == a.name) = false) : AttributeTurn known r (known ++ [a]) r'
  | dropped {known : List Attribute} {r r' : Reader} {a : Attribute}
      (hkind : r.skipNewlines.kind = .name)
      (hread : readAttribute r.skipNewlines = (some a, r'))
      (hknown : known.any (·.name == a.name) = true) :
      AttributeTurn known r known (r'.report (.duplicateAttribute a.name) a.span)
  | passedOver {known : List Attribute} {r : Reader}
      (hkind : r.skipNewlines.kind ∉ [.tagClose, .selfClose, .endOfFile, .name]) :
      AttributeTurn known r known (r.skipNewlines.reportHere
        (.unexpectedToken .attributeName r.skipNewlines.kind)).advance

/-- The turn at which the attribute loop is left: at the end of the tag or of the
source, or after an attribute without a proper value. -/
inductive AttributesEnd : Reader → Reader → Prop where
  | tagEnd {r : Reader} (hkind : r.skipNewlines.kind ∈ [.tagClose, .selfClose, .endOfFile]) :
      AttributesEnd r r.skipNewlines
  | noValue {r r' : Reader} (hkind : r.skipNewlines.kind = .name)
      (hread : readAttribute r.skipNewlines = (none, r')) : AttributesEnd r r'

/-- The attribute loop runs to its end. -/
inductive ReadsAttributes : List Attribute → Reader → List Attribute → Reader → Prop where
  | leave {known : List Attribute} {r r' : Reader} (hend : AttributesEnd r r') :
      ReadsAttributes known r known r'
  | turn {known known' known'' : List Attribute} {r r' r'' : Reader}
      (hturn : AttributeTurn known r known' r')
      (hmore : ReadsAttributes known' r' known'' r'') : ReadsAttributes known r known'' r''

theorem AttributesEnd.readAttributes_eq {r r' : Reader} (h : AttributesEnd r r') (steps : Nat)
    (known : List Attribute) : readAttributes (steps + 1) known r = (known, r') := by
  cases h with
  | tagEnd hkind =>
      simp only [List.mem_cons, List.not_mem_nil, or_false] at hkind
      rcases hkind with hkind | hkind | hkind <;> simp [readAttributes, hkind]
  | noValue hkind hread => simp [readAttributes, hkind, hread]

theorem AttributeTurn.readAttributes_eq {known known' : List Attribute} {r r' : Reader}
    (h : AttributeTurn known r known' r') (steps : Nat) :
    readAttributes (steps + 1) known r = readAttributes steps known' r' := by
  cases h with
  | kept hkind hread hnew =>
      rw [readAttributes]
      simp [hkind, hread, hnew]
  | dropped hkind hread hknown =>
      rw [readAttributes]
      simp [hkind, hread, hknown]
  | passedOver hkind =>
      rw [readAttributes]
      simp only [List.mem_cons, List.not_mem_nil, or_false, not_or] at hkind
      split <;> simp_all

theorem attributes_cases (known : List Attribute) (r : Reader) :
    (∃ r', AttributesEnd r r') ∨ ∃ known' r', AttributeTurn known r known' r' := by
  by_cases hname : r.skipNewlines.kind = .name
  · rcases hread : readAttribute r.skipNewlines with ⟨_ | a, r'⟩
    · exact Or.inl ⟨r', .noValue hname hread⟩
    · by_cases hknown : known.any (·.name == a.name) = true
      · exact Or.inr ⟨_, _, .dropped hname hread hknown⟩
      · exact Or.inr ⟨_, _, .kept hname hread (Bool.eq_false_iff.mpr hknown)⟩
  · by_cases hend : r.skipNewlines.kind ∈ [.tagClose, .selfClose, .endOfFile]
    · exact Or.inl ⟨_, .tagEnd hend⟩
    · refine Or.inr ⟨_, _, .passedOver ?_⟩
      simp only [List.mem_cons, List.not_mem_nil, or_false, not_or] at hend ⊢
      exact ⟨hend.1, hend.2.1, hend.2.2, hname⟩

theorem AttributesEnd.onward {source : Text} {r r' : Reader} (h : AttributesEnd r r')
    (hr : r.InStep source) : Reader.Onward source r r' := by
  cases h with
  | tagEnd _ => exact hr.skipNewlines
  | noValue hkind hread =>
      obtain ⟨honward, -⟩ := readAttribute_spec hr.skipNewlines.inStep hkind
      rw [hread] at honward
      exact hr.skipNewlines.trans honward

/-- Every turn passes the next token, and what it adds is an attribute of the text it
has passed. -/
theorem AttributeTurn.spec {source : Text} {known known' : List Attribute} {r r' : Reader}
    (h : AttributeTurn known r known' r') (hr : r.InStep source) :
    Reader.Onward source r.skipNewlines r' ∧ r.skipNewlines.current.span.start < r'.offset ∧
      (known' = known ∨ ∃ a, known' = known ++ [a] ∧ a.ReadsFrom source ∧
        r.skipNewlines.offset ≤ a.span.start ∧ a.span.start < a.span.stop ∧
        a.span.stop = r'.offset) := by
  have hskip := hr.skipNewlines.inStep
  cases h with
  | kept hkind hread hnew =>
      obtain ⟨honward, hpassed, hfound⟩ := readAttribute_spec hskip hkind
      rw [hread] at honward hpassed hfound
      exact ⟨honward, hpassed, Or.inr ⟨_, rfl, hfound _ rfl⟩⟩
  | dropped hkind hread hknown =>
      obtain ⟨honward, hpassed, -⟩ := readAttribute_spec hskip hkind
      rw [hread] at honward hpassed
      exact ⟨honward.trans (honward.inStep.onward_report _ rfl _), hpassed, Or.inl rfl⟩
  | passedOver hkind =>
      have hreport := hskip.reportHere
        (.unexpectedToken .attributeName r.skipNewlines.kind) rfl
      have hne : r.skipNewlines.kind ≠ .endOfFile := by
        intro hend
        exact hkind (by simp [hend])
      obtain ⟨gap, text, more, hnext⟩ := hreport.inStep.hasNext hne
      exact ⟨hreport.trans hreport.inStep.advance, hnext.start_lt_advance, Or.inl rfl⟩

theorem AttributeTurn.onward {source : Text} {known known' : List Attribute} {r r' : Reader}
    (h : AttributeTurn known r known' r') (hr : r.InStep source) : Reader.Onward source r r' :=
  hr.skipNewlines.trans (h.spec hr).1

theorem AttributeTurn.length_tokens_lt {source : Text} {known known' : List Attribute}
    {r r' : Reader} (h : AttributeTurn known r known' r') (hr : r.InStep source) :
    r'.tokens.length < r.tokens.length := by
  obtain ⟨honward, hpassed, -⟩ := h.spec hr
  have hskip := hr.skipNewlines
  exact Nat.lt_of_lt_of_le (honward.length_tokens_lt hskip.inStep hpassed)
    (hskip.length_tokens_le hr)

/-- Spans in the order of their places, without overlap, between two offsets. -/
def OrderedWithin (first last : Nat) : List Span → Prop
  | [] => first ≤ last
  | span :: more => first ≤ span.start ∧ span.start < span.stop ∧ OrderedWithin span.stop last more

theorem OrderedWithin.of_le {first first' last : Nat} {spans : List Span}
    (h : OrderedWithin first' last spans) (hle : first ≤ first') :
    OrderedWithin first last spans := by
  cases spans with
  | nil => exact Nat.le_trans hle h
  | cons span more => exact ⟨Nat.le_trans hle h.1, h.2⟩

theorem OrderedWithin.le_of_le {first last last' : Nat} {spans : List Span}
    (h : OrderedWithin first last spans) (hle : last ≤ last') :
    OrderedWithin first last' spans := by
  induction spans generalizing first with
  | nil => exact Nat.le_trans h hle
  | cons span more ih => exact ⟨h.1, h.2.1, ih h.2.2⟩

theorem OrderedWithin.le {first last : Nat} {spans : List Span}
    (h : OrderedWithin first last spans) : first ≤ last := by
  induction spans generalizing first with
  | nil => exact h
  | cons span more ih =>
      have hstop := ih h.2.2
      have hstart := h.1
      have hlength := h.2.1
      omega

theorem ReadsAttributes.spec {source : Text} {known known' : List Attribute} {r r' : Reader}
    (h : ReadsAttributes known r known' r') (hr : r.InStep source) :
    Reader.Onward source r r' ∧ ∃ found, known' = known ++ found ∧
      (∀ a ∈ found, a.ReadsFrom source) ∧
      OrderedWithin r.offset r'.offset (found.map Attribute.span) := by
  induction h with
  | leave hend =>
      have honward := hend.onward hr
      exact ⟨honward, [], by simp, by simp, honward.offset_le⟩
  | turn hturn hmore ih =>
      have honward := hturn.onward hr
      obtain ⟨-, -, hadded⟩ := hturn.spec hr
      obtain ⟨honward', found, rfl, hreads, hordered⟩ := ih honward.inStep
      refine ⟨honward.trans honward', ?_⟩
      rcases hadded with rfl | ⟨a, rfl, ha, hfirst, hlength, hlast⟩
      · exact ⟨found, rfl, hreads, hordered.of_le honward.offset_le⟩
      · refine ⟨a :: found, by simp, ?_, ?_, hlength, ?_⟩
        · intro b hb
          rcases List.mem_cons.mp hb with rfl | hmem
          · exact ha
          · exact hreads b hmem
        · exact Nat.le_trans hr.skipNewlines.offset_le hfirst
        · rw [hlast]
          exact hordered

theorem exists_readsAttributes {source : Text} (steps : Nat) (known : List Attribute) (r : Reader)
    (hr : r.InStep source) (hsteps : r.tokens.length ≤ steps) :
    ReadsAttributes known r (readAttributes steps known r).1 (readAttributes steps known r).2 := by
  induction steps generalizing known r with
  | zero => exact absurd (List.length_eq_zero_iff.mp (Nat.le_zero.mp hsteps)) hr.tokens_ne_nil
  | succ steps ih =>
      rcases attributes_cases known r with ⟨r', hend⟩ | ⟨known', r', hturn⟩
      · rw [hend.readAttributes_eq]
        exact .leave hend
      · rw [hturn.readAttributes_eq]
        have hlt := hturn.length_tokens_lt hr
        exact .turn hturn (ih known' r' (hturn.onward hr).inStep (by omega))

theorem ReadsAttributes.readAttributes_eq {source : Text} {known known' : List Attribute}
    {r r' : Reader} (h : ReadsAttributes known r known' r') (hr : r.InStep source) {steps : Nat}
    (hsteps : r.tokens.length ≤ steps) : readAttributes steps known r = (known', r') := by
  induction h generalizing steps with
  | @leave known r r' hend =>
      have hpos := List.length_pos_iff.mpr hr.tokens_ne_nil
      obtain ⟨steps, rfl⟩ := Nat.exists_eq_add_of_le' (Nat.le_trans hpos hsteps)
      exact hend.readAttributes_eq steps known
  | @turn known known' known'' r r' r'' hturn hmore ih =>
      have hlt := hturn.length_tokens_lt hr
      obtain ⟨steps, rfl⟩ := Nat.exists_eq_add_of_le' (Nat.le_trans (Nat.zero_lt_of_lt hlt) hsteps)
      rw [hturn.readAttributes_eq]
      exact ih (hturn.onward hr).inStep (by omega)

theorem exists_of_opensTag {t : Text} (h : opensTag t = true) :
    ∃ c rest, t = '<' :: c :: rest ∧ c.isAlpha = true := by
  unfold opensTag at h
  split at h
  · exact ⟨_, _, rfl, h⟩
  · exact absurd h (by decide)

theorem lexeme_tagOpen {c : Char} (h : c.isAlpha = true) (rest : Text) :
    lexeme '<' (c :: rest) = (some .tagOpen, ['<'], c :: rest) := by
  unfold lexeme
  split <;> simp_all

/-- A reader at a start tag meets `<` and then the name of the element. -/
theorem Reader.InStep.tagName {source : Text} {r : Reader} (h : r.InStep source)
    (hopens : opensTag r.rest = true) :
    r.kind = .tagOpen ∧ r.current.span.start = r.offset ∧
      ∃ name more : Text, name ≠ [] ∧ r.rest = '<' :: (name ++ more) ∧
        (r.expect .tagOpen).current.text = name ∧
        (r.expect .tagOpen).advance = ⟨more, r.offset + 1 + name.size,
          tokensAt (r.offset + 1 + name.size) more, r.errors⟩ := by
  obtain ⟨c, rest, hrest, halpha⟩ := exists_of_opensTag hopens
  obtain ⟨hopening, hcurrent⟩ := h.front hrest rfl (lexeme_tagOpen halpha rest)
  have hkind : r.kind = .tagOpen := by rw [Reader.kind, hcurrent]
  have hexpect : r.expect .tagOpen =
      ⟨c :: rest, r.offset + 1, tokensAt (r.offset + 1) (c :: rest), r.errors⟩ := by
    rw [Reader.expect, if_pos hkind]
    exact hopening.advance_eq
  have hlexeme := lexeme_of_isRunChar (isRunChar_of_isNamePart (isNamePart_of_isAlpha halpha)) rest
  have hname : (r.expect .tagOpen).HasNext [] (c :: rest.takeWhile isRunChar)
      (rest.dropWhile isRunChar) := by
    apply Reader.hasNext_of_tokens _ (List.cons_ne_nil _ _) (lexeme_kind_ne_endOfFile hlexeme)
    · rw [hexpect]
      exact tokensAt_token hlexeme _
    · rw [hexpect]
      simp [List.takeWhile_append_dropWhile]
  refine ⟨hkind, by rw [hcurrent], c :: rest.takeWhile isRunChar, rest.dropWhile isRunChar,
    List.cons_ne_nil _ _, ?_, hname.text_eq, ?_⟩
  · rw [hrest, List.cons_append, List.takeWhile_append_dropWhile]
  · rw [hname.advance_eq, hexpect]
    rfl

theorem readStartTag_spec {source : Text} {r : Reader} (h : r.InStep source)
    (hopens : opensTag r.rest = true) :
    Reader.Onward source r (readStartTag r).2 ∧
      (∃ more, r.rest = '<' :: ((readStartTag r).1.name ++ more)) ∧
      (∀ a ∈ (readStartTag r).1.attributes, a.ReadsFrom source) ∧
      OrderedWithin (r.offset + 1 + (readStartTag r).1.name.size) (readStartTag r).2.offset
        ((readStartTag r).1.attributes.map Attribute.span) := by
  obtain ⟨-, -, name, more, -, hrest, hname, hafter⟩ := h.tagName hopens
  have hstart := (h.expect .tagOpen).trans (h.expect .tagOpen).inStep.advance
  set r₁ := (r.expect .tagOpen).advance with hr₁
  have hreads := exists_readsAttributes r₁.tokens.length [] r₁ hstart.inStep (Nat.le_refl _)
  obtain ⟨honward, found, hfound, hfrom, hordered⟩ := hreads.spec hstart.inStep
  rw [List.nil_append] at hfound
  have hoffset : r₁.offset = r.offset + 1 + name.size := by rw [hafter]
  rw [hoffset, ← hfound] at hordered
  rw [← hfound] at hfrom
  have hend : ∀ r₂, Reader.Onward source (readAttributes r₁.tokens.length [] r₁).2 r₂ →
      Reader.Onward source r r₂ ∧ OrderedWithin (r.offset + 1 + name.size) r₂.offset
        ((readAttributes r₁.tokens.length [] r₁).1.map Attribute.span) := by
    intro r₂ honward₂
    exact ⟨hstart.trans (honward.trans honward₂), hordered.le_of_le honward₂.offset_le⟩
  unfold readStartTag
  simp only [← hr₁, hname]
  split_ifs
  · obtain ⟨hwhole, hinside⟩ := hend _ honward.inStep.advance
    exact ⟨hwhole, ⟨more, hrest⟩, hfrom, hinside⟩
  · obtain ⟨hwhole, hinside⟩ := hend _ (honward.inStep.expect .tagClose)
    exact ⟨hwhole, ⟨more, hrest⟩, hfrom, hinside⟩

end Markup

end Component
