/-
Progress of reading.

The reader of a document half read is in step with the source at every construct,
start tag, attribute, value and closing tag.  Every construct that is read takes the
reader further on, and every turn of the attribute loop leaves fewer tokens, so that
reading ends at the end of the source.
-/
import Mathlib.Logic.Function.Iterate
import Component.Proofs.Markup.Construct

namespace Component.Markup

namespace Builder

@[simp] theorem add_reader (b : Builder) (node : Node) : (b.add node).reader = b.reader := by
  rcases b with ⟨r, _ | ⟨element, outer⟩, nodes⟩ <;> rfl

@[simp] theorem length_stack_add (b : Builder) (node : Node) :
    (b.add node).stack.length = b.stack.length := by
  rcases b with ⟨r, _ | ⟨element, outer⟩, nodes⟩ <;> rfl

theorem close_of_stack {b : Builder} {element : OpenElement} {outer : List OpenElement}
    (hstack : b.stack = element :: outer) :
    b.close = (⟨readClosingTag element.name element.start b.reader, outer, b.nodes⟩ : Builder).add
      (.element ⟨element.start, (readClosingTag element.name element.start b.reader).offset⟩
        element.name element.attributes element.children false) := by
  simp only [close, hstack]

theorem length_stack_close (b : Builder) : b.close.stack.length = b.stack.length - 1 := by
  cases hstack : b.stack with
  | nil => simp [close, hstack]
  | cons element outer => simp [close_of_stack hstack]

theorem finish_eq_iterate (b : Builder) : b.finish = close^[b.stack.length] b :=
  List.foldl_const close b b.stack

theorem finish_close {b : Builder} (hstack : b.stack ≠ []) : b.close.finish = b.finish := by
  have hpos := List.length_pos_iff.mpr hstack
  obtain ⟨height, hheight⟩ := Nat.exists_eq_add_of_le' hpos
  rw [finish_eq_iterate b, hheight, Function.iterate_succ_apply, finish_eq_iterate,
    length_stack_close, hheight]
  rfl

theorem close_further {source : Text} {b : Builder} (h : b.reader.InStep source)
    (hstack : b.stack ≠ []) : Reader.Further source b.reader b.close.reader := by
  obtain ⟨element, outer, heq⟩ := List.exists_cons_of_ne_nil hstack
  rw [close_of_stack heq, add_reader]
  exact readClosingTag_further h _ _

theorem close_rest_eq_nil {b : Builder} (hrest : b.reader.rest = []) :
    b.close.reader.rest = [] := by
  cases hstack : b.stack with
  | nil => simpa [close, hstack] using hrest
  | cons element outer =>
      have hopens : opensClosingTag b.reader.rest = false := by
        rw [hrest]
        rfl
      rw [close_of_stack hstack, add_reader, readClosingTag_of_not_opens hopens]
      exact hrest

theorem openElement_further {source : Text} {b : Builder} (options : Options)
    (h : b.reader.InStep source) (hopens : opensTag b.reader.rest = true) :
    Reader.Further source b.reader (b.openElement options).reader ∧
      b.reader.offset < (b.openElement options).reader.offset := by
  obtain ⟨htag, -, -, hordered⟩ := readStartTag_spec h hopens
  have hpassed : b.reader.offset < (readStartTag b.reader).2.offset := by
    have hle := hordered.le
    omega
  have hwhole : ∀ r, Reader.Further source (readStartTag b.reader).2 r →
      Reader.Further source b.reader r ∧ b.reader.offset < r.offset := by
    intro r hr
    exact ⟨htag.toFurther.trans hr, Nat.lt_of_lt_of_le hpassed hr.offset_le⟩
  unfold openElement
  simp only
  split_ifs
  · rw [add_reader]
    exact ⟨htag.toFurther, hpassed⟩
  · rw [close_of_stack rfl, add_reader]
    dsimp only
    have hraw := (readRawText_spec htag.inStep (readStartTag b.reader).1.name).1
    have hclosing := readClosingTag_further hraw.inStep (readStartTag b.reader).1.name
      b.reader.offset
    exact hwhole _ (hraw.toFurther.trans hclosing)
  · exact ⟨htag.toFurther, hpassed⟩

/-- Every construct takes the reader further on. -/
theorem step_further {source : Text} {b : Builder} (options : Options)
    (h : b.reader.InStep source) (hrest : b.reader.rest ≠ []) :
    Reader.Further source b.reader (b.step options).reader ∧
      b.reader.offset < (b.step options).reader.offset := by
  unfold step
  split_ifs with hclosing hstack hcomment htag
  · exact skipClosingTag_further h hclosing
  · have hne : b.stack ≠ [] := by simpa using hstack
    refine ⟨close_further h hne, ?_⟩
    obtain ⟨element, outer, heq⟩ := List.exists_cons_of_ne_nil hne
    rw [close_of_stack heq, add_reader]
    exact (readClosingTag_of_opens h hclosing _ _).2
  · simp only [add_reader]
    exact readComment_further h hcomment
  · exact openElement_further options h htag
  · simp only [add_reader]
    have hopens := opensMarkup_eq_false (Bool.eq_false_iff.mpr htag)
      (Bool.eq_false_iff.mpr hclosing) (Bool.eq_false_iff.mpr hcomment)
    exact readText_further h hrest hopens

theorem run_rest_eq_nil {source : Text} (options : Options) (steps : Nat) (b : Builder)
    (h : b.reader.InStep source) (hsteps : b.reader.rest.length ≤ steps) :
    (run options steps b).reader.rest = [] := by
  induction steps generalizing b with
  | zero => exact List.length_eq_zero_iff.mp (Nat.le_zero.mp hsteps)
  | succ steps ih =>
      by_cases hrest : b.reader.rest = []
      · simp [run, hrest]
      · obtain ⟨hfurther, hpassed⟩ := step_further options h hrest
        have hshorter := hfurther.length_rest_lt hpassed
        have hnot : b.reader.rest.isEmpty = false := List.isEmpty_eq_false_iff.mpr hrest
        rw [run, hnot]
        exact ih (b.step options) hfurther.inStep (by omega)

/-- The builders that reading a source goes through: one construct after another is
read, and at the end of the source the open elements are ended from the innermost on. -/
inductive Reached (options : Options) (source : Text) : Builder → Prop where
  | start : Reached options source ⟨.start source, [], []⟩
  | step {b : Builder} (hb : Reached options source b) (hrest : b.reader.rest ≠ []) :
      Reached options source (b.step options)
  | close {b : Builder} (hb : Reached options source b) (hrest : b.reader.rest = [])
      (hstack : b.stack ≠ []) : Reached options source b.close

theorem Reached.inStep {options : Options} {source : Text} {b : Builder}
    (h : b.Reached options source) : b.reader.InStep source := by
  induction h with
  | start => exact Reader.inStep_start source
  | step _ hrest ih => exact (step_further options ih hrest).1.inStep
  | close _ _ hstack ih => exact (close_further ih hstack).inStep

theorem Reached.run {options : Options} {source : Text} {b : Builder}
    (h : b.Reached options source) (steps : Nat) :
    (Builder.run options steps b).Reached options source := by
  induction steps generalizing b with
  | zero => exact h
  | succ steps ih =>
      by_cases hrest : b.reader.rest = []
      · simpa [Builder.run, hrest] using h
      · have hnot : b.reader.rest.isEmpty = false := List.isEmpty_eq_false_iff.mpr hrest
        rw [Builder.run, hnot]
        exact ih (.step h hrest)

theorem Reached.finish {options : Options} {source : Text} {b : Builder}
    (h : b.Reached options source) (hrest : b.reader.rest = []) :
    b.finish.Reached options source ∧ b.finish.stack = [] := by
  induction hheight : b.stack.length generalizing b with
  | zero =>
      have hstack := List.length_eq_zero_iff.mp hheight
      rw [finish_eq_iterate, hheight]
      exact ⟨h, hstack⟩
  | succ height ih =>
      have hstack : b.stack ≠ [] := List.length_pos_iff.mp (by omega)
      rw [← finish_close hstack]
      apply ih (.close h hrest hstack) (close_rest_eq_nil hrest)
      rw [length_stack_close, hheight]
      rfl

end Builder

/-- Where reading decides how to go on: before a node, at a start tag, in its list of
attributes, at the value of an attribute, at the closing tag of an element, and at a
closing tag that closes nothing. -/
inductive Place where
  | nodes
  | element
  | attributes (known : List Attribute)
  | value (name : Text)
  | closingTag
  | strayClosingTag

/-- The readers with which a source is read, and the places they come to. -/
inductive Visits (options : Options) (source : Text) : Place → Reader → Prop where
  | nodes {b : Builder} (hb : b.Reached options source) : Visits options source .nodes b.reader
  | element {b : Builder} (hb : b.Reached options source)
      (hopens : opensTag b.reader.rest = true) : Visits options source .element b.reader
  | attributes {r : Reader} (hr : Visits options source .element r) :
      Visits options source (.attributes []) (r.expect .tagOpen).advance
  | turn {known known' : List Attribute} {r r' : Reader}
      (hr : Visits options source (.attributes known) r)
      (hturn : AttributeTurn known r known' r') : Visits options source (.attributes known') r'
  | value {known : List Attribute} {r : Reader}
      (hr : Visits options source (.attributes known) r)
      (hname : r.skipNewlines.kind = .name)
      (hequals : r.skipNewlines.advance.skipNewlines.kind = .equals) :
      Visits options source (.value r.skipNewlines.current.text)
        r.skipNewlines.advance.skipNewlines.advance.skipNewlines
  | rawBody {r : Reader} (hr : Visits options source .element r)
      (hopen : ((readStartTag r).1.selfClosed || isVoid (readStartTag r).1.name) = false)
      (hraw : options.isRawText (readStartTag r).1.name = true) :
      Visits options source .closingTag
        (readRawText (readStartTag r).1.name (readStartTag r).2).2
  | closingTag {b : Builder} (hb : b.Reached options source) (hstack : b.stack ≠ [])
      (hend : opensClosingTag b.reader.rest = true ∨ b.reader.rest = []) :
      Visits options source .closingTag b.reader
  | strayClosingTag {b : Builder} (hb : b.Reached options source) (hstack : b.stack = [])
      (hopens : opensClosingTag b.reader.rest = true) :
      Visits options source .strayClosingTag b.reader

theorem Visits.opensTag {options : Options} {source : Text} {r : Reader}
    (h : Visits options source .element r) : Markup.opensTag r.rest = true := by
  cases h with
  | element _ hopens => exact hopens

theorem Visits.inStep {options : Options} {source : Text} {place : Place} {r : Reader}
    (h : Visits options source place r) : r.InStep source := by
  induction h with
  | nodes hb => exact hb.inStep
  | element hb _ => exact hb.inStep
  | attributes _ ih => exact (ih.expect .tagOpen).inStep.advance.inStep
  | turn _ hturn ih => exact (hturn.onward ih).inStep
  | value _ _ _ ih =>
      have hequals := ih.skipNewlines.inStep.advance.inStep
      exact hequals.skipNewlines.inStep.advance.inStep.skipNewlines.inStep
  | rawBody hr _ _ ih =>
      have htag := (readStartTag_spec ih hr.opensTag).1
      exact (readRawText_spec htag.inStep _).1.inStep
  | closingTag hb _ _ => exact hb.inStep
  | strayClosingTag hb _ _ => exact hb.inStep

/-- Markup at the place of a reader begins with the reader's next token. -/
structure Reader.MeetsMarkup (r : Reader) : Prop where
  closingTag : opensClosingTag r.rest = true →
    r.kind = .closingOpen ∧ r.current.span.start = r.offset
  comment : opensComment r.rest = true →
    r.kind = .commentOpen ∧ r.current.span.start = r.offset
  tag : Markup.opensTag r.rest = true → r.kind = .tagOpen ∧ r.current.span.start = r.offset

theorem Reader.InStep.meetsMarkup {source : Text} {r : Reader} (h : r.InStep source) :
    r.MeetsMarkup where
  closingTag hopens := by
    obtain ⟨more, -, -, hcurrent⟩ := h.closingOpen hopens
    rw [Reader.kind, hcurrent]
    exact ⟨rfl, rfl⟩
  comment hopens := by
    rw [Reader.kind, h.commentOpen hopens]
    exact ⟨rfl, rfl⟩
  tag hopens := by
    obtain ⟨hkind, hstart, -⟩ := h.tagName hopens
    exact ⟨hkind, hstart⟩

/-- The span of a value without its delimiters. -/
def AttributeValue.inner : AttributeValue → Option Span
  | .absent => none
  | .text span _ => some span
  | .expression _ inner _ => some inner

/-- A value was read up to the token that ends it, which was passed as the last one;
or it has no end. -/
def ReadsUpTo (source : Text) (kind : TokenKind) (delimiter : Char)
    (read : Option AttributeValue × Reader) : Prop :=
  read.1 = none ∨ ∃ value start, ∃ last : Reader, read = (some value, last.advance) ∧
    last.InStep source ∧ value.inner = some ⟨start, last.offset⟩ ∧
    last.kind = kind ∧ last.current.span.start = last.offset ∧ last.current.text = [delimiter]

theorem Reader.InStep.delimiter {source : Text} {r : Reader} (h : r.InStep source)
    {delimiter : Char} {kind : TokenKind} {value tail : Text}
    (hrest : r.rest = value ++ delimiter :: tail) (hopens : opensLexeme delimiter = true)
    (hlexeme : lexeme delimiter tail = (some kind, [delimiter], tail)) :
    (r.seek (r.offset + value.size)).InStep source ∧
      (r.seek (r.offset + value.size)).current =
        ⟨kind, ⟨r.offset + value.size, r.offset + value.size + Text.size [delimiter]⟩,
          [delimiter]⟩ := by
  have hseek := h.seek hrest
  exact ⟨hseek.inStep, (hseek.inStep.front (Reader.seek_rest hrest) hopens hlexeme).2⟩

theorem readQuotedValue_readsUpTo {source : Text} {r : Reader} (h : r.InStep source) (name : Text)
    {quote : Char} {kind : TokenKind} (hopens : opensLexeme quote = true)
    (hlexeme : ∀ tail, lexeme quote tail = (some kind, [quote], tail)) :
    ReadsUpTo source kind quote (readQuotedValue name quote r) := by
  have hsplit := Text.breakBefore_append (fun t => t.head? == some quote) r.advance.rest
  have hsnd := Text.breakBefore_snd (fun t => t.head? == some quote) r.advance.rest
  unfold readQuotedValue
  simp only
  split_ifs with hempty
  · exact Or.inl rfl
  · have hne := mt List.isEmpty_iff.mpr hempty
    have hhead := beq_iff_eq.mp (hsnd.resolve_left hne)
    obtain ⟨tail, htail⟩ := List.head?_eq_some_iff.mp hhead
    rw [htail] at hsplit
    obtain ⟨hlast, hcurrent⟩ := h.advance.inStep.delimiter hsplit.symm hopens (hlexeme tail)
    refine Or.inr ⟨_, _, _, rfl, hlast, rfl, ?_, ?_, ?_⟩
    · rw [Reader.kind, hcurrent]
    · rw [hcurrent]
      rfl
    · rw [hcurrent]

theorem readExpressionValue_readsUpTo {source : Text} {r : Reader} (h : r.InStep source)
    (name : Text) : ReadsUpTo source .rightBrace '}' (readExpressionValue name r) := by
  unfold readExpressionValue
  simp only
  split
  · exact Or.inl rfl
  · rename_i value tail hvalue
    obtain ⟨hsplit, more, rfl⟩ := expressionFrom_eq_some hvalue
    obtain ⟨hlast, hcurrent⟩ := h.advance.inStep.delimiter hsplit rfl rfl
    refine Or.inr ⟨_, _, _, rfl, hlast, rfl, ?_, ?_, ?_⟩
    · rw [Reader.kind, hcurrent]
    · rw [hcurrent]
      rfl
    · rw [hcurrent]

/-- Values in quotes and in braces are read up to the token that ends them. -/
structure Reader.ReadsDelimited (source name : Text) (r : Reader) : Prop where
  doubleQuoted : r.kind = .doubleQuote → ReadsUpTo source .doubleQuote '"' (readValue name r)
  singleQuoted : r.kind = .singleQuote → ReadsUpTo source .singleQuote '\'' (readValue name r)
  braced : r.kind = .leftBrace → ReadsUpTo source .rightBrace '}' (readValue name r)

theorem Reader.InStep.readsDelimited {source : Text} {r : Reader} (h : r.InStep source)
    (name : Text) : r.ReadsDelimited source name where
  doubleQuoted hkind := by
    rw [readValue, hkind]
    exact readQuotedValue_readsUpTo h name rfl fun _ => rfl
  singleQuoted hkind := by
    rw [readValue, hkind]
    exact readQuotedValue_readsUpTo h name rfl fun _ => rfl
  braced hkind := by
    rw [readValue, hkind]
    exact readExpressionValue_readsUpTo h name

/-- Wherever reading comes to, the offset and the tokens of its reader are in step,
markup begins with the next token and values end with their delimiters.  Every
construct moves the offset on, every turn of the attribute loop leaves fewer tokens,
and so the loop is left in every tag and the source is read to its end. -/
theorem reading_stays_in_step_and_ends (options : Options) (source : Text) :
    (∀ place r, Visits options source place r → r.InStep source ∧ r.MeetsMarkup) ∧
      (∀ r, Visits options source .element r → r.expect .tagOpen = r.advance) ∧
      (∀ name r, Visits options source (.value name) r → r.ReadsDelimited source name) ∧
      (∀ b : Builder, b.Reached options source → b.reader.rest ≠ [] →
        b.reader.offset < (b.step options).reader.offset) ∧
      (∀ known r known' r', Visits options source (.attributes known) r →
        AttributeTurn known r known' r' → r'.tokens.length < r.tokens.length) ∧
      (∀ known r, Visits options source (.attributes known) r →
        ∃ known' r', ReadsAttributes known r known' r' ∧
          ∀ steps, r.tokens.length ≤ steps → readAttributes steps known r = (known', r')) ∧
      ∃ b : Builder, b = Builder.run options source.length ⟨.start source, [], []⟩ ∧
        b.Reached options source ∧ b.reader.rest = [] ∧
        b.finish.Reached options source ∧ b.finish.stack = [] ∧
        parse options source = ⟨⟨0, source.size⟩, b.finish.nodes, b.finish.reader.errors⟩ := by
  refine ⟨?_, ?_, ?_, ?_, ?_, ?_, ?_⟩
  · intro place r hr
    exact ⟨hr.inStep, hr.inStep.meetsMarkup⟩
  · intro r hr
    have hkind := (hr.inStep.meetsMarkup.tag hr.opensTag).1
    rw [Reader.expect, if_pos hkind]
  · intro name r hr
    exact hr.inStep.readsDelimited name
  · intro b hb hrest
    exact (Builder.step_further options hb.inStep hrest).2
  · intro known r known' r' hr hturn
    exact hturn.length_tokens_lt hr.inStep
  · intro known r hr
    have hreads := exists_readsAttributes r.tokens.length known r hr.inStep (Nat.le_refl _)
    exact ⟨_, _, hreads, fun steps hsteps => hreads.readAttributes_eq hr.inStep hsteps⟩
  · have hstart : Builder.Reached options source ⟨.start source, [], []⟩ := .start
    have hreached := hstart.run source.length
    have hrest := Builder.run_rest_eq_nil options source.length ⟨.start source, [], []⟩
      (Reader.inStep_start source) (Nat.le_refl _)
    obtain ⟨hfinish, hstack⟩ := hreached.finish hrest
    exact ⟨_, rfl, hreached, hrest, hfinish, hstack, rfl⟩

namespace ProgressWitness

/-- A bare value that takes the first half of the token `/>`. -/
def source : Text := "<a b=c/></a>"

def afterName : Reader := ((Reader.start source).expect .tagOpen).advance

def bare : Attribute := ⟨⟨3, 7⟩, ⟨3, 4⟩, "b", .text ⟨5, 7⟩ "c/"⟩

def afterValue : Reader := (readAttribute afterName.skipNewlines).2

end ProgressWitness

open ProgressWitness in
theorem in_step_after_half_token :
    Visits ⟨[]⟩ source (.attributes [bare]) afterValue ∧
      (afterValue.InStep source ∧ afterValue.MeetsMarkup) ∧
      afterValue.offset = 7 ∧ afterValue.kind = .closingOpen ∧
      afterValue.current.span.start = 8 := by
  have hvisits : Visits ⟨[]⟩ source (.attributes ([] ++ [bare])) afterValue :=
    .turn (.attributes (.element .start rfl)) (.kept rfl rfl rfl)
  refine ⟨hvisits, (reading_stays_in_step_and_ends ⟨[]⟩ source).1 _ _ hvisits, ?_, ?_, ?_⟩
  all_goals decide

end Component.Markup
