/-
Texts at their places.

A span covers a text when the text stands in the source from the start of the span to
its end, character by character.  The texts, elements and attributes of a document are
covered by their spans, which stand in order, each inside the span of its element.
-/
import Component.Proofs.Markup.Tiling

namespace Component

namespace Span

/-- The text stands in the source from the start of the span to its end. -/
def Covers (span : Span) (source text : Text) : Prop :=
  ∃ before after : Text, source = before ++ (text ++ after) ∧
    span = ⟨before.size, before.size + text.size⟩

/-- The span ends where it begins or later, and within the source. -/
def Within (span : Span) (source : Text) : Prop :=
  span.start ≤ span.stop ∧ span.stop ≤ source.size

theorem Covers.read {span : Span} {source text : Text} (h : span.Covers source text) :
    span.read source = text := by
  obtain ⟨before, after, rfl, rfl⟩ := h
  exact read_append before text after

theorem Covers.stop_eq {span : Span} {source text : Text} (h : span.Covers source text) :
    span.stop = span.start + text.size := by
  obtain ⟨before, after, -, rfl⟩ := h
  rfl

theorem Covers.within {span : Span} {source text : Text} (h : span.Covers source text) :
    span.Within source := by
  obtain ⟨before, after, rfl, rfl⟩ := h
  constructor
  · exact Nat.le_add_right _ _
  · simp only [Text.size_append]
    omega

/-- A part of a covered text is covered by the same part of the span. -/
theorem Covers.part {span : Span} {source first text last : Text}
    (h : span.Covers source (first ++ (text ++ last))) :
    (Span.mk (span.start + first.size) (span.start + (first.size + text.size))).Covers
      source text := by
  obtain ⟨before, after, rfl, rfl⟩ := h
  refine ⟨before ++ first, last ++ after, by simp, ?_⟩
  simp only [Text.size_append, Nat.add_assoc]

theorem Covers.left {span : Span} {source text last : Text}
    (h : span.Covers source (text ++ last)) :
    (Span.mk span.start (span.start + text.size)).Covers source text := by
  have hpart := Covers.part (show span.Covers source ([] ++ (text ++ last)) from h)
  rwa [Text.size_nil, Nat.zero_add] at hpart

/-- What a span covers up to and with the next character. -/
theorem Covers.through {span : Span} {source text last : Text} {c : Char}
    (h : span.Covers source (text ++ c :: last)) :
    (Span.mk span.start (span.start + text.size + c.utf8Size)).Covers source (text ++ [c]) := by
  have hleft := Covers.left (show span.Covers source ((text ++ [c]) ++ last) by simpa using h)
  simpa [Nat.add_assoc] using hleft

theorem Covers.right {span : Span} {source first text : Text}
    (h : span.Covers source (first ++ text)) :
    (Span.mk (span.start + first.size) span.stop).Covers source text := by
  have hstop := h.stop_eq
  rw [Text.size_append] at hstop
  rw [hstop]
  exact Covers.part (show span.Covers source (first ++ (text ++ [])) by rwa [List.append_nil])

/-- Offsets into a text of less than 4 GiB keep all their bits. -/
theorem Within.ofOffsets_eq {start stop : Nat} {source : Text}
    (h : (Span.mk start stop).Within source) (hsize : source.size < UInt32.size) :
    ofOffsets start stop = ⟨start, stop⟩ := by
  obtain ⟨hordered, hend⟩ := h
  exact Span.ofOffsets_eq (Nat.lt_of_le_of_lt (Nat.le_trans hordered hend) hsize)
    (Nat.lt_of_le_of_lt hend hsize)

theorem Covers.slice {span inner : Span} {source text part : Text}
    (h : span.Covers source text) (hinner : inner.Covers text part)
    (hsize : source.size < UInt32.size) :
    (span.slice inner.start inner.stop).Covers source part := by
  obtain ⟨first, last, rfl, rfl⟩ := hinner
  rw [Span.slice, h.part.within.ofOffsets_eq hsize]
  exact h.part

theorem Covers.empty_stop {span : Span} {source text : Text} (h : span.Covers source text) :
    (Span.empty span.stop).Covers source [] := by
  obtain ⟨before, after, rfl, rfl⟩ := h
  exact ⟨before ++ text, after, by simp, by simp [empty]⟩

end Span

namespace Markup

theorem Tiles.orderedWithin {first last : Nat} {spans : List Span} (h : Tiles first last spans) :
    OrderedWithin first last spans := by
  induction spans generalizing first with
  | nil => exact Nat.le_of_eq h
  | cons span more ih => exact ⟨h.1.ge, h.2.1, ih h.2.2⟩

theorem OrderedWithin.sublist {first last : Nat} {spans spans' : List Span}
    (h : OrderedWithin first last spans) (hsub : spans'.Sublist spans) :
    OrderedWithin first last spans' := by
  induction hsub generalizing first with
  | slnil => exact h
  | cons span _ ih => exact (ih h.2.2).of_le (Nat.le_trans h.1 (Nat.le_of_lt h.2.1))
  | cons_cons span _ ih => exact ⟨h.1, h.2.1, ih h.2.2⟩

namespace Reader

theorem InStep.covers {source : Text} {r : Reader} (h : r.InStep source) {gap text more : Text}
    (hrest : r.rest = gap ++ (text ++ more)) :
    (Span.mk (r.offset + gap.size) (r.offset + gap.size + text.size)).Covers source text := by
  obtain ⟨before, hsource, hoffset⟩ := h.boundary
  refine ⟨before ++ gap, more, ?_, ?_⟩
  · rw [hsource, hrest, List.append_assoc]
  · rw [hoffset, Text.size_append]

/-- What was read from the next token on begins with the text of the token. -/
theorem HasNext.covers {source : Text} {r r' : Reader} {gap text more : Text}
    (h : r.HasNext gap text more) (hr : r.InStep source) (hfurther : Further source r.advance r') :
    ∃ tail, (Span.mk r.current.span.start r'.offset).Covers source (r.current.text ++ tail) := by
  obtain ⟨passed, hpassed, hoffset⟩ := hfurther.passed
  have hmore : more = passed ++ r'.rest := by
    rw [← hpassed, h.advance_eq]
  have hcovers := hr.covers (show r.rest = gap ++ ((text ++ passed) ++ r'.rest) by
    rw [h.rest_eq, hmore, List.append_assoc])
  have hstop : r'.offset = r.offset + gap.size + (text ++ passed).size := by
    rw [hoffset, h.advance_eq, Text.size_append, Nat.add_assoc]
  rw [h.span_eq, h.text_eq, hstop]
  exact ⟨passed, hcovers⟩

end Reader

/-- The span of an attribute covers a text that begins with its name. -/
def Attribute.Placed (source : Text) (a : Attribute) : Prop :=
  ∃ more, a.span.Covers source (a.name ++ more)

theorem readAttribute_placed {source : Text} {r : Reader} (h : r.InStep source)
    (hkind : r.kind = .name) : ∀ a ∈ (readAttribute r).1, a.Placed source := by
  obtain ⟨gap, text, more, hnext⟩ := h.hasNext (by simp [hkind])
  have hskip := h.advance.inStep.skipNewlines
  unfold readAttribute
  simp only
  split_ifs
  · have hequals := hskip.inStep.advance
    have hstart := hequals.trans hequals.inStep.skipNewlines
    have hvalue := (readValue_spec hstart.inStep r.current.text).1
    intro a ha
    obtain ⟨value, -, rfl⟩ := Option.map_eq_some_iff.mp ha
    exact hnext.covers h (hskip.trans (hstart.trans hvalue)).toFurther
  · intro a ha
    obtain ⟨value, -, rfl⟩ := Option.map_eq_some_iff.mp ha
    exact hnext.covers h hskip.toFurther

theorem readStartTag_attributes (r : Reader) :
    (readStartTag r).1.attributes = (readAttributes (r.expect .tagOpen).advance.tokens.length []
      (r.expect .tagOpen).advance).1 := by
  unfold readStartTag
  simp only
  split_ifs <;> rfl

section Attributes

variable {source : Text} {P : Attribute → Prop}
  (hread : ∀ (r r' : Reader) (a : Attribute), r.InStep source → r.kind = .name →
    readAttribute r = (some a, r') → P a)

include hread

theorem AttributeTurn.forall_mem {known known' : List Attribute} {r r' : Reader}
    (h : AttributeTurn known r known' r') (hr : r.InStep source) (hknown : ∀ a ∈ known, P a) :
    ∀ a ∈ known', P a := by
  cases h with
  | kept hkind hattribute _ =>
      intro a ha
      rcases List.mem_append.mp ha with hmem | hmem
      · exact hknown a hmem
      · rw [List.mem_singleton.mp hmem]
        exact hread _ _ _ hr.skipNewlines.inStep hkind hattribute
  | dropped _ _ _ => exact hknown
  | passedOver _ => exact hknown

theorem ReadsAttributes.forall_mem {known known' : List Attribute} {r r' : Reader}
    (h : ReadsAttributes known r known' r') (hr : r.InStep source) (hknown : ∀ a ∈ known, P a) :
    ∀ a ∈ known', P a := by
  induction h with
  | leave _ => exact hknown
  | turn hturn _ ih => exact ih (hturn.onward hr).inStep (hturn.forall_mem hread hr hknown)

/-- What holds of every attribute that is read holds of the attributes of a start tag. -/
theorem readStartTag_forall_mem {r r' : Reader} {tag : StartTag} (h : r.InStep source)
    (htag : readStartTag r = (tag, r')) : ∀ a ∈ tag.attributes, P a := by
  have hstart := (h.expect .tagOpen).inStep.advance.inStep
  have hattributes := readStartTag_attributes r
  rw [htag] at hattributes
  rw [hattributes]
  exact (exists_readsAttributes _ [] _ hstart (Nat.le_refl _)).forall_mem hread hstart (by simp)

end Attributes

theorem readStartTag_placed {source : Text} {r r' : Reader} {tag : StartTag} (h : r.InStep source)
    (htag : readStartTag r = (tag, r')) : ∀ a ∈ tag.attributes, a.Placed source := by
  refine readStartTag_forall_mem (fun r r' a hr hkind hread => ?_) h htag
  exact readAttribute_placed hr hkind a (by rw [hread]; rfl)

/-- A text is covered by its span, and the span of an element covers a text that begins
with `<` and its name.  The attributes are covered in the same way, the children stand
in order inside the element, and the body of a raw-text element is one text. -/
def Node.Placed (options : Options) (source : Text) : Node → Prop
  | .text span data _ => span.Covers source data
  | .comment _ _ => True
  | .element span name attributes children _ =>
      (∃ more, span.Covers source ('<' :: (name ++ more))) ∧
        (∀ a ∈ attributes, a.Placed source) ∧
        OrderedWithin span.start span.stop (children.map Node.span) ∧
        (options.isRawText name = true →
          children = [] ∨ ∃ inner data blank, children = [.text inner data blank])

/-- An element that was read from its start tag over its children to the reader `r'`. -/
theorem placed_element {options : Options} {source : Text} {r r₁ r₂ r' : Reader} {tag : StartTag}
    {children : List Node} (selfClosing : Bool) (h : r.InStep source)
    (hopens : opensTag r.rest = true) (htag : readStartTag r = (tag, r₁))
    (hchildren : OrderedWithin r₁.offset r₂.offset (children.map Node.span))
    (hfurther : Reader.Further source r r') (hle : r₂.offset ≤ r'.offset)
    (hraw : options.isRawText tag.name = true →
      children = [] ∨ ∃ inner data blank, children = [.text inner data blank]) :
    Node.Placed options source (.element ⟨r.offset, r'.offset⟩ tag.name tag.attributes children
      selfClosing) := by
  obtain ⟨honward, ⟨more, hrest⟩, -, hordered⟩ := readStartTag_spec h hopens
  simp only [htag] at honward hrest hordered
  have hname := hordered.le
  have hbody := hchildren.le
  refine ⟨?_, readStartTag_placed h htag, ?_, hraw⟩
  · obtain ⟨passed, hpassed, hoffset⟩ := hfurther.passed
    have hsplit : ('<' :: tag.name) ++ more = passed ++ r'.rest := by
      rw [← hpassed, hrest]
      rfl
    have hbracket : Text.size ('<' :: tag.name) = 1 + tag.name.size := rfl
    obtain ⟨tail, rfl⟩ := exists_append_of_size_le hsplit (by omega)
    refine ⟨tail, ?_⟩
    have hcovers := h.covers (show r.rest = [] ++ (('<' :: tag.name ++ tail) ++ r'.rest)
      from hpassed)
    rw [hoffset]
    exact hcovers
  · exact (hchildren.le_of_le hle).of_le honward.offset_le

theorem readRawText_placed {options : Options} {source : Text} {r r' : Reader} {name : Text}
    {children : List Node} (h : r.InStep source) (hbody : readRawText name r = (children, r')) :
    (children = [] ∨ ∃ inner data blank, children = [.text inner data blank]) ∧
      OrderedWithin r.offset r'.offset (children.map Node.span) ∧
      ∀ node, Occurs node children → node.Placed options source := by
  obtain ⟨-, data, hrest, -, hnodes⟩ := readRawText_spec h name
  obtain ⟨-, -, -, htiles⟩ := readRawText_accounted h name
  simp only [hbody] at hrest hnodes htiles
  refine ⟨?_, htiles.orderedWithin, ?_⟩
  · split_ifs at hnodes
    · exact Or.inl hnodes
    · exact Or.inr ⟨_, _, _, hnodes⟩
  · intro node hnode
    split_ifs at hnodes
    · rw [hnodes] at hnode
      exact absurd hnode (not_occurs_nil node)
    · rw [hnodes] at hnode
      rcases occurs_singleton hnode with rfl | hdeeper
      · exact h.covers (show r.rest = [] ++ (data ++ r'.rest) from hrest)
      · exact absurd hdeeper (not_occurs_nil node)

theorem ReadsFlat.placed {options : Options} {source : Text} {r r' : Reader} {node : Node}
    (h : ReadsFlat options r node r') (hr : r.InStep source) :
    ∀ other, Occurs other [node] → other.Placed options source := by
  intro other hother
  cases h with
  | comment hopens =>
      obtain ⟨data, hnode, -⟩ := readComment_spec hr hopens
      rw [hnode] at hother
      rcases occurs_singleton hother with rfl | hdeeper
      · exact trivial
      · exact absurd hdeeper (not_occurs_nil other)
  | text hrest hopens =>
      obtain ⟨-, data, -, hsplit, -, hnode⟩ := readText_spec hr hrest hopens
      rw [hnode] at hother
      rcases occurs_singleton hother with rfl | hdeeper
      · exact hr.covers (show r.rest = [] ++ (data ++ (readText r).2.rest) from hsplit)
      · exact absurd hdeeper (not_occurs_nil other)
  | leaf hopens htag _ =>
      have hstart := (readStartTag_further hr hopens htag).1
      rcases occurs_singleton hother with rfl | hdeeper
      · exact placed_element true hr hopens htag (Nat.le_refl r'.offset) hstart.toFurther
          (Nat.le_refl _) fun _ => Or.inl rfl
      · exact absurd hdeeper (not_occurs_nil other)
  | @raw r₁ r₂ tag children hopens htag _ _ hbody =>
      have hstart := (readStartTag_further hr hopens htag).1
      have hraw := (readRawText_spec hstart.inStep tag.name).1
      rw [hbody] at hraw
      have hclosing := readClosingTag_further hraw.inStep tag.name r.offset
      obtain ⟨hone, hordered, hplaced⟩ := readRawText_placed hstart.inStep hbody
      rcases occurs_singleton hother with rfl | hdeeper
      · exact placed_element false hr hopens htag hordered
          (hstart.toFurther.trans (hraw.toFurther.trans hclosing)) hclosing.offset_le
          fun _ => hone
      · exact hplaced other hdeeper

theorem Reads.orderedWithin {options : Options} {source : Text} {inside : Bool} {r r' : Reader}
    {nodes : List Node} (h : Reads options inside r nodes r') (hr : r.InStep source) :
    OrderedWithin r.offset r'.offset (nodes.map Node.span) := by
  induction h with
  | done _ => exact Nat.le_refl _
  | closing _ => exact Nat.le_refl _
  | stray hopens _ ih =>
      have hskip := (skipClosingTag_further hr hopens).1
      exact (ih hskip.inStep).of_le hskip.offset_le
  | flat hnode _ ih =>
      obtain ⟨hfurther, hpassed⟩ := hnode.further hr
      rw [List.map_cons, hnode.span_eq hr]
      exact ⟨Nat.le_refl _, hpassed, ih hfurther.inStep⟩
  | @element _ r r₁ r₂ _ tag _ _ hopens htag _ _ hchildren _ _ ih =>
      obtain ⟨hstart, hpassed⟩ := readStartTag_further hr hopens htag
      have hbody := hchildren.further hstart.inStep
      have hclosing := hbody.trans (readClosingTag_further hbody.inStep tag.name r.offset)
      have hle := hclosing.offset_le
      refine ⟨Nat.le_refl _, ?_, ih hclosing.inStep⟩
      simp only [Node.span]
      omega

theorem Occurs.mono {node : Node} {nodes nodes' : List Node} (h : Occurs node nodes)
    (hsub : nodes ⊆ nodes') : Occurs node nodes' := by
  cases h with
  | here hmem => exact .here (hsub hmem)
  | deeper hmem hdeeper => exact .deeper (hsub hmem) hdeeper

theorem occurs_cons {node first : Node} {more : List Node} (h : Occurs node (first :: more)) :
    Occurs node [first] ∨ Occurs node more :=
  occurs_append (show Occurs node ([first] ++ more) from h)

theorem Reads.placed {options : Options} {source : Text} {inside : Bool} {r r' : Reader}
    {nodes : List Node} (h : Reads options inside r nodes r') (hr : r.InStep source) :
    ∀ node, Occurs node nodes → node.Placed options source := by
  induction h with
  | done _ => exact fun node hnode => absurd hnode (not_occurs_nil node)
  | closing _ => exact fun node hnode => absurd hnode (not_occurs_nil node)
  | stray hopens _ ih => exact ih (skipClosingTag_further hr hopens).1.inStep
  | flat hnode _ ih =>
      intro node hoccurs
      rcases occurs_cons hoccurs with hfirst | hmore
      · exact hnode.placed hr node hfirst
      · exact ih (hnode.further hr).1.inStep node hmore
  | @element _ r r₁ r₂ _ tag _ _ hopens htag _ hraw hchildren _ ihchildren ih =>
      have hstart := (readStartTag_further hr hopens htag).1
      have hbody := hchildren.further hstart.inStep
      have hclosing := readClosingTag_further hbody.inStep tag.name r.offset
      intro node hoccurs
      rcases occurs_cons hoccurs with hfirst | hmore
      · rcases occurs_singleton hfirst with rfl | hdeeper
        · exact placed_element false hr hopens htag (hchildren.orderedWithin hstart.inStep)
            (hstart.toFurther.trans (hbody.trans hclosing)) hclosing.offset_le
            fun hraw' => absurd hraw' (by simp [hraw])
        · exact ihchildren hstart.inStep node hdeeper
      · exact ih hclosing.inStep node hmore

/-- Every node of a document is placed, and the nodes at top level stand in order. -/
theorem parse_placed (options : Options) (source : Text) :
    (∀ node, Occurs node (parse options source).nodes → node.Placed options source) ∧
      OrderedWithin 0 source.size ((parse options source).nodes.map Node.span) := by
  obtain ⟨r, hreads, hrest, -⟩ := exists_reads_parse options source
  have hstart := Reader.inStep_start source
  have hordered := hreads.orderedWithin hstart
  have hsize := (hreads.further hstart).inStep.offset_add_size
  rw [hrest] at hsize
  refine ⟨hreads.placed hstart, ?_⟩
  rwa [← hsize]

end Markup

end Component
