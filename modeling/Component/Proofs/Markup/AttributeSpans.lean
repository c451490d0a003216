/-
What the spans of attributes cover.

The span of an attribute with a value covers its name, `=` and the value with its delimiters,
and nothing else but whitespace around the `=`.  The span of an attribute without a value
goes on after the name: over all lines of whitespace that follow.
-/
import Component.Proofs.Markup.TagLayout

namespace Component.Markup

theorem Reader.InStep.exists_skips {source : Text} {r : Reader} (h : r.InStep source) :
    ∃ skipped, r.Skips skipped := by
  obtain ⟨cut, more, hrest, -, htokens⟩ := h.exists_tokens
  exact ⟨cut, more, hrest, htokens⟩

/-- The attribute is spelled in the source just where its span is. -/
def Attribute.SpelledAt (source : Text) (a : Attribute) : Prop :=
  ∃ before text more bare, source = before ++ (text ++ more) ∧
    a.span = ⟨before.size, before.size + text.size⟩ ∧ a.Spelled bare text more

theorem readAttribute_spelledAt {source : Text} {r r' : Reader} {a : Attribute}
    (hr : r.InStep source) (hkind : r.kind = .name) (hread : readAttribute r = (some a, r')) :
    a.SpelledAt source := by
  obtain ⟨skipped, hskips⟩ := hr.exists_skips
  have hsame : r.skipNewlines = r := Reader.skipNewlines_eq_self (by simp [hkind])
  obtain ⟨blanks, text, bare, -, -, hspelled, hspan, hpasses, -⟩ :=
    readAttribute_spelled hr hskips (by rw [hsame, hkind]) (by rw [hsame, hread])
  obtain ⟨before, hsource, hoffset⟩ := hr.boundary
  refine ⟨before ++ (skipped ++ blanks), text, r'.rest, bare, ?_, ?_, hspelled⟩
  · rw [hsource, hpasses.rest_eq]
    simp only [List.append_assoc]
  · rw [hspan, Text.size_append before, ← hoffset]

def Node.attributes : Node → List Attribute
  | .element _ _ attributes _ _ => attributes
  | _ => []

/-- Whatever is wrong in a source, the span of each attribute covers its name and, if there is
one, its value with everything in between; after a name without a value it covers the lines of
whitespace that follow, and otherwise it ends with the name. -/
theorem attribute_spans_cover_name_value_or_lines (options : Options) (source : Text) :
    ∀ node, Occurs node (parse options source).nodes →
      ∀ a ∈ node.attributes, a.SpelledAt source := by
  obtain ⟨r, hreads, -, -⟩ := exists_reads_parse options source
  obtain ⟨found, hfound, -⟩ := hreads.accounted (Reader.inStep_start source)
  intro node hnode a ha
  have hfaithful := hfound.faithful node hnode
  cases node with
  | text span data => exact absurd ha List.not_mem_nil
  | comment span data => exact absurd ha List.not_mem_nil
  | element span name attributes children selfClosing =>
      obtain ⟨tag, tagEnd, bodyEnd, ⟨r₁, r₂, hstep, -, htag, -⟩, -, hattributes, -⟩ := hfaithful
      apply readStartTag_forall_mem (fun _ _ _ => readAttribute_spelledAt) hstep htag
      rw [hattributes]
      exact ha

namespace AttributeSpansWitness

/-- A tag that is not closed, with a bare value and a name before an empty line. -/
def source : Text := "<p a = 'x' b=\n y/ c \n \n / d"

def paragraph : Node :=
  .element ⟨0, 27⟩ "p" [⟨⟨3, 10⟩, ⟨3, 4⟩, "a", .text ⟨8, 9⟩ "x"⟩,
    ⟨⟨11, 17⟩, ⟨11, 12⟩, "b", .text ⟨15, 17⟩ "y/"⟩, ⟨⟨18, 23⟩, ⟨18, 19⟩, "c", .absent⟩,
    ⟨⟨26, 27⟩, ⟨26, 27⟩, "d", .absent⟩] [] false

theorem parse_source : (parse {} source).nodes = [paragraph] := by
  decide +kernel

end AttributeSpansWitness

open AttributeSpansWitness in
theorem unclosed_paragraph_attributes_spelled :
    Occurs paragraph (parse {} source).nodes ∧ ∀ a ∈ paragraph.attributes, a.SpelledAt source := by
  have hoccurs : Occurs paragraph (parse {} source).nodes := by
    rw [parse_source]
    exact .here (List.mem_singleton.2 rfl)
  exact ⟨hoccurs, attribute_spans_cover_name_value_or_lines {} source paragraph hoccurs⟩

/-- The span of `b` does not end with the name, but with the line feed after it. -/
theorem valueless_span_takes_line_feed :
    ∃ a : Attribute, Occurs (.element ⟨0, 10⟩ "a" [a] [] false) (parse {} "<a b\n></a>").nodes ∧
      a.name = ['b'] ∧ a.value = .absent ∧ a.span.read "<a b\n></a>" = ['b', '\n'] ∧
      (parse {} "<a b\n></a>").errors = [] := by
  refine ⟨⟨⟨3, 5⟩, ⟨3, 4⟩, "b", .absent⟩, .here ?_, rfl, rfl, rfl, rfl⟩
  exact List.mem_singleton.2 rfl

end Component.Markup
