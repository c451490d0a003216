/-
The normal form of documents.

Whatever a source holds, no text of its document is empty or opens markup, and two texts
stand side by side only where a closing tag that closes nothing was left out between them.
Elements without a body have no children, a raw-text body is one text, and of the attributes
of one name a start tag keeps the first.
-/
import Mathlib.Data.List.Chain
import Component.Proofs.Markup.Placement
import Component.Proofs.Markup.Printing

namespace Component.Markup

/-! ### Texts -/

/-- The text begins with `<` and a letter, with `</` or with `<!--`. -/
def BeginsMarkup (t : Text) : Prop :=
  (∃ c rest, t = '<' :: c :: rest ∧ c.isAlpha = true) ∨ ['<', '/'] <+: t ∨
    ['<', '!', '-', '-'] <+: t

theorem BeginsMarkup.opensMarkup {t : Text} (h : BeginsMarkup t) : opensMarkup t = true := by
  unfold Markup.opensMarkup
  rcases h with ⟨c, rest, rfl, halpha⟩ | hclosing | hcomment
  · simp [opensTag, halpha]
  · simp [opensClosingTag, List.isPrefixOf_iff_prefix.mpr hclosing]
  · simp [opensComment, List.isPrefixOf_iff_prefix.mpr hcomment]

/-- The text stands in the source at its span, and at none of its characters does the source
go on with markup. -/
def OpensNoMarkup (source : Text) (span : Span) (data : Text) : Prop :=
  ∃ before after, source = before ++ (data ++ after) ∧
    span = ⟨before.size, before.size + data.size⟩ ∧
    ∀ c rest, c :: rest <:+ data → ¬ BeginsMarkup (c :: rest ++ after)

/-- A run of text goes on until markup opens, and opens none itself. -/
theorem readText_opensNoMarkup {source : Text} {r : Reader} (hr : r.InStep source)
    (hrest : r.rest ≠ []) (hopens : opensMarkup r.rest = false) :
    (∃ span data, (readText r).1 = .text span data data.isBlank ∧ data ≠ [] ∧
        OpensNoMarkup source span data) ∧
      ((readText r).2.rest = [] ∨ opensMarkup (readText r).2.rest = true) := by
  obtain ⟨-, data, hdata, hsplit, -, hnode⟩ := readText_spec hr hrest hopens
  have hcut : (Text.breakBefore opensMarkup r.rest).1 = data := (Node.text.inj hnode).2.1
  have hafter : (Text.breakBefore opensMarkup r.rest).2 = (readText r).2.rest := by
    apply (List.append_right_inj data).mp
    rw [← hsplit, ← hcut, Text.breakBefore_append]
  have hstop := Text.breakBefore_snd opensMarkup r.rest
  rw [hafter] at hstop
  obtain ⟨before, hsource, hoffset⟩ := hr.boundary
  refine ⟨⟨_, data, hnode, hdata, before, (readText r).2.rest, ?_, ?_, ?_⟩, hstop⟩
  · rw [hsource, hsplit]
  · rw [hoffset]
  · intro c rest hsuffix hbegins
    have hnot := Text.breakBefore_fst_not (p := opensMarkup) (hcut.symm ▸ hsuffix)
    rw [hafter, hbegins.opensMarkup] at hnot
    exact absurd hnot (by decide)

/-- A text is read where no markup opens, up to where some does. -/
theorem ReadsFlat.of_isText {options : Options} {source : Text} {r r' : Reader} {node : Node}
    (h : ReadsFlat options r node r') (hr : r.InStep source) (htext : node.isText = true) :
    opensMarkup r.rest = false ∧ (r.rest ≠ [] ∧ (r'.rest = [] ∨ opensMarkup r'.rest = true)) ∧
      ∃ span data, node = .text span data data.isBlank ∧ data ≠ [] ∧
        OpensNoMarkup source span data := by
  cases h with
  | comment hopens =>
      obtain ⟨_, hnode, -⟩ := readComment_spec hr hopens
      rw [hnode] at htext
      exact absurd htext Bool.false_ne_true
  | text hrest hopens =>
      obtain ⟨hplain, hstop⟩ := readText_opensNoMarkup hr hrest hopens
      exact ⟨hopens, ⟨hrest, hstop⟩, hplain⟩
  | leaf _ _ _ => exact absurd htext Bool.false_ne_true
  | raw _ _ _ _ _ => exact absurd htext Bool.false_ne_true

theorem Reads.opensNoMarkup {options : Options} {source : Text} {inside : Bool} {r r' : Reader}
    {nodes : List Node} (h : Reads options inside r nodes r') (hr : r.InStep source) :
    ∀ span data blank, .text span data blank ∈ nodes → OpensNoMarkup source span data := by
  induction h with
  | done _ => exact fun _ _ _ hmem => absurd hmem List.not_mem_nil
  | closing _ => exact fun _ _ _ hmem => absurd hmem List.not_mem_nil
  | stray hopens _ ih => exact ih (skipClosingTag_further hr hopens).1.inStep
  | flat hnode _ ih =>
      intro span data blank hmem
      rcases List.mem_cons.mp hmem with rfl | hmore
      · obtain ⟨-, -, _, _, heq, -, hplain⟩ := hnode.of_isText hr rfl
        cases heq
        exact hplain
      · exact ih (hnode.further hr).1.inStep span data blank hmore
  | @element _ r r₁ r₂ _ tag _ _ hopens htag _ _ hchildren _ _ ih =>
      have hstart := (readStartTag_further hr hopens htag).1
      have hbody := hchildren.further hstart.inStep
      have hclosing := readClosingTag_further hbody.inStep tag.name r.offset
      intro span data blank hmem
      rcases List.mem_cons.mp hmem with hfirst | hmore
      · cases hfirst
      · exact ih hclosing.inStep span data blank hmore

/-! ### Neighbours -/

/-- A closing tag that closes nothing was found between two offsets. -/
def StrayWithin (errors : List Error) (first last : Nat) : Prop :=
  ∃ e ∈ errors, (∃ name, e.fault = .unexpectedClosingTag name) ∧
    first ≤ e.span.start ∧ e.span.start < e.span.stop ∧ e.span.stop ≤ last

theorem skipClosingTag_strayWithin {source : Text} {r : Reader} (hr : r.InStep source)
    (hopens : opensClosingTag r.rest = true) :
    StrayWithin (skipClosingTag r).errors r.offset (skipClosingTag r).offset := by
  obtain ⟨name, r', -, hpassed, heq⟩ := skipClosingTag_spec hr hopens
  rw [heq, Reader.report_errors]
  refine ⟨_, List.mem_append_right _ (List.mem_singleton.mpr rfl), ⟨name, rfl⟩, ?_⟩
  exact ⟨Nat.le_refl _, hpassed, Nat.le_refl _⟩

theorem Reads.errors_subset {options : Options} {source : Text} {inside : Bool} {r r' : Reader}
    {nodes : List Node} (h : Reads options inside r nodes r') (hr : r.InStep source) :
    r.errors ⊆ r'.errors := by
  obtain ⟨found, hfound, -⟩ := h.accounted hr
  rw [hfound.errors_eq]
  exact List.subset_append_left _ _

/-- Two neighbours that are both texts stand outside all elements, apart by a closing tag
that closes nothing. -/
def Neighbours (inside : Bool) (errors : List Error) (a b : Node) : Prop :=
  a.isText = true → b.isText = true → inside = false ∧ StrayWithin errors a.span.stop b.span.start

/-- The invariant along a list of nodes: a text comes first only if no markup opens where
the list begins, or if a closing tag was left out before it. -/
theorem Reads.separated {options : Options} {source : Text} {inside : Bool} {r r' : Reader}
    {nodes : List Node} (h : Reads options inside r nodes r') (hr : r.InStep source) :
    nodes.IsChain (Neighbours inside r'.errors) ∧
      ∀ node ∈ nodes.head?, node.isText = true → (r.rest ≠ [] ∧ opensMarkup r.rest = false) ∨
        (inside = false ∧ StrayWithin r'.errors r.offset node.span.start) := by
  induction h with
  | done _ => exact ⟨List.isChain_nil, by simp⟩
  | closing _ => exact ⟨List.isChain_nil, by simp⟩
  | stray hopens hmore ih =>
      have hskip := (skipClosingTag_further hr hopens).1
      refine ⟨(ih hskip.inStep).1, ?_⟩
      intro node hnode _
      obtain ⟨e, he, hfault, hstart, hlt, hstop⟩ := skipClosingTag_strayWithin hr hopens
      have hordered := hmore.orderedWithin hskip.inStep
      obtain ⟨more, rfl⟩ := List.head?_eq_some_iff.mp hnode
      have hfirst := hordered.1
      exact Or.inr ⟨rfl, e, hmore.errors_subset hskip.inStep he, hfault, hstart, hlt,
        Nat.le_trans hstop hfirst⟩
  | flat hnode hmore ih =>
      obtain ⟨hchain, hhead⟩ := ih (hnode.further hr).1.inStep
      constructor
      · rw [List.isChain_cons]
        refine ⟨?_, hchain⟩
        intro next hnext htext hnextText
        obtain ⟨-, ⟨-, hstop⟩, -⟩ := hnode.of_isText hr htext
        rcases hhead next hnext hnextText with ⟨hrest, hopens⟩ | hstray
        · rcases hstop with hend | hmarkup
          · exact absurd hend hrest
          · rw [hopens] at hmarkup
            exact absurd hmarkup Bool.false_ne_true
        · rw [hnode.span_eq hr]
          exact hstray
      · intro first hfirst htext
        cases hfirst
        obtain ⟨hopens, ⟨hrest, -⟩, -⟩ := hnode.of_isText hr htext
        exact Or.inl ⟨hrest, hopens⟩
  | @element _ r r₁ r₂ _ tag _ _ hopens htag _ _ hchildren _ _ ih =>
      have hstart := (readStartTag_further hr hopens htag).1
      have hbody := hchildren.further hstart.inStep
      have hclosing := readClosingTag_further hbody.inStep tag.name r.offset
      constructor
      · rw [List.isChain_cons]
        exact ⟨fun _ _ htext => absurd htext Bool.false_ne_true, (ih hclosing.inStep).1⟩
      · intro first hfirst htext
        cases hfirst
        exact absurd htext Bool.false_ne_true

/-! ### Attributes -/

/-- The attributes that are read one after another up to the end of a tag, with those whose
name has come before.  The errors that are reported in between are left open. -/
inductive ReadsWritten : Reader → List Attribute → Reader → Prop where
  | leave {r r' : Reader} (hend : AttributesEnd r r') : ReadsWritten r [] r'
  | attribute {r r' r'' : Reader} {a : Attribute} {written : List Attribute} (errors : List Error)
      (hkind : r.skipNewlines.kind = .name)
      (hread : readAttribute r.skipNewlines = (some a, r'))
      (hmore : ReadsWritten { r' with errors := errors } written r'') :
      ReadsWritten r (a :: written) r''
  | passedOver {r r' : Reader} {written : List Attribute}
      (hkind : r.skipNewlines.kind ∉ [.tagClose, .selfClose, .endOfFile, .name])
      (hmore : ReadsWritten (r.skipNewlines.reportHere
        (.unexpectedToken .attributeName r.skipNewlines.kind)).advance written r') :
      ReadsWritten r written r'

/-- The attributes after one more is written: it is kept if its name is new. -/
def keepNew (known : List Attribute) (a : Attribute) : List Attribute :=
  if known.any (·.name == a.name) then known else known ++ [a]

/-- The span of an attribute that is read comes before all that is read after it. -/
theorem orderedWithin_cons_readAttribute {source : Text} {r r' : Reader} {a : Attribute}
    (hr : r.InStep source) (hkind : r.skipNewlines.kind = .name)
    (hread : readAttribute r.skipNewlines = (some a, r')) {last : Nat} {spans : List Span}
    (hordered : OrderedWithin r'.offset last spans) :
    OrderedWithin r.offset last (a.span :: spans) := by
  have hskip := hr.skipNewlines
  obtain ⟨-, -, hspan⟩ := readAttribute_spec hskip.inStep hkind
  rw [hread] at hspan
  obtain ⟨-, hstart, hlt, hstop⟩ := hspan a rfl
  refine ⟨Nat.le_trans hskip.offset_le hstart, hlt, ?_⟩
  rw [hstop]
  exact hordered

/-- A turn of the loop reads an attribute, which is kept if its name is new, or passes over
a token. -/
theorem AttributeTurn.keepNew_or_passedOver {known known' : List Attribute} {r r' : Reader}
    (h : AttributeTurn known r known' r') :
    (r.skipNewlines.kind = .name ∧ ∃ a r₁ errors,
      readAttribute r.skipNewlines = (some a, r₁) ∧ r' = { r₁ with errors := errors } ∧
        known' = keepNew known a) ∨
      (r.skipNewlines.kind ∉ [.tagClose, .selfClose, .endOfFile, .name] ∧
        r' = (r.skipNewlines.reportHere
          (.unexpectedToken .attributeName r.skipNewlines.kind)).advance ∧ known' = known) := by
  cases h with
  | @kept _ a hkind hread hnew =>
      refine Or.inl ⟨hkind, a, r', r'.errors, hread, rfl, ?_⟩
      simp [keepNew, hnew]
  | @dropped r₁ a hkind hread hknown =>
      refine Or.inl ⟨hkind, a, r₁, _, hread, rfl, ?_⟩
      simp [keepNew, hknown]
  | passedOver hkind => exact Or.inr ⟨hkind, rfl, rfl⟩

/-- The loop keeps what is written under a new name, and reads in the order of the source. -/
theorem ReadsAttributes.exists_written {source : Text} {known known' : List Attribute}
    {r r' : Reader} (h : ReadsAttributes known r known' r') (hr : r.InStep source) :
    ∃ written, ReadsWritten r written r' ∧ known' = written.foldl keepNew known ∧
      (∀ a ∈ written, a.Placed source) ∧
      OrderedWithin r.offset r'.offset (written.map Attribute.span) := by
  induction h with
  | leave hend => exact ⟨[], .leave hend, rfl, by simp, (hend.onward hr).offset_le⟩
  | turn hturn _ ih =>
      have honward := hturn.onward hr
      obtain ⟨written, hwritten, hkept, hplaced, hordered⟩ := ih honward.inStep
      rcases hturn.keepNew_or_passedOver with
        ⟨hkind, a, r₁, errors, hread, rfl, rfl⟩ | ⟨hkind, rfl, rfl⟩
      · have hfirst : a.Placed source :=
          readAttribute_placed hr.skipNewlines.inStep hkind a (by rw [hread]; rfl)
        exact ⟨a :: written, .attribute errors hkind hread hwritten, hkept,
          List.forall_mem_cons.mpr ⟨hfirst, hplaced⟩,
          orderedWithin_cons_readAttribute hr hkind hread hordered⟩
      · exact ⟨written, .passedOver hkind hwritten, hkept, hplaced,
          hordered.of_le honward.offset_le⟩

/-- Of what is written, the first attribute of each name is kept, in the same order. -/
structure KeepsFirst (written attributes : List Attribute) : Prop where
  distinct : (attributes.map Attribute.name).Nodup
  sublist : attributes.Sublist written
  first : ∀ name, attributes.find? (·.name == name) = written.find? (·.name == name)

theorem KeepsFirst.keepNew {written attributes : List Attribute}
    (h : KeepsFirst written attributes) (a : Attribute) :
    KeepsFirst (written ++ [a]) (keepNew attributes a) := by
  unfold Markup.keepNew
  split_ifs with hknown
  · refine ⟨h.distinct, h.sublist.trans (List.sublist_append_left _ _), ?_⟩
    intro name
    rw [List.find?_append, ← h.first]
    by_cases hname : a.name = name
    · -- An attribute of this name is known, so the search ends before the new one.
      have hsome : (attributes.find? (·.name == name)).isSome = true := by
        rw [List.find?_isSome, ← hname]
        exact List.any_eq_true.mp hknown
      obtain ⟨b, hb⟩ := Option.isSome_iff_exists.mp hsome
      rw [hb]
      rfl
    · simp [hname]
  · refine ⟨?_, h.sublist.append (List.Sublist.refl _), ?_⟩
    · rw [List.map_append, List.nodup_append]
      refine ⟨h.distinct, List.pairwise_singleton _ _, ?_⟩
      intro name hname other hother heq
      obtain ⟨b, hb, rfl⟩ := List.mem_map.mp hname
      rw [List.mem_singleton.mp hother] at heq
      exact hknown (List.any_eq_true.mpr ⟨b, hb, by simp [heq]⟩)
    · intro name
      rw [List.find?_append, List.find?_append, h.first]

theorem KeepsFirst.foldl {written attributes : List Attribute} (h : KeepsFirst written attributes)
    (more : List Attribute) :
    KeepsFirst (written ++ more) (more.foldl Markup.keepNew attributes) := by
  induction more generalizing written attributes with
  | nil => simpa using h
  | cons a more ih =>
      have hmore := ih (h.keepNew a)
      rwa [List.append_assoc] at hmore

/-- The attributes that the start tag of an element spells out, each at its place in the
source and in the order of their places. -/
def WrittenAt (source : Text) (span : Span) (written : List Attribute) : Prop :=
  ∃ r r' : Reader, r.InStep source ∧ r.offset = span.start ∧
    ReadsWritten (r.expect .tagOpen).advance written r' ∧ (∀ a ∈ written, a.Placed source) ∧
    OrderedWithin span.start span.stop (written.map Attribute.span)

/-- A start tag ends where its attributes end or later. -/
theorem readStartTag_attributes_end_le {source : Text} {r : Reader} (h : r.InStep source) :
    (readAttributes (r.expect .tagOpen).advance.tokens.length []
      (r.expect .tagOpen).advance).2.offset ≤ (readStartTag r).2.offset := by
  have hstart := (h.expect .tagOpen).inStep.advance.inStep
  have hreads := exists_readsAttributes _ [] _ hstart (Nat.le_refl _)
  have hinside := (hreads.spec hstart).1.inStep
  unfold readStartTag
  simp only
  split_ifs
  · exact hinside.advance.offset_le
  · exact (hinside.expect .tagClose).offset_le

theorem readStartTag_keepsFirst {source : Text} {r r' : Reader} {tag : StartTag}
    (h : r.InStep source) (htag : readStartTag r = (tag, r')) {stop : Nat}
    (hstop : r'.offset ≤ stop) :
    ∃ written, WrittenAt source ⟨r.offset, stop⟩ written ∧ KeepsFirst written tag.attributes := by
  have hstart := (h.expect .tagOpen).trans (h.expect .tagOpen).inStep.advance
  have hattributes := readStartTag_attributes r
  have hend := readStartTag_attributes_end_le h
  rw [htag] at hattributes hend
  have hreads := exists_readsAttributes _ [] _ hstart.inStep (Nat.le_refl _)
  obtain ⟨written, hwritten, hkept, hplaced, hordered⟩ := hreads.exists_written hstart.inStep
  have hempty : KeepsFirst [] [] := ⟨List.nodup_nil, List.Sublist.refl _, fun _ => rfl⟩
  refine ⟨written, ⟨r, _, h, rfl, hwritten, hplaced, ?_⟩, ?_⟩
  · exact (hordered.of_le hstart.offset_le).le_of_le (Nat.le_trans hend hstop)
  · rw [hattributes, hkept]
    exact hempty.foldl written

/-! ### Documents -/

/-- What holds of a node by the way it is read: a text is not empty and says whether it is
blank, and among the children of an element no text follows a text; an element without a
body has no children, and the texts in a body that is not raw text open no markup. -/
def Node.Normal (options : Options) (source : Text) : Node → Prop
  | .text _ data blank => data ≠ [] ∧ blank = data.isBlank
  | .comment _ _ => True
  | .element _ name _ children selfClosing =>
      children.IsChain (fun a b => ¬ (a.isText = true ∧ b.isText = true)) ∧
        (isVoid name = true ∨ selfClosing = true → children = []) ∧
        (options.isRawText name = false →
          ∀ span data blank, .text span data blank ∈ children → OpensNoMarkup source span data)

theorem readRawText_normal (options : Options) {source : Text} {r r' : Reader} {name : Text}
    {children : List Node} (h : r.InStep source) (hbody : readRawText name r = (children, r')) :
    children.IsChain (fun a b => ¬ (a.isText = true ∧ b.isText = true)) ∧
      ∀ node, Occurs node children → node.Normal options source := by
  obtain ⟨-, data, -, -, hnodes⟩ := readRawText_spec h name
  simp only [hbody] at hnodes
  by_cases hdata : data = []
  · rw [hdata] at hnodes
    rw [hnodes]
    exact ⟨List.isChain_nil, fun node hnode => absurd hnode (not_occurs_nil node)⟩
  · rw [List.isEmpty_eq_false_iff.mpr hdata] at hnodes
    rw [hnodes]
    refine ⟨List.isChain_singleton _, ?_⟩
    intro node hnode
    rcases occurs_singleton hnode with rfl | hdeeper
    · exact ⟨hdata, rfl⟩
    · exact absurd hdeeper (not_occurs_nil node)

theorem ReadsFlat.normal {options : Options} {source : Text} {r r' : Reader} {node : Node}
    (h : ReadsFlat options r node r') (hr : r.InStep source) :
    ∀ other, Occurs other [node] → other.Normal options source := by
  intro other hother
  cases h with
  | comment hopens =>
      obtain ⟨data, hnode, -⟩ := readComment_spec hr hopens
      rw [hnode] at hother
      rcases occurs_singleton hother with rfl | hdeeper
      · exact trivial
      · exact absurd hdeeper (not_occurs_nil other)
  | text hrest hopens =>
      obtain ⟨-, data, hdata, -, -, hnode⟩ := readText_spec hr hrest hopens
      rw [hnode] at hother
      rcases occurs_singleton hother with rfl | hdeeper
      · exact ⟨hdata, rfl⟩
      · exact absurd hdeeper (not_occurs_nil other)
  | leaf _ _ _ =>
      rcases occurs_singleton hother with rfl | hdeeper
      · exact ⟨List.isChain_nil, fun _ => rfl, fun _ _ _ _ hmem => absurd hmem List.not_mem_nil⟩
      · exact absurd hdeeper (not_occurs_nil other)
  | raw hopens htag hopen hraw hbody =>
      have hstart := (readStartTag_further hr hopens htag).1
      obtain ⟨hchain, hbelow⟩ := readRawText_normal options hstart.inStep hbody
      rcases occurs_singleton hother with rfl | hdeeper
      · have hvoid := (Bool.or_eq_false_iff.mp hopen).2
        refine ⟨hchain, ?_, fun hnot => absurd hraw (by simp [hnot])⟩
        exact fun hnoBody => absurd hnoBody (by simp [hvoid])
      · exact hbelow other hdeeper

theorem Reads.normal {options : Options} {source : Text} {inside : Bool} {r r' : Reader}
    {nodes : List Node} (h : Reads options inside r nodes r') (hr : r.InStep source) :
    ∀ node, Occurs node nodes → node.Normal options source := by
  induction h with
  | done _ => exact fun node hnode => absurd hnode (not_occurs_nil node)
  | closing _ => exact fun node hnode => absurd hnode (not_occurs_nil node)
  | stray hopens _ ih => exact ih (skipClosingTag_further hr hopens).1.inStep
  | flat hnode _ ih =>
      intro node hoccurs
      rcases occurs_cons hoccurs with hfirst | hmore
      · exact hnode.normal hr node hfirst
      · exact ih (hnode.further hr).1.inStep node hmore
  | @element _ r r₁ r₂ _ tag _ _ hopens htag hopen _ hchildren _ ihchildren ih =>
      have hstart := (readStartTag_further hr hopens htag).1
      have hbody := hchildren.further hstart.inStep
      have hclosing := readClosingTag_further hbody.inStep tag.name r.offset
      intro node hoccurs
      rcases occurs_cons hoccurs with hfirst | hmore
      · rcases occurs_singleton hfirst with rfl | hdeeper
        · have hvoid := (Bool.or_eq_false_iff.mp hopen).2
          refine ⟨?_, ?_, fun _ => hchildren.opensNoMarkup hstart.inStep⟩
          · -- Inside an element no closing tag is left out, so nothing parts two texts.
            apply (hchildren.separated hstart.inStep).1.imp
            intro a b hneighbours htexts
            exact absurd (hneighbours htexts.1 htexts.2).1 (by decide)
          · exact fun hnoBody => absurd hnoBody (by simp [hvoid])
        · exact ihchildren hstart.inStep node hdeeper
      · exact ih hclosing.inStep node hmore

/-- A node that stands in a list of nodes or below one of them, but in no raw-text element. -/
inductive OccursOutsideRawText (options : Options) (node : Node) : List Node → Prop where
  | here {nodes : List Node} (hmem : node ∈ nodes) : OccursOutsideRawText options node nodes
  | deeper {nodes : List Node} {span : Span} {name : Text} {attributes : List Attribute}
      {children : List Node} {selfClosing : Bool}
      (hmem : .element span name attributes children selfClosing ∈ nodes)
      (hraw : options.isRawText name = false)
      (hdeeper : OccursOutsideRawText options node children) :
      OccursOutsideRawText options node nodes

theorem OccursOutsideRawText.opensNoMarkup {options : Options} {source : Text} {nodes : List Node}
    {span : Span} {data : Text} {blank : Bool}
    (h : OccursOutsideRawText options (.text span data blank) nodes)
    (hnormal : ∀ node, Occurs node nodes → node.Normal options source)
    (htop : ∀ span data blank, .text span data blank ∈ nodes → OpensNoMarkup source span data) :
    OpensNoMarkup source span data := by
  induction h with
  | here hmem => exact htop span data blank hmem
  | deeper hmem hraw _ ih =>
      obtain ⟨-, -, hplain⟩ := hnormal _ (.here hmem)
      exact ih (fun node hnode => hnormal node (.deeper hmem hnode)) (hplain hraw)

/-- An element in normal form. -/
structure ElementInNormalForm (options : Options) (source : Text) (span : Span) (name : Text)
    (attributes : List Attribute) (children : List Node) (selfClosing : Bool) : Prop where
  noAdjacentTexts : children.IsChain fun a b => ¬ (a.isText = true ∧ b.isText = true)
  rawText : options.isRawText name = true →
    children = [] ∨ ∃ inner data blank, children = [.text inner data blank]
  noBody : isVoid name = true ∨ selfClosing = true → children = []
  firstKept : ∃ written, WrittenAt source span written ∧ KeepsFirst written attributes

/-- A document in normal form. -/
structure Document.InNormalForm (options : Options) (source : Text) (document : Document) :
    Prop where
  texts : ∀ span data blank, Occurs (.text span data blank) document.nodes →
    data ≠ [] ∧ (blank = true ↔ ∀ c ∈ data, isBlank c = true)
  plainTexts : ∀ span data blank,
    OccursOutsideRawText options (.text span data blank) document.nodes →
      OpensNoMarkup source span data
  topLevel : document.nodes.IsChain fun a b => a.isText = true → b.isText = true →
    StrayWithin document.errors a.span.stop b.span.start
  elements : ∀ span name attributes children selfClosing,
    Occurs (.element span name attributes children selfClosing) document.nodes →
      ElementInNormalForm options source span name attributes children selfClosing

/-- The document of every source, whatever is wrong in it, is in normal form. -/
theorem parse_inNormalForm (options : Options) (source : Text) :
    (parse options source).InNormalForm options source := by
  obtain ⟨r, hreads, -, herrors⟩ := exists_reads_parse options source
  have hstart := Reader.inStep_start source
  have hnormal := hreads.normal hstart
  obtain ⟨found, hfound, -⟩ := hreads.accounted hstart
  constructor
  · intro span data blank hoccurs
    obtain ⟨hdata, rfl⟩ := hnormal _ hoccurs
    exact ⟨hdata, List.all_eq_true⟩
  · intro span data blank hoccurs
    exact hoccurs.opensNoMarkup hnormal (hreads.opensNoMarkup hstart)
  · rw [herrors]
    apply (hreads.separated hstart).1.imp
    intro a b hneighbours ha hb
    exact (hneighbours ha hb).2
  · intro span name attributes children selfClosing hoccurs
    obtain ⟨hchain, hnoBody, -⟩ := hnormal _ hoccurs
    obtain ⟨-, -, -, hraw⟩ := hreads.placed hstart _ hoccurs
    obtain ⟨tag, tagEnd, bodyEnd, ⟨r₁, r₂, hstep, hoffset, htag, rfl⟩, -, rfl, -, -, -, htiles,
      hle, -⟩ := hfound.faithful _ hoccurs
    have hbody := htiles.orderedWithin.le
    have hkeeps := readStartTag_keepsFirst hstep htag (Nat.le_trans hbody hle)
    rw [hoffset] at hkeeps
    exact ⟨hchain, hraw, hnoBody, hkeeps⟩

namespace NormalFormWitness

/-- Two texts around a closing tag that closes nothing, and an element that writes one
attribute twice around a text with `<<`. -/
def source : Text := "a</i>b<p x y=1 x=2><< c"

def attributes : List Attribute :=
  [⟨⟨9, 10⟩, ⟨9, 10⟩, "x", .absent⟩, ⟨⟨11, 14⟩, ⟨11, 12⟩, "y", .text ⟨13, 14⟩ "1"⟩]

def paragraph : Node := .element ⟨6, 23⟩ "p" attributes [.text ⟨19, 23⟩ "<< c" false] false

def errors : List Error := [⟨.unexpectedClosingTag "i", ⟨1, 5⟩⟩,
  ⟨.duplicateAttribute "x", ⟨15, 18⟩⟩, ⟨.unclosedTag "p", ⟨6, 23⟩⟩]

theorem parse_source :
    parse {} source =
      ⟨⟨0, 23⟩, [.text ⟨0, 1⟩ "a" false, .text ⟨5, 6⟩ "b" false, paragraph], errors⟩ := by
  decide +kernel

end NormalFormWitness

open NormalFormWitness in
theorem stray_parts_texts_and_first_kept :
    StrayWithin errors 1 5 ∧ OpensNoMarkup source ⟨19, 23⟩ "<< c" ∧
      ∃ written, WrittenAt source ⟨6, 23⟩ written ∧ KeepsFirst written attributes := by
  have hnormal := parse_inNormalForm {} source
  rw [parse_source] at hnormal
  have hmem : paragraph ∈ [.text ⟨0, 1⟩ "a" false, .text ⟨5, 6⟩ "b" false, paragraph] := by simp
  refine ⟨?_, ?_, (hnormal.elements _ _ _ _ _ (.here hmem)).firstKept⟩
  · exact (List.isChain_cons_cons.mp hnormal.topLevel).1 rfl rfl
  · exact hnormal.plainTexts _ _ _ (.deeper hmem rfl (.here (List.mem_singleton.mpr rfl)))

end Component.Markup
