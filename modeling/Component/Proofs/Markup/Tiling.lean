/-
Every byte of a source is accounted for.

The spans of the nodes at top level and of the closing tags that close nothing tile
the source, the spans of an element's children tile a part of the element, and the
names, texts and values of a document are the texts that their spans cover.
-/
import Component.Proofs.Markup.Descent

namespace Component.Markup

/-- Spans that follow one another without gap or overlap from one offset to another. -/
def Tiles (first last : Nat) : List Span → Prop
  | [] => first = last
  | span :: more => span.start = first ∧ span.start < span.stop ∧ Tiles span.stop last more

theorem Tiles.append {first middle last : Nat} {spans spans' : List Span}
    (h : Tiles first middle spans) (h' : Tiles middle last spans') :
    Tiles first last (spans ++ spans') := by
  induction spans generalizing first with
  | nil =>
      rw [Tiles] at h
      rw [h]
      exact h'
  | cons span more ih => exact ⟨h.1, h.2.1, ih h.2.2⟩

/-- A node that stands in a list of nodes or anywhere below one of them. -/
inductive Occurs (node : Node) : List Node → Prop where
  | here {nodes : List Node} (hmem : node ∈ nodes) : Occurs node nodes
  | deeper {nodes : List Node} {span : Span} {name : Text} {attributes : List Attribute}
      {children : List Node} {selfClosing : Bool}
      (hmem : .element span name attributes children selfClosing ∈ nodes)
      (hdeeper : Occurs node children) : Occurs node nodes

theorem not_occurs_nil (node : Node) : ¬ Occurs node [] := by
  intro h
  cases h with
  | here hmem => exact List.not_mem_nil hmem
  | deeper hmem _ => exact List.not_mem_nil hmem

theorem occurs_append {node : Node} {nodes nodes' : List Node} (h : Occurs node (nodes ++ nodes')) :
    Occurs node nodes ∨ Occurs node nodes' := by
  cases h with
  | here hmem => exact (List.mem_append.mp hmem).imp .here .here
  | deeper hmem hdeeper =>
      exact (List.mem_append.mp hmem).imp (fun h => .deeper h hdeeper) (fun h => .deeper h hdeeper)

def Node.children : Node → List Node
  | .element _ _ _ children _ => children
  | _ => []

theorem occurs_singleton {node other : Node} (h : Occurs other [node]) :
    other = node ∨ Occurs other node.children := by
  cases h with
  | here hmem => exact Or.inl (List.mem_singleton.mp hmem)
  | deeper hmem hdeeper =>
      rw [List.mem_singleton] at hmem
      rw [← hmem]
      exact Or.inr hdeeper

/-- The start tag that is read at an offset of the source, and the offset where it ends. -/
def StartTagAt (source : Text) (start : Nat) (tag : StartTag) (stop : Nat) : Prop :=
  ∃ r r' : Reader, r.InStep source ∧ r.offset = start ∧ readStartTag r = (tag, r') ∧
    r'.offset = stop

/-- What a node says is what its spans cover, under the errors of the document. -/
def Node.Faithful (source : Text) (errors : List Error) : Node → Prop
  | .text span data _ => span.read source = data
  | .comment span data =>
      (⟨.unterminatedComment, ⟨span.start, span.start + 4⟩⟩ ∉ errors →
        span.read source = ['<', '!', '-', '-'] ++ (data ++ ['-', '-', '>'])) ∧
      (⟨.unterminatedComment, ⟨span.start, span.start + 4⟩⟩ ∈ errors →
        span.read source = ['<', '!', '-', '-'] ++ data ∧ span.stop = source.size)
  | .element span name attributes children _ =>
      ∃ tag tagEnd bodyEnd, StartTagAt source span.start tag tagEnd ∧ tag.name = name ∧
        tag.attributes = attributes ∧ (∃ more, span.read source = '<' :: (name ++ more)) ∧
        (∀ a ∈ attributes, a.ReadsFrom source) ∧
        OrderedWithin (span.start + 1 + name.size) tagEnd (attributes.map Attribute.span) ∧
        Tiles tagEnd bodyEnd (children.map Node.span) ∧ bodyEnd ≤ span.stop ∧
        (⟨.unclosedTag name, span⟩ ∈ errors → bodyEnd = span.stop)

/-- Only the errors about the tree that begin where the node begins matter to it. -/
theorem Node.Faithful.congr {source : Text} {errors errors' : List Error} {node : Node}
    (h : node.Faithful source errors)
    (hsame : ∀ e : Error, e.fault.isInTag = false → e.span.start = node.span.start →
      (e ∈ errors ↔ e ∈ errors')) : node.Faithful source errors' := by
  cases node with
  | text span data => exact h
  | comment span data =>
      have hiff := hsame ⟨.unterminatedComment, ⟨span.start, span.start + 4⟩⟩ rfl rfl
      exact ⟨fun hnot => h.1 (mt hiff.mp hnot), fun hmem => h.2 (hiff.mpr hmem)⟩
  | element span name attributes children selfClosing =>
      have hiff := hsame ⟨.unclosedTag name, span⟩ rfl rfl
      obtain ⟨tag, tagEnd, bodyEnd, htag, hname, hattributes, hread, hfrom, hordered, htiles, hle,
        hunclosed⟩ := h
      exact ⟨tag, tagEnd, bodyEnd, htag, hname, hattributes, hread, hfrom, hordered, htiles, hle,
        fun hmem => hunclosed (hiff.mpr hmem)⟩

/-- The spans of the closing tags that close nothing. -/
def strays (errors : List Error) : List Span :=
  (errors.filter fun e => match e.fault with
    | .unexpectedClosingTag _ => true
    | _ => false).map Error.span

theorem strays_append (errors errors' : List Error) :
    strays (errors ++ errors') = strays errors ++ strays errors' := by
  simp [strays]

theorem strays_eq_nil {errors : List Error} (h : ∀ e ∈ errors, e.fault.isInTag = true) :
    strays errors = [] := by
  rw [strays, List.map_eq_nil_iff, List.filter_eq_nil_iff]
  intro e he
  have hinTag := h e he
  split
  · rename_i hfault
    rw [hfault] at hinTag
    exact absurd hinTag Bool.false_ne_true
  · exact Bool.false_ne_true

/-- Between the readers `r` and `r'` the nodes were read and the errors found: every
byte belongs to one of the nodes or to one stray closing tag. -/
structure Accounted (source : Text) (r : Reader) (nodes : List Node) (found : List Error)
    (r' : Reader) : Prop where
  errors_eq : r'.errors = r.errors ++ found
  offset_le : r.offset ≤ r'.offset
  located : ∀ e ∈ found, e.fault.isInTag = false →
    r.offset ≤ e.span.start ∧ e.span.start < r'.offset
  within : ∀ node, Occurs node nodes → r.offset ≤ node.span.start ∧ node.span.start < r'.offset
  faithful : ∀ node, Occurs node nodes → node.Faithful source found
  tiles : ∃ spans : List Span, spans.Perm (nodes.map Node.span ++ strays found) ∧
    Tiles r.offset r'.offset spans

theorem Accounted.refl (source : Text) (r : Reader) : Accounted source r [] [] r where
  errors_eq := by simp
  offset_le := Nat.le_refl _
  located := by simp
  within node h := absurd h (not_occurs_nil node)
  faithful node h := absurd h (not_occurs_nil node)
  tiles := ⟨[], by simp [strays], rfl⟩

theorem Accounted.append {source : Text} {r r' r'' : Reader} {nodes nodes' : List Node}
    {found found' : List Error} (h : Accounted source r nodes found r')
    (h' : Accounted source r' nodes' found' r'') :
    Accounted source r (nodes ++ nodes') (found ++ found') r'' where
  errors_eq := by rw [h'.errors_eq, h.errors_eq, List.append_assoc]
  offset_le := Nat.le_trans h.offset_le h'.offset_le
  located e he hfault := by
    have hle := h.offset_le
    have hle' := h'.offset_le
    rcases List.mem_append.mp he with hmem | hmem
    · have hbounds := h.located e hmem hfault
      omega
    · have hbounds := h'.located e hmem hfault
      omega
  within node hnode := by
    have hle := h.offset_le
    have hle' := h'.offset_le
    rcases occurs_append hnode with hfirst | hsecond
    · have hbounds := h.within node hfirst
      omega
    · have hbounds := h'.within node hsecond
      omega
  faithful node hnode := by
    -- The errors found in the other part begin there, so they do not concern this node.
    rcases occurs_append hnode with hfirst | hsecond
    · have hbounds := h.within node hfirst
      apply (h.faithful node hfirst).congr
      intro e hfault hstart
      refine ⟨List.mem_append_left _, fun hmem => (List.mem_append.mp hmem).resolve_right ?_⟩
      intro hlater
      have hlocated := h'.located e hlater hfault
      omega
    · have hbounds := h'.within node hsecond
      apply (h'.faithful node hsecond).congr
      intro e hfault hstart
      refine ⟨List.mem_append_right _, fun hmem => (List.mem_append.mp hmem).resolve_left ?_⟩
      intro hearlier
      have hlocated := h.located e hearlier hfault
      omega
  tiles := by
    obtain ⟨spans, hperm, htiles⟩ := h.tiles
    obtain ⟨spans', hperm', htiles'⟩ := h'.tiles
    refine ⟨spans ++ spans', ?_, htiles.append htiles'⟩
    rw [List.map_append, strays_append]
    refine (hperm.append hperm').trans ?_
    simp only [List.append_assoc]
    apply List.Perm.append_left
    simp only [← List.append_assoc]
    apply List.Perm.append_right
    exact List.perm_append_comm

/-- A node that was read from one reader to another, with what stands below it. -/
theorem Accounted.single {source : Text} {r r' : Reader} {node : Node} {found : List Error}
    (herrors : r'.errors = r.errors ++ found) (hpassed : r.offset < r'.offset)
    (hspan : node.span = ⟨r.offset, r'.offset⟩)
    (hlocated : ∀ e ∈ found, e.fault.isInTag = false →
      r.offset ≤ e.span.start ∧ e.span.start < r'.offset)
    (hstrays : strays found = []) (hfaithful : node.Faithful source found)
    (hbelow : ∀ other, Occurs other node.children →
      (r.offset ≤ other.span.start ∧ other.span.start < r'.offset) ∧
        other.Faithful source found) :
    Accounted source r [node] found r' where
  errors_eq := herrors
  offset_le := Nat.le_of_lt hpassed
  located := hlocated
  within other hother := by
    rcases occurs_singleton hother with rfl | hdeeper
    · rw [hspan]
      exact ⟨Nat.le_refl _, hpassed⟩
    · exact (hbelow other hdeeper).1
  faithful other hother := by
    rcases occurs_singleton hother with rfl | hdeeper
    · exact hfaithful
    · exact (hbelow other hdeeper).2
  tiles := by
    refine ⟨[node.span], by simp [hstrays], ?_⟩
    rw [hspan]
    exact ⟨rfl, hpassed, rfl⟩

/-- A node without children that was read from one reader to another. -/
theorem Accounted.leaf {source : Text} {r r' : Reader} {node : Node} {found : List Error}
    (hchildren : node.children = []) (herrors : r'.errors = r.errors ++ found)
    (hpassed : r.offset < r'.offset) (hspan : node.span = ⟨r.offset, r'.offset⟩)
    (hlocated : ∀ e ∈ found, e.fault.isInTag = false →
      r.offset ≤ e.span.start ∧ e.span.start < r'.offset)
    (hstrays : strays found = []) (hfaithful : node.Faithful source found) :
    Accounted source r [node] found r' := by
  apply Accounted.single herrors hpassed hspan hlocated hstrays hfaithful
  intro other hother
  rw [hchildren] at hother
  exact absurd hother (not_occurs_nil other)

theorem Accounted.tiles_singleton {source : Text} {r r' : Reader} {node : Node}
    {found : List Error} (h : Accounted source r [node] found r') (hstrays : strays found = []) :
    Tiles r.offset r'.offset [node.span] := by
  obtain ⟨spans, hperm, htiles⟩ := h.tiles
  rw [hstrays, List.map_singleton, List.append_nil, List.perm_singleton] at hperm
  rwa [hperm] at htiles

theorem not_mem_of_isInTag {found : List Error} (h : ∀ e ∈ found, e.fault.isInTag = true)
    {e : Error} (hfault : e.fault.isInTag = false) : e ∉ found := by
  intro hmem
  rw [h e hmem] at hfault
  exact absurd hfault (by decide)

theorem mem_of_isInTag_eq_false {start body : List Error}
    (hstart : ∀ e ∈ start, e.fault.isInTag = true) {e : Error} (hfault : e.fault.isInTag = false)
    (he : e ∈ start ++ body) : e ∈ body :=
  (List.mem_append.mp he).resolve_left (not_mem_of_isInTag hstart hfault)

theorem accounted_text {source : Text} {r r' : Reader} (h : r.InStep source)
    (honward : Reader.Onward source r r') {data : Text} (hdata : data ≠ [])
    (hrest : r.rest = data ++ r'.rest) (hoffset : r'.offset = r.offset + data.size) :
    ∃ found, Accounted source r
      [.text ⟨r.offset, r.offset + data.size⟩ data data.isBlank] found r' ∧
      strays found = [] := by
  obtain ⟨found, herrors, hfound⟩ := honward.errors
  have hpos := Text.size_pos_of_ne_nil hdata
  have hstrays := strays_eq_nil hfound
  refine ⟨found, ?_, hstrays⟩
  apply Accounted.leaf rfl herrors (by omega)
  · rw [hoffset]
    rfl
  · intro e he hfault
    exact absurd he (not_mem_of_isInTag hfound hfault)
  · exact hstrays
  · exact h.read_front hrest

theorem accounted_comment {source : Text} {r : Reader} (h : r.InStep source)
    (hopens : opensComment r.rest = true) :
    ∃ found, Accounted source r [(readComment r).1] found (readComment r).2 ∧
      strays found = [] := by
  obtain ⟨data, hnode, ⟨hrest, hoffset, honward⟩ | ⟨hrest, hend, hoffset, r', honward, heq⟩⟩ :=
    readComment_spec h hopens
  · obtain ⟨found, herrors, hfound⟩ := honward.errors
    have hstrays := strays_eq_nil hfound
    have hread := h.read_front (hrest.trans (by simp :
      _ = (['<', '!', '-', '-'] ++ (data ++ ['-', '-', '>'])) ++ (readComment r).2.rest))
    have hsize : r.offset + Text.size (['<', '!', '-', '-'] ++ (data ++ ['-', '-', '>'])) =
        (readComment r).2.offset := by
      rw [hoffset, Text.size_append, Text.size_append, ← Nat.add_assoc, ← Nat.add_assoc]
      rfl
    rw [hsize] at hread
    refine ⟨found, ?_, hstrays⟩
    rw [hnode]
    apply Accounted.leaf rfl herrors (by omega) rfl _ hstrays
    · refine ⟨fun _ => hread, fun hmem => ?_⟩
      exact absurd hmem (not_mem_of_isInTag hfound rfl)
    · intro e he hfault
      exact absurd he (not_mem_of_isInTag hfound hfault)
  · obtain ⟨found, herrors, hfound⟩ := honward.errors
    have hread := h.read_front (hrest.trans (List.append_nil _).symm)
    have hsize : r.offset + Text.size (['<', '!', '-', '-'] ++ data) =
        (readComment r).2.offset := by
      rw [hoffset, Text.size_append, ← Nat.add_assoc]
      rfl
    have hlast : (readComment r).2.offset = source.size := by
      have hwhole := h.offset_add_size
      rwa [hrest, hsize] at hwhole
    rw [hsize] at hread
    have hstrays : strays (found ++ [⟨.unterminatedComment, ⟨r.offset, r.offset + 4⟩⟩]) = [] := by
      rw [strays_append, strays_eq_nil hfound]
      rfl
    refine ⟨found ++ [⟨.unterminatedComment, ⟨r.offset, r.offset + 4⟩⟩], ?_, hstrays⟩
    rw [hnode]
    apply Accounted.leaf rfl _ (by omega) rfl _ hstrays
    · refine ⟨fun hnot => absurd ?_ hnot, fun _ => ⟨hread, hlast⟩⟩
      exact List.mem_append_right _ (List.mem_singleton.mpr rfl)
    · rw [heq, Reader.report_errors, herrors, List.append_assoc]
    · intro e he hfault
      rw [List.mem_singleton.mp (mem_of_isInTag_eq_false hfound hfault he)]
      exact ⟨Nat.le_refl _, Nat.lt_of_lt_of_le (Nat.lt_add_of_pos_right (by decide))
        (Nat.le_trans (Nat.le_add_right _ data.size) hoffset.ge)⟩

theorem exists_append_of_size_le {a b c d : Text} (h : a ++ b = c ++ d) (hsize : a.size ≤ c.size) :
    ∃ more, c = a ++ more := by
  rcases List.append_eq_append_iff.mp h with ⟨more, hmore, -⟩ | ⟨more, hmore, -⟩
  · exact ⟨more, hmore⟩
  · rw [hmore, Text.size_append] at hsize
    have hnil := Text.size_eq_zero_iff.mp (show Text.size more = 0 by omega)
    exact ⟨[], by simp [hmore, hnil]⟩

/-- A text that is passed from `<` and a name on, and goes beyond them, begins with them. -/
theorem read_element_begins {source : Text} {r r' : Reader} {name more : Text}
    (h : r.InStep source) (hrest : r.rest = '<' :: (name ++ more))
    (hfurther : Reader.Further source r r') (hle : r.offset + 1 + name.size ≤ r'.offset) :
    ∃ tail, (Span.mk r.offset r'.offset).read source = '<' :: (name ++ tail) := by
  obtain ⟨text, htext, hoffset⟩ := hfurther.passed
  have hread := h.read_front htext
  rw [← hoffset] at hread
  rw [hread]
  have hsplit : ('<' :: name) ++ more = text ++ r'.rest := by
    rw [← htext, hrest]
    rfl
  apply exists_append_of_size_le hsplit
  have hbracket : Text.size ('<' :: name) = 1 + name.size := rfl
  omega

/-- An element that was read from its start tag over its children to the reader
`r'`, which stands where the children end if the element is reported as unclosed. -/
theorem accounted_element {source : Text} {r r₁ r₂ r' : Reader} {tag : StartTag}
    {children : List Node} {body : List Error} (selfClosing : Bool) (closing : List Error)
    (h : r.InStep source)
    (hopens : opensTag r.rest = true) (htag : readStartTag r = (tag, r₁))
    (hbody : Accounted source r₁ children body r₂) (hbodyStrays : strays body = [])
    (htiles : Tiles r₁.offset r₂.offset (children.map Node.span))
    (hfurther : Reader.Further source r r') (hle : r₂.offset ≤ r'.offset)
    (herrors : r'.errors = r₂.errors ++ closing) (hclosingStrays : strays closing = [])
    (hclosing : ∀ e ∈ closing, e.fault.isInTag = false → e.span.start = r.offset)
    (hunclosed : ⟨.unclosedTag tag.name, ⟨r.offset, r'.offset⟩⟩ ∈ closing →
      r₂.offset = r'.offset) :
    ∃ found, Accounted source r
      [.element ⟨r.offset, r'.offset⟩ tag.name tag.attributes children selfClosing] found r' ∧
      strays found = [] := by
  obtain ⟨honward, ⟨more, hrest⟩, hfrom, hordered⟩ := readStartTag_spec h hopens
  simp only [htag] at honward hrest hfrom hordered
  obtain ⟨start, hstart, hstartTag⟩ := honward.errors
  have hfirst := hordered.le
  have hmiddle := hbody.offset_le
  have hstrays : strays (start ++ (body ++ closing)) = [] := by
    rw [strays_append, strays_append, strays_eq_nil hstartTag, hbodyStrays, hclosingStrays]
    rfl
  refine ⟨start ++ (body ++ closing), ?_, hstrays⟩
  apply Accounted.single _ (by omega) rfl _ hstrays
  · refine ⟨tag, r₁.offset, r₂.offset, ⟨r, r₁, h, rfl, htag, rfl⟩, rfl, rfl, ?_, hfrom, hordered,
      htiles, hle, ?_⟩
    · exact read_element_begins h hrest hfurther (by omega)
    · intro hmem
      rcases List.mem_append.mp (mem_of_isInTag_eq_false hstartTag rfl hmem) with hmem | hmem
      · have hlocated := (hbody.located _ hmem rfl).1
        simp only at hlocated
        omega
      · exact hunclosed hmem
  · intro other hother
    have hbounds := hbody.within other hother
    refine ⟨by omega, (hbody.faithful other hother).congr ?_⟩
    intro e hfault hsame
    constructor
    · intro hmem
      exact List.mem_append_right _ (List.mem_append_left _ hmem)
    · intro hmem
      rcases List.mem_append.mp (mem_of_isInTag_eq_false hstartTag hfault hmem) with hmem | hmem
      · exact hmem
      · -- The element begins before all that stands below it, and so do its own errors.
        have hlast := hclosing e hmem hfault
        omega
  · rw [herrors, hbody.errors_eq, hstart]
    simp only [List.append_assoc]
  · intro e he hfault
    rcases List.mem_append.mp (mem_of_isInTag_eq_false hstartTag hfault he) with hmem | hmem
    · have hlocated := hbody.located e hmem hfault
      omega
    · have hlast := hclosing e hmem hfault
      omega

theorem accounted_closed {source : Text} {r r₁ r₂ : Reader} {tag : StartTag}
    {children : List Node} {body : List Error} (h : r.InStep source)
    (hopens : opensTag r.rest = true) (htag : readStartTag r = (tag, r₁))
    (hbody : Accounted source r₁ children body r₂) (hstrays : strays body = [])
    (htiles : Tiles r₁.offset r₂.offset (children.map Node.span))
    (hfurther : Reader.Further source r r₂) :
    ∃ found, Accounted source r
      [.element ⟨r.offset, (readClosingTag tag.name r.offset r₂).offset⟩ tag.name tag.attributes
        children false] found (readClosingTag tag.name r.offset r₂) ∧ strays found = [] := by
  have hclosing := readClosingTag_further hfurther.inStep tag.name r.offset
  by_cases hcloses : opensClosingTag r₂.rest = true
  · obtain ⟨honward, hpassed⟩ := readClosingTag_of_opens hfurther.inStep hcloses tag.name r.offset
    obtain ⟨closing, herrors, hinTag⟩ := honward.errors
    apply accounted_element false closing h hopens htag hbody hstrays htiles
      (hfurther.trans hclosing) honward.offset_le herrors (strays_eq_nil hinTag)
    · intro e he hfault
      exact absurd he (not_mem_of_isInTag hinTag hfault)
    · intro hmem
      exact absurd hmem (not_mem_of_isInTag hinTag rfl)
  · have heq := readClosingTag_of_not_opens (Bool.eq_false_iff.mpr hcloses) tag.name r.offset
    apply accounted_element false [⟨.unclosedTag tag.name, ⟨r.offset, r₂.offset⟩⟩] h hopens htag
      hbody hstrays htiles (hfurther.trans hclosing) hclosing.offset_le
    · rw [heq]
      rfl
    · rfl
    · intro e he _
      rw [List.mem_singleton.mp he]
    · intro _
      rw [heq]
      rfl

theorem readRawText_accounted {source : Text} {r : Reader} (h : r.InStep source) (name : Text) :
    ∃ found, Accounted source r (readRawText name r).1 found (readRawText name r).2 ∧
      strays found = [] ∧
      Tiles r.offset (readRawText name r).2.offset ((readRawText name r).1.map Node.span) := by
  obtain ⟨honward, data, hrest, hoffset, hnodes⟩ := readRawText_spec h name
  rw [hnodes]
  by_cases hdata : data = []
  · obtain ⟨found, herrors, hinTag⟩ := honward.errors
    have hsame : r.offset = (readRawText name r).2.offset := by
      rw [hoffset, hdata]
      rfl
    have hstrays := strays_eq_nil hinTag
    simp only [hdata, List.isEmpty_nil, ↓reduceIte, List.map_nil]
    refine ⟨found, ⟨herrors, hsame.le, ?_, ?_, ?_, [], by simp [hstrays], hsame⟩, hstrays, hsame⟩
    · intro e he hfault
      exact absurd he (not_mem_of_isInTag hinTag hfault)
    · intro node hnode
      exact absurd hnode (not_occurs_nil node)
    · intro node hnode
      exact absurd hnode (not_occurs_nil node)
  · have hpos := Text.size_pos_of_ne_nil hdata
    obtain ⟨found, hfound, hstrays⟩ := accounted_text h honward hdata hrest hoffset
    rw [List.isEmpty_eq_false_iff.mpr hdata]
    refine ⟨found, hfound, hstrays, rfl, ?_, hoffset.symm⟩
    exact Nat.lt_add_of_pos_right hpos

theorem skipClosingTag_accounted {source : Text} {r : Reader} (h : r.InStep source)
    (hopens : opensClosingTag r.rest = true) :
    ∃ found, Accounted source r [] found (skipClosingTag r) := by
  obtain ⟨name, r', honward, hpassed, heq⟩ := skipClosingTag_spec h hopens
  obtain ⟨found, herrors, hinTag⟩ := honward.errors
  refine ⟨found ++ [⟨.unexpectedClosingTag name, ⟨r.offset, r'.offset⟩⟩], ?_⟩
  rw [heq]
  refine ⟨?_, Nat.le_of_lt hpassed, ?_, ?_, ?_, [⟨r.offset, r'.offset⟩], ?_, rfl, hpassed, rfl⟩
  · rw [Reader.report_errors, herrors, List.append_assoc]
  · intro e he hfault
    rw [List.mem_singleton.mp (mem_of_isInTag_eq_false hinTag hfault he)]
    exact ⟨Nat.le_refl _, hpassed⟩
  · intro node hnode
    exact absurd hnode (not_occurs_nil node)
  · intro node hnode
    exact absurd hnode (not_occurs_nil node)
  · rw [strays_append, strays_eq_nil hinTag]
    rfl

theorem ReadsFlat.accounted {options : Options} {source : Text} {r r' : Reader} {node : Node}
    (h : ReadsFlat options r node r') (hr : r.InStep source) :
    ∃ found, Accounted source r [node] found r' ∧ strays found = [] := by
  cases h with
  | comment hopens => exact accounted_comment hr hopens
  | text hrest hopens =>
      obtain ⟨honward, data, hdata, hsplit, hoffset, hnode⟩ := readText_spec hr hrest hopens
      rw [hnode]
      exact accounted_text hr honward hdata hsplit hoffset
  | @leaf _ tag hopens htag _ =>
      have hstart := (readStartTag_further hr hopens htag).1
      apply accounted_element true [] hr hopens htag (Accounted.refl source r') rfl rfl
        hstart.toFurther (Nat.le_refl _)
      · simp
      · rfl
      · simp
      · simp
  | @raw r₁ r₂ tag children hopens htag _ _ hbody =>
      have hstart := (readStartTag_further hr hopens htag).1
      have hraw := (readRawText_spec hstart.inStep tag.name).1
      obtain ⟨found, hfound, hstrays, htiles⟩ := readRawText_accounted hstart.inStep tag.name
      rw [hbody] at hfound htiles hraw
      exact accounted_closed hr hopens htag hfound hstrays htiles
        (hstart.toFurther.trans hraw.toFurther)

/-- The nodes inside an element follow one another without a gap. -/
theorem Reads.tiles {options : Options} {source : Text} {inside : Bool} {r r' : Reader}
    {nodes : List Node} (h : Reads options inside r nodes r') (hr : r.InStep source)
    (hinside : inside = true) : Tiles r.offset r'.offset (nodes.map Node.span) := by
  induction h with
  | done _ => rfl
  | closing _ => rfl
  | stray _ _ _ => exact absurd hinside (by decide)
  | flat hnode _ ih =>
      obtain ⟨found, hfound, hstrays⟩ := hnode.accounted hr
      exact (hfound.tiles_singleton hstrays).append (ih (hnode.further hr).1.inStep hinside)
  | @element _ r r₁ r₂ _ tag _ _ hopens htag _ _ hchildren _ _ ih =>
      obtain ⟨hstart, hpassed⟩ := readStartTag_further hr hopens htag
      have hbody := hchildren.further hstart.inStep
      have hclosing := hbody.trans (readClosingTag_further hbody.inStep tag.name r.offset)
      have hle := hclosing.offset_le
      refine ⟨rfl, ?_, ih hclosing.inStep hinside⟩
      simp only [Node.span]
      omega

theorem Reads.accounted {options : Options} {source : Text} {inside : Bool} {r r' : Reader}
    {nodes : List Node} (h : Reads options inside r nodes r') (hr : r.InStep source) :
    ∃ found, Accounted source r nodes found r' ∧ (inside = true → strays found = []) := by
  induction h with
  | done _ => exact ⟨[], Accounted.refl source _, fun _ => rfl⟩
  | closing _ => exact ⟨[], Accounted.refl source _, fun _ => rfl⟩
  | stray hopens _ ih =>
      obtain ⟨found, hfound, -⟩ := ih (skipClosingTag_further hr hopens).1.inStep
      obtain ⟨skipped, hskipped⟩ := skipClosingTag_accounted hr hopens
      exact ⟨skipped ++ found, hskipped.append hfound, by simp⟩
  | flat hnode _ ih =>
      obtain ⟨found, hfound, hstrays⟩ := hnode.accounted hr
      obtain ⟨more, hmore, hinside⟩ := ih (hnode.further hr).1.inStep
      refine ⟨found ++ more, hfound.append hmore, fun hin => ?_⟩
      rw [strays_append, hstrays, hinside hin]
      rfl
  | @element _ r r₁ r₂ _ tag _ _ hopens htag _ _ hchildren _ ihchildren ih =>
      have hstart := (readStartTag_further hr hopens htag).1
      have hbody := hchildren.further hstart.inStep
      have hclosing := readClosingTag_further hbody.inStep tag.name r.offset
      obtain ⟨body, hfound, hstrays⟩ := ihchildren hstart.inStep
      obtain ⟨element, helement, hnone⟩ := accounted_closed hr hopens htag hfound (hstrays rfl)
        (hchildren.tiles hstart.inStep rfl) (hstart.toFurther.trans hbody)
      obtain ⟨more, hmore, hinside⟩ := ih hclosing.inStep
      refine ⟨element ++ more, helement.append hmore, fun hin => ?_⟩
      rw [strays_append, hnone, hinside hin]
      rfl

/-- The nodes at top level and the stray closing tags tile the source, and every node
at any depth says what its spans cover. -/
theorem spans_account_for_every_byte (options : Options) (source : Text) :
    (∃ spans : List Span,
      spans.Perm ((parse options source).nodes.map Node.span ++
        strays (parse options source).errors) ∧ Tiles 0 source.size spans) ∧
      ∀ node, Occurs node (parse options source).nodes →
        node.Faithful source (parse options source).errors := by
  obtain ⟨r, hreads, hrest, herrors⟩ := exists_reads_parse options source
  have hstart := Reader.inStep_start source
  obtain ⟨found, hfound, -⟩ := hreads.accounted hstart
  have hlast : r.offset = source.size := by
    have hsize := (hreads.further hstart).inStep.offset_add_size
    rwa [hrest] at hsize
  have hall : (parse options source).errors = found := by
    rw [herrors, hfound.errors_eq]
    rfl
  rw [hall]
  have htiles := hfound.tiles
  rw [hlast] at htiles
  exact ⟨htiles, hfound.faithful⟩

namespace TilingWitness

/-- A stray closing tag, and an element that is never closed around a comment that
never ends. -/
def source : Text := "</i><p>x<!--y"

def comment : Node := .comment ⟨8, 13⟩ "y"

def paragraph : Node := .element ⟨4, 13⟩ "p" [] [.text ⟨7, 8⟩ "x" false, comment] false

theorem parse_source : parse ⟨[]⟩ source =
    ⟨⟨0, 13⟩, [paragraph], [⟨.unexpectedClosingTag "i", ⟨0, 4⟩⟩,
      ⟨.unterminatedComment, ⟨8, 12⟩⟩, ⟨.unclosedTag "p", ⟨4, 13⟩⟩]⟩ := by
  decide +kernel

end TilingWitness

open TilingWitness in
theorem unclosed_paragraph_accounted :
    (∃ spans : List Span, spans.Perm [⟨4, 13⟩, ⟨0, 4⟩] ∧ Tiles 0 13 spans) ∧
      Occurs comment [paragraph] ∧
      comment.Faithful source [⟨.unexpectedClosingTag "i", ⟨0, 4⟩⟩,
        ⟨.unterminatedComment, ⟨8, 12⟩⟩, ⟨.unclosedTag "p", ⟨4, 13⟩⟩] ∧
      paragraph.Faithful source [⟨.unexpectedClosingTag "i", ⟨0, 4⟩⟩,
        ⟨.unterminatedComment, ⟨8, 12⟩⟩, ⟨.unclosedTag "p", ⟨4, 13⟩⟩] := by
  have hcomment : Occurs comment [paragraph] :=
    .deeper (List.mem_singleton.mpr rfl) (.here (by simp))
  obtain ⟨htiles, hfaithful⟩ := spans_account_for_every_byte ⟨[]⟩ source
  rw [parse_source] at htiles hfaithful
  exact ⟨htiles, hcomment, hfaithful _ hcomment, hfaithful _ (.here (List.mem_singleton.mpr rfl))⟩

end Component.Markup
