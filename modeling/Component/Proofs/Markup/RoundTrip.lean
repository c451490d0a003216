/-
Parsing undoes printing.

The text of a well-formed list of nodes is read without an error into the same nodes,
up to the places of their parts.  Each kind of node is read back before any text that
may follow it, and a list of nodes is read back node by node.
-/
import Component.Proofs.Markup.Printing
import Mathlib.Data.List.Infix

namespace Component

theorem Text.lower_append (a b : Text) : lower (a ++ b) = lower a ++ lower b :=
  List.map_append

namespace Markup

/-- A pattern that begins in a text does not reach over its end when the text is
followed by a character that the pattern has at its beginning only. -/
theorem isPrefixOf_append_of_head {p t tail : Text} {stop : Char} (hp : stop ∉ p)
    (htail : ∀ c ∈ tail.head?, c = stop) : p.isPrefixOf (t ++ tail) = p.isPrefixOf t := by
  induction p generalizing t with
  | nil => simp
  | cons d p ih =>
      simp only [List.mem_cons, not_or] at hp
      obtain ⟨hd, hmem⟩ := hp
      cases t with
      | nil =>
          cases tail with
          | nil => rfl
          | cons c rest =>
              have hc := htail c rfl
              have hne : d ≠ c := fun heq => hd (hc.symm.trans heq.symm)
              simp [List.isPrefixOf, hne]
      | cons c rest =>
          rw [List.cons_append, List.isPrefixOf, List.isPrefixOf, ih hmem]

theorem opensTag_append {c : Char} {rest tail : Text} (htail : ∀ d ∈ tail.head?, d = '<') :
    opensTag (c :: rest ++ tail) = opensTag (c :: rest) := by
  by_cases hc : c = '<'
  · subst hc
    cases rest with
    | nil =>
        cases tail with
        | nil => rfl
        | cons d more =>
            obtain rfl := htail d rfl
            rfl
    | cons d more => rfl
  · simp [opensTag, hc]

/-- Text that opens no markup does not open it before a construct either. -/
theorem opensMarkup_append {c : Char} {rest tail : Text} (htail : ∀ d ∈ tail.head?, d = '<') :
    opensMarkup (c :: rest ++ tail) = opensMarkup (c :: rest) := by
  have hclosing : opensClosingTag (c :: rest ++ tail) = opensClosingTag (c :: rest) := by
    have hmore : ['/'].isPrefixOf (rest ++ tail) = ['/'].isPrefixOf rest :=
      isPrefixOf_append_of_head (by decide) htail
    rw [opensClosingTag, opensClosingTag, List.cons_append, List.isPrefixOf, List.isPrefixOf, hmore]
  have hcomment : opensComment (c :: rest ++ tail) = opensComment (c :: rest) := by
    have hmore : ['!', '-', '-'].isPrefixOf (rest ++ tail) = ['!', '-', '-'].isPrefixOf rest :=
      isPrefixOf_append_of_head (by decide) htail
    rw [opensComment, opensComment, List.cons_append, List.isPrefixOf, List.isPrefixOf, hmore]
  rw [opensMarkup, opensMarkup, opensTag_append htail, hclosing, hcomment]

theorem head_of_opensMarkup {t : Text} (h : t = [] ∨ opensMarkup t = true) :
    ∀ c ∈ t.head?, c = '<' := by
  simp only [opensMarkup, Bool.or_eq_true] at h
  intro c hc
  rcases h with rfl | (htag | hclosing) | hcomment
  · exact absurd hc (Option.not_mem_none c)
  · obtain ⟨d, rest, rfl, -⟩ := exists_of_opensTag htag
    exact (Option.mem_some.mp hc).symm
  · obtain ⟨rest, rfl⟩ := exists_of_opensClosingTag hclosing
    exact (Option.mem_some.mp hc).symm
  · obtain ⟨rest, rfl⟩ := exists_of_opensComment hcomment
    exact (Option.mem_some.mp hc).symm

theorem toLower_ne_lt {c : Char} (h : isNamePart c = true) : c.toLower ≠ '<' := by
  intro heq
  unfold Char.toLower at heq
  split at heq
  · rename_i hupper
    have hlower := congrArg (fun d : Char => d.val.toNat) heq
    have hleast := UInt32.le_iff_toNat_le.mp hupper.1
    have hmost := UInt32.le_iff_toNat_le.mp hupper.2
    simp only [UInt32.toNat_add] at hlower hleast hmost
    simp at hlower hleast hmost
    omega
  · subst heq
    exact absurd h (by decide)

/-- The reader `r'` stands before `more`, with the errors that `r` had. -/
structure Reader.Past (source : Text) (r : Reader) (more : Text) (r' : Reader) : Prop where
  inStep : r'.InStep source
  rest_eq : r'.rest = more
  errors_eq : r'.errors = r.errors

theorem Reader.Past.trans {source more more' : Text} {r r' r'' : Reader}
    (h : r.Past source more r') (h' : r'.Past source more' r'') : r.Past source more' r'' where
  inStep := h'.inStep
  rest_eq := h'.rest_eq
  errors_eq := h'.errors_eq.trans h.errors_eq

theorem Reader.InStep.past_seek {source : Text} {r : Reader} (h : r.InStep source)
    {passed more : Text} (hrest : r.rest = passed ++ more) :
    r.Past source more (r.seek (r.offset + passed.size)) where
  inStep := (h.seek hrest).inStep
  rest_eq := Reader.seek_rest hrest
  errors_eq := rfl

theorem isPrefixOf_commentEnd {c : Char} {rest data more : Text}
    (hdata : ¬ ['-', '-', '>'] <:+: data) (hsuffix : c :: rest <:+ data) :
    ['-', '-', '>'].isPrefixOf (c :: rest ++ '-' :: '-' :: '>' :: more) = false := by
  rcases rest with _ | ⟨d, _ | ⟨e, rest⟩⟩
  · simp [List.isPrefixOf]
  · simp [List.isPrefixOf]
  · rw [Bool.eq_false_iff]
    intro hprefix
    simp at hprefix
    obtain ⟨rfl, rfl, rfl⟩ := hprefix
    apply hdata
    exact List.IsInfix.trans (List.prefix_append ['-', '-', '>'] rest).isInfix hsuffix.isInfix

theorem readComment_print {source : Text} {r : Reader} (h : r.InStep source) {data more : Text}
    (hdata : ¬ ['-', '-', '>'] <:+: data)
    (hrest : r.rest = '<' :: '!' :: '-' :: '-' :: (data ++ '-' :: '-' :: '>' :: more)) :
    ∃ span, (readComment r).1 = .comment span data ∧ r.Past source more (readComment r).2 := by
  have hsplit : Text.breakBefore (['-', '-', '>'].isPrefixOf ·)
      (data ++ '-' :: '-' :: '>' :: more) = (data, '-' :: '-' :: '>' :: more) := by
    apply Text.breakBefore_append_of_not
    · intro c rest hsuffix
      exact isPrefixOf_commentEnd hdata hsuffix
    · right
      simp [List.isPrefixOf]
  have hdrop : r.rest.drop 4 = data ++ '-' :: '-' :: '>' :: more := by
    rw [hrest]
    rfl
  have hpassed : r.rest = (['<', '!', '-', '-'] ++ (data ++ ['-', '-', '>'])) ++ more := by
    rw [hrest]
    simp
  have hsize : r.offset + 4 + data.size + 3 =
      r.offset + Text.size (['<', '!', '-', '-'] ++ (data ++ ['-', '-', '>'])) := by
    rw [Text.size_append, Text.size_append, ← Nat.add_assoc, ← Nat.add_assoc]
    rfl
  unfold readComment
  simp only [hdrop, hsplit, List.isEmpty_cons, Bool.false_eq_true, ↓reduceIte]
  rw [hsize]
  exact ⟨_, rfl, h.past_seek hpassed⟩

theorem readText_print {source : Text} {r : Reader} (h : r.InStep source) {data more : Text}
    (hdata : ∀ suffix, suffix <:+ data → opensMarkup suffix = false)
    (hmore : more = [] ∨ opensMarkup more = true) (hrest : r.rest = data ++ more) :
    ∃ span, (readText r).1 = .text span data data.isBlank ∧
      r.Past source more (readText r).2 := by
  have hsplit : Text.breakBefore opensMarkup (data ++ more) = (data, more) := by
    apply Text.breakBefore_append_of_not _ hmore
    intro c rest hsuffix
    rw [opensMarkup_append (head_of_opensMarkup hmore)]
    exact hdata _ hsuffix
  unfold readText
  simp only [hrest, hsplit]
  exact ⟨_, rfl, h.past_seek hrest⟩

theorem lower_take_beq_eq_isPrefixOf (closing t : Text) :
    (Text.lower (t.take closing.length) == closing) = closing.isPrefixOf t.lower := by
  rw [Bool.eq_iff_iff, beq_iff_eq, List.isPrefixOf_iff_prefix, List.prefix_iff_eq_take, Text.lower,
    Text.lower, List.map_take]
  exact eq_comm

theorem lt_not_mem_lower {name : Text} (h : isElementName name = true) :
    '<' ∉ '/' :: name.lower := by
  intro hmem
  rcases List.mem_cons.mp hmem with hslash | hname
  · exact absurd hslash (by decide)
  · obtain ⟨c, hc, hlower⟩ := List.mem_map.mp hname
    refine toLower_ne_lt ?_ hlower
    cases name with
    | nil => exact absurd h (by decide)
    | cons first rest =>
        simp only [isElementName, Bool.and_eq_true, List.all_eq_true] at h
        rcases List.mem_cons.mp hc with rfl | hrest
        · exact isNamePart_of_isAlpha h.1
        · exact h.2 c hrest

/-- The beginning of a closing tag does not reach over the end of a text into markup. -/
theorem isPrefixOf_lower_append {name : Text} (hname : isElementName name = true) (c : Char)
    (rest : Text) {tail : Text} (htail : ∀ d ∈ tail.head?, d = '<') :
    ('<' :: '/' :: name.lower).isPrefixOf (Text.lower (c :: rest ++ tail)) =
      ('<' :: '/' :: name.lower).isPrefixOf (Text.lower (c :: rest)) := by
  have hhead : ∀ d ∈ (Text.lower tail).head?, d = '<' := by
    cases tail with
    | nil => simp [Text.lower]
    | cons d more =>
        obtain rfl := htail d rfl
        simp [Text.lower]
  have hmore : ('/' :: name.lower).isPrefixOf (Text.lower rest ++ Text.lower tail) =
      ('/' :: name.lower).isPrefixOf (Text.lower rest) :=
    isPrefixOf_append_of_head (lt_not_mem_lower hname) hhead
  simp only [Text.lower, List.map_append, List.map_cons, List.cons_append] at hmore ⊢
  rw [List.isPrefixOf, List.isPrefixOf, hmore]

/-- A raw text ends where `</` and the name of its element stand for the first time. -/
theorem readRawText_stops {source : Text} {r : Reader} (h : r.InStep source)
    {name body more : Text} (hname : isElementName name = true)
    (hrest : r.rest = body ++ '<' :: '/' :: (name ++ '>' :: more)) :
    ∃ data after, body = data ++ after ∧ ¬ '<' :: '/' :: name.lower <:+: data.lower ∧
      (after = [] ∨ '<' :: '/' :: name.lower <+: after.lower) ∧
      (∃ span, (readRawText name r).1 =
        if data.isEmpty then [] else [.text span data data.isBlank]) ∧
      r.Past source (after ++ '<' :: '/' :: (name ++ '>' :: more)) (readRawText name r).2 := by
  set tail := '<' :: '/' :: (name ++ '>' :: more) with htail
  set closing := '<' :: '/' :: name.lower with hclosing
  set closes : Text → Bool := fun t => Text.lower (t.take closing.length) == closing with hcloses
  have hcloses_iff : ∀ t, closes t = true ↔ closing <+: Text.lower t := by
    intro t
    rw [hcloses, ← List.isPrefixOf_iff_prefix, ← lower_take_beq_eq_isPrefixOf]
  have hfound : closes tail = true := by
    rw [hcloses_iff]
    exact ⟨Text.lower ('>' :: more), by simp [htail, hclosing, Text.lower]⟩
  obtain ⟨after, hbody⟩ := Text.breakBefore_fst_prefix hfound body
  have hsplit := Text.breakBefore_append closes (body ++ tail)
  have hnot := fun c rest => @Text.breakBefore_fst_not closes (body ++ tail) c rest
  have hstop := Text.breakBefore_snd closes (body ++ tail)
  set data := (Text.breakBefore closes (body ++ tail)).1 with hdata
  have hend : (Text.breakBefore closes (body ++ tail)).2 = after ++ tail := by
    apply (List.append_right_inj data).mp
    rw [hsplit, ← List.append_assoc, hbody]
  rw [hend] at hnot hstop
  refine ⟨data, after, hbody.symm, ?_, ?_, ⟨⟨r.offset, r.offset + data.size⟩, ?_⟩, ?_⟩
  · rintro ⟨front, back, hinfix⟩
    rw [List.append_assoc] at hinfix
    obtain ⟨first, last, hlast, -, hlower⟩ := List.map_eq_append_iff.mp hinfix.symm
    cases last with
    | nil => cases hlower
    | cons c rest =>
        apply Bool.false_ne_true
        rw [← hnot c rest ⟨first, hlast.symm⟩, hcloses_iff, Text.lower_append, Text.lower, hlower,
          List.append_assoc]
        exact List.prefix_append _ _
  · cases after with
    | nil => exact Or.inl rfl
    | cons c rest =>
        right
        have hprefix := hstop.resolve_left (by simp)
        rw [hcloses_iff, ← List.isPrefixOf_iff_prefix, hclosing,
          isPrefixOf_lower_append hname c rest (by simp [htail])] at hprefix
        exact List.isPrefixOf_iff_prefix.mp hprefix
  · rw [readRawText, hrest]
  · have hpassed : r.rest = data ++ (after ++ tail) := by
      rw [hrest, ← List.append_assoc, hbody]
    rw [readRawText, hrest]
    exact h.past_seek hpassed

theorem readRawText_print {source : Text} {r : Reader} (h : r.InStep source)
    {name data more : Text} (hname : isElementName name = true)
    (hdata : ¬ '<' :: '/' :: name.lower <:+: data.lower)
    (hrest : r.rest = data ++ '<' :: '/' :: (name ++ '>' :: more)) :
    ∃ span, (readRawText name r).1 =
        (if data.isEmpty then [] else [.text span data data.isBlank]) ∧
      r.Past source ('<' :: '/' :: (name ++ '>' :: more)) (readRawText name r).2 := by
  obtain ⟨before, after, hsplit, -, hafter, ⟨span, hchildren⟩, hpast⟩ :=
    readRawText_stops h hname hrest
  have hnone : after = [] := by
    refine hafter.resolve_right fun hprefix => hdata ?_
    rw [hsplit, Text.lower_append]
    exact hprefix.isInfix.trans (List.suffix_append _ _).isInfix
  rw [hnone, List.append_nil] at hsplit
  rw [hnone] at hpast
  rw [hsplit]
  exact ⟨span, hchildren, hpast⟩

theorem readClosingTag_print {source : Text} {r : Reader} (h : r.InStep source)
    {name more : Text} (hname : isElementName name = true)
    (hrest : r.rest = '<' :: '/' :: (name ++ '>' :: more)) (start : Nat) :
    r.Past source more (readClosingTag name start r) := by
  have hopens : opensClosingTag r.rest = true := by simp [hrest, opensClosingTag]
  have hinStep := (readClosingTag_further h name start).inStep
  have hbefore := h.eq_before (by simp [hrest, opensLexeme])
  rw [hrest] at hbefore
  have hlexeme : lexeme '<' ('/' :: (name ++ '>' :: more)) =
      (some .closingOpen, ['<', '/'], name ++ '>' :: more) := rfl
  have hadvance : r.advance = Reader.before (r.offset + 2) (name ++ '>' :: more) r.errors := by
    conv_lhs => rw [hbefore]
    exact Reader.before_advance hlexeme _ _
  have hhead : ∀ c ∈ ('>' :: more).head?, isRunChar c = false := by simp [isRunChar]
  obtain ⟨hnext, hkind⟩ := before_name (isName_of_isElementName hname) hhead (r.offset + 2) r.errors
  have htakeName : r.advance.takeName =
      (name, Reader.before (r.offset + 2 + name.size) ('>' :: more) r.errors) := by
    rw [hadvance, Reader.takeName, if_pos hkind, hnext.text_eq]
    exact congrArg _ hnext.advance_eq
  have hclose : (Reader.before (r.offset + 2 + name.size) ('>' :: more) r.errors).kind =
      .tagClose := Reader.before_kind rfl _ _
  have hskip := Reader.skipNewlines_eq_self (r := Reader.before (r.offset + 2 + name.size)
    ('>' :: more) r.errors) (by rw [hclose]; decide)
  have hlast : (Reader.before (r.offset + 2 + name.size) ('>' :: more) r.errors).advance =
      Reader.before (r.offset + 2 + name.size + 1) more r.errors :=
    Reader.before_advance_char rfl rfl _ _
  have hread : readClosingTag name start r =
      Reader.before (r.offset + 2 + name.size + 1) more r.errors := by
    simp only [readClosingTag, hopens, htakeName, hskip, Reader.expect, hclose, hlast, ↓reduceIte,
      Text.eqIgnoreCase, beq_self_eq_true]
  rw [hread] at hinStep ⊢
  exact ⟨hinStep, rfl, rfl⟩

theorem opensTag_of_isElementName {name : Text} (h : isElementName name = true) (more : Text) :
    opensTag ('<' :: (name ++ more)) = true := by
  cases name with
  | nil => exact absurd h (by decide)
  | cons c rest =>
      simp only [isElementName, Bool.and_eq_true] at h
      exact h.1

theorem readStartTag_past {source : Text} {r : Reader} (h : r.InStep source) {name more : Text}
    {attributes : List Attribute} {selfClosing : Bool} (hname : isElementName name = true)
    (hattributes : AttributesWellFormed attributes)
    (hrest : r.rest = '<' :: (name ++ (printAttributes attributes ++
      (tagEnd selfClosing ++ more)))) :
    opensTag r.rest = true ∧ ∃ found r',
      found.map Attribute.unplaced = attributes.map Attribute.unplaced ∧
        readStartTag r = (⟨name, found, selfClosing⟩, r') ∧ r.Past source more r' := by
  have hopens : opensTag r.rest = true := by
    rw [hrest]
    exact opensTag_of_isElementName hname _
  obtain ⟨found, offset, hfound, hread⟩ := readStartTag_print h hname hattributes hrest
  have hinStep := (readStartTag_further h hopens hread).1.inStep
  exact ⟨hopens, found, _, hfound, hread, hinStep, rfl, rfl⟩

/-- A node is read back before `more`: it is read first, up to the places of its parts,
and the reading goes on before `more` without an error. -/
def ReadsBack (options : Options) (source : Text) (r : Reader) (node : Node) (more : Text) : Prop :=
  ∃ found r', r.Past source more r' ∧ found.unplaced = node.unplaced ∧
    ∀ inside nodes r'', Reads options inside r' nodes r'' →
      Reads options inside r (found :: nodes) r''

theorem ReadsFlat.readsBack {options : Options} {source : Text} {r r' : Reader}
    {node found : Node} {more : Text} (h : ReadsFlat options r found r')
    (hpast : r.Past source more r') (hsame : found.unplaced = node.unplaced) :
    ReadsBack options source r node more :=
  ⟨found, r', hpast, hsame, fun _ _ _ hnodes => .flat h hnodes⟩

theorem readsBack_text (options : Options) {source : Text} {r : Reader} (h : r.InStep source)
    {span : Span} {data more : Text} (hne : data ≠ [])
    (hdata : ∀ suffix, suffix <:+ data → opensMarkup suffix = false)
    (hmore : more = [] ∨ opensMarkup more = true) (hrest : r.rest = data ++ more) :
    ReadsBack options source r (.text span data data.isBlank) more := by
  obtain ⟨found, hread, hpast⟩ := readText_print h hdata hmore hrest
  have hopens : opensMarkup r.rest = false := by
    cases data with
    | nil => exact absurd rfl hne
    | cons c rest =>
        rw [hrest, opensMarkup_append (head_of_opensMarkup hmore)]
        exact hdata _ (List.suffix_refl _)
  have hnonempty : r.rest ≠ [] := by
    rw [hrest]
    exact List.append_ne_nil_of_left_ne_nil hne more
  refine (ReadsFlat.text hnonempty hopens).readsBack hpast ?_
  rw [hread]
  rfl

theorem readsBack_comment (options : Options) {source : Text} {r : Reader} (h : r.InStep source)
    {span : Span} {data more : Text} (hdata : ¬ ['-', '-', '>'] <:+: data)
    (hrest : r.rest = '<' :: '!' :: '-' :: '-' :: (data ++ '-' :: '-' :: '>' :: more)) :
    ReadsBack options source r (.comment span data) more := by
  obtain ⟨found, hread, hpast⟩ := readComment_print h hdata hrest
  have hopens : opensComment r.rest = true := by
    rw [hrest]
    rfl
  refine (ReadsFlat.comment hopens).readsBack hpast ?_
  rw [hread]
  rfl

section Element

variable {options : Options} {source : Text} {r : Reader} {span : Span} {name more : Text}
  {attributes : List Attribute} {children : List Node}

theorem startTag_open (found : List Attribute) (hvoid : isVoid name = false) :
    ((⟨name, found, false⟩ : StartTag).selfClosed ||
      isVoid (⟨name, found, false⟩ : StartTag).name) = false := by
  rw [Bool.false_or]
  exact hvoid

theorem readsBack_leaf (h : r.InStep source) (hname : isElementName name = true)
    (hattributes : AttributesWellFormed attributes)
    (hrest : r.rest = '<' :: (name ++ (printAttributes attributes ++ (tagEnd true ++ more)))) :
    ReadsBack options source r (.element span name attributes [] true) more := by
  obtain ⟨hopens, found, r', hfound, hread, hpast⟩ := readStartTag_past h hname hattributes hrest
  refine (ReadsFlat.leaf hopens hread rfl).readsBack hpast ?_
  simp only [Node.unplaced, hfound]

theorem readRawText_rawBody (h : r.InStep source) (hname : isElementName name = true)
    (hbody : RawBody name children)
    (hrest : r.rest = printAll children ++ '<' :: '/' :: (name ++ '>' :: more)) :
    unplacedAll (readRawText name r).1 = unplacedAll children ∧
      r.Past source ('<' :: '/' :: (name ++ '>' :: more)) (readRawText name r).2 := by
  rcases hbody with rfl | ⟨textSpan, data, rfl, hne, hdata⟩
  · have hnone : ¬ '<' :: '/' :: name.lower <:+: Text.lower [] := by simp [Text.lower]
    obtain ⟨_, hchildren, hpast⟩ := readRawText_print h hname hnone hrest
    exact ⟨congrArg unplacedAll hchildren, hpast⟩
  · rw [printAll, printAll, Node.print, List.append_nil] at hrest
    obtain ⟨found, hchildren, hpast⟩ := readRawText_print h hname hdata hrest
    rw [List.isEmpty_eq_false_iff.mpr hne] at hchildren
    refine ⟨?_, hpast⟩
    rw [hchildren]
    rfl

theorem readsBack_raw (h : r.InStep source) (hname : isElementName name = true)
    (hattributes : AttributesWellFormed attributes) (hvoid : isVoid name = false)
    (hraw : options.isRawText name = true) (hbody : RawBody name children)
    (hrest : r.rest = '<' :: (name ++ (printAttributes attributes ++ (tagEnd false ++
      (printAll children ++ '<' :: '/' :: (name ++ '>' :: more)))))) :
    ReadsBack options source r (.element span name attributes children false) more := by
  obtain ⟨hopens, found, r₁, hfound, hread, hstart⟩ := readStartTag_past h hname hattributes hrest
  obtain ⟨hsame, hpast⟩ := readRawText_rawBody hstart.inStep hname hbody hstart.rest_eq
  rcases hreadBody : readRawText name r₁ with ⟨body, r₂⟩
  rw [hreadBody] at hsame hpast
  have hclosing := readClosingTag_print hpast.inStep hname hpast.rest_eq r.offset
  have hopen := startTag_open found hvoid
  refine (ReadsFlat.raw hopens hread hopen hraw hreadBody).readsBack ?_ ?_
  · exact hstart.trans (hpast.trans hclosing)
  · simp only [Node.unplaced, hfound, hsame]

theorem readsBack_element (h : r.InStep source) (hname : isElementName name = true)
    (hattributes : AttributesWellFormed attributes) (hvoid : isVoid name = false)
    (hraw : options.isRawText name = false)
    (hrest : r.rest = '<' :: (name ++ (printAttributes attributes ++ (tagEnd false ++
      (printAll children ++ '<' :: '/' :: (name ++ '>' :: more))))))
    (hchildren : ∀ r₁ : Reader, r₁.InStep source →
      r₁.rest = printAll children ++ '<' :: '/' :: (name ++ '>' :: more) →
      ∃ body r₂, Reads options true r₁ body r₂ ∧
        r₁.Past source ('<' :: '/' :: (name ++ '>' :: more)) r₂ ∧
        unplacedAll body = unplacedAll children) :
    ReadsBack options source r (.element span name attributes children false) more := by
  obtain ⟨hopens, found, r₁, hfound, hread, hstart⟩ := readStartTag_past h hname hattributes hrest
  obtain ⟨body, r₂, hbody, hpast, hsame⟩ := hchildren r₁ hstart.inStep hstart.rest_eq
  have hclosing := readClosingTag_print hpast.inStep hname hpast.rest_eq r.offset
  have hopen := startTag_open found hvoid
  refine ⟨_, _, hstart.trans (hpast.trans hclosing), ?_,
    fun _ _ _ hnodes => .element hopens hread hopen hraw hbody hnodes⟩
  simp only [Node.unplaced, hfound, hsame]

end Element

/-- The text of a node that is no text opens markup. -/
theorem opensMarkup_print {options : Options} {node : Node} (h : node.WellFormed options)
    (hnode : node.isText = false) (more : Text) : opensMarkup (node.print ++ more) = true := by
  cases node with
  | text span data blank => exact absurd hnode Bool.noConfusion
  | comment span data => rfl
  | element span name attributes children selfClosing =>
      rw [Node.WellFormed] at h
      have hopens := opensTag_of_isElementName h.1 (printAttributes attributes ++
        (tagEnd selfClosing ++ (if selfClosing then [] else
          printAll children ++ '<' :: '/' :: (name ++ ['>']))) ++ more)
      simp only [Node.print, opensMarkup, Bool.or_eq_true]
      left
      left
      simpa using hopens

mutual

theorem Node.readsBack (options : Options) {source : Text} (node : Node) {r : Reader} {more : Text}
    (h : r.InStep source) (hnode : node.WellFormed options) (hrest : r.rest = node.print ++ more)
    (hmore : node.isText = true → more = [] ∨ opensMarkup more = true) :
    ReadsBack options source r node more := by
  match node with
  | .text span data blank =>
      rw [Node.WellFormed] at hnode
      obtain ⟨rfl, hdata, hplain⟩ := hnode
      exact readsBack_text options h hdata hplain (hmore rfl) hrest
  | .comment span data =>
      rw [Node.WellFormed] at hnode
      exact readsBack_comment options h hnode (by simpa [Node.print] using hrest)
  | .element span name attributes children selfClosing =>
      rw [Node.WellFormed] at hnode
      obtain ⟨hname, hattributes, hvoid, hleaf, hrawBody, hbody⟩ := hnode
      cases selfClosing with
      | true =>
          obtain rfl := hleaf rfl
          exact readsBack_leaf h hname hattributes (by simpa [Node.print] using hrest)
      | false =>
          have hnotVoid : isVoid name = false := by simpa using hvoid
          cases hraw : options.isRawText name with
          | true =>
              exact readsBack_raw h hname hattributes hnotVoid hraw (hrawBody hraw)
                (by simpa [Node.print] using hrest)
          | false =>
              refine readsBack_element h hname hattributes hnotVoid hraw
                (by simpa [Node.print] using hrest) fun r₁ hinStep hrest₁ => ?_
              exact reads_printAll options children hinStep (hbody hraw) hrest₁
                (Or.inr ⟨rfl, rfl⟩)

/-- A printed list of nodes is read back node by node. -/
theorem reads_printAll (options : Options) {source : Text} (nodes : List Node) {inside : Bool}
    {r : Reader} {more : Text} (h : r.InStep source) (hnodes : AllWellFormed options nodes)
    (hrest : r.rest = printAll nodes ++ more)
    (hmore : more = [] ∨ (inside = true ∧ opensClosingTag more = true)) :
    ∃ found r', Reads options inside r found r' ∧ r.Past source more r' ∧
      unplacedAll found = unplacedAll nodes := by
  match nodes with
  | [] =>
      have hstop : r.rest = more := hrest
      refine ⟨[], r, ?_, ⟨h, hstop, rfl⟩, rfl⟩
      rcases hmore with rfl | ⟨rfl, hopens⟩
      · exact .done hstop
      · rw [← hstop] at hopens
        exact .closing hopens
  | node :: nodes =>
      rw [AllWellFormed] at hnodes
      obtain ⟨hnode, hnodes, hadjacent⟩ := hnodes
      rw [printAll, List.append_assoc] at hrest
      -- A text goes on until markup opens, so what is printed after it has to open markup.
      have hnext : node.isText = true →
          printAll nodes ++ more = [] ∨ opensMarkup (printAll nodes ++ more) = true := by
        intro htext
        match nodes with
        | [] =>
            refine hmore.imp_right fun hclosing => ?_
            simp [printAll, opensMarkup, hclosing.2]
        | next :: nodes =>
            rw [AllWellFormed] at hnodes
            have hnot : next.isText = false := by simpa [htext] using hadjacent
            rw [printAll, List.append_assoc]
            exact Or.inr (opensMarkup_print hnodes.1 hnot _)
      obtain ⟨first, r₁, hpast, hsame, hcons⟩ := node.readsBack options h hnode hrest hnext
      obtain ⟨found, r', hreads, hpast', hsame'⟩ :=
        reads_printAll options nodes hpast.inStep hnodes hpast.rest_eq hmore
      refine ⟨first :: found, r', hcons _ _ _ hreads, hpast.trans hpast', ?_⟩
      rw [unplacedAll, unplacedAll, hsame, hsame']

end

/-- Parsing undoes printing: the text of a well-formed list of nodes is read without an
error into the same nodes, up to the places of their parts. -/
theorem parse_printAll (options : Options) (nodes : List Node)
    (hnodes : AllWellFormed options nodes) :
    (parse options (printAll nodes)).errors = [] ∧
      unplacedAll (parse options (printAll nodes)).nodes = unplacedAll nodes := by
  obtain ⟨found, r, hreads, hpast, hsame⟩ := reads_printAll options nodes
    (Reader.inStep_start (printAll nodes)) hnodes (List.append_nil _).symm (Or.inl rfl)
  rw [parse_eq_of_reads hreads]
  exact ⟨hpast.errors_eq, hsame⟩

namespace RoundTripWitness

/-- An element with an attribute of each kind, around a text with a literal `<`. -/
def button : Node :=
  .element (.empty 0) "button"
    [⟨.empty 0, .empty 0, "disabled", .absent⟩,
      ⟨.empty 0, .empty 0, "title", .text (.empty 0) "a > b"⟩,
      ⟨.empty 0, .empty 0, "on:click", .expression (.empty 0) (.empty 0) "\x7b'\x7d'\x7d"⟩]
    [.text (.empty 0) "1 < 2" false, .comment (.empty 0) "note",
      .element (.empty 0) "br" [] [] true] false

/-- An element whose body holds a closing tag of another name. -/
def script : Node :=
  .element (.empty 0) "script" [] [.text (.empty 0) "a </b> c" false] false

def source : Text :=
  "<button disabled title=\"a > b\" on:click=\x7b\x7b'\x7d'\x7d\x7d>" ++
    "1 < 2<!--note--><br/></button><script>a </b> c</script>"

theorem printAll_eq : printAll [button, script] = source := by decide +kernel

theorem balanced_onClick : Balanced "\x7b'\x7d'\x7d" := by
  have hquoted : Balanced ['\'', '\x7d', '\''] :=
    @Balanced.quoted '\'' ['\x7d'] [] (by decide) (.char (by decide) (by decide) .nil) .nil
  exact @Balanced.braces ['\'', '\x7d', '\''] [] hquoted .nil

theorem wellFormed_button : button.WellFormed ⟨["script"]⟩ := by
  have hraw : Options.isRawText ⟨["script"]⟩ "button" ≠ true := by decide +kernel
  have htext : ∀ suffix ∈ List.tails "1 < 2".toList, opensMarkup suffix = false := by
    decide +kernel
  have hcomment : ¬ ['-', '-', '>'] <:+: "note".toList := by decide +kernel
  have hbr : Node.WellFormed ⟨["script"]⟩ (.element (.empty 0) "br" [] [] true) := by
    rw [Node.WellFormed]
    exact ⟨by decide, ⟨by simp, by simp⟩, fun _ => rfl, fun _ => rfl, fun _ => Or.inl rfl,
      fun _ => by simp [AllWellFormed]⟩
  rw [button, Node.WellFormed]
  refine ⟨by decide, ⟨?_, by decide⟩, by decide +kernel, by decide, fun h => absurd h hraw,
    fun _ => ?_⟩
  · intro a ha
    simp only [List.mem_cons, List.not_mem_nil, or_false] at ha
    rcases ha with rfl | rfl | rfl
    · exact ⟨by decide, trivial⟩
    · exact ⟨by decide, (by decide : '"' ∉ "a > b".toList)⟩
    · exact ⟨by decide, balanced_onClick⟩
  · simp only [AllWellFormed]
    refine ⟨?_, ⟨?_, ⟨hbr, trivial, by decide⟩, by decide⟩, by decide⟩
    · rw [Node.WellFormed]
      exact ⟨rfl, by decide,
        fun suffix hsuffix => htext suffix ((List.mem_tails suffix _).mpr hsuffix)⟩
    · rw [Node.WellFormed]
      exact hcomment

theorem wellFormed_script : script.WellFormed ⟨["script"]⟩ := by
  have hraw : Options.isRawText ⟨["script"]⟩ "script" ≠ false := by decide +kernel
  have hdata : ¬ '<' :: '/' :: Text.lower "script" <:+: Text.lower "a </b> c" := by decide +kernel
  rw [script, Node.WellFormed]
  refine ⟨by decide, ⟨by simp, by simp⟩, by decide +kernel, by decide, fun _ => ?_,
    fun h => absurd h hraw⟩
  exact Or.inr ⟨.empty 0, "a </b> c", rfl, by decide, hdata⟩

end RoundTripWitness

open RoundTripWitness in
theorem button_and_script_read_back :
    AllWellFormed ⟨["script"]⟩ [button, script] ∧ (parse ⟨["script"]⟩ source).errors = [] ∧
      unplacedAll (parse ⟨["script"]⟩ source).nodes = [button, script] := by
  have hnodes : AllWellFormed ⟨["script"]⟩ [button, script] := by
    simp only [AllWellFormed]
    exact ⟨wellFormed_button, ⟨wellFormed_script, trivial, by decide⟩, by decide⟩
  have hread := parse_printAll ⟨["script"]⟩ [button, script] hnodes
  rw [printAll_eq] at hread
  exact ⟨hnodes, hread⟩

end Markup

end Component
