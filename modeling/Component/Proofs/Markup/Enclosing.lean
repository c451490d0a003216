/-
Elements from their start tag to their closing tag.

A start tag takes any run of characters as the name of its element.  The closing tag that
repeats the name does not always end the element: a raw text ends before it if `</` and the
name stand somewhere in it, even as the beginning of a longer name, and a closing tag takes
no other name than one that has the form of a name.
-/
import Component.Proofs.Markup.RoundTrip

namespace Component.Markup

/-- A text between the two tags of an element. -/
def enclose (name body : Text) : Text :=
  '<' :: (name ++ '>' :: (body ++ '<' :: '/' :: (name ++ ['>'])))

def BeginsWithLetter (name : Text) : Prop := ∃ c ∈ name.head?, c.isAlpha = true

theorem beginsWithLetter_of_isElementName {name : Text} (h : isElementName name = true) :
    BeginsWithLetter name := by
  cases name with
  | nil => exact absurd h (by decide)
  | cons c rest =>
      simp only [isElementName, Bool.and_eq_true] at h
      exact ⟨c, rfl, h.1⟩

/-- A start tag without attributes has a whole run as its name. -/
theorem readStartTag_run {source : Text} {r : Reader} (h : r.InStep source) {name more : Text}
    (hletter : BeginsWithLetter name) (hrun : ∀ c ∈ name, isRunChar c = true)
    (hrest : r.rest = '<' :: (name ++ '>' :: more)) :
    opensTag r.rest = true ∧
      readStartTag r = (⟨name, [], false⟩,
        Reader.before (r.offset + 1 + name.size + 1) more r.errors) := by
  obtain ⟨c, hhead, halpha⟩ := hletter
  obtain ⟨rest, rfl⟩ := List.head?_eq_some_iff.mp hhead
  have hexpect : r.expect .tagOpen =
      Reader.before (r.offset + 1) (c :: (rest ++ '>' :: more)) r.errors :=
    expect_tagOpen_before h halpha hrest
  have hclose : ∀ d ∈ ('>' :: more).head?, isRunChar d = false := by simp [isRunChar]
  have hlexeme := lexeme_of_run hrun hclose
  have htext : (r.expect .tagOpen).current.text = c :: rest := by
    rw [hexpect]
    exact (Reader.before_hasNext hlexeme _ _).1.text_eq
  have hstep := (h.expect .tagOpen).inStep.advance.inStep
  have hadvance : (r.expect .tagOpen).advance =
      Reader.before (r.offset + 1 + Text.size (c :: rest)) ('>' :: more) r.errors := by
    rw [hexpect]
    exact Reader.before_advance hlexeme _ _
  set r₁ := (r.expect .tagOpen).advance with hr₁
  have hends : AttributesEnd r₁ r₁ := by
    rw [hadvance]
    exact attributesEnd_print false more _ _
  have hleave : ReadsAttributes [] r₁ [] r₁ := .leave hends
  have hread := hleave.readAttributes_eq hstep (Nat.le_refl _)
  have hkind : r₁.kind = .tagClose := by
    rw [hadvance]
    exact Reader.before_kind rfl _ _
  constructor
  · rw [hrest]
    exact halpha
  · unfold readStartTag
    simp only [htext, ← hr₁, hread]
    rw [if_neg (by rw [hkind]; decide), Reader.expect, if_pos hkind, hadvance]
    exact congrArg _ (Reader.before_advance_char rfl rfl _ _)

/-! ### Raw texts -/

/-- Nothing is wrong in the document, which is one element of a name with a text in it. -/
def Document.IsElement (d : Document) (name content : Text) : Prop :=
  d.errors = [] ∧ ∃ span children, d.nodes = [.element span name [] children false] ∧
    Node.textContent (.element span name [] children false) = content

/-- The part of a body before the first place where `</` and the name stand, in letters of
either case. -/
def IsUpToName (name body data : Text) : Prop :=
  ∃ after, body = data ++ after ∧ ¬ '<' :: '/' :: name.lower <:+: data.lower ∧
    (after = [] ∨ '<' :: '/' :: name.lower <+: after.lower)

theorem IsUpToName.eq_iff {name body data : Text} (h : IsUpToName name body data) :
    data = body ↔ ¬ '<' :: '/' :: name.lower <:+: body.lower := by
  obtain ⟨after, rfl, hdata, hafter⟩ := h
  constructor
  · intro hsame
    rwa [← hsame]
  · intro hbody
    have hnone : after = [] := by
      apply hafter.resolve_right
      intro hprefix
      apply hbody
      rw [Text.lower_append]
      exact hprefix.isInfix.trans (List.suffix_append _ _).isInfix
    rw [hnone, List.append_nil]

/-- An element with a raw text is read up to the first place where its closing tag seems to
begin.  If that is the closing tag itself, nothing is left to read. -/
theorem parse_rawText {options : Options} {name : Text} (body : Text)
    (hname : isElementName name = true) (hvoid : isVoid name = false)
    (hraw : options.isRawText name = true) :
    ∃ span children more data, (parse options (enclose name body)).nodes =
        .element span name [] children false :: more ∧
      Node.textContent (.element span name [] children false) = data ∧
      IsUpToName name body data ∧
      (data = body → more = [] ∧ (parse options (enclose name body)).errors = []) := by
  have hstart := Reader.inStep_start (enclose name body)
  have hrest : (Reader.start (enclose name body)).rest =
      '<' :: (name ++ '>' :: (body ++ '<' :: '/' :: (name ++ ['>']))) := rfl
  obtain ⟨hopens, htag⟩ := readStartTag_run hstart (beginsWithLetter_of_isElementName hname)
    (isRunChar_of_isName (isName_of_isElementName hname)) hrest
  have hstep := (readStartTag_further hstart hopens htag).1.inStep
  obtain ⟨data, after, hbody, hdata, hafter, ⟨inner, hchildren⟩, hpast⟩ :=
    readRawText_stops hstep hname rfl
  set r₁ := Reader.before ((Reader.start (enclose name body)).offset + 1 + name.size + 1)
    (body ++ '<' :: '/' :: (name ++ ['>'])) (Reader.start (enclose name body)).errors
  rcases hread : readRawText name r₁ with ⟨children, r₂⟩
  rw [hread] at hchildren hpast
  simp only at hchildren hpast
  have hflat := ReadsFlat.raw hopens htag (startTag_open [] hvoid) hraw hread
  have hfurther := (hflat.further hstart).1
  -- The closing tag is the last thing to be read, if the body ends there.
  obtain ⟨more, r₃, hmore, hlast⟩ : ∃ more r₃,
      Reads options false (readClosingTag name 0 r₂) more r₃ ∧
        (data = body → more = [] ∧ r₃.errors = []) := by
    by_cases hwhole : data = body
    · have hnone : after = [] := by simpa [hwhole] using hbody
      rw [hnone] at hpast
      have hclosing := readClosingTag_print hpast.inStep hname hpast.rest_eq 0
      have herrors := hclosing.errors_eq.trans hpast.errors_eq
      exact ⟨[], _, .done hclosing.rest_eq, fun _ => ⟨rfl, herrors⟩⟩
    · obtain ⟨more, r₃, hmore⟩ := exists_reads options false _ hfurther.inStep
      exact ⟨more, r₃, hmore, fun heq => absurd heq hwhole⟩
  rw [parse_eq_of_reads (.flat hflat hmore)]
  refine ⟨_, children, more, data, rfl, ?_, ⟨after, hbody, hdata, hafter⟩, hlast⟩
  rw [Node.textContent, hchildren]
  split_ifs with hempty
  · exact (List.isEmpty_iff.mp hempty).symm
  · simp [Node.ownText]

theorem Reads.text_first {options : Options} {inside : Bool} {r r' : Reader} {nodes : List Node}
    (h : Reads options inside r nodes r') (hrest : r.rest ≠ [])
    (hopens : opensMarkup r.rest = false) : ∃ more, nodes = (readText r).1 :: more := by
  simp only [opensMarkup, Bool.or_eq_false_iff] at hopens
  obtain ⟨⟨htag, hclosing⟩, hcomment⟩ := hopens
  cases h with
  | done hend => exact absurd hend hrest
  | closing hopens => exact absurd hopens (Bool.eq_false_iff.mp hclosing)
  | stray hopens _ => exact absurd hopens (Bool.eq_false_iff.mp hclosing)
  | flat hnode _ =>
      cases hnode with
      | comment hopens => exact absurd hopens (Bool.eq_false_iff.mp hcomment)
      | text _ _ => exact ⟨_, rfl⟩
      | leaf hopens _ _ => exact absurd hopens (Bool.eq_false_iff.mp htag)
      | raw hopens _ _ _ _ => exact absurd hopens (Bool.eq_false_iff.mp htag)
  | element hopens _ _ _ _ _ => exact absurd hopens (Bool.eq_false_iff.mp htag)

/-- A name that begins with `_`, `:` or `@` opens no element. -/
theorem opensMarkup_of_not_isElementName {name : Text} (hname : isName name = true)
    (hnot : isElementName name = false) (more : Text) :
    opensMarkup ('<' :: (name ++ more)) = false := by
  cases name with
  | nil => exact absurd hname (by decide)
  | cons c rest =>
      simp only [isName, isNameStart, Bool.and_eq_true, Bool.or_eq_true, beq_iff_eq] at hname
      simp only [isElementName, hname.2, Bool.and_true] at hnot
      rcases hname.1 with ((halpha | rfl) | rfl) | rfl
      · exact absurd halpha (Bool.eq_false_iff.mp hnot)
      all_goals rfl

/-- A raw text ends where `</` and the name of its element stand for the first time, whatever
follows there, so that all of a body is the text of the element if and only if they stand
nowhere in it.  The element itself needs a name that begins with a letter. -/
theorem raw_text_ends_where_name_begins (options : Options) (name body : Text)
    (hname : isName name = true) (hvoid : isVoid name = false)
    (hraw : options.isRawText name = true) :
    ((parse options (enclose name body)).IsElement name body ↔
      isElementName name = true ∧ ¬ '<' :: '/' :: name.lower <:+: body.lower) ∧
    (isElementName name = true → ∃ span children more,
      (parse options (enclose name body)).nodes = .element span name [] children false :: more ∧
      IsUpToName name body (Node.textContent (.element span name [] children false))) := by
  cases hletter : isElementName name with
  | true =>
      obtain ⟨span, children, more, data, hnodes, hcontent, hdata, hlast⟩ :=
        parse_rawText body hletter hvoid hraw
      constructor
      · rw [← hdata.eq_iff]
        constructor
        · rintro ⟨-, other, others, hone, hwhole⟩
          rw [hnodes] at hone
          obtain ⟨hsame, -⟩ := List.cons.inj hone
          rw [← hsame, hcontent] at hwhole
          exact ⟨rfl, hwhole⟩
        · rintro ⟨-, hwhole⟩
          obtain ⟨rfl, herrors⟩ := hlast hwhole
          exact ⟨herrors, span, children, hnodes, hcontent.trans hwhole⟩
      · intro _
        rw [← hcontent] at hdata
        exact ⟨span, children, more, hnodes, hdata⟩
  | false =>
      constructor
      · constructor
        · rintro ⟨-, span, children, hnodes, -⟩
          obtain ⟨r, hreads, -, -⟩ := exists_reads_parse options (enclose name body)
          have hopens := opensMarkup_of_not_isElementName hname hletter
            ('>' :: (body ++ '<' :: '/' :: (name ++ ['>'])))
          obtain ⟨more, hfirst⟩ := hreads.text_first (List.cons_ne_nil _ _) hopens
          rw [hnodes] at hfirst
          cases (List.cons.inj hfirst).1
        · rintro ⟨hfalse, -⟩
          cases hfalse
      · intro hfalse
        cases hfalse

/-- Whether a text begins with a closing tag of a name, in letters of either case. -/
def beginsClosingTag (name t : Text) : Bool :=
  ('<' :: '/' :: name.lower).isPrefixOf t.lower &&
    (t.drop (name.length + 2)).head?.all fun c => isBlank c || c == '/' || c == '>'

namespace EnclosingWitness

/-- A script with a string that holds closing tags of other names. -/
def body : Text := "if (a < 2) b = '</p></scrip>'"

end EnclosingWitness

open EnclosingWitness in
theorem script_with_tags_in_string :
    isName "sCript" = true ∧ isVoid "sCript" = false ∧ Options.isRawText {} "sCript" = true ∧
      (parse {} (enclose "sCript" body)).IsElement "sCript" body := by
  have hname : isName "sCript" = true := by decide
  have hvoid : isVoid "sCript" = false := by decide +kernel
  have hraw : Options.isRawText {} "sCript" = true := by decide +kernel
  have hbody : ¬ '<' :: '/' :: Text.lower "sCript" <:+: Text.lower body := by decide +kernel
  have hends := raw_text_ends_where_name_begins {} "sCript" body hname hvoid hraw
  exact ⟨hname, hvoid, hraw, hends.1.mpr ⟨by decide, hbody⟩⟩

/-- No closing tag of a script stands in the body, only one of a longer name, and still the
script ends there. -/
theorem longer_name_ends_script :
    isName "script" = true ∧ isVoid "script" = false ∧ Options.isRawText {} "script" = true ∧
      (∀ t ∈ List.tails "</scripty>".toList, beginsClosingTag "script" t = false) ∧
      ¬ (parse {} (enclose "script" "</scripty>")).IsElement "script" "</scripty>" := by
  refine ⟨by decide, by decide +kernel, by decide +kernel, by decide +kernel, ?_⟩
  rintro ⟨herrors, -⟩
  have hfound : (parse {} (enclose "script" "</scripty>")).errors =
      [⟨.mismatchedClosingTag "script" "scripty", ⟨8, 18⟩⟩,
        ⟨.unexpectedClosingTag "script", ⟨18, 27⟩⟩] := rfl
  rw [hfound] at herrors
  cases herrors

/-! ### Names of closing tags -/

/-- What can stand as a name after `<`: a letter first, no whitespace and no delimiter. -/
def IsTagName (name : Text) : Prop :=
  BeginsWithLetter name ∧
    ∀ c ∈ name, isBlank c = false ∧ c ∉ ['<', '>', '/', '=', '"', '\'', '{', '}']

-- Tested along the name: a quantifier over characters may also be decided by going through
-- all characters there are, which is too much to evaluate.
instance (name : Text) : Decidable (IsTagName name) :=
  decidable_of_iff (name.head?.any Char.isAlpha = true ∧ name.all (fun c => !isBlank c &&
    !(['<', '>', '/', '=', '"', '\'', '{', '}'].contains c)) = true) (by
      simp [IsTagName, BeginsWithLetter, Option.any_eq_true])

theorem IsTagName.isRunChar {name : Text} (h : IsTagName name) :
    ∀ c ∈ name, isRunChar c = true := by
  intro c hc
  obtain ⟨hblank, hdelimiter⟩ := h.2 c hc
  simp only [List.mem_cons, List.not_mem_nil, or_false, not_or] at hdelimiter
  simp [Markup.isRunChar, hblank, hdelimiter]

theorem IsTagName.isElementName {name : Text} (h : IsTagName name) (hname : isName name = true) :
    isElementName name = true := by
  obtain ⟨c, hhead, halpha⟩ := h.1
  obtain ⟨rest, rfl⟩ := List.head?_eq_some_iff.mp hhead
  simp only [isName, Bool.and_eq_true] at hname
  simp [Markup.isElementName, halpha, hname.2]

theorem opensMarkup_eq_false_of_not_mem {t : Text} (h : '<' ∉ t) : opensMarkup t = false := by
  rw [Bool.eq_false_iff]
  intro hopens
  cases t with
  | nil => exact absurd hopens (by decide)
  | cons c rest =>
      have hc := head_of_opensMarkup (Or.inr hopens) c rfl
      exact h (hc ▸ List.mem_cons_self)

/-- A closing tag with a name that does not have the form of a name is read as if it had none:
the reader stays before the name. -/
theorem readClosingTag_run {source : Text} {r : Reader} (h : r.InStep source)
    {name more : Text} (hletter : BeginsWithLetter name) (hrun : ∀ c ∈ name, isRunChar c = true)
    (hname : isName name = false) (hmore : ∀ c ∈ more.head?, isRunChar c = false)
    (hrest : r.rest = '<' :: '/' :: (name ++ more)) (start : Nat) :
    (readClosingTag name start r).rest = name ++ more ∧
      (readClosingTag name start r).errors.map Error.fault = r.errors.map Error.fault ++
        [.unexpectedToken (.token .tagClose) .text, .mismatchedClosingTag name []] := by
  obtain ⟨c, hhead, -⟩ := hletter
  obtain ⟨rest, rfl⟩ := List.head?_eq_some_iff.mp hhead
  have hopens : opensClosingTag r.rest = true := by simp [hrest, opensClosingTag]
  have hbefore := h.eq_before (by simp [hrest, opensLexeme])
  rw [hrest] at hbefore
  have hlexeme : lexeme '<' ('/' :: (c :: rest ++ more)) =
      (some .closingOpen, ['<', '/'], c :: rest ++ more) := rfl
  have hadvance : r.advance = Reader.before (r.offset + 2) (c :: (rest ++ more)) r.errors := by
    conv_lhs => rw [hbefore]
    exact Reader.before_advance hlexeme _ _
  have hkind : r.advance.kind = .text := by
    rw [hadvance, Reader.before_kind (lexeme_of_run hrun hmore), if_neg (by simp [hname])]
  have htake : r.advance.takeName = ([], r.advance) := by
    rw [Reader.takeName, if_neg (by rw [hkind]; decide)]
  have hskip := Reader.skipNewlines_eq_self (r := r.advance) (by rw [hkind]; decide)
  have hexpect : r.advance.expect .tagClose =
      r.advance.reportHere (.unexpectedToken (.token .tagClose) .text) := by
    rw [Reader.expect, if_neg (by rw [hkind]; decide), hkind]
  have hfound : Text.eqIgnoreCase [] (c :: rest) = false := by
    simp [Text.eqIgnoreCase, Text.lower]
  simp only [readClosingTag, hopens, htake, hskip, hexpect, hfound, ↓reduceIte,
    Bool.false_eq_true]
  rw [hadvance]
  constructor
  · rfl
  · simp [Reader.reportHere, Reader.before]

theorem IsTagName.opensMarkup_eq_false {name suffix : Text} (h : IsTagName name)
    (hsuffix : suffix <:+ name ++ ['>']) : opensMarkup suffix = false := by
  apply opensMarkup_eq_false_of_not_mem
  intro hmem
  rcases List.mem_append.mp (hsuffix.subset hmem) with hin | hin
  · exact absurd (h.isRunChar _ hin) (by decide)
  · exact absurd hin (by decide)

/-- A text that opens no markup and ends the source is read as one node, without an error. -/
theorem exists_reads_last_text (options : Options) {source : Text} {r : Reader}
    (h : r.InStep source) {data : Text} (hne : data ≠ [])
    (hdata : ∀ suffix, suffix <:+ data → opensMarkup suffix = false) (hrest : r.rest = data) :
    ∃ span r', Reads options false r [.text span data data.isBlank] r' ∧
      r'.errors = r.errors := by
  have hwhole : r.rest = data ++ [] := by rw [hrest, List.append_nil]
  obtain ⟨span, hnode, hpast⟩ := readText_print h hdata (Or.inl rfl) hwhole
  have hopens : opensMarkup r.rest = false := by
    rw [hrest]
    exact hdata data (List.suffix_refl _)
  have hflat : ReadsFlat options r (readText r).1 (readText r).2 := .text (by rwa [hrest]) hopens
  rw [hnode] at hflat
  exact ⟨span, _, .flat hflat (.done hpast.rest_eq), hpast.errors_eq⟩

/-- The two tags of an empty element agree on every name that has the form of a name.  Any
other run of characters is taken by the start tag only: the closing tag goes without a name,
and what stands after its `</` is text. -/
theorem closing_tag_takes_names_only (options : Options) (name : Text) (hname : IsTagName name)
    (hvoid : isVoid name = false) (hraw : options.isRawText name = false) :
    (isName name = true → (parse options (enclose name [])).errors = [] ∧
      ∃ span, (parse options (enclose name [])).nodes = [.element span name [] [] false]) ∧
    (isName name = false → (parse options (enclose name [])).errors.map Error.fault =
        [.unexpectedToken (.token .tagClose) .text, .mismatchedClosingTag name []] ∧
      ∃ span span', (parse options (enclose name [])).nodes =
        [.element span name [] [] false, .text span' (name ++ ['>']) false]) := by
  have hstart := Reader.inStep_start (enclose name [])
  have hrest : (Reader.start (enclose name [])).rest =
      '<' :: (name ++ '>' :: '<' :: '/' :: (name ++ ['>'])) := rfl
  obtain ⟨hopens, htag⟩ := readStartTag_run hstart hname.1 hname.isRunChar hrest
  have hstep := (readStartTag_further hstart hopens htag).1.inStep
  set r₁ := Reader.before ((Reader.start (enclose name [])).offset + 1 + name.size + 1)
    ('<' :: '/' :: (name ++ ['>'])) (Reader.start (enclose name [])).errors
  have hchildren : Reads options true r₁ [] r₁ := .closing rfl
  have hclosing := readClosingTag_further hstep name 0
  -- Whatever the closing tag leaves to be read follows the element.
  have hparse : ∀ nodes r, Reads options false (readClosingTag name 0 r₁) nodes r →
      ∃ span, parse options (enclose name []) =
        ⟨⟨0, Text.size (enclose name [])⟩, .element span name [] [] false :: nodes, r.errors⟩ := by
    intro nodes r hnodes
    have hreads := Reads.element hopens htag (startTag_open [] hvoid) hraw hchildren hnodes
    exact ⟨_, parse_eq_of_reads hreads⟩
  constructor
  · intro hform
    have hpast := readClosingTag_print hstep (hname.isElementName hform) rfl 0
    obtain ⟨span, heq⟩ := hparse [] _ (.done hpast.rest_eq)
    rw [heq]
    exact ⟨hpast.errors_eq, span, rfl⟩
  · intro hform
    obtain ⟨hleft, herrors⟩ := readClosingTag_run hstep hname.1 hname.isRunChar hform
      (by simp [isRunChar]) rfl 0
    obtain ⟨span', r₂, hlast, hsame⟩ := exists_reads_last_text options hclosing.inStep
      (by simp) (fun _ hsuffix => hname.opensMarkup_eq_false hsuffix) hleft
    obtain ⟨span, heq⟩ := hparse _ _ hlast
    have hblank : Text.isBlank (name ++ ['>']) = false := by
      rw [Text.isBlank, List.all_append]
      exact Bool.and_false _
    rw [heq, hblank]
    constructor
    · rw [hsame, herrors]
      rfl
    · exact ⟨span, span', rfl⟩

theorem dotted_name_closes :
    IsTagName "my-list.v2" ∧ isVoid "my-list.v2" = false ∧
      Options.isRawText {} "my-list.v2" = false ∧
      (parse {} (enclose "my-list.v2" [])).errors = [] ∧
      ∃ span, (parse {} (enclose "my-list.v2" [])).nodes =
        [.element span "my-list.v2" [] [] false] := by
  have hname : IsTagName "my-list.v2" := by decide +kernel
  have hvoid : isVoid "my-list.v2" = false := by decide +kernel
  have hraw : Options.isRawText {} "my-list.v2" = false := by decide +kernel
  exact ⟨hname, hvoid, hraw,
    (closing_tag_takes_names_only {} "my-list.v2" hname hvoid hraw).1 (by decide)⟩

/-- A name with a letter outside of ASCII opens an element that its closing tag does not close. -/
theorem accented_name_not_closed :
    IsTagName "x-\xe9" ∧ isVoid "x-\xe9" = false ∧ Options.isRawText {} "x-\xe9" = false ∧
      (parse {} (enclose "x-\xe9" [])).errors ≠ [] ∧
      (parse {} (enclose "x-\xe9" [])).nodes.length = 2 := by
  refine ⟨by decide +kernel, by decide +kernel, by decide +kernel, ?_, rfl⟩
  have hfound : (parse {} (enclose "x-\xe9" [])).errors =
      [⟨.unexpectedToken (.token .tagClose) .text, ⟨8, 12⟩⟩,
        ⟨.mismatchedClosingTag "x-\xe9" [], ⟨6, 8⟩⟩] := rfl
  rw [hfound]
  exact List.cons_ne_nil _ _

end Component.Markup
