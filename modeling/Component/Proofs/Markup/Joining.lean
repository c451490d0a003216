/-
Markup that goes on.

Where nothing is reported, no search runs into the end of the source: quotes, braces,
comments, raw texts and tags all end before it.  So a source without errors is read in
the same way when it goes on with further markup, and what follows is read as it would
be alone, but for its place.
-/
import Component.Proofs.Markup.Continuing
import Component.Proofs.Markup.Displacement

namespace Component

namespace Markup

section Values

variable {a b : Text} (hb : ∀ c ∈ b.head?, c = '<') {r : Reader} (h : r.InStep a)

include hb h

theorem readQuotedValue_within (name : Text) (quote : Char) (hkind : r.kind ≠ .endOfFile)
    (hend : (readQuotedValue name quote r).2.kind ≠ .endOfFile) :
    readQuotedValue name quote (r.within (a ++ b)) =
      ((readQuotedValue name quote r).1, (readQuotedValue name quote r).2.within (a ++ b)) := by
  have hstep := h.advance.inStep
  have hsplit := Text.breakBefore_append (fun t => t.head? == some quote) r.advance.rest
  unfold readQuotedValue at hend ⊢
  simp only [h.within_current hb hkind, h.advance_within hb hkind, hstep.within_rest] at hend ⊢
  by_cases hempty : (Text.breakBefore (fun t => t.head? == some quote) r.advance.rest).2 = []
  · simp only [hempty, List.isEmpty_nil, ↓reduceIte] at hend
    exact absurd (hstep.report _ _).kind_seekEnd hend
  · have hlong : ∀ s : Text, (s.head? == some quote) = true → 1 ≤ s.length := by
      intro s hs
      cases s with
      | nil => cases hs
      | cons c rest => exact Nat.succ_pos _
    have hsame : ∀ s : Text, 1 ≤ s.length →
        ((s ++ b).head? == some quote) = (s.head? == some quote) := by
      intro s hs
      obtain ⟨c, rest, rfl⟩ := List.exists_cons_of_ne_nil (List.length_pos_iff.mp hs)
      rfl
    have hlonger := Text.breakBefore_append_of_found hlong hsame hempty
    have hseek := (hstep.seek hsplit.symm).inStep
    have hnot := List.isEmpty_eq_false_iff.mpr hempty
    have hnot' : (Text.breakBefore (fun t => t.head? == some quote)
        r.advance.rest).2 ++ b ≠ [] := by simp [hempty]
    simp only [hnot, Bool.false_eq_true, ↓reduceIte] at hend
    have hlast := hseek.advance.toFurther.kind_ne_endOfFile hseek hend
    simp only [hlonger, hnot, List.isEmpty_eq_false_iff.mpr hnot', Bool.false_eq_true, ↓reduceIte,
      Reader.within_offset, hstep.seek_within hsplit.symm, hseek.advance_within hb hlast]

theorem readBareValue_within (hkind : r.kind ≠ .endOfFile)
    (hend : (readBareValue r).2.kind ≠ .endOfFile) :
    readBareValue (r.within (a ++ b)) =
      ((readBareValue r).1, (readBareValue r).2.within (a ++ b)) := by
  obtain ⟨gap, text, more, hnext⟩ := h.hasNext hkind
  have hdrop : ∀ rest : Text,
      Text.dropBytes (r.offset + gap.size - r.offset) (gap ++ rest) = rest := by
    intro rest
    rw [Nat.add_sub_cancel_left, Text.dropBytes_size_append]
  have hlong : r.rest ++ b = gap ++ ((text ++ more) ++ b) := by
    rw [hnext.rest_eq, List.append_assoc]
  unfold readBareValue at hend ⊢
  simp only [h.within_current hb hkind, h.within_rest, Reader.within_offset, hnext.span_eq]
    at hend ⊢
  rw [hlong, hdrop, hnext.rest_eq, hdrop]
  rw [hnext.rest_eq, hdrop] at hend
  set inValue : Char → Bool := fun c => !(isBlank c || c == '>')
  set value := (text ++ more).takeWhile inValue
  have hrest : r.rest = (gap ++ value) ++ (text ++ more).dropWhile inValue := by
    rw [List.append_assoc, List.takeWhile_append_dropWhile, hnext.rest_eq]
  have hsize : r.offset + gap.size + Text.size value = r.offset + Text.size (gap ++ value) := by
    rw [Text.size_append, Nat.add_assoc]
  have hstop : (text ++ more).dropWhile inValue ≠ [] := by
    intro hnil
    rw [hsize] at hend
    refine hend ((h.seek hrest).inStep.kind_of_rest_eq_nil ?_)
    rw [Reader.seek_rest hrest, hnil]
  rw [takeWhile_append_of_stopped hstop, hsize, h.seek_within hrest]

theorem readExpressionValue_within (name : Text) (hkind : r.kind ≠ .endOfFile)
    (hend : (readExpressionValue name r).2.kind ≠ .endOfFile) :
    readExpressionValue name (r.within (a ++ b)) =
      ((readExpressionValue name r).1, (readExpressionValue name r).2.within (a ++ b)) := by
  have hstep := h.advance.inStep
  unfold readExpressionValue at hend ⊢
  simp only [h.within_current hb hkind, h.advance_within hb hkind, hstep.within_rest] at hend ⊢
  cases hvalue : bracedExpression r.advance.rest with
  | none =>
      simp only [hvalue] at hend
      exact absurd (hstep.report _ _).kind_seekEnd hend
  | some cut =>
      obtain ⟨value, tail⟩ := cut
      have hlonger : bracedExpression (r.advance.rest ++ b) = some (value, tail ++ b) :=
        expressionFrom_append hvalue b
      obtain ⟨hsplit, -⟩ := expressionFrom_eq_some hvalue
      have hseek := (hstep.seek hsplit).inStep
      simp only [hvalue] at hend
      have hlast := hseek.advance.toFurther.kind_ne_endOfFile hseek hend
      simp only [hlonger, Reader.within_offset, hstep.seek_within hsplit,
        hseek.advance_within hb hlast]

theorem readValue_within (name : Text) (hend : (readValue name r).2.kind ≠ .endOfFile) :
    readValue name (r.within (a ++ b)) =
      ((readValue name r).1, (readValue name r).2.within (a ++ b)) := by
  have hkind := (readValue_spec h name).1.toFurther.kind_ne_endOfFile h hend
  unfold readValue at hend ⊢
  rw [h.within_kind hb hkind]
  split at hend
  · exact readQuotedValue_within hb h name '"' hkind hend
  · exact readQuotedValue_within hb h name '\'' hkind hend
  · exact readExpressionValue_within hb h name hkind hend
  · rw [readBareValue_within hb h hkind hend]
  · rw [readBareValue_within hb h hkind hend]
  · rw [h.reportHere_within hb hkind]

theorem readAttribute_within (hname : r.kind = .name)
    (hend : (readAttribute r).2.kind ≠ .endOfFile) :
    readAttribute (r.within (a ++ b)) =
      ((readAttribute r).1, (readAttribute r).2.within (a ++ b)) := by
  have hkind : r.kind ≠ .endOfFile := by simp [hname]
  have hstep := h.advance.inStep
  have hskip := hstep.skipNewlines.inStep
  unfold readAttribute at hend ⊢
  simp only [h.within_current hb hkind, h.advance_within hb hkind] at hend ⊢
  by_cases hequals : r.advance.skipNewlines.kind = .equals
  · have hne : r.advance.skipNewlines.kind ≠ .endOfFile := by simp [hequals]
    have hstep' := hskip.advance.inStep
    have hskip' := hstep'.skipNewlines.inStep
    simp only [hequals, ↓reduceIte] at hend
    have hvalue := (readValue_spec hskip' r.current.text).1.toFurther.kind_ne_endOfFile hskip' hend
    simp only [hstep.skipNewlines_within hb hne, hskip.within_kind hb hne, hequals, ↓reduceIte,
      hskip.advance_within hb hne, hstep'.skipNewlines_within hb hvalue,
      readValue_within hb hskip' r.current.text hend, Reader.within_offset]
  · simp only [hequals, ↓reduceIte] at hend
    simp only [hstep.skipNewlines_within hb hend, hskip.within_kind hb hend, hequals, ↓reduceIte,
      Reader.within_offset]

omit h in
theorem AttributesEnd.within {r' : Reader} (hleave : AttributesEnd r r') (h : r.InStep a)
    (hend : r'.kind ≠ .endOfFile) : AttributesEnd (r.within (a ++ b)) (r'.within (a ++ b)) := by
  have hskip := h.skipNewlines.inStep
  cases hleave with
  | tagEnd hkind =>
      rw [← h.skipNewlines_within hb hend]
      refine .tagEnd ?_
      rwa [h.skipNewlines_within hb hend, hskip.within_kind hb hend]
  | noValue hkind hread =>
      have hne : r.skipNewlines.kind ≠ .endOfFile := by simp [hkind]
      have hlonger := readAttribute_within hb hskip hkind (by rwa [hread])
      rw [hread] at hlonger
      refine .noValue ?_ ?_
      · rwa [h.skipNewlines_within hb hne, hskip.within_kind hb hne]
      · rwa [h.skipNewlines_within hb hne]

omit h in
theorem AttributeTurn.within {r' : Reader} {known known' : List Attribute}
    (hturn : AttributeTurn known r known' r') (h : r.InStep a) (hend : r'.kind ≠ .endOfFile) :
    AttributeTurn known (r.within (a ++ b)) known' (r'.within (a ++ b)) := by
  have hskip := h.skipNewlines.inStep
  have hne : r.skipNewlines.kind ≠ .endOfFile :=
    (hturn.spec h).1.toFurther.kind_ne_endOfFile hskip hend
  have hskip' := h.skipNewlines_within hb hne
  have hkind' := hskip.within_kind hb hne
  cases hturn with
  | kept hkind hread hnew =>
      have hlonger := readAttribute_within hb hskip hkind (by rwa [hread])
      rw [hread] at hlonger
      exact .kept (by rw [hskip', hkind', hkind]) (by rw [hskip', hlonger]) hnew
  | dropped hkind hread hknown =>
      have hlonger := readAttribute_within hb hskip hkind (by rw [hread]; exact hend)
      rw [hread] at hlonger
      exact .dropped (by rw [hskip', hkind', hkind]) (by rw [hskip', hlonger]) hknown
  | passedOver hkind =>
      have hreported := (hskip.reportHere
        (.unexpectedToken .attributeName r.skipNewlines.kind) rfl).inStep
      have hpassed : AttributeTurn known (r.within (a ++ b)) known _ :=
        .passedOver (by rwa [hskip', hkind'])
      rwa [hskip', hkind', hskip.reportHere_within hb hne, hreported.advance_within hb hne]
        at hpassed

omit h in
theorem ReadsAttributes.within {r' : Reader} {known known' : List Attribute}
    (hreads : ReadsAttributes known r known' r') (h : r.InStep a) (hend : r'.kind ≠ .endOfFile) :
    ReadsAttributes known (r.within (a ++ b)) known' (r'.within (a ++ b)) := by
  induction hreads with
  | leave hleave => exact .leave (hleave.within hb h hend)
  | turn hturn hmore ih =>
      have hstep := (hturn.onward h).inStep
      have hne := (hmore.spec hstep).1.toFurther.kind_ne_endOfFile hstep hend
      exact .turn (hturn.within hb h hne) (ih hstep hend)

theorem readStartTag_within (hopens : opensTag r.rest = true)
    (herrors : (readStartTag r).2.errors = []) :
    readStartTag (r.within (a ++ b)) =
      ((readStartTag r).1, (readStartTag r).2.within (a ++ b)) := by
  obtain ⟨hopening, -, -⟩ := h.tagName hopens
  have hne : r.kind ≠ .endOfFile := by simp [hopening]
  have hname := (h.expect .tagOpen).inStep
  have hstart := hname.advance.inStep
  unfold readStartTag at herrors ⊢
  simp only [h.expect_within hb hne] at herrors ⊢
  set r₁ := (r.expect .tagOpen).advance
  have hreads := exists_readsAttributes r₁.tokens.length [] r₁ hstart (Nat.le_refl _)
  rcases hfound : readAttributes r₁.tokens.length [] r₁ with ⟨known, r₂⟩
  rw [hfound] at hreads
  have honward := (hreads.spec hstart).1
  have hend : r₂.kind ≠ .endOfFile := by
    intro heof
    simp only [hfound, heof, reduceCtorEq, ↓reduceIte] at herrors
    have hclose := (Reader.expect_of_errors_eq_nil herrors).1
    rw [heof] at hclose
    cases hclose
  have hnamed := hname.advance.toFurther.kind_ne_endOfFile hname
    (honward.toFurther.kind_ne_endOfFile hstart hend)
  have hlonger : readAttributes (r₁.within (a ++ b)).tokens.length [] (r₁.within (a ++ b)) =
      (known, r₂.within (a ++ b)) :=
    (hreads.within hb hstart hend).readAttributes_eq hstart.inStep_within (Nat.le_refl _)
  have hadvance : ((r.expect .tagOpen).within (a ++ b)).advance = r₁.within (a ++ b) :=
    hname.advance_within hb hnamed
  simp only [hname.within_current hb hnamed, hadvance, hlonger,
    honward.inStep.within_kind hb hend, honward.inStep.advance_within hb hend,
    honward.inStep.expect_within hb hend]
  split_ifs <;> rfl

/-- A closing tag in which nothing is reported ends before the end of the source. -/
theorem readClosingTag_within (name : Text) (start : Nat)
    (herrors : (readClosingTag name start r).errors = []) :
    readClosingTag name start (r.within (a ++ b)) =
      (readClosingTag name start r).within (a ++ b) := by
  by_cases hopens : opensClosingTag r.rest = true
  case neg =>
    rw [readClosingTag_of_not_opens (Bool.eq_false_iff.mpr hopens)] at herrors
    simp at herrors
  obtain ⟨more, hrest, -, hcurrent⟩ := h.closingOpen hopens
  have hne : r.kind ≠ .endOfFile := by simp [Reader.kind, hcurrent]
  have hopens' : opensClosingTag (r.within (a ++ b)).rest = true := by
    rw [h.within_rest, hrest]
    rfl
  have hstep := h.advance.inStep
  have hname := hstep.takeName.inStep
  have hskip := hname.skipNewlines.inStep
  unfold readClosingTag at herrors ⊢
  simp only [hopens, hopens', ↓reduceIte] at herrors ⊢
  by_cases hfound : r.advance.takeName.1.eqIgnoreCase name = true
  case neg =>
    simp [hfound] at herrors
  simp only [hfound, ↓reduceIte] at herrors
  have hclose := (Reader.expect_of_errors_eq_nil herrors).1
  have hlast : r.advance.takeName.2.skipNewlines.kind ≠ .endOfFile := by simp [hclose]
  have hmiddle := hname.skipNewlines.toFurther.kind_ne_endOfFile hname hlast
  have hfirst := hstep.takeName.toFurther.kind_ne_endOfFile hstep hmiddle
  simp only [h.advance_within hb hne, hstep.takeName_within hb hfirst, hfound, ↓reduceIte,
    hname.skipNewlines_within hb hlast, hskip.expect_within hb hlast]

omit hb in
theorem readRawText_within (name : Text) (hfound : (readRawText name r).2.rest ≠ []) :
    readRawText name (r.within (a ++ b)) =
      ((readRawText name r).1, (readRawText name r).2.within (a ++ b)) := by
  unfold readRawText at hfound ⊢
  simp only [h.within_rest] at hfound ⊢
  set closing : Text := '<' :: '/' :: name.lower
  set closes : Text → Bool := fun t => Text.lower (t.take closing.length) == closing with hcloses
  have hsplit := Text.breakBefore_append closes r.rest
  rw [Reader.seek_rest hsplit.symm] at hfound
  have hlong : ∀ s, closes s = true → closing.length ≤ s.length := by
    intro s hs
    simp only [hcloses, lower_take_beq_eq_isPrefixOf] at hs
    simpa [Text.lower] using Text.length_le_of_isPrefixOf hs
  have hsame : ∀ s : Text, closing.length ≤ s.length → closes (s ++ b) = closes s := by
    intro s hs
    have hlower : (s ++ b).lower = s.lower ++ b.lower := List.map_append
    simp only [hcloses, lower_take_beq_eq_isPrefixOf, hlower]
    exact Text.isPrefixOf_append_of_length_le closing (by simpa [Text.lower] using hs) _
  simp only [Text.breakBefore_append_of_found hlong hsame hfound, Reader.within_offset,
    h.seek_within hsplit.symm]

omit hb in
theorem readComment_within (hopens : opensComment r.rest = true)
    (herrors : (readComment r).2.errors = []) :
    readComment (r.within (a ++ b)) =
      ((readComment r).1, (readComment r).2.within (a ++ b)) := by
  obtain ⟨more, hrest⟩ := exists_of_opensComment hopens
  have hdrop : r.rest.drop 4 = more := by
    rw [hrest]
    rfl
  have hdrop' : (r.rest ++ b).drop 4 = more ++ b := by
    rw [hrest]
    rfl
  unfold readComment at herrors ⊢
  simp only [h.within_rest, hdrop, hdrop', Reader.within_offset] at herrors ⊢
  set ends : Text → Bool := (['-', '-', '>'].isPrefixOf ·)
  have hsplit := Text.breakBefore_append ends more
  by_cases hempty : (Text.breakBefore ends more).2 = []
  · simp [hempty] at herrors
  have hlong : ∀ s, ends s = true → 3 ≤ s.length := fun _ => Text.length_le_of_isPrefixOf
  have hsame : ∀ s : Text, 3 ≤ s.length → ends (s ++ b) = ends s :=
    fun _ hs => Text.isPrefixOf_append_of_length_le ['-', '-', '>'] hs b
  have hlonger := Text.breakBefore_append_of_found hlong hsame hempty
  obtain ⟨after, hafter⟩ :=
    List.isPrefixOf_iff_prefix.mp ((Text.breakBefore_snd ends more).resolve_left hempty)
  have hnot := List.isEmpty_eq_false_iff.mpr hempty
  have hnot' : (Text.breakBefore ends more).2 ++ b ≠ [] := by simp [hempty]
  set data := (Text.breakBefore ends more).1
  have hpassed : r.rest = (['<', '!', '-', '-'] ++ (data ++ ['-', '-', '>'])) ++ after := by
    rw [hrest, ← hsplit, ← hafter]
    simp
  have hsize : r.offset + 4 + data.size + 3 =
      r.offset + Text.size (['<', '!', '-', '-'] ++ (data ++ ['-', '-', '>'])) := by
    rw [Text.size_append, Text.size_append, ← Nat.add_assoc, ← Nat.add_assoc]
    rfl
  simp only [hlonger, hnot, List.isEmpty_eq_false_iff.mpr hnot', Bool.false_eq_true, ↓reduceIte]
  rw [hsize, h.seek_within hpassed]

theorem readText_within (hmarkup : b = [] ∨ opensMarkup b = true) :
    readText (r.within (a ++ b)) = ((readText r).1, (readText r).2.within (a ++ b)) := by
  have hsplit := Text.breakBefore_append opensMarkup r.rest
  have hsame : ∀ c s, opensMarkup (c :: s ++ b) = opensMarkup (c :: s) :=
    fun _ _ => opensMarkup_append hb
  have hlonger := Text.breakBefore_append_of_stable (t := r.rest) hsame hmarkup
  simp only [readText, h.within_rest, hlonger, Reader.within_offset, h.seek_within hsplit.symm]

end Values

section Descent

variable {a b : Text} (hmarkup : b = [] ∨ opensMarkup b = true) {options : Options}

include hmarkup

theorem ReadsFlat.within {r r' : Reader} {node : Node} (hnode : ReadsFlat options r node r')
    (h : r.InStep a) (herrors : r'.errors = []) :
    ReadsFlat options (r.within (a ++ b)) node (r'.within (a ++ b)) := by
  have hb := head_of_opensMarkup hmarkup
  cases hnode with
  | comment hopens =>
      have hopens' : opensComment (r.within (a ++ b)).rest = true := by
        obtain ⟨more, hrest⟩ := exists_of_opensComment hopens
        rw [h.within_rest, hrest]
        rfl
      have hread : ReadsFlat options (r.within (a ++ b)) _ _ := .comment hopens'
      rwa [readComment_within h hopens herrors] at hread
  | text hrest hopens =>
      have hrest' : (r.within (a ++ b)).rest ≠ [] := by simp [h.within_rest, hrest]
      have hopens' : opensMarkup (r.within (a ++ b)).rest = false := by
        obtain ⟨c, rest, heq⟩ := List.exists_cons_of_ne_nil hrest
        rw [h.within_rest, ← hopens, heq]
        exact opensMarkup_append hb
      have hread : ReadsFlat options (r.within (a ++ b)) _ _ := .text hrest' hopens'
      rwa [readText_within hb h hmarkup] at hread
  | @leaf _ tag hopens htag hleaf =>
      have htag' : readStartTag (r.within (a ++ b)) = (tag, r'.within (a ++ b)) := by
        rw [readStartTag_within hb h hopens (by rw [htag]; exact herrors), htag]
      have hread : ReadsFlat options (r.within (a ++ b)) _ _ :=
        .leaf (h.opensTag_within hopens) htag' hleaf
      exact hread
  | @raw r₁ r₂ tag children hopens htag hopen hraw hbody =>
      have hstart := (readStartTag_further h hopens htag).1.inStep
      have hpassed := (readRawText_spec hstart tag.name).1
      rw [hbody] at hpassed
      obtain ⟨herrors₂, closing, ⟨_, _, _, hclosing, -⟩, hrest⟩ :=
        readClosingTag_closes hpassed.inStep herrors
      have herrors₁ := hpassed.errors_eq_nil herrors₂
      have hne : (readRawText tag.name r₁).2.rest ≠ [] := by
        rw [hbody, hrest, hclosing]
        simp
      have htag' : readStartTag (r.within (a ++ b)) = (tag, r₁.within (a ++ b)) := by
        rw [readStartTag_within hb h hopens (by rw [htag]; exact herrors₁), htag]
      have hbody' : readRawText tag.name (r₁.within (a ++ b)) = (children, r₂.within (a ++ b)) := by
        rw [readRawText_within hstart tag.name hne, hbody]
      have hread : ReadsFlat options (r.within (a ++ b)) _ _ :=
        .raw (h.opensTag_within hopens) htag' hopen hraw hbody'
      rwa [Reader.within_offset,
        readClosingTag_within hb hpassed.inStep tag.name r.offset herrors] at hread

/-- What is read without errors is read in the same way when the source goes on with
markup, and reading then goes on from there. -/
theorem Reads.within {inside : Bool} {r r' : Reader} {nodes : List Node}
    (hreads : Reads options inside r nodes r') (h : r.InStep a) (herrors : r'.errors = [])
    {more : List Node} {last : Reader}
    (hlast : Reads options inside (r'.within (a ++ b)) more last) :
    Reads options inside (r.within (a ++ b)) (nodes ++ more) last := by
  have hb := head_of_opensMarkup hmarkup
  induction hreads generalizing more last with
  | done _ => exact hlast
  | closing _ => exact hlast
  | stray hopens hmore _ =>
      obtain ⟨name, r₁, -, -, heq⟩ := skipClosingTag_spec h hopens
      have hnone := hmore.errors_eq_nil (skipClosingTag_further h hopens).1.inStep herrors
      rw [heq] at hnone
      simp at hnone
  | flat hnode hmore ih =>
      have hstep := (hnode.further h).1.inStep
      have hnone := hmore.errors_eq_nil hstep herrors
      exact .flat (hnode.within hmarkup h hnone) (ih hstep herrors hlast)
  | @element inside r r₁ r₂ r' tag children nodes hopens htag hopen hraw hchildren hmore
      ihchildren ih =>
      have hstart := (readStartTag_further h hopens htag).1.inStep
      have hbody := (hchildren.further hstart).inStep
      have hstep := (readClosingTag_further hbody tag.name r.offset).inStep
      have hnone := hmore.errors_eq_nil hstep herrors
      obtain ⟨hnone₂, closing, ⟨_, _, _, hclosing, -⟩, hrest⟩ := readClosingTag_closes hbody hnone
      have hnone₁ := hchildren.errors_eq_nil hstart hnone₂
      have htag' : readStartTag (r.within (a ++ b)) = (tag, r₁.within (a ++ b)) := by
        rw [readStartTag_within hb h hopens (by rw [htag]; exact hnone₁), htag]
      -- The children end where the closing tag begins, also when the source goes on.
      have hend : Reads options true (r₂.within (a ++ b)) [] (r₂.within (a ++ b)) := by
        refine .closing ?_
        rw [hbody.within_rest, hrest, hclosing]
        rfl
      have hchildren' := ihchildren hstart hnone₂ hend
      rw [List.append_nil] at hchildren'
      have hclosing' := readClosingTag_within hb hbody tag.name r.offset hnone
      have hmore' := ih hstep herrors hlast
      rw [← hclosing'] at hmore'
      have hread : Reads options inside (r.within (a ++ b)) _ _ :=
        .element (h.opensTag_within hopens) htag' hopen hraw hchildren' hmore'
      rwa [Reader.within_offset, hclosing'] at hread

end Descent

/-- A source without errors that goes on with markup, or not at all, is read as two: its
nodes come first, and after them the nodes of what follows, which alone can have errors.
The spans of these count from the start of the whole. -/
theorem parse_append (options : Options) (a b : Text) (ha : (parse options a).errors = [])
    (hb : b = [] ∨ opensMarkup b = true) :
    (parse options (a ++ b)).nodes =
      (parse options a).nodes ++ (parse options b).nodes.map (Node.shift a.size) ∧
    (parse options (a ++ b)).errors = (parse options b).errors.map (Error.shift a.size) := by
  obtain ⟨r, hr, hrest, herrors⟩ := exists_reads_parse options a
  obtain ⟨last, hlast, -, herrors'⟩ := exists_reads_parse options b
  rw [ha] at herrors
  have hstep := (hr.further (Reader.inStep_start a)).inStep
  have hoffset : r.offset = a.size := by
    rw [← hstep.offset_add_size, hrest]
    rfl
  have hstart : Reader.start (a ++ b) = (Reader.start a).within (a ++ b) :=
    (Reader.inStep_start (a ++ b)).eq_within rfl rfl
  -- At the end of `a` the reader stands before `b`, as at its start but further on.
  have hmiddle : (Reader.start b).shift a.size = r.within (a ++ b) := by
    have hopens : ∀ c ∈ (r.within (a ++ b)).rest.head?, opensLexeme c = true := by
      rw [hstep.within_rest, hrest]
      intro c hc
      rw [head_of_opensMarkup hb c hc]
      rfl
    rw [hstep.inStep_within.eq_before hopens, hstep.within_rest, hrest, Reader.within_offset,
      hoffset, Reader.start_shift]
    exact congrArg (Reader.mk _ _ _) herrors
  have hshifted : Reads options false ((Reader.start b).shift a.size) _ _ := hlast.shift
  rw [hmiddle] at hshifted
  have hwhole := hr.within hb (Reader.inStep_start a) herrors.symm hshifted
  rw [← hstart] at hwhole
  rw [parse_eq_of_reads hwhole, herrors']
  exact ⟨rfl, rfl⟩

namespace JoiningWitness

/-- A source without errors that ends with text. -/
def first : Text := "<i>\xe9</i>!"

/-- A source with a closing tag that closes nothing. -/
def second : Text := "<!--c--></b>"

end JoiningWitness

open JoiningWitness in
theorem stray_closing_tag_after_text :
    (parse {} first).errors = [] ∧ opensMarkup second = true ∧
      (parse {} (first ++ second)).errors = [⟨.unexpectedClosingTag "b", ⟨18, 22⟩⟩] ∧
      (parse {} (first ++ second)).nodes.map Node.span = [⟨0, 9⟩, ⟨9, 10⟩, ⟨10, 18⟩] := by
  have herrors : (parse {} first).errors = [] := by decide +kernel
  obtain ⟨hnodes, hreported⟩ := parse_append {} first second herrors (.inr (by decide))
  refine ⟨herrors, by decide, ?_, ?_⟩
  · rw [hreported]
    decide +kernel
  · rw [hnodes]
    decide +kernel

end Markup

end Component
