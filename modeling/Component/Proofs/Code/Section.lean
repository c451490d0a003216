/-
The statements of the factory as a script of their own.  If each is read where it stands,
up to the end of its line, the script has one item for each, at the place where it is
printed.
-/
import Component.Proofs.Code.Factory
import Component.Proofs.Script.Ordering

namespace Component.Script

open Component.Script.Parser

/-! ### Where a token begins -/

/-- Whether a text begins with a token at once, and not with a blank or a comment. -/
def startsWithToken : Text → Bool
  | [] => false
  | c :: text => (Gap.plain.step c text.head?).isNone

theorem skipGap_lead {lead text : Text} (hlead : isGap lead = true)
    (htext : startsWithToken text = true) (newline : Bool) (offset : Nat) :
    ∃ newline', skipGap .plain newline offset (lead ++ text) =
      some (newline', ⟨text, offset + lead.size⟩) := by
  induction lead generalizing newline offset with
  | nil =>
      cases text with
      | nil => cases htext
      | cons c text =>
          have hstep : Gap.plain.step c text.head? = none :=
            Option.isNone_iff_eq_none.1 htext
          exact ⟨newline, by rw [List.nil_append, skipGap, hstep]; rfl⟩
  | cons c lead ih =>
      simp only [isGap, List.all_cons, Bool.and_eq_true, Bool.or_eq_true, beq_iff_eq] at hlead
      have hblank : (isLineBreak c || isSpace c) = true := by
        obtain rfl | rfl := hlead.1 <;> decide
      have hstep : Gap.plain.step c (lead ++ text).head? = some .plain := by
        simp only [Gap.step, hblank, if_true]
      obtain ⟨newline', hmore⟩ := ih hlead.2 (newline || isLineBreak c) (offset + c.utf8Size)
      refine ⟨newline', ?_⟩
      rw [List.cons_append, skipGap, hstep]
      simp only [hmore, Text.size_cons, Nat.add_assoc]

/-- The next token of a state stands right after the blanks and line ends. -/
theorem State.here_eq {s : State} {lead text : Text} (hs : s.ahead.rest = lead ++ text)
    (hlead : isGap lead = true) (htext : startsWithToken text = true) :
    s.next.here = ⟨text, s.ahead.offset + lead.size⟩ := by
  have hlexed := s.lexed
  obtain ⟨newline, hgap⟩ := skipGap_lead hlead htext false s.ahead.offset
  rw [readLexeme, hs, hgap] at hlexed
  obtain ⟨_, -, hnext⟩ := Option.bind_eq_some_iff.1 (show (readToken text).bind _ = _ from hlexed)
  rw [← Option.some.inj hnext]

/-! ### Statements at the top level -/

theorem goesOn_of_readTopLevel {text rest : Text} {depth : Nat} {Fits : (Span → Item) → Prop}
    (h : (readTopLevel (.atDepth depth) .module).Reads text Fits rest) : GoesOn text := by
  obtain ⟨token, newline, after, hbegins⟩ := Begins.exists_of_isSome h.1
  refine ⟨token, newline, after, hbegins, ?_⟩
  rintro rfl
  obtain ⟨s, s', item, hs, hrun, -⟩ := h.exists_run
  rw [readTopLevel_eq_none (.alternative (hbegins.token_eq hs)) rfl] at hrun
  cases hrun

/-- A conditional statement is read at the top level as in a block. -/
theorem readTopLevel_if {lead text rest : Text} {g : Grammar} {c : Context}
    (hlead : isGap lead = true) (hends : endsWord text = true)
    (h : (readItemOrStatement g c).Reads (lead ++ ("if".toList ++ text)) (fun _ => True) rest) :
    (readTopLevel g c).Reads (lead ++ ("if".toList ++ text)) (fun _ => True) rest := by
  have hword : isWord "if" = true := by decide
  obtain ⟨newline, hif⟩ := (Begins.word hword hends).gap hlead
  refine (h.map (g := fun hoisted span => Item.statement span hoisted) fun _ _ => trivial).of_eq
    fun s hs => ?_
  have htoken := hif.token_eq hs
  rw [readTopLevel_statement g c (by simp [htoken]) (by simp [htoken]), bind_apply, bind_apply,
    readItemOrStatement_eq g c (by decide) htoken]

end Component.Script

namespace Component.Code

open Component.Script Component.Script.Parser

/-! ### Places -/

/-- The text of a statement of the factory, without its indentation and line end. -/
def BodyItem.text (item : BodyItem) : Text := (item.render.drop 2).dropLast

theorem BodyItem.text_of_render {item : BodyItem} {inner : Text}
    (h : item.render = indent 1 ++ (inner ++ ['\n'])) : item.text = inner := by
  rw [BodyItem.text, h]
  exact List.dropLast_concat

theorem BodyItem.render_eq (item : BodyItem) :
    item.render = indent 1 ++ (item.text ++ ['\n']) := by
  have hframe : ∀ inner : Text, item.render = indent 1 ++ (inner ++ ['\n']) →
      item.render = indent 1 ++ (item.text ++ ['\n']) := by
    intro inner hinner
    rw [text_of_render hinner, hinner]
  cases item with
  | verbatim source => exact hframe source (by simp [BodyItem.render])
  | stmt s =>
      cases s with
      | expr e => exact hframe (e.render ++ [';']) (by simp [BodyItem.render, Stmt.render])
      | ifThen test body =>
          refine hframe ("if (" ++ test.render ++ [')', ' ', '{', '\n'] ++
            Stmt.renderAll 2 body ++ indent 1 ++ ['}']) ?_
          simp [BodyItem.render, Stmt.render]

theorem BodyItem.render_append (item : BodyItem) (rest : Text) :
    item.render ++ rest = indent 1 ++ (item.text ++ '\n' :: rest) := by
  rw [item.render_eq]
  simp

theorem BodyItem.size_render (item : BodyItem) : item.render.size = 2 + (item.text.size + 1) := by
  rw [item.render_eq, Text.size_append, Text.size_append]
  rfl

/-- The places of statements of the factory that are printed from an offset on. -/
def placesFrom (offset : Nat) : List BodyItem → List Span
  | [] => []
  | item :: more =>
      ⟨offset + 2, offset + 2 + item.text.size⟩ :: placesFrom (offset + item.render.size) more

theorem placesFrom_concat (offset : Nat) (items : List BodyItem) (item : BodyItem) :
    placesFrom offset (items ++ [item]) = placesFrom offset items ++
      [⟨offset + Text.size (items.flatMap BodyItem.render) + 2,
        offset + Text.size (items.flatMap BodyItem.render) + 2 + item.text.size⟩] := by
  induction items generalizing offset with
  | nil => rfl
  | cons first items ih =>
      rw [List.cons_append, placesFrom, ih, placesFrom, List.cons_append, List.flatMap_cons,
        Text.size_append]
      simp only [Nat.add_assoc]

theorem length_placesFrom (offset : Nat) (items : List BodyItem) :
    (placesFrom offset items).length = items.length := by
  induction items generalizing offset with
  | nil => rfl
  | cons item items ih => rw [placesFrom, List.length_cons, List.length_cons, ih]

theorem le_start_of_mem_placesFrom {offset : Nat} {items : List BodyItem} {place : Span}
    (h : place ∈ placesFrom offset items) : offset ≤ place.start := by
  induction items generalizing offset with
  | nil => simp [placesFrom] at h
  | cons item more ih =>
      rcases List.mem_cons.mp h with rfl | hmore
      · exact Nat.le_add_right _ _
      · exact Nat.le_trans (Nat.le_add_right _ _) (ih hmore)

/-- No two statements of the factory share a place. -/
theorem placesFrom_pairwise (offset : Nat) (items : List BodyItem) :
    (placesFrom offset items).Pairwise fun first second => first.stop < second.start := by
  induction items generalizing offset with
  | nil => exact List.Pairwise.nil
  | cons item more ih =>
      refine List.Pairwise.cons ?_ (ih _)
      intro place hplace
      have hstart := le_start_of_mem_placesFrom hplace
      rw [item.size_render] at hstart
      simp only
      omega

/-- Each statement of the factory is found at its place. -/
theorem read_placesFrom (before : Text) (items : List BodyItem) :
    (placesFrom before.size items).map (·.read (before ++ items.flatMap BodyItem.render)) =
      items.map BodyItem.text := by
  induction items generalizing before with
  | nil => rfl
  | cons item more ih =>
      have hfirst := Span.read_append (before ++ indent 1) item.text
        ('\n' :: more.flatMap BodyItem.render)
      have hmore := ih (before ++ item.render)
      rw [Text.size_append] at hfirst hmore
      simp only [placesFrom, List.map_cons, List.flatMap_cons, List.cons.injEq]
      constructor
      · have hindent : (indent 1).size = 2 := rfl
        rw [item.render_eq]
        simpa [hindent] using hfirst
      · simpa using hmore

/-! ### Reading the statements -/

/-- Statements of the factory that are read where they stand in a script of their own: those
of the component's script from their first character on, at the top level, and default values
as the values of assignments. -/
structure StandAlone (items : List BodyItem) : Prop where
  plain : ∀ item ∈ items, item.IsPlain
  statements : ∀ before source after, items = before ++ .verbatim source :: after →
    startsWithToken (source ++ '\n' :: after.flatMap BodyItem.render) = true ∧
      Stands (readTopLevel · .module) source ('\n' :: after.flatMap BodyItem.render)
  defaults : ∀ before p value after,
    items = before ++ .stmt (Lifecycle.applyDefault p value) :: after →
      Stands (readAssignment · .module) value
        (';' :: '\n' :: (indent 1 ++ '}' :: '\n' :: after.flatMap BodyItem.render))

theorem applyDefault_append (p : Property) (value rest : Text) :
    ∃ more, endsWord more = true ∧ (Lifecycle.applyDefault p value).render 1 ++ rest =
      indent 1 ++ ("if".toList ++ more) :=
  ⟨_, rfl, Stmt.render_ifThen_append 1 _ _ rest⟩

namespace StandAlone

variable {items before after : List BodyItem} {item : BodyItem}

theorem startsWithToken (h : StandAlone items) (hitems : items = before ++ item :: after) :
    Script.startsWithToken (item.text ++ '\n' :: after.flatMap BodyItem.render) = true := by
  cases h.plain item (by simp [hitems]) with
  | verbatim source =>
      have htext : (BodyItem.verbatim source).text = source :=
        BodyItem.text_of_render (by simp [BodyItem.render])
      rw [htext]
      exact (h.statements before source after hitems).1
  | @default p _ value =>
      obtain ⟨more, -, hif⟩ := applyDefault_append p value (after.flatMap BodyItem.render)
      have hrender := BodyItem.render_append (.stmt (Lifecycle.applyDefault p value))
        (after.flatMap BodyItem.render)
      rw [BodyItem.render, hif] at hrender
      rw [← List.append_cancel_left hrender]
      rfl

theorem goesOn (h : StandAlone items) (hitems : items = before ++ after) :
    GoesOn ('\n' :: after.flatMap BodyItem.render) := by
  cases after with
  | nil => exact ⟨_, _, _, Begins.nil.line, by simp⟩
  | cons item after =>
      cases h.plain item (by simp [hitems]) with
      | verbatim source =>
          have hsource := (h.statements before source after hitems).2.reads _ ('\n' :: indent 1)
            (Nat.le_refl _) (isGap_line 1)
          simpa [BodyItem.render] using goesOn_of_readTopLevel hsource
      | @default p _ value =>
          have hword : isWord "if" = true := by decide
          obtain ⟨more, hends, hif⟩ := applyDefault_append p value (after.flatMap BodyItem.render)
          obtain ⟨newline, hbegins⟩ := (Begins.word hword hends).gap (isGap_line 1)
          rw [List.flatMap_cons, BodyItem.render, hif]
          exact ⟨_, newline, more, hbegins, by simp⟩

/-- Each statement is read up to the end of its line. -/
theorem reads_item (h : StandAlone items) (hitems : items = before ++ item :: after) {depth : Nat}
    (hdepth : 2 * item.render.length + 4 ≤ depth) {lead : Text} (hlead : isGap lead = true) :
    (readTopLevel (.atDepth depth) .module).Reads
      (lead ++ (item.render ++ after.flatMap BodyItem.render)) (fun _ => True)
      ('\n' :: after.flatMap BodyItem.render) := by
  cases h.plain item (by simp [hitems]) with
  | verbatim source =>
      have hsource := (h.statements before source after hitems).2
      have hlength : (BodyItem.verbatim source).render.length = source.length + 3 := by
        simp [BodyItem.render, indent]
      have hreads := hsource.reads depth (lead ++ indent 1) (by omega)
        (isGap_append hlead (isGap_indent 1))
      simpa [BodyItem.render] using hreads
  | @default p hname value =>
      have hvalue := h.defaults before p value after hitems
      have hshort := length_le_length_applyDefault p value
      rw [BodyItem.render] at hdepth
      obtain ⟨depth, rfl⟩ : ∃ more, depth = more + 5 := ⟨depth - 5, by omega⟩
      have hreads := hvalue.reads (depth + 1) [' '] (by omega) isGap_space
      have hgoesOn := h.goesOn (hitems.trans (List.append_cons before _ after))
      have hstatement := readItem_default (c := .module) hname hreads hlead rfl hgoesOn
      obtain ⟨more, hends, hif⟩ := applyDefault_append p value (after.flatMap BodyItem.render)
      rw [hif, ← List.append_assoc] at hstatement
      rw [BodyItem.render, hif, ← List.append_assoc]
      exact readTopLevel_if (isGap_append hlead (isGap_indent 1)) hends hstatement

section Loop

variable {depth total : Nat}

/-- One statement, and those after it. -/
theorem loops_item (h : StandAlone items) (hitems : items = before ++ item :: after)
    (hdepth : 2 * item.render.length + 4 ≤ depth) {lead final : Text} (hlead : isGap lead = true)
    (hmore : ∀ known, known.length + after.length = total →
      Loops (moduleStep (.atDepth depth)) known ('\n' :: after.flatMap BodyItem.render)
        (fun all => all.length = total) final)
    {known : List Item} (htotal : known.length + (item :: after).length = total) :
    Loops (moduleStep (.atDepth depth)) known
      (lead ++ (item.render ++ after.flatMap BodyItem.render))
      (fun all => all.length = total) final := by
  refine .more (moduleStep_item (h.reads_item hitems hdepth hlead) known) ?_ ?_
  · have hindent : (indent 1).length = 2 := rfl
    simp only [BodyItem.render_append, List.length_append, List.length_cons]
    omega
  · rintro _ ⟨_, _, -, rfl⟩
    apply hmore
    rw [List.length_append, List.length_singleton, ← htotal, List.length_cons]
    omega

theorem loops_items (h : StandAlone items)
    (hdepth : ∀ item ∈ items, 2 * item.render.length + 4 ≤ depth)
    (hitems : items = before ++ after) {known : List Item}
    (htotal : known.length + after.length = total) :
    Loops (moduleStep (.atDepth depth)) known ('\n' :: after.flatMap BodyItem.render)
      (fun all => all.length = total) ['\n'] := by
  induction after generalizing before known with
  | nil => exact moduleStep_end Begins.nil.line htotal
  | cons item after ih =>
      have hafter : items = (before ++ [item]) ++ after := by simp [hitems]
      exact h.loops_item hitems (hdepth item (by simp [hitems])) isGap_newline
        (fun _ => ih hafter) htotal

end Loop

theorem start_section (items : List BodyItem) :
    Input.start (items.flatMap BodyItem.render) = ⟨items.flatMap BodyItem.render, 0⟩ := by
  refine Input.start_eq fun rest heq => ?_
  cases items with
  | nil => cases heq
  | cons item more =>
      rw [List.flatMap_cons, BodyItem.render_append] at heq
      cases heq

theorem depth_le {item : BodyItem} (h : item ∈ items) :
    2 * item.render.length + 4 ≤ 2 * (items.flatMap BodyItem.render).length + 4 := by
  have := length_le_length_flatMap (f := BodyItem.render) h
  omega

/-- The section is read as a script with one item for each statement. -/
theorem exists_parse (h : StandAlone items) :
    ∃ found, Script.parse (items.flatMap BodyItem.render) = some found ∧
      found.length = items.length := by
  cases hitems : items with
  | nil => exact ⟨[], rfl, rfl⟩
  | cons first more =>
      rw [← hitems]
      have hfirst : items = [] ++ first :: more := hitems
      have hrest : items = [first] ++ more := hitems
      have hcount : ([] : List Item).length + (first :: more).length = items.length := by
        simp [hitems]
      have hall := h.loops_item hfirst (depth_le (by simp [hitems])) isGap_nil
        (fun _ => h.loops_items (fun _ => depth_le) hrest) hcount
      have htext : items.flatMap BodyItem.render =
          [] ++ (first.render ++ more.flatMap BodyItem.render) := by simp [hitems]
      rw [← htext] at hall
      obtain ⟨found, hparse, hfound⟩ := parse_of_reads (start_section items) hall.repeated
      exact ⟨found, hparse, hfound⟩

/-- Where a statement has been read: from its first character up to the end of its line. -/
theorem offsets_item (h : StandAlone items) (hitems : items = before ++ item :: after)
    {depth : Nat} (hdepth : 2 * item.render.length + 4 ≤ depth) {m last : State} {lead : Text}
    {make : Span → Item} (hlead : isGap lead = true)
    (hrest : m.ahead.rest = lead ++ (item.render ++ after.flatMap BodyItem.render))
    (htop : readTopLevel (.atDepth depth) .module m = some (make, last)) :
    m.next.here.offset = m.ahead.offset + lead.size + 2 ∧
      last.ahead = ⟨'\n' :: after.flatMap BodyItem.render,
        m.ahead.offset + lead.size + 2 + item.text.size⟩ := by
  obtain ⟨_, _, hrun, -, hlast⟩ := (h.reads_item hitems hdepth hlead).2 m hrest
  obtain ⟨rfl, rfl⟩ := Prod.mk.inj (Option.some.inj (htop.symm.trans hrun))
  have hindent : (indent 1).size = 2 := rfl
  rw [BodyItem.render_append, ← List.append_assoc] at hrest
  have hhere := State.here_eq hrest (isGap_append hlead (isGap_indent 1))
    (h.startsWithToken hitems)
  rw [Text.size_append, hindent, ← Nat.add_assoc] at hhere
  -- what has been passed ends where the rest begins, so it is the text of the statement
  have hpass := Passes.readTopLevel (Grammar.passes_atDepth depth) m _ _ htop
  obtain ⟨passed, hpassed, hstop⟩ := hpass.upto
  rw [hhere, hlast] at hpassed
  obtain rfl := List.append_cancel_right hpassed
  rw [hhere] at hstop
  refine ⟨by rw [hhere], ?_⟩
  rw [← hlast, ← hstop]

/-- The items that have been read up to a state are the first statements, at their places. -/
def ReadUpTo (items : List BodyItem) (s : State) (known : List Item) : Prop :=
  ∃ before after lead, items = before ++ after ∧ known.map Item.span = placesFrom 0 before ∧
    isGap lead = true ∧ s.ahead.rest = lead ++ after.flatMap BodyItem.render ∧
    s.ahead.offset + lead.size = Text.size (before.flatMap BodyItem.render)

theorem readUpTo_step (h : StandAlone items) {depth : Nat}
    (hdepth : ∀ item ∈ items, 2 * item.render.length + 4 ≤ depth) {m last : State}
    {known : List Item} {make : Span → Item} (hknown : ReadUpTo items m known)
    (htoken : m.next.token ≠ .endOfInput)
    (htop : readTopLevel (.atDepth depth) .module m = some (make, last)) :
    ReadUpTo items last (known ++ [make ⟨m.next.here.offset, last.ahead.offset⟩]) := by
  obtain ⟨before, after, lead, hitems, hspans, hlead, hrest, hoffset⟩ := hknown
  cases after with
  | nil =>
      obtain ⟨newline, hend⟩ := Begins.nil.gap hlead
      exact absurd (hend.token_eq hrest) htoken
  | cons item after =>
      obtain ⟨hstart, hlast⟩ :=
        h.offsets_item hitems (hdepth item (by simp [hitems])) hlead hrest htop
      rw [hoffset] at hstart hlast
      rw [hstart, hlast]
      refine ⟨before ++ [item], after, ['\n'], by simp [hitems], ?_, isGap_newline, ?_, ?_⟩
      · rw [List.map_append, List.map_singleton, span_of_readTopLevel m _ _ htop, hspans,
          placesFrom_concat, Nat.zero_add]
      · rw [hlast]
        rfl
      · have hline : Text.size ['\n'] = 1 := rfl
        simp only [hlast, List.flatMap_append, Text.size_append, List.flatMap_singleton,
          item.size_render, hline]
        omega

/-- The script that the statements make has one item for each of them, and each item stands
where the statement is printed. -/
theorem parse_places (h : StandAlone items) :
    ∃ found, Script.parse (items.flatMap BodyItem.render) = some found ∧
      found.map Item.span = placesFrom 0 items := by
  obtain ⟨found, hparse, hlength⟩ := h.exists_parse
  obtain ⟨s, s', hahead, hmodule⟩ := exists_readModule_of_parse hparse
  have hnothing : ReadUpTo items s [] := by
    refine ⟨[], items, [], rfl, rfl, isGap_nil, ?_, ?_⟩
    · rw [hahead, start_section]
      rfl
    · rw [hahead, start_section]
      rfl
  obtain ⟨before, after, -, hitems, hspans, -⟩ :=
    holds_of_readModule (ReadUpTo items) (fun _ _ _ _ => h.readUpTo_step fun _ => depth_le) hnothing
      hmodule
  -- as many items as statements: none is left
  have hbefore := congrArg List.length hspans
  have hcount := congrArg List.length hitems
  rw [List.length_map, length_placesFrom, hlength] at hbefore
  rw [List.length_append] at hcount
  obtain rfl : after = [] := List.length_eq_zero_iff.1 (by omega)
  rw [List.append_nil] at hitems
  exact ⟨found, hparse, hitems ▸ hspans⟩

/-- The script that the statements make consists of their texts. -/
theorem read_section (h : StandAlone items) :
    ∃ found, Script.read (items.flatMap BodyItem.render) = .ok found ∧
      found.map Item.span = placesFrom 0 items ∧
      found.map (fun item => item.span.read (items.flatMap BodyItem.render)) =
        items.map BodyItem.text := by
  obtain ⟨found, hparse, hspans⟩ := h.parse_places
  have htexts := read_placesFrom [] items
  refine ⟨found, by rw [Script.read, hparse], hspans, ?_⟩
  rw [← htexts, Text.size_nil, ← hspans, List.map_map]
  rfl

end StandAlone

end Component.Code
