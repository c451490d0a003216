/-
Documents by recursive descent.

A list of sibling nodes is read one node after another, and the children of an
element are read as a list of their own.  The rules say what list of nodes a reader
reads.  Every reader in step reads one, and the document that is parsed with a stack
of open elements is the one that the rules give.
-/
import Component.Proofs.Markup.Progress

namespace Component.Markup

/-- A node that is read at once: a comment, a text, an element without a body, and an
element with a raw-text body. -/
inductive ReadsFlat (options : Options) : Reader → Node → Reader → Prop where
  | comment {r : Reader} (hopens : opensComment r.rest = true) :
      ReadsFlat options r (readComment r).1 (readComment r).2
  | text {r : Reader} (hrest : r.rest ≠ []) (hopens : opensMarkup r.rest = false) :
      ReadsFlat options r (readText r).1 (readText r).2
  | leaf {r r' : Reader} {tag : StartTag} (hopens : opensTag r.rest = true)
      (htag : readStartTag r = (tag, r')) (hleaf : (tag.selfClosed || isVoid tag.name) = true) :
      ReadsFlat options r
        (.element ⟨r.offset, r'.offset⟩ tag.name tag.attributes [] true) r'
  | raw {r r' r'' : Reader} {tag : StartTag} {children : List Node}
      (hopens : opensTag r.rest = true) (htag : readStartTag r = (tag, r'))
      (hopen : (tag.selfClosed || isVoid tag.name) = false)
      (hraw : options.isRawText tag.name = true)
      (hbody : readRawText tag.name r' = (children, r'')) :
      ReadsFlat options r
        (.element ⟨r.offset, (readClosingTag tag.name r.offset r'').offset⟩ tag.name
          tag.attributes children false)
        (readClosingTag tag.name r.offset r'')

/-- The list of sibling nodes that a reader reads, inside an element up to a closing
tag and otherwise up to the end of the source, and the reader after it. -/
inductive Reads (options : Options) : Bool → Reader → List Node → Reader → Prop where
  | done {inside : Bool} {r : Reader} (hrest : r.rest = []) : Reads options inside r [] r
  | closing {r : Reader} (hopens : opensClosingTag r.rest = true) : Reads options true r [] r
  | stray {r r' : Reader} {nodes : List Node} (hopens : opensClosingTag r.rest = true)
      (hmore : Reads options false (skipClosingTag r) nodes r') : Reads options false r nodes r'
  | flat {inside : Bool} {r r' r'' : Reader} {node : Node} {nodes : List Node}
      (hnode : ReadsFlat options r node r') (hmore : Reads options inside r' nodes r'') :
      Reads options inside r (node :: nodes) r''
  | element {inside : Bool} {r r₁ r₂ r' : Reader} {tag : StartTag} {children nodes : List Node}
      (hopens : opensTag r.rest = true) (htag : readStartTag r = (tag, r₁))
      (hopen : (tag.selfClosed || isVoid tag.name) = false)
      (hraw : options.isRawText tag.name = false)
      (hchildren : Reads options true r₁ children r₂)
      (hmore : Reads options inside (readClosingTag tag.name r.offset r₂) nodes r') :
      Reads options inside r
        (.element ⟨r.offset, (readClosingTag tag.name r.offset r₂).offset⟩ tag.name
          tag.attributes children false :: nodes) r'

theorem opensTag_excludes {t : Text} (h : opensTag t = true) :
    opensClosingTag t = false ∧ opensComment t = false := by
  obtain ⟨c, rest, rfl, halpha⟩ := exists_of_opensTag h
  constructor
  · cases hopens : opensClosingTag ('<' :: c :: rest) with
    | false => rfl
    | true =>
        obtain ⟨more, hmore⟩ := exists_of_opensClosingTag hopens
        simp only [List.cons.injEq, true_and] at hmore
        rw [hmore.1] at halpha
        exact absurd halpha (by decide)
  · cases hopens : opensComment ('<' :: c :: rest) with
    | false => rfl
    | true =>
        obtain ⟨more, hmore⟩ := exists_of_opensComment hopens
        simp only [List.cons.injEq, true_and] at hmore
        rw [hmore.1] at halpha
        exact absurd halpha (by decide)

theorem opensComment_excludes {t : Text} (h : opensComment t = true) :
    opensClosingTag t = false := by
  obtain ⟨more, rfl⟩ := exists_of_opensComment h
  rfl

theorem readStartTag_further {source : Text} {r r' : Reader} {tag : StartTag}
    (h : r.InStep source) (hopens : opensTag r.rest = true) (htag : readStartTag r = (tag, r')) :
    Reader.Onward source r r' ∧ r.offset + 1 + tag.name.size ≤ r'.offset := by
  obtain ⟨honward, -, -, hordered⟩ := readStartTag_spec h hopens
  rw [htag] at honward hordered
  exact ⟨honward, hordered.le⟩

theorem ReadsFlat.further {options : Options} {source : Text} {r r' : Reader} {node : Node}
    (h : ReadsFlat options r node r') (hr : r.InStep source) :
    Reader.Further source r r' ∧ r.offset < r'.offset := by
  cases h with
  | comment hopens => exact readComment_further hr hopens
  | text hrest hopens => exact readText_further hr hrest hopens
  | leaf hopens htag _ =>
      obtain ⟨honward, hpassed⟩ := readStartTag_further hr hopens htag
      exact ⟨honward.toFurther, by omega⟩
  | @raw r₁ r₂ tag children hopens htag _ _ hbody =>
      obtain ⟨honward, hpassed⟩ := readStartTag_further hr hopens htag
      have hraw : Reader.Onward source r₁ r₂ := by
        have hspec := (readRawText_spec honward.inStep tag.name).1
        rwa [hbody] at hspec
      have hclosing := hraw.toFurther.trans (readClosingTag_further hraw.inStep tag.name r.offset)
      have hle := hclosing.offset_le
      exact ⟨honward.toFurther.trans hclosing, by omega⟩

theorem ReadsFlat.span_eq {options : Options} {source : Text} {r r' : Reader} {node : Node}
    (h : ReadsFlat options r node r') (hr : r.InStep source) :
    node.span = ⟨r.offset, r'.offset⟩ := by
  cases h with
  | comment hopens =>
      obtain ⟨data, hnode, -⟩ := readComment_spec hr hopens
      rw [hnode]
      rfl
  | text hrest hopens =>
      obtain ⟨-, data, -, -, hoffset, hnode⟩ := readText_spec hr hrest hopens
      rw [hnode, hoffset]
      rfl
  | leaf _ _ _ => rfl
  | raw _ _ _ _ _ => rfl

theorem Reads.further {options : Options} {source : Text} {inside : Bool} {r r' : Reader}
    {nodes : List Node} (h : Reads options inside r nodes r') (hr : r.InStep source) :
    Reader.Further source r r' := by
  induction h with
  | done _ => exact (Reader.Onward.refl hr).toFurther
  | closing _ => exact (Reader.Onward.refl hr).toFurther
  | stray hopens _ ih =>
      have hskip := (skipClosingTag_further hr hopens).1
      exact hskip.trans (ih hskip.inStep)
  | flat hnode _ ih =>
      have hflat := (hnode.further hr).1
      exact hflat.trans (ih hflat.inStep)
  | @element _ r r₁ r₂ _ tag _ _ hopens htag _ _ _ _ ihchildren ih =>
      have hstart := (readStartTag_further hr hopens htag).1.toFurther
      have hchildren := ihchildren hstart.inStep
      have hclosing := readClosingTag_further hchildren.inStep tag.name r.offset
      exact hstart.trans (hchildren.trans (hclosing.trans (ih hclosing.inStep)))

theorem Reads.stops {options : Options} {inside : Bool} {r r' : Reader} {nodes : List Node}
    (h : Reads options inside r nodes r') :
    r'.rest = [] ∨ (inside = true ∧ opensClosingTag r'.rest = true) := by
  induction h with
  | done hrest => exact Or.inl hrest
  | closing hopens => exact Or.inr ⟨rfl, hopens⟩
  | stray _ _ ih => exact ih
  | flat _ _ ih => exact ih
  | element _ _ _ _ _ _ _ ih => exact ih

/-- Every reader in step reads a list of nodes. -/
theorem exists_reads (options : Options) {source : Text} (inside : Bool) (r : Reader)
    (hr : r.InStep source) : ∃ nodes r', Reads options inside r nodes r' := by
  induction hlength : r.rest.length using Nat.strong_induction_on generalizing inside r with
  | _ n ih =>
      -- Whatever is read first leaves less to read, so the rest is read by induction.
      have hmore : ∀ inside r', Reader.Further source r r' → r.offset < r'.offset →
          ∃ nodes r'', Reads options inside r' nodes r'' := by
        intro inside r' hfurther hpassed
        have hshorter := hfurther.length_rest_lt hpassed
        exact ih r'.rest.length (by omega) inside r' hfurther.inStep rfl
      have hflat : ∀ node r', ReadsFlat options r node r' →
          ∃ nodes r'', Reads options inside r nodes r'' := by
        intro node r' hnode
        obtain ⟨hfurther, hpassed⟩ := hnode.further hr
        obtain ⟨nodes, r'', hnodes⟩ := hmore inside r' hfurther hpassed
        exact ⟨_, _, .flat hnode hnodes⟩
      by_cases hrest : r.rest = []
      · exact ⟨_, _, .done hrest⟩
      by_cases hclosing : opensClosingTag r.rest = true
      · cases inside with
        | true => exact ⟨_, _, .closing hclosing⟩
        | false =>
            obtain ⟨hfurther, hpassed⟩ := skipClosingTag_further hr hclosing
            obtain ⟨nodes, r', hnodes⟩ := hmore false _ hfurther hpassed
            exact ⟨_, _, .stray hclosing hnodes⟩
      by_cases hcomment : opensComment r.rest = true
      · exact hflat _ _ (.comment hcomment)
      by_cases hopens : opensTag r.rest = true
      · rcases htag : readStartTag r with ⟨tag, r₁⟩
        cases hleaf : (tag.selfClosed || isVoid tag.name) with
        | true => exact hflat _ _ (.leaf hopens htag hleaf)
        | false =>
            cases hraw : options.isRawText tag.name with
            | true => exact hflat _ _ (.raw hopens htag hleaf hraw rfl)
            | false =>
                obtain ⟨hstart, hpassed⟩ := readStartTag_further hr hopens htag
                obtain ⟨children, r₂, hchildren⟩ := hmore true r₁ hstart.toFurther (by omega)
                have hbody := hchildren.further hstart.inStep
                have hend := readClosingTag_further hbody.inStep tag.name r.offset
                have hwhole := hbody.trans hend
                have hle := hwhole.offset_le
                obtain ⟨nodes, r', hnodes⟩ :=
                  hmore inside _ (hstart.toFurther.trans hwhole) (by omega)
                exact ⟨_, _, .element hopens htag hleaf hraw hchildren hnodes⟩
      · refine hflat _ _ (.text hrest (opensMarkup_eq_false ?_ ?_ ?_))
        · exact Bool.eq_false_iff.mpr hopens
        · exact Bool.eq_false_iff.mpr hclosing
        · exact Bool.eq_false_iff.mpr hcomment

namespace Builder

/-- Reads the source to its end and ends the open elements. -/
def complete (options : Options) (b : Builder) : Builder :=
  (run options b.reader.rest.length b).finish

theorem run_of_rest_eq_nil (options : Options) {b : Builder} (hrest : b.reader.rest = [])
    (steps : Nat) : run options steps b = b := by
  cases steps with
  | zero => rfl
  | succ steps => simp [run, hrest]

theorem run_eq_of_le (options : Options) {source : Text} {steps steps' : Nat} {b : Builder}
    (h : b.reader.InStep source) (hsteps : b.reader.rest.length ≤ steps)
    (hsteps' : b.reader.rest.length ≤ steps') : run options steps b = run options steps' b := by
  induction steps generalizing steps' b with
  | zero =>
      have hrest := List.length_eq_zero_iff.mp (Nat.le_zero.mp hsteps)
      rw [run_of_rest_eq_nil options hrest, run_of_rest_eq_nil options hrest]
  | succ steps ih =>
      by_cases hrest : b.reader.rest = []
      · rw [run_of_rest_eq_nil options hrest, run_of_rest_eq_nil options hrest]
      · obtain ⟨hfurther, hpassed⟩ := step_further options h hrest
        have hshorter := hfurther.length_rest_lt hpassed
        have hpos := List.length_pos_iff.mpr hrest
        obtain ⟨steps', rfl⟩ := Nat.exists_eq_add_of_le' (Nat.le_trans hpos hsteps')
        have hnot : b.reader.rest.isEmpty = false := List.isEmpty_eq_false_iff.mpr hrest
        rw [run, run, hnot]
        exact ih hfurther.inStep (by omega) (by omega)

theorem complete_of_rest_eq_nil (options : Options) {b : Builder} (hrest : b.reader.rest = []) :
    b.complete options = b.finish := by
  rw [complete, run_of_rest_eq_nil options hrest]

theorem complete_step (options : Options) {source : Text} {b : Builder}
    (h : b.reader.InStep source) (hrest : b.reader.rest ≠ []) :
    (b.step options).complete options = b.complete options := by
  obtain ⟨hfurther, hpassed⟩ := step_further options h hrest
  have hshorter := hfurther.length_rest_lt hpassed
  have hpos := List.length_pos_iff.mpr hrest
  obtain ⟨steps, hsteps⟩ := Nat.exists_eq_add_of_le' hpos
  have hnot : b.reader.rest.isEmpty = false := List.isEmpty_eq_false_iff.mpr hrest
  rw [complete, complete, hsteps, run, hnot]
  exact congrArg finish (run_eq_of_le options hfurther.inStep (Nat.le_refl _) (by omega))

theorem complete_close (options : Options) {source : Text} {b : Builder}
    (h : b.reader.InStep source) (hstack : b.stack ≠ [])
    (hend : b.reader.rest = [] ∨ opensClosingTag b.reader.rest = true) :
    b.close.complete options = b.complete options := by
  rcases hend with hrest | hopens
  · rw [complete_of_rest_eq_nil options hrest,
      complete_of_rest_eq_nil options (close_rest_eq_nil hrest), finish_close hstack]
  · have hrest := ne_nil_of_opens rfl hopens
    have hstep : b.step options = b.close := by
      simp [step, hopens, hstack]
    rw [← hstep, complete_step options h hrest]

/-- Adds finished nodes and moves the reader on. -/
def extend (b : Builder) (nodes : List Node) (r : Reader) : Builder :=
  nodes.foldl add { b with reader := r }

theorem foldl_add_of_stack {b : Builder} {element : OpenElement} {outer : List OpenElement}
    (hstack : b.stack = element :: outer) (nodes : List Node) :
    nodes.foldl add b =
      { b with stack := { element with children := element.children ++ nodes } :: outer } := by
  induction nodes generalizing b element with
  | nil => simp [← hstack]
  | cons node nodes ih =>
      have hadd : b.add node =
          { b with stack := { element with children := element.children ++ [node] } :: outer } := by
        simp only [add, hstack]
      rw [List.foldl_cons, hadd, ih rfl]
      simp

theorem foldl_add_of_stack_nil {b : Builder} (hstack : b.stack = []) (nodes : List Node) :
    nodes.foldl add b = { b with nodes := b.nodes ++ nodes } := by
  induction nodes generalizing b with
  | nil => simp
  | cons node nodes ih =>
      have hadd : b.add node = { b with nodes := b.nodes ++ [node] } := by
        simp only [add, hstack]
      rw [List.foldl_cons, hadd]
      rw [ih (show ({ b with nodes := b.nodes ++ [node] } : Builder).stack = [] from hstack)]
      simp

theorem add_extend (b : Builder) (node : Node) (nodes : List Node) (r : Reader) :
    (b.add node).extend nodes r = b.extend (node :: nodes) r := by
  rcases b with ⟨r', _ | ⟨element, outer⟩, known⟩ <;> rfl

theorem stack_add_ne_nil_iff (b : Builder) (node : Node) :
    (b.add node).stack ≠ [] ↔ b.stack ≠ [] := by
  rw [← List.length_pos_iff, ← List.length_pos_iff, length_stack_add]

theorem step_of_readsFlat {options : Options} {b : Builder} {node : Node} {r : Reader}
    (h : ReadsFlat options b.reader node r) :
    b.reader.rest ≠ [] ∧ b.step options = ({ b with reader := r } : Builder).add node := by
  cases h with
  | comment hopens =>
      refine ⟨ne_nil_of_opens rfl hopens, ?_⟩
      simp [step, opensComment_excludes hopens, hopens]
  | text hrest hopens =>
      simp only [opensMarkup, Bool.or_eq_false_iff] at hopens
      refine ⟨hrest, ?_⟩
      simp [step, hopens]
  | leaf hopens htag hleaf =>
      obtain ⟨hclosing, hcomment⟩ := opensTag_excludes hopens
      refine ⟨ne_nil_of_opens rfl hopens, ?_⟩
      simp only [step, hclosing, hcomment, hopens, openElement, htag, hleaf]
      rfl
  | raw hopens htag hopen hraw hbody =>
      obtain ⟨hclosing, hcomment⟩ := opensTag_excludes hopens
      refine ⟨ne_nil_of_opens rfl hopens, ?_⟩
      simp only [step, hclosing, hcomment, hopens, openElement, htag, hopen, hraw, hbody]
      rfl

theorem step_of_opensTag {options : Options} {b : Builder} {tag : StartTag} {r : Reader}
    (hopens : opensTag b.reader.rest = true) (htag : readStartTag b.reader = (tag, r))
    (hopen : (tag.selfClosed || isVoid tag.name) = false)
    (hraw : options.isRawText tag.name = false) :
    b.reader.rest ≠ [] ∧ b.step options =
      ⟨r, ⟨b.reader.offset, tag.name, tag.attributes, []⟩ :: b.stack, b.nodes⟩ := by
  obtain ⟨hclosing, hcomment⟩ := opensTag_excludes hopens
  constructor
  · exact ne_nil_of_opens rfl hopens
  · simp only [step, hclosing, hcomment, hopens, openElement, htag, hopen, hraw]
    rfl

/-- Reading on from a builder whose reader reads a list of nodes is reading on from the
builder that has them. -/
theorem complete_of_reads {options : Options} {source : Text} {inside : Bool} {r r' : Reader}
    {nodes : List Node} (h : Reads options inside r nodes r') {b : Builder} (hreader : b.reader = r)
    (hr : r.InStep source) (hinside : inside = true ↔ b.stack ≠ []) :
    b.complete options = (b.extend nodes r').complete options := by
  induction h generalizing b with
  | done _ =>
      subst hreader
      rfl
  | closing _ =>
      subst hreader
      rfl
  | stray hopens _ ih =>
      subst hreader
      have hstack : b.stack = [] := by simpa using hinside
      have hrest := ne_nil_of_opens rfl hopens
      have hstep : b.step options = { b with reader := skipClosingTag b.reader } := by
        simp [step, hopens, hstack]
      rw [← complete_step options hr hrest, hstep]
      exact ih rfl (skipClosingTag_further hr hopens).1.inStep hinside
  | flat hnode _ ih =>
      subst hreader
      obtain ⟨hrest, hstep⟩ := step_of_readsFlat hnode
      rw [← complete_step options hr hrest, hstep, ih (add_reader _ _) (hnode.further hr).1.inStep,
        add_extend]
      · rfl
      · rw [hinside, stack_add_ne_nil_iff]
  | @element _ r r₁ r₂ _ tag children _ hopens htag hopen hraw hchildren _ ihchildren ih =>
      subst hreader
      obtain ⟨hrest, hstep⟩ := step_of_opensTag hopens htag hopen hraw
      have hstart := (readStartTag_further hr hopens htag).1
      have hbody := hchildren.further hstart.inStep
      have hclosing := readClosingTag_further hbody.inStep tag.name b.reader.offset
      have hstops : r₂.rest = [] ∨ opensClosingTag r₂.rest = true :=
        hchildren.stops.imp_right And.right
      -- The children are added to the element on the stack, which is then closed.
      have hextend : extend ⟨r₁, ⟨b.reader.offset, tag.name, tag.attributes, []⟩ :: b.stack,
          b.nodes⟩ children r₂ =
          ⟨r₂, ⟨b.reader.offset, tag.name, tag.attributes, children⟩ :: b.stack, b.nodes⟩ :=
        foldl_add_of_stack
          (b := ⟨r₂, ⟨b.reader.offset, tag.name, tag.attributes, []⟩ :: b.stack, b.nodes⟩) rfl
          children
      rw [← complete_step options hr hrest, hstep, ihchildren rfl hstart.inStep (by simp), hextend,
        ← complete_close options hbody.inStep (by simp) hstops, close_of_stack rfl,
        ih (add_reader _ _) hclosing.inStep, add_extend]
      · rfl
      · rw [hinside, stack_add_ne_nil_iff]

end Builder

theorem parse_eq_of_reads {options : Options} {source : Text} {nodes : List Node} {r : Reader}
    (h : Reads options false (.start source) nodes r) :
    parse options source = ⟨⟨0, source.size⟩, nodes, r.errors⟩ := by
  have hrest : r.rest = [] := by simpa using h.stops
  have hextend : Builder.extend ⟨.start source, [], []⟩ nodes r = ⟨r, [], nodes⟩ :=
    Builder.foldl_add_of_stack_nil (b := ⟨r, [], []⟩) rfl nodes
  have hcomplete := Builder.complete_of_reads h (b := ⟨.start source, [], []⟩) rfl
    (Reader.inStep_start source) (by simp)
  rw [hextend, Builder.complete_of_rest_eq_nil (b := ⟨r, [], nodes⟩) options hrest] at hcomplete
  have hparse : parse options source =
      ⟨⟨0, source.size⟩, (Builder.complete options ⟨.start source, [], []⟩).nodes,
        (Builder.complete options ⟨.start source, [], []⟩).reader.errors⟩ := rfl
  rw [hparse, hcomplete]
  rfl

/-- The nodes of a parsed document are the list that the rules give, and its errors
those that were found on the way to the end of the source. -/
theorem exists_reads_parse (options : Options) (source : Text) :
    ∃ r, Reads options false (.start source) (parse options source).nodes r ∧ r.rest = [] ∧
      (parse options source).errors = r.errors := by
  obtain ⟨nodes, r, hreads⟩ :=
    exists_reads options false (.start source) (Reader.inStep_start source)
  have hrest : r.rest = [] := by simpa using hreads.stops
  rw [parse_eq_of_reads hreads]
  exact ⟨r, hreads, hrest, rfl⟩

end Component.Markup
