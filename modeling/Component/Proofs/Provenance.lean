/-
Where the parts of a compiled component come from.

Offsets are counted anew in the markup, in its runs of text, in the script block and in
the script itself.  Through all of them every node, listener, statement and property
keeps the span of the source text that it was made from.
-/
import Component.Proofs.Cutting

namespace Component

open Markup (OrderedWithin Occurs)

namespace Segment

def span : Segment → Span
  | .literal _ span => span
  | .binding _ span => span

/-- The span of a segment covers what it was cut from. -/
def Placed (source : Text) : Segment → Prop
  | .literal text span => span.Covers source text
  | .binding name span => span.Covers source (braced name)

/-- Where the scanner began to take the characters it holds. -/
def Scanner.start : Scanner → Nat
  | .outside start _ => start
  | .inside start _ => start

/-- The characters that the scanner holds. -/
def Scanner.taken : Scanner → Text
  | .outside _ seen => seen
  | .inside _ seen => '{' :: seen

theorem pending_placed {source seen rest : Text} {span : Span} {last : Nat} {more : List Segment}
    (hsize : source.size < UInt32.size) (h : span.Covers source (seen ++ rest))
    (hmore : ∀ segment ∈ more, segment.Placed source)
    (hordered : OrderedWithin (span.start + seen.size) last (more.map Segment.span)) :
    (∀ segment ∈ pending span.start (span.start + seen.size) seen ++ more,
        segment.Placed source) ∧
      OrderedWithin span.start last
        ((pending span.start (span.start + seen.size) seen ++ more).map Segment.span) := by
  by_cases hseen : seen = []
  · subst hseen
    exact ⟨hmore, hordered⟩
  · have hpos := Text.size_pos_of_ne_nil hseen
    have hpending : pending span.start (span.start + seen.size) seen =
        [.literal seen ⟨span.start, span.start + seen.size⟩] := by
      simp [pending, hseen, h.left.within.ofOffsets_eq hsize]
    rw [hpending]
    constructor
    · intro segment hsegment
      rcases List.mem_cons.mp hsegment with rfl | hmem
      · exact h.left
      · exact hmore segment hmem
    · exact ⟨Nat.le_refl _, Nat.lt_add_of_pos_right hpos, hordered⟩

/-- From a scanner that holds what stands before the rest of a text on, segments are
placed where they were cut, and an error is placed within the text. -/
theorem scanFrom_placed {source : Text} {stop : Nat} (hsize : source.size < UInt32.size) (rest : Text)
    (s : Scanner) (h : (Span.mk s.start stop).Covers source (s.taken ++ rest)) :
    Yields (fun segments => (∀ segment ∈ segments, segment.Placed source) ∧
        OrderedWithin s.start stop (segments.map Segment.span))
      (fun e => e.span.Within source) (scanFrom (s.start + s.taken.size) s rest) := by
  induction rest generalizing s with
  | nil =>
      have hstop := h.stop_eq
      rw [List.append_nil] at hstop
      cases s with
      | outside start seen =>
          have hplaced := pending_placed hsize h (List.forall_mem_nil _) (Nat.le_of_eq hstop.symm)
          simpa [scanFrom, Yields, Scanner.start, Scanner.taken] using hplaced
      | inside start seen =>
          have hwithin : (Span.mk start stop).Within source := h.within
          rw [← hstop, scanFrom, Yields.error_iff, hwithin.ofOffsets_eq hsize]
          exact hwithin
  | cons c rest ih =>
      cases s with
      | outside start seen =>
          have hrest := h.right
          simp only [Scanner.start, Scanner.taken] at h hrest ⊢
          rw [scanFrom]
          split_ifs with hopen hclose
          · subst hopen
            refine ((ih (.inside (start + seen.size) []) hrest).imp ?_).map
            exact fun segments hsegments => pending_placed hsize h hsegments.1 hsegments.2
          · subst hclose
            have hwithin : (Span.mk (start + seen.size) (start + seen.size + 1)).Within source :=
              (Span.Covers.through (show Span.Covers _ source ([] ++ '}' :: rest)
                from hrest)).within
            rw [Yields.error_iff, hwithin.ofOffsets_eq hsize]
            exact hwithin
          · have hnext := ih (.outside start (seen ++ [c]))
              (by simpa [Scanner.start, Scanner.taken] using h)
            simpa [Scanner.start, Scanner.taken, Nat.add_assoc] using hnext
      | inside start seen =>
          have hrest := h.right
          simp only [Scanner.start, Scanner.taken] at h hrest ⊢
          rw [scanFrom]
          split_ifs with hclose hopen
          · subst hclose
            have hbinding : (Span.mk start (start + Text.size ('{' :: seen) + 1)).Covers source
                (braced seen) := h.through
            have hafter := Span.Covers.right
              (show Span.Covers _ source (('{' :: seen ++ ['}']) ++ rest) by simpa using h)
            rw [Text.size_append] at hafter
            refine ((ih (.outside (start + Text.size ('{' :: seen) + 1) []) hafter).imp ?_).map
            intro segments hsegments
            rw [hbinding.within.ofOffsets_eq hsize]
            constructor
            · intro segment hsegment
              rcases List.mem_cons.mp hsegment with rfl | hmem
              · exact hbinding
              · exact hsegments.1 segment hmem
            · refine ⟨Nat.le_refl _, ?_, hsegments.2⟩
              simp only [Segment.span]
              omega
          · subst hopen
            have hwithin : (Span.mk start (start + Text.size ('{' :: seen) + 1)).Within source :=
              h.through.within
            rw [Yields.error_iff, hwithin.ofOffsets_eq hsize]
            exact hwithin
          · have hnext := ih (.inside start (seen ++ [c]))
              (by simpa [Scanner.start, Scanner.taken] using h)
            simpa [Scanner.start, Scanner.taken, Nat.add_assoc] using hnext

theorem scan_placed {source data : Text} {span : Span} (hsize : source.size < UInt32.size)
    (h : span.Covers source data) :
    Yields (fun segments => (∀ segment ∈ segments, segment.Placed source) ∧
        OrderedWithin span.start span.stop (segments.map Segment.span))
      (fun e => e.span.Within source) (scan span.start data) :=
  scanFrom_placed hsize data (.outside span.start []) h

end Segment

/-- The span of a node covers what the node was made from: an element from `<` and its
name on, a binding in its braces, and a text as written or before its character
references are decoded. -/
def NodeKind.Placed (source : Text) (raw : Bool) (span : Span) : NodeKind → Prop
  | .element tagName _ => ∃ more, span.Covers source ('<' :: (tagName ++ more))
  | .binding property => span.Covers source (braced property)
  | .staticText text =>
      if raw then span.Covers source text
      else ∃ written, span.Covers source written ∧ text = Markup.Reference.decode written

/-- The span of a listener covers a text that begins with `on:` and its event. -/
def Listener.Placed (source : Text) (l : Listener) : Prop :=
  ∃ more, l.span.Covers source ('o' :: 'n' :: ':' :: (l.event ++ more))

/-- Whether a node keeps the text inside it as written. -/
def Node.keepsTextInside (n : Node) : Bool :=
  match n.kind with
  | .element tagName _ => keepsText tagName
  | _ => false

namespace Table

/-- Whether text below a parent is kept as written. -/
def keepsTextBelow (t : Table) (parent : Option Nat) : Bool :=
  (parent.bind fun i => t.nodes[i]?).any Node.keepsTextInside

/-- Everything in a table points at the source: nodes and listeners have the spans they
were made from, a node stands inside its parent, and siblings stand one after another. -/
structure PointsInto (source : Text) (t : Table) : Prop where
  placed : ∀ n ∈ t.nodes, n.kind.Placed source (t.keepsTextBelow n.parent) n.span
  nonempty : ∀ n ∈ t.nodes, n.span.start < n.span.stop
  inside : ∀ n ∈ t.nodes, ∀ i, n.parent = some i → ∃ p, t.nodes[i]? = some p ∧
    p.span.start ≤ n.span.start ∧ n.span.stop ≤ p.span.stop
  ordered : t.nodes.Pairwise fun a b => a.parent = b.parent → a.span.stop ≤ b.span.start
  listeners : ∀ l ∈ t.listeners, l.Placed source

/-- There is room below `parent` between two offsets: the parent encloses them, and the
nodes that it has so far end before them. -/
structure Room (source : Text) (parent : Option Nat) (raw : Bool) (first last : Nat)
    (t : Table) : Prop extends PointsInto source t where
  encloses : ∀ i, parent = some i → ∃ p, t.nodes[i]? = some p ∧
    p.span.start ≤ first ∧ last ≤ p.span.stop
  raw_eq : t.keepsTextBelow parent = raw
  passed : ∀ n ∈ t.nodes, n.parent = parent → n.span.stop ≤ first

/-- `t'` has the nodes of `t`, and others that stand below `parent` or below one another. -/
def GrowsBelow (parent : Option Nat) (t t' : Table) : Prop :=
  ∃ added, t'.nodes = t.nodes ++ added ∧
    ∀ n ∈ added, n.parent = parent ∨ ∃ i, n.parent = some i ∧ t.nodes.length ≤ i

variable {source : Text} {parent : Option Nat} {raw : Bool} {first last : Nat} {t t' t'' : Table}

theorem GrowsBelow.refl (parent : Option Nat) (t : Table) : GrowsBelow parent t t :=
  ⟨[], by simp, by simp⟩

theorem GrowsBelow.trans (h : GrowsBelow parent t t') (h' : GrowsBelow parent t' t'') :
    GrowsBelow parent t t'' := by
  obtain ⟨added, hnodes, hadded⟩ := h
  obtain ⟨added', hnodes', hadded'⟩ := h'
  refine ⟨added ++ added', by rw [hnodes', hnodes, List.append_assoc], ?_⟩
  intro n hn
  rcases List.mem_append.mp hn with hmem | hmem
  · exact hadded n hmem
  · refine (hadded' n hmem).imp_right ?_
    rintro ⟨i, hi, hle⟩
    refine ⟨i, hi, Nat.le_trans ?_ hle⟩
    rw [hnodes, List.length_append]
    exact Nat.le_add_right _ _

theorem add_growsBelow (t : Table) (parent : Option Nat) (kind : NodeKind) (span : Span) :
    GrowsBelow parent t (t.add parent kind span) :=
  ⟨[_], rfl, by simp⟩

theorem keepsTextBelow_of_append {added : List Node} (hnodes : t'.nodes = t.nodes ++ added)
    (hparent : ∀ i, parent = some i → i < t.nodes.length) :
    t'.keepsTextBelow parent = t.keepsTextBelow parent := by
  cases parent with
  | none => rfl
  | some i =>
      simp only [keepsTextBelow, Option.bind_some, hnodes]
      rw [List.getElem?_append_left (hparent i rfl)]

theorem Room.parent_lt (h : Room source parent raw first last t) {i : Nat} (hi : parent = some i) :
    i < t.nodes.length := by
  obtain ⟨p, hp, -⟩ := h.encloses i hi
  exact (List.getElem?_eq_some_iff.mp hp).1

theorem Room.of_le (h : Room source parent raw first last t) {first' : Nat}
    (hfirst : first ≤ first') : Room source parent raw first' last t where
  toPointsInto := h.toPointsInto
  encloses i hi := by
    obtain ⟨p, hp, hstart, hstop⟩ := h.encloses i hi
    exact ⟨p, hp, Nat.le_trans hstart hfirst, hstop⟩
  raw_eq := h.raw_eq
  passed n hn hparent := Nat.le_trans (h.passed n hn hparent) hfirst

theorem PointsInto.parent_lt (h : t.PointsInto source) {n : Node} (hn : n ∈ t.nodes) {i : Nat}
    (hi : n.parent = some i) : i < t.nodes.length := by
  obtain ⟨p, hp, -⟩ := h.inside n hn i hi
  exact (List.getElem?_eq_some_iff.mp hp).1

/-- A node that is added where there is room leaves the room after it. -/
theorem Room.add (h : Room source parent raw first last t) (kind : NodeKind) {span : Span}
    (hplaced : kind.Placed source raw span) (hstart : first ≤ span.start)
    (hnonempty : span.start < span.stop) (hstop : span.stop ≤ last) :
    Room source parent raw span.stop last (t.add parent kind span) := by
  have hnodes : (t.add parent kind span).nodes =
      t.nodes ++ [⟨t.nodes.length, parent, kind, span⟩] := rfl
  have hkept : ∀ (i : Nat) (p : Node), t.nodes[i]? = some p →
      (t.add parent kind span).nodes[i]? = some p := by
    intro i p hp
    rw [hnodes, List.getElem?_append_left (List.getElem?_eq_some_iff.mp hp).1]
    exact hp
  have hsame : (t.add parent kind span).keepsTextBelow parent = raw := by
    rw [keepsTextBelow_of_append hnodes fun i hi => h.parent_lt hi]
    exact h.raw_eq
  refine ⟨⟨?_, ?_, ?_, ?_, h.listeners⟩, ?_, hsame, ?_⟩
  · intro n hn
    rcases List.mem_append.mp hn with hold | hnew
    · rw [keepsTextBelow_of_append hnodes fun i hi => h.toPointsInto.parent_lt hold hi]
      exact h.placed n hold
    · rw [List.mem_singleton.mp hnew, hsame]
      exact hplaced
  · intro n hn
    rcases List.mem_append.mp hn with hold | hnew
    · exact h.nonempty n hold
    · rw [List.mem_singleton.mp hnew]
      exact hnonempty
  · intro n hn i hi
    rcases List.mem_append.mp hn with hold | hnew
    · obtain ⟨p, hp, hinside⟩ := h.inside n hold i hi
      exact ⟨p, hkept i p hp, hinside⟩
    · rw [List.mem_singleton.mp hnew] at hi ⊢
      obtain ⟨p, hp, hbegins, hends⟩ := h.encloses i hi
      exact ⟨p, hkept i p hp, Nat.le_trans hbegins hstart, Nat.le_trans hstop hends⟩
  · rw [hnodes, List.pairwise_append]
    refine ⟨h.ordered, List.pairwise_singleton _ _, ?_⟩
    intro n hn m hm hparent
    rw [List.mem_singleton.mp hm] at hparent ⊢
    exact Nat.le_trans (h.passed n hn hparent) hstart
  · intro i hi
    obtain ⟨p, hp, hbegins, hends⟩ := h.encloses i hi
    exact ⟨p, hkept i p hp, by omega, hends⟩
  · intro n hn hparent
    rcases List.mem_append.mp hn with hold | hnew
    · exact Nat.le_trans (h.passed n hold hparent) (by omega)
    · rw [List.mem_singleton.mp hnew]

theorem Room.addListeners (h : Room source parent raw first last t) {listeners : List Listener}
    (hlisteners : ∀ l ∈ listeners, l.Placed source) :
    Room source parent raw first last { t with listeners := t.listeners ++ listeners } := by
  refine ⟨⟨h.placed, h.nonempty, h.inside, h.ordered, ?_⟩, h.encloses, h.raw_eq, h.passed⟩
  intro l hl
  rcases List.mem_append.mp hl with hold | hnew
  · exact h.listeners l hold
  · exact hlisteners l hnew

/-- An element that is added has room for nodes of its own. -/
theorem Room.below (h : Room source parent raw first last t) {stop : Nat} {tagName : Text}
    {plain : List (Text × Text)} {span : Span}
    (hadded : Room source parent raw stop last (t.add parent (.element tagName plain) span)) :
    Room source (some t.nodes.length) (keepsText tagName) span.start span.stop
      (t.add parent (.element tagName plain) span) := by
  have hnew : (t.add parent (.element tagName plain) span).nodes[t.nodes.length]? =
      some ⟨t.nodes.length, parent, .element tagName plain, span⟩ := by
    simp [Table.add]
  refine ⟨hadded.toPointsInto, ?_, ?_, ?_⟩
  · rintro i hi
    obtain rfl := Option.some.inj hi
    exact ⟨_, hnew, Nat.le_refl _, Nat.le_refl _⟩
  · simp only [keepsTextBelow, Option.bind_some, hnew, Option.any_some, Node.keepsTextInside]
  · intro n hn hparent
    rcases List.mem_append.mp hn with hold | hlast
    · exact absurd (h.toPointsInto.parent_lt hold hparent) (Nat.lt_irrefl _)
    · rw [List.mem_singleton.mp hlast] at hparent
      exact absurd (h.parent_lt hparent) (Nat.lt_irrefl _)

/-- Nodes that were added below an element leave the room after the element. -/
theorem Room.resume {own : Table} {element : Node} {stop : Nat}
    (h : Room source parent raw first last t) (hown : Room source parent raw stop last own)
    (hnodes : own.nodes = t.nodes ++ [element]) (hparent : element.parent = parent)
    (hgrows : GrowsBelow (some t.nodes.length) own t') (hpoints : t'.PointsInto source) :
    Room source parent raw stop last t' ∧ GrowsBelow parent t t' := by
  obtain ⟨added, hadded, hbelow⟩ := hgrows
  have hlength : own.nodes.length = t.nodes.length + 1 := by rw [hnodes, List.length_append]; rfl
  have hdeeper : ∀ n ∈ added, ∃ i, n.parent = some i ∧ t.nodes.length ≤ i := by
    intro n hn
    rcases hbelow n hn with hsame | ⟨i, hi, hle⟩
    · exact ⟨_, hsame, Nat.le_refl _⟩
    · exact ⟨i, hi, by omega⟩
  refine ⟨⟨hpoints, ?_, ?_, ?_⟩, element :: added, ?_, ?_⟩
  · intro i hi
    obtain ⟨p, hp, hinside⟩ := hown.encloses i hi
    refine ⟨p, ?_, hinside⟩
    rw [hadded, List.getElem?_append_left (hown.parent_lt hi)]
    exact hp
  · rw [keepsTextBelow_of_append hadded fun i hi => hown.parent_lt hi]
    exact hown.raw_eq
  · intro n hn hsame
    rw [hadded] at hn
    rcases List.mem_append.mp hn with hold | hnew
    · exact hown.passed n hold hsame
    · obtain ⟨i, hi, hle⟩ := hdeeper n hnew
      exact absurd (h.parent_lt (hsame.symm.trans hi)) (Nat.not_lt.mpr hle)
  · rw [hadded, hnodes, List.append_assoc, List.singleton_append]
  · intro n hn
    rcases List.mem_cons.mp hn with rfl | hmem
    · exact Or.inl hparent
    · exact Or.inr (hdeeper n hmem)

theorem foldl_growsBelow {α : Type} {step : Table → α → Table}
    (hstep : ∀ t item, GrowsBelow parent t (step t item)) (items : List α) (t : Table) :
    GrowsBelow parent t (items.foldl step t) := by
  induction items generalizing t with
  | nil => exact GrowsBelow.refl parent t
  | cons item more ih => exact (hstep t item).trans (ih (step t item))

theorem Room.addSegments {segments : List Segment} {stop : Nat}
    (h : Room source parent false first last t)
    (hplaced : ∀ segment ∈ segments, segment.Placed source)
    (hordered : OrderedWithin first stop (segments.map Segment.span)) (hstop : stop ≤ last) :
    Room source parent false stop last (segments.foldl (addSegment parent) t) := by
  induction segments generalizing t first with
  | nil => exact h.of_le hordered
  | cons segment more ih =>
      obtain ⟨hfirst, hnonempty, hmore⟩ := hordered
      have hend := Nat.le_trans hmore.le hstop
      refine ih ?_ (fun other hother => hplaced other (List.mem_cons_of_mem _ hother)) hmore
      have hsegment := hplaced segment List.mem_cons_self
      cases segment with
      | literal text span => exact h.add _ ⟨text, hsegment, rfl⟩ hfirst hnonempty hend
      | binding name span => exact h.add _ hsegment hfirst hnonempty hend

theorem Room.addRawTexts {options : Markup.Options} {children : List Markup.Node} {index : Nat}
    (h : Room source (some index) true first last t)
    (hplaced : ∀ child ∈ children, child.Placed options source)
    (hordered : OrderedWithin first last (children.map Markup.Node.span)) :
    Room source (some index) true last last (children.foldl (addRawText index) t) := by
  induction children generalizing t first with
  | nil => exact h.of_le hordered
  | cons child more ih =>
      obtain ⟨hfirst, hnonempty, hmore⟩ := hordered
      refine ih ?_ (fun other hother => hplaced other (List.mem_cons_of_mem _ hother)) hmore
      have hchild := hplaced child List.mem_cons_self
      cases child with
      | text span data blank => exact h.add _ hchild hfirst hnonempty hmore.le
      | element span name attributes children selfClosing =>
          exact h.of_le (Nat.le_trans hfirst (Nat.le_of_lt hnonempty))
      | comment span data => exact h.of_le (Nat.le_trans hfirst (Nat.le_of_lt hnonempty))

end Table

/-- The listeners of an element are placed at their attributes, and so are its errors. -/
theorem readElementAttributes_placed {source : Text} (node : Nat)
    {attributes : List Markup.Attribute} (known : List (Text × Text) × List Listener)
    (hplaced : ∀ a ∈ attributes, a.Placed source) (hknown : ∀ l ∈ known.2, l.Placed source) :
    Yields (fun found => ∀ l ∈ found.2, l.Placed source) (fun e => e.span.Within source)
      (readElementAttributes node attributes known) := by
  induction attributes generalizing known with
  | nil => exact hknown
  | cons a more ih =>
      obtain ⟨rest, hcovers⟩ := hplaced a List.mem_cons_self
      have hmore := fun b hb => hplaced b (List.mem_cons_of_mem a hb)
      obtain ⟨plain, listeners⟩ := known
      rw [readElementAttributes]
      cases hevent : eventName? a.name with
      | some event =>
          have hlistener : Yields (fun l => l.Placed source) (fun e => e.span.Within source)
              (readListener node event a) := by
            rw [eventName?_eq_some hevent] at hcovers
            unfold readListener
            simp only
            split_ifs
            · exact hcovers.within
            · exact hcovers.within
            · exact ⟨rest, hcovers⟩
          cases hread : readListener node event a with
          | error e =>
              rw [hread] at hlistener
              simpa only [hread, Yields.error_iff] using hlistener
          | ok listener =>
              rw [hread] at hlistener
              simp only [hread]
              apply ih _ hmore
              intro l hl
              rcases List.mem_append.mp hl with hold | hnew
              · exact hknown l hold
              · rw [List.mem_singleton.mp hnew]
                exact hlistener
      | none =>
          cases hvalue : readPlainValue a with
          | error e =>
              have hspan : e.span = a.span := by
                unfold readPlainValue at hvalue
                split at hvalue <;> cases hvalue
                rfl
              have hwithin := hcovers.within
              rw [← hspan] at hwithin
              exact hwithin
          | ok value => exact ih _ hmore hknown

namespace Table

mutual

/-- The nodes of a markup node are added in the room where it stands. -/
theorem addMarkup_placed {source : Text} {options : Markup.Options}
    (hsize : source.size < UInt32.size) (node : Markup.Node)
    {parent : Option Nat} {first last : Nat} {t : Table} (h : Room source parent false first last t)
    (hplaced : ∀ other, Occurs other [node] → other.Placed options source)
    (hfirst : first ≤ node.span.start) (hnonempty : node.span.start < node.span.stop)
    (hlast : node.span.stop ≤ last) :
    Yields (fun t' => Room source parent false node.span.stop last t' ∧ GrowsBelow parent t t')
      (fun e => e.span.Within source) (addMarkup parent t node) := by
  have hnode := hplaced node (.here (List.mem_singleton.mpr rfl))
  have hpassed := Nat.le_trans hfirst (Nat.le_of_lt hnonempty)
  cases node with
  | comment span data => exact ⟨h.of_le hpassed, GrowsBelow.refl parent t⟩
  | text span data blank =>
      unfold addMarkup
      split_ifs
      · exact ⟨h.of_le hpassed, GrowsBelow.refl parent t⟩
      · have hscan := Segment.scan_placed hsize hnode
        cases hsegments : Segment.scan span.start data with
        | error e =>
            rw [hsegments] at hscan
            simpa only [Yields.error_iff] using hscan
        | ok segments =>
            rw [hsegments] at hscan
            constructor
            · exact (h.of_le hfirst).addSegments hscan.1 hscan.2 hlast
            · refine foldl_growsBelow (fun t segment => ?_) segments t
              cases segment <;> exact add_growsBelow t parent _ _
  | element span name attributes children selfClosing =>
      obtain ⟨hcovers, hattributes, hchildren, -⟩ := hnode
      have hbelow : ∀ other, Occurs other children → other.Placed options source :=
        fun other hother =>
        hplaced other (.deeper (List.mem_singleton.mpr rfl) hother)
      have hread := readElementAttributes_placed t.nodes.length ([], []) hattributes (by simp)
      unfold addMarkup
      cases hfound : readElementAttributes t.nodes.length attributes ([], []) with
      | error e =>
          rw [hfound] at hread
          simpa only [hfound, Yields.error_iff] using hread
      | ok found =>
          rw [hfound] at hread
          obtain ⟨plain, listeners⟩ := found
          have hadded := h.add (.element name plain) hcovers hfirst hnonempty hlast
          have hroom := (h.below hadded).addListeners hread
          have hown := hadded.addListeners hread
          simp only [hfound]
          split_ifs with hkeeps
          · rw [hkeeps] at hroom
            refine h.resume hown rfl rfl ?_ ?_
            · refine foldl_growsBelow (fun t child => ?_) children _
              cases child
              case text => exact add_growsBelow t _ _ _
              all_goals exact GrowsBelow.refl _ t
            · exact (hroom.addRawTexts (fun child hchild => hbelow child (.here hchild))
                hchildren).toPointsInto
          · rw [Bool.eq_false_iff.mpr hkeeps] at hroom
            exact (addAllMarkup_placed hsize children hroom hbelow hchildren).imp fun t' ht' =>
              h.resume hown rfl rfl ht'.2 ht'.1.toPointsInto

theorem addAllMarkup_placed {source : Text} {options : Markup.Options}
    (hsize : source.size < UInt32.size)
    (markup : List Markup.Node) {parent : Option Nat} {first last : Nat} {t : Table}
    (h : Room source parent false first last t)
    (hplaced : ∀ other, Occurs other markup → other.Placed options source)
    (hordered : OrderedWithin first last (markup.map Markup.Node.span)) :
    Yields (fun t' => Room source parent false last last t' ∧ GrowsBelow parent t t')
      (fun e => e.span.Within source) (addAllMarkup parent t markup) := by
  cases markup with
  | nil => exact ⟨h.of_le hordered, GrowsBelow.refl parent t⟩
  | cons node more =>
      obtain ⟨hfirst, hnonempty, hmore⟩ := hordered
      have hnode := addMarkup_placed hsize node h
        (fun other hother => hplaced other (hother.mono (by simp))) hfirst hnonempty hmore.le
      unfold addAllMarkup
      cases hnext : addMarkup parent t node with
      | error e =>
          rw [hnext] at hnode
          simpa only [Yields.error_iff] using hnode
      | ok next =>
          rw [hnext] at hnode
          have hbelow : ∀ other, Occurs other more → other.Placed options source :=
            fun other hother => hplaced other (hother.mono (List.subset_cons_self _ _))
          exact (addAllMarkup_placed hsize more hnode.1 hbelow hmore).imp fun t' ht' =>
            ⟨ht'.1, hnode.2.trans ht'.2⟩

end

theorem room_empty (source : Text) : Room source none false 0 source.size .empty := by
  refine ⟨⟨?_, ?_, ?_, List.Pairwise.nil, ?_⟩, ?_, rfl, ?_⟩ <;> simp [Table.empty]

theorem ofMarkup_placed {source : Text} {options : Markup.Options} {markup : List Markup.Node}
    (hsize : source.size < UInt32.size)
    (hplaced : ∀ node, Occurs node markup → node.Placed options source)
    (hordered : OrderedWithin 0 source.size (markup.map Markup.Node.span)) :
    Yields (fun t => t.PointsInto source) (fun e => e.span.Within source) (ofMarkup markup) :=
  (addAllMarkup_placed hsize markup (room_empty source) hplaced hordered).imp
    fun _ h => h.1.toPointsInto

end Table

namespace Fragment

theorem isRawText_of_isNamed {span : Span} {name : Text} {attributes : List Markup.Attribute}
    {children : List Markup.Node} {selfClosing : Bool}
    (h : (Markup.Node.element span name attributes children selfClosing).isNamed "script" = true) :
    Markup.Options.isRawText {} name = true := by
  simp only [Markup.Node.isNamed, Text.eqIgnoreCase, beq_iff_eq] at h
  simp [Markup.Options.isRawText, Text.eqIgnoreCase, h]

/-- The script block stands in the source at its span. -/
theorem scriptOf_covers {source : Text} {node : Markup.Node} (h : node.Placed {} source)
    (hchildren : ∀ other, Occurs other [node] → other.Placed {} source)
    (hnamed : node.isNamed "script" = true) :
    (scriptOf node).span.Covers source (scriptOf node).content := by
  cases node with
  | text span data blank => cases hnamed
  | comment span data => cases hnamed
  | element span name attributes children selfClosing =>
      obtain ⟨⟨more, hcovers⟩, -, -, hraw⟩ := h
      rcases hraw (isRawText_of_isNamed hnamed) with rfl | ⟨inner, data, blank, rfl⟩
      · exact hcovers.empty_stop
      · have htext : inner.Covers source data := hchildren (.text inner data blank)
          (.deeper (List.mem_singleton.mpr rfl) (.here (List.mem_singleton.mpr rfl)))
        simpa [scriptOf, Markup.Node.textContent, Markup.Node.ownText, Markup.Node.span,
          Span.cover] using htext

/-- Splitting keeps the order of the markup and finds the place of the script. -/
theorem splitFrom_placed {source : Text} (script : Option ScriptBlock)
    (markup nodes : List Markup.Node)
    (hscript : ∀ block ∈ script, block.span.Covers source block.content)
    (hplaced : ∀ node, Occurs node nodes → node.Placed {} source) :
    Yields (fun fragment => fragment.script.span.Covers source fragment.script.content ∧
        fragment.markup.Sublist (markup ++ nodes))
      (fun e => e.span.Within source) (splitFrom script markup nodes) := by
  induction nodes generalizing script markup with
  | nil =>
      rw [splitFrom, List.append_nil]
      refine ⟨?_, List.Sublist.refl _⟩
      cases script with
      | none => exact ⟨[], source, rfl, rfl⟩
      | some block => exact hscript block rfl
  | cons node more ih =>
      have hmore : ∀ other, Occurs other more → other.Placed {} source := fun other hother =>
        hplaced other (hother.mono (List.subset_cons_self _ _))
      have hskip : (markup ++ more).Sublist (markup ++ node :: more) :=
        (List.sublist_cons_self _ _).append_left _
      have hkeep := ih script (markup ++ [node]) hscript hmore
      rw [List.append_assoc, List.singleton_append] at hkeep
      have hnode := hplaced node (.here List.mem_cons_self)
      cases node with
      | comment span data =>
          exact (ih script markup hscript hmore).imp fun fragment h => ⟨h.1, h.2.trans hskip⟩
      | text span data blank => exact hkeep
      | element span name attributes children selfClosing =>
          simp only [splitFrom]
          split_ifs with hnamed hsome
          · obtain ⟨⟨rest, hcovers⟩, -⟩ := hnode
            exact hcovers.within
          · have hblock := scriptOf_covers hnode
              (fun other hother => hplaced other (hother.mono (by simp))) hnamed
            refine (ih (some (scriptOf _)) markup ?_ hmore).imp fun fragment h =>
              ⟨h.1, h.2.trans hskip⟩
            intro block hblock'
            rw [Option.mem_def, Option.some.injEq] at hblock'
            rwa [← hblock']
          · exact hkeep

theorem split_placed {source : Text} {nodes : List Markup.Node}
    (hplaced : ∀ node, Occurs node nodes → node.Placed {} source) :
    Yields (fun fragment => fragment.script.span.Covers source fragment.script.content ∧
        fragment.markup.Sublist nodes)
      (fun e => e.span.Within source) (split nodes) :=
  splitFrom_placed none [] nodes (by simp) hplaced

end Fragment

namespace ScriptBlock

variable {source : Text} {block : ScriptBlock}

/-- A span of the script that covers a text becomes a span of the source that covers it. -/
theorem place_covers (hsize : source.size < UInt32.size)
    (h : block.span.Covers source block.content) {span : Span} {part : Text}
    (hpart : span.Covers block.content part) :
    block.excerpt span = part ∧ (block.place span).Covers source part := by
  rw [excerpt, place, clamp_eq_self hpart.within]
  exact ⟨hpart.read, h.slice hpart hsize⟩

end ScriptBlock

/-- A text that a span covers ends with what a later span with the same end covers. -/
theorem Span.Covers.suffix {span inner : Span} {source text part : Text}
    (h : span.Covers source text) (hinner : inner.Covers source part)
    (hstart : span.start ≤ inner.start) (hstop : inner.stop = span.stop) : part <:+ text := by
  obtain ⟨before, after, rfl, rfl⟩ := h
  obtain ⟨before', after', heq, rfl⟩ := hinner
  simp only at hstart hstop
  obtain ⟨gap, rfl⟩ := Markup.exists_append_of_size_le heq hstart
  rw [List.append_assoc, List.append_cancel_left_eq, ← List.append_assoc gap] at heq
  rw [Text.size_append] at hstop
  obtain ⟨rest, hrest⟩ := Markup.exists_append_of_size_le heq.symm
    (by rw [Text.size_append]; omega)
  have hsize := congrArg Text.size hrest
  simp only [Text.size_append] at hsize
  have hnil := Text.size_eq_zero_iff.mp (show Text.size rest = 0 by omega)
  rw [hnil, List.append_nil] at hrest
  exact ⟨gap, hrest.symm⟩

/-- The spans of an item lie in the script, and an exported declarator ends where its
initializer ends. -/
def Script.Item.LiesIn (script : Text) (item : Script.Item) : Prop :=
  item.span.LiesIn script ∧ ∀ declarator ∈ item.exported, declarator.span.LiesIn script ∧
    ∀ value ∈ declarator.initializer, value.LiesIn script ∧
      declarator.span.start ≤ value.start ∧ value.stop = declarator.span.stop

instance (script : Text) (item : Script.Item) : Decidable (item.LiesIn script) :=
  inferInstanceAs (Decidable (_ ∧ ∀ declarator ∈ item.exported, _ ∧
    ∀ value ∈ declarator.initializer, _ ∧ _ ∧ _))

/-- Texts that are kept of items that lie in the script are cut between characters. -/
theorem ScriptBlock.cutsWhole_of_liesIn {block : ScriptBlock} {items : List Script.Item}
    (h : ∀ item ∈ items, item.LiesIn block.content) : block.CutsWhole items := by
  have hclamp : ∀ span : Span, span.LiesIn block.content →
      (block.clamp span).LiesIn block.content := by
    intro span hlies
    rwa [ScriptBlock.clamp_eq_self hlies.within]
  intro item hitem span hspan
  obtain ⟨hown, hexported⟩ := h item hitem
  cases item
  case exportedVariables place declarators =>
    obtain ⟨d, hd, hvalue⟩ := List.mem_filterMap.1 hspan
    exact hclamp span ((hexported d hd).2 span hvalue).1
  case otherExport => cases hspan
  all_goals
    rw [List.mem_singleton.1 hspan]
    exact hclamp _ hown

/-- The span of a property covers a text that ends with its default value. -/
def Property.Placed (source : Text) (p : Property) : Prop :=
  ∃ declared, p.span.Covers source declared ∧ ∀ value ∈ p.default, value <:+ declared

/-- The statements of a script are covered by their spans, and so are its properties. -/
structure ScriptParts.Placed (source : Text) (parts : ScriptParts) : Prop where
  statements : ∀ s ∈ parts.statements, s.span.Covers source s.source
  properties : ∀ p ∈ parts.properties, p.Placed source

/-- Statements and properties point at the source if the items do so in the script. -/
theorem ScriptBlock.parts_placed {source : Text} {block : ScriptBlock} {parts : ScriptParts}
    {read : Text → Except Script.SyntaxError (List Script.Item)} (hsize : source.size < UInt32.size)
    (hblock : block.span.Covers source block.content)
    (hread : ∀ items, read block.readable = .ok items → ∀ item ∈ items, item.LiesIn block.content)
    (h : block.partsWith read = .ok parts) : parts.Placed source := by
  refine ScriptBlock.keeps_of_partsWith (ScriptParts.Placed source) ⟨by simp, by simp⟩ ?_ h
  intro items hitems parts item hitem next hparts hadd
  obtain ⟨⟨part, hpart⟩, hexported⟩ := hread items hitems item hitem
  refine ScriptParts.addItem_keeps (ScriptParts.Placed source) hparts ?_ ?_ hadd
  · intro old declarator hdeclarator next hold hproperty
    obtain ⟨name, default, -, -, -, htext, rfl⟩ := ScriptParts.addProperty_eq_ok hproperty
    obtain ⟨-, rfl⟩ := mapM_textAt_eq_ok_iff.1 htext
    obtain ⟨⟨declared, hdeclared⟩, hvalue⟩ := hexported declarator hdeclarator
    refine ⟨hold.statements, ?_⟩
    intro p hp
    rcases List.mem_append.mp hp with hmem | hnew
    · exact hold.properties p hmem
    · rw [List.mem_singleton.mp hnew]
      refine ⟨declared, (place_covers hsize hblock hdeclared).2, ?_⟩
      intro value hdefault
      obtain ⟨span, hspan, rfl⟩ := Option.map_eq_some_iff.mp hdefault
      obtain ⟨⟨written, hwritten⟩, hstart, hstop⟩ := hvalue span hspan
      rw [(place_covers hsize hblock hwritten).1]
      exact hdeclared.suffix hwritten hstart hstop
  · intro old placement declared next hold hstatement
    obtain ⟨text, htext, rfl⟩ := ScriptParts.addStatement_eq_ok hstatement
    obtain ⟨-, rfl⟩ := textAt_eq_ok_iff.1 htext
    refine ⟨?_, hold.properties⟩
    intro s hs
    rcases List.mem_append.mp hs with hmem | hnew
    · exact hold.statements s hmem
    · rw [List.mem_singleton.mp hnew]
      obtain ⟨htext, hplace⟩ := place_covers hsize hblock hpart
      simp only [htext]
      exact hplace

/-- The parts of a document stand in the source where they were read. -/
theorem split_parse_placed (source : Text) :
    Yields (fun fragment => fragment.script.span.Covers source fragment.script.content ∧
        (∀ node, Occurs node fragment.markup → node.Placed {} source) ∧
        OrderedWithin 0 source.size (fragment.markup.map Markup.Node.span))
      (fun e => e.span.Within source) (Fragment.split (Markup.parse {} source).nodes) := by
  obtain ⟨hplaced, hordered⟩ := Markup.parse_placed {} source
  refine (Fragment.split_placed hplaced).imp ?_
  rintro fragment ⟨hscript, hmarkup⟩
  exact ⟨hscript, fun node hnode => hplaced node (hnode.mono hmarkup.subset),
    hordered.sublist (hmarkup.map _)⟩

/-- Everything in a compiled component points at the source it came from, if that is less
than 4 GiB long.  Nodes and listeners do whatever the script is; statements and properties
do if the items of the script lie in it. -/
theorem compiled_parts_point_at_source
    (read : Text → Except Script.SyntaxError (List Script.Item)) (policy : Policy) (source : Text)
    (out : Output) (hsize : source.size < UInt32.size)
    (h : compileWith read policy source = .ok out) :
    ∃ script fragment, Compiles read policy source out script fragment ∧
      out.table.PointsInto source ∧
      ((∀ items, read fragment.script.readable = .ok items →
          ∀ item ∈ items, item.LiesIn fragment.script.content) →
        script.Placed source) := by
  obtain ⟨script, fragment, hstages⟩ := compiles_of_compile h
  have hfragment := split_parse_placed source
  rw [hstages.split] at hfragment
  obtain ⟨hblock, hplaced, hordered⟩ := hfragment
  have htable := Table.ofMarkup_placed hsize hplaced hordered
  rw [hstages.table] at htable
  exact ⟨script, fragment, hstages, htable,
    fun hread => ScriptBlock.parts_placed hsize hblock hread hstages.parts⟩

namespace ProvenanceWitness

/-- A property whose name takes more bytes than characters, a listener, and a text with a
character reference before a binding. -/
def source : Text :=
  "<script>let f;export let é=1</script><p on:click=\x7bf\x7d>&lt;\x7bé\x7d</p>"

def block : ScriptBlock := ⟨"let f;export let é=1", ⟨8, 29⟩⟩

def paragraph : Markup.Node :=
  .element ⟨38, 66⟩ "p"
    [⟨⟨41, 53⟩, ⟨41, 49⟩, "on:click", .expression ⟨50, 53⟩ ⟨51, 52⟩ "f"⟩]
    [.text ⟨54, 62⟩ "&lt;\x7bé\x7d" false] false

def parts : ScriptParts :=
  ⟨[⟨"é", some "1", ⟨25, 29⟩⟩], [⟨"let f;", .factoryBody, ["f"], ⟨8, 14⟩⟩]⟩

def table : Table :=
  ⟨[⟨0, none, .element "p" [], ⟨38, 66⟩⟩, ⟨1, some 0, .staticText "<", ⟨54, 58⟩⟩,
      ⟨2, some 0, .binding "é", ⟨58, 62⟩⟩], [⟨0, "click", "f", ⟨41, 53⟩⟩]⟩

theorem parse_source : Markup.parse {} source =
    ⟨⟨0, 66⟩, [.element ⟨0, 38⟩ "script" [] [.text block.span block.content false] false,
      paragraph], []⟩ := by
  decide +kernel

theorem split_source :
    Fragment.split (Markup.parse {} source).nodes = .ok ⟨block, [paragraph]⟩ := by
  rw [parse_source]
  rfl

theorem stages :
    block.parts = .ok parts ∧ Table.ofMarkup [paragraph] = .ok table ∧
      resolve .error parts.properties table parts.statements = .ok [] ∧
      (Script.read block.readable).toOption.all
        (fun items => decide (∀ item ∈ items, item.LiesIn block.content)) = true := by
  decide +kernel

end ProvenanceWitness

open ProvenanceWitness in
theorem accented_property_points_at_source :
    ∃ out fragment, compile .error source = .ok out ∧
      Compiles Script.read .error source out parts fragment ∧ table.PointsInto source ∧
      parts.Placed source := by
  obtain ⟨hparts, htable, hresolved, hitems⟩ := stages
  have hcompile : compile .error source = .ok _ :=
    compileWith_eq_ok (by rw [parse_source]) split_source hparts htable hresolved rfl
  obtain ⟨script, fragment, hstages, hpoints, hscript⟩ :=
    compiled_parts_point_at_source Script.read .error source _ (by decide) hcompile
  obtain rfl := Except.ok.inj (split_source.symm.trans hstages.split)
  obtain rfl := Except.ok.inj (hparts.symm.trans hstages.parts)
  refine ⟨_, _, hcompile, hstages, hpoints, hscript ?_⟩
  intro items hread
  rw [hread] at hitems
  exact of_decide_eq_true hitems

end Component
