/-
Which error keeps markup from having a table.

Only attributes and texts can be at fault.  In document order these are the sites of the
markup: an element's attributes come before what stands inside it, and the body of an element
that is kept as written has no sites, nor has whitespace outside of all elements.  There is a
table exactly if no site offends, and otherwise the error is that of the first one that does.
-/
import Component.Proofs.Compiling
import Component.Proofs.Page.View

namespace Component

namespace Markup

/-- A part of markup that may be at fault. -/
inductive Site where
  | attr (a : Attribute)
  | text (span : Span) (data : Text)

mutual

def Node.sites (outside : Bool) : Node → List Site
  | .element _ name attributes children _ =>
      attributes.map .attr ++ if keepsText name then [] else sitesOf false children
  | .text span data blank => if outside && blank then [] else [.text span data]
  | .comment .. => []

def sitesOf (outside : Bool) : List Node → List Site
  | [] => []
  | node :: more => node.sites outside ++ sitesOf outside more

end

end Markup

open Markup (Site)

/-- What is wrong with a site: a listener without an event or without a handler, another
attribute with a braced value, or a text that cannot be cut into segments. -/
inductive Offence : Site → Error → Prop where
  | eventless {a : Markup.Attribute} (hname : a.name = ['o', 'n', ':']) :
      Offence (.attr a) ⟨.invalidListener a.name .missingEvent, a.span⟩
  | valueless {a : Markup.Attribute} {event : Text} (hname : a.name = ['o', 'n', ':'] ++ event)
      (hevent : event ≠ []) (hvalue : a.value = .absent) :
      Offence (.attr a) ⟨.invalidListener a.name .missingHandler, a.span⟩
  | blank {a : Markup.Attribute} {event : Text} (hname : a.name = ['o', 'n', ':'] ++ event)
      (hevent : event ≠ []) (hblank : a.value.decoded.trim = []) :
      Offence (.attr a) ⟨.invalidListener a.name .missingHandler, a.span⟩
  | dynamic {a : Markup.Attribute} {span inner : Span} {value : Text}
      (hname : ¬ ['o', 'n', ':'] <+: a.name) (hvalue : a.value = .expression span inner value) :
      Offence (.attr a) ⟨.dynamicAttribute a.name, a.span⟩
  | text {span : Span} {data : Text} {e : Error} (hscan : Segment.scan span.start data = .error e) :
      Offence (.text span data) e

theorem Offence.of_listener {a : Markup.Attribute} {event : Text} {e : Error}
    (hname : a.name = ['o', 'n', ':'] ++ event) (h : Offence (.attr a) e) :
    (event = [] ∧ e = ⟨.invalidListener a.name .missingEvent, a.span⟩) ∨
      (event ≠ [] ∧ a.value.decoded.trim = [] ∧
        e = ⟨.invalidListener a.name .missingHandler, a.span⟩) := by
  cases h with
  | eventless h =>
      rw [h] at hname
      exact .inl ⟨(List.append_right_inj _).mp hname.symm, rfl⟩
  | valueless h hevent hvalue =>
      obtain rfl := (List.append_right_inj _).mp (hname.symm.trans h)
      exact .inr ⟨hevent, by rw [hvalue]; rfl, rfl⟩
  | blank h hevent hblank =>
      obtain rfl := (List.append_right_inj _).mp (hname.symm.trans h)
      exact .inr ⟨hevent, hblank, rfl⟩
  | dynamic h _ => exact absurd ⟨event, hname.symm⟩ h

theorem Offence.of_plain {a : Markup.Attribute} {e : Error} (hname : ¬ ['o', 'n', ':'] <+: a.name)
    (h : Offence (.attr a) e) : (∃ span inner value, a.value = .expression span inner value) ∧
      e = ⟨.dynamicAttribute a.name, a.span⟩ := by
  cases h with
  | eventless h => exact absurd (h ▸ List.prefix_refl _) hname
  | valueless h _ _ => exact absurd ⟨_, h.symm⟩ hname
  | blank h _ _ => exact absurd ⟨_, h.symm⟩ hname
  | dynamic _ hvalue => exact ⟨⟨_, _, _, hvalue⟩, rfl⟩

theorem Offence.unique {site : Site} {e e' : Error} (h : Offence site e) (h' : Offence site e') :
    e = e' := by
  cases site with
  | text span data =>
      cases h with
      | text hscan =>
          cases h' with
          | text hscan' => exact Except.error.inj (hscan.symm.trans hscan')
  | attr a =>
      by_cases hname : ['o', 'n', ':'] <+: a.name
      · obtain ⟨event, hevent⟩ := hname
        rcases h.of_listener hevent.symm with ⟨hnone, rfl⟩ | ⟨hsome, -, rfl⟩ <;>
          rcases h'.of_listener hevent.symm with ⟨hnone', rfl⟩ | ⟨hsome', -, rfl⟩
        · rfl
        · exact absurd hnone hsome'
        · exact absurd hnone' hsome
        · rfl
      · rw [(h.of_plain hname).2, (h'.of_plain hname).2]

/-- No site offends. -/
def Clear (sites : List Site) : Prop := ∀ site ∈ sites, ∀ e, ¬ Offence site e

/-- The error of the first site that offends. -/
def FirstOffence (sites : List Site) (e : Error) : Prop :=
  ∃ before site after, sites = before ++ site :: after ∧ Clear before ∧ Offence site e

section Walk

variable {sites more : List Site} {e : Error}

theorem Clear.append (h : Clear sites) (hmore : Clear more) : Clear (sites ++ more) := by
  intro site hsite
  rcases List.mem_append.mp hsite with hfirst | hlater
  · exact h site hfirst
  · exact hmore site hlater

theorem Clear.not_firstOffence (h : Clear sites) : ¬ FirstOffence sites e := by
  rintro ⟨before, site, after, rfl, -, hoffence⟩
  exact h site (List.mem_append_right _ List.mem_cons_self) e hoffence

theorem FirstOffence.append_right (h : FirstOffence sites e) (more : List Site) :
    FirstOffence (sites ++ more) e := by
  obtain ⟨before, site, after, rfl, hclear, hoffence⟩ := h
  exact ⟨before, site, after ++ more, by simp, hclear, hoffence⟩

theorem FirstOffence.append_left (hclear : Clear sites) (h : FirstOffence more e) :
    FirstOffence (sites ++ more) e := by
  obtain ⟨before, site, after, rfl, hbefore, hoffence⟩ := h
  exact ⟨sites ++ before, site, after, by simp, hclear.append hbefore, hoffence⟩

theorem firstOffence_cons_iff {site : Site} :
    FirstOffence (site :: more) e ↔ Offence site e ∨ Clear [site] ∧ FirstOffence more e := by
  constructor
  · rintro ⟨before, first, after, hsites, hclear, hoffence⟩
    rcases before with _ | ⟨_, before⟩
    · obtain ⟨rfl, -⟩ := List.cons.inj hsites
      exact .inl hoffence
    · obtain ⟨rfl, rfl⟩ := List.cons.inj hsites
      have hfirst : Clear [site] := fun s hs =>
        hclear s (List.mem_cons.mpr (.inl (List.mem_singleton.mp hs)))
      exact .inr ⟨hfirst, before, first, after, rfl,
        fun s hs => hclear s (List.mem_cons_of_mem _ hs), hoffence⟩
  · rintro (hoffence | ⟨hclear, h⟩)
    · exact ⟨[], site, more, rfl, fun _ h => absurd h List.not_mem_nil, hoffence⟩
    · exact h.append_left hclear

theorem FirstOffence.unique {e' : Error} (h : FirstOffence sites e) (h' : FirstOffence sites e') :
    e = e' := by
  induction sites with
  | nil =>
      obtain ⟨before, site, after, hsites, -⟩ := h
      exact absurd hsites (by simp)
  | cons site more ih =>
      rcases firstOffence_cons_iff.mp h with hhere | ⟨hclear, hlater⟩ <;>
        rcases firstOffence_cons_iff.mp h' with hhere' | ⟨hclear', hlater'⟩
      · exact hhere.unique hhere'
      · exact absurd hhere (hclear' site (List.mem_singleton_self _) e)
      · exact absurd hhere' (hclear site (List.mem_singleton_self _) e')
      · exact ih hlater hlater'

end Walk

/-- A computation goes over sites: it fails with the error of the first one that offends, and
gives a value if none does. -/
def GoesOver {α : Type} (sites : List Site) : Except Error α → Prop :=
  Yields (fun _ => Clear sites) (FirstOffence sites)

theorem GoesOver.failed {α β : Type} {sites : List Site} {e : Error}
    (h : GoesOver sites (.error e : Except Error α)) (more : List Site) :
    GoesOver (sites ++ more) (.error e : Except Error β) :=
  FirstOffence.append_right h more

theorem GoesOver.andThen {α β : Type} {sites more : List Site} {value : α} {r : Except Error β}
    (h : GoesOver sites (.ok value)) (hmore : GoesOver more r) : GoesOver (sites ++ more) r := by
  cases r with
  | error e => exact FirstOffence.append_left h hmore
  | ok result => exact Clear.append h hmore

theorem GoesOver.error_iff {α : Type} {sites : List Site} {r : Except Error α}
    (h : GoesOver sites r) (e : Error) : r = .error e ↔ FirstOffence sites e := by
  cases r with
  | ok value => exact iff_of_false (fun heq => nomatch heq) h.not_firstOffence
  | error found =>
      constructor
      · exact fun heq => Except.error.inj heq ▸ h
      · exact fun hfirst => congrArg Except.error (h.unique hfirst)

/-! ### Attributes -/

theorem firstOffence_singleton {site : Site} {e : Error} (h : Offence site e) :
    FirstOffence [site] e :=
  firstOffence_cons_iff.mpr (.inl h)

theorem readListener_eq (node : Nat) (event : Text) (a : Markup.Attribute) :
    readListener node event a =
      if event.isEmpty then .error ⟨.invalidListener a.name .missingEvent, a.span⟩
      else if a.value.decoded.trim.isEmpty then
        .error ⟨.invalidListener a.name .missingHandler, a.span⟩
      else .ok ⟨node, event, a.value.decoded.trim, a.span⟩ := by
  obtain ⟨span, nameSpan, name, value⟩ := a
  cases value <;> rfl

theorem readListener_goesOver {a : Markup.Attribute} {event : Text}
    (hname : a.name = ['o', 'n', ':'] ++ event) (node : Nat) :
    GoesOver [.attr a] (readListener node event a) := by
  rw [readListener_eq]
  split_ifs with hevent hblank
  · rw [List.isEmpty_iff] at hevent
    rw [hevent, List.append_nil] at hname
    exact firstOffence_singleton (.eventless hname)
  · rw [List.isEmpty_iff] at hevent hblank
    exact firstOffence_singleton (.blank hname hevent hblank)
  · rw [List.isEmpty_iff] at hevent hblank
    intro site hsite e hoffence
    rw [List.mem_singleton.mp hsite] at hoffence
    rcases hoffence.of_listener hname with ⟨hnone, -⟩ | ⟨-, hempty, -⟩
    · exact hevent hnone
    · exact hblank hempty

theorem readPlainValue_goesOver {a : Markup.Attribute} (hname : ¬ ['o', 'n', ':'] <+: a.name) :
    GoesOver [.attr a] (readPlainValue a) := by
  unfold readPlainValue
  split
  case h_3 hvalue => exact firstOffence_singleton (.dynamic hname hvalue)
  all_goals
    rename_i hvalue
    intro site hsite e hoffence
    rw [List.mem_singleton.mp hsite] at hoffence
    obtain ⟨⟨_, _, _, hexpression⟩, -⟩ := hoffence.of_plain hname
    rw [hvalue] at hexpression
    cases hexpression

/-- The attributes of an element are gone over in order. -/
theorem readElementAttributes_goesOver (node : Nat) (attributes : List Markup.Attribute)
    (known : List (Text × Text) × List Listener) :
    GoesOver (attributes.map .attr) (readElementAttributes node attributes known) := by
  induction attributes generalizing known with
  | nil => exact fun _ h => absurd h List.not_mem_nil
  | cons a more ih =>
      rw [List.map_cons, ← List.singleton_append]
      unfold readElementAttributes
      cases hevent : eventName? a.name with
      | some event =>
          have hlistener := readListener_goesOver (eventName?_eq_some hevent) node
          dsimp only
          cases hread : readListener node event a with
          | error e => exact (hread ▸ hlistener).failed _
          | ok listener => exact (hread ▸ hlistener).andThen (ih _)
      | none =>
          have hplain := readPlainValue_goesOver (eventName?_eq_none hevent)
          dsimp only
          cases hread : readPlainValue a with
          | error e => exact (hread ▸ hplain).failed _
          | ok value => exact (hread ▸ hplain).andThen (ih _)

/-! ### Markup -/

namespace Table

mutual

/-- A markup node is gone over on the way to its nodes in the table, whatever the table holds
already. -/
theorem addMarkup_goesOver (parent : Option Nat) (t : Table) (node : Markup.Node) :
    GoesOver (node.sites parent.isNone) (addMarkup parent t node) := by
  cases node with
  | comment span data => exact fun _ h => absurd h List.not_mem_nil
  | text span data blank =>
      unfold addMarkup Markup.Node.sites
      split_ifs with hblank
      · exact fun _ h => absurd h List.not_mem_nil
      · cases hscan : Segment.scan span.start data with
        | error e => exact firstOffence_singleton (.text hscan)
        | ok segments =>
            intro site hsite e hoffence
            rw [List.mem_singleton.mp hsite] at hoffence
            cases hoffence with
            | text hfails => exact absurd (hscan.symm.trans hfails) (fun h => nomatch h)
  | element span name attributes children selfClosing =>
      have hattributes := readElementAttributes_goesOver t.nodes.length attributes ([], [])
      unfold addMarkup Markup.Node.sites
      dsimp only
      cases hread : readElementAttributes t.nodes.length attributes ([], []) with
      | error e => exact (hread ▸ hattributes).failed _
      | ok found =>
          refine (hread ▸ hattributes).andThen ?_
          dsimp only
          split_ifs with hkeeps
          · exact fun _ h => absurd h List.not_mem_nil
          · exact addAllMarkup_goesOver _ _ children

theorem addAllMarkup_goesOver (parent : Option Nat) (t : Table) (markup : List Markup.Node) :
    GoesOver (Markup.sitesOf parent.isNone markup) (addAllMarkup parent t markup) := by
  cases markup with
  | nil => exact fun _ h => absurd h List.not_mem_nil
  | cons node more =>
      have hnode := addMarkup_goesOver parent t node
      unfold addAllMarkup Markup.sitesOf
      cases hadd : addMarkup parent t node with
      | error e => exact (hadd ▸ hnode).failed _
      | ok next => exact (hadd ▸ hnode).andThen (addAllMarkup_goesOver parent next more)

end

/-- Markup has a table exactly if no site of it offends.  Otherwise the error is that of the
first site in document order that does. -/
theorem refused_for_first_offence (markup : List Markup.Node) :
    ((∃ e, ofMarkup markup = .error e) ↔
      ∃ site ∈ Markup.sitesOf true markup, ∃ e, Offence site e) ∧
    ∀ e, ofMarkup markup = .error e ↔ FirstOffence (Markup.sitesOf true markup) e := by
  have hover : GoesOver (Markup.sitesOf true markup) (ofMarkup markup) :=
    addAllMarkup_goesOver none .empty markup
  refine ⟨⟨?_, ?_⟩, hover.error_iff⟩
  · rintro ⟨e, herror⟩
    obtain ⟨before, site, after, hsites, -, hoffence⟩ := (hover.error_iff e).mp herror
    exact ⟨site, hsites ▸ List.mem_append_right _ List.mem_cons_self, e, hoffence⟩
  · rintro ⟨site, hsite, e, hoffence⟩
    cases htable : ofMarkup markup with
    | error found => exact ⟨found, rfl⟩
    | ok table =>
        rw [htable] at hover
        exact absurd hoffence (hover site hsite e)

end Table

end Component
