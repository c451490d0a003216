/-
The names that a script binds: each is a word, and none is a name that cannot be
bound.
-/
import Component.Proofs.Compiling
import Component.Proofs.Script.Lexing

namespace Component.Script

/-! ### Words -/

theorem isIdentifier_iff (name : Text) :
    isIdentifier name = true ↔ isWord name = true ∧ name ∉ bindingReservedWords := by
  cases name <;> simp [isIdentifier, isWord]

/-- The characters of a word are those of an identifier. -/
theorem parts_of_readWord {steps : Nat} {first escaped : Bool} {t name after : Text}
    (h : readWord steps first t = some (name, escaped, after)) :
    if first then isWord name = true else name.all Identifier.isPart = true := by
  induction steps generalizing first t name escaped with
  | zero => cases h
  | succ steps ih =>
    -- A character that fits, as it is or as an escape, stands before a word that has begun.
    have hcons : ∀ {c : Char} {more : Text},
        (if first then Identifier.isStart else Identifier.isPart) c = true →
        more.all Identifier.isPart = true →
        if first then isWord (c :: more) = true else (c :: more).all Identifier.isPart = true := by
      intro c more hc hmore
      cases first <;> simp_all [isWord]
    cases t with
    | nil => cases first <;> simp_all [readWord]
    | cons c rest =>
      simp only [readWord] at h
      generalize (if first then Identifier.isStart else Identifier.isPart) = fits at h hcons
      split at h
      case isTrue =>
        split at h
        case h_1 =>
          simp only [bind, Option.bind_eq_some_iff] at h
          obtain ⟨⟨n, rest'⟩, -, h⟩ := h
          split at h
          case isTrue hfits =>
            simp only [Option.bind_eq_some_iff] at h
            obtain ⟨⟨more, escaped', after'⟩, hmore, h⟩ := h
            cases h
            exact hcons (Bool.and_eq_true_iff.1 hfits).2 (ih hmore)
          case isFalse => cases h
        case h_2 => cases h
      case isFalse =>
        split at h
        case isTrue hfits =>
          simp only [bind, Option.bind_eq_some_iff] at h
          obtain ⟨⟨more, escaped', after'⟩, hmore, h⟩ := h
          cases h
          exact hcons hfits (ih hmore)
        case isFalse =>
          split at h
          case isTrue => cases h
          case isFalse hfirst =>
            cases h
            rw [if_neg hfirst]
            rfl

/-- The name of a word is one. -/
theorem isWord_of_readToken {t name after : Text} {quoted : Bool}
    (h : readToken t = some (.word name quoted, after)) : isWord name = true := by
  unfold readToken at h
  split at h
  case h_1 => cases h
  case h_2 => cases h
  case h_3 => cases h
  case h_4 =>
    split_ifs at h
    · simp [Option.map_eq_some_iff] at h
    · simp [Option.map_eq_some_iff] at h
    · simp only [readWordToken, bind, Option.bind_eq_some_iff] at h
      obtain ⟨⟨found, escaped, rest⟩, hfound, h⟩ := h
      split at h
      · cases h
      · cases h
        simpa using parts_of_readWord hfound
    · simp [Option.map_eq_some_iff] at h

theorem State.isWord_of_token {s : State} {name : Text} {quoted : Bool}
    (h : s.next.token = .word name quoted) : isWord name = true := by
  have hlexed := s.lexed
  simp only [readLexeme, bind, Option.bind_eq_some_iff] at hlexed
  obtain ⟨⟨newline, here⟩, -, ⟨token, after⟩, htoken, hnext⟩ := hlexed
  rw [← Option.some.inj hnext] at h
  simp only at h
  rw [h] at htoken
  exact isWord_of_readToken htoken

/-! ### Results of parsers -/

/-- Every result that the parser gives has a property. -/
def Parser.Gives {α : Type} (p : Parser α) (Result : α → Prop) : Prop :=
  ∀ s a s', p s = some (a, s') → Result a

namespace Parser.Gives

variable {α β : Type} {p : Parser α} {f : α → Parser β} {Result : α → Prop} {Wanted : β → Prop}

theorem pure {a : α} (h : Result a) : Parser.Gives (Pure.pure a) Result := by
  rintro s _ s' ⟨⟩
  exact h

theorem failure : Parser.Gives (failure : Parser α) Result := by
  rintro s a s' ⟨⟩

theorem bind (h : p.Gives Result) (hf : ∀ a, Result a → (f a).Gives Wanted) :
    (p >>= f).Gives Wanted := by
  intro s b s' hrun
  obtain ⟨⟨a, middle⟩, hp, hrest⟩ := Option.bind_eq_some_iff.1 hrun
  exact hf a (h s a middle hp) middle b s' hrest

/-- A parser whose own result does not matter comes first. -/
theorem after (hf : ∀ a, (f a).Gives Wanted) : (p >>= f).Gives Wanted := by
  intro s b s' hrun
  obtain ⟨⟨a, middle⟩, -, hrest⟩ := Option.bind_eq_some_iff.1 hrun
  exact hf a middle b s' hrest

theorem ite {condition : Prop} [Decidable condition] {q : Parser α} (hp : p.Gives Result)
    (hq : q.Gives Result) : (if condition then p else q).Gives Result := by
  split
  · exact hp
  · exact hq

/-- What a loop keeps at every step holds of its result. -/
theorem repeated {step : α → Parser (α ⊕ β)} (Kept : α → Prop)
    (hstep : ∀ a, Kept a → (step a).Gives (Sum.elim Kept Wanted)) {a : α} (ha : Kept a) :
    (Parser.repeated step a).Gives Wanted := by
  have hiterate : ∀ steps a, Kept a → (Parser.iterate step steps a).Gives Wanted := by
    intro steps
    induction steps with
    | zero => exact fun a _ => failure
    | succ steps ih =>
      intro a ha
      refine (hstep a ha).bind fun next hnext => ?_
      cases next with
      | inl a => exact ih a hnext
      | inr b => exact pure hnext
  exact after fun s => hiterate _ a ha

end Parser.Gives

/-! ### Names of variables -/

open Component.Script.Parser

/-- Whether a name can be bound, unless it is reserved. -/
def isBindable (name : Text) : Bool := isWord name && !isFixedName name

/-- A pattern that is only a name binds one that can be bound. -/
def Pattern.Binds (pattern : Pattern) : Prop :=
  ∀ name, pattern = .name name → isBindable name = true

section Binding

variable {g : Grammar} {c : Context}

theorem bindingName_gives : bindingName.Gives (isBindable · = true) := by
  intro s name s' hrun
  simp only [bindingName, bind_apply, token_apply, Option.bind_some] at hrun
  cases htoken : s.next.token with
  | word found quoted =>
    have hword := s.isWord_of_token htoken
    rw [htoken] at hrun
    obtain ⟨⟨_, s₁⟩, hallowed, hrun⟩ := Option.bind_eq_some_iff.1 hrun
    obtain ⟨⟨_, s₂⟩, -, hrun⟩ := Option.bind_eq_some_iff.1 hrun
    obtain ⟨rfl, -⟩ := Prod.mk.inj (Option.some.inj hrun)
    rw [require_apply] at hallowed
    split at hallowed
    case isTrue hnames =>
      rw [isBindable, hword, Bool.true_and]
      exact (Bool.and_eq_true_iff.1 hnames).2
    case isFalse => cases hallowed
  | number | string | backquote | symbol | endOfInput => simp [htoken] at hrun

theorem readPattern_gives : (readPattern g c).Gives Pattern.Binds := by
  refine .after fun array => .ite (.after fun _ => .pure ?_) (.after fun object =>
    .ite (.after fun _ => .pure ?_) (bindingName_gives.bind fun name hname => .pure ?_))
  · rintro _ ⟨⟩
  · rintro _ ⟨⟩
  · rintro _ ⟨⟩
    exact hname

theorem pattern_gives (depth : Nat) (c : Context) :
    ((Grammar.atDepth depth).pattern c).Gives Pattern.Binds := by
  cases depth with
  | zero => exact .failure
  | succ depth => exact readPattern_gives

theorem readDeclarator_gives (depth : Nat) (c : Context) :
    (readDeclarator (.atDepth depth) c).Gives fun d => d.pattern.Binds := by
  refine .after fun start => (pattern_gives depth c).bind fun pattern hpattern =>
    .after fun hasValue => ?_
  refine .ite (.after fun first => .after fun _ => .after fun stop => ?_) (.after fun stop => ?_)
  · exact .pure hpattern
  · exact .pure hpattern

theorem readVariables_gives (depth : Nat) (c : Context) (isConstant : Bool) :
    (readVariables (.atDepth depth) c isConstant).Gives fun ds => ∀ d ∈ ds, d.pattern.Binds := by
  have hloop : (readDeclarators (.atDepth depth) c).Gives fun ds => ∀ d ∈ ds, d.pattern.Binds := by
    refine .repeated (fun ds => ∀ d ∈ ds, d.pattern.Binds) (fun known hknown => ?_) (by simp)
    refine (readDeclarator_gives depth c).bind fun d hd => ?_
    have hall : ∀ other ∈ known ++ [d], other.pattern.Binds := by
      intro other hother
      obtain hother | hother := List.mem_append.1 hother
      · exact hknown other hother
      · rw [List.mem_singleton.1 hother]
        exact hd
    exact .after fun _ => .ite (.pure hall) (.pure hall)
  exact hloop.bind fun ds hds => .after fun _ => .after fun _ => .pure hds

end Binding

/-! ### Items -/

/-- The names that an item exports can be bound. -/
def Item.Binds (item : Item) : Prop := ∀ d ∈ item.exported, d.pattern.Binds

section Items

variable (depth : Nat) (c : Context)

/-- What an export holds binds names that can be bound. -/
def Exported.Binds : Exported → Prop
  | .variables declarators => ∀ d ∈ declarators, d.pattern.Binds
  | .other _ => True

theorem readExport_gives : (readExport (.atDepth depth) c).Gives Exported.Binds := by
  have hvariables : ∀ isConstant, (readVariables (.atDepth depth) c isConstant >>= fun ds =>
      pure (Exported.variables ds)).Gives Exported.Binds :=
    fun isConstant => (readVariables_gives depth c isConstant).bind fun ds hds => .pure hds
  refine .after fun seesStar => .ite (.after fun named => .ite ?_ ?_) ?_
  · exact .after fun _ => .after fun _ => .after fun _ => .after fun _ => .pure trivial
  · exact .after fun _ => .after fun _ => .after fun _ => .pure trivial
  refine .after fun seesBrace => .ite (.after fun _ => .pure trivial) ?_
  refine .after fun seesDefault => .ite (.after fun _ => .pure trivial) ?_
  refine .after fun seesVar => .after fun seesLet => .ite (.after fun _ => hvariables false) ?_
  refine .after fun seesConst => .ite (hvariables true) ?_
  refine .after fun seesFunction => .ite (.after fun _ => .pure trivial) ?_
  refine .after fun seesAsync => .ite (.after fun _ => .pure trivial) ?_
  exact .after fun _ => .pure trivial

theorem readTopLevel_gives : (readTopLevel (.atDepth depth) c).Gives fun item =>
    ∀ span, (item span).Binds := by
  have hnone : ∀ item : Item, item.exported = [] → item.Binds := by
    intro item hexported d hd
    rw [hexported] at hd
    cases hd
  refine .after fun seesImport => .ite (.after fun _ => .after fun names => ?_) ?_
  · exact .pure fun span => hnone _ rfl
  refine .after fun seesExport =>
    .ite ((readExport_gives depth c).bind fun exported hexported => ?_) ?_
  · obtain declarators | form := exported
    · exact .pure fun span => hexported
    · exact .pure fun span => hnone _ rfl
  refine .after fun seesVar => .after fun seesLet => .ite (.after fun _ => .after fun ds => ?_) ?_
  · exact .pure fun span => hnone _ rfl
  refine .after fun seesConst => .ite (.after fun ds => .pure fun span => hnone _ rfl) ?_
  refine .after fun seesFunction => .ite (.after fun name => .pure fun span => hnone _ rfl) ?_
  refine .after fun seesAsync => .ite (.after fun name => .pure fun span => hnone _ rfl) ?_
  refine .after fun seesClass => .ite (.after fun name => .pure fun span => hnone _ rfl) ?_
  exact .after fun hoisted => .pure fun span => hnone _ rfl

theorem readModule_gives : (readModule (.atDepth depth)).Gives fun items =>
    ∀ item ∈ items, item.Binds := by
  refine .repeated (fun items => ∀ item ∈ items, item.Binds) (fun known hknown => ?_) (by simp)
  refine .after fun next => .ite (.pure hknown) (.after fun start => ?_)
  refine (readTopLevel_gives depth .module).bind fun item hitem => .after fun stop => .pure ?_
  intro other hother
  obtain hother | hother := List.mem_append.1 hother
  · exact hknown other hother
  · rw [List.mem_singleton.1 hother]
    exact hitem _

end Items

/-- The items of a script are those of the module that it is read as. -/
theorem exists_readModule_of_parse {script : Text} {items : List Item}
    (h : parse script = some items) :
    ∃ s s' : State, s.ahead = .start script ∧
      readModule (.atDepth (2 * script.length + 4)) s = some (items, s') := by
  unfold parse at h
  split at h
  case h_2 => cases h
  case h_1 next hnext =>
    obtain ⟨⟨_, s'⟩, hmodule, rfl⟩ := Option.map_eq_some_iff.1 h
    exact ⟨⟨.start script, next, hnext, none⟩, s', rfl, hmodule⟩

theorem exists_readModule_of_read {script : Text} {items : List Item}
    (h : read script = .ok items) :
    ∃ (depth : Nat) (s s' : State), s.ahead = .start script ∧
      readModule (.atDepth depth) s = some (items, s') := by
  unfold read at h
  split at h
  case h_2 => cases h
  case h_1 hparse =>
    cases h
    exact ⟨_, exists_readModule_of_parse hparse⟩

/-- The names that a script exports can be bound. -/
theorem binds_of_read {script : Text} {items : List Item} (h : read script = .ok items) :
    ∀ item ∈ items, item.Binds := by
  obtain ⟨depth, s, s', -, hmodule⟩ := exists_readModule_of_read h
  exact readModule_gives depth s items s' hmodule

end Component.Script

namespace Component

/-- The properties of a script have names that can be bound. -/
theorem ScriptBlock.isBindable_property {block : ScriptBlock} {parts : ScriptParts}
    (h : block.parts = .ok parts) :
    ∀ p ∈ parts.properties, Script.isBindable p.name = true := by
  refine ScriptBlock.keeps_of_partsWith
    (fun parts => ∀ p ∈ parts.properties, Script.isBindable p.name = true) (by simp) ?_ h
  intro items hread old item hitem next hold hadd
  refine ScriptParts.addItem_keeps
    (fun parts => ∀ p ∈ parts.properties, Script.isBindable p.name = true) hold ?_ ?_ hadd
  · intro old declarator hdeclarator next hold hadd p hp
    obtain ⟨name, _, hpattern, -, -, -, rfl⟩ := ScriptParts.addProperty_eq_ok hadd
    obtain hp | hp := List.mem_append.1 hp
    · exact hold p hp
    · rw [List.mem_singleton.1 hp]
      exact Script.binds_of_read hread item hitem declarator hdeclarator name hpattern
  · intro old placement declared next hold hadd
    obtain ⟨_, -, rfl⟩ := ScriptParts.addStatement_eq_ok hadd
    exact hold

end Component
