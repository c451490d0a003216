/-
Where the items of a script and the declarators that it exports are read.

An item is a part of the script.  A declarator has been read at a place of it, so a name that it
declares is written there, and its initializer is a part of the script that ends where the
declarator does.
-/
import Component.Proofs.Provenance
import Component.Proofs.Script.Ordering

namespace Component.Script

open Component.Script.Parser

/-! ### Where declarators are read -/

/-- Each of the declarators has been read at a state that is not earlier. -/
def State.ReadAfter (s : State) (depth : Nat) (c : Context)
    (declarators : List Declarator) : Prop :=
  ∀ d ∈ declarators, ∃ m m' : State, s.ahead.Upto m.ahead ∧
    readDeclarator (.atDepth depth) c m = some (d, m')

section ReadAfter

variable {depth : Nat} {c : Context} {s s' middle : State} {declarators more : List Declarator}

theorem State.ReadAfter.of_upto (h : middle.ReadAfter depth c declarators)
    (hupto : s.ahead.Upto middle.ahead) : s.ReadAfter depth c declarators := by
  intro d hd
  obtain ⟨m, m', hm, hread⟩ := h d hd
  exact ⟨m, m', hupto.trans hm, hread⟩

theorem readAfter_of_readVariables {isConstant : Bool}
    (h : readVariables (.atDepth depth) c isConstant s = some (declarators, s')) :
    s.ReadAfter depth c declarators := by
  obtain ⟨_, s₁, hdeclarators, hcheck⟩ := exists_of_bind h
  obtain ⟨_, _, hcomplete, hrest⟩ := exists_of_bind hcheck
  obtain rfl := eq_of_require hcomplete
  obtain ⟨_, _, -, ⟨⟩⟩ := exists_of_bind hrest
  apply holds_of_repeated (fun m ds => s.ahead.Upto m.ahead ∧ s.ReadAfter depth c ds)
    (fun _ ds => s.ReadAfter depth c ds) ?_ ⟨.refl _, by simp [State.ReadAfter]⟩ hdeclarators
  rintro m ds next last ⟨hupto, hread⟩ hstep
  obtain ⟨d, s₂, hdeclarator, htest⟩ := exists_of_bind hstep
  obtain ⟨found, s₃, heat, hbranch⟩ := exists_of_bind htest
  have hmore : s.ReadAfter depth c (ds ++ [d]) := by
    refine List.forall_mem_append.2 ⟨hread, List.forall_mem_singleton.2 ?_⟩
    exact ⟨m, s₂, hupto, hdeclarator⟩
  have hpass := Passes.readDeclarator (Grammar.passes_atDepth depth) m d s₂ hdeclarator
  have hreach := hpass.trans_reaches (Moves.eat _ _ _ _ heat)
  cases found with
  | true =>
    cases hbranch
    exact ⟨hupto.trans (m.upto_here.trans hreach.upto), hmore⟩
  | false =>
    cases hbranch
    exact hmore

theorem readAfter_readTopLevel (span : Span) :
    (readTopLevel (.atDepth depth) c).Relates (fun s _ ds => s.ReadAfter depth c ds)
      fun make => (make span).exported :=
  relates_readTopLevel (fun _ _ _ _ hreach hread => hread.of_upto hreach.upto)
    (fun _ _ _ _ hrun _ => readAfter_of_readVariables hrun) span

theorem readAfter_of_readModule {items : List Item}
    (h : readModule (.atDepth depth) s = some (items, s')) :
    ∀ item ∈ items, s.ReadAfter depth .module item.exported := by
  refine (holds_of_readModule (fun m known => s.ahead.Upto m.ahead ∧
    ∀ item ∈ known, s.ReadAfter depth .module item.exported) ?_ ⟨.refl _, by simp⟩ h).2
  rintro m last known make ⟨hupto, hknown⟩ - htop
  have hpass := Passes.readTopLevel (Grammar.passes_atDepth depth) m make last htop
  refine ⟨hupto.trans (m.upto_here.trans hpass.upto), ?_⟩
  refine List.forall_mem_append.2 ⟨hknown, List.forall_mem_singleton.2 fun d hd => ?_⟩
  have hread := readAfter_readTopLevel _ m make last htop (List.ne_nil_of_mem hd)
  exact hread.of_upto hupto d hd

end ReadAfter

/-- An exported declarator has been read at a place of the script. -/
theorem exists_readDeclarator_of_read {script : Text} {items : List Item}
    (h : read script = .ok items) {item : Item} (hitem : item ∈ items) {d : Declarator}
    (hd : d ∈ item.exported) :
    ∃ (depth : Nat) (s s' : State), Input.Upto ⟨script, 0⟩ s.ahead ∧
      readDeclarator (.atDepth depth) .module s = some (d, s') := by
  obtain ⟨depth, s, s', hstart, hmodule⟩ := exists_readModule_of_read h
  obtain ⟨m, m', hm, hread⟩ := readAfter_of_readModule hmodule item hitem d hd
  exact ⟨depth, m, m', (Input.upto_start script).trans (hstart ▸ hm), hread⟩

/-! ### Names -/

theorem Input.Upto.mem {i j : Input} (h : i.Upto j) {c : Char} (hc : c ∈ j.rest) : c ∈ i.rest := by
  obtain ⟨passed, hrest, -⟩ := h
  rw [hrest]
  exact List.mem_append_right passed hc

theorem head?_of_readToken {t name after : Text} (h : readToken t = some (.word name true, after)) :
    t.head? = some '\\' := by
  unfold readToken at h
  split at h
  case h_1 => cases h
  case h_2 => cases h
  case h_3 => cases h
  case h_4 =>
    split_ifs at h
    · simp [Option.map_eq_some_iff] at h
    · simp [Option.map_eq_some_iff] at h
    · simp only [readWordToken, bind, Option.bind_eq_some_iff] at h
      obtain ⟨⟨found, escaped, rest⟩, -, h⟩ := h
      split at h
      · cases h
      · simp only [Option.some.injEq, Prod.mk.injEq, Token.word.injEq, decide_eq_true_eq] at h
        exact h.1.2
    · simp [Option.map_eq_some_iff] at h

/-- A quoted word is written with a backslash. -/
theorem State.backslash_of_quoted {s : State} {name : Text} (h : s.next.token = .word name true) :
    '\\' ∈ s.ahead.rest := by
  have hhere := s.upto_here
  have hlexed := s.lexed
  simp only [readLexeme, bind, Option.bind_eq_some_iff] at hlexed
  obtain ⟨⟨newline, here⟩, -, ⟨token, after⟩, htoken, hnext⟩ := hlexed
  rw [← Option.some.inj hnext] at h hhere
  dsimp only at h
  rw [h] at htoken
  exact hhere.mem (List.mem_of_head? (head?_of_readToken htoken))

/-- A reserved word is bound only where it is written with a backslash. -/
theorem backslash_of_bindingName {s s' : State} {name : Text} (h : bindingName s = some (name, s'))
    (hreserved : isReservedWord name = true) : '\\' ∈ s.ahead.rest := by
  simp only [bindingName, bind_apply, token_apply, Option.bind_some] at h
  cases htoken : s.next.token with
  | word found quoted =>
    rw [htoken] at h
    obtain ⟨⟨_, _⟩, hallowed, hrest⟩ := Option.bind_eq_some_iff.1 h
    obtain ⟨⟨_, _⟩, -, ⟨⟩⟩ := Option.bind_eq_some_iff.1 hrest
    rw [require_apply, hreserved, Bool.not_true, Bool.or_false] at hallowed
    split at hallowed
    case isTrue hquoted =>
      rw [(Bool.and_eq_true_iff.1 hquoted).1] at htoken
      exact s.backslash_of_quoted htoken
    case isFalse => cases hallowed
  | number | string | backquote | symbol | endOfInput => simp [htoken] at h

theorem backslash_of_pattern {depth : Nat} {c : Context} {s s' : State} {name : Text}
    (h : (Grammar.atDepth depth).pattern c s = some (.name name, s'))
    (hreserved : isReservedWord name = true) : '\\' ∈ s.ahead.rest := by
  cases depth with
  | zero => cases h
  | succ depth =>
    obtain ⟨isArray, s₁, hbracket, hrest⟩ := exists_of_bind h
    cases isArray with
    | true =>
      obtain ⟨_, _, -, ⟨⟩⟩ := exists_of_bind hrest
    | false =>
      obtain ⟨isObject, s₂, hbrace, hrest⟩ := exists_of_bind hrest
      cases isObject with
      | true =>
        obtain ⟨_, _, -, ⟨⟩⟩ := exists_of_bind hrest
      | false =>
        obtain ⟨_, _, hname, ⟨⟩⟩ := exists_of_bind hrest
        have hreach := (Moves.eat _ _ _ _ hbracket).trans (Moves.eat _ _ _ _ hbrace)
        exact hreach.upto.mem (backslash_of_bindingName hname hreserved)

/-- A reserved word is exported only by a script that holds a backslash. -/
theorem backslash_of_read {script : Text} {items : List Item} (h : read script = .ok items)
    {item : Item} (hitem : item ∈ items) {d : Declarator} (hd : d ∈ item.exported) {name : Text}
    (hname : d.pattern = .name name) (hreserved : isReservedWord name = true) : '\\' ∈ script := by
  obtain ⟨depth, s, s', hupto, hread⟩ := exists_readDeclarator_of_read h hitem hd
  obtain ⟨s₁, -, -, hpattern, -⟩ := readDeclarator_cases hread
  rw [hname] at hpattern
  exact hupto.mem (backslash_of_pattern hpattern hreserved)

/-! ### Parts of a script -/

/-- What lies between two places of a script, one after the other, is a part of it. -/
theorem Input.Upto.liesIn {script : Text} {i j : Input} (hi : Input.Upto ⟨script, 0⟩ i)
    (hj : i.Upto j) : Span.LiesIn ⟨i.offset, j.offset⟩ script := by
  obtain ⟨before, hbefore, hstart⟩ := hi
  obtain ⟨text, htext, hstop⟩ := hj
  dsimp only at hbefore hstart
  rw [Nat.zero_add] at hstart
  refine ⟨text, before, j.rest, ?_, ?_⟩
  · rw [hbefore, htext]
  · rw [hstop, hstart]

/-- An item is a part of the script. -/
theorem span_liesIn_of_read {script : Text} {items : List Item} (h : read script = .ok items) :
    ∀ item ∈ items, item.span.LiesIn script := by
  obtain ⟨depth, s, s', hstart, hmodule⟩ := exists_readModule_of_read h
  refine (holds_of_readModule (fun m known => Input.Upto ⟨script, 0⟩ m.ahead ∧
    ∀ item ∈ known, item.span.LiesIn script) ?_
    ⟨hstart ▸ Input.upto_start script, by simp⟩ hmodule).2
  rintro m last known make ⟨hupto, hknown⟩ - htop
  have hhere := hupto.trans m.upto_here
  have hpass := Passes.readTopLevel (Grammar.passes_atDepth depth) m make last htop
  refine ⟨hhere.trans hpass.upto, ?_⟩
  refine List.forall_mem_append.2 ⟨hknown, List.forall_mem_singleton.2 ?_⟩
  rw [span_of_readTopLevel m make last htop]
  exact hhere.liesIn hpass.upto

/-- A declarator is a part of the script, and so is its initializer, which ends with it. -/
theorem liesIn_of_readDeclarator {script : Text} {depth : Nat} {c : Context} {s s' : State}
    {d : Declarator} (hupto : Input.Upto ⟨script, 0⟩ s.ahead)
    (h : readDeclarator (.atDepth depth) c s = some (d, s')) :
    d.span.LiesIn script ∧ ∀ value ∈ d.initializer, value.LiesIn script ∧
      d.span.start ≤ value.start ∧ value.stop = d.span.stop := by
  have hg := Grammar.passes_atDepth depth
  have hhere := hupto.trans s.upto_here
  obtain ⟨s₁, found, s₂, hpattern, heat, hspan, hvalue⟩ := readDeclarator_cases h
  rw [hspan]
  refine ⟨hhere.liesIn (Passes.readDeclarator hg s d s' h).upto, fun value hinitializer => ?_⟩
  obtain hnone | ⟨shape, hassignment, hsome⟩ := hvalue
  · rw [hnone] at hinitializer
    cases hinitializer
  · rw [hsome] at hinitializer
    cases hinitializer
    have hpass := (hg.pattern c s _ s₁ hpattern).trans_reaches (Moves.eat _ _ _ _ heat)
    have hbetween := hpass.upto.trans s₂.upto_here
    refine ⟨?_, hbetween.offset_le, rfl⟩
    exact (hhere.trans hbetween).liesIn (hg.assignment c s₂ _ s' hassignment).upto

/-- The items of a script lie in it, with what they export. -/
theorem liesIn_of_read {script : Text} {items : List Item} (h : read script = .ok items) :
    ∀ item ∈ items, item.LiesIn script := by
  refine fun item hitem => ⟨span_liesIn_of_read h item hitem, fun d hd => ?_⟩
  obtain ⟨depth, s, s', hupto, hread⟩ := exists_readDeclarator_of_read h hitem hd
  exact liesIn_of_readDeclarator hupto hread

end Component.Script
