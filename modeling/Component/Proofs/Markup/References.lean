/-
Character references as they are written and as they are decoded.

A reference is a name or a number between `&` and `;`.  Decoding goes over a text once, from
left to right: where a reference begins it puts the character in its place, and every other
`&` stays.  So a text that was written with references, each character in any of the ways
that there are, is decoded to what it was.

A number may have a plus sign before its digits, too, and is then decoded as if the sign were
not there.
-/
import Component.Markup.Reference
import Mathlib.Data.List.Forall2
import Mathlib.Data.Nat.Digits.Defs

namespace Component.Markup.Reference

/-! ### Numbers -/

/-- The digits of a base of at most sixteen, in order. -/
def digitsOf (base : Nat) : Text := "0123456789abcdef".toList.take base

/-- One or more digits of a base, the letters of either case. -/
def IsNumeral (base : Nat) (digits : Text) : Prop :=
  digits ≠ [] ∧ ∀ c ∈ digits, c.toLower ∈ digitsOf base

instance (base : Nat) (digits : Text) : Decidable (IsNumeral base digits) :=
  decidable_of_iff (digits ≠ [] ∧ digits.all (fun c => decide (c.toLower ∈ digitsOf base)) = true)
    (by simp [IsNumeral])

/-- The value of a digit is its place among the digits. -/
def digitValue (c : Char) : Nat := (digitsOf 16).idxOf c.toLower

/-- The number that digits denote, the first of which counts most. -/
def numeral (base : Nat) (digits : Text) : Nat := Nat.ofDigits base (digits.reverse.map digitValue)

theorem numeral_cons (base : Nat) (c : Char) (rest : Text) :
    numeral base (c :: rest) = base ^ rest.length * digitValue c + numeral base rest := by
  rw [numeral, List.reverse_cons, List.map_append, Nat.ofDigits_append, List.length_map,
    List.length_reverse, List.map_singleton, Nat.ofDigits_singleton, Nat.add_comm]
  rfl

theorem toNat_lt_of_mem_digitsOf {base : Nat} {c : Char} (h : c ∈ digitsOf base) :
    c.toNat < 128 := by
  have hall : (digitsOf 16).all (fun d => decide (d.toNat < 128)) = true := by decide
  exact of_decide_eq_true (List.all_eq_true.mp hall c (List.mem_of_mem_take h))

theorem digit?_eq {base : Nat} (hbase : base = 10 ∨ base = 16) (c : Char) :
    digit? base c = if c.toLower ∈ digitsOf base then some (digitValue c) else none := by
  by_cases hascii : c.toNat < 128
  · have hall : ∀ base ∈ [10, 16], ∀ n < 128, digit? base (Char.ofNat n) =
        if (Char.ofNat n).toLower ∈ digitsOf base then some (digitValue (Char.ofNat n))
        else none := by
      decide +kernel
    have hc := hall base (by simpa using hbase) c.toNat hascii
    rwa [Char.ofNat_toNat] at hc
  · have hhigh : ∀ d : Char, d.toNat < 128 → ¬ c ≤ d := fun d hd hle =>
      hascii (Nat.lt_of_le_of_lt hle hd)
    have hletter : ¬ c.val ≤ 90 := hhigh 'Z' (by decide)
    have hnine : ¬ c.val ≤ 57 := hhigh '9' (by decide)
    have hlower : c.toLower = c := dif_neg fun h => hletter h.2
    have hnot : c.toLower ∉ digitsOf base := fun hmem =>
      hascii (toNat_lt_of_mem_digitsOf (hlower ▸ hmem))
    simp [digit?, Char.isDigit, hnot, hnine, hhigh 'f' (by decide), hhigh 'F' (by decide)]

theorem numberFrom_eq_some_iff {base : Nat} (hbase : base = 10 ∨ base = 16) (digits : Text)
    (value n : Nat) : numberFrom base value digits = some n ↔
      (∀ c ∈ digits, c.toLower ∈ digitsOf base) ∧
        value * base ^ digits.length + numeral base digits = n := by
  induction digits generalizing value with
  | nil => simp [numberFrom, numeral]
  | cons c rest ih =>
      rw [numberFrom, digit?_eq hbase, List.forall_mem_cons]
      by_cases hmem : c.toLower ∈ digitsOf base
      · have hvalue : (value * base + digitValue c) * base ^ rest.length + numeral base rest =
            value * base ^ (c :: rest).length + numeral base (c :: rest) := by
          rw [numeral_cons, List.length_cons, Nat.pow_succ]
          ring
        simp only [hmem, if_true, ih, true_and, hvalue]
      · simp [hmem]

/-- Nothing stands before the digits of a number. -/
def noSign : List Text := [[]]

/-- A plus sign may stand before the digits of a number. -/
def optionalPlus : List Text := [[], ['+']]

theorem number?_eq_some_iff {base : Nat} (hbase : base = 10 ∨ base = 16) (t : Text) (n : Nat) :
    number? base t = some n ↔ ∃ sign ∈ optionalPlus, ∃ digits, t = sign ++ digits ∧
      IsNumeral base digits ∧ numeral base digits = n := by
  have hnumeral : ∀ digits, digits ≠ [] →
      (numberFrom base 0 digits = some n ↔ IsNumeral base digits ∧ numeral base digits = n) := by
    intro digits hdigits
    rw [numberFrom_eq_some_iff hbase, Nat.zero_mul, Nat.zero_add, IsNumeral]
    simp only [ne_eq, hdigits, not_false_eq_true, true_and]
  have hsign : ∀ rest, ¬ IsNumeral base ('+' :: rest) := fun rest h => by
    have hmem := h.2 '+' List.mem_cons_self
    rcases hbase with rfl | rfl <;> exact absurd hmem (by decide)
  have hempty : ¬ IsNumeral base [] := fun h => h.1 rfl
  simp only [optionalPlus, List.mem_cons, List.not_mem_nil, or_false, exists_eq_or_imp,
    exists_eq_left, List.nil_append, List.singleton_append, exists_eq_left']
  unfold number?
  split
  case h_1 => simp [hempty]
  case h_2 => simp [hempty, hsign]
  case h_3 digits hdigits => simp [hsign, hnumeral digits (by simpa using hdigits)]
  case h_4 _ hnil _ hmore =>
    have hfirst : ∀ rest, t ≠ '+' :: rest := fun rest h => hmore rest h
    simp [hfirst, hnumeral t hnil]

/-- The characters of the code points from one on. -/
theorem scalar?_eq_some_iff {n : Nat} {c : Char} :
    scalar? n = some c ↔ c ≠ '\x00' ∧ c.toNat = n := by
  unfold scalar?
  constructor
  · intro h
    split_ifs at h with hn
    obtain rfl := Option.some.inj h
    have hvalue : (Char.ofNat n).toNat = n := by
      rw [Char.ofNat, dif_pos hn.2]
      rfl
    refine ⟨?_, hvalue⟩
    intro hzero
    rw [hzero] at hvalue
    exact hn.1 hvalue.symm
  · rintro ⟨hc, rfl⟩
    have hzero : c.toNat ≠ 0 := fun h => hc (Char.toNat_inj.mp h)
    rw [if_pos ⟨hzero, c.valid⟩, Char.ofNat_toNat]

/-! ### References -/

/-- What stands between `&` and `;` in a reference to a character, where a number may have one
of `signs` before its digits. -/
inductive Denotes (signs : List Text) : Text → Char → Prop where
  | name {body : Text} {c : Char}
      (h : (body, c) ∈ [("amp".toList, '&'), ("lt".toList, '<'), ("gt".toList, '>'),
        ("quot".toList, '"'), ("apos".toList, '\''), ("nbsp".toList, '\xa0')]) :
      Denotes signs body c
  | decimal {sign digits : Text} {c : Char} (hsign : sign ∈ signs) (hdigits : IsNumeral 10 digits)
      (hvalue : numeral 10 digits = c.toNat) (hc : c ≠ '\x00') :
      Denotes signs ('#' :: (sign ++ digits)) c
  | hexadecimal {mark : Char} {sign digits : Text} {c : Char} (hmark : mark = 'x' ∨ mark = 'X')
      (hsign : sign ∈ signs) (hdigits : IsNumeral 16 digits)
      (hvalue : numeral 16 digits = c.toNat) (hc : c ≠ '\x00') :
      Denotes signs ('#' :: mark :: (sign ++ digits)) c

/-- A reference to a character has at most eight characters between `&` and `;`. -/
def IsReference (signs : List Text) (body : Text) (c : Char) : Prop :=
  Denotes signs body c ∧ body.length ≤ 8

theorem number?_bind_eq_some_iff {base : Nat} (hbase : base = 10 ∨ base = 16) (t : Text)
    (c : Char) : (number? base t).bind scalar? = some c ↔ ∃ sign ∈ optionalPlus, ∃ digits,
      t = sign ++ digits ∧ IsNumeral base digits ∧ numeral base digits = c.toNat ∧ c ≠ '\x00' := by
  simp only [Option.bind_eq_some_iff, number?_eq_some_iff hbase, scalar?_eq_some_iff]
  constructor
  · rintro ⟨n, ⟨sign, hsign, digits, ht, hdigits, hvalue⟩, hc, rfl⟩
    exact ⟨sign, hsign, digits, ht, hdigits, hvalue, hc⟩
  · rintro ⟨sign, hsign, digits, ht, hdigits, hvalue, hc⟩
    exact ⟨c.toNat, ⟨sign, hsign, digits, ht, hdigits, hvalue⟩, hc, rfl⟩

theorem decodeBody_of_head {t : Text} (h : ∀ c ∈ t.head?, c ≠ 'x' ∧ c ≠ 'X') :
    decodeBody ('#' :: t) = (number? 10 t).bind scalar? := by
  cases t with
  | nil => rfl
  | cons c rest =>
      obtain ⟨hlower, hupper⟩ := h c rfl
      simp [decodeBody, hlower, hupper]

/-- The mark of hexadecimal digits is no decimal digit. -/
theorem head_ne_of_isNumeral_ten {sign digits : Text} (hsign : sign ∈ optionalPlus)
    (hdigits : IsNumeral 10 digits) : ∀ c ∈ (sign ++ digits).head?, c ≠ 'x' ∧ c ≠ 'X' := by
  simp only [optionalPlus, List.mem_cons, List.not_mem_nil, or_false] at hsign
  intro c hc
  rcases hsign with rfl | rfl
  · have hmem := hdigits.2 c (List.mem_of_mem_head? hc)
    constructor <;> rintro rfl <;> exact absurd hmem (by decide)
  · cases hc
    decide

theorem decodeBody_eq_some_iff {body : Text} {c : Char} :
    decodeBody body = some c ↔ Denotes optionalPlus body c := by
  constructor
  · intro h
    unfold decodeBody at h
    split at h
    case h_1 digits =>
      obtain ⟨sign, hsign, digits, rfl, hdigits, hvalue, hc⟩ :=
        (number?_bind_eq_some_iff (.inr rfl) _ c).mp h
      exact .hexadecimal (.inl rfl) hsign hdigits hvalue hc
    case h_2 digits =>
      obtain ⟨sign, hsign, digits, rfl, hdigits, hvalue, hc⟩ :=
        (number?_bind_eq_some_iff (.inr rfl) _ c).mp h
      exact .hexadecimal (.inr rfl) hsign hdigits hvalue hc
    case h_3 digits _ _ =>
      obtain ⟨sign, hsign, digits, rfl, hdigits, hvalue, hc⟩ :=
        (number?_bind_eq_some_iff (.inl rfl) _ c).mp h
      exact .decimal hsign hdigits hvalue hc
    case h_4 =>
      obtain ⟨before, after, hnamed, -⟩ := List.lookup_eq_some_iff.mp h
      refine .name ?_
      change (body, c) ∈ named
      rw [hnamed]
      exact List.mem_append_right _ List.mem_cons_self
  · intro h
    cases h with
    | name h =>
        simp only [List.mem_cons, Prod.mk.injEq, List.not_mem_nil, or_false] at h
        rcases h with ⟨rfl, rfl⟩ | ⟨rfl, rfl⟩ | ⟨rfl, rfl⟩ | ⟨rfl, rfl⟩ | ⟨rfl, rfl⟩ |
          ⟨rfl, rfl⟩ <;> rfl
    | decimal hsign hdigits hvalue hc =>
        rw [decodeBody_of_head (head_ne_of_isNumeral_ten hsign hdigits)]
        exact (number?_bind_eq_some_iff (.inl rfl) _ c).mpr ⟨_, hsign, _, rfl, hdigits, hvalue, hc⟩
    | hexadecimal hmark hsign hdigits hvalue hc =>
        rcases hmark with rfl | rfl <;>
          exact (number?_bind_eq_some_iff (.inr rfl) _ c).mpr
            ⟨_, hsign, _, rfl, hdigits, hvalue, hc⟩

theorem IsNumeral.not_mem {base : Nat} {digits : Text} (h : IsNumeral base digits) {d : Char}
    (hd : d.toLower ∉ digitsOf 16) : d ∉ digits :=
  fun hmem => hd (List.mem_of_mem_take (h.2 d hmem))

theorem Denotes.not_mem {signs : List Text} {body : Text} {c d : Char} (h : Denotes signs body c)
    (hsigns : ∀ sign ∈ signs, d ∉ sign) (hnames : ∀ entry ∈ named, d ∉ entry.1)
    (hmarks : d ∉ ['#', 'x', 'X']) (hdigit : d.toLower ∉ digitsOf 16) : d ∉ body := by
  simp only [List.mem_cons, List.not_mem_nil, or_false, not_or] at hmarks
  obtain ⟨hnumber, hlower, hupper⟩ := hmarks
  cases h with
  | name h => exact hnames _ h
  | decimal hsign hdigits _ _ => simp [hnumber, hsigns _ hsign, hdigits.not_mem hdigit]
  | hexadecimal hmark hsign hdigits _ _ =>
      rcases hmark with rfl | rfl <;>
        simp [hnumber, hlower, hupper, hsigns _ hsign, hdigits.not_mem hdigit]

theorem Denotes.semicolon_not_mem {body : Text} {c : Char} (h : Denotes optionalPlus body c) :
    ';' ∉ body :=
  h.not_mem (by decide) (by decide) (by decide) (by decide)

/-- The body of a reference ends at the first semicolon, which is one of the next nine
characters. -/
theorem reference?_eq_some_iff {t : Text} {c : Char} {length : Nat} :
    reference? t = some (c, length) ↔ ∃ body rest, t = body ++ ';' :: rest ∧
      IsReference optionalPlus body c ∧ length = body.length + 1 := by
  constructor
  · intro h
    simp only [reference?] at h
    split_ifs at h with hsemicolon
    set body := (t.take (maxLength + 1)).takeWhile (· != ';') with hbody
    obtain ⟨d, hdecode, hpair⟩ := Option.map_eq_some_iff.mp h
    obtain ⟨rfl, rfl⟩ := Prod.mk.inj hpair
    have hcut : body ++ (t.take (maxLength + 1)).dropWhile (· != ';') = t.take (maxLength + 1) :=
      List.takeWhile_append_dropWhile
    rw [← hcut, List.getElem?_append_right (Nat.le_refl _), Nat.sub_self,
      ← List.head?_eq_getElem?] at hsemicolon
    obtain ⟨rest, hrest⟩ := List.head?_eq_some_iff.mp hsemicolon
    rw [hrest] at hcut
    have hlength := congrArg List.length hcut
    rw [List.length_append, List.length_cons, List.length_take, maxLength] at hlength
    refine ⟨body, rest ++ t.drop (maxLength + 1), ?_, ⟨decodeBody_eq_some_iff.mp hdecode, ?_⟩, rfl⟩
    · rw [← List.cons_append, ← List.append_assoc, hcut, List.take_append_drop]
    · omega
  · rintro ⟨body, rest, rfl, ⟨hdenotes, hlength⟩, rfl⟩
    have hplain : ∀ d ∈ body, (d != ';') = true := fun d hd => by
      have hne : d ≠ ';' := fun h => hdenotes.semicolon_not_mem (h ▸ hd)
      simpa using hne
    have hwindow : (body ++ ';' :: rest).take (maxLength + 1) =
        body ++ ';' :: rest.take (maxLength - body.length) := by
      rw [List.take_append, List.take_of_length_le (by rw [maxLength]; omega), maxLength,
        show 8 + 1 - body.length = (8 - body.length) + 1 by omega, List.take_succ_cons]
    have hbody :
        (body ++ ';' :: rest.take (maxLength - body.length)).takeWhile (· != ';') = body := by
      rw [List.takeWhile_append_of_pos hplain]
      simp
    simp [reference?, hwindow, hbody, decodeBody_eq_some_iff.mpr hdenotes]

/-! ### Decoding -/

/-- A reference begins right after an `&`. -/
def BeginsReference (signs : List Text) (t : Text) : Prop :=
  ∃ body c rest, t = body ++ ';' :: rest ∧ IsReference signs body c

theorem decodeFrom_length_append (read t : Text) :
    decodeFrom read.length (read ++ t) = decode t := by
  induction read with
  | nil => rfl
  | cons c read ih => exact ih

theorem decode_cons_of_ne {c : Char} (h : c ≠ '&') (t : Text) :
    decode (c :: t) = c :: decode t := by
  simp [decode, decodeFrom, h]

theorem decode_reference {body : Text} {c : Char} (h : IsReference optionalPlus body c) (t : Text) :
    decode ('&' :: (body ++ ';' :: t)) = c :: decode t := by
  have hread : reference? (body ++ ';' :: t) = some (c, (body ++ [';']).length) :=
    reference?_eq_some_iff.mpr ⟨body, t, rfl, h, by simp⟩
  have hrest := decodeFrom_length_append (body ++ [';']) t
  rw [List.append_assoc, List.singleton_append] at hrest
  rw [decode, decodeFrom, if_pos rfl, hread]
  exact congrArg (c :: ·) hrest

theorem decode_ampersand {t : Text} (h : ¬ BeginsReference optionalPlus t) :
    decode ('&' :: t) = '&' :: decode t := by
  have hread : reference? t = none := by
    cases hfound : reference? t with
    | none => rfl
    | some found =>
        obtain ⟨body, rest, ht, hreference, -⟩ := reference?_eq_some_iff.mp hfound
        exact absurd ⟨body, found.1, rest, ht, hreference⟩ h
  rw [decode, decodeFrom, if_pos rfl, hread]
  rfl

theorem Denotes.toOptionalPlus {body : Text} {c : Char} (h : Denotes noSign body c) :
    Denotes optionalPlus body c := by
  have hsigns : ∀ sign ∈ noSign, sign ∈ optionalPlus := by decide
  cases h with
  | name h => exact .name h
  | decimal hsign hdigits hvalue hc => exact .decimal (hsigns _ hsign) hdigits hvalue hc
  | hexadecimal hmark hsign hdigits hvalue hc =>
      exact .hexadecimal hmark (hsigns _ hsign) hdigits hvalue hc

/-! ### Encoded texts -/

/-- The ways to write a character: as it is, unless it is an `&`, or as a reference. -/
inductive Spelling (c : Char) : Text → Prop where
  | kept (h : c ≠ '&') : Spelling c [c]
  | reference {body : Text} (h : IsReference noSign body c) : Spelling c ('&' :: (body ++ [';']))

theorem Spelling.decode_append {c : Char} {piece : Text} (h : Spelling c piece) (t : Text) :
    decode (piece ++ t) = c :: decode t := by
  cases h with
  | kept h => exact decode_cons_of_ne h t
  | reference h =>
      rw [List.cons_append, List.append_assoc]
      exact decode_reference ⟨h.1.toOptionalPlus, h.2⟩ t

theorem decode_flatten_append {s : Text} {pieces : List Text} (h : List.Forall₂ Spelling s pieces)
    (t : Text) : decode (pieces.flatten ++ t) = s ++ decode t := by
  induction h with
  | nil => rfl
  | cons hpiece _ ih => rw [List.flatten_cons, List.append_assoc, hpiece.decode_append, ih]; rfl

/-- A text of which every character is written in one of its ways is decoded to itself.  What
the references in it stand for is not decoded again, whatever text follows. -/
theorem decode_undoes_spelling {s : Text} {pieces : List Text}
    (h : List.Forall₂ Spelling s pieces) :
    decode pieces.flatten = s ∧ ∀ rest, decode (pieces.flatten ++ rest) = s ++ decode rest := by
  refine ⟨?_, decode_flatten_append h⟩
  have hwhole := decode_flatten_append h []
  rwa [List.append_nil, show decode [] = [] from rfl, List.append_nil] at hwhole

/-- An ampersand that a reference puts before `lt;`, and the last character of all with as
many digits as fit. -/
theorem escaped_less_than_kept :
    List.Forall₂ Spelling ['&', 'l', 't', ';', Char.ofNat 0x10ffff]
      ["&#0038;".toList, "l".toList, "&#x74;".toList, ";".toList, "&#X10fFFf;".toList] ∧
    decode "&#0038;l&#x74;;&#X10fFFf;&lt;".toList =
      ['&', 'l', 't', ';', Char.ofNat 0x10ffff, '<'] := by
  have hampersand : IsReference noSign "#0038".toList '&' :=
    ⟨@Denotes.decimal _ [] "0038".toList _ (by decide) (by decide) (by decide) (by decide),
      by decide⟩
  have hletter : IsReference noSign "#x74".toList 't' :=
    ⟨@Denotes.hexadecimal _ 'x' [] "74".toList _ (.inl rfl) (by decide) (by decide) (by decide)
      (by decide), by decide⟩
  have hlast : IsReference noSign "#X10fFFf".toList (Char.ofNat 0x10ffff) :=
    ⟨@Denotes.hexadecimal _ 'X' [] "10fFFf".toList _ (.inr rfl) (by decide) (by decide) (by decide)
      (by decide), by decide⟩
  have h : List.Forall₂ Spelling ['&', 'l', 't', ';', Char.ofNat 0x10ffff]
      ["&#0038;".toList, "l".toList, "&#x74;".toList, ";".toList, "&#X10fFFf;".toList] :=
    .cons (.reference hampersand) (.cons (.kept (by decide)) (.cons (.reference hletter)
      (.cons (.kept (by decide)) (.cons (.reference hlast) .nil))))
  exact ⟨h, (decode_undoes_spelling h).2 "&lt;".toList⟩

/-! ### Single pass -/

/-- The left-to-right pass over a text that replaces each reference by its character and
copies what begins none. -/
inductive SinglePass (signs : List Text) : Text → Text → Prop where
  | done : SinglePass signs [] []
  | plain {c : Char} {t u : Text} (hc : c ≠ '&') (h : SinglePass signs t u) :
      SinglePass signs (c :: t) (c :: u)
  | reference {body t u : Text} {c : Char} (hbody : IsReference signs body c)
      (h : SinglePass signs t u) : SinglePass signs ('&' :: (body ++ ';' :: t)) (c :: u)
  | ampersand {t u : Text} (hnone : ¬ BeginsReference signs t) (h : SinglePass signs t u) :
      SinglePass signs ('&' :: t) ('&' :: u)

theorem SinglePass.eq_decode {t u : Text} (h : SinglePass optionalPlus t u) : u = decode t := by
  induction h with
  | done => rfl
  | plain hc _ ih => rw [decode_cons_of_ne hc, ih]
  | reference hbody _ ih => rw [decode_reference hbody, ih]
  | ampersand hnone _ ih => rw [decode_ampersand hnone, ih]

/-- There is a pass over every text. -/
theorem exists_singlePass (signs : List Text) (t : Text) : ∃ u, SinglePass signs t u := by
  induction hlength : t.length using Nat.strong_induction_on generalizing t with
  | _ n ih =>
    cases t with
    | nil => exact ⟨[], .done⟩
    | cons c t =>
        rw [List.length_cons] at hlength
        by_cases hc : c = '&'
        · subst hc
          by_cases hbegins : BeginsReference signs t
          · obtain ⟨body, c, rest, rfl, hbody⟩ := hbegins
            rw [List.length_append, List.length_cons] at hlength
            obtain ⟨u, hu⟩ := ih rest.length (by omega) rest rfl
            exact ⟨_, .reference hbody hu⟩
          · obtain ⟨u, hu⟩ := ih t.length (by omega) t rfl
            exact ⟨_, .ampersand hbegins hu⟩
        · obtain ⟨u, hu⟩ := ih t.length (by omega) t rfl
          exact ⟨_, .plain hc hu⟩

theorem singlePass_iff {t u : Text} : SinglePass optionalPlus t u ↔ u = decode t := by
  constructor
  · exact SinglePass.eq_decode
  · rintro rfl
    obtain ⟨u, hu⟩ := exists_singlePass optionalPlus t
    rwa [← hu.eq_decode]

theorem reference_within (body rest : Text) :
    '&' :: (body ++ [';']) <:+: '&' :: (body ++ ';' :: rest) := by
  refine List.IsPrefix.isInfix ⟨rest, ?_⟩
  simp

/-- Two ways to write numbers make one pass over a text if they agree on the references in
it. -/
theorem SinglePass.congr {signs signs' : List Text} {t u : Text} (h : SinglePass signs t u)
    (hsame : ∀ body c, '&' :: (body ++ [';']) <:+: t →
      (IsReference signs body c ↔ IsReference signs' body c)) : SinglePass signs' t u := by
  induction h with
  | done => exact .done
  | plain hc _ ih =>
      exact .plain hc (ih fun body c hholds =>
        hsame body c (hholds.trans (List.suffix_cons ..).isInfix))
  | @reference body t u c hbody _ ih =>
      have hrest : t <:+ '&' :: (body ++ ';' :: t) := ⟨'&' :: (body ++ [';']), by simp⟩
      exact .reference ((hsame body c (reference_within body t)).mp hbody)
        (ih fun body c hholds => hsame body c (hholds.trans hrest.isInfix))
  | @ampersand t u hnone _ ih =>
      refine .ampersand ?_ (ih fun body c hholds =>
        hsame body c (hholds.trans (List.suffix_cons ..).isInfix))
      rintro ⟨body, c, rest, rfl, hbody⟩
      exact hnone ⟨body, c, rest, rfl, (hsame body c (reference_within body rest)).mpr hbody⟩

theorem Denotes.toNoSign {body : Text} {c : Char} (h : Denotes optionalPlus body c)
    (hplus : '+' ∉ body) : Denotes noSign body c := by
  have hsigns : ∀ sign ∈ optionalPlus, '+' ∉ sign → sign ∈ noSign := by decide
  cases h with
  | name h => exact .name h
  | decimal hsign hdigits hvalue hc =>
      have hnone := fun hmem => hplus (List.mem_cons_of_mem _ (List.mem_append_left _ hmem))
      exact .decimal (hsigns _ hsign hnone) hdigits hvalue hc
  | hexadecimal hmark hsign hdigits hvalue hc =>
      have hnone := fun hmem =>
        hplus (List.mem_cons_of_mem _ (List.mem_cons_of_mem _ (List.mem_append_left _ hmem)))
      exact .hexadecimal hmark (hsigns _ hsign hnone) hdigits hvalue hc

/-- A text without references is passed over as it is. -/
theorem singlePass_self {signs : List Text} {t : Text}
    (h : ∀ body c, IsReference signs body c → ¬ '&' :: (body ++ [';']) <:+: t) :
    SinglePass signs t t := by
  induction t with
  | nil => exact .done
  | cons c t ih =>
      have hmore := ih fun body c hbody hholds =>
        h body c hbody (hholds.trans (List.suffix_cons ..).isInfix)
      by_cases hc : c = '&'
      · subst hc
        refine .ampersand ?_ hmore
        rintro ⟨body, c, rest, rfl, hbody⟩
        exact h body c hbody (reference_within body rest)
      · exact .plain hc hmore

/-- Decoding is one pass over the text in which a number may have a plus sign before its
digits.  Where no reference has one, it is the pass in which none may have one.  A text that
holds no reference stays as it is. -/
theorem references_replaced_in_one_pass (t : Text) :
    (∀ u, SinglePass optionalPlus t u ↔ u = decode t) ∧
      ((∀ body c, IsReference optionalPlus body c → '&' :: (body ++ [';']) <:+: t → '+' ∉ body) →
        ∀ u, SinglePass noSign t u ↔ u = decode t) ∧
      ((∀ body c, IsReference optionalPlus body c → ¬ '&' :: (body ++ [';']) <:+: t) →
        decode t = t) := by
  refine ⟨fun u => singlePass_iff, fun hplain u => ?_, fun hnone => ?_⟩
  · have hsame : ∀ body c, '&' :: (body ++ [';']) <:+: t →
        (IsReference noSign body c ↔ IsReference optionalPlus body c) := fun body c hholds =>
      ⟨fun h => ⟨h.1.toOptionalPlus, h.2⟩, fun h => ⟨h.1.toNoSign (hplain body c h hholds), h.2⟩⟩
    rw [← singlePass_iff]
    exact ⟨fun h => h.congr hsame, fun h => h.congr fun body c hholds => (hsame body c hholds).symm⟩
  · exact (singlePass_self hnone).eq_decode.symm

/-- An ampersand alone, a name that is none, a surrogate and a reference that is not decoded
twice. -/
theorem malformed_references_kept :
    (∀ body c, IsReference optionalPlus body c →
      '&' :: (body ++ [';']) <:+: "a & &b; &#xD800; &amp;lt;".toList → '+' ∉ body) ∧
    SinglePass noSign "a & &b; &#xD800; &amp;lt;".toList "a & &b; &#xD800; &lt;".toList := by
  have hplain : ∀ body c, IsReference optionalPlus body c →
      '&' :: (body ++ [';']) <:+: "a & &b; &#xD800; &amp;lt;".toList → '+' ∉ body := by
    intro body c _ hholds hplus
    have hmem := hholds.subset (List.mem_cons_of_mem _ (List.mem_append_left _ hplus))
    exact absurd hmem (by decide)
  exact ⟨hplain, ((references_replaced_in_one_pass _).2.1 hplain _).mpr (by decide)⟩

/-- With a plus sign before its digits a number is no reference, but it is decoded. -/
theorem signed_number_decoded :
    (∀ body c, IsReference noSign body c →
      ¬ '&' :: (body ++ [';']) <:+: ['&', '#', '+', '6', '5', ';']) ∧
    SinglePass noSign ['&', '#', '+', '6', '5', ';'] ['&', '#', '+', '6', '5', ';'] ∧
    decode ['&', '#', '+', '6', '5', ';'] = ['A'] := by
  have hnone : ∀ body c, IsReference noSign body c →
      ¬ '&' :: (body ++ [';']) <:+: ['&', '#', '+', '6', '5', ';'] := by
    rintro body c ⟨hdenotes, -⟩ hholds
    have hplus : '+' ∉ body := hdenotes.not_mem (by decide) (by decide) (by decide) (by decide)
    rcases List.infix_cons_iff.mp hholds with hprefix | hlater
    · -- The body would have to begin with the number sign and the plus sign.
      have hbody := (List.cons_prefix_cons.mp hprefix).2
      rcases body with _ | ⟨_, _ | ⟨d, body⟩⟩
      · exact absurd hbody (by decide)
      · exact absurd (List.cons_prefix_cons.mp hbody).2 (by decide)
      · have hd := (List.cons_prefix_cons.mp (List.cons_prefix_cons.mp hbody).2).1
        exact hplus (by simp [hd])
    · exact absurd (hlater.subset List.mem_cons_self) (by decide)
  exact ⟨hnone, singlePass_self hnone, by decide⟩

end Component.Markup.Reference
