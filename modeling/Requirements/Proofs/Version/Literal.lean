import Mathlib.Tactic.Lemma
import Requirements.Proofs.Text.Blank
import Requirements.Proofs.Version.Reading

/-!
# The texts of versions

A version literal is put together from groups of digits and a suffix, and the reader takes exactly
these texts apart again. Since a suffix starts with a letter or an underscore, the digits of the
last group end where the suffix starts, so nothing that is written can be read in another way: the
decimal digits of numbers of any size are read back as these numbers, and a version that was read
is read again from its own text.
-/

namespace Requirements

namespace Version

open Text

/-! ### Literals and their parts -/

/-- A group of digits. -/
structure Digits where
  chars : List Char
  ne_nil : chars ≠ []
  isDigit : ∀ c ∈ chars, isDigit c = true

/-- A suffix: a letter or an underscore, then letters, digits and underscores. -/
structure Suffix where
  first : Char
  rest : List Char
  isNameStart : isNameStart first = true
  isSuffixChar : ∀ c ∈ rest, isSuffixChar c = true

/-- The parts of a version literal. -/
structure Literal where
  first : Digits
  more : List Digits
  suffix : Option Suffix

namespace Digits

/-- The number that the digits write. -/
def value (d : Digits) : Nat :=
  Nat.ofDigitChars 10 d.chars 0

/-- The groups after the first one, each behind a point. -/
def pointed (more : List Digits) : List Char :=
  more.flatMap fun d => '.' :: d.chars

/-- A digit of the standard library is a digit of versions. -/
lemma isDigit_of_core {c : Char} (h : c.isDigit = true) : Text.isDigit c = true := by
  rw [Char.isDigit, Bool.and_eq_true] at h
  rw [Text.isDigit, Bool.and_eq_true]
  exact h

/-- The decimal digits of a number. -/
def ofNat (n : Nat) : Digits where
  chars := Nat.toDigits 10 n
  ne_nil := Nat.toDigits_ne_nil
  isDigit := fun _ hc => isDigit_of_core (Nat.isDigit_of_mem_toDigits (by omega) (by omega) hc)

/-- Digits have no point among them. -/
lemma ne_point_of_mem (d : Digits) {c : Char} (hc : c ∈ d.chars) : c ≠ '.' := by
  rintro rfl
  exact absurd (d.isDigit '.' hc) (by decide)

/-- The digits of a number have its value. -/
@[simp] lemma value_ofNat (n : Nat) : (ofNat n).value = n :=
  Nat.ofDigitChars_toDigits (by omega) (by omega)

/-- A number is written in its digits. -/
lemma toList_toString (n : Nat) : (toString n).toList = (ofNat n).chars := by
  rw [Nat.toString_eq_ofList_toDigits, String.toList_ofList]
  rfl

end Digits

namespace Suffix

/-- The characters of a suffix. -/
def chars (s : Suffix) : List Char :=
  s.first :: s.rest

/-- The text of a suffix. -/
def text (s : Suffix) : String :=
  String.ofList s.chars

/-- The characters of a suffix, if there is one. -/
def charsOf (suffix : Option Suffix) : List Char :=
  (suffix.map chars).getD []

/-- The component that a suffix makes, if there is one. -/
def componentsOf (suffix : Option Suffix) : List Component :=
  (suffix.map fun s => .suffix s.text).toList

/-- A suffix continues neither the digits in front of it nor the groups of digits. -/
theorem head?_charsOf {suffix : Option Suffix} {c : Char} (hc : (charsOf suffix).head? = some c) :
    Text.isDigit c = false ∧ c ≠ '.' := by
  cases suffix with
  | none => cases hc
  | some s =>
    obtain rfl : s.first = c := Option.some.inj hc
    refine ⟨not_isDigit_of_isNameStart s.isNameStart, fun hpoint => ?_⟩
    have hstart := s.isNameStart
    rw [hpoint] at hstart
    exact absurd hstart (by decide)

end Suffix

namespace Literal

/-- The characters of a literal. -/
def chars (l : Literal) : List Char :=
  l.first.chars ++ Digits.pointed l.more ++ Suffix.charsOf l.suffix

/-- The components that a literal writes. -/
def components (l : Literal) : List Component :=
  (l.first :: l.more).map (fun d => .number d.value) ++ Suffix.componentsOf l.suffix

/-- The version that a literal writes. -/
def version (l : Literal) : Version :=
  ⟨l.components, String.ofList l.chars⟩

end Literal

/-! ### Literals that are read -/

/-- No character of versions is a blank. -/
lemma not_isBlank_of_isLiteralChar {c : Char} (h : isLiteralChar c = true) :
    isBlank c = false := by
  rw [isLiteralChar, Bool.or_eq_true] at h
  rcases h with hsuffix | hpoint
  · exact not_isBlank_of_isSuffixChar hsuffix
  · obtain rfl := eq_of_beq hpoint
    decide

/-- A number grows by the digits read. -/
lemma numbersFrom_digits (n : Nat) {ds : List Char} (hds : ∀ d ∈ ds, isDigit d = true)
    (rest : List Char) :
    numbersFrom n (ds ++ rest) = numbersFrom (Nat.ofDigitChars 10 ds n) rest := by
  induction ds generalizing n with
  | nil => rfl
  | cons d ds ih =>
    have hd := hds d List.mem_cons_self
    have hrest := ih (10 * n + digitValue d) fun e he => hds e (List.mem_cons_of_mem d he)
    rw [List.cons_append, numbersFrom_digit n (ds ++ rest) hd, hrest, Nat.ofDigitChars_cons]
    rfl

/-- The value of a group whose first digit has been read. -/
theorem Digits.value_eq {d : Digits} {c : Char} {cs : List Char} (h : d.chars = c :: cs) :
    d.value = Nat.ofDigitChars 10 cs (digitValue c) := by
  rw [value, h, Nat.ofDigitChars_cons, Nat.mul_zero, Nat.zero_add]
  rfl

/-- Digits start with a digit and go on with digits. -/
lemma Digits.exists_cons (d : Digits) : ∃ c cs, d.chars = c :: cs ∧ Text.isDigit c = true ∧
    ∀ e ∈ cs, Text.isDigit e = true := by
  obtain ⟨c, cs, hcs⟩ := List.exists_cons_of_ne_nil d.ne_nil
  have hdigits := d.isDigit
  rw [hcs] at hdigits
  exact ⟨c, cs, hcs, hdigits c List.mem_cons_self,
    fun e he => hdigits e (List.mem_cons_of_mem c he)⟩

/-- Groups of digits are read to their end. -/
theorem numbersFrom_pointed (n : Nat) (more : List Digits) {rest : List Char}
    (hrest : ∀ c, rest.head? = some c → isDigit c = false ∧ c ≠ '.') :
    numbersFrom n (Digits.pointed more ++ rest) = (n :: more.map Digits.value, rest) := by
  induction more generalizing n with
  | nil =>
    refine numbersFrom_of_ends n (fun c hc => (hrest c hc).1) ?_
    rintro d ds hds
    exact absurd rfl (hrest '.' (by simpa [Digits.pointed] using congrArg List.head? hds)).2
  | cons d more ih =>
    obtain ⟨c, cs, hcs, hc, hdigits⟩ := d.exists_cons
    have htext : Digits.pointed (d :: more) ++ rest =
        '.' :: c :: (cs ++ (Digits.pointed more ++ rest)) := by
      simp [Digits.pointed, hcs]
    rw [htext, numbersFrom_point n _ hc, numbersFrom_digits _ hdigits, ih, List.map_cons,
      Digits.value_eq hcs]

/-- What is read as numbers is groups of digits, the first of them begun before. -/
theorem exists_pointed (n : Nat) (cs : List Char) :
    ∃ (ds : List Char) (more : List Digits), (∀ d ∈ ds, isDigit d = true) ∧
      cs = ds ++ Digits.pointed more ++ (numbersFrom n cs).2 ∧
      (numbersFrom n cs).1 = Nat.ofDigitChars 10 ds n :: more.map Digits.value := by
  fun_induction numbersFrom n cs with
  | case1 n => exact ⟨[], [], by simp, rfl, rfl⟩
  | case2 n d cs hd more left hmore ih =>
    rw [hmore] at ih
    obtain ⟨ds, groups, hds, hcs, hvalues⟩ := ih
    dsimp only at hcs hvalues
    have hdigits : ∀ e ∈ d :: ds, isDigit e = true := List.forall_mem_cons.mpr ⟨hd, hds⟩
    let group : Digits := ⟨d :: ds, List.cons_ne_nil d ds, hdigits⟩
    have hgroup : group.value = Nat.ofDigitChars 10 ds (digitValue d) := Digits.value_eq rfl
    refine ⟨[], group :: groups, by simp, ?_, ?_⟩
    · rw [hcs]
      simp [Digits.pointed, group]
    · rw [hvalues, List.map_cons, hgroup]
      rfl
  | case3 n d cs hd => exact ⟨[], [], by simp, rfl, rfl⟩
  | case4 n c cs hc hdigit ih =>
    obtain ⟨ds, groups, hds, hcs, hvalues⟩ := ih
    refine ⟨c :: ds, groups, List.forall_mem_cons.mpr ⟨hdigit, hds⟩, ?_, ?_⟩
    · rw [List.cons_append, List.cons_append, ← hcs]
    · rw [hvalues, Nat.ofDigitChars_cons]
      rfl
  | case5 n c cs hc hdigit => exact ⟨[], [], by simp, rfl, rfl⟩

/-- A suffix that is written is read, and nothing stays behind. -/
lemma suffixOf_charsOf (suffix : Option Suffix) :
    suffixOf (Suffix.charsOf suffix) = (Suffix.componentsOf suffix, []) := by
  cases suffix with
  | none => rfl
  | some s =>
    have htake : s.rest.takeWhile isSuffixChar = s.rest :=
      List.takeWhile_eq_self_iff.mpr s.isSuffixChar
    have hdrop : s.rest.dropWhile isSuffixChar = [] :=
      List.dropWhile_eq_nil_iff.mpr s.isSuffixChar
    simp [Suffix.charsOf, Suffix.componentsOf, Suffix.chars, Suffix.text, suffixOf, s.isNameStart,
      htake, hdrop]

/-- A text that is read as a suffix to its end is one, or is empty. -/
theorem exists_charsOf {cs : List Char} (h : (suffixOf cs).2 = []) :
    ∃ suffix, cs = Suffix.charsOf suffix ∧ (suffixOf cs).1 = Suffix.componentsOf suffix := by
  cases cs with
  | nil => exact ⟨none, rfl, rfl⟩
  | cons c cs =>
    by_cases hstart : isNameStart c = true
    · have hdrop : cs.dropWhile isSuffixChar = [] := by simpa [suffixOf, hstart] using h
      have hchars := List.dropWhile_eq_nil_iff.mp hdrop
      have htake : cs.takeWhile isSuffixChar = cs := List.takeWhile_eq_self_iff.mpr hchars
      refine ⟨some ⟨c, cs, hstart, hchars⟩, rfl, ?_⟩
      simp [suffixOf, hstart, htake, Suffix.componentsOf, Suffix.text, Suffix.chars]
    · simp [suffixOf, hstart] at h

namespace Literal

/-- A literal starts with a digit. -/
lemma exists_cons (l : Literal) : ∃ c cs, l.chars = c :: cs ∧ isDigit c = true := by
  obtain ⟨c, cs, hcs, hc, -⟩ := l.first.exists_cons
  exact ⟨c, cs ++ Digits.pointed l.more ++ Suffix.charsOf l.suffix, by simp [chars, hcs], hc⟩

/-- A literal is not empty. -/
lemma chars_ne_nil (l : Literal) : l.chars ≠ [] := by
  obtain ⟨c, cs, hcs, -⟩ := l.exists_cons
  rw [hcs]
  exact List.cons_ne_nil c cs

/-- A literal is read as the version that it writes. -/
theorem literal?_chars (l : Literal) : literal? l.chars = some l.version := by
  obtain ⟨c, cs, hcs, hc, hdigits⟩ := l.first.exists_cons
  have hread : literalFrom? l.chars = some (l.components, []) := by
    have hnumbers (n : Nat) :
        numbersFrom n (Digits.pointed l.more ++ Suffix.charsOf l.suffix) =
          (n :: l.more.map Digits.value, Suffix.charsOf l.suffix) :=
      numbersFrom_pointed n l.more fun _ => Suffix.head?_charsOf
    have htext : l.chars = c :: (cs ++ (Digits.pointed l.more ++ Suffix.charsOf l.suffix)) := by
      simp [chars, hcs]
    rw [htext, literalFrom?_cons _ hc, numbersFrom_digits _ hdigits, hnumbers, suffixOf_charsOf]
    simp [components, Digits.value_eq hcs]
  rw [literal?, hread]
  rfl

/-- What is read as a version is a literal that writes it. -/
theorem exists_of_literal? {cs : List Char} {v : Version} (h : literal? cs = some v) :
    ∃ l : Literal, l.chars = cs ∧ l.version = v := by
  obtain ⟨hliteral, rfl⟩ := isLiteral_of_literal? h
  obtain ⟨c, ds, htext, hc⟩ := hliteral.exists_cons
  rw [IsLiteral, htext, literalFrom?_cons ds hc] at hliteral
  obtain ⟨hcomponents, hleft⟩ := Prod.mk.inj (Option.some.inj hliteral)
  -- The first digit has been taken by the reader, so the first group is begun with it.
  obtain ⟨digits, more, hdigits, hds, hvalues⟩ := exists_pointed (digitValue c) ds
  obtain ⟨suffix, hchars, hsuffix⟩ := exists_charsOf hleft
  have hfirst : ∀ d ∈ c :: digits, isDigit d = true := List.forall_mem_cons.mpr ⟨hc, hdigits⟩
  let first : Digits := ⟨c :: digits, List.cons_ne_nil c digits, hfirst⟩
  have hvalue : first.value = Nat.ofDigitChars 10 digits (digitValue c) := Digits.value_eq rfl
  let l : Literal := ⟨first, more, suffix⟩
  have hl : l.chars = v.text.toList := by
    rw [htext, hds, hchars]
    rfl
  have hlcomponents : l.components = v.components := by
    rw [← hcomponents, hsuffix, hvalues, ← hvalue]
    simp [components, l]
  refine ⟨l, hl, ?_⟩
  rw [version, hl, hlcomponents, String.ofList_toList]

/-- A literal has the characters of versions only. -/
lemma isLiteralChar_of_mem (l : Literal) {c : Char} (hc : c ∈ l.chars) :
    isLiteralChar c = true := by
  have hliteral := (isLiteral_of_literal? l.literal?_chars).1
  refine hliteral.isLiteralChar_of_mem ?_
  rwa [version, String.toList_ofList]

/-- A character that versions do not have is not in a literal. -/
lemma ne_of_mem (l : Literal) {c d : Char} (hc : c ∈ l.chars) (hd : isLiteralChar d = false) :
    c ≠ d := by
  rintro rfl
  rw [l.isLiteralChar_of_mem hc] at hd
  cases hd

/-- A literal has no blanks. -/
lemma not_isBlank_of_mem (l : Literal) {c : Char} (hc : c ∈ l.chars) : isBlank c = false :=
  not_isBlank_of_isLiteralChar (l.isLiteralChar_of_mem hc)

/-- The literal that writes numbers in decimal digits, and a suffix behind them. -/
def ofNumbers (first : Nat) (more : List Nat) (suffix : Option Suffix) : Literal :=
  ⟨.ofNat first, more.map .ofNat, suffix⟩

/-- A literal of numbers and a suffix has these components. -/
lemma components_ofNumbers (first : Nat) (more : List Nat) (suffix : Option Suffix) :
    (ofNumbers first more suffix).components =
      (first :: more).map .number ++ Suffix.componentsOf suffix := by
  simp [components, ofNumbers, Function.comp_def]

/-- The decimal digits of numbers, with points between them. -/
theorem intercalate_toString (first : Nat) (more : List Nat) :
    (".".intercalate ((first :: more).map toString)).toList =
      (Digits.ofNat first).chars ++ Digits.pointed (more.map .ofNat) := by
  induction more generalizing first with
  | nil =>
    rw [List.map_singleton, String.intercalate_singleton, Digits.toList_toString]
    simp [Digits.pointed]
  | cons second more ih =>
    have hrest := ih second
    rw [List.map_cons] at hrest
    rw [List.map_cons, List.map_cons, String.intercalate_cons_cons, String.toList_append, hrest,
      String.toList_append, Digits.toList_toString]
    simp [Digits.pointed]

/-- The numbers among components are those in front of the suffix. -/
lemma filterMap_number? (numbers : List Nat) (suffix : Option Suffix) :
    (numbers.map Component.number ++ Suffix.componentsOf suffix).filterMap Component.number? =
      numbers := by
  have hnumbers : (numbers.map Component.number).filterMap Component.number? = numbers := by
    rw [List.filterMap_map]
    exact List.filterMap_some
  have hsuffix : (Suffix.componentsOf suffix).filterMap Component.number? = [] := by
    cases suffix <;> rfl
  rw [List.filterMap_append, hnumbers, hsuffix, List.append_nil]

/-- The suffix among components is the one behind the numbers. -/
lemma filterMap_suffix? (numbers : List Nat) (suffix : Option Suffix) :
    (numbers.map Component.number ++ Suffix.componentsOf suffix).filterMap Component.suffix? =
      (suffix.map Suffix.text).toList := by
  have hnumbers : (numbers.map Component.number).filterMap Component.suffix? = [] :=
    List.filterMap_eq_nil_iff.mpr fun c hc => by
      obtain ⟨n, -, rfl⟩ := List.mem_map.mp hc
      rfl
  have hsuffix : (Suffix.componentsOf suffix).filterMap Component.suffix? =
      (suffix.map Suffix.text).toList := by
    cases suffix <;> rfl
  rw [List.filterMap_append, hnumbers, hsuffix, List.nil_append]

/-- What is written for a version without a text is the literal of its numbers and its suffix. -/
theorem toList_textOfComponents (first : Nat) (more : List Nat) (suffix : Option Suffix) :
    (textOfComponents (ofNumbers first more suffix).components).toList =
      (ofNumbers first more suffix).chars := by
  have hsuffix : ("".intercalate (suffix.map Suffix.text).toList).toList =
      Suffix.charsOf suffix := by
    cases suffix with
    | none => simp [Suffix.charsOf]
    | some s => simp [Suffix.charsOf, Suffix.text]
  rw [textOfComponents, components_ofNumbers, filterMap_number?, filterMap_suffix?,
    String.toList_append, intercalate_toString, hsuffix, chars, ofNumbers]

end Literal

/-! ### Versions that are read -/

/-- The character `c`, if it is there. -/
def sign (present : Bool) (c : Char) : List Char :=
  if present then [c] else []

@[simp] lemma sign_true (c : Char) : sign true c = [c] := rfl

@[simp] lemma sign_false (c : Char) : sign false c = [] := rfl

/-- A sign that is written is the sign asked for. -/
lemma eq_of_mem_sign {present : Bool} {c d : Char} (h : d ∈ sign present c) : d = c := by
  cases present with
  | true => exact List.mem_singleton.mp h
  | false => cases h

/-- A version as it is written: a literal, with a `v` in front of it or without. -/
structure Spelling where
  marked : Bool
  literal : Literal

namespace Spelling

/-- The characters of a written version. -/
def chars (s : Spelling) : List Char :=
  sign s.marked 'v' ++ s.literal.chars

/-- The version that is written. Its text keeps the `v`. -/
def version (s : Spelling) : Version :=
  ⟨s.literal.components, String.ofList s.chars⟩

/-- A spelling has no blanks. -/
lemma not_isBlank_of_mem (s : Spelling) {c : Char} (hc : c ∈ s.chars) : isBlank c = false := by
  rcases List.mem_append.mp hc with hmark | hliteral
  · obtain rfl := eq_of_mem_sign hmark
    decide
  · exact s.literal.not_isBlank_of_mem hliteral

/-- The mark in front of a spelling is dropped. -/
lemma dropMark_chars (s : Spelling) : dropMark s.chars = s.literal.chars := by
  obtain ⟨marked, l⟩ := s
  cases marked with
  | true => rfl
  | false =>
    obtain ⟨c, cs, hcs, hc⟩ := l.exists_cons
    have hne : c ≠ 'v' := by
      rintro rfl
      exact absurd hc (by decide)
    have hchars : chars ⟨false, l⟩ = c :: cs := hcs
    rw [hchars, hcs]
    unfold dropMark
    split
    · rename_i heq
      exact absurd (List.cons.inj heq).1 hne
    · rfl

/-- A text that is a literal without its mark is a spelling. -/
lemma exists_of_dropMark {cs : List Char} {l : Literal} (h : dropMark cs = l.chars) :
    ∃ s : Spelling, s.literal = l ∧ s.chars = cs := by
  unfold dropMark at h
  split at h
  · exact ⟨⟨true, l⟩, rfl, by rw [h]; rfl⟩
  · exact ⟨⟨false, l⟩, rfl, h.symm⟩

/-- The version of a spelling prints as it is spelled. -/
lemma toText_version (s : Spelling) : s.version.toText = String.ofList s.chars := by
  have htext : s.version.text ≠ "" := by
    intro hempty
    have hchars : s.chars = [] := by simpa [version] using congrArg String.toList hempty
    exact s.literal.chars_ne_nil (List.append_eq_nil_iff.mp hchars).2
  rw [toText, if_neg htext]
  rfl

end Spelling

/-- A text is a version exactly if the reader finds one. -/
lemma parse_eq_ok_iff_ofText? {t : String} {v : Version} :
    parse t = .ok v ↔ ofText? t = some v := by
  unfold parse
  split
  · rename_i w hw
    rw [hw, Except.ok.injEq, Option.some.injEq]
  · rename_i hnone
    rw [hnone]
    simp

/-- The texts that are read as versions, blanks apart, are the written versions. -/
theorem ofText?_eq_some_iff {t : String} {v : Version} :
    ofText? t = some v ↔ ∃ s : Spelling, s.chars = trimBlanks t.toList ∧ v = s.version := by
  rw [ofText?, Option.map_eq_some_iff]
  constructor
  · rintro ⟨w, hread, rfl⟩
    obtain ⟨l, hl, rfl⟩ := Literal.exists_of_literal? hread
    obtain ⟨s, rfl, hs⟩ := Spelling.exists_of_dropMark hl.symm
    refine ⟨s, hs, ?_⟩
    rw [Spelling.version, hs]
    rfl
  · rintro ⟨s, hs, rfl⟩
    refine ⟨s.literal.version, ?_, ?_⟩
    · rw [← hs, s.dropMark_chars, Literal.literal?_chars]
    · rw [← hs]
      rfl

/-- The texts that are read as versions are the written versions between blanks. -/
theorem parse_eq_ok_iff {t : String} {v : Version} :
    parse t = .ok v ↔ ∃ s : Spelling, BetweenBlanks s.chars t.toList ∧ v = s.version := by
  rw [parse_eq_ok_iff_ofText?, ofText?_eq_some_iff]
  refine exists_congr fun s => and_congr_left fun _ => ?_
  rw [eq_comm]
  exact trimBlanks_eq_iff fun c hc => s.not_isBlank_of_mem hc

/-- A written version is read from its characters. -/
theorem Spelling.parse_chars (s : Spelling) : parse (String.ofList s.chars) = .ok s.version :=
  parse_eq_ok_iff.mpr ⟨s, ⟨[], [], by simp, by simp, by simp⟩, rfl⟩

/-- A text is read as a version exactly if it is a literal between blanks, after an optional `v`,
and then the literal says what its components are. A version that is made of numbers of any size and
at most one suffix, without a text, is written so that the same components are read back, and a
version that was read is read again from what is written for it. -/
theorem parse_toText (t : String) (numbers : List Nat) (suffix : Option Suffix) (v : Version) :
    (parse t = .ok v ↔ ∃ s : Spelling, BetweenBlanks s.chars t.toList ∧ v = s.version) ∧
      (numbers ≠ [] →
        let built : Version := ⟨numbers.map .number ++ Suffix.componentsOf suffix, ""⟩
        ∃ w, parse built.toText = .ok w ∧ w.components = built.components) ∧
      (parse t = .ok v → parse v.toText = .ok v) := by
  refine ⟨parse_eq_ok_iff, fun hnumbers => ?_, fun hread => ?_⟩
  · obtain ⟨first, more, rfl⟩ := List.exists_cons_of_ne_nil hnumbers
    intro built
    let l := Literal.ofNumbers first more suffix
    have hcomponents : built.components = l.components :=
      (Literal.components_ofNumbers first more suffix).symm
    have htext : built.toText = String.ofList l.chars := by
      have hbuilt : built.toText = textOfComponents built.components := rfl
      rw [hbuilt, hcomponents, ← Literal.toList_textOfComponents, String.ofList_toList]
    refine ⟨Spelling.version ⟨false, l⟩, ?_, hcomponents.symm⟩
    rw [htext]
    exact Spelling.parse_chars ⟨false, l⟩
  · obtain ⟨s, -, rfl⟩ := parse_eq_ok_iff.mp hread
    rw [s.toText_version]
    exact s.parse_chars

/-- The text `v1.020b2` between blanks is read with the value of its digits and keeps its spelling,
and a number that fits no machine word is written and read back in front of a suffix. -/
theorem parse_toText_of_marked :
    let t := "\t v1.020b2\n"
    let v : Version := ⟨[.number 1, .number 20, .suffix "b2"], "v1.020b2"⟩
    let built : Version := ⟨[.number 18446744073709551616, .number 0, .suffix "_01"], ""⟩
    parse t = .ok v ∧ parse v.toText = .ok v ∧
      ∃ w, parse built.toText = .ok w ∧ w.components = built.components := by
  intro t v built
  have hread : parse t = .ok v := by decide
  let suffix : Suffix := ⟨'_', ['0', '1'], rfl, List.all_eq_true.mp rfl⟩
  obtain ⟨-, hbuilt, hagain⟩ := parse_toText t [18446744073709551616, 0] (some suffix) v
  exact ⟨hread, hagain hread, hbuilt (by decide)⟩

end Version

end Requirements
