import Mathlib.Tactic.Lemma
import Requirements.Proofs.Version.Literal

/-!
# The texts of ranges

A range is written as one version or as a hyphen with bounds around it, each of which may be
missing, and all of this may stand behind an exclamation mark. No version literal holds a hyphen or
an exclamation mark, so the first hyphen of a text is the one between the bounds. Since a range
whose bounds are equal is printed as a single version, what is read from the text of a range is not
always that range, but a range that is equal to it.
-/

namespace Requirements

namespace Version

open Text

namespace Literal

/-- The characters of a bound, of which there are none if it is missing. -/
def charsOf (bound : Option Literal) : List Char :=
  (bound.map chars).getD []

/-- The version of a literal can be written. -/
lemma isLiteral_version (l : Literal) : l.version.IsLiteral :=
  (isLiteral_of_literal? l.literal?_chars).1

/-- The version of a literal has its text. -/
lemma toList_text_version (l : Literal) : l.version.text.toList = l.chars :=
  String.toList_ofList

/-- A character of a bound is one of a literal. -/
lemma exists_of_mem_charsOf {bound : Option Literal} {c : Char} (hc : c ∈ charsOf bound) :
    ∃ l : Literal, c ∈ l.chars := by
  cases bound with
  | none => simp [charsOf] at hc
  | some l => exact ⟨l, hc⟩

/-- A character that versions do not have is not in a bound. -/
lemma ne_of_mem_charsOf {bound : Option Literal} {c d : Char} (hc : c ∈ charsOf bound)
    (hd : isLiteralChar d = false) : c ≠ d := by
  obtain ⟨l, hl⟩ := exists_of_mem_charsOf hc
  exact l.ne_of_mem hl hd

end Literal

namespace Range

/-! ### Forms of ranges -/

/-- The forms in which a range is written, its negation apart: a version alone, which is `V`, or a
hyphen between bounds that may be missing, which is `V-W`, `V-`, `-W` or `-`. -/
inductive Form where
  | exact (v : Literal)
  | between (low high : Option Literal)

/-- A range as it is written: a form, with an exclamation mark in front of it or without. -/
structure Spelling where
  negated : Bool
  form : Form

namespace Form

/-- The characters of a form. -/
def chars : Form → List Char
  | exact v => v.chars
  | between low high => Literal.charsOf low ++ '-' :: Literal.charsOf high

/-- The low bound of a form. -/
def low : Form → Option Version
  | exact v => some v.version
  | between low _ => low.map Literal.version

/-- The high bound of a form. -/
def high : Form → Option Version
  | exact v => some v.version
  | between _ high => high.map Literal.version

/-- A form is made of literals and hyphens. -/
lemma of_mem_chars (f : Form) {c : Char} (hc : c ∈ f.chars) :
    c = '-' ∨ ∃ l : Literal, c ∈ l.chars := by
  cases f with
  | exact v => exact .inr ⟨v, hc⟩
  | between low high =>
    rcases List.mem_append.mp hc with hlow | hrest
    · exact .inr (Literal.exists_of_mem_charsOf hlow)
    · rcases List.mem_cons.mp hrest with hhyphen | hhigh
      · exact .inl hhyphen
      · exact .inr (Literal.exists_of_mem_charsOf hhigh)

end Form

namespace Spelling

/-- The characters of a written range. -/
def chars (s : Spelling) : List Char :=
  sign s.negated '!' ++ s.form.chars

/-- The range that is written. -/
def range (s : Spelling) : Range :=
  ⟨s.form.low, s.form.high, s.negated⟩

/-- A spelled range has no blanks. -/
lemma not_isBlank_of_mem (s : Spelling) {c : Char} (hc : c ∈ s.chars) : isBlank c = false := by
  rcases List.mem_append.mp hc with hmark | hform
  · obtain rfl := eq_of_mem_sign hmark
    decide
  · rcases s.form.of_mem_chars hform with rfl | ⟨l, hl⟩
    · decide
    · exact l.not_isBlank_of_mem hl

end Spelling

/-! ### Ranges that are read -/

/-- A bound is read from its characters. -/
lemma bound?_charsOf (bound : Option Literal) :
    bound? (Literal.charsOf bound) = some (bound.map Literal.version) := by
  cases bound with
  | none => rfl
  | some l =>
    have hread := bound?_text l.isLiteral_version
    rwa [l.toList_text_version] at hread

/-- What is read as a bound is a literal or nothing. -/
lemma exists_of_bound? {cs : List Char} {bound : Option Version} (h : bound? cs = some bound) :
    ∃ l : Option Literal, Literal.charsOf l = cs ∧ l.map Literal.version = bound := by
  cases cs with
  | nil => exact ⟨none, rfl, Option.some.inj h⟩
  | cons c cs =>
    obtain ⟨v, hread, rfl⟩ := Option.map_eq_some_iff.mp h
    obtain ⟨l, hl, rfl⟩ := Literal.exists_of_literal? hread
    exact ⟨some l, hl, rfl⟩

/-- A form is read as the bounds that it writes. -/
theorem bounds?_chars (f : Form) : bounds? f.chars = some (f.low, f.high) := by
  cases f with
  | exact v =>
    have hread := bounds?_text v.isLiteral_version
    rwa [v.toList_text_version] at hread
  | between low high =>
    have hlow : ∀ c ∈ Literal.charsOf low, c ≠ '-' := fun c hc =>
      Literal.ne_of_mem_charsOf hc (by decide)
    exact bounds?_hyphen hlow (bound?_charsOf low) (bound?_charsOf high)

/-- What is read as bounds is a form that writes them. -/
theorem exists_of_bounds? {cs : List Char} {bounds : Option Version × Option Version}
    (h : bounds? cs = some bounds) : ∃ f : Form, f.chars = cs ∧ (f.low, f.high) = bounds := by
  have hcut : cs.takeWhile (· != '-') ++ cs.dropWhile (· != '-') = cs :=
    List.takeWhile_append_dropWhile
  unfold bounds? at h
  split at h
  · obtain ⟨v, hread, rfl⟩ := Option.map_eq_some_iff.mp h
    obtain ⟨l, hl, rfl⟩ := Literal.exists_of_literal? hread
    exact ⟨.exact l, hl, rfl⟩
  · rename_i c high hdrop
    have hhyphen : c = '-' := by
      have hnot := List.head?_dropWhile_not (· != '-') cs
      rw [hdrop] at hnot
      simpa using hnot
    split at h
    · rename_i lowBound highBound hlow hhigh
      obtain ⟨l, hl, rfl⟩ := exists_of_bound? hlow
      obtain ⟨l', hl', rfl⟩ := exists_of_bound? hhigh
      refine ⟨.between l l', ?_, Option.some.inj h⟩
      rw [hhyphen] at hdrop
      rw [Form.chars, hl, hl', ← hdrop, hcut]
    · cases h

/-- No form starts with the sign of negation. -/
lemma Form.head?_ne (f : Form) {cs : List Char} : f.chars ≠ '!' :: cs := by
  intro heq
  have hmem : '!' ∈ f.chars := by simp [heq]
  rcases f.of_mem_chars hmem with hhyphen | ⟨l, hl⟩
  · exact absurd hhyphen (by decide)
  · exact l.ne_of_mem hl (by decide) rfl

/-- The texts that are read as ranges, blanks apart, are the written ranges. -/
theorem ofChars?_eq_some_iff {cs : List Char} {r : Range} :
    ofChars? cs = some r ↔ ∃ s : Spelling, s.chars = cs ∧ r = s.range := by
  constructor
  · intro h
    unfold ofChars? at h
    split at h
    · obtain ⟨bounds, hbounds, rfl⟩ := Option.map_eq_some_iff.mp h
      obtain ⟨f, hf, rfl⟩ := exists_of_bounds? hbounds
      exact ⟨⟨true, f⟩, by rw [← hf]; rfl, rfl⟩
    · obtain ⟨bounds, hbounds, rfl⟩ := Option.map_eq_some_iff.mp h
      obtain ⟨f, hf, rfl⟩ := exists_of_bounds? hbounds
      exact ⟨⟨false, f⟩, hf, rfl⟩
  · rintro ⟨⟨negated, f⟩, rfl, rfl⟩
    cases negated with
    | true =>
      have hchars : Spelling.chars ⟨true, f⟩ = '!' :: f.chars := rfl
      rw [hchars, ofChars?, bounds?_chars]
      rfl
    | false =>
      have hchars : Spelling.chars ⟨false, f⟩ = f.chars := rfl
      rw [hchars]
      unfold ofChars?
      split
      · rename_i heq
        exact absurd heq f.head?_ne
      · rw [bounds?_chars]
        rfl

/-- A text is a range exactly if the reader finds one. -/
lemma parse_eq_ok_iff_ofText? {t : String} {r : Range} :
    Range.parse t = .ok r ↔ Range.ofText? t = some r := by
  unfold Range.parse
  split
  · rename_i w hw
    rw [hw, Except.ok.injEq, Option.some.injEq]
  · rename_i hnone
    rw [hnone]
    simp

/-- The texts that are read as ranges are the written ranges between blanks. -/
theorem parse_eq_ok_iff {t : String} {r : Range} :
    Range.parse t = .ok r ↔ ∃ s : Spelling, BetweenBlanks s.chars t.toList ∧ r = s.range := by
  rw [parse_eq_ok_iff_ofText?, ofText?, ofChars?_eq_some_iff]
  refine exists_congr fun s => and_congr_left fun _ => ?_
  rw [eq_comm]
  exact trimBlanks_eq_iff fun c hc => s.not_isBlank_of_mem hc

/-! ### Equal ranges -/

/-- Bounds are equal if both are missing or both are there and equal as versions. -/
def sameBound : Option Version → Option Version → Bool
  | some v, some w => v.same w
  | none, none => true
  | _, _ => false

/-- Ranges are equal if their bounds are and if both are negated or neither is. -/
def same (r r' : Range) : Bool :=
  sameBound r.low r'.low && sameBound r.high r'.high && r.negated == r'.negated

/-- A bound is the same as itself. -/
@[simp] lemma sameBound_self (bound : Option Version) : sameBound bound bound = true := by
  cases bound with
  | none => rfl
  | some v => exact same_self v

/-- A range is the same as itself. -/
@[simp] lemma same_self (r : Range) : r.same r = true := by
  simp [same]

/-- The respelled range is equal to the range. -/
theorem same_respell (r : Range) : r.respell.same r = true := by
  rcases r.respell_cases with h | ⟨low, high, hsame, hr, h⟩
  · rw [h, same_self]
  · rw [h, hr]
    simp [same, sameBound, hsame]

/-- The text of a range that was read is read as the range, respelled. -/
theorem IsLiteral.parse_text {r : Range} (h : r.IsLiteral) :
    Range.parse r.toText = .ok r.respell := by
  have hblank : ∀ c ∈ r.toText.toList, isBlank c = false := by
    intro c hc
    rcases h.of_mem_toText hc with hchar | rfl | rfl
    · exact not_isBlank_of_isLiteralChar hchar
    · decide
    · decide
  rw [parse_eq_ok_iff_ofText?, ofText?, trimBlanks_eq_self hblank, h.ofChars?_toText]

/-- A text is read as a range exactly if it is one of the five forms between blanks, after an
optional exclamation mark, and then the form says what the bounds are. What is read from the text of
a range that was read is equal to that range. -/
theorem parse_forms (t : String) (r : Range) :
    (Range.parse t = .ok r ↔
      ∃ s : Spelling, BetweenBlanks s.chars t.toList ∧ r = s.range) ∧
      (Range.parse t = .ok r → ∃ r', Range.parse r.toText = .ok r' ∧ r'.same r = true) := by
  refine ⟨parse_eq_ok_iff, fun hread => ?_⟩
  have hliteral : r.IsLiteral := isLiteral_of_ofChars? (parse_eq_ok_iff_ofText?.mp hread)
  exact ⟨r.respell, hliteral.parse_text, r.same_respell⟩

/-- A range with equal bounds of different spelling is read from its text with the low bound on both
sides. -/
theorem parse_forms_of_equal_bounds :
    let v : Version := ⟨[.number 1, .number 0], "1.0"⟩
    let w : Version := ⟨[.number 1], "1"⟩
    let r : Range := ⟨some v, some w, true⟩
    Range.parse " !1.0-1\n" = .ok r ∧ r.toText = "!1.0" ∧
      ∃ r', Range.parse r.toText = .ok r' ∧ r'.same r = true := by
  intro v w r
  have hread : Range.parse " !1.0-1\n" = .ok r := by decide
  exact ⟨hread, by decide, (parse_forms " !1.0-1\n" r).2 hread⟩
end Range

end Version

end Requirements
