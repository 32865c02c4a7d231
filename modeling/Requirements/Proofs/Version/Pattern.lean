import Mathlib.Tactic.Lemma
import Requirements.Proofs.Text.Matcher
import Requirements.Proofs.Text.Split
import Requirements.Proofs.Version.RangeForms

/-!
# Versions and ranges by patterns

Versions and ranges can also be read by patterns whose parts are tried one way after the other, and
the readers agree with that. The pattern of a range has four parts, all of them optional, and so it
also takes texts such as `1a2.3`, which it can only cut into the versions `1a` and `2.3` without a
hyphen between them; they are refused afterwards. A range that is a single version is not refused
with them, for the preferred way leaves nothing of it for a second version.
-/

namespace Requirements

namespace Version

open Text Text.Matcher

namespace Pattern

/-! ### The pattern of literals -/

/-- Digits, at least one. -/
def digits : Matcher :=
  (one isDigit).seq (one isDigit).many

/-- Groups of digits with points between them. -/
def numbers : Matcher :=
  digits.seq ((one (· == '.')).seq digits).many

/-- A suffix. -/
def suffix : Matcher :=
  (one isNameStart).seq (one isSuffixChar).many

/-- A version literal. -/
def literal : Matcher :=
  numbers.seq suffix.optional

/-- The pattern of digits takes digits. -/
lemma takes_digits : Takes digits fun t => ∃ d : Digits, d.chars = t := by
  refine ((takes_one isDigit).seq (takes_many_one isDigit)).mono ?_
  rintro t ⟨a, b, rfl, ⟨c, rfl, hc⟩, hb⟩
  exact ⟨⟨c :: b, List.cons_ne_nil c b, List.forall_mem_cons.mpr ⟨hc, hb⟩⟩, rfl⟩

/-- The pattern of further numbers takes numbers behind points. -/
lemma takes_pointed : Takes ((one (· == '.')).seq digits).many
    fun t => ∃ more : List Digits, Digits.pointed more = t := by
  refine ((takes_one (· == '.')).seq takes_digits).many ⟨[], rfl⟩ ?_
  rintro a b ⟨point, group, rfl, ⟨c, rfl, hc⟩, d, rfl⟩ ⟨more, rfl⟩
  obtain rfl := eq_of_beq hc
  exact ⟨d :: more, by simp [Digits.pointed]⟩

/-- The pattern of numbers takes a number and further ones behind points. -/
lemma takes_numbers : Takes numbers
    fun t => ∃ (first : Digits) (more : List Digits), first.chars ++ Digits.pointed more = t := by
  refine (takes_digits.seq takes_pointed).mono ?_
  rintro t ⟨a, b, rfl, ⟨first, rfl⟩, more, rfl⟩
  exact ⟨first, more, rfl⟩

/-- The pattern of suffixes takes a suffix or nothing. -/
lemma takes_suffix : Takes suffix.optional fun t => ∃ s, Suffix.charsOf s = t := by
  refine ((takes_one isNameStart).seq (takes_many_one isSuffixChar)).optional.mono ?_
  rintro t (rfl | ⟨a, b, rfl, ⟨c, rfl, hc⟩, hb⟩)
  · exact ⟨none, rfl⟩
  · exact ⟨some ⟨c, b, hc, hb⟩, rfl⟩

/-- The pattern of versions takes literals. -/
lemma takes_literal : Takes literal fun t => ∃ l : Literal, l.chars = t := by
  refine (takes_numbers.seq takes_suffix).mono ?_
  rintro t ⟨a, b, rfl, ⟨first, more, rfl⟩, s, rfl⟩
  exact ⟨⟨first, more, s⟩, rfl⟩

variable {rest : List Char}

/-- The pattern of digits prefers to take all of them. -/
lemma prefers_digits (d : Digits) (hrest : ∀ c, rest.head? = some c → isDigit c = false) :
    Prefers digits d.chars rest := by
  obtain ⟨c, cs, hcs, hc, hdigits⟩ := d.exists_cons
  rw [hcs]
  exact (prefers_one hc (cs ++ rest)).seq (prefers_many_one hdigits hrest)

/-- No digit stands at the front of groups that are still to be read. -/
theorem head?_pointed (more : List Digits)
    (hrest : ∀ c, rest.head? = some c → isDigit c = false ∧ c ≠ '.') {c : Char}
    (hc : (Digits.pointed more ++ rest).head? = some c) : isDigit c = false := by
  cases more with
  | nil => exact (hrest c hc).1
  | cons d more =>
    obtain rfl : '.' = c := Option.some.inj hc
    decide

/-- The pattern of further numbers prefers to take all of them. -/
lemma prefers_pointed (more : List Digits)
    (hrest : ∀ c, rest.head? = some c → isDigit c = false ∧ c ≠ '.') {k : Nat}
    (hk : more.length ≤ k) :
    Prefers (((one (· == '.')).seq digits).upTo k) (Digits.pointed more) rest := by
  induction more generalizing k with
  | nil =>
    have hpoint : one (· == '.') rest = [] :=
      one_eq_nil fun c hc => beq_eq_false_iff_ne.mpr (hrest c hc).2
    exact prefers_upTo_nothing (seq_eq_nil hpoint digits) k
  | cons d more ih =>
    obtain ⟨k, rfl⟩ : ∃ j, k = j + 1 := ⟨k - 1, by rw [List.length_cons] at hk; omega⟩
    have hdigits : Prefers digits d.chars (Digits.pointed more ++ rest) :=
      prefers_digits d fun c => head?_pointed more hrest
    have hpoint : Prefers (one (· == '.')) ['.'] (d.chars ++ (Digits.pointed more ++ rest)) :=
      prefers_one rfl _
    have hgroup := hpoint.seq hdigits
    have hmore := hgroup.upTo (ih (Nat.le_of_succ_le_succ hk))
    have htext : Digits.pointed (d :: more) = ['.'] ++ d.chars ++ Digits.pointed more := by
      simp [Digits.pointed]
    rwa [htext]

/-- Each number behind a point takes at least one character. -/
lemma length_le_length_pointed (more : List Digits) :
    more.length ≤ (Digits.pointed more).length := by
  induction more with
  | nil => exact Nat.zero_le _
  | cons d more ih =>
    have hlength : (Digits.pointed (d :: more)).length =
        1 + d.chars.length + (Digits.pointed more).length := by
      simp [Digits.pointed]
      omega
    rw [hlength, List.length_cons]
    omega

/-- The pattern of numbers prefers to take all of them. -/
lemma prefers_numbers (first : Digits) (more : List Digits)
    (hrest : ∀ c, rest.head? = some c → isDigit c = false ∧ c ≠ '.') :
    Prefers numbers (first.chars ++ Digits.pointed more) rest := by
  have hmore := length_le_length_pointed more
  refine (prefers_digits first fun c => head?_pointed more hrest).seq ?_
  exact prefers_pointed more hrest (by rw [List.length_append]; omega)

/-- The pattern of suffixes prefers to take the whole suffix. -/
lemma prefers_suffix (s : Option Suffix) (hrest : EndsLiteral rest) :
    Prefers suffix.optional (Suffix.charsOf s) rest := by
  cases s with
  | none =>
    have hstart : one isNameStart rest = [] := one_eq_nil fun c hc => hrest.not_isNameStart hc
    exact prefers_nothing (seq_eq_nil hstart _)
  | some s =>
    refine Prefers.optional ?_
    exact (prefers_one s.isNameStart _).seq
      (prefers_many_one s.isSuffixChar fun c hc => hrest.not_isSuffixChar hc)

/-- Neither a digit nor a point stands behind the groups of digits of a literal. -/
theorem head?_suffix (s : Option Suffix) (hrest : EndsLiteral rest) {c : Char}
    (hc : (Suffix.charsOf s ++ rest).head? = some c) : isDigit c = false ∧ c ≠ '.' := by
  cases s with
  | none => exact ⟨hrest.not_isDigit hc, hrest.ne_point hc⟩
  | some s =>
    have hstart : (Suffix.charsOf (some s)).head? = some c := hc
    exact Suffix.head?_charsOf hstart

/-- The pattern of literals takes all of a literal. -/
theorem prefers_literal (l : Literal) (hrest : EndsLiteral rest) :
    Prefers literal l.chars rest :=
  (prefers_numbers l.first l.more fun _ => head?_suffix l.suffix hrest).seq
    (prefers_suffix l.suffix hrest)

/-- The end of the text ends a version. -/
lemma endsLiteral_nil : EndsLiteral [] := by
  rintro c ⟨⟩

/-- No version is matched where no digit follows. -/
lemma literal_eq_nil (hrest : ∀ c, rest.head? = some c → isDigit c = false) :
    literal rest = [] :=
  seq_eq_nil (seq_eq_nil (seq_eq_nil (one_eq_nil hrest) _) _) _

/-- A literal that may be missing is taken if it is there. -/
theorem prefers_bound (bound : Option Literal) (hrest : EndsLiteral rest) :
    Prefers literal.optional (Literal.charsOf bound) rest := by
  cases bound with
  | none => exact prefers_nothing (literal_eq_nil fun c hc => hrest.not_isDigit hc)
  | some l => exact (prefers_literal l hrest).optional

/-- The pattern of a bound takes a literal or nothing. -/
lemma takes_bound : Takes literal.optional fun t => ∃ bound, Literal.charsOf bound = t := by
  refine takes_literal.optional.mono ?_
  rintro t (rfl | ⟨l, rfl⟩)
  · exact ⟨none, rfl⟩
  · exact ⟨some l, rfl⟩

/-- A certain character that may be missing. -/
def optionalChar (c : Char) : Matcher :=
  (one (· == c)).optional

/-- The pattern of an optional character takes the character or nothing. -/
lemma takes_optionalChar (c : Char) :
    Takes (optionalChar c) fun t => ∃ present, sign present c = t := by
  refine (takes_one (· == c)).optional.mono ?_
  rintro t (rfl | ⟨d, rfl, hd⟩)
  · exact ⟨false, rfl⟩
  · obtain rfl := eq_of_beq hd
    exact ⟨true, rfl⟩

/-- The pattern of an optional character prefers to take it. -/
lemma prefers_optionalChar {c : Char} (present : Bool)
    (hrest : ∀ d, rest.head? = some d → d ≠ c) :
    Prefers (optionalChar c) (sign present c) rest := by
  cases present with
  | true => exact (prefers_one (beq_self_eq_true c) rest).optional
  | false => exact prefers_nothing (one_eq_nil fun d hd => beq_eq_false_iff_ne.mpr (hrest d hd))

/-! ### Matches of a whole text -/

/-- The first of the ways in which a pattern with groups takes a text and leaves nothing of it. -/
def fullMatch? {Groups : Type} (ways : List (Groups × List Char)) : Option Groups :=
  (ways.find? fun way => way.2.isEmpty).map Prod.fst

/-- If the first way goes to the end of the text, it is the full match. -/
lemma fullMatch?_of_head? {Groups : Type} {ways : List (Groups × List Char)} {g : Groups}
    (h : ways.head? = some (g, [])) : fullMatch? ways = some g := by
  cases ways with
  | nil => cases h
  | cons way ways =>
    obtain rfl := Option.some.inj h
    rfl

/-- The full match is one of the ways, and goes to the end of the text. -/
lemma mem_of_fullMatch? {Groups : Type} {ways : List (Groups × List Char)} {g : Groups}
    (h : fullMatch? ways = some g) : (g, []) ∈ ways := by
  obtain ⟨way, hfind, rfl⟩ := Option.map_eq_some_iff.mp h
  have hmem := List.mem_of_find?_eq_some hfind
  have hleft : way.2 = [] := by simpa using List.find?_some hfind
  rwa [← hleft]

/-! ### The pattern of versions -/

/-- What the parts of the pattern of versions have taken. -/
structure VersionGroups where
  mark : List Char
  numbers : List Char
  suffix : List Char

namespace VersionGroups

/-- The ways to take an optional `v`, groups of digits and an optional suffix off a text. -/
def ways (cs : List Char) : List (VersionGroups × List Char) :=
  (optionalChar 'v' cs).flatMap fun mark =>
    (Pattern.numbers mark.2).flatMap fun numbers =>
      (Pattern.suffix.optional numbers.2).map fun suffix =>
        (⟨mark.1, numbers.1, suffix.1⟩, suffix.2)

/-- The components that the groups write. The numbers are what stands between the points. -/
def components (g : VersionGroups) : List Component :=
  (splitChars '.' g.numbers).map (fun part => .number (Nat.ofDigitChars 10 part 0)) ++
    if g.suffix = [] then [] else [.suffix (String.ofList g.suffix)]

/-- The groups of a written version. -/
def ofSpelling (s : Spelling) : VersionGroups :=
  ⟨sign s.marked 'v', s.literal.first.chars ++ Digits.pointed s.literal.more,
    Suffix.charsOf s.literal.suffix⟩

/-- Splitting at the points gives the groups of digits. -/
theorem splitChars_pointed (first : Digits) (more : List Digits) :
    splitChars '.' (first.chars ++ Digits.pointed more) = (first :: more).map Digits.chars := by
  have hpoint (d : Digits) : '.' ∉ d.chars := fun hc => d.ne_point_of_mem hc rfl
  induction more generalizing first with
  | nil => simp [Digits.pointed, splitChars_eq_singleton (hpoint first)]
  | cons second more ih =>
    have htext : Digits.pointed (second :: more) =
        '.' :: (second.chars ++ Digits.pointed more) := by
      simp [Digits.pointed]
    rw [htext, splitChars_append_cons (hpoint first), ih]
    rfl

/-- The groups of a spelling have the components of its literal. -/
lemma components_ofSpelling (s : Spelling) :
    (ofSpelling s).components = s.literal.components := by
  have hsuffix : (if Suffix.charsOf s.literal.suffix = [] then []
      else [Component.suffix (String.ofList (Suffix.charsOf s.literal.suffix))]) =
        Suffix.componentsOf s.literal.suffix := by
    cases s.literal.suffix <;> rfl
  rw [components, ofSpelling, splitChars_pointed, hsuffix, List.map_map]
  rfl

/-- The preferred way takes all of a written version. -/
theorem head?_ways (s : Spelling) : (ways s.chars).head? = some (ofSpelling s, []) := by
  obtain ⟨marked, l⟩ := s
  have hmark : Prefers (optionalChar 'v') (sign marked 'v') l.chars := by
    refine prefers_optionalChar marked fun c hc => ?_
    obtain ⟨d, ds, hds, hd⟩ := l.exists_cons
    obtain rfl : d = c := by simpa [hds] using hc
    rintro rfl
    exact absurd hd (by decide)
  have hnumbers : Prefers Pattern.numbers (l.first.chars ++ Digits.pointed l.more)
      (Suffix.charsOf l.suffix) :=
    prefers_numbers l.first l.more fun _ => Suffix.head?_charsOf
  have hsuffix := prefers_suffix l.suffix endsLiteral_nil
  rw [Prefers, List.append_nil] at hsuffix
  refine head?_flatMap hmark (head?_flatMap hnumbers ?_)
  rw [List.head?_map, hsuffix]
  rfl

/-- Every way to take all of a text takes a written version. -/
theorem exists_of_mem_ways {cs : List Char} {g : VersionGroups} (h : (g, []) ∈ ways cs) :
    ∃ s : Spelling, s.chars = cs ∧ ofSpelling s = g := by
  obtain ⟨mark, hmark, h⟩ := List.mem_flatMap.mp h
  obtain ⟨numbers, hnumbers, h⟩ := List.mem_flatMap.mp h
  obtain ⟨suffix, hsuffix, h⟩ := List.mem_map.mp h
  obtain ⟨rfl, hleft⟩ := Prod.mk.inj h
  -- Each part says what it takes and that the rest goes to the next one.
  obtain ⟨hcs, marked, hmark⟩ := takes_optionalChar 'v' cs mark hmark
  obtain ⟨hmore, first, more, hnumbers⟩ := takes_numbers mark.2 numbers hnumbers
  obtain ⟨hlast, o, hsuffix⟩ := takes_suffix numbers.2 suffix hsuffix
  refine ⟨⟨marked, first, more, o⟩, ?_, ?_⟩
  · rw [hcs, hmore, hlast, hleft, ← hmark, ← hnumbers, ← hsuffix, List.append_nil]
    rfl
  · rw [ofSpelling, hmark, hnumbers, hsuffix]

end VersionGroups

/-! ### The pattern of ranges -/

/-- What the parts of the pattern of ranges have taken. -/
structure RangeGroups where
  negation : List Char
  low : List Char
  hyphen : List Char
  high : List Char
deriving DecidableEq

namespace RangeGroups

/-- The ways to take an optional exclamation mark, an optional version, an optional hyphen and an
optional version off a text. -/
def ways (cs : List Char) : List (RangeGroups × List Char) :=
  (optionalChar '!' cs).flatMap fun negation =>
    (literal.optional negation.2).flatMap fun low =>
      (optionalChar '-' low.2).flatMap fun hyphen =>
        (literal.optional hyphen.2).map fun high =>
          (⟨negation.1, low.1, hyphen.1, high.1⟩, high.2)

/-- The bound that a group writes. A group that took no part in the match gives none. -/
def bound? (group : List Char) : Option (Option Version) :=
  if group = [] then some none else (ofText? (String.ofList group)).map some

/-- The range that the groups write. There has to be a version or a hyphen, and without a hyphen
there must not be a second version. -/
def range? (g : RangeGroups) : Option Range :=
  if g.low = [] ∧ g.hyphen = [] ∧ g.high = [] then none
  else
    match bound? g.low, bound? g.high with
    | some low, some high =>
      if g.hyphen = [] then
        if high.isSome then none else some ⟨low, low, g.negation ≠ []⟩
      else some ⟨low, high, g.negation ≠ []⟩
    | _, _ => none

/-- The groups that a range with the given parts is cut into. -/
def ofParts (negated : Bool) (low : Option Literal) (hyphened : Bool) (high : Option Literal) :
    RangeGroups :=
  ⟨sign negated '!', Literal.charsOf low, sign hyphened '-', Literal.charsOf high⟩

/-- The text that the groups are cut from. -/
def chars (g : RangeGroups) : List Char :=
  g.negation ++ (g.low ++ (g.hyphen ++ g.high))

/-- A bound is read from the group that holds it. -/
lemma bound?_charsOf (bound : Option Literal) :
    bound? (Literal.charsOf bound) = some (bound.map Literal.version) := by
  cases bound with
  | none => rfl
  | some l =>
    have hread : ofText? (String.ofList l.chars) = some l.version :=
      parse_eq_ok_iff_ofText?.mp (Version.Spelling.parse_chars ⟨false, l⟩)
    have hchars : Literal.charsOf (some l) = l.chars := rfl
    rw [hchars, bound?, if_neg l.chars_ne_nil, hread]
    rfl

/-- A group is empty exactly if its bound is missing. -/
lemma charsOf_eq_nil_iff {bound : Option Literal} :
    Literal.charsOf bound = [] ↔ bound = none := by
  cases bound with
  | none => simp [Literal.charsOf]
  | some l => simp [Literal.charsOf, l.chars_ne_nil]

/-- With a hyphen, the groups write the range with the bounds that are there. -/
theorem range?_hyphen (negated : Bool) (low high : Option Literal) :
    (ofParts negated low true high).range? =
      some (Range.Spelling.range ⟨negated, .between low high⟩) := by
  have hnegated : decide ((ofParts negated low true high).negation ≠ []) = negated := by
    cases negated <;> rfl
  rw [range?, hnegated]
  simp [ofParts, bound?_charsOf, Range.Spelling.range, Range.Form.low, Range.Form.high]

/-- Without a hyphen, the groups write a range only if they hold one version. -/
theorem range?_plain (negated : Bool) (low high : Option Literal) :
    (ofParts negated low false high).range? =
      match low, high with
      | some v, none => some (Range.Spelling.range ⟨negated, .exact v⟩)
      | _, _ => none := by
  have hnegated : decide ((ofParts negated low false high).negation ≠ []) = negated := by
    cases negated <;> rfl
  rw [range?, hnegated]
  cases low with
  | none =>
    cases high with
    | none => simp [ofParts, charsOf_eq_nil_iff]
    | some w => simp [ofParts, bound?_charsOf, charsOf_eq_nil_iff]
  | some v =>
    cases high with
    | none =>
      simp [ofParts, bound?_charsOf, charsOf_eq_nil_iff, Range.Spelling.range, Range.Form.low,
        Range.Form.high]
    | some w => simp [ofParts, bound?_charsOf, charsOf_eq_nil_iff]

/-- Every way to take all of a text takes the parts of a range. -/
theorem exists_of_mem_ways {cs : List Char} {g : RangeGroups} (h : (g, []) ∈ ways cs) :
    ∃ negated low hyphened high, g = ofParts negated low hyphened high ∧ cs = g.chars := by
  obtain ⟨negation, hnegation, h⟩ := List.mem_flatMap.mp h
  obtain ⟨low, hlow, h⟩ := List.mem_flatMap.mp h
  obtain ⟨hyphen, hhyphen, h⟩ := List.mem_flatMap.mp h
  obtain ⟨high, hhigh, h⟩ := List.mem_map.mp h
  obtain ⟨rfl, hleft⟩ := Prod.mk.inj h
  obtain ⟨hcs, negated, hnegation⟩ := takes_optionalChar '!' cs negation hnegation
  obtain ⟨hfirst, l, hlow⟩ := takes_bound negation.2 low hlow
  obtain ⟨hmiddle, hyphened, hhyphen⟩ := takes_optionalChar '-' low.2 hyphen hhyphen
  obtain ⟨hlast, l', hhigh⟩ := takes_bound hyphen.2 high hhigh
  refine ⟨negated, l, hyphened, l', ?_, ?_⟩
  · rw [ofParts, hnegation, hlow, hhyphen, hhigh]
  · rw [hcs, hfirst, hmiddle, hlast, hleft, List.append_nil]
    rfl

/-- No group but the first one holds an exclamation mark. -/
theorem ne_exclamation_of_mem {hyphened : Bool} {low high : Option Literal} {c : Char}
    (hc : c ∈ Literal.charsOf low ++ (sign hyphened '-' ++ Literal.charsOf high)) :
    c ≠ '!' := by
  have hbound {bound : Option Literal} (hc : c ∈ Literal.charsOf bound) : c ≠ '!' :=
    Literal.ne_of_mem_charsOf hc (by decide)
  rcases List.mem_append.mp hc with hlow | hc
  · exact hbound hlow
  · rcases List.mem_append.mp hc with hhyphen | hhigh
    · obtain rfl := eq_of_mem_sign hhyphen
      decide
    · exact hbound hhigh

/-- The preferred way cuts a text into its parts if a hyphen or nothing follows the low bound. -/
theorem head?_ways (negated : Bool) (low : Option Literal) {hyphened : Bool}
    {high : Option Literal} (h : hyphened = true ∨ high = none) :
    (ways (ofParts negated low hyphened high).chars).head? =
      some (ofParts negated low hyphened high, []) := by
  have hnegated : Prefers (optionalChar '!') (sign negated '!')
      (Literal.charsOf low ++ (sign hyphened '-' ++ Literal.charsOf high)) :=
    prefers_optionalChar negated fun c hc => ne_exclamation_of_mem (List.mem_of_mem_head? hc)
  -- A second version behind the low bound could be read as a part of it, as in `1` and `2`.
  have hlow : EndsLiteral (sign hyphened '-' ++ Literal.charsOf high) := by
    rcases h with rfl | rfl
    · rintro c ⟨⟩
      decide
    · intro c hc
      rw [Literal.charsOf, Option.map_none, Option.getD_none, List.append_nil] at hc
      obtain rfl := eq_of_mem_sign (List.mem_of_mem_head? hc)
      decide
  have hhyphen : Prefers (optionalChar '-') (sign hyphened '-') (Literal.charsOf high) :=
    prefers_optionalChar hyphened fun c hc =>
      Literal.ne_of_mem_charsOf (List.mem_of_mem_head? hc) (by decide)
  have hhigh := prefers_bound high endsLiteral_nil
  rw [Prefers, List.append_nil] at hhigh
  refine head?_flatMap hnegated (head?_flatMap (prefers_bound low hlow)
    (head?_flatMap hhyphen ?_))
  dsimp only [ofParts]
  rw [List.head?_map, hhigh]
  rfl

/-- The groups of a written range. -/
def ofSpelling (s : Range.Spelling) : RangeGroups :=
  match s.form with
  | .exact v => ofParts s.negated (some v) false none
  | .between low high => ofParts s.negated low true high

/-- The groups of a spelling hold its characters. -/
lemma chars_ofSpelling (s : Range.Spelling) : (ofSpelling s).chars = s.chars := by
  obtain ⟨negated, form⟩ := s
  cases form with
  | exact v => simp [ofSpelling, ofParts, chars, Range.Spelling.chars, Range.Form.chars,
      Literal.charsOf]
  | between low high => rfl

/-- The groups of a spelling give its range. -/
lemma range?_ofSpelling (s : Range.Spelling) : (ofSpelling s).range? = some s.range := by
  obtain ⟨negated, form⟩ := s
  cases form with
  | exact v => exact range?_plain negated (some v) none
  | between low high => exact range?_hyphen negated low high

/-- The first way to match a spelling gives its groups. -/
lemma head?_ways_chars (s : Range.Spelling) :
    (ways s.chars).head? = some (ofSpelling s, []) := by
  rw [← chars_ofSpelling]
  obtain ⟨negated, form⟩ := s
  cases form with
  | exact v => exact head?_ways negated (some v) (.inr rfl)
  | between low high => exact head?_ways negated low (.inl rfl)

/-- What the groups write as a range is a written range. -/
theorem exists_of_range? {negated hyphened : Bool} {low high : Option Literal} {r : Range}
    (h : (ofParts negated low hyphened high).range? = some r) :
    ∃ s : Range.Spelling, ofSpelling s = ofParts negated low hyphened high ∧ r = s.range := by
  cases hyphened with
  | true =>
    rw [range?_hyphen] at h
    exact ⟨⟨negated, .between low high⟩, rfl, (Option.some.inj h).symm⟩
  | false =>
    rw [range?_plain] at h
    split at h
    · rename_i v
      exact ⟨⟨negated, .exact v⟩, rfl, (Option.some.inj h).symm⟩
    · cases h

end RangeGroups

end Pattern

open Pattern

/-- Versions are read as the pattern cuts them: the numbers are the values of what stands between
the points, and the suffix is a component if there is one. -/
theorem ofText?_eq_fullMatch? (t : String) :
    ofText? t = (fullMatch? (VersionGroups.ways (trimBlanks t.toList))).map fun g =>
      ⟨g.components, String.ofList (trimBlanks t.toList)⟩ := by
  ext v
  rw [ofText?_eq_some_iff, Option.map_eq_some_iff]
  constructor
  · rintro ⟨s, hs, rfl⟩
    rw [← hs]
    refine ⟨.ofSpelling s, fullMatch?_of_head? (VersionGroups.head?_ways s), ?_⟩
    rw [VersionGroups.components_ofSpelling]
    rfl
  · rintro ⟨g, hg, rfl⟩
    obtain ⟨s, hs, rfl⟩ := VersionGroups.exists_of_mem_ways (mem_of_fullMatch? hg)
    refine ⟨s, hs, ?_⟩
    rw [VersionGroups.components_ofSpelling, ← hs]
    rfl

/-- Ranges are read as the pattern cuts them, with the texts refused that it cuts into nothing or
into two versions without a hyphen. -/
theorem Range.ofText?_eq_fullMatch? (t : String) :
    Range.ofText? t =
      (fullMatch? (RangeGroups.ways (trimBlanks t.toList))).bind RangeGroups.range? := by
  ext r
  rw [Range.ofText?, Range.ofChars?_eq_some_iff, Option.bind_eq_some_iff]
  constructor
  · rintro ⟨s, hs, rfl⟩
    rw [← hs]
    exact ⟨.ofSpelling s, fullMatch?_of_head? (RangeGroups.head?_ways_chars s),
      RangeGroups.range?_ofSpelling s⟩
  · rintro ⟨g, hg, hr⟩
    obtain ⟨negated, low, hyphened, high, rfl, hcs⟩ :=
      RangeGroups.exists_of_mem_ways (mem_of_fullMatch? hg)
    obtain ⟨s, hs, rfl⟩ := RangeGroups.exists_of_range? hr
    exact ⟨s, by rw [hcs, ← hs, RangeGroups.chars_ofSpelling], rfl⟩

/-- The text `1a2.3` is cut into two versions without a hyphen, so it is no range. -/
example :
    fullMatch? (RangeGroups.ways "1a2.3".toList) = some ⟨[], ['1', 'a'], [], ['2', '.', '3']⟩ ∧
      Range.parse "1a2.3" = .error (.range "1a2.3") := by decide

end Version

end Requirements
