import Mathlib.Data.List.TakeWhile
import Mathlib.Tactic.Lemma
import Requirements.Proofs.Expr.Respelling
import Requirements.Version.Reader

/-!
# Reading version literals and ranges

The longest literal at the front of a text is found again in any text that starts with it and goes
on with a character that could not continue a literal. A range is read back from its text,
respelled.
-/

namespace Requirements

namespace Text

/-! ### Texts that are cut -/

/-- The longest beginning of such characters ends where a text without them follows. -/
lemma takeWhile_append_of_head {p : Char → Bool} (cs : List Char) {rest : List Char}
    (h : ∀ c, rest.head? = some c → p c = false) :
    (cs ++ rest).takeWhile p = cs.takeWhile p := by
  induction cs with
  | nil =>
    cases rest with
    | nil => rfl
    | cons c cs => simp [h c rfl]
  | cons c cs ih => simp [List.takeWhile_cons, ih]

/-- What is left behind such characters starts where a text without them follows. -/
lemma dropWhile_append_of_head {p : Char → Bool} (cs : List Char) {rest : List Char}
    (h : ∀ c, rest.head? = some c → p c = false) :
    (cs ++ rest).dropWhile p = cs.dropWhile p ++ rest := by
  induction cs with
  | nil =>
    cases rest with
    | nil => rfl
    | cons c cs => simp [h c rfl]
  | cons c cs ih =>
    rw [List.cons_append, List.dropWhile_cons, List.dropWhile_cons, ih]
    split <;> rfl

end Text

namespace Version

open Text

/-! ### Characters -/

/-- The characters that a version literal is made of. -/
def isLiteralChar (c : Char) : Bool :=
  isSuffixChar c || c == '.'

/-- The text `cs` does not continue a version literal. -/
def EndsLiteral (cs : List Char) : Prop :=
  ∀ c, cs.head? = some c → isLiteralChar c = false

/-- What ends a version does not go on with a character of suffixes. -/
lemma EndsLiteral.not_isSuffixChar {cs : List Char} (h : EndsLiteral cs) {c : Char}
    (hc : cs.head? = some c) : isSuffixChar c = false := by
  have hnot := h c hc
  simp only [isLiteralChar, Bool.or_eq_false_iff] at hnot
  exact hnot.1

/-- What ends a version does not go on with a letter. -/
lemma EndsLiteral.not_isNameStart {cs : List Char} (h : EndsLiteral cs) {c : Char}
    (hc : cs.head? = some c) : isNameStart c = false := by
  have hnot := h.not_isSuffixChar hc
  simp only [isSuffixChar, Bool.or_eq_false_iff] at hnot
  exact hnot.1

/-- What ends a version does not go on with a digit. -/
lemma EndsLiteral.not_isDigit {cs : List Char} (h : EndsLiteral cs) {c : Char}
    (hc : cs.head? = some c) : isDigit c = false := by
  have hnot := h.not_isSuffixChar hc
  simp only [isSuffixChar, Bool.or_eq_false_iff] at hnot
  exact hnot.2

/-- What ends a version does not go on with a point. -/
lemma EndsLiteral.ne_point {cs : List Char} (h : EndsLiteral cs) {c : Char}
    (hc : cs.head? = some c) : c ≠ '.' := by
  have hnot := h c hc
  simp only [isLiteralChar, Bool.or_eq_false_iff] at hnot
  simpa using hnot.2

/-- What starts a name is no digit. -/
lemma not_isDigit_of_isNameStart {c : Char} (h : isNameStart c = true) : isDigit c = false := by
  have hle (a b : Char) : a ≤ b ↔ a.toNat ≤ b.toNat := Iff.rfl
  simp only [isNameStart, isLetter, isDigit, Bool.or_eq_true, Bool.and_eq_true, decide_eq_true_eq,
    beq_iff_eq, Bool.and_eq_false_iff, decide_eq_false_iff_not, hle] at h ⊢
  have h0 : '0'.toNat = 48 := rfl
  have h9 : '9'.toNat = 57 := rfl
  have ha : 'a'.toNat = 97 := rfl
  have hA : 'A'.toNat = 65 := rfl
  rcases h with (⟨hlow, -⟩ | ⟨hlow, -⟩) | rfl
  · omega
  · omega
  · exact .inr (by decide)

/-! ### Digit groups -/

/-- A text that does not start with a digit, nor with a point and a digit, does not continue a
number. -/
theorem numbersFrom_of_ends (n : Nat) {cs : List Char}
    (hdigit : ∀ c, cs.head? = some c → isDigit c = false)
    (hpoint : ∀ d ds, cs = '.' :: d :: ds → isDigit d = false) : numbersFrom n cs = ([n], cs) := by
  unfold numbersFrom
  split
  · rfl
  · rename_i d ds
    rw [if_neg (by simp [hpoint d ds rfl])]
  · rename_i c ds _
    rw [if_neg (by simp [hdigit c rfl])]

/-- A point in front of a digit ends a number and starts the next one. -/
lemma numbersFrom_point (n : Nat) {d : Char} (cs : List Char) (h : isDigit d = true) :
    numbersFrom n ('.' :: d :: cs) =
      (n :: (numbersFrom (digitValue d) cs).1, (numbersFrom (digitValue d) cs).2) := by
  rw [numbersFrom, if_pos h]

/-- A digit goes into the number that is read. -/
lemma numbersFrom_digit (n : Nat) {c : Char} (cs : List Char) (h : isDigit c = true) :
    numbersFrom n (c :: cs) = numbersFrom (10 * n + digitValue c) cs := by
  have hpoint : c ≠ '.' := by
    rintro rfl
    exact absurd h (by decide)
  rw [numbersFrom.eq_def]
  split
  · rename_i heq
    cases heq
  · rename_i heq
    exact absurd (List.cons.inj heq).1 hpoint
  · rename_i heq
    cases heq
    rw [if_pos h]

/-- What follows a number does not change it. -/
theorem numbersFrom_append (n : Nat) (cs : List Char) {rest : List Char}
    (hrest : ∀ c, rest.head? = some c → isDigit c = false ∧ c ≠ '.') :
    numbersFrom n (cs ++ rest) = ((numbersFrom n cs).1, (numbersFrom n cs).2 ++ rest) := by
  fun_induction numbersFrom n cs with
  | case1 n =>
    refine numbersFrom_of_ends n (fun c hc => (hrest c hc).1) ?_
    rintro d ds rfl
    exact absurd rfl (hrest '.' rfl).2
  | case2 n d cs hd more left hmore ih =>
    rw [hmore] at ih
    rw [List.cons_append, List.cons_append, numbersFrom_point n (cs ++ rest) hd, ih]
  | case3 n d cs hd =>
    refine numbersFrom_of_ends n ?_ ?_
    · rintro c ⟨⟩
      decide
    · rintro e ds heq
      cases heq
      simpa using hd
  | case4 n c cs hc hdigit ih =>
    rw [List.cons_append, numbersFrom_digit n (cs ++ rest) hdigit, ih]
  | case5 n c cs hc hdigit =>
    refine numbersFrom_of_ends n ?_ ?_
    · rintro d ⟨⟩
      simpa using hdigit
    · intro d ds heq
      obtain ⟨rfl, hds⟩ := List.cons.inj heq
      cases cs with
      | nil =>
        have hrest' : rest = d :: ds := hds
        exact (hrest d (by rw [hrest']; rfl)).1
      | cons e es => exact (hc e es rfl rfl).elim

/-- A number is read from a text of its own, made of digits and points. -/
theorem exists_numbersFrom (n : Nat) (cs : List Char) :
    ∃ text, cs = text ++ (numbersFrom n cs).2 ∧
      numbersFrom n text = ((numbersFrom n cs).1, []) ∧ ∀ c ∈ text, isDigit c = true ∨ c = '.' := by
  fun_induction numbersFrom n cs with
  | case1 n => exact ⟨[], rfl, rfl, by simp⟩
  | case2 n d cs hd more left hmore ih =>
    rw [hmore] at ih
    obtain ⟨text, hcs, hread, hchars⟩ := ih
    refine ⟨'.' :: d :: text, by rw [hcs]; rfl, ?_, ?_⟩
    · rw [numbersFrom_point n text hd, hread]
    · simpa [hd] using hchars
  | case3 n d cs hd => exact ⟨[], rfl, rfl, by simp⟩
  | case4 n c cs hc hdigit ih =>
    obtain ⟨text, hcs, hread, hchars⟩ := ih
    refine ⟨c :: text, by rw [List.cons_append, ← hcs], ?_, ?_⟩
    · rw [numbersFrom_digit n text hdigit, hread]
    · simpa [hdigit] using hchars
  | case5 n c cs hc hdigit => exact ⟨[], rfl, rfl, by simp⟩

/-- No digit follows a number that was read. -/
theorem not_isDigit_of_numbersFrom (n : Nat) (cs : List Char) {c : Char}
    (hc : (numbersFrom n cs).2.head? = some c) : isDigit c = false := by
  fun_induction numbersFrom n cs with
  | case1 n => cases hc
  | case2 n d cs hd more left hmore ih =>
    rw [hmore] at ih
    exact ih hc
  | case3 n d cs hd =>
    cases hc
    decide
  | case4 n c cs _ hdigit ih => exact ih hc
  | case5 n c cs _ hdigit =>
    cases hc
    simpa using hdigit

/-! ### Literals -/

/-- Without a letter there is no suffix. -/
lemma suffixOf_of_not_isNameStart {cs : List Char}
    (h : ∀ c, cs.head? = some c → isNameStart c = false) : suffixOf cs = ([], cs) := by
  cases cs with
  | nil => rfl
  | cons c cs => simp [suffixOf, h c rfl]

/-- What follows a suffix does not change it. -/
theorem suffixOf_append (cs : List Char) {rest : List Char} (hrest : EndsLiteral rest) :
    suffixOf (cs ++ rest) = ((suffixOf cs).1, (suffixOf cs).2 ++ rest) := by
  cases cs with
  | nil => exact suffixOf_of_not_isNameStart fun c hc => hrest.not_isNameStart hc
  | cons c cs =>
    have htake := takeWhile_append_of_head (p := isSuffixChar) cs fun c => hrest.not_isSuffixChar
    have hdrop := dropWhile_append_of_head (p := isSuffixChar) cs fun c => hrest.not_isSuffixChar
    rw [List.cons_append]
    simp only [suffixOf, htake, hdrop]
    split <;> rfl

/-- A suffix is read from a text of its own, made of the characters of a suffix. -/
theorem exists_suffixOf (cs : List Char) :
    ∃ text, cs = text ++ (suffixOf cs).2 ∧ suffixOf text = ((suffixOf cs).1, []) ∧
      (∀ c, text.head? = some c → isNameStart c = true) ∧ ∀ c ∈ text, isSuffixChar c = true := by
  cases cs with
  | nil => exact ⟨[], rfl, rfl, by simp, by simp⟩
  | cons c cs =>
    by_cases hstart : isNameStart c = true
    · have htake : (cs.takeWhile isSuffixChar).takeWhile isSuffixChar =
          cs.takeWhile isSuffixChar := List.takeWhile_idem
      have hdrop : (cs.takeWhile isSuffixChar).dropWhile isSuffixChar = [] :=
        List.dropWhile_eq_nil_iff.mpr fun d hd => List.mem_takeWhile_imp hd
      refine ⟨c :: cs.takeWhile isSuffixChar, ?_, ?_, ?_, ?_⟩
      · simp [suffixOf, hstart]
      · simp [suffixOf, hstart, htake, hdrop]
      · rintro d ⟨⟩
        exact hstart
      · intro d hd
        rcases List.mem_cons.mp hd with rfl | hd
        · simp [isSuffixChar, hstart]
        · exact List.mem_takeWhile_imp hd
    · exact ⟨[], by simp [suffixOf, hstart], by simp [suffixOf, hstart], by simp, by simp⟩

/-- A version is read from a digit: its numbers first, then its suffix. -/
lemma literalFrom?_cons {c : Char} (cs : List Char) (h : isDigit c = true) :
    literalFrom? (c :: cs) =
      some ((numbersFrom (digitValue c) cs).1.map Component.number ++
        (suffixOf (numbersFrom (digitValue c) cs).2).1,
        (suffixOf (numbersFrom (digitValue c) cs).2).2) := by
  simp [literalFrom?, h]

/-- Whatever is read as a version starts with a digit. -/
lemma exists_of_literalFrom? {cs : List Char} {read : List Component × List Char}
    (h : literalFrom? cs = some read) : ∃ c ds, cs = c :: ds ∧ isDigit c = true := by
  cases cs with
  | nil => simp [literalFrom?] at h
  | cons c cs =>
    by_cases hdigit : isDigit c = true
    · exact ⟨c, cs, rfl, hdigit⟩
    · simp [literalFrom?, hdigit] at h

/-- No character of a suffix follows a literal that was read. -/
theorem not_isSuffixChar_of_literalFrom? {cs : List Char} {components : List Component}
    {left : List Char} (h : literalFrom? cs = some (components, left)) {c : Char}
    (hc : left.head? = some c) : isSuffixChar c = false := by
  obtain ⟨d, ds, rfl, hdigit⟩ := exists_of_literalFrom? h
  rw [literalFrom?_cons ds hdigit] at h
  obtain ⟨-, rfl⟩ := Prod.mk.inj (Option.some.inj h)
  have hnumber := not_isDigit_of_numbersFrom (digitValue d) ds (c := c)
  generalize (numbersFrom (digitValue d) ds).2 = afterNumbers at hc hnumber
  unfold suffixOf at hc
  split at hc
  · cases hc
  split at hc
  · have hnot := List.head?_dropWhile_not isSuffixChar ‹List Char›
    rw [hc] at hnot
    simpa using hnot
  · rename_i hstart
    cases hc
    simp [isSuffixChar, hnumber rfl, hstart]

/-- What follows a literal does not change it. -/
theorem literalFrom?_append {cs : List Char} {components : List Component} {left : List Char}
    (h : literalFrom? cs = some (components, left)) {rest : List Char} (hrest : EndsLiteral rest) :
    literalFrom? (cs ++ rest) = some (components, left ++ rest) := by
  obtain ⟨c, ds, rfl, hdigit⟩ := exists_of_literalFrom? h
  rw [literalFrom?_cons ds hdigit] at h
  obtain ⟨rfl, rfl⟩ := Prod.mk.inj (Option.some.inj h)
  have hnumbers := numbersFrom_append (digitValue c) ds
    fun d hd => ⟨hrest.not_isDigit hd, hrest.ne_point hd⟩
  rw [List.cons_append, literalFrom?_cons (ds ++ rest) hdigit, hnumbers, suffixOf_append _ hrest]

/-- A literal is read from a text of its own, made of the characters of a literal. -/
theorem exists_literalFrom? {cs : List Char} {components : List Component} {left : List Char}
    (h : literalFrom? cs = some (components, left)) :
    ∃ text, cs = text ++ left ∧ literalFrom? text = some (components, []) ∧
      ∀ c ∈ text, isLiteralChar c = true := by
  obtain ⟨c, ds, rfl, hdigit⟩ := exists_of_literalFrom? h
  rw [literalFrom?_cons ds hdigit] at h
  obtain ⟨rfl, rfl⟩ := Prod.mk.inj (Option.some.inj h)
  -- The suffix starts with a letter or an underscore, so it does not continue the number.
  obtain ⟨number, hds, hnumber, hnumberChars⟩ := exists_numbersFrom (digitValue c) ds
  obtain ⟨suffix, hleft, hsuffix, hstart, hsuffixChars⟩ :=
    exists_suffixOf (numbersFrom (digitValue c) ds).2
  have hnumbers : numbersFrom (digitValue c) (number ++ suffix) =
      ((numbersFrom (digitValue c) ds).1, suffix) := by
    rw [numbersFrom_append, hnumber, List.nil_append]
    intro d hd
    refine ⟨not_isDigit_of_isNameStart (hstart d hd), ?_⟩
    rintro rfl
    exact absurd (hstart '.' hd) (by decide)
  refine ⟨c :: (number ++ suffix), ?_, ?_, ?_⟩
  · rw [List.cons_append, List.append_assoc, ← hleft, ← hds]
  · rw [literalFrom?_cons _ hdigit, hnumbers, hsuffix]
  · intro d hd
    simp only [List.mem_cons, List.mem_append] at hd
    rcases hd with rfl | hd | hd
    · simp [isLiteralChar, isSuffixChar, hdigit]
    · rcases hnumberChars d hd with hd | rfl
      · simp [isLiteralChar, isSuffixChar, hd]
      · rfl
    · simp [isLiteralChar, hsuffixChars d hd]

/-! ### Versions that were read -/

/-- The text of the version is a literal, which writes its components. -/
def IsLiteral (v : Version) : Prop :=
  literalFrom? v.text.toList = some (v.components, [])

/-- A version that is read from a whole text can be written, as this text. -/
lemma isLiteral_of_literal? {cs : List Char} {v : Version} (h : literal? cs = some v) :
    v.IsLiteral ∧ v.text.toList = cs := by
  unfold literal? at h
  split at h
  · rename_i components hread
    cases h
    exact ⟨by simpa [IsLiteral] using hread, by simp⟩
  · cases h

namespace IsLiteral

variable {v : Version}

/-- A version that can be written is read from its text. -/
lemma literal? (h : v.IsLiteral) : literal? v.text.toList = some v := by
  unfold Version.literal?
  rw [h]
  simp

/-- A version that can be written starts with a digit. -/
lemma exists_cons (h : v.IsLiteral) : ∃ c cs, v.text.toList = c :: cs ∧ isDigit c = true :=
  exists_of_literalFrom? h

/-- A version that can be written prints as its text. -/
lemma toText (h : v.IsLiteral) : v.toText = v.text := by
  obtain ⟨c, cs, hcs, -⟩ := h.exists_cons
  unfold Version.toText
  rw [if_neg]
  intro hempty
  simp [hempty] at hcs

/-- A version that can be written has the characters of versions only. -/
lemma isLiteralChar_of_mem (h : v.IsLiteral) {c : Char} (hc : c ∈ v.text.toList) :
    isLiteralChar c = true := by
  obtain ⟨text, htext, -, hchars⟩ := exists_literalFrom? h
  rw [List.append_nil] at htext
  exact hchars c (htext ▸ hc)

/-- A character that versions do not have is not in one that can be written. -/
lemma ne_of_mem (h : v.IsLiteral) {c d : Char} (hc : c ∈ v.text.toList)
    (hd : isLiteralChar d = false) : c ≠ d := by
  rintro rfl
  rw [h.isLiteralChar_of_mem hc] at hd
  cases hd

end IsLiteral

/-! ### Ranges that were read -/

namespace Range

/-- The bounds of the range are literals. -/
structure IsLiteral (r : Range) : Prop where
  low : ∀ v, r.low = some v → v.IsLiteral
  high : ∀ v, r.high = some v → v.IsLiteral

/-- The bounds that are read can be written. -/
lemma isLiteral_of_bound? {cs : List Char} {bound : Option Version} (h : bound? cs = some bound)
    {v : Version} (hv : bound = some v) : v.IsLiteral := by
  subst hv
  cases cs with
  | nil => cases h
  | cons c cs =>
    simp only [bound?, Option.map_eq_some_iff] at h
    obtain ⟨w, hw, hwv⟩ := h
    cases hwv
    exact (isLiteral_of_literal? hw).1

/-- The ranges of bounds that are read can be written. -/
lemma isLiteral_of_bounds? {cs : List Char} {bounds : Option Version × Option Version}
    (h : bounds? cs = some bounds) (negated : Bool) :
    IsLiteral ⟨bounds.1, bounds.2, negated⟩ := by
  unfold bounds? at h
  split at h
  · obtain ⟨v, hv, rfl⟩ := Option.map_eq_some_iff.mp h
    have hliteral := (isLiteral_of_literal? hv).1
    constructor <;> (rintro w ⟨⟩; exact hliteral)
  · split at h
    · rename_i low high hlow hhigh
      cases h
      exact ⟨fun v => isLiteral_of_bound? hlow, fun v => isLiteral_of_bound? hhigh⟩
    · cases h

/-- The ranges that are read can be written. -/
lemma isLiteral_of_ofChars? {cs : List Char} {r : Range} (h : ofChars? cs = some r) :
    r.IsLiteral := by
  unfold ofChars? at h
  split at h
  all_goals
    obtain ⟨bounds, hbounds, rfl⟩ := Option.map_eq_some_iff.mp h
    exact isLiteral_of_bounds? hbounds _

/-- A bound that can be written is read from its text. -/
lemma bound?_text {v : Version} (h : v.IsLiteral) : bound? v.text.toList = some (some v) := by
  obtain ⟨c, cs, hcs, -⟩ := h.exists_cons
  rw [hcs]
  simp only [bound?]
  rw [← hcs, h.literal?]
  rfl

/-- One version alone stands for both bounds. -/
lemma bounds?_text {v : Version} (h : v.IsLiteral) :
    bounds? v.text.toList = some (some v, some v) := by
  have hdrop : v.text.toList.dropWhile (· != '-') = [] :=
    List.dropWhile_eq_nil_iff.mpr fun c hc => by simpa using h.ne_of_mem hc (by decide)
  unfold bounds?
  rw [hdrop]
  simp [h.literal?]

/-- Bounds are read on both sides of the first hyphen. -/
lemma bounds?_hyphen {low high : List Char} (hlow : ∀ c ∈ low, c ≠ '-')
    {lowBound highBound : Option Version} (hlowBound : bound? low = some lowBound)
    (hhighBound : bound? high = some highBound) :
    bounds? (low ++ '-' :: high) = some (lowBound, highBound) := by
  have htake : (low ++ '-' :: high).takeWhile (· != '-') = low := by
    rw [List.takeWhile_append_of_pos fun c hc => by simpa using hlow c hc]
    simp
  have hdrop : (low ++ '-' :: high).dropWhile (· != '-') = '-' :: high := by
    rw [List.dropWhile_append_of_pos fun c hc => by simpa using hlow c hc]
    simp
  unfold bounds?
  rw [hdrop, htake]
  simp [hlowBound, hhighBound]

namespace IsLiteral

variable {r : Range}

/-- The bounds that a range text writes are read back. -/
theorem bounds?_boundsText (h : r.IsLiteral) :
    bounds? r.boundsText.toList = some (r.respell.low, r.respell.high) := by
  obtain ⟨low, high, negated⟩ := r
  have hhyphen {v : Version} (hv : v.IsLiteral) : ∀ c ∈ v.text.toList, c ≠ '-' :=
    fun c hc => hv.ne_of_mem hc (by decide)
  cases low with
  | none =>
    cases high with
    | none =>
      have hread : bounds? ([] ++ '-' :: []) = some (none, none) := bounds?_hyphen (by simp) rfl rfl
      simpa [boundsText, respell] using hread
    | some high =>
      have hhigh := h.high high rfl
      have hread : bounds? ([] ++ '-' :: high.text.toList) = some (none, some high) :=
        bounds?_hyphen (by simp) rfl (bound?_text hhigh)
      simpa [boundsText, hhigh.toText, respell] using hread
  | some low =>
    have hlow := h.low low rfl
    cases high with
    | none =>
      have hread : bounds? (low.text.toList ++ '-' :: []) = some (some low, none) :=
        bounds?_hyphen (hhyphen hlow) (bound?_text hlow) rfl
      simpa [boundsText, hlow.toText, respell] using hread
    | some high =>
      have hhigh := h.high high rfl
      by_cases hsame : low.same high = true
      · simpa [boundsText, hsame, hlow.toText, respell] using bounds?_text hlow
      · have hread := bounds?_hyphen (hhyphen hlow) (bound?_text hlow) (bound?_text hhigh)
        simpa [boundsText, hsame, hlow.toText, hhigh.toText, respell] using hread

/-- The characters of a range text. -/
theorem of_mem_boundsText (h : r.IsLiteral) {c : Char} (hc : c ∈ r.boundsText.toList) :
    isLiteralChar c = true ∨ c = '-' := by
  obtain ⟨low, high, negated⟩ := r
  have hchar {v : Version} (hv : v.IsLiteral) (hc : c ∈ v.toText.toList) :
      isLiteralChar c = true ∨ c = '-' :=
    .inl (hv.isLiteralChar_of_mem (hv.toText ▸ hc))
  cases low with
  | none =>
    cases high with
    | none => exact .inr (by simpa [boundsText] using hc)
    | some high =>
      simp only [boundsText, String.toList_append, List.mem_append] at hc
      rcases hc with hc | hc
      · exact .inr (by simpa using hc)
      · exact hchar (h.high high rfl) hc
  | some low =>
    have hlow := h.low low rfl
    cases high with
    | none =>
      simp only [boundsText, String.toList_append, List.mem_append] at hc
      rcases hc with hc | hc
      · exact hchar hlow hc
      · exact .inr (by simpa using hc)
    | some high =>
      simp only [boundsText] at hc
      split at hc
      · exact hchar hlow hc
      · simp only [String.toList_append, List.mem_append] at hc
        rcases hc with (hc | hc) | hc
        · exact hchar hlow hc
        · exact .inr (by simpa using hc)
        · exact hchar (h.high high rfl) hc

/-- A range that can be written has the characters of versions, hyphens and the sign of negation
only. -/
lemma of_mem_toText (h : r.IsLiteral) {c : Char} (hc : c ∈ r.toText.toList) :
    isLiteralChar c = true ∨ c = '-' ∨ c = '!' := by
  simp only [toText, String.toList_append, List.mem_append] at hc
  rcases hc with hc | hc
  · right
    right
    split at hc
    · simpa using hc
    · simp at hc
  · rcases h.of_mem_boundsText hc with hc | hc
    · exact .inl hc
    · exact .inr (.inl hc)

/-- A range text is read back as the range, respelled. -/
theorem ofChars?_toText (h : r.IsLiteral) : ofChars? r.toText.toList = some r.respell := by
  have hbounds := h.bounds?_boundsText
  have hnegated := r.negated_respell
  by_cases hneg : r.negated = true
  · have htext : r.toText.toList = '!' :: r.boundsText.toList := by simp [toText, hneg]
    rw [htext]
    simp only [ofChars?, hbounds, Option.map_some]
    rw [hneg] at hnegated
    rw [← hnegated]
  · have htext : r.toText.toList = r.boundsText.toList := by simp [toText, hneg]
    rw [htext]
    unfold ofChars?
    split
    · rename_i cs heq
      rcases h.of_mem_boundsText (c := '!') (by rw [heq]; simp) with hc | hc
      · exact absurd hc (by decide)
      · exact absurd hc (by decide)
    · rw [hbounds, Option.map_some]
      have : r.respell.negated = false := by simpa [hnegated] using hneg
      rw [← this]

end IsLiteral

end Range

end Version

end Requirements
