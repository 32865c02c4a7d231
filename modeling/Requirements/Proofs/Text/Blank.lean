import Mathlib.Data.List.TakeWhile
import Mathlib.Tactic.Lemma
import Requirements.Text.Blank
import Requirements.Text.Word

/-!
# Texts between blanks

Trimming takes off the blanks at the ends of a text and nothing else. A body without blanks is what
is left of a text exactly if the text is that body between blanks.
-/

namespace Requirements

namespace Text

/-! ### Characters that are no blanks -/

/-- A character that a suffix may have differs from one that it may not. -/
lemma ne_of_isSuffixChar {c d : Char} (hc : isSuffixChar c = true)
    (hd : isSuffixChar d = false) : c ≠ d := by
  rintro rfl
  rw [hc] at hd
  cases hd

/-- The characters of suffixes are among those of the ASCII table, from the digits on. -/
lemma toNat_of_isSuffixChar {c : Char} (h : isSuffixChar c = true) :
    48 ≤ c.toNat ∧ c.toNat < 128 := by
  have hle (a b : Char) : a ≤ b ↔ a.toNat ≤ b.toNat := Iff.rfl
  have h0 : '0'.toNat = 48 := rfl
  have h9 : '9'.toNat = 57 := rfl
  have ha : 'a'.toNat = 97 := rfl
  have hz : 'z'.toNat = 122 := rfl
  have hA : 'A'.toNat = 65 := rfl
  have hZ : 'Z'.toNat = 90 := rfl
  have hunderscore : '_'.toNat = 95 := rfl
  simp only [isSuffixChar, isNameStart, isLetter, isDigit, Bool.or_eq_true, Bool.and_eq_true,
    decide_eq_true_eq, beq_iff_eq, hle] at h
  rcases h with ((h | h) | rfl) | h <;> omega

/-- No character of a suffix is a blank. -/
lemma not_isBlank_of_isSuffixChar {c : Char} (h : isSuffixChar c = true) : isBlank c = false := by
  obtain ⟨hlow, hhigh⟩ := toNat_of_isSuffixChar h
  unfold isBlank
  simp only [if_pos hhigh, Bool.or_eq_false_iff, Bool.and_eq_false_iff, decide_eq_false_iff_not]
  omega

/-! ### Trimming -/

/-- The text `cs` is `body` with nothing but blanks in front of it and behind it. -/
def BetweenBlanks (body cs : List Char) : Prop :=
  ∃ front back, (∀ c ∈ front, isBlank c = true) ∧ (∀ c ∈ back, isBlank c = true) ∧
    cs = front ++ body ++ back

/-- A text without blanks does not start with one. -/
lemma dropWhile_isBlank_eq_self {cs : List Char} (h : ∀ c ∈ cs, isBlank c = false) :
    cs.dropWhile isBlank = cs := by
  cases cs with
  | nil => rfl
  | cons c cs => rw [List.dropWhile_cons_of_neg (by simp [h c List.mem_cons_self])]

/-- Trimming takes off blanks only. -/
theorem betweenBlanks_trimBlanks (cs : List Char) : BetweenBlanks (trimBlanks cs) cs := by
  let left := cs.dropWhile isBlank
  refine ⟨cs.takeWhile isBlank, (left.reverse.takeWhile isBlank).reverse, ?_, ?_, ?_⟩
  · exact fun c hc => List.mem_takeWhile_imp hc
  · exact fun c hc => List.mem_takeWhile_imp (List.mem_reverse.mp hc)
  · have hleft : left = trimBlanks cs ++ (left.reverse.takeWhile isBlank).reverse := by
      rw [trimBlanks, ← List.reverse_append, List.takeWhile_append_dropWhile, List.reverse_reverse]
    rw [List.append_assoc, ← hleft, List.takeWhile_append_dropWhile]

/-- Trimming takes off all blanks around a body that has none at its ends. -/
theorem trimBlanks_of_betweenBlanks {body cs : List Char} (hbody : ∀ c ∈ body, isBlank c = false)
    (h : BetweenBlanks body cs) : trimBlanks cs = body := by
  obtain ⟨front, back, hfront, hback, rfl⟩ := h
  rw [trimBlanks, List.append_assoc, List.dropWhile_append_of_pos hfront]
  cases body with
  | nil =>
    have hnone : back.dropWhile isBlank = [] := List.dropWhile_eq_nil_iff.mpr hback
    rw [List.nil_append, hnone, List.reverse_nil, List.dropWhile_nil, List.reverse_nil]
  | cons c body =>
    have hc : ¬isBlank c = true := by simp [hbody c List.mem_cons_self]
    have hback' : ∀ d ∈ back.reverse, isBlank d = true := fun d hd =>
      hback d (List.mem_reverse.mp hd)
    have hbody' : ∀ d ∈ (c :: body).reverse, isBlank d = false := fun d hd =>
      hbody d (List.mem_reverse.mp hd)
    rw [List.cons_append, List.dropWhile_cons_of_neg hc, ← List.cons_append, List.reverse_append,
      List.dropWhile_append_of_pos hback', dropWhile_isBlank_eq_self hbody', List.reverse_reverse]

/-- What is left of a text is a body without blanks exactly if the text is that body between
blanks. -/
theorem trimBlanks_eq_iff {body cs : List Char} (hbody : ∀ c ∈ body, isBlank c = false) :
    trimBlanks cs = body ↔ BetweenBlanks body cs := by
  constructor
  · rintro rfl
    exact betweenBlanks_trimBlanks cs
  · exact trimBlanks_of_betweenBlanks hbody

/-- A text without blanks is trimmed already. -/
lemma trimBlanks_eq_self {cs : List Char} (h : ∀ c ∈ cs, isBlank c = false) :
    trimBlanks cs = cs :=
  trimBlanks_of_betweenBlanks h ⟨[], [], by simp, by simp, by simp⟩

end Text

end Requirements
