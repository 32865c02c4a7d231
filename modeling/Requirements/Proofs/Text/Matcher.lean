import Mathlib.Tactic.Lemma
import Requirements.Text.Blank

/-!
# Patterns that try one way after the other

A pattern may take different parts off the front of a text, and it tries the ways in a fixed order:
an optional part is taken rather than left out, and a repeated one rather more often than less
often. Two things are said of a pattern. Whatever it takes has a certain form, and its preferred way
takes all of a given text.
-/

namespace Requirements

namespace Text

/-- The ways to take a part off the front of a text, the preferred one first. Each of them says what
is taken and what is left. -/
abbrev Matcher := List Char → List (List Char × List Char)

namespace Matcher

variable {m n : Matcher} {P Q : List Char → Prop} {a b rest : List Char} {k : Nat}

/-! ### Patterns -/

/-- A single character. -/
def one (p : Char → Bool) : Matcher
  | [] => []
  | c :: cs => if p c then [([c], cs)] else []

/-- What `m` takes and what `n` takes behind it. -/
def seq (m n : Matcher) : Matcher := fun cs =>
  (m cs).flatMap fun way => (n way.2).map fun way' => (way.1 ++ way'.1, way'.2)

/-- What `m` takes, or else nothing. -/
def optional (m : Matcher) : Matcher := fun cs =>
  m cs ++ [([], cs)]

/-- What `m` takes again and again, at most `k` times. -/
def upTo (m : Matcher) : Nat → Matcher
  | 0 => fun cs => [([], cs)]
  | k + 1 => optional (seq m (upTo m k))

/-- What `m` takes again and again. The parts that are repeated are not empty, so a text has no more
of them than characters. -/
def many (m : Matcher) : Matcher := fun cs =>
  upTo m cs.length cs

/-! ### What a pattern takes -/

/-- Whatever `m` takes stands at the front of the text and has the property `P`. -/
def Takes (m : Matcher) (P : List Char → Prop) : Prop :=
  ∀ cs way, way ∈ m cs → cs = way.1 ++ way.2 ∧ P way.1

/-- What a matcher takes may be described more loosely. -/
lemma Takes.mono (h : Takes m P) (hPQ : ∀ t, P t → Q t) : Takes m Q := fun cs way hway =>
  ⟨(h cs way hway).1, hPQ _ (h cs way hway).2⟩

/-- A matcher for one character takes one that passes. -/
lemma takes_one (p : Char → Bool) : Takes (one p) fun t => ∃ c, t = [c] ∧ p c = true := by
  intro cs way hway
  cases cs with
  | nil => simp [one] at hway
  | cons c cs =>
    rw [one] at hway
    split at hway
    · rename_i hc
      obtain rfl := List.mem_singleton.mp hway
      exact ⟨rfl, c, rfl, hc⟩
    · simp at hway

/-- A sequence takes two texts, one after the other. -/
lemma Takes.seq (hm : Takes m P) (hn : Takes n Q) :
    Takes (m.seq n) fun t => ∃ a b, t = a ++ b ∧ P a ∧ Q b := by
  intro cs way hway
  obtain ⟨first, hfirst, hmore⟩ := List.mem_flatMap.mp hway
  obtain ⟨second, hsecond, rfl⟩ := List.mem_map.mp hmore
  obtain ⟨hcs, hP⟩ := hm cs first hfirst
  obtain ⟨hleft, hQ⟩ := hn first.2 second hsecond
  refine ⟨?_, first.1, second.1, rfl, hP, hQ⟩
  rw [hcs, hleft, List.append_assoc]

/-- An optional part takes nothing or what the part takes. -/
lemma Takes.optional (h : Takes m P) : Takes m.optional fun t => t = [] ∨ P t := by
  intro cs way hway
  rcases List.mem_append.mp hway with htaken | hnone
  · exact ⟨(h cs way htaken).1, .inr (h cs way htaken).2⟩
  · obtain rfl := List.mem_singleton.mp hnone
    exact ⟨rfl, .inl rfl⟩

/-- A property of nothing that a further part preserves is one of all that a repetition takes. -/
theorem Takes.many (h : Takes m P) (hnil : Q []) (happend : ∀ a b, P a → Q b → Q (a ++ b)) :
    Takes m.many Q := by
  have hupTo (k : Nat) : Takes (m.upTo k) Q := by
    induction k with
    | zero =>
      intro cs way hway
      obtain rfl := List.mem_singleton.mp hway
      exact ⟨rfl, hnil⟩
    | succ k ih =>
      refine (h.seq ih).optional.mono ?_
      rintro t (rfl | ⟨a, b, rfl, ha, hb⟩)
      · exact hnil
      · exact happend a b ha hb
  exact fun cs => hupTo cs.length cs

/-- A repetition of one character takes characters that all pass. -/
lemma takes_many_one (p : Char → Bool) : Takes (one p).many fun t => ∀ c ∈ t, p c = true := by
  refine (takes_one p).many (by simp) ?_
  rintro a b ⟨c, rfl, hc⟩ hb
  exact List.forall_mem_cons.mpr ⟨hc, hb⟩

/-! ### What a pattern prefers to take -/

/-- In front of `rest`, the preferred way of `m` takes all of `text`. -/
def Prefers (m : Matcher) (text rest : List Char) : Prop :=
  (m (text ++ rest)).head? = some (text, rest)

/-- The first of all ways is the first way behind the first way. -/
lemma head?_flatMap {α β : Type} {l : List α} {f : α → List β} {x : α} {y : β}
    (hx : l.head? = some x) (hy : (f x).head? = some y) : (l.flatMap f).head? = some y := by
  cases l with
  | nil => cases hx
  | cons z l =>
    obtain rfl := Option.some.inj hx
    rw [List.flatMap_cons, List.head?_append, hy, Option.some_or]

/-- One character is not matched where none that passes follows. -/
lemma one_eq_nil {p : Char → Bool} (h : ∀ c, rest.head? = some c → p c = false) :
    one p rest = [] := by
  cases rest with
  | nil => rfl
  | cons c cs => simp [one, h c rfl]

/-- A sequence fails where its first part does. -/
lemma seq_eq_nil (h : m rest = []) (n : Matcher) : m.seq n rest = [] := by
  rw [seq, h, List.flatMap_nil]

/-- One character is matched where it passes. -/
lemma prefers_one {p : Char → Bool} {c : Char} (hc : p c = true) (rest : List Char) :
    Prefers (one p) [c] rest := by
  simp [Prefers, one, hc]

/-- A sequence prefers what its parts prefer, one after the other. -/
lemma Prefers.seq (hm : Prefers m a (b ++ rest)) (hn : Prefers n b rest) :
    Prefers (m.seq n) (a ++ b) rest := by
  rw [Prefers, List.append_assoc]
  refine head?_flatMap hm ?_
  rw [List.head?_map, hn]
  rfl

/-- An optional part is taken where it can be. -/
lemma Prefers.optional (h : Prefers m a rest) : Prefers m.optional a rest := by
  rw [Prefers, Matcher.optional, List.head?_append, h, Option.some_or]

/-- An optional part is left out where it cannot be taken. -/
lemma prefers_nothing (h : m rest = []) : Prefers m.optional [] rest := by
  rw [Prefers, List.nil_append, optional, h]
  rfl

/-- A repetition ends where its part fails. -/
lemma prefers_upTo_nothing (h : m rest = []) (k : Nat) : Prefers (m.upTo k) [] rest := by
  cases k with
  | zero => rfl
  | succ k => exact prefers_nothing (seq_eq_nil h _)

/-- A repetition goes on where its part can be taken. -/
lemma Prefers.upTo (hm : Prefers m a (b ++ rest)) (hmore : Prefers (m.upTo k) b rest) :
    Prefers (m.upTo (k + 1)) (a ++ b) rest :=
  (hm.seq hmore).optional

/-- A repetition of one character prefers to take all that pass. -/
lemma prefers_upTo_one {p : Char → Bool} (ha : ∀ c ∈ a, p c = true)
    (hrest : ∀ c, rest.head? = some c → p c = false) (hk : a.length ≤ k) :
    Prefers ((one p).upTo k) a rest := by
  induction a generalizing k with
  | nil => exact prefers_upTo_nothing (one_eq_nil hrest) k
  | cons c a ih =>
    obtain ⟨hc, ha⟩ := List.forall_mem_cons.mp ha
    obtain ⟨k, rfl⟩ : ∃ j, k = j + 1 := ⟨k - 1, by rw [List.length_cons] at hk; omega⟩
    have hmore := ih ha (Nat.le_of_succ_le_succ hk)
    exact (prefers_one hc (a ++ rest)).upTo hmore

/-- A repetition of single characters takes all of them. -/
theorem prefers_many_one {p : Char → Bool} (ha : ∀ c ∈ a, p c = true)
    (hrest : ∀ c, rest.head? = some c → p c = false) : Prefers (one p).many a rest :=
  prefers_upTo_one ha hrest (by rw [List.length_append]; omega)

end Matcher

end Text

end Requirements
