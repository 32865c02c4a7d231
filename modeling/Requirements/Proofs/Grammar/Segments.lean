import Mathlib.Data.List.Chain
import Mathlib.Tactic.Lemma
import Requirements.Proofs.Grammar.Spelling

/-!
# Segments of a printed expression

The text of an expression is a row of segments: the parentheses around its operands, the operands
that hold no operator, and what joins two operands. From this the text can be taken apart and put
together again: any row of segments spells its words in which no operand touches another. This
remains so when a parenthesis is left out.
-/

namespace Requirements

/-! ### Nested words -/

/-- By how much a word changes the depth of parentheses, those of feature lists included. -/
def Lexeme.nesting : Lexeme → Int
  | mark .openParen | openFeatures => 1
  | mark .closeParen => -1
  | _ => 0

/-- The number of parentheses that the words open and do not close. -/
def unclosed : List Lexeme → Int
  | [] => 0
  | l :: words => l.nesting + unclosed words

@[simp] lemma unclosed_nil : unclosed [] = 0 := rfl

@[simp] lemma unclosed_cons (l : Lexeme) (words : List Lexeme) :
    unclosed (l :: words) = l.nesting + unclosed words := rfl

/-- Open parentheses are counted part by part, closed ones counting against them. -/
@[simp] lemma unclosed_append (words more : List Lexeme) :
    unclosed (words ++ more) = unclosed words + unclosed more := by
  induction words with
  | nil => simp
  | cons l words ih => simp [ih, Int.add_assoc]

/-- None of the words is a parenthesis. -/
def Flat (words : List Lexeme) : Prop :=
  ∀ l ∈ words, l.nesting = 0

namespace Flat

variable {words more : List Lexeme}

/-- Two parts without parentheses make a text without parentheses. -/
lemma append (h : Flat words) (h' : Flat more) : Flat (words ++ more) :=
  List.forall_mem_append.mpr ⟨h, h'⟩

/-- Without parentheses nothing stays open. -/
lemma unclosed_eq (h : Flat words) : unclosed words = 0 := by
  induction words with
  | nil => rfl
  | cons l words ih =>
    rw [unclosed_cons, h l List.mem_cons_self, ih fun k hk => h k (List.mem_cons_of_mem l hk)]
    rfl

end Flat

/-- Every parenthesis among the words belongs to a probe or to a feature list: one that is opened
follows a name, and one that is closed was opened among the words. -/
structure Enclosed (words : List Lexeme) : Prop where
  opening : ∀ front rest, words = front ++ .mark .openParen :: rest →
    ∃ s, front.getLast? = some (.name s)
  closing : ∀ front rest, words = front ++ .mark .closeParen :: rest → 0 < unclosed front

namespace Enclosed

variable {words inside rest : List Lexeme}

/-- Words without parentheses enclose nothing. -/
lemma of_flat (h : Flat words) : Enclosed words where
  opening front rest hwords := by
    have := h (.mark .openParen) (by simp [hwords])
    cases this
  closing front rest hwords := by
    have := h (.mark .closeParen) (by simp [hwords])
    cases this

/-- A name with a list in parentheses behind it. -/
theorem of_list {l : Lexeme} (s : String) (hl : l.nesting = 1) (hinside : Flat inside)
    (hrest : Flat rest) :
    Enclosed (.name s :: l :: (inside ++ .mark .closeParen :: rest)) where
  opening front behind hwords := by
    rcases front with _ | ⟨k, _ | ⟨k', front⟩⟩
    · cases hwords
    · obtain ⟨rfl, -⟩ := List.cons.inj hwords
      exact ⟨s, rfl⟩
    · have htail : inside ++ .mark .closeParen :: rest = front ++ .mark .openParen :: behind :=
        (List.cons.inj (List.cons.inj hwords).2).2
      have hmem : .mark .openParen ∈ inside ++ .mark .closeParen :: rest := by simp [htail]
      rcases List.mem_append.mp hmem with hmem | hmem
      · cases hinside _ hmem
      · have hmem : .mark .openParen ∈ rest := (List.mem_cons.mp hmem).resolve_left (by simp)
        cases hrest _ hmem
  closing front behind hwords := by
    rcases front with _ | ⟨k, _ | ⟨k', front⟩⟩
    · cases hwords
    · obtain ⟨rfl, -⟩ := List.cons.inj (List.cons.inj hwords).2
      cases hl
    · simp only [List.cons_append, List.cons.injEq] at hwords
      obtain ⟨rfl, rfl, hwords⟩ := hwords
      -- The list is closed once, so what stands in front of that lies inside of it.
      have hfront : Flat front := by
        rcases List.append_eq_append_iff.mp hwords with ⟨more, rfl, hmore⟩ | ⟨more, rfl, -⟩
        · cases more with
          | nil => simpa using hinside
          | cons k more =>
            have hmem : .mark .closeParen ∈ rest := by simp [(List.cons.inj hmore).2]
            cases hrest _ hmem
        · exact fun k hk => hinside k (List.mem_append_left more hk)
      rw [unclosed_cons, unclosed_cons, hl, hfront.unclosed_eq]
      exact Int.one_pos

end Enclosed

/-! ### Segments -/

namespace Grammar

open Lexer
open Requirements.Expr (Strength)

/-- A segment of a printed expression: a parenthesis around an operand, what joins two operands, or
an operand without operators. -/
inductive Segment where
  | opening
  | closing
  | joint (text : String) (words : List Lexeme)
  | operand (text : String) (words : List Lexeme)

namespace Segment

/-- The characters of a segment. -/
def chars : Segment → List Char
  | opening => ['(']
  | closing => [')']
  | joint text _ | operand text _ => text.toList

/-- The words of a segment. -/
def words : Segment → List Lexeme
  | opening => [.mark .openParen]
  | closing => [.mark .closeParen]
  | joint _ words | operand _ words => words

/-- The text of a segment spells its words, and its parentheses belong to probes and feature
lists. -/
def Sound : Segment → Prop
  | opening | closing => True
  | joint text words => text.toList.head? = some ' ' ∧ Flat words ∧
    ∀ rest, Spells .plain .plain text.toList rest words
  | operand text words => Spelled text words ∧ Enclosed words

/-- Whether an operand ends with the segment. -/
def endsOperand : Segment → Bool
  | closing | operand _ _ => true
  | opening | joint _ _ => false

/-- Whether an operand may end in front of the segment. -/
def followsOperand : Segment → Bool
  | closing | joint _ _ => true
  | opening | operand _ _ => false

/-- No operand touches another. -/
def Apart (left right : Segment) : Prop :=
  left.endsOperand = true → right.followsOperand = true

end Segment

/-- The characters of segments. -/
def charsOf (segments : List Segment) : List Char :=
  segments.flatMap Segment.chars

/-- The words of segments. -/
def wordsOf (segments : List Segment) : List Lexeme :=
  segments.flatMap Segment.words

@[simp] lemma charsOf_nil : charsOf [] = [] := rfl

@[simp] lemma charsOf_cons (s : Segment) (segments : List Segment) :
    charsOf (s :: segments) = s.chars ++ charsOf segments := rfl

/-- The characters of segments are those of the parts, one after the other. -/
@[simp] lemma charsOf_append (segments more : List Segment) :
    charsOf (segments ++ more) = charsOf segments ++ charsOf more :=
  List.flatMap_append

@[simp] lemma wordsOf_nil : wordsOf [] = [] := rfl

@[simp] lemma wordsOf_cons (s : Segment) (segments : List Segment) :
    wordsOf (s :: segments) = s.words ++ wordsOf segments := rfl

/-- The words of segments are those of the parts, one after the other. -/
@[simp] lemma wordsOf_append (segments more : List Segment) :
    wordsOf (segments ++ more) = wordsOf segments ++ wordsOf more :=
  List.flatMap_append

/-- A row of segments that can be cut apart again. -/
structure Row (segments : List Segment) : Prop where
  sound : ∀ s ∈ segments, s.Sound
  apart : segments.IsChain Segment.Apart

namespace Row

variable {segments before behind : List Segment} {s : Segment}

lemma nil : Row [] := ⟨by simp, .nil⟩

/-- A segment may be put before a row that starts apart from it. -/
lemma cons (hsound : s.Sound) (h : Row segments) (hapart : ∀ t ∈ segments.head?, s.Apart t) :
    Row (s :: segments) where
  sound := List.forall_mem_cons.mpr ⟨hsound, h.sound⟩
  apart := List.isChain_cons.mpr ⟨hapart, h.apart⟩

/-- Without its first segment a row is a row. -/
lemma tail (h : Row (s :: segments)) : Row segments where
  sound := (List.forall_mem_cons.mp h.sound).2
  apart := (List.isChain_cons.mp h.apart).2

/-- The beginning of a row is a row. -/
lemma left (h : Row (before ++ behind)) : Row before where
  sound := (List.forall_mem_append.mp h.sound).1
  apart := h.apart.left_of_append

/-- The end of a row is a row. -/
lemma right (h : Row (before ++ behind)) : Row behind where
  sound := (List.forall_mem_append.mp h.sound).2
  apart := h.apart.right_of_append

/-- Two rows make a row if no operand of the one touches one of the other. -/
theorem append (h : Row before) (h' : Row behind)
    (hapart : ∀ s ∈ before.getLast?, ∀ t ∈ behind.head?, s.Apart t) : Row (before ++ behind) where
  sound := List.forall_mem_append.mpr ⟨h.sound, h'.sound⟩
  apart := h.apart.append h'.apart hapart

/-- What joins operands stands apart from both. -/
theorem join {text : String} {words : List Lexeme} (h : Row before) (h' : Row behind)
    (hjoint : (Segment.joint text words).Sound) : Row (before ++ .joint text words :: behind) := by
  refine h.append (.cons hjoint h' nofun) ?_
  rintro s - t ⟨⟩ -
  rfl

/-- A row of segments in parentheses. -/
theorem parens (h : Row segments) : Row (.opening :: (segments ++ [.closing])) := by
  refine .cons trivial (h.append (.cons trivial .nil nofun) ?_) nofun
  rintro s - t ⟨⟩ -
  rfl

/-- Without a parenthesis, a row is still a row. -/
theorem remove (h : Row (before ++ s :: behind)) (hs : s = .opening ∨ s = .closing) :
    Row (before ++ behind) := by
  refine h.left.append h.right.tail fun t ht u hu hends => ?_
  have hfirst : t.Apart s := (List.isChain_append.mp h.apart).2.2 t ht s rfl
  have hsecond : s.Apart u := (List.isChain_cons.mp h.right.apart).1 u hu
  rcases hs with rfl | rfl
  · cases hfirst hends
  · exact hsecond rfl

/-- A row of segments spells its words. -/
theorem spells (h : Row segments) {rest : List Char} (hrest : EndsExpr rest) :
    Spells .plain .plain (charsOf segments) rest (wordsOf segments) := by
  induction segments with
  | nil => exact .nil _ _
  | cons s segments ih =>
    have hsound := h.sound s List.mem_cons_self
    rw [charsOf_cons, wordsOf_cons]
    refine Spells.append ?_ (ih h.tail)
    cases s with
    | opening => exact spells_plain_mark (m := .openParen) (by decide) _
    | closing => exact spells_plain_mark (m := .closeParen) (by decide) _
    | joint text words => exact hsound.2.2 _
    | operand text words =>
      refine hsound.1 _ ?_
      cases segments with
      | nil => exact hrest
      | cons t segments =>
        have hfollows := (List.isChain_cons.mp h.apart).1 t rfl rfl
        cases t with
        | closing => exact endsExpr_cons (by decide) _
        | joint text words =>
          obtain ⟨cs, hcs⟩ := List.head?_eq_some_iff.mp (h.tail.sound _ List.mem_cons_self).1
          rw [charsOf_cons, Segment.chars, hcs]
          exact endsExpr_cons (by decide) _
        | opening => cases hfollows
        | operand => cases hfollows

end Row

end Grammar

namespace Expr

open Grammar Lexer

/-- The segments of an operand, in parentheses if it binds less strongly than its place demands. -/
def enclosedSegments (place actual : Strength) (segments : List Segment) : List Segment :=
  if actual.rank < place.rank then .opening :: (segments ++ [.closing]) else segments

/-- The segments of a printed expression. -/
def segments : Expr → List Segment
  | compare op lhs rhs =>
    enclosedSegments (operandStrength op) lhs.strength lhs.segments ++
      .joint (" " ++ op.symbol ++ " ") [.compare op] ::
        enclosedSegments (operandStrength op) rhs.strength rhs.segments
  | within operand set =>
    enclosedSegments .equality operand.strength operand.segments ++
      .joint (" " ++ Keyword.membership.text ++ " ") [.keyword .membership] ::
        [.operand set.toText (setWords set)]
  | tagged operand tag =>
    enclosedSegments .within operand.strength operand.segments ++
      .joint (" " ++ Keyword.tagging.text ++ " ") [.keyword .tagging] ::
        [.operand (":" ++ tag) [.mark .colon, .name tag]]
  | logical op lhs rhs =>
    lhs.segments ++ .joint (" " ++ op.symbol ++ " ") [.logical op] ::
      enclosedSegments .tagged rhs.strength rhs.segments
  | e => [.operand e.format e.words]

/-! ### The segments are those of the text -/

/-- With the parentheses that its place asks for, a part is spelled in segments as it is printed. -/
lemma charsOf_enclosedSegments {segments : List Segment} {text : String}
    (h : charsOf segments = text.toList) (place actual : Strength) :
    charsOf (enclosedSegments place actual segments) = (parenthesize place actual text).toList := by
  unfold enclosedSegments parenthesize
  split
  · simp [Segment.chars, h]
  · exact h

/-- With the parentheses that its place asks for, a part has the words it is printed as. -/
lemma wordsOf_enclosedSegments {segments : List Segment} {words : List Lexeme}
    (h : wordsOf segments = words) (place actual : Strength) :
    wordsOf (enclosedSegments place actual segments) = wrapped place actual words := by
  unfold enclosedSegments wrapped
  split
  · simp [Segment.words, h]
  · exact h

/-- The segments of an expression spell its text. -/
lemma charsOf_segments (e : Expr) : charsOf e.segments = e.format.toList := by
  induction e with
  | compare op lhs rhs ihl ihr =>
    simp [segments, format, Segment.chars, charsOf_enclosedSegments ihl,
      charsOf_enclosedSegments ihr, operandStrength]
  | within operand set ih =>
    simp [segments, format, Segment.chars, charsOf_enclosedSegments ih, Keyword.text]
  | tagged operand tag ih =>
    simp [segments, format, Segment.chars, charsOf_enclosedSegments ih, Keyword.text]
  | logical op lhs rhs ihl ihr =>
    simp [segments, format, Segment.chars, ihl, charsOf_enclosedSegments ihr]
  | _ => simp [segments, Segment.chars]

/-- The segments of an expression have its words. -/
lemma wordsOf_segments (e : Expr) : wordsOf e.segments = e.words := by
  induction e with
  | compare op lhs rhs ihl ihr =>
    simp [segments, words, Segment.words, wordsOf_enclosedSegments ihl,
      wordsOf_enclosedSegments ihr]
  | within operand set ih =>
    simp [segments, words, Segment.words, wordsOf_enclosedSegments ih]
  | tagged operand tag ih =>
    simp [segments, words, Segment.words, wordsOf_enclosedSegments ih]
  | logical op lhs rhs ihl ihr =>
    simp [segments, words, Segment.words, ihl, wordsOf_enclosedSegments ihr]
  | _ => simp [segments, Segment.words]

/-- A row stays one inside the parentheses that its place asks for. -/
lemma row_enclosedSegments {segments : List Segment} (h : Row segments)
    (place actual : Strength) : Row (enclosedSegments place actual segments) := by
  unfold enclosedSegments
  split
  · exact h.parens
  · exact h

/-! ### The segments make a row -/

/-- A version set has no parentheses. -/
lemma flat_setWords (set : Version.RangeSet) : Flat (setWords set) := by
  have hranges : Flat (rangeWords (spelledRanges set)) := fun l hl => by
    obtain ⟨text, r, rfl⟩ := mem_rangeWords hl
    rfl
  exact List.forall_mem_cons.mpr ⟨rfl, hranges.append (by simp [Flat, Lexeme.nesting])⟩

/-- A condition on a version has no parentheses. -/
lemma flat_constraintWords (c : Option Constraint) : Flat (constraintWords c) := by
  rcases c with _ | ⟨op, v⟩ | set
  · exact nofun
  · simp [Flat, constraintWords, Lexeme.nesting]
  · exact List.forall_mem_cons.mpr ⟨rfl, flat_setWords set⟩

/-- Features have no parentheses besides those around them. -/
lemma flat_featureWords (first : String) (others : List String) :
    Flat (featureWords first others) := by
  intro l hl
  rcases mem_featureWords hl with rfl | ⟨f, rfl⟩ <;> rfl

/-- Arguments have no parentheses besides those around them. -/
lemma flat_argumentList (args : List String) : Flat (argumentList args) := by
  cases args with
  | nil => exact nofun
  | cons first others =>
    intro l hl
    rcases mem_argumentWords hl with rfl | ⟨a, rfl⟩ <;> rfl

/-- The parentheses of a module are those of its features. -/
lemma enclosed_package (name : String) (constraint : Option Constraint)
    (features : List String) : Enclosed (package name constraint features).words := by
  cases features with
  | nil => exact .of_flat (List.forall_mem_cons.mpr ⟨rfl, flat_constraintWords constraint⟩)
  | cons first others =>
    have hlist := Enclosed.of_list name (l := .openFeatures) rfl (flat_featureWords first others)
      (flat_constraintWords constraint)
    simpa [words, packageWords] using hlist

/-- The parentheses of a probe are those of its arguments. -/
lemma enclosed_probe (kind : Probe) (args : List String) : Enclosed (probe kind args).words :=
  .of_list kind.name (l := .mark .openParen) rfl (flat_argumentList args) nofun

/-- An operand without operators is a segment of its own. -/
theorem row_operand {e : Expr} (h : e.Proper) (henclosed : Enclosed e.words) :
    Row [.operand e.format e.words] :=
  .cons ⟨spelled_format h, henclosed⟩ .nil nofun

/-- A word that blanks set apart from the operands that it joins. -/
theorem sound_joint {symbol : String} {l : Lexeme} (hl : l.nesting = 0)
    (h : ∀ rest, Spells .plain .plain symbol.toList (' ' :: rest) [l]) :
    (Segment.joint (" " ++ symbol ++ " ") [l]).Sound := by
  refine ⟨by simp, by simpa [Flat] using hl, fun rest => ?_⟩
  have hblank (rest : List Char) : Spells .plain .plain [' '] rest [] := spells_blank _ _
  simpa using (hblank _).append ((h rest).append (hblank rest))

/-- A keyword between blanks spells itself. -/
lemma sound_joint_keyword (k : Keyword) :
    (Segment.joint (" " ++ k.text ++ " ") [.keyword k]).Sound :=
  sound_joint rfl fun rest => spells_keyword 0 k (endsExpr_cons (by decide) rest).endsName

/-- The text of an expression is a row of segments. -/
theorem row_segments {e : Expr} (h : e.Proper) : Row e.segments := by
  induction e with
  | compare op lhs rhs ihl ihr =>
    exact (row_enclosedSegments (ihl h.1) _ _).join (row_enclosedSegments (ihr h.2) _ _)
      (sound_joint rfl fun rest => spells_compare 0 op rest)
  | within operand set ih =>
    refine (row_enclosedSegments (ih h.1) _ _).join (.cons ?_ .nil nofun) (sound_joint_keyword _)
    exact ⟨.set h.2, .of_flat (flat_setWords set)⟩
  | tagged operand tag ih =>
    refine (row_enclosedSegments (ih h.1) _ _).join (.cons ?_ .nil nofun) (sound_joint_keyword _)
    exact ⟨.tag h.2, .of_flat (by simp [Flat, Lexeme.nesting])⟩
  | logical op lhs rhs ihl ihr =>
    exact (ihl h.1).join (row_enclosedSegments (ihr h.2) _ _)
      (sound_joint rfl fun rest => spells_logical 0 op _)
  | package name constraint features =>
    exact row_operand h (enclosed_package name constraint features)
  | probe kind args => exact row_operand h (enclosed_probe kind args)
  | _ => exact row_operand h (.of_flat (by simp [Flat, words, Lexeme.nesting]))

end Expr

end Requirements
