import Mathlib.Tactic.Lemma
import Requirements.Proofs.Grammar.Derivation
import Requirements.Proofs.Token.Lines

/-!
# Expressions in their places

The body of a definition stands between an assignment sign and a semicolon, the master expression
behind the last semicolon of the definitions, and neither holds such a word. So the words of a
script fall in one way only into those of an expression and those around it, and an expression can
be replaced by another without touching the rest.
-/

namespace Requirements

/-- The expressions of a script: the bodies of its definitions, then its master expression. -/
def Script.expressions (s : Script) : List Expr :=
  s.definitions.map Definition.body ++ s.master.toList

/-- Whether the word stands in front of an expression or behind one, and in none. -/
def Lexeme.separates : Lexeme → Bool
  | mark .assign | mark .semicolon => true
  | _ => false

/-- None of the words sets an expression apart from what is around it. -/
def Unseparated (words : List Lexeme) : Prop :=
  ∀ l ∈ words, l.separates = false

instance (words : List Lexeme) : Decidable (Unseparated words) :=
  inferInstanceAs (Decidable (∀ l ∈ words, l.separates = false))

/-- The words are those around the expression of a script that has the given number of expressions
in front of it. -/
structure Frames (index : Nat) (front back : List Lexeme) : Prop where
  count : front.count (.mark .semicolon) = index
  last : ∀ l ∈ front.getLast?, l.separates = true
  head : ∀ l ∈ back.head?, l = .mark .semicolon

/-- Words that set nothing apart hold no semicolon. -/
lemma Unseparated.count_eq {words : List Lexeme} (h : Unseparated words) :
    words.count (.mark .semicolon) = 0 := by
  refine List.count_eq_zero.mpr fun hmem => ?_
  cases h _ hmem

namespace Frames

variable {index : Nat} {front front' words words' back back' : List Lexeme}

/-- An expression does not reach into the words behind another. -/
theorem eq_nil_of_body_append (h : Frames index front back) (hwords' : Unseparated words')
    {more : List Lexeme} (hmore : words' = words ++ more) (hback : back = more ++ back') :
    more = [] := by
  cases more with
  | nil => rfl
  | cons l more =>
    obtain rfl := h.head l (by simp [hback])
    cases hwords' (.mark .semicolon) (by simp [hmore])

/-- With as many semicolons in front, an expression does not begin later than another. -/
theorem eq_nil_of_front_append (h : Frames index front back) (h' : Frames index front' back')
    (hwords : Unseparated words) {more rest : List Lexeme} (hmore : front' = front ++ more)
    (hrest : words ++ back = more ++ rest) : more = [] := by
  have hcount : more.count (.mark .semicolon) = 0 := by
    have hall := h'.count
    rw [hmore, List.count_append, h.count] at hall
    omega
  have hnot : Lexeme.mark .semicolon ∉ more := List.count_eq_zero.mp hcount
  by_contra hne
  have hmem : more.getLast hne ∈ words := by
    rcases List.append_eq_append_iff.mp hrest with ⟨beyond, hbeyond, hback⟩ | ⟨behind, hbehind, -⟩
    · cases beyond with
      | nil =>
        rw [List.append_nil] at hbeyond
        exact hbeyond ▸ List.getLast_mem hne
      | cons l beyond =>
        -- What reaches beyond the expression holds the semicolon behind it.
        obtain rfl := h.head l (by simp [hback])
        exact absurd (by simp [hbeyond]) hnot
    · rw [hbehind]
      exact List.mem_append_left behind (List.getLast_mem hne)
  have hlast : (more.getLast hne).separates = true := by
    refine h'.last _ ?_
    rw [hmore, List.getLast?_append, List.getLast?_eq_some_getLast hne]
    rfl
  rw [hwords _ hmem] at hlast
  cases hlast

/-- There is one way only to part words into those of an expression and those around it. -/
theorem unique (h : Frames index front back) (h' : Frames index front' back')
    (hwords : Unseparated words) (hwords' : Unseparated words')
    (heq : front ++ (words ++ back) = front' ++ (words' ++ back')) :
    front = front' ∧ words = words' ∧ back = back' := by
  obtain rfl : front = front' := by
    rcases List.append_eq_append_iff.mp heq with ⟨more, hmore, hrest⟩ | ⟨more, hmore, hrest⟩
    · rw [hmore, h.eq_nil_of_front_append h' hwords hmore hrest, List.append_nil]
    · rw [hmore, h'.eq_nil_of_front_append h hwords' hmore hrest, List.append_nil]
  refine ⟨rfl, ?_⟩
  rcases List.append_eq_append_iff.mp (List.append_cancel_left heq) with
    ⟨more, hmore, hrest⟩ | ⟨more, hmore, hrest⟩
  · obtain rfl := h.eq_nil_of_body_append hwords' hmore hrest
    exact ⟨by simpa using hmore.symm, hrest⟩
  · obtain rfl := h'.eq_nil_of_body_append hwords hmore hrest
    exact ⟨by simpa using hmore, hrest.symm⟩

/-- The words still frame the expression with those of one more definition in front of them. -/
theorem cons {definition : List Lexeme} (h : Frames index front back)
    (hcount : definition.count (.mark .semicolon) = 1)
    (hlast : definition.getLast? = some (.mark .semicolon)) :
    Frames (index + 1) (definition ++ front) back where
  count := by rw [List.count_append, hcount, h.count, Nat.add_comm]
  last l hl := by
    rw [List.getLast?_append, hlast] at hl
    cases hfront : front.getLast? with
    | none =>
      rw [hfront] at hl
      cases hl
      rfl
    | some k =>
      rw [hfront] at hl
      cases hl
      exact h.last l hfront
  head := h.head

end Frames

namespace Grammar

open Lexer
open Requirements.Expr (Strength)

/-! ### The words of an expression -/

section

variable {inChoice : Bool} {levels : Nat} {strength : Strength} {words : List Lexeme} {e : Expr}

/-- No word of an expression sets it apart. -/
theorem Derives.unseparated (h : Derives inChoice levels strength words e) :
    Unseparated words := by
  induction h with
  | features first others _ =>
    have hlist : Unseparated (featureWords first others) := fun l hl => by
      rcases mem_featureWords hl with rfl | ⟨f, rfl⟩ <;> rfl
    simpa [Unseparated, or_imp, forall_and, Lexeme.separates] using hlist
  | probe first others _ =>
    have hlist : Unseparated (argumentWords first others) := fun l hl => by
      rcases mem_argumentWords hl with rfl | ⟨a, rfl⟩ <;> rfl
    simpa [Unseparated, or_imp, forall_and, Lexeme.separates] using hlist
  | parens _ ih => simpa [Unseparated, or_imp, forall_and, Lexeme.separates] using ih
  | lift _ _ ih => exact ih
  | compare op _ _ ihl ihr | logical op _ _ ihl ihr =>
    exact List.forall_mem_append.mpr ⟨ihl, List.forall_mem_cons.mpr ⟨rfl, ihr⟩⟩
  | @within levels words e ranges _ _ _ ih =>
    have hranges : Unseparated (rangeWords ranges) := fun l hl => by
      obtain ⟨text, r, rfl⟩ := mem_rangeWords hl
      rfl
    refine List.forall_mem_append.mpr ⟨ih, ?_⟩
    simpa [Unseparated, or_imp, forall_and, Lexeme.separates] using hranges
  | tagged tag _ _ ih => exact List.forall_mem_append.mpr ⟨ih, by simp [Lexeme.separates]⟩
  | _ => simp [Unseparated, Lexeme.separates]

/-- The region behind words is found word by word. -/
lemma behind_cons (r : Region) (l : Lexeme) (words : List Lexeme) :
    r.behind (l :: words) = (r.after (some l)).behind words := rfl

/-- Words that leave the region as it is do so one after the other. -/
theorem behind_eq_self {r : Region} (h : ∀ l ∈ words, r.after (some l) = r) :
    r.behind words = r := by
  induction words with
  | nil => rfl
  | cons l words ih =>
    rw [behind_cons, h l List.mem_cons_self]
    exact ih fun k hk => h k (List.mem_cons_of_mem l hk)

/-- Behind an expression, the text is where it was in front of it. -/
theorem Derives.behind_eq (h : Derives inChoice levels strength words e) :
    Region.plain.behind words = .plain := by
  induction h with
  | features first others _ =>
    have hlist : Region.features.behind (featureWords first others) = .features := by
      refine behind_eq_self fun l hl => ?_
      rcases mem_featureWords hl with rfl | ⟨f, rfl⟩ <;> rfl
    exact (Region.behind_append _ _ _).trans (congrArg (Region.behind · _) hlist)
  | probe first others _ =>
    have hlist : Region.plain.behind (argumentWords first others) = .plain := by
      refine behind_eq_self fun l hl => ?_
      rcases mem_argumentWords hl with rfl | ⟨a, rfl⟩ <;> rfl
    exact (Region.behind_append _ _ _).trans (congrArg (Region.behind · _) hlist)
  | parens _ ih => exact (Region.behind_append _ _ _).trans (congrArg (Region.behind · _) ih)
  | lift _ _ ih => exact ih
  | compare op _ _ ihl ihr | logical op _ _ ihl ihr =>
    rw [Region.behind_append, ihl]
    exact ihr
  | @within levels words e ranges _ _ _ ih =>
    have hranges : Region.set.behind (rangeWords ranges) = .set := by
      refine behind_eq_self fun l hl => ?_
      obtain ⟨text, r, rfl⟩ := mem_rangeWords hl
      rfl
    rw [Region.behind_append, ih]
    exact (Region.behind_append _ _ _).trans (congrArg (Region.behind · _) hranges)
  | tagged tag _ _ ih =>
    rw [Region.behind_append, ih]
    rfl
  | _ => rfl

end

/-! ### The words of definitions -/

/-- The words of a definition, given those of its body. -/
def definitionWords (keyword : Lexeme) (name : String) (body : List Lexeme) : List Lexeme :=
  keyword :: .name name :: .mark .assign :: (body ++ [.mark .semicolon])

/-- The words derive definitions with the bodies. -/
inductive DerivesBodies : List Lexeme → List Expr → Prop
  | nil : DerivesBodies [] []
  | cons {keyword : Lexeme} {kind : DefinitionKind} {words rest : List Lexeme} {body : Expr}
    {bodies : List Expr} (name : String) :
    Parser.announced? (some keyword) = some kind →
    Derives (kind == .choice) maxNesting .logical words body → DerivesBodies rest bodies →
    DerivesBodies (definitionWords keyword name words ++ rest) (body :: bodies)

/-- The definitions of a program are bodies in frames. -/
lemma DerivesDefinitions.bodies {tokens : List Token} {definitions : List Definition}
    (h : DerivesDefinitions tokens definitions) :
    DerivesBodies (tokens.map Token.lexeme) (definitions.map Definition.body) := by
  induction h with
  | nil => exact .nil
  | @cons kind keyword taken rest name words body definitions hkeyword htaken hbody _ ih =>
    have hcons := DerivesBodies.cons name hkeyword hbody ih
    rw [definitionWords, ← htaken] at hcons
    simpa using hcons

/-- Tokens with words that derive bodies derive definitions with these bodies. -/
theorem DerivesBodies.exists_definitions {words : List Lexeme} {bodies : List Expr}
    (h : DerivesBodies words bodies) {tokens : List Token}
    (htokens : tokens.map Token.lexeme = words) :
    ∃ definitions, DerivesDefinitions tokens definitions ∧
      definitions.map Definition.body = bodies := by
  induction h generalizing tokens with
  | nil =>
    obtain rfl := List.map_eq_nil_iff.mp htokens
    exact ⟨[], .nil, rfl⟩
  | cons name hkeyword hbody _ ih =>
    obtain ⟨front, behind, rfl, hfront, hbehind⟩ := List.map_eq_append_iff.mp htokens
    obtain ⟨keyword, taken, rfl, rfl, htaken⟩ := List.map_eq_cons_iff.mp hfront
    obtain ⟨definitions, hdefinitions, rfl⟩ := ih hbehind
    exact ⟨_, .cons hkeyword htaken hbody hdefinitions, rfl⟩

section

variable {keyword : Lexeme} {kind : DefinitionKind} {inChoice : Bool} {levels : Nat}
  {strength : Strength} {words : List Lexeme} {e : Expr}

/-- What announces a definition is a keyword. -/
lemma exists_keyword_of_announced (h : Parser.announced? (some keyword) = some kind) :
    ∃ k, keyword = .keyword k := by
  cases keyword with
  | keyword k => exact ⟨k, rfl⟩
  | _ => cases h

/-- A definition has one semicolon, since its body has none. -/
lemma count_definitionWords (hkeyword : Parser.announced? (some keyword) = some kind)
    (h : Derives inChoice levels strength words e) (name : String) :
    (definitionWords keyword name words).count (.mark .semicolon) = 1 := by
  obtain ⟨k, rfl⟩ := exists_keyword_of_announced hkeyword
  simp [definitionWords, h.unseparated.count_eq]

/-- A definition ends with its semicolon. -/
lemma getLast?_definitionWords (keyword : Lexeme) (name : String) (words : List Lexeme) :
    (definitionWords keyword name words).getLast? = some (.mark .semicolon) :=
  List.getLast?_concat (l := keyword :: .name name :: .mark .assign :: words)

/-- No version set or feature list stays open behind a definition. -/
lemma behind_definitionWords (hkeyword : Parser.announced? (some keyword) = some kind)
    (h : Derives inChoice levels strength words e) (name : String) :
    Region.plain.behind (definitionWords keyword name words) = .plain := by
  obtain ⟨k, rfl⟩ := exists_keyword_of_announced hkeyword
  exact (Region.behind_append _ _ _).trans (congrArg (Region.behind · _) h.behind_eq)

end

/-- The words of definitions frame what comes behind them. -/
theorem DerivesBodies.frames {words back : List Lexeme} {bodies : List Expr}
    (h : DerivesBodies words bodies) (hback : ∀ l ∈ back.head?, l = .mark .semicolon) :
    Frames bodies.length words back ∧ Region.plain.behind words = .plain := by
  induction h with
  | nil => exact ⟨⟨rfl, nofun, hback⟩, rfl⟩
  | cons name hkeyword hbody _ ih =>
    obtain ⟨hframes, hregion⟩ := ih
    refine ⟨hframes.cons (count_definitionWords hkeyword hbody name)
      (getLast?_definitionWords _ _ _), ?_⟩
    rw [Region.behind_append, behind_definitionWords hkeyword hbody, hregion]

/-- A body stands between words that frame it, and can be replaced there. -/
theorem DerivesBodies.exists_frame {words : List Lexeme} {bodies : List Expr}
    (h : DerivesBodies words bodies) {index : Nat} {e : Expr} (he : bodies[index]? = some e) :
    ∃ front body back inChoice, words = front ++ (body ++ .mark .semicolon :: back) ∧
      Frames index front (.mark .semicolon :: back) ∧ Region.plain.behind front = .plain ∧
      Derives inChoice maxNesting .logical body e ∧
      ∀ body' e', Derives inChoice maxNesting .logical body' e' →
        DerivesBodies (front ++ (body' ++ .mark .semicolon :: back)) (bodies.set index e') := by
  induction h generalizing index with
  | nil => cases he
  | @cons keyword kind words rest body bodies name hkeyword hbody hrest ih =>
    cases index with
    | zero =>
      obtain rfl : body = e := Option.some.inj he
      obtain ⟨k, rfl⟩ := exists_keyword_of_announced hkeyword
      refine ⟨[.keyword k, .name name, .mark .assign], words, rest, _, ?_, ⟨?_, ?_, ?_⟩, rfl, hbody,
        fun body' e' hbody' => ?_⟩
      · simp [definitionWords]
      · simp
      · simp [Lexeme.separates]
      · simp
      · have hcons := DerivesBodies.cons name hkeyword hbody' hrest
        simpa [definitionWords] using hcons
    | succ index =>
      obtain ⟨front, inner, back, inChoice, rfl, hframes, hregion, hinner, hreplace⟩ := ih he
      refine ⟨definitionWords keyword name words ++ front, inner, back, inChoice, ?_, ?_, ?_,
        hinner, fun body' e' hbody' => ?_⟩
      · rw [List.append_assoc]
      · exact hframes.cons (count_definitionWords hkeyword hbody name)
          (getLast?_definitionWords _ _ _)
      · rw [Region.behind_append, behind_definitionWords hkeyword hbody, hregion]
      · rw [List.append_assoc]
        exact .cons name hkeyword hbody (hreplace body' e' hbody')

/-! ### The words of scripts -/

/-- In the words of a script, those of one of its expressions, with the words around them. Where
other words derive another expression with the same tags, they can take their place. -/
structure Framed (s : Script) (index : Nat) (words : List Lexeme) (e : Expr) where
  front : List Lexeme
  body : List Lexeme
  back : List Lexeme
  inChoice : Bool
  eq_words : words = front ++ (body ++ back)
  frames : Frames index front back
  region : Region.plain.behind front = .plain
  derives : Derives inChoice maxNesting .logical body e
  replace : ∀ body' e', Derives inChoice maxNesting .logical body' e' → e'.tags = e.tags →
    ∀ tokens : List Token, tokens.map Token.lexeme = front ++ (body' ++ back) →
      ∃ s', DerivesScript tokens s' ∧ s'.expressions = s.expressions.set index e'

/-- What is put in the place of something that looks the same is not seen. -/
theorem map_set_eq {α β : Type} {f : α → β} {l : List α} {index : Nat} {a b : α}
    (ha : l[index]? = some a) (hf : f b = f a) : (l.set index b).map f = l.map f := by
  induction l generalizing index with
  | nil => rfl
  | cons c l ih =>
    cases index with
    | zero =>
      obtain rfl : c = a := Option.some.inj ha
      simp [hf]
    | succ index => simp [ih ha]

/-- Tokens with words that derive bodies and then a master expression derive a script. -/
theorem DerivesBodies.exists_script {front back : List Lexeme} {bodies : List Expr}
    {master : Option Expr} (h : DerivesBodies front bodies) (hmaster : DerivesMaster back master)
    (hnodup : (bodies.flatMap Expr.tags).Nodup) {tokens : List Token}
    (htokens : tokens.map Token.lexeme = front ++ back) :
    ∃ s, DerivesScript tokens s ∧ s.expressions = bodies ++ master.toList := by
  obtain ⟨before, behind, rfl, hbefore, rfl⟩ := List.map_eq_append_iff.mp htokens
  obtain ⟨definitions, hdefinitions, rfl⟩ := h.exists_definitions hbefore
  rw [List.flatMap_map] at hnodup
  exact ⟨⟨definitions, master⟩, ⟨before, behind, rfl, hdefinitions, hmaster, hnodup⟩, rfl⟩

/-- A master expression stands behind the definitions, up to the semicolon that may follow it. -/
theorem DerivesMaster.exists_back {words : List Lexeme} {e : Expr}
    (h : DerivesMaster words (some e)) :
    ∃ body back, words = body ++ back ∧ (∀ l ∈ back.head?, l = .mark .semicolon) ∧
      Derives false maxNesting .logical body e ∧
      ∀ body' e', Derives false maxNesting .logical body' e' →
        DerivesMaster (body' ++ back) (some e') := by
  cases h with
  | plain h =>
    refine ⟨words, [], (List.append_nil _).symm, nofun, h, fun body' e' h' => ?_⟩
    rw [List.append_nil]
    exact .plain h'
  | @closed words _ h =>
    exact ⟨words, [.mark .semicolon], rfl, by simp, h, fun body' e' h' => .closed h'⟩

/-- Each expression of a script stands in its place. -/
theorem DerivesScript.exists_framed {tokens : List Token} {s : Script} (h : DerivesScript tokens s)
    {index : Nat} {e : Expr} (he : s.expressions[index]? = some e) :
    Nonempty (Framed s index (tokens.map Token.lexeme) e) := by
  obtain ⟨before, behind, rfl, hdefinitions, hmaster, hnodup⟩ := h
  have hbodies := hdefinitions.bodies
  rw [← List.flatMap_map Definition.body Expr.tags] at hnodup
  rw [List.map_append]
  rcases Nat.lt_or_ge index (s.definitions.map Definition.body).length with hindex | hindex
  · -- The expression is the body of a definition.
    rw [Script.expressions, List.getElem?_append_left hindex] at he
    obtain ⟨front, body, back, inChoice, hwords, hframes, hregion, hbody, hreplace⟩ :=
      hbodies.exists_frame he
    refine ⟨⟨front, body, .mark .semicolon :: back ++ behind.map Token.lexeme, inChoice, ?_, ?_,
      hregion, hbody, fun body' e' hbody' htags tokens htokens => ?_⟩⟩
    · simp [hwords]
    · exact ⟨hframes.count, hframes.last, hframes.head⟩
    · rw [Script.expressions, List.set_append_left _ _ hindex]
      refine (hreplace body' e' hbody').exists_script hmaster ?_ (by simp [htokens])
      rwa [List.flatMap_def, map_set_eq he htags, ← List.flatMap_def]
  · -- The expression is the master expression.
    rw [Script.expressions, List.getElem?_append_right hindex] at he
    obtain ⟨hlast, hsome⟩ : index - (s.definitions.map Definition.body).length = 0 ∧
        s.master = some e := by
      cases hs : s.master with
      | none => simp [hs] at he
      | some e' => simpa [hs, List.getElem?_singleton, and_comm] using he
    obtain rfl : index = (s.definitions.map Definition.body).length := by omega
    rw [hsome] at hmaster
    obtain ⟨body, back, hwords, hback, hbody, hreplace⟩ := hmaster.exists_back
    obtain ⟨hframes, hregion⟩ := hbodies.frames hback
    refine ⟨⟨_, body, back, false, ?_, hframes, hregion, hbody,
      fun body' e' hbody' _ tokens htokens => ?_⟩⟩
    · rw [hwords]
    · obtain ⟨s', hs', hexpressions⟩ :=
        hbodies.exists_script (hreplace body' e' hbody') hnodup htokens
      refine ⟨s', hs', hexpressions.trans ?_⟩
      rw [Script.expressions, List.set_append_right _ _ hindex, hlast, hsome]
      rfl

end Grammar
end Requirements
