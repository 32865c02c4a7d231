import Mathlib.Logic.Basic
import Requirements.Proofs.Grammar.Derivation

/-!
# Parse trees

A parse tree records how words derive an expression: which rule of the grammar is applied at each
place, to which parts. It has a constructor for each alternative of each rule. Its words are those
that it derives, its meaning is the expression that they stand for, and the further conditions on a
program are on what it holds: its tags, its ranges, and the nesting of its parentheses.

The operands that connectives join to a first one are a symbol of the grammar of their own. Their
meaning is what they make of the expression in front of them, so that connectives group to the left.
-/

namespace Requirements

namespace Grammar

open Requirements.Expr (Strength)

/-- The symbols of the grammar of expressions: one for each place that demands a strength, and one
for the operands that connectives join to a first one. -/
inductive Symbol where
  | place (strength : Strength)
  | more
deriving DecidableEq, Repr

namespace Symbol

/-- What the words of a symbol stand for. -/
def Meaning : Symbol → Type
  | place _ => Expr
  | more => Expr → Expr

/-- The place in which the words of a symbol stand. -/
def strength : Symbol → Strength
  | place strength => strength
  | more => .logical

end Symbol

/-- The parse trees of a symbol. -/
inductive Tree : Symbol → Type
  | package (name : String) (h : Probe.ofName? name = none) : Tree (.place .primary)
  | features (name : String) (h : Probe.ofName? name = none) (first : String)
    (others : List String) : Tree (.place .primary)
  | probe (kind : Probe) (first : String) (others : List String) : Tree (.place .primary)
  | braces (name : String) : Tree (.place .primary)
  | text (value : String) : Tree (.place .primary)
  | version (value : Version) : Tree (.place .primary)
  | yes : Tree (.place .primary)
  | no : Tree (.place .primary)
  | parens (inner : Tree (.place .logical)) : Tree (.place .primary)
  | operand (operand : Tree (.place .primary)) : Tree (.place .ordering)
  | ordered (op : CompareOp) (h : op.isEquality = false) (lhs rhs : Tree (.place .primary)) :
    Tree (.place .ordering)
  | ordering (operand : Tree (.place .ordering)) : Tree (.place .equality)
  | equated (op : CompareOp) (h : op.isEquality = true) (lhs rhs : Tree (.place .ordering)) :
    Tree (.place .equality)
  | equality (operand : Tree (.place .equality)) : Tree (.place .within)
  | member (operand : Tree (.place .equality)) (first : String × Version.Range)
    (others : List (String × Version.Range)) : Tree (.place .within)
  | untagged (operand : Tree (.place .within)) : Tree (.place .tagged)
  | tagged (operand : Tree (.place .within)) (tag : String) : Tree (.place .tagged)
  | chain (first : Tree (.place .tagged)) (rest : Tree .more) : Tree (.place .logical)
  | nothing : Tree .more
  | join (op : LogicalOp) (operand : Tree (.place .tagged)) (rest : Tree .more) : Tree .more
deriving Repr

namespace Tree

/-- The words that the tree derives. -/
def words : {σ : Symbol} → Tree σ → List Lexeme
  | _, package name _ => [.name name]
  | _, features name _ first others =>
    .name name :: .openFeatures :: (featureWords first others ++ [.mark .closeParen])
  | _, probe kind first others =>
    .name kind.name :: .mark .openParen :: (argumentWords first others ++ [.mark .closeParen])
  | _, braces name => [.mark .openBrace, .name name, .mark .closeBrace]
  | _, text value => [.quoted value]
  | _, version value => [.version value]
  | _, yes => [.keyword .yes]
  | _, no => [.keyword .no]
  | _, parens inner => .mark .openParen :: (inner.words ++ [.mark .closeParen])
  | _, operand t | _, ordering t | _, equality t | _, untagged t => t.words
  | _, ordered op _ lhs rhs | _, equated op _ lhs rhs => lhs.words ++ .compare op :: rhs.words
  | _, member t first others =>
    t.words ++ .keyword .membership :: .openSet :: (rangeWords (first :: others) ++ [.closeSet])
  | _, tagged t tag => t.words ++ [.keyword .tagging, .mark .colon, .name tag]
  | _, chain first rest => first.words ++ rest.words
  | _, nothing => []
  | _, join op t rest => .logical op :: (t.words ++ rest.words)

/-- What the words stand for. Comparisons and set tests of bare modules are folded into conditions
on the modules. -/
def meaning : {σ : Symbol} → Tree σ → σ.Meaning
  | _, package name _ => Expr.package name none []
  | _, features name _ first others => Expr.package name none (first :: others)
  | _, probe kind first others => Expr.probe kind (first :: others)
  | _, braces name => braced name
  | _, text value => Expr.text value
  | _, version value => Expr.version value
  | _, yes => Expr.bool true
  | _, no => Expr.bool false
  | _, parens inner => inner.meaning
  | _, operand t => t.meaning
  | _, ordering t => t.meaning
  | _, equality t => t.meaning
  | _, untagged t => t.meaning
  | _, ordered op _ lhs rhs => Expr.comparison op lhs.meaning rhs.meaning
  | _, equated op _ lhs rhs => Expr.comparison op lhs.meaning rhs.meaning
  | _, member t first others => Expr.membership t.meaning ⟨(first :: others).map Prod.snd⟩
  | _, tagged t tag => Expr.tagged t.meaning tag
  | _, chain first rest => rest.meaning first.meaning
  | _, nothing => id
  | _, join op t rest => fun lhs => rest.meaning (.logical op lhs t.meaning)

/-- How deep its parentheses nest. -/
def depth : {σ : Symbol} → Tree σ → Nat
  | _, parens inner => inner.depth + 1
  | _, operand t | _, ordering t | _, equality t | _, untagged t | _, member t _ _
  | _, tagged t _ => t.depth
  | _, ordered _ _ lhs rhs => max lhs.depth rhs.depth
  | _, equated _ _ lhs rhs => max lhs.depth rhs.depth
  | _, chain first rest => max first.depth rest.depth
  | _, join _ t rest => max t.depth rest.depth
  | _, _ => 0

/-- Its tags. -/
def tags : {σ : Symbol} → Tree σ → List String
  | _, parens t => t.tags
  | _, operand t | _, ordering t | _, equality t | _, untagged t | _, member t _ _ => t.tags
  | _, tagged t tag => tag :: t.tags
  | _, ordered _ _ lhs rhs => lhs.tags ++ rhs.tags
  | _, equated _ _ lhs rhs => lhs.tags ++ rhs.tags
  | _, chain first rest => first.tags ++ rest.tags
  | _, join _ t rest => t.tags ++ rest.tags
  | _, _ => []

/-- The ranges of its set tests. -/
def ranges : {σ : Symbol} → Tree σ → List Version.Range
  | _, parens t => t.ranges
  | _, operand t | _, ordering t | _, equality t | _, untagged t | _, tagged t _ => t.ranges
  | _, member t first others => t.ranges ++ (first :: others).map Prod.snd
  | _, ordered _ _ lhs rhs => lhs.ranges ++ rhs.ranges
  | _, equated _ _ lhs rhs => lhs.ranges ++ rhs.ranges
  | _, chain first rest => first.ranges ++ rest.ranges
  | _, join _ t rest => t.ranges ++ rest.ranges
  | _, _ => []

/-- The further conditions on an expression: its parentheses nest at most `levels` deep, it has tags
only in the body of a choice, and the bounds of its ranges are in order. -/
structure Fits {σ : Symbol} (inChoice : Bool) (levels : Nat) (t : Tree σ) : Prop where
  depth : t.depth ≤ levels
  tags : inChoice = false → t.tags = []
  ranges : ∀ r ∈ t.ranges, r.isEmpty = false

end Tree

/-! ### Trees and derivations -/

namespace Symbol

/-- The words derive the meaning of a symbol. Operands continue whatever derives an expression in
front of them. -/
def Derives (inChoice : Bool) (levels : Nat) : (σ : Symbol) → List Lexeme → σ.Meaning → Prop
  | place strength, words, e => Grammar.Derives inChoice levels strength words e
  | more, words, f => ∀ left lhs, Grammar.Derives inChoice levels .logical left lhs →
    Grammar.Derives inChoice levels .logical (left ++ words) (f lhs)

/-- The meaning of a symbol has the tags. Operands add theirs to those of the expression in front of
them. -/
def HasTags : (σ : Symbol) → σ.Meaning → List String → Prop
  | place _, e, tags => e.tags = tags
  | more, f, tags => ∀ lhs, (f lhs).tags = lhs.tags ++ tags

end Symbol

namespace Tree

/-- The tags of a tree are those of its meaning. -/
theorem hasTags_meaning {σ : Symbol} (t : Tree σ) : σ.HasTags t.meaning t.tags := by
  induction t with
  | braces name =>
    unfold meaning braced
    cases Platform.ofName? name <;> rfl
  | parens _ ih => exact ih
  | operand _ ih => exact ih
  | ordering _ ih => exact ih
  | equality _ ih => exact ih
  | untagged _ ih => exact ih
  | ordered op _ lhs rhs ihl ihr =>
    exact (Expr.tags_comparison op lhs.meaning rhs.meaning).trans (congrArg₂ _ ihl ihr)
  | equated op _ lhs rhs ihl ihr =>
    exact (Expr.tags_comparison op lhs.meaning rhs.meaning).trans (congrArg₂ _ ihl ihr)
  | member t _ _ ih => exact (Expr.tags_membership t.meaning _).trans ih
  | tagged t tag ih => exact (Expr.tags_tagged t.meaning tag).trans (congrArg _ ih)
  | chain first rest ihf ihr => exact (ihr first.meaning).trans (congrArg (· ++ rest.tags) ihf)
  | nothing => exact fun lhs => (List.append_nil lhs.tags).symm
  | join op t rest iht ihr =>
    intro lhs
    have htags : (Expr.logical op lhs t.meaning).tags = lhs.tags ++ t.tags :=
      (Expr.tags_logical op lhs t.meaning).trans (congrArg _ iht)
    exact (ihr _).trans (by rw [htags, tags, List.append_assoc])
  | _ => rfl

variable {inChoice : Bool} {levels : Nat}

/-- A tree with two parts meets the conditions if both of them do. -/
theorem fits_iff_of_parts {σ τ υ : Symbol} {t : Tree σ} {l : Tree τ} {r : Tree υ}
    (hdepth : t.depth = max l.depth r.depth) (htags : t.tags = l.tags ++ r.tags)
    (hranges : t.ranges = l.ranges ++ r.ranges) :
    t.Fits inChoice levels ↔ l.Fits inChoice levels ∧ r.Fits inChoice levels := by
  constructor
  · rintro ⟨h, h', h''⟩
    rw [hdepth, Nat.max_le] at h
    rw [htags, List.append_eq_nil_iff] at h'
    rw [hranges, List.forall_mem_append] at h''
    exact ⟨⟨h.1, fun hc => (h' hc).1, h''.1⟩, h.2, fun hc => (h' hc).2, h''.2⟩
  · rintro ⟨hl, hr⟩
    refine ⟨?_, fun hc => ?_, ?_⟩
    · rw [hdepth]
      exact Nat.max_le.mpr ⟨hl.depth, hr.depth⟩
    · rw [htags, hl.tags hc, hr.tags hc, List.append_nil]
    · rw [hranges]
      exact List.forall_mem_append.mpr ⟨hl.ranges, hr.ranges⟩

/-- A tree without parentheses, tags and ranges meets the conditions. -/
theorem fits_of_bare {σ : Symbol} {t : Tree σ} (hdepth : t.depth = 0) (htags : t.tags = [])
    (hranges : t.ranges = []) : t.Fits inChoice levels where
  depth := hdepth ▸ Nat.zero_le levels
  tags _ := htags
  ranges := by simp [hranges]

/-- The words of a tree that meets the conditions derive its meaning. -/
theorem Fits.derives {σ : Symbol} {t : Tree σ} (h : t.Fits inChoice levels) :
    σ.Derives inChoice levels t.words t.meaning := by
  induction t generalizing levels with
  | package name hname => exact .name hname
  | features name hname first others => exact .features first others hname
  | probe kind first others => exact .probe first others (by cases kind <;> rfl)
  | braces name => exact .braces name
  | text value => exact .text value
  | version value => exact .version value
  | yes => exact .yes
  | no => exact .no
  | parens inner ih =>
    have hdepth : inner.depth + 1 ≤ levels := h.depth
    obtain ⟨levels, rfl⟩ : ∃ l, levels = l + 1 := ⟨levels - 1, by omega⟩
    exact .parens (ih ⟨Nat.le_of_succ_le_succ hdepth, h.tags, h.ranges⟩)
  | operand t ih => exact .lift rfl (ih ⟨h.depth, h.tags, h.ranges⟩)
  | ordering t ih => exact .lift rfl (ih ⟨h.depth, h.tags, h.ranges⟩)
  | equality t ih => exact .lift rfl (ih ⟨h.depth, h.tags, h.ranges⟩)
  | untagged t ih => exact .lift rfl (ih ⟨h.depth, h.tags, h.ranges⟩)
  | ordered op hop lhs rhs ihl ihr =>
    obtain ⟨hl, hr⟩ := (fits_iff_of_parts rfl rfl rfl).mp h
    have hplace : operandStrength op = .primary := by simp [operandStrength, hop]
    have hall : Derives inChoice levels (.ofCompare op) _ _ :=
      .compare op (by rw [hplace]; exact ihl hl) (by rw [hplace]; exact ihr hr)
    rwa [Strength.ofCompare, hop] at hall
  | equated op hop lhs rhs ihl ihr =>
    obtain ⟨hl, hr⟩ := (fits_iff_of_parts rfl rfl rfl).mp h
    have hplace : operandStrength op = .ordering := by simp [operandStrength, hop]
    have hall : Derives inChoice levels (.ofCompare op) _ _ :=
      .compare op (by rw [hplace]; exact ihl hl) (by rw [hplace]; exact ihr hr)
    rwa [Strength.ofCompare, hop] at hall
  | member t first others ih =>
    have hranges := List.forall_mem_append.mp h.ranges
    refine .within (ih ⟨h.depth, h.tags, hranges.1⟩) (List.cons_ne_nil first others) fun r hr => ?_
    exact hranges.2 r.2 (List.mem_map.mpr ⟨r, hr, rfl⟩)
  | tagged t tag ih =>
    have hchoice : inChoice = true := by
      rw [← Bool.not_eq_false]
      intro hchoice
      exact absurd (h.tags hchoice) (List.cons_ne_nil tag t.tags)
    refine .tagged tag hchoice (ih ⟨h.depth, fun hfalse => ?_, h.ranges⟩)
    rw [hchoice] at hfalse
    cases hfalse
  | chain first rest ihf ihr =>
    obtain ⟨hfirst, hrest⟩ := (fits_iff_of_parts rfl rfl rfl).mp h
    exact ihr hrest first.words first.meaning (.lift rfl (ihf hfirst))
  | nothing => exact fun left lhs hlhs => (List.append_nil left).symm ▸ hlhs
  | join op t rest iht ihr =>
    obtain ⟨ht, hrest⟩ := (fits_iff_of_parts rfl rfl rfl).mp h
    intro left lhs hlhs
    have hall := ihr hrest _ _ (.logical op hlhs (iht ht))
    rwa [List.append_assoc] at hall

end Tree

/-- The tree derives the expression from the words and meets the conditions. -/
structure Tree.Parses {strength : Strength} (inChoice : Bool) (levels : Nat)
    (t : Tree (.place strength)) (words : List Lexeme) (e : Expr) : Prop where
  fits : t.Fits inChoice levels
  words : t.words = words
  meaning : t.meaning = e

/-- What the words derive has a tree. Since operands are joined to those before, a chain is followed
with the operands that are still to come. -/
theorem Derives.exists_tree {inChoice : Bool} {levels : Nat} {strength : Strength}
    {words : List Lexeme} {e : Expr} (h : Derives inChoice levels strength words e) :
    (∃ t : Tree (.place strength), t.Parses inChoice levels words e) ∧
      (strength = .logical → ∀ rest : Tree .more, rest.Fits inChoice levels →
        ∃ t : Tree (.place .logical), t.Parses inChoice levels (words ++ rest.words)
          (rest.meaning e)) := by
  induction h with
  | @name levels name hname =>
    exact ⟨⟨.package name hname, Tree.fits_of_bare rfl rfl rfl, rfl, rfl⟩, by simp⟩
  | @features levels name first others hname =>
    exact ⟨⟨.features name hname first others, Tree.fits_of_bare rfl rfl rfl, rfl, rfl⟩, by simp⟩
  | @probe levels name kind first others hkind =>
    have hname : name = kind.name := by
      have hfound := List.find?_some hkind
      exact (by simpa using hfound : kind.name = name).symm
    subst hname
    exact ⟨⟨.probe kind first others, Tree.fits_of_bare rfl rfl rfl, rfl, rfl⟩, by simp⟩
  | braces name => exact ⟨⟨.braces name, Tree.fits_of_bare rfl rfl rfl, rfl, rfl⟩, by simp⟩
  | text value => exact ⟨⟨.text value, Tree.fits_of_bare rfl rfl rfl, rfl, rfl⟩, by simp⟩
  | version value => exact ⟨⟨.version value, Tree.fits_of_bare rfl rfl rfl, rfl, rfl⟩, by simp⟩
  | yes => exact ⟨⟨.yes, Tree.fits_of_bare rfl rfl rfl, rfl, rfl⟩, by simp⟩
  | no => exact ⟨⟨.no, Tree.fits_of_bare rfl rfl rfl, rfl, rfl⟩, by simp⟩
  | parens _ ih =>
    obtain ⟨t, ⟨hdepth, htags, hranges⟩, rfl, rfl⟩ := ih.1
    exact ⟨⟨.parens t, ⟨Nat.succ_le_succ hdepth, htags, hranges⟩, rfl, rfl⟩, by simp⟩
  | @lift levels strength stronger words e hrank _ ih =>
    obtain ⟨t, hfits, rfl, rfl⟩ := ih.1
    cases strength with
    | primary => cases stronger <;> cases hrank
    | ordering =>
      obtain rfl : stronger = .primary := Strength.rank_injective hrank.symm
      exact ⟨⟨.operand t, ⟨hfits.depth, hfits.tags, hfits.ranges⟩, rfl, rfl⟩, by simp⟩
    | equality =>
      obtain rfl : stronger = .ordering := Strength.rank_injective hrank.symm
      exact ⟨⟨.ordering t, ⟨hfits.depth, hfits.tags, hfits.ranges⟩, rfl, rfl⟩, by simp⟩
    | within =>
      obtain rfl : stronger = .equality := Strength.rank_injective hrank.symm
      exact ⟨⟨.equality t, ⟨hfits.depth, hfits.tags, hfits.ranges⟩, rfl, rfl⟩, by simp⟩
    | tagged =>
      obtain rfl : stronger = .within := Strength.rank_injective hrank.symm
      exact ⟨⟨.untagged t, ⟨hfits.depth, hfits.tags, hfits.ranges⟩, rfl, rfl⟩, by simp⟩
    | logical =>
      obtain rfl : stronger = .tagged := Strength.rank_injective hrank.symm
      have hchain (rest : Tree .more) (hrest : rest.Fits inChoice levels) :
          (Tree.chain t rest).Parses inChoice levels (t.words ++ rest.words)
            (rest.meaning t.meaning) :=
        ⟨(Tree.fits_iff_of_parts rfl rfl rfl).mpr ⟨hfits, hrest⟩, rfl, rfl⟩
      refine ⟨⟨.chain t .nothing, ?_⟩, fun _ rest hrest => ⟨.chain t rest, hchain rest hrest⟩⟩
      have hall := hchain .nothing (Tree.fits_of_bare rfl rfl rfl)
      rwa [Tree.words, List.append_nil] at hall
  | @compare levels left right lhs rhs op _ _ ihl ihr =>
    refine ⟨?_, by unfold Strength.ofCompare; split <;> simp⟩
    cases hop : op.isEquality with
    | true =>
      have hplace : operandStrength op = .ordering := by simp [operandStrength, hop]
      have hstrength : Strength.ofCompare op = .equality := by simp [Strength.ofCompare, hop]
      rw [hplace] at ihl ihr
      obtain ⟨l, hl, rfl, rfl⟩ := ihl.1
      obtain ⟨r, hr, rfl, rfl⟩ := ihr.1
      rw [hstrength]
      exact ⟨.equated op hop l r, (Tree.fits_iff_of_parts rfl rfl rfl).mpr ⟨hl, hr⟩, rfl, rfl⟩
    | false =>
      have hplace : operandStrength op = .primary := by simp [operandStrength, hop]
      have hstrength : Strength.ofCompare op = .ordering := by simp [Strength.ofCompare, hop]
      rw [hplace] at ihl ihr
      obtain ⟨l, hl, rfl, rfl⟩ := ihl.1
      obtain ⟨r, hr, rfl, rfl⟩ := ihr.1
      rw [hstrength]
      exact ⟨.ordered op hop l r, (Tree.fits_iff_of_parts rfl rfl rfl).mpr ⟨hl, hr⟩, rfl, rfl⟩
  | @within levels words e ranges _ hne hfull ih =>
    obtain ⟨t, hfits, rfl, rfl⟩ := ih.1
    obtain ⟨first, others, rfl⟩ := List.exists_cons_of_ne_nil hne
    refine ⟨⟨.member t first others, ⟨hfits.depth, hfits.tags, ?_⟩, rfl, rfl⟩, by simp⟩
    refine List.forall_mem_append.mpr ⟨hfits.ranges, fun r hr => ?_⟩
    obtain ⟨spelled, hspelled, rfl⟩ := List.mem_map.mp hr
    exact hfull spelled hspelled
  | tagged tag hchoice _ ih =>
    obtain ⟨t, hfits, rfl, rfl⟩ := ih.1
    refine ⟨⟨.tagged t tag, ⟨hfits.depth, fun hfalse => ?_, hfits.ranges⟩, rfl, rfl⟩, by simp⟩
    rw [hchoice] at hfalse
    cases hfalse
  | @logical levels left right lhs rhs op _ _ ihl ihr =>
    obtain ⟨r, hr, rfl, rfl⟩ := ihr.1
    have hjoin (rest : Tree .more) (hrest : rest.Fits inChoice levels) :
        ∃ t : Tree (.place .logical), t.Parses inChoice levels
          (left ++ .logical op :: r.words ++ rest.words)
          (rest.meaning (.logical op lhs r.meaning)) := by
      -- The last operand joins those still to come, so that the operands before it come first.
      have hmore : (Tree.join op r rest).Fits inChoice levels :=
        (Tree.fits_iff_of_parts rfl rfl rfl).mpr ⟨hr, hrest⟩
      obtain ⟨t, ht⟩ := ihl.2 rfl (.join op r rest) hmore
      refine ⟨t, ht.fits, ?_, ht.meaning⟩
      rw [ht.words, Tree.words, List.append_assoc, List.cons_append]
    refine ⟨?_, fun _ => hjoin⟩
    obtain ⟨t, ht⟩ := hjoin .nothing (Tree.fits_of_bare rfl rfl rfl)
    rw [Tree.words, List.append_nil] at ht
    exact ⟨t, ht⟩

/-- Words derive an expression exactly if a tree derives it from them and meets the conditions. -/
theorem derives_iff_exists_tree {inChoice : Bool} {levels : Nat} {strength : Strength}
    {words : List Lexeme} {e : Expr} : Derives inChoice levels strength words e ↔
      ∃ t : Tree (.place strength), t.Parses inChoice levels words e := by
  constructor
  · intro h
    exact h.exists_tree.1
  · rintro ⟨t, hfits, rfl, rfl⟩
    exact hfits.derives

end Grammar

end Requirements
