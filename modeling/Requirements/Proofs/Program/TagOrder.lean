import Mathlib.Data.List.Nodup
import Mathlib.Tactic.Lemma
import Requirements.Proofs.Expr.Nodes
import Requirements.Proofs.Grammar.Soundness

/-!
# Tags in the order of the text

A text writes a tag behind the expression that it marks, while the tags of an expression are listed
from the outside in. Both ways every tag of a choice is listed exactly once; the two orders are the
same exactly if no tagged expression stands inside of another one.
-/

namespace Requirements

namespace Expr

/-- The tags of an expression, each behind those of the expression that it marks. -/
def writtenTags : Expr → List String
  | compare _ lhs rhs => lhs.writtenTags ++ rhs.writtenTags
  | logical _ lhs rhs => lhs.writtenTags ++ rhs.writtenTags
  | within operand _ => operand.writtenTags
  | tagged operand tag => operand.writtenTags ++ [tag]
  | _ => []

/-- The tags of a comparison are written side by side, folded or not. -/
lemma writtenTags_comparison (op : CompareOp) (lhs rhs : Expr) :
    (comparison op lhs rhs).writtenTags = lhs.writtenTags ++ rhs.writtenTags := by
  unfold comparison
  split <;> rfl

/-- The tags of a set test are those of its operand, folded or not. -/
lemma writtenTags_membership (e : Expr) (set : Version.RangeSet) :
    (e.membership set).writtenTags = e.writtenTags := by
  unfold membership
  split <;> rfl

/-- The tags in the one order are those in the other. -/
theorem tags_perm_writtenTags (e : Expr) : e.tags.Perm e.writtenTags := by
  induction e with
  | compare op lhs rhs ihl ihr =>
    rw [tags_compare]
    exact ihl.append ihr
  | logical op lhs rhs ihl ihr =>
    rw [tags_logical]
    exact ihl.append ihr
  | within operand set ih =>
    rw [tags_within]
    exact ih
  | tagged operand tag ih =>
    rw [tags_tagged]
    exact (ih.cons tag).trans (List.perm_append_singleton tag operand.writtenTags).symm
  | _ => exact .nil

/-- The tags of a part stand together, in either order. -/
theorem tags_infix_of_mem_nodes {n e : Expr} (h : n ∈ e.nodes) :
    n.tags <:+: e.tags ∧ n.writtenTags <:+: e.writtenTags := by
  induction e with
  | compare op lhs rhs ihl ihr | logical op lhs rhs ihl ihr =>
    simp only [nodes_compare, nodes_logical, List.mem_cons, List.mem_append] at h
    simp only [tags_compare, tags_logical, writtenTags]
    rcases h with rfl | h | h
    · simp [writtenTags]
    · exact ⟨(ihl h).1.trans (List.prefix_append _ _).isInfix,
        (ihl h).2.trans (List.prefix_append _ _).isInfix⟩
    · exact ⟨(ihr h).1.trans (List.suffix_append _ _).isInfix,
        (ihr h).2.trans (List.suffix_append _ _).isInfix⟩
  | within operand set ih =>
    simp only [nodes_within, List.mem_cons] at h
    rcases h with rfl | h
    · exact ⟨List.infix_rfl, List.infix_rfl⟩
    · rw [tags_within]
      exact ih h
  | tagged operand tag ih =>
    simp only [nodes_tagged, List.mem_cons] at h
    rcases h with rfl | h
    · exact ⟨List.infix_rfl, List.infix_rfl⟩
    · rw [tags_tagged]
      exact ⟨(ih h).1.trans (List.suffix_cons _ _).isInfix,
        (ih h).2.trans (List.prefix_append _ _).isInfix⟩
  | _ =>
    obtain rfl := List.mem_singleton.mp h
    exact ⟨List.infix_rfl, List.infix_rfl⟩

/-- No tagged expression stands inside of another one. -/
def TagsApart (e : Expr) : Prop :=
  ∀ operand tag, tagged operand tag ∈ e.nodes → operand.tags = []

/-- Without tags no tag contains another. -/
lemma tagsApart_of_tags_eq_nil {e : Expr} (h : e.tags = []) : e.TagsApart := by
  intro operand tag hmem
  have htag : tag ∈ e.tags := List.mem_filterMap.mpr ⟨_, hmem, rfl⟩
  rw [h] at htag
  cases htag

/-- Tags of two parts come in the same order both ways exactly if those of each part do. -/
theorem append_tags_eq_iff (lhs rhs : Expr) :
    lhs.tags ++ rhs.tags = lhs.writtenTags ++ rhs.writtenTags ↔
      lhs.tags = lhs.writtenTags ∧ rhs.tags = rhs.writtenTags := by
  constructor
  · intro heq
    exact List.append_inj heq lhs.tags_perm_writtenTags.length_eq
  · rintro ⟨hl, hr⟩
    rw [hl, hr]

/-- Tags are apart in a node with two sides if they are in each of them. -/
lemma tagsApart_iff_of_nodes_eq {e lhs rhs : Expr}
    (hnodes : e.nodes = e :: (lhs.nodes ++ rhs.nodes))
    (hroot : ∀ operand tag, e ≠ tagged operand tag) :
    e.TagsApart ↔ lhs.TagsApart ∧ rhs.TagsApart := by
  unfold TagsApart
  rw [hnodes]
  constructor
  · intro h
    exact ⟨fun operand tag hmem => h operand tag (by simp [hmem]),
      fun operand tag hmem => h operand tag (by simp [hmem])⟩
  · rintro ⟨hl, hr⟩ operand tag hmem
    rcases List.mem_cons.mp hmem with heq | hmem
    · exact absurd heq.symm (hroot operand tag)
    · rcases List.mem_append.mp hmem with hmem | hmem
      · exact hl operand tag hmem
      · exact hr operand tag hmem

/-- Different tags come in the same order both ways exactly if no tagged expression stands inside of
another one. -/
theorem tags_eq_writtenTags_iff {e : Expr} (hnodup : e.tags.Nodup) :
    e.tags = e.writtenTags ↔ e.TagsApart := by
  induction e with
  | compare op lhs rhs ihl ihr =>
    rw [tags_compare] at hnodup ⊢
    rw [tagsApart_iff_of_nodes_eq (nodes_compare op lhs rhs) (by simp), writtenTags,
      append_tags_eq_iff, ihl hnodup.of_append_left, ihr hnodup.of_append_right]
  | logical op lhs rhs ihl ihr =>
    rw [tags_logical] at hnodup ⊢
    rw [tagsApart_iff_of_nodes_eq (nodes_logical op lhs rhs) (by simp), writtenTags,
      append_tags_eq_iff, ihl hnodup.of_append_left, ihr hnodup.of_append_right]
  | within operand set ih =>
    rw [tags_within] at hnodup ⊢
    rw [writtenTags, ih hnodup]
    simp [TagsApart]
  | tagged operand tag ih =>
    rw [tags_tagged] at hnodup ⊢
    have hfresh := (List.nodup_cons.mp hnodup).1
    have hwritten := operand.tags_perm_writtenTags
    constructor
    · intro heq
      -- Otherwise the outer tag would be the first one written, which is an inner one.
      have hnone : operand.writtenTags = [] := by
        cases hcases : operand.writtenTags with
        | nil => rfl
        | cons first rest =>
          rw [writtenTags, hcases] at heq
          obtain rfl : tag = first := (List.cons.inj heq).1
          exact absurd (hwritten.mem_iff.mpr (by simp [hcases])) hfresh
      rw [hnone, List.perm_nil] at hwritten
      intro inner tag' hmem
      rcases List.mem_cons.mp (nodes_tagged operand tag ▸ hmem) with heq | hmem
      · obtain ⟨rfl, -⟩ := Expr.tagged.inj heq
        exact hwritten
      · exact tagsApart_of_tags_eq_nil hwritten inner tag' hmem
    · intro h
      have hnone : operand.tags = [] := h operand tag (self_mem_nodes _)
      rw [hnone, List.nil_perm] at hwritten
      rw [writtenTags, hwritten, hnone]
      rfl
  | _ => exact iff_of_true rfl (tagsApart_of_tags_eq_nil rfl)

end Expr

/-- The tags that words declare, from left to right: the names behind `as :`. -/
def declaredTags : List Lexeme → List String
  | .keyword .tagging :: .mark .colon :: .name tag :: words => tag :: declaredTags words
  | _ :: words => declaredTags words
  | [] => []

/-- A word other than the one before a tag declares none. -/
lemma declaredTags_cons_of_ne {l : Lexeme} (h : l ≠ .keyword .tagging) (words : List Lexeme) :
    declaredTags (l :: words) = declaredTags words := by
  rw [declaredTags]
  rintro tag rest rfl
  exact absurd rfl h

/-- Words without `as` declare no tag. -/
theorem declaredTags_append_of_notMem {words : List Lexeme} (h : .keyword .tagging ∉ words)
    (rest : List Lexeme) : declaredTags (words ++ rest) = declaredTags rest := by
  induction words with
  | nil => rfl
  | cons l words ih =>
    rw [List.mem_cons, not_or] at h
    rw [List.cons_append, declaredTags_cons_of_ne (Ne.symm h.1), ih h.2]

namespace Grammar

/-- The words of an expression declare its tags, each behind those of the expression that it
marks. -/
theorem Derives.declaredTags_append {inChoice : Bool} {levels : Nat} {strength : Expr.Strength}
    {words : List Lexeme} {e : Expr} (h : Derives inChoice levels strength words e)
    (rest : List Lexeme) : declaredTags (words ++ rest) = e.writtenTags ++ declaredTags rest := by
  induction h generalizing rest with
  | name _ => rfl
  | features first others _ =>
    have hnone : .keyword .tagging ∉ featureWords first others := fun h => by
      rcases mem_featureWords h with h | ⟨f, h⟩ <;> cases h
    simp only [List.cons_append, List.append_assoc]
    rw [declaredTags_cons_of_ne (by simp), declaredTags_cons_of_ne (by simp),
      declaredTags_append_of_notMem hnone]
    rfl
  | probe first others _ =>
    have hnone : .keyword .tagging ∉ argumentWords first others := fun h => by
      rcases mem_argumentWords h with h | ⟨a, h⟩ <;> cases h
    simp only [List.cons_append, List.append_assoc]
    rw [declaredTags_cons_of_ne (by simp), declaredTags_cons_of_ne (by simp),
      declaredTags_append_of_notMem hnone]
    rfl
  | braces name =>
    unfold braced
    split <;> rfl
  | parens _ ih =>
    simp only [List.cons_append, List.append_assoc]
    rw [declaredTags_cons_of_ne (by simp), ih]
    rfl
  | lift _ _ ih => exact ih rest
  | compare op _ _ ihl ihr =>
    rw [Expr.writtenTags_comparison, List.append_assoc, List.cons_append, ihl,
      declaredTags_cons_of_ne (by simp), ihr, List.append_assoc]
  | @within levels words e ranges _ _ _ ih =>
    have hnone : .keyword .tagging ∉ rangeWords ranges := fun h => by
      obtain ⟨text, r, h⟩ := mem_rangeWords h
      cases h
    simp only [List.cons_append, List.append_assoc]
    rw [Expr.writtenTags_membership, ih, declaredTags_cons_of_ne (by simp),
      declaredTags_cons_of_ne (by simp), declaredTags_append_of_notMem hnone]
    rfl
  | tagged tag _ _ ih =>
    rw [List.append_assoc, ih, Expr.writtenTags, List.append_assoc]
    rfl
  | logical op _ _ ihl ihr =>
    rw [Expr.writtenTags, List.append_assoc, List.cons_append, ihl,
      declaredTags_cons_of_ne (by simp), ihr, List.append_assoc]
  | _ => rfl

/-- The tokens are those of the definition, from its keyword to its semicolon. -/
inductive DerivesDefinition : List Token → Definition → Prop
  | intro {kind : DefinitionKind} {keyword : Token} {taken : List Token} {name : String}
    {words : List Lexeme} {body : Expr} :
    Parser.announced? (some keyword.lexeme) = some kind →
    taken.map Token.lexeme = .name name :: .mark .assign :: (words ++ [.mark .semicolon]) →
    Derives (kind == .choice) maxNesting .logical words body →
    DerivesDefinition (keyword :: taken) ⟨kind, name, body, keyword.start.line⟩

/-- The definitions stand in the text one behind the other. -/
theorem DerivesDefinitions.exists_parts {tokens : List Token} {definitions : List Definition}
    (h : DerivesDefinitions tokens definitions) :
    ∃ parts : List (List Token), parts.flatten = tokens ∧
      List.Forall₂ DerivesDefinition parts definitions := by
  induction h with
  | nil => exact ⟨[], rfl, .nil⟩
  | @cons kind keyword taken rest name words body definitions hkind htaken hbody _ ih =>
    obtain ⟨parts, rfl, hparts⟩ := ih
    exact ⟨(keyword :: taken) :: parts, rfl, .cons (.intro hkind htaken hbody) hparts⟩

/-- The tokens of a definition declare the tags of its body. -/
theorem DerivesDefinition.declaredTags_eq {tokens : List Token} {d : Definition}
    (h : DerivesDefinition tokens d) :
    declaredTags (tokens.map Token.lexeme) = d.body.writtenTags := by
  obtain ⟨hkind, htaken, hbody⟩ := h
  have hkeyword {keyword : Token} {kind : DefinitionKind}
      (hkind : Parser.announced? (some keyword.lexeme) = some kind) :
      keyword.lexeme ≠ .keyword .tagging := by
    intro heq
    rw [heq] at hkind
    cases hkind
  rw [List.map_cons, declaredTags_cons_of_ne (hkeyword hkind), htaken,
    declaredTags_cons_of_ne (by simp), declaredTags_cons_of_ne (by simp),
    hbody.declaredTags_append]
  exact List.append_nil _

end Grammar

/-- The definitions of a text stand in it one behind the other. Each choice lists every tag that its
words declare exactly once. It lists the tag of an expression right before those inside of the
expression, while the text has it right behind them; so the two orders are the same exactly if no
tagged expression stands inside of another one. -/
theorem Script.tags_list_declaredTags {source : String} {s : Script}
    (h : Script.parse source = .ok s) :
    ∃ (stream : TokenStream) (parts : List (List Token)) (back : List Token),
      tokenize source = .ok stream ∧ stream.tokens = parts.flatten ++ back ∧
      List.Forall₂ (fun tokens d => Grammar.DerivesDefinition tokens d ∧
        (d.isChoice = true →
          d.tags.Nodup ∧ d.tags.Perm (declaredTags (tokens.map Token.lexeme)) ∧
          (∀ operand tag, Expr.tagged operand tag ∈ d.body.nodes →
            tag :: operand.tags <:+: d.tags ∧
            operand.writtenTags ++ [tag] <:+: declaredTags (tokens.map Token.lexeme)) ∧
          (d.tags = declaredTags (tokens.map Token.lexeme) ↔
            ∀ operand tag, Expr.tagged operand tag ∈ d.body.nodes → operand.tags = [])))
        parts s.definitions := by
  obtain ⟨stream, htokenize, front, back, htokens, hdefinitions, -, hnodup⟩ :=
    Script.exists_derives_of_parse h
  obtain ⟨parts, rfl, hparts⟩ := hdefinitions.exists_parts
  refine ⟨stream, parts, back, htokenize, htokens, ?_⟩
  obtain ⟨hlength, hzip⟩ := List.forall₂_iff_zip.mp hparts
  refine List.forall₂_iff_zip.mpr ⟨hlength, fun {tokens d} hmem => ⟨hzip hmem, fun hchoice => ?_⟩⟩
  have htags : d.tags = d.body.tags := if_pos hchoice
  have hbody : d.body.tags.Nodup :=
    (List.nodup_flatMap.mp hnodup).1 d (List.of_mem_zip hmem).2
  rw [htags, (hzip hmem).declaredTags_eq]
  refine ⟨hbody, d.body.tags_perm_writtenTags, fun operand tag hpart => ?_,
    Expr.tags_eq_writtenTags_iff hbody⟩
  have hinfix := Expr.tags_infix_of_mem_nodes hpart
  rwa [Expr.tags_tagged] at hinfix

/-- Of two tags that stand side by side, the choice lists the left one first. -/
theorem Script.tags_eq_declaredTags_of_two_alternatives :
    let body : Expr := .logical .or (.tagged (.package "A" none []) "x")
      (.tagged (.logical .and (.package "B" none []) (.package "C" none [])) "y")
    let s : Script := ⟨[⟨.choice, "c", body, 1⟩], some (.reference "c")⟩
    Script.parse "choice c = A as :x || (B && C) as :y; \x7bc\x7d" = .ok s ∧
      ∃ tokens, Grammar.DerivesDefinition tokens ⟨.choice, "c", body, 1⟩ ∧
        body.tags = ["x", "y"] ∧ declaredTags (tokens.map Token.lexeme) = ["x", "y"] := by
  intro body s
  have hparse : Script.parse "choice c = A as :x || (B && C) as :y; \x7bc\x7d" = .ok s := by
    decide +kernel
  obtain ⟨-, parts, -, -, -, hparts⟩ := Script.tags_list_declaredTags hparse
  cases hparts with
  | @cons tokens _ _ _ hpart _ =>
    obtain ⟨-, -, -, horder⟩ := hpart.2 rfl
    have htags : body.tags = ["x", "y"] := by decide
    have hapart (operand : Expr) (tag : String) (hpart : .tagged operand tag ∈ body.nodes) :
        operand.tags = [] := by
      simp only [body, Expr.nodes, Expr.nodesOnto, List.mem_cons, List.not_mem_nil, reduceCtorEq,
        Expr.tagged.injEq, or_false, false_or] at hpart
      rcases hpart with ⟨rfl, -⟩ | ⟨rfl, -⟩ <;> rfl
    have hsame : body.tags = declaredTags (tokens.map Token.lexeme) := horder.mpr hapart
    exact ⟨hparse, tokens, hpart.1, htags, hsame ▸ htags⟩

/-- A tag that a text has behind another one, as the tag of an expression that holds the other one,
is listed before it. -/
theorem Script.exists_tags_out_of_order :
    let body : Expr := .tagged (.tagged (.package "A" none []) "a") "b"
    let source := "choice c = (A as :a) as :b; \x7bc\x7d"
    Script.parse source = .ok ⟨[⟨.choice, "c", body, 1⟩], some (.reference "c")⟩ ∧
      Definition.tags ⟨.choice, "c", body, 1⟩ = ["b", "a"] ∧
      (tokenize source).map (fun stream => declaredTags (stream.tokens.map Token.lexeme)) =
        .ok ["a", "b"] := by
  intro body source
  exact ⟨by decide +kernel, by decide, by decide +kernel⟩

end Requirements
