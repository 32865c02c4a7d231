import Mathlib.Tactic.Lemma
import Requirements.Proofs.Evaluation.BigStep
import Requirements.Proofs.Program.Selection

/-!
# Positive programs

In a positive program there is no `^^`, and only what has a version or a text of its own is compared
or tested for membership in a set: no operand is a connective, a comparison, a set test or a probe,
also if one looks through references and tags. What the options leave of a positive program is
positive.
-/

namespace Requirements

namespace Expr

/-- Whether the expression is one whose only value is a truth value that it has by what holds of
others: a connective, a comparison, a set test or a probe. -/
def isVerdict : Expr → Bool
  | logical _ _ _ | compare _ _ _ | within _ _ | probe _ _ => true
  | _ => false

/-- The operands of a comparison or set test. -/
def testOperands : Expr → List Expr
  | compare _ lhs rhs => [lhs, rhs]
  | within operand _ => [operand]
  | _ => []

/-- The connective of an expression, if it is one. -/
def connective? : Expr → Option LogicalOp
  | logical op _ _ => some op
  | _ => none

/-- The first expression is the second or stands for it by way of references and tags, if `body?` is
what names lead to. -/
inductive StandsFor (body? : String → Option Expr) : Expr → Expr → Prop
  | refl (e : Expr) : StandsFor body? e e
  | reference {name : String} {body e : Expr} : body? name = some body →
    StandsFor body? body e → StandsFor body? (.reference name) e
  | tagged {operand e : Expr} (tag : String) : StandsFor body? operand e →
    StandsFor body? (.tagged operand tag) e

/-- The expression does not stand for a verdict. -/
def Simple (body? : String → Option Expr) (e : Expr) : Prop :=
  ∀ e', StandsFor body? e e' → e'.isVerdict = false

/-- A name, a probe or a literal is simple unless it is a truth value. -/
lemma simple_of_isAtom {body? : String → Option Expr} {e : Expr} (hatom : e.isAtom = true)
    (he : e.isVerdict = false) : e.Simple body? := by
  intro y hy
  cases hy with
  | refl => exact he
  | reference | tagged => cases hatom

/-- A reference is simple if the body of its definition is, an unselected choice having none. -/
lemma simple_reference_iff {body? : String → Option Expr} {name : String} :
    (reference name).Simple body? ↔ ∀ body, body? name = some body → body.Simple body? := by
  constructor
  · exact fun h body hbody y hy => h y (.reference hbody hy)
  · rintro h y (_ | ⟨hbody, hy⟩)
    · rfl
    · exact h _ hbody y hy

/-- A tag does not matter for being simple. -/
lemma simple_tagged_iff {body? : String → Option Expr} {operand : Expr} {tag : String} :
    (tagged operand tag).Simple body? ↔ operand.Simple body? := by
  constructor
  · exact fun h y hy => h y (.tagged tag hy)
  · rintro h y (_ | _ | ⟨_, hy⟩)
    · rfl
    · exact h y hy

end Expr

/-- None of the parts is `^^`, and all operands of comparisons and set tests are simple. -/
structure Positive (body? : String → Option Expr) (parts : List Expr) : Prop where
  noXor : ∀ e ∈ parts, e.connective? ≠ some .xor
  simple : ∀ e ∈ parts, ∀ x ∈ e.testOperands, x.Simple body?

namespace Program

/-- The body of the definition of a name. -/
def body? (p : Program) (name : String) : Option Expr :=
  (p.find? name).map Definition.body

/-- The parts of a program. -/
def parts (p : Program) : List Expr :=
  p.master.nodes ++ p.definitions.flatMap fun d => d.body.nodes

/-- There is no `^^` in the program, and all operands of its comparisons and set tests are
simple. -/
def Positive (p : Program) : Prop :=
  Requirements.Positive p.body? p.parts

end Program

namespace Selection

/-- What the options leave of the definition of a name. -/
def body? (s : Selection) (name : String) : Option Expr :=
  (s.find? name).bind Binding.body

/-- There is no `^^` in what the options leave of the program, and all operands of its comparisons
and set tests are simple. -/
def Positive (s : Selection) : Prop :=
  Requirements.Positive s.body? s.parts

end Selection

/-! ### What the options leave -/

namespace Expr

/-- The second expression is what the options leave of the first in a choice, or all of it. -/
def Leaves (options : List String) (e e' : Expr) : Prop :=
  e' = e ∨ e.prune options = some e'

variable {options : List String} {e e' : Expr}

/-- A simple expression that is not pruned away stays as it is, but for what is below its tag. -/
theorem Leaves.cases_of_isVerdict_eq_false (h : e.Leaves options e') (he : e.isVerdict = false) :
    e' = e ∨ ∃ operand operand' tag, e = .tagged operand tag ∧ e' = .tagged operand' tag ∧
      operand.Leaves options operand' := by
  rcases h with heq | hprune
  · exact .inl heq
  · cases e with
    | tagged operand tag =>
      rw [prune] at hprune
      split at hprune
      · obtain ⟨operand', hoperand, rfl⟩ := Option.map_eq_some_iff.mp hprune
        exact .inr ⟨operand, operand', tag, rfl, rfl, .inr hoperand⟩
      · cases hprune
    | logical | compare | within | probe => cases he
    | _ =>
      cases hprune
      exact .inl rfl

/-- What is left of a simple expression is simple. -/
theorem Simple.of_leaves {body? body?' : String → Option Expr}
    (hbody : ∀ name b', body?' name = some b' → ∃ b, body? name = some b ∧ b.Leaves options b')
    (h : e.Simple body?) (hleaves : e.Leaves options e') : e'.Simple body?' := by
  intro y hy
  -- What is left stands for no more than the whole does, step by step: a reference leads from the
  -- body of a definition to what is left of the body.
  induction hy generalizing e with
  | refl e' =>
    have hverdict : e.isVerdict = false := h e (.refl e)
    rcases hleaves.cases_of_isVerdict_eq_false hverdict with rfl | ⟨_, _, _, -, rfl, -⟩
    · exact hverdict
    · rfl
  | reference hb' _ ih =>
    rcases hleaves.cases_of_isVerdict_eq_false (h e (.refl e)) with rfl | ⟨_, _, _, -, heq, -⟩
    · obtain ⟨b, hb, hleaves'⟩ := hbody _ _ hb'
      exact ih (fun z hz => h z (.reference hb hz)) hleaves'
    · cases heq
  | tagged tag _ ih =>
    rcases hleaves.cases_of_isVerdict_eq_false (h e (.refl e)) with
      rfl | ⟨operand, _, _, rfl, heq, hoperand⟩
    · exact ih (fun z hz => h z (.tagged tag hz)) (.inl rfl)
    · cases heq
      exact ih (fun z hz => h z (.tagged tag hz)) hoperand

/-- The second part is what is left of the first: it has the same connective, if any, and its
operands in a comparison or set test are what is left of those of the first. -/
structure LeftOf (options : List String) (n n' : Expr) : Prop where
  connective : n'.connective? = n.connective?
  operands : ∀ x' ∈ n'.testOperands, ∃ x ∈ n.testOperands, x.Leaves options x'

/-- An expression is left of itself. -/
lemma LeftOf.refl (n : Expr) : LeftOf options n n :=
  ⟨rfl, fun x hx => ⟨x, hx, .inl rfl⟩⟩

/-- Every part of what pruning leaves is what is left of a part. -/
theorem exists_leftOf_of_prune (h : e.prune options = some e') {n' : Expr} (hn' : n' ∈ e'.nodes) :
    ∃ n ∈ e.nodes, LeftOf options n n' := by
  induction e generalizing e' with
  | tagged operand tag ih =>
    rw [prune] at h
    split at h
    · obtain ⟨operand', hoperand, rfl⟩ := Option.map_eq_some_iff.mp h
      rw [nodes_tagged] at hn' ⊢
      rcases List.mem_cons.mp hn' with rfl | hn'
      · exact ⟨_, List.mem_cons_self, rfl, by simp [testOperands]⟩
      · obtain ⟨n, hn, hleft⟩ := ih hoperand hn'
        exact ⟨n, List.mem_cons_of_mem _ hn, hleft⟩
    · cases h
  | logical op lhs rhs ihl ihr =>
    rw [prune] at h
    rw [nodes_logical]
    have hinl {n : Expr} (hn : n ∈ lhs.nodes) :
        n ∈ logical op lhs rhs :: (lhs.nodes ++ rhs.nodes) :=
      List.mem_cons_of_mem _ (List.mem_append_left _ hn)
    have hinr {n : Expr} (hn : n ∈ rhs.nodes) :
        n ∈ logical op lhs rhs :: (lhs.nodes ++ rhs.nodes) :=
      List.mem_cons_of_mem _ (List.mem_append_right _ hn)
    split at h
    · rename_i l r hl hr
      cases h
      rw [nodes_logical] at hn'
      rcases List.mem_cons.mp hn' with rfl | hn'
      · exact ⟨_, List.mem_cons_self, rfl, by simp [testOperands]⟩
      · rcases List.mem_append.mp hn' with hn' | hn'
        · obtain ⟨n, hn, hleft⟩ := ihl hl hn'
          exact ⟨n, hinl hn, hleft⟩
        · obtain ⟨n, hn, hleft⟩ := ihr hr hn'
          exact ⟨n, hinr hn, hleft⟩
    · rename_i l hl hr
      cases h
      obtain ⟨n, hn, hleft⟩ := ihl hl hn'
      exact ⟨n, hinl hn, hleft⟩
    · obtain ⟨n, hn, hleft⟩ := ihr h hn'
      exact ⟨n, hinr hn, hleft⟩
  | compare op lhs rhs ihl ihr =>
    rw [prune] at h
    rw [nodes_compare]
    split at h
    · rename_i l r hl hr
      cases h
      rw [nodes_compare] at hn'
      rcases List.mem_cons.mp hn' with rfl | hn'
      · refine ⟨_, List.mem_cons_self, rfl, ?_⟩
        simp only [testOperands, List.mem_cons, List.not_mem_nil, or_false]
        rintro x' (rfl | rfl)
        · exact ⟨lhs, .inl rfl, .inr hl⟩
        · exact ⟨rhs, .inr rfl, .inr hr⟩
      · rcases List.mem_append.mp hn' with hn' | hn'
        · obtain ⟨n, hn, hleft⟩ := ihl hl hn'
          exact ⟨n, List.mem_cons_of_mem _ (List.mem_append_left _ hn), hleft⟩
        · obtain ⟨n, hn, hleft⟩ := ihr hr hn'
          exact ⟨n, List.mem_cons_of_mem _ (List.mem_append_right _ hn), hleft⟩
    · cases h
  | within operand set ih =>
    rw [prune] at h
    obtain ⟨operand', hoperand, rfl⟩ := Option.map_eq_some_iff.mp h
    rw [nodes_within] at hn' ⊢
    rcases List.mem_cons.mp hn' with rfl | hn'
    · refine ⟨_, List.mem_cons_self, rfl, ?_⟩
      simp only [testOperands, List.mem_singleton, forall_eq, exists_eq_left]
      exact .inr hoperand
    · obtain ⟨n, hn, hleft⟩ := ih hoperand hn'
      exact ⟨n, List.mem_cons_of_mem _ hn, hleft⟩
  | _ =>
    cases h
    exact ⟨n', hn', .refl n'⟩

/-- Every part of what the options leave is what is left of a part. -/
theorem Leaves.exists_leftOf (h : e.Leaves options e') {n' : Expr} (hn' : n' ∈ e'.nodes) :
    ∃ n ∈ e.nodes, LeftOf options n n' := by
  rcases h with rfl | hprune
  · exact ⟨n', hn', .refl n'⟩
  · exact exists_leftOf_of_prune hprune hn'

end Expr

/-- The options leave all of a plain definition, and of a choice what pruning leaves. -/
theorem Definition.leaves_of_body {options : List String} {d : Definition} {e' : Expr}
    (h : (Binding.ofDefinition options d).body = some e') : d.body.Leaves options e' := by
  simp only [Binding.ofDefinition] at h
  split at h
  · exact .inr h
  · cases h
    exact .inl rfl

namespace Program

variable {p : Program} {words : List String} {s : Selection}

/-- What a name leads to under the options is what they leave of what it leads to. -/
theorem exists_leaves_of_body? (h : p.select words = .ok s) {name : String} {e' : Expr}
    (hbody : s.body? name = some e') :
    ∃ e, p.body? name = some e ∧ e.Leaves (optionSet words) e' := by
  obtain ⟨b, hfind, hb⟩ := Option.bind_eq_some_iff.mp hbody
  rw [Selection.find?, select_eq h, List.find?_map] at hfind
  obtain ⟨d, hd, rfl⟩ := Option.map_eq_some_iff.mp hfind
  have hname : p.find? name = some d := hd
  exact ⟨d.body, by rw [body?, hname, Option.map_some], Definition.leaves_of_body hb⟩

/-- Every part of what the options leave of a program is what is left of a part. -/
theorem exists_leftOf_of_mem_parts (h : p.select words = .ok s) {n' : Expr} (hn' : n' ∈ s.parts) :
    ∃ n ∈ p.parts, Expr.LeftOf (optionSet words) n n' := by
  rw [select_eq h] at hn'
  rcases List.mem_append.mp hn' with hn' | hn'
  · exact ⟨n', List.mem_append_left _ hn', .refl n'⟩
  · obtain ⟨e', he', hn'⟩ := List.mem_flatMap.mp hn'
    obtain ⟨b, hb, he'⟩ := List.mem_filterMap.mp he'
    obtain ⟨d, hd, rfl⟩ := List.mem_map.mp hb
    obtain ⟨n, hn, hleft⟩ := (Definition.leaves_of_body he').exists_leftOf hn'
    exact ⟨n, List.mem_append_right _ (List.mem_flatMap.mpr ⟨d, hd, hn⟩), hleft⟩

/-- What options leave of a positive program is positive. -/
theorem Positive.select (hpositive : p.Positive) (h : p.select words = .ok s) : s.Positive := by
  constructor
  · intro n' hn'
    obtain ⟨n, hn, hleft⟩ := exists_leftOf_of_mem_parts h hn'
    rw [hleft.connective]
    exact hpositive.noXor n hn
  · intro n' hn' x' hx'
    obtain ⟨n, hn, hleft⟩ := exists_leftOf_of_mem_parts h hn'
    obtain ⟨x, hx, hleaves⟩ := hleft.operands x' hx'
    exact (hpositive.simple n hn x hx).of_leaves
      (fun name b' hb' => exists_leaves_of_body? h hb') hleaves

end Program

end Requirements
