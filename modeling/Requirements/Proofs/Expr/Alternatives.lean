import Mathlib.Tactic.Lemma
import Requirements.Expr.Alternatives

/-!
# The alternatives of a choice and its body

The alternatives of a choice are the operands that its connective joins, wherever they stand in the
body. Connectives are associative, so it does not matter how the body groups them: the alternatives
have the leaves of the body in their order, and joined from the left they have its truth value.
-/

namespace Requirements

/-- Each connective is associative. -/
lemma LogicalOp.apply_assoc (op : LogicalOp) (a b c : Bool) :
    op.apply (op.apply a b) c = op.apply a (op.apply b c) := by
  cases op with
  | and => exact Bool.and_assoc a b c
  | or => exact Bool.or_assoc a b c
  | xor => exact Bool.xor_assoc a b c

namespace Expr

/-- An alternative as an operand, with its tag. -/
def Alternative.expr : Alternative → Expr
  | ⟨none, body⟩ => body
  | ⟨some tag, body⟩ => .tagged body tag

/-- Taking the tag off an operand and putting it back gives the operand. -/
@[simp] lemma expr_toAlternative (e : Expr) : e.toAlternative.expr = e := by
  cases e <;> rfl

/-- Without a tag the body is the operand itself. -/
lemma body_toAlternative {e : Expr} (h : e.toAlternative.tag = none) :
    e.toAlternative.body = e := by
  cases e with
  | tagged operand tag => cases h
  | _ => rfl

/-! ### Operands -/

/-- The operands are put in front of what is given. -/
theorem operandsOnto_eq (op : LogicalOp) (e : Expr) (rest : List Expr) :
    e.operandsOnto op rest = e.operands op ++ rest := by
  unfold operands
  induction e generalizing rest with
  | logical o lhs rhs ihl ihr =>
    simp only [operandsOnto]
    split
    · rw [ihl, ihl (rhs.operandsOnto op []), ihr, List.append_assoc]
    · rfl
  | _ => rfl

/-- An operator joins the operands of its two sides. -/
theorem operands_logical_self (op : LogicalOp) (lhs rhs : Expr) :
    (logical op lhs rhs).operands op = lhs.operands op ++ rhs.operands op := by
  rw [operands, operandsOnto, if_pos rfl, operandsOnto_eq]
  rfl

/-- An expression that is not joined by the operator is an operand itself. -/
theorem operands_of_ne {op : LogicalOp} {e : Expr} (h : ∀ lhs rhs, e ≠ logical op lhs rhs) :
    e.operands op = [e] := by
  cases e with
  | logical o lhs rhs =>
    have ho : o ≠ op := by
      rintro rfl
      exact h lhs rhs rfl
    rw [operands, operandsOnto, if_neg ho]
  | _ => rfl

/-- Induction along the joints of one operator: an expression is joined by it, or it is not. -/
theorem jointInduction (op : LogicalOp) {motive : Expr → Prop}
    (joined : ∀ lhs rhs, motive lhs → motive rhs → motive (logical op lhs rhs))
    (operand : ∀ e, (∀ lhs rhs, e ≠ logical op lhs rhs) → motive e) (e : Expr) : motive e := by
  induction e with
  | logical o lhs rhs ihl ihr =>
    by_cases ho : o = op
    · exact ho ▸ joined lhs rhs ihl ihr
    · exact operand _ fun _ _ h => ho (logical.inj h).1
  | _ => exact operand _ fun _ _ => nofun

/-- No operand is joined by the operator itself. -/
theorem ne_logical_of_mem_operands {op : LogicalOp} {e x : Expr} (hx : x ∈ e.operands op)
    (lhs rhs : Expr) : x ≠ logical op lhs rhs := by
  induction e using jointInduction op with
  | joined l r ihl ihr =>
    rw [operands_logical_self, List.mem_append] at hx
    exact hx.elim ihl ihr
  | operand e he =>
    rw [operands_of_ne he, List.mem_singleton] at hx
    exact hx ▸ he lhs rhs

/-! ### Leaves -/

/-- The operands that connectives join, whichever they are, from left to right. -/
def leaves : Expr → List Expr
  | logical _ lhs rhs => lhs.leaves ++ rhs.leaves
  | e => [e]

/-- The operands of one operator have the leaves of the whole. -/
theorem flatMap_leaves_operands (op : LogicalOp) (e : Expr) :
    (e.operands op).flatMap leaves = e.leaves := by
  induction e using jointInduction op with
  | joined lhs rhs ihl ihr => rw [operands_logical_self, List.flatMap_append, ihl, ihr, leaves]
  | operand e he => rw [operands_of_ne he, List.flatMap_singleton]

/-! ### Truth values

The truth values of the leaves are given by their numbers, so that two leaves may differ even if the
same is written there. -/

/-- The truth value of an expression whose leaves are numbered from `n`. -/
def truth (v : Nat → Bool) (n : Nat) : Expr → Bool
  | logical op lhs rhs => op.apply (lhs.truth v n) (rhs.truth v (n + lhs.leaves.length))
  | _ => v n

/-- The truth values of expressions whose leaves are numbered from `n` on, through all of them. -/
def truths (v : Nat → Bool) (n : Nat) : List Expr → List Bool
  | [] => []
  | e :: es => e.truth v n :: truths v (n + e.leaves.length) es

/-- The leaves of a second list are numbered on from those of the first. -/
lemma truths_append (v : Nat → Bool) (n : Nat) (es es' : List Expr) :
    truths v n (es ++ es') = truths v n es ++ truths v (n + (es.flatMap leaves).length) es' := by
  induction es generalizing n with
  | nil => rfl
  | cons e es ih =>
    rw [List.cons_append, truths, truths, ih, List.flatMap_cons, List.length_append,
      Nat.add_assoc, List.cons_append]

/-- The truth values of the operands of a connective are those joined by it on the left, then those
on the right. -/
lemma truths_operands_logical_self (v : Nat → Bool) (n : Nat) (op : LogicalOp)
    (lhs rhs : Expr) : truths v n ((logical op lhs rhs).operands op) =
      truths v n (lhs.operands op) ++ truths v (n + lhs.leaves.length) (rhs.operands op) := by
  rw [operands_logical_self, truths_append, flatMap_leaves_operands]

/-- Joining the operands to a truth value joins the whole to it. -/
theorem foldl_truths_operands (v : Nat → Bool) (n : Nat) (op : LogicalOp) (e : Expr) (b : Bool) :
    (truths v n (e.operands op)).foldl op.apply b = op.apply b (e.truth v n) := by
  induction e using jointInduction op generalizing n b with
  | joined lhs rhs ihl ihr =>
    rw [truths_operands_logical_self, List.foldl_append, ihl, ihr, op.apply_assoc, truth]
  | operand e he => rw [operands_of_ne he, truths, truths, List.foldl_cons, List.foldl_nil]

/-- The operands joined from the left have the truth value of the whole. -/
theorem exists_truths_operands (v : Nat → Bool) (n : Nat) (op : LogicalOp) (e : Expr) :
    ∃ b bs, truths v n (e.operands op) = b :: bs ∧ bs.foldl op.apply b = e.truth v n := by
  induction e using jointInduction op generalizing n with
  | joined lhs rhs ihl _ =>
    obtain ⟨b, bs, hlhs, hb⟩ := ihl n
    refine ⟨b, bs ++ truths v (n + lhs.leaves.length) (rhs.operands op), ?_, ?_⟩
    · rw [truths_operands_logical_self, hlhs, List.cons_append]
    · rw [List.foldl_append, hb, foldl_truths_operands, truth]
  | operand e he => exact ⟨e.truth v n, [], by rw [operands_of_ne he, truths, truths], rfl⟩

/-! ### Alternatives -/

/-- The alternatives are the operands that the combinator joins. -/
lemma alternatives_of_combinator {e : Expr} {op : LogicalOp} (h : e.combinator? = some op) :
    e.alternatives = (e.operands op).map toAlternative := by
  unfold alternatives
  rw [h]

/-- Without one connective throughout, the body is the only alternative. -/
theorem exists_alternatives_of_combinator_eq_none {e : Expr} (h : e.combinator? = none) :
    ∃ a, e.alternatives = [a] ∧ a.expr = e := by
  unfold alternatives
  rw [h]
  cases e with
  | logical op lhs rhs => exact ⟨_, rfl, rfl⟩
  | _ => exact ⟨_, rfl, expr_toAlternative _⟩

/-- With their tags put back, the alternatives are the operands. -/
lemma map_expr_alternatives_of_combinator {e : Expr} {op : LogicalOp}
    (h : e.combinator? = some op) : e.alternatives.map Alternative.expr = e.operands op := by
  have hexpr : Alternative.expr ∘ toAlternative = id := funext expr_toAlternative
  rw [alternatives_of_combinator h, List.map_map, hexpr, List.map_id]

/-- The alternatives of a body, their tags put back, have its leaves, each as often as it is there
and in its order. If one connective joins them, none of them without a tag is joined by it itself,
and whatever the truth values of the leaves are, the body has the value of the alternatives joined
from the left. If there is none, there is one alternative. -/
theorem alternatives_join (e : Expr) :
    (e.alternatives.map Alternative.expr).flatMap leaves = e.leaves ∧
    (∀ op, e.combinator? = some op →
      (∀ a ∈ e.alternatives, a.tag = none → ∀ lhs rhs, a.body ≠ logical op lhs rhs) ∧
      ∀ v, ∃ b bs, truths v 0 (e.alternatives.map Alternative.expr) = b :: bs ∧
        e.truth v 0 = bs.foldl op.apply b) ∧
    (e.combinator? = none → e.alternatives.length = 1) := by
  refine ⟨?_, fun op h => ⟨fun a ha htag => ?_, fun v => ?_⟩, fun h => ?_⟩
  · cases h : e.combinator? with
    | some op => rw [map_expr_alternatives_of_combinator h, flatMap_leaves_operands]
    | none =>
      obtain ⟨a, ha, hexpr⟩ := exists_alternatives_of_combinator_eq_none h
      rw [ha, List.map_singleton, hexpr, List.flatMap_singleton]
  · rw [alternatives_of_combinator h] at ha
    obtain ⟨x, hx, rfl⟩ := List.mem_map.mp ha
    rw [body_toAlternative htag]
    exact ne_logical_of_mem_operands hx
  · obtain ⟨b, bs, htruths, hb⟩ := exists_truths_operands v 0 op e
    exact ⟨b, bs, by rw [map_expr_alternatives_of_combinator h, htruths], hb.symm⟩
  · obtain ⟨a, ha, -⟩ := exists_alternatives_of_combinator_eq_none h
    rw [ha, List.length_singleton]

/-- A right operand with the same connective is taken apart, and one with another stays whole. -/
example :
    (logical .or (tagged (reference "a") "x")
      (logical .or (reference "b") (logical .and (reference "c") (reference "d")))).alternatives =
    [⟨some "x", reference "a"⟩, ⟨none, reference "b"⟩,
      ⟨none, logical .and (reference "c") (reference "d")⟩] := rfl

end Expr

end Requirements
