import Mathlib.Tactic.Lemma
import Requirements.Evaluation.Trace

/-!
# Parts of a trace

The parts of a trace are the trace and the parts of its operands.
-/

namespace Requirements

namespace Trace

/-- What is put in front of a list does not depend on the list. -/
theorem nodesOnto_eq (t : Trace) (rest : List Trace) : t.nodesOnto rest = t.nodes ++ rest := by
  induction t generalizing rest with
  | compare op lhs rhs truthy ihl ihr | logical op lhs rhs truthy ihl ihr =>
    simp only [nodes, nodesOnto]
    rw [ihl, ihr, ihl (rhs.nodesOnto []), ihr []]
    simp
  | reference name isChoice cached body ih =>
    simp only [nodes, nodesOnto]
    rw [ih, ih []]
    simp
  | tagged operand tag ih =>
    simp only [nodes, nodesOnto]
    rw [ih, ih []]
    simp
  | within operand set tested truthy ih =>
    simp only [nodes, nodesOnto]
    rw [ih, ih []]
    simp
  | shortCircuit op lhs skipped truthy ih =>
    simp only [nodes, nodesOnto]
    rw [ih, ih []]
    simp
  | _ => rfl

/-- The nodes of a reference are itself and those of its body. -/
@[simp] lemma nodes_reference (name : String) (isChoice cached : Bool) (body : Trace) :
    (reference name isChoice cached body).nodes =
      reference name isChoice cached body :: body.nodes := rfl

/-- The nodes of a tagged part are itself and those of its operand. -/
@[simp] lemma nodes_tagged (operand : Trace) (tag : String) :
    (tagged operand tag).nodes = tagged operand tag :: operand.nodes := rfl

/-- The nodes of a set test are itself and those of its operand. -/
@[simp] lemma nodes_within (operand : Trace) (set : Version.RangeSet) (tested : Option Version)
    (truthy : Bool) : (within operand set tested truthy).nodes =
      within operand set tested truthy :: operand.nodes := rfl

/-- The skipped operand of a connective has no nodes. -/
@[simp] lemma nodes_shortCircuit (op : LogicalOp) (lhs : Trace) (skipped : Expr)
    (truthy : Bool) : (shortCircuit op lhs skipped truthy).nodes =
      shortCircuit op lhs skipped truthy :: lhs.nodes := rfl

/-- The nodes of a comparison are itself, those of its left side and those of its right side. -/
@[simp] lemma nodes_compare (op : CompareOp) (lhs rhs : Trace) (truthy : Bool) :
    (compare op lhs rhs truthy).nodes = compare op lhs rhs truthy :: (lhs.nodes ++ rhs.nodes) := by
  simp only [nodes, nodesOnto]
  rw [nodesOnto_eq, nodes]

/-- The nodes of a connective are itself, those of its left operand and those of its right one. -/
@[simp] lemma nodes_logical (op : LogicalOp) (lhs rhs : Trace) (truthy : Bool) :
    (logical op lhs rhs truthy).nodes = logical op lhs rhs truthy :: (lhs.nodes ++ rhs.nodes) := by
  simp only [nodes, nodesOnto]
  rw [nodesOnto_eq, nodes]

/-- The parts of a trace are the trace and the parts of its operands. -/
theorem mem_nodes_iff {n t : Trace} : n ∈ t.nodes ↔ n = t ∨ ∃ c ∈ t.children, n ∈ c.nodes := by
  cases t with
  | reference | tagged | within | shortCircuit | compare | logical => simp [children]
  | _ => simp [nodes, nodesOnto, children]

/-- What holds of all parts holds of the trace and of the parts of its operands. -/
theorem forall_mem_nodes_iff {P : Trace → Prop} {t : Trace} :
    (∀ n ∈ t.nodes, P n) ↔ P t ∧ ∀ c ∈ t.children, ∀ n ∈ c.nodes, P n := by
  simp only [mem_nodes_iff (t := t)]
  constructor
  · intro h
    exact ⟨h t (.inl rfl), fun c hc n hn => h n (.inr ⟨c, hc, hn⟩)⟩
  · rintro ⟨hroot, hchildren⟩ n (rfl | ⟨c, hc, hn⟩)
    · exact hroot
    · exact hchildren c hc n hn

end Trace

end Requirements
