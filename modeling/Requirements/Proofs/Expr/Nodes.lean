import Mathlib.Tactic.Lemma
import Requirements.Expr.Basic

/-!
# Parts of an expression

What an expression refers to and which tags it declares is read off the list of its parts. Here it
is read off its form: the parts of an expression are the expression and the parts of its operands.
-/

namespace Requirements

namespace Expr

/-- What is put in front of a list does not depend on the list. -/
theorem nodesOnto_eq (e : Expr) (rest : List Expr) : e.nodesOnto rest = e.nodes ++ rest := by
  induction e generalizing rest with
  | compare op lhs rhs ihl ihr | logical op lhs rhs ihl ihr =>
    simp only [nodes, nodesOnto]
    rw [ihl, ihr, ihl (rhs.nodesOnto []), ihr []]
    simp
  | within operand set ih | tagged operand tag ih =>
    simp only [nodes, nodesOnto]
    rw [ih, ih []]
    simp
  | _ => rfl

/-- The nodes of a comparison are itself, those of its left side and those of its right side. -/
@[simp] lemma nodes_compare (op : CompareOp) (lhs rhs : Expr) :
    (compare op lhs rhs).nodes = compare op lhs rhs :: (lhs.nodes ++ rhs.nodes) := by
  simp only [nodes, nodesOnto]
  rw [nodesOnto_eq, nodes]

/-- The nodes of a connective are itself, those of its left operand and those of its right one. -/
@[simp] lemma nodes_logical (op : LogicalOp) (lhs rhs : Expr) :
    (logical op lhs rhs).nodes = logical op lhs rhs :: (lhs.nodes ++ rhs.nodes) := by
  simp only [nodes, nodesOnto]
  rw [nodesOnto_eq, nodes]

/-- The nodes of a set test are itself and those of its operand. -/
@[simp] lemma nodes_within (operand : Expr) (set : Version.RangeSet) :
    (within operand set).nodes = within operand set :: operand.nodes := rfl

/-- The nodes of a tagged part are itself and those of its operand. -/
@[simp] lemma nodes_tagged (operand : Expr) (tag : String) :
    (tagged operand tag).nodes = tagged operand tag :: operand.nodes := rfl

/-- An expression is one of its nodes. -/
lemma self_mem_nodes (e : Expr) : e ∈ e.nodes := by
  cases e <;> simp [nodes, nodesOnto]

/-- A node of a connective is itself or a node of one of its operands. -/
lemma mem_nodes_logical {n lhs rhs : Expr} {op : LogicalOp}
    (h : n ∈ (logical op lhs rhs).nodes) :
    n = logical op lhs rhs ∨ n ∈ lhs.nodes ∨ n ∈ rhs.nodes := by
  simpa using h

/-- The parts of a part of an expression are parts of the expression. -/
theorem nodes_subset_of_mem_nodes {n e : Expr} (h : n ∈ e.nodes) : n.nodes ⊆ e.nodes := by
  induction e with
  | compare op lhs rhs ihl ihr | logical op lhs rhs ihl ihr =>
    simp only [nodes_compare, nodes_logical, List.mem_cons, List.mem_append] at h
    rcases h with rfl | h | h
    · simp
    · intro x hx
      simp [ihl h hx]
    · intro x hx
      simp [ihr h hx]
  | within operand set ih | tagged operand tag ih =>
    simp only [nodes_within, nodes_tagged, List.mem_cons] at h
    rcases h with rfl | h
    · simp
    · intro x hx
      simp [ih h hx]
  | _ =>
    obtain rfl := List.mem_singleton.mp h
    exact List.Subset.refl _

/-! ### Tags -/

/-- A comparison has the tags of its sides. -/
@[simp] lemma tags_compare (op : CompareOp) (lhs rhs : Expr) :
    (compare op lhs rhs).tags = lhs.tags ++ rhs.tags := by
  rw [tags, nodes_compare, List.filterMap_cons_none rfl, List.filterMap_append, tags, tags]

/-- A connective has the tags of its operands. -/
@[simp] lemma tags_logical (op : LogicalOp) (lhs rhs : Expr) :
    (logical op lhs rhs).tags = lhs.tags ++ rhs.tags := by
  rw [tags, nodes_logical, List.filterMap_cons_none rfl, List.filterMap_append, tags, tags]

/-- A set test has the tags of its operand. -/
@[simp] lemma tags_within (operand : Expr) (set : Version.RangeSet) :
    (within operand set).tags = operand.tags := by
  rw [tags, nodes_within, List.filterMap_cons_none rfl, tags]

/-- The tag of a tagged part comes before those inside. -/
@[simp] lemma tags_tagged (operand : Expr) (tag : String) :
    (tagged operand tag).tags = tag :: operand.tags := by
  have h : (tagged operand tag).tag? = some tag := rfl
  rw [tags, nodes_tagged, List.filterMap_cons_some h, tags]

/-- Folding a comparison loses no tags. -/
@[simp] theorem tags_comparison (op : CompareOp) (lhs rhs : Expr) :
    (comparison op lhs rhs).tags = lhs.tags ++ rhs.tags := by
  unfold comparison
  split
  · rfl
  · rfl
  · exact tags_compare op lhs rhs

/-- Folding a set test loses no tags. -/
@[simp] theorem tags_membership (operand : Expr) (set : Version.RangeSet) :
    (membership operand set).tags = operand.tags := by
  unfold membership
  split
  · rfl
  · exact tags_within operand set

/-! ### References -/

/-- A reference refers to its name. -/
@[simp] lemma mem_references_reference {x name : String} :
    x ∈ (reference name).references ↔ x = name := by
  have h : (reference name).referenceName? = some name := rfl
  have hnodes : (reference name).nodes = [reference name] := rfl
  rw [references, Text.mem_nameSet, hnodes, List.filterMap_cons_some h]
  simp

/-- A comparison refers to what its sides refer to. -/
@[simp] lemma mem_references_compare {x : String} {op : CompareOp} {lhs rhs : Expr} :
    x ∈ (compare op lhs rhs).references ↔ x ∈ lhs.references ∨ x ∈ rhs.references := by
  simp only [references, Text.mem_nameSet]
  rw [nodes_compare, List.filterMap_cons_none rfl, List.filterMap_append, List.mem_append]

/-- A connective refers to what its operands refer to. -/
@[simp] lemma mem_references_logical {x : String} {op : LogicalOp} {lhs rhs : Expr} :
    x ∈ (logical op lhs rhs).references ↔ x ∈ lhs.references ∨ x ∈ rhs.references := by
  simp only [references, Text.mem_nameSet]
  rw [nodes_logical, List.filterMap_cons_none rfl, List.filterMap_append, List.mem_append]

/-- A set test refers to what its operand refers to. -/
@[simp] lemma mem_references_within {x : String} {operand : Expr} {set : Version.RangeSet} :
    x ∈ (within operand set).references ↔ x ∈ operand.references := by
  simp only [references, Text.mem_nameSet]
  rw [nodes_within, List.filterMap_cons_none rfl]

/-- A tagged part refers to what its operand refers to. -/
@[simp] lemma mem_references_tagged {x : String} {operand : Expr} {tag : String} :
    x ∈ (tagged operand tag).references ↔ x ∈ operand.references := by
  simp only [references, Text.mem_nameSet]
  rw [nodes_tagged, List.filterMap_cons_none rfl]

/-- Whether the expression has no operands and refers to no definition. -/
def isAtom : Expr → Bool
  | bool _ | text _ | version _ | platform _ | package _ _ _ | probe _ _ => true
  | _ => false

/-- Names of modules, probes and literals refer to no definition. -/
lemma references_of_isAtom {e : Expr} (h : e.isAtom = true) : e.references = [] := by
  cases e with
  | bool | text | version | platform | package | probe => rfl
  | _ => cases h

end Expr

end Requirements
