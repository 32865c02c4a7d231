import Mathlib.Data.Option.NAry
import Mathlib.Tactic.Lemma
import Requirements.Proofs.Expr.Prune

/-!
# What survives pruning

What is left of a connective or a comparison is put together from what is left of its operands. So
pruning can be done in steps: pruning under some options and then under others leaves what the
options common to both leave, and options that leave out no tag of an expression leave all of it.

A chain of operands is pruned operand by operand. Those that survive keep their order, and each but
the first keeps the connective in front of it.
-/

namespace Requirements

namespace Expr

variable {options a b c : List String}

/-! ### What is left of the operands -/

/-- A selected tag stays on what its operand leaves. -/
lemma prune_tagged_of_mem {tag : String} (h : tag ∈ options) (operand : Expr) :
    (tagged operand tag).prune options = (operand.prune options).map (tagged · tag) := by
  rw [prune, if_pos (by simpa using h)]

/-- An unselected tag takes its operand away. -/
lemma prune_tagged_of_notMem {tag : String} (h : tag ∉ options) (operand : Expr) :
    (tagged operand tag).prune options = none := by
  rw [prune, if_neg (by simpa using h)]

/-- A set test survives with its operand. -/
lemma prune_within (operand : Expr) (set : Version.RangeSet) :
    (within operand set).prune options = (operand.prune options).map (within · set) := by
  rw [prune]

/-- A comparison needs both operands. -/
theorem prune_compare (op : CompareOp) (lhs rhs : Expr) :
    (compare op lhs rhs).prune options =
      Option.map₂ (compare op) (lhs.prune options) (rhs.prune options) := by
  rw [prune]
  cases lhs.prune options <;> cases rhs.prune options <;> rfl

/-- A connective between what is left of two operands: one that is left alone takes its place. -/
def joined? (op : LogicalOp) : Option Expr → Option Expr → Option Expr
  | some l, some r => some (logical op l r)
  | some l, none => some l
  | none, r => r

/-- Joining nothing on the right leaves the left side. -/
@[simp] lemma joined?_none_right (op : LogicalOp) (l : Option Expr) : joined? op l none = l := by
  cases l <;> rfl

/-- A connective joins what its operands leave. -/
lemma prune_logical (op : LogicalOp) (lhs rhs : Expr) :
    (logical op lhs rhs).prune options =
      joined? op (lhs.prune options) (rhs.prune options) := by
  rw [prune]
  cases lhs.prune options <;> cases rhs.prune options <;> rfl

/-! ### Pruning in steps -/

/-- Pruning what is left of a connective prunes what is left of its operands. -/
theorem joined?_bind_prune (op : LogicalOp) (l r : Option Expr) :
    (joined? op l r).bind (prune b) = joined? op (l.bind (prune b)) (r.bind (prune b)) := by
  cases l with
  | none => rfl
  | some l =>
    cases r with
    | none => exact (joined?_none_right op _).symm
    | some r => exact prune_logical op l r

/-- Pruning what is left of a comparison prunes what is left of its operands. -/
theorem map₂_compare_bind_prune (op : CompareOp) (l r : Option Expr) :
    (Option.map₂ (compare op) l r).bind (prune b) =
      Option.map₂ (compare op) (l.bind (prune b)) (r.bind (prune b)) := by
  cases l with
  | none => rfl
  | some l =>
    cases r with
    | none => exact (Option.map₂_none_right (compare op) _).symm
    | some r => exact prune_compare op l r

/-- Pruning under `a` and then under `b` is pruning under the options common to both. -/
theorem prune_bind_prune (hc : ∀ tag, tag ∈ c ↔ tag ∈ a ∧ tag ∈ b) (e : Expr) :
    (e.prune a).bind (prune b) = e.prune c := by
  induction e with
  | tagged operand tag ih =>
    -- The first step decides whether there is anything left for the second one to decide about.
    by_cases ha : tag ∈ a
    · rw [prune_tagged_of_mem ha, Option.bind_map]
      by_cases hb : tag ∈ b
      · rw [prune_tagged_of_mem ((hc tag).mpr ⟨ha, hb⟩), ← ih, Option.map_bind]
        exact congrArg _ (funext fun inner => prune_tagged_of_mem hb inner)
      · rw [prune_tagged_of_notMem fun h => hb ((hc tag).mp h).2]
        exact Option.bind_eq_none_iff.mpr fun inner _ => prune_tagged_of_notMem hb inner
    · rw [prune_tagged_of_notMem ha, prune_tagged_of_notMem fun h => ha ((hc tag).mp h).1]
      rfl
  | logical op lhs rhs ihl ihr =>
    rw [prune_logical, joined?_bind_prune, ihl, ihr, prune_logical]
  | compare op lhs rhs ihl ihr =>
    rw [prune_compare, map₂_compare_bind_prune, ihl, ihr, prune_compare]
  | within operand set ih =>
    rw [prune_within, prune_within, Option.bind_map, ← ih, Option.map_bind]
    exact congrArg _ (funext fun inner => prune_within inner set)
  | _ => rfl

/-- Options among which are all tags of an expression leave all of it. -/
theorem prune_of_tags_subset {e : Expr} (h : e.tags ⊆ options) : e.prune options = some e := by
  induction e with
  | tagged operand tag ih =>
    rw [tags_tagged, List.cons_subset] at h
    rw [prune_tagged_of_mem h.1, ih h.2]
    rfl
  | logical op lhs rhs ihl ihr =>
    rw [tags_logical, List.append_subset] at h
    rw [prune_logical, ihl h.1, ihr h.2]
    rfl
  | compare op lhs rhs ihl ihr =>
    rw [tags_compare, List.append_subset] at h
    rw [prune_compare, ihl h.1, ihr h.2]
    rfl
  | within operand set ih =>
    rw [tags_within] at h
    rw [prune_within, ih h]
    rfl
  | _ => rfl

/-! ### Chains -/

/-- The chain `first op₁ e₁ op₂ e₂ …`, grouped to the left. -/
def chain (first : Expr) (rest : List (LogicalOp × Expr)) : Expr :=
  rest.foldl (fun e x => logical x.1 e x.2) first

/-- The chain of the operands that are left. If the first operand is not, the next one takes its
place and gives up its connective. -/
def chain? : Option Expr → List (LogicalOp × Expr) → Option Expr
  | some first, rest => some (chain first rest)
  | none, [] => none
  | none, x :: rest => some (chain x.2 rest)

/-- What is left of the operands of a chain behind the first, each with the connective in front of
it. -/
def survivors (options : List String) (rest : List (LogicalOp × Expr)) :
    List (LogicalOp × Expr) :=
  rest.filterMap fun x => (x.2.prune options).map fun e => (x.1, e)

/-- A chain is pruned operand by operand. -/
theorem prune_chain (first : Expr) (rest : List (LogicalOp × Expr)) :
    (chain first rest).prune options = chain? (first.prune options) (survivors options rest) := by
  induction rest generalizing first with
  | nil =>
    cases h : first.prune options with
    | none => exact h
    | some e => exact h
  | cons x rest ih =>
    -- The first two operands make up the first operand of a shorter chain.
    have hstep : chain first (x :: rest) = chain (logical x.1 first x.2) rest := rfl
    rw [hstep, ih, prune_logical, survivors, survivors, List.filterMap_cons]
    cases first.prune options <;> cases x.2.prune options <;> rfl

/-- Pruning can be done in steps, in any order and repeatedly, and is nothing if no tag is left out.
Of a chain it leaves the chain of the operands that survive. -/
theorem prune_stepwise (e : Expr) (a b : List String) :
    (∀ c : List String, (∀ tag, tag ∈ c ↔ tag ∈ a ∧ tag ∈ b) →
        (e.prune a).bind (prune b) = e.prune c) ∧
      (e.prune a).bind (prune a) = e.prune a ∧
      (e.prune a).bind (prune b) = (e.prune b).bind (prune a) ∧
      (e.tags ⊆ a → e.prune a = some e) ∧
      ∀ (first : Expr) (rest : List (LogicalOp × Expr)),
        (chain first rest).prune a = chain? (first.prune a) (survivors a rest) := by
  have hcommon : ∀ tag, tag ∈ a.filter (· ∈ b) ↔ tag ∈ a ∧ tag ∈ b := by simp
  have hcommon' : ∀ tag, tag ∈ a.filter (· ∈ b) ↔ tag ∈ b ∧ tag ∈ a := by simp [and_comm]
  refine ⟨fun c hc => prune_bind_prune hc e, prune_bind_prune (by simp) e, ?_,
    prune_of_tags_subset, prune_chain⟩
  exact (prune_bind_prune hcommon e).trans (prune_bind_prune hcommon' e).symm

/-- The first operand of a chain goes, in one step or in two, and the second one takes its place and
gives up its connective. The last one is left without its alternative. -/
theorem prune_stepwise_of_chain :
    let module (name : String) : Expr := .package name none []
    let rest : List (LogicalOp × Expr) := [(.xor, .tagged (module "B") "y"),
      (.and, .logical .or (module "C") (.tagged (module "D") "z"))]
    let e := chain (.tagged (module "A") "x") rest
    (∀ tag, tag ∈ ["y"] ↔ tag ∈ ["y", "z"] ∧ tag ∈ ["x", "y"]) ∧
      (e.prune ["y", "z"]).bind (prune ["x", "y"]) = e.prune ["y"] ∧
      e.prune ["y"] = some (chain (.tagged (module "B") "y") [(.and, module "C")]) ∧
      e.tags ⊆ ["x", "y", "z"] ∧ e.prune ["x", "y", "z"] = some e := by
  intro module rest e
  have hcommon : ∀ tag, tag ∈ ["y"] ↔ tag ∈ ["y", "z"] ∧ tag ∈ ["x", "y"] := by
    intro tag
    constructor
    · intro h
      obtain rfl := List.mem_singleton.mp h
      decide
    · rintro ⟨h, h'⟩
      rcases List.mem_cons.mp h with rfl | h
      · exact List.mem_singleton_self "y"
      · obtain rfl := List.mem_singleton.mp h
        exact absurd h' (by decide)
  have htags : e.tags ⊆ ["x", "y", "z"] := by decide
  have hsteps := (prune_stepwise e ["y", "z"] ["x", "y"]).1 ["y"] hcommon
  have hall := (prune_stepwise e ["x", "y", "z"] []).2.2.2.1 htags
  have hchain := (prune_stepwise e ["y"] []).2.2.2.2 (.tagged (module "A") "x") rest
  exact ⟨hcommon, hsteps, hchain.trans rfl, htags, hall⟩

end Expr

end Requirements
