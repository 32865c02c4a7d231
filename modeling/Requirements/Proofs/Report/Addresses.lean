import Mathlib.Tactic.Lemma
import Requirements.Proofs.Evaluation.Nodes
import Requirements.Report.Builder

/-!
# Addresses in a trace

A part of a trace is found at its *address*: the numbers of the operands that lead to it from the
whole. In the lexicographic order of the addresses a part comes before everything below it, and what
is below the left operand comes before what is below the right one.

A report passes over what lies below a reference whose definition was evaluated before. The parts
that it visits are listed by `visits`: in the order of their addresses, each once.
-/

namespace Requirements

namespace Trace

/-! ### Parts and what is around them -/

/-- The part at an address, if there is one. -/
def part? : Trace → List Nat → Option Trace
  | t, [] => some t
  | t, i :: rest => t.children[i]?.bind (part? · rest)

/-- The parts around an address, from the outside to the inside. The part at the address is not
among them. -/
def above : Trace → List Nat → List Trace
  | _, [] => []
  | t, i :: rest => t :: (t.children[i]?.elim [] (above · rest))

/-- Whether the trace is a reference whose definition was evaluated before. -/
def isReused : Trace → Bool
  | reference _ _ cached _ => cached
  | _ => false

/-- Whether the trace is a comparison or a set test. -/
def isTest : Trace → Bool
  | compare _ _ _ _ | within _ _ _ _ => true
  | _ => false

/-- The trace `u` is the part at the address `a`, and no reused reference is around it. -/
structure Reaches (t : Trace) (a : List Nat) (u : Trace) : Prop where
  part : t.part? a = some u
  fresh : ∀ v ∈ t.above a, v.isReused = false

@[simp] lemma part?_nil (t : Trace) : t.part? [] = some t := rfl

@[simp] lemma above_nil (t : Trace) : t.above [] = [] := rfl

/-- An address that goes through a child is an address of the child. -/
lemma part?_cons {t c : Trace} {i : Nat} (h : t.children[i]? = some c) (a : List Nat) :
    t.part? (i :: a) = c.part? a := by
  rw [part?, h]
  rfl

/-- Above a part of a child are the trace itself and the parts above within the child. -/
lemma above_cons {t c : Trace} {i : Nat} (h : t.children[i]? = some c) (a : List Nat) :
    t.above (i :: a) = t :: c.above a := by
  rw [above, h]
  rfl

/-- A part at a longer address is a part of a child. -/
lemma part?_cons_eq_some_iff {t u : Trace} {i : Nat} {a : List Nat} :
    t.part? (i :: a) = some u ↔ ∃ c, t.children[i]? = some c ∧ c.part? a = some u := by
  rw [part?, Option.bind_eq_some_iff]

/-- A part at an address is a part of the trace. -/
theorem mem_nodes_of_part? {t u : Trace} {a : List Nat} (h : t.part? a = some u) : u ∈ t.nodes := by
  induction a generalizing t with
  | nil =>
    obtain rfl := Option.some.inj h
    exact mem_nodes_iff.mpr (.inl rfl)
  | cons i a ih =>
    obtain ⟨c, hc, hpart⟩ := part?_cons_eq_some_iff.mp h
    exact mem_nodes_iff.mpr (.inr ⟨c, List.mem_of_getElem? hc, ih hpart⟩)

/-- The empty address reaches the trace itself. -/
lemma reaches_nil_iff {t u : Trace} : t.Reaches [] u ↔ t = u := by
  constructor
  · intro h
    exact Option.some.inj h.part
  · rintro rfl
    exact ⟨rfl, by simp⟩

/-- A longer address reaches through a child, unless the trace shows a reused result. -/
lemma reaches_cons_iff {t u : Trace} {i : Nat} {a : List Nat} :
    t.Reaches (i :: a) u ↔
      t.isReused = false ∧ ∃ c, t.children[i]? = some c ∧ c.Reaches a u := by
  constructor
  · intro h
    obtain ⟨c, hc, hpart⟩ := part?_cons_eq_some_iff.mp h.part
    have hfresh := h.fresh
    rw [above_cons hc, List.forall_mem_cons] at hfresh
    exact ⟨hfresh.1, c, hc, hpart, hfresh.2⟩
  · rintro ⟨ht, c, hc, h⟩
    refine ⟨part?_cons_eq_some_iff.mpr ⟨c, hc, h.part⟩, ?_⟩
    rw [above_cons hc, List.forall_mem_cons]
    exact ⟨ht, h.fresh⟩

/-- Below a part that is reached, and that is no reused reference, its operands are reached. -/
theorem Reaches.child {t u c : Trace} {a : List Nat} {i : Nat} (h : t.Reaches a u)
    (hu : u.isReused = false) (hc : u.children[i]? = some c) : t.Reaches (a ++ [i]) c := by
  induction a generalizing t with
  | nil =>
    obtain rfl := reaches_nil_iff.mp h
    exact reaches_cons_iff.mpr ⟨hu, c, hc, reaches_nil_iff.mpr rfl⟩
  | cons j a ih =>
    obtain ⟨ht, d, hd, h⟩ := reaches_cons_iff.mp h
    exact reaches_cons_iff.mpr ⟨ht, d, hd, ih h⟩

/-- Around an operand of a part is the part itself and what is around the part. -/
theorem above_concat {t u c : Trace} {a : List Nat} {i : Nat} (hu : t.part? a = some u)
    (hc : u.children[i]? = some c) : t.above (a ++ [i]) = t.above a ++ [u] := by
  induction a generalizing t with
  | nil =>
    obtain rfl := Option.some.inj hu
    rw [List.nil_append, above_cons hc]
    rfl
  | cons j a ih =>
    obtain ⟨d, hd, hu⟩ := part?_cons_eq_some_iff.mp hu
    rw [List.cons_append, above_cons hd, above_cons hd, ih hu, List.cons_append]

/-- The trace `u` is a part of `t` at some address, with no reused reference around it. -/
def Shows (t u : Trace) : Prop :=
  ∃ a, t.Reaches a u

/-- A trace shows itself and, unless it is a reused reference, what its operands show. -/
theorem shows_iff {t u : Trace} :
    t.Shows u ↔ t = u ∨ t.isReused = false ∧ ∃ c ∈ t.children, c.Shows u := by
  constructor
  · rintro ⟨a, h⟩
    cases a with
    | nil => exact .inl (reaches_nil_iff.mp h)
    | cons i a =>
      obtain ⟨ht, c, hc, h⟩ := reaches_cons_iff.mp h
      exact .inr ⟨ht, c, List.mem_of_getElem? hc, a, h⟩
  · rintro (rfl | ⟨ht, c, hc, a, h⟩)
    · exact ⟨[], reaches_nil_iff.mpr rfl⟩
    · obtain ⟨i, hi⟩ := List.mem_iff_getElem?.mp hc
      exact ⟨i :: a, reaches_cons_iff.mpr ⟨ht, c, hi, h⟩⟩

/-- What holds of a trace if it holds of its operands holds of every trace. -/
theorem childInduction {P : Trace → Prop} (h : ∀ t, (∀ c ∈ t.children, P c) → P t) (t : Trace) :
    P t := by
  induction t with
  | reference name isChoice cached body ih => exact h _ (by simpa [children] using ih)
  | tagged operand tag ih => exact h _ (by simpa [children] using ih)
  | within operand set tested truthy ih => exact h _ (by simpa [children] using ih)
  | shortCircuit op lhs skipped truthy ih => exact h _ (by simpa [children] using ih)
  | compare op lhs rhs truthy ihl ihr => exact h _ (by simpa [children] using ⟨ihl, ihr⟩)
  | logical op lhs rhs truthy ihl ihr => exact h _ (by simpa [children] using ⟨ihl, ihr⟩)
  | _ => exact h _ (by simp [children])

/-! ### The order of the visit -/

/-- The addresses of the parts that a report visits, in order. -/
def visits : Trace → List (List Nat)
  | reference _ _ cached body => [] :: if cached then [] else body.visits.map (0 :: ·)
  | tagged operand _ | within operand _ _ _ | shortCircuit _ operand _ _ =>
    [] :: operand.visits.map (0 :: ·)
  | compare _ lhs rhs _ | logical _ lhs rhs _ =>
    [] :: (lhs.visits.map (0 :: ·) ++ rhs.visits.map (1 :: ·))
  | _ => [[]]

/-- A part is visited before its operands, unless it is a reused reference, whose operand is not
visited. -/
theorem visits_eq (t : Trace) :
    t.visits = [] :: if t.isReused then [] else
      t.children.zipIdx.flatMap fun c => c.1.visits.map (c.2 :: ·) := by
  cases t with
  | reference name isChoice cached body => cases cached <;> simp [visits, isReused, children]
  | _ => simp [visits, isReused, children]

/-- The addresses that are visited are those that are reached. -/
theorem mem_visits_iff {t : Trace} {a : List Nat} : a ∈ t.visits ↔ ∃ u, t.Reaches a u := by
  induction t using childInduction generalizing a with
  | h t ih =>
    rw [visits_eq, List.mem_cons]
    cases a with
    | nil => simpa using ⟨t, reaches_nil_iff.mpr rfl⟩
    | cons i a =>
      simp only [reduceCtorEq, false_or]
      cases ht : t.isReused with
      | true => simp [reaches_cons_iff, ht]
      | false =>
        simp only [Bool.false_eq_true, if_false, List.mem_flatMap, List.mem_map, List.cons.injEq,
          reaches_cons_iff, ht, true_and]
        constructor
        · rintro ⟨⟨c, j⟩, hc, b, hb, rfl, rfl⟩
          rw [List.mem_zipIdx_iff_getElem?] at hc
          obtain ⟨u, hu⟩ := (ih c (List.mem_of_getElem? hc)).mp hb
          exact ⟨u, c, hc, hu⟩
        · rintro ⟨u, c, hc, hu⟩
          have ha : a ∈ c.visits := (ih c (List.mem_of_getElem? hc)).mpr ⟨u, hu⟩
          exact ⟨(c, i), List.mem_zipIdx_iff_getElem?.mpr hc, a, ha, rfl, rfl⟩

/-- The addresses are visited in lexicographic order. -/
theorem pairwise_visits (t : Trace) : t.visits.Pairwise (· < ·) := by
  induction t using childInduction with
  | h t ih =>
    have hindices : t.children.zipIdx.Pairwise fun c d => c.2 < d.2 := by
      rw [← List.pairwise_map (f := Prod.snd), List.zipIdx_map_snd]
      exact List.pairwise_lt_range'
    rw [visits_eq, List.pairwise_cons]
    constructor
    · intro a ha
      split at ha
      · exact absurd ha List.not_mem_nil
      · obtain ⟨c, -, hc⟩ := List.mem_flatMap.mp ha
        obtain ⟨b, -, rfl⟩ := List.mem_map.mp hc
        exact List.nil_lt_cons c.2 b
    · split
      · exact List.Pairwise.nil
      -- Within an operand the addresses agree on the first number, across operands it increases.
      · rw [List.pairwise_flatMap]
        constructor
        · intro c hc
          rw [List.pairwise_map]
          refine (ih c.1 (List.fst_mem_of_mem_zipIdx hc)).imp fun hab => ?_
          exact List.cons_lt_cons_iff.mpr (.inr ⟨rfl, hab⟩)
        · refine hindices.imp fun hcd a ha b hb => ?_
          obtain ⟨a, -, rfl⟩ := List.mem_map.mp ha
          obtain ⟨b, -, rfl⟩ := List.mem_map.mp hb
          exact List.cons_lt_cons_iff.mpr (.inl hcd)

end Trace

end Requirements
