import Mathlib.Data.List.Perm.Basic
import Mathlib.Data.Prod.Lex
import Mathlib.Order.BooleanAlgebra.Basic
import Mathlib.Tactic.Lemma
import Requirements.Program.Basic

/-!
# The order of printing

Definitions are printed by line, and on one line the plain ones come before the choices; definitions
of one kind keep the order in which they were given. This leaves only one order, and it is the order
in which they were given unless on some line a choice was given before a plain definition.
-/

namespace Requirements

/-- A stable sort turns no pair around that it may leave as it is. -/
theorem pair_sublist_of_mergeSort {α : Type} {le : α → α → Bool}
    (trans : ∀ a b c, le a b = true → le b c = true → le a c = true)
    (total : ∀ a b, (le a b || le b a) = true) {l : List α} {a b : α}
    (h : List.Sublist [a, b] (l.mergeSort le)) (hba : le b a = true) : List.Sublist [a, b] l := by
  have hab : le a b = true := by
    have hsorted := List.pairwise_mergeSort trans total l
    exact List.pairwise_iff_forall_sublist.mp hsorted h
  -- The members that are as good as `a` keep their order.
  let alike (c : α) : Bool := le a c && le c a
  have halike {c : α} (hc : c ∈ l.filter alike) : le a c = true ∧ le c a = true := by
    simpa [alike] using List.of_mem_filter hc
  have hkept : List.Sublist (l.filter alike) (l.mergeSort le) := by
    refine List.sublist_mergeSort trans total ?_ List.filter_sublist
    exact List.pairwise_of_forall_mem_list fun c hc d hd =>
      trans c a d (halike hc).2 (halike hd).1
  have hfilter : l.filter alike = (l.mergeSort le).filter alike := by
    refine List.Sublist.eq_of_length ?_ ?_
    · simpa using hkept.filter alike
    · exact (((List.mergeSort_perm l le).filter alike).length_eq).symm
  have haa : le a a = true := by simpa using total a a
  have hpair : List.Sublist [a, b] ((l.mergeSort le).filter alike) := by
    have hboth := h.filter alike
    simpa [alike, hab, hba, haa] using hboth
  rw [← hfilter] at hpair
  exact hpair.trans List.filter_sublist

namespace Definition

/-- The rank of a definition in print: its line, and on one line the plain ones before the
choices. -/
def printRank (d : Definition) : Nat ×ₗ Bool :=
  toLex (d.line, d.isChoice)

/-- Definitions are ranked by their lines, and on one line choices come behind the others. -/
lemma printRank_le_iff {d e : Definition} : d.printRank ≤ e.printRank ↔
    d.line < e.line ∨ d.line = e.line ∧ (d.isChoice = true → e.isChoice = true) := by
  rw [printRank, printRank, Prod.Lex.toLex_le_toLex, Bool.le_iff_imp]

/-- Of definitions in the order of their lines, the ranks tell whether a choice comes before a plain
definition on one line. -/
theorem printRank_le_iff_of_line_le {d e : Definition} (hle : d.line ≤ e.line) :
    d.printRank ≤ e.printRank ↔
      (d.line = e.line → d.isChoice = true → e.isChoice = true) := by
  rw [printRank_le_iff]
  constructor
  · rintro (hlt | ⟨-, hkinds⟩) heq
    · omega
    · exact hkinds
  · intro h
    rcases Nat.lt_or_eq_of_le hle with hlt | heq
    · exact .inl hlt
    · exact .inr ⟨heq, h heq⟩

/-- The definitions of either kind are the same ones, in the same order. -/
def AgreeByKind (definitions definitions' : List Definition) : Prop :=
  ∀ kind, definitions.filter (fun d => d.kind == kind) =
    definitions'.filter fun d => d.kind == kind

/-- Definitions that agree by kind agree if their kinds come in the same order. -/
theorem AgreeByKind.eq_of_map_kind {definitions definitions' : List Definition}
    (h : AgreeByKind definitions definitions')
    (hkinds : definitions.map kind = definitions'.map kind) : definitions = definitions' := by
  induction definitions generalizing definitions' with
  | nil =>
    cases definitions' with
    | nil => rfl
    | cons e definitions' => cases hkinds
  | cons d definitions ih =>
    cases definitions' with
    | nil => cases hkinds
    | cons e definitions' =>
      obtain ⟨hkind, hrest⟩ := List.cons.inj hkinds
      have hfirst := h d.kind
      rw [List.filter_cons_of_pos (by simp), List.filter_cons_of_pos (by simp [hkind])] at hfirst
      obtain rfl := (List.cons.inj hfirst).1
      refine congrArg (d :: ·) (ih (fun kind => ?_) hrest)
      have htail := h kind
      rw [List.filter_cons, List.filter_cons] at htail
      split at htail
      · exact (List.cons.inj htail).2
      · exact htail

/-- There is only one order by rank in which the definitions of each kind have a given order. -/
theorem AgreeByKind.eq_of_pairwise {definitions definitions' : List Definition}
    (h : AgreeByKind definitions definitions') (hperm : definitions.Perm definitions')
    (hleft : definitions.Pairwise fun d e => d.printRank ≤ e.printRank)
    (hright : definitions'.Pairwise fun d e => d.printRank ≤ e.printRank) :
    definitions = definitions' := by
  have hranks : definitions.map printRank = definitions'.map printRank :=
    List.Perm.eq_of_pairwise (fun _ _ _ _ => le_antisymm) (List.pairwise_map.mpr hleft)
      (List.pairwise_map.mpr hright) (hperm.map printRank)
  let kindAt (rank : Nat ×ₗ Bool) : DefinitionKind := if (ofLex rank).2 then .choice else .plain
  have hkind : kind = kindAt ∘ printRank := by
    funext d
    cases hkind : d.kind <;> simp [kindAt, printRank, isChoice, hkind]
  refine h.eq_of_map_kind ?_
  rw [hkind, ← List.map_map, ← List.map_map, hranks]

end Definition

namespace Program

variable {p : Program}

/-- Printing leaves no definition out. -/
lemma printOrder_perm (p : Program) : p.printOrder.Perm p.definitions := by
  refine (List.mergeSort_perm _ _).trans ?_
  have hsplit := List.filter_append_perm (fun d => !Definition.isChoice d) p.definitions
  simpa [plains, choices] using hsplit

/-- The order by lines is transitive. -/
private lemma line_le_trans (a b c : Definition) (hab : decide (a.line ≤ b.line) = true)
    (hbc : decide (b.line ≤ c.line) = true) : decide (a.line ≤ c.line) = true := by
  simp only [decide_eq_true_eq] at hab hbc ⊢
  exact Nat.le_trans hab hbc

/-- The order by lines is total. -/
private lemma line_le_total (a b : Definition) :
    (decide (a.line ≤ b.line) || decide (b.line ≤ a.line)) = true := by
  simpa using Nat.le_total a.line b.line

/-- Definitions are printed by line, and on one line the plain ones before the choices. -/
theorem pairwise_printOrder (p : Program) :
    p.printOrder.Pairwise fun d e => d.printRank ≤ e.printRank := by
  refine List.pairwise_iff_forall_sublist.mpr fun {d e} h => ?_
  have hle : d.line ≤ e.line := by
    have hsorted := List.pairwise_mergeSort line_le_trans line_le_total (p.plains ++ p.choices)
    simpa using List.pairwise_iff_forall_sublist.mp hsorted h
  rw [Definition.printRank_le_iff_of_line_le hle]
  intro hline
  have hkinds : (p.plains ++ p.choices).Pairwise
      fun d e => d.isChoice = true → e.isChoice = true := by
    refine List.pairwise_append.mpr ⟨?_, ?_, ?_⟩
    · exact List.pairwise_of_forall_mem_list fun d hd e he => by simp_all [plains]
    · exact List.pairwise_of_forall_mem_list fun d hd e he => by simp_all [choices]
    · intro d hd e he
      simp_all [plains, choices]
  have hgiven := pair_sublist_of_mergeSort line_le_trans line_le_total h (by simp [hline])
  exact List.pairwise_iff_forall_sublist.mp hkinds hgiven

/-- The definitions of either kind, in the order in which they were given. -/
theorem filter_kind (p : Program) (kind : DefinitionKind) :
    (p.plains ++ p.choices).filter (fun d => d.kind == kind) =
      p.definitions.filter fun d => d.kind == kind := by
  cases kind with
  | plain =>
    have hplain (d : Definition) : (d.kind == .plain) = !d.isChoice := by
      cases hkind : d.kind <;> simp [Definition.isChoice, hkind]
    simp [plains, choices, hplain]
  | choice =>
    have hchoice (d : Definition) : (d.kind == .choice) = d.isChoice := rfl
    simp [plains, choices, hchoice]

/-- Definitions of one kind are printed in the order in which they were given, if that is the order
of their lines. -/
theorem agreeByKind_printOrder (h : p.definitions.Pairwise fun d e => d.line ≤ e.line) :
    Definition.AgreeByKind p.printOrder p.definitions := by
  intro kind
  have hgiven : List.Sublist (p.definitions.filter fun d => d.kind == kind)
      (p.plains ++ p.choices) := by
    rw [← p.filter_kind kind]
    exact List.filter_sublist
  have hkept : List.Sublist (p.definitions.filter fun d => d.kind == kind) p.printOrder := by
    refine List.sublist_mergeSort line_le_trans line_le_total ?_ hgiven
    exact (h.sublist List.filter_sublist).imp fun hle => by simpa using hle
  refine (List.Sublist.eq_of_length ?_ ?_).symm
  · simpa using hkept.filter fun d => d.kind == kind
  · exact ((p.printOrder_perm.filter _).length_eq).symm

/-- Definitions in the order of their lines are printed in the order in which they were given
exactly if on no line a choice was given before a plain definition. -/
theorem printOrder_eq_iff (h : p.definitions.Pairwise fun d e => d.line ≤ e.line) :
    p.printOrder = p.definitions ↔ p.definitions.Pairwise
      fun d e => d.line = e.line → d.isChoice = true → e.isChoice = true := by
  have hranks : (p.definitions.Pairwise fun d e => d.printRank ≤ e.printRank) ↔
      p.definitions.Pairwise
        fun d e => d.line = e.line → d.isChoice = true → e.isChoice = true := by
    simp only [List.pairwise_iff_forall_sublist] at h ⊢
    exact forall₃_congr fun d e hde => Definition.printRank_le_iff_of_line_le (h hde)
  rw [← hranks]
  constructor
  · intro heq
    rw [← heq]
    exact p.pairwise_printOrder
  · exact (agreeByKind_printOrder h).eq_of_pairwise p.printOrder_perm p.pairwise_printOrder

end Program

end Requirements
