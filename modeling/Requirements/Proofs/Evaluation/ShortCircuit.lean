import Mathlib.Tactic.Lemma
import Requirements.Proofs.Evaluation.Strict
import Requirements.Proofs.Program.Selection
import Requirements.Proofs.Report.Addresses

/-!
# Evaluations stop where a strict one goes on

A connective whose left operand decides it is evaluated without its right operand. Whenever a strict
evaluation succeeds, which evaluates that operand too, the evaluation of the program succeeds: it
visits some of the parts that the strict one visits, finds the same values there, and asks no
question that the strict one does not ask. The two evaluations need not come to a definition at the
same reference first, as the one of the strict evaluation may stand in an operand that is passed
over.
-/

namespace Requirements

/-! ### Abridged traces -/

namespace Trace

/-- `t.Abridges t'` means that `t` is `t'` without the right operands of some of the connectives
that their left operands decide, and perhaps with other references as the first ones. -/
inductive Abridges : Trace → Trace → Prop
  | atom {t : Trace} : t.expr.isAtom = true → t.Abridges t
  | unselected (name : String) : (unselected name).Abridges (unselected name)
  | reference {body body' : Trace} (name : String) (isChoice cached cached' : Bool) :
    body.Abridges body' →
    (reference name isChoice cached body).Abridges (reference name isChoice cached' body')
  | tagged {t t' : Trace} (tag : String) : t.Abridges t' → (tagged t tag).Abridges (tagged t' tag)
  | compare {l l' r r' : Trace} (op : CompareOp) (truthy : Bool) : l.Abridges l' → r.Abridges r' →
    (compare op l r truthy).Abridges (compare op l' r' truthy)
  | within {t t' : Trace} (set : Version.RangeSet) (tested : Option Version) (truthy : Bool) :
    t.Abridges t' → (within t set tested truthy).Abridges (within t' set tested truthy)
  | logical {l l' r r' : Trace} (op : LogicalOp) (truthy : Bool) : l.Abridges l' → r.Abridges r' →
    (logical op l r truthy).Abridges (logical op l' r' truthy)
  | shortCircuit {l l' : Trace} (op : LogicalOp) (r' : Trace) (truthy : Bool) : l.Abridges l' →
    (shortCircuit op l r'.expr truthy).Abridges (logical op l' r' truthy)

namespace Abridges

variable {t t' : Trace}

/-- An abridged trace shows the same part of the program. -/
lemma expr_eq (h : t.Abridges t') : t'.expr = t.expr := by
  induction h with
  | atom | unselected | reference => rfl
  | tagged _ _ ih => simp only [expr, ih]
  | within _ _ _ _ ih => simp only [expr, ih]
  | shortCircuit _ _ _ _ ih => simp only [expr, ih]
  | compare _ _ _ _ ihl ihr => simp only [expr, ihl, ihr]
  | logical _ _ _ _ ihl ihr => simp only [expr, ihl, ihr]

/-- No part of the program around an abridged trace tells it from the full one. -/
theorem alike (h : t.Abridges t') : t.Alike t' := by
  induction h with
  | reference _ _ _ _ _ ih => exact ⟨ih.value, ih.failed, ih.unversioned⟩
  | tagged tag _ ih => exact ih.tagged tag
  | _ => exact ⟨rfl, rfl, rfl⟩

/-- The operands of an abridged trace are among those of the full one, in their places. -/
theorem exists_child (h : t.Abridges t') {i : Nat} {c : Trace} (hc : t.children[i]? = some c) :
    ∃ c', t'.children[i]? = some c' ∧ c.Abridges c' := by
  cases h with
  | atom hatom =>
    rw [children_of_isAtom hatom] at hc
    cases hc
  | unselected => cases hc
  | reference _ _ _ _ h | tagged _ h | within _ _ _ h | shortCircuit _ _ _ h =>
    rcases i with _ | i
    · cases hc
      exact ⟨_, rfl, h⟩
    · cases hc
  | compare _ _ hl hr | logical _ _ hl hr =>
    rcases i with _ | _ | i
    · cases hc
      exact ⟨_, rfl, hl⟩
    · cases hc
      exact ⟨_, rfl, hr⟩
    · cases hc

/-- The parts of an abridged trace are abridged parts of the full one, at the same addresses. -/
theorem exists_part (h : t.Abridges t') {a : List Nat} {u : Trace} (hu : t.part? a = some u) :
    ∃ u', t'.part? a = some u' ∧ u.Abridges u' := by
  induction a generalizing t t' with
  | nil =>
    cases hu
    exact ⟨t', rfl, h⟩
  | cons i a ih =>
    obtain ⟨c, hc, hu⟩ := part?_cons_eq_some_iff.mp hu
    obtain ⟨c', hc', habridges⟩ := h.exists_child hc
    rw [part?_cons hc']
    exact ih habridges hu

end Abridges

end Trace

/-! ### Evaluations beside strict ones -/

variable {env : Environment} {settings : Settings} {s : Selection} {asked : List Query}

/-- The progress is honest, has asked nothing but what is among `asked`, and the results that are
kept abridge what a strict evaluation finds of the bodies of definitions. -/
structure Progress.Within (env : Environment) (settings : Settings) (s : Selection)
    (asked : List Query) (p : Progress) : Prop where
  honest : p.Honest env
  among : p.asked ⊆ asked
  kept : ∀ name body, p.results.lookup name = some body → ∃ b e body', s.find? name = some b ∧
    b.body = some e ∧ s.Strictly env settings asked e body' ∧ body.Abridges body'

/-- If a strict evaluation of `e` finds a trace, the computation gives an abridged one. -/
def Shortens (env : Environment) (settings : Settings) (s : Selection) (asked : List Query)
    (e : Expr) (m : EvalM Trace) : Prop :=
  ∀ p t', p.Within env settings s asked → s.Strictly env settings asked e t' →
    ∃ t q, m.outcome p = (.ok t, q) ∧ q.Within env settings s asked ∧ t.Abridges t'

namespace Shortens

/-- A name, probe or literal has nothing to abridge. -/
lemma atom (follow : String → EvalM Trace) {e : Expr} (he : e.isAtom = true) :
    Shortens env settings s asked e (Evaluation.evalWith env settings follow e) := by
  intro p t hp h
  cases h with
  | atom _ hsettled =>
    obtain ⟨q, hrun, hq, hresults, hasked⟩ := hsettled follow p hp.honest
    have hexpr : t.expr = e := Evaluation.expr_eq_of_isAtom he hrun
    refine ⟨t, q, hrun, ⟨hq, ?_, ?_⟩, .atom (hexpr ▸ he)⟩
    · exact List.Subset.trans hasked (List.append_subset.mpr ⟨List.Subset.refl _, hp.among⟩)
    · rw [hresults]
      exact hp.kept
  | _ => cases he

/-- If the references of an expression are shortened, its evaluation is. -/
theorem evalWith {follow : String → EvalM Trace} {e : Expr}
    (hfollow : ∀ name ∈ e.references,
      Shortens env settings s asked (.reference name) (follow name)) :
    Shortens env settings s asked e (Evaluation.evalWith env settings follow e) := by
  induction e with
  | reference name => exact hfollow name (Expr.mem_references_reference.mpr rfl)
  | tagged operand tag ih =>
    intro p t' hp h
    cases h with
    | atom he => cases he
    | tagged _ h =>
      obtain ⟨c, q, hrun, hq, hc⟩ :=
        ih (fun name hname => hfollow name (Expr.mem_references_tagged.mpr hname)) p _ hp h
      exact ⟨_, q, EvalM.outcome_bind_of_ok hrun, hq, hc.tagged tag⟩
  | within operand set ih =>
    intro p t' hp h
    cases h with
    | atom he => cases he
    | @within _ _ tested _ h htested =>
      obtain ⟨c, q, hrun, hq, hc⟩ :=
        ih (fun name hname => hfollow name (Expr.mem_references_within.mpr hname)) p _ hp h
      refine ⟨_, q, ?_, hq, hc.within set tested (tested.any set.accepts)⟩
      rw [Evaluation.evalWith, EvalM.outcome_bind_of_ok hrun, ← hc.alike.testedVersion?, htested]
      rfl
  | compare op lhs rhs ihl ihr =>
    intro p t' hp h
    cases h with
    | atom he => cases he
    | @compare _ _ _ _ _ truthy hl hr htruthy =>
      obtain ⟨l, q, hrun, hq, hl⟩ := ihl
        (fun name hname => hfollow name (Expr.mem_references_compare.mpr (.inl hname))) p _ hp hl
      obtain ⟨r, q', hrun', hq', hr⟩ := ihr
        (fun name hname => hfollow name (Expr.mem_references_compare.mpr (.inr hname))) q _ hq hr
      refine ⟨_, q', ?_, hq', hl.compare op truthy hr⟩
      rw [Evaluation.evalWith, EvalM.outcome_bind_of_ok hrun, EvalM.outcome_bind_of_ok hrun',
        ← hl.alike.compareHolds hr.alike op, htruthy]
      rfl
  | logical op lhs rhs ihl ihr =>
    intro p t' hp h
    cases h with
    | atom he => cases he
    | @logical _ _ l' r' _ hl hr =>
      obtain ⟨l, q, hrun, hq, hll'⟩ := ihl
        (fun name hname => hfollow name (Expr.mem_references_logical.mpr (.inl hname))) p _ hp hl
      rw [hll'.alike.truthy, Evaluation.evalWith, EvalM.outcome_bind_of_ok hrun]
      cases hdecided : op.decided? l.truthy with
      | some truthy =>
        -- The strict evaluation comes to the same value, whatever its right operand is.
        obtain rfl := hr.expr_eq
        rw [LogicalOp.apply_of_decided? hdecided]
        exact ⟨_, q, rfl, hq, hll'.shortCircuit op r' truthy⟩
      | none =>
        obtain ⟨r, q', hrun', hq', hrr'⟩ := ihr
          (fun name hname => hfollow name (Expr.mem_references_logical.mpr (.inr hname))) q _ hq hr
        rw [hrr'.alike.truthy]
        refine ⟨_, q', ?_, hq', hll'.logical op (op.apply l.truthy r.truthy) hrr'⟩
        exact EvalM.outcome_bind_of_ok hrun'
  | _ => exact atom follow rfl

/-- If the references of the body of a definition are shortened, those to the definition are. -/
theorem followBinding {follow : String → EvalM Trace} {name : String} {b : Binding}
    (hfind : s.find? name = some b)
    (hfollow : ∀ e, b.body = some e → ∀ n ∈ e.references,
      Shortens env settings s asked (.reference n) (follow n)) :
    Shortens env settings s asked (.reference name) (do
      Evaluation.followBinding env settings follow name b ((← get).results.lookup name)) := by
  intro p t' hp h
  rw [EvalM.outcome_bind_of_ok (EvalM.outcome_get p)]
  cases hlookup : p.results.lookup name with
  | some body =>
    obtain ⟨b', e, body', hfind', hbody, hstrictly, habridges⟩ := hp.kept name body hlookup
    obtain rfl := Option.some.inj (hfind.symm.trans hfind')
    -- The kept result abridges what the strict evaluation finds, as it finds one trace only.
    obtain rfl := h.unique (.selected hfind hbody hstrictly)
    exact ⟨_, p, rfl, hp, habridges.reference name b.isChoice true false⟩
  | none =>
    cases h with
    | atom he => cases he
    | unselected hfind' hbody =>
      obtain rfl := Option.some.inj (hfind.symm.trans hfind')
      refine ⟨_, p, ?_, hp, .unselected name⟩
      simp only [Evaluation.followBinding, hbody, EvalM.outcome_pure]
    | @selected _ _ e body' hfind' hbody hstrictly =>
      obtain rfl := Option.some.inj (hfind.symm.trans hfind')
      obtain ⟨body, q, hrun, hq, habridges⟩ := evalWith (hfollow e hbody) p body' hp hstrictly
      have hkept : Progress.Within env settings s asked
          { q with results := (name, body) :: q.results } :=
        ⟨hq.honest.keep _, hq.among,
          forall_lookup_cons ⟨b, e, body', hfind, hbody, hstrictly, habridges⟩ hq.kept⟩
      refine ⟨_, _, ?_, hkept, habridges.reference name b.isChoice false false⟩
      simp only [Evaluation.followBinding, hbody]
      rw [EvalM.outcome_bind_of_ok hrun, EvalM.outcome_bind_of_ok (EvalM.outcome_modify _ _)]
      rfl

/-- References to names in order are shortened, if at least as many levels are followed as the order
has names. -/
theorem followWithin {order : List String} (hordered : s.Ordered order) {levels : Nat}
    (hlevels : order.length ≤ levels) {name : String} (hname : name ∈ order) :
    Shortens env settings s asked (.reference name)
      (Evaluation.followWithin env settings s levels name) := by
  refine hordered.follow_induction (P := fun levels name => Shortens env settings s asked
    (.reference name) (Evaluation.followWithin env settings s levels name)) ?_ hlevels hname
  intro levels name b hfind hfollow
  rw [Evaluation.followWithin, hfind]
  exact followBinding hfind hfollow

end Shortens

namespace Selection

end Selection

end Requirements
