import Mathlib.Tactic.Lemma
import Requirements.Proofs.Evaluation.Coupling
import Requirements.Proofs.Evaluation.Nodes
import Requirements.Proofs.Expr.Nodes

/-!
# Evaluations as derivations

What a successful evaluation records does not depend on the questions asked on the way, only on the
results of definitions that were kept. This is written down as a relation with one rule for each way
in which a part of a program can be visited, and every successful evaluation is shown to follow the
rules. A property of all traces is then shown rule by rule, without a look at the computation.
-/

namespace Requirements

/-! ### Computations that keep no result -/

/-- The computation keeps no result of a definition. -/
def KeepsResults {α : Type} (m : EvalM α) : Prop :=
  ∀ p, (m.outcome p).2.results = p.results

namespace KeepsResults

variable {α β : Type} {env : Environment} {settings : Settings}

/-- Results kept by both parts of a sequence are kept by the whole. -/
lemma bind {m : EvalM α} {f : α → EvalM β} (h : KeepsResults m)
    (hf : ∀ a, KeepsResults (f a)) : KeepsResults (m >>= f) := by
  intro p
  have hm := h p
  rcases hrun : m.outcome p with ⟨e | a, q⟩
  · rw [hrun] at hm
    rw [EvalM.outcome_bind_of_error hrun]
    exact hm
  · rw [hrun] at hm
    rw [EvalM.outcome_bind_of_ok hrun, hf a q]
    exact hm

/-- Keeping no result is a coupling of a computation with itself. -/
def coupling : Coupling :=
  .diagonal KeepsResults (fun _ _ => rfl) (fun _ _ => rfl) bind

/-- A query leaves the table of definitions as it is. -/
lemma asks : coupling.Asks env env settings settings := by
  intro q
  refine ⟨rfl, fun p => ?_⟩
  obtain ⟨r, asked, answers, hask, -⟩ :=
    Evaluation.outcome_ask_congr env settings (p := p) rfl rfl q
  rw [hask]

end KeepsResults

/-! ### The rules -/

/-- Traces of names, probes and literals have no children. -/
lemma Trace.children_of_isAtom {t : Trace} (h : t.expr.isAtom = true) : t.children = [] := by
  cases t with
  | bool | text | version | osname | ithreads | package | probe => rfl
  | _ => cases h

namespace Selection

/-- `s.Yields results e t results'` means that the evaluation of `e` is recorded by `t`, if
`results` are kept of the definitions before and `results'` after it. -/
inductive Yields (s : Selection) :
    List (String × Trace) → Expr → Trace → List (String × Trace) → Prop
  | atom {results : List (String × Trace)} {e : Expr} {t : Trace} : e.isAtom = true → t.expr = e →
    s.Yields results e t results
  | reused {results : List (String × Trace)} {name : String} {b : Binding} {body : Trace} :
    s.find? name = some b → results.lookup name = some body →
    s.Yields results (.reference name) (.reference name b.isChoice true body) results
  | unselected {results : List (String × Trace)} {name : String} {b : Binding} :
    s.find? name = some b → results.lookup name = none → b.body = none →
    s.Yields results (.reference name) (.unselected name) results
  | fresh {results results' : List (String × Trace)} {name : String} {b : Binding} {e : Expr}
      {body : Trace} :
    s.find? name = some b → results.lookup name = none → b.body = some e →
    s.Yields results e body results' →
    s.Yields results (.reference name) (.reference name b.isChoice false body)
      ((name, body) :: results')
  | tagged {results results' : List (String × Trace)} {operand : Expr} {t : Trace}
      (tag : String) :
    s.Yields results operand t results' →
    s.Yields results (.tagged operand tag) (.tagged t tag) results'
  | compare {results results' results'' : List (String × Trace)} {op : CompareOp} {lhs rhs : Expr}
      {l r : Trace} {truthy : Bool} :
    s.Yields results lhs l results' → s.Yields results' rhs r results'' →
    l.compareHolds op r = .ok truthy →
    s.Yields results (.compare op lhs rhs) (.compare op l r truthy) results''
  | within {results results' : List (String × Trace)} {operand : Expr} {t : Trace}
      {tested : Option Version} (set : Version.RangeSet) :
    s.Yields results operand t results' → t.testedVersion? = .ok tested →
    s.Yields results (.within operand set) (.within t set tested (tested.any set.accepts)) results'
  | shortCircuit {results results' : List (String × Trace)} {op : LogicalOp} {lhs : Expr}
      {l : Trace} {truthy : Bool} (rhs : Expr) :
    s.Yields results lhs l results' → op.decided? l.truthy = some truthy →
    s.Yields results (.logical op lhs rhs) (.shortCircuit op l rhs truthy) results'
  | logical {results results' results'' : List (String × Trace)} {op : LogicalOp} {lhs rhs : Expr}
      {l r : Trace} :
    s.Yields results lhs l results' → op.decided? l.truthy = none →
    s.Yields results' rhs r results'' →
    s.Yields results (.logical op lhs rhs) (.logical op l r (op.apply l.truthy r.truthy)) results''

/-- The trace is of the expression that is evaluated. -/
theorem Yields.expr_eq {s : Selection} {results results' : List (String × Trace)} {e : Expr}
    {t : Trace} (h : s.Yields results e t results') : t.expr = e := by
  induction h with
  | atom _ he => exact he
  | reused | unselected | fresh => rfl
  | tagged tag _ ih => rw [Trace.expr, ih]
  | within set _ _ ih => rw [Trace.expr, ih]
  | shortCircuit rhs _ _ ih => rw [Trace.expr, ih]
  | compare _ _ _ ihl ihr => rw [Trace.expr, ihl, ihr]
  | logical _ _ _ ihl ihr => rw [Trace.expr, ihl, ihr]

end Selection

/-! ### Evaluations follow the rules -/

/-- The trace of a part without operands is of that part, whatever was asked for it. -/
theorem Evaluation.expr_eq_of_isAtom {env : Environment} {settings : Settings}
    {follow : String → EvalM Trace} {e : Expr} (he : e.isAtom = true) {p q : Progress} {t : Trace}
    (h : (evalWith env settings follow e).outcome p = (.ok t, q)) : t.expr = e := by
  cases e with
  | bool | text | version =>
    cases h
    rfl
  | platform fact =>
    cases fact with
    | osname | ithreads =>
      cases h
      rfl
  | package | probe =>
    obtain ⟨a, r, -, h⟩ := EvalM.outcome_bind_ok_iff.mp h
    cases h
    rfl
  | _ => cases he

/-- Every success of the computation records the evaluation of `e`. -/
def Yielding (s : Selection) (e : Expr) (m : EvalM Trace) : Prop :=
  ∀ p t q, m.outcome p = (.ok t, q) → s.Yields p.results e t q.results

namespace Yielding

variable {s : Selection} {env : Environment} {settings : Settings}

/-- A part without operands, whatever was asked for it. -/
theorem atom (follow : String → EvalM Trace) {e : Expr} (he : e.isAtom = true) :
    Yielding s e (Evaluation.evalWith env settings follow e) := by
  intro p t q h
  have hkeeps : KeepsResults (Evaluation.evalWith env settings follow e) :=
    (KeepsResults.asks.rel_evalWith_of_isAtom rfl rfl follow follow he).2
  have hresults := hkeeps p
  rw [h] at hresults
  rw [hresults]
  exact .atom he (Evaluation.expr_eq_of_isAtom he h)

/-- If references are followed by the rules, expressions are evaluated by the rules. -/
theorem evalWith {follow : String → EvalM Trace}
    (hfollow : ∀ name, Yielding s (.reference name) (follow name)) (e : Expr) :
    Yielding s e (Evaluation.evalWith env settings follow e) := by
  induction e with
  | reference name => exact hfollow name
  | tagged operand tag ih =>
    intro p t q h
    obtain ⟨c, p₁, hc, h⟩ := EvalM.outcome_bind_ok_iff.mp h
    cases h
    exact .tagged tag (ih p c _ hc)
  | compare op lhs rhs ihl ihr =>
    intro p t q h
    obtain ⟨l, p₁, hl, h⟩ := EvalM.outcome_bind_ok_iff.mp h
    obtain ⟨r, p₂, hr, h⟩ := EvalM.outcome_bind_ok_iff.mp h
    obtain ⟨truthy, p₃, hcompare, h⟩ := EvalM.outcome_bind_ok_iff.mp h
    rw [EvalM.outcome_liftExcept] at hcompare
    obtain ⟨htruthy, rfl⟩ := Prod.mk.inj hcompare
    cases h
    exact .compare (ihl p l p₁ hl) (ihr p₁ r _ hr) htruthy
  | within operand set ih =>
    intro p t q h
    obtain ⟨c, p₁, hc, h⟩ := EvalM.outcome_bind_ok_iff.mp h
    obtain ⟨tested, p₂, htest, h⟩ := EvalM.outcome_bind_ok_iff.mp h
    rw [EvalM.outcome_liftExcept] at htest
    obtain ⟨htested, rfl⟩ := Prod.mk.inj htest
    cases h
    exact .within set (ih p c _ hc) htested
  | logical op lhs rhs ihl ihr =>
    intro p t q h
    obtain ⟨l, p₁, hl, h⟩ := EvalM.outcome_bind_ok_iff.mp h
    cases hdecided : op.decided? l.truthy with
    | some truthy =>
      rw [hdecided] at h
      cases h
      exact .shortCircuit rhs (ihl p l _ hl) hdecided
    | none =>
      rw [hdecided] at h
      obtain ⟨r, p₂, hr, h⟩ := EvalM.outcome_bind_ok_iff.mp h
      cases h
      exact .logical (ihl p l p₁ hl) hdecided (ihr p₁ r _ hr)
  | _ => exact atom follow rfl

/-- If the references of the body of a definition are followed by the rules, those to the
definition are. -/
theorem followBinding {follow : String → EvalM Trace}
    (hfollow : ∀ name, Yielding s (.reference name) (follow name)) {name : String} {b : Binding}
    (hfind : s.find? name = some b) : Yielding s (.reference name) (do
      Evaluation.followBinding env settings follow name b ((← get).results.lookup name)) := by
  intro p t q h
  rw [EvalM.outcome_bind_of_ok (EvalM.outcome_get p)] at h
  cases hlookup : p.results.lookup name with
  | some body =>
    rw [hlookup] at h
    cases h
    exact .reused hfind hlookup
  | none =>
    rw [hlookup] at h
    simp only [Evaluation.followBinding] at h
    cases hbody : b.body with
    | none =>
      rw [hbody] at h
      cases h
      exact .unselected hfind hlookup hbody
    | some e =>
      rw [hbody] at h
      obtain ⟨body, p₁, hrun, h⟩ := EvalM.outcome_bind_ok_iff.mp h
      rw [EvalM.outcome_bind_of_ok (EvalM.outcome_modify _ _)] at h
      cases h
      exact .fresh hfind hlookup hbody (evalWith hfollow e p body p₁ hrun)

/-- Following a reference, to any depth, builds a tree that the derivation describes. -/
lemma followWithin (levels : Nat) (name : String) :
    Yielding s (.reference name) (Evaluation.followWithin env settings s levels name) := by
  induction levels generalizing name with
  | zero =>
    intro p t q h
    cases h
  | succ levels ih =>
    rw [Evaluation.followWithin]
    cases hfind : s.find? name with
    | none =>
      intro p t q h
      cases h
    | some b => exact followBinding ih hfind

end Yielding

namespace Selection

/-- A successful evaluation follows the rules, from no results on. -/
theorem exists_yields {s : Selection} {env : Environment} {settings : Settings} {t : Trace}
    (h : (s.evaluate env settings).result = .ok t) : ∃ results, s.Yields [] s.master t results := by
  have hrun : Yielding s s.master (Evaluation.eval env settings s s.master) :=
    Yielding.evalWith (Yielding.followWithin s.bindings.length) s.master
  exact ⟨_, hrun {} t _ (Prod.ext h rfl)⟩

/-! ### The parts of what is recorded -/

/-- The parts of what the options leave of a program. -/
def parts (s : Selection) : List Expr :=
  s.master.nodes ++ (s.bindings.filterMap Binding.body).flatMap Expr.nodes

/-- The results that are kept are traces of the bodies of definitions. -/
def KeepsBodies (s : Selection) (results : List (String × Trace)) : Prop :=
  ∀ name body, (name, body) ∈ results → ∃ b, s.find? name = some b ∧ b.body = some body.expr

/-- The trace is of a visit to a part of what the options leave of a program. -/
structure Visits (s : Selection) (n : Trace) : Prop where
  parts : n.expr.nodes ⊆ s.parts
  yielded : ∃ results results', s.KeepsBodies results ∧ s.Yields results n.expr n results'

/-- Below a reference stands the trace of what the options leave of the definition. -/
theorem Visits.exists_binding {s : Selection} {name : String} {isChoice cached : Bool}
    {body : Trace} (h : s.Visits (.reference name isChoice cached body)) :
    ∃ b, s.find? name = some b ∧ b.body = some body.expr := by
  obtain ⟨-, results, results', hbodies, hyields⟩ := h
  cases hyields with
  | atom hatom => cases hatom
  | reused _ hlookup => exact hbodies name body (mem_of_lookup hlookup)
  | fresh hfind _ hbody hyields => exact ⟨_, hfind, by rw [hbody, hyields.expr_eq]⟩

/-- Nothing stands below a reference to a choice of which the options leave nothing. -/
theorem Visits.exists_binding_of_unselected {s : Selection} {name : String}
    (h : s.Visits (.unselected name)) : ∃ b, s.find? name = some b ∧ b.body = none := by
  obtain ⟨-, results, results', -, hyields⟩ := h
  cases hyields with
  | atom hatom => cases hatom
  | unselected hfind _ hbody => exact ⟨_, hfind, hbody⟩

/-- All parts of the results that are kept are of visits. -/
def KeepsVisits (s : Selection) (results : List (String × Trace)) : Prop :=
  ∀ name body, (name, body) ∈ results → ∀ n ∈ body.nodes, s.Visits n

section

variable {s : Selection} {results results' : List (String × Trace)} {e : Expr} {t : Trace}

/-- The parts of a body are parts of what the options leave of the program. -/
theorem nodes_subset_parts {name : String} {b : Binding} (hfind : s.find? name = some b)
    (hbody : b.body = some e) : e.nodes ⊆ s.parts := by
  have hmem : e ∈ s.bindings.filterMap Binding.body :=
    List.mem_filterMap.mpr ⟨b, List.mem_of_find?_eq_some hfind, hbody⟩
  intro n hn
  exact List.mem_append_right _ (List.mem_flatMap.mpr ⟨e, hmem, hn⟩)

/-- Of definitions, an evaluation keeps the traces of their bodies. -/
theorem Yields.keepsBodies (h : s.Yields results e t results') (hkept : s.KeepsBodies results) :
    s.KeepsBodies results' := by
  induction h with
  | atom | reused | unselected => exact hkept
  | tagged _ _ ih => exact ih hkept
  | within _ _ _ ih => exact ih hkept
  | shortCircuit _ _ _ ih => exact ih hkept
  | compare _ _ _ ihl ihr => exact ihr (ihl hkept)
  | logical _ _ _ ihl ihr => exact ihr (ihl hkept)
  | fresh hfind _ hbody hyields ih =>
    intro name body hmem
    rcases List.mem_cons.mp hmem with heq | hmem
    · cases heq
      exact ⟨_, hfind, by rw [hyields.expr_eq, hbody]⟩
    · exact ih hkept name body hmem

/-- What is yielded is of a visit itself. -/
theorem Yields.visits_self (h : s.Yields results e t results') (he : e.nodes ⊆ s.parts)
    (hbodies : s.KeepsBodies results) : s.Visits t := by
  obtain rfl := h.expr_eq
  exact ⟨he, results, results', hbodies, h⟩

/-- Every part of what is yielded is of a visit, if those of the kept results are. -/
theorem Yields.visits (h : s.Yields results e t results') (he : e.nodes ⊆ s.parts)
    (hbodies : s.KeepsBodies results) (hkept : s.KeepsVisits results) :
    (∀ n ∈ t.nodes, s.Visits n) ∧ s.KeepsVisits results' := by
  induction h with
  | @atom _ _ t hatom heq =>
    have hchildren : t.children = [] := Trace.children_of_isAtom (heq ▸ hatom)
    refine ⟨Trace.forall_mem_nodes_iff.mpr ⟨?_, by simp [hchildren]⟩, hkept⟩
    exact Yields.visits_self (.atom hatom heq) he hbodies
  | @reused results name b body hfind hlookup =>
    have hbody : ∀ n ∈ body.nodes, s.Visits n := hkept name body (mem_of_lookup hlookup)
    refine ⟨Trace.forall_mem_nodes_iff.mpr ⟨?_, by simpa [Trace.children] using hbody⟩, hkept⟩
    exact Yields.visits_self (.reused hfind hlookup) he hbodies
  | unselected hfind hlookup hbody =>
    refine ⟨Trace.forall_mem_nodes_iff.mpr ⟨?_, by simp [Trace.children]⟩, hkept⟩
    exact Yields.visits_self (.unselected hfind hlookup hbody) he hbodies
  | @fresh _ _ _ b e body hfind hlookup hbody hyields ih =>
    obtain ⟨hnodes, hkept'⟩ := ih (nodes_subset_parts hfind hbody) hbodies hkept
    refine ⟨Trace.forall_mem_nodes_iff.mpr ⟨?_, by simpa [Trace.children] using hnodes⟩, ?_⟩
    · exact Yields.visits_self (.fresh hfind hlookup hbody hyields) he hbodies
    · intro name body hmem
      rcases List.mem_cons.mp hmem with heq | hmem
      · cases heq
        exact hnodes
      · exact hkept' name body hmem
  | tagged tag hyields ih =>
    have hoperand := List.cons_subset.mp (Expr.nodes_tagged _ tag ▸ he)
    obtain ⟨hnodes, hkept'⟩ := ih hoperand.2 hbodies hkept
    refine ⟨Trace.forall_mem_nodes_iff.mpr ⟨?_, by simpa [Trace.children] using hnodes⟩, hkept'⟩
    exact Yields.visits_self (.tagged tag hyields) he hbodies
  | within set hyields htested ih =>
    have hoperand := List.cons_subset.mp (Expr.nodes_within _ set ▸ he)
    obtain ⟨hnodes, hkept'⟩ := ih hoperand.2 hbodies hkept
    refine ⟨Trace.forall_mem_nodes_iff.mpr ⟨?_, by simpa [Trace.children] using hnodes⟩, hkept'⟩
    exact Yields.visits_self (.within set hyields htested) he hbodies
  | shortCircuit rhs hyields hdecided ih =>
    have hoperands :=
      List.append_subset.mp (List.cons_subset.mp (Expr.nodes_logical _ _ rhs ▸ he)).2
    obtain ⟨hnodes, hkept'⟩ := ih hoperands.1 hbodies hkept
    refine ⟨Trace.forall_mem_nodes_iff.mpr ⟨?_, by simpa [Trace.children] using hnodes⟩, hkept'⟩
    exact Yields.visits_self (.shortCircuit rhs hyields hdecided) he hbodies
  | compare hl hr htruthy ihl ihr =>
    have hoperands := List.append_subset.mp (List.cons_subset.mp (Expr.nodes_compare _ _ _ ▸ he)).2
    obtain ⟨hlnodes, hkept'⟩ := ihl hoperands.1 hbodies hkept
    obtain ⟨hrnodes, hkept''⟩ := ihr hoperands.2 (hl.keepsBodies hbodies) hkept'
    refine ⟨Trace.forall_mem_nodes_iff.mpr ⟨?_, ?_⟩, hkept''⟩
    · exact Yields.visits_self (.compare hl hr htruthy) he hbodies
    · simpa [Trace.children] using ⟨hlnodes, hrnodes⟩
  | logical hl hdecided hr ihl ihr =>
    have hoperands := List.append_subset.mp (List.cons_subset.mp (Expr.nodes_logical _ _ _ ▸ he)).2
    obtain ⟨hlnodes, hkept'⟩ := ihl hoperands.1 hbodies hkept
    obtain ⟨hrnodes, hkept''⟩ := ihr hoperands.2 (hl.keepsBodies hbodies) hkept'
    refine ⟨Trace.forall_mem_nodes_iff.mpr ⟨?_, ?_⟩, hkept''⟩
    · exact Yields.visits_self (.logical hl hdecided hr) he hbodies
    · simpa [Trace.children] using ⟨hlnodes, hrnodes⟩

/-- Every part of the trace of a successful evaluation is of a visit to a part of what the options
leave of the program. -/
theorem visits_of_evaluate {env : Environment} {settings : Settings}
    (h : (s.evaluate env settings).result = .ok t) : ∀ n ∈ t.nodes, s.Visits n := by
  obtain ⟨results, hyields⟩ := exists_yields h
  exact (hyields.visits (List.subset_append_left _ _) (by rintro _ _ ⟨⟩) (by rintro _ _ ⟨⟩)).1

end

end Selection

end Requirements
