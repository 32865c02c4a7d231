import Mathlib.Tactic.Lemma
import Requirements.Proofs.Evaluation.BigStep
import Requirements.Proofs.Evaluation.Refusals
import Requirements.Proofs.Evaluation.Sharing

/-!
# Strict evaluations

A strict evaluation evaluates both operands of every connective, also the right one that cannot
change its value any more. For the rest it is like the evaluation of a program: it asks the same
questions, and keeps answers and the results of definitions in the same way.

What a strict evaluation finds of an expression does not depend on what was asked and kept before,
but for the question which reference to a definition was the first. This is written down as a
relation between expressions and traces that does without any progress, and every strict evaluation
that succeeds is shown to find what the relation says.
-/

namespace Requirements

namespace Evaluation

section

variable (env : Environment) (settings : Settings)

/-- Evaluates an expression with both operands of every connective. -/
def strictWith (follow : String → EvalM Trace) : Expr → EvalM Trace
  | .tagged operand tag => do
    let inner ← strictWith follow operand
    return .tagged inner tag
  | .compare op lhs rhs => do
    let left ← strictWith follow lhs
    let right ← strictWith follow rhs
    let truthy ← left.compareHolds op right
    return .compare op left right truthy
  | .within operand set => do
    let inner ← strictWith follow operand
    let tested ← inner.testedVersion?
    return .within inner set tested (tested.any set.accepts)
  | .logical op lhs rhs => do
    let left ← strictWith follow lhs
    let right ← strictWith follow rhs
    return .logical op left right (op.apply left.truthy right.truthy)
  | e => evalWith env settings follow e

/-- Goes on with the definition that a reference leads to: with its result, if it was evaluated
before, and else with what the options leave of its body, strictly. -/
def strictBinding (follow : String → EvalM Trace) (name : String) (binding : Binding) :
    Option Trace → EvalM Trace
  | some body => return .reference name binding.isChoice true body
  | none =>
    match binding.body with
    | none => return .unselected name
    | some e => do
      let body ← strictWith env settings follow e
      modify fun p => { p with results := (name, body) :: p.results }
      return .reference name binding.isChoice false body

/-- Follows a reference strictly, at most `levels` definitions deep. -/
def strictWithin (s : Selection) : Nat → String → EvalM Trace
  | 0, name => throw (.unresolved name)
  | levels + 1, name =>
    match s.find? name with
    | none => throw (.unresolved name)
    | some binding => do
      strictBinding env settings (strictWithin s levels) name binding
        ((← get).results.lookup name)

end

end Evaluation

namespace Selection

end Selection

/-! ### Settled computations -/

section

variable {α β : Type} {env : Environment} {settings : Settings} {asked asked' : List Query}

/-- From any honest progress, the computation gives `a` and keeps no result of a definition, and
what it asks is among `asked`. -/
def Settled (env : Environment) (asked : List Query) (m : EvalM α) (a : α) : Prop :=
  ∀ p, p.Honest env → ∃ q, m.outcome p = (.ok a, q) ∧ q.Honest env ∧ q.results = p.results ∧
    q.asked ⊆ asked ++ p.asked

namespace Settled

variable {m : EvalM α} {f : α → EvalM β} {a a' : α} {b : β}

/-- What is settled by some queries is settled by more. -/
lemma mono (h : Settled env asked m a) (hsub : asked ⊆ asked') : Settled env asked' m a := by
  intro p hp
  obtain ⟨q, hrun, hq, hresults, hasked⟩ := h p hp
  refine ⟨q, hrun, hq, hresults, List.Subset.trans hasked ?_⟩
  exact List.append_subset.mpr
    ⟨List.subset_append_of_subset_left _ hsub, List.subset_append_right _ _⟩

/-- A computation gives one value only. -/
theorem unique (h : Settled env asked m a) (h' : Settled env asked' m a') : a' = a := by
  obtain ⟨q, hrun, -⟩ := h {} (.start env)
  obtain ⟨q', hrun', -⟩ := h' {} (.start env)
  cases hrun.symm.trans hrun'
  rfl

/-- A sequence is settled if its parts are, one after the other. -/
lemma bind (hm : Settled env asked m a) (hf : Settled env asked (f a) b) :
    Settled env asked (m >>= f) b := by
  intro p hp
  obtain ⟨q, hrun, hq, hresults, hasked⟩ := hm p hp
  obtain ⟨r, hrun', hr, hresults', hasked'⟩ := hf q hq
  rw [EvalM.outcome_bind_of_ok hrun]
  refine ⟨r, hrun', hr, hresults'.trans hresults, List.Subset.trans hasked' ?_⟩
  exact List.append_subset.mpr ⟨List.subset_append_left _ _, hasked⟩

end Settled

/-- Whenever the computation succeeds, it is settled by what was asked until then. -/
def Settles (env : Environment) (m : EvalM α) : Prop :=
  ∀ p a q, p.Honest env → m.outcome p = (.ok a, q) →
    p.asked ⊆ q.asked ∧ Settled env q.asked m a

namespace Settles

/-- A sequence settles if its parts do. -/
lemma bind {m : EvalM α} {f : α → EvalM β} (hm : Settles env m) (hf : ∀ a, Settles env (f a)) :
    Settles env (m >>= f) := by
  intro p b q hp h
  obtain ⟨a, r, hrun, h⟩ := EvalM.outcome_bind_ok_iff.mp h
  obtain ⟨hgrow, hsettled⟩ := hm p a r hp hrun
  obtain ⟨r', hrun', hr, -⟩ := hsettled p hp
  cases hrun.symm.trans hrun'
  obtain ⟨hgrow', hsettled'⟩ := hf a r b q hr h
  exact ⟨List.Subset.trans hgrow hgrow', (hsettled.mono hgrow').bind hsettled'⟩

/-- A value given at once is settled. -/
lemma pure (a : α) : Settles env (pure a) := by
  intro p b q _ h
  cases h
  exact ⟨List.Subset.refl _, fun r hr => ⟨r, rfl, hr, rfl, List.subset_append_right _ _⟩⟩

/-- An error raised at once is no success. -/
lemma throw (e : EvalError) : Settles env (throw e : EvalM α) := by
  intro p a q _ h
  cases h

/-- A query settles: asked once more, it gets the same answer. -/
lemma ask (q : Query) : Settles env (Evaluation.ask env settings q) := by
  intro p x r hp h
  cases hanswer : env.answer q with
  | error refusal =>
    rw [hp.outcome_ask_of_error settings hanswer] at h
    cases h
  | ok y =>
    obtain ⟨r', hrun, -, -, hgrow, -, hq⟩ := hp.outcome_ask_of_ok settings hanswer
    cases hrun.symm.trans h
    refine ⟨hgrow, fun p' hp' => ?_⟩
    obtain ⟨r', hrun', hr', hresults, -, hasked, -⟩ := hp'.outcome_ask_of_ok settings hanswer
    refine ⟨r', hrun', hr', hresults, List.Subset.trans hasked ?_⟩
    exact List.cons_subset.mpr ⟨List.mem_append_left _ hq, List.subset_append_right _ _⟩

/-- Being settled by success is a coupling of a computation with itself. -/
def coupling (env : Environment) : Coupling :=
  .diagonal (Settles env) pure throw bind

/-- A part without operands is settled by what is asked for it. -/
theorem atom (follow : String → EvalM Trace) {e : Expr} (he : e.isAtom = true) :
    Settles env (Evaluation.evalWith env settings follow e) := by
  have hask : (coupling env).Asks env env settings settings := fun q => ⟨rfl, ask q⟩
  exact (hask.rel_evalWith_of_isAtom rfl rfl follow follow he).2

end Settles

end

/-! ### What strict evaluations find -/

/-- `s.Strictly env settings asked e t` means that a strict evaluation finds `t` of `e`, if every
reference is shown as the first one to its definition, and that it asks `asked` at most. -/
inductive Selection.Strictly (s : Selection) (env : Environment) (settings : Settings)
    (asked : List Query) : Expr → Trace → Prop
  | atom {e : Expr} {t : Trace} : e.isAtom = true →
    (∀ follow, Settled env asked (Evaluation.evalWith env settings follow e) t) →
    s.Strictly env settings asked e t
  | unselected {name : String} {b : Binding} : s.find? name = some b → b.body = none →
    s.Strictly env settings asked (.reference name) (.unselected name)
  | selected {name : String} {b : Binding} {e : Expr} {body : Trace} : s.find? name = some b →
    b.body = some e → s.Strictly env settings asked e body →
    s.Strictly env settings asked (.reference name) (.reference name b.isChoice false body)
  | tagged {operand : Expr} {t : Trace} (tag : String) : s.Strictly env settings asked operand t →
    s.Strictly env settings asked (.tagged operand tag) (.tagged t tag)
  | compare {op : CompareOp} {lhs rhs : Expr} {l r : Trace} {truthy : Bool} :
    s.Strictly env settings asked lhs l → s.Strictly env settings asked rhs r →
    l.compareHolds op r = .ok truthy →
    s.Strictly env settings asked (.compare op lhs rhs) (.compare op l r truthy)
  | within {operand : Expr} {t : Trace} {tested : Option Version} (set : Version.RangeSet) :
    s.Strictly env settings asked operand t → t.testedVersion? = .ok tested →
    s.Strictly env settings asked (.within operand set)
      (.within t set tested (tested.any set.accepts))
  | logical {lhs rhs : Expr} {l r : Trace} (op : LogicalOp) :
    s.Strictly env settings asked lhs l → s.Strictly env settings asked rhs r →
    s.Strictly env settings asked (.logical op lhs rhs)
      (.logical op l r (op.apply l.truthy r.truthy))

namespace Selection.Strictly

variable {s : Selection} {env : Environment} {settings : Settings} {asked asked' : List Query}
  {e : Expr} {t t' : Trace}

/-- What a strict evaluation finds by some queries it finds by more. -/
lemma mono (h : s.Strictly env settings asked e t) (hsub : asked ⊆ asked') :
    s.Strictly env settings asked' e t := by
  induction h with
  | atom he hsettled => exact .atom he fun follow => (hsettled follow).mono hsub
  | unselected hfind hbody => exact .unselected hfind hbody
  | selected hfind hbody _ ih => exact .selected hfind hbody ih
  | tagged tag _ ih => exact .tagged tag ih
  | compare _ _ htruthy ihl ihr => exact .compare ihl ihr htruthy
  | within set _ htested ih => exact .within set ih htested
  | logical op _ _ ihl ihr => exact .logical op ihl ihr

/-- The trace is of the expression that is evaluated. -/
theorem expr_eq (h : s.Strictly env settings asked e t) : t.expr = e := by
  induction h with
  | atom he hsettled =>
    obtain ⟨q, hrun, -⟩ := hsettled (fun _ => pure (.bool true)) {} (.start env)
    exact Evaluation.expr_eq_of_isAtom he hrun
  | unselected | selected => rfl
  | tagged _ _ ih => rw [Trace.expr, ih]
  | within _ _ _ ih => rw [Trace.expr, ih]
  | compare _ _ _ ihl ihr => rw [Trace.expr, ihl, ihr]
  | logical _ _ _ ihl ihr => rw [Trace.expr, ihl, ihr]

/-- A strict evaluation finds one trace only. -/
theorem unique (h : s.Strictly env settings asked e t) (h' : s.Strictly env settings asked e t') :
    t' = t := by
  induction h generalizing t' with
  | atom he hsettled =>
    cases h' with
    | atom _ hsettled' => exact (hsettled fun _ => pure (.bool true)).unique (hsettled' _)
    | _ => cases he
  | unselected hfind hbody =>
    cases h' with
    | atom he => cases he
    | unselected => rfl
    | selected hfind' hbody' =>
      obtain rfl := Option.some.inj (hfind.symm.trans hfind')
      cases hbody.symm.trans hbody'
  | selected hfind hbody _ ih =>
    cases h' with
    | atom he => cases he
    | unselected hfind' hbody' =>
      obtain rfl := Option.some.inj (hfind.symm.trans hfind')
      cases hbody.symm.trans hbody'
    | selected hfind' hbody' h' =>
      obtain rfl := Option.some.inj (hfind.symm.trans hfind')
      obtain rfl := Option.some.inj (hbody.symm.trans hbody')
      rw [ih h']
  | tagged tag _ ih =>
    cases h' with
    | atom he => cases he
    | tagged _ h' => rw [ih h']
  | compare _ _ htruthy ihl ihr =>
    cases h' with
    | atom he => cases he
    | compare hl hr htruthy' =>
      obtain rfl := ihl hl
      obtain rfl := ihr hr
      rw [Except.ok.inj (htruthy.symm.trans htruthy')]
  | within set _ htested ih =>
    cases h' with
    | atom he => cases he
    | within _ h' htested' =>
      obtain rfl := ih h'
      rw [Except.ok.inj (htested.symm.trans htested')]
  | logical op _ _ ihl ihr =>
    cases h' with
    | atom he => cases he
    | logical _ hl hr => rw [ihl hl, ihr hr]

end Selection.Strictly

/-! ### Strict evaluations find it -/

namespace Trace

/-- The trace with every reference shown as the first one to its definition. -/
def forget : Trace → Trace
  | reference name isChoice _ body => reference name isChoice false body.forget
  | tagged operand tag => tagged operand.forget tag
  | compare op lhs rhs truthy => compare op lhs.forget rhs.forget truthy
  | within operand set tested truthy => within operand.forget set tested truthy
  | shortCircuit op lhs skipped truthy => shortCircuit op lhs.forget skipped truthy
  | logical op lhs rhs truthy => logical op lhs.forget rhs.forget truthy
  | t => t

/-- No part of the program around a trace tells which references were the first. -/
theorem alike_forget (t : Trace) : t.Alike t.forget := by
  induction t with
  | reference name isChoice cached body ih => exact ⟨ih.value, ih.failed, ih.unversioned⟩
  | tagged operand tag ih => exact ih.tagged tag
  | _ => exact ⟨rfl, rfl, rfl⟩

/-- A name, probe or literal shows no reuse. -/
lemma forget_of_isAtom {t : Trace} (h : t.expr.isAtom = true) : t.forget = t := by
  cases t with
  | bool | text | version | osname | ithreads | package | probe => rfl
  | _ => cases h

end Trace

variable {env : Environment} {settings : Settings} {s : Selection}

/-- The progress is honest, and the results that are kept are what a strict evaluation finds of the
bodies of definitions. -/
structure Progress.Strict (env : Environment) (settings : Settings) (s : Selection)
    (p : Progress) : Prop where
  honest : p.Honest env
  kept : ∀ name body, p.results.lookup name = some body → ∃ b e, s.find? name = some b ∧
    b.body = some e ∧ s.Strictly env settings p.asked e body.forget

/-- Every success of the computation from strict progress is what a strict evaluation finds of
`e`. -/
def Finds (env : Environment) (settings : Settings) (s : Selection) (e : Expr)
    (m : EvalM Trace) : Prop :=
  ∀ p t q, p.Strict env settings s → m.outcome p = (.ok t, q) →
    q.Strict env settings s ∧ p.asked ⊆ q.asked ∧ s.Strictly env settings q.asked e t.forget

namespace Finds

/-- The success of a name, probe or literal is what a strict evaluation finds. -/
lemma atom (follow : String → EvalM Trace) {e : Expr} (he : e.isAtom = true) :
    Finds env settings s e (Evaluation.evalWith env settings follow e) := by
  intro p t q hp h
  have hask : (Settles.coupling env).Asks env env settings settings :=
    fun q => ⟨rfl, Settles.ask q⟩
  obtain ⟨hgrow, hsettled⟩ := Settles.atom follow he p t q hp.honest h
  obtain ⟨q', hrun, hq, hresults, -⟩ := hsettled p hp.honest
  cases hrun.symm.trans h
  refine ⟨⟨hq, fun name body hlookup => ?_⟩, hgrow, .atom he fun follow' => ?_⟩
  · obtain ⟨b, e, hfind, hbody, hstrictly⟩ := hp.kept name body (hresults ▸ hlookup)
    exact ⟨b, e, hfind, hbody, hstrictly.mono hgrow⟩
  · have hexpr : t.expr = e := Evaluation.expr_eq_of_isAtom he h
    rw [Trace.forget_of_isAtom (hexpr ▸ he),
      ← (hask.rel_evalWith_of_isAtom rfl rfl follow follow' he).1]
    exact hsettled

/-- If references find what they should, so does a strict evaluation of an expression. -/
theorem strictWith {follow : String → EvalM Trace}
    (hfollow : ∀ name, Finds env settings s (.reference name) (follow name)) (e : Expr) :
    Finds env settings s e (Evaluation.strictWith env settings follow e) := by
  induction e with
  | reference name => exact hfollow name
  | tagged operand tag ih =>
    intro p t q hp h
    obtain ⟨c, p₁, hc, h⟩ := EvalM.outcome_bind_ok_iff.mp h
    cases h
    obtain ⟨hq, hgrow, hstrictly⟩ := ih p c _ hp hc
    exact ⟨hq, hgrow, hstrictly.tagged tag⟩
  | within operand set ih =>
    intro p t q hp h
    obtain ⟨c, p₁, hc, h⟩ := EvalM.outcome_bind_ok_iff.mp h
    obtain ⟨tested, p₂, htest, h⟩ := EvalM.outcome_bind_ok_iff.mp h
    rw [EvalM.outcome_liftExcept] at htest
    obtain ⟨htested, rfl⟩ := Prod.mk.inj htest
    cases h
    obtain ⟨hq, hgrow, hstrictly⟩ := ih p c _ hp hc
    exact ⟨hq, hgrow, hstrictly.within set (c.alike_forget.testedVersion?.trans htested)⟩
  | compare op lhs rhs ihl ihr =>
    intro p t q hp h
    obtain ⟨l, p₁, hl, h⟩ := EvalM.outcome_bind_ok_iff.mp h
    obtain ⟨r, p₂, hr, h⟩ := EvalM.outcome_bind_ok_iff.mp h
    obtain ⟨truthy, p₃, hcompare, h⟩ := EvalM.outcome_bind_ok_iff.mp h
    rw [EvalM.outcome_liftExcept] at hcompare
    obtain ⟨htruthy, rfl⟩ := Prod.mk.inj hcompare
    cases h
    obtain ⟨hp₁, hgrow, hstrictly⟩ := ihl p l p₁ hp hl
    obtain ⟨hq, hgrow', hstrictly'⟩ := ihr p₁ r _ hp₁ hr
    refine ⟨hq, List.Subset.trans hgrow hgrow', (hstrictly.mono hgrow').compare hstrictly' ?_⟩
    rw [l.alike_forget.compareHolds r.alike_forget op]
    exact htruthy
  | logical op lhs rhs ihl ihr =>
    intro p t q hp h
    obtain ⟨l, p₁, hl, h⟩ := EvalM.outcome_bind_ok_iff.mp h
    obtain ⟨r, p₂, hr, h⟩ := EvalM.outcome_bind_ok_iff.mp h
    cases h
    obtain ⟨hp₁, hgrow, hstrictly⟩ := ihl p l p₁ hp hl
    obtain ⟨hq, hgrow', hstrictly'⟩ := ihr p₁ r _ hp₁ hr
    refine ⟨hq, List.Subset.trans hgrow hgrow', ?_⟩
    have hlogical := (hstrictly.mono hgrow').logical op hstrictly'
    rw [l.alike_forget.truthy, r.alike_forget.truthy] at hlogical
    exact hlogical
  | _ => exact atom follow rfl

/-- If the references of the body of a definition find what they should, so do those to the
definition. -/
theorem strictBinding {follow : String → EvalM Trace}
    (hfollow : ∀ name, Finds env settings s (.reference name) (follow name)) {name : String}
    {b : Binding} (hfind : s.find? name = some b) :
    Finds env settings s (.reference name) (do
      Evaluation.strictBinding env settings follow name b ((← get).results.lookup name)) := by
  intro p t q hp h
  rw [EvalM.outcome_bind_of_ok (EvalM.outcome_get p)] at h
  cases hlookup : p.results.lookup name with
  | some body =>
    rw [hlookup] at h
    cases h
    obtain ⟨b', e, hfind', hbody, hstrictly⟩ := hp.kept name body hlookup
    obtain rfl := Option.some.inj (hfind.symm.trans hfind')
    exact ⟨hp, List.Subset.refl _, .selected hfind hbody hstrictly⟩
  | none =>
    rw [hlookup] at h
    simp only [Evaluation.strictBinding] at h
    cases hbody : b.body with
    | none =>
      rw [hbody] at h
      cases h
      exact ⟨hp, List.Subset.refl _, .unselected hfind hbody⟩
    | some e =>
      rw [hbody] at h
      obtain ⟨body, p₁, hrun, h⟩ := EvalM.outcome_bind_ok_iff.mp h
      rw [EvalM.outcome_bind_of_ok (EvalM.outcome_modify _ _)] at h
      cases h
      obtain ⟨hp₁, hgrow, hstrictly⟩ := strictWith hfollow e p body p₁ hp hrun
      refine ⟨⟨hp₁.honest.keep _, ?_⟩, hgrow, .selected hfind hbody hstrictly⟩
      exact forall_lookup_cons ⟨b, e, hfind, hbody, hstrictly⟩ hp₁.kept

/-- Following a reference to any depth finds what a strict evaluation finds. -/
lemma strictWithin (levels : Nat) (name : String) :
    Finds env settings s (.reference name)
      (Evaluation.strictWithin env settings s levels name) := by
  induction levels generalizing name with
  | zero =>
    intro p t q _ h
    cases h
  | succ levels ih =>
    rw [Evaluation.strictWithin]
    cases hfind : s.find? name with
    | none =>
      intro p t q _ h
      cases h
    | some b => exact strictBinding ih hfind

end Finds

end Requirements
