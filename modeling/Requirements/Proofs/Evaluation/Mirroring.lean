import Mathlib.Tactic.Lemma
import Requirements.Proofs.Evaluation.Folding
import Requirements.Proofs.Evaluation.KeptAnswers
import Requirements.Proofs.Evaluation.Refusals
import Requirements.Proofs.Evaluation.Sharing
import Requirements.Proofs.Program.Positive
import Requirements.Proofs.Program.Reordering

/-!
# Mirrored comparisons

A comparison says the same with its operands exchanged and its operator mirrored. For two values
this is seen case by case: every rule by which values are ordered treats both alike. For two
expressions it must also be seen that neither finds anything else behind the other than it finds by
itself, although results of definitions and answers are kept on the way. So both are inlined: what
an inlined expression finds depends on the answers of the environment only.
-/

namespace Requirements

/-! ### Comparing two values -/

namespace CompareOp

end CompareOp

namespace Value

variable {op : CompareOp} {a b : Value} {o : Ordering}

end Value

namespace Trace

variable {op : CompareOp} {l r : Trace} {v w : Bool}

end Trace

/-! ### What an expression finds -/

/-- A computation that depends on the answers of the environment only: from all honest progress it
has the same result, and it comes to honest progress unless it fails. -/
def Determinate (env : Environment) {α : Type} (m : EvalM α) : Prop :=
  ∃ r : Except EvalError α, ∀ p : Progress, p.Honest env →
    ∃ q, m.outcome p = (r, q) ∧ ∀ a, r = .ok a → q.Honest env

namespace Determinate

variable {env : Environment} {α β : Type}

/-- A value given at once depends on nothing. -/
lemma pure (a : α) : Determinate env (pure a) :=
  ⟨.ok a, fun p hp => ⟨p, rfl, fun _ _ => hp⟩⟩

/-- An error raised at once depends on nothing. -/
lemma throw (e : EvalError) : Determinate env (throw e : EvalM α) :=
  ⟨.error e, fun p hp => ⟨p, rfl, fun _ _ => hp⟩⟩

/-- A sequence depends on the answers only, if its parts do. -/
lemma bind {m : EvalM α} {f : α → EvalM β} (hm : Determinate env m)
    (hf : ∀ a, Determinate env (f a)) : Determinate env (m >>= f) := by
  obtain ⟨r, hm⟩ := hm
  cases r with
  | error e =>
    refine ⟨.error e, fun p hp => ?_⟩
    obtain ⟨q, hq, -⟩ := hm p hp
    exact ⟨q, EvalM.outcome_bind_of_error hq, fun _ h => nomatch h⟩
  | ok a =>
    obtain ⟨r, hf⟩ := hf a
    refine ⟨r, fun p hp => ?_⟩
    obtain ⟨q, hq, hhonest⟩ := hm p hp
    rw [EvalM.outcome_bind_of_ok hq]
    exact hf q (hhonest a rfl)

/-- A query depends on its answer only. -/
lemma ask (settings : Settings) (q : Query) :
    Determinate env (Evaluation.ask env settings q) := by
  cases hanswer : env.answer q with
  | ok x =>
    refine ⟨.ok x, fun p hp => ?_⟩
    obtain ⟨r, hr, hhonest, -⟩ := hp.outcome_ask_of_ok settings hanswer
    exact ⟨r, hr, fun _ _ => hhonest⟩
  | error refusal =>
    exact ⟨_, fun p hp => ⟨_, hp.outcome_ask_of_error settings hanswer, fun _ h => nomatch h⟩⟩

/-- Depending on the answers of the environment only is a coupling of a computation with itself. -/
def coupling (env : Environment) : Coupling :=
  .diagonal (Determinate env) pure throw bind

/-- What an inlined expression finds depends on the answers of the environment only. -/
theorem evalInlined (env : Environment) (settings : Settings) (e : Expr) :
    Determinate env (Sharing.evalInlined env settings e) := by
  have hask : (coupling env).Asks env env settings settings := fun q => ⟨rfl, ask settings q⟩
  exact (hask.rel_evalWith rfl rfl fun name _ => ⟨rfl, pure (Trace.unselected name)⟩).2

end Determinate

namespace Mirroring

variable (env : Environment) (settings : Settings) (s : Selection)

/-- Progress at which the answers that are kept are those of the environment, and the results that
are kept stand for evaluations of the definitions. -/
structure Sound (p : Progress) : Prop where
  honest : p.Honest env
  shared : Sharing.Corresponds env settings s p p

/-- Wherever `e` is evaluated, it finds the like of what `x` says, or fails as `x` says. -/
def Finds (e : Expr) (x : Except EvalError Trace) : Prop :=
  ∀ p, Sound env settings s p →
    (∃ t l q, x = .ok l ∧ (Evaluation.eval env settings s e).outcome p = (.ok t, q) ∧ t.Alike l ∧
      Sound env settings s q) ∨
    ∃ err q, x = .error err ∧ (Evaluation.eval env settings s e).outcome p = (.error err, q)

variable {env settings s}

/-- Nothing is kept when an evaluation starts. -/
lemma sound_start : Sound env settings s {} :=
  ⟨.start env, rfl, rfl, by simp⟩

/-- What a comparison gives if its operands find `x` and `y`. -/
def compared (op : CompareOp) (x y : Except EvalError Trace) : Except EvalError Bool :=
  x.bind fun l => y.bind fun r => l.compareHolds op r

/-- The result of a comparison is given by what its operands find, each by itself. -/
theorem Finds.compare {a b : Expr} {x y : Except EvalError Trace} (ha : Finds env settings s a x)
    (hb : Finds env settings s b y) (op : CompareOp) :
    let result := ((Evaluation.eval env settings s (.compare op a b)).outcome {}).1
    result.map Trace.truthy = compared op x y ∧
      ∀ t, result = .ok t → ∃ l r, x = .ok l ∧ y = .ok r ∧
        l.compareHolds op r = .ok t.truthy ∧
        t.children.map Trace.spoils = [l.spoils, r.spoils] := by
  intro result
  have hcompare : Evaluation.eval env settings s (.compare op a b) = do
      let left ← Evaluation.eval env settings s a
      let right ← Evaluation.eval env settings s b
      let truthy ← left.compareHolds op right
      return .compare op left right truthy := rfl
  rcases ha {} sound_start with ⟨l, l', p, hx, hl, hal, hp⟩ | ⟨err, p, hx, hl⟩
  · rcases hb p hp with ⟨r, r', q, hy, hr, har, -⟩ | ⟨err, q, hy, hr⟩
    · have hresult : result = (l'.compareHolds op r').map (.compare op l r) := by
        simp only [result]
        rw [hcompare, EvalM.outcome_bind_of_ok hl, EvalM.outcome_bind_of_ok hr,
          hal.compareHolds har op]
        cases l.compareHolds op r <;> rfl
      have hcompared : compared op x y = l'.compareHolds op r' := by rw [hx, hy]; rfl
      cases hholds : l'.compareHolds op r' with
      | error e =>
        rw [hholds] at hresult hcompared
        refine ⟨by rw [hresult, hcompared]; rfl, fun t ht => ?_⟩
        cases hresult.symm.trans ht
      | ok v =>
        rw [hholds] at hresult hcompared
        refine ⟨by rw [hresult, hcompared]; rfl, fun t ht => ⟨l', r', hx, hy, ?_⟩⟩
        obtain rfl : Trace.compare op l r v = t := Except.ok.inj (hresult.symm.trans ht)
        refine ⟨hholds, ?_⟩
        rw [hal.spoils, har.spoils]
        rfl
    · have hresult : result = .error err := by
        simp only [result]
        rw [hcompare, EvalM.outcome_bind_of_ok hl, EvalM.outcome_bind_of_error hr]
      refine ⟨by rw [hresult, hx, hy]; rfl, fun t ht => ?_⟩
      cases hresult.symm.trans ht
  · have hresult : result = .error err := by
      simp only [result]
      rw [hcompare, EvalM.outcome_bind_of_error hl]
    refine ⟨by rw [hresult, hx]; rfl, fun t ht => ?_⟩
    cases hresult.symm.trans ht

end Mirroring

namespace Evaluation

end Evaluation

namespace Program

end Program

namespace Expr

end Expr

namespace Selection

end Selection

end Requirements
