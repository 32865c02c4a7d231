import Mathlib.Tactic.Lemma
import Requirements.Environment.Registry
import Requirements.Proofs.Evaluation.Coupling
import Requirements.Report.Builder

/-!
# Environments that agree on the questions asked

An evaluation depends on its environment only through the answers to the questions that it asks.
The questions asked never become fewer on the way, so that an agreement on all questions asked at
the end is an agreement at every step.
-/

namespace Requirements

/-- The computation `m` only adds questions to those asked before, and if all of them belong to `Q`
then `n` has the same outcome. -/
def Determines (Q : Query → Prop) {α : Type} (m n : EvalM α) : Prop :=
  ∀ p, p.asked <:+ (m.outcome p).2.asked ∧
    ((∀ q ∈ (m.outcome p).2.asked, Q q) → n.outcome p = m.outcome p)

namespace Determines

variable {Q : Query → Prop} {α β : Type}

/-- A pure computation asks nothing, so any two environments give the same. -/
lemma pure (a : α) : Determines Q (pure a) (pure a) :=
  fun _ => ⟨List.suffix_rfl, fun _ => rfl⟩

/-- A computation that raises at once asks nothing. -/
lemma throw (e : EvalError) : Determines Q (throw e : EvalM α) (throw e) :=
  fun _ => ⟨List.suffix_rfl, fun _ => rfl⟩

/-- Reading the memory asks nothing. -/
lemma get : Determines Q get get :=
  fun _ => ⟨List.suffix_rfl, fun _ => rfl⟩

/-- The questions of the first part are among those of the whole, so that an agreement on the
latter carries over to both parts. -/
theorem bind {m n : EvalM α} {f g : α → EvalM β} (h : Determines Q m n)
    (hfg : ∀ a, Determines Q (f a) (g a)) : Determines Q (m >>= f) (n >>= g) := by
  intro p
  obtain ⟨hgrow, hsame⟩ := h p
  rcases hm : m.outcome p with ⟨e | a, r⟩
  · rw [hm] at hgrow hsame
    rw [EvalM.outcome_bind_of_error hm]
    exact ⟨hgrow, fun hQ => EvalM.outcome_bind_of_error (hsame hQ)⟩
  · rw [hm] at hgrow hsame
    rw [EvalM.outcome_bind_of_ok hm]
    obtain ⟨hgrow', hsame'⟩ := hfg a r
    refine ⟨hgrow.trans hgrow', fun hQ => ?_⟩
    have hn : n.outcome p = (.ok a, r) := hsame fun q hq => hQ q (hgrow'.subset hq)
    rw [EvalM.outcome_bind_of_ok hn]
    exact hsame' hQ

/-- Being determined by the answers to the questions asked is a coupling. -/
def coupling (Q : Query → Prop) : Coupling where
  rel := Determines Q
  rel_pure := pure
  rel_throw := throw
  rel_bind := bind

variable {env env' : Environment} {settings : Settings}

/-- A new question has the same outcome in both environments, if they agree on it. -/
theorem askAnew (q : Query) : Determines (fun q => env'.answer q = env.answer q)
    (Evaluation.askAnew env settings q) (Evaluation.askAnew env' settings q) := by
  intro p
  cases h : env.answer q with
  | ok x =>
    rw [Evaluation.outcome_askAnew_of_ok h]
    refine ⟨List.suffix_cons q p.asked, fun hQ => ?_⟩
    exact Evaluation.outcome_askAnew_of_ok ((hQ q List.mem_cons_self).trans h)
  | error r =>
    rw [Evaluation.outcome_askAnew_of_error h]
    refine ⟨List.suffix_cons q p.asked, fun hQ => ?_⟩
    exact Evaluation.outcome_askAnew_of_error ((hQ q List.mem_cons_self).trans h)

/-- Two environments that agree on a query give the same answer to it. -/
lemma asks (env env' : Environment) (settings : Settings) :
    (coupling fun q => env'.answer q = env.answer q).Asks env env' settings settings := by
  intro q
  unfold Evaluation.ask
  split
  · refine get.bind fun p => ?_
    cases Answered.find? p.answers q with
    | some x => exact pure x
    | none =>
      refine (askAnew q).bind fun x => bind (fun p => ⟨List.suffix_rfl, fun _ => rfl⟩) fun _ => ?_
      exact pure x
  · exact askAnew q

end Determines

namespace Selection

/-- Two environments on the same platform that agree on the questions asked in the first, be it in
an answer or in a refusal, cannot be told apart: the second evaluation asks the same questions in
the same order and has the same trace, report or error. -/
theorem evaluate_eq_of_agree_on_asked (s : Selection) (settings : Settings)
    (env env' : Environment) (hos : env'.osname = env.osname)
    (hithreads : env'.ithreads = env.ithreads)
    (h : ∀ q ∈ (s.evaluate env settings).asked, env'.answer q = env.answer q) :
    s.evaluate env' settings = s.evaluate env settings ∧
      s.check env' settings = s.check env settings := by
  have hrun := (Determines.asks env env' settings).rel_eval hos hithreads
    (fun name _ _ hfg => Determines.get.bind fun p => hfg (p.results.lookup name))
    (fun _ _ => ⟨List.suffix_rfl, fun _ => rfl⟩) s s.master {}
  have heq : s.evaluate env' settings = s.evaluate env settings := by
    rw [evaluate_eq, evaluate_eq, hrun.2 fun q hq => h q (List.mem_reverse.mpr hq)]
  exact ⟨heq, by rw [check, check, heq]⟩

/-- Behind an absent module nothing is asked. One system that would refuse every further answer and
one that would give it cannot be told apart. -/
theorem evaluate_eq_behind_absent_module :
    let s : Selection :=
      ⟨[], [], .logical .and (.package "Foo" none ["x"]) (.probe .library ["ssl"])⟩
    let refusing := ({} : SystemDescription).environmentWith fun q =>
      if q = .lookup "Foo" then none else some .timedOut
    let answering := ({ inventory := { libraries := ["ssl"] } } : SystemDescription).environment
    (s.evaluate refusing {}).asked = [.lookup "Foo"] ∧
      s.evaluate answering {} = s.evaluate refusing {} := by
  intro s refusing answering
  have hasked : (s.evaluate refusing {}).asked = [.lookup "Foo"] := rfl
  refine ⟨hasked, (evaluate_eq_of_agree_on_asked s {} refusing answering rfl rfl fun q hq => ?_).1⟩
  rw [hasked, List.mem_singleton] at hq
  subst hq
  rfl

end Selection

end Requirements
