import Mathlib.Tactic.Lemma
import Requirements.Environment.Registry
import Requirements.Proofs.Evaluation.Coupling
import Requirements.Report.Builder

/-!
# Refused answers

The environment may refuse an answer. Up to the first refusal every question has been answered, and
the answers that are kept are answers of the environment. At the first refusal the evaluation ends:
nothing more is asked, no answer is kept, and the error is the one that the refusal causes, however
deep inside of connectives, comparisons and definitions the question was asked.
-/

namespace Requirements

/-- The environment has answered every question asked so far, and the answers kept are its own. -/
structure Progress.Honest (env : Environment) (p : Progress) : Prop where
  answered : ∀ q ∈ p.asked, ∃ x, env.answer q = .ok x
  kept : ∀ q x, Answered.find? p.answers q = some x → env.answer q = .ok x ∧ q ∈ p.asked

namespace Progress.Honest

variable {env : Environment} {p : Progress} {q : Query}

/-- Nothing has been asked at the start. -/
theorem start (env : Environment) : Progress.Honest env {} where
  answered := by simp
  kept := by
    intro q x h
    cases h

/-- What is kept of the results of definitions does not matter. -/
theorem keep (h : p.Honest env) (results : List (String × Trace)) :
    Progress.Honest env { p with results } :=
  ⟨h.answered, h.kept⟩

/-- One more question has been answered. -/
theorem asked_cons (h : p.Honest env) {x : q.Answer} (hx : env.answer q = .ok x) :
    Progress.Honest env { p with asked := q :: p.asked } where
  answered r hr := by
    rcases List.mem_cons.mp hr with rfl | hr
    · exact ⟨x, hx⟩
    · exact h.answered r hr
  kept r y hy := ⟨(h.kept r y hy).1, List.mem_cons_of_mem q (h.kept r y hy).2⟩

/-- One more question has been answered, and the answer is kept. -/
theorem answers_cons (h : p.Honest env) {x : q.Answer} (hx : env.answer q = .ok x) :
    Progress.Honest env { p with asked := q :: p.asked, answers := ⟨q, x⟩ :: p.answers } where
  answered := (h.asked_cons hx).answered
  kept r y hy := by
    by_cases hqr : q = r
    · subst hqr
      rw [Answered.find?_cons_self] at hy
      cases hy
      exact ⟨hx, List.mem_cons_self⟩
    · rw [Answered.find?_cons_of_ne p.answers hqr] at hy
      exact (h.asked_cons hx).kept r y hy

/-- A question that the environment answers has that answer, whether it is asked now or was asked
before. -/
theorem outcome_ask_of_ok (h : p.Honest env) (settings : Settings) {x : q.Answer}
    (hx : env.answer q = .ok x) :
    ∃ r, (Evaluation.ask env settings q).outcome p = (.ok x, r) ∧ r.Honest env ∧
      r.results = p.results ∧ p.asked ⊆ r.asked ∧ r.asked ⊆ q :: p.asked ∧ q ∈ r.asked := by
  have hgrow : p.asked ⊆ q :: p.asked := List.subset_cons_self q p.asked
  cases hm : settings.memoize with
  | false =>
    rw [Evaluation.ask_of_not_memoize hm]
    exact ⟨_, Evaluation.outcome_askAnew_of_ok hx, h.asked_cons hx, rfl, hgrow,
      List.Subset.refl _, List.mem_cons_self⟩
  | true =>
    cases hfind : Answered.find? p.answers q with
    | some y =>
      obtain ⟨hy, hq⟩ := h.kept q y hfind
      obtain rfl : x = y := Except.ok.inj (hx.symm.trans hy)
      exact ⟨p, Evaluation.outcome_ask_of_found hm hfind, h, rfl, List.Subset.refl _, hgrow, hq⟩
    | none =>
      exact ⟨_, Evaluation.outcome_ask_of_ok hm hfind hx, h.answers_cons hx, rfl, hgrow,
        List.Subset.refl _, List.mem_cons_self⟩

/-- A question that the environment refuses to answer has no answer from before. It is asked, and
nothing is kept. -/
theorem outcome_ask_of_error (h : p.Honest env) (settings : Settings) {r : Refusal}
    (hr : env.answer q = .error r) :
    (Evaluation.ask env settings q).outcome p =
      (.error (.ofRefusal settings.timeout q r), { p with asked := q :: p.asked }) := by
  cases hm : settings.memoize with
  | false =>
    rw [Evaluation.ask_of_not_memoize hm]
    exact Evaluation.outcome_askAnew_of_error hr
  | true =>
    cases hfind : Answered.find? p.answers q with
    | some x => cases hr.symm.trans (h.kept q x hfind).1
    | none => exact Evaluation.outcome_ask_of_error hm hfind hr

end Progress.Honest

/-! ### The first refusal -/

/-- From honest progress, the computation comes to honest progress, or its last question was refused
and it has ended with the error that this causes. -/
def StopsAtRefusal (env : Environment) (settings : Settings) {α : Type} (m : EvalM α) : Prop :=
  ∀ p : Progress, p.Honest env → (m.outcome p).2.Honest env ∨
    ∃ (q : Query) (r : Refusal) (before : Progress), before.Honest env ∧ env.answer q = .error r ∧
      m.outcome p =
        (.error (.ofRefusal settings.timeout q r), { before with asked := q :: before.asked })

namespace StopsAtRefusal

variable {env : Environment} {settings : Settings} {α β : Type}

/-- Behind a refusal, the second part of a sequence is not reached. -/
theorem bind {m : EvalM α} {f : α → EvalM β} (hm : StopsAtRefusal env settings m)
    (hf : ∀ a, StopsAtRefusal env settings (f a)) : StopsAtRefusal env settings (m >>= f) := by
  intro p hp
  rcases hm p hp with hhonest | ⟨q, r, before, hbefore, hr, hrun⟩
  · rcases hrun : m.outcome p with ⟨e | a, p₁⟩
    · rw [hrun] at hhonest
      rw [EvalM.outcome_bind_of_error hrun]
      exact .inl hhonest
    · rw [hrun] at hhonest
      rw [EvalM.outcome_bind_of_ok hrun]
      exact hf a p₁ hhonest
  · exact .inr ⟨q, r, before, hbefore, hr, EvalM.outcome_bind_of_error hrun⟩

/-- A query is answered, or it is the last one and its error is the refusal. -/
lemma ask (q : Query) : StopsAtRefusal env settings (Evaluation.ask env settings q) := by
  intro p hp
  cases hanswer : env.answer q with
  | ok x =>
    obtain ⟨p₁, hrun, hhonest, -⟩ := hp.outcome_ask_of_ok settings hanswer
    rw [hrun]
    exact .inl hhonest
  | error r => exact .inr ⟨q, r, p, hp, hanswer, hp.outcome_ask_of_error settings hanswer⟩

/-- Stopping at the first refusal is a coupling of a computation with itself. -/
def coupling (env : Environment) (settings : Settings) : Coupling :=
  .diagonal (StopsAtRefusal env settings) (fun _ _ hp => .inl hp) (fun _ _ hp => .inl hp) bind

/-- Every expression is evaluated up to the first refusal. -/
theorem eval (s : Selection) (e : Expr) :
    StopsAtRefusal env settings (Evaluation.eval env settings s e) := by
  let c := coupling env settings
  have hask : c.Asks env env settings settings := fun q => ⟨rfl, ask q⟩
  have hget : c.rel get get := ⟨rfl, fun _ hp => .inl hp⟩
  have hlookup : c.LooksUp := fun name _ _ hfg =>
    c.rel_bind hget fun p => hfg (p.results.lookup name)
  have hkeep : c.Keeps := fun _ => ⟨rfl, fun _ hp => .inl (hp.keep _)⟩
  exact (hask.rel_eval rfl rfl hlookup hkeep s e).2

end StopsAtRefusal

/-! ### What the user is told -/

namespace EvalError

/-- The error `e` tells the user that the question `q` was refused, and why: it names the operation
and its arguments, unless the environment has an error of its own for the user. -/
def Tells (timeout : Option Float) (q : Query) (e : EvalError) : Refusal → Prop
  | .failed text => e.query? = some q ∧
    e.message = q.operation ++ "(" ++ ", ".intercalate q.arguments ++ ")" ++ " failed: " ++ text
  | .timedOut => e.query? = some q ∧
    e.message = q.operation ++ "(" ++ ", ".intercalate q.arguments ++ ")" ++
      timeout.elim " timed out" fun seconds =>
        " timed out after " ++ Decimal.shortestText seconds ++ "s"
  | .abort message => e = .aborted message ∧ e.message = message

/-- The error that a refusal causes tells of it. -/
theorem tells_ofRefusal (timeout : Option Float) (q : Query) (r : Refusal) :
    (ofRefusal timeout q r).Tells timeout q r := by
  cases r with
  | failed text => exact ⟨rfl, rfl⟩
  | abort message => exact ⟨rfl, rfl⟩
  | timedOut =>
    cases timeout with
    | none => exact ⟨rfl, rfl⟩
    | some seconds =>
      have hmessage : (timedOut q (some seconds)).message =
        q.text ++ " timed out after " ++ Decimal.shortestText seconds ++ "s" := rfl
      refine ⟨rfl, hmessage.trans ?_⟩
      simp only [Query.text, Option.elim_some, String.append_assoc]

end EvalError

namespace Selection

/-- A refused question is the last one of the evaluation, which ends with the error that tells of
it: every question before it was answered. An evaluation has a trace only if all its questions were
answered. In any case the answers that are kept at the end are answers of the environment. -/
theorem evaluate_stops_at_refusal (s : Selection) (env : Environment) (settings : Settings) :
    (∀ q ∈ (s.evaluate env settings).asked, ∀ r, env.answer q = .error r →
      ∃ e, (s.evaluate env settings).result = .error e ∧ s.check env settings = .error e ∧
        e = .ofRefusal settings.timeout q r ∧ e.Tells settings.timeout q r ∧
        ∃ before, (s.evaluate env settings).asked = before ++ [q] ∧
          ∀ q' ∈ before, ∃ x, env.answer q' = .ok x) ∧
    (∀ t, (s.evaluate env settings).result = .ok t →
      ∀ q ∈ (s.evaluate env settings).asked, ∃ x, env.answer q = .ok x) ∧
    ∀ q x, Answered.find?
      ((Evaluation.eval env settings s s.master).outcome {}).2.answers q = some x →
        env.answer q = .ok x := by
  have hcheck {e : EvalError} (h : (s.evaluate env settings).result = .error e) :
      s.check env settings = .error e := by
    rw [check, h]
    rfl
  have hstops : StopsAtRefusal env settings (Evaluation.eval env settings s s.master) :=
    .eval s s.master
  rcases hstops {} (.start env) with hhonest | ⟨q, r, before, hbefore, hr, hrun⟩
  · have hanswered : ∀ q ∈ (s.evaluate env settings).asked, ∃ x, env.answer q = .ok x :=
      fun q hq => hhonest.answered q (List.mem_reverse.mp hq)
    refine ⟨fun q hq r hr => ?_, fun t _ => hanswered, fun q x hx => (hhonest.kept q x hx).1⟩
    obtain ⟨x, hx⟩ := hanswered q hq
    cases hr.symm.trans hx
  · have hasked : (s.evaluate env settings).asked = before.asked.reverse ++ [q] := by
      rw [evaluate_eq, hrun]
      exact List.reverse_cons
    have hresult : (s.evaluate env settings).result = .error (.ofRefusal settings.timeout q r) := by
      rw [evaluate_eq, hrun]
    have hanswered : ∀ q' ∈ before.asked.reverse, ∃ x, env.answer q' = .ok x :=
      fun q' hq' => hbefore.answered q' (List.mem_reverse.mp hq')
    refine ⟨fun q' hq' r' hr' => ?_, fun t ht => ?_, fun q' x hx => ?_⟩
    · -- All questions but the last one were answered.
      rw [hasked, List.mem_append, List.mem_singleton] at hq'
      rcases hq' with hq' | rfl
      · obtain ⟨x, hx⟩ := hanswered q' hq'
        cases hr'.symm.trans hx
      · obtain rfl : r = r' := Except.error.inj (hr.symm.trans hr')
        exact ⟨_, hresult, hcheck hresult, rfl, EvalError.tells_ofRefusal _ _ _, _, hasked,
          hanswered⟩
    · cases ht.symm.trans hresult
    · rw [hrun] at hx
      exact (hbefore.kept q' x hx).1

/-- Neither the definition, nor the comparison, nor `||` with its other operand, which holds, makes
anything of a refusal but an error. -/
theorem evaluate_stops_at_refusal_inside_definition :
    let s : Selection := ⟨[], [⟨.plain, "m", some (.package "Foo" none ["x"])⟩],
      .logical .or (.compare .ne (.reference "m") (.version ⟨[.number 1], "1"⟩)) (.bool true)⟩
    let env := ({ registry := .ofVersions [("Foo", some "2")] } : SystemDescription).environmentWith
      fun q => if q = .feature "Foo" "x" then some (.failed "connection lost") else none
    (s.evaluate env {}).asked = [.lookup "Foo", .feature "Foo" "x"] ∧
      ∃ e, s.check env {} = .error e ∧
        e.message = "has_feature(Foo, x) failed: connection lost" := by
  intro s env
  have hasked : (s.evaluate env {}).asked = [.lookup "Foo", .feature "Foo" "x"] := by
    decide +kernel
  have hq : Query.feature "Foo" "x" ∈ (s.evaluate env {}).asked := by
    rw [hasked]
    exact List.mem_cons_of_mem _ List.mem_cons_self
  obtain ⟨e, -, hcheck, -, ⟨-, hmessage⟩, -⟩ :=
    (evaluate_stops_at_refusal s env {}).1 _ hq (.failed "connection lost") rfl
  refine ⟨hasked, e, hcheck, hmessage.trans ?_⟩
  decide +kernel

end Selection

end Requirements
