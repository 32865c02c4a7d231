import Mathlib.Tactic.Lemma
import Requirements.Evaluation.Basic

/-!
# Outcomes of computations

A computation of the evaluator starts from some progress and ends with more of it, in success or in
failure. The outcome of a composed computation is given here by the outcomes of its parts, and the
outcome of a question by the answer of the environment.
-/

namespace Requirements

namespace EvalM

variable {α β : Type}

/-- The outcome of a computation that starts from the progress `p`, and the progress at its end. -/
def outcome (m : EvalM α) (p : Progress) : Except EvalError α × Progress :=
  m.run.run p

/-- A value given at once leaves the progress as it is. -/
@[simp] lemma outcome_pure (a : α) (p : Progress) : outcome (pure a) p = (.ok a, p) := rfl

/-- An error raised at once leaves the progress as it is. -/
@[simp] lemma outcome_throw (e : EvalError) (p : Progress) :
    outcome (throw e : EvalM α) p = (.error e, p) := rfl

@[simp] lemma outcome_get (p : Progress) : outcome (get : EvalM Progress) p = (.ok p, p) := rfl

/-- A change of the progress gives no value. -/
@[simp] lemma outcome_modify (f : Progress → Progress) (p : Progress) :
    outcome (modify f : EvalM PUnit) p = (.ok ⟨⟩, f p) := rfl

/-- What may fail without asking anything leaves the progress as it is. -/
@[simp] theorem outcome_liftExcept (r : Except EvalError α) (p : Progress) :
    outcome (liftM r : EvalM α) p = (r, p) := by
  cases r <;> rfl

/-- The second of two computations starts where the first has ended, unless the first failed. -/
theorem outcome_bind (m : EvalM α) (f : α → EvalM β) (p : Progress) :
    outcome (m >>= f) p =
      match outcome m p with
      | (.ok a, q) => outcome (f a) q
      | (.error e, q) => (.error e, q) := by
  simp only [outcome, bind, ExceptT.bind, ExceptT.mk, ExceptT.run, StateT.run, StateT.bind]
  rcases m p with ⟨_ | _, _⟩ <;> rfl

/-- Behind a success the second part of a sequence runs. -/
lemma outcome_bind_of_ok {m : EvalM α} {f : α → EvalM β} {p q : Progress} {a : α}
    (h : outcome m p = (.ok a, q)) : outcome (m >>= f) p = outcome (f a) q := by
  rw [outcome_bind, h]

/-- Behind a failure nothing more runs. -/
lemma outcome_bind_of_error {m : EvalM α} {f : α → EvalM β} {p q : Progress} {e : EvalError}
    (h : outcome m p = (.error e, q)) : outcome (m >>= f) p = (.error e, q) := by
  rw [outcome_bind, h]

/-- A sequence that succeeds has two parts that succeed. -/
theorem outcome_bind_ok_iff {m : EvalM α} {f : α → EvalM β} {p q : Progress} {b : β} :
    outcome (m >>= f) p = (.ok b, q) ↔
      ∃ a r, outcome m p = (.ok a, r) ∧ outcome (f a) r = (.ok b, q) := by
  rw [outcome_bind]
  constructor
  · intro h
    rcases hm : outcome m p with ⟨_ | a, r⟩
    · simp [hm] at h
    · exact ⟨a, r, rfl, by simpa [hm] using h⟩
  · rintro ⟨a, r, hm, h⟩
    rw [hm]
    exact h

end EvalM

/-! ### Questions -/

namespace Answered

/-- An answer that has just been received is found, and the other answers stay. -/
theorem find?_cons (a : Answered) (answers : List Answered) (q : Query) :
    find? (a :: answers) q = if h : a.query = q then some (h ▸ a.answer) else find? answers q :=
  rfl

/-- The newest answer is found under its query. -/
@[simp] lemma find?_cons_self (q : Query) (x : q.Answer) (answers : List Answered) :
    find? (⟨q, x⟩ :: answers) q = some x := by
  simp [find?_cons]

/-- An answer to another query is passed over. -/
lemma find?_cons_of_ne {a : Answered} {q : Query} (answers : List Answered) (h : a.query ≠ q) :
    find? (a :: answers) q = find? answers q := by
  simp [find?_cons, h]

end Answered

namespace Evaluation

variable {env : Environment} {settings : Settings} {q : Query} {p : Progress}

/-- A question that the environment answers. -/
theorem outcome_askAnew_of_ok {x : q.Answer} (h : env.answer q = .ok x) :
    (askAnew env settings q).outcome p = (.ok x, { p with asked := q :: p.asked }) := by
  unfold askAnew
  rw [EvalM.outcome_bind_of_ok (EvalM.outcome_modify _ _), h]
  rfl

/-- A question that the environment refuses to answer. -/
theorem outcome_askAnew_of_error {r : Refusal} (h : env.answer q = .error r) :
    (askAnew env settings q).outcome p =
      (.error (.ofRefusal settings.timeout q r), { p with asked := q :: p.asked }) := by
  unfold askAnew
  rw [EvalM.outcome_bind_of_ok (EvalM.outcome_modify _ _), h]
  rfl

/-- Without kept answers, every question is asked anew. -/
theorem ask_of_not_memoize (h : settings.memoize = false) :
    ask env settings q = askAnew env settings q := by
  simp [ask, h]

/-- With kept answers, a question that has been answered is not asked again. -/
theorem outcome_ask_of_found {x : q.Answer} (hm : settings.memoize = true)
    (h : Answered.find? p.answers q = some x) : (ask env settings q).outcome p = (.ok x, p) := by
  unfold ask
  rw [if_pos hm, EvalM.outcome_bind_of_ok (EvalM.outcome_get p), h]
  rfl

/-- With kept answers, a question that has not been answered is asked, and the answer is kept. -/
theorem outcome_ask_of_ok {x : q.Answer} (hm : settings.memoize = true)
    (hnew : Answered.find? p.answers q = none) (h : env.answer q = .ok x) :
    (ask env settings q).outcome p =
      (.ok x, { p with asked := q :: p.asked, answers := ⟨q, x⟩ :: p.answers }) := by
  unfold ask
  rw [if_pos hm, EvalM.outcome_bind_of_ok (EvalM.outcome_get p), hnew,
    EvalM.outcome_bind_of_ok (outcome_askAnew_of_ok h)]
  rfl

/-- With kept answers, a refusal is not kept. -/
theorem outcome_ask_of_error {r : Refusal} (hm : settings.memoize = true)
    (hnew : Answered.find? p.answers q = none) (h : env.answer q = .error r) :
    (ask env settings q).outcome p =
      (.error (.ofRefusal settings.timeout q r), { p with asked := q :: p.asked }) := by
  unfold ask
  rw [if_pos hm, EvalM.outcome_bind_of_ok (EvalM.outcome_get p), hnew,
    EvalM.outcome_bind_of_error (outcome_askAnew_of_error h)]

/-- A question depends only on what was asked and answered before, and changes nothing else. -/
theorem outcome_ask_congr (env : Environment) (settings : Settings) {p p' : Progress}
    (hasked : p'.asked = p.asked) (hanswers : p'.answers = p.answers) (q : Query) :
    ∃ r asked answers, (ask env settings q).outcome p = (r, { p with asked, answers }) ∧
      (ask env settings q).outcome p' = (r, { p' with asked, answers }) := by
  cases hm : settings.memoize with
  | false =>
    rw [ask_of_not_memoize hm]
    cases h : env.answer q with
    | ok x =>
      refine ⟨.ok x, q :: p.asked, p.answers, outcome_askAnew_of_ok h, ?_⟩
      rw [outcome_askAnew_of_ok h, hasked, ← hanswers]
    | error refusal =>
      refine ⟨_, q :: p.asked, p.answers, outcome_askAnew_of_error h, ?_⟩
      rw [outcome_askAnew_of_error h, hasked, ← hanswers]
  | true =>
    cases hfind : Answered.find? p.answers q with
    | some x =>
      have hfind' : Answered.find? p'.answers q = some x := hanswers ▸ hfind
      refine ⟨.ok x, p.asked, p.answers, outcome_ask_of_found hm hfind, ?_⟩
      rw [outcome_ask_of_found hm hfind', ← hasked, ← hanswers]
    | none =>
      have hfind' : Answered.find? p'.answers q = none := hanswers ▸ hfind
      cases h : env.answer q with
      | ok x =>
        refine ⟨.ok x, q :: p.asked, ⟨q, x⟩ :: p.answers, outcome_ask_of_ok hm hfind h, ?_⟩
        rw [outcome_ask_of_ok hm hfind' h, hasked, hanswers]
      | error refusal =>
        refine ⟨_, q :: p.asked, p.answers, outcome_ask_of_error hm hfind h, ?_⟩
        rw [outcome_ask_of_error hm hfind' h, hasked, ← hanswers]

end Evaluation

/-! ### Kept results -/

section

variable {results : List (String × Trace)} {name : String} {body : Trace}

/-- A result that is found was kept. -/
theorem mem_of_lookup (h : results.lookup name = some body) : (name, body) ∈ results := by
  obtain ⟨before, after, hresults, -⟩ := List.lookup_eq_some_iff.mp h
  simp [hresults]

/-- What holds of a new result and of all results found before holds of all that are found. -/
theorem forall_lookup_cons {P : String → Trace → Prop} (hnew : P name body)
    (h : ∀ n t, results.lookup n = some t → P n t) :
    ∀ n t, List.lookup n ((name, body) :: results) = some t → P n t := by
  intro n t ht
  rw [List.lookup_cons] at ht
  split at ht
  · rename_i hn
    obtain rfl := eq_of_beq hn
    cases ht
    exact hnew
  · exact h n t ht

end

namespace Selection

/-- The questions and the result of an evaluation are read off the outcome from no progress. -/
theorem evaluate_eq (s : Selection) (env : Environment) (settings : Settings) :
    s.evaluate env settings =
      let o := (Evaluation.eval env settings s s.master).outcome {}
      ⟨o.2.asked.reverse, o.1⟩ :=
  rfl

end Selection

end Requirements
