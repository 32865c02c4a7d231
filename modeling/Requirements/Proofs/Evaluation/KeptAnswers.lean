import Requirements.Proofs.Evaluation.Lockstep
import Requirements.Report.Builder

/-!
# Keeping answers

An evaluation that keeps the answers it has received and one that asks every question anew are run
in lockstep: they find the same, and the first has asked what the second has asked, each question
once and in the order of its first occurrence.
-/

namespace Requirements

namespace KeptAnswers

/-- What is asked with kept answers, `p`, and without, `p'`: the same questions in the same order,
but each of them once. -/
def SameQuestions (p p' : Progress) : Prop :=
  p.asked.reverse = p'.asked.reverse.eraseDups

/-- The progress `p` with kept answers corresponds to the progress `p'` without. Every question
asked so far has been answered, and exactly these answers are kept. -/
structure Corresponds (env : Environment) (p p' : Progress) : Prop where
  results : p'.results = p.results
  asked : SameQuestions p p'
  answered : ∀ q ∈ p'.asked, ∃ x, env.answer q = .ok x
  kept : ∀ q ∈ p'.asked, ∀ x, env.answer q = .ok x → Answered.find? p.answers q = some x
  notKept : ∀ q, q ∉ p'.asked → Answered.find? p.answers q = none

/-- A question asked before is not counted again. -/
theorem SameQuestions.repeat {p p' : Progress} {q : Query} (h : SameQuestions p p')
    (hq : q ∈ p'.asked) : SameQuestions p { p' with asked := q :: p'.asked } := by
  unfold SameQuestions at h ⊢
  rw [List.reverse_cons, List.eraseDups_append, h]
  simp [List.removeAll, hq]

/-- A new question is counted on both sides. -/
theorem SameQuestions.new {p p' : Progress} {q : Query} (h : SameQuestions p p')
    (hq : q ∉ p'.asked) (answers : List Answered) :
    SameQuestions { p with asked := q :: p.asked, answers }
      { p' with asked := q :: p'.asked } := by
  unfold SameQuestions at h ⊢
  rw [List.reverse_cons, List.reverse_cons, List.eraseDups_append, h]
  simp [List.removeAll, hq, List.eraseDups_cons]

/-- Only the first occurrence of every member is left. -/
theorem nodup_eraseDups {α : Type} [DecidableEq α] (l : List α) : l.eraseDups.Nodup := by
  match l with
  | [] => exact List.nodup_nil
  | a :: l =>
    rw [List.eraseDups_cons, List.nodup_cons, List.mem_eraseDups, List.mem_filter]
    exact ⟨by simp, nodup_eraseDups _⟩
termination_by l.length
decreasing_by exact Nat.lt_succ_of_le (List.length_filter_le _ l)

variable {env : Environment} {kept anew : Settings}

/-- A question asked with kept answers corresponds to the question asked anew. -/
theorem lockstep_ask (hkept : kept.memoize = true) (hanew : anew.memoize = false)
    (htimeout : anew.timeout = kept.timeout) (q : Query) :
    Lockstep (Corresponds env) SameQuestions Eq (Evaluation.ask env kept q)
      (Evaluation.ask env anew q) := by
  intro p p' h
  rw [Evaluation.ask_of_not_memoize hanew]
  by_cases hq : q ∈ p'.asked
  · obtain ⟨x, hx⟩ := h.answered q hq
    refine .inl ⟨x, x, p, { p' with asked := q :: p'.asked },
      Evaluation.outcome_ask_of_found hkept (h.kept q hq x hx),
      Evaluation.outcome_askAnew_of_ok hx, rfl, ?_⟩
    have hmem {r : Query} (hr : r ∈ q :: p'.asked) : r ∈ p'.asked := by
      rcases List.mem_cons.mp hr with rfl | hr
      · exact hq
      · exact hr
    exact {
      results := h.results
      asked := h.asked.repeat hq
      answered := fun r hr => h.answered r (hmem hr)
      kept := fun r hr => h.kept r (hmem hr)
      notKept := fun r hr => h.notKept r fun hr' => hr (List.mem_cons_of_mem q hr') }
  · have hnone : Answered.find? p.answers q = none := h.notKept q hq
    cases hanswer : env.answer q with
    | ok x =>
      refine .inl ⟨x, x, _, _, Evaluation.outcome_ask_of_ok hkept hnone hanswer,
        Evaluation.outcome_askAnew_of_ok hanswer, rfl, ?_⟩
      refine ⟨h.results, h.asked.new hq _, ?_, ?_, ?_⟩
      · intro r hr
        rcases List.mem_cons.mp hr with rfl | hr
        · exact ⟨x, hanswer⟩
        · exact h.answered r hr
      · intro r hr y hy
        by_cases hrq : q = r
        · subst hrq
          rw [hanswer] at hy
          cases hy
          exact Answered.find?_cons_self q x p.answers
        · rw [Answered.find?_cons_of_ne p.answers hrq]
          exact h.kept r ((List.mem_cons.mp hr).resolve_left (Ne.symm hrq)) y hy
      · intro r hr
        rw [List.mem_cons, not_or] at hr
        rw [Answered.find?_cons_of_ne p.answers (Ne.symm hr.1)]
        exact h.notKept r hr.2
    | error refusal =>
      refine .inr ⟨_, _, _, Evaluation.outcome_ask_of_error hkept hnone hanswer, ?_,
        h.asked.new hq p.answers⟩
      rw [Evaluation.outcome_askAnew_of_error hanswer, htimeout]

/-- Nothing has been asked at the start. -/
theorem corresponds_start (env : Environment) : Corresponds env {} {} where
  results := rfl
  asked := rfl
  answered := by simp
  kept := by simp
  notKept := fun _ _ => rfl

/-- Every expression is evaluated in lockstep with and without kept answers. -/
theorem lockstep_eval (env : Environment) (kept anew : Settings) (hkept : kept.memoize = true)
    (hanew : anew.memoize = false) (htimeout : anew.timeout = kept.timeout) (s : Selection)
    (e : Expr) : Lockstep (Corresponds env) SameQuestions Eq (Evaluation.eval env kept s e)
      (Evaluation.eval env anew s e) := by
  let c := Lockstep.coupling (Corresponds env) SameQuestions fun _ _ h => h.asked
  have hask : c.Asks env env kept anew := lockstep_ask hkept hanew htimeout
  have hlookup : c.LooksUp := Lockstep.coupling_looksUp fun _ _ h => h.results
  have hkeep : c.Keeps := fun result => Lockstep.modify fun _ _ h =>
    { h with results := congrArg (result :: ·) h.results }
  exact hask.rel_eval rfl rfl hlookup hkeep s e

end KeptAnswers

namespace Selection

/-- Keeping answers changes neither the trace nor the report nor the error of an evaluation. It
drops every question but the first of its kind, so that no question is asked twice. -/
theorem evaluate_keeping_answers (s : Selection) (env : Environment) (timeout : Option Float) :
    let kept : Settings := { memoize := true, timeout }
    let anew : Settings := { memoize := false, timeout }
    (s.evaluate env kept).result = (s.evaluate env anew).result ∧
      s.check env kept = s.check env anew ∧
      (s.evaluate env kept).asked = (s.evaluate env anew).asked.eraseDups ∧
      (s.evaluate env kept).asked.Nodup := by
  intro kept anew
  have hrun := KeptAnswers.lockstep_eval env kept anew rfl rfl rfl s s.master {} {}
    (KeptAnswers.corresponds_start env)
  have hresult : (s.evaluate env kept).result = (s.evaluate env anew).result := by
    rw [evaluate_eq, evaluate_eq]
    rcases hrun with ⟨t, t', q, q', hm, hn, rfl, -⟩ | ⟨e, q, q', hm, hn, -⟩
    · simp only [hm, hn]
    · simp only [hm, hn]
  have hasked : (s.evaluate env kept).asked = (s.evaluate env anew).asked.eraseDups := by
    rw [evaluate_eq, evaluate_eq]
    rcases hrun with ⟨t, t', q, q', hm, hn, -, h⟩ | ⟨e, q, q', hm, hn, h⟩
    · simp only [hm, hn]
      exact h.asked
    · simp only [hm, hn]
      exact h
  refine ⟨hresult, ?_, hasked, ?_⟩
  · rw [check, check, hresult]
  · rw [hasked]
    exact KeptAnswers.nodup_eraseDups _

end Selection

end Requirements
