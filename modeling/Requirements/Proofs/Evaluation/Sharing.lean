import Mathlib.Tactic.Lemma
import Requirements.Environment.Registry
import Requirements.Proofs.Evaluation.Lockstep
import Requirements.Proofs.Program.Inlining

/-!
# Shared results of definitions

A definition is evaluated at its first reference, and later references share the result. The inlined
expression has a copy of the body in place of each reference, and evaluates every copy. With kept
answers this asks nothing more: an evaluation that has succeeded can be repeated on the kept answers
alone, and finds the same. So the two evaluations run in lockstep, where a shared result on the one
side stands for a repetition on the other.
-/

namespace Requirements

/-! ### Repeated evaluations -/

namespace Progress

/-- Every answer kept in `p` is kept in `q`. -/
def AnswersWithin (p q : Progress) : Prop :=
  ∀ (r : Query) (x : r.Answer), Answered.find? p.answers r = some x →
    Answered.find? q.answers r = some x

/-- The answers of a progress are among its own. -/
lemma AnswersWithin.refl (p : Progress) : p.AnswersWithin p :=
  fun _ _ h => h

/-- Answers that stay and stay again stay. -/
lemma AnswersWithin.trans {p q r : Progress} (h : p.AnswersWithin q) (h' : q.AnswersWithin r) :
    p.AnswersWithin r :=
  fun q x hx => h' q x (h q x hx)

end Progress

/-- A computation that, having succeeded, can be repeated on the answers kept at its end: it then
gives the same value and changes nothing. -/
def Repeatable {α : Type} (m : EvalM α) : Prop :=
  ∀ p a q, m.outcome p = (.ok a, q) →
    p.AnswersWithin q ∧ ∀ r, q.AnswersWithin r → m.outcome r = (.ok a, r)

namespace Repeatable

variable {α β : Type}

/-- A value given at once can be given again. -/
lemma pure (a : α) : Repeatable (pure a) := by
  intro p b q h
  obtain ⟨rfl, rfl⟩ : a = b ∧ p = q := by simpa using h
  exact ⟨.refl p, fun _ _ => rfl⟩

/-- An error raised at once has no success to repeat. -/
lemma throw (e : EvalError) : Repeatable (throw e : EvalM α) := by
  intro p b q h
  simp at h

/-- A sequence can be repeated if its parts can: the second part keeps the answers of the first. -/
lemma bind {m : EvalM α} {f : α → EvalM β} (hm : Repeatable m) (hf : ∀ a, Repeatable (f a)) :
    Repeatable (m >>= f) := by
  intro p b q h
  obtain ⟨a, r, hr, hq⟩ := EvalM.outcome_bind_ok_iff.mp h
  obtain ⟨hpr, hagain⟩ := hm p a r hr
  obtain ⟨hrq, hagain'⟩ := hf a r b q hq
  refine ⟨hpr.trans hrq, fun t ht => ?_⟩
  rw [EvalM.outcome_bind_of_ok (hagain t (hrq.trans ht))]
  exact hagain' t ht

/-- With kept answers, a question that was answered can be repeated. -/
theorem ask {env : Environment} {settings : Settings} (hm : settings.memoize = true) (q : Query) :
    Repeatable (Evaluation.ask env settings q) := by
  intro p x r h
  have hkept : p.AnswersWithin r ∧ Answered.find? r.answers q = some x := by
    cases hfind : Answered.find? p.answers q with
    | some y =>
      rw [Evaluation.outcome_ask_of_found hm hfind] at h
      obtain ⟨rfl, rfl⟩ : y = x ∧ p = r := by simpa using h
      exact ⟨.refl p, hfind⟩
    | none =>
      cases hanswer : env.answer q with
      | error refusal =>
        rw [Evaluation.outcome_ask_of_error hm hfind hanswer] at h
        simp at h
      | ok y =>
        rw [Evaluation.outcome_ask_of_ok hm hfind hanswer] at h
        obtain ⟨hyx, rfl⟩ := (Prod.mk.injEq ..).mp h
        cases hyx
        refine ⟨fun q' z hz => ?_, by simp⟩
        have hne : q ≠ q' := by
          rintro rfl
          rw [hfind] at hz
          cases hz
        rw [Answered.find?_cons_of_ne p.answers hne]
        exact hz
  exact ⟨hkept.1, fun t ht => Evaluation.outcome_ask_of_found hm (ht q x hkept.2)⟩

/-- Being repeatable is a coupling of a computation with itself. -/
def coupling : Coupling where
  rel m n := m = n ∧ Repeatable m
  rel_pure a := ⟨rfl, pure a⟩
  rel_throw e := ⟨rfl, throw e⟩
  rel_bind h hfg :=
    ⟨by rw [h.1, funext fun a => (hfg a).1], h.2.bind fun a => (hfg a).2⟩

end Repeatable

/-! ### Inlined evaluations -/

namespace Trace

/-- Traces that no part of the program around them tells apart. -/
structure Alike (t t' : Trace) : Prop where
  value : t'.value = t.value
  failed : t'.failed = t.failed
  unversioned : t'.unversioned = t.unversioned

namespace Alike

/-- A trace is like itself. -/
lemma refl (t : Trace) : t.Alike t :=
  ⟨rfl, rfl, rfl⟩

variable {l l' r r' : Trace}

/-- Like traces have the same truth value. -/
lemma truthy (h : l.Alike l') : l'.truthy = l.truthy :=
  congrArg Value.truthy h.value

/-- Like traces spoil the same comparisons. -/
lemma spoils (h : l.Alike l') : l'.spoils = l.spoils := by
  unfold Trace.spoils
  rw [h.failed, h.unversioned]

/-- Like traces compare alike. -/
lemma compareHolds (hl : l.Alike l') (hr : r.Alike r') (op : CompareOp) :
    l'.compareHolds op r' = l.compareHolds op r := by
  unfold Trace.compareHolds
  rw [hl.value, hl.spoils, hr.value, hr.spoils]

/-- Like traces are tested for the same version. -/
lemma testedVersion? (h : l.Alike l') : l'.testedVersion? = l.testedVersion? := by
  unfold Trace.testedVersion?
  rw [h.value, h.spoils]

/-- A reference is like what it refers to. -/
theorem reference (h : l.Alike l') (name : String) (isChoice cached : Bool) :
    (Trace.reference name isChoice cached l).Alike l' :=
  ⟨h.value, h.failed, h.unversioned⟩

/-- Like traces stay alike under a tag. -/
lemma tagged (h : l.Alike l') (tag : String) :
    (Trace.tagged l tag).Alike (Trace.tagged l' tag) :=
  ⟨h.value, h.failed, h.unversioned⟩

end Alike

end Trace

namespace Sharing

variable (env : Environment) (settings : Settings)

/-- Evaluates an inlined expression, whose references are to choices without a selected
alternative. -/
def evalInlined (e : Expr) : EvalM Trace :=
  Evaluation.evalWith env settings (fun name => pure (.unselected name)) e

variable {env settings}

/-- With memory for answers, an inlined expression evaluates the same again. -/
lemma repeatable_evalInlined (hm : settings.memoize = true) (e : Expr) :
    Repeatable (evalInlined env settings e) := by
  have hask : Repeatable.coupling.Asks env env settings settings :=
    fun q => ⟨rfl, Repeatable.ask hm q⟩
  exact (hask.rel_evalWith rfl rfl fun name _ => ⟨rfl, .pure (Trace.unselected name)⟩).2

/-- A kept result of a definition stands for the evaluation of what a reference to the definition is
replaced by, on the answers kept in `p` or more. -/
def StandsFor (env : Environment) (settings : Settings) (s : Selection) (p : Progress)
    (name : String) (t : Trace) : Prop :=
  ∃ e t', s.Inlines (.reference name) e ∧ t.Alike t' ∧
    ∀ q, p.AnswersWithin q → (evalInlined env settings e).outcome q = (.ok t', q)

/-- A kept result stands for its definition as more answers are kept. -/
lemma StandsFor.mono {s : Selection} {p q : Progress} {name : String} {t : Trace}
    (h : StandsFor env settings s p name t) (hpq : p.AnswersWithin q) :
    StandsFor env settings s q name t := by
  obtain ⟨e, t', hinlines, halike, hagain⟩ := h
  exact ⟨e, t', hinlines, halike, fun r hr => hagain r (hpq.trans hr)⟩

/-- The progress `p` with shared results corresponds to the progress `p'` of the evaluation of the
inlined expression. -/
structure Corresponds (env : Environment) (settings : Settings) (s : Selection)
    (p p' : Progress) : Prop where
  asked : p'.asked = p.asked
  answers : p'.answers = p.answers
  shared : ∀ name t, p.results.lookup name = some t → StandsFor env settings s p name t

variable {s : Selection}

/-- `m` evaluates with shared results what `n` evaluates inlined. -/
abbrev Matches (env : Environment) (settings : Settings) (s : Selection) (m n : EvalM Trace) :
    Prop :=
  Lockstep (Corresponds env settings s) SameAsked Trace.Alike m n

/-- The coupling of evaluations without references. -/
def coupling (env : Environment) (settings : Settings) (s : Selection) : Coupling :=
  Lockstep.coupling (Corresponds env settings s) SameAsked fun _ _ h => h.asked

/-- A question is asked on both sides, or on neither. -/
theorem asks (hm : settings.memoize = true) :
    (coupling env settings s).Asks env env settings settings := by
  intro q p p' h
  obtain ⟨r, asked, answers, hask, hask'⟩ :=
    Evaluation.outcome_ask_congr env settings h.asked h.answers q
  cases r with
  | ok x =>
    have hgrow := (Repeatable.ask hm q p x _ hask).1
    exact .inl ⟨x, x, _, _, hask, hask', rfl, rfl, rfl,
      fun name t ht => (h.shared name t ht).mono hgrow⟩
  | error e => exact .inr ⟨e, _, _, hask, hask', rfl⟩

/-- An expression without references is its own inlined form. -/
theorem matches_of_references_eq_nil (hm : settings.memoize = true)
    (follow : String → EvalM Trace) {e : Expr} (h : e.references = []) :
    Matches env settings s (Evaluation.evalWith env settings follow e)
      (evalInlined env settings e) := by
  have hrun : (coupling env settings s).rel (Evaluation.evalWith env settings follow e)
      (evalInlined env settings e) := by
    refine (asks hm).rel_evalWith rfl rfl fun name hname => ?_
    rw [h] at hname
    exact absurd hname List.not_mem_nil
  exact hrun.mono fun t t' htt' => htt' ▸ .refl t

/-- If references match what they are replaced by, then expressions match their inlined forms. -/
theorem matches_evalWith (hm : settings.memoize = true) {follow : String → EvalM Trace}
    {e e' : Expr} (h : s.Inlines e e')
    (hfollow : ∀ name ∈ e.references, ∀ e', s.Inlines (.reference name) e' →
      Matches env settings s (follow name) (evalInlined env settings e')) :
    Matches env settings s (Evaluation.evalWith env settings follow e)
      (evalInlined env settings e') := by
  induction e generalizing e' with
  | reference name => exact hfollow name (by simp) e' h
  | tagged operand tag ih =>
    cases h with
    | tagged _ h =>
      refine (ih h fun name hname => hfollow name (by simpa using hname)).bind fun t t' ht => ?_
      exact .pure (ht.tagged tag)
  | compare op lhs rhs ihl ihr =>
    cases h with
    | compare _ hl hr =>
      refine (ihl hl fun name hname => hfollow name (by simp [hname])).bind fun l l' hll' => ?_
      refine (ihr hr fun name hname => hfollow name (by simp [hname])).bind fun r r' hrr' => ?_
      rw [hll'.compareHolds hrr' op]
      refine ((coupling env settings s).rel_liftExcept _).bind fun truthy _ htruthy => ?_
      exact htruthy ▸ .pure ⟨rfl, rfl, rfl⟩
  | within operand set ih =>
    cases h with
    | within _ h =>
      refine (ih h fun name hname => hfollow name (by simpa using hname)).bind fun t t' ht => ?_
      rw [ht.testedVersion?]
      refine ((coupling env settings s).rel_liftExcept _).bind fun tested _ htested => ?_
      exact htested ▸ .pure ⟨rfl, rfl, rfl⟩
  | logical op lhs rhs ihl ihr =>
    cases h with
    | logical _ hl hr =>
      refine (ihl hl fun name hname => hfollow name (by simp [hname])).bind fun l l' hll' => ?_
      rw [hll'.truthy]
      cases op.decided? l.truthy with
      | some truthy => exact .pure ⟨rfl, rfl, rfl⟩
      | none =>
        refine (ihr hr fun name hname => hfollow name (by simp [hname])).bind fun r r' hrr' => ?_
        rw [hrr'.truthy]
        exact .pure ⟨rfl, rfl, rfl⟩
  | _ =>
    cases h
    exact matches_of_references_eq_nil hm follow rfl

/-- Keeping the result of a definition whose inlined body has the same outcome. -/
theorem Corresponds.keep {p' q q' : Progress} {name : String} {e : Expr} {t t' : Trace}
    (hm : settings.memoize = true) (h : Corresponds env settings s q q')
    (hinlines : s.Inlines (.reference name) e) (ht : t.Alike t')
    (hrun : (evalInlined env settings e).outcome p' = (.ok t', q')) :
    Corresponds env settings s { q with results := (name, t) :: q.results } q' := by
  have hagain := (repeatable_evalInlined hm e p' t' q' hrun).2
  have hnew : StandsFor env settings s { q with results := (name, t) :: q.results } name t :=
    ⟨e, t', hinlines, ht, fun r hr => hagain r fun a x hx => hr a x (h.answers ▸ hx)⟩
  refine ⟨h.asked, h.answers, forall_lookup_cons hnew fun n u hu => ?_⟩
  exact (h.shared n u hu).mono (Progress.AnswersWithin.refl q)

/-- A reference matches what it is replaced by, if the body of its binding does. -/
theorem matches_followBinding (hm : settings.memoize = true) {follow : String → EvalM Trace}
    {name : String} {b : Binding} {e' : Expr} (hfind : s.find? name = some b)
    (h : s.Inlines (.reference name) e')
    (hbody : ∀ e, b.body = some e → s.Inlines e e' →
      Matches env settings s (Evaluation.evalWith env settings follow e)
        (evalInlined env settings e')) :
    Matches env settings s (do
        Evaluation.followBinding env settings follow name b ((← get).results.lookup name))
      (evalInlined env settings e') := by
  intro p p' hcorr
  rw [EvalM.outcome_bind_of_ok (EvalM.outcome_get p)]
  cases hlookup : p.results.lookup name with
  | some t =>
    obtain ⟨e'', t', hinlines, ht, hagain⟩ := hcorr.shared name t hlookup
    obtain rfl := h.unique hinlines
    have hsub : p.AnswersWithin p' := fun q x hx => hcorr.answers ▸ hx
    exact .inl ⟨_, t', p, p', rfl, hagain p' hsub, ht.reference name b.isChoice true, hcorr⟩
  | none =>
    cases h with
    | unselected hfind' hnone =>
      obtain rfl := Option.some.inj (hfind.symm.trans hfind')
      simp only [Evaluation.followBinding, hnone]
      exact .inl ⟨_, _, p, p', rfl, rfl, .refl _, hcorr⟩
    | @selected _ _ e _ hfind' hsome hinlines =>
      obtain rfl := Option.some.inj (hfind.symm.trans hfind')
      simp only [Evaluation.followBinding, hsome]
      rcases hbody e hsome hinlines p p' hcorr with
        ⟨t, t', q, q', hrun, hrun', ht, hcorr'⟩ | ⟨err, q, q', hrun, hrun', hasked⟩
      · rw [EvalM.outcome_bind_of_ok hrun, EvalM.outcome_bind_of_ok (EvalM.outcome_modify _ _)]
        exact .inl ⟨_, t', _, q', rfl, hrun', ht.reference name b.isChoice false,
          hcorr'.keep hm (.selected hfind hsome hinlines) ht hrun'⟩
      · rw [EvalM.outcome_bind_of_error hrun]
        exact .inr ⟨err, q, q', rfl, hrun', hasked⟩

/-- References to names in order match what they are replaced by, from the last name of the order to
the first. -/
theorem matches_followWithin (hm : settings.memoize = true) {order : List String}
    (hordered : s.Ordered order) {levels : Nat} (hlevels : order.length ≤ levels) {name : String}
    (hname : name ∈ order) {e' : Expr} (h : s.Inlines (.reference name) e') :
    Matches env settings s (Evaluation.followWithin env settings s levels name)
      (evalInlined env settings e') := by
  refine hordered.follow_induction
    (P := fun levels name => ∀ e', s.Inlines (.reference name) e' →
      Matches env settings s (Evaluation.followWithin env settings s levels name)
        (evalInlined env settings e'))
    (fun levels name b hfind hrefs e' h => ?_) hlevels hname e' h
  rw [Evaluation.followWithin, hfind]
  refine matches_followBinding hm hfind h fun e hbody hinlines => ?_
  exact matches_evalWith hm hinlines fun n hn e'' hinlines' => hrefs e hbody n hn e'' hinlines'

/-! ### Evaluating the inlined expression as a program -/

/-- Two computations with the same outcome wherever no results are kept, which keep none. -/
def SameUnshared {α : Type} (m n : EvalM α) : Prop :=
  ∀ p, p.results = [] → n.outcome p = m.outcome p ∧ (m.outcome p).2.results = []

namespace SameUnshared

/-- The same value is given at once. -/
lemma pure {α : Type} (a : α) : SameUnshared (pure a) (pure a) :=
  fun _ hp => ⟨rfl, hp⟩

/-- The same error is raised at once. -/
lemma throw {α : Type} (e : EvalError) : SameUnshared (throw e : EvalM α) (throw e) :=
  fun _ hp => ⟨rfl, hp⟩

/-- Sequences are the same where no results are kept if their parts are. -/
lemma bind {α β : Type} {m n : EvalM α} {f g : α → EvalM β} (h : SameUnshared m n)
    (hfg : ∀ a, SameUnshared (f a) (g a)) : SameUnshared (m >>= f) (n >>= g) := by
  intro p hp
  obtain ⟨hn, hresults⟩ := h p hp
  rcases hm : m.outcome p with ⟨e | a, q⟩
  · rw [hm] at hn hresults
    rw [EvalM.outcome_bind_of_error hm, EvalM.outcome_bind_of_error hn]
    exact ⟨rfl, hresults⟩
  · rw [hm] at hn hresults
    rw [EvalM.outcome_bind_of_ok hm, EvalM.outcome_bind_of_ok hn]
    exact hfg a q hresults

/-- Doing the same where no results are kept is a coupling. -/
def coupling : Coupling where
  rel := SameUnshared
  rel_pure := pure
  rel_throw := throw
  rel_bind := bind

/-- A query is the same on both sides. -/
lemma asks : coupling.Asks env env settings settings := by
  intro q p hp
  obtain ⟨r, asked, answers, hask, -⟩ :=
    Evaluation.outcome_ask_congr env settings (p := p) rfl rfl q
  rw [hask]
  exact ⟨rfl, hp⟩

/-- A reference to a choice without a selected alternative finds nothing. -/
theorem followWithin {name : String} (h : s.Unselected name) :
    SameUnshared (Pure.pure (Trace.unselected name))
      (Evaluation.followWithin env settings s s.bindings.length name) := by
  intro p hp
  obtain ⟨b, hfind, hnone⟩ := h
  have hpos : s.bindings.length ≠ 0 := by
    intro h0
    rw [Selection.find?, List.eq_nil_of_length_eq_zero h0] at hfind
    cases hfind
  obtain ⟨levels, hlevels⟩ := Nat.exists_eq_succ_of_ne_zero hpos
  refine ⟨?_, hp⟩
  rw [hlevels, Evaluation.followWithin, hfind]
  simp only
  rw [EvalM.outcome_bind_of_ok (EvalM.outcome_get p), hp]
  simp only [List.lookup_nil, Evaluation.followBinding, hnone]

end SameUnshared

end Sharing

namespace Selection

end Selection

end Requirements
