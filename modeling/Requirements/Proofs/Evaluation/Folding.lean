import Mathlib.Tactic.Lemma
import Requirements.Proofs.Evaluation.Agreement
import Requirements.Proofs.Version.Order

/-!
# Folded comparisons

A comparison of a bare module with a version literal is read as a condition on the module, and so is
a set test over a bare module. The two are evaluated differently. The comparison asks for all
features of the module before it looks at the version; the condition looks at the version first, and
asks for features only if it is satisfied. Both hold exactly if the module is installed with all the
features and declares a version that is as required. So the condition can stand for the comparison:
where the comparison has a truth value, the condition has the same, and asks for no more.
-/

namespace Requirements

/-- The module has the features asked for, and a version that satisfies the condition. -/
def Finding.meets (c : Constraint) (f : Finding) : Bool :=
  f.truthy && f.version.any c.accepts

/-! ### Modules as operands -/

namespace Trace

section Operands

variable (name : String) (constraint : Option Constraint) (features : List String)
  (finding : Option Finding)

/-- As an operand, a module spoils the comparison and meets no condition, or it counts for its
version and meets the conditions that accept this. -/
theorem package_spoils_or_counts :
    (package name constraint features finding).spoils = true ∧
        (∀ c, finding.any (Finding.meets c) = false) ∨
      ∃ w, (package name constraint features finding).spoils = false ∧
        (package name constraint features finding).value = { truthy := true, version := some w } ∧
        ∀ c, finding.any (Finding.meets c) = c.accepts w := by
  cases finding with
  | none => exact .inl ⟨rfl, fun c => rfl⟩
  | some f =>
    cases htruthy : f.truthy with
    | false =>
      refine .inl ⟨?_, fun c => by simp [Finding.meets, htruthy]⟩
      simp [spoils, failed, truthy, value, htruthy]
    | true =>
      cases hversion : f.version with
      | none =>
        refine .inl ⟨?_, fun c => by simp [Finding.meets, hversion]⟩
        simp [spoils, unversioned, htruthy, hversion]
      | some w =>
        refine .inr ⟨w, ?_, ?_, fun c => by simp [Finding.meets, htruthy, hversion]⟩
        · simp [spoils, failed, unversioned, truthy, value, htruthy, hversion]
        · simp [value, htruthy, hversion]

/-- A module compared with a version holds if what was found meets the comparison. -/
lemma compareHolds_package_version (op : CompareOp) (v : Version) :
    compareHolds op (package name constraint features finding) (version v) =
      .ok (finding.any (Finding.meets (.compare op v))) := by
  have hliteral : (version v).spoils = false := rfl
  rcases package_spoils_or_counts name constraint features finding with
    ⟨hspoils, hmeets⟩ | ⟨w, hspoils, hvalue, hmeets⟩
  · rw [compareHolds, hspoils, hmeets, Bool.true_or, if_pos rfl]
  · rw [compareHolds, hspoils, hliteral, Bool.false_or, if_neg Bool.false_ne_true, hmeets, hvalue]
    rfl

/-- Behind a version, a module is compared with it by the operator for the exchanged operands. -/
theorem compareHolds_version_package (op : CompareOp) (v : Version) :
    compareHolds op (version v) (package name constraint features finding) =
      .ok (finding.any (Finding.meets (.compare op.swap v))) := by
  have hliteral : (version v).spoils = false := rfl
  rcases package_spoils_or_counts name constraint features finding with
    ⟨hspoils, hmeets⟩ | ⟨w, hspoils, hvalue, hmeets⟩
  · rw [compareHolds, hspoils, hmeets, Bool.or_true, if_pos rfl]
  · have horder : Value.order op (version v).value { truthy := true, version := some w } =
        .ok (v.order w) := rfl
    rw [compareHolds, hspoils, hliteral, Bool.false_or, if_neg Bool.false_ne_true, hmeets, hvalue,
      horder, Constraint.accepts, CompareOp.holds_swap, Version.order_swap]
    rfl

/-- A set test of a module holds if what was found is in the set. -/
lemma testedVersion?_package (set : Version.RangeSet) :
    (package name constraint features finding).testedVersion?.map (fun v? => v?.any set.accepts) =
      .ok (finding.any (Finding.meets (.within set))) := by
  rcases package_spoils_or_counts name constraint features finding with
    ⟨hspoils, hmeets⟩ | ⟨w, hspoils, hvalue, hmeets⟩
  · rw [testedVersion?, hspoils, hmeets, if_pos rfl]
    rfl
  · rw [testedVersion?, hspoils, if_neg Bool.false_ne_true, hmeets, hvalue]
    rfl

end Operands

end Trace

/-! ### Looking for a module under a condition -/

namespace Evaluation

variable {env : Environment} {settings : Settings} {name : String} {features : List String}

/-- If an installed module can be looked at without a condition on its version, it can be looked at
with one. Its features are asked for only if it meets the condition. -/
theorem examine_under_condition {record : ModuleRecord} {p q : Progress} {f : Finding}
    (h : (examine env settings name none features record).outcome p = (.ok f, q))
    (c : Constraint) :
    ∃ f' q', (examine env settings name (some c) features record).outcome p = (.ok f', q') ∧
      q'.asked <:+ q.asked ∧ f'.truthy = f.meets c := by
  obtain ⟨version, r, hversion, h⟩ := EvalM.outcome_bind_ok_iff.mp h
  have hdeclared := hversion
  rw [EvalM.outcome_liftExcept] at hversion
  obtain ⟨-, rfl⟩ := Prod.mk.inj hversion
  obtain ⟨found, r, hfound, h⟩ := EvalM.outcome_bind_ok_iff.mp h
  cases h
  rw [Option.map_none, Option.all_none, if_pos rfl] at hfound
  have hgrow : p.asked <:+ q.asked := by
    have hasks := ((Determines.asks env env settings).rel_askFeatures name features p).1
    rwa [hfound] at hasks
  rw [examine, EvalM.outcome_bind_of_ok hdeclared]
  cases haccepts : version.any c.accepts with
  | false =>
    have hnothing : EvalM.outcome
        (if ((some c).map fun c => version.any c.accepts).all id
          then askFeatures env settings name features else pure []) p = (.ok [], p) := by
      simp [haccepts]
    refine ⟨_, p, EvalM.outcome_bind_of_ok hnothing, hgrow, ?_⟩
    simp [Finding.truthy, Finding.meets, haccepts]
  | true =>
    have hfeatures : EvalM.outcome
        (if ((some c).map fun c => version.any c.accepts).all id
          then askFeatures env settings name features else pure []) p = (.ok found, q) := by
      simpa [haccepts] using hfound
    refine ⟨_, q, EvalM.outcome_bind_of_ok hfeatures, List.suffix_rfl, ?_⟩
    simp [Finding.truthy, Finding.meets, haccepts]

/-- If a module can be looked for without a condition on its version, it can be looked for with one.
No other questions are asked, and the module is as required if it meets the condition. -/
theorem find_under_condition {p q : Progress} {finding : Option Finding}
    (h : (find env settings name none features).outcome p = (.ok finding, q)) (c : Constraint) :
    ∃ finding' q', (find env settings name (some c) features).outcome p = (.ok finding', q') ∧
      q'.asked <:+ q.asked ∧
      (Trace.package name (some c) features finding').truthy = finding.any (Finding.meets c) := by
  obtain ⟨answer, r, hanswer, h⟩ := EvalM.outcome_bind_ok_iff.mp h
  cases answer with
  | none =>
    cases h
    exact ⟨none, _, EvalM.outcome_bind_of_ok hanswer, List.suffix_rfl, rfl⟩
  | some record =>
    obtain ⟨f, q, hf, h⟩ := EvalM.outcome_bind_ok_iff.mp h
    cases h
    obtain ⟨f', q', hf', hasked, htruthy⟩ := examine_under_condition hf c
    refine ⟨some f', q', ?_, hasked, htruthy⟩
    rw [find, EvalM.outcome_bind_of_ok hanswer]
    exact EvalM.outcome_bind_of_ok hf'

/-! ### Comparisons and set tests -/

variable {follow : String → EvalM Trace}

/-- The evaluation of an expression consists in looking for a module without a condition on its
version, and the expression holds if the module meets `c`. -/
def TestsModule (follow : String → EvalM Trace) (env : Environment) (settings : Settings)
    (name : String) (features : List String) (c : Constraint) (e : Expr) : Prop :=
  ∀ p t q, (evalWith env settings follow e).outcome p = (.ok t, q) →
    ∃ finding, (find env settings name none features).outcome p = (.ok finding, q) ∧
      t.truthy = finding.any (Finding.meets c)

/-- A module to the left of a version is tested by the comparison as it stands. -/
lemma testsModule_package_version (op : CompareOp) (v : Version) :
    TestsModule follow env settings name features (.compare op v)
      (.compare op (.package name none features) (.version v)) := by
  intro p t q h
  obtain ⟨l, r, hl, h⟩ := EvalM.outcome_bind_ok_iff.mp h
  obtain ⟨finding, r', hfinding, hl⟩ := EvalM.outcome_bind_ok_iff.mp hl
  cases hl
  rw [evalWith, EvalM.outcome_bind_of_ok (EvalM.outcome_pure _ _),
    Trace.compareHolds_package_version] at h
  cases h
  exact ⟨finding, hfinding, rfl⟩

/-- A module to the right of a version is tested by the mirrored comparison. -/
lemma testsModule_version_package (op : CompareOp) (v : Version) :
    TestsModule follow env settings name features (.compare op.swap v)
      (.compare op (.version v) (.package name none features)) := by
  intro p t q h
  rw [evalWith, evalWith, EvalM.outcome_bind_of_ok (EvalM.outcome_pure _ _)] at h
  obtain ⟨r, r₁, hr, h⟩ := EvalM.outcome_bind_ok_iff.mp h
  obtain ⟨finding, r₂, hfinding, hr⟩ := EvalM.outcome_bind_ok_iff.mp hr
  cases hr
  rw [Trace.compareHolds_version_package] at h
  cases h
  exact ⟨finding, hfinding, rfl⟩

/-- A module is tested by the set it must be in. -/
lemma testsModule_within (set : Version.RangeSet) :
    TestsModule follow env settings name features (.within set)
      (.within (.package name none features) set) := by
  intro p t q h
  obtain ⟨inner, r, hinner, h⟩ := EvalM.outcome_bind_ok_iff.mp h
  obtain ⟨finding, r', hfinding, hinner⟩ := EvalM.outcome_bind_ok_iff.mp hinner
  cases hinner
  obtain ⟨tested, r₁, htested, h⟩ := EvalM.outcome_bind_ok_iff.mp h
  rw [EvalM.outcome_liftExcept] at htested
  obtain ⟨hversion, rfl⟩ := Prod.mk.inj htested
  cases h
  have hmeets := Trace.testedVersion?_package name none features finding set
  rw [hversion] at hmeets
  exact ⟨finding, hfinding, Except.ok.inj hmeets⟩

/-- The condition on the module has the truth value of what tests the module, and asks for no
more. -/
theorem TestsModule.of_condition {c : Constraint} {e : Expr}
    (h : TestsModule follow env settings name features c e) {p q : Progress} {t : Trace}
    (hrun : (evalWith env settings follow e).outcome p = (.ok t, q)) :
    ∃ t' q', (evalWith env settings follow (.package name (some c) features)).outcome p =
      (.ok t', q') ∧ t'.truthy = t.truthy ∧ q'.asked <:+ q.asked := by
  obtain ⟨finding, hfinding, htruthy⟩ := h p t q hrun
  obtain ⟨finding', q', hfind, hasked, htruthy'⟩ := find_under_condition hfinding c
  refine ⟨.package name (some c) features finding', q', ?_, htruthy'.trans htruthy.symm, hasked⟩
  rw [evalWith, EvalM.outcome_bind_of_ok hfind]
  rfl

/-- Where the evaluation `whole` gives a truth value, `folded` gives the same one, and the questions
that it asks are the first of those that `whole` asks. -/
def TruthKept (whole folded : Evaluation) : Prop :=
  ∀ t, whole.result = .ok t → ∃ t', folded.result = .ok t' ∧ t'.truthy = t.truthy ∧
    folded.asked <+: whole.asked

end Evaluation

namespace Selection

/-- Evaluates an expression, from the start, in the place of the master expression. -/
def evaluateExpr (s : Selection) (e : Expr) (env : Environment) (settings : Settings) :
    Evaluation :=
  { s with master := e }.evaluate env settings

/-- A test keeps its truth value when its condition is folded into the name of the module. -/
lemma truthKept_of_testsModule {s : Selection} {env : Environment} {settings : Settings}
    {name : String} {features : List String} {c : Constraint} {e : Expr}
    (h : Evaluation.TestsModule (Evaluation.followWithin env settings { s with master := e }
      s.bindings.length) env settings name features c e) :
    Evaluation.TruthKept (s.evaluateExpr e env settings)
      (s.evaluateExpr (.package name (some c) features) env settings) := by
  intro t ht
  obtain ⟨t', q, hrun, htruthy, hasked⟩ := h.of_condition (Prod.ext ht rfl)
  have hfolded : s.evaluateExpr (.package name (some c) features) env settings =
      ⟨q.asked.reverse, .ok t'⟩ := by
    -- A module has no references, so it does not matter how they are followed.
    have heval : (Evaluation.eval env settings { s with master := .package name (some c) features }
        (.package name (some c) features)).outcome {} = (.ok t', q) := hrun
    rw [evaluateExpr, evaluate_eq, heval]
  rw [hfolded]
  exact ⟨t', rfl, htruthy, List.reverse_prefix.mpr hasked⟩

/-- What the reader folds keeps its truth value. Take a module `name` with any features and without
a condition on its version. Wherever its comparison with a version has a truth value, the condition
that it is read as has the same one, and the questions that are asked for it are the first of those
that are asked for the comparison; and so it is for the comparison of a version with the module, and
for a set test over the module. -/
theorem evaluate_folded (s : Selection) (env : Environment) (settings : Settings) (name : String)
    (features : List String) :
    (∀ op v, Evaluation.TruthKept
      (s.evaluateExpr (.compare op (.package name none features) (.version v)) env settings)
      (s.evaluateExpr (.comparison op (.package name none features) (.version v)) env settings)) ∧
    (∀ op v, Evaluation.TruthKept
      (s.evaluateExpr (.compare op (.version v) (.package name none features)) env settings)
      (s.evaluateExpr (.comparison op (.version v) (.package name none features)) env settings)) ∧
    ∀ set, Evaluation.TruthKept
      (s.evaluateExpr (.within (.package name none features) set) env settings)
      (s.evaluateExpr (.membership (.package name none features) set) env settings) :=
  ⟨fun op v => truthKept_of_testsModule (Evaluation.testsModule_package_version op v),
    fun op v => truthKept_of_testsModule (Evaluation.testsModule_version_package op v),
    fun set => truthKept_of_testsModule (Evaluation.testsModule_within set)⟩

/-- Of a module that is too old, the comparison asks for the features before it does not hold, and
the condition does not ask for them. -/
example :
    let s : Selection := ⟨[], [], .bool true⟩
    let env := ({ registry := .ofVersions [("YAML", some "0.70")] } : SystemDescription).environment
    let yaml : Expr := .package "YAML" none ["x"]
    let one : Expr := .version ⟨[.number 1], "1"⟩
    (s.evaluateExpr (.compare .gt yaml one) env {}).asked =
        [.lookup "YAML", .feature "YAML" "x"] ∧
      (s.evaluateExpr (.comparison .gt yaml one) env {}).asked = [.lookup "YAML"] := by
  decide +kernel

end Selection

end Requirements
