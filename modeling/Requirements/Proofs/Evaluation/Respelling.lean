import Mathlib.Tactic.Lemma
import Requirements.Proofs.Evaluation.Lockstep
import Requirements.Proofs.Evaluation.Nodes
import Requirements.Proofs.Expr.Respelling
import Requirements.Report.Builder

/-!
# Evaluating respelled programs

A program whose expressions have been respelled is evaluated like the program itself: it asks the
same questions, and its trace is the respelled trace. A report shows expressions by their texts
only, so the reports are the same.
-/

namespace Requirements

namespace Trace

/-- The trace of the respelled part of the program. -/
def respell : Trace → Trace
  | package name constraint features finding =>
    package name (constraint.map Constraint.respell) features finding
  | reference name isChoice cached body => reference name isChoice cached body.respell
  | tagged operand tag => tagged operand.respell tag
  | compare op lhs rhs truthy => compare op lhs.respell rhs.respell truthy
  | within operand set tested truthy => within operand.respell set.respell tested truthy
  | shortCircuit op lhs skipped truthy => shortCircuit op lhs.respell skipped.respell truthy
  | logical op lhs rhs truthy => logical op lhs.respell rhs.respell truthy
  | t => t

/-- A respelled trace has the same value. -/
@[simp] lemma value_respell (t : Trace) : t.respell.value = t.value := by
  induction t with
  | package name constraint features finding => cases finding <;> rfl
  | reference name isChoice cached body ih => exact ih
  | tagged operand tag ih => exact ih
  | _ => rfl

/-- A respelled trace has the same truth value. -/
@[simp] lemma truthy_respell (t : Trace) : t.respell.truthy = t.truthy := by
  rw [truthy, value_respell, truthy]

/-- A respelled trace fails if the trace does. -/
@[simp] lemma failed_respell (t : Trace) : t.respell.failed = t.failed := by
  induction t with
  | package name constraint features finding =>
    cases finding <;> rfl
  | reference name isChoice cached body ih => exact ih
  | tagged operand tag ih => exact ih
  | _ => rfl

/-- The name of an unversioned module is not touched by respelling. -/
@[simp] lemma unversioned_respell (t : Trace) : t.respell.unversioned = t.unversioned := by
  induction t with
  | package name constraint features finding => cases finding <;> rfl
  | reference name isChoice cached body ih => exact ih
  | tagged operand tag ih => exact ih
  | _ => rfl

/-- Comparisons do not look at the spelling of version sets. -/
lemma compareHolds_respell (op : CompareOp) (l r : Trace) :
    l.respell.compareHolds op r.respell = l.compareHolds op r := by
  simp [compareHolds, spoils]

/-- Set tests find the same version. -/
lemma testedVersion?_respell (t : Trace) : t.respell.testedVersion? = t.testedVersion? := by
  simp [testedVersion?, spoils]

/-- The trace of a respelled part shows the respelled part. -/
@[simp] lemma expr_respell (t : Trace) : t.respell.expr = t.expr.respell := by
  induction t with
  | compare op lhs rhs truthy ihl ihr => simp [respell, expr, Expr.respell, ihl, ihr]
  | within operand set tested truthy ih => simp [respell, expr, Expr.respell, ih]
  | tagged operand tag ih => simp [respell, expr, Expr.respell, ih]
  | shortCircuit op lhs skipped truthy ih => simp [respell, expr, Expr.respell, ih]
  | logical op lhs rhs truthy ihl ihr => simp [respell, expr, Expr.respell, ihl, ihr]
  | _ => rfl

/-- Labels show a version set in its canonical form, which respelling keeps. -/
@[simp] lemma label_respell (t : Trace) : t.respell.label = t.label := by
  cases t with
  | package name constraint features finding =>
    exact Expr.format_respell (.package name constraint features)
  | compare op lhs rhs truthy =>
    have h := congrArg Expr.format (expr_respell (compare op lhs rhs truthy))
    rwa [Expr.format_respell] at h
  | within operand set tested truthy =>
    have h := congrArg Expr.format (expr_respell (within operand set tested truthy))
    rwa [Expr.format_respell] at h
  | _ => rfl

/-! ### Reports -/

/-- The nodes are respelled one by one. -/
@[simp] lemma nodes_respell (t : Trace) : t.respell.nodes = t.nodes.map respell := by
  induction t with
  | reference name isChoice cached body ih => simp [respell, ih]
  | tagged operand tag ih => simp [respell, ih]
  | within operand set tested truthy ih => simp [respell, ih]
  | shortCircuit op lhs skipped truthy ih => simp [respell, ih]
  | compare op lhs rhs truthy ihl ihr => simp [respell, ihl, ihr]
  | logical op lhs rhs truthy ihl ihr => simp [respell, ihl, ihr]
  | _ => rfl

/-- Respelling mentions no platform constant and hides none. -/
lemma mentionsPlatform_respell (e : Expr) : mentionsPlatform e.respell = mentionsPlatform e := by
  rw [mentionsPlatform, Expr.nodes_respell, List.any_map, mentionsPlatform]
  congr 1
  funext e
  cases e <;> rfl

/-- Respelling mentions no module and hides none. -/
lemma mentionsPackage_respell (e : Expr) : mentionsPackage e.respell = mentionsPackage e := by
  rw [mentionsPackage, Expr.nodes_respell, List.any_map, mentionsPackage]
  congr 1
  funext e
  cases e <;> rfl

/-- The text shown for a platform constant stays. -/
lemma platformText?_respell (t : Trace) : t.respell.platformText? = t.platformText? := by
  cases t <;> rfl

/-- The text shown for a module's version stays. -/
lemma packageVersionText?_respell (t : Trace) :
    t.respell.packageVersionText? = t.packageVersionText? := by
  cases t with
  | package name constraint features finding => cases finding <;> rfl
  | _ => rfl

/-- The name shown for a module stays. -/
lemma packageName?_respell (t : Trace) : t.respell.packageName? = t.packageName? := by
  cases t <;> rfl

/-- The failure of a comparison shows nothing of the version sets below it. -/
theorem comparisonFailure_respell (text : String) (operands : List Trace) :
    comparisonFailure text (operands.map respell) = comparisonFailure text operands := by
  have hvisited : (operands.map respell).flatMap nodes = (operands.flatMap nodes).map respell := by
    rw [List.flatMap_map, List.map_flatMap]
    simp
  have hunversioned : ((operands.map respell).filter unversioned).flatMap nodes =
      ((operands.filter unversioned).flatMap nodes).map respell := by
    rw [List.filter_map, List.flatMap_map, List.map_flatMap]
    simp [Function.comp_def]
  have hnames : packageName? ∘ respell = packageName? := funext packageName?_respell
  have hplatform : platformText? ∘ respell = platformText? := funext platformText?_respell
  have hversions : packageVersionText? ∘ respell = packageVersionText? :=
    funext packageVersionText?_respell
  unfold comparisonFailure
  simp only [hvisited, hunversioned, List.filterMap_map, hnames, hplatform, hversions, List.any_map,
    Function.comp_def, expr_respell, mentionsPlatform_respell, mentionsPackage_respell]

/-- The diagnosis of a comparison stays. -/
lemma comparisonFailure?_respell (text : String) (operands : List Trace) :
    comparisonFailure? text (operands.map respell) = comparisonFailure? text operands := by
  simp only [comparisonFailure?, comparisonFailure_respell, List.any_map, Function.comp_def,
    failed_respell]

/-- The diagnosis of a node stays. -/
lemma ownFailure?_respell (t : Trace) : t.respell.ownFailure? = t.ownFailure? := by
  cases t with
  | package name constraint features finding =>
    have hformat := Expr.format_respell (.package name constraint features)
    cases finding with
    | none => rfl
    | some f =>
      simp only [respell, ownFailure?, packageFailure]
      rw [Expr.respell] at hformat
      rw [hformat]
  | compare op lhs rhs truthy =>
    have hlabel := label_respell (compare op lhs rhs truthy)
    have h := comparisonFailure?_respell (compare op lhs rhs truthy).label [lhs, rhs]
    rw [respell] at hlabel ⊢
    rw [ownFailure?, hlabel, ownFailure?]
    exact h
  | within operand set tested truthy =>
    have hlabel := label_respell (within operand set tested truthy)
    have h := comparisonFailure?_respell (within operand set tested truthy).label [operand]
    rw [respell] at hlabel ⊢
    rw [ownFailure?, hlabel, ownFailure?]
    exact h
  | logical op lhs rhs truthy => cases op <;> simp [respell, ownFailure?]
  | _ => rfl

/-- The entries of a node stay. -/
lemma ownEntries_respell (above : List String) (shadowed operand : Bool) (t : Trace) :
    t.respell.ownEntries above shadowed operand = t.ownEntries above shadowed operand := by
  have hplain : t.respell.isPlain = t.isPlain := by cases t <;> rfl
  rw [ownEntries, ownEntries, hplain, failure?, failure?, truthy_respell, ownFailure?_respell,
    label_respell]

/-- The entries of a respelled trace are those of the trace. -/
theorem entriesUnder_respell (above : List String) (shadowed operand : Bool) (t : Trace) :
    t.respell.entriesUnder above shadowed operand = t.entriesUnder above shadowed operand := by
  induction t generalizing above shadowed operand with
  | reference name isChoice cached body ih =>
    have hown := ownEntries_respell above shadowed operand (reference name isChoice cached body)
    have hlabel := label_respell (reference name isChoice cached body)
    have htruthy := truthy_respell (reference name isChoice cached body)
    simp only [respell] at hown hlabel htruthy
    simp only [respell, entriesUnder, hown, hlabel, htruthy, ih]
  | tagged inner tag ih =>
    have hown := ownEntries_respell above shadowed operand (tagged inner tag)
    have hlabel := label_respell (tagged inner tag)
    have htruthy := truthy_respell (tagged inner tag)
    simp only [respell] at hown hlabel htruthy
    simp only [respell, entriesUnder, hown, hlabel, htruthy, ih]
  | compare op lhs rhs truthy ihl ihr =>
    have hown := ownEntries_respell above shadowed operand (compare op lhs rhs truthy)
    have hlabel := label_respell (compare op lhs rhs truthy)
    simp only [respell] at hown hlabel
    simp only [respell, entriesUnder, hown, hlabel, ihl, ihr]
  | within inner set tested truthy ih =>
    have hown := ownEntries_respell above shadowed operand (within inner set tested truthy)
    have hlabel := label_respell (within inner set tested truthy)
    simp only [respell] at hown hlabel
    simp only [respell, entriesUnder, hown, hlabel, ih]
  | shortCircuit op lhs skipped truthy ih =>
    simp only [respell, entriesUnder, ih]
  | logical op lhs rhs truthy ihl ihr =>
    have hown := ownEntries_respell above shadowed operand (logical op lhs rhs truthy)
    simp only [respell] at hown
    simp only [respell, entriesUnder, hown, ihl, ihr]
  | package name constraint features finding =>
    exact ownEntries_respell above shadowed operand (package name constraint features finding)
  | _ => rfl

/-- The report on a respelled trace is the report on the trace. -/
@[simp] theorem report_respell (options : List String) (t : Trace) :
    t.respell.report options = t.report options := by
  simp only [report, entries, truthy_respell, entriesUnder_respell]

end Trace

/-! ### Evaluation -/

namespace Binding

/-- The binding with its body respelled. -/
def respell (b : Binding) : Binding :=
  { b with body := b.body.map Expr.respell }

end Binding

namespace Selection

/-- `s'` is `s` with all expressions respelled, but perhaps with its bindings in another order. -/
structure Respelled (s s' : Selection) : Prop where
  options : s'.options = s.options
  master : s'.master = s.master.respell
  length : s'.bindings.length = s.bindings.length
  find : ∀ name, s'.find? name = (s.find? name).map Binding.respell

end Selection

namespace Respelling

/-- The results of the respelled definitions, with their names. -/
def respellResults (results : List (String × Trace)) : List (String × Trace) :=
  results.map fun r => (r.1, r.2.respell)

/-- Looking for a respelled result is respelling the result found. -/
@[simp] lemma lookup_respellResults (results : List (String × Trace)) (name : String) :
    (respellResults results).lookup name = (results.lookup name).map Trace.respell := by
  induction results with
  | nil => rfl
  | cons r results ih =>
    obtain ⟨n, t⟩ := r
    rw [respellResults] at ih ⊢
    rw [List.map_cons, List.lookup_cons, List.lookup_cons, ih]
    cases name == n <;> rfl

/-- The progress `p'` of the respelled program corresponds to the progress `p` of the program. -/
structure Corresponds (p p' : Progress) : Prop where
  asked : p'.asked = p.asked
  answers : p'.answers = p.answers
  results : p'.results = respellResults p.results

/-- The evaluation `n` of a respelled part of the program corresponds to the evaluation `m` of the
part. -/
abbrev Matches (m n : EvalM Trace) : Prop :=
  Lockstep Corresponds SameAsked (fun t t' => t' = t.respell) m n

/-- The coupling of evaluations that see no expression. -/
def coupling : Coupling :=
  Lockstep.coupling Corresponds SameAsked fun _ _ h => h.asked

variable {env : Environment} {settings : Settings} {s s' : Selection}

/-- A query does not depend on how version sets are spelled. -/
lemma asks : coupling.Asks env env settings settings := by
  intro q p p' h
  obtain ⟨r, asked, answers, hask, hask'⟩ :=
    Evaluation.outcome_ask_congr env settings h.asked h.answers q
  cases r with
  | ok x => exact .inl ⟨x, x, _, _, hask, hask', rfl, rfl, rfl, h.results⟩
  | error e => exact .inr ⟨e, _, _, hask, hask', rfl⟩

/-- If references match, then expressions match their respelled forms. -/
theorem matches_evalWith {follow follow' : String → EvalM Trace}
    (hfollow : ∀ name, Matches (follow name) (follow' name)) (e : Expr) :
    Matches (Evaluation.evalWith env settings follow e)
      (Evaluation.evalWith env settings follow' e.respell) := by
  induction e with
  | bool b => exact .pure rfl
  | text s => exact .pure rfl
  | version v => exact .pure rfl
  | platform fact =>
    cases fact with
    | osname => exact .pure rfl
    | ithreads => exact .pure rfl
  | package name constraint features =>
    have haccepts : (constraint.map Constraint.respell).map Constraint.accepts =
        constraint.map Constraint.accepts := by
      cases constraint <;> simp
    refine (asks.rel_find name haccepts features).bind fun finding _ h => ?_
    exact h ▸ .pure rfl
  | probe kind args =>
    refine (asks.rel_askArguments kind args).bind fun found _ h => ?_
    exact h ▸ .pure rfl
  | reference name => exact hfollow name
  | tagged operand tag ih =>
    refine ih.bind fun t _ h => ?_
    exact h ▸ .pure rfl
  | compare op lhs rhs ihl ihr =>
    refine ihl.bind fun l _ hl => ihr.bind fun r _ hr => ?_
    rw [hl, hr, Trace.compareHolds_respell]
    refine (coupling.rel_liftExcept _).bind fun truthy _ h => ?_
    exact h ▸ .pure rfl
  | within operand set ih =>
    refine ih.bind fun t _ ht => ?_
    rw [ht, Trace.testedVersion?_respell]
    refine (coupling.rel_liftExcept _).bind fun tested _ h => ?_
    subst h
    rw [Version.RangeSet.accepts_respell]
    exact .pure rfl
  | logical op lhs rhs ihl ihr =>
    refine ihl.bind fun l _ hl => ?_
    rw [hl, Trace.truthy_respell]
    cases op.decided? l.truthy with
    | some truthy => exact .pure rfl
    | none =>
      refine ihr.bind fun r _ hr => ?_
      rw [hr, Trace.truthy_respell]
      exact .pure rfl

/-- References to the same definition match. -/
theorem matches_followWithin (h : s.Respelled s') (levels : Nat) (name : String) :
    Matches (Evaluation.followWithin env settings s levels name)
      (Evaluation.followWithin env settings s' levels name) := by
  induction levels generalizing name with
  | zero => exact .throw (fun _ _ h => h.asked) _
  | succ levels ih =>
    rw [Evaluation.followWithin, Evaluation.followWithin, h.find]
    cases s.find? name with
    | none => exact .throw (fun _ _ h => h.asked) _
    | some b =>
      refine Lockstep.get.bind fun p p' hp => ?_
      rw [hp.results, lookup_respellResults]
      unfold Evaluation.followBinding
      cases p.results.lookup name with
      | some t => exact .pure rfl
      | none =>
        simp only [Option.map_none, Binding.respell]
        cases b.body with
        | none => exact .pure rfl
        | some e =>
          refine (matches_evalWith ih e).bind fun t _ ht => ?_
          have hkeep : Lockstep Corresponds SameAsked Eq
              (modify fun p => { p with results := (name, t) :: p.results })
              (modify fun p => { p with results := (name, t.respell) :: p.results }) :=
            Lockstep.modify fun _ _ hr =>
              ⟨hr.asked, hr.answers, congrArg ((name, t.respell) :: ·) hr.results⟩
          subst ht
          exact hkeep.bind fun _ _ _ => .pure rfl

/-- Respelling a program changes neither the questions asked nor the report or the error. -/
theorem evaluate_respelled (h : s.Respelled s') (env : Environment) (settings : Settings) :
    (s'.evaluate env settings).asked = (s.evaluate env settings).asked ∧
      s'.check env settings = s.check env settings := by
  have hmatch : Matches (Evaluation.eval env settings s s.master)
      (Evaluation.eval env settings s' s'.master) := by
    rw [Evaluation.eval, Evaluation.eval, h.master, h.length]
    exact matches_evalWith (matches_followWithin h s.bindings.length) s.master
  rw [Selection.check, Selection.check, Selection.evaluate_eq, Selection.evaluate_eq, h.options]
  rcases hmatch {} {} ⟨rfl, rfl, rfl⟩ with
    ⟨t, t', q, q', hrun, hrun', ht, hcorr⟩ | ⟨err, q, q', hrun, hrun', hasked⟩
  · simp only [hrun, hrun', hcorr.asked, ht, Except.map, Trace.report_respell, and_self]
  · have hsame : q'.asked = q.asked := hasked
    simp only [hrun, hrun', hsame, Except.map, and_self]

end Respelling

end Requirements
