import Mathlib.Tactic.Lemma
import Requirements.Proofs.Evaluation.Coupling
import Requirements.Proofs.Program.Selection

/-!
# Errors of an evaluation

An evaluation of an accepted program can only fail for a cause outside the program: the environment
refuses an answer, a text is no version, or two values cannot be compared. It never misses a
definition and never follows references without end. For both, the definitions are taken in an order
in which each comes behind those that it refers to. Going through it from the last one to the first,
the number of levels that a reference may go down does not matter as long as it reaches the end of
the order.
-/

namespace Requirements

namespace EvalError

/-- The causes for which an evaluation may fail when it has asked the given questions: the refusal
of an answer to one of them, a text that is no version, or values that cannot be compared. -/
inductive Arises (env : Environment) (settings : Settings) (asked : List Query) : EvalError → Prop
  | refused {q : Query} {r : Refusal} (hq : q ∈ asked) (hr : env.answer q = .error r) :
    Arises env settings asked (.ofRefusal settings.timeout q r)
  | malformed (use : VersionUse) {text : String} (h : Version.ofText? text = none) :
    Arises env settings asked (.malformedVersion use text)
  | missingVersion : Arises env settings asked .missingVersion
  | incomparable (op : CompareOp) : Arises env settings asked (.incomparable op)

/-- A cause that was asked for stays one when more is asked. -/
lemma Arises.mono {env : Environment} {settings : Settings} {asked asked' : List Query}
    {e : EvalError} (h : e.Arises env settings asked) (hsub : asked ⊆ asked') :
    e.Arises env settings asked' := by
  cases h with
  | refused hq hr => exact .refused (hsub hq) hr
  | malformed use htext => exact .malformed use htext
  | missingVersion => exact .missingVersion
  | incomparable op => exact .incomparable op

end EvalError

/-! ### Comparing values -/

/-- What fails after a change of its value has failed before. -/
theorem eq_error_of_map {ε α β : Type} {x : Except ε α} {f : α → β} {e : ε}
    (h : x.map f = .error e) : x = .error e := by
  cases x with
  | ok a => cases h
  | error e' =>
    cases h
    rfl

section Values

variable {env : Environment} {settings : Settings} {asked : List Query} {e : EvalError}

/-- A text that is no version is the cause of the error it raises. -/
lemma Value.arises_of_readVersion {use : VersionUse} {text : String}
    (h : Value.readVersion use text = .error e) : e.Arises env settings asked := by
  unfold Value.readVersion at h
  cases hread : Version.ofText? text with
  | some v => simp [hread] at h
  | none =>
    rw [hread] at h
    cases h
    exact .malformed use hread

/-- A value that has no version is the cause of the error of its conversion. -/
lemma Value.arises_of_asVersion {v : Value} (h : v.asVersion = .error e) :
    e.Arises env settings asked := by
  unfold Value.asVersion at h
  split at h
  · cases h
  · exact arises_of_readVersion h

/-- Values that have no order under an operator are not both versions, not both truth values, or
one of them is a text that is no version. -/
theorem Value.arises_of_order {op : CompareOp} {v w : Value} (h : v.order op w = .error e) :
    e.Arises env settings asked := by
  unfold Value.order at h
  split at h
  · cases h
  · split at h
    · cases h
    · split at h
      · cases h
      · cases h
        exact .incomparable op
    · cases h
      exact .incomparable op
  · split at h
    · cases h
    · cases hv : v.asVersion with
      | error e' =>
        rw [hv] at h
        cases h
        exact arises_of_asVersion hv
      | ok a =>
        cases hw : w.asVersion with
        | error e' =>
          rw [hv, hw] at h
          cases h
          exact arises_of_asVersion hw
        | ok b =>
          rw [hv, hw] at h
          cases h

/-- The error of a comparison arises from the version that one of its sides does not have. -/
lemma Trace.arises_of_compareHolds {op : CompareOp} {l r : Trace}
    (h : l.compareHolds op r = .error e) : e.Arises env settings asked := by
  unfold Trace.compareHolds at h
  split at h
  · cases h
  · exact Value.arises_of_order (eq_error_of_map h)

/-- The error of a version test arises from the operand that is no version. -/
lemma Trace.arises_of_testedVersion? {t : Trace} (h : t.testedVersion? = .error e) :
    e.Arises env settings asked := by
  unfold Trace.testedVersion? at h
  split at h
  · cases h
  · have htested : t.value.testedVersion = .error e := eq_error_of_map h
    unfold Value.testedVersion at htested
    split at htested
    · cases htested
    · exact Value.arises_of_readVersion htested
    · cases htested
      exact .missingVersion

/-- A declared version that cannot be read is the cause of the error. -/
lemma Evaluation.arises_of_declaredVersion {name : String} {record : ModuleRecord}
    (h : Evaluation.declaredVersion name record = .error e) : e.Arises env settings asked := by
  unfold Evaluation.declaredVersion at h
  split at h
  · cases h
  · exact Value.arises_of_readVersion (eq_error_of_map h)

end Values

/-! ### Failures of computations -/

/-- Every failure of the computation has one of the causes. -/
def FailsWithCause (env : Environment) (settings : Settings) {α : Type} (m : EvalM α) : Prop :=
  ∀ p e q, m.outcome p = (.error e, q) → e.Arises env settings q.asked

namespace FailsWithCause

variable {env : Environment} {settings : Settings} {α β : Type}

/-- A pure computation does not fail. -/
lemma pure (a : α) : FailsWithCause env settings (pure a) := by
  intro p e q h
  cases h

/-- A sequence fails with a cause if each of its parts does. -/
lemma bind {m : EvalM α} {f : α → EvalM β} (hm : FailsWithCause env settings m)
    (hf : ∀ a, FailsWithCause env settings (f a)) : FailsWithCause env settings (m >>= f) := by
  intro p e q h
  rcases hrun : m.outcome p with ⟨e' | a, r⟩
  · rw [EvalM.outcome_bind_of_error hrun] at h
    cases h
    exact hm p e _ hrun
  · rw [EvalM.outcome_bind_of_ok hrun] at h
    exact hf a r e q h

/-- A lifted computation fails with a cause if its error has one. -/
lemma liftExcept {r : Except EvalError α}
    (hr : ∀ e asked, r = .error e → e.Arises env settings asked) :
    FailsWithCause env settings (liftM r : EvalM α) := by
  intro p e q h
  rw [EvalM.outcome_liftExcept] at h
  cases h
  exact hr e p.asked rfl

/-- Running one computation for every element of a list fails with a cause if each run does. -/
lemma mapM {f : α → EvalM β} (hf : ∀ a, FailsWithCause env settings (f a)) (l : List α) :
    FailsWithCause env settings (l.mapM f) := by
  induction l with
  | nil => exact pure []
  | cons a l ih =>
    rw [List.mapM_cons]
    exact bind (hf a) fun b => bind ih fun bs => pure (b :: bs)

/-- A new query fails only with the error the environment gave for it. -/
lemma askAnew (q : Query) : FailsWithCause env settings (Evaluation.askAnew env settings q) := by
  intro p e p' h
  cases hanswer : env.answer q with
  | ok x =>
    rw [Evaluation.outcome_askAnew_of_ok hanswer] at h
    cases h
  | error r =>
    rw [Evaluation.outcome_askAnew_of_error hanswer] at h
    cases h
    exact .refused List.mem_cons_self hanswer

/-- A query fails only with the error the environment gave, remembered answers being no failures. -/
lemma ask (q : Query) : FailsWithCause env settings (Evaluation.ask env settings q) := by
  unfold Evaluation.ask
  split
  · refine bind (fun p e q h => by cases h) fun p => ?_
    cases Answered.find? p.answers q with
    | some x => exact pure x
    | none => exact (askAnew q).bind fun x => bind (fun p e q h => by cases h) fun _ => pure x
  · exact askAnew q

/-- Examining a module that was found fails with an unreadable version or a refused feature. -/
lemma examine (name : String) (constraint : Option Constraint) (features : List String)
    (record : ModuleRecord) : FailsWithCause env settings
      (Evaluation.examine env settings name constraint features record) := by
  refine bind (liftExcept fun e asked h => Evaluation.arises_of_declaredVersion h) fun version => ?_
  refine bind ?_ fun found => pure _
  split
  · exact mapM (fun feature => (ask _).bind fun _ => pure _) features
  · exact pure []

/-- Finding a module fails with a refused lookup or in its examination. -/
lemma find (name : String) (constraint : Option Constraint) (features : List String) :
    FailsWithCause env settings (Evaluation.find env settings name constraint features) := by
  refine (ask (.lookup name)).bind fun answer => ?_
  cases answer with
  | none => exact pure none
  | some record => exact (examine name constraint features record).bind fun f => pure (some f)

/-- If following the references of an expression fails for such causes only, so does its
evaluation. -/
theorem evalWith {follow : String → EvalM Trace} {e : Expr}
    (hfollow : ∀ name ∈ e.references, FailsWithCause env settings (follow name)) :
    FailsWithCause env settings (Evaluation.evalWith env settings follow e) := by
  induction e with
  | platform fact =>
    cases fact with
    | osname => exact pure _
    | ithreads => exact pure _
  | package name constraint features =>
    exact (find name constraint features).bind fun _ => pure _
  | probe kind args =>
    have hargs : FailsWithCause env settings (Evaluation.askArguments env settings kind args) :=
      mapM (fun arg => (ask (.probe kind arg)).bind fun _ => pure _) args
    exact hargs.bind fun _ => pure _
  | reference name => exact hfollow name (by simp)
  | tagged operand tag ih =>
    exact (ih fun name hn => hfollow name (by simpa using hn)).bind fun _ => pure _
  | compare op lhs rhs ihl ihr =>
    refine (ihl fun name hn => hfollow name (by simp [hn])).bind fun l => ?_
    refine (ihr fun name hn => hfollow name (by simp [hn])).bind fun r => ?_
    exact bind (liftExcept fun e asked h => Trace.arises_of_compareHolds h) fun _ => pure _
  | within operand set ih =>
    refine (ih fun name hn => hfollow name (by simpa using hn)).bind fun t => ?_
    exact bind (liftExcept fun e asked h => Trace.arises_of_testedVersion? h) fun _ => pure _
  | logical op lhs rhs ihl ihr =>
    refine (ihl fun name hn => hfollow name (by simp [hn])).bind fun l => ?_
    cases op.decided? l.truthy with
    | some truthy => exact pure _
    | none => exact (ihr fun name hn => hfollow name (by simp [hn])).bind fun _ => pure _
  | _ => exact pure _

/-- If the evaluation of a body fails for such causes only, so does following a reference to it. -/
theorem followBinding {follow : String → EvalM Trace} {b : Binding}
    (hbody : ∀ e, b.body = some e →
      FailsWithCause env settings (Evaluation.evalWith env settings follow e))
    (name : String) (result : Option Trace) :
    FailsWithCause env settings
      (Evaluation.followBinding env settings follow name b result) := by
  unfold Evaluation.followBinding
  cases result with
  | some body => exact pure _
  | none =>
    cases hb : b.body with
    | none => exact pure _
    | some e =>
      refine (hbody e hb).bind fun body => bind ?_ fun _ => pure _
      intro p e q h
      cases h

/-- References to names in order fail for such causes only, if they may go down to the end of the
order. -/
theorem followWithin {s : Selection} {order : List String} (hordered : s.Ordered order)
    {levels : Nat} (hlevels : order.length ≤ levels) {name : String} (hname : name ∈ order) :
    FailsWithCause env settings (Evaluation.followWithin env settings s levels name) := by
  refine hordered.follow_induction
    (P := fun levels name =>
      FailsWithCause env settings (Evaluation.followWithin env settings s levels name))
    (fun levels name b hfind hrefs => ?_) hlevels hname
  rw [Evaluation.followWithin, hfind]
  refine bind (fun p e q h => by cases h) fun p => ?_
  exact followBinding (fun e hbody => evalWith (hrefs e hbody)) name _

end FailsWithCause

/-! ### The number of levels -/

namespace Evaluation

variable {env : Environment} {settings : Settings}

/-- An evaluation depends on how the references of the expression are followed, and on no others. -/
theorem evalWith_congr {follow follow' : String → EvalM Trace} {e : Expr}
    (h : ∀ name ∈ e.references, follow name = follow' name) :
    evalWith env settings follow e = evalWith env settings follow' e := by
  let c : Coupling := .diagonal (fun _ => True) (fun _ => trivial) (fun _ => trivial)
    fun _ _ => trivial
  have hasks : c.Asks env env settings settings := fun q => ⟨rfl, trivial⟩
  exact (hasks.rel_evalWith rfl rfl fun name hn => ⟨h name hn, trivial⟩).1

/-- A reference goes on in the same way if the references of its body do. -/
theorem followBinding_congr {follow follow' : String → EvalM Trace} {b : Binding}
    (h : ∀ e, b.body = some e → evalWith env settings follow e = evalWith env settings follow' e)
    (name : String) :
    followBinding env settings follow name b = followBinding env settings follow' name b := by
  funext result
  unfold followBinding
  cases result with
  | some body => rfl
  | none =>
    cases he : b.body with
    | none => rfl
    | some e => simp only [h e he]

/-- References to names in order lead to the same in two selections of which the second binds what
the first binds, however much further than to the end of the order they may go down there. -/
theorem followWithin_eq_of_binds {s s' : Selection} {order : List String}
    (hordered : s.Ordered order) (hbinds : ∀ name b, s.find? name = some b → s'.find? name = some b)
    {levels levels' : Nat} (hlevels : order.length ≤ levels) (h : levels ≤ levels')
    {name : String} (hname : name ∈ order) :
    followWithin env settings s levels name = followWithin env settings s' levels' name := by
  refine hordered.follow_induction
    (P := fun levels name => ∀ levels', levels ≤ levels' →
      followWithin env settings s levels name = followWithin env settings s' levels' name)
    (fun levels name b hfind hrefs levels' h => ?_) hlevels hname levels' h
  obtain ⟨levels', rfl⟩ : ∃ l, levels' = l + 1 := ⟨levels' - 1, by omega⟩
  have hbody (e : Expr) (he : b.body = some e) :
      evalWith env settings (followWithin env settings s levels) e =
        evalWith env settings (followWithin env settings s' levels') e :=
    evalWith_congr fun n hn => hrefs e he n hn levels' (by omega)
  simp only [followWithin, hfind, hbinds name b hfind, followBinding_congr hbody]

/-- References to names in order lead to the same however much further than to the end of the order
they may go down. -/
theorem followWithin_eq {s : Selection} {order : List String} (hordered : s.Ordered order)
    {levels levels' : Nat} (hlevels : order.length ≤ levels) (h : levels ≤ levels')
    {name : String} (hname : name ∈ order) :
    followWithin env settings s levels name = followWithin env settings s levels' name :=
  followWithin_eq_of_binds hordered (fun _ _ hfind => hfind) hlevels h hname

end Evaluation

/-! ### Accepted programs -/

namespace Trace

/-- The trace of a tagged expression has the trace of the operand below it, which decides whether it
failed and whether it has a version. -/
theorem child_of_expr_eq_tagged {t : Trace} {e : Expr} {tag : String}
    (h : t.expr = .tagged e tag) :
    ∃ c, t.children = [c] ∧ t.failed = c.failed ∧ t.unversioned = c.unversioned := by
  cases t with
  | tagged operand tag => exact ⟨operand, rfl, rfl, rfl⟩
  | _ => cases h

/-- The trace of a reference has the trace of the body below it, or it is one to a choice without a
selected alternative, which counts as failed. -/
theorem child_of_expr_eq_reference {t : Trace} {name : String} (h : t.expr = .reference name) :
    (t.children = [] ∧ t.failed = true ∧ t.unversioned = false) ∨
      ∃ c, t.children = [c] ∧ t.failed = c.failed ∧ t.unversioned = c.unversioned := by
  cases t with
  | unselected name => exact .inl ⟨rfl, rfl, rfl⟩
  | reference name isChoice cached body => exact .inr ⟨body, rfl, rfl, rfl⟩
  | _ => cases h

end Trace

namespace Selection

/-- The expressions that an evaluation can come to: the master expression and what the options leave
of the definitions. -/
def expressions (s : Selection) : List Expr :=
  s.master :: s.bindings.filterMap Binding.body

/-- In an accepted program under accepted options, every reference leads to what the options leave
of a definition. -/
theorem exists_find?_of_mem_references {p : Program} {words : List String} {s : Selection}
    (hnamed : WellNamed p.definitions p.master) (hselect : p.select words = .ok s) {e : Expr}
    (he : e ∈ s.expressions) {name : String} (hname : name ∈ e.references) :
    ∃ d ∈ p.definitions, d.name = name ∧
      s.find? name = some (.ofDefinition (optionSet words) d) := by
  have hdefined : name ∈ p.definitions.map Definition.name := by
    rw [Program.select_eq hselect] at he
    rcases List.mem_cons.mp he with rfl | he
    · exact hnamed.master name hname
    · obtain ⟨b, hb, hbody⟩ := List.mem_filterMap.mp he
      obtain ⟨d, hd, rfl⟩ := List.mem_map.mp hb
      exact hnamed.bodies d hd name (Program.references_ofDefinition_subset hbody hname)
  obtain ⟨d, hd, rfl⟩ := List.mem_map.mp hdefined
  exact ⟨d, hd, rfl, Program.find?_select hnamed.nodup hselect hd⟩

/-- The evaluation of an accepted program under accepted options always comes to an end. Every
reference leads to a definition, every probe is a known one, and every operand that is looked at is
there. The references lead through no more definitions than there are: going down any further makes
no difference. What comes out is a trace, or an error for one of the causes outside the program. -/
theorem evaluate_ok_or_arises {source : String} {p : Program} {words : List String}
    {s : Selection} (hcompile : Program.compile source = .ok p) (hselect : p.select words = .ok s)
    (env : Environment) (settings : Settings) :
    (∀ e ∈ s.expressions, ∀ name ∈ e.references, ∃ d ∈ p.definitions, d.name = name ∧
      s.find? name = some (.ofDefinition (optionSet words) d)) ∧
    (∀ e ∈ s.expressions, ∀ kind args, .probe kind args ∈ e.nodes →
      Probe.ofName? kind.name = some kind) ∧
    (∀ (t : Trace) (e : Expr) (tag : String), t.expr = .tagged e tag →
      ∃ c, t.children = [c] ∧ t.failed = c.failed ∧ t.unversioned = c.unversioned) ∧
    (∀ (t : Trace) (name : String), t.expr = .reference name →
      (t.children = [] ∧ t.failed = true ∧ t.unversioned = false) ∨
        ∃ c, t.children = [c] ∧ t.failed = c.failed ∧ t.unversioned = c.unversioned) ∧
    (∀ levels, s.bindings.length ≤ levels →
      Evaluation.evalWith env settings (Evaluation.followWithin env settings s levels) s.master =
        Evaluation.eval env settings s s.master) ∧
    ((∃ t, (s.evaluate env settings).result = .ok t) ∨
      ∃ e, (s.evaluate env settings).result = .error e ∧
        e.Arises env settings (s.evaluate env settings).asked) := by
  obtain ⟨-, -, -, hnamed⟩ := Program.compile_ok_iff.mp hcompile
  obtain ⟨order, hordered, hmaster, hlength⟩ := Program.exists_ordered_select hnamed hselect
  refine ⟨fun e he name hname => exists_find?_of_mem_references hnamed hselect he hname,
    fun e _ kind args _ => by cases kind <;> rfl,
    fun t e tag h => Trace.child_of_expr_eq_tagged h,
    fun t name h => Trace.child_of_expr_eq_reference h, fun levels hlevels => ?_, ?_⟩
  · refine Evaluation.evalWith_congr fun name hname => ?_
    exact (Evaluation.followWithin_eq hordered hlength hlevels (hmaster hname)).symm
  · have hcause : FailsWithCause env settings (Evaluation.eval env settings s s.master) :=
      FailsWithCause.evalWith fun name hname =>
        FailsWithCause.followWithin hordered hlength (hmaster hname)
    rw [evaluate_eq]
    rcases hrun : (Evaluation.eval env settings s s.master).outcome {} with ⟨e | t, q⟩
    · refine .inr ⟨e, rfl, ?_⟩
      exact (hcause {} e q hrun).mono fun r hr => List.mem_reverse.mpr hr
    · exact .inl ⟨t, rfl⟩

end Selection

end Requirements
