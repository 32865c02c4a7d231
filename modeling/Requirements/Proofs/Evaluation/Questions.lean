import Mathlib.Tactic.Lemma
import Requirements.Environment.Registry
import Requirements.Proofs.Evaluation.FirstReferences

/-!
# The questions that a trace shows

A trace tells which questions were asked: a module was looked for and, if the trace records answers
on its features, each feature was asked for; a probe was asked about each of its arguments. Nothing
else asks anything. Without kept answers, the questions read off in this way from the parts that the
outline lists are the questions that were asked, in the same order.

It is shown by what each computation asks beyond what was asked before it. The computations of the
operands of a part follow each other as the operands do in the trace.
-/

namespace Requirements

/-! ### Questions read off a trace -/

namespace Trace

/-- The questions that a part of a program asks itself. Features are asked for only where there are
answers on them. -/
def questions : Trace → List Query
  | package name _ features finding =>
    .lookup name ::
      if finding.any (!·.features.isEmpty) then features.map (.feature name) else []
  | probe kind args _ => args.map (.probe kind)
  | _ => []

/-- The questions of the parts that the outline of a trace lists, in the order of the visit. -/
def shownQuestions (t : Trace) : List Query :=
  t.listed.flatMap questions

/-- A trace shows its own questions and then, unless it is a reused reference, those of its
operands. -/
theorem shownQuestions_eq (t : Trace) :
    t.shownQuestions =
      t.questions ++ if t.isReused then [] else t.children.flatMap shownQuestions := by
  rw [shownQuestions, listed_eq, List.flatMap_cons]
  cases t.isReused with
  | true => rfl
  | false =>
    rw [if_neg Bool.false_ne_true, List.flatMap_assoc]
    rfl

variable {t : Trace}

/-- A part without operands shows its own questions only. -/
theorem shownQuestions_leaf (h : t.children = []) : t.shownQuestions = t.questions := by
  rw [shownQuestions_eq, h]
  simp

/-- A part that asks nothing itself shows the questions of its operands. -/
theorem shownQuestions_node (hown : t.questions = []) (hnew : t.isReused = false) :
    t.shownQuestions = t.children.flatMap shownQuestions := by
  rw [shownQuestions_eq, hown, hnew]
  rfl

/-- A reused reference shows no question. -/
theorem shownQuestions_reused (name : String) (isChoice : Bool) (body : Trace) :
    (reference name isChoice true body).shownQuestions = [] :=
  shownQuestions_eq _

end Trace

/-! ### Questions asked by computations -/

/-- Whenever the computation succeeds, it has asked further questions, in order, and `P` is true of
these and of its value. -/
def Asking {α : Type} (P : List Query → α → Prop) (m : EvalM α) : Prop :=
  ∀ p a q, m.outcome p = (.ok a, q) → ∃ asked, q.asked = asked.reverse ++ p.asked ∧ P asked a

namespace Asking

variable {α β : Type} {P : List Query → α → Prop} {Q : List Query → β → Prop}
  {env : Environment} {settings : Settings} {s : Selection}

/-- A value given at once asks no question. -/
lemma pure {a : α} (h : P [] a) : Asking P (pure a) := by
  intro p b q hrun
  cases hrun
  exact ⟨[], rfl, h⟩

/-- An error raised at once has no success to speak of. -/
lemma throw (e : EvalError) : Asking P (throw e : EvalM α) := by
  intro p a q hrun
  cases hrun

/-- What may fail without asking anything asks nothing. -/
theorem liftExcept (r : Except EvalError α) :
    Asking (fun asked _ => asked = []) (liftM r : EvalM α) := by
  intro p a q hrun
  rw [EvalM.outcome_liftExcept] at hrun
  obtain ⟨-, rfl⟩ := Prod.mk.inj hrun
  exact ⟨[], rfl, rfl⟩

/-- The questions of the second of two computations come behind those of the first. -/
theorem bind {m : EvalM α} {f : α → EvalM β} (hm : Asking P m)
    (hf : ∀ a, Asking (fun later b => ∀ earlier, P earlier a → Q (earlier ++ later) b) (f a)) :
    Asking Q (m >>= f) := by
  intro p b q hrun
  obtain ⟨a, r, hrun, hrun'⟩ := EvalM.outcome_bind_ok_iff.mp hrun
  obtain ⟨earlier, hearlier, ha⟩ := hm p a r hrun
  obtain ⟨later, hlater, hb⟩ := hf a r b q hrun'
  refine ⟨earlier ++ later, ?_, hb earlier ha⟩
  rw [hlater, hearlier, List.reverse_append, List.append_assoc]

/-- A loop whose step asks one question asks one for every member, in order. -/
theorem mapM {f : α → EvalM β} {question : α → Query}
    (hf : ∀ a, Asking (fun asked _ => asked = [question a]) (f a)) (l : List α) :
    Asking (fun asked bs => asked = l.map question ∧ bs.length = l.length) (l.mapM f) := by
  induction l with
  | nil => exact pure ⟨rfl, rfl⟩
  | cons a l ih =>
    rw [List.mapM_cons]
    refine bind (hf a) fun b => bind ih fun bs => pure ?_
    rintro _ ⟨rfl, hlength⟩ _ rfl
    exact ⟨by simp, by simp [hlength]⟩

/-- A question is asked once if answers are not kept. -/
theorem ask (hanew : settings.memoize = false) (q : Query) :
    Asking (fun asked _ => asked = [q]) (Evaluation.ask env settings q) := by
  intro p a r hrun
  rw [Evaluation.ask_of_not_memoize hanew] at hrun
  cases hanswer : env.answer q with
  | ok x =>
    rw [Evaluation.outcome_askAnew_of_ok hanswer] at hrun
    obtain ⟨-, rfl⟩ := Prod.mk.inj hrun
    exact ⟨[q], rfl, rfl⟩
  | error refusal =>
    rw [Evaluation.outcome_askAnew_of_error hanswer] at hrun
    cases hrun

/-- Every feature of a list is asked for, also one that stands there repeatedly. -/
theorem askFeatures (hanew : settings.memoize = false) (name : String) (features : List String) :
    Asking (fun asked found => asked = features.map (.feature name) ∧
        found.length = features.length)
      (Evaluation.askFeatures env settings name features) := by
  refine mapM (fun feature => bind (ask hanew _) fun b => pure ?_) features
  rintro _ rfl
  rfl

/-- A probe is asked about every argument. -/
theorem askArguments (hanew : settings.memoize = false) (kind : Probe) (args : List String) :
    Asking (fun asked found => asked = args.map (.probe kind) ∧ found.length = args.length)
      (Evaluation.askArguments env settings kind args) := by
  refine mapM (fun arg => bind (ask hanew _) fun b => pure ?_) args
  rintro _ rfl
  rfl

/-- Of an installed module, the features are asked for that there are answers on. -/
theorem examine (hanew : settings.memoize = false) (name : String)
    (constraint : Option Constraint) (features : List String) (record : ModuleRecord) :
    Asking
      (fun asked f => asked = if f.features.isEmpty then [] else features.map (.feature name))
      (Evaluation.examine env settings name constraint features record) := by
  refine bind (liftExcept _) fun version => ?_
  let accepted := constraint.map fun c => version.any c.accepts
  have hfound : Asking
      (fun asked found => asked = if found.isEmpty then [] else features.map (.feature name))
      (if accepted.all id then Evaluation.askFeatures env settings name features
        else Pure.pure []) := by
    split
    · intro p found q hrun
      obtain ⟨asked, hasked, rfl, hlength⟩ := askFeatures hanew name features p found q hrun
      refine ⟨_, hasked, ?_⟩
      -- Where there are no answers there were no features, so that nothing was asked.
      cases found with
      | nil =>
        obtain rfl := List.length_eq_zero_iff.mp hlength.symm
        rfl
      | cons x found => rfl
    · exact pure rfl
  refine bind hfound fun found => pure ?_
  rintro asked hasked _ rfl
  simpa using hasked

/-- Looking for a module asks the questions that its trace shows. -/
theorem find (hanew : settings.memoize = false) (name : String) (constraint : Option Constraint)
    (features : List String) :
    Asking
      (fun asked finding => asked = (Trace.package name constraint features finding).questions)
      (Evaluation.find env settings name constraint features) := by
  refine bind (ask hanew (.lookup name)) fun answer => ?_
  cases answer with
  | none =>
    refine pure ?_
    rintro _ rfl
    rfl
  | some record =>
    refine bind (examine hanew name constraint features record) fun f => pure ?_
    rintro _ rfl _ rfl
    cases hnone : f.features.isEmpty with
    | true => simp [Trace.questions, hnone]
    | false => simp [Trace.questions, hnone]

/-- The computation asks the questions that its trace shows. -/
def Shown (m : EvalM Trace) : Prop :=
  Asking (fun asked t => asked = t.shownQuestions) m

/-- If the references of an expression are followed with the questions shown, the expression is
evaluated so. -/
theorem evalWith (hanew : settings.memoize = false) {follow : String → EvalM Trace}
    (hfollow : ∀ name, Shown (follow name)) (e : Expr) :
    Shown (Evaluation.evalWith env settings follow e) := by
  induction e with
  | bool | text | version => exact pure rfl
  | platform fact =>
    cases fact with
    | osname | ithreads => exact pure rfl
  | package name constraint features =>
    refine bind (find hanew name constraint features) fun finding => pure ?_
    rintro _ rfl
    rw [List.append_nil, Trace.shownQuestions_leaf rfl]
  | probe kind args =>
    refine bind (askArguments hanew kind args) fun found => pure ?_
    rintro _ ⟨rfl, -⟩
    rw [List.append_nil, Trace.shownQuestions_leaf rfl, Trace.questions]
  | reference name => exact hfollow name
  | tagged operand tag ih =>
    refine bind ih fun inner => pure ?_
    rintro _ rfl
    rw [Trace.shownQuestions_node (t := .tagged inner tag) rfl rfl]
    simp [Trace.children]
  | compare op lhs rhs ihl ihr =>
    refine bind ihl fun left => bind ihr fun right => bind (liftExcept _) fun truthy => pure ?_
    rintro _ rfl _ rfl _ rfl
    rw [Trace.shownQuestions_node (t := .compare op left right truthy) rfl rfl]
    simp [Trace.children]
  | within operand set ih =>
    refine bind ih fun inner => bind (liftExcept _) fun tested => pure ?_
    rintro _ rfl _ rfl
    rw [Trace.shownQuestions_node (t := .within inner set tested _) rfl rfl]
    simp [Trace.children]
  | logical op lhs rhs ihl ihr =>
    refine bind ihl fun left => ?_
    split
    · rename_i truthy _
      refine pure ?_
      rintro _ rfl
      rw [Trace.shownQuestions_node (t := .shortCircuit op left rhs truthy) rfl rfl]
      simp [Trace.children]
    · refine bind ihr fun right => pure ?_
      rintro _ rfl _ rfl
      rw [Trace.shownQuestions_node (t := .logical op left right _) rfl rfl]
      simp [Trace.children]

/-- If the references of the body of a definition are followed with the questions shown, those to
the definition are. A reused result costs no question. -/
theorem followBinding (hanew : settings.memoize = false) {follow : String → EvalM Trace}
    (hfollow : ∀ name, Shown (follow name)) (name : String) (b : Binding) : Shown (do
      Evaluation.followBinding env settings follow name b ((← get).results.lookup name)) := by
  intro p t q hrun
  rw [EvalM.outcome_bind_of_ok (EvalM.outcome_get p)] at hrun
  cases hlookup : p.results.lookup name with
  | some body =>
    rw [hlookup] at hrun
    cases hrun
    exact ⟨[], rfl, (Trace.shownQuestions_reused name b.isChoice body).symm⟩
  | none =>
    rw [hlookup] at hrun
    simp only [Evaluation.followBinding] at hrun
    cases hbody : b.body with
    | none =>
      rw [hbody] at hrun
      cases hrun
      exact ⟨[], rfl, rfl⟩
    | some e =>
      rw [hbody] at hrun
      obtain ⟨body, r, hbodyrun, hrun⟩ := EvalM.outcome_bind_ok_iff.mp hrun
      rw [EvalM.outcome_bind_of_ok (EvalM.outcome_modify _ _)] at hrun
      cases hrun
      obtain ⟨asked, hasked, rfl⟩ := evalWith hanew hfollow e p body r hbodyrun
      have hnode : (Trace.reference name b.isChoice false body).shownQuestions =
          [body].flatMap Trace.shownQuestions := Trace.shownQuestions_node rfl rfl
      exact ⟨_, hasked, by simp [hnode]⟩

/-- Following a reference to any depth asks the questions that its trace shows. -/
lemma followWithin (hanew : settings.memoize = false) (levels : Nat) (name : String) :
    Shown (Evaluation.followWithin env settings s levels name) := by
  induction levels generalizing name with
  | zero => exact throw _
  | succ levels ih =>
    rw [Evaluation.followWithin]
    split
    · exact throw _
    · exact followBinding hanew ih name _

end Asking

namespace Selection

/-- Without kept answers, the questions of a successful evaluation are those that its trace shows,
in the order of the visit. -/
theorem asked_eq_questions_of_outline {s : Selection} {env : Environment} {settings : Settings}
    {t : Trace} (hanew : settings.memoize = false)
    (h : (s.evaluate env settings).result = .ok t) :
    (s.evaluate env settings).asked = (t.outline.map Prod.snd).flatMap Trace.questions := by
  have hrun : Asking.Shown (Evaluation.eval env settings s s.master) :=
    Asking.evalWith hanew (Asking.followWithin hanew s.bindings.length) s.master
  obtain ⟨asked, hasked, rfl⟩ := hrun {} t _ (Prod.ext h rfl)
  rw [evaluate_eq]
  simp only [hasked, List.append_nil, List.reverse_reverse]
  rfl

/-- A feature that stands twice in a list is asked for twice, the features of a module in the wrong
version are not asked for, and a probe is asked about each argument. The second reference to `m`
costs no question. -/
theorem asked_eq_questions_of_repetitions :
    let source :=
      "define m = Foo#(a && b && a); \x7bm\x7d && (Bar#(x) >= 2 || HAS_LIB('z', 'z')) && \x7bm\x7d"
    let foo : Expr := .package "Foo" none ["a", "b", "a"]
    let bar : Expr := .package "Bar" (some (.compare .ge ⟨[.number 2], "2"⟩)) ["x"]
    let master := .logical .and (.logical .and (.reference "m")
      (.logical .or bar (.probe .library ["z", "z"]))) (.reference "m")
    let p : Program := ⟨[⟨.plain, "m", foo, 1⟩], master⟩
    let s : Selection := ⟨[], [⟨.plain, "m", some foo⟩], master⟩
    let system : SystemDescription :=
      { registry := ⟨[⟨"Foo", none, ["a", "b"]⟩, ⟨"Bar", some "1", ["x"]⟩]⟩
        inventory := { libraries := ["z"] } }
    let anew : Settings := { memoize := false }
    Program.compile source = .ok p ∧ p.select [] = .ok s ∧ anew.memoize = false ∧
      ∃ t, (s.evaluate system.environment anew).result = .ok t ∧
        (s.evaluate system.environment anew).asked =
          (t.outline.map Prod.snd).flatMap Trace.questions ∧
        (t.outline.map Prod.snd).flatMap Trace.questions =
          [.lookup "Foo", .feature "Foo" "a", .feature "Foo" "b", .feature "Foo" "a",
            .lookup "Bar", .probe .library "z", .probe .library "z"] := by
  intro source foo bar master p s system anew
  refine ⟨by decide +kernel, by decide +kernel, rfl, _, rfl, ?_, rfl⟩
  exact asked_eq_questions_of_outline rfl rfl

end Selection

end Requirements
