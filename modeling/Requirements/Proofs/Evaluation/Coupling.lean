import Mathlib.Tactic.Lemma
import Requirements.Proofs.Evaluation.Outcome
import Requirements.Proofs.Expr.Nodes

/-!
# Coupled evaluations

Many properties of the evaluation compare two runs of one program: with and without kept answers, in
each of two environments, for the first and for the second time. Each of them fixes a relation
between computations, and the evaluation of an expression only ever builds its computation from
returning, failing and sequencing. A *coupling* is a relation between computations that respects
these three; whatever couples the questions and the references then couples the evaluation of every
expression.
-/

namespace Requirements

/-- A relation between computations with values of the same type that respects returning, failing
and sequencing. -/
structure Coupling where
  rel : ∀ {α : Type}, EvalM α → EvalM α → Prop
  rel_pure : ∀ {α : Type} (a : α), rel (pure a) (pure a)
  rel_throw : ∀ {α : Type} (e : EvalError), rel (throw e : EvalM α) (throw e)
  rel_bind : ∀ {α β : Type} {m n : EvalM α} {f g : α → EvalM β}, rel m n →
    (∀ a, rel (f a) (g a)) → rel (m >>= f) (n >>= g)

namespace Coupling

variable (c : Coupling) {α β : Type}

/-- What may fail without asking anything corresponds to itself. -/
theorem rel_liftExcept (r : Except EvalError α) :
    c.rel (liftM r : EvalM α) (liftM r : EvalM α) := by
  cases r with
  | ok a => exact c.rel_pure a
  | error e => exact c.rel_throw e

/-- Corresponding steps for every member of a list make corresponding loops. -/
theorem rel_mapM {f g : α → EvalM β} (h : ∀ a, c.rel (f a) (g a)) (l : List α) :
    c.rel (l.mapM f) (l.mapM g) := by
  induction l with
  | nil => simpa using c.rel_pure []
  | cons a l ih =>
    rw [List.mapM_cons, List.mapM_cons]
    exact c.rel_bind (h a) fun b => c.rel_bind ih fun bs => c.rel_pure (b :: bs)

/-- A property that returning and failing have and that sequencing keeps, as a coupling of a
computation with itself. -/
def diagonal (P : ∀ {α : Type}, EvalM α → Prop) (hpure : ∀ {α : Type} (a : α), P (pure a))
    (hthrow : ∀ {α : Type} (e : EvalError), P (throw e : EvalM α))
    (hbind : ∀ {α β : Type} {m : EvalM α} {f : α → EvalM β}, P m → (∀ a, P (f a)) → P (m >>= f)) :
    Coupling where
  rel m n := m = n ∧ P m
  rel_pure a := ⟨rfl, hpure a⟩
  rel_throw e := ⟨rfl, hthrow e⟩
  rel_bind h hfg := ⟨by rw [h.1, funext fun a => (hfg a).1], hbind h.2 fun a => (hfg a).2⟩

variable {c} {env env' : Environment} {settings settings' : Settings}

/-- Every question that is put to the two environments corresponds to itself. -/
def Asks (c : Coupling) (env env' : Environment) (settings settings' : Settings) : Prop :=
  ∀ q, c.rel (Evaluation.ask env settings q) (Evaluation.ask env' settings' q)

/-- The features of a module are asked in the order written, on both sides. -/
lemma Asks.rel_askFeatures (h : c.Asks env env' settings settings') (name : String)
    (features : List String) :
    c.rel (Evaluation.askFeatures env settings name features)
      (Evaluation.askFeatures env' settings' name features) :=
  c.rel_mapM (fun feature => c.rel_bind (h (.feature name feature)) fun _ => c.rel_pure _) features

/-- The arguments of a probe are asked in the order written, on both sides. -/
lemma Asks.rel_askArguments (h : c.Asks env env' settings settings') (kind : Probe)
    (args : List String) :
    c.rel (Evaluation.askArguments env settings kind args)
      (Evaluation.askArguments env' settings' kind args) :=
  c.rel_mapM (fun arg => c.rel_bind (h (.probe kind arg)) fun _ => c.rel_pure _) args

/-- Looking at an installed module asks for the same features on both sides, if the two conditions
accept the same versions. -/
theorem Asks.rel_examine (h : c.Asks env env' settings settings') (name : String)
    {constraint constraint' : Option Constraint}
    (haccepts : constraint'.map Constraint.accepts = constraint.map Constraint.accepts)
    (features : List String) (record : ModuleRecord) :
    c.rel (Evaluation.examine env settings name constraint features record)
      (Evaluation.examine env' settings' name constraint' features record) := by
  refine c.rel_bind (c.rel_liftExcept _) fun version => ?_
  have haccepted : constraint'.map (fun k => version.any k.accepts) =
      constraint.map fun k => version.any k.accepts := by
    have := congrArg (Option.map fun accepts : Version → Bool => version.any accepts) haccepts
    simpa [Function.comp_def] using this
  rw [haccepted]
  refine c.rel_bind ?_ fun found => c.rel_pure _
  split
  · exact h.rel_askFeatures name features
  · exact c.rel_pure []

/-- Looking for a module finds the same on both sides, if the two conditions on its version accept
the same versions. -/
theorem Asks.rel_find (h : c.Asks env env' settings settings') (name : String)
    {constraint constraint' : Option Constraint}
    (haccepts : constraint'.map Constraint.accepts = constraint.map Constraint.accepts)
    (features : List String) :
    c.rel (Evaluation.find env settings name constraint features)
      (Evaluation.find env' settings' name constraint' features) := by
  refine c.rel_bind (h (.lookup name)) fun answer => ?_
  cases answer with
  | none => exact c.rel_pure none
  | some record =>
    exact c.rel_bind (h.rel_examine name haccepts features record) fun f => c.rel_pure (some f)

/-- Two environments on the same platform whose answers correspond, and corresponding ways to
follow the references of an expression, give corresponding evaluations. -/
theorem Asks.rel_evalWith (h : c.Asks env env' settings settings') (hos : env'.osname = env.osname)
    (hithreads : env'.ithreads = env.ithreads) {follow follow' : String → EvalM Trace} {e : Expr}
    (hfollow : ∀ name ∈ e.references, c.rel (follow name) (follow' name)) :
    c.rel (Evaluation.evalWith env settings follow e)
      (Evaluation.evalWith env' settings' follow' e) := by
  induction e with
  | bool b => exact c.rel_pure (Trace.bool b)
  | text s => exact c.rel_pure (Trace.text s)
  | version v => exact c.rel_pure (Trace.version v)
  | platform fact =>
    cases fact with
    | osname => simpa [Evaluation.evalWith, hos] using c.rel_pure (Trace.osname env.osname)
    | ithreads =>
      simpa [Evaluation.evalWith, hithreads] using c.rel_pure (Trace.ithreads env.ithreads)
  | package name constraint features =>
    exact c.rel_bind (h.rel_find name rfl features) fun _ => c.rel_pure _
  | probe kind args =>
    exact c.rel_bind (h.rel_askArguments kind args) fun _ => c.rel_pure _
  | reference name => exact hfollow name (by simp)
  | tagged operand tag ih =>
    exact c.rel_bind (ih fun name hn => hfollow name (by simpa using hn)) fun _ => c.rel_pure _
  | compare op lhs rhs ihl ihr =>
    refine c.rel_bind (ihl fun name hn => hfollow name (by simp [hn])) fun l => ?_
    refine c.rel_bind (ihr fun name hn => hfollow name (by simp [hn])) fun r => ?_
    exact c.rel_bind (c.rel_liftExcept _) fun _ => c.rel_pure _
  | within operand set ih =>
    refine c.rel_bind (ih fun name hn => hfollow name (by simpa using hn)) fun t => ?_
    exact c.rel_bind (c.rel_liftExcept _) fun _ => c.rel_pure _
  | logical op lhs rhs ihl ihr =>
    refine c.rel_bind (ihl fun name hn => hfollow name (by simp [hn])) fun l => ?_
    cases op.decided? l.truthy with
    | some truthy => exact c.rel_pure _
    | none =>
      exact c.rel_bind (ihr fun name hn => hfollow name (by simp [hn])) fun _ => c.rel_pure _

/-- A part without operands is evaluated in corresponding ways, as no reference is followed. -/
theorem Asks.rel_evalWith_of_isAtom (h : c.Asks env env' settings settings')
    (hos : env'.osname = env.osname) (hithreads : env'.ithreads = env.ithreads)
    (follow follow' : String → EvalM Trace) {e : Expr} (he : e.isAtom = true) :
    c.rel (Evaluation.evalWith env settings follow e)
      (Evaluation.evalWith env' settings' follow' e) := by
  refine h.rel_evalWith hos hithreads fun name hname => ?_
  rw [Expr.references_of_isAtom he] at hname
  cases hname

/-- Both sides look up the same result of a definition evaluated before. -/
def LooksUp (c : Coupling) : Prop :=
  ∀ (name : String) {f g : Option Trace → EvalM Trace}, (∀ r, c.rel (f r) (g r)) →
    c.rel (do f ((← get).results.lookup name)) (do g ((← get).results.lookup name))

/-- Both sides keep the result of a definition. -/
def Keeps (c : Coupling) : Prop :=
  ∀ result : String × Trace, c.rel (modify fun p => { p with results := result :: p.results })
    (modify fun p => { p with results := result :: p.results })

/-- A binding that is followed on both sides stays related when the bodies do. -/
lemma Asks.rel_followBinding (h : c.Asks env env' settings settings')
    (hos : env'.osname = env.osname) (hithreads : env'.ithreads = env.ithreads) (hkeep : c.Keeps)
    {follow follow' : String → EvalM Trace} (hfollow : ∀ name, c.rel (follow name) (follow' name))
    (name : String) (binding : Binding) (result : Option Trace) :
    c.rel (Evaluation.followBinding env settings follow name binding result)
      (Evaluation.followBinding env' settings' follow' name binding result) := by
  unfold Evaluation.followBinding
  cases result with
  | some body => exact c.rel_pure _
  | none =>
    cases binding.body with
    | none => exact c.rel_pure _
    | some e =>
      refine c.rel_bind (h.rel_evalWith hos hithreads fun name _ => hfollow name) fun t => ?_
      exact c.rel_bind (hkeep (name, t)) fun _ => c.rel_pure _

/-- Following a reference corresponds to itself, if the results of definitions do. -/
theorem Asks.rel_followWithin (h : c.Asks env env' settings settings')
    (hos : env'.osname = env.osname) (hithreads : env'.ithreads = env.ithreads)
    (hlookup : c.LooksUp) (hkeep : c.Keeps) (s : Selection) (levels : Nat) (name : String) :
    c.rel (Evaluation.followWithin env settings s levels name)
      (Evaluation.followWithin env' settings' s levels name) := by
  induction levels generalizing name with
  | zero => exact c.rel_throw _
  | succ levels ih =>
    rw [Evaluation.followWithin, Evaluation.followWithin]
    cases s.find? name with
    | none => exact c.rel_throw _
    | some binding =>
      refine hlookup name fun result => ?_
      exact h.rel_followBinding hos hithreads hkeep (fun name => ih name) name binding result

/-- The evaluation of an expression of a program corresponds to itself, if the questions and the
results of definitions do. -/
theorem Asks.rel_eval (h : c.Asks env env' settings settings') (hos : env'.osname = env.osname)
    (hithreads : env'.ithreads = env.ithreads) (hlookup : c.LooksUp) (hkeep : c.Keeps)
    (s : Selection) (e : Expr) :
    c.rel (Evaluation.eval env settings s e) (Evaluation.eval env' settings' s e) :=
  h.rel_evalWith hos hithreads fun name _ =>
    h.rel_followWithin hos hithreads hlookup hkeep s s.bindings.length name

end Coupling

end Requirements
