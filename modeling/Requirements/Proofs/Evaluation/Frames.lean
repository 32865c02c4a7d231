import Mathlib.Algebra.Order.BigOperators.Group.List
import Mathlib.Data.Nat.Find
import Mathlib.Tactic.Ring
import Requirements.Environment.Registry
import Requirements.Proofs.Evaluation.BigStep
import Requirements.Proofs.Evaluation.Errors
import Requirements.Proofs.Evaluation.Stack

/-!
# How many frames an evaluation needs

On a stack that is large enough, an evaluation has the outcome that it has without one. On a smaller
one it is broken off: it has asked the first of the questions, and has no outcome. Which of the two
happens depends on the number of frames only, and there is one number from which on the frames
suffice. It is bounded by the size of the expressions and the number of definitions, as references
lead through each definition at most once; so a long chain of definitions needs a large stack.
-/

namespace Requirements

namespace Expr

/-- An expression has at least one part, itself. -/
lemma one_le_length_nodes (e : Expr) : 1 ≤ e.nodes.length :=
  List.length_pos_of_mem e.self_mem_nodes

/-- The parts of a connective are those of its operands and the connective itself. -/
lemma length_nodes_logical (op : LogicalOp) (lhs rhs : Expr) :
    (logical op lhs rhs).nodes.length = lhs.nodes.length + rhs.nodes.length + 1 := by
  rw [nodes_logical, List.length_cons, List.length_append]

/-- The parts of a comparison are those of its operands and the comparison itself. -/
lemma length_nodes_compare (op : CompareOp) (lhs rhs : Expr) :
    (compare op lhs rhs).nodes.length = lhs.nodes.length + rhs.nodes.length + 1 := by
  rw [nodes_compare, List.length_cons, List.length_append]

end Expr

/-! ### Operands are looked through -/

namespace Selection

variable {s : Selection}

/-- No body has more than `size` parts. -/
def BodiesWithin (s : Selection) (size : Nat) : Prop :=
  ∀ name b e, s.find? name = some b → b.body = some e → e.nodes.length ≤ size

/-- To look through the result that is kept of a name takes at most `size` frames for each name of
any order that the name is in. -/
def KeepsShallow (s : Selection) (size : Nat) (results : List (String × Trace)) : Prop :=
  ∀ name body, results.lookup name = some body → ∀ order, s.Ordered order → name ∈ order →
    body.operandFrames ≤ order.length * size

/-- To look through a trace takes at most a frame for each part of its expression, and `size` frames
for each name in the order of those that the expression refers to. -/
lemma Yields.operandFrames_le {size : Nat} (hsize : s.BodiesWithin size)
    {results results' : List (String × Trace)} {e : Expr} {t : Trace}
    (h : s.Yields results e t results') (hkept : s.KeepsShallow size results) :
    s.KeepsShallow size results' ∧ ∀ order, s.Ordered order → e.references ⊆ order →
      t.operandFrames ≤ e.nodes.length + order.length * size := by
  have hone (e : Expr) (n : Nat) : 1 ≤ e.nodes.length + n :=
    Nat.le_add_right_of_le e.one_le_length_nodes
  induction h with
  | @atom _ e t hatom heq =>
    refine ⟨hkept, fun order _ _ => ?_⟩
    have hframes : t.operandFrames = 1 := by
      cases t with
      | reference | tagged =>
        subst heq
        cases hatom
      | _ => rfl
    rw [hframes]
    exact hone e _
  | @reused _ name b body _ hlookup =>
    refine ⟨hkept, fun order hordered hrefs => ?_⟩
    have hbody := hkept name body hlookup order hordered (hrefs (by simp))
    have := Expr.one_le_length_nodes (.reference name)
    rw [Trace.operandFrames]
    omega
  | @unselected _ name =>
    exact ⟨hkept, fun order _ _ => hone _ _⟩
  | @fresh _ _ name b e body hfind _ hbody _ ih =>
    obtain ⟨hkept', hframes⟩ := ih hkept
    have hshallow (order : List String) (hordered : s.Ordered order) (hname : name ∈ order) :
        body.operandFrames ≤ order.length * size := by
      obtain ⟨rest, hrest, hlength, hrefs⟩ := hordered.exists_shorter hname hfind hbody
      calc
        body.operandFrames ≤ e.nodes.length + rest.length * size := hframes rest hrest hrefs
        _ ≤ size + rest.length * size := Nat.add_le_add_right (hsize name b e hfind hbody) _
        _ = (rest.length + 1) * size := by rw [Nat.add_one_mul, Nat.add_comm]
        _ ≤ order.length * size := Nat.mul_le_mul_right size hlength
    refine ⟨?_, fun order hordered hrefs => ?_⟩
    · intro name' body' hlookup order hordered hname
      exact forall_lookup_cons (P := fun n t => n ∈ order → t.operandFrames ≤ order.length * size)
        (hshallow order hordered) (fun n t hn => hkept' n t hn order hordered) name' body' hlookup
        hname
    · have := Expr.one_le_length_nodes (.reference name)
      have := hshallow order hordered (hrefs (by simp))
      rw [Trace.operandFrames]
      omega
  | @tagged _ _ operand _ tag _ ih =>
    obtain ⟨hkept', hframes⟩ := ih hkept
    refine ⟨hkept', fun order hordered hrefs => ?_⟩
    have := hframes order hordered fun name hn => hrefs (by simpa using hn)
    rw [Trace.operandFrames, Expr.nodes_tagged, List.length_cons]
    omega
  | within set _ _ ih =>
    exact ⟨(ih hkept).1, fun order _ _ => hone _ _⟩
  | shortCircuit rhs _ _ ih =>
    exact ⟨(ih hkept).1, fun order _ _ => hone _ _⟩
  | compare _ _ _ ihl ihr =>
    exact ⟨(ihr (ihl hkept).1).1, fun order _ _ => hone _ _⟩
  | logical _ _ _ ihl ihr =>
    exact ⟨(ihr (ihl hkept).1).1, fun order _ _ => hone _ _⟩

end Selection

/-! ### A stack that suffices -/

/-- On its stack, the first computation has the outcome that the second one has without a stack, if
they start from the progress `p`. -/
def AgreesAt {α : Type} (m : StackM α) (n : EvalM α) (p : Progress) : Prop :=
  m.outcome p = (some (n.outcome p).1, (n.outcome p).2)

namespace AgreesAt

variable {α β : Type}

/-- What needs no stack agrees with itself. -/
lemma lift (m : EvalM α) (p : Progress) : AgreesAt (liftM m) m p :=
  StackM.outcome_lift m p

/-- Agreement on both parts of a sequence. The second part is only reached if the first one
succeeds. -/
lemma bind {m : StackM α} {n : EvalM α} {f : α → StackM β} {g : α → EvalM β} {p : Progress}
    (h : AgreesAt m n p) (hfg : ∀ a q, n.outcome p = (.ok a, q) → AgreesAt (f a) (g a) q) :
    AgreesAt (m >>= f) (n >>= g) p := by
  unfold AgreesAt at h ⊢
  rw [StackM.outcome_bind, h, EvalM.outcome_bind]
  rcases hn : n.outcome p with ⟨e | a, q⟩
  · rfl
  · exact hfg a q hn

end AgreesAt

namespace Evaluation

variable {env : Environment} {settings : Settings} {s : Selection} {order : List String}

/-- Goes on with the references in the definitions of a program. -/
abbrev followAll (env : Environment) (settings : Settings) (s : Selection) :
    String → EvalM Trace :=
  followWithin env settings s s.bindings.length

/-- A reference to a name in order leads to its definition, whose references are followed in the
same way. -/
lemma followAll_eq (hordered : s.Ordered order) (hlength : order.length ≤ s.bindings.length)
    {name : String} (hname : name ∈ order) {b : Binding} (hfind : s.find? name = some b) :
    followAll env settings s name = (do
      followBinding env settings (followAll env settings s) name b
        ((← get).results.lookup name)) := by
  rw [followAll, followWithin_eq hordered hlength (Nat.le_succ _) hname, followWithin, hfind]

/-- On its stack, the evaluation of the expression has the outcome that it has without one, as long
as the results that are kept are shallow. -/
def Suffices (env : Environment) (settings : Settings) (s : Selection) (size : Nat)
    (m : StackM Trace) (e : Expr) : Prop :=
  ∀ p, s.KeepsShallow size p.results →
    AgreesAt m (evalWith env settings (followAll env settings s) e) p

variable {size : Nat} {eval : Expr → StackM Trace}

/-- What an evaluation records is shallow, and so are the results that are kept after it. -/
lemma shallow_of_outcome (hsize : s.BodiesWithin size) {e : Expr} {p q : Progress} {t : Trace}
    (h : (evalWith env settings (followAll env settings s) e).outcome p = (.ok t, q))
    (hkept : s.KeepsShallow size p.results) :
    s.KeepsShallow size q.results ∧ ∀ order, s.Ordered order → e.references ⊆ order →
      t.operandFrames ≤ e.nodes.length + order.length * size :=
  (Yielding.evalWith (Yielding.followWithin s.bindings.length) e p t q h).operandFrames_le hsize
    hkept

/-- A part without operands needs no more than the frames of its step. -/
lemma Suffices.atom {e : Expr} (he : e.isAtom = true) :
    Suffices env settings s size
      (liftM (evalWith env settings (fun name => throw (.unresolved name)) e)) e := by
  have hcongr : evalWith env settings (fun name => throw (.unresolved name)) e =
      evalWith env settings (followAll env settings s) e := by
    refine evalWith_congr fun name hname => ?_
    rw [Expr.references_of_isAtom he] at hname
    cases hname
  intro p _
  rw [hcongr]
  exact .lift _ p

/-- If the stack suffices for both operands, it suffices for the connective. -/
lemma Suffices.logical (hsize : s.BodiesWithin size) {op : LogicalOp} {lhs rhs : Expr}
    (hlhs : Suffices env settings s size (spineWith eval lhs) lhs)
    (hrhs : Suffices env settings s size (eval rhs) rhs) :
    Suffices env settings s size (spineWith eval (.logical op lhs rhs)) (.logical op lhs rhs) := by
  intro p hkept
  refine (hlhs p hkept).bind fun left q hleft => ?_
  cases op.decided? left.truthy with
  | some truthy => exact .lift (pure _) q
  | none =>
    exact (hrhs q (shallow_of_outcome hsize hleft hkept).1).bind fun right r _ => .lift (pure _) r

/-- If the stack suffices for the operands of a chain of connectives, it suffices for the chain. -/
lemma Suffices.spine (hsize : s.BodiesWithin size) {e : Expr}
    (heval : ∀ x, x.nodes.length ≤ e.nodes.length → x.references ⊆ e.references →
      Suffices env settings s size (eval x) x) :
    Suffices env settings s size (spineWith eval e) e := by
  induction e with
  | logical op lhs rhs ihl _ =>
    have hlength (x : Expr) (hx : x.nodes.length ≤ lhs.nodes.length ∨
        x.nodes.length ≤ rhs.nodes.length) :
        x.nodes.length ≤ (Expr.logical op lhs rhs).nodes.length := by
      rw [Expr.length_nodes_logical]
      omega
    refine .logical hsize (ihl fun x hx hrefs => ?_) ?_
    · exact heval x (hlength x (.inl hx)) fun name hn => by simp [hrefs hn]
    · exact heval rhs (hlength rhs (.inr le_rfl)) fun name hn => by simp [hn]
  | _ => exact heval _ le_rfl (List.Subset.refl _)

/-- If the stack suffices for both sides and for looking through what is found of them, it suffices
for the comparison. -/
lemma Suffices.compare (hsize : s.BodiesWithin size) (hordered : s.Ordered order) {op : CompareOp}
    {lhs rhs : Expr} (hrefs : (Expr.compare op lhs rhs).references ⊆ order) {frames : Nat}
    (hframes : (Expr.compare op lhs rhs).nodes.length + order.length * size ≤ frames)
    (hlhs : Suffices env settings s size (eval lhs) lhs)
    (hrhs : Suffices env settings s size (eval rhs) rhs) :
    Suffices env settings s size (stepWith env settings s eval frames (.compare op lhs rhs))
      (.compare op lhs rhs) := by
  rw [Expr.length_nodes_compare] at hframes
  intro p hkept
  refine (hlhs p hkept).bind fun left q hleft => ?_
  obtain ⟨hkept', hleftFrames⟩ := shallow_of_outcome hsize hleft hkept
  refine (hrhs q hkept').bind fun right r hright => ?_
  have hfit : Trace.FitOn frames left right := by
    have hl := hleftFrames order hordered fun name hn => hrefs (by simp [hn])
    have hr := (shallow_of_outcome hsize hright hkept').2 order hordered
      fun name hn => hrefs (by simp [hn])
    exact ⟨by omega, .inr (by omega)⟩
  rw [if_pos hfit]
  exact AgreesAt.bind (.lift (liftM (left.compareHolds op right)) r) fun _ r' _ =>
    .lift (pure _) r'

/-- If the stack suffices for the operand and for looking through what is found of it, it suffices
for the set test. -/
lemma Suffices.within (hsize : s.BodiesWithin size) (hordered : s.Ordered order) {operand : Expr}
    {set : Version.RangeSet} (hrefs : (Expr.within operand set).references ⊆ order) {frames : Nat}
    (hframes : (Expr.within operand set).nodes.length + order.length * size ≤ frames)
    (h : Suffices env settings s size (eval operand) operand) :
    Suffices env settings s size (stepWith env settings s eval frames (.within operand set))
      (.within operand set) := by
  rw [Expr.nodes_within, List.length_cons] at hframes
  intro p hkept
  refine (h p hkept).bind fun inner q hinner => ?_
  have hinnerFrames := (shallow_of_outcome hsize hinner hkept).2 order hordered
    fun name hn => hrefs (by simpa using hn)
  rw [if_pos (by omega)]
  exact AgreesAt.bind (.lift (liftM inner.testedVersion?) q) fun _ r _ => .lift (pure _) r

/-- If the stack suffices for the body that a reference leads to, it suffices for the reference. -/
lemma Suffices.reference (hordered : s.Ordered order) (hlength : order.length ≤ s.bindings.length)
    {name : String} (hname : name ∈ order) {b : Binding} (hfind : s.find? name = some b)
    (hbody : ∀ e, b.body = some e → Suffices env settings s size (eval e) e) :
    Suffices env settings s size (do enterBinding eval name b ((← get).results.lookup name))
      (.reference name) := by
  intro p hkept
  unfold AgreesAt
  rw [evalWith, followAll_eq hordered hlength hname hfind]
  refine AgreesAt.bind (.lift get p) fun p' q hget => ?_
  cases hget
  cases p.results.lookup name with
  | some body => exact .lift (pure _) p
  | none =>
    simp only [enterBinding, followBinding]
    cases he : b.body with
    | none => exact .lift (pure _) p
    | some e =>
      refine (hbody e he p hkept).bind fun body q _ => ?_
      exact AgreesAt.bind (.lift (modify _) q) fun _ r _ => .lift (pure _) r

/-- Three frames for each part of the expression and for each part of the bodies that its references
can lead through suffice: two are taken by the evaluation, and one by looking through operands. -/
lemma suffices_evalOn (env : Environment) (settings : Settings) (hsize : s.BodiesWithin size)
    {frames : Nat} {e : Expr} {order : List String} (hordered : s.Ordered order)
    (hlength : order.length ≤ s.bindings.length) (hrefs : e.references ⊆ order)
    (hframes : 3 * (e.nodes.length + order.length * size) ≤ frames) :
    Suffices env settings s size (evalOn env settings s frames e) e := by
  induction frames using Nat.strongRecOn generalizing e order with
  | ind frames ih =>
  have hpositive := e.one_le_length_nodes
  by_cases hstep : e.takesStep = true
  · obtain ⟨frames, rfl⟩ : ∃ f, frames = f + 2 := ⟨frames - 2, by omega⟩
    rw [evalOn_add_two hstep]
    -- An operand has a part less than the expression, which leaves the two frames of the step.
    have hoperand {x : Expr} (hx : x.nodes.length < e.nodes.length)
        (hsub : x.references ⊆ e.references) :
        Suffices env settings s size (evalOn env settings s frames x) x :=
      ih frames (by omega) hordered hlength (List.Subset.trans hsub hrefs) (by omega)
    cases e with
    | logical op lhs rhs =>
      have hlength := Expr.length_nodes_logical op lhs rhs
      have hlhs : lhs.nodes.length < (Expr.logical op lhs rhs).nodes.length := by omega
      have hrhs : rhs.nodes.length < (Expr.logical op lhs rhs).nodes.length := by omega
      refine .logical hsize (.spine hsize fun x hx hsub => ?_) ?_
      · exact hoperand (hx.trans_lt hlhs) fun name hn => by simp [hsub hn]
      · exact hoperand hrhs fun name hn => by simp [hn]
    | compare op lhs rhs =>
      have hlength := Expr.length_nodes_compare op lhs rhs
      refine .compare hsize hordered hrefs (by omega) (hoperand (by omega) ?_)
        (hoperand (by omega) ?_)
      · exact fun name hn => by simp [hn]
      · exact fun name hn => by simp [hn]
    | within operand set =>
      have hlength : (Expr.within operand set).nodes.length = operand.nodes.length + 1 := by
        rw [Expr.nodes_within, List.length_cons]
      exact .within hsize hordered hrefs (by omega)
        (hoperand (by omega) fun name hn => by simpa using hn)
    | reference name =>
      have hname : name ∈ order := hrefs (by simp)
      obtain ⟨b, hfind⟩ := hordered.exists_find? hname
      simp only [stepWith, hfind]
      refine .reference hordered hlength hname hfind fun body hbody => ?_
      obtain ⟨rest, hrest, hshorter, hsub⟩ := hordered.exists_shorter hname hfind hbody
      refine ih frames (by omega) hrest (by omega) hsub ?_
      have hbodySize := hsize name b body hfind hbody
      have hless : (rest.length + 1) * size ≤ order.length * size :=
        Nat.mul_le_mul_right size hshorter
      rw [Nat.add_one_mul] at hless
      omega
    | bool | text | version | tagged => cases hstep
    | platform | package | probe => exact .atom rfl
  · obtain ⟨frames, rfl⟩ : ∃ f, frames = f + 1 := ⟨frames - 1, by omega⟩
    cases e with
    | tagged operand tag =>
      rw [Expr.nodes_tagged, List.length_cons] at hframes
      intro p hkept
      refine AgreesAt.bind (ih frames (by omega) hordered hlength
        (fun name hn => hrefs (by simpa using hn)) (by omega) p hkept) fun inner q _ => ?_
      exact .lift (pure _) q
    | bool | text | version => exact fun p _ => .lift (pure _) p
    | _ => exact absurd rfl hstep

end Evaluation

/-! ### The frames that are needed -/

namespace Selection

open Evaluation

variable {env : Environment} {settings : Settings} {s : Selection}

/-- The outcome of an evaluation on a stack, as that of its computation. -/
lemma evaluateOn_eq (frames : Nat) :
    s.evaluateOn frames env settings =
      ⟨((evalOn env settings s frames s.master).outcome {}).2.asked.reverse,
        ((evalOn env settings s frames s.master).outcome {}).1⟩ := by
  unfold evaluateOn StackM.outcome EvalM.outcome
  rcases (evalOn env settings s frames s.master).run.run.run {} with ⟨_ | _ | t, q⟩ <;> rfl

/-- A larger stack leads to the same outcome, unless the smaller one is exhausted before. -/
lemma evaluateOn_eq_or_exhausted (s : Selection) (env : Environment) (settings : Settings)
    {frames frames' : Nat} (h : frames ≤ frames') :
    s.evaluateOn frames env settings = s.evaluateOn frames' env settings ∨
      (s.evaluateOn frames env settings).result = none ∧
      (s.evaluateOn frames env settings).asked <+: (s.evaluateOn frames' env settings).asked := by
  rw [evaluateOn_eq, evaluateOn_eq]
  rcases (evalOn_curtails h s.master {}).2 with heq | ⟨hnone, hasked⟩
  · rw [heq]
    exact .inl rfl
  · exact .inr ⟨hnone, List.reverse_prefix.mpr hasked⟩

/-- Three frames for each part of the largest expression, once for the master expression and once
for each definition, suffice. -/
lemma evaluateOn_eq_onStack (env : Environment) (settings : Settings) {order : List String}
    (hordered : s.Ordered order)
    (hmaster : s.master.references ⊆ order) (hlength : order.length ≤ s.bindings.length)
    {size : Nat} (hsize : ∀ e ∈ s.expressions, e.nodes.length ≤ size) {frames : Nat}
    (hframes : 3 * size * (s.bindings.length + 1) ≤ frames) :
    s.evaluateOn frames env settings = (s.evaluate env settings).onStack := by
  have hbodies : s.BodiesWithin size := fun name b e hfind hbody =>
    hsize e (List.mem_cons_of_mem _
      (List.mem_filterMap.mpr ⟨b, List.mem_of_find?_eq_some hfind, hbody⟩))
  have henough : 3 * (s.master.nodes.length + order.length * size) ≤ frames :=
    calc
      3 * (s.master.nodes.length + order.length * size) ≤
          3 * (size + s.bindings.length * size) :=
        Nat.mul_le_mul_left 3 (Nat.add_le_add (hsize s.master List.mem_cons_self)
          (Nat.mul_le_mul_right size hlength))
      _ = 3 * size * (s.bindings.length + 1) := by ring
      _ ≤ frames := hframes
  have hsuffices := suffices_evalOn env settings hbodies hordered hlength
    hmaster henough {} (fun name body h => by cases h)
  rw [evaluateOn_eq, hsuffices, evaluate_eq]
  rfl

/-- The evaluation of an accepted program under accepted options comes to an end on every stack.
Every reference leads to a definition, every probe is a known one, and every operand that is looked
at is there. The references lead through no more definitions than there are: going down any further
makes no difference. On a stack that holds the frames that are needed, what comes out is a trace, or
an error for one of the causes outside the program; on a smaller one the evaluation is broken off
after the first of the questions that it asks. Three frames for each part of the largest expression
are enough, once for the master expression and once for each definition. -/
theorem exists_framesNeeded {source : String} {p : Program} {words : List String}
    {s : Selection} (hcompile : Program.compile source = .ok p) (hselect : p.select words = .ok s)
    (env : Environment) (settings : Settings) :
    (∀ e ∈ s.expressions, ∀ name ∈ e.references, ∃ d ∈ p.definitions, d.name = name ∧
      s.find? name = some (.ofDefinition (optionSet words) d)) ∧
    (∀ e ∈ s.expressions, ∀ kind args, .probe kind args ∈ e.nodes →
      Probe.ofName? kind.name = some kind) ∧
    (∀ (t : Trace) (e : Expr) (tag : String), t.expr = .tagged e tag →
      ∃ c, t.children = [c] ∧ t.failed = c.failed ∧ t.unversioned = c.unversioned) ∧
    (∀ (t : Trace) (name : String), t.expr = .reference name →
      (t.children = [] ∧ t.failed = true ∧ t.unversioned = false) ∨
        ∃ c, t.children = [c] ∧ t.failed = c.failed ∧ t.unversioned = c.unversioned) ∧
    (∀ levels, s.bindings.length ≤ levels →
      evalWith env settings (followWithin env settings s levels) s.master =
        eval env settings s s.master) ∧
    ((∃ t, (s.evaluate env settings).result = .ok t) ∨
      ∃ e, (s.evaluate env settings).result = .error e ∧
        e.Arises env settings (s.evaluate env settings).asked) ∧
    ∃ needed,
      (∀ size, (∀ e ∈ s.expressions, e.nodes.length ≤ size) →
        needed ≤ 3 * size * (s.bindings.length + 1)) ∧
      ∀ frames,
        (needed ≤ frames →
          s.evaluateOn frames env settings = (s.evaluate env settings).onStack) ∧
        (frames < needed → (s.evaluateOn frames env settings).result = none ∧
          (s.evaluateOn frames env settings).asked <+: (s.evaluate env settings).asked) := by
  obtain ⟨hbound, hprobes, htagged, hreferences, hlevels, houtcome⟩ :=
    evaluate_ok_or_arises hcompile hselect env settings
  refine ⟨hbound, hprobes, htagged, hreferences, hlevels, houtcome, ?_⟩
  obtain ⟨-, -, -, hnamed⟩ := Program.compile_ok_iff.mp hcompile
  obtain ⟨order, hordered, hmaster, hlength⟩ := Program.exists_ordered_select hnamed hselect
  have henough {size : Nat} (hsize : ∀ e ∈ s.expressions, e.nodes.length ≤ size) {frames : Nat}
      (h : 3 * size * (s.bindings.length + 1) ≤ frames) :=
    evaluateOn_eq_onStack env settings hordered hmaster hlength hsize h
  have hsuffices : ∃ frames,
      s.evaluateOn frames env settings = (s.evaluate env settings).onStack :=
    ⟨_, henough (fun e he => List.le_sum_of_mem
      (List.mem_map.mpr ⟨e, he, rfl⟩)) le_rfl⟩
  classical
  refine ⟨Nat.find hsuffices, fun size hsize => Nat.find_le (henough hsize le_rfl),
    fun frames => ⟨fun hle => ?_, fun hlt => ?_⟩⟩
  · -- What the least stack suffices for, a larger one suffices for.
    rcases evaluateOn_eq_or_exhausted s env settings hle with
      heq | ⟨hnone, -⟩
    · rw [← heq]
      exact Nat.find_spec hsuffices
    · rw [Nat.find_spec hsuffices] at hnone
      cases hnone
  · rcases evaluateOn_eq_or_exhausted s env settings hlt.le with
      heq | ⟨hnone, hasked⟩
    · exact absurd (heq.trans (Nat.find_spec hsuffices)) (Nat.find_min hsuffices hlt)
    · rw [Nat.find_spec hsuffices] at hasked
      exact ⟨hnone, hasked⟩

/-- A choice leads to a definition, and that to a module about which the environment gives no
answer: with frames enough for the way down, the evaluation ends with the refusal. -/
theorem evaluateOn_eq_error_of_refusal :
    let body : Expr := .package "Foo" none []
    let p : Program := ⟨[⟨.plain, "m", body, 1⟩, ⟨.choice, "c", .tagged (.reference "m") "x", 2⟩],
      .reference "c"⟩
    let s : Selection := ⟨["x"], [⟨.plain, "m", some body⟩,
      ⟨.choice, "c", some (.tagged (.reference "m") "x")⟩], p.master⟩
    let env := ({} : SystemDescription).environmentWith fun _ => some .timedOut
    Program.compile "define m = Foo;\nchoice c = \x7bm\x7d as :x;\n\x7bc\x7d" = .ok p ∧
      p.select ["x"] = .ok s ∧
      ∃ needed, needed ≤ 18 ∧
        ∀ frames, (s.evaluateOn frames env {}).result =
          if needed ≤ frames then some (.error (.timedOut (.lookup "Foo") none)) else none := by
  intro body p s env
  have hcompile :
      Program.compile "define m = Foo;\nchoice c = \x7bm\x7d as :x;\n\x7bc\x7d" = .ok p := by
    decide +kernel
  have hselect : p.select ["x"] = .ok s := by decide +kernel
  obtain ⟨-, -, -, -, -, -, needed, hneeded, hframes⟩ :=
    exists_framesNeeded hcompile hselect env {}
  refine ⟨hcompile, hselect, needed, hneeded 2 (by decide), fun frames => ?_⟩
  split
  · rename_i hle
    rw [(hframes frames).1 hle]
    rfl
  · rename_i hlt
    exact ((hframes frames).2 (Nat.lt_of_not_le hlt)).1

end Selection

end Requirements
