import Mathlib.Tactic.Lemma
import Requirements.Environment.Registry
import Requirements.Proofs.Evaluation.Findings
import Requirements.Proofs.Program.Positive
import Requirements.Proofs.Report.Addresses

/-!
# Installing more

A positive program that holds on a system goes on to hold when more is installed on it. The two
evaluations may visit different parts, as short circuits pass over different operands, and a test
may well fail on account of a module that was absent before. But the operands of a test that holds
are all there: they keep their values, and so the test goes on to hold. And `&&` and `||` are
monotone.
-/

namespace Requirements

/-! ### Environments with more -/

/-- On the same platform, the second environment has all that the first has: a module that is
installed keeps its record and its features, and what a probe finds is still found. Only answers
that both environments give are compared. -/
structure Environment.Installs (env env' : Environment) : Prop where
  osname : env'.osname = env.osname
  ithreads : env'.ithreads = env.ithreads
  lookup : ∀ name record found, env.answer (.lookup name) = .ok (some record) →
    env'.answer (.lookup name) = .ok found → found = some record
  feature : ∀ name feature b, env.answer (.feature name feature) = .ok true →
    env'.answer (.feature name feature) = .ok b → b = true
  probe : ∀ kind name b, env.answer (.probe kind name) = .ok true →
    env'.answer (.probe kind name) = .ok b → b = true

/-- A described system has all that another one has if every module of the other is there with the
same record and at least the same features, and so are all files and programs. -/
theorem SystemDescription.installs_environment {d d' : SystemDescription}
    (hos : d'.osname = d.osname) (hithreads : d'.ithreads = d.ithreads)
    (hmodules : ∀ name m, d.registry.get? name = some m → ∃ m', d'.registry.get? name = some m' ∧
      m'.record = m.record ∧ m.features ⊆ m'.features)
    (hfiles : ∀ kind, d.inventory.names kind ⊆ d'.inventory.names kind) :
    d.environment.Installs d'.environment where
  osname := hos
  ithreads := hithreads
  lookup name record found h h' := by
    obtain rfl := Except.ok.inj h'
    obtain ⟨m, hm, rfl⟩ := Option.map_eq_some_iff.mp (Except.ok.inj h)
    obtain ⟨m', hm', hrecord, -⟩ := hmodules name m hm
    exact Option.map_eq_some_iff.mpr ⟨m', hm', hrecord⟩
  feature name feature b h h' := by
    obtain rfl := Except.ok.inj h'
    obtain ⟨m, hm, hfeature⟩ := (Option.any_eq_true _ _).mp (Except.ok.inj h)
    obtain ⟨m', hm', -, hfeatures⟩ := hmodules name m hm
    refine (Option.any_eq_true _ _).mpr ⟨m', hm', ?_⟩
    exact List.contains_iff_mem.mpr (hfeatures (List.contains_iff_mem.mp hfeature))
  probe kind name b h h' := by
    obtain rfl := Except.ok.inj h'
    have hname : (d.inventory.names kind).contains name = true := Except.ok.inj h
    exact List.contains_iff_mem.mpr (hfiles kind (List.contains_iff_mem.mp hname))

/-- If all names are found and what is told of a name that is found stays true, all are found
again. -/
theorem ListsTold.all_of_all {told told' : String → Bool → Prop} {names : List String}
    {found found' : List (String × Bool)} (h : ListsTold told names found)
    (h' : ListsTold told' names found')
    (hstays : ∀ name b, told name true → told' name b → b = true)
    (hall : found.all Prod.snd = true) : found'.all Prod.snd = true := by
  rw [List.all_eq_true] at hall ⊢
  intro x hx
  obtain ⟨hname, htold'⟩ := h'.told_of_mem hx
  obtain ⟨b, hmem, htold⟩ := h.exists_mem hname
  obtain rfl : b = true := hall _ hmem
  exact hstays x.1 x.2 htold htold'

section

variable {env env' : Environment} {asked asked' : List Query} {s : Selection} {t t' : Trace}

/-- A module that is as required has the same version and is as required when more is installed. -/
theorem Environment.Installs.value_package (hinstalls : env.Installs env') {name : String}
    {constraint : Option Constraint} {features : List String} {finding finding' : Option Finding}
    (h : (Trace.package name constraint features finding).TrueOf env asked)
    (h' : (Trace.package name constraint features finding').TrueOf env' asked')
    (htruthy : (Trace.package name constraint features finding).truthy = true) :
    (Trace.package name constraint features finding').value =
      (Trace.package name constraint features finding).value := by
  cases finding with
  | none => cases htruthy
  | some f =>
    obtain ⟨record, hrecord, hf⟩ := h
    cases finding' with
    | none => cases hinstalls.lookup name record none hrecord.answer_eq h'.answer_eq
    | some f' =>
      obtain ⟨record', hrecord', hf'⟩ := h'
      obtain rfl := Option.some.inj
        (hinstalls.lookup name record _ hrecord.answer_eq hrecord'.answer_eq)
      have hversion : f'.version = f.version :=
        Except.ok.inj (hf'.version.symm.trans hf.version)
      have haccepted : f'.accepted = f.accepted := by
        rw [hf'.accepted, hf.accepted, hversion]
      obtain ⟨haccepts, hfound⟩ : f.accepted.all id = true ∧ f.features.all Prod.snd = true := by
        simpa [Trace.truthy, Trace.value, Finding.truthy] using htruthy
      have hfeatures' := hf'.features
      rw [haccepted] at hfeatures'
      have hfound' : f'.features.all Prod.snd = true :=
        hf.features.all_of_all hfeatures' (fun feature b htold htold' =>
          hinstalls.feature name feature b htold.answer_eq htold'.answer_eq) hfound
      simp [Trace.value, Finding.truthy, hversion, haccepted, haccepts, hfound, hfound']

/-- A probe that has found all goes on to find all. -/
theorem Environment.Installs.truthy_probe (hinstalls : env.Installs env') {kind : Probe}
    {args : List String} {found found' : List (String × Bool)}
    (h : (Trace.probe kind args found).TrueOf env asked)
    (h' : (Trace.probe kind args found').TrueOf env' asked')
    (htruthy : (Trace.probe kind args found).truthy = true) :
    (Trace.probe kind args found').truthy = true :=
  ListsTold.all_of_all h h' (fun arg b htold htold' =>
    hinstalls.probe kind arg b htold.answer_eq htold'.answer_eq) htruthy

/-! ### Traces of one expression -/

namespace Selection

/-- All parts of the trace are of visits to parts of the program, and true of the environment. -/
structure Finds (s : Selection) (env : Environment) (asked : List Query) (t : Trace) : Prop where
  visits : ∀ n ∈ t.nodes, s.Visits n
  true_of : t.AllTrueOf env asked

namespace Finds

/-- The root of a trace is found. -/
lemma self (h : s.Finds env asked t) : s.Visits t ∧ t.TrueOf env asked :=
  ⟨(Trace.forall_mem_nodes_iff.mp h.visits).1, (Trace.allTrueOf_iff.mp h.true_of).1⟩

/-- What is found is found in every child. -/
lemma child (h : s.Finds env asked t) {c : Trace} (hc : c ∈ t.children) : s.Finds env asked c :=
  ⟨(Trace.forall_mem_nodes_iff.mp h.visits).2 c hc, (Trace.allTrueOf_iff.mp h.true_of).2 c hc⟩

end Finds

/-- A successful evaluation finds every part of its trace. -/
lemma finds_of_evaluate {settings : Settings} (h : (s.evaluate env settings).result = .ok t) :
    s.Finds env (s.evaluate env settings).asked t :=
  ⟨visits_of_evaluate h, allTrueOf_of_evaluate h⟩

end Selection

namespace Selection.Visits

variable {name : String} {isChoice cached truthy : Bool} {body l r : Trace}

/-- The body of a visited reference is that of the definition. -/
lemma body_eq (h : s.Visits (.reference name isChoice cached body)) :
    s.body? name = some body.expr := by
  obtain ⟨b, hfind, hbody⟩ := h.exists_binding
  rw [body?, hfind, Option.bind_some, hbody]

/-- A visited choice without a body has no alternative selected. -/
lemma body_eq_none (h : s.Visits (.unselected name)) : s.body? name = none := by
  obtain ⟨b, hfind, hbody⟩ := h.exists_binding_of_unselected
  rw [body?, hfind, Option.bind_some, hbody]

/-- The truth value of a visited comparison is that of its operands compared. -/
lemma compareHolds {op : CompareOp} (h : s.Visits (.compare op l r truthy)) :
    l.compareHolds op r = .ok truthy := by
  obtain ⟨-, results, results', -, hyields⟩ := h
  cases hyields with
  | atom hatom => cases hatom
  | compare _ _ htruthy => exact htruthy

/-- The truth value of a visited set test is that of the version it tests. -/
lemma testedVersion? {set : Version.RangeSet} {tested : Option Version}
    (h : s.Visits (.within l set tested truthy)) :
    l.testedVersion? = .ok tested ∧ truthy = tested.any set.accepts := by
  obtain ⟨-, results, results', -, hyields⟩ := h
  cases hyields with
  | atom hatom => cases hatom
  | within _ _ htested => exact ⟨htested, rfl⟩

end Selection.Visits

/-! ### Operands -/

/-- A module spoils a test unless it is as required and declares a version. -/
theorem Trace.spoils_package (name : String) (constraint : Option Constraint)
    (features : List String) (finding : Option Finding) :
    (package name constraint features finding).spoils =
      !((package name constraint features finding).value.truthy &&
        (package name constraint features finding).value.version.isSome) := by
  cases finding with
  | none => rfl
  | some f =>
    cases htruthy : f.truthy <;>
      simp [spoils, failed, unversioned, truthy, value, htruthy]

/-- A simple operand that does not spoil its test has the same value when more is installed, and
does not spoil the test then. -/
theorem Selection.Finds.value_of_simple (hinstalls : env.Installs env')
    (h : s.Finds env asked t) (h' : s.Finds env' asked' t') (hexpr : t'.expr = t.expr)
    (hsimple : t.expr.Simple s.body?) (hspoils : t.spoils = false) :
    t'.value = t.value ∧ t'.spoils = false := by
  induction t generalizing t' with
  | bool | text | version =>
    cases t' <;> cases hexpr
    exact ⟨rfl, rfl⟩
  | osname =>
    cases t' with
    | osname =>
      obtain rfl := h.self.2
      obtain rfl := h'.self.2
      exact ⟨by rw [hinstalls.osname], rfl⟩
    | _ => cases hexpr
  | ithreads =>
    cases t' with
    | ithreads =>
      obtain rfl := h.self.2
      obtain rfl := h'.self.2
      exact ⟨by rw [hinstalls.ithreads], rfl⟩
    | _ => cases hexpr
  | package name constraint features finding =>
    cases t' with
    | package name' constraint' features' finding' =>
      cases hexpr
      rw [Trace.spoils_package, Bool.not_eq_false'] at hspoils
      have htruthy := (Bool.and_eq_true_iff.mp hspoils).1
      have hvalue := hinstalls.value_package h.self.2 h'.self.2 htruthy
      rw [Trace.spoils_package, hvalue, hspoils]
      exact ⟨rfl, rfl⟩
    | _ => cases hexpr
  | unselected name => cases hspoils
  | reference name isChoice cached body ih =>
    -- Which of the two references is the first one to the definition makes no difference.
    have hbody := h.self.1.body_eq
    cases t' with
    | unselected name' =>
      cases hexpr
      cases hbody.symm.trans h'.self.1.body_eq_none
    | reference name' isChoice' cached' body' =>
      cases hexpr
      have heq : body'.expr = body.expr :=
        Option.some.inj (h'.self.1.body_eq.symm.trans hbody)
      have hkept : body'.value = body.value ∧ body'.spoils = false :=
        ih (h.child List.mem_cons_self) (h'.child List.mem_cons_self) heq
          (fun e he => hsimple e (.reference hbody he)) hspoils
      exact hkept
    | _ => cases hexpr
  | tagged operand tag ih =>
    cases t' with
    | tagged operand' tag' =>
      obtain ⟨heq, rfl⟩ := Expr.tagged.inj hexpr
      have hkept : operand'.value = operand.value ∧ operand'.spoils = false :=
        ih (h.child List.mem_cons_self) (h'.child List.mem_cons_self) heq
          (fun e he => hsimple e (.tagged _ he)) hspoils
      exact hkept
    | _ => cases hexpr
  | probe | compare | within | shortCircuit | logical => cases hsimple _ (.refl _)

/-! ### Connectives -/

/-- `&&` and `||` are monotone. -/
theorem LogicalOp.apply_mono {op : LogicalOp} (hop : op ≠ .xor) {a b a' b' : Bool}
    (ha : a = true → a' = true) (hb : b = true → b' = true) (h : op.apply a b = true) :
    op.apply a' b' = true := by
  cases op with
  | and =>
    obtain ⟨rfl, rfl⟩ : a = true ∧ b = true := by simpa [apply] using h
    simp [apply, ha rfl, hb rfl]
  | or =>
    rcases (by simpa [apply] using h : a = true ∨ b = true) with rfl | rfl
    · simp [apply, ha rfl]
    · simp [apply, hb rfl]
  | xor => exact absurd rfl hop

/-- A connective has the value that its operands give, where any value may be put for a right
operand that was passed over. -/
theorem Selection.Visits.exists_operands {op : LogicalOp} {lhs rhs : Expr} (h : s.Visits t)
    (hexpr : t.expr = .logical op lhs rhs) (fallback : Bool) :
    ∃ l ∈ t.children, l.expr = lhs ∧ ∃ b, t.truthy = op.apply l.truthy b ∧
      (b = fallback ∨ ∃ r ∈ t.children, r.expr = rhs ∧ b = r.truthy) := by
  obtain ⟨-, results, results', -, hyields⟩ := h
  rw [hexpr] at hyields
  cases hyields with
  | atom hatom => cases hatom
  | @shortCircuit _ _ _ _ l _ _ hl hdecided =>
    refine ⟨l, List.mem_cons_self, hl.expr_eq, fallback, ?_, .inl rfl⟩
    exact (LogicalOp.apply_of_decided? hdecided).symm
  | @logical _ _ _ _ _ _ l r hl _ hr =>
    exact ⟨l, List.mem_cons_self, hl.expr_eq, r.truthy, rfl,
      .inr ⟨r, List.mem_cons_of_mem l List.mem_cons_self, hr.expr_eq, rfl⟩⟩

/-! ### Tests -/

namespace Trace

/-- A comparison holds only if neither operand spoils it. -/
theorem spoils_of_compareHolds {op : CompareOp} {l r : Trace}
    (h : l.compareHolds op r = .ok true) : l.spoils = false ∧ r.spoils = false := by
  unfold compareHolds at h
  split at h
  · cases h
  · rename_i hspoils
    simpa using hspoils

/-- The operands count in a comparison with their values, and as far as they spoil it. -/
theorem compareHolds_congr (op : CompareOp) {l l' r r' : Trace} (hl : l'.value = l.value)
    (hr : r'.value = r.value) (hlspoils : l'.spoils = l.spoils) (hrspoils : r'.spoils = r.spoils) :
    l'.compareHolds op r' = l.compareHolds op r := by
  rw [compareHolds, compareHolds, hl, hr, hlspoils, hrspoils]

/-- A set test finds a version only if its operand does not spoil it. -/
theorem spoils_of_testedVersion? {v : Version} (h : t.testedVersion? = .ok (some v)) :
    t.spoils = false := by
  unfold testedVersion? at h
  split at h
  · cases h
  · rename_i hspoils
    simpa using hspoils

/-- The operand counts in a set test with its value, and as far as it spoils the test. -/
theorem testedVersion?_congr (hvalue : t'.value = t.value) (hspoils : t'.spoils = t.spoils) :
    t'.testedVersion? = t.testedVersion? := by
  rw [testedVersion?, testedVersion?, hvalue, hspoils]

end Trace

/-! ### Positive programs -/

namespace Selection.Finds

/-- A comparison of simple operands that holds goes on to hold when more is installed. -/
theorem truthy_of_compare (hinstalls : env.Installs env') {op : CompareOp} {l l' r r' : Trace}
    {truthy' : Bool}
    (hsimple : ∀ x ∈ (Trace.compare op l r true).expr.testOperands, x.Simple s.body?)
    (h : s.Finds env asked (.compare op l r true))
    (h' : s.Finds env' asked' (.compare op l' r' truthy')) (hlexpr : l'.expr = l.expr)
    (hrexpr : r'.expr = r.expr) : truthy' = true := by
  have hholds := h.self.1.compareHolds
  obtain ⟨hl, hr⟩ := Trace.spoils_of_compareHolds hholds
  obtain ⟨hlvalue, hlspoils⟩ := value_of_simple hinstalls (h.child List.mem_cons_self)
    (h'.child List.mem_cons_self) hlexpr (hsimple _ List.mem_cons_self) hl
  obtain ⟨hrvalue, hrspoils⟩ := value_of_simple hinstalls
    (h.child (List.mem_cons_of_mem l List.mem_cons_self))
    (h'.child (List.mem_cons_of_mem l' List.mem_cons_self)) hrexpr
    (hsimple _ (List.mem_cons_of_mem _ List.mem_cons_self)) hr
  have hsame := Trace.compareHolds_congr op hlvalue hrvalue (hlspoils.trans hl.symm)
    (hrspoils.trans hr.symm)
  exact Except.ok.inj (h'.self.1.compareHolds.symm.trans (hsame.trans hholds))

/-- A set test of a simple operand that holds goes on to hold when more is installed. -/
theorem truthy_of_within (hinstalls : env.Installs env') {operand operand' : Trace}
    {set : Version.RangeSet} {tested tested' : Option Version} {truthy' : Bool}
    (hsimple : ∀ x ∈ (Trace.within operand set tested true).expr.testOperands, x.Simple s.body?)
    (h : s.Finds env asked (.within operand set tested true))
    (h' : s.Finds env' asked' (.within operand' set tested' truthy'))
    (hexpr : operand'.expr = operand.expr) : truthy' = true := by
  obtain ⟨htested, haccepts⟩ := h.self.1.testedVersion?
  obtain ⟨htested', haccepts'⟩ := h'.self.1.testedVersion?
  obtain ⟨v, rfl⟩ : ∃ v, tested = some v := by
    cases tested with
    | none => cases haccepts
    | some v => exact ⟨v, rfl⟩
  have hspoils := Trace.spoils_of_testedVersion? htested
  obtain ⟨hvalue, hspoils'⟩ := value_of_simple hinstalls (h.child List.mem_cons_self)
    (h'.child List.mem_cons_self) hexpr (hsimple _ List.mem_cons_self) hspoils
  have hsame := Trace.testedVersion?_congr hvalue (hspoils'.trans hspoils.symm)
  obtain rfl := Except.ok.inj (htested'.symm.trans (hsame.trans htested))
  exact haccepts'.trans haccepts.symm

/-- A connective other than `^^` that holds goes on to hold when more is installed, if its operands
do. -/
theorem truthy_of_operands {op : LogicalOp} {lhs rhs : Expr} (hop : op ≠ .xor)
    (h : s.Finds env asked t) (h' : s.Finds env' asked' t') (hexpr : t.expr = .logical op lhs rhs)
    (hexpr' : t'.expr = .logical op lhs rhs)
    (ih : ∀ c ∈ t.children, ∀ c' ∈ t'.children, c'.expr = c.expr → c.truthy = true →
      c'.truthy = true)
    (htruthy : t.truthy = true) : t'.truthy = true := by
  -- What was passed over counts as false in the first evaluation and as true in the second.
  obtain ⟨l, hl, rfl, b, hvalue, hb⟩ := h.self.1.exists_operands hexpr false
  obtain ⟨l', hl', hlexpr, b', hvalue', hb'⟩ := h'.self.1.exists_operands hexpr' true
  rw [hvalue] at htruthy
  rw [hvalue']
  refine LogicalOp.apply_mono hop (ih l hl l' hl' hlexpr) (fun hright => ?_) htruthy
  rcases hb' with rfl | ⟨r', hr', hrexpr', rfl⟩
  · rfl
  · rcases hb with rfl | ⟨r, hr, hrexpr, rfl⟩
    · cases hright
    · exact ih r hr r' hr' (hrexpr'.trans hrexpr.symm) hright

/-- What holds in a positive program goes on to hold when more is installed. -/
theorem truthy_mono (hinstalls : env.Installs env') (hpositive : s.Positive)
    (h : s.Finds env asked t) (h' : s.Finds env' asked' t') (hexpr : t'.expr = t.expr)
    (htruthy : t.truthy = true) : t'.truthy = true := by
  -- The two traces are of one expression, but a short circuit may have passed over other operands:
  -- the induction hypothesis is for any two operands of the same expression.
  induction t using Trace.childInduction generalizing t' with
  | h t ih =>
    have hpart : t.expr ∈ s.parts := h.self.1.parts (Expr.self_mem_nodes t.expr)
    have hchildren : ∀ c ∈ t.children, ∀ c' ∈ t'.children, c'.expr = c.expr → c.truthy = true →
        c'.truthy = true :=
      fun c hc c' hc' hc'expr => ih c hc (h.child hc) (h'.child hc') hc'expr
    cases t with
    | bool | text | version =>
      cases t' <;> cases hexpr
      exact htruthy
    | osname =>
      cases t' with
      | osname =>
        obtain rfl := h.self.2
        obtain rfl := h'.self.2
        rwa [hinstalls.osname]
      | _ => cases hexpr
    | ithreads =>
      cases t' with
      | ithreads =>
        obtain rfl := h.self.2
        obtain rfl := h'.self.2
        rwa [hinstalls.ithreads]
      | _ => cases hexpr
    | package name constraint features finding =>
      cases t' with
      | package name' constraint' features' finding' =>
        cases hexpr
        have hvalue := hinstalls.value_package h.self.2 h'.self.2 htruthy
        rw [Trace.truthy, hvalue]
        exact htruthy
      | _ => cases hexpr
    | probe kind args found =>
      cases t' with
      | probe kind' args' found' =>
        cases hexpr
        exact hinstalls.truthy_probe h.self.2 h'.self.2 htruthy
      | _ => cases hexpr
    | unselected name => cases htruthy
    | reference name isChoice cached body =>
      have hbody := h.self.1.body_eq
      cases t' with
      | unselected name' =>
        cases hexpr
        cases hbody.symm.trans h'.self.1.body_eq_none
      | reference name' isChoice' cached' body' =>
        cases hexpr
        have heq : body'.expr = body.expr :=
          Option.some.inj (h'.self.1.body_eq.symm.trans hbody)
        exact hchildren body List.mem_cons_self body' List.mem_cons_self heq htruthy
      | _ => cases hexpr
    | tagged operand tag =>
      cases t' with
      | tagged operand' tag' =>
        obtain ⟨heq, rfl⟩ := Expr.tagged.inj hexpr
        exact hchildren operand List.mem_cons_self operand' List.mem_cons_self heq htruthy
      | _ => cases hexpr
    | compare op lhs rhs truthy =>
      obtain rfl : truthy = true := htruthy
      cases t' with
      | compare op' lhs' rhs' truthy' =>
        obtain ⟨rfl, hl, hr⟩ := Expr.compare.inj hexpr
        exact truthy_of_compare hinstalls (hpositive.simple _ hpart) h h' hl hr
      | _ => cases hexpr
    | within operand set tested truthy =>
      obtain rfl : truthy = true := htruthy
      cases t' with
      | within operand' set' tested' truthy' =>
        obtain ⟨hoperand, rfl⟩ := Expr.within.inj hexpr
        exact truthy_of_within hinstalls (hpositive.simple _ hpart) h h' hoperand
      | _ => cases hexpr
    | shortCircuit op lhs skipped truthy =>
      have hop : op ≠ .xor := fun heq => hpositive.noXor _ hpart (congrArg some heq)
      exact truthy_of_operands hop h h' rfl hexpr hchildren htruthy
    | logical op lhs rhs truthy =>
      have hop : op ≠ .xor := fun heq => hpositive.noXor _ hpart (congrArg some heq)
      exact truthy_of_operands hop h h' rfl hexpr hchildren htruthy

end Selection.Finds

end

namespace Selection

/-- What the options leave of a positive program is positive, and a positive program that holds on a
system goes on to hold when more is installed: evaluated there, it holds, unless the evaluation
fails. -/
theorem holds_after_installing {p : Program} {words : List String} {s : Selection}
    (hselect : p.select words = .ok s) :
    (p.Positive → s.Positive) ∧
      (s.Positive → ∀ (env env' : Environment) (settings settings' : Settings) (t t' : Trace),
        env.Installs env' →
        (s.evaluate env settings).result = .ok t → t.truthy = true →
        (s.evaluate env' settings').result = .ok t' → t'.truthy = true) := by
  refine ⟨fun hpositive => hpositive.select hselect,
    fun hpositive env env' settings settings' t t' hinstalls h htruthy h' => ?_⟩
  obtain ⟨results, hyields⟩ := exists_yields h
  obtain ⟨results', hyields'⟩ := exists_yields h'
  exact (finds_of_evaluate h).truthy_mono hinstalls hpositive (finds_of_evaluate h')
    (hyields'.expr_eq.trans hyields.expr_eq.symm) htruthy

/-- A library stands in for a module that is absent. When the module is installed, the evaluation
passes over the library; the comparison has its operand by way of a definition and a choice, and
keeps it. -/
theorem holds_after_installing_of_alternative :
    let ssl : Definition := ⟨.choice, "ssl", .tagged (.package "OpenSSL" none []) "new", 1⟩
    let tls : Definition := ⟨.plain, "tls", .reference "ssl", 1⟩
    let p : Program := ⟨[ssl, tls], .logical .and
      (.compare .gt (.reference "tls") (.version ⟨[.number 1], "1"⟩))
      (.logical .or (.package "Gnu" none []) (.probe .library ["z"]))⟩
    let s : Selection := ⟨["new"], [⟨.choice, "ssl", some ssl.body⟩,
      ⟨.plain, "tls", some tls.body⟩], p.master⟩
    let before : SystemDescription :=
      { registry := ⟨[⟨"OpenSSL", some "3", []⟩]⟩, inventory := { libraries := ["z"] } }
    let after : SystemDescription :=
      { registry := ⟨[⟨"Gnu", none, []⟩, ⟨"OpenSSL", some "3", ["fips"]⟩]⟩
        inventory := { libraries := ["m", "z"] } }
    p.select [":new"] = .ok s ∧ p.Positive ∧ before.environment.Installs after.environment ∧
      ∃ t t', (s.evaluate before.environment {}).result = .ok t ∧ t.truthy = true ∧
        (s.evaluate after.environment {}).result = .ok t' ∧
        (s.evaluate before.environment {}).asked =
          [.lookup "OpenSSL", .lookup "Gnu", .probe .library "z"] ∧
        (s.evaluate after.environment {}).asked = [.lookup "OpenSSL", .lookup "Gnu"] ∧
        t'.truthy = true := by
  intro ssl tls p s before after
  have hselect : p.select [":new"] = .ok s := by decide +kernel
  have hpositive : p.Positive := by
    refine ⟨by decide +kernel, fun e he x hx => ?_⟩
    have hmem : x ∈ p.parts.flatMap Expr.testOperands := List.mem_flatMap.mpr ⟨e, he, hx⟩
    have hoperands : p.parts.flatMap Expr.testOperands =
        [.reference "tls", .version ⟨[.number 1], "1"⟩] := by decide +kernel
    rw [hoperands, List.mem_pair] at hmem
    rcases hmem with rfl | rfl
    · rw [Expr.simple_reference_iff]
      rintro _ ⟨⟩
      rw [Expr.simple_reference_iff]
      rintro _ ⟨⟩
      exact Expr.simple_tagged_iff.mpr (Expr.simple_of_isAtom rfl rfl)
    · exact Expr.simple_of_isAtom rfl rfl
  have hinstalls : before.environment.Installs after.environment := by
    refine SystemDescription.installs_environment rfl rfl (fun name m hm => ?_) fun kind => ?_
    · obtain rfl := List.mem_singleton.mp (List.mem_of_find?_eq_some hm)
      obtain rfl : "OpenSSL" = name := by simpa using List.find?_some hm
      exact ⟨⟨"OpenSSL", some "3", ["fips"]⟩, rfl, rfl, List.nil_subset _⟩
    · cases kind <;> decide
  obtain ⟨hkept, hholds⟩ := holds_after_installing hselect
  refine ⟨hselect, hpositive, hinstalls, _, _, rfl, rfl, rfl, by decide +kernel,
    by decide +kernel, ?_⟩
  exact hholds (hkept hpositive) _ _ {} {} _ _ hinstalls rfl rfl rfl

end Selection

end Requirements
