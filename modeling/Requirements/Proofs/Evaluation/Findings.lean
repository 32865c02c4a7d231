import Mathlib.Data.List.Forall2
import Mathlib.Tactic.Lemma
import Requirements.Proofs.Evaluation.BigStep
import Requirements.Proofs.Evaluation.Refusals

/-!
# What an evaluation finds

Whatever a trace records of a system, the environment was asked and has said: which modules are
installed, in which version and with which of the features asked for, and which files and programs
are there. This holds of all parts of a trace, also of those that repeat the result of a definition.

It is shown by what each computation ensures of its value, given what was asked until then. What is
ensured once goes on to hold as more questions are asked.
-/

namespace Requirements

/-! ### What the environment told -/

/-- The environment was asked the question and gave the answer. -/
structure Environment.Told (env : Environment) (asked : List Query) (q : Query) (x : q.Answer) :
    Prop where
  mem : q ∈ asked
  answer_eq : env.answer q = .ok x

namespace Environment.Told

variable {env : Environment} {asked asked' : List Query} {q : Query} {x y : q.Answer}

/-- An answer that was told stays told when more is asked. -/
lemma mono (h : env.Told asked q x) (hsub : asked ⊆ asked') : env.Told asked' q x :=
  ⟨hsub h.mem, h.answer_eq⟩

/-- A question has one answer only. -/
theorem unique (h : env.Told asked q x) (h' : env.Told asked' q y) : x = y :=
  Except.ok.inj (h.answer_eq.symm.trans h'.answer_eq)

end Environment.Told

/-- The names are listed in their order, each with what is told of it. -/
def ListsTold (told : String → Bool → Prop) : List String → List (String × Bool) → Prop :=
  List.Forall₂ fun name x => x.1 = name ∧ told name x.2

namespace ListsTold

variable {told told' : String → Bool → Prop} {names : List String} {found : List (String × Bool)}

/-- Answers listed for names may be weakened name by name. -/
lemma imp (h : ListsTold told names found) (himp : ∀ name b, told name b → told' name b) :
    ListsTold told' names found :=
  List.Forall₂.imp (fun _ _ hx => ⟨hx.1, himp _ _ hx.2⟩) h

/-- What is listed is told of one of the names. -/
theorem told_of_mem (h : ListsTold told names found) {x : String × Bool} (hx : x ∈ found) :
    x.1 ∈ names ∧ told x.1 x.2 := by
  induction h with
  | nil => cases hx
  | cons hhead _ ih =>
    rcases List.mem_cons.mp hx with rfl | hx
    · obtain ⟨rfl, htold⟩ := hhead
      exact ⟨List.mem_cons_self, htold⟩
    · exact ⟨List.mem_cons_of_mem _ (ih hx).1, (ih hx).2⟩

/-- Something is listed for every name. -/
theorem exists_mem (h : ListsTold told names found) {name : String} (hname : name ∈ names) :
    ∃ b, (name, b) ∈ found ∧ told name b := by
  induction h with
  | nil => cases hname
  | @cons _ x _ _ hhead _ ih =>
    rcases List.mem_cons.mp hname with rfl | hname
    · obtain ⟨rfl, htold⟩ := hhead
      exact ⟨x.2, List.mem_cons_self, htold⟩
    · obtain ⟨b, hmem, htold⟩ := ih hname
      exact ⟨b, List.mem_cons_of_mem x hmem, htold⟩

end ListsTold

/-- What was found of an installed module is what its record says, and its features are asked for
only if it does not say a version that is not accepted. -/
structure Finding.TrueOf (env : Environment) (asked : List Query) (name : String)
    (constraint : Option Constraint) (features : List String) (record : ModuleRecord)
    (f : Finding) : Prop where
  declared : f.declared = record.version
  version : Evaluation.declaredVersion name record = .ok f.version
  accepted : f.accepted = constraint.map fun c => f.version.any c.accepts
  features : ListsTold (fun feature => env.Told asked (.feature name feature))
    (if f.accepted.all id then features else []) f.features

/-- The trace records what the environment said in answer to questions among `asked`. Only a part
without operands records anything of the system. -/
def Trace.TrueOf (env : Environment) (asked : List Query) : Trace → Prop
  | osname s => s = env.osname
  | ithreads b => b = env.ithreads
  | package name _ _ none => env.Told asked (.lookup name) none
  | package name constraint features (some f) =>
    ∃ record, env.Told asked (.lookup name) (some record) ∧
      f.TrueOf env asked name constraint features record
  | probe kind args found => ListsTold (fun arg => env.Told asked (.probe kind arg)) args found
  | _ => True

section

variable {env : Environment} {settings : Settings} {s : Selection} {asked asked' : List Query}

/-- A finding true of the queries so far stays true. -/
lemma Finding.TrueOf.mono {name : String} {constraint : Option Constraint}
    {features : List String} {record : ModuleRecord} {f : Finding}
    (h : f.TrueOf env asked name constraint features record) (hsub : asked ⊆ asked') :
    f.TrueOf env asked' name constraint features record :=
  ⟨h.declared, h.version, h.accepted, h.features.imp fun _ _ htold => htold.mono hsub⟩

/-- A node true of the queries so far stays true. -/
lemma Trace.TrueOf.mono {t : Trace} (h : t.TrueOf env asked) (hsub : asked ⊆ asked') :
    t.TrueOf env asked' := by
  cases t with
  | package name constraint features finding =>
    cases finding with
    | none => exact Environment.Told.mono h hsub
    | some f =>
      obtain ⟨record, htold, hf⟩ := h
      exact ⟨record, htold.mono hsub, hf.mono hsub⟩
  | probe kind args found => exact ListsTold.imp h fun _ _ htold => htold.mono hsub
  | osname | ithreads => exact h
  | _ => trivial

/-- All parts of the trace are true of the environment. -/
def Trace.AllTrueOf (env : Environment) (asked : List Query) (t : Trace) : Prop :=
  ∀ n ∈ t.nodes, n.TrueOf env asked

/-- A tree true of the queries so far stays true. -/
lemma Trace.AllTrueOf.mono {t : Trace} (h : t.AllTrueOf env asked) (hsub : asked ⊆ asked') :
    t.AllTrueOf env asked' :=
  fun n hn => (h n hn).mono hsub

/-- A trace is true of the environment in all its parts if it is so itself and in its operands. -/
theorem Trace.allTrueOf_iff {t : Trace} :
    t.AllTrueOf env asked ↔ t.TrueOf env asked ∧ ∀ c ∈ t.children, c.AllTrueOf env asked :=
  Trace.forall_mem_nodes_iff

/-! ### What computations ensure -/

/-- The answers that are kept are those of the environment, and the results that are kept are true
of it. -/
structure Progress.TrueOf (env : Environment) (p : Progress) : Prop where
  honest : p.Honest env
  kept : ∀ name body, (name, body) ∈ p.results → body.AllTrueOf env p.asked

/-- From progress that is true of the environment, the computation comes to such progress if it
succeeds, and `P` is true of what has been asked by then and of its value. -/
def Ensures (env : Environment) {α : Type} (P : List Query → α → Prop) (m : EvalM α) : Prop :=
  ∀ p a q, p.TrueOf env → m.outcome p = (.ok a, q) →
    q.TrueOf env ∧ p.asked ⊆ q.asked ∧ P q.asked a

/-- What is ensured of a value is not lost as more questions are asked. -/
def Lasts {α : Type} (P : List Query → α → Prop) : Prop :=
  ∀ asked asked' a, asked ⊆ asked' → P asked a → P asked' a

namespace Ensures

variable {α β : Type} {P : List Query → α → Prop} {Q : List Query → β → Prop}

/-- A pure computation ensures what its value satisfies already. -/
lemma pure {a : α} (h : ∀ asked, P asked a) : Ensures env P (pure a) := by
  intro p b q hp hrun
  cases hrun
  exact ⟨hp, List.Subset.refl _, h _⟩

/-- A computation that raises ensures anything of its value. -/
lemma throw (e : EvalError) : Ensures env P (throw e : EvalM α) := by
  intro p a q _ hrun
  cases hrun

/-- A lifted computation ensures that its value is the one given. -/
lemma liftExcept (r : Except EvalError α) :
    Ensures env (fun _ a => r = .ok a) (liftM r : EvalM α) := by
  intro p a q hp hrun
  rw [EvalM.outcome_liftExcept] at hrun
  obtain ⟨hr, rfl⟩ := Prod.mk.inj hrun
  exact ⟨hp, List.Subset.refl _, hr⟩

/-- The second of two computations may rely on what the first ensures. -/
theorem bind {m : EvalM α} {f : α → EvalM β} (hlasts : Lasts P) (hm : Ensures env P m)
    (hf : ∀ a, Ensures env (fun asked b => P asked a → Q asked b) (f a)) :
    Ensures env Q (m >>= f) := by
  intro p b q hp hrun
  obtain ⟨a, r, hrun, hrun'⟩ := EvalM.outcome_bind_ok_iff.mp hrun
  obtain ⟨hr, hsub, ha⟩ := hm p a r hp hrun
  obtain ⟨hq, hsub', hb⟩ := hf a r b q hr hrun'
  exact ⟨hq, List.Subset.trans hsub hsub', hb (hlasts _ _ _ hsub' ha)⟩

/-- A loop ensures of each value what its step ensures. -/
theorem mapM {R : α → List Query → β → Prop} {f : α → EvalM β} (hlasts : ∀ a, Lasts (R a))
    (hf : ∀ a, Ensures env (R a) (f a)) (l : List α) :
    Ensures env (fun asked bs => List.Forall₂ (fun a b => R a asked b) l bs) (l.mapM f) := by
  induction l with
  | nil => exact pure fun _ => .nil
  | cons a l ih =>
    rw [List.mapM_cons]
    refine bind (hlasts a) (hf a) fun b => bind ?_ ih fun bs => pure fun _ hbs hb => .cons hb hbs
    intro asked asked' bs hsub hbs
    exact hbs.imp fun a b hb => hlasts a _ _ b hsub hb

/-- An answer is what the environment told. -/
theorem ask (q : Query) :
    Ensures env (fun asked x => env.Told asked q x) (Evaluation.ask env settings q) := by
  intro p x r hp hrun
  cases hanswer : env.answer q with
  | error refusal =>
    rw [hp.honest.outcome_ask_of_error settings hanswer] at hrun
    cases hrun
  | ok y =>
    obtain ⟨r', hrun', hr, hresults, hgrow, -, hq⟩ := hp.honest.outcome_ask_of_ok settings hanswer
    cases hrun'.symm.trans hrun
    refine ⟨⟨hr, fun name body hmem => ?_⟩, hgrow, hq, hanswer⟩
    exact (hp.kept name body (hresults ▸ hmem)).mono hgrow

/-- What the environment told once lasts through the run. -/
lemma lasts_told (q : Query) : Lasts fun asked x => env.Told asked q x :=
  fun _ _ _ hsub h => h.mono hsub

/-- Features are listed with what the environment told of them. -/
theorem askFeatures (name : String) (features : List String) :
    Ensures env
      (fun asked found =>
        ListsTold (fun feature => env.Told asked (.feature name feature)) features found)
      (Evaluation.askFeatures env settings name features) := by
  refine mapM (fun feature asked asked' x hsub hx => ⟨hx.1, hx.2.mono hsub⟩) (fun feature => ?_) _
  exact bind (lasts_told _) (ask _) fun b => pure fun _ htold => ⟨rfl, htold⟩

/-- The arguments of a probe are listed with what the environment told of them. -/
theorem askArguments (kind : Probe) (args : List String) :
    Ensures env
      (fun asked found => ListsTold (fun arg => env.Told asked (.probe kind arg)) args found)
      (Evaluation.askArguments env settings kind args) := by
  refine mapM (fun arg asked asked' x hsub hx => ⟨hx.1, hx.2.mono hsub⟩) (fun arg => ?_) _
  exact bind (lasts_told _) (ask _) fun b => pure fun _ htold => ⟨rfl, htold⟩

/-- What is found of an installed module is true of it. -/
theorem examine (name : String) (constraint : Option Constraint) (features : List String)
    (record : ModuleRecord) :
    Ensures env (fun asked f => f.TrueOf env asked name constraint features record)
      (Evaluation.examine env settings name constraint features record) := by
  refine bind (fun _ _ _ _ h => h) (liftExcept _) fun version => ?_
  let accepted := constraint.map fun c => version.any c.accepts
  have hfound : Ensures env
      (fun asked found => ListsTold (fun feature => env.Told asked (.feature name feature))
        (if accepted.all id then features else []) found)
      (if accepted.all id then Evaluation.askFeatures env settings name features
        else Pure.pure []) := by
    split
    · exact askFeatures name features
    · exact pure fun _ => .nil
  refine bind ?_ hfound fun found => pure fun asked hfound hversion => ?_
  · exact fun _ _ _ hsub h => h.imp fun _ _ htold => htold.mono hsub
  · exact ⟨rfl, hversion, rfl, hfound⟩

/-- What is found of a module is true of the environment. -/
theorem find (name : String) (constraint : Option Constraint) (features : List String) :
    Ensures env
      (fun asked finding => (Trace.package name constraint features finding).TrueOf env asked)
      (Evaluation.find env settings name constraint features) := by
  refine bind (lasts_told _) (ask (.lookup name)) fun answer => ?_
  cases answer with
  | none => exact pure fun _ htold => htold
  | some record =>
    refine bind (fun _ _ _ hsub h => h.mono hsub) (examine name constraint features record)
      fun f => pure fun _ hf htold => ?_
    exact ⟨record, htold, hf⟩

/-- The computation records what is true of the environment in all parts of its trace. -/
def Faithful (env : Environment) (m : EvalM Trace) : Prop :=
  Ensures env (fun asked t => t.AllTrueOf env asked) m

/-- That a tree is true of the environment lasts through the run. -/
lemma lasts_allTrueOf : Lasts fun asked t => Trace.AllTrueOf env asked t :=
  fun _ _ _ hsub h => h.mono hsub

/-- If references are followed faithfully, expressions are evaluated faithfully. -/
theorem evalWith {follow : String → EvalM Trace} (hfollow : ∀ name, Faithful env (follow name))
    (e : Expr) : Faithful env (Evaluation.evalWith env settings follow e) := by
  induction e with
  | bool | text | version =>
    refine pure fun asked => Trace.allTrueOf_iff.mpr ⟨trivial, ?_⟩
    simp [Trace.children]
  | platform fact =>
    cases fact with
    | osname | ithreads =>
      refine pure fun asked => Trace.allTrueOf_iff.mpr ⟨rfl, ?_⟩
      simp [Trace.children]
  | package name constraint features =>
    refine bind ?_ (find name constraint features) fun finding => pure fun asked h => ?_
    · exact fun _ _ _ hsub h => h.mono hsub
    · exact Trace.allTrueOf_iff.mpr ⟨h, by simp [Trace.children]⟩
  | probe kind args =>
    refine bind ?_ (askArguments kind args) fun found => pure fun asked h => ?_
    · exact fun _ _ _ hsub h => h.imp fun _ _ htold => htold.mono hsub
    · exact Trace.allTrueOf_iff.mpr ⟨h, by simp [Trace.children]⟩
  | reference name => exact hfollow name
  | tagged operand tag ih =>
    refine bind lasts_allTrueOf ih fun inner => pure fun asked h => ?_
    exact Trace.allTrueOf_iff.mpr ⟨trivial, by simpa [Trace.children] using h⟩
  | compare op lhs rhs ihl ihr =>
    refine bind lasts_allTrueOf ihl fun left => bind lasts_allTrueOf ihr fun right =>
      bind (fun _ _ _ _ h => h) (liftExcept _) fun truthy => pure fun asked _ hr hl => ?_
    exact Trace.allTrueOf_iff.mpr ⟨trivial, by simpa [Trace.children] using ⟨hl, hr⟩⟩
  | within operand set ih =>
    refine bind lasts_allTrueOf ih fun inner =>
      bind (fun _ _ _ _ h => h) (liftExcept _) fun tested => pure fun asked _ h => ?_
    exact Trace.allTrueOf_iff.mpr ⟨trivial, by simpa [Trace.children] using h⟩
  | logical op lhs rhs ihl ihr =>
    refine bind lasts_allTrueOf ihl fun left => ?_
    split
    · refine pure fun asked hl => ?_
      exact Trace.allTrueOf_iff.mpr ⟨trivial, by simpa [Trace.children] using hl⟩
    · refine bind lasts_allTrueOf ihr fun right => pure fun asked hr hl => ?_
      exact Trace.allTrueOf_iff.mpr ⟨trivial, by simpa [Trace.children] using ⟨hl, hr⟩⟩

/-- If the references of the body of a definition are followed faithfully, those to the definition
are. -/
theorem followBinding {follow : String → EvalM Trace}
    (hfollow : ∀ name, Faithful env (follow name)) (name : String) (b : Binding) :
    Faithful env (do
      Evaluation.followBinding env settings follow name b ((← get).results.lookup name)) := by
  intro p t q hp h
  rw [EvalM.outcome_bind_of_ok (EvalM.outcome_get p)] at h
  cases hlookup : p.results.lookup name with
  | some body =>
    rw [hlookup] at h
    cases h
    have hbody := hp.kept name body (mem_of_lookup hlookup)
    refine ⟨hp, List.Subset.refl _, Trace.allTrueOf_iff.mpr ⟨trivial, ?_⟩⟩
    simpa [Trace.children] using hbody
  | none =>
    rw [hlookup] at h
    simp only [Evaluation.followBinding] at h
    cases hbody : b.body with
    | none =>
      rw [hbody] at h
      cases h
      refine ⟨hp, List.Subset.refl _, Trace.allTrueOf_iff.mpr ⟨trivial, ?_⟩⟩
      simp [Trace.children]
    | some e =>
      rw [hbody] at h
      obtain ⟨body, p₁, hrun, h⟩ := EvalM.outcome_bind_ok_iff.mp h
      rw [EvalM.outcome_bind_of_ok (EvalM.outcome_modify _ _)] at h
      cases h
      obtain ⟨hp₁, hsub, hnodes⟩ := evalWith hfollow e p body p₁ hp hrun
      refine ⟨⟨hp₁.honest.keep _, fun n t hmem => ?_⟩, hsub, Trace.allTrueOf_iff.mpr ⟨trivial, ?_⟩⟩
      · rcases List.mem_cons.mp hmem with heq | hmem
        · cases heq
          exact hnodes
        · exact hp₁.kept n t hmem
      · simpa [Trace.children] using hnodes

/-- Following a reference to any depth gives trees true of the environment. -/
lemma followWithin (levels : Nat) (name : String) :
    Faithful env (Evaluation.followWithin env settings s levels name) := by
  induction levels generalizing name with
  | zero => exact throw _
  | succ levels ih =>
    rw [Evaluation.followWithin]
    split
    · exact throw _
    · exact followBinding ih name _

end Ensures

/-- Every part of the trace of a successful evaluation records what the environment was asked and
said. -/
theorem Selection.allTrueOf_of_evaluate {t : Trace}
    (h : (s.evaluate env settings).result = .ok t) :
    t.AllTrueOf env (s.evaluate env settings).asked := by
  have hrun : Ensures.Faithful env (Evaluation.eval env settings s s.master) :=
    Ensures.evalWith (Ensures.followWithin s.bindings.length) s.master
  have hstart : Progress.TrueOf env {} := ⟨.start env, by simp⟩
  obtain ⟨-, -, hnodes⟩ := hrun {} t _ hstart (Prod.ext h rfl)
  exact hnodes.mono fun q hq => List.mem_reverse.mpr hq

end

end Requirements
