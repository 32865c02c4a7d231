import Mathlib.Tactic.Lemma
import Requirements.Environment.Registry
import Requirements.Proofs.Evaluation.Findings
import Requirements.Proofs.Evaluation.KeptAnswers
import Requirements.Proofs.Expr.Alternatives
import Requirements.Proofs.Program.Selection
import Requirements.Proofs.Report.Entries

/-!
# Diagnoses

An entry of a report says what is wrong with a part of the program: a module is absent, has another
version than required or lacks features, a probe found nothing for some of its arguments, or nothing
of a choice is selected. Each of these is read off the trace, and each of them is what the
environment said, or what the options left.
-/

namespace Requirements

/-! ### Alternatives that are not selected -/

namespace Expr

variable {options : List String}

/-- Nothing is left of a connective exactly if nothing is left of its operands. -/
theorem prune_logical_eq_none_iff {op : LogicalOp} {lhs rhs : Expr} :
    (logical op lhs rhs).prune options = none ↔
      lhs.prune options = none ∧ rhs.prune options = none := by
  rw [prune]
  cases lhs.prune options <;> cases rhs.prune options <;> simp

/-- Nothing is left of an expression exactly if nothing is left of the operands that a connective
joins in it. -/
theorem forall_mem_operandsOnto_iff {op : LogicalOp} {e : Expr} {rest : List Expr} :
    (∀ x ∈ e.operandsOnto op rest, x.prune options = none) ↔
      e.prune options = none ∧ ∀ x ∈ rest, x.prune options = none := by
  induction e generalizing rest with
  | logical o lhs rhs ihl ihr =>
    rw [operandsOnto]
    split
    · rw [ihl, ihr, prune_logical_eq_none_iff, and_assoc]
    · rw [List.forall_mem_cons]
  | _ =>
    rw [operandsOnto, List.forall_mem_cons]
    simp

/-- Nothing is left of the body of a choice exactly if none of its alternatives is left. -/
theorem prune_eq_none_iff_forall_alternatives (e : Expr) :
    e.prune options = none ↔ ∀ a ∈ e.alternatives, a.expr.prune options = none := by
  unfold alternatives
  split
  · simp only [List.forall_mem_map, expr_toAlternative, operands, forall_mem_operandsOnto_iff]
    simp
  · simp [Alternative.expr]
  · simp

end Expr

/-! ### Names that were looked for and not found -/

namespace Trace

variable {found : List (String × Bool)}

/-- The missing names are those found absent. -/
lemma mem_missing_iff {name : String} : name ∈ missing found ↔ (name, false) ∈ found := by
  simp [missing]

/-- No name is missing twice. -/
lemma nodup_missing (found : List (String × Bool)) : (missing found).Nodup :=
  KeptAnswers.nodup_eraseDups _

/-- If not all was found, something is missing. -/
theorem missing_ne_nil (h : found.all Prod.snd = false) : missing found ≠ [] := by
  obtain ⟨⟨name, b⟩, hmem, hb⟩ := List.all_eq_false.mp h
  obtain rfl : b = false := by simpa using hb
  exact List.ne_nil_of_mem (mem_missing_iff.mpr hmem)

end Trace

/-- The detail lists, behind the heading, exactly those of the names that were denied: at least one,
and each of them once. -/
def ListsDenied (denied : String → Prop) (names : List String) (heading detail : String) : Prop :=
  ∃ listed, listed ≠ [] ∧ listed.Nodup ∧ detail = heading ++ ", ".intercalate listed ∧
    ∀ name, name ∈ listed ↔ name ∈ names ∧ denied name

/-- What is missing of that which is listed as it was told are the names that were denied. -/
theorem ListsTold.listsDenied_missing {told : String → Bool → Prop} {names : List String}
    {found : List (String × Bool)} (h : ListsTold told names found)
    (hunique : ∀ name, told name false → ¬ told name true) (hfound : found.all Prod.snd = false)
    (heading : String) :
    ListsDenied (fun name => told name false) names heading
      (heading ++ ", ".intercalate (Trace.missing found)) := by
  refine ⟨_, Trace.missing_ne_nil hfound, Trace.nodup_missing found, rfl, fun name => ?_⟩
  rw [Trace.mem_missing_iff]
  constructor
  · exact h.told_of_mem
  · rintro ⟨hname, hdenied⟩
    obtain ⟨b, hmem, htold⟩ := h.exists_mem hname
    cases b with
    | false => exact hmem
    | true => exact absurd htold (hunique name hdenied)

/-! ### Versions -/

namespace ModuleRecord

/-- The module declares a version that satisfies the condition. -/
def Meets (record : ModuleRecord) (c : Constraint) : Prop :=
  ∃ text v, record.version = some text ∧ Version.ofText? text = some v ∧ c.accepts v = true

/-- The module declares no version, or one that does not satisfy the condition. -/
def Misses (record : ModuleRecord) (c : Constraint) : Prop :=
  record.version = none ∨
    ∃ text v, record.version = some text ∧ Version.ofText? text = some v ∧ c.accepts v = false

/-- A version that could be read satisfies a condition, or it is missing or does not. -/
theorem meets_or_misses {record : ModuleRecord} {name : String} {version : Option Version}
    (h : Evaluation.declaredVersion name record = .ok version) (c : Constraint) :
    if version.any c.accepts then record.Meets c else record.Misses c := by
  unfold Evaluation.declaredVersion at h
  split at h
  · rename_i hnone
    cases h
    exact .inl hnone
  · rename_i text hsome
    unfold Value.readVersion at h
    split at h
    · rename_i v hread
      cases h
      split
      · rename_i haccepts
        exact ⟨text, v, hsome, hread, haccepts⟩
      · rename_i hrejects
        exact .inr ⟨text, v, hsome, hread, by simpa using hrejects⟩
    · cases h

end ModuleRecord

/-! ### What a failure says -/

/-- What the failure says of the part of the program is true, if `asked` was asked and `options` are
selected. -/
def Failure.TrueOf (p : Program) (options : List String) (env : Environment) (asked : List Query)
    (part : Expr) (f : Failure) : Prop :=
  match f.kind with
  | .missingModule => ∃ name constraint features, part = .package name constraint features ∧
    env.Told asked (.lookup name) none
  | .versionMismatch => ∀ name constraint features, part = .package name constraint features →
    ∃ record c, env.Told asked (.lookup name) (some record) ∧ constraint = some c ∧ record.Misses c
  | .missingFeature => ∃ name constraint features, part = .package name constraint features ∧
    (∃ record, env.Told asked (.lookup name) (some record) ∧
      ∀ c, constraint = some c → record.Meets c) ∧
    ListsDenied (fun feature => env.Told asked (.feature name feature) false) features
      (name ++ " lacks feature(s): ") f.detail
  | .missingInclude => notFound .header
  | .missingLib => notFound .library
  | .missingProgram => notFound .program
  | .noAlternative => ∃ d ∈ p.definitions, d.isChoice = true ∧ part = .reference d.name ∧
    ∀ a ∈ d.body.alternatives, a.expr.prune options = none
  | _ => True
where
  /-- The probe found nothing for the arguments in the detail. -/
  notFound (kind : Probe) : Prop :=
    ∃ args, part = .probe kind args ∧
      ListsDenied (fun arg => env.Told asked (.probe kind arg) false) args "Not found: " f.detail

section

variable {p : Program} {options : List String} {env : Environment} {asked : List Query}

/-- What is said of a comparison or set test says nothing of a module, a probe or a choice. -/
theorem Trace.trueOf_comparisonFailure {part : Expr}
    (hpart : ∀ name constraint features, part ≠ .package name constraint features) (text : String)
    (operands : List Trace) :
    (comparisonFailure text operands).TrueOf p options env asked part := by
  have hmismatch (detail : String) :
      Failure.TrueOf p options env asked part ⟨.versionMismatch, detail⟩ :=
    fun name constraint features h => absurd h (hpart name constraint features)
  unfold comparisonFailure
  split
  · exact hmismatch _
  · split
    · trivial
    · split
      · exact hmismatch _
      · trivial

/-- What is said of a module is true: it is absent, or its version is not accepted, or features were
denied. -/
theorem Trace.trueOf_packageFailure {name : String} {constraint : Option Constraint}
    {features : List String} {finding : Option Finding}
    (htrue : (package name constraint features finding).TrueOf env asked)
    (huntrue : (package name constraint features finding).truthy = false) :
    (packageFailure name constraint features finding).TrueOf p options env asked
      (.package name constraint features) := by
  cases finding with
  | none => exact ⟨name, constraint, features, rfl, htrue⟩
  | some f =>
    obtain ⟨record, hrecord, hf⟩ := htrue
    have hversion := ModuleRecord.meets_or_misses hf.version
    rw [packageFailure]
    by_cases hrejected : f.accepted = some false
    · obtain ⟨c, hc, hrejects⟩ := Option.map_eq_some_iff.mp (hf.accepted.symm.trans hrejected)
      have hmisses : record.Misses c := by simpa [hrejects] using hversion c
      rw [if_pos hrejected]
      split
      all_goals
        intro n k fs hpart
        cases hpart
        exact ⟨record, c, hrecord, hc, hmisses⟩
    · have haccepted : f.accepted.all id = true := by
        cases h : f.accepted with
        | none => rfl
        | some b => simpa [h] using hrejected
      have hfeatures := hf.features
      rw [haccepted, if_pos rfl] at hfeatures
      have hfound : f.features.all Prod.snd = false := by
        simpa [truthy, value, Finding.truthy, haccepted] using huntrue
      rw [if_neg hrejected]
      refine ⟨name, constraint, features, rfl, ⟨record, hrecord, fun c hc => ?_⟩, ?_⟩
      · have haccepts : f.version.any c.accepts = true := by
          simpa [hf.accepted, hc] using haccepted
        simpa [haccepts] using hversion c
      · refine hfeatures.listsDenied_missing (fun feature hdenied hgranted => ?_) hfound _
        cases hdenied.unique hgranted

/-- What is said of a probe is true: the arguments that it names were denied. -/
theorem Trace.trueOf_probeFailure {kind : Probe} {args : List String}
    {found : List (String × Bool)} (htrue : (probe kind args found).TrueOf env asked)
    (huntrue : (probe kind args found).truthy = false) :
    Failure.TrueOf p options env asked (.probe kind args)
      ⟨probeFailureKind kind, "Not found: " ++ ", ".intercalate (missing found)⟩ := by
  have hdenied := ListsTold.listsDenied_missing htrue
    (fun arg hdenied hgranted => by cases hdenied.unique hgranted) huntrue "Not found: "
  cases kind with
  | header | library | program => exact ⟨args, rfl, hdenied⟩

end

/-- What is said of a part that does not hold is true, if the part records what the environment said
and what the options left. -/
theorem Trace.trueOf_ownFailure {p : Program} {words : List String} {s : Selection}
    (hselect : p.select words = .ok s) {env : Environment} {asked : List Query} {u : Trace}
    (hvisits : s.Visits u) (htrue : u.TrueOf env asked) (huntrue : u.truthy = false) {f : Failure}
    (hfailure : u.ownFailure? = some f) : f.TrueOf p (optionSet words) env asked u.expr := by
  cases u with
  | package name constraint features finding =>
    cases hfailure
    exact trueOf_packageFailure htrue huntrue
  | probe kind args found =>
    cases hfailure
    exact trueOf_probeFailure htrue huntrue
  | unselected name =>
    cases hfailure
    obtain ⟨b, hfind, hnone⟩ := hvisits.exists_binding_of_unselected
    obtain ⟨d, hd, rfl, rfl⟩ := Program.exists_definition_of_find? hselect hfind
    cases hchoice : d.isChoice with
    | false => simp [Binding.ofDefinition, hchoice] at hnone
    | true =>
      have hprune : d.body.prune (optionSet words) = none := by
        simpa [Binding.ofDefinition, hchoice] using hnone
      exact ⟨d, hd, hchoice, rfl, (Expr.prune_eq_none_iff_forall_alternatives d.body).mp hprune⟩
  | compare op lhs rhs truthy =>
    simp only [ownFailure?, comparisonFailure?] at hfailure
    split at hfailure
    · cases hfailure
    · cases hfailure
      exact trueOf_comparisonFailure (by simp [expr]) _ _
  | within operand set tested truthy =>
    simp only [ownFailure?, comparisonFailure?] at hfailure
    split at hfailure
    · cases hfailure
    · cases hfailure
      exact trueOf_comparisonFailure (by simp [expr]) _ _
  | logical op lhs rhs truthy =>
    cases op with
    | xor =>
      simp only [ownFailure?] at hfailure
      split at hfailure
      · cases hfailure
        trivial
      · cases hfailure
    | and | or => cases hfailure
  | bool | text | osname | ithreads =>
    cases hfailure
    trivial
  | _ => cases hfailure

namespace Selection

/-- Every diagnosis is true of the system. If an entry says that a module is absent, the environment
has said so; if it says that a version is wrong, the module is there, and declares no version or one
that the condition does not accept; if it names features, the module is there and as required, and
the features named are those of the list that the environment denied; if it names what a probe did
not find, these are the arguments that the environment denied; if it says that nothing of a choice
is selected, the options leave none of its alternatives. -/
theorem diagnoses_true {p : Program} {words : List String} {s : Selection}
    (hselect : p.select words = .ok s) {env : Environment} {settings : Settings} {t : Trace}
    (h : (s.evaluate env settings).result = .ok t) :
    s.check env settings = .ok (t.report s.options) ∧
      (∀ e ∈ (t.report s.options).entries, ∃ a u, t.Reports a u ∧ t.Describes a e u) ∧
      ∀ e a u, t.Reports a u → t.Describes a e u →
        Failure.TrueOf p (optionSet words) env (s.evaluate env settings).asked u.expr
          ⟨e.kind, e.detail⟩ := by
  refine ⟨by rw [check, h]; rfl, fun e he => Trace.exists_reports_of_mem_entries he,
    fun e a u hreports hdescribes => ?_⟩
  have hu : u ∈ t.nodes := Trace.mem_nodes_of_part? hdescribes.part
  exact Trace.trueOf_ownFailure hselect (visits_of_evaluate h u hu) (allTrueOf_of_evaluate h u hu)
    hreports.untrue hdescribes.failure

/-- A module that is absent, one of an older version, one without two of the features in a list
that names one of them twice, a library that is not there, and a choice without a selected
alternative. -/
theorem diagnoses_true_of_each_kind :
    let dbi : Constraint := .compare .ge ⟨[.number 2], "2"⟩
    let libraries := ["z", "m"]
    let features := ["x", "y", "x", "w", "y"]
    let choice : Definition := ⟨.choice, "c", .tagged (.package "Gnu" none []) "g", 1⟩
    let p : Program := ⟨[choice], .logical .or (.package "Foo" none []) (.logical .or
      (.package "DBI" (some dbi) []) (.logical .or (.package "YAML" none features) (.logical .or
      (.probe .library libraries) (.reference "c"))))⟩
    let s : Selection := ⟨[], [⟨.choice, "c", none⟩], p.master⟩
    let env := ({
      registry := ⟨[⟨"DBI", some "1", []⟩, ⟨"YAML", none, ["x"]⟩]⟩
      inventory := { libraries := ["z"] } } : SystemDescription).environment
    let t : Trace := .logical .or (.package "Foo" none [] none) (.logical .or
      (.package "DBI" (some dbi) [] (some ⟨some "1", some ⟨[.number 1], "1"⟩, some false, []⟩))
      (.logical .or (.package "YAML" none features (some ⟨none, none, none,
        [("x", true), ("y", false), ("x", true), ("w", false), ("y", false)]⟩)) (.logical .or
      (.probe .library libraries [("z", true), ("m", false)]) (.unselected "c") false)
      false) false) false
    p.select [] = .ok s ∧ (s.evaluate env {}).result = .ok t ∧
      t.entries.map (fun e => (e.kind, e.detail)) =
        [(.missingModule, "Module Foo is not installed"),
          (.versionMismatch, "DBI 1 does not satisfy DBI >= 2"),
          (.missingFeature, "YAML lacks feature(s): y, w"),
          (.missingLib, "Not found: m"),
          (.noAlternative, "No alternative of choice 'c' selected")] ∧
      ∀ e ∈ t.entries, ∃ part,
        Failure.TrueOf p [] env (s.evaluate env {}).asked part ⟨e.kind, e.detail⟩ := by
  intro dbi libraries features choice p s env t
  have hselect : p.select [] = .ok s := by decide +kernel
  have hrun : (s.evaluate env {}).result = .ok t := rfl
  obtain ⟨-, hentries, htrue⟩ := diagnoses_true hselect hrun
  refine ⟨hselect, hrun, by decide +kernel, fun e he => ?_⟩
  obtain ⟨a, u, hreports, hdescribes⟩ := hentries e he
  exact ⟨u.expr, htrue e a u hreports hdescribes⟩

end Selection

end Requirements
