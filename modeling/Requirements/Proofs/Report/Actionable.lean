import Requirements.Environment.Registry
import Requirements.Proofs.Evaluation.Nodes
import Requirements.Proofs.Program.Selection
import Requirements.Proofs.Report.Entries

/-!
# What can be done about a failed test

Nothing can be done about a comparison or set test that only constants and the platform decide. An
entry says so if it is read off the operands as they are written. But the operands may refer to
definitions, and hold modules that were passed over: the entry then takes the test for one of
modules, whatever was found behind the references.
-/

namespace Requirements

namespace Trace

/-- Whether the trace is of a part that the environment is asked about. -/
def isLookup : Trace → Bool
  | package _ _ _ _ | probe _ _ _ => true
  | _ => false

/-- A test below which no module was looked for is taken for one that modules decide exactly if its
operands, as they are written, mention a module or a definition and do not mention the platform. -/
theorem isActionable_comparisonFailure_iff {text : String} {operands : List Trace}
    (h : ∀ n ∈ operands.flatMap nodes, n.isLookup = false) :
    (comparisonFailure text operands).kind.isActionable = true ↔
      (∀ c ∈ operands, mentionsPlatform c.expr = false) ∧
        ∃ c ∈ operands, mentionsPackage c.expr = true := by
  have hbare : ((operands.filter unversioned).flatMap nodes).filterMap packageName? = [] := by
    rw [List.filterMap_eq_nil_iff]
    intro n hn
    obtain ⟨c, hc, hnc⟩ := List.mem_flatMap.mp hn
    have hlookup := h n (List.mem_flatMap.mpr ⟨c, List.mem_of_mem_filter hc, hnc⟩)
    cases n with
    | package => cases hlookup
    | _ => rfl
  simp only [comparisonFailure, hbare]
  cases hplatform : operands.any fun c => mentionsPlatform c.expr with
  | true =>
    obtain ⟨c, hc, hmentions⟩ := List.any_eq_true.mp hplatform
    refine ⟨fun hactionable => (by cases hactionable), fun ⟨hnone, _⟩ => ?_⟩
    cases hmentions.symm.trans (hnone c hc)
  | false =>
    have hnone : ∀ c ∈ operands, mentionsPlatform c.expr = false := by
      simpa using hplatform
    cases hpackage : operands.any fun c => mentionsPackage c.expr with
    | true => exact ⟨fun _ => ⟨hnone, List.any_eq_true.mp hpackage⟩, fun _ => rfl⟩
    | false =>
      refine ⟨fun hactionable => (by cases hactionable), fun ⟨_, hsome⟩ => ?_⟩
      cases hpackage.symm.trans (List.any_eq_true.mpr hsome)

/-- The failure of a test is that of its operands, none of which failed. -/
theorem ownFailure?_of_isTest {u : Trace} (h : u.isTest = true) :
    u.ownFailure? = comparisonFailure? u.label u.children := by
  cases u with
  | compare | within => rfl
  | _ => cases h

end Trace

namespace Selection

/-- An entry on a comparison or set test below which no module and no probe was evaluated is
actionable exactly if an operand, as it is written, mentions a module or a definition, and none
mentions the platform. So it is not actionable if the operands do without references and without
modules that were passed over, or if one of them mentions the platform itself. -/
theorem actionable_test_iff {s : Selection} {env : Environment} {settings : Settings} {t : Trace}
    (h : (s.evaluate env settings).result = .ok t) :
    s.check env settings = .ok (t.report s.options) ∧
      ∀ e ∈ (t.report s.options).entries, ∀ a u, t.Describes a e u → u.isTest = true →
        (∀ n ∈ u.nodes, n.isLookup = false) →
        (e.actionable = true ↔ (∀ c ∈ u.children, Trace.mentionsPlatform c.expr = false) ∧
          ∃ c ∈ u.children, Trace.mentionsPackage c.expr = true) := by
  refine ⟨by rw [check, h]; rfl, fun e _ a u hdescribes htest hlookups => ?_⟩
  have hfailure := hdescribes.failure
  rw [Trace.ownFailure?_of_isTest htest, Trace.comparisonFailure?] at hfailure
  split at hfailure
  · cases hfailure
  · have hkind : e.kind = (Trace.comparisonFailure u.label u.children).kind :=
      congrArg Failure.kind (Option.some.inj hfailure).symm
    rw [hdescribes.actionable, hkind]
    refine Trace.isActionable_comparisonFailure_iff fun n hn => hlookups n ?_
    exact Trace.mem_nodes_iff.mpr (.inr (List.mem_flatMap.mp hn))

/-- In a comparison that mentions the platform itself, nothing can be done about what the platform
decides. -/
theorem actionable_test_iff_of_platform :
    let s : Selection := ⟨[], [], .compare .eq (.platform .ithreads) (.bool false)⟩
    let env := ({ ithreads := true } : SystemDescription).environment
    let t : Trace := .compare .eq (.ithreads true) (.bool false) false
    let e : Entry := ⟨["\x7bITHREADS\x7d == false"], .platformMismatch, false,
      "\x7bITHREADS\x7d == false is false (\x7bITHREADS\x7d is True)", false⟩
    (s.evaluate env {}).result = .ok t ∧ t.Describes [] e t ∧
      s.check env {} = .ok ⟨false, [e], []⟩ ∧ ¬ e.actionable = true := by
  intro s env t e
  have hrun : (s.evaluate env {}).result = .ok t := rfl
  have hdescribes : t.Describes [] e t := ⟨rfl, rfl, by simp, rfl, rfl⟩
  obtain ⟨hcheck, hentries⟩ := actionable_test_iff hrun
  refine ⟨hrun, hdescribes, hcheck, ?_⟩
  rw [hentries e List.mem_cons_self [] t hdescribes rfl (by decide)]
  decide

/-- The entry on the comparison of a platform fact by way of a definition is actionable, although
nothing but the platform decided the comparison. -/
theorem exists_actionable_test_without_lookup :
    let source := "define t = \x7bITHREADS\x7d; \x7bt\x7d == false"
    let p : Program := ⟨[⟨.plain, "t", .platform .ithreads, 1⟩],
      .compare .eq (.reference "t") (.bool false)⟩
    let s : Selection := ⟨[], [⟨.plain, "t", some (.platform .ithreads)⟩], p.master⟩
    let env := ({ ithreads := true } : SystemDescription).environment
    let t : Trace := .compare .eq (.reference "t" false false (.ithreads true)) (.bool false) false
    let e : Entry := ⟨["\x7bt\x7d == false"], .versionMismatch, true,
      "\x7bt\x7d == false is false", false⟩
    Program.compile source = .ok p ∧ p.select [] = .ok s ∧
      (s.evaluate env {}).result = .ok t ∧ s.check env {} = .ok ⟨false, [e], []⟩ ∧
      t.Describes [] e t ∧ t.isTest = true ∧ (∀ n ∈ t.nodes, n.isLookup = false) ∧
      ¬ e.actionable = false := by
  intro source p s env t e
  refine ⟨by decide +kernel, by decide +kernel, rfl, rfl, ?_, rfl, by decide, by decide⟩
  exact ⟨rfl, rfl, by simp, rfl, rfl⟩

end Selection

end Requirements
