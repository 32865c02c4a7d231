import Mathlib.Tactic.Lemma
import Requirements.Proofs.Expr.Prune
import Requirements.Proofs.Program.Printing
import Requirements.Proofs.Program.Selection
import Requirements.Proofs.Report.Cells
import Requirements.Proofs.Report.Diagnoses

/-!
# Reports as tables

A report in Markdown is a table with a row for each entry. It is one as long as the label and the
detail of each entry stay within their cells.
-/

namespace Requirements

open Text

/-! ### Rows -/

namespace Entry

/-- What stands in front of the first bar of a row, between the bars, and behind the last one. Of
the six texts, the first and the last are empty, and the others are those of the four cells. -/
def cells (e : Entry) : List String :=
  ["", " `" ++ e.path.getLastD "" ++ e.shadowNote ++ "` ", " " ++ e.kind.name ++ " ",
    " " ++ (if e.actionable then "yes" else "no") ++ " ", " " ++ e.detail ++ " ", ""]

/-- The label and the detail of the entry stay within their cells. -/
def FitsRow (e : Entry) : Prop :=
  FitsCell (e.path.getLastD "") ∧ FitsCell e.detail

/-- A row is its cells, joined by bars. -/
lemma toRow_eq (e : Entry) : e.toRow = "|".intercalate e.cells := by
  simp [toRow, cells, ← String.toList_inj]

/-- An entry fits its row exactly if every cell does. -/
lemma fitsRow_iff_cells {e : Entry} : e.FitsRow ↔ ∀ cell ∈ e.cells, FitsCell cell := by
  have hnote : FitsCell e.shadowNote := by
    unfold shadowNote
    split <;> decide
  have hkind : FitsCell e.kind.name := by cases e.kind <;> decide
  have hactionable : FitsCell (if e.actionable then "yes" else "no") := by
    split <;> decide
  simp +decide [FitsRow, cells, hnote, hkind, hactionable]

/-- A row without line breaks that is split into its cells at the bars is one whose label and detail
stay within their cells. -/
theorem fitsRow_iff {e : Entry} :
    e.FitsRow ↔ OneLine e.toRow ∧ splitAt '|' e.toRow = e.cells := by
  have hbar : OneLine "|" := by decide
  rw [fitsRow_iff_cells, toRow_eq, oneLine_intercalate hbar]
  constructor
  · intro h
    refine ⟨fun cell hcell => (fitsCell_iff.mp (h cell hcell)).1, ?_⟩
    exact splitAt_intercalate rfl (by simp [cells]) fun cell hcell =>
      (fitsCell_iff.mp (h cell hcell)).2
  · rintro ⟨honeLine, hcells⟩ cell hcell
    exact fitsCell_iff.mpr ⟨honeLine cell hcell,
      separator_notMem_of_mem_splitAt (hcells.symm ▸ hcell)⟩

end Entry

namespace Report

/-- The lines in front of the rows: the heading, the outcome and the header of the table. -/
def head (r : Report) : List String :=
  ["# Requirements Report", "", "**Status:** " ++ r.status, "",
    "| Requirement | Kind | Actionable | Detail |", "|---|---|---|---|"]

/-- The report in Markdown is a table: behind the heading and the header it has a line for each
entry, in order, and each of them is split into its four cells at the bars. -/
structure IsTable (r : Report) : Prop where
  lines : lines r.toMarkdown = r.head ++ r.entries.map Entry.toRow
  cells : ∀ e ∈ r.entries, splitAt '|' e.toRow = e.cells

/-- The head of the report consists of single lines. -/
lemma oneLine_of_mem_head {r : Report} {line : String} (h : line ∈ r.head) : OneLine line := by
  have hstatus : OneLine ("**Status:** " ++ r.status) := by
    unfold status
    split <;> decide
  simp only [head, List.mem_cons, List.not_mem_nil, or_false] at h
  rcases h with rfl | rfl | rfl | rfl | rfl | rfl
  case inr.inr.inl => exact hstatus
  all_goals decide

/-- With failures, the report is its head and a row for each of them. -/
lemma toMarkdown_eq {r : Report} (h : r.entries ≠ []) :
    r.toMarkdown = "\n".intercalate (r.head ++ r.entries.map Entry.toRow) := by
  simp [toMarkdown, head, h]

/-- A report with entries is a table exactly if the label and the detail of each of them stay within
their cells. -/
theorem isTable_iff {r : Report} (h : r.entries ≠ []) :
    r.IsTable ↔ ∀ e ∈ r.entries, e.FitsRow := by
  constructor
  · intro htable e he
    have hrow : e.toRow ∈ lines r.toMarkdown := by
      rw [htable.lines]
      exact List.mem_append_right _ (List.mem_map_of_mem he)
    exact Entry.fitsRow_iff.mpr ⟨oneLine_of_mem_lines hrow, htable.cells e he⟩
  · intro hfits
    refine ⟨?_, fun e he => (Entry.fitsRow_iff.mp (hfits e he)).2⟩
    rw [toMarkdown_eq h]
    refine lines_intercalate (by simp [head]) fun line hline => ?_
    rcases List.mem_append.mp hline with hline | hline
    · exact oneLine_of_mem_head hline
    · obtain ⟨e, he, rfl⟩ := List.mem_map.mp hline
      exact (Entry.fitsRow_iff.mp (hfits e he)).1

end Report

/-! ### Expressions that were read -/

namespace Expr

/-- The parts of a proper expression are proper. -/
lemma Proper.of_mem_nodes {n e : Expr} (h : e.Proper) (hn : n ∈ e.nodes) : n.Proper := by
  induction e with
  | compare op lhs rhs ihl ihr =>
    rcases List.mem_cons.mp (nodes_compare op lhs rhs ▸ hn) with rfl | hn
    · exact h
    · exact (List.mem_append.mp hn).elim (ihl h.1) (ihr h.2)
  | logical op lhs rhs ihl ihr =>
    rcases List.mem_cons.mp (nodes_logical op lhs rhs ▸ hn) with rfl | hn
    · exact h
    · exact (List.mem_append.mp hn).elim (ihl h.1) (ihr h.2)
  | within operand set ih =>
    rcases List.mem_cons.mp (nodes_within operand set ▸ hn) with rfl | hn
    · exact h
    · exact ih h.1 hn
  | tagged operand tag ih =>
    rcases List.mem_cons.mp (nodes_tagged operand tag ▸ hn) with rfl | hn
    · exact h
    · exact ih h.1 hn
  | _ =>
    obtain rfl := List.mem_singleton.mp hn
    exact h

/-- What is left of a proper expression is proper. -/
theorem Proper.of_prune {options : List String} {e e' : Expr} (h : e.Proper)
    (hprune : e.prune options = some e') : e'.Proper := by
  induction e generalizing e' with
  | tagged operand tag ih =>
    rw [prune] at hprune
    split at hprune
    · obtain ⟨inner, hinner, rfl⟩ := Option.map_eq_some_iff.mp hprune
      exact ⟨ih h.1 hinner, h.2⟩
    · cases hprune
  | logical op lhs rhs ihl ihr =>
    rw [prune] at hprune
    split at hprune
    · rename_i l r hl hr
      cases hprune
      exact ⟨ihl h.1 hl, ihr h.2 hr⟩
    · rename_i l hl hr
      cases hprune
      exact ihl h.1 hl
    · exact ihr h.2 hprune
  | compare op lhs rhs ihl ihr =>
    rw [prune] at hprune
    split at hprune
    · rename_i l r hl hr
      cases hprune
      exact ⟨ihl h.1 hl, ihr h.2 hr⟩
    · cases hprune
  | within operand set ih =>
    rw [prune] at hprune
    obtain ⟨inner, hinner, rfl⟩ := Option.map_eq_some_iff.mp hprune
    exact ⟨ih h.1 hinner, h.2⟩
  | _ =>
    cases hprune
    exact h

end Expr

namespace Selection

/-- Every part of a program that an evaluation records is proper. -/
theorem proper_of_evaluate {p : Program} (h : p.Derived) {words : List String} {s : Selection}
    (hselect : p.select words = .ok s) {env : Environment} {settings : Settings} {t : Trace}
    (ht : (s.evaluate env settings).result = .ok t) : ∀ n ∈ t.nodes, n.expr.Proper := by
  intro n hn
  have hpart := (visits_of_evaluate ht n hn).parts n.expr.self_mem_nodes
  rw [Program.select_eq hselect] at hpart
  rcases List.mem_append.mp hpart with hmaster | hbody
  · exact h.master.proper.of_mem_nodes hmaster
  · obtain ⟨e, he, hmem⟩ := List.mem_flatMap.mp hbody
    obtain ⟨b, hb, hbody⟩ := List.mem_filterMap.mp he
    obtain ⟨d, hd, rfl⟩ := List.mem_map.mp hb
    have hproper : d.body.Proper := (h.definitions d hd).body
    simp only [Binding.ofDefinition] at hbody
    split at hbody
    · exact (hproper.of_prune hbody).of_mem_nodes hmem
    · cases hbody
      exact hproper.of_mem_nodes hmem

end Selection

/-! ### Versions that modules declare -/

namespace Version

variable {text : String} {v : Version}

/-- A version that was read is shown within a cell. -/
theorem fitsCell_of_ofText? (h : ofText? text = some v) : FitsCell v.toText := by
  obtain ⟨s, -, rfl⟩ := ofText?_eq_some_iff.mp h
  refine fitsCell_of_forall (p := fun c => c == 'v' || isLiteralChar c) (by decide) fun c hc => ?_
  rw [s.toText_version, String.toList_ofList] at hc
  rcases List.mem_append.mp hc with hmark | hliteral
  · simp [eq_of_mem_sign hmark]
  · simp [s.literal.isLiteralChar_of_mem hliteral]

/-- There is no bar in a text that is read as a version: it is the version with blanks around it. -/
theorem bar_notMem_of_ofText? (h : ofText? text = some v) : '|' ∉ text.toList := by
  obtain ⟨s, hs, -⟩ := ofText?_eq_some_iff.mp h
  obtain ⟨front, back, hfront, hback, htext⟩ := betweenBlanks_trimBlanks text.toList
  rw [htext, ← hs]
  have hblank : isBlank '|' = false := by decide
  intro hbar
  simp only [List.mem_append] at hbar
  rcases hbar with (hbar | hbar) | hbar
  · rw [hfront _ hbar] at hblank
    cases hblank
  · rcases List.mem_append.mp hbar with hmark | hliteral
    · exact absurd (eq_of_mem_sign hmark) (by decide)
    · exact s.literal.ne_of_mem hliteral (by decide) rfl
  · rw [hback _ hbar] at hblank
    cases hblank

end Version

/-- The version that a module was found to declare is read from its record, which has none if none
was found. -/
theorem ModuleRecord.rel_of_declaredVersion {record : ModuleRecord} {name : String}
    {version : Option Version} (h : Evaluation.declaredVersion name record = .ok version) :
    Option.Rel (fun text v => Version.ofText? text = some v) record.version version := by
  unfold Evaluation.declaredVersion at h
  split at h
  · rename_i hnone
    cases h
    rw [hnone]
    exact .none
  · rename_i text htext
    rw [htext]
    unfold Value.readVersion at h
    split at h
    · rename_i v hread
      cases h
      exact .some hread
    · cases h

/-! ### What is put in the row of a part -/

namespace Trace

/-- What is put in the row of a part stays within its cells. A version that is said not to satisfy a
condition has no line break in front of it or behind it. The arguments of a probe hold no bar and no
carriage return, which the label shows as they are, and those that were not found no line feed. All
parts of a comparison or set test are printed within a cell, and if the platform is to blame, there
is no bar in its name. -/
def FitsRow (t : Trace) : Prop :=
  match t with
  | package _ _ _ (some f) =>
    f.accepted = some false → ∀ text, f.declared = some text → OneLine text
  | probe _ args found =>
    (∀ arg ∈ args, '|' ∉ arg.toList ∧ '\r' ∉ arg.toList) ∧
      ∀ arg ∈ missing found, '\n' ∉ arg.toList
  | compare _ _ _ _ | within _ _ _ _ =>
    (∀ n ∈ t.expr.nodes, n.PrintsPlain) ∧
      ∀ f, t.ownFailure? = some f → f.kind = .platformMismatch →
        ∀ s, osname s ∈ t.nodes → '|' ∉ s.toList
  | _ => True

/-- The parts of a part are parts of the whole. -/
lemma nodes_subset_of_mem_nodes {n t : Trace} (h : n ∈ t.nodes) : n.nodes ⊆ t.nodes := by
  induction t using childInduction with
  | h t ih =>
    rcases mem_nodes_iff.mp h with rfl | ⟨c, hc, hn⟩
    · exact List.Subset.refl _
    · exact fun m hm => mem_nodes_iff.mpr (.inr ⟨c, hc, ih c hc hn hm⟩)

section

variable {env : Environment} {asked : List Query}

/-- The module that a proper part names has a name that can be written. -/
lemma isName_of_packageName? {n : Trace} (h : n.expr.Proper) {name : String}
    (hname : n.packageName? = some name) : IsName name := by
  cases n with
  | package => exact Option.some.inj hname ▸ h.1
  | _ => cases hname

/-- The version of a module that was visited is shown within a cell. -/
theorem fitsCell_of_packageVersionText? {n : Trace} (h : n.expr.Proper) (htrue : n.TrueOf env asked)
    {text : String} (htext : n.packageVersionText? = some text) : FitsCell text := by
  cases n with
  | package name constraint features finding =>
    cases finding with
    | none => cases htext
    | some f =>
      obtain ⟨v, hv, rfl⟩ := Option.map_eq_some_iff.mp htext
      obtain ⟨record, -, hf⟩ := htrue
      have hrel := ModuleRecord.rel_of_declaredVersion hf.version
      rw [hv] at hrel
      generalize record.version = declared at hrel
      cases hrel with
      | some hread => simp +decide [fitsCell_of_isName h.1, Version.fitsCell_of_ofText? hread]
  | _ => cases htext

/-- What was found of the platform is shown within a cell unless there is a bar in its name. -/
theorem forall_platformText?_fitsCell_iff (visited : List Trace) :
    (∀ text ∈ visited.filterMap platformText?, FitsCell text) ↔
      ∀ s, osname s ∈ visited → '|' ∉ s.toList := by
  have hosname (s : String) : FitsCell (Expr.braced Platform.osname.name ++ " is " ++ quoted s) ↔
      '|' ∉ s.toList := by
    simp +decide [fitsCell_quoted]
  constructor
  · intro h s hs
    exact (hosname s).mp (h _ (List.mem_filterMap.mpr ⟨osname s, hs, rfl⟩))
  · intro h text htext
    obtain ⟨n, hn, htext⟩ := List.mem_filterMap.mp htext
    cases n with
    | osname s =>
      cases htext
      exact (hosname s).mpr (h s hn)
    | ithreads b =>
      cases htext
      cases b <;> decide
    | _ => cases htext

/-- The detail on a comparison or set test stays within its cell if the text of the test does, and
no bar is in the name of the platform where that is to blame. -/
theorem fitsCell_comparisonFailure_iff {text : String} {operands : List Trace}
    (hproper : ∀ n ∈ operands.flatMap nodes, n.expr.Proper)
    (htrue : ∀ n ∈ operands.flatMap nodes, n.TrueOf env asked) :
    FitsCell (comparisonFailure text operands).detail ↔ FitsCell text ∧
      ((comparisonFailure text operands).kind = .platformMismatch →
        ∀ s, osname s ∈ operands.flatMap nodes → '|' ∉ s.toList) := by
  have hcomma : FitsCell ", " := by decide
  unfold comparisonFailure
  split
  · rename_i name others hnames
    have hmem : name ∈ ((operands.filter unversioned).flatMap nodes).filterMap packageName? :=
      hnames ▸ List.mem_cons_self
    obtain ⟨n, hn, hname⟩ := List.mem_filterMap.mp hmem
    obtain ⟨t, ht, hn⟩ := List.mem_flatMap.mp hn
    have hvisited := List.mem_flatMap_of_mem (List.mem_of_mem_filter ht) hn
    have hfits := fitsCell_of_isName (isName_of_packageName? (hproper n hvisited) hname)
    simp +decide [hfits]
  · split
    · have hvalues := forall_platformText?_fitsCell_iff (operands.flatMap nodes)
      rw [← fitsCell_intercalate hcomma] at hvalues
      rw [← hvalues]
      simp +decide
    · split
      · have hversions : FitsCell (", ".intercalate
            ((operands.flatMap nodes).filterMap packageVersionText?)) := by
          rw [fitsCell_intercalate hcomma]
          intro version hversion
          obtain ⟨n, hn, hversion⟩ := List.mem_filterMap.mp hversion
          exact fitsCell_of_packageVersionText? (hproper n hn) (htrue n hn) hversion
        dsimp only
        split <;> simp +decide [hversions]
      · simp +decide

/-- The row of a module stays in shape unless there is a line break around the version that does not
satisfy the condition. -/
theorem fitsRow_package_iff {name : String} {constraint : Option Constraint}
    {features : List String} {finding : Option Finding}
    (hproper : (Expr.package name constraint features).Proper)
    (htrue : (package name constraint features finding).TrueOf env asked) :
    FitsCell (package name constraint features finding).label ∧
        FitsCell (packageFailure name constraint features finding).detail ↔
      (package name constraint features finding).FitsRow := by
  have hname : FitsCell name := fitsCell_of_isName hproper.1
  have hformat : FitsCell (Expr.package name constraint features).format := by
    rw [Expr.fitsCell_format_iff hproper]
    simp [Expr.nodes, Expr.nodesOnto, Expr.PrintsPlain]
  have hlabel : FitsCell (package name constraint features finding).label := hformat
  cases finding with
  | none => simp +decide [packageFailure, FitsRow, hname, hlabel]
  | some f =>
    obtain ⟨record, -, hf⟩ := htrue
    by_cases hrejected : f.accepted = some false
    · cases hdeclared : f.declared with
      | none => simp +decide [packageFailure, FitsRow, hrejected, hdeclared, hname, hlabel]
      | some text =>
        have hbar : '|' ∉ text.toList := by
          have hrel := ModuleRecord.rel_of_declaredVersion hf.version
          rw [← hf.declared, hdeclared] at hrel
          generalize f.version = version at hrel
          cases hrel with
          | some hread => exact Version.bar_notMem_of_ofText? hread
        have htext : FitsCell text ↔ OneLine text := by simp [fitsCell_iff, hbar]
        simp +decide [packageFailure, FitsRow, hrejected, hdeclared, hname, hformat, hlabel, htext]
    · have hmissing : FitsCell (", ".intercalate (missing f.features)) := by
        rw [fitsCell_intercalate (by decide)]
        intro feature hfeature
        have hlisted := (hf.features.told_of_mem (mem_missing_iff.mp hfeature)).1
        split at hlisted
        · exact fitsCell_of_isName (hproper.2.2 feature hlisted)
        · cases hlisted
      simp +decide [packageFailure, FitsRow, hrejected, hname, hlabel, hmissing]

/-- The row of a probe stays in shape unless there is a bar or a carriage return in an argument, or
a line feed in one that was not found. -/
theorem fitsRow_probe_iff {kind : Probe} {args : List String} {found : List (String × Bool)}
    (htrue : (probe kind args found).TrueOf env asked) :
    FitsCell (probe kind args found).label ∧
        FitsCell ("Not found: " ++ ", ".intercalate (missing found)) ↔
      (probe kind args found).FitsRow := by
  have hcomma : FitsCell ", " := by decide
  have hlabel : FitsCell (probe kind args found).label ↔
      ∀ arg ∈ args, '|' ∉ arg.toList ∧ '\r' ∉ arg.toList := by
    have hformat := Expr.fitsCell_format_iff (e := .probe kind args) trivial
    simpa [label, expr, Expr.nodes, Expr.nodesOnto, Expr.PrintsPlain] using hformat
  have hheading : FitsCell "Not found: " := by decide
  rw [hlabel, fitsCell_append, fitsCell_intercalate hcomma]
  refine and_congr_right fun hargs => ?_
  -- An argument that was not found is one of those whose other characters the label shows.
  have hmissing (arg : String) (harg : arg ∈ missing found) : FitsCell arg ↔ '\n' ∉ arg.toList := by
    have hmem := (ListsTold.told_of_mem htrue (mem_missing_iff.mp harg)).1
    simp [fitsCell_iff, OneLine, hargs arg hmem]
  exact ⟨fun h arg harg => (hmissing arg harg).mp (h.2 arg harg),
    fun h => ⟨hheading, fun arg harg => (hmissing arg harg).mpr (h arg harg)⟩⟩

/-- The row of a comparison or set test stays in shape if the test is printed within its cell, and
no bar is in the name of the platform where that is to blame. -/
theorem fitsRow_test_iff {u : Trace} {operands : List Trace} (htest : u.isTest = true)
    (hnodes : u.nodes = u :: operands.flatMap nodes) (hproper : ∀ n ∈ u.nodes, n.expr.Proper)
    (htrue : u.AllTrueOf env asked)
    (hfailure : u.ownFailure? = some (comparisonFailure u.label operands)) :
    FitsCell u.label ∧ FitsCell (comparisonFailure u.label operands).detail ↔ u.FitsRow := by
  have hoperands : operands.flatMap nodes ⊆ u.nodes := hnodes ▸ List.subset_cons_self _ _
  have hosname (s : String) : osname s ∈ u.nodes ↔ osname s ∈ operands.flatMap nodes := by
    rw [hnodes, List.mem_cons, or_iff_right]
    rintro rfl
    cases htest
  have hself : u.expr.Proper := hproper u (mem_nodes_iff.mpr (.inl rfl))
  have hlabel : FitsCell u.label ↔ ∀ n ∈ u.expr.nodes, n.PrintsPlain := by
    rw [← Expr.fitsCell_format_iff hself]
    cases u with
    | compare | within => rfl
    | _ => cases htest
  have hrow : u.FitsRow ↔ (∀ n ∈ u.expr.nodes, n.PrintsPlain) ∧
      ∀ f, u.ownFailure? = some f → f.kind = .platformMismatch →
        ∀ s, osname s ∈ u.nodes → '|' ∉ s.toList := by
    cases u with
    | compare | within => rfl
    | _ => cases htest
  rw [hrow, ← hlabel, fitsCell_comparisonFailure_iff (fun n hn => hproper n (hoperands hn))
    fun n hn => htrue n (hoperands hn), and_self_left]
  simp only [hfailure, Option.some.injEq, forall_eq', hosname]

/-- The label and the detail on a part that does not hold stay within their cells exactly if nothing
in the part and in what was found of it breaks the row. -/
theorem fitsRow_iff {u : Trace} {f : Failure} (hproper : ∀ n ∈ u.nodes, n.expr.Proper)
    (htrue : u.AllTrueOf env asked) (huntrue : u.truthy = false)
    (hfailure : u.ownFailure? = some f) :
    FitsCell u.label ∧ FitsCell f.detail ↔ u.FitsRow := by
  have hself := hproper u (mem_nodes_iff.mpr (.inl rfl))
  have hselftrue := htrue u (mem_nodes_iff.mpr (.inl rfl))
  cases u with
  | package name constraint features finding =>
    cases hfailure
    exact fitsRow_package_iff hself hselftrue
  | probe kind args found =>
    cases hfailure
    exact fitsRow_probe_iff hselftrue
  | unselected name =>
    cases hfailure
    have hname : FitsCell name := fitsCell_of_isName hself
    simp +decide [label, expr, Expr.format, Expr.braced, FitsRow, hname]
  | bool b =>
    cases hfailure
    cases b <;> exact iff_of_true (by decide) trivial
  | text s =>
    cases hfailure
    obtain rfl : s = "" := by simpa [truthy, value, Value.ofText] using huntrue
    exact iff_of_true (by decide) trivial
  | osname s =>
    cases hfailure
    obtain rfl : s = "" := by simpa [truthy, value, Value.ofText] using huntrue
    exact iff_of_true (by decide) trivial
  | ithreads b =>
    cases hfailure
    cases b <;> exact iff_of_true (by decide) trivial
  | logical op lhs rhs truthy =>
    cases op with
    | xor =>
      simp only [ownFailure?] at hfailure
      split at hfailure
      · cases hfailure
        simp +decide [label, LogicalOp.symbol, FitsRow]
      · cases hfailure
    | and | or => cases hfailure
  | compare op lhs rhs truthy =>
    have htest := hfailure
    simp only [ownFailure?, comparisonFailure?] at hfailure
    split at hfailure
    · cases hfailure
    · cases hfailure
      exact fitsRow_test_iff rfl (by simp) hproper htrue htest
  | within operand set tested truthy =>
    have htest := hfailure
    simp only [ownFailure?, comparisonFailure?] at hfailure
    split at hfailure
    · cases hfailure
    · cases hfailure
      exact fitsRow_test_iff rfl (by simp) hproper htrue htest
  | _ => cases hfailure

end

end Trace

namespace Program

/-- A report that has entries is a table in Markdown, with a line for each entry and four cells in
each line, exactly if nothing that is reported breaks its row. What breaks a row is put in it as it
is: a version with a line break around it, arguments of probes and literals with a bar or a carriage
return, a line feed in an argument that was not found, a connective `||` in a comparison or set
test, and a bar in the name of the platform. -/
theorem markdown_isTable_iff {source : String} {p : Program} (hcompile : compile source = .ok p)
    {words : List String} {s : Selection} (hselect : p.select words = .ok s) {env : Environment}
    {settings : Settings} {t : Trace} (h : (s.evaluate env settings).result = .ok t)
    (hentries : t.entries ≠ []) :
    s.check env settings = .ok (t.report s.options) ∧
      (∀ e a u, t.Reports a u → t.Describes a e u → (e.FitsRow ↔ u.FitsRow)) ∧
      ((t.report s.options).IsTable ↔ ∀ a u, t.Reports a u → u.FitsRow) := by
  have hrow (e : Entry) (a : List Nat) (u : Trace) (hreports : t.Reports a u)
      (hdescribes : t.Describes a e u) : e.FitsRow ↔ u.FitsRow := by
    have hu := Trace.nodes_subset_of_mem_nodes (Trace.mem_nodes_of_part? hdescribes.part)
    have hlabel : e.path.getLastD "" = u.label := by simp [hdescribes.path]
    rw [Entry.FitsRow, hlabel]
    exact Trace.fitsRow_iff
      (fun n hn => Selection.proper_of_evaluate (derived_of_compile hcompile).1 hselect h n (hu hn))
      (fun n hn => Selection.allTrueOf_of_evaluate h n (hu hn)) hreports.untrue hdescribes.failure
  refine ⟨by rw [Selection.check, h]; rfl, hrow, ?_⟩
  rw [Report.isTable_iff hentries]
  constructor
  · intro hfits a u hreports
    obtain ⟨e, he, hdescribes⟩ := hreports.exists_mem_entries
    exact (hrow e a u hreports hdescribes).mp (hfits e he)
  · intro hfits e he
    obtain ⟨a, u, hreports, hdescribes⟩ := Trace.exists_reports_of_mem_entries he
    exact (hrow e a u hreports hdescribes).mpr (hfits a u hreports)

/-- A module of an older version, a library that is not there and a platform without threads make a
table with three rows. -/
theorem markdown_isTable_of_three_failures :
    let source := "DBI >= 2 || HAS_LIB('z') || \x7bITHREADS\x7d"
    let dbi : Constraint := .compare .ge ⟨[.number 2], "2"⟩
    let p : Program := ⟨[], .logical .or
      (.logical .or (.package "DBI" (some dbi) []) (.probe .library ["z"]))
      (.platform .ithreads)⟩
    let s : Selection := ⟨[], [], p.master⟩
    let env := ({ registry := ⟨[⟨"DBI", some "1", []⟩]⟩ } : SystemDescription).environment
    let t : Trace := .logical .or
      (.logical .or
        (.package "DBI" (some dbi) [] (some ⟨some "1", some ⟨[.number 1], "1"⟩, some false, []⟩))
        (.probe .library ["z"] [("z", false)]) false)
      (.ithreads false) false
    compile source = .ok p ∧ p.select [] = .ok s ∧ (s.evaluate env {}).result = .ok t ∧
      (t.report s.options).IsTable ∧ t.entries.length = 3 ∧ ∀ a u, t.Reports a u → u.FitsRow := by
  intro source dbi p s env t
  have hcompile : compile source = .ok p := by decide +kernel
  have hselect : p.select [] = .ok s := by decide +kernel
  have hrun : (s.evaluate env {}).result = .ok t := rfl
  have hentries : t.entries ≠ [] := by decide
  have htable : (t.report s.options).IsTable :=
    (Report.isTable_iff hentries).mpr (by unfold Entry.FitsRow; decide +kernel)
  exact ⟨hcompile, hselect, hrun, htable, by decide,
    (markdown_isTable_iff hcompile hselect hrun hentries).2.2.mp htable⟩

/-- A library with a line feed in its name that was not found is a row of two lines: the label
writes the line feed as an escape, and the detail does not. -/
theorem exists_row_of_two_lines :
    let source := "HAS_LIB('b\\nc')"
    let p : Program := ⟨[], .probe .library ["b\nc"]⟩
    let s : Selection := ⟨[], [], p.master⟩
    let r : Report := ⟨false, [⟨["HAS_LIB('b\\nc')"], .missingLib, true, "Not found: b\nc", false⟩],
      []⟩
    compile source = .ok p ∧ p.select [] = .ok s ∧
      s.check ({} : SystemDescription).environment {} = .ok r ∧
      lines r.toMarkdown =
        r.head ++ ["| `HAS_LIB('b\\nc')` | missing_lib | yes | Not found: b", "c |"] ∧
      ¬r.IsTable := by
  intro source p s r
  have hmarkdown : r.toMarkdown = "\n".intercalate
      (r.head ++ ["| `HAS_LIB('b\\nc')` | missing_lib | yes | Not found: b", "c |"]) := by
    decide +kernel
  refine ⟨by decide +kernel, by decide +kernel, rfl, ?_, fun htable => ?_⟩
  · rw [hmarkdown]
    exact lines_intercalate (by simp) (by decide +kernel)
  · have hfits := (Report.isTable_iff (by decide)).mp htable _ List.mem_cons_self
    exact absurd hfits.2 (by decide)

end Program

end Requirements
