import Mathlib.Tactic.Lemma
import Requirements.Proofs.Evaluation.Reuse
import Requirements.Proofs.Program.Selection

/-!
# First references

The outline of a trace lists its parts in the order of the visit, and leaves out what lies below a
reference whose definition was evaluated before. Nothing is lost by that: every part of the trace is
listed somewhere. Of the references to one definition, the first one that is listed is the one at
which the body was evaluated, and all others repeat its trace.
-/

namespace Requirements

/-! ### The parts that are listed -/

namespace Trace

/-- The parts that the outline of a trace lists. -/
def listed (t : Trace) : List Trace :=
  t.outline.map Prod.snd

/-- What is put in front of a list depends neither on the depth nor on the list. -/
theorem map_outlineOnto (t : Trace) (depth : Nat) (rest : List (Nat × Trace)) :
    (t.outlineOnto depth rest).map Prod.snd = t.listed ++ rest.map Prod.snd := by
  induction t generalizing depth rest with
  | reference name isChoice cached body ih =>
    rw [listed, outline]
    cases cached with
    | true => rfl
    | false => simp [outlineOnto, ih]
  | tagged operand tag ih =>
    rw [listed, outline]
    simp [outlineOnto, ih]
  | within operand set tested truthy ih =>
    rw [listed, outline]
    simp [outlineOnto, ih]
  | shortCircuit op lhs skipped truthy ih =>
    rw [listed, outline]
    simp [outlineOnto, ih]
  | compare op lhs rhs truthy ihl ihr | logical op lhs rhs truthy ihl ihr =>
    rw [listed, outline]
    simp [outlineOnto, ihl, ihr]
  | _ => rfl

/-- A trace is listed before what its operands list, and a reused reference alone. -/
theorem listed_eq (t : Trace) :
    t.listed = t :: if t.isReused then [] else t.children.flatMap listed := by
  rw [listed, outline]
  cases t with
  | reference name isChoice cached body =>
    cases cached <;> simp [outlineOnto, map_outlineOnto, isReused, children]
  | tagged | within | shortCircuit | compare | logical =>
    simp [outlineOnto, map_outlineOnto, isReused, children]
  | _ => rfl

/-- What is listed is what is shown. -/
theorem mem_listed_iff {t u : Trace} : u ∈ t.listed ↔ t.Shows u := by
  induction t using childInduction with
  | h t ih =>
    rw [listed_eq, shows_iff, List.mem_cons, eq_comm (a := u)]
    refine or_congr_right ?_
    cases t.isReused with
    | true => simp
    | false =>
      simp only [Bool.false_eq_true, if_false, List.mem_flatMap, true_and]
      exact exists_congr fun c => and_congr_right fun hc => ih c hc

/-- A trace that shows a part shows the operands of the part, unless it is a reused reference. -/
theorem Shows.child {t u c : Trace} (h : t.Shows u) (hu : u.isReused = false)
    (hc : c ∈ u.children) : t.Shows c := by
  obtain ⟨a, ha⟩ := h
  obtain ⟨i, hi⟩ := List.mem_iff_getElem?.mp hc
  exact ⟨a ++ [i], ha.child hu hi⟩

end Trace

/-- A trace from the start shows each of its parts somewhere: what lies below a reused reference is
shown below a first one. -/
theorem Records.shows_of_mem_nodes {t u : Trace} {q : Progress} (h : Records {} [t] q)
    (hu : u ∈ t.nodes) : t.Shows u := by
  suffices hbelow : ∀ v, t.Shows v → u ∈ v.nodes → t.Shows u from
    hbelow t ⟨[], Trace.reaches_nil_iff.mpr rfl⟩ hu
  intro v hv hu
  induction v using Trace.childInduction with
  | h v ih =>
    rcases Trace.mem_nodes_iff.mp hu with rfl | ⟨c, hc, huc⟩
    · exact hv
    cases hreused : v.isReused with
    | false => exact ih c hc (hv.child hreused hc) huc
    | true =>
      cases v with
      | reference name isChoice cached body =>
        obtain rfl : cached = true := hreused
        obtain rfl : c = body := List.mem_singleton.mp hc
        have hkept : (name, c) ∈ q.results :=
          h.kept t (List.mem_singleton_self t) name isChoice c hv
        rcases h.shown name c hkept with hmem | ⟨t', ht', isChoice', hfirst⟩
        · cases hmem
        · obtain rfl := List.mem_singleton.mp ht'
          exact ih c hc (hfirst.child rfl hc) huc
      | _ => cases hreused

/-! ### References to one definition -/

namespace Trace

/-- The references to a definition that a trace lists, in order. -/
def references (t : Trace) (name : String) : List Trace :=
  t.listed.filter fun n => n.expr = .reference name

/-- The references that a part lists are itself, if it is one, and those that its operands list,
unless it is a reused one. -/
theorem references_eq (t : Trace) (name : String) :
    t.references name = (if t.expr = .reference name then [t] else []) ++
      if t.isReused then [] else t.children.flatMap fun c => c.references name := by
  rw [references, listed_eq, List.filter_cons]
  have htail : (if t.isReused then [] else t.children.flatMap listed).filter
      (fun n => n.expr = .reference name) =
        if t.isReused then [] else t.children.flatMap fun c => c.references name := by
    cases t.isReused with
    | true => rfl
    | false => exact List.filter_flatMap
  rw [htail]
  by_cases h : t.expr = .reference name <;> simp [h]

/-- No definition is referred to below a name, a probe or a literal. -/
lemma references_of_isAtom {t : Trace} (h : t.expr.isAtom = true) (name : String) :
    t.references name = [] := by
  rw [references_eq, children_of_isAtom h, if_neg]
  · simp
  · intro heq
    rw [heq] at h
    cases h

/-- A reference to an unselected choice is one to its name only. -/
@[simp] lemma references_unselected (m name : String) :
    (unselected m).references name = if m = name then [unselected m] else [] := by
  rw [references_eq]
  simp [expr, children]

/-- A reference comes first, then those in its body, of which a repeated one shows none. -/
@[simp] lemma references_reference (m : String) (isChoice cached : Bool) (body : Trace)
    (name : String) : (reference m isChoice cached body).references name =
      (if m = name then [reference m isChoice cached body] else []) ++
        if cached then [] else body.references name := by
  rw [references_eq]
  simp [expr, isReused, children]

/-- A tag is no reference. -/
@[simp] lemma references_tagged (operand : Trace) (tag name : String) :
    (tagged operand tag).references name = operand.references name := by
  rw [references_eq]
  simp [expr, isReused, children]

/-- A set test refers to what its operand does. -/
@[simp] lemma references_within (operand : Trace) (set : Version.RangeSet)
    (tested : Option Version) (truthy : Bool) (name : String) :
    (within operand set tested truthy).references name = operand.references name := by
  rw [references_eq]
  simp [expr, isReused, children]

/-- An operand that is skipped refers to nothing. -/
@[simp] lemma references_shortCircuit (op : LogicalOp) (lhs : Trace) (skipped : Expr)
    (truthy : Bool) (name : String) :
    (shortCircuit op lhs skipped truthy).references name = lhs.references name := by
  rw [references_eq]
  simp [expr, isReused, children]

/-- The references of a comparison are those of its left side, then those of its right side. -/
@[simp] lemma references_compare (op : CompareOp) (lhs rhs : Trace) (truthy : Bool)
    (name : String) : (compare op lhs rhs truthy).references name =
      lhs.references name ++ rhs.references name := by
  rw [references_eq]
  simp [expr, isReused, children]

/-- The references of a connective are those of its left operand, then those of its right one. -/
@[simp] lemma references_logical (op : LogicalOp) (lhs rhs : Trace) (truthy : Bool)
    (name : String) : (logical op lhs rhs truthy).references name =
      lhs.references name ++ rhs.references name := by
  rw [references_eq]
  simp [expr, isReused, children]

end Trace

/-- The references `ts` to a definition, one after the other, use its result as they should, if
`kept` is its result before and `kept'` after them: the first one without a result brings it, and
from then on every reference repeats it. -/
inductive Uses (name : String) (isChoice : Bool) :
    Option Trace → List Trace → Option Trace → Prop
  | nil (kept : Option Trace) : Uses name isChoice kept [] kept
  | first {body : Trace} {ts : List Trace} {kept' : Option Trace} :
    Uses name isChoice (some body) ts kept' →
    Uses name isChoice none (.reference name isChoice false body :: ts) kept'
  | again {body : Trace} {ts : List Trace} {kept' : Option Trace} :
    Uses name isChoice (some body) ts kept' →
    Uses name isChoice (some body) (.reference name isChoice true body :: ts) kept'

namespace Uses

variable {name : String} {isChoice : Bool} {kept kept' kept'' : Option Trace} {ts us : List Trace}

/-- Uses go on from the result that was kept before. -/
lemma append (h : Uses name isChoice kept ts kept') (h' : Uses name isChoice kept' us kept'') :
    Uses name isChoice kept (ts ++ us) kept'' := by
  induction h with
  | nil => exact h'
  | first _ ih => exact .first (ih h')
  | again _ ih => exact .again (ih h')

/-- Once there is a result, every reference repeats it. -/
theorem eq_replicate {body : Trace} (h : Uses name isChoice (some body) ts kept') :
    ts = List.replicate ts.length (.reference name isChoice true body) := by
  generalize hkept : some body = kept at h
  induction h with
  | nil => rfl
  | first => cases hkept
  | again _ ih =>
    cases hkept
    rw [List.length_cons, List.replicate_succ, ← ih rfl]

/-- Without a result before, the first reference is the one that brings it. -/
theorem eq_first_replicate (h : Uses name isChoice none ts kept') (hne : ts ≠ []) :
    ∃ body count, ts = .reference name isChoice false body ::
      List.replicate count (.reference name isChoice true body) := by
  cases h with
  | nil => exact absurd rfl hne
  | first h => exact ⟨_, _, congrArg _ h.eq_replicate⟩

end Uses

/-! ### Evaluations -/

namespace Selection

variable {s : Selection} {results results' : List (String × Trace)} {e : Expr} {t : Trace}
  {order : List String} {name : String}

/-- If all references lead to names in order, another name is not referred to, and its result stays
as it is. -/
theorem Yields.references_eq_nil (h : s.Yields results e t results') (hordered : s.Ordered order)
    (he : e.references ⊆ order) (hname : name ∉ order) :
    t.references name = [] ∧ results'.lookup name = results.lookup name := by
  induction h with
  | atom hatom heq => exact ⟨Trace.references_of_isAtom (heq ▸ hatom) name, rfl⟩
  | @reused _ name' | @unselected _ name' =>
    have hne : name' ≠ name := fun heq =>
      hname (he (Expr.mem_references_reference.mpr heq.symm))
    simp [hne]
  | @fresh _ _ name' _ _ _ hfind _ hbody _ ih =>
    have hmem : name' ∈ order := he (Expr.mem_references_reference.mpr rfl)
    have hne : name' ≠ name := fun heq => hname (heq ▸ hmem)
    obtain ⟨hrefs, hlookup⟩ := ih (hordered.references_subset hmem hfind hbody)
    simp [hne, hrefs, List.lookup_cons, beq_false_of_ne hne.symm, hlookup]
  | tagged _ _ ih =>
    obtain ⟨hrefs, hlookup⟩ := ih fun x hx => he (Expr.mem_references_tagged.mpr hx)
    simp [hrefs, hlookup]
  | within _ _ _ ih =>
    obtain ⟨hrefs, hlookup⟩ := ih fun x hx => he (Expr.mem_references_within.mpr hx)
    simp [hrefs, hlookup]
  | shortCircuit _ _ _ ih =>
    obtain ⟨hrefs, hlookup⟩ := ih fun x hx => he (Expr.mem_references_logical.mpr (.inl hx))
    simp [hrefs, hlookup]
  | compare _ _ _ ihl ihr =>
    obtain ⟨hl, hlookup⟩ := ihl fun x hx => he (Expr.mem_references_compare.mpr (.inl hx))
    obtain ⟨hr, hlookup'⟩ := ihr fun x hx => he (Expr.mem_references_compare.mpr (.inr hx))
    simp [hl, hr, hlookup, hlookup']
  | logical _ _ _ ihl ihr =>
    obtain ⟨hl, hlookup⟩ := ihl fun x hx => he (Expr.mem_references_logical.mpr (.inl hx))
    obtain ⟨hr, hlookup'⟩ := ihr fun x hx => he (Expr.mem_references_logical.mpr (.inr hx))
    simp [hl, hr, hlookup, hlookup']

/-- An evaluation uses the result of a definition that has a body: the first reference without a
result brings it, all others repeat it. The body does not refer to its own name, so the trace behind
the first reference lists no second one. -/
theorem Yields.uses (h : s.Yields results e t results') (hordered : s.Ordered order)
    (he : e.references ⊆ order) {b : Binding} {body : Expr} (hfind : s.find? name = some b)
    (hbody : b.body = some body) :
    Uses name b.isChoice (results.lookup name) (t.references name) (results'.lookup name) := by
  induction h with
  | atom hatom heq =>
    rw [Trace.references_of_isAtom (heq ▸ hatom)]
    exact .nil _
  | @reused _ name' b' _ hfind' hlookup =>
    by_cases heq : name' = name
    · subst heq
      obtain rfl := Option.some.inj (hfind.symm.trans hfind')
      simpa [hlookup] using Uses.again (.nil _)
    · simpa [heq] using Uses.nil _
  | @unselected _ name' b' hfind' _ hbody' =>
    have hne : name' ≠ name := by
      rintro rfl
      obtain rfl := Option.some.inj (hfind.symm.trans hfind')
      cases hbody.symm.trans hbody'
    simpa [hne] using Uses.nil _
  | @fresh _ _ name' b' _ _ hfind' hlookup hbody' hyields ih =>
    have hmem : name' ∈ order := he (Expr.mem_references_reference.mpr rfl)
    by_cases heq : name' = name
    · subst heq
      obtain rfl := Option.some.inj (hfind.symm.trans hfind')
      obtain ⟨rest, hrest, hbehind, hrefs⟩ := hordered.exists_behind hmem hfind' hbody'
      obtain ⟨hnone, -⟩ := hyields.references_eq_nil hrest hrefs hbehind
      simpa [hlookup, hnone] using Uses.first (.nil _)
    · have huses := ih (hordered.references_subset hmem hfind' hbody')
      simpa [heq, List.lookup_cons, beq_false_of_ne (Ne.symm heq)] using huses
  | tagged _ _ ih => simpa using ih fun x hx => he (Expr.mem_references_tagged.mpr hx)
  | within _ _ _ ih => simpa using ih fun x hx => he (Expr.mem_references_within.mpr hx)
  | shortCircuit _ _ _ ih =>
    simpa using ih fun x hx => he (Expr.mem_references_logical.mpr (.inl hx))
  | compare _ _ _ ihl ihr =>
    have hl := ihl fun x hx => he (Expr.mem_references_compare.mpr (.inl hx))
    have hr := ihr fun x hx => he (Expr.mem_references_compare.mpr (.inr hx))
    simpa using hl.append hr
  | logical _ _ _ ihl ihr =>
    have hl := ihl fun x hx => he (Expr.mem_references_logical.mpr (.inl hx))
    have hr := ihr fun x hx => he (Expr.mem_references_logical.mpr (.inr hx))
    simpa using hl.append hr

/-- In the trace of a successful evaluation, the references to a definition that has a body, if
there are any, are a first one and others that repeat it. -/
theorem references_of_evaluate {env : Environment} {settings : Settings}
    (hordered : s.Ordered order) (hmaster : s.master.references ⊆ order)
    (h : (s.evaluate env settings).result = .ok t) {b : Binding} {body : Expr}
    (hfind : s.find? name = some b) (hbody : b.body = some body)
    (hn : ∃ n ∈ t.nodes, n.expr = .reference name) :
    ∃ c count, t.references name = .reference name b.isChoice false c ::
      List.replicate count (.reference name b.isChoice true c) := by
  obtain ⟨results, hyields⟩ := exists_yields h
  refine (hyields.uses hordered hmaster hfind hbody).eq_first_replicate ?_
  obtain ⟨n, hn, hexpr⟩ := hn
  have hlisted : n ∈ t.listed := Trace.mem_listed_iff.mpr (hyields.records.shows_of_mem_nodes hn)
  exact List.ne_nil_of_mem (List.mem_filter.mpr ⟨hlisted, by simpa using hexpr⟩)

end Selection

end Requirements
