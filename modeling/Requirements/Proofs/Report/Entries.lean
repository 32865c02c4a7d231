import Mathlib.Data.List.Forall2
import Requirements.Proofs.Report.Addresses

/-!
# The entries of a report

The entries of a report stand for parts of the trace: those that are reached, that do not hold, and
whose failure nothing below them explains. Here the list of entries is compared with the addresses
of these parts. They correspond one to one and in order, and what an entry says of its place is what
is found around the address.
-/

namespace Requirements

namespace Trace

/-! ### Operand by operand -/

/-- The label of a part on the way to its operand with the given number. -/
def stepLabel (t : Trace) (index : Nat) : String :=
  match t with
  | shortCircuit _ _ _ _ | logical _ _ _ _ => operandLabel t.label index
  | t => t.label

/-- The entries of a trace are its own and those of its operands, one after the other. -/
theorem entriesUnder_eq (outer : List String) (shadowed operand : Bool) (t : Trace) :
    t.entriesUnder outer shadowed operand = t.ownEntries outer shadowed operand ++
      if t.isReused then [] else
        t.children.zipIdx.flatMap fun c =>
          c.1.entriesUnder (t.stepLabel c.2 :: outer) (shadowed || t.truthy) t.isTest := by
  cases t with
  | reference name isChoice cached body =>
    cases cached <;> simp [entriesUnder, isReused, children, stepLabel, isTest]
  | shortCircuit op lhs skipped truthy =>
    have hown : (shortCircuit op lhs skipped truthy).ownEntries outer shadowed operand = [] := by
      simp [ownEntries, failure?, ownFailure?]
    simp [hown, entriesUnder, isReused, children, stepLabel, isTest, label, Trace.truthy, value,
      Value.ofBool]
  | _ => simp [entriesUnder, isReused, children, stepLabel, isTest, label, Trace.truthy, value,
      Value.ofBool]

/-- The entry on the part at an address, if there is one. The labels, the shadow and the test around
the whole are given. -/
def entriesAt (outer : List String) (shadowed operand : Bool) (t : Trace) (a : List Nat) :
    List Entry :=
  (t.part? a).elim [] fun u =>
    u.ownEntries ((List.zipWith stepLabel (t.above a) a).reverse ++ outer)
      (shadowed || (t.above a).any truthy) (((t.above a).getLast?.map isTest).getD operand)

/-- What is around an operand is the trace and what is around the trace. -/
theorem entriesAt_cons {t c : Trace} {i : Nat} (hc : t.children[i]? = some c)
    (outer : List String) (shadowed operand : Bool) (a : List Nat) :
    t.entriesAt outer shadowed operand (i :: a) =
      c.entriesAt (t.stepLabel i :: outer) (shadowed || t.truthy) t.isTest a := by
  unfold entriesAt
  rw [part?_cons hc, above_cons hc, List.getLast?_cons]
  cases (c.above a).getLast? <;> simp [Bool.or_assoc]

/-- The entries are those of the parts visited, in the order of the visit. -/
theorem entriesUnder_eq_flatMap (outer : List String) (shadowed operand : Bool) (t : Trace) :
    t.entriesUnder outer shadowed operand =
      t.visits.flatMap (t.entriesAt outer shadowed operand) := by
  induction t using childInduction generalizing outer shadowed operand with
  | h t ih =>
    have hown : t.entriesAt outer shadowed operand [] = t.ownEntries outer shadowed operand := by
      simp [entriesAt]
    rw [entriesUnder_eq, visits_eq, List.flatMap_cons, hown]
    congr 1
    split
    · rfl
    · rw [List.flatMap_assoc]
      refine List.flatMap_congr fun c hc => ?_
      rw [ih c.1 (List.fst_mem_of_mem_zipIdx hc), List.flatMap_map]
      refine List.flatMap_congr fun a _ => ?_
      exact (entriesAt_cons (List.mem_zipIdx_iff_getElem?.mp hc) outer shadowed operand a).symm

/-! ### Parts that explain themselves -/

/-- A part that does not hold is reported itself: a module, a probe, a constant or platform fact
that is no operand of a comparison or set test, a choice without a selected alternative, `^^` with
both operands true, or a comparison or set test none of whose operands failed. -/
def Explains (operand : Bool) : Trace → Prop
  | package _ _ _ _ | probe _ _ _ | unselected _ => True
  | bool _ | text _ | version _ | osname _ | ithreads _ => operand = false
  | logical .xor lhs rhs _ => lhs.truthy = true ∧ rhs.truthy = true
  | compare _ lhs rhs _ => lhs.failed = false ∧ rhs.failed = false
  | within tested _ _ _ => tested.failed = false
  | _ => False

/-- The parts that explain themselves are those with a failure of their own that is not left to a
comparison. -/
theorem explains_iff {operand : Bool} {t : Trace} (ht : t.truthy = false) :
    t.Explains operand ↔ (operand && t.isPlain) = false ∧ ∃ f, t.ownFailure? = some f := by
  cases t with
  | logical op lhs rhs truthy => cases op <;> simp [Explains, isPlain, ownFailure?]
  | compare op lhs rhs truthy => simp [Explains, isPlain, ownFailure?, comparisonFailure?]
  | within tested set version truthy => simp [Explains, isPlain, ownFailure?, comparisonFailure?]
  | version v => simp [Trace.truthy, value] at ht
  | _ => simp [Explains, isPlain, ownFailure?, platformText?]

/-- A part has no entry of its own or one. -/
theorem ownEntries_length_le (outer : List String) (shadowed operand : Bool) (t : Trace) :
    (t.ownEntries outer shadowed operand).length ≤ 1 := by
  unfold ownEntries
  split
  · exact Nat.zero_le 1
  · cases t.failure? <;> simp

/-- The entry of a part that does not hold and explains itself. -/
theorem ownEntries_eq_singleton_iff {outer : List String} {shadowed operand : Bool} {t : Trace}
    {e : Entry} : t.ownEntries outer shadowed operand = [e] ↔
      t.truthy = false ∧ t.Explains operand ∧ t.ownFailure? = some ⟨e.kind, e.detail⟩ ∧
        e.path = outer.reverse ++ [t.label] ∧ e.actionable = e.kind.isActionable ∧
        e.shadowed = shadowed := by
  obtain ⟨path, kind, actionable, detail, inShadow⟩ := e
  cases ht : t.truthy with
  | true => simp [ownEntries, failure?, ht]
  | false =>
    rw [explains_iff ht]
    cases hplain : operand && t.isPlain with
    | true => simp [ownEntries, hplain]
    | false =>
      cases hf : t.ownFailure? with
      | none => simp [ownEntries, failure?, ht, hplain, hf]
      | some f =>
        obtain ⟨kind', detail'⟩ := f
        simp only [ownEntries, failure?, ht, hplain, hf, Bool.false_eq_true, if_false,
          List.reverse_cons, List.cons.injEq, Entry.mk.injEq, and_true, Option.some.injEq,
          Failure.mk.injEq, exists_eq', true_and]
        constructor
        · rintro ⟨rfl, rfl, rfl, rfl, rfl⟩
          exact ⟨⟨rfl, rfl⟩, rfl, rfl, rfl⟩
        · rintro ⟨⟨rfl, rfl⟩, rfl, rfl, rfl⟩
          exact ⟨rfl, rfl, rfl, rfl, rfl⟩

/-! ### Places and entries -/

/-- The part `u` at the address `a` is one to report: it is reached, does not hold and explains
itself. -/
structure Reports (t : Trace) (a : List Nat) (u : Trace) : Prop where
  reached : t.Reaches a u
  untrue : u.truthy = false
  explains : u.Explains ((t.above a).getLast?.any isTest)

/-- The entry `e` says what was found at the address `a`. Its path has the labels of the parts
around the address and that of the part itself, and it is shadowed if a part around the address
holds. -/
structure Describes (t : Trace) (a : List Nat) (e : Entry) (u : Trace) : Prop where
  part : t.part? a = some u
  path : e.path = List.zipWith stepLabel (t.above a) a ++ [u.label]
  shadowed : e.shadowed = true ↔ ∃ v ∈ t.above a, v.truthy = true
  failure : u.ownFailure? = some ⟨e.kind, e.detail⟩
  actionable : e.actionable = e.kind.isActionable

/-- There is an entry at an address if the part there does not hold and explains itself, and the
entry says what is found there. -/
theorem entriesAt_eq_singleton_iff {t u : Trace} {a : List Nat} {e : Entry}
    (hu : t.part? a = some u) : t.entriesAt [] false false a = [e] ↔
      u.truthy = false ∧ u.Explains ((t.above a).getLast?.any isTest) ∧ t.Describes a e u := by
  have hany : (t.above a).any truthy = true ↔ ∃ v ∈ t.above a, v.truthy = true := by simp
  have hentries : t.entriesAt [] false false a =
      u.ownEntries (List.zipWith stepLabel (t.above a) a).reverse ((t.above a).any truthy)
        ((t.above a).getLast?.any isTest) := by
    simp only [entriesAt, hu, Option.elim_some, List.append_nil, Bool.false_or]
    cases (t.above a).getLast? <;> rfl
  rw [hentries, ownEntries_eq_singleton_iff, List.reverse_reverse]
  constructor
  · rintro ⟨huntrue, hexplains, hfailure, hpath, hactionable, hshadowed⟩
    exact ⟨huntrue, hexplains, hu, hpath, by rw [hshadowed, hany], hfailure, hactionable⟩
  · rintro ⟨huntrue, hexplains, h⟩
    refine ⟨huntrue, hexplains, h.failure, h.path, h.actionable, ?_⟩
    rw [Bool.eq_iff_iff, hany]
    exact h.shadowed

/-- A part to report has an entry. -/
theorem Reports.exists_entry {t u : Trace} {a : List Nat} (h : t.Reports a u) :
    ∃ e, t.entriesAt [] false false a = [e] := by
  obtain ⟨-, f, hf⟩ := (explains_iff h.untrue).mp h.explains
  refine ⟨⟨List.zipWith stepLabel (t.above a) a ++ [u.label], f.kind, f.kind.isActionable, f.detail,
    (t.above a).any truthy⟩, ?_⟩
  rw [entriesAt_eq_singleton_iff h.reached.part]
  exact ⟨h.untrue, h.explains, h.reached.part, rfl, by simp, hf, rfl⟩

/-- There is at most one entry at an address. -/
theorem entriesAt_length_le (t : Trace) (a : List Nat) :
    (t.entriesAt [] false false a).length ≤ 1 := by
  unfold entriesAt
  cases t.part? a with
  | none => exact Nat.zero_le 1
  | some u => exact ownEntries_length_le _ _ _ u

/-- Every entry is on a part to report. -/
theorem exists_reports_of_mem_entries {t : Trace} {e : Entry} (he : e ∈ t.entries) :
    ∃ a u, t.Reports a u ∧ t.Describes a e u := by
  rw [entries, entriesUnder_eq_flatMap, List.mem_flatMap] at he
  obtain ⟨a, ha, he⟩ := he
  obtain ⟨u, hu⟩ := mem_visits_iff.mp ha
  have hsingle : t.entriesAt [] false false a = [e] := by
    match hentries : t.entriesAt [] false false a, t.entriesAt_length_le a with
    | [], _ => simp [hentries] at he
    | [d], _ => rw [hentries, List.mem_singleton] at he; rw [he]
  obtain ⟨huntrue, hexplains, hdescribes⟩ := (entriesAt_eq_singleton_iff hu.part).mp hsingle
  exact ⟨a, u, ⟨hu, huntrue, hexplains⟩, hdescribes⟩

/-- Every part to report has an entry in the report. -/
theorem Reports.exists_mem_entries {t u : Trace} {a : List Nat} (h : t.Reports a u) :
    ∃ e ∈ t.entries, t.Describes a e u := by
  obtain ⟨e, he⟩ := h.exists_entry
  refine ⟨e, ?_, ((entriesAt_eq_singleton_iff h.reached.part).mp he).2.2⟩
  rw [entries, entriesUnder_eq_flatMap, List.mem_flatMap]
  exact ⟨a, mem_visits_iff.mpr ⟨u, h.reached⟩, by rw [he]; exact List.mem_singleton_self e⟩

end Trace

end Requirements
