import Requirements.Environment.Registry
import Requirements.Proofs.Evaluation.Reuse
import Requirements.Proofs.Report.Entries

/-!
# Explained results

A part that does not hold either explains itself or has an operand that does not hold and is not
left to a comparison. Going down in this way from a whole that does not hold, one passes only parts
that do not hold, and ends at a part with an entry that is not shadowed, or at a reused reference.
There a report says nothing more, since the definition has been reported under its first reference.
It may be shadowed there: the first reference may stand below a part that holds.
-/

namespace Requirements

namespace Trace

/-! ### From a part to its operands -/

/-- An operand that failed does not hold. -/
theorem truthy_eq_false_of_failed {t : Trace} (h : t.failed = true) : t.truthy = false := by
  induction t with
  | package name constraint features finding => simpa [failed] using h
  | unselected name => rfl
  | reference name isChoice cached body ih => exact ih h
  | tagged operand tag ih => exact ih h
  | _ => simp [failed] at h

/-- An operand that failed is reported in its own place. -/
theorem isPlain_eq_false_of_failed {t : Trace} (h : t.failed = true) : t.isPlain = false := by
  cases t with
  | bool | text | osname | ithreads => simp [failed] at h
  | _ => rfl

/-- A part that does not hold explains itself, or has an operand that does not hold and is not left
to a comparison. -/
theorem Consistent.explains_or_operand {operand : Bool} {t : Trace} (ht : t.Consistent)
    (huntrue : t.truthy = false) (hcounts : (operand && t.isPlain) = false) :
    t.Explains operand ∨ ∃ (i : Nat) (c : Trace), t.children[i]? = some c ∧ c.truthy = false ∧
      (t.isTest && c.isPlain) = false := by
  cases t with
  | package | probe | unselected => exact .inl trivial
  | bool | text | osname | ithreads => exact .inl (by simpa [isPlain, Explains] using hcounts)
  | version v => cases huntrue
  | reference name isChoice cached body => exact .inr ⟨0, body, rfl, huntrue, rfl⟩
  | tagged inner tag => exact .inr ⟨0, inner, rfl, huntrue, rfl⟩
  | compare op lhs rhs truthy =>
    cases hl : lhs.failed with
    | true =>
      exact .inr ⟨0, lhs, rfl, truthy_eq_false_of_failed hl, isPlain_eq_false_of_failed hl⟩
    | false =>
      cases hr : rhs.failed with
      | true =>
        exact .inr ⟨1, rhs, rfl, truthy_eq_false_of_failed hr, isPlain_eq_false_of_failed hr⟩
      | false => exact .inl ⟨hl, hr⟩
  | within tested set version truthy =>
    cases hfailed : tested.failed with
    | true =>
      exact .inr ⟨0, tested, rfl, truthy_eq_false_of_failed hfailed,
        isPlain_eq_false_of_failed hfailed⟩
    | false => exact .inl hfailed
  | shortCircuit op lhs skipped truthy =>
    have hvalue : truthy = false := huntrue
    subst hvalue
    have hdecided : op.decided? lhs.truthy = some false := ht
    have hlhs : lhs.truthy = false := by
      cases op <;> cases hl : lhs.truthy <;> simp [hl, LogicalOp.decided?] at hdecided ⊢
    exact .inr ⟨0, lhs, rfl, hlhs, rfl⟩
  | logical op lhs rhs truthy =>
    have hvalue : truthy = false := huntrue
    have happly : op.apply lhs.truthy rhs.truthy = false := by rw [← ht, hvalue]
    cases hl : lhs.truthy with
    | false => exact .inr ⟨0, lhs, rfl, hl, rfl⟩
    | true =>
      cases hr : rhs.truthy with
      | false => exact .inr ⟨1, rhs, rfl, hr, rfl⟩
      | true =>
        cases op with
        | xor => exact .inl ⟨hl, hr⟩
        | _ => simp [hl, hr, LogicalOp.apply] at happly

/-- The part `u` at the address `a` is reached, does not hold, and is not left to a comparison. -/
structure Fails (t : Trace) (a : List Nat) (u : Trace) : Prop where
  reached : t.Reaches a u
  untrue : u.truthy = false
  counts : ((t.above a).getLast?.any isTest && u.isPlain) = false

/-- A whole that does not hold is left to nothing. -/
theorem fails_nil {t : Trace} (h : t.truthy = false) : t.Fails [] t :=
  ⟨reaches_nil_iff.mpr rfl, h, rfl⟩

/-- A part that does not hold is one to report, is a reused reference, or has an operand that does
not hold. -/
theorem Fails.reports_or_operand {t u : Trace} {a : List Nat} (h : t.Fails a u)
    (hu : u.Consistent) : t.Reports a u ∨ u.isReused = true ∨
      ∃ (i : Nat) (c : Trace), u.children[i]? = some c ∧ t.Fails (a ++ [i]) c := by
  rcases hu.explains_or_operand h.untrue h.counts with hexplains | ⟨i, c, hc, huntrue, hcounts⟩
  · exact .inl ⟨h.reached, h.untrue, hexplains⟩
  · cases hreused : u.isReused with
    | true => exact .inr (.inl rfl)
    | false =>
      refine .inr (.inr ⟨i, c, hc, h.reached.child hreused hc, huntrue, ?_⟩)
      rw [above_concat h.reached.part hc, List.getLast?_concat]
      exact hcounts

/-! ### The end of the descent -/

/-- Below parts that do not hold, a part that does not hold leads to an entry that is not shadowed
or to a reused reference. -/
theorem Fails.exists_unshadowed {t u : Trace} {a : List Nat}
    (hconsistent : ∀ u, t.Shows u → u.Consistent) (h : t.Fails a u)
    (habove : ∀ v ∈ t.above a, v.truthy = false) :
    (∃ e ∈ t.entries, e.shadowed = false) ∨ ∃ b v, t.Reaches b v ∧ v.isReused = true ∧
      v.truthy = false ∧ ∀ w ∈ t.above b, w.truthy = false := by
  induction u using childInduction generalizing a with
  | h u ih =>
    rcases h.reports_or_operand (hconsistent u ⟨a, h.reached⟩) with
      hreports | hreused | ⟨i, c, hc, hfails⟩
    · obtain ⟨e, he, hdescribes⟩ := hreports.exists_mem_entries
      refine .inl ⟨e, he, ?_⟩
      rw [← Bool.not_eq_true, hdescribes.shadowed]
      rintro ⟨v, hv, htruthy⟩
      rw [habove v hv] at htruthy
      cases htruthy
    · exact .inr ⟨a, u, h.reached, hreused, h.untrue, habove⟩
    · refine ih c (List.mem_of_getElem? hc) hfails fun v hv => ?_
      rw [above_concat h.reached.part hc, List.mem_append, List.mem_singleton] at hv
      rcases hv with hv | rfl
      · exact habove v hv
      · exact h.untrue

/-- A part that does not hold leads to an entry: from a reused reference, the way goes on below the
first reference to the definition. -/
theorem Fails.entries_ne_nil {t u : Trace} {a : List Nat} {q : Progress}
    (hrecords : Records {} [t] q) (h : t.Fails a u) : t.entries ≠ [] := by
  induction u using childInduction generalizing a with
  | h u ih =>
    have hconsistent : u.Consistent :=
      hrecords.consistent t (List.mem_singleton_self t) u ⟨a, h.reached⟩
    rcases h.reports_or_operand hconsistent with hreports | hreused | ⟨i, c, hc, hfails⟩
    · obtain ⟨e, he, -⟩ := hreports.exists_mem_entries
      exact List.ne_nil_of_mem he
    · cases u with
      | reference name isChoice cached body =>
        obtain rfl : cached = true := hreused
        -- The body was evaluated before, so the trace also shows a first reference with it.
        have hkept : (name, body) ∈ q.results :=
          hrecords.kept t (List.mem_singleton_self t) name isChoice body ⟨a, h.reached⟩
        rcases hrecords.shown name body hkept with hmem | ⟨v, hv, isChoice', b, hb⟩
        · exact absurd hmem List.not_mem_nil
        · obtain rfl := List.mem_singleton.mp hv
          have hbody : (reference name isChoice' false body).children[0]? = some body := rfl
          refine ih body (List.mem_singleton_self body) ⟨hb.child rfl hbody, h.untrue, ?_⟩
          rw [above_concat hb.part hbody, List.getLast?_concat]
          rfl
      | _ => cases hreused
    · exact ih c (List.mem_of_getElem? hc) hfails

/-- Below parts that do not hold, no part leads to a whole that holds. -/
theorem Reaches.truthy_eq_false {t u : Trace} {a : List Nat} (h : t.Reaches a u)
    (huntrue : u.truthy = false) (habove : ∀ v ∈ t.above a, v.truthy = false) :
    t.truthy = false := by
  cases a with
  | nil => rwa [reaches_nil_iff.mp h]
  | cons i a =>
    obtain ⟨-, c, hc, -⟩ := reaches_cons_iff.mp h
    exact habove t (by simp [above_cons hc])

end Trace

namespace Selection

/-- A report has the result "false" exactly if one of its entries is not shadowed, or if the trace
has a reused reference that does not hold and that stands below no part that holds: the failures of
its definition are listed under the first reference only, where they may be shadowed. In either case
the report has an entry. -/
theorem report_result_eq_false_iff {s : Selection} {env : Environment} {settings : Settings}
    {t : Trace} (h : (s.evaluate env settings).result = .ok t) :
    s.check env settings = .ok (t.report s.options) ∧
      ((t.report s.options).result = false ↔
        (∃ e ∈ (t.report s.options).entries, e.shadowed = false) ∨
          ∃ a u, t.Reaches a u ∧ u.isReused = true ∧ u.truthy = false ∧
            ∀ v ∈ t.above a, v.truthy = false) ∧
      ((t.report s.options).result = false → (t.report s.options).entries ≠ []) := by
  obtain ⟨q, hrecords⟩ := exists_records h
  refine ⟨by rw [check, h]; rfl, ⟨fun hresult => ?_, ?_⟩, fun hresult => ?_⟩
  · exact (Trace.fails_nil hresult).exists_unshadowed
      (hrecords.consistent t (List.mem_singleton_self t)) (by simp)
  · rintro (⟨e, he, hshadowed⟩ | ⟨a, u, hu, -, huntrue, habove⟩)
    · obtain ⟨a, u, hreports, hdescribes⟩ := Trace.exists_reports_of_mem_entries he
      refine hreports.reached.truthy_eq_false hreports.untrue fun v hv => ?_
      rw [← Bool.not_eq_true]
      intro htruthy
      rw [hdescribes.shadowed.mpr ⟨v, hv, htruthy⟩] at hshadowed
      cases hshadowed
    · exact hu.truthy_eq_false huntrue habove
  · exact (Trace.fails_nil hresult).entries_ne_nil hrecords

/-- In `({m} || true) && {m}`, the only failure of the body of `m` stands below `||`, which holds,
while the reused reference makes the whole fail. -/
theorem entries_ne_nil_of_reused_failure :
    let m : Trace := .package "Foo" none [] none
    let s : Selection := ⟨[], [⟨.plain, "m", some m.expr⟩],
      .logical .and (.logical .or (.reference "m") (.bool true)) (.reference "m")⟩
    let t : Trace := .logical .and
      (.logical .or (.reference "m" false false m) (.bool true) true)
      (.reference "m" false true m) false
    (s.evaluate ({} : SystemDescription).environment {}).result = .ok t ∧
      (t.report s.options).entries ≠ [] := by
  intro m s t
  have hrun : (s.evaluate ({} : SystemDescription).environment {}).result = .ok t := rfl
  exact ⟨hrun, (report_result_eq_false_iff hrun).2.2 rfl⟩

/-- A report can have the result "false" although all its entries are shadowed. -/
theorem exists_false_report_with_all_entries_shadowed :
    let source := "define m = Foo;\n(\x7bm\x7d || true) && \x7bm\x7d"
    let body : Expr := .package "Foo" none []
    let p : Program := ⟨[⟨.plain, "m", body, 1⟩],
      .logical .and (.logical .or (.reference "m") (.bool true)) (.reference "m")⟩
    let s : Selection := ⟨[], [⟨.plain, "m", some body⟩], p.master⟩
    let r : Report := ⟨false, [⟨["&&[0]", "||[0]", "\x7bm\x7d", "Foo"], .missingModule, true,
      "Module Foo is not installed", true⟩], []⟩
    Program.compile source = .ok p ∧ p.select [] = .ok s ∧
      s.check ({} : SystemDescription).environment {} = .ok r ∧
      ¬(r.result = false ↔ ∃ e ∈ r.entries, e.shadowed = false) := by
  intro source body p s r
  refine ⟨by decide +kernel, by decide +kernel, rfl, ?_⟩
  decide

end Selection

end Requirements
