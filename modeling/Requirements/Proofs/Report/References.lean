import Requirements.Environment.Registry
import Requirements.Proofs.Evaluation.FirstReferences
import Requirements.Proofs.Report.Entries

/-!
# Entries under references

A definition may be referred to many times. If the options leave something of it, there are entries
under its first reference only, since every later one repeats the result of the first. But a choice
without a selected alternative has no result to repeat: each reference to it has an entry of its
own.
-/

namespace Requirements

/-! ### Addresses and lists -/

/-- Of two members of a strictly increasing list, the smaller one comes first. -/
theorem rel_of_pairwise_lt {α : Type} [Preorder α] {R : α → α → Prop} {l : List α}
    (hincreasing : l.Pairwise (· < ·)) (hR : l.Pairwise R) {a b : α} (ha : a ∈ l) (hb : b ∈ l)
    (hab : a < b) : R a b := by
  induction l with
  | nil => exact absurd ha List.not_mem_nil
  | cons x l ih =>
    obtain ⟨hx, hincreasing⟩ := List.pairwise_cons.mp hincreasing
    obtain ⟨hRx, hR⟩ := List.pairwise_cons.mp hR
    rcases List.mem_cons.mp ha with rfl | ha'
    · rcases List.mem_cons.mp hb with rfl | hb'
      · exact absurd hab (lt_irrefl _)
      · exact hRx b hb'
    · rcases List.mem_cons.mp hb with rfl | hb'
      · exact absurd (hx a ha') (lt_asymm hab)
      · exact ih hincreasing hR ha' hb'

namespace Trace

/-- The parts that a report visits are, in order, those that the outline lists. -/
theorem map_part?_visits (t : Trace) : t.visits.map t.part? = t.listed.map some := by
  induction t using childInduction with
  | h t ih =>
    rw [visits_eq, listed_eq, List.map_cons, List.map_cons, part?_nil]
    congr 1
    split
    · rfl
    · rw [List.map_flatMap, List.map_flatMap, ← List.zipIdx_map_fst 0 t.children,
        List.flatMap_map, List.zipIdx_map_fst]
      refine List.flatMap_congr fun c hc => ?_
      rw [List.map_map, ← ih c.1 (List.fst_mem_of_mem_zipIdx hc)]
      refine List.map_congr_left fun a _ => ?_
      exact part?_cons (List.mem_zipIdx_iff_getElem?.mp hc) a

/-- What is reached through a part is reached from it, and the part is reached itself. -/
theorem Reaches.of_append {t n v : Trace} {a b : List Nat} (h : t.Reaches (a ++ b) v)
    (hn : t.part? a = some n) : t.Reaches a n ∧ n.Reaches b v := by
  induction a generalizing t with
  | nil =>
    obtain rfl := Option.some.inj hn
    exact ⟨reaches_nil_iff.mpr rfl, h⟩
  | cons i a ih =>
    obtain ⟨c, hc, hpart⟩ := part?_cons_eq_some_iff.mp hn
    obtain ⟨hfresh, c', hc', hreach⟩ := reaches_cons_iff.mp h
    obtain rfl := Option.some.inj (hc.symm.trans hc')
    obtain ⟨hreach', hbelow⟩ := ih hreach hpart
    exact ⟨reaches_cons_iff.mpr ⟨hfresh, c, hc, hreach'⟩, hbelow⟩

/-- If every listed reference to a definition that has another one before it is a reused one, then
one that is not reused is visited first. -/
theorem Reaches.le_of_references {t n n' : Trace} {a a' : List Nat} {name : String}
    (hreused : (t.references name).Pairwise fun _ n => n.isReused = true)
    (h : t.Reaches a n) (hn : n.expr = .reference name) (hfresh : n.isReused = false)
    (h' : t.Reaches a' n') (hn' : n'.expr = .reference name) : a ≤ a' := by
  -- The addresses are visited in the order in which the parts are listed.
  have hparts : (t.visits.map t.part?).Pairwise fun x y => ∀ m n, x = some m → y = some n →
      m.expr = .reference name → n.expr = .reference name → n.isReused = true := by
    have hlisted : t.listed.Pairwise fun m n =>
        m.expr = .reference name → n.expr = .reference name → n.isReused = true := by
      simpa [references, List.pairwise_filter] using hreused
    rw [map_part?_visits, List.pairwise_map]
    refine hlisted.imp fun hmn m n hm hn => ?_
    cases hm
    cases hn
    exact hmn
  by_contra hlt
  have hreused' := rel_of_pairwise_lt t.pairwise_visits (List.pairwise_map.mp hparts)
    (mem_visits_iff.mpr ⟨n', h'⟩) (mem_visits_iff.mpr ⟨n, h⟩) (not_le.mp hlt)
  cases hfresh.symm.trans (hreused' n' n h'.part h.part hn' hn)

/-! ### Entries at and below an address -/

/-- The part at the address is a reference to the definition. -/
def RefersAt (t : Trace) (name : String) (a : List Nat) : Prop :=
  ∃ n, t.part? a = some n ∧ n.expr = .reference name

/-- There is an entry on the part at the address, or on one below it. -/
def ReportsUnder (t : Trace) (a : List Nat) : Prop :=
  ∃ b v, t.Reports (a ++ b) v

/-- A part with an entry at or below it is reached. -/
theorem ReportsUnder.reaches {t n : Trace} {a : List Nat} (h : t.ReportsUnder a)
    (hn : t.part? a = some n) : t.Reaches a n := by
  obtain ⟨b, v, hreports⟩ := h
  exact (hreports.reached.of_append hn).1

/-- A reference to a result has no entry of its own, and a reused one has none below it. -/
theorem ReportsUnder.fresh {t body : Trace} {a : List Nat} {name : String} {isChoice cached : Bool}
    (h : t.ReportsUnder a) (hn : t.part? a = some (.reference name isChoice cached body)) :
    cached = false := by
  obtain ⟨b, v, hreports⟩ := h
  obtain ⟨-, hbelow⟩ := hreports.reached.of_append hn
  cases b with
  | nil =>
    obtain rfl := reaches_nil_iff.mp hbelow
    exact absurd hreports.explains id
  | cons i b => exact (reaches_cons_iff.mp hbelow).1

end Trace

namespace Selection

variable {s : Selection} {env : Environment} {settings : Settings} {t n : Trace} {name : String}
  {b : Binding}

/-- A reference to a choice without a selected alternative has no result. -/
theorem eq_unselected_of_evaluate (h : (s.evaluate env settings).result = .ok t)
    (hfind : s.find? name = some b) (hnone : b.body = none) (hn : n ∈ t.nodes)
    (hexpr : n.expr = .reference name) : n = .unselected name := by
  have hvisits := visits_of_evaluate h n hn
  cases n with
  | unselected =>
    cases hexpr
    rfl
  | reference =>
    cases hexpr
    obtain ⟨b', hfind', hbody⟩ := hvisits.exists_binding
    obtain rfl := Option.some.inj (hfind.symm.trans hfind')
    cases hnone.symm.trans hbody
  | _ => cases hexpr

/-- Each reference that is visited to a choice without a selected alternative is one to report. -/
theorem reports_of_unselected (h : (s.evaluate env settings).result = .ok t)
    (hfind : s.find? name = some b) (hnone : b.body = none) {a : List Nat} (hn : t.Reaches a n)
    (hexpr : n.expr = .reference name) : t.Reports a n := by
  obtain rfl :=
    eq_unselected_of_evaluate h hfind hnone (Trace.mem_nodes_of_part? hn.part) hexpr
  exact ⟨hn, rfl, trivial⟩

/-- If the options leave something of a definition, a reference to it with an entry at or below it
is the first one that is visited. -/
theorem first_of_reportsUnder {order : List String} (hordered : s.Ordered order)
    (hmaster : s.master.references ⊆ order) (h : (s.evaluate env settings).result = .ok t)
    (hfind : s.find? name = some b) {e : Expr} (hbody : b.body = some e) {a : List Nat}
    (ha : t.RefersAt name a) (hreports : t.ReportsUnder a) :
    (∃ c, t.Reaches a (.reference name b.isChoice false c)) ∧
      ∀ a' n', t.Reaches a' n' → n'.expr = .reference name → a ≤ a' := by
  obtain ⟨n, hn, hexpr⟩ := ha
  have hreach := hreports.reaches hn
  obtain ⟨c, count, hrefs⟩ := references_of_evaluate hordered hmaster h hfind hbody
    ⟨n, Trace.mem_nodes_of_part? hn, hexpr⟩
  have hreused : (t.references name).Pairwise fun _ n => n.isReused = true := by
    rw [hrefs, List.pairwise_cons, List.pairwise_replicate]
    exact ⟨fun m hm => by rw [List.eq_of_mem_replicate hm]; rfl, .inr rfl⟩
  have hmem : n ∈ t.references name :=
    List.mem_filter.mpr ⟨Trace.mem_listed_iff.mpr ⟨a, hreach⟩, by simpa using hexpr⟩
  rw [hrefs] at hmem
  rcases List.mem_cons.mp hmem with rfl | hmem
  · exact ⟨⟨c, hreach⟩, fun a' n' h' hn' => hreach.le_of_references hreused hexpr rfl h' hn'⟩
  · rw [List.eq_of_mem_replicate hmem] at hn
    cases hreports.fresh hn

/-- If the options leave something of a definition, at most one of the references to it has entries
at or below it: the first one, at which the body was evaluated. If they leave nothing of a choice,
then every reference to it that is visited, however many there are, has an entry of its own. -/
theorem entries_under_references {source : String} {p : Program} {words : List String}
    {s : Selection} (hcompile : Program.compile source = .ok p) (hselect : p.select words = .ok s)
    {env : Environment} {settings : Settings} {t : Trace}
    (h : (s.evaluate env settings).result = .ok t) {d : Definition} (hd : d ∈ p.definitions) :
    ((Binding.ofDefinition (optionSet words) d).body ≠ none →
      ∀ a, t.RefersAt d.name a → t.ReportsUnder a →
        (∃ c, t.part? a = some (.reference d.name d.isChoice false c)) ∧
        (∀ a' n', t.Reaches a' n' → n'.expr = .reference d.name → a ≤ a') ∧
        ∀ a', t.RefersAt d.name a' → t.ReportsUnder a' → a' = a) ∧
    ((Binding.ofDefinition (optionSet words) d).body = none →
      ∀ a n, t.Reaches a n → n.expr = .reference d.name →
        t.Reports a n ∧ ∃ e ∈ t.entries, t.Describes a e n ∧ e.kind = .noAlternative) := by
  obtain ⟨-, -, -, hnamed⟩ := Program.compile_ok_iff.mp hcompile
  obtain ⟨order, hordered, hmaster, -⟩ := Program.exists_ordered_select hnamed hselect
  have hfind := Program.find?_select hnamed.nodup hselect hd
  constructor
  · intro hselected a ha hreports
    obtain ⟨e, hbody⟩ := Option.ne_none_iff_exists'.mp hselected
    obtain ⟨⟨c, hc⟩, hfirst⟩ :=
      first_of_reportsUnder hordered hmaster h hfind hbody ha hreports
    refine ⟨⟨c, hc.part⟩, hfirst, fun a' ha' hreports' => ?_⟩
    obtain ⟨⟨c', hc'⟩, hfirst'⟩ :=
      first_of_reportsUnder hordered hmaster h hfind hbody ha' hreports'
    exact le_antisymm (hfirst' a _ hc rfl) (hfirst a' _ hc' rfl)
  · intro hnone a n hn hexpr
    have hreports := reports_of_unselected h hfind hnone hn hexpr
    obtain ⟨e, he, hdescribes⟩ := hreports.exists_mem_entries
    obtain rfl :=
      eq_unselected_of_evaluate h hfind hnone (Trace.mem_nodes_of_part? hn.part) hexpr
    refine ⟨hreports, e, he, hdescribes, ?_⟩
    exact (congrArg Failure.kind (Option.some.inj hdescribes.failure)).symm

/-- The module behind `m` is reported under the first of two references only, and the choice `c` at
both. -/
theorem entries_under_references_of_module_and_choice :
    let source := "define m = Foo; choice c = Bar as :x; ({m} || {c}) ^^ ({m} || {c})"
    let foo : Expr := .package "Foo" none []
    let either : Expr := .logical .or (.reference "m") (.reference "c")
    let m : Definition := ⟨.plain, "m", foo, 1⟩
    let c : Definition := ⟨.choice, "c", .tagged (.package "Bar" none []) "x", 1⟩
    let p : Program := ⟨[m, c], .logical .xor either either⟩
    let s : Selection := ⟨[], [⟨.plain, "m", some foo⟩, ⟨.choice, "c", none⟩], p.master⟩
    let absent : Trace := .package "Foo" none [] none
    let side (cached : Bool) : Trace :=
      .logical .or (.reference "m" false cached absent) (.unselected "c") false
    let t : Trace := .logical .xor (side false) (side true) false
    Program.compile source = .ok p ∧ p.select [] = .ok s ∧
      (s.evaluate ({} : SystemDescription).environment {}).result = .ok t ∧
      t.RefersAt "m" [1, 0] ∧
      (∀ a, t.RefersAt "m" a → t.ReportsUnder a → a = [0, 0]) ∧
      t.Reports [0, 1] (.unselected "c") ∧ t.Reports [1, 1] (.unselected "c") := by
  intro source foo either m c p s absent side t
  have hcompile : Program.compile source = .ok p := by decide +kernel
  have hselect : p.select [] = .ok s := by decide +kernel
  have hrun : (s.evaluate ({} : SystemDescription).environment {}).result = .ok t := rfl
  obtain ⟨hmodule, -⟩ :=
    entries_under_references hcompile hselect hrun (d := m) List.mem_cons_self
  obtain ⟨-, hchoice⟩ :=
    entries_under_references hcompile hselect hrun (d := c) (List.mem_cons_of_mem m (by simp))
  have hfirst : t.Reports [0, 0, 0] absent := ⟨⟨rfl, by decide⟩, rfl, trivial⟩
  obtain ⟨-, -, hunique⟩ :=
    hmodule (by decide) [0, 0] ⟨_, rfl, rfl⟩ ⟨[0], absent, hfirst⟩
  refine ⟨hcompile, hselect, hrun, ⟨_, rfl, rfl⟩, hunique, ?_, ?_⟩
  · exact (hchoice (by decide) [0, 1] _ ⟨rfl, by decide⟩ rfl).1
  · exact (hchoice (by decide) [1, 1] _ ⟨rfl, by decide⟩ rfl).1

/-- A choice without a selected alternative that is referred to twice has two entries, one under
each reference. -/
theorem exists_two_references_with_entries :
    let source := "choice c = Foo as :x; {c} || {c}"
    let p : Program := ⟨[⟨.choice, "c", .tagged (.package "Foo" none []) "x", 1⟩],
      .logical .or (.reference "c") (.reference "c")⟩
    let s : Selection := ⟨[], [⟨.choice, "c", none⟩], p.master⟩
    let env := ({} : SystemDescription).environment
    let t : Trace := .logical .or (.unselected "c") (.unselected "c") false
    let entry (outer : String) : Entry := ⟨[outer, "{c}"], .noAlternative, true,
      "No alternative of choice 'c' selected", false⟩
    Program.compile source = .ok p ∧ p.select [] = .ok s ∧
      (s.evaluate env {}).result = .ok t ∧
      s.check env {} = .ok ⟨false, [entry "||[0]", entry "||[1]"], []⟩ ∧
      ¬ ∀ a a', t.RefersAt "c" a → t.ReportsUnder a → t.RefersAt "c" a' → t.ReportsUnder a' →
        a' = a := by
  intro source p s env t entry
  refine ⟨by decide +kernel, by decide +kernel, rfl, rfl, fun hunique => ?_⟩
  have hleft : t.ReportsUnder [0] := ⟨[], _, ⟨rfl, by decide⟩, rfl, trivial⟩
  have hright : t.ReportsUnder [1] := ⟨[], _, ⟨rfl, by decide⟩, rfl, trivial⟩
  have heq := hunique [0] [1] ⟨_, rfl, rfl⟩ hleft ⟨_, rfl, rfl⟩ hright
  exact absurd heq (by decide)

end Selection

end Requirements
