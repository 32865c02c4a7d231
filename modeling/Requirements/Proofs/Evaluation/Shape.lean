import Requirements.Environment.Registry
import Requirements.Proofs.Evaluation.FirstReferences

/-!
# The shape of traces

A trace mirrors the program under the options: below every part of it stand the traces of the
operands of the expression that it records, and below a reference the trace of what the options
leave of the definition. Only a connective whose left operand decides it has no right operand, and
only a choice of which no alternative is selected has no trace below it.
-/

namespace Requirements

/-- A left operand decides `&&` if it does not hold and `||` if it holds, and then the whole has its
value. -/
theorem LogicalOp.decided?_eq (op : LogicalOp) (a : Bool) :
    op.decided? a = if op = .and ∧ a = false ∨ op = .or ∧ a = true then some a else none := by
  cases op <;> cases a <;> rfl

namespace Trace

/-- Below the trace `n` stand the traces that the expression asks for that it records, if `p` is the
program and `options` are selected. -/
def Mirrors (p : Program) (options : List String) (n : Trace) : Prop :=
  match n.expr with
  | .logical op lhs rhs => ∃ l, l.expr = lhs ∧
      if op = .and ∧ l.truthy = false ∨ op = .or ∧ l.truthy = true then
        n.children = [l] ∧ n.value = .ofBool l.truthy
      else ∃ r, r.expr = rhs ∧ n.children = [l, r] ∧ n.value = .ofBool (op.apply l.truthy r.truthy)
  | .compare _ lhs rhs => n.children.map expr = [lhs, rhs]
  | .within operand _ | .tagged operand _ => n.children.map expr = [operand]
  | .reference name => ∃ d ∈ p.definitions, d.name = name ∧
      match (Binding.ofDefinition options d).body with
      | none => n.children = []
      | some body => ∃ c, c.expr = body ∧ n.children = [c] ∧ n.value = c.value
  | _ => n.children = []

end Trace

namespace Selection

/-- What a step of an evaluation yields mirrors the program. -/
theorem Yields.mirrors {p : Program} {words : List String} {s : Selection}
    (hselect : p.select words = .ok s) {results results' : List (String × Trace)} {e : Expr}
    {t : Trace} (h : s.Yields results e t results') (hbodies : s.KeepsBodies results) :
    t.Mirrors p (optionSet words) := by
  cases h with
  | atom hatom heq =>
    subst heq
    cases t with
    | bool | text | version | osname | ithreads | package | probe => rfl
    | _ => cases hatom
  | @reused _ name b body hfind hlookup =>
    obtain ⟨b', hfind', hbody⟩ := hbodies name body (mem_of_lookup hlookup)
    obtain rfl := Option.some.inj (hfind.symm.trans hfind')
    obtain ⟨d, hd, hname, rfl⟩ := Program.exists_definition_of_find? hselect hfind
    refine ⟨d, hd, hname, ?_⟩
    rw [hbody]
    exact ⟨body, rfl, rfl, rfl⟩
  | unselected hfind _ hbody =>
    obtain ⟨d, hd, hname, rfl⟩ := Program.exists_definition_of_find? hselect hfind
    refine ⟨d, hd, hname, ?_⟩
    rw [hbody]
    rfl
  | fresh hfind _ hbody hyields =>
    obtain ⟨d, hd, hname, rfl⟩ := Program.exists_definition_of_find? hselect hfind
    refine ⟨d, hd, hname, ?_⟩
    rw [hbody]
    exact ⟨_, hyields.expr_eq, rfl, rfl⟩
  | tagged => rfl
  | within => rfl
  | compare => rfl
  | @shortCircuit _ _ _ _ l _ _ _ hdecided =>
    rw [LogicalOp.decided?_eq] at hdecided
    refine ⟨l, rfl, ?_⟩
    split at hdecided
    · cases hdecided
      rename_i hdecides
      rw [if_pos hdecides]
      exact ⟨rfl, rfl⟩
    · cases hdecided
  | @logical _ _ _ _ _ _ l r _ hdecided =>
    rw [LogicalOp.decided?_eq] at hdecided
    refine ⟨l, rfl, ?_⟩
    split at hdecided
    · cases hdecided
    · rename_i hdecides
      rw [if_neg hdecides]
      exact ⟨r, rfl, rfl, rfl⟩

/-- The trace of a successful evaluation records the master expression and mirrors the program in
all its parts. Of the references to a definition of which the options leave something, the first one
that is listed is the one at which the body was evaluated, and all later ones repeat its trace. -/
theorem trace_mirrors_program {source : String} {p : Program} {words : List String} {s : Selection}
    (hcompile : Program.compile source = .ok p) (hselect : p.select words = .ok s)
    {env : Environment} {settings : Settings} {t : Trace}
    (h : (s.evaluate env settings).result = .ok t) :
    t.expr = p.master ∧ (∀ n ∈ t.nodes, n.Mirrors p (optionSet words)) ∧
      ∀ d ∈ p.definitions, (Binding.ofDefinition (optionSet words) d).body ≠ none →
        (∃ n ∈ t.nodes, n.expr = .reference d.name) →
        ∃ c count, t.references d.name = .reference d.name d.isChoice false c ::
          List.replicate count (.reference d.name d.isChoice true c) := by
  obtain ⟨-, -, -, hnamed⟩ := Program.compile_ok_iff.mp hcompile
  refine ⟨?_, fun n hn => ?_, fun d hd hselected hn => ?_⟩
  · obtain ⟨results, hyields⟩ := exists_yields h
    rw [hyields.expr_eq, Program.select_eq hselect]
  · obtain ⟨-, results, results', hbodies, hyields⟩ := visits_of_evaluate h n hn
    exact hyields.mirrors hselect hbodies
  · obtain ⟨order, hordered, hmaster, -⟩ := Program.exists_ordered_select hnamed hselect
    have hfind := Program.find?_select hnamed.nodup hselect hd
    obtain ⟨body, hbody⟩ := Option.ne_none_iff_exists'.mp hselected
    exact references_of_evaluate hordered hmaster h hfind hbody hn

/-- No alternative of `c` is selected, so there is nothing below `{c}`, which is evaluated as
`m` does not hold; the second reference to `m` repeats the first. -/
theorem trace_mirrors_program_with_repeated_reference :
    let source := "define m = Foo; choice c = Bar as :x; ({m} || {c}) ^^ {m}"
    let foo : Expr := .package "Foo" none []
    let p : Program := ⟨[⟨.plain, "m", foo, 1⟩,
      ⟨.choice, "c", .tagged (.package "Bar" none []) "x", 1⟩],
      .logical .xor (.logical .or (.reference "m") (.reference "c")) (.reference "m")⟩
    let s : Selection := ⟨[], [⟨.plain, "m", some foo⟩, ⟨.choice, "c", none⟩], p.master⟩
    let m : Trace := .package "Foo" none [] none
    let t : Trace := .logical .xor
      (.logical .or (.reference "m" false false m) (.unselected "c") false)
      (.reference "m" false true m) false
    Program.compile source = .ok p ∧ p.select [] = .ok s ∧
      (s.evaluate ({} : SystemDescription).environment {}).result = .ok t ∧
      t.expr = p.master ∧ (∀ n ∈ t.nodes, n.Mirrors p []) ∧
      ∃ c count, t.references "m" = .reference "m" false false c ::
        List.replicate count (.reference "m" false true c) := by
  intro source foo p s m t
  have hcompile : Program.compile source = .ok p := by decide +kernel
  have hselect : p.select [] = .ok s := by decide +kernel
  have hrun : (s.evaluate ({} : SystemDescription).environment {}).result = .ok t := rfl
  obtain ⟨hexpr, hmirrors, hrefs⟩ := trace_mirrors_program hcompile hselect hrun
  refine ⟨hcompile, hselect, hrun, hexpr, hmirrors, ?_⟩
  exact hrefs ⟨.plain, "m", foo, 1⟩ List.mem_cons_self (by decide)
    ⟨.reference "m" false false m, by decide, rfl⟩

end Selection

end Requirements
