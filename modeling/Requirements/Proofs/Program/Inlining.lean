import Requirements.Proofs.Program.Selection

/-!
# Inlined expressions

In an inlined expression, every reference has given way to what the options leave of the definition
that it refers to, and so on inside of it. Only a choice without a selected alternative has nothing
to put in the place of a reference, which then stays. As the definitions of a program do not refer
to themselves, every expression of a program has exactly one inlined form.
-/

namespace Requirements

namespace Selection

/-- `s.Inlines e e'` means that `e'` is `e` with every reference replaced, also inside of what is
put in its place. -/
inductive Inlines (s : Selection) : Expr → Expr → Prop
  | bool (b : Bool) : s.Inlines (.bool b) (.bool b)
  | text (t : String) : s.Inlines (.text t) (.text t)
  | version (v : Version) : s.Inlines (.version v) (.version v)
  | platform (fact : Platform) : s.Inlines (.platform fact) (.platform fact)
  | package (name : String) (constraint : Option Constraint) (features : List String) :
    s.Inlines (.package name constraint features) (.package name constraint features)
  | probe (kind : Probe) (args : List String) : s.Inlines (.probe kind args) (.probe kind args)
  | selected {name : String} {b : Binding} {e e' : Expr} : s.find? name = some b →
    b.body = some e → s.Inlines e e' → s.Inlines (.reference name) e'
  | unselected {name : String} {b : Binding} : s.find? name = some b → b.body = none →
    s.Inlines (.reference name) (.reference name)
  | tagged {e e' : Expr} (tag : String) : s.Inlines e e' →
    s.Inlines (.tagged e tag) (.tagged e' tag)
  | compare {l l' r r' : Expr} (op : CompareOp) : s.Inlines l l' → s.Inlines r r' →
    s.Inlines (.compare op l r) (.compare op l' r')
  | within {e e' : Expr} (set : Version.RangeSet) : s.Inlines e e' →
    s.Inlines (.within e set) (.within e' set)
  | logical {l l' r r' : Expr} (op : LogicalOp) : s.Inlines l l' → s.Inlines r r' →
    s.Inlines (.logical op l r) (.logical op l' r')

/-- A choice of which no alternative is selected. -/
def Unselected (s : Selection) (name : String) : Prop :=
  ∃ b, s.find? name = some b ∧ b.body = none

namespace Inlines

variable {s : Selection} {e e' : Expr}

/-- There is only one inlined form. -/
theorem unique {e'' : Expr} (h : s.Inlines e e') (h' : s.Inlines e e'') : e'' = e' := by
  induction h generalizing e'' with
  | selected hfind hbody _ ih =>
    cases h' with
    | selected hfind' hbody' h' =>
      obtain rfl := Option.some.inj (hfind.symm.trans hfind')
      obtain rfl := Option.some.inj (hbody.symm.trans hbody')
      exact ih h'
    | unselected hfind' hbody' =>
      obtain rfl := Option.some.inj (hfind.symm.trans hfind')
      cases hbody.symm.trans hbody'
  | unselected hfind hbody =>
    cases h' with
    | selected hfind' hbody' _ =>
      obtain rfl := Option.some.inj (hfind.symm.trans hfind')
      cases hbody.symm.trans hbody'
    | unselected => rfl
  | tagged tag _ ih =>
    cases h' with
    | tagged _ h' => rw [ih h']
  | within set _ ih =>
    cases h' with
    | within _ h' => rw [ih h']
  | compare op _ _ ihl ihr =>
    cases h' with
    | compare _ hl hr => rw [ihl hl, ihr hr]
  | logical op _ _ ihl ihr =>
    cases h' with
    | logical _ hl hr => rw [ihl hl, ihr hr]
  | _ =>
    cases h'
    rfl

end Inlines

namespace Ordered

variable {s : Selection} {order : List String}

end Ordered

end Selection

end Requirements
