import Requirements.Expr.Prune
import Requirements.Proofs.Expr.Nodes

/-!
# What pruning leaves

Pruning strikes parts out and puts nothing in: what is left refers to nothing that the whole does
not refer to. It has selected tags only, and does not depend on what stood under the others.
-/

namespace Requirements

namespace Expr

/-- What is left of an expression refers only to what the expression refers to. -/
theorem references_prune_subset {options : List String} {e e' : Expr}
    (h : e.prune options = some e') : e'.references ⊆ e.references := by
  induction e generalizing e' with
  | tagged operand tag ih =>
    rw [prune] at h
    split at h
    · obtain ⟨inner, hinner, rfl⟩ := Option.map_eq_some_iff.mp h
      intro name hname
      simpa using ih hinner (by simpa using hname)
    · cases h
  | logical op lhs rhs ihl ihr =>
    rw [prune] at h
    intro name hname
    rw [mem_references_logical]
    split at h
    · rename_i l r hl hr
      cases h
      rw [mem_references_logical] at hname
      exact hname.imp (fun hn => ihl hl hn) fun hn => ihr hr hn
    · rename_i l hl hr
      cases h
      exact .inl (ihl hl hname)
    · exact .inr (ihr h hname)
  | compare op lhs rhs ihl ihr =>
    rw [prune] at h
    intro name hname
    rw [mem_references_compare]
    split at h
    · rename_i l r hl hr
      cases h
      rw [mem_references_compare] at hname
      exact hname.imp (fun hn => ihl hl hn) fun hn => ihr hr hn
    · cases h
  | within operand set ih =>
    rw [prune] at h
    obtain ⟨inner, hinner, rfl⟩ := Option.map_eq_some_iff.mp h
    intro name hname
    simpa using ih hinner (by simpa using hname)
  | _ =>
    cases h
    exact List.Subset.refl _

/-- What is left of an expression has selected tags only. -/
theorem tags_prune_subset {options : List String} {e e' : Expr} (h : e.prune options = some e') :
    e'.tags ⊆ options := by
  induction e generalizing e' with
  | tagged operand tag ih =>
    rw [prune] at h
    split at h
    · rename_i htag
      obtain ⟨inner, hinner, rfl⟩ := Option.map_eq_some_iff.mp h
      rw [tags_tagged]
      exact List.cons_subset.mpr ⟨by simpa using htag, ih hinner⟩
    · cases h
  | logical op lhs rhs ihl ihr =>
    rw [prune] at h
    split at h
    · rename_i l r hl hr
      cases h
      rw [tags_logical]
      exact List.append_subset.mpr ⟨ihl hl, ihr hr⟩
    · rename_i l hl hr
      cases h
      exact ihl hl
    · exact ihr h
  | compare op lhs rhs ihl ihr =>
    rw [prune] at h
    split at h
    · rename_i l r hl hr
      cases h
      rw [tags_compare]
      exact List.append_subset.mpr ⟨ihl hl, ihr hr⟩
    · cases h
  | within operand set ih =>
    rw [prune] at h
    obtain ⟨inner, hinner, rfl⟩ := Option.map_eq_some_iff.mp h
    rw [tags_within]
    exact ih hinner
  | _ =>
    cases h
    exact List.nil_subset options

/-! ### Parts that are not selected -/

/-- The expressions differ at most in what stands under tags that are not selected. -/
inductive AgreeUnder (options : List String) : Expr → Expr → Prop
  | refl (e : Expr) : AgreeUnder options e e
  | unselected {tag : String} (operand operand' : Expr) : tag ∉ options →
    AgreeUnder options (.tagged operand tag) (.tagged operand' tag)
  | tagged {operand operand' : Expr} (tag : String) : AgreeUnder options operand operand' →
    AgreeUnder options (.tagged operand tag) (.tagged operand' tag)
  | compare {l l' r r' : Expr} (op : CompareOp) : AgreeUnder options l l' →
    AgreeUnder options r r' → AgreeUnder options (.compare op l r) (.compare op l' r')
  | within {operand operand' : Expr} (set : Version.RangeSet) :
    AgreeUnder options operand operand' →
    AgreeUnder options (.within operand set) (.within operand' set)
  | logical {l l' r r' : Expr} (op : LogicalOp) : AgreeUnder options l l' →
    AgreeUnder options r r' → AgreeUnder options (.logical op l r) (.logical op l' r')

namespace AgreeUnder

variable {options : List String} {e e' : Expr}

/-- The same is left of expressions that agree under the options. -/
theorem prune_eq (h : AgreeUnder options e e') : e'.prune options = e.prune options := by
  induction h with
  | refl e => rfl
  | @unselected tag operand operand' htag =>
    have hcontains : options.contains tag = false := by simpa using htag
    rw [prune, prune, hcontains]
    rfl
  | tagged tag _ ih => rw [prune, prune, ih]
  | compare op _ _ ihl ihr => rw [prune, prune, ihl, ihr]
  | within set _ ih => rw [prune, prune, ih]
  | logical op _ _ ihl ihr => rw [prune, prune, ihl, ihr]

/-- Expressions without tags that agree are equal. -/
theorem eq_of_tags_eq_nil (h : AgreeUnder options e e') (htags : e.tags = []) : e' = e := by
  induction h with
  | refl e => rfl
  | unselected operand operand' _ => cases htags
  | tagged tag _ _ => cases htags
  | compare op _ _ ihl ihr =>
    rw [tags_compare, List.append_eq_nil_iff] at htags
    rw [ihl htags.1, ihr htags.2]
  | within set _ ih =>
    rw [tags_within] at htags
    rw [ih htags]
  | logical op _ _ ihl ihr =>
    rw [tags_logical, List.append_eq_nil_iff] at htags
    rw [ihl htags.1, ihr htags.2]

end AgreeUnder

end Expr

end Requirements
