import Mathlib.Tactic.Lemma
import Requirements.Proofs.Evaluation.BigStep
import Requirements.Proofs.Report.Addresses

/-!
# What a trace records of an evaluation

An evaluation keeps the results of the definitions that it evaluates. Its trace shows where they
come from: a result was kept at a reference that is shown with the trace of the body, and a reused
reference repeats a result that was kept. The trace also shows a truth value for every connective,
which is the one that its operands have determined.
-/

namespace Requirements

namespace Trace

/-- The truth value of a connective is the one that its operands, or the first of them,
determine. -/
def Consistent : Trace → Prop
  | shortCircuit op lhs _ truthy => op.decided? lhs.truthy = some truthy
  | logical op lhs rhs truthy => truthy = op.apply lhs.truthy rhs.truthy
  | _ => True

end Trace

/-! ### Traces and kept results -/

/-- What the traces `ts`, one after the other, show of an evaluation from the progress `p` to `q`:
results stay, every new one stands behind a first reference, every reused one is among those kept,
and connectives have the truth values that their operands determine. -/
structure Records (p : Progress) (ts : List Trace) (q : Progress) : Prop where
  stays : p.results ⊆ q.results
  shown : ∀ name body, (name, body) ∈ q.results → (name, body) ∈ p.results ∨
    ∃ t ∈ ts, ∃ isChoice, t.Shows (.reference name isChoice false body)
  kept : ∀ t ∈ ts, ∀ name isChoice body, t.Shows (.reference name isChoice true body) →
    (name, body) ∈ q.results
  consistent : ∀ t ∈ ts, ∀ u, t.Shows u → u.Consistent

namespace Records

variable {p q r : Progress} {t : Trace} {ts us : List Trace}

/-- Without a trace, no result is new. -/
theorem nil (h : q.results = p.results) : Records p [] q where
  stays := by simp [h]
  shown name body hmem := .inl (h ▸ hmem)
  kept := by simp
  consistent := by simp

/-- Records of one stretch of an evaluation go on with those of the next. -/
lemma append (h : Records p ts q) (h' : Records q us r) : Records p (ts ++ us) r where
  stays := List.Subset.trans h.stays h'.stays
  shown name body hmem := by
    rcases h'.shown name body hmem with hmem | ⟨t, ht, isChoice, hu⟩
    · refine (h.shown name body hmem).imp_right ?_
      rintro ⟨t, ht, isChoice, hu⟩
      exact ⟨t, List.mem_append_left us ht, isChoice, hu⟩
    · exact .inr ⟨t, List.mem_append_right ts ht, isChoice, hu⟩
  kept t ht name isChoice body hu := by
    rcases List.mem_append.mp ht with ht | ht
    · exact h'.stays (h.kept t ht name isChoice body hu)
    · exact h'.kept t ht name isChoice body hu
  consistent t ht := by
    rcases List.mem_append.mp ht with ht | ht
    · exact h.consistent t ht
    · exact h'.consistent t ht

/-- What the operands of a part show, the part shows. -/
theorem node (hnew : t.isReused = false) (hconsistent : t.Consistent)
    (h : Records p t.children q) : Records p [t] q where
  stays := h.stays
  shown name body hmem := by
    refine (h.shown name body hmem).imp_right ?_
    rintro ⟨c, hc, isChoice, hu⟩
    exact ⟨t, List.mem_singleton_self t, isChoice, Trace.shows_iff.mpr (.inr ⟨hnew, c, hc, hu⟩)⟩
  kept u hu name isChoice body hbody := by
    obtain rfl := List.mem_singleton.mp hu
    rcases Trace.shows_iff.mp hbody with rfl | ⟨-, c, hc, hbody⟩
    · simp [Trace.isReused] at hnew
    · exact h.kept c hc name isChoice body hbody
  consistent u hu v hv := by
    obtain rfl := List.mem_singleton.mp hu
    rcases Trace.shows_iff.mp hv with rfl | ⟨-, c, hc, hv⟩
    · exact hconsistent
    · exact h.consistent c hc v hv

/-- A part without operands shows no new result. -/
theorem leaf (hchildren : t.children = []) (hnew : t.isReused = false) (hconsistent : t.Consistent)
    (h : q.results = p.results) : Records p [t] q :=
  node hnew hconsistent (by rw [hchildren]; exact nil h)

/-- A reused reference shows a result that was kept. -/
theorem reused {name : String} {body : Trace} (isChoice : Bool) (h : (name, body) ∈ p.results) :
    Records p [.reference name isChoice true body] p where
  stays := List.Subset.refl _
  shown _ _ hmem := .inl hmem
  kept u hu name' isChoice' body' hbody := by
    obtain rfl := List.mem_singleton.mp hu
    rcases Trace.shows_iff.mp hbody with heq | ⟨hnew, -⟩
    · cases heq
      exact h
    · simp [Trace.isReused] at hnew
  consistent u hu v hv := by
    obtain rfl := List.mem_singleton.mp hu
    rcases Trace.shows_iff.mp hv with rfl | ⟨hnew, -⟩
    · trivial
    · simp [Trace.isReused] at hnew

/-- At the first reference to a definition, the result of its body is kept. -/
theorem fresh {name : String} {body : Trace} (isChoice : Bool) (h : Records p [body] q) :
    Records p [.reference name isChoice false body]
      { q with results := (name, body) :: q.results } := by
  have hnode : Records p [.reference name isChoice false body] q := node rfl trivial h
  refine ⟨List.Subset.trans hnode.stays (List.subset_cons_self _ _), fun name' body' hmem => ?_,
    fun t ht name' isChoice' body' hu => ?_, hnode.consistent⟩
  · rcases List.mem_cons.mp hmem with heq | hmem
    -- The new result stands behind the reference itself.
    · cases heq
      exact .inr ⟨_, List.mem_singleton_self _, isChoice, Trace.shows_iff.mpr (.inl rfl)⟩
    · exact hnode.shown name' body' hmem
  · exact List.mem_cons_of_mem _ (hnode.kept t ht name' isChoice' body' hu)

end Records

/-! ### Evaluations -/

namespace Selection

/-- What an evaluation yields is recorded by its trace. -/
theorem Yields.records {s : Selection} {results results' : List (String × Trace)} {e : Expr}
    {t : Trace} (h : s.Yields results e t results') :
    Records { results := results } [t] { results := results' } := by
  induction h with
  | @atom _ _ t hatom heq =>
    subst heq
    have hchildren : t.children = [] := Trace.children_of_isAtom hatom
    cases t with
    | bool | text | version | osname | ithreads | package | probe =>
      exact .leaf hchildren rfl trivial rfl
    | _ => cases hatom
  | @reused _ _ b _ _ hlookup => exact .reused b.isChoice (mem_of_lookup hlookup)
  | unselected => exact .leaf rfl rfl trivial rfl
  | @fresh _ _ _ b _ _ _ _ _ _ ih => exact .fresh b.isChoice ih
  | tagged _ _ ih => exact .node rfl trivial ih
  | within _ _ _ ih => exact .node rfl trivial ih
  | compare _ _ _ ihl ihr => exact .node rfl trivial (ihl.append ihr)
  | shortCircuit _ _ hdecided ih => exact .node rfl hdecided ih
  | logical _ _ _ ihl ihr => exact .node rfl rfl (ihl.append ihr)

/-- The trace of a successful evaluation records it from the start. -/
theorem exists_records {s : Selection} {env : Environment} {settings : Settings} {t : Trace}
    (h : (s.evaluate env settings).result = .ok t) : ∃ q, Records {} [t] q := by
  obtain ⟨results, hyields⟩ := exists_yields h
  exact ⟨_, hyields.records⟩

end Selection

end Requirements
