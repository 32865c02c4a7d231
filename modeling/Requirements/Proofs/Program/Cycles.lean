import Mathlib.Data.List.Chain
import Mathlib.Data.List.Nodup
import Mathlib.Data.List.Perm.Subperm
import Mathlib.Logic.Relation
import Mathlib.Tactic.Lemma
import Requirements.Program.Resolver

/-!
# The search for cycles

The references among definitions are followed depth first. If the search meets no cycle, then the
order in which it finishes the names is an order of dependency: every name comes behind all names
that it refers to. So there is no cycle, and the chains of references are no longer than the list of
definitions. Conversely, a search in a graph without cycles cannot meet one: what it reports is a
part of the path that it has followed, and leads from its first name back to it.
-/

namespace Requirements

namespace Resolver

namespace Graph

/-- The names that the definition of a name refers to. -/
def targets (graph : Graph) (name : String) : List String :=
  (graph.lookup name).getD []

/-- The names that are defined. -/
def names (graph : Graph) : List String :=
  graph.map Prod.fst

/-- The definition of `a` refers to `b`. -/
def Refers (graph : Graph) (a b : String) : Prop :=
  b ∈ graph.targets a

/-- No definition refers to itself, directly or through others. -/
def Acyclic (graph : Graph) : Prop :=
  ∀ a, ¬ Relation.TransGen graph.Refers a a

/-- Every reference leads to a name that is defined. -/
def Closed (graph : Graph) : Prop :=
  ∀ a b, graph.Refers a b → b ∈ graph.names

/-- A list of names, the last one first, in which every name comes behind all that it refers to. -/
def Ordered (graph : Graph) : List String → Prop
  | [] => True
  | a :: rest => a ∉ rest ∧ (∀ b ∈ graph.targets a, b ∈ rest) ∧ graph.Ordered rest

namespace Ordered

variable {graph : Graph}

/-- The empty order is one. -/
lemma nil : graph.Ordered [] := trivial

/-- An order has every name once. -/
lemma nodup {order : List String} (h : graph.Ordered order) : order.Nodup := by
  induction order with
  | nil => exact List.nodup_nil
  | cons a rest ih => exact List.nodup_cons.mpr ⟨h.1, ih h.2.2⟩

/-- What a name refers to has been put in order before. -/
theorem mem_of_refers {order : List String} (h : graph.Ordered order) {a b : String}
    (ha : a ∈ order) (hab : graph.Refers a b) : b ∈ order := by
  induction order with
  | nil => exact absurd ha List.not_mem_nil
  | cons c rest ih =>
    rcases List.mem_cons.mp ha with rfl | ha
    · exact List.mem_cons_of_mem a (h.2.1 b hab)
    · exact List.mem_cons_of_mem c (ih h.2.2 ha)

/-- A name in order is on no cycle: on a cycle through the first name, the name referred to would
come before it and after it. -/
theorem not_transGen {order : List String} (h : graph.Ordered order) {a : String}
    (ha : a ∈ order) : ¬ Relation.TransGen graph.Refers a a := by
  induction order generalizing a with
  | nil => exact absurd ha List.not_mem_nil
  | cons c rest ih =>
    have hstay {x y : String} (hxy : Relation.TransGen graph.Refers x y) (hx : x ∈ rest) :
        y ∈ rest := by
      induction hxy with
      | single hxy => exact mem_of_refers h.2.2 hx hxy
      | tail _ hyz hy => exact mem_of_refers h.2.2 hy hyz
    intro hcycle
    by_cases har : a ∈ rest
    · exact ih h.2.2 har hcycle
    · obtain rfl : a = c := (List.mem_cons.mp ha).resolve_right har
      obtain ⟨b, hab, hba⟩ := (Relation.TransGen.head'_iff).mp hcycle
      have hb : b ∈ rest := h.2.1 b hab
      rcases (Relation.reflTransGen_iff_eq_or_transGen).mp hba with rfl | hba
      · exact har hb
      · exact har (hstay hba hb)

end Ordered

end Graph

variable {graph : Graph}

/-! ### A search that meets no cycle -/

/-- What the search keeps: the finished names are in order, all of them are defined, and none of
them is on the path. -/
structure Sound (graph : Graph) (path finished : List String) : Prop where
  ordered : graph.Ordered finished
  defined : finished ⊆ graph.names
  disjoint : ∀ a ∈ path, a ∉ finished

/-- The path of the search: it leads through defined names and meets none twice. -/
structure Path (graph : Graph) (path : List String) : Prop where
  nodup : path.Nodup
  defined : path ⊆ graph.names

namespace Path

/-- A path is no longer than the graph. -/
theorem length_le {path : List String} (h : Path graph path) : path.length ≤ graph.length := by
  have := (List.subperm_of_subset h.nodup h.defined).length_le
  simpa [Graph.names] using this

/-- A path grows by a name that is not yet on it. -/
lemma cons {path : List String} {a : String} (h : Path graph path) (ha : a ∈ graph.names)
    (hnew : a ∉ path) : Path graph (a :: path) :=
  ⟨List.nodup_cons.mpr ⟨hnew, h.nodup⟩, List.cons_subset.mpr ⟨ha, h.defined⟩⟩

end Path

/-- One step of the search from the names `here` to `target`. -/
def visit (graph : Graph) (fuel : Nat) (here finished : List String) (target : String) :
    Except (List String) (List String) :=
  if here.contains target then .error (here.reverse.dropWhile (· != target) ++ [target])
  else if finished.contains target then .ok finished
  else follow graph fuel here finished target

/-- With one more level, a name is followed through its targets and then finished. -/
lemma follow_succ (fuel : Nat) (path finished : List String) (name : String) :
    follow graph (fuel + 1) path finished name =
      ((graph.targets name).foldlM (visit graph fuel (name :: path)) finished).map (name :: ·) := by
  rw [follow]
  rfl

/-- What a search from `name` brings about: `name` and all names finished before are finished. -/
def Finishes (graph : Graph) (path finished : List String) (name : String)
    (finished' : List String) : Prop :=
  Sound graph path finished' ∧ finished ⊆ finished' ∧ name ∈ finished'

/-- If every search from a new name finishes it, then visiting one name after the other finishes
all of them. -/
theorem foldlM_visit_sound {fuel : Nat} {here : List String}
    (hfollow : ∀ {finished name finished'}, follow graph fuel here finished name = .ok finished' →
      name ∈ graph.names → name ∉ here → Sound graph here finished → name ∉ finished →
      Finishes graph here finished name finished')
    {names finished finished' : List String} (hnames : names ⊆ graph.names)
    (hsound : Sound graph here finished)
    (h : names.foldlM (visit graph fuel here) finished = .ok finished') :
    Sound graph here finished' ∧ finished ⊆ finished' ∧ names ⊆ finished' := by
  induction names generalizing finished with
  | nil =>
    obtain rfl : finished = finished' := by simpa [pure, Except.pure] using h
    exact ⟨hsound, fun _ ha => ha, by simp⟩
  | cons name names ih =>
    rw [List.cons_subset] at hnames
    rw [List.foldlM_cons] at h
    have hvisit : ∃ f, visit graph fuel here finished name = .ok f ∧
        names.foldlM (visit graph fuel here) f = .ok finished' := by
      cases hv : visit graph fuel here finished name with
      | error e => rw [hv] at h; cases h
      | ok f => rw [hv] at h; exact ⟨f, rfl, h⟩
    obtain ⟨f, hv, hrest⟩ := hvisit
    have hstep : Finishes graph here finished name f := by
      unfold visit at hv
      split at hv
      · cases hv
      · rename_i hhere
        split at hv
        · rename_i hdone
          cases hv
          exact ⟨hsound, fun _ ha => ha, by simpa using hdone⟩
        · rename_i hdone
          exact hfollow hv hnames.1 (by simpa using hhere) hsound (by simpa using hdone)
    obtain ⟨hsound', hsub, hmem⟩ := ih hnames.2 hstep.1 hrest
    exact ⟨hsound', fun a ha => hsub (hstep.2.1 ha),
      List.cons_subset.mpr ⟨hsub hstep.2.2, hmem⟩⟩

/-- A search from a new name that meets no cycle finishes the name. The fuel is what the path may
still grow by, so that it is never used up. -/
theorem follow_sound (hclosed : graph.Closed) {fuel : Nat} {path finished finished' : List String}
    {name : String} (h : follow graph fuel path finished name = .ok finished')
    (hfuel : fuel + path.length = graph.length + 1) (hpath : Path graph path)
    (hname : name ∈ graph.names) (hnew : name ∉ path) (hsound : Sound graph path finished)
    (hopen : name ∉ finished) : Finishes graph path finished name finished' := by
  induction fuel generalizing path finished finished' name with
  | zero =>
    have := (hpath.cons hname hnew).length_le
    simp only [List.length_cons] at this
    omega
  | succ fuel ih =>
    rw [follow_succ] at h
    cases hfold : (graph.targets name).foldlM (visit graph fuel (name :: path)) finished with
    | error e => rw [hfold] at h; cases h
    | ok f =>
      rw [hfold] at h
      obtain rfl : name :: f = finished' := by simpa [Except.map] using h
      have hhere : Path graph (name :: path) := hpath.cons hname hnew
      have hsoundHere : Sound graph (name :: path) finished := by
        refine ⟨hsound.ordered, hsound.defined, fun a ha => ?_⟩
        rcases List.mem_cons.mp ha with rfl | ha
        · exact hopen
        · exact hsound.disjoint a ha
      have hfuelHere : fuel + (name :: path).length = graph.length + 1 := by
        simp only [List.length_cons]
        omega
      obtain ⟨hf, hsub, htargets⟩ := foldlM_visit_sound
        (fun hfollow hn hnew hs hopen => ih hfollow hfuelHere hhere hn hnew hs hopen)
        (fun b hb => hclosed name b hb) hsoundHere hfold
      refine ⟨⟨⟨hf.disjoint name List.mem_cons_self, htargets, hf.ordered⟩, ?_, ?_⟩, ?_, ?_⟩
      · exact List.cons_subset.mpr ⟨hname, hf.defined⟩
      · intro a ha
        rw [List.mem_cons, not_or]
        exact ⟨fun hname => hnew (hname ▸ ha), hf.disjoint a (List.mem_cons_of_mem name ha)⟩
      · exact fun a ha => List.mem_cons_of_mem name (hsub ha)
      · exact List.mem_cons_self

/-! ### A search in a graph without cycles -/

/-- Visiting one name after the other succeeds if each visit does. -/
theorem foldlM_visit_isOk {fuel : Nat} {here names : List String}
    (hvisit : ∀ name ∈ names, ∀ finished, ∃ f, visit graph fuel here finished name = .ok f)
    (finished : List String) :
    ∃ f, names.foldlM (visit graph fuel here) finished = .ok f := by
  induction names generalizing finished with
  | nil => exact ⟨finished, rfl⟩
  | cons name names ih =>
    obtain ⟨f, hf⟩ := hvisit name List.mem_cons_self finished
    obtain ⟨f', hf'⟩ := ih (fun n hn => hvisit n (List.mem_cons_of_mem name hn)) f
    exact ⟨f', by rw [List.foldlM_cons, hf]; exact hf'⟩

/-- A search meets no cycle if there is none: every name on the path leads to the name visited. -/
theorem follow_isOk_of_acyclic (hacyclic : graph.Acyclic) {fuel : Nat}
    {path finished : List String} {name : String}
    (hpath : ∀ a ∈ path, Relation.TransGen graph.Refers a name) :
    ∃ finished', follow graph fuel path finished name = .ok finished' := by
  induction fuel generalizing path finished name with
  | zero => exact ⟨finished, rfl⟩
  | succ fuel ih =>
    have hvisit : ∀ target ∈ graph.targets name, ∀ finished,
        ∃ f, visit graph fuel (name :: path) finished target = .ok f := by
      intro target htarget finished
      have hhere : ∀ a ∈ name :: path, Relation.TransGen graph.Refers a target := by
        intro a ha
        rcases List.mem_cons.mp ha with rfl | ha
        · exact .single htarget
        · exact (hpath a ha).tail htarget
      have hnot : target ∉ name :: path := fun ht => hacyclic target (hhere target ht)
      rw [visit, if_neg (by simpa using hnot)]
      split
      · exact ⟨finished, rfl⟩
      · exact ih hhere
    obtain ⟨f, hf⟩ := foldlM_visit_isOk hvisit finished
    exact ⟨name :: f, by rw [follow_succ, hf]; rfl⟩

/-! ### The whole search -/

/-- The whole search visits every name, with fuel for a path through all of them. -/
theorem findCycle?_eq : findCycle? graph =
    match graph.names.foldlM (visit graph (graph.length + 1) []) [] with
    | .ok _ => none
    | .error cycle => some cycle := by
  have hwalk : (graph.foldlM (fun finished node =>
      if finished.contains node.1 then .ok finished
      else follow graph (graph.length + 1) [] finished node.1) [] : Except _ _) =
      graph.names.foldlM (visit graph (graph.length + 1) []) [] := by
    rw [Graph.names, List.foldlM_map]
    rfl
  exact congrArg (fun walk : Except (List String) (List String) =>
    match walk with
    | .ok _ => none
    | .error cycle => some cycle) hwalk

/-- No cycle is found exactly if the search comes to an order of the names. -/
lemma findCycle?_eq_none_iff_isOk : findCycle? graph = none ↔
    ∃ order, graph.names.foldlM (visit graph (graph.length + 1) []) [] = .ok order := by
  rw [findCycle?_eq]
  cases graph.names.foldlM (visit graph (graph.length + 1) []) [] with
  | ok order => simp
  | error cycle => simp

/-- A cycle is found exactly if the search ends with it. -/
lemma findCycle?_eq_some_iff {cycle : List String} : findCycle? graph = some cycle ↔
    graph.names.foldlM (visit graph (graph.length + 1) []) [] = .error cycle := by
  rw [findCycle?_eq]
  cases graph.names.foldlM (visit graph (graph.length + 1) []) [] with
  | ok order => simp
  | error cycle => simp

/-- A search that meets no cycle puts all names, and no others, in order. -/
theorem exists_order_of_findCycle? (hclosed : graph.Closed) (h : findCycle? graph = none) :
    ∃ order, graph.Ordered order ∧ order ⊆ graph.names ∧ graph.names ⊆ order ∧
      order.length ≤ graph.length := by
  obtain ⟨order, horder⟩ := findCycle?_eq_none_iff_isOk.mp h
  have hpath : Path graph [] := ⟨List.nodup_nil, List.nil_subset _⟩
  obtain ⟨hsound, -, hall⟩ := foldlM_visit_sound
    (fun hfollow hn hnew hs hopen => follow_sound hclosed hfollow rfl hpath hn hnew hs hopen)
    (List.Subset.refl _) ⟨Graph.Ordered.nil, List.nil_subset _, by simp⟩ horder
  refine ⟨order, hsound.ordered, hsound.defined, hall, ?_⟩
  have := (List.subperm_of_subset hsound.ordered.nodup hsound.defined).length_le
  simpa [Graph.names] using this

/-- The search meets a cycle exactly if there is one. -/
theorem findCycle?_eq_none_iff (hclosed : graph.Closed) :
    findCycle? graph = none ↔ graph.Acyclic := by
  constructor
  · intro h a ha
    obtain ⟨order, hordered, -, hall, -⟩ := exists_order_of_findCycle? hclosed h
    have hmem : a ∈ graph.names := by
      obtain ⟨b, -, hba⟩ := Relation.TransGen.tail'_iff.mp ha
      exact hclosed b a hba
    exact hordered.not_transGen (hall hmem) ha
  · intro hacyclic
    rw [findCycle?_eq_none_iff_isOk]
    refine foldlM_visit_isOk (fun name _ finished => ?_) []
    rw [visit, if_neg (by simp)]
    split
    · exact ⟨finished, rfl⟩
    · exact follow_isOk_of_acyclic hacyclic (by simp)

/-! ### The cycle that is reported -/

/-- A cycle of references: each name refers to the next one, and no name but the first, which is the
last one, too, comes twice. -/
def IsCycle (refers : String → String → Prop) (cycle : List String) : Prop :=
  ∃ first others, cycle = first :: (others ++ [first]) ∧ (first :: others).Nodup ∧
    cycle.IsChain refers

namespace IsCycle

variable {refers : String → String → Prop} {cycle : List String}

/-- The first name of a cycle refers to another one, which leads back to it. -/
theorem exists_next (h : IsCycle refers cycle) : ∃ first next, cycle.head? = some first ∧
    refers first next ∧ Relation.ReflTransGen refers next first := by
  obtain ⟨first, others, rfl, -, hlinked⟩ := h
  obtain ⟨next, rest, hrest⟩ : ∃ next rest, others ++ [first] = next :: rest :=
    List.exists_cons_of_ne_nil (List.append_ne_nil_of_right_ne_nil others (List.cons_ne_nil _ _))
  rw [hrest, List.isChain_cons_cons] at hlinked
  refine ⟨first, next, rfl, hlinked.1, ?_⟩
  refine List.relationReflTransGen_of_exists_isChain_cons rest hlinked.2 ?_
  simp only [← hrest, List.getLast_append_singleton]

/-- The first name of a cycle leads back to itself. -/
theorem exists_transGen (h : IsCycle refers cycle) :
    ∃ name, Relation.TransGen refers name name := by
  obtain ⟨first, next, -, hnext, hback⟩ := h.exists_next
  exact ⟨first, .head' hnext hback⟩

end IsCycle

/-- Along a path of the search, the last name first, each name is referred to by the one before it,
and no name comes twice. -/
structure Trail (graph : Graph) (path : List String) : Prop where
  nodup : path.Nodup
  linked : path.reverse.IsChain graph.Refers

namespace Trail

variable {here : List String} {name target : String}

/-- A reference of the last name goes on from it. -/
theorem linked_cons (h : Trail graph (name :: here)) (htarget : graph.Refers name target) :
    (target :: name :: here).reverse.IsChain graph.Refers := by
  rw [List.reverse_cons, List.isChain_append]
  refine ⟨h.linked, .singleton target, fun last hlast next hnext => ?_⟩
  obtain rfl : name = last := by simpa using hlast
  obtain rfl : target = next := by simpa using hnext
  exact htarget

/-- A trail grows by a name that the last one refers to. -/
lemma cons (h : Trail graph (name :: here)) (htarget : graph.Refers name target)
    (hnew : target ∉ name :: here) : Trail graph (target :: name :: here) :=
  ⟨List.nodup_cons.mpr ⟨hnew, h.nodup⟩, h.linked_cons htarget⟩

/-- A reference of the last name to one on the path closes a cycle. -/
theorem isCycle (h : Trail graph (name :: here)) (htarget : graph.Refers name target)
    (hmem : target ∈ name :: here) :
    IsCycle graph.Refers ((name :: here).reverse.dropWhile (· != target) ++ [target]) := by
  have hlinked := h.linked_cons htarget
  have hnodup : (name :: here).reverse.Nodup := List.nodup_reverse.mpr h.nodup
  obtain ⟨front, back, hsplit⟩ := List.append_of_mem (List.mem_reverse.mpr hmem)
  rw [List.reverse_cons, hsplit, List.append_assoc, List.cons_append, List.isChain_split] at hlinked
  rw [hsplit, List.nodup_append] at hnodup
  have hdrop : (front ++ target :: back).dropWhile (· != target) = target :: back := by
    rw [List.dropWhile_append_of_pos]
    · simp
    · intro a ha
      simpa using hnodup.2.2 a ha target List.mem_cons_self
  rw [hsplit, hdrop]
  exact ⟨target, back, rfl, hnodup.2.1, hlinked.2⟩

end Trail

/-- Visiting one name after the other ends with the cycle that one of the visits meets. -/
theorem exists_visit_of_foldlM_error {fuel : Nat} {here names finished cycle : List String}
    (h : names.foldlM (visit graph fuel here) finished = .error cycle) :
    ∃ name ∈ names, ∃ finished', visit graph fuel here finished' name = .error cycle := by
  induction names generalizing finished with
  | nil => cases h
  | cons name names ih =>
    rw [List.foldlM_cons] at h
    cases hv : visit graph fuel here finished name with
    | error e =>
      rw [hv] at h
      cases h
      exact ⟨name, List.mem_cons_self, finished, hv⟩
    | ok f =>
      rw [hv] at h
      obtain ⟨name', hmem, hvisit⟩ := ih h
      exact ⟨name', List.mem_cons_of_mem name hmem, hvisit⟩

/-- What a search reports is a cycle. -/
theorem isCycle_of_follow_error {fuel : Nat} {path finished cycle : List String} {name : String}
    (h : follow graph fuel path finished name = .error cycle)
    (htrail : Trail graph (name :: path)) : IsCycle graph.Refers cycle := by
  induction fuel generalizing path finished name with
  | zero => cases h
  | succ fuel ih =>
    rw [follow_succ] at h
    cases hfold : (graph.targets name).foldlM (visit graph fuel (name :: path)) finished with
    | ok f =>
      rw [hfold] at h
      cases h
    | error e =>
      rw [hfold] at h
      obtain rfl : e = cycle := by simpa [Except.map] using h
      obtain ⟨target, htarget, finished', hvisit⟩ := exists_visit_of_foldlM_error hfold
      unfold visit at hvisit
      split at hvisit
      · rename_i hhere
        cases hvisit
        exact htrail.isCycle htarget (by simpa using hhere)
      · rename_i hnew
        split at hvisit
        · cases hvisit
        · exact ih hvisit (htrail.cons htarget (by simpa using hnew))

/-- What the whole search reports is a cycle. -/
theorem isCycle_of_findCycle? {cycle : List String} (h : findCycle? graph = some cycle) :
    IsCycle graph.Refers cycle := by
  obtain ⟨name, -, finished, hvisit⟩ :=
    exists_visit_of_foldlM_error (findCycle?_eq_some_iff.mp h)
  rw [visit, if_neg (by simp)] at hvisit
  split at hvisit
  · cases hvisit
  · exact isCycle_of_follow_error hvisit ⟨List.nodup_singleton name, .singleton name⟩

end Resolver

end Requirements
