import Mathlib.Tactic.Lemma
import Requirements.Proofs.Grammar.Printing
import Requirements.Proofs.Grammar.Soundness
import Requirements.Proofs.Grammar.ScriptTree
import Requirements.Proofs.Version.Order

/-!
# The normal form of expressions that are read

What a text can say in two ways is read in one: nothing is compared or tested that could be a
condition on a module, the reserved names stand for what they are reserved for, and sets and
argument lists are not empty. This is a matter of the parts of a parse tree, each with the place at
which it is read: a part is in normal form if those below it are, and the parts are all that the
expression of the tree consists of, but for the connectives.
-/

namespace Requirements

/-- The names of the built-in functions. -/
def builtinFunctions : List String := ["HAS_INCLUDE", "HAS_LIB", "HAS_PROGRAM"]

/-- The names of the built-in facts. -/
def builtinFacts : List String := ["OSNAME", "ITHREADS"]

/-- The built-in functions are the names of the probes. -/
lemma mem_builtinFunctions_iff {name : String} :
    name ∈ builtinFunctions ↔ ∃ kind, Probe.ofName? name = some kind := by
  simp only [Probe.ofName?_eq_some_iff]
  constructor
  · intro h
    simp only [builtinFunctions, List.mem_cons, List.not_mem_nil, or_false] at h
    rcases h with rfl | rfl | rfl
    · exact ⟨.header, rfl⟩
    · exact ⟨.library, rfl⟩
    · exact ⟨.program, rfl⟩
  · rintro ⟨kind, rfl⟩
    cases kind <;> simp [builtinFunctions, Probe.name]

/-- The built-in facts are the names of the platform constants. -/
lemma mem_builtinFacts_iff {name : String} :
    name ∈ builtinFacts ↔ ∃ fact, Platform.ofName? name = some fact := by
  simp only [Platform.ofName?_eq_some_iff]
  constructor
  · intro h
    simp only [builtinFacts, List.mem_cons, List.not_mem_nil, or_false] at h
    rcases h with rfl | rfl
    · exact ⟨.osname, rfl⟩
    · exact ⟨.ithreads, rfl⟩
  · rintro ⟨fact, rfl⟩
    cases fact <;> simp [builtinFacts, Platform.name]

namespace Version

/-- The set has a range, and where a range has both bounds, the low one is not above the high
one. -/
structure RangeSet.Filled (set : RangeSet) : Prop where
  ne_nil : set.ranges ≠ []
  bounds : ∀ r ∈ set.ranges, ∀ low high, r.low = some low → r.high = some high →
    low.order high ≠ .gt

/-- In a range that is not empty, the bounds are in order. -/
theorem Range.order_ne_gt_of_isEmpty {r : Range} (h : r.isEmpty = false) {low high : Version}
    (hlow : r.low = some low) (hhigh : r.high = some high) : low.order high ≠ .gt := by
  simp only [isEmpty, hlow, hhigh, before, beq_eq_false_iff_ne, ne_eq] at h
  rw [← order_swap high low]
  cases hcmp : high.order low with
  | lt => exact absurd hcmp h
  | eq => simp
  | gt => simp

end Version

namespace Expr

/-- The expression is a module without a condition on its version. -/
def Bare (e : Expr) : Prop :=
  ∃ name features, e = package name none features

/-- The expression is a version literal. -/
def IsVersion (e : Expr) : Prop :=
  ∃ v, e = version v

/-- The root of the expression is in normal form. -/
def NormalRoot : Expr → Prop
  | package name constraint _ =>
    name ∉ builtinFunctions ∧ ∀ set, constraint = some (.within set) → set.Filled
  | reference name => name ∉ builtinFacts
  | probe kind args => kind.name ∈ builtinFunctions ∧ args ≠ []
  | compare _ lhs rhs => ¬(lhs.Bare ∧ rhs.IsVersion) ∧ ¬(lhs.IsVersion ∧ rhs.Bare)
  | within operand set => ¬operand.Bare ∧ set.Filled
  | _ => True

/-- All parts of the expression are in normal form. -/
def Normal (e : Expr) : Prop :=
  ∀ n ∈ e.nodes, n.NormalRoot

variable {n lhs rhs operand : Expr} {op : CompareOp} {set : Version.RangeSet}

/-! ### Folding -/

/-- Folding a comparison adds no part but the whole. -/
theorem mem_nodes_comparison (h : n ∈ (comparison op lhs rhs).nodes) :
    n = comparison op lhs rhs ∨ n ∈ lhs.nodes ∨ n ∈ rhs.nodes := by
  rcases Grammar.comparison_cases op lhs rhs with ⟨_, _, _, -, -, heq⟩ | ⟨_, _, _, -, -, heq⟩ | heq
  · rw [heq] at h ⊢
    exact .inl (List.mem_singleton.mp h)
  · rw [heq] at h ⊢
    exact .inl (List.mem_singleton.mp h)
  · rw [heq] at h ⊢
    simpa using h

/-- Folding a set test adds no part but the whole. -/
theorem mem_nodes_membership (h : n ∈ (operand.membership set).nodes) :
    n = operand.membership set ∨ n ∈ operand.nodes := by
  rcases Grammar.membership_cases operand set with ⟨_, _, -, heq⟩ | heq
  · rw [heq] at h ⊢
    exact .inl (List.mem_singleton.mp h)
  · rw [heq] at h ⊢
    simpa using h

/-- What is left of a comparison has nothing to fold. -/
theorem normalRoot_comparison (op : CompareOp) (hl : lhs.NormalRoot) (hr : rhs.NormalRoot) :
    (comparison op lhs rhs).NormalRoot := by
  unfold comparison
  split
  · exact ⟨hl.1, by simp⟩
  · exact ⟨hr.1, by simp⟩
  · rename_i hleft hright
    refine ⟨?_, ?_⟩
    · rintro ⟨⟨name, features, rfl⟩, v, rfl⟩
      exact hleft name features v rfl rfl
    · rintro ⟨⟨v, rfl⟩, name, features, rfl⟩
      exact hright v name features rfl rfl

/-- What is left of a set test has nothing to fold. -/
theorem normalRoot_membership (h : operand.NormalRoot) (hset : set.Filled) :
    (operand.membership set).NormalRoot := by
  unfold membership
  split
  · refine ⟨h.1, ?_⟩
    rintro set' ⟨⟩
    exact hset
  · rename_i hbare
    refine ⟨?_, hset⟩
    rintro ⟨name, features, rfl⟩
    exact hbare name features rfl

/-- A module has a name that is none of the built-in functions. -/
theorem normalRoot_package {name : String} (h : Probe.ofName? name = none)
    (features : List String) : (package name none features).NormalRoot := by
  refine ⟨?_, by simp⟩
  rw [mem_builtinFunctions_iff, h]
  simp

/-- A probe with an argument is in normal form. -/
lemma normalRoot_probe (kind : Probe) (first : String) (others : List String) :
    (probe kind (first :: others)).NormalRoot :=
  ⟨mem_builtinFunctions_iff.mpr ⟨kind, Probe.ofName?_eq_some_iff.mpr rfl⟩,
    List.cons_ne_nil first others⟩

/-- The comparison operators that are read at the place. -/
def Strength.operators : Strength → List CompareOp
  | ordering => [.lt, .le, .gt, .ge]
  | equality => [.eq, .ne]
  | _ => []

/-- An operator of order is read at the place of orderings. -/
lemma Strength.mem_operators_ordering (h : op.isEquality = false) : op ∈ ordering.operators := by
  cases op <;> simp [CompareOp.isEquality, operators] at h ⊢

/-- An operator of equality is read at the place of equalities. -/
lemma Strength.mem_operators_equality (h : op.isEquality = true) : op ∈ equality.operators := by
  cases op <;> simp [CompareOp.isEquality, operators] at h ⊢

end Expr

namespace Grammar

open Requirements.Expr (Strength)

/-! ### The parts of a parse tree -/

/-- What the parts of the tree stand for, connectives apart, each with the place at which it is
read. -/
def Tree.parts : {σ : Symbol} → Tree σ → List (Strength × Expr)
  | _, package name _ => [(.primary, .package name none [])]
  | _, features name _ first others => [(.primary, .package name none (first :: others))]
  | _, probe kind first others => [(.primary, .probe kind (first :: others))]
  | _, braces name => [(.primary, braced name)]
  | _, text value => [(.primary, .text value)]
  | _, version value => [(.primary, .version value)]
  | _, yes => [(.primary, .bool true)]
  | _, no => [(.primary, .bool false)]
  | _, parens inner => inner.parts
  | _, operand t | _, ordering t | _, equality t | _, untagged t => t.parts
  | _, ordered op _ lhs rhs =>
    (.ordering, .comparison op lhs.meaning rhs.meaning) :: (lhs.parts ++ rhs.parts)
  | _, equated op _ lhs rhs =>
    (.equality, .comparison op lhs.meaning rhs.meaning) :: (lhs.parts ++ rhs.parts)
  | _, member t first others =>
    (.within, .membership t.meaning ⟨(first :: others).map Prod.snd⟩) :: t.parts
  | _, tagged t tag => (.tagged, .tagged t.meaning tag) :: t.parts
  | _, chain first rest => first.parts ++ rest.parts
  | _, nothing => []
  | _, join _ t rest => t.parts ++ rest.parts

/-- What stands for a name in braces has no parts. -/
lemma nodes_braced (name : String) : (braced name).nodes = [braced name] := by
  unfold braced
  split <;> rfl

/-- What stands between braces is a fact exactly if its name is that of one. -/
theorem normalRoot_braced (name : String) : (braced name).NormalRoot := by
  unfold braced
  split
  · trivial
  · rename_i hnone
    show name ∉ builtinFacts
    rw [mem_builtinFacts_iff, hnone]
    simp

/-- The expression is a connective or one of the parts. -/
def Found (parts : List (Strength × Expr)) (n : Expr) : Prop :=
  (∃ op lhs rhs, n = .logical op lhs rhs) ∨ ∃ place, (place, n) ∈ parts

namespace Found

variable {parts more : List (Strength × Expr)} {place : Strength} {e n : Expr}

/-- What is found among some parts is found among more. -/
lemma mono (hsub : parts ⊆ more) (h : Found parts n) : Found more n :=
  h.imp_right fun ⟨place, hmem⟩ => ⟨place, hsub hmem⟩

/-- A part without operands is all that there is of it. -/
theorem leaf (hnodes : e.nodes = [e]) (hn : n ∈ e.nodes) : Found [(place, e)] n := by
  rw [hnodes, List.mem_singleton] at hn
  exact .inr ⟨place, by simp [hn]⟩

/-- A part of a comparison is the comparison, or is found in one of its sides. -/
lemma comparison {op : CompareOp} {lhs rhs : Expr} (hl : ∀ n ∈ lhs.nodes, Found parts n)
    (hr : ∀ n ∈ rhs.nodes, Found more n) (hn : n ∈ (Expr.comparison op lhs rhs).nodes) :
    Found ((place, .comparison op lhs rhs) :: (parts ++ more)) n := by
  rcases Expr.mem_nodes_comparison hn with rfl | hn | hn
  · exact .inr ⟨place, List.mem_cons_self⟩
  · exact (hl n hn).mono fun x hx => by simp [hx]
  · exact (hr n hn).mono fun x hx => by simp [hx]

end Found

/-- The meaning of a symbol consists of parts that are found. Operands add theirs to those of the
expression in front of them. -/
def Symbol.Consists : (σ : Symbol) → List (Strength × Expr) → σ.Meaning → Prop
  | place _, parts, e => ∀ n ∈ e.nodes, Found parts n
  | more, parts, f => ∀ (lhs : Expr), ∀ n ∈ (f lhs).nodes, n ∈ lhs.nodes ∨ Found parts n

namespace Tree

/-- What a tree stands for consists of its parts. -/
theorem consists_meaning {σ : Symbol} (t : Tree σ) : σ.Consists t.parts t.meaning := by
  induction t with
  | braces name => exact fun n hn => .leaf (nodes_braced name) hn
  | parens _ ih => exact ih
  | operand _ ih => exact ih
  | ordering _ ih => exact ih
  | equality _ ih => exact ih
  | untagged _ ih => exact ih
  | ordered op _ _ _ ihl ihr => exact fun n hn => .comparison ihl ihr hn
  | equated op _ _ _ ihl ihr => exact fun n hn => .comparison ihl ihr hn
  | member t first others ih =>
    intro n hn
    rcases Expr.mem_nodes_membership hn with rfl | hn
    · exact .inr ⟨.within, List.mem_cons_self⟩
    · exact (ih n hn).mono (List.subset_cons_self _ _)
  | tagged t tag ih =>
    intro n hn
    rcases List.mem_cons.mp hn with rfl | hn
    · exact .inr ⟨.tagged, List.mem_cons_self⟩
    · exact (ih n hn).mono (List.subset_cons_self _ _)
  | chain first rest ihf ihr =>
    intro n hn
    rcases ihr first.meaning n hn with hn | hn
    · exact (ihf n hn).mono (List.subset_append_left _ _)
    · exact hn.mono (List.subset_append_right _ _)
  | nothing => exact fun lhs n hn => .inl hn
  | join op t rest iht ihr =>
    intro lhs n hn
    rcases ihr (.logical op lhs t.meaning) n hn with hn | hn
    · rcases Expr.mem_nodes_logical hn with rfl | hn | hn
      · exact .inr (.inl ⟨op, lhs, t.meaning, rfl⟩)
      · exact .inl hn
      · exact .inr ((iht n hn).mono (List.subset_append_left _ _))
    · exact .inr (hn.mono (List.subset_append_right _ _))
  | _ => exact fun n hn => .leaf rfl hn

/-- A part is as it should be: its root is in normal form, and if it is a comparison, its operator
is one that is read at its place. -/
structure SoundPart (part : Strength × Expr) : Prop where
  root : part.2.NormalRoot
  operator : ∀ op lhs rhs, part.2 = .compare op lhs rhs → op ∈ part.1.operators

/-- An expression consists of parts in normal form if the parts of its tree are sound. -/
theorem normal_of_parts {strength : Strength} {t : Tree (.place strength)}
    (h : ∀ part ∈ t.parts, SoundPart part) : Expr.Normal t.meaning := by
  intro n hn
  rcases t.consists_meaning n hn with ⟨op, lhs, rhs, rfl⟩ | ⟨place, hpart⟩
  · trivial
  · exact (h _ hpart).root

/-- A comparison is sound at a place where its operator is read. -/
theorem soundPart_comparison {place : Strength} {op : CompareOp} {lhs rhs : Expr}
    (hop : op ∈ place.operators) (hl : lhs.Normal) (hr : rhs.Normal) :
    SoundPart (place, .comparison op lhs rhs) := by
  refine ⟨Expr.normalRoot_comparison op (hl _ lhs.self_mem_nodes) (hr _ rhs.self_mem_nodes), ?_⟩
  intro op' l r heq
  rcases comparison_cases op lhs rhs with ⟨_, _, _, -, -, h⟩ | ⟨_, _, _, -, -, h⟩ | h
  · cases h.symm.trans heq
  · cases h.symm.trans heq
  · cases h.symm.trans heq
    exact hop

/-- Where nothing is compared, only the root counts. -/
theorem SoundPart.of_ne_compare {place : Strength} {e : Expr} (hroot : e.NormalRoot)
    (hcompare : ∀ op lhs rhs, e ≠ .compare op lhs rhs) : SoundPart (place, e) :=
  ⟨hroot, fun op lhs rhs heq => absurd heq (hcompare op lhs rhs)⟩

/-- What stands for a name in braces is as it should be. -/
lemma soundPart_braced (name : String) : SoundPart (.primary, braced name) := by
  refine .of_ne_compare (normalRoot_braced name) fun op lhs rhs => ?_
  unfold braced
  split <;> simp

/-- A set test of a normal operand is as it should be, if the set has ranges. -/
lemma soundPart_membership {operand : Expr} {set : Version.RangeSet} (h : operand.Normal)
    (hset : set.Filled) : SoundPart (.within, .membership operand set) := by
  refine .of_ne_compare (Expr.normalRoot_membership (h _ operand.self_mem_nodes) hset) ?_
  intro op lhs rhs heq
  rcases membership_cases operand set with ⟨_, _, -, h⟩ | h
  · cases h.symm.trans heq
  · cases h.symm.trans heq

/-- The parts of a tree are sound if the bounds of its ranges are in order. -/
theorem soundPart_of_mem_parts {σ : Symbol} {t : Tree σ}
    (h : ∀ r ∈ t.ranges, r.isEmpty = false) : ∀ part ∈ t.parts, SoundPart part := by
  induction t with
  | package name hname =>
    have hroot := Expr.normalRoot_package hname []
    exact List.forall_mem_singleton.mpr (.of_ne_compare hroot (by simp))
  | features name hname first others =>
    have hroot := Expr.normalRoot_package hname (first :: others)
    exact List.forall_mem_singleton.mpr (.of_ne_compare hroot (by simp))
  | probe kind first others =>
    have hroot := Expr.normalRoot_probe kind first others
    exact List.forall_mem_singleton.mpr (.of_ne_compare hroot (by simp))
  | braces name => exact List.forall_mem_singleton.mpr (soundPart_braced name)
  | text value => exact List.forall_mem_singleton.mpr (.of_ne_compare trivial (by simp))
  | version value => exact List.forall_mem_singleton.mpr (.of_ne_compare trivial (by simp))
  | yes => exact List.forall_mem_singleton.mpr (.of_ne_compare trivial (by simp))
  | no => exact List.forall_mem_singleton.mpr (.of_ne_compare trivial (by simp))
  | parens _ ih => exact ih h
  | operand _ ih => exact ih h
  | ordering _ ih => exact ih h
  | equality _ ih => exact ih h
  | untagged _ ih => exact ih h
  | ordered op hop lhs rhs ihl ihr =>
    obtain ⟨hl, hr⟩ := List.forall_mem_append.mp h
    have hpart := soundPart_comparison (Strength.mem_operators_ordering hop)
      (normal_of_parts (ihl hl)) (normal_of_parts (ihr hr))
    exact List.forall_mem_cons.mpr ⟨hpart, List.forall_mem_append.mpr ⟨ihl hl, ihr hr⟩⟩
  | equated op hop lhs rhs ihl ihr =>
    obtain ⟨hl, hr⟩ := List.forall_mem_append.mp h
    have hpart := soundPart_comparison (Strength.mem_operators_equality hop)
      (normal_of_parts (ihl hl)) (normal_of_parts (ihr hr))
    exact List.forall_mem_cons.mpr ⟨hpart, List.forall_mem_append.mpr ⟨ihl hl, ihr hr⟩⟩
  | member t first others ih =>
    obtain ⟨ht, hranges⟩ := List.forall_mem_append.mp h
    have hset : Version.RangeSet.Filled ⟨(first :: others).map Prod.snd⟩ :=
      ⟨by simp, fun r hr low high => Version.Range.order_ne_gt_of_isEmpty (hranges r hr)⟩
    have hpart := soundPart_membership (normal_of_parts (ih ht)) hset
    exact List.forall_mem_cons.mpr ⟨hpart, ih ht⟩
  | tagged t tag ih =>
    exact List.forall_mem_cons.mpr ⟨.of_ne_compare trivial (by simp), ih h⟩
  | chain first rest ihf ihr =>
    obtain ⟨hfirst, hrest⟩ := List.forall_mem_append.mp h
    exact List.forall_mem_append.mpr ⟨ihf hfirst, ihr hrest⟩
  | nothing => simp [parts]
  | join op t rest iht ihr =>
    obtain ⟨ht, hrest⟩ := List.forall_mem_append.mp h
    exact List.forall_mem_append.mpr ⟨iht ht, ihr hrest⟩

/-- The comparisons in the expression of the tree are sorted by their operators: each one is read at
a place for orderings or at one for equalities, and is of the kind that the place is for. -/
structure SortsComparisons {strength : Strength} (t : Tree (.place strength)) : Prop where
  read : ∀ op lhs rhs, .compare op lhs rhs ∈ Expr.nodes t.meaning →
    ∃ place, (place, .compare op lhs rhs) ∈ t.parts
  sorted : ∀ place op lhs rhs, (place, .compare op lhs rhs) ∈ t.parts → op ∈ place.operators

/-- The comparisons of a tree that fits are sorted by their operators. -/
lemma Fits.sortsComparisons {strength : Strength} {t : Tree (.place strength)} {inChoice : Bool}
    {levels : Nat} (h : t.Fits inChoice levels) : t.SortsComparisons where
  read op lhs rhs hmem := by
    rcases t.consists_meaning _ hmem with ⟨_, _, _, heq⟩ | hpart
    · cases heq
    · exact hpart
  sorted place op lhs rhs hpart := (soundPart_of_mem_parts h.ranges _ hpart).operator op lhs rhs rfl

/-- A tree that fits means an expression in normal form. -/
lemma Fits.normal {strength : Strength} {t : Tree (.place strength)} {inChoice : Bool}
    {levels : Nat} (h : t.Fits inChoice levels) : Expr.Normal t.meaning :=
  normal_of_parts (soundPart_of_mem_parts h.ranges)

end Tree

/-- The trees of the expressions of a script. -/
def ScriptTree.expressions (t : ScriptTree) : List (Tree (.place .logical)) :=
  t.definitions.map DefinitionTree.body ++ t.master.expr?.toList

/-! ### Scripts -/

/-- An expression that is derived is in normal form. -/
theorem Derives.normal {inChoice : Bool} {levels : Nat} {strength : Strength} {words : List Lexeme}
    {e : Expr} (h : Derives inChoice levels strength words e) : e.Normal := by
  obtain ⟨t, hfits, -, rfl⟩ := derives_iff_exists_tree.mp h
  exact hfits.normal

/-- An expression that is derived outside of the body of a choice has no tagged part. -/
theorem Derives.tagged_not_mem_nodes {levels : Nat} {strength : Strength} {words : List Lexeme}
    {e : Expr} (h : Derives false levels strength words e) (operand : Expr) (tag : String) :
    .tagged operand tag ∉ e.nodes := by
  intro hmem
  have htag : tag ∈ e.tags := List.mem_filterMap.mpr ⟨_, hmem, rfl⟩
  rw [h.tags_eq_nil rfl] at htag
  exact absurd htag List.not_mem_nil

/-- The body of every definition derives from some of the words. -/
lemma DerivesDefinitions.exists_derives {tokens : List Token} {definitions : List Definition}
    (h : DerivesDefinitions tokens definitions) : ∀ d ∈ definitions,
      ∃ words, Derives (d.kind == .choice) maxNesting .logical words d.body := by
  induction h with
  | nil => simp
  | cons _ _ hbody _ ih => exact List.forall_mem_cons.mpr ⟨⟨_, hbody⟩, ih⟩

/-- The master expression derives from some of the words. -/
lemma DerivesMaster.exists_derives {words : List Lexeme} {e : Expr}
    (h : DerivesMaster words (some e)) : ∃ words, Derives false maxNesting .logical words e := by
  cases h with
  | plain h => exact ⟨_, h⟩
  | closed h => exact ⟨_, h⟩

end Grammar

namespace Script

/-- All expressions of the script are in normal form, tagged parts stand in the bodies of choices
only, and no tag occurs twice. -/
structure NormalForm (s : Script) : Prop where
  bodies : ∀ d ∈ s.definitions, d.body.Normal
  master : ∀ e, s.master = some e → e.Normal
  tagged : ∀ d ∈ s.definitions, ∀ operand tag, .tagged operand tag ∈ d.body.nodes →
    d.kind = .choice
  untagged : ∀ e, s.master = some e → ∀ operand tag, .tagged operand tag ∉ e.nodes
  nodup : (s.definitions.flatMap fun d => d.body.tags).Nodup

/-- A script that derives from tokens is in normal form: each body by its own derivation, the tags
because a tag is never used twice. -/
lemma normalForm_of_derivesScript {tokens : List Token} {s : Script}
    (h : Grammar.DerivesScript tokens s) : s.NormalForm := by
  obtain ⟨front, back, -, hdefinitions, hmaster, hnodup⟩ := h
  refine ⟨fun d hd => ?_, fun e he => ?_, fun d hd operand tag hmem => ?_, fun e he => ?_, hnodup⟩
  · obtain ⟨words, hderives⟩ := hdefinitions.exists_derives d hd
    exact hderives.normal
  · rw [he] at hmaster
    obtain ⟨words, hderives⟩ := hmaster.exists_derives
    exact hderives.normal
  · obtain ⟨words, hderives⟩ := hdefinitions.exists_derives d hd
    cases hkind : d.kind with
    | choice => rfl
    | plain =>
      rw [hkind] at hderives
      exact absurd hmem (Grammar.Derives.tagged_not_mem_nodes hderives operand tag)
  · rw [he] at hmaster
    obtain ⟨words, hderives⟩ := hmaster.exists_derives
    exact hderives.tagged_not_mem_nodes

/-- A script that is read is in normal form. In its parse tree, the comparisons by order and those
by equality are read at places of their own, each with its operators. -/
theorem normalForm_of_parse {source : String} {s : Script} (h : parse source = .ok s) :
    s.NormalForm ∧ ∃ (stream : TokenStream) (t : Grammar.ScriptTree),
      tokenize source = .ok stream ∧ t.words = stream.tokens.map Token.lexeme ∧
        t.meaning (definitionLines stream.tokens) = s ∧
        ∀ e ∈ t.expressions, e.SortsComparisons := by
  obtain ⟨stream, htokenize, hderives⟩ := exists_derives_of_parse h
  obtain ⟨t, hwords, hadmissible, hmeaning⟩ := Grammar.derivesScript_iff_exists_tree.mp hderives
  refine ⟨normalForm_of_derivesScript hderives, stream, t, htokenize, hwords, hmeaning,
    fun e he => ?_⟩
  rcases List.mem_append.mp he with he | he
  · obtain ⟨d, hd, rfl⟩ := List.mem_map.mp he
    exact (hadmissible.bodies d hd).sortsComparisons
  · exact (hadmissible.master e (Option.mem_toList.mp he)).sortsComparisons

/-- Comparisons of modules that have a condition already stay, while a version in front of a module
becomes a condition on it, with the operator turned around. -/
theorem normalForm_of_parse_folded :
    let condition (op : CompareOp) (digit : Nat) (text : String) : Option Constraint :=
      some (.compare op ⟨[.number digit], text⟩)
    let two : Version := ⟨[.number 2], "2"⟩
    let newer : Expr := .compare .eq (.package "OpenSSL" (condition .gt 1 "1") []) (.version two)
    let older : Expr := .package "LibreSSL" (condition .gt 3 "3") ["tls"]
    let s : Script := ⟨[⟨.choice, "ssl", .logical .or (.tagged newer "new") older, 1⟩],
      some (.logical .and (.probe .header ["ssl.h"]) (.reference "ssl"))⟩
    Script.parse ("choice ssl = (OpenSSL > 1) == 2 as :new || 3 < LibreSSL#(tls); " ++
        "HAS_INCLUDE('ssl.h') && \x7bssl\x7d") = .ok s ∧ s.NormalForm := by
  intro condition two newer older s
  have hparse : Script.parse ("choice ssl = (OpenSSL > 1) == 2 as :new || 3 < LibreSSL#(tls); " ++
      "HAS_INCLUDE('ssl.h') && \x7bssl\x7d") = .ok s := by decide +kernel
  exact ⟨hparse, (normalForm_of_parse hparse).1⟩

end Script

end Requirements
