import Mathlib.Tactic.Lemma
import Requirements.Proofs.Grammar.Completeness
import Requirements.Proofs.Grammar.ScriptTree
import Requirements.Proofs.Grammar.Soundness

/-!
# The grammar is unambiguous

Two parse trees that derive the same words are the same. As words stand in front of others, this
says more generally: if the words of two trees, each followed by further words, are the same
altogether, and if what follows would not be read on with either of them, then the trees and what
follows are the same. So every rule is decided by the words at its front and by those behind its
parts.

Together with what the readers accept and find, this characterizes the reading of tokens.
-/

namespace Requirements

namespace Grammar

open Requirements.Expr (Strength)
open Requirements.Parser (Stops stops_some readsOn)

/-! ### Lists of items -/

/-- Every item starts with a word that marks the start of one, and is determined by the words at the
front of a text. -/
structure Delimited {α : Type} (starts : Lexeme → Bool) (words : α → List Lexeme) : Prop where
  start : ∀ a, ∃ l rest, words a = l :: rest ∧ starts l = true
  inj : ∀ a b u v, words a ++ u = words b ++ v → a = b ∧ u = v

/-- Items are determined by their words up to one that starts no item. -/
theorem Delimited.flatMap_inj {α : Type} {starts : Lexeme → Bool} {words : α → List Lexeme}
    (h : Delimited starts words) {as bs : List α} {u v : List Lexeme}
    (hu : ∀ l ∈ u.head?, starts l = false) (hv : ∀ l ∈ v.head?, starts l = false)
    (heq : as.flatMap words ++ u = bs.flatMap words ++ v) : as = bs ∧ u = v := by
  have hnil {a : α} {as : List α} {u v : List Lexeme} (hv : ∀ l ∈ v.head?, starts l = false) :
      (a :: as).flatMap words ++ u ≠ v := by
    rintro rfl
    obtain ⟨l, rest, ha, hl⟩ := h.start a
    have hfalse : starts l = false := hv l (by simp [List.flatMap_cons, ha])
    rw [hl] at hfalse
    cases hfalse
  induction as generalizing bs with
  | nil =>
    cases bs with
    | nil => exact ⟨rfl, heq⟩
    | cons b bs => exact absurd heq.symm (hnil hu)
  | cons a as ih =>
    cases bs with
    | nil => exact absurd heq (hnil hv)
    | cons b bs =>
      rw [List.flatMap_cons, List.flatMap_cons, List.append_assoc, List.append_assoc] at heq
      obtain ⟨rfl, hrest⟩ := h.inj a b _ _ heq
      obtain ⟨rfl, huv⟩ := ih hrest
      exact ⟨rfl, huv⟩

/-- A list with a separator is determined by its words up to a closing one. -/
theorem separated_inj {separator close : Lexeme} {word : String → Lexeme}
    (hword : ∀ a b, word a = word b → a = b) (hclose : close ≠ separator)
    {first first' : String} {others others' : List String} {u v : List Lexeme}
    (h : word first :: others.flatMap (fun a => [separator, word a]) ++ close :: u =
      word first' :: others'.flatMap (fun a => [separator, word a]) ++ close :: v) :
    first = first' ∧ others = others' ∧ u = v := by
  have hitems : Delimited (· == separator) fun a : String => [separator, word a] := by
    refine ⟨fun a => ⟨_, _, rfl, beq_self_eq_true separator⟩, fun a b u v hab => ?_⟩
    simp only [List.cons_append, List.nil_append, List.cons.injEq, true_and] at hab
    exact ⟨hword a b hab.1, hab.2⟩
  have hstop (u : List Lexeme) : ∀ l ∈ (close :: u).head?, (l == separator) = false := by
    simpa using hclose
  rw [List.cons_append, List.cons_append, List.cons.injEq] at h
  obtain ⟨hothers, huv⟩ := hitems.flatMap_inj (hstop u) (hstop v) h.2
  exact ⟨hword first first' h.1, hothers, List.tail_eq_of_cons_eq huv⟩

/-- Whether the word is a range. -/
def isRange : Lexeme → Bool
  | .range _ _ => true
  | _ => false

/-- The end of a version set tells where its ranges end. -/
lemma rangeWords_inj {ranges ranges' : List (String × Version.Range)} {u v : List Lexeme}
    (h : rangeWords ranges ++ .closeSet :: u = rangeWords ranges' ++ .closeSet :: v) :
    ranges = ranges' ∧ u = v := by
  have hitems : Delimited isRange fun r : String × Version.Range => [.range r.1 r.2] := by
    refine ⟨fun r => ⟨_, _, rfl, rfl⟩, fun r r' u v hr => ?_⟩
    simp only [List.cons_append, List.nil_append, List.cons.injEq, Lexeme.range.injEq] at hr
    exact ⟨Prod.ext hr.1.1 hr.1.2, hr.2⟩
  have hstop (u : List Lexeme) : ∀ l ∈ (Lexeme.closeSet :: u).head?, isRange l = false := by
    simp [isRange]
  rw [rangeWords, rangeWords, List.map_eq_flatMap, List.map_eq_flatMap] at h
  obtain ⟨hranges, huv⟩ := hitems.flatMap_inj (hstop u) (hstop v) h
  exact ⟨hranges, List.tail_eq_of_cons_eq huv⟩

/-! ### Expressions -/

/-- A probe is found under its name. -/
lemma ofName?_name (kind : Probe) : Probe.ofName? kind.name = some kind := by
  cases kind <;> rfl

/-- A word that stops the reading in a place is not read on with. -/
theorem elim_stops {strength : Strength} {l : Lexeme} {u : List Lexeme} {P : Prop}
    (h : Stops strength (l :: u).head?) (hl : readsOn strength l = true) : P := by
  have hfalse := h l rfl
  rw [hl] at hfalse
  cases hfalse

/-- What stops the reading in a place stops it in the next stronger one. -/
theorem stops_next {strength stronger : Strength} (hrank : strength.rank + 1 = stronger.rank)
    {o : Option Lexeme} (h : Stops strength o) : Stops stronger o :=
  h.mono (by omega)

/-- A word that is not read on at a place stops there. -/
lemma stops_cons {strength : Strength} {l : Lexeme} {u : List Lexeme}
    (h : readsOn strength l = false) : Stops strength (l :: u).head? :=
  stops_some h

/-- The reader of a primary expression stops at a comparison. -/
lemma readsOn_primary_compare (op : CompareOp) : readsOn .primary (.compare op) = false := by
  cases hop : op.isEquality <;> simp [readsOn, Strength.ofCompare, hop, Strength.rank]

/-- The reader of an ordering reads on at an operator of order. -/
lemma readsOn_ordering_compare {op : CompareOp} (h : op.isEquality = false) :
    readsOn .ordering (.compare op) = true := by
  simp [readsOn, Strength.ofCompare, h]

/-- The reader of an ordering stops at an operator of equality. -/
lemma readsOn_ordering_compare_equality {op : CompareOp} (h : op.isEquality = true) :
    readsOn .ordering (.compare op) = false := by
  simp [readsOn, Strength.ofCompare, h, Strength.rank]

/-- The reader of an equality reads on at every operator. -/
lemma readsOn_equality_compare (op : CompareOp) : readsOn .equality (.compare op) = true := by
  cases hop : op.isEquality <;> simp [readsOn, Strength.ofCompare, hop, Strength.rank]

/-- The tree is determined by its words and what follows them, unless what follows would be read on
with. -/
def Tree.Determined {σ : Symbol} (t : Tree σ) : Prop :=
  ∀ ⦃t' : Tree σ⦄ ⦃u v : List Lexeme⦄, Stops σ.strength u.head? → Stops σ.strength v.head? →
    t.words ++ u = t'.words ++ v → t = t' ∧ u = v

namespace Tree.Determined

/-! #### Primary expressions -/

/-- A tree of a module without features is determined by its words: the name is no probe's. -/
lemma package (name : String) (hname : Probe.ofName? name = none) :
    (Tree.package name hname).Determined := by
  intro t' u v hu hv h
  cases t' with
  | package name' hname' =>
    simp only [words, List.cons_append, List.nil_append, List.cons.injEq, Lexeme.name.injEq] at h
    obtain ⟨rfl, rfl⟩ := h
    exact ⟨rfl, rfl⟩
  | features name' hname' first others =>
    -- What follows the name would be read on with, as a list of features.
    simp only [words, List.cons_append, List.nil_append, List.cons.injEq] at h
    rw [h.2] at hu
    exact elim_stops hu rfl
  | probe kind first others =>
    simp only [words, List.cons_append, List.cons.injEq, Lexeme.name.injEq] at h
    rw [h.1, ofName?_name] at hname
    cases hname
  | _ => simp [words] at h

/-- A tree of a module with features is determined by its words, up to the parenthesis that closes
them. -/
lemma features (name : String) (hname : Probe.ofName? name = none) (first : String)
    (others : List String) : (Tree.features name hname first others).Determined := by
  intro t' u v hu hv h
  cases t' with
  | package name' hname' =>
    simp only [words, List.cons_append, List.nil_append, List.cons.injEq] at h
    rw [← h.2] at hv
    exact elim_stops hv rfl
  | features name' hname' first' others' =>
    simp only [words, List.cons_append, List.append_assoc, List.nil_append, List.cons.injEq,
      Lexeme.name.injEq, true_and] at h
    obtain ⟨rfl, h⟩ := h
    obtain ⟨rfl, rfl, rfl⟩ := separated_inj (fun a b => Lexeme.name.inj) (by simp) h
    exact ⟨rfl, rfl⟩
  | _ => simp [words] at h

/-- A tree of a probe is determined by its words, up to the parenthesis that closes its
arguments. -/
lemma probe (kind : Probe) (first : String) (others : List String) :
    (Tree.probe kind first others).Determined := by
  intro t' u v hu hv h
  cases t' with
  | package name' hname' =>
    simp only [words, List.cons_append, List.cons.injEq, Lexeme.name.injEq] at h
    rw [← h.1, ofName?_name] at hname'
    cases hname'
  | probe kind' first' others' =>
    simp only [words, List.cons_append, List.append_assoc, List.nil_append, List.cons.injEq,
      Lexeme.name.injEq, true_and] at h
    obtain ⟨hkind, h⟩ := h
    obtain rfl : kind = kind' := by
      have hsome := ofName?_name kind
      rw [hkind, ofName?_name] at hsome
      exact (Option.some.inj hsome).symm
    obtain ⟨rfl, rfl, rfl⟩ := separated_inj (fun a b => Lexeme.quoted.inj) (by simp) h
    exact ⟨rfl, rfl⟩
  | _ => simp [words] at h

/-- A tree of a name in braces is determined by its words. -/
lemma braces (name : String) : (Tree.braces name).Determined := by
  intro t' u v hu hv h
  cases t' with
  | braces name' =>
    simp only [words, List.cons_append, List.nil_append, List.cons.injEq, true_and,
      Lexeme.name.injEq] at h
    obtain ⟨rfl, rfl⟩ := h
    exact ⟨rfl, rfl⟩
  | _ => simp [words] at h

/-- A tree of a quoted text is determined by its word. -/
lemma text (value : String) : (Tree.text value).Determined := by
  intro t' u v hu hv h
  cases t' with
  | text value' =>
    simp only [words, List.cons_append, List.nil_append, List.cons.injEq, Lexeme.quoted.injEq] at h
    obtain ⟨rfl, rfl⟩ := h
    exact ⟨rfl, rfl⟩
  | _ => simp [words] at h

/-- A tree of a version is determined by its word. -/
lemma version (value : Version) : (Tree.version value).Determined := by
  intro t' u v hu hv h
  cases t' with
  | version value' =>
    simp only [words, List.cons_append, List.nil_append, List.cons.injEq, Lexeme.version.injEq] at h
    obtain ⟨rfl, rfl⟩ := h
    exact ⟨rfl, rfl⟩
  | _ => simp [words] at h

/-- A tree of "true" is determined by its word. -/
lemma yes : Tree.yes.Determined := by
  intro t' u v hu hv h
  cases t' with
  | yes => exact ⟨rfl, List.tail_eq_of_cons_eq h⟩
  | _ => simp [words] at h

/-- A tree of "false" is determined by its word. -/
lemma no : Tree.no.Determined := by
  intro t' u v hu hv h
  cases t' with
  | no => exact ⟨rfl, List.tail_eq_of_cons_eq h⟩
  | _ => simp [words] at h

/-- A tree in parentheses is determined, since the inner tree ends at the closing one. -/
lemma parens {inner : Tree (.place .logical)} (hinner : inner.Determined) :
    (Tree.parens inner).Determined := by
  intro t' u v hu hv h
  cases t' with
  | parens inner' =>
    simp only [words, List.cons_append, List.append_assoc, List.nil_append, List.cons.injEq,
      true_and] at h
    obtain ⟨rfl, huv⟩ := hinner (stops_cons rfl) (stops_cons rfl) h
    exact ⟨rfl, List.tail_eq_of_cons_eq huv⟩
  | _ => simp [words] at h

/-! #### Operands with and without an operator -/

/-- A comparison is determined if its operands are and are not read on with at the operator. -/
theorem comparison_inj {strength : Strength} {lhs lhs' rhs rhs' : Tree (.place strength)}
    (hlhs : lhs.Determined) (hrhs : rhs.Determined) {op op' : CompareOp}
    (hop : readsOn strength (.compare op) = false) (hop' : readsOn strength (.compare op') = false)
    {u v : List Lexeme} (hu : Stops strength u.head?) (hv : Stops strength v.head?)
    (h : lhs.words ++ .compare op :: (rhs.words ++ u) =
      lhs'.words ++ .compare op' :: (rhs'.words ++ v)) :
    lhs = lhs' ∧ op = op' ∧ rhs = rhs' ∧ u = v := by
  obtain ⟨hl, hrest⟩ := hlhs (stops_cons hop) (stops_cons hop') h
  rw [List.cons.injEq, Lexeme.compare.injEq] at hrest
  obtain ⟨hr, huv⟩ := hrhs hu hv hrest.2
  exact ⟨hl, hrest.1, hr, huv⟩

/-- A tree without an operator of order is determined by its only operand. -/
lemma operand {t : Tree (.place .primary)} (ht : t.Determined) :
    (Tree.operand t).Determined := by
  intro t' u v hu hv h
  have hu' : Stops .primary u.head? := stops_next rfl hu
  cases t' with
  | operand t' =>
    have hv' : Stops .primary v.head? := stops_next rfl hv
    obtain ⟨rfl, rfl⟩ := ht hu' hv' h
    exact ⟨rfl, rfl⟩
  | ordered op hop lhs rhs =>
    simp only [words, List.append_assoc, List.cons_append] at h
    obtain ⟨-, rfl⟩ := ht hu' (stops_cons (readsOn_primary_compare op)) h
    exact elim_stops hu (readsOn_ordering_compare hop)

/-- A tree with an operator of order is determined by its operands. -/
lemma ordered {op : CompareOp} (hop : op.isEquality = false) {lhs rhs : Tree (.place .primary)}
    (hlhs : lhs.Determined) (hrhs : rhs.Determined) :
    (Tree.ordered op hop lhs rhs).Determined := by
  intro t' u v hu hv h
  have hv' : Stops .primary v.head? := stops_next rfl hv
  cases t' with
  | operand t' =>
    simp only [words, List.append_assoc, List.cons_append] at h
    obtain ⟨-, rfl⟩ := hlhs (stops_cons (readsOn_primary_compare op)) hv' h
    exact elim_stops hv (readsOn_ordering_compare hop)
  | ordered op' hop' lhs' rhs' =>
    simp only [words, List.append_assoc, List.cons_append] at h
    obtain ⟨rfl, rfl, rfl, rfl⟩ := hlhs.comparison_inj hrhs (readsOn_primary_compare op)
      (readsOn_primary_compare op') (stops_next rfl hu) hv' h
    exact ⟨rfl, rfl⟩

/-- A tree without an operator of equality is determined by its only operand. -/
lemma ordering {t : Tree (.place .ordering)} (ht : t.Determined) :
    (Tree.ordering t).Determined := by
  intro t' u v hu hv h
  have hu' : Stops .ordering u.head? := stops_next rfl hu
  cases t' with
  | ordering t' =>
    have hv' : Stops .ordering v.head? := stops_next rfl hv
    obtain ⟨rfl, rfl⟩ := ht hu' hv' h
    exact ⟨rfl, rfl⟩
  | equated op hop lhs rhs =>
    simp only [words, List.append_assoc, List.cons_append] at h
    obtain ⟨-, rfl⟩ := ht hu' (stops_cons (readsOn_ordering_compare_equality hop)) h
    exact elim_stops hu (readsOn_equality_compare op)

/-- A tree with an operator of equality is determined by its operands. -/
lemma equated {op : CompareOp} (hop : op.isEquality = true) {lhs rhs : Tree (.place .ordering)}
    (hlhs : lhs.Determined) (hrhs : rhs.Determined) :
    (Tree.equated op hop lhs rhs).Determined := by
  intro t' u v hu hv h
  have hv' : Stops .ordering v.head? := stops_next rfl hv
  cases t' with
  | ordering t' =>
    simp only [words, List.append_assoc, List.cons_append] at h
    obtain ⟨-, rfl⟩ := hlhs (stops_cons (readsOn_ordering_compare_equality hop)) hv' h
    exact elim_stops hv (readsOn_equality_compare op)
  | equated op' hop' lhs' rhs' =>
    simp only [words, List.append_assoc, List.cons_append] at h
    obtain ⟨rfl, rfl, rfl, rfl⟩ := hlhs.comparison_inj hrhs
      (readsOn_ordering_compare_equality hop) (readsOn_ordering_compare_equality hop')
      (stops_next rfl hu) hv' h
    exact ⟨rfl, rfl⟩

/-- A tree without a set test is determined by its only operand. -/
lemma equality {t : Tree (.place .equality)} (ht : t.Determined) :
    (Tree.equality t).Determined := by
  intro t' u v hu hv h
  have hu' : Stops .equality u.head? := stops_next rfl hu
  cases t' with
  | equality t' =>
    have hv' : Stops .equality v.head? := stops_next rfl hv
    obtain ⟨rfl, rfl⟩ := ht hu' hv' h
    exact ⟨rfl, rfl⟩
  | member t' first others =>
    simp only [words, List.append_assoc, List.cons_append, List.nil_append] at h
    obtain ⟨-, rfl⟩ := ht hu' (stops_cons rfl) h
    exact elim_stops hu rfl

/-- A tree with a set test is determined by its operand and its ranges. -/
lemma member {t : Tree (.place .equality)} (ht : t.Determined) (first : String × Version.Range)
    (others : List (String × Version.Range)) : (Tree.member t first others).Determined := by
  intro t' u v hu hv h
  cases t' with
  | equality t' =>
    have hv' : Stops .equality v.head? := stops_next rfl hv
    simp only [words, List.append_assoc, List.cons_append, List.nil_append] at h
    obtain ⟨-, rfl⟩ := ht (stops_cons rfl) hv' h
    exact elim_stops hv rfl
  | member t' first' others' =>
    simp only [words, List.append_assoc, List.cons_append, List.nil_append] at h
    obtain ⟨rfl, hrest⟩ := ht (stops_cons rfl) (stops_cons rfl) h
    simp only [List.cons.injEq, true_and] at hrest
    obtain ⟨hranges, rfl⟩ := rangeWords_inj hrest
    obtain ⟨rfl, rfl⟩ := List.cons.inj hranges
    exact ⟨rfl, rfl⟩

/-- A tree without a tag is determined by its only operand. -/
lemma untagged {t : Tree (.place .within)} (ht : t.Determined) :
    (Tree.untagged t).Determined := by
  intro t' u v hu hv h
  have hu' : Stops .within u.head? := stops_next rfl hu
  cases t' with
  | untagged t' =>
    have hv' : Stops .within v.head? := stops_next rfl hv
    obtain ⟨rfl, rfl⟩ := ht hu' hv' h
    exact ⟨rfl, rfl⟩
  | tagged t' tag =>
    simp only [words, List.append_assoc, List.cons_append, List.nil_append] at h
    obtain ⟨-, rfl⟩ := ht hu' (stops_cons rfl) h
    exact elim_stops hu rfl

/-- A tree with a tag is determined by its operand and the tag. -/
lemma tagged {t : Tree (.place .within)} (ht : t.Determined) (tag : String) :
    (Tree.tagged t tag).Determined := by
  intro t' u v hu hv h
  cases t' with
  | untagged t' =>
    have hv' : Stops .within v.head? := stops_next rfl hv
    simp only [words, List.append_assoc, List.cons_append, List.nil_append] at h
    obtain ⟨-, rfl⟩ := ht (stops_cons rfl) hv' h
    exact elim_stops hv rfl
  | tagged t' tag' =>
    simp only [words, List.append_assoc, List.cons_append, List.nil_append] at h
    obtain ⟨rfl, hrest⟩ := ht (stops_cons rfl) (stops_cons rfl) h
    simp only [List.cons.injEq, true_and, Lexeme.name.injEq] at hrest
    obtain ⟨rfl, rfl⟩ := hrest
    exact ⟨rfl, rfl⟩

/-! #### Chains of operands -/

/-- Further operands, or what follows them, stop the reading of an operand. -/
theorem stops_more {rest : Tree .more} {u : List Lexeme} (hu : Stops .logical u.head?) :
    Stops .tagged (rest.words ++ u).head? := by
  cases rest with
  | nothing => exact stops_next rfl hu
  | join op t rest => exact stops_cons rfl

/-- A chain is determined by its first operand and the rest. -/
lemma chain {first : Tree (.place .tagged)} {rest : Tree .more} (hfirst : first.Determined)
    (hrest : rest.Determined) : (Tree.chain first rest).Determined := by
  intro t' u v hu hv h
  cases t' with
  | chain first' rest' =>
    simp only [words, List.append_assoc] at h
    obtain ⟨rfl, hmore⟩ := hfirst (stops_more hu) (stops_more hv) h
    obtain ⟨rfl, rfl⟩ := hrest hu hv hmore
    exact ⟨rfl, rfl⟩

/-- An empty rest of a chain is determined: no connective follows. -/
lemma nothing : Tree.nothing.Determined := by
  intro t' u v hu hv h
  cases t' with
  | nothing => exact ⟨rfl, h⟩
  | join op t rest =>
    obtain rfl : u = _ := h
    exact elim_stops hu rfl

/-- A rest of a chain is determined by its connective, its first operand and what is left. -/
lemma join (op : LogicalOp) {t : Tree (.place .tagged)} {rest : Tree .more}
    (ht : t.Determined) (hrest : rest.Determined) : (Tree.join op t rest).Determined := by
  intro t' u v hu hv h
  cases t' with
  | nothing =>
    obtain rfl : _ = v := h
    exact elim_stops hv rfl
  | join op' t' rest' =>
    simp only [words, List.cons_append, List.append_assoc, List.cons.injEq,
      Lexeme.logical.injEq] at h
    obtain ⟨rfl, h⟩ := h
    obtain ⟨rfl, hmore⟩ := ht (stops_more hu) (stops_more hv) h
    obtain ⟨rfl, rfl⟩ := hrest hu hv hmore
    exact ⟨rfl, rfl⟩

end Tree.Determined

/-- Every parse tree is determined by its words and what follows them. -/
theorem Tree.determined {σ : Symbol} (t : Tree σ) : t.Determined := by
  induction t with
  | package name hname => exact .package name hname
  | features name hname first others => exact .features name hname first others
  | probe kind first others => exact .probe kind first others
  | braces name => exact .braces name
  | text value => exact .text value
  | version value => exact .version value
  | yes => exact .yes
  | no => exact .no
  | parens _ ih => exact .parens ih
  | operand _ ih => exact .operand ih
  | ordered op hop _ _ ihl ihr => exact .ordered hop ihl ihr
  | ordering _ ih => exact .ordering ih
  | equated op hop _ _ ihl ihr => exact .equated hop ihl ihr
  | equality _ ih => exact .equality ih
  | member _ first others ih => exact .member ih first others
  | untagged _ ih => exact .untagged ih
  | tagged _ tag ih => exact .tagged ih tag
  | chain _ _ ihf ihr => exact .chain ihf ihr
  | nothing => exact .nothing
  | join op _ _ iht ihr => exact .join op iht ihr

/-! ### Scripts -/

/-- Different kinds of definitions start with different keywords. -/
lemma startWord_injective {kind kind' : DefinitionKind} (h : kind.startWord = kind'.startWord) :
    kind = kind' := by
  cases kind <;> cases kind' <;> first | rfl | cases h

/-- Definitions are determined by their words. -/
theorem DefinitionTree.delimited : Delimited Lexeme.startsDefinition DefinitionTree.words where
  start d := ⟨_, _, rfl, d.kind.startsDefinition_startWord⟩
  inj d d' u v h := by
    obtain ⟨kind, name, body⟩ := d
    obtain ⟨kind', name', body'⟩ := d'
    simp only [words, List.cons_append, List.append_assoc, List.nil_append, List.cons.injEq,
      Lexeme.name.injEq, true_and] at h
    obtain ⟨hkind, rfl, h⟩ := h
    obtain rfl := startWord_injective hkind
    obtain ⟨rfl, huv⟩ := body.determined (stops_cons rfl) (stops_cons rfl) h
    exact ⟨rfl, List.tail_eq_of_cons_eq huv⟩

/-- Every symbol but that of further operands has words. -/
theorem Tree.words_ne_nil {σ : Symbol} (t : Tree σ) (hσ : σ ≠ .more) : t.words ≠ [] := by
  induction t with
  | operand _ ih => exact ih (by simp)
  | ordering _ ih => exact ih (by simp)
  | equality _ ih => exact ih (by simp)
  | untagged _ ih => exact ih (by simp)
  | chain _ _ ihf _ => exact List.append_ne_nil_of_left_ne_nil (ihf (by simp)) _
  | nothing => exact absurd rfl hσ
  | _ => simp [words]

/-- A master expression is determined by its words. -/
theorem MasterTree.words_injective {m m' : MasterTree} (h : m.words = m'.words) : m = m' := by
  have hend : Stops .logical ([] : List Lexeme).head? := by simp [Stops]
  have hsemicolon : Stops .logical [Lexeme.mark .semicolon].head? := stops_cons rfl
  cases m with
  | none =>
    cases m' with
    | none => rfl
    | plain e => exact absurd h.symm (e.words_ne_nil (by simp))
    | closed e => simp [words] at h
  | plain e =>
    cases m' with
    | none => exact absurd h (e.words_ne_nil (by simp))
    | plain e' =>
      obtain ⟨rfl, -⟩ := e.determined hend hend (congrArg (· ++ []) h)
      rfl
    | closed e' =>
      obtain ⟨-, hnil⟩ := e.determined hend hsemicolon ((List.append_nil _).trans h)
      cases hnil
  | closed e =>
    cases m' with
    | none => simp [words] at h
    | plain e' =>
      obtain ⟨-, hnil⟩ := e.determined hsemicolon hend (h.trans (List.append_nil _).symm)
      cases hnil
    | closed e' =>
      obtain ⟨rfl, -⟩ := e.determined hsemicolon hsemicolon h
      rfl

/-- A script has at most one parse tree. -/
theorem ScriptTree.words_injective {t t' : ScriptTree} (h : t.words = t'.words) : t = t' := by
  have hstop (m : MasterTree) : ∀ l ∈ m.words.head?, l.startsDefinition = false := by
    intro l hl
    have hall := List.all_eq_true.mp m.startNone_words l (List.mem_of_mem_head? hl)
    simpa using hall
  obtain ⟨definitions, master⟩ := t
  obtain ⟨definitions', master'⟩ := t'
  obtain ⟨rfl, hmaster⟩ :=
    DefinitionTree.delimited.flatMap_inj (hstop master) (hstop master') h
  obtain rfl := MasterTree.words_injective hmaster
  rfl

end Grammar

/-- Tokens are read as a script exactly if the grammar has a parse tree for their words that meets
the further conditions and stands for the script, and the grammar never has two parse trees for the
same words. -/
theorem TokenStream.toScript_eq_ok_iff_exists_tree (stream : TokenStream) :
    (∀ s, stream.toScript = .ok s ↔ ∃ t : Grammar.ScriptTree,
      t.words = stream.tokens.map Token.lexeme ∧ t.Admissible ∧
        t.meaning (definitionLines stream.tokens) = s) ∧
    ∀ t t' : Grammar.ScriptTree, t.words = stream.tokens.map Token.lexeme →
      t'.words = stream.tokens.map Token.lexeme → t = t' := by
  constructor
  · intro s
    rw [← Grammar.derivesScript_iff_exists_tree]
    exact ⟨Parser.toScript_sound, Parser.toScript_complete⟩
  · intro t t' ht ht'
    exact Grammar.ScriptTree.words_injective (ht.trans ht'.symm)

end Requirements
