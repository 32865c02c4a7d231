import Mathlib.Tactic.Lemma
import Requirements.Proofs.Expr.Nodes
import Requirements.Proofs.Grammar.Spelling
import Requirements.Proofs.Text.Blank
import Requirements.Proofs.Text.Split
import Requirements.Proofs.Version.Literal
import Requirements.Text.Quoted

/-!
# Texts in the cells of a table

A bar or a line break in a text does not stay within the cell that the text is put in. Names and
versions that were read hold neither, and a printed expression holds one of them exactly if
something in it does: a connective `||`, or a literal with a bar or a carriage return. A line feed
in a literal is printed as an escape.
-/

namespace Requirements

namespace Text

/-- The characters that end a cell of a table, or the whole row. -/
def cellEnds : List Char := ['\n', '\r', '|']

/-- The text stays within a cell of a table. -/
def FitsCell (s : String) : Prop :=
  ∀ c ∈ cellEnds, c ∉ s.toList

/-- Only the characters that end a cell are looked for. -/
instance (s : String) : Decidable (FitsCell s) :=
  List.decidableBAll (fun c => c ∉ s.toList) cellEnds

/-- Three characters end a cell: the two line breaks and the bar. -/
lemma forall_mem_cellEnds {P : Char → Prop} :
    (∀ c ∈ cellEnds, P c) ↔ P '\n' ∧ P '\r' ∧ P '|' := by
  simp [cellEnds]

/-- A text fits a cell if it is on one line and has no bar. -/
lemma fitsCell_iff {s : String} : FitsCell s ↔ OneLine s ∧ '|' ∉ s.toList := by
  rw [FitsCell, forall_mem_cellEnds, OneLine, and_assoc]

/-- A text stays within a cell if its characters are of a kind to which bars and line breaks do not
belong. -/
theorem fitsCell_of_forall {p : Char → Bool} (hp : cellEnds.any p = false) {s : String}
    (h : ∀ c ∈ s.toList, p c = true) : FitsCell s :=
  fun c hc hmem => List.any_eq_false.mp hp c hc (h c hmem)

/-- A text fits a cell if its parts do. -/
@[simp] lemma fitsCell_append {s t : String} :
    FitsCell (s ++ t) ↔ FitsCell s ∧ FitsCell t := by
  simp only [FitsCell, String.toList_append, List.mem_append, not_or]
  exact forall₂_and

/-- Joined parts fit a cell exactly if each of them does. -/
lemma fitsCell_intercalate {joint : String} (hjoint : FitsCell joint) {parts : List String} :
    FitsCell (joint.intercalate parts) ↔ ∀ part ∈ parts, FitsCell part := by
  constructor
  · intro h part hpart c hc hmem
    exact h c hc ((mem_toList_intercalate (hjoint c hc)).mpr ⟨part, hpart, hmem⟩)
  · intro h c hc hmem
    obtain ⟨part, hpart, hmem⟩ := (mem_toList_intercalate (hjoint c hc)).mp hmem
    exact h part hpart c hc hmem

/-! ### Names, versions and ranges -/

/-- Names fit a cell. -/
lemma fitsCell_of_isName {s : String} (h : IsName s) : FitsCell s := by
  obtain ⟨c, cs, hs, hstart, htail, -⟩ := h
  refine fitsCell_of_forall (p := fun c => isWord c || c == ':') (by decide) fun d hd => ?_
  rw [hs] at hd
  rcases List.mem_cons.mp hd with rfl | hd
  · have hword : isWord d = true :=
      Lexer.isWord_of_isSuffixChar (by simp [isSuffixChar, hstart])
    simp [hword]
  · rw [← htail] at hd
    simpa using Lexer.isWord_or_colon_of_mem_nameTail hd

end Text

open Text

/-- Versions fit a cell. -/
lemma Version.IsLiteral.fitsCell {v : Version} (h : v.IsLiteral) : FitsCell v.toText := by
  rw [h.toText]
  exact fitsCell_of_forall (by decide) fun c hc => h.isLiteralChar_of_mem hc

/-- Ranges fit a cell. -/
lemma Version.Range.IsLiteral.fitsCell {r : Version.Range} (h : r.IsLiteral) :
    FitsCell r.toText := by
  refine fitsCell_of_forall (p := fun c => Version.isLiteralChar c || c == '-' || c == '!')
    (by decide) fun c hc => ?_
  simpa [or_assoc] using h.of_mem_toText hc

/-- Version sets fit a cell. -/
lemma Version.RangeSet.fitsCell {set : Version.RangeSet} (h : ∀ r ∈ set.ranges, r.IsLiteral) :
    FitsCell set.toText := by
  have hranges : FitsCell (" ".intercalate (set.ranges.map Version.Range.toText)) := by
    rw [fitsCell_intercalate (by decide), List.forall_mem_map]
    exact fun r hr => (h r hr).fitsCell
  simp [toText, hranges]
  decide

/-! ### Texts between quotes -/

namespace Text

/-- The digits of a numeric escape do not end a cell. -/
lemma notMem_hexDigits {c : Char} (hc : c ∈ cellEnds) (width n : Nat) :
    c ∉ hexDigits width n := by
  induction width generalizing n with
  | zero => simp [hexDigits]
  | succ width ih =>
    have hdigit : ∀ c ∈ cellEnds, ∀ m < 16, c ≠ hexDigit m :=
      forall_mem_cellEnds.mpr (by decide)
    have hlast := hdigit c hc (n % 16) (Nat.mod_lt n (by decide))
    simp [hexDigits, ih, hlast]

/-- A numeric escape is made of digits and signs that fit a cell. -/
lemma notMem_numericEscape {c : Char} (hc : c ∈ cellEnds) (d : Char) : c ∉ numericEscape d := by
  have hletters : ∀ c ∈ cellEnds, c ≠ '\\' ∧ c ≠ 'x' ∧ c ≠ 'u' ∧ c ≠ 'U' :=
    forall_mem_cellEnds.mpr (by decide)
  obtain ⟨hbackslash, hx, hu, hU⟩ := hletters c hc
  unfold numericEscape
  split_ifs <;> simp [notMem_hexDigits hc, hbackslash, hx, hu, hU]

/-- Of the characters that end a cell, only the bar is shown as it is. -/
theorem mem_quotedChar_iff {c : Char} (hc : c ∈ cellEnds) {quote : Char}
    (hquote : quote ∉ cellEnds) (d : Char) : c ∈ quotedChar quote d ↔ c = '|' ∧ d = '|' := by
  have hescapes : ∀ c ∈ cellEnds, c ≠ '\\' ∧ c ≠ 'n' ∧ c ≠ 'r' ∧ c ≠ 't' :=
    forall_mem_cellEnds.mpr (by decide)
  obtain ⟨hbackslash, hn, hr, ht⟩ := hescapes c hc
  have hbar : '|' ∈ cellEnds := by decide
  unfold quotedChar
  split_ifs with hquoted hfeed hreturn htab hprintable
  · have hd : d ∉ cellEnds := by
      rcases hquoted with rfl | rfl
      · exact hquote
      · decide
    have hcd : c ≠ d := fun h => hd (h ▸ hc)
    have hdbar : d ≠ '|' := fun h => hd (h ▸ hbar)
    simp [hbackslash, hcd, hdbar]
  · simp [hfeed, hbackslash, hn]
  · simp [hreturn, hbackslash, hr]
  · simp [htab, hbackslash, ht]
  · rw [List.mem_singleton]
    constructor
    · rintro rfl
      have hcases : c = '\n' ∨ c = '\r' ∨ c = '|' := by simpa [cellEnds] using hc
      rcases hcases with h | h | h
      · exact absurd h hfeed
      · exact absurd h hreturn
      · exact ⟨h, h⟩
    · rintro ⟨rfl, rfl⟩
      rfl
  · have hdbar : d ≠ '|' := by
      rintro rfl
      exact hprintable (by decide)
    simp [notMem_numericEscape hc, hdbar]

/-- A text between quotes stays within a cell unless there is a bar in it. -/
theorem fitsCell_quoted {s : String} : FitsCell (quoted s) ↔ '|' ∉ s.toList := by
  have hquote : quoteFor s.toList ∉ cellEnds := by
    unfold quoteFor
    split <;> decide
  have hmem (c : Char) (hc : c ∈ cellEnds) : c ∈ (quoted s).toList ↔ c = '|' ∧ '|' ∈ s.toList := by
    have hne : c ≠ quoteFor s.toList := fun h => hquote (h ▸ hc)
    simp only [quoted, String.toList_ofList, List.cons_append, List.mem_cons, List.mem_append,
      List.mem_flatMap, mem_quotedChar_iff hc hquote, hne, List.not_mem_nil, or_false, false_or]
    constructor
    · rintro ⟨d, hd, rfl, rfl⟩
      exact ⟨rfl, hd⟩
    · rintro ⟨rfl, hbar⟩
      exact ⟨'|', hbar, rfl, rfl⟩
  constructor
  · intro h hbar
    exact h '|' (by decide) ((hmem '|' (by decide)).mpr ⟨rfl, hbar⟩)
  · intro h c hc hcquoted
    exact h ((hmem c hc).mp hcquoted).2

end Text

namespace Expr

/-- Of the characters that end a cell, the line feed is written as an escape in a literal. -/
theorem mem_literalChar_iff {c : Char} (hc : c ∈ cellEnds) (d : Char) :
    c ∈ literalChar d ↔ c ≠ '\n' ∧ d = c := by
  have hescapes : ∀ c ∈ cellEnds, c ≠ '\\' ∧ c ≠ '\'' ∧ c ≠ 'n' ∧ c ≠ 't' ∧ c ≠ '\t' :=
    forall_mem_cellEnds.mpr (by decide)
  obtain ⟨hbackslash, hquote, hn, ht, htab⟩ := hescapes c hc
  unfold literalChar
  split_ifs with h h h h
  · simp [h, hbackslash, Ne.symm hbackslash]
  · simp [h, hbackslash, hquote, Ne.symm hquote]
  · simpa [h, hbackslash, hn] using fun hne => Ne.symm hne
  · simp [h, hbackslash, ht, Ne.symm htab]
  · rw [List.mem_singleton]
    constructor
    · rintro rfl
      exact ⟨‹_›, rfl⟩
    · rintro ⟨-, rfl⟩
      rfl

/-- A literal stays within a cell unless there is a bar or a carriage return in it. -/
theorem fitsCell_literal {s : String} :
    FitsCell (literal s) ↔ '|' ∉ s.toList ∧ '\r' ∉ s.toList := by
  have hmem (c : Char) (hc : c ∈ cellEnds) : c ∈ (literal s).toList ↔ c ≠ '\n' ∧ c ∈ s.toList := by
    have hquote : ∀ c ∈ cellEnds, c ≠ '\'' := forall_mem_cellEnds.mpr (by decide)
    simp only [literal, String.toList_ofList, List.cons_append, List.mem_cons, List.mem_append,
      List.mem_flatMap, mem_literalChar_iff hc, hquote c hc, List.not_mem_nil, or_false, false_or]
    constructor
    · rintro ⟨d, hd, hc, rfl⟩
      exact ⟨hc, hd⟩
    · rintro ⟨hne, hc⟩
      exact ⟨c, hc, hne, rfl⟩
  constructor
  · intro h
    exact ⟨fun hbar => h '|' (by decide) ((hmem '|' (by decide)).mpr ⟨by decide, hbar⟩),
      fun hreturn => h '\r' (by decide) ((hmem '\r' (by decide)).mpr ⟨by decide, hreturn⟩)⟩
  · rintro ⟨hbar, hreturn⟩ c hc hliteral
    obtain ⟨hne, hmem⟩ := (hmem c hc).mp hliteral
    have hcases : c = '\n' ∨ c = '\r' ∨ c = '|' := by simpa [cellEnds] using hc
    rcases hcases with rfl | rfl | rfl
    · exact hne rfl
    · exact hreturn hmem
    · exact hbar hmem

/-! ### Expressions -/

/-- An expression as it is printed apart from its operands stays within a cell. -/
def PrintsPlain : Expr → Prop
  | text value => '|' ∉ value.toList ∧ '\r' ∉ value.toList
  | probe _ args => ∀ arg ∈ args, '|' ∉ arg.toList ∧ '\r' ∉ arg.toList
  | logical op _ _ => op ≠ .or
  | _ => True

/-- Parentheses do not matter for fitting a cell. -/
lemma fitsCell_parenthesize (place actual : Strength) (s : String) :
    FitsCell (parenthesize place actual s) ↔ FitsCell s := by
  unfold parenthesize
  split
  · simp +decide
  · rfl

/-- The symbols of the operators fit a cell. -/
lemma fitsCell_symbol (op : CompareOp) : FitsCell op.symbol := by
  cases op <;> decide

/-- Modules and their features fit a cell. -/
lemma fitsCell_packageText {name : String} (hname : IsName name) {features : List String}
    (hfeatures : ∀ f ∈ features, IsName f) : FitsCell (packageText name features) := by
  have hlist : FitsCell (" && ".intercalate features) :=
    (fitsCell_intercalate (by decide)).mpr fun f hf => fitsCell_of_isName (hfeatures f hf)
  unfold packageText
  split
  · exact fitsCell_of_isName hname
  · simp +decide [fitsCell_of_isName hname, hlist]

/-- Conditions on versions fit a cell. -/
lemma fitsCell_constraintText {constraint : Option Constraint}
    (h : ∀ c, constraint = some c → c.Proper) : FitsCell (constraintText constraint) := by
  cases constraint with
  | none => decide
  | some c =>
    have hproper := h c rfl
    cases c with
    | within set => simp +decide [constraintText, Version.RangeSet.fitsCell hproper]
    | compare op v =>
      have hversion : FitsCell v.toText := Version.IsLiteral.fitsCell hproper
      simp +decide [constraintText, fitsCell_symbol, hversion]

/-- The text of an expression stays within a cell exactly if nothing in the expression is printed
otherwise. -/
theorem fitsCell_format_iff {e : Expr} (h : e.Proper) :
    FitsCell e.format ↔ ∀ n ∈ e.nodes, n.PrintsPlain := by
  induction e with
  | bool value => cases value <;> simp +decide [nodes, nodesOnto, PrintsPlain]
  | text value => simp [format, nodes, nodesOnto, PrintsPlain, fitsCell_literal]
  | version v =>
    have hversion : FitsCell v.toText := Version.IsLiteral.fitsCell h
    simp [format, nodes, nodesOnto, PrintsPlain, hversion]
  | package name constraint features =>
    obtain ⟨hname, hconstraint, hfeatures⟩ := h
    simp [format, nodes, nodesOnto, PrintsPlain, fitsCell_packageText hname hfeatures,
      fitsCell_constraintText hconstraint]
  | platform fact => cases fact <;> simp +decide [nodes, nodesOnto, PrintsPlain]
  | reference name =>
    simp +decide [format, braced, nodes, nodesOnto, PrintsPlain, fitsCell_of_isName h]
  | probe kind args =>
    have hkind : FitsCell kind.name := by cases kind <;> decide
    have hcomma : FitsCell ", " := by decide
    simp +decide [format, nodes, nodesOnto, PrintsPlain, hkind, fitsCell_intercalate hcomma,
      fitsCell_literal]
  | compare op lhs rhs ihl ihr =>
    rw [nodes_compare, List.forall_mem_cons, List.forall_mem_append, ← ihl h.1, ← ihr h.2, format]
    simp +decide [PrintsPlain, fitsCell_parenthesize, fitsCell_symbol]
  | within operand set ih =>
    have hset : FitsCell set.toText := Version.RangeSet.fitsCell h.2
    rw [nodes_within, List.forall_mem_cons, ← ih h.1, format]
    simp +decide [PrintsPlain, fitsCell_parenthesize, hset]
  | tagged operand tag ih =>
    have htag : FitsCell tag := fitsCell_of_isName h.2
    rw [nodes_tagged, List.forall_mem_cons, ← ih h.1, format]
    simp +decide [PrintsPlain, fitsCell_parenthesize, htag]
  | logical op lhs rhs ihl ihr =>
    have hop : FitsCell op.symbol ↔ op ≠ .or := by cases op <;> decide
    rw [nodes_logical, List.forall_mem_cons, List.forall_mem_append, ← ihl h.1, ← ihr h.2, format]
    have hblank : FitsCell " " := by decide
    simp only [PrintsPlain, fitsCell_append, fitsCell_parenthesize, hop, hblank, and_true]
    rw [and_assoc, and_left_comm]

end Expr

end Requirements
