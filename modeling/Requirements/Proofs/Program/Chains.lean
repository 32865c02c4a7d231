import Mathlib.Data.List.Nodup
import Mathlib.Tactic.Lemma
import Requirements.Proofs.Program.Printing
import Requirements.Proofs.Version.Literal

/-!
# Chains of definitions

In a chain of definitions, the first one stands for a module and each of the others leads to the one
before. A chain of any length, with a master expression that refers to its links, is the text of a
program: its names are names and differ from each other, and its references lead from each link to
links before it only.
-/

namespace Requirements

namespace Chain

/-! ### Chains are programs -/

/-- The name of a link. -/
def name (i : Nat) : String :=
  "d" ++ toString i

/-- What a link stands for: the first for a module, the others for the link before. -/
def body : Nat → Expr
  | 0 => .package "Foo" none []
  | i + 1 => .reference (name i)

/-- The definition of a link, each on a line of its own. -/
def link (i : Nat) : Definition :=
  ⟨.plain, name i, body i, i + 1⟩

/-- A chain with a master expression behind it. -/
def program (length : Nat) (master : Expr) : Program :=
  ⟨(List.range length).map link, master⟩

/-- The name of a link is a letter with the digits of its number behind. -/
lemma toList_name (i : Nat) : (name i).toList = 'd' :: (Version.Digits.ofNat i).chars := by
  rw [name, String.toList_append, Version.Digits.toList_toString]
  rfl

/-- The links have different names. -/
lemma name_injective : Function.Injective name := by
  intro i j h
  have hchars : (Version.Digits.ofNat i).chars = (Version.Digits.ofNat j).chars := by
    have hlist := congrArg String.toList h
    rw [toList_name, toList_name] at hlist
    exact (List.cons.inj hlist).2
  rw [← Version.Digits.value_ofNat i, Version.Digits.value, hchars, ← Version.Digits.value,
    Version.Digits.value_ofNat]

/-- A word whose second character is not a digit is not the name of a link. -/
lemma name_ne {s : String} (h : (s.toList.drop 1).head?.any Text.isDigit = false) (i : Nat) :
    name i ≠ s := by
  rintro rfl
  obtain ⟨c, cs, hchars⟩ := List.exists_cons_of_ne_nil (Version.Digits.ofNat i).ne_nil
  have hdigit := (Version.Digits.ofNat i).isDigit c (by rw [hchars]; exact List.mem_cons_self)
  rw [toList_name, hchars] at h
  simp [hdigit] at h

/-- The name of a link is written like a name. -/
lemma isName_name (i : Nat) : IsName (name i) := by
  have hword (c : Char) (h : Text.isDigit c = true) : Text.isWord c = true :=
    Lexer.isWord_of_isSuffixChar (by rw [Text.isSuffixChar, h, Bool.or_true])
  refine ⟨'d', _, toList_name i, by decide, ?_, ?_⟩
  · have htail (cs : List Char) (h : ∀ c ∈ cs, Text.isDigit c = true) :
        Lexer.nameTail cs = cs := by
      induction cs with
      | nil => rfl
      | cons c cs ih =>
        rw [Lexer.nameTail_cons cs (hword c (h c List.mem_cons_self)),
          ih fun x hx => h x (List.mem_cons_of_mem c hx)]
    exact htail _ (Version.Digits.ofNat i).isDigit
  · cases hkeyword : Keyword.ofText? (name i) with
    | none => rfl
    | some k =>
      have htext : k.text = name i := by simpa using List.find?_some hkeyword
      exact absurd htext.symm (name_ne (by cases k <;> decide) i)

/-- The name of a link is not reserved. -/
lemma ofName?_name (i : Nat) : Platform.ofName? (name i) = none := by
  cases h : Platform.ofName? (name i) with
  | none => rfl
  | some fact =>
    exact absurd (Platform.ofName?_eq_some_iff.mp h) (name_ne (by cases fact <;> decide) i)

/-- The name of a link between braces is a reference to it. -/
lemma derives_reference {inChoice : Bool} {levels : Nat} {strength : Expr.Strength} (i : Nat)
    (h : strength.rank ≤ Expr.Strength.primary.rank) :
    Grammar.Derives inChoice levels strength
      [.mark .openBrace, .name (name i), .mark .closeBrace] (.reference (name i)) := by
  have hbraced : Grammar.braced (name i) = .reference (name i) := by
    rw [Grammar.braced, ofName?_name]
  exact .weaken h (hbraced ▸ .braces (name i))

/-- The definitions of a chain could have been read. -/
lemma derived_link (i : Nat) : (link i).Derived := by
  cases i with
  | zero =>
    refine ⟨isName_name 0, ⟨⟨'F', ['o', 'o'], rfl, by decide, by decide, by decide⟩, ?_, ?_⟩, _,
      .weaken (by decide) (.name (by decide))⟩
    · rintro c ⟨⟩
    · simp
  | succ i =>
    exact ⟨isName_name (i + 1), isName_name i, _, derives_reference i (by decide)⟩

/-- The links stand in the order of their lines, and nothing is written differently when they are
read back. -/
lemma rereadFrom_links (line length : Nat) :
    Program.rereadFrom (line + 1) ((List.range' line length).map link) =
      (List.range' line length).map link := by
  induction length generalizing line with
  | zero => rfl
  | succ length ih =>
    rw [List.range'_succ, List.map_cons, Program.rereadFrom, ih]
    cases line <;> rfl

/-- In a chain, every link but the first refers to the one before. -/
lemma references_body {i : Nat} {n : String} (h : n ∈ (body i).references) :
    ∃ j, i = j + 1 ∧ n = name j := by
  cases i with
  | zero => exact absurd h List.not_mem_nil
  | succ j => exact ⟨j, rfl, by simpa [body] using h⟩

/-- The definitions of a chain have the names of its links. -/
lemma names_links (length : Nat) :
    ((List.range length).map link).map Definition.name = (List.range length).map name := by
  rw [List.map_map]
  rfl

/-- No two definitions of a chain have the same name. -/
lemma nodup_links (length : Nat) : (((List.range length).map link).map Definition.name).Nodup := by
  rw [names_links]
  exact List.nodup_range.map name_injective

/-- The names of a chain hold together. -/
lemma wellNamed {length : Nat} {master : Expr}
    (hrefs : ∀ n ∈ master.references, ∃ i < length, n = name i) :
    WellNamed (program length master).definitions master := by
  have hmem {i : Nat} (h : i < length) : name i ∈ ((List.range length).map link).map
      Definition.name := by
    rw [names_links]
    exact List.mem_map.mpr ⟨i, List.mem_range.mpr h, rfl⟩
  refine ⟨?_, nodup_links length, ?_, ?_, ?_⟩
  · intro d hd
    obtain ⟨i, -, rfl⟩ := List.mem_map.mp hd
    exact ofName?_name i
  · intro d hd n hn
    obtain ⟨i, hi, rfl⟩ := List.mem_map.mp hd
    obtain ⟨j, rfl, rfl⟩ := references_body hn
    exact hmem (Nat.lt_of_succ_lt (List.mem_range.mp hi))
  · intro n hn
    obtain ⟨i, hi, rfl⟩ := hrefs n hn
    exact hmem hi
  · -- From each name, the references lead to names with smaller numbers.
    have hdown {a b : String}
        (h : Relation.TransGen (Resolver.graphOf ((List.range length).map link)).Refers a b) :
        ∃ i j, a = name i ∧ b = name j ∧ j < i := by
      have hstep {a b : String} (h : (Resolver.graphOf ((List.range length).map link)).Refers a b) :
          ∃ j, a = name (j + 1) ∧ b = name j := by
        obtain ⟨d, hd, rfl, hb⟩ := (Resolver.refers_graphOf_iff (nodup_links length)).mp h
        obtain ⟨i, -, rfl⟩ := List.mem_map.mp hd
        obtain ⟨j, rfl, rfl⟩ := references_body hb
        exact ⟨j, rfl, rfl⟩
      induction h with
      | single h =>
        obtain ⟨j, rfl, rfl⟩ := hstep h
        exact ⟨j + 1, j, rfl, rfl, Nat.lt_succ_self j⟩
      | tail _ h ih =>
        obtain ⟨i, j, rfl, hj, hlt⟩ := ih
        obtain ⟨k, hk, rfl⟩ := hstep h
        obtain rfl := name_injective (hj.symm.trans hk)
        exact ⟨i, k, rfl, rfl, by omega⟩
    intro a ha
    obtain ⟨i, j, hi, hj, hlt⟩ := hdown ha
    exact absurd (name_injective (hi.symm.trans hj)) (Nat.ne_of_gt hlt)

/-- The definitions of a chain come in the order of their lines. -/
lemma printOrder_program (length : Nat) (master : Expr) :
    (program length master).printOrder = (program length master).definitions := by
  refine Program.printOrder_eq (List.pairwise_map.mpr ?_)
  exact List.pairwise_lt_range.imp fun h => Nat.succ_lt_succ h

/-- The definitions of a chain are printed in their order. -/
lemma format_program (length : Nat) (master : Expr) : (program length master).format =
    Script.format ⟨(program length master).definitions, some master⟩ := by
  rw [Program.format, printOrder_program]
  rfl

/-- A chain is a program, if its master expression could have been read and refers to links only. -/
lemma compile_program {length : Nat} {master : Expr} (hmaster : master.DerivedMaster)
    (hrespell : master.respell = master)
    (hrefs : ∀ n ∈ master.references, ∃ i < length, n = name i) :
    Program.compile (program length master).format = .ok (program length master) := by
  have hderived : (program length master).Derived := by
    refine ⟨fun d hd => ?_, hmaster, ?_⟩
    · obtain ⟨i, -, rfl⟩ := List.mem_map.mp hd
      exact derived_link i
    · have htags : ((program length master).definitions.flatMap fun d => d.body.tags) = [] := by
        refine List.flatMap_eq_nil_iff.mpr fun d hd => ?_
        obtain ⟨i, -, rfl⟩ := List.mem_map.mp hd
        cases i <;> rfl
      rw [htags]
      exact .nil
  have hreread : (program length master).reread = program length master := by
    rw [Program.reread, printOrder_program, program, hrespell, List.range_eq_range',
      rereadFrom_links]
  rw [Program.compile_format_of_derived hderived (wellNamed hrefs), hreread]

example : Script.format ⟨(program 3 (body 3)).definitions, some (body 3)⟩ =
    "define d0 = Foo;\ndefine d1 = \x7bd0\x7d;\ndefine d2 = \x7bd1\x7d;\n\x7bd2\x7d" := by
  decide +kernel

/-- A link can be the master expression. -/
lemma derivedMaster_body (i : Nat) : (body i).DerivedMaster where
  proper := (derived_link i).body
  derives := (derived_link i).derives

end Chain

end Requirements
