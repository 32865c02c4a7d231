import Mathlib.Tactic.Lemma
import Requirements.Proofs.Program.Printing
import Requirements.Proofs.Token.Spans

/-!
# Printing a script and the program it becomes

A script prints its definitions in the order of the text. The program that it becomes prints the
same lines, and the definitions of each kind in the order of the text, but it goes by line and kind:
its text is the same exactly if on no line a choice is defined before a plain definition.
-/

namespace Requirements

/-! ### Lines of the text -/

/-- A later place of a text is on no earlier line. -/
theorem Position.IsPlaceIn.line_le {cs : List Char} {p q : Position} (hp : p.IsPlaceIn cs)
    (hq : q.IsPlaceIn cs) (hle : p.offset ≤ q.offset) : p.line ≤ q.line := by
  have hcount : (cs.take p.offset).count '\n' ≤ (cs.take q.offset).count '\n' :=
    (List.take_prefix_take_left hle).sublist.count_le '\n'
  rw [hp.line, hq.line]
  omega

/-- The tokens of a text come in the order of their lines. -/
theorem pairwise_line_of_tokenize {source : String} {stream : TokenStream}
    (h : tokenize source = .ok stream) :
    stream.tokens.Pairwise fun t u => t.start.line ≤ u.start.line := by
  obtain ⟨ctx, -, hcuts⟩ := Lexer.tokensFrom_ok_iff.mp h
  have hstart : Position.start = Position.start.advanceOver [] := rfl
  have hstands := hcuts.standsIn hstart
  refine (hcuts.pairwise hstart).imp_of_mem fun {t u} ht hu hle => ?_
  have hbefore := (hstands t ht).1.start_lt_stop
  exact (hstands t ht).1.place.line_le (hstands u hu).1.place (by omega)

namespace Grammar

/-- A definition remembers the line of one of its tokens. -/
theorem DerivesDefinitions.exists_token_of_mem {tokens : List Token}
    {definitions : List Definition} (h : DerivesDefinitions tokens definitions) {d : Definition}
    (hd : d ∈ definitions) : ∃ t ∈ tokens, t.start.line = d.line := by
  induction h with
  | nil => cases hd
  | @cons kind keyword taken rest name words body definitions _ _ _ _ ih =>
    rcases List.mem_cons.mp hd with rfl | hd
    · exact ⟨keyword, List.mem_cons_self, rfl⟩
    · obtain ⟨t, ht, hline⟩ := ih hd
      exact ⟨t, List.mem_cons_of_mem _ (List.mem_append_right _ ht), hline⟩

/-- The definitions come in the order of their lines. -/
theorem DerivesDefinitions.pairwise_line {tokens : List Token} {definitions : List Definition}
    (h : DerivesDefinitions tokens definitions)
    (htokens : tokens.Pairwise fun t u => t.start.line ≤ u.start.line) :
    definitions.Pairwise fun d e => d.line ≤ e.line := by
  induction h with
  | nil => exact .nil
  | @cons kind keyword taken rest name words body definitions _ _ _ hrest ih =>
    obtain ⟨hkeyword, htail⟩ := List.pairwise_cons.mp htokens
    refine List.pairwise_cons.mpr ⟨fun e he => ?_, ih (List.pairwise_append.mp htail).2.1⟩
    obtain ⟨t, ht, hline⟩ := hrest.exists_token_of_mem he
    rw [← hline]
    exact hkeyword t (List.mem_append_right _ ht)

end Grammar

/-- The definitions of a script that was read come in the order of their lines. -/
theorem Script.pairwise_line_of_parse {source : String} {s : Script} (h : parse source = .ok s) :
    s.definitions.Pairwise fun d e => d.line ≤ e.line := by
  obtain ⟨stream, htokenize, front, back, htokens, hdefinitions, -, -⟩ :=
    Script.exists_derives_of_parse h
  have hlines := pairwise_line_of_tokenize htokenize
  rw [htokens] at hlines
  exact hdefinitions.pairwise_line (List.pairwise_append.mp hlines).1

/-! ### Lines of print -/

/-- A text is determined by its lines. -/
theorem eq_of_flatMap_lines {ls ls' : List (List Char)} (h : ∀ l ∈ ls, '\n' ∉ l)
    (h' : ∀ l ∈ ls', '\n' ∉ l)
    (heq : ls.flatMap (fun l => l ++ ['\n']) = ls'.flatMap fun l => l ++ ['\n']) : ls = ls' := by
  have hfirst {l rest : List Char} (hl : '\n' ∉ l) :
      (l ++ '\n' :: rest).takeWhile (· != '\n') = l := by
    rw [List.takeWhile_append_of_pos fun c hc => by
      simpa using fun heq : c = '\n' => hl (heq ▸ hc)]
    simp
  induction ls generalizing ls' with
  | nil =>
    cases ls' with
    | nil => rfl
    | cons l' ls' => simp at heq
  | cons l ls ih =>
    cases ls' with
    | nil => simp at heq
    | cons l' ls' =>
      rw [List.forall_mem_cons] at h h'
      have hsplit : l ++ '\n' :: ls.flatMap (fun l => l ++ ['\n']) =
          l' ++ '\n' :: ls'.flatMap fun l => l ++ ['\n'] := by simpa using heq
      obtain rfl : l = l' := by
        have htake := congrArg (List.takeWhile (· != '\n')) hsplit
        rwa [hfirst h.1, hfirst h'.1] at htake
      rw [ih h.2 h'.2 (List.cons.inj (List.append_cancel_left hsplit)).2]

/-- The kind of the definition that a line of print starts with. -/
def DefinitionKind.ofLine (line : List Char) : DefinitionKind :=
  if line.head? = some 'c' then .choice else .plain

/-- The line of a printed definition shows its kind. -/
lemma Definition.ofLine_format (d : Definition) :
    DefinitionKind.ofLine d.format.toList = d.kind := by
  cases hkind : d.kind <;>
    simp [Definition.format, Definition.keyword, DefinitionKind.ofLine, hkind]

namespace Program

/-- The lines of a program are those of its definitions, so that its text tells their kinds in
order. -/
theorem map_kind_printOrder_of_format_eq {p : Program} (h : p.Derived)
    (heq : p.format = Script.format ⟨p.definitions, some p.master⟩) :
    p.printOrder.map Definition.kind = p.definitions.map Definition.kind := by
  have hline (d : Definition) (hd : d ∈ p.definitions) : '\n' ∉ d.format.toList :=
    (Lexer.spells_definition (h.definitions d hd) []).line
  have htexts : p.printOrder.map (fun d => d.format.toList) =
      p.definitions.map fun d => d.format.toList := by
    refine eq_of_flatMap_lines ?_ ?_ ?_
    · simpa using fun d hd => hline d (p.printOrder_perm.subset hd)
    · simpa using hline
    · have hchars := congrArg String.toList heq
      rw [toList_format, Script.toList_format] at hchars
      simpa only [List.flatMap_map] using List.append_cancel_right hchars
  have hkind : Definition.kind = DefinitionKind.ofLine ∘ fun d => d.format.toList :=
    funext fun d => d.ofLine_format.symm
  rw [hkind, ← List.map_map, ← List.map_map, htexts]

/-- In a program with its definitions in the order of their lines, a script of the same definitions
and master expression has the same text exactly if on no line a choice is defined before a plain
definition. -/
theorem format_eq_iff {p : Program} (h : p.Derived)
    (hlines : p.definitions.Pairwise fun d e => d.line ≤ e.line) :
    p.format = Script.format ⟨p.definitions, some p.master⟩ ↔ p.definitions.Pairwise
      fun d e => d.line = e.line → d.isChoice = true → e.isChoice = true := by
  rw [← printOrder_eq_iff hlines]
  constructor
  · intro heq
    exact (agreeByKind_printOrder hlines).eq_of_map_kind (map_kind_printOrder_of_format_eq h heq)
  · intro horder
    rw [format, horder]

end Program

/-- A script with a master expression and the program that it becomes print the same definitions,
one to a line, and the master expression behind them. The program prints those of each kind in the
order of the text, but goes by line, and on one line it prints the plain ones before the choices. So
the two texts are the same exactly if on no line of the source a choice is defined before a plain
definition. -/
theorem Script.format_eq_format_iff {source : String} {s : Script} {master : Expr} {p : Program}
    (hparse : Script.parse source = .ok s) (hmaster : s.master = some master)
    (hcompile : Program.compile source = .ok p) :
    (∃ printed : List Definition, p.format = Script.format ⟨printed, s.master⟩ ∧
      printed.Perm s.definitions ∧
      (∀ kind, printed.filter (fun d => d.kind == kind) =
        s.definitions.filter fun d => d.kind == kind) ∧
      printed.Pairwise fun d e =>
        d.line < e.line ∨ d.line = e.line ∧ (d.isChoice = true → e.isChoice = true)) ∧
    (p.format = s.format ↔ s.definitions.Pairwise
      fun d e => d.line = e.line → d.isChoice = true → e.isChoice = true) := by
  have hderived := (Program.derived_of_compile hcompile).1
  have hlines := Script.pairwise_line_of_parse hparse
  obtain ⟨s', hparse', rfl, -⟩ := Program.compile_ok_iff.mp hcompile
  obtain rfl : s = s' := Except.ok.inj (hparse.symm.trans hparse')
  obtain ⟨definitions, _⟩ := s
  obtain rfl : _ = some master := hmaster
  refine ⟨⟨_, rfl, Program.printOrder_perm _, Program.agreeByKind_printOrder hlines, ?_⟩,
    Program.format_eq_iff hderived hlines⟩
  exact (Program.pairwise_printOrder _).imp Definition.printRank_le_iff.mp

/-- Over two lines, with a choice behind a plain definition on the first, both texts are the
same. -/
theorem Script.format_eq_format_of_choice_behind_plain :
    let source :=
      "define a = A; choice c = C as :x;\ndefine b = B; \x7ba\x7d && \x7bb\x7d && \x7bc\x7d"
    let master : Expr := .logical .and
      (.logical .and (.reference "a") (.reference "b")) (.reference "c")
    let s : Script := ⟨[⟨.plain, "a", .package "A" none [], 1⟩,
      ⟨.choice, "c", .tagged (.package "C" none []) "x", 1⟩,
      ⟨.plain, "b", .package "B" none [], 2⟩], some master⟩
    Script.parse source = .ok s ∧ s.master = some master ∧
      Program.compile source = .ok ⟨s.definitions, master⟩ ∧
      Program.format ⟨s.definitions, master⟩ = s.format := by
  intro source master s
  have hparse : Script.parse source = .ok s := by decide +kernel
  have hcompile : Program.compile source = .ok ⟨s.definitions, master⟩ := by decide +kernel
  have hformat := (Script.format_eq_format_iff hparse rfl hcompile).2
  exact ⟨hparse, rfl, hcompile, hformat.mpr (by decide)⟩

/-- A choice that is defined before a plain definition on one line is printed behind it. -/
theorem Script.exists_choice_printed_behind_plain :
    let source := "choice c = A as :x; define d = B; \x7bc\x7d && \x7bd\x7d"
    let master : Expr := .logical .and (.reference "c") (.reference "d")
    let s : Script := ⟨[⟨.choice, "c", .tagged (.package "A" none []) "x", 1⟩,
      ⟨.plain, "d", .package "B" none [], 1⟩], some master⟩
    let p : Program := ⟨s.definitions, master⟩
    Script.parse source = .ok s ∧ Program.compile source = .ok p ∧
      s.format = "choice c = A as :x;\ndefine d = B;\n\x7bc\x7d && \x7bd\x7d" ∧
      p.format = "define d = B;\nchoice c = A as :x;\n\x7bc\x7d && \x7bd\x7d" ∧
      p.format ≠ s.format := by
  intro source master s p
  have horder : p.printOrder = [⟨.plain, "d", .package "B" none [], 1⟩,
      ⟨.choice, "c", .tagged (.package "A" none []) "x", 1⟩] :=
    List.mergeSort_of_pairwise (by decide)
  have hscript : s.format = "choice c = A as :x;\ndefine d = B;\n\x7bc\x7d && \x7bd\x7d" := by
    decide +kernel
  have hprogram : p.format = "define d = B;\nchoice c = A as :x;\n\x7bc\x7d && \x7bd\x7d" := by
    rw [Program.format, horder]
    decide +kernel
  refine ⟨by decide +kernel, by decide +kernel, hscript, hprogram, ?_⟩
  rw [hscript, hprogram]
  decide

end Requirements
