import Requirements.Environment.Registry
import Requirements.Proofs.Evaluation.Frames
import Requirements.Proofs.Program.Chains

/-!
# Chains of definitions on a stack

An evaluation that goes down from the end of a chain needs two frames for each link, so that no
number of frames suffices for all programs. Where the links have been evaluated before, in stretches
that the stack has room for, a comparison still looks through all of them for the module at the end
of the chain, which takes a frame for each link.
-/

namespace Requirements

namespace Chain

/-- A chain without options. -/
def selection (length : Nat) (master : Expr) : Selection :=
  ⟨[], (List.range length).map fun i => ⟨.plain, name i, some (body i)⟩, master⟩

/-- Without options, everything is left of a chain. -/
lemma select_program (length : Nat) (master : Expr) :
    (program length master).select [] = .ok (selection length master) := by
  have hbindings : ((List.range length).map link).map (Binding.ofDefinition []) =
      (List.range length).map fun i => ⟨.plain, name i, some (body i)⟩ := by
    rw [List.map_map]
    rfl
  have hselect : (program length master).select [] =
      .ok ⟨[], ((List.range length).map link).map (Binding.ofDefinition []), master⟩ := rfl
  rw [hselect, hbindings, selection]

/-- The name of a link is bound to what the link stands for. -/
lemma find?_selection {length i : Nat} (master : Expr) (h : i < length) :
    (selection length master).find? (name i) = some ⟨.plain, name i, some (body i)⟩ := by
  have hmem : link i ∈ (program length master).definitions :=
    List.mem_map.mpr ⟨i, List.mem_range.mpr h, rfl⟩
  exact Program.find?_select (nodup_links length) (select_program length master) hmem

open Evaluation

/-- From a progress that meets `Inv`, the computation is broken off or gives a value that meets `P`,
and the progress at its end meets `Inv`. -/
def OnlyGives (Inv : Progress → Prop) {α : Type} (m : StackM α) (P : α → Prop) : Prop :=
  ∀ p, Inv p → (m.outcome p).1 = none ∨
    ∃ a q, m.outcome p = (some (.ok a), q) ∧ P a ∧ Inv q

namespace OnlyGives

variable {Inv : Progress → Prop} {α β : Type} {P : α → Prop} {Q : β → Prop}

/-- What gives up gives nothing. -/
lemma failure : OnlyGives Inv (failure : StackM α) P :=
  fun _ _ => .inl rfl

/-- A value that is there is given. -/
lemma pure {a : α} (h : P a) : OnlyGives Inv (pure a) P :=
  fun p hp => .inr ⟨a, p, rfl, h, hp⟩

/-- A look at the progress gives one that meets what every progress meets. -/
lemma get : OnlyGives Inv (get : StackM Progress) Inv :=
  fun p hp => .inr ⟨p, p, rfl, hp, hp⟩

/-- A change of the progress keeps what it is to meet. -/
lemma modify {f : Progress → Progress} (h : ∀ p, Inv p → Inv (f p)) :
    OnlyGives Inv (modify f : StackM PUnit) fun _ => True :=
  fun p hp => .inr ⟨⟨⟩, f p, rfl, trivial, h p hp⟩

/-- The second of two computations starts with what the first one gives. -/
lemma bind {m : StackM α} {f : α → StackM β} (h : OnlyGives Inv m P)
    (hf : ∀ a, P a → OnlyGives Inv (f a) Q) : OnlyGives Inv (m >>= f) Q := by
  intro p hp
  rw [StackM.outcome_bind]
  rcases h p hp with hnone | ⟨a, q, hm, ha, hq⟩
  · rcases hm : m.outcome p with ⟨r, q⟩
    rw [hm] at hnone
    obtain rfl : r = none := hnone
    exact .inl rfl
  · rw [hm]
    exact hf a ha q hq

end OnlyGives

variable {env : Environment} {settings : Settings} {length : Nat} {master : Expr}

/-- With two frames for it, a reference to a link leads to what the link stands for. -/
lemma evalOn_body_succ {i : Nat} (hi : i < length) (frames : Nat) :
    evalOn env settings (selection length master) (frames + 2) (body (i + 1)) = (do
      enterBinding (evalOn env settings (selection length master) frames) (name i)
        ⟨.plain, name i, some (body i)⟩ ((← get).results.lookup (name i))) := by
  rw [body, evalOn_add_two rfl, stepWith, find?_selection master hi]

/-- Without the frames for all of its links, an evaluation that goes down from the end of a chain
is broken off. -/
lemma evalOn_body_exhausts {i frames : Nat} (hi : i ≤ length) (hframes : frames < 2 * (i + 1)) :
    OnlyGives (fun p => p.results = [])
      (evalOn env settings (selection length master) frames (body i)) fun _ => False := by
  induction i generalizing frames with
  | zero =>
    match frames, hframes with
    | 0, _ | 1, _ => exact .failure
  | succ i ih =>
    match frames, hframes with
    | 0, _ | 1, _ => exact .failure
    | frames + 2, hframes =>
      rw [evalOn_body_succ hi]
      refine OnlyGives.get.bind fun p hp => ?_
      rw [hp, List.lookup_nil]
      exact (ih (by omega) (by omega)).bind fun body h => h.elim

/-! ### Chains of which some links have been evaluated -/

/-- A system with nothing but the module at the end of the chains. -/
def environment : Environment :=
  ({ registry := .ofVersions [("Foo", some "1")] } : SystemDescription).environment

/-- What a trace of a link's body is: it is true, and to look through it takes a frame for the link
and for each link below. -/
def IsTrace (i : Nat) (t : Trace) : Prop :=
  t.truthy = true ∧ t.operandFrames = i + 1

/-- The answer about the module, if it is kept, is that of the system, and the results that are kept
of links are traces of their bodies. -/
structure Sound (p : Progress) : Prop where
  answers : ∀ r, Answered.find? p.answers (.lookup "Foo") = some r → r = some ⟨"Foo", some "1"⟩
  results : ∀ n t, p.results.lookup n = some t → ∀ i, n = name i → IsTrace i t

/-- The question about the module is answered in the same way each time. -/
lemma exists_outcome_ask {p : Progress} (h : Sound p) :
    ∃ q, (ask environment {} (.lookup "Foo")).outcome p = (.ok (some ⟨"Foo", some "1"⟩), q) ∧
      Sound q := by
  cases hfind : Answered.find? p.answers (.lookup "Foo") with
  | some r =>
    obtain rfl := h.answers r hfind
    exact ⟨p, outcome_ask_of_found rfl hfind, h⟩
  | none =>
    refine ⟨_, outcome_ask_of_ok rfl hfind rfl, ?_, h.results⟩
    intro r hr
    simpa [Answered.find?] using hr.symm

/-- The module is found whenever there is a frame for it. -/
lemma onlyGives_package (frames : Nat) :
    OnlyGives Sound (evalOn environment {} (selection length master) frames (body 0))
      (IsTrace 0) := by
  match frames with
  | 0 | 1 => exact .failure
  | frames + 2 =>
    intro p hp
    obtain ⟨q, hask, hq⟩ := exists_outcome_ask hp
    have hfind : (Evaluation.find environment {} "Foo" none []).outcome p =
        (.ok (some ⟨some "1", some ⟨[.number 1], "1"⟩, none, []⟩), q) := by
      rw [Evaluation.find, EvalM.outcome_bind_of_ok hask]
      rfl
    have hrun : (evalOn environment {} (selection length master) (frames + 2) (body 0)).outcome p =
        (some (.ok (.package "Foo" none [] (some ⟨some "1", some ⟨[.number 1], "1"⟩, none, []⟩))),
          q) := by
      rw [body, evalOn_add_two rfl]
      refine (StackM.outcome_lift _ p).trans ?_
      rw [evalWith, EvalM.outcome_bind_of_ok hfind]
      rfl
    exact .inr ⟨_, q, hrun, ⟨rfl, rfl⟩, hq⟩

/-- A link gives a trace of its body, unless the evaluation is broken off, whichever links have been
evaluated before. -/
lemma onlyGives_body {i : Nat} (hi : i ≤ length) (frames : Nat) :
    OnlyGives Sound (evalOn environment {} (selection length master) frames (body i))
      (IsTrace i) := by
  induction i generalizing frames with
  | zero => exact onlyGives_package frames
  | succ i ih =>
    match frames with
    | 0 | 1 => exact .failure
    | frames + 2 =>
      rw [evalOn_body_succ hi]
      refine OnlyGives.get.bind fun p hp => ?_
      cases hlookup : p.results.lookup (name i) with
      | some t =>
        obtain ⟨htruthy, hframes⟩ := hp.results _ t hlookup i rfl
        exact .pure ⟨htruthy, congrArg (· + 1) hframes⟩
      | none =>
        refine (ih (by omega) frames).bind fun t ht => ?_
        have hnew (j : Nat) (hj : name i = name j) : IsTrace j t := name_injective hj ▸ ht
        refine (OnlyGives.modify fun p hp => ⟨hp.answers, ?_⟩).bind fun _ _ =>
          .pure ⟨ht.1, congrArg (· + 1) ht.2⟩
        exact forall_lookup_cons (P := fun n t => ∀ j, n = name j → IsTrace j t) hnew hp.results

/-- Two links, and a third one that is compared with a version. -/
def staged (i j k : Nat) : Expr :=
  .logical .and (.logical .and (body (i + 1)) (body (j + 1)))
    (.compare .eq (body (k + 1)) (.version ⟨[.number 1], "1"⟩))

/-- Two links hold together, whichever links have been evaluated before. -/
lemma onlyGives_pair {i j : Nat} (hi : i < length) (hj : j < length) (frames : Nat) :
    OnlyGives Sound (spineWith (evalOn environment {} (selection length master) frames)
      (.logical .and (body (i + 1)) (body (j + 1)))) fun t => t.truthy = true := by
  refine (onlyGives_body (Nat.succ_le_of_lt hi) frames).bind fun left hleft => ?_
  rw [hleft.1]
  refine (onlyGives_body (Nat.succ_le_of_lt hj) frames).bind fun right hright => .pure ?_
  have happly : LogicalOp.and.apply true right.truthy = true := by
    rw [hright.1]
    rfl
  exact happly

/-- Without the frames for all links that a comparison looks through, it is broken off, even if the
links have been evaluated before. -/
lemma onlyGives_comparison {k frames : Nat} (hk : k < length) (hframes : frames < k + 4) :
    OnlyGives Sound (evalOn environment {} (selection length master) frames
      (.compare .eq (body (k + 1)) (.version ⟨[.number 1], "1"⟩))) fun _ => False := by
  match frames, hframes with
  | 0, _ | 1, _ => exact .failure
  | frames + 2, hframes =>
    have hright : OnlyGives Sound (evalOn environment {} (selection length master) frames
        (.version ⟨[.number 1], "1"⟩)) fun _ => True := by
      cases frames with
      | zero => exact .failure
      | succ frames => exact .pure trivial
    rw [evalOn_add_two rfl]
    refine (onlyGives_body (Nat.succ_le_of_lt hk) frames).bind fun left hleft => ?_
    refine hright.bind fun right _ => ?_
    rw [if_neg fun hfit => ?_]
    · exact .failure
    · have hle := hfit.1
      rw [hleft.2] at hle
      omega

/-- The comparison that comes last breaks the whole off, since the links before it hold. -/
lemma onlyGives_staged {i j k frames : Nat} (hi : i < length) (hj : j < length) (hk : k < length)
    (hframes : frames < k + 6) :
    OnlyGives Sound (evalOn environment {} (selection length master) frames (staged i j k))
      fun _ => False := by
  match frames, hframes with
  | 0, _ | 1, _ => exact .failure
  | frames + 2, hframes =>
    rw [staged, evalOn_add_two rfl]
    refine (onlyGives_pair hi hj frames).bind fun left hleft => ?_
    rw [hleft]
    exact (onlyGives_comparison hk (by omega)).bind fun right h => h.elim

/-- The comparison in stages can be the master expression. -/
lemma derivedMaster_staged (i j k : Nat) : (staged i j k).DerivedMaster := by
  have hlink (strength : Expr.Strength) (h : strength.rank ≤ Expr.Strength.primary.rank) (i : Nat) :
      Grammar.Derives false maxNesting strength
        [.mark .openBrace, .name (name i), .mark .closeBrace] (body (i + 1)) :=
    derives_reference i h
  have hversion : Grammar.Derives false maxNesting .ordering [.version ⟨[.number 1], "1"⟩]
      (.version ⟨[.number 1], "1"⟩) := .weaken (by decide) (.version _)
  have hcompare := Grammar.Derives.compare .eq (hlink .ordering (by decide) k) hversion
  exact ⟨⟨⟨isName_name i, isName_name j⟩, isName_name k, rfl⟩, _,
    .logical .and (.logical .and (hlink .logical (by decide) i) (hlink .tagged (by decide) j))
      (.weaken (by decide) hcompare)⟩

/-- What is only given by an impossible value is not given: the stack is exhausted. -/
lemma result_evaluateOn_eq_none {s : Selection} {frames : Nat} {Inv : Progress → Prop}
    (h : OnlyGives Inv (evalOn env settings s frames s.master) fun _ => False) (hp : Inv {}) :
    (s.evaluateOn frames env settings).result = none := by
  rw [Selection.evaluateOn_eq]
  rcases h {} hp with hnone | ⟨-, -, -, himpossible, -⟩
  · exact hnone
  · exact himpossible.elim

/-- A chain with its end as the master expression is a program, whose evaluation exhausts every
stack without two frames for each link and for the module. -/
theorem evaluateOn_body (length : Nat) {frames : Nat} (h : frames < 2 * (length + 1)) :
    Program.compile (program length (body length)).format = .ok (program length (body length)) ∧
      (program length (body length)).select [] = .ok (selection length (body length)) ∧
      ((selection length (body length)).evaluateOn frames env settings).result = none := by
  refine ⟨?_, select_program length _, ?_⟩
  · refine compile_program (derivedMaster_body length) (by cases length <;> rfl) fun n hn => ?_
    obtain ⟨j, rfl, rfl⟩ := references_body hn
    exact ⟨j, Nat.lt_succ_self j, rfl⟩
  · have hgives : OnlyGives (fun p => p.results = [])
        (evalOn env settings (selection length (body length)) frames (body length))
        fun _ => False := evalOn_body_exhausts (Nat.le_refl length) h
    exact result_evaluateOn_eq_none hgives rfl

/-- A chain with a comparison in stages as the master expression is a program, whose evaluation
exhausts every stack without a frame for each link that is looked through. -/
theorem evaluateOn_staged {length i j k frames : Nat} (hi : i < length) (hj : j < length)
    (hk : k < length) (h : frames < k + 6) :
    Program.compile (program length (staged i j k)).format = .ok (program length (staged i j k)) ∧
      (program length (staged i j k)).select [] = .ok (selection length (staged i j k)) ∧
      ((selection length (staged i j k)).evaluateOn frames environment {}).result = none := by
  refine ⟨?_, select_program length _, ?_⟩
  · refine compile_program (derivedMaster_staged i j k) rfl fun n hn => ?_
    have hversion : (Expr.version ⟨[.number 1], "1"⟩).references = [] := rfl
    have hname : (n = name i ∨ n = name j) ∨ n = name k := by
      simpa [staged, body, hversion] using hn
    rcases hname with (rfl | rfl) | rfl
    · exact ⟨i, hi, rfl⟩
    · exact ⟨j, hj, rfl⟩
    · exact ⟨k, hk, rfl⟩
  · have hgives : OnlyGives Sound
        (evalOn environment {} (selection length (staged i j k)) frames (staged i j k))
        fun _ => False := onlyGives_staged hi hj hk h
    exact result_evaluateOn_eq_none hgives ⟨by rintro r ⟨⟩, by rintro n t ⟨⟩⟩

/-- No number of frames suffices for all programs. -/
theorem exists_program_exhausting (frames : Nat) (env : Environment) (settings : Settings) :
    ∃ source p s, Program.compile source = .ok p ∧ p.select [] = .ok s ∧
      (s.evaluateOn frames env settings).result = none :=
  ⟨_, _, _, evaluateOn_body frames (by omega)⟩

/-- With a thousand frames, the evaluation of a chain of fifteen hundred links is broken off, be it
that it goes down the chain or that a comparison looks through it. -/
theorem exists_chains_broken_off :
    let p := program 1500 (body 1500)
    let q := program 1500 (staged 400 800 1200)
    (Program.compile p.format = .ok p ∧ p.select [] = .ok (selection 1500 (body 1500)) ∧
      ((selection 1500 (body 1500)).evaluateOn 1000 environment {}).result = none) ∧
    Program.compile q.format = .ok q ∧ q.select [] = .ok (selection 1500 (staged 400 800 1200)) ∧
      ((selection 1500 (staged 400 800 1200)).evaluateOn 1000 environment {}).result = none :=
  ⟨evaluateOn_body 1500 (by omega),
    evaluateOn_staged (by omega) (by omega) (by omega) (by omega)⟩

end Chain

end Requirements
