import Mathlib.Tactic.Lemma
import Requirements.Proofs.Grammar.Readers

/-!
# What the readers find

If a feed starts with words that derive an expression, then the reader of the place finds that
expression, unless the word behind them would have it read on. A connective is followed by another
operand, so a chain of operands is looked at as the loop that is still to run.
-/

namespace Requirements

namespace Parser

open Requirements.Expr (Strength)
open Grammar

/-- On a feed that starts with the words, followed by a word in `stops`, and in which the tags are
new, the reader returns `a` and consumes the words. -/
def Reads {α : Type} (r : Reader α) (stops : Option Lexeme → Prop) (words : List Lexeme)
    (tags : List String) (a : α) : Prop :=
  ∀ feed taken rest, feed.tokens = taken ++ rest → taken.map Token.lexeme = words →
    stops (rest.head?.map Token.lexeme) → (tags ++ feed.used).Nodup →
    ∃ feed', r.run feed = .ok (a, feed') ∧ feed'.tokens = rest ∧ Consumes feed feed' words tags

/-- Whatever word follows. -/
abbrev anyWord : Option Lexeme → Prop := fun _ => True

namespace Reads

variable {α β : Type} {stops stops' : Option Lexeme → Prop} {words words' : List Lexeme}
  {tags tags' : List String}

/-- A value given at once is read from no words. -/
lemma pure (a : α) : Reads (pure a) stops [] [] a := by
  intro feed taken rest htokens hwords _ _
  obtain rfl : taken = [] := List.map_eq_nil_iff.mp hwords
  exact ⟨feed, rfl, htokens, .refl feed⟩

/-- A reader may be asked to stop in front of fewer words. -/
lemma mono {r : Reader α} {a : α} (h : Reads r stops words tags a)
    (hstops : ∀ o, stops' o → stops o) : Reads r stops' words tags a :=
  fun feed taken rest htokens hwords hstop => h feed taken rest htokens hwords (hstops _ hstop)

/-- The order in which tags are used does not matter. -/
lemma perm {r : Reader α} {a : α} (h : Reads r stops words tags a) (htags : tags.Perm tags') :
    Reads r stops words tags' a := by
  intro feed taken rest htokens hwords hstop hnodup
  have hnodup' : (tags ++ feed.used).Nodup := (htags.append_right feed.used).nodup_iff.mpr hnodup
  obtain ⟨feed', hrun, hrest, hconsumes⟩ := h feed taken rest htokens hwords hstop hnodup'
  exact ⟨feed', hrun, hrest, hconsumes.perm htags⟩

/-- Two readers in sequence. The first is stopped by the words of the second, or, if there are none,
by what stops the second. -/
theorem bind {m : Reader α} {f : α → Reader β} {a : α} {b : β} (hm : Reads m stops words tags a)
    (hf : Reads (f a) stops' words' tags' b)
    (hstop : ∀ o, stops' o → stops (words'.head?.or o)) :
    Reads (m >>= f) stops' (words ++ words') (tags ++ tags') b := by
  intro feed taken rest htokens hwords hrest hnodup
  obtain ⟨left, right, rfl, hleft, hright⟩ := List.map_eq_append_iff.mp hwords
  have hnext : stops ((right ++ rest).head?.map Token.lexeme) := by
    have := hstop _ hrest
    rw [← hright, List.head?_map] at this
    rwa [List.head?_append, Option.map_or]
  have hnodup₁ : (tags ++ feed.used).Nodup := by
    refine hnodup.sublist ?_
    exact (List.sublist_append_left tags tags').append_right feed.used
  obtain ⟨mid, hrun, hmid, hconsumes⟩ :=
    hm feed left (right ++ rest) (by rw [htokens, List.append_assoc]) hleft hnext hnodup₁
  have hnodup₂ : (tags' ++ mid.used).Nodup := by
    refine ((hconsumes.used.append_left tags').nodup_iff).mpr ?_
    rw [← List.append_assoc]
    exact ((List.perm_append_comm.append_right feed.used).nodup_iff).mpr hnodup
  obtain ⟨feed', hrun', hfeed', hconsumes'⟩ := hf mid right rest hmid hright hrest hnodup₂
  exact ⟨feed', by rw [run_bind_of_ok hrun]; exact hrun', hfeed', hconsumes.trans hconsumes'⟩

/-- The next word decides how to go on. -/
theorem next {f : Option Lexeme → Reader β} {l : Lexeme} {b : β}
    (h : Reads (f (some l)) stops (l :: words) tags b) :
    Reads (next? >>= f) stops (l :: words) tags b := by
  intro feed taken rest htokens hwords hstop hnodup
  have hnext : feed.next? = some l := by
    rw [Feed.next?, htokens, List.head?_append, Option.map_or, ← List.head?_map, hwords]
    rfl
  rw [run_next?_bind, hnext]
  exact h feed taken rest htokens hwords hstop hnodup

/-- The word behind those to be read decides that nothing more is read. -/
theorem stop {f : Option Lexeme → Reader β} {b : β}
    (h : ∀ o, stops o → Reads (f o) stops [] tags b) : Reads (next? >>= f) stops [] tags b := by
  intro feed taken rest htokens hwords hstop hnodup
  obtain rfl : taken = [] := List.map_eq_nil_iff.mp hwords
  have hnext : feed.next? = rest.head?.map Token.lexeme := by rw [Feed.next?, htokens]; rfl
  rw [run_next?_bind, hnext]
  exact h _ hstop feed [] rest htokens hwords hstop hnodup

/-- Looking where the reader stands consumes nothing. -/
lemma place {f : Position → Reader β} {b : β} (h : ∀ p, Reads (f p) stops words tags b) :
    Reads (place >>= f) stops words tags b :=
  fun feed => h feed.place feed

/-- One word is skipped, whatever it is. -/
lemma skip (l : Lexeme) : Reads skip anyWord [l] [] () := by
  intro feed taken rest htokens hwords _ _
  obtain ⟨t, tail, rfl, rfl, hnil⟩ := List.map_eq_cons_iff.mp hwords
  obtain rfl := List.map_eq_nil_iff.mp hnil
  have hnext : feed.next? = some t.lexeme := by rw [Feed.next?, htokens]; rfl
  refine ⟨feed.rest, run_skip feed, ?_, .rest hnext⟩
  rw [Feed.rest, htokens]
  rfl

/-- A reader that is not stopped by anything in particular, followed by another. -/
theorem seq {m : Reader α} {f : α → Reader β} {a : α} {b : β} (hm : Reads m anyWord words tags a)
    (hf : Reads (f a) stops words' tags' b) :
    Reads (m >>= f) stops (words ++ words') (tags ++ tags') b :=
  hm.bind hf fun _ _ => trivial

/-- Passing over a word and going on. -/
theorem skipSeq {f : Unit → Reader β} {b : β} (l : Lexeme) (hf : Reads (f ()) stops words tags b) :
    Reads (Parser.skip >>= f) stops (l :: words) tags b :=
  (skip l).seq hf

/-- A reader followed by one that only looks at the word behind. -/
theorem before {m : Reader α} {f : α → Reader β} {a : α} {b : β} (hm : Reads m stops words tags a)
    (hf : Reads (f a) stops' [] [] b) (hstop : ∀ o, stops' o → stops o) :
    Reads (m >>= f) stops' words tags b := by
  have hall := hm.bind hf hstop
  rwa [List.append_nil, List.append_nil] at hall

/-- A value computed from what was read. -/
theorem map {m : Reader α} {a : α} (h : Reads m stops words tags a) (g : α → β) :
    Reads (do return g (← m)) stops words tags (g a) :=
  h.before (.pure (g a)) fun _ ho => ho

/-- A loop that is bounded by the tokens left has rounds enough for the words it reads. -/
lemma forTokens {loop : Nat → Reader α} {a : α}
    (h : ∀ n, words.length < n → Reads (loop n) stops words tags a) :
    Reads (forTokens loop) stops words tags a := by
  intro feed taken rest htokens hwords hstop hnodup
  rw [run_forTokens]
  refine h _ ?_ feed taken rest htokens hwords hstop hnodup
  rw [htokens, ← hwords, List.length_map, List.length_append]
  omega

end Reads

/-! ### Words -/

/-- The word that is expected is read. -/
lemma expect_reads (l : Lexeme) (what : Expectation) :
    Reads (expect l what) anyWord [l] [] () := by
  refine .next ?_
  rw [if_pos rfl]
  exact .skip l

/-- A name that is expected is read. -/
lemma expectName_reads (what : Expectation) (name : String) :
    Reads (expectName what) anyWord [.name name] [] name :=
  .next (.skipSeq _ (.pure name))

/-- A quoted text that is expected is read. -/
lemma expectQuoted_reads (value : String) : Reads expectQuoted anyWord [.quoted value] [] value :=
  .next (.skipSeq _ (.pure value))

/-! ### Primary expressions -/

/-- No further argument follows. -/
def NoComma (o : Option Lexeme) : Prop :=
  o ≠ some (.mark .comma)

/-- The arguments behind the first one are read up to the first missing comma. -/
lemma argumentsFrom_reads (args : List String) {n : Nat} (hn : args.length < n) :
    Reads (argumentsFrom n) NoComma (args.flatMap fun a => [.mark .comma, .quoted a]) [] args := by
  induction args generalizing n with
  | nil =>
    obtain ⟨n, rfl⟩ := Nat.exists_eq_add_of_lt hn
    refine .stop fun o ho => ?_
    rw [if_neg ho]
    exact .pure []
  | cons arg args ih =>
    rw [List.length_cons] at hn
    obtain ⟨n, rfl⟩ : ∃ m, n = m + 1 := ⟨n - 1, by omega⟩
    rw [List.flatMap_cons]
    refine .next ?_
    rw [if_pos rfl]
    exact .skipSeq _ ((expectQuoted_reads arg).seq ((ih (by omega)).map (arg :: ·)))

/-- The arguments of a probe are read with their parentheses. -/
lemma arguments_reads (kind : Probe) (first : String) (others : List String) :
    Reads (arguments kind) anyWord
      (.mark .openParen :: (argumentWords first others ++ [.mark .closeParen])) []
      (first :: others) := by
  have hloop : Reads (forTokens argumentsFrom) NoComma
      (others.flatMap fun a => [.mark .comma, .quoted a]) [] others := by
    refine .forTokens fun n hn => argumentsFrom_reads others ?_
    rw [List.length_flatMap] at hn
    simp only [List.length_cons, List.length_nil, List.map_const',
      List.sum_replicate_nat] at hn
    omega
  have hclose := (expect_reads (.mark .closeParen) .closeParen).map fun _ => first :: others
  refine (expect_reads _ _).seq ((expectQuoted_reads first).seq (hloop.bind hclose ?_))
  rintro o -
  simp [NoComma]

/-- The features behind the first one are read up to the closing parenthesis. -/
lemma featuresFrom_reads (list : List String) {n : Nat} (hn : list.length < n) :
    Reads (featuresFrom n) anyWord
      ((list.flatMap fun f => [.logical .and, .name f]) ++ [.mark .closeParen]) [] list := by
  induction list generalizing n with
  | nil =>
    obtain ⟨n, rfl⟩ := Nat.exists_eq_add_of_lt hn
    exact .next (.skipSeq _ (.pure []))
  | cons f list ih =>
    rw [List.length_cons] at hn
    obtain ⟨n, rfl⟩ : ∃ m, n = m + 1 := ⟨n - 1, by omega⟩
    rw [List.flatMap_cons, List.append_assoc]
    exact .next (.skipSeq _ ((expectName_reads .feature f).seq ((ih (by omega)).map (f :: ·))))

/-- The features of a module are read up to the closing parenthesis. -/
lemma features_reads (first : String) (others : List String) :
    Reads features anyWord (featureWords first others ++ [.mark .closeParen]) []
      (first :: others) := by
  have hloop : Reads (forTokens featuresFrom) anyWord
      ((others.flatMap fun f => [.logical .and, .name f]) ++ [.mark .closeParen]) [] others := by
    refine .forTokens fun n hn => featuresFrom_reads others ?_
    rw [List.length_append, List.length_flatMap] at hn
    simp only [List.length_cons, List.length_nil, List.map_const',
      List.sum_replicate_nat] at hn
    omega
  exact (expectName_reads .feature first).seq (hloop.map (first :: ·))

/-- A name in braces is read behind the opening one. -/
lemma braced_reads (name : String) :
    Reads Parser.braced anyWord [.name name, .mark .closeBrace] [] (Grammar.braced name) := by
  refine (expectName_reads .referenceName name).seq ((expect_reads _ _).seq ?_)
  unfold Grammar.braced
  cases Platform.ofName? name with
  | some fact => exact .pure _
  | none => exact .pure _

/-! ### Places -/

/-- Whether the reader of a place reads on at the word. -/
def readsOn (strength : Strength) : Lexeme → Bool
  | .mark .openParen | .openFeatures => true
  | .compare op => strength.rank ≤ (Strength.ofCompare op).rank
  | .keyword .membership => strength.rank ≤ Strength.within.rank
  | .keyword .tagging => strength.rank ≤ Strength.tagged.rank
  | .logical _ => strength.rank ≤ Strength.logical.rank
  | _ => false

/-- The word, or the end of the text, stops the reader of a place. -/
def Stops (strength : Strength) (o : Option Lexeme) : Prop :=
  ∀ l, o = some l → readsOn strength l = false

/-- What stops the reader of a place stops the readers of all stronger places. -/
theorem Stops.mono {strength stronger : Strength} (hle : strength.rank ≤ stronger.rank)
    {o : Option Lexeme} (h : Stops strength o) : Stops stronger o := by
  rintro l rfl
  have hl := h l rfl
  cases l with
  | mark m => cases m <;> simp_all [readsOn]
  | keyword k =>
    cases k with
    | tagging | membership =>
      simp only [readsOn, decide_eq_false_iff_not, Nat.not_le] at hl ⊢
      omega
    | _ => rfl
  | compare op | logical op =>
    simp only [readsOn, decide_eq_false_iff_not, Nat.not_le] at hl ⊢
    omega
  | openFeatures => simp [readsOn] at hl
  | _ => rfl

/-- A word that is not read on at a place stops the reader of the place. -/
lemma stops_some {strength : Strength} {l : Lexeme} (h : readsOn strength l = false) :
    Stops strength (some l) := by
  rintro l' ⟨⟩
  exact h

variable {inChoice : Bool} {levels : Nat} {words : List Lexeme} {e : Expr}

/-- No parenthesis follows a primary expression, neither one of a probe nor one of features. -/
lemma primary_stops_ne {o : Option Lexeme} (h : Stops .primary o) :
    o ≠ some (.mark .openParen) ∧ o ≠ some .openFeatures := by
  constructor
  · intro ho
    exact absurd (h _ ho) (by simp [readsOn])
  · intro ho
    exact absurd (h _ ho) (by simp [readsOn])

/-- A name alone is a module. -/
lemma named_reads (start : Position) {name : String} (h : Probe.ofName? name = none) :
    Reads (named start name) (Stops .primary) [] [] (.package name none []) := by
  unfold named
  rw [h]
  refine .stop fun o ho => ?_
  obtain ⟨hparen, hfeatures⟩ := primary_stops_ne ho
  split
  · exact absurd rfl hparen
  · exact absurd rfl hfeatures
  · exact .pure _

/-- A name with features is a module with features. -/
lemma named_reads_features (start : Position) {name : String} (h : Probe.ofName? name = none)
    (first : String) (others : List String) :
    Reads (named start name) anyWord
      (.openFeatures :: (featureWords first others ++ [.mark .closeParen])) []
      (.package name none (first :: others)) := by
  unfold named
  rw [h]
  exact .next (.skipSeq _ ((features_reads first others).map (Expr.package name none)))

/-- The name of a probe with arguments is the probe. -/
lemma named_reads_probe (start : Position) {name : String} {kind : Probe}
    (h : Probe.ofName? name = some kind) (first : String) (others : List String) :
    Reads (named start name) anyWord
      (.mark .openParen :: (argumentWords first others ++ [.mark .closeParen])) []
      (.probe kind (first :: others)) := by
  unfold named
  rw [h]
  exact (arguments_reads kind first others).map (Expr.probe kind)

/-- A comparison that is not there. -/
theorem compared_reads_operand {admits : CompareOp → Bool} {operand : Reader Expr}
    {stops stops' : Option Lexeme → Prop} {tags : List String}
    (h : Reads operand stops words tags e) (hstop : ∀ o, stops' o → stops o)
    (hadmits : ∀ op, stops' (some (.compare op)) → admits op = false) :
    Reads (compared admits operand) stops' words tags e := by
  refine h.before (.stop fun o ho => ?_) hstop
  split
  · rename_i op
    rw [if_neg (by simp [hadmits op ho])]
    exact .pure e
  · exact .pure e

/-- A comparison is read from its sides, if the operator is admitted at the place. -/
lemma compared_reads {admits : CompareOp → Bool} {operand : Reader Expr}
    {stops stops' : Option Lexeme → Prop} {left right : List Lexeme} {lhs rhs : Expr}
    {op : CompareOp} (hl : Reads operand stops left lhs.tags lhs)
    (hr : Reads operand stops right rhs.tags rhs) (hop : admits op = true)
    (hcompare : stops (some (.compare op))) (hstop : ∀ o, stops' o → stops o) :
    Reads (compared admits operand) stops' (left ++ .compare op :: right)
      (lhs.tags ++ rhs.tags) (.comparison op lhs rhs) := by
  refine hl.bind (.next ?_) fun _ _ => hcompare
  simp only [hop, if_true]
  exact .skipSeq _ ((hr.mono hstop).map (Expr.comparison op lhs))

/-- No further range follows. -/
def NoRange (o : Option Lexeme) : Prop :=
  ∀ text r, o ≠ some (.range text r)

/-- The ranges behind the first one are read up to the first word that is none. -/
lemma rangesFrom_reads {spelled : List (String × Version.Range)}
    (hfull : ∀ r ∈ spelled, r.2.isEmpty = false) {n : Nat} (hn : spelled.length < n) :
    Reads (rangesFrom n) NoRange (rangeWords spelled) [] (spelled.map Prod.snd) := by
  induction spelled generalizing n with
  | nil =>
    obtain ⟨n, rfl⟩ := Nat.exists_eq_add_of_lt hn
    refine .stop fun o ho => ?_
    split
    · rename_i text r
      exact absurd rfl (ho text r)
    · exact .pure []
  | cons r spelled ih =>
    rw [List.length_cons] at hn
    obtain ⟨n, rfl⟩ : ∃ m, n = m + 1 := ⟨n - 1, by omega⟩
    rw [List.forall_mem_cons] at hfull
    refine .next ?_
    simp only [hfull.1, Bool.false_eq_true, if_false]
    exact .skipSeq _ ((ih hfull.2 (by omega)).map (r.2 :: ·))

/-- The ranges of a version set are read with their delimiters. -/
lemma versionSet_reads {spelled : List (String × Version.Range)} (hne : spelled ≠ [])
    (hfull : ∀ r ∈ spelled, r.2.isEmpty = false) :
    Reads versionSet anyWord (.openSet :: (rangeWords spelled ++ [.closeSet])) []
      ⟨spelled.map Prod.snd⟩ := by
  have hloop : Reads (forTokens rangesFrom) NoRange (rangeWords spelled) []
      (spelled.map Prod.snd) := by
    refine .forTokens fun n hn => rangesFrom_reads hfull ?_
    rwa [rangeWords, List.length_map] at hn
  refine .place fun start => (expect_reads _ _).seq (hloop.bind ?_ fun o _ => by simp [NoRange])
  refine (expect_reads .closeSet .closeSet).before ?_ fun o ho => ho
  have hranges : (spelled.map Prod.snd).isEmpty = false := by
    cases spelled with
    | nil => exact absurd rfl hne
    | cons r spelled => rfl
  simp only [hranges, Bool.false_eq_true, if_false]
  exact .pure _

/-- A tag that was not used before is read. -/
lemma freshTag_reads (tag : String) : Reads freshTag anyWord [.name tag] [tag] tag := by
  refine .place fun start => ?_
  intro feed taken rest htokens hwords hstop hnodup
  have hnew : tag ∉ feed.used := (List.nodup_cons.mp hnodup).1
  have hnodup' : ([] ++ feed.used).Nodup := (List.nodup_cons.mp hnodup).2
  obtain ⟨mid, hrun, hmid, hconsumes⟩ :=
    expectName_reads .tagName tag feed taken rest htokens hwords hstop hnodup'
  have hfresh : tag ∉ mid.used := fun hmem => hnew (by simpa using hconsumes.used.subset hmem)
  have hlookup : mid.tags.lookup tag = none := by
    rw [List.lookup_eq_none_iff]
    intro r hr
    have hne : tag ≠ r.1 := fun h => hfresh (h ▸ List.mem_map.mpr ⟨r, hr, rfl⟩)
    simpa using hne
  refine ⟨{ mid with tags := (tag, start.line) :: mid.tags }, ?_, hmid, ?_⟩
  · rw [run_bind_of_ok hrun, run_get_bind, hlookup]
    rfl
  · exact ⟨hconsumes.tokens, hconsumes.finish, hconsumes.used.cons tag,
      fun hn => List.nodup_cons.mpr ⟨hfresh, hconsumes.nodup hn⟩⟩

/-- A set test that is not there. -/
theorem member_reads_operand {operand : Reader Expr} {tags : List String}
    (h : Reads operand (Stops .equality) words tags e) :
    Reads (member operand) (Stops .within) words tags e := by
  refine h.before (.stop fun o ho => ?_) fun o => Stops.mono (by simp [Strength.rank])
  rw [if_neg]
  · exact .pure e
  · rintro rfl
    exact absurd (ho _ rfl) (by simp [readsOn])

/-- A set test is read from its operand and its ranges. -/
lemma member_reads {operand : Reader Expr} {spelled : List (String × Version.Range)}
    (h : Reads operand (Stops .equality) words e.tags e) (hne : spelled ≠ [])
    (hfull : ∀ r ∈ spelled, r.2.isEmpty = false) :
    Reads (member operand) (Stops .within)
      (words ++ .keyword .membership :: .openSet :: (rangeWords spelled ++ [.closeSet]))
      (e.membership ⟨spelled.map Prod.snd⟩).tags (e.membership ⟨spelled.map Prod.snd⟩) := by
  have hset : Reads (do return e.membership (← versionSet)) (Stops .within)
      (.openSet :: (rangeWords spelled ++ [.closeSet])) [] (e.membership ⟨spelled.map Prod.snd⟩) :=
    ((versionSet_reads hne hfull).map e.membership).mono fun _ _ => trivial
  have hall : Reads (member operand) (Stops .within)
      (words ++ .keyword .membership :: .openSet :: (rangeWords spelled ++ [.closeSet]))
      (e.tags ++ []) (e.membership ⟨spelled.map Prod.snd⟩) := by
    refine h.bind (.next ?_) fun _ _ => stops_some (by simp [readsOn, Strength.rank])
    rw [if_pos rfl]
    exact .skipSeq _ hset
  rw [Expr.tags_membership]
  rwa [List.append_nil] at hall

/-- A tag that is not there. -/
theorem alternative_reads_operand {operand : Reader Expr} {tags : List String}
    (h : Reads operand (Stops .within) words tags e) :
    Reads (alternative inChoice operand) (Stops .tagged) words tags e := by
  refine h.before (.stop fun o ho => ?_) fun o => Stops.mono (by simp [Strength.rank])
  rw [if_neg]
  · exact .pure e
  · rintro rfl
    exact absurd (ho _ rfl) (by simp [readsOn])

/-- In a choice, a tagged alternative is read with its tag. -/
lemma alternative_reads {operand : Reader Expr} (tag : String)
    (h : Reads operand (Stops .within) words e.tags e) :
    Reads (alternative true operand) (Stops .tagged)
      (words ++ [.keyword .tagging, .mark .colon, .name tag]) (Expr.tagged e tag).tags
      (.tagged e tag) := by
  have htag : Reads (do return Expr.tagged e (← freshTag)) (Stops .tagged) [.name tag] [tag]
      (Expr.tagged e tag) :=
    ((freshTag_reads tag).map (Expr.tagged e)).mono fun _ _ => trivial
  have hall : Reads (alternative true operand) (Stops .tagged)
      (words ++ [.keyword .tagging, .mark .colon, .name tag]) (e.tags ++ [tag])
      (.tagged e tag) := by
    refine h.bind (.next ?_) fun _ _ => stops_some (by simp [readsOn, Strength.rank])
    rw [if_pos rfl, if_pos rfl]
    exact .skipSeq _ ((expect_reads (.mark .colon) .tagColon).seq htag)
  rw [Expr.tags_tagged]
  exact hall.perm List.perm_append_comm

/-! ### Connectives -/

/-- Reading the words leaves a loop that joins further operands to the expression. -/
def ReadsJoined (operand : Reader Expr) (words : List Lexeme) (e : Expr) : Prop :=
  ∀ feed taken rest, feed.tokens = taken ++ rest → taken.map Token.lexeme = words →
    Stops .tagged (rest.head?.map Token.lexeme) → (e.tags ++ feed.used).Nodup →
    ∃ feed' fuel, rest.length < fuel ∧
      (chain operand).run feed = (joined operand fuel e).run feed' ∧ feed'.tokens = rest ∧
      Consumes feed feed' words e.tags

namespace ReadsJoined

variable {operand : Reader Expr}

/-- At first there is one operand. -/
theorem of_reads (h : Reads operand (Stops .tagged) words e.tags e) :
    ReadsJoined operand words e := by
  intro feed taken rest htokens hwords hstop hnodup
  obtain ⟨feed', hrun, hrest, hconsumes⟩ := h feed taken rest htokens hwords hstop hnodup
  refine ⟨feed', feed'.tokens.length + 1, by rw [hrest]; omega, ?_, hrest, hconsumes⟩
  rw [chain, run_bind_of_ok hrun, run_forTokens]

/-- A connective joins one more operand. -/
theorem logical {left right : List Lexeme} {lhs rhs : Expr} (op : LogicalOp)
    (hl : ReadsJoined operand left lhs)
    (hr : Reads operand (Stops .tagged) right rhs.tags rhs) :
    ReadsJoined operand (left ++ .logical op :: right) (.logical op lhs rhs) := by
  intro feed taken rest htokens hwords hstop hnodup
  rw [Expr.tags_logical] at hnodup ⊢
  obtain ⟨before, behind, rfl, hbefore, hbehind⟩ := List.map_eq_append_iff.mp hwords
  obtain ⟨t, after, rfl, ht, hafter⟩ := List.map_eq_cons_iff.mp hbehind
  have hop : Stops .tagged ((t :: after ++ rest).head?.map Token.lexeme) := by
    simp only [List.cons_append, List.head?_cons, Option.map_some, ht]
    exact stops_some (by simp [readsOn, Strength.rank])
  have hnodup₁ : (lhs.tags ++ feed.used).Nodup :=
    hnodup.sublist ((List.sublist_append_left lhs.tags rhs.tags).append_right feed.used)
  obtain ⟨mid, fuel, hfuel, hrun, hmid, hconsumes⟩ :=
    hl feed before (t :: after ++ rest) (by rw [htokens, List.append_assoc]) hbefore hop hnodup₁
  have hnext : mid.next? = some (.logical op) := by
    rw [Feed.next?, hmid, ← ht]
    rfl
  have hskip := Consumes.rest hnext
  have hnodup₂ : (rhs.tags ++ mid.rest.used).Nodup := by
    have hused : mid.rest.used.Perm (lhs.tags ++ feed.used) :=
      hskip.used.trans (by simpa using hconsumes.used)
    refine ((hused.append_left rhs.tags).nodup_iff).mpr ?_
    rw [← List.append_assoc]
    exact ((List.perm_append_comm.append_right feed.used).nodup_iff).mpr hnodup
  have hrest : mid.rest.tokens = after ++ rest := by
    rw [Feed.rest, hmid]
    rfl
  obtain ⟨feed', hrun', hfeed', hconsumes'⟩ := hr mid.rest after rest hrest hafter hstop hnodup₂
  obtain ⟨fuel, rfl⟩ : ∃ n, fuel = n + 1 := ⟨fuel - 1, by omega⟩
  refine ⟨feed', fuel, ?_, ?_, hfeed', ?_⟩
  · simp only [List.cons_append, List.length_cons, List.length_append] at hfuel
    omega
  · rw [hrun, joined, run_next?_bind, hnext]
    simp only
    rw [run_skip_bind, run_bind_of_ok hrun']
  · have hall := (hconsumes.trans hskip).trans hconsumes'
    simpa using hall

/-- A word that stops the chain ends the loop. -/
theorem reads (h : ReadsJoined operand words e) :
    Reads (chain operand) (Stops .logical) words e.tags e := by
  intro feed taken rest htokens hwords hstop hnodup
  have hstop' : Stops .tagged (rest.head?.map Token.lexeme) := hstop.mono (by simp [Strength.rank])
  obtain ⟨feed', fuel, hfuel, hrun, hrest, hconsumes⟩ :=
    h feed taken rest htokens hwords hstop' hnodup
  obtain ⟨fuel, rfl⟩ : ∃ n, fuel = n + 1 := ⟨fuel - 1, by omega⟩
  refine ⟨feed', ?_, hrest, hconsumes⟩
  rw [hrun, joined, run_next?_bind]
  split
  · rename_i op hnext
    rw [Feed.next?, hrest] at hnext
    exact absurd (hstop _ hnext) (by simp [readsOn])
  · rfl

end ReadsJoined

/-! ### Expressions -/

/-- The reader of what stands between parentheses, if there may be any. -/
def nestedReader (inChoice : Bool) : Nat → Option (Reader Expr)
  | 0 => none
  | levels + 1 => some (expr inChoice levels)

/-- The reader of a place. -/
def readerAt (inChoice : Bool) (levels : Nat) : Strength → Reader Expr
  | .primary => primary (nestedReader inChoice levels)
  | .ordering => compared (fun op => !op.isEquality) (readerAt inChoice levels .primary)
  | .equality => compared CompareOp.isEquality (readerAt inChoice levels .ordering)
  | .within => member (readerAt inChoice levels .equality)
  | .tagged => alternative inChoice (readerAt inChoice levels .within)
  | .logical => chain (readerAt inChoice levels .tagged)
termination_by strength => 5 - strength.rank
decreasing_by all_goals simp [Strength.rank]

/-- The reader of expressions is the one of the weakest place. -/
lemma expr_eq_readerAt (inChoice : Bool) (levels : Nat) :
    expr inChoice levels = readerAt inChoice levels .logical := by
  cases levels <;> simp [expr, exprWith, readerAt, nestedReader]

/-- An expression of the next stronger place is read at the weaker place, too. -/
theorem reads_lift {strength stronger : Strength} (hrank : strength.rank + 1 = stronger.rank)
    (h : Reads (readerAt inChoice levels stronger) (Stops stronger) words e.tags e) :
    Reads (readerAt inChoice levels strength) (Stops strength) words e.tags e := by
  have hle : ∀ o, Stops strength o → Stops stronger o := fun o => Stops.mono (by omega)
  cases strength with
  | primary => cases stronger <;> cases hrank
  | ordering =>
    obtain rfl : stronger = .primary := Strength.rank_injective hrank.symm
    rw [readerAt]
    refine compared_reads_operand h hle fun op hop => ?_
    have hop := hop _ rfl
    cases op <;> simp_all [readsOn, Strength.ofCompare, Strength.rank, CompareOp.isEquality]
  | equality =>
    obtain rfl : stronger = .ordering := Strength.rank_injective hrank.symm
    rw [readerAt]
    refine compared_reads_operand h hle fun op hop => ?_
    have hop := hop _ rfl
    cases op <;> simp_all [readsOn, Strength.ofCompare, Strength.rank, CompareOp.isEquality]
  | within =>
    obtain rfl : stronger = .equality := Strength.rank_injective hrank.symm
    rw [readerAt]
    exact member_reads_operand h
  | tagged =>
    obtain rfl : stronger = .within := Strength.rank_injective hrank.symm
    rw [readerAt]
    exact alternative_reads_operand h
  | logical =>
    obtain rfl : stronger = .tagged := Strength.rank_injective hrank.symm
    rw [readerAt]
    exact (ReadsJoined.of_reads h).reads

/-- Words that derive an expression are read as this expression at the place. -/
theorem reads_of_derives {strength : Strength} (h : Derives inChoice levels strength words e) :
    Reads (readerAt inChoice levels strength) (Stops strength) words e.tags e ∧
      (strength = .logical → ReadsJoined (readerAt inChoice levels .tagged) words e) := by
  induction h with
  | name hname =>
    refine ⟨?_, by simp⟩
    rw [readerAt]
    exact .next (.place fun start => .skipSeq _ (named_reads start hname))
  | features first others hname =>
    refine ⟨?_, by simp⟩
    rw [readerAt]
    exact .next (.place fun start => .skipSeq _
      ((named_reads_features start hname first others).mono fun _ _ => trivial))
  | probe first others hname =>
    refine ⟨?_, by simp⟩
    rw [readerAt]
    exact .next (.place fun start => .skipSeq _
      ((named_reads_probe start hname first others).mono fun _ _ => trivial))
  | braces name =>
    refine ⟨?_, by simp⟩
    have htags : (Grammar.braced name).tags = [] := by unfold Grammar.braced; split <;> rfl
    rw [readerAt, htags]
    exact .next (.skipSeq _ ((braced_reads name).mono fun _ _ => trivial))
  | text value =>
    refine ⟨?_, by simp⟩
    rw [readerAt]
    exact .next (.skipSeq _ (.pure _))
  | version value =>
    refine ⟨?_, by simp⟩
    rw [readerAt]
    exact .next (.skipSeq _ (.pure _))
  | yes =>
    refine ⟨?_, by simp⟩
    rw [readerAt]
    exact .next (.skipSeq _ (.pure _))
  | no =>
    refine ⟨?_, by simp⟩
    rw [readerAt]
    exact .next (.skipSeq _ (.pure _))
  | @parens levels words e _ ih =>
    refine ⟨?_, by simp⟩
    have hclose := (expect_reads (.mark .closeParen) .closeParen).map fun _ => e
    have hinner := ih.1
    rw [← expr_eq_readerAt] at hinner
    rw [readerAt, ← List.append_nil e.tags]
    refine .next (.skipSeq _ (hinner.bind (hclose.mono fun _ _ => trivial) fun _ _ => ?_))
    exact stops_some (by simp [readsOn])
  | @lift levels strength stronger words e hrank _ ih =>
    refine ⟨reads_lift hrank ih.1, ?_⟩
    rintro rfl
    obtain rfl : stronger = .tagged := Strength.rank_injective hrank.symm
    exact .of_reads ih.1
  | @compare levels left right lhs rhs op _ _ ihl ihr =>
    refine ⟨?_, by unfold Strength.ofCompare; split <;> simp⟩
    rw [Expr.tags_comparison]
    cases hop : op.isEquality with
    | true =>
      simp only [Strength.ofCompare, operandStrength, hop, if_true] at ihl ihr ⊢
      rw [readerAt]
      refine compared_reads ihl.1 ihr.1 hop (stops_some ?_) fun o => Stops.mono ?_
      · simp [readsOn, Strength.ofCompare, hop, Strength.rank]
      · simp [Strength.rank]
    | false =>
      simp only [Strength.ofCompare, operandStrength, hop, Bool.false_eq_true, if_false]
        at ihl ihr ⊢
      rw [readerAt]
      refine compared_reads ihl.1 ihr.1 (by simp [hop]) (stops_some ?_) fun o => Stops.mono ?_
      · simp [readsOn, Strength.ofCompare, hop, Strength.rank]
      · simp [Strength.rank]
  | within _ hne hfull ih =>
    refine ⟨?_, by simp⟩
    rw [readerAt]
    exact member_reads ih.1 hne hfull
  | tagged tag hchoice _ ih =>
    refine ⟨?_, by simp⟩
    rw [readerAt]
    subst hchoice
    exact alternative_reads tag ih.1
  | logical op _ _ ihl ihr =>
    have hjoined := (ihl.2 rfl).logical op ihr.1
    refine ⟨?_, fun _ => hjoined⟩
    rw [readerAt]
    exact hjoined.reads

/-- A whole expression is read as derived. -/
theorem expr_reads (h : Derives inChoice levels .logical words e) :
    Reads (expr inChoice levels) (Stops .logical) words e.tags e := by
  rw [expr_eq_readerAt]
  exact (reads_of_derives h).1

/-! ### Programs -/

/-- A definition is read behind its keyword, up to the semicolon. -/
lemma definition_reads {kind : DefinitionKind} (name : String) (line : Nat)
    (h : Derives (kind == .choice) maxNesting .logical words e) :
    Reads (definition kind line) anyWord
      (.name name :: .mark .assign :: (words ++ [.mark .semicolon])) e.tags
      ⟨kind, name, e, line⟩ := by
  have hclose : Reads (do expect (.mark .semicolon) .semicolon; return ⟨kind, name, e, line⟩)
      anyWord [.mark .semicolon] [] (⟨kind, name, e, line⟩ : Definition) :=
    (expect_reads (.mark .semicolon) .semicolon).map fun _ => (⟨kind, name, e, line⟩ : Definition)
  have hstop : Stops .logical (some (.mark .semicolon)) := stops_some rfl
  have hbody : Reads (do
      let body ← expr (kind == .choice) maxNesting
      expect (.mark .semicolon) .semicolon
      return { kind, name, body, line }) anyWord (words ++ [.mark .semicolon]) e.tags
      (⟨kind, name, e, line⟩ : Definition) := by
    rw [← List.append_nil e.tags]
    exact (expr_reads h).bind hclose fun _ _ => hstop
  exact (expectName_reads .definitionName name).seq
    ((expect_reads (.mark .assign) .assign).seq hbody)

/-- The definitions of a program are read up to the first word that announces none. -/
lemma definitionsFrom_reads {taken : List Token} {definitions : List Definition}
    (h : DerivesDefinitions taken definitions) {n : Nat} (hn : taken.length < n) (feed : Feed)
    {rest : List Token} (htokens : feed.tokens = taken ++ rest)
    (hrest : announced? (rest.head?.map Token.lexeme) = none)
    (hnodup : ((definitions.flatMap fun d => d.body.tags) ++ feed.used).Nodup) :
    ∃ feed', (definitionsFrom n).run feed = .ok (definitions, feed') ∧ feed'.tokens = rest ∧
      (feed.used.Nodup → feed'.used.Nodup) := by
  induction h generalizing n feed with
  | nil =>
    obtain ⟨n, rfl⟩ := Nat.exists_eq_add_of_lt hn
    refine ⟨feed, ?_, htokens, id⟩
    have hnext : feed.next? = rest.head?.map Token.lexeme := by rw [Feed.next?, htokens]; rfl
    rw [definitionsFrom, run_next?_bind, hnext, hrest]
    rfl
  | @cons kind keyword taken others name words body definitions hkind hwords hbody _ ih =>
    obtain ⟨n, rfl⟩ : ∃ m, n = m + 1 := ⟨n - 1, by omega⟩
    have hnext : feed.next? = some keyword.lexeme := by rw [Feed.next?, htokens]; rfl
    have hplace : feed.place = keyword.start := by rw [Feed.place, htokens]; rfl
    have hfeed : feed.rest.tokens = taken ++ (others ++ rest) := by
      rw [Feed.rest, htokens]
      simp
    have hused : feed.rest.used = feed.used := rfl
    rw [List.flatMap_cons] at hnodup
    have hnodup₁ : (body.tags ++ feed.rest.used).Nodup := by
      rw [hused]
      exact hnodup.sublist ((List.sublist_append_left _ _).append_right feed.used)
    obtain ⟨mid, hrun, hmid, hconsumes⟩ := definition_reads name keyword.start.line hbody feed.rest
      taken (others ++ rest) hfeed hwords trivial hnodup₁
    have hnodup₂ : ((definitions.flatMap fun d => d.body.tags) ++ mid.used).Nodup := by
      refine ((hconsumes.used.append_left _).nodup_iff).mpr ?_
      rw [← List.append_assoc, hused]
      exact ((List.perm_append_comm.append_right feed.used).nodup_iff).mpr hnodup
    have hlength : others.length < n := by
      rw [List.length_cons, List.length_append] at hn
      omega
    obtain ⟨feed', hrun', hfeed', hnew⟩ := ih hlength mid hmid hnodup₂
    refine ⟨feed', ?_, hfeed', fun hn => hnew (hconsumes.nodup hn)⟩
    rw [definitionsFrom, run_next?_bind, hnext, hkind]
    simp only
    rw [run_place_bind, run_skip_bind, hplace, run_bind_of_ok hrun, run_bind_of_ok hrun']
    rfl

/-- An expression starts with no word that announces a definition. -/
theorem announced?_of_startsExpr {l : Lexeme} (h : l.startsExpr = true) :
    announced? (some l) = none := by
  cases l with
  | keyword k => cases k <;> simp_all [Lexeme.startsExpr, announced?]
  | _ => rfl

/-- What stands behind the definitions announces no further one. -/
lemma announced?_of_derivesMaster {master : Option Expr} (h : DerivesMaster words master) :
    announced? words.head? = none := by
  cases h with
  | none => rfl
  | plain h =>
    obtain ⟨l, rest, rfl, hl⟩ := h.startsExpr
    exact announced?_of_startsExpr hl
  | closed h =>
    obtain ⟨l, rest, rfl, hl⟩ := h.startsExpr
    exact announced?_of_startsExpr hl

/-- The expression behind the definitions is read to the end, or there is none. -/
lemma masterExpr_reads {master : Option Expr} (h : DerivesMaster words master) (feed : Feed)
    (hwords : feed.tokens.map Token.lexeme = words) (hnodup : feed.used.Nodup) :
    ∃ feed', masterExpr.run feed = .ok (master, feed') := by
  cases h with
  | none =>
    have htokens : feed.tokens = [] := List.map_eq_nil_iff.mp hwords
    refine ⟨feed, ?_⟩
    rw [masterExpr, run_next?_bind, Feed.next?, htokens]
    rfl
  | @plain _ e h =>
    obtain ⟨l, rest, hl, -⟩ := h.startsExpr
    have hnext : feed.next? = some l := by rw [Feed.next?, ← List.head?_map, hwords, hl]; rfl
    obtain ⟨feed', hrun, hend, -⟩ := expr_reads h feed feed.tokens [] (List.append_nil _).symm
      hwords (by rintro l ⟨⟩) (by rwa [h.tags_eq_nil rfl])
    refine ⟨feed', ?_⟩
    have hnext' : feed'.next? = none := by rw [Feed.next?, hend]; rfl
    rw [masterExpr, run_next?_bind, hnext, if_neg (by simp), run_bind_of_ok hrun, run_next?_bind,
      hnext', if_neg (by simp), run_next?_bind, hnext']
    rfl
  | @closed words e h =>
    obtain ⟨before, behind, htokens, hbefore, hbehind⟩ := List.map_eq_append_iff.mp hwords
    obtain ⟨l, rest, hl, -⟩ := h.startsExpr
    have hnext : feed.next? = some l := by rw [Feed.next?, ← List.head?_map, hwords, hl]; rfl
    obtain ⟨t, tail, rfl, ht, hnil⟩ := List.map_eq_cons_iff.mp hbehind
    obtain rfl := List.map_eq_nil_iff.mp hnil
    obtain ⟨feed', hrun, hend, -⟩ := expr_reads h feed before [t] htokens hbefore
      (by simp only [List.head?_cons, Option.map_some, ht]; exact stops_some (by simp [readsOn]))
      (by rwa [h.tags_eq_nil rfl])
    have hnext' : feed'.next? = some (.mark .semicolon) := by rw [Feed.next?, hend, ← ht]; rfl
    have hnext'' : feed'.rest.next? = none := by rw [Feed.next?, Feed.rest, hend]; rfl
    refine ⟨feed'.rest, ?_⟩
    rw [masterExpr, run_next?_bind, hnext, if_neg (by simp), run_bind_of_ok hrun, run_next?_bind,
      hnext', if_pos rfl, run_skip_bind, run_next?_bind, hnext'']
    rfl

/-- Tokens that derive a script are read as this script. -/
theorem toScript_complete {stream : TokenStream} {s : Script}
    (h : DerivesScript stream.tokens s) : stream.toScript = .ok s := by
  obtain ⟨front, back, htokens, hdefinitions, hmaster, hnodup⟩ := h
  have hback : announced? (back.head?.map Token.lexeme) = none := by
    rw [← List.head?_map]
    exact announced?_of_derivesMaster hmaster
  have hlength : front.length < stream.tokens.length + 1 := by
    rw [htokens, List.length_append]
    omega
  obtain ⟨mid, hrun, hmid, hnew⟩ := definitionsFrom_reads hdefinitions hlength
    ⟨stream.tokens, stream.finish, []⟩ htokens hback (by simpa [Feed.used] using hnodup)
  obtain ⟨last, hrun'⟩ := masterExpr_reads hmaster mid (by rw [hmid]) (hnew List.nodup_nil)
  have hloop : (forTokens definitionsFrom).run ⟨stream.tokens, stream.finish, []⟩ =
      .ok (s.definitions, mid) := hrun
  have hscript : script.run ⟨stream.tokens, stream.finish, []⟩ = .ok (s, last) := by
    rw [script, run_bind_of_ok hloop, run_bind_of_ok hrun']
    rfl
  have happly : script ⟨stream.tokens, stream.finish, []⟩ = .ok (s, last) := hscript
  rw [TokenStream.toScript, StateT.run', happly]
  rfl

end Parser

/-- A text that is cut into tokens that derive a script is read as this script. -/
theorem Script.parse_of_derives {source : String} {stream : TokenStream} {s : Script}
    (htokenize : tokenize source = .ok stream) (h : Grammar.DerivesScript stream.tokens s) :
    parse source = .ok s := by
  rw [parse, htokenize]
  simp only [Parser.toScript_complete h]

end Requirements
