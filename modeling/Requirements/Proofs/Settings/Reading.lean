import Mathlib.Tactic.Lemma
import Requirements.Proofs.Document.Checked
import Requirements.Settings.Reader

/-!
# What a document of settings says

A mapping may hold the settings itself, or hold a mapping of them under `evaluator`. At the level
that counts every entry must be a setting with a value that can be read, and the settings have these
values. A mapping under `evaluator` is the level that counts, whatever else the document holds, so
that an entry beside it is passed over, be it misspelt, invalid or contrary.
-/

namespace Requirements

namespace Settings

open Document (Gives DistinctKeys)

/-! ### Values -/

/-- The document writes a time limit: none, or a number of seconds that is not zero or less. A truth
value that holds counts as one second. -/
inductive WritesTimeout : Document → Option Float → Prop
  | null : WritesTimeout (.scalar .null) none
  | yes : WritesTimeout (.scalar (.bool true)) (some 1.0)
  | int {n : Int} : (Float.ofInt n).isInf = false → ¬Float.ofInt n ≤ 0.0 →
    WritesTimeout (.scalar (.int n)) (some (Float.ofInt n))
  | float {x : Float} : ¬x ≤ 0.0 → WritesTimeout (.scalar (.float x)) (some x)
  | text {s : String} {x : Float} : looseNumber? s = some x → ¬x ≤ 0.0 →
    WritesTimeout (.scalar (.text s)) (some x)

/-- A value that is a number of seconds is checked by its sign. -/
theorem asTimeout_eq_ok_iff_of_secondsOf? (value : Scalar) (hvalue : value ≠ .null)
    {timeout : Option Float} : asTimeout (.scalar value) = .ok timeout ↔
      ∃ x, secondsOf? value = some x ∧ ¬x ≤ 0.0 ∧ timeout = some x := by
  unfold asTimeout
  split
  · rename_i hnull
    exact absurd (Document.scalar.inj hnull) hvalue
  · rename_i heq
    obtain rfl := Document.scalar.inj heq
    split
    · rename_i x hx
      by_cases hpositive : x ≤ 0.0 <;> simp [Checked.invalid, hx, hpositive, eq_comm]
    · rename_i hnone
      simp [Checked.invalid, hnone]
  · rename_i hother
    exact absurd rfl (hother value)

/-- A timeout is read from what writes one. -/
lemma asTimeout_eq_ok_iff {d : Document} {timeout : Option Float} :
    asTimeout d = .ok timeout ↔ WritesTimeout d timeout := by
  constructor
  · intro h
    cases d with
    | list | mapping => cases h
    | scalar value =>
      by_cases hnull : value = .null
      · subst hnull
        cases h
        exact .null
      · obtain ⟨x, hx, hpositive, rfl⟩ := (asTimeout_eq_ok_iff_of_secondsOf? value hnull).mp h
        cases value with
        | null => exact absurd rfl hnull
        | bool b =>
          cases b with
          | true =>
            cases hx
            exact .yes
          | false =>
            cases hx
            exact absurd (by decide) hpositive
        | int n =>
          simp only [secondsOf?] at hx
          split at hx
          · cases hx
          · rename_i hfinite
            cases hx
            exact .int (by simpa using hfinite) hpositive
        | float x =>
          cases hx
          exact .float hpositive
        | date => cases hx
        | text s => exact .text hx hpositive
  · intro h
    cases h with
    | null => rfl
    | yes =>
      exact (asTimeout_eq_ok_iff_of_secondsOf? (.bool true) nofun).mpr ⟨1.0, rfl, by decide, rfl⟩
    | @int n hfinite hpositive =>
      exact (asTimeout_eq_ok_iff_of_secondsOf? (.int n) nofun).mpr
        ⟨_, by simp [secondsOf?, hfinite], hpositive, rfl⟩
    | @float x hpositive =>
      exact (asTimeout_eq_ok_iff_of_secondsOf? (.float x) nofun).mpr ⟨x, rfl, hpositive, rfl⟩
    | @text s x hread hpositive =>
      exact (asTimeout_eq_ok_iff_of_secondsOf? (.text s) nofun).mpr ⟨x, hread, hpositive, rfl⟩

/-! ### Entries -/

/-- All entries are settings, and `c` has the values that they write, and the defaults where nothing
is written. -/
structure IsSetBy (c : Settings) (entries : List (Scalar × Document)) : Prop where
  keys : ∀ e ∈ entries, ∃ key ∈ [memoizeKey, timeoutKey], e.1 = .text key
  memoize : Gives entries memoizeKey Document.IsTruth true c.memoize
  timeout : Gives entries timeoutKey WritesTimeout none c.timeout

/-- The entry is a setting, and `c` has the value that it writes. -/
def IsHeeded (c : Settings) (e : Scalar × Document) : Prop :=
  e.1 = .text memoizeKey ∧ e.2.IsTruth c.memoize ∨
    e.1 = .text timeoutKey ∧ WritesTimeout e.2 c.timeout

variable {entries : List (Scalar × Document)} {c : Settings}

/-- The settings are read from a mapping that sets them, key by key. -/
lemma ofEntries_eq_ok_iff (h : DistinctKeys entries) :
    ofEntries entries = .ok c ↔ c.IsSetBy entries := by
  have hmemoize (b : Bool) : Document.field entries memoizeKey true Document.asBool = .ok b ↔
      Gives entries memoizeKey Document.IsTruth true b :=
    Document.field_eq_ok_iff h fun _ _ => Document.asBool_eq_ok_iff
  have htimeout (x : Option Float) : Document.field entries timeoutKey none asTimeout = .ok x ↔
      Gives entries timeoutKey WritesTimeout none x :=
    Document.field_eq_ok_iff h fun _ _ => asTimeout_eq_ok_iff
  rw [ofEntries, Checked.map_eq_ok_iff]
  constructor
  · rintro ⟨⟨⟨memoize, timeout⟩, u⟩, hfields, rfl⟩
    obtain ⟨hfields, hkeys⟩ := Checked.both_eq_ok_iff.mp hfields
    obtain ⟨hm, ht⟩ := Checked.both_eq_ok_iff.mp hfields
    exact ⟨Document.onlyKeys_eq_ok_iff.mp hkeys, (hmemoize _).mp hm, (htimeout _).mp ht⟩
  · rintro ⟨hkeys, hm, ht⟩
    exact ⟨((c.memoize, c.timeout), ()), Checked.both_eq_ok_iff.mpr
      ⟨Checked.both_eq_ok_iff.mpr ⟨(hmemoize _).mpr hm, (htimeout _).mpr ht⟩,
        Document.onlyKeys_eq_ok_iff.mpr hkeys⟩, rfl⟩

/-- Where all entries are settings, all of them are heeded. -/
theorem IsSetBy.isHeeded (hkeys : DistinctKeys entries) (h : c.IsSetBy entries)
    {e : Scalar × Document} (he : e ∈ entries) : c.IsHeeded e := by
  obtain ⟨key, d⟩ := e
  obtain ⟨key, hkey, rfl⟩ := h.keys _ he
  rcases List.mem_pair.mp hkey with rfl | rfl
  · exact .inl ⟨rfl, h.memoize.of_mem hkeys he⟩
  · exact .inr ⟨rfl, h.timeout.of_mem hkeys he⟩

/-! ### Levels -/

/-- The levels at which settings may stand: the top, and a mapping under `evaluator`. -/
inductive Level (entries : List (Scalar × Document)) : List (Scalar × Document) → Prop
  | top : Level entries entries
  | wrapped {inner : List (Scalar × Document)} : (.text wrapper, .mapping inner) ∈ entries →
    Level entries inner

/-- No entry is passed over: at either level, each of them is the wrapper or a setting that is
heeded. -/
def HeedsAll (c : Settings) (entries : List (Scalar × Document)) : Prop :=
  ∀ level, Level entries level → ∀ e ∈ level, e.1 = .text wrapper ∨ c.IsHeeded e

/-- The mapping under the wrapper takes the place of the document. -/
lemma unwrap_of_mem (h : DistinctKeys entries) {inner : List (Scalar × Document)}
    (hinner : (.text wrapper, .mapping inner) ∈ entries) : unwrap entries = inner := by
  rw [unwrap, (Document.get?_eq_some_iff h).mpr hinner]

/-- Without a mapping under the wrapper the document stays. -/
lemma unwrap_of_forall_notMem (h : DistinctKeys entries)
    (hnone : ∀ inner, (.text wrapper, .mapping inner) ∉ entries) : unwrap entries = entries := by
  unfold unwrap
  split
  · rename_i inner hget
    exact absurd ((Document.get?_eq_some_iff h).mp hget) (hnone inner)
  · rfl

/-- Settings are read from what is left after unwrapping. -/
lemma ofDocument_mapping (entries : List (Scalar × Document)) :
    ofDocument (.mapping entries) = (ofEntries (unwrap entries)).mapError .invalid := by
  cases entries <;> rfl

/-- The mapping under `evaluator` is a dictionary, and so is the level that counts. -/
lemma distinctKeys_unwrap (h : (Document.mapping entries).WellKeyed) :
    DistinctKeys (unwrap entries) := by
  unfold unwrap
  split
  · rename_i inner hget
    exact (h.of_mem ((Document.get?_eq_some_iff h.distinctKeys).mp hget)).distinctKeys
  · exact h.distinctKeys

/-- A mapping gives the settings that the level that counts sets. -/
lemma ofDocument_mapping_eq_ok_iff (h : (Document.mapping entries).WellKeyed) :
    ofDocument (.mapping entries) = .ok c ↔ c.IsSetBy (unwrap entries) := by
  rw [← ofEntries_eq_ok_iff (distinctKeys_unwrap h), ofDocument_mapping]
  cases ofEntries (unwrap entries) <;> simp [Except.mapError]

/-- A document gives settings if it counts as empty, or if it is a mapping and the entries of the
level that counts give them. -/
lemma ofDocument_eq_ok_iff {d : Document} (h : d.WellKeyed) : ofDocument d = .ok c ↔
    d.IsEmpty ∧ c = {} ∨ ∃ entries, d = .mapping entries ∧ c.IsSetBy (unwrap entries) := by
  cases d with
  | mapping entries =>
    rw [ofDocument_mapping_eq_ok_iff h]
    constructor
    · exact fun hc => .inr ⟨entries, rfl, hc⟩
    · rintro (⟨hempty, rfl⟩ | ⟨_, ⟨⟩, hc⟩)
      · cases hempty
        exact ⟨by simp [unwrap, Document.get?], .inr ⟨by simp [unwrap, Document.get?], rfl⟩,
          .inr ⟨by simp [unwrap, Document.get?], rfl⟩⟩
      · exact hc
  | scalar | list =>
    rw [← Document.isBlank_iff]
    unfold ofDocument
    split <;> rename_i hblank <;> simp [hblank, eq_comm]

/-- A mapping is accepted or refused with the places of its faults. It is accepted exactly if all
entries of the level that counts, the mapping under `evaluator` or else the top, are settings that
can be read, and then the settings have the values that they write. So nothing is passed over as
long as there is no mapping under `evaluator`. Where there is one, what stands beside it is passed
over, unless it is a setting of the same value. -/
theorem heedsAll_iff (h : (Document.mapping entries).WellKeyed) :
    ((∃ c, ofDocument (.mapping entries) = .ok c) ∨
      ∃ paths, ofDocument (.mapping entries) = .error (.invalid paths)) ∧
    ((∀ inner, (.text wrapper, .mapping inner) ∉ entries) →
      ∀ c, ofDocument (.mapping entries) = .ok c ↔ c.IsSetBy entries) ∧
    (∀ inner, (.text wrapper, .mapping inner) ∈ entries →
      ∀ c, ofDocument (.mapping entries) = .ok c ↔ c.IsSetBy inner) ∧
    ∀ c, ofDocument (.mapping entries) = .ok c → (c.HeedsAll entries ↔
      ∀ inner, (.text wrapper, .mapping inner) ∈ entries →
        ∀ e ∈ entries, e.1 = .text wrapper ∨ c.IsHeeded e) := by
  have hflat (hnone : ∀ inner, (.text wrapper, .mapping inner) ∉ entries) (c : Settings) :
      ofDocument (.mapping entries) = .ok c ↔ c.IsSetBy entries := by
    rw [ofDocument_mapping_eq_ok_iff h, unwrap_of_forall_notMem h.distinctKeys hnone]
  have hwrapped (inner) (hinner : (.text wrapper, .mapping inner) ∈ entries) (c : Settings) :
      ofDocument (.mapping entries) = .ok c ↔ c.IsSetBy inner := by
    rw [ofDocument_mapping_eq_ok_iff h, unwrap_of_mem h.distinctKeys hinner]
  refine ⟨?_, hflat, hwrapped, fun c hc => ⟨fun hall inner _ => hall entries .top, ?_⟩⟩
  · rw [ofDocument_mapping]
    cases ofEntries (unwrap entries) with
    | ok c => exact .inl ⟨c, rfl⟩
    | error paths => exact .inr ⟨paths, rfl⟩
  · intro hbeside level hlevel e he
    cases hlevel with
    | wrapped hinner =>
      exact .inr (((hwrapped level hinner c).mp hc).isHeeded (h.of_mem hinner).distinctKeys he)
    | top =>
      by_cases hwrap : ∃ inner, (.text wrapper, .mapping inner) ∈ entries
      · obtain ⟨inner, hinner⟩ := hwrap
        exact hbeside inner hinner e he
      · exact .inr (((hflat (not_exists.mp hwrap) c).mp hc).isHeeded h.distinctKeys he)

/-- A setting beside the mapping under `evaluator` is heeded if it is a setting there, too, and has
the same value. -/
theorem heedsAll_of_agreeing_levels :
    let inner : List (Scalar × Document) := [(.text memoizeKey, .scalar (.text "off"))]
    let entries : List (Scalar × Document) :=
      [(.text memoizeKey, .scalar (.int 0)), (.text wrapper, .mapping inner)]
    let c : Settings := { memoize := false }
    (Document.mapping entries).WellKeyed ∧ ofDocument (.mapping entries) = .ok c ∧
      c.HeedsAll entries := by
  intro inner entries c
  have hinner : (Document.mapping inner).WellKeyed :=
    .mapping (by simp [DistinctKeys, inner]) (by simpa [inner] using .scalar _)
  have hkeys : DistinctKeys entries := by
    simp [DistinctKeys, entries, memoizeKey, wrapper]
  have hentries : (Document.mapping entries).WellKeyed :=
    .mapping hkeys (by simpa [entries] using ⟨.scalar _, hinner⟩)
  obtain ⟨-, -, haccepts, hheeds⟩ := heedsAll_iff hentries
  have hword : (Document.scalar (.text "off")).IsTruth false := .word (by decide +kernel)
  have hsets : c.IsSetBy inner :=
    ⟨by simp [inner], .inl ⟨_, by simp [inner], hword⟩,
      .inr ⟨by simp [inner, memoizeKey, timeoutKey], rfl⟩⟩
  have hc : ofDocument (.mapping entries) = .ok c :=
    (haccepts inner (by simp [entries]) c).mpr hsets
  refine ⟨hentries, hc, (hheeds c hc).mpr fun _ _ e he => ?_⟩
  rcases List.mem_pair.mp he with rfl | rfl
  · exact .inr (.inl ⟨rfl, .zero⟩)
  · exact .inl rfl

/-- Beside a mapping under `evaluator` a misspelt key is accepted, and a setting has no effect. -/
theorem exists_entries_passed_over :
    let misspelt : List (Scalar × Document) :=
      [(.text wrapper, .mapping []), (.text "memoise", .scalar (.bool true))]
    let contrary : List (Scalar × Document) :=
      [(.text wrapper, .mapping []), (.text memoizeKey, .scalar (.bool false))]
    ofDocument (.mapping misspelt) = .ok {} ∧ ¬HeedsAll {} misspelt ∧
      ofDocument (.mapping contrary) = .ok {} ∧ ¬HeedsAll {} contrary := by
  intro misspelt contrary
  refine ⟨rfl, fun hall => ?_, rfl, fun hall => ?_⟩
  · rcases hall misspelt .top (.text "memoise", .scalar (.bool true)) (by simp [misspelt])
      with h | ⟨h, -⟩ | ⟨h, -⟩
    all_goals exact absurd h (by simp [wrapper, memoizeKey, timeoutKey])
  · rcases hall contrary .top (.text memoizeKey, .scalar (.bool false)) (by simp [contrary])
      with h | ⟨-, h⟩ | ⟨h, -⟩
    · exact absurd h (by simp [wrapper, memoizeKey])
    · cases h
    · exact absurd h (by simp [memoizeKey, timeoutKey])

end Settings

end Requirements
