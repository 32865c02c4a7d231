import Mathlib.Data.List.Forall2
import Mathlib.Tactic.Lemma
import Requirements.Document.Checked

/-!
# What a check accepts

A check of a document is described by the documents that it accepts and the values that it makes of
them. The entries of a mapping are looked up by their keys, so they are taken to be those of a
dictionary, in which no text is a key twice.
-/

namespace Requirements

/-! ### Results -/

namespace Checked

variable {α β γ : Type}

/-- A mapped check succeeds with the image of what the check read. -/
lemma map_eq_ok_iff {c : Checked α} {f : α → β} {b : β} :
    c.map f = .ok b ↔ ∃ a, c = .ok a ∧ f a = b := by
  cases c <;> simp [Except.map]

/-- Naming the key in the error of a check changes nothing when it succeeds. -/
lemma under_eq_ok_iff {key : String} {c : Checked α} {a : α} :
    under key c = .ok a ↔ c = .ok a := by
  cases c <;> simp [under]

/-- Two checks at once succeed when each of them does. -/
lemma both_eq_ok_iff {c : Checked α} {d : Checked β} {a : α} {b : β} :
    both c d = .ok (a, b) ↔ c = .ok a ∧ d = .ok b := by
  cases c <;> cases d <;> simp [both]

/-- A list of checks succeeds if every check does. -/
theorem all_map_eq_ok_iff {f : α → Checked β} {R : α → β → Prop} {l : List α} {bs : List β}
    (h : ∀ a ∈ l, ∀ b, f a = .ok b ↔ R a b) :
    all (l.map f) = .ok bs ↔ List.Forall₂ R l bs := by
  induction l generalizing bs with
  | nil => cases bs <;> simp [all]
  | cons a l ih =>
    have hl : ∀ a ∈ l, ∀ b, f a = .ok b ↔ R a b := fun a ha => h a (List.mem_cons_of_mem _ ha)
    rw [List.map_cons, all, map_eq_ok_iff, List.forall₂_cons_left_iff]
    constructor
    · rintro ⟨⟨b, bs⟩, hboth, rfl⟩
      obtain ⟨hb, hbs⟩ := both_eq_ok_iff.mp hboth
      exact ⟨b, bs, (h a List.mem_cons_self b).mp hb, (ih hl).mp hbs, rfl⟩
    · rintro ⟨b, bs, hb, hbs, rfl⟩
      exact ⟨(b, bs), both_eq_ok_iff.mpr ⟨(h a List.mem_cons_self b).mpr hb, (ih hl).mpr hbs⟩, rfl⟩

end Checked

namespace Document

/-! ### Dictionaries -/

/-- No text is a key of two entries. -/
def DistinctKeys (entries : List (Scalar × Document)) : Prop :=
  entries.Pairwise fun e e' => ∀ key, e.1 = .text key → e'.1 ≠ .text key

/-- Every mapping in the document is a dictionary. -/
inductive WellKeyed : Document → Prop
  | scalar (value : Scalar) : WellKeyed (.scalar value)
  | list {items : List Document} : (∀ d ∈ items, WellKeyed d) → WellKeyed (.list items)
  | mapping {entries : List (Scalar × Document)} :
    DistinctKeys entries → (∀ e ∈ entries, WellKeyed e.2) → WellKeyed (.mapping entries)

/-- A well-keyed mapping has every key once. -/
lemma WellKeyed.distinctKeys {entries : List (Scalar × Document)}
    (h : (Document.mapping entries).WellKeyed) : DistinctKeys entries := by
  cases h with
  | mapping hkeys _ => exact hkeys

/-- The values of a well-keyed mapping are well-keyed. -/
lemma WellKeyed.of_mem {entries : List (Scalar × Document)}
    (h : (Document.mapping entries).WellKeyed) {e : Scalar × Document} (he : e ∈ entries) :
    e.2.WellKeyed := by
  cases h with
  | mapping _ hvalues => exact hvalues e he

end Document

lemma Scalar.beq_text_iff {s : Scalar} {key : String} :
    (s == .text key) = true ↔ s = .text key := by
  cases s with
  | text t => simp [BEq.beq, instBEqScalar.beq]
  | _ => simp [BEq.beq, instBEqScalar.beq]

namespace Document

variable {entries : List (Scalar × Document)} {key : String}

/-- The value under a key is the value of the entry with the key. -/
theorem get?_eq_some_iff (h : DistinctKeys entries) {d : Document} :
    get? entries key = some d ↔ (.text key, d) ∈ entries := by
  rw [get?, Option.map_eq_some_iff]
  constructor
  · rintro ⟨⟨s, d⟩, hfind, rfl⟩
    have hs : s = .text key := Scalar.beq_text_iff.mp (by simpa using List.find?_some hfind)
    rw [← hs]
    exact List.mem_of_find?_eq_some hfind
  · intro hmem
    obtain ⟨before, after, rfl⟩ := List.append_of_mem hmem
    refine ⟨(.text key, d), ?_, rfl⟩
    rw [List.find?_append, List.find?_eq_none.mpr, Option.none_or, List.find?_cons_of_pos]
    · exact Scalar.beq_text_iff.mpr rfl
    · intro e he hkey
      exact (List.pairwise_append.mp h).2.2 e he _ List.mem_cons_self key
        (Scalar.beq_text_iff.mp hkey) rfl

/-- A key is not found exactly when no entry has it. -/
lemma get?_eq_none_iff (h : DistinctKeys entries) :
    get? entries key = none ↔ ∀ d, (.text key, d) ∉ entries := by
  rw [Option.eq_none_iff_forall_ne_some]
  exact forall_congr' fun d => not_congr (get?_eq_some_iff h)

/-- The entry of the key gives the value `a`, or there is none and `a` is the default. -/
def Gives {α : Type} (entries : List (Scalar × Document)) (key : String)
    (P : Document → α → Prop) (default a : α) : Prop :=
  (∃ d, (.text key, d) ∈ entries ∧ P d a) ∨ (∀ d, (.text key, d) ∉ entries) ∧ a = default

/-- What is given is what the entry of the key gives. -/
theorem Gives.of_mem {α : Type} {P : Document → α → Prop} {default a : α}
    (hkeys : DistinctKeys entries) (h : Gives entries key P default a) {d : Document}
    (hd : (.text key, d) ∈ entries) : P d a := by
  rcases h with ⟨d', hd', hP⟩ | ⟨hnone, -⟩
  · have hget := (get?_eq_some_iff hkeys).mpr hd'
    rw [(get?_eq_some_iff hkeys).mpr hd, Option.some.injEq] at hget
    rwa [hget]
  · exact absurd hd (hnone d)

/-- A field is checked by the check of its value. -/
theorem field_eq_ok_iff {α : Type} (h : DistinctKeys entries) {check : Document → Checked α}
    {P : Document → α → Prop} {default a : α}
    (hcheck : ∀ d, (.text key, d) ∈ entries → (check d = .ok a ↔ P d a)) :
    field entries key default check = .ok a ↔ Gives entries key P default a := by
  unfold field
  cases hget : get? entries key with
  | none =>
    have hnone := (get?_eq_none_iff h).mp hget
    simp only [Except.ok.injEq]
    constructor
    · rintro rfl
      exact .inr ⟨hnone, rfl⟩
    · rintro (⟨d, hd, -⟩ | ⟨-, ha⟩)
      · exact absurd hd (hnone d)
      · exact ha.symm
  | some d =>
    have hd := (get?_eq_some_iff h).mp hget
    simp only
    rw [Checked.under_eq_ok_iff, hcheck d hd]
    constructor
    · exact fun ha => .inl ⟨d, hd, ha⟩
    · rintro (⟨d', hd', ha⟩ | ⟨hnone, -⟩)
      · rw [(get?_eq_some_iff h).mpr hd', Option.some.injEq] at hget
        rwa [← hget]
      · exact absurd hd (hnone d)

/-- Only known keys are accepted, and all of them must be texts. -/
lemma onlyKeys_eq_ok_iff {known : List String} {u : Unit} :
    onlyKeys entries known = .ok u ↔ ∀ e ∈ entries, ∃ key ∈ known, e.1 = .text key := by
  have hfilter : (entries.filter fun e => !known.any fun key => e.1 == .text key) = [] ↔
      ∀ e ∈ entries, ∃ key ∈ known, e.1 = .text key := by
    rw [List.filter_eq_nil_iff]
    refine forall₂_congr fun e _ => ?_
    rw [Bool.not_eq_true', Bool.not_eq_false, List.any_eq_true]
    exact exists_congr fun key => and_congr_right fun _ => Scalar.beq_text_iff
  rw [← hfilter]
  unfold onlyKeys
  split
  · rename_i hnil
    simp [hnil]
  · rename_i unknown hne
    simp only [reduceCtorEq, false_iff]
    exact hne

/-! ### Replacing the value of an entry -/

/-- The first entry under a key is found: before the entry at hand, at it, or behind it. -/
lemma get?_append_cons (front back : List (Scalar × Document)) (k : Scalar) (d : Document)
    (key : String) :
    get? (front ++ (k, d) :: back) key =
      (get? front key).or (if k == .text key then some d else get? back key) := by
  rw [get?, List.find?_append, Option.map_or, List.find?_cons]
  cases k == .text key with
  | true => rfl
  | false => rfl

/-- A field does not change if its value is replaced by one with the same check. -/
theorem field_replace {α : Type} (front back : List (Scalar × Document)) {k : Scalar} {key : String}
    {d d' : Document} {default : α} {check : Document → Checked α}
    (h : k = .text key → check d = check d') :
    field (front ++ (k, d) :: back) key default check =
      field (front ++ (k, d') :: back) key default check := by
  unfold field
  rw [get?_append_cons, get?_append_cons]
  by_cases hk : k == .text key
  · rw [if_pos hk, if_pos hk]
    cases get? front key with
    | none => simp only [Option.none_or, h (Scalar.beq_text_iff.mp hk)]
    | some e => rfl
  · rw [if_neg hk, if_neg hk]

/-- Which keys there are does not depend on the values. -/
theorem onlyKeys_replace (front back : List (Scalar × Document)) (k : Scalar) (d d' : Document)
    (known : List String) :
    onlyKeys (front ++ (k, d) :: back) known = onlyKeys (front ++ (k, d') :: back) known := by
  let isUnknown (k : Scalar) : Bool := !known.any fun key => k == .text key
  -- Only the keys of the entries are looked at.
  have hkeys (entries : List (Scalar × Document)) : onlyKeys entries known =
      if (entries.map Prod.fst).filter isUnknown = [] then .ok ()
      else .error (((entries.map Prod.fst).filter isUnknown).map fun k => [keyText k]) := by
    rw [List.filter_map]
    unfold onlyKeys
    have hfilter : (entries.filter fun e => !known.any fun key => e.1 == .text key) =
        entries.filter (isUnknown ∘ Prod.fst) := rfl
    rw [hfilter]
    cases entries.filter (isUnknown ∘ Prod.fst) with
    | nil => rfl
    | cons e unknown => simp
  have hsame :
      (front ++ (k, d) :: back).map Prod.fst = (front ++ (k, d') :: back).map Prod.fst := by
    simp
  rw [hkeys, hkeys, hsame]

/-! ### Values -/

/-- The document that lists the texts. -/
def ofTexts (texts : List String) : Document :=
  list (texts.map fun s => scalar (.text s))

/-- The documents that stand for a truth value: itself, zero or one, or a word for it. -/
inductive IsTruth : Document → Bool → Prop
  | bool (b : Bool) : IsTruth (scalar (.bool b)) b
  | zero : IsTruth (scalar (.int 0)) false
  | one : IsTruth (scalar (.int 1)) true
  | zeroFloat {x : Float} : (x == 0.0) = true → IsTruth (scalar (.float x)) false
  | oneFloat {x : Float} : (x == 0.0) = false → (x == 1.0) = true → IsTruth (scalar (.float x)) true
  | word {s : String} {b : Bool} : truthWords.lookup (s.map Char.toLower) = some b →
    IsTruth (scalar (.text s)) b

/-- The documents that count as empty. -/
inductive IsEmpty : Document → Prop
  | null : IsEmpty (scalar .null)
  | no : IsEmpty (scalar (.bool false))
  | zero : IsEmpty (scalar (.int 0))
  | zeroFloat {x : Float} : (x == 0.0) = true → IsEmpty (scalar (.float x))
  | text : IsEmpty (scalar (.text ""))
  | list : IsEmpty (list [])
  | mapping : IsEmpty (mapping [])

variable {d : Document}

/-- The check for a blank document decides `IsEmpty`. -/
lemma isBlank_iff : d.isBlank = true ↔ d.IsEmpty := by
  constructor
  · intro h
    cases d with
    | scalar value =>
      cases value with
      | null => exact .null
      | bool b =>
        obtain rfl : b = false := by simpa [isBlank] using h
        exact .no
      | int n =>
        obtain rfl : n = 0 := by simpa [isBlank] using h
        exact .zero
      | float x => exact .zeroFloat h
      | date => cases h
      | text s =>
        obtain rfl : s = "" := by simpa [isBlank] using h
        exact .text
    | list items =>
      obtain rfl : items = [] := by simpa [isBlank] using h
      exact .list
    | mapping entries =>
      obtain rfl : entries = [] := by simpa [isBlank] using h
      exact .mapping
  · intro h
    cases h with
    | zeroFloat hx => exact hx
    | _ => rfl

/-- Texts are read without conversion. -/
lemma asText_eq_ok_iff {s : String} : d.asText = .ok s ↔ d = scalar (.text s) := by
  unfold asText
  split
  · simp
  · rename_i hne
    simp only [Checked.invalid, reduceCtorEq, false_iff]
    rintro rfl
    exact hne s rfl

/-- The loose reading of a truth value succeeds on the spellings that `IsTruth` lists. -/
lemma asBool_eq_ok_iff {b : Bool} : d.asBool = .ok b ↔ d.IsTruth b := by
  constructor
  · intro h
    unfold asBool at h
    split at h
    · cases h
      exact .bool _
    · split_ifs at h with hzero hone
      · cases h
        exact hzero ▸ .zero
      · cases h
        exact hone ▸ .one
      · cases h
    · split_ifs at h with hzero hone
      · cases h
        exact .zeroFloat hzero
      · cases h
        exact .oneFloat (by simpa using hzero) hone
      · cases h
    · split at h
      · rename_i hword
        cases h
        exact .word hword
      · cases h
    · cases h
  · intro h
    cases h with
    | bool | zero | one => rfl
    | zeroFloat hx => simp [asBool, hx]
    | oneFloat hx hx' => simp [asBool, hx, hx']
    | word hword => simp [asBool, hword]

/-- A list of texts is a sequence whose elements are all texts. -/
lemma asTexts_eq_ok_iff {texts : List String} : d.asTexts = .ok texts ↔ d = ofTexts texts := by
  unfold asTexts
  split
  · rename_i items
    have hitem (e : Document × Nat) (s : String) :
        Checked.under (toString e.2) e.1.asText = .ok s ↔ e.1 = scalar (.text s) := by
      rw [Checked.under_eq_ok_iff, asText_eq_ok_iff]
    rw [Checked.all_map_eq_ok_iff fun e _ s => hitem e s, ofTexts, list.injEq]
    have hitems (n : Nat) :
        List.Forall₂ (fun (e : Document × Nat) s => e.1 = scalar (.text s)) (items.zipIdx n) texts ↔
          items = texts.map fun s => scalar (.text s) := by
      induction items generalizing n texts with
      | nil => simp [eq_comm (a := [])]
      | cons item items ih =>
        rw [List.zipIdx_cons, List.forall₂_cons_left_iff]
        constructor
        · rintro ⟨s, rest, rfl, hrest, rfl⟩
          rw [List.map_cons, ← (ih (n + 1)).mp hrest]
        · intro h
          obtain ⟨s, rest, rfl, hs, hrest⟩ := List.map_eq_cons_iff.mp h.symm
          exact ⟨s, rest, hs.symm, (ih (n + 1)).mpr hrest.symm, rfl⟩
    exact hitems 0
  · rename_i hne
    simp only [Checked.invalid, reduceCtorEq, false_iff]
    rintro rfl
    exact hne _ rfl

end Document

end Requirements
