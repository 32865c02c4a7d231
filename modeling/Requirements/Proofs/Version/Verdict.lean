import Mathlib.Data.List.Find
import Mathlib.Tactic.Lemma
import Requirements.Proofs.Version.Preorder

/-!
# The verdict of a set of ranges

The verdict on a version is that of the last range that covers it. Which ranges cover a version
depends on how it compares with their bounds only. So the verdict is the same for equal versions,
and it changes from one version to a later one only if there is a bound between them.
-/

namespace Requirements

namespace Version

variable {v w : Version}

/-! ### Bounds -/

/-- One version is not before another exactly if the other is at most as great. -/
lemma not_before_iff : (!v.before w) = true ↔ (w.order v).isLE := by
  rw [← order_swap v w, before]
  cases v.order w <;> decide

namespace Range

/-- A range covers the versions from its lower to its upper bound, both included. -/
theorem covers_iff {r : Range} :
    r.covers v = true ↔
      (∀ low ∈ r.low, (low.order v).isLE) ∧ ∀ high ∈ r.high, (v.order high).isLE := by
  simp only [covers, Bool.and_eq_true, Option.all_eq_true, not_before_iff]
  rfl

/-- The bounds that a range has. -/
def bounds (r : Range) : List Version :=
  r.low.toList ++ r.high.toList

/-- A range that covers only one of two versions has a bound between them. -/
theorem covers_eq_of_no_bound {r : Range} (hvw : (v.order w).isLE)
    (hbounds : ∀ b ∈ r.bounds, ¬ ((v.order b).isLE ∧ (b.order w).isLE)) :
    r.covers v = r.covers w := by
  have hlow : ∀ low ∈ r.low, (low.order v).isLE ↔ (low.order w).isLE := by
    intro low hmem
    have hnot := hbounds low (by simp [bounds, Option.mem_def.mp hmem])
    refine ⟨fun h => Std.TransCmp.isLE_trans h hvw, fun h => ?_⟩
    exact (isLE_order_or low v).resolve_right fun hv => hnot ⟨hv, h⟩
  have hhigh : ∀ high ∈ r.high, (v.order high).isLE ↔ (w.order high).isLE := by
    intro high hmem
    have hnot := hbounds high (by simp [bounds, Option.mem_def.mp hmem])
    refine ⟨fun h => ?_, fun h => Std.TransCmp.isLE_trans hvw h⟩
    exact (isLE_order_or w high).resolve_right fun hw => hnot ⟨h, hw⟩
  rw [Bool.eq_iff_iff, covers_iff, covers_iff]
  exact and_congr (forall₂_congr hlow) (forall₂_congr hhigh)

/-- A range does not tell versions that are the same apart. -/
lemma covers_eq_of_same {r : Range} (h : v.same w = true) : r.covers v = r.covers w := by
  have hvw : v.order w = .eq := by simpa [same] using h
  rw [Bool.eq_iff_iff, covers_iff, covers_iff]
  refine and_congr (forall₂_congr fun low _ => ?_) (forall₂_congr fun high _ => ?_)
  · rw [Std.TransCmp.congr_right hvw]
  · rw [Std.TransCmp.congr_left hvw]

end Range

/-! ### Sets -/

namespace RangeSet

/-- The last range of a set that covers a version. -/
def deciding? (s : RangeSet) (v : Version) : Option Range :=
  s.ranges.reverse.find? (·.covers v)

/-- No range behind the deciding one covers the version. -/
theorem deciding?_eq_some_iff {s : RangeSet} {r : Range} :
    s.deciding? v = some r ↔
      r.covers v = true ∧ ∃ earlier later, s.ranges = earlier ++ r :: later ∧
        ∀ r' ∈ later, r'.covers v = false := by
  rw [deciding?, List.find?_eq_some_iff_append]
  refine and_congr_right fun _ => ⟨?_, ?_⟩
  · rintro ⟨later, earlier, hranges, hlater⟩
    refine ⟨earlier.reverse, later.reverse, ?_, by simpa using hlater⟩
    rw [← List.reverse_reverse s.ranges, hranges]
    simp
  · rintro ⟨earlier, later, hranges, hlater⟩
    refine ⟨later.reverse, earlier.reverse, ?_, by simpa using hlater⟩
    simp [hranges]

/-- The deciding range gives the verdict, and without one the version is left out. -/
theorem accepts_eq_any_deciding? (s : RangeSet) (v : Version) :
    s.accepts v = (s.deciding? v).any fun r => !r.negated := by
  rw [accepts, deciding?, List.foldl_eq_foldr_reverse]
  induction s.ranges.reverse with
  | nil => rfl
  | cons r rs ih =>
    rw [List.foldr_cons, List.find?_cons]
    cases r.covers v with
    | true => rfl
    | false => exact ih

/-- Versions that are covered by the same ranges have the same verdict. -/
theorem accepts_congr {s : RangeSet} (h : ∀ r ∈ s.ranges, r.covers v = r.covers w) :
    s.accepts v = s.accepts w := by
  have hfind : s.deciding? v = s.deciding? w :=
    List.find?_congr fun r hr => h r (List.mem_reverse.mp hr)
  rw [accepts_eq_any_deciding?, accepts_eq_any_deciding?, hfind]

/-- The bounds of all ranges of a set. -/
def bounds (s : RangeSet) : List Version :=
  s.ranges.flatMap Range.bounds

/-- A set holds a version if there is a range that covers it and the last such range is not negated.
Equal versions have the same verdict, and so have two versions with no bound between them. -/
theorem accepts_by_last_covering_range (s : RangeSet) (v w : Version) :
    (s.accepts v = true ↔
      ∃ earlier r later, s.ranges = earlier ++ r :: later ∧ r.covers v = true ∧
        (∀ r' ∈ later, r'.covers v = false) ∧ r.negated = false) ∧
      (v.same w = true → s.accepts v = s.accepts w) ∧
      ((v.order w).isLE → (∀ b ∈ s.bounds, ¬ ((v.order b).isLE ∧ (b.order w).isLE)) →
        s.accepts v = s.accepts w) := by
  refine ⟨?_, fun hsame => ?_, fun hvw hbounds => ?_⟩
  · rw [accepts_eq_any_deciding?, Option.any_eq_true]
    constructor
    · rintro ⟨r, hr, hplain⟩
      obtain ⟨hcovers, earlier, later, hranges, hlater⟩ := deciding?_eq_some_iff.mp hr
      exact ⟨earlier, r, later, hranges, hcovers, hlater, by simpa using hplain⟩
    · rintro ⟨earlier, r, later, hranges, hcovers, hlater, hplain⟩
      have hr := deciding?_eq_some_iff.mpr ⟨hcovers, earlier, later, hranges, hlater⟩
      exact ⟨r, hr, by simpa using hplain⟩
  · exact accepts_congr fun r _ => Range.covers_eq_of_same hsame
  · refine accepts_congr fun r hr => Range.covers_eq_of_no_bound hvw fun b hb => ?_
    exact hbounds b (List.mem_flatMap.mpr ⟨r, hr, hb⟩)

/-- Of overlapping ranges, one of them without versions, the last one that covers `1.4` and `1.4.0`
excludes them. No bound lies between these and `1.4.9`. -/
theorem accepts_by_last_covering_range_of_overlap :
    let version (components : List Nat) (text : String) : Version := ⟨components.map .number, text⟩
    let v := version [1, 4] "1.4"
    let v' := version [1, 4, 0] "1.4.0"
    let w := version [1, 4, 9] "1.4.9"
    let wide : Range := ⟨some (version [1] "1"), none, false⟩
    let hole : Range := ⟨some (version [1, 3] "1.3"), some (version [1, 5] "1.5"), true⟩
    let empty : Range := ⟨some (version [2] "2"), some (version [1, 2] "1.2"), false⟩
    let s : RangeSet := ⟨[wide, hole, empty]⟩
    v.same v' = true ∧ (v'.order w).isLE ∧
      (∀ b ∈ s.bounds, ¬ ((v'.order b).isLE ∧ (b.order w).isLE)) ∧
      hole.covers v = true ∧ s.accepts v = false ∧ s.accepts v' = false ∧ s.accepts w = false := by
  intro version v v' w wide hole empty s
  have hsame : v.same v' = true := by decide
  have hle : (v'.order w).isLE := by decide
  have hbounds : ∀ b ∈ s.bounds, ¬ ((v'.order b).isLE ∧ (b.order w).isLE) := by decide
  have hv : s.accepts v = false := by decide
  have hv' : s.accepts v' = false :=
    ((accepts_by_last_covering_range s v v').2.1 hsame).symm.trans hv
  have hw : s.accepts w = false :=
    ((accepts_by_last_covering_range s v' w).2.2 hle hbounds).symm.trans hv'
  exact ⟨hsame, hle, hbounds, by decide, hv, hv', hw⟩

end RangeSet

end Version

end Requirements
