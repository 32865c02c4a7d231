import Mathlib.Order.Compare
import Mathlib.Tactic.Lemma
import Requirements.Version.Range

/-!
# Equal versions

The order of versions continues the shorter sequence of components with zeros, so it does not see
zeros at the end. Two versions are equal under it exactly if their keys agree, and equal versions
compare in the same way with every other version. Exchanged versions are in the opposite order.
-/

namespace Requirements

namespace Version

namespace Component

/-- Components are equal in the order only if they are the same. -/
@[simp] lemma order_eq_iff {a b : Component} : a.order b = .eq ↔ a = b := by
  cases a <;> cases b <;> simp [order]

/-- Exchanged components are in the opposite order. -/
theorem order_swap (a b : Component) : (a.order b).swap = b.order a := by
  cases a with
  | number m =>
    cases b with
    | number n =>
      have hswap : compare n m = (compare m n).swap := Std.OrientedCmp.eq_swap
      exact hswap.symm
    | suffix t => rfl
  | suffix s =>
    cases b with
    | number n => rfl
    | suffix t =>
      have hswap : compare t s = (compare s t).swap := Std.OrientedCmp.eq_swap
      exact hswap.symm

end Component

open Component

/-! ### Zeros at the end -/

@[simp] lemma trimZeros_nil : trimZeros [] = [] := rfl

/-- A component at the front is left out if it is zero and nothing is left behind it. -/
theorem trimZeros_cons (a : Component) (as : List Component) :
    trimZeros (a :: as) = if a = number 0 ∧ trimZeros as = [] then [] else a :: trimZeros as := by
  unfold trimZeros
  rw [List.reverse_cons, List.dropWhile_append]
  by_cases has : (as.reverse.dropWhile (· == number 0)).reverse = []
  · have hempty : as.reverse.dropWhile (· == number 0) = [] := by simpa using has
    by_cases ha : a = number 0
    · simp [hempty, ha]
    · simp [hempty, ha]
  · have hfull : (as.reverse.dropWhile (· == number 0)).isEmpty = false := by
      simpa using has
    rw [if_neg (by simp [hfull]), if_neg fun h => has h.2]
    simp

/-- Nothing is left after trimming exactly if all components are zero. -/
lemma trimZeros_cons_eq_nil_iff {a : Component} {as : List Component} :
    trimZeros (a :: as) = [] ↔ a = number 0 ∧ trimZeros as = [] := by
  rw [trimZeros_cons]
  split
  · rename_i h
    simpa using h
  · rename_i h
    simpa using h

/-- A missing component counts as zero. -/
lemma orderComponents_nil_cons (b : Component) (bs : List Component) :
    orderComponents [] (b :: bs) = ((number 0).order b).then (orderComponents [] bs) := rfl

/-- Only zeros are equal to nothing. -/
theorem orderComponents_nil_right_eq_iff {as : List Component} :
    orderComponents as [] = .eq ↔ trimZeros as = [] := by
  induction as with
  | nil => simp [orderComponents, orderZeros]
  | cons a as ih =>
    rw [orderComponents, Ordering.then_eq_eq, order_eq_iff, ih, trimZeros_cons_eq_nil_iff]

/-- The empty version equals those that have only zeros. -/
lemma orderComponents_nil_left_eq_iff {bs : List Component} :
    orderComponents [] bs = .eq ↔ trimZeros bs = [] := by
  induction bs with
  | nil => simp [orderComponents, orderZeros]
  | cons b bs ih =>
    rw [orderComponents_nil_cons, Ordering.then_eq_eq, order_eq_iff, ih, trimZeros_cons_eq_nil_iff,
      eq_comm (a := b)]

/-- Sequences are equal under the order exactly if they agree up to zeros at the end. -/
theorem orderComponents_eq_iff {as bs : List Component} :
    orderComponents as bs = .eq ↔ trimZeros as = trimZeros bs := by
  induction as generalizing bs with
  | nil =>
    rw [orderComponents_nil_left_eq_iff, trimZeros_nil, eq_comm]
  | cons a as ih =>
    cases bs with
    | nil => rw [orderComponents_nil_right_eq_iff, trimZeros_nil]
    | cons b bs =>
      rw [orderComponents, Ordering.then_eq_eq, order_eq_iff, ih]
      constructor
      · rintro ⟨rfl, h⟩
        rw [trimZeros_cons, trimZeros_cons, h]
      · intro h
        by_cases hnil : trimZeros (a :: as) = []
        · have ha := trimZeros_cons_eq_nil_iff.mp hnil
          have hb := trimZeros_cons_eq_nil_iff.mp (h ▸ hnil)
          exact ⟨ha.1.trans hb.1.symm, ha.2.trans hb.2.symm⟩
        · have ha := mt trimZeros_cons_eq_nil_iff.mpr hnil
          have hb := mt trimZeros_cons_eq_nil_iff.mpr (h ▸ hnil)
          rw [trimZeros_cons, trimZeros_cons, if_neg ha, if_neg hb] at h
          simpa using h

/-- Leaving out zeros at the end changes no comparison. -/
theorem orderComponents_trimZeros_left (as bs : List Component) :
    orderComponents (trimZeros as) bs = orderComponents as bs := by
  induction as generalizing bs with
  | nil => rfl
  | cons a as ih =>
    rw [trimZeros_cons]
    split
    · rename_i h
      obtain ⟨rfl, hnil⟩ := h
      cases bs with
      | nil =>
        have hzero : orderComponents (number 0 :: as) [] = .eq :=
          orderComponents_nil_right_eq_iff.mpr (trimZeros_cons_eq_nil_iff.mpr ⟨rfl, hnil⟩)
        rw [hzero]
        rfl
      | cons b bs =>
        have hcons : orderComponents (number 0 :: as) (b :: bs) =
            ((number 0).order b).then (orderComponents as bs) := rfl
        rw [hcons, ← ih bs, hnil, orderComponents_nil_cons]
    · cases bs with
      | nil => rw [orderComponents, orderComponents, ih]
      | cons b bs => rw [orderComponents, orderComponents, ih]

/-- Zeros at the end of the second version do not matter. -/
lemma orderComponents_trimZeros_right (as bs : List Component) :
    orderComponents as (trimZeros bs) = orderComponents as bs := by
  induction bs generalizing as with
  | nil => rfl
  | cons b bs ih =>
    rw [trimZeros_cons]
    split
    · rename_i h
      obtain ⟨rfl, hnil⟩ := h
      cases as with
      | nil =>
        have hzero : orderComponents [] (number 0 :: bs) = .eq :=
          orderComponents_nil_left_eq_iff.mpr (trimZeros_cons_eq_nil_iff.mpr ⟨rfl, hnil⟩)
        rw [hzero]
        rfl
      | cons a as => rw [orderComponents, orderComponents, ← ih as, hnil]
    · cases as with
      | nil => rw [orderComponents_nil_cons, orderComponents_nil_cons, ih]
      | cons a as => rw [orderComponents, orderComponents, ih]

/-- Exchanged sequences are in the opposite order. -/
theorem orderComponents_swap (as bs : List Component) :
    (orderComponents as bs).swap = orderComponents bs as := by
  induction as generalizing bs with
  | nil =>
    induction bs with
    | nil => rfl
    | cons b bs ih =>
      rw [orderComponents_nil_cons, Ordering.swap_then, order_swap, ih, ← orderComponents]
  | cons a as ih =>
    cases bs with
    | nil =>
      have hcons : orderComponents (a :: as) [] =
          (a.order (number 0)).then (orderComponents as []) := rfl
      rw [hcons, Ordering.swap_then, order_swap, ih, orderComponents_nil_cons]
    | cons b bs =>
      have hcons : orderComponents (a :: as) (b :: bs) =
          (a.order b).then (orderComponents as bs) := rfl
      rw [hcons, Ordering.swap_then, order_swap, ih, ← orderComponents]

/-! ### Versions -/

variable {v w : Version}

/-- Exchanged versions are in the opposite order. -/
theorem order_swap (v w : Version) : (v.order w).swap = w.order v :=
  orderComponents_swap v.components w.components

/-- Versions are the same exactly if their keys are. -/
lemma same_iff_key_eq : v.same w = true ↔ v.key = w.key := by
  simp only [same, order, beq_iff_eq]
  exact orderComponents_eq_iff

/-- A version is the same as itself. -/
@[simp] lemma same_self (v : Version) : v.same v = true :=
  same_iff_key_eq.mpr rfl

/-- Equal versions have the same canonical form. -/
theorem canonical_eq_of_same (h : v.same w = true) : w.canonical = v.canonical := by
  rw [canonical, canonical, same_iff_key_eq.mp h]

/-- The order of two versions is that of their keys. -/
theorem order_eq_order_key (v w : Version) : v.order w = orderComponents v.key w.key := by
  rw [order, key, key, orderComponents_trimZeros_left, orderComponents_trimZeros_right]

/-- Equal versions come before the same versions. -/
theorem before_eq_of_same (h : v.same w = true) (u : Version) : w.before u = v.before u := by
  rw [before, before, order_eq_order_key, order_eq_order_key, same_iff_key_eq.mp h]

/-- No version is before itself. -/
@[simp] lemma before_self (v : Version) : v.before v = false := by
  have h : v.order v = .eq := by simpa [same] using same_self v
  rw [before, h]
  rfl

end Version

end Requirements
