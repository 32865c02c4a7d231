import Mathlib.Tactic.Lemma
import Requirements.Expr.Operator
import Requirements.Proofs.Version.Order

/-!
# Versions are totally preordered

Sequences of components of different lengths are compared as if the shorter one went on with zeros.
Continued to a common length, they are in the lexicographic order of lists, whatever that length is.
So the order of versions inherits from lists that it is total and transitive, for three sequences of
three lengths as well: all three are continued to the length of the longest.

Of the comparisons of versions, equality and precedence are the given ones, and the other four are
said with these. All six agree with the order, and equal versions have equal hashes.
-/

namespace Requirements

namespace Version

/-! ### Components -/

namespace Component

/-- The order of components is transitive. -/
lemma isLE_order_trans {a b c : Component} (hab : (a.order b).isLE) (hbc : (b.order c).isLE) :
    (a.order c).isLE := by
  cases a with
  | number m =>
    cases c with
    | suffix t => rfl
    | number n =>
      cases b with
      | number k =>
        have hmk : (compare m k).isLE := hab
        have hmn : (compare m n).isLE := Std.TransCmp.isLE_trans hmk hbc
        exact hmn
      | suffix s => cases hbc
  | suffix r =>
    cases b with
    | number k => cases hab
    | suffix s =>
      cases c with
      | number n => cases hbc
      | suffix t =>
        have hrs : (compare r s).isLE := hab
        have hrt : (compare r t).isLE := Std.TransCmp.isLE_trans hrs hbc
        exact hrt

instance : Std.TransCmp order where
  eq_swap := (order_swap _ _).symm
  isLE_trans := isLE_order_trans

end Component

open Component

/-! ### Sequences continued to a common length -/

/-- The components, continued with zeros up to the length `n`. -/
def padZeros (n : Nat) (components : List Component) : List Component :=
  components ++ List.replicate (n - components.length) (number 0)

/-- The first component of a continued sequence is zero if there is no other. -/
theorem padZeros_succ (n : Nat) (as : List Component) :
    padZeros (n + 1) as = as.headD (number 0) :: padZeros n as.tail := by
  cases as with
  | nil => simp [padZeros, List.replicate_succ]
  | cons a as => simp [padZeros]

/-- The order of two sequences is that of their first components and then of the others, where the
first component of nothing is zero. -/
theorem orderComponents_eq_then (as bs : List Component) :
    orderComponents as bs =
      ((as.headD (number 0)).order (bs.headD (number 0))).then
        (orderComponents as.tail bs.tail) := by
  cases as with
  | nil =>
    cases bs with
    | nil => rfl
    | cons b bs => rfl
  | cons a as =>
    cases bs with
    | nil => rfl
    | cons b bs => rfl

/-- Sequences that are continued to any common length are in lexicographic order. -/
theorem orderComponents_eq_compareLex {as bs : List Component} {n : Nat} (has : as.length ≤ n)
    (hbs : bs.length ≤ n) :
    orderComponents as bs = List.compareLex Component.order (padZeros n as) (padZeros n bs) := by
  induction n generalizing as bs with
  | zero =>
    obtain rfl := List.length_eq_zero_iff.mp (Nat.le_zero.mp has)
    obtain rfl := List.length_eq_zero_iff.mp (Nat.le_zero.mp hbs)
    rfl
  | succ n ih =>
    -- Each step takes the first component of both, which is a zero where a sequence has ended.
    have has' : as.tail.length ≤ n := by
      rw [List.length_tail]
      omega
    have hbs' : bs.tail.length ≤ n := by
      rw [List.length_tail]
      omega
    rw [orderComponents_eq_then, padZeros_succ, padZeros_succ, List.compareLex_cons_cons,
      ih has' hbs']

/-- The order of lists of components is transitive. -/
lemma isLE_orderComponents_trans {as bs cs : List Component}
    (hab : (orderComponents as bs).isLE) (hbc : (orderComponents bs cs).isLE) :
    (orderComponents as cs).isLE := by
  -- A length for two of the sequences would not do, as each of them is compared with the third.
  let n := max as.length (max bs.length cs.length)
  have has : as.length ≤ n := by omega
  have hbs : bs.length ≤ n := by omega
  have hcs : cs.length ≤ n := by omega
  rw [orderComponents_eq_compareLex has hbs] at hab
  rw [orderComponents_eq_compareLex hbs hcs] at hbc
  rw [orderComponents_eq_compareLex has hcs]
  exact Std.TransCmp.isLE_trans hab hbc

/-! ### Versions -/

instance : Std.TransCmp Version.order where
  eq_swap := (order_swap _ _).symm
  isLE_trans := isLE_orderComponents_trans

/-- The order of versions is total. -/
lemma isLE_order_or (v w : Version) : (v.order w).isLE ∨ (w.order v).isLE := by
  rw [← order_swap v w]
  cases v.order w with
  | lt => exact .inl rfl
  | eq => exact .inl rfl
  | gt => exact .inr rfl

/-- How two versions compare under an operator. Equality and precedence are given, and the other
comparisons are said with these. -/
def satisfies (v : Version) (op : CompareOp) (w : Version) : Bool :=
  match op with
  | .eq => v.same w
  | .ne => !v.same w
  | .lt => v.before w
  | .le => v.before w || v.same w
  | .gt => !v.before w && !v.same w
  | .ge => !v.before w

/-- The hash of a version is that of its components without the zeros at the end. -/
def hashBy (hashComponents : List Component → Int) (v : Version) : Int :=
  hashComponents v.key

/-- Every comparison of versions is read off their order. -/
theorem satisfies_eq_holds (v : Version) (op : CompareOp) (w : Version) :
    v.satisfies op w = op.holds (v.order w) := by
  unfold satisfies same before
  cases op <;> cases v.order w <;> rfl

/-- The order of versions is a total preorder, under which versions are equal exactly if their
components agree up to zeros at the end. Equal versions have equal hashes, and the six comparisons
agree with the order. -/
theorem order_isTotalPreorder (u v w : Version) :
    w.order v = (v.order w).swap ∧ v.order v = .eq ∧
      ((v.order w).isLE ∨ (w.order v).isLE) ∧
      ((u.order v).isLE → (v.order w).isLE → (u.order w).isLE) ∧
      (v.order w = .eq ↔ trimZeros v.components = trimZeros w.components) ∧
      (v.same w = true → ∀ hashComponents, v.hashBy hashComponents = w.hashBy hashComponents) ∧
      ∀ op, v.satisfies op w = op.holds (v.order w) := by
  refine ⟨(order_swap v w).symm, Std.ReflCmp.compare_self, isLE_order_or v w,
    isLE_orderComponents_trans, orderComponents_eq_iff, fun hsame hashComponents => ?_,
    fun op => satisfies_eq_holds v op w⟩
  rw [hashBy, hashBy, same_iff_key_eq.mp hsame]

/-- A suffix comes after the zeros that a shorter version goes on with, and a zero behind the suffix
changes nothing. -/
theorem order_isTotalPreorder_of_suffix :
    let u : Version := ⟨[.number 1], "1"⟩
    let v : Version := ⟨[.number 1, .suffix "b"], "1b"⟩
    let w : Version := ⟨[.number 1, .suffix "b", .number 0], ""⟩
    (u.order v).isLE ∧ (v.order w).isLE ∧ v.same w = true ∧ (u.order w).isLE ∧
      ∀ hashComponents, v.hashBy hashComponents = w.hashBy hashComponents := by
  intro u v w
  have huv : (u.order v).isLE := by decide
  have hvw : (v.order w).isLE := by decide
  have hsame : v.same w = true := by decide
  obtain ⟨-, -, -, htrans, -, hhash, -⟩ := order_isTotalPreorder u v w
  exact ⟨huv, hvw, hsame, htrans huv hvw, hhash hsame⟩

end Version

end Requirements
