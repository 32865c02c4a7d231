import Mathlib.Tactic.Lemma
import Requirements.Proofs.Evaluation.Coupling

/-!
# Evaluations in lockstep

Two computations run in lockstep if, started in related states, they both succeed with related
values or both fail with the same error, and end in related states. The relation kept while both go
on may be stronger than the one that a failure leaves behind.
-/

namespace Requirements

/-- Both computations succeed with values related by `A` in states related by `R`, or both fail with
the same error in states related by `E`, whenever they start in states related by `R`. -/
def Lockstep (R E : Progress → Progress → Prop) {α β : Type} (A : α → β → Prop) (m : EvalM α)
    (n : EvalM β) : Prop :=
  ∀ p p', R p p' →
    (∃ a b q q', m.outcome p = (.ok a, q) ∧ n.outcome p' = (.ok b, q') ∧ A a b ∧ R q q') ∨
    (∃ e q q', m.outcome p = (.error e, q) ∧ n.outcome p' = (.error e, q') ∧ E q q')

/-- The same questions have been asked. -/
def SameAsked (p p' : Progress) : Prop :=
  p'.asked = p.asked

namespace Lockstep

variable {R E : Progress → Progress → Prop} {α β γ δ : Type}

/-- Related values may be given at once. -/
lemma pure {A : α → β → Prop} {a : α} {b : β} (h : A a b) :
    Lockstep R E A (pure a) (pure b) :=
  fun p p' hR => .inl ⟨a, b, p, p', rfl, rfl, h, hR⟩

/-- The same error may be raised at once, if related states end as failures may. -/
lemma throw (hE : ∀ p p', R p p' → E p p') {A : α → β → Prop} (e : EvalError) :
    Lockstep R E A (throw e) (throw e) :=
  fun p p' hR => .inr ⟨e, p, p', rfl, rfl, hE p p' hR⟩

/-- Computations in lockstep may be related more loosely. -/
lemma mono {A B : α → β → Prop} {m : EvalM α} {n : EvalM β} (h : Lockstep R E A m n)
    (hAB : ∀ a b, A a b → B a b) : Lockstep R E B m n :=
  fun p p' hR => (h p p' hR).imp_left fun ⟨a, b, q, q', hm, hn, hab, hR'⟩ =>
    ⟨a, b, q, q', hm, hn, hAB a b hab, hR'⟩

/-- Sequences go in lockstep if their parts do. -/
lemma bind {A : α → β → Prop} {B : γ → δ → Prop} {m : EvalM α} {n : EvalM β} {f : α → EvalM γ}
    {g : β → EvalM δ} (h : Lockstep R E A m n) (hfg : ∀ a b, A a b → Lockstep R E B (f a) (g b)) :
    Lockstep R E B (m >>= f) (n >>= g) := by
  intro p p' hR
  rcases h p p' hR with ⟨a, b, q, q', hm, hn, hab, hR'⟩ | ⟨e, q, q', hm, hn, hE⟩
  · rw [EvalM.outcome_bind_of_ok hm, EvalM.outcome_bind_of_ok hn]
    exact hfg a b hab q q' hR'
  · exact .inr ⟨e, q, q', EvalM.outcome_bind_of_error hm, EvalM.outcome_bind_of_error hn, hE⟩

/-- Running in lockstep with equal values is a coupling. -/
def coupling (R E : Progress → Progress → Prop) (hE : ∀ p p', R p p' → E p p') : Coupling where
  rel := Lockstep R E Eq
  rel_pure _ := pure rfl
  rel_throw := throw hE
  rel_bind h hfg := bind h fun a _ hab => hab ▸ hfg a

/-- Looking at the states gives related states. -/
theorem get : Lockstep R E R get get :=
  fun p p' hR => .inl ⟨p, p', p, p', rfl, rfl, hR, hR⟩

/-- States with the same results have the same result for each definition. -/
theorem coupling_looksUp {hE : ∀ p p', R p p' → E p p'}
    (h : ∀ p p', R p p' → p'.results = p.results) : (coupling R E hE).LooksUp := by
  intro name f g hfg
  refine get.bind fun p p' hR => ?_
  rw [h p p' hR]
  exact hfg (p.results.lookup name)

/-- Changes that keep the states related. -/
theorem modify {f g : Progress → Progress} (h : ∀ p p', R p p' → R (f p) (g p')) :
    Lockstep R E Eq (modify f) (modify g) :=
  fun p p' hR => .inl ⟨⟨⟩, ⟨⟩, f p, g p', rfl, rfl, rfl, h p p' hR⟩

end Lockstep

end Requirements
