import Mathlib.Tactic.Lemma
import Requirements.Evaluation.Stack
import Requirements.Proofs.Evaluation.Agreement

/-!
# Evaluations that are broken off

A stack limits an evaluation in one way only: where no frame is left, it is broken off. So on a
larger stack an evaluation has the same outcome, or it goes on where it was broken off on the
smaller one. This is shown for one step of a computation after the other.
-/

namespace Requirements

namespace StackM

variable {α β : Type}

/-- The outcome of a computation that starts from the progress `p`, unless the stack is exhausted,
and the progress at its end. -/
def outcome (m : StackM α) (p : Progress) : Option (Except EvalError α) × Progress :=
  match EvalM.outcome m.run p with
  | (.ok none, q) => (none, q)
  | (.ok (some a), q) => (some (.ok a), q)
  | (.error e, q) => (some (.error e), q)

/-- A value that is there needs no stack. -/
@[simp] lemma outcome_pure (a : α) (p : Progress) : outcome (pure a) p = (some (.ok a), p) := rfl

/-- Giving up leaves the progress as it is. -/
@[simp] lemma outcome_failure (p : Progress) : outcome (failure : StackM α) p = (none, p) := rfl

/-- A computation that needs no stack has the outcome that it has without one. -/
lemma outcome_lift (m : EvalM α) (p : Progress) :
    outcome (liftM m : StackM α) p = (some (m.outcome p).1, (m.outcome p).2) := by
  have hrun : (liftM m : StackM α).run = m >>= fun a => pure (some a) := rfl
  rw [outcome, hrun, EvalM.outcome_bind]
  rcases m.outcome p with ⟨e | a, q⟩ <;> rfl

/-- The second of two computations starts where the first has ended, unless the first failed or has
exhausted the stack. -/
lemma outcome_bind (m : StackM α) (f : α → StackM β) (p : Progress) :
    outcome (m >>= f) p =
      match outcome m p with
      | (some (.ok a), q) => outcome (f a) q
      | (some (.error e), q) => (some (.error e), q)
      | (none, q) => (none, q) := by
  have hrun : (m >>= f).run =
      m.run >>= fun a => match a with
        | some a => (f a).run
        | none => pure none := rfl
  rw [outcome, outcome, hrun, EvalM.outcome_bind]
  rcases EvalM.outcome m.run p with ⟨e | _ | a, q⟩ <;> rfl

end StackM

/-! ### Computations that are broken off -/

/-- The second computation only adds questions to those asked before, and the first one has the same
outcome, or it exhausts its stack when it has asked the first of these questions. -/
def Curtails {α : Type} (m n : StackM α) : Prop :=
  ∀ p, p.asked <:+ (n.outcome p).2.asked ∧
    (m.outcome p = n.outcome p ∨
      (m.outcome p).1 = none ∧ (m.outcome p).2.asked <:+ (n.outcome p).2.asked)

namespace Curtails

open StackM

variable {α β : Type}

/-- A value that is there is there on every stack. -/
lemma pure (a : α) : Curtails (pure a : StackM α) (pure a) :=
  fun _ => ⟨List.suffix_rfl, .inl rfl⟩

/-- A computation that needs no stack has the same outcome on every stack. -/
lemma lift {m : EvalM α} (h : ∀ p, p.asked <:+ (m.outcome p).2.asked) :
    Curtails (liftM m : StackM α) (liftM m) := by
  intro p
  refine ⟨?_, .inl rfl⟩
  rw [outcome_lift]
  exact h p

/-- A look at the progress needs no stack. -/
lemma get : Curtails (get : StackM Progress) get :=
  fun _ => ⟨List.suffix_rfl, .inl rfl⟩

/-- A change of the progress that adds no question needs no stack. -/
lemma modify {f : Progress → Progress} (h : ∀ p, (f p).asked = p.asked) :
    Curtails (modify f : StackM PUnit) (modify f) :=
  fun p => ⟨(h p).symm ▸ List.suffix_rfl, .inl rfl⟩

/-- What gives up at once is curtailed to nothing. -/
lemma failure {m n : StackM α} (h : Curtails m n) : Curtails failure n :=
  fun p => ⟨(h p).1, .inr ⟨rfl, (h p).1⟩⟩

/-- Giving up is curtailed to giving up. -/
lemma failure_failure : Curtails (Alternative.failure : StackM α) Alternative.failure :=
  fun _ => ⟨List.suffix_rfl, .inl rfl⟩

/-- If the first of two computations is broken off, the second one is not started, and the questions
asked so far are the first ones of both together. -/
lemma bind {m n : StackM α} {f g : α → StackM β} (h : Curtails m n)
    (hfg : ∀ a, Curtails (f a) (g a)) : Curtails (m >>= f) (n >>= g) := by
  intro p
  obtain ⟨hgrow, hcases⟩ := h p
  rw [outcome_bind, outcome_bind]
  have hgrow' : (n.outcome p).2.asked <:+ ((match n.outcome p with
      | (some (.ok a), q) => (g a).outcome q
      | (some (.error e), q) => (some (.error e), q)
      | (none, q) => (none, q)) : Option (Except EvalError β) × Progress).2.asked := by
    rcases n.outcome p with ⟨_ | _ | a, q⟩
    · exact List.suffix_rfl
    · exact List.suffix_rfl
    · exact (hfg a q).1
  refine ⟨hgrow.trans hgrow', ?_⟩
  rcases hcases with heq | ⟨hnone, hasked⟩
  · rw [heq]
    rcases n.outcome p with ⟨_ | _ | a, q⟩
    · exact .inl rfl
    · exact .inl rfl
    · exact (hfg a q).2
  · refine .inr ?_
    rcases hm : m.outcome p with ⟨r, q⟩
    rw [hm] at hnone hasked
    obtain rfl : r = none := hnone
    exact ⟨rfl, hasked.trans hgrow'⟩

/-- A condition that is met on the smaller stack is met on the larger one. -/
lemma ite {c c' : Prop} [Decidable c] [Decidable c'] (hc : c → c') {m : StackM α}
    (h : Curtails m m) :
    Curtails (if c then m else Alternative.failure) (if c' then m else Alternative.failure) := by
  by_cases hc' : c'
  · by_cases hc : c
    · rwa [if_pos hc, if_pos hc']
    · rw [if_neg hc, if_pos hc']
      exact h.failure
  · rw [if_neg fun h => hc' (hc h), if_neg hc']
    exact failure_failure

end Curtails

/-! ### Larger stacks -/

namespace Expr

/-- Whether the evaluation of an expression takes a step of its own kind, in a frame of its own. -/
def takesStep : Expr → Bool
  | bool _ | text _ | version _ | tagged _ _ => false
  | _ => true

end Expr

namespace Evaluation

variable {env : Environment} {settings : Settings} {s : Selection}

/-- One frame does not suffice for a step. -/
lemma evalOn_one {e : Expr} (h : e.takesStep = true) : evalOn env settings s 1 e = failure := by
  cases e with
  | bool | text | version | tagged => cases h
  | _ => rfl

/-- A step has the frames that the expression and the step itself leave. -/
lemma evalOn_add_two {e : Expr} (h : e.takesStep = true) (frames : Nat) :
    evalOn env settings s (frames + 2) e =
      stepWith env settings s (evalOn env settings s frames) frames e := by
  cases e with
  | bool | text | version | tagged => cases h
  | _ => rfl

/-- The evaluation of an expression only adds questions to those asked before, if following its
references does. -/
lemma suffix_asked_evalWith {follow : String → EvalM Trace}
    (hfollow : ∀ name, Determines (fun q => env.answer q = env.answer q) (follow name)
      (follow name)) (e : Expr) (p : Progress) :
    p.asked <:+ ((evalWith env settings follow e).outcome p).2.asked :=
  ((Determines.asks env env settings).rel_evalWith rfl rfl (fun name _ => hfollow name) p).1

variable {eval eval' : Expr → StackM Trace}

/-- If operands are evaluated on a larger stack, so is a chain of connectives. -/
lemma spineWith_curtails (h : ∀ e, Curtails (eval e) (eval' e)) (e : Expr) :
    Curtails (spineWith eval e) (spineWith eval' e) := by
  induction e with
  | logical op lhs rhs ihl _ =>
    refine ihl.bind fun left => ?_
    cases op.decided? left.truthy with
    | some truthy => exact .pure _
    | none => exact (h rhs).bind fun right => .pure _
  | _ => exact h _

/-- If bodies are evaluated on a larger stack, so are references. -/
lemma enterBinding_curtails (h : ∀ e, Curtails (eval e) (eval' e)) (name : String) (b : Binding)
    (result : Option Trace) :
    Curtails (enterBinding eval name b result) (enterBinding eval' name b result) := by
  unfold enterBinding
  cases result with
  | some body => exact .pure _
  | none =>
    cases b.body with
    | none => exact .pure _
    | some e =>
      refine (h e).bind fun body => Curtails.bind (Curtails.modify ?_) fun _ => .pure _
      exact fun p => rfl

/-- If operands and bodies are evaluated on a larger stack, a step with more frames goes at least as
far. -/
lemma stepWith_curtails (h : ∀ e, Curtails (eval e) (eval' e)) {frames frames' : Nat}
    (hframes : frames ≤ frames') (e : Expr) :
    Curtails (stepWith env settings s eval frames e) (stepWith env settings s eval' frames' e) := by
  have hlift {α : Type} (r : Except EvalError α) : Curtails (liftM r : StackM α) (liftM r) :=
    fun p => ⟨by cases r <;> exact List.suffix_rfl, .inl rfl⟩
  have hatom (e : Expr) : Curtails
      (liftM (evalWith env settings (fun name => throw (.unresolved name)) e) : StackM Trace)
      (liftM (evalWith env settings (fun name => throw (.unresolved name)) e)) :=
    .lift (suffix_asked_evalWith (fun name => .throw _) e)
  cases e with
  | logical op lhs rhs => exact spineWith_curtails h _
  | compare op lhs rhs =>
    refine (h lhs).bind fun left => (h rhs).bind fun right => Curtails.ite (fun hfit => ?_) ?_
    · exact ⟨Nat.le_trans hfit.1 hframes,
        hfit.2.imp_right fun hright => Nat.le_trans hright hframes⟩
    · exact (hlift _).bind fun truthy => .pure _
  | within operand set =>
    refine (h operand).bind fun inner => Curtails.ite (fun hfit => Nat.le_trans hfit hframes) ?_
    exact (hlift _).bind fun tested => .pure _
  | reference name =>
    simp only [stepWith]
    cases s.find? name with
    | none => exact .lift fun p => List.suffix_rfl
    | some b => exact Curtails.get.bind fun p => enterBinding_curtails h name b _
  | _ => exact hatom _

/-- A larger stack does not change what a smaller one suffices for. -/
lemma evalOn_curtails {frames frames' : Nat} (h : frames ≤ frames') (e : Expr) :
    Curtails (evalOn env settings s frames e) (evalOn env settings s frames' e) := by
  -- On both stacks, two frames less are left to what a step evaluates.
  induction frames' using Nat.strongRecOn generalizing frames e with
  | ind frames' ih =>
  have hpositive {frames : Nat} (h : frames + 1 ≤ frames') :
      Curtails (evalOn env settings s (frames + 1) e) (evalOn env settings s frames' e) := by
    obtain ⟨f', rfl⟩ : ∃ f', frames' = f' + 1 := ⟨frames' - 1, by omega⟩
    by_cases hstep : e.takesStep = true
    · match frames, f' with
      | 0, 0 =>
        rw [evalOn_one hstep]
        exact .failure_failure
      | 0, f' + 1 =>
        rw [evalOn_one hstep, evalOn_add_two hstep]
        exact (stepWith_curtails (fun e => ih f' (by omega) (Nat.le_refl f') e)
          (Nat.le_refl f') e).failure
      | f + 1, f' + 1 =>
        rw [evalOn_add_two hstep, evalOn_add_two hstep]
        exact stepWith_curtails (fun e => ih f' (by omega) (by omega) e) (by omega) e
    · cases e with
      | tagged operand tag =>
        exact (ih f' (by omega) (by omega) operand).bind fun inner => .pure _
      | bool | text | version => exact .pure _
      | _ => exact absurd rfl hstep
  match frames, frames' with
  | 0, 0 => exact .failure_failure
  | 0, frames' + 1 => exact (hpositive (Nat.le_refl _)).failure
  | frames + 1, _ => exact hpositive h

end Evaluation

end Requirements
