/-
Following plans. Activities that are performed by their plans, with fuel for the depth to which
plans wait for each other, have the outcomes that evaluation has.
-/
import KnightLang.Proofs.Machine.Plan

namespace KnightLang

open EvalM

/-- The machine that an outcome leaves. -/
def Outcome.machine? {μ α : Type} : Outcome μ α → Option μ
  | value _ m => some m
  | halted _ m => some m
  | unfinished => none

variable {β σ ν α γ : Type} [Bindings β ν] [Host σ]

/-! ## Following a plan -/

namespace Plan

/-- The outcome of a plan, given the outcomes of activities. -/
def follow (p : (a : Activity ν) → EvalM (Machine β σ) a.Answer) :
    Plan ν α → EvalM (Machine β σ) α
  | done a => pure a
  | halt h => .halt h
  | ask o next => do
    let answer ← o.perform
    (next answer).follow p
  | await a next => do
    let answer ← p a
    (next answer).follow p

section
variable {p q : (a : Activity ν) → EvalM (Machine β σ) a.Answer}

theorem follow_extends (h : ∀ a, (p a).Extends (q a)) (plan : Plan ν α) :
    (plan.follow p).Extends (plan.follow q) := by
  induction plan with
  | done | halt => exact .refl _
  | ask o next ih => exact (Extends.refl _).bind ih
  | await a next ih => exact (h a).bind ih

@[simp] theorem follow_await_done (a : Activity ν) : (await a done).follow p = p a :=
  bind_pure (p a)

@[simp] theorem follow_ask_done (o : Operation ν) : (ask o done).follow p = o.perform :=
  bind_pure o.perform

@[simp] theorem follow_ofHalt (result : Except Halt γ) (next : γ → Plan ν α) :
    (ofHalt result next).follow p = EvalM.ofHalt result >>= fun c => (next c).follow p := by
  cases result <;> rfl

@[simp] theorem follow_ofFault (result : Except Fault γ) (next : γ → Plan ν α) :
    (ofFault result next).follow p = EvalM.ofFault result >>= fun c => (next c).follow p := by
  cases result <;> rfl

@[simp] theorem follow_ite (t : Bool) (yes no : Plan ν α) :
    (if t then yes else no).follow p = if t then yes.follow p else no.follow p := by
  cases t <;> rfl

end

end Plan

/-! ## Plans of terms -/

namespace Term

variable (n : Nat)

theorem follow_planUnary (f : Unary) (a : Term ν) :
    ((planUnary f a).follow (Activity.within n) : EvalM (Machine β σ) (Term ν)) =
      stepUnary (eval n) n f a := by
  cases f with
  | eval =>
    simp only [planUnary, Plan.follow, bind_pure]
    rfl
  | call =>
    simp only [planUnary, Plan.follow, bind_pure]
    rfl
  | output =>
    refine congrArg (bind (coerce Literal.toText (eval n) n a)) (funext fun s => ?_)
    unfold planOutput writeLine
    cases h : Text.dropLast? '\\' s with
    | some line => rfl
    | none =>
      simp only [bind_assoc]
      rfl
  | _ => rfl

theorem follow_planBinary (f : Binary) (a b : Term ν) :
    ((planBinary f a b).follow (Activity.within n) : EvalM (Machine β σ) (Term ν)) =
      stepBinary (eval n) n f a b := by
  cases f with
  | arith op =>
    simp only [planBinary, Plan.follow, stepBinary, map_eq_pure_bind]
    rfl
  | equal | loop => rfl
  | less | greater =>
    simp only [planBinary, Plan.follow, Plan.follow_ofFault, stepBinary]
    rfl
  | and | or =>
    simp only [planBinary, Plan.follow, Plan.follow_ite, bind_pure, stepBinary]
    rfl
  | seq =>
    simp only [planBinary, Plan.follow, bind_pure, stepBinary]
    rfl
  | assign => cases a <;> rfl

/-- The plan of a term says what evaluation does. -/
theorem follow_plan (t : Term ν) :
    (t.plan.follow (Activity.within n) : EvalM (Machine β σ) (Term ν)) = t.step (eval n) n := by
  cases t with
  | lit l => rfl
  | var x => exact Plan.follow_ask_done _
  | nullary f => cases f <;> rfl
  | unary f a => exact follow_planUnary n f a
  | binary f a b => exact follow_planBinary n f a b
  | ternary f a b c =>
    cases f with
    | branch =>
      simp only [plan, Plan.follow, Plan.follow_ite, bind_pure, step, stepTernary]
      rfl
    | slice =>
      simp only [plan, Plan.follow, Plan.follow_ofFault, step, stepTernary]
      rfl
  | quaternary f a b c d =>
    cases f with
    | splice =>
      simp only [plan, Plan.follow, Plan.follow_ofFault, step, stepQuaternary]
      rfl

end Term

/-! ## Activities with fuel -/

namespace Activity

theorem within_extends {n n' : Nat} (h : n ≤ n') (a : Activity ν) :
    (a.within n : EvalM (Machine β σ) a.Answer).Extends (a.within n') := by
  have hev : ∀ t : Term ν, (t.eval n : EvalM (Machine β σ) _).Extends (t.eval n') :=
    Term.eval_extends h
  cases a with
  | evaluate t => exact hev t
  | coerce w t => exact coerce_extends hev w.read h t
  | operate op left right => exact operate_extends hev h op right h left
  | loop cond body => exact repeatWhile_extends hev h cond body h
  | run source => exact (Extends.refl _).bind hev

theorem follow_planOperator (n : Nat) (right : Term ν) (op : Arith) (l : Literal) :
    ((planOperator right op l).follow (within n) : EvalM (Machine β σ) Literal) =
      operateOn (Term.eval n) n right op l := by
  cases l with
  | number a =>
    simp only [planOperator, operateOn, Plan.follow, Plan.follow_ofFault, map_eq_pure_bind]
    rfl
  | text s =>
    cases op with
    | multiply =>
      simp only [planOperator, operateOn, Plan.follow, Plan.follow_ofHalt, map_eq_pure_bind]
      rfl
    | _ => rfl
  | _ => cases op <;> rfl

/-- Following a plan takes no more fuel than the activity with one unit more of it. -/
theorem follow_extends_within (n : Nat) (a : Activity ν) :
    (a.plan.follow (within n) : EvalM (Machine β σ) a.Answer).Extends (a.within (n + 1)) := by
  have hev : ∀ t : Term ν, (t.eval n : EvalM (Machine β σ) _).Extends (t.eval (n + 1)) :=
    Term.eval_extends (Nat.le_succ n)
  cases a with
  | evaluate t =>
    show (t.plan.follow (within n)).Extends (t.step (Term.eval n) n)
    rw [Term.follow_plan]
    exact .refl _
  | coerce w t =>
    cases t with
    | lit l => exact .refl _
    | _ =>
      -- The unit of fuel that is to spare pays for this round of the coercion.
      refine (hev _).bind fun value => ?_
      rw [Plan.follow_await_done]
      exact coerce_extends hev w.read (Nat.le_refl n) value
  | operate op left right =>
    cases left with
    | lit l =>
      show ((planOperator right op l).follow (within n)).Extends _
      rw [follow_planOperator]
      exact operateOn_extends hev (Nat.le_succ n) right op l
    | _ =>
      refine (hev _).bind fun value => ?_
      rw [Plan.follow_await_done]
      exact operate_extends hev (Nat.le_succ n) op right (Nat.le_refl n) value
  | loop cond body =>
    refine (coerce_extends hev Literal.truthy (Nat.le_succ n) cond).bind fun t => ?_
    cases t with
    | true =>
      refine (hev body).bind fun _ => ?_
      rw [Plan.follow_await_done]
      exact repeatWhile_extends hev (Nat.le_succ n) cond body (Nat.le_refl n)
    | false => exact .refl _
  | run source =>
    refine (Extends.refl _).bind fun program => ?_
    rw [Plan.follow_await_done]
    exact hev program

/-! ## Performing by plans -/

/-- The outcome of an activity performed by its plan, with fuel for the depth to which plans wait
for each other. -/
def perform : Nat → (a : Activity ν) → EvalM (Machine β σ) a.Answer
  | 0, _ => unfinished
  | n + 1, a => a.plan.follow (perform n)

theorem perform_extends {n n' : Nat} (h : n ≤ n') (a : Activity ν) :
    (a.perform n : EvalM (Machine β σ) a.Answer).Extends (a.perform n') := by
  induction n generalizing n' a with
  | zero => exact unfinished_extends _
  | succ n ih =>
    obtain ⟨n', rfl⟩ := Nat.exists_eq_add_of_lt h
    exact Plan.follow_extends (fun a => ih (by omega) a) a.plan

theorem perform_extends_within (n : Nat) (a : Activity ν) :
    (a.perform n : EvalM (Machine β σ) a.Answer).Extends (a.within n) := by
  induction n generalizing a with
  | zero => exact unfinished_extends _
  | succ n ih => exact (Plan.follow_extends ih a.plan).trans (follow_extends_within n a)

section
variable {n k : Nat}
  (hev : ∀ t : Term ν, (t.eval n : EvalM (Machine β σ) _).Extends ((evaluate t).perform k))
include hev

theorem coerce_extends_perform (w : Want) (j : Nat) (t : Term ν) :
    (KnightLang.coerce w.read (Term.eval n) j t : EvalM (Machine β σ) w.Answer).Extends
      ((coerce w t).perform (k + j + 1)) := by
  -- Each round of a coercion is one plan that waits for the next.
  induction j generalizing t with
  | zero =>
    cases t with
    | lit l => exact .refl _
    | _ => exact unfinished_extends _
  | succ j ih =>
    cases t with
    | lit l => exact .refl _
    | _ =>
      refine ((hev _).trans (perform_extends (by omega) _)).bind fun value => ?_
      rw [Plan.follow_await_done]
      exact ih value

theorem operateOn_extends_perform (right : Term ν) (op : Arith) (l : Literal) :
    (operateOn (Term.eval n) n right op l : EvalM (Machine β σ) Literal).Extends
      ((planOperator right op l).follow (perform (k + n + 1))) := by
  have int := coerce_extends_perform hev .number n right
  have text := coerce_extends_perform hev .text n right
  cases l with
  | number a =>
    simp only [planOperator, operateOn, Plan.follow, Plan.follow_ofFault, map_eq_pure_bind]
    exact int.bind fun _ => .refl _
  | text s =>
    cases op with
    | add => exact text.bind fun _ => .refl _
    | multiply =>
      simp only [planOperator, operateOn, Plan.follow, Plan.follow_ofHalt, map_eq_pure_bind]
      exact int.bind fun _ => .refl _
    | _ => exact .refl _
  | _ => cases op <;> exact .refl _

theorem operate_extends_perform (op : Arith) (right : Term ν) (j : Nat) (left : Term ν) :
    (KnightLang.operate (Term.eval n) n op right j left : EvalM (Machine β σ) Literal).Extends
      ((operate op left right).perform (k + n + j + 2)) := by
  have hlit : ∀ (i : Nat) (l : Literal),
      (operateOn (Term.eval n) n right op l : EvalM (Machine β σ) Literal).Extends
        ((operate op (.lit l) right).perform (k + n + i + 2)) := fun i l =>
    (operateOn_extends_perform hev right op l).trans
      (Plan.follow_extends (fun a => perform_extends (by omega) a) _)
  induction j generalizing left with
  | zero =>
    cases left with
    | lit l => exact hlit 0 l
    | _ => exact unfinished_extends _
  | succ j ih =>
    cases left with
    | lit l => exact hlit (j + 1) l
    | _ =>
      refine ((hev _).trans (perform_extends (by omega) _)).bind fun value => ?_
      rw [Plan.follow_await_done]
      exact ih value

theorem repeatWhile_extends_perform (cond body : Term ν) (j : Nat) :
    (repeatWhile (Term.eval n) n cond body j : EvalM (Machine β σ) Unit).Extends
      ((loop cond body).perform (k + n + j + 2)) := by
  induction j with
  | zero => exact unfinished_extends _
  | succ j ih =>
    have test := (coerce_extends_perform hev .truth n cond).trans
      (perform_extends (show k + n + 1 ≤ k + n + j + 2 by omega) _)
    refine test.bind fun t => ?_
    cases t with
    | true =>
      refine ((hev body).trans (perform_extends (by omega) _)).bind fun _ => ?_
      rw [Plan.follow_await_done]
      exact ih
    | false => exact .refl _

/-- If plans do what evaluation does on terms, they do so on all activities. -/
theorem within_extends_of_eval (a : Activity ν) :
    (a.within n : EvalM (Machine β σ) a.Answer).Extends (a.perform (k + n + n + 2)) := by
  cases a with
  | evaluate t => exact (hev t).trans (perform_extends (by omega) _)
  | coerce w t =>
    exact (coerce_extends_perform hev w n t).trans (perform_extends (by omega) _)
  | operate op left right => exact operate_extends_perform hev op right n left
  | loop cond body => exact repeatWhile_extends_perform hev cond body n
  | run source =>
    refine (Extends.refl _).bind fun program => ?_
    rw [Plan.follow_await_done]
    exact (hev program).trans (perform_extends (by omega) _)

end

theorem exists_perform_of_eval (n : Nat) :
    ∃ k, ∀ t : Term ν, (t.eval n : EvalM (Machine β σ) _).Extends ((evaluate t).perform k) := by
  induction n with
  | zero => exact ⟨0, fun _ => unfinished_extends _⟩
  | succ n ih =>
    -- A level of evaluation is one plan on top of the activities of the level below.
    obtain ⟨k, hk⟩ := ih
    refine ⟨k + n + n + 3, fun t => ?_⟩
    show (t.step (Term.eval n) n).Extends (t.plan.follow (perform (k + n + n + 2)))
    rw [← Term.follow_plan]
    exact Plan.follow_extends (within_extends_of_eval hk) t.plan

/-- An activity and its plan have the same outcomes. -/
theorem within_iff_perform {a : Activity ν} {m : Machine β σ}
    {o : Outcome (Machine β σ) a.Answer} (ho : o ≠ .unfinished) :
    (∃ n, (a.within n).run m = o) ↔ ∃ n, (a.perform n).run m = o := by
  constructor
  · rintro ⟨n, h⟩
    obtain ⟨k, hk⟩ := exists_perform_of_eval (β := β) (σ := σ) (ν := ν) n
    exact ⟨_, (within_extends_of_eval hk a m (h ▸ ho)).trans h⟩
  · rintro ⟨n, h⟩
    exact ⟨n, (perform_extends_within n a m (h ▸ ho)).trans h⟩

end Activity

end KnightLang
