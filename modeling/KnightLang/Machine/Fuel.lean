/-
Fuel: an outcome that is there at some fuel is the outcome at any larger fuel. So a term has at
most one outcome from a machine, and fuel only says when to give up.

An evaluation extends another one (`x ≼ y` below, as `Extends`) if it agrees with it wherever that
one finishes. Every construct of evaluation respects extension, and the fuel of `eval` only enters
through constructs.
-/
import KnightLang.Machine.Eval

namespace KnightLang

/-! ## Extension -/

namespace EvalM

variable {μ α γ : Type}

/-- `y` has every outcome that `x` has. -/
def Extends (x y : EvalM μ α) : Prop := ∀ m, x.run m ≠ .unfinished → y.run m = x.run m

theorem Extends.refl (x : EvalM μ α) : x.Extends x := fun _ _ => rfl

theorem Extends.trans {x y z : EvalM μ α} (hxy : x.Extends y) (hyz : y.Extends z) : x.Extends z := by
  intro m h
  have hy := hxy m h
  rw [← hy] at h ⊢
  exact hyz m h

theorem Extends.run_eq {x y : EvalM μ α} (h : x.Extends y) {m : μ} {o : Outcome μ α}
    (hx : x.run m = o) (ho : o ≠ .unfinished) : y.run m = o := by
  rw [← hx] at ho ⊢
  exact h m ho

theorem unfinished_extends (y : EvalM μ α) : (unfinished : EvalM μ α).Extends y :=
  fun _ h => absurd rfl h

theorem Extends.bind {x y : EvalM μ α} {f g : α → EvalM μ γ} (hx : x.Extends y)
    (hf : ∀ a, (f a).Extends (g a)) : (x >>= f).Extends (y >>= g) := by
  intro m h
  rw [run_bind] at h
  have hxm : x.run m ≠ .unfinished := by
    intro hx0
    rw [hx0] at h
    exact h rfl
  rw [run_bind, run_bind, hx m hxm]
  cases hr : x.run m with
  | value a m₁ =>
    rw [hr] at h
    exact hf a m₁ h
  | halted => rfl
  | unfinished => rfl

theorem Extends.map {x y : EvalM μ α} (f : α → γ) (h : x.Extends y) :
    (f <$> x).Extends (f <$> y) := by
  rw [map_eq_pure_bind, map_eq_pure_bind]
  exact h.bind fun _ => .refl _

end EvalM

open EvalM

/-! ## Coercions and loops -/

section
variable {μ ν α : Type} {ev ev' : Term ν → EvalM μ (Term ν)}

theorem coerce_extends (hev : ∀ t, (ev t).Extends (ev' t)) (read : Literal → α) :
    ∀ {n n' : Nat} (_ : n ≤ n') (t : Term ν),
      (coerce read ev n t).Extends (coerce read ev' n' t) := by
  intro n
  induction n with
  | zero =>
    intro n' _ t
    cases t with
    | lit l => cases n' <;> exact .refl _
    | _ => exact unfinished_extends _
  | succ n ih =>
    intro n' hn t
    obtain ⟨n', rfl⟩ := Nat.exists_eq_add_of_lt hn
    cases t with
    | lit l => exact .refl _
    | _ => exact (hev _).bind fun t => ih (by omega) t

theorem operateOn_extends (hev : ∀ t, (ev t).Extends (ev' t)) {n n' : Nat} (hn : n ≤ n')
    (right : Term ν) (op : Arith) (l : Literal) :
    (operateOn ev n right op l).Extends (operateOn ev' n' right op l) := by
  have int := coerce_extends hev Literal.toInt hn right
  have text := coerce_extends hev Literal.toText hn right
  cases l with
  | number a => cases op <;> exact int.bind fun _ => .refl _
  | text s =>
    cases op with
    | add => exact text.bind fun _ => .refl _
    | multiply => exact int.bind fun _ => .refl _
    | _ => exact .refl _
  | _ => cases op <;> exact .refl _

theorem operate_extends (hev : ∀ t, (ev t).Extends (ev' t)) {steps steps' : Nat}
    (hsteps : steps ≤ steps') (op : Arith) (right : Term ν) :
    ∀ {n n' : Nat} (_ : n ≤ n') (left : Term ν),
      (operate ev steps op right n left).Extends (operate ev' steps' op right n' left) := by
  intro n
  induction n with
  | zero =>
    intro n' _ left
    cases left with
    | lit l => cases n' <;> exact operateOn_extends hev hsteps right op l
    | _ => exact unfinished_extends _
  | succ n ih =>
    intro n' hn left
    obtain ⟨n', rfl⟩ := Nat.exists_eq_add_of_lt hn
    cases left with
    | lit l => exact operateOn_extends hev hsteps right op l
    | _ => exact (hev _).bind fun left => ih (by omega) left

theorem repeatWhile_extends (hev : ∀ t, (ev t).Extends (ev' t)) {steps steps' : Nat}
    (hsteps : steps ≤ steps') (cond body : Term ν) :
    ∀ {n n' : Nat} (_ : n ≤ n'),
      (repeatWhile ev steps cond body n).Extends (repeatWhile ev' steps' cond body n') := by
  intro n
  induction n with
  | zero => intro n' _; exact unfinished_extends _
  | succ n ih =>
    intro n' hn
    obtain ⟨n', rfl⟩ := Nat.exists_eq_add_of_lt hn
    refine (coerce_extends hev Literal.truthy hsteps cond).bind fun b => ?_
    cases b with
    | true => exact (hev body).bind fun _ => ih (by omega)
    | false => exact .refl _

end

/-! ## Evaluation -/

namespace Term

variable {β σ ν : Type} {ev ev' : Term ν → EvalM (Machine β σ) (Term ν)} {n n' : Nat}

theorem stepUnary_extends [Bindings β ν] [Host σ] (hev : ∀ t, (ev t).Extends (ev' t)) (hn : n ≤ n')
    (f : Unary) (a : Term ν) : (stepUnary ev n f a).Extends (stepUnary ev' n' f a) := by
  have bool := coerce_extends hev Literal.truthy hn a
  have int := coerce_extends hev Literal.toInt hn a
  have text := coerce_extends hev Literal.toText hn a
  cases f with
  | eval => exact text.bind fun _ => (Extends.refl _).bind fun program => hev program
  | block => exact .refl _
  | call => exact (hev a).bind fun code => hev code
  | quit => exact int.bind fun _ => .refl _
  | not => exact bool.bind fun _ => .refl _
  | dump => exact (hev a).bind fun _ => .refl _
  | shell | length | output => exact text.bind fun _ => .refl _

theorem stepBinary_extends [Bindings β ν] (hev : ∀ t, (ev t).Extends (ev' t)) (hn : n ≤ n')
    (f : Binary) (a b : Term ν) : (stepBinary ev n f a b).Extends (stepBinary ev' n' f a b) := by
  cases f with
  | arith op =>
    exact (hev a).bind fun left => (hev b).bind fun right =>
      (operate_extends hev hn op right hn left).map lit
  | equal | less | greater => exact (hev a).bind fun _ => (hev b).bind fun _ => .refl _
  | and =>
    refine (hev a).bind fun left => (coerce_extends hev Literal.truthy hn left).bind fun t => ?_
    cases t
    · exact .refl _
    · exact hev b
  | or =>
    refine (hev a).bind fun left => (coerce_extends hev Literal.truthy hn left).bind fun t => ?_
    cases t
    · exact hev b
    · exact .refl _
  | seq => exact (hev a).bind fun _ => hev b
  | assign =>
    cases a with
    | var x => exact (hev b).bind fun _ => .refl _
    | _ => exact .refl _
  | loop => exact (repeatWhile_extends hev hn a b hn).bind fun _ => .refl _

theorem stepTernary_extends (hev : ∀ t, (ev t).Extends (ev' t)) (hn : n ≤ n') (f : Ternary)
    (a b c : Term ν) : (stepTernary ev n f a b c).Extends (stepTernary ev' n' f a b c) := by
  cases f with
  | branch =>
    refine (coerce_extends hev Literal.truthy hn a).bind fun t => ?_
    cases t
    · exact hev c
    · exact hev b
  | slice =>
    exact (coerce_extends hev Literal.toText hn a).bind fun _ =>
      (coerce_extends hev Literal.toInt hn b).bind fun _ =>
        (coerce_extends hev Literal.toInt hn c).bind fun _ => .refl _

theorem stepQuaternary_extends (hev : ∀ t, (ev t).Extends (ev' t)) (hn : n ≤ n')
    (f : Quaternary) (a b c d : Term ν) :
    (stepQuaternary ev n f a b c d).Extends (stepQuaternary ev' n' f a b c d) := by
  cases f with
  | splice =>
    exact (coerce_extends hev Literal.toText hn a).bind fun _ =>
      (coerce_extends hev Literal.toInt hn b).bind fun _ =>
        (coerce_extends hev Literal.toInt hn c).bind fun _ =>
          (coerce_extends hev Literal.toText hn d).bind fun _ => .refl _

variable [Bindings β ν] [Host σ]

theorem step_extends (hev : ∀ t, (ev t).Extends (ev' t)) (hn : n ≤ n') (t : Term ν) :
    (step ev n t).Extends (step ev' n' t) := by
  cases t with
  | lit | var | nullary => exact .refl _
  | unary f a => exact stepUnary_extends hev hn f a
  | binary f a b => exact stepBinary_extends hev hn f a b
  | ternary f a b c => exact stepTernary_extends hev hn f a b c
  | quaternary f a b c d => exact stepQuaternary_extends hev hn f a b c d

/-- More fuel never changes an outcome that is there. -/
theorem eval_extends (h : n ≤ n') (t : Term ν) :
    (eval n t : EvalM (Machine β σ) (Term ν)).Extends (eval n' t) := by
  induction n generalizing n' t with
  | zero => exact unfinished_extends _
  | succ n ih =>
    obtain ⟨n', rfl⟩ := Nat.exists_eq_add_of_lt h
    exact step_extends (fun t => ih (by omega) t) (by omega) t

end Term

end KnightLang
