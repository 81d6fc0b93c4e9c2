/-
Coercions and operators by way of one loop. To force a term is to evaluate it, and again what it
comes to, until a literal is left (`Term.Forces`). A coercion reads the literal that forcing leaves,
and an operator is applied to the literals that its operands are forced to, the left one first
(`Activity.Operates`). What else happens on the way, where it halts and whether it ends at all is
up to forcing alone (`Activity.ends_by_forcing`).
-/
import KnightLang.Proofs.Machine.Halting

namespace KnightLang

open EvalM

/-! ## Outcomes -/

section
variable {μ α γ : Type}

/-- The outcome with another value. -/
def Outcome.map (f : α → γ) : Outcome μ α → Outcome μ γ
  | value a m => value (f a) m
  | halted h m => halted h m
  | unfinished => unfinished

theorem EvalM.run_map (f : α → γ) (x : EvalM μ α) (m : μ) :
    (f <$> x).run m = (x.run m).map f := by
  rw [map_eq_pure_bind, run_bind]
  cases x.run m <;> rfl

theorem Outcome.map_ne_unfinished {f : α → γ} {out : Outcome μ α} (h : out ≠ .unfinished) :
    out.map f ≠ .unfinished := by
  cases out with
  | unfinished => exact absurd rfl h
  | _ => nofun

theorem EvalM.run_ofHalt_ne_unfinished (result : Except Halt α) (m : μ) :
    (EvalM.ofHalt result).run m ≠ .unfinished := by
  cases result <;> nofun

end

/-! ## Operators on literals -/

/-- Whether an operator is defined for left operands of a kind. -/
def Arith.definedFor : Arith → Kind → Bool
  | _, .number => true
  | add, .text => true
  | multiply, .text => true
  | _, _ => false

/-- The result of an operator on two literals, of which the left one decides how the right one
counts. -/
def Arith.apply : Arith → Literal → Literal → Except Halt Literal
  | op, .number a, r =>
    match op.eval a r.toInt with
    | .ok n => .ok (.number n)
    | .error f => .error (.error (.fault f))
  | add, .text s, r => .ok (.text (s ++ r.toText))
  | multiply, .text s, r => (Text.repeated s r.toInt).map .text
  | op, l, _ => .error (.error (.fault (.unsupported op l.kind)))

/-- The result is of the kind of the left operand. -/
theorem Arith.kind_of_apply {op : Arith} {l r v : Literal} (h : op.apply l r = .ok v) :
    v.kind = l.kind := by
  cases l with
  | number a =>
    simp only [apply] at h
    split at h <;> cases h
    rfl
  | text s =>
    cases op with
    | add =>
      cases h
      rfl
    | multiply =>
      simp only [apply] at h
      cases hr : Text.repeated s r.toInt <;> rw [hr] at h <;> cases h
      rfl
    | _ => cases h
  | _ => cases op <;> cases h

/-! ## Forcing with fuel -/

section
variable {μ ν α : Type} {ev : Term ν → EvalM μ (Term ν)}

/-- Evaluates a term until a literal is left. -/
def force (ev : Term ν → EvalM μ (Term ν)) (n : Nat) (t : Term ν) : EvalM μ Literal :=
  coerce id ev n t

theorem force_lit (n : Nat) (l : Literal) : force ev n (.lit l) = pure l := by
  cases n <;> rfl

theorem force_succ {t : Term ν} (h : t.isLiteral = false) (n : Nat) :
    force ev (n + 1) t = ev t >>= force ev n := by
  cases t with
  | lit l => cases h
  | _ => rfl

/-- A coercion reads the literal that forcing leaves. -/
theorem coerce_eq_force (read : Literal → α) (n : Nat) (t : Term ν) :
    coerce read ev n t = read <$> force ev n t := by
  induction n generalizing t with
  | zero => cases t <;> rfl
  | succ n ih =>
    cases t with
    | lit l => rfl
    | _ =>
      rw [force_succ rfl, map_bind]
      exact congrArg (bind (ev _)) (funext ih)

/-- An operator looks at its right operand only if it is defined for the left one. -/
theorem operateOn_eq_force (steps : Nat) (right : Term ν) (op : Arith) (l : Literal) :
    operateOn ev steps right op l =
      if op.definedFor l.kind then force ev steps right >>= fun r => .ofHalt (op.apply l r)
      else .fault (.unsupported op l.kind) := by
  cases l with
  | number a =>
    rw [operateOn, coerce_eq_force, bind_map_left, if_pos (by cases op <;> rfl)]
    refine congrArg (bind _) (funext fun r => ?_)
    simp only [Arith.apply]
    cases op.eval a r.toInt <;> rfl
  | text s =>
    cases op with
    | add =>
      rw [operateOn, coerce_eq_force, bind_map_left]
      rfl
    | multiply =>
      rw [operateOn, coerce_eq_force, bind_map_left]
      refine congrArg (bind _) (funext fun r => ?_)
      simp only [Arith.apply]
      cases Text.repeated s r.toInt <;> rfl
    | _ => rfl
  | _ => cases op <;> rfl

/-- An operator forces its left operand first. -/
theorem operate_eq_force (steps : Nat) (op : Arith) (right : Term ν) (n : Nat) (left : Term ν) :
    operate ev steps op right n left = force ev n left >>= operateOn ev steps right op := by
  induction n generalizing left with
  | zero => cases left <;> rfl
  | succ n ih =>
    cases left with
    | lit l => rfl
    | _ =>
      rw [force_succ rfl, bind_assoc]
      exact congrArg (bind (ev _)) (funext ih)

end

/-! ## Forcing -/

variable {β σ ν : Type} [Bindings β ν] [Host σ]

/-- What forcing a term comes to: a literal is left alone; any other term is evaluated, which may
halt, and the term that it comes to is forced in turn. -/
inductive Term.Forces : Term ν → Machine β σ → Outcome (Machine β σ) Literal → Prop
  | literal (l : Literal) (m : Machine β σ) : Forces (.lit l) m (.value l m)
  | evaluated {t value : Term ν} {m m₁ : Machine β σ} {out : Outcome (Machine β σ) Literal} :
      t.isLiteral = false → (Activity.evaluate t).Yields m value m₁ → Forces value m₁ out →
      Forces t m out
  | halted {t : Term ν} {m m₁ : Machine β σ} {h : Halt} :
      t.isLiteral = false → (Activity.evaluate t).Halts m h m₁ → Forces t m (.halted h m₁)

namespace Term

variable {t : Term ν} {m : Machine β σ} {out : Outcome (Machine β σ) Literal}

theorem Forces.finished (h : t.Forces m out) : out ≠ .unfinished := by
  induction h with
  | literal | halted => nofun
  | evaluated _ _ _ ih => exact ih

/-- With enough fuel for evaluations and enough rounds, the loop comes to what forcing does. -/
theorem Forces.exists_fuel (h : t.Forces m out) :
    ∃ n, ∀ k j, n ≤ k → n ≤ j → (force (Term.eval k) j t).run m = out := by
  induction h with
  | literal l m =>
    refine ⟨0, fun k j _ _ => ?_⟩
    rw [force_lit, run_pure]
  | @evaluated t value m m₁ out ht yields _ ih =>
    obtain ⟨i, hi⟩ := yields
    obtain ⟨n, hn⟩ := ih
    -- One round more than for the value, and as much fuel as either evaluation wants.
    refine ⟨max i (n + 1), fun k j hk hj => ?_⟩
    obtain ⟨j, rfl⟩ := Nat.exists_eq_add_of_lt (show 0 < j by omega)
    rw [force_succ ht, run_bind, (eval_extends (show i ≤ k by omega) t).run_eq hi nofun]
    exact hn k _ (by omega) (by omega)
  | @halted t m m₁ h ht halts =>
    obtain ⟨i, hi⟩ := halts
    refine ⟨i + 1, fun k j hk hj => ?_⟩
    obtain ⟨j, rfl⟩ := Nat.exists_eq_add_of_lt (show 0 < j by omega)
    rw [force_succ ht, run_bind, (eval_extends (show i ≤ k by omega) t).run_eq hi nofun]

theorem forces_of_run {k j : Nat} (h : (force (Term.eval k) j t).run m = out)
    (hout : out ≠ .unfinished) : t.Forces m out := by
  induction j generalizing t m with
  | zero =>
    cases t with
    | lit l =>
      cases h
      exact .literal ..
    | _ => exact absurd h.symm hout
  | succ j ih =>
    cases t with
    | lit l =>
      cases h
      exact .literal ..
    | _ =>
      rw [force_succ rfl, run_bind] at h
      split at h
      · rename_i value m₁ hvalue
        exact .evaluated rfl ⟨k, hvalue⟩ (ih h)
      · rename_i e m₁ he
        cases h
        exact .halted rfl ⟨k, he⟩
      · exact absurd h.symm hout

/-- Forcing comes to one outcome at most. -/
theorem Forces.unique {out' : Outcome (Machine β σ) Literal} (h : t.Forces m out)
    (h' : t.Forces m out') : out' = out := by
  obtain ⟨n, hn⟩ := h.exists_fuel
  obtain ⟨n', hn'⟩ := h'.exists_fuel
  rw [← hn (max n n') (max n n') (by omega) (by omega),
    hn' (max n n') (max n n') (by omega) (by omega)]

end Term

/-! ## Coercions and operators -/

namespace Activity

/-- With enough fuel, an activity comes to this outcome. -/
def Ends (a : Activity ν) (m : Machine β σ) (out : Outcome (Machine β σ) a.Answer) : Prop :=
  out ≠ .unfinished ∧ ∃ n, (a.within n).run m = out

/-- What an operator comes to on a machine. -/
inductive Operates (op : Arith) (left right : Term ν) (m : Machine β σ) :
    Outcome (Machine β σ) Literal → Prop
  | leftHalted {h : Halt} {m₁ : Machine β σ} : left.Forces m (.halted h m₁) →
      Operates op left right m (.halted h m₁)
  /-- The right operand is not looked at. -/
  | unsupported {l : Literal} {m₁ : Machine β σ} : left.Forces m (.value l m₁) →
      op.definedFor l.kind = false →
      Operates op left right m (.halted (.error (.fault (.unsupported op l.kind))) m₁)
  | rightHalted {l : Literal} {h : Halt} {m₁ m₂ : Machine β σ} : left.Forces m (.value l m₁) →
      op.definedFor l.kind = true → right.Forces m₁ (.halted h m₂) →
      Operates op left right m (.halted h m₂)
  | applied {l r : Literal} {m₁ m₂ : Machine β σ} : left.Forces m (.value l m₁) →
      op.definedFor l.kind = true → right.Forces m₁ (.value r m₂) →
      Operates op left right m ((EvalM.ofHalt (op.apply l r)).run m₂)

section
variable {m : Machine β σ} {op : Arith} {left right t : Term ν}
  {out : Outcome (Machine β σ) Literal}

theorem ends_coerce_iff {w : Want} {out : Outcome (Machine β σ) w.Answer} :
    (coerce w t).Ends m out ↔ ∃ forced, t.Forces m forced ∧ out = forced.map w.read := by
  constructor
  · rintro ⟨hout, n, hn⟩
    rw [within, coerce_eq_force, run_map] at hn
    refine ⟨_, Term.forces_of_run rfl fun h => ?_, hn.symm⟩
    rw [h] at hn
    exact hout hn.symm
  · rintro ⟨forced, hforced, rfl⟩
    obtain ⟨n, hn⟩ := hforced.exists_fuel
    refine ⟨Outcome.map_ne_unfinished hforced.finished, n, ?_⟩
    rw [within, coerce_eq_force, run_map, hn n n (by omega) (by omega)]

theorem Operates.finished (h : Operates op left right m out) : out ≠ .unfinished := by
  cases h with
  | applied => exact run_ofHalt_ne_unfinished _ _
  | _ => nofun

theorem run_operate (n : Nat) : ((operate op left right).within n).run m =
    (force (Term.eval n) n left >>= fun l =>
      if op.definedFor l.kind then
        force (Term.eval n) n right >>= fun r => .ofHalt (op.apply l r)
      else .fault (.unsupported op l.kind)).run m := by
  rw [within, operate_eq_force, funext (operateOn_eq_force n right op)]

theorem operates_of_run {n : Nat} (h : ((operate op left right).within n).run m = out)
    (hout : out ≠ .unfinished) : Operates op left right m out := by
  rw [run_operate, run_bind] at h
  cases hleft : (force (Term.eval n) n left).run m with
  | unfinished =>
    rw [hleft] at h
    exact absurd h.symm hout
  | halted e m₁ =>
    rw [hleft] at h
    cases h
    exact .leftHalted (Term.forces_of_run hleft nofun)
  | value l m₁ =>
    have forced := Term.forces_of_run hleft nofun
    rw [hleft] at h
    dsimp only at h
    split at h
    · rename_i hdefined
      rw [run_bind] at h
      cases hright : (force (Term.eval n) n right).run m₁ with
      | unfinished =>
        rw [hright] at h
        exact absurd h.symm hout
      | halted e m₂ =>
        rw [hright] at h
        cases h
        exact .rightHalted forced hdefined (Term.forces_of_run hright nofun)
      | value r m₂ =>
        rw [hright] at h
        cases h
        exact .applied forced hdefined (Term.forces_of_run hright nofun)
    · rename_i hdefined
      cases h
      exact .unsupported forced (by simpa using hdefined)

theorem Operates.exists_fuel (h : Operates op left right m out) :
    ∃ n, ((operate op left right).within n).run m = out := by
  cases h with
  | leftHalted hleft =>
    obtain ⟨n, hn⟩ := hleft.exists_fuel
    refine ⟨n, ?_⟩
    rw [run_operate, run_bind, hn n n (by omega) (by omega)]
  | unsupported hleft hdefined =>
    obtain ⟨n, hn⟩ := hleft.exists_fuel
    refine ⟨n, ?_⟩
    rw [run_operate, run_bind, hn n n (by omega) (by omega)]
    simp only [hdefined, Bool.false_eq_true, if_false, run_fault]
  | rightHalted hleft hdefined hright | applied hleft hdefined hright =>
    -- The larger of two fuels serves both operands.
    obtain ⟨n, hn⟩ := hleft.exists_fuel
    obtain ⟨k, hk⟩ := hright.exists_fuel
    refine ⟨max n k, ?_⟩
    rw [run_operate, run_bind, hn _ _ (by omega) (by omega)]
    simp only [hdefined, if_true, run_bind, hk (max n k) (max n k) (by omega) (by omega)]

theorem ends_operate_iff : (operate op left right).Ends m out ↔ Operates op left right m out :=
  ⟨fun ⟨hout, _, hn⟩ => operates_of_run hn hout, fun h => ⟨h.finished, h.exists_fuel⟩⟩

theorem Operates.kind_eq {v : Literal} {m' : Machine β σ}
    (h : Operates op left right m (.value v m')) :
    ∃ l m₁, left.Forces m (.value l m₁) ∧ v.kind = l.kind := by
  generalize hout : Outcome.value v m' = out at h
  cases h with
  | @applied l r m₁ m₂ hleft _ _ =>
    cases happly : op.apply l r with
    | ok w =>
      rw [happly] at hout
      cases hout
      exact ⟨l, m₁, hleft, Arith.kind_of_apply happly⟩
    | error e =>
      rw [happly] at hout
      cases hout
  | _ => cases hout

end

/-- There is one way to get at a literal. Forcing a term comes to one outcome at most, and the three
coercions come to the same outcome, with the literal read as they want it. An operator comes to what
forcing its operands does: it halts where the left one does, does not look at the right one if it is
not defined for the literal on its left, halts where the right one does from there on, and else is
the operator on the two literals. A value of it is of the kind of the literal on its left. -/
theorem ends_by_forcing (m : Machine β σ) :
    (∀ (t : Term ν) out out', t.Forces m out → t.Forces m out' → out' = out) ∧
    (∀ (w : Want) (t : Term ν) out, (coerce w t).Ends m out ↔
      ∃ forced, t.Forces m forced ∧ out = forced.map w.read) ∧
    (∀ op (left right : Term ν) out, (operate op left right).Ends m out ↔
      Operates op left right m out) ∧
    (∀ op (left right : Term ν) v m', (operate op left right).Ends m (.value v m') →
      ∃ l m₁, left.Forces m (.value l m₁) ∧ v.kind = l.kind) :=
  ⟨fun _ _ _ h h' => h.unique h', fun _ _ _ => ends_coerce_iff, fun _ _ _ _ => ends_operate_iff,
    fun _ _ _ _ _ h => (ends_operate_iff.1 h).kind_eq⟩

/-- A variable that holds the code of a sum is forced in two rounds, as a text and as the left operand
of a product. A difference from a text does not look at it. -/
theorem ends_stored_sum :
    let sum : Term String := .binary (.arith .add) (.lit (.number 1)) (.lit (.number 2))
    let m : Machine Store Scripted := ⟨Store.assign ∅ "x" sum, {}, Draws.seeded 0⟩
    (Term.var "x").Forces m (.value (.number 3) m) ∧
    (∀ out, (Term.var "x").Forces m out → out = .value (.number 3) m) ∧
    (coerce .text (.var "x")).Ends m (.value "3" m) ∧
    (operate .multiply (.var "x") (.lit (.text "2"))).Ends m (.value (.number 6) m) ∧
    (∃ l m₁, (Term.var "x").Forces m (.value l m₁) ∧ Kind.number = l.kind) ∧
    (operate .subtract (.lit (.text "a")) (.var "x")).Ends m
      (.halted (.error (.fault (.unsupported .subtract .text))) m) := by
  intro sum m
  have held : (evaluate (.var "x")).Yields m sum m := ⟨1, rfl⟩
  have call : (evaluate sum).Yields m (.lit (.number 3)) m := ⟨2, rfl⟩
  have three : (Term.var "x").Forces m (.value (.number 3) m) :=
    .evaluated rfl held (.evaluated rfl call (.literal _ _))
  have product : (operate .multiply (.var "x") (.lit (.text "2"))).Ends m (.value (.number 6) m) := by
    refine ((ends_by_forcing m).2.2.1 _ _ _ _).2 ?_
    have six : Arith.multiply.apply (.number 3) (.text "2") = .ok (.number 6) := rfl
    have applied : Operates .multiply (.var "x") (.lit (.text "2")) m
        ((EvalM.ofHalt (Arith.multiply.apply (.number 3) (.text "2"))).run m) :=
      .applied three rfl (.literal _ _)
    rwa [six] at applied
  exact ⟨three, fun out h => (ends_by_forcing m).1 _ _ _ three h,
    ((ends_by_forcing m).2.1 _ _ _).2 ⟨_, three, rfl⟩, product,
    (ends_by_forcing m).2.2.2 _ _ _ _ _ product,
    ((ends_by_forcing m).2.2.1 _ _ _ _).2 (.unsupported (.literal _ _) rfl)⟩

end Activity

end KnightLang
