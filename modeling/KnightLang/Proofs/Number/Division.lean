/-
Quotients and remainders. Division truncates toward zero and the remainder has the sign of the
dividend, so quotient times divisor plus remainder is the dividend: exactly, but for the least
number divided by -1, where the quotient wraps, and in wrapping arithmetic without exception
(`Number.division_laws`). Programs see the same (`Term.runSource_restored`).
-/
import KnightLang.Proofs.Session.Registering

namespace KnightLang

open EvalM

namespace Number

variable {a b : Int64}

/-! ## Quotients -/

theorem div_eq_ofInt (a b : Int64) : a / b = Int64.ofInt (a.toInt.tdiv b.toInt) := by
  rw [← Int64.toInt_inj, Int64.toInt_div, Int64.toInt_ofInt]

theorem mod_eq_ofInt (a b : Int64) : a % b = Int64.ofInt (a.toInt.tmod b.toInt) := by
  rw [← Int64.toInt_mod, Int64.ofInt_toInt]

/-- The identity of division holds for integers, and wrapping arithmetic is that of integers up to
multiples of `2 ^ 64`. -/
theorem div_mul_add_mod (a b : Int64) : a / b * b + a % b = a := by
  rw [div_eq_ofInt, mod_eq_ofInt]
  calc Int64.ofInt (a.toInt.tdiv b.toInt) * b + Int64.ofInt (a.toInt.tmod b.toInt)
      = Int64.ofInt (a.toInt.tdiv b.toInt) * Int64.ofInt b.toInt +
          Int64.ofInt (a.toInt.tmod b.toInt) := by rw [Int64.ofInt_toInt]
    _ = Int64.ofInt (a.toInt.tdiv b.toInt * b.toInt + a.toInt.tmod b.toInt) := by
        rw [← Int64.ofInt_mul, ← Int64.ofInt_add]
    _ = a := by rw [Int.tdiv_mul_add_tmod, Int64.ofInt_toInt]

theorem toInt_div_of_fits (h : ¬(a = Int64.minValue ∧ b = -1)) :
    (a / b).toInt = a.toInt.tdiv b.toInt := by
  by_cases ha : a = Int64.minValue
  · exact Int64.toInt_div_of_ne_right a b fun hb => h ⟨ha, hb⟩
  · exact Int64.toInt_div_of_ne_left a b ha

/-! ## Remainders -/

theorem natAbs_mod_lt (hb : b ≠ 0) : (a % b).toInt.natAbs < b.toInt.natAbs := by
  have pos : b.toInt ≠ 0 := fun h => hb (Int64.toInt_inj.1 h)
  rw [Int64.toInt_mod, Int.natAbs_tmod]
  exact Nat.mod_lt _ (Int.natAbs_pos.2 pos)

/-- A remainder other than zero has the sign of the dividend. -/
theorem sign_mod (a b : Int64) : a % b = 0 ∨ (a % b).toInt.sign = a.toInt.sign := by
  by_cases zero : a % b = 0
  · exact .inl zero
  · right
    have nonzero : a.toInt.tmod b.toInt ≠ 0 := by
      rw [← Int64.toInt_mod]
      exact fun h => zero (Int64.toInt_inj.1 h)
    rw [Int64.toInt_mod]
    rcases Int.lt_trichotomy a.toInt 0 with neg | none | pos
    · have := Int.tmod_nonneg b.toInt (Int.neg_nonneg_of_nonpos (Int.le_of_lt neg))
      rw [Int.neg_tmod] at this
      rw [Int.sign_eq_neg_one_of_neg neg, Int.sign_eq_neg_one_of_neg (by omega)]
    · rw [none, Int.zero_tmod] at nonzero
      exact absurd rfl nonzero
    · have := Int.tmod_nonneg b.toInt (Int.le_of_lt pos)
      rw [Int.sign_eq_one_of_pos pos, Int.sign_eq_one_of_pos (by omega)]

/-- What the quotient and the remainder of two numbers are. -/
structure Division (a b q r : Int64) : Prop where
  /-- In wrapping arithmetic, quotient and remainder give the dividend back. -/
  restores : q * b + r = a
  small : r.toInt.natAbs < b.toInt.natAbs
  sign : r = 0 ∨ r.toInt.sign = a.toInt.sign
  /-- The quotient is that of the integers, truncated toward zero, with one exception. -/
  truncates : ¬(a = Int64.minValue ∧ b = -1) →
    q.toInt = a.toInt.tdiv b.toInt ∧ q.toInt * b.toInt + r.toInt = a.toInt
  wraps : a = Int64.minValue → b = -1 → q = Int64.minValue ∧ r = 0

theorem division_of_ne_zero (hb : b ≠ 0) : Division a b (a / b) (a % b) where
  restores := div_mul_add_mod a b
  small := natAbs_mod_lt hb
  sign := sign_mod a b
  truncates h := by
    rw [toInt_div_of_fits h, Int64.toInt_mod]
    exact ⟨rfl, Int.tdiv_mul_add_tmod ..⟩
  wraps := by
    rintro rfl rfl
    decide

theorem eval_divide (hb : b ≠ 0) : Arith.eval .divide a b = .ok (a / b) := if_neg hb

theorem eval_modulo (hb : b ≠ 0) : Arith.eval .modulo a b = .ok (a % b) := if_neg hb

theorem eval_divide_error_iff {f : Fault} :
    Arith.eval .divide a b = .error f ↔ b = 0 ∧ f = .divisionByZero := by
  simp only [Arith.eval]
  split <;> simp_all [eq_comm]

theorem eval_modulo_error_iff {f : Fault} :
    Arith.eval .modulo a b = .error f ↔ b = 0 ∧ f = .moduloByZero := by
  simp only [Arith.eval]
  split <;> simp_all [eq_comm]

end Number

/-! ## Division in a program -/

namespace Term

variable {β σ ν : Type} [Bindings β ν] [Host σ]

/-- An operator on two expressions whose values are numbers. -/
theorem eval_arith {op : Arith} {x y : Term ν} {m m₁ m₂ : Machine β σ} {n : Nat} {a b c : Int64}
    (hx : (x.eval n).run m = .value (lit (.number a)) m₁)
    (hy : (y.eval n).run m₁ = .value (lit (.number b)) m₂) (h : op.eval a b = .ok c) :
    ((binary (.arith op) x y).eval (n + 1)).run m = .value (lit (.number c)) m₂ := by
  have applied : operate (eval (β := β) (σ := σ) n) n op (lit (.number b)) n (lit (.number a)) =
      Literal.number <$> ofFault (op.eval a b) := by
    cases n <;> rfl
  refine (run_bind_of_value hx).trans ((run_bind_of_value hy).trans ?_)
  rw [applied, h]
  rfl

theorem eval_var {x : ν} {v : Term ν} {m : Machine β σ} (n : Nat)
    (h : Bindings.value? m.bindings x = some v) : ((var x).eval (n + 1)).run m = .value v m := by
  show (Machine.lookup x).run m = _
  rw [Machine.run_lookup, h]

/-- The quotient of two variables times the second one, plus their remainder. -/
def restored (x y : ν) : Term ν :=
  binary (.arith .add)
    (binary (.arith .multiply) (binary (.arith .divide) (var x) (var y)) (var y))
    (binary (.arith .modulo) (var x) (var y))

theorem eval_restored {x y : ν} {m : Machine β σ} {a b : Int64} (n : Nat)
    (hx : Bindings.value? m.bindings x = some (lit (.number a)))
    (hy : Bindings.value? m.bindings y = some (lit (.number b))) (hb : b ≠ 0) :
    ((restored x y).eval (n + 4)).run m = .value (lit (.number a)) m := by
  have quotient := eval_arith (eval_var n hx) (eval_var n hy) (Number.eval_divide hb)
  have product := eval_arith quotient (eval_var (n + 1) hy)
    (rfl : Arith.eval .multiply (a / b) b = _)
  have remainder := eval_arith (eval_var (n + 1) hx) (eval_var (n + 1) hy) (Number.eval_modulo hb)
  refine eval_arith product remainder ?_
  exact congrArg Except.ok (Number.div_mul_add_mod a b)

theorem parse_restored : parse "+ * / a b b % a b" =
    ⟨.ok (restored "a" "b"), ["a", "b", "b", "a", "b"]⟩ :=
  Source.parse_eq_of_ok (by decide +kernel)

/-- Quotient times divisor plus remainder, as a program: its variables are known, so that reading it
changes nothing. -/
theorem runSource_restored [Bindings.Registry β ν] {m : Machine β σ} {a b : Int64} (n : Nat)
    (ha : Bindings.get? m.bindings "a" = some (lit (.number a)))
    (hb : Bindings.get? m.bindings "b" = some (lit (.number b))) (hne : b ≠ 0) :
    (runSource (n + 4) "+ * / a b b % a b").run m = .value (lit (.number a)) m := by
  have known {x : String} {v : Term ν} (h : Bindings.get? m.bindings x = some v) :
      Bindings.register m.bindings x = m.bindings := by
    refine Bindings.Registry.register_of_known _ x (Decidable.byContradiction fun hx => ?_)
    rw [Bindings.Registry.get?_of_unknown _ x hx] at h
    cases h
  have kept : Bindings.registerAll m.bindings ["a", "b", "b", "a", "b"] = m.bindings :=
    Bindings.registerAll_of_known (by simp [known ha, known hb])
  have read : (Machine.load "+ * / a b b % a b").run m =
      .value (restored (Bindings.resolve m.bindings "a") (Bindings.resolve m.bindings "b")) m := by
    rw [Machine.run_load, parse_restored]
    dsimp only
    rw [kept]
    rfl
  exact (run_bind_of_value read).trans (eval_restored n ha hb hne)

end Term

/-- The laws of division. A quotient and a remainder are refused if and only if the divisor is zero.
Else the remainder is less than the divisor in size and zero or of the sign of the dividend, the
quotient is that of the integers truncated toward zero, but for the least number divided by -1, and
quotient times divisor plus remainder wraps to the dividend; so the program that computes this has
the dividend as its value, on any machine on which its two variables are numbers. -/
theorem Number.division_laws (a b : Int64) :
    ((∃ f, Arith.eval .divide a b = .error f) ↔ b = 0) ∧
    ((∃ f, Arith.eval .modulo a b = .error f) ↔ b = 0) ∧
    (∀ f, Arith.eval .divide a b = .error f → f = .divisionByZero) ∧
    (∀ f, Arith.eval .modulo a b = .error f → f = .moduloByZero) ∧
    (b ≠ 0 →
      (∃ q r, Arith.eval .divide a b = .ok q ∧ Arith.eval .modulo a b = .ok r ∧
        Division a b q r) ∧
      ∀ {β σ ν : Type} [Bindings β ν] [Bindings.Registry β ν] [Host σ] (m : Machine β σ),
        Bindings.get? m.bindings "a" = some (.lit (.number a)) →
        Bindings.get? m.bindings "b" = some (.lit (.number b)) →
        ∀ n, (Term.runSource (n + 4) "+ * / a b b % a b").run m = .value (.lit (.number a)) m) := by
  refine ⟨?_, ?_, fun f h => (eval_divide_error_iff.1 h).2, fun f h => (eval_modulo_error_iff.1 h).2,
    fun hb => ⟨⟨_, _, eval_divide hb, eval_modulo hb, division_of_ne_zero hb⟩, ?_⟩⟩
  · simp [eval_divide_error_iff]
  · simp [eval_modulo_error_iff]
  · intro β σ ν _ _ _ m hx hy n
    exact Term.runSource_restored n hx hy hb

/-- The least number divided by -1: the quotient wraps. With -7 and 2, nothing does. -/
theorem Number.division_laws_least :
    let least : Term CellRef := .lit (.number Int64.minValue)
    let m : Machine Cells Scripted :=
      ⟨Bindings.set (Bindings.set ∅ "a" least) "b" (.lit (.number (-1))), {}, Draws.seeded 0⟩
    (∃ q r, Arith.eval .divide Int64.minValue (-1) = .ok q ∧
        Arith.eval .modulo Int64.minValue (-1) = .ok r ∧ Division Int64.minValue (-1) q r) ∧
      (Term.runSource 4 "+ * / a b b % a b").run m = .value least m ∧
      (∃ q r, Arith.eval .divide (-7) 2 = .ok q ∧ Arith.eval .modulo (-7) 2 = .ok r ∧
        Division (-7) 2 q r) ∧
      ∃ f, Arith.eval .divide 5 0 = .error f := by
  intro least m
  obtain ⟨-, -, -, -, laws⟩ := division_laws Int64.minValue (-1)
  obtain ⟨quotient, programs⟩ := laws (by decide)
  obtain ⟨-, -, -, -, others⟩ := division_laws (-7) 2
  exact ⟨quotient, programs m rfl rfl 0, (others (by decide)).1, (division_laws 5 0).1.2 rfl⟩

end KnightLang
