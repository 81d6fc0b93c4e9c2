/-
Order and equality of values. Two numbers, two texts or two truth values have an order, and nothing
else has: each of the three is ordered totally, and what is equal in the order is the same value.
So of two values that have an order, exactly one of `<`, `>` and `?` holds
(`Term.order_fits_equality`). Equality is symmetric and transitive, but code is not even equal to
itself.
-/
import KnightLang.Host.Scripted
import KnightLang.Machine.Eval
import KnightLang.Proofs.Text.Order

namespace KnightLang.Term

open EvalM

variable {ν : Type} {a b c : Term ν} {o p : Ordering}

/-! ## Equality -/

theorem same_iff : a.same b = true ↔ a = b ∧ a.isLiteral = true := by
  cases a with
  | lit k => cases b <;> simp [same, isLiteral]
  | var | nullary | unary | binary | ternary | quaternary => simp [same, isLiteral]

theorem same_comm (a b : Term ν) : a.same b = b.same a := by
  rw [Bool.eq_iff_iff, same_iff, same_iff]
  constructor <;>
  · rintro ⟨rfl, h⟩
    exact ⟨rfl, h⟩

theorem same_trans (h : a.same b = true) (h' : b.same c = true) : a.same c = true := by
  obtain ⟨rfl, -⟩ := same_iff.1 h
  exact h'

theorem same_self_iff : a.same a = true ↔ a.isLiteral = true := by
  rw [same_iff]
  exact and_iff_right rfl

/-! ## Values with an order -/

/-- Two numbers, two texts or two truth values. -/
def Comparable (a b : Term ν) : Prop :=
  a.kind = b.kind ∧ (a.kind = .number ∨ a.kind = .text ∨ a.kind = .boolean)

/-- Two values have an order if both stand in one of the three orders. -/
theorem compare_eq_ok_iff : a.compare b = .ok o ↔
    (∃ x y : Int64, a = lit (.number x) ∧ b = lit (.number y) ∧ Ord.compare x y = o) ∨
    (∃ s t : String, a = lit (.text s) ∧ b = lit (.text t) ∧ Text.byteOrder s t = o) ∨
    (∃ x y : Bool, a = lit (.bool x) ∧ b = lit (.bool y) ∧ Ord.compare x y = o) := by
  unfold compare
  split <;> simp_all

theorem exists_literal (h : a.kind = .number ∨ a.kind = .text ∨ a.kind = .boolean) :
    ∃ l, a = lit l := by
  cases a with
  | lit l => exact ⟨l, rfl⟩
  | var | nullary | unary | binary | ternary | quaternary => simp [kind] at h

theorem exists_compare_iff : (∃ o, a.compare b = .ok o) ↔ a.Comparable b := by
  constructor
  · rintro ⟨o, h⟩
    obtain ⟨x, y, rfl, rfl, -⟩ | ⟨s, t, rfl, rfl, -⟩ | ⟨x, y, rfl, rfl, -⟩ :=
      compare_eq_ok_iff.1 h
    · exact ⟨rfl, .inl rfl⟩
    · exact ⟨rfl, .inr (.inl rfl)⟩
    · exact ⟨rfl, .inr (.inr rfl)⟩
  · rintro ⟨same, ordered⟩
    obtain ⟨k, rfl⟩ := exists_literal ordered
    rw [same] at ordered
    obtain ⟨l, rfl⟩ := exists_literal ordered
    cases k <;> cases l <;> simp_all [kind, Literal.kind, compare]

theorem compare_of_not_comparable (h : ¬a.Comparable b) :
    a.compare b = .error (.incomparable a.kind b.kind) := by
  rw [← exists_compare_iff] at h
  unfold compare at h ⊢
  split <;> simp_all

/-! ## The laws of the order -/

theorem compare_swap (h : a.compare b = .ok o) : b.compare a = .ok o.swap := by
  obtain ⟨x, y, rfl, rfl, rfl⟩ | ⟨s, t, rfl, rfl, rfl⟩ | ⟨x, y, rfl, rfl, rfl⟩ :=
    compare_eq_ok_iff.1 h
  · exact congrArg Except.ok (Std.OrientedOrd.eq_swap)
  · exact congrArg Except.ok (Std.OrientedCmp.eq_swap)
  · exact congrArg Except.ok (Std.OrientedOrd.eq_swap)

/-- What is equal in the order is the same value. -/
theorem eq_iff_same (h : a.compare b = .ok o) : o = .eq ↔ a.same b = true := by
  obtain ⟨x, y, rfl, rfl, rfl⟩ | ⟨s, t, rfl, rfl, rfl⟩ | ⟨x, y, rfl, rfl, rfl⟩ :=
    compare_eq_ok_iff.1 h
  all_goals
    rw [Std.LawfulEqCmp.compare_eq_iff_eq]
    simp [same]

/-- In a total order, two steps upward are ordered as the first of them that is no equality. -/
theorem cmp_then {α : Type} {cmp : α → α → Ordering} [Std.TransCmp cmp] {x y z : α}
    (h : (cmp x y).isLE = true) (h' : (cmp y z).isLE = true) :
    cmp x z = (cmp x y).then (cmp y z) := by
  cases hxy : cmp x y with
  | lt => exact Std.TransCmp.lt_of_lt_of_isLE hxy h'
  | eq => exact Std.TransCmp.congr_left hxy
  | gt =>
    rw [hxy] at h
    cases h

theorem compare_then {c : Term ν} (h : a.compare b = .ok o) (h' : b.compare c = .ok p)
    (ho : o.isLE = true) (hp : p.isLE = true) : a.compare c = .ok (o.then p) := by
  obtain ⟨x, y, rfl, rfl, rfl⟩ | ⟨s, t, rfl, rfl, rfl⟩ | ⟨x, y, rfl, rfl, rfl⟩ :=
    compare_eq_ok_iff.1 h <;>
  obtain ⟨y', z, hy, rfl, rfl⟩ | ⟨t', u, hy, rfl, rfl⟩ | ⟨y', z, hy, rfl, rfl⟩ :=
    compare_eq_ok_iff.1 h' <;>
  cases hy <;>
  exact congrArg Except.ok (cmp_then ho hp)

/-! ## Comparing in a program -/

section
variable {β σ : Type} [Bindings β ν] [Host σ] {x y : Term ν} {m m₁ m₂ : Machine β σ} {n : Nat}

theorem eval_equal (hx : (x.eval n).run m = .value a m₁) (hy : (y.eval n).run m₁ = .value b m₂) :
    ((binary .equal x y).eval (n + 1)).run m = .value (lit (.bool (a.same b))) m₂ :=
  (run_bind_of_value hx).trans (run_bind_of_value hy)

theorem eval_less (hx : (x.eval n).run m = .value a m₁) (hy : (y.eval n).run m₁ = .value b m₂)
    (h : a.compare b = .ok o) :
    ((binary .less x y).eval (n + 1)).run m = .value (lit (.bool (o == .lt))) m₂ := by
  refine (run_bind_of_value hx).trans ((run_bind_of_value hy).trans ?_)
  rw [h]
  rfl

theorem eval_greater (hx : (x.eval n).run m = .value a m₁) (hy : (y.eval n).run m₁ = .value b m₂)
    (h : a.compare b = .ok o) :
    ((binary .greater x y).eval (n + 1)).run m = .value (lit (.bool (o == .gt))) m₂ := by
  refine (run_bind_of_value hx).trans ((run_bind_of_value hy).trans ?_)
  rw [h]
  rfl

/-- The order of values and their equality. Texts are ordered by the bytes of their UTF-8 forms,
which is the order of their sequences of scalar values. Two values have an order if and only if they
are two numbers, two texts or two truth values, and else the fault names their kinds; the order is
total, and equal in it is what is the same. So of two expressions whose values have an order exactly
one of `<`, `>` and `?` holds. Equality is symmetric and transitive, and what is the same as itself
is a literal. -/
theorem order_fits_equality (a b c : Term ν) :
    (∀ s t : String, Ord.compare (Text.bytes s) (Text.bytes t) =
        Ord.compare (s.toList.map Char.toNat) (t.toList.map Char.toNat) ∧
      (lit (.text s) : Term ν).compare (lit (.text t)) =
        .ok (Ord.compare (Text.bytes s) (Text.bytes t))) ∧
    ((∃ o, a.compare b = .ok o) ↔ a.Comparable b) ∧
    (¬a.Comparable b → a.compare b = .error (.incomparable a.kind b.kind)) ∧
    (∀ o, a.compare b = .ok o →
      b.compare a = .ok o.swap ∧ (o = .eq ↔ a.same b = true) ∧
      ∀ p, b.compare c = .ok p → o.isLE = true → p.isLE = true → a.compare c = .ok (o.then p)) ∧
    (a.Comparable b → ∀ (x y : Term ν) (m m₁ m₂ : Machine β σ) (n : Nat),
      (x.eval n).run m = .value a m₁ → (y.eval n).run m₁ = .value b m₂ →
      ∃ less greater equal : Bool,
        ((binary .less x y).eval (n + 1)).run m = .value (lit (.bool less)) m₂ ∧
        ((binary .greater x y).eval (n + 1)).run m = .value (lit (.bool greater)) m₂ ∧
        ((binary .equal x y).eval (n + 1)).run m = .value (lit (.bool equal)) m₂ ∧
        [less, greater, equal].count true = 1) ∧
    a.same b = b.same a ∧
    (a.same b = true → b.same c = true → a.same c = true) ∧
    (a.same a = true ↔ a.isLiteral = true) := by
  refine ⟨fun s t => ⟨Text.byteOrder_eq_compare s t, rfl⟩, exists_compare_iff,
    compare_of_not_comparable, ?_, ?_, same_comm a b, same_trans, same_self_iff⟩
  · intro o h
    exact ⟨compare_swap h, eq_iff_same h, fun p h' ho hp => compare_then h h' ho hp⟩
  · intro ordered x y m m₁ m₂ n hx hy
    obtain ⟨o, h⟩ := exists_compare_iff.2 ordered
    refine ⟨o == .lt, o == .gt, a.same b, eval_less hx hy h, eval_greater hx hy h,
      eval_equal hx hy, ?_⟩
    have hsame := eq_iff_same h
    cases o <;> simp_all

/-- Characters of one, two and four bytes, in the order of their scalar values. A text and a number
have no order. -/
theorem order_fits_equality_bytes :
    let m : Machine Store Scripted := ⟨∅, {}, Draws.seeded 0⟩
    let z : Term String := lit (.text "z")
    let e : Term String := lit (.text "é")
    let note : Term String := lit (.text "𝄞")
    z.compare e = .ok .lt ∧ e.compare note = .ok .lt ∧ z.compare note = .ok .lt ∧
      e.compare z = .ok .gt ∧ z.same e = false ∧
      (∃ less greater equal : Bool,
        ((binary .less z e).eval 2).run m = .value (lit (.bool less)) m ∧
        ((binary .greater z e).eval 2).run m = .value (lit (.bool greater)) m ∧
        ((binary .equal z e).eval 2).run m = .value (lit (.bool equal)) m ∧
        [less, greater, equal].count true = 1) ∧
      z.compare (lit (.number 1)) = .error (.incomparable .text .number) := by
  intro m z e note
  have ze : z.compare e = .ok .lt := rfl
  have en : e.compare note = .ok .lt := rfl
  obtain ⟨-, -, -, laws, one, -, -, -⟩ :=
    order_fits_equality (β := Store) (σ := Scripted) z e note
  obtain ⟨swapped, same, trans⟩ := laws .lt ze
  have unlike : z.same e = false := by
    rw [← Bool.not_eq_true, ← same]
    nofun
  have no : ¬z.Comparable (lit (.number 1)) := by
    rintro ⟨h, -⟩
    cases h
  exact ⟨ze, en, trans .lt en rfl rfl, swapped, unlike,
    one (exists_compare_iff.1 ⟨_, ze⟩) z e m m m 1 rfl rfl,
    (order_fits_equality (β := Store) (σ := Scripted) z (lit (.number 1)) e).2.2.1 no⟩

end

end KnightLang.Term
