/-
Evaluation sees no more of a store than it is given names for. Which code runs is decided by what
variables hold, and variables are found by name at the time of evaluation, so the terms that stand
for a set of names have to be closed under evaluation: a term is confined to a set if all its
variables have names in the set and nothing in it runs text as a program, and a store is closed if
the names of the set are bound to confined terms only. Confined terms on closed stores stay confined
and leave all other names alone, and two stores that agree on the set cannot be told apart
(`Term.noninterference`).
-/
import KnightLang.Proofs.Machine.Parallel

namespace KnightLang

/-! ## Confined terms -/

/-- All variables of a term have names in `V`, and nothing in it runs text as a program. -/
def Term.Confined (V : Set String) (t : Term String) : Prop :=
  (∀ x, (Term.var x).Occurs t → x ∈ V) ∧ ∀ a, ¬(Term.unary .eval a).Occurs t

/-- An operation that only has to do with names in `V` and with terms confined to it. -/
def Operation.Confined (V : Set String) : Operation String → Prop
  | lookup x => x ∈ V
  | assign x value => x ∈ V ∧ value.Confined V
  | load _ => False
  | _ => True

section
variable {V : Set String} {t a : Term String}

theorem Term.Confined.of_args (hvar : ∀ x, t = .var x → x ∈ V) (heval : ∀ a, t ≠ .unary .eval a)
    (hargs : ∀ a ∈ t.args, a.Confined V) : t.Confined V := by
  constructor
  · intro x hx
    cases hx with
    | self => exact hvar x rfl
    | arg ha hx => exact (hargs _ ha).1 x hx
  · intro a ha
    cases ha with
    | self => exact heval a rfl
    | arg hb ha => exact (hargs _ hb).2 a ha

theorem Term.confined_lit (l : Literal) : (Term.lit l).Confined V :=
  .of_args (by simp) (by simp) (by simp [args])

theorem Term.Confined.arg (ht : t.Confined V) (ha : a ∈ t.args) : a.Confined V :=
  ⟨fun x hx => ht.1 x (.arg ha hx), fun b hb => ht.2 b (.arg ha hb)⟩

/-- A confined term asks for confined operations, if the terms that it hands on are confined. -/
theorem Term.Confined.asks {o : Operation String} (ht : t.Confined V) (ho : t.Asks o)
    (hterms : ∀ v ∈ o.terms, v.Confined V) : o.Confined V := by
  cases ho with
  | var x => exact ht.1 x .self
  | eval a source => exact ht.2 a .self
  | assign x b value =>
    have target : x ∈ V := ht.1 x (.arg (List.mem_cons_self ..) .self)
    exact ⟨target, hterms value (List.mem_singleton.2 rfl)⟩
  | _ => trivial

end

/-! ## Stores seen through some names -/

namespace Store

variable {V : Set String} {store store' : Store} {x : String} {v : Term String}

/-- The names in `V` are bound to terms that are confined to it. -/
def Closed (V : Set String) (store : Store) : Prop :=
  ∀ x ∈ V, ∀ t, store.value? x = some t → t.Confined V

/-- Of any names outside of `V`, two stores have the same entries in the same order. -/
def SameOutside (V : Set String) (store store' : Store) : Prop :=
  ∀ p : String → Bool, (∀ x ∈ V, p x = false) →
    store'.entries.filter (p ·.1) = store.entries.filter (p ·.1)

theorem Closed.assign (h : store.Closed V) (hv : v.Confined V) : (store.assign x v).Closed V := by
  intro y hy t ht
  rw [value?_assign] at ht
  split at ht
  · cases ht
    exact hv
  · exact h y hy t ht

theorem Closed.of_agrees (h : store.Closed V) (ha : store.Agrees V store') : store'.Closed V := by
  intro x hx t ht
  rw [ha x hx] at ht
  exact h x hx t ht

theorem filter_place {p : String × Content → Bool} (hp : ∀ c, p (x, c) = false) (c : Content)
    (entries : List (String × Content)) : (place x c entries).filter p = entries.filter p := by
  induction entries with
  | nil =>
    rw [place, List.filter_cons, hp c]
    rfl
  | cons entry entries ih =>
    unfold place
    split
    · rename_i hx
      -- The entry that is replaced and the new one are both left out.
      have hentry : p entry = false := by
        rw [← hp entry.2, ← hx]
      rw [List.filter_cons, List.filter_cons, hp c, hentry]
      rfl
    · rw [List.filter_cons, List.filter_cons, ih]

theorem sameOutside_assign (hx : x ∈ V) (v : Term String) :
    store.SameOutside V (store.assign x v) :=
  fun _ hp => filter_place (fun _ => hp x hx) (some v) store.entries

end Store

/-! ## Evaluation of confined terms -/

section
variable (V : Set String)

/-- Confined terms stay confined and leave the names outside of `V` alone. -/
def confinement : VariableInvariant Store String where
  holds := Store.Closed V
  change := Store.SameOutside V
  good _ := Term.Confined V
  allows _ := Operation.Confined V
  change_refl _ _ _ := rfl
  change_trans h h' p hp := (h' p hp).trans (h p hp)
  good_change _ ht := ht
  good_lit l _ := Term.confined_lit l
  good_arg ht ha := ht.arg ha
  allows_asked _ ht ho hterms := ht.asks ho hterms
  lookup hs hx hv := hs _ hx _ hv
  assign hs ho := ⟨Store.sameOutside_assign ho.1 _, hs.assign ho.2⟩
  load _ ho := ho.elim

end

/-- Two machines as the evaluation of a confined term leaves them behind, from one store each. They
cannot be told apart through `V`, and nothing else in the stores has changed. -/
structure Machine.AgreesAfter {σ : Type} (V : Set String) (store₁ store₂ : Store)
    (m₁ m₂ : Machine Store σ) : Prop where
  host : m₂.host = m₁.host
  draws : m₂.draws = m₁.draws
  agrees : m₁.bindings.Agrees V m₂.bindings
  closed₁ : m₁.bindings.Closed V
  closed₂ : m₂.bindings.Closed V
  outside₁ : store₁.SameOutside V m₁.bindings
  outside₂ : store₂.SameOutside V m₂.bindings

section
variable {V : Set String} {σ : Type} [Host σ]

/-- The evaluation of a term that is confined to `V`, on stores that agree on `V` and bind its names
to confined terms, with the same host and the same draws: both finish or neither does, with the same
value or the same halt, on the same host. The stores agree on `V` again and bind its names to
confined terms, and each of them is as it was outside of `V`. -/
theorem Term.noninterference {t : Term String} {store₁ store₂ : Store} (ht : t.Confined V)
    (hagrees : store₁.Agrees V store₂) (hclosed : store₁.Closed V) (host : σ) (draws : Draws)
    (fuel : Nat) :
    ((t.eval fuel).run ⟨store₁, host, draws⟩).Matches (Machine.AgreesAfter V store₁ store₂)
      (fun value value' => value' = value ∧ value.Confined V)
      ((t.eval fuel).run ⟨store₂, host, draws⟩) := by
  let I := (confinement V).onMachine σ
  let S : Simulation I id Store σ := .ofBindings (Store.Agrees.parallel fun _ _ hx => hx)
  have good : ∀ m, (Activity.evaluate t).Good I m := fun m => Activity.good_evaluate.2 ht
  have both := Activity.within_parallel (S := S) fuel (.evaluate t) ⟨store₁, host, draws⟩
    ⟨store₂, host, draws⟩ hclosed (good _) ⟨hagrees, rfl, rfl⟩
  have first := Activity.within_keeps fuel (m := ⟨store₁, host, draws⟩) hclosed (good _)
  have second := Activity.within_keeps fuel (m := ⟨store₂, host, draws⟩)
    (hclosed.of_agrees hagrees) (good _)
  simp only [Activity.map, Term.map_id, Activity.within] at both first second
  -- Each run keeps its own store closed and the rest of it as it was.
  refine (both.keeps first second).imp ?_ ?_
  · rintro m₁ m₂ ⟨⟨hb, hhost, hdraws⟩, ⟨hc₁, hm₁⟩, hc₂, hm₂⟩
    exact ⟨hhost, hdraws, hb, hm₁, hm₂, hc₁, hc₂⟩
  · rintro v v' ⟨rfl, _, hgood⟩
    exact ⟨Term.map_id v, Activity.goodAnswer_evaluate.1 hgood⟩

/-- `= x C x` runs the sum that `x` is bound to, and never finds the code that `y` is bound to. -/
theorem Term.call_confined :
    let V : Set String := {y | y = "x"}
    let t : Term String := .binary .assign (.var "x") (.unary .call (.var "x"))
    let sum : Term String := .binary (.arith .add) (.lit (.number 1)) (.lit (.number 1))
    let store₁ : Store := Store.assign ∅ "x" sum
    let store₂ : Store := (Store.assign ∅ "y" (.unary .eval (.var "z"))).assign "x" sum
    t.Confined V ∧ store₁.Agrees V store₂ ∧ store₁.Closed V ∧
      ∃ m₁ m₂ : Machine Store Scripted,
        (t.eval 4).run ⟨store₁, {}, Draws.seeded 0⟩ = .value (.lit (.number 2)) m₁ ∧
        (t.eval 4).run ⟨store₂, {}, Draws.seeded 0⟩ = .value (.lit (.number 2)) m₂ ∧
        Machine.AgreesAfter V store₁ store₂ m₁ m₂ := by
  intro V t sum store₁ store₂
  have target : (Term.var "x").Confined V :=
    .of_args (fun _ h => (Term.var.inj h).symm) (by simp) (by simp [args])
  have call : (Term.unary .call (.var "x")).Confined V :=
    .of_args (by simp) (by simp) (by simpa [args] using target)
  have ht : t.Confined V :=
    .of_args (by simp [t]) (by simp [t]) (by simpa [t, args] using ⟨target, call⟩)
  have hsum : sum.Confined V :=
    .of_args (by simp [sum]) (by simp [sum]) (by simpa [sum, args] using confined_lit _)
  have agrees : store₁.Agrees V store₂ := by
    rintro y rfl
    rw [Store.value?_assign, Store.value?_assign]
    rfl
  have closed : store₁.Closed V := by
    rintro y rfl u hu
    rw [Store.value?_assign] at hu
    cases hu
    exact hsum
  refine ⟨ht, agrees, closed, _, _, rfl, rfl, ?_⟩
  exact (Term.noninterference ht agrees closed ({} : Scripted) (Draws.seeded 0) 4).2

end

end KnightLang
