/-
Where code comes from. Evaluation takes terms apart and hands them around, but unless it runs text
as a program it never makes any: all code that is evaluated, assigned or returned stands somewhere
in the terms that are in sight at the start, which are those that are evaluated and those that
variables are bound to. In particular only assignments that are written there can change a variable
(`Activity.only_assignments_change`).
-/
import KnightLang.Proofs.Machine.Confinement

namespace KnightLang

/-! ## Parts of terms -/

section
variable {ν : Type} {S : Set (Term ν)} {t u a : Term ν}

theorem Term.Occurs.trans (h : a.Occurs t) (h' : t.Occurs u) : a.Occurs u := by
  induction h' with
  | self => exact h
  | arg hb _ ih => exact .arg hb ih

theorem Term.not_occurs_of_args {node : Term ν} (hne : t ≠ node)
    (hargs : ∀ a ∈ t.args, ¬node.Occurs a) : ¬node.Occurs t := by
  intro h
  cases h with
  | self => exact hne rfl
  | arg ha hnode => exact hargs _ ha hnode

/-- Nothing in a term runs text as a program. -/
def Term.EvalFree (t : Term ν) : Prop := ∀ a, ¬(Term.unary .eval a).Occurs t

/-- Nothing in a term assigns to the variable `x`. -/
def Term.NeverAssigns (x : ν) (t : Term ν) : Prop :=
  ∀ b, ¬(Term.binary .assign (.var x) b).Occurs t

theorem Term.EvalFree.of_args (heval : ∀ a, t ≠ .unary .eval a)
    (hargs : ∀ a ∈ t.args, a.EvalFree) : t.EvalFree :=
  fun b => not_occurs_of_args (heval b) fun a ha => hargs a ha b

theorem Term.NeverAssigns.of_args {x : ν} (hassign : ∀ b, t ≠ .binary .assign (.var x) b)
    (hargs : ∀ a ∈ t.args, a.NeverAssigns x) : t.NeverAssigns x :=
  fun b => not_occurs_of_args (hassign b) fun a ha => hargs a ha b

/-- A literal, or code that stands somewhere in a term of `S`. -/
def Term.ComesFrom (S : Set (Term ν)) (t : Term ν) : Prop :=
  t.isLiteral = true ∨ ∃ u ∈ S, t.Occurs u

theorem Term.comesFrom_lit (l : Literal) : (Term.lit l).ComesFrom S := .inl rfl

theorem Term.comesFrom_of_mem (h : t ∈ S) : t.ComesFrom S := .inr ⟨t, h, .self⟩

theorem Term.ComesFrom.arg (h : t.ComesFrom S) (ha : a ∈ t.args) : a.ComesFrom S := by
  rcases h with h | ⟨u, hu, ht⟩
  · cases t with
    | lit l => cases ha
    | _ => cases h
  · exact .inr ⟨u, hu, Occurs.trans (.arg ha .self) ht⟩

/-- Code comes from a term that it stands in. -/
theorem Term.ComesFrom.exists_occurs (h : t.ComesFrom S) (ht : t.isLiteral = false) :
    ∃ u ∈ S, t.Occurs u := by
  rcases h with h | h
  · rw [ht] at h
    cases h
  · exact h

end

/-! ## Evaluation makes no code -/

/-- The variables that terms assign to. -/
def assignedIn (S : Set (Term String)) : Set String := {x | ∃ u ∈ S, ¬u.NeverAssigns x}

/-- An operation that only hands on code of `S`, and assigns where this code does. -/
def Operation.ComesFrom (S : Set (Term String)) : Operation String → Prop
  | assign x value => x ∈ assignedIn S ∧ value.ComesFrom S
  | load _ => False
  | _ => True

namespace Store

variable {S : Set (Term String)} {V : Set String} {store store' : Store} {x : String}

/-- All terms that are bound come from `S`. -/
def ComesFrom (S : Set (Term String)) (store : Store) : Prop :=
  ∀ x t, store.value? x = some t → t.ComesFrom S

theorem ComesFrom.assign (h : store.ComesFrom S) {v : Term String} (hv : v.ComesFrom S) :
    (store.assign x v).ComesFrom S := by
  intro y t ht
  rw [value?_assign] at ht
  split at ht
  · cases ht
    exact hv
  · exact h y t ht

theorem lookup_filter {p : String → Bool} (hx : p x = true) (entries : List (String × Content)) :
    (entries.filter (p ·.1)).lookup x = entries.lookup x := by
  induction entries with
  | nil => rfl
  | cons entry entries ih =>
    rw [List.filter_cons, lookup_cons x entry entries]
    split
    · rw [lookup_cons, ih]
    · rename_i hentry
      -- An entry that is left out has another name.
      have hne : x ≠ entry.1 := fun he => hentry (he ▸ hx)
      rw [ih, if_neg hne]

/-- A name outside of `V` has the same value in both stores. -/
theorem SameOutside.value? (h : store.SameOutside V store') (hx : x ∉ V) :
    store'.value? x = store.value? x := by
  let p : String → Bool := (· == x)
  have same := h p fun y hy => beq_eq_false_iff_ne.2 fun he => hx (he ▸ hy)
  have hp : p x = true := beq_self_eq_true x
  unfold Store.value?
  rw [← lookup_filter hp store'.entries, same, lookup_filter hp]

end Store

/-- What a term of `S` asks for comes from `S`, if nothing in `S` runs text as a program. -/
theorem Term.ComesFrom.asks {S : Set (Term String)} (hS : ∀ u ∈ S, u.EvalFree) {t : Term String}
    {o : Operation String} (ht : t.ComesFrom S) (ho : t.Asks o)
    (hterms : ∀ v ∈ o.terms, v.ComesFrom S) : o.ComesFrom S := by
  cases ho with
  | eval a source =>
    obtain ⟨u, hu, ha⟩ := ht.exists_occurs rfl
    exact hS u hu a ha
  | assign x b value =>
    obtain ⟨u, hu, ha⟩ := ht.exists_occurs rfl
    exact ⟨⟨u, hu, fun h => h b ha⟩, hterms value (List.mem_singleton.2 rfl)⟩
  | _ => trivial

/-- Evaluation keeps to the code of `S`, and changes no variable that this code does not assign
to. -/
def provenance (S : Set (Term String)) (hS : ∀ u ∈ S, u.EvalFree) :
    VariableInvariant Store String where
  holds := Store.ComesFrom S
  change := Store.SameOutside (assignedIn S)
  good _ := Term.ComesFrom S
  allows _ := Operation.ComesFrom S
  change_refl _ _ _ := rfl
  change_trans h h' p hp := (h' p hp).trans (h p hp)
  good_change _ ht := ht
  good_lit l _ := Term.comesFrom_lit l
  good_arg ht ha := ht.arg ha
  allows_asked _ ht ho hterms := ht.asks hS ho hterms
  lookup hs _ hv := hs _ _ hv
  assign hs ho := ⟨Store.sameOutside_assign ho.1 _, hs.assign ho.2⟩
  load _ ho := ho.elim

/-! ## Terms in sight -/

/-- The terms that an activity is given and those that variables are bound to. -/
def Activity.inSight (store : Store) (a : Activity String) : Set (Term String) :=
  {t | t ∈ a.terms ∨ ∃ x, store.value? x = some t}

section
variable {σ : Type} [Host σ] {a : Activity String} {m : Machine Store σ}

theorem Store.comesFrom_inSight (store : Store) (a : Activity String) :
    store.ComesFrom (a.inSight store) :=
  fun x _ ht => Term.comesFrom_of_mem (.inr ⟨x, ht⟩)

theorem Activity.good_inSight (ha : ∀ source, a ≠ .run source)
    (hfree : ∀ t ∈ a.inSight m.bindings, t.EvalFree) :
    a.Good ((provenance (a.inSight m.bindings) hfree).onMachine σ) m :=
  ⟨fun _ ht => Term.comesFrom_of_mem (.inl ht), fun source h => absurd h (ha source)⟩

/-- An activity on terms, such as evaluating or coercing one, where nothing in sight runs text as a
program. However it ends: a variable that nothing in sight assigns to has the value that it had, and
whatever variables are bound to then is a literal or stands somewhere in the terms that were in
sight. So is the value that it ends with, if it ends with one. -/
theorem Activity.only_assignments_change (ha : ∀ source, a ≠ .run source)
    (hfree : ∀ t ∈ a.inSight m.bindings, t.EvalFree) (fuel : Nat) {m' : Machine Store σ}
    (h : ((a.within fuel).run m).machine? = some m') :
    (∀ x, (∀ t ∈ a.inSight m.bindings, t.NeverAssigns x) →
        m'.bindings.value? x = m.bindings.value? x) ∧
      (∀ x t, m'.bindings.value? x = some t → t.ComesFrom (a.inSight m.bindings)) ∧
      ∀ answer, (a.within fuel).run m = .value answer m' →
        ∀ t ∈ a.answered answer, t.ComesFrom (a.inSight m.bindings) := by
  have keeps := within_keeps fuel (m.bindings.comesFrom_inSight a) (good_inSight ha hfree)
  obtain ⟨hchange, hholds⟩ := keeps.machine h
  refine ⟨fun x hx => hchange.value? ?_, hholds, fun answer hvalue => ?_⟩
  · rintro ⟨u, hu, hassigns⟩
    exact hassigns (hx u hu)
  · rw [hvalue] at keeps
    exact keeps.2.2

/-- `C b` runs the code that `b` is bound to, which assigns the code `+ x y` to `y` and leaves `x`
as it is. -/
theorem Activity.stored_code_assigns :
    let sum : Term String := .binary (.arith .add) (.var "x") (.var "y")
    let code : Term String := .binary .assign (.var "y") (.unary .block sum)
    let store : Store := (Store.assign ∅ "x" (.lit (.number 7))).assign "b" code
    let m : Machine Store Scripted := ⟨store, {}, Draws.seeded 0⟩
    let a : Activity String := .evaluate (.unary .call (.var "b"))
    (∀ source, a ≠ .run source) ∧ (∀ t ∈ a.inSight m.bindings, t.EvalFree) ∧
      ∃ m', ((a.within 4).run m).machine? = some m' ∧ m'.bindings.value? "y" = some sum ∧
        m'.bindings.value? "x" = m.bindings.value? "x" ∧
        (∀ x t, m'.bindings.value? x = some t → t.ComesFrom (a.inSight m.bindings)) := by
  intro sum code store m a
  have noRun : ∀ source, a ≠ .run source := by simp [a]
  have seen : ∀ t ∈ a.inSight store,
      t = .unary .call (.var "b") ∨ t = code ∨ t = .lit (.number 7) := by
    rintro t (ht | ⟨x, hx⟩)
    · exact .inl (List.mem_singleton.1 ht)
    · simp only [store, Store.value?_assign] at hx
      split at hx
      · cases hx
        exact .inr (.inl rfl)
      · split at hx
        · cases hx
          exact .inr (.inr rfl)
        · cases hx
  -- Nothing of this runs text, and the only assignment is one to `y`.
  let Harmless (t : Term String) : Prop := t.EvalFree ∧ t.NeverAssigns "x"
  have of_args {t : Term String} (heval : ∀ b, t ≠ .unary .eval b)
      (hassign : ∀ b, t ≠ .binary .assign (.var "x") b) (hargs : ∀ b ∈ t.args, Harmless b) :
      Harmless t :=
    ⟨.of_args heval fun b hb => (hargs b hb).1, .of_args hassign fun b hb => (hargs b hb).2⟩
  have hvar (x : String) : Harmless (.var x) := of_args (by simp) (by simp) (by simp [Term.args])
  have hsum : Harmless sum :=
    of_args (by simp [sum]) (by simp [sum]) (by simp [sum, Term.args, hvar])
  have hblock : Harmless (.unary .block sum) :=
    of_args (by simp) (by simp) (by simp [Term.args, hsum])
  have harmless : ∀ t ∈ a.inSight store, Harmless t := by
    intro t ht
    rcases seen t ht with rfl | rfl | rfl
    · exact of_args (by simp) (by simp) (by simp [Term.args, hvar])
    · exact of_args (by simp [code]) (by simp [code]) (by simp [code, Term.args, hvar, hblock])
    · exact of_args (by simp) (by simp) (by simp [Term.args])
  have free : ∀ t ∈ a.inSight store, t.EvalFree := fun t ht => (harmless t ht).1
  have other : ∀ t ∈ a.inSight store, t.NeverAssigns "x" := fun t ht => (harmless t ht).2
  have run : ((a.within 4).run m).machine? = some ⟨store.assign "y" sum, {}, Draws.seeded 0⟩ := rfl
  obtain ⟨same, known, -⟩ := only_assignments_change noRun free 4 run
  refine ⟨noRun, free, _, run, ?_, same "x" other, known⟩
  rw [Store.value?_assign, if_pos rfl]

end

end KnightLang
