/-
Terms that do not meet. Which names the evaluation of a term may look up is settled when it starts:
those in the term and, from there on, those in the terms that names are bound to (`Term.Sees`). What
variables are bound to may change on the way, but only to code that was in sight from the start, so
only the assignments in this code change anything. If neither of two terms assigns to a name that
the other one sees, and neither of them asks for anything but variables, they can be evaluated in
either order (`Term.evaluations_commute`).
-/
import KnightLang.Proofs.Machine.Provenance
import KnightLang.Proofs.Session.Sequence
import KnightLang.Proofs.Session.WellFormed

namespace KnightLang

/-! ## What a term can come to -/

/-- The names that the evaluation of a term may look up: those in it, and those in the terms that
such names are bound to. -/
inductive Term.Sees (store : Store) (t : Term String) : String → Prop
  | here {x : String} : (Term.var x).Occurs t → Sees store t x
  | bound {x y : String} {u : Term String} : Sees store t x → store.value? x = some u →
      (Term.var y).Occurs u → Sees store t y

/-- A term with the terms that the names it sees are bound to. -/
def Term.code (store : Store) (t : Term String) : Set (Term String) :=
  {u | u = t ∨ ∃ x, t.Sees store x ∧ store.value? x = some u}

/-- The builtins that have to do with their arguments and with variables only: they neither read,
draw, write or run a command, nor do they run text as a program. -/
def Builtin.isQuiet : Builtin → Bool
  | nullary _ => false
  | unary .eval | unary .shell | unary .dump | unary .output => false
  | _ => true

/-- All calls in a term are calls of quiet builtins. -/
def Term.Quiet (t : Term String) : Prop :=
  ∀ node : Term String, node.Occurs t → ∀ f, node.builtin? = some f → f.isQuiet = true

section
variable {store : Store} {t u : Term String} {x : String}

theorem Term.Quiet.of_args (hf : ∀ f, t.builtin? = some f → f.isQuiet = true)
    (hargs : ∀ a ∈ t.args, a.Quiet) : t.Quiet := by
  intro node hnode
  cases hnode with
  | self => exact hf
  | arg ha hnode => exact hargs _ ha node hnode

theorem Term.quiet_lit (l : Literal) : (Term.lit l).Quiet := .of_args nofun (by simp [args])

/-- A term sees the names in all of its code. -/
theorem Term.sees_of_code (hu : u ∈ t.code store) (hx : (Term.var x).Occurs u) :
    t.Sees store x := by
  rcases hu with rfl | ⟨y, hy, hvalue⟩
  · exact .here hx
  · exact .bound hy hvalue hx

/-- A term sees the names that it assigns to. -/
theorem Term.sees_of_assigned (hx : x ∈ assignedIn (t.code store)) : t.Sees store x := by
  obtain ⟨u, hu, hassigns⟩ := hx
  obtain ⟨b, hb⟩ := not_forall_not.1 hassigns
  exact sees_of_code hu (.trans (.arg (List.mem_cons_self ..) .self) hb)

end

/-! ## Stores in which some names change -/

namespace Store

variable {A : Set String} {store store' store'' : Store} {x : String}

/-- From the first store to the second, only the values of names in `A` have changed. No value is
taken away, and names that have become known are names in `A` with a value. -/
structure ChangesIn (A : Set String) (store store' : Store) : Prop where
  kept : ∀ x, x ∉ A → store'.value? x = store.value? x
  assigned : ∀ x, (store.value? x).isSome = true → (store'.value? x).isSome = true
  names : ∃ added, store'.names = store.names ++ added ∧
    ∀ x ∈ added, x ∈ A ∧ (store'.value? x).isSome = true

namespace ChangesIn

theorem refl (A : Set String) (store : Store) : store.ChangesIn A store :=
  ⟨fun _ _ => rfl, fun _ h => h, [], (List.append_nil _).symm, by simp⟩

theorem trans (h : store.ChangesIn A store') (h' : store'.ChangesIn A store'') :
    store.ChangesIn A store'' := by
  obtain ⟨added, hnames, hadded⟩ := h.names
  obtain ⟨added', hnames', hadded'⟩ := h'.names
  refine ⟨fun x hx => (h'.kept x hx).trans (h.kept x hx),
    fun x hx => h'.assigned x (h.assigned x hx), added ++ added', ?_, fun x hx => ?_⟩
  · rw [hnames', hnames, List.append_assoc]
  · rcases List.mem_append.1 hx with hx | hx
    · exact ⟨(hadded x hx).1, h'.assigned x (hadded x hx).2⟩
    · exact hadded' x hx

theorem mono {A' : Set String} (hA : ∀ x ∈ A, x ∈ A') (h : store.ChangesIn A store') :
    store.ChangesIn A' store' := by
  obtain ⟨added, hnames, hadded⟩ := h.names
  exact ⟨fun x hx => h.kept x fun hxA => hx (hA x hxA), h.assigned, added, hnames,
    fun x hx => ⟨hA x (hadded x hx).1, (hadded x hx).2⟩⟩

/-- The names that are known afterwards are those from before and those with a value. -/
theorem mem_names (h : store.ChangesIn A store') :
    x ∈ store'.names ↔ x ∈ store.names ∨ (store'.value? x).isSome = true := by
  obtain ⟨added, hnames, hadded⟩ := h.names
  constructor
  · intro hx
    rw [hnames, List.mem_append] at hx
    exact hx.imp_right fun hx => (hadded x hx).2
  · rintro (hx | hx)
    · rw [hnames]
      exact List.mem_append_left _ hx
    · exact mem_names_of_value? hx

/-- If the names that may change are known, no name becomes known. -/
theorem names_eq (h : store.ChangesIn A store') (hA : ∀ x ∈ A, x ∈ store.names) :
    store'.names = store.names := by
  obtain ⟨added, hnames, hadded⟩ := h.names
  cases added with
  | nil => rw [hnames, List.append_nil]
  | cons x added =>
    have known : x ∈ store.names := hA x (hadded x (List.mem_cons_self ..)).1
    have nodup : (store.names ++ x :: added).Nodup := hnames ▸ store'.nodup_names
    exact absurd rfl ((List.nodup_append.1 nodup).2.2 x known x (List.mem_cons_self ..))

end ChangesIn

theorem changesIn_assign (hx : x ∈ A) (v : Term String) :
    store.ChangesIn A (store.assign x v) := by
  refine ⟨fun y hy => ?_, fun y hy => ?_, ?_⟩
  · have apart : y ≠ x := fun he => hy (he.symm ▸ hx)
    rw [value?_assign, if_neg apart]
  · rw [value?_assign]
    split
    · rfl
    · exact hy
  · by_cases hknown : x ∈ store.names
    · exact ⟨[], (names_assign_of_mem hknown v).trans (List.append_nil _).symm, by simp⟩
    · refine ⟨[x], names_assign_of_notMem hknown v, fun y hy => ?_⟩
      obtain rfl := List.mem_singleton.1 hy
      rw [value?_assign, if_pos rfl]
      exact ⟨hx, rfl⟩

end Store

/-! ## Evaluation within the code in sight -/

/-- An operation on the names in `V`, or the assignment of code of `S` where such code assigns. -/
def Operation.Secluded (V : Set String) (S : Set (Term String)) : Operation String → Prop
  | lookup x => x ∈ V
  | assign x value => x ∈ assignedIn S ∧ value.ComesFrom S
  | _ => False

/-- All terms that names in `V` are bound to come from `S`. -/
def Store.Secluded (V : Set String) (S : Set (Term String)) (store : Store) : Prop :=
  ∀ x ∈ V, ∀ t, store.value? x = some t → t.ComesFrom S

/-- All code in `S` is quiet and sees names in `V` only. -/
def SelfContained (V : Set String) (S : Set (Term String)) : Prop :=
  ∀ u ∈ S, u.Quiet ∧ ∀ x, (Term.var x).Occurs u → x ∈ V

section
variable {V : Set String} {S : Set (Term String)} {store : Store} {x : String} {t v : Term String}

theorem Store.Secluded.assign (h : store.Secluded V S) (hv : v.ComesFrom S) :
    (store.assign x v).Secluded V S := by
  intro y hy t ht
  rw [value?_assign] at ht
  split at ht
  · cases ht
    exact hv
  · exact h y hy t ht

theorem Term.ComesFrom.asks_secluded (hS : SelfContained V S) {o : Operation String}
    (ht : t.ComesFrom S) (ho : t.Asks o) (hterms : ∀ v ∈ o.terms, v.ComesFrom S) :
    o.Secluded V S := by
  -- The builtins that would ask for anything else are not quiet.
  have quiet {f : Builtin} (hl : t.isLiteral = false) (hf : t.builtin? = some f) :
      f.isQuiet = true := by
    obtain ⟨u, hu, hoccurs⟩ := ht.exists_occurs hl
    exact (hS u hu).1 t hoccurs f hf
  cases ho with
  | var x =>
    obtain ⟨u, hu, hoccurs⟩ := ht.exists_occurs rfl
    exact (hS u hu).2 x hoccurs
  | assign x b value =>
    obtain ⟨u, hu, hoccurs⟩ := ht.exists_occurs rfl
    exact ⟨⟨u, hu, fun h => h b hoccurs⟩, hterms value (List.mem_singleton.2 rfl)⟩
  | prompt | random | eval | shell | dump | endDump | output => cases quiet rfl rfl

/-- Such operations leave the world outside alone. -/
theorem Operation.Secluded.world {σ : Type} [Host σ] {o : Operation String}
    (ho : o.Secluded V S) {m m' : Machine Store σ} (h : (o.perform.run m).machine? = some m') :
    m'.host = m.host ∧ m'.draws = m.draws := by
  cases o with
  | lookup x =>
    rw [perform, Machine.run_lookup] at h
    split at h <;> (cases h; exact ⟨rfl, rfl⟩)
  | assign =>
    cases h
    exact ⟨rfl, rfl⟩
  | load | draw | readLine | write | dump | shell => exact ho.elim

/-- Evaluation keeps to the code of `S`, and only this code changes variables. -/
def secludedVariables (hS : SelfContained V S) : VariableInvariant Store String where
  holds := Store.Secluded V S
  change := Store.ChangesIn (assignedIn S)
  good _ := Term.ComesFrom S
  allows _ := Operation.Secluded V S
  change_refl := .refl _
  change_trans := .trans
  good_change _ ht := ht
  good_lit l _ := Term.comesFrom_lit l
  good_arg ht ha := ht.arg ha
  allows_asked _ ht ho hterms := ht.asks_secluded hS ho hterms
  lookup hs hx hv := hs _ hx _ hv
  assign hs ho := ⟨Store.changesIn_assign ho.1 _, hs.assign ho.2⟩
  load _ ho := ho.elim

/-- Nor does it change the world outside. -/
def seclusion (hS : SelfContained V S) (σ : Type) [Host σ] : Invariant Store σ String :=
  let I := (secludedVariables hS).onMachine σ
  { I with
    change m m' := I.change m m' ∧ m'.host = m.host ∧ m'.draws = m.draws
    change_refl m := ⟨I.change_refl m, rfl, rfl⟩
    change_trans h h' :=
      ⟨I.change_trans h.1 h'.1, h'.2.1.trans h.2.1, h'.2.2.trans h.2.2⟩
    good_change h ht := I.good_change h.1 ht
    value hm ho h := by
      obtain ⟨hc, hm', ha⟩ := I.value hm ho h
      exact ⟨⟨hc, Operation.Secluded.world ho (by rw [h]; rfl)⟩, hm', ha⟩
    halted hm ho h := by
      obtain ⟨hc, hm'⟩ := I.halted hm ho h
      exact ⟨⟨hc, Operation.Secluded.world ho (by rw [h]; rfl)⟩, hm'⟩ }

end

section
variable {σ : Type} [Host σ] {t : Term String} {m m' after : Machine Store σ} {n : Nat}
  {v : Term String}

theorem Term.selfContained_code {store : Store} (h : ∀ u ∈ t.code store, u.Quiet) :
    SelfContained {x | t.Sees store x} (t.code store) :=
  fun u hu => ⟨h u hu, fun _ hx => sees_of_code hu hx⟩

/-- A term whose code is quiet comes to the same value in any store that agrees on what it sees.
Afterwards the stores agree on it again, and there nothing has changed but what the code assigns
to. -/
theorem Term.eval_secluded (hquiet : ∀ u ∈ t.code m.bindings, u.Quiet)
    (hrun : (t.eval n).run m = .value v after)
    (hagrees : m.bindings.Agrees {x | t.Sees m.bindings x} m'.bindings)
    (hhost : m'.host = m.host) (hdraws : m'.draws = m.draws) :
    ∃ after', (t.eval n).run m' = .value v after' ∧
      after.bindings.Agrees {x | t.Sees m.bindings x} after'.bindings ∧
      m'.bindings.ChangesIn (assignedIn (t.code m.bindings)) after'.bindings ∧
      after'.host = m.host ∧ after'.draws = m.draws := by
  let V : Set String := {x | t.Sees m.bindings x}
  let I := seclusion (selfContained_code hquiet) σ
  let S : Simulation I id Store σ := .ofBindings (Store.Agrees.parallel (V := V) fun _ _ hx => hx)
  have good : ∀ m, (Activity.evaluate t).Good I m :=
    fun _ => Activity.good_evaluate.2 (comesFrom_of_mem (.inl rfl))
  have holds : I.holds m := fun x hx u hu => comesFrom_of_mem (.inr ⟨x, hx, hu⟩)
  have holds' : I.holds m' := by
    intro x hx u hu
    rw [hagrees x hx] at hu
    exact holds x hx u hu
  have both := Activity.within_parallel (S := S) n (.evaluate t) m m' holds (good m)
    ⟨hagrees, hhost, hdraws⟩
  have keeps := Activity.within_keeps n holds' (good m')
  simp only [Activity.map, Term.map_id, Activity.within] at both keeps
  rw [hrun] at both
  cases hr : (t.eval n).run m' with
  | value v' after' =>
    rw [hr] at both keeps
    obtain ⟨hv, hagrees', -, -⟩ := both
    obtain ⟨⟨hchange, hhost', hdraws'⟩, -, -⟩ := keeps
    obtain rfl : v' = v := hv.trans v.map_id
    exact ⟨after', rfl, hagrees', hchange, hhost'.trans hhost, hdraws'.trans hdraws⟩
  | halted | unfinished =>
    rw [hr] at both
    exact both.elim

/-! ## Either order -/

variable {a b : Term String} {ma mb : Machine Store σ} {k : Nat} {va vb : Term String}

/-- Independent evaluations commute. Two terms whose code is quiet, and neither of which assigns to
a name that the other one sees, each come to a value on a machine. Then the second comes to its
value after the first and the first comes to its value after the second, and both orders leave the
same host and draws, the same value for every name and the same known names. If all names that
they assign to were known before, as those of well-formed terms are, both orders leave the very
same machine. -/
theorem Term.evaluations_commute
    (hquiet : ∀ u, u ∈ a.code m.bindings ∨ u ∈ b.code m.bindings → u.Quiet)
    (hab : ∀ x ∈ assignedIn (a.code m.bindings), ¬b.Sees m.bindings x)
    (hba : ∀ x ∈ assignedIn (b.code m.bindings), ¬a.Sees m.bindings x)
    (ha : (a.eval n).run m = .value va ma) (hb : (b.eval k).run m = .value vb mb) :
    ∃ m₁ m₂, (b.eval k).run ma = .value vb m₁ ∧ (a.eval n).run mb = .value va m₂ ∧
      m₁.Knows [] m₂ ∧
      ((∀ x, x ∈ assignedIn (a.code m.bindings) ∨ x ∈ assignedIn (b.code m.bindings) →
        x ∈ m.bindings.names) → m₂ = m₁) := by
  let A := assignedIn (a.code m.bindings)
  let B := assignedIn (b.code m.bindings)
  let AB : Set String := {x | x ∈ A ∨ x ∈ B}
  have quietA := fun u hu => hquiet u (.inl hu)
  have quietB := fun u hu => hquiet u (.inr hu)
  -- Each of them by itself.
  obtain ⟨_, hma, -, changeA, hostA, drawsA⟩ :=
    a.eval_secluded quietA ha (fun _ _ => rfl) rfl rfl
  obtain ⟨_, hmb, -, changeB, hostB, drawsB⟩ :=
    b.eval_secluded quietB hb (fun _ _ => rfl) rfl rfl
  cases ha.symm.trans hma
  cases hb.symm.trans hmb
  -- Each of them after the other, which has not changed what it sees.
  obtain ⟨m₁, h₁, agrees₁, change₁, host₁, draws₁⟩ := b.eval_secluded quietB hb
    (fun x hx => changeA.kept x fun hxA => hab x hxA hx) hostA drawsA
  obtain ⟨m₂, h₂, agrees₂, change₂, host₂, draws₂⟩ := a.eval_secluded quietA ha
    (fun x hx => changeB.kept x fun hxB => hba x hxB hx) hostB drawsB
  have values : ∀ x, m₂.bindings.value? x = m₁.bindings.value? x := by
    intro x
    by_cases hxA : x ∈ A
    · have hxB : x ∉ B := fun hxB => hba x hxB (sees_of_assigned hxA)
      rw [agrees₂ x (sees_of_assigned hxA), change₁.kept x hxB]
    · rw [change₂.kept x hxA]
      by_cases hxB : x ∈ B
      · rw [agrees₁ x (sees_of_assigned hxB)]
      · rw [change₁.kept x hxB, changeA.kept x hxA, changeB.kept x hxB]
  have whole₁ : m.bindings.ChangesIn AB m₁.bindings :=
    (changeA.mono fun _ => .inl).trans (change₁.mono fun _ => .inr)
  have whole₂ : m.bindings.ChangesIn AB m₂.bindings :=
    (changeB.mono fun _ => .inr).trans (change₂.mono fun _ => .inl)
  refine ⟨m₁, m₂, h₁, h₂, ⟨host₂.trans host₁.symm, draws₂.trans draws₁.symm, values, fun x => ?_⟩,
    fun hknown => ?_⟩
  · rw [whole₁.mem_names, whole₂.mem_names, values]
    simp
  · have names : m₂.bindings.names = m₁.bindings.names :=
      (whole₂.names_eq hknown).trans (whole₁.names_eq hknown).symm
    obtain ⟨bindings₁, _, _⟩ := m₁
    obtain ⟨bindings₂, _, _⟩ := m₂
    obtain rfl : bindings₂ = bindings₁ := Store.eq_of_values names values
    cases host₂.trans host₁.symm
    cases draws₂.trans draws₁.symm
    rfl

end

/-! ## An example -/

/-- The names that a term sees lie in every list that has the names in it, and those in the terms
that names of the list are bound to. -/
theorem Term.Sees.mem_of_closed {store : Store} {t : Term String} {names : List String}
    (ht : ∀ x, .name x ∈ t.tokens → x ∈ names)
    (hbound : ∀ x ∈ names, ∀ u, store.value? x = some u → ∀ y, .name y ∈ u.tokens → y ∈ names)
    {x : String} (hx : t.Sees store x) : x ∈ names := by
  induction hx with
  | here h => exact ht _ (name_mem_tokens h)
  | bound _ hvalue hoccurs ih => exact hbound _ ih _ hvalue _ (name_mem_tokens hoccurs)

/-- `= x C f` runs the sum `+ x 1` that `f` is bound to, and commutes with `= y * y y`. -/
theorem Term.stored_sum_commutes :
    let sum : Term String := .binary (.arith .add) (.var "x") (.lit (.number 1))
    let a : Term String := .binary .assign (.var "x") (.unary .call (.var "f"))
    let b : Term String :=
      .binary .assign (.var "y") (.binary (.arith .multiply) (.var "y") (.var "y"))
    let number (n : Int64) : Term String := .lit (.number n)
    let store (x y : Int64) : Store :=
      ((Store.assign ∅ "x" (number x)).assign "y" (number y)).assign "f" sum
    let m (x y : Int64) : Machine Store Scripted := ⟨store x y, {}, Draws.seeded 0⟩
    (∀ u, u ∈ a.code (store 1 5) ∨ u ∈ b.code (store 1 5) → u.Quiet) ∧
      (∀ x ∈ assignedIn (a.code (store 1 5)), ¬b.Sees (store 1 5) x) ∧
      (∀ x ∈ assignedIn (b.code (store 1 5)), ¬a.Sees (store 1 5) x) ∧
      (a.eval 4).run (m 1 5) = .value (number 2) (m 2 5) ∧
      (b.eval 4).run (m 1 5) = .value (number 25) (m 1 25) ∧
      ∃ m', (b.eval 4).run (m 2 5) = .value (number 25) m' ∧
        (a.eval 4).run (m 1 25) = .value (number 2) m' := by
  intro sum a b number store m
  have bound : ∀ x u, (store 1 5).value? x = some u →
      (x = "f" ∧ u = sum) ∨ ∃ n, u = number n := by
    intro x u hu
    simp only [store, Store.value?_assign] at hu
    split at hu
    · rename_i hx
      cases hu
      exact .inl ⟨hx, rfl⟩
    · split at hu
      · cases hu
        exact .inr ⟨5, rfl⟩
      · split at hu
        · cases hu
          exact .inr ⟨1, rfl⟩
        · cases hu
  have seesA : ∀ x, a.Sees (store 1 5) x → x ∈ ["x", "f"] := by
    refine fun x hx => hx.mem_of_closed (by simp [a, tokens]) fun y _ u hu z hz => ?_
    rcases bound y u hu with ⟨-, rfl⟩ | ⟨n, rfl⟩
    · have hz : z = "x" := by simpa [sum, tokens] using hz
      rw [hz]
      exact List.mem_cons_self ..
    · simp [number, tokens] at hz
  have seesB : ∀ x, b.Sees (store 1 5) x → x ∈ ["y"] := by
    refine fun x hx => hx.mem_of_closed (by simp [b, tokens]) fun y hy u hu z hz => ?_
    rcases bound y u hu with ⟨rfl, -⟩ | ⟨n, rfl⟩
    · simp at hy
    · simp [number, tokens] at hz
  have apart : ∀ x, a.Sees (store 1 5) x → ¬b.Sees (store 1 5) x := by
    intro x hA hB
    have both := seesA x hA
    rw [List.mem_singleton.1 (seesB x hB)] at both
    simp at both
  have quietVar (x : String) : (var x).Quiet := .of_args (by simp [builtin?]) (by simp [args])
  have quietSum : sum.Quiet :=
    .of_args (by simp [sum, builtin?, Builtin.isQuiet]) (by simp [sum, args, quietVar, quiet_lit])
  have quietCall : (unary .call (var "f")).Quiet :=
    .of_args (by simp [builtin?, Builtin.isQuiet]) (by simp [args, quietVar])
  have quietSquare : (binary (.arith .multiply) (var "y") (var "y")).Quiet :=
    .of_args (by simp [builtin?, Builtin.isQuiet]) (by simp [args, quietVar])
  have quiet : ∀ u, u ∈ a.code (store 1 5) ∨ u ∈ b.code (store 1 5) → u.Quiet := by
    have quietBound : ∀ x u, (store 1 5).value? x = some u → u.Quiet := by
      intro x u hu
      rcases bound x u hu with ⟨-, rfl⟩ | ⟨n, rfl⟩
      · exact quietSum
      · exact quiet_lit _
    rintro u ((rfl | ⟨x, -, hx⟩) | (rfl | ⟨x, -, hx⟩))
    · exact .of_args (by simp [a, builtin?, Builtin.isQuiet])
        (by simp [a, args, quietVar, quietCall])
    · exact quietBound x u hx
    · exact .of_args (by simp [b, builtin?, Builtin.isQuiet])
        (by simp [b, args, quietVar, quietSquare])
    · exact quietBound x u hx
  have hab : ∀ x ∈ assignedIn (a.code (store 1 5)), ¬b.Sees (store 1 5) x :=
    fun x hx => apart x (sees_of_assigned hx)
  have hba : ∀ x ∈ assignedIn (b.code (store 1 5)), ¬a.Sees (store 1 5) x :=
    fun x hx hA => apart x hA (sees_of_assigned hx)
  have ha : (a.eval 4).run (m 1 5) = .value (number 2) (m 2 5) := rfl
  have hb : (b.eval 4).run (m 1 5) = .value (number 25) (m 1 25) := rfl
  obtain ⟨m₁, m₂, h₁, h₂, -, hsame⟩ := evaluations_commute quiet hab hba ha hb
  have known : ∀ x ∈ ["x", "f", "y"], x ∈ (store 1 5).names := by decide
  have targets : ∀ x, x ∈ assignedIn (a.code (store 1 5)) ∨ x ∈ assignedIn (b.code (store 1 5)) →
      x ∈ (store 1 5).names := by
    rintro x (hx | hx)
    · exact known x (List.mem_append_left ["y"] (seesA x (sees_of_assigned hx)))
    · exact known x (List.mem_append_right ["x", "f"] (seesB x (sees_of_assigned hx)))
  obtain rfl := hsame targets
  exact ⟨quiet, hab, hba, ha, hb, m₂, h₁, h₂⟩

end KnightLang
