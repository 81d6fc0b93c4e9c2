/-
Well-formed terms. Evaluation relies on two facts about the terms it meets: a call has as many
arguments as its builtin takes, and the name of a variable is known to the store. Both hold of
everything that a session gets hold of, whatever its requests were and however they ended
(`Reachable.wellFormed`).
-/
import KnightLang.Proofs.Session.Kept
import KnightLang.Proofs.Source.Rendering

namespace KnightLang

/-! ## Nodes of a term -/

section
variable {ν : Type}

/-- The builtin of a call. -/
def Term.builtin? : Term ν → Option Builtin
  | nullary f => some (.nullary f)
  | unary f _ => some (.unary f)
  | binary f _ _ => some (.binary f)
  | ternary f _ _ _ => some (.ternary f)
  | quaternary f _ _ _ _ => some (.quaternary f)
  | _ => none

theorem Term.length_args {t : Term ν} {f : Builtin} (h : t.builtin? = some f) :
    t.args.length = f.arity := by
  cases t <;> cases h <;> rfl

end

/-- A call has a builtin of the table and as many arguments as it takes; a variable has a name
that the store knows. -/
structure Term.Sound (store : Store) (t : Term String) : Prop where
  builtin : ∀ f, t.builtin? = some f → Builtin.ofTag? f.tag = some f ∧ t.args.length = f.arity
  name : ∀ x, t = .var x → x ∈ store.names

/-- Every node of a term is sound. -/
def WellFormed (store : Store) (t : Term String) : Prop :=
  ∀ node : Term String, node.Occurs t → node.Sound store

section
variable {store store' : Store} {t a : Term String}

/-- A term is well formed if the store knows its names: calls have their arguments by type. -/
theorem wellFormed_of_names (h : ∀ x, (Term.var x).Occurs t → x ∈ store.names) :
    WellFormed store t := by
  intro node hnode
  refine ⟨fun f hf => ⟨f.ofTag?_tag, Term.length_args hf⟩, ?_⟩
  rintro x rfl
  exact h x hnode

theorem wellFormed_lit (l : Literal) : WellFormed store (.lit l) := by
  refine wellFormed_of_names fun x hx => ?_
  cases hx with
  | arg ha => cases ha

theorem WellFormed.arg (h : WellFormed store t) (ha : a ∈ t.args) : WellFormed store a :=
  fun node hnode => h node (.arg ha hnode)

theorem WellFormed.mono (h : WellFormed store t) (hs : store.names ⊆ store'.names) :
    WellFormed store' t :=
  wellFormed_of_names fun x hx => hs ((h _ hx).name x rfl)

/-- The name of a variable is one of the tokens. -/
theorem Term.name_mem_tokens {x : String} (h : (Term.var x).Occurs t) : .name x ∈ t.tokens := by
  induction h with
  | self => exact List.mem_singleton.2 rfl
  | @arg t a ha _ ih =>
    cases t with
    | unary | binary | ternary | quaternary =>
      simp only [args, List.mem_cons, List.not_mem_nil, or_false] at ha
      rcases ha with rfl | rfl | rfl | rfl <;> simp [tokens, ih]
    | _ => cases ha

end

/-! ## Stores of well-formed terms -/

/-- Every term that is bound is well formed. -/
def Store.Sound (store : Store) : Prop := ∀ x t, store.value? x = some t → WellFormed store t

namespace Store

variable {store : Store}

theorem names_subset_assign (store : Store) (x : String) (v : Term String) :
    store.names ⊆ (store.assign x v).names := fun _ h => mem_names_assign.2 (.inr h)

theorem names_subset_registerAll (store : Store) (names : List String) :
    store.names ⊆ (Bindings.registerAll store names).names :=
  fun _ h => mem_names_registerAll.2 (.inr h)

theorem sound_empty : (∅ : Store).Sound := fun _ _ h => by cases h

theorem Sound.assign (h : store.Sound) (x : String) {v : Term String} (hv : WellFormed store v) :
    (store.assign x v).Sound := by
  -- An assignment may make its name known, and never takes one away.
  intro y t ht
  refine WellFormed.mono ?_ (store.names_subset_assign x v)
  rw [value?_assign] at ht
  split at ht
  · cases ht
    exact hv
  · exact h y t ht

theorem Sound.registerAll (h : store.Sound) (names : List String) :
    Store.Sound (Bindings.registerAll store names) := by
  intro y t ht
  rw [value?_registerAll] at ht
  exact (h y t ht).mono (store.names_subset_registerAll names)

end Store

/-! ## Evaluation -/

/-- A source makes the names of the term that it says known. -/
theorem mem_names_of_parse {source x : String} {t : Term String}
    (h : (parse source).result = .ok t) (hx : (Term.var x).Occurs t) :
    x ∈ (parse source).names := by
  rw [Source.parse_eq_of_ok h]
  exact List.mem_filterMap.2 ⟨_, Term.name_mem_tokens hx, rfl⟩

theorem wellFormed_of_parse {store : Store} {source : String} {t : Term String}
    (h : (parse source).result = .ok t) :
    WellFormed (Bindings.registerAll store (parse source).names) t :=
  wellFormed_of_names fun _ hx => Store.mem_names_registerAll.2 (.inl (mem_names_of_parse h hx))

/-- That terms are well formed is an invariant of evaluation. -/
def wellFormedness (σ : Type) [Host σ] : Invariant Store σ String :=
  VariableInvariant.onMachine (σ := σ)
    { holds := Store.Sound
      change store store' := store.names ⊆ store'.names
      good := WellFormed
      allows store o := ∀ t ∈ o.terms, WellFormed store t
      change_refl _ := List.Subset.refl _
      change_trans := List.Subset.trans
      good_change hc ht := ht.mono hc
      good_lit l _ := wellFormed_lit l
      good_arg ht ha := ht.arg ha
      allows_asked _ _ _ ho := ho
      lookup hs _ hv := hs _ _ hv
      assign {store x v} hs ho :=
        ⟨store.names_subset_assign x v, hs.assign x (ho v (List.mem_singleton.2 rfl))⟩
      load {store source} hs _ := by
        refine ⟨store.names_subset_registerAll _, hs.registerAll _, fun t ht => ?_⟩
        show WellFormed _ (t.map id)
        rw [Term.map_id]
        exact wellFormed_of_parse ht }

/-! ## Sessions -/

section
variable {σ : Type} [Host σ]

theorem allows_load (m : Machine Store σ) (source : String) :
    (wellFormedness σ).allows m (.load source) := by
  intro t ht
  cases ht

/-- Requests respect it as well. -/
theorem wellFormedness_serves : (wellFormedness σ).Serves where
  load source _ := allows_load _ source
  set {m name value} hm ht := by
    have known : m.bindings.names ⊆ (m.bindings.register name).names :=
      fun _ h => Store.mem_names_register.2 (.inr h)
    have registered : (m.bindings.register name).Sound := hm.registerAll [name]
    refine ⟨?_, registered.assign name (ht.mono known)⟩
    exact List.Subset.trans known (Store.names_subset_assign _ name value)
  get {m name value} hm h := hm name value h

end

/-- The machines of a session with the terms that it got hold of so far. It starts without names;
each request may use any of these terms, and between requests the world outside may change. -/
inductive Reachable {σ : Type} [Host σ] : Machine Store σ → List (Term String) → Prop
  | fresh (host : σ) (draws : Draws) : Reachable ⟨∅, host, draws⟩ []
  | outside {m : Machine Store σ} {terms : List (Term String)} (host : σ) (draws : Draws) :
      Reachable m terms → Reachable { m with host, draws } terms
  | answered {m m' : Machine Store σ} {terms : List (Term String)} {fuel : Nat}
      {slots : List (String × Term String)} {request : Request} {reply : Reply String} :
      Reachable m terms → (∀ s ∈ slots, s.2 ∈ terms) →
      (request.perform fuel slots).run m = .value reply m' → Reachable m' (reply.terms ++ terms)
  | halted {m m' : Machine Store σ} {terms : List (Term String)} {fuel : Nat}
      {slots : List (String × Term String)} {request : Request} {h : Halt} :
      Reachable m terms → (∀ s ∈ slots, s.2 ∈ terms) →
      (request.perform fuel slots).run m = .halted h m' → Reachable m' terms

section
variable {σ : Type} [Host σ] {m : Machine Store σ} {terms : List (Term String)}

theorem Reachable.sound (hr : Reachable m terms) :
    m.bindings.Sound ∧ ∀ t ∈ terms, WellFormed m.bindings t := by
  induction hr with
  | fresh host draws => exact ⟨Store.sound_empty, by simp⟩
  | outside host draws _ ih => exact ih
  | @answered m m' terms fuel slots request reply _ hslots hrun ih =>
    have keeps := Request.perform_keeps wellFormedness_serves ih.1
      (fun s hs => ih.2 s.2 (hslots s hs)) fuel request
    rw [hrun] at keeps
    obtain ⟨hc, hm', hreply⟩ := keeps
    refine ⟨hm', fun t ht => ?_⟩
    rcases List.mem_append.1 ht with ht | ht
    · exact hreply t ht
    · exact (ih.2 t ht).mono hc
  | @halted m m' terms fuel slots request h _ hslots hrun ih =>
    have keeps := Request.perform_keeps wellFormedness_serves ih.1
      (fun s hs => ih.2 s.2 (hslots s hs)) fuel request
    rw [hrun] at keeps
    obtain ⟨hc, hm'⟩ := keeps
    exact ⟨hm', fun t ht => (ih.2 t ht).mono hc⟩

/-- At every point of a session, every bound term and every term that the session got hold of is
well formed. So is every term that is evaluated from there on, at any depth, when it is evaluated;
in particular a builtin that is evaluated has all of its arguments. -/
theorem Reachable.wellFormed (hr : Reachable m terms) :
    (∀ t ∈ terms, WellFormed m.bindings t) ∧
      (∀ x t, m.bindings.value? x = some t → WellFormed m.bindings t) ∧
      ∀ a : Activity String, (∀ t ∈ a.terms, t ∈ terms ∨ t.isLiteral = true) →
        ∀ a' m', Reaches (a, m) (a', m') → (∀ t ∈ a'.terms, WellFormed m'.bindings t) ∧
          ∀ t f, a' = .evaluate t → t.builtin? = some f → ∀ i < f.arity, i < t.args.length := by
  obtain ⟨hm, hterms⟩ := hr.sound
  refine ⟨hterms, hm, fun a ha a' m' hreach => ?_⟩
  have good : a.Good (wellFormedness σ) m := by
    refine ⟨fun t ht => ?_, fun source _ => allows_load m source⟩
    rcases ha t ht with ht | ht
    · exact hterms t ht
    · cases t with
      | lit l => exact wellFormed_lit l
      | _ => cases ht
  -- All activities below are on well-formed terms, on the machine at their time.
  obtain ⟨-, -, hgood, -⟩ := Activity.good_of_reaches hreach hm good
  refine ⟨hgood, ?_⟩
  rintro t f rfl hf i hi
  have sound := hgood t (List.mem_singleton.2 rfl) t .self
  rw [(sound.builtin f hf).2]
  exact hi

end

/-- After `+ x 2` was read, all of this holds of a session, and the sum that is evaluated has both
of its operands. -/
theorem sum_wellFormed :
    let t : Term String := .binary (.arith .add) (.var "x") (.lit (.number 2))
    let m : Machine Store Scripted := ⟨Store.register ∅ "x", {}, Draws.seeded 0⟩
    Reachable m [t] ∧ WellFormed m.bindings t ∧
      ∀ i < (Builtin.binary (.arith .add)).arity, i < t.args.length := by
  intro t m
  have parsed : parse "+ x 2" = ⟨.ok t, ["x"]⟩ := Source.parse_eq_of_ok (by decide +kernel)
  have read : ((Request.read "+ x 2").perform 0 []).run ⟨∅, {}, Draws.seeded 0⟩ =
      .value (.term t) m := by
    show (Machine.load "+ x 2" >>= fun term => pure (Reply.term term)).run _ = _
    rw [EvalM.run_bind, Source.load_of_parse parsed]
    rfl
  have noSlots : ∀ s ∈ ([] : List (String × Term String)), s.2 ∈ ([] : List (Term String)) := by
    simp
  have hr : Reachable m ((Reply.term t).terms ++ []) :=
    (Reachable.fresh _ (Draws.seeded 0)).answered noSlots read
  obtain ⟨hterms, -, hreach⟩ := hr.wellFormed
  have evaluated := hreach (.evaluate t) (fun u hu => .inl hu) (.evaluate t) m .refl
  exact ⟨hr, hterms t (List.mem_singleton.2 rfl), evaluated.2 t _ rfl rfl⟩

/-- The steps of a session with slots are such requests. -/
theorem Reachable.next? {s s' : Session Store (Limited Scripted) String}
    {terms : List (Term String)} {fuel : Nat} {request : Request} {into : Option String}
    {answer : Answer String} (hr : Reachable s.machine terms)
    (hslots : ∀ kept ∈ s.slots, kept.2 ∈ terms)
    (h : s.next? fuel request into = some (answer, s')) :
    ∃ terms', Reachable s'.machine terms' ∧ terms ⊆ terms' ∧
      ∀ kept ∈ s'.slots, kept.2 ∈ terms' := by
  unfold Session.next? at h
  split at h
  · rename_i reply m' hrun
    cases h
    refine ⟨_, (hr.answered hslots hrun).outside _ _, List.subset_append_right .., ?_⟩
    intro kept hk
    rcases List.mem_append.1 hk with hk | hk
    · -- a term that is kept is the one in the reply
      refine List.mem_append.2 (.inl ?_)
      cases into with
      | none => cases hk
      | some slot =>
        cases reply with
        | term t =>
          obtain rfl := List.mem_singleton.1 hk
          exact List.mem_singleton.2 rfl
        | _ => cases hk
    · exact List.mem_append.2 (.inr (hslots kept hk))
  · rename_i halt m' hrun
    cases h
    exact ⟨_, (hr.halted hslots hrun).outside _ _, List.Subset.refl _, hslots⟩
  · cases h

end KnightLang
