/-
How a store grows. Nothing that is done in a session removes a name or a value
(`Request.perform_grows`). Names become known where they are read: after a run, they are those from
before together with the names that were read in the source and in each text that an `E` was handed
(`Activity.mem_names`). Assignments add no further name, since the targets that code can assign to
are known as soon as the code is there.
-/
import KnightLang.Proofs.Machine.Calls
import KnightLang.Proofs.Machine.Provenance
import KnightLang.Proofs.Machine.Sources
import KnightLang.Proofs.Session.WellFormed
import Mathlib.Data.List.Perm.Subperm

namespace KnightLang

/-! ## Growing stores -/

/-- All names of a store are still there, and those that had a value still have one. -/
structure Store.Grows (store store' : Store) : Prop where
  names : store.names ⊆ store'.names
  assigned : ∀ x, (store.value? x).isSome = true → (store'.value? x).isSome = true

namespace Store

variable {store store' store'' : Store}

theorem Grows.refl (store : Store) : store.Grows store := ⟨List.Subset.refl _, fun _ h => h⟩

theorem Grows.trans (h : store.Grows store') (h' : store'.Grows store'') : store.Grows store'' :=
  ⟨List.Subset.trans h.names h'.names, fun x hx => h'.assigned x (h.assigned x hx)⟩

theorem grows_assign (store : Store) (x : String) (v : Term String) :
    store.Grows (store.assign x v) := by
  refine ⟨store.names_subset_assign x v, fun y hy => ?_⟩
  rw [value?_assign]
  split
  · rfl
  · exact hy

theorem grows_registerAll (store : Store) (names : List String) :
    store.Grows (Bindings.registerAll store names) := by
  refine ⟨store.names_subset_registerAll names, fun y hy => ?_⟩
  rw [value?_registerAll]
  exact hy

/-- The number of names never decreases, as no name is counted twice. -/
theorem Grows.size_le (h : store.Grows store') : Bindings.size store ≤ Bindings.size store' := by
  have fewer : store.names.length ≤ store'.names.length :=
    (List.subperm_of_subset store.nodup_names h.names).length_le
  unfold Store.names at fewer
  rw [List.length_map, List.length_map] at fewer
  exact fewer

end Store

/-- Stores grow whatever is evaluated. -/
def growth : VariableInvariant Store String where
  holds _ := True
  change := Store.Grows
  good _ _ := True
  allows _ _ := True
  change_refl := Store.Grows.refl
  change_trans := Store.Grows.trans
  good_change _ _ := trivial
  good_lit _ _ := trivial
  good_arg _ _ := trivial
  allows_asked _ _ _ _ := trivial
  lookup _ _ _ := trivial
  assign {store x v} _ _ := ⟨store.grows_assign x v, trivial⟩
  load {store _} _ _ := ⟨store.grows_registerAll _, trivial, fun _ _ => trivial⟩

section
variable {σ : Type} [Host σ]

theorem growth_serves : (growth.onMachine σ).Serves where
  load _ _ := trivial
  set {m name value} _ _ := by
    refine ⟨Store.Grows.trans (m.bindings.grows_registerAll [name]) ?_, trivial⟩
    exact Store.grows_assign _ name value
  get _ _ := trivial

/-- Whatever a request is and however it ends, the store has grown. -/
theorem Request.perform_grows {m m' : Machine Store σ} {fuel : Nat}
    {slots : List (String × Term String)} {request : Request}
    (h : ((request.perform fuel slots).run m).machine? = some m') :
    m.bindings.Grows m'.bindings := by
  have good : ∀ slot ∈ slots, (growth.onMachine σ).good m slot.2 := fun _ _ => trivial
  exact ((request.perform_keeps growth_serves trivial good fuel).machine h).1

end

/-! ## Known targets -/

section
variable {σ : Type} [Host σ]

/-- Well-formed terms on well-formed stores assign to known names only. -/
def knownTargets (σ : Type) [Host σ] : Invariant Store σ String :=
  let I := wellFormedness σ
  { I with
    allows m o := I.allows m o ∧ ∀ x v, o = .assign x v → x ∈ m.bindings.names
    allows_asked {m t o} hm ht ho hterms := by
      refine ⟨I.allows_asked hm ht ho hterms, ?_⟩
      rintro x v rfl
      cases ho with
      | assign x b v =>
        -- The target stands in the assignment, so its name is known.
        have target : (Term.var x).Sound m.bindings := ht _ (.arg (List.mem_cons_self ..) .self)
        exact target.name x rfl
    value hm ho h := I.value hm ho.1 h
    halted hm ho h := I.halted hm ho.1 h }

theorem knownTargets_load (m : Machine Store σ) (source : String) :
    (knownTargets σ).allows m (.load source) := ⟨allows_load m source, nofun⟩

/-! ## Exact names -/

variable {x : String} {m m' : Machine Store σ}

theorem Operation.mem_names {o : Operation String} (ho : (knownTargets σ).allows m o)
    (h : (o.perform.run m).machine? = some m') : x ∈ m'.bindings.names ↔
      x ∈ m.bindings.names ∨ ∃ source, o = .load source ∧ x ∈ (parse source).names := by
  rw [Operation.bindings_of_perform h]
  cases o with
  | assign y v =>
    have known : y ∈ m.bindings.names := ho.2 y v rfl
    show x ∈ (m.bindings.assign y v).names ↔ _
    rw [Store.mem_names_assign]
    grind
  | load source =>
    show x ∈ Store.names (Bindings.registerAll m.bindings (parse source).names) ↔ _
    rw [Store.mem_names_registerAll]
    grind
  | _ => simp [Operation.after]

/-- After a plan has been followed, the names are those from before and those in what it read. -/
theorem Plan.Follows.mem_names {α : Type} {plan : Plan String α} {P : Machine Store σ → α → Prop}
    {calls : List (Call Store σ)} {out : Outcome (Machine Store σ) α}
    (h : plan.Follows m calls out) (hm : (knownTargets σ).holds m)
    (hs : plan.Safe (knownTargets σ) P m) (hout : out.machine? = some m') :
    x ∈ m'.bindings.names ↔
      x ∈ m.bindings.names ∨ ∃ source, plan.Reads source m ∧ x ∈ (parse source).names := by
  induction h generalizing m' with
  | done a m =>
    cases hout
    refine ⟨.inl, ?_⟩
    rintro (hx | ⟨_, ⟨⟩, _⟩)
    exact hx
  | halt e m =>
    cases hout
    refine ⟨.inl, ?_⟩
    rintro (hx | ⟨_, ⟨⟩, _⟩)
    exact hx
  | @asked _ o next answer m m₁ _ _ answered _ ih =>
    obtain ⟨hc, hm₁, hanswer⟩ := (knownTargets σ).value hm hs.1 answered
    have first := Operation.mem_names (x := x) hs.1 (by rw [answered]; rfl)
    rw [ih hm₁ (hs.2 answer m₁ hc hm₁ hanswer) hout, first]
    simp only [reads_asked answered, or_and_right, exists_or, or_assoc]
  | @refused _ o next e m m₁ halted =>
    cases hout
    have only := Operation.mem_names (x := x) hs.1 (by rw [halted]; rfl)
    rw [only]
    simp only [reads_refused halted]
  | @awaited _ a next answer m m₁ calls later out yields _ ih₁ ih₂ =>
    obtain ⟨n, hn⟩ := (Activity.runs_iff_within.1 ⟨calls, yields⟩).2
    have keeps := Activity.within_keeps n hm hs.1
    rw [hn] at keeps
    obtain ⟨hc, hm₁, hanswer⟩ := keeps
    have first := ih₁ hm (Activity.safe_plan hm hs.1) rfl
    rw [ih₂ hm₁ (hs.2 answer m₁ hc hm₁ hanswer) hout, first]
    have came : a.Yields m answer m₁ := ⟨n, hn⟩
    simp only [reads_awaited came, or_and_right, exists_or, or_assoc]
  | @broken _ a next e m m₁ calls halts ih =>
    obtain ⟨n, hn⟩ := (Activity.runs_iff_within.1 ⟨calls, halts⟩).2
    cases hout
    have went : a.Halts m e m₁ := ⟨n, hn⟩
    rw [ih hm (Activity.safe_plan hm hs.1) rfl]
    simp only [reads_broken went]

variable {terms : List (Term String)} {a : Activity String} {fuel : Nat}

/-- After an activity on terms of a session, the names are those from before and those in the
sources that were run, at any depth. -/
theorem Activity.mem_names (hr : Reachable m terms)
    (ha : ∀ t ∈ a.terms, t ∈ terms ∨ t.isLiteral = true)
    (h : ((a.within fuel).run m).machine? = some m') :
    x ∈ m'.bindings.names ↔ x ∈ m.bindings.names ∨
      ∃ source, (∃ m₁, Reaches (a, m) (.run source, m₁)) ∧ x ∈ (parse source).names := by
  obtain ⟨hm, hterms⟩ := hr.sound
  have good : a.Good (knownTargets σ) m := by
    refine ⟨fun t ht => ?_, fun source _ => knownTargets_load m source⟩
    rcases ha t ht with ht | ht
    · exact hterms t ht
    · cases t with
      | lit l => exact wellFormed_lit l
      | _ => cases ht
  have finished : (a.within fuel).run m ≠ .unfinished := by
    intro hout
    rw [hout] at h
    cases h
  obtain ⟨calls, hruns⟩ := runs_iff_within.2 ⟨finished, fuel, rfl⟩
  have names := Plan.Follows.mem_names (x := x) hruns hm (safe_plan hm good) h
  simp only [reads_iff_reaches] at names
  exact names

/-- Where nothing in sight runs text as a program, no source is run. -/
theorem not_reaches_run (ha : ∀ source, a ≠ .run source)
    (hfree : ∀ t ∈ a.inSight m.bindings, t.EvalFree) (source : String) :
    ¬∃ m₁, Reaches (a, m) (.run source, m₁) := by
  rw [reaches_run_iff]
  rintro (rfl | ⟨arg, m₁, _, hreach, _⟩)
  · exact ha source rfl
  · obtain ⟨-, -, hgood⟩ := Activity.good_of_reaches hreach (m.bindings.comesFrom_inSight a)
      (Activity.good_inSight ha hfree)
    obtain ⟨u, hu, hoccurs⟩ := (Activity.good_evaluate.1 hgood).exists_occurs rfl
    exact hfree u hu arg hoccurs

/-- At every point of a session: whatever is requested next and however it ends, no name is lost,
what had a value has one and there are no fewer names than before. After the run of a source, the
names are exactly those from before, those in the source and those in each text that an `E` was
handed, in each case as far as it was read. And if nothing in sight runs text as a program, then an
activity on terms, such as evaluating or coercing one, leaves the names as they are. -/
theorem Reachable.names_grow (hr : Reachable m terms) :
    (∀ fuel slots (request : Request) m',
        ((request.perform fuel slots).run m).machine? = some m' →
          m.bindings.Grows m'.bindings ∧ Bindings.size m.bindings ≤ Bindings.size m'.bindings) ∧
      (∀ source fuel m', (((Activity.run source).within fuel).run m).machine? = some m' →
        ∀ x, x ∈ m'.bindings.names ↔ x ∈ m.bindings.names ∨ x ∈ (parse source).names ∨
          ∃ arg m₁ text m₂, Reaches (.run source, m) (.evaluate (.unary .eval arg), m₁) ∧
            (Activity.coerce .text arg).Yields m₁ text m₂ ∧ x ∈ (parse text).names) ∧
      ∀ a : Activity String, (∀ source, a ≠ .run source) →
        (∀ t ∈ a.terms, t ∈ terms ∨ t.isLiteral = true) →
        (∀ t ∈ a.inSight m.bindings, t.EvalFree) →
        ∀ fuel m', ((a.within fuel).run m).machine? = some m' →
          ∀ x, x ∈ m'.bindings.names ↔ x ∈ m.bindings.names := by
  refine ⟨fun fuel slots request m' h => ?_, fun source fuel m' h x => ?_,
    fun a ha hterms hfree fuel m' h x => ?_⟩
  · have grows := Request.perform_grows h
    exact ⟨grows, grows.size_le⟩
  · rw [Activity.mem_names hr (fun _ ht => by cases ht) h]
    refine or_congr_right ⟨?_, ?_⟩
    · rintro ⟨text, hreach, hx⟩
      rcases reaches_run_iff.1 hreach with hrun | ⟨arg, m₁, m₂, hreach, yields⟩
      · cases hrun
        exact .inl hx
      · exact .inr ⟨arg, m₁, text, m₂, hreach, yields, hx⟩
    · rintro (hx | ⟨arg, m₁, text, m₂, hreach, yields, hx⟩)
      · exact ⟨source, reaches_run_iff.2 (.inl rfl), hx⟩
      · exact ⟨text, reaches_run_iff.2 (.inr ⟨arg, m₁, m₂, hreach, yields⟩), hx⟩
  · rw [Activity.mem_names hr hterms h]
    refine or_iff_left ?_
    rintro ⟨source, hreach, -⟩
    exact not_reaches_run ha hfree source hreach

end

/-- `E "y"` fails, as `y` has no value, and still makes the name known. -/
theorem text_names_known :
    let m : Machine Store Scripted := ⟨∅, {}, Draws.seeded 0⟩
    Reachable m [] ∧ ∃ n e m', ((Activity.run "E \"y\"").within n).run m = .halted e m' ∧
      "y" ∈ m'.bindings.names ∧ Bindings.size m.bindings ≤ Bindings.size m'.bindings := by
  intro m
  let m' : Machine Store Scripted := ⟨Store.register ∅ "y", {}, Draws.seeded 0⟩
  let text : Term String := .lit (.text "y")
  have fresh : Reachable m [] := .fresh _ _
  have loaded : (Machine.load "E \"y\"").run m = .value (.unary .eval text) m :=
    Source.load_of_parse (Source.parse_eq_of_ok (by decide +kernel)) m
  have parsed : parse "y" = ⟨.ok (.var "y"), ["y"]⟩ := Source.parse_eq_of_ok (by decide +kernel)
  have named : (Machine.load "y").run m = .value (.var "y") m' := Source.load_of_parse parsed m
  have coerced : (Activity.coerce .text text).Runs m [] (.value "y" m) := .done _ _
  have unbound : (Activity.evaluate (.var "y")).Runs m' []
      (.halted (.error (.fault (.unbound "y"))) m') := .refused (o := .lookup "y") rfl
  have inner : (Activity.run "y").Runs m [] (.halted (.error (.fault (.unbound "y"))) m') :=
    .asked (o := .load "y") named (.broken unbound)
  have outer : (Activity.evaluate (.unary .eval text)).Runs m []
      (.halted (.error (.fault (.unbound "y"))) m') := .awaited coerced (.broken inner)
  have whole : (Activity.run "E \"y\"").Runs m [] (.halted (.error (.fault (.unbound "y"))) m') :=
    .asked (o := .load "E \"y\"") loaded (.broken outer)
  obtain ⟨-, n, hn⟩ := Activity.runs_iff_within.1 ⟨_, whole⟩
  obtain ⟨hrequest, hnames, -⟩ := Reachable.names_grow fresh
  have left : (((Activity.run "E \"y\"").within n).run m).machine? = some m' := by
    rw [hn]
    rfl
  have requested : (((Request.run "E \"y\"").perform n []).run m).machine? = some m' := by
    show ((((Activity.run "E \"y\"").within n) >>= fun v => pure (Reply.term v)).run m).machine? = _
    rw [EvalM.run_bind, hn]
    rfl
  have performed : Performs (.run "E \"y\"", m) (.evaluate (.unary .eval text), m) :=
    ⟨_, .asked (o := .load "E \"y\"") loaded (.here _ _)⟩
  have handed : (Activity.coerce .text text).Yields m "y" m := ⟨0, rfl⟩
  refine ⟨fresh, n, _, m', hn, (hnames _ n m' left "y").2 ?_, (hrequest n [] _ m' requested).2⟩
  refine .inr (.inr ⟨text, m, "y", m, .single performed, handed, ?_⟩)
  rw [parsed]
  exact List.mem_singleton.2 rfl

end KnightLang
