/-
One source instead of two. A source that holds two others behind a `;` does what the two do one
after the other (`runSource_sequence`). It differs in when the names of the second source become
known, which is before the first expression is evaluated; but evaluation does not notice names that
have no value, also where the first expression runs text as a program.
-/
import KnightLang.Proofs.Session.Unassigned
import KnightLang.Proofs.Source.Concatenation
import KnightLang.Proofs.Source.Rendering

namespace KnightLang

open EvalM

/-! ## More names -/

section
variable {σ : Type} {names : List String}

/-- The second machine is the first one, if this also knew the given names. -/
structure Machine.Knows (names : List String) (m m' : Machine Store σ) : Prop where
  host : m'.host = m.host
  draws : m'.draws = m.draws
  values : ∀ x, m'.bindings.value? x = m.bindings.value? x
  names : ∀ x, x ∈ m'.bindings.names ↔ x ∈ m.bindings.names ∨ x ∈ names

/-- The names of a source may become known earlier, and others after them. -/
theorem Machine.Knows.registerAll {m m' : Machine Store σ} {earlier : List String}
    (h : Machine.Knows (earlier ++ names) m m') :
    Machine.Knows names { m with bindings := Bindings.registerAll m.bindings earlier } m' := by
  refine ⟨h.host, h.draws, fun x => ?_, fun x => ?_⟩
  · rw [h.values, Store.value?_registerAll]
  · rw [h.names, Store.mem_names_registerAll, List.mem_append]
    grind

variable [Host σ]

theorem Store.knowing_parallel (names : List String) :
    Bindings.Parallel (Invariant.anything σ) id fun store store' : Store =>
      store.Agrees Set.univ store' ∧ ∀ x, x ∈ store'.names ↔ x ∈ store.names ∨ x ∈ names where
  nameOf _ := rfl
  resolve _ _ _ := rfl
  register {b b'} x h := by
    refine ⟨h.1.register x, fun y => ?_⟩
    show y ∈ (b'.register x).names ↔ y ∈ (b.register x).names ∨ y ∈ names
    rw [mem_names_register, mem_names_register, h.2]
    grind
  lookup hm h hx := (Agrees.parallel fun _ _ _ => trivial).lookup hm h.1 hx
  assign {m b' x v} _ h _ := by
    show (m.bindings.assign x v).Agrees Set.univ (b'.assign x (v.map id)) ∧ _
    rw [Term.map_id]
    refine ⟨h.1.assign x v, fun y => ?_⟩
    show y ∈ (b'.assign x v).names ↔ y ∈ (m.bindings.assign x v).names ∨ y ∈ names
    rw [mem_names_assign, mem_names_assign, h.2]
    grind

/-- Evaluation does not notice names without a value. -/
theorem Term.eval_knowing (t : Term String) {m m' : Machine Store σ} (h : m.Knows names m')
    (fuel : Nat) : ((t.eval fuel).run m).Matches (Machine.Knows names) (fun v v' => v' = v)
      ((t.eval fuel).run m') := by
  let S : Simulation (Invariant.anything σ) id Store σ := .ofBindings (Store.knowing_parallel names)
  have related : S.relates m m' := ⟨⟨fun x _ => h.values x, h.names⟩, h.host, h.draws⟩
  have good : (Activity.evaluate t).Good (Invariant.anything σ) m :=
    Activity.good_evaluate.2 trivial
  have both := Activity.within_parallel (S := S) fuel (.evaluate t) m m' trivial good related
  simp only [Activity.map, Term.map_id, Activity.within] at both
  refine both.imp ?_ ?_
  · rintro m₁ m₁' ⟨⟨hvalues, hnames⟩, hhost, hdraws⟩
    exact ⟨hhost, hdraws, fun x => hvalues x trivial, hnames⟩
  · rintro v v' rfl
    exact Term.map_id v

/-! ## Two sources -/

theorem Term.runSource_of_parse {source : String} {t : Term String} {names : List String}
    (h : parse source = ⟨.ok t, names⟩) (fuel : Nat) (m : Machine Store σ) :
    (Term.runSource fuel source).run m =
      (t.eval fuel).run { m with bindings := Bindings.registerAll m.bindings names } := by
  show (Machine.load source >>= Term.eval fuel).run m = _
  rw [run_bind, Source.load_of_parse h]

/-- Sequential composition. The first of two sources holds an expression with nothing but filler
behind it, the second starts with an expression. If the run of the first comes to a value, then
both sources behind a `;`, as one source, end as the second does when it is run after the first:
with the same value or the same halt, or not within the fuel either, on the same host and draws,
with the same values and the same names. If the first halts, or does not end within the fuel, so
does the whole; it leaves the same host, draws and values then, and knows the names of the second
source in addition. -/
theorem runSource_sequence {s₁ s₂ : String} {t₁ t₂ : Term String} (h₁ : Source.HoldsOnly s₁ t₁)
    (h₂ : (parse s₂).result = .ok t₂) (m : Machine Store σ) (fuel : Nat) :
    (∀ v m₁, (Term.runSource fuel s₁).run m = .value v m₁ →
        ((Term.runSource fuel s₂).run m₁).Matches (Machine.Knows []) (fun v v' => v' = v)
          ((Term.runSource (fuel + 1) ("; " ++ s₁ ++ "\n" ++ s₂)).run m)) ∧
      (∀ e m₁, (Term.runSource fuel s₁).run m = .halted e m₁ →
        ∃ m₁', (Term.runSource (fuel + 1) ("; " ++ s₁ ++ "\n" ++ s₂)).run m = .halted e m₁' ∧
          m₁.Knows (parse s₂).names m₁') ∧
      ((Term.runSource fuel s₁).run m = .unfinished →
        (Term.runSource (fuel + 1) ("; " ++ s₁ ++ "\n" ++ s₂)).run m = .unfinished) := by
  let b := Bindings.registerAll m.bindings ((parse s₁).names ++ (parse s₂).names)
  have parsed₁ : parse s₁ = ⟨.ok t₁, (parse s₁).names⟩ := by rw [h₁.parse]
  have parsed₂ : parse s₂ = ⟨.ok t₂, (parse s₂).names⟩ := by rw [← h₂]
  -- The whole is the first expression, then the second, on a machine that knows all names.
  have whole : (Term.runSource (fuel + 1) ("; " ++ s₁ ++ "\n" ++ s₂)).run m =
      (t₁.eval fuel >>= fun _ => t₂.eval fuel).run { m with bindings := b } :=
    Term.runSource_of_parse (Source.parse_sequence h₁ h₂) (fuel + 1) m
  have known : Machine.Knows ((parse s₁).names ++ (parse s₂).names) m { m with bindings := b } := by
    refine ⟨rfl, rfl, fun x => Store.value?_registerAll _ _ x, fun x => ?_⟩
    exact Store.mem_names_registerAll.trans or_comm
  have first := t₁.eval_knowing known.registerAll fuel
  rw [whole, run_bind, Term.runSource_of_parse parsed₁ fuel m]
  let b₁ := Bindings.registerAll m.bindings (parse s₁).names
  match (t₁.eval fuel).run { m with bindings := b₁ }, (t₁.eval fuel).run { m with bindings := b },
    first with
  | .value v m₁, .value v' m₁', ⟨_, hknows⟩ =>
    refine ⟨fun w m₂ h => ?_, nofun, nofun⟩
    cases h
    rw [Term.runSource_of_parse parsed₂ fuel m₁]
    have later : Machine.Knows ((parse s₂).names ++ []) m₁ m₁' := by rwa [List.append_nil]
    exact t₂.eval_knowing later.registerAll fuel
  | .halted e m₁, .halted e' m₁', ⟨he, hknows⟩ =>
    refine ⟨nofun, fun e m₂ h => ?_, nofun⟩
    cases h
    exact ⟨m₁', by rw [he], hknows⟩
  | .unfinished, .unfinished, _ => exact ⟨nofun, nofun, fun _ => rfl⟩

end

/-- A comment that is open at the end of the first source does not hide the second: after
`= x 1 # one`, the sum `+ x 2` is three. -/
theorem comment_closed :
    let first := "= x 1 # one"
    let second := "+ x 2"
    let m : Machine Store Scripted := ⟨∅, {}, Draws.seeded 0⟩
    let one : Term String := .lit (.number 1)
    let three : Term String := .lit (.number 3)
    let m₁ : Machine Store Scripted := ⟨Store.assign ∅ "x" one, {}, Draws.seeded 0⟩
    Source.HoldsOnly first (.binary .assign (.var "x") one) ∧
      (Term.runSource 3 first).run m = .value one m₁ ∧
      (Term.runSource 3 second).run m₁ = .value three m₁ ∧
      ∃ m', (Term.runSource 4 ("; " ++ first ++ "\n" ++ second)).run m = .value three m' ∧
        m₁.Knows [] m' := by
  intro first second m one three m₁
  let t₁ : Term String := .binary .assign (.var "x") one
  have opened : Source.nextLexeme "= x 1 # one".toList =
      .token (.builtin (.binary .assign)) " x 1 # one".toList := rfl
  have target : Source.nextLexeme " x 1 # one".toList = .token (.name "x") " 1 # one".toList := rfl
  have value : Source.nextLexeme " 1 # one".toList =
      .token (.literal (.number 1)) " # one".toList := rfl
  have assignment : Source.HoldsOnly first t₁ := by
    refine ⟨" # one".toList, ?_, Source.begins_iff.2 rfl⟩
    show (Source.readFrom [] [] "= x 1 # one".toList).ending = _
    rw [Source.readFrom_token opened]
    show (Source.readFrom [⟨.binary .assign, []⟩] [] " x 1 # one".toList).ending = _
    rw [Source.readFrom_token target]
    show (Source.readFrom [⟨.binary .assign, [.var "x"]⟩] ["x"] " 1 # one".toList).ending = _
    rw [Source.readFrom_token value]
    rfl
  have sum : parse second = ⟨.ok (.binary (.arith .add) (.var "x") (.lit (.number 2))), ["x"]⟩ :=
    Source.parse_eq_of_ok (by decide +kernel)
  have run₁ : (Term.runSource 3 first).run m = .value one m₁ :=
    (Term.runSource_of_parse assignment.parse 3 m).trans rfl
  have run₂ : (Term.runSource 3 second).run m₁ = .value three m₁ :=
    (Term.runSource_of_parse sum 3 m₁).trans rfl
  have both := (runSource_sequence assignment (by rw [sum]) m 3).1 one m₁ run₁
  rw [run₂] at both
  refine ⟨assignment, run₁, run₂, ?_⟩
  match (Term.runSource 4 ("; " ++ first ++ "\n" ++ second)).run m, both with
  | .value _ m', ⟨rfl, hknows⟩ => exact ⟨m', rfl, hknows⟩

end KnightLang
