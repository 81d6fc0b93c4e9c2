/-
Which steps there are. Along its plan, an activity raises halts of its own, asks operations of the
machine and waits for other activities. Everything that it may ever do in this way is listed here
(`Activity.Takes`): only `Q` exits, only `E` waits for the run of a source, only a run reads one,
and every other operation is asked by the builtin that is there for it.
-/
import KnightLang.Proofs.Machine.Plan

namespace KnightLang

variable {ν α γ : Type}

/-! ## Steps of a plan -/

/-- What a plan does besides coming to a value. -/
inductive Plan.Step (ν : Type)
  | halt (h : Halt)
  | ask (o : Operation ν)
  | await (a : Activity ν)

/-- Every step of a plan satisfies `P`, whatever the answers before it were. -/
def Plan.Every (P : Step ν → Prop) : Plan ν α → Prop
  | done _ => True
  | halt h => P (.halt h)
  | ask o next => P (.ask o) ∧ ∀ answer, (next answer).Every P
  | await a next => P (.await a) ∧ ∀ answer, (next answer).Every P

/-- The operations that the evaluation of a term asks for, its arguments left out of account. -/
inductive Term.Asks : Term ν → Operation ν → Prop
  | var (x : ν) : Asks (.var x) (.lookup x)
  | prompt : Asks (.nullary .prompt) .readLine
  | random : Asks (.nullary .random) .draw
  | eval (a : Term ν) (source : String) : Asks (.unary .eval a) (.load source)
  | shell (a : Term ν) (command : String) : Asks (.unary .shell a) (.shell command)
  | dump (a value : Term ν) : Asks (.unary .dump a) (.dump value)
  | endDump (a : Term ν) : Asks (.unary .dump a) (.write "\n")
  | output (a : Term ν) (text : String) : Asks (.unary .output a) (.write text)
  | assign (x : ν) (b value : Term ν) : Asks (.binary .assign (.var x) b) (.assign x value)

/-- The steps that the plan of an activity may take. -/
inductive Activity.Takes : Activity ν → Plan.Step ν → Prop
  | fault (a : Activity ν) (f : Fault) : Takes a (.halt (.error (.fault f)))
  | capacity (a : Activity ν) : Takes a (.halt .capacity)
  | evaluate (a : Activity ν) (t : Term ν) : Takes a (.await (.evaluate t))
  | coerce (a : Activity ν) (w : Want) (t : Term ν) : Takes a (.await (.coerce w t))
  | operate (a : Activity ν) (op : Arith) (left right : Term ν) :
      Takes a (.await (.operate op left right))
  | loop (a : Activity ν) (cond body : Term ν) : Takes a (.await (.loop cond body))
  | quit (arg : Term ν) (code : Int32) : Takes (.evaluate (.unary .quit arg)) (.halt (.exit code))
  | eval (arg : Term ν) (source : String) :
      Takes (.evaluate (.unary .eval arg)) (.await (.run source))
  | load (source : String) : Takes (.run source) (.ask (.load source))
  | asks {t : Term ν} {o : Operation ν} : t.Asks o → (∀ source, o ≠ .load source) →
      Takes (.evaluate t) (.ask o)

attribute [simp] Activity.Takes.fault Activity.Takes.capacity Activity.Takes.evaluate
  Activity.Takes.coerce Activity.Takes.operate Activity.Takes.loop Activity.Takes.quit
  Activity.Takes.eval Activity.Takes.load

namespace Plan

variable {P : Step ν → Prop} {plan : Plan ν α}

theorem every_ofFault {result : Except Fault γ} {next : γ → Plan ν α}
    (hfault : ∀ f, P (.halt (.error (.fault f)))) (h : ∀ c, (next c).Every P) :
    (ofFault result next).Every P := by
  cases result with
  | ok c => exact h c
  | error f => exact hfault f

theorem every_ofHalt {result : Except Halt γ} {next : γ → Plan ν α}
    (hhalt : ∀ e, result = .error e → P (.halt e)) (h : ∀ c, (next c).Every P) :
    (ofHalt result next).Every P := by
  cases result with
  | ok c => exact h c
  | error e => exact hhalt e rfl

end Plan

open Plan

/-! ## Steps of an activity -/

theorem Text.error_of_repeated {s : String} {count : Int64} {e : Halt}
    (h : Text.repeated s count = .error e) : (∃ f, e = .error (.fault f)) ∨ e = .capacity := by
  unfold Text.repeated at h
  split at h
  · cases h
    exact .inl ⟨_, rfl⟩
  · split at h
    · cases h
    · split at h
      · cases h
        exact .inr rfl
      · cases h

theorem every_planOperator (a : Activity ν) (right : Term ν) (op : Arith) (l : Literal) :
    (Activity.planOperator right op l).Every a.Takes := by
  cases l with
  | number n => exact ⟨.coerce .., fun b => every_ofFault (.fault a) fun _ => trivial⟩
  | text s =>
    cases op with
    | add => exact ⟨.coerce .., fun _ => trivial⟩
    | multiply =>
      refine ⟨.coerce .., fun count => every_ofHalt (fun e he => ?_) fun _ => trivial⟩
      rcases Text.error_of_repeated he with ⟨f, rfl⟩ | rfl
      · exact .fault a f
      · exact .capacity a
    | _ => exact .fault a _
  | _ => cases op <;> exact .fault a _

theorem every_planUnary (f : Unary) (a : Term ν) :
    (Term.planUnary f a).Every (Activity.evaluate (.unary f a)).Takes := by
  cases f with
  | shell =>
    exact ⟨.coerce .., fun command => ⟨.asks (.shell a command) nofun, fun _ => trivial⟩⟩
  | dump =>
    refine ⟨.evaluate .., fun value => ⟨.asks (.dump a value) nofun, fun _ => ?_⟩⟩
    exact ⟨.asks (.endDump a) nofun, fun _ => trivial⟩
  | output =>
    have written (text : String) :
        (Activity.evaluate (.unary .output a)).Takes (.ask (.write text)) :=
      .asks (.output a text) nofun
    refine ⟨.coerce .., fun s => ?_⟩
    unfold Term.planOutput
    split
    · exact ⟨written _, fun _ => trivial⟩
    · exact ⟨written _, fun _ => ⟨written _, fun _ => trivial⟩⟩
  | _ => simp [Term.planUnary, Every]

theorem every_planBinary (f : Binary) (a b : Term ν) :
    (Term.planBinary f a b).Every (Activity.evaluate (.binary f a b)).Takes := by
  cases f with
  | less | greater =>
    refine ⟨.evaluate .., fun left => ⟨.evaluate .., fun right => ?_⟩⟩
    exact every_ofFault (.fault _) fun _ => trivial
  | and | or =>
    refine ⟨.evaluate .., fun left => ⟨.coerce .., fun (t : Bool) => ?_⟩⟩
    cases t <;> simp [Every]
  | assign =>
    cases a with
    | var x =>
      exact ⟨.evaluate .., fun value => ⟨.asks (.assign x b value) nofun, fun _ => trivial⟩⟩
    | _ => exact .fault _ _
  | _ => simp [Term.planBinary, Every]

theorem Term.every_plan (t : Term ν) : t.plan.Every (Activity.evaluate t).Takes := by
  cases t with
  | lit l => trivial
  | var x => exact ⟨.asks (.var x) nofun, fun _ => trivial⟩
  | nullary f =>
    cases f with
    | prompt => exact ⟨.asks .prompt nofun, fun _ => trivial⟩
    | random => exact ⟨.asks .random nofun, fun _ => trivial⟩
  | unary f a => exact every_planUnary f a
  | binary f a b => exact every_planBinary f a b
  | ternary f a b c =>
    cases f with
    | branch =>
      refine ⟨.coerce .., fun (t : Bool) => ?_⟩
      cases t <;> simp [Every]
    | slice =>
      refine ⟨.coerce .., fun s => ⟨.coerce .., fun start => ⟨.coerce .., fun length => ?_⟩⟩⟩
      exact every_ofFault (.fault _) fun _ => trivial
  | quaternary f a b c d =>
    cases f with
    | splice =>
      refine ⟨.coerce .., fun s => ⟨.coerce .., fun start => ⟨.coerce .., fun length => ?_⟩⟩⟩
      exact ⟨.coerce .., fun _ => every_ofFault (.fault _) fun _ => trivial⟩

/-- An activity takes no other steps along its plan. -/
theorem Activity.every_plan (a : Activity ν) : a.plan.Every a.Takes := by
  cases a with
  | evaluate t => exact t.every_plan
  | coerce w t => cases t <;> simp [plan, Every]
  | operate op left right =>
    cases left with
    | lit l => exact every_planOperator _ right op l
    | _ => simp [plan, Every]
  | loop cond body =>
    refine ⟨.coerce .., fun (t : Bool) => ?_⟩
    cases t <;> simp [Every]
  | run source => simp [plan, Every]

end KnightLang
