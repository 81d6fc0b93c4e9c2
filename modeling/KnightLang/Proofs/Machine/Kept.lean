/-
What evaluation keeps. An invariant says something of machines and of the terms that are
evaluated on them, and which operations may be asked of a machine. If the operations respect it
and the arguments of good terms are good, then every activity on good terms keeps it, whatever its
outcome (`Activity.kept`), and performs only activities on good terms (`Activity.good_of_reaches`).
-/
import KnightLang.Proofs.Machine.Halting

namespace KnightLang

/-! ## Terms in sight -/

section
variable {ν : Type}

/-- The arguments of a call. -/
def Term.args : Term ν → List (Term ν)
  | unary _ a => [a]
  | binary _ a b => [a, b]
  | ternary _ a b c => [a, b, c]
  | quaternary _ a b c d => [a, b, c, d]
  | _ => []

/-- Induction from the arguments of a term to the term. -/
theorem Term.induction_args {P : Term ν → Prop} (t : Term ν)
    (h : ∀ t, (∀ a ∈ t.args, P a) → P t) : P t := by
  induction t <;> exact h _ (by simp_all [args])

/-- A term stands somewhere in another one, at any depth. -/
inductive Term.Occurs (node : Term ν) : Term ν → Prop
  | self : Occurs node node
  | arg {t a : Term ν} : a ∈ t.args → Occurs node a → Occurs node t

/-- The terms that an operation is given. -/
def Operation.terms : Operation ν → List (Term ν)
  | assign _ value => [value]
  | dump value => [value]
  | _ => []

/-- The terms that the machine answers with. -/
def Operation.answered : (o : Operation ν) → o.Answer → List (Term ν)
  | lookup _, value => [value]
  | load _, program => [program]
  | _, _ => []

/-- The terms that an activity is given. -/
def Activity.terms : Activity ν → List (Term ν)
  | evaluate t => [t]
  | coerce _ t => [t]
  | operate _ left right => [left, right]
  | loop cond body => [cond, body]
  | run _ => []

/-- The terms that an activity comes to. -/
def Activity.answered : (a : Activity ν) → a.Answer → List (Term ν)
  | evaluate _, value => [value]
  | run _, value => [value]
  | _, _ => []

end

/-! ## Invariants -/

/-- An invariant of evaluation. -/
structure Invariant (β σ ν : Type) [Bindings β ν] [Host σ] where
  /-- What holds of the machine. -/
  holds : Machine β σ → Prop
  /-- How the machine may change. -/
  change : Machine β σ → Machine β σ → Prop
  /-- What holds of the terms that are evaluated. -/
  good : Machine β σ → Term ν → Prop
  /-- What may be asked of the machine. -/
  allows : Machine β σ → Operation ν → Prop
  change_refl : ∀ m, change m m
  change_trans : ∀ {m m' m''}, change m m' → change m' m'' → change m m''
  good_change : ∀ {m m' t}, change m m' → good m t → good m' t
  good_lit : ∀ {m} l, holds m → good m (.lit l)
  good_arg : ∀ {m t a}, good m t → a ∈ t.args → good m a
  allows_asked : ∀ {m t o}, holds m → good m t → t.Asks o → (∀ v ∈ o.terms, good m v) → allows m o
  value : ∀ {m o answer m'}, holds m → allows m o → o.perform.run m = .value answer m' →
    change m m' ∧ holds m' ∧ ∀ v ∈ o.answered answer, good m' v
  halted : ∀ {m o h m'}, holds m → allows m o → o.perform.run m = .halted h m' →
    change m m' ∧ holds m'

variable {β σ ν α γ : Type} [Bindings β ν] [Host σ] (I : Invariant β σ ν)

/-- An outcome keeps an invariant, with a value that satisfies `P`. -/
def Outcome.Keeps (P : Machine β σ → α → Prop) (m : Machine β σ) :
    Outcome (Machine β σ) α → Prop
  | value a m' => I.change m m' ∧ I.holds m' ∧ P m' a
  | halted _ m' => I.change m m' ∧ I.holds m'
  | unfinished => True

/-- An activity is given good terms only, and reads a source only if that is allowed. -/
def Activity.Good (m : Machine β σ) (a : Activity ν) : Prop :=
  (∀ t ∈ a.terms, I.good m t) ∧ ∀ source, a = .run source → I.allows m (.load source)

/-- An activity comes to good terms only. -/
def Activity.GoodAnswer (a : Activity ν) (m : Machine β σ) (answer : a.Answer) : Prop :=
  ∀ t ∈ a.answered answer, I.good m t

variable {I}

theorem Outcome.Keeps.after {P : Machine β σ → α → Prop} {m m₁ : Machine β σ}
    {o : Outcome (Machine β σ) α} (hc : I.change m m₁) (ho : o.Keeps I P m₁) : o.Keeps I P m := by
  cases o with
  | value a m' => exact ⟨I.change_trans hc ho.1, ho.2⟩
  | halted h m' => exact ⟨I.change_trans hc ho.1, ho.2⟩
  | unfinished => trivial

theorem Outcome.Keeps.imp {P Q : Machine β σ → α → Prop} {m : Machine β σ}
    {o : Outcome (Machine β σ) α} (h : ∀ m' a, P m' a → Q m' a) (ho : o.Keeps I P m) :
    o.Keeps I Q m := by
  cases o with
  | value a m' => exact ⟨ho.1, ho.2.1, h m' a ho.2.2⟩
  | halted | unfinished => exact ho

/-- However it ends, an outcome keeps the invariant of its machine. -/
theorem Outcome.Keeps.machine {P : Machine β σ → α → Prop} {m m' : Machine β σ}
    {o : Outcome (Machine β σ) α} (ho : o.Keeps I P m) (hm' : o.machine? = some m') :
    I.change m m' ∧ I.holds m' := by
  cases o with
  | value a _ =>
    cases hm'
    exact ⟨ho.1, ho.2.1⟩
  | halted h _ =>
    cases hm'
    exact ho
  | unfinished => cases hm'

theorem Outcome.keeps_pure {P : Machine β σ → α → Prop} {m : Machine β σ} {a : α}
    (hm : I.holds m) (ha : P m a) :
    ((pure a : EvalM (Machine β σ) α).run m).Keeps I P m := ⟨I.change_refl m, hm, ha⟩

theorem Outcome.Keeps.bind {P : Machine β σ → α → Prop} {Q : Machine β σ → γ → Prop}
    {x : EvalM (Machine β σ) α} {f : α → EvalM (Machine β σ) γ} {m : Machine β σ}
    (hx : (x.run m).Keeps I P m)
    (hf : ∀ a m', I.change m m' → I.holds m' → P m' a → ((f a).run m').Keeps I Q m') :
    ((x >>= f).run m).Keeps I Q m := by
  rw [EvalM.run_bind]
  cases hr : x.run m with
  | value a m' =>
    rw [hr] at hx
    obtain ⟨hc, hm', ha⟩ := hx
    exact (hf a m' hc hm' ha).after hc
  | halted h m' =>
    rw [hr] at hx
    exact hx
  | unfinished => trivial

theorem Operation.keeps {o : Operation ν} {m : Machine β σ} (hm : I.holds m)
    (ho : I.allows m o) :
    (o.perform.run m).Keeps I (fun m' answer => ∀ v ∈ o.answered answer, I.good m' v) m := by
  cases hr : o.perform.run m with
  | value answer m' => exact I.value hm ho hr
  | halted h m' => exact I.halted hm ho hr
  | unfinished => trivial

namespace Activity

variable {m : Machine β σ}

@[simp] theorem good_evaluate {t : Term ν} : (evaluate t).Good I m ↔ I.good m t := by
  simp [Good, terms]

@[simp] theorem good_coerce {w : Want} {t : Term ν} : (coerce w t).Good I m ↔ I.good m t := by
  simp [Good, terms]

@[simp] theorem good_operate {op : Arith} {left right : Term ν} :
    (operate op left right).Good I m ↔ I.good m left ∧ I.good m right := by
  simp [Good, terms]

@[simp] theorem good_loop {cond body : Term ν} :
    (loop cond body).Good I m ↔ I.good m cond ∧ I.good m body := by
  simp [Good, terms]

@[simp] theorem good_run {source : String} :
    (run source).Good I m ↔ I.allows m (.load source) := by
  simp [Good, terms]

theorem goodAnswer_evaluate {t value : Term ν} :
    (evaluate t).GoodAnswer I m value ↔ I.good m value := by
  simp [GoodAnswer, answered]

theorem goodAnswer_run {source : String} {value : Term ν} :
    (run source).GoodAnswer I m value ↔ I.good m value := by
  simp [GoodAnswer, answered]

end Activity

/-! ## Plans that respect an invariant -/

namespace Plan

variable (I) in
/-- Followed from a machine, a plan asks only for what is allowed, waits only for good activities
and comes to a value that satisfies `P`. -/
def Safe (P : Machine β σ → α → Prop) : Plan ν α → Machine β σ → Prop
  | done a, m => P m a
  | halt _, _ => True
  | ask o next, m => I.allows m o ∧ ∀ answer m', I.change m m' → I.holds m' →
      (∀ v ∈ o.answered answer, I.good m' v) → (next answer).Safe P m'
  | await a next, m => a.Good I m ∧ ∀ answer m', I.change m m' → I.holds m' →
      a.GoodAnswer I m' answer → (next answer).Safe P m'

variable {P : Machine β σ → α → Prop} {plan rest : Plan ν α} {m m' : Machine β σ}

theorem safe_ofFault {result : Except Fault γ} {next : γ → Plan ν α}
    (h : ∀ c, (next c).Safe I P m) : (ofFault result next).Safe I P m := by
  cases result with
  | ok c => exact h c
  | error f => trivial

theorem safe_ofHalt {result : Except Halt γ} {next : γ → Plan ν α}
    (h : ∀ c, (next c).Safe I P m) : (ofHalt result next).Safe I P m := by
  cases result with
  | ok c => exact h c
  | error h => trivial

theorem Safe.imp {Q : Machine β σ → α → Prop} (h : ∀ m a, P m a → Q m a)
    (hs : plan.Safe I P m) : plan.Safe I Q m := by
  induction plan generalizing m with
  | done a => exact h m a hs
  | halt h => trivial
  | ask o next ih =>
    exact ⟨hs.1, fun answer m' hc hm' ha => ih answer (hs.2 answer m' hc hm' ha)⟩
  | await a next ih =>
    exact ⟨hs.1, fun answer m' hc hm' ha => ih answer (hs.2 answer m' hc hm' ha)⟩

/-- A safe plan keeps the invariant if the activities that it waits for do. -/
theorem Safe.follow {p : (a : Activity ν) → EvalM (Machine β σ) a.Answer}
    (hp : ∀ a m, I.holds m → a.Good I m → ((p a).run m).Keeps I (a.GoodAnswer I) m)
    (hm : I.holds m) (hs : plan.Safe I P m) : ((plan.follow p).run m).Keeps I P m := by
  induction plan generalizing m with
  | done a => exact ⟨I.change_refl m, hm, hs⟩
  | halt h => exact ⟨I.change_refl m, hm⟩
  | ask o next ih =>
    obtain ⟨ho, hnext⟩ := hs
    exact (o.keeps hm ho).bind fun answer m' hc hm' ha => ih answer hm' (hnext answer m' hc hm' ha)
  | await a next ih =>
    obtain ⟨ha, hnext⟩ := hs
    exact (hp a m hm ha).bind fun answer m' hc hm' ha => ih answer hm' (hnext answer m' hc hm' ha)

section
variable {t : Term ν}

theorem safe_evaluate {next : Term ν → Plan ν α} (ht : I.good m t)
    (h : ∀ value m', I.change m m' → I.holds m' → I.good m' value → (next value).Safe I P m') :
    (await (.evaluate t) next).Safe I P m :=
  ⟨Activity.good_evaluate.2 ht, fun value m' hc hm' hv =>
    h value m' hc hm' (Activity.goodAnswer_evaluate.1 hv)⟩

theorem safe_evaluate_done (ht : I.good m t) : (await (.evaluate t) done).Safe I I.good m :=
  safe_evaluate ht fun _ _ _ _ hv => hv

theorem safe_coerce {w : Want} {next : w.Answer → Plan ν α} (ht : I.good m t)
    (h : ∀ answer m', I.change m m' → I.holds m' → (next answer).Safe I P m') :
    (await (.coerce w t) next).Safe I P m :=
  ⟨Activity.good_coerce.2 ht, fun answer m' hc hm' _ => h answer m' hc hm'⟩

theorem safe_ask {o : Operation ν} {next : o.Answer → Plan ν α} (ho : I.allows m o)
    (h : ∀ answer m', I.change m m' → I.holds m' → (∀ v ∈ o.answered answer, I.good m' v) →
      (next answer).Safe I P m') : (ask o next).Safe I P m :=
  ⟨ho, h⟩

end

end Plan

/-! ## Plans of good terms -/

section
variable {m : Machine β σ} {t : Term ν}

open Plan

/-- What a good term asks for is allowed, if it hands on no term. -/
theorem Invariant.allows_of_asks {o : Operation ν} (hm : I.holds m) (ht : I.good m t)
    (ho : t.Asks o) (hterms : o.terms = []) : I.allows m o :=
  I.allows_asked hm ht ho (by simp [hterms])

theorem safe_planUnary {f : Unary} {a : Term ν} (ht : I.good m (.unary f a)) :
    (Term.planUnary f a).Safe I I.good m := by
  have ha : I.good m a := I.good_arg ht (by simp [Term.args])
  have later : ∀ {m'}, I.change m m' → I.good m' (.unary f a) := fun hc => I.good_change hc ht
  cases f with
  | eval =>
    -- The program is good as soon as its source may be read.
    refine safe_coerce ha fun source m₁ hc₁ hm₁ => ?_
    have ho : I.allows m₁ (.load source) := I.allows_of_asks hm₁ (later hc₁) (.eval a source) rfl
    exact ⟨Activity.good_run.2 ho, fun value m₂ _ _ hv => Activity.goodAnswer_run.1 hv⟩
  | block => exact ha
  | call => exact safe_evaluate ha fun code m₁ _ _ hcode => safe_evaluate_done hcode
  | shell =>
    refine safe_coerce ha fun command m₁ hc₁ hm₁ => ?_
    refine safe_ask (I.allows_of_asks hm₁ (later hc₁) (.shell a command) rfl) ?_
    exact fun _ m₂ _ hm₂ _ => I.good_lit _ hm₂
  | quit => exact safe_coerce ha fun _ _ _ _ => trivial
  | not | length => exact safe_coerce ha fun _ m₁ _ hm₁ => I.good_lit _ hm₁
  | dump =>
    refine safe_evaluate ha fun value m₁ hc₁ hm₁ hv => ?_
    refine safe_ask (I.allows_asked hm₁ (later hc₁) (.dump a value) (by simpa [Operation.terms]))
      fun _ m₂ hc₂ hm₂ _ => ?_
    refine safe_ask (I.allows_of_asks hm₂ (I.good_change hc₂ (later hc₁)) (.endDump a) rfl)
      fun _ m₃ hc₃ _ _ => ?_
    exact I.good_change (I.change_trans hc₂ hc₃) hv
  | output =>
    refine safe_coerce ha fun text m₁ hc₁ hm₁ => ?_
    have allowed : ∀ {m'} s, I.change m m' → I.holds m' → I.allows m' (.write s) :=
      fun s hc hm' => I.allows_of_asks hm' (later hc) (.output a s) rfl
    unfold Term.planOutput
    split
    · rename_i line _
      exact safe_ask (allowed line hc₁ hm₁) fun _ m₂ _ hm₂ _ => I.good_lit _ hm₂
    · refine safe_ask (allowed text hc₁ hm₁) fun _ m₂ hc₂ hm₂ _ => ?_
      refine safe_ask (allowed "\n" (I.change_trans hc₁ hc₂) hm₂) fun _ m₃ _ hm₃ _ => ?_
      exact I.good_lit _ hm₃

theorem safe_planBinary {f : Binary} {a b : Term ν} (ht : I.good m (.binary f a b)) :
    (Term.planBinary f a b).Safe I I.good m := by
  have ha : I.good m a := I.good_arg ht (by simp [Term.args])
  have hb : I.good m b := I.good_arg ht (by simp [Term.args])
  -- Most builtins evaluate both arguments first, the second on the machine left by the first.
  have both : ∀ {next : Term ν → Term ν → Plan ν (Term ν)},
      (∀ left right m', I.holds m' → I.good m' left → I.good m' right →
        (next left right).Safe I I.good m') →
      (await (.evaluate a) fun left => await (.evaluate b) fun right => next left right).Safe
        I I.good m := by
    intro next h
    refine safe_evaluate ha fun left m₁ hc₁ hm₁ hl => ?_
    refine safe_evaluate (I.good_change hc₁ hb) fun right m₂ hc₂ hm₂ hr => ?_
    exact h left right m₂ hm₂ (I.good_change hc₂ hl) hr
  cases f with
  | arith op =>
    refine both fun left right m₂ hm₂ hl hr => ?_
    exact ⟨Activity.good_operate.2 ⟨hl, hr⟩, fun l m₃ _ hm₃ _ => I.good_lit l hm₃⟩
  | equal => exact both fun left right m₂ hm₂ _ _ => I.good_lit _ hm₂
  | less | greater =>
    exact both fun left right m₂ hm₂ _ _ => safe_ofFault fun order => I.good_lit _ hm₂
  | and =>
    refine safe_evaluate ha fun left m₁ hc₁ hm₁ hl => ?_
    refine safe_coerce hl fun t m₂ hc₂ hm₂ => ?_
    cases t
    · exact I.good_change hc₂ hl
    · exact safe_evaluate_done (I.good_change (I.change_trans hc₁ hc₂) hb)
  | or =>
    refine safe_evaluate ha fun left m₁ hc₁ hm₁ hl => ?_
    refine safe_coerce hl fun t m₂ hc₂ hm₂ => ?_
    cases t
    · exact safe_evaluate_done (I.good_change (I.change_trans hc₁ hc₂) hb)
    · exact I.good_change hc₂ hl
  | seq =>
    exact safe_evaluate ha fun _ m₁ hc₁ _ _ => safe_evaluate_done (I.good_change hc₁ hb)
  | assign =>
    cases a with
    | var x =>
      refine safe_evaluate hb fun value m₁ hc₁ hm₁ hv => ?_
      have asked := I.good_change hc₁ ht
      refine safe_ask (I.allows_asked hm₁ asked (.assign x b value) (by simpa [Operation.terms]))
        fun _ m₂ hc₂ _ _ => ?_
      exact I.good_change hc₂ hv
    | _ => trivial
  | loop =>
    exact ⟨Activity.good_loop.2 ⟨ha, hb⟩, fun _ m₁ _ hm₁ _ => I.good_lit _ hm₁⟩

/-- The plan of a good term is safe, and comes to a good term. -/
theorem Term.safe_plan (hm : I.holds m) (ht : I.good m t) : t.plan.Safe I I.good m := by
  cases t with
  | lit l => exact I.good_lit l hm
  | var x =>
    refine safe_ask (I.allows_of_asks hm ht (.var x) rfl) fun value m₁ _ _ hv => ?_
    exact hv value (by simp [Operation.answered])
  | nullary f =>
    cases f with
    | prompt =>
      exact safe_ask (I.allows_of_asks hm ht .prompt rfl) fun _ m₁ _ hm₁ _ => I.good_lit _ hm₁
    | random =>
      exact safe_ask (I.allows_of_asks hm ht .random rfl) fun _ m₁ _ hm₁ _ => I.good_lit _ hm₁
  | unary f a => exact safe_planUnary ht
  | binary f a b => exact safe_planBinary ht
  | ternary f a b c =>
    have ha : I.good m a := I.good_arg ht (by simp [args])
    have hb : I.good m b := I.good_arg ht (by simp [args])
    have hc : I.good m c := I.good_arg ht (by simp [args])
    cases f with
    | branch =>
      refine safe_coerce ha fun t m₁ hc₁ _ => ?_
      cases t
      · exact safe_evaluate_done (I.good_change hc₁ hc)
      · exact safe_evaluate_done (I.good_change hc₁ hb)
    | slice =>
      refine safe_coerce ha fun s m₁ hc₁ _ => ?_
      refine safe_coerce (I.good_change hc₁ hb) fun start m₂ hc₂ _ => ?_
      have hc₁₂ := I.change_trans hc₁ hc₂
      refine safe_coerce (I.good_change hc₁₂ hc) fun length m₃ _ hm₃ => ?_
      exact safe_ofFault fun part => I.good_lit _ hm₃
  | quaternary f a b c d =>
    have ha : I.good m a := I.good_arg ht (by simp [args])
    have hb : I.good m b := I.good_arg ht (by simp [args])
    have hc : I.good m c := I.good_arg ht (by simp [args])
    have hd : I.good m d := I.good_arg ht (by simp [args])
    cases f with
    | splice =>
      refine safe_coerce ha fun s m₁ hc₁ _ => ?_
      refine safe_coerce (I.good_change hc₁ hb) fun start m₂ hc₂ _ => ?_
      have hc₁₂ := I.change_trans hc₁ hc₂
      refine safe_coerce (I.good_change hc₁₂ hc) fun length m₃ hc₃ _ => ?_
      have hc₁₂₃ := I.change_trans hc₁₂ hc₃
      refine safe_coerce (I.good_change hc₁₂₃ hd) fun replacement m₄ _ hm₄ => ?_
      exact safe_ofFault fun spliced => I.good_lit _ hm₄

theorem safe_planOperator {right : Term ν} (op : Arith) (l : Literal) (hr : I.good m right) :
    (Activity.planOperator right op l).Safe I (fun _ _ => True) m := by
  cases l with
  | number a => exact safe_coerce hr fun _ _ _ _ => safe_ofFault fun _ => trivial
  | text s =>
    cases op with
    | add => exact safe_coerce hr fun _ _ _ _ => trivial
    | multiply => exact safe_coerce hr fun _ _ _ _ => safe_ofHalt fun _ => trivial
    | _ => trivial
  | _ => cases op <;> trivial

/-- The plan of a good activity is safe. -/
theorem Activity.safe_plan {a : Activity ν} (hm : I.holds m) (ha : a.Good I m) :
    a.plan.Safe I (a.GoodAnswer I) m := by
  cases a with
  | evaluate t =>
    exact (t.safe_plan hm (good_evaluate.1 ha)).imp fun _ _ => goodAnswer_evaluate.2
  | coerce w t =>
    have ht : I.good m t := good_coerce.1 ha
    -- A coercion answers with no term, so nothing is left to say of its answer.
    have noTerms : ∀ (m' : Machine β σ) (answer : w.Answer),
        (coerce w t).GoodAnswer I m' answer := by simp [GoodAnswer, answered]
    cases t with
    | lit l => exact noTerms m _
    | _ =>
      refine safe_evaluate ht fun value m₁ _ _ hv => ?_
      exact safe_coerce hv fun answer m₂ _ _ => noTerms m₂ answer
  | operate op left right =>
    obtain ⟨hl, hr⟩ := good_operate.1 ha
    have noTerms : ∀ (m' : Machine β σ) (answer : Literal),
        (operate op left right).GoodAnswer I m' answer := by simp [GoodAnswer, answered]
    cases left with
    | lit l => exact (safe_planOperator op l hr).imp fun m' answer _ => noTerms m' answer
    | _ =>
      refine safe_evaluate hl fun value m₁ hc₁ _ hv => ?_
      refine ⟨good_operate.2 ⟨hv, I.good_change hc₁ hr⟩, fun answer m₂ _ _ _ => ?_⟩
      exact noTerms m₂ answer
  | loop cond body =>
    obtain ⟨hcond, hbody⟩ := good_loop.1 ha
    have noTerms : ∀ (m' : Machine β σ) (answer : Unit),
        (loop cond body).GoodAnswer I m' answer := by simp [GoodAnswer, answered]
    refine safe_coerce hcond fun t m₁ hc₁ _ => ?_
    cases t
    · exact noTerms m₁ ()
    · refine safe_evaluate (I.good_change hc₁ hbody) fun _ m₂ hc₂ _ _ => ?_
      have hc₁₂ := I.change_trans hc₁ hc₂
      refine ⟨good_loop.2 ⟨I.good_change hc₁₂ hcond, I.good_change hc₁₂ hbody⟩, ?_⟩
      exact fun answer m₃ _ _ _ => noTerms m₃ answer
  | run source =>
    refine safe_ask (good_run.1 ha) fun program m₁ _ _ hp => ?_
    have program_good : I.good m₁ program := hp program (by simp [Operation.answered])
    exact (safe_evaluate_done program_good).imp fun _ _ => goodAnswer_run.2

end

/-! ## Whole evaluations -/

namespace Activity

variable {a a' : Activity ν} {m m₁ : Machine β σ}

theorem perform_keeps (n : Nat) (hm : I.holds m) (ha : a.Good I m) :
    ((a.perform n).run m).Keeps I (a.GoodAnswer I) m := by
  induction n generalizing a m with
  | zero => trivial
  | succ n ih => exact (safe_plan hm ha).follow (fun a m hm ha => ih hm ha) hm

/-- A good activity keeps the invariant, and comes to good terms. -/
theorem within_keeps (n : Nat) (hm : I.holds m) (ha : a.Good I m) :
    ((a.within n).run m).Keeps I (a.GoodAnswer I) m := by
  by_cases h : (a.within n).run m = .unfinished
  · rw [h]
    trivial
  · obtain ⟨k, hk⟩ := (within_iff_perform h).1 ⟨n, rfl⟩
    rw [← hk]
    exact perform_keeps k hm ha

theorem good_of_comesTo {P : Machine β σ → α → Prop} {plan rest : Plan ν α}
    (hc : plan.ComesTo m rest m₁) (hm : I.holds m) (hs : plan.Safe I P m) :
    I.change m m₁ ∧ I.holds m₁ ∧ rest.Safe I P m₁ := by
  induction hc with
  | here plan m => exact ⟨I.change_refl m, hm, hs⟩
  | asked answered _ ih =>
    obtain ⟨hc, hm', ha⟩ := I.value hm hs.1 answered
    obtain ⟨hc', hrest⟩ := ih hm' (hs.2 _ _ hc hm' ha)
    exact ⟨I.change_trans hc hc', hrest⟩
  | awaited yields _ ih =>
    -- What the activity came to is good because it keeps the invariant itself.
    obtain ⟨n, hn⟩ := yields
    have keeps := within_keeps n hm hs.1
    rw [hn] at keeps
    obtain ⟨hc, hm', ha⟩ := keeps
    obtain ⟨hc', hrest⟩ := ih hm' (hs.2 _ _ hc hm' ha)
    exact ⟨I.change_trans hc hc', hrest⟩

/-- A good activity performs good activities only, on machines that the invariant holds of. -/
theorem good_of_reaches {s s' : Activity ν × Machine β σ} (hr : Reaches s s')
    (hm : I.holds s.2) (ha : s.1.Good I s.2) :
    I.change s.2 s'.2 ∧ I.holds s'.2 ∧ s'.1.Good I s'.2 := by
  induction hr with
  | refl => exact ⟨I.change_refl s.2, hm, ha⟩
  | tail _ hp ih =>
    obtain ⟨hc, hm₁, ha₁⟩ := ih
    obtain ⟨next, hplan⟩ := hp
    obtain ⟨hc', hm₂, hrest⟩ := good_of_comesTo hplan hm₁ (safe_plan hm₁ ha₁)
    exact ⟨I.change_trans hc hc', hm₂, hrest.1⟩

end Activity

/-! ## Invariants of the variables -/

/-- An invariant that speaks of the variables of a machine only. -/
structure VariableInvariant (β ν : Type) [Bindings β ν] where
  holds : β → Prop
  change : β → β → Prop
  good : β → Term ν → Prop
  allows : β → Operation ν → Prop
  change_refl : ∀ b, change b b
  change_trans : ∀ {b b' b''}, change b b' → change b' b'' → change b b''
  good_change : ∀ {b b' t}, change b b' → good b t → good b' t
  good_lit : ∀ {b} l, holds b → good b (.lit l)
  good_arg : ∀ {b t a}, good b t → a ∈ t.args → good b a
  allows_asked : ∀ {b t o}, holds b → good b t → t.Asks o → (∀ v ∈ o.terms, good b v) → allows b o
  lookup : ∀ {b x v}, holds b → allows b (.lookup x) → Bindings.value? b x = some v → good b v
  assign : ∀ {b x v}, holds b → allows b (.assign x v) →
    change b (Bindings.assign b x v) ∧ holds (Bindings.assign b x v)
  load : ∀ {b source}, holds b → allows b (.load source) →
    let b' := Bindings.registerAll b (parse source).names
    change b b' ∧ holds b' ∧
      ∀ t, (parse source).result = .ok t → good b' (t.map (Bindings.resolve b'))

/-- The variables after an operation, whether it was answered or refused. -/
def Operation.after (b : β) : Operation ν → β
  | assign x value => Bindings.assign b x value
  | load source => Bindings.registerAll b (parse source).names
  | _ => b

theorem Operation.bindings_of_perform {o : Operation ν} {m m' : Machine β σ}
    (h : (o.perform.run m).machine? = some m') : m'.bindings = o.after m.bindings := by
  -- The host leaves the variables alone.
  have hosted : ∀ {γ : Type} (r : Except String γ × σ),
      (Machine.answer m.bindings m.draws r).machine? = some m' → m'.bindings = m.bindings := by
    rintro γ ⟨_ | _, host⟩ h <;> (cases h; rfl)
  cases o with
  | lookup x =>
    rw [perform, Machine.run_lookup] at h
    split at h <;> (cases h; rfl)
  | load source =>
    rw [perform, Machine.run_load] at h
    dsimp only at h
    split at h <;> (cases h; rfl)
  | assign | draw =>
    cases h
    rfl
  | readLine | write | dump | shell => exact hosted _ h

namespace VariableInvariant

variable (V : VariableInvariant β ν) {o : Operation ν}

theorem after_keeps {b : β} (hb : V.holds b) (ho : V.allows b o) :
    V.change b (o.after b) ∧ V.holds (o.after b) := by
  cases o with
  | assign => exact V.assign hb ho
  | load =>
    obtain ⟨hc, hload, -⟩ := V.load hb ho
    exact ⟨hc, hload⟩
  | _ => exact ⟨V.change_refl b, hb⟩

theorem good_of_answered {m m' : Machine β σ} {answer : o.Answer} (hm : V.holds m.bindings)
    (ho : V.allows m.bindings o) (h : o.perform.run m = .value answer m') :
    ∀ t ∈ o.answered answer, V.good m'.bindings t := by
  intro t ht
  cases o with
  | lookup x =>
    rw [List.mem_singleton.1 ht]
    rw [Operation.perform, Machine.run_lookup] at h
    split at h
    · rename_i hv
      cases h
      exact V.lookup hm ho hv
    · cases h
  | load source =>
    rw [List.mem_singleton.1 ht]
    obtain ⟨-, -, hprogram⟩ := V.load hm ho
    rw [Operation.perform, Machine.run_load] at h
    dsimp only at h
    split at h
    · rename_i program hparse
      cases h
      exact hprogram program hparse
    · cases h
  | _ => cases ht

/-- The invariant, on a machine. -/
def onMachine (V : VariableInvariant β ν) (σ : Type) [Host σ] : Invariant β σ ν where
  holds m := V.holds m.bindings
  change m m' := V.change m.bindings m'.bindings
  good m t := V.good m.bindings t
  allows m o := V.allows m.bindings o
  change_refl m := V.change_refl m.bindings
  change_trans := V.change_trans
  good_change := V.good_change
  good_lit := V.good_lit
  good_arg := V.good_arg
  allows_asked := V.allows_asked
  value {m o _ m'} hm ho h := by
    have hb : m'.bindings = o.after m.bindings := Operation.bindings_of_perform (by rw [h]; rfl)
    obtain ⟨hc, hafter⟩ := V.after_keeps hm ho
    rw [← hb] at hc hafter
    exact ⟨hc, hafter, V.good_of_answered hm ho h⟩
  halted {m o _ m'} hm ho h := by
    have hb : m'.bindings = o.after m.bindings := Operation.bindings_of_perform (by rw [h]; rfl)
    rw [hb]
    exact V.after_keeps hm ho

end VariableInvariant

end KnightLang
