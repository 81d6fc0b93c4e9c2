/-
Two runs side by side. The terms of the second run are those of the first with the content of
every variable replaced (`Term.map`), and a simulation says which machines go together. If machines
that do answer corresponding operations alike, as far as an invariant of the first one allows the
operations, then corresponding activities end alike on them (`Activity.within_matches`): with
corresponding answers, with the same halt, or both for want of the same fuel.
-/
import KnightLang.Proofs.Machine.Kept
import Mathlib.Data.Set.Defs

namespace KnightLang

open EvalM

/-! ## Outcomes side by side -/

section
variable {μ μ' α α' γ γ' : Type} {R : μ → μ' → Prop} {P : α → α' → Prop} {Q : γ → γ' → Prop}

/-- Two runs end alike: with answers related by `P` or with one and the same halt, on machines
related by `R`, or both without an outcome. -/
def Outcome.Matches (R : μ → μ' → Prop) (P : α → α' → Prop) : Outcome μ α → Outcome μ' α' → Prop
  | .value a m, .value a' m' => P a a' ∧ R m m'
  | .halted h m, .halted h' m' => h' = h ∧ R m m'
  | .unfinished, .unfinished => True
  | _, _ => False

namespace Outcome.Matches

theorem pure {a : α} {a' : α'} {m : μ} {m' : μ'} (hP : P a a') (hR : R m m') :
    ((Pure.pure a : EvalM μ α).run m).Matches R P ((Pure.pure a' : EvalM μ' α').run m') :=
  ⟨hP, hR⟩

theorem imp {R' : μ → μ' → Prop} {P' : α → α' → Prop} {o : Outcome μ α} {o' : Outcome μ' α'}
    (hR : ∀ m m', R m m' → R' m m') (hP : ∀ a a', P a a' → P' a a') (h : o.Matches R P o') :
    o.Matches R' P' o' := by
  match o, o', h with
  | .value a m, .value a' m', h => exact ⟨hP a a' h.1, hR m m' h.2⟩
  | .halted _ m, .halted _ m', h => exact ⟨h.1, hR m m' h.2⟩
  | .unfinished, .unfinished, _ => trivial

/-- What follows may use how the first run came to its answer. -/
theorem bind {x : EvalM μ α} {x' : EvalM μ' α'} {f : α → EvalM μ γ} {f' : α' → EvalM μ' γ'}
    {m : μ} {m' : μ'} (hx : (x.run m).Matches R P (x'.run m'))
    (hf : ∀ a a' m₁ m₁', x.run m = .value a m₁ → P a a' → R m₁ m₁' →
      ((f a).run m₁).Matches R Q ((f' a').run m₁')) :
    ((x >>= f).run m).Matches R Q ((x' >>= f').run m') := by
  rw [run_bind, run_bind]
  match hr : x.run m, x'.run m', hx with
  | .value a m₁, .value a' m₁', hx => exact hf a a' m₁ m₁' hr hx.1 hx.2
  | .halted _ _, .halted _ _, hx => exact hx
  | .unfinished, .unfinished, _ => trivial

end Outcome.Matches

end

/-! ## Terms with their variables replaced -/

section
variable {ν ν' : Type} (f : ν → ν')

namespace Term

theorem map_map {ν'' : Type} (g : ν' → ν'') (t : Term ν) : (t.map f).map g = t.map (g ∘ f) := by
  induction t <;> simp_all [map]

theorem kind_map (t : Term ν) : (t.map f).kind = t.kind := by cases t <;> rfl

theorem isLiteral_map (t : Term ν) : (t.map f).isLiteral = t.isLiteral := by cases t <;> rfl

theorem same_map (a b : Term ν) : (a.map f).same (b.map f) = a.same b := by
  cases a <;> cases b <;> rfl

theorem compare_map (a b : Term ν) : (a.map f).compare (b.map f) = a.compare b := by
  cases a with
  | lit l =>
    cases b with
    | lit k => cases l <;> cases k <;> rfl
    | _ => cases l <;> rfl
  | _ => cases b <;> rfl

theorem dump_map {nameOf : ν → String} {nameOf' : ν' → String}
    (h : ∀ x, nameOf' (f x) = nameOf x) (t : Term ν) : (t.map f).dump nameOf' = t.dump nameOf := by
  induction t with
  | lit l => rfl
  | var x => exact congrArg (fun name => "Identifier(" ++ name ++ ")") (h x)
  | nullary => rfl
  | unary _ a iha =>
    show "Function(" ++ (a.map f).dump nameOf' ++ ")" = _
    rw [iha]
    rfl
  | binary _ a b iha ihb =>
    show "Function(" ++ (a.map f).dump nameOf' ++ ", " ++ (b.map f).dump nameOf' ++ ")" = _
    rw [iha, ihb]
    rfl
  | ternary _ a b c iha ihb ihc =>
    show "Function(" ++ (a.map f).dump nameOf' ++ ", " ++ (b.map f).dump nameOf' ++ ", " ++
      (c.map f).dump nameOf' ++ ")" = _
    rw [iha, ihb, ihc]
    rfl
  | quaternary _ a b c d iha ihb ihc ihd =>
    show "Function(" ++ (a.map f).dump nameOf' ++ ", " ++ (b.map f).dump nameOf' ++ ", " ++
      (c.map f).dump nameOf' ++ ", " ++ (d.map f).dump nameOf' ++ ")" = _
    rw [iha, ihb, ihc, ihd]
    rfl

theorem display_map {nameOf : ν → String} {nameOf' : ν' → String}
    (h : ∀ x, nameOf' (f x) = nameOf x) (t : Term ν) :
    (t.map f).display nameOf' = t.display nameOf := by
  cases t with
  | lit l => rfl
  | _ => exact dump_map f h _

end Term

/-- The operation on the terms that replace its own. -/
def Operation.map : Operation ν → Operation ν'
  | lookup x => lookup (f x)
  | assign x value => assign (f x) (value.map f)
  | load source => load source
  | draw => draw
  | readLine => readLine
  | write text => write text
  | dump value => dump (value.map f)
  | shell command => shell command

/-- The answer that replaces the answer of an operation. -/
def Operation.mapAnswer : (o : Operation ν) → o.Answer → (o.map f).Answer
  | lookup _, value => Term.map f value
  | load _, program => Term.map f program
  | assign .., answer | draw, answer | readLine, answer | write _, answer | dump _, answer
  | shell _, answer => answer

/-- The activity on the terms that replace its own. -/
def Activity.map : Activity ν → Activity ν'
  | evaluate t => evaluate (t.map f)
  | coerce w t => coerce w (t.map f)
  | operate op left right => operate op (left.map f) (right.map f)
  | loop cond body => loop (cond.map f) (body.map f)
  | run source => run source

/-- The answer that replaces the answer of an activity. -/
def Activity.mapAnswer : (a : Activity ν) → a.Answer → (a.map f).Answer
  | evaluate _, value => Term.map f value
  | run _, value => Term.map f value
  | coerce .., answer | operate .., answer | loop .., answer => answer

/-! ## Plans side by side -/

variable {α α' : Type}

/-- Two plans take the same steps, the second one on the terms that replace those of the first. -/
def Plan.Matches (g : α → α') : Plan ν α → Plan ν' α' → Prop
  | done a, plan => plan = done (g a)
  | halt h, plan => plan = halt h
  | ask o next, plan => ∃ next', plan = ask (o.map f) next' ∧
      ∀ answer, (next answer).Matches g (next' (o.mapAnswer f answer))
  | await a next, plan => ∃ next', plan = await (a.map f) next' ∧
      ∀ answer, (next answer).Matches g (next' (a.mapAnswer f answer))

namespace Plan

variable {f} {g : α → α'}

theorem matches_ask {o : Operation ν} {next : o.Answer → Plan ν α}
    {next' : (o.map f).Answer → Plan ν' α'}
    (h : ∀ answer, (next answer).Matches f g (next' (o.mapAnswer f answer))) :
    (ask o next).Matches f g (ask (o.map f) next') := ⟨next', rfl, h⟩

theorem matches_await {a : Activity ν} {next : a.Answer → Plan ν α}
    {next' : (a.map f).Answer → Plan ν' α'}
    (h : ∀ answer, (next answer).Matches f g (next' (a.mapAnswer f answer))) :
    (await a next).Matches f g (await (a.map f) next') := ⟨next', rfl, h⟩

theorem matches_evaluate {t : Term ν} {next : Term ν → Plan ν α} {next' : Term ν' → Plan ν' α'}
    (h : ∀ value : Term ν, (next value).Matches f g (next' (value.map f))) :
    (await (.evaluate t) next).Matches f g (await (.evaluate (t.map f)) next') := ⟨next', rfl, h⟩

theorem matches_coerce {w : Want} {t : Term ν} {next : w.Answer → Plan ν α}
    {next' : w.Answer → Plan ν' α'} (h : ∀ answer, (next answer).Matches f g (next' answer)) :
    (await (.coerce w t) next).Matches f g (await (.coerce w (t.map f)) next') := ⟨next', rfl, h⟩

theorem matches_evaluate_done (t : Term ν) :
    (await (.evaluate t) done).Matches f (Term.map f) (await (.evaluate (t.map f)) done) :=
  matches_evaluate fun _ => rfl

theorem matches_ofFault {γ : Type} {result : Except Fault γ} {next : γ → Plan ν α}
    {next' : γ → Plan ν' α'} (h : ∀ c, (next c).Matches f g (next' c)) :
    (ofFault result next).Matches f g (ofFault result next') := by
  cases result with
  | ok c => exact h c
  | error e => rfl

end Plan

open Plan

theorem Term.matches_planOutput (s : String) :
    (planOutput s : Plan ν (Term ν)).Matches f (Term.map f) (planOutput s) := by
  unfold planOutput
  split
  · exact matches_ask fun _ => rfl
  · exact matches_ask fun _ => matches_ask fun _ => rfl

theorem Term.matches_planUnary (h : Unary) (a : Term ν) :
    (planUnary h a).Matches f (Term.map f) (planUnary h (a.map f)) := by
  cases h with
  | eval => exact matches_coerce fun source => matches_await fun _ => rfl
  | block => rfl
  | call => exact matches_evaluate fun code => matches_evaluate_done code
  | shell => exact matches_coerce fun command => matches_ask fun _ => rfl
  | quit | not | length => exact matches_coerce fun _ => rfl
  | dump =>
    exact matches_evaluate fun value => matches_ask fun _ => matches_ask fun _ => rfl
  | output => exact matches_coerce fun s => matches_planOutput f s

theorem Term.matches_planBinary (h : Binary) (a b : Term ν) :
    (planBinary h a b).Matches f (Term.map f) (planBinary h (a.map f) (b.map f)) := by
  cases h with
  | arith op =>
    exact matches_evaluate fun left => matches_evaluate fun right => matches_await fun _ => rfl
  | equal =>
    refine matches_evaluate fun left => matches_evaluate fun right => ?_
    rw [same_map]
    rfl
  | less | greater =>
    refine matches_evaluate fun left => matches_evaluate fun right => ?_
    rw [compare_map]
    exact matches_ofFault fun _ => rfl
  | and =>
    refine matches_evaluate fun left => matches_coerce fun (t : Bool) => ?_
    cases t
    · rfl
    · exact matches_evaluate_done b
  | or =>
    refine matches_evaluate fun left => matches_coerce fun (t : Bool) => ?_
    cases t
    · exact matches_evaluate_done b
    · rfl
  | seq => exact matches_evaluate fun _ => matches_evaluate_done b
  | assign =>
    cases a with
    | var x => exact matches_evaluate fun value => matches_ask fun _ => rfl
    | _ => exact congrArg (fun kind => Plan.fault (.invalidTarget kind)) (kind_map f _)
  | loop => exact matches_await fun _ => rfl

/-- The plan of a term with its variables replaced takes the same steps. -/
theorem Term.plan_matches (t : Term ν) : t.plan.Matches f (Term.map f) (t.map f).plan := by
  cases t with
  | lit l => rfl
  | var x => exact matches_ask fun _ => rfl
  | nullary h => cases h <;> exact matches_ask fun _ => rfl
  | unary h a => exact matches_planUnary f h a
  | binary h a b => exact matches_planBinary f h a b
  | ternary h a b c =>
    cases h with
    | branch =>
      refine matches_coerce fun (t : Bool) => ?_
      cases t
      · exact matches_evaluate_done c
      · exact matches_evaluate_done b
    | slice =>
      exact matches_coerce fun s => matches_coerce fun start => matches_coerce fun length =>
        matches_ofFault fun part => rfl
  | quaternary h a b c d =>
    cases h with
    | splice =>
      exact matches_coerce fun s => matches_coerce fun start => matches_coerce fun length =>
        matches_coerce fun replacement => matches_ofFault fun spliced => rfl

end

/-! ## Simulations -/

variable {β β' σ σ' ν ν' α α' : Type} [Bindings β ν] [Bindings β' ν'] [Host σ] [Host σ']

/-- Machines that go together while an invariant holds of the first: both answer corresponding
operations alike, if the operation is allowed. -/
structure Simulation (I : Invariant β σ ν) (f : ν → ν') (β' σ' : Type) [Bindings β' ν']
    [Host σ'] where
  relates : Machine β σ → Machine β' σ' → Prop
  perform : ∀ {m m' o}, I.holds m → relates m m' → I.allows m o →
    (o.perform.run m).Matches relates (fun answer answer' => answer' = o.mapAnswer f answer)
      ((o.map f).perform.run m')

variable {I : Invariant β σ ν} {f : ν → ν'} (S : Simulation I f β' σ')

/-- Two runs end alike, the second with the answer that replaces the answer of the first. -/
abbrev Outcome.Parallel (g : α → α') :
    Outcome (Machine β σ) α → Outcome (Machine β' σ') α' → Prop :=
  Outcome.Matches S.relates fun a a' => a' = g a

/-- Corresponding activities that are performed with two evaluations end alike, on all machines that
go together. -/
def Activity.Parallel (a : Activity ν) (x : EvalM (Machine β σ) a.Answer)
    (x' : EvalM (Machine β' σ') (a.map f).Answer) : Prop :=
  ∀ m m', I.holds m → a.Good I m → S.relates m m' →
    (x.run m).Parallel S (a.mapAnswer f) (x'.run m')

variable {S} {m : Machine β σ} {m' : Machine β' σ'}

/-- What follows may use that the invariant still holds. -/
theorem Outcome.Parallel.bind {γ γ' : Type} {g : α → α'} {P : Machine β σ → α → Prop}
    {Q : γ → γ' → Prop} {x : EvalM (Machine β σ) α} {x' : EvalM (Machine β' σ') α'}
    {next : α → EvalM (Machine β σ) γ} {next' : α' → EvalM (Machine β' σ') γ'}
    (hx : (x.run m).Parallel S g (x'.run m')) (hk : (x.run m).Keeps I P m)
    (hnext : ∀ a m₁ m₁', I.change m m₁ → I.holds m₁ → P m₁ a → S.relates m₁ m₁' →
      ((next a).run m₁).Matches S.relates Q ((next' (g a)).run m₁')) :
    ((x >>= next).run m).Matches S.relates Q ((x' >>= next').run m') := by
  refine Outcome.Matches.bind hx ?_
  rintro a _ m₁ m₁' hr rfl hm₁
  rw [hr] at hk
  obtain ⟨hc, hm, ha⟩ := hk
  exact hnext a m₁ m₁' hc hm ha hm₁

/-- Two runs that end alike, while each of them keeps an invariant of its own machine. -/
theorem Outcome.Matches.keeps {I' : Invariant β' σ' ν'} {R : Machine β σ → Machine β' σ' → Prop}
    {P : α → α' → Prop} {Q : Machine β σ → α → Prop} {Q' : Machine β' σ' → α' → Prop}
    {o : Outcome (Machine β σ) α} {o' : Outcome (Machine β' σ') α'} (h : o.Matches R P o')
    (hk : o.Keeps I Q m) (hk' : o'.Keeps I' Q' m') :
    o.Matches (fun m₁ m₁' => R m₁ m₁' ∧ (I.change m m₁ ∧ I.holds m₁) ∧
      I'.change m' m₁' ∧ I'.holds m₁') (fun a a' => P a a' ∧ ∃ m₁, Q m₁ a) o' := by
  cases o with
  | value a m₁ =>
    cases o' with
    | value a' m₁' => exact ⟨⟨h.1, m₁, hk.2.2⟩, h.2, ⟨hk.1, hk.2.1⟩, hk'.1, hk'.2.1⟩
    | halted | unfinished => exact h.elim
  | halted e m₁ =>
    cases o' with
    | halted e' m₁' => exact ⟨h.1, h.2, hk, hk'⟩
    | value | unfinished => exact h.elim
  | unfinished =>
    cases o' with
    | unfinished => trivial
    | value | halted => exact h.elim

namespace Plan

/-- Plans that take the same steps end alike if the activities that they wait for do. -/
theorem Matches.follow {p : (a : Activity ν) → EvalM (Machine β σ) a.Answer}
    {p' : (a : Activity ν') → EvalM (Machine β' σ') a.Answer}
    (hk : ∀ a m, I.holds m → a.Good I m → ((p a).run m).Keeps I (a.GoodAnswer I) m)
    (hp : ∀ a : Activity ν, a.Parallel S (p a) (p' (a.map f)))
    {P : Machine β σ → α → Prop} {plan : Plan ν α} {plan' : Plan ν' α'} {g : α → α'}
    (hplan : plan.Matches f g plan') (hm : I.holds m) (hr : S.relates m m')
    (hs : plan.Safe I P m) :
    ((plan.follow p).run m).Parallel S g ((plan'.follow p').run m') := by
  induction plan generalizing m m' plan' with
  | done a =>
    obtain rfl := hplan
    exact .pure rfl hr
  | halt h =>
    obtain rfl := hplan
    exact ⟨rfl, hr⟩
  | ask o next ih =>
    obtain ⟨next', rfl, hnext⟩ := hplan
    obtain ⟨ho, hlater⟩ := hs
    refine Outcome.Parallel.bind (S.perform hm hr ho) (o.keeps hm ho) ?_
    intro answer m₁ m₁' hc hm₁ hanswer hr₁
    exact ih answer (hnext answer) hm₁ hr₁ (hlater answer m₁ hc hm₁ hanswer)
  | await a next ih =>
    obtain ⟨next', rfl, hnext⟩ := hplan
    obtain ⟨ha, hlater⟩ := hs
    refine Outcome.Parallel.bind (hp a m m' hm ha hr) (hk a m hm ha) ?_
    intro answer m₁ m₁' hc hm₁ hanswer hr₁
    exact ih answer (hnext answer) hm₁ hr₁ (hlater answer m₁ hc hm₁ hanswer)

end Plan

/-! ## Activities with the same fuel -/

namespace Activity

section
variable {n : Nat}
  (hev : ∀ t : Term ν, (evaluate t).Parallel S (Term.eval n t) (Term.eval n (t.map f)))
include hev

theorem coerce_parallel (w : Want) (j : Nat) (t : Term ν) :
    (coerce w t).Parallel S (KnightLang.coerce w.read (Term.eval n) j t)
      (KnightLang.coerce w.read (Term.eval n) j (t.map f)) := by
  induction j generalizing t with
  | zero =>
    intro m m' hm ht hr
    cases t with
    | lit l => exact .pure rfl hr
    | _ => trivial
  | succ j ih =>
    intro m m' hm ht hr
    cases t with
    | lit l => exact .pure rfl hr
    | _ =>
      -- A round leaves a good value, on machines that still go together.
      have good := good_evaluate.2 (good_coerce.1 ht)
      refine Outcome.Parallel.bind (hev _ m m' hm good hr) (within_keeps n hm good) ?_
      intro value m₁ m₁' _ hm₁ hv hr₁
      exact ih value m₁ m₁' hm₁ (good_coerce.2 (goodAnswer_evaluate.1 hv)) hr₁

theorem operateOn_parallel {right : Term ν} (op : Arith) (l : Literal) (hm : I.holds m)
    (hright : I.good m right) (hr : S.relates m m') :
    ((operateOn (Term.eval n) n right op l).run m).Parallel S id
      ((operateOn (Term.eval n) n (right.map f) op l).run m') := by
  -- The right operand is coerced, and the machine is not asked for anything more.
  have operand : ∀ (w : Want) {next : w.Answer → EvalM (Machine β σ) Literal}
      {next' : w.Answer → EvalM (Machine β' σ') Literal},
      (∀ b m₁ m₁', S.relates m₁ m₁' → ((next b).run m₁).Parallel S id ((next' b).run m₁')) →
      ((KnightLang.coerce w.read (Term.eval n) n right >>= next).run m).Parallel S id
        ((KnightLang.coerce w.read (Term.eval n) n (right.map f) >>= next').run m') := by
    intro w next next' hnext
    have good : (coerce w right).Good I m := good_coerce.2 hright
    refine Outcome.Parallel.bind (coerce_parallel hev w n right m m' hm good hr)
      (within_keeps n hm good) ?_
    intro b m₁ m₁' _ _ _ hr₁
    exact hnext b m₁ m₁' hr₁
  cases l with
  | number a =>
    refine operand .number fun b m₁ m₁' hr₁ => ?_
    cases op.eval a b <;> exact ⟨rfl, hr₁⟩
  | text s =>
    cases op with
    | add => exact operand .text fun r m₁ m₁' hr₁ => ⟨rfl, hr₁⟩
    | multiply =>
      refine operand .number fun count m₁ m₁' hr₁ => ?_
      cases Text.repeated s count <;> exact ⟨rfl, hr₁⟩
    | _ => exact ⟨rfl, hr⟩
  | _ => cases op <;> exact ⟨rfl, hr⟩

theorem operate_parallel (op : Arith) (right : Term ν) (j : Nat) (left : Term ν) :
    (operate op left right).Parallel S (KnightLang.operate (Term.eval n) n op right j left)
      (KnightLang.operate (Term.eval n) n op (right.map f) j (left.map f)) := by
  induction j generalizing left with
  | zero =>
    intro m m' hm ha hr
    cases left with
    | lit l => exact operateOn_parallel hev op l hm (good_operate.1 ha).2 hr
    | _ => trivial
  | succ j ih =>
    intro m m' hm ha hr
    obtain ⟨hleft, hright⟩ := good_operate.1 ha
    cases left with
    | lit l => exact operateOn_parallel hev op l hm hright hr
    | _ =>
      have good := good_evaluate.2 hleft
      refine Outcome.Parallel.bind (hev _ m m' hm good hr) (within_keeps n hm good) ?_
      intro value m₁ m₁' hc hm₁ hv hr₁
      have later : (operate op value right).Good I m₁ :=
        good_operate.2 ⟨goodAnswer_evaluate.1 hv, I.good_change hc hright⟩
      exact ih value m₁ m₁' hm₁ later hr₁

theorem repeatWhile_parallel (cond body : Term ν) (j : Nat) :
    (loop cond body).Parallel S (repeatWhile (Term.eval n) n cond body j)
      (repeatWhile (Term.eval n) n (cond.map f) (body.map f) j) := by
  induction j with
  | zero => exact fun _ _ _ _ _ => trivial
  | succ j ih =>
    intro m m' hm ha hr
    obtain ⟨hcond, hbody⟩ := good_loop.1 ha
    have test : (coerce .truth cond).Good I m := good_coerce.2 hcond
    refine Outcome.Parallel.bind (coerce_parallel hev .truth n cond m m' hm test hr)
      (within_keeps n hm test) ?_
    intro (t : Bool) m₁ m₁' hc₁ hm₁ _ hr₁
    cases t with
    | false => exact .pure rfl hr₁
    | true =>
      have good := good_evaluate.2 (I.good_change hc₁ hbody)
      refine Outcome.Parallel.bind (hev body m₁ m₁' hm₁ good hr₁) (within_keeps n hm₁ good) ?_
      intro _ m₂ m₂' hc₂ hm₂ _ hr₂
      have hc := I.change_trans hc₁ hc₂
      exact ih m₂ m₂' hm₂ (good_loop.2 ⟨I.good_change hc hcond, I.good_change hc hbody⟩) hr₂

/-- If corresponding terms evaluate alike with some fuel, all activities do. -/
theorem within_parallel_of_eval (a : Activity ν) :
    a.Parallel S (a.within n) ((a.map f).within n) := by
  cases a with
  | evaluate t => exact hev t
  | coerce w t => exact coerce_parallel hev w n t
  | operate op left right => exact operate_parallel hev op right n left
  | loop cond body => exact repeatWhile_parallel hev cond body n
  | run source =>
    intro m m' hm ha hr
    have ho := good_run.1 ha
    refine Outcome.Parallel.bind (S.perform hm hr ho) (Operation.keeps hm ho) ?_
    intro program m₁ m₁' _ hm₁ hp hr₁
    have good := hp program (List.mem_singleton.2 rfl)
    exact hev program m₁ m₁' hm₁ (good_evaluate.2 good) hr₁

end

/-- Corresponding activities end alike on machines that go together, whatever the fuel. -/
theorem within_parallel (n : Nat) (a : Activity ν) :
    a.Parallel S (a.within n) ((a.map f).within n) := by
  refine within_parallel_of_eval ?_ a
  clear a
  -- A level of evaluation follows a plan, which waits for activities of the level below.
  induction n with
  | zero => exact fun _ _ _ _ _ _ => trivial
  | succ n ih =>
    intro t m m' hm ht hr
    show ((t.step (Term.eval n) n).run m).Parallel S (Term.map f)
      (((t.map f).step (Term.eval n) n).run m')
    rw [← Term.follow_plan, ← Term.follow_plan]
    exact (Term.plan_matches f t).follow (fun a m hm ha => within_keeps n hm ha)
      (within_parallel_of_eval ih) hm hr (t.safe_plan hm (good_evaluate.1 ht))

end Activity

/-! ## Machines in the same world -/

/-- Variables that go together while an invariant holds of the machine that has the first ones. -/
structure Bindings.Parallel (I : Invariant β σ ν) (f : ν → ν') (R : β → β' → Prop) : Prop where
  nameOf : ∀ x, Bindings.nameOf β' (f x) = Bindings.nameOf β x
  resolve : ∀ (b : β) (b' : β') x, f (Bindings.resolve b x) = Bindings.resolve b' x
  register : ∀ {b b'} x, R b b' → R (Bindings.register b x) (Bindings.register b' x)
  lookup : ∀ {m : Machine β σ} {b' x}, I.holds m → R m.bindings b' → I.allows m (.lookup x) →
    Bindings.value? b' (f x) = (Bindings.value? m.bindings x).map (Term.map f)
  assign : ∀ {m : Machine β σ} {b' x v}, I.holds m → R m.bindings b' → I.allows m (.assign x v) →
    R (Bindings.assign m.bindings x v) (Bindings.assign b' (f x) (v.map f))

/-- Machines go together that have such variables, the same host and the same draws. -/
def Simulation.ofBindings {R : β → β' → Prop} (h : Bindings.Parallel I f R) :
    Simulation I f β' σ where
  relates m m' := R m.bindings m'.bindings ∧ m'.host = m.host ∧ m'.draws = m.draws
  perform {m m' o} hm hr ho := by
    obtain ⟨bindings, _, _⟩ := m
    obtain ⟨bindings', host, draws⟩ := m'
    obtain ⟨hb, rfl, rfl⟩ := hr
    -- The host is asked the same on both machines.
    have hosted : ∀ {α : Type} (r : Except String α × σ),
        (Machine.answer bindings draws r).Matches
          (fun m m' => R m.bindings m'.bindings ∧ m'.host = m.host ∧ m'.draws = m.draws)
          (fun a a' => a' = a) (Machine.answer bindings' draws r) := by
      rintro α ⟨_ | _, host⟩ <;> exact ⟨rfl, hb, rfl, rfl⟩
    cases o with
    | lookup x =>
      have hvalue := h.lookup hm hb ho
      simp only [Operation.map, Operation.perform]
      rw [Machine.run_lookup, Machine.run_lookup, hvalue, h.nameOf]
      cases Bindings.value? bindings x <;> exact ⟨rfl, hb, rfl, rfl⟩
    | assign x v => exact ⟨rfl, h.assign hm hb ho, rfl, rfl⟩
    | load source =>
      have registered : ∀ (names : List String) {b : β} {b' : β'}, R b b' →
          R (Bindings.registerAll b names) (Bindings.registerAll b' names) := by
        intro names
        induction names with
        | nil => exact fun hb => hb
        | cons name names ih => exact fun hb => ih (h.register name hb)
      simp only [Operation.map, Operation.perform]
      rw [Machine.run_load, Machine.run_load]
      dsimp only
      cases (parse source).result with
      | ok t =>
        refine ⟨?_, registered _ hb, rfl, rfl⟩
        show _ = (t.map _).map f
        rw [Term.map_map]
        exact congrArg (Term.map · t) (funext fun x => (h.resolve _ _ x).symm)
      | error e => exact ⟨rfl, registered _ hb, rfl, rfl⟩
    | draw => exact ⟨rfl, hb, rfl, rfl⟩
    | readLine => exact hosted _
    | write text => exact hosted _
    | shell command => exact hosted _
    | dump value =>
      have hdump := Term.dump_map f h.nameOf value
      simp only [Operation.map, Operation.perform]
      rw [hdump]
      exact hosted _

/-! ## Stores that agree -/

namespace Store

variable {V : Set String} {store store' : Store}

/-- The names in `V` have the same values in two stores. -/
def Agrees (V : Set String) (store store' : Store) : Prop :=
  ∀ x ∈ V, store'.value? x = store.value? x

theorem Agrees.assign (h : store.Agrees V store') (x : String) (v : Term String) :
    (store.assign x v).Agrees V (store'.assign x v) := by
  intro y hy
  rw [value?_assign, value?_assign, h y hy]

theorem Agrees.register (h : store.Agrees V store') (x : String) :
    (store.register x).Agrees V (store'.register x) := by
  intro y hy
  rw [value?_register, value?_register]
  exact h y hy

/-- Stores go together that agree on the names that may be looked up. -/
theorem Agrees.parallel {I : Invariant Store σ String}
    (hI : ∀ m x, I.allows m (.lookup x) → x ∈ V) : Bindings.Parallel I id (Agrees V) where
  nameOf _ := rfl
  resolve _ _ _ := rfl
  register x h := h.register x
  lookup {m b' x} _ h hx := by
    show b'.value? x = (m.bindings.value? x).map (Term.map id)
    rw [h x (hI m x hx), funext Term.map_id]
    exact Option.map_id'.symm
  assign {m b' x v} _ h _ := by
    show (m.bindings.assign x v).Agrees V (b'.assign x (v.map id))
    rw [Term.map_id]
    exact h.assign x v

end Store

end KnightLang
