/-
Which sources a run reads. A source is read where it is run, which is either at the start or by an
`E` whose argument came to it (`reaches_run_iff`). What a plan reads is told along the plan, by what
its operations and the activities that it waits for read (`Plan.Reads`); along the plan of an
activity this is every source that is run at some depth (`Activity.reads_iff_reaches`).
-/
import KnightLang.Proofs.Machine.Halting

namespace KnightLang

variable {β σ ν : Type} [Bindings β ν] [Host σ]

/-! ## Runs that are performed -/

section
variable {a : Activity ν} {m m₁ : Machine β σ} {source : String}

/-- Only a run reads a source. -/
theorem Activity.eq_run_of_comesTo {next : Term ν → Plan ν a.Answer}
    (h : a.plan.ComesTo m (.ask (.load source) next) m₁) : a = .run source := by
  have takes : a.Takes (.ask (.load source)) := (h.every a.every_plan).1
  cases takes with
  | load => rfl
  | asks _ hload => exact absurd rfl (hload source)

/-- Only `E` waits for the run of a source, which its argument came to. -/
theorem Performs.eval_of_run (h : Performs (a, m) (.run source, m₁)) :
    ∃ arg, a = .evaluate (.unary .eval arg) ∧ (Activity.coerce .text arg).Yields m source m₁ := by
  obtain ⟨next, hc⟩ := h
  have takes : a.Takes (.await (.run source)) := (hc.every a.every_plan).1
  cases takes with
  | eval arg =>
    cases hc with
    | awaited yields later =>
      cases later with
      | here => exact ⟨arg, rfl, yields⟩
      | awaited _ later => cases later

theorem performs_eval {arg : Term ν} (h : (Activity.coerce .text arg).Yields m source m₁) :
    Performs (.evaluate (.unary .eval arg), m) (.run source, m₁) :=
  ⟨_, .awaited h (.here _ _)⟩

/-- The sources that are run at some depth are the one that is run at the start and those that `E`
is handed. -/
theorem reaches_run_iff : (∃ m₁, Reaches (a, m) (.run source, m₁)) ↔
    a = .run source ∨ ∃ arg m₁ m₂, Reaches (a, m) (.evaluate (.unary .eval arg), m₁) ∧
      (Activity.coerce .text arg).Yields m₁ source m₂ := by
  constructor
  · rintro ⟨m₂, hreach⟩
    cases hreach with
    | refl => exact .inl rfl
    | @tail b _ hreach hlast =>
      obtain ⟨b, m₁⟩ := b
      obtain ⟨arg, rfl, yields⟩ := hlast.eval_of_run
      exact .inr ⟨arg, m₁, m₂, hreach, yields⟩
  · rintro (rfl | ⟨arg, m₁, m₂, hreach, yields⟩)
    · exact ⟨m, .refl⟩
    · exact ⟨m₂, hreach.tail (performs_eval yields)⟩

end

/-! ## What a plan reads -/

/-- Followed from a machine, a plan reads a source: it asks for this itself, or an activity that it
waits for does. -/
inductive Plan.Reads (source : String) : {α : Type} → Plan ν α → Machine β σ → Prop
  | here {α : Type} (next : Term ν → Plan ν α) (m : Machine β σ) :
      Reads source (.ask (.load source) next) m
  | asked {α : Type} {o : Operation ν} {next : o.Answer → Plan ν α} {answer : o.Answer}
      {m m₁ : Machine β σ} (answered : o.perform.run m = .value answer m₁)
      (later : Reads source (next answer) m₁) : Reads source (.ask o next) m
  | inside {α : Type} {a : Activity ν} {next : a.Answer → Plan ν α} {m : Machine β σ}
      (first : Reads source a.plan m) : Reads source (.await a next) m
  | awaited {α : Type} {a : Activity ν} {next : a.Answer → Plan ν α} {answer : a.Answer}
      {m m₁ : Machine β σ} (yields : a.Yields m answer m₁)
      (later : Reads source (next answer) m₁) : Reads source (.await a next) m

section
variable {α : Type} {source : String} {m m₁ : Machine β σ}

namespace Plan

theorem ComesTo.reads {plan rest : Plan ν α} (h : plan.ComesTo m rest m₁)
    (hr : rest.Reads source m₁) : plan.Reads source m := by
  induction h with
  | here => exact hr
  | asked answered _ ih => exact .asked answered (ih hr)
  | awaited yields _ ih => exact .awaited yields (ih hr)

/-- A plan that reads a source comes to ask for it, or performs an activity that does so at some
depth. -/
theorem Reads.cases_steps {plan : Plan ν α} (h : plan.Reads source m) :
    (∃ next m₁, plan.ComesTo m (.ask (.load source) next) m₁) ∨
      ∃ a m₁ m₂, plan.Starts m a m₁ ∧ Reaches (a, m₁) (.run source, m₂) := by
  induction h with
  | here next m => exact .inl ⟨next, m, .here _ _⟩
  | asked answered _ ih =>
    rcases ih with ⟨next, m₂, hc⟩ | ⟨a, m₂, m₃, ⟨next, hc⟩, hreach⟩
    · exact .inl ⟨next, m₂, .asked answered hc⟩
    · exact .inr ⟨a, m₂, m₃, ⟨next, .asked answered hc⟩, hreach⟩
  | @inside _ a next m _ ih =>
    refine .inr ⟨a, m, ?_⟩
    rcases ih with ⟨_, _, hc⟩ | ⟨b, m₁, m₂, hstart, hreach⟩
    · obtain rfl := Activity.eq_run_of_comesTo hc
      exact ⟨m, ⟨next, .here _ _⟩, .refl⟩
    · have first : Performs (a, m) (b, m₁) := hstart
      exact ⟨m₂, ⟨next, .here _ _⟩, hreach.head first⟩
  | awaited yields _ ih =>
    rcases ih with ⟨next, m₂, hc⟩ | ⟨a, m₂, m₃, ⟨next, hc⟩, hreach⟩
    · exact .inl ⟨next, m₂, .awaited yields hc⟩
    · exact .inr ⟨a, m₂, m₃, ⟨next, .awaited yields hc⟩, hreach⟩

end Plan

/-! ## Reading, step by step -/

/-- An activity has at most one outcome, whatever the fuel. -/
theorem Activity.within_unique {a : Activity ν} {n k : Nat}
    {out out' : Outcome (Machine β σ) a.Answer} (h : (a.within n).run m = out)
    (h' : (a.within k).run m = out') (hout : out ≠ .unfinished) (hout' : out' ≠ .unfinished) :
    out' = out := by
  rcases Nat.le_total n k with hle | hle
  · exact h'.symm.trans ((within_extends hle a).run_eq h hout)
  · exact ((within_extends hle a).run_eq h' hout').symm.trans h

theorem Activity.Yields.unique {a : Activity ν} {answer answer' : a.Answer} {m₁' : Machine β σ}
    (h : a.Yields m answer m₁) (h' : a.Yields m answer' m₁') : answer' = answer ∧ m₁' = m₁ := by
  obtain ⟨n, hn⟩ := h
  obtain ⟨k, hk⟩ := h'
  cases within_unique hn hk nofun nofun
  exact ⟨rfl, rfl⟩

theorem Activity.Yields.not_halts {a : Activity ν} {answer : a.Answer} {e : Halt}
    {m₁' : Machine β σ} (h : a.Yields m answer m₁) : ¬a.Halts m e m₁' := by
  rintro ⟨k, hk⟩
  obtain ⟨n, hn⟩ := h
  cases within_unique hn hk nofun nofun

section
variable {o : Operation ν} {a : Activity ν} {e : Halt}

namespace Plan

theorem reads_asked {next : o.Answer → Plan ν α} {answer : o.Answer}
    (answered : o.perform.run m = .value answer m₁) :
    (ask o next).Reads source m ↔ o = .load source ∨ (next answer).Reads source m₁ := by
  constructor
  · intro h
    cases h with
    | here => exact .inl rfl
    | asked answered' later =>
      cases answered.symm.trans answered'
      exact .inr later
  · rintro (rfl | later)
    · exact .here _ _
    · exact .asked answered later

theorem reads_refused {next : o.Answer → Plan ν α} (halted : o.perform.run m = .halted e m₁) :
    (ask o next).Reads source m ↔ o = .load source := by
  constructor
  · intro h
    cases h with
    | here => rfl
    | asked answered _ => cases halted.symm.trans answered
  · rintro rfl
    exact .here _ _

theorem reads_awaited {next : a.Answer → Plan ν α} {answer : a.Answer}
    (yields : a.Yields m answer m₁) : (await a next).Reads source m ↔
      a.plan.Reads source m ∨ (next answer).Reads source m₁ := by
  constructor
  · intro h
    cases h with
    | inside first => exact .inl first
    | awaited yields' later =>
      obtain ⟨rfl, rfl⟩ := yields.unique yields'
      exact .inr later
  · rintro (first | later)
    · exact .inside first
    · exact .awaited yields later

theorem reads_broken {next : a.Answer → Plan ν α} (halts : a.Halts m e m₁) :
    (await a next).Reads source m ↔ a.plan.Reads source m := by
  constructor
  · intro h
    cases h with
    | inside first => exact first
    | awaited yields _ => exact absurd halts yields.not_halts
  · exact .inside

end Plan

end

/-! ## What an activity reads -/

theorem reads_of_reaches {s : Activity ν × Machine β σ} (h : Reaches s (.run source, m₁)) :
    s.1.plan.Reads source s.2 := by
  -- From the run back to the activity, one performance after the other.
  induction h using Relation.ReflTransGen.head_induction_on with
  | refl => exact .here _ _
  | head first _ ih =>
    obtain ⟨next, hc⟩ := first
    exact hc.reads (.inside ih)

/-- The sources that are read along the plan of an activity are those that are run at some depth. -/
theorem Activity.reads_iff_reaches {a : Activity ν} :
    a.plan.Reads source m ↔ ∃ m₁, Reaches (a, m) (.run source, m₁) := by
  constructor
  · intro h
    rcases h.cases_steps with ⟨_, _, hc⟩ | ⟨b, m₁, m₂, hstart, hreach⟩
    · obtain rfl := eq_run_of_comesTo hc
      exact ⟨m, .refl⟩
    · have first : Performs (a, m) (b, m₁) := hstart
      exact ⟨m₂, hreach.head first⟩
  · rintro ⟨m₁, hreach⟩
    exact reads_of_reaches hreach

end

end KnightLang
