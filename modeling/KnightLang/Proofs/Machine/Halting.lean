/-
Halts go through. An activity performs others, to any depth: the arguments of builtins, the terms
that coercions, operators and loops evaluate, the code that `C` evaluates after its argument, the
program that `E` reads. If one of them halts, so does the whole, with that halt and with the
machine as that activity left it (`halts_of_reaches`). In the other direction, every halt is raised
by an activity that is performed: by a step of its own plan or by an operation that it asks of the
machine (`halts_iff_raises`).
-/
import KnightLang.Host.Scripted
import KnightLang.Proofs.Machine.Perform
import KnightLang.Proofs.Machine.Steps
import Mathlib.Logic.Relation

namespace KnightLang

open EvalM

variable {β σ ν : Type} [Bindings β ν] [Host σ]

/-! ## Outcomes of activities -/

namespace Activity

/-- With enough fuel, an activity comes to a value. -/
def Yields (a : Activity ν) (m : Machine β σ) (answer : a.Answer) (m' : Machine β σ) : Prop :=
  ∃ n, (a.within n).run m = .value answer m'

/-- With enough fuel, an activity halts. -/
def Halts (a : Activity ν) (m : Machine β σ) (h : Halt) (m' : Machine β σ) : Prop :=
  ∃ n, (a.within n).run m = .halted h m'

variable {a : Activity ν} {m m' : Machine β σ}

theorem yields_iff_perform {answer : a.Answer} :
    a.Yields m answer m' ↔ ∃ n, (a.perform n).run m = .value answer m' :=
  within_iff_perform (by simp)

theorem halts_iff_perform {h : Halt} :
    a.Halts m h m' ↔ ∃ n, (a.perform n).run m = .halted h m' :=
  within_iff_perform (by simp)

/-- An activity that halts does so with any fuel that lasts. -/
theorem Halts.run_within {h : Halt} (hh : a.Halts m h m') {n : Nat}
    (hn : (a.within n).run m ≠ .unfinished) : (a.within n).run m = .halted h m' := by
  obtain ⟨k, hk⟩ := hh
  have hk' : (a.within k).run m ≠ .unfinished := by simp [hk]
  rcases Nat.le_total n k with hle | hle
  · rw [← within_extends hle a m hn, hk]
  · rw [within_extends hle a m hk', hk]

end Activity

/-! ## Performing other activities -/

namespace Plan

variable {α : Type}

/-- A plan, followed from a machine, comes to what is left of it on another machine: every
operation before was answered, every activity before came to a value. -/
inductive ComesTo : Plan ν α → Machine β σ → Plan ν α → Machine β σ → Prop
  | here (plan : Plan ν α) (m : Machine β σ) : ComesTo plan m plan m
  | asked {o : Operation ν} {next : o.Answer → Plan ν α} {answer : o.Answer} {rest : Plan ν α}
      {m m₁ m' : Machine β σ} (answered : o.perform.run m = .value answer m₁)
      (later : ComesTo (next answer) m₁ rest m') : ComesTo (.ask o next) m rest m'
  | awaited {a : Activity ν} {next : a.Answer → Plan ν α} {answer : a.Answer} {rest : Plan ν α}
      {m m₁ m' : Machine β σ} (yields : a.Yields m answer m₁)
      (later : ComesTo (next answer) m₁ rest m') : ComesTo (.await a next) m rest m'

/-- A plan performs an activity if it comes to wait for it. -/
def Starts (plan : Plan ν α) (m : Machine β σ) (a : Activity ν) (m' : Machine β σ) : Prop :=
  ∃ next, plan.ComesTo m (.await a next) m'

/-- A plan halts by itself: at a step of its own, or because the machine refuses an operation. -/
def Raises (plan : Plan ν α) (m : Machine β σ) (h : Halt) (m' : Machine β σ) : Prop :=
  plan.ComesTo m (.halt h) m' ∨
    ∃ o next m₁, plan.ComesTo m (.ask o next) m₁ ∧ o.perform.run m₁ = .halted h m'

end Plan

theorem Plan.ComesTo.every {α : Type} {P : Step ν → Prop} {plan rest : Plan ν α}
    {m m' : Machine β σ} (hc : plan.ComesTo m rest m') (h : plan.Every P) : rest.Every P := by
  induction hc with
  | here => exact h
  | asked _ _ ih => exact ih (h.2 _)
  | awaited _ _ ih => exact ih (h.2 _)

theorem Plan.ComesTo.trans {α : Type} {plan rest rest' : Plan ν α} {m m₁ m₂ : Machine β σ}
    (h : plan.ComesTo m rest m₁) (h' : rest.ComesTo m₁ rest' m₂) : plan.ComesTo m rest' m₂ := by
  induction h with
  | here => exact h'
  | asked answered _ ih => exact .asked answered (ih h')
  | awaited yields _ ih => exact .awaited yields (ih h')

/-- An activity on a machine performs another one, on the machine as it is by then. -/
def Performs (s s' : Activity ν × Machine β σ) : Prop := s.1.plan.Starts s.2 s'.1 s'.2

/-- An activity performs another one at some depth, itself at depth zero. -/
abbrev Reaches : Activity ν × Machine β σ → Activity ν × Machine β σ → Prop :=
  Relation.ReflTransGen Performs

/-! ## Halts go through -/

/-- A plan halts as what is left of it does. -/
theorem Plan.ComesTo.halts {α : Type} {plan rest : Plan ν α} {m m₁ m' : Machine β σ} {h : Halt}
    (hc : plan.ComesTo m rest m₁) {n : Nat}
    (hh : (rest.follow (Activity.within n)).run m₁ = .halted h m') :
    ∃ k, (plan.follow (Activity.within k)).run m = .halted h m' := by
  induction hc with
  | here => exact ⟨n, hh⟩
  | asked answered later ih =>
    obtain ⟨k, hk⟩ := ih hh
    refine ⟨k, ?_⟩
    simp only [follow, run_bind, answered, hk]
  | @awaited a next answer rest m m₁ m₂ yields later ih =>
    obtain ⟨k, hk⟩ := ih hh
    obtain ⟨j, hj⟩ := yields
    -- With the larger of the two fuels, the activity still yields and the rest still halts.
    have hj' : (a.within (max j k)).run m = .value answer m₁ := by
      rw [Activity.within_extends (Nat.le_max_left j k) a m (by simp [hj]), hj]
    have hk' := follow_extends (Activity.within_extends (Nat.le_max_right j k)) (next answer) m₁
      (by simp [hk])
    refine ⟨max j k, ?_⟩
    simp only [follow, run_bind, hj', hk', hk]

theorem Activity.halts_of_plan {a : Activity ν} {rest : Plan ν a.Answer} {m m₁ m' : Machine β σ}
    {h : Halt} (hc : a.plan.ComesTo m rest m₁) {n : Nat}
    (hh : (rest.follow (Activity.within n)).run m₁ = .halted h m') : a.Halts m h m' := by
  obtain ⟨k, hk⟩ := hc.halts hh
  refine ⟨k + 1, ?_⟩
  rw [follow_extends_within k a m (by simp [hk]), hk]

theorem halts_of_performs {a a' : Activity ν} {m m₁ m' : Machine β σ} {h : Halt}
    (hp : Performs (a, m) (a', m₁)) (hh : a'.Halts m₁ h m') : a.Halts m h m' := by
  obtain ⟨next, hc⟩ := hp
  obtain ⟨n, hn⟩ := hh
  refine Activity.halts_of_plan hc (n := n) ?_
  simp only [Plan.follow, run_bind, hn]

theorem halts_of_reaches {s s' : Activity ν × Machine β σ} {m' : Machine β σ} {h : Halt}
    (hr : Reaches s s') (hh : s'.1.Halts s'.2 h m') : s.1.Halts s.2 h m' := by
  induction hr with
  | refl => exact hh
  | tail _ hp ih => exact ih (halts_of_performs hp hh)

/-! ## Where halts come from -/

/-- A plan that halts comes to a step that does: a halt, an operation or an activity. -/
theorem Plan.exists_stop {α : Type} {plan : Plan ν α} {m m' : Machine β σ} {h : Halt} {n : Nat}
    (hh : (plan.follow (Activity.perform n)).run m = .halted h m') :
    ∃ rest m₁, plan.ComesTo m rest m₁ ∧
      ((rest = .halt h ∧ m₁ = m') ∨
        (∃ o next, rest = .ask o next ∧ o.perform.run m₁ = .halted h m') ∨
        ∃ a next, rest = .await a next ∧ (a.perform n).run m₁ = .halted h m') := by
  induction plan generalizing m with
  | done a => cases hh
  | halt h₀ =>
    cases hh
    exact ⟨_, _, .here _ _, .inl ⟨rfl, rfl⟩⟩
  | ask o next ih =>
    rw [follow, run_bind] at hh
    split at hh
    · rename_i answer m₁ ho
      obtain ⟨rest, m₂, hc, hstop⟩ := ih answer hh
      exact ⟨rest, m₂, .asked ho hc, hstop⟩
    · rename_i h₁ m₁ ho
      cases hh
      exact ⟨_, m, .here _ _, .inr (.inl ⟨o, next, rfl, ho⟩)⟩
    · cases hh
  | await a next ih =>
    rw [follow, run_bind] at hh
    split at hh
    · rename_i answer m₁ ha
      obtain ⟨rest, m₂, hc, hstop⟩ := ih answer hh
      exact ⟨rest, m₂, .awaited (Activity.yields_iff_perform.2 ⟨n, ha⟩) hc, hstop⟩
    · rename_i h₁ m₁ ha
      cases hh
      exact ⟨_, m, .here _ _, .inr (.inr ⟨a, next, rfl, ha⟩)⟩
    · cases hh

theorem exists_raises {a : Activity ν} {m m' : Machine β σ} {h : Halt} {n : Nat}
    (hh : (a.perform n).run m = .halted h m') :
    ∃ a' m₁, Reaches (a, m) (a', m₁) ∧ a'.plan.Raises m₁ h m' := by
  -- The fuel bounds the depth at which the halt is raised.
  induction n generalizing a m with
  | zero => cases hh
  | succ n ih =>
    obtain ⟨rest, m₁, hc, ⟨rfl, rfl⟩ | ⟨o, next, rfl, ho⟩ | ⟨a₁, next, rfl, hh₁⟩⟩ :=
      Plan.exists_stop hh
    · exact ⟨a, m, .refl, .inl hc⟩
    · exact ⟨a, m, .refl, .inr ⟨o, next, m₁, hc, ho⟩⟩
    · obtain ⟨a', m₂, hreach, hr⟩ := ih hh₁
      have hp : Performs (a, m) (a₁, m₁) := ⟨next, hc⟩
      exact ⟨a', m₂, hreach.head hp, hr⟩

theorem Activity.halts_of_raises {a : Activity ν} {m m' : Machine β σ} {h : Halt}
    (hr : a.plan.Raises m h m') : a.Halts m h m' := by
  rcases hr with hc | ⟨o, next, m₁, hc, ho⟩
  · exact halts_of_plan hc (n := 0) rfl
  · refine halts_of_plan hc (n := 0) ?_
    simp only [Plan.follow, run_bind, ho]

/-- An activity halts if and only if one that it performs, at some depth, halts by itself. -/
theorem halts_iff_raises {a : Activity ν} {m m' : Machine β σ} {h : Halt} :
    a.Halts m h m' ↔ ∃ a' m₁, Reaches (a, m) (a', m₁) ∧ a'.plan.Raises m₁ h m' := by
  constructor
  · intro hh
    obtain ⟨n, hn⟩ := Activity.halts_iff_perform.1 hh
    exact exists_raises hn
  · rintro ⟨a', m₁, hreach, hr⟩
    exact halts_of_reaches hreach (Activity.halts_of_raises hr)

/-! ## Exits -/

omit [Host σ] in
/-- The host ends evaluation with faults only. -/
theorem Machine.fault_of_answer {α : Type} {bindings : β} {draws : Draws}
    {r : Except String α × σ} {m' : Machine β σ} {h : Halt}
    (hr : Machine.answer bindings draws r = .halted h m') :
    ∃ message, h = .error (.fault (.host message)) := by
  obtain ⟨_ | _, host⟩ := r
  · cases hr
    exact ⟨_, rfl⟩
  · cases hr

/-- No operation of the machine asks to exit. -/
theorem Operation.perform_ne_exit (o : Operation ν) (m m' : Machine β σ) (c : Int32) :
    o.perform.run m ≠ .halted (.exit c) m' := by
  cases o with
  | lookup x =>
    rw [perform, Machine.run_lookup]
    split <;> simp
  | load source =>
    rw [perform, Machine.run_load]
    dsimp only
    split <;> simp
  | assign | draw => simp [perform, Machine.run_assign, Machine.run_draw]
  | readLine | write | dump | shell =>
    intro h
    obtain ⟨message, hmessage⟩ := Machine.fault_of_answer h
    cases hmessage

/-- An exit is raised by `Q`, with the number that its argument came to. -/
theorem raises_exit {a : Activity ν} {m m' : Machine β σ} {c : Int32}
    (hr : a.plan.Raises m (.exit c) m') :
    ∃ arg code, a = .evaluate (.unary .quit arg) ∧
      (Activity.coerce .number arg).Yields m code m' ∧ c = Int64.toInt32 code := by
  rcases hr with hc | ⟨o, next, m₁, hc, ho⟩
  · have takes : a.Takes (.halt (.exit c)) := hc.every a.every_plan
    -- No other plan has a step that exits.
    cases takes with
    | quit arg =>
      cases hc with
      | @awaited _ _ code _ _ m₁ _ yields later =>
        cases later
        exact ⟨arg, code, rfl, yields, rfl⟩
  · exact absurd ho (o.perform_ne_exit m₁ m' c)

/-- For every term, and for every other activity, on every machine: if an activity that it
performs at any depth halts, then so does it, with the same halt and the machine as that activity
left it, whatever the fuel that lasts. And it exits only if some `Q` is evaluated whose argument
comes to a number, with the low 32 bits of that number. -/
theorem halts_propagate (a : Activity ν) (m : Machine β σ) :
    (∀ a' m₁ h m', Reaches (a, m) (a', m₁) → a'.Halts m₁ h m' →
      a.Halts m h m' ∧
        ∀ n, (a.within n).run m ≠ .unfinished → (a.within n).run m = .halted h m') ∧
      ∀ c m', a.Halts m (.exit c) m' →
        ∃ arg m₁ code, Reaches (a, m) (.evaluate (.unary .quit arg), m₁) ∧
          (Activity.coerce .number arg).Yields m₁ code m' ∧ c = Int64.toInt32 code := by
  refine ⟨fun a' m₁ h m' hreach hh => ?_, fun c m' hh => ?_⟩
  · have halts : a.Halts m h m' := halts_of_reaches hreach hh
    exact ⟨halts, fun n hn => halts.run_within hn⟩
  · obtain ⟨a', m₁, hreach, hr⟩ := halts_iff_raises.1 hh
    obtain ⟨arg, code, rfl, hy, hc⟩ := raises_exit hr
    exact ⟨arg, m₁, code, hreach, hy, hc⟩

/-- `W TRUE + 2 Q 7` exits in the first round of its loop, from within the sum. -/
theorem loop_exits :
    let quit : Term String := .unary .quit (.lit (.number 7))
    let body : Term String := .binary (.arith .add) (.lit (.number 2)) quit
    let t : Term String := .binary .loop (.lit (.bool true)) body
    let m : Machine Store Scripted := ⟨∅, {}, Draws.seeded 0⟩
    Reaches (.evaluate t, m) (.evaluate quit, m) ∧ (Activity.evaluate t).Halts m (.exit 7) m ∧
      ∃ arg m₁ code, Reaches (.evaluate t, m) (.evaluate (.unary .quit arg), m₁) ∧
        (Activity.coerce .number arg).Yields m₁ code m ∧ 7 = Int64.toInt32 code := by
  intro quit body t m
  have tested : (Activity.coerce .truth (Term.lit (ν := String) (.bool true))).Yields m true m :=
    ⟨0, rfl⟩
  have added : (Activity.evaluate (.lit (.number 2))).Yields m (Term.lit (.number 2)) m :=
    ⟨1, rfl⟩
  have looping : Performs (.evaluate t, m) (.loop (.lit (.bool true)) body, m) :=
    ⟨_, .here _ _⟩
  have round : Performs (.loop (.lit (.bool true)) body, m) (.evaluate body, m) :=
    ⟨_, .awaited tested (.here _ _)⟩
  have operand : Performs (.evaluate body, m) (.evaluate quit, m) :=
    ⟨_, .awaited added (.here _ _)⟩
  have reach : Reaches (.evaluate t, m) (.evaluate quit, m) :=
    ((Relation.ReflTransGen.single looping).tail round).tail operand
  have halts : (Activity.evaluate quit).Halts m (.exit 7) m := ⟨2, rfl⟩
  have whole := ((halts_propagate (.evaluate t) m).1 _ _ _ _ reach halts).1
  exact ⟨reach, whole, (halts_propagate (.evaluate t) m).2 7 m whole⟩

end KnightLang
