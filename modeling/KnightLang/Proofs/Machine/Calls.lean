/-
The calls of a run. Evaluation reaches the world outside through three kinds of call: reading a
line, writing a text and running a shell command. `Plan.Follows` says of a plan from which machine
it comes to which outcome, and which calls it makes on the way, in the order of time and each with
the machine as it was immediately before. An activity has exactly the outcomes that its plan can be
followed to (`Activity.runs_iff_within`), and both the calls and the outcome depend on nothing but
the machine (`Plan.Follows.unique`).
-/
import KnightLang.Proofs.Machine.Perform

namespace KnightLang

open EvalM

/-! ## Calls -/

/-- The kinds of calls to the host. -/
inductive CallKind
  | read
  | write
  | shell
deriving DecidableEq

/-- What is asked of the host. -/
inductive HostRequest
  | readLine
  | write (text : String)
  | shell (command : String)
deriving DecidableEq

/-- The kind of a request. -/
def HostRequest.kind : HostRequest → CallKind
  | readLine => .read
  | write _ => .write
  | shell _ => .shell

/-- The text that a request writes. -/
def HostRequest.written : HostRequest → String
  | write text => text
  | _ => ""

/-- A call to the host, with the machine immediately before it. -/
structure Call (β σ : Type) where
  request : HostRequest
  before : Machine β σ

/-- The kind of a call. -/
def Call.kind {β σ : Type} (c : Call β σ) : CallKind := c.request.kind

variable {β σ ν α : Type} [Bindings β ν] [Host σ]

/-- The call that an operation makes on a machine, if it makes one. -/
def Operation.calls (m : Machine β σ) : Operation ν → List (Call β σ)
  | readLine => [⟨.readLine, m⟩]
  | write text => [⟨.write text, m⟩]
  | dump value => [⟨.write (value.dump (Bindings.nameOf β)), m⟩]
  | shell command => [⟨.shell command, m⟩]
  | lookup _ | assign .. | load _ | draw => []

/-! ## Following a plan call by call -/

/-- A plan, followed from a machine, makes these calls and comes to this outcome. -/
inductive Plan.Follows : {α : Type} → Plan ν α → Machine β σ → List (Call β σ) →
    Outcome (Machine β σ) α → Prop
  | done {α : Type} (a : α) (m : Machine β σ) : Follows (.done a) m [] (.value a m)
  | halt {α : Type} (h : Halt) (m : Machine β σ) : Follows (α := α) (.halt h) m [] (.halted h m)
  /-- The machine answers. -/
  | asked {α : Type} {o : Operation ν} {next : o.Answer → Plan ν α} {answer : o.Answer}
      {m m₁ : Machine β σ} {later : List (Call β σ)} {out : Outcome (Machine β σ) α}
      (answered : o.perform.run m = .value answer m₁) (rest : Follows (next answer) m₁ later out) :
      Follows (.ask o next) m (o.calls m ++ later) out
  /-- The machine refuses. -/
  | refused {α : Type} {o : Operation ν} {next : o.Answer → Plan ν α} {h : Halt}
      {m m₁ : Machine β σ} (halted : o.perform.run m = .halted h m₁) :
      Follows (.ask o next) m (o.calls m) (.halted h m₁)
  /-- The activity that is waited for comes to an answer. -/
  | awaited {α : Type} {a : Activity ν} {next : a.Answer → Plan ν α} {answer : a.Answer}
      {m m₁ : Machine β σ} {calls later : List (Call β σ)} {out : Outcome (Machine β σ) α}
      (yields : Follows a.plan m calls (.value answer m₁))
      (rest : Follows (next answer) m₁ later out) : Follows (.await a next) m (calls ++ later) out
  /-- The activity that is waited for halts. -/
  | broken {α : Type} {a : Activity ν} {next : a.Answer → Plan ν α} {h : Halt}
      {m m₁ : Machine β σ} {calls : List (Call β σ)}
      (halts : Follows a.plan m calls (.halted h m₁)) :
      Follows (.await a next) m calls (.halted h m₁)

/-- An activity, performed on a machine, makes these calls and comes to this outcome. -/
def Activity.Runs (a : Activity ν) (m : Machine β σ) (calls : List (Call β σ))
    (out : Outcome (Machine β σ) a.Answer) : Prop := a.plan.Follows m calls out

namespace Plan

variable {plan : Plan ν α} {m : Machine β σ} {calls calls' : List (Call β σ)}
  {out out' : Outcome (Machine β σ) α}

/-- A plan makes the same calls and comes to the same outcome whenever it is followed. -/
theorem Follows.unique (h : plan.Follows m calls out) (h' : plan.Follows m calls' out') :
    calls' = calls ∧ out' = out := by
  induction h generalizing calls' with
  | done a m =>
    cases h'
    exact ⟨rfl, rfl⟩
  | halt h m =>
    cases h'
    exact ⟨rfl, rfl⟩
  | asked answered _ ih =>
    cases h' with
    | asked answered' rest' =>
      cases answered.symm.trans answered'
      obtain ⟨rfl, rfl⟩ := ih rest'
      exact ⟨rfl, rfl⟩
    | refused halted' => cases answered.symm.trans halted'
  | refused halted =>
    cases h' with
    | asked answered' _ => cases halted.symm.trans answered'
    | refused halted' =>
      cases halted.symm.trans halted'
      exact ⟨rfl, rfl⟩
  | awaited _ _ ih₁ ih₂ =>
    cases h' with
    | awaited yields' rest' =>
      obtain ⟨rfl, h⟩ := ih₁ yields'
      cases h
      obtain ⟨rfl, rfl⟩ := ih₂ rest'
      exact ⟨rfl, rfl⟩
    | broken halts' => cases (ih₁ halts').2
  | broken _ ih =>
    cases h' with
    | awaited yields' _ => cases (ih yields').2
    | broken halts' =>
      obtain ⟨rfl, h⟩ := ih halts'
      cases h
      exact ⟨rfl, rfl⟩

theorem Follows.finished (h : plan.Follows m calls out) : out ≠ .unfinished := by
  induction h with
  | done | halt | refused | broken => simp
  | asked _ _ ih => exact ih
  | awaited _ _ _ ih => exact ih

/-! ## Calls and fuel -/

/-- Whatever a plan can be followed to, it comes to if activities may wait for each other deep
enough. -/
theorem Follows.exists_perform (h : plan.Follows m calls out) :
    ∃ n, (plan.follow (Activity.perform n)).run m = out := by
  induction h with
  | done | halt => exact ⟨0, rfl⟩
  | asked answered _ ih =>
    obtain ⟨n, hn⟩ := ih
    refine ⟨n, ?_⟩
    rw [follow, run_bind, answered]
    exact hn
  | refused halted =>
    refine ⟨0, ?_⟩
    rw [follow, run_bind, halted]
  | @awaited _ a next answer m m₁ _ _ out _ rest ih₁ ih₂ =>
    obtain ⟨k, hk⟩ := ih₁
    obtain ⟨n, hn⟩ := ih₂
    -- The larger of the two depths serves both, one level further up for the activity.
    have yields : (a.perform (max (k + 1) n)).run m = .value answer m₁ :=
      (Activity.perform_extends (Nat.le_max_left (k + 1) n) a).run_eq hk (by simp)
    have later : ((next answer).follow (Activity.perform (max (k + 1) n))).run m₁ = out :=
      (follow_extends (Activity.perform_extends (Nat.le_max_right (k + 1) n)) _).run_eq hn
        rest.finished
    refine ⟨max (k + 1) n, ?_⟩
    rw [follow, run_bind, yields]
    exact later
  | @broken _ a next h m m₁ _ _ ih =>
    obtain ⟨k, hk⟩ := ih
    refine ⟨k + 1, ?_⟩
    rw [follow, run_bind, show (a.perform (k + 1)).run m = _ from hk]

/-- A plan makes some calls on the way to any outcome, if the activities that it waits for do. -/
theorem exists_follows {p : (a : Activity ν) → EvalM (Machine β σ) a.Answer}
    (hp : ∀ (a : Activity ν) m out, (p a).run m = out → out ≠ .unfinished →
      ∃ calls, a.Runs m calls out)
    (h : (plan.follow p).run m = out) (hout : out ≠ .unfinished) :
    ∃ calls, plan.Follows m calls out := by
  induction plan generalizing m with
  | done a =>
    cases h
    exact ⟨_, .done a m⟩
  | halt e =>
    cases h
    exact ⟨_, .halt e m⟩
  | ask o next ih =>
    rw [follow, run_bind] at h
    split at h
    · rename_i answer m₁ answered
      obtain ⟨later, hlater⟩ := ih answer h
      exact ⟨_, .asked answered hlater⟩
    · rename_i e m₁ halted
      cases h
      exact ⟨_, .refused halted⟩
    · exact absurd h.symm hout
  | await a next ih =>
    rw [follow, run_bind] at h
    split at h
    · rename_i answer m₁ yields
      obtain ⟨calls, hcalls⟩ := hp a m _ yields (by simp)
      obtain ⟨later, hlater⟩ := ih answer h
      exact ⟨_, .awaited hcalls hlater⟩
    · rename_i e m₁ halts
      cases h
      obtain ⟨calls, hcalls⟩ := hp a m _ halts (by simp)
      exact ⟨_, .broken hcalls⟩
    · exact absurd h.symm hout

end Plan

namespace Activity

variable {a : Activity ν} {m : Machine β σ} {out : Outcome (Machine β σ) a.Answer}

theorem exists_runs {n : Nat} (h : (a.perform n).run m = out) (hout : out ≠ .unfinished) :
    ∃ calls, a.Runs m calls out := by
  induction n generalizing a m with
  | zero => exact absurd h.symm hout
  | succ n ih => exact Plan.exists_follows (fun a m out h hout => ih h hout) h hout

/-- An activity has the outcomes that it runs to, and finds each of them with some fuel. -/
theorem runs_iff_within :
    (∃ calls, a.Runs m calls out) ↔ out ≠ .unfinished ∧ ∃ n, (a.within n).run m = out := by
  constructor
  · rintro ⟨calls, h⟩
    obtain ⟨n, hn⟩ := Plan.Follows.exists_perform h
    exact ⟨h.finished, (within_iff_perform h.finished).2 ⟨n + 1, hn⟩⟩
  · rintro ⟨hout, h⟩
    obtain ⟨n, hn⟩ := (within_iff_perform hout).1 h
    exact exists_runs hn hout

end Activity

end KnightLang
