/-
The machine on which terms are evaluated: variables, a host and a sequence of random numbers.
Evaluation is a function from a machine to its outcome, which is a value or a halt together with
the machine left behind, or nothing when the fuel ran out. A halt ends everything that was to
follow it.
-/
import KnightLang.Error
import KnightLang.Host.Basic
import KnightLang.Source.Reading
import KnightLang.Store

namespace KnightLang

/-! ## Outcomes -/

/-- What evaluation comes to on a machine with states `μ`. -/
inductive Outcome (μ α : Type)
  /-- A value, and the machine afterwards. -/
  | value (a : α) (m : μ)
  /-- A halt, and the machine it left. -/
  | halted (h : Halt) (m : μ)
  /-- The fuel ran out. -/
  | unfinished

/-- Evaluation to an `α` on a machine with states `μ`. -/
def EvalM (μ α : Type) : Type := μ → Outcome μ α

namespace EvalM

variable {μ α γ : Type}

/-- The outcome of evaluation from a machine. -/
@[inline] def run (x : EvalM μ α) (m : μ) : Outcome μ α := x m

@[always_inline]
instance : Monad (EvalM μ) where
  pure a := fun m => .value a m
  bind x f := fun m =>
    match x m with
    | .value a m => f a m
    | .halted h m => .halted h m
    | .unfinished => .unfinished

/-- Ends evaluation. -/
@[inline] def halt (h : Halt) : EvalM μ α := fun m => .halted h m

/-- Ends evaluation with a fault. -/
@[inline] def fault (f : Fault) : EvalM μ α := halt (.error (.fault f))

/-- Gives up for want of fuel. -/
@[inline] def unfinished : EvalM μ α := fun _ => .unfinished

/-- A result, or the halt that it is. -/
def ofHalt : Except Halt α → EvalM μ α
  | .ok a => pure a
  | .error h => halt h

/-- A result, or the fault that it is. -/
def ofFault : Except Fault α → EvalM μ α
  | .ok a => pure a
  | .error f => fault f

/-! ## Running a step -/

theorem run_pure (a : α) (m : μ) : (pure a : EvalM μ α).run m = .value a m := rfl

theorem run_bind (x : EvalM μ α) (f : α → EvalM μ γ) (m : μ) :
    (x >>= f).run m = match x.run m with
      | .value a m => (f a).run m
      | .halted h m => .halted h m
      | .unfinished => .unfinished := rfl

theorem run_halt (h : Halt) (m : μ) : (halt h : EvalM μ α).run m = .halted h m := rfl

theorem run_fault (f : Fault) (m : μ) :
    (fault f : EvalM μ α).run m = .halted (.error (.fault f)) m := rfl

theorem run_unfinished (m : μ) : (unfinished : EvalM μ α).run m = .unfinished := rfl

theorem run_bind_value {x : EvalM μ α} {f : α → EvalM μ γ} {m m' : μ} {c : γ}
    (h : (x >>= f).run m = .value c m') :
    ∃ a m₁, x.run m = .value a m₁ ∧ (f a).run m₁ = .value c m' := by
  rw [run_bind] at h
  split at h
  · rename_i a m₁ hx
    exact ⟨a, m₁, hx, h⟩
  · cases h
  · cases h

theorem run_bind_of_value {x : EvalM μ α} {f : α → EvalM μ γ} {m m₁ : μ} {a : α}
    (h : x.run m = .value a m₁) : (x >>= f).run m = (f a).run m₁ := by
  rw [run_bind, h]

theorem ext {x y : EvalM μ α} (h : ∀ m, x.run m = y.run m) : x = y := funext h

instance : LawfulMonad (EvalM μ) :=
  LawfulMonad.mk' _
    (fun x => ext fun m => by
      show (x >>= fun a => pure (id a)).run m = x.run m
      rw [run_bind]
      cases x.run m <;> rfl)
    (fun _ _ => rfl)
    (fun x f g => ext fun m => by
      simp only [run_bind]
      cases x.run m <;> rfl)

end EvalM

/-! ## Random numbers -/

/-- A sequence of random numbers, of which some are used up. -/
structure Draws where
  /-- The number that each draw gives, less than `2 ^ 31`. -/
  sequence : Nat → Fin 0x80000000
  /-- The draws made so far. -/
  taken : Nat := 0

/-- The next number of a sequence. -/
def Draws.next : Draws → Int64 × Draws
  | ⟨sequence, taken⟩ => (Int64.ofNat (sequence taken), ⟨sequence, taken + 1⟩)

/-- Scrambles the bits of a word. -/
def Draws.scramble (w : UInt64) : UInt64 :=
  let w := (w ^^^ (w >>> 30)) * 0xbf58476d1ce4e5b9
  let w := (w ^^^ (w >>> 27)) * 0x94d049bb133111eb
  w ^^^ (w >>> 31)

/-- A sequence that depends on a seed. -/
def Draws.seeded (seed : UInt64) : Draws where
  sequence i := Fin.ofNat _ (scramble (seed + 0x9e3779b97f4a7c15 * (UInt64.ofNat i + 1))).toNat

/-! ## Machines -/

/-- Variables `β`, a host `σ` and random numbers. -/
structure Machine (β σ : Type) where
  bindings : β
  host : σ
  draws : Draws

namespace Machine

variable {β σ ν : Type} [Bindings β ν]

/-! ## Operations on variables -/

/-- The value of a variable, which must have one. -/
def lookup (x : ν) : EvalM (Machine β σ) (Term ν) := fun m =>
  match Bindings.value? m.bindings x with
  | some value => .value value m
  | none => .halted (.error (.fault (.unbound (Bindings.nameOf β x)))) m

theorem run_lookup (x : ν) (m : Machine β σ) :
    (lookup x).run m = match Bindings.value? m.bindings x with
      | some value => .value value m
      | none => .halted (.error (.fault (.unbound (Bindings.nameOf β x)))) m := rfl

/-- Gives a variable a value. -/
def assign (x : ν) (value : Term ν) : EvalM (Machine β σ) Unit
  | ⟨bindings, host, draws⟩ => .value () ⟨Bindings.assign bindings x value, host, draws⟩

theorem run_assign (x : ν) (value : Term ν) (m : Machine β σ) :
    (assign x value).run m =
      .value () { m with bindings := Bindings.assign m.bindings x value } := rfl

/-- Reads the first expression of a source. Its names become known, also those before an
error. -/
def load (source : String) : EvalM (Machine β σ) (Term ν)
  | ⟨bindings, host, draws⟩ =>
    let parsed := parse source
    let bindings := Bindings.registerAll bindings parsed.names
    match parsed.result with
    | .ok term => .value (term.map (Bindings.resolve bindings)) ⟨bindings, host, draws⟩
    | .error e => .halted (.error (.source e)) ⟨bindings, host, draws⟩

theorem run_load (source : String) (m : Machine β σ) :
    (load source).run m =
      let bindings := Bindings.registerAll m.bindings (parse source).names
      match (parse source).result with
      | .ok term => .value (term.map (Bindings.resolve bindings)) { m with bindings }
      | .error e => .halted (.error (.source e)) { m with bindings } := rfl

/-! ## Operations on the rest of the machine -/

/-- Draws a random number. -/
def draw : EvalM (Machine β σ) Int64
  | ⟨bindings, host, draws⟩ =>
    let (n, draws) := draws.next
    .value n ⟨bindings, host, draws⟩

theorem run_draw (m : Machine β σ) :
    (draw : EvalM (Machine β σ) Int64).run m =
      .value m.draws.next.1 { m with draws := m.draws.next.2 } := rfl

/-- The outcome of an operation of the host. -/
def answer {α : Type} (bindings : β) (draws : Draws) :
    Except String α × σ → Outcome (Machine β σ) α
  | (.ok a, host) => .value a ⟨bindings, host, draws⟩
  | (.error message, host) => .halted (.error (.fault (.host message))) ⟨bindings, host, draws⟩

variable [Host σ]

/-- Reads a line from the host. -/
def readLine : EvalM (Machine β σ) (Option String)
  | ⟨bindings, host, draws⟩ => answer bindings draws (Host.readLine host)

theorem run_readLine (m : Machine β σ) :
    (readLine : EvalM (Machine β σ) (Option String)).run m =
      answer m.bindings m.draws (Host.readLine m.host) := rfl

/-- Writes a text to the host. -/
def write (text : String) : EvalM (Machine β σ) Unit
  | ⟨bindings, host, draws⟩ => answer bindings draws (Host.write text host)

theorem run_write (text : String) (m : Machine β σ) :
    (write text).run m = answer m.bindings m.draws (Host.write text m.host) := rfl

/-- Runs a shell command on the host. -/
def shell (command : String) : EvalM (Machine β σ) String
  | ⟨bindings, host, draws⟩ => answer bindings draws (Host.shell command host)

theorem run_shell (command : String) (m : Machine β σ) :
    (shell command).run m = answer m.bindings m.draws (Host.shell command m.host) := rfl

end Machine

end KnightLang
