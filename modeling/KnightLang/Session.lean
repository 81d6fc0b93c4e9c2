/-
Sessions: a sequence of requests to one machine. Errors and exits end a request, not the session,
so whatever a request did to the machine before it ended stays done. The results of requests can
be kept in slots and used as operands of later ones.
-/
import KnightLang.Host.Limited
import KnightLang.Host.Scripted
import KnightLang.Machine.Eval

namespace KnightLang

/-! ## Requests -/

/-- A term that a request is about. -/
inductive Operand
  | literal (l : Literal)
  /-- The term kept in a slot, null for an empty slot. -/
  | slot (name : String)
  /-- The first expression of a source, unevaluated. -/
  | code (source : String)
deriving DecidableEq

/-- What may be asked of a machine. -/
inductive Request
  /-- Runs a source. -/
  | run (source : String)
  /-- Reads a source without evaluating it. -/
  | read (source : String)
  /-- Evaluates a term once. -/
  | evaluate (a : Operand)
  /-- Applies an operator. -/
  | operate (op : Arith) (left right : Operand)
  /-- Orders two terms without evaluating them. -/
  | compare (left right : Operand)
  /-- Tests two terms for equality without evaluating them. -/
  | equal (left right : Operand)
  /-- Coerces a term to a truth value. -/
  | truthy (a : Operand)
  /-- Coerces a term to a number. -/
  | toInt (a : Operand)
  /-- Coerces a term to a text. -/
  | toText (a : Operand)
  /-- Describes a term without evaluating it. -/
  | describe (a : Operand)
  /-- Gives a variable a value. -/
  | set (name : String) (value : Operand)
  /-- Asks for the value of a variable. -/
  | get (name : String)
  /-- Asks for the number of known names. -/
  | size
deriving DecidableEq

/-- The answer to a request that succeeds. -/
inductive Reply (ν : Type)
  | term (t : Term ν)
  | order (o : Ordering)
  | flag (b : Bool)
  | number (n : Int64)
  | text (s : String)
  | description (kind : Kind) (isLiteral : Bool) (dump display : String)
  | done
  | value (content : Option (Term ν))
  | size (names : Nat)

/-- The term in a reply that can be kept. -/
def Reply.term? {ν : Type} : Reply ν → Option (Term ν)
  | term t => some t
  | _ => none

/-! ## Performing requests -/

section
variable {β σ ν : Type} [Bindings β ν] [Host σ] (fuel : Nat) (slots : List (String × Term ν))

/-- The term that an operand stands for. -/
def Operand.resolve : Operand → EvalM (Machine β σ) (Term ν)
  | literal l => pure (.lit l)
  | slot name => pure ((slots.lookup name).getD (.lit .null))
  | code source => Machine.load source

/-- Does what a request asks for. -/
def Request.perform : Request → EvalM (Machine β σ) (Reply ν)
  | run source => do
    let value ← Term.runSource fuel source
    pure (.term value)
  | read source => do
    let term ← Machine.load source
    pure (.term term)
  | evaluate a => do
    let term ← a.resolve slots
    let value ← term.eval fuel
    pure (.term value)
  | operate op left right => do
    let left ← left.resolve slots
    let right ← right.resolve slots
    let value ← KnightLang.operate (Term.eval fuel) fuel op right fuel left
    pure (.term (.lit value))
  | compare left right => do
    let left ← left.resolve slots
    let right ← right.resolve slots
    let order ← .ofFault (left.compare right)
    pure (.order order)
  | equal left right => do
    let left ← left.resolve slots
    let right ← right.resolve slots
    pure (.flag (left.same right))
  | truthy a => do
    let term ← a.resolve slots
    let b ← coerce Literal.truthy (Term.eval fuel) fuel term
    pure (.flag b)
  | toInt a => do
    let term ← a.resolve slots
    let n ← coerce Literal.toInt (Term.eval fuel) fuel term
    pure (.number n)
  | toText a => do
    let term ← a.resolve slots
    let s ← coerce Literal.toText (Term.eval fuel) fuel term
    pure (.text s)
  | describe a => do
    let term ← a.resolve slots
    let nameOf := Bindings.nameOf β
    pure (.description term.kind term.isLiteral (term.dump nameOf) (term.display nameOf))
  | set name value => do
    let value ← value.resolve slots
    fun m => .value .done { m with bindings := Bindings.set m.bindings name value }
  | get name => fun m => .value (.value (Bindings.get? m.bindings name)) m
  | size => fun m => .value (.size (Bindings.size m.bindings)) m

end

/-! ## Sessions -/

/-- A machine and the terms kept between requests. -/
structure Session (β σ ν : Type) where
  machine : Machine β σ
  slots : List (String × Term ν) := []

/-- The result of a request, with what it wrote. -/
structure Answer (ν : Type) where
  result : Except Halt (Reply ν)
  output : String

namespace Session

variable {β ν : Type} [Bindings β ν]

/-- What has been written to a machine, and the machine with nothing written to it. -/
def takeOutput : Machine β (Limited Scripted) → String × Machine β (Limited Scripted)
  | ⟨bindings, ⟨⟨input, output, commands⟩, read, write, shell⟩, draws⟩ =>
    (output, ⟨bindings, ⟨⟨input, "", commands⟩, read, write, shell⟩, draws⟩)

/-- The answer to a request and the session after it, if the fuel lasts. A term that the reply
holds is kept in the slot `into`. -/
def next? (fuel : Nat) (request : Request) (into : Option String)
    (s : Session β (Limited Scripted) ν) :
    Option (Answer ν × Session β (Limited Scripted) ν) :=
  match (request.perform fuel s.slots).run s.machine with
  | .value reply machine =>
    let (output, machine) := takeOutput machine
    let kept := (into.bind fun slot => reply.term?.map (slot, ·)).toList
    some (⟨.ok reply, output⟩, ⟨machine, kept ++ s.slots⟩)
  | .halted h machine =>
    let (output, machine) := takeOutput machine
    some (⟨.error h, output⟩, ⟨machine, s.slots⟩)
  | .unfinished => none

end Session

end KnightLang
