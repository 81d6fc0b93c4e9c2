/-
What evaluation does, one step after another. An activity is a piece of work that calls for
others: evaluating a term, coercing one, applying an operator, going on with a loop, running a
source. Its plan says which operations it asks of the machine and which other activities it waits
for, in which order, and what it does with their answers. Each builtin is spelled out once, here;
what evaluation keeps, reaches or propagates is then a matter of following plans.

A plan followed with some fuel does no more than the activity with a little more fuel, and no
activity does more than its plan followed deep enough. So activities and plans have the same
outcomes (`Activity.within_iff_perform`).
-/
import KnightLang.Machine.Fuel

namespace KnightLang

/-! ## Activities -/

/-- What may be wanted of a literal. -/
inductive Want
  | truth
  | number
  | text
deriving DecidableEq

/-- What is made of a literal. -/
abbrev Want.Answer : Want → Type
  | truth => Bool
  | number => Int64
  | text => String

/-- Coerces a literal. -/
def Want.read : (w : Want) → Literal → w.Answer
  | truth => Literal.truthy
  | number => Literal.toInt
  | text => Literal.toText

/-- A piece of the work of evaluation. -/
inductive Activity (ν : Type)
  | evaluate (t : Term ν)
  | coerce (w : Want) (t : Term ν)
  | operate (op : Arith) (left right : Term ν)
  /-- Tests the condition of a loop, and goes on from there. -/
  | loop (cond body : Term ν)
  /-- Reads a source and evaluates what it says. -/
  | run (source : String)

namespace Activity

variable {ν : Type}

/-- What an activity comes to if it does not halt. -/
abbrev Answer : Activity ν → Type
  | evaluate _ => Term ν
  | coerce w _ => w.Answer
  | operate .. => Literal
  | loop .. => Unit
  | run _ => Term ν

/-- The outcome of an activity with some fuel. -/
def within {β σ : Type} [Bindings β ν] [Host σ] (n : Nat) :
    (a : Activity ν) → EvalM (Machine β σ) a.Answer
  | evaluate t => t.eval n
  | coerce w t => KnightLang.coerce w.read (Term.eval n) n t
  | operate op left right => KnightLang.operate (Term.eval n) n op right n left
  | loop cond body => repeatWhile (Term.eval n) n cond body n
  | run source => Term.runSource n source

end Activity

/-! ## Operations of the machine -/

/-- What may be asked of the machine. -/
inductive Operation (ν : Type)
  | lookup (x : ν)
  | assign (x : ν) (value : Term ν)
  | load (source : String)
  | draw
  | readLine
  | write (text : String)
  /-- Writes the structure of a term. -/
  | dump (value : Term ν)
  | shell (command : String)

namespace Operation

variable {ν : Type}

/-- What the machine answers. -/
abbrev Answer : Operation ν → Type
  | lookup _ => Term ν
  | assign .. => Unit
  | load _ => Term ν
  | draw => Int64
  | readLine => Option String
  | write _ => Unit
  | dump _ => Unit
  | shell _ => String

/-- Asks the machine. -/
def perform {β σ : Type} [Bindings β ν] [Host σ] :
    (o : Operation ν) → EvalM (Machine β σ) o.Answer
  | lookup x => Machine.lookup x
  | assign x value => Machine.assign x value
  | load source => Machine.load source
  | draw => Machine.draw
  | readLine => Machine.readLine
  | write text => Machine.write text
  | dump value => Machine.write (value.dump (Bindings.nameOf β))
  | shell command => Machine.shell command

end Operation

/-! ## Plans -/

/-- Operations and activities, each depending on the answers so far, up to an `α` or a halt. -/
inductive Plan (ν α : Type)
  | done (a : α)
  | halt (h : Halt)
  /-- Asks the machine. -/
  | ask (o : Operation ν) (next : o.Answer → Plan ν α)
  /-- Waits for an activity. -/
  | await (a : Activity ν) (next : a.Answer → Plan ν α)

namespace Plan

variable {ν α γ : Type}

/-- Halts with a fault. -/
def fault (f : Fault) : Plan ν α := halt (.error (.fault f))

/-- Goes on with a result, if it is no halt. -/
def ofHalt (result : Except Halt γ) (next : γ → Plan ν α) : Plan ν α :=
  match result with
  | .ok c => next c
  | .error h => halt h

/-- Goes on with a result, if it is no fault. -/
def ofFault (result : Except Fault γ) (next : γ → Plan ν α) : Plan ν α :=
  match result with
  | .ok c => next c
  | .error f => fault f

end Plan

namespace Term

variable {ν : Type}

open Plan

/-- The plan of writing a text as an output. -/
def planOutput (text : String) : Plan ν (Term ν) :=
  match Text.dropLast? '\\' text with
  | some line => ask (.write line) fun _ => done (lit .null)
  | none => ask (.write text) fun _ => ask (.write "\n") fun _ => done (lit .null)

/-- The plan of a builtin of one argument. -/
def planUnary : Unary → Term ν → Plan ν (Term ν)
  | .eval, a => await (.coerce .text a) fun source => await (.run source) done
  | .block, a => done a
  | .call, a => await (.evaluate a) fun code => await (.evaluate code) done
  | .shell, a =>
    await (.coerce .text a) fun command =>
    ask (.shell command) fun printed => done (lit (.text printed))
  | .quit, a => await (.coerce .number a) fun code => halt (.exit (Int64.toInt32 code))
  | .not, a => await (.coerce .truth a) fun b => done (lit (.bool (Bool.not b)))
  | .length, a =>
    await (.coerce .text a) fun s => done (lit (.number (Int64.ofNat (String.length s))))
  | .dump, a =>
    await (.evaluate a) fun value =>
    ask (.dump value) fun _ => ask (.write "\n") fun _ => done value
  | .output, a => await (.coerce .text a) planOutput

/-- The plan of a builtin of two arguments. -/
def planBinary : Binary → Term ν → Term ν → Plan ν (Term ν)
  | .arith op, a, b =>
    await (.evaluate a) fun left => await (.evaluate b) fun right =>
    await (.operate op left right) fun l => done (lit l)
  | .equal, a, b =>
    await (.evaluate a) fun left => await (.evaluate b) fun right =>
    done (lit (.bool (Term.same left right)))
  | .less, a, b =>
    await (.evaluate a) fun left => await (.evaluate b) fun right =>
    ofFault (Term.compare left right) fun order =>
    done (lit (.bool (order == .lt)))
  | .greater, a, b =>
    await (.evaluate a) fun left => await (.evaluate b) fun right =>
    ofFault (Term.compare left right) fun order =>
    done (lit (.bool (order == .gt)))
  | .and, a, b =>
    await (.evaluate a) fun left => await (.coerce .truth left) fun (t : Bool) =>
    if t then await (.evaluate b) done else done left
  | .or, a, b =>
    await (.evaluate a) fun left => await (.coerce .truth left) fun (t : Bool) =>
    if t then done left else await (.evaluate b) done
  | .seq, a, b => await (.evaluate a) fun _ => await (.evaluate b) done
  | .assign, var x, b =>
    await (.evaluate b) fun value => ask (.assign x value) fun _ => done value
  | .assign, a, _ => fault (.invalidTarget a.kind)
  | .loop, a, b => await (.loop a b) fun _ => done (lit .null)

/-- The plan of a term. -/
def plan : Term ν → Plan ν (Term ν)
  | lit l => done (lit l)
  | var x => ask (.lookup x) done
  | nullary .prompt => ask .readLine fun line => done (lit (.text (Option.getD line "")))
  | nullary .random => ask .draw fun n => done (lit (.number n))
  | unary f a => planUnary f a
  | binary f a b => planBinary f a b
  | ternary .branch a b c =>
    await (.coerce .truth a) fun (t : Bool) =>
    if t then await (.evaluate b) done else await (.evaluate c) done
  | ternary .slice a b c =>
    await (.coerce .text a) fun s => await (.coerce .number b) fun start =>
    await (.coerce .number c) fun length =>
    ofFault (Text.slice s start length) fun part =>
    done (lit (.text part))
  | quaternary .splice a b c d =>
    await (.coerce .text a) fun s => await (.coerce .number b) fun start =>
    await (.coerce .number c) fun length => await (.coerce .text d) fun replacement =>
    ofFault (Text.splice s start length replacement) fun spliced =>
    done (lit (.text spliced))

end Term

namespace Activity

variable {ν : Type}

open Plan

/-- The plan of an operator whose left operand is a literal. -/
def planOperator (right : Term ν) : Arith → Literal → Plan ν Literal
  | op, .number a =>
    await (.coerce .number right) fun b =>
    ofFault (op.eval a b) fun n => done (.number n)
  | .add, .text s => await (.coerce .text right) fun r => done (.text (String.append s r))
  | .multiply, .text s =>
    await (.coerce .number right) fun count =>
    ofHalt (Text.repeated s count) fun repeated => done (.text repeated)
  | op, l => fault (.unsupported op l.kind)

/-- The plan of an activity. -/
def plan : (a : Activity ν) → Plan ν a.Answer
  | evaluate t => t.plan
  | coerce w (.lit l) => done (w.read l)
  | coerce w t => await (.evaluate t) fun value => await (.coerce w value) done
  | operate op (.lit l) right => planOperator right op l
  | operate op left right =>
    await (.evaluate left) fun value => await (.operate op value right) done
  | loop cond body =>
    await (.coerce .truth cond) fun (t : Bool) =>
    if t then await (.evaluate body) fun _ => await (.loop cond body) done else done ()
  | run source => ask (.load source) fun program => await (.evaluate program) done

end Activity

end KnightLang
