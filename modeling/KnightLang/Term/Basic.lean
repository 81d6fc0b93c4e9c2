/-
Terms: the programs of the language and the values they compute. A literal is a finished value; a
variable and a call are unevaluated code, which the language passes around like any value. Calls
hold as many arguments as their builtin takes, by their type.

A term is generic in what its variables hold (`ν`): names as they are read, or whatever a store
of bindings resolves names to.
-/
import KnightLang.Builtin
import KnightLang.Term.Literal

namespace KnightLang

/-- The kinds of value, as error messages name them. -/
inductive Kind
  | number
  | text
  | boolean
  | null
  | identifier
  | function
deriving DecidableEq, Repr

/-- The name of a kind. -/
def Kind.label : Kind → String
  | number => "number"
  | text => "text"
  | boolean => "boolean"
  | null => "null"
  | identifier => "identifier"
  | function => "function"

/-- A literal, a variable, or the call of a builtin with its arguments. -/
inductive Term (ν : Type)
  | lit (value : Literal)
  | var (x : ν)
  | nullary (f : Nullary)
  | unary (f : Unary) (a : Term ν)
  | binary (f : Binary) (a b : Term ν)
  | ternary (f : Ternary) (a b c : Term ν)
  | quaternary (f : Quaternary) (a b c d : Term ν)
deriving DecidableEq, Inhabited

/-- The kind of a literal. -/
def Literal.kind : Literal → Kind
  | number _ => .number
  | text _ => .text
  | bool _ => .boolean
  | null => .null

namespace Term

variable {ν μ : Type}

/-- The kind of a term: every call is a function. -/
def kind : Term ν → Kind
  | lit l => l.kind
  | var _ => .identifier
  | _ => .function

/-- Whether a term is a finished value. -/
def isLiteral : Term ν → Bool
  | lit _ => true
  | _ => false

/-- The term with the content of every variable replaced. -/
def map (f : ν → μ) : Term ν → Term μ
  | lit l => lit l
  | var x => var (f x)
  | nullary g => nullary g
  | unary g a => unary g (a.map f)
  | binary g a b => binary g (a.map f) (b.map f)
  | ternary g a b c => ternary g (a.map f) (b.map f) (c.map f)
  | quaternary g a b c d => quaternary g (a.map f) (b.map f) (c.map f) (d.map f)

theorem map_id (t : Term ν) : t.map id = t := by
  induction t <;> simp_all [map]

end Term

/-- The call of a builtin, if the arguments are as many as it takes. -/
def Builtin.call? {ν : Type} : Builtin → List (Term ν) → Option (Term ν)
  | nullary f, [] => some (.nullary f)
  | unary f, [a] => some (.unary f a)
  | binary f, [a, b] => some (.binary f a b)
  | ternary f, [a, b, c] => some (.ternary f a b c)
  | quaternary f, [a, b, c, d] => some (.quaternary f a b c d)
  | _, _ => none

theorem Builtin.call?_isSome {ν : Type} (f : Builtin) (args : List (Term ν)) :
    (f.call? args).isSome = true ↔ args.length = f.arity := by
  rcases f with f | f | f | f | f <;>
    rcases args with _ | ⟨a, _ | ⟨b, _ | ⟨c, _ | ⟨d, _ | ⟨e, r⟩⟩⟩⟩⟩ <;>
    simp [Builtin.call?, Builtin.arity]

end KnightLang
