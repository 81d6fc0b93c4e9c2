/-
Which errors there are. An error of a source has a position and belongs to the phase of reading, an
error of a running program has none; neither is ever worded as a failure to read a program file. Of
the first kind, evaluation only passes on what reading a text came to: the text of a program that is
run, or one that an `E` was handed (`Activity.halts_source_iff`).
-/
import KnightLang.CommandLine.Basic
import KnightLang.Proofs.Session.Growth

namespace KnightLang

open EvalM

/-! ## Wording -/

section
variable {β σ ν : Type} [Bindings β ν] {m m' : Machine β σ} {source : String} {e : SourceError}

variable [Host σ]

end

/-! ## All errors -/

section
variable {σ : Type} [Host σ] {a : Activity String} {m m' : Machine Store σ}

end

end KnightLang
