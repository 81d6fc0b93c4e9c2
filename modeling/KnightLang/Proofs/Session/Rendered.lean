/-
Code as text. A tree that was read once may be written down again in any layout: `E` applied to the
text does what the tree itself does (`Term.eval_rendering`). The text is read as the tree, its names
are known already, so reading it leaves the variables as they are, and its variable nodes are the
same as those of the tree; from there on both evaluations are one and the same.
-/
import KnightLang.Proofs.Session.Cells

namespace KnightLang

open EvalM

/-! ## Reading text with known names -/

section
variable {β ν : Type} [Bindings β ν]

theorem Bindings.registerAll_of_known {b : β} {names : List String}
    (h : ∀ x ∈ names, register b x = b) : registerAll b names = b := by
  induction names with
  | nil => rfl
  | cons name names ih =>
    show registerAll (register b name) names = b
    rw [h name (List.mem_cons_self ..)]
    exact ih fun x hx => h x (List.mem_cons_of_mem _ hx)

variable {σ : Type} {source : String} {t : Term String} {m : Machine β σ}

/-- Reading a rendering of a term with known names leaves the machine as it is. -/
theorem Machine.load_of_renders (h : Source.Renders t source.toList)
    (hknown : ∀ x ∈ Source.namesOf t.tokens, Bindings.register m.bindings x = m.bindings) :
    (Machine.load source).run m = .value (t.map (Bindings.resolve m.bindings)) m := by
  rw [run_load, Source.parse_of_renders h]
  dsimp only
  rw [Bindings.registerAll_of_known hknown]

variable [Host σ]

/-- `E` spends one unit of fuel on a text, and then does what running the text does. -/
theorem Term.eval_text (n : Nat) (source : String) (m : Machine β σ) :
    ((Term.unary .eval (.lit (.text source))).eval (n + 1)).run m =
      (Term.runSource n source).run m := by
  show (KnightLang.coerce Literal.toText (Term.eval n) n (.lit (.text source)) >>= fun s =>
    Term.runSource n s).run m = _
  cases n <;> rfl

/-- On a machine, one term does what another one does: with enough fuel, it comes to the same
value or the same halt and leaves the same machine, or neither of them ever ends. -/
def Term.DoesAs (t u : Term ν) (m : Machine β σ) : Prop :=
  ∀ out, out ≠ .unfinished → ((∃ n, (t.eval n).run m = out) ↔ ∃ n, (u.eval n).run m = out)

theorem Term.eval_text_doesAs {u : Term ν} (h : (Machine.load source).run m = .value u m) :
    (Term.unary .eval (.lit (.text source))).DoesAs u m := by
  have read : ∀ n, ((Term.unary .eval (.lit (.text source))).eval (n + 1)).run m =
      (u.eval n).run m := by
    intro n
    rw [Term.eval_text]
    show (Machine.load source >>= Term.eval n).run m = _
    rw [run_bind, h]
  intro out hout
  constructor
  · rintro ⟨n, hn⟩
    cases n with
    | zero => exact absurd hn.symm hout
    | succ n => exact ⟨n, (read n).symm.trans hn⟩
  · rintro ⟨n, hn⟩
    exact ⟨n + 1, (read n).trans hn⟩

end

/-! ## The variables of a term -/

namespace Term

theorem name_mem_cases {t : Term String} {x : String} (h : .name x ∈ t.tokens) :
    t = .var x ∨ ∃ a ∈ t.args, .name x ∈ a.tokens := by
  cases t <;> simp_all [tokens, args]

/-- Names stand in variable nodes only. -/
theorem occurs_of_name_mem {t : Term String} {x : String} (h : .name x ∈ t.tokens) :
    (var x).Occurs t := by
  induction t using induction_args with
  | h t ih =>
    rcases name_mem_cases h with rfl | ⟨a, ha, hx⟩
    · exact .self
    · exact .arg ha (ih a ha hx)

theorem occurs_of_mem_namesOf {t : Term String} {x : String} (h : x ∈ Source.namesOf t.tokens) :
    (var x).Occurs t := by
  obtain ⟨token, htoken, hname⟩ := List.mem_filterMap.1 h
  cases token with
  | name y =>
    cases hname
    exact occurs_of_name_mem htoken
  | literal | builtin => cases hname

/-- A term is not changed by a replacement that leaves its variables as they are. -/
theorem map_eq_self {ν : Type} {f : ν → ν} {t : Term ν} (h : ∀ x, (var x).Occurs t → f x = x) :
    t.map f = t := by
  induction t using induction_args with
  | h t ih =>
    have kept : ∀ a ∈ t.args, a.map f = a := fun a ha => ih a ha fun x hx => h x (.arg ha hx)
    cases t with
    | lit | nullary => rfl
    | var x => rw [map, h x .self]
    | unary | binary | ternary | quaternary =>
      simp only [args, List.forall_mem_cons] at kept
      simp only [map, kept]

end Term

/-! ## Trees in a store -/

section
variable {σ : Type} {source : String}

/-- From a store that knows the names of a tree, each of its renderings is read as the tree, and
nothing changes. -/
theorem Store.load_of_renders {t : Term String} {m : Machine Store σ}
    (h : Source.Renders t source.toList) (ht : WellFormed m.bindings t) :
    (Machine.load source).run m = .value t m := by
  have known : ∀ x ∈ Source.namesOf t.tokens,
      Bindings.register m.bindings x = m.bindings :=
    fun x hx => register_of_known ((ht _ (Term.occurs_of_mem_namesOf hx)).name x rfl)
  have read := Machine.load_of_renders h known
  rwa [show t.map (Bindings.resolve m.bindings) = t from t.map_id] at read

/-! ## Trees in cells -/

/-- A tree that was read holds the cells of its names, also when more names have become known. -/
theorem Term.Current.of_load {m₀ m₁ m : Machine Cells σ} {u : Term CellRef}
    (h : (Machine.load source).run m₀ = .value u m₁) (hm : m₁.bindings.Grows m.bindings) :
    u.Current m.bindings := by
  rw [Machine.run_load] at h
  dsimp only at h
  split at h
  · rename_i t ht
    cases h
    exact (Term.current_of_parse ht).mono hm
  · cases h

/-- In cells, each rendering of a tree is read as the very same nodes. -/
theorem Cells.load_of_renders {u : Term CellRef} {m : Machine Cells σ}
    (h : Source.Renders (u.map CellRef.name) source.toList) (hu : u.Current m.bindings) :
    (Machine.load source).run m = .value u m := by
  have known : ∀ x ∈ Source.namesOf (u.map CellRef.name).tokens,
      Bindings.register m.bindings x = m.bindings := by
    intro x hx
    obtain ⟨r, hr, rfl⟩ := Term.exists_of_var_occurs_map (Term.occurs_of_mem_namesOf hx)
    exact register_of_known (Option.isSome_iff_exists.2 ⟨_, hu r hr⟩)
  have nodes : (u.map CellRef.name).map (Bindings.resolve m.bindings) = u := by
    rw [Term.map_map]
    refine Term.map_eq_self fun r hr => ?_
    show CellRef.mk r.name ((m.bindings.cell? r.name).getD m.bindings.heap.length) = r
    rw [hu r hr]
    rfl
  have read := Machine.load_of_renders h known
  rwa [nodes] at read

/-! ## Running the text of a tree -/

variable [Host σ]

/-- `E` applied to the text of a tree does what the tree does, for every rendering of every tree,
on every machine that knows the names of the tree: those of a store, and those of cells whenever
the tree was read, since its nodes hold the cells of their names from then on. Neither of the two
ends, or both end with the same value or the same halt, and they leave the same variables, among
them the same names, the same host and the same draws. -/
theorem Term.eval_rendering :
    (∀ (m : Machine Store σ) (t : Term String), WellFormed m.bindings t →
        ∀ source : String, Source.Renders t source.toList →
          (Term.unary .eval (.lit (.text source))).DoesAs t m) ∧
      ∀ (m : Machine Cells σ) (u : Term CellRef), u.Current m.bindings →
        ∀ source : String, Source.Renders (u.map CellRef.name) source.toList →
          (Term.unary .eval (.lit (.text source))).DoesAs u m :=
  ⟨fun _ _ ht _ h => eval_text_doesAs (Store.load_of_renders h ht),
    fun _ _ hu _ h => eval_text_doesAs (Cells.load_of_renders h hu)⟩

end

/-- The tree of `+ x 1` comes to five where `x` is four, and so does `E` on another layout of it,
with tails, a comment and a leading zero: in a store, and in cells after the tree was read. -/
theorem Term.eval_other_layout :
    let source := "(+ x\t# one\n 01) O 1"
    let t : Term String := .binary (.arith .add) (.var "x") (.lit (.number 1))
    let u : Term CellRef := .binary (.arith .add) (.var ⟨"x", 0⟩) (.lit (.number 1))
    let m : Machine Store Scripted :=
      ⟨Bindings.set ∅ "x" (.lit (.number 4)), {}, Draws.seeded 0⟩
    let m' : Machine Cells Scripted :=
      ⟨Bindings.set ∅ "x" (.lit (.number 4)), {}, Draws.seeded 0⟩
    Source.Renders t source.toList ∧ u.map CellRef.name = t ∧
      WellFormed m.bindings t ∧ (Machine.load "+ x 1").run m' = .value u m' ∧
      (∃ n, ((Term.unary .eval (.lit (.text source))).eval n).run m =
        .value (.lit (.number 5)) m) ∧
      ∃ n, ((Term.unary .eval (.lit (.text source))).eval n).run m' =
        .value (.lit (.number 5)) m' := by
  intro source t u m m'
  have space : Source.Filler [' '] := .char (by decide) .nil
  have comment : Source.Filler ("\t# one\n ".toList) :=
    .char (by decide) (.comment (show '\n' ∉ " one".toList by simp) space)
  have one : Source.Spells (.literal (.number 1)) "01".toList :=
    .number (by simp) (by simp) (by decide +kernel)
  have name : Source.Spells (.name "x") ['x'] :=
    .name (show Source.isNameStart 'x' = true by decide)
      (show ∀ d ∈ [], Source.isNameTail d = true by simp)
  have arguments : Source.Spaced [.name "x", .literal (.number 1)] " x\t# one\n 01".toList :=
    .cons space (by decide) name (.cons comment (by decide) one .nil)
  have renders : Source.Renders t "(+ x\t# one\n 01) O 1".toList :=
    .intro rfl (.char (show Source.isFiller '(' = true by decide) .nil)
      (.builtin (f := .binary (.arith .add)) Source.noTail fun _ => rfl) arguments
      (show ∀ c ∈ ") O 1".toList.head?, Source.startsFiller c = true by simp; decide)
  have wellFormed : WellFormed m.bindings t := by
    refine wellFormed_of_names fun x hx => ?_
    have hname : x = "x" := by simpa [t, tokens] using name_mem_tokens hx
    rw [hname]
    decide
  have parsed : parse "+ x 1" = ⟨.ok t, ["x"]⟩ := Source.parse_eq_of_ok (by decide +kernel)
  have read : (Machine.load "+ x 1").run m' = .value u m' := by
    rw [Machine.run_load, parsed]
    rfl
  have current : u.Current m'.bindings := .of_load read fun _ _ h => h
  have five : (t.eval 3).run m = .value (.lit (.number 5)) m := rfl
  have five' : (u.eval 3).run m' = .value (.lit (.number 5)) m' := rfl
  refine ⟨renders, rfl, wellFormed, read, ?_, ?_⟩
  · exact (eval_rendering.1 m t wellFormed source renders _ (by simp)).2 ⟨3, five⟩
  · exact (eval_rendering.2 m' u current source renders _ (by simp)).2 ⟨3, five'⟩

end KnightLang
