/-
What reading does to the variables. It makes the names of the source known, without a value, up to
where reading stops, and leaves everything else as it is; what it comes to is up to the source
alone (`Machine.load_only_registers`). Plain stores and cells are alike in this: all that matters is
that they have a record of the known names and do nothing but add to it (`Bindings.Registry`).
-/
import KnightLang.Proofs.Session.Rendered
import KnightLang.Proofs.Source.Failure

namespace KnightLang

/-! ## Records of names -/

/-- A name is known if it has a cell. -/
theorem Cells.mem_index_iff {b : Cells} {x : String} :
    x ∈ b.index.map Prod.fst ↔ (b.cell? x).isSome = true := (Store.lookup_isSome b.index x).symm

namespace Bindings

/-- Bindings with a record of the known names. To make a name known is to add it to the record,
without a value, if it is not there yet. -/
class Registry (β : Type) (ν : outParam Type) [Bindings β ν] where
  known : β → List String
  mem_known_register (b : β) (x y : String) : y ∈ known (register b x) ↔ y = x ∨ y ∈ known b
  register_of_known (b : β) (x : String) : x ∈ known b → register b x = b
  get?_of_unknown (b : β) (x : String) : x ∉ known b → get? b x = none
  get?_register (b : β) (x y : String) : get? (register b x) y = get? b y
  value?_register (b : β) (x : String) (r : ν) : value? (register b x) r = value? b r
  nameOf_resolve (b : β) (x : String) : nameOf β (resolve b x) = x

open Registry

instance : Registry Store String where
  known := Store.names
  mem_known_register _ _ _ := Store.mem_names_register
  register_of_known _ _ := Store.register_of_known
  get?_of_unknown b x h := by
    by_contra hx
    exact h (Store.mem_names_of_value? (Option.isSome_iff_ne_none.2 hx))
  get?_register := Store.value?_register
  value?_register := Store.value?_register
  nameOf_resolve _ _ := rfl

instance : Registry Cells CellRef where
  known b := b.index.map Prod.fst
  mem_known_register b x y := by
    rw [Cells.mem_index_iff, Cells.mem_index_iff]
    show ((b.register x).cell? y).isSome = true ↔ _
    rw [Cells.cell?_register, Option.isSome_or, Bool.or_eq_true]
    by_cases h : y = x <;> simp [h]
  register_of_known _ _ h := Cells.register_of_known (Cells.mem_index_iff.1 h)
  get?_of_unknown b x h := by
    rw [Cells.mem_index_iff, Option.not_isSome_iff_eq_none] at h
    rw [Cells.get?_eq, h]
    rfl
  get?_register := Cells.get?_register
  value?_register b x r := Cells.content_register b x r.cell
  nameOf_resolve _ _ := rfl

section
variable {β ν : Type} [Bindings β ν] [Registry β ν]

theorem mem_known_registerAll {b : β} {names : List String} {x : String} :
    x ∈ known (registerAll b names) ↔ x ∈ known b ∨ x ∈ names := by
  induction names generalizing b with
  | nil => simp [registerAll]
  | cons name names ih =>
    show x ∈ known (registerAll (register b name) names) ↔ _
    rw [ih, mem_known_register, List.mem_cons]
    grind

theorem get?_registerAll (b : β) (names : List String) (x : String) :
    get? (registerAll b names) x = get? b x := by
  induction names generalizing b with
  | nil => rfl
  | cons name names ih => exact (ih (register b name)).trans (get?_register b name x)

theorem value?_registerAll (b : β) (names : List String) (r : ν) :
    value? (registerAll b names) r = value? b r := by
  induction names generalizing b with
  | nil => rfl
  | cons name names ih => exact (ih (register b name)).trans (value?_register b name r)

/-- Nothing is left to do the second time. -/
theorem registerAll_idem (b : β) (names : List String) :
    registerAll (registerAll b names) names = registerAll b names :=
  registerAll_of_known fun x hx => register_of_known _ x (mem_known_registerAll.2 (.inr hx))

/-- A term that is read keeps its names. -/
theorem map_nameOf_resolve (b : β) (t : Term String) :
    (t.map (resolve b)).map (nameOf β) = t := by
  rw [Term.map_map]
  exact Term.map_eq_self fun x _ => nameOf_resolve b x

end

end Bindings

/-! ## Machines that learn names -/

section
variable {β σ ν : Type} [Bindings β ν] [Bindings.Registry β ν]

open Bindings Registry

/-- The second machine is the first one after these names became known, if they were not. -/
structure Machine.Learns (names : List String) (m m' : Machine β σ) : Prop where
  known : ∀ x, x ∈ known m'.bindings ↔ x ∈ known m.bindings ∨ x ∈ names
  /-- The names that were added have no value. -/
  fresh : ∀ x ∈ names, x ∉ Registry.known m.bindings → get? m'.bindings x = none
  /-- All names have the values that they had, and so has every variable node. -/
  values : ∀ x, get? m'.bindings x = get? m.bindings x
  nodes : ∀ r, value? m'.bindings r = value? m.bindings r
  host : m'.host = m.host
  draws : m'.draws = m.draws

theorem Machine.learns_registerAll (m : Machine β σ) (names : List String) :
    m.Learns names { m with bindings := registerAll m.bindings names } where
  known _ := mem_known_registerAll
  fresh x _ hx := (get?_registerAll _ _ x).trans (get?_of_unknown _ x hx)
  values := get?_registerAll _ _
  nodes := value?_registerAll _ _
  host := rfl
  draws := rfl

/-- An outcome of loading a source, with the machine that it leaves, is what reading the source
comes to: the same term but for what its variable nodes hold, or the same error. -/
inductive Outcome.IsReading (result : Except SourceError (Term String)) :
    Outcome (Machine β σ) (Term ν) → Machine β σ → Prop
  | term {t : Term String} {u : Term ν} {m : Machine β σ} : result = .ok t →
      u.map (nameOf β) = t → IsReading result (.value u m) m
  | error {e : SourceError} {m : Machine β σ} : result = .error e →
      IsReading result (.halted (.error (.source e)) m) m

/-- Loading a source a second time comes to the same and changes nothing. -/
theorem Machine.load_twice (source : String) (m : Machine β σ) :
    ∃ out m', (Machine.load source).run m = out ∧ out.IsReading (parse source).result m' ∧
      m.Learns (parse source).names m' ∧ (Machine.load source).run m' = out := by
  refine ⟨_, { m with bindings := registerAll m.bindings (parse source).names }, rfl, ?_,
    m.learns_registerAll _, ?_⟩
  · rw [run_load]
    cases hresult : (parse source).result with
    | ok t => exact .term rfl (map_nameOf_resolve _ t)
    | error e => exact .error rfl
  · rw [run_load, run_load]
    dsimp only
    rw [registerAll_idem]

end

/-- The names of a source with an expression are those of the variables in it. -/
theorem Source.mem_names_iff {source x : String} {t : Term String}
    (h : (parse source).result = .ok t) : x ∈ (parse source).names ↔ (Term.var x).Occurs t := by
  constructor
  · intro hx
    rw [parse_eq_of_ok h] at hx
    exact Term.occurs_of_mem_namesOf hx
  · exact mem_names_of_parse h

/-- The names of a source without one are all names among its tokens, up to the flaw. -/
theorem Source.exists_names_eq {source : String} {e : SourceError}
    (h : (parse source).result = .error e) :
    ∃ s, Splits source.toList s ∧ Fails source s e ∧ (parse source).names = namesOf s.words := by
  obtain ⟨s, hs⟩ := exists_splits source.toList
  obtain ⟨hfails, hparse⟩ := fails_of_error hs h
  exact ⟨s, hs, hfails, by rw [hparse]⟩

/-- Loading a source only makes names known: the names of the variables in the expression that is
read, or all names among the tokens in front of the error. From any bindings, it comes to the same
term but for what the variable nodes hold, or to the same error at the same position. Names that are
added have no value, nothing else changes, and a second time nothing changes at all. -/
theorem Machine.load_only_registers (source : String) :
    (∀ t, (parse source).result = .ok t →
      ∀ x, x ∈ (parse source).names ↔ (Term.var x).Occurs t) ∧
    (∀ e, (parse source).result = .error e → ∃ s, Source.Splits source.toList s ∧
      Source.Fails source s e ∧ (parse source).names = Source.namesOf s.words) ∧
    ∀ {β σ ν : Type} [Bindings β ν] [Bindings.Registry β ν] (m : Machine β σ),
      ∃ out m', (Machine.load source).run m = out ∧ out.IsReading (parse source).result m' ∧
        m.Learns (parse source).names m' ∧ (Machine.load source).run m' = out :=
  ⟨fun _ h _ => Source.mem_names_iff h, fun _ h => Source.exists_names_eq h,
    fun m => Machine.load_twice source m⟩

/-- With an error at `@`, the names in front of it are known, and the one behind it is not. -/
theorem Machine.load_registers_until_error :
    let source := "; = ab 1 + cd @ ef"
    let e : SourceError := ⟨.unknownCharacter '@', ⟨14, 1, 15⟩⟩
    let m : Machine Cells Unit := ⟨Bindings.set ∅ "ab" (.lit .null), (), Draws.seeded 0⟩
    (parse "= ab cd").result = .ok (.binary .assign (.var "ab") (.var "cd")) ∧
      (∀ x, x ∈ (parse "= ab cd").names ↔
        (Term.var x).Occurs (.binary .assign (.var "ab") (.var "cd"))) ∧
      (parse source).result = .error e ∧ (∃ s, Source.Splits source.toList s ∧
        Source.Fails source s e ∧ (parse source).names = Source.namesOf s.words) ∧
      ∃ m', (Machine.load source).run m = .halted (.error (.source e)) m' ∧
        m.Learns ["ab", "cd"] m' ∧
        (Machine.load source).run m' = .halted (.error (.source e)) m' := by
  intro source e m
  have ok : (parse "= ab cd").result = .ok (.binary .assign (.var "ab") (.var "cd")) := by
    decide +kernel
  have fails : (parse source).result = .error e := by decide +kernel
  have names : (parse source).names = ["ab", "cd"] := by decide +kernel
  obtain ⟨out, m', hload, hreading, hlearns, htwice⟩ := (load_only_registers source).2.2 m
  rw [names] at hlearns
  rw [fails] at hreading
  cases hreading with
  | term h => cases h
  | error h =>
    cases h
    exact ⟨ok, (load_only_registers _).1 _ ok, fails, (load_only_registers _).2.1 _ fails,
      m', hload, hlearns, htwice⟩

end KnightLang
