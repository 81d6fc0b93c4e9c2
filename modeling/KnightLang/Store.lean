/-
The variables of a program. `Bindings` is what evaluation needs of them: a name is registered when
it is read, resolves to what the variable nodes of that name hold, and has a value once it is
assigned. `Store` is the plain case, in which a variable node holds just its name: a list of the
known names, each with its value if it has one. Names are never removed.
-/
import KnightLang.Term.Basic

namespace KnightLang

/-! ## Bindings -/

/-- A collection of variables `β`, whose variable nodes hold a `ν`. -/
class Bindings (β : Type) (ν : outParam Type) where
  /-- The name of the variable that a node stands for. -/
  nameOf : ν → String
  /-- Makes a name known. -/
  register : β → String → β
  /-- What the variable nodes of a known name hold. -/
  resolve : β → String → ν
  /-- The value of a variable, if it has one. -/
  value? : β → ν → Option (Term ν)
  /-- Gives a variable a value. -/
  assign : β → ν → Term ν → β
  /-- The number of known names. -/
  size : β → Nat

namespace Bindings

variable {β ν : Type} [Bindings β ν]

/-- Makes every name of a list known. -/
def registerAll (b : β) (names : List String) : β := names.foldl register b

/-- The value of the variable with a name. -/
def get? (b : β) (name : String) : Option (Term ν) := value? b (resolve b name)

/-- Gives the variable with a name a value, and makes the name known. -/
def set (b : β) (name : String) (value : Term ν) : β :=
  let b := register b name
  assign b (resolve b name) value

end Bindings

/-! ## Stores -/

/-- The content of a known name: its value, if it has one. -/
abbrev Store.Content : Type := Option (Term String)

/-- Gives a name its content where it stands, or at the end if it is new. -/
def Store.place (x : String) (c : Store.Content) :
    List (String × Store.Content) → List (String × Store.Content)
  | [] => [(x, c)]
  | entry :: entries =>
    if entry.1 = x then (x, c) :: entries else entry :: Store.place x c entries

theorem Store.mem_names_place {x y : String} {c : Store.Content}
    {entries : List (String × Store.Content)} :
    y ∈ (Store.place x c entries).map Prod.fst ↔ y = x ∨ y ∈ entries.map Prod.fst := by
  induction entries with
  | nil => simp [place]
  | cons entry entries ih =>
    unfold place
    split
    · rename_i h
      simp [h]
    · rw [List.map_cons, List.mem_cons, ih, List.map_cons, List.mem_cons]
      grind

theorem Store.nodup_names_place {x : String} {c : Store.Content}
    {entries : List (String × Store.Content)} (h : (entries.map Prod.fst).Nodup) :
    ((Store.place x c entries).map Prod.fst).Nodup := by
  induction entries with
  | nil => simp [place]
  | cons entry entries ih =>
    unfold place
    split
    · rename_i hx
      simpa [hx] using h
    · rename_i hx
      rw [List.map_cons, List.nodup_cons] at h ⊢
      refine ⟨fun hm => ?_, ih h.2⟩
      rcases mem_names_place.1 hm with he | he
      · exact hx he
      · exact h.1 he

/-- The known names in the order in which they became known, each with its value if it has one. -/
structure Store where
  entries : List (String × Store.Content)
  nodup_names : (entries.map Prod.fst).Nodup := by simp

namespace Store

/-- The store without names. -/
def empty : Store := { entries := [] }

instance : EmptyCollection Store := ⟨empty⟩

/-- The known names. -/
def names (s : Store) : List String := s.entries.map Prod.fst

/-- The value of a name, if it has one. -/
def value? (s : Store) (x : String) : Option (Term String) := (s.entries.lookup x).join

/-- Makes a name known, without a value if it is new. -/
def register (s : Store) (x : String) : Store :=
  if (s.entries.lookup x).isSome then s
  else ⟨place x none s.entries, nodup_names_place s.nodup_names⟩

/-- Gives a name a value, and makes it known. -/
def assign (s : Store) (x : String) (value : Term String) : Store :=
  ⟨place x (some value) s.entries, nodup_names_place s.nodup_names⟩

/-- In a store, a variable node holds its name. -/
instance : Bindings Store String where
  nameOf := id
  register := register
  resolve _ x := x
  value? := value?
  assign := assign
  size s := s.entries.length

/-! ## Looking up after a change -/

theorem lookup_cons {α : Type} (y : String) (entry : String × α) (entries : List (String × α)) :
    (entry :: entries).lookup y = if y = entry.1 then some entry.2 else entries.lookup y := by
  rw [List.lookup_cons]
  by_cases h : y = entry.1
  · rw [if_pos h, beq_iff_eq.2 h]
  · rw [if_neg h, beq_eq_false_iff_ne.2 h]

theorem lookup_place (x y : String) (c : Content) (entries : List (String × Content)) :
    (place x c entries).lookup y = if y = x then some c else entries.lookup y := by
  induction entries with
  | nil => rw [place, lookup_cons]
  | cons entry entries ih =>
    unfold place
    split
    · rename_i hx
      rw [lookup_cons, lookup_cons, hx]
      split <;> rfl
    · rename_i hx
      rw [lookup_cons, lookup_cons, ih]
      grind

theorem lookup_isSome {α : Type} (entries : List (String × α)) (x : String) :
    (entries.lookup x).isSome = true ↔ x ∈ entries.map Prod.fst := by
  induction entries with
  | nil => simp
  | cons entry entries ih =>
    rw [lookup_cons, List.map_cons, List.mem_cons, ← ih]
    split <;> simp_all

theorem value?_assign (s : Store) (x y : String) (v : Term String) :
    (s.assign x v).value? y = if y = x then some v else s.value? y := by
  unfold value? assign
  rw [lookup_place]
  by_cases h : y = x <;> simp [h]

theorem register_of_known {s : Store} {x : String} (h : x ∈ s.names) : s.register x = s :=
  if_pos ((lookup_isSome _ _).2 h)

theorem value?_register (s : Store) (x y : String) : (s.register x).value? y = s.value? y := by
  unfold register
  split
  · rfl
  · rename_i hx
    unfold value?
    rw [lookup_place]
    split
    · rename_i h
      rw [h, Option.not_isSome_iff_eq_none.1 hx]
      rfl
    · rfl

theorem mem_names_register {s : Store} {x y : String} :
    y ∈ (s.register x).names ↔ y = x ∨ y ∈ s.names := by
  unfold register names
  split
  · rename_i hx
    have := (lookup_isSome _ _).1 hx
    constructor
    · exact Or.inr
    · rintro (rfl | h)
      · exact this
      · exact h
  · exact mem_names_place

theorem value?_registerAll (s : Store) (names : List String) (x : String) :
    (Bindings.registerAll s names).value? x = s.value? x := by
  induction names generalizing s with
  | nil => rfl
  | cons name names ih => exact (ih (s.register name)).trans (value?_register s name x)

theorem mem_names_registerAll {s : Store} {names : List String} {x : String} :
    x ∈ (Bindings.registerAll s names).names ↔ x ∈ names ∨ x ∈ s.names := by
  induction names generalizing s with
  | nil => simp [Bindings.registerAll]
  | cons name names ih =>
    show x ∈ (Bindings.registerAll (s.register name) names).names ↔ _
    rw [ih, mem_names_register, List.mem_cons]
    grind

theorem mem_names_assign {s : Store} {x y : String} {v : Term String} :
    y ∈ (s.assign x v).names ↔ y = x ∨ y ∈ s.names :=
  mem_names_place

/-! ## The order of names -/

theorem place_of_notMem {x : String} {entries : List (String × Content)}
    (h : x ∉ entries.map Prod.fst) (c : Content) : place x c entries = entries ++ [(x, c)] := by
  induction entries with
  | nil => rfl
  | cons entry entries ih =>
    rw [List.map_cons, List.mem_cons, not_or] at h
    rw [place, if_neg (Ne.symm h.1), ih h.2]
    rfl

theorem names_place_of_mem {x : String} {entries : List (String × Content)}
    (h : x ∈ entries.map Prod.fst) (c : Content) :
    (place x c entries).map Prod.fst = entries.map Prod.fst := by
  induction entries with
  | nil => cases h
  | cons entry entries ih =>
    unfold place
    split
    · rename_i hx
      rw [List.map_cons, List.map_cons, hx]
    · rename_i hx
      have behind : x ∈ entries.map Prod.fst :=
        (List.mem_cons.1 h).resolve_left fun he => hx he.symm
      rw [List.map_cons, List.map_cons, ih behind]

/-- A known name stays where it stands. -/
theorem names_assign_of_mem {s : Store} {x : String} (h : x ∈ s.names) (v : Term String) :
    (s.assign x v).names = s.names := names_place_of_mem h (some v)

/-- A new name comes last. -/
theorem names_assign_of_notMem {s : Store} {x : String} (h : x ∉ s.names) (v : Term String) :
    (s.assign x v).names = s.names ++ [x] := by
  show (place x (some v) s.entries).map Prod.fst = _
  rw [place_of_notMem h, List.map_append]
  rfl

/-! ## Equal stores -/

theorem ext_entries {s s' : Store} (h : s.entries = s'.entries) : s = s' := by
  cases s
  cases s'
  cases h
  rfl

theorem lookup_eq_none {α : Type} {entries : List (String × α)} {x : String}
    (h : x ∉ entries.map Prod.fst) : entries.lookup x = none :=
  Option.not_isSome_iff_eq_none.1 fun hx => h ((lookup_isSome entries x).1 hx)

theorem mem_names_of_value? {s : Store} {x : String} (h : (s.value? x).isSome = true) :
    x ∈ s.names := by
  refine Decidable.byContradiction fun hx => ?_
  unfold value? at h
  rw [lookup_eq_none hx] at h
  cases h

/-- Two stores with the same names in the same order and with the same values are the same. -/
theorem eq_of_values {s s' : Store} (hnames : s'.names = s.names)
    (hvalues : ∀ x, s'.value? x = s.value? x) : s' = s := by
  refine ext_entries ?_
  have hnodup := s.nodup_names
  unfold names at hnames
  unfold value? at hvalues
  generalize s'.entries = entries' at hnames hvalues
  generalize s.entries = entries at hnodup hnames hvalues
  induction entries generalizing entries' with
  | nil => exact List.map_eq_nil_iff.1 hnames
  | cons entry entries ih =>
    cases entries' with
    | nil => cases hnames
    | cons entry' entries' =>
      obtain ⟨hname, hrest⟩ := List.cons.inj hnames
      rw [List.map_cons, List.nodup_cons] at hnodup
      have hcontent := hvalues entry.1
      rw [lookup_cons, lookup_cons, if_pos rfl, if_pos hname.symm] at hcontent
      have hvalues' : ∀ y, (entries'.lookup y).join = (entries.lookup y).join := by
        intro y
        by_cases hy : y = entry.1
        · -- The name of the first entry does not stand behind it.
          rw [hy, lookup_eq_none hnodup.1, lookup_eq_none (hrest ▸ hnodup.1)]
        · have := hvalues y
          rwa [lookup_cons, lookup_cons, hname, if_neg hy, if_neg hy] at this
      rw [Prod.ext hname hcontent, ih entries' hnodup.2 hrest hvalues']

end Store

end KnightLang
