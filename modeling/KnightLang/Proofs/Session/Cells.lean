/-
Cells and names. A variable node holds a cell from the time when it was read, while the store gives
cells to names at other times: before, after, and in sources that are no programs. Nothing goes
apart: every node that a session gets hold of holds the cell that its name has now, so cells only
save the search for a name. A session on cells does the same, request by request, as one on a plain
store, whose nodes hold names that are looked up in one list of values
(`Session.cells_refine_names`).
-/
import KnightLang.Cells
import KnightLang.Proofs.Session.Parallel
import KnightLang.Proofs.Session.WellFormed
import Mathlib.Data.List.Nodup

namespace KnightLang

namespace Cells

variable {b : Cells} {x y : String} {c : Nat} {r : CellRef} {v : Term CellRef}

/-! ## Names and their cells -/

theorem mem_index_of_cell? (h : b.cell? x = some c) : (x, c) ∈ b.index := by
  obtain ⟨before, after, hindex, -⟩ := List.lookup_eq_some_iff.1 h
  rw [hindex]
  simp

theorem cell?_lt (h : b.cell? x = some c) : c < b.heap.length :=
  b.cells_lt (x, c) (mem_index_of_cell? h)

theorem cell?_injective (hx : b.cell? x = some c) (hy : b.cell? y = some c) : x = y := by
  have same : ((x, c) : String × Nat) = (y, c) :=
    List.inj_on_of_nodup_map b.nodup_cells (mem_index_of_cell? hx) (mem_index_of_cell? hy) rfl
  exact congrArg Prod.fst same

/-! ## After a change -/

theorem register_of_known (h : (b.cell? x).isSome = true) : b.register x = b := dif_pos h

theorem index_register_of_new (h : ¬(b.cell? x).isSome = true) :
    (b.register x).index = b.index ++ [(x, b.heap.length)] := by
  unfold register
  rw [dif_neg h]

theorem heap_register_of_new (h : ¬(b.cell? x).isSome = true) :
    (b.register x).heap = b.heap ++ [none] := by
  unfold register
  rw [dif_neg h]

theorem cell?_register (b : Cells) (x y : String) :
    (b.register x).cell? y = (b.cell? y).or (if y = x then some b.heap.length else none) := by
  by_cases hx : (b.cell? x).isSome = true
  · rw [register_of_known hx]
    split
    · rename_i hy
      obtain ⟨c, hc⟩ := Option.isSome_iff_exists.1 hx
      rw [hy, hc]
      rfl
    · rw [Option.or_none]
  · unfold cell?
    rw [index_register_of_new hx, List.lookup_append, Store.lookup_cons]
    rfl

/-- A name keeps its cell. -/
theorem cell?_register_of_some (h : b.cell? y = some c) (x : String) :
    (b.register x).cell? y = some c := by
  rw [cell?_register, h]
  rfl

theorem isSome_cell?_register (b : Cells) (x : String) :
    ((b.register x).cell? x).isSome = true := by
  rw [cell?_register, if_pos rfl]
  cases b.cell? x <;> rfl

/-- There is nothing behind the cells. -/
theorem content_length (b : Cells) : b.content b.heap.length = none := by
  unfold content
  rw [List.getElem?_eq_none (Nat.le_refl _)]
  rfl

/-- A new cell is empty, and cells that are there keep what they hold. -/
theorem content_register (b : Cells) (x : String) (c : Nat) :
    (b.register x).content c = b.content c := by
  by_cases hx : (b.cell? x).isSome = true
  · rw [register_of_known hx]
  · unfold content
    rw [heap_register_of_new hx, List.getElem?_append]
    split
    · rfl
    · rename_i hc
      rw [List.getElem?_eq_none (Nat.le_of_not_lt hc)]
      cases c - b.heap.length <;> rfl

theorem content_assign (hr : r.cell < b.heap.length) (v : Term CellRef) (c : Nat) :
    (b.assign r v).content c = if c = r.cell then some v else b.content c := by
  unfold content assign
  rw [List.getElem?_set]
  by_cases h : r.cell = c
  · rw [if_pos h, if_pos hr, if_pos h.symm]
    rfl
  · rw [if_neg h, if_neg (Ne.symm h)]

theorem get?_eq (b : Cells) (x : String) : Bindings.get? b x = (b.cell? x).bind b.content := by
  show b.content ((b.cell? x).getD b.heap.length) = _
  cases b.cell? x with
  | some c => rfl
  | none => exact b.content_length

/-! ## The plain store -/

/-- The names with their values, in which variable nodes hold names only. -/
def erase (b : Cells) : Store where
  entries := b.index.map fun entry =>
    (entry.1, (b.content entry.2).map (Term.map CellRef.name))
  nodup_names := by
    rw [List.map_map]
    exact b.nodup_names

theorem value?_erase (b : Cells) (x : String) :
    b.erase.value? x =
      (b.cell? x).bind fun c => (b.content c).map (Term.map CellRef.name) := by
  unfold Store.value? erase cell?
  rw [lookup_map_values fun c => (b.content c).map (Term.map CellRef.name)]
  cases b.index.lookup x <;> rfl

theorem isSome_lookup_erase (b : Cells) (x : String) :
    (b.erase.entries.lookup x).isSome = (b.cell? x).isSome := by
  unfold erase cell?
  rw [lookup_map_values fun c => (b.content c).map (Term.map CellRef.name), Option.isSome_map]

end Cells

/-- In a list without duplicate names, placing a known name changes the entry of this name. -/
theorem Store.place_map {x : String} {index : List (String × Nat)}
    (hnodup : (index.map Prod.fst).Nodup) (hx : x ∈ index.map Prod.fst) (old : Nat → Content)
    (new : Content) :
    place x new (index.map fun entry => (entry.1, old entry.2)) =
      index.map fun entry => (entry.1, if entry.1 = x then new else old entry.2) := by
  induction index with
  | nil => cases hx
  | cons entry index ih =>
    rw [List.map_cons, List.nodup_cons] at hnodup
    rw [List.map_cons, List.map_cons, place]
    by_cases h : entry.1 = x
    · rw [if_pos h, if_pos h, h]
      refine congrArg _ (List.map_congr_left fun other hother => ?_)
      have apart : other.1 ≠ x := fun he => hnodup.1 (h ▸ he ▸ List.mem_map_of_mem hother)
      rw [if_neg apart]
    · have behind : x ∈ index.map Prod.fst :=
        (List.mem_cons.1 hx).resolve_left fun he => h he.symm
      rw [if_neg h, if_neg h, ih hnodup.2 behind]

namespace Cells

variable {b : Cells} {r : CellRef}

theorem erase_register (b : Cells) (x : String) : (b.register x).erase = b.erase.register x := by
  by_cases hx : (b.cell? x).isSome = true
  · unfold Store.register
    rw [register_of_known hx, if_pos (by rw [isSome_lookup_erase, hx])]
  · have new : x ∉ b.erase.entries.map Prod.fst := by
      rw [← Store.lookup_isSome, isSome_lookup_erase]
      exact hx
    unfold Store.register
    rw [if_neg (by rw [isSome_lookup_erase]; exact hx)]
    refine Store.ext_entries ?_
    show (b.register x).index.map _ = Store.place x none b.erase.entries
    rw [Store.place_of_notMem new, index_register_of_new hx, List.map_append]
    simp only [content_register]
    rw [List.map_singleton, content_length]
    rfl

end Cells

/-! ## Nodes that hold the cell of their name -/

/-- A variable node holds the cell that its name has. -/
def CellRef.Current (b : Cells) (r : CellRef) : Prop := b.cell? r.name = some r.cell

/-- All variable nodes in a term hold the cells that their names have. -/
def Term.Current (b : Cells) (t : Term CellRef) : Prop :=
  ∀ r, (Term.var r).Occurs t → r.Current b

/-- All cells hold such terms. -/
def Cells.Sound (b : Cells) : Prop := ∀ c t, b.content c = some t → t.Current b

/-- Names keep their cells. -/
def Cells.Grows (b b' : Cells) : Prop := ∀ x c, b.cell? x = some c → b'.cell? x = some c

section
variable {b b' : Cells} {t a v : Term CellRef} {r : CellRef}

theorem Term.Current.mono (h : t.Current b) (hb : b.Grows b') : t.Current b' :=
  fun r hr => hb r.name r.cell (h r hr)

theorem Term.Current.arg (h : t.Current b) (ha : a ∈ t.args) : a.Current b :=
  fun r hr => h r (.arg ha hr)

theorem Term.current_lit (l : Literal) : (Term.lit l).Current b := by
  intro r hr
  cases hr with
  | arg ha => cases ha

namespace Cells

theorem Grows.trans {b'' : Cells} (h : b.Grows b') (h' : b'.Grows b'') : b.Grows b'' :=
  fun x c hc => h' x c (h x c hc)

theorem grows_register (b : Cells) (x : String) : b.Grows (b.register x) :=
  fun _ _ h => cell?_register_of_some h x

theorem Sound.register (h : b.Sound) (x : String) : (b.register x).Sound := by
  intro c t ht
  rw [content_register] at ht
  exact (h c t ht).mono (b.grows_register x)

theorem Sound.assign (h : b.Sound) (hr : r.Current b) (hv : v.Current b) :
    (b.assign r v).Sound := by
  intro c t ht
  rw [content_assign (cell?_lt hr)] at ht
  split at ht
  · cases ht
    exact hv
  · exact h c t ht

theorem grows_registerAll (b : Cells) (names : List String) :
    b.Grows (Bindings.registerAll b names) := by
  induction names generalizing b with
  | nil => exact fun _ _ h => h
  | cons name names ih => exact (b.grows_register name).trans (ih (b.register name))

theorem Sound.registerAll (h : b.Sound) (names : List String) :
    Sound (Bindings.registerAll b names) := by
  induction names generalizing b with
  | nil => exact h
  | cons name names ih => exact ih (h.register name)

theorem isSome_cell?_registerAll {names : List String} {x : String} (b : Cells) (hx : x ∈ names) :
    (cell? (Bindings.registerAll b names) x).isSome = true := by
  induction names generalizing b with
  | nil => cases hx
  | cons name names ih =>
    rcases List.mem_cons.1 hx with rfl | hx
    · obtain ⟨c, hc⟩ := Option.isSome_iff_exists.1 (b.isSome_cell?_register x)
      -- Nothing that is registered later takes the cell away.
      have kept := grows_registerAll (b.register x) names x c hc
      exact Option.isSome_iff_exists.2 ⟨c, kept⟩
    · exact ih (b.register name) hx

/-- A node made for a known name holds the cell of this name. -/
theorem current_resolve {x : String} (h : (b.cell? x).isSome = true) :
    (Bindings.resolve b x : CellRef).Current b := by
  obtain ⟨c, hc⟩ := Option.isSome_iff_exists.1 h
  show b.cell? x = some ((b.cell? x).getD b.heap.length)
  rw [hc]
  rfl

/-- Through a node, a value goes to the name of the node. -/
theorem erase_assign (hr : r.Current b) (v : Term CellRef) :
    (b.assign r v).erase = b.erase.assign r.name (v.map CellRef.name) := by
  have known : r.name ∈ b.index.map Prod.fst :=
    List.mem_map_of_mem (f := Prod.fst) (mem_index_of_cell? hr)
  refine Store.ext_entries ?_
  show b.index.map _ = Store.place r.name _ (b.index.map _)
  rw [Store.place_map b.nodup_names known fun c => (b.content c).map (Term.map CellRef.name)]
  refine List.map_congr_left fun entry hentry => ?_
  rw [content_assign (cell?_lt hr)]
  -- An entry has the cell of the node if and only if it has its name.
  by_cases h : entry.1 = r.name
  · have same : entry = (r.name, r.cell) :=
      List.inj_on_of_nodup_map b.nodup_names hentry (mem_index_of_cell? hr) h
    rw [same, if_pos rfl, if_pos rfl]
    rfl
  · have apart : entry.2 ≠ r.cell := by
      intro hc
      have same := List.inj_on_of_nodup_map b.nodup_cells hentry (mem_index_of_cell? hr) hc
      exact h (congrArg Prod.fst same)
    rw [if_neg h, if_neg apart]

theorem value?_erase_of_current (hr : r.Current b) :
    b.erase.value? r.name = (Bindings.value? b r).map (Term.map CellRef.name) := by
  rw [value?_erase, hr]
  rfl

end Cells

end

theorem Term.args_map {ν ν' : Type} (f : ν → ν') (t : Term ν) :
    (t.map f).args = t.args.map (Term.map f) := by cases t <;> rfl

/-- The variable nodes of a term with its variables replaced are replaced ones. -/
theorem Term.exists_of_var_occurs_map {ν ν' : Type} {f : ν → ν'} {t : Term ν} {y : ν'}
    (h : (Term.var y).Occurs (t.map f)) : ∃ x, (Term.var x).Occurs t ∧ f x = y := by
  generalize hu : t.map f = u at h
  induction h generalizing t with
  | self =>
    cases t with
    | var x =>
      cases hu
      exact ⟨x, .self, rfl⟩
    | _ => cases hu
  | arg ha _ ih =>
    subst hu
    rw [args_map] at ha
    obtain ⟨a, ha, hmap⟩ := List.mem_map.1 ha
    obtain ⟨x, hx, hy⟩ := ih hmap
    exact ⟨x, .arg ha hx, hy⟩

/-- The nodes of a term that is read hold the cells that their names have then. -/
theorem Term.current_of_parse {b : Cells} {source : String} {t : Term String}
    (h : (parse source).result = .ok t) :
    let b' := Bindings.registerAll b (parse source).names
    (t.map (Bindings.resolve b')).Current b' := by
  intro b' r hr
  obtain ⟨x, hx, rfl⟩ := exists_of_var_occurs_map hr
  exact Cells.current_resolve (b.isSome_cell?_registerAll (mem_names_of_parse h hx))

/-! ## Evaluation -/

/-- Evaluation only meets nodes that hold the cell of their name. -/
def currency : VariableInvariant Cells CellRef where
  holds := Cells.Sound
  change := Cells.Grows
  good := Term.Current
  allows b o :=
    match o with
    | .lookup r => r.Current b
    | .assign r v => r.Current b ∧ v.Current b
    | _ => True
  change_refl _ _ _ h := h
  change_trans := Cells.Grows.trans
  good_change hb ht := ht.mono hb
  good_lit l _ := Term.current_lit l
  good_arg ht ha := ht.arg ha
  allows_asked _ ht ho hterms := by
    cases ho with
    | var r => exact ht r .self
    | assign r b value =>
      have target : (Term.var r).Occurs (.binary .assign (.var r) b) :=
        .arg (List.mem_cons_self ..) .self
      exact ⟨ht r target, hterms value (List.mem_singleton.2 rfl)⟩
    | _ => trivial
  lookup hb _ hv := hb _ _ hv
  assign hb ho := ⟨fun _ _ h => h, hb.assign ho.1 ho.2⟩
  load {b _} hb _ :=
    ⟨b.grows_registerAll _, hb.registerAll _, fun _ ht => Term.current_of_parse ht⟩

section
variable (σ : Type) [Host σ]

/-- Cells and the plain store do the same. -/
theorem Cells.parallel :
    Bindings.Parallel (currency.onMachine σ) CellRef.name fun b store => store = b.erase where
  nameOf _ := rfl
  resolve _ _ _ := rfl
  register {b _} x h := by
    rw [h]
    exact (b.erase_register x).symm
  lookup {m b' r} _ h hr := by
    rw [h]
    exact Cells.value?_erase_of_current hr
  assign {m b' r v} _ h ho := by
    rw [h]
    exact (Cells.erase_assign ho.1 v).symm

/-- Machines in the same world, one with cells and the other with their plain store. -/
abbrev Cells.simulation : Simulation (currency.onMachine σ) CellRef.name Store σ :=
  .ofBindings (Cells.parallel σ)

theorem Cells.sound_empty : (∅ : Cells).Sound := fun c t h => by cases c <;> cases h

theorem currency_serves : (currency.onMachine σ).Serves where
  load _ _ := trivial
  set {m name value} hm ht := by
    let b := m.bindings.register name
    have target : (Bindings.resolve b name : CellRef).Current b :=
      Cells.current_resolve (m.bindings.isSome_cell?_register name)
    have value_current : value.Current b := ht.mono (m.bindings.grows_register name)
    have registered : b.Sound := hm.register name
    exact ⟨m.bindings.grows_register name, registered.assign target value_current⟩
  get hm h := hm _ _ h

/-- The value of a name is found through its cell. -/
theorem Cells.get?_erase (b : Cells) (x : String) :
    Bindings.get? b.erase x = (Bindings.get? b x).map (Term.map CellRef.name) := by
  show b.erase.value? x = _
  rw [value?_erase, get?_eq]
  cases b.cell? x <;> rfl

theorem Cells.erase_set (b : Cells) (x : String) (v : Term CellRef) :
    (Bindings.set b x v).erase = Bindings.set b.erase x (v.map CellRef.name) := by
  have target : (Bindings.resolve (b.register x) x : CellRef).Current (b.register x) :=
    current_resolve (b.isSome_cell?_register x)
  show ((b.register x).assign (Bindings.resolve (b.register x) x) v).erase = _
  rw [erase_assign target, erase_register]
  rfl

theorem Cells.serves : (simulation σ).Serves Eq where
  set {m m' name value} _ _ h := by
    obtain ⟨hb, hhost, hdraws⟩ := h
    refine ⟨?_, hhost, hdraws⟩
    show Bindings.set m'.bindings name _ = (Bindings.set m.bindings name value).erase
    rw [hb, erase_set]
  get {m m'} name _ h := by
    rw [h.1]
    exact m.bindings.get?_erase name
  size {m m'} _ h := by
    rw [h.1]
    exact (List.length_map _).symm
  nameOf _ := rfl

end

/-! ## Values through nodes -/

namespace Cells

variable {b : Cells} {r : CellRef}

/-- Every node of a name finds the value of this name. -/
theorem value?_of_current (hr : r.Current b) : Bindings.value? b r = Bindings.get? b r.name := by
  rw [get?_eq, hr]
  rfl

/-- An assignment through any node of a name is one to the name. -/
theorem get?_assign (hr : r.Current b) (v : Term CellRef) (y : String) :
    Bindings.get? (Bindings.assign b r v) y = if y = r.name then some v else Bindings.get? b y := by
  rw [get?_eq, get?_eq]
  show (b.cell? y).bind (b.assign r v).content = _
  rw [funext (content_assign (cell?_lt hr) v)]
  by_cases h : y = r.name
  · rw [if_pos h, h, hr]
    exact if_pos rfl
  · rw [if_neg h]
    cases hy : b.cell? y with
    | none => rfl
    | some c =>
      -- The cell of another name is another one.
      have apart : c ≠ r.cell := fun hc => h (cell?_injective (hy.trans (congrArg some hc)) hr)
      exact if_neg apart

theorem get?_register (b : Cells) (x y : String) :
    Bindings.get? (b.register x) y = Bindings.get? b y := by
  rw [get?_eq, get?_eq, cell?_register, funext (content_register b x)]
  cases b.cell? y with
  | some c => rfl
  | none =>
    split
    · exact b.content_length
    · rfl

theorem get?_set (b : Cells) (x : String) (v : Term CellRef) (y : String) :
    Bindings.get? (Bindings.set b x v) y = if y = x then some v else Bindings.get? b y := by
  have target : (Bindings.resolve (b.register x) x : CellRef).Current (b.register x) :=
    current_resolve (b.isSome_cell?_register x)
  rw [← get?_register b x y]
  exact get?_assign target v y

end Cells

/-! ## Sessions -/

/-- The result with its nodes replaced. -/
def Served.map {σ ν ν' : Type} (f : ν → ν') (served : Served σ ν) : Served σ ν' :=
  ⟨served.result.map (Reply.map f), served.host⟩

/-- The session on the plain store. -/
def Session.erase {σ : Type} (s : Session Cells σ CellRef) : Session Store σ String :=
  ⟨⟨s.machine.bindings.erase, s.machine.host, s.machine.draws⟩, mapSlots CellRef.name s.slots⟩

section
variable {σ : Type} {served : Served σ CellRef} {served' : Served σ String}

theorem Reply.Matches.eq_map {ν ν' : Type} {f : ν → ν'} {r : Reply ν} {r' : Reply ν'}
    (h : r.Matches f Eq r') : r' = r.map f := by
  cases r with
  | size n =>
    obtain ⟨_, rfl, rfl⟩ := h
    rfl
  | _ => exact h

theorem Served.Matches.eq_map (h : Served.Matches CellRef.name Eq served served') :
    served.map CellRef.name = served' := by
  obtain ⟨result, host⟩ := served
  obtain ⟨result', host'⟩ := served'
  obtain ⟨hresult, rfl⟩ := h
  match result, result', hresult with
  | .ok reply, .ok reply', hresult =>
    obtain rfl := Reply.Matches.eq_map hresult
    rfl
  | .error e, .error e', hresult =>
    obtain rfl : e' = e := hresult
    rfl

variable [Host σ] {s : Session Cells σ CellRef} {s' : Session Store σ String}

theorem Session.Related.eq_erase (h : Related (Cells.simulation σ) s s') : s' = s.erase := by
  obtain ⟨⟨bindings, host, draws⟩, slots⟩ := s'
  obtain ⟨⟨hb, hhost, hdraws⟩, hslots⟩ := h
  cases hb
  cases hhost
  cases hdraws
  cases hslots
  rfl

/-- Requests are answered alike with cells and without, and leave corresponding sessions. -/
theorem Session.serveAll?_erase (hs : s.Good (currency.onMachine σ)) (fuel : Nat)
    (steps : List (Request × Option String)) :
    s.erase.serveAll? fuel steps =
      (s.serveAll? fuel steps).map fun x => (x.1.map (Served.map CellRef.name), x.2.erase) := by
  have related : Related (Cells.simulation σ) s s.erase := ⟨⟨rfl, rfl, rfl⟩, rfl⟩
  have parallel := serveAll?_parallel (currency_serves σ) (Cells.serves σ) (fun h => h.2.1) hs
    related fuel steps
  match s.serveAll? fuel steps, s.erase.serveAll? fuel steps, parallel with
  | none, none, _ => rfl
  | some (served, last), some (served', last'), .some ⟨hserved, hlast⟩ =>
    have answers : served.map (Served.map CellRef.name) = served' := by
      rw [← List.forall₂_eq_eq_eq, List.forall₂_map_left_iff]
      exact hserved.imp fun _ _ h => h.eq_map
    obtain rfl : last' = last.erase := Session.Related.eq_erase hlast
    rw [Option.map_some, answers]

end

/-- No variable of a session is split: all nodes of a name hold one cell, and no other name has
it. -/
structure Session.Unsplit {σ : Type} [Host σ] (terms : List (Term CellRef))
    (s : Session Cells σ CellRef) : Prop where
  /-- The nodes in all terms that the session got hold of hold the cells that their names have. -/
  terms : ∀ t ∈ terms, t.Current s.machine.bindings
  slots : ∀ slot ∈ s.slots, slot.2.Current s.machine.bindings
  values : ∀ x t, Bindings.get? s.machine.bindings x = some t → t.Current s.machine.bindings
  /-- So do the nodes in all terms that are evaluated from here on, at any depth. -/
  evaluated : ∀ a : Activity CellRef, (∀ t ∈ a.terms, t.Current s.machine.bindings) →
    ∀ a' m', Reaches (a, s.machine) (a', m') → ∀ t ∈ a'.terms, t.Current m'.bindings
  distinct : ∀ x y c, s.machine.bindings.cell? x = some c → s.machine.bindings.cell? y = some c →
    x = y
  /-- Every node of a name finds the value of this name. -/
  read : ∀ r, CellRef.Current s.machine.bindings r →
    Bindings.value? s.machine.bindings r = Bindings.get? s.machine.bindings r.name
  /-- An assignment through any node of a name gives this name its value, and no other. -/
  assign : ∀ r v y, CellRef.Current s.machine.bindings r →
    Bindings.get? (Bindings.assign s.machine.bindings r v) y =
      if y = r.name then some v else Bindings.get? s.machine.bindings y
  set : ∀ x v y, Bindings.get? (Bindings.set s.machine.bindings x v) y =
    if y = x then some v else Bindings.get? s.machine.bindings y

theorem Session.Good.unsplit {σ : Type} [Host σ] {terms : List (Term CellRef)}
    {s : Session Cells σ CellRef} (hs : s.Good (currency.onMachine σ))
    (hterms : ∀ t ∈ terms, t.Current s.machine.bindings) : s.Unsplit terms where
  terms := hterms
  slots := hs.2
  values _ _ h := hs.1 _ _ h
  evaluated a ha a' m' hreach := by
    have good : a.Good (currency.onMachine σ) s.machine := ⟨ha, fun _ _ => trivial⟩
    exact (Activity.good_of_reaches hreach hs.1 good).2.2.1
  distinct _ _ _ := Cells.cell?_injective
  read _ := Cells.value?_of_current
  assign _ v y hr := Cells.get?_assign hr v y
  set x v y := Cells.get?_set _ x v y

/-- Every session on cells does the same as the session on a plain store: the same requests finish,
on the same host and with the same results but for the nodes, which hold names instead of cells, and
every name has the same value afterwards. In the session on cells, every node that was got hold of
at any time holds the cell of its name, however many sources were read since. -/
theorem Session.cells_refine_names {σ : Type} [Host σ] (host : σ) (draws : Draws) (fuel : Nat)
    (steps : List (Request × Option String)) :
    let s : Session Cells σ CellRef := ⟨⟨∅, host, draws⟩, []⟩
    let plain : Session Store σ String := ⟨⟨∅, host, draws⟩, []⟩
    plain.serveAll? fuel steps =
        (s.serveAll? fuel steps).map
          (fun x => (x.1.map (Served.map CellRef.name), x.2.erase)) ∧
      ∀ served s', s.serveAll? fuel steps = some (served, s') →
        (∀ x, Bindings.get? s'.erase.machine.bindings x =
          (Bindings.get? s'.machine.bindings x).map (Term.map CellRef.name)) ∧
        Bindings.size s'.erase.machine.bindings = Bindings.size s'.machine.bindings ∧
        s'.Unsplit (served.flatMap Served.terms) := by
  intro s plain
  have good : s.Good (currency.onMachine σ) := ⟨Cells.sound_empty, by simp [s]⟩
  refine ⟨serveAll?_erase good fuel steps, fun served s' h => ?_⟩
  obtain ⟨-, hs', hterms⟩ := serveAll?_keeps (currency_serves σ) good h
  refine ⟨s'.machine.bindings.get?_erase, List.length_map _, hs'.unsplit fun t ht => ?_⟩
  obtain ⟨answer, hanswer, ht⟩ := List.mem_flatMap.1 ht
  exact hterms answer hanswer t ht

end KnightLang
