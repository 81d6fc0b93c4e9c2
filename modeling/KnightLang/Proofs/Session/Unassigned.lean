/-
Names without a value. A source makes its names known before any of them has a value, even if it
turns out to be no program, and every name keeps the place in which it became known. None of this
can be noticed: sessions on stores that have the same value for every name give the same answers,
leave the same host and the same values behind, and only ever differ in the number of known names
(`Session.serveAll?_alike`).
-/
import KnightLang.Proofs.Session.Parallel

namespace KnightLang

/-! ## Stores with the same values -/

section
variable (σ : Type) [Host σ]

/-- The invariant that holds of everything. -/
def Invariant.anything : Invariant Store σ String where
  holds _ := True
  change _ _ := True
  good _ _ := True
  allows _ _ := True
  change_refl _ := trivial
  change_trans _ _ := trivial
  good_change _ _ := trivial
  good_lit _ _ := trivial
  good_arg _ _ := trivial
  allows_asked _ _ _ _ := trivial
  value _ _ _ := ⟨trivial, trivial, fun _ _ => trivial⟩
  halted _ _ _ := ⟨trivial, trivial⟩

theorem Invariant.anything_serves : (anything σ).Serves where
  load _ _ := trivial
  set _ _ := ⟨trivial, trivial⟩
  get _ _ := trivial

/-- Machines in the same world whose stores have the same value for every name. Either may know
names that the other does not. -/
abbrev Store.sameValues : Simulation (Invariant.anything σ) id Store σ :=
  .ofBindings (Agrees.parallel (V := Set.univ) fun _ _ _ => trivial)

/-- Of the numbers of known names nothing is claimed. -/
theorem Store.sameValues_serves : (sameValues σ).Serves fun _ _ => True where
  set {m m' name value} _ _ h := by
    obtain ⟨hb, hhost, hdraws⟩ := h
    refine ⟨?_, hhost, hdraws⟩
    show ((m.bindings.register name).assign name value).Agrees Set.univ
      ((m'.bindings.register name).assign name (value.map id))
    rw [Term.map_id]
    exact (hb.register name).assign name value
  get {m m'} name _ h := by
    show m'.bindings.value? name = (m.bindings.value? name).map (Term.map id)
    rw [h.1 name trivial, funext Term.map_id]
    exact Option.map_id'.symm
  size _ _ := trivial
  nameOf _ := rfl

end

/-! ## Terms replaced by themselves -/

section
variable {ν : Type}

theorem Reply.map_id (r : Reply ν) : r.map id = r := by
  cases r with
  | term t => exact congrArg Reply.term t.map_id
  | value content =>
    show Reply.value (content.map (Term.map id)) = _
    rw [funext Term.map_id]
    exact congrArg Reply.value Option.map_id'
  | _ => rfl

theorem mapSlots_id (slots : List (String × Term ν)) : mapSlots id slots = slots := by
  refine (List.map_congr_left fun slot _ => ?_).trans (List.map_id slots)
  rw [Term.map_id]
  rfl

theorem Reply.Matches.eq_or_size {sizes : Nat → Nat → Prop} {r r' : Reply ν}
    (h : r.Matches id sizes r') : r' = r ∨ ∃ n n', r = .size n ∧ r' = .size n' := by
  cases r with
  | size n =>
    obtain ⟨n', rfl, -⟩ := h
    exact .inr ⟨n, n', rfl, rfl⟩
  | _ => exact .inl (h.trans (Reply.map_id _))

end

/-! ## Requests for the number of names -/

section
variable {β σ ν : Type} [Bindings β ν] [Host σ]

/-- No other request is answered with a number of names. -/
theorem Request.eq_size_of_perform {fuel n : Nat} {slots : List (String × Term ν)}
    {request : Request} {m m' : Machine β σ}
    (h : (request.perform fuel slots).run m = .value (.size n) m') : request = .size := by
  have answers := answers_of_perform h
  cases request with
  | size => rfl
  | _ => exact answers.elim

theorem Session.serve?_ne_size {fuel n : Nat} {request : Request} {into : Option String}
    {served : Served σ ν} {s s' : Session β σ ν}
    (h : s.serve? fuel request into = some (served, s')) (hr : request ≠ .size) :
    served.result ≠ .ok (.size n) := by
  unfold serve? at h
  split at h
  · rename_i reply m hrun
    cases h
    intro hsize
    cases hsize
    exact hr (Request.eq_size_of_perform hrun)
  · cases h
    intro hsize
    cases hsize
  · cases h

theorem Session.serveAll?_ne_size {fuel : Nat} {steps : List (Request × Option String)}
    {served : List (Served σ ν)} {s s' : Session β σ ν}
    (h : s.serveAll? fuel steps = some (served, s')) (hr : ∀ step ∈ steps, step.1 ≠ .size) :
    ∀ x ∈ served, ∀ n, x.result ≠ .ok (.size n) := by
  induction steps generalizing s served with
  | nil =>
    cases h
    simp
  | cons step steps ih =>
    obtain ⟨⟨first, s₁⟩, hfirst, h⟩ := Option.bind_eq_some_iff.1 h
    obtain ⟨⟨rest, last⟩, hrest, h⟩ := Option.map_eq_some_iff.1 h
    cases h
    obtain ⟨hstep, hsteps⟩ := List.forall_mem_cons.1 hr
    exact List.forall_mem_cons.2
      ⟨fun n => serve?_ne_size hfirst hstep, ih hrest hsteps⟩

end

/-! ## Sessions -/

section
variable {σ : Type} [Host σ]

/-- Two requests ended on the same host and with the same result, or with any two numbers of known
names. -/
structure Served.Alike (served served' : Served σ String) : Prop where
  host : served'.host = served.host
  result : served'.result = served.result ∨
    ∃ n n', served.result = .ok (.size n) ∧ served'.result = .ok (.size n')

/-- Two sessions have the same terms in their slots, the same host and the same draws, and every
name has the same value in both. -/
structure Session.Alike (s s' : Session Store σ String) : Prop where
  get : ∀ x, Bindings.get? s'.machine.bindings x = Bindings.get? s.machine.bindings x
  slots : s'.slots = s.slots
  host : s'.machine.host = s.machine.host
  draws : s'.machine.draws = s.machine.draws

omit [Host σ] in
theorem Served.Matches.alike {sizes : Nat → Nat → Prop} {served served' : Served σ String}
    (h : Served.Matches id sizes served served') : served.Alike served' := by
  obtain ⟨hresult, hhost⟩ := h
  refine ⟨hhost, ?_⟩
  split at hresult
  · rename_i reply reply' hr hr'
    rw [hr, hr']
    rcases hresult.eq_or_size with rfl | ⟨n, n', rfl, rfl⟩
    · exact .inl rfl
    · exact .inr ⟨n, n', rfl, rfl⟩
  · rename_i e e' he he'
    rw [he, he', hresult]
    exact .inl rfl
  · exact hresult.elim

variable {s s' : Session Store σ String}

theorem Session.Alike.related (h : s.Alike s') : Related (Store.sameValues σ) s s' :=
  ⟨⟨fun x _ => h.get x, h.host, h.draws⟩, by rw [mapSlots_id, h.slots]⟩

theorem Session.Related.alike (h : Related (Store.sameValues σ) s s') : s.Alike s' :=
  ⟨fun x => h.machine.1 x trivial, by rw [h.slots, mapSlots_id], h.machine.2.1, h.machine.2.2⟩

omit [Host σ] in
/-- Without numbers of names, alike is the same. -/
theorem Served.eq_of_alike {xs xs' : List (Served σ String)} (h : List.Forall₂ Alike xs xs')
    (hsize : ∀ x ∈ xs, ∀ n, x.result ≠ .ok (.size n)) : xs' = xs := by
  induction h with
  | nil => rfl
  | @cons x x' xs xs' hx _ ih =>
    obtain ⟨hfirst, hrest⟩ := List.forall_mem_cons.1 hsize
    obtain ⟨hhost, hresult | ⟨n, _, hn, _⟩⟩ := hx
    · obtain ⟨result, host⟩ := x
      obtain ⟨result', host'⟩ := x'
      obtain rfl : host' = host := hhost
      obtain rfl : result' = result := hresult
      rw [ih hrest]
    · exact absurd hn (hfirst n)

/-- Sessions that are alike stay so under any requests, whatever the fuel. Both go on for as long,
each request ends on the same host and with the same result in both, and only numbers of known names
may differ, which only a request for them is answered with. -/
theorem Session.serveAll?_alike (h : s.Alike s') (fuel : Nat)
    (steps : List (Request × Option String)) :
    Option.Rel (fun x x' => List.Forall₂ Served.Alike x.1 x'.1 ∧ x.2.Alike x'.2 ∧
        ((∀ step ∈ steps, step.1 ≠ .size) → x'.1 = x.1))
      (s.serveAll? fuel steps) (s'.serveAll? fuel steps) := by
  have parallel := serveAll?_parallel (Invariant.anything_serves σ) (Store.sameValues_serves σ)
    (fun hr => hr.2.1) (s := s) ⟨trivial, fun _ _ => trivial⟩ h.related fuel steps
  match hs : s.serveAll? fuel steps, s'.serveAll? fuel steps, parallel with
  | none, none, _ => exact .none
  | some x, some x', .some ⟨hserved, hlast⟩ =>
    have alike : List.Forall₂ Served.Alike x.1 x'.1 := hserved.imp fun _ _ hx => hx.alike
    refine .some ⟨alike, hlast.alike, fun hsteps => ?_⟩
    exact Served.eq_of_alike alike (serveAll?_ne_size hs hsteps)

/-- A session that knows `x` without a value only differs from a fresh one in how many names it
knows. -/
theorem Session.registered_alike :
    let s : Session Store Scripted String := ⟨⟨∅, {}, Draws.seeded 0⟩, []⟩
    let s' : Session Store Scripted String := ⟨⟨Store.register ∅ "x", {}, Draws.seeded 0⟩, []⟩
    let steps : List (Request × Option String) :=
      [(.set "y" (.literal (.number 1)), none), (.get "y", some "kept"), (.get "x", none),
        (.evaluate (.slot "kept"), none), (.size, none)]
    s.Alike s' ∧ ∃ x x', s.serveAll? 1 steps = some x ∧ s'.serveAll? 1 steps = some x' ∧
      List.Forall₂ Served.Alike x.1 x'.1 ∧ x.2.Alike x'.2 := by
  intro s s' steps
  have alike : s.Alike s' :=
    ⟨fun y => Store.value?_register ∅ "x" y, rfl, rfl, rfl⟩
  refine ⟨alike, ?_⟩
  have related := Session.serveAll?_alike alike 1 steps
  have finished : (s.serveAll? 1 steps).isSome = true := by decide +kernel
  match hs : s.serveAll? 1 steps, hs' : s'.serveAll? 1 steps, related with
  | some x, some x', .some ⟨hserved, hlast, _⟩ => exact ⟨x, x', rfl, rfl, hserved, hlast⟩
  | none, none, _ =>
    rw [hs] at finished
    cases finished

end

end KnightLang
