/-
Two sessions side by side. If machines that go together still do after a variable was set to
corresponding values, and give corresponding values when asked for one, then the same requests with
corresponding terms in the slots are answered alike (`Request.perform_parallel`), and so is every
sequence of requests (`Session.serveAll?_parallel`).
-/
import KnightLang.Proofs.Machine.Parallel
import KnightLang.Proofs.Session.Kept
import Mathlib.Data.List.Forall2

namespace KnightLang

variable {β β' σ σ' ν ν' : Type} [Bindings β ν] [Bindings β' ν'] [Host σ] [Host σ']

/-! ## Replies and slots side by side -/

/-- The reply with the terms that replace its own. -/
def Reply.map (f : ν → ν') : Reply ν → Reply ν'
  | term t => term (t.map f)
  | order o => order o
  | flag b => flag b
  | number n => number n
  | text s => text s
  | description kind isLiteral dump display => description kind isLiteral dump display
  | done => done
  | value content => value (content.map (Term.map f))
  | size names => size names

/-- Replies go together that are the same but for their terms, which are replaced, and for numbers
of names, which are related by `sizes`. -/
def Reply.Matches (f : ν → ν') (sizes : Nat → Nat → Prop) (r : Reply ν) (r' : Reply ν') : Prop :=
  match r with
  | .size n => ∃ n', r' = .size n' ∧ sizes n n'
  | r => r' = r.map f

/-- Slots with the terms that replace their own. -/
def mapSlots (f : ν → ν') (slots : List (String × Term ν)) : List (String × Term ν') :=
  slots.map fun slot => (slot.1, slot.2.map f)

theorem lookup_map_values {α γ : Type} (g : α → γ) (entries : List (String × α)) (name : String) :
    (entries.map fun entry => (entry.1, g entry.2)).lookup name = (entries.lookup name).map g := by
  induction entries with
  | nil => rfl
  | cons entry entries ih =>
    rw [List.map_cons, List.lookup_cons, List.lookup_cons]
    cases name == entry.1 with
    | true => rfl
    | false => exact ih

theorem lookup_mapSlots (f : ν → ν') (slots : List (String × Term ν)) (name : String) :
    (mapSlots f slots).lookup name = (slots.lookup name).map (Term.map f) :=
  lookup_map_values (Term.map f) slots name

theorem Reply.Matches.terms {f : ν → ν'} {sizes : Nat → Nat → Prop} {r : Reply ν} {r' : Reply ν'}
    (h : r.Matches f sizes r') : r'.terms = r.terms.map (Term.map f) := by
  cases r with
  | size n =>
    obtain ⟨n', rfl, -⟩ := h
    rfl
  | value content =>
    obtain rfl := h
    cases content <;> rfl
  | _ =>
    obtain rfl := h
    rfl

/-! ## One request -/

variable {I : Invariant β σ ν} {f : ν → ν'}

/-- Machines that go together also do under requests. -/
structure Simulation.Serves (S : Simulation I f β' σ') (sizes : Nat → Nat → Prop) : Prop where
  set : ∀ {m m' name value}, I.holds m → I.good m value → S.relates m m' →
    S.relates (m.set name value) (m'.set name (value.map f))
  get : ∀ {m m'} name, I.holds m → S.relates m m' →
    Bindings.get? m'.bindings name = (Bindings.get? m.bindings name).map (Term.map f)
  size : ∀ {m m'}, I.holds m → S.relates m m' →
    sizes (Bindings.size m.bindings) (Bindings.size m'.bindings)
  nameOf : ∀ x, Bindings.nameOf β' (f x) = Bindings.nameOf β x

section
variable {S : Simulation I f β' σ'} {sizes : Nat → Nat → Prop} {m : Machine β σ}
  {m' : Machine β' σ'} {slots : List (String × Term ν)}

theorem Operand.resolve_parallel (hI : I.Serves) (hm : I.holds m) (hr : S.relates m m')
    (a : Operand) :
    ((a.resolve slots).run m).Parallel S (Term.map f) ((a.resolve (mapSlots f slots)).run m') := by
  cases a with
  | literal l => exact .pure rfl hr
  | slot name =>
    refine .pure ?_ hr
    rw [lookup_mapSlots]
    cases slots.lookup name <;> rfl
  | code source => exact S.perform hm hr (hI.load source hm)

variable (hI : I.Serves) (hS : S.Serves sizes)
include hI hS

/-- A request on machines that go together is answered alike. -/
theorem Request.perform_parallel (hm : I.holds m) (hslots : ∀ s ∈ slots, I.good m s.2)
    (hr : S.relates m m') (fuel : Nat) (request : Request) :
    ((request.perform fuel slots).run m).Matches S.relates (Reply.Matches f sizes)
      ((request.perform fuel (mapSlots f slots)).run m') := by
  -- An operand is resolved alike, and what follows finds a good term on good slots.
  have operand : ∀ (a : Operand) {m : Machine β σ} {m' : Machine β' σ'}
      {next : Term ν → EvalM (Machine β σ) (Reply ν)}
      {next' : Term ν' → EvalM (Machine β' σ') (Reply ν')},
      I.holds m → (∀ s ∈ slots, I.good m s.2) → S.relates m m' →
      (∀ t m₁ m₁', I.change m m₁ → I.holds m₁ → (∀ s ∈ slots, I.good m₁ s.2) → I.good m₁ t →
        S.relates m₁ m₁' → ((next t).run m₁).Matches S.relates (Reply.Matches f sizes)
          ((next' (t.map f)).run m₁')) →
      ((a.resolve slots >>= next).run m).Matches S.relates (Reply.Matches f sizes)
        ((a.resolve (mapSlots f slots) >>= next').run m') := by
    intro a m m' next next' hm hslots hr hnext
    refine Outcome.Parallel.bind (Operand.resolve_parallel hI hm hr a)
      (Operand.resolve_keeps hI hm hslots a) ?_
    intro t m₁ m₁' hc hm₁ ht hr₁
    exact hnext t m₁ m₁' hc hm₁ (fun s hs => I.good_change hc (hslots s hs)) ht hr₁
  -- An activity ends alike, and the reply only depends on its answer.
  have activity : ∀ (a : Activity ν) {m : Machine β σ} {m' : Machine β' σ'}
      {reply : a.Answer → Reply ν} {reply' : (a.map f).Answer → Reply ν'},
      I.holds m → a.Good I m → S.relates m m' →
      (∀ answer, (reply answer).Matches f sizes (reply' (a.mapAnswer f answer))) →
      ((a.within fuel >>= fun answer => pure (reply answer)).run m).Matches S.relates
        (Reply.Matches f sizes)
        (((a.map f).within fuel >>= fun answer => pure (reply' answer)).run m') := by
    intro a m m' reply reply' hm ha hr hreply
    refine Outcome.Parallel.bind (Activity.within_parallel fuel a m m' hm ha hr)
      (Activity.within_keeps fuel hm ha) ?_
    intro answer m₁ m₁' _ _ _ hr₁
    exact .pure (hreply answer) hr₁
  cases request with
  | run source =>
    exact activity (.run source) hm (Activity.good_run.2 (hI.load source hm)) hr fun _ => rfl
  | read source =>
    refine Outcome.Parallel.bind (S.perform hm hr (hI.load source hm))
      (Operation.keeps hm (hI.load source hm)) ?_
    intro t m₁ m₁' _ _ _ hr₁
    exact .pure rfl hr₁
  | evaluate a =>
    refine operand a hm hslots hr fun t m₁ m₁' _ hm₁ _ ht hr₁ => ?_
    exact activity (.evaluate t) hm₁ (Activity.good_evaluate.2 ht) hr₁ fun _ => rfl
  | operate op left right =>
    refine operand left hm hslots hr fun l m₁ m₁' _ hm₁ hslots₁ hl hr₁ => ?_
    refine operand right hm₁ hslots₁ hr₁ fun r m₂ m₂' hc₂ hm₂ _ hright hr₂ => ?_
    have good : (Activity.operate op l r).Good I m₂ :=
      Activity.good_operate.2 ⟨I.good_change hc₂ hl, hright⟩
    exact activity (.operate op l r) hm₂ good hr₂ fun _ => rfl
  | compare left right =>
    refine operand left hm hslots hr fun l m₁ m₁' _ hm₁ hslots₁ _ hr₁ => ?_
    refine operand right hm₁ hslots₁ hr₁ fun r m₂ m₂' _ _ _ _ hr₂ => ?_
    rw [Term.compare_map]
    cases l.compare r with
    | ok o => exact .pure rfl hr₂
    | error e => exact ⟨rfl, hr₂⟩
  | equal left right =>
    refine operand left hm hslots hr fun l m₁ m₁' _ hm₁ hslots₁ _ hr₁ => ?_
    refine operand right hm₁ hslots₁ hr₁ fun r m₂ m₂' _ _ _ _ hr₂ => ?_
    rw [Term.same_map]
    exact .pure rfl hr₂
  | truthy a =>
    refine operand a hm hslots hr fun t m₁ m₁' _ hm₁ _ ht hr₁ => ?_
    exact activity (.coerce .truth t) hm₁ (Activity.good_coerce.2 ht) hr₁ fun _ => rfl
  | toInt a =>
    refine operand a hm hslots hr fun t m₁ m₁' _ hm₁ _ ht hr₁ => ?_
    exact activity (.coerce .number t) hm₁ (Activity.good_coerce.2 ht) hr₁ fun _ => rfl
  | toText a =>
    refine operand a hm hslots hr fun t m₁ m₁' _ hm₁ _ ht hr₁ => ?_
    exact activity (.coerce .text t) hm₁ (Activity.good_coerce.2 ht) hr₁ fun _ => rfl
  | describe a =>
    refine operand a hm hslots hr fun t m₁ m₁' _ _ _ _ hr₁ => ?_
    refine .pure ?_ hr₁
    rw [Term.kind_map, Term.isLiteral_map, Term.dump_map f hS.nameOf, Term.display_map f hS.nameOf]
    rfl
  | set name value =>
    refine operand value hm hslots hr fun t m₁ m₁' _ hm₁ _ ht hr₁ => ?_
    exact .pure rfl (hS.set hm₁ ht hr₁)
  | get name => exact ⟨congrArg Reply.value (hS.get name hm hr), hr⟩
  | size => exact ⟨⟨_, rfl, hS.size hm hr⟩, hr⟩

end

/-! ## Sequences of requests -/

/-- Two requests ended alike, on the same host. -/
structure Served.Matches {σ : Type} (f : ν → ν') (sizes : Nat → Nat → Prop) (served : Served σ ν)
    (served' : Served σ ν') : Prop where
  result : match served.result, served'.result with
    | .ok reply, .ok reply' => reply.Matches f sizes reply'
    | .error h, .error h' => h' = h
    | _, _ => False
  host : served'.host = served.host

namespace Session

variable {I : Invariant β σ ν} {S : Simulation I f β' σ} {sizes : Nat → Nat → Prop}
  {s : Session β σ ν} {s' : Session β' σ ν'}

/-- Sessions on machines that go together, with corresponding terms in the slots. -/
structure Related (S : Simulation I f β' σ) (s : Session β σ ν) (s' : Session β' σ ν') : Prop where
  machine : S.relates s.machine s'.machine
  slots : s'.slots = mapSlots f s.slots

variable (hI : I.Serves) (hS : S.Serves sizes)
  (hhost : ∀ {m m'}, S.relates m m' → m'.host = m.host)
include hI hS hhost

/-- A request is answered alike in both sessions, or in none of them for want of fuel. -/
theorem serve?_parallel (hs : s.Good I) (hr : Related S s s') (fuel : Nat) (request : Request)
    (into : Option String) :
    Option.Rel (fun x x' => Served.Matches f sizes x.1 x'.1 ∧ Related S x.2 x'.2)
      (s.serve? fuel request into) (s'.serve? fuel request into) := by
  obtain ⟨hm, hslots⟩ := hs
  have parallel := Request.perform_parallel hI hS hm hslots hr.machine fuel request
  rw [← hr.slots] at parallel
  unfold serve?
  match (request.perform fuel s.slots).run s.machine,
    (request.perform fuel s'.slots).run s'.machine, parallel with
  | .value reply m, .value reply' m', ⟨hreply, hr'⟩ =>
    refine .some ⟨⟨hreply, hhost hr'⟩, hr', ?_⟩
    show _ = mapSlots f (_ ++ s.slots)
    rw [mapSlots, List.map_append, hr.slots, hreply.terms]
    refine congrArg (· ++ mapSlots f s.slots) ?_
    cases into with
    | none => rfl
    | some slot => simp [Function.comp_def]
  | .halted h m, .halted h' m', ⟨hh, hr'⟩ => exact .some ⟨⟨hh, hhost hr'⟩, hr', hr.slots⟩
  | .unfinished, .unfinished, _ => exact .none

/-- Requests are answered alike in both sessions, one after another. -/
theorem serveAll?_parallel (hs : s.Good I) (hr : Related S s s') (fuel : Nat)
    (steps : List (Request × Option String)) :
    Option.Rel (fun x x' => List.Forall₂ (Served.Matches f sizes) x.1 x'.1 ∧ Related S x.2 x'.2)
      (s.serveAll? fuel steps) (s'.serveAll? fuel steps) := by
  induction steps generalizing s s' with
  | nil => exact .some ⟨.nil, hr⟩
  | cons step steps ih =>
    have first := serve?_parallel hI hS hhost hs hr fuel step.1 step.2
    unfold serveAll?
    match hserve : s.serve? fuel step.1 step.2, s'.serve? fuel step.1 step.2, first with
    | none, none, _ => exact .none
    | some (served, s₁), some (served', s₁'), .some ⟨hserved, hr₁⟩ =>
      -- The rest starts in sessions that are related again.
      have rest := ih (serve?_keeps hI hs hserve).2.1 hr₁
      show Option.Rel _ ((s₁.serveAll? fuel steps).map _) ((s₁'.serveAll? fuel steps).map _)
      match s₁.serveAll? fuel steps, s₁'.serveAll? fuel steps, rest with
      | none, none, _ => exact .none
      | some _, some _, .some ⟨hlater, hlast⟩ => exact .some ⟨.cons hserved hlater, hlast⟩

end Session

end KnightLang
