/-
What sessions keep. Besides evaluating terms, a request may read a source, give a variable a value
and ask for one. If an invariant of evaluation respects these too, every request on good terms keeps
it and is answered with good terms (`Request.perform_keeps`), and so does any sequence of requests,
each of which may use the terms in the replies to earlier ones (`Session.serveAll?_keeps`).
-/
import KnightLang.Proofs.Machine.Kept
import KnightLang.Session

namespace KnightLang

variable {β σ ν : Type} [Bindings β ν] [Host σ]

/-! ## One request -/

/-- The machine with the variable of a name set to a value. -/
def Machine.set (m : Machine β σ) (name : String) (value : Term ν) : Machine β σ :=
  { m with bindings := Bindings.set m.bindings name value }

/-- The terms in a reply. -/
def Reply.terms {ν : Type} : Reply ν → List (Term ν)
  | term t => [t]
  | value content => content.toList
  | _ => []

/-- An invariant that requests respect: sources may be read, good terms may be given to variables,
and variables hold good terms. -/
structure Invariant.Serves (I : Invariant β σ ν) : Prop where
  load : ∀ {m} source, I.holds m → I.allows m (.load source)
  set : ∀ {m name value}, I.holds m → I.good m value →
    I.change m (m.set name value) ∧ I.holds (m.set name value)
  get : ∀ {m name value}, I.holds m → Bindings.get? m.bindings name = some value → I.good m value

section
variable {I : Invariant β σ ν} {m : Machine β σ} {slots : List (String × Term ν)}
  (hI : I.Serves)
include hI

/-- Whatever the operand of a request is, it stands for a good term. -/
theorem Operand.resolve_keeps (hm : I.holds m) (hslots : ∀ s ∈ slots, I.good m s.2) (a : Operand) :
    ((a.resolve slots).run m).Keeps I I.good m := by
  cases a with
  | literal l => exact Outcome.keeps_pure hm (I.good_lit l hm)
  | slot name =>
    refine Outcome.keeps_pure hm ?_
    cases h : slots.lookup name with
    | none => exact I.good_lit _ hm
    | some t =>
      obtain ⟨before, after, rfl, -⟩ := List.lookup_eq_some_iff.1 h
      exact hslots (name, t) (by simp)
  | code source =>
    refine (Operation.keeps hm (hI.load source hm)).imp fun m' t ht => ?_
    exact ht t (List.mem_singleton.2 rfl)

/-- A request on good terms keeps the invariant, and is answered with good terms. -/
theorem Request.perform_keeps (hm : I.holds m) (hslots : ∀ s ∈ slots, I.good m s.2) (fuel : Nat)
    (request : Request) :
    ((request.perform fuel slots).run m).Keeps I
      (fun m' reply => ∀ t ∈ reply.terms, I.good m' t) m := by
  have second : ∀ {m' : Machine β σ}, I.change m m' → I.holds m' → ∀ a : Operand,
      ((a.resolve slots).run m').Keeps I I.good m' :=
    fun hc hm' a => Operand.resolve_keeps hI hm' (fun s hs => I.good_change hc (hslots s hs)) a
  have first := second (I.change_refl m) hm
  -- The three coercions differ in what they want and in how they answer.
  have coerced : ∀ (a : Operand) (w : Want) (reply : w.Answer → Reply ν),
      (∀ answer, (reply answer).terms = []) →
      (EvalM.run (do
        let t ← a.resolve slots
        let answer ← coerce w.read (Term.eval fuel) fuel t
        pure (reply answer)) m).Keeps I (fun m' reply => ∀ t ∈ reply.terms, I.good m' t) m := by
    intro a w reply hreply
    refine (first a).bind fun t m₁ _ hm₁ ht => ?_
    have good : (Activity.coerce w t).Good I m₁ := Activity.good_coerce.2 ht
    refine (Activity.within_keeps fuel hm₁ good).bind fun answer m' _ hm' _ => ?_
    exact Outcome.keeps_pure hm' (by simp [hreply])
  cases request with
  | run source =>
    have good : (Activity.run source).Good I m := Activity.good_run.2 (hI.load source hm)
    refine (Activity.within_keeps fuel hm good).bind fun value m' _ hm' hv => ?_
    exact Outcome.keeps_pure hm' hv
  | read source =>
    refine (Operation.keeps hm (hI.load source hm)).bind fun t m' _ hm' ht => ?_
    exact Outcome.keeps_pure hm' ht
  | evaluate a =>
    refine (first a).bind fun t m₁ _ hm₁ ht => ?_
    have good : (Activity.evaluate t).Good I m₁ := Activity.good_evaluate.2 ht
    refine (Activity.within_keeps fuel hm₁ good).bind fun value m' _ hm' hv => ?_
    exact Outcome.keeps_pure hm' hv
  | operate op left right =>
    refine (first left).bind fun l m₁ hc₁ hm₁ hl => ?_
    refine (second hc₁ hm₁ right).bind fun r m₂ hc₂ hm₂ hr => ?_
    have good : (Activity.operate op l r).Good I m₂ :=
      Activity.good_operate.2 ⟨I.good_change hc₂ hl, hr⟩
    refine (Activity.within_keeps fuel hm₂ good).bind fun value m' _ hm' _ => ?_
    refine Outcome.keeps_pure hm' fun t ht => ?_
    rw [List.mem_singleton.1 ht]
    exact I.good_lit value hm'
  | compare left right =>
    refine (first left).bind fun l m₁ hc₁ hm₁ _ => ?_
    refine (second hc₁ hm₁ right).bind fun r m₂ _ hm₂ _ => ?_
    cases l.compare r with
    | ok order => exact Outcome.keeps_pure hm₂ (by simp [Reply.terms])
    | error f => exact ⟨I.change_refl m₂, hm₂⟩
  | equal left right =>
    refine (first left).bind fun l m₁ hc₁ hm₁ _ => ?_
    refine (second hc₁ hm₁ right).bind fun r m₂ _ hm₂ _ => ?_
    exact Outcome.keeps_pure hm₂ (by simp [Reply.terms])
  | truthy a => exact coerced a .truth .flag fun _ => rfl
  | toInt a => exact coerced a .number .number fun _ => rfl
  | toText a => exact coerced a .text .text fun _ => rfl
  | describe a =>
    refine (first a).bind fun t m₁ _ hm₁ _ => ?_
    exact Outcome.keeps_pure hm₁ (by simp [Reply.terms])
  | set name value =>
    refine (first value).bind fun t m₁ _ hm₁ ht => ?_
    obtain ⟨hc, hset⟩ : I.change m₁ (m₁.set name t) ∧ I.holds (m₁.set name t) := hI.set hm₁ ht
    exact ⟨hc, hset, by simp [Reply.terms]⟩
  | get name =>
    exact ⟨I.change_refl m, hm, fun t ht => hI.get hm (Option.mem_toList.1 ht)⟩
  | size => exact ⟨I.change_refl m, hm, by simp [Reply.terms]⟩

end

/-! ## Kinds of replies -/

/-- The reply is of the kind that answers the request. -/
def Reply.Answers {ν : Type} : Reply ν → Request → Prop
  | term _, .run _ | term _, .read _ | term _, .evaluate _ | term _, .operate .. => True
  | order _, .compare .. => True
  | flag _, .equal .. | flag _, .truthy _ => True
  | number _, .toInt _ => True
  | text _, .toText _ => True
  | description .., .describe _ => True
  | done, .set .. => True
  | value _, .get _ => True
  | size _, .size => True
  | _, _ => False

open EvalM in
theorem Request.answers_of_perform {fuel : Nat} {slots : List (String × Term ν)} {request : Request}
    {reply : Reply ν} {m m' : Machine β σ}
    (h : (request.perform fuel slots).run m = .value reply m') : reply.Answers request := by
  cases request with
  | size | get =>
    cases h
    trivial
  | run | read | describe | set =>
    obtain ⟨_, _, _, h⟩ := run_bind_value h
    cases h
    trivial
  | evaluate | truthy | toInt | toText | equal =>
    obtain ⟨_, _, _, h⟩ := run_bind_value h
    obtain ⟨_, _, _, h⟩ := run_bind_value h
    cases h
    trivial
  | operate | compare =>
    obtain ⟨_, _, _, h⟩ := run_bind_value h
    obtain ⟨_, _, _, h⟩ := run_bind_value h
    obtain ⟨_, _, _, h⟩ := run_bind_value h
    cases h
    trivial

/-! ## Sequences of requests -/

/-- The result of a request, and the host after it. -/
structure Served (σ ν : Type) where
  result : Except Halt (Reply ν)
  host : σ

/-- The terms that a request was answered with. -/
def Served.terms {σ ν : Type} (served : Served σ ν) : List (Term ν) :=
  match served.result with
  | .ok reply => reply.terms
  | .error _ => []

namespace Session

/-- What a request comes to, and the session after it, if the fuel lasts. The terms that it was
answered with are kept in the slot `into`. -/
def serve? (fuel : Nat) (request : Request) (into : Option String) (s : Session β σ ν) :
    Option (Served σ ν × Session β σ ν) :=
  match (request.perform fuel s.slots).run s.machine with
  | .value reply m =>
    let kept := into.toList.flatMap fun slot => reply.terms.map (slot, ·)
    some (⟨.ok reply, m.host⟩, ⟨m, kept ++ s.slots⟩)
  | .halted h m => some (⟨.error h, m.host⟩, ⟨m, s.slots⟩)
  | .unfinished => none

/-- What requests come to one after another, and the session after them, if the fuel lasts for
each. -/
def serveAll? (fuel : Nat) :
    List (Request × Option String) → Session β σ ν → Option (List (Served σ ν) × Session β σ ν)
  | [], s => some ([], s)
  | (request, into) :: steps, s =>
    (s.serve? fuel request into).bind fun (served, s) =>
    (s.serveAll? fuel steps).map fun (rest, s) => (served :: rest, s)

/-- Sessions that hand over what was written since the last request are such sessions. A value that
is asked for is kept in no slot there. -/
theorem next?_eq {s : Session β (Limited Scripted) ν} {fuel : Nat} {request : Request}
    {into : Option String} (h : into = none ∨ ∀ name, request ≠ .get name) :
    s.next? fuel request into = (s.serve? fuel request into).map fun x =>
      let (output, machine) := takeOutput x.2.machine
      (⟨x.1.result, output⟩, ⟨machine, x.2.slots⟩) := by
  unfold next? serve?
  cases hrun : (request.perform fuel s.slots).run s.machine with
  | unfinished => rfl
  | halted => rfl
  | value reply m =>
    have kept : (into.bind fun slot => reply.term?.map (slot, ·)).toList =
        into.toList.flatMap fun slot => reply.terms.map (slot, ·) := by
      rcases h with rfl | h
      · rfl
      · have answers := Request.answers_of_perform hrun
        cases into with
        | none => rfl
        | some slot =>
          cases reply with
          | value content =>
            cases request with
            | get name => exact absurd rfl (h name)
            | _ => exact answers.elim
          | _ => rfl
    dsimp only
    rw [kept]
    rfl

/-- A session on a machine that an invariant holds of, with good terms in its slots. -/
def Good (I : Invariant β σ ν) (s : Session β σ ν) : Prop :=
  I.holds s.machine ∧ ∀ slot ∈ s.slots, I.good s.machine slot.2

variable {I : Invariant β σ ν} {s s' : Session β σ ν} {fuel : Nat} (hI : I.Serves)
include hI

theorem serve?_keeps {request : Request} {into : Option String} {served : Served σ ν}
    (hs : s.Good I) (h : s.serve? fuel request into = some (served, s')) :
    I.change s.machine s'.machine ∧ s'.Good I ∧ ∀ t ∈ served.terms, I.good s'.machine t := by
  obtain ⟨hm, hslots⟩ := hs
  have keeps := Request.perform_keeps hI hm hslots fuel request
  unfold serve? at h
  split at h
  · rename_i reply m hrun
    rw [hrun] at keeps
    obtain ⟨hc, hm', hreply⟩ := keeps
    cases h
    refine ⟨hc, ⟨hm', fun slot hslot => ?_⟩, hreply⟩
    rcases List.mem_append.1 hslot with hk | hk
    · obtain ⟨name, -, hk⟩ := List.mem_flatMap.1 hk
      obtain ⟨t, ht, rfl⟩ := List.mem_map.1 hk
      exact hreply t ht
    · exact I.good_change hc (hslots slot hk)
  · rename_i h₀ m hrun
    rw [hrun] at keeps
    obtain ⟨hc, hm'⟩ := keeps
    cases h
    refine ⟨hc, ⟨hm', fun slot hslot => I.good_change hc (hslots slot hslot)⟩, ?_⟩
    intro t ht
    cases ht
  · cases h

/-- Requests, whatever they are and however they end, keep the invariant, and all terms that they
were answered with are good at the end. -/
theorem serveAll?_keeps {steps : List (Request × Option String)} {served : List (Served σ ν)}
    (hs : s.Good I) (h : s.serveAll? fuel steps = some (served, s')) :
    I.change s.machine s'.machine ∧ s'.Good I ∧
      ∀ x ∈ served, ∀ t ∈ x.terms, I.good s'.machine t := by
  induction steps generalizing s served with
  | nil =>
    cases h
    exact ⟨I.change_refl _, hs, by simp⟩
  | cons step steps ih =>
    obtain ⟨⟨first, s₁⟩, hfirst, h⟩ := Option.bind_eq_some_iff.1 h
    obtain ⟨⟨rest, last⟩, hrest, h⟩ := Option.map_eq_some_iff.1 h
    cases h
    obtain ⟨hc₁, hs₁, hterms⟩ := serve?_keeps hI hs hfirst
    obtain ⟨hc₂, hs₂, hlater⟩ := ih hs₁ hrest
    refine ⟨I.change_trans hc₁ hc₂, hs₂, fun x hx t ht => ?_⟩
    rcases List.mem_cons.1 hx with rfl | hx
    · exact I.good_change hc₂ (hterms t ht)
    · exact hlater x hx t ht

end Session

end KnightLang
