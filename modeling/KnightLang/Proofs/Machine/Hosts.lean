/-
The same work on two hosts. If two hosts answer every call alike, except for commands that are never
run, an activity comes to the same value or the same halt on both of them, or ends on neither
(`Activity.within_mirrored`). Which commands are run, at any depth, is told by the first host
(`Activity.Issues`); nothing is asked of the others.
-/
import KnightLang.Proofs.Machine.Parallel

namespace KnightLang

open EvalM

/-! ## Hosts that answer alike -/

section
variable {β σ σ' : Type} [Host σ] [Host σ'] {R : σ → σ' → Prop} {P : String → Prop}

/-- Hosts that are related by `R` give the same answers and stay related, as long as no command is
run but those in `P`. -/
structure Host.Mirrors (R : σ → σ' → Prop) (P : String → Prop) : Prop where
  readLine : ∀ {h h'}, R h h' → (Host.readLine h').1 = (Host.readLine h).1 ∧
    R (Host.readLine h).2 (Host.readLine h').2
  write : ∀ {h h'} text, R h h' → (Host.write text h').1 = (Host.write text h).1 ∧
    R (Host.write text h).2 (Host.write text h').2
  shell : ∀ {h h' command}, P command → R h h' →
    (Host.shell command h').1 = (Host.shell command h).1 ∧
      R (Host.shell command h).2 (Host.shell command h').2

/-- Machines with the same variables and draws on related hosts. -/
structure Machine.OnHosts (R : σ → σ' → Prop) (m : Machine β σ) (m' : Machine β σ') : Prop where
  bindings : m'.bindings = m.bindings
  draws : m'.draws = m.draws
  host : R m.host m'.host

/-- Two runs end with the same value or the same halt on such machines, or neither of them ends. -/
abbrev Outcome.Mirrored {α : Type} (R : σ → σ' → Prop) :
    Outcome (Machine β σ) α → Outcome (Machine β σ') α → Prop :=
  Outcome.Matches (Machine.OnHosts R) fun a a' => a' = a

omit [Host σ] [Host σ'] in
theorem Machine.answer_mirrored {α : Type} (bindings : β) (draws : Draws)
    {r : Except String α × σ} {r' : Except String α × σ'} (h : r'.1 = r.1 ∧ R r.2 r'.2) :
    (Machine.answer bindings draws r).Mirrored R (Machine.answer bindings draws r') := by
  obtain ⟨result, host⟩ := r
  obtain ⟨result', host'⟩ := r'
  obtain ⟨rfl, hhost⟩ := h
  cases result' <;> exact ⟨rfl, rfl, rfl, hhost⟩

omit [Host σ] [Host σ'] in
theorem Outcome.Mirrored.unfinished_iff {α : Type} {out : Outcome (Machine β σ) α}
    {out' : Outcome (Machine β σ') α} (h : out.Mirrored R out') :
    out' = .unfinished ↔ out = .unfinished := by
  match out, out', h with
  | .value _ _, .value _ _, _ => simp
  | .halted _ _, .halted _ _, _ => simp
  | .unfinished, .unfinished, _ => simp

variable {ν : Type} [Bindings β ν] {m : Machine β σ} {m' : Machine β σ'}

/-- The machines answer each operation alike, if it runs no other command. -/
theorem Operation.mirrored (hR : Host.Mirrors R P) (o : Operation ν)
    (ho : ∀ command, o = .shell command → P command) (hm : m.OnHosts R m') :
    (o.perform.run m).Mirrored R (o.perform.run m') := by
  obtain ⟨bindings, host, draws⟩ := m
  obtain ⟨bindings', host', draws'⟩ := m'
  obtain ⟨hbindings, hdraws, hhost⟩ := hm
  cases hbindings
  cases hdraws
  cases o with
  | lookup x =>
    simp only [perform]
    rw [Machine.run_lookup, Machine.run_lookup]
    cases Bindings.value? bindings x <;> exact ⟨rfl, rfl, rfl, hhost⟩
  | load source =>
    simp only [perform]
    rw [Machine.run_load, Machine.run_load]
    dsimp only
    cases (parse source).result <;> exact ⟨rfl, rfl, rfl, hhost⟩
  | assign | draw => exact ⟨rfl, rfl, rfl, hhost⟩
  | readLine => exact Machine.answer_mirrored _ _ (hR.readLine hhost)
  | write text => exact Machine.answer_mirrored _ _ (hR.write text hhost)
  | dump value => exact Machine.answer_mirrored _ _ (hR.write _ hhost)
  | shell command => exact Machine.answer_mirrored _ _ (hR.shell (ho command rfl) hhost)

end

/-! ## Work on both hosts -/

section
variable {β σ σ' ν α : Type} [Bindings β ν] [Host σ] [Host σ'] {R : σ → σ' → Prop}
  {P : String → Prop} {m : Machine β σ} {m' : Machine β σ'}

/-- An activity, or one that it performs at some depth, asks for a command to be run. -/
def Activity.Issues (a : Activity ν) (m : Machine β σ) (command : String) : Prop :=
  ∃ a' m₁ next m₂, Reaches (a, m) (a', m₁) ∧ a'.plan.ComesTo m₁ (.ask (.shell command) next) m₂

/-- What is left of a plan ends alike on both hosts if the activities do that it waits for. -/
theorem Plan.follow_mirrored (hR : Host.Mirrors R P) {n : Nat} {plan rest : Plan ν α}
    {m₁ : Machine β σ} {m₁' : Machine β σ'} (hrest : plan.ComesTo m rest m₁)
    (hasks : ∀ command next m₂, plan.ComesTo m (.ask (.shell command) next) m₂ → P command)
    (hawaits : ∀ (a : Activity ν) m₂ m₂', plan.Starts m a m₂ → m₂.OnHosts R m₂' →
      ((a.perform n).run m₂).Mirrored R ((a.perform n).run m₂'))
    (hm : m₁.OnHosts R m₁') :
    ((rest.follow (Activity.perform n)).run m₁).Mirrored R
      ((rest.follow (Activity.perform n)).run m₁') := by
  induction rest generalizing m₁ m₁' with
  | done a => exact ⟨rfl, hm⟩
  | halt h => exact ⟨rfl, hm⟩
  | ask o next ih =>
    have asked : ∀ command, o = .shell command → P command := by
      rintro command rfl
      exact hasks command next m₁ hrest
    refine Outcome.Matches.bind (o.mirrored hR asked hm) ?_
    rintro answer _ m₂ m₂' answered rfl hm₂
    exact ih _ (hrest.trans (.asked answered (.here _ _))) hm₂
  | await a next ih =>
    refine Outcome.Matches.bind (hawaits a m₁ m₁' ⟨next, hrest⟩ hm) ?_
    rintro answer _ m₂ m₂' hrun rfl hm₂
    have yields := Activity.yields_iff_perform.2 ⟨n, hrun⟩
    exact ih _ (hrest.trans (.awaited yields (.here _ _))) hm₂

/-- An activity ends alike on both hosts, at whatever depth it is cut off. -/
theorem Activity.perform_mirrored (hR : Host.Mirrors R P) {a : Activity ν}
    (hP : ∀ command, a.Issues m command → P command) (hm : m.OnHosts R m') (n : Nat) :
    ((a.perform n).run m).Mirrored R ((a.perform n).run m') := by
  induction n generalizing a m m' with
  | zero => trivial
  | succ n ih =>
    refine Plan.follow_mirrored hR (.here _ _) ?_ ?_ hm
    · exact fun command next m₂ hc => hP command ⟨a, m, next, m₂, .refl, hc⟩
    · intro a' m₂ m₂' hstart hm₂
      have first : Performs (a, m) (a', m₂) := hstart
      refine ih (fun command => ?_) hm₂
      rintro ⟨b, m₃, next, m₄, hreach, hc⟩
      exact hP command ⟨b, m₃, next, m₄, hreach.head first, hc⟩

/-- Each outcome that there is on one of the hosts has its counterpart on the other one. -/
theorem Activity.within_mirrored (hR : Host.Mirrors R P) {a : Activity ν}
    (hP : ∀ command, a.Issues m command → P command) (hm : m.OnHosts R m') :
    (∀ out, out ≠ .unfinished → (∃ n, (a.within n).run m = out) →
        ∃ out', out.Mirrored R out' ∧ ∃ n, (a.within n).run m' = out') ∧
      ∀ out', out' ≠ .unfinished → (∃ n, (a.within n).run m' = out') →
        ∃ out, out.Mirrored R out' ∧ ∃ n, (a.within n).run m = out := by
  have both := perform_mirrored hR hP hm
  constructor
  · intro out hout h
    obtain ⟨n, rfl⟩ := (within_iff_perform hout).1 h
    have hout' := mt (both n).unfinished_iff.1 hout
    exact ⟨_, both n, (within_iff_perform hout').2 ⟨n, rfl⟩⟩
  · intro out' hout' h
    obtain ⟨n, rfl⟩ := (within_iff_perform hout').1 h
    have hout := mt (both n).unfinished_iff.2 hout'
    exact ⟨_, both n, (within_iff_perform hout).2 ⟨n, rfl⟩⟩

end

end KnightLang
