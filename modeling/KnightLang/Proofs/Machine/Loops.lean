/-
What a loop means. A round tests the condition, finds it true and runs the body; a loop that ends is
some number of rounds, one after another, and then a last test, which comes to false or halts, or is
followed by a body that halts (`Activity.RollsOut`). To count tests and starts of the body,
activities are traced: `Plan.Traces` lists what a plan waits for in the order of time, where going
on with a loop is no wait of its own. The trace shows the loop as it is rolled out, so there is one
way to do that (`Activity.loop_rolls_out`).
-/
import KnightLang.Proofs.Machine.Calls
import KnightLang.Proofs.Machine.Forcing

namespace KnightLang

open EvalM

variable {β σ ν α : Type} [Bindings β ν] [Host σ]

/-! ## Ends of activities -/

namespace Activity

variable {a : Activity ν} {m m' : Machine β σ} {out out' : Outcome (Machine β σ) a.Answer}

theorem ends_iff_runs : a.Ends m out ↔ ∃ calls, a.Runs m calls out := runs_iff_within.symm

theorem ends_value_iff {answer : a.Answer} :
    a.Ends m (.value answer m') ↔ a.Yields m answer m' := by
  simp [Ends, Yields]

theorem ends_halted_iff {h : Halt} : a.Ends m (.halted h m') ↔ a.Halts m h m' := by
  simp [Ends, Halts]

/-- An activity comes to one outcome at most. -/
theorem Ends.unique (h : a.Ends m out) (h' : a.Ends m out') : out' = out := by
  obtain ⟨_, hruns⟩ := ends_iff_runs.1 h
  obtain ⟨_, hruns'⟩ := ends_iff_runs.1 h'
  exact (Plan.Follows.unique hruns hruns').2

end Activity

theorem Outcome.map_id {μ α : Type} (out : Outcome μ α) : out.map id = out := by
  cases out <;> rfl

/-! ## Traces -/

/-- Whether an activity goes on with a loop. -/
def Activity.isLoop : Activity ν → Bool
  | loop .. => true
  | _ => false

/-- Whether an activity tests a condition. -/
def Activity.isTest : Activity ν → Bool
  | coerce .truth _ => true
  | _ => false

/-- A plan, followed from a machine, waits for these activities one after another, each on the
machine as it is by then, and comes to this outcome. A loop does not count itself, but in its place
stands what it waits for. -/
inductive Plan.Traces : {α : Type} → Plan ν α → Machine β σ → List (Activity ν × Machine β σ) →
    Outcome (Machine β σ) α → Prop
  | done {α : Type} (a : α) (m : Machine β σ) : Traces (.done a) m [] (.value a m)
  | halt {α : Type} (h : Halt) (m : Machine β σ) : Traces (α := α) (.halt h) m [] (.halted h m)
  | asked {α : Type} {o : Operation ν} {next : o.Answer → Plan ν α} {answer : o.Answer}
      {m m₁ : Machine β σ} {later : List (Activity ν × Machine β σ)}
      {out : Outcome (Machine β σ) α} (answered : o.perform.run m = .value answer m₁)
      (rest : Traces (next answer) m₁ later out) : Traces (.ask o next) m later out
  | refused {α : Type} {o : Operation ν} {next : o.Answer → Plan ν α} {h : Halt}
      {m m₁ : Machine β σ} (halted : o.perform.run m = .halted h m₁) :
      Traces (.ask o next) m [] (.halted h m₁)
  | awaited {α : Type} {a : Activity ν} {next : a.Answer → Plan ν α} {answer : a.Answer}
      {m m₁ : Machine β σ} {later : List (Activity ν × Machine β σ)}
      {out : Outcome (Machine β σ) α} (single : a.isLoop = false) (yields : a.Yields m answer m₁)
      (rest : Traces (next answer) m₁ later out) : Traces (.await a next) m ((a, m) :: later) out
  | broken {α : Type} {a : Activity ν} {next : a.Answer → Plan ν α} {h : Halt}
      {m m₁ : Machine β σ} (single : a.isLoop = false) (halts : a.Halts m h m₁) :
      Traces (.await a next) m [(a, m)] (.halted h m₁)
  /-- A loop ends, after everything that it waits for. -/
  | looped {α : Type} {cond body : Term ν} {next : Unit → Plan ν α} {m m₁ : Machine β σ}
      {trace later : List (Activity ν × Machine β σ)} {out : Outcome (Machine β σ) α}
      (rounds : Traces (Activity.loop cond body).plan m trace (.value () m₁))
      (rest : Traces (next ()) m₁ later out) :
      Traces (.await (.loop cond body) next) m (trace ++ later) out
  /-- A loop halts. -/
  | loopBroken {α : Type} {cond body : Term ν} {next : Unit → Plan ν α} {h : Halt}
      {m m₁ : Machine β σ} {trace : List (Activity ν × Machine β σ)}
      (rounds : Traces (Activity.loop cond body).plan m trace (.halted h m₁)) :
      Traces (.await (.loop cond body) next) m trace (.halted h m₁)

namespace Plan

variable {plan : Plan ν α} {m : Machine β σ} {trace trace' : List (Activity ν × Machine β σ)}
  {out out' : Outcome (Machine β σ) α}

/-- A plan waits for the same and comes to the same outcome whenever it is followed. -/
theorem Traces.unique (h : plan.Traces m trace out) (h' : plan.Traces m trace' out') :
    trace' = trace ∧ out' = out := by
  induction h generalizing trace' with
  | done | halt =>
    cases h'
    exact ⟨rfl, rfl⟩
  | asked answered _ ih =>
    cases h' with
    | asked answered' rest' =>
      cases answered.symm.trans answered'
      exact ih rest'
    | refused halted' => cases answered.symm.trans halted'
  | refused halted =>
    cases h' with
    | asked answered' _ => cases halted.symm.trans answered'
    | refused halted' =>
      cases halted.symm.trans halted'
      exact ⟨rfl, rfl⟩
  | awaited single yields _ ih =>
    have ends := Activity.ends_value_iff.2 yields
    cases h' with
    | awaited _ yields' rest' =>
      cases ends.unique (Activity.ends_value_iff.2 yields')
      obtain ⟨rfl, rfl⟩ := ih rest'
      exact ⟨rfl, rfl⟩
    | broken _ halts' => cases ends.unique (Activity.ends_halted_iff.2 halts')
    | looped | loopBroken => cases single
  | broken single halts =>
    have ends := Activity.ends_halted_iff.2 halts
    cases h' with
    | awaited _ yields' _ => cases ends.unique (Activity.ends_value_iff.2 yields')
    | broken _ halts' =>
      cases ends.unique (Activity.ends_halted_iff.2 halts')
      exact ⟨rfl, rfl⟩
    | looped | loopBroken => cases single
  | looped _ _ ih₁ ih₂ =>
    cases h' with
    | awaited single' | broken single' => cases single'
    | looped rounds' rest' =>
      obtain ⟨rfl, h⟩ := ih₁ rounds'
      cases h
      obtain ⟨rfl, rfl⟩ := ih₂ rest'
      exact ⟨rfl, rfl⟩
    | loopBroken rounds' => cases (ih₁ rounds').2
  | loopBroken _ ih =>
    cases h' with
    | awaited single' | broken single' => cases single'
    | looped rounds' _ => cases (ih rounds').2
    | loopBroken rounds' =>
      obtain ⟨rfl, h⟩ := ih rounds'
      cases h
      exact ⟨rfl, rfl⟩

/-- What is traced happens. -/
theorem Traces.exists_follows (h : plan.Traces m trace out) :
    ∃ calls, plan.Follows m calls out := by
  induction h with
  | done a m => exact ⟨_, .done a m⟩
  | halt h m => exact ⟨_, .halt h m⟩
  | asked answered _ ih =>
    obtain ⟨later, hlater⟩ := ih
    exact ⟨_, .asked answered hlater⟩
  | refused halted => exact ⟨_, .refused halted⟩
  | awaited _ yields _ ih =>
    obtain ⟨calls, hcalls⟩ := Activity.ends_iff_runs.1 (Activity.ends_value_iff.2 yields)
    obtain ⟨later, hlater⟩ := ih
    exact ⟨_, .awaited hcalls hlater⟩
  | broken _ halts =>
    obtain ⟨calls, hcalls⟩ := Activity.ends_iff_runs.1 (Activity.ends_halted_iff.2 halts)
    exact ⟨_, .broken hcalls⟩
  | looped _ _ ih₁ ih₂ =>
    obtain ⟨calls, hcalls⟩ := ih₁
    obtain ⟨later, hlater⟩ := ih₂
    exact ⟨_, .awaited hcalls hlater⟩
  | loopBroken _ ih =>
    obtain ⟨calls, hcalls⟩ := ih
    exact ⟨_, .broken hcalls⟩

end Plan

theorem Activity.ends_of_traces {a : Activity ν} {m : Machine β σ}
    {trace : List (Activity ν × Machine β σ)} {out : Outcome (Machine β σ) a.Answer}
    (h : a.plan.Traces m trace out) : a.Ends m out :=
  ends_iff_runs.2 h.exists_follows

/-- A plan that only waits for a loop has the trace of the loop. -/
theorem Plan.Traces.afterLoop {cond body : Term ν} {m : Machine β σ}
    {trace : List (Activity ν × Machine β σ)} {ended : Outcome (Machine β σ) Unit}
    (h : (Activity.loop cond body).plan.Traces m trace ended) (f : Unit → α) :
    (Plan.await (.loop cond body) fun u => .done (f u)).Traces m trace (ended.map f) := by
  cases ended with
  | value u m' =>
    rw [← List.append_nil trace]
    exact .looped h (.done (f u) m')
  | halted e m' => exact .loopBroken h
  | unfinished => exact absurd rfl (Activity.ends_of_traces h).1

/-! ## Rounds of a loop -/

namespace Activity

variable (cond body : Term ν)

/-- A round of a loop: the condition is true, and the body comes to some value. -/
def Round (m m' : Machine β σ) : Prop :=
  ∃ m₁ value, (coerce .truth cond).Yields m true m₁ ∧ (evaluate body).Yields m₁ value m'

/-- How a loop ends with a test of its condition: how often the body is started after it, and the
outcome of the loop. -/
inductive LastTest (m : Machine β σ) : Nat → Outcome (Machine β σ) (Term ν) → Prop
  | fails {m' : Machine β σ} : (coerce .truth cond).Yields m false m' →
      LastTest m 0 (.value (.lit .null) m')
  | halts {h : Halt} {m' : Machine β σ} : (coerce .truth cond).Halts m h m' →
      LastTest m 0 (.halted h m')
  | bodyHalts {h : Halt} {m₁ m' : Machine β σ} : (coerce .truth cond).Yields m true m₁ →
      (evaluate body).Halts m₁ h m' → LastTest m 1 (.halted h m')

/-- A loop from `m` to an outcome: `k` rounds through the machines `s 0` to `s k`, and a last test
with `extra` starts of the body after it. -/
structure RollsOut (m : Machine β σ) (k : Nat) (s : Nat → Machine β σ) (extra : Nat)
    (out : Outcome (Machine β σ) (Term ν)) : Prop where
  start : s 0 = m
  round : ∀ i < k, Round cond body (s i) (s (i + 1))
  last : LastTest cond body (s k) extra out

variable {cond body} {m m₁ : Machine β σ} {k extra : Nat} {s : Nat → Machine β σ}
  {out : Outcome (Machine β σ) (Term ν)}

/-- One round more in front. -/
theorem RollsOut.cons (hround : Round cond body m m₁) (h : RollsOut cond body m₁ k s extra out) :
    RollsOut cond body m (k + 1) (fun i => if i = 0 then m else s (i - 1)) extra out := by
  refine ⟨rfl, fun i hi => ?_, h.last⟩
  cases i with
  | zero =>
    show Round cond body m (s 0)
    rw [h.start]
    exact hround
  | succ i => exact h.round i (by omega)

/-- A loop that ends does so by its last test, or goes on after a round. -/
theorem lastTest_or_round {n : Nat} {ended : Outcome (Machine β σ) Unit}
    (h : ((loop cond body).perform (n + 1)).run m = ended) (hended : ended ≠ .unfinished) :
    (∃ extra, LastTest cond body m extra (ended.map fun _ => .lit .null)) ∨
      ∃ m', Round cond body m m' ∧ ((loop cond body).perform n).run m' = ended := by
  simp only [perform, plan, Plan.follow, run_bind] at h
  cases htest : ((coerce .truth cond).perform n).run m with
  | unfinished =>
    rw [htest] at h
    exact absurd h.symm hended
  | halted e m' =>
    rw [htest] at h
    cases h
    exact .inl ⟨0, .halts (halts_iff_perform.2 ⟨n, htest⟩)⟩
  | value t m₁ =>
    have tested : (coerce .truth cond).Yields m t m₁ := yields_iff_perform.2 ⟨n, htest⟩
    rw [htest] at h
    cases t with
    | false =>
      cases h
      exact .inl ⟨0, .fails tested⟩
    | true =>
      simp only [if_true, Plan.follow, run_bind] at h
      cases hbody : ((evaluate body).perform n).run m₁ with
      | unfinished =>
        rw [hbody] at h
        exact absurd h.symm hended
      | halted e m' =>
        rw [hbody] at h
        cases h
        exact .inl ⟨1, .bodyHalts tested (halts_iff_perform.2 ⟨n, hbody⟩)⟩
      | value v m₂ =>
        rw [hbody] at h
        refine .inr ⟨m₂, ⟨m₁, v, tested, yields_iff_perform.2 ⟨n, hbody⟩⟩, ?_⟩
        rwa [← run_bind, bind_pure] at h

/-- A loop that ends can be rolled out. -/
theorem exists_rollsOut {n : Nat} {ended : Outcome (Machine β σ) Unit}
    (h : ((loop cond body).perform n).run m = ended) (hended : ended ≠ .unfinished) :
    ∃ k s extra, RollsOut cond body m k s extra (ended.map fun _ => .lit .null) := by
  -- The fuel bounds the number of rounds.
  induction n generalizing m with
  | zero => exact absurd h.symm hended
  | succ n ih =>
    rcases lastTest_or_round h hended with ⟨extra, hlast⟩ | ⟨m', hround, hrest⟩
    · exact ⟨0, fun _ => m, extra, rfl, fun i hi => absurd hi (Nat.not_lt_zero i), hlast⟩
    · obtain ⟨k, s, extra, hrolls⟩ := ih hrest
      exact ⟨_, _, _, hrolls.cons hround⟩

/-! ## The trace of a loop -/

/-- What a loop that is rolled out waits for: a test on each of its machines, and the body after each
test that is true. -/
structure Rolled (cond body : Term ν) (k : Nat) (s : Nat → Machine β σ) (extra : Nat)
    (trace : List (Activity ν × Machine β σ)) : Prop where
  tests : trace.filter (·.1.isTest) = (List.range (k + 1)).map fun i => (coerce .truth cond, s i)
  starts : ∃ machines : List (Machine β σ), machines.length = k + extra ∧
    trace.filter (!·.1.isTest) = machines.map fun m => (evaluate body, m)

theorem LastTest.exists_traces (h : LastTest cond body m extra out) :
    ∃ trace ended, (loop cond body).plan.Traces m trace ended ∧
      out = ended.map (fun _ => .lit .null) ∧ Rolled cond body 0 (fun _ => m) extra trace := by
  cases h with
  | fails tested =>
    exact ⟨_, _, .awaited rfl tested (.done () _), rfl, rfl, [], rfl, rfl⟩
  | halts halted => exact ⟨_, _, .broken rfl halted, rfl, rfl, [], rfl, rfl⟩
  | @bodyHalts h m₁ m' tested halted =>
    exact ⟨_, _, .awaited rfl tested (.broken rfl halted), rfl, rfl, [m₁], rfl, rfl⟩

omit [Bindings β ν] [Host σ] in
theorem Rolled.cons {m₁ : Machine β σ} {trace : List (Activity ν × Machine β σ)}
    (h : Rolled cond body k (fun i => s (i + 1)) extra trace) :
    Rolled cond body (k + 1) s extra
      ((coerce .truth cond, s 0) :: (evaluate body, m₁) :: trace) := by
  obtain ⟨machines, hlength, hstarts⟩ := h.starts
  constructor
  · rw [List.range_succ_eq_map, List.map_cons, List.map_map, List.filter_cons_of_pos rfl,
      List.filter_cons_of_neg (by simp [isTest]), h.tests]
    rfl
  · refine ⟨m₁ :: machines, by rw [List.length_cons]; omega, ?_⟩
    rw [List.filter_cons_of_neg (by simp [isTest]), List.filter_cons_of_pos rfl, hstarts]
    rfl

theorem RollsOut.exists_traces (h : RollsOut cond body m k s extra out) :
    ∃ trace ended, (loop cond body).plan.Traces m trace ended ∧
      out = ended.map (fun _ => .lit .null) ∧ Rolled cond body k s extra trace := by
  induction k generalizing m s with
  | zero =>
    obtain ⟨trace, ended, htraces, hout, hrolled⟩ := h.last.exists_traces
    rw [← h.start]
    refine ⟨trace, ended, htraces, hout, ⟨?_, hrolled.starts⟩⟩
    rw [hrolled.tests]
    rfl
  | succ k ih =>
    -- The first round is traced here, the others by induction.
    have rest : RollsOut cond body (s 1) k (fun i => s (i + 1)) extra out :=
      ⟨rfl, fun i hi => h.round (i + 1) (by omega), h.last⟩
    obtain ⟨trace, ended, htraces, hout, hrolled⟩ := ih rest
    obtain ⟨m₁, value, tested, ran⟩ := h.round 0 (by omega)
    have goesOn : (Plan.await (.loop cond body) .done).Traces (s 1) trace ended := by
      have := htraces.afterLoop id
      rwa [Outcome.map_id] at this
    refine ⟨_ :: (evaluate body, m₁) :: trace, ended, ?_, hout, hrolled.cons⟩
    rw [← h.start]
    exact .awaited rfl tested (.awaited rfl ran goesOn)

/-- The trace of `W` is that of the loop it goes on with. -/
theorem RollsOut.exists_trace (h : RollsOut cond body m k s extra out) :
    ∃ trace, (evaluate (.binary .loop cond body)).plan.Traces m trace out ∧
      Rolled cond body k s extra trace := by
  obtain ⟨trace, ended, htraces, rfl, hrolled⟩ := h.exists_traces
  exact ⟨trace, htraces.afterLoop _, hrolled⟩

theorem ends_loop_iff : (evaluate (.binary .loop cond body)).Ends m out ↔
    ∃ k s extra, RollsOut cond body m k s extra out := by
  constructor
  · rintro ⟨hout, hn⟩
    obtain ⟨n, hn⟩ := (within_iff_perform hout).1 hn
    cases n with
    | zero => exact absurd hn.symm hout
    | succ n =>
      -- `W` returns null where its loop comes to an end.
      have hmap : ((((loop cond body).perform n).run m).map fun _ => .lit .null) = out := by
        rw [← run_map, map_eq_pure_bind]
        exact hn
      rw [← hmap] at hout ⊢
      refine exists_rollsOut rfl fun h => hout ?_
      rw [h]
      rfl
  · rintro ⟨k, s, extra, h⟩
    obtain ⟨trace, htraces, -⟩ := h.exists_trace
    exact ends_of_traces htraces

/-- The trace tells how a loop is rolled out. -/
theorem RollsOut.unique {k' extra' : Nat} {s' : Nat → Machine β σ}
    {out' : Outcome (Machine β σ) (Term ν)} (h : RollsOut cond body m k s extra out)
    (h' : RollsOut cond body m k' s' extra' out') :
    k' = k ∧ (∀ i ≤ k, s' i = s i) ∧ extra' = extra ∧ out' = out := by
  obtain ⟨trace, htraces, hrolled⟩ := h.exists_trace
  obtain ⟨trace', htraces', hrolled'⟩ := h'.exists_trace
  obtain ⟨rfl, rfl⟩ := htraces.unique htraces'
  have tests := hrolled'.tests.symm.trans hrolled.tests
  obtain ⟨machines, hlength, hstarts⟩ := hrolled.starts
  obtain ⟨machines', hlength', hstarts'⟩ := hrolled'.starts
  have tested := congrArg List.length tests
  have started := congrArg List.length (hstarts'.symm.trans hstarts)
  simp only [List.length_map, List.length_range] at tested started
  obtain rfl : k' = k := by omega
  refine ⟨rfl, fun i hi => ?_, by omega, rfl⟩
  have same := List.map_inj_left.1 tests i (List.mem_range.2 (by omega))
  exact (Prod.ext_iff.1 same).2

/-- What `W` means. It comes to an outcome if and only if it can be rolled out to that: some rounds,
in each of which the condition is true and the body comes to a value, and then a last test. If this
is false, the value is null; if it halts, or is true and the body halts then, so does the loop. The
machines of the rounds and their number are determined, and the condition is tested on each of them
and nowhere else, so once more than there are rounds. The body is started after each test that is
true. -/
theorem loop_rolls_out (cond body : Term ν) (m : Machine β σ) :
    (∀ out, (evaluate (.binary .loop cond body)).Ends m out ↔
      ∃ k s extra, RollsOut cond body m k s extra out) ∧
    ∀ k s extra out, RollsOut cond body m k s extra out →
      (∀ k' s' extra' out', RollsOut cond body m k' s' extra' out' →
        k' = k ∧ (∀ i ≤ k, s' i = s i) ∧ extra' = extra ∧ out' = out) ∧
      ∃ trace, (∀ trace' out', (evaluate (.binary .loop cond body)).plan.Traces m trace' out' ↔
          trace' = trace ∧ out' = out) ∧
        Rolled cond body k s extra trace := by
  refine ⟨fun out => ends_loop_iff, fun k s extra out h => ⟨fun _ _ _ _ h' => h.unique h', ?_⟩⟩
  obtain ⟨trace, htraces, hrolled⟩ := h.exists_trace
  refine ⟨trace, fun trace' out' => ⟨fun h' => htraces.unique h', ?_⟩, hrolled⟩
  rintro ⟨rfl, rfl⟩
  exact htraces

/-- `W < n 2 = n + n 1` from zero: two rounds, three tests, and null at the end. -/
theorem count_up_rolls_out :
    let cond : Term String := .binary .less (.var "n") (.lit (.number 2))
    let body : Term String :=
      .binary .assign (.var "n") (.binary (.arith .add) (.var "n") (.lit (.number 1)))
    let s : Nat → Machine Store Scripted := fun i =>
      ⟨Store.assign ∅ "n" (.lit (.number (Int64.ofNat i))), {}, Draws.seeded 0⟩
    let out : Outcome (Machine Store Scripted) (Term String) := .value (.lit .null) (s 2)
    RollsOut cond body (s 0) 2 s 0 out ∧ (evaluate (.binary .loop cond body)).Ends (s 0) out ∧
      ∃ trace, (evaluate (.binary .loop cond body)).plan.Traces (s 0) trace out ∧
        (trace.filter (·.1.isTest)).length = 3 ∧ (trace.filter (!·.1.isTest)).length = 2 := by
  intro cond body s out
  have round (i : Nat) (hi : i < 2) : Round cond body (s i) (s (i + 1)) := by
    obtain rfl | rfl : i = 0 ∨ i = 1 := by omega
    · exact ⟨s 0, .lit (.number 1), ⟨3, rfl⟩, ⟨4, rfl⟩⟩
    · exact ⟨s 1, .lit (.number 2), ⟨3, rfl⟩, ⟨4, rfl⟩⟩
  have rolls : RollsOut cond body (s 0) 2 s 0 out := ⟨rfl, round, .fails ⟨3, rfl⟩⟩
  obtain ⟨-, trace, htraces, hrolled⟩ := (loop_rolls_out cond body (s 0)).2 _ _ _ _ rolls
  obtain ⟨machines, hlength, hstarts⟩ := hrolled.starts
  refine ⟨rolls, ((loop_rolls_out cond body (s 0)).1 out).2 ⟨2, s, 0, rolls⟩, trace,
    (htraces _ _).2 ⟨rfl, rfl⟩, ?_, ?_⟩
  · rw [hrolled.tests, List.length_map, List.length_range]
  · rw [hstarts, List.length_map, hlength]

end Activity

end KnightLang
