/-
What a run needs of a scripted host. It takes lines from the front of the input and puts text behind
the output, and the commands stay as they are. What has been written before cannot be read, so it
makes no difference; nor do lines that stand behind those that the run reads, unless it reads where
the shorter input has come to its end (`Activity.scripted_framed`).
-/
import KnightLang.Proofs.Machine.Limits
import KnightLang.Proofs.Source.Rendering

namespace KnightLang

open EvalM

/-! ## Hosts with a different past and future -/

section
variable {β σ : Type}

/-- The call reads a line where there is none. -/
def Call.ReadsAtEnd (c : Call β Scripted) : Prop :=
  c.request = .readLine ∧ c.before.host.input = []

/-- The host after calls: the lines that they read are gone, what they write is there. -/
def Scripted.after (s : Scripted) (calls : List (Call β σ)) : Scripted :=
  ⟨s.input.drop (countCalls .read calls), s.output ++ writtenText calls, s.commands⟩

/-- The machine, if this had been written before and these lines stood behind the input. -/
def Machine.framed (output : String) (behind : List String) (m : Machine β Scripted) :
    Machine β Scripted :=
  ⟨m.bindings, ⟨m.host.input ++ behind, output, m.host.commands⟩, m.draws⟩

/-- The machine on another host. -/
def Machine.onHost (host : σ) (m : Machine β σ) : Machine β σ := ⟨m.bindings, host, m.draws⟩

theorem Outcome.mapMachine_congr {μ μ' α : Type} {f g : μ → μ'} {out : Outcome μ α}
    (h : ∀ m, out.machine? = some m → f m = g m) : out.mapMachine f = out.mapMachine g := by
  cases out with
  | value a m => exact congrArg (Outcome.value a) (h m rfl)
  | halted e m => exact congrArg (Outcome.halted e) (h m rfl)
  | unfinished => rfl

theorem writtenText_singleton (c : Call β σ) : writtenText [c] = c.request.written :=
  String.append_empty

theorem Scripted.after_nil (s : Scripted) : s.after ([] : List (Call β σ)) = s := by
  show Scripted.mk s.input (s.output ++ "") s.commands = s
  rw [String.append_empty]

theorem Scripted.after_append (s : Scripted) (calls more : List (Call β σ)) :
    s.after (calls ++ more) = (s.after calls).after more := by
  unfold after
  rw [countCalls_append, writtenText_append, String.append_assoc, List.drop_drop]

end

section
variable {β ν α : Type} [Bindings β ν] {output : String} {behind : List String}

/-! ## One operation -/

theorem Operation.host_of_perform {o : Operation ν} {m m' : Machine β Scripted}
    (h : (o.perform.run m).machine? = some m') : m'.host = m.host.after (o.calls m) := by
  cases o with
  | lookup x =>
    rw [perform, Machine.run_lookup] at h
    split at h <;> (cases h; exact (Scripted.after_nil _).symm)
  | load source =>
    rw [perform, Machine.run_load] at h
    dsimp only at h
    split at h <;> (cases h; exact (Scripted.after_nil _).symm)
  | assign | draw =>
    cases h
    exact (Scripted.after_nil _).symm
  | readLine =>
    obtain ⟨bindings, ⟨input, written, commands⟩, draws⟩ := m
    cases input <;>
    · cases h
      exact congrArg (Scripted.mk _ · _) String.append_empty.symm
  | write text =>
    cases h
    exact congrArg (Scripted.mk _ · _) (congrArg _ String.append_empty.symm)
  | dump value =>
    cases h
    exact congrArg (Scripted.mk _ · _) (congrArg _ String.append_empty.symm)
  | shell command =>
    cases h
    exact congrArg (Scripted.mk _ · _) String.append_empty.symm

theorem Operation.framed_of_silent {o : Operation ν} {m : Machine β Scripted}
    (hsilent : writtenText (o.calls m) = "") (hrun : o.perform.run (m.framed output behind) =
      (o.perform.run m).mapMachine (Machine.framed output behind)) :
    o.perform.run (m.framed output behind) =
      (o.perform.run m).mapMachine (Machine.framed (output ++ writtenText (o.calls m)) behind) := by
  rw [hsilent, String.append_empty]
  exact hrun

theorem Operation.framed (o : Operation ν) (m : Machine β Scripted) (output : String)
    (h : behind = [] ∨ ∀ c ∈ o.calls m, ¬c.ReadsAtEnd) :
    o.perform.run (m.framed output behind) =
      (o.perform.run m).mapMachine (Machine.framed (output ++ writtenText (o.calls m)) behind) := by
  cases o with
  | lookup x =>
    refine framed_of_silent rfl ?_
    have same : (m.framed output behind).bindings = m.bindings := rfl
    rw [perform, Machine.run_lookup, Machine.run_lookup, same]
    cases Bindings.value? m.bindings x <;> rfl
  | load source =>
    refine framed_of_silent rfl ?_
    rw [perform, Machine.run_load, Machine.run_load]
    dsimp only
    cases (parse source).result <;> rfl
  | assign | draw => exact framed_of_silent rfl rfl
  | readLine =>
    refine framed_of_silent String.append_empty ?_
    obtain ⟨bindings, ⟨input, written, commands⟩, draws⟩ := m
    cases input with
    | cons line input => rfl
    | nil =>
      -- There is no line here either, so there must be none behind.
      rcases h with rfl | h
      · rfl
      · have atEnd : Call.ReadsAtEnd ⟨.readLine, ⟨bindings, ⟨[], written, commands⟩, draws⟩⟩ :=
          ⟨rfl, rfl⟩
        exact absurd atEnd (h _ (List.mem_singleton.2 rfl))
  | write text | dump value =>
    rw [calls, writtenText_singleton]
    rfl
  | shell command => exact framed_of_silent String.append_empty rfl

/-! ## Whole runs -/

variable {plan : Plan ν α} {m : Machine β Scripted} {calls : List (Call β Scripted)}
  {out : Outcome (Machine β Scripted) α}

/-- A run leaves the host as its calls do. -/
theorem Plan.Follows.host_after (h : plan.Follows m calls out) {m' : Machine β Scripted}
    (hm' : out.machine? = some m') : m'.host = m.host.after calls := by
  induction h generalizing m' with
  | done | halt =>
    cases hm'
    exact (Scripted.after_nil _).symm
  | @asked _ o _ _ m m₁ _ _ answered _ ih =>
    have first : m₁.host = m.host.after (o.calls m) :=
      Operation.host_of_perform (by rw [answered]; rfl)
    rw [ih hm', first, Scripted.after_append]
  | refused halted =>
    cases hm'
    exact Operation.host_of_perform (by rw [halted]; rfl)
  | awaited _ _ ih₁ ih₂ => rw [ih₂ hm', ih₁ rfl, Scripted.after_append]
  | broken _ ih =>
    cases hm'
    exact ih rfl

/-- A run does the same after another past, and with more to read that it does not come to. -/
theorem Plan.Follows.framed (h : plan.Follows m calls out)
    (hread : behind = [] ∨ ∀ c ∈ calls, ¬c.ReadsAtEnd) (output : String) :
    ∃ made, plan.Follows (m.framed output behind) made
      (out.mapMachine (Machine.framed (output ++ writtenText calls) behind)) := by
  -- What is asked of the calls together is asked of both parts.
  have parts : ∀ {first later : List (Call β Scripted)},
      (behind = [] ∨ ∀ c ∈ first ++ later, ¬c.ReadsAtEnd) →
      (behind = [] ∨ ∀ c ∈ first, ¬c.ReadsAtEnd) ∧ (behind = [] ∨ ∀ c ∈ later, ¬c.ReadsAtEnd) := by
    intro first later h
    rw [List.forall_mem_append, or_and_left] at h
    exact h
  induction h generalizing output with
  | done a m =>
    rw [writtenText, String.append_empty]
    exact ⟨_, .done a _⟩
  | halt e m =>
    rw [writtenText, String.append_empty]
    exact ⟨_, .halt e _⟩
  | @asked _ o _ _ m _ later _ answered _ ih =>
    obtain ⟨hfirst, hlater⟩ := parts hread
    have run := o.framed m output hfirst
    rw [answered] at run
    obtain ⟨made, hmade⟩ := ih hlater (output ++ writtenText (o.calls m))
    rw [writtenText_append, ← String.append_assoc]
    exact ⟨_, .asked run hmade⟩
  | @refused _ o _ _ m _ halted =>
    have run := o.framed m output hread
    rw [halted] at run
    exact ⟨_, .refused run⟩
  | @awaited _ _ _ _ _ _ first later _ _ _ ih₁ ih₂ =>
    obtain ⟨hfirst, hlater⟩ := parts hread
    obtain ⟨made₁, hmade₁⟩ := ih₁ hfirst output
    obtain ⟨made₂, hmade₂⟩ := ih₂ hlater (output ++ writtenText first)
    rw [writtenText_append, ← String.append_assoc]
    exact ⟨_, .awaited hmade₁ hmade₂⟩
  | broken _ ih =>
    obtain ⟨made, hmade⟩ := ih hread output
    exact ⟨made, .broken hmade⟩

open Plan in
/-- An activity on a scripted host, such as the run of a source, that comes to an outcome. There is
a text `u`, what its calls write, and a number `k` of calls that read a line. The host is left with
`u` behind the output, with the input without its first `k` lines, and with the same commands.
Whatever had been written before, the activity comes to the same outcome otherwise, with the same
`u` and `k`. So it does with any lines `X` behind the input, if it never reads at its end; and then
it leaves these lines behind the rest of the input. -/
theorem Activity.scripted_framed {a : Activity ν} {b : β} {d : Draws} {I : List String}
    {U : String} {K : List (String × String)} {fuel : Nat}
    {out : Outcome (Machine β Scripted) a.Answer}
    (h : (a.within fuel).run ⟨b, ⟨I, U, K⟩, d⟩ = out) (hout : out ≠ .unfinished) :
    ∃ calls, (∀ calls' out', a.Runs ⟨b, ⟨I, U, K⟩, d⟩ calls' out' ↔ calls' = calls ∧ out' = out) ∧
      ∃ u k, u = writtenText calls ∧ k = countCalls .read calls ∧
        (∀ m', out.machine? = some m' → m'.host = ⟨I.drop k, U ++ u, K⟩) ∧
        (∀ U', ∃ n, (a.within n).run ⟨b, ⟨I, U', K⟩, d⟩ =
          out.mapMachine (Machine.onHost ⟨I.drop k, U' ++ u, K⟩)) ∧
        ((∀ c ∈ calls, ¬c.ReadsAtEnd) → ∀ U' X, ∃ n, (a.within n).run ⟨b, ⟨I ++ X, U', K⟩, d⟩ =
          out.mapMachine (Machine.onHost ⟨I.drop k ++ X, U' ++ u, K⟩)) := by
  obtain ⟨calls, hruns⟩ := runs_iff_within.2 ⟨hout, fuel, h⟩
  have host : ∀ m', out.machine? = some m' →
      m'.host = ⟨I.drop (countCalls .read calls), U ++ writtenText calls, K⟩ :=
    fun m' hm' => Follows.host_after hruns hm'
  -- Which lines are left and which commands there are is known from the run itself.
  have framed : ∀ U' X, out.mapMachine (Machine.framed (U' ++ writtenText calls) X) =
      out.mapMachine (Machine.onHost
        ⟨I.drop (countCalls .read calls) ++ X, U' ++ writtenText calls, K⟩) := by
    refine fun U' X => Outcome.mapMachine_congr fun m' hm' => ?_
    rw [Machine.framed, host m' hm']
    rfl
  refine ⟨calls, fun calls' out' => ⟨fun h' => Follows.unique hruns h', ?_⟩, _, _, rfl, rfl, host,
    fun U' => ?_, fun hread U' X => ?_⟩
  · rintro ⟨rfl, rfl⟩
    exact hruns
  · have run := (runs_iff_within.1 (Follows.framed hruns (.inl rfl) U')).2
    rw [framed] at run
    simp only [Machine.framed, List.append_nil] at run
    exact run
  · have unread : X = [] ∨ ∀ c ∈ calls, ¬c.ReadsAtEnd := .inr hread
    have run := (runs_iff_within.1 (Follows.framed hruns unread U')).2
    rw [framed] at run
    exact run

end

/-- `D P` reads a line and writes its structure. Another line behind the input stays where it is,
and what has been written before stays in front. -/
theorem Activity.dump_framed :
    let source := "D P"
    let line : Term String := .lit (.text "one")
    let m : Machine Store Scripted := ⟨∅, ⟨["one"], "", []⟩, Draws.seeded 0⟩
    let m' : Machine Store Scripted := ⟨∅, ⟨["one", "two"], "> ", []⟩, Draws.seeded 0⟩
    (∃ out, ((run source).within 2).run m = out ∧ out ≠ .unfinished) ∧
      ∃ n, ((run source).within n).run m' =
        .value line ⟨∅, ⟨["two"], "> String(one)\n", []⟩, Draws.seeded 0⟩ := by
  intro source line m m'
  let m₁ : Machine Store Scripted := ⟨∅, ⟨[], "", []⟩, Draws.seeded 0⟩
  let m₂ : Machine Store Scripted := ⟨∅, ⟨[], "String(one)", []⟩, Draws.seeded 0⟩
  let m₃ : Machine Store Scripted := ⟨∅, ⟨[], "String(one)\n", []⟩, Draws.seeded 0⟩
  let out : Outcome (Machine Store Scripted) (Term String) := .value line m₃
  let calls : List (Call Store Scripted) :=
    [⟨.readLine, m⟩, ⟨.write "String(one)", m₁⟩, ⟨.write "\n", m₂⟩]
  have parsed : parse source = ⟨.ok (.unary .dump (.nullary .prompt)), []⟩ :=
    Source.parse_eq_of_ok (by decide +kernel)
  have loaded : (Machine.load source).run m = .value (.unary .dump (.nullary .prompt)) m :=
    Source.load_of_parse parsed m
  have value : ((run source).within 2).run m = out := by
    show (Machine.load source >>= Term.eval 2).run m = _
    rw [run_bind, loaded]
    rfl
  have finished : out ≠ .unfinished := nofun
  have reads : (Operation.readLine (ν := String)).perform.run m = .value (some "one") m₁ := rfl
  have wrote : (Operation.dump line).perform.run m₁ = .value () m₂ := rfl
  have ended : (Operation.write (ν := String) "\n").perform.run m₂ = .value () m₃ := rfl
  have prompts : (evaluate (.nullary .prompt)).Runs m [⟨.readLine, m⟩] (.value line m₁) :=
    .asked reads (.done line m₁)
  have dumps : (evaluate (.unary .dump (.nullary .prompt))).Runs m calls out :=
    .awaited prompts (.asked wrote (.asked ended (.done line m₃)))
  have runs : (run source).Runs m calls out :=
    .asked (o := .load source) loaded (.awaited dumps (.done line m₃))
  obtain ⟨calls', hcalls, _, _, rfl, rfl, -, -, hmore⟩ := scripted_framed value finished
  obtain ⟨rfl, -⟩ := (hcalls _ _).1 runs
  refine ⟨⟨out, value, finished⟩, hmore ?_ "> " ["two"]⟩
  simp [calls, Call.ReadsAtEnd, m]

end KnightLang
