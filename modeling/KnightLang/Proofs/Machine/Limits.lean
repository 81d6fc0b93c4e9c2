/-
Limits cut runs short and change nothing else. On a host whose calls fail from some number on, a run
does what it does on the host itself up to the first call that is refused, and then halts with the
message of the limit, on the machine as it was immediately before that call; a run without such a
call does not notice the limits (`Activity.limits_truncate`). As the halt may stand anywhere, in a
loop, in a coercion or in a source that is run by another, this is shown call by call along
`Plan.Follows`.
-/
import KnightLang.Host.Limited
import KnightLang.Proofs.Machine.Output

namespace KnightLang

open EvalM

/-- The outcome with the machine replaced. -/
def Outcome.mapMachine {μ μ' α : Type} (f : μ → μ') : Outcome μ α → Outcome μ' α
  | value a m => .value a (f m)
  | halted h m => .halted h (f m)
  | unfinished => .unfinished

/-! ## Limits -/

/-- A limit for each kind of call that has one. -/
abbrev Limits : Type := CallKind → Option Limit

section
variable {β σ : Type}

/-- The number of calls of a kind. -/
def countCalls (kind : CallKind) (calls : List (Call β σ)) : Nat := calls.countP (·.kind == kind)

namespace Limits

/-- The calls do not exceed the limits. -/
def Admits (limits : Limits) (calls : List (Call β σ)) : Prop :=
  ∀ kind limit, limits kind = some limit → countCalls kind calls ≤ limit.remaining

/-- What calls leave of the limits. -/
def after (limits : Limits) (calls : List (Call β σ)) : Limits := fun kind =>
  (limits kind).map fun limit => { limit with remaining := limit.remaining - countCalls kind calls }

/-- The host under these limits. -/
def on (limits : Limits) (host : σ) : Limited σ :=
  ⟨host, limits .read, limits .write, limits .shell⟩

end Limits

/-- The machine with its host under limits. -/
def Machine.limited (limits : Limits) (m : Machine β σ) : Machine β (Limited σ) :=
  ⟨m.bindings, limits.on m.host, m.draws⟩

variable {limits : Limits} {calls more before : List (Call β σ)} {c : Call β σ} {message : String}

theorem countCalls_append (kind : CallKind) (calls more : List (Call β σ)) :
    countCalls kind (calls ++ more) = countCalls kind calls + countCalls kind more :=
  List.countP_append

theorem countCalls_singleton (kind : CallKind) (c : Call β σ) :
    countCalls kind [c] = if c.kind = kind then 1 else 0 := by
  unfold countCalls
  rw [List.countP_singleton]
  simp only [beq_iff_eq]

namespace Limits

theorem admits_nil : limits.Admits ([] : List (Call β σ)) := fun _ _ _ => Nat.zero_le _

theorem after_nil : limits.after ([] : List (Call β σ)) = limits := by
  funext kind
  unfold after
  cases limits kind <;> rfl

theorem after_append (limits : Limits) (calls more : List (Call β σ)) :
    limits.after (calls ++ more) = (limits.after calls).after more := by
  funext kind
  unfold after
  cases limits kind with
  | none => rfl
  | some limit =>
    simp only [Option.map_some, countCalls_append, Nat.sub_sub]

theorem admits_append :
    limits.Admits (calls ++ more) ↔ limits.Admits calls ∧ (limits.after calls).Admits more := by
  constructor
  · intro h
    refine ⟨fun kind limit hl => ?_, fun kind limit hl => ?_⟩
    · have := h kind limit hl
      rw [countCalls_append] at this
      omega
    · obtain ⟨whole, hwhole, rfl⟩ := Option.map_eq_some_iff.1 hl
      have := h kind whole hwhole
      rw [countCalls_append] at this
      show _ ≤ whole.remaining - _
      omega
  · rintro ⟨hcalls, hmore⟩ kind limit hl
    have hc := hcalls kind limit hl
    have hm : countCalls kind more ≤ limit.remaining - countCalls kind calls :=
      hmore kind _ (Option.map_eq_some_iff.2 ⟨limit, hl, rfl⟩)
    rw [countCalls_append]
    omega

/-- Of these calls, `c` is the first one that exceeds its limit, which fails with the message. -/
structure Refuses (limits : Limits) (calls before : List (Call β σ)) (c : Call β σ)
    (message : String) : Prop where
  split : ∃ later, calls = before ++ c :: later
  admits : limits.Admits before
  spent : limits c.kind = some ⟨countCalls c.kind before, message⟩

theorem Refuses.append (h : limits.Refuses calls before c message) (more : List (Call β σ)) :
    limits.Refuses (calls ++ more) before c message := by
  obtain ⟨later, rfl⟩ := h.split
  refine ⟨⟨later ++ more, ?_⟩, h.admits, h.spent⟩
  rw [List.append_assoc, List.cons_append]

/-- Calls that are admitted may come first. -/
theorem Refuses.prepend {first : List (Call β σ)} (hfirst : limits.Admits first)
    (h : (limits.after first).Refuses calls before c message) :
    limits.Refuses (first ++ calls) (first ++ before) c message := by
  obtain ⟨later, rfl⟩ := h.split
  refine ⟨⟨later, ?_⟩, admits_append.2 ⟨hfirst, h.admits⟩, ?_⟩
  · rw [List.append_assoc]
  · obtain ⟨⟨remaining, text⟩, hl, hlimit⟩ := Option.map_eq_some_iff.1 h.spent
    obtain ⟨hremaining, rfl⟩ := Limit.mk.inj hlimit
    have := hfirst c.kind _ hl
    rw [hl, countCalls_append]
    simp only at hremaining this
    have : remaining = countCalls c.kind first + countCalls c.kind before := by omega
    rw [this]

theorem Refuses.not_admits (h : limits.Refuses calls before c message) : ¬limits.Admits calls := by
  intro hadmits
  obtain ⟨later, rfl⟩ := h.split
  have := hadmits c.kind _ h.spent
  have counted := countCalls_singleton c.kind c
  rw [if_pos rfl] at counted
  rw [List.append_cons, countCalls_append, countCalls_append, counted] at this
  simp only at this
  omega

/-- Nothing is left of the limit of the first call. -/
theorem refuses_first {limit : Limit} (hl : limits c.kind = some limit) (h0 : limit.remaining = 0)
    (more : List (Call β σ)) : limits.Refuses (c :: more) [] c limit.message := by
  obtain ⟨remaining, text⟩ := limit
  obtain rfl : remaining = 0 := h0
  exact ⟨⟨more, rfl⟩, admits_nil, hl⟩

theorem admits_singleton (h : ∀ limit, limits c.kind = some limit → 0 < limit.remaining) :
    limits.Admits [c] := by
  intro kind limit hl
  rw [countCalls_singleton]
  split
  · rename_i hkind
    subst hkind
    exact h limit hl
  · exact Nat.zero_le _

end Limits

end

/-! ## One call -/

/-- One call of a kind less. -/
def Limits.spend (limits : Limits) (kind : CallKind) : Limits := fun k =>
  if k = kind then (limits k).map fun limit => { limit with remaining := limit.remaining - 1 }
  else limits k

theorem Limits.after_singleton {β σ : Type} (limits : Limits) (c : Call β σ) :
    limits.after [c] = limits.spend c.kind := by
  funext kind
  unfold after spend
  rw [countCalls_singleton]
  by_cases h : kind = c.kind
  · rw [if_pos h, if_pos h.symm]
  · rw [if_neg h, if_neg (Ne.symm h)]
    cases limits kind <;> rfl

theorem Limit.take?_spent {l : Option Limit} {limit : Limit} (hl : l = some limit)
    (h0 : limit.remaining = 0) : take? l = .error limit.message := by
  obtain ⟨remaining, message⟩ := limit
  obtain rfl : remaining = 0 := h0
  rw [hl]
  rfl

theorem Limit.take?_left {l : Option Limit} (h : ∀ limit, l = some limit → 0 < limit.remaining) :
    take? l = .ok (l.map fun limit => { limit with remaining := limit.remaining - 1 }) := by
  match l with
  | none => rfl
  | some ⟨0, message⟩ => exact absurd (h _ rfl) (Nat.lt_irrefl 0)
  | some ⟨remaining + 1, message⟩ => rfl

section
variable {σ α : Type}

/-- On a host with limits, a request is refused if nothing is left of the limit of its kind, and
otherwise it is served and counted. -/
structure HostRequest.Governed (request : HostRequest) (ask : σ → Except String α × σ)
    (askLimited : Limited σ → Except String α × Limited σ) : Prop where
  refused : ∀ {limits : Limits} {limit} host, limits request.kind = some limit →
    limit.remaining = 0 → askLimited (limits.on host) = (.error limit.message, limits.on host)
  served : ∀ {limits : Limits} host,
    (∀ limit, limits request.kind = some limit → 0 < limit.remaining) →
    askLimited (limits.on host) = ((ask host).1, (limits.spend request.kind).on (ask host).2)

variable [Host σ]

theorem HostRequest.governed_readLine :
    readLine.Governed (Host.readLine (σ := σ)) Host.readLine where
  refused _ hl h0 := Limited.readLine_refused (Limit.take?_spent hl h0)
  served _ h := Limited.readLine_served (Limit.take?_left h)

theorem HostRequest.governed_write (text : String) :
    (write text).Governed (Host.write (σ := σ) text) (Host.write text) where
  refused _ hl h0 := Limited.write_refused (Limit.take?_spent hl h0)
  served _ h := Limited.write_served text (Limit.take?_left h)

theorem HostRequest.governed_shell (command : String) :
    (shell command).Governed (Host.shell (σ := σ) command) (Host.shell command) where
  refused _ hl h0 := Limited.shell_refused (Limit.take?_spent hl h0)
  served _ h := Limited.shell_served command (Limit.take?_left h)

end

/-! ## One operation -/

section
variable {β σ ν α : Type} [Bindings β ν] [Host σ]

/-- An operation does the same under limits as without, if the limits admit its call. Otherwise it
fails with the message of the limit, and the machine is left as it was. -/
def Operation.CutShort (o : Operation ν) (limits : Limits) (m : Machine β σ) : Prop :=
  (limits.Admits (o.calls m) ∧ o.perform.run (m.limited limits) =
    (o.perform.run m).mapMachine (Machine.limited (limits.after (o.calls m)))) ∨
  ∃ c limit, o.calls m = [c] ∧ c.before = m ∧ limits c.kind = some limit ∧ limit.remaining = 0 ∧
    o.perform.run (m.limited limits) =
      .halted (.error (.fault (.host limit.message))) (m.limited limits)

theorem Operation.cutShort_of_silent {o : Operation ν} {limits : Limits} {m : Machine β σ}
    (hcalls : o.calls m = []) (hrun : o.perform.run (m.limited limits) =
      (o.perform.run m).mapMachine (Machine.limited limits)) : o.CutShort limits m := by
  refine .inl ?_
  rw [hcalls, Limits.after_nil]
  exact ⟨Limits.admits_nil, hrun⟩

theorem Operation.cutShort_of_governed {o : Operation ν} {m : Machine β σ} (request : HostRequest)
    {ask : σ → Except String o.Answer × σ}
    {askLimited : Limited σ → Except String o.Answer × Limited σ}
    (h : request.Governed ask askLimited) (limits : Limits) (hcalls : o.calls m = [⟨request, m⟩])
    (hrun : o.perform.run m = Machine.answer m.bindings m.draws (ask m.host))
    (hlimited : o.perform.run (m.limited limits) =
      Machine.answer m.bindings m.draws (askLimited (limits.on m.host))) : o.CutShort limits m := by
  by_cases hspent : ∃ limit, limits request.kind = some limit ∧ limit.remaining = 0
  · obtain ⟨limit, hl, h0⟩ := hspent
    refine .inr ⟨_, limit, hcalls, rfl, hl, h0, ?_⟩
    rw [hlimited, h.refused m.host hl h0]
    rfl
  · have left : ∀ limit, limits request.kind = some limit → 0 < limit.remaining :=
      fun limit hl => Nat.pos_of_ne_zero fun h0 => hspent ⟨limit, hl, h0⟩
    refine .inl ?_
    rw [hcalls, Limits.after_singleton, hlimited, hrun, h.served m.host left]
    refine ⟨Limits.admits_singleton left, ?_⟩
    obtain ⟨_ | _, host⟩ := ask m.host <;> rfl

theorem Operation.cutShort (o : Operation ν) (limits : Limits) (m : Machine β σ) :
    o.CutShort limits m := by
  cases o with
  | lookup x =>
    refine cutShort_of_silent rfl ?_
    have same : (m.limited limits).bindings = m.bindings := rfl
    rw [perform, perform, Machine.run_lookup, Machine.run_lookup, same]
    cases Bindings.value? m.bindings x <;> rfl
  | load source =>
    refine cutShort_of_silent rfl ?_
    rw [perform, perform, Machine.run_load, Machine.run_load]
    dsimp only
    cases (parse source).result <;> rfl
  | assign | draw => exact cutShort_of_silent rfl rfl
  | readLine =>
    exact cutShort_of_governed .readLine HostRequest.governed_readLine limits rfl rfl rfl
  | write text =>
    exact cutShort_of_governed (.write text) (HostRequest.governed_write text) limits rfl rfl rfl
  | dump value =>
    let text := value.dump (Bindings.nameOf β)
    exact cutShort_of_governed (.write text) (HostRequest.governed_write text) limits rfl rfl rfl
  | shell command =>
    have governed := HostRequest.governed_shell (σ := σ) command
    exact cutShort_of_governed (.shell command) governed limits rfl rfl rfl

/-! ## Whole runs -/

/-- A plan that makes these calls and comes to this outcome does the same under limits, if they
admit all of the calls. Otherwise it fails with the message of the limit that is exceeded first, on
the machine as it was before the call that does. -/
def Plan.CutShort (plan : Plan ν α) (limits : Limits) (m : Machine β σ) (calls : List (Call β σ))
    (out : Outcome (Machine β σ) α) : Prop :=
  (limits.Admits calls ∧ ∃ made, plan.Follows (m.limited limits) made
    (out.mapMachine (Machine.limited (limits.after calls)))) ∨
  ∃ before c message, limits.Refuses calls before c message ∧ ∃ made,
    plan.Follows (m.limited limits) made
      (.halted (.error (.fault (.host message))) (c.before.limited (limits.after before)))

/-- A plan is cut short at once if its first operation makes a call that is refused. -/
theorem Plan.cutShort_of_refused {o : Operation ν} {limits : Limits} {c : Call β σ} {limit : Limit}
    (next : o.Answer → Plan ν α) (hcalls : o.calls c.before = [c])
    (hl : limits c.kind = some limit) (h0 : limit.remaining = 0)
    (hrun : o.perform.run (c.before.limited limits) =
      .halted (.error (.fault (.host limit.message))) (c.before.limited limits))
    (later : List (Call β σ)) (out : Outcome (Machine β σ) α) :
    (ask o next).CutShort limits c.before (o.calls c.before ++ later) out := by
  rw [hcalls]
  refine .inr ⟨[], c, limit.message, Limits.refuses_first hl h0 later,
    o.calls (c.before.limited limits), ?_⟩
  rw [Limits.after_nil]
  exact .refused hrun

/-- A plan is cut short where the rest of it is, if what comes before makes admitted calls only. -/
theorem Plan.CutShort.prepend {plan rest : Plan ν α} {limits : Limits} {m m₁ : Machine β σ}
    {calls later : List (Call β σ)} {out : Outcome (Machine β σ) α} (hadmits : limits.Admits calls)
    (h : rest.CutShort (limits.after calls) m₁ later out)
    (hfirst : ∀ {made out'}, rest.Follows (m₁.limited (limits.after calls)) made out' →
      ∃ made, plan.Follows (m.limited limits) made out') :
    plan.CutShort limits m (calls ++ later) out := by
  rcases h with ⟨hlater, _, hmade⟩ | ⟨before, c, message, hrefuses, _, hmade⟩
  · refine .inl ⟨Limits.admits_append.2 ⟨hadmits, hlater⟩, ?_⟩
    rw [Limits.after_append]
    exact hfirst hmade
  · refine .inr ⟨calls ++ before, c, message, hrefuses.prepend hadmits, ?_⟩
    rw [Limits.after_append]
    exact hfirst hmade

theorem Plan.Follows.cutShort {plan : Plan ν α} {m : Machine β σ} {calls : List (Call β σ)}
    {out : Outcome (Machine β σ) α} (h : plan.Follows m calls out) (limits : Limits) :
    plan.CutShort limits m calls out := by
  induction h generalizing limits with
  | done a m =>
    refine .inl ⟨Limits.admits_nil, [], ?_⟩
    rw [Limits.after_nil]
    exact .done a _
  | halt e m =>
    refine .inl ⟨Limits.admits_nil, [], ?_⟩
    rw [Limits.after_nil]
    exact .halt e _
  | @asked _ o next answer m m₁ later out answered _ ih =>
    rcases o.cutShort limits m with ⟨hadmits, hrun⟩ | ⟨c, limit, hcalls, rfl, hl, h0, hrun⟩
    · rw [answered] at hrun
      exact (ih (limits.after (o.calls m))).prepend hadmits fun hmade => ⟨_, .asked hrun hmade⟩
    · exact cutShort_of_refused next hcalls hl h0 hrun later out
  | @refused _ o next e m m₁ halted =>
    rcases o.cutShort limits m with ⟨hadmits, hrun⟩ | ⟨c, limit, hcalls, rfl, hl, h0, hrun⟩
    · rw [halted] at hrun
      exact .inl ⟨hadmits, _, .refused hrun⟩
    · have short := cutShort_of_refused next hcalls hl h0 hrun [] (.halted e m₁)
      rw [List.append_nil] at short
      exact short
  | @awaited _ a next answer m m₁ calls later out _ _ ih₁ ih₂ =>
    rcases ih₁ limits with ⟨hadmits, made₁, hmade₁⟩ | ⟨before, c, message, hrefuses, made, hmade⟩
    · exact (ih₂ (limits.after calls)).prepend hadmits fun hmade₂ => ⟨_, .awaited hmade₁ hmade₂⟩
    · -- What was to follow is cut off as well.
      exact .inr ⟨before, c, message, hrefuses.append later, made, .broken hmade⟩
  | broken _ ih =>
    rcases ih limits with ⟨hadmits, made, hmade⟩ | ⟨before, c, message, hrefuses, made, hmade⟩
    · exact .inl ⟨hadmits, made, .broken hmade⟩
    · exact .inr ⟨before, c, message, hrefuses, made, .broken hmade⟩

/-! ## Runs under limits -/

open Plan in
/-- Limits truncate. An activity that comes to an outcome, such as the run of a source, makes the
same calls in the same order whatever the fuel. If limits admit them all, it comes to the same
outcome under these limits, and leaves the same variables, the same host and the same draws.
Otherwise there is a first call `c` that exceeds its limit: under the limits, the activity then
fails with the message of this limit, on the machine as it was immediately before `c`. What has been
written by then is what the calls before `c` wrote, and the rest of what is written without limits
is missing. -/
theorem Activity.limits_truncate {a : Activity ν} {m : Machine β σ} {fuel : Nat}
    {out : Outcome (Machine β σ) a.Answer} (h : (a.within fuel).run m = out)
    (hout : out ≠ .unfinished) (limits : Limits) :
    ∃ calls, (∀ calls' out', a.Runs m calls' out' ↔ calls' = calls ∧ out' = out) ∧
      (limits.Admits calls → ∃ n, (a.within n).run (m.limited limits) =
        out.mapMachine (Machine.limited (limits.after calls))) ∧
      (¬limits.Admits calls → ∃ before c later limit, calls = before ++ c :: later ∧
        limits.Admits before ∧ limits c.kind = some limit ∧
        countCalls c.kind before = limit.remaining ∧
        (∃ n, (a.within n).run (m.limited limits) =
          .halted (.error (.fault (.host limit.message)))
            (c.before.limited (limits.after before))) ∧
        ∀ output : σ → String, Host.Records output →
          output c.before.host = output m.host ++ writtenText before ∧
          ∀ m', out.machine? = some m' →
            output m'.host = output c.before.host ++ writtenText (c :: later)) := by
  obtain ⟨calls, hruns⟩ := runs_iff_within.2 ⟨hout, fuel, h⟩
  refine ⟨calls, fun calls' out' => ⟨fun h' => Follows.unique hruns h', ?_⟩, fun hadmits => ?_,
    fun hexceeds => ?_⟩
  · rintro ⟨rfl, rfl⟩
    exact hruns
  · -- Limits that admit all calls refuse none of them.
    rcases Follows.cutShort hruns limits with ⟨-, hmade⟩ | ⟨before, c, message, hrefuses, -⟩
    · exact (runs_iff_within.1 hmade).2
    · exact absurd hadmits hrefuses.not_admits
  · rcases Follows.cutShort hruns limits with ⟨hadmits, -⟩ | ⟨before, c, message, hrefuses, hmade⟩
    · exact absurd hadmits hexceeds
    · obtain ⟨later, hsplit⟩ := hrefuses.split
      refine ⟨before, c, later, _, hsplit, hrefuses.admits, hrefuses.spent, rfl,
        (runs_iff_within.1 hmade).2, fun output hrecords => ?_⟩
      obtain ⟨hrecorded, hwritten⟩ := Follows.accounts hrecords hruns
      rw [hsplit] at hrecorded hwritten
      have here : output c.before.host = output m.host ++ writtenText before :=
        (recorded_append.1 hrecorded).2.1
      refine ⟨here, fun m' hm' => ?_⟩
      rw [hwritten m' hm', here, writtenText_append, String.append_assoc]

end

/-- `D 1` writes twice. If only the first of these calls is admitted, the term has been written when
the run fails, and the end of the line has not. -/
theorem Activity.dump_truncated :
    let dump : Activity String := .evaluate (.unary .dump (.lit (.number 1)))
    let m : Machine Store Scripted := ⟨∅, {}, Draws.seeded 0⟩
    let limits : Limits := fun kind => if kind = .write then some ⟨1, "disk full"⟩ else none
    ∃ out, (dump.within 2).run m = out ∧ out ≠ .unfinished ∧ ∃ n m',
      (dump.within n).run (m.limited limits) =
        .halted (.error (.fault (.host "disk full"))) m' ∧ m'.host.host.output = "Number(1)" := by
  intro dump m limits
  let m₁ : Machine Store Scripted := ⟨∅, { output := "Number(1)" }, Draws.seeded 0⟩
  let m₂ : Machine Store Scripted := ⟨∅, { output := "Number(1)\n" }, Draws.seeded 0⟩
  let out : Outcome (Machine Store Scripted) dump.Answer := .value (Term.lit (.number 1)) m₂
  let calls : List (Call Store Scripted) := [⟨.write "Number(1)", m⟩, ⟨.write "\n", m₁⟩]
  have value : (dump.within 2).run m = out := rfl
  have finished : out ≠ .unfinished := nofun
  have one : Activity.Runs (.evaluate (.lit (.number 1))) m [] (.value (Term.lit (.number 1)) m) :=
    .done _ m
  have wrote : (Operation.dump (Term.lit (.number 1))).perform.run m = .value () m₁ := rfl
  have ended : (Operation.write (ν := String) "\n").perform.run m₁ = .value () m₂ := rfl
  have runs : dump.Runs m calls out := .awaited one (.asked wrote (.asked ended (.done _ m₂)))
  refine ⟨out, value, finished, ?_⟩
  obtain ⟨calls', hcalls, -, hexceeds⟩ := limits_truncate value finished limits
  obtain ⟨rfl, -⟩ := (hcalls _ _).1 runs
  have exceeds : ¬limits.Admits calls := fun hadmits => absurd (hadmits .write _ rfl) (by decide)
  obtain ⟨before, c, later, limit, hsplit, -, hlimit, hcount, ⟨n, hn⟩, haccount⟩ :=
    hexceeds exceeds
  have written := (haccount Scripted.output Scripted.records).1
  match before, hsplit with
  | [], hsplit =>
    obtain ⟨rfl, -⟩ := List.cons.inj hsplit
    cases hlimit
    cases hcount
  | [_], hsplit =>
    obtain ⟨rfl, behind⟩ := List.cons.inj hsplit
    obtain ⟨rfl, -⟩ := List.cons.inj behind
    cases hlimit
    exact ⟨n, _, hn, written⟩
  | _ :: _ :: _, hsplit =>
    have behind := (List.cons.inj (List.cons.inj hsplit).2).2
    cases List.append_ne_nil_of_right_ne_nil _ (List.cons_ne_nil c later) behind.symm

end KnightLang
