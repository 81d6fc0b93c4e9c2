/-
What a run writes. On a host that keeps an account of everything that is written to it, such as a
scripted one, the output of a run is what its calls to write were given, one text after another: a
run never takes back anything, and every call finds exactly what the calls before it wrote
(`Plan.Follows.accounts`).
-/
import KnightLang.Host.Scripted
import KnightLang.Proofs.Machine.Calls

namespace KnightLang

/-! ## Accounts of calls -/

section
variable {β σ : Type}

/-- What calls write, one text after another. -/
def writtenText : List (Call β σ) → String
  | [] => ""
  | c :: calls => c.request.written ++ writtenText calls

/-- On an account that starts with `s`, every call finds what was written before it. -/
def Recorded (output : σ → String) (s : String) : List (Call β σ) → Prop
  | [] => True
  | c :: calls => output c.before.host = s ∧ Recorded output (s ++ c.request.written) calls

theorem writtenText_append (calls more : List (Call β σ)) :
    writtenText (calls ++ more) = writtenText calls ++ writtenText more := by
  induction calls with
  | nil => exact String.empty_append.symm
  | cons c calls ih =>
    rw [List.cons_append, writtenText, writtenText, ih, String.append_assoc]

theorem recorded_append {output : σ → String} {s : String} {calls more : List (Call β σ)} :
    Recorded output s (calls ++ more) ↔
      Recorded output s calls ∧ Recorded output (s ++ writtenText calls) more := by
  induction calls generalizing s with
  | nil =>
    rw [writtenText, String.append_empty]
    exact ⟨fun h => ⟨trivial, h⟩, fun h => h.2⟩
  | cons c calls ih =>
    rw [List.cons_append, Recorded, Recorded, ih, writtenText, String.append_assoc, and_assoc]

/-- An account of everything that was written to a host. -/
structure Host.Records [Host σ] (output : σ → String) : Prop where
  readLine : ∀ host, output (Host.readLine host).2 = output host
  write : ∀ text host, output (Host.write text host).2 = output host ++ text
  shell : ∀ command host, output (Host.shell command host).2 = output host

theorem Scripted.records : Host.Records Scripted.output where
  readLine host := by
    obtain ⟨_ | _, _, _⟩ := host <;> rfl
  write _ _ := rfl
  shell _ _ := rfl

end

/-! ## Accounts of runs -/

section
variable {β σ ν α : Type} [Bindings β ν] [Host σ] {output : σ → String}

/-- An outcome of a run leaves the account with what was written on the way. -/
def Outcome.Accounts (output : σ → String) (m : Machine β σ) (calls : List (Call β σ))
    (out : Outcome (Machine β σ) α) : Prop :=
  Recorded output (output m.host) calls ∧
    ∀ m', out.machine? = some m' → output m'.host = output m.host ++ writtenText calls

theorem Operation.accounts (hout : Host.Records output) (o : Operation ν) (m : Machine β σ) :
    (o.perform.run m).Accounts output m (o.calls m) := by
  -- A call is recorded if the host does so, whether or not it fails.
  have hosted : ∀ (request : HostRequest) {γ : Type} (r : Except String γ × σ),
      output r.2 = output m.host ++ request.written →
      (Machine.answer m.bindings m.draws r).Accounts output m [⟨request, m⟩] := by
    intro request γ r hr
    refine ⟨⟨rfl, trivial⟩, fun m' hm' => ?_⟩
    rw [writtenText, writtenText, String.append_empty, ← hr]
    obtain ⟨_ | _, host⟩ := r <;> (cases hm'; rfl)
  have silent : ∀ {γ : Type} {r : Outcome (Machine β σ) γ},
      (∀ m', r.machine? = some m' → m'.host = m.host) → r.Accounts output m [] := by
    intro γ r hr
    refine ⟨trivial, fun m' hm' => ?_⟩
    rw [hr m' hm', writtenText, String.append_empty]
  cases o with
  | lookup x =>
    refine silent fun m' hm' => ?_
    rw [perform, Machine.run_lookup] at hm'
    split at hm' <;> (cases hm'; rfl)
  | load source =>
    refine silent fun m' hm' => ?_
    rw [perform, Machine.run_load] at hm'
    dsimp only at hm'
    split at hm' <;> (cases hm'; rfl)
  | assign | draw =>
    refine silent fun m' hm' => ?_
    cases hm'
    rfl
  | readLine =>
    refine hosted .readLine _ ?_
    rw [hout.readLine]
    exact String.append_empty.symm
  | write text => exact hosted (.write text) _ (hout.write text m.host)
  | dump value =>
    let text := value.dump (Bindings.nameOf β)
    exact hosted (.write text) _ (hout.write text m.host)
  | shell command =>
    refine hosted (.shell command) _ ?_
    rw [hout.shell]
    exact String.append_empty.symm

omit [Host σ] in
theorem Outcome.Accounts.append {γ : Type} {answer : γ} {m m₁ : Machine β σ}
    {calls later : List (Call β σ)} {out : Outcome (Machine β σ) α}
    (h : (Outcome.value answer m₁).Accounts output m calls)
    (hlater : out.Accounts output m₁ later) : out.Accounts output m (calls ++ later) := by
  have between : output m₁.host = output m.host ++ writtenText calls := h.2 m₁ rfl
  refine ⟨recorded_append.2 ⟨h.1, ?_⟩, fun m' hm' => ?_⟩
  · rw [← between]
    exact hlater.1
  · rw [hlater.2 m' hm', between, writtenText_append, String.append_assoc]

/-- A run writes what its calls write. -/
theorem Plan.Follows.accounts (hout : Host.Records output) {plan : Plan ν α} {m : Machine β σ}
    {calls : List (Call β σ)} {out : Outcome (Machine β σ) α} (h : plan.Follows m calls out) :
    out.Accounts output m calls := by
  induction h with
  | done | halt =>
    refine ⟨trivial, fun m' hm' => ?_⟩
    cases hm'
    rw [writtenText, String.append_empty]
  | @asked _ o _ _ m _ _ _ answered _ ih =>
    have first := o.accounts hout m
    rw [answered] at first
    exact first.append ih
  | @refused _ o _ _ m _ halted =>
    have only := o.accounts hout m
    rw [halted] at only
    exact ⟨only.1, fun m' hm' => only.2 m' hm'⟩
  | awaited _ _ ih₁ ih₂ => exact ih₁.append ih₂
  | broken _ ih => exact ⟨ih.1, fun m' hm' => ih.2 m' hm'⟩

end

end KnightLang
