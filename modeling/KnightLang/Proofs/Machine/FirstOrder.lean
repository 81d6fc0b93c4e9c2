/-
Programs that always come to an end. A term is of first order if nothing in it loops, runs text as a
program or keeps code unevaluated. As long as its variables hold literals only, its evaluation makes
literals only, so that no code can come up that was not there before: `C` and coercions find nothing
more to evaluate, and the variables go on to hold literals. The height of the term then bounds the
levels of evaluation (`Term.first_order_settles`).
-/
import KnightLang.Proofs.Machine.Confinement
import KnightLang.Proofs.Machine.Forcing

namespace KnightLang

open EvalM

/-! ## Terms of first order -/

/-- The number of terms on the way from a term to its deepest part. -/
def Term.height {ν : Type} : Term ν → Nat
  | lit _ => 1
  | var _ => 1
  | nullary _ => 1
  | unary _ a => a.height + 1
  | binary _ a b => max a.height b.height + 1
  | ternary _ a b c => max a.height (max b.height c.height) + 1
  | quaternary _ a b c d => max (max a.height b.height) (max c.height d.height) + 1

theorem Term.height_pos {ν : Type} (t : Term ν) : 0 < t.height := by
  cases t <;> simp [height]

theorem Term.height_lt_of_mem_args {ν : Type} {t a : Term ν} (h : a ∈ t.args) :
    a.height < t.height := by
  cases t <;> simp only [args, List.mem_cons, List.not_mem_nil, or_false] at h <;>
    simp only [height] <;> grind

/-- All variables of a term have names in `V`, and nothing in it loops, runs text as a program or
keeps code unevaluated. -/
structure Term.FirstOrder (V : Set String) (t : Term String) : Prop where
  confined : t.Confined V
  noBlock : ∀ a, ¬(Term.unary .block a).Occurs t
  noLoop : ∀ a b, ¬(Term.binary .loop a b).Occurs t

/-- The names in `V` have no values but literals. -/
def Store.HoldsLiterals (V : Set String) (store : Store) : Prop :=
  ∀ x ∈ V, ∀ t, store.value? x = some t → t.isLiteral = true

section
variable {V : Set String} {t a : Term String}

theorem Term.FirstOrder.arg (ht : t.FirstOrder V) (ha : a ∈ t.args) : a.FirstOrder V :=
  ⟨ht.confined.arg ha, fun b hb => ht.noBlock b (.arg ha hb),
    fun b c hb => ht.noLoop b c (.arg ha hb)⟩

theorem Term.FirstOrder.of_args (hvar : ∀ x, t = .var x → x ∈ V)
    (heval : ∀ a, t ≠ .unary .eval a) (hblock : ∀ a, t ≠ .unary .block a)
    (hloop : ∀ a b, t ≠ .binary .loop a b) (hargs : ∀ a ∈ t.args, a.FirstOrder V) :
    t.FirstOrder V where
  confined := .of_args hvar heval fun a ha => (hargs a ha).confined
  noBlock a ha := by
    cases ha with
    | self => exact hblock a rfl
    | arg hb ha => exact (hargs _ hb).noBlock a ha
  noLoop a b hab := by
    cases hab with
    | self => exact hloop a b rfl
    | arg hc hab => exact (hargs _ hc).noLoop a b hab

theorem Term.firstOrder_lit (l : Literal) : (Term.lit l).FirstOrder V :=
  .of_args (by simp) (by simp) (by simp) (by simp) (by simp [args])

theorem Store.HoldsLiterals.assign {store : Store} (h : store.HoldsLiterals V) (x : String)
    {v : Term String} (hv : v.isLiteral = true) : (store.assign x v).HoldsLiterals V := by
  intro y hy t ht
  rw [value?_assign] at ht
  split at ht
  · cases ht
    exact hv
  · exact h y hy t ht

end

/-! ## Outcomes that are there -/

section
variable {μ α γ : Type} {P : α → Prop} {Q : μ → Prop} {m : μ}

/-- An outcome is a value that satisfies `P` or a halt, and leaves a machine that satisfies `Q`. -/
def Outcome.Settles (P : α → Prop) (Q : μ → Prop) : Outcome μ α → Prop
  | value a m => P a ∧ Q m
  | halted _ m => Q m
  | unfinished => False

theorem Outcome.Settles.bind {x : EvalM μ α} {f : α → EvalM μ γ} {P' : γ → Prop}
    (hx : (x.run m).Settles P Q) (hf : ∀ a m', P a → Q m' → ((f a).run m').Settles P' Q) :
    ((x >>= f).run m).Settles P' Q := by
  rw [run_bind]
  cases hr : x.run m with
  | value a m' =>
    rw [hr] at hx
    exact hf a m' hx.1 hx.2
  | halted h m' =>
    rw [hr] at hx
    exact hx
  | unfinished =>
    rw [hr] at hx
    exact hx

theorem Outcome.settles_ofFault (result : Except Fault α) (hm : Q m) :
    ((EvalM.ofFault result).run m).Settles (fun _ => True) Q := by
  cases result with
  | ok a => exact ⟨trivial, hm⟩
  | error f => exact hm

theorem Outcome.settles_ofHalt (result : Except Halt α) (hm : Q m) :
    ((EvalM.ofHalt result).run m).Settles (fun _ => True) Q := by
  cases result with
  | ok a => exact ⟨trivial, hm⟩
  | error e => exact hm

end

/-! ## Coercions of terms that come to literals -/

section
variable {μ ν α : Type} {Q : μ → Prop} {ev : Term ν → EvalM μ (Term ν)} {t : Term ν}

/-- From every machine that satisfies `Q`, a term comes to a literal or halts, and leaves such a
machine. -/
def Term.ComesToLiteral (ev : Term ν → EvalM μ (Term ν)) (Q : μ → Prop) (t : Term ν) : Prop :=
  ∀ m, Q m → ((ev t).run m).Settles (·.isLiteral = true) Q

theorem coerce_settles_of_isLiteral (ht : t.isLiteral = true) (read : Literal → α) (n : Nat) {m : μ}
    (hm : Q m) : ((coerce read ev n t).run m).Settles (fun _ => True) Q := by
  cases t with
  | lit l =>
    rw [coerce_eq_force, force_lit]
    exact ⟨trivial, hm⟩
  | _ => cases ht

/-- One round is enough for a coercion. -/
theorem Term.ComesToLiteral.coerce (ht : t.ComesToLiteral ev Q) (read : Literal → α) {n : Nat}
    (hn : 0 < n) {m : μ} (hm : Q m) :
    ((KnightLang.coerce read ev n t).run m).Settles (fun _ => True) Q := by
  obtain ⟨n, rfl⟩ := Nat.exists_eq_add_of_lt hn
  cases t with
  | lit l => exact coerce_settles_of_isLiteral rfl read _ hm
  | _ =>
    exact (ht m hm).bind fun value m' hvalue hm' =>
      coerce_settles_of_isLiteral hvalue read _ hm'

theorem operate_settles (op : Arith) (l r : Literal) (steps n : Nat) {m : μ} (hm : Q m) :
    ((operate ev steps op (.lit r) n (.lit l)).run m).Settles (fun _ => True) Q := by
  rw [operate_eq_force, force_lit, pure_bind, operateOn_eq_force]
  split
  · rw [force_lit, pure_bind]
    exact Outcome.settles_ofHalt _ hm
  · exact hm

end

/-! ## Operations of the machine -/

section
variable {V : Set String} {σ : Type} {m : Machine Store σ}

/-- The variables of the machine that have names in `V` hold literals only. -/
def Machine.HoldsLiterals (V : Set String) (m : Machine Store σ) : Prop :=
  m.bindings.HoldsLiterals V

theorem lookup_settles {x : String} (hx : x ∈ V) (hm : m.HoldsLiterals V) :
    ((Machine.lookup x).run m).Settles (·.isLiteral = true) (Machine.HoldsLiterals V) := by
  rw [Machine.run_lookup]
  split
  · rename_i value hvalue
    exact ⟨hm x hx value hvalue, hm⟩
  · exact hm

theorem answer_settles {α : Type} (hm : m.HoldsLiterals V) (r : Except String α × σ) :
    (Machine.answer m.bindings m.draws r).Settles (fun _ => True) (Machine.HoldsLiterals V) := by
  obtain ⟨_ | _, host⟩ := r
  · exact hm
  · exact ⟨trivial, hm⟩

variable [Host σ]

theorem writeLine_settles (hm : m.HoldsLiterals V) (text : String) :
    ((Term.writeLine text).run m).Settles (fun _ => True) (Machine.HoldsLiterals V) := by
  unfold Term.writeLine
  split
  · exact answer_settles hm _
  · exact (answer_settles hm _).bind fun _ _ _ hm' => answer_settles hm' _

/-! ## Steps -/

namespace Term

variable {ev : Term String → EvalM (Machine Store σ) (Term String)} {n : Nat}
  {a b c d t : Term String}

theorem nullary_comesToLiteral (f : Nullary) :
    (nullary f).ComesToLiteral (step ev n) (Machine.HoldsLiterals V) := by
  intro m hm
  cases f with
  | prompt => exact (answer_settles hm _).bind fun _ _ _ hm' => ⟨rfl, hm'⟩
  | random => exact ⟨rfl, hm⟩

theorem unary_comesToLiteral {f : Unary} (ht : (unary f a).FirstOrder V) (hn : 0 < n)
    (ha : a.ComesToLiteral ev (Machine.HoldsLiterals V))
    (hlit : ∀ l, (lit l).ComesToLiteral ev (Machine.HoldsLiterals V)) :
    (unary f a).ComesToLiteral (step ev n) (Machine.HoldsLiterals V) := by
  intro m hm
  cases f with
  | eval => exact absurd .self (ht.confined.2 a)
  | block => exact absurd .self (ht.noBlock a)
  | call =>
    -- The code is a literal already.
    refine (ha m hm).bind fun code m' hcode hm' => ?_
    cases code with
    | lit l => exact hlit l m' hm'
    | _ => cases hcode
  | shell =>
    refine (ha.coerce _ hn hm).bind fun command m' _ hm' => ?_
    exact (answer_settles hm' _).bind fun _ _ _ hm₁ => ⟨rfl, hm₁⟩
  | quit => exact (ha.coerce _ hn hm).bind fun _ _ _ hm' => hm'
  | not | length => exact (ha.coerce _ hn hm).bind fun _ _ _ hm' => ⟨rfl, hm'⟩
  | dump =>
    refine (ha m hm).bind fun value m' hvalue hm' => ?_
    refine (answer_settles hm' _).bind fun _ m₁ _ hm₁ => ?_
    exact (answer_settles hm₁ _).bind fun _ _ _ hm₂ => ⟨hvalue, hm₂⟩
  | output =>
    refine (ha.coerce _ hn hm).bind fun s m' _ hm' => ?_
    exact (writeLine_settles hm' s).bind fun _ _ _ hm₁ => ⟨rfl, hm₁⟩

theorem binary_comesToLiteral {f : Binary} (ht : (binary f a b).FirstOrder V)
    (ha : a.ComesToLiteral ev (Machine.HoldsLiterals V))
    (hb : b.ComesToLiteral ev (Machine.HoldsLiterals V)) :
    (binary f a b).ComesToLiteral (step ev n) (Machine.HoldsLiterals V) := by
  intro m hm
  cases f with
  | arith op =>
    refine (ha m hm).bind fun left m₁ hleft hm₁ => (hb m₁ hm₁).bind fun right m₂ hright hm₂ => ?_
    cases left with
    | lit l =>
      cases right with
      | lit r =>
        rw [map_eq_pure_bind]
        exact (operate_settles op l r n n hm₂).bind fun _ _ _ hm₃ => ⟨rfl, hm₃⟩
      | _ => cases hright
    | _ => cases hleft
  | equal =>
    exact (ha m hm).bind fun left m₁ _ hm₁ => (hb m₁ hm₁).bind fun right m₂ _ hm₂ => ⟨rfl, hm₂⟩
  | less | greater =>
    refine (ha m hm).bind fun left m₁ _ hm₁ => (hb m₁ hm₁).bind fun right m₂ _ hm₂ => ?_
    exact (Outcome.settles_ofFault _ hm₂).bind fun _ _ _ hm₃ => ⟨rfl, hm₃⟩
  | and =>
    refine (ha m hm).bind fun left m₁ hleft hm₁ => ?_
    refine (coerce_settles_of_isLiteral hleft _ n hm₁).bind fun truth m₂ _ hm₂ => ?_
    cases truth with
    | true => exact hb m₂ hm₂
    | false => exact ⟨hleft, hm₂⟩
  | or =>
    refine (ha m hm).bind fun left m₁ hleft hm₁ => ?_
    refine (coerce_settles_of_isLiteral hleft _ n hm₁).bind fun truth m₂ _ hm₂ => ?_
    cases truth with
    | true => exact ⟨hleft, hm₂⟩
    | false => exact hb m₂ hm₂
  | seq => exact (ha m hm).bind fun _ m₁ _ hm₁ => hb m₁ hm₁
  | assign =>
    cases a with
    | var x =>
      exact (hb m hm).bind fun value m₁ hvalue hm₁ =>
        ⟨hvalue, Store.HoldsLiterals.assign hm₁ x hvalue⟩
    | _ => exact hm
  | loop => exact absurd .self (ht.noLoop a b)

theorem ternary_comesToLiteral (f : Ternary) (hn : 0 < n)
    (ha : a.ComesToLiteral ev (Machine.HoldsLiterals V))
    (hb : b.ComesToLiteral ev (Machine.HoldsLiterals V))
    (hc : c.ComesToLiteral ev (Machine.HoldsLiterals V)) :
    (ternary f a b c).ComesToLiteral (step ev n) (Machine.HoldsLiterals V) := by
  intro m hm
  cases f with
  | branch =>
    refine (ha.coerce _ hn hm).bind fun truth m₁ _ hm₁ => ?_
    cases truth with
    | true => exact hb m₁ hm₁
    | false => exact hc m₁ hm₁
  | slice =>
    refine (ha.coerce _ hn hm).bind fun s m₁ _ hm₁ => ?_
    refine (hb.coerce _ hn hm₁).bind fun start m₂ _ hm₂ => ?_
    refine (hc.coerce _ hn hm₂).bind fun length m₃ _ hm₃ => ?_
    exact (Outcome.settles_ofFault _ hm₃).bind fun _ _ _ hm₄ => ⟨rfl, hm₄⟩

theorem quaternary_comesToLiteral (f : Quaternary) (hn : 0 < n)
    (ha : a.ComesToLiteral ev (Machine.HoldsLiterals V))
    (hb : b.ComesToLiteral ev (Machine.HoldsLiterals V))
    (hc : c.ComesToLiteral ev (Machine.HoldsLiterals V))
    (hd : d.ComesToLiteral ev (Machine.HoldsLiterals V)) :
    (quaternary f a b c d).ComesToLiteral (step ev n) (Machine.HoldsLiterals V) := by
  intro m hm
  cases f with
  | splice =>
    refine (ha.coerce _ hn hm).bind fun s m₁ _ hm₁ => ?_
    refine (hb.coerce _ hn hm₁).bind fun start m₂ _ hm₂ => ?_
    refine (hc.coerce _ hn hm₂).bind fun length m₃ _ hm₃ => ?_
    refine (hd.coerce _ hn hm₃).bind fun replacement m₄ _ hm₄ => ?_
    exact (Outcome.settles_ofFault _ hm₄).bind fun _ _ _ hm₅ => ⟨rfl, hm₅⟩

/-- As many levels of evaluation as a term of first order is high are enough for it. -/
theorem eval_comesToLiteral (ht : t.FirstOrder V) (hn : t.height ≤ n) :
    t.ComesToLiteral (eval (σ := σ) n) (Machine.HoldsLiterals V) := by
  induction n generalizing t with
  | zero => exact absurd t.height_pos (by omega)
  | succ n ih =>
    have args : ∀ a ∈ t.args,
        0 < n ∧ a.ComesToLiteral (eval (σ := σ) n) (Machine.HoldsLiterals V) := by
      intro a ha
      have lower := height_lt_of_mem_args ha
      have pos := a.height_pos
      exact ⟨by omega, ih (ht.arg ha) (by omega)⟩
    cases t with
    | lit l => exact fun m hm => ⟨rfl, hm⟩
    | var x => exact fun m hm => lookup_settles (ht.confined.1 x .self) hm
    | nullary f => exact nullary_comesToLiteral f
    | unary f a =>
      obtain ⟨pos, ha⟩ := args a (by simp [Term.args])
      exact unary_comesToLiteral ht pos ha fun l => ih (firstOrder_lit l) pos
    | binary f a b =>
      exact binary_comesToLiteral ht (args a (by simp [Term.args])).2
        (args b (by simp [Term.args])).2
    | ternary f a b c =>
      obtain ⟨pos, ha⟩ := args a (by simp [Term.args])
      exact ternary_comesToLiteral f pos ha (args b (by simp [Term.args])).2
        (args c (by simp [Term.args])).2
    | quaternary f a b c d =>
      obtain ⟨pos, ha⟩ := args a (by simp [Term.args])
      exact quaternary_comesToLiteral f pos ha (args b (by simp [Term.args])).2
        (args c (by simp [Term.args])).2 (args d (by simp [Term.args])).2

end Term

/-! ## One term after another -/

/-- A term of first order over `V` is evaluated or coerced, with any fuel, and leaves a machine. -/
inductive Machine.Turns (V : Set String) : Machine Store σ → Machine Store σ → Prop
  | evaluated {t : Term String} {n : Nat} {m m' : Machine Store σ} : t.FirstOrder V →
      ((t.eval n).run m).machine? = some m' → Turns V m m'
  | coerced {t : Term String} {w : Want} {n : Nat} {m m' : Machine Store σ} : t.FirstOrder V →
      (((Activity.coerce w t).within n).run m).machine? = some m' → Turns V m m'

variable {t : Term String} {n : Nat} {m' : Machine Store σ}

theorem Activity.coerce_settles (ht : t.FirstOrder V) (hn : t.height ≤ n) (w : Want)
    (hm : m.HoldsLiterals V) : (((Activity.coerce w t).within n).run m).Settles (fun _ => True)
      (Machine.HoldsLiterals V) :=
  (Term.eval_comesToLiteral ht hn).coerce w.read (Nat.lt_of_lt_of_le t.height_pos hn) hm

/-- Less fuel than what an activity settles with leaves the same machine or none. -/
theorem Activity.machine_of_settles {a : Activity String} {k : Nat} {P : a.Answer → Prop}
    {Q : Machine Store σ → Prop} (hk : n ≤ k) (h : ((a.within k).run m).Settles P Q)
    (hm' : ((a.within n).run m).machine? = some m') : Q m' := by
  have more := within_extends (β := Store) (σ := σ) hk a
  cases hr : (a.within n).run m with
  | value answer m₁ =>
    rw [hr] at hm'
    rw [more.run_eq hr nofun] at h
    cases hm'
    exact h.2
  | halted e m₁ =>
    rw [hr] at hm'
    rw [more.run_eq hr nofun] at h
    cases hm'
    exact h
  | unfinished =>
    rw [hr] at hm'
    cases hm'

theorem Machine.Turns.holdsLiterals (h : m.Turns V m') (hm : m.HoldsLiterals V) :
    m'.HoldsLiterals V := by
  cases h with
  | @evaluated t n _ _ ht hm' =>
    have settles := Term.eval_comesToLiteral ht (Nat.le_max_right n t.height) m hm
    exact Activity.machine_of_settles (a := .evaluate t) (Nat.le_max_left ..) settles hm'
  | @coerced t w n _ _ ht hm' =>
    have settles := Activity.coerce_settles ht (Nat.le_max_right n t.height) w hm
    exact Activity.machine_of_settles (Nat.le_max_left ..) settles hm'

/-- Without loops, text run as a program and unevaluated code, evaluation comes to an end. From a
machine on which the names in `V` have no values but literals, and after any number of evaluations
and coercions of terms of first order over `V`, such a term comes to a literal or halts, within as
many levels of evaluation as it is high, and so does every coercion of it. The names in `V` have no
values but literals then. -/
theorem Term.first_order_settles (hm : m.HoldsLiterals V)
    (hturns : Relation.ReflTransGen (Machine.Turns V) m m') (ht : t.FirstOrder V)
    (hn : t.height ≤ n) :
    ((t.eval n).run m').Settles (·.isLiteral = true) (Machine.HoldsLiterals V) ∧
    ∀ w, (((Activity.coerce w t).within n).run m').Settles (fun _ => True)
      (Machine.HoldsLiterals V) := by
  have held : m'.HoldsLiterals V := by
    induction hturns with
    | refl => exact hm
    | tail _ turn ih => exact turn.holdsLiterals ih
  exact ⟨eval_comesToLiteral ht hn m' held, fun w => Activity.coerce_settles ht hn w held⟩

/-- `= x * x x`, and then `+ C x 1`, where `y` holds a loop that never ends. -/
theorem Term.square_settles :
    let V : Set String := {y | y = "x"}
    let x : Term String := .var "x"
    let forever : Term String := .binary .loop (.lit (.bool true)) (.lit .null)
    let square : Term String := .binary .assign x (.binary (.arith .multiply) x x)
    let t : Term String := .binary (.arith .add) (.unary .call x) (.lit (.number 1))
    let store : Store := Store.assign (Store.assign ∅ "y" forever) "x" (.lit (.number 2))
    let m : Machine Store Scripted := ⟨store, {}, Draws.seeded 0⟩
    let m₁ : Machine Store Scripted := ⟨store.assign "x" (.lit (.number 4)), {}, Draws.seeded 0⟩
    m.HoldsLiterals V ∧ square.FirstOrder V ∧
      (square.eval 3).run m = .value (.lit (.number 4)) m₁ ∧ t.FirstOrder V ∧ t.height = 3 ∧
      ((t.eval 3).run m₁).Settles (·.isLiteral = true) (Machine.HoldsLiterals V) ∧
      ∀ w, (((Activity.coerce w t).within 3).run m₁).Settles (fun _ => True)
        (Machine.HoldsLiterals V) := by
  intro V x forever square t store m m₁
  have hx : x.FirstOrder V :=
    .of_args (fun _ h => (Term.var.inj h).symm) (by simp [x]) (by simp [x]) (by simp [x])
      (by simp [x, args])
  have product : (Term.binary (.arith .multiply) x x).FirstOrder V :=
    .of_args (by simp) (by simp) (by simp) (by simp) (by simpa [args] using hx)
  have hsquare : square.FirstOrder V :=
    .of_args (by simp [square]) (by simp [square]) (by simp [square]) (by simp [square])
      (by simpa [square, args] using ⟨hx, product⟩)
  have call : (Term.unary .call x).FirstOrder V :=
    .of_args (by simp) (by simp) (by simp) (by simp) (by simpa [args] using hx)
  have ht : t.FirstOrder V :=
    .of_args (by simp [t]) (by simp [t]) (by simp [t]) (by simp [t])
      (by simpa [t, args] using ⟨call, firstOrder_lit _⟩)
  have hm : m.HoldsLiterals V := by
    rintro y rfl value hvalue
    cases hvalue
    rfl
  have run : (square.eval 3).run m = .value (.lit (.number 4)) m₁ := rfl
  have turn : m.Turns V m₁ := .evaluated hsquare (by rw [run]; rfl)
  exact ⟨hm, hsquare, run, ht, rfl, first_order_settles hm (.single turn) ht (Nat.le_refl 3)⟩

end

end KnightLang
