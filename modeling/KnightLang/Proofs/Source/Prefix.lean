/-
Terms as sequences of tokens. The tokens of a term stand in prefix order, and a counter tells where
a term ends: it starts at one and goes up by the arity of each token less one, so it counts the
terms that are still to come. No term starts another one, and any tail of a sequence of terms is a
sequence of terms again.
-/
import KnightLang.Source.Token
import Mathlib.Data.List.Basic

namespace KnightLang

/-! ## Tokens of a term -/

/-- The tokens of a term in prefix order. -/
def Term.tokens : Term String → List Token
  | lit l => [.literal l]
  | var x => [.name x]
  | nullary f => [.builtin (.nullary f)]
  | unary f a => .builtin (.unary f) :: a.tokens
  | binary f a b => .builtin (.binary f) :: (a.tokens ++ b.tokens)
  | ternary f a b c => .builtin (.ternary f) :: (a.tokens ++ (b.tokens ++ c.tokens))
  | quaternary f a b c d =>
    .builtin (.quaternary f) :: (a.tokens ++ (b.tokens ++ (c.tokens ++ d.tokens)))

/-- The number of terms that a token wants behind it. -/
def Token.arity : Token → Nat
  | builtin f => f.arity
  | _ => 0

theorem Term.tokens_ne_nil (t : Term String) : t.tokens ≠ [] := by
  cases t <;> simp [tokens]

theorem Builtin.tokens_of_call? {f : Builtin} {args : List (Term String)} {t : Term String}
    (h : f.call? args = some t) : t.tokens = .builtin f :: args.flatMap Term.tokens := by
  unfold call? at h
  split at h <;> cases h <;> simp [Term.tokens]

theorem Builtin.length_ne_of_call? {f : Builtin} {args : List (Term String)}
    (h : f.call? args = none) : args.length ≠ f.arity := by
  intro hlen
  have := (call?_isSome f args).2 hlen
  rw [h] at this
  cases this

/-- A term is a token followed by as many terms as the token wants. -/
theorem Term.exists_args (t : Term String) :
    ∃ (token : Token) (args : List (Term String)),
      t.tokens = token :: args.flatMap Term.tokens ∧ args.length = token.arity := by
  cases t with
  | lit l => exact ⟨.literal l, [], rfl, rfl⟩
  | var x => exact ⟨.name x, [], rfl, rfl⟩
  | nullary f => exact ⟨.builtin (.nullary f), [], rfl, rfl⟩
  | unary f a => exact ⟨.builtin (.unary f), [a], by simp [tokens], rfl⟩
  | binary f a b => exact ⟨.builtin (.binary f), [a, b], by simp [tokens], rfl⟩
  | ternary f a b c => exact ⟨.builtin (.ternary f), [a, b, c], by simp [tokens], rfl⟩
  | quaternary f a b c d => exact ⟨.builtin (.quaternary f), [a, b, c, d], by simp [tokens], rfl⟩

/-! ## Nodes of a term -/

/-- The number of literals, variables and calls in a term. -/
def Term.nodes {ν : Type} : Term ν → Nat
  | lit _ => 1
  | var _ => 1
  | nullary _ => 1
  | unary _ a => 1 + a.nodes
  | binary _ a b => 1 + a.nodes + b.nodes
  | ternary _ a b c => 1 + a.nodes + b.nodes + c.nodes
  | quaternary _ a b c d => 1 + a.nodes + b.nodes + c.nodes + d.nodes

/-- Every node has one token. -/
theorem Term.length_tokens (t : Term String) : t.tokens.length = t.nodes := by
  induction t with
  | lit | var | nullary => rfl
  | unary f a iha => simp only [tokens, nodes, List.length_cons, iha, Nat.add_comm]
  | binary f a b iha ihb =>
    simp only [tokens, nodes, List.length_cons, List.length_append, iha, ihb]
    omega
  | ternary f a b c iha ihb ihc =>
    simp only [tokens, nodes, List.length_cons, List.length_append, iha, ihb, ihc]
    omega
  | quaternary f a b c d iha ihb ihc ihd =>
    simp only [tokens, nodes, List.length_cons, List.length_append, iha, ihb, ihc, ihd]
    omega

theorem Term.nodes_pos (t : Term String) : 0 < t.nodes := by
  rw [← t.length_tokens]
  exact List.length_pos_iff.2 t.tokens_ne_nil

/-! ## The counter -/

namespace Source

/-- The number of terms that are still to come after some tokens of a term: one, and for each
token as many more as it wants, less the one that it starts. -/
def counter : List Token → Int
  | [] => 1
  | token :: tokens => counter tokens + (token.arity - 1)

@[simp] theorem counter_nil : counter [] = 1 := rfl

theorem counter_cons (t : Token) (u : List Token) : counter (t :: u) = t.arity - 1 + counter u := by
  rw [counter, Int.add_comm]

theorem counter_append (u v : List Token) : counter (u ++ v) = counter u + counter v - 1 := by
  induction u with
  | nil =>
    rw [List.nil_append, counter_nil]
    omega
  | cons t u ih =>
    rw [List.cons_append, counter_cons, counter_cons, ih]
    omega

/-- A term uses up one term. -/
theorem counter_tokens (t : Term String) : counter t.tokens = 0 := by
  induction t with
  | lit | var | nullary => simp [Term.tokens, counter_cons, Token.arity, Builtin.arity]
  | unary f a iha => simp [Term.tokens, counter_cons, Token.arity, Builtin.arity, iha]
  | binary f a b iha ihb =>
    simp [Term.tokens, counter_cons, counter_append, Token.arity, Builtin.arity, iha, ihb]
  | ternary f a b c iha ihb ihc =>
    simp [Term.tokens, counter_cons, counter_append, Token.arity, Builtin.arity, iha, ihb, ihc]
  | quaternary f a b c d iha ihb ihc ihd =>
    simp [Term.tokens, counter_cons, counter_append, Token.arity, Builtin.arity, iha, ihb, ihc, ihd]

theorem counter_flatMap (args : List (Term String)) :
    counter (args.flatMap Term.tokens) = 1 - args.length := by
  induction args with
  | nil => rfl
  | cons a args ih =>
    rw [List.flatMap_cons, counter_append, counter_tokens, ih, List.length_cons]
    omega

/-! ## Where terms end -/

/-- A sequence of tokens starts with at most one term. -/
theorem tokens_append_inj {t t' : Term String} {u v : List Token}
    (h : t.tokens ++ u = t'.tokens ++ v) : t = t' ∧ u = v := by
  induction t generalizing t' u v with
  | lit l => cases t' <;> simp_all [Term.tokens]
  | var x => cases t' <;> simp_all [Term.tokens]
  | nullary f => cases t' <;> simp_all [Term.tokens]
  | unary f a iha =>
    cases t' <;> simp only [Term.tokens, List.cons_append, List.cons.injEq, Token.builtin.injEq,
      Builtin.unary.injEq, reduceCtorEq, false_and] at h
    obtain ⟨rfl, ha⟩ := h
    obtain ⟨rfl, rfl⟩ := iha ha
    exact ⟨rfl, rfl⟩
  | binary f a b iha ihb =>
    cases t' <;> simp only [Term.tokens, List.cons_append, List.append_assoc, List.cons.injEq,
      Token.builtin.injEq, Builtin.binary.injEq, reduceCtorEq, false_and] at h
    obtain ⟨rfl, ha⟩ := h
    obtain ⟨rfl, hb⟩ := iha ha
    obtain ⟨rfl, rfl⟩ := ihb hb
    exact ⟨rfl, rfl⟩
  | ternary f a b c iha ihb ihc =>
    cases t' <;> simp only [Term.tokens, List.cons_append, List.append_assoc, List.cons.injEq,
      Token.builtin.injEq, Builtin.ternary.injEq, reduceCtorEq, false_and] at h
    obtain ⟨rfl, ha⟩ := h
    obtain ⟨rfl, hb⟩ := iha ha
    obtain ⟨rfl, hc⟩ := ihb hb
    obtain ⟨rfl, rfl⟩ := ihc hc
    exact ⟨rfl, rfl⟩
  | quaternary f a b c d iha ihb ihc ihd =>
    cases t' <;> simp only [Term.tokens, List.cons_append, List.append_assoc, List.cons.injEq,
      Token.builtin.injEq, reduceCtorEq, false_and] at h
    obtain ⟨-, ha⟩ := h
    obtain ⟨rfl, hb⟩ := iha ha
    obtain ⟨rfl, hc⟩ := ihb hb
    obtain ⟨rfl, hd⟩ := ihc hc
    obtain ⟨rfl, rfl⟩ := ihd hd
    exact ⟨rfl, rfl⟩

/-- What is left of a sequence of terms after fewer terms starts with a term. -/
theorem exists_term_of_flatMap {args : List (Term String)} {u : List Token}
    {terms : List (Term String)} {v : List Token} (hlen : args.length < terms.length)
    (h : args.flatMap Term.tokens ++ u = terms.flatMap Term.tokens ++ v) :
    ∃ t : Term String, t.tokens <+: u := by
  induction args generalizing terms with
  | nil =>
    obtain ⟨t, terms, rfl⟩ := List.exists_cons_of_ne_nil (List.ne_nil_of_length_pos hlen)
    refine ⟨t, terms.flatMap Term.tokens ++ v, ?_⟩
    rw [List.flatMap_nil, List.nil_append, List.flatMap_cons, List.append_assoc] at h
    exact h.symm
  | cons a args ih =>
    cases terms with
    | nil => cases hlen
    | cons t terms =>
      rw [List.flatMap_cons, List.flatMap_cons, List.append_assoc, List.append_assoc] at h
      obtain ⟨-, hrest⟩ := tokens_append_inj h
      exact ih (Nat.lt_of_succ_lt_succ hlen) hrest

/-- A tail of a sequence of terms is a sequence of terms. -/
theorem exists_terms_of_suffix {terms : List (Term String)} {u v : List Token}
    (h : terms.flatMap Term.tokens = u ++ v) :
    ∃ rest : List (Term String), v = rest.flatMap Term.tokens := by
  induction u generalizing terms with
  | nil => exact ⟨terms, h.symm⟩
  | cons token u ih =>
    cases terms with
    | nil => cases h
    | cons t terms =>
      -- The first token of a term gives way to the arguments that it wants.
      obtain ⟨token', args, ht, -⟩ := t.exists_args
      rw [List.flatMap_cons, ht, List.cons_append, List.cons_append] at h
      have tail : (args ++ terms).flatMap Term.tokens = u ++ v := by
        rw [List.flatMap_append]
        exact (List.cons.inj h).2
      exact ih tail

end Source

end KnightLang
