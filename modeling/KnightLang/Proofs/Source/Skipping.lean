/-
Skipping is exact. `Skippable` says of some characters, and of what follows them, that they are a
sequence of blanks, punctuation and comments; what is skipped of a source is the longest such part
in front of it. Skipping in rounds, a comment or a run of blanks and punctuation at a time
(`skipRound?`), comes to an end, and comes to the same (`skipping_exact`).
-/
import KnightLang.Proofs.Source.Filler

namespace KnightLang.Source

/-! ## What can be skipped -/

/-- Blanks, punctuation and comments, in front of some other characters. A comment goes on up to a
newline, or to the end of the source. -/
inductive Skippable : List Char → List Char → Prop
  | nil {rest : List Char} : Skippable [] rest
  | char {c : Char} {cs rest : List Char} : isFiller c = true → Skippable cs rest →
      Skippable (c :: cs) rest
  | comment {text cs rest : List Char} : '\n' ∉ text → (∀ c ∈ (cs ++ rest).head?, c = '\n') →
      Skippable cs rest → Skippable ('#' :: text ++ cs) rest

/-- A comment in front of a newline, or of nothing, makes no difference. -/
theorem skipFiller_comment {text cs : List Char} (h : '\n' ∉ text)
    (hcs : ∀ c ∈ cs.head?, c = '\n') : skipFiller ('#' :: text ++ cs) = skipFiller cs := by
  rw [List.cons_append, skipFiller_hash]
  cases cs with
  | nil =>
    rw [List.append_nil, skipFrom_openComment h]
    rfl
  | cons c cs =>
    obtain rfl : c = '\n' := hcs c rfl
    rw [skipFrom_comment h, skipFiller_char isFiller_newline]

section
variable {cs rest : List Char}

theorem Skippable.skipFiller_append (h : Skippable cs rest) :
    skipFiller (cs ++ rest) = skipFiller rest := by
  induction h with
  | nil => rfl
  | char hc _ ih => rw [List.cons_append, skipFiller_char hc, ih]
  | comment ht hend _ ih => rw [List.append_assoc, skipFiller_comment ht hend, ih]

/-- Closed comments stay what they are whatever follows. -/
theorem Filler.skippable_append {f : List Char} (hf : Filler f) (h : Skippable cs rest) :
    Skippable (f ++ cs) rest := by
  induction hf with
  | nil => exact h
  | char hc _ ih => exact .char hc ih
  | @comment text f ht _ ih =>
    rw [List.append_assoc]
    refine .comment ht (fun c hc => ?_) (.char isFiller_newline ih)
    cases hc
    rfl

/-- What is skipped can be skipped. -/
theorem exists_skippable (cs : List Char) :
    ∃ skipped, cs = skipped ++ skipFiller cs ∧ Skippable skipped (skipFiller cs) := by
  obtain ⟨f, rest, rfl, hf, ⟨c, start, rfl, hc⟩ | rfl | ⟨text, rfl, ht⟩⟩ := exists_filler cs
  · have hskip : skipFiller (f ++ c :: start) = c :: start := by
      rw [skipFiller_append hf, skipFiller_of_not_startsFiller hc]
    rw [hskip]
    exact ⟨f, rfl, List.append_nil f ▸ hf.skippable_append .nil⟩
  · have hskip : skipFiller (f ++ []) = [] := skipFiller_append hf []
    rw [hskip]
    exact ⟨f, rfl, List.append_nil f ▸ hf.skippable_append .nil⟩
  · rw [skipFiller_openComment hf ht]
    refine ⟨f ++ '#' :: text, (List.append_nil _).symm, hf.skippable_append ?_⟩
    have comment : Skippable ('#' :: text ++ []) [] := .comment ht nofun .nil
    rwa [List.append_nil] at comment

/-- No more can be skipped than is skipped. -/
theorem Skippable.isPrefix {skipped : List Char} (h : Skippable cs rest)
    (hskipped : cs ++ rest = skipped ++ skipFiller (cs ++ rest)) : cs <+: skipped := by
  rw [h.skipFiller_append] at hskipped
  obtain ⟨between, hrest⟩ := skipFiller_isSuffix rest
  rw [← hrest, ← List.append_assoc, hrest] at hskipped
  exact ⟨between, List.append_cancel_right hskipped⟩

/-- What is left does not start with anything that is skipped. -/
theorem startsFiller_skipFiller (cs : List Char) :
    ∀ c ∈ (skipFiller cs).head?, startsFiller c = false := by
  obtain ⟨f, rest, rfl, hf, ⟨c, start, rfl, hc⟩ | rfl | ⟨text, rfl, ht⟩⟩ := exists_filler cs
  · rw [skipFiller_append hf, skipFiller_of_not_startsFiller hc]
    intro d hd
    cases hd
    exact hc
  · rw [skipFiller_append hf]
    exact nofun
  · rw [skipFiller_openComment hf ht]
    exact nofun

theorem skipFiller_eq_self (h : ∀ c ∈ cs.head?, startsFiller c = false) : skipFiller cs = cs := by
  cases cs with
  | nil => rfl
  | cons c cs => exact skipFiller_of_not_startsFiller (h c rfl) cs

/-- If a newline follows every `#`, then no comment is open at the end. -/
theorem Skippable.of_closed (h : Skippable cs [])
    (hclosed : ∀ before after, cs = before ++ '#' :: after → '\n' ∈ after) (rest : List Char) :
    Skippable cs rest := by
  generalize hempty : ([] : List Char) = empty at h
  induction h with
  | nil => exact .nil
  | @char c cs _ hc _ ih =>
    refine .char hc (ih (fun before after hcut => ?_) hempty)
    exact hclosed (c :: before) after (congrArg (c :: ·) hcut)
  | @comment text cs _ ht hend _ ih =>
    subst hempty
    refine .comment ht ?_ (ih (fun before after hcut => ?_) rfl)
    · -- The newline behind the comment is still there.
      rw [List.append_nil] at hend
      cases cs with
      | nil => exact absurd (hclosed [] text (List.append_nil _)) ht
      | cons c cs => exact hend
    · refine hclosed ('#' :: text ++ before) after ?_
      rw [hcut, List.append_assoc]

end

/-! ## Skipping in rounds -/

/-- One round of skipping: a comment, or else a run of blanks and punctuation. -/
def skipRound? : List Char → Option (List Char)
  | [] => none
  | c :: cs =>
    if c = '#' then some (cs.dropWhile (· != '\n'))
    else if isFiller c then some (cs.dropWhile isFiller)
    else none

/-- Rounds of skipping up to the first place where there is nothing to skip. -/
inductive Rounds : List Char → List Char → Prop
  | done {cs : List Char} : skipRound? cs = none → Rounds cs cs
  | round {cs next rest : List Char} : skipRound? cs = some next → Rounds next rest →
      Rounds cs rest

theorem skipFiller_dropWhile (cs : List Char) :
    skipFiller (cs.dropWhile isFiller) = skipFiller cs := by
  induction cs with
  | nil => rfl
  | cons c cs ih =>
    by_cases hc : isFiller c = true
    · rw [List.dropWhile_cons_of_pos hc, ih, skipFiller_char hc]
    · rw [List.dropWhile_cons_of_neg hc]

theorem skipFrom_dropWhile (cs : List Char) :
    skipFrom true cs = skipFiller (cs.dropWhile (· != '\n')) := by
  induction cs with
  | nil => rfl
  | cons c cs ih =>
    by_cases hc : (c != '\n') = true
    · rw [skipFrom, if_pos rfl, hc, ih, List.dropWhile_cons, if_pos hc]
    · rw [List.dropWhile_cons, if_neg hc]
      obtain rfl : c = '\n' := by simpa using hc
      rw [skipFiller_char isFiller_newline]
      rfl

section
variable {cs next : List Char}

/-- A round takes some of what is skipped. -/
theorem skipRound?_some (h : skipRound? cs = some next) :
    skipFiller next = skipFiller cs ∧ next <:+ cs ∧ next.length < cs.length := by
  unfold skipRound? at h
  split at h
  · cases h
  · rename_i c cs
    have shorter (p : Char → Bool) :
        cs.dropWhile p <:+ c :: cs ∧ (cs.dropWhile p).length < (c :: cs).length := by
      have := List.dropWhile_suffix (l := cs) p
      exact ⟨this.trans (List.suffix_cons c cs), Nat.lt_succ_of_le this.length_le⟩
    split at h
    · rename_i hc
      cases h
      rw [hc, skipFiller_hash, skipFrom_dropWhile]
      exact ⟨rfl, hc ▸ shorter _⟩
    · split at h
      · rename_i hc
        cases h
        rw [skipFiller_char hc, skipFiller_dropWhile]
        exact ⟨rfl, shorter _⟩
      · cases h

theorem skipRound?_eq_none_iff :
    skipRound? cs = none ↔ ∀ c ∈ cs.head?, startsFiller c = false := by
  cases cs with
  | nil => simp [skipRound?]
  | cons c cs =>
    by_cases hc : c = '#' <;> simp [skipRound?, startsFiller, hc]

end

theorem rounds_skipFiller (cs : List Char) : Rounds cs (skipFiller cs) := by
  induction hn : cs.length using Nat.strongRecOn generalizing cs with
  | ind n ih =>
    subst hn
    cases hround : skipRound? cs with
    | none =>
      rw [skipFiller_eq_self (skipRound?_eq_none_iff.1 hround)]
      exact .done hround
    | some next =>
      obtain ⟨hskip, -, hlength⟩ := skipRound?_some hround
      exact .round hround (hskip ▸ ih next.length hlength next rfl)

theorem Rounds.eq_skipFiller {cs rest : List Char} (h : Rounds cs rest) :
    rest = skipFiller cs := by
  induction h with
  | done hround => exact (skipFiller_eq_self (skipRound?_eq_none_iff.1 hround)).symm
  | round hround _ ih => exact ih.trans (skipRound?_some hround).1

/-! ## The laws of skipping -/

/-- Skipping is exact. In rounds it comes to an end, and comes to one place only. What it takes is a
sequence of blanks, punctuation and comments, and the longest one in front of the source. It stops
at the end of the source, or before a character that is neither blank nor punctuation nor `#`, and
from there it takes nothing. If the source is such a sequence itself, and a newline follows every
`#` in it, then it makes no difference in front of another text. -/
theorem skipping_exact (cs : List Char) :
    (∀ rest, Rounds cs rest ↔ rest = skipFiller cs) ∧
    (∃ skipped, cs = skipped ++ skipFiller cs ∧ Skippable skipped (skipFiller cs) ∧
      ∀ front rest, cs = front ++ rest → Skippable front rest → front <+: skipped) ∧
    (∀ c ∈ (skipFiller cs).head?, Text.isBlank c = false ∧ c ∉ punctuation ∧ c ≠ '#') ∧
    skipFiller (skipFiller cs) = skipFiller cs ∧
    ∀ more, Skippable cs [] → (∀ before after, cs = before ++ '#' :: after → '\n' ∈ after) →
      skipFiller (cs ++ more) = skipFiller more := by
  have stops := startsFiller_skipFiller cs
  refine ⟨fun rest => ⟨Rounds.eq_skipFiller, fun h => h ▸ rounds_skipFiller cs⟩, ?_, ?_,
    skipFiller_eq_self stops, fun more h hclosed => (h.of_closed hclosed more).skipFiller_append⟩
  · obtain ⟨skipped, hcut, hskipped⟩ := exists_skippable cs
    refine ⟨skipped, hcut, hskipped, ?_⟩
    rintro front rest rfl hfront
    exact hfront.isPrefix hcut
  · intro c hc
    simpa [startsFiller, isFiller, and_comm, and_assoc] using stops c hc

/-- A comment that ends with its line, among blanks and brackets, in front of a number. -/
theorem skipping_closed_comment :
    let front := ['(', '#', 'é', ')', '\n', '[']
    Skippable front [] ∧ (∀ before after, front = before ++ '#' :: after → '\n' ∈ after) ∧
      skipFiller (front ++ [']', ' ', '1']) = skipFiller [']', ' ', '1'] ∧
      skipFiller [']', ' ', '1'] = ['1'] := by
  intro front
  have skippable : Skippable front [] := by
    have newline : ∀ c ∈ ['\n', '['].head?, c = '\n' := by
      intro c hc
      cases hc
      rfl
    have rest : Skippable ['\n', '['] [] := .char rfl (.char rfl .nil)
    have comment : Skippable ('#' :: ['é', ')'] ++ ['\n', '[']) [] :=
      .comment (by decide) newline rest
    exact .char rfl comment
  have closed : ∀ before after, front = before ++ '#' :: after → '\n' ∈ after := by
    rintro (_ | ⟨c, _ | ⟨d, before⟩⟩) after hcut
    · exact absurd (List.cons.inj hcut).1 (by decide)
    · rw [← (List.cons.inj (List.cons.inj hcut).2).2]
      decide
    · -- There is no second `#`.
      have hash : '#' ∈ before ++ '#' :: after := List.mem_append_right _ (List.mem_cons_self ..)
      have hrest : ['é', ')', '\n', '['] = before ++ '#' :: after :=
        (List.cons.inj (List.cons.inj hcut).2).2
      rw [← hrest] at hash
      exact absurd hash (by decide)
  exact ⟨skippable, closed, (skipping_exact front).2.2.2.2 _ skippable closed, rfl⟩

end KnightLang.Source
