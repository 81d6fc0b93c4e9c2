/-
What filler is, without the function that skips it: a sequence of blanks, punctuation and
comments, each comment closed by its newline. Skipping takes the whole filler in front and stops
at a character that is none, or reaches the end of the source, where one comment may stay open.
-/
import KnightLang.Source.Filler
import Mathlib.Data.List.Basic

namespace KnightLang.Source

/-! ## The grammar of filler -/

/-- A sequence of blanks, punctuation and comments that end with their line. -/
inductive Filler : List Char → Prop
  | nil : Filler []
  | char {c : Char} {cs : List Char} : isFiller c = true → Filler cs → Filler (c :: cs)
  | comment {text cs : List Char} : '\n' ∉ text → Filler cs → Filler ('#' :: text ++ '\n' :: cs)

/-- Whether a character is skipped where it starts a piece of filler. -/
def startsFiller (c : Char) : Bool := c == '#' || isFiller c

theorem Filler.startsFiller_head {f : List Char} {c : Char} {cs : List Char} (h : Filler f)
    (hf : f = c :: cs) : startsFiller c = true := by
  unfold startsFiller
  cases h with
  | nil => cases hf
  | char hc _ => cases hf; simp [hc]
  | comment _ _ => cases hf; rfl

/-! ## Skipping -/

theorem isFiller_hash : isFiller '#' = false := by decide

theorem isFiller_newline : isFiller '\n' = true := by decide

/-- A comment is skipped up to its newline, and the newline is filler of its own. -/
theorem skipFrom_comment {text : List Char} (h : '\n' ∉ text) (cs : List Char) :
    skipFrom true (text ++ '\n' :: cs) = skipFiller cs := by
  induction text with
  | nil => rfl
  | cons c text ih =>
    rw [List.mem_cons, not_or] at h
    have hc : (c != '\n') = true := by simpa using Ne.symm h.1
    rw [List.cons_append, skipFrom, if_pos rfl, hc]
    exact ih h.2

theorem skipFrom_openComment {text : List Char} (h : '\n' ∉ text) : skipFrom true text = [] := by
  induction text with
  | nil => rfl
  | cons c text ih =>
    rw [List.mem_cons, not_or] at h
    have hc : (c != '\n') = true := by simpa using Ne.symm h.1
    rw [skipFrom, if_pos rfl, hc]
    exact ih h.2

theorem skipFiller_hash (cs : List Char) : skipFiller ('#' :: cs) = skipFrom true cs := by
  simp [skipFiller, skipFrom]

theorem skipFiller_char {c : Char} (h : isFiller c = true) (cs : List Char) :
    skipFiller (c :: cs) = skipFiller cs := by
  have hc : c ≠ '#' := by
    rintro rfl
    rw [isFiller_hash] at h
    cases h
  simp [skipFiller, skipFrom, hc, h]

/-- Nothing is skipped in front of any other character. -/
theorem skipFiller_of_not_startsFiller {c : Char} (h : startsFiller c = false) (cs : List Char) :
    skipFiller (c :: cs) = c :: cs := by
  simp only [startsFiller, Bool.or_eq_false_iff, beq_eq_false_iff_ne] at h
  simp [skipFiller, skipFrom, h.1, h.2]

/-- Filler in front of a source makes no difference. -/
theorem skipFiller_append {f : List Char} (h : Filler f) (cs : List Char) :
    skipFiller (f ++ cs) = skipFiller cs := by
  induction h with
  | nil => rfl
  | char hc _ ih => rw [List.cons_append, skipFiller_char hc, ih]
  | @comment text g ht _ ih =>
    rw [List.append_assoc, List.cons_append, List.cons_append, skipFiller_hash,
      skipFrom_comment ht, ih]

theorem skipFiller_openComment {f text : List Char} (h : Filler f) (ht : '\n' ∉ text) :
    skipFiller (f ++ '#' :: text) = [] := by
  rw [skipFiller_append h, skipFiller_hash, skipFrom_openComment ht]

/-- A source is its filler, followed by a character that is none, or by nothing, or by a comment
that is still open at the end. -/
theorem exists_filler (cs : List Char) : ∃ f rest, cs = f ++ rest ∧ Filler f ∧
    ((∃ c start, rest = c :: start ∧ startsFiller c = false) ∨
      rest = [] ∨ ∃ text, rest = '#' :: text ∧ '\n' ∉ text) := by
  induction hn : cs.length using Nat.strongRecOn generalizing cs with
  | ind n ih =>
    subst hn
    cases cs with
    | nil => exact ⟨[], [], rfl, .nil, .inr (.inl rfl)⟩
    | cons c cs =>
      by_cases hc : c = '#'
      · subst hc
        -- A comment ends with its line, or is open at the end of the source.
        by_cases hnl : '\n' ∈ cs
        · obtain ⟨text, after, rfl, ht⟩ := List.eq_append_cons_of_mem hnl
          obtain ⟨f, rest, rfl, hf, hrest⟩ := ih after.length (by simp; omega) after rfl
          exact ⟨'#' :: text ++ '\n' :: f, rest, by simp, .comment ht hf, hrest⟩
        · exact ⟨[], '#' :: cs, rfl, .nil, .inr (.inr ⟨cs, rfl, hnl⟩)⟩
      · by_cases hfc : isFiller c = true
        · obtain ⟨f, rest, rfl, hf, hrest⟩ := ih cs.length (by simp) cs rfl
          exact ⟨c :: f, rest, rfl, .char hfc hf, hrest⟩
        · exact ⟨[], c :: cs, rfl, .nil, .inl ⟨c, cs, rfl, by simp [startsFiller, hc, hfc]⟩⟩

end KnightLang.Source
