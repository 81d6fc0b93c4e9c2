/-
Line and column as coordinates. From one character to the next, a position goes on in its line or to
the start of the next one (`Position.before_concat`), and by induction on the characters in between
it comes before every later one. So in a source whose characters 32 bits can count, line and column
tell places apart as bytes do (`Position.coordinates`).
-/
import KnightLang.Proofs.Source.Failure

namespace KnightLang

namespace Position

/-! ## One character further -/

section
variable {c : Char} (before : List Char)

theorem currentLine_concat (h : c ≠ '\n') :
    currentLine (before ++ [c]) = currentLine before ++ [c] := by
  have hc : (c != '\n') = true := by simpa using h
  rw [currentLine, List.reverse_concat, List.takeWhile_cons, if_pos hc, List.reverse_cons,
    currentLine]

theorem currentLine_newline : currentLine (before ++ ['\n']) = [] := by
  rw [currentLine, List.reverse_concat, List.takeWhile_cons]
  rfl

theorem length_currentLine_le : (currentLine before).length ≤ before.length := by
  obtain ⟨ended, hcut, -, -⟩ := exists_ended before
  have := congrArg List.length hcut
  rw [List.length_append] at this
  omega

/-- Behind any other character than a newline, the line is the same. -/
theorem line_concat (h : c ≠ '\n') : (locate (before ++ [c])).line = (locate before).line := by
  have count : (before ++ [c]).count '\n' = before.count '\n' := by
    rw [List.count_append, List.count_singleton, if_neg (by simpa using h), Nat.add_zero]
  simp only [locate, count]

/-- Behind a newline, a new line starts. -/
theorem column_newline : (locate (before ++ ['\n'])).column = 1 := by
  simp only [locate, currentLine_newline]
  rfl

/-! ## Counters that do not wrap -/

variable {before}

theorem toNat_line (h : before.length < 0xFFFFFFFF) :
    (locate before).line.toNat = 1 + before.count '\n' :=
  toNat_counted (Nat.lt_of_le_of_lt List.count_le_length h)

theorem toNat_column (h : before.length < 0xFFFFFFFF) :
    (locate before).column.toNat = 1 + (currentLine before).length :=
  toNat_counted (Nat.lt_of_le_of_lt (length_currentLine_le before) h)

end

/-! ## The order of positions -/

/-- Whether a position is in an earlier line, or further to the left in the same one. -/
def Before (p q : Position) : Prop := p.line < q.line ∨ p.line = q.line ∧ p.column < q.column

theorem Before.trans {p q r : Position} (h : p.Before q) (h' : q.Before r) : p.Before r := by
  unfold Before at *
  rw [UInt32.lt_iff_toNat_lt, UInt32.lt_iff_toNat_lt, ← UInt32.toNat_inj] at *
  omega

theorem not_before_of_eq {p q : Position} (hline : p.line = q.line)
    (hcolumn : p.column = q.column) : ¬ p.Before q := by
  unfold Before
  rw [hline, hcolumn, UInt32.lt_iff_toNat_lt, UInt32.lt_iff_toNat_lt]
  omega

theorem toNat_column_concat {before : List Char} {c : Char} (hc : c ≠ '\n')
    (h : (before ++ [c]).length < 0xFFFFFFFF) :
    (locate (before ++ [c])).column.toNat = (locate before).column.toNat + 1 := by
  have hbefore : before.length < 0xFFFFFFFF := by
    rw [List.length_append] at h
    omega
  rw [toNat_column h, toNat_column hbefore, currentLine_concat before hc, List.length_append,
    List.length_singleton, Nat.add_assoc]

theorem toNat_line_newline {before : List Char} (h : (before ++ ['\n']).length < 0xFFFFFFFF) :
    (locate (before ++ ['\n'])).line.toNat = (locate before).line.toNat + 1 := by
  have hbefore : before.length < 0xFFFFFFFF := by
    rw [List.length_append] at h
    omega
  rw [toNat_line h, toNat_line hbefore, List.count_append, List.count_singleton_self,
    Nat.add_assoc]

theorem before_concat {before : List Char} {c : Char} (h : (before ++ [c]).length < 0xFFFFFFFF) :
    (locate before).Before (locate (before ++ [c])) := by
  by_cases hc : c = '\n'
  · subst hc
    refine .inl ?_
    rw [UInt32.lt_iff_toNat_lt, toNat_line_newline h]
    exact Nat.lt_succ_self _
  · refine .inr ⟨(line_concat before hc).symm, ?_⟩
    rw [UInt32.lt_iff_toNat_lt, toNat_column_concat hc h]
    exact Nat.lt_succ_self _

/-- A position comes before all that are behind further characters. -/
theorem before_append {before between : List Char} (hne : between ≠ [])
    (h : (before ++ between).length < 0xFFFFFFFF) :
    (locate before).Before (locate (before ++ between)) := by
  induction between generalizing before with
  | nil => exact absurd rfl hne
  | cons c between ih =>
    rw [List.append_cons] at h ⊢
    have hstep : (before ++ [c]).length < 0xFFFFFFFF := by
      rw [List.length_append] at h
      omega
    have step := before_concat hstep
    cases between with
    | nil =>
      rw [List.append_nil]
      exact step
    | cons d between => exact step.trans (ih (List.cons_ne_nil _ _) h)

/-! ## Places in a source -/

section
variable {source : String}

/-- The position of a place between two characters of a source, or at an end of it. -/
def ofPlace (p : source.Pos) : Position := locate (source.sliceTo p).copy.toList

theorem ofPlace_of_splits {p : source.Pos} {before behind : String} (h : p.Splits before behind) :
    ofPlace p = locate before.toList := by
  rw [ofPlace, h.eq_left p.splits]

theorem ofPlace_offset (p : source.Pos) : (ofPlace p).offset = p.offset.byteIdx := by
  simp only [ofPlace, locate]
  rw [String.ofList_toList, p.splits.offset_eq_rawEndPos, String.byteIdx_rawEndPos]

/-- Of two places, one cuts off the text before the other, and some characters more. -/
theorem exists_between {p q : source.Pos} (h : p < q) : ∃ between ≠ [],
    (source.sliceTo q).copy.toList = (source.sliceTo p).copy.toList ++ between := by
  have hp := p.splits
  have hq := q.splits
  have fewer : (source.sliceTo p).copy.utf8ByteSize < (source.sliceTo q).copy.utf8ByteSize := by
    rw [String.Pos.lt_iff, String.Pos.Raw.lt_iff, hp.offset_eq_rawEndPos, hq.offset_eq_rawEndPos,
      String.byteIdx_rawEndPos, String.byteIdx_rawEndPos] at h
    exact h
  have cuts := congrArg String.toList (hp.eq_append.symm.trans hq.eq_append)
  rw [String.toList_append, String.toList_append] at cuts
  obtain ⟨between, hqp, -⟩ | ⟨between, hpq, -⟩ := List.append_eq_append_iff.1 cuts
  · refine ⟨between, ?_, hqp⟩
    rintro rfl
    rw [List.append_nil, String.toList_inj] at hqp
    rw [hqp] at fewer
    exact absurd fewer (Nat.lt_irrefl _)
  · -- The other way round, the earlier place would have more bytes before it.
    have more := congrArg String.ofList hpq
    rw [String.ofList_append, String.ofList_toList, String.ofList_toList] at more
    rw [more, String.utf8ByteSize_append] at fewer
    omega

theorem length_before_lt (h : source.length < 0xFFFFFFFF) (p : source.Pos) :
    (source.sliceTo p).copy.toList.length < 0xFFFFFFFF := by
  have whole := congrArg String.length p.splits.eq_append
  rw [String.length_append] at whole
  rw [String.length_toList]
  omega

theorem before_of_lt (h : source.length < 0xFFFFFFFF) {p q : source.Pos} (hpq : p < q) :
    (ofPlace p).Before (ofPlace q) := by
  obtain ⟨between, hne, hcut⟩ := exists_between hpq
  have hq := length_before_lt h q
  rw [hcut] at hq
  rw [ofPlace, ofPlace, hcut]
  exact before_append hne hq

theorem ofPlace_next {p : source.Pos} (hp : p ≠ source.endPos) :
    ofPlace (p.next hp) = locate ((source.sliceTo p).copy.toList ++ [p.get hp]) := by
  rw [ofPlace_of_splits (String.Pos.splits_next p hp), String.toList_append,
    String.toList_singleton]

/-- Line and column are faithful coordinates of the places in a source whose characters 32 bits can
count. A position has the bytes before its place as its offset. The positions of two places are
ordered by line and column as the places are, so two places with the same line and column are one.
Behind a character that is no newline, the line is the same and the column is one more; behind a
newline, the line is one more and the column is one. Neither counter wraps: they are the numbers of
the newlines before the place and of the characters since the last of these, and one. -/
theorem coordinates (h : source.length < 0xFFFFFFFF) :
    (∀ p : source.Pos, (ofPlace p).offset = p.offset.byteIdx) ∧
    (∀ p q : source.Pos, p < q → (ofPlace p).Before (ofPlace q)) ∧
    (∀ p q : source.Pos, (ofPlace p).line = (ofPlace q).line →
      (ofPlace p).column = (ofPlace q).column → p = q) ∧
    (∀ (p : source.Pos) (hp : p ≠ source.endPos), p.get hp ≠ '\n' →
      (ofPlace (p.next hp)).line.toNat = (ofPlace p).line.toNat ∧
        (ofPlace (p.next hp)).column.toNat = (ofPlace p).column.toNat + 1) ∧
    (∀ (p : source.Pos) (hp : p ≠ source.endPos), p.get hp = '\n' →
      (ofPlace (p.next hp)).line.toNat = (ofPlace p).line.toNat + 1 ∧
        (ofPlace (p.next hp)).column.toNat = 1) ∧
    ∀ p : source.Pos, (ofPlace p).Marks (source.sliceTo p).copy := by
  have apart {p q : source.Pos} (hpq : p < q) (hline : (ofPlace p).line = (ofPlace q).line)
      (hcolumn : (ofPlace p).column = (ofPlace q).column) : False :=
    not_before_of_eq hline hcolumn (before_of_lt h hpq)
  have short {p : source.Pos} (hp : p ≠ source.endPos) :
      ((source.sliceTo p).copy.toList ++ [p.get hp]).length < 0xFFFFFFFF := by
    have next := length_before_lt h (p.next hp)
    rwa [(p.next hp).splits.eq_left (String.Pos.splits_next p hp), String.toList_append,
      String.toList_singleton] at next
  refine ⟨ofPlace_offset, fun p q hpq => before_of_lt h hpq, fun p q hline hcolumn => ?_,
    fun p hp hc => ?_, fun p hp hc => ?_, fun p => ?_⟩
  · rcases Nat.lt_trichotomy p.offset.byteIdx q.offset.byteIdx with hpq | heq | hqp
    · exact (apart hpq hline hcolumn).elim
    · exact String.Pos.ext (String.Pos.Raw.ext heq)
    · exact (apart hqp hline.symm hcolumn.symm).elim
  · rw [ofPlace_next hp]
    exact ⟨congrArg UInt32.toNat (line_concat _ hc), toNat_column_concat hc (short hp)⟩
  · have hshort := short hp
    rw [ofPlace_next hp]
    rw [hc] at hshort ⊢
    exact ⟨toNat_line_newline hshort, congrArg UInt32.toNat (column_newline _)⟩
  · refine marks_locate ?_
    rw [← String.length_toList]
    exact length_before_lt h p

end

/-- In `é`, a newline and `z`, the newline is two bytes and one column behind the start, and `z`
starts the second line. -/
theorem coordinates_two_lines :
    let source := "é\nz"
    let newline : source.Pos := source.startPos.next (by decide)
    let z : source.Pos := newline.next (by decide)
    source.length < 0xFFFFFFFF ∧ (ofPlace newline).offset = 2 ∧
      source.startPos < z ∧ (ofPlace source.startPos).Before (ofPlace z) ∧
      (ofPlace newline).column.toNat = (ofPlace source.startPos).column.toNat + 1 ∧
      (ofPlace z).line.toNat = (ofPlace newline).line.toNat + 1 ∧ (ofPlace z).column.toNat = 1 ∧
      (ofPlace z).Marks "é\n" := by
  intro source newline z
  have short : source.length < 0xFFFFFFFF := by decide
  have later : source.startPos < z := by decide
  obtain ⟨hoffset, hbefore, -, hcharacter, hnewline, hmarks⟩ := coordinates short
  obtain ⟨-, hcolumn⟩ := hcharacter source.startPos (by decide) (by decide)
  obtain ⟨hline, hfirst⟩ := hnewline newline (by decide) (by decide)
  have front : (source.sliceTo z).copy = "é\n" := by decide
  exact ⟨short, (hoffset newline).trans (by decide), later, hbefore _ _ later, hcolumn, hline,
    hfirst, front ▸ hmarks z⟩

end Position

end KnightLang
