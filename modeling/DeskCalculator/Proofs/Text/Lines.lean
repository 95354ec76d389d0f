import DeskCalculator.Proofs.Text.Words

/-!
# The lines of composed texts

A newline cuts a text in two (`pieces_append_newline`).  What is a line of the first
part may be another one in the whole text, since only there a newline follows: it loses
a carriage return at its end, or is an empty line where there was none.  Neither
matters to the words of the lines, so whatever depends on words alone is the same over
the lines of a text as over its pieces (`map_filledLines`).
-/

namespace DeskCalculator
namespace Text

/-! ## Pieces -/

theorem pieces_ne_nil (text : List Char) : pieces text ≠ [] := by
  cases text with
  | nil => simp [pieces]
  | cons c text =>
    rw [pieces]
    split
    · simp
    · split <;> simp

/-- **Pieces split at a newline.** -/
theorem pieces_append_newline (text other : List Char) :
    pieces (text ++ '\n' :: other) = pieces text ++ pieces other := by
  induction text with
  | nil => simp [pieces]
  | cons c text ih =>
    by_cases hc : c = '\n'
    · simp [pieces, hc, ih]
    · obtain ⟨piece, later, hpieces⟩ := List.exists_cons_of_ne_nil (pieces_ne_nil text)
      simp [pieces, hc, ih, hpieces]

theorem pieces_of_no_newline {text : List Char} (h : '\n' ∉ text) : pieces text = [text] := by
  induction text with
  | nil => rfl
  | cons c text ih =>
    rw [List.mem_cons, not_or] at h
    obtain ⟨hc, htext⟩ := h
    rw [pieces, if_neg (Ne.symm hc), ih htext]

/-! ## Blank lines -/

/-- A blank line has no words. -/
theorem isBlankLine_eq_false {text : List Char} (h : words text ≠ []) :
    isBlankLine text = false := by
  cases hblank : isBlankLine text with
  | false => rfl
  | true =>
    have hwords : words (text ++ []) = words [] :=
      words_append_blanks (List.all_eq_true.1 hblank) []
    rw [List.append_nil] at hwords
    exact absurd hwords h

/-! ## Lines -/

/-- A text without newlines is a line, if it is not empty. -/
theorem lines_of_no_newline {text : List Char} (hne : text ≠ []) (h : '\n' ∉ text) :
    lines text = [text] := by
  rw [lines, pieces_of_no_newline h, linesOfPieces]
  simp [hne]

/-- At most a carriage return is dropped, which is blank. -/
theorem eq_dropReturn (piece : List Char) :
    piece = dropReturn piece ∨ piece = dropReturn piece ++ ['\r'] := by
  unfold dropReturn
  split
  · rename_i hlast
    obtain ⟨start, rfl⟩ := List.getLast?_eq_some_iff.1 hlast
    simp
  · exact .inl rfl

theorem words_dropReturn (piece : List Char) : words (dropReturn piece) = words piece := by
  rcases eq_dropReturn piece with h | h
  · rw [← h]
  · conv => rhs; rw [h]
    rw [words_append_singleton (by decide)]

theorem isBlankLine_dropReturn (piece : List Char) :
    isBlankLine (dropReturn piece) = isBlankLine piece := by
  have hreturn : isBlank '\r' = true := by decide
  rcases eq_dropReturn piece with h | h
  · rw [← h]
  · conv => rhs; rw [h]
    simp [isBlankLine, hreturn]

/-- The lines of a text that are not blank. -/
def filledLines (text : List Char) : List (List Char) :=
  (lines text).filter fun l => !isBlankLine l

/-- **What depends on words alone is the same over lines and pieces.** -/
theorem map_filledLines {α : Type} {f : List Char → α}
    (hf : ∀ line other, words line = words other → f line = f other) (text : List Char) :
    (filledLines text).map f =
      ((pieces text).filter fun piece => !isBlankLine piece).map f := by
  rw [filledLines, lines]
  generalize pieces text = ps
  induction ps with
  | nil => rfl
  | cons piece later ih =>
    cases later with
    | nil =>
      -- the last piece is a line unless it is empty, and then it is blank
      cases piece <;> simp [linesOfPieces, isBlankLine]
    | cons next later =>
      have hlines : linesOfPieces (piece :: next :: later) =
          dropReturn piece :: linesOfPieces (next :: later) := rfl
      rw [hlines, List.filter_cons, List.filter_cons, isBlankLine_dropReturn]
      split
      · rw [List.map_cons, List.map_cons, ih, hf _ _ (words_dropReturn piece)]
      · exact ih

end Text
end DeskCalculator
