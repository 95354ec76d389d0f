import DeskCalculator.Proofs.Display.Line

/-!
# Erasing what a key has put

A key puts a letter at the end of the text, or a letter between spaces, or it replaces
the operator at the end (`typed_type?`).  Erasing takes back a letter, and also a letter
with a space on both sides.  The space in front is taken even where the key has not put
it, since the text ended in a space before (`erase_spaced`).  So a key that was appended
is undone unless the text ends in a space both before and after the key
(`erase_press_iff`).
-/

namespace DeskCalculator
namespace Keystroke

open Line (spaced)

variable {text next : List Char} {key c : Char}

/-! ## What a key does -/

/-- What a key that is accepted makes of the text, which is given backward. -/
inductive Typed (text : List Char) : List Char → Prop where
  /-- A sign, digit or point is put at the end. -/
  | letter {c : Char} : c = '-' ∨ isDigitOrPoint c = true → Typed text (c :: text)
  /-- A character is put at the end between spaces. -/
  | spaced (c : Char) : Typed text (spaced c text)
  /-- The operator at the end is replaced. -/
  | replaced (c : Char) {d : Char} {rest : List Char} : text = ' ' :: d :: rest →
      Typed text (' ' :: c :: rest)

theorem gap_of_ne_space (h : ∀ rest, text = ' ' :: rest → False) : gap text = [' '] := by
  unfold gap
  split
  · rename_i rest
    exact (h rest rfl).elim
  · rfl

theorem typed_typeOperator {op : Char} (h : typeOperator text op = some next) :
    Typed text next := by
  have hsign : Typed text ('-' :: text) := .letter (.inl rfl)
  unfold typeOperator at h
  split at h
  · split at h <;> cases h
    exact hsign
  · split at h <;> cases h
    exact hsign
  · split at h
    · cases h
    split at h
    · cases h
    · cases h
      exact .spaced op
    · cases h
      exact .spaced op
    · split at h <;> cases h
      exact hsign
    · split at h <;> cases h
      exact .replaced op rfl
  · rename_i hspace
    cases h
    have htyped : Typed text (spaced op text) := .spaced op
    rwa [spaced, gap_of_ne_space hspace] at htyped

theorem typed_typeOpen (h : typeOpen text = some next) : Typed text next := by
  unfold typeOpen at h
  split at h
  · cases h
    exact .spaced '('
  · split at h <;> cases h
    exact .spaced '('
  · cases h

theorem typed_typeClose (h : typeClose text = some next) : Typed text next := by
  unfold typeClose at h
  split at h
  · split at h <;> cases h
    exact .spaced ')'
  · cases h

theorem typed_typeDigit {digit : Char} (hdigit : isDigitOrPoint digit = true)
    (h : typeDigit text digit = some next) : Typed text next := by
  unfold typeDigit at h
  split at h <;> cases h
  exact .letter (.inr hdigit)

/-- **What a key does to a text.** -/
theorem typed_type? (h : type? text key = some next) : Typed text next := by
  unfold type? at h
  split at h
  · exact typed_typeOperator h
  split at h
  · exact typed_typeClose h
  split at h
  · exact typed_typeOpen h
  split at h
  · rename_i hdigit
    exact typed_typeDigit hdigit h
  · cases h

theorem ne_of_letter {p : Char} (hc : c = '-' ∨ isDigitOrPoint c = true) (hminus : p ≠ '-')
    (hp : isDigitOrPoint p = false) : c ≠ p := by
  rcases hc with rfl | hc
  · exact hminus.symm
  · exact ne_of_isDigitOrPoint hc hp

/-! ## Taking it back -/

theorem erase_letter (hc : c ≠ ' ') (text : List Char) : erase (c :: text) = text := by
  unfold erase
  split
  · rename_i h
    exact absurd (List.cons.inj h).1 hc
  · rename_i h
    exact absurd (List.cons.inj h).1 hc
  · rename_i h
    exact (List.cons.inj h).2.symm
  · rename_i h
    cases h

/-- The space in front is taken back whether or not it was put with the letter. -/
theorem erase_spaced (c : Char) (text : List Char) :
    erase (spaced c text) = if text.head? = some ' ' then text.tail else text := by
  cases text with
  | nil => rfl
  | cons d rest =>
    by_cases hd : d = ' '
    · subst hd
      rfl
    · have hgap : gap (d :: rest) = [' '] :=
        gap_of_ne_space fun other h => hd (List.cons.inj h).1
      simp [spaced, hgap, erase, hd]

end Keystroke

namespace Display

open Line (spaced)

/-! ## Keys that are appended -/

variable {d : Display} {key : Char}

/-- The display that a key leaves does not report a failure. -/
theorem ne_error_of_typed {text next : List Char} (h : Keystroke.Typed text next) :
    (⟨next⟩ : Display) ≠ .error := by
  intro herror
  have hhead : next.head? = some 'R' := by
    rw [show next = Display.error.backward from congrArg backward herror]
    decide
  cases h with
  | letter hc => exact Keystroke.ne_of_letter hc (by decide) (by decide) (Option.some.inj hhead)
  | spaced c => cases hhead
  | replaced c _ => cases hhead

/-- A reported failure is cleared by the key, and then the text is shorter than before. -/
theorem ne_error_of_begins (h : d.chars <+: (d.press key).chars) : d ≠ .error := by
  rintro rfl
  have hlength := h.length_le
  have hfive : Display.error.chars.length = 5 := rfl
  have hfresh : Display.error.fresh = {} := if_pos rfl
  rw [hfive, press, hfresh] at hlength
  cases hnext : Keystroke.type? ({} : Display).backward key with
  | none => simp [hnext, chars] at hlength
  | some next =>
    simp only [hnext, chars, List.length_reverse] at hlength
    cases Keystroke.typed_type? hnext with
    | letter _ => simp at hlength
    | spaced c => simp [spaced, Keystroke.gap] at hlength
    | replaced c hempty => cases hempty

/-- A key that is appended puts something to the text. -/
theorem exists_typed_of_begins (hbegins : d.chars <+: (d.press key).chars)
    (hne : d.press key ≠ d) :
    ∃ next, d.press key = ⟨next⟩ ∧ Keystroke.Typed d.backward next := by
  have hfresh : d.fresh = d := if_neg (ne_error_of_begins hbegins)
  rw [press, hfresh] at hne ⊢
  cases hnext : Keystroke.type? d.backward key with
  | none =>
    rw [hnext] at hne
    exact absurd rfl hne
  | some next => exact ⟨next, rfl, Keystroke.typed_type? hnext⟩

/-- **Exactly which appended keys erasing undoes.**  If the text ends in a space both before
and after a key that is appended, then erasing takes back the space before the key as well;
otherwise it restores the display. -/
theorem erase_press_iff (hbegins : d.chars <+: (d.press key).chars) (hne : d.press key ≠ d) :
    ((d.press key).erase = d ↔
        ¬ (d.chars.getLast? = some ' ' ∧ (d.press key).chars.getLast? = some ' ')) ∧
      (d.chars.getLast? = some ' ' → (d.press key).chars.getLast? = some ' ' →
        (d.press key).erase.chars ++ [' '] = d.chars) := by
  obtain ⟨next, hpress, htyped⟩ := exists_typed_of_begins hbegins hne
  have herase : (d.press key).erase = ⟨Keystroke.erase next⟩ := by
    rw [hpress, erase, fresh, if_neg (ne_error_of_typed htyped)]
  rw [herase, hpress]
  rw [hpress] at hbegins hne
  obtain ⟨text⟩ := d
  simp only [chars, List.getLast?_reverse] at *
  cases htyped with
  | letter hc =>
    have hspace := Keystroke.ne_of_letter hc (show ' ' ≠ '-' by decide) (by decide)
    simp [Keystroke.erase_letter hspace, hspace]
  | spaced c =>
    have hlast : (spaced c text).head? = some ' ' := rfl
    rw [Keystroke.erase_spaced, hlast]
    by_cases hspace : text.head? = some ' '
    · obtain ⟨rest, rfl⟩ := List.head?_eq_some_iff.1 hspace
      simp
    · simp [hspace]
  | replaced c h =>
    -- the text is as long as before, so it would be the same
    subst h
    have hsame := hbegins.eq_of_length (by simp)
    exact absurd (congrArg Display.mk (List.reverse_inj.1 hsame.symm)) hne

/-- A digit behind `5 + ` is undone, since the text does not end in a space after it. -/
theorem erase_press_digit_behind_operator :
    (typeKeys {} ['5', '+']).chars <+: ((typeKeys {} ['5', '+']).press '3').chars ∧
      (typeKeys {} ['5', '+']).press '3' ≠ typeKeys {} ['5', '+'] ∧
      ((typeKeys {} ['5', '+']).press '3').erase = typeKeys {} ['5', '+'] := by
  have hbegins : (typeKeys {} ['5', '+']).chars <+:
      ((typeKeys {} ['5', '+']).press '3').chars := ⟨['3'], rfl⟩
  have hne : (typeKeys {} ['5', '+']).press '3' ≠ typeKeys {} ['5', '+'] := by decide
  exact ⟨hbegins, hne, (erase_press_iff hbegins hne).1.2 (by decide)⟩

/-- A `(` behind `5 + ` is not undone: the space behind the operator goes with it. -/
theorem erase_press_group_behind_operator :
    (typeKeys {} ['5', '+']).chars = "5 + ".toList ∧
      ((typeKeys {} ['5', '+']).press '(').chars = "5 + ( ".toList ∧
      ((typeKeys {} ['5', '+']).press '(').erase.chars = "5 +".toList := by
  decide

end Display
end DeskCalculator
