import Mathlib.Data.List.Induction
import DeskCalculator.Proofs.ReversePolish.Conversion
import DeskCalculator.Proofs.ReversePolish.Parentheses
import DeskCalculator.Proofs.Text.Scan
import DeskCalculator.Proofs.Token.Reading

/-!
# Texts that are rejected

A text is rejected at its first fault, that is a word which is no token, or a closing
parenthesis before which every opening one has its partner.  Without a fault it is
rejected at its last opening parenthesis without a partner, and if there is none it
is converted (`ofText_eq_error_iff`).

As long as there is no fault, the open groups of a conversion are the opening
parentheses without a partner among the words it has read (`exists_conversion`).
-/

namespace DeskCalculator
namespace ReversePolish

open Parentheses (Unmatched openings)
open Scan (Sound FirstFailure)

/-! ## Faults -/

/-- The word cannot be read behind the words before it. -/
inductive Fault (earlier : List (List Char)) (word : List Char) : ParseError → Prop where
  /-- The word is no token. -/
  | malformedToken : Token.ofWord? word = none →
      Fault earlier word (.malformedToken (String.ofList word) earlier.length)
  /-- The word is `)`, and no `(` before it is without a partner. -/
  | unbalancedParenthesis : word = [')'] → (∀ p, ¬ Unmatched earlier p) →
      Fault earlier word (.unbalancedParenthesis earlier.length)

/-- The error with which words are rejected. -/
inductive Rejection (words : List (List Char)) : ParseError → Prop where
  /-- The error of the first fault. -/
  | fault {e : ParseError} : FirstFailure Fault words e → Rejection words e
  /-- Without a fault, the last `(` without a partner. -/
  | unclosed {p : Nat} : Sound Fault words → Unmatched words p →
      (∀ q, Unmatched words q → q ≤ p) → Rejection words (.unbalancedParenthesis p)

variable {words : List (List Char)} {e : ParseError}

/-- A word that is no fault is a token, and if it is a closing parenthesis then an
opening one waits for it. -/
theorem exists_token_of_not_fault {word : List Char} (h : ∀ e, ¬ Fault words word e) :
    (∃ t, Token.ofWord? word = some t) ∧ (word = [')'] → openings [] 0 words ≠ []) := by
  constructor
  · cases hread : Token.ofWord? word with
    | none => exact absurd (.malformedToken hread) (h _)
    | some t => exact ⟨t, rfl⟩
  · intro hclose hnil
    exact h _ (.unbalancedParenthesis hclose (Parentheses.openings_eq_nil_iff.1 hnil))

/-! ## Reading a word -/

namespace Conversion

/-- A token that closes no group where none is open is read, and the open groups are
then the opening parentheses without a partner. -/
theorem exists_words_singleton {word : List Char} {t : Token} (h : Token.ofWord? word = some t)
    (c : Conversion) (position : Nat) (hclose : word = [')'] → openGroups c.pending ≠ []) :
    ∃ next, c.words position [word] = .ok next ∧
      openGroups next.pending = openings (openGroups c.pending) position [word] := by
  rw [words_singleton h]
  cases t with
  | number x =>
    obtain ⟨hopen, hclosed⟩ := Token.ne_parenthesis_of_ofWord? h (by simp) (by simp)
    refine ⟨c.number x, rfl, ?_⟩
    rw [Parentheses.openings_word hopen hclosed]
    rfl
  | operator op =>
    obtain ⟨hopen, hclosed⟩ := Token.ne_parenthesis_of_ofWord? h (by simp) (by simp)
    refine ⟨c.operator op, rfl, ?_⟩
    rw [Parentheses.openings_word hopen hclosed, pending_operator]
    exact openGroups_release op.precedence c.pending
  | leftParenthesis =>
    obtain rfl := Token.eq_of_ofWord?_leftParenthesis h
    exact ⟨c.openGroup position, rfl, rfl⟩
  | rightParenthesis =>
    obtain rfl := Token.eq_of_ofWord?_rightParenthesis h
    obtain ⟨opening, outer, hgroups⟩ := List.exists_cons_of_ne_nil (hclose rfl)
    obtain ⟨ops, rest, -, hrest, hresult⟩ := closeGroup_of_openGroups hgroups position
    refine ⟨c.write ops rest, ?_, ?_⟩
    · rw [token, hresult]
    · rw [hgroups]
      exact hrest

/-- Where no group is open, a closing parenthesis is an error. -/
theorem words_rightParenthesis_of_openGroups_eq_nil {c : Conversion}
    (h : openGroups c.pending = []) (position : Nat) (later : List (List Char)) :
    c.words position ([')'] :: later) = .error (.unbalancedParenthesis position) := by
  obtain ⟨ops, hpending⟩ := exists_waiting_of_openGroups_eq_nil h
  have hclose : c.closeGroup position =
      (.error (.unbalancedParenthesis position), c.write ops []) := by
    rw [closeGroup, hpending, releaseGroup_waiting]
  rw [words_cons Token.ofWord?_rightParenthesis, token, hclose]
  rfl

/-- **Words without a fault are read**, and the groups left open are the opening
parentheses without a partner. -/
theorem exists_conversion (h : Sound Fault words) :
    ∃ c, ({} : Conversion).words 0 words = .ok c ∧
      openGroups c.pending = openings [] 0 words := by
  -- from the left, since a fault depends on the words before it
  induction words using List.reverseRecOn with
  | nil => exact ⟨{}, rfl, rfl⟩
  | append_singleton words word ih =>
    obtain ⟨hsound, hword⟩ := Scan.sound_append_singleton_iff.1 h
    obtain ⟨c, hread, hgroups⟩ := ih hsound
    obtain ⟨⟨t, ht⟩, hclose⟩ := exists_token_of_not_fault hword
    rw [← hgroups] at hclose
    obtain ⟨next, hnext, hopen⟩ := exists_words_singleton ht c (0 + words.length) hclose
    refine ⟨next, ?_, ?_⟩
    · rw [words_append, hread]
      exact hnext
    · rw [hopen, hgroups, Parentheses.openings_append]

/-- **Reading stops at the first fault**, whatever comes later. -/
theorem words_of_firstFailure (h : FirstFailure Fault words e) :
    ({} : Conversion).words 0 words = .error e := by
  obtain ⟨earlier, word, later, rfl, hsound, hfault⟩ := h.exists_split
  obtain ⟨c, hread, hgroups⟩ := exists_conversion hsound
  rw [words_append, hread, Nat.zero_add]
  show c.words earlier.length (word :: later) = .error e
  cases hfault with
  | malformedToken hnone => exact words_cons_error hnone c _ later
  | unbalancedParenthesis hclose hbefore =>
    subst hclose
    rw [← Parentheses.openings_eq_nil_iff, ← hgroups] at hbefore
    exact words_rightParenthesis_of_openGroups_eq_nil hbefore _ later

end Conversion

/-! ## The whole text -/

/-- Words that are rejected are no sequence. -/
theorem Rejection.ofWords (h : Rejection words e) : ofWords words = .error e := by
  rw [ReversePolish.ofWords]
  cases h with
  | fault hfirst => rw [Conversion.words_of_firstFailure hfirst]
  | @unclosed p hsound hopen hlast =>
    obtain ⟨c, hread, hgroups⟩ := Conversion.exists_conversion hsound
    rw [hread]
    rcases c.finish_eq with ⟨ops, hpending, -⟩ | ⟨position, outer, ops, hposition, hfinish⟩
    · rw [hpending, openGroups_waiting, eq_comm, Parentheses.openings_eq_nil_iff] at hgroups
      exact absurd hopen (hgroups p)
    · obtain ⟨hunmatched, hmax⟩ :=
        Parentheses.openings_eq_cons (hgroups.symm.trans hposition)
      obtain rfl : position = p := Nat.le_antisymm (hlast _ hunmatched) (hmax _ hopen)
      simp only [hfinish]

/-- Words without a fault and with a partner for every parenthesis are a sequence. -/
theorem exists_ofWords_eq_ok (hsound : Sound Fault words)
    (hmatched : ∀ p, ¬ Unmatched words p) : ∃ tokens, ofWords words = .ok tokens := by
  obtain ⟨c, hread, hgroups⟩ := Conversion.exists_conversion hsound
  rcases c.finish_eq with ⟨ops, -, hfinish⟩ | ⟨position, outer, ops, hposition, -⟩
  · refine ⟨(c.write ops []).output, ?_⟩
    simp only [ReversePolish.ofWords, hread, hfinish]
  · obtain ⟨hunmatched, -⟩ := Parentheses.openings_eq_cons (hgroups.symm.trans hposition)
    exact absurd hunmatched (hmatched position)

/-- Words are rejected, or they have no fault and every parenthesis has its partner. -/
theorem rejection_or_sound (words : List (List Char)) :
    (∃ e, Rejection words e) ∨ Sound Fault words ∧ ∀ p, ¬ Unmatched words p := by
  rcases Scan.sound_or_firstFailure Fault words with hsound | ⟨e, hfirst⟩
  · cases hgroups : openings [] 0 words with
    | nil => exact Or.inr ⟨hsound, Parentheses.openings_eq_nil_iff.1 hgroups⟩
    | cons p outer =>
      obtain ⟨hunmatched, hmax⟩ := Parentheses.openings_eq_cons hgroups
      exact Or.inl ⟨_, .unclosed hsound hunmatched hmax⟩
  · exact Or.inl ⟨e, .fault hfirst⟩

/-- **Exactly when and why a text is rejected.**  The error is that of the first word
which is no token or which is a `)` without a partner; if there is none, that of the
last `(` without a partner; and if there is none of these either, the text is
converted. -/
theorem ofText_eq_error_iff (text : String) :
    (∀ e, ofText text = .error e ↔ Rejection (Text.words text.toList) e) ∧
      ((∃ tokens, ofText text = .ok tokens) ↔
        Sound Fault (Text.words text.toList) ∧
          ∀ p, ¬ Unmatched (Text.words text.toList) p) := by
  rw [ofText, ofChars]
  generalize Text.words text.toList = words
  rcases rejection_or_sound words with ⟨e', hrejected⟩ | ⟨hsound, hmatched⟩
  · have herror := hrejected.ofWords
    refine ⟨fun e => ⟨fun h => ?_, fun h => h.ofWords⟩, ?_⟩
    · obtain rfl : e' = e := by simpa [herror] using h
      exact hrejected
    · constructor
      · rintro ⟨tokens, hok⟩
        rw [herror] at hok
        cases hok
      · rintro ⟨hsound, hmatched⟩
        exact exists_ofWords_eq_ok hsound hmatched
  · obtain ⟨tokens, hok⟩ := exists_ofWords_eq_ok hsound hmatched
    refine ⟨fun e => ⟨fun h => ?_, fun h => h.ofWords⟩,
      ⟨fun _ => ⟨hsound, hmatched⟩, fun _ => ⟨tokens, hok⟩⟩⟩
    rw [hok] at h
    cases h

end ReversePolish
end DeskCalculator
