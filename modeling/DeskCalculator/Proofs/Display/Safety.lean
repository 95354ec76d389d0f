import DeskCalculator.Display.Basic
import DeskCalculator.Proofs.ReversePolish.Rejection
import DeskCalculator.Proofs.Token.Writing

/-!
# Sessions keep the text tidy

Whatever is typed, erased and computed, the text never has two spaces side by side
and never closes a group that it has not opened (`tidy_run`).  Both properties pass
to every beginning of a text, so erasing cannot harm them, and a key looks at the
end of the text before it adds a space or a parenthesis.

Where erasing has left parentheses that are glued to other characters, the words
are no tokens.  So a `)` that is a word always has its partner among the words, and
only a `(` is ever reported as unbalanced (`run_safe`).
-/

namespace DeskCalculator
namespace Display

/-! ## Tidy texts -/

/-- A text with single spaces, of which no beginning closes more groups than it opens. -/
structure Tidy (text : List Char) : Prop where
  /-- No two spaces stand side by side. -/
  single_spaced : ¬ [' ', ' '] <:+: text
  /-- A beginning has at least as many `(` as `)`. -/
  opened_first : ∀ u, u <+: text → u.count ')' ≤ u.count '('

variable {text next : List Char} {c : Char}

/-- A beginning of a tidy text is tidy. -/
theorem Tidy.of_begins {u : List Char} (h : Tidy text) (hu : u <+: text) : Tidy u where
  single_spaced := by
    intro hspaces
    exact h.single_spaced (hspaces.trans hu.isInfix)
  opened_first := by
    intro v hv
    exact h.opened_first v (hv.trans hu)

/-- So is a text without spaces and closing parentheses. -/
theorem tidy_of_forall (h : ∀ c ∈ text, c ≠ ' ' ∧ c ≠ ')') : Tidy text where
  single_spaced := by
    intro hspaces
    have hspace : ' ' ∈ text := hspaces.subset (by simp)
    exact (h ' ' hspace).1 rfl
  opened_first := by
    intro u hu
    have hnone : u.count ')' = 0 :=
      List.count_eq_zero.2 fun hmem => (h ')' (hu.subset hmem)).2 rfl
    rw [hnone]
    exact Nat.zero_le _

/-- A character is put behind a tidy text: a space behind no space, and a `)` only where
a group is open. -/
theorem tidy_cons (h : Tidy text.reverse) (hspace : c = ' ' → text.head? ≠ some ' ')
    (hclose : c = ')' → text.count ')' < text.count '(') : Tidy (c :: text).reverse where
  single_spaced := by
    intro hspaces
    rw [List.reverse_cons, List.infix_concat_iff] at hspaces
    rcases hspaces with hlast | hbefore
    · rw [← List.reverse_cons, ← List.reverse_prefix, List.reverse_reverse] at hlast
      obtain ⟨rest, hrest⟩ := hlast
      obtain ⟨rfl, rfl⟩ := List.cons.inj hrest
      exact hspace rfl rfl
    · exact h.single_spaced hbefore
  opened_first := by
    intro u hu
    rw [List.reverse_cons, List.prefix_concat_iff] at hu
    rcases hu with rfl | hbefore
    · have hle := h.opened_first _ (List.prefix_refl _)
      simp only [List.count_append, List.count_reverse, List.count_singleton] at hle ⊢
      by_cases hc : c = ')'
      · have hlt := hclose hc
        simp [hc]
        omega
      · simp [hc]
        omega
    · exact h.opened_first u hbefore

theorem head?_ne_space (h : ∀ rest, text = ' ' :: rest → False) : text.head? ≠ some ' ' := by
  intro hhead
  obtain ⟨rest, hrest⟩ := List.head?_eq_some_iff.1 hhead
  exact h rest hrest

/-- The space before a new word. -/
theorem tidy_gap (h : Tidy text.reverse) : Tidy (Keystroke.gap text ++ text).reverse := by
  unfold Keystroke.gap
  split
  · exact h
  · rename_i hnot
    exact tidy_cons h (fun _ => head?_ne_space hnot) (by simp)

/-- A character that is no space and no `)`. -/
theorem tidy_letter (h : Tidy text.reverse) (hspace : c ≠ ' ') (hclose : c ≠ ')') :
    Tidy (c :: text).reverse :=
  tidy_cons h (fun hc => absurd hc hspace) fun hc => absurd hc hclose

/-- A space behind a character that is none. -/
theorem tidy_space (h : Tidy (c :: text).reverse) (hspace : c ≠ ' ') :
    Tidy (' ' :: c :: text).reverse := by
  refine tidy_cons h ?_ (by simp)
  intro _ hhead
  exact hspace (by simpa using hhead)

/-- Such a character and a space. -/
theorem tidy_symbol (h : Tidy text.reverse) (hspace : c ≠ ' ') (hclose : c ≠ ')') :
    Tidy (' ' :: c :: text).reverse :=
  tidy_space (tidy_letter h hspace hclose) hspace

/-! ## Keys -/

theorem tidy_typeOperator {op : Char} (h : Tidy text.reverse) (hspace : op ≠ ' ')
    (hclose : op ≠ ')') (hnext : Keystroke.typeOperator text op = some next) :
    Tidy next.reverse := by
  have hsign : Tidy ('-' :: text).reverse := tidy_letter h (by simp) (by simp)
  unfold Keystroke.typeOperator at hnext
  split at hnext
  · split at hnext <;> cases hnext
    exact hsign
  · split at hnext <;> cases hnext
    exact hsign
  · split at hnext
    · cases hnext
    split at hnext
    · cases hnext
    · cases hnext
      exact tidy_symbol h hspace hclose
    · cases hnext
      exact tidy_symbol h hspace hclose
    · split at hnext <;> cases hnext
      exact hsign
    · -- the character before the space is replaced
      rename_i d rest _ _ _ _
      split at hnext <;> cases hnext
      have hsuffix : rest <:+ ' ' :: d :: rest := List.suffix_append [' ', d] rest
      exact tidy_symbol (h.of_begins ( List.reverse_prefix.2 hsuffix)) hspace hclose
  · rename_i hnospace
    cases hnext
    have hgap : Tidy (' ' :: text).reverse :=
      tidy_cons h (fun _ => head?_ne_space hnospace) (by simp)
    exact tidy_symbol hgap hspace hclose

theorem tidy_typeOpen (h : Tidy text.reverse) (hnext : Keystroke.typeOpen text = some next) :
    Tidy next.reverse := by
  have hopen : Tidy (' ' :: '(' :: (Keystroke.gap text ++ text)).reverse :=
    tidy_symbol (tidy_gap h) (by simp) (by simp)
  unfold Keystroke.typeOpen at hnext
  split at hnext
  · cases hnext
    exact hopen
  · split at hnext <;> cases hnext
    exact hopen
  · cases hnext

/-- A `)` is accepted only where a group is open. -/
theorem tidy_typeClose (h : Tidy text.reverse) (hnext : Keystroke.typeClose text = some next) :
    Tidy next.reverse := by
  unfold Keystroke.typeClose at hnext
  split at hnext
  · rename_i last before rest
    split at hnext <;> cases hnext
    rename_i hrules
    generalize last :: before :: rest = text at h hrules ⊢
    simp only [Bool.or_eq_true, decide_eq_true_eq, not_or, Nat.not_le] at hrules
    obtain ⟨⟨⟨hlt, _⟩, _⟩, _⟩ := hrules
    have hgap (p : Char) (hp : p ≠ ' ') :
        (Keystroke.gap text ++ text).count p = text.count p := by
      unfold Keystroke.gap
      split <;> simp [Ne.symm hp]
    refine tidy_space (tidy_cons (tidy_gap h) (by simp) ?_) (by simp)
    intro _
    rw [hgap _ (by simp), hgap _ (by simp)]
    exact hlt
  · cases hnext

theorem tidy_typeDigit {digit : Char} (h : Tidy text.reverse) (hspace : digit ≠ ' ')
    (hclose : digit ≠ ')') (hnext : Keystroke.typeDigit text digit = some next) :
    Tidy next.reverse := by
  unfold Keystroke.typeDigit at hnext
  split at hnext <;> cases hnext
  exact tidy_letter h hspace hclose

/-- **A key keeps the text tidy.** -/
theorem tidy_type? {key : Char} (h : Tidy text.reverse)
    (hnext : Keystroke.type? text key = some next) : Tidy next.reverse := by
  unfold Keystroke.type? at hnext
  split at hnext
  · rename_i hsymbol
    obtain ⟨op, hop⟩ := Option.isSome_iff_exists.1 hsymbol
    obtain rfl := Operator.symbol_of_ofSymbol? hop
    have hspace : op.symbol ≠ ' ' := Operator.of_all op (by decide)
    have hclose : op.symbol ≠ ')' := Operator.of_all op (by decide)
    exact tidy_typeOperator h hspace hclose hnext
  split at hnext
  · exact tidy_typeClose h hnext
  split at hnext
  · exact tidy_typeOpen h hnext
  split at hnext
  · rename_i hclose _ hdigit
    refine tidy_typeDigit h ?_ hclose hnext
    rintro rfl
    cases hdigit
  · cases hnext

/-! ## Actions -/

/-- What can be done to a display. -/
inductive Action where
  /-- Press a key. -/
  | press (key : Char)
  /-- Press keys, one after the other. -/
  | typeKeys (keys : List Char)
  /-- Erase the last character. -/
  | erase
  /-- Empty the display. -/
  | clear
  /-- Compute the value of the text. -/
  | compute

/-- The display after an action. -/
def act (d : Display) : Action → Display
  | .press key => d.press key
  | .typeKeys keys => d.typeKeys keys
  | .erase => d.erase
  | .clear => d.clear
  | .compute => d.compute.2

/-- The display after actions. -/
def run (d : Display) (actions : List Action) : Display :=
  actions.foldl act d

variable {d : Display}

theorem tidy_empty : Tidy ({} : Display).chars :=
  tidy_of_forall (by simp [chars])

theorem tidy_fresh (h : Tidy d.chars) : Tidy d.fresh.chars := by
  unfold fresh
  split
  · exact tidy_empty
  · exact h

theorem tidy_press (h : Tidy d.chars) (key : Char) : Tidy (d.press key).chars := by
  unfold press
  cases hnext : Keystroke.type? d.fresh.backward key with
  | none => exact tidy_fresh h
  | some next => exact tidy_type? (tidy_fresh h) hnext

theorem tidy_typeKeys (h : Tidy d.chars) (keys : List Char) : Tidy (d.typeKeys keys).chars := by
  induction keys generalizing d with
  | nil => exact h
  | cons key keys ih => exact ih (tidy_press h key)

/-- Erasing leaves a beginning of the text. -/
theorem erase_suffix (text : List Char) : Keystroke.erase text <:+ text := by
  unfold Keystroke.erase
  split
  · rename_i d rest
    exact List.suffix_append [' ', d, ' '] rest
  · rename_i d rest _
    exact List.suffix_append [' ', d] rest
  · exact List.suffix_cons ..
  · exact List.suffix_refl _

theorem tidy_erase (h : Tidy d.chars) : Tidy d.erase.chars :=
  (tidy_fresh h).of_begins ( List.reverse_prefix.2 (erase_suffix _))

/-- The text of a result has neither spaces nor parentheses. -/
theorem ne_of_mem_chars {n : Number} {c : Char} (hc : c ∈ n.chars) : c ≠ ' ' ∧ c ≠ ')' := by
  have hliteral {word : List Char} {l : Decimal.Literal}
      (hl : Decimal.Literal.ofText? word = some l) (hc : c ∈ word) : c ≠ ' ' ∧ c ≠ ')' := by
    have hchar := (Decimal.Literal.isLiteralChar_of_ofText? hl).2 c hc
    constructor
    all_goals
      rintro rfl
      cases hchar
  cases n with
  | integer i =>
    obtain ⟨l, hl, -⟩ := Decimal.exists_literal_of_integer i.toInt
    exact hliteral hl hc
  | real x =>
    cases hx : x.isFinite with
    | true =>
      obtain ⟨l, hl, -⟩ := Decimal.exists_literal_of_isFinite hx
      exact hliteral hl hc
    | false =>
      have hletters : ∀ word ∈ ["NaN".toList, "inf".toList, "-inf".toList],
          ∀ c ∈ word, c ≠ ' ' ∧ c ≠ ')' := by simp
      refine hletters _ ?_ c hc
      simpa [Number.chars] using Decimal.chars_of_not_isFinite hx

theorem tidy_compute (d : Display) : Tidy d.compute.2.chars := by
  have hchars : d.compute.2.chars = outcomeChars (evaluateChars d.chars) :=
    List.reverse_reverse _
  rw [hchars]
  cases evaluateChars d.chars with
  | ok n => exact tidy_of_forall fun c hc => ne_of_mem_chars hc
  | error e =>
    have hletters : ∀ c ∈ errorChars, c ≠ ' ' ∧ c ≠ ')' := by simp [errorChars]
    exact tidy_of_forall hletters

/-- **An action keeps the text tidy.** -/
theorem tidy_act (h : Tidy d.chars) (action : Action) : Tidy (d.act action).chars := by
  cases action with
  | press key => exact tidy_press h key
  | typeKeys keys => exact tidy_typeKeys h keys
  | erase => exact tidy_erase h
  | clear => exact tidy_empty
  | compute => exact tidy_compute d

/-- **So do actions in any order.** -/
theorem tidy_run (h : Tidy d.chars) (actions : List Action) : Tidy (d.run actions).chars := by
  induction actions generalizing d with
  | nil => exact h
  | cons action actions ih => exact ih (tidy_act h action)

/-! ## Reading a tidy text -/

open ReversePolish (Fault Rejection)
open Parentheses (Unmatched openings)
open Scan (Sound)

/-- Among words without a fault there is a `(` without a partner, if a `)` comes next in
a tidy text. -/
theorem Tidy.exists_unmatched {earlier later : List (List Char)} (h : Tidy text)
    (hwords : Text.words text = earlier ++ [')'] :: later) (hsound : Sound Fault earlier) :
    ∃ p, Unmatched earlier p := by
  obtain ⟨c, hread, -⟩ := ReversePolish.Conversion.exists_conversion hsound
  have htokens := ReversePolish.Conversion.exists_token_of_words hread
  rw [List.append_cons] at hwords
  obtain ⟨u, hu, hchars⟩ := Text.exists_prefix_of_words hwords
  -- no parenthesis before the word is glued to other characters, so words can be counted
  have hcount (p : Char) (hblank : Text.isBlank p = false)
      (hliteral : Decimal.Literal.isLiteralChar p = false) :
      u.count p = earlier.count [p] + [')'].count p := by
    have hfilter : (u.filter fun c => !Text.isBlank c).count p = u.count p :=
      List.count_filter (by simp [hblank])
    rw [← hfilter, hchars, List.flatten_concat, List.count_append,
      Token.count_flatten htokens hliteral]
  have hle := h.opened_first u hu
  rw [hcount ')' (by decide) (by decide), hcount '(' (by decide) (by decide)] at hle
  have hheight := Parentheses.count_le_length_openings [] 0 earlier
  have hne : openings [] 0 earlier ≠ [] := by
    intro hnil
    rw [hnil] at hheight
    simp at hle hheight
    omega
  obtain ⟨p, hp⟩ := List.exists_mem_of_ne_nil _ hne
  exact ⟨p, Parentheses.mem_openings_iff.1 hp⟩

/-- In a tidy text only a `(` is reported as unbalanced. -/
theorem Tidy.getElem?_of_unbalanced (h : Tidy text) {p : Nat}
    (herror : ReversePolish.ofChars text = .error (.unbalancedParenthesis p)) :
    (Text.words text)[p]? = some ['('] := by
  rw [ReversePolish.ofChars] at herror
  rcases ReversePolish.rejection_or_sound (Text.words text) with
    ⟨e, hrejected⟩ | ⟨hsound, hmatched⟩
  · rw [hrejected.ofWords] at herror
    cases herror
    cases hrejected with
    | fault hfirst =>
      obtain ⟨earlier, word, later, hwords, hsound, hfault⟩ := hfirst.exists_split
      cases hfault with
      | unbalancedParenthesis hclose hnone =>
        subst hclose
        obtain ⟨p, hp⟩ := h.exists_unmatched hwords hsound
        exact absurd hp (hnone p)
    | unclosed _ hunmatched _ => exact hunmatched.1
  · obtain ⟨tokens, hok⟩ := ReversePolish.exists_ofWords_eq_ok hsound hmatched
    rw [hok] at herror
    cases herror

/-- **Sessions are safe.**  After any actions on an empty display, no two spaces of the
text stand side by side, no beginning of it closes more groups than it opens, and if its
parentheses are reported as unbalanced, then at the position of a `(`. -/
theorem run_safe (actions : List Action) :
    (¬ [' ', ' '] <:+: (run {} actions).chars) ∧
      (∀ u, u <+: (run {} actions).chars → u.count ')' ≤ u.count '(') ∧
      ∀ p, ReversePolish.ofText (run {} actions).text = .error (.unbalancedParenthesis p) →
        (Text.words (run {} actions).chars)[p]? = some ['('] := by
  have htidy : Tidy (run {} actions).chars := tidy_run tidy_empty actions
  refine ⟨htidy.single_spaced, htidy.opened_first, ?_⟩
  intro p herror
  rw [ReversePolish.ofText, text, String.toList_ofList] at herror
  exact htidy.getElem?_of_unbalanced herror

-- the space behind `)` goes with the operator, so that a digit is glued to it
example : (run {} [.typeKeys ['(', '5', ')', '+'], .erase, .press '3']).chars =
    [' ', '(', ' ', '5', ' ', ')', '3'] := rfl

end Display
end DeskCalculator
