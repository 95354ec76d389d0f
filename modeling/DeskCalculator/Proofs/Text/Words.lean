import DeskCalculator.Text

/-!
# The words of composed texts

A blank cuts a text in two: its words are those before the blank and those after
it (`words_append_blank`).  So words that are joined by blanks, however many and
of whatever kind, are read back (`words_of_joined`).  No character but the blanks is
lost (`flatten_words`).
-/

namespace DeskCalculator
namespace Text

/-- A word is not empty and has no blank in it. -/
def IsWord (word : List Char) : Prop :=
  word ≠ [] ∧ ∀ c ∈ word, isBlank c = false

theorem isWord_of_all {word : List Char} (hne : word ≠ [])
    (h : (word.all fun c => !isBlank c) = true) : IsWord word :=
  ⟨hne, fun c hc => by simpa using List.all_eq_true.1 h c hc⟩

/-- The text consists of the words, in order, with one or more blanks between any
two neighbours. -/
inductive Joined : List (List Char) → List Char → Prop where
  /-- A single word. -/
  | single (word : List Char) : Joined [word] word
  /-- One more word in front of a text. -/
  | cons (word : List Char) {gap text : List Char} {later : List (List Char)} :
      gap ≠ [] → (∀ c ∈ gap, isBlank c = true) → Joined later text →
      Joined (word :: later) (word ++ gap ++ text)

/-! ## Cutting at a blank -/

theorem words_eq (text : List Char) :
    words text = if (splitWords text).1.isEmpty = true then (splitWords text).2
      else (splitWords text).1 :: (splitWords text).2 := rfl

theorem splitWords_append_blank {b : Char} (hb : isBlank b = true) (u v : List Char) :
    splitWords (u ++ b :: v) = ((splitWords u).1, (splitWords u).2 ++ words v) := by
  induction u with
  | nil =>
    simp only [List.nil_append, splitWords, hb, if_true]
    rfl
  | cons c u ih =>
    simp only [List.cons_append, splitWords, ih]
    by_cases hc : isBlank c = true
    · simp only [hc, if_true]
      split <;> rfl
    · simp [hc]

/-- **Words split at a blank.** -/
theorem words_append_blank {b : Char} (hb : isBlank b = true) (u v : List Char) :
    words (u ++ b :: v) = words u ++ words v := by
  rw [words_eq, words_eq u, splitWords_append_blank hb]
  by_cases hword : (splitWords u).1.isEmpty = true
  · rw [if_pos hword, if_pos hword]
  · rw [if_neg hword, if_neg hword, List.cons_append]

@[simp] theorem words_nil : words [] = [] := rfl

/-- A blank at the end does not matter. -/
theorem words_append_singleton {b : Char} (hb : isBlank b = true) (text : List Char) :
    words (text ++ [b]) = words text := by
  rw [words_append_blank hb, words_nil, List.append_nil]

theorem words_cons_blank {b : Char} (hb : isBlank b = true) (text : List Char) :
    words (b :: text) = words text := by
  simpa using words_append_blank hb [] text

theorem words_append_blanks {gap : List Char} (hgap : ∀ c ∈ gap, isBlank c = true)
    (text : List Char) : words (gap ++ text) = words text := by
  induction gap with
  | nil => rfl
  | cons b gap ih =>
    rw [List.cons_append, words_cons_blank (hgap b (List.mem_cons_self ..))]
    exact ih fun c hc => hgap c (List.mem_cons_of_mem _ hc)

theorem splitWords_of_letters {word : List Char} (h : ∀ c ∈ word, isBlank c = false) :
    splitWords word = (word, []) := by
  induction word with
  | nil => rfl
  | cons c word ih =>
    have hc : isBlank c = false := h c (List.mem_cons_self ..)
    rw [splitWords, ih fun d hd => h d (List.mem_cons_of_mem _ hd)]
    simp [hc]

/-- A word alone is a text with this one word. -/
theorem words_of_isWord {word : List Char} (h : IsWord word) : words word = [word] := by
  obtain ⟨hne, hletters⟩ := h
  rw [words, splitWords_of_letters hletters]
  simp [hne]

theorem isWord_of_mem_splitWords (text : List Char) :
    (∀ c ∈ (splitWords text).1, isBlank c = false) ∧ ∀ w ∈ (splitWords text).2, IsWord w := by
  induction text with
  | nil => simp [splitWords]
  | cons c text ih =>
    obtain ⟨hword, hlater⟩ := ih
    rw [splitWords]
    by_cases hc : isBlank c = true
    · simp only [hc, if_true]
      split
      · exact ⟨by simp, hlater⟩
      · rename_i hne
        refine ⟨by simp, ?_⟩
        intro w hw
        rcases List.mem_cons.1 hw with rfl | hw
        · exact ⟨by simpa using hne, hword⟩
        · exact hlater w hw
    · simp only [hc, Bool.false_eq_true, if_false]
      refine ⟨?_, hlater⟩
      intro d hd
      rcases List.mem_cons.1 hd with rfl | hd
      · simpa using hc
      · exact hword d hd

/-- The words of a text are words. -/
theorem isWord_of_mem_words {text word : List Char} (h : word ∈ words text) : IsWord word := by
  obtain ⟨hword, hlater⟩ := isWord_of_mem_splitWords text
  rw [words_eq] at h
  by_cases hempty : (splitWords text).1.isEmpty = true
  · rw [if_pos hempty] at h
    exact hlater word h
  · rw [if_neg hempty] at h
    rcases List.mem_cons.1 h with rfl | h
    · exact ⟨by simpa using hempty, hword⟩
    · exact hlater word h

/-! ## The characters of words -/

theorem append_flatten_splitWords (text : List Char) :
    (splitWords text).1 ++ (splitWords text).2.flatten = text.filter fun c => !isBlank c := by
  induction text with
  | nil => rfl
  | cons c text ih =>
    rw [splitWords]
    by_cases hc : isBlank c = true
    · simp only [hc, if_true, List.filter_cons, Bool.not_true, Bool.false_eq_true, if_false]
      rw [← ih]
      split
      · rename_i hempty
        rw [List.isEmpty_iff.1 hempty]
      · rfl
    · simp [hc, ← ih]

/-- **The words of a text have all its characters but the blanks**, in order. -/
theorem flatten_words (text : List Char) :
    (words text).flatten = text.filter fun c => !isBlank c := by
  rw [← append_flatten_splitWords, words_eq]
  by_cases hempty : (splitWords text).1.isEmpty = true
  · rw [if_pos hempty, List.isEmpty_iff.1 hempty, List.nil_append]
  · rw [if_neg hempty, List.flatten_cons]

/-- The first words of a text are those characters of a beginning of the text that are
no blanks. -/
theorem exists_prefix_of_words {text : List Char} {earlier later : List (List Char)}
    (h : words text = earlier ++ later) :
    ∃ u, u <+: text ∧ u.filter (fun c => !isBlank c) = earlier.flatten := by
  have hflatten := flatten_words text
  rw [h, List.flatten_append] at hflatten
  obtain ⟨u, v, rfl, hu, -⟩ := List.filter_eq_append_iff.1 hflatten.symm
  exact ⟨u, List.prefix_append u v, hu⟩

/-! ## Joined words -/

/-- **Joined words are read back.** -/
theorem words_of_joined {ws : List (List Char)} {text : List Char} (h : Joined ws text)
    (hw : ∀ w ∈ ws, IsWord w) : words text = ws := by
  induction h with
  | single word => exact words_of_isWord (hw word (List.mem_singleton_self _))
  | @cons word gap text later hne hgap _ ih =>
    obtain ⟨b, gap, rfl⟩ := List.exists_cons_of_ne_nil hne
    have hb : isBlank b = true := hgap b (List.mem_cons_self ..)
    have hrest : words text = later := ih fun w hwl => hw w (List.mem_cons_of_mem _ hwl)
    calc words (word ++ b :: gap ++ text)
        = words (word ++ b :: (gap ++ text)) := by rw [List.append_assoc, List.cons_append]
      _ = words word ++ words (gap ++ text) := words_append_blank hb _ _
      _ = [word] ++ words text := by
          rw [words_of_isWord (hw word (List.mem_cons_self ..)),
            words_append_blanks fun c hc => hgap c (List.mem_cons_of_mem _ hc)]
      _ = word :: later := by rw [hrest]; rfl

/-- Words with single spaces between them are joined. -/
theorem joined_intercalate {ws : List (List Char)} (h : ws ≠ []) :
    Joined ws ([' '].intercalate ws) := by
  induction ws with
  | nil => exact absurd rfl h
  | cons word later ih =>
    cases later with
    | nil =>
      rw [List.intercalate_singleton]
      exact .single word
    | cons next later =>
      rw [List.intercalate_cons_cons]
      exact .cons word (by simp) (List.all_eq_true.1 rfl) (ih (by simp))

/-- The only blank in words with single spaces between them is the space. -/
theorem eq_space_of_mem_intercalate {ws : List (List Char)} (hws : ∀ w ∈ ws, IsWord w) {c : Char}
    (hc : c ∈ [' '].intercalate ws) (hblank : isBlank c = true) : c = ' ' := by
  induction ws with
  | nil => cases hc
  | cons word later ih =>
    have hword : c ∉ word := by
      intro hmem
      have hletter := (hws word (List.mem_cons_self ..)).2 c hmem
      rw [hblank] at hletter
      cases hletter
    cases later with
    | nil =>
      rw [List.intercalate_singleton] at hc
      exact absurd hc hword
    | cons next later =>
      rw [List.intercalate_cons_cons] at hc
      rcases List.mem_append.1 hc with hc | hc
      · rcases List.mem_append.1 hc with hc | hc
        · exact absurd hc hword
        · exact List.mem_singleton.1 hc
      · exact ih (fun w hw => hws w (List.mem_cons_of_mem _ hw)) hc

end Text
end DeskCalculator
