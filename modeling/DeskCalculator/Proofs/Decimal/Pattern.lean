import Mathlib.Computability.RegularExpressions
import Mathlib.Tactic.IntervalCases
import DeskCalculator.Decimal.Literal

/-!
# The pattern of literals

What is read as a literal is what matches one of two regular expressions: digits with
an optional point behind the first of them, or digits behind a point
(`isSome_ofText?_iff`).  The reader takes the parts of a literal from left to right and
never looks back.  It finds the parts of the pattern all the same, since each of them
ends where the next one cannot go on: digits end before a point or the mark of an
exponent, and no sign follows a sign.  Both sides are compared with the parts of a
literal (`HasParts`).
-/

namespace DeskCalculator
namespace Decimal

open Float.Model.UnpackedFloat (Sign)
open RegularExpression (char star)

variable {s : Sign} {w u rest : List Char} {p q : RegularExpression Char}

namespace Pattern

/-! ## Patterns -/

/-- One of some characters. -/
def oneOf : List Char → RegularExpression Char
  | [] => 0
  | c :: cs => char c + oneOf cs

/-- A pattern or nothing. -/
def optional (p : RegularExpression Char) : RegularExpression Char :=
  1 + p

/-- A decimal digit. -/
def digit : RegularExpression Char :=
  oneOf "0123456789".toList

/-- At least one digit. -/
def digits : RegularExpression Char :=
  digit * star digit

/-- An optional sign. -/
def sign : RegularExpression Char :=
  optional (oneOf ['+', '-'])

/-- An optional exponent. -/
def exponent : RegularExpression Char :=
  optional (oneOf ['e', 'E'] * (sign * digits))

/-- A literal that starts with a digit. -/
def wholePattern : RegularExpression Char :=
  sign * (digits * (optional (char '.' * star digit) * exponent))

/-- A literal that starts with a point. -/
def pointPattern : RegularExpression Char :=
  sign * (char '.' * (digits * exponent))

/-- A literal. -/
def literal : RegularExpression Char :=
  wholePattern + pointPattern

theorem mem_char {c : Char} : w ∈ (char c).matches' ↔ w = [c] := by
  rw [RegularExpression.matches'_char]
  exact Set.mem_singleton_iff

theorem mem_oneOf {cs : List Char} : w ∈ (oneOf cs).matches' ↔ ∃ c ∈ cs, w = [c] := by
  induction cs with
  | nil => simp [oneOf]
  | cons c cs ih =>
    rw [oneOf, RegularExpression.matches'_add, Language.mem_add, ih, mem_char]
    simp

theorem mem_mul : w ∈ (p * q).matches' ↔ ∃ a ∈ p.matches', ∃ b ∈ q.matches', a ++ b = w := by
  rw [RegularExpression.matches'_mul, Language.mem_mul]

theorem mem_optional : w ∈ (optional p).matches' ↔ w = [] ∨ w ∈ p.matches' := by
  rw [optional, RegularExpression.matches'_add, Language.mem_add,
    RegularExpression.matches'_epsilon, Language.mem_one]

theorem mem_literal :
    w ∈ literal.matches' ↔ w ∈ wholePattern.matches' ∨ w ∈ pointPattern.matches' := by
  rw [literal, RegularExpression.matches'_add, Language.mem_add]

theorem mem_digit : w ∈ digit.matches' ↔ ∃ c, c.isDigit = true ∧ w = [c] := by
  have hdigit (c : Char) : c ∈ "0123456789".toList ↔ c.isDigit = true := by
    constructor
    · have hall : "0123456789".toList.all Char.isDigit = true := by decide
      exact List.all_eq_true.1 hall c
    · intro h
      obtain ⟨hlow, hhigh⟩ := Char.isDigit_iff_toNat.1 h
      have hlow : 48 ≤ c.toNat := hlow
      have hhigh : c.toNat ≤ 57 := hhigh
      rw [← Char.ofNat_toNat c]
      interval_cases c.toNat <;> decide
  rw [digit, mem_oneOf]
  exact exists_congr fun c => and_congr_left' (hdigit c)

theorem mem_star_digit : w ∈ (star digit).matches' ↔ ∀ c ∈ w, c.isDigit = true := by
  rw [RegularExpression.matches'_star, Language.mem_kstar]
  constructor
  · rintro ⟨pieces, rfl, hpieces⟩ c hc
    obtain ⟨piece, hpiece, hc⟩ := List.mem_flatten.1 hc
    obtain ⟨d, hd, rfl⟩ := mem_digit.1 (hpieces piece hpiece)
    rw [List.mem_singleton.1 hc]
    exact hd
  · intro h
    refine ⟨w.map ([·]), (List.flatMap_singleton' w).symm.trans List.flatMap_def, ?_⟩
    intro piece hpiece
    obtain ⟨c, hc, rfl⟩ := List.mem_map.1 hpiece
    exact mem_digit.2 ⟨c, h c hc, rfl⟩

theorem mem_digits : w ∈ digits.matches' ↔ w ≠ [] ∧ ∀ c ∈ w, c.isDigit = true := by
  rw [digits, mem_mul]
  constructor
  · rintro ⟨a, ha, b, hb, rfl⟩
    obtain ⟨c, hc, rfl⟩ := mem_digit.1 ha
    refine ⟨by simp, ?_⟩
    rw [List.singleton_append, List.forall_mem_cons]
    exact ⟨hc, mem_star_digit.1 hb⟩
  · rintro ⟨hne, hdigits⟩
    obtain ⟨c, later, rfl⟩ := List.exists_cons_of_ne_nil hne
    rw [List.forall_mem_cons] at hdigits
    exact ⟨[c], mem_digit.2 ⟨c, hdigits.1, rfl⟩, later, mem_star_digit.2 hdigits.2, rfl⟩

/-! ## Signs -/

/-- How a sign is written. -/
inductive SignText : Sign → List Char → Prop
  /-- No sign is a positive one. -/
  | none : SignText .positive []
  /-- The positive sign. -/
  | plus : SignText .positive ['+']
  /-- The negative sign. -/
  | minus : SignText .negative ['-']

theorem mem_sign : u ∈ sign.matches' ↔ ∃ s, SignText s u := by
  rw [sign, mem_optional, mem_oneOf]
  constructor
  · rintro (rfl | ⟨c, hc, rfl⟩)
    · exact ⟨_, .none⟩
    · rcases List.mem_pair.1 hc with rfl | rfl
      · exact ⟨_, .plus⟩
      · exact ⟨_, .minus⟩
  · rintro ⟨s, hu⟩
    cases hu with
    | none => exact Or.inl rfl
    | plus => exact Or.inr ⟨'+', by simp, rfl⟩
    | minus => exact Or.inr ⟨'-', by simp, rfl⟩

end Pattern

namespace Literal

/-- What is taken as a sign is one. -/
theorem exists_signText_of_takeSign (h : takeSign w = (s, rest)) :
    ∃ u, Pattern.SignText s u ∧ u ++ rest = w := by
  unfold takeSign at h
  split at h
  · cases h
    exact ⟨_, .minus, rfl⟩
  · cases h
    exact ⟨_, .plus, rfl⟩
  · cases h
    exact ⟨_, .none, rfl⟩

/-- A sign is taken in front of what starts with no other. -/
theorem takeSign_append (hu : Pattern.SignText s u) (hrest : ∀ c ∈ rest.head?, c ≠ '+' ∧ c ≠ '-') :
    takeSign (u ++ rest) = (s, rest) := by
  cases hu with
  | plus => rfl
  | minus => rfl
  | none =>
    cases rest with
    | nil => rfl
    | cons c later =>
      obtain ⟨hplus, hminus⟩ := hrest c rfl
      unfold takeSign
      split
      · rename_i heq
        exact absurd (List.cons.inj heq).1 hminus
      · rename_i heq
        exact absurd (List.cons.inj heq).1 hplus
      · rfl

/-! ## Digits -/

theorem not_sign_of_isDigit {c : Char} (hc : c.isDigit = true) : c ≠ '+' ∧ c ≠ '-' := by
  constructor <;> rintro rfl <;> cases hc

/-- Digits are taken up to what starts with none. -/
theorem span_digits {ds : List Char} (hds : ∀ c ∈ ds, c.isDigit = true)
    (hrest : ∀ c ∈ rest.head?, c.isDigit = false) :
    (ds ++ rest).takeWhile Char.isDigit = ds ∧ (ds ++ rest).dropWhile Char.isDigit = rest := by
  rw [List.takeWhile_append_of_pos hds, List.dropWhile_append_of_pos hds]
  cases rest with
  | nil => exact ⟨List.append_nil ds, rfl⟩
  | cons c later =>
    have hc := Bool.eq_false_iff.1 (hrest c rfl)
    rw [List.takeWhile_cons_of_neg hc, List.dropWhile_cons_of_neg hc]
    exact ⟨List.append_nil ds, rfl⟩

theorem isDigit_of_mem_takeWhile : ∀ c ∈ w.takeWhile Char.isDigit, c.isDigit = true :=
  List.all_eq_true.1 List.all_takeWhile

/-! ## Exponents -/

/-- An exponent is what the pattern says. -/
theorem isSome_exponent?_iff : (exponent? w).isSome = true ↔ w ∈ Pattern.exponent.matches' := by
  rw [Pattern.exponent, Pattern.mem_optional]
  constructor
  · intro h
    cases w with
    | nil => exact Or.inl rfl
    | cons mark later =>
      obtain ⟨s, ds, hsign⟩ : ∃ s ds, takeSign later = (s, ds) := ⟨_, _, rfl⟩
      simp only [exponent?, hsign] at h
      split at h
      · rename_i hparts
        simp only [Bool.and_eq_true, Bool.or_eq_true, beq_iff_eq, List.all_eq_true,
          Bool.not_eq_true', List.isEmpty_eq_false_iff] at hparts
        obtain ⟨⟨hmark, hne⟩, hds⟩ := hparts
        obtain ⟨u, hu, rfl⟩ := exists_signText_of_takeSign hsign
        refine Or.inr (Pattern.mem_mul.2 ⟨[mark], Pattern.mem_oneOf.2 ⟨mark, List.mem_pair.2 hmark, rfl⟩, _, ?_, rfl⟩)
        exact Pattern.mem_mul.2 ⟨u, Pattern.mem_sign.2 ⟨s, hu⟩, ds, Pattern.mem_digits.2 ⟨hne, hds⟩, rfl⟩
      · cases h
  · rintro (rfl | h)
    · rfl
    · obtain ⟨a, ha, b, hb, rfl⟩ := Pattern.mem_mul.1 h
      obtain ⟨mark, hmark, rfl⟩ := Pattern.mem_oneOf.1 ha
      obtain ⟨u, hu, ds, hds, rfl⟩ := Pattern.mem_mul.1 hb
      obtain ⟨s, hu⟩ := Pattern.mem_sign.1 hu
      obtain ⟨hne, hds⟩ := Pattern.mem_digits.1 hds
      have hsign : takeSign (u ++ ds) = (s, ds) := by
        refine takeSign_append hu fun c hc => ?_
        exact not_sign_of_isDigit (hds c (List.mem_of_mem_head? hc))
      have hmark : mark = 'e' ∨ mark = 'E' := List.mem_pair.1 hmark
      have hparts : ((mark == 'e' || mark == 'E') && !ds.isEmpty && ds.all Char.isDigit) = true := by
        simpa using ⟨⟨hmark, hne⟩, hds⟩
      rw [List.singleton_append, exponent?, hsign]
      dsimp only
      rw [if_pos hparts]
      rfl

/-- An exponent starts with its mark. -/
theorem head_of_mem_exponent (h : w ∈ Pattern.exponent.matches') :
    ∀ c ∈ w.head?, c = 'e' ∨ c = 'E' := by
  intro c hc
  rcases Pattern.mem_optional.1 h with rfl | h
  · cases hc
  · obtain ⟨a, ha, b, -, rfl⟩ := Pattern.mem_mul.1 h
    obtain ⟨mark, hmark, rfl⟩ := Pattern.mem_oneOf.1 ha
    cases hc
    exact List.mem_pair.1 hmark

theorem not_isDigit_of_mem_exponent (h : w ∈ Pattern.exponent.matches') :
    ∀ c ∈ w.head?, c.isDigit = false := by
  intro c hc
  rcases head_of_mem_exponent h c hc with rfl | rfl <;> rfl

/-! ## Literals -/

/-- The parts of a literal: a sign, digits, a point, digits and an exponent.  The point can
be missing with the digits behind it, but on one of its sides there are some. -/
inductive HasParts : List Char → Prop
  /-- The parts stand one behind the other. -/
  | intro {s : Sign} {u ds mark fs rest : List Char} (hu : Pattern.SignText s u)
      (hds : ∀ c ∈ ds, c.isDigit = true) (hmark : mark = ['.'] ∨ mark = [] ∧ fs = [])
      (hfs : ∀ c ∈ fs, c.isDigit = true) (hne : ds ≠ [] ∨ fs ≠ [])
      (hrest : rest ∈ Pattern.exponent.matches') :
      HasParts (u ++ (ds ++ (mark ++ (fs ++ rest))))

/-- Both patterns of literals have these parts. -/
theorem hasParts_of_mem_literal (h : w ∈ Pattern.literal.matches') : HasParts w := by
  rcases Pattern.mem_literal.1 h with h | h
  · obtain ⟨u, hu, body, hbody, rfl⟩ := Pattern.mem_mul.1 h
    obtain ⟨ds, hds, tail, htail, rfl⟩ := Pattern.mem_mul.1 hbody
    obtain ⟨point, hpoint, rest, hrest, rfl⟩ := Pattern.mem_mul.1 htail
    obtain ⟨s, hu⟩ := Pattern.mem_sign.1 hu
    obtain ⟨hne, hds⟩ := Pattern.mem_digits.1 hds
    rcases Pattern.mem_optional.1 hpoint with rfl | hpoint
    · exact .intro hu hds (.inr ⟨rfl, rfl⟩) (List.forall_mem_nil _) (.inl hne) hrest
    · obtain ⟨mark, hmark, fs, hfs, rfl⟩ := Pattern.mem_mul.1 hpoint
      rw [List.append_assoc]
      exact .intro hu hds (.inl (Pattern.mem_char.1 hmark)) (Pattern.mem_star_digit.1 hfs)
        (.inl hne) hrest
  · obtain ⟨u, hu, body, hbody, rfl⟩ := Pattern.mem_mul.1 h
    obtain ⟨mark, hmark, tail, htail, rfl⟩ := Pattern.mem_mul.1 hbody
    obtain ⟨fs, hfs, rest, hrest, rfl⟩ := Pattern.mem_mul.1 htail
    obtain ⟨s, hu⟩ := Pattern.mem_sign.1 hu
    obtain ⟨hne, hfs⟩ := Pattern.mem_digits.1 hfs
    exact .intro hu (List.forall_mem_nil _) (.inl (Pattern.mem_char.1 hmark)) hfs (.inr hne)
      hrest

/-- The digits in front of the point decide which pattern is matched. -/
theorem mem_literal_of_hasParts (h : HasParts w) : w ∈ Pattern.literal.matches' := by
  obtain ⟨hu, hds, hmark, hfs, hne, hrest⟩ := h
  rename_i s u ds mark fs rest
  have hsign := Pattern.mem_sign.2 ⟨s, hu⟩
  rw [Pattern.mem_literal]
  by_cases hempty : ds = []
  · subst hempty
    have hfsne : fs ≠ [] := hne.resolve_left (not_not.2 rfl)
    have hpoint : mark = ['.'] := hmark.resolve_right fun h => hfsne h.2
    refine Or.inr (Pattern.mem_mul.2 ⟨u, hsign, _, ?_, rfl⟩)
    refine Pattern.mem_mul.2 ⟨mark, Pattern.mem_char.2 hpoint, _, ?_, rfl⟩
    exact Pattern.mem_mul.2 ⟨fs, Pattern.mem_digits.2 ⟨hfsne, hfs⟩, rest, hrest, rfl⟩
  · refine Or.inl (Pattern.mem_mul.2 ⟨u, hsign, _, ?_, rfl⟩)
    refine Pattern.mem_mul.2 ⟨ds, Pattern.mem_digits.2 ⟨hempty, hds⟩, _, ?_, rfl⟩
    refine Pattern.mem_mul.2 ⟨mark ++ fs, Pattern.mem_optional.2 ?_, rest, hrest,
      List.append_assoc _ _ _⟩
    rcases hmark with rfl | ⟨rfl, rfl⟩
    · exact Or.inr (Pattern.mem_mul.2
        ⟨['.'], Pattern.mem_char.2 rfl, fs, Pattern.mem_star_digit.2 hfs, rfl⟩)
    · exact Or.inl rfl

/-- What is taken as a fraction is a point with digits behind it, or nothing. -/
theorem exists_mark_of_takeFraction {fs : List Char} (h : takeFraction w = (fs, rest)) :
    ∃ mark, w = mark ++ (fs ++ rest) ∧ (mark = ['.'] ∨ mark = [] ∧ fs = []) ∧
      ∀ c ∈ fs, c.isDigit = true := by
  unfold takeFraction at h
  split at h
  · cases h
    exact ⟨['.'], congrArg _ List.takeWhile_append_dropWhile.symm, Or.inl rfl,
      isDigit_of_mem_takeWhile⟩
  · cases h
    exact ⟨[], rfl, Or.inr ⟨rfl, rfl⟩, List.forall_mem_nil _⟩

/-- A fraction is taken in front of an exponent. -/
theorem takeFraction_append {mark fs : List Char} (hmark : mark = ['.'] ∨ mark = [] ∧ fs = [])
    (hfs : ∀ c ∈ fs, c.isDigit = true) (hrest : rest ∈ Pattern.exponent.matches') :
    takeFraction (mark ++ (fs ++ rest)) = (fs, rest) := by
  obtain ⟨htake, hdrop⟩ := span_digits hfs (not_isDigit_of_mem_exponent hrest)
  rcases hmark with rfl | ⟨rfl, rfl⟩
  · rw [List.singleton_append, takeFraction, htake, hdrop]
  · cases rest with
    | nil => rfl
    | cons c later => rcases head_of_mem_exponent hrest c rfl with rfl | rfl <;> rfl

/-- The reader finds these parts. -/
theorem hasParts_of_isSome (h : (ofText? w).isSome = true) : HasParts w := by
  obtain ⟨s, unsigned, hsign⟩ : ∃ s unsigned, takeSign w = (s, unsigned) := ⟨_, _, rfl⟩
  obtain ⟨fs, rest, hfraction⟩ : ∃ fs rest,
      takeFraction (unsigned.dropWhile Char.isDigit) = (fs, rest) := ⟨_, _, rfl⟩
  simp only [ofText?, hsign, hfraction] at h
  split at h
  · cases h
  rename_i hempty
  rw [Option.isSome_map, isSome_exponent?_iff] at h
  obtain ⟨u, hu, rfl⟩ := exists_signText_of_takeSign hsign
  obtain ⟨mark, hdrop, hmark, hfs⟩ := exists_mark_of_takeFraction hfraction
  have hne : unsigned.takeWhile Char.isDigit ≠ [] ∨ fs ≠ [] := by
    simpa [or_iff_not_imp_left] using hempty
  rw [← List.takeWhile_append_dropWhile (p := Char.isDigit) (l := unsigned), hdrop]
  exact .intro hu isDigit_of_mem_takeWhile hmark hfs hne h

/-- A text with these parts is read. -/
theorem isSome_of_hasParts (h : HasParts w) : (ofText? w).isSome = true := by
  obtain ⟨hu, hds, hmark, hfs, hne, hrest⟩ := h
  rename_i s u ds mark fs rest
  have hmarkStop : ∀ c ∈ (mark ++ (fs ++ rest)).head?, c.isDigit = false := by
    rcases hmark with rfl | ⟨rfl, rfl⟩
    · intro c hc
      cases hc
      rfl
    · exact not_isDigit_of_mem_exponent hrest
  have hunsigned : ∀ c ∈ (ds ++ (mark ++ (fs ++ rest))).head?, c ≠ '+' ∧ c ≠ '-' := by
    intro c hc
    cases ds with
    | cons d later =>
      cases hc
      exact not_sign_of_isDigit (hds c (List.mem_cons_self ..))
    | nil =>
      obtain rfl : mark = ['.'] :=
        hmark.resolve_right fun h => (hne.resolve_left (not_not.2 rfl)) h.2
      cases hc
      decide
  obtain ⟨htake, hdrop⟩ := span_digits hds hmarkStop
  have hempty : ¬ (ds.isEmpty && fs.isEmpty) = true := by
    simpa [or_iff_not_imp_left] using hne
  rw [ofText?, takeSign_append hu hunsigned]
  dsimp only
  rw [htake, hdrop, takeFraction_append hmark hfs hrest]
  dsimp only
  rw [if_neg hempty, Option.isSome_map]
  exact isSome_exponent?_iff.2 hrest

/-- **What is read as a literal is what matches the pattern.** -/
theorem isSome_ofText?_iff : (ofText? w).isSome = true ↔ w ∈ Pattern.literal.matches' :=
  ⟨fun h => mem_literal_of_hasParts (hasParts_of_isSome h),
    fun h => isSome_of_hasParts (hasParts_of_mem_literal h)⟩

end Literal
end Decimal
end DeskCalculator
