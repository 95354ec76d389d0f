import DeskCalculator.Proofs.Decimal.Pattern
import DeskCalculator.Proofs.Token.Reading

/-!
# Names of special values

Beside literals, an optional sign and one of the names `inf`, `infinity` and `nan` is
read as a double, in any letter case (`Special`).  A name is no literal, so that the two
kinds of texts do not meet (`read?_eq_some_iff`).
-/

namespace DeskCalculator
namespace Decimal

open Float.Model.UnpackedFloat (Sign)

variable {s : Sign} {w u name : List Char} {x : Float} {c d : Char}

/-! ## Letter case -/

namespace Pattern

/-- A name in any letter case. -/
def anyCase : List Char → RegularExpression Char
  | [] => 1
  | c :: cs => oneOf [c, c.toUpper] * anyCase cs

theorem toNat_toLower (d : Char) :
    d.toLower.toNat = if 65 ≤ d.toNat ∧ d.toNat ≤ 90 then d.toNat + 32 else d.toNat := by
  have hrange : (d.val ≥ 'A'.val ∧ d.val ≤ 'Z'.val) ↔ 65 ≤ d.toNat ∧ d.toNat ≤ 90 := Iff.rfl
  unfold Char.toLower
  by_cases h : 65 ≤ d.toNat ∧ d.toNat ≤ 90
  · rw [if_pos h, dif_pos (hrange.2 h)]
    show (d.val + 32).toNat = d.toNat + 32
    rw [UInt32.toNat_add]
    exact Nat.mod_eq_of_lt (Nat.lt_of_le_of_lt (Nat.add_le_add_right h.2 32) (by decide))
  · rw [if_neg h, dif_neg (mt hrange.1 h)]

theorem toNat_toUpper (hlow : 97 ≤ c.toNat) (hhigh : c.toNat ≤ 122) :
    c.toUpper.toNat = c.toNat - 32 := by
  have hval : c.val.toNat = c.toNat := rfl
  -- in words of 32 bits, 32 is subtracted by adding its complement
  have hcomplement : (4294967264 : UInt32).toNat = 4294967264 := rfl
  unfold Char.toUpper
  rw [dif_pos ⟨hlow, hhigh⟩]
  show (c.val + 4294967264).toNat = c.toNat - 32
  rw [UInt32.toNat_add, hval, hcomplement]
  omega

/-- The letters that are the same small letter. -/
theorem toLower_eq_iff (hc : c.isLower = true) : d.toLower = c ↔ d = c ∨ d = c.toUpper := by
  obtain ⟨hlow, hhigh⟩ : 97 ≤ c.toNat ∧ c.toNat ≤ 122 := by
    obtain ⟨hlow, hhigh⟩ := Bool.and_eq_true_iff.1 hc
    exact ⟨of_decide_eq_true hlow, of_decide_eq_true hhigh⟩
  have hupper := toNat_toUpper hlow hhigh
  rw [← Char.toNat_inj, ← Char.toNat_inj, ← Char.toNat_inj, toNat_toLower, hupper]
  split <;> omega

/-- A name matches if it is the same in small letters. -/
theorem mem_anyCase (hname : name.all Char.isLower = true) :
    w ∈ (anyCase name).matches' ↔ w.map Char.toLower = name := by
  induction name generalizing w with
  | nil =>
    rw [anyCase, RegularExpression.matches'_epsilon, Language.mem_one, List.map_eq_nil_iff]
  | cons c name ih =>
    rw [List.all_cons, Bool.and_eq_true] at hname
    rw [anyCase, mem_mul, List.map_eq_cons_iff]
    constructor
    · rintro ⟨a, ha, b, hb, rfl⟩
      obtain ⟨d, hd, rfl⟩ := mem_oneOf.1 ha
      exact ⟨d, b, rfl, (toLower_eq_iff hname.1).2 (List.mem_pair.1 hd), (ih hname.2).1 hb⟩
    · rintro ⟨d, b, rfl, hd, hb⟩
      exact ⟨[d], mem_oneOf.2 ⟨d, List.mem_pair.2 ((toLower_eq_iff hname.1).1 hd), rfl⟩, b,
        (ih hname.2).2 hb, rfl⟩

end Pattern

/-! ## Special values -/

/-- A text is a special value: an infinity of either sign, or what is not a number. -/
inductive Special : List Char → Float → Prop
  /-- The names of the infinities. -/
  | infinity {s : Sign} {u name : List Char} (hu : Pattern.SignText s u)
      (hname : name ∈ (Pattern.anyCase "inf".toList + Pattern.anyCase "infinity".toList).matches') :
      Special (u ++ name) (Binary64.ofParts (.infinity s))
  /-- The name of what is not a number. -/
  | notANumber {s : Sign} {u name : List Char} (hu : Pattern.SignText s u)
      (hname : name ∈ (Pattern.anyCase "nan".toList).matches') :
      Special (u ++ name) (Binary64.ofParts .notANumber)

theorem special?_eq_some_iff :
    special? s name = some x ↔
      name ∈ (Pattern.anyCase "inf".toList + Pattern.anyCase "infinity".toList).matches' ∧
          x = Binary64.ofParts (.infinity s) ∨
        name ∈ (Pattern.anyCase "nan".toList).matches' ∧ x = Binary64.ofParts .notANumber := by
  rw [RegularExpression.matches'_add, Language.mem_add, Pattern.mem_anyCase (by decide),
    Pattern.mem_anyCase (by decide), Pattern.mem_anyCase (by decide), special?]
  split
  · rename_i hinfinity
    rw [Bool.or_eq_true, decide_eq_true_iff, decide_eq_true_iff] at hinfinity
    have hnan : name.map Char.toLower ≠ "nan".toList := by
      rcases hinfinity with h | h <;> rw [h] <;> decide
    rw [Option.some.injEq, eq_comm, and_iff_right hinfinity, or_iff_left fun h => hnan h.1]
  rename_i hinfinity
  rw [Bool.or_eq_true, decide_eq_true_iff, decide_eq_true_iff] at hinfinity
  split
  · rename_i hnan
    rw [Option.some.injEq, eq_comm, and_iff_right hnan, or_iff_right fun h => hinfinity h.1]
  · rename_i hnan
    constructor
    · intro h
      cases h
    · rintro (h | h)
      · exact absurd h.1 hinfinity
      · exact absurd h.1 hnan

/-- A name starts with one of the two letters that its first one is. -/
theorem exists_cons_of_mem_anyCase (h : w ∈ (Pattern.anyCase (c :: name)).matches') :
    ∃ later, w = c :: later ∨ w = c.toUpper :: later := by
  obtain ⟨a, ha, later, -, rfl⟩ := Pattern.mem_mul.1 h
  obtain ⟨d, hd, rfl⟩ := Pattern.mem_oneOf.1 ha
  rcases List.mem_pair.1 hd with rfl | rfl
  · exact ⟨later, Or.inl rfl⟩
  · exact ⟨later, Or.inr rfl⟩

/-- The first letter of a name is in no literal. -/
theorem exists_letter_of_special? (h : special? s name = some x) :
    ∃ c later, name = c :: later ∧ Literal.isLiteralChar c = false := by
  rw [special?_eq_some_iff, RegularExpression.matches'_add, Language.mem_add] at h
  obtain ⟨later, rfl | rfl⟩ | ⟨later, rfl | rfl⟩ :
      (∃ later, name = 'i' :: later ∨ name = 'I' :: later) ∨
        ∃ later, name = 'n' :: later ∨ name = 'N' :: later := by
    rcases h with ⟨h | h, -⟩ | ⟨h, -⟩
    · exact Or.inl (exists_cons_of_mem_anyCase h)
    · exact Or.inl (exists_cons_of_mem_anyCase h)
    · exact Or.inr (exists_cons_of_mem_anyCase h)
  · exact ⟨_, later, rfl, rfl⟩
  · exact ⟨_, later, rfl, rfl⟩
  · exact ⟨_, later, rfl, rfl⟩
  · exact ⟨_, later, rfl, rfl⟩

/-- Behind its sign the name of a special value is found. -/
theorem takeSign_of_special? (hu : Pattern.SignText s u) (h : special? s name = some x) :
    Literal.takeSign (u ++ name) = (s, name) := by
  obtain ⟨c, later, rfl, hc⟩ := exists_letter_of_special? h
  refine Literal.takeSign_append hu fun d hd => ?_
  cases hd
  constructor <;> rintro rfl <;> cases hc

/-- A special value is no literal. -/
theorem ofText?_of_special? (u : List Char) (h : special? s name = some x) :
    Literal.ofText? (u ++ name) = none := by
  obtain ⟨c, later, rfl, hc⟩ := exists_letter_of_special? h
  cases hl : Literal.ofText? (u ++ c :: later) with
  | none => rfl
  | some l =>
    have hliteral := (Literal.isLiteralChar_of_ofText? hl).2 c
      (List.mem_append_right u (List.mem_cons_self ..))
    rw [hliteral] at hc
    cases hc

/-- A special value is a sign and a name. -/
theorem special_iff :
    Special w x ↔ ∃ s u name, Pattern.SignText s u ∧ special? s name = some x ∧ u ++ name = w := by
  constructor
  · rintro (⟨hu, hname⟩ | ⟨hu, hname⟩)
    · exact ⟨_, _, _, hu, special?_eq_some_iff.2 (Or.inl ⟨hname, rfl⟩), rfl⟩
    · exact ⟨_, _, _, hu, special?_eq_some_iff.2 (Or.inr ⟨hname, rfl⟩), rfl⟩
  · rintro ⟨s, u, name, hu, h, rfl⟩
    rcases special?_eq_some_iff.1 h with ⟨hname, rfl⟩ | ⟨hname, rfl⟩
    · exact .infinity hu hname
    · exact .notANumber hu hname

/-- **What is read as a double** is a literal or a special value. -/
theorem read?_eq_some_iff :
    read? w = some x ↔ (∃ l, Literal.ofText? w = some l ∧ l.value = x) ∨ Special w x := by
  rw [special_iff, read?]
  constructor
  · intro h
    cases hl : Literal.ofText? w with
    | some l =>
      rw [hl] at h
      exact Or.inl ⟨l, rfl, Option.some.inj h⟩
    | none =>
      rw [hl] at h
      obtain ⟨u, hu, hw⟩ := Literal.exists_signText_of_takeSign (w := w) rfl
      exact Or.inr ⟨_, u, _, hu, h, hw⟩
  · rintro (⟨l, hl, rfl⟩ | ⟨s, u, name, hu, h, rfl⟩)
    · rw [hl]
    · rw [ofText?_of_special? u h, takeSign_of_special? hu h]
      exact h

end Decimal
end DeskCalculator
