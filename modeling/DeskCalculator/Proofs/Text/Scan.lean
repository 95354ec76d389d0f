import Mathlib.Data.Nat.Find

/-!
# The first failure from left to right

A reader goes through a list from left to right, and an element can make it fail
because of the elements before it.  Either no element does (`Sound`), or there is a
first one (`FirstFailure`), and what comes after it has no influence
(`FirstFailure.exists_split`).
-/

namespace DeskCalculator
namespace Scan

variable {α ε : Type} {fails : List α → α → ε → Prop} {xs : List α} {x : α} {i : Nat} {e : ε}

/-- The element at a position fails behind the elements before it. -/
def FailureAt (fails : List α → α → ε → Prop) (xs : List α) (i : Nat) (e : ε) : Prop :=
  ∃ x, xs[i]? = some x ∧ fails (xs.take i) x e

/-- No element fails. -/
def Sound (fails : List α → α → ε → Prop) (xs : List α) : Prop :=
  ∀ i e, ¬ FailureAt fails xs i e

/-- The first element that fails does so with the error. -/
def FirstFailure (fails : List α → α → ε → Prop) (xs : List α) (e : ε) : Prop :=
  ∃ i, FailureAt fails xs i e ∧ ∀ j < i, ∀ e', ¬ FailureAt fails xs j e'

theorem FailureAt.lt_length (h : FailureAt fails xs i e) : i < xs.length := by
  obtain ⟨x, hx, -⟩ := h
  exact (List.getElem?_eq_some_iff.1 hx).1

/-- A failure does not depend on what comes later. -/
theorem failureAt_append_iff (hi : i < xs.length) (later : List α) :
    FailureAt fails (xs ++ later) i e ↔ FailureAt fails xs i e := by
  rw [FailureAt, FailureAt, List.getElem?_append_left hi,
    List.take_append_of_le_length (Nat.le_of_lt hi)]

/-- A list is sound with one more element if that element does not fail. -/
theorem sound_append_singleton_iff :
    Sound fails (xs ++ [x]) ↔ Sound fails xs ∧ ∀ e, ¬ fails xs x e := by
  constructor
  · intro h
    refine ⟨fun i e hi => h i e ?_, fun e he => h xs.length e ?_⟩
    · exact (failureAt_append_iff hi.lt_length [x]).2 hi
    · exact ⟨x, by simp, by simpa using he⟩
  · rintro ⟨hxs, hx⟩ i e hi
    by_cases hlt : i < xs.length
    · exact hxs i e ((failureAt_append_iff hlt [x]).1 hi)
    · obtain rfl : i = xs.length := by
        have hlength := hi.lt_length
        simp at hlength
        omega
      obtain ⟨y, hy, he⟩ := hi
      obtain rfl : x = y := by simpa using hy
      exact hx e (by simpa using he)

/-- The list splits at its first failure. -/
theorem FirstFailure.exists_split (h : FirstFailure fails xs e) :
    ∃ earlier x later, xs = earlier ++ x :: later ∧ Sound fails earlier ∧ fails earlier x e := by
  obtain ⟨i, ⟨x, hx, he⟩, hfirst⟩ := h
  obtain ⟨hlt, rfl⟩ := List.getElem?_eq_some_iff.1 hx
  refine ⟨xs.take i, xs[i], xs.drop (i + 1), ?_, ?_, he⟩
  · rw [← List.drop_eq_getElem_cons hlt, List.take_append_drop]
  · intro j e' hj
    have hlt : j < i := by
      have hlength := hj.lt_length
      simp at hlength
      omega
    rw [← failureAt_append_iff hj.lt_length (xs.drop i), List.take_append_drop] at hj
    exact hfirst j hlt e' hj

/-- A list is sound or has a first failure. -/
theorem sound_or_firstFailure (fails : List α → α → ε → Prop) (xs : List α) :
    Sound fails xs ∨ ∃ e, FirstFailure fails xs e := by
  classical
  by_cases hfailure : ∃ i e, FailureAt fails xs i e
  · obtain ⟨e, he⟩ := Nat.find_spec hfailure
    refine Or.inr ⟨e, _, he, ?_⟩
    intro j hj e' he'
    exact Nat.find_min hfailure hj ⟨e', he'⟩
  · exact Or.inl fun i e h => hfailure ⟨i, e, h⟩

end Scan
end DeskCalculator
