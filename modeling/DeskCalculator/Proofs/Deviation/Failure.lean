import DeskCalculator.Deviation
import DeskCalculator.Proofs.Binary64.Operations

/-!
# When the deviation fails

The number of values is counted in a double.  The count is exact up to `2 ^ 53` and stays
there, since adding one is rounded back from then on (`value?_count`).  So it is not zero
unless there is no value, and one less than it is zero only if there is one value
(`count_sub_one_beq_zero_iff`).  The exponent and the degree are the constant two, which
neither a power nor a root rejects.  What is left is the division by the count less one: it
fails for one value and for no other number of values (`sampleWith_classified`).
-/

namespace DeskCalculator

namespace Deviation

open Binary64 (value?)

variable {pow : Float → Float → Float} {s : Sums} {x : Float} {values : List Float} {n : Nat}

/-! ## The loop -/

/-- The sums with one more value, for an accepted exponent. -/
def Sums.next (pow : Float → Float → Float) (s : Sums) (x : Float) : Sums where
  count := s.count + 1
  total := s.total + x
  squares := s.squares + pow x 2

/-- The sums over a whole sample. -/
def sums (pow : Float → Float → Float) (values : List Float) : Sums :=
  values.foldl (Sums.next pow) {}

theorem powerWith_two (pow : Float → Float → Float) (x : Float) :
    Arithmetic.powerWith pow x 2 = .ok (pow x 2) := by
  have htwo : (Binary64.natural? 2).isSome = true := by decide +kernel
  rw [Arithmetic.powerWith, if_pos htwo]

theorem rootWith_two (pow : Float → Float → Float) (x : Float) :
    Arithmetic.rootWith pow x 2 = .ok (pow x 0.5) := by
  have htwo : ¬ (2 : Float) == 0 := by decide +kernel
  have hhalf : (1 : Float) / 2 = 0.5 := by decide +kernel
  rw [Arithmetic.rootWith, if_neg htwo, hhalf]

theorem add_eq_next (pow : Float → Float → Float) (s : Sums) (x : Float) :
    s.add pow x = .ok (s.next pow x) := by
  rw [Sums.add, powerWith_two]
  rfl

/-- No value stops the loop. -/
theorem foldlM_add (pow : Float → Float → Float) (values : List Float) (s : Sums) :
    values.foldlM (Sums.add pow) s = .ok (values.foldl (Sums.next pow) s) := by
  induction values generalizing s with
  | nil => rfl
  | cons x values ih =>
    rw [List.foldlM_cons, add_eq_next, List.foldl_cons]
    exact ih (s.next pow x)

/-! ## The count -/

/-- Adding one counts on up to `2 ^ 53`, and changes nothing from then on. -/
theorem value?_add_one (h : value? x = some ((min n (2 ^ (53 : Nat)) : Nat) : ℚ)) :
    value? (x + 1) = some ((min (n + 1) (2 ^ (53 : Nat)) : Nat) : ℚ) := by
  rcases Nat.lt_or_ge n (2 ^ (53 : Nat)) with hlt | hge
  · rw [Nat.min_eq_left hlt.le] at h
    rw [Nat.min_eq_left hlt]
    exact Binary64.value?_add_natCast h Binary64.value?_one hlt
  · rw [Nat.min_eq_right hge] at h
    rw [Nat.min_eq_right (hge.trans (Nat.le_succ n))]
    have hgreatest : value? 9007199254740992 = some ((2 ^ (53 : Nat) : Nat) : ℚ) :=
      (Binary64.natural?_eq_some_iff _ _).1 (by decide +kernel)
    rw [Binary64.eq_of_value?_eq h hgreatest (by norm_num)]
    exact (Binary64.natural?_eq_some_iff _ _).1 (by decide +kernel)

theorem value?_count_foldl (pow : Float → Float → Float) (values : List Float)
    (h : value? s.count = some ((min n (2 ^ (53 : Nat)) : Nat) : ℚ)) :
    value? (values.foldl (Sums.next pow) s).count =
      some ((min (n + values.length) (2 ^ (53 : Nat)) : Nat) : ℚ) := by
  induction values generalizing s n with
  | nil => exact h
  | cons x values ih =>
    rw [List.foldl_cons, List.length_cons, Nat.add_comm values.length, ← Nat.add_assoc]
    exact ih (value?_add_one h)

/-- **The count is exact up to `2 ^ 53`**, and stays there. -/
theorem value?_count (pow : Float → Float → Float) (values : List Float) :
    value? (sums pow values).count = some ((min values.length (2 ^ (53 : Nat)) : Nat) : ℚ) := by
  have hzero : value? ({} : Sums).count = some ((min 0 (2 ^ (53 : Nat)) : Nat) : ℚ) := by
    rw [Nat.zero_min, Nat.cast_zero]
    exact Binary64.value?_zero
  have hcount := value?_count_foldl pow values hzero
  rwa [Nat.zero_add] at hcount

/-- One less than the count is exact. -/
theorem value?_count_sub_one (pow : Float → Float → Float) (h : values ≠ []) :
    value? ((sums pow values).count - 1) =
      some ((min values.length (2 ^ (53 : Nat)) - 1 : Nat) : ℚ) := by
  have hpos : 1 ≤ min values.length (2 ^ (53 : Nat)) :=
    le_min (List.length_pos_of_ne_nil h) (by decide)
  exact Binary64.value?_sub_natCast (value?_count pow values) Binary64.value?_one hpos
    (Nat.min_le_right _ _)

theorem count_beq_zero_iff (pow : Float → Float → Float) (values : List Float) :
    (sums pow values).count == 0 ↔ values = [] := by
  rw [Binary64.beq_iff (value?_count pow values) Binary64.value?_zero, Nat.cast_eq_zero,
    ← List.length_eq_zero_iff]
  omega

theorem count_sub_one_beq_zero_iff (pow : Float → Float → Float) (h : values ≠ []) :
    (sums pow values).count - 1 == 0 ↔ values.length = 1 := by
  have hpos := List.length_pos_of_ne_nil h
  rw [Binary64.beq_iff (value?_count_sub_one pow h) Binary64.value?_zero, Nat.cast_eq_zero]
  omega

/-! ## The outcome -/

/-- The mean of a sample, as it is computed. -/
def Sums.mean (s : Sums) : Float :=
  s.total / s.count

/-- The sum of the squared distances from the mean, as it is computed. -/
def Sums.excess (pow : Float → Float → Float) (s : Sums) : Float :=
  s.squares - s.count * pow s.mean 2

/-- The sample variance, as it is computed. -/
def Sums.variance (pow : Float → Float → Float) (s : Sums) : Float :=
  s.excess pow / (s.count - 1)

/-- Only the division by one less than the count is left to fail. -/
theorem Sums.deviation_eq (hcount : ¬ s.count == 0) :
    s.deviation pow =
      if s.count - 1 == 0 then .error (.divisionByZero .divide (s.excess pow))
      else .ok (pow (s.variance pow) 0.5) := by
  have hmean : Arithmetic.divide s.total s.count = .ok s.mean := if_neg hcount
  by_cases hrest : s.count - 1 == 0
  · have hvariance : Arithmetic.divide (s.squares - s.count * pow s.mean 2) (s.count - 1) =
        .error (.divisionByZero .divide (s.excess pow)) := if_pos hrest
    rw [if_pos hrest]
    simp only [Sums.deviation, hmean, powerWith_two, hvariance, bind, Except.bind]
  · have hvariance : Arithmetic.divide (s.squares - s.count * pow s.mean 2) (s.count - 1) =
        .ok (s.variance pow) := if_neg hrest
    rw [if_neg hrest]
    simp only [Sums.deviation, hmean, powerWith_two, hvariance, bind, Except.bind, rootWith_two]

theorem sampleWith_eq (pow : Float → Float → Float) (h : values ≠ []) :
    sampleWith pow values =
      if values.length = 1 then
        .error (.divisionByZero .divide ((sums pow values).excess pow))
      else .ok (pow ((sums pow values).variance pow) 0.5) := by
  have hcount := mt (count_beq_zero_iff pow values).1 h
  have hempty : ¬ values.isEmpty = true := mt List.isEmpty_iff.1 h
  rw [sampleWith, if_neg hempty, foldlM_add]
  refine (Sums.deviation_eq hcount).trans ?_
  simp only [count_sub_one_beq_zero_iff pow h]

/-- A single value fails. -/
theorem sampleWith_singleton (pow : Float → Float → Float) (x : Float) :
    sampleWith pow [x] = .error (.divisionByZero .divide
      (0 + pow x 2 - (0 + 1) * pow ((0 + x) / (0 + 1)) 2)) :=
  (sampleWith_eq pow (List.cons_ne_nil x [])).trans (if_pos rfl)

/-- Any other number of values does not. -/
theorem exists_sampleWith_eq_ok (pow : Float → Float → Float) (h : values.length ≠ 1) :
    ∃ d, sampleWith pow values = .ok d := by
  by_cases hempty : values = []
  · rw [hempty]
    exact ⟨0, rfl⟩
  · rw [sampleWith_eq pow hempty, if_neg h]
    exact ⟨_, rfl⟩

/-- **The deviation of a sample fails exactly if the sample is a single value**, whatever the
values are and whatever the power function gives, so that this holds of `sample`.  The
division that fails has the sum of the squared distances as its dividend. -/
theorem sampleWith_classified (pow : Float → Float → Float) (values : List Float) :
    sampleWith pow [] = .ok 0 ∧
      (∀ e, sampleWith pow values = .error e ↔
        ∃ x, values = [x] ∧ e = .divisionByZero .divide
          (0 + pow x 2 - (0 + 1) * pow ((0 + x) / (0 + 1)) 2)) ∧
      ((∃ d, sampleWith pow values = .ok d) ↔ values.length ≠ 1) := by
  refine ⟨rfl, fun e => ?_, ?_⟩
  · constructor
    · intro h
      by_cases hone : values.length = 1
      · obtain ⟨x, rfl⟩ := List.length_eq_one_iff.1 hone
        rw [sampleWith_singleton] at h
        exact ⟨x, rfl, (Except.error.inj h).symm⟩
      · obtain ⟨d, hd⟩ := exists_sampleWith_eq_ok pow hone
        rw [hd] at h
        cases h
    · rintro ⟨x, rfl, rfl⟩
      exact sampleWith_singleton pow x
  · constructor
    · rintro ⟨d, hd⟩ hone
      obtain ⟨x, rfl⟩ := List.length_eq_one_iff.1 hone
      rw [sampleWith_singleton] at hd
      cases hd
    · exact exists_sampleWith_eq_ok pow

end Deviation
end DeskCalculator
