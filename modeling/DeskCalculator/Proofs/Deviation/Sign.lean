import Mathlib.Data.List.Infix
import DeskCalculator.Proofs.Binary64.Cancellation
import DeskCalculator.Proofs.Binary64.SquareRoot
import DeskCalculator.Proofs.Deviation.Failure

/-!
# When the deviation is a number

The sum of the squares and the product of the count and the squared mean are rounded apart,
and neither is negative (`exists_squares`, `exists_product`).  Their difference keeps its sign
when it is rounded, and so does the quotient unless it is rounded to zero
(`exists_variance`).  So the rounding on the way to these two alone decides whether the
variance is negative, and the deviation not a number (`sampleWith_sign`).  For three equal
values it may be (`sampleWith_three_tenths`).
-/

namespace DeskCalculator

namespace Binary64

variable {x y : Float} {a b q : ℚ}

/-- A number that is not negative is rounded to one that is not. -/
theorem Rounds.exists_nonneg (h : Rounds x q) (hfinite : x.isFinite = true) (hq : 0 ≤ q) :
    ∃ v, value? x = some v ∧ 0 ≤ v := by
  have hnearest := h.isNearest hfinite
  obtain ⟨v, hv⟩ := exists_value? hfinite
  exact ⟨v, hv, hnearest.ge_of_ge hv value?_zero hq⟩

/-- A quotient does not overflow if the divisor is at least one. -/
theorem isFinite_div (hx : value? x = some a) (hy : value? y = some b) (hb : 1 ≤ b) :
    (x / y).isFinite = true := by
  refine (rounds_div hx hy (by linarith)).isFinite (le_trans ?_ (abs_le_greatest hx))
  rw [abs_div, abs_of_pos (a := b) (by linarith)]
  exact div_le_self (abs_nonneg a) hb

end Binary64

namespace Deviation

open Binary64 (value? IsNearest)

variable {pow : Float → Float → Float} {values : List Float} {x : Float}

/-! ## What is assumed -/

/-- What is known of a power function. -/
structure IsPower (pow : Float → Float → Float) : Prop where
  /-- A square is the product, rounded once. -/
  square (x : Float) : pow x 2 = x * x
  /-- The root of a negative number is not a number. -/
  isNaN_root (x : Float) : x.isFinite = true → x < 0 → (pow x 0.5).isNaN = true
  /-- Any other root is not negative. -/
  root_nonneg (x : Float) : 0 ≤ x → 0 ≤ pow x 0.5

/-- No square, sum or product on the way overflows. -/
structure NoOverflow (pow : Float → Float → Float) (values : List Float) : Prop where
  /-- The squares are finite. -/
  square (x : Float) : x ∈ values → (pow x 2).isFinite = true
  /-- The sum of the values is finite, however many are read. -/
  total (read : List Float) : read <+: values → (sums pow read).total.isFinite = true
  /-- The sum of the squares is finite, however many are read. -/
  squares (read : List Float) : read <+: values → (sums pow read).squares.isFinite = true
  /-- The square of the mean is finite. -/
  meanSquare : (pow (sums pow values).mean 2).isFinite = true
  /-- Its product with the count is finite. -/
  product : ((sums pow values).count * pow (sums pow values).mean 2).isFinite = true

/-! ## The sum of the squares and the product -/

theorem sums_concat (pow : Float → Float → Float) (values : List Float) (x : Float) :
    sums pow (values ++ [x]) = (sums pow values).next pow x :=
  List.foldl_concat ..

theorem IsPower.exists_square (hpow : IsPower pow) (hx : x.isFinite = true)
    (hsquare : (pow x 2).isFinite = true) : ∃ v, value? (pow x 2) = some v ∧ 0 ≤ v := by
  obtain ⟨a, ha⟩ := Binary64.exists_value? hx
  rw [hpow.square] at hsquare ⊢
  exact (Binary64.rounds_mul ha ha).exists_nonneg hsquare (mul_self_nonneg a)

/-- A sum of squares is not negative. -/
theorem exists_squares (hpow : IsPower pow) (hfinite : ∀ x ∈ values, x.isFinite = true)
    (hsquare : ∀ x ∈ values, (pow x 2).isFinite = true)
    (hsquares : ∀ read, read <+: values → (sums pow read).squares.isFinite = true) :
    ∃ v, value? (sums pow values).squares = some v ∧ 0 ≤ v := by
  induction values using List.reverseRecOn with
  | nil => exact ⟨0, Binary64.value?_zero, le_refl 0⟩
  | append_singleton values x ih =>
    have hlast : x ∈ values ++ [x] := List.mem_append_right values (List.mem_singleton_self x)
    have hread := List.prefix_append values [x]
    obtain ⟨a, ha, hnonneg⟩ := ih (fun y hy => hfinite y (hread.mem hy))
      (fun y hy => hsquare y (hread.mem hy)) (fun read h => hsquares read (h.trans hread))
    obtain ⟨b, hb, hnonneg'⟩ := hpow.exists_square (hfinite x hlast) (hsquare x hlast)
    have hsum := hsquares (values ++ [x]) (List.prefix_refl _)
    rw [sums_concat] at hsum ⊢
    exact (Binary64.rounds_add ha hb).exists_nonneg hsum (add_nonneg hnonneg hnonneg')

/-- The product of the count and the squared mean is not negative. -/
theorem exists_product (hpow : IsPower pow) (hvalues : values ≠ [])
    (hoverflow : NoOverflow pow values) :
    ∃ v, value? ((sums pow values).count * pow (sums pow values).mean 2) = some v ∧ 0 ≤ v := by
  have hcount := value?_count pow values
  have hpos : 1 ≤ min values.length (2 ^ (53 : Nat)) :=
    le_min (List.length_pos_of_ne_nil hvalues) (by decide)
  have hone : (1 : ℚ) ≤ (min values.length (2 ^ (53 : Nat)) : Nat) := by exact_mod_cast hpos
  obtain ⟨a, ha⟩ := Binary64.exists_value? (hoverflow.total values (List.prefix_refl values))
  have hfinite : (sums pow values).mean.isFinite = true := Binary64.isFinite_div ha hcount hone
  obtain ⟨b, hb, hnonneg⟩ := hpow.exists_square hfinite hoverflow.meanSquare
  exact (Binary64.rounds_mul hcount hb).exists_nonneg hoverflow.product
    (mul_nonneg (Nat.cast_nonneg _) hnonneg)

/-! ## The variance -/

/-- The sum of the squared distances does not overflow, and is rounded once. -/
theorem exists_excess {a b : ℚ} (ha : value? (sums pow values).squares = some a) (hnonneg : 0 ≤ a)
    (hb : value? ((sums pow values).count * pow (sums pow values).mean 2) = some b)
    (hnonneg' : 0 ≤ b) :
    ∃ v, value? ((sums pow values).excess pow) = some v ∧
      IsNearest ((sums pow values).excess pow) (a - b) := by
  have hrounds := Binary64.rounds_sub ha hb
  have hle := (le_abs_self a).trans (Binary64.abs_le_greatest ha)
  have hle' := (le_abs_self b).trans (Binary64.abs_le_greatest hb)
  have hfinite := hrounds.isFinite (abs_le.2 ⟨by linarith, by linarith⟩)
  obtain ⟨v, hv⟩ := Binary64.exists_value? hfinite
  exact ⟨v, hv, hrounds.isNearest hfinite⟩

/-- The number that the sum of the squared distances is divided by. -/
def degrees (values : List Float) : Nat :=
  min values.length (2 ^ (53 : Nat)) - 1

/-- The variance is negative unless the quotient is rounded to zero. -/
theorem exists_variance {c : ℚ} (hlength : 2 ≤ values.length)
    (hc : value? ((sums pow values).excess pow) = some c) :
    ∃ v, value? ((sums pow values).variance pow) = some v ∧
      (v < 0 ↔ c < -(degrees values * 2 ^ (-1075 : Int))) := by
  have hvalues : values ≠ [] := List.ne_nil_of_length_pos (by omega)
  have hcount : value? ((sums pow values).count - 1) = some (degrees values : ℚ) :=
    value?_count_sub_one pow hvalues
  have hpos : 1 ≤ degrees values := by
    rw [degrees]
    omega
  have hone : (1 : ℚ) ≤ degrees values := by exact_mod_cast hpos
  have hfinite := Binary64.isFinite_div hc hcount hone
  obtain ⟨v, hv⟩ := Binary64.exists_value? hfinite
  have hnearest := (Binary64.rounds_div hc hcount (by linarith)).isNearest hfinite
  refine ⟨v, hv, ?_⟩
  rw [hnearest.neg_iff hv, div_lt_iff₀ (by linarith), neg_mul, mul_comm]

theorem degrees_mul_lt (values : List Float) :
    (degrees values * 2 ^ (-1075 : Int) : ℚ) < 2 ^ (-1022 : Int) := by
  have hpow : (0 : ℚ) < 2 ^ (-1075 : Int) := zpow_pos (by norm_num) _
  have hlt : (degrees values : ℚ) < 2 ^ (53 : Nat) := by
    have hnat : degrees values < 2 ^ (53 : Nat) := by
      rw [degrees]
      omega
    exact_mod_cast hnat
  calc (degrees values * 2 ^ (-1075 : Int) : ℚ) < 2 ^ (53 : Nat) * 2 ^ (-1075 : Int) :=
        mul_lt_mul_of_pos_right hlt hpow
    _ = 2 ^ (-1022 : Int) := by
      rw [← zpow_natCast, ← zpow_add₀ (by norm_num)]
      rfl

/-- **When the deviation is a number.**  Let nothing on the way overflow.  The deviation of
at least two values is not negative, unless the computed product of the count and the squared
mean is greater than the computed sum of the squares, and by more than a quotient rounded
to zero.  Then it is not a number. -/
theorem sampleWith_sign (hpow : IsPower pow) (hlength : 2 ≤ values.length)
    (hfinite : ∀ x ∈ values, x.isFinite = true) (hoverflow : NoOverflow pow values) :
    ∃ d a b, sampleWith pow values = .ok d ∧
      value? (sums pow values).squares = some a ∧
      value? ((sums pow values).count * pow (sums pow values).mean 2) = some b ∧
      (0 ≤ d ∧ b ≤ a + degrees values * 2 ^ (-1075 : Int) ∨
        d.isNaN = true ∧ a + degrees values * 2 ^ (-1075 : Int) < b) := by
  have hvalues : values ≠ [] := List.ne_nil_of_length_pos (by omega)
  have hone : values.length ≠ 1 := by omega
  obtain ⟨a, ha, hnonneg⟩ := exists_squares hpow hfinite hoverflow.square hoverflow.squares
  obtain ⟨b, hb, hnonneg'⟩ := exists_product hpow hvalues hoverflow
  obtain ⟨c, hc, hnearest⟩ := exists_excess ha hnonneg hb hnonneg'
  obtain ⟨v, hv, hneg⟩ := exists_variance hlength hc
  have hquotient : (0 : ℚ) ≤ degrees values * 2 ^ (-1075 : Int) :=
    mul_nonneg (Nat.cast_nonneg _) (zpow_nonneg (by norm_num) _)
  rw [hnearest.lt_neg_iff_sub_lt_neg ha hb hc hquotient (degrees_mul_lt values)] at hneg
  refine ⟨_, a, b, (sampleWith_eq pow hvalues).trans (if_neg hone), ha, hb, ?_⟩
  rcases lt_or_ge v 0 with hlt | hge
  · have hlt' := hneg.1 hlt
    rw [← Binary64.lt_iff hv Binary64.value?_zero] at hlt
    exact Or.inr ⟨hpow.isNaN_root _ (Binary64.isFinite_of_value? hv) hlt, by linarith⟩
  · have hge' := mt hneg.2 (not_lt.2 hge)
    rw [← Binary64.le_iff Binary64.value?_zero hv] at hge
    exact Or.inl ⟨hpow.root_nonneg _ hge, by linarith⟩

/-! ## Samples -/

/-- Squares and square roots, which are all the powers that a deviation takes. -/
def squareOrRoot (x y : Float) : Float :=
  if y == 2 then x * x else x.sqrt

theorem isPower_squareOrRoot : IsPower squareOrRoot := by
  have htwo : (2 : Float) == 2 := by decide +kernel
  have hhalf : ¬ (0.5 : Float) == 2 := by decide +kernel
  refine ⟨fun x => if_pos htwo, fun x hfinite h => ?_, fun x h => ?_⟩
  · rw [squareOrRoot, if_neg hhalf]
    exact Binary64.isNaN_sqrt hfinite h
  · rw [squareOrRoot, if_neg hhalf]
    exact Binary64.sqrt_nonneg h

/-- Whether anything overflows is a matter of finitely many sums. -/
theorem noOverflow_of_inits (hsquare : ∀ x ∈ values, (pow x 2).isFinite = true)
    (hsums : ∀ read ∈ values.inits,
      (sums pow read).total.isFinite = true ∧ (sums pow read).squares.isFinite = true)
    (hmean : (pow (sums pow values).mean 2).isFinite = true)
    (hproduct : ((sums pow values).count * pow (sums pow values).mean 2).isFinite = true) :
    NoOverflow pow values where
  square := hsquare
  total read h := (hsums read ((List.mem_inits read values).2 h)).1
  squares read h := (hsums read ((List.mem_inits read values).2 h)).2
  meanSquare := hmean
  product := hproduct

/-- The squares of one, two and three sum up to fourteen, the product is twelve. -/
theorem sampleWith_one_two_three :
    sampleWith squareOrRoot [1, 2, 3] = .ok 1 ∧
      ∃ d a b, sampleWith squareOrRoot [1, 2, 3] = .ok d ∧
        value? (sums squareOrRoot [1, 2, 3]).squares = some a ∧
        value? ((sums squareOrRoot [1, 2, 3]).count *
          squareOrRoot (sums squareOrRoot [1, 2, 3]).mean 2) = some b ∧
        (0 ≤ d ∧ b ≤ a + degrees [1, 2, 3] * 2 ^ (-1075 : Int) ∨
          d.isNaN = true ∧ a + degrees [1, 2, 3] * 2 ^ (-1075 : Int) < b) :=
  ⟨by decide +kernel, sampleWith_sign isPower_squareOrRoot (by decide) (by decide +kernel)
    (noOverflow_of_inits (by decide +kernel) (by decide +kernel) (by decide +kernel)
      (by decide +kernel))⟩

/-- **Three equal values have a deviation that is not a number**: three times the squared
mean of `0.1` is rounded to more than the sum of the squares. -/
theorem sampleWith_three_tenths :
    ¬ ∀ (pow : Float → Float → Float) (values : List Float), IsPower pow → 2 ≤ values.length →
      (∀ x ∈ values, x.isFinite = true) → NoOverflow pow values →
        ∃ d, sampleWith pow values = .ok d ∧ 0 ≤ d := by
  intro h
  obtain ⟨d, hd, hnonneg⟩ := h squareOrRoot [0.1, 0.1, 0.1] isPower_squareOrRoot (by decide)
    (by decide +kernel) (noOverflow_of_inits (by decide +kernel) (by decide +kernel)
      (by decide +kernel) (by decide +kernel))
  have hnan : sampleWith squareOrRoot [0.1, 0.1, 0.1] = .ok (Binary64.ofParts .notANumber) := by
    decide +kernel
  rw [hnan] at hd
  rw [← Except.ok.inj hd] at hnonneg
  exact absurd hnonneg (by decide +kernel)

end Deviation
end DeskCalculator
