import Mathlib.Order.Bounds.Basic
import DeskCalculator.Arithmetic
import DeskCalculator.Proofs.Binary64.Operations
import DeskCalculator.Proofs.Number.Normalization

/-!
# The loop of the factorial

A factorial is computed by a loop over two doubles, the next factor and the product so
far (`PartialProduct`).  It goes on while the factor is at most the operand and the
product is finite.  From `2 ^ 53` on, adding one does not change the factor any more, so
that the first condition alone would hold for ever.  The loop ends all the same: the
product of the factors from 2 to 171 is infinite (`isFinite_partialProduct_iff`), and an infinite
product stays as it is (`infinity_mul`).  So leaving the loop there changes nothing
(`productUpTo_eq_infinity`), and the factorial is the product of all factors
(`factorial_classified`).
-/

namespace DeskCalculator

open Float.Model (UnpackedFloat)
open Float.Model.Format (binary64)
open Float.Model.UnpackedFloat (Sign)

namespace Binary64

variable {x y : Float} {b : ℚ} {n : Nat}

/-! ## Infinite products -/

/-- The positive infinity. -/
def infinity : Float :=
  ofParts (.infinity .positive)

/-- A product with an infinity is an infinity, or not a number. -/
theorem infinity_mul_cases (s : Sign) (p : UnpackedFloat) :
    (∃ t, .mul binary64 (.infinity s) p = UnpackedFloat.infinity t) ∨
      .mul binary64 (.infinity s) p = UnpackedFloat.notANumber := by
  cases p with
  | zero t => exact Or.inr rfl
  | finite t m e hm => exact Or.inl ⟨_, rfl⟩
  | infinity t => exact Or.inl ⟨_, rfl⟩
  | notANumber => exact Or.inr rfl

/-- A finite product has finite factors. -/
theorem isFinite_of_isFinite_mul (h : (x * y).isFinite = true) : x.isFinite = true := by
  have hproduct : (x * y).isFinite =
      (parts (ofParts (.mul binary64 (parts x) (parts y)))).isFinite := rfl
  have hfactor : x.isFinite = (parts x).isFinite := rfl
  rw [hproduct] at h
  rw [hfactor]
  cases hx : parts x with
  | zero s => rfl
  | finite s m e hm => rfl
  | notANumber =>
    have hnan : UnpackedFloat.mul binary64 .notANumber (parts y) = .notANumber := rfl
    rw [hx, hnan, parts_notANumber] at h
    exact absurd h Bool.false_ne_true
  | infinity s =>
    rw [hx] at h
    rcases infinity_mul_cases s (parts y) with ⟨t, ht⟩ | hnan
    · rw [ht, parts_infinity] at h
      exact absurd h Bool.false_ne_true
    · rw [hnan, parts_notANumber] at h
      exact absurd h Bool.false_ne_true

/-- An infinity stays as it is when it is multiplied by a positive number. -/
theorem infinity_mul (hy : value? y = some b) (hpos : 0 < b) : infinity * y = infinity := by
  have hproduct : infinity * y = ofParts (.mul binary64 (parts infinity) (parts y)) := rfl
  rw [hproduct, infinity, parts_infinity]
  rcases parts_of_value? hy with ⟨s, hparts, rfl⟩ | ⟨s, m, e, hm, hparts, -, rfl⟩
  · exact absurd hpos (lt_irrefl 0)
  · have hmagnitude := mul_zpow_pos hm e
    cases s with
    | positive =>
      rw [hparts]
      rfl
    | negative =>
      rw [signed] at hpos
      exact absurd hpos (by linarith)

/-! ## Natural numbers -/

/-- The double nearest to a natural number. -/
def ofNatural (n : Nat) : Float :=
  nearest .positive n 1

/-- Below `2 ^ 53` a natural number is a double. -/
theorem value?_ofNatural (hpos : 0 < n) (hlt : n < 2 ^ (53 : Nat)) :
    value? (ofNatural n) = some (n : ℚ) := by
  have hvalue : ((n : Nat) / (1 : Nat) : ℚ) = n * 2 ^ (0 : Int) := by simp
  obtain ⟨m, e, hm, hc, hle, heq, hnearest⟩ :=
    exists_nearest .positive hpos hlt (by decide) Nat.one_pos hvalue
  rw [ofNatural, hnearest, value?_ofParts _ hc (by omega) hm, heq, signed]
  simp

/-- Adding one to it gives the next one. -/
theorem ofNatural_add_one (hpos : 0 < n) (hlt : n + 1 < 2 ^ (53 : Nat)) :
    ofNatural n + 1 = ofNatural (n + 1) := by
  have hfactor := value?_ofNatural hpos (Nat.lt_of_succ_lt hlt)
  have hnext := value?_ofNatural (Nat.succ_pos n) hlt
  have hsum := value?_add_natCast hfactor value?_one hlt.le
  exact eq_of_value?_eq hsum hnext (Nat.cast_ne_zero.2 (Nat.succ_ne_zero n))

end Binary64

namespace Arithmetic

open Binary64 (value? isIntegral ofNatural infinity natural?)

variable {a r : Float} {k n : Nat}

/-! ## The loop -/

/-- The variables of the loop: the next factor and the product of those before. -/
structure PartialProduct where
  /-- The next factor. -/
  factor : Float := 2
  /-- The product so far. -/
  result : Float := 1

/-- One round of the loop. -/
def PartialProduct.next (p : PartialProduct) : PartialProduct where
  factor := p.factor + 1
  result := p.result * p.factor

/-- Does the loop go on? -/
def PartialProduct.continues (p : PartialProduct) (a : Float) : Bool :=
  p.factor ≤ a && p.result.isFinite

/-- The variables after so many rounds. -/
def partialProduct : Nat → PartialProduct
  | 0 => {}
  | k + 1 => (partialProduct k).next

/-- The product of the factors from 2 to `n`, from left to right and without a stop. -/
def productUpTo (n : Nat) : Float :=
  (List.range' 2 (n - 1)).foldl (fun product i => product * ofNatural i) 1

theorem productUpTo_succ (hn : 0 < n) :
    productUpTo (n + 1) = productUpTo n * ofNatural (n + 1) := by
  obtain ⟨j, rfl⟩ := Nat.exists_eq_add_of_lt hn
  have hlast : 2 + j = j + 1 + 1 := by omega
  simp only [productUpTo, Nat.zero_add, Nat.add_sub_cancel, List.range'_1_concat,
    List.foldl_concat, hlast]

/-- **The variables of the loop**: the factor is the next natural number, as far as that is
a double, and the product is that of the factors before. -/
theorem partialProduct_eq (hlt : k + 2 < 2 ^ (53 : Nat)) :
    partialProduct k = ⟨ofNatural (k + 2), productUpTo (k + 1)⟩ := by
  induction k with
  | zero =>
    have htwo : (2 : Float) = ofNatural 2 := by decide +kernel
    rw [partialProduct, ← htwo]
    rfl
  | succ k ih =>
    have hfactor : ofNatural (k + 2) + 1 = ofNatural (k + 3) :=
      Binary64.ofNatural_add_one (Nat.succ_pos (k + 1)) hlt
    rw [partialProduct, ih (Nat.lt_of_succ_lt hlt), PartialProduct.next, hfactor,
      productUpTo_succ (Nat.succ_pos k)]

/-- The product of the factors from 2 to 170. -/
theorem productUpTo_170 : productUpTo 170 = 7.257415615307994e306 := by
  decide +kernel

/-- Up to 170 the product is finite. -/
theorem isFinite_productUpTo (hn : n ≤ 170) : (productUpTo n).isFinite = true := by
  rcases Nat.eq_zero_or_pos n with rfl | hpos
  · decide +kernel
  induction hn using Nat.decreasingInduction with
  | self =>
    rw [productUpTo_170]
    decide +kernel
  | of_succ n hn ih =>
    have hsucc := ih (Nat.succ_pos n)
    rw [productUpTo_succ hpos] at hsucc
    exact Binary64.isFinite_of_isFinite_mul hsucc

/-- **From 171 on the product is infinite**, as far as the factors are doubles. -/
theorem productUpTo_eq_infinity (hn : 171 ≤ n) (hlt : n < 2 ^ (53 : Nat)) :
    productUpTo n = infinity := by
  induction n, hn using Nat.le_induction with
  | base =>
    rw [productUpTo_succ (by decide), productUpTo_170]
    decide +kernel
  | succ n hn ih =>
    have hfactor := Binary64.value?_ofNatural (Nat.succ_pos n) hlt
    rw [productUpTo_succ (by omega), ih (by omega)]
    exact Binary64.infinity_mul hfactor (by exact_mod_cast Nat.succ_pos n)

/-- Within 170 rounds the product is infinite exactly after the last one. -/
theorem isFinite_partialProduct_iff (hk : k ≤ 170) :
    (partialProduct k).result.isFinite = true ↔ k < 170 := by
  rw [partialProduct_eq (by omega)]
  constructor
  · intro h
    refine Nat.lt_of_le_of_ne hk ?_
    rintro rfl
    rw [productUpTo_eq_infinity (Nat.le_refl 171) (by decide)] at h
    exact absurd h Bool.false_ne_true
  · intro h
    exact isFinite_productUpTo h

/-- The loop goes on as long as a factor is left and the product is finite. -/
theorem continues_iff (ha : value? a = some (n : ℚ)) (hk : k ≤ 170) :
    (partialProduct k).continues a = true ↔ k + 2 ≤ n ∧ k < 170 := by
  have hfactor := Binary64.value?_ofNatural (Nat.succ_pos (k + 1))
    (Nat.lt_of_le_of_lt (Nat.add_le_add_right hk 2) (by decide))
  have hle : (partialProduct k).factor ≤ a ↔ k + 2 ≤ n := by
    rw [partialProduct_eq (by omega), Binary64.le_iff hfactor ha]
    exact_mod_cast Iff.rfl
  rw [PartialProduct.continues, Bool.and_eq_true, decide_eq_true_iff, hle,
    isFinite_partialProduct_iff hk]

/-- **The loop ends**, after one round for each factor or with the infinite product. -/
theorem isLeast_not_continues (ha : value? a = some (n : ℚ)) :
    IsLeast {k | ¬ (partialProduct k).continues a = true} (min (n - 1) 170) := by
  constructor
  · intro h
    have hcontinues := (continues_iff ha (Nat.min_le_right _ _)).1 h
    omega
  · intro k hk
    by_contra hlt
    have hrange : k < n - 1 ∧ k < 170 := by omega
    exact hk ((continues_iff ha (Nat.le_of_lt hrange.2)).2 (by omega))

/-! ## The factorial -/

/-- The counted product is the product with which the loop ends. -/
theorem productFrom_partialProduct (hk : k ≤ 170) (m : Nat) :
    productFrom m (partialProduct k).factor (partialProduct k).result =
      (partialProduct (min (k + m) 170)).result := by
  induction m generalizing k with
  | zero =>
    rw [Nat.add_zero, Nat.min_eq_left hk, productFrom]
  | succ m ih =>
    by_cases hlt : k < 170
    · have hnext := ih (k := k + 1) hlt
      rw [partialProduct] at hnext
      rw [productFrom, if_pos ((isFinite_partialProduct_iff hk).2 hlt)]
      exact hnext.trans (by rw [Nat.add_right_comm k 1 m, Nat.add_assoc k m 1])
    · obtain rfl : k = 170 := by omega
      rw [productFrom, if_neg (mt (isFinite_partialProduct_iff hk).1 hlt),
        Nat.min_eq_right (by omega)]

theorem factorial_eq_ok_iff :
    factorial a = .ok r ↔
      ∃ n : Nat, value? a = some (n : ℚ) ∧ r = (partialProduct (min (n - 1) 170)).result := by
  have hproduct (n : Nat) :
      productFrom (n - 1) 2 1 = (partialProduct (min (n - 1) 170)).result := by
    have hcounted := productFrom_partialProduct (Nat.zero_le 170) (n - 1)
    rw [Nat.zero_add] at hcounted
    exact hcounted
  rw [factorial]
  constructor
  · intro h
    cases hn : natural? a with
    | none =>
      rw [hn] at h
      cases h
    | some n =>
      rw [hn] at h
      cases h
      exact ⟨n, (Binary64.natural?_eq_some_iff a n).1 hn, hproduct n⟩
  · rintro ⟨n, ha, rfl⟩
    rw [(Binary64.natural?_eq_some_iff a n).2 ha]
    exact congrArg Except.ok (hproduct n)

/-- The operands that are accepted are the whole ones that are not negative. -/
theorem exists_factorial_iff :
    (∃ r, factorial a = .ok r) ↔ isIntegral a = true ∧ ¬ a < 0 := by
  constructor
  · rintro ⟨r, h⟩
    obtain ⟨n, ha, -⟩ := factorial_eq_ok_iff.1 h
    refine ⟨(Binary64.isIntegral_iff a).2 ⟨n, (Binary64.value?_eq_intCast_iff a n).1 ?_⟩, ?_⟩
    · exact_mod_cast ha
    · rw [Binary64.lt_iff ha Binary64.value?_zero]
      exact_mod_cast Nat.not_lt_zero n
  · rintro ⟨hwhole, hsign⟩
    obtain ⟨i, hi⟩ := (Binary64.isIntegral_iff a).1 hwhole
    have ha := (Binary64.value?_eq_intCast_iff a i).2 hi
    rw [Binary64.lt_iff ha Binary64.value?_zero] at hsign
    obtain ⟨n, rfl⟩ := Int.eq_ofNat_of_zero_le (by exact_mod_cast not_lt.1 hsign : 0 ≤ i)
    exact ⟨_, factorial_eq_ok_iff.2 ⟨n, by exact_mod_cast ha, rfl⟩⟩

/-- **The early stop of the factorial changes nothing, and the loop always ends.**  The
operands are the whole doubles that are not negative.  For each of them, the loop ends
after at most 170 rounds, and its product is the factorial.  Below `2 ^ 53` this is the
product of all factors, each multiplication rounded.  It is infinite from 171 on and
finite before. -/
theorem factorial_classified (a : Float) :
    ((∃ r, factorial a = .ok r) ↔ isIntegral a = true ∧ ¬ a < 0) ∧
      ∀ r, factorial a = .ok r → ∃ n : Nat, value? a = some (n : ℚ) ∧
        (∃ k ≤ 170, IsLeast {j | ¬ (partialProduct j).continues a = true} k ∧
          r = (partialProduct k).result) ∧
        (n < 2 ^ (53 : Nat) → r = productUpTo n) ∧
        (171 ≤ n → r = infinity) ∧
        (n ≤ 170 → r.isFinite = true) := by
  refine ⟨exists_factorial_iff, fun r h => ?_⟩
  obtain ⟨n, ha, rfl⟩ := factorial_eq_ok_iff.1 h
  -- an operand less than 171 has a round for each factor after the first
  have hsmall (hn : n ≤ 170) : (partialProduct (min (n - 1) 170)).result = productUpTo n := by
    rcases Nat.eq_zero_or_pos n with rfl | hpos
    · rfl
    · rw [Nat.min_eq_left (by omega), partialProduct_eq (by omega), Nat.sub_add_cancel hpos]
  have hlarge (hn : 171 ≤ n) : (partialProduct (min (n - 1) 170)).result = infinity := by
    rw [Nat.min_eq_right (by omega), partialProduct_eq (by decide)]
    exact productUpTo_eq_infinity (Nat.le_refl 171) (by decide)
  refine ⟨n, ha, ⟨_, Nat.min_le_right _ _, isLeast_not_continues ha, rfl⟩, ?_, hlarge, ?_⟩
  · intro hlt
    by_cases hn : n ≤ 170
    · exact hsmall hn
    · rw [hlarge (by omega), productUpTo_eq_infinity (by omega) hlt]
  · intro hn
    rw [hsmall hn]
    exact isFinite_productUpTo hn

/-- The greatest double is accepted, and its factorial is infinite after 170 rounds. -/
theorem factorial_greatest :
    factorial 1.7976931348623157e308 = .ok infinity ∧
      ∃ k ≤ 170, IsLeast {j | ¬ (partialProduct j).continues 1.7976931348623157e308 = true} k := by
  obtain ⟨haccepted, hvalues⟩ := factorial_classified 1.7976931348623157e308
  obtain ⟨r, hr⟩ := haccepted.2 ⟨by decide +kernel, by decide +kernel⟩
  obtain ⟨n, hn, ⟨k, hk, hends, -⟩, -, hinfinite, -⟩ := hvalues r hr
  have hfactor := Binary64.value?_ofNatural (n := 171) (by decide) (by decide)
  have hge : ofNatural 171 ≤ 1.7976931348623157e308 := by decide +kernel
  rw [Binary64.le_iff hfactor hn] at hge
  rw [hr, hinfinite (by exact_mod_cast hge)]
  exact ⟨rfl, k, hk, hends⟩

end Arithmetic
end DeskCalculator
