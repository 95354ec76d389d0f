import DeskCalculator.Binary64

/-!
# Shortest decimals

The decimal that stands for a double is the one with the fewest digits among
those that read back as this double.  The grids of decimals are tried from the
coarsest on: on each grid the two neighbours of the exact value are the only
candidates, and the first grid with a hit decides.  If both neighbours read
back, the nearer one is taken, and the greater one if they are equally near.
-/

namespace DeskCalculator
namespace Decimal

open Float.Model.UnpackedFloat (Sign)

/-- A decimal: a natural number times a power of ten, with a sign. -/
structure Scaled where
  /-- The sign. -/
  sign : Sign
  /-- The digits, read as a natural number. -/
  digits : Nat
  /-- The power of ten. -/
  exponent : Int

namespace Scaled

/-- The decimal equal to `m * 2 ^ e` with a sign.  A negative power of two is a
power of five over a power of ten. -/
def ofBinary (sign : Sign) (m : Nat) (e : Int) : Scaled :=
  if 0 ≤ e then ⟨sign, m * 2 ^ e.toNat, 0⟩ else ⟨sign, m * 5 ^ (-e).toNat, e⟩

/-- The double nearest to a decimal. -/
def toFloat (d : Scaled) : Float :=
  Binary64.nearestDecimal d.sign d.digits d.exponent

/-! ## Coarser grids -/

/-- The neighbour of `d` toward zero among the decimals with `drop` digits less. -/
def lower (d : Scaled) (drop : Nat) : Scaled :=
  { d with digits := d.digits / 10 ^ drop, exponent := d.exponent + drop }

/-- The neighbour of `d` away from zero among the decimals with `drop` digits less. -/
def upper (d : Scaled) (drop : Nat) : Scaled :=
  { d with digits := d.digits / 10 ^ drop + 1, exponent := d.exponent + drop }

/-- Is `d` strictly nearer to its lower neighbour than to its upper one? -/
def nearsLower (d : Scaled) (drop : Nat) : Bool :=
  2 * (d.digits % 10 ^ drop) < 10 ^ drop

/-- The neighbour of `d` with `drop` digits less that reads back as `x`: the
nearer one if both do. -/
def neighbour? (x : Float) (d : Scaled) (drop : Nat) : Option Scaled :=
  let lowerHits := decide ((d.lower drop).toFloat = x)
  let upperHits := decide ((d.upper drop).toFloat = x)
  if lowerHits && (d.nearsLower drop || !upperHits) then some (d.lower drop)
  else if upperHits then some (d.upper drop)
  else none

/-- The neighbour of `d` with the most digits dropped, at most `drop`, that reads
back as `x`.  With no digit dropped it is `d` itself. -/
def coarsest (x : Float) (d : Scaled) : (drop : Nat) → Scaled
  | 0 => d
  | drop + 1 => (d.neighbour? x (drop + 1)).getD (coarsest x d drop)

/-! ## The result reads back -/

theorem toFloat_of_neighbour? {x : Float} {d found : Scaled} {drop : Nat}
    (h : d.neighbour? x drop = some found) : found.toFloat = x := by
  unfold neighbour? at h
  dsimp only at h
  split at h
  · rename_i hit
    cases h
    simp only [Bool.and_eq_true, decide_eq_true_eq] at hit
    exact hit.1
  · split at h
    · rename_i hit
      cases h
      simpa using hit
    · cases h

theorem toFloat_coarsest {x : Float} {d : Scaled} (h : d.toFloat = x) (drop : Nat) :
    (d.coarsest x drop).toFloat = x := by
  induction drop with
  | zero => exact h
  | succ drop ih =>
    unfold coarsest
    cases hn : d.neighbour? x (drop + 1) with
    | none => simpa using ih
    | some found => simpa using toFloat_of_neighbour? hn

end Scaled

/-- The shortest decimal that reads back as the double `x`, which is `m * 2 ^ e`
with a sign. -/
def shortest (x : Float) (sign : Sign) (m : Nat) (e : Int) : Scaled :=
  let exact := Scaled.ofBinary sign m e
  exact.coarsest x (Nat.toDigits 10 exact.digits).length

end Decimal
end DeskCalculator
