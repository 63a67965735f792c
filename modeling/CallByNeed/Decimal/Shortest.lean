/-! # Shortest decimals

Every real number between the midpoints to its two neighbours reads back as the same binary number.
Of the decimals in this interval the shortest one lies on the coarsest grid `j * 10 ^ g` that has a
point there; of two such points the one nearer to the number is taken, and the larger one if both
are equally near.
-/

namespace CallByNeed.Decimal
set_option autoImplicit false

/-- A decimal `digits * 10 ^ exponent`. -/
structure DecimalNumber where
  digits : Nat
  exponent : Int

/-- A number with the interval of those that read back as it, all three in quarters of a unit
`2 ^ exponent`. -/
structure Interval where
  lower : Nat
  value : Nat
  upper : Nat
  /-- Whether the end points read back too. -/
  closed : Bool
  exponent : Int

/-- The interval of a positive number: half a unit to each side, or a quarter below where the
smaller neighbour is only half a unit away. Midpoints go to the even significand. -/
def Interval.around (significand : Nat) (exponent : Int) (closeBelow : Bool) : Interval where
  lower := 4 * significand - (if closeBelow then 1 else 2)
  value := 4 * significand
  upper := 4 * significand + 2
  closed := significand % 2 = 0
  exponent := exponent - 2

/-- The multiplier of the quarters that clears all denominators on the grid of `10 ^ grid`. -/
def Interval.scale (interval : Interval) (grid : Int) : Nat :=
  Nat.pow 2 interval.exponent.toNat * Nat.pow 10 (-grid).toNat

/-- The distance of two points of the grid in the same measure. -/
def Interval.spacing (interval : Interval) (grid : Int) : Nat :=
  Nat.pow 2 (-interval.exponent).toNat * Nat.pow 10 grid.toNat

/-- The point of the grid in the interval that is nearest to the number. -/
def Interval.pointOn? (interval : Interval) (grid : Int) : Option Nat :=
  let scale := interval.scale grid
  let spacing := interval.spacing grid
  let value := interval.value * scale
  let below := value / spacing
  let inside (point : Nat) : Bool :=
    let place := point * spacing
    if interval.closed then
      interval.lower * scale ≤ place && place ≤ interval.upper * scale
    else interval.lower * scale < place && place < interval.upper * scale
  match inside below, inside (below + 1) with
  | true, true =>
      if value - below * spacing < (below + 1) * spacing - value then some below
      else some (below + 1)
  | true, false => some below
  | false, true => some (below + 1)
  | false, false => none

def Interval.shortestFrom (interval : Interval) : Nat → Int → DecimalNumber
  | 0, grid => ⟨interval.value * interval.scale grid / interval.spacing grid, grid⟩
  | tries + 1, grid =>
      match interval.pointOn? grid with
      | some digits => ⟨digits, grid⟩
      | none => interval.shortestFrom tries (grid - 1)

/-- An exponent of ten above the number: `30103 / 100000` is a little more than the logarithm of
two. -/
def Interval.coarsestGrid (interval : Interval) : Int :=
  ((Nat.log2 interval.upper + interval.exponent + 1) * 30103).fdiv 100000 + 1

/-- The shortest decimal of the interval. Numbers of at most 64 bits need at most 17 digits, so 32
grids are enough. -/
def Interval.shortest (interval : Interval) : DecimalNumber :=
  interval.shortestFrom 32 interval.coarsestGrid

end CallByNeed.Decimal
