/-!
# Shortest decimals

The fewest decimal digits that single out a number among those of 64-bit floating point.

## What this module delivers

- `Binary`: a positive number `mantissa * 2 ^ exponent`, and `Binary.ofBits`.
- `Binary.gap`: the interval of the numbers that round to it, as fractions of one denominator.
- `Decimal`: digits times a power of ten; `Binary.shortest`: of the decimals with the fewest digits
  inside the gap, the one nearest to the number.
-/

set_option autoImplicit false

namespace ClassRules

/-- The number `digits * 10 ^ exponent`. -/
structure Decimal where
  digits : Nat
  exponent : Int
  deriving DecidableEq, Repr

namespace Decimal

/-- The same number with no zero at the end of its digits. -/
def normalize (d : Decimal) : Decimal :=
  go d.digits d
where
  go : Nat → Decimal → Decimal
    | 0, d => d
    | fuel + 1, d =>
      if d.digits ≠ 0 ∧ d.digits % 10 = 0 then go fuel ⟨d.digits / 10, d.exponent + 1⟩ else d

/-- The number of decimal digits of a number; none for zero. -/
def digitCount (n : Nat) : Nat :=
  if h : n = 0 then 0 else digitCount (n / 10) + 1
termination_by n
decreasing_by omega

end Decimal

/-- The positive number `mantissa * 2 ^ exponent`. -/
structure Binary where
  mantissa : Nat
  exponent : Int
  deriving DecidableEq, Repr

namespace Binary

/-- The number that the exponent and fraction fields of a finite nonzero double stand for. The sign
is left out. -/
def ofBits (bits : UInt64) : Binary :=
  let field := (bits >>> 52).toNat % 2048
  let fraction := bits.toNat % Nat.pow 2 52
  if field = 0 then ⟨fraction, -1074⟩ else ⟨Nat.pow 2 52 + fraction, (field : Int) - 1075⟩

/-- A number with the interval of those that round to it, all over the same denominator. -/
structure Gap where
  low : Nat
  value : Nat
  high : Nat
  denominator : Nat
  /-- Whether the ends of the interval round to the number as well. -/
  closed : Bool

/-- The interval of the numbers that round to `b`. The neighbour below a power of two is nearer
than the one above, except among the smallest numbers. -/
def gap (b : Binary) : Gap :=
  -- Four times the mantissa makes room for a quarter of its last place.
  let scale := Nat.pow 2 (b.exponent - 2).toNat
  let narrow := b.mantissa = Nat.pow 2 52 ∧ b.exponent ≠ -1074
  { low := (4 * b.mantissa - if narrow then 1 else 2) * scale
    value := 4 * b.mantissa * scale
    high := (4 * b.mantissa + 2) * scale
    denominator := Nat.pow 2 (2 - b.exponent).toNat
    closed := b.mantissa % 2 = 0 }

/-- Whether the decimal lies in the interval. -/
def Gap.holds (g : Gap) (d : Decimal) : Bool :=
  let n := d.digits * Nat.pow 10 d.exponent.toNat * g.denominator
  let scale := Nat.pow 10 (-d.exponent).toNat
  if g.closed then g.low * scale ≤ n && n ≤ g.high * scale
  else g.low * scale < n && n < g.high * scale

/-- The exponent of ten of the first digit of a number. -/
def Gap.leading (g : Gap) : Int :=
  if g.denominator ≤ g.value then (Decimal.digitCount (g.value / g.denominator) : Int) - 1
  else -(Decimal.digitCount ((g.denominator - 1) / g.value) : Int)

/-- The nearest of the two neighbours of the number among the multiples of `10 ^ exponent` that lie
in the interval. Of two that are equally near, the one with an even last digit is taken. -/
def Gap.nearest? (g : Gap) (exponent : Int) : Option Decimal :=
  let unit := Nat.pow 10 exponent.toNat * g.denominator
  let target := g.value * Nat.pow 10 (-exponent).toNat
  let below := target / unit
  -- Twice the distance from the lower neighbour, to be held against one whole step.
  let twice := 2 * (target - below * unit)
  let down : Decimal := ⟨below, exponent⟩
  let up : Decimal := ⟨below + 1, exponent⟩
  let order := if twice < unit ∨ (twice = unit ∧ below % 2 = 0) then [down, up] else [up, down]
  order.find? g.holds

/-- The decimal with the fewest digits that rounds to `b`, and of those the nearest to it.
Seventeen digits are always enough. -/
def shortest (b : Binary) : Decimal :=
  let g := b.gap
  let first := g.leading
  (((List.range 17).findSome? fun n : Nat => g.nearest? (first - n)).getD ⟨0, 0⟩).normalize

end Binary

end ClassRules
