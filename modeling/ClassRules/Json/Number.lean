import ClassRules.Decimal.Shortest
import ClassRules.Json

/-!
# Numbers in JSON

The value of a number with a fraction or an exponent, and its text.

## What this module delivers

- `Json.scaled?`: a whole number times a power of ten, in 64-bit floating point.
- `Json.floatText`: the text of such a number. It always has a point or an exponent.
-/

set_option autoImplicit false

namespace ClassRules.Json

/-- The product of `significand` and `10 ^ exponent`, or nothing if it is too large. The
significand is rounded first; one multiplication or division by a power of ten follows, after as
many divisions by `1e308` as bring the exponent into range. -/
def scaled? (significand : Nat) (exponent : Int) : Option Float :=
  go (Float.ofNat significand) exponent
where
  go (x : Float) (exponent : Int) : Option Float :=
    -- There is no finite power of ten beyond this one.
    if exponent > 308 then if x == 0 then some x else none
    else if 0 ≤ exponent then
      let y := x * Float.ofScientific 1 false exponent.toNat
      if y.isInf then none else some y
    else if -308 ≤ exponent then some (x / Float.ofScientific 1 false (-exponent).toNat)
    -- The divisor itself has to be finite, so the division is done in parts.
    else if x == 0 then some x
    else go (x / 1e308) (exponent + 308)
  termination_by exponent.natAbs
  decreasing_by omega

/-- The text of a positive decimal. A point is written when the first digit stands between the
sixteenth place before it and the fifth place behind it, and an exponent with its sign
otherwise. -/
def decimalText (d : Decimal) : String :=
  let digits := toString d.digits
  let count := digits.length
  let whole := d.exponent + count
  let zeros (n : Int) := String.ofList (List.replicate n.toNat '0')
  if 0 ≤ d.exponent ∧ whole ≤ 16 then digits ++ zeros d.exponent ++ ".0"
  else if 0 < whole ∧ whole ≤ 16 then
    String.ofList (digits.toList.take whole.toNat) ++ "." ++
      String.ofList (digits.toList.drop whole.toNat)
  else if -5 < whole ∧ whole ≤ 0 then "0." ++ zeros (-whole) ++ digits
  else
    let fraction := if count = 1 then "" else "." ++ String.ofList (digits.toList.drop 1)
    let mark := if 0 < whole then "e+" else "e"
    String.ofList (digits.toList.take 1) ++ fraction ++ mark ++ toString (whole - 1)

/-- The text of a finite number: the fewest digits that read back. -/
def floatText (x : Float) : String :=
  let bits := x.toBits
  let sign := if bits >>> 63 = 0 then "" else "-"
  let magnitude := bits.toNat % Nat.pow 2 63
  if magnitude = 0 then sign ++ "0.0"
  else sign ++ decimalText (Binary.ofBits bits).shortest

end ClassRules.Json
