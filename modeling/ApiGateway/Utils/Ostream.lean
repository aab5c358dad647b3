import ApiGateway.Library.Rounding
import ApiGateway.Utils.ParseInt

/-!
# Output of numbers

What `operator<<` of a `std::ostream` writes for a `double` in its default format, `%g` with six
significant digits, and the `double` that arithmetic yields for a rational number.
-/

namespace ApiGateway

open Rounding

/-- The `double` nearest to a number that is not negative. The range of the exponent is not
modelled: the numbers of the gateway are averages of 64-bit counters, far from its ends. -/
def toDouble (x : ℚ) : ℚ :=
  if x = 0 then 0
  else
    let (digits, exponent) := scientific 2 53 x
    digits * 2 ^ (exponent - 52)

/-- Digits without the zeros at their end. -/
def stripZeros (digits : Bytes) : Bytes :=
  (digits.reverse.dropWhile (· == 48)).reverse

/-- The decimal point and the digits after it, which `%g` leaves out if they are all zero. -/
def fractionText (digits : Bytes) : Bytes :=
  match stripZeros digits with
  | [] => []
  | d :: rest => 46 :: d :: rest

/-- The exponent, of at least two digits. -/
def exponentText (exponent : Int) : Bytes :=
  101 :: (if exponent < 0 then 45 else 43) ::
    (if exponent.natAbs < 10 then 48 :: natToString exponent.natAbs
      else natToString exponent.natAbs)

/-- `operator<<` for a `double` that is not negative. -/
def putDouble (x : ℚ) : Bytes :=
  if x ≤ 0 then [48]
  else
    let (significand, exponent) := scientific 10 6 x
    let digits := natToString significand
    if -4 ≤ exponent ∧ exponent < 0 then
      48 :: fractionText (List.replicate (-exponent - 1).toNat 48 ++ digits)
    else if 0 ≤ exponent ∧ exponent < 6 then
      digits.take (exponent.toNat + 1) ++ fractionText (digits.drop (exponent.toNat + 1))
    else digits.take 1 ++ fractionText (digits.drop 1) ++ exponentText exponent

/-- `operator<<` for a `uint64_t`. -/
def putCounter (n : UInt64) : Bytes :=
  natToString n.toNat

end ApiGateway
