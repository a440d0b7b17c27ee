import Fleet.Binary64.Shortest
import Fleet.Text.Numeral

/-!
# The decimal text of a double

Once the shortest digits are known, what is left of writing a double are the decisions of a format:
which magnitudes are written positionally, and what an exponent looks like. `Layout` holds the
former, the latter is fixed: one digit before the point, `e`, and always a sign. A whole number
written positionally keeps `.0`, so that it reads back as a double.
-/

set_option autoImplicit false

namespace Fleet.Binary64

/-- The decimal exponents of the first digit between which a double is written without an
exponent. -/
structure Layout where
  least : Int
  greatest : Int

open Text in
/-- The text of a positive decimal number. -/
def Decimal.text (layout : Layout) (d : Decimal) : List Char :=
  let digits := decimal d.digits
  let first : Int := digits.length + d.exponent - 1
  if layout.least ≤ first && first ≤ layout.greatest then
    if d.exponent ≥ 0 then digits ++ List.replicate d.exponent.toNat '0' ++ ['.', '0']
    else if first ≥ 0 then
      digits.take (first.toNat + 1) ++ '.' :: digits.drop (first.toNat + 1)
    else '0' :: '.' :: List.replicate (-first - 1).toNat '0' ++ digits
  else
    let mantissa := match digits with
      | [] => []
      | [c] => [c]
      | c :: rest => c :: '.' :: rest
    mantissa ++ 'e' :: (if first < 0 then '-' else '+') :: decimal first.natAbs

/-- The text of a finite double. -/
def text (layout : Layout) (x : Binary64) : List Char :=
  let sign := if x.isNegative then ['-'] else []
  sign ++ if x.isZero then ['0', '.', '0'] else x.shortest.text layout

end Fleet.Binary64
