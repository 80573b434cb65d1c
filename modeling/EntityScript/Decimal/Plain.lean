/-
# Numbers as text

`render` writes a double as scripts print it: the shortest digits that read back as the same number,
always positional, with no point on a whole number, a sign also on a negative zero, and the words
`NaN` and `inf` for the values that are not numbers of the line.
-/
import EntityScript.Decimal.Shortest

namespace EntityScript.Decimal

/-- A decimal in positional notation. -/
def Numeral.plain (d : Numeral) : String :=
  let digits := Nat.toDigits 10 d.digits
  if 0 ≤ d.exponent then
    String.ofList (digits ++ List.replicate d.exponent.toNat '0')
  else
    let places := (-d.exponent).toNat
    let padded := List.replicate (places + 1 - digits.length) '0' ++ digits
    let whole := padded.length - places
    String.ofList (padded.take whole ++ '.' :: padded.drop whole)

/-- The sign that is written before a number. -/
def signText : Float.Model.UnpackedFloat.Sign → String
  | .negative => "-"
  | .positive => ""

/-- A double in the notation of the `print` statement. -/
def render (x : Float) : String :=
  match x.toModel.unpack with
  | .notANumber => "NaN"
  | .infinity sign => signText sign ++ "inf"
  | .zero sign => signText sign ++ "0"
  | .finite sign mantissa exponent _ => signText sign ++ (shortest mantissa exponent).plain

end EntityScript.Decimal
