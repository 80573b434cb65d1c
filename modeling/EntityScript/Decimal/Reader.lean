/-
# Reading numbers

The two number grammars of the system.  An integer is an optional sign and decimal digits, and must
fit in sixty-four bits.  A double is an optional sign and either `inf`, `infinity` or `nan` in any
case, or digits with an optional point and an optional power of ten; at least one digit has to stand
before the power.  A decimal reads as the double nearest to it, where a power of ten that has
reached `powerLimit` ignores the rest of its digits.  Reading looks at each digit once: what lies
beyond the digits that can matter is never computed.
-/
import EntityScript.Decimal.Shortest

namespace EntityScript.Decimal

/-- Whether a character is one of the ten decimal digits. -/
def isDigit (c : Char) : Bool :=
  '0' ≤ c && c ≤ '9'

/-- The number that a row of digits denotes. -/
def ofDigits (digits : List Char) : Nat :=
  digits.foldl (fun n c => 10 * n + (c.toNat - '0'.toNat)) 0

/-- Drops the zeros in front of a row of digits. -/
def significant (digits : List Char) : List Char :=
  digits.dropWhile (· = '0')

/-- The most digits that a word of sixty-four bits can have. -/
def wordDigits : Nat := 20

/-- The number of a nonempty row that holds digits only; `none` also if it has more significant
digits than a word. -/
def natural? (cs : List Char) : Option Nat :=
  if !cs.isEmpty && cs.all isDigit && (significant cs).length ≤ wordDigits then
    some (ofDigits (significant cs))
  else none

/-- Splits off a leading sign; the flag tells whether it was a minus. -/
def takeSign : List Char → Bool × List Char
  | '-' :: rest => (true, rest)
  | '+' :: rest => (false, rest)
  | rest => (false, rest)

/-- The least integer above all sixty-four bit words with a sign: two to the sixty-third power. -/
def wordBound : Int := 0x8000000000000000

/-- Whether an integer is the value of a sixty-four bit word. -/
def fitsWord (n : Int) : Bool :=
  -wordBound ≤ n && n < wordBound

/-- Reads an integer; `none` if the text is not one or does not fit. -/
def readInt? (text : String) : Option Int64 := do
  let (negative, digits) := takeSign text.toList
  let magnitude ← natural? digits
  let n : Int := if negative then -magnitude else magnitude
  if fitsWord n then some (Int64.ofInt n) else none

/-- A power of ten of this size takes no more digits. -/
def powerLimit : Nat := 65536

/-- The power of ten that a row of digits denotes.  Digits that come after the limit is reached are
not looked at. -/
def powerOfDigits (digits : List Char) : Nat :=
  digits.foldl (fun n c => if n < powerLimit then 10 * n + (c.toNat - '0'.toNat) else n) 0

/-- Reads an exponent part: nothing, or `e` and an integer. -/
def exponent? : List Char → Option Int
  | [] => some 0
  | c :: rest =>
    let (negative, digits) := takeSign rest
    if (c = 'e' || c = 'E') && !digits.isEmpty && digits.all isDigit then
      some (if negative then -(powerOfDigits digits : Int) else powerOfDigits digits)
    else none

/-- As many digits as decide how a decimal rounds: doubles, and the numbers halfway between two of
them, have fewer. -/
def decisiveDigits : Nat := 800

/-- The decimal that a row of digits denotes, for rounding.  The digits after the decisive ones only
tell whether there is more, so that a single digit can stand for them. -/
def Numeral.ofDigits (digits : List Char) : Numeral :=
  let (head, tail) := (significant digits).splitAt decisiveDigits
  if tail.all (· = '0') then ⟨Decimal.ofDigits head, tail.length⟩
  else ⟨10 * Decimal.ofDigits head + 1, tail.length - 1⟩

/-- The double nearest to a decimal.  Decimals far outside the range are settled without computing
the power. -/
def Numeral.nearest (d : Numeral) : Float :=
  if d.digits = 0 || d.exponent + digitCount d.digits < -400 then Float.ofNat 0
  else if 400 < d.exponent + digitCount d.digits then Float.ofScientific 1 false 400
  else Float.ofScientific d.digits (d.exponent < 0) d.exponent.natAbs

/-- A decimal with its point moved. -/
def Numeral.scale (d : Numeral) (places : Int) : Numeral :=
  { d with exponent := d.exponent + places }

/-- Reads an unsigned decimal with an optional point and an optional power of ten. -/
def unsigned? (cs : List Char) : Option Float :=
  let (whole, rest) := cs.span isDigit
  let (places, rest) :=
    match rest with
    | '.' :: rest => rest.span isDigit
    | rest => ([], rest)
  if whole.isEmpty && places.isEmpty then none
  else (exponent? rest).map fun e =>
    ((Numeral.ofDigits (whole ++ places)).scale (e - places.length)).nearest

/-- The bit of a double that holds its sign. -/
def signBit : UInt64 := 0x8000000000000000

/-- Reads the bits of a double; `none` if the text is not one.  A minus sets the sign of whatever
follows, also of what is not a number. -/
def readBits? (text : String) : Option UInt64 := do
  let (negative, body) := takeSign text.toList
  let magnitude ←
    match String.ofList (body.map Char.toLower) with
    | "inf" | "infinity" => some (Float.ofScientific 1 false 400)
    | "nan" => some (Float.ofNat 0 / Float.ofNat 0)
    | _ => unsigned? body
  return if negative then signBit ||| magnitude.toBits else magnitude.toBits

/-- Reads a double; `none` if the text is not one. -/
def readFloat? (text : String) : Option Float :=
  (readBits? text).map Float.ofBits

end EntityScript.Decimal
