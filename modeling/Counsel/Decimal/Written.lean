/-
How numbers are written. Messages write the shortest decimal in full, without an exponent; records
write it with a decimal point always and with an exponent outside `1e-4 ≤ |x| < 1e16`. Results of
the special functions are rounded instead, a half to the even neighbour.
-/
import Counsel.Decimal.Shortest

namespace Counsel.Double

/-- The decisions of a way to write shortest decimals. -/
structure Style where
  /-- The powers of ten from the first up to the second are written without an exponent. -/
  positional : Option (Int × Int)
  /-- What follows the digits of a whole number. -/
  wholeEnd : String

/-- Numbers in messages: `1`, `0.0000001`, `-0`. -/
def Style.plain : Style := ⟨none, ""⟩

/-- Numbers in records: `1.0`, `1e-7`, `-0.0`. -/
def Style.pointed : Style := ⟨some (-4, 16), ".0"⟩

/-- So many zeros. -/
def zeros (n : Nat) : String := String.ofList (List.replicate n '0')

/-- Digits with the decimal point after the first `point` of them. -/
def positionalText (style : Style) (digits : String) (point : Int) : String :=
  let count : Int := digits.length
  if point ≤ 0 then "0." ++ zeros (-point).toNat ++ digits
  else if count ≤ point then digits ++ zeros (point - count).toNat ++ style.wholeEnd
  else
    let cs := digits.toList
    String.ofList (cs.take point.toNat) ++ "." ++ String.ofList (cs.drop point.toNat)

/-- Digits with the decimal point after the first one, then the power of ten. -/
def exponentText (digits : String) (power : Int) : String :=
  let mantissa := match digits.toList with
    | [] => "0"
    | [d] => String.ofList [d]
    | d :: rest => String.ofList (d :: '.' :: rest)
  mantissa ++ "e" ++ toString power

/-- A number in a style; the sign of a zero is kept. -/
def write (style : Style) : Double → String
  | .nan => "NaN"
  | .infinity negative => if negative then "-inf" else "inf"
  | .finite negative mantissa exponent =>
    let sign := if negative then "-" else ""
    if mantissa = 0 then sign ++ "0" ++ style.wholeEnd
    else
      let decimal := shortest mantissa exponent
      let digits := toString decimal.digits
      let point := (digits.length : Int) + decimal.exponent
      let inFull := match style.positional with
        | none => true
        | some (low, high) => decide (low ≤ point - 1 ∧ point - 1 < high)
      sign ++ if inFull then positionalText style digits point else exponentText digits (point - 1)

/-! ## Rounded numbers -/

/-- A number with a fixed count of decimals; a rounded zero has no sign. -/
def fixedText (places : Nat) (negative : Bool) (mantissa : Nat) (exponent : Int) : String :=
  let scaled := ((Fraction.ofBinary mantissa exponent).shift (-(places : Int))).roundEven
  let digits := toString scaled
  let padded := zeros (places + 1 - digits.length) ++ digits
  let cs := padded.toList
  let cut := cs.length - places
  let sign := if negative && scaled != 0 then "-" else ""
  sign ++ String.ofList (cs.take cut) ++ "." ++ String.ofList (cs.drop cut)

/-- A number with one digit before the point, a fixed count of decimals and a power of ten. -/
def scientificText (places : Nat) (negative : Bool) (mantissa : Nat) (exponent : Int) : String :=
  let sign := if negative then "-" else ""
  if mantissa = 0 then sign ++ "0." ++ zeros places ++ "e0"
  else
    let value := Fraction.ofBinary mantissa exponent
    let power := value.decimalExponent
    let scaled := (value.shift (power - places)).roundEven
    let (digits, power) :=
      if digitCount scaled = places + 2 then (scaled / 10, power + 1) else (scaled, power)
    let cs := (toString digits).toList
    sign ++ String.ofList (cs.take 1) ++ "." ++ String.ofList (cs.drop 1) ++ "e" ++ toString power

/-- A number rounded to a count of decimals, in powers of ten from a thousand on. -/
def rounded (places : Nat) : Double → String
  | .nan => "NaN"
  | .infinity negative => if negative then "-inf" else "inf"
  | .finite negative mantissa exponent =>
    if Fraction.compareNat 1000 (Fraction.ofBinary mantissa exponent) = .gt then
      fixedText places negative mantissa exponent
    else scientificText places negative mantissa exponent

/-- A number rounded to nine digits, in powers of ten throughout. -/
def roundedScientific : Double → String
  | .nan => "NaN"
  | .infinity negative => if negative then "-inf" else "inf"
  | .finite negative mantissa exponent => scientificText 8 negative mantissa exponent

end Counsel.Double
