import FormulaTree.Decimal.Shortest

/-!
# Numbers of JSON documents

Whole numbers that fit 64 bits keep their value; every other number becomes a binary64 value, and a
document with a number beyond all finite values is not accepted.
-/

namespace FormulaTree.Json

inductive Number where
  | integer (value : Int)
  | double (value : Float)
deriving Inhabited

/-- A number as written: its sign, and the digits of its parts. -/
structure Numeral where
  negative : Bool
  integer : List Nat
  /-- The digits behind the point, if there is one. -/
  fraction : List Nat
  /-- The sign and the digits of the exponent, if there is one. -/
  exponent : Option (Bool × List Nat)
  /-- Neither point nor exponent is written. -/
  isWhole : Bool
deriving DecidableEq, Repr

namespace Numeral

/-- Appends digits to `n` for as long as the value stays below `2 ^ 64`; answers it and the digits
left over. -/
def appendDigits (n : Nat) : List Nat → Nat × List Nat
  | [] => (n, [])
  | d :: ds => if n * 10 + d < UInt64.size then appendDigits (n * 10 + d) ds else (n, d :: ds)

def value (ds : List Nat) : Nat :=
  ds.foldl (fun n d => n * 10 + d) 0

/-- The binary64 value `x * 10 ^ e`, computed with powers of ten up to `10 ^ 308`, unless it is
infinite. -/
def scale (x : Float) (e : Int) : Option Float :=
  if e.natAbs ≤ 308 then
    let power := Float.ofScientific 1 false e.natAbs
    if 0 ≤ e then
      let y := x * power
      if y.isInf then none else some y
    else
      some (x / power)
  else if x == 0 then
    some x
  else if 0 ≤ e then
    none
  else
    scale (x / Float.ofScientific 1 false 308) (e + 308)
termination_by e.natAbs

/-- The value of a number, unless it is beyond all finite values. The significand is cut where it
would pass 64 bits. -/
def number? (n : Numeral) : Option Number :=
  let (whole, more) := appendDigits 0 n.integer
  let (significand, cut) := appendDigits whole n.fraction
  let shift : Int := more.length - (n.fraction.length - cut.length : Nat)
  let signed (x : Float) : Number := .double (if n.negative then -x else x)
  match n.exponent with
  | some (negative, digits) =>
    if value digits < Nat.pow 2 31 then
      let e : Int := value digits
      (scale (Float.ofNat significand) (if negative then shift - e else shift + e)).map signed
    else if significand ≠ 0 ∧ !negative then
      none
    else
      some (signed 0)
  | none =>
    if !n.isWhole || !more.isEmpty then
      (scale (Float.ofNat significand) shift).map signed
    else if !n.negative then
      some (.integer significand)
    else if 0 < significand ∧ significand ≤ Nat.pow 2 63 then
      some (.integer (-(significand : Int)))
    else
      some (signed (Float.ofNat significand))

end Numeral

namespace Number

/-- The text of `digits * 10 ^ exponent`: positional when the leading digit stands between `1e-5`
and `1e15`, with at least one digit behind the point, and otherwise with a signed exponent. -/
def decimalText (d : Decimal.Scaled) : String :=
  let digits := (toString d.digits).toList
  let lead := d.exponent + digits.length - 1
  let zeros (n : Int) := List.replicate n.toNat '0'
  String.ofList <|
    if 0 ≤ d.exponent ∧ lead < 16 then
      digits ++ zeros d.exponent ++ ['.', '0']
    else if 0 ≤ lead ∧ lead < 16 then
      digits.take (lead + 1).toNat ++ '.' :: digits.drop (lead + 1).toNat
    else if -5 ≤ lead ∧ lead < 0 then
      '0' :: '.' :: zeros (-lead - 1) ++ digits
    else
      digits.take 1 ++ (if digits.length = 1 then [] else '.' :: digits.drop 1)
        ++ 'e' :: (if 0 ≤ lead then '+' else '-') :: (toString lead.natAbs).toList

/-- The text of a finite binary64 value: its shortest decimal that reads back. -/
def doubleText (x : Float) : String :=
  let bits := x.toBits
  let sign := if bits.toNat < Nat.pow 2 63 then "" else "-"
  if bits.toNat % Nat.pow 2 63 = 0 then sign ++ "0.0"
  else sign ++ decimalText (Decimal.Binary.ofBits bits).shortest

def text : Number → String
  | integer value => toString value
  | double value => doubleText value

end Number

end FormulaTree.Json
