/-!
# Shortest decimals

The decimal with the fewest digits that lies in an interval around a number, and the intervals of
the numbers that round to a given binary64 value.
-/

namespace FormulaTree.Decimal

/-- The number `digits * 10 ^ exponent`. -/
structure Scaled where
  digits : Nat
  exponent : Int
deriving DecidableEq, Repr

/-- The same number without zeros at the end of its digits. -/
def Scaled.strip (d : Scaled) : Scaled :=
  if d.digits ≠ 0 ∧ d.digits % 10 = 0 then strip ⟨d.digits / 10, d.exponent + 1⟩ else d
termination_by d.digits
decreasing_by omega

/-- The positive number `4 * mantissa * 2 ^ exponent`, with bounds in the same unit: every number
between `4 * mantissa - below` and `4 * mantissa + 2` rounds to it, and the bounds themselves do
exactly when `mantissa` is even. -/
structure Binary where
  mantissa : Nat
  exponent : Int
  below : Nat
deriving DecidableEq, Repr

/-- `n * b ^ e` as a fraction. -/
def fraction (n b : Nat) (e : Int) : Nat × Nat :=
  if 0 ≤ e then (n * b.pow e.toNat, 1) else (n, b.pow (-e).toNat)

def less (a b : Nat × Nat) : Bool :=
  a.1 * b.2 < b.1 * a.2

namespace Binary

/-- The magnitude of a finite binary64 value other than zero, by its bits. -/
def ofBits (bits : UInt64) : Binary :=
  let bits := bits.toNat
  let field : Nat := bits / Nat.pow 2 52 % Nat.pow 2 11
  let significand : Nat := bits % Nat.pow 2 52
  if field = 0 then
    ⟨significand, -1076, 2⟩
  else
    -- the distance to the next smaller value halves at a power of two
    ⟨Nat.pow 2 52 + significand, (field : Int) - 1077, if significand = 0 ∧ 1 < field then 1 else 2⟩

def covers (b : Binary) (d : Scaled) : Bool :=
  let x := fraction d.digits 10 d.exponent
  let low := fraction (4 * b.mantissa - b.below) 2 b.exponent
  let high := fraction (4 * b.mantissa + 2) 2 b.exponent
  if b.mantissa % 2 = 0 then !less x low && !less high x else less low x && less x high

/-- The whole number of units `10 ^ exponent` in the value. -/
def units (b : Binary) (exponent : Int) : Nat :=
  let v := fraction (4 * b.mantissa) 2 b.exponent
  let u := fraction 1 10 exponent
  v.1 * u.2 / (v.2 * u.1)

/-- Whether `digits` units, rather than `digits + 1`, are the nearest to the value. Halfway between
the two the even one counts as the nearest. -/
def nearerBelow (b : Binary) (d : Scaled) : Bool :=
  let value := fraction (8 * b.mantissa) 2 b.exponent
  let middle := fraction (2 * d.digits + 1) 10 d.exponent
  less value middle || (!less middle value && d.digits % 2 = 0)

/-- The decimal of unit `10 ^ exponent` that rounds to the value and is nearest to it. -/
def onGrid? (b : Binary) (exponent : Int) : Option Scaled :=
  let below : Scaled := ⟨b.units exponent, exponent⟩
  let above : Scaled := ⟨b.units exponent + 1, exponent⟩
  if b.covers below && (!b.covers above || b.nearerBelow below) then some below
  else if b.covers above then some above
  else none

/-- The greatest `e` of the list with `10 ^ e` at most the value. -/
def leadingExponent (b : Binary) : Int :=
  ((List.range 633).map fun (i : Nat) => 308 - (i : Int)).find? (b.units · ≠ 0) |>.getD 0

/-- The shortest decimal that rounds to the value; of those, the nearest, and of two that are equally
near the even one. Seventeen digits always suffice. -/
def shortest (b : Binary) : Scaled :=
  let top := b.leadingExponent
  (((List.range 17).findSome? fun (n : Nat) => b.onGrid? (top - (n : Int))).getD ⟨0, 0⟩).strip

end Binary

end FormulaTree.Decimal
