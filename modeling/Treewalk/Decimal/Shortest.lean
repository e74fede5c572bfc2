import Treewalk.Binary64

/-!
The fewest decimal digits that read back as a given binary64 number. Among decimals of that many
digits the nearest one is taken, and `Tie` says which of two equally near ones.
-/

namespace Treewalk

/-- `digits * 10 ^ exponent`. -/
structure Decimal where
  digits : Nat
  exponent : Int
  deriving DecidableEq

inductive Tie
  | up | toEven
  deriving DecidableEq

namespace Decimal

def width (n : Nat) : Nat := (Nat.toDigits 10 n).length

def magnitude (d : Decimal) : Int := d.exponent + width d.digits - 1

def strip : Nat → Decimal → Decimal
  | 0, d => d
  | fuel + 1, d =>
    if d.digits ≠ 0 ∧ d.digits % 10 = 0 then strip fuel ⟨d.digits / 10, d.exponent + 1⟩ else d

/-- The numbers that round to one binary64 number lie between `low` and `high`, in units of
`2 ^ unit`; the ends belong to them if `closed`. -/
structure Interval where
  low : Nat
  high : Nat
  unit : Int
  closed : Bool

/-- Below a power of two the neighbour is only half as far away. -/
def Interval.around (mantissa : Nat) (exponent : Int) : Interval where
  low := if mantissa = Binary64.hiddenBit ∧ exponent ≠ Binary64.minExponent then 4 * mantissa - 1
    else 4 * mantissa - 2
  high := 4 * mantissa + 2
  unit := exponent - 2
  closed := mantissa % 2 == 0

/-- `n * 2 ^ e` against `m * 10 ^ k`, both multiplied by the same positive factor. -/
def common (n : Nat) (e : Int) (m : Nat) (k : Int) : Nat × Nat :=
  (n * pow2 e.toNat * pow10 (-k).toNat, m * pow10 k.toNat * pow2 (-e).toNat)

def Interval.contains (i : Interval) (d : Decimal) : Bool :=
  let (low, x) := common i.low i.unit d.digits d.exponent
  let (high, y) := common i.high i.unit d.digits d.exponent
  if i.closed then low ≤ x && y ≤ high else low < x && y < high

/-- The power of ten of the leading digit of `mantissa * 2 ^ exponent`, for a positive mantissa.
The factor `10 ^ 340` brings every positive binary64 number above one. -/
def leading (mantissa : Nat) (exponent : Int) : Int :=
  (width (mantissa * pow2 exponent.toNat * pow10 340 / pow2 (-exponent).toNat) : Int) - 341

/-- The decimal on the grid of multiples of `10 ^ k` that the interval around the number holds:
the only neighbour of the number in it, or the nearer of the two. -/
def onGrid? (tie : Tie) (m : Nat) (exponent k : Int) : Option Decimal :=
  let i := Interval.around m exponent
  let (num, den) := common m exponent 1 k
  let q := num / den
  let below : Decimal := ⟨q, k⟩
  let above : Decimal := ⟨q + 1, k⟩
  match i.contains below, i.contains above with
  | false, false => none
  | true, false => some below
  | false, true => some above
  | true, true =>
    let r := 2 * (num % den)
    if r < den then some below
    else if den < r then some above
    else match tie with
      | .up => some above
      | .toEven => if q % 2 = 0 then some below else some above

def maxDigits : Nat := 17

def shortest (tie : Tie) (mantissa : Nat) (exponent : Int) : Decimal :=
  let top := leading mantissa exponent
  let grids := (List.range maxDigits).map fun (n : Nat) => top - n
  match grids.findSome? (onGrid? tie mantissa exponent) with
  | some d => strip maxDigits d
  | none => ⟨0, 0⟩

end Decimal

end Treewalk
