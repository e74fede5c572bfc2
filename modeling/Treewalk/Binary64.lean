/-!
Binary64 numbers by their parts, and the nearest one to a quotient of natural numbers.
-/

namespace Treewalk

def pow2 (n : Nat) : Nat := Nat.pow 2 n

def pow10 (n : Nat) : Nat := Nat.pow 10 n

/-- A finite number is `mantissa * 2 ^ exponent`, with its sign apart. -/
inductive Binary64
  | nan
  | infinite (negative : Bool)
  | finite (negative : Bool) (mantissa : Nat) (exponent : Int)
  deriving DecidableEq

namespace Binary64

def minExponent : Int := -1074

/-- The mantissa of a normal number is from here up to twice as much. -/
def hiddenBit : Nat := pow2 52

def ofBits (bits : UInt64) : Binary64 :=
  let n := bits.toNat
  let negative := n / pow2 63 == 1
  let field := n / hiddenBit % pow2 11
  let fraction := n % hiddenBit
  if field = 2047 then
    if fraction = 0 then .infinite negative else .nan
  else if field = 0 then .finite negative fraction minExponent
  else .finite negative (hiddenBit + fraction) (minExponent + (field - 1 : Nat))

def ofFloat (x : Float) : Binary64 := ofBits x.toBits

def roundHalfEven (num den : Nat) : Nat :=
  let q := num / den
  let r := num % den
  if 2 * r < den then q
  else if den < 2 * r then q + 1
  else q + q % 2

def scaled (num den : Nat) (e : Int) : Nat × Nat :=
  (num * pow2 (-e).toNat, den * pow2 e.toNat)

def exponentOf (num den : Nat) : Int :=
  let e := max minExponent ((num.log2 : Int) - den.log2 - 53)
  let (n, d) := scaled num den e
  if n < 2 * hiddenBit * d then e else e + 1

def infinityBits : Nat := 2047 * hiddenBit

/-- The bits of the number nearest to `num / den`, a half going to the even mantissa. A mantissa that
is rounded up to twice the hidden bit carries into the exponent, and from there into infinity. -/
def nearestBits (num den : Nat) : Nat :=
  if num = 0 then 0
  else
    let e := exponentOf num den
    let (n, d) := scaled num den e
    min infinityBits ((e - minExponent).toNat * hiddenBit + roundHalfEven n d)

def nearest (num den : Nat) : Float := Float.ofBits (UInt64.ofNat (nearestBits num den))

theorem roundHalfEven_eq_or (num den : Nat) :
    roundHalfEven num den = num / den ∨ roundHalfEven num den = num / den + 1 := by
  have := Nat.mod_two_eq_zero_or_one (num / den)
  simp only [roundHalfEven]
  split
  · exact .inl rfl
  · split
    · exact .inr rfl
    · omega

theorem nearestBits_le (num den : Nat) : nearestBits num den ≤ infinityBits := by
  simp only [nearestBits]
  split
  · exact Nat.zero_le _
  · exact Nat.min_le_left _ _

end Binary64

end Treewalk
