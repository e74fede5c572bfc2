import Treewalk.Decimal.Shortest

namespace Treewalk

namespace Decimal

/-- The digits with a point where the exponent puts it; a whole number ends in `whole`. -/
def positional (whole : List Char) (d : Decimal) : List Char :=
  let ds := Nat.toDigits 10 d.digits
  let places := (-d.exponent).toNat
  if places = 0 then ds ++ List.replicate d.exponent.toNat '0' ++ whole
  else if places < ds.length then
    ds.take (ds.length - places) ++ '.' :: ds.drop (ds.length - places)
  else '0' :: '.' :: (List.replicate (places - ds.length) '0' ++ ds)

/-- Zeros are written at most 64 at a time. -/
def zeros (n : Nat) : List (List Char) :=
  if 64 < n then List.replicate 64 '0' :: zeros (n - 64) else [List.replicate n '0']

/-- The digits before the point, the point and the digits behind it; a point with nothing before it
comes with its zero. -/
def pieces (d : Decimal) : List (List Char) :=
  let ds := Nat.toDigits 10 d.digits
  let places := (-d.exponent).toNat
  if places = 0 then ds :: zeros d.exponent.toNat
  else if places < ds.length then
    [ds.take (ds.length - places), ['.'], ds.drop (ds.length - places)]
  else ['0', '.'] :: zeros (places - ds.length) ++ [ds]

theorem flatten_zeros (n : Nat) : (zeros n).flatten = List.replicate n '0' := by
  induction n using zeros.induct with
  | case1 n hn ih =>
    rw [zeros, if_pos hn, List.flatten_cons, ih, List.replicate_append_replicate,
      Nat.add_sub_cancel' (Nat.le_of_lt hn)]
  | case2 n hn => simp [zeros, hn]

theorem flatten_pieces (d : Decimal) : d.pieces.flatten = d.positional [] := by
  unfold pieces positional
  dsimp only
  split
  · simp [flatten_zeros]
  · split
    · simp
    · simp [flatten_zeros]

def scientific (d : Decimal) : List Char :=
  let e := d.magnitude
  let sign := if e < 0 then '-' else '+'
  let point : List Char → List Char
    | [] => []
    | ds => '.' :: ds
  match Nat.toDigits 10 d.digits with
  | [] => []
  | c :: ds => c :: point ds ++ 'e' :: sign :: Nat.toDigits 10 e.natAbs

end Decimal

structure Layout where
  tie : Tie
  /-- Which powers of ten of the leading digit are written without an exponent. -/
  isPositional : Int → Bool
  /-- What whole numbers end in. -/
  whole : List Char

namespace Layout

def magnitude (n : Layout) (mantissa : Nat) (exponent : Int) : List Char :=
  if mantissa = 0 then '0' :: n.whole
  else
    let d := Decimal.shortest n.tie mantissa exponent
    if n.isPositional d.magnitude then d.positional n.whole else d.scientific

def finite (n : Layout) (negative : Bool) (mantissa : Nat) (exponent : Int) : List Char :=
  if negative then '-' :: n.magnitude mantissa exponent else n.magnitude mantissa exponent

/-- Printed numbers never have an exponent, and of two equally near decimals the upper one is taken. -/
def plain : Layout := ⟨.up, fun _ => true, []⟩

/-- In JSON a leading digit between `10 ^ -5` and `10 ^ 15` is written positionally, and whole
numbers keep a fraction. -/
def json : Layout := ⟨.toEven, fun e => -5 ≤ e && e ≤ 15, ['.', '0']⟩

end Layout

namespace Number

/-- The whole number that `x` is, if its magnitude is below `10 ^ 15`. Both zeros are zero. -/
def whole? (x : Float) : Option Int :=
  match Binary64.ofFloat x with
  | .finite negative m e =>
    let n := m * pow2 e.toNat
    let d := pow2 (-e).toNat
    if n % d = 0 ∧ n / d < pow10 15 then
      some (if negative then -(n / d : Nat) else (n / d : Nat))
    else none
  | _ => none

def plain (x : Float) : List Char :=
  match Binary64.ofFloat x with
  | .nan => ['N', 'a', 'N']
  | .infinite false => ['i', 'n', 'f']
  | .infinite true => ['-', 'i', 'n', 'f']
  | .finite negative m e => Layout.plain.finite negative m e

def integer (i : Int) : List Char :=
  if i < 0 then '-' :: Nat.toDigits 10 i.natAbs else Nat.toDigits 10 i.natAbs

def display (x : Float) : String :=
  String.ofList <| match whole? x with
    | some i => integer i
    | none => plain x

/-- The texts that printing a number writes one after another: a whole number in one go, and else the
sign before the rest. -/
def pieces (x : Float) : List String :=
  List.map String.ofList <| match whole? x with
    | some i => [integer i]
    | none =>
      match Binary64.ofFloat x with
      | .nan => [['N', 'a', 'N']]
      | .infinite negative => sign negative ++ [['i', 'n', 'f']]
      | .finite negative m e =>
        sign negative ++ if m = 0 then [['0']] else (Decimal.shortest .up m e).pieces
where
  sign (negative : Bool) : List (List Char) := if negative then [['-']] else []

theorem join_map_ofList (texts : List (List Char)) :
    String.join (texts.map String.ofList) = String.ofList texts.flatten := by
  rw [← String.toList_inj, String.toList_join, List.flatMap_map, String.toList_ofList]
  simp [List.flatMap_def]

theorem join_pieces (x : Float) : String.join (pieces x) = display x := by
  unfold pieces display plain
  rw [join_map_ofList]
  congr 1
  cases whole? x with
  | some i => simp
  | none =>
    cases Binary64.ofFloat x with
    | nan => rfl
    | infinite negative => cases negative <;> rfl
    | finite negative m e =>
      have hrest : (if m = 0 then [['0']] else (Decimal.shortest .up m e).pieces).flatten =
          Layout.plain.magnitude m e := by
        unfold Layout.magnitude
        split
        · rfl
        · exact Decimal.flatten_pieces _
      cases negative with
      | false => exact hrest
      | true => exact congrArg ('-' :: ·) hrest

/-- The text of a number as a literal: small whole numbers carry one fractional digit. -/
def literal (x : Float) : String :=
  String.ofList <| match whole? x with
    | some i => integer i ++ ['.', '0']
    | none => plain x

/-- The text of a number in JSON, which has none for NaN and the infinities. -/
def json (x : Float) : String :=
  match Binary64.ofFloat x with
  | .finite negative m e => String.ofList (Layout.json.finite negative m e)
  | _ => "null"

def ofDigits (ds : List Char) : Nat := ds.foldl (fun n c => 10 * n + (c.toNat - '0'.toNat)) 0

def ofDecimal (whole fraction : List Char) : Float :=
  Binary64.nearest (ofDigits (whole ++ fraction)) (pow10 fraction.length)

end Number

end Treewalk
