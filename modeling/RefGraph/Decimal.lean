/-!
# Decimals

A number with a fraction is shown by the fewest digits that read back as the same number.

* `Decimal.ofFloat?`: the shortest decimal of a number.
* `Decimal.positional`: a decimal with all its zeros written out.
* `Decimal.scientific`: a decimal with an exponent if it would otherwise be long.
-/

namespace RefGraph

/-- The number `digits * 10 ^ exponent`, negative if so marked. -/
structure Decimal where
  negative : Bool
  digits : Nat
  exponent : Int
deriving DecidableEq, Repr, Inhabited

/-- A positive fraction. -/
structure Ratio where
  num : Nat
  den : Nat
deriving DecidableEq, Repr, Inhabited

/-- A power of ten. -/
def powerOfTen : Nat → Nat
  | 0 => 1
  | e + 1 => powerOfTen e * 10

namespace Ratio

/-- The number `n * 2 ^ e`. -/
def binary (n : Nat) (e : Int) : Ratio := ⟨n <<< e.toNat, 1 <<< (-e).toNat⟩

/-- The number `n * 10 ^ e`. -/
def decimal (n : Nat) (e : Int) : Ratio :=
  ⟨n * powerOfTen e.toNat, powerOfTen (-e).toNat⟩

/-- Whether a number is less than another. -/
def lt (a b : Ratio) : Bool := a.num * b.den < b.num * a.den

/-- The greatest multiple of `10 ^ e` that is not above a number, counted in these units. -/
def floorAt (a : Ratio) (e : Int) : Nat :=
  (a.num * powerOfTen (-e).toNat) / (a.den * powerOfTen e.toNat)

/-- The exponent of the first digit of a number. -/
def firstExponent (a : Ratio) : Int :=
  if a.den ≤ a.num then ((Nat.toDigits 10 (a.num / a.den)).length : Int) - 1
  else -(((List.range 400).find? fun j => a.den ≤ a.num * powerOfTen j).getD 0 : Nat)

end Ratio

/-- The numbers that read back as the same one: those between two bounds, which belong to them if
`closed` is set. -/
structure Interval where
  low : Ratio
  high : Ratio
  closed : Bool

/-- Whether a number lies in an interval. -/
def Interval.holds (i : Interval) (a : Ratio) : Bool :=
  if i.closed then !a.lt i.low && !i.high.lt a else i.low.lt a && a.lt i.high

namespace Decimal

/-- The decimal with a number of digits that lies in an interval and is nearest to a number. -/
def withDigits? (value : Ratio) (interval : Interval) (count : Nat) : Option (Nat × Int) :=
  let e := value.firstExponent - (count : Int) + 1
  let below := value.floorAt e
  let carried (n : Nat) : Nat × Int := if n = powerOfTen count then (1, e + count) else (n, e)
  match [below, below + 1].filter fun n => interval.holds (.decimal n e) with
  | [] => none
  | [n] => some (carried n)
  | n :: _ :: _ =>
    if (Ratio.decimal (2 * n + 1) e).lt ⟨2 * value.num, value.den⟩ then some (carried (n + 1))
    else some (carried n)

/-- The number `m * 2 ^ e` by the fewest digits that lie between its neighbours. The one below is
nearer if `narrow` is set. -/
def shortest (m : Nat) (e : Int) (narrow : Bool) : Nat × Int :=
  let value := Ratio.binary (4 * m) (e - 2)
  let interval : Interval :=
    ⟨.binary (4 * m - if narrow then 1 else 2) (e - 2), .binary (4 * m + 2) (e - 2), m % 2 = 0⟩
  ((List.range' 1 17).findSome? (withDigits? value interval)).getD (m, e)

/-- The shortest decimal of a number; none if it is not finite. -/
def ofFloat? (x : Float) : Option Decimal :=
  let bits := x.toBits.toNat
  let negative := decide (UInt64.size / 2 ≤ bits)
  let biased := (bits >>> 52) % 2048
  let fraction := bits % (1 <<< 52)
  if biased = 2047 then none
  else if biased = 0 ∧ fraction = 0 then some ⟨negative, 0, 0⟩
  else
    let m := if biased = 0 then fraction else fraction + (1 <<< 52)
    let e : Int := (max biased 1 : Nat) - 1075
    let (digits, exponent) := shortest m e (fraction = 0 ∧ 1 < biased)
    some ⟨negative, digits, exponent⟩

/-- The digits of a decimal. -/
def digitChars (d : Decimal) : List Char := Nat.toDigits 10 d.digits

/-- The sign of a decimal, if it is negative. -/
def sign (d : Decimal) : List Char := if d.negative then ['-'] else []

/-- A decimal without an exponent, with at least one digit behind the point. -/
def positional (d : Decimal) : String :=
  let ds := d.digitChars
  let behind := (-d.exponent).toNat
  String.ofList <| d.sign ++
    if 0 ≤ d.exponent then ds ++ List.replicate d.exponent.toNat '0' ++ ['.', '0']
    else if behind < ds.length then
      ds.take (ds.length - behind) ++ '.' :: ds.drop (ds.length - behind)
    else '0' :: '.' :: List.replicate (behind - ds.length) '0' ++ ds

/-- A decimal with an exponent, if the first digit stands more than five places behind the point or
more than sixteen before it. -/
def scientific (d : Decimal) : String :=
  let ds := d.digitChars
  let first := d.exponent + (ds.length : Int) - 1
  if -5 ≤ first ∧ first < 16 then d.positional
  else
    String.ofList <| d.sign ++ ds.take 1 ++ (if ds.length = 1 then [] else '.' :: ds.drop 1) ++
      ['e', if 0 ≤ first then '+' else '-'] ++ Nat.toDigits 10 first.natAbs

end Decimal

end RefGraph
