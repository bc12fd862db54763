/-!
Binary floating point numbers, kept as their 64 bits, and the decimal text of one.

The text is the shortest decimal that reads back as the same number. With the value `m * 2 ^ q`
every real between the midpoints to its two neighbours reads back, the midpoints included when `m`
is even. Grids of the points `c * 10 ^ s` are tried from the coarsest down; the first one with a
point in the interval has the fewest digits, and there only the two points around the value can be
the nearest. All of it is exact arithmetic on naturals.
-/
namespace StackCompiler

structure Double where
  bits : UInt64
deriving DecidableEq, Repr, Inhabited

namespace Double

def twoTo (n : Nat) : Nat := Nat.pow 2 n

def tenTo (n : Nat) : Nat := Nat.pow 10 n

-- The value and the ends of its interval, as numerators over one denominator.
structure Interval where
  value : Nat
  low : Nat
  high : Nat
  denominator : Nat
  closed : Bool

/-- In quarter units the value is `4 m` and the midpoints are two away, or one below a power of
two, where the lower neighbour is twice as near. -/
def Interval.of (m : Nat) (q : Int) (nearBelow : Bool) : Interval :=
  let unit := twoTo (q - 2).toNat
  { value := 4 * m * unit
    low := (if nearBelow then 4 * m - 1 else 4 * m - 2) * unit
    high := (4 * m + 2) * unit
    denominator := twoTo (2 - q).toNat
    closed := m % 2 = 0 }

/-- The nearest point of the grid `10 ^ s` in the interval; of two equally near ones the upper. -/
def Interval.onGrid? (i : Interval) (s : Int) : Option Nat :=
  let up := tenTo (-s).toNat
  let step := i.denominator * tenTo s.toNat
  let value := i.value * up
  let below := value / step
  let above := below + 1
  let fits :=
    fun small large => if i.closed then decide (small ≤ large) else decide (small < large)
  let lowFits := fits (i.low * up) (below * step)
  let highFits := fits (above * step) (i.high * up)
  match lowFits, highFits with
  | true, true => some (if value - below * step < above * step - value then below else above)
  | true, false => some below
  | false, true => some above
  | false, false => none

/-- Tries the grid `10 ^ s` and finer ones. The value itself lies on the grid `10 ^ -1076`. -/
def Interval.shortest (i : Interval) : (grids : Nat) → (s : Int) → Nat × Int
  | 0, s => (i.value, s)
  | grids + 1, s =>
      match i.onGrid? s with
      | some point => (point, s)
      | none => i.shortest grids (s - 1)

def Interval.magnitude (i : Interval) : Int :=
  (Int.ofNat (Nat.log2 i.value) + 1 - Int.ofNat (Nat.log2 i.denominator)) * 30103 / 100000 + 1

def Interval.digits (i : Interval) : Nat × Int :=
  i.shortest (i.magnitude + 1077).toNat i.magnitude

/-- Writes `c * 10 ^ s` without an exponent, and without a point when it is whole. -/
def positional (c : Nat) (s : Int) : String :=
  let digits := Nat.toDigits 10 c
  let places := (-s).toNat
  if 0 ≤ s then String.ofList (digits ++ List.replicate s.toNat '0')
  else if places < digits.length then
    let whole := digits.length - places
    String.ofList (digits.take whole ++ '.' :: digits.drop whole)
  else String.ofList ('0' :: '.' :: List.replicate (places - digits.length) '0' ++ digits)

def isNegative (d : Double) : Bool := d.bits.toNat / twoTo 63 = 1

def exponent (d : Double) : Nat := d.bits.toNat / twoTo 52 % twoTo 11

def fraction (d : Double) : Nat := d.bits.toNat % twoTo 52

def magnitudeText (d : Double) : String :=
  if d.exponent = 0 ∧ d.fraction = 0 then "0"
  else
    let interval :=
      if d.exponent = 0 then Interval.of d.fraction (-1074) false
      else Interval.of (d.fraction + twoTo 52) (d.exponent - 1075) (d.fraction = 0 ∧ 1 < d.exponent)
    let (c, s) := interval.digits
    positional c s

def text (d : Double) : String :=
  if d.exponent = 2047 ∧ d.fraction ≠ 0 then "NaN"
  else
    let magnitude := if d.exponent = 2047 then "inf" else d.magnitudeText
    if d.isNegative then "-" ++ magnitude else magnitude

end Double

end StackCompiler
