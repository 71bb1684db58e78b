import InlineMarkup.Text.Basic
/-!
# Text.Decimal — decimal numbers in double precision

A decimal number is rounded to the nearest double, a tie to the even one.  A double is written with the fewest digits
that are rounded to it again, the nearest of those, and without an exponent.
-/
namespace InlineMarkup.Decimal

/-- The number `digits · 10 ^ exponent`. -/
structure Scaled where
  digits : Nat
  exponent : Int
  deriving DecidableEq, Repr

/-- A positive double: `mantissa · 2 ^ exponent`. -/
structure Binary where
  mantissa : Nat
  exponent : Int
  deriving DecidableEq, Repr

/-- A fraction of naturals rounded to a natural, a tie to the even neighbour. -/
def roundDiv (num den : Nat) : Nat :=
  let q := num / den
  let r := num % den
  if 2 * r < den then q else if den < 2 * r then q + 1 else if q % 2 = 0 then q else q + 1

/-- The numerator and denominator of `n · b ^ e`. -/
def fraction (n b : Nat) (e : Int) : Nat × Nat :=
  if 0 ≤ e then (n * Nat.pow b e.toNat, 1) else (n, Nat.pow b (-e).toNat)

/-- A fraction divided by a power of two, rounded. -/
def roundScaled (num den : Nat) (e : Int) : Nat :=
  if 0 ≤ e then roundDiv num (den * Nat.pow 2 e.toNat) else roundDiv (num * Nat.pow 2 (-e).toNat) den

/-- The double nearest to a decimal; nothing if that is beyond the greatest one. -/
def nearest? (s : Scaled) : Option Binary :=
  let width : Int := (Nat.toDigits 10 s.digits).length + s.exponent
  if s.digits = 0 || width < -400 then some ⟨0, -1074⟩
  else if 400 < width then none
  else
    let (num, den) := fraction s.digits 10 s.exponent
    let guess : Int := (Nat.log2 num : Int) - Nat.log2 den - 53
    let e := max guess (-1074)
    let m := roundScaled num den e
    let e := if Nat.pow 2 53 ≤ m then e + 1 else e
    let m := roundScaled num den e
    let (m, e) := if Nat.pow 2 53 ≤ m then (m / 2, e + 1) else (m, e)
    if 971 < e then none else some ⟨m, e⟩

/-- The decimals with so many digits next to a double, the nearer one first; `top` is the exponent of ten that the double
lies below. -/
def neighbours (b : Binary) (top : Int) (count : Nat) : List Scaled :=
  let (num, den) := fraction b.mantissa 2 b.exponent
  let e := top - count
  let (num, den) := if 0 ≤ e then (num, den * Nat.pow 10 e.toNat) else (num * Nat.pow 10 (-e).toNat, den)
  let low := num / den
  if 2 * (num % den) ≤ den then [⟨low, e⟩, ⟨low + 1, e⟩] else [⟨low + 1, e⟩, ⟨low, e⟩]

/-- The least power of ten that a positive double lies below. -/
def topExponent (b : Binary) : Int :=
  let (num, den) := fraction b.mantissa 2 b.exponent
  let q : Int := (Nat.toDigits 10 num).length - (Nat.toDigits 10 den).length
  let below (e : Int) : Bool := let (n, d) := fraction den 10 e; num * d < n
  if below q then q else q + 1

/-- The fewest digits that are rounded to a double. -/
def shortest (b : Binary) : Scaled :=
  let top := topExponent b
  (((List.range 17).flatMap fun k => neighbours b top (k + 1)).find? fun s => nearest? s == some b).getD ⟨0, 0⟩

/-- A number in positional form, with at least one digit behind the point. -/
def positional (s : Scaled) : Text :=
  let ds := Nat.toDigits 10 s.digits
  if 0 ≤ s.exponent then ds ++ List.replicate s.exponent.toNat '0' ++ ['.', '0']
  else
    let places := (-s.exponent).toNat
    let ds := List.replicate (places + 1 - ds.length) '0' ++ ds
    let whole := ds.take (ds.length - places)
    let part := Text.trimEnd (· == '0') (ds.drop (ds.length - places))
    whole ++ '.' :: (if part.isEmpty then ['0'] else part)

/-- The double nearest to a decimal in positional form; nothing beyond the greatest double. -/
def display? (s : Scaled) : Option Text :=
  (nearest? s).map fun b => if b.mantissa = 0 then ['0', '.', '0'] else positional (shortest b)

/-- The number that digits stand for, after `n`. -/
def digitsValue (n : Nat) (ds : Text) : Nat := ds.foldl (fun n c => 10 * n + (c.toNat - '0'.toNat)) n

/-- Digits, perhaps with a point among them, and perhaps an exponent. -/
def read? (t : Text) : Option Scaled :=
  let whole := t.takeWhile Char.isDigit
  let rest := t.dropWhile Char.isDigit
  let (part, rest) := match rest with
    | '.' :: r => (r.takeWhile Char.isDigit, r.dropWhile Char.isDigit)
    | r => ([], r)
  if whole.isEmpty && part.isEmpty then none
  else
    let scaled (e : Int) : Scaled := ⟨digitsValue (digitsValue 0 whole) part, e - part.length⟩
    match rest with
    | [] => some (scaled 0)
    | x :: r =>
      if x == 'e' || x == 'E' then
        let (negative, ds) := match r with
          | '-' :: ds => (true, ds)
          | '+' :: ds => (false, ds)
          | ds => (false, ds)
        if ds.isEmpty || !ds.all Char.isDigit then none
        else
          let n : Int := digitsValue 0 ds
          some (scaled (if negative then -n else n))
      else none

end InlineMarkup.Decimal
