import InlineMarkup.Text.Decimal
import InlineMarkup.Text.Quoted
import InlineMarkup.Yaml.Scalar
/-!
# Yaml.Look — what a plain scalar looks like

A plain scalar without quotes may stand for nothing, for a truth value or for a number.
-/
namespace InlineMarkup.Yaml

/-- Numerals with a leading zero are texts. -/
def isPadded (t : Text) : Bool :=
  match t with
  | '-' :: r | '+' :: r => padded r
  | r => padded r
where
  /-- A zero before other digits. -/
  padded : Text → Bool
    | '0' :: c :: r => (c :: r).all Char.isDigit
    | _ => false

/-- A numeral without sign: decimal, or with its base before it. -/
def unsigned? (t : Text) : Option Nat :=
  let based : Option Nat := match t with
    | '0' :: 'x' :: r => numeral? 16 r
    | '0' :: 'o' :: r => numeral? 8 r
    | '0' :: 'b' :: r => numeral? 2 r
    | _ => none
  match based with
  | some n => some n
  | none => if isPadded t then none else numeral? 10 t

/-- A whole number that is not negative; it may have a plus sign. -/
def natural? (t : Text) : Option Nat :=
  match t with
  | '+' :: r => unsigned? r
  | r => unsigned? r

/-- The absolute value of a whole number with a minus sign. -/
def negative? (t : Text) : Option Nat :=
  match t with
  | '-' :: r => unsigned? r
  | _ => none

def truth? (t : Text) : Option Bool :=
  if ["true".toList, "True".toList, "TRUE".toList].contains t then some true
  else if ["false".toList, "False".toList, "FALSE".toList].contains t then some false
  else none

def isNull (t : Text) : Bool := [[], "null".toList, "Null".toList, "NULL".toList, "~".toList].contains t

/-- A number with a point or an exponent, in double precision. -/
def float? (t : Text) : Option Text :=
  let u := match t with
    | '+' :: '+' :: r => '+' :: '+' :: r
    | '+' :: '-' :: r => '+' :: '-' :: r
    | '+' :: r => r
    | r => r
  if [".inf".toList, ".Inf".toList, ".INF".toList].contains u then some "inf".toList
  else if ["-.inf".toList, "-.Inf".toList, "-.INF".toList].contains t then some "-inf".toList
  else if [".nan".toList, ".NaN".toList, ".NAN".toList].contains t then some "NaN".toList
  else match u with
    | '-' :: r => ((Decimal.read? r).bind Decimal.display?).map ('-' :: ·)
    | r => (Decimal.read? r).bind Decimal.display?

/-- A text between backquotes. -/
def marked (word : String) (t : Text) : String := word ++ " `" ++ String.ofList t ++ "`"

/-- What a plain scalar is taken for when something else was expected. -/
def describePlain (t : Text) : String :=
  if isNull t then "unit value"
  else match truth? t with
  | some b => marked "boolean" (if b then "true" else "false").toList
  | none =>
    match natural? t, negative? t with
    | some n, _ =>
      if n < Nat.pow 2 64 then marked "integer" (Nat.toDigits 10 n)
      else if n < Nat.pow 2 128 then marked "integer" (Nat.toDigits 10 n) ++ " as u128"
      else describeLarge t
    | none, some n =>
      let ds := if n = 0 then ['0'] else '-' :: Nat.toDigits 10 n
      if n ≤ Nat.pow 2 63 then marked "integer" ds
      else if n ≤ Nat.pow 2 127 then marked "integer" ds ++ " as i128"
      else describeLarge t
    | none, none => describeLarge t
where
  /-- A number in double precision or a text. -/
  describeLarge (t : Text) : String :=
    match if isPadded t then none else float? t with
    | some d => marked "floating point" d
    | none => "string " ++ String.ofList (Text.quoted t)

/-- What an event is taken for when something else was expected. -/
def Event.describe : Event → String
  | .scalar t true => describePlain t
  | .scalar t false => "string " ++ String.ofList (Text.quoted t)
  | .listStart | .listEnd => "sequence"
  | .mapStart | .mapEnd => "map"

end InlineMarkup.Yaml
