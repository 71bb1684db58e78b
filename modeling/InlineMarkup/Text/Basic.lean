/-!
# Text — texts, their byte offsets and their characters

A text is a list of characters.  A place in a text is a byte offset of its UTF-8 form, so a cut can fall outside the
text or inside a character; cutting there gives nothing.  Blank characters are those with the Unicode property
`White_Space`; the narrower sets separate words on one line, and lines.  Larger classes of characters are written as the
list of their ranges of code points, in increasing order.
-/
namespace InlineMarkup

/-- A text, character by character. -/
abbrev Text := List Char

namespace Text

/-- How many bytes a text has. -/
def bytes : Text → Nat
  | [] => 0
  | c :: cs => c.utf8Size + bytes cs

/-- The first `n` bytes; nothing if they end past the text or inside a character. -/
def before? : Text → Nat → Option Text
  | _, 0 => some []
  | [], _ + 1 => none
  | c :: cs, n + 1 => if c.utf8Size ≤ n + 1 then (before? cs (n + 1 - c.utf8Size)).map (c :: ·) else none

/-- What follows the first `n` bytes; nothing if they end past the text or inside a character. -/
def after? : Text → Nat → Option Text
  | cs, 0 => some cs
  | [], _ + 1 => none
  | c :: cs, n + 1 => if c.utf8Size ≤ n + 1 then after? cs (n + 1 - c.utf8Size) else none

/-- The bytes from `start` up to `stop`; nothing if either is no place in the text, or they are in the wrong order. -/
def slice? (t : Text) (start stop : Nat) : Option Text :=
  if start ≤ stop then (after? t start).bind (before? · (stop - start)) else none

/-- The longest run of whole characters in the first `n` bytes. -/
def upTo : Text → Nat → Text
  | [], _ => []
  | c :: cs, n => if c.utf8Size ≤ n then c :: upTo cs (n - c.utf8Size) else []

/-- The pieces between the occurrences of `sep`: one more than there are occurrences. -/
def pieces (sep : Char) : Text → List Text
  | [] => [[]]
  | c :: cs =>
    if c = sep then [] :: pieces sep cs
    else match pieces sep cs with
      | [] => [[c]]
      | p :: ps => (c :: p) :: ps

/-- The lines of a text, without their line feeds. -/
def lines (t : Text) : List Text := pieces '\n' t

/-- The texts one after another with `sep` between them. -/
def join (sep : Text) : List Text → Text
  | [] => []
  | [t] => t
  | t :: ts => t ++ sep ++ join sep ts

/-- What follows `w` when the text begins with it. -/
def strip? : Text → Text → Option Text
  | [], t => some t
  | _ :: _, [] => none
  | w :: ws, c :: cs => if w = c then strip? ws cs else none

/-- Whether a carriage return is directly followed by a line feed somewhere. -/
def hasCrLf : Text → Bool
  | '\r' :: '\n' :: _ => true
  | _ :: cs => hasCrLf cs
  | [] => false

/-- Without the characters of `p` at the end. -/
def trimEnd (p : Char → Bool) (t : Text) : Text := (t.reverse.dropWhile p).reverse

/-- Without the characters of `p` at the beginning. -/
def trimStart (p : Char → Bool) (t : Text) : Text := t.dropWhile p

/-- What follows the last line feed. -/
def lastLine (t : Text) : Text := (t.reverse.takeWhile (· != '\n')).reverse

/-- The first text comes before the second by code points. -/
def lt : Text → Text → Bool
  | [], [] => false
  | [], _ :: _ => true
  | _ :: _, [] => false
  | a :: as, b :: bs => if a.toNat < b.toNat then true else if b.toNat < a.toNat then false else lt as bs

/-- Equal when ASCII letters of either case count as the same. -/
def sameAsciiFold : Text → Text → Bool
  | [], [] => true
  | a :: as, b :: bs => a.toLower == b.toLower && sameAsciiFold as bs
  | _, _ => false

/-! ## Characters -/

/-- A character of the Unicode property `White_Space`. -/
def isBlank (c : Char) : Bool :=
  let n := c.toNat
  (9 ≤ n && n ≤ 13) || n == 32 || n == 0x85 || n == 0xA0 || n == 0x1680 || (0x2000 ≤ n && n ≤ 0x200A) ||
    n == 0x2028 || n == 0x2029 || n == 0x202F || n == 0x205F || n == 0x3000

/-- A space or a tab. -/
def isIndent (c : Char) : Bool := c == ' ' || c == '\t'

/-- A space, a tab or a character of a line end. -/
def isLayout (c : Char) : Bool := isIndent c || c == '\r' || c == '\n'

/-- A class of characters: ranges of code points, both ends included. -/
abbrev Ranges := List (Nat × Nat)

/-- The character lies in one of the ranges. -/
def Ranges.holds (rs : Ranges) (c : Char) : Bool := rs.any fun r => r.1 ≤ c.toNat && c.toNat ≤ r.2

end Text
end InlineMarkup
