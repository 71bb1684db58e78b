import InlineMarkup.Text.Letter
import InlineMarkup.Text.Position
/-!
# Lowering.Masking — tags in code that is copied as it stands

To find tags in a piece of host code, its string and character literals and its comments are blanked out first, byte for
byte, and what is left is searched for the first thing that looks like a tag.
-/
namespace InlineMarkup.Lowering

/-- Where a scan of host code stands. -/
inductive Scan where
  | code
  /-- In a literal up to this quote, and whether the next character is escaped. -/
  | quoted (close : Char) (escaped : Bool)
  /-- In a comment, or in a line of a string of several lines. -/
  | comment
  deriving DecidableEq, Repr

/-- The scan after a character, and whether the character is code itself; `previous` is the character before it. -/
def Scan.step (s : Scan) (previous c : Char) : Scan × Bool :=
  match s with
  | .code =>
    if c == '"' || c == '\'' then (.quoted c false, true)
    else if c == '/' && previous == '/' then (.comment, true)
    else if c == '|' && (previous == '#' || previous == '$') then (.comment, true)
    else (.code, true)
  | .quoted close true => (.quoted close false, false)
  | .quoted close false =>
    if c == '\\' then (.quoted close true, false)
    else if c == close || c == '\n' then (.code, true)
    else (.quoted close false, false)
  | .comment => if c == '\n' then (.code, true) else (.comment, false)

/-- Blanks what is not code, from a scan on. -/
def maskFrom : Scan → Char → Text → Text
  | _, _, [] => []
  | s, previous, c :: cs =>
    let r := s.step previous c
    (if r.2 then [c] else List.replicate c.utf8Size ' ') ++ maskFrom r.1 c cs

/-- A piece of host code with the contents of its literals and comments blanked out. -/
def maskLiterals (t : Text) : Text := maskFrom .code '\x00' t

def isTagStart (c : Char) : Bool := c.isAlpha || c == '_'

def isTagPart (c : Char) : Bool := Text.isWordChar c || c == '.' || c == ':' || c == '-'

/-- What follows the tag that a text begins with: `<name`, perhaps more without angle brackets after a blank, perhaps a
slash, and `>`; or `</name`, perhaps blanks, and `>`. -/
def afterTag? : Text → Option Text
  | '<' :: '/' :: c :: cs =>
    if isTagStart c then
      match (cs.dropWhile isTagPart).dropWhile Text.isBlank with
      | '>' :: rest => some rest
      | _ => none
    else none
  | '<' :: c :: cs =>
    if isTagStart c then
      match cs.dropWhile isTagPart with
      | '>' :: rest => some rest
      | '/' :: '>' :: rest => some rest
      | b :: more =>
        if Text.isBlank b then
          match more.dropWhile fun x => x != '<' && x != '>' with
          | '>' :: rest => some rest
          | _ => none
        else none
      | [] => none
    else none
  | _ => none

/-- The first tag in a text that begins at a place. -/
def findTag? : Text → Nat → Option Span
  | [], _ => none
  | c :: cs, place =>
    match afterTag? (c :: cs) with
    | some rest => some ⟨place, place + (Text.bytes (c :: cs) - Text.bytes rest)⟩
    | none => findTag? cs (place + c.utf8Size)

end InlineMarkup.Lowering
