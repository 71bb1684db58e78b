import InlineMarkup.Cst.Tree
import InlineMarkup.Text.Basic
/-!
# Lowering.Joint — layout between composed siblings

Where two siblings are put together anew, the text between them is reduced to what it stands for: a line break with the
indentation of the second one's line, one space, or nothing.
-/
namespace InlineMarkup.Lowering

/-- The white space at the beginning of the line that an offset is in. -/
def lineIndent (source : Text) (offset : Nat) : Text :=
  let lineStart :=
    match Text.before? source (min offset (Text.bytes source)) with
    | some before => Text.bytes before - Text.bytes (Text.lastLine before)
    | none => 0
  ((Text.after? source lineStart).getD []).takeWhile Text.isIndent

/-- The line end to write: the one in the gap if it has one, or else the document's own. -/
def lineBreak (source gap : Text) : Text :=
  if Text.hasCrLf (if gap.contains '\n' then gap else source) then ['\r', '\n'] else ['\n']

/-- What is written between two composed siblings. -/
def joint (source : Text) (previous next : Tree) : Text :=
  let gap := (Text.slice? source previous.span.stop next.span.start).getD []
  if previous.isToken source ['{'] || previous.isToken source [';'] || previous.endsWithComment source ||
      next.isToken source ['}'] || gap.contains '\n' then
    lineBreak source gap ++ lineIndent source next.span.start
  else if gap.isEmpty then []
  else [' ']

/-- Composed siblings, after the one before them, with what is written between. -/
def weaveAfter (source : Text) (previous : Tree) : List (Tree × Text) → Text
  | [] => []
  | (t, written) :: more => joint source previous t ++ written ++ weaveAfter source t more

/-- Composed siblings with what is written between them. -/
def weave (source : Text) : List (Tree × Text) → Text
  | [] => []
  | (t, written) :: more => written ++ weaveAfter source t more

end InlineMarkup.Lowering
