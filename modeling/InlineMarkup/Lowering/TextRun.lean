import InlineMarkup.Text.Basic
/-!
# Lowering.TextRun — text between tags

The text between tags follows a rule of lines: white space around a line end counts for one space between words and for
nothing at the ends, white space inside a line is kept, and a run of nothing but white space is no text at all.  What
remains is written between the quotes of a host string.
-/
namespace InlineMarkup.Lowering

/-- A line without a carriage return at its end. -/
def chomp (line : Text) : Text := if line.getLast? = some '\r' then line.dropLast else line

/-- Trims lines where they meet: every line but the first at its beginning, every line but the last at its end. -/
def trimInner : Bool → List Text → List Text
  | _, [] => []
  | isFirst, l :: ls =>
    let l := if isFirst then l else Text.trimStart Text.isBlank l
    (if ls.isEmpty then l else Text.trimEnd Text.isBlank l) :: trimInner false ls

/-- A run of text after the rule of lines; nothing if only white space is left. -/
def normalizeText (run : Text) : Option Text :=
  let kept := (trimInner true ((Text.lines run).map chomp)).filter (!·.isEmpty)
  let joined := Text.join [' '] kept
  if joined.all Text.isBlank then none else some joined

/-- A character as it stands between the quotes of a host string. -/
def escapeChar : Char → Text
  | '\\' => ['\\', '\\']
  | '"' => ['\\', '"']
  | '\n' => ['\\', 'n']
  | '\t' => ['\\', 't']
  | '\r' => ['\\', 'r']
  | c => [c]

/-- A text as it stands between the quotes of a host string. -/
def escapeText (t : Text) : Text := t.flatMap escapeChar

/-- The content of a single-quoted value, written for double quotes: a quote of the one kind loses its backslash, a plain
one of the other gains it, every other escape stays, and a backslash that escapes nothing is escaped itself. -/
def requote : Text → Text
  | [] => []
  | '\\' :: '\'' :: cs => '\'' :: requote cs
  | '\\' :: c :: cs => '\\' :: c :: requote cs
  | ['\\'] => ['\\', '\\']
  | '"' :: cs => '\\' :: '"' :: requote cs
  | c :: cs => c :: requote cs

end InlineMarkup.Lowering
