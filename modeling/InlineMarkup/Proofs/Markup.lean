import InlineMarkup.Grammar.Rule
import InlineMarkup.Lowering.Lower
/-!
# Proofs.Markup — markup in the abstract

Elements, attributes and content as data, apart from any text: how a piece of markup is written in a document
(`Markup.print`), and the builder call that it stands for (`Markup.call`).  Names and texts carry the proof that they can
be written where they stand, and no two runs of text are neighbours.
-/
namespace InlineMarkup

open Text (bytes)

/-! ## Names and texts -/

namespace Markup

def isNameStart (c : Char) : Bool := c.isAlpha || c == '_'

def isNameChar (c : Char) : Bool := c.isAlphanum || c == '_'

def isTagChar (c : Char) : Bool := isNameChar c || c == '-' || c == '.' || c == ':'

def isAttributeStart (c : Char) : Bool := isNameStart c || c == '@' || c == ':'

def isAttributeChar (c : Char) : Bool := isNameChar c || c == '-' || c == ':' || c == '.'

/-- A first character and others that may follow it. -/
def isWord (start other : Char → Bool) : Text → Bool
  | [] => false
  | c :: cs => start c && cs.all other

/-- The words that are no identifiers. -/
def reservedWords : List Text := Grammar.Keyword.all.map (·.spelling.toList) ++ ["true".toList, "false".toList]

def isIdentifier (t : Text) : Bool := isWord isNameStart isNameChar t && decide (t ∉ reservedWords)

abbrev TagName := { t : Text // isWord isNameStart isTagChar t = true }

abbrev AttributeName := { t : Text // isWord isAttributeStart isAttributeChar t = true }

abbrev Identifier := { t : Text // isIdentifier t = true }

/-- What may stand between double quotes as it is. -/
abbrev QuotedText := { t : Text // ∀ c ∈ t, c ≠ '"' ∧ c ≠ '\\' }

/-- A run of text between tags. -/
abbrev TextRun := { t : Text // t ≠ [] ∧ ∀ c ∈ t, c ≠ '<' ∧ c ≠ '\x7b' ∧ c ≠ '\x7d' }

/-- What may stand in a comment: anything that does not end it. -/
abbrev CommentText := { t : Text // ¬ ['-', '-', '>'] <:+: t }

/-- The value of an attribute. -/
inductive Value where
  /-- No value at all. -/
  | bare
  /-- An equals sign and nothing behind it. -/
  | missing
  /-- Empty braces. -/
  | braces
  | quoted (t : QuotedText)
  | name (x : Identifier)

structure Attribute where
  name : AttributeName
  value : Value

end Markup

mutual

/-- An element: a single tag, or content between two tags. -/
inductive Markup where
  | single (tag : Markup.TagName) (attributes : List Markup.Attribute)
  | pair (tag : Markup.TagName) (attributes : List Markup.Attribute) (content : Markup.Content)

/-- The content of an element: items, and perhaps a run of text before each of them and behind the last. -/
inductive Markup.Content where
  | last (run : Option Markup.TextRun)
  | more (run : Option Markup.TextRun) (item : Markup.Item) (rest : Markup.Content)

/-- What stands between runs of text. -/
inductive Markup.Item where
  | name (x : Markup.Identifier)
  /-- Empty braces. -/
  | braces
  | comment (t : Markup.CommentText)
  | element (m : Markup)

end

/-! ## Writing -/

namespace Markup

def Value.print : Value → Text
  | .bare => []
  | .missing => ['=']
  | .braces => ['='] ++ ['\x7b'] ++ ['\x7d']
  | .quoted t => ['='] ++ (['"'] ++ t.1 ++ ['"'])
  | .name x => ['='] ++ (['\x7b'] ++ x.1 ++ ['\x7d'])

def Attribute.print (a : Attribute) : Text := a.name.1 ++ a.value.print

/-- Attributes, each behind a space. -/
def printAttributes : List Attribute → Text
  | [] => []
  | a :: as => [' '] ++ a.print ++ printAttributes as

def printRun : Option TextRun → Text
  | none => []
  | some run => run.1

end Markup

mutual

/-- An element as it is written in a document. -/
def Markup.print : Markup → Text
  | .single tag as => ['<'] ++ tag.1 ++ Markup.printAttributes as ++ ['/', '>']
  | .pair tag as content =>
    ['<'] ++ tag.1 ++ Markup.printAttributes as ++ ['>'] ++ content.print ++ (['<', '/'] ++ tag.1 ++ ['>'])

def Markup.Content.print : Content → Text
  | .last run => Markup.printRun run
  | .more run item rest => Markup.printRun run ++ item.print ++ rest.print

def Markup.Item.print : Item → Text
  | .name x => ['\x7b'] ++ x.1 ++ ['\x7d']
  | .braces => ['\x7b'] ++ ['\x7d']
  | .comment t => ['<', '!', '-', '-'] ++ t.1 ++ ['-', '-', '>']
  | .element m => m.print

end

/-! ## What markup stands for -/

open Lowering (normalizeText escapeText)
open Lowering.Input (call listOf inQuotes)

namespace Markup

/-- The value of an attribute as an argument: an empty text where there is none behind the equals sign. -/
def Value.argument : Value → Text
  | .bare => "true".toList
  | .missing | .braces => inQuotes []
  | .quoted t => inQuotes t.1
  | .name x => x.1

def Attribute.call (b : Builders) (a : Attribute) : Text :=
  Lowering.Input.call b.attr [inQuotes a.name.1, a.value.argument]

/-- A run of text as a builder call; a blank run gives none. -/
def runCalls (b : Builders) : Option TextRun → List Text
  | none => []
  | some run => ((normalizeText run.1).map fun t => Lowering.Input.call b.text [inQuotes (escapeText t)]).toList

end Markup

mutual

/-- The builder call that an element stands for. -/
def Markup.call (b : Builders) : Markup → Text
  | .single tag as => Lowering.Input.call b.element [inQuotes tag.1, listOf (as.map (·.call b)), listOf []]
  | .pair tag as content =>
    Lowering.Input.call b.element [inQuotes tag.1, listOf (as.map (·.call b)), listOf (content.calls b)]

/-- The calls for the children: comments, empty braces and blank runs give none. -/
def Markup.Content.calls (b : Builders) : Content → List Text
  | .last run => Markup.runCalls b run
  | .more run item rest => Markup.runCalls b run ++ item.calls b ++ rest.calls b

def Markup.Item.calls (b : Builders) : Item → List Text
  | .name x => [Lowering.Input.call b.text [x.1]]
  | .braces | .comment _ => []
  | .element m => [m.call b]

end

mutual

/-- How many elements stand inside one another, at most. -/
def Markup.depth : Markup → Nat
  | .single _ _ => 1
  | .pair _ _ content => content.depth + 1

def Markup.Content.depth : Content → Nat
  | .last _ => 0
  | .more _ item rest => max item.depth rest.depth

def Markup.Item.depth : Item → Nat
  | .name _ | .braces | .comment _ => 0
  | .element m => m.depth

end

end InlineMarkup
