import InlineMarkup.Grammar.Parse
import InlineMarkup.Grammar.Rule
/-!
# Grammar.Document — the grammar of documents

A document is host code with inline markup.  Line ends separate statements, so only spaces, tabs and line comments are
layout.  What the grammar does not model is taken as raw text, balanced over brackets and strings; raw text never begins
with a tag, so that markup is not swallowed there.  Inside an element white space is content, inside a tag it is layout.

A document that does not match is explained by the rules tried in vain at the furthest place, each named once, in the
order of `Rule.all` (`Attempts.explain`).
-/
namespace InlineMarkup.Grammar

/-- A parsing expression of the document grammar. -/
abbrev DocExpr := Expr Rule

namespace DocExpr

def word (s : String) : DocExpr := Expr.word s.toList

/-- The parts in sequence. -/
def seqs : DocExpr → List DocExpr → DocExpr
  | p, [] => p
  | p, q :: ps => .seq p (seqs q ps)

/-- The first of the alternatives that matches. -/
def alts : DocExpr → List DocExpr → DocExpr
  | p, [] => p
  | p, q :: ps => .alt p (alts q ps)

/-- The first of the words that matches. -/
def words (w : String) (ws : List String) : DocExpr := alts (word w) (ws.map word)

/-- One character that no match of `p` begins with. -/
def charBut (p : DocExpr) : DocExpr := .seq (.never p) (.one .any)

/-! ## Words and literals -/

def newline : DocExpr := words "\n" ["\r\n", "\r"]

def blank : DocExpr := words " " ["\t"]

/-- The characters up to the end of the line. -/
def restOfLine : DocExpr := .many (charBut newline)

def newlines : DocExpr := .many newline

def separator : DocExpr := .many1 (.alt newline (word ";"))

def statementEnd : DocExpr := .ahead (alts newline [word ";", word "\x7d", .never (.one .any)])

def identChar : DocExpr := .alt (.one .alphanumeric) (word "_")

def identWord : DocExpr := .seq (.alt (.one .letter) (word "_")) (.many identChar)

def wordEnd : DocExpr := .never identChar

/-- A reserved word: the words with nodes of their own and the truth values. -/
def reserved : DocExpr :=
  .seq (words "if" ["else", "match", "for", "while", "fn", "let", "mut", "return", "raise", "break", "continue",
    "true", "false", "guard", "loop", "try", "catch", "noraise"]) wordEnd

def stringLiteral : DocExpr :=
  seqs (word "\"") [.many (.alt (.seq (word "\\") (.one .any)) (charBut (.alt (word "\"") newline))), word "\""]

def charLiteral : DocExpr :=
  seqs (word "'")
    [.alt (.seq (word "\\") (.many1 (charBut (word "'")))) (charBut (.alt (word "'") newline)), word "'"]

/-- A line of a string of several lines. -/
def stringLine : DocExpr := .seq (words "#|" ["$|"]) restOfLine

def multilineString : DocExpr := .seq stringLine (.many (seqs newline [.many blank, stringLine]))

def number : DocExpr :=
  .seq (.one .digit) (.many (alts (.one .alphanumeric) [word "_", .seq (word ".") (.one .digit)]))

def truthValue : DocExpr := .seq (words "true" ["false"]) wordEnd

def lineComment : DocExpr := .seq (word "//") restOfLine

/-- What begins a tag. -/
def tagStart : DocExpr := .seq (word "<") (alts (.one .letter) [word "_", word "/", word ">"])

/-! ## Shapes that recur -/

/-- Items with separators between them, around them or not. -/
def separated (item : DocExpr) : DocExpr :=
  .seq (.opt separator) (.opt (seqs item [.many (.seq separator item), .opt separator]))

/-- Items with commas between them and perhaps one after, between two brackets. -/
def listed (opening : String) (item : DocExpr) (closing : String) : DocExpr :=
  seqs (word opening)
    [newlines, .opt (seqs item [.many (seqs (word ",") [newlines, item]), .opt (word ",")]), newlines, word closing]

/-- Raw text between two brackets. -/
def bracketed (opening closing : String) : DocExpr :=
  seqs (word opening) [.many (.alt (.rule .rawPiece) newline), word closing]

/-- Pieces of raw text or else single characters up to a match of `stop`, at least one. -/
def rawUpTo (pieces : List DocExpr) (stop : DocExpr) : DocExpr :=
  .many1 (pieces.foldr .alt (charBut stop))

def keyword (k : Keyword) : DocExpr := .rule (.kw k)

end DocExpr

open DocExpr

namespace Rule

/-- How each rule is written. -/
def style : Rule → Style
  | .stmt | .rawPiece | .rawBrace | .rawParen | .rawBracket | .postfixOp | .primary | .matchArms | .elementContent =>
    .silent
  | .comment | .declKeyword | .declHead | .guardHead | .pattern | .typeExpr | .rawStmt | .rawItem | .tryMark
  | .patternText | .forHead | .lambdaParams | .returnType | .labelEq | .punned | .dot | .tryOp | .infixOp | .prefixOp
  | .assignOp | .literal | .identifier | .qualifiedName | .kw _ | .tagName | .markupComment | .text | .attributeName
  | .attributeContent | .attributeContentSingle => .token
  | .element | .attributeValue => .compact
  | .selfClosingTag | .openingTag | .closingTag | .interpolation => .spaced
  | _ => .plain

/-- What each rule matches. -/
def body : Rule → DocExpr
  | .endOfInput => .last
  | .comment => lineComment
  -- the document and its statements
  | .program =>
    seqs .first
      [separated (alts (.rule .decl) [.rule .letStmt, .rule .exprStmt, .rule .rawItem]), .rule .endOfInput]
  | .decl => seqs (.ahead (.rule .declKeyword)) [.rule .declHead, .rule .block]
  | .declKeyword =>
    seqs (.opt (seqs (word "pub")
        [.opt (seqs (word "(") [.many (charBut (word ")")), word ")"]), .many1 blank]))
      [.opt (.seq (word "async") (.many1 blank)), words "fn" ["test", "impl"], wordEnd]
  | .declHead => rawUpTo [stringLiteral, .rule .rawParen, .rule .rawBracket] (alts (word "\x7b") [newline, word "//"])
  | .block => seqs (word "\x7b") [separated (.rule .stmt), word "\x7d"]
  | .stmt =>
    alts (.rule .decl)
      [.rule .letStmt, .rule .guardStmt, .rule .jumpStmt, .rule .exprStmt, .rule .rawStmt]
  | .letStmt =>
    seqs (keyword .let)
      [.opt (keyword .mut), .rule .pattern, .opt (.seq (word ":") (.rule .typeExpr)), word "=", newlines,
        .rule .expression, statementEnd]
  | .guardStmt => seqs (keyword .guard) [.rule .guardHead, .opt (.seq (keyword .else) (.rule .block)), statementEnd]
  | .guardHead =>
    rawUpTo [.rule .rawParen, .rule .rawBracket, .rule .rawBrace, stringLiteral, charLiteral]
      (alts (.seq (.many1 blank) (keyword .else)) [newline, word "//"])
  | .jumpStmt =>
    seqs (alts (keyword .return) [keyword .raise, keyword .break, keyword .continue]) [.opt (.rule .expression), statementEnd]
  | .exprStmt =>
    seqs (.rule .expression) [.opt (seqs (.rule .assignOp) [newlines, .rule .expression]), statementEnd]
  | .pattern => alts (.rule .rawParen) [.rule .rawBracket, .many1 identChar]
  | .typeExpr =>
    rawUpTo [.rule .rawParen, .rule .rawBracket] (.alt (.seq (word "=") (.never (word ">"))) newline)
  | .rawStmt | .rawItem => .seq (.never tagStart) (.many1 (.rule .rawPiece))
  -- raw text
  | .rawPiece =>
    alts lineComment
      [stringLine, .rule .rawBrace, .rule .rawParen, .rule .rawBracket, stringLiteral, charLiteral,
        charBut (alts newline [word "\x7d", word ")", word "]"])]
  | .rawBrace => bracketed "\x7b" "\x7d"
  | .rawParen => bracketed "(" ")"
  | .rawBracket => bracketed "[" "]"
  -- expressions
  | .expression => .seq (.rule .unary) (.many (seqs (.rule .infixOp) [newlines, .rule .unary]))
  | .unary => .seq (.many (.rule .prefixOp)) (.rule .postfixed)
  | .postfixed => .seq (.rule .primary) (.many (.rule .postfixOp))
  | .postfixOp =>
    alts (.rule .callArgs) [.rule .indexAccess, .rule .recordSuffix, .rule .fieldAccess, .rule .tryOp]
  | .primary =>
    alts (.rule .element)
      [.rule .literal, .rule .ifExpr, .rule .matchExpr, .rule .forExpr, .rule .whileExpr, .rule .loopExpr,
        .rule .tryExpr, .rule .lambda, .rule .matchLambda, .rule .arrowFn, .rule .parenExpr, .rule .tupleExpr,
        .rule .arrayExpr, .rule .recordExpr, .rule .block, .rule .qualifiedName, .rule .identifier]
  | .ifExpr =>
    seqs (keyword .if)
      [.rule .expression, .rule .block, .opt (.seq (keyword .else) (.alt (.rule .ifExpr) (.rule .block)))]
  | .matchExpr => seqs (keyword .match) [.rule .expression, .rule .matchArms]
  | .matchArms => seqs (word "\x7b") [separated (.rule .matchArm), word "\x7d"]
  | .matchArm => seqs (.rule .patternText) [word "=>", newlines, .rule .expression]
  | .forExpr => seqs (keyword .for) [.rule .forHead, .rule .block, .opt (.seq (keyword .else) (.rule .block))]
  | .whileExpr => seqs (keyword .while) [.rule .expression, .rule .block, .opt (.seq (keyword .else) (.rule .block))]
  | .loopExpr =>
    seqs (keyword .loop)
      [.rule .expression, .many (seqs (word ",") [newlines, .rule .expression]), .rule .matchArms]
  | .tryExpr =>
    seqs (keyword .try)
      [.opt (.rule .tryMark), .rule .expression,
        .opt (seqs (keyword .catch) [.opt (.rule .tryMark), .rule .matchArms]),
        .opt (.seq (.alt (keyword .else) (keyword .noraise)) (.rule .matchArms))]
  | .tryMark => words "?" ["!"]
  | .lambda =>
    seqs (keyword .fn) [.rule .lambdaParams, .opt (.seq (word "->") (.rule .returnType)), .rule .block]
  | .matchLambda => .seq (keyword .fn) (.rule .matchArms)
  | .arrowFn =>
    seqs (.alt (.rule .identifier) (.rule .lambdaParams)) [word "=>", newlines, .rule .expression]
  | .patternText =>
    rawUpTo [.rule .rawParen, .rule .rawBracket, .rule .rawBrace, stringLiteral, charLiteral]
      (alts (word "=>") [newline, word "\x7d"])
  | .forHead => rawUpTo [.rule .rawParen, .rule .rawBracket, stringLiteral] (.alt (word "\x7b") newline)
  | .lambdaParams => .rule .rawParen
  | .returnType => rawUpTo [.rule .rawParen, .rule .rawBracket] (.alt (word "\x7b") newline)
  | .parenExpr => seqs (word "(") [newlines, .rule .expression, newlines, word ")"]
  | .tupleExpr => listed "(" (.rule .expression) ")"
  | .arrayExpr => listed "[" (.rule .expression) "]"
  | .recordExpr => listed "\x7b" (.rule .recordField) "\x7d"
  | .recordField =>
    alts (seqs (.alt (.rule .literal) (.rule .identifier)) [word ":", newlines, .rule .expression])
      [.seq (word "..") (.rule .expression), .rule .identifier]
  | .callArgs => listed "(" (.rule .argument) ")"
  | .argument =>
    alts (seqs (.rule .identifier) [.rule .labelEq, newlines, .rule .expression])
      [.seq (.rule .identifier) (.rule .punned), .rule .expression]
  | .labelEq => seqs (.opt (words "~" ["?"])) [word "=", .never (words "=" [">"])]
  | .punned => .seq (words "~" ["?"]) (.never (word "="))
  | .indexAccess =>
    seqs (word "[")
      [newlines, .opt (.rule .expression), .opt (.seq (word ":") (.opt (.rule .expression))), newlines, word "]"]
  | .fieldAccess => .seq (.rule .dot) (.alt (.rule .identifier) (.rule .literal))
  | .dot =>
    .alt (.seq (word "..") (.never (words "<" ["=", "."]))) (.seq (word ".") (.never (word ".")))
  | .recordSuffix => .seq (word "::") (.rule .recordExpr)
  | .tryOp => .seq (words "!!" ["!", "?"]) (.never (word "="))
  | .infixOp =>
    alts (word "|>")
      [word "||", word "&&", word "==", word "!=", word "<=", word ">=", word "..<", word "..=", word "<<",
        word ">>", .seq (word "+") (.never (word "=")), .seq (word "-") (.never (words "=" [">"])),
        .seq (word "*") (.never (word "=")), .seq (word "/") (.never (words "/" ["="])),
        .seq (word "%") (.never (word "=")), word "&", word "|", word "^",
        .seq (word "<") (.never (alts (.one .letter) [word "_", word "/", word ">", word "!"])), word ">"]
  | .prefixOp => .alt (.seq (word "-") (.never (words ">" ["="]))) (.seq (word "!") (.never (word "=")))
  | .assignOp => seqs (.opt (words "+" ["-", "*", "/", "%"])) [word "=", .never (words "=" [">"])]
  -- words
  | .literal => alts multilineString [stringLiteral, charLiteral, number, truthValue]
  | .identifier => .seq (.never reserved) identWord
  | .qualifiedName =>
    .alt
      (seqs (word "@")
        [identWord, .many (.seq (word "/") identWord), word ".", identWord, .many (.seq (word "::") identWord)])
      (.seq identWord (.many1 (.seq (word "::") identWord)))
  | .kw k => .seq (word k.spelling) wordEnd
  -- markup
  | .element =>
    .alt (.rule .selfClosingTag)
      (seqs (.rule .openingTag) [.many (.rule .elementContent), .opt (.rule .closingTag)])
  | .selfClosingTag =>
    seqs (word "<") [.opt (.rule .tagName), .many (.seq newlines (.rule .attribute)), newlines, word "/>"]
  | .openingTag =>
    seqs (word "<") [.opt (.rule .tagName), .many (.seq newlines (.rule .attribute)), newlines, word ">"]
  | .closingTag => seqs (word "</") [.opt (.rule .tagName), word ">"]
  | .tagName =>
    .seq (.alt (.one .letter) (word "_")) (.many (alts (.one .alphanumeric) [word "_", word "-", word ".", word ":"]))
  | .elementContent => alts (.rule .markupComment) [.rule .element, .rule .interpolation, .rule .text]
  | .markupComment => seqs (word "<!--") [.many (charBut (word "-->")), word "-->"]
  | .text => .many1 (charBut (words "<" ["\x7b", "\x7d"]))
  | .interpolation => seqs (word "\x7b") [newlines, .opt (.rule .expression), newlines, word "\x7d"]
  | .attribute =>
    .seq (.rule .attributeName)
      (.opt (.seq (word "=") (.opt (.alt (.rule .attributeValue) (.rule .interpolation)))))
  | .attributeName =>
    .seq (alts (.one .letter) [word "_", word "@", word ":"])
      (.many (alts (.one .alphanumeric) [word "_", word "-", word ":", word "."]))
  | .attributeValue =>
    .alt (seqs (word "\"") [.rule .attributeContent, word "\""])
      (seqs (word "'") [.rule .attributeContentSingle, word "'"])
  | .attributeContent => .many (.alt (.seq (word "\\") (.one .any)) (charBut (word "\"")))
  | .attributeContentSingle => .many (.alt (.seq (word "\\") (.one .any)) (charBut (word "'")))

end Rule

/-- The parts of an expression. -/
def Expr.size {R : Type} : Expr R → Nat
  | .word _ | .one _ | .first | .last | .rule _ => 1
  | .seq p q | .alt p q => p.size + q.size + 1
  | .opt p | .many p | .more p | .ahead p | .never p => p.size + 1

/-- The grammar of documents: blanks, and line comments among them, are layout. -/
def document : Grammar Rule where
  style := Rule.style
  body := Rule.body
  layout := .seq (.many blank) (.many (.seq (.rule .comment) (.many blank)))

/-- How deep an evaluation can go before it takes a character: once through every part of the grammar. -/
def depthPerCharacter : Nat :=
  Rule.all.foldl (fun n r => n + (document.body r).size + 1) (document.layout.size + 1)

/-- Evaluates the document grammar on a text, with room for every evaluation that takes characters. -/
def parseDocument (t : Text) : Outcome Rule :=
  run document (depthPerCharacter * (t.length + 1)) (.rule .program) .spaced .here ⟨0, t⟩ {}

/-- Names in a row: with `or` before the last, and commas from three on. -/
def enumerate : List String → String
  | [] => ""
  | [a] => a
  | [a, b] => a ++ " or " ++ b
  | a :: b :: c :: more =>
    ", ".intercalate ((a :: b :: c :: more).dropLast) ++ ", or " ++ (a :: b :: c :: more).getLastD ""

/-- The names of the rules that occur in a list. -/
def describeAll (rs : List Rule) : String := enumerate ((Rule.all.filter (rs.contains ·)).map Rule.describe)

/-- Why the grammar refused a text. -/
def Attempts.explain (a : Attempts Rule) : String :=
  match a.unwanted, a.wanted with
  | [], [] => "unknown parsing error"
  | [], wanted => "expected " ++ describeAll wanted
  | unwanted, [] => "unexpected " ++ describeAll unwanted
  | unwanted, wanted => "unexpected " ++ describeAll unwanted ++ "; expected " ++ describeAll wanted

end InlineMarkup.Grammar
