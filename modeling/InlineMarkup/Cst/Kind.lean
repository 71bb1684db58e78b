import InlineMarkup.Grammar.Rule
/-!
# Cst.Kind — the kinds of nodes

The closed vocabulary of the concrete tree, and which grammar rule makes a node of which kind.
-/
namespace InlineMarkup

/-- The kind of a node. -/
inductive Kind where
  | program | comment
  | declaration | head | block | letStatement | guardStatement | jumpStatement | exprStatement | rawCode | pattern
  | typeExpr | parameters
  | expression | unary | postfixed | parenExpr | tupleExpr | arrayExpr | recordExpr | recordField | recordSuffix
  | identifier | qualifiedName | literal | callArgs | argument | fieldAccess | indexAccess | ifExpr | matchExpr
  | matchArm | forExpr | whileExpr | loopExpr | tryExpr | lambda | matchLambda | arrowFn
  | element | elementOpening | elementSelfClosing | elementClosing | tagName | attribute | attributeName
  | attributeValue | attributeContent | interpolation | text | markupComment
  | token | keyword | operator
  deriving DecidableEq, Repr

namespace Kind

/-- The name of a kind as it is printed. -/
def name : Kind → String
  | .program => "Program"
  | .comment => "Comment"
  | .declaration => "Declaration"
  | .head => "Head"
  | .block => "Block"
  | .letStatement => "LetStatement"
  | .guardStatement => "GuardStatement"
  | .jumpStatement => "JumpStatement"
  | .exprStatement => "ExprStatement"
  | .rawCode => "Opaque"
  | .pattern => "Pattern"
  | .typeExpr => "TypeAnnotation"
  | .parameters => "Parameters"
  | .expression => "Expression"
  | .unary => "Unary"
  | .postfixed => "Postfix"
  | .parenExpr => "ParenExpr"
  | .tupleExpr => "TupleExpr"
  | .arrayExpr => "ArrayExpr"
  | .recordExpr => "RecordExpr"
  | .recordField => "RecordField"
  | .recordSuffix => "RecordSuffix"
  | .identifier => "Identifier"
  | .qualifiedName => "QualifiedName"
  | .literal => "Literal"
  | .callArgs => "CallArgs"
  | .argument => "Argument"
  | .fieldAccess => "FieldAccess"
  | .indexAccess => "IndexAccess"
  | .ifExpr => "IfExpr"
  | .matchExpr => "MatchExpr"
  | .matchArm => "MatchArm"
  | .forExpr => "ForExpr"
  | .whileExpr => "WhileExpr"
  | .loopExpr => "LoopExpr"
  | .tryExpr => "TryExpr"
  | .lambda => "Lambda"
  | .matchLambda => "MatchLambda"
  | .arrowFn => "ArrowFn"
  | .element => "Element"
  | .elementOpening => "ElementOpening"
  | .elementSelfClosing => "ElementSelfClosing"
  | .elementClosing => "ElementClosing"
  | .tagName => "TagName"
  | .attribute => "Attribute"
  | .attributeName => "AttributeName"
  | .attributeValue => "AttributeValue"
  | .attributeContent => "AttributeContent"
  | .interpolation => "Interpolation"
  | .text => "Text"
  | .markupComment => "MarkupComment"
  | .token => "Token"
  | .keyword => "Keyword"
  | .operator => "Operator"

/-- Kinds whose text is a single piece: their nodes have no children. -/
def isLeaf : Kind → Bool
  | .comment | .head | .rawCode | .pattern | .typeExpr | .parameters | .identifier | .qualifiedName | .literal
  | .tagName | .attributeName | .attributeContent | .text | .markupComment | .token | .keyword | .operator => true
  | _ => false

/-- Kinds for which white space at the end is content and not layout. -/
def keepsTrailingBlanks : Kind → Bool
  | .program | .comment | .literal | .text | .attributeContent | .markupComment => true
  | _ => false

/-- Host code that is copied as it stands, so that markup in it could not be lowered. -/
def isVerbatim : Kind → Bool
  | .rawCode | .head | .pattern | .typeExpr | .parameters => true
  | _ => false

def isMarkup : Kind → Bool
  | .element => true
  | _ => false

open Grammar (Rule) in
/-- The kind of the node that a rule makes; a rule without one makes no node. -/
def ofRule? : Rule → Option Kind
  | .program => some .program
  | .comment => some .comment
  | .decl => some .declaration
  | .declHead | .forHead | .guardHead => some .head
  | .block => some .block
  | .letStmt => some .letStatement
  | .guardStmt => some .guardStatement
  | .jumpStmt => some .jumpStatement
  | .exprStmt => some .exprStatement
  | .rawStmt | .rawItem => some .rawCode
  | .pattern | .patternText => some .pattern
  | .typeExpr | .returnType => some .typeExpr
  | .lambdaParams => some .parameters
  | .expression => some .expression
  | .unary => some .unary
  | .postfixed => some .postfixed
  | .parenExpr => some .parenExpr
  | .tupleExpr => some .tupleExpr
  | .arrayExpr => some .arrayExpr
  | .recordExpr => some .recordExpr
  | .recordField => some .recordField
  | .recordSuffix => some .recordSuffix
  | .identifier => some .identifier
  | .qualifiedName => some .qualifiedName
  | .literal => some .literal
  | .callArgs => some .callArgs
  | .argument => some .argument
  | .fieldAccess => some .fieldAccess
  | .indexAccess => some .indexAccess
  | .ifExpr => some .ifExpr
  | .matchExpr => some .matchExpr
  | .matchArm => some .matchArm
  | .forExpr => some .forExpr
  | .whileExpr => some .whileExpr
  | .loopExpr => some .loopExpr
  | .tryExpr => some .tryExpr
  | .lambda => some .lambda
  | .matchLambda => some .matchLambda
  | .arrowFn => some .arrowFn
  | .element => some .element
  | .openingTag => some .elementOpening
  | .selfClosingTag => some .elementSelfClosing
  | .closingTag => some .elementClosing
  | .tagName => some .tagName
  | .attribute => some .attribute
  | .attributeName => some .attributeName
  | .attributeValue => some .attributeValue
  | .attributeContent | .attributeContentSingle => some .attributeContent
  | .interpolation => some .interpolation
  | .text => some .text
  | .markupComment => some .markupComment
  | .kw _ => some .keyword
  | .infixOp | .prefixOp | .assignOp | .tryOp | .tryMark | .labelEq | .punned | .dot => some .operator
  | _ => none

end Kind
end InlineMarkup
