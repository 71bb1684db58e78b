/-!
# Grammar.Rule — the rules of the document grammar

The rules that leave a node, together with those that only tie the grammar's recursion.  `Rule.all` lists them in the
order in which an explanation of a refused input names them.
-/
namespace InlineMarkup.Grammar

/-- The reserved words that have a node of their own. -/
inductive Keyword where
  | «if» | «else» | «match» | «for» | «while» | fn | «let» | «mut» | «return» | raise | «break» | «continue»
  | guard | loop | «try» | «catch» | noraise
  deriving DecidableEq, Repr

namespace Keyword

/-- The word itself. -/
def spelling : Keyword → String
  | .if => "if" | .else => "else" | .match => "match" | .for => "for" | .while => "while" | .fn => "fn"
  | .let => "let" | .mut => "mut" | .return => "return" | .raise => "raise" | .break => "break"
  | .continue => "continue" | .guard => "guard" | .loop => "loop" | .try => "try" | .catch => "catch"
  | .noraise => "noraise"

def all : List Keyword :=
  [.if, .else, .match, .for, .while, .fn, .let, .mut, .return, .raise, .break, .continue, .guard, .loop, .try,
    .catch, .noraise]

end Keyword

/-- A rule of the document grammar. -/
inductive Rule where
  | endOfInput | comment
  | program | decl | declKeyword | declHead | block | stmt
  | letStmt | guardStmt | guardHead | jumpStmt | exprStmt | pattern | typeExpr | rawStmt | rawItem
  | rawPiece | rawBrace | rawParen | rawBracket
  | expression | unary | postfixed | postfixOp | primary
  | ifExpr | matchExpr | matchArms | matchArm | forExpr | whileExpr | loopExpr | tryExpr | tryMark
  | lambda | matchLambda | arrowFn | patternText | forHead | lambdaParams | returnType
  | parenExpr | tupleExpr | arrayExpr | recordExpr | recordField
  | callArgs | argument | labelEq | punned | indexAccess | fieldAccess | dot | recordSuffix | tryOp
  | infixOp | prefixOp | assignOp
  | literal | identifier | qualifiedName | kw (k : Keyword)
  | element | selfClosingTag | openingTag | closingTag | tagName | elementContent | markupComment | text
  | interpolation | attribute | attributeName | attributeValue | attributeContent | attributeContentSingle
  deriving DecidableEq, Repr

namespace Rule

/-- Every rule, in the order of explanations. -/
def all : List Rule :=
  [.endOfInput, .comment, .program, .decl, .declKeyword, .declHead, .block, .stmt, .letStmt, .guardStmt, .guardHead,
    .jumpStmt, .exprStmt, .pattern, .typeExpr, .rawStmt, .rawItem, .rawPiece, .rawBrace, .rawParen, .rawBracket,
    .expression, .unary, .postfixed, .postfixOp, .primary, .ifExpr, .matchExpr, .matchArms, .matchArm, .forExpr,
    .whileExpr, .loopExpr, .tryExpr, .tryMark, .lambda, .matchLambda, .arrowFn, .patternText, .forHead, .lambdaParams,
    .returnType, .parenExpr, .tupleExpr, .arrayExpr, .recordExpr, .recordField, .callArgs, .argument, .labelEq,
    .punned, .indexAccess, .fieldAccess, .dot, .recordSuffix, .tryOp, .infixOp, .prefixOp, .assignOp, .literal,
    .identifier, .qualifiedName] ++ Keyword.all.map .kw ++
  [.element, .selfClosingTag, .openingTag, .closingTag, .tagName, .elementContent, .markupComment, .text,
    .interpolation, .attribute, .attributeName, .attributeValue, .attributeContent, .attributeContentSingle]

/-- What an explanation calls a rule. -/
def describe : Rule → String
  | .endOfInput => "end of input"
  | .comment => "COMMENT"
  | .program | .decl | .letStmt | .exprStmt | .jumpStmt => "a statement"
  | .rawItem | .rawStmt => "a declaration"
  | .block => "a block"
  | .expression | .unary | .postfixed => "an expression"
  | .identifier | .qualifiedName => "an identifier"
  | .literal => "a literal"
  | .element => "a markup element"
  | .openingTag | .selfClosingTag => "a tag"
  | .closingTag => "a closing tag"
  | .tagName => "a tag name"
  | .attribute | .attributeName => "an attribute"
  | .attributeValue => "a quoted attribute value"
  | .interpolation => "an interpolation"
  | .text => "text"
  | .infixOp => "an operator"
  | .callArgs => "call arguments"
  | .declKeyword => "decl_keyword"
  | .declHead => "decl_head"
  | .stmt => "stmt"
  | .guardStmt => "guard_stmt"
  | .guardHead => "guard_head"
  | .pattern => "pattern"
  | .typeExpr => "type_expr"
  | .rawPiece => "raw_piece"
  | .rawBrace => "raw_brace"
  | .rawParen => "raw_paren"
  | .rawBracket => "raw_bracket"
  | .postfixOp => "postfix_op"
  | .primary => "primary"
  | .ifExpr => "if_expr"
  | .matchExpr => "match_expr"
  | .matchArms => "match_arms"
  | .matchArm => "match_arm"
  | .forExpr => "for_expr"
  | .whileExpr => "while_expr"
  | .loopExpr => "loop_expr"
  | .tryExpr => "try_expr"
  | .tryMark => "try_mark"
  | .lambda => "lambda"
  | .matchLambda => "match_lambda"
  | .arrowFn => "arrow_fn"
  | .patternText => "pattern_text"
  | .forHead => "for_head"
  | .lambdaParams => "lambda_params"
  | .returnType => "return_type"
  | .parenExpr => "paren_expr"
  | .tupleExpr => "tuple_expr"
  | .arrayExpr => "array_expr"
  | .recordExpr => "record_expr"
  | .recordField => "record_field"
  | .argument => "argument"
  | .labelEq => "label_eq"
  | .punned => "punned"
  | .indexAccess => "index_access"
  | .fieldAccess => "field_access"
  | .dot => "dot"
  | .recordSuffix => "record_suffix"
  | .tryOp => "try_op"
  | .prefixOp => "prefix_op"
  | .assignOp => "assign_op"
  | .kw k => "kw_" ++ k.spelling
  | .elementContent => "element_content"
  | .markupComment => "markup_comment"
  | .attributeContent => "attribute_content"
  | .attributeContentSingle => "attribute_content_single"

end Rule
end InlineMarkup.Grammar
