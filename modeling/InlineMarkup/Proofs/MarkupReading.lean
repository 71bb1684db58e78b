import InlineMarkup.Proofs.NameReading
/-!
# Proofs.MarkupReading — written markup is read back

The grammar reads `m.print` as one element, whatever follows (`reads_element`), and a document that consists of it as one
statement (`reads_document`).  The trees that this leaves are given by recursion on the markup (`Markup.tree`).
-/
namespace InlineMarkup

open Text (bytes)

/-! ## The trees of written markup -/

namespace Markup

/-- An identifier as an expression. -/
def nameTree (off : Nat) (x : Text) : Tree :=
  let s : Span := ⟨off, off + bytes x⟩
  .node .expression s [.node .unary s [.node .postfixed s [leaf .identifier off x]]]

def bracesTree (off : Nat) : Tree := .node .interpolation ⟨off, off + bytes ['\x7b'] + bytes ['\x7d']⟩ []

def inBracesTree (off : Nat) (x : Text) : Tree :=
  .node .interpolation ⟨off, off + bytes ['\x7b'] + bytes x + bytes ['\x7d']⟩ [nameTree (off + bytes ['\x7b']) x]

/-- The tree of a value behind the equals sign. -/
def Value.trees (off : Nat) : Value → List Tree
  | .bare | .missing => []
  | .braces => [bracesTree off]
  | .quoted t =>
    [.node .attributeValue ⟨off, off + bytes ['"'] + bytes t.1 + bytes ['"']⟩
      [leaf .attributeContent (off + bytes ['"']) t.1]]
  | .name x => [inBracesTree off x.1]

/-- Nothing stands behind the name or behind the equals sign. -/
def Value.isOpen : Value → Bool
  | .bare | .missing => true
  | .braces | .quoted _ | .name _ => false

/-- Where attributes begin: behind the space, if there are any. -/
def attributesStart (off : Nat) : List Attribute → Nat
  | [] => off
  | _ :: _ => off + bytes [' ']

/-- Where an attribute ends: a value that may still follow is looked for behind the space. -/
def Attribute.stop (a : Attribute) (off : Nat) (as : List Attribute) : Nat :=
  if a.value.isOpen then attributesStart (off + bytes a.print) as else off + bytes a.print

def Attribute.tree (a : Attribute) (off : Nat) (as : List Attribute) : Tree :=
  .node .attribute ⟨off, a.stop off as⟩
    (leaf .attributeName off a.name.1 :: a.value.trees (off + bytes a.name.1 + bytes ['=']))

def attributeTrees : Nat → List Attribute → List Tree
  | _, [] => []
  | off, a :: as => a.tree (off + bytes [' ']) as :: attributeTrees (off + bytes [' '] + bytes a.print) as

/-- A tag that opens an element or is all of it, with the text at its end. -/
def tagTree (k : Kind) (off : Nat) (tag : TagName) (as : List Attribute) (close : Text) : Tree :=
  .node k ⟨off, off + bytes ['<'] + bytes tag.1 + bytes (printAttributes as) + bytes close⟩
    (leaf .tagName (off + bytes ['<']) tag.1 :: attributeTrees (off + bytes ['<'] + bytes tag.1) as)

def closingTree (off : Nat) (tag : TagName) : Tree :=
  .node .elementClosing ⟨off, off + bytes ['<', '/'] + bytes tag.1 + bytes ['>']⟩
    [leaf .tagName (off + bytes ['<', '/']) tag.1]

def runTrees (off : Nat) : Option TextRun → List Tree
  | none => []
  | some run => [leaf .text off run.1]

end Markup

mutual

def Markup.tree (off : Nat) : Markup → Tree
  | .single tag as =>
    .node .element ⟨off, off + bytes (Markup.single tag as).print⟩ [tagTree .elementSelfClosing off tag as ['/', '>']]
  | .pair tag as content =>
    let inside := off + bytes ['<'] + bytes tag.1 + bytes (printAttributes as) + bytes ['>']
    .node .element ⟨off, off + bytes (Markup.pair tag as content).print⟩
      (tagTree .elementOpening off tag as ['>'] ::
        (content.trees inside ++ [closingTree (inside + bytes content.print) tag]))

def Markup.Content.trees (off : Nat) : Markup.Content → List Tree
  | .last run => runTrees off run
  | .more run item rest =>
    runTrees off run ++
      (item.tree (off + bytes (printRun run)) :: rest.trees (off + bytes (printRun run) + bytes item.print))

def Markup.Item.tree (off : Nat) : Markup.Item → Tree
  | .name x => inBracesTree off x.1
  | .braces => bracesTree off
  | .comment t => leaf .markupComment off (['<', '!', '-', '-'] ++ t.1 ++ ['-', '-', '>'])
  | .element m => m.tree off

end

/-! ## What cannot stand where -/

namespace Grammar

open Markup

/-- Before a tag. -/
def tagBarrier : Barrier where
  chars := .only '<'
  rules := [.decl, .declKeyword, .letStmt, .kw .let, .prefixOp, .interpolation]
  closed := by decide +kernel

/-- Before a closing brace. -/
def braceBarrier : Barrier where
  chars := .only '\x7d'
  rules :=
    [.expression, .unary, .prefixOp, .postfixed, .primary, .element, .selfClosingTag, .openingTag, .literal, .ifExpr,
      .matchExpr, .forExpr, .whileExpr, .loopExpr, .tryExpr, .lambda, .matchLambda, .arrowFn, .lambdaParams, .rawParen,
      .parenExpr, .tupleExpr, .arrayExpr, .recordExpr, .block, .qualifiedName, .identifier, .kw .if, .kw .match,
      .kw .for, .kw .while, .kw .loop, .kw .try, .kw .fn, .postfixOp, .callArgs, .indexAccess, .recordSuffix,
      .fieldAccess, .dot, .tryOp, .infixOp]
  closed := by decide +kernel

/-- Before an attribute, or before the end of a tag. -/
def attributeBarrier : Barrier where
  chars := .ofPred fun c => isAttributeStart c || c == '/' || c == '>'
  rules := [.attributeValue, .interpolation]
  closed := by decide +kernel

/-- Before the slash or the bracket at the end of a tag. -/
def tagEndBarrier : Barrier where
  chars := ⟨fun c => c == '/' || c == '>', (· == .any)⟩
  rules := [.tagName, .attribute, .attributeName]
  closed := by decide +kernel

theorem tagEnd_has {x : Char} (hx : x = '/' ∨ x = '>') : tagEndBarrier.chars.Has x := by
  constructor
  · rcases hx with rfl | rfl <;> rfl
  · intro s hs
    cases s with
    | any => rfl
    | _ => rcases hx with rfl | rfl <;> exact absurd hs (by decide)

/-! ## A name in braces -/

theorem brace_end {rest : Text} : NameEnd ('\x7d' :: rest) := .of_char (by decide) (by decide)

theorem at_brace {e : Expr Rule} (he : braceBarrier.refuses e = true) {l : Layout} {k : Look} {off : Nat} {rest : Text} :
    Eval document e l k ⟨off, '\x7d' :: rest⟩ none :=
  braceBarrier.fails he (CharClass.only_has _) (.of_char (by decide)) l k

theorem settled_brace {off : Nat} {rest : Text} : Settled ⟨off, '\x7d' :: rest⟩ := .of_char (by decide)

section Name

variable (x : Identifier) {l : Layout} {off : Nat} {rest : Text}

theorem reads_name : Reads (.rule .expression) .spaced ⟨off, x.1 ++ '\x7d' :: rest⟩ ⟨off + bytes x.1, '\x7d' :: rest⟩
    [nameTree off x.1] := by
  have hpostfixed : Reads (.rule .postfixed) .spaced ⟨off, x.1 ++ '\x7d' :: rest⟩ ⟨off + bytes x.1, '\x7d' :: rest⟩
      [.node .postfixed ⟨off, off + bytes x.1⟩ [leaf .identifier off x.1]] :=
    .rule (by decide) (by decide)
      ((reads_primary x brace_end).seq (.settled settled_brace) (.many_none (at_brace (by decide))))
  have hunary : Reads (.rule .unary) .spaced ⟨off, x.1 ++ '\x7d' :: rest⟩ ⟨off + bytes x.1, '\x7d' :: rest⟩
      [.node .unary ⟨off, off + bytes x.1⟩ [.node .postfixed ⟨off, off + bytes x.1⟩ [leaf .identifier off x.1]]] :=
    .rule (by decide) (by decide)
      ((Reads.many_none (at_word (Identifier.word x) (by decide))).seq (.settled (settled_word (Identifier.word x)))
        hpostfixed)
  exact .rule (by decide) (by decide) (hunary.seq (.settled settled_brace) (.many_none (at_brace (by decide +kernel))))

theorem reads_inBraces : Reads (.rule .interpolation) l ⟨off, ['\x7b'] ++ x.1 ++ ['\x7d'] ++ rest⟩
    ⟨off + bytes ['\x7b'] + bytes x.1 + bytes ['\x7d'], rest⟩ [inBracesTree off x.1] := by
  simp only [List.append_assoc]
  refine .rule (by decide) nofun ?_
  refine (Reads.word ['\x7b'] _ _ _).seq (.settled (settled_word (Identifier.word x))) ?_
  refine (Reads.many_none (at_word (Identifier.word x) (by decide))).seq (.settled (settled_word (Identifier.word x))) ?_
  refine (reads_name x).opt.seq (.settled settled_brace) ?_
  exact (Reads.many_none (at_brace (by decide))).seq (.settled settled_brace) (.word ['\x7d'] _ _ _)

end Name

theorem reads_braces {l : Layout} {off : Nat} {rest : Text} :
    Reads (.rule .interpolation) l ⟨off, ['\x7b'] ++ ['\x7d'] ++ rest⟩ ⟨off + bytes ['\x7b'] + bytes ['\x7d'], rest⟩
      [bracesTree off] := by
  refine .rule (by decide) nofun ?_
  refine (Reads.word ['\x7b'] _ _ _).seq (.settled settled_brace) ?_
  refine (Reads.many_none (at_brace (by decide))).seq (.settled settled_brace) ?_
  refine (Reads.opt_none (at_brace (by decide))).seq (.settled settled_brace) ?_
  exact (Reads.many_none (at_brace (by decide))).seq (.settled settled_brace) (.word ['\x7d'] _ _ _)

/-! ## Attributes -/

/-- The end of a tag that opens an element or is all of it. -/
inductive TagEnd : Text → Prop where
  | bracket (rest : Text) : TagEnd ('>' :: rest)
  | slash (rest : Text) : TagEnd ('/' :: '>' :: rest)

namespace TagEnd

variable {close : Text} {off : Nat}

theorem settled (h : TagEnd close) : Settled ⟨off, close⟩ := by
  cases h with
  | bracket rest => exact .of_char (by decide)
  | slash rest => exact .of_slash (by decide)

theorem fails (h : TagEnd close) {e : Expr Rule} (he : tagEndBarrier.refuses e = true) {l : Layout} {k : Look} :
    Eval document e l k ⟨off, close⟩ none := by
  cases h with
  | bracket rest => exact tagEndBarrier.fails he (tagEnd_has (.inr rfl)) (settled (.bracket rest)) l k
  | slash rest => exact tagEndBarrier.fails he (tagEnd_has (.inl rfl)) (settled (.slash rest)) l k

end TagEnd

/-- Where the attributes begin, behind the space, or else the end of the tag. -/
def attributesFrom (off : Nat) (as : List Attribute) (close : Text) : Cursor :=
  match as with
  | [] => ⟨off, close⟩
  | a :: as => ⟨off + bytes [' '], a.print ++ (printAttributes as ++ close)⟩

theorem attributesFrom_offset (off : Nat) (as : List Attribute) (close : Text) :
    (attributesFrom off as close).offset = attributesStart off as := by
  cases as <;> rfl

section Attributes

variable {close : Text} {off : Nat}

theorem print_head (a : Attribute) (rest : Text) :
    ∃ x v, a.print ++ rest = x :: v ∧ isAttributeStart x = true := by
  obtain ⟨x, v, hx, hstart⟩ := isWord_head a.name.2
  exact ⟨x, v ++ a.value.print ++ rest, by simp [Attribute.print, hx], hstart⟩

theorem attributesFrom_head (hclose : TagEnd close) (as : List Attribute) (off : Nat) :
    Settled (attributesFrom off as close) ∧
      ∃ x v, (attributesFrom off as close).rest = x :: v ∧ attributeBarrier.chars.Has x := by
  cases as with
  | nil =>
    refine ⟨hclose.settled, ?_⟩
    cases hclose with
    | bracket rest => exact ⟨'>', _, rfl, CharClass.ofPred_has rfl rfl⟩
    | slash rest => exact ⟨'/', _, rfl, CharClass.ofPred_has rfl rfl⟩
  | cons a as =>
    obtain ⟨x, v, hx, hstart⟩ := print_head a (printAttributes as ++ close)
    refine ⟨?_, x, v, hx, CharClass.ofPred_has (by simp [hstart]) (isDigit_of_start hstart)⟩
    rw [attributesFrom, hx]
    exact .of_char (not_layout_of_start hstart)

theorem at_attributes (hclose : TagEnd close) {e : Expr Rule} (he : attributeBarrier.refuses e = true)
    (as : List Attribute) (l : Layout) (k : Look) : Eval document e l k (attributesFrom off as close) none := by
  obtain ⟨hsettled, x, v, hx, hhas⟩ := attributesFrom_head hclose as off
  generalize attributesFrom off as close = c at hsettled hx ⊢
  obtain ⟨o, t⟩ := c
  obtain rfl : t = x :: v := hx
  exact attributeBarrier.fails he hhas hsettled l k

theorem skips_attributes (hclose : TagEnd close) (as : List Attribute) :
    Skips .spaced ⟨off, printAttributes as ++ close⟩ (attributesFrom off as close) := by
  have hsettled := (attributesFrom_head hclose as off).1
  cases as with
  | nil => exact .settled hsettled
  | cons a as =>
    rw [printAttributes, List.append_assoc, List.append_assoc]
    exact .space hsettled

theorem reads_attributeName (a : AttributeName) (off : Nat) {rest : Text}
    (hstop : ∀ c, rest.head? = some c → isAttributeChar c = false) :
    Reads (.rule .attributeName) .spaced ⟨off, a.1 ++ rest⟩ ⟨off + bytes a.1, rest⟩ [leaf .attributeName off a.1] := by
  have hstart : (DocExpr.alts (.one .letter) [.word "_", .word "@", .word ":"]).chars? = some isAttributeStart := by
    refine congrArg some (funext fun c => ?_)
    show (c.isAlpha || (c == '_' || (c == '@' || c == ':'))) = isAttributeStart c
    simp [isAttributeStart, isNameStart, Bool.or_assoc]
  have hchar : (DocExpr.alts (.one .alphanumeric) [.word "_", .word "-", .word ":", .word "."]).chars? =
      some isAttributeChar := by
    refine congrArg some (funext fun c => ?_)
    show (c.isAlphanum || (c == '_' || (c == '-' || (c == ':' || c == '.')))) = isAttributeChar c
    simp [isAttributeChar, isNameChar, Bool.or_assoc]
  exact .rule (by decide) (by decide) (.ofWord (by decide) hstart hchar a.2 hstop off)

theorem reads_quoted (t : QuotedText) (rest : Text) :
    Reads (.rule .attributeValue) .spaced ⟨off, ['"'] ++ t.1 ++ ['"'] ++ rest⟩
      ⟨off + bytes ['"'] + bytes t.1 + bytes ['"'], rest⟩ ((Value.quoted t).trees off) := by
  have hquote : (DocExpr.charBut (.word "\"")).chars? = some fun x => !(x == '"') := rfl
  have hescape : ∀ off x v, x ≠ '\\' →
      Eval document (.seq (.word ['\\']) (.one .any)) .token .here ⟨off, x :: v⟩ none :=
    fun off x v hx => .seqFail (.of_word_none (word?_of_ne (Ne.symm hx)))
  have hcontent : Reads (.rule .attributeContent) .compact ⟨off + bytes ['"'], t.1 ++ (['"'] ++ rest)⟩
      ⟨off + bytes ['"'] + bytes t.1, ['"'] ++ rest⟩ [leaf .attributeContent (off + bytes ['"']) t.1] := by
    refine .rule (by decide) (by decide) (.run (by decide) (fun off => ?_) t.1 _ fun off x v hv => ?_)
    · exact .altRight (hescape off _ _ (by decide)) (.chars_none (by decide) hquote (by rintro _ ⟨⟩; rfl) .here)
    · have hx := t.2 x (hv.mem List.mem_cons_self)
      exact .right (hescape off x _ hx.2) (.char (by decide) hquote (by simp [hx.1]))
  have hskip : ∀ c, Skips .compact c c := fun c => .here (.of_ne (by decide))
  simp only [List.append_assoc]
  refine .rule (by decide) (by decide) (.left ?_)
  exact (Reads.word ['"'] _ _ _).seq (hskip _) (hcontent.seq (hskip _) (.word ['"'] _ _ _))

/-- What follows the value of an attribute continues neither its name nor its value. -/
theorem behind_name (hclose : TagEnd close) (a : Attribute) (as : List Attribute) :
    ∀ c, (a.value.print ++ (printAttributes as ++ close)).head? = some c → isAttributeChar c = false := by
  obtain ⟨name, value⟩ := a
  cases value with
  | bare =>
    cases as with
    | nil => cases hclose <;> rintro _ ⟨⟩ <;> decide
    | cons a as => rintro _ ⟨⟩; decide
  | _ => rintro _ ⟨⟩; decide

/-- Where an attribute ends: a value that is not there is looked for behind the space. -/
def behind (a : Attribute) (off : Nat) (as : List Attribute) (close : Text) : Cursor :=
  if a.value.isOpen then attributesFrom off as close else ⟨off, printAttributes as ++ close⟩

theorem behind_offset (a : Attribute) (as : List Attribute) (close : Text) :
    (behind a (off + bytes a.print) as close).offset = a.stop off as := by
  unfold behind Attribute.stop
  split
  · exact attributesFrom_offset _ as close
  · rfl

theorem reads_attribute (hclose : TagEnd close) (a : Attribute) (as : List Attribute) :
    Reads (.rule .attribute) .spaced ⟨off, a.print ++ (printAttributes as ++ close)⟩
      (behind a (off + bytes a.print) as close) [a.tree off as] := by
  have hname := reads_attributeName a.name off (behind_name hclose a as)
  have heq : ∀ off rest, Reads (.word ['=']) .spaced ⟨off, '=' :: rest⟩ ⟨off + bytes ['='], rest⟩ [] :=
    fun off rest => .word ['='] _ _ _
  have hsettled : ∀ off rest, Settled ⟨off, '=' :: rest⟩ := fun off rest => .of_char (by decide)
  have noQuote : ∀ off rest, Eval document (.rule .attributeValue) .spaced .here ⟨off, '\x7b' :: rest⟩ none :=
    fun off rest => .rule_none (.altRight (.seqFail (.of_word_none (word?_of_ne (by decide))))
      (.seqFail (.of_word_none (word?_of_ne (by decide)))))
  -- the part behind the name
  have hvalue : ∃ c₁, Skips .spaced ⟨off + bytes a.name.1, a.value.print ++ (printAttributes as ++ close)⟩ c₁ ∧
      Reads (.opt (.seq (.word ['=']) (.opt (.alt (.rule .attributeValue) (.rule .interpolation))))) .spaced c₁
        (behind a (off + bytes a.print) as close) (a.value.trees (off + bytes a.name.1 + bytes ['='])) := by
    rw [Attribute.print, Text.bytes_append, ← Nat.add_assoc]
    obtain ⟨name, value⟩ := a
    cases value with
    | bare => exact ⟨_, skips_attributes hclose as, .opt_none (at_attributes hclose (by decide +kernel) as _ _)⟩
    | missing =>
      exact ⟨_, .settled (hsettled _ _), .opt ((heq _ _).seq (skips_attributes hclose as)
        (.opt_none (at_attributes hclose (by decide) as _ _)))⟩
    | braces =>
      refine ⟨_, .settled (hsettled _ _), .opt ((heq _ _).seq (.settled (.of_char (by decide))) (.opt ?_))⟩
      exact .right (noQuote _ _) (reads_braces.to_offset (by simp [Value.print, Nat.add_assoc]))
    | quoted t =>
      refine ⟨_, .settled (hsettled _ _), .opt ((heq _ _).seq (.settled (.of_char (by decide))) (.opt ?_))⟩
      exact .left ((reads_quoted t _).to_offset (by simp [Value.print, Nat.add_assoc]))
    | name x =>
      refine ⟨_, .settled (hsettled _ _), .opt ((heq _ _).seq (.settled (.of_char (by decide))) (.opt ?_))⟩
      exact .right (noQuote _ _) ((reads_inBraces x).to_offset (by simp [Value.print, Nat.add_assoc]))
  obtain ⟨c₁, hskip, hrest⟩ := hvalue
  have := Reads.rule (r := .attribute) (l := .spaced) (by decide) (by decide) (hname.seq hskip hrest)
  rw [Attribute.tree, ← behind_offset a as close]
  rw [← List.append_assoc] at this
  exact this

theorem reads_next (hclose : TagEnd close) (a : Attribute) (as : List Attribute) :
    Reads (.seq DocExpr.newlines (.rule .attribute)) .spaced (attributesFrom off (a :: as) close)
      (behind a (off + bytes [' '] + bytes a.print) as close) [a.tree (off + bytes [' ']) as] := by
  have hsettled := (attributesFrom_head hclose (a :: as) off).1
  exact (Reads.many_none (at_attributes hclose (by decide) _ _ _)).seq (.settled hsettled)
    (reads_attribute hclose a as)

theorem skips_behind (hclose : TagEnd close) (a : Attribute) (off : Nat) (as : List Attribute) :
    Skips .spaced (behind a off as close) (attributesFrom off as close) := by
  unfold behind
  split
  · exact .settled (attributesFrom_head hclose as off).1
  · exact skips_attributes hclose as

theorem attribute_none (hclose : TagEnd close) :
    Eval document (.seq DocExpr.newlines (.rule .attribute)) .spaced .here ⟨off, close⟩ none :=
  hclose.fails (by decide +kernel)

theorem reads_moreAttributes (hclose : TagEnd close) : ∀ (as : List Attribute) (off : Nat) (a : Attribute),
    Reads (.more (.seq DocExpr.newlines (.rule .attribute))) .spaced (behind a off as close)
      ⟨off + bytes (printAttributes as), close⟩ (attributeTrees off as)
  | [], off, a => by
    have hend : behind a off [] close = ⟨off, close⟩ := by cases h : a.value.isOpen <;> simp [behind, h] <;> rfl
    have hskip := skips_behind hclose a off []
    rw [hend] at hskip ⊢
    exact .more_none hskip (attribute_none hclose)
  | a' :: as, off, a => by
    have hrest := reads_moreAttributes hclose as (off + bytes [' '] + bytes a'.print) a'
    refine (Reads.more_some (skips_behind hclose a off (a' :: as)) (reads_next hclose a' as) hrest).to_offset ?_
    simp [printAttributes, Nat.add_assoc]

theorem reads_attributes (hclose : TagEnd close) (as : List Attribute) (off : Nat) :
    Reads (.many (.seq DocExpr.newlines (.rule .attribute))) .spaced (attributesFrom off as close)
      ⟨off + bytes (printAttributes as), close⟩ (attributeTrees off as) := by
  cases as with
  | nil => exact .many_none (attribute_none hclose)
  | cons a as =>
    refine ((reads_next hclose a as).many_some (reads_moreAttributes hclose as _ a)).to_offset ?_
    simp [printAttributes, Nat.add_assoc]

end Attributes

/-! ## Tags -/

section Tags

variable {close : Text} {off : Nat} (tag : TagName) (as : List Attribute)

theorem settled_tag {rest : Text} : Settled ⟨off, tag.1 ++ rest⟩ := by
  obtain ⟨c, v, hx, hc⟩ := isWord_head tag.2
  rw [hx]
  exact .of_char (not_layout_of_start (isAttributeStart_of_isNameStart hc))

theorem reads_tagName (off : Nat) {rest : Text} (hstop : ∀ c, rest.head? = some c → isTagChar c = false) :
    Reads (.rule .tagName) .spaced ⟨off, tag.1 ++ rest⟩ ⟨off + bytes tag.1, rest⟩ [leaf .tagName off tag.1] := by
  have hchar : (DocExpr.alts (.one .alphanumeric) [.word "_", .word "-", .word ".", .word ":"]).chars? =
      some isTagChar := by
    refine congrArg some (funext fun c => ?_)
    show (c.isAlphanum || (c == '_' || (c == '-' || (c == '.' || c == ':')))) = isTagChar c
    simp [isTagChar, isNameChar, Bool.or_assoc]
  exact .rule (by decide) (by decide) (.ofWord (by decide) rfl hchar tag.2 hstop off)

/-- A tag up to its end, and what is evaluated there. -/
theorem tag_then (off : Nat) (hclose : TagEnd close) {q : Expr Rule} {o : Result Rule}
    (hq : Eval document q .spaced .here ⟨off + bytes ['<'] + bytes tag.1 + bytes (printAttributes as), close⟩ o) :
    ∃ ps, Tree.namedAll ps =
        leaf .tagName (off + bytes ['<']) tag.1 :: attributeTrees (off + bytes ['<'] + bytes tag.1) as ∧
      Eval document (DocExpr.seqs (.word "<") [.opt (.rule .tagName), .many (.seq DocExpr.newlines (.rule .attribute)),
          DocExpr.newlines, q]) .spaced .here ⟨off, ['<'] ++ (tag.1 ++ (printAttributes as ++ close))⟩
        (o.map fun m => (m.1, ps ++ m.2)) := by
  have hstop : ∀ c, (printAttributes as ++ close).head? = some c → isTagChar c = false := by
    cases as with
    | nil => cases hclose <;> rintro _ ⟨⟩ <;> decide
    | cons a as => rintro _ ⟨⟩; decide
  obtain ⟨xs, hx, htx⟩ := Reads.word ['<'] .spaced off (tag.1 ++ (printAttributes as ++ close))
  obtain ⟨ys, hy, hty⟩ := (reads_tagName tag (off + bytes ['<']) hstop).opt
  obtain ⟨zs, hz, htz⟩ := reads_attributes hclose as (off + bytes ['<'] + bytes tag.1)
  have hline : Eval document DocExpr.newlines .spaced .here
      ⟨off + bytes ['<'] + bytes tag.1 + bytes (printAttributes as), close⟩ (some (_, [])) :=
    .manyNone (hclose.fails (by decide))
  have hend : Skips .spaced ⟨off + bytes ['<'] + bytes tag.1 + bytes (printAttributes as), close⟩ _ :=
    .settled hclose.settled
  refine ⟨xs ++ (ys ++ zs), by simp [Tree.namedAll_append, htx, hty, htz], ?_⟩
  have := Eval.seq hx (Skips.settled (settled_tag tag)) (.seq hy (skips_attributes hclose as) (.seq hz hend
    (.seq hline hend hq)))
  simp only [Option.map_map, Function.comp_def, List.nil_append] at this
  simp only [List.append_assoc xs, List.append_assoc ys]
  exact this

theorem reads_tag (w rest : Text) (hclose : TagEnd (w ++ rest)) :
    Reads (DocExpr.seqs (.word "<") [.opt (.rule .tagName), .many (.seq DocExpr.newlines (.rule .attribute)),
        DocExpr.newlines, Expr.word w]) .spaced ⟨off, ['<'] ++ (tag.1 ++ (printAttributes as ++ (w ++ rest)))⟩
      ⟨off + bytes ['<'] + bytes tag.1 + bytes (printAttributes as) + bytes w, rest⟩
      (leaf .tagName (off + bytes ['<']) tag.1 :: attributeTrees (off + bytes ['<'] + bytes tag.1) as) := by
  obtain ⟨xs, hx, hnil⟩ := Reads.word w .spaced (off + bytes ['<'] + bytes tag.1 + bytes (printAttributes as)) rest
  obtain ⟨ps, hps, heval⟩ := tag_then tag as off hclose hx
  exact ⟨_, heval, by simp [Tree.namedAll_append, hps, hnil]⟩

theorem reads_selfClosingTag {l : Layout} (off : Nat) (rest : Text) :
    Reads (.rule .selfClosingTag) l ⟨off, ['<'] ++ (tag.1 ++ (printAttributes as ++ (['/', '>'] ++ rest)))⟩
      ⟨off + bytes ['<'] + bytes tag.1 + bytes (printAttributes as) + bytes ['/', '>'], rest⟩
      [tagTree .elementSelfClosing off tag as ['/', '>']] :=
  .rule (by decide) nofun (reads_tag tag as ['/', '>'] rest (.slash rest))

theorem reads_openingTag {l : Layout} (off : Nat) (rest : Text) :
    Eval document (.rule .selfClosingTag) l .here
      ⟨off, ['<'] ++ (tag.1 ++ (printAttributes as ++ (['>'] ++ rest)))⟩ none ∧
    Reads (.rule .openingTag) l ⟨off, ['<'] ++ (tag.1 ++ (printAttributes as ++ (['>'] ++ rest)))⟩
      ⟨off + bytes ['<'] + bytes tag.1 + bytes (printAttributes as) + bytes ['>'], rest⟩
      [tagTree .elementOpening off tag as ['>']] := by
  refine ⟨?_, .rule (by decide) nofun (reads_tag tag as ['>'] rest (.bracket rest))⟩
  obtain ⟨ps, -, heval⟩ := tag_then tag as off (.bracket rest)
    (.of_word_none (w := ['/', '>']) (word?_of_ne (by decide)))
  exact .rule_none heval

theorem reads_closingTag {l : Layout} (off : Nat) (rest : Text) :
    Reads (.rule .closingTag) l ⟨off, ['<', '/'] ++ (tag.1 ++ (['>'] ++ rest))⟩
      ⟨off + bytes ['<', '/'] + bytes tag.1 + bytes ['>'], rest⟩ [closingTree off tag] := by
  have hstop : ∀ c, (['>'] ++ rest).head? = some c → isTagChar c = false := by
    rintro _ ⟨⟩
    decide
  refine .rule (by decide) nofun ?_
  refine (Reads.word ['<', '/'] _ _ _).seq (.settled (settled_tag tag)) ?_
  exact (reads_tagName tag _ hstop).opt.seq (.settled (.of_char (by decide))) (.word ['>'] _ _ _)

/-! ## Content -/

/-- A closing tag is none that opens an element. -/
theorem tag_none_at_closing {w : String} {x : Char} {v : Text} (hx : x ≠ '/')
    (hw : ∀ off, (Cursor.mk off ('/' :: x :: v)).word? w.toList = none) :
    Eval document (DocExpr.seqs (.word "<") [.opt (.rule .tagName), .many (.seq DocExpr.newlines (.rule .attribute)),
      DocExpr.newlines, .word w]) .spaced .here ⟨off, '<' :: '/' :: x :: v⟩ none := by
  have hskip : Skips .spaced ⟨off + bytes ['<'], '/' :: x :: v⟩ _ := .settled (.of_slash hx)
  have hnone : ∀ {e}, tagEndBarrier.refuses e = true →
      Eval document e .spaced .here ⟨off + bytes ['<'], '/' :: x :: v⟩ none :=
    fun he => tagEndBarrier.fails he (tagEnd_has (.inl rfl)) (.of_slash hx) _ _
  refine (Reads.word ['<'] .spaced off ('/' :: x :: v)).seq_none hskip ?_
  refine (Reads.opt_none (hnone (by decide))).seq_none hskip ?_
  refine (Reads.many_none (hnone (by decide +kernel))).seq_none hskip ?_
  exact (Reads.many_none (hnone (by decide))).seq_none hskip (.of_word_none (hw _))

theorem markupComment_none {l : Layout} {x : Char} {v : Text} (hx : x ≠ '!') :
    Eval document (.rule .markupComment) l .here ⟨off, '<' :: x :: v⟩ none :=
  .rule_none (.seqFail (.of_word_none (by simp [Cursor.word?, Text.strip?, Ne.symm hx])))

theorem content_ends (rest : Text) :
    Eval document (.rule .elementContent) .compact .here ⟨off, ['<', '/'] ++ (tag.1 ++ rest)⟩ none := by
  obtain ⟨x, v, hx, hstart⟩ := isWord_head tag.2
  have hslash : x ≠ '/' := by rintro rfl; cases hstart
  have hbracket : x ≠ '>' := by rintro rfl; cases hstart
  rw [hx]
  have hsingle : Eval document (.rule .selfClosingTag) .compact .here ⟨off, '<' :: '/' :: x :: (v ++ rest)⟩ none :=
    .rule_none (tag_none_at_closing hslash fun off => by simp [Cursor.word?, Text.strip?, Ne.symm hbracket])
  have hopening : Eval document (.rule .openingTag) .compact .here ⟨off, '<' :: '/' :: x :: (v ++ rest)⟩ none :=
    .rule_none (tag_none_at_closing hslash fun off => word?_of_ne (by decide))
  have htext : Eval document (.rule .text) .compact .here ⟨off, '<' :: '/' :: x :: (v ++ rest)⟩ none :=
    .rule_none (.seqFail (.chars_none (by decide) rfl (by rintro _ ⟨⟩; rfl) .here))
  refine .rule_none (.altRight (markupComment_none (by decide)) (.altRight ?_ (.altRight ?_ htext)))
  · exact .rule_none (.altRight hsingle (.seqFail hopening))
  · exact .rule_none (.seqFail (.of_word_none (word?_of_ne (by decide))))

end Tags

theorem element_none {l : Layout} {off : Nat} {x : Char} {v : Text} (hx : x ≠ '<') :
    Eval document (.rule .element) l .here ⟨off, x :: v⟩ none := by
  have hword : Eval document (.word ['<']) .spaced .here ⟨off, x :: v⟩ none := .of_word_none (word?_of_ne (Ne.symm hx))
  exact .rule_none (.altRight (.rule_none (.seqFail hword)) (.seqFail (.rule_none (.seqFail hword))))

theorem content_none_of_ne (off : Nat) {x : Char} {v : Text} (hx : x ≠ '<') :
    Eval document (.rule .markupComment) .compact .here ⟨off, x :: v⟩ none ∧
      Eval document (.rule .element) .compact .here ⟨off, x :: v⟩ none :=
  ⟨.rule_none (.seqFail (.of_word_none (word?_of_ne (Ne.symm hx)))), element_none hx⟩

theorem reads_run (run : TextRun) {off : Nat} {rest : Text}
    (hstop : ∀ c, rest.head? = some c → c = '<' ∨ c = '\x7b') :
    Reads (.rule .elementContent) .compact ⟨off, run.1 ++ rest⟩ ⟨off + bytes run.1, rest⟩ [leaf .text off run.1] := by
  obtain ⟨u, hne, hall⟩ := run
  have hset : (DocExpr.charBut (DocExpr.words "<" ["\x7b", "\x7d"])).chars? =
      some fun x => !(x == '<' || (x == '\x7b' || x == '\x7d')) := rfl
  have hfree : ∀ x ∈ u, (!(x == '<' || (x == '\x7b' || x == '\x7d'))) = true := by
    intro x hx
    simp [hall x hx]
  cases u with
  | nil => exact absurd rfl hne
  | cons x v =>
    obtain ⟨hlt, hopen, -⟩ := hall x List.mem_cons_self
    have hword : isWord (fun x => !(x == '<' || (x == '\x7b' || x == '\x7d')))
        (fun x => !(x == '<' || (x == '\x7b' || x == '\x7d'))) (x :: v) = true :=
      Bool.and_eq_true_iff.2 ⟨hfree x List.mem_cons_self,
        List.all_eq_true.2 fun y hy => hfree y (List.mem_cons_of_mem _ hy)⟩
    have hend : ∀ c, rest.head? = some c → (!(c == '<' || (c == '\x7b' || c == '\x7d'))) = false := by
      intro c hc
      rcases hstop c hc with rfl | rfl <;> rfl
    have htext : Reads (.rule .text) .compact ⟨off, x :: v ++ rest⟩ ⟨off + bytes (x :: v), rest⟩
        [leaf .text off (x :: v)] :=
      .rule (by decide) (by decide) (.ofWord (by decide) hset hset hword hend off)
    refine .silent rfl (.right (content_none_of_ne _ hlt).1 (.right (content_none_of_ne _ hlt).2 (.right ?_ htext)))
    exact .rule_none (.seqFail (.of_word_none (word?_of_ne (Ne.symm hopen))))

theorem not_commentEnd {t : Text} (ht : ¬ ['-', '-', '>'] <:+: t) {x : Char} {v rest : Text} (hv : x :: v <:+ t)
    (off : Nat) : (Cursor.mk off (x :: (v ++ (['-', '-', '>'] ++ rest)))).word? ['-', '-', '>'] = none := by
  rw [Cursor.word?, Option.map_eq_none_iff, Option.eq_none_iff_forall_not_mem]
  intro u hu
  have heq := Text.strip?_eq_some hu
  cases v with
  | nil => simp at heq
  | cons y v =>
    cases v with
    | nil => simp at heq
    | cons z w =>
      simp only [List.cons_append, List.nil_append, List.cons.injEq] at heq
      obtain ⟨rfl, rfl, rfl, -⟩ := heq
      exact ht (List.IsInfix.trans ⟨[], w, rfl⟩ hv.isInfix)

theorem reads_comment (t : CommentText) {off : Nat} {rest : Text} :
    Reads (.rule .elementContent) .compact ⟨off, ['<', '!', '-', '-'] ++ t.1 ++ ['-', '-', '>'] ++ rest⟩
      ⟨off + bytes (['<', '!', '-', '-'] ++ t.1 ++ ['-', '-', '>']), rest⟩
      [leaf .markupComment off (['<', '!', '-', '-'] ++ t.1 ++ ['-', '-', '>'])] := by
  have hskip : ∀ c, Skips .token c c := fun c => .here (.of_ne (by decide))
  have hinner : ∀ off, Reads (.many (DocExpr.charBut (.word "-->"))) .token ⟨off, t.1 ++ (['-', '-', '>'] ++ rest)⟩
      ⟨off + bytes t.1, ['-', '-', '>'] ++ rest⟩ [] := by
    intro off
    refine .run (by decide) (fun off => ?_) t.1 off fun off x v hv => ?_
    · exact .seqFail (.neverSome (.of_word ['-', '-', '>'] .token .never off rest))
    · have hone : Reads (.one .any) .token ⟨off, x :: (v ++ (['-', '-', '>'] ++ rest))⟩ ⟨off + x.utf8Size, _⟩ [] :=
        .char (by decide) rfl rfl
      exact (Reads.never (.of_word_none (not_commentEnd t.2 hv off))).seq (hskip _) hone
  have hcomment : Reads (.rule .markupComment) .compact
      ⟨off, ['<', '!', '-', '-'] ++ (t.1 ++ (['-', '-', '>'] ++ rest))⟩
      ⟨off + bytes ['<', '!', '-', '-'] + bytes t.1 + bytes ['-', '-', '>'], rest⟩ _ :=
    .rule (by decide) (by decide)
      ((Reads.word ['<', '!', '-', '-'] _ _ _).seq (hskip _) ((hinner _).seq (hskip _) (.word ['-', '-', '>'] _ _ _)))
  have hbytes : off + bytes ['<', '!', '-', '-'] + bytes t.1 + bytes ['-', '-', '>'] =
      off + bytes (['<', '!', '-', '-'] ++ t.1 ++ ['-', '-', '>']) := by
    simp only [Text.bytes_append, Nat.add_assoc]
  rw [hbytes] at hcomment
  simp only [List.append_assoc] at hcomment ⊢
  exact .silent rfl (.left hcomment)

/-! ## Elements -/

/-- What stands in content begins with a tag or a brace. -/
theorem item_head (i : Item) (rest : Text) :
    ∀ c, (i.print ++ rest).head? = some c → c = '<' ∨ c = '\x7b' := by
  cases i with
  | name x => rintro _ ⟨⟩; exact .inr rfl
  | braces => rintro _ ⟨⟩; exact .inr rfl
  | comment t => rintro _ ⟨⟩; exact .inl rfl
  | element m => cases m <;> rintro _ ⟨⟩ <;> exact .inl rfl

theorem markupComment_none_of_print (m : Markup) {off : Nat} {rest : Text} :
    Eval document (.rule .markupComment) .compact .here ⟨off, m.print ++ rest⟩ none := by
  have htag : ∀ (tag : TagName) (t : Text), Eval document (.rule .markupComment) .compact .here
      ⟨off, '<' :: (tag.1 ++ t)⟩ none := by
    intro tag t
    obtain ⟨x, v, hx, hstart⟩ := isWord_head tag.2
    rw [hx]
    exact markupComment_none (by rintro rfl; cases hstart)
  cases m with
  | single tag as => simp only [print, List.append_assoc]; exact htag tag _
  | pair tag as content => simp only [print, List.append_assoc]; exact htag tag _

theorem reads_runs (run : Option TextRun) {off : Nat} {rest : Text} {c : Cursor} {ts : List Tree}
    (hstop : ∀ c, rest.head? = some c → c = '<' ∨ c = '\x7b')
    (hrest : Reads (.many (.rule .elementContent)) .compact ⟨off + bytes (printRun run), rest⟩ c ts) :
    Reads (.many (.rule .elementContent)) .compact ⟨off, printRun run ++ rest⟩ c (runTrees off run ++ ts) := by
  cases run with
  | none => exact hrest
  | some run => exact (reads_run run hstop).many_cons (by decide) hrest

mutual

/-- **Written markup is read as one element**, whatever follows. -/
theorem reads_element : ∀ (m : Markup) (l : Layout) (off : Nat) (rest : Text),
    Reads (.rule .element) l ⟨off, m.print ++ rest⟩ ⟨off + bytes m.print, rest⟩ [m.tree off]
  | .single tag as, l, off, rest => by
    have htag := reads_selfClosingTag (l := .compact) tag as off rest
    have helement := Reads.rule (r := .element) (l := l) (by decide) nofun (.left htag)
    have htext : (Markup.single tag as).print ++ rest =
        ['<'] ++ (tag.1 ++ (printAttributes as ++ (['/', '>'] ++ rest))) := by
      simp only [print, List.append_assoc]
    have hbytes : off + bytes ['<'] + bytes tag.1 + bytes (printAttributes as) + bytes ['/', '>'] =
        off + bytes (Markup.single tag as).print := by
      simp only [print, Text.bytes_append, Nat.add_assoc]
    rw [hbytes] at helement
    rw [htext]
    exact helement
  | .pair tag as content, l, off, rest => by
    have hskip : ∀ c, Skips .compact c c := fun c => .here (.of_ne (by decide))
    let inside := off + bytes ['<'] + bytes tag.1 + bytes (printAttributes as) + bytes ['>']
    have hopening := reads_openingTag (l := .compact) tag as off
      (content.print ++ (['<', '/'] ++ (tag.1 ++ (['>'] ++ rest))))
    have hcontent := reads_content content tag inside (['>'] ++ rest)
    have hclosing := (reads_closingTag (l := .compact) tag (inside + bytes content.print) rest).opt
    have helement := Reads.rule (r := .element) (l := l) (by decide) nofun
      (.right hopening.1 (hopening.2.seq (hskip _) (hcontent.seq (hskip _) hclosing)))
    have htext : (Markup.pair tag as content).print ++ rest = ['<'] ++ (tag.1 ++ (printAttributes as ++
        (['>'] ++ (content.print ++ (['<', '/'] ++ (tag.1 ++ (['>'] ++ rest))))))) := by
      simp only [print, List.append_assoc]
    have hbytes : inside + bytes content.print + bytes ['<', '/'] + bytes tag.1 + bytes ['>'] =
        off + bytes (Markup.pair tag as content).print := by
      simp only [inside, print, Text.bytes_append, Nat.add_assoc]
    rw [hbytes] at helement
    rw [htext]
    exact helement

theorem reads_content : ∀ (c : Markup.Content) (tag : TagName) (off : Nat) (rest : Text),
    Reads (.many (.rule .elementContent)) .compact ⟨off, c.print ++ (['<', '/'] ++ (tag.1 ++ rest))⟩
      ⟨off + bytes c.print, ['<', '/'] ++ (tag.1 ++ rest)⟩ (c.trees off)
  | .last run, tag, off, rest => by
    have hend : Reads (.many (.rule .elementContent)) .compact
        ⟨off + bytes (printRun run), ['<', '/'] ++ (tag.1 ++ rest)⟩ _ [] := .many_none (content_ends tag rest)
    have := reads_runs run (by rintro _ ⟨⟩; exact .inl rfl) hend
    rw [List.append_nil] at this
    exact this
  | .more run item rest', tag, off, rest => by
    have hitem := reads_item item (off + bytes (printRun run)) (rest'.print ++ (['<', '/'] ++ (tag.1 ++ rest)))
    have hmore := reads_content rest' tag (off + bytes (printRun run) + bytes item.print) rest
    have := reads_runs run (item_head item _) (hitem.many_cons (by decide) hmore)
    simp only [Content.print, List.append_assoc]
    refine this.to_offset ?_
    simp only [Text.bytes_append, Nat.add_assoc]

theorem reads_item : ∀ (i : Item) (off : Nat) (rest : Text),
    Reads (.rule .elementContent) .compact ⟨off, i.print ++ rest⟩ ⟨off + bytes i.print, rest⟩ [i.tree off]
  | .name x, off, rest => by
    have hnone := content_none_of_ne off (x := '\x7b') (v := x.1 ++ ['\x7d'] ++ rest) (by decide)
    have := Reads.silent (r := .elementContent) rfl (.right hnone.1 (.right hnone.2 (.left (reads_inBraces x))))
    refine this.to_offset ?_
    simp only [Item.print, Text.bytes_append, Nat.add_assoc]
  | .braces, off, rest => by
    have hnone := content_none_of_ne off (x := '\x7b') (v := ['\x7d'] ++ rest) (by decide)
    have := Reads.silent (r := .elementContent) rfl (.right hnone.1 (.right hnone.2 (.left reads_braces)))
    refine this.to_offset ?_
    simp only [Item.print, Text.bytes_append, Nat.add_assoc]
  | .comment t, off, rest => reads_comment t
  | .element m, off, rest =>
    .silent rfl (.right (markupComment_none_of_print m) (.left (reads_element m .compact off rest)))

end

/-! ## Documents -/

theorem print_head_tag (m : Markup) : ∃ v, m.print = '<' :: v := by
  cases m with
  | single tag as => exact ⟨_, rfl⟩
  | pair tag as content => exact ⟨_, rfl⟩

theorem settled_print (m : Markup) {off : Nat} : Settled ⟨off, m.print⟩ := by
  obtain ⟨v, hv⟩ := print_head_tag m
  rw [hv]
  exact .of_char (by decide)

theorem at_print (m : Markup) {e : Expr Rule} (he : tagBarrier.refuses e = true) {l : Layout} {k : Look} {off : Nat} :
    Eval document e l k ⟨off, m.print⟩ none := by
  have hsettled : Settled ⟨off, m.print⟩ := settled_print m
  obtain ⟨v, hv⟩ := print_head_tag m
  rw [hv] at hsettled ⊢
  exact tagBarrier.fails he (CharClass.only_has _) hsettled l k

theorem at_end {e : Expr Rule} (he : (e.fits Rule.mayBeEmpty Rule.rank layoutReach depthPerCharacter &&
    !e.mayBeEmpty Rule.mayBeEmpty) = true) {l : Layout} {k : Look} {off : Nat} :
    Eval document e l k ⟨off, []⟩ none := by
  obtain ⟨hfits, hempty⟩ := Bool.and_eq_true_iff.1 he
  rw [Bool.not_eq_true'] at hempty
  exact .none_at_end hfits hempty l k off

/-- An element as a statement of its own. -/
def asStatement (s : Span) (t : Tree) : Tree :=
  .node .exprStatement s [.node .expression s [.node .unary s [.node .postfixed s [t]]]]

def statementTree (m : Markup) : Tree := asStatement ⟨0, bytes m.print⟩ (m.tree 0)

theorem reads_statement (m : Markup) :
    Reads (.rule .exprStmt) .spaced ⟨0, m.print⟩ ⟨bytes m.print, []⟩ [statementTree m] := by
  have hskip : Skips .spaced ⟨bytes m.print, []⟩ _ := .settled (.at_end _)
  have helement := reads_element m .spaced 0 []
  rw [List.append_nil, Nat.zero_add] at helement
  have hpostfixed := Reads.rule (r := .postfixed) (by decide) (by decide)
    ((Reads.silent (r := .primary) rfl (.left helement)).seq hskip (.many_none (at_end (by decide))))
  have hunary := Reads.rule (r := .unary) (by decide) (by decide)
    ((Reads.many_none (at_print m (by decide))).seq (.settled (settled_print m)) hpostfixed)
  have hexpression := Reads.rule (r := .expression) (by decide) (by decide)
    (hunary.seq hskip (.many_none (at_end (by decide +kernel))))
  have hover : Reads DocExpr.statementEnd .spaced ⟨bytes m.print, []⟩ _ [] :=
    .ahead (.altRight (at_end (by decide)) (.altRight (at_end (by decide))
      (.altRight (at_end (by decide)) (.neverNone .one))))
  exact Reads.rule (r := .exprStmt) (by decide) (by decide)
    (hexpression.seq hskip ((Reads.opt_none (at_end (by decide +kernel))).seq hskip hover))

/-- **A document that consists of written markup** is read as one statement. -/
theorem reads_document (m : Markup) :
    Reads (.rule .program) .spaced ⟨0, m.print⟩ ⟨bytes m.print, []⟩
      [.node .program ⟨0, bytes m.print⟩ [statementTree m]] := by
  have hstart : Skips .spaced ⟨0, m.print⟩ _ := .settled (settled_print m)
  have hend : Skips .spaced ⟨bytes m.print, []⟩ _ := .settled (.at_end _)
  have hitem : Reads (DocExpr.alts (.rule .decl) [.rule .letStmt, .rule .exprStmt, .rule .rawItem]) .spaced
      ⟨0, m.print⟩ ⟨bytes m.print, []⟩ [statementTree m] :=
    .right (at_print m (by decide)) (.right (at_print m (by decide)) (.left (reads_statement m)))
  have hitems := (hitem.seq hend ((Reads.many_none (p := .seq DocExpr.separator
    (DocExpr.alts (.rule .decl) [.rule .letStmt, .rule .exprStmt, .rule .rawItem])) (at_end (by decide +kernel))).seq hend
      (.opt_none (p := DocExpr.separator) (at_end (by decide +kernel))))).opt
  have hseparated := (Reads.opt_none (p := DocExpr.separator) (at_print m (by decide +kernel))).seq hstart hitems
  have hlast := Reads.rule (r := .endOfInput) (l := .spaced) (by decide) (by decide) (.last (bytes m.print))
  exact Reads.rule (r := .program) (by decide) (by decide)
    ((Reads.first m.print).seq hstart (hseparated.seq hend hlast))

end Grammar
end InlineMarkup
