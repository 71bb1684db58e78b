import InlineMarkup.Yaml.Event
/-!
# Yaml.Scalar — blanks, plain and quoted scalars

Scalars may run over several lines; a single line end inside them counts as a space, and of several one is dropped.
-/
namespace InlineMarkup.Yaml

/-- A place with what follows it. -/
structure Place where
  mark : Mark
  rest : Text
  deriving DecidableEq, Repr

def isBreak (c : Char) : Bool := c == '\n' || c == '\r' || c == '\x85' || c == '\u2028' || c == '\u2029'

def isSpace (c : Char) : Bool := c == ' ' || c == '\t'

/-- A blank, a line end or the end of the stream is next. -/
def atBlank : Text → Bool
  | [] => true
  | c :: _ => isSpace c || isBreak c

/-- The characters that structure flow collections. -/
def isFlowMark (c : Char) : Bool := c == ',' || c == '[' || c == ']' || c == '{' || c == '}'

/-- Past blanks, line ends and comments. -/
def skipBlanks (inComment : Bool) : Text → Mark → Place
  | [], m => ⟨m, []⟩
  | '\r' :: '\n' :: cs, m => skipBlanks false cs (m.newline 2)
  | c :: cs, m =>
    if isBreak c then skipBlanks false cs (m.newline c.utf8Size)
    else if inComment || isSpace c then skipBlanks inComment cs (m.char c)
    else if c == '#' then skipBlanks true cs (m.char c)
    else ⟨m, c :: cs⟩

/-- Past blanks on the same line. -/
def skipSpaces : Text → Mark → Place
  | c :: cs, m => if isSpace c then skipSpaces cs (m.char c) else ⟨m, c :: cs⟩
  | [], m => ⟨m, []⟩

/-- A line begins with one of the words that separate documents. -/
def atDocumentMark (m : Mark) (t : Text) : Bool :=
  m.column == 0 &&
    match t with
    | '-' :: '-' :: '-' :: r | '.' :: '.' :: '.' :: r => atBlank r
    | _ => false

/-- What the blanks between two parts of a scalar count as: the spaces themselves on one line, or else the line ends
without one, or a space for a single one. -/
def fold (spaces : Text) : Nat → Text
  | 0 => spaces
  | 1 => [' ']
  | n + 1 => List.replicate n '\n'

/-- A plain scalar from a place on: `seen` is its text so far, backwards, with the place behind it, `spaces` and `breaks`
the blanks since then.  In block style it ends before a line that is indented less than `indent`. -/
def scanPlain (flow : Bool) (indent : Nat) : Text → Mark → Text → Place → Text → Nat → Text × Place
  | [], _, seen, stop, _, _ => (seen.reverse, stop)
  | '\r' :: '\n' :: cs, m, seen, stop, _, breaks => scanPlain flow indent cs (m.newline 2) seen stop [] (breaks + 1)
  | c :: cs, m, seen, stop, spaces, breaks =>
    if isBreak c then scanPlain flow indent cs (m.newline c.utf8Size) seen stop [] (breaks + 1)
    else if isSpace c then scanPlain flow indent cs (m.char c) seen stop (spaces ++ [c]) breaks
    else if (c == '#' && (breaks > 0 || !spaces.isEmpty)) || (!flow && m.column < indent && breaks > 0) ||
        atDocumentMark m (c :: cs) || (c == ':' && atBlank cs) || (flow && isFlowMark c) then
      (seen.reverse, stop)
    else
      let seen' := c :: ((fold spaces breaks).reverse ++ seen)
      scanPlain flow indent cs (m.char c) seen' ⟨m.char c, cs⟩ [] 0

/-- The character that a backslash and a letter stand for. -/
def escaped? : Char → Option Char
  | '0' => some '\x00' | 'a' => some '\x07' | 'b' => some '\x08' | 't' => some '\t' | '\t' => some '\t'
  | 'n' => some '\n' | 'v' => some '\x0b' | 'f' => some '\x0c' | 'r' => some '\r' | 'e' => some '\x1b'
  | ' ' => some ' ' | '"' => some '"' | '/' => some '/' | '\\' => some '\\' | 'N' => some '\x85'
  | '_' => some '\xa0' | 'L' => some '\u2028' | 'P' => some '\u2029' | _ => none

/-- How many digits follow a letter that announces a code point. -/
def escapeWidth? : Char → Option Nat
  | 'x' => some 2 | 'u' => some 4 | 'U' => some 8 | _ => none

def hexValue? (c : Char) : Option Nat :=
  if '0' ≤ c && c ≤ '9' then some (c.toNat - '0'.toNat)
  else if 'a' ≤ c && c ≤ 'f' then some (c.toNat - 'a'.toNat + 10)
  else if 'A' ≤ c && c ≤ 'F' then some (c.toNat - 'A'.toNat + 10)
  else none

/-- The number that digits of a base stand for; nothing if there are none, or others. -/
def numeral? (base : Nat) : Text → Option Nat
  | [] => none
  | t => t.foldl (fun acc c => do
      let n ← acc
      let d ← hexValue? c
      if d < base then some (n * base + d) else none) (some 0)

/-- The blanks in a quoted scalar that end a line are dropped. -/
def dropSpaces (seen : Text) : Text := seen.dropWhile isSpace

/-- What a scan of a quoted scalar is in. -/
inductive Quoting where
  /-- In a line. -/
  | line
  /-- Between lines, after so many line ends; the first may be escaped. -/
  | between (breaks : Nat) (joined : Bool)
  deriving DecidableEq, Repr

/-- The text of the line ends between two lines of a quoted scalar. -/
def foldQuoted (breaks : Nat) (joined : Bool) : Text := if joined then List.replicate (breaks - 1) '\n' else fold [] breaks

/-- A quoted scalar after its first quote; `seen` is its text so far, backwards.  The number bounds the steps. -/
def scanQuoted (start : Mark) (quote : Char) : Nat → Text → Mark → Text → Quoting → Except Fault (Text × Place)
  | 0, _, m, _, _ => .error ⟨"found unexpected end of stream", m.streamEnd, some ("while scanning a quoted scalar", start)⟩
  | _ + 1, [], m, _, _ =>
    .error ⟨"found unexpected end of stream", m.streamEnd, some ("while scanning a quoted scalar", start)⟩
  | n + 1, c :: cs, m, seen, .between breaks joined =>
    match c, cs with
    | '\r', '\n' :: cs' => scanQuoted start quote n cs' (m.newline 2) seen (.between (breaks + 1) joined)
    | _, _ =>
      if isBreak c then scanQuoted start quote n cs (m.newline c.utf8Size) seen (.between (breaks + 1) joined)
      else if isSpace c then scanQuoted start quote n cs (m.char c) seen (.between breaks joined)
      else if atDocumentMark m (c :: cs) then
        .error ⟨"found unexpected document indicator", m, some ("while scanning a quoted scalar", start)⟩
      else scanQuoted start quote n (c :: cs) m ((foldQuoted breaks joined).reverse ++ seen) .line
  | n + 1, c :: cs, m, seen, .line =>
    match c, cs with
    | '\r', '\n' :: cs' => scanQuoted start quote n cs' (m.newline 2) (dropSpaces seen) (.between 1 false)
    | _, _ =>
      if isBreak c then scanQuoted start quote n cs (m.newline c.utf8Size) (dropSpaces seen) (.between 1 false)
      else if c == quote then
        match quote, cs with
        | '\'', '\'' :: cs' => scanQuoted start quote n cs' ((m.char c).char c) ('\'' :: seen) .line
        | _, _ => .ok (seen.reverse, ⟨m.char c, cs⟩)
      else if c == '\\' && quote == '"' then
        match cs with
        | [] => scanQuoted start quote n [] (m.char c) seen .line
        | '\r' :: '\n' :: cs' => scanQuoted start quote n cs' ((m.char c).newline 2) seen (.between 1 true)
        | e :: cs' =>
          if isBreak e then scanQuoted start quote n cs' ((m.char c).newline e.utf8Size) seen (.between 1 true)
          else match escaped? e, escapeWidth? e with
            | some x, _ => scanQuoted start quote n cs' ((m.char c).char e) (x :: seen) .line
            | none, some width =>
              match numeral? 16 (cs'.take width) with
              | some code =>
                if (cs'.take width).length = width && code.isValidChar then
                  scanQuoted start quote n (cs'.drop width) ⟨m.offset + 2 + width, m.line, m.column + 2 + width⟩
                    (Char.ofNat code :: seen) .line
                else .error ⟨"found invalid Unicode character escape code", m, some ("while parsing a quoted scalar", start)⟩
              | none =>
                .error ⟨"did not find expected hexdecimal number", m, some ("while parsing a quoted scalar", start)⟩
            | none, none =>
              .error ⟨"found unknown escape character", m, some ("while parsing a quoted scalar", start)⟩
      else scanQuoted start quote n cs (m.char c) (c :: seen) .line

end InlineMarkup.Yaml
