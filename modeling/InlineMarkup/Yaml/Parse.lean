import InlineMarkup.Yaml.Scalar
/-!
# Yaml.Parse — from text to events

Block mappings and sequences are told by their columns, flow ones by their brackets.  Scalars are plain or in quotes.
-/
namespace InlineMarkup.Yaml

/-- Where reading stands, and the events so far, backwards. -/
structure Progress where
  place : Place
  events : List (Event × Mark) := []
  deriving Repr

/-- A step of reading; the events before a fault are kept. -/
abbrev Reader := EStateM Fault Progress

namespace Reader

def emit (e : Event) (m : Mark) : Reader Unit := modify fun p => { p with events := (e, m) :: p.events }

def place : Reader Place := do return (← get).place

def goTo (p : Place) : Reader Unit := modify fun s => { s with place := p }

def fail {α : Type} (problem : String) (m : Mark) (context : Option (String × Mark)) : Reader α :=
  throw ⟨problem, m, context⟩

/-- Goes on to the next token. -/
def next : Reader Place := do
  let p ← place
  let p' := skipBlanks false p.rest p.mark
  goTo p'
  return p'

/-- Past one character. -/
def advance : Reader Unit := do
  let p ← place
  match p.rest with
  | c :: cs => goTo ⟨p.mark.char c, cs⟩
  | [] => pure ()

/-- The mark of a token: the end of the stream counts as the beginning of a line. -/
def tokenMark (p : Place) : Mark := if p.rest.isEmpty then p.mark.streamEnd else p.mark

/-- No token of the document follows. -/
def atEnd (p : Place) : Bool := p.rest.isEmpty || atDocumentMark p.mark p.rest

/-- A character that no token begins with. -/
def badStart {α : Type} (p : Place) : Reader α :=
  fail "found character that cannot start any token" p.mark (some ("while scanning for the next token", p.mark))

/-- Whether a plain scalar can begin here. -/
def plainStart (flow : Bool) : Text → Bool
  | [] => false
  | c :: cs =>
    if c == '-' then !atBlank cs
    else if c == '?' || c == ':' then !flow && !atBlank cs
    else !(isSpace c || isBreak c || isFlowMark c || c == '#' || c == '&' || c == '*' || c == '!' || c == '|' ||
      c == '>' || c == '\'' || c == '"' || c == '%' || c == '@' || c == '`')

/-- The scalar at the current place, with whether it is plain. -/
def scalar (flow : Bool) (indent : Nat) : Reader (Text × Bool) := do
  let p ← place
  match p.rest with
  | [] => badStart p
  | c :: cs =>
    if c == '\'' || c == '"' then
      match scanQuoted p.mark c (2 * cs.length + 2) cs (p.mark.char c) [] .line with
      | .ok (t, p') => do
        goTo p'
        return (t, false)
      | .error f => throw f
    else if plainStart flow p.rest then do
      let (t, p') := scanPlain flow indent p.rest p.mark [] p [] 0
      goTo p'
      match p'.rest with
      | ':' :: x :: _ =>
        if flow && (isFlowMark x || x == '?') then
          fail "found unexpected ':'" p'.mark (some ("while scanning a plain scalar", p.mark))
        else return (t, true)
      | _ => return (t, true)
    else badStart p

/-- Whether the scalar just read, which began at a mark, is a key; then goes past the colon. -/
def isKey (flow : Bool) (start : Mark) : Reader Bool := do
  let p ← place
  let p' := if flow then skipBlanks false p.rest p.mark else skipSpaces p.rest p.mark
  match p'.rest with
  | ':' :: cs =>
    if (flow || atBlank cs) && p'.mark.line == start.line then do
      goTo ⟨p'.mark.char ':', cs⟩
      return true
    else return false
  | _ => return false

mutual

/-- A node in brackets, or a scalar among them. -/
def flowNode : Nat → Reader Unit
  | 0 => do badStart (← place)
  | n + 1 => do
    let p ← place
    match p.rest with
    | '{' :: _ => do
      emit .mapStart p.mark
      advance
      flowPairs p.mark true n
    | '[' :: _ => do
      emit .listStart p.mark
      advance
      flowItems p.mark true n
    | _ => do
      let (t, plain) ← scalar true 0
      emit (.scalar t plain) p.mark

/-- The pairs of a flow mapping that began at a mark, up to its bracket. -/
def flowPairs (start : Mark) (isFirst : Bool) : Nat → Reader Unit
  | 0 => do badStart (← place)
  | n + 1 => do
    let p ← next
    match p.rest with
    | '}' :: _ => do
      advance
      emit .mapEnd p.mark
    | _ => do
      if !isFirst then
        match p.rest with
        | ',' :: _ => advance
        | _ => fail "did not find expected ',' or '\x7d'" (tokenMark p) (some ("while parsing a flow mapping", start))
      let p ← next
      match p.rest with
      | '}' :: _ => do
        advance
        emit .mapEnd p.mark
      | _ => do
        if p.rest.isEmpty then
          fail "did not find expected node content" (tokenMark p) (some ("while parsing a flow node", tokenMark p))
        flowNode n
        let q ← next
        match q.rest with
        | ':' :: _ => do
          advance
          let v ← next
          match v.rest with
          | ',' :: _ | '}' :: _ => emit (.scalar [] true) v.mark
          | _ => flowNode n
        | _ => emit (.scalar [] true) (tokenMark q)
        flowPairs start false n

/-- The items of a flow sequence that began at a mark, up to its bracket. -/
def flowItems (start : Mark) (isFirst : Bool) : Nat → Reader Unit
  | 0 => do badStart (← place)
  | n + 1 => do
    let p ← next
    match p.rest with
    | ']' :: _ => do
      advance
      emit .listEnd p.mark
    | _ => do
      if !isFirst then
        match p.rest with
        | ',' :: _ => advance
        | _ => fail "did not find expected ',' or ']'" (tokenMark p) (some ("while parsing a flow sequence", start))
      let p ← next
      match p.rest with
      | ']' :: _ => do
        advance
        emit .listEnd p.mark
      | _ => do
        if p.rest.isEmpty then
          fail "did not find expected node content" (tokenMark p) (some ("while parsing a flow node", tokenMark p))
        flowNode n
        flowItems start false n

end

mutual

/-- A node at the current place, whose lines are indented by at least `indent`; `keys` tells whether a mapping may begin
here. -/
def blockNode (indent : Nat) (keys : Bool) : Nat → Reader Unit
  | 0 => do badStart (← place)
  | n + 1 => do
    let p ← place
    match p.rest with
    | '{' :: _ | '[' :: _ => flowNode n
    | '-' :: cs =>
      if atBlank cs then do
        emit .listStart p.mark
        blockItems p.mark.column n
      else scalarOrMap indent keys n
    | _ => scalarOrMap indent keys n
termination_by structural n => n

/-- A scalar, or the mapping that it is the first key of. -/
def scalarOrMap (indent : Nat) (keys : Bool) : Nat → Reader Unit
  | 0 => do badStart (← place)
  | n + 1 => do
    let p ← place
    let (t, plain) ← scalar false indent
    let q ← place
    if ← isKey false p.mark then
      if keys then do
        emit .mapStart p.mark
        emit (.scalar t plain) p.mark
        blockValue p.mark p.mark.column n
      else do
        let c := skipSpaces q.rest q.mark
        fail "mapping values are not allowed in this context" c.mark none
    else emit (.scalar t plain) p.mark
termination_by structural n => n

/-- The value after a key and its colon, then the rest of the mapping that began at a mark with keys at a column. -/
def blockValue (start : Mark) (column : Nat) : Nat → Reader Unit
  | 0 => do badStart (← place)
  | n + 1 => do
    let colon ← place
    let p ← next
    let sameLine := p.mark.line == colon.mark.line
    let item := match p.rest with
      | '-' :: cs => atBlank cs && p.mark.column == column
      | _ => false
    if atEnd p || (!sameLine && p.mark.column ≤ column && !item) then
      emit (.scalar [] true) colon.mark
    else if item && !sameLine then do
      emit .listStart p.mark
      blockItems column n
    else blockNode (column + 1) (!sameLine) n
    blockPairs start column n
termination_by structural n => n

/-- Further pairs of a mapping that began at a mark with keys at a column. -/
def blockPairs (start : Mark) (column : Nat) : Nat → Reader Unit
  | 0 => do badStart (← place)
  | n + 1 => do
    let p ← next
    if atEnd p || p.mark.column < column then emit .mapEnd (tokenMark p)
    else if p.mark.column > column then
      fail "did not find expected key" p.mark (some ("while parsing a block mapping", start))
    else match p.rest with
      | '-' :: cs =>
        if atBlank cs then fail "did not find expected key" p.mark (some ("while parsing a block mapping", start))
        else blockKey start column n
      | '{' :: _ | '}' :: _ | '[' :: _ | ']' :: _ | ',' :: _ =>
        fail "did not find expected key" p.mark (some ("while parsing a block mapping", start))
      | _ => blockKey start column n
termination_by structural n => n

/-- A further key of a mapping, and what follows it. -/
def blockKey (start : Mark) (column : Nat) : Nat → Reader Unit
  | 0 => do badStart (← place)
  | n + 1 => do
    let p ← place
    let (t, plain) ← scalar false column
    if ← isKey false p.mark then do
      emit (.scalar t plain) p.mark
      blockValue start column n
    else do
      let q ← next
      fail "could not find expected ':'" (tokenMark q) (some ("while scanning a simple key", p.mark))
termination_by structural n => n

/-- The items of a sequence whose dashes stand at a column. -/
def blockItems (column : Nat) : Nat → Reader Unit
  | 0 => do badStart (← place)
  | n + 1 => do
    let p ← next
    match p.rest with
    | '-' :: cs =>
      if atBlank cs && p.mark.column == column && !atEnd p then do
        advance
        let dash ← place
        let q ← next
        if atEnd q || q.mark.column ≤ column then emit (.scalar [] true) dash.mark
        else blockNode (column + 1) true n
        blockItems column n
      else emit .listEnd (tokenMark p)
    | _ => emit .listEnd (tokenMark p)
termination_by structural n => n

end

/-- The first document, if there is one. -/
def document (fuel : Nat) : Reader Unit := do
  let p ← next
  if p.rest.isEmpty then pure ()
  else match p.mark.column, p.rest with
    | 0, '-' :: '-' :: '-' :: cs =>
      if atBlank cs then do
        let m := p.mark
        goTo ⟨((m.char '-').char '-').char '-', cs⟩
        let q ← next
        if atEnd q then emit (.scalar [] true) (tokenMark q) else blockNode 0 (q.mark.line != m.line) fuel
      else blockNode 0 true fuel
    | _, _ => blockNode 0 true fuel

/-- Whether anything follows the first document. -/
def moreFollows (p : Place) : Bool :=
  let q := skipBlanks false p.rest p.mark
  match q.mark.column, q.rest with
  | _, [] => false
  | 0, '.' :: '.' :: '.' :: cs => !(skipBlanks false cs q.mark).rest.isEmpty
  | _, _ => true

end Reader

/-- Reads the first document of a stream. -/
def Stream.read (t : Text) : Stream :=
  let t := match t with
    | '\ufeff' :: cs => cs
    | _ => t
  match Reader.document (4 * t.length + 8) ⟨⟨{}, t⟩, []⟩ with
  | .ok _ s => { events := s.events.reverse, more := Reader.moreFollows s.place }
  | .error f s => { events := s.events.reverse, fault := some f }

end InlineMarkup.Yaml
