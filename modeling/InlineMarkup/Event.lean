import InlineMarkup.Cst.Kind
import InlineMarkup.Diagnostic
/-!
# Event — the log of a run

What a run notes on its way, whether it succeeds or fails, and computations that keep such a log.
-/
namespace InlineMarkup

/-- Something noted in the log. -/
inductive Event where
  /-- A document was parsed into so many nodes. -/
  | parsed (name : String) (nodes : Nat)
  /-- An attribute was lowered. -/
  | loweredAttribute (attr : Text)
  /-- An element was lowered, with so many attributes and children. -/
  | loweredElement (tag : Text) (attrs children : Nat)
  /-- An argument ended in a line comment. -/
  | endsInComment (span : Span)
  /-- Markup was found where it cannot be lowered. -/
  | verbatimMarkup (kind : Kind) (span : Span)
  /-- An attribute has braces without an expression. -/
  | emptyValue (attr : Text) (span : Span)
  /-- An attribute has an equals sign without a value. -/
  | missingValue (attr : Text) (span : Span)
  /-- A document with so many elements was lowered. -/
  | translated (name : String) (elements : Nat)
  deriving DecidableEq, Repr

/-- How important an event is. -/
inductive Level where
  | trace | debug | warn
  deriving DecidableEq, Repr

def Level.name : Level → String
  | .trace => "TRACE"
  | .debug => "DEBUG"
  | .warn => "WARN"

namespace Event

def level : Event → Level
  | .parsed .. | .loweredAttribute .. | .loweredElement .. | .endsInComment .. => .trace
  | .verbatimMarkup .. | .translated .. => .debug
  | .emptyValue .. | .missingValue .. => .warn

def message : Event → String
  | .parsed .. => "parsed document"
  | .loweredAttribute .. => "lowered attribute"
  | .loweredElement .. => "lowered element"
  | .endsInComment .. => "expression ends in a line comment"
  | .verbatimMarkup .. => "markup in verbatim host code"
  | .emptyValue .. => "empty attribute value, using \"\""
  | .missingValue .. => "attribute has `=` but no value, using \"\""
  | .translated .. => "translated document"

/-- The value of a field: words or a number. -/
inductive Field where
  | words (s : String)
  | number (n : Nat)
  deriving DecidableEq, Repr

/-- What an event says beside its message. -/
def fields : Event → List (String × Field)
  | .parsed name nodes => [("name", .words name), ("nodes", .number nodes)]
  | .loweredAttribute a => [("attribute", .words (String.ofList a))]
  | .loweredElement tag as cs =>
    [("tag", .words (String.ofList tag)), ("attributes", .number as), ("children", .number cs)]
  | .endsInComment s => [("span", .words s.display)]
  | .verbatimMarkup k s => [("kind", .words k.name), ("span", .words s.display)]
  | .emptyValue a s | .missingValue a s => [("attribute", .words (String.ofList a)), ("span", .words s.display)]
  | .translated name n => [("name", .words name), ("elements", .number n)]

end Event

/-- A computation with a log: what it noted, and its result or the reason for none. -/
structure Logged (ε α : Type) where
  events : List Event
  result : Except ε α
  deriving Repr

namespace Logged

variable {ε ε' α β : Type}

/-- Notes one event. -/
def note (e : Event) : Logged ε Unit := ⟨[e], .ok ()⟩

def fail (e : ε) : Logged ε α := ⟨[], .error e⟩

/-- Goes on with the result; after a failure nothing more is noted. -/
protected def bind (x : Logged ε α) (f : α → Logged ε β) : Logged ε β :=
  match x.result with
  | .ok a => ⟨x.events ++ (f a).events, (f a).result⟩
  | .error e => ⟨x.events, .error e⟩

instance : Monad (Logged ε) where
  pure a := ⟨[], .ok a⟩
  bind := Logged.bind

/-- Gives the reason of a failure in other terms. -/
def mapError (f : ε → ε') (x : Logged ε α) : Logged ε' α := ⟨x.events, x.result.mapError f⟩

/-- Does the same with each item, up to the first failure. -/
def each (f : α → Logged ε β) : List α → Logged ε (List β)
  | [] => ⟨[], .ok []⟩
  | a :: as => (f a).bind fun b => (each f as).bind fun bs => ⟨[], .ok (b :: bs)⟩

end Logged
end InlineMarkup
