import InlineMarkup.Text.Position
/-!
# Diagnostic — what is reported when something fails

A diagnostic has a kind, a message, and, as far as they are known, the document and the span it is about, advice, further
labelled spans and the cause behind it.
-/
namespace InlineMarkup

/-- A named text. -/
structure Document where
  name : String
  text : Text
  deriving DecidableEq, Repr

/-- What went wrong, broadly. -/
inductive FaultKind where
  | parse | unmatchedElement | malformedElement | nestingLimit | unsupportedForm | io | config | internal
  deriving DecidableEq, Repr

namespace FaultKind

/-- The kind in the form of a code. -/
def code : FaultKind → String
  | .parse => "parse"
  | .unmatchedElement => "unmatched_element"
  | .malformedElement => "malformed_element"
  | .nestingLimit => "nesting_limit"
  | .unsupportedForm => "unsupported_syntax"
  | .io => "io"
  | .config => "config"
  | .internal => "internal"

/-- The kind in words, as it stands before a message. -/
def title : FaultKind → String
  | .parse => "Parse error"
  | .unmatchedElement => "Unmatched element"
  | .malformedElement => "Malformed element"
  | .nestingLimit => "Nesting limit exceeded"
  | .unsupportedForm => "Unsupported syntax"
  | .io => "I/O error"
  | .config => "Configuration error"
  | .internal => "Internal error"

end FaultKind

/-- A span with words for it. -/
structure Label where
  span : Span
  text : String
  deriving DecidableEq, Repr

/-- A report of a failure. -/
structure Diagnostic where
  kind : FaultKind
  message : String
  document : Option Document := none
  span : Option Span := none
  help : Option String := none
  related : List Label := []
  cause : Option String := none
  deriving DecidableEq, Repr

namespace Diagnostic

/-- The position of the span's start, when there are a span and a document. -/
def location (d : Diagnostic) : Option Position :=
  match d.span, d.document with
  | some s, some doc => some (Position.ofOffset doc.text s.start)
  | _, _ => none

/-- What is marked in the document: the span under the message, then the related spans.  An empty span is marked by one
byte. -/
def labels (d : Diagnostic) : List (String × Nat × Nat) :=
  match d.document with
  | none => []
  | some _ =>
    (d.span.toList.map fun s => (d.message, s.start, max s.length 1)) ++
      d.related.map fun l => (l.text, l.span.start, max l.span.length 1)

/-- The kind and the message. -/
def display (d : Diagnostic) : String := d.kind.title ++ ": " ++ d.message

/-- The diagnostic with the file and the position that it is about. -/
def displayFor (d : Diagnostic) (path : String) : String :=
  match d.location with
  | some p => path ++ ":" ++ p.display ++ ": " ++ d.display
  | none => path ++ ": " ++ d.display

/-- The code under which the kind is reported. -/
def code (d : Diagnostic) : String := "mbx::" ++ d.kind.code

end Diagnostic
end InlineMarkup
