import InlineMarkup.Proofs.Located
import Mathlib.Data.List.Induction
/-!
# Proofs.Positions — two ways to a line and a column

Both ways to a position go through a text character by character: a line feed begins a line, and every other character
moves one column on (`Position.step`).  Looking for a line feed behind a carriage return makes no difference, since the
line feed sets back the column that the carriage return moved (`Position.walk_eq_foldl`).  So the position in the message
on a refused document is its location (`parse_error_position`).
-/
namespace InlineMarkup

open Text (bytes)

namespace Position

/-- The position behind one more character. -/
def step (p : Position) (x : Char) : Position := if x = '\n' then ⟨p.line + 1, 1⟩ else ⟨p.line, p.column + 1⟩

theorem step_feed (p : Position) : p.step '\n' = ⟨p.line + 1, 1⟩ := rfl

theorem step_of_ne {x : Char} (h : x ≠ '\n') (p : Position) : p.step x = ⟨p.line, p.column + 1⟩ := if_neg h

theorem step_return_feed (p : Position) : (p.step '\r').step '\n' = ⟨p.line + 1, 1⟩ := rfl

/-- **A walk takes the characters one by one.** -/
theorem walk_eq_foldl (t : Text) (p : Position) : walk t p = t.foldl step p := by
  fun_induction walk t p with
  | case1 p cs ih => rw [ih, List.foldl_cons, List.foldl_cons, step_return_feed]
  | case2 p cs ih => rw [ih, List.foldl_cons, step_feed]
  | case3 p x cs _ hfeed ih => rw [ih, List.foldl_cons, step_of_ne hfeed]
  | case4 p => rfl

end Position

theorem Text.lastLine_concat (t : Text) (x : Char) :
    lastLine (t ++ [x]) = if x = '\n' then [] else lastLine t ++ [x] := by
  unfold lastLine
  rw [List.reverse_append, List.reverse_singleton, List.singleton_append, List.takeWhile_cons]
  by_cases hx : x = '\n'
  · simp [hx]
  · simp [hx]

namespace Position

theorem ofBefore_concat (t : Text) (x : Char) : ofBefore (t ++ [x]) = (ofBefore t).step x := by
  unfold ofBefore
  rw [Text.lastLine_concat]
  by_cases hx : x = '\n'
  · simp [hx, step_feed]
  · simp [hx, step_of_ne hx]

/-- **Counting in the text before a place takes its characters one by one too.** -/
theorem ofBefore_eq_foldl (t : Text) : ofBefore t = t.foldl step ⟨1, 1⟩ := by
  induction t using List.reverseRecOn with
  | nil => rfl
  | append_singleton t x ih => rw [ofBefore_concat, ih, List.foldl_append, List.foldl_cons, List.foldl_nil]

theorem walk_eq_ofBefore (t : Text) : walk t ⟨1, 1⟩ = ofBefore t := by
  rw [walk_eq_foldl, ofBefore_eq_foldl]

end Position

/-- **The message on a refused document names its location.**  The document is refused at a place in it; the line and the
column that a walk over the text before this place finds stand in the message, and they are the location. -/
theorem parse_error_position {doc : Document} {d : Diagnostic} (h : doc.parse = .error d) :
    ∃ before rest why, doc.text = before ++ rest ∧ d.span = some ⟨bytes before, bytes before⟩ ∧
      d.message = why ++ " at " ++ (Position.walk before ⟨1, 1⟩).display ∧
      d.location = some (Position.walk before ⟨1, 1⟩) := by
  obtain ⟨a, rfl, before, rest, hcut, hplace⟩ := parse_refused h
  have hbefore : Text.upTo doc.text a.furthest = before := by rw [hcut, ← hplace, Text.upTo_append]
  refine ⟨before, rest, a.explain, hcut, ?_, ?_, ?_⟩
  · rw [hplace]
    rfl
  · rw [← hbefore]
    rfl
  · rw [Position.walk_eq_ofBefore, ← hbefore]
    rfl

/-- A stray brace behind both kinds of line end and a character of two bytes. -/
def strayBrace : Document := ⟨"a.mbx", "<a>é\r\n\ré\x7d".toList⟩

/-- The message on it. -/
def strayMessage : String :=
  "expected end of input, COMMENT, call arguments, index_access, dot, record_suffix, try_op, an operator, assign_op, " ++
    "a markup element, a closing tag, markup_comment, text, or an interpolation at 2:3"

theorem parse_error_position_stray : ∃ d, strayBrace.parse = .error d ∧ d.message = strayMessage ∧
    d.location = some ⟨2, 3⟩ ∧
    ∃ before rest why, strayBrace.text = before ++ rest ∧ d.span = some ⟨bytes before, bytes before⟩ ∧
      d.message = why ++ " at " ++ (Position.walk before ⟨1, 1⟩).display ∧
      d.location = some (Position.walk before ⟨1, 1⟩) := by
  have hfail : (match strayBrace.parse with
    | .ok _ => none
    | .error d => some (d.message, d.location)) = some (strayMessage, some ⟨2, 3⟩) := by decide +kernel
  cases hd : strayBrace.parse with
  | ok c =>
    rw [hd] at hfail
    cases hfail
  | error d =>
    rw [hd] at hfail
    obtain ⟨hmessage, hlocation⟩ := Prod.mk.inj (Option.some.inj hfail)
    exact ⟨d, rfl, hmessage, hlocation, parse_error_position hd⟩

end InlineMarkup
