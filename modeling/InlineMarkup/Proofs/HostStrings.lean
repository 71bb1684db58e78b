import InlineMarkup.Lowering.Lower
import InlineMarkup.Proofs.Depth
import InlineMarkup.Proofs.Reading
/-!
# Proofs.HostStrings — what the grammar reads between double quotes

A body of pairs that begin with a backslash and of plain characters stands between the quotes of one string
(`eval_stringLiteral`): whatever follows the closing quote is left alone (`ReadAsString`).  Escaping a text gives such a body, and the
escapes can be undone, so the text that lowering writes is read back as it was (`escapeText_reads`).
-/
namespace InlineMarkup

open Grammar Lowering
open Text (bytes)

namespace Grammar

/-! ## Bodies of strings -/

/-- What can stand between double quotes: a backslash takes the next character along, and nothing else is a quote or ends
the line. -/
inductive StringBody : Text → Prop where
  | nil : StringBody []
  | escape (x : Char) {u : Text} : StringBody u → StringBody ('\\' :: x :: u)
  | plain {x : Char} {u : Text} : x ∉ ['\\', '"', '\n', '\r'] → StringBody u → StringBody (x :: u)

theorem StringBody.append {u v : Text} (hu : StringBody u) (hv : StringBody v) : StringBody (u ++ v) := by
  induction hu with
  | nil => exact hv
  | escape x _ ih => exact .escape x ih
  | plain hx _ ih => exact .plain hx ih

variable {l : Layout} {k : Look}

/-- One item of the body of a string: a pair or a plain character. -/
def stringItem : DocExpr :=
  .alt (.seq (DocExpr.word "\\") (.one .any)) (DocExpr.charBut (.alt (DocExpr.word "\"") DocExpr.newline))

theorem escape_none (off : Nat) {x : Char} (hx : x ≠ '\\') (rest : Text) :
    Eval document (.seq (DocExpr.word "\\") (.one .any)) l k ⟨off, x :: rest⟩ none :=
  .seqFail (.of_word_none (word?_of_ne (Ne.symm hx)))

theorem stringItem_escape (hl : l ≠ .spaced) (off : Nat) (x : Char) (rest : Text) :
    Eval document stringItem l k ⟨off, '\\' :: x :: rest⟩ (some (⟨off + bytes ['\\', x], rest⟩, [])) := by
  have hskip : Eval document (document.skip l) .compact k ⟨off + bytes ['\\'], x :: rest⟩ (some (_, [])) :=
    Ready.skip (.of_ne hl) k
  have hpair := Eval.seq (Eval.of_word ['\\'] l k off (x :: rest)) hskip (Eval.one (s := .any))
  simp only [Cursor.one?, CharSet.holds, if_true, Option.map_some, List.append_nil, Nat.add_assoc] at hpair
  exact .altLeft hpair

theorem stringItem_plain (hl : l ≠ .spaced) (off : Nat) {x : Char} (hx : x ∉ ['\\', '"', '\n', '\r']) (rest : Text) :
    Eval document stringItem l k ⟨off, x :: rest⟩ (some (⟨off + bytes [x], rest⟩, [])) := by
  simp only [List.mem_cons, List.not_mem_nil, or_false, not_or] at hx
  obtain ⟨hslash, hquote, hfeed, hreturn⟩ := hx
  have hstop : Eval document (.alt (DocExpr.word "\"") DocExpr.newline) l k.enterNever ⟨off, x :: rest⟩ none :=
    .altRight (.of_word_none (word?_of_ne (Ne.symm hquote)))
      (.altRight (.of_word_none (word?_of_ne (Ne.symm hfeed)))
        (.altRight (.of_word_none (word?_of_ne (Ne.symm hreturn))) (.of_word_none (word?_of_ne (Ne.symm hreturn)))))
  have hskip : Eval document (document.skip l) .compact k ⟨off, x :: rest⟩ (some (_, [])) := Ready.skip (.of_ne hl) k
  exact .altRight (escape_none off hslash rest) (.seq (.neverNone hstop) hskip (.one (s := .any)))

theorem stringItem_quote (off : Nat) (rest : Text) :
    Eval document stringItem l k ⟨off, '"' :: rest⟩ none :=
  .altRight (escape_none off (by decide) rest) (.seqFail (.neverSome (.altLeft (.of_word ['"'] l _ off rest))))

/-- **The items of a body**, up to the quote behind it. -/
theorem StringBody.eval {u : Text} (hu : StringBody u) (hl : l ≠ .spaced) (rest : Text) : ∀ off,
    Eval document (.many stringItem) l k ⟨off, u ++ '"' :: rest⟩ (some (⟨off + bytes u, '"' :: rest⟩, [])) := by
  induction hu with
  | nil => exact fun off => .manyNone (stringItem_quote off rest)
  | escape x _ ih =>
    intro off
    have := (stringItem_escape (k := k) hl off x _).many_cons hl (ih _)
    simpa [Nat.add_assoc] using this
  | plain hx _ ih =>
    intro off
    have := (stringItem_plain (k := k) hl off hx _).many_cons hl (ih _)
    simpa [Nat.add_assoc] using this

/-- **A body in quotes is one string**, whatever follows it. -/
theorem eval_stringLiteral {u : Text} (hu : StringBody u) (hl : l ≠ .spaced) (off : Nat) (rest : Text) :
    Eval document DocExpr.stringLiteral l k ⟨off, Input.inQuotes u ++ rest⟩
      (some (⟨off + bytes (Input.inQuotes u), rest⟩, [])) := by
  have hskip : ∀ c, Eval document (document.skip l) .compact k c (some (c, [])) := fun c => Ready.skip (.of_ne hl) k
  have hopen := Eval.of_word ['"'] l k off (u ++ '"' :: rest)
  have hclose := Eval.of_word ['"'] l k (off + bytes ['"'] + bytes u) rest
  have hstring := Eval.seq hopen (hskip _) (.seq (hu.eval (k := k) hl rest _) (hskip _) hclose)
  rw [show Input.inQuotes u ++ rest = '"' :: (u ++ '"' :: rest) by simp [Input.inQuotes],
    show off + bytes (Input.inQuotes u) = off + bytes ['"'] + bytes u + bytes ['"'] by
      simp [Input.inQuotes, Nat.add_assoc]]
  exact hstring

/-- Wherever the grammar reads strings it reads this text as one, whatever follows. -/
def ReadAsString (w : Text) : Prop :=
  ∀ (rest : Text) (off : Nat) (l : Layout) (k : Look) (a : Attempts Rule) (n : Nat), l ≠ .spaced →
    depthPerCharacter * ((w ++ rest).length + 1) ≤ n →
    (run document n DocExpr.stringLiteral l k ⟨off, w ++ rest⟩ a).result? = some (some (⟨off + bytes w, rest⟩, []))

theorem StringBody.readAsString {u : Text} (hu : StringBody u) : ReadAsString (Input.inQuotes u) := by
  intro rest off l k a n hl hn
  have hroom := room_of_fits (e := DocExpr.stringLiteral) (by decide +kernel) (by decide +kernel) l k
    ⟨off, Input.inQuotes u ++ rest⟩
  exact run_of_eval (eval_stringLiteral hu hl off rest) (hroom.mono hn) a

end Grammar

/-! ## Escaped texts -/

namespace Lowering

/-- Undoes the escapes. -/
def unescape : Text → Text
  | '\\' :: '\\' :: t => '\\' :: unescape t
  | '\\' :: '"' :: t => '"' :: unescape t
  | '\\' :: 'n' :: t => '\n' :: unescape t
  | '\\' :: 't' :: t => '\t' :: unescape t
  | '\\' :: 'r' :: t => '\r' :: unescape t
  | c :: t => c :: unescape t
  | [] => []

theorem escapeChar_cases (c : Char) :
    (∃ x, escapeChar c = ['\\', x] ∧ ∀ t, unescape ('\\' :: x :: t) = c :: unescape t) ∨
      (escapeChar c = [c] ∧ c ∉ ['\\', '"', '\n', '\t', '\r']) := by
  unfold escapeChar
  split
  · exact .inl ⟨'\\', rfl, fun _ => rfl⟩
  · exact .inl ⟨'"', rfl, fun _ => rfl⟩
  · exact .inl ⟨'n', rfl, fun _ => rfl⟩
  · exact .inl ⟨'t', rfl, fun _ => rfl⟩
  · exact .inl ⟨'r', rfl, fun _ => rfl⟩
  · refine .inr ⟨rfl, ?_⟩
    simp_all

theorem escapeText_cons (c : Char) (t : Text) : escapeText (c :: t) = escapeChar c ++ escapeText t := List.flatMap_cons

theorem unescape_plain {c : Char} (hc : c ≠ '\\') (t : Text) : unescape (c :: t) = c :: unescape t := by
  rw [unescape] <;> simp_all

/-- **Escapes can be undone.** -/
theorem unescape_escapeText : ∀ t : Text, unescape (escapeText t) = t
  | [] => rfl
  | c :: t => by
    rw [escapeText_cons]
    rcases escapeChar_cases c with ⟨x, hx, hundo⟩ | ⟨hc, hplain⟩
    · rw [hx, List.cons_append, List.cons_append, List.nil_append, hundo, unescape_escapeText t]
    · rw [hc, List.cons_append, List.nil_append, unescape_plain (by simp_all), unescape_escapeText t]

/-- **An escaped text can stand in quotes.** -/
theorem stringBody_escapeText : ∀ t : Text, StringBody (escapeText t)
  | [] => .nil
  | c :: t => by
    rw [escapeText_cons]
    refine StringBody.append ?_ (stringBody_escapeText t)
    rcases escapeChar_cases c with ⟨x, hx, -⟩ | ⟨hc, hplain⟩
    · rw [hx]
      exact .escape x .nil
    · rw [hc]
      exact .plain (by simp_all) .nil

end Lowering

/-- **Escaped text is read back.**  In quotes, and with anything behind it, the escaped text is one string of the grammar
up to the closing quote, in every place where the grammar reads strings; undoing the escapes gives the text, so two texts
never have the same escaped form. -/
theorem escapeText_reads (t : Text) : ReadAsString (Input.inQuotes (escapeText t)) ∧ unescape (escapeText t) = t ∧
    ∀ u, escapeText u = escapeText t → u = t := by
  refine ⟨(stringBody_escapeText t).readAsString, unescape_escapeText t, fun u hu => ?_⟩
  rw [← unescape_escapeText u, hu, unescape_escapeText t]

end InlineMarkup
