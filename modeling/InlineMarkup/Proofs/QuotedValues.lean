import InlineMarkup.Proofs.HostStrings
import InlineMarkup.Proofs.Masking
/-!
# Proofs.QuotedValues — quoted values as host strings

Between quotes a text is read from the left as escapes, a backslash with the character behind it, and as characters that
stand for themselves (`QuotedItem`).  A value in single quotes is written in double quotes item by item, and no item
changes its meaning (`attributeString_meaning`).  The result is a string of the host language unless the value holds a
line end, which a value may and a string may not (`attributeString_reads`).
-/
namespace InlineMarkup

open Grammar Lowering
open Text (bytes isLayout)

/-! ## Items -/

/-- What stands between quotes: characters for themselves, and characters behind a backslash. -/
inductive QuotedItem where
  | plain (x : Char)
  | escape (x : Char)
  deriving DecidableEq, Repr

namespace QuotedItem

/-- Reads a text from the left; a backslash needs a character behind it. -/
def read? : Text → Option (List QuotedItem)
  | [] => some []
  | [x] => if x = '\\' then none else some [.plain x]
  | x :: y :: u => if x = '\\' then (read? u).map (.escape y :: ·) else (read? (y :: u)).map (.plain x :: ·)

/-- The same quote is meant with and without its backslash. -/
def meaning : QuotedItem → QuotedItem
  | .escape '\'' => .plain '\''
  | .escape '"' => .plain '"'
  | i => i

def text : QuotedItem → Text
  | .plain x => [x]
  | .escape x => ['\\', x]

def spell (is : List QuotedItem) : Text := is.flatMap text

/-- An item of a single-quoted value, for double quotes. -/
def requoted : QuotedItem → QuotedItem
  | .escape '\'' => .plain '\''
  | .plain '"' => .escape '"'
  | i => i

theorem spell_cons (i : QuotedItem) (is : List QuotedItem) : spell (i :: is) = i.text ++ spell is := List.flatMap_cons

theorem spell_append (is js : List QuotedItem) : spell (is ++ js) = spell is ++ spell js := List.flatMap_append

theorem read?_escape (x : Char) (u : Text) : read? ('\\' :: x :: u) = (read? u).map (.escape x :: ·) := rfl

theorem read?_plain {x : Char} (hx : x ≠ '\\') (u : Text) : read? (x :: u) = (read? u).map (.plain x :: ·) := by
  cases u with
  | nil => simp [read?, hx]
  | cons y u => rw [read?, if_neg hx]

/-- **What is spelled is read**, where no backslash stands for itself. -/
theorem read?_spell {is : List QuotedItem} (h : .plain '\\' ∉ is) : read? (spell is) = some is := by
  induction is with
  | nil => rfl
  | cons i is ih =>
    obtain ⟨hi, his⟩ := not_or.1 (mt List.mem_cons.2 h)
    rw [spell_cons]
    cases i with
    | plain x =>
      have hx : x ≠ '\\' := fun hx => hi (by rw [hx])
      rw [text, List.cons_append, List.nil_append, read?_plain hx, ih his]
      rfl
    | escape x =>
      rw [text, List.cons_append, List.cons_append, List.nil_append, read?_escape, ih his]
      rfl

theorem spell_inj {is js : List QuotedItem} (his : .plain '\\' ∉ is) (hjs : .plain '\\' ∉ js) (h : spell is = spell js) :
    is = js := by
  have hread := read?_spell his
  rw [h, read?_spell hjs] at hread
  exact (Option.some.inj hread).symm

/-! ## From single quotes to double quotes -/

theorem meaning_requoted (i : QuotedItem) : i.requoted.meaning = i.meaning := by
  unfold requoted
  split <;> rfl

theorem requoted_ne_quote (i : QuotedItem) : i.requoted ≠ .plain '"' := by
  unfold requoted
  split
  · decide
  · decide
  · next h => exact h

/-- Requoting makes no character but a single quote stand for itself. -/
theorem requoted_eq_plain {x : Char} (hx : x ≠ '\'') (hq : x ≠ '"') (i : QuotedItem) :
    i.requoted = .plain x ↔ i = .plain x := by
  unfold requoted
  split
  · simp [Ne.symm hx]
  · simp [Ne.symm hq]
  · exact Iff.rfl

theorem mem_map_requoted {x : Char} (hx : x ≠ '\'') (hq : x ≠ '"') (is : List QuotedItem) :
    .plain x ∈ is.map requoted ↔ .plain x ∈ is := by
  simp only [List.mem_map, requoted_eq_plain hx hq, exists_eq_right]

theorem requote_plain {x : Char} (hx : x ≠ '\\') (hq : x ≠ '"') (u : Text) : requote (x :: u) = x :: requote u := by
  rw [requote] <;> simp_all

theorem requote_escape {x : Char} (hx : x ≠ '\'') (u : Text) : requote ('\\' :: x :: u) = '\\' :: x :: requote u := by
  rw [requote]
  simp_all

/-- **A text is requoted item by item.** -/
theorem requote_spell {is : List QuotedItem} (h : .plain '\\' ∉ is) : requote (spell is) = spell (is.map requoted) := by
  induction is with
  | nil => rfl
  | cons i is ih =>
    obtain ⟨hi, his⟩ := not_or.1 (mt List.mem_cons.2 h)
    rw [spell_cons, List.map_cons, spell_cons, ← ih his]
    unfold requoted
    split
    · rfl
    · rfl
    · next hsingle hdouble =>
      cases i with
      | plain x =>
        have hx : x ≠ '\\' := fun hx => hi (by rw [hx])
        exact requote_plain hx (fun hq => hdouble (by rw [hq])) _
      | escape x => exact requote_escape (fun hq => hsingle (by rw [hq])) _

/-- Items without quotes and line ends of their own can stand between double quotes. -/
theorem stringBody_spell {is : List QuotedItem} (h : ∀ y ∈ ['\\', '"', '\n', '\r'], .plain y ∉ is) :
    StringBody (spell is) := by
  induction is with
  | nil => exact .nil
  | cons i is ih =>
    have his := ih fun y hy hmem => h y hy (List.mem_cons_of_mem i hmem)
    cases i with
    | plain x => exact .plain (fun hx => h x hx List.mem_cons_self) his
    | escape x => exact .escape x his

end QuotedItem

/-! ## What the grammar reads between quotes -/

namespace Grammar

open QuotedItem

variable {l : Layout} {k : Look} {c c' : Cursor} {xs : List (Parse Rule)}

/-- Items up to a place that `stop` marks. -/
theorem Eval.exists_items {stop : DocExpr} {s : List Char}
    (hstop : ∀ {k c}, Eval document stop l k c none → ∀ {x rest}, c.rest = x :: rest → x ∉ s) (hl : l ≠ .spaced)
    (h : Eval document (.many (.alt (.seq (DocExpr.word "\\") (.one .any)) (DocExpr.charBut stop))) l k c
      (some (c', xs)))
    (hne : c'.rest ≠ []) : ∃ is, c.Past (spell is) c' ∧ ∀ y ∈ '\\' :: s, .plain y ∉ is := by
  have hitems : ∃ u, c.Past u c' ∧ ∃ is, u = spell is ∧ ∀ y ∈ '\\' :: s, .plain y ∉ is := by
    refine h.items_past ⟨[], rfl, fun _ _ => List.not_mem_nil⟩ ?_ (fun x => ⟨[.escape x], rfl, by simp⟩) ?_ hl hne
    · rintro _ _ ⟨is, rfl, his⟩ ⟨js, rfl, hjs⟩
      refine ⟨is ++ js, (spell_append is js).symm, fun y hy hmem => ?_⟩
      exact (List.mem_append.1 hmem).elim (his y hy) (hjs y hy)
    · intro k c hnone x rest hc hslash
      refine ⟨[.plain x], rfl, fun y hy hmem => ?_⟩
      cases List.mem_singleton.1 hmem
      rcases List.mem_cons.1 hy with hy | hy
      · exact hslash hy
      · exact hstop hnone hc hy
  obtain ⟨_, hpast, is, rfl, his⟩ := hitems
  exact ⟨is, hpast, his⟩

theorem stringEnd_none (h : Eval document (.alt (DocExpr.word "\"") DocExpr.newline) l k c none) {x : Char} {rest : Text}
    (hc : c.rest = x :: rest) : x ∉ ['"', '\n', '\r'] := by
  intro hx
  cases h with
  | altRight hquote hline =>
    rcases List.mem_cons.1 hx with rfl | hx
    · exact hquote.word_none_head hc rfl
    · obtain ⟨off, _⟩ := c
      subst hc
      exact newline_none (by simpa using hx) hline

/-- **A string holds items** that are no quotes and no line ends. -/
theorem Covers.string_items {w : Text} (h : Covers DocExpr.stringLiteral w) :
    ∃ is, w = Input.inQuotes (spell is) ∧ ∀ y ∈ ['\\', '"', '\n', '\r'], .plain y ∉ is := by
  obtain ⟨l, c, c', xs, hl, h, hw⟩ := h
  obtain ⟨_, _, _, hopen, h⟩ := h.seq_tight hl
  obtain ⟨_, _, _, hbody, hclose⟩ := h.seq_tight hl
  have hend := hclose.word_past
  obtain ⟨is, hpast, his⟩ := hbody.exists_items (s := ['"', '\n', '\r']) (fun hnone => stringEnd_none hnone) hl
    (by rw [hend.rest]; exact List.cons_ne_nil _ _)
  exact ⟨is, hw.eq (hopen.word_past.trans (hpast.trans hend)), his⟩

/-- Items between two quotes, which none of them is. -/
theorem Eval.quoted_past {q : Char} {r : Rule} (hs : document.style r = .token)
    (hbody : document.body r = .many (.alt (.seq (DocExpr.word "\\") (.one .any)) (DocExpr.charBut (Expr.word [q]))))
    (h : Eval document (.seq (.word [q]) (.seq (.rule r) (.word [q]))) .compact .here c (some (c', xs))) :
    ∃ is inner, (∀ y ∈ ['\\', q], .plain y ∉ is) ∧ c.Past (q :: spell is ++ [q]) c' ∧
      xs = [.node r (c.offset + bytes [q]) (c.offset + bytes [q] + bytes (spell is)) inner] := by
  obtain ⟨c₁, xs, _, ys, zs, hopen, hskip, hrest, htrees⟩ := h.seq_parts
  obtain ⟨c₂, xs', _, ys', zs', hcontent, hskip', hclose, hzs⟩ := hrest.seq_parts
  cases hskip.skip_eq (by decide)
  cases hskip'.skip_eq (by decide)
  obtain ⟨inner, hinner, hitems⟩ := hcontent.rule_parts (by rw [hs]; decide) (by decide)
  rw [hs, hbody] at hitems
  have hend := hclose.word_past
  obtain ⟨is, hpast, his⟩ := hitems.exists_items (s := [q])
    (fun hnone _ _ hc hx => hnone.word_none_head hc (List.mem_singleton.1 hx)) (by decide)
    (by rw [hend.rest]; exact List.cons_ne_nil _ _)
  refine ⟨is, inner, his, hopen.word_past.trans (hpast.trans hend), ?_⟩
  obtain ⟨_, -, hxs⟩ := Option.map_eq_some_iff.1 (hopen.unique .word).symm
  obtain ⟨_, -, hzs'⟩ := Option.map_eq_some_iff.1 (hclose.unique .word).symm
  cases hxs
  cases hzs'
  rw [htrees, hzs, hinner, ← hopen.word_past.offset, ← hpast.offset]
  rfl

/-- **A quoted value holds items** that are not its quote. -/
theorem Matched.value {source : Text} {start stop : Nat} {inner : List (Parse Rule)}
    (h : Matched source (.node .attributeValue start stop inner)) :
    ∃ q is pre post r inner', (q = '"' ∨ q = '\'') ∧ (∀ y ∈ ['\\', q], .plain y ∉ is) ∧
      source = pre ++ ((q :: spell is ++ [q]) ++ post) ∧ start = bytes pre ∧
      stop = bytes pre + bytes (q :: spell is ++ [q]) ∧ Kind.ofRule? r = some .attributeContent ∧
      inner = [.node r (bytes pre + bytes [q]) (bytes pre + bytes [q] + bytes (spell is)) inner'] := by
  cases h with
  | @node _ l c c' _ place named left body below =>
    have hquoted : ∃ q r is inner', (q = '"' ∨ q = '\'') ∧ Kind.ofRule? r = some .attributeContent ∧
        (∀ y ∈ ['\\', q], .plain y ∉ is) ∧ c.Past (q :: spell is ++ [q]) c' ∧
        inner = [.node r (c.offset + bytes [q]) (c.offset + bytes [q] + bytes (spell is)) inner'] := by
      cases body with
      | altLeft h =>
        obtain ⟨is, inner', hquoted⟩ := Eval.quoted_past (q := '"') (r := .attributeContent) rfl rfl h
        exact ⟨'"', _, is, inner', .inl rfl, rfl, hquoted⟩
      | altRight _ h =>
        obtain ⟨is, inner', hquoted⟩ := Eval.quoted_past (q := '\'') (r := .attributeContentSingle) rfl rfl h
        exact ⟨'\'', _, is, inner', .inr rfl, rfl, hquoted⟩
    obtain ⟨q, r, is, inner', hq, hr, his, hpast, rfl⟩ := hquoted
    obtain ⟨pre, hsrc, hpre⟩ := place
    exact ⟨q, is, pre, c'.rest, r, inner', hq, his, by rw [hsrc, hpast.rest], hpre.symm, by rw [hpast.offset, hpre], hr,
      by rw [hpre]⟩

/-- A character that needs no escape in a string, where the expression takes no other. -/
theorem Eval.plainChar_past (hl : l ≠ .spaced) {e : DocExpr} {f : Char → Bool} (he : e.chars? = some f)
    (hf : (['\\', '"', '\n', '\r'].all fun x => !f x) = true) (h : Eval document e l k c (some (c', xs))) :
    ∃ x, c.Past [x] c' ∧ x ∉ ['\\', '"', '\n', '\r'] := by
  obtain ⟨x, hx, hfx⟩ := h.chars_past hl he
  refine ⟨x, hx, fun hmem => ?_⟩
  have := List.all_eq_true.1 hf x hmem
  rw [hfx] at this
  cases this

/-- **The name of an attribute needs no escapes.** -/
theorem Matched.attributeName_plain {source : Text} {start stop : Nat} {inner : List (Parse Rule)}
    (h : Matched source (.node .attributeName start stop inner)) :
    ∃ pre u post, source = pre ++ (u ++ post) ∧ start = bytes pre ∧ stop = bytes pre + bytes u ∧
      ∀ x ∈ u, x ∉ ['\\', '"', '\n', '\r'] := by
  cases h with
  | @node _ l c c' _ place named left body below =>
    have hl : (document.style .attributeName).inside l ≠ .spaced := by
      show Layout.token ≠ .spaced
      decide
    obtain ⟨c₁, _, _, hfirst, hmore⟩ := body.seq_tight hl
    obtain ⟨x, hx, hplain⟩ := hfirst.plainChar_past hl rfl (by decide)
    obtain ⟨u, hu, hrest⟩ := hmore.many_past (P := fun u => ∀ x ∈ u, x ∉ ['\\', '"', '\n', '\r'])
      (fun _ hx => absurd hx List.not_mem_nil) (fun u v hu hv x hx => (List.mem_append.1 hx).elim (hu x) (hv x))
      (fun _ _ _ _ _ => trivial) (fun c c' xs h _ => by
        obtain ⟨y, hy, hplain⟩ := h.plainChar_past hl rfl (by decide)
        exact ⟨[y], hy, List.forall_mem_singleton.2 hplain⟩) hl trivial
    obtain ⟨pre, hsrc, hpre⟩ := place
    refine ⟨pre, x :: u, c'.rest, ?_, hpre.symm, ?_, List.forall_mem_cons.2 ⟨hplain, hrest⟩⟩
    · rw [hsrc, (hx.trans hu).rest]
      rfl
    · rw [(hx.trans hu).offset, hpre]
      rfl

theorem StringBody.of_plain {u : Text} (hu : ∀ x ∈ u, x ∉ ['\\', '"', '\n', '\r']) : StringBody u := by
  induction u with
  | nil => exact .nil
  | cons x u ih => exact .plain (hu x List.mem_cons_self) (ih fun y hy => hu y (List.mem_cons_of_mem x hy))

/-! ## Calls with two strings -/

/-- Before a string. -/
def quoteBarrier : Barrier where
  chars := .only '"'
  rules := [.prefixOp, .element, .selfClosingTag, .openingTag, .identifier]
  closed := by decide +kernel

/-- Behind an argument of a call. -/
def argumentEndBarrier : Barrier where
  chars := ⟨fun x => x == ',' || x == ')', (· == .any)⟩
  rules :=
    [.postfixOp, .callArgs, .indexAccess, .recordSuffix, .fieldAccess, .dot, .tryOp, .infixOp]
  closed := by decide +kernel

theorem argumentEnd_has {x : Char} (hx : x = ',' ∨ x = ')') : argumentEndBarrier.chars.Has x := by
  rcases hx with rfl | rfl <;> exact ⟨rfl, fun s hs => by cases s <;> first | rfl | cases hs⟩

section Arguments

variable {off : Nat} {rest : Text}

theorem settled_quote (u : Text) : Settled ⟨off, Input.inQuotes u ++ rest⟩ := .of_char (by decide)

theorem at_quote {e : DocExpr} (he : quoteBarrier.refuses e = true) (u : Text) :
    Eval document e l k ⟨off, Input.inQuotes u ++ rest⟩ none :=
  quoteBarrier.fails he (CharClass.only_has '"') (settled_quote u) l k

theorem settled_argumentEnd {x : Char} (hx : x = ',' ∨ x = ')') : Settled ⟨off, x :: rest⟩ :=
  .of_char (by rcases hx with rfl | rfl <;> decide)

theorem at_argumentEnd {x : Char} (hx : x = ',' ∨ x = ')') {e : DocExpr} (he : argumentEndBarrier.refuses e = true) :
    Eval document e l k ⟨off, x :: rest⟩ none :=
  argumentEndBarrier.fails he (argumentEnd_has hx) (settled_argumentEnd hx) l k

/-- A string as an argument of a call. -/
def stringArgument (off : Nat) (w : Text) : Tree :=
  let s : Span := ⟨off, off + bytes w⟩
  .node .argument s [.node .expression s [.node .unary s [.node .postfixed s [.node .literal s []]]]]

theorem reads_stringArgument {u : Text} (hu : StringBody u) {x : Char} (hx : x = ',' ∨ x = ')') (off : Nat) :
    Reads (.rule .argument) .spaced ⟨off, Input.inQuotes u ++ x :: rest⟩ ⟨off + bytes (Input.inQuotes u), x :: rest⟩
      [stringArgument off (Input.inQuotes u)] := by
  have hend : Settled ⟨off + bytes (Input.inQuotes u), x :: rest⟩ := settled_argumentEnd hx
  have hstring : Reads DocExpr.stringLiteral .token ⟨off, Input.inQuotes u ++ x :: rest⟩ _ [] :=
    ⟨[], eval_stringLiteral hu (by decide) off (x :: rest), rfl⟩
  have hliteral : Reads (.rule .literal) .spaced ⟨off, Input.inQuotes u ++ x :: rest⟩ _ _ :=
    .rule (by decide) (by decide) (.right (at_quote (by decide +kernel) u) (.left hstring))
  have hprimary := Reads.silent (r := .primary) rfl (.right (at_quote (by decide) u) (.left hliteral))
  have hpostfixed := Reads.rule (r := .postfixed) (by decide) (by decide)
    (hprimary.seq (.settled hend) (.many_none (at_argumentEnd hx (by decide))))
  have hunary := Reads.rule (r := .unary) (by decide) (by decide)
    ((Reads.many_none (at_quote (by decide) u)).seq (.settled (settled_quote u)) hpostfixed)
  have hexpression := Reads.rule (r := .expression) (by decide) (by decide)
    (hunary.seq (.settled hend) (.many_none (at_argumentEnd hx (by decide +kernel))))
  have hname : Eval document (.rule .identifier) .spaced .here ⟨off, Input.inQuotes u ++ x :: rest⟩ none :=
    at_quote (by decide) u
  exact .rule (by decide) (by decide) (.right (.seqFail hname) (.right (.seqFail hname) hexpression))

theorem reads_nextArgument {u : Text} (hu : StringBody u) (off : Nat) :
    Reads (DocExpr.seqs (DocExpr.word ",") [DocExpr.newlines, .rule .argument]) .spaced
      ⟨off, [','] ++ ' ' :: (Input.inQuotes u ++ ')' :: rest)⟩
      ⟨off + bytes [','] + bytes [' '] + bytes (Input.inQuotes u), ')' :: rest⟩
      [stringArgument (off + bytes [','] + bytes [' ']) (Input.inQuotes u)] := by
  refine (Reads.word [','] _ _ _).seq (.space (settled_quote u)) ?_
  exact (Reads.many_none (at_quote (by decide) u)).seq (.settled (settled_quote u)) (reads_stringArgument hu (.inr rfl) _)

/-- Two arguments in brackets. -/
def twoArguments (x y : Text) : Text := '(' :: Text.join [',', ' '] [x, y] ++ [')']

/-- Two strings as the arguments of a call. -/
def twoArgumentsTree (off : Nat) (x y : Text) : Tree :=
  .node .callArgs ⟨off, off + bytes (twoArguments x y)⟩
    [stringArgument (off + bytes ['(']) x, stringArgument (off + bytes ['('] + bytes x + bytes [','] + bytes [' ']) y]

/-- **Two strings in brackets are the arguments of a call.** -/
theorem reads_twoArguments {u v : Text} (hu : StringBody u) (hv : StringBody v) (off : Nat) (rest : Text) :
    Reads (.rule .callArgs) .spaced ⟨off, twoArguments (Input.inQuotes u) (Input.inQuotes v) ++ rest⟩
      ⟨off + bytes (twoArguments (Input.inQuotes u) (Input.inQuotes v)), rest⟩
      [twoArgumentsTree off (Input.inQuotes u) (Input.inQuotes v)] := by
  have hend : ∀ {o}, Settled ⟨o, ')' :: rest⟩ := settled_argumentEnd (.inr rfl)
  have hcomma : ∀ {o}, Eval document (DocExpr.word ",") .spaced .here ⟨o, ')' :: rest⟩ none :=
    .of_word_none (word?_of_ne (by decide))
  have hsecond := ((reads_nextArgument hv (off + bytes ['('] + bytes (Input.inQuotes u))).many_some
    (.more_none (.settled hend) (.seqFail hcomma))).seq (.settled hend) (.opt_none hcomma)
  have hitems := (reads_stringArgument hu (.inl rfl) (off + bytes ['('])).seq
    (.settled (settled_argumentEnd (.inl rfl))) hsecond
  have htext : twoArguments (Input.inQuotes u) (Input.inQuotes v) ++ rest =
      ['('] ++ (Input.inQuotes u ++ ([','] ++ ' ' :: (Input.inQuotes v ++ ')' :: rest))) := by
    simp [twoArguments, Text.join]
  have hbytes : off + bytes (twoArguments (Input.inQuotes u) (Input.inQuotes v)) =
      off + bytes ['('] + bytes (Input.inQuotes u) + bytes [','] + bytes [' '] + bytes (Input.inQuotes v) +
        bytes [')'] := by
    simp [twoArguments, Text.join, Nat.add_assoc]
  rw [twoArgumentsTree, htext, hbytes]
  refine .rule (by decide) (by decide) ?_
  refine (Reads.word ['('] _ _ _).seq (.settled (settled_quote u)) ?_
  refine (Reads.many_none (at_quote (by decide) u)).seq (.settled (settled_quote u)) ?_
  exact hitems.opt.seq (.settled hend) ((Reads.many_none (at_argumentEnd (e := DocExpr.newline) (.inr rfl) (by decide))).seq
    (.settled hend) (.word [')'] _ _ _))

end Arguments

theorem StringBody.covers {u : Text} (hu : StringBody u) : Covers DocExpr.stringLiteral (Input.inQuotes u) :=
  ⟨.token, _, _, [], by decide, eval_stringLiteral hu (by decide) 0 [], ⟨rfl, rfl⟩⟩

end Grammar

/-! ## The values of a document -/

open InlineMarkup.Tree QuotedItem

variable {doc : Document} {c : Cst}

theorem parse_value (h : doc.parse = .ok c) {t : Tree} (ht : t ∈ c.tree.nodes) (hk : t.kind = .attributeValue) :
    ∃ q is, (q = '"' ∨ q = '\'') ∧ (∀ y ∈ ['\\', q], .plain y ∉ is) ∧ t.text doc.text = q :: spell is ++ [q] ∧
      (t.child? .attributeContent).map (·.text doc.text) = some (spell is) := by
  rcases parse_origin h ht with htoken | ⟨r, start, stop, inner, k, hm, hr, rfl⟩
  · rw [htoken.kind] at hk
    cases hk
  · rw [kind_finished] at hk
    obtain rfl : k = .attributeValue := hk
    obtain rfl := rule_of_kind (s := .attributeValue) (by decide) hr
    obtain ⟨q, is, pre, post, r, inner', hq, his, hsrc, rfl, rfl, hr', rfl⟩ := hm.value
    have hchild : namedAll [.node r (bytes pre + bytes [q]) (bytes pre + bytes [q] + bytes (spell is)) inner'] =
        [.node .attributeContent ⟨bytes pre + bytes [q], bytes pre + bytes [q] + bytes (spell is)⟩ []] := by
      rw [namedAll, named, hr']
      rfl
    rw [if_neg (by decide), hchild]
    refine ⟨q, is, hq, his, ?_, ?_⟩
    · -- the value ends with its quote, so its end is not moved
      have htrim : Text.trimEnd isLayout (q :: spell is ++ [q]) = q :: spell is ++ [q] := by
        have hlast : ∀ x, (q :: spell is ++ [q]).getLast? = some x → isLayout x = false := by
          intro x hx
          rw [List.getLast?_append] at hx
          cases hx
          rcases hq with rfl | rfl <;> rfl
        have := Text.trimEnd_of_last hlast (w := []) (fun _ hc => absurd hc List.not_mem_nil)
        rwa [List.append_nil] at this
      have hcontent : bytes pre + bytes [q] + bytes (spell is) ≤ bytes pre + bytes (q :: spell is ++ [q]) := by
        simp only [Text.bytes_cons, Text.bytes_append, Text.bytes_nil]
        omega
      refine Span.text_append hsrc (start_finished _) ?_
      rw [finished_node]
      show (trimSpan _ _ _ _).stop = _
      rw [trimSpan_append hsrc rfl, htrim]
      exact Nat.max_eq_left hcontent
    · rw [child?_finished (by decide)]
      show some (Tree.text (Tree.finished doc.text _) _) = _
      rw [Tree.text, span_finished_of_keeps rfl]
      refine congrArg some (Span.text_append (p := pre ++ [q]) (v := q :: post) ?_ ?_ ?_)
      · rw [hsrc]
        simp
      · simp
      · simp

theorem parse_attributeName (h : doc.parse = .ok c) {t : Tree} (ht : t ∈ c.tree.nodes) (hk : t.kind = .attributeName) :
    StringBody (t.text doc.text) := by
  rcases parse_origin h ht with htoken | ⟨r, start, stop, inner, k, hm, hr, rfl⟩
  · rw [htoken.kind] at hk
    cases hk
  · rw [kind_finished] at hk
    obtain rfl : k = .attributeName := hk
    obtain rfl := (by decide : ∀ r ∈ Rule.all, Kind.ofRule? r = some .attributeName → r = .attributeName) r r.mem_all hr
    obtain ⟨pre, u, post, hsrc, rfl, rfl, hplain⟩ := hm.attributeName_plain
    obtain ⟨v, w, rfl, -, hspread⟩ := spread_trimmed_leaf hsrc (k := .attributeName) rfl
    have hspan : ((Tree.node .attributeName ⟨bytes pre, bytes pre + bytes (v ++ w)⟩ []).finished doc.text).span =
        ⟨bytes pre, bytes pre + bytes v⟩ := by
      rw [finished_node]
      exact hspread.span
    have htext : ((Tree.node .attributeName ⟨bytes pre, bytes pre + bytes (v ++ w)⟩ []).finished doc.text).text doc.text =
        v := by
      rw [Tree.text, hspan]
      exact Span.text_append (v := w ++ post) (by rw [hsrc, List.append_assoc]) rfl rfl
    rw [if_pos (by decide), htext]
    exact .of_plain fun x hx => hplain x (List.mem_append_left w hx)

theorem child?_mem {t d : Tree} {k : Kind} (ht : t ∈ c.tree.nodes) (hd : t.child? k = some d) :
    d ∈ c.tree.nodes ∧ d.kind = k := by
  have hfound : (d.kind == k) = true := List.find?_some (p := fun u : Tree => u.kind == k) hd
  exact ⟨nodes_trans (mem_nodes_iff.2 (.inr ⟨d, List.mem_of_find?_eq_some hd, mem_nodes_self d⟩)) ht, beq_iff_eq.1 hfound⟩

theorem parse_name (h : doc.parse = .ok c) {t : Tree} (ht : t ∈ c.tree.nodes) (hk : t.kind = .attribute) :
    ∃ d, t.child? .attributeName = some d ∧ StringBody (d.text doc.text) := by
  obtain ⟨name, value, hparts, hname, -⟩ := (parse_shaped h t ht).value hk
  have hmem : name ∈ t.children := (List.mem_filter.1 (show name ∈ t.parts by rw [hparts]; exact List.mem_cons_self)).1
  have hsome : (t.child? .attributeName).isSome = true := by
    rw [Tree.child?, List.find?_isSome]
    exact ⟨name, hmem, beq_iff_eq.2 hname⟩
  obtain ⟨d, hd⟩ := Option.isSome_iff_exists.1 hsome
  obtain ⟨hdmem, hdk⟩ := child?_mem ht hd
  exact ⟨d, hd, parse_attributeName h hdmem hdk⟩

/-- **What a value is written as**: items of the same meaning in double quotes, with the same line ends. -/
theorem parse_attributeString (h : doc.parse = .ok c) {t : Tree} (ht : t ∈ c.tree.nodes) (hk : t.kind = .attributeValue) :
    ∃ q is js, t.text doc.text = q :: spell is ++ [q] ∧
      (t.child? .attributeContent).map (·.text doc.text) = some (spell is) ∧ .plain '\\' ∉ is ∧
      (∀ settings, Input.attributeString ⟨doc.text, settings⟩ t = Input.inQuotes (spell js)) ∧
      (∀ y ∈ ['\\', '"'], .plain y ∉ js) ∧ js.map meaning = is.map meaning ∧
      ∀ y ∈ ['\n', '\r'], (.plain y ∈ js ↔ .plain y ∈ is) := by
  obtain ⟨q, is, hq, his, htext, hchild⟩ := parse_value h ht hk
  have hslash := his '\\' List.mem_cons_self
  rcases hq with rfl | rfl
  · refine ⟨'"', is, is, htext, hchild, hslash, fun settings => ?_, his, rfl, fun _ _ => Iff.rfl⟩
    rw [Input.attributeString, htext]
    rfl
  · refine ⟨'\'', is, is.map requoted, htext, hchild, hslash, fun settings => ?_, ?_, ?_, ?_⟩
    · rw [Input.attributeString, htext, hchild]
      show Input.inQuotes (requote (spell is)) = _
      rw [requote_spell hslash]
    · refine List.forall_mem_cons.2 ⟨?_, List.forall_mem_singleton.2 fun hmem => ?_⟩
      · exact mt (mem_map_requoted (by decide) (by decide) is).1 hslash
      · obtain ⟨i, -, hi⟩ := List.mem_map.1 hmem
        exact requoted_ne_quote i hi
    · rw [List.map_map]
      exact List.map_congr_left fun i _ => meaning_requoted i
    · intro y hy
      have hne : y ≠ '\'' ∧ y ≠ '"' := (by decide : ∀ y ∈ ['\n', '\r'], y ≠ '\'' ∧ y ≠ '"') y hy
      exact mem_map_requoted hne.1 hne.2 is

/-- **A value keeps its meaning in double quotes.**  The content of a value in single quotes reads as a list of items, and
so does what is written between double quotes for it: there no quote stands for itself, and item for item the meaning is
the same. -/
theorem attributeString_meaning (h : doc.parse = .ok c) {t : Tree} (ht : t ∈ c.tree.nodes) (hk : t.kind = .attributeValue)
    (hq : (t.text doc.text).head? = some '\'') (settings : Settings) :
    ∃ u b is js, t.text doc.text = '\'' :: u ++ ['\''] ∧ (t.child? .attributeContent).map (·.text doc.text) = some u ∧
      Input.attributeString ⟨doc.text, settings⟩ t = '"' :: b ++ ['"'] ∧ read? u = some is ∧ read? b = some js ∧
      .plain '"' ∉ js ∧ js.map meaning = is.map meaning := by
  obtain ⟨q, is, js, htext, hchild, hslash, hstring, hjs, hmeaning, -⟩ := parse_attributeString h ht hk
  rw [htext] at hq
  obtain rfl : q = '\'' := Option.some.inj hq
  exact ⟨spell is, spell js, is, js, htext, hchild, hstring settings, read?_spell hslash,
    read?_spell (hjs '\\' (by decide)), hjs '"' (by decide), hmeaning⟩

/-- Every kind of quote in single quotes, and an escape that is none of a quote. -/
def singleQuoted : Document := ⟨"a.mbx", "<a title='it\\'s \"x\" \\\"y\\\" \\n'/>".toList⟩

theorem attributeString_meaning_mixed : ∃ c t, singleQuoted.parse = .ok c ∧ t ∈ c.tree.nodes ∧ t.kind = .attributeValue ∧
    Input.attributeString ⟨singleQuoted.text, {}⟩ t = "\"it's \\\"x\\\" \\\"y\\\" \\n\"".toList ∧
    ∃ u b is js, t.text singleQuoted.text = '\'' :: u ++ ['\''] ∧
      (t.child? .attributeContent).map (·.text singleQuoted.text) = some u ∧
      Input.attributeString ⟨singleQuoted.text, {}⟩ t = '"' :: b ++ ['"'] ∧ read? u = some is ∧ read? b = some js ∧
      .plain '"' ∉ js ∧ js.map meaning = is.map meaning := by
  obtain ⟨c, t, hparse, ht, hfound⟩ := exists_node singleQuoted (fun t => t.kind == .attributeValue &&
    (t.text singleQuoted.text).head? == some '\'' &&
    Input.attributeString ⟨singleQuoted.text, {}⟩ t == "\"it's \\\"x\\\" \\\"y\\\" \\n\"".toList) (by decide +kernel)
  simp only [Bool.and_eq_true, beq_iff_eq] at hfound
  exact ⟨c, t, hparse, ht, hfound.1.1, hfound.2, attributeString_meaning hparse ht hfound.1.1 hfound.1.2 {}⟩

/-- **A value is a host string unless it breaks the line.**  An attribute with a quoted value is written as a call with
its name and the value as arguments.  The grammar reads the value as one string, and the arguments as two strings, if no
line end stands for itself in the value; if one does, it reads no string there. -/
theorem attributeString_reads (h : doc.parse = .ok c) {a v : Tree} (ha : a ∈ c.tree.nodes) (hk : a.kind = .attribute)
    (hv : a.child? .attributeValue = some v) :
    ∃ name u is, (a.child? .attributeName).map (·.text doc.text) = some name ∧
      (v.child? .attributeContent).map (·.text doc.text) = some u ∧ read? u = some is ∧
      ∀ settings, ∃ w, Input.attributeString ⟨doc.text, settings⟩ v = w ∧
        (∀ room, (Input.lowerAttribute ⟨doc.text, settings⟩ (room + 1) a).result =
          .ok (settings.builders.attr ++ twoArguments (Input.inQuotes name) w)) ∧
        (Covers DocExpr.stringLiteral w ↔ .plain '\n' ∉ is ∧ .plain '\r' ∉ is) ∧
        (.plain '\n' ∉ is → .plain '\r' ∉ is → ReadAsString w ∧ ∀ off rest,
          Reads (.rule .callArgs) .spaced ⟨off, twoArguments (Input.inQuotes name) w ++ rest⟩
            ⟨off + bytes (twoArguments (Input.inQuotes name) w), rest⟩
            [twoArgumentsTree off (Input.inQuotes name) w]) := by
  obtain ⟨d, hd, hname⟩ := parse_name h ha hk
  obtain ⟨hvmem, hvk⟩ := child?_mem ha hv
  obtain ⟨q, is, js, -, hchild, hslash, hstring, hjs, -, hbreaks⟩ := parse_attributeString h hvmem hvk
  have hbody : .plain '\n' ∉ is → .plain '\r' ∉ is → StringBody (spell js) := by
    intro hfeed hreturn
    have hlines : ∀ y ∈ ['\n', '\r'], .plain y ∉ js := fun y hy => by
      rw [hbreaks y hy]
      exact (by simp [hfeed, hreturn] : ∀ y ∈ ['\n', '\r'], .plain y ∉ is) y hy
    exact stringBody_spell fun y hy => (List.mem_append.1 (show y ∈ ['\\', '"'] ++ ['\n', '\r'] from hy)).elim
      (hjs y) (hlines y)
  refine ⟨d.text doc.text, spell is, is, by rw [hd]; rfl, hchild, read?_spell hslash, fun settings => ?_⟩
  refine ⟨_, hstring settings, fun room => ?_, ⟨fun hcovers => ?_, fun hlines => (hbody hlines.1 hlines.2).covers⟩,
    fun hfeed hreturn => ⟨(hbody hfeed hreturn).readAsString, reads_twoArguments hname (hbody hfeed hreturn)⟩⟩
  · have hvalue : Input.lowerValue ⟨doc.text, settings⟩ room a = .ok (Input.inQuotes (spell js)) := by
      rw [Input.lowerValue, hv, ← hstring settings]
    rw [Input.result_lowerAttribute, hvalue, hd]
    exact congrArg Except.ok (List.append_assoc _ _ _)
  · obtain ⟨ks, hks, hplain⟩ := hcovers.string_items
    have hsame : spell js = spell ks := List.append_cancel_right (List.cons.inj hks).2
    obtain rfl := spell_inj (hjs '\\' (by decide)) (hplain '\\' (by decide)) hsame
    have hnot : ∀ y ∈ ['\n', '\r'], .plain y ∉ is := fun y hy =>
      mt (hbreaks y hy).2 (hplain y (List.mem_append_right ['\\', '"'] hy))
    exact ⟨hnot '\n' (by decide), hnot '\r' (by decide)⟩

/-- An attribute with a quoted value, found by what holds of it. -/
theorem exists_valued (doc : Document) (q : Tree → Tree → Bool)
    (h : (doc.parse.toOption.any fun c => c.tree.nodes.any fun a => a.kind == .attribute &&
      (a.child? .attributeValue).any (q a)) = true) :
    ∃ c a v, doc.parse = .ok c ∧ a ∈ c.tree.nodes ∧ a.kind = .attribute ∧ a.child? .attributeValue = some v ∧
      q a v = true := by
  obtain ⟨c, a, hparse, ha, hfound⟩ := exists_node doc _ h
  obtain ⟨hk, hfound⟩ := Bool.and_eq_true_iff.1 hfound
  obtain ⟨v, hv, hq⟩ := (Option.any_eq_true _ _).1 hfound
  exact ⟨c, a, v, hparse, ha, beq_iff_eq.1 hk, hv, hq⟩

theorem attributeString_reads_mixed : ∃ c a v, singleQuoted.parse = .ok c ∧ a ∈ c.tree.nodes ∧ a.kind = .attribute ∧
    a.child? .attributeValue = some v ∧ ∃ w, Input.attributeString ⟨singleQuoted.text, {}⟩ v = w ∧
      (Input.lowerAttribute ⟨singleQuoted.text, {}⟩ 1 a).result =
        .ok ("attr".toList ++ twoArguments "\"title\"".toList w) ∧
      Covers DocExpr.stringLiteral w ∧ ReadAsString w ∧
      Reads (.rule .callArgs) .spaced ⟨0, twoArguments "\"title\"".toList w⟩ ⟨bytes (twoArguments "\"title\"".toList w), []⟩
        [twoArgumentsTree 0 "\"title\"".toList w] := by
  obtain ⟨c, a, v, hparse, ha, hk, hv, hfound⟩ := exists_valued singleQuoted
    (fun a v => (a.child? .attributeName).map (·.text singleQuoted.text) == some "title".toList &&
      (((v.child? .attributeContent).map (·.text singleQuoted.text)).bind read?).any fun is =>
        !is.contains (.plain '\n') && !is.contains (.plain '\r'))
    (by decide +kernel)
  obtain ⟨name, u, is, hname, hu, his, hall⟩ := attributeString_reads hparse ha hk hv
  rw [hname, hu, Option.bind_some, his] at hfound
  simp only [Bool.and_eq_true, beq_iff_eq, Option.some.injEq, Option.any_some, Bool.not_eq_true', List.contains_eq_mem,
    decide_eq_false_iff_not] at hfound
  obtain ⟨rfl, hlines⟩ := hfound
  obtain ⟨w, hw, hcall, hcovers, hreads⟩ := hall {}
  obtain ⟨hstring, harguments⟩ := hreads hlines.1 hlines.2
  have harguments := harguments 0 []
  rw [List.append_nil, Nat.zero_add] at harguments
  exact ⟨c, a, v, hparse, ha, hk, hv, w, hw, hcall 0, hcovers.2 hlines, hstring, harguments⟩

/-- A value over two lines. -/
def brokenValue : Document := ⟨"a.mbx", "<a b=\"x\ny\"/>".toList⟩

/-- **A line end in a value** comes to stand in the string, where the grammar reads none. -/
theorem attributeString_breaks_line : ∃ c a v, brokenValue.parse = .ok c ∧ a ∈ c.tree.nodes ∧ a.kind = .attribute ∧
    a.child? .attributeValue = some v ∧ Input.attributeString ⟨brokenValue.text, {}⟩ v = "\"x\ny\"".toList ∧
    ¬ Covers DocExpr.stringLiteral "\"x\ny\"".toList ∧
    (brokenValue.translate {}).result.toOption = some "h(\"a\", [attr(\"b\", \"x\ny\")], [])\n".toList := by
  obtain ⟨c, a, v, hparse, ha, hk, hv, hw⟩ := exists_valued brokenValue
    (fun _ v => Input.attributeString ⟨brokenValue.text, {}⟩ v == "\"x\ny\"".toList) (by decide +kernel)
  refine ⟨c, a, v, hparse, ha, hk, hv, beq_iff_eq.1 hw, fun hcovers => ?_, by decide +kernel⟩
  obtain ⟨is, his, hplain⟩ := hcovers.string_items
  have hspell : spell [.plain 'x', .plain '\n', .plain 'y'] = spell is := List.append_cancel_right (List.cons.inj his).2
  rw [← spell_inj (by decide) (hplain '\\' (by decide)) hspell] at hplain
  exact hplain '\n' (by decide) (by decide)

end InlineMarkup
