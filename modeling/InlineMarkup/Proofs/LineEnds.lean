import InlineMarkup.Proofs.Origins
import InlineMarkup.Proofs.Reading
/-!
# Proofs.LineEnds — what stands where a line ends

A comment takes everything up to the end of its line (`parse_comment`).  At the end of a line hardly any rule can match,
so a node that begins there holds text (`parse_empty`), and none begins there outside of markup (`parse_begins`).
-/
namespace InlineMarkup

open Text (bytes isBlank)

/-- Nothing stands here, or the line ends. -/
def Text.EndsLine (t : Text) : Prop := ∀ x ∈ t.head?, x = '\n' ∨ x = '\r'

namespace Grammar

variable {l : Layout} {k : Look}

/-! ## Matches before a line end -/

theorem newline_none {x : Char} {rest : Text} (hx : x = '\n' ∨ x = '\r') {off : Nat} :
    ¬ Eval document DocExpr.newline l k ⟨off, x :: rest⟩ none := by
  intro h
  cases h with
  | altRight hfeed h =>
    cases h with
    | altRight _ hreturn =>
      have hfeed := hfeed.word_none
      have hreturn := hreturn.word_none
      rcases hx with rfl | rfl
      · simp [Cursor.word?, Text.strip?] at hfeed
      · simp [Cursor.word?, Text.strip?] at hreturn

theorem newline_some {c : Cursor} {m : Cursor × List (Parse Rule)} (h : Eval document DocExpr.newline l k c (some m)) :
    c.rest.EndsLine := by
  have hword : ∀ w : Text, Eval document (.word w) l k c (some m) → c.rest = w ++ m.1.rest :=
    fun w hw => (Cursor.Past.word hw.word_some).rest
  cases h with
  | altLeft h => simp [Text.EndsLine, hword _ h]
  | altRight _ h =>
    cases h with
    | altLeft h => simp [Text.EndsLine, hword _ h]
    | altRight _ h => simp [Text.EndsLine, hword _ h]

theorem Eval.charBut_some {stop : DocExpr} {c : Cursor} {m : Cursor × List (Parse Rule)}
    (h : Eval document (DocExpr.charBut stop) l k c (some m)) : Eval document stop l k.enterNever c none := by
  obtain ⟨_, _, _, _, _, hstop, -, -, -⟩ := h.seq_parts
  cases hstop with
  | neverNone hstop => exact hstop

theorem Eval.charBut_none {stop : DocExpr} (hl : l ≠ .spaced) {c : Cursor} (hc : c.rest ≠ [])
    (h : Eval document (DocExpr.charBut stop) l k c none) : ∃ m, Eval document stop l k.enterNever c (some m) := by
  generalize ho : (none : Result Rule) = o at h
  cases h with
  | seqFail hstop =>
    cases hstop with
    | neverSome hstop => exact ⟨_, hstop⟩
  | seqStuck _ hs => cases hs.skip_eq hl
  | @seq _ _ _ _ _ _ _ _ _ o hstop hs hq =>
    cases o with
    | some m => cases ho
    | none =>
      cases hs.skip_eq hl
      cases hstop with
      | neverNone =>
        obtain ⟨off, rest⟩ := c
        cases rest with
        | nil => exact absurd rfl hc
        | cons x rest => cases hq.unique .one

theorem Eval.restOfLine_ends (hl : l ≠ .spaced) {c c' : Cursor} {xs : List (Parse Rule)}
    (h : Eval document DocExpr.restOfLine l k c (some (c', xs))) : c'.rest.EndsLine := by
  intro x hx
  obtain ⟨m, hm⟩ := (h.many_stops hl).charBut_none hl fun hnil => by rw [hnil] at hx; cases hx
  exact newline_some hm x hx

theorem Eval.alts_none {c : Cursor} : ∀ {ps : List DocExpr} {p : DocExpr}, Eval document (DocExpr.alts p ps) l k c none →
    ∀ e ∈ p :: ps, Eval document e l k c none
  | [], p, h, e, he => by
    rw [List.mem_singleton.1 he]
    exact h
  | q :: ps, p, h, e, he => by
    cases h with
    | altRight hp h =>
      rcases List.mem_cons.1 he with rfl | he
      · exact hp
      · exact Eval.alts_none h e he

theorem Eval.alts_some {c : Cursor} {m : Cursor × List (Parse Rule)} : ∀ {ps : List DocExpr} {p : DocExpr},
    Eval document (DocExpr.alts p ps) l k c (some m) → ∃ e ∈ p :: ps, Eval document e l k c (some m)
  | [], p, h => ⟨p, List.mem_cons_self, h⟩
  | q :: ps, p, h => by
    cases h with
    | altLeft h => exact ⟨p, List.mem_cons_self, h⟩
    | altRight _ h =>
      obtain ⟨e, he, h⟩ := Eval.alts_some h
      exact ⟨e, List.mem_cons_of_mem p he, h⟩

/-- Rules that match at the end of a line. -/
def looseRules : List Rule := [.program, .endOfInput, .elementContent, .text, .attributeContent, .attributeContentSingle]

/-- Rules that begin with raw text, which goes up to the end of the line: their first character may be any other. -/
def rawRules : List Rule :=
  [.declHead, .guardHead, .typeExpr, .returnType, .patternText, .forHead, .rawPiece, .rawStmt, .rawItem, .matchArm, .stmt]

/-- Before the end of a line. -/
def lineBarrier : Barrier where
  chars := ⟨fun x => x == '\n' || x == '\r', fun s => s.holds '\n' || s.holds '\r'⟩
  rules := Rule.all.filter fun r => decide (r ∉ rawRules ++ looseRules)
  closed := by decide +kernel

section AtLineEnd

variable {off : Nat} {x : Char} {rest : Text} {m : Cursor × List (Parse Rule)}

theorem settled_lineEnd (hx : x = '\n' ∨ x = '\r') : Settled ⟨off, x :: rest⟩ := by
  refine .of_char ?_
  rcases hx with rfl | rfl
  · decide
  · decide

theorem refused_at_lineEnd (hx : x = '\n' ∨ x = '\r') {e : DocExpr} (he : lineBarrier.refuses e = true) :
    ¬ Eval document e l k ⟨off, x :: rest⟩ (some m) := by
  intro h
  have hhas : lineBarrier.chars.Has x := by
    rcases hx with rfl | rfl
    · exact ⟨rfl, fun s hs => by simp [lineBarrier, hs]⟩
    · exact ⟨rfl, fun s hs => by simp [lineBarrier, hs]⟩
  cases h.unique (lineBarrier.fails he hhas (settled_lineEnd hx) l k)

theorem raw_at_lineEnd (hx : x = '\n' ∨ x = '\r') {stop : DocExpr} {stops : List DocExpr}
    (hstop : DocExpr.newline ∈ stop :: stops) : ∀ {pieces : List DocExpr},
    (∀ e ∈ pieces, lineBarrier.refuses e = true) →
    ¬ Eval document (pieces.foldr .alt (DocExpr.charBut (DocExpr.alts stop stops))) l k ⟨off, x :: rest⟩ (some m)
  | [], _, h => newline_none hx (h.charBut_some.alts_none _ hstop)
  | e :: pieces, hpieces, h => by
    cases h with
    | altLeft h => exact refused_at_lineEnd hx (hpieces e List.mem_cons_self) h
    | altRight _ h => exact raw_at_lineEnd hx hstop (fun e he => hpieces e (List.mem_cons_of_mem _ he)) h

theorem rawPiece_at_lineEnd (hx : x = '\n' ∨ x = '\r') :
    ¬ Eval document (.rule .rawPiece) l k ⟨off, x :: rest⟩ (some m) := by
  intro h
  generalize ho : some m = o at h
  cases h with
  | node hs => exact hs rfl
  | silent _ h =>
    subst ho
    have hpieces : ∀ e ∈ [DocExpr.lineComment, DocExpr.stringLine, .rule .rawBrace, .rule .rawParen, .rule .rawBracket,
        DocExpr.stringLiteral, DocExpr.charLiteral], lineBarrier.refuses e = true := by decide +kernel
    exact raw_at_lineEnd hx List.mem_cons_self hpieces h

theorem Eval.seq_first {p q : DocExpr} {c : Cursor} (h : Eval document (.seq p q) l k c (some m)) :
    ∃ m', Eval document p l k c (some m') := by
  obtain ⟨c₁, xs, _, _, _, hp, -⟩ := h.seq_parts
  exact ⟨(c₁, xs), hp⟩

theorem rawUpTo_at_lineEnd (hx : x = '\n' ∨ x = '\r') {pieces stops : List DocExpr} {stop : DocExpr}
    (hstop : DocExpr.newline ∈ stop :: stops) (hpieces : ∀ e ∈ pieces, lineBarrier.refuses e = true) :
    ¬ Eval document (DocExpr.rawUpTo pieces (DocExpr.alts stop stops)) l k ⟨off, x :: rest⟩ (some m) := by
  intro h
  obtain ⟨_, h⟩ := h.seq_first
  exact raw_at_lineEnd hx hstop hpieces h

theorem rawStatement_at_lineEnd (hx : x = '\n' ∨ x = '\r') :
    ¬ Eval document (.seq (.never DocExpr.tagStart) (.many1 (.rule .rawPiece))) l k ⟨off, x :: rest⟩ (some m) := by
  intro h
  obtain ⟨_, _, _, _, _, hnever, hs, hpieces, -⟩ := h.seq_parts
  cases hnever with
  | neverNone =>
    have hready : Ready l ⟨off, x :: rest⟩ := fun _ => settled_lineEnd hx
    cases hready.skip_eq hs
    obtain ⟨_, h⟩ := hpieces.seq_first
    exact rawPiece_at_lineEnd hx h

theorem patternText_at_lineEnd (hx : x = '\n' ∨ x = '\r') :
    ¬ Eval document (document.body .patternText) l k ⟨off, x :: rest⟩ (some m) :=
  rawUpTo_at_lineEnd hx (List.mem_cons_of_mem _ List.mem_cons_self) (by decide +kernel)

theorem rawRule_at_lineEnd (hx : x = '\n' ∨ x = '\r') {r : Rule} (hr : r ∈ rawRules) (hk : Kind.ofRule? r ≠ none) :
    ¬ Eval document (document.body r) l k ⟨off, x :: rest⟩ (some m) := by
  have hsecond : ∀ {p q : DocExpr} {ps : List DocExpr}, q ∈ p :: q :: ps :=
    fun {p _ _} => List.mem_cons_of_mem p List.mem_cons_self
  have hlast : ∀ {p : DocExpr}, DocExpr.newline ∈ [p, DocExpr.newline] := hsecond
  cases r with
  | declHead => exact rawUpTo_at_lineEnd hx hsecond (by decide +kernel)
  | guardHead => exact rawUpTo_at_lineEnd hx hsecond (by decide +kernel)
  | typeExpr => exact rawUpTo_at_lineEnd hx hlast (by decide)
  | returnType => exact rawUpTo_at_lineEnd hx hlast (by decide)
  | forHead => exact rawUpTo_at_lineEnd hx hlast (by decide +kernel)
  | patternText => exact patternText_at_lineEnd hx
  | rawStmt => exact rawStatement_at_lineEnd hx
  | rawItem => exact rawStatement_at_lineEnd hx
  | matchArm =>
    intro h
    obtain ⟨m', h⟩ := h.seq_first
    generalize ho : some m' = o at h
    cases h with
    | silent hs => cases hs
    | node _ h =>
      obtain ⟨m'', rfl, -⟩ := Option.map_eq_some_iff.1 ho.symm
      exact patternText_at_lineEnd hx h
  | rawPiece => exact absurd rfl hk
  | stmt => exact absurd rfl hk
  | _ => simp [rawRules] at hr

end AtLineEnd

/-- **At the end of a line no node begins** but text and the whole document. -/
theorem Matched.not_endsLine {source : Text} {r : Rule} {start stop : Nat} {inner : List (Parse Rule)}
    (h : Matched source (.node r start stop inner)) (hk : Kind.ofRule? r ≠ none) (hr : r ∉ looseRules) {pre rest : Text}
    (hsrc : source = pre ++ rest) (hpre : bytes pre = start) : ¬ rest.EndsLine := by
  intro hends
  cases h with
  | @node _ l c c' _ place named left body below =>
    obtain ⟨pre', hsrc', hpre'⟩ := place
    obtain ⟨rfl, rfl⟩ := Text.append_inj_bytes (hsrc.symm.trans hsrc') (hpre.trans hpre'.symm)
    obtain ⟨off, rest⟩ := c
    cases rest with
    | nil =>
      obtain ⟨u, hu, hempty⟩ := body.past document_bounded.empty _ rfl
      have hu : u = [] := (List.append_eq_nil_iff.1 hu.rest.symm).1
      have hloose : ∀ r ∈ Rule.all, r.mayBeEmpty = true → r ∈ looseRules := by decide
      exact hr (hloose r r.mem_all (document_bounded.empty r (hempty hu)))
    | cons x rest =>
      have hx := hends x rfl
      by_cases hraw : r ∈ rawRules
      · exact rawRule_at_lineEnd hx hraw hk body
      · have hrefused : ∀ r ∈ Rule.all, r ∉ rawRules → r ∉ looseRules → lineBarrier.refuses (.rule r) = true := by
          decide +kernel
        exact refused_at_lineEnd hx (hrefused r r.mem_all hraw hr) (.node named body)

theorem Matched.lt {source : Text} {r : Rule} {start stop : Nat} {inner : List (Parse Rule)}
    (h : Matched source (.node r start stop inner)) (hr : r.mayBeEmpty = false) : start < stop := by
  cases h with
  | @node _ l c c' _ place named left body below =>
    obtain ⟨u, hu, hempty⟩ := body.past document_bounded.empty _ rfl
    have hu' : u ≠ [] := fun hnil => by
      rw [document_bounded.empty r (hempty hnil)] at hr
      cases hr
    have := Text.bytes_pos hu'
    rw [hu.offset]
    omega

/-- **A comment goes to the end of its line.** -/
theorem Matched.comment_ends {source : Text} {start stop : Nat} {inner : List (Parse Rule)}
    (h : Matched source (.node .comment start stop inner)) : ∃ pre u rest, source = pre ++ (u ++ rest) ∧ bytes pre = start ∧
      bytes pre + bytes u = stop ∧ u.head? = some '/' ∧ rest.EndsLine := by
  cases h with
  | @node _ l c c' _ place named left body below =>
    obtain ⟨pre, hsrc, hpre⟩ := place
    obtain ⟨u, hu, hempty⟩ := body.past document_bounded.empty _ rfl
    have hl : (document.style .comment).inside l ≠ .spaced := nofun
    obtain ⟨_, _, _, _, _, hslashes, -, hline, -⟩ := body.seq_parts
    refine ⟨pre, u, c'.rest, by rw [hsrc, hu.rest], hpre, by rw [hpre, hu.offset], ?_, hline.restOfLine_ends hl⟩
    cases u with
    | nil => cases hempty rfl
    | cons x u =>
      have hrest : x :: u ++ c'.rest = ['/', '/'] ++ _ := hu.rest.symm.trans (Cursor.Past.word hslashes.word_some).rest
      rw [(List.cons.inj hrest).1]
      rfl

end Grammar

open Grammar InlineMarkup.Tree

variable {doc : Document} {c : Cst}

theorem span_finished_of_keeps {source : Text} {k : Kind} (hk : k.keepsTrailingBlanks = true) (s : Span) (cs : List Tree) :
    ((Tree.node k s cs).finished source).span = s := by
  rw [finished_node]
  show trimSpan source k s _ = s
  rw [trimSpan, if_pos hk]

/-- A leaf that takes the rest of its line, from a character that is not blank. -/
structure Tree.TakesLine (source : Text) (u : Tree) : Prop where
  kind : u.kind = .comment ∨ u.kind = .literal
  place : ∃ pre x v rest, source = pre ++ (x :: v ++ rest) ∧ u.span = ⟨bytes pre, bytes pre + bytes (x :: v)⟩ ∧
    isBlank x = false ∧ Text.EndsLine rest

theorem Tree.TakesLine.solid {source : Text} {u : Tree} (h : u.TakesLine source) : u.span.start < u.span.stop := by
  obtain ⟨pre, x, v, rest, -, hspan, -, -⟩ := h.place
  rw [hspan]
  exact Nat.lt_add_of_pos_right (Text.bytes_pos (List.cons_ne_nil x v))

theorem parse_comment (h : doc.parse = .ok c) {t : Tree} (ht : t ∈ c.tree.nodes) (hk : t.kind = .comment) :
    t.TakesLine doc.text := by
  refine ⟨.inl hk, ?_⟩
  rcases parse_origin h ht with htoken | ⟨r, start, stop, inner, k, hm, hr, rfl⟩
  · rw [htoken.kind] at hk
    cases hk
  · obtain rfl : k = .comment := (kind_finished _).symm.trans hk
    have hrule : ∀ r ∈ Rule.all, Kind.ofRule? r = some .comment → r = .comment := by decide
    obtain rfl := hrule r r.mem_all hr
    obtain ⟨pre, u, rest, hsrc, hpre, hstop, hu, hrest⟩ := hm.comment_ends
    obtain ⟨v, rfl⟩ := List.head?_eq_some_iff.1 hu
    exact ⟨pre, '/', v, rest, hsrc, by rw [span_finished_of_keeps rfl, hpre, ← hstop, hpre], by decide, hrest⟩

/-- **At the end of a line nothing is empty** but the content of a value and the whole document. -/
theorem parse_empty (h : doc.parse = .ok c) {t : Tree} (ht : t ∈ c.tree.nodes) (hempty : t.span.stop ≤ t.span.start)
    {pre rest : Text} (hsrc : doc.text = pre ++ rest) (hpre : bytes pre = t.span.start) (hrest : rest.EndsLine) :
    t.kind = .attributeContent ∨ t.kind = .program := by
  rcases parse_origin h ht with htoken | ⟨r, start, stop, inner, k, hm, hr, rfl⟩
  · have := htoken.solid
    omega
  · rw [kind_finished]
    show k = _ ∨ k = _
    rw [start_finished] at hpre
    by_cases hloose : r ∈ looseRules
    · simp only [looseRules, List.mem_cons, List.not_mem_nil, or_false] at hloose
      rcases hloose with rfl | rfl | rfl | rfl | rfl | rfl
      · exact .inr (Option.some.inj hr).symm
      · cases hr
      · cases hr
      · obtain rfl : Kind.text = k := Option.some.inj hr
        rw [span_finished_of_keeps rfl] at hempty
        exact absurd (hm.lt rfl) (Nat.not_lt.2 hempty)
      · exact .inl (Option.some.inj hr).symm
      · exact .inl (Option.some.inj hr).symm
    · exact absurd hrest (hm.not_endsLine (by rw [hr]; exact Option.some_ne_none _) hloose hsrc hpre)

/-! ## What stands beside a node -/

theorem Grammar.Matched.quoted {source : Text} {start stop : Nat} {inner : List (Parse Rule)}
    (h : Matched source (.node .attributeValue start stop inner)) :
    ∃ q, inner = [q] ∧ Kind.ofRule? q.rule = some .attributeContent := by
  cases h with
  | @node _ l c c' _ place named left body below =>
    have hquoted : ∀ {r : Rule} {w v : Text}, document.style r ≠ .silent → Kind.ofRule? r = some .attributeContent →
        Eval document (.seq (.word w) (.seq (.rule r) (.word v))) .compact .here c (some (c', inner)) →
        ∃ q, inner = [q] ∧ Kind.ofRule? q.rule = some .attributeContent := by
      intro r w v hs hr h
      obtain ⟨_, xs, _, ys, zs, hopen, hskip, hrest, htrees⟩ := h.seq_parts
      obtain ⟨_, xs', _, ys', zs', hcontent, hskip', hclose, hzs⟩ := hrest.seq_parts
      obtain ⟨_, -, hxs⟩ := Option.map_eq_some_iff.1 (hopen.unique .word).symm
      obtain ⟨_, -, hzs'⟩ := Option.map_eq_some_iff.1 (hclose.unique .word).symm
      cases hskip.skip_eq (by decide)
      cases hskip'.skip_eq (by decide)
      cases hxs
      cases hzs'
      obtain ⟨inner', hinner, -⟩ := hcontent.rule_parts hs (by decide)
      rw [htrees, hzs, hinner]
      exact ⟨_, rfl, hr⟩
    cases body with
    | altLeft h => exact hquoted (by decide) rfl h
    | altRight _ h => exact hquoted (by decide) rfl h

/-- Only these rules call the rules `xs`, themselves or through rules that stand for their alternatives. -/
def Grammar.OnlyCalledBy (xs callers : List Rule) : Prop :=
  document.layout.made (fun _ => true) (fun s => s.inTree && decide (s ∉ xs)) = true ∧ ∀ r ∈ Rule.all,
    ((r.inTree && decide (r ∉ xs)) = true ∧ document.style r = .silent ∨ r.isInner = true ∧ r ∉ callers) →
      (document.body r).made (fun _ => true) (fun s => s.inTree && decide (s ∉ xs)) = true

instance Grammar.OnlyCalledBy.decidable (xs callers : List Rule) : Decidable (OnlyCalledBy xs callers) :=
  inferInstanceAs (Decidable (_ ∧ _))

theorem Grammar.Matched.caller {xs callers : List Rule} (hxs : OnlyCalledBy xs callers) {source : Text} {r : Rule}
    {start stop : Nat} {inner : List (Parse Rule)} (h : Matched source (.node r start stop inner)) (hr : r.isInner = true)
    {q : Parse Rule} (hq : q ∈ inner) (hqx : q.rule ∈ xs) : r ∈ callers := by
  by_contra hne
  have hcalled := h.rules hxs.1 (fun s hs hsilent => hxs.2 s s.mem_all (.inl ⟨hs, hsilent⟩)) (r.style_of_isInner hr)
    (hxs.2 r r.mem_all (.inr ⟨hr, hne⟩)) q hq
  simp [hqx] at hcalled

theorem parse_child (h : doc.parse = .ok c) {t : Tree} (ht : t ∈ c.tree.nodes) {d : Tree} (hd : d ∈ t.children) :
    d.kind = .token ∨ ∃ r start stop inner q, Matched doc.text (.node r start stop inner) ∧ Kind.ofRule? r = some t.kind ∧
      r.isInner = true ∧ q ∈ inner ∧ Kind.ofRule? q.rule = some d.kind := by
  rcases parse_origin h ht with htoken | ⟨r, start, stop, inner, k, hm, hr, rfl⟩
  · rw [htoken.children] at hd
    cases hd
  · rcases mem_children_finished hd with htoken | hmem
    · exact .inl htoken.kind
    obtain ⟨d', hd', rfl⟩ := List.mem_map.1 hmem
    rw [Tree.children] at hd'
    split at hd'
    · cases hd'
    · next hl =>
      obtain ⟨⟨s, _, _, _⟩, hq, hdq⟩ := mem_namedAll.1 hd'
      obtain ⟨k', hk', rfl⟩ := mem_named.1 hdq
      refine .inr ⟨r, start, stop, inner, _, hm, ?_, ?_, hq, ?_⟩
      · rw [kind_finished]
        exact hr
      · rw [Rule.isInner, hr, Option.map_some, Bool.eq_false_iff.2 hl]
        rfl
      · rw [kind_finished]
        exact hk'

theorem parse_quoted (h : doc.parse = .ok c) {t : Tree} (ht : t ∈ c.tree.nodes) (hk : t.kind = .attributeValue) :
    ∀ d ∈ t.children, d.kind = .token ∨ d.kind = .attributeContent := by
  intro d hd
  rcases parse_child h ht hd with htoken | ⟨r, start, stop, inner, q, hm, hr, -, hq, hqk⟩
  · exact .inl htoken
  · rw [hk] at hr
    obtain rfl := rule_of_kind (s := .attributeValue) (by decide) hr
    obtain ⟨p, rfl, hp⟩ := hm.quoted
    rw [List.mem_singleton.1 hq, hp] at hqk
    exact .inr (Option.some.inj hqk).symm

theorem parse_content (h : doc.parse = .ok c) {t : Tree} (ht : t ∈ c.tree.nodes) {d : Tree} (hd : d ∈ t.children)
    (hk : d.kind = .attributeContent) : t.kind = .attributeValue := by
  rcases parse_child h ht hd with htoken | ⟨r, start, stop, inner, q, hm, hr, hinner, hq, hqk⟩
  · rw [htoken] at hk
    cases hk
  · have hcalled : OnlyCalledBy [.attributeContent, .attributeContentSingle] [.attributeValue] := by decide
    have hcontent : ∀ s ∈ Rule.all, Kind.ofRule? s = some .attributeContent →
      s ∈ [Rule.attributeContent, .attributeContentSingle] := by decide
    rw [hk] at hqk
    obtain rfl := List.mem_singleton.1 (hm.caller hcalled hinner hq (hcontent _ q.rule.mem_all hqk))
    exact (Option.some.inj hr).symm

/-! ## Code outside of markup -/

/-- What stands in elements, in their tags and in attributes; the code in braces is no part of them. -/
def Kind.inMarkup : Kind → Bool
  | .elementOpening | .elementSelfClosing | .elementClosing | .tagName | .attribute | .attributeName | .attributeValue
  | .attributeContent | .interpolation | .text | .markupComment => true
  | _ => false

/-- **Parts of markup stand in markup.** -/
theorem parse_outside (h : doc.parse = .ok c) {t : Tree} (ht : t ∈ c.tree.nodes) (hk : t.kind.inMarkup = false)
    (he : t.kind ≠ .element) {d : Tree} (hd : d ∈ t.children) : d.kind.inMarkup = false := by
  rcases parse_child h ht hd with htoken | ⟨r, start, stop, inner, q, hm, hr, hinner, hq, hqk⟩
  · rw [htoken]
    rfl
  · refine Bool.eq_false_iff.2 fun hdk => ?_
    let parts := Rule.all.filter fun s => (Kind.ofRule? s).any Kind.inMarkup
    have hcalled : OnlyCalledBy (.elementContent :: parts) (.element :: parts) := by decide
    have hqr : q.rule ∈ parts := List.mem_filter.2 ⟨q.rule.mem_all, by rw [hqk]; exact hdk⟩
    rcases List.mem_cons.1 (hm.caller hcalled hinner hq (List.mem_cons_of_mem _ hqr)) with rfl | hrp
    · exact he (Option.some.inj hr).symm
    · have hrk := (List.mem_filter.1 hrp).2
      rw [hr, Option.any_some, hk] at hrk
      cases hrk

/-- **At the end of a line nothing begins** outside of markup. -/
theorem parse_begins (h : doc.parse = .ok c) {t : Tree} (ht : t ∈ c.tree.nodes) (hk : t.kind.inMarkup = false)
    (hprogram : t.kind ≠ .program) {pre rest : Text} (hsrc : doc.text = pre ++ rest) (hpre : bytes pre = t.span.start) :
    ¬ rest.EndsLine := by
  rcases parse_origin h ht with htoken | ⟨r, start, stop, inner, k, hm, hr, rfl⟩
  · intro hends
    obtain ⟨a, x, v, b, hsrc', hs, hx⟩ := htoken.run
    have ha : bytes pre = bytes a := by rw [hpre, hs]; exact Nat.zero_add _
    obtain ⟨-, rfl⟩ := Text.append_inj_bytes (hsrc.symm.trans hsrc') ha
    rcases hends x rfl with rfl | rfl
    · revert hx; decide
    · revert hx; decide
  · rw [kind_finished] at hk hprogram
    rw [start_finished] at hpre
    have hloose : ∀ r ∈ looseRules, ∀ k, Kind.ofRule? r = some k → k.inMarkup = true ∨ k = .program := by
      intro r hr k hk
      simp only [looseRules, List.mem_cons, List.not_mem_nil, or_false] at hr
      rcases hr with rfl | rfl | rfl | rfl | rfl | rfl <;> cases hk <;> simp [Kind.inMarkup]
    refine hm.not_endsLine (by rw [hr]; exact Option.some_ne_none _) (fun hmem => ?_) hsrc hpre
    rcases hloose r hmem k hr with hin | hin
    · exact Bool.false_ne_true (hk.symm.trans hin)
    · exact hprogram hin

end InlineMarkup
