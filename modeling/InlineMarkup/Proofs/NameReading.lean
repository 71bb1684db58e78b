import InlineMarkup.Proofs.Reading
/-!
# Proofs.NameReading — how names are read

A word goes up to the first character that belongs to no name (`EndsName`), so a reserved word is found only where the
whole word is that one (`words_none`).  An identifier with a `NameEnd` behind it is read as an expression of its own
(`reads_primary`): none of the expressions that begin with a word matches there.
-/
namespace InlineMarkup

open Text (bytes)

/-- A node that is a single piece of text. -/
def Markup.leaf (k : Kind) (off : Nat) (t : Text) : Tree := .node k ⟨off, off + bytes t⟩ []

namespace Grammar

open Markup

/-- The characters that hold, and no digit among them. -/
def CharClass.ofPred (f : Char → Bool) : CharClass := ⟨f, (· != .digit)⟩

theorem CharClass.ofPred_has {f : Char → Bool} {x : Char} (hx : f x = true) (hd : x.isDigit = false) :
    (CharClass.ofPred f).Has x := by
  refine ⟨hx, fun s hs => ?_⟩
  cases s with
  | digit => rw [CharSet.holds, hd] at hs; cases hs
  | _ => rfl

/-- Before a name. -/
def nameBarrier : Barrier where
  chars := .ofPred isNameStart
  rules :=
    [.prefixOp, .element, .selfClosingTag, .openingTag, .parenExpr, .tupleExpr, .arrayExpr, .recordExpr, .block,
      .markupComment, .rawParen, .lambdaParams]
  closed := by decide +kernel

theorem isDigit_of_start {x : Char} (hx : isAttributeStart x = true) : x.isDigit = false := by
  simp only [isAttributeStart, isNameStart, Bool.or_eq_true, beq_iff_eq] at hx
  rcases hx with ((hx | rfl) | rfl) | rfl
  · refine Bool.eq_false_iff.2 fun hd => ?_
    have hletter : (decide (x.val ≥ 'A'.val ∧ x.val ≤ 'Z'.val) || (x.val ≥ 'a'.val && x.val ≤ 'z'.val)) = true := hx
    have hdigit : (x.val ≥ '0'.val && x.val ≤ '9'.val) = true := hd
    simp only [Bool.or_eq_true, Bool.and_eq_true, decide_eq_true_eq, UInt32.le_iff_toNat_le, ge_iff_le] at hletter hdigit
    have hA : 'A'.val.toNat = 65 := rfl
    have ha : 'a'.val.toNat = 97 := rfl
    have h9 : '9'.val.toNat = 57 := rfl
    omega
  all_goals decide

theorem not_layout_of_start {x : Char} (hx : isAttributeStart x = true) : x ∉ [' ', '\t', '/'] := by
  intro h
  simp only [List.mem_cons, List.not_mem_nil, or_false] at h
  rcases h with rfl | rfl | rfl <;> cases hx

theorem isAttributeStart_of_isNameStart {x : Char} (h : isNameStart x = true) : isAttributeStart x = true := by
  simp [isAttributeStart, h]

theorem isNameChar_of_isNameStart {x : Char} (h : isNameStart x = true) : isNameChar x = true := by
  simp only [isNameStart, isNameChar, Char.isAlphanum, Bool.or_eq_true] at h ⊢
  exact h.imp_left .inl

/-! ## Words -/

/-- What follows does not go on with a name. -/
def EndsName (rest : Text) : Prop := ∀ c, rest.head? = some c → isNameChar c = false

theorem EndsName.of_char {x : Char} {rest : Text} (hx : isNameChar x = false) : EndsName (x :: rest) := by
  rintro _ ⟨⟩
  exact hx

theorem chars_identChar : DocExpr.identChar.chars? = some isNameChar := rfl

theorem isWord_head {f g : Char → Bool} {u : Text} (h : isWord f g u = true) : ∃ x v, u = x :: v ∧ f x = true := by
  cases u with
  | nil => cases h
  | cons x v => exact ⟨x, v, rfl, (Bool.and_eq_true_iff.1 h).1⟩

theorem isWord_chars {u : Text} (h : isWord isNameStart isNameChar u = true) : ∀ c ∈ u, isNameChar c = true := by
  cases u with
  | nil => cases h
  | cons x v =>
    obtain ⟨hx, hall⟩ := Bool.and_eq_true_iff.1 h
    exact List.forall_mem_cons.2 ⟨isNameChar_of_isNameStart hx, List.all_eq_true.1 hall⟩

theorem Identifier.word (x : Identifier) : isWord isNameStart isNameChar x.1 = true := (Bool.and_eq_true_iff.1 x.2).1

theorem takeWhile_eq {f : Char → Bool} {u rest : Text} (hu : ∀ c ∈ u, f c = true)
    (hrest : ∀ c, rest.head? = some c → f c = false) : (u ++ rest).takeWhile f = u := by
  rw [List.takeWhile_append_of_pos hu]
  cases rest with
  | nil => simp
  | cons c rest => simp [hrest c rfl]

theorem words_total (l : Layout) (k : Look) (c : Cursor) : ∀ (ws : List String) (w : String),
    ∃ o, Eval document (DocExpr.words w ws) l k c o
  | [], w => ⟨_, .word⟩
  | v :: ws, w => by
    obtain ⟨o, ho⟩ := words_total l k c ws v
    cases hw : c.word? w.toList with
    | none => exact ⟨o, .altRight (.of_word_none hw) ho⟩
    | some c' =>
      have hword := Eval.word (G := document) (w := w.toList) (l := l) (k := k) (c := c)
      rw [hw] at hword
      exact ⟨_, .altLeft hword⟩

theorem words_some {l : Layout} {k : Look} {c c' : Cursor} {xs : List (Parse Rule)} : ∀ {ws : List String} {w : String},
    Eval document (DocExpr.words w ws) l k c (some (c', xs)) → ∃ v ∈ w :: ws, c.word? v.toList = some c'
  | [], w, h => ⟨w, List.mem_cons_self, h.word_some⟩
  | v :: ws, w, h => by
    cases h with
    | altLeft h => exact ⟨w, List.mem_cons_self, h.word_some⟩
    | altRight _ h =>
      obtain ⟨u, hu, hc⟩ := words_some h
      exact ⟨u, List.mem_cons_of_mem _ hu, hc⟩

/-- **A word that is no beginning of another is found.** -/
theorem words_found {l : Layout} {k : Look} {off : Nat} {rest : Text} {v : String} : ∀ {ws : List String} {w : String},
    (∀ a ∈ w :: ws, a.toList <+: v.toList ∨ v.toList <+: a.toList → a = v) → v ∈ w :: ws →
    Eval document (DocExpr.words w ws) l k ⟨off, v.toList ++ rest⟩ (some (⟨off + bytes v.toList, rest⟩, []))
  | [], w, _, hv => by
    rw [List.mem_singleton.1 hv]
    exact .of_word _ _ _ _ _
  | w' :: ws, w, hapart, hv => by
    by_cases hw : w = v
    · rw [hw]
      exact .altLeft (.of_word _ _ _ _ _)
    · have hnone : (Cursor.mk off (v.toList ++ rest)).word? w.toList = none := by
        cases hc : (Cursor.mk off (v.toList ++ rest)).word? w.toList with
        | none => rfl
        | some c' =>
          have hw' : w.toList <+: v.toList ++ rest := ⟨_, (Cursor.Past.word hc).rest.symm⟩
          exact absurd (hapart w List.mem_cons_self (List.prefix_or_prefix_of_prefix hw' (List.prefix_append _ _))) hw
      exact .altRight (.of_word_none hnone)
        (words_found (fun a ha => hapart a (List.mem_cons_of_mem _ ha)) ((List.mem_cons.1 hv).resolve_left (Ne.symm hw)))

theorem reservedWords_chars : ∀ v ∈ reservedWords, v.all isNameChar = true := by decide

/-- **Where a word stands, no other does.** -/
theorem words_none {u rest : Text} (hu : ∀ c ∈ u, isNameChar c = true) (hrest : EndsName rest) {w : String}
    {ws : List String} (hws : ∀ v ∈ w :: ws, v.toList ∈ reservedWords) (hne : ∀ v ∈ w :: ws, u ≠ v.toList) (k : Look)
    (off : Nat) : Eval document (.seq (DocExpr.words w ws) DocExpr.wordEnd) .token k ⟨off, u ++ rest⟩ none := by
  obtain ⟨o, ho⟩ := words_total .token k ⟨off, u ++ rest⟩ ws w
  cases o with
  | none => exact .seqFail ho
  | some m =>
    obtain ⟨c', xs⟩ := m
    obtain ⟨v, hv, hc⟩ := words_some ho
    have hchar := Eval.chars (l := .token) (by decide) _ chars_identChar k.enterNever c'
    cases hnext : c'.take? isNameChar with
    | some c'' =>
      rw [hnext] at hchar
      exact .seq ho .word (.neverSome hchar)
    | none =>
      -- with nothing of a name behind it, the word is all of `u`
      have huv : u = v.toList := by
        rw [← takeWhile_eq hu hrest,
          ← takeWhile_eq (List.all_eq_true.1 (reservedWords_chars _ (hws v hv))) (take?_eq_none.1 hnext)]
        exact congrArg _ (Cursor.Past.word hc).rest
      exact absurd huv (hne v hv)

theorem wordEnd_found {rest : Text} (hrest : EndsName rest) (k : Look) (off : Nat) :
    Eval document DocExpr.wordEnd .token k ⟨off, rest⟩ (some (⟨off, rest⟩, [])) := by
  refine .neverNone (.chars_none (by decide) chars_identChar ?_ _)
  exact hrest

theorem wordsEnd_found {w v : String} {ws : List String}
    (hapart : ∀ a ∈ w :: ws, a.toList <+: v.toList ∨ v.toList <+: a.toList → a = v) (hv : v ∈ w :: ws) {rest : Text}
    (hrest : EndsName rest) (k : Look) (off : Nat) :
    Eval document (.seq (DocExpr.words w ws) DocExpr.wordEnd) .token k ⟨off, v.toList ++ rest⟩
      (some (⟨off + bytes v.toList, rest⟩, [])) := by
  have hskip : Eval document (document.skip .token) .compact k ⟨off + bytes v.toList, rest⟩
      (some (⟨off + bytes v.toList, rest⟩, [])) := .word
  exact .seq (words_found hapart hv) hskip (wordEnd_found hrest k _)

theorem reads_keyword (w : Keyword) {l : Layout} (hl : l ≠ .token) {rest : Text} (hrest : EndsName rest) (off : Nat) :
    Reads (.rule (.kw w)) l ⟨off, w.spelling.toList ++ rest⟩ ⟨off + bytes w.spelling.toList, rest⟩
      [leaf .keyword off w.spelling.toList] := by
  have hstyle : document.style (.kw w) = .token := rfl
  have hbody : Reads (.seq (.word w.spelling.toList) DocExpr.wordEnd) .token ⟨off, w.spelling.toList ++ rest⟩
      ⟨off + bytes w.spelling.toList, rest⟩ [] :=
    (Reads.word _ _ _ _).seq (.here (.of_ne (by decide))) ⟨[], wordEnd_found hrest .here _, rfl⟩
  exact .rule (by rw [hstyle]; decide) hl hbody

section Word

variable {u : Text} (hu : isWord isNameStart isNameChar u = true) {l : Layout} {k : Look} {off : Nat} {rest : Text}

include hu

theorem settled_word : Settled ⟨off, u ++ rest⟩ := by
  obtain ⟨c, v, rfl, hc⟩ := isWord_head hu
  exact .of_char (not_layout_of_start (isAttributeStart_of_isNameStart hc))

theorem at_word {e : Expr Rule} (he : nameBarrier.refuses e = true) : Eval document e l k ⟨off, u ++ rest⟩ none := by
  have hsettled : Settled ⟨off, u ++ rest⟩ := settled_word hu
  obtain ⟨c, v, rfl, hc⟩ := isWord_head hu
  exact nameBarrier.fails he (CharClass.ofPred_has hc (isDigit_of_start (isAttributeStart_of_isNameStart hc))) hsettled l k

theorem reads_identWord (hl : l ≠ .spaced) (hrest : EndsName rest) :
    Reads DocExpr.identWord l ⟨off, u ++ rest⟩ ⟨off + bytes u, rest⟩ [] :=
  .ofWord hl rfl chars_identChar hu hrest off

theorem keyword_none (w : Keyword) (hw : u ≠ w.spelling.toList) (hrest : EndsName rest) :
    Eval document (.rule (.kw w)) l k ⟨off, u ++ rest⟩ none := by
  have hmem : ∀ v ∈ [w.spelling], v.toList ∈ reservedWords := by cases w <;> decide
  exact .rule_none (words_none (isWord_chars hu) hrest hmem (List.forall_mem_singleton.2 hw) k off)

theorem literal_none (htruth : u ∉ ["true".toList, "false".toList]) (hrest : EndsName rest) :
    Eval document (.rule .literal) l k ⟨off, u ++ rest⟩ none := by
  have hvalue : Eval document DocExpr.truthValue .token k ⟨off, u ++ rest⟩ none :=
    words_none (isWord_chars hu) hrest (by decide) (by simpa using htruth) k off
  exact .rule_none (.altRight (at_word hu (by decide +kernel)) (.altRight (at_word hu (by decide +kernel))
    (.altRight (at_word hu (by decide +kernel)) (.altRight (at_word hu (by decide +kernel)) hvalue))))

end Word

/-! ## Identifiers -/

/-- What may stand behind a name of its own: it does not go on with the name, qualify it or make it the parameter of a
function, and it is no layout. -/
structure NameEnd (rest : Text) : Prop where
  ends : EndsName rest
  settled (off : Nat) : Settled ⟨off, rest⟩
  arrow (off : Nat) : (Cursor.mk off rest).word? ['=', '>'] = none
  colons (off : Nat) : (Cursor.mk off rest).word? [':', ':'] = none

theorem NameEnd.of_char {x : Char} {rest : Text} (hx : isNameChar x = false) (hother : x ∉ [' ', '\t', '/', '=', ':']) :
    NameEnd (x :: rest) := by
  simp only [List.mem_cons, List.not_mem_nil, or_false, not_or] at hother
  obtain ⟨hspace, htab, hslash, heq, hcolon⟩ := hother
  exact ⟨.of_char hx, fun _ => .of_char (by simp [hspace, htab, hslash]), fun _ => word?_of_ne (Ne.symm heq),
    fun _ => word?_of_ne (Ne.symm hcolon)⟩

/-- The reserved words, as the grammar lists them. -/
def reservedList : List String :=
  ["else", "match", "for", "while", "fn", "let", "mut", "return", "raise", "break", "continue", "true", "false", "guard",
    "loop", "try", "catch", "noraise"]

theorem reserved_mem : ∀ v ∈ "if" :: reservedList, v.toList ∈ reservedWords := by decide

theorem reserved_apart : ∀ v ∈ "if" :: reservedList, ∀ w ∈ "if" :: reservedList,
    w.toList <+: v.toList ∨ v.toList <+: w.toList → w = v := by decide +kernel

theorem exists_reserved : ∀ u ∈ reservedWords, ∃ v ∈ "if" :: reservedList, v.toList = u := by decide

theorem identifier_none {u : Text} (hu : u ∈ reservedWords) {rest : Text} (hrest : EndsName rest) {l : Layout} {off : Nat} :
    Eval document (.rule .identifier) l .here ⟨off, u ++ rest⟩ none := by
  obtain ⟨v, hv, rfl⟩ := exists_reserved u hu
  exact .rule_none (.seqFail (.neverSome (wordsEnd_found (reserved_apart v hv) hv hrest .never off)))

section Name

variable (x : Identifier) {l : Layout} {off : Nat} {rest : Text}

theorem Identifier.ne_reserved {v : Text} (hv : v ∈ reservedWords) : x.1 ≠ v := by
  rintro rfl
  exact of_decide_eq_true (Bool.and_eq_true_iff.1 x.2).2 hv

theorem reads_identifier (hl : l ≠ .token) (hrest : EndsName rest) : Reads (.rule .identifier) l ⟨off, x.1 ++ rest⟩
    ⟨off + bytes x.1, rest⟩ [leaf .identifier off x.1] := by
  have hreserved : Eval document DocExpr.reserved .token .never ⟨off, x.1 ++ rest⟩ none :=
    words_none (isWord_chars (Identifier.word x)) hrest reserved_mem
      (fun v hv => Identifier.ne_reserved x (reserved_mem v hv)) .never off
  exact .rule (by decide) hl
    ((Reads.never hreserved).seq (.here (.of_ne (by decide))) (reads_identWord (Identifier.word x) (by decide) hrest))

/-- The expressions that begin with a word of their own. -/
def keywordRules : List Rule :=
  [.ifExpr, .matchExpr, .forExpr, .whileExpr, .loopExpr, .tryExpr, .lambda, .matchLambda]

/-- The expressions that begin with a bracket. -/
def bracketRules : List Rule := [.parenExpr, .tupleExpr, .arrayExpr, .recordExpr, .block]

theorem keywordRule_none (hrest : EndsName rest) {k : Look} {r : Rule} (hr : r ∈ keywordRules) :
    Eval document (.rule r) l k ⟨off, x.1 ++ rest⟩ none := by
  have hkeyword : ∀ {l} (w : Keyword), Eval document (.rule (.kw w)) l k ⟨off, x.1 ++ rest⟩ none := fun w =>
    keyword_none (Identifier.word x) w (Identifier.ne_reserved x (by cases w <;> decide)) hrest
  simp only [keywordRules, List.mem_cons, List.not_mem_nil, or_false] at hr
  rcases hr with rfl | rfl | rfl | rfl | rfl | rfl | rfl | rfl <;>
    exact .rule_none (.seqFail (hkeyword _))

theorem arrowFn_none (hrest : NameEnd rest) : Eval document (.rule .arrowFn) .spaced .here ⟨off, x.1 ++ rest⟩ none :=
  .rule_none ((Reads.left (reads_identifier x (by decide) hrest.ends)).seq_none (.settled (hrest.settled _))
    (.seqFail (.of_word_none (hrest.arrow _))))

theorem qualifiedName_none (hrest : NameEnd rest) :
    Eval document (.rule .qualifiedName) l .here ⟨off, x.1 ++ rest⟩ none :=
  .rule_none (.altRight (at_word (Identifier.word x) (by decide +kernel))
    ((reads_identWord (Identifier.word x) (l := .token) (by decide) hrest.ends).seq_none (.settled (hrest.settled _))
      (.seqFail (.seqFail (.of_word_none (hrest.colons _))))))

/-- **An identifier is read as an expression.** -/
theorem reads_primary (hrest : NameEnd rest) : Reads (.rule .primary) .spaced ⟨off, x.1 ++ rest⟩ ⟨off + bytes x.1, rest⟩
    [leaf .identifier off x.1] := by
  refine .silent rfl (Reads.alts (q := .rule .identifier) ((.rule .element :: .rule .literal ::
    keywordRules.map .rule) ++ (.rule .arrowFn :: (bracketRules.map .rule ++ [.rule .qualifiedName]))) rfl ?_
    (reads_identifier x (by decide) hrest.ends))
  intro e he
  simp only [List.mem_append, List.mem_cons, List.mem_map, List.not_mem_nil, or_false] at he
  rcases he with (rfl | rfl | ⟨r, hr, rfl⟩) | rfl | ⟨r, hr, rfl⟩ | rfl
  · exact at_word (Identifier.word x) (by decide)
  · refine literal_none (Identifier.word x) (fun hmem => ?_) hrest.ends
    exact Identifier.ne_reserved x ((by decide : ∀ v ∈ ["true".toList, "false".toList], v ∈ reservedWords) _ hmem) rfl
  · exact keywordRule_none x hrest.ends hr
  · exact arrowFn_none x hrest
  · exact at_word (Identifier.word x) ((by decide : ∀ r ∈ bracketRules, nameBarrier.refuses (.rule r) = true) r hr)
  · exact qualifiedName_none x hrest

end Name

end Grammar
end InlineMarkup
