import InlineMarkup.Proofs.NameReading
/-!
# Proofs.CallReading — how calls of names are read

A call target is a name and accesses to fields behind it (`IsCallTarget`).  With arguments behind it, it is read as one
expression: the name, a field for each access or for several numbers in a row, and the arguments (`reads_call`).
-/
namespace InlineMarkup

open Text (bytes)
open Markup Grammar

/-! ## Call targets -/

namespace CallTarget

/-- A letter or an underscore, and what else a name may hold. -/
abbrev IsWord (t : Text) : Prop := isWord isNameStart isNameChar t = true

/-- Words, each behind the same separator. -/
def behind (sep : Text) (ws : List Text) : Text := ws.flatMap (sep ++ ·)

/-- A name: one word that is not reserved, several with colons between them, or words of a package.  The first of several
words is no truth value, which would be read for itself, and not the word that a loop begins with, whose head may be any
text. -/
inductive IsName : Text → Prop
  | plain {w : Text} : isIdentifier w = true → IsName w
  | qualified {w v : Text} {ws : List Text} : (∀ x ∈ w :: v :: ws, IsWord x) →
      w ∉ ["true".toList, "false".toList, "for".toList] → IsName (w ++ behind [':', ':'] (v :: ws))
  | packaged {p w : Text} {ps ws : List Text} : (∀ x ∈ p :: ps, IsWord x) → (∀ x ∈ w :: ws, IsWord x) →
      IsName (['@'] ++ (p ++ (behind ['/'] ps ++ (['.'] ++ (w ++ behind [':', ':'] ws)))))

/-- The reserved words but the truth values. -/
def keywords : List Text := Keyword.all.map (·.spelling.toList)

/-- What can be picked behind a dot: a word or a number, but no keyword. -/
def isMember (t : Text) : Bool := !t.isEmpty && t.all isNameChar && !keywords.contains t

/-- A member behind one dot or two. -/
def IsAccess (t : Text) : Prop := ∃ dots m, dots ∈ [['.'], ['.', '.']] ∧ isMember m = true ∧ t = dots ++ m

end CallTarget

open CallTarget

/-- A name, and accesses behind it. -/
def IsCallTarget (s : Text) : Prop :=
  ∃ (name : Text) (accesses : List Text), IsName name ∧ (∀ a ∈ accesses, IsAccess a) ∧ s = name ++ accesses.flatten

namespace CallTarget

/-! ## Names -/

/-- Before a colon. -/
def colonBarrier : Barrier where
  chars := .only ':'
  rules :=
    [.expression, .unary, .prefixOp, .postfixed, .primary, .element, .selfClosingTag, .openingTag, .literal, .ifExpr,
      .matchExpr, .forExpr, .whileExpr, .loopExpr, .tryExpr, .lambda, .matchLambda, .arrowFn, .lambdaParams, .rawParen,
      .parenExpr, .tupleExpr, .arrayExpr, .recordExpr, .block, .qualifiedName, .identifier, .matchArms, .tryMark, .kw .if,
      .kw .match, .kw .for, .kw .while, .kw .loop, .kw .try, .kw .fn]
  closed := by decide +kernel

/-- Before the sign that a package begins with. -/
def packageBarrier : Barrier where
  chars := .only '@'
  rules :=
    [.prefixOp, .element, .selfClosingTag, .openingTag, .literal, .ifExpr, .matchExpr, .forExpr, .whileExpr, .loopExpr,
      .tryExpr, .lambda, .matchLambda, .arrowFn, .lambdaParams, .rawParen, .parenExpr, .tupleExpr, .arrayExpr,
      .recordExpr, .block, .identifier, .kw .if, .kw .match, .kw .for, .kw .while, .kw .loop, .kw .try, .kw .fn]
  closed := by decide +kernel

/-- Before a digit. -/
def digitBarrier : Barrier where
  chars := ⟨Char.isDigit, (· != .letter)⟩
  rules := [.identifier]
  closed := by decide +kernel

/-- Before a dot. -/
def dotBarrier : Barrier where
  chars := .only '.'
  rules := [.callArgs, .indexAccess, .recordSuffix]
  closed := by decide +kernel

theorem at_colon {e : Expr Rule} (he : colonBarrier.refuses e = true) {l : Layout} {k : Look} {off : Nat} {rest : Text} :
    Eval document e l k ⟨off, ':' :: rest⟩ none :=
  colonBarrier.fails he (CharClass.only_has _) (.of_char (by decide)) l k

theorem at_package {e : Expr Rule} (he : packageBarrier.refuses e = true) {l : Layout} {k : Look} {off : Nat}
    {rest : Text} : Eval document e l k ⟨off, '@' :: rest⟩ none :=
  packageBarrier.fails he (CharClass.only_has _) (.of_char (by decide)) l k

theorem ends_behind {x : Char} (hx : isNameChar x = false) (sep : Text) (ws : List Text) {rest : Text}
    (hrest : EndsName rest) : EndsName (behind (x :: sep) ws ++ rest) := by
  cases ws with
  | nil => exact hrest
  | cons w ws => exact .of_char hx

theorem reads_separated (sep : Text) {w next : Text} (hw : IsWord w) (hnext : EndsName next) (off : Nat) :
    Reads (.seq (.word sep) DocExpr.identWord) .token ⟨off, sep ++ (w ++ next)⟩ ⟨off + bytes sep + bytes w, next⟩ [] :=
  (Reads.word _ _ _ _).seq (.here (.of_ne (by decide))) (reads_identWord hw (by decide) hnext)

/-- Words behind separators are read up to a place where no separator follows. -/
theorem reads_behind {x : Char} (hx : isNameChar x = false) {sep rest : Text} (hrest : EndsName rest)
    (hstop : ∀ off, (Cursor.mk off rest).word? (x :: sep) = none) : ∀ (ws : List Text) (off : Nat), (∀ w ∈ ws, IsWord w) →
    Reads (.many (.seq (.word (x :: sep)) DocExpr.identWord)) .token ⟨off, behind (x :: sep) ws ++ rest⟩
      ⟨off + bytes (behind (x :: sep) ws), rest⟩ []
  | [], off, _ => .many_none (.seqFail (.of_word_none (hstop _)))
  | w :: ws, off, hws => by
    obtain ⟨hw, hws⟩ := List.forall_mem_cons.1 hws
    have hall := Reads.many_cons (by decide) (reads_separated (x :: sep) hw (ends_behind hx sep ws hrest) off)
      (reads_behind hx hrest hstop ws _ hws)
    simp only [behind, List.flatMap_cons, List.append_assoc, Text.bytes_append, ← Nat.add_assoc] at hall ⊢
    exact hall

/-- What a qualified name is made of, as the grammar has it. -/
theorem reads_qualifiedName {t rest : Text} {off : Nat}
    (h : Reads (document.body .qualifiedName) .token ⟨off, t ++ rest⟩ ⟨off + bytes t, rest⟩ []) :
    Reads (.rule .qualifiedName) .spaced ⟨off, t ++ rest⟩ ⟨off + bytes t, rest⟩ [leaf .qualifiedName off t] :=
  .rule (by decide) (by decide) h

section Qualified

variable {w v : Text} {ws : List Text} {rest : Text} {off : Nat}

theorem reads_qualified (hws : ∀ x ∈ w :: v :: ws, IsWord x) (hrest : NameEnd rest) :
    Reads (document.body .qualifiedName) .token ⟨off, w ++ behind [':', ':'] (v :: ws) ++ rest⟩
      ⟨off + bytes (w ++ behind [':', ':'] (v :: ws)), rest⟩ [] := by
  obtain ⟨hw, hws⟩ := List.forall_mem_cons.1 hws
  obtain ⟨hv, hws⟩ := List.forall_mem_cons.1 hws
  have hmore : Reads (.many1 (.seq (DocExpr.word "::") DocExpr.identWord)) .token
      ⟨off + bytes w, [':', ':'] ++ (v ++ (behind [':', ':'] ws ++ rest))⟩
      ⟨off + bytes w + bytes [':', ':'] + bytes v + bytes (behind [':', ':'] ws), rest⟩ [] :=
    (reads_separated [':', ':'] hv (ends_behind (by decide) _ ws hrest.ends) _).seq (.here (.of_ne (by decide)))
      (reads_behind (by decide) hrest.ends hrest.colons ws _ hws)
  have hbody : Reads (document.body .qualifiedName) .token
      ⟨off, w ++ ([':', ':'] ++ (v ++ (behind [':', ':'] ws ++ rest)))⟩
      ⟨off + bytes w + bytes [':', ':'] + bytes v + bytes (behind [':', ':'] ws), rest⟩ [] :=
    .right (at_word hw (by decide +kernel))
      ((reads_identWord hw (by decide) (.of_char (by decide))).seq (.here (.of_ne (by decide))) hmore)
  simp only [behind, List.flatMap_cons, List.append_assoc, Text.bytes_append, ← Nat.add_assoc] at hbody ⊢
  exact hbody

theorem reads_packaged {p : Text} {ps : List Text} (hps : ∀ x ∈ p :: ps, IsWord x) (hws : ∀ x ∈ w :: ws, IsWord x)
    (hrest : NameEnd rest) :
    Reads (document.body .qualifiedName) .token
      ⟨off, ['@'] ++ (p ++ (behind ['/'] ps ++ (['.'] ++ (w ++ behind [':', ':'] ws)))) ++ rest⟩
      ⟨off + bytes (['@'] ++ (p ++ (behind ['/'] ps ++ (['.'] ++ (w ++ behind [':', ':'] ws))))), rest⟩ [] := by
  obtain ⟨hp, hps⟩ := List.forall_mem_cons.1 hps
  obtain ⟨hw, hws⟩ := List.forall_mem_cons.1 hws
  have hdot : EndsName (['.'] ++ (w ++ (behind [':', ':'] ws ++ rest))) := .of_char (by decide)
  have htight : ∀ c, Skips .token c c := fun _ => .here (.of_ne (by decide))
  have hslash : isNameChar '/' = false := by decide
  have hcolon : isNameChar ':' = false := by decide
  have hbody := (Reads.word ['@'] .token off _).seq (htight _) <|
    (reads_identWord hp (by decide) (ends_behind hslash [] ps hdot)).seq (htight _) <|
    (reads_behind hslash hdot (fun _ => word?_of_ne (by decide)) ps _ hps).seq (htight _) <|
    (Reads.word ['.'] .token _ _).seq (htight _) <|
    (reads_identWord hw (by decide) (ends_behind hcolon [':'] ws hrest.ends)).seq (htight _) <|
    reads_behind hcolon hrest.ends hrest.colons ws _ hws
  simp only [List.append_assoc, Text.bytes_append, ← Nat.add_assoc] at hbody ⊢
  exact .left hbody

/-- A word before colons begins no expression of its own, unless it is the word of a loop. -/
theorem keywordRule_at_colon (hw : IsWord w) (hfor : w ≠ "for".toList) {r : Rule} (hr : r ∈ keywordRules) :
    Eval document (.rule r) .spaced .here ⟨off, w ++ ':' :: rest⟩ none := by
  have hthen : ∀ (k : Keyword) {e : Expr Rule}, colonBarrier.refuses e = true →
      Eval document (.seq (DocExpr.keyword k) e) .spaced .here ⟨off, w ++ ':' :: rest⟩ none := by
    intro k e he
    by_cases hk : w = k.spelling.toList
    · rw [hk]
      exact (reads_keyword k (by decide) (.of_char (by decide)) off).seq_none (.settled (.of_char (by decide)))
        (at_colon he)
    · exact .seqFail (keyword_none hw k hk (.of_char (by decide)))
  simp only [keywordRules, List.mem_cons, List.not_mem_nil, or_false] at hr
  rcases hr with rfl | rfl | rfl | rfl | rfl | rfl | rfl | rfl
  case inr.inr.inl => exact .rule_none (.seqFail (keyword_none hw .for hfor (.of_char (by decide))))
  all_goals exact .rule_none (hthen _ (by decide +kernel))

theorem arrowFn_at_colon (hw : IsWord w) : Eval document (.rule .arrowFn) .spaced .here ⟨off, w ++ ':' :: rest⟩ none := by
  have hcolon : EndsName (':' :: rest) := .of_char (by decide)
  refine .rule_none ?_
  by_cases hreserved : w ∈ reservedWords
  · exact .seqFail (.altRight (identifier_none hreserved hcolon) (at_word hw (by decide)))
  · have hname : isIdentifier w = true := by simp [isIdentifier, hw, hreserved]
    exact (Reads.left (reads_identifier ⟨w, hname⟩ (by decide) hcolon)).seq_none (.settled (.of_char (by decide)))
      (.seqFail (.of_word_none (word?_of_ne (by decide))))

end Qualified

/-- **A name is read as an expression.** -/
theorem IsName.reads {t rest : Text} (h : IsName t) (hrest : NameEnd rest) (off : Nat) :
    ∃ k ∈ [Kind.identifier, Kind.qualifiedName],
      Reads (.rule .primary) .spaced ⟨off, t ++ rest⟩ ⟨off + bytes t, rest⟩ [leaf k off t] := by
  cases h with
  | plain hw => exact ⟨.identifier, by decide, reads_primary ⟨_, hw⟩ hrest⟩
  | @qualified w v ws hws hfirst =>
    have hw : IsWord w := hws w List.mem_cons_self
    have hcolon : EndsName (behind [':', ':'] (v :: ws) ++ rest) := .of_char (by decide)
    have hfor : w ≠ "for".toList := by
      rintro rfl
      exact hfirst (by decide)
    refine ⟨.qualifiedName, by decide, .silent rfl (Reads.alts ((.rule .element :: .rule .literal ::
      keywordRules.map .rule) ++ (.rule .arrowFn :: bracketRules.map .rule)) rfl ?_
      (reads_qualifiedName (reads_qualified hws hrest)))⟩
    intro e he
    rw [List.append_assoc]
    simp only [List.mem_append, List.mem_cons, List.mem_map] at he
    rcases he with (rfl | rfl | ⟨r, hr, rfl⟩) | rfl | ⟨r, hr, rfl⟩
    · exact at_word hw (by decide)
    · exact literal_none hw (fun hmem => hfirst (List.mem_append_left ["for".toList] hmem)) hcolon
    · exact keywordRule_at_colon hw hfor hr
    · exact arrowFn_at_colon hw
    · exact at_word hw ((by decide : ∀ r ∈ bracketRules, nameBarrier.refuses (.rule r) = true) r hr)
  | packaged hps hws =>
    refine ⟨.qualifiedName, by decide, .silent rfl (Reads.alts ((.rule .element :: .rule .literal ::
      keywordRules.map .rule) ++ (.rule .arrowFn :: bracketRules.map .rule)) rfl ?_
      (reads_qualifiedName (reads_packaged hps hws hrest)))⟩
    intro e he
    exact at_package ((by decide +kernel : ∀ e ∈ (.rule .element :: .rule .literal ::
      keywordRules.map .rule) ++ (.rule .arrowFn :: bracketRules.map .rule), packageBarrier.refuses e = true) e he)

/-- A name begins where it stands, and not with a sign. -/
theorem IsName.begins {t : Text} (h : IsName t) (off : Nat) (rest : Text) :
    Settled ⟨off, t ++ rest⟩ ∧ Eval document (.rule .prefixOp) .spaced .here ⟨off, t ++ rest⟩ none := by
  cases h with
  | plain hw => exact ⟨settled_word (Identifier.word ⟨_, hw⟩), at_word (Identifier.word ⟨_, hw⟩) (by decide)⟩
  | qualified hws hfirst =>
    rw [List.append_assoc]
    exact ⟨settled_word (hws _ List.mem_cons_self), at_word (hws _ List.mem_cons_self) (by decide)⟩
  | packaged => exact ⟨.of_char (by decide), at_package (by decide)⟩

/-! ## Members -/

theorem isMember_cons {x : Char} {v : Text} :
    isMember (x :: v) = true ↔ isNameChar x = true ∧ (∀ y ∈ v, isNameChar y = true) ∧ x :: v ∉ keywords := by
  simp [isMember, and_assoc]

theorem isMember_head {m : Text} (h : isMember m = true) :
    ∃ x v, m = x :: v ∧ isNameChar x = true ∧ ∀ y ∈ v, isNameChar y = true := by
  cases m with
  | nil => cases h
  | cons x v =>
    obtain ⟨hx, hv, -⟩ := isMember_cons.1 h
    exact ⟨x, v, rfl, hx, hv⟩

theorem isMember_cases {m : Text} (h : isMember m = true) :
    isIdentifier m = true ∨ (∃ v ∈ ["true", "false"], m = v.toList) ∨
      ∃ d v, m = d :: v ∧ d.isDigit = true ∧ ∀ x ∈ v, isNameChar x = true := by
  cases m with
  | nil => cases h
  | cons x v =>
    obtain ⟨hx, hv, hkeyword⟩ := isMember_cons.1 h
    by_cases hd : x.isDigit = true
    · exact .inr (.inr ⟨x, v, rfl, hd, hv⟩)
    · have hstart : isNameStart x = true := by
        simp only [isNameChar, Char.isAlphanum, hd, Bool.or_false] at hx
        exact hx
      have hword : isWord isNameStart isNameChar (x :: v) = true :=
        Bool.and_eq_true_iff.2 ⟨hstart, List.all_eq_true.2 hv⟩
      by_cases hreserved : x :: v ∈ reservedWords
      · refine .inr (.inl ?_)
        simpa using (List.mem_append.1 hreserved).resolve_left hkeyword
      · exact .inl (Bool.and_eq_true_iff.2 ⟨hword, decide_eq_true hreserved⟩)

theorem isNameChar_of_isDigit {d : Char} (hd : d.isDigit = true) : isNameChar d = true := by
  simp [isNameChar, Char.isAlphanum, hd]

theorem isMember_of_digit {d : Char} {v : Text} (hd : d.isDigit = true) (hv : ∀ x ∈ v, isNameChar x = true) :
    isMember (d :: v) = true := by
  have hkeyword : ∀ w ∈ keywords, w.head?.all (!·.isDigit) = true := by decide
  refine isMember_cons.2 ⟨isNameChar_of_isDigit hd, hv, fun hmem => ?_⟩
  have := hkeyword _ hmem
  simp [hd] at this

theorem isMember_of_isIdentifier {m : Text} (h : isIdentifier m = true) : isMember m = true := by
  obtain ⟨hword, hreserved⟩ := Bool.and_eq_true_iff.1 h
  have hchars := isWord_chars hword
  obtain ⟨x, v, rfl, -⟩ := isWord_head hword
  obtain ⟨hx, hv⟩ := List.forall_mem_cons.1 hchars
  exact isMember_cons.2 ⟨hx, hv, fun hmem => of_decide_eq_true hreserved (List.mem_append_left _ hmem)⟩

/-- What a number goes on with. -/
def numberPart : DocExpr :=
  DocExpr.alts (.one .alphanumeric) [DocExpr.word "_", .seq (DocExpr.word ".") (.one .digit)]

theorem reads_numberPart {x : Char} (hx : isNameChar x = true) (off : Nat) (rest : Text) :
    Reads numberPart .token ⟨off, x :: rest⟩ ⟨off + x.utf8Size, rest⟩ [] := by
  by_cases halnum : x.isAlphanum = true
  · exact .left (.char (by decide) rfl halnum)
  · have hunder : x = '_' := by simpa [isNameChar, halnum] using hx
    rw [hunder]
    exact .right (.chars_none (by decide) rfl (by rintro _ ⟨⟩; rfl) _) (.left (.word ['_'] _ _ _))

theorem numberPart_none {y : Char} {u : Text} (hy : isNameChar y = false)
    (hdot : y = '.' → ∀ x, u.head? = some x → x.isDigit = false) (off : Nat) :
    Eval document numberPart .token .here ⟨off, y :: u⟩ none := by
  simp only [isNameChar, Bool.or_eq_false_iff, beq_eq_false_iff_ne] at hy
  refine .altRight (.chars_none (by decide) rfl (by rintro _ ⟨⟩; exact hy.1) _)
    (.altRight (.of_word_none (word?_of_ne (Ne.symm hy.2))) ?_)
  by_cases hdots : y = '.'
  · subst hdots
    refine (Reads.word ['.'] _ _ _).seq_none (.here (.of_ne (by decide))) (.chars_none (by decide) rfl ?_ _)
    exact hdot rfl
  · exact .seqFail (.of_word_none (word?_of_ne (Ne.symm hdots)))

theorem at_digit {e : Expr Rule} (he : digitBarrier.refuses e = true) {d : Char} (hd : d.isDigit = true) {l : Layout}
    {k : Look} {off : Nat} {next : Text} : Eval document e l k ⟨off, d :: next⟩ none := by
  have hstart : isAttributeStart d ≠ true := fun h => by rw [isDigit_of_start h] at hd; cases hd
  have hletter : d.isAlpha = false := by
    refine Bool.eq_false_iff.2 fun h => hstart ?_
    simp [isAttributeStart, isNameStart, h]
  have hhas : digitBarrier.chars.Has d := by
    refine ⟨hd, fun s hs => ?_⟩
    cases s with
    | letter => rw [CharSet.holds, hletter] at hs; cases hs
    | _ => rfl
  have hlayout : d ∉ [' ', '\t', '/'] := by
    intro h
    simp only [List.mem_cons, List.not_mem_nil, or_false] at h
    rcases h with rfl | rfl | rfl <;> cases hd
  exact digitBarrier.fails he hhas (.of_char hlayout) l k

theorem reads_truthValue {v : String} (hv : v ∈ ["true", "false"]) {rest : Text} (hrest : EndsName rest) (off : Nat) :
    Reads (.rule .literal) .spaced ⟨off, v.toList ++ rest⟩ ⟨off + bytes v.toList, rest⟩ [leaf .literal off v.toList] := by
  have hword : isWord isNameStart isNameChar v.toList = true :=
    (by decide : ∀ v ∈ ["true", "false"], isWord isNameStart isNameChar v.toList = true) v hv
  have hapart : ∀ v ∈ ["true", "false"], ∀ a ∈ ["true", "false"],
      a.toList <+: v.toList ∨ v.toList <+: a.toList → a = v := by decide
  have hvalue : Reads DocExpr.truthValue .token ⟨off, v.toList ++ rest⟩ ⟨off + bytes v.toList, rest⟩ [] :=
    ⟨[], wordsEnd_found (hapart v hv) hv hrest .here off, rfl⟩
  have hbody : Reads (document.body .literal) .token ⟨off, v.toList ++ rest⟩ ⟨off + bytes v.toList, rest⟩ [] :=
    .right (at_word hword (by decide +kernel)) (.right (at_word hword (by decide +kernel))
      (.right (at_word hword (by decide +kernel)) (.right (at_word hword (by decide +kernel)) hvalue)))
  exact .rule (by decide) (by decide) hbody

section Accesses

variable (rest : Text)

/-- Before arguments, or before accesses and arguments. -/
theorem ends_accesses : ∀ {as : List Text}, (∀ a ∈ as, IsAccess a) → NameEnd (as.flatten ++ '(' :: rest)
  | [], _ => .of_char (by decide) (by decide)
  | a :: as, has => by
    obtain ⟨dots, m, hdots, -, rfl⟩ := has a List.mem_cons_self
    simp only [List.mem_cons, List.not_mem_nil, or_false] at hdots
    rcases hdots with rfl | rfl
    · exact .of_char (by decide) (by decide)
    · exact .of_char (by decide) (by decide)

/-- **A number goes on over numbers behind single dots.** -/
theorem reads_numberTail : ∀ (as : List Text), (∀ a ∈ as, IsAccess a) → ∀ off, ∃ bs cs, as = bs ++ cs ∧
    Reads (.many numberPart) .token ⟨off, as.flatten ++ '(' :: rest⟩ ⟨off + bytes bs.flatten, cs.flatten ++ '(' :: rest⟩ []
  | [], _, off => ⟨[], [], rfl, .many_none (numberPart_none (by decide) (fun h => by cases h) _)⟩
  | a :: as, has, off => by
    obtain ⟨⟨dots, m, hdots, hm, rfl⟩, hothers⟩ := List.forall_mem_cons.1 has
    obtain ⟨x, v, rfl, -, hall⟩ := isMember_head hm
    by_cases hnumber : dots = ['.'] ∧ x.isDigit = true
    · obtain ⟨rfl, hd⟩ := hnumber
      obtain ⟨bs, cs, rfl, hreads⟩ := reads_numberTail as hothers (off + bytes ['.'] + x.utf8Size + bytes v)
      refine ⟨(['.'] ++ x :: v) :: bs, cs, rfl, ?_⟩
      have hfirst : Reads numberPart .token ⟨off, ['.'] ++ x :: (v ++ ((bs ++ cs).flatten ++ '(' :: rest))⟩
          ⟨off + bytes ['.'] + x.utf8Size, v ++ ((bs ++ cs).flatten ++ '(' :: rest)⟩ [] :=
        .right (.chars_none (by decide) rfl (by rintro _ ⟨⟩; rfl) _)
          (.right (.of_word_none (word?_of_ne (by decide)))
            ((Reads.word _ _ _ _).seq (.here (.of_ne (by decide))) (.char (by decide) rfl hd)))
      have hrun := Reads.many_cons (by decide) hfirst (Reads.run_append (by decide) v _
        (fun _ y _ hv => reads_numberPart (hall y (hv.mem List.mem_cons_self)) _ _) hreads)
      simp only [List.flatten_cons, Text.bytes_append, Text.bytes_cons, Text.bytes_nil, Nat.zero_add, List.append_assoc,
        List.cons_append, List.nil_append, Nat.add_assoc] at hrun ⊢
      exact hrun
    · refine ⟨[], _, rfl, .many_none ?_⟩
      simp only [List.mem_cons, List.not_mem_nil, or_false] at hdots
      rcases hdots with rfl | rfl
      · refine numberPart_none (by decide) (fun _ => ?_) _
        rintro _ ⟨⟩
        simpa using hnumber
      · refine numberPart_none (by decide) (fun _ => ?_) _
        rintro _ ⟨⟩
        decide

/-- A member is read as a field; if it is a number, with the numbers behind it. -/
theorem reads_member {m : Text} (hm : isMember m = true) {as : List Text} (has : ∀ a ∈ as, IsAccess a) (off : Nat) :
    ∃ bs cs ts, as = bs ++ cs ∧ Reads (.alt (.rule .identifier) (.rule .literal)) .spaced
      ⟨off, m ++ (as.flatten ++ '(' :: rest)⟩ ⟨off + bytes m + bytes bs.flatten, cs.flatten ++ '(' :: rest⟩ ts := by
  have hends : EndsName (as.flatten ++ '(' :: rest) := (ends_accesses rest has).ends
  rcases isMember_cases hm with hname | ⟨v, hv, rfl⟩ | ⟨d, v, rfl, hd, hall⟩
  · exact ⟨[], as, _, rfl, .left (reads_identifier ⟨m, hname⟩ (by decide) hends)⟩
  · have hreserved : v.toList ∈ reservedWords := (by decide : ∀ v ∈ ["true", "false"], v.toList ∈ reservedWords) v hv
    exact ⟨[], as, _, rfl, .right (identifier_none hreserved hends) (reads_truthValue hv hends off)⟩
  · obtain ⟨bs, cs, rfl, htail⟩ := reads_numberTail rest as has (off + d.utf8Size + bytes v)
    have hnumber : Reads DocExpr.number .token ⟨off, d :: (v ++ ((bs ++ cs).flatten ++ '(' :: rest))⟩
        ⟨off + d.utf8Size + bytes v + bytes bs.flatten, cs.flatten ++ '(' :: rest⟩ [] :=
      (Reads.char (by decide) rfl hd).seq (.here (.of_ne (by decide))) (Reads.run_append (by decide) v _
        (fun _ y _ hv => reads_numberPart (hall y (hv.mem List.mem_cons_self)) _ _) htail)
    have hliteral : Reads (document.body .literal) .token ⟨off, d :: (v ++ ((bs ++ cs).flatten ++ '(' :: rest))⟩
        ⟨off + d.utf8Size + bytes v + bytes bs.flatten, cs.flatten ++ '(' :: rest⟩ [] :=
      .right (at_digit (by decide +kernel) hd) (.right (at_digit (by decide +kernel) hd)
        (.right (at_digit (by decide +kernel) hd) (.left hnumber)))
    have hreads : Reads (.alt (.rule .identifier) (.rule .literal)) .spaced
        ⟨off, d :: (v ++ ((bs ++ cs).flatten ++ '(' :: rest))⟩
        ⟨off + d.utf8Size + bytes v + bytes bs.flatten, cs.flatten ++ '(' :: rest⟩ _ :=
      .right (at_digit (by decide) hd) (.rule (by decide) (by decide) hliteral)
    refine ⟨bs, cs, _, rfl, hreads.to_offset ?_⟩
    rw [Text.bytes_cons, Nat.add_assoc off]

theorem reads_dot {dots m next : Text} (hdots : dots ∈ [['.'], ['.', '.']]) (hm : isMember m = true) (off : Nat) :
    Reads (.rule .dot) .spaced ⟨off, dots ++ (m ++ next)⟩ ⟨off + bytes dots, m ++ next⟩ [leaf .operator off dots] := by
  obtain ⟨x, v, rfl, hx, -⟩ := isMember_head hm
  have hother : ∀ y, isNameChar y = false → y ≠ x := by
    rintro y hy rfl
    rw [hx] at hy
    cases hy
  have hbody : Reads (document.body .dot) .token ⟨off, dots ++ (x :: v ++ next)⟩ ⟨off + bytes dots, x :: v ++ next⟩ [] := by
    simp only [List.mem_cons, List.not_mem_nil, or_false] at hdots
    rcases hdots with rfl | rfl
    · have htwo : (Cursor.mk off ('.' :: x :: (v ++ next))).word? ['.', '.'] = none := by
        simp [Cursor.word?, Text.strip?, hother '.' (by decide)]
      exact .right (.seqFail (.of_word_none htwo)) ((Reads.word _ _ _ _).seq (.here (.of_ne (by decide)))
        (.never (.of_word_none (word?_of_ne (hother '.' (by decide))))))
    · have hchars : (DocExpr.words "<" ["=", "."]).chars? = some fun y => y == '<' || (y == '=' || y == '.') := rfl
      refine .left ((Reads.word ['.', '.'] _ _ _).seq (.here (.of_ne (by decide))) (.never ?_))
      refine .chars_none (by decide) hchars ?_ _
      rintro _ ⟨⟩
      simp [Ne.symm (hother '<' (by decide)), Ne.symm (hother '=' (by decide)), Ne.symm (hother '.' (by decide))]
  exact .rule (by decide) (by decide) hbody

/-- **An access is read as a field**, perhaps together with numbers behind it. -/
theorem reads_access {a : Text} (ha : IsAccess a) {as : List Text} (has : ∀ a ∈ as, IsAccess a) (off : Nat) :
    ∃ bs cs field, as = bs ++ cs ∧ Tree.kind field = .fieldAccess ∧
      Reads (.rule .postfixOp) .spaced ⟨off, a ++ (as.flatten ++ '(' :: rest)⟩
        ⟨off + bytes a + bytes bs.flatten, cs.flatten ++ '(' :: rest⟩ [field] := by
  obtain ⟨dots, m, hdots, hm, rfl⟩ := ha
  obtain ⟨bs, cs, ts, rfl, hmember⟩ := reads_member rest hm has (off + bytes dots)
  have hsettled : Settled ⟨off + bytes dots, m ++ ((bs ++ cs).flatten ++ '(' :: rest)⟩ := by
    obtain ⟨x, v, rfl, hx, -⟩ := isMember_head hm
    refine .of_char fun h => ?_
    simp only [List.mem_cons, List.not_mem_nil, or_false] at h
    rcases h with rfl | rfl | rfl <;> cases hx
  have hfield := Reads.rule (r := .fieldAccess) (by decide) (by decide)
    ((reads_dot hdots hm off).seq (.settled hsettled) hmember)
  have hat : ∀ e ∈ [Expr.rule Rule.callArgs, .rule .indexAccess, .rule .recordSuffix],
      Eval document e .spaced .here ⟨off, dots ++ (m ++ ((bs ++ cs).flatten ++ '(' :: rest))⟩ none := by
    intro e he
    have hrefuses := (by decide : ∀ e ∈ [Expr.rule Rule.callArgs, .rule .indexAccess, .rule .recordSuffix],
      dotBarrier.refuses e = true) e he
    simp only [List.mem_cons, List.not_mem_nil, or_false] at hdots
    rcases hdots with rfl | rfl
    · exact dotBarrier.fails hrefuses (CharClass.only_has _) (.of_char (by decide)) _ _
    · exact dotBarrier.fails hrefuses (CharClass.only_has _) (.of_char (by decide)) _ _
  have hpostfix := Reads.silent (r := .postfixOp) rfl (Reads.alts _ rfl hat hfield)
  rw [List.append_assoc]
  exact ⟨bs, cs, _, rfl, rfl, hpostfix.to_offset (by rw [Text.bytes_append, Nat.add_assoc off])⟩

end Accesses

/-! ## Calls -/

section Call

variable {rest : Text}
  (hargs : ∀ off, ∃ below, Reads (.rule .callArgs) .spaced ⟨off, '(' :: rest⟩ ⟨off + bytes ('(' :: rest), []⟩
    [.node .callArgs ⟨off, off + bytes ('(' :: rest)⟩ below])

include hargs

/-- **Accesses are read as fields, and the arguments behind them.** -/
theorem reads_accesses (as : List Text) (has : ∀ a ∈ as, IsAccess a) (off : Nat) :
    ∃ fields below, (∀ f ∈ fields, Tree.kind f = .fieldAccess) ∧
      Reads (.more (.rule .postfixOp)) .spaced ⟨off, as.flatten ++ '(' :: rest⟩
        ⟨off + bytes (as.flatten ++ '(' :: rest), []⟩
        (fields ++ [.node .callArgs ⟨off + bytes as.flatten, off + bytes (as.flatten ++ '(' :: rest)⟩ below]) := by
  -- a field may take several accesses, so the induction is on their number
  induction hn : as.length using Nat.strongRecOn generalizing as off with
  | ind n ih =>
    cases as with
    | nil =>
      obtain ⟨below, hcall⟩ := hargs off
      have hend : Reads (.more (.rule .postfixOp)) .spaced ⟨off + bytes ('(' :: rest), []⟩
          ⟨off + bytes ('(' :: rest), []⟩ [] :=
        .more_none (.settled (.at_end _)) (.none_at_end (by decide +kernel) (by decide) _ _ _)
      have hone := Reads.more_some (.settled (.of_char (by decide))) (.silent (r := .postfixOp) rfl hcall.left) hend
      exact ⟨[], below, fun _ h => absurd h List.not_mem_nil, hone⟩
    | cons a as =>
      obtain ⟨ha, hothers⟩ := List.forall_mem_cons.1 has
      obtain ⟨bs, cs, field, rfl, hkind, hfield⟩ := reads_access rest ha hothers off
      have hcs : ∀ a ∈ cs, IsAccess a := fun a h => hothers a (List.mem_append_right bs h)
      have hfewer : cs.length < n := by
        rw [← hn, List.length_cons, List.length_append]
        omega
      obtain ⟨fields, below, hkinds, hmore⟩ := ih cs.length hfewer cs hcs (off + bytes a + bytes bs.flatten) rfl
      have hsettled : Settled ⟨off, a ++ ((bs ++ cs).flatten ++ '(' :: rest)⟩ := by
        have := (ends_accesses rest has).settled off
        rwa [List.flatten_cons, List.append_assoc] at this
      have hall := Reads.more_some (.settled hsettled) hfield hmore
      refine ⟨field :: fields, below, List.forall_mem_cons.2 ⟨hkind, hkinds⟩, ?_⟩
      simp only [List.flatten_cons, List.flatten_append, List.append_assoc, Text.bytes_append, ← Nat.add_assoc] at hall ⊢
      exact hall

/-- **A call target with arguments behind it is read as a call.** -/
theorem reads_call {s : Text} (hs : IsCallTarget s) :
    ∃ name fields below, Tree.kind name ∈ [Kind.identifier, .qualifiedName] ∧ (∀ f ∈ fields, Tree.kind f = .fieldAccess) ∧
      Reads (.rule .expression) .spaced ⟨0, s ++ '(' :: rest⟩ ⟨bytes (s ++ '(' :: rest), []⟩
        [.node .expression ⟨0, bytes (s ++ '(' :: rest)⟩ [.node .unary ⟨0, bytes (s ++ '(' :: rest)⟩
          [.node .postfixed ⟨0, bytes (s ++ '(' :: rest)⟩
            (name :: (fields ++ [.node .callArgs ⟨bytes s, bytes (s ++ '(' :: rest)⟩ below]))]]] := by
  obtain ⟨name, as, hname, has, rfl⟩ := hs
  have hends := ends_accesses rest has
  obtain ⟨k, hk, hprimary⟩ := hname.reads hends 0
  obtain ⟨hsettled, hprefix⟩ := hname.begins 0 (as.flatten ++ '(' :: rest)
  obtain ⟨fields, below, hkinds, hmore⟩ := reads_accesses hargs as has (0 + bytes name)
  have hpostfixed := Reads.rule (r := .postfixed) (by decide) (by decide)
    (hprimary.seq (.settled (hends.settled _)) (.many_of_more (fun _ => hends.settled _) hmore))
  have hunary := Reads.rule (r := .unary) (by decide) (by decide)
    ((Reads.many_none hprefix).seq (.settled hsettled) hpostfixed)
  have hexpression := Reads.rule (r := .expression) (by decide) (by decide)
    (hunary.seq (.settled (.at_end _)) (.many_none (.none_at_end (by decide +kernel) (by decide) _ _ _)))
  refine ⟨leaf k 0 name, fields, below, hk, hkinds, ?_⟩
  simp only [List.append_assoc, Text.bytes_append, ← Nat.add_assoc, Nat.zero_add] at hexpression ⊢
  exact hexpression

end Call

end CallTarget
end InlineMarkup
