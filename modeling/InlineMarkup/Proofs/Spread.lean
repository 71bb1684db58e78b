import InlineMarkup.Proofs.GapRuns
import InlineMarkup.Proofs.Unfolding
import Mathlib.Data.List.TakeWhile
/-!
# Proofs.Spread — trees spread over a text

A tree is spread over a text when its node has the span of the text and its children are spread, in order, over parts of
it, with gaps between them (`Tree.Spread`).  What holds of the characters in gaps and of the node itself is a parameter:
moving the ends of nodes back keeps a tree spread and makes every node end with a child or with a character that is not
blank (`spread_trimmed`), and adding tokens leaves only layout in gaps (`spread_tokenized`).
-/
namespace InlineMarkup

open Text (bytes isBlank isLayout trimEnd)

namespace Tree

/-- The characters of gaps satisfy `P`, and nodes that are no leaves satisfy `N`. -/
structure Gaps where
  char : Char → Prop
  node : Kind → Nat → Text → List Tree → Prop

mutual

/-- The tree is spread over the text `u`, which stands at an offset. -/
def Spread (G : Gaps) (off : Nat) (u : Text) : Tree → Prop
  | .node k s cs =>
    s = ⟨off, off + bytes u⟩ ∧ (k.isLeaf = true → cs = []) ∧
      (k.isLeaf = false → G.node k off u cs ∧ SpreadAll G off u cs)

/-- The trees are spread over the text `u` one after the other. -/
def SpreadAll (G : Gaps) (off : Nat) (u : Text) : List Tree → Prop
  | [] => ∀ c ∈ u, G.char c
  | t :: ts => ∃ g v w, u = g ++ (v ++ w) ∧ (∀ c ∈ g, G.char c) ∧ Spread G (off + bytes g) v t ∧
      SpreadAll G (off + bytes g + bytes v) w ts

end

theorem Spread.span {G : Gaps} {off : Nat} {u : Text} {t : Tree} (h : Spread G off u t) :
    t.span = ⟨off, off + bytes u⟩ := by
  obtain ⟨k, s, cs⟩ := t
  rw [Spread] at h
  exact h.1

mutual

theorem Spread.mono {G H : Gaps} (hc : ∀ c, G.char c → H.char c) (hn : ∀ k off u cs, G.node k off u cs → H.node k off u cs) :
    ∀ {t : Tree} {off : Nat} {u : Text}, Spread G off u t → Spread H off u t
  | .node k s cs, off, u, h => by
    rw [Spread] at h ⊢
    exact ⟨h.1, h.2.1, fun hl => ⟨hn _ _ _ _ (h.2.2 hl).1, Spread.monoAll hc hn (h.2.2 hl).2⟩⟩

theorem Spread.monoAll {G H : Gaps} (hc : ∀ c, G.char c → H.char c)
    (hn : ∀ k off u cs, G.node k off u cs → H.node k off u cs) :
    ∀ {ts : List Tree} {off : Nat} {u : Text}, SpreadAll G off u ts → SpreadAll H off u ts
  | [], _, _, h => by
    rw [SpreadAll] at h ⊢
    exact fun c hcu => hc c (h c hcu)
  | t :: ts, off, u, h => by
    rw [SpreadAll] at h ⊢
    obtain ⟨g, v, w, rfl, hg, ht, hts⟩ := h
    exact ⟨g, v, w, rfl, fun c hcg => hc c (hg c hcg), Spread.mono hc hn ht, Spread.monoAll hc hn hts⟩

end

/-! ## Gaps -/

section Gaps

variable {G : Gaps} {off : Nat}

theorem SpreadAll.gap_append {g w : Text} {ts : List Tree} (hg : ∀ c ∈ g, G.char c)
    (h : SpreadAll G (off + bytes g) w ts) : SpreadAll G off (g ++ w) ts := by
  cases ts with
  | nil =>
    rw [SpreadAll] at h ⊢
    exact fun c hc => (List.mem_append.1 hc).elim (hg c) (h c)
  | cons t ts =>
    rw [SpreadAll] at h ⊢
    obtain ⟨g', v, w', rfl, hg', ht, hts⟩ := h
    refine ⟨g ++ g', v, w', by rw [List.append_assoc], fun c hc => (List.mem_append.1 hc).elim (hg c) (hg' c), ?_, ?_⟩
    · rwa [Text.bytes_append, ← Nat.add_assoc]
    · rwa [Text.bytes_append, ← Nat.add_assoc]

theorem SpreadAll.append : ∀ {ts us : List Tree} {off : Nat} {u w : Text}, SpreadAll G off u ts →
    SpreadAll G (off + bytes u) w us → SpreadAll G off (u ++ w) (ts ++ us)
  | [], us, off, u, w, h, h' => by
    rw [SpreadAll] at h
    exact SpreadAll.gap_append h h'
  | t :: ts, us, off, _, w, h, h' => by
    rw [SpreadAll] at h
    obtain ⟨g, v, w', rfl, hg, ht, hts⟩ := h
    rw [List.cons_append, SpreadAll]
    refine ⟨g, v, w' ++ w, by simp, hg, ht, hts.append ?_⟩
    simpa only [Text.bytes_append, Nat.add_assoc] using h'

theorem SpreadAll.cons {v w : Text} {t : Tree} {ts : List Tree} (ht : Spread G off v t)
    (hts : SpreadAll G (off + bytes v) w ts) : SpreadAll G off (v ++ w) (t :: ts) := by
  rw [SpreadAll]
  exact ⟨[], v, w, rfl, fun c hc => (List.not_mem_nil hc).elim, ht, hts⟩

theorem lastStop_cons (start : Nat) (t : Tree) (ts : List Tree) :
    lastStop start (t :: ts) = lastStop t.span.stop ts := by
  cases ts with
  | nil => rfl
  | cons u us => rw [lastStop, lastStop, List.getLast?_cons_cons, List.getLast?_cons]; rfl

/-- **The text behind the last tree** is a gap, and any other gap could stand in its place. -/
theorem SpreadAll.last_gap : ∀ {ts : List Tree} {off : Nat} {u : Text}, SpreadAll G off u ts →
    ∃ v g, u = v ++ g ∧ off + bytes v = lastStop off ts ∧ (∀ c ∈ g, G.char c) ∧
      ∀ g', (∀ c ∈ g', G.char c) → SpreadAll G off (v ++ g') ts
  | [], off, u, h => by
    rw [SpreadAll] at h
    exact ⟨[], u, rfl, rfl, h, fun g' hg' => by rw [SpreadAll]; exact hg'⟩
  | t :: ts, off, _, h => by
    rw [SpreadAll] at h
    obtain ⟨g, v, w, rfl, hg, ht, hts⟩ := h
    obtain ⟨w', g', rfl, hstop, hg', hall⟩ := hts.last_gap
    refine ⟨g ++ (v ++ w'), g', by simp, ?_, hg', fun g'' hg'' => ?_⟩
    · rw [lastStop_cons, ht.span, ← hstop]
      simp only [Text.bytes_append, Nat.add_assoc]
    · rw [SpreadAll]
      exact ⟨g, v, w' ++ g'', by simp, hg, ht, hall g'' hg''⟩

end Gaps

/-! ## Nodes without blanks at their ends -/

/-- The node begins with a child, or with a character that is not blank. -/
def Opens (off : Nat) (u : Text) (cs : List Tree) : Prop :=
  (∃ t, cs.head? = some t ∧ t.span.start = off) ∨ ∀ x, u.head? = some x → isBlank x = false

/-- The node ends with a child, or with a character that is not blank. -/
def Closes (off : Nat) (u : Text) (cs : List Tree) : Prop :=
  (∃ t, cs.getLast? = some t ∧ t.span.stop = off + bytes u) ∨ ∀ x, u.getLast? = some x → isBlank x = false

/-- As the grammar leaves trees: blanks in gaps are layout, and nodes begin well. -/
def parsedGaps : Gaps where
  char c := isBlank c = true → isLayout c = true
  node k off u cs := k ≠ .program ∧ Opens off u cs

/-- The same with the ends moved back. -/
def trimmedGaps : Gaps where
  char c := isBlank c = true → isLayout c = true
  node k off u cs := k ≠ .program ∧ Opens off u cs ∧ Closes off u cs

/-- With tokens: gaps are layout. -/
def layoutGaps : Gaps where
  char c := isLayout c = true
  node k off u cs := k ≠ .program ∧ Opens off u cs ∧ Closes off u cs

/-- The same, where it is enough that gaps are blank. -/
def blankGaps : Gaps where
  char c := isBlank c = true
  node k off u cs := k ≠ .program ∧ Opens off u cs ∧ Closes off u cs

theorem isBlank_of_isLayout {c : Char} (h : isLayout c = true) : isBlank c = true := by
  simp only [isLayout, Text.isIndent, Bool.or_eq_true, beq_iff_eq] at h
  rcases h with ((rfl | rfl) | rfl) | rfl <;> decide

/-! ## Moving ends back -/

theorem trimmedAll_eq_map (source : Text) (ts : List Tree) : trimmedAll source ts = ts.map (trimmed source) := by
  induction ts with
  | nil => rfl
  | cons t ts ih => rw [trimmedAll, ih, List.map_cons]

theorem start_trimmed (source : Text) (t : Tree) : (t.trimmed source).span.start = t.span.start := by
  obtain ⟨k, s, cs⟩ := t
  rw [trimmed, trimSpan]
  show (ite _ _ _ : Span).start = s.start
  split
  · rfl
  · split <;> rfl

theorem trimEnd_append (p : Char → Bool) (t : Text) :
    ∃ w, t = trimEnd p t ++ w ∧ ∀ c ∈ w, p c = true := by
  refine ⟨(t.reverse.takeWhile p).reverse, ?_, fun c hc => ?_⟩
  · rw [trimEnd, ← List.reverse_append, List.takeWhile_append_dropWhile, List.reverse_reverse]
  · exact List.mem_takeWhile_imp (List.mem_reverse.1 hc)

theorem getLast?_trimEnd (p : Char → Bool) (t : Text) : ∀ x, (trimEnd p t).getLast? = some x → p x = false := by
  intro x hx
  rw [trimEnd, List.getLast?_reverse] at hx
  have := List.head?_dropWhile_not p t.reverse
  rw [hx] at this
  simpa using this

/-- The end of a text with a piece of layout at most behind `v`. -/
theorem trimEnd_behind (p : Char → Bool) (v g : Text) :
    (trimEnd p g = [] ∧ bytes (trimEnd p (v ++ g)) ≤ bytes v) ∨ trimEnd p (v ++ g) = v ++ trimEnd p g := by
  rw [trimEnd, trimEnd, List.reverse_append, List.dropWhile_append]
  split
  · next h =>
    refine .inl ⟨by simpa using h, ?_⟩
    obtain ⟨w, hw, -⟩ := trimEnd_append p v
    conv => rhs; rw [hw]
    rw [Text.bytes_append]
    exact Nat.le_add_right _ _
  · exact .inr (by simp)

theorem keepsTrailingBlanks_eq_false {k : Kind} (hl : k.isLeaf = false) (hp : k ≠ .program) :
    k.keepsTrailingBlanks = false := by
  cases k <;> simp_all [Kind.isLeaf, Kind.keepsTrailingBlanks]

/-- The span of a node over `u`, with its end moved back over layout but not before the end of the last child. -/
theorem trimSpan_append {source pre u post : Text} (hsrc : source = pre ++ (u ++ post)) {k : Kind}
    (hk : k.keepsTrailingBlanks = false) (cs : List Tree) :
    trimSpan source k ⟨bytes pre, bytes pre + bytes u⟩ cs =
      ⟨bytes pre, max (bytes pre + bytes (trimEnd isLayout u)) (lastStop (bytes pre) cs)⟩ := by
  rw [trimSpan, hk, if_neg Bool.false_ne_true, hsrc, Text.slice?_append]

theorem spread_trimmed_leaf {source pre u post : Text} (hsrc : source = pre ++ (u ++ post)) {k : Kind}
    (hl : k.isLeaf = true) :
    ∃ v w, u = v ++ w ∧ (∀ c ∈ w, isLayout c = true) ∧
      Spread trimmedGaps (bytes pre) v (.node k (trimSpan source k ⟨bytes pre, bytes pre + bytes u⟩ []) []) := by
  have hleaf : ∀ v s, s = ⟨bytes pre, bytes pre + bytes v⟩ → Spread trimmedGaps (bytes pre) v (.node k s []) := by
    intro v s hs
    rw [Spread]
    exact ⟨hs, fun _ => rfl, fun h => absurd (h.symm.trans hl) Bool.false_ne_true⟩
  by_cases hk : k.keepsTrailingBlanks = true
  · exact ⟨u, [], by simp, fun c hc => (List.not_mem_nil hc).elim, hleaf u _ (by rw [trimSpan, if_pos hk])⟩
  · obtain ⟨w, hu, hw⟩ := trimEnd_append isLayout u
    refine ⟨trimEnd isLayout u, w, hu, hw, hleaf _ _ ?_⟩
    rw [trimSpan_append hsrc (by simpa using hk)]
    show Span.mk _ (max _ (bytes pre)) = _
    rw [Nat.max_eq_left (Nat.le_add_right _ _)]

/-- The children are in place; the node's own end moves back over its last gap. -/
theorem spread_trimmed_inner {source pre u post : Text} (hsrc : source = pre ++ (u ++ post)) {k : Kind}
    (hl : k.isLeaf = false) (hp : k ≠ .program) {cs : List Tree} (ho : Opens (bytes pre) u cs)
    (hcs : SpreadAll trimmedGaps (bytes pre) u cs) :
    ∃ v w, u = v ++ w ∧ (∀ c ∈ w, isLayout c = true) ∧
      Spread trimmedGaps (bytes pre) v (.node k (trimSpan source k ⟨bytes pre, bytes pre + bytes u⟩ cs) cs) := by
  obtain ⟨v, g, rfl, hstop, hg, hall⟩ := hcs.last_gap
  obtain ⟨w, hgw, hw⟩ := trimEnd_append isLayout g
  have hgchar : ∀ c ∈ trimEnd isLayout g, trimmedGaps.char c := fun c hc => hg c (by
    rw [hgw]
    exact List.mem_append_left _ hc)
  refine ⟨v ++ trimEnd isLayout g, w, by rw [List.append_assoc, ← hgw], hw, ?_⟩
  rw [Spread, trimSpan_append hsrc (keepsTrailingBlanks_eq_false hl hp)]
  refine ⟨?_, fun h => absurd (hl.symm.trans h) Bool.false_ne_true, fun _ => ⟨⟨hp, ?_, ?_⟩, hall _ hgchar⟩⟩
  · rw [← hstop]
    rcases trimEnd_behind isLayout v g with ⟨hnil, hle⟩ | heq
    · rw [hnil, List.append_nil, Nat.max_eq_right (Nat.add_le_add_left hle _)]
    · rw [heq, Text.bytes_append, ← Nat.add_assoc, Nat.max_eq_left (Nat.le_add_right _ _)]
  · refine ho.imp id fun hx x hxv => hx x ?_
    rw [hgw, ← List.append_assoc, List.head?_append, hxv]
    rfl
  · by_cases hnil : trimEnd isLayout g = []
    · rw [hnil, List.append_nil]
      cases hlast : cs.getLast? with
      | some t => exact .inl ⟨t, hlast, by rw [hstop, lastStop, hlast]; rfl⟩
      | none =>
        rw [lastStop, hlast] at hstop
        have hv : v = [] := Text.bytes_eq_zero.1 (by simpa using hstop)
        exact .inr fun x hx => by simp [hv] at hx
    · refine .inr fun x hx => ?_
      obtain ⟨y, hy⟩ := Option.ne_none_iff_exists'.1 fun hn => hnil (List.getLast?_eq_none_iff.1 hn)
      rw [List.getLast?_append, hy] at hx
      obtain rfl : y = x := by simpa using hx
      have hlay := getLast?_trimEnd isLayout g y hy
      exact Bool.eq_false_iff.2 fun hb => by
        have := hgchar y (List.mem_of_getLast? hy) hb
        rw [hlay] at this
        cases this

theorem opens_map {f : Tree → Tree} (hf : ∀ t, (f t).span.start = t.span.start) {off : Nat} {u : Text}
    {cs : List Tree} (h : Opens off u cs) : Opens off u (cs.map f) := by
  refine h.imp (fun ⟨t, ht, hs⟩ => ⟨f t, ?_, (hf t).trans hs⟩) id
  rw [List.head?_map, ht]
  rfl

mutual

/-- **Moving ends back.**  What is cut off a tree's text is layout. -/
theorem spread_trimmed (source : Text) : ∀ (t : Tree) (pre u post : Text), source = pre ++ (u ++ post) →
    Spread parsedGaps (bytes pre) u t →
    ∃ v w, u = v ++ w ∧ (∀ c ∈ w, isLayout c = true) ∧ Spread trimmedGaps (bytes pre) v (t.trimmed source)
  | .node k s cs, pre, u, post, hsrc, h => by
    rw [Spread] at h
    obtain ⟨rfl, hleaf, hinner⟩ := h
    rw [trimmed]
    cases hl : k.isLeaf with
    | true =>
      rw [hleaf hl, trimmedAll]
      exact spread_trimmed_leaf hsrc hl
    | false =>
      obtain ⟨⟨hp, ho⟩, hcs⟩ := hinner hl
      refine spread_trimmed_inner hsrc hl hp ?_ (spreadAll_trimmed source cs pre u post hsrc hcs)
      rw [trimmedAll_eq_map]
      exact opens_map (start_trimmed source) ho

theorem spreadAll_trimmed (source : Text) : ∀ (ts : List Tree) (pre u post : Text), source = pre ++ (u ++ post) →
    SpreadAll parsedGaps (bytes pre) u ts → SpreadAll trimmedGaps (bytes pre) u (trimmedAll source ts)
  | [], _, _, _, _, h => by
    rw [SpreadAll] at h
    rw [trimmedAll, SpreadAll]
    exact h
  | t :: ts, pre, _, post, hsrc, h => by
    rw [SpreadAll] at h
    obtain ⟨g, v, w, rfl, hg, ht, hts⟩ := h
    rw [← Text.bytes_append] at ht hts
    rw [← Text.bytes_append] at hts
    obtain ⟨v', lay, rfl, hlay, ht'⟩ := spread_trimmed source t (pre ++ g) v (w ++ post) (by simp [hsrc]) ht
    have hts' := spreadAll_trimmed source ts (pre ++ g ++ (v' ++ lay)) w post (by simp [hsrc]) hts
    rw [trimmedAll, List.append_assoc v']
    refine SpreadAll.gap_append hg (SpreadAll.cons (by rwa [← Text.bytes_append]) (SpreadAll.gap_append ?_ ?_))
    · exact fun c hc _ => hlay c hc
    · simpa only [Text.bytes_append, Nat.add_assoc] using hts'

end

/-! ## Tokens -/

/-- The trees of tokens. -/
def tokens (ss : List Span) : List Tree := ss.map fun s => .node .token s []

theorem spread_token {G : Gaps} (off : Nat) (v : Text) : Spread G off v (.node .token ⟨off, off + bytes v⟩ []) := by
  rw [Spread]
  exact ⟨rfl, fun _ => rfl, fun h => by cases h⟩

/-- **Tokens cover a gap** whose blank characters are layout. -/
theorem spreadAll_runs {off : Nat} {u : Text} {ss : List Span} (h : Runs off u ss) (hu : ∀ c ∈ u, trimmedGaps.char c) :
    SpreadAll layoutGaps off u (tokens ss) := by
  induction h with
  | nil => simp [tokens, SpreadAll]
  | @blank off c u ss hc _ ih =>
    refine SpreadAll.gap_append (g := [c]) (fun d hd => ?_) (ih fun d hd => hu d (List.mem_cons_of_mem c hd))
    rw [List.mem_singleton.1 hd]
    exact hu c List.mem_cons_self hc
  | @run off k v u ss _ _ _ ih =>
    exact SpreadAll.cons (spread_token off v) (ih fun d hd => hu d (List.mem_append_right v hd))

theorem tokenTrees_append {source pre g post : Text} (hsrc : source = pre ++ (g ++ post)) :
    tokenTrees source (bytes pre) (bytes pre + bytes g) = tokens (splitFrom g (bytes pre) none) := by
  unfold tokenTrees gapTokens
  split
  · rw [hsrc, Text.slice?_append]
    rfl
  · next h =>
    obtain rfl : g = [] := Text.bytes_eq_zero.1 (by omega)
    rfl

theorem spreadAll_gapTokens {source pre g post : Text} (hsrc : source = pre ++ (g ++ post))
    (hg : ∀ c ∈ g, trimmedGaps.char c) :
    SpreadAll layoutGaps (bytes pre) g (tokenTrees source (bytes pre) (bytes pre + bytes g)) := by
  rw [tokenTrees_append hsrc]
  exact spreadAll_runs (runs_splitTokens g (bytes pre)) hg

theorem tokenizedAll_eq_map (source : Text) (ts : List Tree) : tokenizedAll source ts = ts.map (tokenized source) := by
  induction ts with
  | nil => rfl
  | cons t ts ih => rw [tokenizedAll, ih, List.map_cons]

theorem span_tokenized (source : Text) (t : Tree) : (t.tokenized source).span = t.span := by
  cases t
  rfl

theorem tokenTrees_eq_nil {source : Text} {start stop : Nat} (h : stop ≤ start) : tokenTrees source start stop = [] := by
  rw [tokenTrees, gapTokens, if_neg (Nat.not_lt.2 h)]
  rfl

theorem head?_withTokens {source : Text} {stop cursor : Nat} {ts : List Tree} {t : Tree} (h : ts.head? = some t)
    (hs : t.span.start ≤ cursor) : (withTokens source stop cursor ts).head? = some t := by
  cases ts with
  | nil => cases h
  | cons u us =>
    obtain rfl : u = t := by simpa using h
    rw [withTokens, tokenTrees_eq_nil hs]
    rfl

theorem getLast?_withTokens {source : Text} {stop : Nat} {t : Tree} (hs : stop ≤ t.span.stop) :
    ∀ {ts : List Tree} {cursor : Nat}, ts.getLast? = some t → (withTokens source stop cursor ts).getLast? = some t
  | [u], cursor, h => by
    obtain rfl : u = t := by simpa using h
    rw [withTokens, withTokens, tokenTrees_eq_nil (Nat.le_trans hs (Nat.le_max_right _ _)), List.getLast?_append]
    rfl
  | u :: v :: vs, cursor, h => by
    rw [List.getLast?_cons_cons] at h
    rw [withTokens, List.getLast?_append, List.getLast?_cons, getLast?_withTokens hs h]
    rfl

mutual

/-- **Tokens fill the gaps.** -/
theorem spread_tokenized (source : Text) : ∀ (t : Tree) (pre u post : Text), source = pre ++ (u ++ post) →
    Spread trimmedGaps (bytes pre) u t → Spread layoutGaps (bytes pre) u (t.tokenized source)
  | .node k s cs, pre, u, post, hsrc, h => by
    rw [Spread] at h
    obtain ⟨rfl, hleaf, hinner⟩ := h
    rw [tokenized, Spread]
    refine ⟨rfl, fun hl => ?_, fun hl => ?_⟩
    · rw [if_pos hl, hleaf hl]
      rfl
    · obtain ⟨⟨hp, ho, hc⟩, hcs⟩ := hinner hl
      rw [if_neg (by rw [hl]; exact Bool.false_ne_true)]
      refine ⟨⟨hp, ?_, ?_⟩, spreadAll_tokenized source cs pre u post hsrc hcs⟩
      · refine ho.imp (fun ⟨t, ht, hs⟩ => ⟨t.tokenized source, ?_, by rw [span_tokenized, hs]⟩) id
        refine head?_withTokens ?_ (by rw [span_tokenized, hs])
        rw [tokenizedAll_eq_map, List.head?_map, ht]
        rfl
      · refine hc.imp (fun ⟨t, ht, hs⟩ => ⟨t.tokenized source, ?_, by rw [span_tokenized, hs]⟩) id
        refine getLast?_withTokens (by rw [span_tokenized, hs]) ?_
        rw [tokenizedAll_eq_map, List.getLast?_map, ht]
        rfl

theorem spreadAll_tokenized (source : Text) : ∀ (ts : List Tree) (pre u post : Text), source = pre ++ (u ++ post) →
    SpreadAll trimmedGaps (bytes pre) u ts →
    SpreadAll layoutGaps (bytes pre) u (withTokens source (bytes pre + bytes u) (bytes pre) (tokenizedAll source ts))
  | [], pre, u, post, hsrc, h => by
    rw [SpreadAll] at h
    exact spreadAll_gapTokens hsrc h
  | t :: ts, pre, _, post, hsrc, h => by
    rw [SpreadAll] at h
    obtain ⟨g, v, w, rfl, hg, ht, hts⟩ := h
    rw [← Text.bytes_append] at ht hts
    rw [← Text.bytes_append] at hts
    have ht' := spread_tokenized source t (pre ++ g) v (w ++ post) (by simp [hsrc]) ht
    have hts' := spreadAll_tokenized source ts (pre ++ g ++ v) w post (by simp [hsrc]) hts
    have hg' := spreadAll_gapTokens (show source = pre ++ (g ++ (v ++ w ++ post)) by simp [hsrc]) hg
    rw [tokenizedAll, withTokens, ht'.span]
    simp only [Text.bytes_append, Nat.add_assoc] at ht' hts' hg' ⊢
    rw [Nat.max_eq_right (by omega)]
    refine hg'.append ?_
    exact SpreadAll.cons ht' (by simpa only [Nat.add_assoc] using hts')

end

end Tree
end InlineMarkup
