import InlineMarkup.Proofs.LineBreaks
import InlineMarkup.Proofs.LineEnds
import Mathlib.Data.List.Infix
/-!
# Proofs.Indentation — composed code keeps its indentation

Where composed code breaks a line, the next line is indented as the source line of what follows.  No node of host code
begins with a space or a tab (`parse_flush`): layout is skipped before a rule is called, and where none is skipped the
rules begin with characters of their own.  So the indentation is what stands behind the last line end of the gap
(`joint_keeps_indentation`).
-/
namespace InlineMarkup

open Lowering
open Text (bytes isBlank isIndent isLayout)

namespace Grammar

/-! ## Rules that begin with a character of their own -/

/-- Every match of the expression begins with a character that is no indentation; `ρ` tells so for the rules. -/
def Expr.opens (ρ : Rule → Bool) : Expr Rule → Bool
  | .word (x :: _) => !isIndent x
  | .seq p _ => p.opens ρ
  | .alt p q => p.opens ρ && q.opens ρ
  | .rule r => ρ r
  | _ => false

/-- Rules that are called where layout is content, or that take up layout themselves. -/
def Rule.opensItself (r : Rule) : Bool :=
  r ∈ [.comment, .element, .selfClosingTag, .openingTag, .closingTag, .markupComment, .interpolation, .attributeValue]

theorem Rule.opens_body (r : Rule) (hr : r.opensItself = true) : (document.body r).opens opensItself = true :=
  (by decide : ∀ r ∈ all, r.opensItself = true → (document.body r).opens opensItself = true) r r.mem_all hr

theorem Eval.opens {e : Expr Rule} {l : Layout} {k : Look} {c : Cursor} {o : Result Rule} (h : Eval document e l k c o) :
    ∀ m, o = some m → e.opens Rule.opensItself = true → ∀ x, c.rest.head? = some x → isIndent x = false := by
  induction h with
  | @word w l k c =>
    intro m ho he x hx
    obtain ⟨c', hw, -⟩ := Option.map_eq_some_iff.1 ho
    cases w with
    | nil => cases he
    | cons y w =>
      rw [(Cursor.Past.word hw).rest] at hx
      obtain rfl : y = x := Option.some.inj hx
      simpa [Expr.opens] using he
  | seq _ _ _ ihp => exact fun m ho he => ihp _ rfl he
  | altLeft _ ihp => exact fun m ho he => ihp m ho (Bool.and_eq_true_iff.1 he).1
  | altRight _ _ _ ihq => exact fun m ho he => ihq m ho (Bool.and_eq_true_iff.1 he).2
  | @silent r _ _ _ _ _ _ ih => exact fun m ho he => ih m ho (r.opens_body he)
  | @node r _ _ _ _ _ _ ih =>
    intro m ho he
    obtain ⟨m', hm, -⟩ := Option.map_eq_some_iff.1 ho
    exact ih m' hm (r.opens_body he)
  | _ => intro m ho he; first | cases he | cases ho

/-! ## Rules that are called behind skipped layout -/

/-- Rules that are called where layout is content. -/
def Rule.tight (r : Rule) : Bool :=
  r.opensItself || r ∈ [.elementContent, .text, .attributeContent, .attributeContentSingle]

theorem Rule.tight_body (r : Rule) (hr : document.style r = .compact ∨ document.style r = .silent ∧ r.tight = true) :
    (document.body r).made (fun _ => true) tight = true :=
  (by decide : ∀ r ∈ all, document.style r = .compact ∨ document.style r = .silent ∧ r.tight = true →
    (document.body r).made (fun _ => true) tight = true) r r.mem_all hr

theorem Rule.style_of_tight (r : Rule) (hr : r.tight = true) : document.style r ≠ .plain :=
  (by decide : ∀ r ∈ all, r.tight = true → document.style r ≠ .plain) r r.mem_all hr

theorem Rule.opensItself_of_tight (r : Rule) (hr : r.tight = true) (hloose : r ∉ looseRules) : r.opensItself = true :=
  (by decide : ∀ r ∈ all, r.tight = true → r ∉ looseRules → r.opensItself = true) r r.mem_all hr hloose

theorem Rule.opensItself_of_style (r : Rule) (hr : document.style r = .compact ∨ document.style r = .spaced) :
    r.opensItself = true :=
  (by decide : ∀ r ∈ all, document.style r = .compact ∨ document.style r = .spaced → r.opensItself = true) r r.mem_all hr

/-- No indentation stands at the beginning of the node and of the nodes below it, unless they hold text. -/
inductive Flush (source : Text) : Parse Rule → Prop where
  | node {r : Rule} {start stop : Nat} {inner : List (Parse Rule)}
      (begins : r ∉ looseRules → ∀ pre x post, source = pre ++ x :: post → bytes pre = start → isIndent x = false)
      (below : ∀ p ∈ inner, Flush source p) : Flush source (.node r start stop inner)

theorem Flush.of_mem {source : Text} {r : Rule} {start stop : Nat} {inner : List (Parse Rule)}
    (h : Flush source (.node r start stop inner)) : ∀ p ∈ inner, Flush source p := by
  cases h with
  | node _ below => exact below

theorem Settled.not_indent {c : Cursor} (hc : Settled c) : ∀ x, c.rest.head? = some x → isIndent x = false := by
  intro x hx
  obtain ⟨off, rest⟩ := c
  obtain ⟨v, rfl⟩ := List.head?_eq_some_iff.1 hx
  by_contra hindent
  simp only [isIndent, Bool.not_eq_false, Bool.or_eq_true, beq_iff_eq] at hindent
  rcases hindent with rfl | rfl
  · cases hc.space
  · cases hc.tab

/-- A node that is called where it is ready begins without indentation. -/
theorem not_indent_of_call {r : Rule} {l : Layout} {c : Cursor} {m : Cursor × List (Parse Rule)}
    (hleft : (document.style r).around l ≠ .token) (hloose : r ∉ looseRules) (hready : Ready l c)
    (htight : l = .compact → r.tight = true)
    (hbody : Eval document (document.body r) ((document.style r).inside l) .here c (some m)) :
    ∀ x, c.rest.head? = some x → isIndent x = false := by
  cases l with
  | spaced => exact (hready rfl).not_indent
  | compact => exact hbody.opens m rfl (r.opens_body (r.opensItself_of_tight (htight rfl) hloose))
  | token =>
    -- inside a token only rules with a layout of their own leave nodes
    have hstyle : document.style r = .compact ∨ document.style r = .spaced := by
      cases hs : document.style r with
      | compact => exact .inl rfl
      | spaced => exact .inr rfl
      | _ => rw [hs] at hleft; exact absurd rfl hleft
    exact hbody.opens m rfl (r.opens_body (r.opensItself_of_style hstyle))

theorem tight_skip (l : Layout) : (document.skip l).made (fun _ => true) Rule.tight = true := by
  cases l with
  | spaced => decide
  | compact => rfl
  | token => rfl

/-- In a rule that keeps the layout of its caller, or has layout as content, only tight rules are called. -/
theorem tight_inside {r : Rule} {l : Layout} (htight : l = .compact → r.tight = true)
    (hl : (document.style r).inside l = .compact) : (document.body r).made (fun _ => true) Rule.tight = true := by
  cases hs : document.style r with
  | compact => exact r.tight_body (.inl hs)
  | silent =>
    rw [hs] at hl
    exact r.tight_body (.inr ⟨hs, htight hl⟩)
  | plain =>
    rw [hs] at hl
    exact absurd hs (r.style_of_tight (htight hl))
  | token => rw [hs] at hl; cases hl
  | spaced => rw [hs] at hl; cases hl

/-- **No node that an evaluation leaves begins with indentation**, unless it holds text. -/
theorem Eval.flush {source : Text} {e : Expr Rule} {l : Layout} {k : Look} {c : Cursor} {o : Result Rule}
    (h : Eval document e l k c o) : k = .here → ∀ m, o = some m → c.In source → ∀ settled, e.neat settled = true →
    (settled = true → Ready l c) → (l = .compact → e.made (fun _ => true) Rule.tight = true) →
    ∀ p ∈ m.2, Flush source p := by
  rintro hk ⟨c', xs⟩ rfl hc
  induction h using Eval.match_induction with
  | seq hp hs hq ihp ihs ihq =>
    intro settled hneat hready hmade p hmem
    rw [Expr.neat, Bool.and_eq_true] at hneat
    rcases List.mem_append.1 hmem with hx | hmem
    · exact ihp hk hc settled hneat.1 hready (fun hl => (Bool.and_eq_true_iff.1 (hmade hl)).1) p hx
    rcases List.mem_append.1 hmem with hy | hz
    · exact ihs hk (hp.in_source hc) true (neat_skip _) (fun _ h => by cases h) (fun _ => tight_skip _) p hy
    · exact ihq hk (hs.in_source (hp.in_source hc)) true hneat.2 (fun _ => Ready.of_skip hs)
        (fun hl => (Bool.and_eq_true_iff.1 (hmade hl)).2) p hz
  | altLeft _ ihp =>
    intro settled hneat hready hmade
    rw [Expr.neat, Bool.and_eq_true] at hneat
    exact ihp hk hc settled hneat.1 hready fun hl => (Bool.and_eq_true_iff.1 (hmade hl)).1
  | altRight _ ihq =>
    intro settled hneat hready hmade
    rw [Expr.neat, Bool.and_eq_true] at hneat
    exact ihq hk hc settled hneat.2 hready fun hl => (Bool.and_eq_true_iff.1 (hmade hl)).2
  | optSome _ ihp => exact ihp hk hc
  | manySome hp hm ihp ihm =>
    intro settled hneat hready hmade p hmem
    rw [Expr.neat, Bool.and_eq_true] at hneat
    rcases List.mem_append.1 hmem with hx | hy
    · exact ihp hk hc settled hneat.1 hready hmade p hx
    · exact ihm hk (hp.in_source hc) false hneat.2 (fun h => by cases h) hmade p hy
  | moreSome hs hp hm ihs ihp ihm =>
    intro settled hneat hready hmade p hmem
    rw [Expr.neat] at hneat
    rcases List.mem_append.1 hmem with hx | hmem
    · exact ihs hk hc true (neat_skip _) (fun _ h => by cases h) (fun _ => tight_skip _) p hx
    rcases List.mem_append.1 hmem with hy | hz
    · exact ihp hk (hs.in_source hc) true hneat (fun _ => Ready.of_skip hs) hmade p hy
    · exact ihm hk (hp.in_source (hs.in_source hc)) false hneat (fun h => by cases h) hmade p hz
  | @silent r _ _ _ _ _ _ hs _ ih =>
    intro settled hneat hready hmade
    obtain rfl : settled = true := hneat
    have hneat := r.neat_body
    rw [r.calledSettled_of_silent hs] at hneat
    exact ih hk hc true hneat hready fun hl => r.tight_body (.inr ⟨hs, hmade hl⟩)
  | @node r l k c c' inner _ hs hb ih =>
    intro settled hneat hready hmade p hmem
    subst hk
    obtain rfl : settled = true := hneat
    have hinner := ih rfl hc r.calledSettled r.neat_body (fun hr => (hready rfl).inside hr) (tight_inside hmade)
    rcases mem_treesOf hmem with ⟨hl, rfl⟩ | hmem
    · refine .node (fun hloose pre x post hsrc hpre => ?_) hinner
      obtain ⟨pre', hsrc', hpre'⟩ := hc
      refine not_indent_of_call hl hloose (hready rfl) hmade hb x ?_
      rw [← (Text.append_inj_bytes (hsrc.symm.trans hsrc') (hpre.trans hpre'.symm)).2]
      rfl
    · exact hinner p hmem
  | _ =>
    -- nothing is left behind
    intro _ _ _ _ p hmem
    cases hmem

end Grammar

/-! ## Nodes of documents -/

open Grammar InlineMarkup.Tree

variable {doc : Document} {c : Cst}

theorem Tree.IsToken.not_layout {source : Text} {t : Tree} (h : t.IsToken source) {pre post : Text} {x : Char}
    (hsrc : source = pre ++ x :: post) (hpre : bytes pre = t.span.start) : isLayout x = false := by
  obtain ⟨a, y, v, b, hrun, hspan, hy⟩ := h.run
  rw [hspan, Nat.zero_add] at hpre
  have hrest := (Text.append_inj_bytes (hsrc.symm.trans hrun) hpre).2
  obtain rfl : x = y := (List.cons.inj hrest).1
  by_contra hx
  rw [isBlank_of_isLayout (Bool.of_not_eq_false hx)] at hy
  cases hy

/-- **No node begins with layout** but text, the content of a value and the whole document. -/
theorem parse_flush (h : doc.parse = .ok c) {t : Tree} (ht : t ∈ c.tree.nodes)
    (hk : t.kind ∉ [.program, .text, .attributeContent]) {pre post : Text} {x : Char} (hsrc : doc.text = pre ++ x :: post)
    (hpre : bytes pre = t.span.start) : isLayout x = false := by
  have hroot : ∀ c' inner, Eval document (document.body .program) .spaced .here ⟨0, doc.text⟩ (some (c', inner)) →
      Flush doc.text (.node .program 0 (bytes doc.text) inner) := by
    intro c' inner heval
    refine .node (fun hloose => absurd (by decide) hloose) ?_
    exact heval.flush rfl _ rfl ⟨[], rfl, rfl⟩ false (Rule.neat_body .program) (fun h => by cases h) fun h => by cases h
  rcases parse_origin_with Flush.of_mem h hroot ht with htoken | ⟨r, start, stop, inner, k, hm, hq, hr, rfl⟩
  · exact htoken.not_layout hsrc hpre
  · rw [kind_finished] at hk
    rw [start_finished] at hpre
    have hloose : r ∉ looseRules := by
      intro hmem
      have hkinds := (by decide : ∀ r ∈ looseRules, ∀ k ∈ Kind.ofRule? r, k ∈ [Kind.program, .text, .attributeContent])
      exact hk (hkinds r hmem k hr)
    have hline : ¬ Text.EndsLine (x :: post) := hm.not_endsLine (by rw [hr]; exact Option.some_ne_none k) hloose hsrc hpre
    cases hq with
    | node begins _ =>
      have hindent : isIndent x = false := begins hloose pre x post hsrc hpre
      have hends : x ≠ '\n' ∧ x ≠ '\r' := by
        refine ⟨fun hx => hline ?_, fun hx => hline ?_⟩ <;> · rintro y ⟨⟩; simp [hx]
      simp [isLayout, hindent, hends]

/-- What stands in a node with markup that is no element is neither text nor the content of a value. -/
theorem parse_composed (h : doc.parse = .ok c) {t : Tree} (ht : t ∈ c.tree.nodes) (hm : t.hasMarkup = true)
    (he : t.kind ≠ .element) {d : Tree} (hd : d ∈ t.children) : d.kind ∉ [.program, .text, .attributeContent] := by
  intro hk
  simp only [List.mem_cons, List.not_mem_nil, or_false] at hk
  have hcaller : ∀ xs callers : List Rule, OnlyCalledBy xs callers →
      (∀ s ∈ Rule.all, Kind.ofRule? s = some d.kind → s ∈ xs) → d.kind ≠ .token →
      ∃ r ∈ callers, Kind.ofRule? r = some t.kind := by
    intro xs callers hcalled hxs htoken
    rcases parse_child h ht hd with hd | ⟨r, start, stop, inner, q, hmatched, hr, hinner, hq, hqk⟩
    · exact absurd hd htoken
    · exact ⟨r, hmatched.caller hcalled hinner hq (hxs _ q.rule.mem_all hqk), hr⟩
  rcases hk with hk | hk | hk
  · obtain ⟨r, hr, -⟩ := hcaller [.program] [] (by decide) (by rw [hk]; decide) (by rw [hk]; decide)
    cases hr
  · obtain ⟨r, hr, hrk⟩ := hcaller [.text, .elementContent] [.element] (by decide) (by rw [hk]; decide) (by rw [hk]; decide)
    rw [List.mem_singleton.1 hr] at hrk
    exact he (Option.some.inj hrk).symm
  · have hvalue := parse_content h ht hd hk
    obtain ⟨u, hu, huk⟩ := hasMarkup_iff.1 hm
    rcases mem_nodes_iff.1 hu with rfl | ⟨e, hmem, hue⟩
    · exact he huk
    · have hleaf : e.kind.isLeaf = true := by rcases parse_quoted h ht hvalue e hmem with hk | hk <;> rw [hk] <;> rfl
      have hnode : e ∈ c.tree.nodes := nodes_trans (mem_nodes_iff.2 (.inr ⟨e, hmem, mem_nodes_self e⟩)) ht
      rw [mem_nodes_iff, (parse_shaped h e hnode).leaf hleaf] at hue
      rcases hue with rfl | ⟨_, hnil, -⟩
      · rw [huk] at hleaf
        cases hleaf
      · cases hnil

/-! ## The indentation of a line -/

theorem Text.hasCrLf_iff (g : Text) : Text.hasCrLf g = true ↔ ['\r', '\n'] <:+: g := by
  fun_induction Text.hasCrLf g with
  | case1 cs => exact ⟨fun _ => ⟨[], cs, rfl⟩, fun _ => rfl⟩
  | case2 x cs hx ih =>
    rw [ih, List.infix_cons_iff]
    refine ⟨.inr, fun hor => hor.elim (fun hprefix => ?_) id⟩
    obtain ⟨rest, hrest⟩ := hprefix
    obtain ⟨rfl, rfl⟩ := List.cons.inj hrest
    exact absurd rfl (hx rest rfl)
  | case3 => simp

theorem Text.lastLine_append {v : Text} (hv : '\n' ∉ v) (w : Text) : Text.lastLine (w ++ '\n' :: v) = v := by
  unfold Text.lastLine
  have hline : ∀ x ∈ v.reverse, (x != '\n') = true := by
    intro x hx
    rw [bne_iff_ne]
    rintro rfl
    exact hv (List.mem_reverse.1 hx)
  rw [List.reverse_append, List.reverse_cons, List.append_assoc, List.takeWhile_append_of_pos hline]
  simp

/-- **The indentation of a line** that begins in a gap is the end of the gap. -/
theorem lineIndent_eq {source w v b : Text} (hsrc : source = w ++ '\n' :: v ++ b) (hv : ∀ x ∈ v, isIndent x = true)
    (hb : ∀ x, b.head? = some x → isIndent x = false) : lineIndent source (bytes (w ++ '\n' :: v)) = v := by
  have hfeed : '\n' ∉ v := fun hmem => absurd (hv _ hmem) (by decide)
  have hle : bytes (w ++ '\n' :: v) ≤ bytes source := by
    rw [hsrc, Text.bytes_append (w ++ '\n' :: v)]
    exact Nat.le_add_right _ _
  have hstart : bytes (w ++ '\n' :: v) - bytes v = bytes (w ++ ['\n']) := by
    simp only [Text.bytes_append, Text.bytes_cons, Text.bytes_nil]
    omega
  have hline : source = (w ++ ['\n']) ++ (v ++ b) := by simp [hsrc]
  unfold lineIndent
  rw [Nat.min_eq_left hle, hsrc, Text.before?_append]
  simp only
  rw [Text.lastLine_append hfeed, hstart, ← hsrc, hline, Text.after?_append, Option.getD_some,
    List.takeWhile_append_of_pos hv]
  cases b with
  | nil => exact List.append_nil v
  | cons x b => rw [List.takeWhile_cons_of_neg (by rw [hb x rfl]; decide), List.append_nil]

theorem lineBreak_of_mem (source : Text) {g : Text} (hg : '\n' ∈ g) :
    lineBreak source g = if ['\r', '\n'] <:+: g then ['\r', '\n'] else ['\n'] := by
  unfold lineBreak
  rw [if_pos (List.contains_iff_mem.2 hg)]
  simp only [Text.hasCrLf_iff]

/-- Where carriage returns stand before line feeds only, the rest of a gap behind its last line feed is indentation. -/
theorem indent_of_gap {source a u v b : Text} (hreturn : ∀ a b, source = a ++ '\r' :: b → b.head? = some '\n')
    (hsrc : source = a ++ (u ++ '\n' :: v ++ b)) (hv : ∀ x ∈ v, isLayout x = true) (hfeed : '\n' ∉ v)
    (hb : ∀ x, b.head? = some x → isLayout x = false) : ∀ x ∈ v, isIndent x = true := by
  intro x hx
  by_cases hr : x = '\r'
  · subst hr
    obtain ⟨v₁, v₂, rfl⟩ := List.append_of_mem hx
    have hnext := hreturn (a ++ (u ++ '\n' :: v₁)) (v₂ ++ b) (by simp [hsrc])
    cases v₂ with
    | nil => exact absurd (hb _ hnext) (by decide)
    | cons y v₂ =>
      obtain rfl : y = '\n' := Option.some.inj hnext
      exact absurd (by simp) hfeed
  · have hn : x ≠ '\n' := fun hn => hfeed (hn ▸ hx)
    simpa [isLayout, hr, hn] using hv x hx

/-- **Composed code keeps its indentation.**  Let every carriage return stand before a line feed.  Then layout alone stands
between two neighbours in a node that is composed.  If it breaks the line, composing puts one line end there, as in the
source, and the indentation of the second one; if it does not, and no brace, semicolon or comment asks for a line of its
own, composing puts one space there, or nothing if nothing was there. -/
theorem joint_keeps_indentation (h : doc.parse = .ok c)
    (hreturn : ∀ a b, doc.text = a ++ '\r' :: b → b.head? = some '\n') {t p n : Tree} {before after : List Tree}
    (ht : t ∈ c.tree.nodes) (hm : t.hasMarkup = true) (hk : t.kind ≠ .element)
    (hcs : t.children = before ++ p :: n :: after) :
    ∃ a g b, doc.text = a ++ (g ++ b) ∧ p.span.stop = bytes a ∧ n.span.start = bytes a + bytes g ∧
      (∀ x ∈ g, isLayout x = true) ∧
      (∀ u v, g = u ++ '\n' :: v → '\n' ∉ v →
        joint doc.text p n = (if ['\r', '\n'] <:+: g then ['\r', '\n'] else ['\n']) ++ v) ∧
      ('\n' ∉ g → p.isToken doc.text ['{'] = false → p.isToken doc.text [';'] = false →
        p.endsWithComment doc.text = false → n.isToken doc.text ['}'] = false →
        joint doc.text p n = if g = [] then g else [' ']) ∧
      ∀ settings room w, (Input.compose ⟨doc.text, settings⟩ (room + 1) t).result = .ok w →
        ∃ x y wp wn, w = x ++ (wp ++ (joint doc.text p n ++ (wn ++ y))) ∧
          (Input.compose ⟨doc.text, settings⟩ room p).result = .ok wp ∧
          (Input.compose ⟨doc.text, settings⟩ room n).result = .ok wn := by
  obtain ⟨a, g, b, hsrc, hg, hp, hn⟩ := exists_layout_of_parse h ht hcs
  have hchild : n ∈ t.children := by simp [hcs]
  have hnode : n ∈ c.tree.nodes := nodes_trans (mem_nodes_iff.2 (.inr ⟨n, hchild, mem_nodes_self n⟩)) ht
  have hb : ∀ x, b.head? = some x → isLayout x = false := by
    intro x hx
    obtain ⟨b', rfl⟩ := List.head?_eq_some_iff.1 hx
    have hplace : doc.text = (a ++ g) ++ x :: b' := by rw [hsrc, List.append_assoc]
    exact parse_flush h hnode (parse_composed h ht hm hk hchild) hplace (by rw [Text.bytes_append, hn])
  refine ⟨a, g, b, hsrc, hp, hn, hg, fun u v hgap hfeed => ?_, fun hfeed hopen hsemi hcomment hclose => ?_,
    fun settings room w hw => compose_split (i := ⟨doc.text, settings⟩) hcs hm hk hw⟩
  · subst hgap
    have hmem : '\n' ∈ u ++ '\n' :: v := by simp
    have hbreaks : breaksLine doc.text (u ++ '\n' :: v) p n = true := by simp [breaksLine]
    have hv : ∀ x ∈ v, isLayout x = true := fun x hx => hg x (by simp [hx])
    have hline : doc.text = (a ++ u) ++ '\n' :: v ++ b := by simp [hsrc]
    have hplace : n.span.start = bytes ((a ++ u) ++ '\n' :: v) := by simp [hn]
    have hindent : lineIndent doc.text (bytes ((a ++ u) ++ '\n' :: v)) = v := by
      refine lineIndent_eq hline (indent_of_gap hreturn hsrc hv hfeed hb) fun x hx => ?_
      have := hb x hx
      simp only [isLayout, Bool.or_eq_false_iff] at this
      exact this.1.1
    rw [joint_eq hsrc hp hn, if_pos hbreaks, lineBreak_of_mem _ hmem, hplace, hindent]
  · have hbreaks : breaksLine doc.text g p n = false := by simp [breaksLine, hopen, hsemi, hcomment, hclose, hfeed]
    rw [joint_eq hsrc hp hn, hbreaks]
    cases g <;> rfl

theorem joint_keeps_indentation_statements : ∃ c t x p n y, twoStatements.parse = .ok c ∧ t ∈ c.tree.nodes ∧
    t.children = [x] ++ p :: n :: [y] ∧ p.kind = .letStatement ∧ n.kind = .exprStatement ∧
    joint twoStatements.text p n = "\r\n  ".toList ∧
    ∃ a g b, twoStatements.text = a ++ (g ++ b) ∧ p.span.stop = bytes a ∧ n.span.start = bytes a + bytes g ∧
      ∀ u v, g = u ++ '\n' :: v → '\n' ∉ v →
        joint twoStatements.text p n = (if ['\r', '\n'] <:+: g then ['\r', '\n'] else ['\n']) ++ v := by
  obtain ⟨c, t, hparse, ht, hfound⟩ := exists_node twoStatements (fun t => t.hasMarkup && t.kind != .element &&
    t.children.map kind == [.token, .letStatement, .exprStatement, .token] &&
    ((t.children.drop 1).zip (t.children.drop 2)).head?.any fun q =>
      joint twoStatements.text q.1 q.2 == "\r\n  ".toList) (by decide +kernel)
  simp only [Bool.and_eq_true, bne_iff_ne, beq_iff_eq] at hfound
  obtain ⟨⟨⟨hm, hk⟩, hkinds⟩, hjoint⟩ := hfound
  obtain ⟨x, xs, hcs, -, hkinds⟩ := List.map_eq_cons_iff.1 hkinds
  obtain ⟨p, ps, rfl, hpk, hkinds⟩ := List.map_eq_cons_iff.1 hkinds
  obtain ⟨n, ns, rfl, hnk, hkinds⟩ := List.map_eq_cons_iff.1 hkinds
  obtain ⟨y, rfl, -⟩ := List.map_eq_singleton_iff.1 hkinds
  rw [hcs] at hjoint
  have hjoint : joint twoStatements.text p n = "\r\n  ".toList := beq_iff_eq.1 hjoint
  have hreturn : ∀ a b, twoStatements.text = a ++ '\r' :: b → b.head? = some '\n' := by
    intro a b hab
    have hall : ∀ i < twoStatements.text.length, twoStatements.text[i]? = some '\r' →
      twoStatements.text[i + 1]? = some '\n' := by decide
    have hnext := hall a.length (by simp [hab]) (by simp [hab])
    rw [hab, List.getElem?_append_right (Nat.le_add_right _ 1), Nat.add_sub_cancel_left, List.getElem?_cons_succ] at hnext
    rw [List.head?_eq_getElem?, hnext]
  obtain ⟨a, g, b, hsrc, hp, hn, -, hbreaks, -⟩ :=
    joint_keeps_indentation hparse hreturn ht hm hk (show t.children = [x] ++ p :: n :: [y] from hcs)
  exact ⟨c, t, x, p, n, y, hparse, ht, hcs, hpk, hnk, hjoint, a, g, b, hsrc, hp, hn, hbreaks⟩

end InlineMarkup
