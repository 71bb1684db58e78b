import InlineMarkup.Proofs.Shapes
/-!
# Proofs.Origins — every node comes from a match

The nodes of a parse are matches of their rules at places of the source (`Matched`), and the nodes of a document's tree
are these and the tokens between them (`parse_origin`).  What the rules call tells what may stand directly below a node
(`parse_nested`).
-/
namespace InlineMarkup

open Text (bytes)

namespace Grammar

/-- The node comes from a match of its rule at a place of the source, and so does every node below it. -/
inductive Matched (source : Text) : Parse Rule → Prop where
  | node {r : Rule} {l : Layout} {c c' : Cursor} {inner : List (Parse Rule)} (place : c.In source)
      (named : document.style r ≠ .silent) (left : (document.style r).around l ≠ .token)
      (body : Eval document (document.body r) ((document.style r).inside l) .here c (some (c', inner)))
      (below : ∀ p ∈ inner, Matched source p) : Matched source (.node r c.offset c'.offset inner)

/-- **All nodes that an evaluation leaves come from matches.** -/
theorem Eval.matched {source : Text} {e : Expr Rule} {l : Layout} {k : Look} {c : Cursor} {o : Result Rule}
    (h : Eval document e l k c o) : k = .here → c.In source → ∀ m, o = some m → ∀ p ∈ m.2, Matched source p := by
  rintro hk hc ⟨c', xs⟩ rfl p hmem
  induction h using Eval.match_induction generalizing p with
  | seq hp hs _ ihp ihs ihq =>
    rcases List.mem_append.1 hmem with hx | hmem
    · exact ihp hk hc p hx
    rcases List.mem_append.1 hmem with hy | hz
    · exact ihs hk (hp.in_source hc) p hy
    · exact ihq hk (hs.in_source (hp.in_source hc)) p hz
  | altLeft _ ih | altRight _ ih | optSome _ ih | silent _ _ ih => exact ih hk hc p hmem
  | manySome hp _ ihp ihm =>
    rcases List.mem_append.1 hmem with hx | hy
    · exact ihp hk hc p hx
    · exact ihm hk (hp.in_source hc) p hy
  | moreSome hs hp _ ihs ihp ihm =>
    rcases List.mem_append.1 hmem with hx | hmem
    · exact ihs hk hc p hx
    rcases List.mem_append.1 hmem with hy | hz
    · exact ihp hk (hs.in_source hc) p hy
    · exact ihm hk (hp.in_source (hs.in_source hc)) p hz
  | node hs hb ih =>
    subst hk
    rcases mem_treesOf hmem with ⟨hl, rfl⟩ | hmem
    · exact .node hc hs hl hb (ih rfl hc)
    · exact ih rfl hc p hmem
  | _ => cases hmem

/-- The match of a rule leaves its node, over what its body leaves. -/
theorem Eval.rule_parts {r : Rule} {l : Layout} {c c' : Cursor} {xs : List (Parse Rule)}
    (h : Eval document (.rule r) l .here c (some (c', xs))) (hs : document.style r ≠ .silent) (hl : l ≠ .token) :
    ∃ inner, xs = [.node r c.offset c'.offset inner] ∧
      Eval document (document.body r) ((document.style r).inside l) .here c (some (c', inner)) := by
  generalize ho : some (c', xs) = o at h
  cases h with
  | silent hsilent => exact absurd hsilent hs
  | node _ hb =>
    obtain ⟨m, rfl, hm⟩ := Option.map_eq_some_iff.1 ho.symm
    cases hm
    refine ⟨m.2, ?_, hb⟩
    rw [treesOf, if_pos (by simp [Style.leaves, around_ne_token hl])]

theorem Matched.of_mem {source : Text} {r : Rule} {start stop : Nat} {inner : List (Parse Rule)}
    (h : Matched source (.node r start stop inner)) : ∀ p ∈ inner, Matched source p := by
  cases h with
  | node _ _ _ _ below => exact below

/-- The rules of the nodes below a node, if its rule calls no others. -/
theorem Matched.rules {call : Rule → Bool} (hlayout : document.layout.made (fun _ => true) call = true)
    (hsilent : ∀ r, call r = true → document.style r = .silent → (document.body r).made (fun _ => true) call = true)
    {source : Text} {r : Rule} {start stop : Nat} {inner : List (Parse Rule)} (h : Matched source (.node r start stop inner))
    (hr : document.style r ≠ .token) (hmade : (document.body r).made (fun _ => true) call = true) :
    ∀ p ∈ inner, call p.rule = true := by
  intro p hp
  cases h with
  | node _ _ left body _ =>
    obtain ⟨ps, -, htrees, -, hyields⟩ := body.consists rfl _ rfl
    have htrees : treesIn ps = inner := htrees
    rw [← htrees, treesIn, List.mem_filterMap] at hp
    obtain ⟨x, hx, hxp⟩ := hp
    cases x with
    | char y => cases hxp
    | tree q u =>
      cases hxp
      exact ((hyields.made hlayout hsilent (inside_ne_token hr left) hmade).2 p.rule (List.mem_map.2 ⟨_, hx, rfl⟩)).1

end Grammar

namespace Tree

open Grammar

/-- The nodes of a match come from matches; what is handed down from node to node holds of them if it holds of the whole. -/
theorem exists_origin {Q : Parse Rule → Prop}
    (hQ : ∀ {r start stop inner}, Q (.node r start stop inner) → ∀ p ∈ inner, Q p) {source : Text} {p : Parse Rule}
    (h : Matched source p) :
    Q p → ∀ t ∈ named p, ∀ v ∈ t.nodes, ∃ q, Matched source q ∧ Q q ∧ v ∈ named q := by
  induction h with
  | @node r l c c' inner place named left body below ih =>
    intro hq t ht v hv
    rcases mem_nodes_iff.1 hv with rfl | ⟨d, hd, hvd⟩
    · exact ⟨_, .node place named left body below, hq, ht⟩
    · obtain ⟨k, -, rfl⟩ := mem_named.1 ht
      have hd : d ∈ namedAll inner := by
        rw [Tree.children] at hd
        split at hd
        · cases hd
        · exact hd
      obtain ⟨p, hp, hdp⟩ := mem_namedAll.1 hd
      exact ih p hp (hQ hq p hp) d hdp v hvd

end Tree

open Grammar in
theorem parse_eval {doc : Document} {c : Cst} (h : doc.parse = .ok c) :
    ∃ c' inner, c = Cst.ofParse doc.text (.node .program 0 (bytes doc.text) inner) ∧ c'.offset = bytes doc.text ∧
      Eval document (document.body .program) .spaced .here ⟨0, doc.text⟩ (some (c', inner)) := by
  unfold Document.parse at h
  split at h
  · next c' p ps a hm =>
    have heval : Eval document (.rule .program) .spaced .here ⟨0, doc.text⟩ (some (c', p :: ps)) :=
      eval_of_run document _ _ _ _ _ _ _ (by rw [show run document _ _ _ _ _ _ = _ from hm]; rfl)
    obtain ⟨inner, htrees, hbody⟩ := heval.rule_parts (by decide) (by decide)
    obtain ⟨inner', rfl, -, -⟩ := parseDocument_matched hm
    obtain ⟨-, -, hstop, rfl⟩ := Parse.node.inj (List.cons.inj htrees).1
    exact ⟨c', _, (Except.ok.inj h).symm, hstop.symm, hbody⟩
  · cases h
  · cases h
  · cases h

open Grammar in
/-- The nodes of a document but the tokens come from matches, of which all holds that is handed down from the whole. -/
theorem parse_origin_with {Q : Parse Rule → Prop}
    (hQ : ∀ {r start stop inner}, Q (.node r start stop inner) → ∀ p ∈ inner, Q p) {doc : Document} {c : Cst}
    (h : doc.parse = .ok c) (hroot : ∀ c' inner,
      Eval document (document.body .program) .spaced .here ⟨0, doc.text⟩ (some (c', inner)) →
      Q (.node .program 0 (bytes doc.text) inner)) {t : Tree} (ht : t ∈ c.tree.nodes) :
    t.IsToken doc.text ∨ ∃ r start stop inner k, Matched doc.text (.node r start stop inner) ∧
      Q (.node r start stop inner) ∧ Kind.ofRule? r = some k ∧
      t = (Tree.node k ⟨start, stop⟩ (if k.isLeaf then [] else Tree.namedAll inner)).finished doc.text := by
  obtain ⟨c', inner, rfl, hstop, heval⟩ := parse_eval h
  have hin : Cursor.In doc.text ⟨0, doc.text⟩ := ⟨[], rfl, rfl⟩
  have hmatched : Matched doc.text (.node .program 0 (bytes doc.text) inner) :=
    hstop ▸ .node (l := .spaced) hin (by decide) (by decide) heval (heval.matched rfl hin _ rfl)
  rw [tree_ofParse] at ht
  refine (Tree.mem_nodes_finished ht).imp id fun ⟨v, hv, htv⟩ => ?_
  obtain ⟨⟨r, start, stop, inner'⟩, hm, hq, hvq⟩ :=
    Tree.exists_origin hQ hmatched (hroot c' inner heval) _ (Tree.mem_named.2 ⟨.program, rfl, rfl⟩) v hv
  obtain ⟨k, hk, rfl⟩ := Tree.mem_named.1 hvq
  exact ⟨r, start, stop, inner', k, hm, hq, hk, htv⟩

open Grammar in
/-- **All nodes of a document** but the tokens come from matches. -/
theorem parse_origin {doc : Document} {c : Cst} (h : doc.parse = .ok c) {t : Tree} (ht : t ∈ c.tree.nodes) :
    t.IsToken doc.text ∨ ∃ r start stop inner k, Matched doc.text (.node r start stop inner) ∧ Kind.ofRule? r = some k ∧
      t = (Tree.node k ⟨start, stop⟩ (if k.isLeaf then [] else Tree.namedAll inner)).finished doc.text := by
  refine (parse_origin_with (Q := fun _ => True) (fun _ _ _ => trivial) h (fun _ _ _ => trivial) ht).imp id ?_
  rintro ⟨r, start, stop, inner, k, hm, -, hk, ht⟩
  exact ⟨r, start, stop, inner, k, hm, hk, ht⟩

/-- A node of a document, found by what holds of it. -/
theorem exists_node (doc : Document) (q : Tree → Bool)
    (h : (doc.parse.toOption.any fun c => c.tree.nodes.any q) = true) :
    ∃ c t, doc.parse = .ok c ∧ t ∈ c.tree.nodes ∧ q t = true := by
  cases hp : doc.parse with
  | error d =>
    rw [hp] at h
    cases h
  | ok c =>
    rw [hp] at h
    obtain ⟨t, ht, hq⟩ := List.any_eq_true.1 (show (c.tree.nodes.any q) = true from h)
    exact ⟨c, t, rfl, ht, hq⟩

end InlineMarkup
