import InlineMarkup.Proofs.LineTails
/-!
# Proofs.Comments — comments end their lines in the output

A comment takes the rest of its line, so whatever is written behind it has to begin with a line end.  Behind a comment
that ends a node, the composer, an argument and the assembler each put one (`commentWatch_lawful`).  So no comment of the
source swallows what is written behind it (`translate_closes_comments`).
-/
namespace InlineMarkup

open Lowering Logged Patch InlineMarkup.Tree
open Text (bytes)

variable {doc : Document} {c : Cst}

/-- Behind a comment the line ends. -/
def commentWatch : Watch := ⟨fun u => u.kind = .comment, fun _ x => x = '\n' ∨ x = '\r'⟩

theorem commentWatch_allowsBreak (u : Tree) : commentWatch.AllowsBreak u := ⟨.inl rfl, .inr rfl⟩

theorem endsWithComment_of_ends (hp : doc.parse = .ok c) {t u : Tree} (ht : t ∈ nodesAll c.tree.children)
    (hk : u.kind = .comment) (h : u.Ends t) : t.endsWithComment c.source = true := by
  have hline := parse_comment hp (parse_below hp (mem_below ht h.1)).1 hk
  rw [endsWithComment, lastLeaf_of_ends hp hline ht h, hk]

/-- **Wherever a comment may end what is copied**, a line end is written. -/
theorem commentWatch_lawful (hp : doc.parse = .ok c) : commentWatch.Lawful doc c where
  takesLine u hu hk := parse_comment hp hu hk
  inside _ _ _ _ u _ _ _ := commentWatch_allowsBreak u
  top _ _ u _ _ := commentWatch_allowsBreak u
  between t ht _ _ _ before p n after hcs u hk hends := by
    have hpmem : p ∈ t.children := by simp [hcs]
    have hcomment := endsWithComment_of_ends hp (child_below ht hpmem) hk hends
    rw [joint]
    simp only [hcomment, Bool.or_true, Bool.true_or, if_true]
    rcases lineBreak_cases c.source ((Text.slice? c.source p.span.stop n.span.start).getD []) with h | h <;> rw [h]
    · exact ⟨_, _, rfl, .inr rfl⟩
    · exact ⟨_, _, rfl, .inl rfl⟩
  argument t ht _ e he _ u hk hends := by
    rw [if_pos (endsWithComment_of_ends hp (child_below ht he) hk hends)]
    exact commentWatch_allowsBreak u

/-- **Comments never swallow output.**  Wherever a comment of a document is copied to its translation, its line ends right
behind it there, or the output does. -/
theorem translate_closes_comments {settings : Settings} {output : Text}
    (h : (doc.translate settings).result = .ok output) :
    ∃ c, doc.parse = .ok c ∧ texts doc.text (c.patches settings) = output ∧
      ∀ before s after, c.patches settings = before ++ .copied s :: after → ∀ u ∈ c.tree.nodes, u.kind = .comment →
        s.start ≤ u.span.start → u.span.stop ≤ s.stop →
          ∃ a rest, output = texts doc.text before ++ (a ++ (u.text doc.text ++ rest)) ∧
            bytes a = u.span.start - s.start ∧ ∀ x ∈ rest.head?, x = '\n' ∨ x = '\r' := by
  obtain ⟨c, hp, rfl⟩ := translate_patches h
  rw [← parse_source hp]
  refine ⟨c, hp, rfl, fun before s after hpatches u hu hk hstart hstop => ?_⟩
  obtain ⟨a, rest, houtput, ha, hends, -⟩ := (commentWatch_lawful hp).exists_behind hp hpatches hu hk hstart hstop
  exact ⟨a, rest, houtput, ha, hends⟩

/-- An argument that ends in a comment, and another comment behind the element. -/
def commented : Document := ⟨"a.mbx", "<p b=\x7bf(x) // one\n\x7d/> // two".toList⟩

theorem translate_closes_comments_argument : ∃ c output, commented.parse = .ok c ∧
    (commented.translate {}).result = .ok output ∧ output = "h(\"p\", [attr(\"b\", f(x) // one\n)], []) // two\n".toList ∧
    ∃ before s after, c.patches {} = before ++ .copied s :: after ∧ ∃ u ∈ c.tree.nodes, u.kind = .comment ∧
      u.text commented.text = "// one".toList ∧ ∃ a rest, output = texts commented.text before ++
        (a ++ (u.text commented.text ++ rest)) ∧ bytes a = u.span.start - s.start ∧ ∀ x ∈ rest.head?, x = '\n' ∨ x = '\r' := by
  have houtput : (commented.translate {}).result.toOption =
      some "h(\"p\", [attr(\"b\", f(x) // one\n)], []) // two\n".toList := by decide +kernel
  cases hresult : (commented.translate {}).result with
  | error d =>
    rw [hresult] at houtput
    cases houtput
  | ok output =>
    rw [hresult] at houtput
    obtain ⟨c, hparse, -, hall⟩ := translate_closes_comments hresult
    have hfound : (commented.parse.toOption.any fun c => c.copies {} fun u =>
        u.kind == .comment && u.text commented.text == "// one".toList) = true := by decide +kernel
    rw [hparse] at hfound
    obtain ⟨before, s, after, hpatches, u, hu, hq, hstart, hstop⟩ := exists_copied hfound
    simp only [Bool.and_eq_true, beq_iff_eq] at hq
    exact ⟨c, output, hparse, rfl, Option.some.inj houtput, before, s, after, hpatches, u, hu, hq.1, hq.2,
      hall before s after hpatches u hu hq.1 hstart hstop⟩

end InlineMarkup
