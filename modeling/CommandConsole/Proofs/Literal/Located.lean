/-
# Literals that lie in a text

Every node of a literal that is read has a span that begins and ends between
two characters of the text. A literal that cannot be read fails at such a place
too, although the reader looks ahead.

Key definition: `Literal.LiesIn`.
Key theorems: `readValue_liesIn`, `readValue_error_isBoundary`, `parseLiteral_liesIn`,
`parseLiteral_error_isBoundary`.
-/
import CommandConsole.Proofs.Literal.GivenUp
import CommandConsole.Proofs.Literal.WellFormed
import CommandConsole.Proofs.Text.Boundary

namespace CommandConsole
namespace Literal

/-- The spans of all nodes of the literal lie in the text. -/
def LiesIn (text : String) (v : Literal) : Prop := ∀ n, v.Contains n → n.span.LiesIn text

namespace LiesIn

variable {text : String} {v : Literal} {items : List Literal} {s : Span}

theorem span (h : v.LiesIn text) : v.span.LiesIn text := h v (.self v)

theorem of_parts (hs : v.span.LiesIn text) (hp : ∀ p ∈ v.parts, p.LiesIn text) :
    v.LiesIn text := by
  intro n hn
  cases hn with
  | self => exact hs
  | part hmem hcontains => exact hp _ hmem n hcontains

theorem part (h : v.LiesIn text) : ∀ p ∈ v.parts, p.LiesIn text :=
  fun _ hp n hn => h n (.part hp hn)

theorem empty (h : s.LiesIn text) : (Literal.empty s).LiesIn text :=
  of_parts h fun _ hp => absurd hp List.not_mem_nil

theorem scalar {word : String} (h : s.LiesIn text) : (Literal.scalar word s).LiesIn text :=
  of_parts h fun _ hp => absurd hp List.not_mem_nil

theorem list (h : s.LiesIn text) (hi : ∀ i ∈ items, i.LiesIn text) :
    (Literal.list items s).LiesIn text :=
  of_parts h hi

end LiesIn
end Literal

variable {limit : Nat} {text : String} {c d : Cursor} {v : Literal} {f : LiteralFailure}

/-- What is derived in a text lies in it. -/
theorem Derives.liesIn {k : Nat} (hc : (Cursor.start text).Reaches c)
    (h : Derives limit k c v d) : v.LiesIn text := by
  intro n hn
  obtain ⟨j, c', d', hnode, hc', -⟩ := h.node hn
  obtain ⟨e, hspan, he, -⟩ := hnode.span
  rw [hspan]
  exact .spanTo (hc.trans hc') he

/-- **A literal that is read lies in the text.** -/
theorem readValue_liesIn (hc : (Cursor.start text).Reaches c)
    (h : readValue limit c = .ok (v, d)) : v.LiesIn text :=
  (readValue_iff_derives.mp h).liesIn hc

/-- **A literal that cannot be read fails at a place of the text.** -/
theorem readValue_error_isBoundary (hc : (Cursor.start text).Reaches c)
    (h : readValue limit c = .error f) : isBoundary text f.position = true := by
  obtain ⟨e, he, hposition, -⟩ := (laid_start c).run_error h
  rw [hposition]
  exact isBoundary_iff.mpr ⟨e, hc.trans he, rfl⟩

theorem parseLiteral_liesIn (h : parseLiteral limit text = .ok v) : v.LiesIn text := by
  obtain ⟨c, d, hc, hv, -⟩ := derives_of_parseLiteral h
  exact hv.liesIn hc

/-- Also where more stands behind the literal. -/
theorem parseLiteral_error_isBoundary (h : parseLiteral limit text = .error f) :
    isBoundary text f.position = true := by
  have hc : (Cursor.start text).Reaches (Cursor.start text).skipBlanks := .skipBlanks _
  cases hread : readValue limit (Cursor.start text).skipBlanks with
  | error g =>
    rw [parseLiteral_of_readValue_error hread] at h
    cases h
    exact readValue_error_isBoundary hc hread
  | ok r =>
    obtain ⟨v, d⟩ := r
    have hd := (readValue_laid hread).2.2
    simp only [parseLiteral, hread, bind, Except.bind] at h
    split at h
    · cases h
    · cases h
      exact isBoundary_iff.mpr ⟨_, hc.trans (hd.trans (.skipBlanks d)), rfl⟩

end CommandConsole
