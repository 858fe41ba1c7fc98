/-
# Suggestions for an open quote

A quoted scalar may be typed up to a place before its closing quote. What is
suggested there is whole scalars in quotes, of those candidates that go on from
the text typed so far. Two things have to fit together: the candidate goes on
from the text, and its written form goes on from what is typed. They part only
at a backslash that escapes nothing: it may be typed by itself, and is written
as two.

Key definitions: `OpensQuote`, `wholeScalars`.
Key theorems: `OpensQuote.beginsWith_quote_iff`, `completeQuoted_exact`.
-/
import CommandConsole.Completion.Suggest
import CommandConsole.Proofs.Line.Elements

namespace CommandConsole

/-- A quoted scalar without its closing quote is typed, and `part` is its text so far. -/
def OpensQuote (typed part : String) : Prop :=
  ∃ cs, typed.toList = '"' :: cs ∧ (scanQuoted 1 cs).closed = false ∧
    (scanQuoted 1 cs).text = part.toList

/-- The texts that a scalar with the beginning `part` may come to: those of the candidates, and
`part` itself if there are none. -/
def wholeScalars (candidates : List String) (part : String) : List String :=
  if candidates = [] then [part] else candidates.filter fun c => beginsWith c part

theorem beginsWith_iff {text start : String} :
    beginsWith text start = true ↔ start.toList <+: text.toList := List.isPrefixOf_iff_prefix

theorem wholeScalars_begin {candidates : List String} {part c : String}
    (h : c ∈ wholeScalars candidates part) : beginsWith c part = true := by
  unfold wholeScalars at h
  split at h
  · rw [List.mem_singleton.mp h]
    exact beginsWith_iff.mpr List.prefix_rfl
  · exact (List.mem_filter.mp h).2

theorem completeQuoted_eq (candidates : List String) (part typed : String) :
    completeQuoted candidates part typed =
      ((wholeScalars candidates part).map quote).filter fun q => beginsWith q typed := by
  unfold completeQuoted wholeScalars
  simp only [List.isEmpty_iff]

/-! ### Escapes and beginnings -/

theorem escapeQuoted_append : ∀ a b : List Char,
    escapeQuoted (a ++ b) = escapeQuoted a ++ escapeQuoted b
  | [], _ => rfl
  | c :: a, b => by
    have ih := escapeQuoted_append a b
    simp only [List.cons_append, escapeQuoted]
    split <;> simp [ih]

/-- Behind characters in their written form a scan goes on as if they were not there. -/
theorem scanQuoted_behind (ds : List Char) : ∀ (offset : Nat) (cs : List Char),
    ∃ offset', (scanQuoted offset (escapeQuoted cs ++ ds)).text =
        cs ++ (scanQuoted offset' ds).text ∧
      (scanQuoted offset (escapeQuoted cs ++ ds)).closed = (scanQuoted offset' ds).closed
  | offset, [] => ⟨offset, rfl, rfl⟩
  | offset, c :: cs => by
    by_cases hc : c = '"' ∨ c = '\\'
    · obtain ⟨offset', htext, hclosed⟩ := scanQuoted_behind ds (offset + 2) cs
      refine ⟨offset', ?_⟩
      rw [escapeQuoted, if_pos hc, List.cons_append, List.cons_append, scanQuoted_escape hc]
      exact ⟨congrArg (c :: ·) htext, hclosed⟩
    · obtain ⟨offset', htext, hclosed⟩ := scanQuoted_behind ds (offset + c.utf8Size) cs
      refine ⟨offset', ?_⟩
      rw [escapeQuoted, if_neg hc, List.cons_append,
        scanQuoted_char (fun h => hc (.inl h)) fun h => hc (.inr h)]
      exact ⟨congrArg (c :: ·) htext, hclosed⟩

/-- Every character of an open quoted scalar stands for some text. -/
theorem eq_nil_of_scanQuoted {offset : Nat} {cs : List Char}
    (hclosed : (scanQuoted offset cs).closed = false) (htext : (scanQuoted offset cs).text = []) :
    cs = [] := by
  fun_induction scanQuoted offset cs with
  | case1 => rfl
  | case2 => cases hclosed
  | case3 => cases htext
  | case4 => cases htext
  | case5 => cases htext

/-- The written form of a text begins with the characters of its beginning in their written form. -/
theorem exists_toList_quote {c part : String} (h : beginsWith c part = true) :
    ∃ rest, (quote c).toList = '"' :: (escapeQuoted part.toList ++ rest) := by
  obtain ⟨more, hmore⟩ := beginsWith_iff.mp h
  refine ⟨escapeQuoted more ++ ['"'], ?_⟩
  rw [toList_quote, ← hmore, escapeQuoted_append, List.append_assoc]

namespace OpensQuote

variable {typed part c : String}

/-- What is typed is not longer than the written form of its text. -/
theorem prefix_of_prefix {rest : List Char} (h : OpensQuote typed part)
    (hq : typed.toList <+: '"' :: (escapeQuoted part.toList ++ rest)) :
    typed.toList <+: '"' :: escapeQuoted part.toList := by
  obtain ⟨cs, htyped, hclosed, htext⟩ := h
  rw [htyped, List.cons_prefix_cons] at hq ⊢
  refine ⟨rfl, ?_⟩
  rcases List.prefix_or_prefix_of_prefix hq.2 (List.prefix_append _ rest) with hle | ⟨ds, hds⟩
  · exact hle
  · obtain ⟨offset, hbehind, hopen⟩ := scanQuoted_behind ds 1 part.toList
    rw [hds] at hbehind hopen
    have hnil : (scanQuoted offset ds).text = [] :=
      List.append_cancel_left (by rw [← hbehind, htext, List.append_nil])
    obtain rfl := eq_nil_of_scanQuoted (hopen.symm.trans hclosed) hnil
    have hcs : cs = escapeQuoted part.toList := by rw [← hds, List.append_nil]
    exact hcs ▸ List.prefix_rfl

/-- **Of the texts that begin with `part`, either all go on in their written form from what is
typed, or none.** -/
theorem beginsWith_quote_iff (h : OpensQuote typed part) (hc : beginsWith c part = true) :
    beginsWith (quote c) typed = true ↔ beginsWith (quote part) typed = true := by
  have hself : beginsWith part part = true := beginsWith_iff.mpr List.prefix_rfl
  obtain ⟨rest, hrest⟩ := exists_toList_quote hc
  obtain ⟨rest', hrest'⟩ := exists_toList_quote hself
  rw [beginsWith_iff, beginsWith_iff, hrest, hrest']
  have hlong : ∀ rest, '"' :: escapeQuoted part.toList <+:
      '"' :: (escapeQuoted part.toList ++ rest) :=
    fun rest => List.cons_prefix_cons.mpr ⟨rfl, List.prefix_append _ _⟩
  exact ⟨fun hq => (h.prefix_of_prefix hq).trans (hlong _),
    fun hq => (h.prefix_of_prefix hq).trans (hlong _)⟩

end OpensQuote

/-- A quoted scalar is a whole literal. -/
theorem parseLiteral_quote (limit : Nat) (c : String) :
    ∃ span, parseLiteral limit (quote c) = .ok (.scalar c span) := by
  have hblanks : (Cursor.start (quote c)).skipBlanks.rest = (quote c).toList ++ [] := by
    rw [Cursor.skipBlanks_rest, Cursor.start, toList_quote, List.append_nil]
    exact dropBlanks_cons (by decide) _
  obtain ⟨span, stop, hread, hrest⟩ : ∃ span stop,
      readValue limit (Cursor.start (quote c)).skipBlanks = .ok (.scalar c span, stop) ∧
        stop.rest = [] := readValue_quote hblanks fun _ h => by cases h
  exact ⟨span, parseLiteral_of_readValue hread (hrest ▸ AllBlank.nil)⟩

/-- **What is suggested for an open quote is exact.** Every suggestion goes on from what is typed
and is read as a scalar: a candidate that begins with the text typed so far, or that text if there
are no candidates. Where what is typed is the written form of its text up to the closing quote,
all of these are suggested, in their order. Anywhere else it is all or none: none where
something is typed that the written form of its text does not begin with. -/
theorem completeQuoted_exact {typed part : String} (h : OpensQuote typed part)
    (candidates : List String) (limit : Nat) :
    (∀ q ∈ completeQuoted candidates part typed, beginsWith q typed = true ∧
      ∃ c span, parseLiteral limit q = .ok (.scalar c span) ∧ (candidates = [] → c = part) ∧
        (candidates ≠ [] → c ∈ candidates ∧ beginsWith c part = true)) ∧
    (typed ++ "\"" = quote part → completeQuoted candidates part typed =
      if candidates = [] then [quote part]
      else (candidates.filter fun c => beginsWith c part).map quote) ∧
    completeQuoted candidates part typed =
      if beginsWith (quote part) typed then (wholeScalars candidates part).map quote else [] := by
  have hall : completeQuoted candidates part typed =
      if beginsWith (quote part) typed then (wholeScalars candidates part).map quote else [] := by
    rw [completeQuoted_eq]
    split
    · rename_i hq
      refine List.filter_eq_self.mpr fun q hmem => ?_
      obtain ⟨c, hc, rfl⟩ := List.mem_map.mp hmem
      exact (h.beginsWith_quote_iff (wholeScalars_begin hc)).mpr hq
    · rename_i hq
      refine List.filter_eq_nil_iff.mpr fun q hmem => ?_
      obtain ⟨c, hc, rfl⟩ := List.mem_map.mp hmem
      exact fun hb => hq ((h.beginsWith_quote_iff (wholeScalars_begin hc)).mp hb)
  refine ⟨fun q hmem => ?_, fun hwritten => ?_, hall⟩
  · rw [completeQuoted_eq] at hmem
    obtain ⟨hmem, hbegins⟩ := List.mem_filter.mp hmem
    obtain ⟨c, hc, rfl⟩ := List.mem_map.mp hmem
    obtain ⟨span, hparse⟩ := parseLiteral_quote limit c
    refine ⟨hbegins, c, span, hparse, fun hnil => ?_, fun hne => ?_⟩
    · rw [wholeScalars, if_pos hnil] at hc
      exact List.mem_singleton.mp hc
    · rw [wholeScalars, if_neg hne] at hc
      exact List.mem_filter.mp hc
  · have hq : beginsWith (quote part) typed = true := by
      rw [beginsWith_iff, ← hwritten, String.toList_append]
      exact List.prefix_append _ _
    rw [hall, if_pos hq, wholeScalars]
    split <;> rfl

/-- A quote and a backslash in their written form; and a lone backslash, which no written form
goes on from unless it is the last character typed. -/
theorem completeQuoted_exact_backslash :
    (OpensQuote "\"a\\\\" "a\\" ∧ OpensQuote "\"a\\b" "a\\b" ∧ OpensQuote "\"a\\" "a\\") ∧
      completeQuoted ["a\\b", "a\"", "a\\"] "a\\" "\"a\\\\" = ["\"a\\\\b\"", "\"a\\\\\""] ∧
      completeQuoted ["a\\b"] "a\\b" "\"a\\b" = [] ∧
      completeQuoted [] "a\\" "\"a\\" = ["\"a\\\\\""] := by
  have hwritten : OpensQuote "\"a\\\\" "a\\" := ⟨"a\\\\".toList, by decide, by decide, by decide⟩
  have hlone : OpensQuote "\"a\\b" "a\\b" := ⟨"a\\b".toList, by decide, by decide, by decide⟩
  have hlast : OpensQuote "\"a\\" "a\\" := ⟨"a\\".toList, by decide, by decide, by decide⟩
  refine ⟨⟨hwritten, hlone, hlast⟩, ?_⟩
  rw [(completeQuoted_exact hwritten ["a\\b", "a\"", "a\\"] 64).2.1 (by decide),
    (completeQuoted_exact hlone ["a\\b"] 64).2.2, (completeQuoted_exact hlast [] 64).2.2]
  decide

end CommandConsole
