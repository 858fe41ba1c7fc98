/-
# Where a value ends

At top level a bareword ends before a blank or at the end of the text. So a
value right in front of another token is in brackets or quotes, and so is one
that takes the blank at the end of a text along, unless a backslash does.
Nothing of this changes when the text goes on and closes nothing.

Key definition: `EndsFull`.
Key theorems: `Unclosing.readValue_extend`, `opensGroup_of_adjacent`, `opensGroup_of_endsBlank`.
-/
import CommandConsole.Proofs.Literal.Unclosing
import CommandConsole.Proofs.Token.Piece

namespace CommandConsole

/-! ### Texts that go on -/

variable {limit : Nat} {c stop : Cursor} {v : Literal} {ds : List Char}

theorem Unclosing.readValue_extend (hd : Unclosing ds) (ht : dropBlanks ds = ds)
    (h : readValue limit c = .ok (v, stop))
    (hends : stop.rest ≠ [] ∨ ∃ ch ∈ c.peek, opensGroup ch = true) :
    readValue limit (c.extend ds) = .ok (v, stop.extend ds) :=
  hd.run_extend ht h (hends.imp_right .inr)

/-- At top level a bareword stops before a blank or at the end of the text. -/
theorem scanBareword_topLevel_head {verbatim offset : Nat} {cs : List Char} :
    ∀ ch ∈ (scanBareword .topLevel verbatim offset cs).after.rest.head?, isBlank ch = true := by
  fun_induction scanBareword .topLevel verbatim offset cs <;>
    simp_all [ScalarScan.prepend, Place.ends]

/-- A value that begins with neither a bracket nor a quote ends where the bareword does. -/
theorem stop_of_readValue {ch : Char} {cs : List Char} (hc : c.rest = ch :: cs)
    (ho : opensGroup ch = false) (h : readValue limit c = .ok (v, stop)) :
    stop = (scanBareword .topLevel 0 c.offset c.rest).after := by
  rw [readValue_word limit hc ho] at h
  cases h
  rfl

/-- Only a value that begins with a bracket or a quote cannot be read. -/
theorem opensGroup_of_readValue_error {ch : Char} {cs : List Char} {f : LiteralFailure}
    (hc : c.rest = ch :: cs) (h : readValue limit c = .error f) : opensGroup ch = true := by
  refine Classical.byContradiction fun ho => ?_
  rw [readValue_word limit hc (by simpa using ho)] at h
  cases h

/-- A value that begins with a group, or has something behind it, does not consist of dashes. -/
theorem exists_ne_dash {ch : Char} {cs : List Char} (hc : c.rest = ch :: cs)
    (h : opensGroup ch = true ∨ ∃ v stop, readValue limit c = .ok (v, stop) ∧ stop.rest ≠ []) :
    ∃ d ∈ c.rest, d ≠ '-' := by
  by_cases ho : opensGroup ch = true
  · refine ⟨ch, by simp [hc], ?_⟩
    rintro rfl
    exact absurd ho (by decide)
  · obtain ⟨v, stop, hr, hne⟩ := h.resolve_left ho
    obtain ⟨d, ds, hstop⟩ := List.exists_cons_of_ne_nil hne
    have hafter := stop_of_readValue hc (by simpa using ho) hr
    have hblank := scanBareword_topLevel_head d (by rw [← hafter, hstop]; rfl)
    obtain ⟨used, hused, -⟩ := (readValue_laid hr).2.2
    refine ⟨d, by simp [hused, hstop], ?_⟩
    rintro rfl
    exact absurd hblank (by decide)

/-- A value right in front of another token begins with a bracket or a quote. -/
theorem opensGroup_of_adjacent {x : List Char} (hx : x ≠ []) (ht : dropBlanks x = x)
    (h : readValue limit (c.extend x) = .ok (v, stop)) (hs : stop.rest = x) (hne : c.rest ≠ []) :
    ∃ ch ∈ c.peek, opensGroup ch = true := by
  obtain ⟨ch, cs, hc⟩ := List.exists_cons_of_ne_nil hne
  obtain ⟨d, ds, rfl⟩ := List.exists_cons_of_ne_nil hx
  refine ⟨ch, Cursor.peek_of_rest hc, ?_⟩
  by_cases ho : opensGroup ch = true
  · exact ho
  · have hrest : (c.extend (d :: ds)).rest = ch :: (cs ++ d :: ds) := by simp [hc]
    have hstop := stop_of_readValue hrest (by simpa using ho) h
    have hblank := scanBareword_topLevel_head d (by rw [← hstop, hs]; rfl)
    rw [isBlank_of_dropBlanks ht] at hblank
    cases hblank

/-! ### Texts that end with a blank -/

/-- A group ends with a bracket, a brace or a quote. -/
theorem groupLength_last (cs : List Char) : ∀ {closers : List Char} {quoted : Bool} {n : Nat},
    groupLength closers quoted cs = some n → ∃ d, cs[n - 1]? = some d ∧ isBlank d = false := by
  induction cs using escaped_induction with
  | nil =>
    intro closers quoted n h
    rw [groupLength] at h
    cases h
  | lone =>
    intro closers quoted n h
    rw [groupLength] at h
    cases h
  | escape c cs ih =>
    intro closers quoted n h
    rw [groupLength_escape] at h
    obtain ⟨m, hm, rfl⟩ := Option.map_eq_some_iff.mp h
    have hpos := (groupLength_le_length _ _ _ _ hm).1
    obtain ⟨d, hd, hb⟩ := ih hm
    refine ⟨d, ?_, hb⟩
    obtain ⟨k, rfl⟩ := Nat.exists_eq_add_of_lt hpos
    simpa using hd
  | char c cs hc ih =>
    intro closers quoted n h
    rcases groupLength_cons hc closers quoted with hnone | hend | ⟨closers', quoted', -, hgoes⟩
    · rw [hnone] at h
      cases h
    · rw [hend] at h
      cases h
      refine ⟨c, rfl, ?_⟩
      by_cases hb : isBlank c = true
      · -- a blank goes on with a group, whatever is open
        have hplain := not_mem_structuralChars_of_isBlank hb
        simp only [structuralChars, List.mem_cons, List.not_mem_nil, not_or] at hplain
        have hempty := hend []
        rw [groupLength_char hc] at hempty
        cases quoted <;> simp [closerOf?, hplain, groupLength] at hempty
      · simpa using hb
    · rw [hgoes] at h
      obtain ⟨m, hm, rfl⟩ := Option.map_eq_some_iff.mp h
      have hpos := (groupLength_le_length _ _ _ _ hm).1
      obtain ⟨d, hd, hb⟩ := ih hm
      refine ⟨d, ?_, hb⟩
      obtain ⟨k, rfl⟩ := Nat.exists_eq_add_of_lt hpos
      simpa using hd

/-- The last character of some is no blank. -/
def EndsFull (cs : List Char) : Prop := ∀ d ∈ cs.getLast?, isBlank d = false

theorem EndsFull.cons {ch : Char} {cs : List Char} (hb : isBlank ch = false) (h : EndsFull cs) :
    EndsFull (ch :: cs) := by
  intro d hd
  cases cs with
  | nil =>
    cases hd
    exact hb
  | cons e es => exact h d (by simpa using hd)

theorem EndsFull.of_all {cs : List Char} (h : ∀ ch ∈ cs, isBlank ch = false) : EndsFull cs :=
  fun d hd => h d (List.mem_of_getLast? hd)

theorem EndsFull.append {as cs : List Char} (hne : cs ≠ []) (h : EndsFull cs) :
    EndsFull (as ++ cs) := by
  intro d hd
  rw [List.getLast?_append_of_ne_nil _ hne] at hd
  exact h d hd

/-- **A bareword does not end with a blank** unless a backslash goes before it. -/
theorem endsFull_of_scanBareword : ∀ {verbatim offset : Nat} {cs : List Char}, '\\' ∉ cs →
    (0 < verbatim → ∃ d, cs[verbatim - 1]? = some d ∧ isBlank d = false) →
      (scanBareword .topLevel verbatim offset cs).after.rest = [] → EndsFull cs
  | _, _, [], _, _, _ => fun d hd => by cases hd
  | 0, offset, c :: cs, hs, _, h => by
    by_cases hb : isBlank c = true
    · have he : Place.topLevel.ends c = true := hb
      rw [scanBareword_ends he] at h
      cases h
    · have hfull : isBlank c = false := by simpa using hb
      have hc : c ≠ '\\' := fun he => hs (by simp [he])
      obtain ⟨join, -, hafter, hjoin⟩ :=
        scanBareword_cons (show Place.topLevel.ends c = false from hfull) hc offset
      rw [hjoin, hafter] at h
      refine .cons hfull (endsFull_of_scanBareword (fun hm => hs (List.mem_cons_of_mem c hm)) ?_ h)
      intro hpos
      -- the group of `c` ends with a character that is no blank
      unfold groupTail at hpos ⊢
      by_cases ho : opensGroup c = true
      · rw [if_pos ho] at hpos ⊢
        cases hg : balancedGroup? (c :: cs) with
        | none =>
          rw [hg] at hpos
          cases hpos
        | some n =>
          rw [hg, Option.elim_some] at hpos
          obtain ⟨d, hd, hdb⟩ := groupLength_last (c :: cs) hg
          refine ⟨d, ?_, hdb⟩
          obtain ⟨k, hk⟩ := Nat.exists_eq_add_of_lt hpos
          rw [Nat.zero_add] at hk
          rw [hk] at hd
          rw [Option.elim_some, hk]
          simpa using hd
      · rw [if_neg ho] at hpos
        cases hpos
  | n + 1, offset, c :: cs, hs, hv, h => by
    rw [scanBareword, ScalarScan.after_prepend] at h
    obtain ⟨d, hd, hdb⟩ := hv (Nat.succ_pos n)
    have hs' : '\\' ∉ cs := fun hm => hs (List.mem_cons_of_mem c hm)
    cases n with
    | zero =>
      obtain rfl : c = d := by simpa using hd
      exact .cons hdb (endsFull_of_scanBareword hs' (fun h0 => absurd h0 (Nat.lt_irrefl 0)) h)
    | succ k =>
      have hd' : cs[k]? = some d := by simpa using hd
      have hfull := endsFull_of_scanBareword hs' (fun _ => ⟨d, hd', hdb⟩) h
      intro e he
      have hne : cs ≠ [] := by
        rintro rfl
        cases hd'
      exact hfull e (by rwa [List.getLast?_cons_of_ne_nil hne] at he)

/-- A value up to the end of a text that ends with a blank begins with a bracket or a quote. -/
theorem opensGroup_of_endsBlank (hs : '\\' ∉ c.rest) (hb : ¬EndsFull c.rest)
    (h : readValue limit c = .ok (v, stop)) (hstop : stop.rest = []) :
    ∃ ch ∈ c.peek, opensGroup ch = true := by
  cases hc : c.rest with
  | nil =>
    rw [hc] at hb
    exact absurd (fun d hd => by cases hd) hb
  | cons ch cs =>
    refine ⟨ch, Cursor.peek_of_rest hc, ?_⟩
    by_cases ho : opensGroup ch = true
    · exact ho
    · rw [stop_of_readValue hc (by simpa using ho) h] at hstop
      exact absurd (endsFull_of_scanBareword hs (fun h0 => absurd h0 (Nat.lt_irrefl 0)) hstop) hb

end CommandConsole
