/-
# Barewords that are read as they are written

A bareword at top level is read as it is written, up to the blank behind it, if
no backslash in it takes a character along and every group that begins in it
ends in it. These are the only ways for its text to be another.

Key definition: `AsWritten`.
Key theorems: `scanBareword_asWritten`, `asWritten_of_scanBareword`.
-/
import CommandConsole.Proofs.Literal.Lookahead

namespace CommandConsole

/-- In front of `rest` the word is read as it is written. A backslash is read so at the end of the
text only, and within a group. The first `inside` characters belong to a group that has begun before
them. -/
def AsWritten (rest : List Char) : (inside : Nat) → List Char → Prop
  | _, [] => True
  | n + 1, _ :: cs => AsWritten rest n cs
  | 0, c :: cs =>
    if c = '\\' then cs ++ rest = []
    else groupTail c (cs ++ rest) ≤ cs.length ∧ AsWritten rest (groupTail c (cs ++ rest)) cs

instance decidableAsWritten (rest : List Char) :
    ∀ (n : Nat) (cs : List Char), Decidable (AsWritten rest n cs)
  | _, [] => isTrue trivial
  | n + 1, _ :: cs => decidableAsWritten rest n cs
  | 0, c :: cs =>
    have := decidableAsWritten rest (groupTail c (cs ++ rest)) cs
    inferInstanceAs (Decidable (if c = '\\' then cs ++ rest = [] else _ ∧ _))

theorem scanBareword_topLevel {c : Char} (hb : isBlank c = false) (hs : c ≠ '\\') (offset : Nat)
    (cs : List Char) :
    scanBareword .topLevel 0 offset (c :: cs) =
      (scanBareword .topLevel (groupTail c cs) (offset + c.utf8Size) cs).prepend c := by
  have he : Place.topLevel.ends c = false := hb
  conv => lhs; unfold scanBareword
  rw [if_neg (by simp [he]), if_neg hs, groupTail]
  by_cases ho : opensGroup c = true
  · rw [if_pos ho, if_pos ho]
    cases balancedGroup? (c :: cs) <;> rfl
  · rw [if_neg ho, if_neg (by simp [hb]), if_neg ho]

variable {rest w : List Char} {n : Nat}

/-- No group begins in ordinary characters, and nothing is taken along. -/
theorem asWritten_of_ordinary : ∀ {w : List Char}, (∀ c ∈ w, c ≠ '\\' ∧ opensGroup c = false) →
    AsWritten rest 0 w
  | [], _ => trivial
  | c :: w, hw => by
    obtain ⟨⟨hs, ho⟩, hw⟩ := List.forall_mem_cons.mp hw
    have htail : groupTail c (w ++ rest) = 0 := by rw [groupTail, if_neg (by simp [ho])]
    rw [AsWritten, if_neg hs, htail]
    exact ⟨Nat.zero_le _, asWritten_of_ordinary hw⟩

/-- **A word that is read as it is written** is read up to its end. -/
theorem scanBareword_asWritten (hstops : Place.topLevel.Stops rest) : ∀ {w : List Char} {n : Nat},
    (∀ c ∈ w, isBlank c = false) → n ≤ w.length → AsWritten rest n w → ∀ offset : Nat,
      ∃ stop, scanBareword .topLevel n offset (w ++ rest) = ⟨w, stop, ⟨stop, rest⟩, true⟩
  | [], n, _, hn, _, offset => by
    obtain rfl : n = 0 := Nat.le_zero.mp hn
    have hends : ∀ c ∈ rest.head?, Place.topLevel.ends c = true := hstops
    exact ⟨offset, scanBareword_stops hends offset⟩
  | c :: w, n + 1, hw, hn, h, offset => by
    obtain ⟨-, hw⟩ := List.forall_mem_cons.mp hw
    obtain ⟨stop, hscan⟩ := scanBareword_asWritten hstops hw (Nat.le_of_succ_le_succ hn) h
      (offset + c.utf8Size)
    refine ⟨stop, ?_⟩
    rw [List.cons_append, scanBareword, hscan]
    rfl
  | c :: w, 0, hw, _, h, offset => by
    obtain ⟨hb, hw⟩ := List.forall_mem_cons.mp hw
    rw [AsWritten] at h
    by_cases hs : c = '\\'
    · -- a lone backslash ends the text
      rw [if_pos hs] at h
      obtain ⟨rfl, rfl⟩ := List.append_eq_nil_iff.mp h
      subst hs
      exact ⟨offset + 1, by unfold scanBareword; simp [Place.ends, hb]⟩
    · rw [if_neg hs] at h
      obtain ⟨stop, hscan⟩ := scanBareword_asWritten hstops hw h.1 h.2 (offset + c.utf8Size)
      refine ⟨stop, ?_⟩
      rw [List.cons_append, scanBareword_topLevel hb hs, hscan]
      rfl

/-- The characters of a group are all in the text of the bareword. -/
theorem le_length_scanBareword (place : Place) : ∀ {n : Nat} (offset : Nat) {cs : List Char},
    n ≤ cs.length → n ≤ (scanBareword place n offset cs).text.length
  | 0, _, _, _ => Nat.zero_le _
  | n + 1, offset, c :: cs, h => by
    rw [scanBareword, ScalarScan.prepend, List.length_cons]
    exact Nat.succ_le_succ (le_length_scanBareword place _ (Nat.le_of_succ_le_succ h))

/-- A bareword that takes no blank along is no longer than what is written in front of the next
blank. -/
theorem length_scanBareword_le (hstops : Place.topLevel.Stops rest) : ∀ {w : List Char} {n : Nat},
    (∀ c ∈ w, isBlank c = false) → ∀ offset : Nat,
      (∀ c ∈ (scanBareword .topLevel n offset (w ++ rest)).text, isBlank c = false) →
        (scanBareword .topLevel n offset (w ++ rest)).text.length ≤ w.length
  | [], n, _, offset, h => by
    rw [List.nil_append] at h ⊢
    cases rest with
    | nil => simp [scanBareword_nil]
    | cons b bs =>
      have hb : Place.topLevel.ends b = true := hstops b rfl
      cases n with
      | zero => simp [scanBareword_ends hb]
      | succ n =>
        rw [scanBareword] at h
        exact absurd hb (by simpa [Place.ends] using h b List.mem_cons_self)
  | c :: w, n + 1, hw, offset, h => by
    obtain ⟨-, hw⟩ := List.forall_mem_cons.mp hw
    rw [List.cons_append, scanBareword] at h ⊢
    exact Nat.succ_le_succ (length_scanBareword_le hstops hw _ (List.forall_mem_cons.mp h).2)
  | c :: w, 0, hw, offset, h => by
    obtain ⟨hb, hrest⟩ := List.forall_mem_cons.mp hw
    by_cases hs : c = '\\'
    · subst hs
      cases w with
      | nil =>
        cases rest with
        | nil => simp [scanBareword, Place.ends, hb]
        | cons b bs =>
          have hblank : isBlank b = true := hstops b rfl
          rw [List.cons_append, List.nil_append, scanBareword_escape] at h
          rw [h b List.mem_cons_self] at hblank
          cases hblank
      | cons e ds =>
        obtain ⟨-, hds⟩ := List.forall_mem_cons.mp hrest
        rw [List.cons_append, List.cons_append, scanBareword_escape] at h ⊢
        have hle := length_scanBareword_le hstops hds _ (List.forall_mem_cons.mp h).2
        exact Nat.le_succ_of_le (Nat.succ_le_succ hle)
    · rw [List.cons_append, scanBareword_topLevel hb hs] at h ⊢
      exact Nat.succ_le_succ (length_scanBareword_le hstops hrest _ (List.forall_mem_cons.mp h).2)

/-- **No other word is**: its text is another one. -/
theorem asWritten_of_scanBareword (hstops : Place.topLevel.Stops rest) : ∀ {w : List Char} {n : Nat},
    (∀ c ∈ w, isBlank c = false) → ∀ {offset : Nat},
      (scanBareword .topLevel n offset (w ++ rest)).text = w → AsWritten rest n w
  | [], _, _, _, _ => trivial
  | c :: w, n + 1, hw, offset, h => by
    obtain ⟨-, hw⟩ := List.forall_mem_cons.mp hw
    rw [List.cons_append, scanBareword] at h
    rw [AsWritten]
    exact asWritten_of_scanBareword hstops hw (List.cons.inj h).2
  | c :: w, 0, hw, offset, h => by
    obtain ⟨hb, hrest⟩ := List.forall_mem_cons.mp hw
    rw [AsWritten]
    by_cases hs : c = '\\'
    · subst hs
      rw [if_pos rfl]
      cases w with
      | nil =>
        cases rest with
        | nil => rfl
        | cons b bs =>
          -- the blank behind the backslash is taken along
          rw [List.cons_append, List.nil_append, scanBareword_escape] at h
          have hblank : isBlank b = true := hstops b rfl
          rw [(List.cons.inj h).1] at hblank
          exact absurd hblank (by decide)
      | cons e ds =>
        -- the backslash itself is missing in the text
        exfalso
        obtain ⟨-, hds⟩ := List.forall_mem_cons.mp hrest
        rw [List.cons_append, List.cons_append, scanBareword_escape] at h
        obtain ⟨-, htext⟩ := List.cons.inj h
        have hle := length_scanBareword_le hstops hds (offset + 1 + e.utf8Size)
          (by rw [htext]; exact hrest)
        rw [htext, List.length_cons] at hle
        omega
    · rw [if_neg hs]
      rw [List.cons_append, scanBareword_topLevel hb hs] at h
      obtain ⟨-, htext⟩ := List.cons.inj h
      have hin := le_length_scanBareword .topLevel (offset + c.utf8Size)
        (groupTail_le_length c (w ++ rest))
      rw [htext] at hin
      exact ⟨hin, asWritten_of_scanBareword hstops hrest htext⟩

end CommandConsole
