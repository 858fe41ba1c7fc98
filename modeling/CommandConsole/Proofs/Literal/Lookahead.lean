/-
# Looking ahead in a text that goes on

A bareword looks ahead: a bracket or a quote in it opens a group only if the
group ends somewhere, and then the group stands for itself. So what follows a
text may change how it is read. It does not change what is read if reading
stops before the new part, and a scalar that takes the whole text can always be
completed so that it ends with a few characters more.

Key definitions: `AllClosers`, `Cursor.extend`, `ScalarScan.extend`, `groupTail`.
Key theorems: `groupLength_completed`, `scanQuoted_append`, `scanBareword_append`,
`scanBareword_completed`.
-/
import CommandConsole.Proofs.Literal.Scan

namespace CommandConsole

/-! ### Groups -/

/-- Induction along a text in which a backslash takes the character after it along. -/
theorem escaped_induction {motive : List Char → Prop} (nil : motive []) (lone : motive ['\\'])
    (escape : ∀ c cs, motive cs → motive ('\\' :: c :: cs))
    (char : ∀ c cs, c ≠ '\\' → motive cs → motive (c :: cs)) : ∀ cs, motive cs
  | [] => nil
  | [c] => by
    by_cases hc : c = '\\'
    · subst hc
      exact lone
    · exact char c [] hc nil
  | c :: d :: cs => by
    by_cases hc : c = '\\'
    · subst hc
      exact escape d cs (escaped_induction nil lone escape char cs)
    · exact char c (d :: cs) hc (escaped_induction nil lone escape char (d :: cs))

theorem groupLength_char {c : Char} (hc : c ≠ '\\') (closers : List Char) (quoted : Bool)
    (cs : List Char) :
    groupLength closers quoted (c :: cs) =
      if quoted then
        if c = '"' then
          if closers = [] then some 1 else (groupLength closers false cs).map (· + 1)
        else (groupLength closers true cs).map (· + 1)
      else if c = '"' then (groupLength closers true cs).map (· + 1)
      else match closerOf? c with
        | some closer => (groupLength (closer :: closers) false cs).map (· + 1)
        | none =>
          if c = '\x7d' ∨ c = ']' then
            match closers with
            | [] => none
            | top :: outer =>
              if c ≠ top then none
              else if outer = [] then some 1
              else (groupLength outer false cs).map (· + 1)
          else (groupLength closers false cs).map (· + 1) := by
  conv => lhs; unfold groupLength
  split
  · rename_i h
    cases h
  · rename_i h
    exact absurd (List.cons.inj h).1 hc
  · rename_i h
    exact absurd (List.cons.inj h).1 hc
  · rename_i h
    obtain ⟨rfl, rfl⟩ := List.cons.inj h
    rfl

/-- The closing characters of brackets and braces. -/
def AllClosers (closers : List Char) : Prop := ∀ d ∈ closers, d = '\x7d' ∨ d = ']'

/-- What a character does in a group does not depend on what follows: the group closes in the
wrong order, it ends, or it goes on. -/
theorem groupLength_cons {c : Char} (hc : c ≠ '\\') (closers : List Char) (quoted : Bool) :
    (∀ cs, groupLength closers quoted (c :: cs) = none) ∨
    (∀ cs, groupLength closers quoted (c :: cs) = some 1) ∨
    ∃ closers' quoted', (AllClosers closers → AllClosers closers') ∧
      ∀ cs, groupLength closers quoted (c :: cs) =
        (groupLength closers' quoted' cs).map (· + 1) := by
  simp only [groupLength_char hc]
  by_cases hq : quoted = true
  · by_cases hquote : c = '"'
    · by_cases hempty : closers = []
      · exact .inr (.inl fun cs => by simp [hq, hquote, hempty])
      · exact .inr (.inr ⟨closers, false, id, fun cs => by simp [hq, hquote, hempty]⟩)
    · exact .inr (.inr ⟨closers, true, id, fun cs => by simp [hq, hquote]⟩)
  by_cases hquote : c = '"'
  · exact .inr (.inr ⟨closers, true, id, fun cs => by simp [hq, hquote]⟩)
  cases hopen : closerOf? c with
  | some closer =>
    refine .inr (.inr ⟨closer :: closers, false, fun h => ?_, fun cs => by simp [hq, hquote]⟩)
    refine List.forall_mem_cons.mpr ⟨?_, h⟩
    unfold closerOf? at hopen
    grind
  | none =>
    by_cases hclose : c = '\x7d' ∨ c = ']'
    · match closers with
      | [] => exact .inl fun cs => by simp [hq, hquote, hclose]
      | top :: outer =>
        by_cases htop : c = top
        · by_cases houter : outer = []
          · exact .inr (.inl fun cs => by simp [hq, hquote, hclose, ← htop, houter])
          · refine .inr (.inr ⟨outer, false, fun h => (List.forall_mem_cons.mp h).2, fun cs => ?_⟩)
            simp [hq, hquote, hclose, ← htop, houter]
        · exact .inl fun cs => by simp [hq, hquote, hclose, htop]
    · exact .inr (.inr ⟨closers, false, id, fun cs => by simp [hq, hquote, hclose]⟩)

theorem groupLength_escape (closers : List Char) (quoted : Bool) (c : Char) (cs : List Char) :
    groupLength closers quoted ('\\' :: c :: cs) = (groupLength closers quoted cs).map (· + 2) := by
  rw [groupLength]

/-- A group that ends in a text ends there whatever follows it. -/
theorem groupLength_append (ds cs : List Char) : ∀ {closers : List Char} {quoted : Bool} {n : Nat},
    groupLength closers quoted cs = some n → groupLength closers quoted (cs ++ ds) = some n := by
  induction cs using escaped_induction with
  | nil =>
    intro closers quoted n h
    cases h
  | lone =>
    intro closers quoted n h
    cases h
  | escape c cs ih =>
    intro closers quoted n h
    rw [groupLength_escape] at h
    obtain ⟨m, hm, rfl⟩ := Option.map_eq_some_iff.mp h
    rw [List.cons_append, List.cons_append, groupLength_escape, ih hm]
    rfl
  | char c cs hc ih =>
    intro closers quoted n h
    rw [List.cons_append]
    rcases groupLength_cons hc closers quoted with hnone | hend | ⟨closers', quoted', -, hgoes⟩
    · rw [hnone] at h
      cases h
    · rw [hend] at h ⊢
      exact h
    · rw [hgoes] at h ⊢
      obtain ⟨m, hm, rfl⟩ := Option.map_eq_some_iff.mp h
      rw [ih hm]
      rfl

/-- A group that ends in the first part of a text ends there if the text ends behind this part. -/
theorem groupLength_of_append (ds cs : List Char) :
    ∀ {closers : List Char} {quoted : Bool} {n : Nat},
      groupLength closers quoted (cs ++ ds) = some n → n ≤ cs.length →
        groupLength closers quoted cs = some n := by
  induction cs using escaped_induction with
  | nil =>
    intro closers quoted n h hn
    have := (groupLength_le_length _ _ _ _ h).1
    simp only [List.length_nil] at hn
    omega
  | lone =>
    intro closers quoted n h hn
    cases ds with
    | nil => exact h
    | cons d ds =>
      rw [List.cons_append, List.nil_append, groupLength_escape] at h
      obtain ⟨m, -, rfl⟩ := Option.map_eq_some_iff.mp h
      simp at hn
  | escape c cs ih =>
    intro closers quoted n h hn
    rw [List.cons_append, List.cons_append, groupLength_escape] at h
    obtain ⟨m, hm, rfl⟩ := Option.map_eq_some_iff.mp h
    rw [groupLength_escape, ih hm (by simpa using hn)]
    rfl
  | char c cs hc ih =>
    intro closers quoted n h hn
    rw [List.cons_append] at h
    rcases groupLength_cons hc closers quoted with hnone | hend | ⟨closers', quoted', -, hgoes⟩
    · rw [hnone] at h
      cases h
    · rw [hend] at h ⊢
      exact h
    · rw [hgoes] at h ⊢
      obtain ⟨m, hm, rfl⟩ := Option.map_eq_some_iff.mp h
      rw [ih hm (by simpa using hn)]
      rfl

theorem groupLength_closers (ds : List Char) : ∀ {closers : List Char}, AllClosers closers →
    closers ≠ [] → groupLength closers false (closers ++ ds) = some closers.length
  | [], _, hne => absurd rfl hne
  | c :: cs, h, _ => by
    obtain ⟨hc, hcs⟩ := List.forall_mem_cons.mp h
    have hclose : c ≠ '\\' ∧ c ≠ '"' ∧ closerOf? c = none := by
      rcases hc with rfl | rfl <;> decide
    rw [List.cons_append, groupLength_char hclose.1]
    by_cases hempty : cs = []
    · simp [hclose, hc, hempty]
    · simp [hclose, hc, hempty, groupLength_closers ds hcs hempty]

theorem AllClosers.dropBlanks_eq {closers : List Char} (h : AllClosers closers) :
    dropBlanks closers = closers := by
  cases closers with
  | nil => rfl
  | cons c cs =>
    have hc : isBlank c = false := by
      rcases h c List.mem_cons_self with rfl | rfl <;> decide
    exact dropBlanks_cons hc cs

/-- Whatever is open can be closed. -/
theorem exists_groupLength_append {closers : List Char} (h : AllClosers closers) (quoted : Bool) :
    ∃ us, dropBlanks us = us ∧ us ≠ [] ∧
      ∀ ds, groupLength closers quoted (us ++ ds) = some us.length := by
  have hquote : ∀ ds, groupLength closers true ('"' :: (closers ++ ds)) =
      some (closers.length + 1) := by
    intro ds
    by_cases hempty : closers = []
    · simp [groupLength_char, hempty]
    · simp [groupLength_char, hempty, groupLength_closers ds h hempty]
  by_cases hq : quoted = true
  · subst hq
    exact ⟨'"' :: closers, dropBlanks_cons (by decide) closers, by simp, hquote⟩
  obtain rfl : quoted = false := by simpa using hq
  by_cases hempty : closers = []
  · subst hempty
    refine ⟨['"', '"'], by decide, by simp, fun ds => ?_⟩
    rw [List.cons_append, groupLength_char (by decide), if_neg (by decide), if_pos rfl]
    exact congrArg _ (hquote ds)
  · exact ⟨closers, h.dropBlanks_eq, hempty, fun ds => groupLength_closers ds h hempty⟩

/-- **A group that does not end in a text never ends, or can be completed at once**, so that it
ends exactly where the text does. -/
theorem groupLength_completed (cs : List Char) : ∀ {closers : List Char} {quoted : Bool},
    AllClosers closers → groupLength closers quoted cs = none →
      (∀ ds, groupLength closers quoted (cs ++ ds) = none) ∨
      ∃ us, dropBlanks us = us ∧ us ≠ [] ∧ ∀ ds, groupLength closers quoted (cs ++ (us ++ ds)) =
        some (cs.length + us.length) := by
  induction cs using escaped_induction with
  | nil =>
    intro closers quoted h _
    obtain ⟨us, ht, hne, hus⟩ := exists_groupLength_append h quoted
    exact .inr ⟨us, ht, hne, fun ds => by simpa using hus ds⟩
  | lone =>
    intro closers quoted h _
    obtain ⟨us, ht, hne, hus⟩ := exists_groupLength_append h quoted
    refine .inr ⟨'x' :: us, dropBlanks_cons (by decide) us, by simp, fun ds => ?_⟩
    rw [List.cons_append, List.cons_append, List.nil_append, groupLength_escape, hus]
    simp
    omega
  | escape c cs ih =>
    intro closers quoted h hn
    rw [groupLength_escape, Option.map_eq_none_iff] at hn
    rcases ih h hn with hnone | ⟨us, ht, hne, hus⟩
    · exact .inl fun ds => by rw [List.cons_append, List.cons_append, groupLength_escape, hnone]; rfl
    · refine .inr ⟨us, ht, hne, fun ds => ?_⟩
      rw [List.cons_append, List.cons_append, groupLength_escape, hus]
      simp
      omega
  | char c cs hc ih =>
    intro closers quoted h hn
    rcases groupLength_cons hc closers quoted with hnone | hend | ⟨closers', quoted', hcl, hgoes⟩
    · exact .inl fun ds => hnone _
    · rw [hend] at hn
      cases hn
    · rw [hgoes, Option.map_eq_none_iff] at hn
      rcases ih (hcl h) hn with hnone | ⟨us, ht, hne, hus⟩
      · exact .inl fun ds => by rw [List.cons_append, hgoes, hnone]; rfl
      · refine .inr ⟨us, ht, hne, fun ds => ?_⟩
        rw [List.cons_append, hgoes, hus]
        simp
        omega

/-! ### Cursors -/

namespace Cursor

/-- The cursor with more text behind the text that it stands in. -/
def extend (c : Cursor) (ds : List Char) : Cursor := ⟨c.offset, c.rest ++ ds⟩

variable {c : Cursor} {ds : List Char}

@[simp] theorem extend_offset (c : Cursor) (ds : List Char) : (c.extend ds).offset = c.offset := rfl

@[simp] theorem extend_rest (c : Cursor) (ds : List Char) : (c.extend ds).rest = c.rest ++ ds := rfl

@[simp] theorem extend_nil (c : Cursor) : c.extend [] = c := by
  simp [extend]

theorem peek_of_rest_nil (h : c.rest = []) : c.peek = none := by
  rw [peek, h]
  rfl

theorem peek_extend (h : c.rest ≠ []) : (c.extend ds).peek = c.peek := by
  obtain ⟨ch, cs, hc⟩ := List.exists_cons_of_ne_nil h
  simp [peek, hc]

theorem advance_extend (h : c.rest ≠ []) : (c.extend ds).advance = c.advance.extend ds := by
  obtain ⟨ch, cs, hc⟩ := List.exists_cons_of_ne_nil h
  simp [advance, extend, hc]

/-- Skipping blanks stops at the end of the text if no blanks follow there. -/
theorem skipBlanks_extend (ht : dropBlanks ds = ds) (c : Cursor) :
    (c.extend ds).skipBlanks = c.skipBlanks.extend ds := by
  have hskip : ∀ (offset : Nat) (cs : List Char),
      skipFrom isBlank offset (cs ++ ds) = (skipFrom isBlank offset cs).extend ds := by
    intro offset cs
    induction cs generalizing offset with
    | nil =>
      cases ds with
      | nil => rfl
      | cons d ds =>
        have hd : isBlank d = false := isBlank_of_dropBlanks ht
        simp [skipFrom, hd, extend]
    | cons c cs ih =>
      by_cases hc : isBlank c = true
      · simp [skipFrom, hc, ih]
      · simp [skipFrom, hc, extend]
  exact hskip c.offset c.rest

end Cursor

/-! ### Scalars -/

/-- The scan with more text behind the place where it stopped. -/
def ScalarScan.extend (s : ScalarScan) (ds : List Char) : ScalarScan :=
  { s with after := s.after.extend ds }

theorem ScalarScan.prepend_extend (s : ScalarScan) (c : Char) (ds : List Char) :
    (s.extend ds).prepend c = (s.prepend c).extend ds := rfl

theorem ScalarScan.after_prepend (s : ScalarScan) (c : Char) : (s.prepend c).after = s.after := rfl

theorem scanQuoted_char {c : Char} (hq : c ≠ '"') (hs : c ≠ '\\') (offset : Nat) (cs : List Char) :
    scanQuoted offset (c :: cs) = (scanQuoted (offset + c.utf8Size) cs).prepend c := by
  conv => lhs; unfold scanQuoted
  split <;> simp_all

theorem ne_backslash_of_not_lone {c : Char} {cs : List Char} (hl : ¬(c = '\\' ∧ cs = []))
    (hs : ∀ d ds, c = '\\' → cs = d :: ds → False) : c ≠ '\\' := by
  intro hc
  cases cs with
  | nil => exact hl ⟨hc, rfl⟩
  | cons d ds => exact hs d ds hc rfl

/-- A quoted scalar that ends in a text ends there whatever follows it. -/
theorem scanQuoted_append (ds : List Char) {offset : Nat} {cs : List Char}
    (h : (scanQuoted offset cs).closed = true) :
    scanQuoted offset (cs ++ ds) = (scanQuoted offset cs).extend ds := by
  fun_induction scanQuoted offset cs with
  | case1 offset => cases h
  | case2 offset cs => rfl
  | case3 offset c cs hc ih =>
    rw [List.cons_append, List.cons_append, scanQuoted, if_pos hc, ih h, ScalarScan.prepend_extend]
  | case4 offset c cs hc ih =>
    rw [List.cons_append, List.cons_append, scanQuoted, if_neg hc, ← ScalarScan.prepend_extend]
    exact congrArg _ (ih h)
  | case5 offset c cs hq hs ih =>
    by_cases hlone : c = '\\' ∧ cs = []
    · obtain ⟨rfl, rfl⟩ := hlone
      cases h
    · rw [List.cons_append, scanQuoted_char hq (ne_backslash_of_not_lone hlone hs), ih h,
        ScalarScan.prepend_extend]

theorem scanQuoted_escape {c : Char} (hc : c = '"' ∨ c = '\\') (offset : Nat) (cs : List Char) :
    scanQuoted offset ('\\' :: c :: cs) = (scanQuoted (offset + 2) cs).prepend c := by
  rw [scanQuoted, if_pos hc]

/-- A quoted scalar that does not end takes the whole text, and quotes end it. If the last
character is a backslash, the first quote stands for itself. -/
theorem scanQuoted_completed {offset : Nat} {cs : List Char}
    (h : (scanQuoted offset cs).closed = false) :
    (scanQuoted offset cs).after.rest = [] ∧
    ∃ us, (us = [] ∨ us = ['"']) ∧ ∀ ds,
      (scanQuoted offset (cs ++ (us ++ '"' :: ds))).closed = true ∧
        (scanQuoted offset (cs ++ (us ++ '"' :: ds))).after.rest = ds := by
  fun_induction scanQuoted offset cs with
  | case1 offset => exact ⟨rfl, [], .inl rfl, fun ds => ⟨rfl, rfl⟩⟩
  | case2 offset cs => cases h
  | case3 offset c cs hc ih =>
    obtain ⟨hrest, us, hus, hall⟩ := ih h
    refine ⟨hrest, us, hus, fun ds => ?_⟩
    rw [List.cons_append, List.cons_append, scanQuoted_escape hc]
    exact hall ds
  | case4 offset c cs hc ih =>
    obtain ⟨hrest, us, hus, hall⟩ := ih h
    refine ⟨hrest, us, hus, fun ds => ?_⟩
    rw [List.cons_append, List.cons_append, scanQuoted, if_neg hc]
    exact hall ds
  | case5 offset c cs hq hs ih =>
    by_cases hlone : c = '\\' ∧ cs = []
    · obtain ⟨rfl, rfl⟩ := hlone
      refine ⟨rfl, ['"'], .inr rfl, fun ds => ?_⟩
      rw [List.cons_append, List.nil_append, List.cons_append, List.nil_append,
        scanQuoted_escape (.inl rfl)]
      exact ⟨rfl, rfl⟩
    · obtain ⟨hrest, us, hus, hall⟩ := ih h
      refine ⟨hrest, us, hus, fun ds => ?_⟩
      rw [List.cons_append, scanQuoted_char hq (ne_backslash_of_not_lone hlone hs)]
      exact hall ds

theorem scanQuoted_cons_length_le (offset : Nat) (c : Char) (cs : List Char) :
    (scanQuoted offset (c :: cs)).after.rest.length ≤ cs.length := by
  have hle : ∀ offset, (scanQuoted offset cs).after.rest.length ≤ cs.length :=
    fun offset => scanQuoted_after_length_le offset cs
  by_cases hq : c = '"'
  · subst hq
    exact Nat.le_of_eq (by simp [scanQuoted])
  by_cases hs : c = '\\'
  · subst hs
    cases cs with
    | nil => exact Nat.le_of_eq rfl
    | cons e es =>
      have hes := scanQuoted_after_length_le (offset + 2) es
      rw [scanQuoted]
      split
      · simp only [ScalarScan.prepend, List.length_cons]
        omega
      · exact hle _
  · rw [scanQuoted_char hq hs]
    exact hle _

/-- A quoted scalar that does not end in a text takes some of what follows. -/
theorem scanQuoted_beyond (d : Char) (ds : List Char) {offset : Nat} {cs : List Char}
    (h : (scanQuoted offset cs).closed = false) :
    (scanQuoted offset (cs ++ d :: ds)).after.rest.length ≤ ds.length := by
  fun_induction scanQuoted offset cs with
  | case1 offset => exact scanQuoted_cons_length_le offset d ds
  | case2 offset cs => cases h
  | case3 offset c cs hc ih =>
    rw [List.cons_append, List.cons_append, scanQuoted_escape hc]
    exact ih h
  | case4 offset c cs hc ih =>
    rw [List.cons_append, List.cons_append, scanQuoted, if_neg hc]
    exact ih h
  | case5 offset c cs hq hs ih =>
    by_cases hlone : c = '\\' ∧ cs = []
    · obtain ⟨rfl, rfl⟩ := hlone
      have hle := scanQuoted_after_length_le (offset + 2) ds
      rw [List.cons_append, List.nil_append, scanQuoted]
      split
      · exact hle
      · exact scanQuoted_cons_length_le _ d ds
    · rw [List.cons_append, scanQuoted_char hq (ne_backslash_of_not_lone hlone hs)]
      exact ih h

/-- A bareword that takes nothing stops at once. -/
theorem scanBareword_stays {place : Place} {verbatim offset : Nat} {cs : List Char}
    (h : cs.length ≤ (scanBareword place verbatim offset cs).after.rest.length) :
    scanBareword place verbatim offset cs = ⟨[], offset, ⟨offset, cs⟩, true⟩ := by
  cases cs with
  | nil => exact scanBareword_nil ..
  | cons c cs =>
    cases verbatim with
    | succ n =>
      have hle := scanBareword_after_length_le place n (offset + c.utf8Size) cs
      simp only [scanBareword, ScalarScan.prepend, List.length_cons] at h
      omega
    | zero =>
      by_cases he : place.ends c = true
      · exact scanBareword_ends he offset cs
      · have hlt := scanBareword_length_lt cs offset (by simpa using he)
        omega

theorem scanBareword_verbatim_length_le (place : Place) (verbatim offset : Nat) (cs : List Char) :
    (scanBareword place verbatim offset cs).after.rest.length ≤ cs.length - verbatim := by
  induction cs generalizing verbatim offset with
  | nil => simp [scanBareword_nil]
  | cons c cs ih =>
    cases verbatim with
    | zero => exact scanBareword_after_length_le ..
    | succ n =>
      have hle := ih n (offset + c.utf8Size)
      simp only [scanBareword, ScalarScan.prepend, List.length_cons]
      omega

/-- How many characters behind `c` belong to the group that it opens. -/
def groupTail (c : Char) (cs : List Char) : Nat :=
  if opensGroup c then (balancedGroup? (c :: cs)).elim 0 (· - 1) else 0

theorem groupTail_le_length (c : Char) (cs : List Char) : groupTail c cs ≤ cs.length := by
  unfold groupTail
  split
  · cases hg : balancedGroup? (c :: cs) with
    | none => exact Nat.zero_le _
    | some n =>
      have hn := balancedGroup?_le_length hg
      simp only [List.length_cons, Option.elim_some] at hn ⊢
      omega
  · exact Nat.zero_le _

/-- A group that ends before the new part of a text is the same in the old part. -/
theorem groupTail_append {c : Char} {cs ds : List Char}
    (h : groupTail c (cs ++ ds) ≤ cs.length) : groupTail c (cs ++ ds) = groupTail c cs := by
  unfold groupTail at h ⊢
  by_cases ho : opensGroup c = true
  · rw [if_pos ho] at h
    rw [if_pos ho, if_pos ho]
    cases hg : balancedGroup? (c :: (cs ++ ds)) with
    | none =>
      cases hg' : balancedGroup? (c :: cs) with
      | none => rfl
      | some n =>
        have hn : balancedGroup? (c :: cs ++ ds) = some n := groupLength_append ds _ hg'
        rw [List.cons_append, hg] at hn
        cases hn
    | some n =>
      have hn : n ≤ (c :: cs).length := by
        simp only [hg, Option.elim_some] at h
        simp only [List.length_cons]
        omega
      have hg' : balancedGroup? (c :: cs) = some n := groupLength_of_append ds (c :: cs) hg hn
      rw [hg']
  · rw [if_neg ho, if_neg ho]

/-- The group that a character opens is the same whatever follows the text, or it can be
completed so that it ends where the text does. -/
theorem groupTail_completed (c : Char) (cs : List Char) :
    (∀ ds, groupTail c (cs ++ ds) = groupTail c cs) ∨
    ∃ us, dropBlanks us = us ∧ ∀ ds, groupTail c (cs ++ (us ++ ds)) = (cs ++ us).length := by
  unfold groupTail
  by_cases ho : opensGroup c = true
  · simp only [if_pos ho]
    cases hg : balancedGroup? (c :: cs) with
    | some n =>
      refine .inl fun ds => ?_
      have hn : balancedGroup? (c :: cs ++ ds) = some n := groupLength_append ds _ hg
      rw [List.cons_append] at hn
      rw [hn]
    | none =>
      have hclosers : AllClosers [] := fun d hd => by cases hd
      rcases groupLength_completed (c :: cs) hclosers hg with hnone | ⟨us, ht, -, hus⟩
      · refine .inl fun ds => ?_
        have hn : balancedGroup? (c :: (cs ++ ds)) = none := hnone ds
        rw [hn]
      · refine .inr ⟨us, ht, fun ds => ?_⟩
        have hn : balancedGroup? (c :: (cs ++ (us ++ ds))) = some ((c :: cs).length + us.length) :=
          hus ds
        rw [hn]
        simp only [Option.elim_some, List.length_cons, List.length_append]
        omega
  · exact .inl fun ds => by simp [ho]

/-- A character that neither ends a bareword nor escapes belongs to it. What follows is read with
the rest of its group, and only the text and the end of the scalar depend on the character. -/
theorem scanBareword_cons {place : Place} {c : Char} (he : place.ends c = false) (hs : c ≠ '\\')
    (offset : Nat) : ∃ join : ScalarScan → ScalarScan,
      (∀ s ds, join (s.extend ds) = (join s).extend ds) ∧ (∀ s, (join s).after = s.after) ∧
      ∀ cs, scanBareword place 0 offset (c :: cs) =
        join (scanBareword place (groupTail c cs) (offset + c.utf8Size) cs) := by
  by_cases hblank : opensGroup c = false ∧ place = .nested ∧ isBlank c = true
  · obtain ⟨ho, rfl, hb⟩ := hblank
    refine ⟨fun s => if s.text = [] then { s with stop := offset } else s.prepend c,
      fun s ds => ?_, fun s => ?_, fun cs => ?_⟩
    · by_cases hempty : s.text = [] <;> simp [ScalarScan.extend, ScalarScan.prepend, hempty]
    · by_cases hempty : s.text = [] <;> simp [ScalarScan.prepend, hempty]
    · rw [scanBareword_blank hb he hs ho]
      simp [groupTail, ho]
  · refine ⟨fun s => s.prepend c, fun s ds => rfl, fun s => rfl, fun cs => ?_⟩
    conv => lhs; unfold scanBareword
    rw [if_neg (by simp [he]), if_neg hs, groupTail]
    by_cases ho : opensGroup c = true
    · rw [if_pos ho, if_pos ho]
      cases balancedGroup? (c :: cs) <;> rfl
    · rw [if_neg ho, if_neg (by simp_all), if_neg ho]

/-- **What a bareword has read of a text does not change when the text goes on**, as long as it
stops before the new part. -/
theorem scanBareword_append {place : Place} {ds : List Char} : ∀ {verbatim offset : Nat}
    {cs : List Char},
      ds.length ≤ (scanBareword place verbatim offset (cs ++ ds)).after.rest.length →
        scanBareword place verbatim offset (cs ++ ds) =
          (scanBareword place verbatim offset cs).extend ds
  | verbatim, offset, [], h => by
    rw [scanBareword_nil, List.nil_append]
    exact scanBareword_stays h
  | n + 1, offset, c :: cs, h => by
    rw [List.cons_append, scanBareword, ScalarScan.after_prepend] at h
    rw [List.cons_append, scanBareword, scanBareword, scanBareword_append h]
    rfl
  | 0, offset, c :: cs, h => by
    by_cases he : place.ends c = true
    · rw [List.cons_append, scanBareword_ends he, scanBareword_ends he]
      rfl
    by_cases hs : c = '\\'
    · subst hs
      cases cs with
      | nil =>
        cases ds with
        | nil => simp [ScalarScan.extend]
        | cons d ds =>
          rw [List.cons_append, List.nil_append, scanBareword_escape, ScalarScan.after_prepend] at h
          have hle := scanBareword_after_length_le place 0 (offset + 1 + d.utf8Size) ds
          simp only [List.length_cons] at h
          omega
      | cons e cs =>
        rw [List.cons_append, List.cons_append, scanBareword_escape, ScalarScan.after_prepend] at h
        rw [List.cons_append, List.cons_append, scanBareword_escape, scanBareword_escape,
          scanBareword_append h]
        rfl
    · obtain ⟨join, hextend, hafter, hjoin⟩ := scanBareword_cons (by simpa using he) hs offset
      rw [List.cons_append, hjoin, hafter] at h
      -- the group of `c` ends before the new part, since the bareword stops there
      have hle := scanBareword_verbatim_length_le place (groupTail c (cs ++ ds))
        (offset + c.utf8Size) (cs ++ ds)
      have htail : groupTail c (cs ++ ds) = groupTail c cs := by
        refine groupTail_append ?_
        have := groupTail_le_length c (cs ++ ds)
        simp only [List.length_append] at hle this
        by_cases hd : ds = []
        · simpa [hd] using this
        · have := List.length_pos_iff.mpr hd
          omega
      rw [htail] at h
      rw [List.cons_append, hjoin, hjoin, htail, scanBareword_append h, hextend]
termination_by _ _ cs => cs.length

theorem scanBareword_stops {place : Place} {ds : List Char} (h : ∀ d ∈ ds.head?, place.ends d = true)
    (offset : Nat) : scanBareword place 0 offset ds = ⟨[], offset, ⟨offset, ds⟩, true⟩ := by
  cases ds with
  | nil => exact scanBareword_nil ..
  | cons d ds => exact scanBareword_ends (h d rfl) offset ds

/-- A bareword inside a group takes the group. -/
theorem scanBareword_group {place : Place} {ds : List Char}
    (h : ∀ d ∈ ds.head?, place.ends d = true) : ∀ (cs : List Char) (offset : Nat),
      (scanBareword place cs.length offset (cs ++ ds)).after.rest = ds
  | [], offset => by
    rw [List.nil_append, List.length_nil, scanBareword_stops h]
  | c :: cs, offset => by
    rw [List.cons_append, List.length_cons, scanBareword]
    exact scanBareword_group h cs _

/-- **A bareword stops in a text whatever follows, or it can be completed at once**, so that it
stops exactly where the text does. -/
theorem scanBareword_completed (place : Place) : ∀ {verbatim : Nat} (offset : Nat) {cs : List Char},
    verbatim ≤ cs.length →
      ((scanBareword place verbatim offset cs).after.rest ≠ [] ∧
        ∀ ds, scanBareword place verbatim offset (cs ++ ds) =
          (scanBareword place verbatim offset cs).extend ds) ∨
      ∃ us, dropBlanks us = us ∧ ∀ ds : List Char, (∀ d ∈ ds.head?, place.ends d = true) →
        (scanBareword place verbatim offset (cs ++ (us ++ ds))).after.rest = ds
  | 0, offset, [], _ => .inr ⟨[], rfl, fun ds h => by simp [scanBareword_stops h]⟩
  | n + 1, offset, c :: cs, hv => by
    rcases scanBareword_completed place (offset + c.utf8Size)
      (Nat.le_of_succ_le_succ hv) with ⟨hne, hall⟩ | ⟨us, ht, hus⟩
    · refine .inl ⟨?_, fun ds => ?_⟩
      · rw [scanBareword]
        exact hne
      · rw [List.cons_append, scanBareword, scanBareword, hall]
        rfl
    · refine .inr ⟨us, ht, fun ds h => ?_⟩
      rw [List.cons_append, scanBareword]
      exact hus ds h
  | 0, offset, c :: cs, _ => by
    by_cases he : place.ends c = true
    · refine .inl ⟨by simp [scanBareword_ends he], fun ds => ?_⟩
      rw [List.cons_append, scanBareword_ends he, scanBareword_ends he]
      rfl
    by_cases hs : c = '\\'
    · subst hs
      cases cs with
      | nil =>
        refine .inr ⟨['x'], by decide, fun ds h => ?_⟩
        simp [scanBareword_escape, ScalarScan.after_prepend, scanBareword_stops h]
      | cons e cs =>
        rcases scanBareword_completed place (offset + 1 + e.utf8Size)
          (Nat.zero_le cs.length) with ⟨hne, hall⟩ | ⟨us, ht, hus⟩
        · refine .inl ⟨?_, fun ds => ?_⟩
          · rw [scanBareword_escape]
            exact hne
          · rw [List.cons_append, List.cons_append, scanBareword_escape, scanBareword_escape, hall]
            rfl
        · refine .inr ⟨us, ht, fun ds h => ?_⟩
          rw [List.cons_append, List.cons_append, scanBareword_escape]
          exact hus ds h
    · have hkeeps : place.ends c = false := by simpa using he
      obtain ⟨join, hextend, hafter, hjoin⟩ := scanBareword_cons hkeeps hs offset
      rcases groupTail_completed c cs with htail | ⟨us, ht, hus⟩
      · rcases scanBareword_completed place (offset + c.utf8Size)
          (groupTail_le_length c cs) with ⟨hne, hall⟩ | ⟨us, ht, hus⟩
        · refine .inl ⟨?_, fun ds => ?_⟩
          · rw [hjoin, hafter]
            exact hne
          · rw [List.cons_append, hjoin, hjoin, htail, hall, hextend]
        · refine .inr ⟨us, ht, fun ds h => ?_⟩
          rw [List.cons_append, hjoin, hafter, htail]
          exact hus ds h
      · refine .inr ⟨us, ht, fun ds h => ?_⟩
        rw [List.cons_append, hjoin, hafter, hus, ← List.append_assoc]
        exact scanBareword_group h _ _
termination_by _ _ cs _ => cs.length

end CommandConsole
