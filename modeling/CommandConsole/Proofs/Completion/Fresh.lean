/-
# Candidates for a value that has not been begun

For a scalar of a type with a closed set of scalars, the candidates are the
texts of the set. They are suggested as they are, without quotes, and what a
line makes of a text is another matter. A candidate is read back as itself
exactly if it stands alone on a line. One that does not may at best be taken for
another candidate of its type; in quotes it would be read back in any case.

Key theorem: `ArgType.freshCandidate_read_iff`.
-/
import CommandConsole.Proofs.ArgType.Conversion
import CommandConsole.Proofs.Token.Alone

namespace CommandConsole
namespace ArgType

variable {t : ArgType} {s w : String} {span : Span} {value : Value}

/-! ### Types with a closed set of scalars -/

/-- Only truth values, enumerations and exact texts have candidates for a scalar. -/
theorem freshCandidate_cases (ht : t.Builtin) (hk : t.kind = .single) (hs : s ∈ t.freshCandidates) :
    (t = .bool ∧ (s = "true" ∨ s = "false")) ∨
      (∃ name members, t = .enumeration name members ∧ s ∈ members) ∨ t = .exact s := by
  cases t with
  | bool => exact .inl ⟨rfl, by simpa [freshCandidates, kind, possibilities] using hs⟩
  | enumeration name members => exact .inr (.inl ⟨name, members, rfl, hs⟩)
  | exact text =>
    obtain rfl : s = text := by simpa [freshCandidates, kind, possibilities] using hs
    exact .inr (.inr rfl)
  | custom c => exact ht.elim
  | any | list | exactList | map | record => cases hk
  | string | int | float | char => cases hs

theorem convert_member {name : String} {members : List String} :
    (∃ value, (enumeration name members).convert (.scalar w span) = .ok value) ↔ w ∈ members := by
  rw [convert_scalar rfl (fun c hc => by cases hc), convertText]
  by_cases hw : w ∈ members <;> simp [hw, Except.mapError]

theorem convert_exact : (∃ value, (exact s).convert (.scalar w span) = .ok value) ↔ w = s := by
  rw [convert_scalar rfl (fun c hc => by cases hc), convertText]
  by_cases hw : s = w <;> simp [hw, Except.mapError, eq_comm]

/-- A type takes its own candidates. -/
theorem convert_freshCandidate (ht : t.Builtin) (hk : t.kind = .single)
    (hs : s ∈ t.freshCandidates) (span : Span) : ∃ value, t.convert (.scalar s span) = .ok value := by
  rcases freshCandidate_cases ht hk hs with ⟨rfl, hbool⟩ | ⟨name, members, rfl, hmem⟩ | rfl
  · rcases hbool with rfl | rfl
    · exact ⟨.bool true, convert_bool (by decide) span⟩
    · exact ⟨.bool false, convert_bool (by decide) span⟩
  · exact convert_member.mpr hmem
  · exact convert_exact.mpr rfl

/-- A type takes no scalar but its candidates, unless these are truth values, which stand alone. -/
theorem mem_freshCandidates_of_convert (ht : t.Builtin) (hk : t.kind = .single)
    (hs : s ∈ t.freshCandidates) (h : t.convert (.scalar w span) = .ok value) :
    w ∈ t.freshCandidates ∨ StandsAlone default s := by
  rcases freshCandidate_cases ht hk hs with ⟨rfl, hbool⟩ | ⟨name, members, rfl, -⟩ | rfl
  · rcases hbool with rfl | rfl
    · exact .inr (by decide +kernel)
    · exact .inr (by decide +kernel)
  · exact .inl (convert_member.mp ⟨value, h⟩)
  · exact .inl (List.mem_singleton.mpr (convert_exact.mp ⟨value, h⟩))

/-! ### Candidates on a line -/

/-- What a scalar type takes is a scalar. -/
theorem asScalar_of_convert {v : Literal} (hk : t.kind = .single) (h : t.convert v = .ok value) :
    ∃ w span, v = .scalar w span := by
  cases v with
  | scalar w span => exact ⟨w, span, rfl⟩
  | empty | list | map =>
    rw [convert_refused (by rw [hk]; rfl)] at h
    cases h

/-- **A candidate is read back as itself exactly if it stands alone**, and is then what its type
takes. The line is taken for a value of the type only then, or where it is read as another
candidate. In quotes every candidate is read back. -/
theorem freshCandidate_read_iff (ht : t.Builtin) (hk : t.kind = .single)
    (hs : s ∈ t.freshCandidates) :
    ((∃ span value, (default : TokenRules).ReadsValue s (.scalar s span) ∧
        t.convert (.scalar s span) = .ok value) ↔ StandsAlone default s) ∧
    ((∃ v value, (default : TokenRules).ReadsValue s v ∧ t.convert v = .ok value) ↔
      StandsAlone default s ∨ ∃ w ∈ t.freshCandidates, w ≠ s ∧
        ∃ span, (default : TokenRules).ReadsValue s (.scalar w span)) ∧
    ∃ span value, (default : TokenRules).ReadsValue (quote s) (.scalar s span) ∧
      t.convert (.scalar s span) = .ok value := by
  have htakes : ∀ {w}, w ∈ t.freshCandidates → ∀ span, ∃ value,
      t.convert (.scalar w span) = .ok value := convert_freshCandidate ht hk
  refine ⟨⟨?_, fun halone => ?_⟩, ⟨?_, ?_⟩, ?_⟩
  · rintro ⟨span, value, hread, -⟩
    exact readsValue_scalar_iff.mp ⟨span, hread⟩
  · obtain ⟨span, hread⟩ := readsValue_scalar_iff.mpr halone
    obtain ⟨value, hvalue⟩ := htakes hs span
    exact ⟨span, value, hread, hvalue⟩
  · rintro ⟨v, value, hread, hvalue⟩
    obtain ⟨w, span, rfl⟩ := asScalar_of_convert hk hvalue
    by_cases hw : w = s
    · exact .inl (readsValue_scalar_iff.mp ⟨span, hw ▸ hread⟩)
    · rcases mem_freshCandidates_of_convert ht hk hs hvalue with hmem | halone
      · exact .inr ⟨w, hmem, hw, span, hread⟩
      · exact .inl halone
  · rintro (halone | ⟨w, hmem, -, span, hread⟩)
    · obtain ⟨span, hread⟩ := readsValue_scalar_iff.mpr halone
      obtain ⟨value, hvalue⟩ := htakes hs span
      exact ⟨_, value, hread, hvalue⟩
    · obtain ⟨value, hvalue⟩ := htakes hmem span
      exact ⟨_, value, hread, hvalue⟩
  · have hsep : quote s ≠ (default : TokenRules).separator := by
      intro h
      have hhead := congrArg (·.toList.head?) h
      rw [toList_quote] at hhead
      cases hhead
    obtain ⟨span, hread⟩ := readsValue_quote hsep
    obtain ⟨value, hvalue⟩ := htakes hs span
    exact ⟨span, value, hread, hvalue⟩

/-- A blank in a group is part of the candidate that it stands in. -/
theorem freshCandidate_read_iff_group :
    "sky[light blue]" ∈ (enumeration "Colour" ["red", "sky[light blue]"]).freshCandidates ∧
    ∃ span value, (default : TokenRules).ReadsValue "sky[light blue]" (.scalar "sky[light blue]" span) ∧
      (enumeration "Colour" ["red", "sky[light blue]"]).convert (.scalar "sky[light blue]" span) =
        .ok value := by
  have hmem : "sky[light blue]" ∈
      (enumeration "Colour" ["red", "sky[light blue]"]).freshCandidates := by decide
  obtain ⟨hread, -⟩ := freshCandidate_read_iff (t := .enumeration "Colour" ["red", "sky[light blue]"])
    trivial rfl hmem
  exact ⟨hmem, hread.mpr (by decide +kernel)⟩

/-- A blank anywhere else makes two tokens of it. -/
theorem freshCandidate_not_read :
    "light blue" ∈ (enumeration "Colour" ["red", "light blue"]).freshCandidates ∧
    ¬∃ v value, (default : TokenRules).ReadsValue "light blue" v ∧
      (enumeration "Colour" ["red", "light blue"]).convert v = .ok value := by
  refine ⟨by decide, ?_⟩
  rintro ⟨v, value, ⟨t, stop, hts, -⟩, -⟩
  have htwo : (Tokens.ofText default "light blue").length = 2 := by decide +kernel
  rw [hts] at htwo
  cases htwo

end ArgType
end CommandConsole
