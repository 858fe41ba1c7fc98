/-
# Failures in front of the end

A text that cannot be read fails at its end, and may go on, or in front of it.
Then no continuation helps, with one exception: a bareword reads a bracket, a
brace or a quote as itself if the group that it opens does not end in the text;
so a continuation that ends such a group changes what has been read. This holds
for a literal, for a line, and for the place where a line is completed.

Key theorems: `LineEnv.failure?_of_parseCommands`, `CommandParser.parse_final`,
`TypedPlace.locate?_final`, `failure_final`.
-/
import CommandConsole.Proofs.Completion.Chain
import CommandConsole.Proofs.Token.Finality

namespace CommandConsole

/-! ### Lines -/

namespace LineEnv

variable {env : LineEnv} {ts us : Tokens} {f : ParseFail} {e : ExpectedTokens}
  {n stop position : Nat}

/-- Where a token is expected, it is expected as far back in a line that is alike up to a literal
`n` bytes back. -/
theorem parseCommands_back (halike : Tokens.Alike .exact n (.finished stop) us ts)
    (h : env.parseCommands ts = .error f) (hk : f.kind = .tokenExpected e position) :
    ∃ g before, env.parseCommands us = .error g ∧ g.kind = .tokenExpected e before ∧
      position = before + n := by
  have hgoes := env.parseCommands_alike (.finished stop)
    (fun id c _ => (env.bindEnv .complete id c).heeds_exact) env.text us halike
  have hline : (env.inText env.text).parseCommands ts = .error f := h
  have hnothing : (env.inText env.text).parseCommands (.finished stop) = .ok [] := by
    rw [parseCommands]
  rw [hline, hnothing] at hgoes
  cases hus : env.parseCommands us with
  | ok cs =>
    obtain ⟨ds, -, hds⟩ := hgoes.of_ok hus
    cases hds
  | error g =>
    obtain ⟨f', hf', hmoved⟩ := hgoes.of_error hus
    cases hf'
    refine ⟨g, ?_⟩
    rw [ParseFail.Moved, hk] at hmoved
    cases hg : g.kind with
    | tokenExpected e' before =>
      rw [hg, FailKind.moved] at hmoved
      cases hmoved
      exact ⟨before, rfl, rfl, rfl⟩
    | _ =>
      rw [hg] at hmoved
      cases hmoved

/-- **Nothing but a literal that cannot be read fails a line where a token is expected**, and it
fails no later. -/
theorem failure?_of_parseCommands (h : env.parseCommands ts = .error f)
    (hk : f.kind = .tokenExpected e position) :
    ∃ g, ts.failure? = some g ∧ g.position ≤ position := by
  cases hfailure : ts.failure? with
  | none =>
    -- nothing moves in such a line
    exfalso
    obtain ⟨us, stop, rfl⟩ := Tokens.exists_of_finished hfailure
    obtain ⟨g, before, hg, hbefore, hposition⟩ :=
      parseCommands_back (.prepend .exact 1 (.finished stop) stop us) h hk
    rw [h] at hg
    cases hg
    rw [hk] at hbefore
    cases hbefore
    omega
  | some g =>
    obtain ⟨us, start, rfl⟩ := Tokens.exists_of_failure? hfailure
    have hmoved : LiteralFailure.Moved g.position { g with position := 0 } g :=
      ⟨rfl, (Nat.zero_add _).symm⟩
    obtain ⟨-, before, -, -, hposition⟩ :=
      parseCommands_back (.inFront (.broken (e := .finished 0) start start hmoved) us) h hk
    exact ⟨g, rfl, hposition ▸ Nat.le_add_left _ _⟩

end LineEnv

/-- A line with the same tokens fails in the same way. -/
theorem CommandParser.parse_of_tokens {p : CommandParser} {context : ParseContext}
    {line longer : String} {f : ParseFail} (h : p.parse context line = .error f)
    (ht : p.config.tokensOf longer = p.config.tokensOf line) :
    ∃ g, p.parse context longer = .error g ∧ g.kind = f.kind := by
  obtain ⟨stop, halike⟩ := (p.config.tokensOf line).alike_refl .exact
  have hgoes := (p.lineEnv context line).parseCommands_alike (.finished stop)
    (fun id c _ => ((p.lineEnv context line).bindEnv .complete id c).heeds_exact) longer _ halike
  obtain ⟨g, hg, hmoved⟩ := hgoes.of_error h
  refine ⟨g, ?_, by rwa [ParseFail.Moved, FailKind.moved_zero] at hmoved⟩
  rw [parse, ht]
  exact hg

section Settled

variable {p : CommandParser} {context : ParseContext} {line s : String}

/-- **A line in which a token is expected in front of its end** fails in the same way, however it
goes on, if no group that has been given up ends there. -/
theorem CommandParser.parse_final {f : ParseFail} {e : ExpectedTokens} {position : Nat}
    (h : p.parse context line = .error f) (hk : f.kind = .tokenExpected e position)
    (hposition : position < textLength line)
    (hs : ¬Reopens (lineGivesUp p.config.tokenRules line) s.toList) :
    ∃ g, p.parse context (line ++ s) = .error g ∧ g.kind = f.kind := by
  obtain ⟨g, hg, hle⟩ := LineEnv.failure?_of_parseCommands h hk
  exact parse_of_tokens h (Tokens.ofText_final hg (Nat.lt_of_le_of_lt hle hposition) hs)

/-- **A line that has no place to complete** has none, however it goes on. -/
theorem TypedPlace.locate?_final {config : ParserConfig} (h : locate? config line = none)
    (hs : ¬Reopens (lineGivesUp config.tokenRules line) s.toList) :
    locate? config (line ++ s) = none := by
  rw [locate?] at h
  cases hf : (config.tokensOf line).failure? with
  | none =>
    obtain ⟨us, stop, hus⟩ := Tokens.exists_of_finished hf
    rw [hus, locateFrom?_prepend] at h
    cases hlast : us.getLast?.or none with
    | none =>
      rw [hlast] at h
      cases h
    | some t =>
      rw [hlast, locateFrom?] at h
      split at h <;> cases h
  | some f =>
    obtain ⟨us, start, hus⟩ := Tokens.exists_of_failure? hf
    rw [hus, locateFrom?_prepend, locateFrom?] at h
    have hposition : f.position < textLength line := by
      refine Nat.lt_of_not_le fun hle => ?_
      rw [if_pos hle] at h
      cases h
    have htokens : config.tokensOf (line ++ s) = config.tokensOf line :=
      Tokens.ofText_final hf hposition hs
    have hlength : textLength (line ++ s) = textLength line + textLength s := by
      rw [textLength, String.toList_append, byteLength_append]
      rfl
    rw [locate?, htokens, hus, locateFrom?_prepend, locateFrom?, if_neg (by omega)]

end Settled

/-! ### Texts -/

/-- **A failure in front of the end is final**, for a literal and for a line. If what follows ends
no group that a bareword has given up, the same text cannot be read: the literal fails in the same
way, the line fails where a token is expected as it did, and a line with no place to complete has
none. If it ends one, what is still expected in the literal stands behind the old end. -/
theorem failure_final (p : CommandParser) (context : ParseContext)
    (text s : String) :
    (∀ limit f, parseLiteral limit text = .error f → f.position < textLength text →
      (¬Reopens (literalGivesUp limit text) s.toList →
        parseLiteral limit (text ++ s) = .error f) ∧
      (Reopens (literalGivesUp limit text) s.toList →
        ∀ g e, parseLiteral limit (text ++ s) = .error g → g.kind = .tokenExpected e →
          textLength text < g.position)) ∧
    (¬Reopens (lineGivesUp p.config.tokenRules text) s.toList →
      (∀ f e position, p.parse context text = .error f → f.kind = .tokenExpected e position →
        position < textLength text →
          ∃ g, p.parse context (text ++ s) = .error g ∧ g.kind = f.kind) ∧
      (TypedPlace.locate? p.config text = none →
        TypedPlace.locate? p.config (text ++ s) = none)) := by
  refine ⟨fun limit f h hf => ⟨parseLiteral_final h hf, fun hs g e hg hk => ?_⟩, fun hs => ⟨?_, ?_⟩⟩
  · exact parseLiteral_reopened hs hg hk
  · exact fun f e position h hk hposition => CommandParser.parse_final h hk hposition hs
  · exact fun h => TypedPlace.locate?_final h hs

/-- No continuation of a list with an equals sign in it can be read. -/
theorem failure_final_list :
    let text := "[a=b"
    (∃ f, parseLiteral 64 text = .error f ∧ f.kind = .tokenExpected ⟨[',', ']'], false⟩ ∧
      f.position = 2 ∧ ¬Reopens (literalGivesUp 64 text) "]".toList ∧
        parseLiteral 64 (text ++ "]") = .error f) ∧
    (∃ f g, Demo.parser.parse .empty text = .error f ∧
      f.kind = .tokenExpected ⟨[',', ']'], false⟩ 2 ∧
        Demo.parser.parse .empty (text ++ "]") = .error g ∧ g.kind = f.kind) ∧
    TypedPlace.locate? Demo.parser.config text = none ∧
      TypedPlace.locate? Demo.parser.config (text ++ "]") = none := by
  intro text
  have hliteral : (failureOf? (parseLiteral 64 text)).map (fun f => (f.kind, f.position)) =
      some (.tokenExpected ⟨[',', ']'], false⟩, 2) := by
    decide +kernel
  have hline : (failureOf? (Demo.parser.parse .empty text)).map (·.kind) =
      some (.tokenExpected ⟨[',', ']'], false⟩ 2) := by
    decide +kernel
  have hplace : TypedPlace.locate? Demo.parser.config text = none := by
    rw [← Option.isNone_iff_eq_none]
    decide +kernel
  have hlost : ¬Reopens (literalGivesUp 64 text) "]".toList := by decide +kernel
  have hlost' : ¬Reopens (lineGivesUp Demo.parser.config.tokenRules text) "]".toList := by
    decide +kernel
  obtain ⟨hliterals, hlines⟩ := failure_final Demo.parser .empty text "]"
  obtain ⟨hparse, hlocate⟩ := hlines hlost'
  refine ⟨?_, ?_, hplace, hlocate hplace⟩
  · obtain ⟨f, hf, hkind⟩ := Option.map_eq_some_iff.mp hliteral
    obtain ⟨hk, hposition⟩ := Prod.mk.inj hkind
    have herror := failureOf?_eq_some hf
    have hinside : f.position < textLength text := by
      rw [hposition]
      decide
    exact ⟨f, herror, hk, hposition, hlost, (hliterals 64 f herror hinside).1 hlost⟩
  · obtain ⟨f, hf, hk⟩ := Option.map_eq_some_iff.mp hline
    have herror := failureOf?_eq_some hf
    obtain ⟨g, hg, hkind⟩ := hparse f _ 2 herror hk (by decide)
    exact ⟨f, g, herror, hk, hg, hkind⟩

/-- A bareword that gives a group up ends before a blank; with the end of the group it goes on. -/
theorem parseLiteral_reopened_word :
    let text := "a[ b"
    (∃ f, parseLiteral 64 text = .error f ∧ f.kind = .tokenExpected .endOfInput ∧
      f.position = 3 ∧ f.position < textLength text) ∧
    parseLiteral 64 (text ++ "]") = .ok (.scalar "a[ b]" ⟨0, 5⟩) := by
  intro text
  have hshort : (failureOf? (parseLiteral 64 text)).map (fun f => (f.kind, f.position)) =
      some (.tokenExpected .endOfInput, 3) := by
    decide +kernel
  have hlong : (parseLiteral 64 (text ++ "]")).toOption = some (.scalar "a[ b]" ⟨0, 5⟩) := by
    decide +kernel
  constructor
  · obtain ⟨f, hf, hkind⟩ := Option.map_eq_some_iff.mp hshort
    obtain ⟨hk, hposition⟩ := Prod.mk.inj hkind
    exact ⟨f, failureOf?_eq_some hf, hk, hposition, by rw [hposition]; decide⟩
  · cases h : parseLiteral 64 (text ++ "]") with
    | error f => rw [h] at hlong; cases hlong
    | ok v =>
      rw [h] at hlong
      rw [Option.some.inj hlong]

end CommandConsole
