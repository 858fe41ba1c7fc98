/-
# Resolving words and resolving tokens

A registry resolves a list of words; a line resolves the tokens where a command
begins, and has to find out on the way which of them are words. Both come to
the same: the words that stand one behind the other at that place, up to the
first token that is none, the end, or a literal that cannot be read, resolve to
a command exactly if the tokens do, and use up as many words as tokens.

Key definitions: `Tokens.words`, `Resolved.NamedBy`, `LineEnv.Agrees`.
Key theorems: `LineEnv.descend_agrees`, `LineEnv.resolve_agrees`, `CommandParser.resolve_iff`.
-/
import CommandConsole.Proofs.Command.Localized
import CommandConsole.Proofs.Line.Extent

namespace CommandConsole

/-- The words that stand one behind the other at the beginning. -/
def Tokens.words : Tokens → List String
  | .finished _ | .broken _ _ => []
  | .more t rest =>
    match t.word? with
    | none => []
    | some w => w :: rest.words

/-- The command is named by `names`, with which the tokens `ts` begin: its span is from the first to
the last of them, and the place is right behind the last. -/
structure Resolved.NamedBy (r : Resolved) (names : List Token) (ts : Tokens) : Prop where
  ne_nil : names ≠ []
  tokens : ts = .prepend names r.cursor.tokens
  start : ∀ t ∈ names.head?, r.span.start = t.span.start
  stop : ∀ t ∈ names.getLast?, r.span.stop = t.span.stop ∧ r.cursor.position = t.span.stop

namespace LineEnv

variable {env : LineEnv} {t : Token} {ts rest : Tokens} {r : Resolved} {w : String}
  {names : List Token} {id : CommandId} {left : List String}
  {words : Except ResolveError (CommandId × List String)} {tokens : Except ParseFail Resolved}

/-! ### The two descents -/

/-- What the words at the beginning of the tokens `ts` resolve to, and what the tokens resolve to,
is the same. -/
inductive Agrees (env : LineEnv) (ts : Tokens) :
    Except ResolveError (CommandId × List String) → Except ParseFail Resolved → Prop
  | resolved {left : List String} (names : List Token) (r : Resolved)
      (hts : ts = .prepend names r.cursor.tokens)
      (hleft : names.length + left.length = ts.words.length) :
      Agrees env ts (.ok (r.id, left)) (.ok r)
  | notFound (u : Token) (word : String) :
      Agrees env ts (.error (.notFound word)) (.error (env.notFound u))
  | ambiguous (u : Token) (word : String) (ids : List CommandId) :
      Agrees env ts (.error (.ambiguous word (env.registry.candidateNames ids)))
        (.error (env.ambiguous u ids))

/-- A word in front that has been used up is one token and one word more. -/
theorem Agrees.more (hw : t.word? = some w) (h : env.Agrees rest words tokens) :
    env.Agrees (.more t rest) words tokens := by
  cases h with
  | @resolved left names r hts hleft =>
    refine .resolved (t :: names) r (by rw [hts]; rfl) ?_
    rw [Tokens.words, hw, List.length_cons, List.length_cons]
    omega
  | notFound u word => exact .notFound u word
  | ambiguous u word ids => exact .ambiguous u word ids

/-- Where no token is used up, no word is. -/
theorem Agrees.here (ts : Tokens) (id : CommandId) (span : Span) :
    env.Agrees ts (.ok (id, ts.words)) (.ok ⟨id, span, ⟨span.stop, ts⟩⟩) :=
  .resolved [] ⟨id, span, ⟨span.stop, ts⟩⟩ rfl (Nat.zero_add _)

theorem childMatch_word (parent : Option CommandId) (hw : t.word? = some w) :
    env.childMatch parent t = env.registry.matchChild env.context.localizer parent w := by
  rw [childMatch, hw]

/-- **From any command the words and the tokens lead equally deep.** -/
theorem descend_agrees : ∀ (ts : Tokens) (id : CommandId) (span : Span),
    env.Agrees ts (env.registry.descend env.context.localizer id ts.words) (env.descend id span ts)
  | .finished stop, id, span => .here (.finished stop) id span
  | .broken start failure, id, span => .here (.broken start failure) id span
  | .more t rest, id, span => by
    have hhere : env.Agrees (.more t rest) _ _ := .here (.more t rest) id span
    cases hw : t.word? with
    | none =>
      -- a token that is no word ends the words, and names no child
      have hwords : (Tokens.more t rest).words = [] := by rw [Tokens.words, hw]
      rw [descend, childMatch, hw, hwords]
      rwa [hwords] at hhere
    | some w =>
      have hwords : (Tokens.more t rest).words = w :: rest.words := by rw [Tokens.words, hw]
      rw [descend, childMatch_word (some id) hw, hwords, Registry.descend]
      cases env.registry.matchChild env.context.localizer (some id) w with
      | none => rwa [hwords] at hhere
      | one child => exact (descend_agrees rest child (span.cover t.span)).more hw
      | many ids => exact .ambiguous t w ids

/-- **The words and the tokens where a command begins resolve to the same.** -/
theorem resolve_agrees (hw : t.word? = some w) (rest : Tokens) :
    env.Agrees (.more t rest)
      (env.registry.resolve env.context.localizer (Tokens.more t rest).words)
      (env.resolve t rest) := by
  have hwords : (Tokens.more t rest).words = w :: rest.words := by rw [Tokens.words, hw]
  rw [resolve, childMatch_word none hw, hwords, Registry.resolve]
  cases env.registry.matchChild env.context.localizer none w with
  | none => exact .notFound t w
  | one root => exact (descend_agrees rest root t.span).more hw
  | many ids => exact .ambiguous t w ids

/-! ### What the two outcomes say of each other -/

theorem Agrees.of_ok (h : env.Agrees ts words (.ok r)) :
    ∃ names left, words = .ok (r.id, left) ∧ ts = .prepend names r.cursor.tokens ∧
      names.length + left.length = ts.words.length := by
  cases h with
  | resolved names _ hts hleft => exact ⟨names, _, rfl, hts, hleft⟩

theorem Agrees.of_words_ok (h : env.Agrees ts (.ok (id, left)) tokens) :
    ∃ r names, tokens = .ok r ∧ r.id = id ∧ ts = .prepend names r.cursor.tokens ∧
      names.length + left.length = ts.words.length := by
  cases h with
  | resolved names r hts hleft => exact ⟨r, names, rfl, rfl, hts, hleft⟩

/-- What resolves is named by the tokens that it uses up. -/
theorem namedBy_of_resolve (hplaced : TokensPlaced (Tokens.more t rest).toList)
    (h : env.resolve t rest = .ok r) : ∃ names, r.NamedBy names (.more t rest) := by
  obtain ⟨names, hrest, -⟩ := resolve_names h
  obtain ⟨hspan, hposition⟩ := resolve_span h hrest
  have hnames : TokensPlaced (t :: names) := by
    refine hplaced.sublist ?_
    rw [hrest, Tokens.toList_more, Tokens.toList_prepend]
    exact (List.sublist_append_left names _).cons_cons t
  refine ⟨t :: names, List.cons_ne_nil t names, by rw [hrest]; rfl, ?_, ?_⟩
  · intro u hu
    obtain rfl := Option.some.inj hu
    rw [hspan, hnames.coverAll_start]
  · intro u hu
    obtain ⟨before, hbefore⟩ := List.getLast?_eq_some_iff.mp hu
    rw [hbefore] at hnames hspan
    rw [hposition, hspan, hnames.coverAll_stop]
    exact ⟨rfl, rfl⟩

theorem agrees_commandNotFound (h : env.Agrees ts words tokens) :
    (∃ f name, tokens = .error f ∧ f.kind = .commandNotFound name) ↔
      ∃ word, words = .error (.notFound word) := by
  cases h with
  | resolved => exact iff_of_false (by simp) (by simp)
  | notFound u word => exact iff_of_true ⟨_, _, rfl, rfl⟩ ⟨word, rfl⟩
  | ambiguous u word ids =>
    refine iff_of_false ?_ (by simp)
    rintro ⟨f, name, hf, hk⟩
    cases hf
    cases hk

theorem agrees_ambiguousCommand (h : env.Agrees ts words tokens) (candidates : List String) :
    (∃ f name, tokens = .error f ∧ f.kind = .ambiguousCommand name candidates) ↔
      ∃ word, words = .error (.ambiguous word candidates) := by
  cases h with
  | resolved => exact iff_of_false (by simp) (by simp)
  | notFound u word =>
    refine iff_of_false ?_ (by simp)
    rintro ⟨f, name, hf, hk⟩
    cases hf
    cases hk
  | ambiguous u word ids =>
    constructor
    · rintro ⟨f, name, hf, hk⟩
      cases hf
      cases hk
      exact ⟨word, rfl⟩
    · rintro ⟨word', hw⟩
      cases hw
      exact ⟨_, _, rfl, rfl⟩

end LineEnv

/-- **A line resolves tokens as the registry resolves words.** Where a command begins with a word,
let `words` be the words that stand one behind the other. The tokens resolve to a command and are
named by the first `j` of them exactly if the words resolve to it and all but `j` are left; the
place behind is right behind the last of these tokens, and the span is from the first to the last.
The command is not found, or is one of several candidates, exactly if it is so for the registry. -/
theorem CommandParser.resolve_iff {p : CommandParser} (context : ParseContext) {text : String}
    (before : List Token) {t : Token} {rest : Tokens} {w : String}
    (htokens : p.config.tokensOf text = .prepend before (.more t rest)) (hw : t.word? = some w) :
    (∀ (id : CommandId) (j : Nat),
      (∃ r names, (p.lineEnv context text).resolve t rest = .ok r ∧ r.id = id ∧
        r.NamedBy names (.more t rest) ∧ names.length = j) ↔
      ∃ left, p.registry.resolve context.localizer (Tokens.more t rest).words = .ok (id, left) ∧
        j + left.length = (Tokens.more t rest).words.length) ∧
    (∀ r, (p.lineEnv context text).resolve t rest = .ok r →
      ∃ names, r.NamedBy names (.more t rest)) ∧
    ((∃ f name, (p.lineEnv context text).resolve t rest = .error f ∧
        f.kind = .commandNotFound name) ↔
      ∃ word, p.registry.resolve context.localizer (Tokens.more t rest).words =
        .error (.notFound word)) ∧
    ∀ candidates, (∃ f name, (p.lineEnv context text).resolve t rest = .error f ∧
        f.kind = .ambiguousCommand name candidates) ↔
      ∃ word, p.registry.resolve context.localizer (Tokens.more t rest).words =
        .error (.ambiguous word candidates) := by
  have hagrees : (p.lineEnv context text).Agrees (.more t rest)
      (p.registry.resolve context.localizer (Tokens.more t rest).words)
      ((p.lineEnv context text).resolve t rest) := LineEnv.resolve_agrees hw rest
  have hplaced : TokensPlaced (Tokens.more t rest).toList := by
    refine (tokensPlaced_tokensOf p.config text).sublist ?_
    rw [htokens, Tokens.toList_prepend]
    exact List.sublist_append_right before _
  refine ⟨fun id j => ⟨?_, ?_⟩, fun r hr => LineEnv.namedBy_of_resolve hplaced hr,
    LineEnv.agrees_commandNotFound hagrees, LineEnv.agrees_ambiguousCommand hagrees⟩
  · rintro ⟨r, names, hr, rfl, hnamed, rfl⟩
    rw [hr] at hagrees
    obtain ⟨used, left, hwords, hused, hlength⟩ := hagrees.of_ok
    obtain rfl : names = used := Tokens.prepend_left_cancel (hnamed.tokens.symm.trans hused)
    exact ⟨left, hwords, hlength⟩
  · rintro ⟨left, hwords, hlength⟩
    rw [hwords] at hagrees
    obtain ⟨r, used, hr, hid, hused, hused'⟩ := hagrees.of_words_ok
    obtain ⟨names, hnamed⟩ := LineEnv.namedBy_of_resolve hplaced hr
    obtain rfl : names = used := Tokens.prepend_left_cancel (hnamed.tokens.symm.trans hused)
    exact ⟨r, names, hr, hid, hnamed, by omega⟩

def Demo.remoteParser : CommandParser := ⟨remoteRegistry, default⟩

def Demo.remoteContext : ParseContext := ⟨[], some remoteNames⟩

/-- The third word is a localized name, the fourth names nothing, and what follows cannot be read. -/
theorem CommandParser.resolve_iff_remote :
    ∃ t rest, Demo.remoteParser.config.tokensOf "git remote origin url --depth=[" = .more t rest ∧
      t.word? = some "git" ∧ (Tokens.more t rest).words = ["git", "remote", "origin", "url"] ∧
      ∃ r names, (Demo.remoteParser.lineEnv Demo.remoteContext
          "git remote origin url --depth=[").resolve t rest = .ok r ∧
        r.id = 2 ∧ r.NamedBy names (.more t rest) ∧ names.length = 3 := by
  have hwords : (Demo.remoteParser.config.tokensOf "git remote origin url --depth=[").words =
      ["git", "remote", "origin", "url"] := by decide +kernel
  have hresolve : Demo.remoteParser.registry.resolve Demo.remoteContext.localizer
      ["git", "remote", "origin", "url"] = .ok (2, ["url"]) := rfl
  cases htokens : Demo.remoteParser.config.tokensOf "git remote origin url --depth=[" with
  | finished stop =>
    rw [htokens] at hwords
    cases hwords
  | broken start failure =>
    rw [htokens] at hwords
    cases hwords
  | more t rest =>
    rw [htokens] at hwords
    have hword : t.word? = some "git" := by
      cases hw : t.word? with
      | none =>
        rw [Tokens.words, hw] at hwords
        cases hwords
      | some w =>
        rw [Tokens.words, hw] at hwords
        rw [(List.cons.inj hwords).1]
    obtain ⟨hresolved, -⟩ := resolve_iff Demo.remoteContext [] htokens hword
    rw [hwords] at hresolved
    exact ⟨t, rest, rfl, hword, hwords, (hresolved 2 3).mpr ⟨["url"], hresolve, rfl⟩⟩

end CommandConsole
