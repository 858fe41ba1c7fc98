/-
# Resolving the name of a command

A command begins with tokens that name it: the first names a root command, and
each further one a child of the command named before, as long as there is one.
A token that cannot be read ends the name without a failure: whoever reads on
will meet it again.

Key definitions: `LineEnv`, `Resolved`, `LineEnv.descend`, `LineEnv.resolve`.
Key theorem: `LineEnv.resolve_remaining_le`.
-/
import CommandConsole.Binding.Binder
import CommandConsole.Command.Registry

namespace CommandConsole

/-- What stays the same while one line is parsed. -/
structure LineEnv where
  text : String
  registry : Registry
  config : ParserConfig
  context : ParseContext

/-- A command that some tokens name. -/
structure Resolved where
  id : CommandId
  /-- The span of the tokens that name it. -/
  span : Span
  /-- The place behind them. -/
  cursor : TokenCursor

namespace LineEnv

def fail (env : LineEnv) (kind : FailKind) (span : Span) : ParseFail := ⟨kind, ⟨env.text, span⟩⟩

def notFound (env : LineEnv) (t : Token) : ParseFail := env.fail (.commandNotFound t.raw) t.span

def ambiguous (env : LineEnv) (t : Token) (ids : List CommandId) : ParseFail :=
  env.fail (.ambiguousCommand t.raw (env.registry.candidateNames ids)) t.span

/-- The children of `parent` that a token names. A token that is not a word names none. -/
def childMatch (env : LineEnv) (parent : Option CommandId) (t : Token) : Registry.ChildMatch :=
  match t.word? with
  | none => .none
  | some word => env.registry.matchChild env.context.localizer parent word

/-- Goes from the command `id`, named by the tokens in `span`, as deep as the tokens allow. -/
def descend (env : LineEnv) (id : CommandId) (span : Span) : Tokens → Except ParseFail Resolved
  | .more t rest =>
    match env.childMatch (some id) t with
    | .none => .ok ⟨id, span, ⟨span.stop, .more t rest⟩⟩
    | .one child => env.descend child (span.cover t.span) rest
    | .many ids => .error (env.ambiguous t ids)
  | ts => .ok ⟨id, span, ⟨span.stop, ts⟩⟩

/-- The deepest command that the token `t` and those after it name. -/
def resolve (env : LineEnv) (t : Token) (rest : Tokens) : Except ParseFail Resolved :=
  match env.childMatch none t with
  | .none => .error (env.notFound t)
  | .one id => env.descend id t.span rest
  | .many ids => .error (env.ambiguous t ids)

theorem descend_remaining_le {env : LineEnv} {r : Resolved} : ∀ {id : CommandId} {span : Span}
    {ts : Tokens}, env.descend id span ts = .ok r → r.cursor.remaining ≤ ts.length
  | id, span, .more t rest, h => by
    unfold descend at h
    split at h
    · cases h
      exact Nat.le_refl _
    · have := descend_remaining_le h
      simp only [Tokens.length_more]
      omega
    · cases h
  | id, span, .finished _, h => by cases h; exact Nat.le_refl _
  | id, span, .broken _ _, h => by cases h; exact Nat.le_refl _

theorem resolve_remaining_le {env : LineEnv} {t : Token} {rest : Tokens} {r : Resolved}
    (h : env.resolve t rest = .ok r) : r.cursor.remaining ≤ rest.length := by
  unfold resolve at h
  split at h
  · cases h
  · exact descend_remaining_le h
  · cases h

end LineEnv
end CommandConsole
