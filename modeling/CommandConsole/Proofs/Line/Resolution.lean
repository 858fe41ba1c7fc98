/-
# The full name of a command resolves to it

The words of a command's full name, each as a token of its own, lead from the
root of the command to the command itself, and resolving stops there unless the
next token goes on with a name.

Key theorems: `LineEnv.names_of_path`, `LineEnv.Names.resolve`.
-/
import CommandConsole.Proofs.Command.Forest
import CommandConsole.Proofs.Line.Naming

namespace CommandConsole
namespace LineEnv

variable {env : LineEnv} {id last next : CommandId} {t : Token} {ts : List Token} {rest : Tokens}

theorem Leads.snoc (h : env.Leads id ts last) (ht : env.childMatch (some last) t = .one next) :
    env.Leads id (ts ++ [t]) next := by
  induction h with
  | here => exact .child ht .here
  | child h _ ih => exact .child h (ih ht)

theorem Names.snoc (h : env.Names ts id) (ht : env.childMatch (some id) t = .one next) :
    env.Names (ts ++ [t]) next := by
  obtain ⟨u, us, root, rfl, hu, hs⟩ := h
  exact ⟨u, us ++ [t], root, rfl, hu, hs.snoc ht⟩

/-- The words on the way to a command name it, if only declared names count. -/
theorem names_of_path (hr : env.registry.WellFormed) (hl : env.context.localizer = none)
    {words : List String} (h : env.registry.Path id words) : ∀ {ts : List Token},
      List.Forall₂ (fun w t => Token.word? t = some w) words ts → env.Names ts id := by
  have hmatch : ∀ {id : CommandId} {e : RegisteredCommand} {t : Token},
      env.registry.entries[id]? = some e → t.word? = some e.command.name →
        env.childMatch e.parent t = .one id := by
    intro id e t he hw
    rw [childMatch, hw, hl]
    exact hr.matchChild_name he List.mem_cons_self
  induction h with
  | root he hp =>
    intro ts hts
    obtain ⟨t, us, hw, hnil, rfl⟩ := List.forall₂_cons_left_iff.mp hts
    obtain rfl := List.forall₂_nil_left_iff.mp hnil
    exact ⟨t, [], _, rfl, hp ▸ hmatch he hw, .here⟩
  | @child id p e names he hp h ih =>
    intro ts hts
    obtain ⟨us, vs, rfl, hus, hvs⟩ := forall₂_append_left hts
    obtain ⟨t, ws, hw, hnil, rfl⟩ := List.forall₂_cons_left_iff.mp hvs
    obtain rfl := List.forall₂_nil_left_iff.mp hnil
    exact (ih hus).snoc (hp ▸ hmatch he hw)

theorem Leads.descend (h : env.Leads id ts last)
    (hstop : ∀ u us, rest = .more u us → env.childMatch (some last) u = .none) : ∀ span : Span,
      ∃ span', env.descend id span (.prepend ts rest) = .ok ⟨last, span', ⟨span'.stop, rest⟩⟩ := by
  induction h with
  | here =>
    intro span
    refine ⟨span, ?_⟩
    cases rest with
    | finished stop => rfl
    | broken start failure => rfl
    | more u us =>
      rw [Tokens.prepend_nil, LineEnv.descend, hstop u us rfl]
  | @child id child last t ts h _ ih =>
    intro span
    obtain ⟨span', hd⟩ := ih hstop (span.cover t.span)
    refine ⟨span', ?_⟩
    rw [Tokens.prepend_cons, LineEnv.descend, h]
    exact hd

/-- **Tokens that name a command resolve to it**, if what follows does not go on with the name. -/
theorem Names.resolve (h : env.Names (t :: ts) id)
    (hstop : ∀ u us, rest = .more u us → env.childMatch (some id) u = .none) :
    ∃ span, env.resolve t (.prepend ts rest) = .ok ⟨id, span, ⟨span.stop, rest⟩⟩ := by
  obtain ⟨u, us, root, he, hu, hs⟩ := h
  obtain ⟨rfl, rfl⟩ := List.cons.inj he
  obtain ⟨span, hd⟩ := hs.descend hstop t.span
  exact ⟨span, by rw [LineEnv.resolve, hu]; exact hd⟩

end LineEnv
end CommandConsole
