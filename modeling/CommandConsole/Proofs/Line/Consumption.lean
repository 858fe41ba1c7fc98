/-
# The tokens of one command

A command of a line uses up the tokens that name it, the tokens that are bound
to its arguments, and perhaps the separator behind them. What it has bound is
what the ledger of its argument tokens says.

Key theorems: `LineEnv.bindCommand_tokens`, `LineEnv.mem_parseCommands`.
-/
import CommandConsole.Line.Parse
import CommandConsole.Proofs.Binding.Ledger
import CommandConsole.Proofs.Line.Naming

namespace CommandConsole
namespace LineEnv

variable {env : LineEnv} {mode : BindMode} {t : Token} {rest : Tokens} {r : Resolved} {c : Command}
  {b : BindEnv.Binding} {P : Argument → Prop}

theorem bindCommand_eq_ok (h : env.bindCommand mode t rest = .ok (r, c, b)) :
    env.resolve t rest = .ok r ∧ env.registry.get? r.id = some c ∧
      (env.bindEnv mode r.id c).bind r.cursor = .ok b := by
  unfold bindCommand at h
  split at h
  · cases h
  · rename_i q hq
    split at h
    · cases h
    · rename_i d hd
      obtain ⟨b', hb, he⟩ := exists_of_map_eq_ok h
      cases he
      exact ⟨hq, hd, hb⟩

/-- **A command uses up its name, its argument tokens and a separator that ends it**, and the
accounts of the argument tokens are in order. -/
theorem bindCommand_tokens (h : env.bindCommand mode t rest = .ok (r, c, b))
    (hO : (env.bindEnv mode r.id c).Offers P) :
    ∃ (names used : List Token) (sep : Option Token) (s : BindState) (bundles : List Token)
      (entries : List (BoundArgument × List Token)),
      rest = .prepend (names ++ used ++ sep.toList) b.cursor.tokens ∧
      env.Names (t :: names) r.id ∧
      (∀ u ∈ used.head?, env.childMatch (some r.id) u = .none) ∧
      (∀ u ∈ used, u.isSeparator = false) ∧
      (∀ u ∈ sep, u.isSeparator = true) ∧ b.bySeparator = sep.isSome ∧
      (env.bindEnv mode r.id c).Accounts P used bundles entries s ∧
      (env.bindEnv mode r.id c).finish s = .ok b.state := by
  obtain ⟨hres, -, hbind⟩ := bindCommand_eq_ok h
  obtain ⟨names, hrest, hnames, hlast⟩ := resolve_names hres
  obtain ⟨s, used, sep, bundles, entries, ⟨htok, hby, hsep⟩, hn, hA, hf⟩ :=
    BindEnv.bind_accounts hO hbind
  refine ⟨names, used, sep, s, bundles, entries, ?_, hnames, ?_, hn, hsep, hby, hA, hf⟩
  · rw [hrest, htok, List.append_assoc, ← Tokens.prepend_append]
  · intro u hu
    obtain ⟨us, rfl⟩ := List.head?_eq_some_iff.mp hu
    exact hlast u _ htok

/-- What a command leaves of the line is the end of it. -/
theorem bindCommand_rest (h : env.bindCommand mode t rest = .ok (r, c, b)) :
    ∃ used, rest = .prepend used b.cursor.tokens := by
  obtain ⟨names, used, sep, -, -, -, hrest, -⟩ :=
    bindCommand_tokens (P := fun _ => True) h fun _ _ _ => trivial
  exact ⟨_, hrest⟩

/-- **Every command that a line gives is bound at one place of the line**, and may be used. -/
theorem exists_of_mem_parseCommands (ts : Tokens) : ∀ {cmds : List BoundCommand} {d : BoundCommand},
    env.parseCommands ts = .ok cmds → d ∈ cmds →
      ∃ before t rest r c b, ts = .prepend before (.more t rest) ∧
        env.bindCommand .complete t rest = .ok (r, c, b) ∧
        env.checkGate r c b.state.bound = .ok () ∧ d = env.boundCommand r c b := by
  fun_induction env.parseCommands ts with
  | case1 =>
    intro cmds d h hd
    cases h
    cases hd
  | case2 => intro cmds d h _; cases h
  | case3 t rest _ ih =>
    intro cmds d h hd
    obtain ⟨before, u, us, r, c, b, hs, hrest⟩ := ih h hd
    exact ⟨t :: before, u, us, r, c, b, by rw [hs]; rfl, hrest⟩
  | case4 => intro cmds d h _; cases h
  | case5 => intro cmds d h _; cases h
  | case6 t rest _ r c b hb hg ih =>
    intro cmds d h hd
    obtain ⟨more, hmore, rfl⟩ := exists_of_map_eq_ok h
    rcases List.mem_cons.mp hd with rfl | hd
    · exact ⟨[], t, rest, r, c, b, rfl, hb, hg, rfl⟩
    · obtain ⟨before, u, us, r', c', b', hs, hfound⟩ := ih hmore hd
      obtain ⟨used, hrest⟩ := bindCommand_rest hb
      exact ⟨t :: (used ++ before), u, us, r', c', b', by rw [hrest, hs]; simp, hfound⟩

/-- The place of a command is one of the ends of the line. -/
theorem mem_parseCommands (ts : Tokens) {cmds : List BoundCommand} {d : BoundCommand}
    (h : env.parseCommands ts = .ok cmds) (hd : d ∈ cmds) :
    ∃ t rest r c b, (Tokens.more t rest).toList <:+ ts.toList ∧
      env.bindCommand .complete t rest = .ok (r, c, b) ∧
      env.checkGate r c b.state.bound = .ok () ∧ d = env.boundCommand r c b := by
  obtain ⟨before, t, rest, r, c, b, hts, hfound⟩ := exists_of_mem_parseCommands ts h hd
  exact ⟨t, rest, r, c, b, by rw [hts, Tokens.toList_prepend]; exact List.suffix_append _ _, hfound⟩

end LineEnv
end CommandConsole
