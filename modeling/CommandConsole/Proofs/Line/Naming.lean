/-
# The tokens that name a command

Resolving a command uses up the tokens that name it and no other: the first
names a root command, each further one a child of the command before, and the
token behind them names no child of the last.

Key definitions: `LineEnv.Leads`, `LineEnv.Names`.
Key theorem: `LineEnv.resolve_names`.
-/
import CommandConsole.Line.Resolve
import CommandConsole.Proofs.Binding.Taking

namespace CommandConsole
namespace LineEnv

/-- Each of the tokens names a child of the command before it, from the first to the last. -/
inductive Leads (env : LineEnv) : CommandId → List Token → CommandId → Prop
  | here {id : CommandId} : Leads env id [] id
  | child {id child last : CommandId} {t : Token} {ts : List Token}
      (h : env.childMatch (some id) t = .one child) (hs : Leads env child ts last) :
      Leads env id (t :: ts) last

/-- The tokens name the command `id`, from its root on. -/
def Names (env : LineEnv) (names : List Token) (id : CommandId) : Prop :=
  ∃ t ts root, names = t :: ts ∧ env.childMatch none t = .one root ∧ env.Leads root ts id

variable {env : LineEnv}

/-- A token that names a command is a word. -/
theorem isValue_of_childMatch {parent : Option CommandId} {t : Token} {id : CommandId}
    (h : env.childMatch parent t = .one id) : t.isValue = true := by
  unfold childMatch at h
  split at h
  · cases h
  · rename_i word hw
    obtain ⟨span, hk⟩ := Token.kind_of_word? hw
    exact Token.isValue_of_kind hk

theorem Leads.all_isValue {id last : CommandId} {ts : List Token} (h : env.Leads id ts last) :
    ∀ t ∈ ts, t.isValue = true := by
  induction h with
  | here => simp
  | child h _ ih => exact List.forall_mem_cons.mpr ⟨isValue_of_childMatch h, ih⟩

theorem Names.all_isValue {names : List Token} {id : CommandId} (h : env.Names names id) :
    ∀ t ∈ names, t.isValue = true := by
  obtain ⟨t, ts, root, rfl, ht, hs⟩ := h
  exact List.forall_mem_cons.mpr ⟨isValue_of_childMatch ht, hs.all_isValue⟩

theorem descend_leads {r : Resolved} : ∀ {id : CommandId} {span : Span} {ts : Tokens},
    env.descend id span ts = .ok r → ∃ names, ts = .prepend names r.cursor.tokens ∧
      env.Leads id names r.id ∧
        ∀ t rest, r.cursor.tokens = .more t rest → env.childMatch (some r.id) t = .none
  | id, span, .more t rest, h => by
    unfold descend at h
    split at h
    · rename_i hn
      cases h
      refine ⟨[], rfl, .here, fun u us hu => ?_⟩
      cases hu
      exact hn
    · rename_i child hc
      obtain ⟨names, hnames, hleads, hlast⟩ := descend_leads h
      exact ⟨t :: names, by simp [hnames], .child hc hleads, hlast⟩
    · cases h
  | id, span, .finished stop, h => by
    cases h
    exact ⟨[], rfl, .here, fun u us hu => by cases hu⟩
  | id, span, .broken start failure, h => by
    cases h
    exact ⟨[], rfl, .here, fun u us hu => by cases hu⟩

/-- **Resolving uses up exactly the tokens that name the command**, as deep as they lead. -/
theorem resolve_names {t : Token} {rest : Tokens} {r : Resolved} (h : env.resolve t rest = .ok r) :
    ∃ names, rest = .prepend names r.cursor.tokens ∧ env.Names (t :: names) r.id ∧
      ∀ u us, r.cursor.tokens = .more u us → env.childMatch (some r.id) u = .none := by
  unfold resolve at h
  split at h
  · cases h
  · rename_i root hroot
    obtain ⟨names, hnames, hleads, hlast⟩ := descend_leads h
    exact ⟨names, hnames, ⟨t, names, root, rfl, hroot, hleads⟩, hlast⟩
  · cases h

end LineEnv
end CommandConsole
