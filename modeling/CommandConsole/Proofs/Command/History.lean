/-
# What any run of registrations leaves

Commands are registered one after the other, and some are refused. Whatever the
run, the registry it leaves is the same kind of thing: it goes on to accept
exactly the commands that keep to the rules, every command is found by its full
name and listed once, and any of its names, one for each command on the way to
it, lead to it and from there as deep as the words that follow allow.

Key definitions: `Registry.afterAll`, `Registry.Spelling`, `Registry.Deepest`,
`Registry.Consistent`.
Key theorem: `Registry.consistent_afterAll`.
-/
import CommandConsole.Proofs.Command.Tables
import Mathlib.Data.List.Nodup

namespace CommandConsole
namespace Registry

variable {r r' : Registry} {e : RegisteredCommand} {id last : CommandId} {c : Command}
  {words rest : List String}

/-! ### Runs -/

/-- What a registry is after a call to register a command. A refused command changes nothing. -/
def after (r : Registry) (c : Command) : Registry :=
  match r.register c with
  | .ok (_, r') => r'
  | .error _ => r

/-- What an empty registry is after some calls. -/
def afterAll (calls : List Command) : Registry := calls.foldl after .empty

theorem after_of_refused (h : ¬∃ id r', r.register c = .ok (id, r')) : r.after c = r := by
  rw [after]
  cases hc : r.register c with
  | error f => rfl
  | ok added => exact absurd ⟨added.1, added.2, hc⟩ h

/-- What holds of the empty registry, and still holds after a command is registered, holds after
every run. -/
theorem afterAll_induction {P : Registry → Prop} (hempty : P .empty)
    (hstep : ∀ r c id r', P r → r.register c = .ok (id, r') → P r') (calls : List Command) :
    P (afterAll calls) := by
  have hfold : ∀ (calls : List Command) (r : Registry), P r → P (calls.foldl after r) := by
    intro calls
    induction calls with
    | nil => exact fun r h => h
    | cons c calls ih =>
      intro r h
      refine ih (r.after c) ?_
      rw [after]
      cases hc : r.register c with
      | error f => exact h
      | ok added => exact hstep r c added.1 added.2 h hc
  exact hfold calls .empty hempty

/-! ### Resolution -/

/-- The words are names of commands below `id`, each under the one before it. -/
inductive Leads (r : Registry) : CommandId → List String → CommandId → Prop
  | here {id : CommandId} : Leads r id [] id
  | child {id child last : CommandId} {e : RegisteredCommand} {word : String} {words : List String}
      (he : r.entries[child]? = some e) (hp : e.parent = some id)
      (hn : word ∈ e.command.declaredNames) (h : Leads r child words last) :
      Leads r id (word :: words) last

/-- The words are names of the commands on the way from a root to a command, one for each. -/
inductive Spelling (r : Registry) : CommandId → List String → Prop
  | root {id : CommandId} {e : RegisteredCommand} {word : String} (he : r.entries[id]? = some e)
      (hp : e.parent = none) (hn : word ∈ e.command.declaredNames) : Spelling r id [word]
  | child {id p : CommandId} {e : RegisteredCommand} {word : String} {words : List String}
      (he : r.entries[id]? = some e) (hp : e.parent = some p)
      (hn : word ∈ e.command.declaredNames) (h : Spelling r p words) :
      Spelling r id (words ++ [word])

/-- The names on the way to a command are one choice of names. -/
theorem Path.spelling (h : r.Path id words) : r.Spelling id words := by
  induction h with
  | root he hp => exact .root he hp List.mem_cons_self
  | child he hp _ ih => exact .child he hp List.mem_cons_self ih

/-- `last` is as deep below `id` as words lead, and `rest` is left of them. -/
structure Deepest (r : Registry) (id : CommandId) (words : List String) (last : CommandId)
    (rest : List String) : Prop where
  leads : ∃ below, words = below ++ rest ∧ r.Leads id below last
  longest : ∀ below other rest', words = below ++ rest' → r.Leads id below other →
    rest.length ≤ rest'.length

theorem Deepest.here (h : ∀ word rest, words = word :: rest →
    ∀ (child : CommandId) (e : RegisteredCommand), r.entries[child]? = some e →
      e.parent = some id → word ∉ e.command.declaredNames) : r.Deepest id words id words := by
  refine ⟨⟨[], rfl, .here⟩, ?_⟩
  rintro below other rest' hw hleads
  cases hleads with
  | here => exact hw ▸ Nat.le_refl _
  | child he hp hn _ => exact absurd hn (h _ _ hw _ _ he hp)

theorem Deepest.child (hr : r.WellFormed) (he : r.entries[id]? = some e) {p : CommandId}
    (hp : e.parent = some p) {word : String} (hn : word ∈ e.command.declaredNames)
    (h : r.Deepest id words last rest) : r.Deepest p (word :: words) last rest := by
  obtain ⟨⟨below, rfl, hleads⟩, hlongest⟩ := h
  refine ⟨⟨word :: below, rfl, .child he hp hn hleads⟩, ?_⟩
  intro above other rest' hw habove
  cases habove with
  | here =>
    obtain rfl : word :: (below ++ rest) = rest' := hw
    rw [List.length_cons, List.length_append]
    omega
  | @child _ i _ d _ above hd hdp hdn h =>
    obtain ⟨rfl, hbelow⟩ := List.cons.inj hw
    obtain rfl : i = id := by
      by_contra hne
      exact hr.siblings i id d e hd he (hdp.trans hp.symm) hne word hdn hn
    exact hlongest above other rest' hbelow h

theorem descend_deepest (hr : r.WellFormed) : ∀ (words : List String) (id : CommandId),
    ∃ last rest, r.descend none id words = .ok (last, rest) ∧ r.Deepest id words last rest
  | [], id => ⟨id, [], rfl, .here (by simp)⟩
  | word :: words, id => by
    rcases hr.matchChild_cases (some id) word with ⟨hnone, hno⟩ | ⟨child, e, he, hp, hn, hone⟩
    · refine ⟨id, word :: words, by rw [descend, hnone], .here ?_⟩
      intro w ws hw
      obtain ⟨rfl, rfl⟩ := List.cons.inj hw
      exact hno
    · obtain ⟨last, rest, hd, hdeep⟩ := descend_deepest hr words child
      exact ⟨last, rest, by rw [descend, hone]; exact hd, hdeep.child hr he hp hn⟩

/-- **Any names of the commands on the way to a command lead to it.** -/
theorem Spelling.resolve (hr : r.WellFormed) (h : r.Spelling id words) : ∀ rest : List String,
    r.resolve none (words ++ rest) = r.descend none id rest := by
  induction h with
  | root he hp hn =>
    intro rest
    have hmatch := hr.matchChild_name he hn
    rw [hp] at hmatch
    rw [List.singleton_append, Registry.resolve, hmatch]
  | child he hp hn _ ih =>
    intro rest
    have hmatch := hr.matchChild_name he hn
    rw [hp] at hmatch
    rw [List.append_assoc, ih, List.singleton_append, descend, hmatch]

/-! ### The registry that a run leaves -/

/-- What can be relied on in a registry. -/
structure Consistent (r : Registry) : Prop where
  accepts : ∀ c, (∃ id r', r.register c = .ok (id, r')) ↔ r.Admits c
  refuses : ∀ c, ¬r.Admits c → r.after c = r
  tabled : r.Tabled
  found : ∀ id < r.size, r.find? (r.fullName id) = some id
  named : ∀ id < r.size, ∃ names, r.Path id names ∧
    r.fullName id = String.intercalate " " names
  /-- Every command is in one list of children, and once. -/
  listed : ∀ id < r.size, ∃ parent, (∀ p ∈ parent, p < r.size) ∧
    ∀ other, (r.childrenOf other).count id = if other = parent then 1 else 0
  resolved : ∀ id words, r.Spelling id words → ∀ further, ∃ last rest,
    r.resolve none (words ++ further) = .ok (last, rest) ∧ r.Deepest id further last rest

theorem count_childrenOf (he : r.entries[id]? = some e) (parent : Option CommandId) :
    (r.childrenOf parent).count id = if parent = e.parent then 1 else 0 := by
  by_cases hp : parent = e.parent
  · have hnodup : (r.childrenOf parent).Nodup := List.nodup_range.filter _
    rw [if_pos hp]
    exact List.count_eq_one_of_mem hnodup (mem_childrenOf.mpr ⟨e, he, hp.symm⟩)
  · rw [if_neg hp]
    refine List.count_eq_zero_of_not_mem fun hid => ?_
    obtain ⟨d, hd, hdp⟩ := mem_childrenOf.mp hid
    obtain rfl : e = d := Option.some.inj (he.symm.trans hd)
    exact hp hdp.symm

theorem Sound.consistent (hr : r.Sound) (ht : r.Tabled) : r.Consistent := by
  refine ⟨fun c => hr.register_iff, fun c hc => ?_, ht, fun id hid => ?_, fun id hid => ?_,
    fun id hid => ?_, fun id words hwords further => ?_⟩
  · exact after_of_refused (mt hr.register_iff.mp hc)
  · exact hr.find?_eq_some_iff.mpr ⟨hid, rfl⟩
  · obtain ⟨names, hpath⟩ := hr.exists_path id hid
    exact ⟨names, hpath, hr.fullName_path hpath⟩
  · have he : r.entries[id]? = some r.entries[id] := List.getElem?_eq_getElem hid
    exact ⟨_, fun p hp => Nat.lt_trans (hr.parents id _ he p hp) hid, count_childrenOf he⟩
  · obtain ⟨last, rest, hd, hdeep⟩ := descend_deepest hr.toWellFormed further id
    exact ⟨last, rest, (hwords.resolve hr.toWellFormed further).trans hd, hdeep⟩

/-- Every command is under the parent it asked for, and the tables are in step, after every run. -/
theorem sound_tabled_afterAll (calls : List Command) :
    (afterAll calls).Sound ∧ (afterAll calls).Tabled := by
  refine afterAll_induction (P := fun r => r.Sound ∧ r.Tabled) ⟨.empty, .empty⟩ ?_ calls
  rintro r c id r' ⟨hsound, htabled⟩ h
  exact ⟨hsound.register h, htabled.register hsound.toWellFormed h⟩

/-- **Every run of registrations leaves a registry that can be relied on.** -/
theorem consistent_afterAll (calls : List Command) : (afterAll calls).Consistent := by
  obtain ⟨hsound, htabled⟩ := sound_tabled_afterAll calls
  exact hsound.consistent htabled

end Registry
end CommandConsole
