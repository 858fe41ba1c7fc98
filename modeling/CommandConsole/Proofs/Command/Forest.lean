/-
# The forest of commands

Whatever is registered, in whatever order: names are words, a command comes
after the one it belongs to and carries its full name in front of its own, and
siblings have no name in common. So a name on the way from the root to a
command means exactly the next command on that way.

Key definitions: `Registry.WellFormed`, `Registry.Path`.
Key theorems: `Registry.WellFormed.register`, `Registry.WellFormed.registerAll`,
`Registry.WellFormed.matchChild_name`, `Registry.WellFormed.exists_path`.
-/
import CommandConsole.Command.Registry
import CommandConsole.Proofs.Command.Declaration

namespace CommandConsole
namespace Registry

/-- The registry with one more command. -/
def add (r : Registry) (e : RegisteredCommand) : Registry := ⟨r.entries ++ [e]⟩

variable {r r' : Registry} {e d : RegisteredCommand} {id : CommandId} {c : Command}

theorem getElem?_add : (r.add e).entries[id]? = some d ↔
    r.entries[id]? = some d ∨ (id = r.size ∧ d = e) := by
  rw [add, size]
  rcases Nat.lt_trichotomy id r.entries.length with hlt | rfl | hgt
  · rw [List.getElem?_append_left hlt]
    exact ⟨.inl, fun h => h.resolve_right fun h => Nat.ne_of_lt hlt h.1⟩
  · rw [List.getElem?_concat_length, List.getElem?_eq_none (Nat.le_refl _)]
    simp [eq_comm]
  · rw [List.getElem?_eq_none (by simp; omega), List.getElem?_eq_none (Nat.le_of_lt hgt)]
    simp only [reduceCtorEq, false_or, false_iff]
    exact fun h => Nat.ne_of_gt hgt h.1

theorem lt_size (h : r.entries[id]? = some e) : id < r.size :=
  (List.getElem?_eq_some_iff.mp h).1

theorem fullName_eq (h : r.entries[id]? = some e) : r.fullName id = e.fullName := by
  simp [fullName, h]

theorem fullName_add (h : id < r.size) : (r.add e).fullName id = r.fullName id := by
  have he : r.entries[id]? = some r.entries[id] := List.getElem?_eq_getElem h
  rw [fullName_eq he, fullName_eq (getElem?_add.mpr (.inl he))]

theorem fullNameUnder_add {parent : Option CommandId} (h : ∀ p ∈ parent, p < r.size)
    (name : String) : (r.add e).fullNameUnder parent name = r.fullNameUnder parent name := by
  cases parent with
  | none => rfl
  | some p => rw [fullNameUnder, fullNameUnder, fullName_add (h p rfl)]

theorem mem_childrenOf {parent : Option CommandId} :
    id ∈ r.childrenOf parent ↔ ∃ e, r.entries[id]? = some e ∧ e.parent = parent := by
  simp only [childrenOf, ids, List.mem_filter, List.mem_range, Option.any_eq_true, beq_iff_eq]
  constructor
  · rintro ⟨-, e, he, hp⟩
    exact ⟨e, he, hp⟩
  · rintro ⟨e, he, hp⟩
    exact ⟨lt_size he, e, he, hp⟩

/-- Every command of the registry keeps to the rules that declarations are checked by. -/
structure WellFormed (r : Registry) : Prop where
  names : ∀ (id : CommandId) (e : RegisteredCommand), r.entries[id]? = some e →
    ∀ n ∈ e.command.declaredNames, isWord n = true
  parents : ∀ (id : CommandId) (e : RegisteredCommand), r.entries[id]? = some e →
    ∀ p ∈ e.parent, p < id
  fullNames : ∀ (id : CommandId) (e : RegisteredCommand), r.entries[id]? = some e →
    e.fullName = r.fullNameUnder e.parent e.command.name
  siblings : ∀ (i j : CommandId) (d e : RegisteredCommand), r.entries[i]? = some d →
    r.entries[j]? = some e → d.parent = e.parent → i ≠ j →
      ∀ n ∈ d.command.declaredNames, n ∉ e.command.declaredNames
  arguments : ∀ (id : CommandId) (e : RegisteredCommand), r.entries[id]? = some e →
    argumentFault? e.fullName e.command.arguments.all = none

/-! ### Registration -/

theorem parentOf_lt {parent : Option CommandId} (h : r.parentOf c = .ok parent) :
    ∀ p ∈ parent, p < r.size := by
  unfold parentOf at h
  split at h
  · cases h
    simp
  · split at h
    · rename_i id hid
      cases h
      intro p hp
      obtain rfl : id = p := Option.some.inj hp
      exact (List.findIdx?_eq_some_iff_getElem.mp hid).1
    · cases h

theorem not_mem_of_clash?_eq_none {parent : Option CommandId} (h : r.clash? parent c = none)
    (he : r.entries[id]? = some e) (hp : e.parent = parent) :
    ∀ n ∈ c.declaredNames, n ∉ e.command.declaredNames := by
  have hid := List.findSome?_eq_none_iff.mp h id (mem_childrenOf.mpr ⟨e, he, hp⟩)
  have hget : r.get? id = some e.command := by rw [get?, he, Option.map_some]
  rw [hget, Option.bind_some, List.find?_eq_none] at hid
  intro n hn hne
  exact hid n hn (by simpa using hne)

/-- A registered command is added at the end, under its parent, if it has no fault. -/
theorem register_eq_ok (h : r.register c = .ok (id, r')) :
    ∃ parent, r.parentOf c = .ok parent ∧ r.clash? parent c = none ∧
      (∀ n ∈ c.declaredNames, isWord n = true) ∧
      argumentFault? (r.fullNameUnder parent c.name) c.arguments.all = none ∧
      id = r.size ∧ r' = r.add ⟨c, r.fullNameUnder parent c.name, parent⟩ := by
  unfold register at h
  split at h
  · cases h
  · rename_i hwords
    split at h
    · cases h
    · rename_i parent hparent
      dsimp only at h
      split at h
      · cases h
      · rename_i hclash
        split at h
        · cases h
        · rename_i hfault
          cases h
          exact ⟨parent, hparent, hclash, by simpa using hwords, hfault, rfl, rfl⟩

theorem WellFormed.empty : empty.WellFormed := by
  constructor <;> simp [Registry.empty]

/-- **Registering a command keeps the registry well-formed.** -/
theorem WellFormed.register (hr : r.WellFormed) (h : r.register c = .ok (id, r')) :
    r'.WellFormed := by
  obtain ⟨parent, hparent, hclash, hwords, hfault, -, rfl⟩ := register_eq_ok h
  have hlt := parentOf_lt hparent
  refine ⟨?_, ?_, ?_, ?_, ?_⟩
  · intro i d hd
    rcases getElem?_add.mp hd with hd | ⟨-, rfl⟩
    · exact hr.names i d hd
    · exact hwords
  · intro i d hd
    rcases getElem?_add.mp hd with hd | ⟨rfl, rfl⟩
    · exact hr.parents i d hd
    · exact hlt
  · intro i d hd
    rcases getElem?_add.mp hd with hd | ⟨-, rfl⟩
    · have hi := lt_size hd
      rw [fullNameUnder_add fun p hp => Nat.lt_trans (hr.parents i d hd p hp) hi]
      exact hr.fullNames i d hd
    · rw [fullNameUnder_add hlt]
  · intro i j d e hd he hp hne
    rcases getElem?_add.mp hd with hd | ⟨rfl, rfl⟩
    · rcases getElem?_add.mp he with he | ⟨-, rfl⟩
      · exact hr.siblings i j d e hd he hp hne
      · exact fun n hn hc => not_mem_of_clash?_eq_none hclash hd hp n hc hn
    · rcases getElem?_add.mp he with he | ⟨rfl, -⟩
      · exact not_mem_of_clash?_eq_none hclash he hp.symm
      · exact absurd rfl hne
  · intro i d hd
    rcases getElem?_add.mp hd with hd | ⟨-, rfl⟩
    · exact hr.arguments i d hd
    · exact hfault

/-- **Every registry that declarations make up is well-formed.** -/
theorem WellFormed.registerAll : ∀ {cs : List Command} {r r' : Registry}, r.WellFormed →
    r.registerAll cs = .ok r' → r'.WellFormed
  | [], _, _, hr, h => by
    cases h
    exact hr
  | c :: cs, r, r', hr, h => by
    unfold Registry.registerAll at h
    split at h
    · cases h
    · rename_i hc
      exact (hr.register hc).registerAll h

/-- The commands of a registry are those that were registered, in order. -/
theorem commands_registerAll : ∀ {cs : List Command} {r r' : Registry},
    r.registerAll cs = .ok r' →
      r'.entries.map (·.command) = r.entries.map (·.command) ++ cs
  | [], _, _, h => by
    cases h
    simp
  | c :: cs, r, r', h => by
    unfold Registry.registerAll at h
    split at h
    · cases h
    · rename_i hc
      obtain ⟨parent, -, -, -, -, -, rfl⟩ := register_eq_ok hc
      rw [commands_registerAll h, add, List.map_append, List.append_assoc]
      rfl

theorem get?_registerAll {cs : List Command} (h : empty.registerAll cs = .ok r) (id : CommandId) :
    r.get? id = cs[id]? := by
  have hcommands := commands_registerAll h
  rw [get?, ← List.getElem?_map, hcommands]
  rfl

/-- The registry of declarations that are accepted. -/
theorem registerAll_toOption {cs : List Command} (h : (empty.registerAll cs).toBool = true) :
    empty.registerAll cs = .ok ((empty.registerAll cs).toOption.getD .empty) := by
  cases hr : empty.registerAll cs with
  | error f => rw [hr] at h; cases h
  | ok r => rfl

/-! ### Names -/

/-- The names on the way from a root to a command. -/
inductive Path (r : Registry) : CommandId → List String → Prop
  | root {id : CommandId} {e : RegisteredCommand} (he : r.entries[id]? = some e)
      (hp : e.parent = none) : Path r id [e.command.name]
  | child {id p : CommandId} {e : RegisteredCommand} {names : List String}
      (he : r.entries[id]? = some e) (hp : e.parent = some p) (h : Path r p names) :
      Path r id (names ++ [e.command.name])

theorem Path.ne_nil {names : List String} (h : r.Path id names) : names ≠ [] := by
  cases h <;> simp

/-- A list with one element, which is in it once. -/
theorem eq_singleton_of_nodup {α : Type} {l : List α} {x : α} (hd : l.Nodup) (hx : x ∈ l)
    (h : ∀ y ∈ l, y = x) : l = [x] := by
  match l, hd, hx, h with
  | [y], _, _, h => rw [h y List.mem_cons_self]
  | y :: z :: l, hd, _, h =>
    have hyz : y = z := (h y (by simp)).trans (h z (by simp)).symm
    simp [hyz] at hd

namespace WellFormed

/-- **A name of a command, looked up where it belongs, means that command.** -/
theorem matchChild_name (hr : r.WellFormed) (he : r.entries[id]? = some e) {n : String}
    (hn : n ∈ e.command.declaredNames) : r.matchChild none e.parent n = .one id := by
  have hnames : ∀ i d, r.entries[i]? = some d → r.namesOf none i = d.command.declaredNames := by
    intro i d hd
    simp [namesOf, hd, Localizer.namesFor]
  have hmatch : r.matching none e.parent n = [id] := by
    refine eq_singleton_of_nodup ?_ ?_ ?_
    · exact (List.nodup_range.filter _).filter _
    · refine List.mem_filter.mpr ⟨mem_childrenOf.mpr ⟨e, he, rfl⟩, ?_⟩
      rw [hnames id e he]
      simpa using hn
    · intro i hi
      obtain ⟨hchild, hin⟩ := List.mem_filter.mp hi
      obtain ⟨d, hd, hp⟩ := mem_childrenOf.mp hchild
      rw [hnames i d hd] at hin
      by_cases hne : i = id
      · exact hne
      · exact absurd hn (hr.siblings i id d e hd he hp hne n (by simpa using hin))
  rw [matchChild, hmatch]

/-- If names are not localized, a token means the child that has it as a name, if there is one. -/
theorem matchChild_cases (hr : r.WellFormed) (parent : Option CommandId) (token : String) :
    (r.matchChild none parent token = .none ∧
      ∀ (id : CommandId) (e : RegisteredCommand), r.entries[id]? = some e → e.parent = parent →
        token ∉ e.command.declaredNames) ∨
    ∃ (id : CommandId) (e : RegisteredCommand), r.entries[id]? = some e ∧ e.parent = parent ∧
      token ∈ e.command.declaredNames ∧ r.matchChild none parent token = .one id := by
  by_cases h : ∃ (id : CommandId) (e : RegisteredCommand), r.entries[id]? = some e ∧
      e.parent = parent ∧ token ∈ e.command.declaredNames
  · obtain ⟨id, e, he, rfl, hname⟩ := h
    exact .inr ⟨id, e, he, rfl, hname, hr.matchChild_name he hname⟩
  · have hnone : ∀ (id : CommandId) (e : RegisteredCommand), r.entries[id]? = some e →
        e.parent = parent → token ∉ e.command.declaredNames :=
      fun id e he hp hname => h ⟨id, e, he, hp, hname⟩
    have hmatch : r.matching none parent token = [] := by
      refine List.filter_eq_nil_iff.mpr fun id hid => ?_
      obtain ⟨e, he, hp⟩ := mem_childrenOf.mp hid
      simpa [namesOf, he, Localizer.namesFor] using hnone id e he hp
    exact .inl ⟨by rw [matchChild, hmatch], hnone⟩

/-- The full name of a command is the names on the way to it. -/
theorem fullName_path (hr : r.WellFormed) {names : List String} (h : r.Path id names) :
    r.fullName id = String.intercalate " " names := by
  induction h with
  | root he hp =>
    rw [fullName_eq he, hr.fullNames _ _ he, hp, fullNameUnder, String.intercalate_singleton]
  | child he hp h ih =>
    rw [fullName_eq he, hr.fullNames _ _ he, hp, fullNameUnder, ih,
      String.intercalate_append_of_ne_nil h.ne_nil (List.cons_ne_nil _ _),
      String.intercalate_singleton]

/-- The arguments of a command can be told apart. -/
theorem tellable (hr : r.WellFormed) (hget : r.get? id = some c) :
    Argument.Tellable c.arguments.all := by
  obtain ⟨e, he, rfl⟩ := Option.map_eq_some_iff.mp hget
  exact tellable_of_argumentFault? (hr.arguments id e he)

/-- There is a way from a root to every command. -/
theorem exists_path (hr : r.WellFormed) (id : CommandId) : id < r.size →
    ∃ names, r.Path id names := by
  induction id using Nat.strongRecOn with
  | ind id ih =>
    intro hid
    have he : r.entries[id]? = some r.entries[id] := List.getElem?_eq_getElem hid
    cases hp : r.entries[id].parent with
    | none => exact ⟨_, .root he hp⟩
    | some p =>
      have hlt := hr.parents id _ he p hp
      obtain ⟨names, hpath⟩ := ih p hlt (Nat.lt_trans hlt hid)
      exact ⟨_, .child he hp hpath⟩

end WellFormed
end Registry
end CommandConsole
