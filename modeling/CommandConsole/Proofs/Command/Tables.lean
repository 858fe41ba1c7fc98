/-
# Looking commands up in tables

A registry could keep tables next to its commands: the roots, the children of
each command, and the command of each full name. A new command goes into all
three. What is found in the tables is then what is found by searching the
commands, since no full name is given out twice and a parent comes before its
children.

Key definitions: `Tables`, `Tables.insert`, `Registry.tables`.
Key theorem: `Registry.Tabled.register`.
-/
import CommandConsole.Proofs.Command.Acceptance

namespace CommandConsole

structure Tables where
  roots : List CommandId
  /-- The children of each command. -/
  children : List (List CommandId)
  /-- The command of each full name, the latest first. -/
  names : List (String × CommandId)

namespace Tables

def empty : Tables := ⟨[], [], []⟩

def childrenOf (t : Tables) : Option CommandId → List CommandId
  | none => t.roots
  | some p => t.children[p]?.getD []

def find? (t : Tables) (fullName : String) : Option CommandId := t.names.lookup fullName

/-- The tables with one more command, which has the id `id`. -/
def insert (t : Tables) (id : CommandId) (e : RegisteredCommand) : Tables :=
  { roots := if e.parent = none then t.roots ++ [id] else t.roots
    children := match e.parent with
      | none => t.children ++ [[]]
      | some p => (t.children ++ [[]]).modify p (· ++ [id])
    names := (e.fullName, id) :: t.names }

variable {t : Tables} {e : RegisteredCommand} {id : CommandId}

theorem length_children_insert : (t.insert id e).children.length = t.children.length + 1 := by
  unfold insert
  cases e.parent <;> simp

/-- A new command is added to the children of its parent, and to no others. -/
theorem childrenOf_insert (h : ∀ p ∈ e.parent, p < t.children.length) (parent : Option CommandId) :
    (t.insert id e).childrenOf parent =
      t.childrenOf parent ++ (if e.parent = parent then [id] else []) := by
  have hfresh : ∀ q, (t.children ++ [[]])[q]?.getD [] = t.childrenOf (some q) := by
    intro q
    rw [childrenOf, List.getElem?_append]
    by_cases hq : q < t.children.length
    · rw [if_pos hq]
    · rw [if_neg hq, List.getElem?_eq_none (Nat.not_lt.mp hq)]
      cases q - t.children.length <;> rfl
  cases parent with
  | none => cases hp : e.parent <;> simp [insert, childrenOf, hp]
  | some q =>
    cases hp : e.parent with
    | none => simpa [insert, childrenOf, hp] using hfresh q
    | some p =>
      have hlt : p < (t.children ++ [[]]).length := by
        rw [List.length_append]
        exact Nat.lt_add_right _ (h p hp)
      by_cases hpq : p = q
      · subst hpq
        rw [← hfresh p]
        simp [insert, childrenOf, hp, List.getElem?_eq_getElem hlt]
      · simpa [insert, childrenOf, hp, List.getElem?_modify, hpq] using hfresh q

theorem find?_insert (name : String) : (t.insert id e).find? name =
    if e.fullName = name then some id else t.find? name := by
  rw [find?, insert, List.lookup_cons]
  by_cases h : e.fullName = name
  · simp [h]
  · rw [if_neg h, beq_eq_false_iff_ne.mpr (Ne.symm h)]
    rfl

end Tables

namespace Registry

/-- The tables that every command has been put into, in order. -/
def tables (r : Registry) : Tables :=
  r.entries.zipIdx.foldl (fun t e => t.insert e.2 e.1) .empty

/-- The tables find what the search of a registry finds. -/
structure Tabled (r : Registry) : Prop where
  size : r.tables.children.length = r.size
  children : ∀ parent, r.tables.childrenOf parent = r.childrenOf parent
  names : ∀ name, r.tables.find? name = r.find? name

variable {r r' : Registry} {c : Command} {e : RegisteredCommand} {id : CommandId}

theorem tables_add : (r.add e).tables = r.tables.insert r.size e := by
  simp [tables, add, size, List.zipIdx_append]

theorem size_add : (r.add e).size = r.size + 1 := by
  simp [add, size]

theorem childrenOf_add (parent : Option CommandId) : (r.add e).childrenOf parent =
    r.childrenOf parent ++ (if e.parent = parent then [r.size] else []) := by
  have hnew : (r.add e).entries[r.size]? = some e := getElem?_add.mpr (.inr ⟨rfl, rfl⟩)
  have hold : ∀ i ∈ r.ids, (r.add e).entries[i]? = r.entries[i]? :=
    fun i hi => List.getElem?_append_left (List.mem_range.mp hi)
  have hids : (r.add e).ids = r.ids ++ [r.size] := by
    rw [ids, size_add, List.range_succ]
    rfl
  rw [childrenOf, hids, List.filter_append]
  congr 1
  · exact List.filter_congr fun i hi => by rw [hold i hi]
  · simp [List.filter_cons, hnew]

theorem find?_add_of_ne {name : String} (h : e.fullName ≠ name) :
    (r.add e).find? name = r.find? name := by
  simp [find?, add, List.findIdx?_append, h]

theorem Tabled.empty : Registry.empty.Tabled :=
  ⟨rfl, fun parent => by cases parent <;> rfl, fun _ => rfl⟩

/-- **Registering a command keeps the tables in step.** -/
theorem Tabled.register (ht : r.Tabled) (hr : r.WellFormed) (h : r.register c = .ok (id, r')) :
    r'.Tabled := by
  have hr' := hr.register h
  obtain ⟨parent, hparent, -, -, -, -, rfl⟩ := register_eq_ok h
  have hlt : ∀ p ∈ parent, p < r.tables.children.length := ht.size ▸ parentOf_lt hparent
  refine ⟨?_, fun other => ?_, fun name => ?_⟩
  · rw [tables_add, Tables.length_children_insert, ht.size, size_add]
  · rw [tables_add, Tables.childrenOf_insert hlt, childrenOf_add, ht.children]
  · rw [tables_add, Tables.find?_insert]
    split
    · rename_i hname
      have hlast : r.size < (r.add ⟨c, r.fullNameUnder parent c.name, parent⟩).size := by
        rw [size_add]
        exact Nat.lt_succ_self _
      exact (hr'.find?_eq_some_iff.mpr
        ⟨hlast, (fullName_eq (getElem?_add.mpr (.inr ⟨rfl, rfl⟩))).trans hname⟩).symm
    · rename_i hname
      rw [find?_add_of_ne hname, ht.names]

end Registry
end CommandConsole
