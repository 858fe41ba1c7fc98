/-
# Registering does not look at requirements

A declaration is accepted or refused whatever it requires. So the registry of
some declarations without their requirements is the registry of the
declarations, without the requirements, and everything is found in it where it
was found before.

Key definitions: `Command.ungated`, `Registry.ungated`.
Key theorems: `Registry.register_ungated`, `Registry.afterAll_ungated`.
-/
import CommandConsole.Proofs.Binding.Ungated
import CommandConsole.Proofs.Command.History

namespace CommandConsole

/-! ### Declarations -/

/-- The command without what it and its arguments require. -/
def Command.ungated (c : Command) : Command :=
  { c with arguments := c.arguments.ungated, requirements := [], requiredInformation := [] }

namespace Command

variable (c : Command)

@[simp] theorem ungated_arguments : c.ungated.arguments = c.arguments.ungated := rfl

@[simp] theorem ungated_declaredNames : c.ungated.declaredNames = c.declaredNames := rfl

theorem ungated_ungated : c.ungated.ungated = c.ungated := by
  simp only [ungated, ArgumentSource.ungated_ungated]

end Command

theorem argumentFaultFrom?_ungated (command : String) : ∀ earlier args : List Argument,
    argumentFaultFrom? command (earlier.map Argument.ungated) (args.map Argument.ungated) =
      argumentFaultFrom? command earlier args
  | _, [] => rfl
  | earlier, a :: rest => by
    have hrest := argumentFaultFrom?_ungated command (earlier ++ [a]) rest
    rw [List.map_append, List.map_singleton] at hrest
    rw [List.map_cons, argumentFaultFrom?, argumentFaultFrom?, hrest, List.any_map,
      List.flatMap_map, List.filterMap_map, List.isEmpty_map]
    rfl

theorem argumentFault?_ungated (command : String) (args : List Argument) :
    argumentFault? command (args.map Argument.ungated) = argumentFault? command args := by
  have hfrom := argumentFaultFrom?_ungated command [] args
  rw [List.map_nil] at hfrom
  rw [argumentFault?, argumentFault?, hfrom, List.filter_map, List.length_map]
  rfl

/-! ### Registries -/

def RegisteredCommand.ungated (e : RegisteredCommand) : RegisteredCommand :=
  { e with command := e.command.ungated }

namespace Registry

/-- The registry without what its commands require. -/
def ungated (r : Registry) : Registry := ⟨r.entries.map RegisteredCommand.ungated⟩

variable (r : Registry)

theorem getElem?_ungated (id : CommandId) :
    r.ungated.entries[id]? = r.entries[id]?.map RegisteredCommand.ungated :=
  List.getElem?_map ..

@[simp] theorem size_ungated : r.ungated.size = r.size := List.length_map ..

@[simp] theorem get?_ungated (id : CommandId) :
    r.ungated.get? id = (r.get? id).map Command.ungated := by
  rw [get?, get?, getElem?_ungated]
  cases r.entries[id]? <;> rfl

@[simp] theorem fullName_ungated (id : CommandId) : r.ungated.fullName id = r.fullName id := by
  rw [fullName, fullName, getElem?_ungated]
  cases r.entries[id]? <;> rfl

@[simp] theorem find?_ungated (name : String) : r.ungated.find? name = r.find? name :=
  List.findIdx?_map ..

@[simp] theorem childrenOf_ungated (parent : Option CommandId) :
    r.ungated.childrenOf parent = r.childrenOf parent := by
  rw [childrenOf, childrenOf, ids, ids, size_ungated]
  refine List.filter_congr fun id _ => ?_
  rw [getElem?_ungated, Option.any_map]
  rfl

@[simp] theorem namesOf_ungated (l : Option Localizer) (id : CommandId) :
    r.ungated.namesOf l id = r.namesOf l id := by
  rw [namesOf, namesOf, getElem?_ungated]
  cases r.entries[id]? <;> rfl

@[simp] theorem argumentNames_ungated (l : Option Localizer) (id : CommandId) (a : Argument) :
    r.ungated.argumentNames l id a = r.argumentNames l id a := by
  rw [argumentNames, argumentNames, fullName_ungated]

@[simp] theorem matchChild_ungated (l : Option Localizer) (parent : Option CommandId)
    (token : String) : r.ungated.matchChild l parent token = r.matchChild l parent token := by
  simp [matchChild, matching]

theorem ungated_ungated : r.ungated.ungated = r.ungated := by
  simp [ungated, RegisteredCommand.ungated, Command.ungated_ungated, Function.comp_def]

/-! ### Registration -/

theorem parentOf_ungated (c : Command) : r.ungated.parentOf c.ungated = r.parentOf c := by
  unfold parentOf
  simp only [find?_ungated]
  rfl

theorem fullNameUnder_ungated (parent : Option CommandId) (name : String) :
    r.ungated.fullNameUnder parent name = r.fullNameUnder parent name := by
  cases parent with
  | none => rfl
  | some p => rw [fullNameUnder, fullNameUnder, fullName_ungated]

theorem clash?_ungated (parent : Option CommandId) (c : Command) :
    r.ungated.clash? parent c.ungated = r.clash? parent c := by
  rw [clash?, clash?, childrenOf_ungated]
  congr 1
  funext sibling
  rw [get?_ungated]
  cases r.get? sibling <;> rfl

/-- **A command is registered alike**, with or without what it requires. -/
theorem register_ungated (c : Command) : r.ungated.register c.ungated =
    (r.register c).map fun added => (added.1, added.2.ungated) := by
  have hname : c.ungated.name = c.name := rfl
  unfold register
  simp only [Command.ungated_declaredNames, parentOf_ungated, clash?_ungated, hname,
    fullNameUnder_ungated, Command.ungated_arguments, ArgumentSource.all_ungated,
    argumentFault?_ungated, size_ungated]
  cases c.declaredNames.find? fun n => !isWord n with
  | some n => rfl
  | none =>
    dsimp only
    cases r.parentOf c with
    | error f => rfl
    | ok parent =>
      dsimp only
      cases r.clash? parent c with
      | some n => rfl
      | none =>
        dsimp only
        cases argumentFault? (r.fullNameUnder parent c.name) c.arguments.all with
        | some f => rfl
        | none => simp [ungated, RegisteredCommand.ungated, Except.map]

theorem after_ungated (c : Command) : r.ungated.after c.ungated = (r.after c).ungated := by
  rw [after, after, register_ungated]
  cases r.register c <;> rfl

/-- **Any run of registrations leaves the same registry**, without what its commands require. -/
theorem afterAll_ungated (calls : List Command) :
    afterAll (calls.map Command.ungated) = (afterAll calls).ungated := by
  have hfold : ∀ r : Registry, calls.foldl (fun r c => r.after c.ungated) r.ungated =
      (calls.foldl after r).ungated := by
    induction calls with
    | nil => exact fun r => rfl
    | cons c calls ih =>
      intro r
      rw [List.foldl_cons, List.foldl_cons, after_ungated, ih]
  rw [afterAll, List.foldl_map]
  exact hfold .empty

end Registry
end CommandConsole
