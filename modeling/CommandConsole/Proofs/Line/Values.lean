/-
# The values of bound arguments

An argument that a line gives something for gets its value by position, by name,
from a bundle of flags, or item by item from a run that stops and goes on. In
each case the value is what the declared type makes of the input that is kept.

Key definition: `Argument.Converts`.
Key theorem: `CommandParser.parse_converts`.
-/
import CommandConsole.Console.Demo
import CommandConsole.Proofs.Line.Bound

namespace CommandConsole
namespace Argument

/-- The value is what the type of the argument makes of the input. A run is converted item by
item, and a switch that is given alone is true. -/
def Converts (a : Argument) (input : Literal) (value : Value) : Prop :=
  match a.multiplicity with
  | .single =>
    a.type.convert input = .ok value ∨
      a.isSwitch = true ∧ input.isEmpty = true ∧ value = .bool true
  | .multiple => a.type.convert input = .ok value
  | .vararg =>
    ∃ items span values, input = .list items span ∧ value = .list values ∧
      items.length = values.length ∧
      ∀ (i : Nat) (hi : i < items.length) (hv : i < values.length),
        a.type.convert items[i] = .ok values[i]

variable {a : Argument} {input : Literal} {value : Value}

theorem Holds.converts (h : a.Holds input value) : a.Converts input value := by
  unfold Holds at h
  unfold Converts
  cases hm : a.multiplicity with
  | single =>
    rw [hm] at h
    exact .inl h
  | multiple =>
    rw [hm] at h
    exact h
  | vararg =>
    rw [hm] at h
    obtain ⟨items, span, values, hi, hv, hall⟩ := h
    obtain ⟨hlen, hget⟩ := List.forall₂_iff_get.mp hall
    exact ⟨items, span, values, hi, hv, hlen, hget⟩

/-- A switch takes one value at most. -/
theorem converts_switch (hs : a.isSwitch = true) (he : input.isEmpty = true) :
    a.Converts input (.bool true) := by
  have hm : a.multiplicity = .single := by
    simp only [isSwitch, Bool.and_eq_true, beq_iff_eq] at hs
    exact hs.2
  unfold Converts
  rw [hm]
  exact .inr ⟨hs, he, rfl⟩

theorem Settled.converts {b : BoundArgument} (h : a.Settled b) : a.Converts b.input b.value := by
  cases h with
  | switch hs he => exact converts_switch hs he
  | literal _ hholds => exact hholds.converts

end Argument

/-- **The value of a bound argument is the conversion of its input.** An argument that is bound
and has not its default was declared, and its value is what its declared type makes of its input. -/
theorem CommandParser.parse_converts {p : CommandParser} {commands : List Command}
    (hregistry : Registry.empty.registerAll commands = .ok p.registry) {context : ParseContext}
    {text : String} {cmds : List BoundCommand} (h : p.parse context text = .ok cmds)
    {c : BoundCommand} (hc : c ∈ cmds) {declared : Command}
    (hget : p.registry.get? c.id = some declared) {args : List Argument}
    (hargs : declared.arguments = .static args) {b : BoundArgument} (hb : b ∈ c.arguments)
    (horigin : b.origin ≠ .default) :
    (∃ a ∈ args, a.id = b.id) ∧ ∀ a ∈ args, a.id = b.id → a.Converts b.input b.value := by
  obtain ⟨-, ⟨s, hC⟩, -⟩ := p.mem_parse h hc hget hargs
  have hgiven : b ∈ s.bound := by
    rw [← hC.filter_bound]
    exact List.mem_filter.mpr ⟨hb, by simpa using horigin⟩
  obtain ⟨-, a, ha, hsettled⟩ := hC.given b hgiven
  -- no other argument has the id of the one that was given
  obtain ⟨e, he, rfl⟩ := Option.map_eq_some_iff.mp hget
  have hfault := (Registry.WellFormed.empty.registerAll hregistry).arguments c.id e he
  rw [hargs] at hfault
  have htell : Argument.Tellable args := tellable_of_argumentFault? hfault
  refine ⟨⟨a, ha, hsettled.id_eq.symm⟩, fun d hd hid => ?_⟩
  obtain rfl : d = a := htell.eq_of_id hd ha (hid.trans hsettled.id_eq)
  exact hsettled.converts

/-- A command with a run, and with flags that may stand in it. -/
def Demo.copy : Command :=
  Demo.command "cp" "Copy files"
    [.flag "verbose" 'v', .flag "force" 'f', Demo.vararg "files" .string]

/-- A run that stops at a flag and at a name, and goes on behind each. -/
theorem CommandParser.parse_converts_cp : ∃ (p : CommandParser) (cmds : List BoundCommand)
    (c : BoundCommand) (b : BoundArgument),
    p.parse .empty "cp a b -v c --force d" = .ok cmds ∧ c ∈ cmds ∧ b ∈ c.arguments ∧
    b.value.display = "[a, b, c, d]" ∧
    (Demo.vararg "files" .string).Converts b.input b.value := by
  let p : CommandParser := ⟨(Registry.empty.registerAll [Demo.copy]).toOption.getD .empty, default⟩
  have hregistry : Registry.empty.registerAll [Demo.copy] = .ok p.registry :=
    Registry.registerAll_toOption (by decide +kernel)
  have hget : p.registry.get? 0 = some Demo.copy := Registry.get?_registerAll hregistry 0
  have hl : ((p.parse .empty "cp a b -v c --force d").toOption.bind (·[0]?)).map (fun c =>
      c.arguments[0]?.map fun b => (c.id, b.id, b.value.display, b.origin)) =
        some (some (0, "files", "[a, b, c, d]", .positional)) := by
    decide +kernel
  obtain ⟨cmds, c, hp, hcmem, hfirst⟩ := Except.exists_getElem hl
  obtain ⟨b, hb, hdata⟩ := Option.map_eq_some_iff.mp hfirst
  have hbmem : b ∈ c.arguments := List.mem_of_getElem? hb
  obtain ⟨hid, hbid, hdisplay, horigin⟩ : c.id = 0 ∧ b.id = "files" ∧
      b.value.display = "[a, b, c, d]" ∧ b.origin = .positional := by simpa using hdata
  obtain ⟨-, hconverts⟩ := parse_converts hregistry hp hcmem (hid ▸ hget) rfl hbmem
    (by simp [horigin])
  refine ⟨p, cmds, c, b, hp, hcmem, hbmem, hdisplay, hconverts _ ?_ hbid.symm⟩
  simp

end CommandConsole
