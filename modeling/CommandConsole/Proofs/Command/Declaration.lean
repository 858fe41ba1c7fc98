/-
# What an accepted declaration promises

The check of a declaration goes through the arguments in order and compares
each with those before it. If it finds no fault, no two arguments have an id or
a long name in common, and every long name is a word.

Key definition: `Argument.Tellable`.
Key theorem: `tellable_of_argumentFault?`.
-/
import CommandConsole.Command.Registration
import Mathlib.Data.List.Pairwise

namespace CommandConsole

/-- Arguments that can be told apart by their ids and by their long names, which are words. -/
structure Argument.Tellable (args : List Argument) : Prop where
  ids : args.Pairwise fun a b => a.id ≠ b.id
  names : args.Pairwise fun a b => ∀ n ∈ a.names, n ∉ b.names
  words : ∀ a ∈ args, ∀ n ∈ a.names, isWord n = true

/-- Long names have no fault if they are words, are unused, and differ. -/
theorem nameFault?_eq_none {command : String} : ∀ {used ns : List String},
    nameFault? command used ns = none ↔
      (∀ n ∈ ns, isWord n = true) ∧ (∀ n ∈ ns, n ∉ used) ∧ ns.Nodup
  | used, [] => by simp [nameFault?]
  | used, n :: ns => by
    unfold nameFault?
    by_cases hw : isWord n = true
    · by_cases hu : n ∈ used
      · simp [hw, hu]
      · rw [if_neg (by simp [hw]), if_neg (by simp [hu]), nameFault?_eq_none]
        rw [List.forall_mem_cons, List.forall_mem_cons, List.nodup_cons]
        constructor
        · rintro ⟨hws, hus, hd⟩
          exact ⟨⟨hw, hws⟩, ⟨hu, fun m hm => fun h => hus m hm (List.mem_cons_of_mem _ h)⟩,
            fun hn => hus n hn List.mem_cons_self, hd⟩
        · rintro ⟨⟨-, hws⟩, ⟨-, hus⟩, hn, hd⟩
          refine ⟨hws, fun m hm h => ?_, hd⟩
          rcases List.mem_cons.mp h with rfl | h
          · exact hn hm
          · exact hus m hm h
    · simp [hw]

/-- The check of some arguments, one after the other. -/
theorem argumentFaultFrom?_cons_eq_none {command : String} {earlier rest : List Argument}
    {a : Argument} :
    argumentFaultFrom? command earlier (a :: rest) = none ↔
      (∀ b ∈ earlier, b.id ≠ a.id) ∧
      nameFault? command (earlier.flatMap (·.names)) a.names = none ∧
      shortFault? command (earlier.filterMap (·.short)) a = none ∧
      multiFault? command rest.isEmpty a = none ∧
      argumentFaultFrom? command (earlier ++ [a]) rest = none := by
  rw [argumentFaultFrom?]
  by_cases hid : ∃ b ∈ earlier, b.id = a.id
  · rw [if_pos (by simpa using hid)]
    obtain ⟨b, hb, he⟩ := hid
    constructor
    · intro h
      cases h
    · rintro ⟨h, -⟩
      exact absurd he (h b hb)
  · rw [if_neg (by simpa using hid)]
    simp only [not_exists, not_and] at hid
    simp only [Option.or_eq_none_iff]
    exact ⟨fun h => ⟨hid, h⟩, fun h => h.2⟩

/-- Arguments without a fault differ from each other and from those before them. -/
theorem tellable_of_argumentFaultFrom? {command : String} : ∀ {earlier args : List Argument},
    argumentFaultFrom? command earlier args = none →
      (∀ a ∈ args, ∀ b ∈ earlier, b.id ≠ a.id ∧ ∀ n ∈ b.names, n ∉ a.names) ∧
        Argument.Tellable args
  | _, [], _ => ⟨by simp, .nil, .nil, by simp⟩
  | earlier, a :: rest, h => by
    obtain ⟨hid, hnames, -, -, hrest⟩ := argumentFaultFrom?_cons_eq_none.mp h
    obtain ⟨hwords, hused, -⟩ := nameFault?_eq_none.mp hnames
    obtain ⟨hbefore, hids, hapart, hws⟩ := tellable_of_argumentFaultFrom? hrest
    have ha : ∀ b ∈ rest, a.id ≠ b.id ∧ ∀ n ∈ a.names, n ∉ b.names :=
      fun b hb => hbefore b hb a (List.mem_append_right _ List.mem_cons_self)
    refine ⟨List.forall_mem_cons.mpr ⟨fun b hb => ⟨hid b hb, fun n hn hna => ?_⟩,
      fun c hc b hb => hbefore c hc b (List.mem_append_left _ hb)⟩, ?_, ?_, ?_⟩
    · exact hused n hna (List.mem_flatMap.mpr ⟨b, hb, hn⟩)
    · exact List.pairwise_cons.mpr ⟨fun b hb => (ha b hb).1, hids⟩
    · exact List.pairwise_cons.mpr ⟨fun b hb => (ha b hb).2, hapart⟩
    · exact List.forall_mem_cons.mpr ⟨hwords, hws⟩

/-- **The arguments of a declaration without a fault can be told apart.** -/
theorem tellable_of_argumentFault? {command : String} {args : List Argument}
    (h : argumentFault? command args = none) : Argument.Tellable args := by
  unfold argumentFault? at h
  split at h
  · cases h
  · exact (tellable_of_argumentFaultFrom? h).2

namespace Argument.Tellable

variable {args : List Argument} {a b : Argument}

/-- An id belongs to one argument. -/
theorem eq_of_id (h : Tellable args) (ha : a ∈ args) (hb : b ∈ args) (hid : a.id = b.id) :
    a = b := by
  have hsymm : Std.Symm fun a b : Argument => a.id ≠ b.id := ⟨fun _ _ hne => hne.symm⟩
  by_cases hab : a = b
  · exact hab
  · exact absurd hid (h.ids.forall ha hb hab)

/-- A long name belongs to one argument. -/
theorem eq_of_name (h : Tellable args) (ha : a ∈ args) (hb : b ∈ args) {n : String}
    (hna : n ∈ a.names) (hnb : n ∈ b.names) : a = b := by
  have hsymm : Std.Symm fun a b : Argument => ∀ m ∈ a.names, m ∉ b.names :=
    ⟨fun _ _ hne m hm hm' => hne m hm' hm⟩
  by_cases hab : a = b
  · exact hab
  · exact absurd hnb (h.names.forall ha hb hab n hna)

end Argument.Tellable
end CommandConsole
