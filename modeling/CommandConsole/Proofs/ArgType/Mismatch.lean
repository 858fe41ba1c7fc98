/-
# Where a literal does not fit

A literal that a type refuses is refused because of one of its nodes: the
literal itself, or a part of it that the conversion has come to. The mismatch
points at this node.

Key theorem: `ArgType.convert_error_span`.
-/
import CommandConsole.Binding.Run
import CommandConsole.Proofs.ArgType.Conversion
import CommandConsole.Proofs.Literal.WellFormed

namespace CommandConsole

open Literal

namespace TypeMismatch

/-- The mismatch points at a node of one of the literals. -/
def PointsInto (m : TypeMismatch) (vs : List Literal) : Prop :=
  ∃ v ∈ vs, ∃ n, v.Contains n ∧ m.span = n.span

namespace PointsInto

variable {m : TypeMismatch} {v : Literal} {vs ws : List Literal}

theorem here (t : ArgType) (v : Literal) (reason : Option String) :
    (TypeMismatch.here t v reason).PointsInto [v] :=
  ⟨v, List.mem_singleton_self v, v, .self v, rfl⟩

theorem under (h : m.PointsInto vs) (segment : PathSegment) : (m.under segment).PointsInto vs := h

theorem mono (h : m.PointsInto vs) (hvs : ∀ v ∈ vs, v ∈ ws) : m.PointsInto ws := by
  obtain ⟨v, hv, hn⟩ := h
  exact ⟨v, hvs v hv, hn⟩

theorem head (h : m.PointsInto [v]) : m.PointsInto (v :: vs) :=
  h.mono fun _ hv => List.mem_singleton.mp hv ▸ List.mem_cons_self

theorem tail (h : m.PointsInto vs) : m.PointsInto (v :: vs) :=
  h.mono fun _ hv => List.mem_cons_of_mem _ hv

/-- What points into a part points into the whole. -/
theorem of_parts (h : m.PointsInto v.parts) : m.PointsInto [v] := by
  obtain ⟨p, hp, n, hn, hspan⟩ := h
  exact ⟨v, List.mem_singleton_self v, n, .part hp hn, hspan⟩

end PointsInto
end TypeMismatch

namespace ArgType

theorem refused_pointsInto {t : ArgType} {v : Literal} {m : TypeMismatch}
    (hk : t.kind.accepts v.kind = false) (h : t.convert v = .error m) : m.PointsInto [v] := by
  rw [convert_refused hk] at h
  cases h
  exact .here ..

theorem custom_pointsInto {c : CustomType} {v : Literal} {m : TypeMismatch}
    (h : convert (.custom c) v = .error m) : m.PointsInto [v] := by
  cases hk : c.kind.accepts v.kind with
  | false => exact refused_pointsInto (t := .custom c) hk h
  | true =>
    rw [convert_custom c hk] at h
    cases hc : c.convert v with
    | ok w =>
      rw [hc] at h
      cases h
    | error reason =>
      rw [hc] at h
      cases h
      exact .here ..

theorem convert_any_ne_error (v : Literal) (m : TypeMismatch) : convert .any v ≠ .error m := by
  rw [convert_any]
  exact fun h => by cases h

theorem scalar_pointsInto {t : ArgType} {text : String} {span : Span} {m : TypeMismatch}
    (hk : t.kind = .single) (hc : ∀ c, t ≠ .custom c)
    (h : t.convert (.scalar text span) = .error m) : m.PointsInto [.scalar text span] := by
  rw [convert_scalar hk hc] at h
  cases ht : t.convertText text with
  | ok w =>
    rw [ht] at h
    cases h
  | error reason =>
    rw [ht] at h
    cases h
    exact .here ..

mutual

/-- **A mismatch points at a node of the literal that is refused.** -/
theorem convert_pointsInto : ∀ (v : Literal) {t : ArgType} {m : TypeMismatch},
    t.convert v = .error m → m.PointsInto [v]
  | .empty span, t, m, h => by
    cases t with
    | any => exact absurd h (convert_any_ne_error _ _)
    | custom => exact custom_pointsInto h
    | _ => exact refused_pointsInto rfl h
  | .scalar text span, t, m, h => by
    cases t with
    | any => exact absurd h (convert_any_ne_error _ _)
    | custom => exact custom_pointsInto h
    | list | exactList | map | record => exact refused_pointsInto rfl h
    | _ => exact scalar_pointsInto rfl (fun _ hc => by cases hc) h
  | .list items span, t, m, h => by
    cases t with
    | any => exact absurd h (convert_any_ne_error _ _)
    | custom => exact custom_pointsInto h
    | list element =>
      rw [convert_list] at h
      exact .of_parts (convertItems_pointsInto items (error_of_map_eq_error h))
    | exactList elements =>
      rw [convert_exactList] at h
      split at h
      · exact .of_parts (convertPlaces_pointsInto items (error_of_map_eq_error h))
      · cases h
        exact .here ..
    | _ => exact refused_pointsInto rfl h
  | .map entries span, t, m, h => by
    cases t with
    | any => exact absurd h (convert_any_ne_error _ _)
    | custom => exact custom_pointsInto h
    | map key value =>
      rw [convert_map] at h
      exact .of_parts (convertEntries_pointsInto entries (error_of_map_eq_error h))
    | record fields =>
      rw [convert_record] at h
      split at h
      · rename_i hf
        cases h
        exact .of_parts (convertFields_pointsInto entries hf)
      · split at h
        · cases h
          exact .under (.here ..) _
        · cases h
    | _ => exact refused_pointsInto rfl h

theorem convertItems_pointsInto : ∀ (items : List Literal) {element : ArgType} {i : Nat}
    {m : TypeMismatch}, convertItems element i items = .error m → m.PointsInto items
  | [], _, _, _, h => by cases h
  | item :: items, element, i, m, h => by
    rw [convertItems] at h
    cases hi : element.convert item with
    | error n =>
      rw [hi] at h
      cases h
      exact .under (.head (convert_pointsInto item hi)) _
    | ok v =>
      rw [hi] at h
      exact .tail (convertItems_pointsInto items (error_of_map_eq_error h))

theorem convertPlaces_pointsInto : ∀ (items : List Literal) {elements : List ArgType} {i : Nat}
    {m : TypeMismatch}, convertPlaces elements i items = .error m → m.PointsInto items
  | [], _, _, _, h => by cases h
  | item :: items, elements, i, m, h => by
    rw [convertPlaces] at h
    cases hi : (elements.headD .any).convert item with
    | error n =>
      rw [hi] at h
      cases h
      exact .under (.head (convert_pointsInto item hi)) _
    | ok v =>
      rw [hi] at h
      exact .tail (convertPlaces_pointsInto items (error_of_map_eq_error h))

theorem convertEntries_pointsInto : ∀ (entries : List (Literal × Literal)) {key value : ArgType}
    {m : TypeMismatch}, convertEntries key value entries = .error m →
      m.PointsInto (entries.flatMap fun e => [e.1, e.2])
  | [], _, _, _, h => by cases h
  | (k, v) :: entries, key, value, m, h => by
    rw [convertEntries] at h
    cases hk : key.convert k with
    | error n =>
      rw [hk] at h
      cases h
      exact .under (.head (convert_pointsInto k hk)) _
    | ok a =>
      rw [hk] at h
      dsimp only at h
      cases hv : value.convert v with
      | error n =>
        rw [hv] at h
        cases h
        exact .under (.tail (.head (convert_pointsInto v hv))) _
      | ok b =>
        rw [hv] at h
        exact .tail (.tail (convertEntries_pointsInto entries (error_of_map_eq_error h)))

theorem convertFields_pointsInto : ∀ (entries : List (Literal × Literal))
    {fields : List (RecordField ArgType)} {seen : List String} {m : TypeMismatch},
    convertFields fields seen entries = .error m →
      m.PointsInto (entries.flatMap fun e => [e.1, e.2])
  | [], _, _, _, h => by cases h
  | (k, v) :: entries, fields, seen, m, h => by
    rw [convertFields] at h
    split at h
    · cases h
      exact .head (.here ..)
    · split at h
      · cases h
        exact .under (.head (.here ..)) _
      · split at h
        · cases h
          exact .under (.head (.here ..)) _
        · split at h
          · rename_i hv
            cases h
            exact .under (.tail (.head (convert_pointsInto v hv))) _
          · exact .tail (.tail (convertFields_pointsInto entries (error_of_map_eq_error h)))

end

/-- The span of a mismatch is that of a node of the literal. -/
theorem convert_error_span {t : ArgType} {v : Literal} {m : TypeMismatch}
    (h : t.convert v = .error m) : ∃ n, v.Contains n ∧ m.span = n.span := by
  obtain ⟨w, hw, hn⟩ := convert_pointsInto v h
  rwa [List.mem_singleton.mp hw] at hn

end ArgType
end CommandConsole
