import DdlBridge.Json.Decode
import Mathlib.Data.List.Forall2
import Mathlib.Data.List.Nodup

/-!
# Records with members left out

A member of an object may be left out where it has the default that its field declares. Each field of
the object is then either there or has its default (`fields?_of_leaves`), so a reader that fills in
the defaults reads the whole record.
-/

namespace DdlBridge.Json

variable {inner : String → Json → Json → Prop} {defaults : List (String × Json)}

/-- What is left of the members of an object if some that have their default are deleted. `inner` says
what is left of the values of the others. -/
inductive LeavesMembers (inner : String → Json → Json → Prop) (defaults : List (String × Json)) :
    List (String × Json) → List (String × Json) → Prop where
  | nil : LeavesMembers inner defaults [] []
  | keep {name : String} {v w : Json} {ms ms' : List (String × Json)} (hv : inner name v w)
      (h : LeavesMembers inner defaults ms ms') :
      LeavesMembers inner defaults ((name, v) :: ms) ((name, w) :: ms')
  | delete {m : String × Json} {ms ms' : List (String × Json)} (hm : m ∈ defaults)
      (h : LeavesMembers inner defaults ms ms') : LeavesMembers inner defaults (m :: ms) ms'

/-- What is left of an object. -/
inductive Leaves (inner : String → Json → Json → Prop) (defaults : List (String × Json)) :
    Json → Json → Prop where
  | obj {ms ms' : List (String × Json)} (h : LeavesMembers inner defaults ms ms') :
      Leaves inner defaults (.obj ms) (.obj ms')

/-- What is left of the items of an array. None is deleted. -/
inductive LeavesItems (inner : Json → Json → Prop) : Json → Json → Prop where
  | arr {vs vs' : List Json} (h : List.Forall₂ inner vs vs') : LeavesItems inner (.arr vs) (.arr vs')

/-- A field of which `v` was written. -/
inductive Field (inner : String → Json → Json → Prop) (defaults : List (String × Json)) (name : String)
    (v : Json) : Option Json → Prop where
  | kept {w : Json} (h : inner name v w) : Field inner defaults name v (some w)
  | deleted (h : (name, v) ∈ defaults) : Field inner defaults name v none

theorem LeavesMembers.refl (hinner : ∀ name v, inner name v v) (ms : List (String × Json)) :
    LeavesMembers inner defaults ms ms := by
  induction ms with
  | nil => exact .nil
  | cons m ms ih => exact .keep (hinner m.1 m.2) ih

/-- Of a record everything may be left. -/
theorem Leaves.refl (hinner : ∀ name v, inner name v v) (ms : List (String × Json)) :
    Leaves inner defaults (.obj ms) (.obj ms) :=
  .obj (.refl hinner ms)

/-! ### Fields -/

theorem LeavesMembers.names_sublist {ms ms' : List (String × Json)}
    (h : LeavesMembers inner defaults ms ms') : (ms'.map Prod.fst).Sublist (ms.map Prod.fst) := by
  induction h with
  | nil => exact .slnil
  | keep _ _ ih => exact ih.cons_cons _
  | delete _ _ ih => exact ih.cons _

/-- The field of a name among the members that are left. -/
def fieldOf (ms : List (String × Json)) (name : String) : Option Json :=
  (ms.find? (·.1 == name)).map (·.2)

theorem LeavesMembers.field {ms ms' : List (String × Json)} (h : LeavesMembers inner defaults ms ms')
    (hnodup : (ms.map Prod.fst).Nodup) :
    ∀ m ∈ ms, Field inner defaults m.1 m.2 (fieldOf ms' m.1) := by
  induction h with
  | nil => simp
  | @keep name v w ms ms' hv h ih =>
    rw [List.map_cons, List.nodup_cons] at hnodup
    rw [List.forall_mem_cons]
    constructor
    · have hfield : fieldOf ((name, w) :: ms') name = some w := by simp [fieldOf]
      rw [hfield]
      exact .kept hv
    · intro m hm
      have hne : name ≠ m.1 := fun heq =>
        hnodup.1 (List.mem_map.2 ⟨m, hm, heq.symm⟩)
      have hfield : fieldOf ((name, w) :: ms') m.1 = fieldOf ms' m.1 := by simp [fieldOf, hne]
      rw [hfield]
      exact ih hnodup.2 m hm
  | @delete m ms ms' hm h ih =>
    rw [List.map_cons, List.nodup_cons] at hnodup
    rw [List.forall_mem_cons]
    refine ⟨?_, ih hnodup.2⟩
    -- Names are distinct, so nothing that is left answers to the name of what was deleted.
    have hgone : fieldOf ms' m.1 = none := by
      rw [fieldOf, Option.map_eq_none_iff, List.find?_eq_none]
      intro m' hm' heq
      exact hnodup.1 (h.names_sublist.subset (eq_of_beq heq ▸ List.mem_map_of_mem hm'))
    rw [hgone]
    exact .deleted hm

/-- Every field of a record whose members are left out is there or had its default. -/
theorem fields?_of_leaves {ms : List (String × Json)} {doc : Json}
    (h : Leaves inner defaults (.obj ms) doc) (hnodup : (ms.map Prod.fst).Nodup) : ∃ fields,
      fields? (ms.map Prod.fst) doc = some fields ∧
        List.Forall₂ (fun m field => Field inner defaults m.1 m.2 field) ms fields := by
  cases h with
  | @obj _ ms' h =>
    refine ⟨(ms.map Prod.fst).map (fieldOf ms'), ?_, ?_⟩
    · have hone : ((ms.map Prod.fst).all fun n => (ms'.filter (·.1 == n)).length ≤ 1) = true := by
        rw [List.all_eq_true]
        intro n _
        have hcount := List.nodup_iff_count_le_one.1 (hnodup.sublist h.names_sublist) n
        rw [List.count_eq_countP, List.countP_map, List.countP_eq_length_filter] at hcount
        exact decide_eq_true hcount
      rw [fields?, if_pos hone]
      rfl
    · rw [List.map_map, List.forall₂_map_right_iff, List.forall₂_same]
      exact h.field hnodup

theorem Field.required {α : Type} {f : Json → Option α} {a : α} {name : String} {v : Json}
    {field : Option Json} (h : Field inner defaults name v field)
    (hneeded : ∀ w, (name, w) ∉ defaults) (hf : ∀ w, inner name v w → f w = some a) :
    required? f field = some a := by
  cases h with
  | kept h => exact hf _ h
  | deleted h => exact absurd h (hneeded v)

theorem Field.optional {α : Type} {f : Json → Option α} {a default : α} {name : String} {v : Json}
    {field : Option Json} (h : Field inner defaults name v field)
    (hdefault : (name, v) ∈ defaults → a = default) (hf : ∀ w, inner name v w → f w = some a) :
    optional? default f field = some a := by
  cases h with
  | kept h => exact hf _ h
  | deleted h => exact congrArg some (hdefault h).symm

end DdlBridge.Json
