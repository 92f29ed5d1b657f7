/-
Observations by name. The slots of an assignment give a variable the position of the value that the
assignment has under its name, and no other variable a position (`get?_slotsOf`); so they admit
nothing that is not in a domain (`admits_of_slotsOf`).
-/
import Counsel.Proofs.Diagram.WellFormed
import Counsel.Proofs.NameMap

namespace Counsel

open Outcome

namespace Diagram

variable {α : Type} [Scalar α]

/-- Positions in range for some variables of a diagram. -/
structure Admits (d : Diagram α) (evidence : Slots) : Prop where
  within : evidence.Within d.vars
  known : ∀ id, evidence.isAssigned id = true → ∃ v ∈ d.vars, v.id = id

namespace WellFormed

variable {d : Diagram α} (h : d.WellFormed)
include h

theorem namedSlot_eq_ok {entry : String × Value} {id : VarId} {p : Nat} :
    d.namedSlot entry = .ok (id, p) ↔
      ∃ v ∈ d.vars, v.name = entry.1 ∧ v.id = id ∧ v.position? entry.2 = some p := by
  unfold namedSlot
  rw [bind_eq_ok]
  constructor
  · rintro ⟨v, hl, hp⟩
    obtain ⟨hv, hn⟩ := h.lookup_eq_ok.1 hl
    split at hp
    next => cases hp
    next q hq =>
      cases hp
      exact ⟨v, hv, hn, rfl, hq⟩
  · rintro ⟨v, hv, hn, rfl, hq⟩
    refine ⟨v, h.lookup_eq_ok.2 ⟨hv, hn⟩, ?_⟩
    rw [hq]
    rfl

/-- The entries of an assignment and their positions, in step. -/
theorem slotsOf_eq_ok {observations : Assignment} {evidence : Slots}
    (made : d.slotsOf observations = .ok evidence) : ∃ slots, evidence = Slots.empty.setAll slots ∧
      List.Forall₂ (fun entry slot => ∃ v ∈ d.vars, v.name = entry.1 ∧ v.id = slot.1 ∧
        v.position? entry.2 = some slot.2) observations.entries slots := by
  obtain ⟨slots, hs, e⟩ := bind_eq_ok.1 made
  cases e
  exact ⟨slots, rfl, (mapM_eq_ok.1 hs).imp fun entry slot k => h.namedSlot_eq_ok.1 k⟩

/-- The position of a variable is that of the value under its name. -/
theorem get?_slotsOf {observations : Assignment} {evidence : Slots}
    (made : d.slotsOf observations = .ok evidence) {id : VarId} {p : Nat} :
    evidence.get? id = some p ↔ ∃ v ∈ d.vars, v.id = id ∧
      ∃ value, observations.get? v.name = some value ∧ v.position? value = some p := by
  obtain ⟨slots, rfl, steps⟩ := h.slotsOf_eq_ok made
  have nodup : (slots.map (·.1)).Nodup := by
    refine forall₂_nodup (g := fun slot => slot.1) steps ?_ observations.nodup_names
    rintro x y x' y' ⟨v, hv, hn, hid, -⟩ ⟨v', hv', hn', hid', -⟩ e
    rw [← hn, ← hn', h.inj v hv v' hv' (hid.trans (e.trans hid'.symm))]
  constructor
  · intro hg
    by_cases hm : id ∈ slots.map (·.1)
    · obtain ⟨⟨_, q⟩, hs, rfl⟩ := List.mem_map.1 hm
      rw [Slots.get?_setAll_of_mem _ nodup hs] at hg
      cases hg
      obtain ⟨entry, he, v, hv, hn, hid, hp⟩ := forall₂_right_mem steps hs
      exact ⟨v, hv, hid, entry.2, NameMap.get?_eq_some.2 (hn ▸ he), hp⟩
    · rw [Slots.get?_setAll_of_notMem _ hm, Slots.get?_empty] at hg
      cases hg
  · rintro ⟨v, hv, rfl, value, hval, hp⟩
    obtain ⟨⟨id, q⟩, hs, u, hu, hn, hid, hq⟩ :=
      forall₂_mem steps (NameMap.get?_eq_some.1 hval)
    obtain rfl : u = v :=
      (List.nodup_map_iff_inj_on h.nodup_vars).1 h.named u hu v hv hn
    cases hid
    cases hp.symm.trans hq
    exact Slots.get?_setAll_of_mem _ nodup hs

theorem admits_of_slotsOf {observations : Assignment} {evidence : Slots}
    (made : d.slotsOf observations = .ok evidence) : d.Admits evidence where
  within v hv p hp := by
    obtain ⟨u, hu, e, value, -, hq⟩ := (h.get?_slotsOf made).1 hp
    rw [← h.inj u hu v hv e]
    exact (List.findIdx?_eq_some_iff_getElem.1 hq).1
  known id assigned := by
    obtain ⟨p, hp⟩ := Slots.isAssigned_iff.1 assigned
    obtain ⟨v, hv, e, -⟩ := (h.get?_slotsOf made).1 hp
    exact ⟨v, hv, e⟩

theorem world_inRange {slots : Slots} (within : slots.Within d.vars) : slots.world.InRange d.vars :=
  within.world_lt fun _ hv => h.card_pos hv

/-- The observed variables are those that are named. -/
theorem isAssigned_slotsOf {observations : Assignment} {evidence : Slots}
    (made : d.slotsOf observations = .ok evidence) {v : Variable} (hv : v ∈ d.vars) :
    evidence.isAssigned v.id = true ↔ (observations.get? v.name).isSome = true := by
  rw [Slots.isAssigned_iff, Option.isSome_iff_exists]
  constructor
  · rintro ⟨p, hp⟩
    obtain ⟨u, hu, e, value, hval, -⟩ := (h.get?_slotsOf made).1 hp
    exact ⟨value, h.inj u hu v hv e ▸ hval⟩
  · rintro ⟨value, hval⟩
    obtain ⟨slots, -, steps⟩ := h.slotsOf_eq_ok made
    obtain ⟨slot, -, u, hu, hn, -, hq⟩ := forall₂_mem steps (NameMap.get?_eq_some.1 hval)
    obtain rfl : u = v := (List.nodup_map_iff_inj_on h.nodup_vars).1 h.named u hu v hv hn
    exact ⟨slot.2, (h.get?_slotsOf made).2 ⟨u, hu, rfl, value, hval, hq⟩⟩

/-- A variable that is not named has no position. -/
theorem get?_slotsOf_eq_none {observations : Assignment} {evidence : Slots}
    (made : d.slotsOf observations = .ok evidence) {v : Variable} (hv : v ∈ d.vars)
    (unnamed : observations.get? v.name = none) : evidence.get? v.id = none := by
  rw [← Slots.isAssigned_eq_false, ← Bool.not_eq_true, h.isAssigned_slotsOf made hv, unnamed]
  exact Bool.false_ne_true

end WellFormed

end Diagram

end Counsel
