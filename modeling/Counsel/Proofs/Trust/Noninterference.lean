/-
What an agent learns about an expert depends on the trials and on that expert's advice alone. Two
runs that agree on these, with whatever other experts and with whatever acts in between, end with
the same belief and memory of the expert and with the same values of the actions
(`TrustAgent.learned_alike`).
-/
import Counsel.Proofs.Trust.Run

namespace Counsel.TrustAgent

open Outcome

variable {α γ δ : Type} [Scalar α] [RandomSource γ] [RandomSource δ]

/-- Two agents of the same settings that hear the same trials, and the same advice of one expert
about them, end with the same belief and memory of that expert and with the same values. -/
theorem learned_alike {states actions : Layout} {learning : LearnerConfig α}
    {config : TrustConfig α} {first : TrustAgent α γ} {second : TrustAgent α δ}
    (one : first.Arises states actions learning config)
    (two : second.Arises states actions learning config)
    {experts others : List ExpertId} {expert : ExpertId}
    (mem : expert ∈ experts) (mem' : expert ∈ others)
    {events events' : List (Event α)} {after : TrustAgent α γ} {after' : TrustAgent α δ}
    (ran : (first.reset experts).run events = some after)
    (ran' : (second.reset others).run events' = some after')
    (alike : (lessons events).map (Lesson.heard expert) =
      (lessons events').map (Lesson.heard expert)) :
    (∃ belief, after.belief? expert = some belief ∧ after'.belief? expert = some belief) ∧
      after.rho? expert = after'.rho? expert ∧
      (∀ state, after.remembered expert state = after'.remembered expert state) ∧
      ∀ state action, after.base.values.value state action =
        after'.base.values.value state action := by
  obtain ⟨fresh, insight, made, heard, holds⟩ := one.holds_run_reset mem ran
  obtain ⟨fresh', insight', made', heard', holds'⟩ := two.holds_run_reset mem' ran'
  obtain rfl : fresh = fresh' := Except.ok.inj (made.symm.trans made')
  rw [alike, heard', Except.ok.injEq] at heard
  subst heard
  refine ⟨⟨_, holds.belief, holds'.belief⟩, ?_, fun state => ?_, fun state action => ?_⟩
  · rw [rho?, rho?, holds.known, holds'.known]
  · rw [holds.remembered, holds'.remembered]
  · rw [holds.values, holds'.values]

/-- One lesson, in which the scout speaks alone. -/
def alone : List (Event Rat) :=
  [.learn ⟨⟨signal true, move true, 1⟩, .ofList [("scout", some (move true))]⟩]

/-- The same lesson between two acts, with a rival who contradicts the scout. -/
def amongOthers : List (Event Rat) :=
  [.act (signal true) true,
    .learn ⟨⟨signal true, move true, 1⟩,
      .ofList [("rival", some (move false)), ("scout", some (move true))]⟩,
    .act (signal false) false]

theorem learned_alike_novice :
    ∃ after after' belief,
      (novice.reset ["scout"]).run alone = some after ∧
      (novice.reset ["rival", "scout"]).run amongOthers = some after' ∧
      after.belief? "scout" = some belief ∧ after'.belief? "scout" = some belief := by
  obtain ⟨after, ran⟩ := Option.isSome_iff_exists.1
    (show ((novice.reset ["scout"]).run alone).isSome = true by decide +kernel)
  obtain ⟨after', ran'⟩ := Option.isSome_iff_exists.1
    (show ((novice.reset ["rival", "scout"]).run amongOthers).isSome = true by decide +kernel)
  have heard : (lessons alone).map (Lesson.heard "scout") =
      [(⟨signal true, move true, 1⟩, some (move true))] := by
    have said : AdviceBundle.advice? (.ofList [("scout", some (move true))]) "scout" =
        some (move true) := by decide +kernel
    simp only [alone, lessons, Event.lesson?, List.filterMap_cons, List.filterMap_nil, List.map_cons,
      List.map_nil, Lesson.heard, said]
  have heard' : (lessons amongOthers).map (Lesson.heard "scout") =
      [(⟨signal true, move true, 1⟩, some (move true))] := by
    have said : AdviceBundle.advice?
        (.ofList [("rival", some (move false)), ("scout", some (move true))]) "scout" =
        some (move true) := by decide +kernel
    simp only [amongOthers, lessons, Event.lesson?, List.filterMap_cons, List.filterMap_nil,
      List.map_cons, List.map_nil, Lesson.heard, said]
  obtain ⟨⟨belief, left, right⟩, -⟩ := learned_alike arises_novice arises_novice (by decide)
    (by decide) ran ran' (heard.trans heard'.symm)
  exact ⟨after, after', belief, ran, ran', left, right⟩

end Counsel.TrustAgent
