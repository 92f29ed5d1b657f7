/-
Simulated experts. An unreliable expert knows the optimal action and names it with a probability,
which may depend on the region of the state or fade with time, and otherwise names another action
at random. A partially sighted expert always names the action that is best as far as it can see. All
experts speak through a gate.
-/
import Counsel.Agent.Basic
import Counsel.Expert.Gate
import Counsel.Oracle
import Counsel.Random.Source

namespace Counsel

/-- An expert with one reliability for all states. -/
structure UnreliableExpert (α γ : Type) where
  id : ExpertId
  initialReliability : α
  reliability : α
  degradeFactor : Option α
  gate : Gate α
  seed : UInt64
  source : γ

/-- An expert with a reliability for each region of the states. -/
structure RegionalExpert (α γ : Type) where
  id : ExpertId
  reliabilities : List α
  regions : StateTable Nat
  gate : Gate α
  seed : UInt64
  source : γ

/-- An expert that does not see some chance variables. -/
structure SightedExpert (α : Type) where
  id : ExpertId
  hidden : List String
  visible : Layout
  /-- What actions are worth given the visible part of a state, as far as worked out. -/
  values : StateTable (Option α)
  gate : Gate α

/-- An expert of any kind. -/
inductive Expert (α γ : Type) where
  | unreliable (expert : UnreliableExpert α γ)
  | regional (expert : RegionalExpert α γ)
  | sighted (expert : SightedExpert α)

/-- A step of an expert, with the oracle that it consults. -/
abbrev Consult (α κ β : Type) := Step (κ × Oracle α) β

namespace Consult

variable {α κ β : Type} [Scalar α]

/-- A question to the oracle. -/
def ask (step : Step (Oracle α) β) : Consult α κ β :=
  step.within (·.2) fun both oracle => (both.1, oracle)

def update (change : κ → β × κ) : Consult α κ β :=
  modifyGet fun (expert, oracle) =>
    let (result, expert) := change expert
    (result, (expert, oracle))

end Consult

variable {α γ : Type} [Scalar α] [RandomSource γ]

/-- The optimal joint action if a draw falls below the reliability, and otherwise one of the other
joint actions at random. The rest of the source is given back in any case. -/
def noisyAdvice (source : γ) (actions : Layout) (optimal : Assignment) (reliability : α) :
    Except LayoutError Assignment × γ :=
  let (u, source) := RandomSource.fraction source
  if u < reliability then (.ok optimal, source)
  else if actions.size < 2 then (.ok optimal, source)
  else match actions.indexOf optimal with
    | .error e => (.error e, source)
    | .ok best =>
      let (pick, source) := RandomSource.below (actions.size - 1) source
      (actions.assignmentAt (if best ≤ pick then pick + 1 else pick), source)

namespace UnreliableExpert

def ofConfig (config : ExpertConfig α) (seed : UInt64) : Except Error (UnreliableExpert α γ) :=
  match Check.expert "expert" config with
  | .error e => .error (.config e)
  | .ok () =>
    .ok ⟨config.displayName, config.reliability, config.reliability, config.degradeFactor,
      .start config.disclosure, seed, RandomSource.ofSeed seed⟩

/-- What the expert would advise in a state. -/
def advise (state : Assignment) : Consult α (UnreliableExpert α γ) Assignment := do
  let optimal ← Consult.ask (Oracle.act state)
  let actions := (← get).2.actions
  let advice ← Consult.update fun expert =>
    let (advice, source) := noisyAdvice expert.source actions optimal expert.reliability
    (advice, { expert with source })
  Step.ofLayout advice

/-- The advice after a trial, if the expert speaks; its reliability fades either way. -/
def deliberate (state action : Assignment) :
    Consult α (UnreliableExpert α γ) (Option Assignment) := do
  let optimal ← Consult.ask (Oracle.bestExpectedUtility state)
  let agent ← Consult.ask (Oracle.expectedUtility state action)
  let opened ← Consult.update fun expert =>
    let (opened, gate) := expert.gate.observe optimal agent
    (opened, { expert with gate })
  let advice ← if opened then some <$> advise state else pure none
  Consult.update fun expert =>
    match expert.degradeFactor with
    | none => ((), expert)
    | some factor => ((), { expert with reliability := expert.reliability * factor })
  return advice

def reset (expert : UnreliableExpert α γ) : UnreliableExpert α γ :=
  { expert with
    reliability := expert.initialReliability
    gate := expert.gate.reset
    source := RandomSource.ofSeed expert.seed }

end UnreliableExpert

namespace RegionalExpert

/-- An expert with these reliabilities; `regions` gives each state the place of its own. -/
def ofRegions (name : String) (reliabilities : List α) (regions : StateTable Nat)
    (states : Layout) (disclosure : DisclosureConfig α) (seed : UInt64) :
    Except Error (RegionalExpert α γ) :=
  let check : Check := do
    Check.reliabilities "reliabilities" reliabilities
    Check.knownNames "regions" regions.layout.names states.names
    Check.regions "regions" regions.values reliabilities.length
    Check.disclosure "disclosure" disclosure
  match check with
  | .error e => .error (.config e)
  | .ok () =>
    .ok ⟨name, reliabilities, regions, .start disclosure, seed, RandomSource.ofSeed seed⟩

/-- The probability of optimal advice in a state. -/
def reliabilityIn (expert : RegionalExpert α γ) (state : Assignment) : Except LayoutError α := do
  return expert.reliabilities.getD (← expert.regions.get state) 0

/-- What the expert would advise in a state. -/
def advise (state : Assignment) : Consult α (RegionalExpert α γ) Assignment := do
  let reliability ← Step.ofLayout ((← get).1.reliabilityIn state)
  let optimal ← Consult.ask (Oracle.act state)
  let actions := (← get).2.actions
  let advice ← Consult.update fun expert =>
    let (advice, source) := noisyAdvice expert.source actions optimal reliability
    (advice, { expert with source })
  Step.ofLayout advice

/-- The advice after a trial, if the expert speaks. -/
def deliberate (state action : Assignment) :
    Consult α (RegionalExpert α γ) (Option Assignment) := do
  let optimal ← Consult.ask (Oracle.bestExpectedUtility state)
  let agent ← Consult.ask (Oracle.expectedUtility state action)
  let opened ← Consult.update fun expert =>
    let (opened, gate) := expert.gate.observe optimal agent
    (opened, { expert with gate })
  if opened then some <$> advise state else return none

def reset (expert : RegionalExpert α γ) : RegionalExpert α γ :=
  { expert with gate := expert.gate.reset, source := RandomSource.ofSeed expert.seed }

end RegionalExpert

namespace SightedExpert

/-- An expert that does not see the variables `hidden`. -/
def ofHidden (name : String) (hidden : List String) (states actions : Layout)
    (disclosure : DisclosureConfig α) : Except Error (SightedExpert α) :=
  let check : Check := do
    Check.knownNames "hidden" hidden states.names
    Check.disclosure "disclosure" disclosure
  match check with
  | .error e => .error (.config e)
  | .ok () =>
    let layouts : Except LayoutError (Layout × Layout) := do
      let visible ← Layout.ofPlaces (states.places.filter fun p => !hidden.contains p.1)
      return (visible, ← visible.join actions)
    match layouts with
    | .error e => .error (.layout e)
    | .ok (visible, joint) =>
      .ok ⟨name, hidden, visible, .replicate joint none, .start disclosure⟩

def value (state action : Assignment) : Consult α (SightedExpert α) α := do
  let (expert, _) ← get
  let visible := expert.visible.restrict state
  let key := Assignment.merge visible action
  match ← Step.ofLayout (expert.values.get key) with
  | some known => return known
  | none =>
    let value ← Consult.ask (Oracle.expectedUtility visible action)
    let values ← Step.ofLayout (return (← expert.values.set key (some value)).2)
    Consult.update fun expert => ((), { expert with values })
    return value

/-- The better of the best action so far and another; the earlier one on a tie. -/
def betterAction (best : Option (Assignment × α)) (action : Assignment) (value : α) :
    Option (Assignment × α) :=
  match best with
  | none => some (action, value)
  | some b => if b.2 < value then some (action, value) else some b

/-- The first joint action that is worth most as far as the expert can see, and its worth. -/
def best (state : Assignment) : Consult α (SightedExpert α) (Assignment × α) := do
  let actions := (← get).2.actions.assignments
  let best ← actions.foldlM (fun best action => do
    return betterAction best action (← value state action)) none
  return best.getD (.empty, 0)

/-- What the expert would advise in a state. -/
def advise (state : Assignment) : Consult α (SightedExpert α) Assignment := (·.1) <$> best state

/-- The advice after a trial, if the expert speaks. -/
def deliberate (state action : Assignment) :
    Consult α (SightedExpert α) (Option Assignment) := do
  let (advice, own) ← best state
  let agent ← value state action
  let opened ← Consult.update fun expert =>
    let (opened, gate) := expert.gate.observe own agent
    (opened, { expert with gate })
  return if opened then some advice else none

/-- The expert as it was constructed, but for what it has worked out. -/
def reset (expert : SightedExpert α) : SightedExpert α := { expert with gate := expert.gate.reset }

end SightedExpert

namespace Expert

/-- The name of an expert. -/
def id : Expert α γ → ExpertId
  | .unreliable e => e.id
  | .regional e => e.id
  | .sighted e => e.id

/-- The gate of an expert. -/
def gate : Expert α γ → Gate α
  | .unreliable e => e.gate
  | .regional e => e.gate
  | .sighted e => e.gate

/-- A step of one kind of expert as a step of an expert. -/
def lift {κ β : Type} (wrap : κ → Expert α γ) (expert : κ) (step : Consult α κ β) :
    Consult α (Expert α γ) β :=
  fun (_, oracle) =>
    let (result, expert, oracle) := step.answer (expert, oracle)
    (result, wrap expert, oracle)

/-- What an expert would advise in a state. -/
def advise (state : Assignment) : Consult α (Expert α γ) Assignment := do
  match (← get).1 with
  | .unreliable e => lift .unreliable e (UnreliableExpert.advise state)
  | .regional e => lift .regional e (RegionalExpert.advise state)
  | .sighted e => lift .sighted e (SightedExpert.advise state)

/-- The advice of an expert after a trial, if it speaks. -/
def deliberate (state action : Assignment) : Consult α (Expert α γ) (Option Assignment) := do
  match (← get).1 with
  | .unreliable e => lift .unreliable e (UnreliableExpert.deliberate state action)
  | .regional e => lift .regional e (RegionalExpert.deliberate state action)
  | .sighted e => lift .sighted e (SightedExpert.deliberate state action)

def reset : Expert α γ → Expert α γ
  | .unreliable e => .unreliable e.reset
  | .regional e => .regional e.reset
  | .sighted e => .sighted e.reset

end Expert

end Counsel
