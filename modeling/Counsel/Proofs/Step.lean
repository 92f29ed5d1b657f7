/-
Steps of components, read off their outcomes. What every run of a step keeps of the state
(`Step.Keeps`) is kept by a sequence when its parts keep it. A step that succeeds, given what holds
before it (`Step.Yields`), can be followed by one that needs what holds then; so a loop succeeds when
each round leads from one invariant to the next (`Step.Yields.times`). Of a step that may fail,
`Step.Ensures` says what holds if it does not.
-/
import Counsel.Error
import Counsel.Proofs.Outcome

namespace Counsel

namespace Outcome

variable {ε σ α β : Type}

@[simp] theorem answer_get (s : σ) : answer (get : ExceptT ε (StateM σ) σ) s = (.ok s, s) := rfl

@[simp] theorem answer_set (s t : σ) : answer (set t : ExceptT ε (StateM σ) PUnit) s = (.ok (), t) :=
  rfl

@[simp] theorem answer_modify (f : σ → σ) (s : σ) :
    answer (modify f : ExceptT ε (StateM σ) PUnit) s = (.ok (), f s) := rfl

theorem answer_get_bind (f : σ → ExceptT ε (StateM σ) β) (s : σ) :
    answer (get >>= f) s = answer (f s) s := rfl

end Outcome

namespace Step

open Outcome

variable {σ τ β δ : Type}

@[simp] theorem answer_ofLayout (result : Except LayoutError β) (s : σ) :
    Outcome.answer (ofLayout result) s = (result.mapError .layout, s) := by
  cases result <;> rfl

@[simp] theorem answer_ofModel (result : Except ModelError β) (s : σ) :
    Outcome.answer (ofModel result) s = (result.mapError .model, s) := by
  cases result <;> rfl

theorem ofLayout_ok (b : β) : (ofLayout (.ok b) : Step σ β) = pure b := rfl

theorem ofModel_ok (b : β) : (ofModel (.ok b) : Step σ β) = pure b := rfl

theorem answer_within (part : τ → σ) (replace : τ → σ → τ) (step : Step σ β) (whole : τ) :
    Outcome.answer (within part replace step) whole =
      ((Outcome.answer step (part whole)).1,
        replace whole (Outcome.answer step (part whole)).2) := rfl

/-! ## What a step keeps -/

/-- Whatever comes of a step, it leads to a state related to the one it began in. -/
def Keeps (R : σ → σ → Prop) (step : Step σ β) : Prop := ∀ s, R s (Outcome.answer step s).2

variable {R : σ → σ → Prop} [Std.Refl R]

theorem Keeps.get : Keeps R (MonadState.get : Step σ σ) := Std.Refl.refl

theorem Keeps.pure (b : β) : Keeps R (Pure.pure b : Step σ β) := Std.Refl.refl

theorem Keeps.ofLayout (result : Except LayoutError β) : Keeps R (Step.ofLayout result) := by
  intro s
  rw [answer_ofLayout]
  exact Std.Refl.refl s

omit [Std.Refl R] in
theorem Keeps.bind [IsTrans σ R] {x : Step σ β} {f : β → Step σ δ} (hx : Keeps R x)
    (hf : ∀ b, Keeps R (f b)) : Keeps R (x >>= f) := by
  intro s
  rw [answer_bind]
  rcases h : Outcome.answer x s with ⟨r, t⟩
  have first : R s t := by simpa [h] using hx s
  cases r with
  | error e => exact first
  | ok b => exact Trans.trans first (hf b t)

omit [Std.Refl R] in
theorem Keeps.map {x : Step σ β} {f : β → δ} (hx : Keeps R x) : Keeps R (f <$> x) := by
  intro s
  rw [answer_map]
  exact hx s

theorem Keeps.throw (e : Error) : Keeps R (MonadExcept.throw e : Step σ β) := Std.Refl.refl

theorem Keeps.forM [IsTrans σ R] {ι : Type} {f : ι → Step σ Unit} {items : List ι}
    (hf : ∀ i ∈ items, Keeps R (f i)) : Keeps R (items.forM f) := by
  induction items with
  | nil => exact .pure ()
  | cons i rest ih =>
    exact .bind (hf i List.mem_cons_self) fun _ => ih fun j hj => hf j (List.mem_cons_of_mem _ hj)

theorem Keeps.foldlM [IsTrans σ R] {ι : Type} {f : δ → ι → Step σ δ} {items : List ι}
    (hf : ∀ i ∈ items, ∀ c, Keeps R (f c i)) (c : δ) : Keeps R (items.foldlM f c) := by
  induction items generalizing c with
  | nil => exact .pure c
  | cons i rest ih =>
    rw [List.foldlM_cons]
    exact .bind (hf i List.mem_cons_self c) (ih fun j hj => hf j (List.mem_cons_of_mem _ hj))

omit [Std.Refl R] in
theorem Keeps.within {Q : τ → τ → Prop} {part : τ → σ} {replace : τ → σ → τ} {step : Step σ β}
    (h : Keeps R step) (put : ∀ w s, R (part w) s → Q w (replace w s)) :
    Keeps Q (Step.within part replace step) := fun w => put w _ (h (part w))

/-- A property that is not lost, whatever comes of a step. -/
def Retains (kept : σ → Prop) (before after : σ) : Prop := kept before → kept after

instance (kept : σ → Prop) : Std.Refl (Retains kept) := ⟨fun _ => id⟩

instance (kept : σ → Prop) : IsTrans σ (Retains kept) := ⟨fun _ _ _ h k => k ∘ h⟩

/-- What is seen of a state is the same. -/
def Same {ι : Type} (view : σ → ι) (before after : σ) : Prop := view after = view before

instance {ι : Type} (view : σ → ι) : Std.Refl (Same view) := ⟨fun _ => rfl⟩

instance {ι : Type} (view : σ → ι) : IsTrans σ (Same view) := ⟨fun _ _ _ h k => k.trans h⟩

/-! ## Steps that succeed -/

/-- From every state with one property the step succeeds, and its answer and the state after it have
another. -/
def Yields (pre : σ → Prop) (step : Step σ β) (post : β → σ → Prop) : Prop :=
  ∀ s, pre s → ∃ b t, Outcome.answer step s = (.ok b, t) ∧ post b t

variable {pre : σ → Prop} {mid : β → σ → Prop} {post : δ → σ → Prop}

theorem Yields.bind {x : Step σ β} {f : β → Step σ δ} (hx : Yields pre x mid)
    (hf : ∀ b, Yields (mid b) (f b) post) : Yields pre (x >>= f) post := by
  intro s hs
  obtain ⟨b, t, ran, hb⟩ := hx s hs
  obtain ⟨c, u, ran', hc⟩ := hf b t hb
  exact ⟨c, u, by rw [answer_bind_of_ok ran, ran'], hc⟩

theorem Yields.pure {b : β} (h : ∀ s, pre s → mid b s) : Yields pre (Pure.pure b) mid :=
  fun s hs => ⟨b, s, rfl, h s hs⟩

theorem Yields.map {x : Step σ β} {f : β → δ} (hx : Yields pre x mid)
    (h : ∀ b s, mid b s → post (f b) s) : Yields pre (f <$> x) post := by
  rw [map_eq_pure_bind]
  exact hx.bind fun b => Yields.pure (h b)

/-- What holds of the state that is read still holds. -/
theorem Yields.read_bind {f : σ → Step σ δ} (h : ∀ s, pre s → Yields pre (f s) post) :
    Yields pre (MonadState.get >>= f) post := fun s hs =>
  (h s hs s hs).imp fun _ ⟨u, ran, hc⟩ => ⟨u, (answer_get_bind f s).trans ran, hc⟩

theorem Yields.change {f : σ → σ} {post : Unit → σ → Prop} (h : ∀ s, pre s → post () (f s)) :
    Yields pre (modify f) post := fun s hs => ⟨(), f s, rfl, h s hs⟩

theorem Yields.set {t : σ} {kept : σ → Prop} (h : kept t) :
    Yields pre (MonadStateOf.set t) fun _ s => kept s := fun _ _ => ⟨(), t, rfl, h⟩

theorem Yields.ofLayout {result : Except LayoutError β}
    (h : ∀ s, pre s → ∃ b, result = .ok b ∧ mid b s) : Yields pre (Step.ofLayout result) mid := by
  intro s hs
  obtain ⟨b, rfl, hb⟩ := h s hs
  exact ⟨b, s, rfl, hb⟩

theorem Yields.ofModel {result : Except ModelError β}
    (h : ∀ s, pre s → ∃ b, result = .ok b ∧ mid b s) : Yields pre (Step.ofModel result) mid := by
  intro s hs
  obtain ⟨b, rfl, hb⟩ := h s hs
  exact ⟨b, s, rfl, hb⟩

/-- Less may be promised, and more asked for. -/
theorem Yields.imp {step : Step σ β} {pre' : σ → Prop} {mid' : β → σ → Prop}
    (h : Yields pre step mid) (enter : ∀ s, pre' s → pre s) (leave : ∀ b s, mid b s → mid' b s) :
    Yields pre' step mid' := by
  intro s hs
  obtain ⟨b, t, ran, hb⟩ := h s (enter s hs)
  exact ⟨b, t, ran, leave b t hb⟩

theorem Yields.of_imp {step : Step σ β} {pre' : σ → Prop} (h : Yields pre step mid)
    (enter : ∀ s, pre' s → pre s) : Yields pre' step mid := h.imp enter fun _ _ k => k

/-- What follows from the property before a step may be used for it. -/
theorem Yields.given {step : Step σ β} {p : Prop} (known : ∀ s, pre s → p)
    (h : p → Yields pre step mid) : Yields pre step mid := fun s hs => h (known s hs) s hs

/-- A step of a part succeeds where the step does. -/
theorem Yields.within {part : τ → σ} {replace : τ → σ → τ} {step : Step σ β} {outer : τ → Prop}
    {final : β → τ → Prop} (h : Yields pre step mid) (enter : ∀ w, outer w → pre (part w))
    (leave : ∀ w, outer w → ∀ b s, mid b s → final b (replace w s)) :
    Yields outer (Step.within part replace step) final := by
  intro w hw
  obtain ⟨b, t, ran, hb⟩ := h (part w) (enter w hw)
  exact ⟨b, replace w t, by rw [answer_within, ran], leave w hw b t hb⟩

/-- Rounds that lead from one invariant to the next succeed as often as they are repeated. -/
theorem Yields.times {step : Step σ β} {kept : Nat → σ → Prop} {good : β → Prop}
    (h : ∀ k, Yields (kept k) step fun b s => kept (k + 1) s ∧ good b) (n k : Nat) :
    Yields (kept k) (step.times n) fun bs s =>
      kept (k + n) s ∧ bs.length = n ∧ ∀ b ∈ bs, good b := by
  induction n generalizing k with
  | zero => exact Yields.pure fun s hs => ⟨hs, rfl, fun _ h => absurd h List.not_mem_nil⟩
  | succ n ih =>
    refine (h k).bind fun b => ?_
    intro s hs
    obtain ⟨bs, t, ran, hk, hl, hg⟩ := ih (k + 1) s hs.1
    refine ⟨b :: bs, t, ?_, ?_, by rw [List.length_cons, hl], List.forall_mem_cons.2 ⟨hs.2, hg⟩⟩
    · rw [answer_bind_of_ok ran]
      rfl
    · rwa [Nat.add_comm n 1, ← Nat.add_assoc]

/-- A step for each of some items. -/
theorem Yields.mapM {ι : Type} {f : ι → Step σ β} {kept : σ → Prop} {good : ι → β → Prop}
    {items : List ι} (h : ∀ i ∈ items, Yields kept (f i) fun b s => kept s ∧ good i b) :
    Yields kept (items.mapM f) fun bs s => kept s ∧ List.Forall₂ good items bs := by
  induction items with
  | nil => exact Yields.pure fun s hs => ⟨hs, .nil⟩
  | cons i rest ih =>
    rw [List.mapM_cons]
    refine (h i List.mem_cons_self).bind fun b => ?_
    intro s hs
    obtain ⟨bs, t, ran, hk, hg⟩ := ih (fun j hj => h j (List.mem_cons_of_mem _ hj)) s hs.1
    refine ⟨b :: bs, t, ?_, hk, .cons hs.2 hg⟩
    rw [answer_bind_of_ok ran]
    rfl

/-- A step for each of some items, of which only the state is of interest. -/
theorem Yields.forM {ι : Type} {f : ι → Step σ Unit} {kept : σ → Prop} {items : List ι}
    (h : ∀ i ∈ items, Yields kept (f i) fun _ => kept) :
    Yields kept (items.forM f) fun _ => kept := by
  induction items with
  | nil => exact Yields.pure fun s hs => hs
  | cons i rest ih =>
    exact (h i List.mem_cons_self).bind fun _ => ih fun j hj => h j (List.mem_cons_of_mem _ hj)

/-! ## What holds where a step succeeds -/

/-- If the step succeeds from a state with one property, its answer and the state after it have
another. -/
def Ensures (pre : σ → Prop) (step : Step σ β) (post : β → σ → Prop) : Prop :=
  ∀ s, pre s → ∀ b t, Outcome.answer step s = (.ok b, t) → post b t

theorem Yields.ensures {step : Step σ β} (h : Yields pre step mid) : Ensures pre step mid := by
  intro s hs b t ran
  obtain ⟨b', t', ran', hb⟩ := h s hs
  cases ran.symm.trans ran'
  exact hb

/-- What is not lost holds afterwards. -/
theorem Keeps.ensures {kept : σ → Prop} {step : Step σ β} (h : Keeps (Retains kept) step) :
    Ensures kept step fun _ => kept := by
  intro s hs b t ran
  have after := h s hs
  rwa [ran] at after

theorem Ensures.bind {x : Step σ β} {f : β → Step σ δ} (hx : Ensures pre x mid)
    (hf : ∀ b, Ensures (mid b) (f b) post) : Ensures pre (x >>= f) post := by
  intro s hs c u ran
  obtain ⟨b, t, first, next⟩ := answer_bind_ok.1 ran
  exact hf b t (hx s hs b t first) c u next

theorem Ensures.pure {b : β} (h : ∀ s, pre s → mid b s) : Ensures pre (Pure.pure b) mid :=
  (Yields.pure h).ensures

theorem Ensures.map {x : Step σ β} {f : β → δ} (hx : Ensures pre x mid)
    (h : ∀ b s, mid b s → post (f b) s) : Ensures pre (f <$> x) post := by
  rw [map_eq_pure_bind]
  exact hx.bind fun b => Ensures.pure (h b)

/-- What holds of the state that is read still holds. -/
theorem Ensures.read_bind {f : σ → Step σ δ} (h : ∀ s, pre s → Ensures pre (f s) post) :
    Ensures pre (MonadState.get >>= f) post := fun s hs b t ran =>
  h s hs s hs b t ((answer_get_bind f s).symm.trans ran)

theorem Ensures.ofLayout {result : Except LayoutError β}
    (h : ∀ b, result = .ok b → ∀ s, pre s → mid b s) : Ensures pre (Step.ofLayout result) mid := by
  intro s hs b t ran
  cases result with
  | error e => cases ran
  | ok b' =>
    cases ran
    exact h _ rfl _ hs

/-- Less may be promised, and more asked for. -/
theorem Ensures.imp {step : Step σ β} {pre' : σ → Prop} {mid' : β → σ → Prop}
    (h : Ensures pre step mid) (enter : ∀ s, pre' s → pre s) (leave : ∀ b s, mid b s → mid' b s) :
    Ensures pre' step mid' := fun s hs b t ran => leave b t (h s (enter s hs) b t ran)

theorem Ensures.of_imp {step : Step σ β} {pre' : σ → Prop} (h : Ensures pre step mid)
    (enter : ∀ s, pre' s → pre s) : Ensures pre' step mid := h.imp enter fun _ _ k => k

/-- What follows from the property before a step may be used for it. -/
theorem Ensures.given {step : Step σ β} {p : Prop} (known : ∀ s, pre s → p)
    (h : p → Ensures pre step mid) : Ensures pre step mid := fun s hs => h (known s hs) s hs

theorem Ensures.ofLayout_bind {result : Except LayoutError β} {f : β → Step σ δ}
    (h : ∀ b, result = .ok b → Ensures pre (f b) post) :
    Ensures pre (Step.ofLayout result >>= f) post := by
  cases result with
  | error e => exact fun s _ b t ran => nomatch ran
  | ok b => exact h b rfl

theorem Ensures.within {part : τ → σ} {replace : τ → σ → τ} {step : Step σ β} {outer : τ → Prop}
    {final : β → τ → Prop} (h : Ensures pre step mid) (enter : ∀ w, outer w → pre (part w))
    (leave : ∀ w, outer w → ∀ b s, mid b s → final b (replace w s)) :
    Ensures outer (Step.within part replace step) final := by
  intro w hw b t ran
  rw [answer_within] at ran
  rcases inner : Outcome.answer step (part w) with ⟨r, s⟩
  rw [inner] at ran
  cases ran
  exact leave w hw b s (h (part w) (enter w hw) b s inner)

/-- A fold whose steps lead from one invariant to the next. -/
theorem Ensures.foldlM {ι : Type} {f : δ → ι → Step σ δ} {kept : δ → σ → Prop} {items : List ι}
    (h : ∀ i ∈ items, ∀ c, Ensures (kept c) (f c i) kept) (c : δ) :
    Ensures (kept c) (items.foldlM f c) kept := by
  induction items generalizing c with
  | nil => exact Ensures.pure fun s hs => hs
  | cons i rest ih =>
    rw [List.foldlM_cons]
    exact (h i List.mem_cons_self c).bind fun c' =>
      ih (fun j hj => h j (List.mem_cons_of_mem _ hj)) c'

theorem Ensures.forM {ι : Type} {f : ι → Step σ Unit} {kept : σ → Prop} {items : List ι}
    (h : ∀ i ∈ items, Ensures kept (f i) fun _ => kept) :
    Ensures kept (items.forM f) fun _ => kept := by
  induction items with
  | nil => exact Ensures.pure fun s hs => hs
  | cons i rest ih =>
    exact (h i List.mem_cons_self).bind fun _ => ih fun j hj => h j (List.mem_cons_of_mem _ hj)

/-- Rounds that can follow one another, as often as they succeed. -/
theorem Ensures.times {step : Step σ β} {kept : σ → Prop} {good : β → Prop}
    (h : Ensures kept step fun b s => kept s ∧ good b) (n : Nat) :
    Ensures kept (step.times n) fun bs s => kept s ∧ bs.length = n ∧ ∀ b ∈ bs, good b := by
  induction n with
  | zero => exact Ensures.pure fun s hs => ⟨hs, rfl, fun _ h => absurd h List.not_mem_nil⟩
  | succ n ih =>
    refine h.bind fun b => Ensures.given (fun _ k => k.2) fun first => ?_
    refine (ih.of_imp fun _ k => k.1).bind fun bs => ?_
    exact Ensures.pure fun _ k =>
      ⟨k.1, congrArg (· + 1) k.2.1, List.forall_mem_cons.2 ⟨first, k.2.2⟩⟩

end Step

end Counsel
