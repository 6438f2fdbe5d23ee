import Mathlib.Data.List.Induction
import Mathlib.Data.List.TakeWhile
import Remembra.V6.Policy

/-! The layers of explicit policy. They are sorted by their source, stably, and the first of the most
    restrictive ones speaks. So another layer never makes a decision weaker; but of two layers with one
    source and one effect it is the order of the caller that decides whose reason is given. -/

namespace Remembra.V6
open Store (JsNum)

section Speaker
variable {l layers layers' before after : List PolicyLayer} {a b : PolicyLayer}

/-- The layer whose effect and reason survive. -/
def speaker (layers : List PolicyLayer) : Option PolicyLayer :=
  (layers.insertionSort fun a b => a.source.index ≤ b.source.index).foldl moreRestrictive none

/-- What a layer decides. -/
def PolicyLayer.decision (a : PolicyLayer) : Decision := ⟨a.effect, a.reason⟩

theorem resolveLayers_eq (layers : List PolicyLayer) :
    resolveLayers layers = (speaker layers).map PolicyLayer.decision := rfl

theorem Effect.eq_of_rank_eq {e e' : Effect} (h : e.rank = e'.rank) : e = e' := by
  cases e <;> cases e' <;> first | rfl | cases h

theorem PolicySource.eq_of_index_eq {s s' : PolicySource} (h : s.index = s'.index) : s = s' := by
  cases s <;> cases s' <;> first | rfl | cases h

theorem Effect.rank_le_deny (e : Effect) : e.rank ≤ Effect.deny.rank := by
  cases e <;> decide

/-- The layer is more restrictive than those before it, and no less than those after it. -/
structure Leading (before : List PolicyLayer) (b : PolicyLayer) (after : List PolicyLayer) : Prop where
  before : ∀ a ∈ before, a.effect.rank < b.effect.rank
  after : ∀ a ∈ after, a.effect.rank ≤ b.effect.rank

/-- The best so far is one of the layers. -/
theorem foldl_moreRestrictive_mem (h : l.foldl moreRestrictive none = some b) : b ∈ l := by
  induction l using List.reverseRecOn generalizing b with
  | nil => cases h
  | append_singleton l a ih =>
    rw [List.foldl_append, List.foldl_cons, List.foldl_nil] at h
    cases hl : l.foldl moreRestrictive none with
    | none =>
      rw [hl] at h
      cases h
      simp
    | some c =>
      rw [hl, moreRestrictive] at h
      split at h
      · cases h
        simp
      · cases h
        exact List.mem_append_left _ (ih hl)

theorem foldl_moreRestrictive_of_le (h : ∀ a ∈ after, a.effect.rank ≤ b.effect.rank) :
    after.foldl moreRestrictive (some b) = some b := by
  induction after with
  | nil => rfl
  | cons a after ih =>
    have ha : ¬ b.effect.rank < a.effect.rank := Nat.not_lt.mpr (h a List.mem_cons_self)
    rw [List.foldl_cons, moreRestrictive, if_neg ha]
    exact ih fun c hc => h c (List.mem_cons_of_mem _ hc)

theorem Leading.foldl_eq (h : Leading before b after) :
    (before ++ b :: after).foldl moreRestrictive none = some b := by
  have hfirst : moreRestrictive (before.foldl moreRestrictive none) b = some b := by
    cases hbest : before.foldl moreRestrictive none with
    | none => rfl
    | some c =>
      rw [moreRestrictive, if_pos (h.before c (foldl_moreRestrictive_mem hbest))]
  rw [List.foldl_append, List.foldl_cons, hfirst]
  exact foldl_moreRestrictive_of_le h.after

theorem exists_leading (hne : l ≠ []) : ∃ before b after, l = before ++ b :: after ∧
    Leading before b after := by
  induction l using List.reverseRecOn with
  | nil => exact absurd rfl hne
  | append_singleton l a ih =>
    by_cases hl : l = []
    · exact ⟨[], a, [], by simp [hl], ⟨by simp, by simp⟩⟩
    · obtain ⟨before, b, after, rfl, h⟩ := ih hl
      by_cases hlt : b.effect.rank < a.effect.rank
      · refine ⟨before ++ b :: after, a, [], rfl, ⟨fun c hc => ?_, by simp⟩⟩
        rcases List.mem_append.mp hc with hc | hc
        · exact (h.before c hc).trans hlt
        · rcases List.mem_cons.mp hc with rfl | hc
          · exact hlt
          · exact (h.after c hc).trans_lt hlt
      · refine ⟨before, b, after ++ [a], by simp, ⟨h.before, fun c hc => ?_⟩⟩
        rcases List.mem_append.mp hc with hc | hc
        · exact h.after c hc
        · obtain rfl := List.mem_singleton.mp hc
          exact Nat.not_lt.mp hlt

/-- No layer is more restrictive, and none that is as restrictive has an earlier source. -/
structure Foremost (layers : List PolicyLayer) (a : PolicyLayer) : Prop where
  mem : a ∈ layers
  effect : ∀ l ∈ layers, l.effect.rank ≤ a.effect.rank
  source : ∀ l ∈ layers, l.effect = a.effect → a.source.index ≤ l.source.index

theorem Foremost.perm (h : Foremost layers a) (hperm : layers'.Perm layers) : Foremost layers' a where
  mem := hperm.mem_iff.mpr h.mem
  effect l hl := h.effect l (hperm.mem_iff.mp hl)
  source l hl := h.source l (hperm.mem_iff.mp hl)

theorem exists_foremost (hne : layers ≠ []) : ∃ a, speaker layers = some a ∧ Foremost layers a := by
  have hperm := List.perm_insertionSort (fun a b : PolicyLayer => a.source.index ≤ b.source.index) layers
  obtain ⟨before, b, after, hsort, h⟩ := exists_leading (l := layers.insertionSort _) fun hnil => hne
    (List.Perm.eq_nil (hnil ▸ hperm).symm)
  have hsorted := List.pairwise_insertionSort
    (fun a b : PolicyLayer => a.source.index ≤ b.source.index) layers
  rw [hsort] at hperm hsorted
  have hmem : ∀ l ∈ layers, l ∈ before ∨ l = b ∨ l ∈ after := fun l hl => by
    simpa using hperm.mem_iff.mpr hl
  refine ⟨b, by rw [speaker, hsort]; exact h.foldl_eq, hperm.mem_iff.mp (by simp), fun l hl => ?_,
    fun l hl heffect => ?_⟩
  · rcases hmem l hl with hl | rfl | hl
    · exact (h.before l hl).le
    · exact le_refl _
    · exact h.after l hl
  · rcases hmem l hl with hl | rfl | hl
    · exact absurd (h.before l hl) (by simp [heffect])
    · exact le_refl _
    · exact (List.pairwise_cons.mp (List.pairwise_append.mp hsorted).2.1).1 l hl

/-- A foremost layer speaks when it is supplied first. -/
theorem Foremost.speaks (h : Foremost (a :: layers) a) : speaker (a :: layers) = some a := by
  rw [speaker, List.insertionSort_cons_eq_take_drop]
  have hmem : ∀ {l}, l ∈ layers.insertionSort (fun a b => a.source.index ≤ b.source.index) →
      l ∈ a :: layers := fun hl =>
    List.mem_cons_of_mem _ ((List.mem_insertionSort _).mp hl)
  refine Leading.foldl_eq ⟨fun l hl => ?_, fun l hl => ?_⟩
  · have hearlier := List.mem_takeWhile_imp hl
    have hin := hmem ((List.takeWhile_sublist _).subset hl)
    refine lt_of_le_of_ne (h.effect l hin) fun hrank => ?_
    simp [h.source l hin (Effect.eq_of_rank_eq hrank)] at hearlier
  · exact h.effect l (hmem ((List.dropWhile_sublist _).subset hl))

end Speaker

/-! ### The order of the layers -/

section Order
variable {layers layers' : List PolicyLayer} {a b : PolicyLayer}

/-- Two foremost layers of one source and one effect give different reasons. -/
structure Contested (layers : List PolicyLayer) (a b : PolicyLayer) : Prop where
  first : Foremost layers a
  second : Foremost layers b
  source : a.source = b.source
  effect : a.effect = b.effect
  reasons : a.reason ≠ b.reason

theorem Foremost.resolves (h : Foremost layers a) : ∃ layers', layers'.Perm layers ∧
    resolveLayers layers' = some a.decision := by
  obtain ⟨before, after, rfl⟩ := List.append_of_mem h.mem
  have hperm : (a :: (before ++ after)).Perm (before ++ a :: after) := List.perm_middle.symm
  refine ⟨a :: (before ++ after), hperm, ?_⟩
  rw [resolveLayers_eq, (h.perm hperm).speaks]
  rfl

/-- Layers in another order resolve to the same effect, and to the same decision unless it is contested. -/
theorem resolveLayers_perm (hperm : layers'.Perm layers) :
    resolveLayers layers' = resolveLayers layers ∨ ∃ a b, Contested layers a b ∧
      resolveLayers layers' = some a.decision ∧ resolveLayers layers = some b.decision := by
  by_cases hne : layers = []
  · obtain rfl := hne
    exact .inl (by rw [hperm.eq_nil])
  · have hne' : layers' ≠ [] := fun hnil => hne (List.Perm.eq_nil (hnil ▸ hperm).symm)
    obtain ⟨a, hspeaks, ha⟩ := exists_foremost hne'
    obtain ⟨b, hspeaks', hb⟩ := exists_foremost hne
    have ha := ha.perm hperm.symm
    have heffect : a.effect = b.effect :=
      Effect.eq_of_rank_eq (le_antisymm (hb.effect a ha.mem) (ha.effect b hb.mem))
    have hsource : a.source = b.source := PolicySource.eq_of_index_eq
      (le_antisymm (ha.source b hb.mem heffect.symm) (hb.source a ha.mem heffect))
    rw [resolveLayers_eq, resolveLayers_eq, hspeaks, hspeaks', Option.map_some, Option.map_some]
    by_cases hreason : a.reason = b.reason
    · exact .inl (by rw [PolicyLayer.decision, PolicyLayer.decision, heffect, hreason])
    · exact .inr ⟨a, b, ⟨ha, hb, hsource, heffect, hreason⟩, rfl, rfl⟩

/-- Another layer makes the resolved effect no weaker. -/
theorem layerEffect_mono (before after : List PolicyLayer) (layer : PolicyLayer) :
    (layerEffect (before ++ after)).rank ≤ (layerEffect (before ++ layer :: after)).rank := by
  by_cases hne : before ++ after = []
  · rw [hne]
    exact Nat.zero_le _
  · obtain ⟨a, hspeaks, ha⟩ := exists_foremost hne
    obtain ⟨b, hspeaks', hb⟩ := exists_foremost (show before ++ layer :: after ≠ [] by simp)
    have hmem : a ∈ before ++ layer :: after := by
      rcases List.mem_append.mp ha.mem with hmem | hmem
      · exact List.mem_append_left _ hmem
      · exact List.mem_append_right _ (List.mem_cons_of_mem _ hmem)
    rw [layerEffect, layerEffect, resolveLayers_eq, resolveLayers_eq, hspeaks, hspeaks']
    exact hb.effect a hmem

end Order

/-! ### The two evaluators -/

section Laws

/-- The decision does not depend on the order of the layers, and another layer makes it no weaker. -/
structure LayerLaws (input : EvaluationInput) : Prop where
  order : ∀ layers : List PolicyLayer, layers.Perm input.policy →
    evaluateV6Policy { input with policy := layers } = evaluateV6Policy input
  monotone : ∀ before layer after, input.policy = before ++ after →
    (evaluateV6Policy input).effect.rank ≤
      (evaluateV6Policy { input with policy := before ++ layer :: after }).effect.rank

/-- The same of the policy model's evaluator, which throws where it does not decide. -/
structure SuppliedLaws (input : PolicyInput) : Prop where
  order : ∀ layers : List (Except String PolicyLayer), layers.Perm (input.layers.getD []) →
    (evaluatePolicy { input with layers := some layers }).toOption = (evaluatePolicy input).toOption
  monotone : ∀ before layer after d, input.layers.getD [] = before ++ after →
    evaluatePolicy input = .ok d →
    ∃ d', evaluatePolicy { input with layers := some (before ++ .ok layer :: after) } = .ok d' ∧
      d.effect.rank ≤ d'.effect.rank

/-- The evaluator gets as far as to give the reason of a layer with this effect: a denial is given before
    the axes other than the binding of the resource, any other effect after them. -/
def Heard (input : EvaluationInput) (effect : Effect) : Prop :=
  isMalformed input = false ∧
    (input.memory.organizationId.any (· ≠ input.principal.organizationId) = false ∧
      input.memory.projectId.any (some · ≠ input.principal.projectId) = false) ∧
    (effect = .deny ∨ Permitted input)

variable {input : EvaluationInput} {layers layers' : List PolicyLayer} {d d' : Decision}

variable (input) in
/-- No axis but the layers reads the layers. -/
theorem permitted_withPolicy (h : Permitted { input with policy := layers }) : Permitted input where
  organization := h.organization
  project := h.project
  capability := h.capability
  provider := h.provider
  unexpired := h.unexpired
  clearance := h.clearance
  hold := h.hold
  trust := h.trust

theorem evaluate_congr (h : resolveLayers layers = resolveLayers layers') :
    evaluateV6Policy { input with policy := layers } =
      evaluateV6Policy { input with policy := layers' } := by
  simp only [evaluateV6Policy, isMalformed, h]

/-- What is heard is decided as the layers say. -/
theorem evaluate_heard (h : Heard input d.effect) (hlayers : resolveLayers layers = some d) :
    evaluateV6Policy { input with policy := layers } = d := by
  obtain ⟨hmalformed, ⟨ho, hproject⟩, heffect⟩ := h
  have hwell : isMalformed { input with policy := layers } = false := hmalformed
  unfold evaluateV6Policy
  simp only [hwell, ho, hproject, hlayers, Bool.false_eq_true, if_false]
  rcases heffect with hdeny | hp
  · obtain ⟨effect, reason⟩ := d
    obtain rfl : effect = .deny := hdeny
    rfl
  · obtain ⟨-, -, hcapability, hprovider, hexpired, hclearance, hhold, htrust⟩ := hp
    have hcover := Nat.not_lt.mpr hclearance
    by_cases hdeny : d.effect = .deny
    · obtain ⟨effect, reason⟩ := d
      obtain rfl : effect = .deny := hdeny
      rfl
    · simp [Option.filter, hdeny, hcapability, hprovider, hexpired, hcover, hhold, htrust]

/-- Where the layers are not heard, their reason does not matter. -/
theorem evaluate_unheard (h : ¬ Heard input d.effect) (hsame : d'.effect = d.effect)
    (hlayers : resolveLayers layers = some d) (hlayers' : resolveLayers layers' = some d') :
    evaluateV6Policy { input with policy := layers } =
      evaluateV6Policy { input with policy := layers' } := by
  have hmalformed (l : List PolicyLayer) : isMalformed { input with policy := l } = isMalformed input := rfl
  by_cases hdeny : d.effect = .deny
  · unfold evaluateV6Policy
    simp only [hmalformed, hlayers, hlayers', Option.filter, hsame, hdeny, decide_true, if_true]
    split_ifs with hwell ho hproject
    any_goals rfl
    exact absurd ⟨eq_false_of_ne_true hwell, ⟨eq_false_of_ne_true ho, eq_false_of_ne_true hproject⟩,
      .inl hdeny⟩ h
  · have hdeny' : ¬ d'.effect = .deny := hsame ▸ hdeny
    unfold evaluateV6Policy
    simp only [hmalformed, hlayers, hlayers', Option.filter, hdeny, hdeny', decide_false,
      Bool.false_eq_true, if_false]
    split_ifs with hwell ho hproject hcapability hprovider hexpired hclearance hhold htrust
    any_goals rfl
    refine absurd ⟨eq_false_of_ne_true hwell, ⟨eq_false_of_ne_true ho, eq_false_of_ne_true hproject⟩,
      .inr ?_⟩ h
    exact {
      organization := eq_false_of_ne_true ho
      project := eq_false_of_ne_true hproject
      capability := hcapability
      provider := by simpa using hprovider
      unexpired := eq_false_of_ne_true hexpired
      clearance := Nat.le_of_not_lt hclearance
      hold := by simpa using hhold
      trust := htrust }

/-- The decision is one for all orders exactly when no contested layers are heard. -/
theorem evaluate_order_iff :
    (∀ layers : List PolicyLayer, layers.Perm input.policy →
      evaluateV6Policy { input with policy := layers } = evaluateV6Policy input) ↔
    ∀ a b, Contested input.policy a b → ¬ Heard input a.effect := by
  constructor
  · intro hsame a b h hheard
    obtain ⟨first, hfirst, hdecides⟩ := h.first.resolves
    obtain ⟨second, hsecond, hdecides'⟩ := h.second.resolves
    have ha := (evaluate_heard (d := a.decision) hheard hdecides).symm.trans (hsame first hfirst)
    have hb := (evaluate_heard (d := b.decision) (show Heard input b.effect from h.effect ▸ hheard)
      hdecides').symm.trans (hsame second hsecond)
    exact h.reasons (congrArg Decision.reason (ha.trans hb.symm))
  · intro hquiet layers hperm
    rcases resolveLayers_perm hperm with hsame | ⟨a, b, h, ha, hb⟩
    · exact evaluate_congr hsame
    · exact evaluate_unheard (d := a.decision) (hquiet a b h)
        (show b.decision.effect = a.decision.effect from h.effect.symm) ha hb

variable (input) in
theorem evaluate_mono (before after : List PolicyLayer) (layer : PolicyLayer) :
    (evaluateV6Policy { input with policy := before ++ after }).effect.rank ≤
      (evaluateV6Policy { input with policy := before ++ layer :: after }).effect.rank := by
  by_cases hwell : isMalformed input = false
  · by_cases hp : Permitted { input with policy := before ++ after }
    · rw [evaluate_permitted (show isMalformed { input with policy := before ++ after } = false from hwell) hp,
        evaluate_permitted (show isMalformed { input with policy := before ++ layer :: after } = false from hwell)
          (permitted_withPolicy { input with policy := before ++ layer :: after } hp)]
      exact layerEffect_mono before after layer
    · have hp' : ¬ Permitted { input with policy := before ++ layer :: after } := fun h =>
        hp (permitted_withPolicy { input with policy := before ++ after } h)
      rw [evaluate_refused hp']
      exact Effect.rank_le_deny _
  · rw [evaluate_malformed (show isMalformed { input with policy := before ++ layer :: after } = true from
      Bool.eq_true_of_not_eq_false hwell)]
    exact Effect.rank_le_deny _

theorem layerLaws_iff (input : EvaluationInput) :
    LayerLaws input ↔ ∀ a b, Contested input.policy a b → ¬ Heard input a.effect := by
  refine ⟨fun h => evaluate_order_iff.mp h.order, fun h => ⟨evaluate_order_iff.mpr h, ?_⟩⟩
  intro before layer after hpolicy
  have hmono := evaluate_mono input before after layer
  rwa [← hpolicy] at hmono

/-! ### The evaluator of the policy model -/

variable {operation : PolicyOperation} {principal : PolicyPrincipal} {memory : EvaluationMemory}
  {now : JsNum} {raw raw' : PolicyInput} {supplied : List (Except String PolicyLayer)}

/-- The memory, whose expiry counts only where it is finite. -/
def EvaluationMemory.finitelyExpiring (memory : EvaluationMemory) : EvaluationMemory :=
  { memory with expiresAt := memory.expiresAt.filter isFinite }

variable (layers) in
theorem decidePolicy_finitelyExpiring : decidePolicy operation principal memory layers now =
    decidePolicy operation principal memory.finitelyExpiring layers now := by
  have hexpiry : (memory.expiresAt.any fun t => isFinite t && numLe t now) =
      ((memory.expiresAt.filter isFinite).any fun t => isFinite t && numLe t now) := by
    cases memory.expiresAt with
    | none => rfl
    | some t => cases ht : isFinite t <;> simp [Option.filter, ht]
  simp only [decidePolicy, EvaluationMemory.finitelyExpiring, hexpiry]
  rfl

/-- No axis but the layers refuses. -/
def Passes (operation : PolicyOperation) (principal : PolicyPrincipal) (memory : EvaluationMemory)
    (now : JsNum) : Prop :=
  Permitted (evaluationInput operation principal memory.finitelyExpiring [] now)

theorem Passes.permitted (h : Passes operation principal memory now) (layers : List PolicyLayer) :
    Permitted (evaluationInput operation principal memory.finitelyExpiring layers now) :=
  permitted_withPolicy (evaluationInput operation principal memory.finitelyExpiring layers now) h

theorem decidePolicy_passes (h : Passes operation principal memory now) :
    decidePolicy operation principal memory layers now =
      (resolveLayers layers).getD ⟨.allow, .authorized⟩ := by
  rw [decidePolicy_finitelyExpiring _, decidePolicy_permitted (h.permitted layers)]

variable (layers layers') in
/-- Where another axis refuses, the layers do not matter. -/
theorem decidePolicy_not_passes (h : ¬ Passes operation principal memory now) :
    (decidePolicy operation principal memory layers now).effect = .deny ∧
      decidePolicy operation principal memory layers' now =
        decidePolicy operation principal memory layers now := by
  rw [decidePolicy_finitelyExpiring layers, decidePolicy_finitelyExpiring layers']
  refine decidePolicy_refused ?_ (fun hp => h ?_) layers'
  · cases he : memory.expiresAt.filter isFinite with
    | none => simp [EvaluationMemory.finitelyExpiring, he]
    | some t => simpa [EvaluationMemory.finitelyExpiring, he] using (Option.filter_eq_some_iff.mp he).2
  · exact permitted_withPolicy (evaluationInput operation principal memory.finitelyExpiring [] now) hp

theorem mapM_suppliedLayer_eq_ok :
    supplied.mapM suppliedLayer = .ok layers ↔ supplied = layers.map .ok := by
  refine ⟨fun h => ?_, fun h => h ▸ mapM_suppliedLayer layers⟩
  induction supplied generalizing layers with
  | nil =>
    cases h
    rfl
  | cons layer supplied ih =>
    cases layer with
    | error issue => cases h
    | ok layer =>
      cases htail : supplied.mapM suppliedLayer with
      | error e => simp [suppliedLayer, Except.mapError, htail, bind, Except.bind] at h
      | ok rest =>
        simp [suppliedLayer, Except.mapError, htail, bind, Except.bind, pure, Except.pure] at h
        rw [← h, List.map_cons, ih htail]

theorem evaluatePolicy_eq_ok {d : Decision} : evaluatePolicy raw = .ok d ↔
    isFinite (raw.now.getD (.finite 0)) = true ∧ ∃ layers, raw.layers.getD [] = layers.map .ok ∧
      d = decidePolicy raw.operation raw.principal raw.memory layers (raw.now.getD (.finite 0)) := by
  unfold evaluatePolicy
  by_cases hnow : isFinite (raw.now.getD (.finite 0)) = true
  · simp only [hnow, Bool.not_true, Bool.false_eq_true, if_false, true_and]
    cases hlayers : (raw.layers.getD []).mapM suppliedLayer with
    | error e =>
      simp only [bind, Except.bind, reduceCtorEq, false_iff, not_exists]
      rintro layers ⟨hmap, -⟩
      rw [mapM_suppliedLayer_eq_ok.mpr hmap] at hlayers
      cases hlayers
    | ok layers =>
      have hmap := mapM_suppliedLayer_eq_ok.mp hlayers
      simp only [bind, Except.bind, Except.ok.injEq]
      constructor
      · rintro rfl
        exact ⟨layers, hmap, rfl⟩
      · rintro ⟨other, hother, rfl⟩
        have hsame : layers = other := by
          rw [hother, mapM_suppliedLayer] at hlayers
          exact (Except.ok.inj hlayers).symm
        rw [hsame]
  · simp [hnow]

theorem exists_of_perm_map_ok (h : supplied.Perm (layers.map .ok)) :
    ∃ layers' : List PolicyLayer, supplied = layers'.map .ok ∧ layers'.Perm layers := by
  have hok : ∀ layer ∈ supplied, ∃ a, layer = Except.ok a := fun layer hlayer => by
    obtain ⟨a, -, rfl⟩ := List.mem_map.mp (h.mem_iff.mp hlayer)
    exact ⟨a, rfl⟩
  refine ⟨supplied.filterMap Except.toOption, ?_, ?_⟩
  · clear h
    induction supplied with
    | nil => rfl
    | cons layer supplied ih =>
      obtain ⟨a, rfl⟩ := hok layer List.mem_cons_self
      exact congrArg (Except.ok a :: ·) (ih fun l hl => hok l (List.mem_cons_of_mem _ hl))
  · have hback : (layers.map (Except.ok (ε := String))).filterMap Except.toOption = layers := by
      rw [List.filterMap_map]
      exact List.filterMap_some
    exact hback ▸ h.filterMap Except.toOption

theorem withLayers_eq_ok {d : Decision} :
    evaluatePolicy { raw with layers := some (layers.map .ok) } = .ok d ↔
      isFinite (raw.now.getD (.finite 0)) = true ∧
        d = decidePolicy raw.operation raw.principal raw.memory layers (raw.now.getD (.finite 0)) := by
  rw [evaluatePolicy_eq_ok]
  refine and_congr_right fun _ => ⟨?_, fun h => ⟨layers, rfl, h⟩⟩
  rintro ⟨other, hother, rfl⟩
  have hsame : layers = other := List.map_injective_iff.mpr (fun _ _ => Except.ok.inj) hother
  rw [hsame]

/-- The policy model's decision is one for all orders exactly when no contested layers are reached. -/
theorem evaluatePolicy_order_iff :
    (∀ layers : List (Except String PolicyLayer), layers.Perm (raw.layers.getD []) →
      (evaluatePolicy { raw with layers := some layers }).toOption = (evaluatePolicy raw).toOption) ↔
    ∀ layers, raw.layers.getD [] = layers.map .ok → isFinite (raw.now.getD (.finite 0)) = true →
      Passes raw.operation raw.principal raw.memory (raw.now.getD (.finite 0)) →
      ∀ a b, ¬ Contested layers a b := by
  have heq (l : List PolicyLayer) (hnow : isFinite (raw.now.getD (.finite 0)) = true) :
      evaluatePolicy { raw with layers := some (l.map .ok) } = .ok (decidePolicy raw.operation
        raw.principal raw.memory l (raw.now.getD (.finite 0))) := withLayers_eq_ok.mpr ⟨hnow, rfl⟩
  constructor
  · intro hsame layers hlayers hnow hpasses a b h
    have hdecides : ∀ c, Foremost layers c → (evaluatePolicy raw).toOption = some c.decision := by
      intro c hc
      obtain ⟨order, horder, hresolves⟩ := hc.resolves
      have hgiven := hsame (order.map .ok) (hlayers ▸ horder.map Except.ok)
      rw [heq order hnow, decidePolicy_passes hpasses, hresolves] at hgiven
      exact hgiven.symm
    have hone := (hdecides a h.first).symm.trans (hdecides b h.second)
    exact h.reasons (congrArg Decision.reason (Option.some.inj hone))
  · intro hquiet supplied hperm
    refine Option.ext fun d => ?_
    have hiff {input : PolicyInput} : (evaluatePolicy input).toOption = some d ↔
        evaluatePolicy input = .ok d := by
      cases evaluatePolicy input <;> simp [Except.toOption]
    rw [hiff, hiff, evaluatePolicy_eq_ok, evaluatePolicy_eq_ok]
    refine and_congr_right fun hnow => ?_
    have hdecision : ∀ l l', l'.Perm l → raw.layers.getD [] = l.map .ok →
        decidePolicy raw.operation raw.principal raw.memory l' (raw.now.getD (.finite 0)) =
          decidePolicy raw.operation raw.principal raw.memory l (raw.now.getD (.finite 0)) := by
      intro l l' hl hraw
      by_cases hpasses : Passes raw.operation raw.principal raw.memory (raw.now.getD (.finite 0))
      · rw [decidePolicy_passes hpasses, decidePolicy_passes hpasses]
        rcases resolveLayers_perm hl with hsame | ⟨a, b, h, -, -⟩
        · rw [hsame]
        · exact absurd h (hquiet l hraw hnow hpasses a b)
      · exact (decidePolicy_not_passes _ _ hpasses).2
    constructor
    · rintro ⟨l', hl', rfl⟩
      obtain rfl : supplied = l'.map .ok := hl'
      obtain ⟨l, hl, hback⟩ := exists_of_perm_map_ok hperm.symm
      exact ⟨l, hl, hdecision l l' hback.symm hl⟩
    · rintro ⟨l, hl, rfl⟩
      obtain ⟨l', hl', hback⟩ := exists_of_perm_map_ok (hl ▸ hperm)
      exact ⟨l', hl', (hdecision l l' hback hl).symm⟩

theorem decidePolicy_mono (before after : List PolicyLayer) (layer : PolicyLayer) :
    (decidePolicy operation principal memory (before ++ after) now).effect.rank ≤
      (decidePolicy operation principal memory (before ++ layer :: after) now).effect.rank := by
  by_cases hpasses : Passes operation principal memory now
  · rw [decidePolicy_finitelyExpiring _, decidePolicy_finitelyExpiring (before ++ layer :: after),
      policy_permitted (hpasses.permitted _), policy_permitted (hpasses.permitted _)]
    exact layerEffect_mono before after layer
  · rw [(decidePolicy_not_passes (before ++ layer :: after) [] hpasses).1]
    exact Effect.rank_le_deny _

theorem suppliedLaws_iff (raw : PolicyInput) :
    SuppliedLaws raw ↔
      ∀ layers, raw.layers.getD [] = layers.map .ok → isFinite (raw.now.getD (.finite 0)) = true →
        Passes raw.operation raw.principal raw.memory (raw.now.getD (.finite 0)) →
        ∀ a b, ¬ Contested layers a b := by
  refine ⟨fun h => evaluatePolicy_order_iff.mp h.order,
    fun h => ⟨evaluatePolicy_order_iff.mpr h, fun before layer after d hraw hd => ?_⟩⟩
  obtain ⟨hnow, layers, hlayers, rfl⟩ := evaluatePolicy_eq_ok.mp hd
  rw [hraw] at hlayers
  obtain ⟨front, back, rfl, rfl, rfl⟩ := List.append_eq_map_iff.mp hlayers
  have hgiven : front.map Except.ok ++ .ok layer :: back.map Except.ok =
      (front ++ layer :: back).map (Except.ok (ε := String)) := by simp
  exact ⟨_, evaluatePolicy_eq_ok.mpr ⟨hnow, front ++ layer :: back, hgiven, rfl⟩,
    decidePolicy_mono front back layer⟩

end Laws

/-- Both evaluators: every order of the layers gives one decision and another layer makes it no weaker,
    exactly when no two layers contest a reason that is given. -/
theorem layers_alike_iff (input : EvaluationInput) (raw : PolicyInput) :
    (LayerLaws input ↔ ∀ a b, Contested input.policy a b → ¬ Heard input a.effect) ∧
    (SuppliedLaws raw ↔
      ∀ layers, raw.layers.getD [] = layers.map .ok → isFinite (raw.now.getD (.finite 0)) = true →
        Passes raw.operation raw.principal raw.memory (raw.now.getD (.finite 0)) →
        ∀ a b, ¬ Contested layers a b) :=
  ⟨layerLaws_iff input, suppliedLaws_iff raw⟩

/-- Two layers of the tenant, which deny for different reasons. -/
def expiredThenHeld : List PolicyLayer := [⟨.tenant, .deny, .expired⟩, ⟨.tenant, .deny, .legalHold⟩]

def currentMemory : EvaluationMemory := { expiredMemory with sensitivity := .isPublic, expiresAt := none }

/-- The first of the two gives the reason, so that it depends on the order of the caller. -/
theorem order_decides_reason :
    ¬ LayerLaws (evaluationInput .read projectReader currentMemory expiredThenHeld (.finite 5)) ∧
    ¬ SuppliedLaws (policyInput .read projectReader currentMemory expiredThenHeld (.finite 5)) := by
  have hperm : expiredThenHeld.reverse.Perm expiredThenHeld := List.reverse_perm _
  refine ⟨fun h => absurd (h.order expiredThenHeld.reverse hperm) (by decide +kernel), fun h =>
    absurd (h.order (expiredThenHeld.reverse.map .ok) (hperm.map Except.ok)) (by decide +kernel)⟩

end Remembra.V6
