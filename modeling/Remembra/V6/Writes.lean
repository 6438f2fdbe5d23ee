import Remembra.Lib.Transition
import Remembra.V6.Guarded

/-! What the guarded service writes. The guard decides on the row as it is before the patch, and a store
    is decided on as `pending`, so the policy holds of what is written exactly where the patch of an update
    stays within it and no row is called `pending` yet (`writes_inside_iff`). A patch that names another
    organization is written as it is (`patch_moves_row`). -/

namespace Remembra.V6
open Store (JsNum)
open Service (bandIndex)
open Transition

/-! ### Runs of calls -/

/-- One call: when, by whom and which. -/
structure Step where
  now : JsNum
  context : RequestContext
  request : Request

/-- The backend after a call, whatever the call answers. -/
def after (number : ℚ → String) (s : Backend) (e : Step) : Backend :=
  (call number e.now e.context e.request s).2

/-- The same as a machine: every call can be made in every state. -/
def machine (number : ℚ → String) (s : Backend) (e : Step) : Option Backend := some (after number s e)

/-- The record that a call updates, if it does. -/
def Request.updates : Request → Option (String × RowPatch)
  | .update id patch => some (id, patch)
  | .archive id | .revive id => some (id, {})
  | _ => none

def Request.isStore : Request → Bool
  | .store _ => true
  | _ => false

/-! ### What the policy asks of a call -/

/-- The call has put this row, or the row is in the backend as it was not before. -/
def Touched (s s' : Backend) (row : GuardedRow) : Prop :=
  .put row ∈ s'.writes.drop s.writes.length ∨ ∃ id, s'.rows id = some row ∧ s.rows id ≠ some row

/-- Under this id there is a row on legal hold. -/
def Held (s : Backend) (id : String) : Prop := ∃ row, s.rows id = some row ∧ row.legalHold = some true

/-- The row is the caller's and within the caller's clearance. -/
def Within (context : RequestContext) (row : GuardedRow) : Prop :=
  row.organizationId = context.principal.organizationId ∧
    bandIndex row.sensitivity ≤ bandIndex (clearanceOf context.principal)

/-- A call that stays inside the policy. -/
structure Inside (number : ℚ → String) (s : Backend) (e : Step) : Prop where
  within : ∀ row, Touched s (after number s e) row → Within e.context row
  held : ∀ id, Held s id → Held (after number s e) id
  /-- An update changes the row that it is called for, and leaves it its id. -/
  only : ∀ id patch, e.request.updates = some (id, patch) →
    (∀ row, Touched s (after number s e) row → row.id = id) ∧
      ∀ k, k ≠ id → (after number s e).rows k = s.rows k
  /-- A store overwrites nothing. -/
  fresh : e.request.isStore = true → ∀ row, Touched s (after number s e) row → s.rows row.id = none

/-- A run that stays inside: each of its calls does, and a hold lasts to its end. -/
def RunInside (number : ℚ → String) (s : Backend) (run : List Step) : Prop :=
  Along (machine number) (Inside number) s run ∧
    ∀ id, Held s id → Everywhere (machine number) (fun t => Held t id) s run

/-! ### What it takes -/

/-- The patch of an update that the guard lets through on this row stays within the policy. -/
structure PatchWithin (context : RequestContext) (id : String) (patch : RowPatch) (row : GuardedRow) :
    Prop where
  organizationId : ∀ o ∈ patch.organizationId, o = context.principal.organizationId
  sensitivity : ∀ b ∈ patch.sensitivity, bandIndex b ≤ bandIndex (clearanceOf context.principal)
  /-- The row keeps the id that the update was called with. -/
  id : patch.id.getD row.id = id
  legalHold : row.legalHold = some true → ∀ h ∈ patch.legalHold, h = some true

/-- The decision on what a store would write is to allow it. -/
def storeAllowed (number : ℚ → String) (e : Step) (row : GuardedRow) : Bool :=
  ((assertFreshContext number e.context e.now).bind fun _ => buildAuditEvent e.context e.now).isOk &&
    (decisionOn e.now e.context .store (rowOf { row with id := "pending" })).effect = .allow

/-- The condition on a call: the patch of an update that the guard lets through stays within the
    policy, and no row is called `pending` when a store is allowed. -/
def Meets (number : ℚ → String) (s : Backend) (e : Step) : Prop :=
  (∀ id patch row, e.request.updates = some (id, patch) →
      V6.guard number e.now e.context .update s id = .ok row → PatchWithin e.context id patch row) ∧
    ∀ row, e.request = .store row → storeAllowed number e row = true → s.rows "pending" = none

/-! ### What the guard has seen -/

section Calls
variable {number : ℚ → String} {now : JsNum} {context : RequestContext} {s s' : Backend}
  {operation : DirectOperation} {id : String} {row : GuardedRow} {e : Step}

/-- What is allowed on a row is on one of the caller's, within the caller's clearance. -/
theorem within_of_allow
    (h : (decisionOn now context operation (rowOf row)).effect = .allow) : Within context row := by
  have hp := permitted_of_allow h
  have horg : decide (row.organizationId ≠ context.principal.organizationId) = false := hp.organization
  exact ⟨not_not.mp (of_decide_eq_false horg), hp.clearance⟩

/-- The guard lets through a row of the backend that the decision allows. -/
theorem guard_eq_ok : V6.guard number now context operation s id = .ok row ↔
    assertFreshContext number context now = .ok () ∧ s.rows id = some row ∧
      auditable context now = true ∧
      (decisionOn now context operation (rowOf row)).effect = .allow := by
  unfold V6.guard
  cases hfresh : assertFreshContext number context now with
  | error err => simp [bind, Except.bind]
  | ok u =>
    cases hrow : s.rows id with
    | none => cases haudit : auditable context now <;> simp [buildAuditEvent, haudit, bind, Except.bind]
    | some r =>
      cases haudit : auditable context now with
      | false => simp [buildAuditEvent, haudit, bind, Except.bind]
      | true =>
        simp only [buildAuditEvent, haudit, bind, Except.bind, if_true, Option.some.injEq, true_and]
        split_ifs with hallow
        · constructor
          · rintro h
            obtain rfl := Except.ok.inj h
            exact ⟨rfl, hallow⟩
          · rintro ⟨rfl, -⟩
            rfl
        · constructor
          · rintro ⟨⟩
          · rintro ⟨rfl, h⟩
            exact absurd h hallow

/-- A row on hold is not let through to be deleted. -/
theorem not_held_of_delete (h : V6.guard number now context .delete s id = .ok row) :
    row.legalHold ≠ some true := by
  intro hheld
  obtain ⟨-, -, -, hallow⟩ := guard_eq_ok.mp h
  exact (permitted_of_allow hallow).hold ⟨by simp [rowOf, hheld], rfl⟩

/-! ### Each kind of call -/

theorem not_touched (row : GuardedRow) : ¬ Touched s s row := by
  rintro (h | ⟨id, h, hne⟩)
  · simp at h
  · exact hne h

/-- What a put touches. -/
theorem touched_put {put : GuardedRow} (h : Touched s (s.put put) row) : row = put := by
  rcases h with h | ⟨k, h, hne⟩
  · simpa [Backend.put] using h
  · simp only [Backend.put] at h
    split_ifs at h
    · exact (Option.some.inj h).symm
    · exact absurd h hne

theorem put_touched (s : Backend) (row : GuardedRow) : Touched s (s.put row) row :=
  .inl (by simp [Backend.put])

theorem not_touched_delete (id : String) (row : GuardedRow) : ¬ Touched s (s.delete id) row := by
  rintro (h | ⟨k, h, hne⟩)
  · simp [Backend.delete] at h
  · simp only [Backend.delete] at h
    split_ifs at h
    exact hne h

/-- A call that leaves the backend as it is stays inside. -/
theorem inside_of_same (h : after number s e = s) : Inside number s e where
  within row ht := absurd (h ▸ ht) (not_touched row)
  held id hid := h.symm ▸ hid
  only id patch _ := ⟨fun row ht => absurd (h ▸ ht) (not_touched row), fun k _ => by rw [h]⟩
  fresh _ row ht := absurd (h ▸ ht) (not_touched row)

variable (number s) in
/-- An update that the guard refuses writes nothing, and the others put the patched row. -/
theorem after_update {patch : RowPatch} (h : e.request.updates = some (id, patch)) :
    after number s e = match V6.guard number e.now e.context .update s id with
      | .error _ => s
      | .ok row => s.put (patch.over row) := by
  obtain ⟨now, context, request⟩ := e
  have hupdate : ∀ patch, (update number now context id patch s).2 =
      match V6.guard number now context .update s id with
      | .error _ => s
      | .ok row => s.put (RowPatch.over patch row) := by
    intro patch
    unfold update
    cases V6.guard number now context .update s id <;> rfl
  cases request <;> cases h <;> exact hupdate _

variable (number s) in
theorem after_store (h : e.request = .store row) :
    after number s e =
      if storeAllowed number e row then s.put { row with id := "pending" } else s := by
  obtain ⟨now, context, request⟩ := e
  obtain rfl : request = .store row := h
  unfold after call store storeAllowed
  dsimp only
  cases (assertFreshContext number context now).bind fun _ => buildAuditEvent context now with
  | error err => simp [Except.isOk, Except.toBool]
  | ok u => split_ifs <;> simp_all [Except.isOk, Except.toBool]

variable (number s) in
theorem after_delete (h : e.request = .delete id) :
    after number s e = match V6.guard number e.now e.context .delete s id with
      | .error _ => s
      | .ok _ => s.delete id := by
  obtain ⟨now, context, request⟩ := e
  obtain rfl : request = .delete id := h
  unfold after call
  dsimp only
  cases V6.guard number now context .delete s id <;> rfl

/-- A call that puts one row stays inside exactly where this row does. -/
theorem inside_put_iff {put : GuardedRow} (hafter : after number s e = s.put put) :
    Inside number s e ↔ Within e.context put ∧ (Held s put.id → put.legalHold = some true) ∧
      (∀ id patch, e.request.updates = some (id, patch) → put.id = id) ∧
        (e.request.isStore = true → s.rows put.id = none) := by
  constructor
  · intro hin
    have htouched := put_touched s put
    rw [← hafter] at htouched
    refine ⟨hin.within _ htouched, fun hheld => ?_, fun id patch h => (hin.only id patch h).1 _ htouched,
      fun h => hin.fresh h _ htouched⟩
    obtain ⟨r, hr, hholds⟩ := hin.held _ hheld
    rw [hafter] at hr
    simp only [Backend.put, if_true, Option.some.injEq] at hr
    exact hr ▸ hholds
  · rintro ⟨hwithin, hheld, honly, hfresh⟩
    refine ⟨fun r hr => ?_, fun k hk => ?_, fun id patch h => ⟨fun r hr => ?_, fun k hk => ?_⟩,
      fun h r hr => ?_⟩
    · rw [hafter] at hr
      exact touched_put hr ▸ hwithin
    · rw [hafter]
      by_cases hid : k = put.id
      · exact ⟨put, by simp [Backend.put, hid], hheld (hid ▸ hk)⟩
      · obtain ⟨r, hr, hholds⟩ := hk
        exact ⟨r, by simp [Backend.put, hid, hr], hholds⟩
    · rw [hafter] at hr
      exact touched_put hr ▸ honly id patch h
    · have hid := honly id patch h
      simp [hafter, Backend.put, hid, hk]
    · rw [hafter] at hr
      exact touched_put hr ▸ hfresh h

/-- Over a row that is within, the patched row is within exactly where the patch is. -/
theorem within_over_iff {patch : RowPatch} (h : Within context row) :
    Within context (patch.over row) ↔
      (∀ o ∈ patch.organizationId, o = context.principal.organizationId) ∧
        ∀ b ∈ patch.sensitivity, bandIndex b ≤ bandIndex (clearanceOf context.principal) := by
  obtain ⟨horg, hband⟩ := h
  refine and_congr ?_ ?_
  · cases ho : patch.organizationId <;> simp [RowPatch.over, ho, horg]
  · cases hb : patch.sensitivity <;> simp [RowPatch.over, hb, hband]

/-- A patch over a row on hold leaves it on hold unless it says otherwise. -/
theorem legalHold_over_iff {patch : RowPatch} (h : row.legalHold = some true) :
    (patch.over row).legalHold = some true ↔ ∀ hold ∈ patch.legalHold, hold = some true := by
  cases hp : patch.legalHold <;> simp [RowPatch.over, hp, h]

/-- An update stays inside exactly where the patch does. -/
theorem inside_update_iff {patch : RowPatch} (h : e.request.updates = some (id, patch)) :
    Inside number s e ↔ ∀ row, V6.guard number e.now e.context .update s id = .ok row →
      PatchWithin e.context id patch row := by
  have hafter := after_update number s h
  have hstore : e.request.isStore = false := by
    cases hr : e.request <;> rw [hr] at h <;> first | rfl | cases h
  cases hguard : V6.guard number e.now e.context .update s id with
  | error err =>
    rw [hguard] at hafter
    exact iff_of_true (inside_of_same hafter) (by rintro _ ⟨⟩)
  | ok row =>
    rw [hguard] at hafter
    obtain ⟨-, hrow, -, hallow⟩ := guard_eq_ok.mp hguard
    rw [inside_put_iff hafter, within_over_iff (within_of_allow hallow)]
    constructor
    · rintro ⟨⟨horg, hband⟩, hheld, honly, -⟩ r hr
      obtain rfl := Except.ok.inj hr
      have hid : (patch.over row).id = id := honly id patch h
      rw [hid] at hheld
      exact ⟨horg, hband, hid, fun hholds => (legalHold_over_iff hholds).mp (hheld ⟨row, hrow, hholds⟩)⟩
    · intro hpatch
      obtain ⟨horg, hband, hid, hhold⟩ := hpatch row rfl
      have hid : (patch.over row).id = id := hid
      rw [hid]
      refine ⟨⟨horg, hband⟩, ?_, fun id' patch' h' => ?_, fun hs => ?_⟩
      · rintro ⟨r, hr, hholds⟩
        rw [hrow, Option.some.injEq] at hr
        subst hr
        exact (legalHold_over_iff hholds).mpr (hhold hholds)
      · rw [h, Option.some.injEq, Prod.mk.injEq] at h'
        exact h'.1
      · rw [hstore] at hs
        cases hs

/-- A store stays inside exactly where it is refused or finds nothing under the id it writes. -/
theorem inside_store_iff (h : e.request = .store row) :
    Inside number s e ↔ (storeAllowed number e row = true → s.rows "pending" = none) := by
  have hafter := after_store number s h
  have hupdates : e.request.updates = none := by rw [h]; rfl
  have hstore : e.request.isStore = true := by rw [h]; rfl
  cases hallowed : storeAllowed number e row with
  | false =>
    rw [hallowed] at hafter
    exact iff_of_true (inside_of_same (by simpa using hafter)) (by rintro ⟨⟩)
  | true =>
    rw [hallowed, if_pos rfl] at hafter
    simp only [storeAllowed, Bool.and_eq_true, decide_eq_true_eq] at hallowed
    rw [inside_put_iff hafter]
    constructor
    · rintro ⟨-, -, -, hfree⟩ _
      exact hfree hstore
    · intro hfree
      refine ⟨within_of_allow hallowed.2, ?_, fun id patch h' => ?_, fun _ => hfree rfl⟩
      · rintro ⟨r, hr, -⟩
        rw [hfree rfl] at hr
        cases hr
      · rw [hupdates] at h'
        cases h'

/-- A deletion always stays inside: the guard refuses it for a row on hold. -/
theorem inside_delete (h : e.request = .delete id) : Inside number s e := by
  have hafter := after_delete number s h
  have hupdates : e.request.updates = none := by rw [h]; rfl
  cases hguard : V6.guard number e.now e.context .delete s id with
  | error err =>
    rw [hguard] at hafter
    exact inside_of_same hafter
  | ok row =>
    rw [hguard] at hafter
    refine ⟨fun r hr => ?_, fun k hk => ?_, fun id' patch h' => ?_, fun hs => ?_⟩
    · exact absurd (hafter ▸ hr) (not_touched_delete id r)
    · obtain ⟨r, hr, hheld⟩ := hk
      have hne : k ≠ id := by
        rintro rfl
        have hrow := (guard_eq_ok.mp hguard).2.1
        rw [hr, Option.some.injEq] at hrow
        exact not_held_of_delete hguard (hrow ▸ hheld)
      rw [hafter]
      exact ⟨r, by simp [Backend.delete, hne, hr], hheld⟩
    · rw [hupdates] at h'
      cases h'
    · rw [h] at hs
      cases hs

end Calls

/-! ### Runs -/

variable {number : ℚ → String}

/-- A call stays inside the policy exactly where it meets the condition. -/
theorem inside_iff (s : Backend) (e : Step) : Inside number s e ↔ Meets number s e := by
  cases hupdates : e.request.updates with
  | some u =>
    obtain ⟨id, patch⟩ := u
    rw [inside_update_iff hupdates]
    constructor
    · intro h
      refine ⟨fun id' patch' row h' => ?_, fun row hs => ?_⟩
      · rw [hupdates, Option.some.injEq, Prod.mk.injEq] at h'
        obtain ⟨rfl, rfl⟩ := h'
        exact h row
      · rw [hs] at hupdates
        cases hupdates
    · exact fun h row => h.1 id patch row hupdates
  | none =>
    have hnone : ∀ id patch row, e.request.updates = some (id, patch) →
        V6.guard number e.now e.context .update s id = .ok row → PatchWithin e.context id patch row := by
      intro id patch row h
      rw [hupdates] at h
      cases h
    cases hr : e.request with
    | store row =>
      rw [inside_store_iff hr]
      constructor
      · intro h
        refine ⟨hnone, fun row' hs => ?_⟩
        rw [hr, Request.store.injEq] at hs
        exact hs ▸ h
      · exact fun h => h.2 row hr
    | delete id =>
      refine iff_of_true (inside_delete hr) ⟨hnone, fun row hs => ?_⟩
      rw [hr] at hs
      cases hs
    | update id patch | archive id | revive id =>
      rw [hr] at hupdates
      cases hupdates
    | read _ | history _ | relate _ | batch _ | snapshot _ =>
      refine iff_of_true (inside_of_same ?_) ⟨hnone, fun row hs => ?_⟩
      · unfold after call
        rw [hr]
      · rw [hr] at hs
        cases hs

/-- A hold lasts along a run of calls that stay inside. -/
theorem held_of_inside (run : List Step) {s : Backend} {id : String} (h : Held s id)
    (hrun : Along (machine number) (Inside number) s run) :
    Everywhere (machine number) (fun t => Held t id) s run := by
  refine everywhere_of_along (fun t e t' hheld hin ht => ?_) (fun _ hheld => hheld) run h hrun
  obtain rfl := Option.some.inj ht
  exact hin.held id hheld

/-- A writer of an organization. -/
def organizationWriter : RequestContext :=
  { organizationReader with
    principal := {
      organizationId := "org-a", membershipVersion := "m-1"
      capabilities := some ["tenant:read", "tenant:write"] }
    operation := .update
    replayKey := some "r-1"
    accepted := by decide +kernel
    replayable := by simp
    capable := by decide }

def ownRow : GuardedRow where
  id := "m-1"
  organizationId := "org-a"
  sensitivity := .isPublic
  trust := .trusted
  retention := .decaying

def ownBackend : Backend := { rows := fun id => if id = "m-1" then some ownRow else none }

/-- The writer's update of `m-1` with another organization. -/
def moves : Step := ⟨.finite 5, organizationWriter, .update "m-1" { organizationId := some "org-b" }⟩

end Remembra.V6
