import Remembra.Service.Requests
import Remembra.Service.StaleWrite

/-! Legal holds. No call clears a hold, but a deletion does not look at it either: a held memory stays
    exactly as long as every deletion that is asked for is stopped by something else (`holds_iff`). -/

namespace Remembra.Service
open Store (Memory TenantFilter)
open Sqlite (Row setUpdated selected)
open Sqlite.Serial (Tables Failure recordTenant auditRow rowDimensions updatedOver)
open Prog

/-! ### Holds in the tables -/

/-- The memory `id` carries a hold. -/
def carriesHold (s : Tables) (id : String) : Bool := (s.memories.get id).any (·.legalHold)

def heldIds (s : Tables) : List String := (s.memories.rows.filter (·.legalHold)).map Row.id

/-- The record, its versions and its audit rows are the same. -/
structure Untouched (id : String) (s t : Tables) : Prop where
  record : t.memories.get id = s.memories.get id
  history : t.versions.filter (fun v => v.memoryId = id) = s.versions.filter fun v => v.memoryId = id
  audit : t.audit.filter (fun a => a.memoryId = id) = s.audit.filter fun a => a.memoryId = id

section Deletion
variable (C : Config)

/-- A deletion by this caller finds nothing, or it ends before it has deleted anything: an audit row of
    the memory stands outside the caller's slice, and no audit row and no version of it inside. -/
def Stopped (s : Tables) (now : ℤ) (id : String) (tenant : Option TenantFilter) : Prop :=
  ∀ row, selected s.memories id tenant = some row →
    (∃ a ∈ s.audit, a.memoryId = id) ∧
      (∀ a ∈ s.audit, a.memoryId = id → a.tenant.within (tenant.map recordTenant) = false) ∧
      (∀ v ∈ s.versions, v.memoryId = id → v.tenant.within (tenant.map recordTenant) = false) ∧
      (auditRow C.backend now .forget id none (some row.provenance) tenant
        (some (rowDimensions row))).tenant.within (tenant.map recordTenant) = true

end Deletion

section Tables
variable {C : Config} {s t : Tables} {now : ℤ} {id : String} {tenant : Option TenantFilter}

theorem mem_heldIds : id ∈ heldIds s ↔ carriesHold s id = true := by
  unfold heldIds carriesHold
  rw [List.mem_map, Option.any_eq_true]
  constructor
  · rintro ⟨row, hrow, rfl⟩
    obtain ⟨hmem, hheld⟩ := List.mem_filter.mp hrow
    exact ⟨row, Table.get_of_mem hmem, hheld⟩
  · rintro ⟨row, hrow, hheld⟩
    obtain ⟨hmem, hid⟩ := Table.get_eq_some.mp hrow
    exact ⟨row, List.mem_filter.mpr ⟨hmem, hheld⟩, hid⟩

/-- Every hold is still there. -/
def KeepsHolds (s t : Tables) : Prop := ∀ id, carriesHold s id = true → carriesHold t id = true

theorem KeepsHolds.refl (s : Tables) : KeepsHolds s s := fun _ h => h

theorem KeepsHolds.of_memories (h : t.memories = s.memories) : KeepsHolds s t := by
  intro id hid
  rw [carriesHold, h]
  exact hid

theorem KeepsHolds.trans {u : Tables} (h : KeepsHolds s t) (h' : KeepsHolds t u) : KeepsHolds s u :=
  fun id hid => h' id (h id hid)

theorem KeepsHolds.of_insert {row : Row} (h : s.memories.insert row = some t.memories) :
    KeepsHolds s t := by
  intro id hid
  have hfree := (Table.rows_insert h).1
  unfold carriesHold at hid ⊢
  rw [Table.get_insert h]
  split
  · rename_i hrow
    rw [hrow, hfree] at hid
    cases hid
  · exact hid

/-- A row that is rewritten keeps its hold. -/
theorem KeepsHolds.of_rewrite (row' : Row) {row : Row} (hsel : selected s.memories id tenant = some row)
    (hheld : row'.legalHold = row.legalHold)
    (h : ∀ k, t.memories.get k = if k = id then some row' else s.memories.get k) : KeepsHolds s t := by
  intro k hk
  unfold carriesHold at hk ⊢
  rw [h]
  split
  · rename_i hid
    rw [hid, (Sqlite.Serial.selected_eq_some.mp hsel).1] at hk
    exact hheld.trans hk
  · exact hk

theorem keepsHolds_store {input : Store.StoreInput} {embedding : Option (List Store.JsNum)}
    {r : Except Failure Memory}
    (h : Tables.store C.backend s now id input embedding tenant = (r, t)) : KeepsHolds s t := by
  obtain ⟨-, ⟨-, -, hsame | hinsert⟩ | ⟨-, hinsert, -⟩⟩ := Tables.store_cases h
  · exact .of_memories hsame
  · exact .of_insert hinsert
  · exact .of_insert hinsert

theorem keepsHolds_update {memory : Memory} {options : Store.UpdateOptions} {r : Except Failure Memory}
    (h : Tables.update C.backend s now memory options tenant = (r, t)) : KeepsHolds s t := by
  cases r with
  | error e => exact .of_memories (memories_update_error h)
  | ok m =>
    obtain ⟨row, hsel, hget⟩ := get_update h
    exact .of_rewrite (setUpdated C.backend.platform (updatedOver C.backend now row memory) row) hsel
      rfl hget

theorem keepsHolds_archive {r : Except Failure (Option Memory)}
    (h : Tables.archive C.backend s now id tenant = (r, t)) : KeepsHolds s t := by
  obtain ⟨-, ⟨-, -, rfl⟩ | ⟨row, hsel, -, -, hrows, -⟩⟩ := Tables.archive_cases h
  · exact .refl _
  · refine .of_rewrite (Sqlite.setArchived (Sqlite.Serial.stamp C.backend now) row) hsel rfl
      fun k => ?_
    rw [hrows]
    exact Sqlite.get_updateWhere_selected hsel _ _ k

theorem keepsHolds_revive {r : Except Failure (Option Memory)}
    (h : Tables.revive C.backend s now id tenant = (r, t)) : KeepsHolds s t := by
  obtain ⟨-, ⟨-, -, rfl⟩ | ⟨row, hsel, -, hrows, -⟩⟩ := Tables.revive_cases h
  · exact .refl _
  · refine .of_rewrite (Sqlite.setRevived (Sqlite.Serial.stamp C.backend now) row) hsel rfl
      fun k => ?_
    rw [hrows]
    exact Sqlite.get_updateWhere_selected hsel _ _ k

theorem keepsHolds_importAll {memories : List Memory} {answer : List Memory × ℕ}
    (h : Tables.importAll C.backend s now tenant memories = (.ok answer, t)) : KeepsHolds s t := by
  induction memories generalizing s answer with
  | nil =>
    cases h
    exact .refl _
  | cons m memories ih =>
    unfold Tables.importAll at h
    split at h
    · cases h
    rename_i added u hone
    have hfirst : KeepsHolds s u := by
      obtain ⟨hr, -, hskip⟩ | ⟨-, -, hinsert, -⟩ := Tables.importMemory_cases hone
      · cases added with
        | true => exact absurd rfl hr
        | false =>
          rw [hskip rfl]
          exact .refl _
      · exact .of_insert hinsert
    split at h
    · cases h
    rename_i imported skipped v hrest
    have hv : v = t := by
      split at h <;> cases h <;> rfl
    subst hv
    exact hfirst.trans (ih hrest)

theorem keepsHolds_importBatch {memories : List Memory} {r : Except Failure (List Memory × ℕ)}
    (h : Tables.importBatch C.backend s now memories tenant = (r, t)) : KeepsHolds s t := by
  unfold Tables.importBatch at h
  split at h
  · cases h
    exact .refl _
  · rename_i answer u hall
    cases h
    exact keepsHolds_importAll hall

/-! ### Deletions -/

theorem filter_filter_iff {α : Type} (l : List α) (p q : α → Bool) :
    (l.filter fun a => !(p a && q a)).filter p = l.filter p ↔ ∀ a ∈ l, p a = true → q a = false := by
  rw [List.filter_filter]
  constructor
  · intro h a ha hp
    have hmem : a ∈ l.filter fun a => p a && !(p a && q a) := by
      rw [h]
      exact List.mem_filter.mpr ⟨ha, hp⟩
    simpa [hp] using (List.mem_filter.mp hmem).2
  · intro h
    refine List.filter_congr fun a ha => ?_
    cases hp : p a with
    | false => rfl
    | true => simp [h a ha hp]

/-- A new item that is filtered out again, or one that stays and is one too many. -/
theorem filter_append_iff {α : Type} (l : List α) (new : α) (p q : α → Bool) (hnew : p new = true) :
    ((l ++ [new]).filter fun a => !(p a && q a)).filter p = l.filter p ↔
      (∀ a ∈ l, p a = true → q a = false) ∧ q new = true := by
  rw [List.filter_append, List.filter_append]
  cases hq : q new with
  | true =>
    rw [← filter_filter_iff l p q]
    simp [hnew, hq]
  | false =>
    refine iff_of_false (fun h => ?_) (by simp)
    have hone : ([new].filter fun a => !(p a && q a)).filter p = [new] := by simp [hnew, hq]
    rw [hone] at h
    have hstay : ∀ a ∈ l, p a = true → q a = false := by
      intro a ha hp
      have hmem : a ∈ (l.filter fun a => !(p a && q a)).filter p ++ [new] := by
        rw [h]
        exact List.mem_filter.mpr ⟨ha, hp⟩
      rcases List.mem_append.mp hmem with hmem | hmem
      · simpa [hp] using (List.mem_filter.mp (List.mem_filter.mp hmem).1).2
      · rw [List.mem_singleton.mp hmem]
        exact hq
    rw [(filter_filter_iff l p q).mpr hstay] at h
    have hlength := congrArg List.length h
    simp at hlength

/-- A deletion changes nothing of its memory and is not reported as done exactly if it is stopped. -/
theorem forget_unchanged_iff {r : Except Failure Bool}
    (h : Tables.forget C.backend s now id tenant = (r, t)) :
    (r ≠ .ok true ∧ Untouched id s t) ↔ Stopped C s now id tenant := by
  cases hsel : selected s.memories id tenant with
  | none =>
    simp only [Tables.forget, hsel] at h
    cases h
    refine iff_of_true ⟨by simp, ⟨rfl, rfl, rfl⟩⟩ fun row hrow => ?_
    rw [hsel] at hrow
    cases hrow
  | some row =>
    obtain ⟨-, haudit, hcase⟩ := Tables.forget_selected hsel h
    have hstopped : Stopped C s now id tenant ↔ _ ∧ _ :=
      ⟨fun h => h row hsel, fun h row' hrow => Option.some.inj (hsel.symm.trans hrow) ▸ h⟩
    rw [hstopped]
    generalize hnew : auditRow C.backend now .forget id none (some row.provenance) tenant
      (some (rowDimensions row)) = new at haudit ⊢
    have hnewId : new.memoryId = id := by
      rw [← hnew]
      rfl
    have hauditSame := filter_append_iff s.audit new (fun a => decide (a.memoryId = id))
      (fun a => a.tenant.within (tenant.map recordTenant)) (decide_eq_true hnewId)
    obtain ⟨⟨a, ha, haid⟩, rfl, hrows, hversions⟩ | ⟨hgone, rfl, -, -⟩ := hcase
    · have hversionsSame := filter_filter_iff s.versions (fun v => decide (v.memoryId = id))
        (fun v => v.tenant.within (tenant.map recordTenant))
      have hother : new.tenant.within (tenant.map recordTenant) = true → ∃ a ∈ s.audit, a.memoryId = id := by
        intro hwithin
        rw [haudit] at ha
        obtain ⟨hmem, hkept⟩ := List.mem_filter.mp ha
        rcases List.mem_append.mp hmem with hmem | hmem
        · exact ⟨a, hmem, haid⟩
        · rw [List.mem_singleton.mp hmem, hnewId, hwithin] at hkept
          simp at hkept
      constructor
      · rintro ⟨-, -, hhistory, haudited⟩
        rw [hversions] at hhistory
        rw [haudit] at haudited
        obtain ⟨houtside, hwithin⟩ := hauditSame.mp haudited
        exact ⟨hother hwithin, fun a ha haid => houtside a ha (decide_eq_true haid),
          fun v hv hvid => hversionsSame.mp hhistory v hv (decide_eq_true hvid), hwithin⟩
      · rintro ⟨-, houtside, hold, hwithin⟩
        refine ⟨by simp, by rw [hrows], ?_, ?_⟩
        · rw [hversions]
          exact hversionsSame.mpr fun v hv hvid => hold v hv (of_decide_eq_true hvid)
        · rw [haudit]
          exact hauditSame.mpr ⟨fun a ha haid => houtside a ha (of_decide_eq_true haid), hwithin⟩
    · refine iff_of_false (fun h => h.1 rfl) ?_
      rintro ⟨⟨a, ha, haid⟩, houtside, -⟩
      refine hgone a ?_ haid
      rw [haudit]
      refine List.mem_filter.mpr ⟨List.mem_append_left _ ha, ?_⟩
      simp [houtside a ha haid]

/-- A deletion leaves the other memories. -/
theorem get_forget_ne {r : Except Failure Bool}
    (h : Tables.forget C.backend s now id tenant = (r, t)) {k : String} (hk : k ≠ id) :
    t.memories.get k = s.memories.get k := by
  obtain ⟨-, rfl⟩ | ⟨row, hsel, -, -, ⟨-, -, hrows, -⟩ | ⟨-, -, hrows, -⟩⟩ := Tables.forget_cases h
  · rfl
  · rw [hrows]
  · rw [hrows]
    exact (Sqlite.get_deleteWhere_selected hsel k).trans (if_neg hk)

end Tables

/-! ### Runs -/

/-- A deletion that was asked for of a held memory. -/
structure Attempt where
  id : String
  before : Tables
  after : Tables
  /-- It was reported as done. -/
  deleted : Bool

/-- The requests under way, the memories that have carried a hold so far and the attempts on them. -/
structure Watch where
  requests : Requests
  held : List String
  attempts : List Attempt := []

/-- Every hold that there has been is there, and every attempt was refused and changed nothing. -/
structure HoldsKept (s : Watch) : Prop where
  held : ∀ id ∈ s.held, carriesHold s.requests.world.tables id = true
  refused : ∀ a ∈ s.attempts, a.deleted = false ∧ Untouched a.id a.before a.after

section Steps
variable (C : Config) (E : Environment) (fits : Snapshot → Bool)

/-- The attempt that a question makes. -/
def attemptOf (w : World) : Demand → List Attempt
  | .ask (.forget id tenant) =>
    let r := Tables.forget C.backend w.tables (E.writeClock w.writes) id tenant
    if carriesHold w.tables id then [⟨id, w.tables, r.2, r.1.toOption = some true⟩] else []
  | _ => []

def watchStep (s : Watch) (e : RequestEvent) : Option Watch :=
  (requestStep C E fits s.requests e).map fun requests => {
    requests := requests
    held := heldIds requests.world.tables ++ s.held
    attempts := (questionOf s.requests e).toList.flatMap (attemptOf C E s.requests.world) ++ s.attempts }

/-- A deletion that is asked for of a held memory is stopped by something else than the hold. -/
def Spares (s : Watch) (e : RequestEvent) : Prop :=
  ∀ id tenant, questionOf s.requests e = some (.ask (.forget id tenant)) →
    carriesHold s.requests.world.tables id = true →
      Stopped C s.requests.world.tables (E.writeClock s.requests.world.writes) id tenant

end Steps

def watched (tables : Tables) (manifest : Manifest) : Watch :=
  { requests := idle tables manifest, held := heldIds tables }

section Runs
variable {C : Config} {E : Environment} {fits : Snapshot → Bool}

/-- No question but a deletion takes a hold away. -/
theorem keepsHolds_demand (q : Demand) (w : World) (hq : ∀ id tenant, q ≠ .ask (.forget id tenant)) :
    KeepsHolds w.tables (handleDemand C E q w).2.tables := by
  cases q with
  | importBatch memories tenant => exact keepsHolds_importBatch rfl
  | ask q =>
    cases q with
    | store input embedding tenant => exact keepsHolds_store rfl
    | update base patch options tenant => exact keepsHolds_update rfl
    | archive id tenant => exact keepsHolds_archive rfl
    | revive id tenant => exact keepsHolds_revive rfl
    | forget id tenant => exact absurd rfl (hq id tenant)
    | embed gate text =>
      refine .of_memories ?_
      simp only [handleDemand, handle]
      cases w.refusal E gate <;> rfl
    | extract gate transcript =>
      refine .of_memories ?_
      simp only [handleDemand, handle]
      cases w.refusal E gate <;> rfl
    | _ => exact .refl _

/-- Holds that are all kept, before and after a step. -/
theorem held_next {s : Watch} {tables : Tables}
    (hs : ∀ id ∈ s.held, carriesHold s.requests.world.tables id = true)
    (h : KeepsHolds s.requests.world.tables tables) :
    ∀ id ∈ heldIds tables ++ s.held, carriesHold tables id = true := by
  intro id hid
  rcases List.mem_append.mp hid with hid | hid
  · exact mem_heldIds.mp hid
  · exact h id (hs id hid)

/-- A deletion that is answered. -/
theorem holdsKept_forget {s : Watch} (hs : HoldsKept s) {id : String} {tenant : Option TenantFilter}
    {requests : Requests} (htables : requests.world.tables =
      (handleDemand C E (.ask (.forget id tenant)) s.requests.world).2.tables) :
    HoldsKept ⟨requests, heldIds requests.world.tables ++ s.held,
        attemptOf C E s.requests.world (.ask (.forget id tenant)) ++ s.attempts⟩ ↔
      (carriesHold s.requests.world.tables id = true →
        Stopped C s.requests.world.tables (E.writeClock s.requests.world.writes) id tenant) := by
  rcases hr : Tables.forget C.backend s.requests.world.tables (E.writeClock s.requests.world.writes)
    id tenant with ⟨r, after⟩
  have hafter : requests.world.tables = after := htables.trans (congrArg Prod.snd hr)
  have hother {k : String} (hk : carriesHold s.requests.world.tables k = true) (hid : k ≠ id) :
      carriesHold requests.world.tables k = true := by
    unfold carriesHold at hk ⊢
    rw [hafter, get_forget_ne hr hid]
    exact hk
  by_cases hheld : carriesHold s.requests.world.tables id = true
  · have hattempts : attemptOf C E s.requests.world (.ask (.forget id tenant)) =
        [⟨id, s.requests.world.tables, after, r.toOption = some true⟩] := by
      simp [attemptOf, hheld, hr]
    have hdeleted : decide (r.toOption = some true) = false ↔ r ≠ .ok true := by
      cases r <;> simp [Except.toOption]
    have hrefused := forget_unchanged_iff hr
    rw [hattempts]
    constructor
    · intro hkept _
      obtain ⟨hnot, hsame⟩ := hkept.refused _ (List.mem_cons_self ..)
      exact hrefused.mp ⟨hdeleted.mp hnot, hsame⟩
    · intro hstopped
      obtain ⟨hnot, hsame⟩ := hrefused.mpr (hstopped hheld)
      refine ⟨held_next hs.held fun k hk => ?_, fun a ha => ?_⟩
      · by_cases hid : k = id
        · rw [hid, carriesHold, hafter, hsame.record]
          exact hheld
        · exact hother hk hid
      · rcases List.mem_cons.mp ha with rfl | ha
        · exact ⟨hdeleted.mpr hnot, hsame⟩
        · exact hs.refused a ha
  · have hattempts : attemptOf C E s.requests.world (.ask (.forget id tenant)) = [] := by
      simp [attemptOf, hheld]
    rw [hattempts]
    refine iff_of_true ⟨held_next hs.held fun k hk => hother hk ?_, hs.refused⟩ fun h => absurd h hheld
    rintro rfl
    exact hheld hk

/-- Another question that is answered. -/
theorem holdsKept_other {s : Watch} (hs : HoldsKept s) {q : Demand}
    (hq : ∀ id tenant, q ≠ .ask (.forget id tenant)) {requests : Requests}
    (htables : requests.world.tables = (handleDemand C E q s.requests.world).2.tables) :
    HoldsKept ⟨requests, heldIds requests.world.tables ++ s.held,
      attemptOf C E s.requests.world q ++ s.attempts⟩ := by
  have hattempts : attemptOf C E s.requests.world q = [] := by
    unfold attemptOf
    split
    · exact absurd rfl (hq _ _)
    · rfl
  rw [hattempts]
  refine ⟨held_next hs.held ?_, hs.refused⟩
  rw [htables]
  exact keepsHolds_demand q _ hq

theorem holdsKept_step {s t : Watch} {e : RequestEvent} (hs : HoldsKept s)
    (h : watchStep C E fits s e = some t) : HoldsKept t ↔ Spares C E s e := by
  obtain ⟨requests, hstep, rfl⟩ := Option.map_eq_some_iff.mp h
  have htables := tables_requestStep hstep
  unfold Spares
  cases hq : questionOf s.requests e with
  | none =>
    rw [hq] at htables
    refine iff_of_true ⟨held_next hs.held (.of_memories (by rw [htables])), hs.refused⟩ ?_
    rintro id tenant ⟨⟩
  | some q =>
    rw [hq] at htables
    simp only [Option.toList_some, List.flatMap_cons, List.flatMap_nil, List.append_nil]
    by_cases hforget : ∃ id tenant, q = .ask (.forget id tenant)
    · obtain ⟨id, tenant, rfl⟩ := hforget
      refine (holdsKept_forget hs htables).trans ⟨?_, fun h => h id tenant rfl⟩
      rintro h _ _ ⟨⟩
      exact h
    · refine iff_of_true (holdsKept_other hs (fun id tenant h => hforget ⟨id, tenant, h⟩) htables) ?_
      rintro id tenant ⟨⟩
      exact absurd ⟨id, tenant, rfl⟩ hforget

theorem holdsKept_watched (tables : Tables) (manifest : Manifest) :
    HoldsKept (watched tables manifest) :=
  ⟨fun _ h => mem_heldIds.mp h, by rintro a ⟨⟩⟩

end Runs

/-! ### Single calls -/

section Calls
variable (C : Config) (E : Environment) (options : Options)

/-- `forget` up to the deletion: the caller's slice, if there is something to delete in it. -/
def forgetBegin (id : String) : Act (Option (Option TenantFilter)) := do
  let tenant ← freshTenantFilter C options .write none
  let existing ← Act.get id tenant
  assertForgettable C existing tenant id options
  pure (if existing.isSome then some tenant else none)

/-- What stops the deletion that the caller may ask for. -/
def SparesForget (w : World) (id : String) : Prop :=
  ∀ tenant u, (forgetBegin C options id).exec (handle C E) w = (.ok (some tenant), u) →
    Stopped C w.tables (E.writeClock u.writes) id tenant

/-- An item of a batch delete: what it came to, and the world around it. -/
structure Deletion where
  id : String
  result : Except Thrown String
  before : World
  after : World

def deletions : World → List String → List Deletion
  | _, [] => []
  | w, id :: ids =>
    let r := (deleteItem C options id).exec (handle C E) w
    ⟨id, r.1, w, r.2⟩ :: deletions r.2 ids

/-- The outcomes that the batch returns. -/
def outcomesOf : ℕ → List Deletion → List (ItemOutcome String)
  | _, [] => []
  | index, d :: rest => ⟨index, some d.id, d.result⟩ :: outcomesOf (index + 1) rest

variable {C E options}

theorem forget_eq (id : String) : forget C id options =
    forgetBegin C options id >>= fun begun => begun.elim (pure false) (Act.forget id) := by
  unfold forget forgetBegin
  simp only [Prog.bind_assoc]
  refine congrArg _ (funext fun tenant => congrArg _ (funext fun existing => congrArg _ (funext fun _ => ?_)))
  cases existing <;> rfl

theorem reads_forgetBegin (id : String) : (forgetBegin C options id).Only Ask.Reads := by
  unfold forgetBegin
  refine only_bind (only_freshTenantFilter C (fun q h _ => h) _ _ _) fun tenant => ?_
  refine only_bind (only_request.mpr trivial) fun existing => ?_
  refine only_bind ?_ fun _ => trivial
  unfold assertForgettable
  split
  · exact only_bind (only_assertCanRead C _ _ _) fun _ => trivial
  · trivial

/-- `forget` does not delete and leaves everything of the memory exactly if the deletion is stopped. -/
theorem forget_spares_iff {w w' : World} {id : String} {r : Except Thrown Bool}
    (h : (forget C id options).exec (handle C E) w = (r, w')) :
    (r ≠ .ok true ∧ Untouched id w.tables w'.tables) ↔ SparesForget C E options w id := by
  rw [forget_eq, exec_bind] at h
  rcases hbegin : (forgetBegin C options id).exec (handle C E) w with ⟨begun, u⟩
  have htables : u.tables = w.tables := tables_of_exec (reads_forgetBegin id) hbegin
  rw [hbegin] at h
  unfold SparesForget
  rw [hbegin]
  cases begun with
  | error e =>
    cases h
    refine iff_of_true ⟨by simp, by rw [htables]; exact ⟨rfl, rfl, rfl⟩⟩ ?_
    rintro tenant u' ⟨⟩
  | ok slice =>
    cases slice with
    | none =>
      cases h
      refine iff_of_true ⟨by simp, by rw [htables]; exact ⟨rfl, rfl, rfl⟩⟩ ?_
      rintro tenant u' ⟨⟩
    | some tenant =>
      rcases hforget : Tables.forget C.backend u.tables (E.writeClock u.writes) id tenant with
        ⟨answer, after⟩
      have hanswer : r = answer.mapError ofFailure ∧ w'.tables = after := by
        have hexec : (Act.forget id tenant).exec (handle C E) u =
            (answer.mapError ofFailure, u.written after) := by
          rw [Act.forget, exec_bind, Act.ask, exec_request, continued_ok, exec_ofExcept]
          simp only [handle, hforget]
        cases hexec.symm.trans h
        exact ⟨rfl, rfl⟩
      have hok : r ≠ .ok true ↔ answer ≠ .ok true := by
        rw [hanswer.1]
        cases answer <;> simp [Except.mapError]
      rw [hok, hanswer.2, ← htables]
      refine (forget_unchanged_iff hforget).trans ⟨?_, fun hspared => hspared tenant u rfl⟩
      rintro hstopped _ _ ⟨⟩
      exact hstopped

/-- An item of a batch delete fails exactly where `forget` does not delete. -/
theorem deleteItem_spares_iff {w w' : World} {id : String} {r : Except Thrown String}
    (h : (deleteItem C options id).exec (handle C E) w = (r, w')) :
    ((∀ text, r ≠ .ok text) ∧ Untouched id w.tables w'.tables) ↔ SparesForget C E options w id := by
  unfold deleteItem at h
  rw [exec_bind] at h
  rcases hforget : (forget C id options).exec (handle C E) w with ⟨answer, u⟩
  rw [hforget] at h
  have hfails : ((∀ text, r ≠ .ok text) ↔ answer ≠ .ok true) ∧ w' = u := by
    cases answer with
    | error e =>
      cases h
      simp
    | ok deleted =>
      cases deleted <;> cases h <;> simp
  rw [hfails.1, hfails.2]
  exact forget_spares_iff hforget

theorem exec_deleteItems (ids : List String) (index : ℕ) (w : World) :
    ∃ w', (runItems (deleteItem C options) some index ids).exec (handle C E) w =
      (.ok (outcomesOf index (deletions C E options w ids)), w') := by
  induction ids generalizing index w with
  | nil => exact ⟨w, rfl⟩
  | cons id ids ih =>
    obtain ⟨w', hrest⟩ := ih (index + 1) ((deleteItem C options id).exec (handle C E) w).2
    refine ⟨w', ?_⟩
    unfold runItems
    rw [exec_bind, exec_attempt, continued_ok, exec_bind, hrest]
    rfl

/-- Each item of a batch is tried alone, in the world that the items before it have left. -/
theorem spared_deletions (ids : List String) (w : World) :
    ∀ d ∈ deletions C E options w ids,
      ((∀ text, d.result ≠ .ok text) ∧ Untouched d.id d.before.tables d.after.tables) ↔
        SparesForget C E options d.before d.id := by
  induction ids generalizing w with
  | nil => exact fun d hd => nomatch hd
  | cons id ids ih =>
    intro d hd
    rcases List.mem_cons.mp hd with rfl | hd
    · exact deleteItem_spares_iff rfl
    · exact ih _ d hd

end Calls

/-- Every hold that there has been stays, and every deletion of a held memory is refused and changes
    nothing of it, exactly as long as something else stops each of them; and so for a single `forget`
    and for each item of a batch delete. -/
theorem holds_iff (C : Config) (E : Environment) (fits : Snapshot → Bool) :
    (∀ tables manifest events,
      Transition.Everywhere (watchStep C E fits) HoldsKept (watched tables manifest) events ↔
        Transition.Along (watchStep C E fits) (Spares C E) (watched tables manifest) events) ∧
    (∀ options w id, carriesHold w.tables id = true →
      (((forget C id options).exec (handle C E) w).1 ≠ .ok true ∧
          Untouched id w.tables ((forget C id options).exec (handle C E) w).2.tables ↔
        SparesForget C E options w id)) ∧
    ∀ fits ids options w outcomes w',
      (batchDelete C fits ids options).exec (handle C E) w = (.ok outcomes, w') →
      outcomes = outcomesOf 0 (deletions C E options w.tick ids) ∧
        ∀ d ∈ deletions C E options w.tick ids, carriesHold d.before.tables d.id = true →
          ((∀ text, d.result ≠ .ok text) ∧ Untouched d.id d.before.tables d.after.tables ↔
            SparesForget C E options d.before d.id) := by
  refine ⟨fun tables manifest events => ?_, fun options w id _ => forget_spares_iff rfl,
    fun fits ids options w outcomes w' h => ⟨?_, fun d hd _ => spared_deletions ids w.tick d hd⟩⟩
  · exact Transition.everywhere_iff_along (fun s e t hs hok h => (holdsKept_step hs h).mpr hok)
      (fun s hs => hs) (fun s e t hs hnot h hkept => hnot ((holdsKept_step hs h).mp hkept))
      (holdsKept_watched tables manifest) events
  · obtain ⟨_, u, hensure, h⟩ := (exec_bind_eq_ok _).mp h
    have hu : u = w := by
      unfold Act.ensure at hensure
      split at hensure <;> cases hensure
      rfl
    obtain ⟨proceed, v, hask, h⟩ := (exec_bind_eq_ok _).mp h
    obtain ⟨_, x, hproceed, h⟩ := (exec_bind_eq_ok _).mp h
    have hx : x = w.tick := by
      cases hask
      rw [exec_ofExcept] at hproceed
      exact (congrArg Prod.snd hproceed).symm.trans (by rw [hu]; rfl)
    obtain ⟨_, hrun⟩ : ∃ w', (runItems (deleteItem C options) some 0 ids).exec (handle C E) w.tick =
      (.ok (outcomesOf 0 (deletions C E options w.tick ids)), w') := exec_deleteItems ids 0 w.tick
    rw [hx, hrun] at h
    cases h
    rfl

/-- A held memory is stored, and deleted. -/
def heldThenForgotten : List RequestEvent := [
  .call (.operation (.store { type := .fact, content := "tea at five", legalHold := some true } {})),
  .answer 0, .answer 0, .answer 0,
  .call (.operation (.forget "m-0" {})), .answer 1, .answer 1, .answer 1]

/-- The deletion is done, and the hold is gone with its memory. -/
theorem held_memory_is_forgotten :
    ¬ Transition.Everywhere (watchStep plainConfig steady fun _ => true) HoldsKept
      (watched {} ⟨"openai", .external, .internal, false, 0⟩) heldThenForgotten := by
  refine Transition.not_everywhere
    (fun t => t.held.contains "m-0" && !carriesHold t.requests.world.tables "m-0")
    (by decide +kernel) fun t hbad hkept => ?_
  rw [Bool.and_eq_true, List.contains_iff_mem, Bool.not_eq_true'] at hbad
  rw [hkept.held _ hbad.1] at hbad
  cases hbad.2

end Remembra.Service
