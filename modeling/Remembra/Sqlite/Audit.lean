import Remembra.Sqlite.History

/-! The audit trail. Each call that reports a change appends a row to `memory_audit`, in the slice of
    its caller, and nothing but `forget` removes one: its last statements delete the rows of the memory,
    the row that the call itself has just written with them (`forget_leaves_no_trail`). So the trail of
    a call lasts, through all later calls on other memories, exactly if the call is not a `forget`
    (`trail_iff`). -/

namespace Remembra.Sqlite.Serial
open Store (Memory StoreInput TenantFilter TenantId JsNum truthy memoryBelongsToTenant
  matchesDimension)

inductive Request where
  | call (c : Call)
  | importMemory (now : ℤ) (m : Memory) (tenant : Option TenantFilter)
  | importBatch (now : ℤ) (memories : List Memory) (tenant : Option TenantFilter)

def Call.tenant : Call → Option TenantFilter
  | .store _ _ _ _ tenant | .update _ _ _ tenant | .archive _ _ tenant | .revive _ _ tenant
  | .forget _ _ tenant => tenant

def Call.id : Call → String
  | .store _ id _ _ _ | .archive _ id _ | .revive _ id _ | .forget _ id _ => id
  | .update _ memory _ _ => memory.id

def Request.tenant : Request → Option TenantFilter
  | .call c => c.tenant
  | .importMemory _ _ tenant | .importBatch _ _ tenant => tenant

/-- The memories that a request is about. -/
def Request.ids : Request → List String
  | .call c => [c.id]
  | .importMemory _ m _ => [m.id]
  | .importBatch _ memories _ => memories.map (·.id)

/-- A change that a request reports; an import is of a record. -/
structure Done where
  action : Action
  id : String
  imported : Option Memory := none

section Requests
variable (C : Config)

/-- The changes that a call reports. -/
def Tables.perform (s : Tables) : Call → Except Failure (List Done) × Tables
  | .store now id input embedding tenant =>
    (Tables.store C s now id input embedding tenant).map
      (fun r => r.map fun m => [{ action := .store, id := m.id }]) fun t => t
  | .update now memory options tenant =>
    (Tables.update C s now memory options tenant).map
      (fun r => r.map fun m => [{ action := .update, id := m.id }]) fun t => t
  | .archive now id tenant =>
    (Tables.archive C s now id tenant).map
      (fun r => r.map fun m => m.toList.map fun _ => { action := .archive, id := id }) fun t => t
  | .revive now id tenant =>
    (Tables.revive C s now id tenant).map
      (fun r => r.map fun m => m.toList.map fun _ => { action := .revive, id := id }) fun t => t
  | .forget now id tenant =>
    (Tables.forget C s now id tenant).map
      (fun r => r.map fun found => if found then [{ action := .forget, id := id }] else []) fun t => t

def Tables.serve (s : Tables) : Request → Except Failure (List Done) × Tables
  | .call c => Tables.perform C s c
  | .importMemory now m tenant =>
    (Tables.importMemory C s now m tenant).map
      (fun r => r.map fun added =>
        if added then [{ action := .import, id := m.id, imported := some m }] else []) fun t => t
  | .importBatch now memories tenant =>
    (Tables.importBatch C s now memories tenant).map
      (fun r => r.map fun answer =>
        answer.1.map fun m => { action := .import, id := m.id, imported := some m }) fun t => t

/-- The tables after a list of requests. -/
def Tables.serveAll (s : Tables) (requests : List Request) : Tables :=
  requests.foldl (fun s r => (Tables.serve C s r).2) s

end Requests

/-- The request archives or revives a row that reads as no record: the call answers `null`. -/
def unreadable (C : Config) (s : Tables) : Request → Bool
  | .call (.archive _ id tenant) =>
    (selected s.memories id tenant).any fun row => row.archivedAt = none && !isReadable row
  | .call (.revive _ id tenant) =>
    (selected s.memories id tenant).any fun row => row.archivedAt ≠ none &&
      !isReadable row && (Tables.insertFts C s id).isSome
  | _ => false

/-- How many of the events that `getAudit` tells a tenant are of this action on this memory. -/
def Tables.events (s : Tables) (limit : ℕ) (tenant : Option TenantFilter) (d : Done) : ℕ :=
  (s.getAudit limit none tenant).countP fun a => a.action = d.action && a.memoryId = d.id

/-- The dimension of a record, where it has one, is the filter's. -/
def names (filter : Option TenantId) (value : Option String) : Bool :=
  filter.all fun f => (truthy value).all (· = f.1)

def inSlice (tenant : Option TenantFilter) (m : Memory) : Bool :=
  tenant.all fun t => names t.projectId m.projectId && names t.userId m.userId &&
    names t.agentId m.agentId

/-! ### Visible rows -/

section Visible
variable {t : TenantFilter} {m : Memory}

/-- One dimension of an audit row, read back through the filter it was written under. -/
theorem dimension_visible (filter : Option TenantId) (value : Option String) (wide : Bool)
    (h : filter = none → wide = true ∨ truthy value = none) :
    dimensionWhere wide (filter.map (·.1)) (((truthy value).map some).getD (filter.map (·.1))) =
      names filter value := by
  cases filter with
  | none =>
    have hnone := h rfl
    cases hv : truthy value <;> simp_all [names, truthy, dimensionWhere]
  | some f =>
    rw [Option.map_some, dimensionWhere, truthy_tenantId]
    cases hv : truthy value <;> simp [names, hv]

/-- The row that is written for a record of the tenant is told to the tenant exactly if the filter
    names the record's dimensions. -/
theorem within_memoryDimensions {tenant : Option TenantFilter}
    (h : ∀ t ∈ tenant, t.organizationWide = some true ∨
      (t.projectId = none → truthy m.projectId = none) ∧ (t.userId = none → truthy m.userId = none) ∧
        (t.agentId = none → truthy m.agentId = none)) :
    (columnsOf (withDimensions tenant (some (memoryDimensions m)))).within
      (tenant.map recordTenant) = inSlice tenant m := by
  cases tenant with
  | none => rfl
  | some t =>
    have ht := h t rfl
    have hdim : ∀ (filter : Option TenantId) (value : Option String),
        (t.organizationWide = some true ∨ (filter = none → truthy value = none)) →
        filter = none → decide (t.organizationWide = some true) = true ∨ truthy value = none := by
      intro filter value hor hnone
      rcases hor with hwide | hnarrow
      · exact .inl (decide_eq_true hwide)
      · exact .inr (hnarrow hnone)
    simp only [withDimensions, columnsOf, Columns.within, Option.map_some, recordTenant,
      memoryDimensions, decide_true, Bool.true_and, inSlice, Option.all_some]
    rw [dimension_visible t.projectId m.projectId _ (hdim _ _ (ht.imp_right (·.1))),
      dimension_visible t.userId m.userId _ (hdim _ _ (ht.imp_right (·.2.1))),
      dimension_visible t.agentId m.agentId _ (hdim _ _ (ht.imp_right (·.2.2)))]

/-- The event of a change to a row that the tenant sees is told to the tenant. -/
theorem within_of_sees {tenant : Option TenantFilter} {row : Row}
    (hsees : tenantWhere tenant row = true)
    (hm : truthy m.projectId = truthy row.projectId ∧ truthy m.userId = truthy row.userId ∧
      truthy m.agentId = truthy row.agentId) :
    (columnsOf (withDimensions tenant (some (memoryDimensions m)))).within
      (tenant.map recordTenant) = true := by
  cases tenant with
  | none => rfl
  | some t =>
    have hdim : ∀ (filter : Option TenantId) (column value : Option String),
        truthy value = truthy column →
        dimensionWhere (t.organizationWide = some true) (filter.map (·.1)) column = true →
        names filter value = true ∧
          (t.organizationWide = some true ∨ (filter = none → truthy value = none)) := by
      intro filter column value hvalue h
      cases filter with
      | none =>
        simp only [dimensionWhere, Option.map_none, truthy, Option.filter_none, Bool.or_eq_true,
          decide_eq_true_iff] at h
        exact ⟨rfl, h.imp_right fun hnone _ => by rw [hvalue, hnone]; rfl⟩
      | some f =>
        rw [Option.map_some, dimensionWhere, truthy_tenantId, decide_eq_true_iff] at h
        exact ⟨by simp [names, hvalue, h], .inr fun hnone => absurd hnone (Option.some_ne_none f)⟩
    rw [tenantWhere_eq] at hsees
    simp only [Option.map_some, Columns.within, recordTenant, columns, Bool.and_eq_true] at hsees
    obtain ⟨hproject, hprojectNone⟩ := hdim _ _ _ hm.1 hsees.1.1.2
    obtain ⟨huser, huserNone⟩ := hdim _ _ _ hm.2.1 hsees.1.2
    obtain ⟨hagent, hagentNone⟩ := hdim _ _ _ hm.2.2 hsees.2
    rw [within_memoryDimensions, inSlice, Option.all_some, hproject, huser, hagent]
    · rfl
    · rintro t' ht'
      obtain rfl : t = t' := Option.some.inj ht'
      by_cases hwide : t.organizationWide = some true
      · exact .inl hwide
      · exact .inr ⟨hprojectNone.resolve_left hwide, huserNone.resolve_left hwide,
          hagentNone.resolve_left hwide⟩

/-- The event of the import of a record that belongs to the tenant. -/
theorem within_of_belongs {tenant : Option TenantFilter}
    (h : tenant.all (memoryBelongsToTenant m) = true) :
    (columnsOf (withDimensions tenant (some (memoryDimensions m)))).within
      (tenant.map recordTenant) = inSlice tenant m := by
  refine within_memoryDimensions fun t ht => ?_
  cases ht
  rw [Option.all_some, memoryBelongsToTenant, Bool.and_eq_true, Bool.or_eq_true,
    decide_eq_true_iff, decide_eq_true_iff] at h
  refine h.2.imp_right fun hdims => ?_
  have hnone : ∀ (filter : Option TenantId) (value : Option String),
      matchesDimension filter value = true → filter = none → truthy value = none := by
    rintro filter value hmatch rfl
    rw [matchesDimension, decide_eq_true_iff] at hmatch
    rw [hmatch]
    rfl
  simp only [Bool.and_eq_true] at hdims
  exact ⟨hnone _ _ hdims.1.1, hnone _ _ hdims.1.2, hnone _ _ hdims.2⟩

theorem within_storeRecord {C : Config} {now : ℤ} {id : String} {input : StoreInput}
    {embedding : Option (List JsNum)} {tenant : Option TenantFilter} :
    (columnsOf (withDimensions tenant (some (memoryDimensions
      (storeRecord C.platform now id input embedding tenant))))).within
        (tenant.map recordTenant) = true := by
  cases tenant with
  | none => rfl
  | some t =>
    have hnames : ∀ filter : Option TenantId, names filter (filter.map (·.1)) = true := by
      rintro (_ | f)
      · rfl
      · simp only [names, Option.map_some, truthy_tenantId, Option.all_some, decide_true]
    have hnone : ∀ filter : Option TenantId, filter = none → truthy (filter.map (·.1)) = none := by
      rintro _ rfl
      rfl
    rw [within_memoryDimensions]
    · rw [inSlice, Option.all_some, Bool.and_eq_true, Bool.and_eq_true]
      exact ⟨⟨hnames _, hnames _⟩, hnames _⟩
    · rintro t' ht'
      cases ht'
      exact .inr ⟨hnone _, hnone _, hnone _⟩

/-- The row that `forget` writes about the row it has selected. -/
theorem within_rowOfForget {tenant : Option TenantFilter} {row : Row}
    (hsees : tenantWhere tenant row = true) :
    (columnsOf (withDimensions tenant (some (rowDimensions row)))).within
      (tenant.map recordTenant) = true := by
  cases tenant with
  | none => rfl
  | some t =>
    have hcols : columnsOf (withDimensions (some t) (some (rowDimensions row))) = columns row := by
      have horg := hsees
      simp only [tenantWhere, Bool.and_eq_true, decide_eq_true_iff] at horg
      simp [withDimensions, columnsOf, rowDimensions, columns, horg.1.1.1]
    rw [hcols, ← tenantWhere_eq]
    exact hsees

end Visible

/-! ### What a request does to the trail -/

/-- The answer of a request and the audit rows after it: nothing is written, each change that is
    reported has its row, a row is written that is not reported, or a memory's rows are deleted. -/
inductive Served (C : Config) (s : Tables) (req : Request) :
    Except Failure (List Done) → List AuditRow → Prop where
  | quiet (r : Except Failure (List Done)) : (∀ done, r = .ok done → done = []) →
      unreadable C s req = false → Served C s req r s.audit
  | done (changes : List (Done × AuditRow)) : changes ≠ [] → (changes.map (·.1.id)).Nodup →
      (∀ c ∈ changes, c.1.id ∈ req.ids ∧ c.1.action ≠ .forget ∧ c.2.action = c.1.action ∧
        c.2.memoryId = c.1.id ∧ c.2.tenant.within (req.tenant.map recordTenant) =
          c.1.imported.all (inSlice req.tenant)) →
      Served C s req (.ok (changes.map (·.1))) (s.audit ++ changes.map (·.2))
  | silent (row : AuditRow) : row.memoryId ∈ req.ids → unreadable C s req = true →
      Served C s req (.ok []) (s.audit ++ [row])
  | forgot (id : String) (keep : AuditRow → Bool) : id ∈ req.ids →
      (∀ a, a.memoryId ≠ id → keep a = true) → (∀ a ∈ s.audit.filter keep, a.memoryId ≠ id) →
      Served C s req (.ok [{ action := .forget, id := id }]) (s.audit.filter keep)
  | stuck (e : Failure) (id : String) (keep : AuditRow → Bool) : id ∈ req.ids →
      (∀ a, a.memoryId ≠ id → keep a = true) → unreadable C s req = false →
      Served C s req (.error e) (s.audit.filter keep)

section Served
variable {C : Config} {s t : Tables}

/-- One change with its row. -/
theorem Served.one {req : Request} {d : Done} {row : AuditRow} (hid : d.id ∈ req.ids)
    (haction : d.action ≠ .forget) (hrow : row.action = d.action ∧ row.memoryId = d.id)
    (hsees : row.tenant.within (req.tenant.map recordTenant) = d.imported.all (inSlice req.tenant)) :
    Served C s req (.ok [d]) (s.audit ++ [row]) := by
  refine .done [(d, row)] (List.cons_ne_nil _ _) (List.nodup_singleton _) ?_
  intro c hc
  rw [List.mem_singleton] at hc
  rw [hc]
  exact ⟨hid, haction, hrow.1, hrow.2, hsees⟩

theorem served_call (c : Call) :
    Served C s (.call c) (Tables.perform C s c).1 (Tables.perform C s c).2.audit := by
  cases c with
  | store now id input embedding tenant =>
    rcases hcall : Tables.store C s now id input embedding tenant with ⟨r, t⟩
    simp only [Tables.perform, hcall, Prod.map]
    obtain ⟨-, ⟨⟨e, rfl⟩, haudit, -⟩ | ⟨rfl, -, haudit⟩⟩ := Tables.store_cases hcall
    · rw [haudit]
      exact .quiet _ nofun rfl
    · rw [haudit]
      exact .one (List.mem_singleton_self id) nofun ⟨rfl, rfl⟩ within_storeRecord
  | update now memory options tenant =>
    rcases hcall : Tables.update C s now memory options tenant with ⟨r, t⟩
    simp only [Tables.perform, hcall, Prod.map]
    have hsnap : ∀ row, (Tables.snapshot C s now row memory options tenant).audit = s.audit := by
      intro row
      unfold Tables.snapshot Tables.snapshotHistory
      split
      · rfl
      · split <;> rfl
    rcases Tables.update_cases hcall with ⟨e, -, rfl, rfl⟩ | ⟨row, hrow, -, -, hcases⟩
    · exact .quiet _ nofun rfl
    · rcases hcases with ⟨-, rfl, rfl⟩ | ⟨-, rfl, -, haudit⟩
      · rw [hsnap]
        exact .quiet _ nofun rfl
      · have hsees := (selected_eq_some.mp (Tables.existing_eq_ok hrow).1).2
        rw [haudit]
        exact .one (List.mem_singleton_self _) nofun ⟨rfl, rfl⟩
          (within_of_sees hsees ⟨rfl, rfl, rfl⟩)
  | archive now id tenant =>
    rcases hcall : Tables.archive C s now id tenant with ⟨r, t⟩
    simp only [Tables.perform, hcall, Prod.map]
    obtain ⟨-, ⟨hall, rfl, hsame⟩ | ⟨row, hsel, hactive, rfl, -, haudit⟩⟩ := Tables.archive_cases hcall
    · rw [hsame]
      refine .quiet _ (by rintro _ ⟨⟩; rfl) ?_
      rcases hrow : selected s.memories id tenant with _ | row
      · simp [unreadable, hrow]
      · simp_all [unreadable]
    · rw [haudit]
      have hread : isReadable (setArchived (stamp C now) row) = isReadable row := rfl
      rw [rowToMemory_eq, hread]
      cases hreadable : isReadable row with
      | false =>
        exact .silent _ (List.mem_singleton_self id) (by simp [unreadable, hsel, hactive, hreadable])
      | true =>
        exact .one (List.mem_singleton_self id) nofun ⟨rfl, rfl⟩
          (within_of_sees (selected_eq_some.mp hsel).2 ⟨truthy_truthy _, truthy_truthy _,
            truthy_truthy _⟩)
  | revive now id tenant =>
    rcases hcall : Tables.revive C s now id tenant with ⟨r, t⟩
    simp only [Tables.perform, hcall, Prod.map]
    obtain ⟨-, ⟨hall, rfl, hsame⟩ | ⟨row, hsel, harchived, -, hcases⟩⟩ := Tables.revive_cases hcall
    · rw [hsame]
      refine .quiet _ (by rintro _ ⟨⟩; rfl) ?_
      rcases hrow : selected s.memories id tenant with _ | row
      · simp [unreadable, hrow]
      · simp_all [unreadable]
    · rcases hcases with ⟨hfts, rfl, haudit⟩ | ⟨hfts, rfl, haudit⟩
      · rw [haudit]
        exact .quiet _ nofun (by simp [unreadable, hsel, hfts])
      · rw [haudit]
        have hread : isReadable (setRevived (stamp C now) row) = isReadable row := rfl
        rw [rowToMemory_eq, hread]
        cases hreadable : isReadable row with
        | false =>
          exact .silent _ (List.mem_singleton_self id)
            (by simp [unreadable, hsel, harchived, hreadable, hfts])
        | true =>
          exact .one (List.mem_singleton_self id) nofun ⟨rfl, rfl⟩
            (within_of_sees (selected_eq_some.mp hsel).2 ⟨truthy_truthy _, truthy_truthy _,
              truthy_truthy _⟩)
  | forget now id tenant =>
    rcases hcall : Tables.forget C s now id tenant with ⟨r, t⟩
    simp only [Tables.perform, hcall, Prod.map]
    rcases Tables.forget_cases hcall with ⟨rfl, rfl⟩ | ⟨row, hsel, -, haudit, hcases⟩
    · exact .quiet _ (by rintro _ ⟨⟩; rfl) rfl
    · -- the row of the call itself goes with the others
      have hown := within_rowOfForget (selected_eq_some.mp hsel).2
      have hrows : t.audit = s.audit.filter
          fun a => !(a.memoryId = id && a.tenant.within (tenant.map recordTenant)) := by
        rw [haudit, List.filter_append, List.filter_singleton]
        simp [auditRow, hown]
      have hkeep : ∀ a : AuditRow, a.memoryId ≠ id →
          (!(decide (a.memoryId = id) && a.tenant.within (tenant.map recordTenant))) = true := by
        intro a ha
        simp [ha]
      rcases hcases with ⟨-, rfl, -⟩ | ⟨hgone, rfl, -⟩
      · rw [hrows]
        exact .stuck _ id _ (List.mem_singleton_self id) hkeep rfl
      · rw [hrows] at hgone ⊢
        exact .forgot id _ (List.mem_singleton_self id) hkeep hgone

theorem served (req : Request) :
    Served C s req (Tables.serve C s req).1 (Tables.serve C s req).2.audit := by
  cases req with
  | call c => exact served_call c
  | importMemory now m tenant =>
    rcases hcall : Tables.importMemory C s now m tenant with ⟨r, t⟩
    simp only [Tables.serve, hcall, Prod.map]
    rcases Tables.importMemory_cases hcall with ⟨hr, haudit, -⟩ | ⟨rfl, hbelongs, -, haudit⟩
    · rw [haudit]
      refine .quiet _ ?_ rfl
      intro done hdone
      rcases r with e | added
      · cases hdone
      · cases added
        · cases hdone
          rfl
        · exact absurd rfl hr
    · rw [haudit]
      exact .one (List.mem_singleton_self m.id) nofun ⟨rfl, rfl⟩ (within_of_belongs hbelongs)
  | importBatch now memories tenant =>
    simp only [Tables.serve, Tables.importBatch]
    rcases hcall : Tables.importAll C s now tenant memories with ⟨e | ⟨imported, skipped⟩, t⟩
    · exact .quiet _ nofun rfl
    · obtain ⟨haudit, hnodup, hsub, hnew⟩ := Tables.importAll_ok hcall
      simp only [Prod.map]
      rw [haudit]
      rcases himported : imported with _ | ⟨m, rest⟩
      · rw [List.map_nil, List.append_nil]
        exact .quiet _ (by rintro _ ⟨⟩; rfl) rfl
      · rw [← himported]
        have hserved := @Served.done C s (.importBatch now memories tenant)
          (imported.map fun m => ({ action := .import, id := m.id, imported := some m },
            auditRow C now .import m.id none (some m.provenance) tenant (some (memoryDimensions m))))
          (by simp [himported]) (by simpa [Function.comp_def] using hnodup) ?_
        · simp only [List.map_map, Function.comp_def] at hserved
          exact hserved
        · intro c hc
          obtain ⟨m, hm, rfl⟩ := List.mem_map.mp hc
          exact ⟨List.mem_map_of_mem (hsub.subset hm), nofun, rfl, rfl, within_of_belongs (hnew m hm).2⟩

/-- The rows of a memory that the request is not about stay as they are. -/
theorem Served.elsewhere {req : Request} {r : Except Failure (List Done)} {rows : List AuditRow}
    (h : Served C s req r rows) {k : String} (hk : k ∉ req.ids) :
    rows.filter (fun a => a.memoryId = k) = s.audit.filter (fun a => a.memoryId = k) := by
  have hkeep : ∀ (id : String) (keep : AuditRow → Bool), id ∈ req.ids →
      (∀ a, a.memoryId ≠ id → keep a = true) →
      (s.audit.filter keep).filter (fun a => a.memoryId = k) =
        s.audit.filter (fun a => a.memoryId = k) := by
    intro id keep hid hkept
    rw [List.filter_filter]
    refine List.filter_congr fun a _ => ?_
    by_cases ha : a.memoryId = k
    · have hne : a.memoryId ≠ id := fun h => hk (ha ▸ h ▸ hid)
      simp [ha, hkept a hne]
    · simp [ha]
  cases h with
  | quiet => rfl
  | done changes hne hnodup hchanges =>
    have hnone : (changes.map (·.2)).filter (fun a => a.memoryId = k) = [] := by
      refine List.filter_eq_nil_iff.mpr fun a ha hak => ?_
      obtain ⟨c, hc, rfl⟩ := List.mem_map.mp ha
      obtain ⟨hid, -, -, hmem, -⟩ := hchanges c hc
      rw [← of_decide_eq_true hak, hmem] at hk
      exact hk hid
    rw [List.filter_append, hnone, List.append_nil]
  | silent row hid hunread =>
    rw [List.filter_append, List.filter_singleton]
    have hne : row.memoryId ≠ k := fun h => hk (h ▸ hid)
    simp [hne]
  | forgot id keep hid hkept hgone => exact hkeep id keep hid hkept
  | stuck e id keep hid hkept => exact hkeep id keep hid hkept

theorem serveAll_elsewhere {later : List Request} {k : String} (hk : ∀ b ∈ later, k ∉ b.ids) :
    (Tables.serveAll C s later).audit.filter (fun a => a.memoryId = k) =
      s.audit.filter (fun a => a.memoryId = k) := by
  induction later generalizing s with
  | nil => rfl
  | cons b later ih =>
    rw [Tables.serveAll, List.foldl_cons, ← Tables.serveAll,
      ih fun b' hb' => hk b' (List.mem_cons_of_mem b hb')]
    exact (served b).elsewhere (hk b List.mem_cons_self)

/-- A limit that is large enough leaves nothing out, and the order does not matter. -/
theorem events_eq {limit : ℕ} {tenant : Option TenantFilter} {d : Done}
    (h : s.audit.length ≤ limit) :
    s.events limit tenant d = (s.audit.filter fun a => a.memoryId = d.id).countP fun a =>
      a.tenant.within (tenant.map recordTenant) && a.action = d.action := by
  rw [Tables.events, Tables.getAudit, List.take_of_length_le]
  · rw [newestFirst_perm.countP_eq, List.countP_filter, List.countP_filter]
    refine List.countP_congr fun a _ => ?_
    simp only [truthy, Option.filter_none, Option.all_none, Bool.and_true, Bool.and_eq_true]
    tauto
  · rw [length_newestFirst]
    exact (List.length_filter_le _ _).trans h

/-- Whether an audit row is told to the request's tenant as this action. -/
def tells (req : Request) (d : Done) (a : AuditRow) : Bool :=
  a.tenant.within (req.tenant.map recordTenant) && a.action = d.action

/-- One row of the memory more is told exactly for the changes that leave a row. -/
theorem Served.event_iff {req : Request} {done : List Done} {rows : List AuditRow} {d : Done}
    (h : Served C s req (.ok done) rows) (hd : d ∈ done) :
    (rows.filter fun a => a.memoryId = d.id).countP (tells req d) =
        (s.audit.filter fun a => a.memoryId = d.id).countP (tells req d) + 1 ↔
      d.action ≠ .forget ∧ d.imported.all (inSlice req.tenant) = true := by
  cases h with
  | quiet _ hquiet =>
    rw [hquiet done rfl] at hd
    cases hd
  | silent => cases hd
  | forgot id keep hid hkept hgone =>
    obtain rfl := List.mem_singleton.mp hd
    have hnone : (s.audit.filter keep).filter (fun a => a.memoryId = id) = [] :=
      List.filter_eq_nil_iff.mpr fun a ha => by simpa using hgone a ha
    simp only [hnone, List.countP_nil]
    simp
  | done changes hne hnodup hchanges =>
    obtain ⟨c, hc, rfl⟩ := List.mem_map.mp hd
    obtain ⟨-, haction, hrow, hmem, hsees⟩ := hchanges c hc
    have hown : (changes.map (·.2)).filter (fun a => a.memoryId = c.1.id) = [c.2] := by
      obtain ⟨before, after, rfl⟩ := List.append_of_mem hc
      have hother : ∀ c' ∈ before ++ after, c'.2.memoryId ≠ c.1.id := by
        intro c' hc' heq
        have hmem' : c' ∈ before ++ c :: after := by
          rcases List.mem_append.mp hc' with h | h
          · exact List.mem_append_left _ h
          · exact List.mem_append_right _ (List.mem_cons_of_mem _ h)
        rw [(hchanges c' hmem').2.2.2.1] at heq
        rw [List.map_append, List.map_cons, List.nodup_middle, List.nodup_cons,
          ← List.map_append] at hnodup
        exact hnodup.1 (heq ▸ List.mem_map_of_mem hc')
      have hnone : ∀ l : List (Done × AuditRow), (∀ c' ∈ l, c' ∈ before ++ after) →
          (l.map (·.2)).filter (fun a => a.memoryId = c.1.id) = [] := by
        intro l hl
        refine List.filter_eq_nil_iff.mpr fun a ha => ?_
        obtain ⟨c', hc', rfl⟩ := List.mem_map.mp ha
        simpa using hother c' (hl c' hc')
      rw [List.map_append, List.map_cons, List.filter_append, List.filter_cons, hmem,
        decide_eq_true rfl, if_pos rfl, hnone before fun c' h => List.mem_append_left _ h,
        hnone after fun c' h => List.mem_append_right _ h]
      rfl
    rw [List.filter_append, hown, List.countP_append, List.countP_singleton, tells, hsees, hrow]
    simp [haction]

/-- What is not reported leaves no row. -/
theorem Served.sublist_iff {req : Request} {r : Except Failure (List Done)} {rows : List AuditRow}
    (h : Served C s req r rows) (hnone : ∀ done, r = .ok done → done = []) :
    rows.Sublist s.audit ↔ unreadable C s req = false := by
  cases h with
  | quiet _ _ hread => exact iff_of_true (List.Sublist.refl _) hread
  | done changes hne =>
    rw [List.map_eq_nil_iff.mp (hnone _ rfl)] at hne
    exact absurd rfl hne
  | silent row hid hunread =>
    rw [hunread]
    refine iff_of_false (fun hsub => ?_) nofun
    have hlength := hsub.length_le
    rw [List.length_append, List.length_singleton] at hlength
    omega
  | forgot => cases hnone _ rfl
  | stuck _ _ _ _ _ hread => exact iff_of_true List.filter_sublist hread

end Served

/-! ### The trail -/

/-- The event of a change is told to its caller after the call, and after any later requests about
    other memories. -/
def Lasts (C : Config) (s : Tables) (req : Request) (d : Done) : Prop :=
  ∀ later, (∀ b ∈ later, d.id ∉ b.ids) → ∀ limit, s.audit.length ≤ limit →
    (Tables.serveAll C (Tables.serve C s req).2 later).audit.length ≤ limit →
      (Tables.serveAll C (Tables.serve C s req).2 later).events limit req.tenant d =
        s.events limit req.tenant d + 1

/-- For every request in every state: a change that it reports has an event of its own that lasts,
    exactly unless the change is a `forget`, or the import of a record with another dimension than
    the filter of its caller names. A request that fails or reports no change adds no event, exactly
    unless it archives or revives a row that reads as no record. -/
theorem trail_iff (C : Config) (s : Tables) (req : Request) :
    (∀ done, (Tables.serve C s req).1 = .ok done → ∀ d ∈ done,
      (Lasts C s req d ↔ d.action ≠ .forget ∧ d.imported.all (inSlice req.tenant) = true)) ∧
    ((∀ done, (Tables.serve C s req).1 = .ok done → done = []) →
      ((Tables.serve C s req).2.audit.Sublist s.audit ↔ unreadable C s req = false)) := by
  have hserved := served (C := C) (s := s) req
  refine ⟨fun done hdone d hd => ?_, fun hnone => hserved.sublist_iff hnone⟩
  rw [hdone] at hserved
  rw [← hserved.event_iff hd, Lasts]
  generalize (Tables.serve C s req).2 = t
  constructor
  · intro h
    have hnow := h [] (fun b hb => absurd hb List.not_mem_nil) (max s.audit.length t.audit.length)
      (le_max_left _ _) (le_max_right _ _)
    rw [show Tables.serveAll C t [] = t from rfl] at hnow
    rwa [events_eq (le_max_right _ _), events_eq (le_max_left _ _)] at hnow
  · intro h later hlater limit hs hu
    rw [events_eq hu, events_eq hs, serveAll_elsewhere hlater]
    exact h

/-- The store of a memory in an empty database. -/
def firstStore : Request := .call (.store 0 "m-1" Store.preference none none)

def firstForget : Request := .call (.forget 1 "m-1" none)

theorem trail_iff_firstStore :
    Lasts tickingConfig {} firstStore { action := .store, id := "m-1" } ∧
      (Tables.serve tickingConfig {} firstForget).2.audit.Sublist [] := by
  constructor
  · exact ((trail_iff tickingConfig {} firstStore).1 [{ action := .store, id := "m-1" }] (by rfl) _
      (List.mem_singleton_self _)).mpr ⟨nofun, rfl⟩
  · exact ((trail_iff tickingConfig {} firstForget).2 (by rintro _ ⟨⟩; rfl)).mpr rfl

/-- A memory is stored and forgotten: `forget` answers `true` and no event tells of it. -/
theorem forget_leaves_no_trail :
    (Tables.serve tickingConfig (Tables.serve tickingConfig {} firstStore).2 firstForget).1 =
        .ok [{ action := .forget, id := "m-1" }] ∧
      ¬ Lasts tickingConfig (Tables.serve tickingConfig {} firstStore).2 firstForget
        { action := .forget, id := "m-1" } := by
  refine ⟨by rfl, fun h => ?_⟩
  have hnow := h [] (fun b hb => absurd hb List.not_mem_nil) 2 (by decide +kernel) (by decide +kernel)
  revert hnow
  decide +kernel

end Remembra.Sqlite.Serial
