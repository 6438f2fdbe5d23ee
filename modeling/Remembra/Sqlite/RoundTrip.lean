import Remembra.Sqlite.Tenant

/-! What `get` reads of a record that `store` or `update` has returned. A record is written through one
    list of columns and read through another: `source` and `lastValidated` have no column, `update`
    leaves `sensitivity` and `legal_hold` as they are, and `rowToMemory` refuses scopes that the schema
    accepts. `round_trip_iff` says which writes read back. -/

namespace Remembra.Sqlite.Serial
open Store (Memory StoreInput TenantFilter UpdateOptions JsNum truthy isValidTenantId)

/-! ### Writes -/

/-- A call that returns the record it has written. -/
inductive Write where
  | store (now : ℤ) (id : String) (input : StoreInput) (embedding : Option (List JsNum))
  | update (now : ℤ) (memory : Memory) (options : UpdateOptions)

def Write.run (C : Config) (s : Tables) (tenant : Option TenantFilter) :
    Write → Except Failure Memory × Tables
  | .store now id input embedding => Tables.store C s now id input embedding tenant
  | .update now memory options => Tables.update C s now memory options tenant

/-- The entries are numbers that a blob of 32-bit floats keeps. -/
def Representable (P : Platform) (embedding : Option (List JsNum)) : Prop :=
  ∀ ns ∈ embedding, ns.map P.fround = ns

/-- The schema has accepted the input, and the embedding is representable. -/
def Write.Given (C : Config) : Write → Prop
  | .store _ _ input embedding =>
    input.Accepted C.platform.host ∧ Representable C.platform embedding
  | .update _ memory _ => Representable C.platform memory.embedding

/-- The record with the defaults of absent fields written out. -/
def withDefaults (m : Memory) : Memory :=
  { m with
    retention := some (m.retention.getD .decaying)
    sensitivity := some (m.sensitivity.getD .isPublic)
    legalHold := some (m.legalHold.getD false) }

/-- What `get` is to return after a write that has returned `m`. -/
def Write.expected (m : Memory) : Write → Memory
  | .store .. => withDefaults m
  | .update .. => m

/-! ### Writes that are kept -/

/-- A new record whose every field has a column, in a scope that `rowToMemory` accepts. -/
structure Insertable (id : String) (input : StoreInput) (embedding : Option (List JsNum)) : Prop where
  id : id ≠ ""
  scope : assertScope input.scope = true
  source : input.source = none
  embedding : embedding ≠ some []

/-- A record that `update` can write over the row so that it reads back as it is. -/
structure Updatable (row : Row) (memory : Memory) : Prop where
  id : memory.id ≠ ""
  scope : assertScope memory.scope = true
  content : memory.content ≠ ""
  tenantId : row.tenantId.all isValidTenantId = true
  projectId : row.projectId.all isValidTenantId = true
  userId : row.userId.all isValidTenantId = true
  agentId : row.agentId.all isValidTenantId = true
  source : memory.source = none
  lastValidated : memory.lastValidated = none
  sensitivity : memory.sensitivity = some row.sensitivity
  legalHold : memory.legalHold = some row.legalHold
  retention : memory.retention ≠ none
  owner : memory.owner ≠ none
  access : memory.access ≠ none
  relations : memory.relations ≠ some []
  validFrom : memory.validFrom ≠ some ""
  validUntil : memory.validUntil ≠ some ""
  observedAt : memory.observedAt ≠ some ""
  supersededBy : memory.supersededBy ≠ some ""
  lastSeen : memory.lastSeen ≠ some ""
  archivedAt : memory.archivedAt ≠ some ""
  embedding : memory.embedding ≠ some []

def Write.Kept (s : Tables) : Write → Prop
  | .store _ id input embedding => Insertable id input embedding
  | .update _ memory _ => ∀ row, s.memories.get memory.id = some row → Updatable row memory

/-! ### One column -/

theorem truthy_eq_self {v : Option String} : truthy v = v ↔ v ≠ some "" := by
  cases v with
  | none => simp [truthy]
  | some v => by_cases hv : v = "" <;> simp [truthy, hv]

theorem truthy_truthy (v : Option String) : truthy (truthy v) = truthy v := by
  rw [truthy_eq_self]
  cases v with
  | none => simp [truthy]
  | some v => by_cases hv : v = "" <;> simp [truthy, hv]

theorem some_getD_eq_self {α : Type} {v : Option α} {d : α} : some (v.getD d) = v ↔ v ≠ none := by
  cases v <;> simp

/-- The column `relations` has no value for a list that is absent. -/
theorem relations_eq_self {v : Option (List Store.Relation)} :
    (if v.getD [] = [] then none else some (v.getD [])) = v ↔ v ≠ some [] := by
  cases v with
  | none => simp
  | some l => by_cases hl : l = [] <;> simp [hl]

/-- The blob of an embedding without entries is `NULL`. -/
theorem embedToBlob_eq_self {P : Platform} {v : Option (List JsNum)} (h : Representable P v) :
    embedToBlob P v = v ↔ v ≠ some [] := by
  cases v with
  | none => simp [embedToBlob]
  | some ns =>
    by_cases hns : ns = []
    · simp [embedToBlob, hns]
    · simp [embedToBlob, hns, h ns rfl]

/-- The column `legal_hold` tells `true` from everything else. -/
theorem decide_holds (v : Option Bool) [Decidable (some true = v)] :
    decide (some true = v) = v.getD false := by
  rcases v with _ | _ | _ <;> simp

theorem clamped {row : Row} (h : checks row = true) :
    min 5 (max 1 row.importance) = row.importance ∧
      min 1 (max 0 row.confidence) = row.confidence := by
  simp only [checks, Bool.and_eq_true, decide_eq_true_eq] at h
  obtain ⟨⟨⟨hlow, hhigh⟩, hzero⟩, hone⟩ := h
  exact ⟨by omega, by rw [max_eq_right hzero, min_eq_right hone]⟩

/-! ### One write -/

section Writes
variable {C : Config} {s t : Tables} {tenant : Option TenantFilter} {m : Memory}

/-- The row of a new record is in the slice of the tenant it was written for. -/
theorem tenantWhere_rowOf (now : ℤ) (id : String) (input : StoreInput)
    (embedding : Option (List JsNum)) :
    tenantWhere tenant (rowOf C.platform (storeRecord C.platform now id input embedding tenant)) := by
  cases tenant with
  | none => rfl
  | some t =>
    have hdim : ∀ v : Option Store.TenantId,
        dimensionWhere (t.organizationWide = some true) (v.map (·.1)) (v.map (·.1)) = true := by
      rintro (_ | v)
      · simp [dimensionWhere, truthy]
      · rw [Option.map_some, dimensionWhere, truthy_tenantId]
        exact decide_eq_true rfl
    rw [tenantWhere_eq]
    simp only [Option.map_some, Columns.within, recordTenant, columns, Bool.and_eq_true]
    exact ⟨⟨⟨by simp [rowOf, storeRecord, Store.storeRecord], hdim t.projectId⟩, hdim t.userId⟩,
      hdim t.agentId⟩

theorem valid_dimension (v : Option Store.TenantId) :
    (v.map (·.1)).all isValidTenantId = true := by
  rcases v with _ | v
  · rfl
  · exact v.2

/-- The row of a new record can be read if its scope can. -/
theorem isReadable_rowOf {now : ℤ} {id : String} {input : StoreInput}
    {embedding : Option (List JsNum)} (hcontent : input.content ≠ "") :
    isReadable (rowOf C.platform (storeRecord C.platform now id input embedding tenant)) = true ↔
      id ≠ "" ∧ assertScope input.scope = true := by
  have hor := valid_dimension (tenant.map (·.organizationId))
  rw [Option.map_map] at hor
  have hp := valid_dimension (tenant.bind (·.projectId))
  have hu := valid_dimension (tenant.bind (·.userId))
  have ha := valid_dimension (tenant.bind (·.agentId))
  simp only [isReadable, rowOf, storeRecord, Store.storeRecord, Bool.and_eq_true]
  exact ⟨fun h => ⟨of_decide_eq_true h.1.1.1.1.1.1, h.1.1.1.1.1.2⟩,
    fun h => ⟨⟨⟨⟨⟨⟨decide_eq_true h.1, h.2⟩, hor⟩, hp⟩, hu⟩, ha⟩, decide_eq_true hcontent⟩⟩

/-- The fields of a new record that have a column read back with their defaults. -/
theorem memoryOf_rowOf {now : ℤ} {id : String} {input : StoreInput}
    {embedding : Option (List JsNum)} (hrep : Representable C.platform embedding)
    (hchecks : checks (rowOf C.platform (storeRecord C.platform now id input embedding tenant))) :
    memoryOf (rowOf C.platform (storeRecord C.platform now id input embedding tenant)) =
        withDefaults (storeRecord C.platform now id input embedding tenant) ↔
      input.source = none ∧ embedding ≠ some [] := by
  have hclamp := clamped hchecks
  have hor := truthy_of_valid (valid_dimension (tenant.map (·.organizationId)))
  rw [Option.map_map] at hor
  have hp := truthy_of_valid (valid_dimension (tenant.bind (·.projectId)))
  have hu := truthy_of_valid (valid_dimension (tenant.bind (·.userId)))
  have ha := truthy_of_valid (valid_dimension (tenant.bind (·.agentId)))
  simp only [rowOf, storeRecord, Store.storeRecord] at hclamp
  simp only [Function.comp_def] at hor
  simp only [memoryOf, withDefaults, rowOf, storeRecord, Store.storeRecord, Memory.mk.injEq,
    truthy_truthy, hor, hp, hu, ha, hclamp.1, hclamp.2, Option.getD_some,
    Option.getD_none, if_true, embedToBlob_eq_self hrep]
  simpa [eq_comm, truthy] using fun _ _ => decide_holds (input.legalHold.filter fun b => b)

theorem round_trip_store {now : ℤ} {id : String} {input : StoreInput}
    {embedding : Option (List JsNum)} (hinput : input.Accepted C.platform.host)
    (hrep : Representable C.platform embedding)
    (h : Tables.store C s now id input embedding tenant = (.ok m, t)) :
    get t.memories m.id tenant = some (withDefaults m) ↔ Insertable id input embedding := by
  obtain ⟨hm, hrow, hchecks⟩ := Tables.store_ok h
  subst hm
  rw [get, Table.get_insert hrow]
  change (Option.filter _ (if id = id then _ else _)).bind _ = _ ↔ _
  rw [if_pos rfl,
    Option.filter_some_pos (tenantWhere_rowOf now id input embedding), Option.bind_some,
    rowToMemory_eq_some, isReadable_rowOf hinput.content,
    eq_comm (a := withDefaults _), memoryOf_rowOf hrep hchecks]
  exact ⟨fun h => ⟨h.1.1, h.1.2, h.2.1, h.2.2⟩, fun h => ⟨⟨h.id, h.scope⟩, h.source, h.embedding⟩⟩

/-- The row that an update writes reads as the record it returns, except where the record has what
    the columns cannot hold. -/
theorem memoryOf_setUpdated {now : ℤ} {row : Row} (hrep : Representable C.platform m.embedding)
    (hread : isReadable (setUpdated C.platform (updatedOver C now row m) row) = true)
    (hid : row.id = m.id) (hchecks : checks (setUpdated C.platform (updatedOver C now row m) row)) :
    memoryOf (setUpdated C.platform (updatedOver C now row m) row) = updatedOver C now row m ↔
      m.source = none ∧ m.lastValidated = none ∧ m.sensitivity = some row.sensitivity ∧
        m.legalHold = some row.legalHold ∧ m.retention ≠ none ∧ m.owner ≠ none ∧
        m.access ≠ none ∧ m.relations ≠ some [] ∧ m.validFrom ≠ some "" ∧
        m.validUntil ≠ some "" ∧ m.observedAt ≠ some "" ∧ m.supersededBy ≠ some "" ∧
        m.lastSeen ≠ some "" ∧ m.archivedAt ≠ some "" ∧ m.embedding ≠ some [] := by
  have hclamp := clamped hchecks
  obtain ⟨hor, hp, hu, ha⟩ := dims_of_read (rowToMemory_eq_some.mpr ⟨hread, rfl⟩)
  simp only [memoryOf, setUpdated, rowOf, updatedOver, updatedFrom] at hclamp hor hp hu ha
  simp only [memoryOf, setUpdated, rowOf, updatedOver, updatedFrom, Memory.mk.injEq, hor, hp, hu, ha,
    hclamp.1, hclamp.2, hid, truthy_eq_self, some_getD_eq_self, relations_eq_self,
    embedToBlob_eq_self hrep]
  grind

theorem isReadable_setUpdated {now : ℤ} {row : Row} :
    isReadable (setUpdated C.platform (updatedOver C now row m) row) = true ↔
      row.id ≠ "" ∧ assertScope m.scope = true ∧ row.tenantId.all isValidTenantId = true ∧
        row.projectId.all isValidTenantId = true ∧ row.userId.all isValidTenantId = true ∧
        row.agentId.all isValidTenantId = true ∧ m.content ≠ "" := by
  simp only [isReadable, setUpdated, rowOf, updatedOver, updatedFrom, Bool.and_eq_true, and_assoc]
  constructor
  · rintro ⟨hid, hscope, hor, hp, hu, ha, hcontent⟩
    exact ⟨of_decide_eq_true hid, hscope, hor, hp, hu, ha, of_decide_eq_true hcontent⟩
  · rintro ⟨hid, hscope, hor, hp, hu, ha, hcontent⟩
    exact ⟨decide_eq_true hid, hscope, hor, hp, hu, ha, decide_eq_true hcontent⟩

theorem round_trip_update {now : ℤ} {memory : Memory} {options : UpdateOptions}
    (hrep : Representable C.platform memory.embedding)
    (h : Tables.update C s now memory options tenant = (.ok m, t)) :
    get t.memories m.id tenant = some m ↔
      ∀ row, s.memories.get memory.id = some row → Updatable row memory := by
  obtain ⟨e, -, he, -⟩ | ⟨row, hrow, -, -, ⟨-, he, -⟩ | ⟨hchecks, hr, hget, -⟩⟩ :=
    Tables.update_cases h
  · cases he
  · cases he
  · obtain rfl := Except.ok.inj hr
    obtain ⟨hold, hsees⟩ := selected_eq_some.mp (Tables.existing_eq_ok hrow).1
    have hid : row.id = memory.id := Table.key_of_get hold
    have hsees' : tenantWhere tenant (setUpdated C.platform (updatedOver C now row memory) row) :=
      hsees
    change (Option.filter _ (t.memories.get memory.id)).bind _ = _ ↔ _
    rw [hget, if_pos rfl, Option.filter_some_pos hsees', Option.bind_some, rowToMemory_eq_some,
      eq_comm (a := updatedOver ..)]
    constructor
    · rintro ⟨hread, hsame⟩ r hr
      obtain rfl := Option.some.inj (hold.symm.trans hr)
      obtain ⟨hne, hscope, hor, hp, hu, ha, hcontent⟩ := isReadable_setUpdated.mp hread
      obtain ⟨h1, h2, h3, h4, h5, h6, h7, h8, h9, h10, h11, h12, h13, h14, h15⟩ :=
        (memoryOf_setUpdated hrep hread hid hchecks).mp hsame
      exact ⟨hid ▸ hne, hscope, hcontent, hor, hp, hu, ha, h1, h2, h3, h4, h5, h6, h7, h8, h9, h10,
        h11, h12, h13, h14, h15⟩
    · intro hkept
      have hk := hkept row hold
      have hread : isReadable (setUpdated C.platform (updatedOver C now row memory) row) = true :=
        isReadable_setUpdated.mpr ⟨hid ▸ hk.id, hk.scope, hk.tenantId, hk.projectId, hk.userId,
          hk.agentId, hk.content⟩
      exact ⟨hread, (memoryOf_setUpdated hrep hread hid hchecks).mpr ⟨hk.source, hk.lastValidated,
        hk.sensitivity, hk.legalHold, hk.retention, hk.owner, hk.access, hk.relations, hk.validFrom,
        hk.validUntil, hk.observedAt, hk.supersededBy, hk.lastSeen, hk.archivedAt, hk.embedding⟩⟩

end Writes

/-- A record that `store` or `update` has returned is what `get` returns next, defaults apart for a
    new one, exactly if each of its fields has a column that is written and `rowToMemory` reads. -/
theorem round_trip_iff {C : Config} {s t : Tables} {tenant : Option TenantFilter} {m : Memory}
    {w : Write} (hw : w.Given C) (h : w.run C s tenant = (.ok m, t)) :
    get t.memories m.id tenant = some (w.expected m) ↔ w.Kept s := by
  cases w with
  | store now id input embedding => exact round_trip_store hw.1 hw.2 h
  | update now memory options => exact round_trip_update hw h

/-- A note whose scope has two dots in it, which is no segment. -/
def dotted : StoreInput := { type := .fact, content := "ship on friday", scope := "plans..2026" }

theorem accepted_dotted : dotted.Accepted ticking := by
  constructor <;> decide

/-- Storing the note with a plain scope reads back. -/
theorem round_trip_iff_plain :
    get (Tables.store tickingConfig {} 0 "m-1" { dotted with scope := "plans" } none none).2.memories
        "m-1" none =
      some (withDefaults
        (storeRecord tickingConfig.platform 0 "m-1" { dotted with scope := "plans" } none none)) :=
  (@round_trip_iff tickingConfig {} _ none _ (.store 0 "m-1" { dotted with scope := "plans" } none)
    ⟨by constructor <;> decide, nofun⟩ (by rfl)).mpr
    ⟨by decide, by decide +kernel, rfl, nofun⟩

/-- The schema accepts the scope and `store` returns the note, and then no `get` finds it. -/
theorem dotted_scope_is_unreadable :
    dotted.Accepted ticking ∧
      (Tables.store tickingConfig {} 0 "m-1" dotted none none).1 =
        .ok (storeRecord tickingConfig.platform 0 "m-1" dotted none none) ∧
      get (Tables.store tickingConfig {} 0 "m-1" dotted none none).2.memories "m-1" none = none :=
  ⟨accepted_dotted, by rfl, by rfl⟩


end Remembra.Sqlite.Serial
