import Remembra.Sqlite.Backend

/-! Version history. An update that changes the content leaves a version of the old one, and then
    prunes: the versions in the memory's slice of the tenants that are not among the newest of this
    memory go, those of every other memory of the slice with them (`prune_is_not_per_memory`).

    Beside the tables a run carries the pre-images of each memory, newest first. While every update
    finds no version of another memory in its slice and writes later than the memory's versions,
    `history` answers the newest pre-images of that memory (`history_per_memory`). -/

namespace Remembra.Sqlite.Serial
open Store (Memory StoreInput TenantFilter UpdateOptions JsNum truthy)

/-- A content that an update replaced, the reason the update gave and when it did. -/
structure PreImage where
  content : String
  reason : Option String
  replacedAt : String
  deriving DecidableEq

inductive Call where
  | store (now : ℤ) (id : String) (input : StoreInput) (embedding : Option (List JsNum))
      (tenant : Option TenantFilter)
  | update (now : ℤ) (memory : Memory) (options : UpdateOptions) (tenant : Option TenantFilter)
  | archive (now : ℤ) (id : String) (tenant : Option TenantFilter)
  | revive (now : ℤ) (id : String) (tenant : Option TenantFilter)
  | forget (now : ℤ) (id : String) (tenant : Option TenantFilter)

/-- The tables and, for each memory, the contents that updates have replaced since it was stored. -/
structure Traced where
  tables : Tables := {}
  preImages : String → List PreImage := fun _ => []

section Calls
variable (C : Config)

/-- The pre-image that an update leaves when it succeeds. -/
def replaced (s : Tables) (now : ℤ) (memory : Memory) (options : UpdateOptions)
    (tenant : Option TenantFilter) : List PreImage :=
  match s.existing memory options tenant with
  | .ok row =>
    if memory.content = row.content then [] else [⟨row.content, options.reason, stamp C now⟩]
  | .error _ => []

def Traced.step (s : Traced) : Call → Option Traced
  | .store now id input embedding tenant =>
    match Tables.store C s.tables now id input embedding tenant with
    | (.ok m, t) => some ⟨t, Function.update s.preImages m.id []⟩
    | (.error _, t) => some { s with tables := t }
  | .update now memory options tenant =>
    match Tables.update C s.tables now memory options tenant with
    | (.ok _, t) => some ⟨t, Function.update s.preImages memory.id
        (replaced C s.tables now memory options tenant ++ s.preImages memory.id)⟩
    | (.error _, t) => some { s with tables := t }
  | .archive now id tenant => some { s with tables := (Tables.archive C s.tables now id tenant).2 }
  | .revive now id tenant => some { s with tables := (Tables.revive C s.tables now id tenant).2 }
  | .forget now id tenant =>
    match Tables.forget C s.tables now id tenant with
    | (.ok true, t) => some ⟨t, Function.update s.preImages id []⟩
    | (_, t) => some { s with tables := t }

/-- The answer of `history` about pre-images. -/
def entries (images : List PreImage) : List HistoryEntry :=
  images.mapIdx fun i p => ⟨"snapshot-" ++ toString i ++ ".md", p.content, p.reason, p.replacedAt⟩

/-- Whoever sees a memory is told its newest pre-images up to the limit, and nobody else anything. -/
def PerMemory (s : Traced) : Prop :=
  ∀ id tenant, s.tables.history id tenant =
    if (s.tables.memories.get id).any (tenantWhere tenant) then
      entries ((s.preImages id).take C.historyLimit)
    else []

/-- What a call finds before it: an update that changes the content writes a row that the table takes,
    after every version of the memory, and its slice holds no version of another memory; the audit
    rows of a memory that is forgotten are all in the slice of the caller. -/
def undisturbed (s : Tables) : Call → Bool
  | .update now memory options tenant =>
    match s.existing memory options tenant with
    | .ok row => memory.content = row.content ||
        (checks (setUpdated C.platform (updatedOver C now row memory) row) &&
          s.versions.all fun v =>
            if v.memoryId = memory.id then v.createdAt < stamp C now
            else !v.tenant.within (withDimensions tenant (some (rowDimensions row))))
    | .error _ => true
  | .forget _ id tenant => (selected s.memories id tenant).isNone ||
      s.audit.all fun a => a.memoryId ≠ id || a.tenant.within (tenant.map recordTenant)
  | _ => true

end Calls

/-! ### The invariant -/

def VersionRow.preImage (v : VersionRow) : PreImage := ⟨v.content, v.reason, v.createdAt⟩

/-- The versions of one memory, in the order they were written. -/
def versionsOf (versions : List VersionRow) (id : String) : List VersionRow :=
  versions.filter fun v => v.memoryId = id

/-- The row's columns are those of a filter that a schema accepts. -/
def Plain (row : Row) : Prop :=
  truthy row.projectId = row.projectId ∧ truthy row.userId = row.userId ∧
    truthy row.agentId = row.agentId ∧ (row.tenantId = none → columns row = {})

structure Inv (C : Config) (s : Traced) : Prop where
  plain : ∀ id row, s.tables.memories.get id = some row → Plain row
  owner : ∀ v ∈ s.tables.versions, ∃ row, s.tables.memories.get v.memoryId = some row ∧
    v.tenant = columns row
  kept : ∀ id row, s.tables.memories.get id = some row →
    (versionsOf s.tables.versions id).map VersionRow.preImage =
      ((s.preImages id).take C.historyLimit).reverse
  fresh : ∀ id, s.tables.memories.get id = none → s.preImages id = []
  ids : (s.tables.versions.map VersionRow.id).Nodup
  below : ∀ v ∈ s.tables.versions, v.id ≤ s.tables.sequence
  increasing : ∀ id, (versionsOf s.tables.versions id).Pairwise fun v w => v.createdAt < w.createdAt

section Inv
variable {C : Config} {s t : Traced}

theorem inv_start : Inv C {} := by
  constructor <;> simp [Table.get, Table.empty, versionsOf]

/-- What the invariant says of the answers. -/
theorem Inv.perMemory (hs : Inv C s) : PerMemory C s := by
  intro id tenant
  cases hget : s.tables.memories.get id with
  | none =>
    have hnone : ∀ v ∈ s.tables.versions, v.memoryId ≠ id := by
      rintro v hv rfl
      obtain ⟨row, hrow, -⟩ := hs.owner v hv
      rw [hrow] at hget
      cases hget
    have hempty : s.tables.versions.filter (fun v =>
        v.memoryId = id && v.tenant.within (tenant.map recordTenant)) = [] := by
      refine List.filter_eq_nil_iff.mpr fun v hv => ?_
      simp [hnone v hv]
    simp [Tables.history, hempty, newestFirst]
  | some row =>
    have hslice : s.tables.versions.filter (fun v =>
        v.memoryId = id && v.tenant.within (tenant.map recordTenant)) =
          if tenantWhere tenant row then versionsOf s.tables.versions id else [] := by
      have hwithin : ∀ v ∈ s.tables.versions, v.memoryId = id →
          v.tenant.within (tenant.map recordTenant) = tenantWhere tenant row := by
        rintro v hv rfl
        obtain ⟨row', hrow', htenant⟩ := hs.owner v hv
        rw [hget, Option.some.injEq] at hrow'
        rw [htenant, tenantWhere_eq, hrow']
      split
      · rename_i hwhere
        refine List.filter_congr fun v hv => ?_
        by_cases hid : v.memoryId = id
        · simp [hid, hwithin v hv hid, hwhere]
        · simp [hid]
      · rename_i hwhere
        refine List.filter_eq_nil_iff.mpr fun v hv => ?_
        by_cases hid : v.memoryId = id
        · simp [hid, hwithin v hv hid, hwhere]
        · simp [hid]
    rw [Tables.history, hslice, Option.any_some]
    split
    · rw [newestFirst_eq_reverse (hs.increasing id), entries, ← List.reverse_reverse
        ((s.preImages id).take C.historyLimit), ← hs.kept id row hget, ← List.map_reverse]
      refine List.ext_getElem (by simp) fun i _ _ => ?_
      simp [VersionRow.preImage]
    · rfl

theorem plain_of_columns {row row' : Row} (h : columns row' = columns row) (hp : Plain row) :
    Plain row' := by
  rw [columns, columns, Columns.mk.injEq] at h
  obtain ⟨h₁, h₂, h₃, h₄⟩ := h
  simp only [Plain, columns, h₁, h₂, h₃, h₄] at hp ⊢
  exact hp

/-- The slice that a version of a row is written to is the row's. -/
theorem columnsOf_rowDimensions {row : Row} {tenant : Option TenantFilter} (hp : Plain row)
    (hsees : tenantWhere tenant row = true) :
    columnsOf (withDimensions tenant (some (rowDimensions row))) = columns row := by
  cases tenant with
  | none =>
    rw [tenantWhere, decide_eq_true_iff] at hsees
    exact (hp.2.2.2 hsees).symm
  | some t =>
    simp only [tenantWhere, Bool.and_eq_true, decide_eq_true_iff] at hsees
    simp [withDimensions, columnsOf, rowDimensions, columns, hsees.1.1.1]

theorem within_rowDimensions {row : Row} {tenant : Option TenantFilter} (hp : Plain row)
    (hsees : tenantWhere tenant row = true) :
    (columns row).within (withDimensions tenant (some (rowDimensions row))) = true := by
  cases tenant with
  | none => exact hsees
  | some t =>
    simp only [tenantWhere, Bool.and_eq_true, decide_eq_true_iff] at hsees
    simp only [withDimensions, rowDimensions, Option.getD_some, Columns.within, dimensionWhere, columns,
      hsees.1.1.1, hp.1, hp.2.1, hp.2.2.1]
    rcases row.projectId with _ | p <;> rcases row.userId with _ | u <;>
      rcases row.agentId with _ | a <;> simp

/-- The same memories, each with the columns it had. -/
def SameColumns (memories memories' : Memories) : Prop :=
  ∀ k, (memories'.get k).map columns = (memories.get k).map columns

theorem SameColumns.symm {memories memories' : Memories} (h : SameColumns memories memories') :
    SameColumns memories' memories := fun k => (h k).symm

theorem SameColumns.get {memories memories' : Memories} (h : SameColumns memories memories')
    {k : String} {row : Row} (hrow : memories.get k = some row) :
    ∃ row', memories'.get k = some row' ∧ columns row' = columns row := by
  have hk := h k
  rw [hrow, Option.map_some, Option.map_eq_some_iff] at hk
  exact hk

theorem SameColumns.get_none {memories memories' : Memories} (h : SameColumns memories memories')
    {k : String} (hnone : memories.get k = none) : memories'.get k = none := by
  have hk := h k
  rwa [hnone, Option.map_none, Option.map_eq_none_iff] at hk

theorem SameColumns.plain {memories memories' : Memories} (h : SameColumns memories memories')
    (hplain : ∀ k row, memories.get k = some row → Plain row) (k : String) (row : Row)
    (hrow : memories'.get k = some row) : Plain row := by
  obtain ⟨old, hold, hcols⟩ := h.symm.get hrow
  exact plain_of_columns hcols.symm (hplain k old hold)

/-- The owner of a version is still there. -/
theorem SameColumns.owner {memories memories' : Memories} (h : SameColumns memories memories')
    {v : VersionRow} (hv : ∃ row, memories.get v.memoryId = some row ∧ v.tenant = columns row) :
    ∃ row, memories'.get v.memoryId = some row ∧ v.tenant = columns row := by
  obtain ⟨row, hrow, htenant⟩ := hv
  obtain ⟨row', hrow', hcols⟩ := h.get hrow
  exact ⟨row', hrow', htenant.trans hcols.symm⟩

theorem sameColumns_updateWhere {memories : Memories} {p : Row → Bool} {f : Row → Row}
    {hf : ∀ r, (f r).id = r.id} (hcolumns : ∀ r, columns (f r) = columns r) :
    SameColumns memories (memories.updateWhere p f hf).1 := by
  intro k
  rw [Table.get_updateWhere, Option.map_map]
  refine congrArg (fun g => (memories.get k).map g) (funext fun r => ?_)
  simp only [Function.comp_apply]
  split
  · exact hcolumns r
  · rfl

/-- A call that writes no version and leaves the columns as they are. -/
theorem inv_of_rows {t : Tables} (hs : Inv C s) (hversions : t.versions = s.tables.versions)
    (hsequence : t.sequence = s.tables.sequence)
    (hrows : SameColumns s.tables.memories t.memories) : Inv C { s with tables := t } := by
  constructor
  case plain => exact hrows.plain hs.plain
  case owner => exact fun v hv => hrows.owner (hs.owner v (hversions ▸ hv))
  case kept =>
    intro id row hget
    obtain ⟨row', hrow', -⟩ := hrows.symm.get hget
    simpa only [hversions] using hs.kept id row' hrow'
  case fresh => exact fun id hget => hs.fresh id (hrows.symm.get_none hget)
  case ids => simpa only [hversions] using hs.ids
  case below => simpa only [hversions, hsequence] using hs.below
  case increasing => simpa only [hversions] using hs.increasing

/-- A row for a new record. -/
theorem inv_of_insert {t : Tables} {m : Memory} {images : String → List PreImage} (hs : Inv C s)
    (hversions : t.versions = s.tables.versions) (hsequence : t.sequence = s.tables.sequence)
    (hinsert : s.tables.memories.insert (rowOf C.platform m) = some t.memories)
    (hplain : Plain (rowOf C.platform m)) (himages : images m.id = [])
    (hothers : ∀ id, id ≠ m.id → images id = s.preImages id) : Inv C ⟨t, images⟩ := by
  have hget : ∀ k, t.memories.get k = if k = m.id then some (rowOf C.platform m)
      else s.tables.memories.get k := Table.get_insert hinsert
  have hfree : s.tables.memories.get m.id = none := (Table.rows_insert hinsert).1
  have hnone : ∀ v ∈ s.tables.versions, v.memoryId ≠ m.id := by
    rintro v hv hid
    obtain ⟨row, hrow, -⟩ := hs.owner v hv
    rw [hid, hfree] at hrow
    cases hrow
  constructor
  case plain =>
    intro id row hrow
    rw [hget id] at hrow
    split at hrow
    · cases hrow
      exact hplain
    · exact hs.plain id row hrow
  case owner =>
    intro v hv
    rw [hversions] at hv
    obtain ⟨row, hrow, htenant⟩ := hs.owner v hv
    exact ⟨row, by rw [hget, if_neg (hnone v hv), hrow], htenant⟩
  case kept =>
    intro id row hrow
    rw [hget id] at hrow
    simp only [hversions]
    split at hrow
    · rename_i hid
      rw [hid, himages, List.take_nil, List.reverse_nil, List.map_eq_nil_iff, versionsOf,
        List.filter_eq_nil_iff]
      exact fun v hv => by simpa using hnone v hv
    · rename_i hid
      rw [hothers id hid]
      exact hs.kept id row hrow
  case fresh =>
    intro id hnone
    rw [hget id] at hnone
    split at hnone
    · cases hnone
    · rename_i hid
      exact (hothers id hid).trans (hs.fresh id hnone)
  case ids => simpa only [hversions] using hs.ids
  case below => simpa only [hversions, hsequence] using hs.below
  case increasing => simpa only [hversions] using hs.increasing

/-- Pruning a slice that holds the versions of one memory only: of that memory the last versions are
    kept, and nothing else goes. -/
theorem versionsOf_prune {versions : List VersionRow} {limit : ℕ} {id : String}
    {scope : Option RecordTenant} (hids : (versions.map VersionRow.id).Nodup)
    (hmine : ∀ v ∈ versions, v.tenant.within scope = decide (v.memoryId = id))
    (hincreasing : (versionsOf versions id).Pairwise fun v w => v.createdAt < w.createdAt) :
    versionsOf (prune limit id scope versions) id =
        ((versionsOf versions id).reverse.take limit).reverse ∧
      ∀ k, k ≠ id → versionsOf (prune limit id scope versions) k = versionsOf versions k := by
  have hslice : (versions.filter fun v => v.memoryId = id && v.tenant.within scope) =
      versionsOf versions id := by
    refine List.filter_congr fun v hv => ?_
    rw [hmine v hv, Bool.and_self]
  constructor
  · have hkeep : (versionsOf versions id).filter (fun v => v.id ∈
        ((newestFirst VersionRow.createdAt (versionsOf versions id)).take limit).map VersionRow.id) =
          ((versionsOf versions id).reverse.take limit).reverse :=
      filter_mem_newest limit (hids.sublist (List.filter_sublist.map _)) hincreasing
    have hids : keptIds limit id scope versions = ((newestFirst VersionRow.createdAt
        (versionsOf versions id)).take limit).map VersionRow.id := by rw [keptIds, hslice]
    rw [← hkeep, ← hids, versionsOf, versionsOf, prune, List.filter_filter, List.filter_filter]
    refine List.filter_congr fun v hv => ?_
    rw [hmine v hv]
    by_cases hid : v.memoryId = id <;> simp [hid]
  · intro k hk
    rw [versionsOf, prune, List.filter_filter]
    refine List.filter_congr fun v hv => ?_
    rw [hmine v hv]
    by_cases hid : v.memoryId = k
    · simp [hid, hk]
    · simp [hid]

/-! The versions with one more at their end, before the pruning. -/

theorem versionsOf_concat_self (versions : List VersionRow) (new : VersionRow) :
    versionsOf (versions ++ [new]) new.memoryId = versionsOf versions new.memoryId ++ [new] := by
  rw [versionsOf, List.filter_append, List.filter_singleton, decide_eq_true rfl]
  rfl

theorem versionsOf_concat_of_ne (versions : List VersionRow) {new : VersionRow} {k : String}
    (hk : k ≠ new.memoryId) : versionsOf (versions ++ [new]) k = versionsOf versions k := by
  rw [versionsOf, List.filter_append, List.filter_singleton, decide_eq_false (Ne.symm hk)]
  exact List.append_nil _

theorem ids_concat {new : VersionRow} (hs : Inv C s) (hnew : new.id = s.tables.sequence + 1) :
    ((s.tables.versions ++ [new]).map VersionRow.id).Nodup := by
  rw [List.map_append, List.nodup_append]
  refine ⟨hs.ids, List.nodup_singleton _, ?_⟩
  intro i hi j hj
  obtain ⟨v, hv, rfl⟩ := List.mem_map.mp hi
  have hbelow := hs.below v hv
  rw [List.map_singleton, List.mem_singleton] at hj
  omega

theorem increasing_concat {new : VersionRow} (hs : Inv C s)
    (hlater : ∀ v ∈ s.tables.versions, v.memoryId = new.memoryId → v.createdAt < new.createdAt)
    (k : String) : (versionsOf (s.tables.versions ++ [new]) k).Pairwise
      fun v w => v.createdAt < w.createdAt := by
  by_cases hk : k = new.memoryId
  · rw [hk, versionsOf_concat_self, List.pairwise_append]
    refine ⟨hs.increasing _, List.pairwise_singleton _ _, ?_⟩
    intro v hv w hw
    rw [versionsOf, List.mem_filter, decide_eq_true_iff] at hv
    rw [List.mem_singleton] at hw
    exact hw ▸ hlater v hv.1 hv.2
  · rw [versionsOf_concat_of_ne _ hk]
    exact hs.increasing k

/-- Where the slice holds no version of another memory, it is those of the one that gets the new. -/
theorem within_concat {new : VersionRow} {scope : Option RecordTenant} {row : Row} (hs : Inv C s)
    (hget : s.tables.memories.get new.memoryId = some row) (htenant : new.tenant = columns row)
    (hwithin : (columns row).within scope = true)
    (hout : ∀ v ∈ s.tables.versions, v.memoryId ≠ new.memoryId → v.tenant.within scope = false) :
    ∀ v ∈ s.tables.versions ++ [new],
      v.tenant.within scope = decide (v.memoryId = new.memoryId) := by
  intro v hv
  rcases List.mem_append.mp hv with hv | hv
  · by_cases hid : v.memoryId = new.memoryId
    · obtain ⟨old, hold, hcolumns⟩ := hs.owner v hv
      rw [hid, hget, Option.some.injEq] at hold
      rw [hcolumns, ← hold, hwithin, decide_eq_true hid]
    · rw [hout v hv hid, decide_eq_false hid]
  · rw [List.mem_singleton.mp hv, htenant, hwithin, decide_eq_true rfl]

/-- The version of an update that changes the content. -/
theorem inv_snapshot {now : ℤ} {memory : Memory} {options : UpdateOptions}
    {tenant : Option TenantFilter} {row : Row} {u : Tables} (hs : Inv C s)
    (hget : s.tables.memories.get memory.id = some row) (hsees : tenantWhere tenant row = true)
    (hchanged : memory.content ≠ row.content)
    (hslice : ∀ v ∈ s.tables.versions, (if v.memoryId = memory.id then
      decide (v.createdAt < stamp C now)
        else !v.tenant.within (withDimensions tenant (some (rowDimensions row)))) = true)
    (hversions : u.versions = (Tables.snapshot C s.tables now row memory options tenant).versions)
    (hsequence : u.sequence = (Tables.snapshot C s.tables now row memory options tenant).sequence)
    (hcolumns : SameColumns s.tables.memories u.memories) :
    Inv C ⟨u, Function.update s.preImages memory.id
      ([⟨row.content, options.reason, stamp C now⟩] ++ s.preImages memory.id)⟩ := by
  have hplain := hs.plain memory.id row hget
  have hscope := columnsOf_rowDimensions hplain hsees
  have hwithin := within_rowDimensions hplain hsees
  rw [Tables.snapshot, if_neg hchanged, Tables.snapshotHistory] at hversions hsequence
  generalize withDimensions tenant (some (rowDimensions row)) = scope at *
  let new : VersionRow :=
    ⟨s.tables.sequence + 1, memory.id, columnsOf scope, row.content, options.reason, stamp C now⟩
  have hids : ((s.tables.versions ++ [new]).map VersionRow.id).Nodup := ids_concat hs rfl
  have hmine : ∀ v ∈ s.tables.versions ++ [new],
      v.tenant.within scope = decide (v.memoryId = memory.id) := by
    refine within_concat hs hget hscope hwithin fun v hv hid => ?_
    have hout := hslice v hv
    rwa [if_neg hid, Bool.not_eq_true'] at hout
  have hincreasing : ∀ k, (versionsOf (s.tables.versions ++ [new]) k).Pairwise
      fun v w => v.createdAt < w.createdAt := by
    refine increasing_concat hs fun v hv hid => ?_
    have hlater := hslice v hv
    rwa [if_pos hid, decide_eq_true_iff] at hlater
  -- what is there after it
  have hsub : u.versions.Sublist (s.tables.versions ++ [new]) := by
    rw [hversions]
    split
    · exact List.sublist_append_left _ _
    · exact List.filter_sublist
  have hbelow : ∀ v ∈ u.versions, v.id ≤ u.sequence := by
    intro v hv
    rw [hsequence]
    split
    · rename_i hzero
      rw [hversions, if_pos hzero] at hv
      exact hs.below v hv
    · rcases List.mem_append.mp (hsub.subset hv) with hv | hv
      · exact (hs.below v hv).trans (Nat.le_succ _)
      · exact (List.mem_singleton.mp hv).symm ▸ le_rfl
  have hkept : versionsOf u.versions memory.id =
      ((versionsOf s.tables.versions memory.id ++ [new]).reverse.take C.historyLimit).reverse := by
    rw [hversions]
    split
    · rename_i hzero
      have hnone := hs.kept memory.id row hget
      rw [hzero, List.take_zero, List.reverse_nil, List.map_eq_nil_iff] at hnone
      rw [hzero, List.take_zero]
      exact hnone
    · rw [← versionsOf_concat_self s.tables.versions new]
      exact (versionsOf_prune hids hmine (hincreasing memory.id)).1
  have hothers : ∀ k, k ≠ memory.id → versionsOf u.versions k = versionsOf s.tables.versions k := by
    intro k hk
    rw [hversions]
    split
    · rfl
    · exact ((versionsOf_prune hids hmine (hincreasing memory.id)).2 k hk).trans
        (versionsOf_concat_of_ne _ hk)
  constructor
  case plain => exact hcolumns.plain hs.plain
  case owner =>
    intro v hv
    refine hcolumns.owner ?_
    rcases List.mem_append.mp (hsub.subset hv) with hv | hv
    · exact hs.owner v hv
    · exact List.mem_singleton.mp hv ▸ ⟨row, hget, hscope⟩
  case kept =>
    intro k row' hrow'
    obtain ⟨old, hold, -⟩ := hcolumns.symm.get hrow'
    by_cases hk : k = memory.id
    · subst hk
      simp only [Function.update_self]
      rw [hkept, List.map_reverse, List.map_take, List.reverse_append,
        List.reverse_singleton, List.singleton_append, List.map_cons, List.map_reverse,
        hs.kept _ old hold, List.reverse_reverse, take_cons_take]
      rfl
    · simp only [hothers k hk, Function.update_of_ne hk]
      exact hs.kept k old hold
  case fresh =>
    intro k hnone
    have hold := hcolumns.symm.get_none hnone
    have hk : k ≠ memory.id := by
      rintro rfl
      rw [hget] at hold
      cases hold
    simp only [Function.update_of_ne hk]
    exact hs.fresh k hold
  case ids => exact hids.sublist (hsub.map _)
  case below => exact hbelow
  case increasing =>
    exact fun k => (hincreasing k).sublist (hsub.filter _)

theorem inv_update {now : ℤ} {memory : Memory} {options : UpdateOptions}
    {tenant : Option TenantFilter} (hs : Inv C s)
    (hok : undisturbed C s.tables (.update now memory options tenant) = true)
    (ht : s.step C (.update now memory options tenant) = some t) : Inv C t := by
  simp only [Traced.step] at ht
  rcases hcall : Tables.update C s.tables now memory options tenant with ⟨r, u⟩
  rw [hcall] at ht
  rcases Tables.update_cases hcall with ⟨e, -, rfl, rfl⟩ | ⟨row, hrow, hversions, hsequence, hcases⟩
  · cases ht
    exact hs
  · obtain ⟨hget, hsees⟩ := selected_eq_some.mp (Tables.existing_eq_ok hrow).1
    have hplain := hs.plain memory.id row hget
    simp only [undisturbed, hrow, Bool.or_eq_true, decide_eq_true_iff] at hok
    -- the columns of a row outlive the update
    have hcolumns : ∀ memories : Memories, (∀ k, memories.get k = if k = memory.id then
        some (setUpdated C.platform (updatedOver C now row memory) row)
          else s.tables.memories.get k) → SameColumns s.tables.memories memories := by
      intro memories hmemories k
      rw [hmemories]
      split
      · rename_i hk
        rw [hk, hget]
        rfl
      · rfl
    by_cases hsame : memory.content = row.content
    · have hsnap : Tables.snapshot C s.tables now row memory options tenant = s.tables := if_pos hsame
      rw [hsnap] at hversions hsequence hcases
      rcases hcases with ⟨-, rfl, rfl⟩ | ⟨-, rfl, hmemories, -⟩
      · cases ht
        exact hs
      · have hnew := inv_of_rows hs hversions hsequence (hcolumns _ hmemories)
        simp only [replaced, hrow, if_pos hsame, List.nil_append, Function.update_eq_self,
          Option.some.injEq] at ht
        exact ht ▸ hnew
    · have hok := hok.resolve_left hsame
      rw [Bool.and_eq_true, List.all_eq_true] at hok
      obtain ⟨hchecks, hslice⟩ := hok
      rcases hcases with ⟨hrefused, -⟩ | ⟨-, rfl, hmemories, -⟩
      · rw [hchecks] at hrefused
        cases hrefused
      · simp only [replaced, hrow, if_neg hsame, Option.some.injEq] at ht
        subst ht
        exact inv_snapshot hs hget hsees hsame hslice hversions hsequence (hcolumns _ hmemories)

theorem plain_storeRecord {now : ℤ} {id : String} {input : StoreInput}
    {embedding : Option (List JsNum)} {tenant : Option TenantFilter} :
    Plain (rowOf C.platform (storeRecord C.platform now id input embedding tenant)) := by
  have hdim : ∀ value : Option Store.TenantId, truthy (value.map (·.1)) = value.map (·.1) := by
    rintro (_ | v)
    · rfl
    · exact truthy_tenantId v
  refine ⟨hdim _, hdim _, hdim _, fun hnone => ?_⟩
  cases tenant with
  | none => rfl
  | some t => cases hnone

/-- A row that goes with its versions. -/
theorem inv_of_delete {t : Tables} {id : String} (hs : Inv C s)
    (hversions : t.versions = s.tables.versions.filter fun v => v.memoryId ≠ id)
    (hsequence : t.sequence = s.tables.sequence)
    (hgone : ∀ k, t.memories.get k = if k = id then none else s.tables.memories.get k) :
    Inv C ⟨t, Function.update s.preImages id []⟩ := by
  have hmem : ∀ v ∈ t.versions, v ∈ s.tables.versions ∧ v.memoryId ≠ id := by
    intro v hv
    rw [hversions, List.mem_filter] at hv
    exact ⟨hv.1, of_decide_eq_true hv.2⟩
  have hothers : ∀ k, k ≠ id → versionsOf t.versions k = versionsOf s.tables.versions k := by
    intro k hk
    rw [versionsOf, hversions, List.filter_filter]
    refine List.filter_congr fun v _ => ?_
    by_cases hv : v.memoryId = k
    · simp [hv, hk]
    · simp [hv]
  constructor
  case plain =>
    intro k row hget
    rw [hgone] at hget
    split at hget
    · cases hget
    · exact hs.plain k row hget
  case owner =>
    intro v hv
    obtain ⟨row, hget, htenant⟩ := hs.owner v (hmem v hv).1
    exact ⟨row, by rw [hgone, if_neg (hmem v hv).2, hget], htenant⟩
  case kept =>
    intro k row hget
    rw [hgone] at hget
    split at hget
    · cases hget
    · rename_i hk
      simp only [hothers k hk, Function.update_of_ne hk]
      exact hs.kept k row hget
  case fresh =>
    intro k hget
    by_cases hk : k = id
    · simp only [hk, Function.update_self]
    · rw [hgone, if_neg hk] at hget
      simp only [Function.update_of_ne hk]
      exact hs.fresh k hget
  case ids =>
    rw [hversions]
    exact hs.ids.sublist (List.filter_sublist.map _)
  case below =>
    intro v hv
    rw [hsequence]
    exact hs.below v (hmem v hv).1
  case increasing =>
    intro k
    rw [hversions]
    exact (hs.increasing k).sublist (List.filter_sublist.filter _)

theorem inv_forget {now : ℤ} {id : String} {tenant : Option TenantFilter} (hs : Inv C s)
    (hok : undisturbed C s.tables (.forget now id tenant) = true)
    (ht : s.step C (.forget now id tenant) = some t) : Inv C t := by
  simp only [Traced.step] at ht
  rcases hcall : Tables.forget C s.tables now id tenant with ⟨r, u⟩
  rw [hcall] at ht
  rcases Tables.forget_cases hcall with ⟨rfl, rfl⟩ | ⟨row, hsel, hsequence, haudit, hcases⟩
  · cases ht
    exact hs
  · have hrow := selected_eq_some.mp hsel
    simp only [undisturbed, hsel, Option.isNone_some, Bool.false_or, List.all_eq_true,
      Bool.or_eq_true, decide_eq_true_iff] at hok
    rcases hcases with ⟨⟨a, ha, haid⟩, -⟩ | ⟨-, rfl, hmemories, hversions⟩
    · -- every audit row of the memory is in the slice, that of the call itself too
      rw [haudit, List.mem_filter, List.mem_append, List.mem_singleton] at ha
      obtain ⟨ha | rfl, hout⟩ := ha
      · rcases hok a ha with hne | hin
        · exact absurd haid hne
        · simp [haid, hin] at hout
      · have hin : (columnsOf (withDimensions tenant (some (rowDimensions row)))).within
            (tenant.map recordTenant) = true := by
          rw [columnsOf_rowDimensions (hs.plain id row hrow.1) hrow.2, ← tenantWhere_eq]
          exact hrow.2
        simp [auditRow, hin] at hout
    · cases ht
      exact inv_of_delete hs hversions hsequence fun k => hmemories ▸ get_deleteWhere_selected hsel k

theorem inv_step {c : Call} (hs : Inv C s) (hok : undisturbed C s.tables c = true)
    (ht : s.step C c = some t) : Inv C t := by
  cases c with
  | store now id input embedding tenant =>
    simp only [Traced.step] at ht
    rcases hcall : Tables.store C s.tables now id input embedding tenant with ⟨r, u⟩
    rw [hcall] at ht
    obtain ⟨⟨hversions, hsequence⟩, ⟨⟨e, rfl⟩, -, hmemories⟩ | ⟨rfl, hinsert, -⟩⟩ :=
      Tables.store_cases hcall
    · cases ht
      rcases hmemories with hmemories | hinsert
      · exact inv_of_rows hs hversions hsequence (hmemories ▸ fun _ => rfl)
      · have hfree := (Table.rows_insert hinsert).1
        exact inv_of_insert hs hversions hsequence hinsert plain_storeRecord (hs.fresh _ hfree)
          fun _ _ => rfl
    · cases ht
      exact inv_of_insert hs hversions hsequence hinsert plain_storeRecord (Function.update_self ..)
        fun k hk => Function.update_of_ne hk ..
  | update now memory options tenant => exact inv_update hs hok ht
  | archive now id tenant =>
    simp only [Traced.step] at ht
    rcases hcall : Tables.archive C s.tables now id tenant with ⟨r, u⟩
    rw [hcall] at ht
    cases ht
    obtain ⟨⟨hversions, hsequence⟩, ⟨-, -, rfl⟩ | ⟨row, -, -, -, hmemories, -⟩⟩ :=
      Tables.archive_cases hcall
    · exact hs
    · refine inv_of_rows hs hversions hsequence ?_
      rw [hmemories]
      exact sameColumns_updateWhere fun _ => rfl
  | revive now id tenant =>
    simp only [Traced.step] at ht
    rcases hcall : Tables.revive C s.tables now id tenant with ⟨r, u⟩
    rw [hcall] at ht
    cases ht
    obtain ⟨⟨hversions, hsequence⟩, ⟨-, -, rfl⟩ | ⟨row, -, -, hmemories, -⟩⟩ :=
      Tables.revive_cases hcall
    · exact hs
    · refine inv_of_rows hs hversions hsequence ?_
      rw [hmemories]
      exact sameColumns_updateWhere fun _ => rfl
  | forget now id tenant => exact inv_forget hs hok ht

end Inv

/-! ### Histories -/

/-- Over every run of calls that find the tables as `undisturbed` says: in every state, `history` of a
    memory answers its newest pre-images up to the limit, newest first, whatever is done to others. -/
theorem history_per_memory (C : Config) (calls : List Call)
    (h : Transition.Along (Traced.step C) (fun s c => undisturbed C s.tables c = true) {} calls) :
    Transition.Everywhere (Traced.step C) (PerMemory C) {} calls :=
  Transition.everywhere_of_along (fun _ _ _ hs hok ht => inv_step hs hok ht)
    (fun _ hs => hs.perMemory) calls inv_start h

/-- A platform whose clock ticks through the first milliseconds of 2026. -/
def ticking : Store.Host :=
  { Store.newYear with
    toISOString := fun t => "2026-01-01T00:00:00.00" ++ toString (t % 10).toNat ++ "Z" }

def tickingConfig : Config := { platform := { host := ticking, fround := id } }

/-- The memory `id` as it was stored, with another content. -/
def edited (id content : String) : Memory :=
  { storeRecord tickingConfig.platform 0 id Store.preference none none with content := content }

/-- One memory is stored, and two updates change its content. -/
def edits : List Call :=
  [.store 0 "m-1" Store.preference none none, .update 1 (edited "m-1" "Prefers tables.") {} none,
    .update 2 (edited "m-1" "Prefers lists.") { reason := some "asked" } none]

theorem history_per_memory_edits :
    Transition.Everywhere (Traced.step tickingConfig) (PerMemory tickingConfig) {} edits :=
  history_per_memory tickingConfig edits (by decide +kernel)

/-- Two memories are stored and updated in turn: the version of the first goes with the second's
    update. -/
theorem prune_is_not_per_memory :
    ¬ Transition.Everywhere (Traced.step tickingConfig) (PerMemory tickingConfig) {}
      [.store 0 "m-1" Store.preference none none, .store 1 "m-2" Store.preference none none,
        .update 2 (edited "m-1" "Prefers tables.") {} none,
        .update 3 (edited "m-2" "Prefers lists.") {} none] := by
  refine Transition.not_everywhere (fun s => (s.tables.memories.get "m-1").any (tenantWhere none) &&
    s.tables.history "m-1" none = [] && s.preImages "m-1" ≠ []) (by decide +kernel) ?_
  intro s hbad hs
  simp only [Bool.and_eq_true, decide_eq_true_iff] at hbad
  obtain ⟨⟨hsees, hnone⟩, himages⟩ := hbad
  have htold := hs "m-1" none
  rw [if_pos hsees, hnone] at htold
  rcases hp : s.preImages "m-1" with _ | ⟨p, images⟩
  · exact himages hp
  · have hlength := congrArg List.length htold
    simp [hp, entries, tickingConfig] at hlength

end Remembra.Sqlite.Serial
