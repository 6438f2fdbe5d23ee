import Mathlib
import Remembra.Service.Snapshot
import Remembra.Store.ImportAlone

/-! The preview of an import next to the import itself, over a store of files that nobody else writes
    to. Both prepare the same memories. The preparation screens them against what the caller sees, and
    the store then screens them against all of its files, so the two agree as long as no memory that the
    first screen lets through has the id of a file. -/

namespace Remembra.Service
open Store (Memory TenantFilter Files truthy isSafeScope memoryBelongsToTenant)
open Prog

/-! ### The two calls -/

section Calls
variable (C : Config) (fits : Snapshot → Bool)

/-- `previewSnapshot` of data that reads so. -/
def previewReadSnapshot (read : Except RemembraError Snapshot) (options : Options) :
    Act SnapshotPreview := do
  let prepared ← prepareReadImport C fits read options
  pure ⟨prepared.prepared.length + prepared.skipped, prepared.prepared.length, prepared.skipped⟩

/-- `importSnapshot` of data that reads so. -/
def importReadSnapshot (read : Except RemembraError Snapshot) (options : Options) :
    Job (ℕ × ℕ) := do
  let p ← lifted (prepareReadImport C fits read options)
  let answer ← Prog.request (Demand.importBatch p.prepared p.tenant)
  let (imported, skipped) ← Prog.ofExcept answer
  pure (imported, p.skipped + skipped)

end Calls

/-! ### What the files answer -/

section Files
variable (S : Store.Config) (rest : (q : Ask) → q.Answer)

/-- The answers of a store of files; what is no question to it is answered by the rest of the world. -/
def answerFiles (files : Files) : (q : Ask) → q.Answer
  | .get id tenant => Store.get S files id tenant
  | .all includeArchived tenant => Store.all S files includeArchived tenant
  | q => rest q

/-- An import writes to the files, and nothing else does. -/
def handleFiles (tag : String) : (q : Demand) → Files → q.Answer × Files
  | .ask q, files => (answerFiles S rest files q, files)
  | .importBatch memories tenant, files =>
    let r := Store.Import.importBatch S tenant tag files memories
    (r.1.mapError .error, r.2)

variable {S rest}

/-- A call that does not import leaves the files as they are. -/
theorem exec_lifted_files {α : Type} (p : Act α) (tag : String) (files : Files) :
    (lifted p).exec (handleFiles S rest tag) files =
      (p.answered (answerFiles S rest files), files) := by
  induction p with
  | done a => rfl
  | fail e => rfl
  | ask q next ih => exact ih _

theorem answered_ofRefusal_eq_ok {α : Type} {answer : (q : Ask) → q.Answer}
    {r : Except RemembraError α} {a : α} : (Act.ofRefusal r).answered answer = .ok a ↔ r = .ok a := by
  rw [Act.ofRefusal, answered_ofExcept]
  cases r <;> simp [Except.mapError]

/-- A filter that comes back is the one that the caller's options give. -/
theorem tenantFilter_of_answered {C : Config} {options : Options} {capability : Capability}
    {operation : Option AuthorizationOperation} {tenant : Option TenantFilter}
    {answer : (q : Ask) → q.Answer}
    (h : (freshTenantFilter C options capability operation).answered answer = .ok tenant) :
    tenantFilter C.strict options capability operation = .ok tenant := by
  unfold freshTenantFilter at h
  obtain ⟨proceed, -, h⟩ := (answered_bind_eq_ok _).mp h
  obtain ⟨u, -, h⟩ := (answered_bind_eq_ok _).mp h
  obtain ⟨filter, hfilter, h⟩ := (answered_bind_eq_ok _).mp h
  rw [answered_ofRefusal_eq_ok.mp hfilter]
  split at h
  · obtain ⟨valid, -, h⟩ := (answered_bind_eq_ok _).mp h
    obtain ⟨u', -, h⟩ := (answered_bind_eq_ok _).mp h
    cases h
    rfl
  · cases h
    rfl

end Files

/-! ### Where a prepared record goes -/

section Place
variable {C : Config} {options : Options} {tenant : Option TenantFilter}
  {raw : SnapshotMemory} {m : Memory}

/-- The two records have the same id, scope and tenant. -/
structure SamePlace (m n : Memory) : Prop where
  id : m.id = n.id
  scope : m.scope = n.scope
  tenantId : m.tenantId = n.tenantId
  projectId : m.projectId = n.projectId
  userId : m.userId = n.userId
  agentId : m.agentId = n.agentId

theorem SamePlace.belongs {n : Memory} (h : SamePlace m n) (t : TenantFilter) :
    memoryBelongsToTenant m t = memoryBelongsToTenant n t := by
  simp only [memoryBelongsToTenant, h.tenantId, h.projectId, h.userId, h.agentId]

theorem samePlace_withoutHidden (hidden : List String) (m : Memory) :
    SamePlace (withoutHidden hidden m) m := by
  simp only [withoutHidden]
  split_ifs <;> exact ⟨rfl, rfl, rfl, rfl, rfl, rfl⟩

theorem samePlace_ownedMemory {owned : Memory} (h : ownedMemory C options m = .ok owned) :
    SamePlace owned m := by
  unfold ownedMemory at h
  split at h
  · obtain ⟨policy, -, rfl⟩ := except_map_eq_ok.mp h
    exact ⟨rfl, rfl, rfl, rfl, rfl, rfl⟩
  · cases h
    exact ⟨rfl, rfl, rfl, rfl, rfl, rfl⟩

theorem samePlace_preparedMemory (h : preparedMemory C options tenant raw = .ok m) :
    SamePlace m (normalizedMemory tenant raw) := by
  obtain ⟨owned, howned, h⟩ := except_bind_eq_ok.mp h
  obtain ⟨cleaned, hcleaned, h⟩ := except_bind_eq_ok.mp h
  obtain ⟨_, -, h⟩ := except_bind_eq_ok.mp h
  cases h
  obtain ⟨held, -, rfl⟩ := except_map_eq_ok.mp hcleaned
  have hplace := samePlace_ownedMemory howned
  exact ⟨hplace.id, hplace.scope, hplace.tenantId, hplace.projectId, hplace.userId, hplace.agentId⟩

theorem isAlphanum_of_isHex {c : Char} (h : isHex c = true) : c.isAlphanum = true := by
  simp only [isHex, Bool.or_eq_true, Bool.and_eq_true, decide_eq_true_eq] at h
  rw [Char.isAlphanum, Bool.or_eq_true]
  rcases h with h | ⟨hlow, hhigh⟩
  · exact .inr h
  · refine .inl ?_
    rw [Char.isAlpha, Bool.or_eq_true]
    refine .inr ?_
    rw [Char.isLower, Bool.and_eq_true]
    exact ⟨decide_eq_true hlow, decide_eq_true (hhigh.trans (by decide))⟩

/-- An id that the schema takes may be the name of a file. -/
theorem isIdShape_of_isMemoryId {s : String} (h : isMemoryId s = true) :
    Store.isIdShape s = true := by
  simp only [isMemoryId, Bool.and_eq_true, List.all_eq_true] at h
  obtain ⟨hhex, hlength⟩ := h
  rw [Store.isIdShape, Bool.and_eq_true, List.all_eq_true]
  refine ⟨decide_eq_true ?_, fun c hc => ?_⟩
  · rintro rfl
    simp at hlength
  · rw [Bool.or_eq_true]
    rcases Delimited.eq_or_mem_splitOn '-' hc with rfl | ⟨group, hgroup, hmem⟩
    · exact .inr (by decide)
    · exact .inl (isAlphanum_of_isHex (hhex group hgroup c hmem))

/-- The tenant's own dimensions in their place match where the dimensions there did. -/
theorem matchesDimension_or {own : Option Store.TenantId} {value : Option String}
    (h : Store.matchesDimension own value = true) :
    Store.matchesDimension own ((own.map (·.1)).or value) = true := by
  cases own with
  | none => exact h
  | some id => exact decide_eq_true rfl

/-- A prepared record belongs to the tenant and has a legal place in its tree. -/
theorem ready_preparedMemory (hid : isMemoryId raw.id = true) (hscope : isSafeScope raw.scope = true)
    (htenant : assertSnapshotTenant tenant raw = .ok ())
    (h : preparedMemory C options tenant raw = .ok m) : Store.Import.Ready tenant m := by
  have hplace := samePlace_preparedMemory h
  refine ⟨?_, ?_, hplace.scope ▸ hscope, hplace.id ▸ isIdShape_of_isMemoryId hid⟩
  · rintro rfl
    rw [hplace.tenantId]
    change truthy raw.tenantId = none
    unfold assertSnapshotTenant at htenant
    split at htenant
    · split_ifs at htenant with htruthy
      simpa using htruthy
    · contradiction
  · cases tenant with
    | none => rfl
    | some t =>
      change memoryBelongsToTenant m t = true
      rw [hplace.belongs]
      simp only [assertSnapshotTenant] at htenant
      split_ifs at htenant with hnone hbelongs
      rw [Bool.not_eq_true, Bool.not_eq_false'] at hbelongs
      simp only [resourceBelongsToTenant, Bool.and_eq_true, Bool.or_eq_true] at hbelongs
      simp only [memoryBelongsToTenant, Bool.and_eq_true, Bool.or_eq_true]
      refine ⟨decide_eq_true rfl, hbelongs.2.imp_right ?_⟩
      rintro ⟨⟨hproject, huser⟩, hagent⟩
      exact ⟨⟨matchesDimension_or hproject, matchesDimension_or huser⟩, matchesDimension_or hagent⟩

theorem ready_withoutHidden (hidden : List String) (h : Store.Import.Ready tenant m) :
    Store.Import.Ready tenant (withoutHidden hidden m) := by
  have hplace := samePlace_withoutHidden hidden m
  refine ⟨fun hnone => hplace.tenantId ▸ h.legacy hnone, ?_, hplace.scope ▸ h.scope, hplace.id ▸ h.id⟩
  rw [← h.belongs]
  cases tenant with
  | none => rfl
  | some t => exact hplace.belongs t

end Place

/-! ### What the preparation skips -/

section Screen
variable (C : Config)

/-- The preparation skips the memory: its id or its content is there, or its content is in a memory
    before it whose id is not there. -/
def SkippedAt (ids keys : List String) (earlier : List SnapshotMemory) (raw : SnapshotMemory) : Prop :=
  raw.id ∈ ids ∨ snapshotKey C raw ∈ keys ∨
    ∃ r ∈ earlier, snapshotKey C r = snapshotKey C raw ∧ r.id ∉ ids

variable {C} {options : Options} {tenant : Option TenantFilter} {st st' : Preparation}
  {raw : SnapshotMemory} {raws : List SnapshotMemory}

/-- What one round adds. -/
theorem prepareOne_spec (h : prepareOne C options tenant st raw = .ok st') :
    (∀ key, key ∈ st'.keys ↔ key ∈ st.keys ∨ (snapshotKey C raw = key ∧ raw.id ∉ st.ids)) ∧
    ∃ added : List Memory, st'.ids = st.ids ++ added.map (·.id) ∧
      st'.prepared = st.prepared ++ added ∧
      added.map (·.id) = if raw.id ∈ st.ids ∨ snapshotKey C raw ∈ st.keys then [] else [raw.id] := by
  obtain ⟨_, -, h⟩ := except_bind_eq_ok.mp h
  simp only [Bool.or_eq_true, decide_eq_true_eq] at h
  split at h
  · rename_i hskip
    cases h
    refine ⟨fun key => ⟨.inl, ?_⟩, [], by simp, by simp, by rw [if_pos hskip]; rfl⟩
    rintro (hkey | ⟨rfl, hid⟩)
    · exact hkey
    · exact hskip.resolve_left hid
  · rename_i hkeep
    obtain ⟨m, hm, rfl⟩ := except_map_eq_ok.mp h
    have hid : m.id = raw.id := (samePlace_preparedMemory hm).id
    refine ⟨fun key => ?_, [m], rfl, rfl, by rw [if_neg hkeep, List.map_singleton, hid]⟩
    rw [List.mem_append, List.mem_singleton]
    exact or_congr_right
      ⟨fun hkey => ⟨hkey.symm, fun hmem => hkeep (.inl hmem)⟩, fun hkey => hkey.1.symm⟩

/-- What is skipped after a round is what is skipped before it, with the memory of the round counted
    among the earlier ones. -/
theorem skippedAt_prepareOne (h : prepareOne C options tenant st raw = .ok st')
    {earlier : List SnapshotMemory} {r : SnapshotMemory} (hr : r.id ≠ raw.id)
    (hearlier : ∀ e ∈ earlier, e.id ≠ raw.id) :
    SkippedAt C st'.ids st'.keys earlier r ↔ SkippedAt C st.ids st.keys (raw :: earlier) r := by
  obtain ⟨hkeys, added, hids, -, hadded⟩ := prepareOne_spec h
  have hother (id : String) (hne : id ≠ raw.id) : id ∈ st'.ids ↔ id ∈ st.ids := by
    rw [hids, hadded, List.mem_append]
    split_ifs <;> simp [hne]
  have hexists : (∃ e ∈ earlier, snapshotKey C e = snapshotKey C r ∧ e.id ∉ st'.ids) ↔
      ∃ e ∈ earlier, snapshotKey C e = snapshotKey C r ∧ e.id ∉ st.ids := by
    refine exists_congr fun e => and_congr_right fun he => and_congr_right fun _ => ?_
    rw [hother e.id (hearlier e he)]
  rw [SkippedAt, SkippedAt, hother r.id hr, hkeys, hexists, or_assoc]
  simp only [List.mem_cons, exists_eq_or_imp]

/-- The places of a list are its first one and those of the rest. -/
theorem exists_split_cons {α : Type*} {a : α} {l : List α} {P : List α → α → Prop} :
    (∃ earlier x later, a :: l = earlier ++ x :: later ∧ P earlier x) ↔
      P [] a ∨ ∃ earlier x later, l = earlier ++ x :: later ∧ P (a :: earlier) x := by
  constructor
  · rintro ⟨earlier, x, later, heq, hP⟩
    cases earlier with
    | nil =>
      obtain ⟨rfl, -⟩ := List.cons.inj heq
      exact .inl hP
    | cons b earlier =>
      obtain ⟨rfl, hl⟩ := List.cons.inj heq
      exact .inr ⟨earlier, x, later, hl, hP⟩
  · rintro (hP | ⟨earlier, x, later, rfl, hP⟩)
    · exact ⟨[], a, l, rfl, hP⟩
    · exact ⟨a :: earlier, x, later, rfl, hP⟩

/-- The ids of what is prepared are those of the memories that are not skipped, each once. -/
theorem prepareAll_ids (h : prepareAll C options tenant st raws = .ok st')
    (hdistinct : (raws.map (·.id)).Nodup) :
    ∃ added : List Memory, st'.prepared = st.prepared ++ added ∧
      (added.map (·.id)).Sublist (raws.map (·.id)) ∧
      ∀ id, id ∈ added.map (·.id) ↔ ∃ earlier raw later, raws = earlier ++ raw :: later ∧
        ¬ SkippedAt C st.ids st.keys earlier raw ∧ raw.id = id := by
  induction raws generalizing st with
  | nil =>
    cases h
    refine ⟨[], (List.append_nil _).symm, List.Sublist.refl _, fun id => ?_⟩
    refine iff_of_false List.not_mem_nil ?_
    rintro ⟨earlier, raw, later, heq, -⟩
    simp at heq
  | cons raw rest ih =>
    obtain ⟨next, hone, hrest⟩ := except_bind_eq_ok.mp h
    rw [List.map_cons, List.nodup_cons] at hdistinct
    obtain ⟨hfirst, hdistinct⟩ := hdistinct
    obtain ⟨added', hprepared', hsub', hmem'⟩ := ih hrest hdistinct
    obtain ⟨-, added, -, hprepared, hadded⟩ := prepareOne_spec hone
    refine ⟨added ++ added', by rw [hprepared', hprepared, List.append_assoc], ?_, fun id => ?_⟩
    · rw [List.map_append, List.map_cons, ← List.singleton_append, hadded]
      refine List.Sublist.append ?_ hsub'
      split_ifs <;> simp
    · rw [List.map_append, List.mem_append, hmem', exists_split_cons]
      refine or_congr ?_ ?_
      · rw [hadded, SkippedAt]
        split_ifs with hskip
        · simp [hskip]
        · simp [hskip, eq_comm]
      · refine exists_congr fun earlier => exists_congr fun r => exists_congr fun later => ?_
        refine and_congr_right fun heq => and_congr_left fun _ => not_congr ?_
        have hne (e : SnapshotMemory) (he : e ∈ rest) : e.id ≠ raw.id :=
          fun hid => hfirst (hid ▸ List.mem_map_of_mem he)
        exact skippedAt_prepareOne hone (hne r (by simp [heq]))
          fun e he => hne e (by rw [heq]; exact List.mem_append_left _ he)

/-- A snapshot that is valid has no id twice. -/
theorem nodup_of_validateMemories {strictTenant : Bool} {ids : List String}
    (h : validateMemories C strictTenant ids raws = .ok ()) :
    (raws.map (·.id)).Nodup ∧ ∀ raw ∈ raws, raw.id ∉ ids := by
  induction raws generalizing ids with
  | nil => exact ⟨List.nodup_nil, fun _ hraw => absurd hraw List.not_mem_nil⟩
  | cons raw rest ih =>
    obtain ⟨_, hone, hrest⟩ := except_bind_eq_ok.mp h
    obtain ⟨hnodup, hnew⟩ := ih hrest
    obtain ⟨_, hid, -⟩ := except_bind_eq_ok.mp hone
    have hraw : raw.id ∉ ids := by
      intro hmem
      simp [invalidSnapshot, hmem] at hid
    refine ⟨?_, fun r hr => ?_⟩
    · rw [List.map_cons, List.nodup_cons]
      refine ⟨fun hmem => ?_, hnodup⟩
      obtain ⟨r, hr, heq⟩ := List.mem_map.mp hmem
      exact hnew r hr (heq ▸ List.mem_cons_self)
    · rcases List.mem_cons.mp hr with rfl | hr
      · exact hraw
      · exact fun hmem => hnew r hr (List.mem_cons_of_mem _ hmem)

end Screen

/-! ### The preview and the import -/

section Agreement
variable (C : Config) (fits : Snapshot → Bool) (S : Store.Config) (rest : (q : Ask) → q.Answer)
  (tag : String) (files : Files) (read : Except RemembraError Snapshot) (options : Options)

/-- What both calls prepare. -/
def preparedFrom : Except Thrown PreparedImport :=
  (prepareReadImport C fits read options).answered (answerFiles S rest files)

/-- What the preview announces. -/
def previewed : Except Thrown SnapshotPreview :=
  (previewReadSnapshot C fits read options).answered (answerFiles S rest files)

/-- How the import ends, and the files after it. -/
def restored : Except Thrown (ℕ × ℕ) × Files :=
  (importReadSnapshot C fits read options).exec (handleFiles S rest tag) files

/-- The preview tells what the import does: one fails when the other does, the numbers are the same, and
    the ids that are new in the tree are those of the memories that the preview counts. -/
structure PreviewAgrees : Prop where
  fails : (previewed C fits S rest files read options).isOk =
    (restored C fits S rest tag files read options).1.isOk
  counts : ∀ preview imported skipped, previewed C fits S rest files read options = .ok preview →
    (restored C fits S rest tag files read options).1 = .ok (imported, skipped) →
      preview.imported = imported ∧ preview.skipped = skipped
  ids : ∀ p, preparedFrom C fits S rest files read options = .ok p → ∀ id,
    id ∈ p.prepared.map (·.id) ↔ (Store.findFile S files id p.tenant).isSome = false ∧
      (Store.findFile S (restored C fits S rest tag files read options).2 id p.tenant).isSome = true

/-- The memories of the tree that the caller sees. -/
def seen (tenant : Option TenantFilter) : List Memory :=
  (Store.all S files true tenant).filter fun m =>
    (canRead C.strict C.agentMode m options).toOption = some true

/-- Each memory of the snapshot with the id of a file of the tree is one that the caller sees, by its id
    or by its content, or repeats the content of an earlier one that the caller does not see by its id. -/
def HiddenSkipped (tenant : Option TenantFilter) (snap : Snapshot) : Prop :=
  ∀ earlier raw later, snap.memories = earlier ++ raw :: later →
    (Store.findFile S files raw.id tenant).isSome = true →
      SkippedAt C ((seen C S files options tenant).map (·.id))
        ((seen C S files options tenant).map fun m => dedupKey C m.type m.content m.scope) earlier raw

variable {C fits S rest tag files read options} {p : PreparedImport}

theorem prepared_eq_ok (h : preparedFrom C fits S rest files read options = .ok p) :
    ∃ snap st, read = .ok snap ∧
      tenantFilter C.strict options .write (some .snapshotRestore) = .ok p.tenant ∧
      (snap.memories.map (·.id)).Nodup ∧
      prepareAll C options p.tenant
        { ids := (seen C S files options p.tenant).map (·.id)
          keys := (seen C S files options p.tenant).map fun m => dedupKey C m.type m.content m.scope }
        snap.memories = .ok st ∧
      ∃ hidden, p.prepared = st.prepared.map (withoutHidden hidden) := by
  unfold preparedFrom prepareReadImport at h
  obtain ⟨tenant, htenant, h⟩ := (answered_bind_eq_ok _).mp h
  obtain ⟨snap, hsnap, h⟩ := (answered_bind_eq_ok _).mp h
  obtain ⟨_, hvalid, h⟩ := (answered_bind_eq_ok _).mp h
  obtain ⟨all, hall, h⟩ := (answered_bind_eq_ok _).mp h
  obtain ⟨existing, hexisting, h⟩ := (answered_bind_eq_ok _).mp h
  obtain ⟨st, hst, h⟩ := (answered_bind_eq_ok _).mp h
  obtain ⟨_, -, h⟩ := (answered_bind_eq_ok _).mp h
  cases h
  cases hall
  obtain ⟨-, rfl⟩ := filterM_eq_ok.mp (answered_ofRefusal_eq_ok.mp hexisting)
  obtain ⟨_, -, hvalid⟩ := except_bind_eq_ok.mp (answered_ofRefusal_eq_ok.mp hvalid)
  obtain ⟨_, -, hvalid⟩ := except_bind_eq_ok.mp hvalid
  exact ⟨snap, st, answered_ofRefusal_eq_ok.mp hsnap, tenantFilter_of_answered htenant,
    (nodup_of_validateMemories hvalid).1, answered_ofRefusal_eq_ok.mp hst, _, rfl⟩

/-- What reads passes the schema of ids and scopes. -/
def ReadsSchema (read : Except RemembraError Snapshot) : Prop :=
  ∀ snap, read = .ok snap → ∀ raw ∈ snap.memories,
    isMemoryId raw.id = true ∧ isSafeScope raw.scope = true

theorem readsSchema_parseSnapshot (data : Snapshot) : ReadsSchema (parseSnapshot C data) := by
  intro snap h raw hraw
  obtain ⟨-, -, -, hall, rfl⟩ := parseSnapshot_eq_ok.mp h
  obtain ⟨unstripped, hmem, rfl⟩ := List.mem_map.mp hraw
  have haccepts := hall unstripped hmem
  simp only [acceptsSnapshotMemory, Bool.and_eq_true] at haccepts
  tauto

/-- What is prepared is ready for the store. -/
theorem ready_prepared (hread : ReadsSchema read)
    (h : preparedFrom C fits S rest files read options = .ok p) :
    ∀ m ∈ p.prepared, Store.Import.Ready p.tenant m := by
  obtain ⟨snap, st, hsnap, -, -, hst, hidden, hprepared⟩ := prepared_eq_ok h
  have hready : ∀ m ∈ st.prepared, Store.Import.Ready p.tenant (withoutHidden hidden m) := by
    refine forall_prepareAll hst (fun m hm => absurd hm List.not_mem_nil) ?_
    intro raw hraw m htenant hm
    obtain ⟨hid, hscope⟩ := hread snap hsnap raw hraw
    exact ready_withoutHidden hidden (ready_preparedMemory hid hscope htenant hm)
  intro m hmem
  rw [hprepared] at hmem
  obtain ⟨m, hm, rfl⟩ := List.mem_map.mp hmem
  exact hready m hm

/-- The ids of what is prepared are different, and those of the memories that are not skipped. -/
theorem ids_prepared (h : preparedFrom C fits S rest files read options = .ok p) :
    (p.prepared.map (·.id)).Nodup ∧ ∃ snap, read = .ok snap ∧
      tenantFilter C.strict options .write (some .snapshotRestore) = .ok p.tenant ∧
      ∀ id, id ∈ p.prepared.map (·.id) ↔ ∃ earlier raw later,
        snap.memories = earlier ++ raw :: later ∧
          ¬ SkippedAt C ((seen C S files options p.tenant).map (·.id))
            ((seen C S files options p.tenant).map fun m => dedupKey C m.type m.content m.scope)
            earlier raw ∧ raw.id = id := by
  obtain ⟨snap, st, hsnap, htenant, hdistinct, hst, hidden, hprepared⟩ := prepared_eq_ok h
  obtain ⟨added, hadded, hsub, hmem⟩ := prepareAll_ids hst hdistinct
  have hids : p.prepared.map (·.id) = added.map (·.id) := by
    rw [hprepared, hadded, List.nil_append, List.map_map]
    exact List.map_congr_left fun m _ => (samePlace_withoutHidden hidden m).id
  rw [hids]
  exact ⟨hdistinct.sublist hsub, snap, hsnap, htenant, hmem⟩

/-- No memory that is prepared has the id of a file exactly when those that have one are skipped. -/
theorem fresh_prepared (h : preparedFrom C fits S rest files read options = .ok p) :
    (∀ m ∈ p.prepared, (Store.findFile S files m.id p.tenant).isSome = false) ↔
      ∀ snap tenant, read = .ok snap →
        tenantFilter C.strict options .write (some .snapshotRestore) = .ok tenant →
          HiddenSkipped C S files options tenant snap := by
  obtain ⟨-, snap, hsnap, htenant, hids⟩ := ids_prepared h
  constructor
  · intro hfresh snap' tenant' hsnap' htenant' earlier raw later heq hfound
    cases hsnap.symm.trans hsnap'
    cases htenant.symm.trans htenant'
    by_contra hskip
    obtain ⟨m, hm, hid⟩ :=
      List.mem_map.mp ((hids raw.id).mpr ⟨earlier, raw, later, heq, hskip, rfl⟩)
    have hnone := hfresh m hm
    rw [hid, hfound] at hnone
    contradiction
  · intro hskipped m hm
    obtain ⟨earlier, raw, later, heq, hskip, hid⟩ := (hids m.id).mp (List.mem_map_of_mem hm)
    rw [← hid, ← Bool.not_eq_true]
    exact fun hfound => hskip (hskipped snap p.tenant hsnap htenant earlier raw later heq hfound)

theorem previewed_eq : previewed C fits S rest files read options =
    (preparedFrom C fits S rest files read options).map fun p =>
      ⟨p.prepared.length + p.skipped, p.prepared.length, p.skipped⟩ :=
  answered_bind _ _ _

/-- What is prepared is handed to the store. -/
theorem restored_eq : restored C fits S rest tag files read options =
    match preparedFrom C fits S rest files read options with
    | .error e => (.error e, files)
    | .ok p =>
      let r := Store.Import.importBatch S p.tenant tag files p.prepared
      ((r.1.mapError .error).map fun counts => (counts.1, p.skipped + counts.2), r.2) := by
  rw [restored, importReadSnapshot, exec_bind, exec_lifted_files]
  change continued _ _ (preparedFrom C fits S rest files read options, files) = _
  cases preparedFrom C fits S rest files read options with
  | error e => rfl
  | ok p =>
    simp only [continued_ok, exec_bind, exec_request, handleFiles]
    cases (Store.Import.importBatch S p.tenant tag files p.prepared).1 with
    | error e => rfl
    | ok counts => rfl

/-- The preview and the import agree exactly when no memory that the preparation lets through has the id
    of a file that the caller does not see. -/
theorem previewAgrees_iff (hread : ReadsSchema read) :
    PreviewAgrees C fits S rest tag files read options ↔
      ((previewed C fits S rest files read options).isOk = true → ∀ snap tenant, read = .ok snap →
        tenantFilter C.strict options .write (some .snapshotRestore) = .ok tenant →
          HiddenSkipped C S files options tenant snap) := by
  cases hp : preparedFrom C fits S rest files read options with
  | error e =>
    have hpreview : previewed C fits S rest files read options = .error e := by
      rw [previewed_eq, hp]
      rfl
    have himport : restored C fits S rest tag files read options = (.error e, files) := by
      rw [restored_eq, hp]
    refine iff_of_true ⟨?_, ?_, ?_⟩ ?_
    · rw [hpreview, himport]
      rfl
    · rintro preview imported skipped hok -
      cases hpreview.symm.trans hok
    · rintro p hok
      cases hp.symm.trans hok
    · rw [hpreview]
      rintro ⟨⟩
  | ok p =>
    obtain ⟨hdistinct, -⟩ := ids_prepared hp
    obtain ⟨skipped, files', hbatch, hlength, hfiles⟩ :=
      Store.Import.importBatch_ready S tag files (ready_prepared hread hp) hdistinct
    have hpreview : previewed C fits S rest files read options =
        .ok ⟨p.prepared.length + p.skipped, p.prepared.length, p.skipped⟩ := by
      rw [previewed_eq, hp]
      rfl
    have himport : restored C fits S rest tag files read options =
        (.ok ((Store.Import.fresh S p.tenant files p.prepared).length, p.skipped + skipped),
          files') := by
      rw [restored_eq, hp]
      simp only [hbatch]
      rfl
    have hall : (Store.Import.fresh S p.tenant files p.prepared).length = p.prepared.length ↔
        ∀ m ∈ p.prepared, (Store.findFile S files m.id p.tenant).isSome = false := by
      rw [Store.Import.fresh, List.length_filter_eq_length_iff]
      refine forall₂_congr fun m _ => ?_
      rw [← Option.not_isSome, Bool.not_eq_true']
    rw [hpreview, ← fresh_prepared hp, ← hall]
    constructor
    · intro hagrees _
      exact (hagrees.counts _ _ _ hpreview (congrArg Prod.fst himport)).1.symm
    · intro hfresh
      have hsame := hfresh rfl
      have hids : Store.Import.fresh S p.tenant files p.prepared = p.prepared :=
        List.filter_sublist.eq_of_length hsame
      refine ⟨?_, ?_, ?_⟩
      · rw [hpreview, himport]
        rfl
      · intro preview imported skipped' hok hrestored
        cases hpreview.symm.trans hok
        cases (congrArg Prod.fst himport).symm.trans hrestored
        have hnone : skipped = 0 := by omega
        rw [hnone]
        exact ⟨hsame.symm, rfl⟩
      · intro p' hp' id
        cases hp.symm.trans hp'
        rw [himport, hfiles, hids]
        have hnew := hall.mp hsame
        constructor
        · intro hmem
          obtain ⟨m, hm, rfl⟩ := List.mem_map.mp hmem
          exact ⟨hnew m hm, .inr hmem⟩
        · rintro ⟨hnone, hsome | hmem⟩
          · rw [hnone] at hsome
            contradiction
          · exact hmem

end Agreement

/-! ### A memory that the caller sees, and one that it does not -/

/-- A file that another agent wrote for itself. -/
def privateFile : Store.FileText := .memory
  { access := some (.str "private")
    provenance := some (.map [("sourceType", .str "agent"), ("agentId", .str "planner")]) }
  "Ship on Friday.\n"

/-- The tree with this file, under an id in hexadecimal. -/
def privateFiles : Files :=
  OrdMap.empty.set ["data", ".remembra", "global", "0123456789abcdef.md"] privateFile

def teaMemory : SnapshotMemory where
  id := "0123456789abcdef"
  type := .preference
  content := "Prefers tea."
  scope := "global"
  tags := []
  importance := 3
  createdAt := "2026-01-01T00:00:00.000Z"
  updatedAt := "2026-01-01T00:00:00.000Z"

def teaSnapshot : Snapshot := ⟨snapshotFormat, 3, "2026-01-01T00:00:00.000Z", [teaMemory], false⟩

/-- The files on the service's own platform. -/
def plainFiles : Store.Config := { host := plainConfig.host, root := Store.dataRoot }

def agentConfig : Config := { plainConfig with agentMode := true }

/-- What a steady world with empty tables answers. -/
def steadyAnswer (q : Ask) : q.Answer :=
  (handle plainConfig steady q
    { tables := {}, manifest := ⟨"m", .external, .isPublic, false, 0⟩ }).1

theorem toOption_eq_ok {ε α : Type} {x : Except ε α} {a : α} :
    x.toOption = some a ↔ x = .ok a := by
  cases x <;> simp [Except.toOption]

/-- With agents told apart and with none at the call, the file is hidden: its id is announced as
    imported, and the import skips it. -/
theorem preview_announces_hidden :
    ¬ ∀ (C : Config) (fits : Snapshot → Bool) (S : Store.Config) (rest : (q : Ask) → q.Answer)
      (tag : String) (files : Files) (read : Except RemembraError Snapshot) (options : Options),
      ReadsSchema read → PreviewAgrees C fits S rest tag files read options := by
  intro hall
  have hagrees := hall agentConfig (fun _ => true) plainFiles steadyAnswer "t" privateFiles
    (parseSnapshot agentConfig teaSnapshot) {} (readsSchema_parseSnapshot teaSnapshot)
  have hpreview : (previewed agentConfig (fun _ => true) plainFiles steadyAnswer privateFiles
      (parseSnapshot agentConfig teaSnapshot) {}).toOption.map (·.imported) = some 1 := by
    decide +kernel
  have hcount : (restored agentConfig (fun _ => true) plainFiles steadyAnswer "t" privateFiles
      (parseSnapshot agentConfig teaSnapshot) {}).1.toOption = some (0, 1) := by
    decide +kernel
  obtain ⟨preview, hok, himported⟩ := Option.map_eq_some_iff.mp hpreview
  have hsame := hagrees.counts preview 0 1 (toOption_eq_ok.mp hok) (toOption_eq_ok.mp hcount)
  rw [himported] at hsame
  exact absurd hsame.1 (by decide)

/-- A snapshot whose memories have no files yet. -/
theorem previewAgrees_iff_fresh :
    PreviewAgrees agentConfig (fun _ => true) plainFiles steadyAnswer "t" .empty
      (parseSnapshot agentConfig teaSnapshot) {} := by
  refine (previewAgrees_iff (readsSchema_parseSnapshot teaSnapshot)).mpr ?_
  intro _ snap tenant _ _ earlier raw later _ hfound
  cases hfound

end Remembra.Service
