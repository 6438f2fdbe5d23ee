import Remembra.Service.World

/-! Does a call that reads a memory, waits and writes it back ever discard a user's change? A whole
    record is written over the row, so whatever the writer does not set is as it was when it was read.
    A user's values are kept, and what is archived stays archived, exactly as long as each record that
    is written still has the values that users have set since (`user_changes_kept_iff`). -/

namespace Remembra.Service
open Store (Memory MemoryType TrustLevel RetentionMode JsNum StoreInput TenantFilter)
open Sqlite (Row Memories rowOf selected setUpdated setArchived setRevived)
open Sqlite.Serial (Tables updatedOver)

/-! ### Fields -/

/-- The fields that a user's update sets. -/
inductive Field where
  | type | content | scope | tags | importance | source | confidence | trust | retention
  deriving DecidableEq

inductive FieldValue where
  | type (v : MemoryType)
  | content (v : String)
  | scope (v : String)
  | tags (v : List String)
  | importance (v : ℤ)
  | source (v : String)
  | confidence (v : ℚ)
  | trust (v : TrustLevel)
  | retention (v : RetentionMode)
  deriving DecidableEq

/-- The value that a patch sets. -/
def Patch.value (p : Patch) : Field → Option FieldValue
  | .type => p.type.map .type
  | .content => p.content.map .content
  | .scope => p.scope.map .scope
  | .tags => p.tags.map .tags
  | .importance => p.importance.map .importance
  | .source => p.source.join.map .source
  | .confidence => p.confidence.map .confidence
  | .trust => p.trust.map .trust
  | .retention => p.retention.map .retention

/-- The value in a row; the table has no column for the source. -/
def columnValue (row : Row) : Field → Option FieldValue
  | .type => some (.type row.type)
  | .content => some (.content row.content)
  | .scope => some (.scope row.scope)
  | .tags => some (.tags row.tags)
  | .importance => some (.importance row.importance)
  | .source => none
  | .confidence => some (.confidence row.confidence)
  | .trust => some (.trust row.trust)
  | .retention => some (.retention row.retention)

/-! ### What the changes oblige to -/

/-- What has happened to a memory's row. -/
inductive Change where
  | stored (id : String)
  /-- A record was written over the row; whether by a user's update. -/
  | wrote (user : Bool) (id : String) (patch : Patch)
  | archived (id : String)
  | revived (id : String)
  | forgotten (id : String)

/-- What is to hold of one memory: the values that users' updates have set and nothing was asked to
    set since, and whether it is archived or gone. -/
structure Standing where
  values : Field → Option FieldValue := fun _ => none
  archived : Bool := false
  forgotten : Bool := false

/-- The values after a write: a user's are to be kept, any other writer's take their place. -/
def valuesAfter (values : Field → Option FieldValue) (user : Bool) (patch : Patch) (f : Field) :
    Option FieldValue :=
  match patch.value f with
  | some v => if user then some v else none
  | none => values f

def Standing.after (id : String) (st : Standing) : Change → Standing
  | .stored id' => if id' = id then {} else st
  | .wrote user id' patch =>
    if id' = id then { st with values := valuesAfter st.values user patch } else st
  | .archived id' => if id' = id then { st with archived := true } else st
  | .revived id' => if id' = id then { st with archived := false } else st
  | .forgotten id' => if id' = id then { forgotten := true } else st

/-- What the log of changes, the newest first, obliges to. -/
def standing (id : String) (log : List Change) : Standing :=
  log.foldr (fun change st => st.after id change) {}

/-- The row has the values, and the memory has not been brought back. -/
structure Kept (st : Standing) (row : Option Row) : Prop where
  values : ∀ f v, st.values f = some v → (row.bind fun r => columnValue r f) = some v
  archived : st.archived = true → ∀ r ∈ row, r.archivedAt ≠ none
  forgotten : st.forgotten = true → row = none

/-! ### Runs with their changes -/

/-- The calls under way, what each of them is and the changes so far. -/
structure Session where
  calls : Calls
  operations : List Operation := []
  log : List Change := []

/-- Every memory is as its changes oblige to. -/
def Intact (s : Session) : Prop :=
  ∀ id, Kept (standing id s.log) (s.calls.world.tables.memories.get id)

section Steps
variable (C : Config) (E : Environment)

/-- The change that a question makes. -/
def changeOf (w : World) (user : Bool) : Ask → Option Change
  | .store input embedding tenant =>
    let id := E.newId w.writes
    let t := (Tables.store C.backend w.tables (E.writeClock w.writes) id input embedding tenant).2
    if w.tables.memories.get id = none ∧ t.memories.get id ≠ none then some (.stored id) else none
  | .update base patch options tenant =>
    if (Tables.update C.backend w.tables (E.writeClock w.writes) (patch.over base) options
        tenant).1.isOk then some (.wrote user base.id patch) else none
  | .archive id tenant =>
    if (selected w.tables.memories id tenant).any fun row => row.archivedAt = none then
      some (.archived id) else none
  | .revive id tenant =>
    if (selected w.tables.memories id tenant).any fun row => row.archivedAt ≠ none then
      some (.revived id) else none
  | .forget id tenant =>
    if (Tables.forget C.backend w.tables (E.writeClock w.writes) id tenant).1.toOption = some true
      then some (.forgotten id) else none
  | _ => none

def Operation.isUpdate : Operation → Bool
  | .update _ _ _ => true
  | _ => false

def Event.operations : Event → List Operation
  | .call operation => [operation]
  | _ => []

/-- The question that the event answers. -/
def Session.question (s : Session) : Event → Option Ask
  | .answer i => match s.calls.running[i]? with
    | some (.ask q _) => some q
    | _ => none
  | _ => none

/-- The event is the turn of a user's update. -/
def Session.byUser (s : Session) : Event → Bool
  | .answer i => s.operations[i]?.any Operation.isUpdate
  | _ => false

def sessionStep (s : Session) (e : Event) : Option Session :=
  (step C E s.calls e).map fun calls => {
    calls := calls
    operations := s.operations ++ e.operations
    log := ((s.question e).bind (changeOf C E s.calls.world (s.byUser e))).toList ++ s.log }

/-- The record still has what users have set and the patch leaves alone, it is archived if the memory
    has been archived, and a user sets no source. -/
structure UpToDate (st : Standing) (user : Bool) (base : Memory) (patch : Patch) : Prop where
  values : ∀ f v, patch.value f = none → st.values f = some v →
    columnValue (rowOf C.backend.platform base) f = some v
  archived : st.archived = true → base.archivedAt ≠ none
  source : user = true → patch.value .source = none

/-- A record that is written is up to date. -/
def Unstale (s : Session) (e : Event) : Prop :=
  ∀ base patch options tenant, s.question e = some (.update base patch options tenant) →
    (Tables.update C.backend s.calls.world.tables (E.writeClock s.calls.world.writes)
      (patch.over base) options tenant).1.isOk = true →
    UpToDate C (standing base.id s.log) (s.byUser e) base patch

end Steps

/-- No call is under way and nothing has changed. -/
def begun (tables : Tables) (manifest : Manifest) : Session := { calls := initial tables manifest }

/-! ### Rows -/

section Rows
variable {C : Config} {E : Environment} {memories : Memories} {id : String}
  {tenant : Option TenantFilter} {row : Row}

theorem map_or_some {α β : Type} (g : α → β) (o : Option α) (a : α) :
    (o.map g).or (some (g a)) = some (g (o.getD a)) := by
  cases o <;> rfl

/-- A column of a record that is written over a row: the patch's value, or the base's. -/
theorem columnValue_setUpdated (now : ℤ) (base : Memory) (patch : Patch) (f : Field) :
    columnValue (setUpdated C.backend.platform (updatedOver C.backend now row (patch.over base)) row) f =
      if f = .source then none
      else (patch.value f).or (columnValue (rowOf C.backend.platform base) f) := by
  cases f with
  | source => rfl
  | retention =>
    refine (congrArg (fun r => some (FieldValue.retention r)) ?_).trans (map_or_some ..).symm
    exact Option.getD_or
  | _ => exact (map_or_some ..).symm

/-- A write that goes through is one row with the new record over the old. -/
theorem get_update {s t : Tables} {now : ℤ} {memory : Memory} {options : Store.UpdateOptions}
    {m : Memory} (h : Tables.update C.backend s now memory options tenant = (.ok m, t)) :
    ∃ row, selected s.memories memory.id tenant = some row ∧ ∀ k, t.memories.get k =
      if k = memory.id then some (setUpdated C.backend.platform (updatedOver C.backend now row memory) row)
      else s.memories.get k := by
  obtain ⟨e, -, hr, -⟩ | ⟨row, hrow, -, -, ⟨-, hr, -⟩ | ⟨-, -, hget, -⟩⟩ := Tables.update_cases h
  · cases hr
  · cases hr
  · exact ⟨row, (Tables.existing_eq_ok hrow).1, hget⟩

theorem tables_update_of_exec {base : Memory} {patch : Patch} {options : Store.UpdateOptions}
    {m : Memory} {w w' : World}
    (h : (Act.update base patch options tenant).exec (handle C E) w = (.ok m, w')) :
    Tables.update C.backend w.tables (E.writeClock w.writes) (patch.over base) options tenant =
      (.ok m, w'.tables) := by
  obtain ⟨answer, u, hasked, hanswer⟩ := (Prog.exec_bind_eq_ok _).mp h
  rw [Prog.exec_ofExcept, Prod.mk.injEq] at hanswer
  obtain ⟨rfl, rfl⟩ := hanswer
  rcases hupdate : Tables.update C.backend w.tables (E.writeClock w.writes) (patch.over base) options
    tenant with ⟨r, t⟩
  have hworld : handle C E (.update base patch options tenant) w =
      (r.mapError ofFailure, w.written t) := by
    simp only [handle, hupdate]
  unfold Act.ask at hasked
  rw [Prog.exec_request, hworld, Prod.mk.injEq] at hasked
  obtain ⟨hanswered, hafter⟩ := hasked
  have hr : r.mapError ofFailure = .ok m := Except.ok.inj hanswered
  cases r with
  | error e => cases hr
  | ok memory =>
    cases hr
    exact congrArg (fun u : World => (Except.ok m, u.tables)) hafter

/-- A write that does not go through leaves the rows. -/
theorem memories_update_error {s t : Tables} {now : ℤ} {memory : Memory}
    {options : Store.UpdateOptions} {e : Sqlite.Serial.Failure}
    (h : Tables.update C.backend s now memory options tenant = (.error e, t)) :
    t.memories = s.memories := by
  obtain ⟨e', -, -, rfl⟩ | ⟨row, hrow, -, -, ⟨-, -, rfl⟩ | ⟨-, hr, -⟩⟩ := Tables.update_cases h
  · rfl
  · unfold Tables.snapshot Tables.snapshotHistory
    split
    · rfl
    · split <;> rfl
  · cases hr

end Rows

/-! ### One question -/

/-- The memory that a change is about. -/
def Change.id : Change → String
  | .stored id => id
  | .wrote _ id _ => id
  | .archived id => id
  | .revived id => id
  | .forgotten id => id

theorem Standing.after_of_ne {id : String} {change : Change} (h : change.id ≠ id) (st : Standing) :
    st.after id change = st := by
  cases change <;> exact if_neg h

section Questions
variable {C : Config} {E : Environment} {w : World} {user : Bool} {log : List Change}
  {memories memories' : Memories}

/-- A change of one memory is a matter of that memory alone. -/
theorem kept_change_iff (change : Change)
    (hkept : ∀ id, Kept (standing id log) (memories.get id))
    (hframe : ∀ k, k ≠ change.id → memories'.get k = memories.get k) :
    (∀ id, Kept (standing id (change :: log)) (memories'.get id)) ↔
      Kept ((standing change.id log).after change.id change) (memories'.get change.id) := by
  refine ⟨fun h => h change.id, fun h id => ?_⟩
  by_cases hid : id = change.id
  · subst hid
    exact h
  · change Kept ((standing id log).after id change) _
    rw [Standing.after_of_ne (Ne.symm hid), hframe id hid]
    exact hkept id

/-- A row that is archived or revived keeps its values. -/
theorem Kept.of_columns {st st' : Standing} {row row' : Row} (h : Kept st (some row))
    (hvalues : st'.values = st.values) (hcolumns : columnValue row' = columnValue row)
    (hforgotten : st'.forgotten = st.forgotten)
    (harchived : st'.archived = true → row'.archivedAt ≠ none) : Kept st' (some row') := by
  refine ⟨fun f v hv => ?_, fun hst r hr => ?_, fun hst => ?_⟩
  · rw [hvalues] at hv
    have hrow := h.values f v hv
    rw [Option.bind_some] at hrow ⊢
    rw [hcolumns]
    exact hrow
  · cases hr
    exact harchived hst
  · exact absurd (h.forgotten (hforgotten ▸ hst)) (by simp)

theorem kept_store (hkept : ∀ id, Kept (standing id log) (w.tables.memories.get id))
    (input : StoreInput) (embedding : Option (List JsNum)) (tenant : Option TenantFilter) (id : String) :
    Kept (standing id ((changeOf C E w user (.store input embedding tenant)).toList ++ log))
      ((handle C E (.store input embedding tenant) w).2.tables.memories.get id) := by
  rcases h : Tables.store C.backend w.tables (E.writeClock w.writes) (E.newId w.writes) input
    embedding tenant with ⟨r, t⟩
  have htables : (handle C E (.store input embedding tenant) w).2.tables = t := by
    simp only [handle, h, World.written]
  have hrows : t.memories = w.tables.memories ∨ ∃ row : Row, row.id = E.newId w.writes ∧
      w.tables.memories.insert row = some t.memories := by
    obtain ⟨-, ⟨-, -, hsame | hinsert⟩ | ⟨-, hinsert, -⟩⟩ := Tables.store_cases h
    · exact .inl hsame
    · exact .inr ⟨_, rfl, hinsert⟩
    · exact .inr ⟨_, rfl, hinsert⟩
  simp only [changeOf, h, htables]
  rcases hrows with hsame | ⟨row, hrow, hinsert⟩
  · have hnot : ¬(w.tables.memories.get (E.newId w.writes) = none ∧
        t.memories.get (E.newId w.writes) ≠ none) := by
      rw [hsame]
      exact fun hboth => hboth.2 hboth.1
    rw [if_neg hnot, hsame]
    exact hkept id
  · have hget := Table.get_insert hinsert
    rw [hrow] at hget
    have hfree : w.tables.memories.get (E.newId w.writes) = none := by
      by_contra htaken
      rw [← hrow] at htaken
      rw [Table.insert_eq_none.mpr htaken] at hinsert
      cases hinsert
    have hnew : t.memories.get (E.newId w.writes) ≠ none := by simp [hget]
    rw [if_pos ⟨hfree, hnew⟩]
    refine (kept_change_iff (.stored (E.newId w.writes)) hkept fun k hk => ?_).mpr ?_ id
    · exact (hget k).trans (if_neg hk)
    · simp only [Standing.after, Change.id, if_true]
      exact ⟨by simp, by simp, by simp⟩

theorem kept_archive (hkept : ∀ id, Kept (standing id log) (w.tables.memories.get id)) (id' : String)
    (tenant : Option TenantFilter) (id : String) :
    Kept (standing id ((changeOf C E w user (.archive id' tenant)).toList ++ log))
      ((handle C E (.archive id' tenant) w).2.tables.memories.get id) := by
  rcases h : Tables.archive C.backend w.tables (E.writeClock w.writes) id' tenant with ⟨r, t⟩
  have htables : (handle C E (.archive id' tenant) w).2.tables = t := by
    simp only [handle, h, World.written]
  simp only [changeOf, htables]
  obtain ⟨-, ⟨hall, -, rfl⟩ | ⟨row, hsel, hactive, -, hmemories, -⟩⟩ := Tables.archive_cases h
  · have hnot : ¬ (selected w.tables.memories id' tenant).any (fun row => row.archivedAt = none) =
        true := by
      cases hsel : selected w.tables.memories id' tenant with
      | none => simp
      | some row => simpa [hsel] using hall
    rw [if_neg hnot]
    exact hkept id
  · rw [if_pos (by simp [hsel, hactive]), hmemories]
    have hget := Sqlite.get_updateWhere_selected hsel (setArchived (Sqlite.Serial.stamp C.backend
      (E.writeClock w.writes))) fun _ => rfl
    refine (kept_change_iff (.archived id') hkept fun k hk => ?_).mpr ?_ id
    · exact (hget k).trans (if_neg hk)
    · have hold := hkept id'
      rw [(Sqlite.Serial.selected_eq_some.mp hsel).1] at hold
      simp only [Standing.after, Change.id, hget, if_true]
      exact hold.of_columns rfl (funext fun f => by cases f <;> rfl) rfl (by simp [setArchived])

theorem kept_revive (hkept : ∀ id, Kept (standing id log) (w.tables.memories.get id)) (id' : String)
    (tenant : Option TenantFilter) (id : String) :
    Kept (standing id ((changeOf C E w user (.revive id' tenant)).toList ++ log))
      ((handle C E (.revive id' tenant) w).2.tables.memories.get id) := by
  rcases h : Tables.revive C.backend w.tables (E.writeClock w.writes) id' tenant with ⟨r, t⟩
  have htables : (handle C E (.revive id' tenant) w).2.tables = t := by
    simp only [handle, h, World.written]
  simp only [changeOf, htables]
  obtain ⟨-, ⟨hall, -, rfl⟩ | ⟨row, hsel, harchived, hmemories, -⟩⟩ := Tables.revive_cases h
  · have hnot : ¬ (selected w.tables.memories id' tenant).any (fun row => row.archivedAt ≠ none) =
        true := by
      cases hsel : selected w.tables.memories id' tenant with
      | none => simp
      | some row => simpa [hsel] using hall
    rw [if_neg hnot]
    exact hkept id
  · rw [if_pos (by simp [hsel, harchived]), hmemories]
    have hget := Sqlite.get_updateWhere_selected hsel (setRevived (Sqlite.Serial.stamp C.backend
      (E.writeClock w.writes))) fun _ => rfl
    refine (kept_change_iff (.revived id') hkept fun k hk => ?_).mpr ?_ id
    · exact (hget k).trans (if_neg hk)
    · have hold := hkept id'
      rw [(Sqlite.Serial.selected_eq_some.mp hsel).1] at hold
      simp only [Standing.after, Change.id, hget, if_true]
      exact hold.of_columns rfl (funext fun f => by cases f <;> rfl) rfl (by simp)

theorem kept_forget (hkept : ∀ id, Kept (standing id log) (w.tables.memories.get id)) (id' : String)
    (tenant : Option TenantFilter) (id : String) :
    Kept (standing id ((changeOf C E w user (.forget id' tenant)).toList ++ log))
      ((handle C E (.forget id' tenant) w).2.tables.memories.get id) := by
  rcases h : Tables.forget C.backend w.tables (E.writeClock w.writes) id' tenant with ⟨r, t⟩
  have htables : (handle C E (.forget id' tenant) w).2.tables = t := by
    simp only [handle, h, World.written]
  simp only [changeOf, h, htables]
  obtain ⟨rfl, rfl⟩ | ⟨row, hsel, -, -, ⟨-, rfl, hmemories, -⟩ | ⟨-, rfl, hmemories, -⟩⟩ :=
    Tables.forget_cases h
  · exact hkept id
  · rw [hmemories]
    exact hkept id
  · rw [if_pos (by rfl), hmemories]
    have hget := Sqlite.get_deleteWhere_selected hsel
    refine (kept_change_iff (.forgotten id') hkept fun k hk => ?_).mpr ?_ id
    · exact (hget k).trans (if_neg hk)
    · simp only [Standing.after, Change.id, hget, if_true]
      exact ⟨by simp, by simp, fun _ => rfl⟩

/-- A record over a row keeps what is to be kept exactly when it is up to date. -/
theorem kept_wrote_iff {st : Standing} {row : Row} (hold : Kept st (some row)) (now : ℤ)
    (base : Memory) (patch : Patch) :
    Kept { st with values := valuesAfter st.values user patch }
        (some (setUpdated C.backend.platform (updatedOver C.backend now row (patch.over base)) row)) ↔
      UpToDate C st user base patch := by
  have hcolumn := @columnValue_setUpdated C row now base patch
  constructor
  · intro h
    refine ⟨fun f v hpatch hv => ?_, fun hst => h.archived hst _ rfl, fun huser => ?_⟩
    · have hnew := h.values f v (by simpa [valuesAfter, hpatch] using hv)
      rw [Option.bind_some, hcolumn, hpatch] at hnew
      split_ifs at hnew
      simpa using hnew
    · by_contra hsource
      obtain ⟨v, hv⟩ := Option.ne_none_iff_exists'.mp hsource
      have hnew := h.values .source v (by simp [valuesAfter, hv, huser])
      rw [Option.bind_some, hcolumn, if_pos rfl] at hnew
      cases hnew
  · intro h
    refine ⟨fun f v hv => ?_, fun hst r hr => ?_, fun hst => ?_⟩
    · rw [Option.bind_some, hcolumn]
      unfold valuesAfter at hv
      cases hpatch : patch.value f with
      | none =>
        simp only [hpatch] at hv
        have hbase := h.values f v hpatch hv
        rw [if_neg (by rintro rfl; cases hbase)]
        simpa using hbase
      | some v' =>
        simp only [hpatch, Option.ite_none_right_eq_some] at hv
        obtain ⟨huser, hvalue⟩ := hv
        rw [if_neg (by rintro rfl; rw [h.source huser] at hpatch; cases hpatch)]
        simpa using hvalue
    · cases hr
      exact h.archived hst
    · exact absurd (hold.forgotten hst) (by simp)

theorem kept_update_iff (hkept : ∀ id, Kept (standing id log) (w.tables.memories.get id))
    (base : Memory) (patch : Patch) (options : Store.UpdateOptions) (tenant : Option TenantFilter) :
    (∀ id, Kept (standing id ((changeOf C E w user (.update base patch options tenant)).toList ++ log))
        ((handle C E (.update base patch options tenant) w).2.tables.memories.get id)) ↔
      ((Tables.update C.backend w.tables (E.writeClock w.writes) (patch.over base) options
        tenant).1.isOk = true → UpToDate C (standing base.id log) user base patch) := by
  rcases h : Tables.update C.backend w.tables (E.writeClock w.writes) (patch.over base) options
    tenant with ⟨r, t⟩
  have htables : (handle C E (.update base patch options tenant) w).2.tables = t := by
    simp only [handle, h, World.written]
  simp only [changeOf, h, htables]
  cases r with
  | error e =>
    rw [memories_update_error h]
    exact iff_of_true hkept (fun hok => by cases hok)
  | ok m =>
    obtain ⟨row, hrow, hget⟩ := get_update h
    have hok : (Except.ok m : Except Sqlite.Serial.Failure Memory).isOk = true := rfl
    rw [if_pos hok]
    have hold := hkept base.id
    rw [show w.tables.memories.get base.id = some row from
      (Sqlite.Serial.selected_eq_some.mp hrow).1] at hold
    refine (kept_change_iff (.wrote user base.id patch) hkept fun k hk =>
      (hget k).trans (if_neg hk)).trans ?_
    rw [forall_prop_of_true hok, ← kept_wrote_iff hold (E.writeClock w.writes)]
    have hnew := (hget base.id).trans (if_pos rfl)
    simp only [Standing.after, Change.id, if_true, hnew]

/-- A question keeps what is to be kept, unless it writes a record that is not up to date. -/
theorem kept_handle_iff (hkept : ∀ id, Kept (standing id log) (w.tables.memories.get id)) (q : Ask) :
    (∀ id, Kept (standing id ((changeOf C E w user q).toList ++ log))
        ((handle C E q w).2.tables.memories.get id)) ↔
      ∀ base patch options tenant, q = .update base patch options tenant →
        (Tables.update C.backend w.tables (E.writeClock w.writes) (patch.over base) options
          tenant).1.isOk = true → UpToDate C (standing base.id log) user base patch := by
  have hprovider (gate : Option Store.SensitivityBand) (text : String) :
      (handle C E (.embed gate text) w).2.tables = w.tables ∧
        (handle C E (.extract gate text) w).2.tables = w.tables := by
    simp only [handle]
    cases w.refusal E gate <;> exact ⟨rfl, rfl⟩
  cases q with
  | update base patch options tenant =>
    refine (kept_update_iff hkept base patch options tenant).trans ⟨?_, ?_⟩
    · rintro h _ _ _ _ ⟨⟩
      exact h
    · exact fun h => h base patch options tenant rfl
  | store input embedding tenant =>
    exact iff_of_true (kept_store hkept input embedding tenant) (by rintro _ _ _ _ ⟨⟩)
  | archive id tenant => exact iff_of_true (kept_archive hkept id tenant) (by rintro _ _ _ _ ⟨⟩)
  | revive id tenant => exact iff_of_true (kept_revive hkept id tenant) (by rintro _ _ _ _ ⟨⟩)
  | forget id tenant => exact iff_of_true (kept_forget hkept id tenant) (by rintro _ _ _ _ ⟨⟩)
  | embed gate text =>
    rw [(hprovider gate text).1]
    exact iff_of_true hkept (by rintro _ _ _ _ ⟨⟩)
  | extract gate transcript =>
    rw [(hprovider gate transcript).2]
    exact iff_of_true hkept (by rintro _ _ _ _ ⟨⟩)
  | _ => exact iff_of_true hkept (by rintro _ _ _ _ ⟨⟩)

end Questions

/-! ### Runs -/

section Runs
variable {C : Config} {E : Environment}

theorem intact_step {s t : Session} {e : Event} (hs : Intact s) (h : sessionStep C E s e = some t) :
    Intact t ↔ Unstale C E s e := by
  obtain ⟨calls, hstep, rfl⟩ := Option.map_eq_some_iff.mp h
  cases e with
  | call operation =>
    obtain rfl := Option.some.inj hstep
    exact iff_of_true hs (by rintro _ _ _ _ ⟨⟩)
  | configure manifest =>
    obtain rfl := Option.some.inj hstep
    exact iff_of_true hs (by rintro _ _ _ _ ⟨⟩)
  | answer i =>
    obtain ⟨q, next, hi, rfl⟩ := Pool.turn_eq_some.mp hstep
    have hquestion : s.question (.answer i) = some q := by
      simp only [Session.question, hi]
    unfold Intact Unstale
    rw [hquestion, Option.bind_some]
    refine (kept_handle_iff hs q).trans ?_
    simp only [Option.some.injEq]

/-- In a run of calls no user's value is lost and nothing is brought back exactly as long as each
    record that is written is up to date. -/
theorem user_changes_kept_iff (C : Config) (E : Environment) (tables : Tables) (manifest : Manifest)
    (events : List Event) :
    Transition.Everywhere (sessionStep C E) Intact (begun tables manifest) events ↔
      Transition.Along (sessionStep C E) (Unstale C E) (begun tables manifest) events := by
  refine Transition.everywhere_iff_along (fun s e t hs hok h => (intact_step hs h).mpr hok)
    (fun s hs => hs) (fun s e t hs hnot h hintact => hnot ((intact_step hs h).mp hintact)) ?_ events
  exact fun id => ⟨by simp [begun, standing], by simp [begun, standing], by simp [begun, standing]⟩

end Runs

/-- The call has no question left. -/
def finished (p : Act Unit) : Bool :=
  match p with
  | Prog.ask _ _ => false
  | _ => true

/-- An embedding function that fails at first. -/
def lateEmbed : Environment :=
  { steady with embed := fun n _ => if n < 3 then .error .other else .ok [.finite 1] }

/-- A note is stored without a vector. While the job waits for one, a user tags the note. -/
def taggedMeanwhile : List Event := [
  .call (.store { type := .fact, content := "tea at five" } {}), .answer 0, .answer 0, .answer 0,
  .call (.embedMemory "m-0" {}), .answer 1, .answer 1, .answer 1,
  .call (.update "m-0" { tags := some ["daily"] } {}), .answer 2, .answer 2, .answer 2,
  .answer 1, .answer 1, .answer 1]

/-- All calls have finished, and the tag is gone: the job has written the record that it had read. -/
theorem tag_is_discarded :
    ¬ ∀ t, Transition.run (sessionStep plainConfig lateEmbed)
      (begun {} ⟨"openai", .external, .internal, false, 0⟩) taggedMeanwhile = some t →
      t.calls.running.all finished = true → Intact t := by
  intro h
  let bad (t : Session) : Bool := t.calls.running.all finished &&
    (standing "m-0" t.log).values .tags = some (.tags ["daily"]) &&
    ((t.calls.world.tables.memories.get "m-0").bind fun r => columnValue r .tags) ≠
      some (.tags ["daily"])
  have hrun : (Transition.run (sessionStep plainConfig lateEmbed)
      (begun {} ⟨"openai", .external, .internal, false, 0⟩) taggedMeanwhile).any bad = true := by
    decide +kernel
  obtain ⟨t, ht, hbad⟩ := (Option.any_eq_true _ _).mp hrun
  simp only [bad, Bool.and_eq_true, decide_eq_true_eq] at hbad
  exact hbad.2 ((h t ht hbad.1.1 "m-0").values .tags _ hbad.1.2)

end Remembra.Service
