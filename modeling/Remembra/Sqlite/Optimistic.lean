import Remembra.Lib.Indexed
import Remembra.Sqlite.Rows
import Remembra.Store.Optimistic

/-! Optimistic concurrency over one database. Several backend instances share the file, each SQL
    statement is atomic, and a call is a `SELECT` and then a statement that writes, with any other
    statements in between (the queue of an instance only rules some of these orders out).

    `update` writes where the row still has the version that was selected, so the version protects a
    row across instances. `archive` and `revive` write without looking at the version and without
    raising it. -/

namespace Remembra.Sqlite
open Store (Memory StoreInput TenantFilter UpdateOptions JsNum truthy patches memoryBelongsToTenant
  versionMismatch)

/-- What `update` selects. -/
structure Existing where
  version : ℤ
  content : String
  tenantId : Option String
  projectId : Option String
  userId : Option String
  agentId : Option String

inductive Call where
  | update (memory : Memory) (options : UpdateOptions)
  | archive (id : String)
  | revive (id : String)
  | touch (id : String)
  | forget (id : String)

inductive Answer where
  | updated (memory : Memory)
  | moved (memory : Option Memory)
  | touched
  | forgotten (found : Bool)
  | refused (error : RemembraError)

/-- Where a caller is: before, between and after the statements of its call. -/
inductive Pc where
  | idle
  | updating (memory : Memory) (options : UpdateOptions) (tenant : Option TenantFilter)
      (existing : Existing)
  | losing (memory : Memory) (tenant : Option TenantFilter) (existing : Existing)
  | archiving (id : String) (tenant : Option TenantFilter) (row : Row)
  | reviving (id : String) (tenant : Option TenantFilter) (row : Row)
  | touching (id : String) (tenant : Option TenantFilter)
  | forgetting (id : String) (tenant : Option TenantFilter)
  | done (answer : Answer)

structure State where
  memories : Memories := .empty
  used : List String := []
  hands : List Memory := []
  pcs : ℕ → Pc := fun _ => .idle

inductive Act where
  | get (id : String) (tenant : Option TenantFilter)
  | store (now : ℤ) (id : String) (input : StoreInput) (embedding : Option (List JsNum))
      (tenant : Option TenantFilter)
  | select (caller : ℕ) (now : ℤ) (tenant : Option TenantFilter) (call : Call)
  | write (caller : ℕ) (now : ℤ)

/-- `id = ? AND` the tenant's part -/
def idWhere (id : String) (tenant : Option TenantFilter) (row : Row) : Bool :=
  row.id = id && tenantWhere tenant row

/-- The `WHERE` of `update`, with the version that was selected. -/
def versionWhere (id : String) (tenant : Option TenantFilter) (version : ℤ) (row : Row) : Bool :=
  idWhere id tenant row && row.version = version

section Statements
variable (P : Platform)

def notFound (id : String) : RemembraError := ⟨.notFound, "memory " ++ id ++ " not found"⟩

/-- The record that `update` writes. -/
def updatedFrom (now : ℤ) (existing : Existing) (memory : Memory) : Memory :=
  { memory with
    tenantId := existing.tenantId
    projectId := existing.projectId
    userId := existing.userId
    agentId := existing.agentId
    version := existing.version + 1
    updatedAt := P.host.toISOString now }

def setArchived (stamp : String) (row : Row) : Row :=
  { row with archivedAt := some stamp, updatedAt := stamp }

def setRevived (stamp : String) (row : Row) : Row :=
  { row with archivedAt := none, lastSeen := some stamp, updatedAt := stamp }

def setSeen (stamp : String) (row : Row) : Row := { row with lastSeen := some stamp }

/-- The row that a statement on one id would write. -/
def selected (memories : Memories) (id : String) (tenant : Option TenantFilter) : Option Row :=
  (memories.get id).filter (tenantWhere tenant)

/-- The checks and the `SELECT` of a call. -/
def selects (memories : Memories) (now : ℤ) (tenant : Option TenantFilter) : Call → Pc
  | .update memory options =>
    if !tenant.all (memoryBelongsToTenant memory) then .done (.refused (notFound memory.id))
    else if tenant.isNone && (truthy memory.tenantId).isSome then
      .done (.refused (notFound memory.id))
    else match selected memories memory.id tenant with
      | none => .done (.refused (notFound memory.id))
      | some row =>
        if options.expectedVersion.any (· ≠ row.version) then
          .done (.refused
            (versionMismatch memory.id (options.expectedVersion.getD 0) row.version))
        else .updating memory options tenant
          ⟨row.version, row.content, row.tenantId, row.projectId, row.userId, row.agentId⟩
  | .archive id =>
    match (selected memories id tenant).filter fun row => row.archivedAt = none with
    | none => .done (.moved none)
    | some row => .archiving id tenant row
  | .revive id =>
    match (selected memories id tenant).filter fun row => row.archivedAt ≠ none with
    | none => .done (.moved none)
    | some row => .reviving id tenant row
  | .touch id =>
    match selected memories id tenant with
    | none => .done .touched
    | some row =>
      if (P.host.dateParse (row.lastSeen.getD row.updatedAt)).any fun last => now - last < 3600000
      then .done .touched
      else .touching id tenant
  | .forget id =>
    match selected memories id tenant with
    | none => .done (.forgotten false)
    | some _ => .forgetting id tenant

/-- The writing statement of a call, and where the caller is after it. -/
def writes (memories : Memories) (now : ℤ) : Pc → Option (Memories × Pc)
  | .updating memory _ tenant existing =>
    let updated := updatedFrom P now existing memory
    let (memories, changes) := memories.updateWhere
      (versionWhere memory.id tenant existing.version) (setUpdated P updated) fun _ => rfl
    some (memories, if changes = 0 then .losing memory tenant existing else .done (.updated updated))
  | .losing memory tenant existing =>
    some (memories, .done (.refused (match selected memories memory.id tenant with
      | none => notFound memory.id
      | some row => versionMismatch memory.id existing.version row.version)))
  | .archiving id tenant row =>
    let stamp := P.host.toISOString now
    some ((memories.updateWhere (idWhere id tenant) (setArchived stamp) fun _ => rfl).1,
      .done (.moved (rowToMemory (setArchived stamp row))))
  | .reviving id tenant row =>
    let stamp := P.host.toISOString now
    some ((memories.updateWhere (idWhere id tenant) (setRevived stamp) fun _ => rfl).1,
      .done (.moved (rowToMemory (setRevived stamp row))))
  | .touching id tenant =>
    some ((memories.updateWhere (idWhere id tenant) (setSeen (P.host.toISOString now))
      fun _ => rfl).1, .done .touched)
  | .forgetting id tenant =>
    let (memories, changes) := memories.deleteWhere (idWhere id tenant)
    some (memories, .done (.forgotten (changes ≠ 0)))
  | .idle | .done _ => none

/-- New ids are new, and updates are of records that were read. -/
def admits (s : State) : Act → Bool
  | .store _ id input _ _ => id ∉ s.used && usableInstants P.host input
  | .select _ _ _ (.update memory _) => s.hands.any (patches · memory)
  | _ => true

def isReady : Pc → Bool
  | .idle | .done _ => true
  | _ => false

def State.step (s : State) (a : Act) : Option State :=
  if admits P s a then
    match a with
    | .get id tenant => some { s with hands := (get s.memories id tenant).toList ++ s.hands }
    | .store now id input embedding tenant =>
      (s.memories.insert (rowOf P (storeRecord P now id input embedding tenant))).map fun memories =>
        { s with memories := memories, used := id :: s.used }
    | .select caller now tenant call =>
      if isReady (s.pcs caller) then
        some { s with pcs := Function.update s.pcs caller (selects P s.memories now tenant call) }
      else none
    | .write caller now =>
      (writes P s.memories now (s.pcs caller)).map fun (memories, pc) =>
        { s with memories := memories, pcs := Function.update s.pcs caller pc }
  else none

/-- What the writing statement of a call does to a record, if it meets a row. -/
def changeOf (memories : Memories) (now : ℤ) : Pc → Option (String × Change Memory)
  | .updating memory options tenant existing =>
    if (memories.get memory.id).any (versionWhere memory.id tenant existing.version) then
      some (memory.id, .updated memory options.expectedVersion
        (updatedFrom P now existing memory).version)
    else none
  | .archiving id tenant _ | .reviving id tenant _ =>
    if (memories.get id).any (idWhere id tenant) then some (id, .moved) else none
  | .forgetting id tenant =>
    if (memories.get id).any (idWhere id tenant) then some (id, .removed) else none
  | _ => none

def State.change (s : State) : Act → Option (String × Change Memory)
  | .store _ id _ _ _ => some (id, .created)
  | .write caller now => changeOf P s.memories now (s.pcs caller)
  | _ => none

/-- The database as its callers see it; a record is archived or not. -/
def database : Versioned State Act String Memory where
  step := State.step P
  change := State.change P
  read s id := (s.memories.get id).map memoryOf
  version := Memory.version
  place m := (truthy m.archivedAt).isSome

end Statements

/-! ### What a statement does to the rows -/

section Effects
variable {P : Platform} {s t : State} {a : Act}

/-- The statement's `SET` makes the change of every row that its `WHERE` meets. -/
def Fits (p : Row → Bool) (f : Row → Row) : Option (Change Memory) → Prop
  | none => ∀ r, p r = true → (f r).version = r.version ∧
      (truthy (f r).archivedAt).isSome = (truthy r.archivedAt).isSome
  | some .moved => ∀ r, p r = true → (f r).version = r.version
  | some (.updated given expected v) => ∀ r, p r = true → (∀ x ∈ expected, x = r.version) ∧
      v = r.version + 1 ∧ (f r).version = v ∧
      (truthy (f r).archivedAt).isSome = (truthy given.archivedAt).isSome
  | some .created | some .removed => False

/-- What becomes of the rows, and the change that it is. -/
inductive Effect (s : State) : Memories → Option (String × Change Memory) → Prop where
  | quiet : Effect s s.memories none
  | inserted (row : Row) (memories : Memories) : s.memories.insert row = some memories →
      row.id ∉ s.used → Effect s memories (some (row.id, .created))
  | rewritten (id : String) (p : Row → Bool) (f : Row → Row) (hf : ∀ r, (f r).id = r.id)
      (c : Option (Change Memory)) : (∀ r, p r = true → r.id = id) → Fits p f c →
      Effect s (s.memories.updateWhere p f hf).1
        (if (s.memories.get id).any p then c.map (id, ·) else none)
  | deleted (id : String) (p : Row → Bool) : (∀ r, p r = true → r.id = id) →
      Effect s (s.memories.deleteWhere p).1
        (if (s.memories.get id).any p then some (id, .removed) else none)

/-- Every row is of an id that was generated, and an update that is under way has found the version
    it expects. -/
structure Inv (s : State) : Prop where
  used : ∀ id row, s.memories.get id = some row → id ∈ s.used
  expected : ∀ caller memory options tenant existing,
    s.pcs caller = .updating memory options tenant existing →
    ∀ x ∈ options.expectedVersion, x = existing.version

theorem idWhere_id {id : String} {tenant : Option TenantFilter} {r : Row}
    (h : idWhere id tenant r = true) : r.id = id := by
  rw [idWhere, Bool.and_eq_true, decide_eq_true_iff] at h
  exact h.1

section Selected
variable {memories : Memories} {id : String} {tenant : Option TenantFilter} {row : Row}

theorem get_updateWhere_selected (h : selected memories id tenant = some row) (f : Row → Row)
    (hf : ∀ r, (f r).id = r.id) (k : String) :
    (memories.updateWhere (idWhere id tenant) f hf).1.get k =
      if k = id then some (f row) else memories.get k := by
  obtain ⟨hget, hwhere⟩ := Option.filter_eq_some_iff.mp h
  obtain ⟨old, hold, -, -, hrows⟩ | ⟨hnone, -⟩ := Table.updateWhere_of_key memories
    (idWhere id tenant) f hf id fun r hr => idWhere_id hr
  · rw [hget, Option.some.injEq] at hold
    exact hold ▸ hrows k
  · have hnot := hnone row hget
    simp [idWhere, hwhere, Table.key_of_get hget] at hnot

theorem get_deleteWhere_selected (h : selected memories id tenant = some row) (k : String) :
    (memories.deleteWhere (idWhere id tenant)).1.get k =
      if k = id then none else memories.get k := by
  obtain ⟨hget, hwhere⟩ := Option.filter_eq_some_iff.mp h
  rw [Table.get_deleteWhere]
  split_ifs with hk
  · rw [hk, hget]
    simp [idWhere, hwhere, Table.key_of_get hget]
  · cases hrow : memories.get k with
    | none => rfl
    | some r =>
      have hne : idWhere id tenant r = false := by
        by_contra hidWhere
        exact hk ((Table.key_of_get hrow).symm.trans
          (idWhere_id (Bool.eq_true_of_not_eq_false hidWhere)))
      simp [Option.filter, hne]

end Selected

theorem truthy_truthy (o : Option String) : truthy (truthy o) = truthy o := Store.truthy_truthy o

/-- The writing statement of a call has the effect that `changeOf` tells. -/
theorem writes_effect {now : ℤ} {caller : ℕ} {memories : Memories} {pc : Pc} (hs : Inv s)
    (hw : writes P s.memories now (s.pcs caller) = some (memories, pc)) :
    Effect s memories (changeOf P s.memories now (s.pcs caller)) ∧
      ∀ memory options tenant existing, pc ≠ .updating memory options tenant existing := by
  cases hpc : s.pcs caller with
  | idle => rw [hpc] at hw; cases hw
  | done answer => rw [hpc] at hw; cases hw
  | updating memory options tenant existing =>
    rw [hpc] at hw
    simp only [writes, Option.some.injEq, Prod.mk.injEq] at hw
    obtain ⟨rfl, rfl⟩ := hw
    refine ⟨.rewritten memory.id _ _ _ (some (.updated memory options.expectedVersion _)) ?_ ?_, ?_⟩
    · intro r hr
      rw [versionWhere, Bool.and_eq_true] at hr
      exact idWhere_id hr.1
    · intro r hr
      rw [versionWhere, Bool.and_eq_true, decide_eq_true_iff] at hr
      refine ⟨?_, ?_, rfl, rfl⟩
      · intro x hx
        rw [hs.expected caller memory options tenant existing hpc x hx]
        exact hr.2.symm
      · simp only [updatedFrom, hr.2]
    · intro memory' options' tenant' existing'
      split <;> simp
  | losing memory tenant existing =>
    rw [hpc] at hw
    simp only [writes, Option.some.injEq, Prod.mk.injEq] at hw
    obtain ⟨rfl, rfl⟩ := hw
    exact ⟨.quiet, by simp⟩
  | archiving id tenant row =>
    rw [hpc] at hw
    simp only [writes, Option.some.injEq, Prod.mk.injEq] at hw
    obtain ⟨rfl, rfl⟩ := hw
    exact ⟨.rewritten id _ _ _ (some .moved) (fun r hr => idWhere_id hr) (fun r _ => rfl), by simp⟩
  | reviving id tenant row =>
    rw [hpc] at hw
    simp only [writes, Option.some.injEq, Prod.mk.injEq] at hw
    obtain ⟨rfl, rfl⟩ := hw
    exact ⟨.rewritten id _ _ _ (some .moved) (fun r hr => idWhere_id hr) (fun r _ => rfl), by simp⟩
  | touching id tenant =>
    rw [hpc] at hw
    simp only [writes, Option.some.injEq, Prod.mk.injEq] at hw
    obtain ⟨rfl, rfl⟩ := hw
    refine ⟨?_, by simp⟩
    have heffect := Effect.rewritten (s := s) id (idWhere id tenant)
      (setSeen (P.host.toISOString now)) (fun _ => rfl) none (fun r hr => idWhere_id hr)
      fun r _ => ⟨rfl, rfl⟩
    simpa [changeOf] using heffect
  | forgetting id tenant =>
    rw [hpc] at hw
    simp only [writes, Option.some.injEq, Prod.mk.injEq] at hw
    obtain ⟨rfl, rfl⟩ := hw
    exact ⟨.deleted id _ fun r hr => idWhere_id hr, by simp⟩

theorem selects_expected {memories : Memories} {now : ℤ} {tenant tenant' : Option TenantFilter}
    {call : Call} {memory : Memory} {options : UpdateOptions} {existing : Existing}
    (h : selects P memories now tenant call = .updating memory options tenant' existing) :
    ∀ x ∈ options.expectedVersion, x = existing.version := by
  cases call with
  | update memory' options' =>
    simp only [selects] at h
    split at h
    · cases h
    · split at h
      · cases h
      · split at h
        · cases h
        · split at h
          · cases h
          · rename_i hexpected
            cases h
            intro x hx
            rw [Option.mem_def] at hx
            simpa [hx] using hexpected
  | archive id =>
    simp only [selects] at h
    split at h <;> cases h
  | revive id =>
    simp only [selects] at h
    split at h <;> cases h
  | touch id =>
    simp only [selects] at h
    split at h
    · cases h
    · split at h <;> cases h
  | forget id =>
    simp only [selects] at h
    split at h <;> cases h

theorem expected_goto {caller : ℕ} {pc : Pc} (hs : Inv s)
    (hpc : ∀ memory options tenant existing, pc = .updating memory options tenant existing →
      ∀ x ∈ options.expectedVersion, x = existing.version) :
    ∀ caller' memory options tenant existing,
      Function.update s.pcs caller pc caller' = .updating memory options tenant existing →
      ∀ x ∈ options.expectedVersion, x = existing.version := by
  intro caller' memory options tenant existing h
  by_cases hc : caller' = caller
  · subst hc
    rw [Function.update_self] at h
    exact hpc memory options tenant existing h
  · rw [Function.update_of_ne hc] at h
    exact hs.expected caller' memory options tenant existing h

/-- A step has an effect on the rows, keeps the generated ids and the invariant of the callers. -/
theorem step_effect (hs : Inv s) (ht : State.step P s a = some t) :
    Effect s t.memories (State.change P s a) ∧ (∀ id ∈ s.used, id ∈ t.used) ∧
      (∀ id, State.change P s a = some (id, .created) → id ∈ t.used) ∧
      ∀ caller memory options tenant existing,
        t.pcs caller = .updating memory options tenant existing →
        ∀ x ∈ options.expectedVersion, x = existing.version := by
  unfold State.step at ht
  split at ht
  · rename_i hadm
    cases a with
    | get id tenant =>
      cases ht
      exact ⟨.quiet, fun _ h => h, by simp [State.change], hs.expected⟩
    | store now id input embedding tenant =>
      simp only [Option.map_eq_some_iff] at ht
      obtain ⟨memories, hinsert, rfl⟩ := ht
      simp only [admits, Bool.and_eq_true, decide_eq_true_iff] at hadm
      refine ⟨.inserted _ memories hinsert hadm.1, fun _ h => List.mem_cons_of_mem _ h, ?_,
        hs.expected⟩
      intro i hi
      simp only [State.change, Option.some.injEq, Prod.mk.injEq] at hi
      exact hi.1 ▸ List.mem_cons_self ..
    | select caller now tenant call =>
      simp only at ht
      split at ht
      · cases ht
        exact ⟨.quiet, fun _ h => h, by simp [State.change],
          expected_goto hs fun _ _ _ _ hpc => selects_expected hpc⟩
      · cases ht
    | write caller now =>
      simp only [Option.map_eq_some_iff, Prod.exists] at ht
      obtain ⟨memories, pc, hw, rfl⟩ := ht
      obtain ⟨heffect, hpc'⟩ := writes_effect hs hw
      refine ⟨heffect, fun _ h => h, ?_,
        expected_goto hs fun memory options tenant existing hpc =>
          absurd hpc (hpc' memory options tenant existing)⟩
      intro id hid
      simp only [State.change] at hid
      cases hpc : s.pcs caller <;> rw [hpc] at hid <;> simp [changeOf] at hid
  · cases ht

/-- A row that was written was there and met the `WHERE`, or is as it was. -/
theorem get_rewritten {p : Row → Bool} {f : Row → Row} {hf : ∀ r, (f r).id = r.id} {id : String}
    {row' : Row} (h : (s.memories.updateWhere p f hf).1.get id = some row') :
    ∃ row, s.memories.get id = some row ∧ row' = if p row = true then f row else row := by
  rw [Table.get_updateWhere, Option.map_eq_some_iff] at h
  obtain ⟨row, hrow, rfl⟩ := h
  exact ⟨row, hrow, rfl⟩

/-- What a statement that changes another record, or none, leaves of a record. -/
theorem Effect.spared {memories : Memories} {c : Option (String × Change Memory)} {id : String}
    {row' : Row} (h : Effect s memories c) (hc : ∀ x, c ≠ some (id, x))
    (hrow' : memories.get id = some row') :
    ∃ row, s.memories.get id = some row ∧ row'.version = row.version ∧
      (truthy row'.archivedAt).isSome = (truthy row.archivedAt).isSome := by
  cases h with
  | quiet => exact ⟨row', hrow', rfl, rfl⟩
  | inserted row memories hinsert hnew =>
    rw [Table.get_insert hinsert] at hrow'
    split at hrow'
    · rename_i hid
      subst hid
      exact absurd rfl (hc .created)
    · exact ⟨row', hrow', rfl, rfl⟩
  | rewritten id' p f hf c hp hfits =>
    obtain ⟨row, hrow, rfl⟩ := get_rewritten hrow'
    refine ⟨row, hrow, ?_⟩
    by_cases hpr : p row = true
    · obtain rfl : id = id' := (Table.key_of_get hrow).symm.trans (hp row hpr)
      have hany : (s.memories.get id).any p = true := by rw [hrow]; exact hpr
      simp only [if_pos hany] at hc
      cases c with
      | none =>
        rw [if_pos hpr]
        exact hfits row hpr
      | some x => exact absurd rfl (hc x)
    · rw [if_neg hpr]
      exact ⟨rfl, rfl⟩
  | deleted id' p hp =>
    rw [Table.get_deleteWhere, Option.filter_eq_some_iff] at hrow'
    exact ⟨row', hrow'.1, rfl, rfl⟩

/-- A statement that makes a change inserts a new row, or meets the row it rewrites or deletes. -/
theorem Effect.changed {memories : Memories} {id : String} {x : Change Memory}
    (h : Effect s memories (some (id, x))) :
    (x = .created ∧ id ∉ s.used) ∨
      (∃ p f, Fits p f (some x) ∧ ∃ row, s.memories.get id = some row ∧ p row = true ∧
        memories.get id = some (f row)) ∨
      (x = .removed ∧ memories.get id = none) := by
  generalize hc : some (id, x) = c at h
  cases h with
  | quiet => cases hc
  | inserted row memories hinsert hnew =>
    cases hc
    exact .inl ⟨rfl, hnew⟩
  | rewritten id' p f hf c hp hfits =>
    split at hc
    · rename_i hany
      obtain ⟨row, hrow, hpr⟩ := Option.any_eq_true _ _ |>.mp hany
      cases c with
      | none => cases hc
      | some y =>
        cases hc
        refine .inr (.inl ⟨p, f, hfits, row, hrow, hpr, ?_⟩)
        rw [Table.get_updateWhere, hrow, Option.map_some, if_pos hpr]
    · cases hc
  | deleted id' p hp =>
    split at hc
    · rename_i hany
      cases hc
      refine .inr (.inr ⟨rfl, ?_⟩)
      obtain ⟨row, hrow, hpr⟩ := Option.any_eq_true _ _ |>.mp hany
      rw [Table.get_deleteWhere, hrow]
      exact Option.filter_some_neg (by simp [hpr])
    · cases hc

theorem Effect.used {memories : Memories} {c : Option (String × Change Memory)} {id : String}
    {row : Row} (h : Effect s memories c) (hs : Inv s) (hrow : memories.get id = some row) :
    id ∈ s.used ∨ c = some (id, .created) := by
  by_cases hc : ∀ x, c ≠ some (id, x)
  · obtain ⟨row₀, hrow₀, -, -⟩ := h.spared hc hrow
    exact .inl (hs.used id row₀ hrow₀)
  · push Not at hc
    obtain ⟨x, rfl⟩ := hc
    rcases h.changed with ⟨rfl, -⟩ | ⟨p, f, -, row₀, hrow₀, -⟩ | ⟨rfl, hnone⟩
    · exact .inr rfl
    · exact .inl (hs.used id row₀ hrow₀)
    · rw [hnone] at hrow
      cases hrow

theorem inv_step (hs : Inv s) (ht : State.step P s a = some t) : Inv t := by
  obtain ⟨heffect, hused, hnew, hexpected⟩ := step_effect hs ht
  refine ⟨fun id row hrow => ?_, hexpected⟩
  rcases heffect.used hs hrow with h | h
  · exact hused id h
  · exact hnew id h

/-- The database keeps the versions of its records. -/
theorem database_lawful (P : Platform) :
    (database P).Lawful Inv fun s id => id ∈ s.used := by
  -- what is read of a record is its row's
  have hread : ∀ {s : State} {id : String} {r : Memory}, (database P).read s id = some r →
      ∃ row, s.memories.get id = some row ∧ memoryOf row = r := by
    intro s id r hr
    simpa only [database, Option.map_eq_some_iff] using hr
  have hplace : ∀ row : Row, (truthy (memoryOf row).archivedAt).isSome =
      (truthy row.archivedAt).isSome := fun row => congrArg Option.isSome (truthy_truthy _)
  constructor
  case keeps => exact fun hs ht => inv_step hs ht
  case born => exact fun {s t a id} hs ht hborn => (step_effect hs ht).2.1 id hborn
  case born_of_read =>
    intro s id r hs hr
    obtain ⟨row, hrow, -⟩ := hread hr
    exact hs.used id row hrow
  case created =>
    intro s t a id hs ht hc
    have heffect := (step_effect hs ht).1
    simp only [database] at hc
    rw [hc] at heffect
    rcases heffect.changed with ⟨-, hnew⟩ | ⟨p, f, hfits, -⟩ | ⟨hx, -⟩
    · exact hnew
    · exact hfits.elim
    · cases hx
  case spared =>
    intro s t a id r hs ht hspared hr
    obtain ⟨row', hrow', rfl⟩ := hread hr
    obtain ⟨row, hrow, hversion, harchived⟩ := (step_effect hs ht).1.spared hspared hrow'
    refine ⟨memoryOf row, by simp only [database, hrow, Option.map_some], hversion, ?_⟩
    simp only [database, hplace]
    exact harchived
  case updated =>
    intro s t a id given expected v hs ht hc
    have heffect := (step_effect hs ht).1
    simp only [database] at hc
    rw [hc] at heffect
    rcases heffect.changed with ⟨hx, -⟩ | ⟨p, f, hfits, row, hrow, hpr, hnew⟩ | ⟨hx, -⟩
    · cases hx
    · obtain ⟨hexpected, hv, hversion, harchived⟩ := hfits row hpr
      refine ⟨memoryOf row, by simp only [database, hrow, Option.map_some], hexpected, hv, ?_⟩
      intro r hr
      obtain ⟨row', hrow', rfl⟩ := hread hr
      rw [hnew, Option.some.injEq] at hrow'
      subst hrow'
      simp only [database, hplace]
      exact ⟨hversion, harchived⟩
    · cases hx
  case moved =>
    intro s t a id r hs ht hc hr
    have heffect := (step_effect hs ht).1
    simp only [database] at hc
    rw [hc] at heffect
    rcases heffect.changed with ⟨hx, -⟩ | ⟨p, f, hfits, row, hrow, hpr, hnew⟩ | ⟨hx, -⟩
    · cases hx
    · obtain ⟨row', hrow', rfl⟩ := hread hr
      rw [hnew, Option.some.injEq] at hrow'
      subst hrow'
      exact ⟨memoryOf row, by simp only [database, hrow, Option.map_some], hfits row hpr⟩
    · cases hx
  case removed =>
    intro s t a id hs ht hc
    have heffect := (step_effect hs ht).1
    simp only [database] at hc
    rw [hc] at heffect
    rcases heffect.changed with ⟨hx, -⟩ | ⟨p, f, hfits, -⟩ | ⟨-, hnone⟩
    · cases hx
    · exact hfits.elim
    · simp only [database, hnone, Option.map_none]

end Effects

/-! ### What the version protects -/

theorem inv_init : Inv {} := by
  constructor
  · intro id row h
    cases h
  · intro caller memory options tenant existing h
    cases h

/-- In both stores, over every order of calls and statements: an update that names the version its
    caller read is the first change since the read and leaves the record where it is, unless the
    record was archived or revived in between; and versions grow with every update. -/
theorem version_protects (C : Store.Config) (P : Platform) (hv : C.host.ReadsVersions)
    (hd : C.host.ReadsDates) :
    ((Store.fileStore C).LosesNothing {} (Store.fileStore C).Unmoved ∧
      (Store.fileStore C).VersionsIncrease {}) ∧
    (database P).LosesNothing {} (database P).Unmoved ∧ (database P).VersionsIncrease {} := by
  have hfiles := Store.fileStore_lawful hv hd
  have hdatabase := database_lawful P
  refine ⟨⟨?_, ?_⟩, ?_, ?_⟩
  · exact hfiles.losesNothing Store.sound_init
  · exact hfiles.versionsIncrease Store.sound_init
  · exact hdatabase.losesNothing inv_init
  · exact hdatabase.versionsIncrease inv_init

/-- A store with its root below the data directory. -/
def dataConfig : Store.Config := { host := Store.newYear, root := Store.dataRoot }

def dataPlatform : Platform := { host := Store.newYear, fround := id }

def newId : String := Store.genId 0 fun _ => 0

theorem readsDates_newYear : Store.newYear.ReadsDates := by
  constructor
  · decide
  · intro s t h
    simp only [Store.newYear] at h ⊢
    split at h
    · cases h
      decide
    · cases h

theorem version_protects_newYear :
    ((Store.fileStore dataConfig).LosesNothing {} (Store.fileStore dataConfig).Unmoved ∧
      (Store.fileStore dataConfig).VersionsIncrease {}) ∧
    (database dataPlatform).LosesNothing {} (database dataPlatform).Unmoved ∧
      (database dataPlatform).VersionsIncrease {} :=
  version_protects dataConfig dataPlatform Store.readsVersions_newYear readsDates_newYear

/-- In both stores: a record is read, archived by somebody else, and then updated with the version
    that was read. The update succeeds and the record is active again. -/
theorem archive_is_lost :
    (¬ (Store.fileStore dataConfig).LosesNothing {} fun _ _ _ => True) ∧
      ¬ (database dataPlatform).LosesNothing {} fun _ _ _ => True := by
  constructor
  · refine Versioned.not_losesNothing (none, newId)
      [.call 1767225600000 (fun _ => "t") none (.store newId Store.preference none),
        .get newId none]
      (.call 1767225600000 (fun _ => "t") none (.archive newId)) (fun _ => [])
      (fun m => .call 1767225600000 (fun _ => "t") none
        (.update m { expectedVersion := some m.version })) ?_
    decide +kernel
  · refine Versioned.not_losesNothing newId
      [.store 1767225600000 newId Store.preference none none, .get newId none,
        .select 0 1767225600000 none (.archive newId)]
      (.write 0 1767225600000)
      (fun m => [.select 1 1767225600000 none (.update m { expectedVersion := some m.version })])
      (fun _ => .write 1 1767225600000) ?_
    decide +kernel

/-! ### Other callers' rows -/

section Unseen
open Transition
variable {P : Platform} {s t : State} {now : ℤ} {pc pc' : Pc} {id : String} {row : Row}
  {memories memories' : Memories} {tenant : Option TenantFilter}

/-- A call under way is of a caller who does not see the row. -/
def Pc.Unseen (row : Row) : Pc → Prop
  | .idle | .done _ => True
  | .updating _ _ tenant _ | .losing _ tenant _ | .archiving _ tenant _ | .reviving _ tenant _
  | .touching _ tenant | .forgetting _ tenant => tenantWhere tenant row = false

/-- A call that begins is of such a caller. -/
def Act.Unseen (row : Row) : Act → Prop
  | .select _ _ tenant _ => tenantWhere tenant row = false
  | _ => True

structure Untouched (id : String) (row : Row) (s : State) : Prop where
  kept : s.memories.get id = some row
  unseen : ∀ caller, (s.pcs caller).Unseen row

theorem selects_unseen {call : Call} (h : tenantWhere tenant row = false) :
    (selects P memories now tenant call).Unseen row := by
  cases call <;> simp only [selects] <;> repeat' split
  all_goals first | exact trivial | exact h

theorem idWhere_of_unseen {k : String} (h : tenantWhere tenant row = false) :
    idWhere k tenant row = false := by
  rw [idWhere, h, Bool.and_false]

theorem get_updateWhere_of_not {p : Row → Bool} {f : Row → Row} (hf : ∀ r, (f r).id = r.id)
    (hget : memories.get id = some row) (hp : p row = false) :
    (memories.updateWhere p f hf).1.get id = some row := by
  rw [Table.get_updateWhere, hget, Option.map_some, hp]
  rfl

theorem writes_unseen (hget : memories.get id = some row) (hpc : pc.Unseen row)
    (hw : writes P memories now pc = some (memories', pc')) :
    memories'.get id = some row ∧ pc'.Unseen row := by
  cases pc <;> cases hw
  case updating =>
    refine ⟨get_updateWhere_of_not ?_ hget ?_, ?_⟩
    · exact fun _ => rfl
    · rw [versionWhere, idWhere_of_unseen hpc, Bool.false_and]
    · split
      · exact hpc
      · trivial
  case losing => exact ⟨hget, trivial⟩
  case forgetting =>
    refine ⟨(Table.get_deleteWhere ..).trans ?_, trivial⟩
    rw [hget, Option.filter_some, idWhere_of_unseen hpc]
    rfl
  all_goals
    refine ⟨get_updateWhere_of_not ?_ hget (idWhere_of_unseen hpc), trivial⟩
    exact fun _ => rfl

theorem untouched_step {a : Act} (hs : Untouched id row s) (ha : a.Unseen row)
    (ht : State.step P s a = some t) : Untouched id row t := by
  have hgoto {caller : ℕ} {pc : Pc} (hpc : pc.Unseen row) :=
    (Function.forall_update_iff s.pcs fun _ pc => pc.Unseen row).mpr
      ⟨hpc, fun c (_ : c ≠ caller) => hs.unseen c⟩
  unfold State.step at ht
  split at ht
  · cases a with
    | get id tenant =>
      cases ht
      exact ⟨hs.kept, hs.unseen⟩
    | store now id input embedding tenant =>
      obtain ⟨memories, hinsert, rfl⟩ := Option.map_eq_some_iff.mp ht
      refine ⟨?_, hs.unseen⟩
      rw [Table.get_insert hinsert, if_neg]
      · exact hs.kept
      · rintro rfl
        cases hs.kept.symm.trans (Table.rows_insert hinsert).1
    | select caller now tenant call =>
      simp only at ht
      split at ht <;> cases ht
      exact ⟨hs.kept, hgoto (selects_unseen ha)⟩
    | write caller now =>
      obtain ⟨⟨memories, pc⟩, hw, rfl⟩ := Option.map_eq_some_iff.mp ht
      obtain ⟨hkept, hpc⟩ := writes_unseen hs.kept (hs.unseen caller) hw
      exact ⟨hkept, hgoto hpc⟩
  · cases ht

/-- Over every order of the statements of any instances, a memory keeps its row as long as every call
    is of a caller who does not see it. -/
theorem row_untouched (as : List Act) (hs : Untouched id row s) (has : ∀ a ∈ as, a.Unseen row)
    (hrun : run (State.step P) s as = some t) : t.memories.get id = some row :=
  (run_induct (fun _ _ _ => untouched_step) as hs (along_of_mem has s) hrun).kept

def firstRow : Row := rowOf dataPlatform (storeRecord dataPlatform 0 newId Store.preference none none)

/-- An organization would forget a memory of no tenant. -/
def foreignForget : Act := .select 0 0 (some { organizationId := ⟨"org-z", by decide⟩ }) (.forget newId)

theorem row_untouched_firstRow : ∃ t,
    run (State.step dataPlatform) { memories := Table.upsert .empty firstRow } [foreignForget] = some t ∧
      t.memories.get newId = some firstRow := by
  have hs : Untouched newId firstRow { memories := Table.upsert .empty firstRow } :=
    ⟨rfl, fun _ => trivial⟩
  exact ⟨_, rfl, row_untouched (P := dataPlatform) [foreignForget] hs
    (List.forall_mem_singleton.mpr rfl) rfl⟩

end Unseen
end Remembra.Sqlite
