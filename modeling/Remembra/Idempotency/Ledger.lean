import Remembra.Idempotency.Record
import Remembra.Lib.Transaction

/-! The transactions of the batch idempotency ledger, and what each can do to the database
    (`claim_cases`, `complete_cases`, `abandon_cases`). -/

namespace Remembra.Idempotency

variable {V : Type*} (P : Platform V) (o : Options)

def restoreIsPending : RemembraError := ⟨.serviceUnavailable, "data restore is pending"⟩

def differentRequest : RemembraError :=
  ⟨.conflict, "idempotency key was already used with a different request"⟩

def differentOperation : RemembraError :=
  ⟨.conflict, "idempotency key was already used for a different operation"⟩

def staleGeneration : RemembraError := invalid "claim generation is stale; invalidate the ledger"

def capacityExhausted : RemembraError := invalid "claim capacity is exhausted"

/-- `scope_hash = ? AND key_hash = ?` -/
def keyWhere (scopeHash keyHash : String) (row : ClaimRow) : Bool :=
  row.scopeHash = scopeHash && row.keyHash = keyHash

/-- `scope_hash = ? AND key_hash = ? AND state = 'released'` -/
def releasedWhere (scopeHash keyHash : String) (row : ClaimRow) : Bool :=
  keyWhere scopeHash keyHash row && row.state = .released

/-- `scope_hash = ? AND key_hash = ? AND fingerprint = ? AND state = 'in_progress'` -/
def inProgressWhere (scopeHash keyHash fingerprint : String) (row : ClaimRow) : Bool :=
  keyWhere scopeHash keyHash row && row.fingerprint = fingerprint && row.state = .inProgress

/-! ### `claim` -/

/-- The row of a claim that is granted. -/
def reserved (input : BatchIdempotencyInput) (now : ℤ) (generation : ℕ) : ClaimRow where
  scopeHash := input.scope
  keyHash := P.digest input.key
  fingerprint := input.fingerprint
  state := .inProgress
  createdAt := now
  completedAt := none
  response := none
  responseBytes := 0
  reservedBytes := o.maxBytes
  operation := input.operation.getD ""
  generation := generation

/-- The capacity check and the `INSERT`. -/
def reserve (input : BatchIdempotencyInput) (now : ℤ) (db : Db) :
    Except RemembraError (BatchIdempotencyClaim V) × Db :=
  if db.claims.entryCount ≥ o.maxEntries ∨ db.claims.totalBytes + o.maxBytes > o.maxTotalBytes ∨
      db.claims.scopeCount input.scope ≥ o.maxEntriesPerScope then
    (.error capacityExhausted, db)
  else
    match db.claims.insert (reserved P o input now db.generation) with
    | none => (.error ⟨.serviceUnavailable, "batch idempotency claim could not be acquired"⟩, db)
    | some claims => (.ok .fresh, { db with claims := claims })

def parseResponse (row : ClaimRow) : Except RemembraError V :=
  match row.state, row.response with
  | .completed, some response =>
    match P.parse response with
    | some value => .ok value
    | none => .error (invalid "claim response is not valid JSON")
  | _, _ => .error (invalid "claim has no completed response")

def claimTransaction (input : BatchIdempotencyInput) (now : ℤ) (db : Db) :
    Except RemembraError (BatchIdempotencyClaim V) × Db :=
  if db.restorePending then (.error restoreIsPending, db)
  else
    match db.claims.get (input.scope, P.digest input.key) with
    | none => reserve P o input now db
    | some existing =>
      if existing.scopeHash ≠ input.scope ∨ existing.keyHash ≠ P.digest input.key then
        (.error (invalid "claim binding mismatch"), db)
      else if existing.generation ≠ db.generation then (.error staleGeneration, db)
      else if existing.state = .released then
        -- a released claim never applied a write, but the key stays bound to its operation
        if existing.operation = "" then
          (.error ⟨.serviceUnavailable, "a released idempotency key cannot be re-executed"⟩, db)
        else if input.operation ≠ some existing.operation then (.error differentOperation, db)
        else reserve P o input now { db with
          claims := (db.claims.deleteWhere (releasedWhere input.scope (P.digest input.key))).1 }
      else if existing.fingerprint ≠ input.fingerprint then (.error differentRequest, db)
      else if existing.state = .inProgress then
        (.error ⟨.serviceUnavailable, "an identical idempotent request is already in progress"⟩, db)
      else ((parseResponse P existing).map .replay, db)

def claim (input : BatchIdempotencyInput) (now : ℤ) (db : Db) :
    Except RemembraError (BatchIdempotencyClaim V) × Db :=
  match validateInput input with
  | .error e => (.error e, db)
  | .ok () => immediate (claimTransaction P o input now) db

/-! ### `complete` -/

def serialize (response : V) : Except RemembraError String :=
  match P.stringify response with
  | none => .error ⟨.serviceUnavailable, "batch idempotency response cannot be persisted"⟩
  | some serialized =>
    if serialized.utf8ByteSize > o.maxBytes then
      .error ⟨.serviceUnavailable, "batch idempotency response cannot be persisted"⟩
    else .ok serialized

def setCompleted (now : ℤ) (response : String) (row : ClaimRow) : ClaimRow :=
  { row with
    state := .completed
    completedAt := some now
    response := some response
    responseBytes := response.utf8ByteSize
    reservedBytes := 0 }

theorem setCompleted_key (now : ℤ) (response : String) (row : ClaimRow) :
    (setCompleted now response row).key = row.key := rfl

def completeTransaction (input : BatchIdempotencyInput) (response : String) (now : ℤ) (db : Db) :
    Except RemembraError Unit × Db :=
  if db.restorePending then (.error restoreIsPending, db)
  else
    match db.claims.get (input.scope, P.digest input.key) with
    | none => (.error (invalid "claim does not exist"), db)
    | some existing =>
      if existing.scopeHash ≠ input.scope ∨ existing.keyHash ≠ P.digest input.key then
        (.error (invalid "claim binding mismatch"), db)
      else if existing.generation ≠ db.generation then (.error staleGeneration, db)
      else if existing.fingerprint ≠ input.fingerprint then (.error differentRequest, db)
      else if existing.state = .completed then (.ok (), db)
      else if existing.state = .released then
        (.error (invalid "a released claim cannot be completed"), db)
      else
        let result := db.claims.updateWhere
          (inProgressWhere input.scope (P.digest input.key) input.fingerprint)
          (setCompleted now response) (setCompleted_key now response)
        if result.2 ≠ 1 then
          (.error (invalid "claim changed while it was being completed"), { db with claims := result.1 })
        else (.ok (), { db with claims := result.1 })

def complete (input : BatchIdempotencyInput) (response : V) (now : ℤ) (db : Db) :
    Except RemembraError Unit × Db :=
  match validateInput input with
  | .error e => (.error e, db)
  | .ok () =>
    match serialize P o response with
    | .error e => (.error e, db)
    | .ok text => immediate (completeTransaction P input text now) db

/-! ### `abandon` -/

def setReleased (operation : Option String) (row : ClaimRow) : ClaimRow :=
  { row with
    state := .released
    reservedBytes := 0
    operation := operation.getD row.operation }

theorem setReleased_key (operation : Option String) (row : ClaimRow) :
    (setReleased operation row).key = row.key := rfl

def abandonTransaction (input : BatchIdempotencyInput) (db : Db) : Except RemembraError Unit × Db :=
  if db.restorePending then (.error restoreIsPending, db)
  else
    match db.claims.get (input.scope, P.digest input.key) with
    | none => (.ok (), db)
    | some existing =>
      if existing.generation ≠ db.generation then (.error staleGeneration, db)
      else if existing.fingerprint ≠ input.fingerprint then (.error differentRequest, db)
      else if existing.state = .released then
        if existing.operation ≠ input.operation.getD "" then (.error differentOperation, db)
        else (.ok (), db)
      else if existing.state ≠ .inProgress then
        (.error (invalid "only an in-progress claim can be abandoned"), db)
      else
        let result := db.claims.updateWhere
          (inProgressWhere input.scope (P.digest input.key) input.fingerprint)
          (setReleased input.operation) (setReleased_key input.operation)
        if result.2 ≠ 1 then
          (.error (invalid "claim changed while it was being abandoned"), { db with claims := result.1 })
        else (.ok (), { db with claims := result.1 })

def abandon (input : BatchIdempotencyInput) (db : Db) : Except RemembraError Unit × Db :=
  match validateInput input with
  | .error e => (.error e, db)
  | .ok () => immediate (abandonTransaction P input) db

/-! ### The restore gate -/

/-- The transaction of `beginRestore`. -/
def publishTransaction (db : Db) : Except RemembraError Unit × Db :=
  if db.restorePending then (.error ⟨.serviceUnavailable, "a restore is already pending"⟩, db)
  else if db.claims.rows.any fun row => row.state = .inProgress then
    (.error ⟨.serviceUnavailable, "an idempotent mutation is still in progress"⟩, db)
  else (.ok (), { db with restorePending := true })

def publish (db : Db) : Except RemembraError Unit × Db := immediate publishTransaction db

/-- What a `beginRestore` that failed does. -/
def revert (db : Db) : Db := if db.restorePending then { db with restorePending := false } else db

def invalidateTransaction (db : Db) : Except RemembraError Unit × Db :=
  let next := db.generation + 1
  if next > maxSafeInteger then (.error (invalid "generation overflow"), db)
  else (.ok (), ⟨.empty, next, false⟩)

def invalidate (db : Db) : Except RemembraError Unit × Db := immediate invalidateTransaction db

/-! ### What the transactions do -/

section Cases
variable {P o} {input : BatchIdempotencyInput} {now : ℤ} {db : Db}

/-- Where a claim stands. -/
def BatchIdempotencyInput.at (P : Platform V) (input : BatchIdempotencyInput) : String × String :=
  (input.scope, P.digest input.key)

theorem keyWhere_key {scopeHash keyHash : String} {row : ClaimRow}
    (h : keyWhere scopeHash keyHash row = true) : row.key = (scopeHash, keyHash) := by
  simp only [keyWhere, Bool.and_eq_true, decide_eq_true_eq] at h
  exact Prod.ext h.1 h.2

theorem keyWhere_of_get {row : ClaimRow} (h : db.claims.get (input.at P) = some row) :
    keyWhere input.scope (P.digest input.key) row = true := by
  have hkey := Table.key_of_get h
  simp only [keyWhere, Bool.and_eq_true, decide_eq_true_eq]
  exact ⟨congrArg Prod.fst hkey, congrArg Prod.snd hkey⟩

/-- The room that a claim needs. -/
structure Room (o : Options) (scope : String) (claims : ClaimTable) : Prop where
  entries : claims.entryCount < o.maxEntries
  bytes : claims.totalBytes + o.maxBytes ≤ o.maxTotalBytes
  scopes : claims.scopeCount scope < o.maxEntriesPerScope

theorem reserve_cases (o : Options) (now : ℤ) {claims : ClaimTable}
    (hfree : claims.get (input.at P) = none) (db : Db) :
    (¬ Room o input.scope claims ∧
      reserve P o input now { db with claims := claims } =
        (.error capacityExhausted, { db with claims := claims })) ∨
    ∃ after, Room o input.scope claims ∧
      reserve P o input now { db with claims := claims } = (.ok .fresh, { db with claims := after }) ∧
        after.rows = claims.rows ++ [reserved P o input now db.generation] := by
  rw [reserve]
  split
  · rename_i hfull
    refine .inl ⟨fun hroom => ?_, rfl⟩
    obtain ⟨hentries, hbytes, hscopes⟩ := hroom
    dsimp only at hfull
    omega
  · rename_i hroom
    obtain ⟨after, hafter, hrows⟩ :=
      Table.insert_of_free (r := reserved P o input now db.generation) hfree
    rw [hafter]
    dsimp only at hroom
    exact .inr ⟨after, ⟨by omega, by omega, by omega⟩, rfl, hrows⟩

/-- A tombstone that the claim may take over. -/
def Reusable (db : Db) (input : BatchIdempotencyInput) (row : ClaimRow) : Prop :=
  row.state = .released ∧ row.generation = db.generation ∧ row.operation ≠ "" ∧
    input.operation = some row.operation

/-- A tombstone does not count. -/
theorem Room.of_released {claims after : ClaimTable} {row : ClaimRow} {l l' : List ClaimRow}
    {scope : String} (hrows : claims.rows = l ++ row :: l') (hafter : after.rows = l ++ l')
    (hreleased : row.state = .released) (h : Room o scope after) : Room o scope claims := by
  have hcount : ∀ p : ClaimRow → Bool, p row = false →
      claims.rows.filter p = after.rows.filter p := by
    intro p hp
    rw [hrows, hafter, List.filter_append, List.filter_append, List.filter_cons_of_neg (by simp [hp])]
  have hlive : claims.rows.filter (fun row => row.state ≠ .released) =
      after.rows.filter fun row => row.state ≠ .released := hcount _ (by simp [hreleased])
  have hscope : claims.rows.filter (fun row => row.scopeHash = scope ∧ row.state ≠ .released) =
      after.rows.filter fun row => row.scopeHash = scope ∧ row.state ≠ .released :=
    hcount _ (by simp [hreleased])
  refine ⟨?_, ?_, ?_⟩
  · rw [ClaimTable.entryCount, hlive]
    exact h.entries
  · rw [ClaimTable.totalBytes, hlive]
    exact h.bytes
  · rw [ClaimTable.scopeCount, hscope]
    exact h.scopes

/-- What the table holds after a claim is granted: the new row, in the place of nothing or of a tombstone
    it may take over. -/
def Grants (P : Platform V) (o : Options) (input : BatchIdempotencyInput) (now : ℤ) (db : Db)
    (after : ClaimTable) : Prop :=
  (db.claims.get (input.at P) = none ∧
    after.rows = db.claims.rows ++ [reserved P o input now db.generation]) ∨
  ∃ row l l', db.claims.get (input.at P) = some row ∧ Reusable db input row ∧
    db.claims.rows = l ++ row :: l' ∧ after.rows = l ++ l' ++ [reserved P o input now db.generation]

theorem claimTransaction_ok {a : BatchIdempotencyClaim V} {after : Db}
    (h : claimTransaction P o input now db = (.ok a, after)) :
    (∃ v row, a = .replay v ∧ after = db ∧ db.claims.get (input.at P) = some row ∧
      row.state = .completed) ∨
    ∃ claims, a = .fresh ∧ after = { db with claims := claims } ∧ db.restorePending = false ∧
      Room o input.scope db.claims ∧ Grants P o input now db claims := by
  rw [claimTransaction] at h
  by_cases hopen : db.restorePending = true
  · rw [if_pos hopen] at h
    cases h
  rw [if_neg hopen] at h
  have hclosed : db.restorePending = false := Bool.eq_false_iff.mpr hopen
  split at h
  · rename_i hfree
    rcases reserve_cases o now hfree db with ⟨-, hfull⟩ | ⟨claims, hroom, hok, hrows⟩
    · rw [hfull] at h
      cases h
    · rw [hok] at h
      cases h
      exact .inr ⟨claims, rfl, rfl, hclosed, hroom, .inl ⟨hfree, hrows⟩⟩
  · rename_i existing hget
    replace hget : db.claims.get (input.at P) = some existing := hget
    split at h
    · cases h
    split at h
    · cases h
    rename_i hgeneration
    split at h
    · rename_i hreleased
      split at h
      · cases h
      rename_i hnamed
      split at h
      · cases h
      rename_i hoperation
      have hwhere : ∀ r, releasedWhere input.scope (P.digest input.key) r = true →
          r.key = input.at P := fun r hr => keyWhere_key (Bool.and_eq_true _ _ ▸ hr).1
      have hold : releasedWhere input.scope (P.digest input.key) existing = true := by
        rw [releasedWhere, keyWhere_of_get hget, hreleased]
        rfl
      obtain ⟨l, l', hrows, hdeleted⟩ := Table.rows_deleteWhere hwhere hget hold
      have hfree : (db.claims.deleteWhere (releasedWhere input.scope (P.digest input.key))).1.get
          (input.at P) = none := by
        rw [Table.get_deleteWhere, hget, Option.filter_some, hold]
        rfl
      rcases reserve_cases o now hfree db with
        ⟨-, hfull⟩ | ⟨claims, hroom, hok, hafter⟩
      · rw [hfull] at h
        cases h
      · rw [hok] at h
        cases h
        rw [hdeleted] at hafter
        exact .inr ⟨claims, rfl, rfl, hclosed, hroom.of_released hrows hdeleted hreleased,
          .inr ⟨existing, l, l', hget, ⟨hreleased, not_not.mp hgeneration, hnamed, not_not.mp hoperation⟩,
            hrows, hafter⟩⟩
    · rename_i hreleased
      split at h
      · cases h
      split at h
      · cases h
      rename_i hprogress
      have hcompleted : existing.state = .completed := by
        cases hstate : existing.state <;> simp_all
      rcases hparsed : parseResponse P existing with e | v
      · rw [hparsed] at h
        cases h
      · rw [hparsed] at h
        cases h
        exact .inl ⟨v, existing, rfl, rfl, hget, hcompleted⟩

theorem claim_cases (P : Platform V) (o : Options) (input : BatchIdempotencyInput) (now : ℤ) (db : Db) :
    (∃ e, claim P o input now db = (.error e, db)) ∨
    (∃ v row, claim P o input now db = (.ok (.replay v), db) ∧
      db.claims.get (input.at P) = some row ∧ row.state = .completed) ∨
    ∃ claims, claim P o input now db = (.ok .fresh, { db with claims := claims }) ∧
      validateInput input = .ok () ∧ Room o input.scope db.claims ∧ Grants P o input now db claims := by
  rw [claim]
  split
  · exact .inl ⟨_, rfl⟩
  · rename_i hvalid
    rcases immediate_cases (claimTransaction P o input now) db with ⟨e, he⟩ | ⟨a, after, hbody, hok⟩
    · exact .inl ⟨e, he⟩
    · rw [hok]
      rcases claimTransaction_ok hbody with ⟨v, row, rfl, rfl, hrow⟩ | ⟨claims, rfl, rfl, -, hgrants⟩
      · exact .inr (.inl ⟨v, row, rfl, hrow⟩)
      · exact .inr (.inr ⟨claims, rfl, hvalid, hgrants⟩)

theorem Grants.get {after : ClaimTable} (h : Grants P o input now db after) (k : String × String) :
    after.get k =
      if k = input.at P then some (reserved P o input now db.generation) else db.claims.get k := by
  have hnew : after.get (input.at P) = some (reserved P o input now db.generation) := by
    refine Table.get_eq_some.mpr ⟨?_, rfl⟩
    rcases h with ⟨-, hrows⟩ | ⟨row, l, l', -, -, -, hrows⟩ <;> rw [hrows] <;> simp
  split
  · rename_i hk
    rw [hk, hnew]
  · rename_i hk
    refine Table.get_congr fun r hr => ?_
    have hne : r ≠ reserved P o input now db.generation := by
      rintro rfl
      exact hk hr.symm
    rcases h with ⟨-, hrows⟩ | ⟨row, l, l', hget, -, hbefore, hrows⟩
    · rw [hrows]
      simp [hne]
    · have hrow : r ≠ row := by
        rintro rfl
        exact hk (hr.symm.trans (Table.key_of_get hget))
      rw [hrows, hbefore]
      simp [hne, hrow]

/-- A claim of a completed key replays the first response, or refuses another request. -/
theorem claim_of_completed (o : Options) (now : ℤ) {row : ClaimRow} {text : String}
    (hvalid : validateInput input = .ok ()) (hopen : db.restorePending = false)
    (hget : db.claims.get (input.at P) = some row) (hgeneration : row.generation = db.generation)
    (hcompleted : row.state = .completed) (hresponse : row.response = some text)
    {v : V} (hparse : P.parse text = some v) :
    (claim P o input now db).1 =
      if row.fingerprint = input.fingerprint then .ok (.replay v) else .error differentRequest := by
  have hkey := Table.key_of_get hget
  have hscope : row.scopeHash = input.scope := congrArg Prod.fst hkey
  have hhash : row.keyHash = P.digest input.key := congrArg Prod.snd hkey
  replace hget : db.claims.get (input.scope, P.digest input.key) = some row := hget
  rw [claim, hvalid]
  dsimp only
  rw [immediate_fst, claimTransaction]
  simp only [hopen, hget, hscope, hhash, hgeneration, hcompleted, parseResponse, hresponse, hparse]
  by_cases hsame : row.fingerprint = input.fingerprint <;> simp [hsame, Except.map]

/-- What a claim replays is what the completed row of the same request holds. -/
theorem claim_replay {v : V} (h : (claim P o input now db).1 = .ok (.replay v)) : ∃ row text,
    db.claims.get (input.at P) = some row ∧ row.state = .completed ∧ row.fingerprint = input.fingerprint ∧
      row.response = some text ∧ P.parse text = some v := by
  rw [claim] at h
  split at h
  · cases h
  rw [immediate_fst, claimTransaction] at h
  have hreserve : ∀ db : Db, (reserve P o input now db).1 ≠ .ok (.replay v) := by
    intro db
    rw [reserve]
    split
    · rintro ⟨⟩
    · split <;> rintro ⟨⟩
  split at h
  · cases h
  split at h
  · exact absurd h (hreserve db)
  rename_i existing hget
  split at h
  · cases h
  split at h
  · cases h
  split at h
  · split at h
    · cases h
    split at h
    · cases h
    · exact absurd h (hreserve _)
  split at h
  · cases h
  rename_i hfingerprint
  split at h
  · cases h
  rw [parseResponse] at h
  split at h
  · rename_i text hstate hresponse
    split at h
    · rename_i value hparse
      cases h
      exact ⟨existing, text, hget, hstate, not_not.mp hfingerprint, hresponse, hparse⟩
    · cases h
  · cases h

/-- A row that an update of a claim in progress has rewritten. -/
structure Rewrites (P : Platform V) (input : BatchIdempotencyInput) (db : Db) (row new : ClaimRow)
    (after : ClaimTable) : Prop where
  stands : db.claims.get (input.at P) = some row
  generation : row.generation = db.generation
  fingerprint : row.fingerprint = input.fingerprint
  state : row.state = .inProgress
  key : new.key = row.key
  rows : ∃ l l', db.claims.rows = l ++ row :: l' ∧ after.rows = l ++ new :: l'

theorem Rewrites.get {row new : ClaimRow} {after : ClaimTable} (h : Rewrites P input db row new after)
    (k : String × String) :
    after.get k = if k = input.at P then some new else db.claims.get k := by
  obtain ⟨l, l', hbefore, hafter⟩ := h.rows
  have hkey : row.key = input.at P := Table.key_of_get h.stands
  split
  · rename_i hk
    rw [hk]
    refine Table.get_eq_some.mpr ⟨?_, h.key.trans hkey⟩
    rw [hafter]
    simp
  · rename_i hk
    refine Table.get_congr fun r hr => ?_
    have hold : r ≠ row := by
      rintro rfl
      exact hk (hr.symm.trans hkey)
    have hnew : r ≠ new := by
      rintro rfl
      exact hk (hr.symm.trans (h.key.trans hkey))
    rw [hafter, hbefore]
    simp [hold, hnew]

theorem rewrites_of_update {row : ClaimRow} {f : ClaimRow → ClaimRow} (hf : ∀ r, (f r).key = r.key)
    (hget : db.claims.get (input.at P) = some row) (hgeneration : row.generation = db.generation)
    (hfingerprint : row.fingerprint = input.fingerprint) (hstate : row.state = .inProgress) :
    (db.claims.updateWhere (inProgressWhere input.scope (P.digest input.key) input.fingerprint) f hf).2
      = 1 ∧
    Rewrites P input db row (f row) (db.claims.updateWhere
      (inProgressWhere input.scope (P.digest input.key) input.fingerprint) f hf).1 := by
  have hwhere : ∀ r, inProgressWhere input.scope (P.digest input.key) input.fingerprint r = true →
      r.key = input.at P := by
    intro r hr
    simp only [inProgressWhere, Bool.and_eq_true] at hr
    exact keyWhere_key hr.1.1
  have hold : inProgressWhere input.scope (P.digest input.key) input.fingerprint row = true := by
    simp [inProgressWhere, keyWhere_of_get hget, hfingerprint, hstate]
  obtain ⟨l, l', hrows, hafter, hchanges⟩ := Table.rows_updateWhere hf hwhere hget hold
  exact ⟨hchanges, hget, hgeneration, hfingerprint, hstate, hf row, l, l', hrows, hafter⟩

theorem complete_cases (P : Platform V) (o : Options) (input : BatchIdempotencyInput) (response : V)
    (now : ℤ) (db : Db) :
    (∃ e, complete P o input response now db = (.error e, db)) ∨
    (complete P o input response now db = (.ok (), db) ∧
      ∃ row, (db.claims.get (input.at P) = some row ∧ row.generation = db.generation ∧
        row.fingerprint = input.fingerprint ∧ row.state = .completed)) ∨
    ∃ text row claims, complete P o input response now db = (.ok (), { db with claims := claims }) ∧
      P.stringify response = some text ∧ text.utf8ByteSize ≤ o.maxBytes ∧
        Rewrites P input db row (setCompleted now text row) claims := by
  rw [complete]
  split
  · exact .inl ⟨_, rfl⟩
  split
  · exact .inl ⟨_, rfl⟩
  rename_i text hserialize
  have htext : P.stringify response = some text ∧ text.utf8ByteSize ≤ o.maxBytes := by
    rw [serialize] at hserialize
    split at hserialize
    · cases hserialize
    · rename_i hstringify
      split at hserialize
      · cases hserialize
      · rename_i hsize
        cases hserialize
        exact ⟨hstringify, Nat.not_lt.mp hsize⟩
  rcases immediate_cases (completeTransaction P input text now) db with ⟨e, he⟩ | ⟨a, after, hbody, hok⟩
  · exact .inl ⟨e, he⟩
  rw [hok]
  rw [completeTransaction] at hbody
  split at hbody
  · cases hbody
  split at hbody
  · cases hbody
  rename_i existing hget
  replace hget : db.claims.get (input.at P) = some existing := hget
  split at hbody
  · cases hbody
  split at hbody
  · cases hbody
  rename_i hgeneration
  split at hbody
  · cases hbody
  rename_i hfingerprint
  split at hbody
  · rename_i hcompleted
    cases hbody
    exact .inr (.inl ⟨rfl, existing, hget, not_not.mp hgeneration, not_not.mp hfingerprint, hcompleted⟩)
  split at hbody
  · cases hbody
  have hstate : existing.state = .inProgress := by
    cases hstate : existing.state <;> simp_all
  obtain ⟨hchanges, hrewrites⟩ := rewrites_of_update (setCompleted_key now text) hget
    (not_not.mp hgeneration) (not_not.mp hfingerprint) hstate
  rw [if_neg (not_not.mpr hchanges)] at hbody
  cases hbody
  exact .inr (.inr ⟨text, existing, _, rfl, htext.1, htext.2, hrewrites⟩)

theorem abandon_cases (P : Platform V) (input : BatchIdempotencyInput) (db : Db) :
    (∃ e, abandon P input db = (.error e, db)) ∨
    (abandon P input db = (.ok (), db) ∧ ∀ row, db.claims.get (input.at P) = some row →
      row.state = .released) ∨
    ∃ row claims, abandon P input db = (.ok (), { db with claims := claims }) ∧
      Rewrites P input db row (setReleased input.operation row) claims := by
  rw [abandon]
  split
  · exact .inl ⟨_, rfl⟩
  rcases immediate_cases (abandonTransaction P input) db with ⟨e, he⟩ | ⟨a, after, hbody, hok⟩
  · exact .inl ⟨e, he⟩
  rw [hok]
  rw [abandonTransaction] at hbody
  split at hbody
  · cases hbody
  split at hbody
  · rename_i hget
    replace hget : db.claims.get (input.at P) = none := hget
    cases hbody
    refine .inr (.inl ⟨rfl, fun row hrow => ?_⟩)
    rw [hget] at hrow
    cases hrow
  rename_i existing hget
  replace hget : db.claims.get (input.at P) = some existing := hget
  split at hbody
  · cases hbody
  rename_i hgeneration
  split at hbody
  · cases hbody
  rename_i hfingerprint
  split at hbody
  · rename_i hreleased
    split at hbody
    · cases hbody
    · cases hbody
      refine .inr (.inl ⟨rfl, fun row hrow => ?_⟩)
      rw [hget] at hrow
      cases hrow
      exact hreleased
  split at hbody
  · cases hbody
  rename_i hstate
  obtain ⟨hchanges, hrewrites⟩ := rewrites_of_update (setReleased_key input.operation) hget
    (not_not.mp hgeneration) (not_not.mp hfingerprint) (not_not.mp hstate)
  rw [if_neg (not_not.mpr hchanges)] at hbody
  cases hbody
  exact .inr (.inr ⟨existing, _, rfl, hrewrites⟩)

end Cases

end Remembra.Idempotency
