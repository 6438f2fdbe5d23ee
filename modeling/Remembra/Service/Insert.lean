import Remembra.Service.Reading

/-! What one `store` does, run alone by a caller without a tenant: an input that does not get through
    its checks changes nothing (`exec_store_refused`), and one that does is appended with the vector of
    its cleaned text, or with the one that was handed in. -/

namespace Remembra.Service
open Store (Memory JsNum StoreInput TenantFilter)
open Sqlite.Serial (Tables checks auditRow unusableInstant memoryDimensions)
open Sqlite (rowOf storeRecord embedToBlob)
open Prog

/-! ### One record -/

section Insert
variable {K : Sqlite.Serial.Config} {s t : Tables} {now : ℤ} {id : String} {input : StoreInput}

/-- What the backend asks of an input. -/
structure Storable (h : Store.Host) (input : StoreInput) : Prop where
  importance : 1 ≤ input.importance ∧ input.importance ≤ 5
  confidence : ∀ c ∈ input.confidence, 0 ≤ c ∧ c ≤ 1
  instants : Sqlite.usableInstants h input = true

theorem Storable.congr {h : Store.Host} {other : StoreInput} (hs : Storable h input)
    (hi : other.importance = input.importance) (hc : other.confidence = input.confidence)
    (hv : Sqlite.usableInstants h other = Sqlite.usableInstants h input) : Storable h other :=
  ⟨by rw [hi]; exact hs.importance, by rw [hc]; exact hs.confidence, hv.trans hs.instants⟩

/-- The schema's bounds are the columns' constraints. -/
theorem Storable.checks (h : Storable K.platform.host input) (embedding : Option (List JsNum)) :
    checks (rowOf K.platform (storeRecord K.platform now id input embedding none)) = true := by
  obtain ⟨⟨hlow, hhigh⟩, hconfidence, -⟩ := h
  have hbetween : 0 ≤ input.confidence.getD (Store.defaultConfidence
      (Store.newProvenance input.provenance).sourceType) ∧ input.confidence.getD
      (Store.defaultConfidence (Store.newProvenance input.provenance).sourceType) ≤ 1 := by
    cases hc : input.confidence with
    | some c => exact hconfidence c hc
    | none =>
      unfold Store.defaultConfidence
      dsimp only [Option.getD_none]
      split <;> norm_num
  simpa [Sqlite.Serial.checks, rowOf, storeRecord, Store.storeRecord, hlow, hhigh] using hbetween

theorem Storable.unusableInstant (h : Storable K.platform.host input) :
    unusableInstant K.platform.host input = none := by
  have hinstants := h.instants
  simp only [Sqlite.usableInstants, Bool.and_eq_true, Option.all_eq_true] at hinstants
  obtain ⟨⟨hfrom, huntil⟩, hobserved⟩ := hinstants
  have hfilter (v : Option String) (hv : ∀ x ∈ v, Store.isIsoInstant K.platform.host x = true) :
      v.filter (fun x => !Store.isIsoInstant K.platform.host x) = none := by
    rw [Option.filter_eq_none_iff]
    exact fun x hx => by simp [hv x hx]
  simp [Sqlite.Serial.unusableInstant, hfilter _ hfrom, hfilter _ huntil, hfilter _ hobserved]

theorem insertFts_of_new (hid : id ∉ s.fts) : Tables.insertFts K s id =
    some { s with fts := if K.ftsEnabled then id :: s.fts else s.fts } := by
  unfold Tables.insertFts
  split_ifs <;> rfl

/-- What the record adds to the audit does not depend on its vector. -/
def storeAudit (K : Sqlite.Serial.Config) (now : ℤ) (id : String) (input : StoreInput) :
    Sqlite.Serial.AuditRow :=
  auditRow K now .store id (some { type := some input.type, scope := some input.scope })
    (some (Store.newProvenance input.provenance)) none
    (some (memoryDimensions (storeRecord K.platform now id input none none)))

/-- The tables with a new record. -/
structure Appends (K : Sqlite.Serial.Config) (s t : Tables) (now : ℤ) (id : String)
    (input : StoreInput) (embedding : Option (List JsNum)) : Prop where
  rows : t.memories.rows =
    s.memories.rows ++ [rowOf K.platform (storeRecord K.platform now id input embedding none)]
  versions : t.versions = s.versions
  sequence : t.sequence = s.sequence
  fts : t.fts = if K.ftsEnabled then id :: s.fts else s.fts
  audit : t.audit = s.audit ++ [storeAudit K now id input]

/-- The vector of the new row is the only thing the two tables can differ in. -/
theorem Appends.unique {u : Tables} {embedding other : Option (List JsNum)}
    (ht : Appends K s t now id input embedding) (hu : Appends K s u now id input other) :
    t = u ↔ embedToBlob K.platform embedding = embedToBlob K.platform other := by
  obtain ⟨tm, tv, ts, ta, tf⟩ := t
  obtain ⟨um, uv, us, ua, uf⟩ := u
  obtain ⟨htrows, rfl, rfl, rfl, rfl⟩ := ht
  obtain ⟨hurows, rfl, rfl, rfl, rfl⟩ := hu
  constructor
  · intro h
    have hrows : tm.rows = um.rows := congrArg (fun x : Tables => x.memories.rows) h
    rw [htrows, hurows, List.append_right_inj, List.singleton_inj] at hrows
    exact congrArg Sqlite.Row.embedding hrows
  · intro h
    have hrow : rowOf K.platform (storeRecord K.platform now id input embedding none) =
        rowOf K.platform (storeRecord K.platform now id input other none) := by
      unfold rowOf
      congr 1
    have hmemories : tm = um := Table.ext_rows (by rw [htrows, hurows, hrow])
    rw [hmemories]

/-- A storable input with a new id is stored. -/
theorem store_fresh (h : Storable K.platform.host input) (hid : s.memories.get id = none)
    (hfts : id ∉ s.fts) (embedding : Option (List JsNum)) :
    ∃ t, Tables.store K s now id input embedding none =
        (.ok (storeRecord K.platform now id input embedding none), t) ∧
      Appends K s t now id input embedding := by
  obtain ⟨memories, hinsert, hrows⟩ := @Table.insert_of_free _ _ _ _ _
    (rowOf K.platform (storeRecord K.platform now id input embedding none)) hid
  have hchecks : checks (rowOf K.platform (storeRecord K.platform now id input embedding none)) =
      true := h.checks embedding
  have hindex : Tables.insertFts K { s with memories := memories }
      (storeRecord K.platform now id input embedding none).id =
      some { s with memories := memories, fts := if K.ftsEnabled then id :: s.fts else s.fts } :=
    insertFts_of_new hfts
  have hinserted : Tables.insertRow K s (storeRecord K.platform now id input embedding none) =
      (.ok (), { s with memories := memories, fts := if K.ftsEnabled then id :: s.fts else s.fts }) := by
    unfold Tables.insertRow
    simp only [hchecks, hinsert, hindex, Bool.not_true, Bool.false_eq_true, if_false]
  refine ⟨{ s with
    memories := memories
    fts := if K.ftsEnabled then id :: s.fts else s.fts
    audit := s.audit ++ [storeAudit K now id input] }, ?_, ⟨hrows, rfl, rfl, rfl, rfl⟩⟩
  unfold Tables.store
  rw [h.unusableInstant]
  simp only [hinserted]
  rfl

end Insert

/-! ### One single store -/

/-- The embedding function and the state of recovery answer the same whenever they are asked. -/
structure Deterministic (E : Environment) (embed : String → Except Thrown (List JsNum))
    (proceed : Except Thrown Unit) : Prop where
  embed : ∀ n text, E.embed n text = embed text
  proceed : ∀ n, E.mayProceed n true = proceed

/-- New ids are new: no row and no index entry has one, and no two are the same. -/
structure FreshIds (E : Environment) (w : World) : Prop where
  free : ∀ n, w.writes ≤ n → w.tables.memories.get (E.newId n) = none ∧ E.newId n ∉ w.tables.fts
  inj : Function.Injective E.newId

section Store
variable (C : Config) (E : Environment) (options : Options)

/-- The input as it is stored, if it gets through the checks. -/
def admitted (proceed : Except Thrown Unit) (item : StoreInput) : Except Thrown StoreInput :=
  ((checkedInput C item options).mapError .error).bind fun parsed =>
    proceed.bind fun _ => (cleanedInput C parsed).mapError .error

/-- The record of a cleaned input, and the reply. -/
def writeRecord (cleaned : StoreInput) (vector : Option (List JsNum)) : Act Stored := do
  let memory ← Act.store cleaned vector none
  pure ⟨memory.id, storedMessage memory, memory⟩

/-- The end of a store: the vector and the record. -/
def storeCleaned (cleaned : StoreInput) (embeddingOverride : Option (Option (List JsNum))) :
    Act Stored :=
  vectorOf C cleaned.content embeddingOverride >>= writeRecord cleaned

variable {C E options} {embed : String → Except Thrown (List JsNum)} {proceed : Except Thrown Unit}

theorem exec_freshTenantFilter (hstrict : C.strict = false) (htenant : options.tenant = none)
    (hd : Deterministic E embed proceed) (w : World) :
    (freshTenantFilter C options .write none).exec (handle C E) w =
      (proceed.map fun _ => none, w.tick) := by
  unfold freshTenantFilter
  rw [exec_bind]
  change continued _ _ (.ok (E.mayProceed w.asked true), w.tick) = _
  rw [hd.proceed, continued_ok, exec_bind, exec_ofExcept]
  cases proceed with
  | error e => rfl
  | ok u =>
    rw [continued_ok, hstrict, tenantFilter_legacy options htenant, htenant]
    rfl

/-- An input that fails the first checks asks nothing. -/
theorem exec_store_refused {item : StoreInput} {e : RemembraError}
    (h : checkedInput C item options = .error e) (override : Option (Option (List JsNum)))
    (w : World) : (store C item options override).exec (handle C E) w = (.error (.error e), w) := by
  unfold store
  rw [exec_bind, exec_ofRefusal, h]
  rfl

/-- A store in legacy mode that gets through the first checks. -/
theorem exec_store_checked (hstrict : C.strict = false) (htenant : options.tenant = none)
    (hd : Deterministic E embed proceed) {item parsed : StoreInput}
    (h : checkedInput C item options = .ok parsed) (override : Option (Option (List JsNum)))
    (w : World) : (store C item options override).exec (handle C E) w =
      continued (handle C E) (storeCleaned C · override)
        (admitted C options proceed item, w.tick) := by
  unfold store
  rw [exec_bind, exec_ofRefusal, h]
  change continued _ _ (.ok parsed, w) = _
  rw [continued_ok, exec_bind, exec_freshTenantFilter hstrict htenant hd]
  have hadmitted : admitted C options proceed item =
      proceed.bind fun _ => (cleanedInput C parsed).mapError .error := by
    rw [admitted, h]
    rfl
  rw [hadmitted]
  cases proceed with
  | error e => rfl
  | ok u =>
    -- Without a tenant the checks on tenants ask nothing.
    change exec (handle C E) (Act.ofRefusal (cleanedInput C parsed) >>= fun cleaned =>
      storeCleaned C cleaned override) w.tick = _
    rw [exec_bind, exec_ofRefusal]
    rfl

/-- Behind the gate the text goes out, and a failure of the provider is no vector. -/
theorem exec_maybeEmbed (hon : C.embeddings = true) (hd : Deterministic E embed proceed)
    {w : World} (hpermits : w.permits E .internal = true) (text : String) :
    (maybeEmbed C text).exec (handle C E) w = (orNone (embed text), w.transmit [text]) := by
  unfold maybeEmbed
  rw [if_pos hon, exec_bind]
  have hasked : (Act.ask (.embed (some .internal) text)).exec (handle C E) w =
      (.ok (embed text), w.transmit [text]) := by
    change (Except.ok (handle C E (.embed (some .internal) text) w).1, _) = _
    simp only [handle, refusal_eq_none.mpr hpermits, hd.embed]
  rw [hasked, continued_ok, exec_ofExcept]

/-- The gate refuses before anything is sent. -/
theorem exec_maybeEmbed_denied (hon : C.embeddings = true) {w : World}
    (hdenied : w.permits E .internal = false) (text : String) :
    ∃ e, (maybeEmbed C text).exec (handle C E) w = (.error e, w.tick) := by
  obtain ⟨message, hrefusal⟩ := refusal_of_denied hdenied
  refine ⟨.error ⟨.tenantRequired, message⟩, ?_⟩
  unfold maybeEmbed
  rw [if_pos hon, exec_bind]
  have hasked : (Act.ask (.embed (some .internal) text)).exec (handle C E) w =
      (.ok (.error (.error ⟨.tenantRequired, message⟩)), w.tick) := by
    change (Except.ok (handle C E (.embed (some .internal) text) w).1, _) = _
    simp only [handle, hrefusal]
  rw [hasked, continued_ok, exec_ofExcept]
  rfl

/-! ### What the checks leave of an input -/

theorem storable_canonical {input parsed : StoreInput}
    (h : canonicalizeAgentInput C input options = .ok parsed) (hs : Storable C.host input) :
    Storable C.host parsed := by
  unfold canonicalizeAgentInput at h
  dsimp only at h
  split at h
  · cases h
    exact hs.congr rfl rfl rfl
  split at h
  · split at h
    · cases h
    · cases h
      exact hs.congr rfl rfl rfl
  · split at h
    · cases h
    · cases h
      exact hs.congr rfl rfl rfl

theorem storable_checked {item parsed : StoreInput}
    (h : checkedInput C item options = .ok parsed) : Storable C.host parsed := by
  unfold checkedInput at h
  split at h
  · cases h
  · rename_i haccepts
    have hitem : item.Accepted C.host := acceptsInput_iff.mp (by simpa using haccepts)
    have hs : Storable C.host item := ⟨hitem.importance, hitem.confidence, by
      simp only [Sqlite.usableInstants, Bool.and_eq_true, Option.all_eq_true]
      exact ⟨⟨hitem.validFrom, hitem.validUntil⟩, hitem.observedAt⟩⟩
    cases hcanonical : canonicalizeAgentInput C item options with
    | error e =>
      rw [hcanonical] at h
      cases h
    | ok canonical =>
      rw [hcanonical] at h
      cases hwrite : assertAgentWrite C canonical options with
      | error e => simp [Except.bind, hwrite, Except.map] at h
      | ok u =>
        simp only [Except.bind, hwrite, Except.map, Except.ok.injEq] at h
        exact h ▸ storable_canonical hcanonical hs

theorem storable_cleaned {parsed cleaned : StoreInput} (h : cleanedInput C parsed = .ok cleaned)
    (hs : Storable C.host parsed) : Storable C.host cleaned := by
  unfold cleanedInput applyInputPolicy at h
  have hredacted : Storable C.host (if C.redactOn then applyRedaction C parsed else parsed) := by
    split
    · unfold applyRedaction
      split
      · exact hs
      · exact hs.congr rfl rfl rfl
    · exact hs
  generalize (if C.redactOn then applyRedaction C parsed else parsed) = redacted at h hredacted
  cases hpolicy : applySensitivePolicy C
      ⟨redacted.content, redacted.trust, redacted.metaFields⟩ with
  | error e => simp [hpolicy, Except.map] at h
  | ok held =>
    simp only [hpolicy, Except.map, Except.ok.injEq] at h
    rw [← h]
    unfold flagInjection
    split <;> exact hredacted.congr rfl rfl rfl

theorem storable_admitted {item cleaned : StoreInput}
    (h : admitted C options proceed item = .ok cleaned) : Storable C.host cleaned := by
  unfold admitted at h
  cases hchecked : checkedInput C item options with
  | error e => simp [hchecked, Except.mapError, Except.bind] at h
  | ok parsed =>
    cases proceed with
    | error e => simp [hchecked, Except.mapError, Except.bind] at h
    | ok u =>
      cases hcleaned : cleanedInput C parsed with
      | error e => simp [hchecked, hcleaned, Except.mapError, Except.bind] at h
      | ok result =>
        simp only [hchecked, hcleaned, Except.mapError, Except.bind, Except.ok.injEq] at h
        exact h ▸ storable_cleaned hcleaned (storable_checked hchecked)

/-! ### What a store does to the world -/

/-- The worlds differ at most in how much was asked and sent. -/
structure SameCore (w w' : World) : Prop where
  tables : w'.tables = w.tables
  writes : w'.writes = w.writes
  manifest : w'.manifest = w.manifest

/-- The reply to a stored input. -/
def storedReply (C : Config) (E : Environment) (w : World) (cleaned : StoreInput)
    (vector : Option (List JsNum)) : Stored :=
  let m := storeRecord C.backend.platform (E.writeClock w.writes) (E.newId w.writes) cleaned vector
    none
  ⟨m.id, storedMessage m, m⟩

/-- The input has been stored with the vector. -/
structure Stores (C : Config) (E : Environment) (w : World) (r : Except Thrown Stored × World)
    (cleaned : StoreInput) (vector : Option (List JsNum)) : Prop where
  result : r.1 = .ok (storedReply C E w cleaned vector)
  appends : Appends C.backend w.tables r.2.tables (E.writeClock w.writes) (E.newId w.writes) cleaned
    vector
  writes : r.2.writes = w.writes + 1
  manifest : r.2.manifest = w.manifest

/-- The texts that have been sent. -/
def sentTexts (w : World) : List String := w.sent.flatMap (·.texts)

theorem exec_writeRecord {w : World} {cleaned : StoreInput} (hs : Storable C.host cleaned)
    (hfresh : FreshIds E w) (vector : Option (List JsNum)) :
    Stores C E w ((writeRecord cleaned vector).exec (handle C E) w) cleaned vector ∧
      ((writeRecord cleaned vector).exec (handle C E) w).2.sent = w.sent := by
  obtain ⟨hid, hfts⟩ := hfresh.free w.writes le_rfl
  obtain ⟨t, hstore, happends⟩ := @store_fresh C.backend w.tables (E.writeClock w.writes)
    (E.newId w.writes) cleaned hs hid hfts vector
  have hexec : (writeRecord cleaned vector).exec (handle C E) w =
      (.ok (storedReply C E w cleaned vector), w.written t) := by
    have hasked : (Act.store cleaned vector none).exec (handle C E) w = (.ok (storeRecord
        C.backend.platform (E.writeClock w.writes) (E.newId w.writes) cleaned vector none),
        w.written t) := by
      unfold Act.store
      rw [exec_bind]
      change continued _ _ (.ok (handle C E (.store cleaned vector none) w).1, _) = _
      simp only [handle, hstore, continued_ok]
      rfl
    unfold writeRecord
    rw [exec_bind, hasked]
    rfl
  rw [hexec]
  exact ⟨⟨rfl, happends, rfl, rfl⟩, rfl⟩

/-- Nothing has changed, and nothing more was sent than `texts`. -/
structure Unchanged (w : World) (r : Except Thrown Stored × World) (texts : List String) : Prop where
  result : ∃ e, r.1 = .error e
  core : SameCore w r.2
  sent : sentTexts r.2 = sentTexts w ++ texts

theorem FreshIds.congr {w w' : World} (h : FreshIds E w) (hcore : SameCore w w') :
    FreshIds E w' := by
  refine ⟨fun n hn => ?_, h.inj⟩
  rw [hcore.tables]
  exact h.free n (hcore.writes ▸ hn)

/-- The ids that were free are free, but for the one that has been used. -/
theorem Stores.fresh {w : World} {r : Except Thrown Stored × World} {cleaned : StoreInput}
    {vector : Option (List JsNum)} (h : Stores C E w r cleaned vector) (hfresh : FreshIds E w) :
    FreshIds E r.2 := by
  refine ⟨fun n hn => ?_, hfresh.inj⟩
  rw [h.writes] at hn
  obtain ⟨hid, hfts⟩ := hfresh.free n (by omega)
  have hne : E.newId w.writes ≠ E.newId n := fun heq => by
    have := hfresh.inj heq
    omega
  constructor
  · unfold Table.get at hid ⊢
    rw [h.appends.rows, List.find?_append, hid]
    simpa [rowOf, storeRecord, Store.storeRecord] using hne
  · rw [h.appends.fts]
    split
    · simpa using ⟨hne.symm, hfts⟩
    · exact hfts

section Outcome
variable {item cleaned : StoreInput} {w : World} (hstrict : C.strict = false)
  (htenant : options.tenant = none) (hd : Deterministic E embed proceed)
include hstrict htenant hd

/-- An input that is not admitted fails with what it is refused for. -/
theorem store_unadmitted {e : Thrown} (h : admitted C options proceed item = .error e)
    (override : Option (Option (List JsNum))) :
    ((store C item options override).exec (handle C E) w).1 = .error e ∧
      Unchanged w ((store C item options override).exec (handle C E) w) [] := by
  cases hchecked : checkedInput C item options with
  | error refusal =>
    have hrefusal : (.error refusal : Thrown) = e := by
      simpa [admitted, hchecked, Except.mapError, Except.bind] using h
    rw [exec_store_refused hchecked override w, hrefusal]
    exact ⟨rfl, ⟨_, rfl⟩, ⟨rfl, rfl, rfl⟩, (List.append_nil _).symm⟩
  | ok parsed =>
    rw [exec_store_checked hstrict htenant hd hchecked override w, h]
    exact ⟨rfl, ⟨_, rfl⟩, ⟨rfl, rfl, rfl⟩, (List.append_nil _).symm⟩

/-- An input that is admitted comes to its vector. -/
theorem exec_store_admitted (h : admitted C options proceed item = .ok cleaned)
    (override : Option (Option (List JsNum))) :
    (store C item options override).exec (handle C E) w =
      (storeCleaned C cleaned override).exec (handle C E) w.tick := by
  cases hchecked : checkedInput C item options with
  | error refusal => simp [admitted, hchecked, Except.mapError, Except.bind] at h
  | ok parsed =>
    rw [exec_store_checked hstrict htenant hd hchecked override w, h]
    rfl

/-- A vector that is handed in is stored, and nothing is sent. -/
theorem store_override (h : admitted C options proceed item = .ok cleaned) (hfresh : FreshIds E w)
    (vector : Option (List JsNum)) :
    Stores C E w ((store C item options (some vector)).exec (handle C E) w) cleaned vector ∧
      sentTexts ((store C item options (some vector)).exec (handle C E) w).2 = sentTexts w := by
  rw [exec_store_admitted hstrict htenant hd h]
  have hnow : FreshIds E w.tick := hfresh.congr ⟨rfl, rfl, rfl⟩
  obtain ⟨hstores, hsent⟩ := exec_writeRecord (storable_admitted h) hnow vector
  refine ⟨⟨hstores.result, hstores.appends, hstores.writes, hstores.manifest⟩, ?_⟩
  unfold sentTexts
  exact congrArg (List.flatMap Transmission.texts) hsent

/-- Without a permit the store of an admitted input fails before anything is sent. -/
theorem store_denied (hon : C.embeddings = true)
    (h : admitted C options proceed item = .ok cleaned) (hdenied : w.permits E .internal = false) :
    Unchanged w ((store C item options none).exec (handle C E) w) [] := by
  rw [exec_store_admitted hstrict htenant hd h]
  obtain ⟨e, hexec⟩ := exec_maybeEmbed_denied (w := w.tick) hon hdenied cleaned.content
  change Unchanged w ((maybeEmbed C cleaned.content >>= writeRecord cleaned).exec (handle C E)
    w.tick) []
  rw [exec_bind, hexec]
  exact ⟨⟨e, rfl⟩, ⟨rfl, rfl, rfl⟩, (List.append_nil _).symm⟩

/-- With a permit the cleaned text goes out; what `embed` throws on fails the store. -/
theorem store_thrown (hon : C.embeddings = true)
    (h : admitted C options proceed item = .ok cleaned) (hpermits : w.permits E .internal = true)
    {e : Thrown} (hembed : orNone (embed cleaned.content) = .error e) :
    Unchanged w ((store C item options none).exec (handle C E) w) [cleaned.content] := by
  rw [exec_store_admitted hstrict htenant hd h]
  have hexec := exec_maybeEmbed (w := w.tick) hon hd hpermits cleaned.content
  change Unchanged w ((maybeEmbed C cleaned.content >>= writeRecord cleaned).exec (handle C E)
    w.tick) [cleaned.content]
  rw [exec_bind, hexec, hembed]
  exact ⟨⟨e, rfl⟩, ⟨rfl, rfl, rfl⟩, by simp [sentTexts, World.transmit, World.tick]⟩

/-- With a permit the cleaned text goes out and its vector is stored. -/
theorem store_embedded (hon : C.embeddings = true)
    (h : admitted C options proceed item = .ok cleaned) (hpermits : w.permits E .internal = true)
    (hfresh : FreshIds E w) {vector : Option (List JsNum)}
    (hembed : orNone (embed cleaned.content) = .ok vector) :
    Stores C E w ((store C item options none).exec (handle C E) w) cleaned vector ∧
      sentTexts ((store C item options none).exec (handle C E) w).2 =
        sentTexts w ++ [cleaned.content] := by
  rw [exec_store_admitted hstrict htenant hd h]
  have hexec := exec_maybeEmbed (w := w.tick) hon hd hpermits cleaned.content
  change Stores C E w ((maybeEmbed C cleaned.content >>= writeRecord cleaned).exec (handle C E)
    w.tick) cleaned vector ∧ sentTexts ((maybeEmbed C cleaned.content >>= writeRecord cleaned).exec
      (handle C E) w.tick).2 = _
  rw [exec_bind, hexec, hembed, continued_ok]
  have hnow : FreshIds E (w.tick.transmit [cleaned.content]) := hfresh.congr ⟨rfl, rfl, rfl⟩
  obtain ⟨hstores, hsent⟩ := exec_writeRecord (storable_admitted h) hnow vector
  refine ⟨⟨hstores.result, hstores.appends, hstores.writes, hstores.manifest⟩, ?_⟩
  unfold sentTexts
  rw [hsent]
  simp [World.transmit, World.tick]

end Outcome

end Store

/-! ### A store that succeeds -/

theorem tables_store_of_exec {C : Config} {E : Environment} {input : StoreInput}
    {vector : Option (List JsNum)} {tenant : Option TenantFilter} {m : Memory} {w w' : World}
    (h : (Act.store input vector tenant).exec (handle C E) w = (.ok m, w')) :
    Tables.store C.backend w.tables (E.writeClock w.writes) (E.newId w.writes) input vector tenant =
      (.ok m, w'.tables) := by
  obtain ⟨answer, u, hasked, hanswer⟩ := (exec_bind_eq_ok _).mp h
  rw [exec_ofExcept, Prod.mk.injEq] at hanswer
  obtain ⟨rfl, rfl⟩ := hanswer
  rcases hstore : Tables.store C.backend w.tables (E.writeClock w.writes) (E.newId w.writes) input
    vector tenant with ⟨r, t⟩
  have hworld : handle C E (.store input vector tenant) w =
      (r.mapError ofFailure, w.written t) := by
    simp only [handle, hstore]
  unfold Act.ask at hasked
  rw [exec_request, hworld] at hasked
  rw [Prod.mk.injEq] at hasked
  obtain ⟨hanswered, hafter⟩ := hasked
  have hr : r.mapError ofFailure = .ok m := Except.ok.inj hanswered
  cases r with
  | error e => cases hr
  | ok memory =>
    cases hr
    exact congrArg (fun u : World => (Except.ok m, u.tables)) hafter

/-- Whatever its caller, a store that succeeds has inserted the row of the cleaned input. -/
theorem store_inserts {C : Config} {E : Environment} {options : Options} {input : StoreInput}
    {override : Option (Option (List JsNum))} {w w' : World} {stored : Stored}
    (h : (store C input options override).exec (handle C E) w = (.ok stored, w')) :
    ∃ parsed cleaned tenant vector now id, checkedInput C input options = .ok parsed ∧
      cleanedInput C parsed = .ok cleaned ∧
      tenantFilter C.strict options .write none = .ok tenant ∧
      stored.memory = storeRecord C.backend.platform now id cleaned vector tenant ∧
      w.tables.memories.insert (rowOf C.backend.platform stored.memory) = some w'.tables.memories := by
  unfold store at h
  obtain ⟨parsed, w₁, hparsed, h⟩ := (exec_bind_eq_ok _).mp h
  obtain ⟨hchecked, hw⟩ := exec_ofRefusal_eq_ok.mp hparsed
  obtain ⟨tenant, w₂, htenant, h⟩ := (exec_bind_eq_ok _).mp h
  obtain ⟨u, w₃, hmay, h⟩ := (exec_bind_eq_ok _).mp h
  obtain ⟨-, hw₃⟩ := exec_ofRefusal_eq_ok.mp hmay
  obtain ⟨v, w₄, hreferences, h⟩ := (exec_bind_eq_ok _).mp h
  obtain ⟨cleaned, w₅, hpolicy, h⟩ := (exec_bind_eq_ok _).mp h
  obtain ⟨hcleaned, hw₅⟩ := exec_ofRefusal_eq_ok.mp hpolicy
  obtain ⟨vector, w₆, hvector, h⟩ := (exec_bind_eq_ok _).mp h
  obtain ⟨memory, w₇, hmemory, h⟩ := (exec_bind_eq_ok _).mp h
  obtain ⟨x, w₈, hensure, h⟩ := (exec_bind_eq_ok _).mp h
  cases h
  -- Up to the record the call only reads.
  have hread (q : Ask) (hq : q.Reads) (_ : q.Checked) : q.Reads := hq
  have hreads : (vectorOf C cleaned.content override).Only Ask.Reads := by
    cases override with
    | none => exact only_maybeEmbed C hread _
    | some vector => trivial
  have htables₂ := tables_of_exec (only_freshTenantFilter C hread _ _ _) htenant
  have htables₄ := tables_of_exec (only_assertTenantReferences C hread _ _ _) hreferences
  have htables₆ := tables_of_exec hreads hvector
  have htables₈ := tables_of_exec (only_ensure _ _ _) hensure
  obtain ⟨hrecord, hinsert, -⟩ := Tables.store_ok (tables_store_of_exec hmemory)
  have hsame : w₆.tables = w.tables := by
    rw [htables₆, ← hw₅, htables₄, ← hw₃, htables₂, hw]
  refine ⟨parsed, cleaned, tenant, vector, _, _, hchecked, hcleaned, tenantFilter_of_exec htenant,
    hrecord, ?_⟩
  rw [← hsame, htables₈, hrecord]
  exact hinsert

end Remembra.Service
