import Mathlib
import Remembra.Snapshot.Text

/-! Signed snapshots. What is signed is the canonical text of the snapshot as its schema reads it; what is
    verified is the text of what has come back through JSON, read by the same schema. The two are one
    text exactly when the schema has read no property without a value (`verify_roundTrip`). -/

namespace Remembra.Snapshot
open Js
open Store (Yaml JsNum Host Vocabulary MemoryType TrustLevel RetentionMode RelationKind SourceType MemoryOwner
  MemoryAccess isSafeScope isIsoInstant)
open Service (isMemoryId isTenantIdText snapshotFormat)
open TenantMigration (Platform fromBase64url canonicalJson SameJson isJson WritesNumbers canonicalJson_eq_iff)

/-! ### The schemas -/

abbrev JsSchema := Js.Schema JsNum

def required (key : String) (schema : JsSchema) : String × Bool × JsSchema := (key, false, schema)

def optional (key : String) (schema : JsSchema) : String × Bool × JsSchema := (key, true, schema)

/-- `z.string()` -/
def anyString : JsSchema := .string fun _ => true

/-- `z.literal(text)` -/
def literal (text : String) : JsSchema := .string fun s => s = text

/-- `z.enum(options)` -/
def enum (ε : Type) [Vocabulary ε] : JsSchema := .string fun s => (Vocabulary.ofText (ε := ε) s).isSome

/-- `z.number().int()` within bounds. -/
def integer (low : ℤ) (high : Option ℤ) : JsSchema := .number fun
  | .finite q => q.den = 1 && low ≤ q.num && high.all (q.num ≤ ·)
  | _ => false

/-- `z.number()` -/
def number : JsSchema := .number fun n => n ≠ .nan

/-- `z.number().min(0).max(1)` -/
def fraction : JsSchema := .number fun
  | .finite q => 0 ≤ q && q ≤ 1
  | _ => false

/-- The characters of base64url. -/
def isBase64url (s : String) : Bool :=
  s.toList.length = 43 && s.toList.all fun c => c.isAlphanum || c = '_' || c = '-'

def integrityFields : List (String × Bool × JsSchema) :=
  [required "algorithm" (literal "HMAC-SHA256"), required "value" (.string isBase64url)]

/-- `integritySchema` -/
def integritySchema : JsSchema := .object true integrityFields

/-- `ProvenanceSchema` -/
def provenanceSchema : JsSchema := .object false
  [required "sourceType" (enum SourceType), optional "sessionId" anyString, optional "messageId" anyString,
    optional "agentId" anyString, optional "agentType" anyString, optional "agentVersion" anyString,
    optional "conversationId" anyString, optional "taskId" anyString, optional "runId" anyString,
    optional "provider" anyString]

def metaFields : List (String × Bool × JsSchema) :=
  [optional "injected" .boolean, optional "quarantined" .boolean, optional "contradicted" .boolean,
    optional "compressedFrom" (.array none anyString), optional "compressionAt" anyString]

def metaSchema : JsSchema := .object false metaFields

/-- `IsoInstant` -/
def isoInstant (h : Host) : JsSchema := .string (isIsoInstant h)

/-- The properties of a memory in a snapshot. -/
def memoryFields (h : Host) : List (String × Bool × JsSchema) :=
  [required "id" (.string isMemoryId), required "type" (enum MemoryType),
    required "content" (.string fun s => s ≠ ""), required "scope" (.string isSafeScope),
    required "tags" (.array none anyString), required "importance" (integer 1 (some 5)),
    required "createdAt" anyString, required "updatedAt" anyString, optional "source" anyString,
    optional "lastSeen" anyString, optional "lastValidated" anyString, optional "archivedAt" anyString,
    optional "provenance" (.either provenanceSchema (.string fun s => s = "explicit" || s = "auto")),
    optional "confidence" fraction, optional "trust" (enum TrustLevel), optional "retention" (enum RetentionMode),
    optional "owner" (enum MemoryOwner), optional "access" (enum MemoryAccess),
    optional "tenantId" (.string isTenantIdText), optional "projectId" (.string isTenantIdText),
    optional "userId" (.string isTenantIdText), optional "agentId" (.string isTenantIdText),
    optional "meta" metaSchema, optional "validFrom" (isoInstant h), optional "validUntil" (isoInstant h),
    optional "observedAt" (isoInstant h), optional "supersededBy" anyString,
    optional "version" (integer 1 none),
    optional "relations" (.array none (.object false
      [required "id" (.string isMemoryId), required "kind" (enum RelationKind)])),
    optional "related" (.array none anyString),
    optional "embedding" (.array none number)]

def memorySchema (h : Host) : JsSchema := .object false (memoryFields h)

/-- `SnapshotInput`, with the bound on the version among the checks of it. -/
def snapshotInput (h : Host) : JsSchema := .object false
  [required "format" (literal snapshotFormat), required "version" (integer 1 (some 4)),
    required "exportedAt" anyString, optional "integrity" (.object false integrityFields),
    required "memories" (.array (some 100000) (memorySchema h))]

theorem apart_metaSchema : metaSchema.apart = true := by decide +kernel

theorem apart_memorySchema (h : Host) : (memorySchema h).apart = true := by
  simp [memorySchema, memoryFields, required, optional, enum, integer, number, fraction, isoInstant,
    anyString, Schema.apart, fieldsApart, apart_metaSchema, Schema.kinds, provenanceSchema]

/-- The schemas name no property twice, and the union in them is one of a text and an object. -/
theorem apart_snapshotInput (h : Host) : (snapshotInput h).apart = true := by
  simp [snapshotInput, integrityFields, required, optional, literal, integer, anyString, Schema.apart,
    fieldsApart, apart_memorySchema]

/-! ### Signing and verifying -/

def invalid (message : String) : RemembraError := ⟨.snapshotInvalid, "snapshot integrity: " ++ message⟩

section Signing
variable (P : Platform) (h : Host)

/-- The text of a signature. -/
def hmacText (body : JsValue) (key : List UInt8) : String := P.hmac key (canonical P body)

def signature (value : String) : JsValue :=
  .object [("algorithm", .str "HMAC-SHA256"), ("value", .str value)]

def sign (body : JsValue) (key : List UInt8) : Except RemembraError JsValue :=
  if key.length = 0 then .error (invalid "HMAC key is empty") else .ok (signature (hmacText P body key))

/-- The properties of an object. -/
def properties : JsValue → List (String × JsValue)
  | .object fields => fields
  | _ => []

/-- A value that counts as true in a condition, among those that `integrity` may have. -/
def isGiven (value : Option JsValue) : Bool := value.any fun v => !v.isUndefined

def createSignedSnapshot (value : JsValue) (key : List UInt8) : Except RemembraError JsValue :=
  match parse (snapshotInput h) value with
  | none => .error (invalid "invalid snapshot body")
  | some body =>
    if isGiven ((properties body).lookup "integrity") then .error (invalid "snapshot is already signed")
    else (sign P body key).map fun integrity => .object (put "integrity" integrity (properties body))

/-- The text under `value` in a signature. -/
def valueOf (integrity : JsValue) : String :=
  match (properties integrity).lookup "value" with
  | some (.str s) => s
  | _ => ""

/-- Of a value that is an object, or an array, which has no property `integrity`. -/
def verifyObject (raw : List (String × JsValue)) (key : List UInt8) : Except RemembraError JsValue :=
  match (raw.lookup "integrity").bind (parse integritySchema) with
  | none => .error (invalid "signature is missing or malformed")
  | some integrity =>
    match parse (snapshotInput h) (.object (without "integrity" raw)) with
    | none => .error (invalid "invalid snapshot body")
    | some body =>
      (sign P body key).bind fun expected =>
        if fromBase64url (valueOf integrity) ≠ fromBase64url (valueOf expected) then
          .error (invalid "signature verification failed")
        else .ok (.object (put "integrity" integrity (properties body)))

def verifySignedSnapshot (value : JsValue) (key : List UInt8) : Except RemembraError JsValue :=
  match value with
  | .object raw => verifyObject P h raw key
  | .array _ => verifyObject P h [] key
  | _ => .error (invalid "snapshot must be an object")

end Signing

/-- What is known of `createHmac`: the form of its result, and that no two of the texts have one digest. -/
structure Distinguishes (P : Platform) (key : List UInt8) (texts : Set String) : Prop where
  form : ∀ text, isBase64url (P.hmac key text) = true
  free : Set.InjOn (fun text => fromBase64url (P.hmac key text)) texts

/-- The body of a snapshot: all but the signature. -/
def bodyOf (snapshot : JsValue) : JsValue := .object (without "integrity" (properties snapshot))

section Theorems
variable {P : Platform} {h : Host} {key : List UInt8} {value signed body : JsValue}

theorem parse_signature {text : String} (ht : isBase64url text = true) :
    parse integritySchema (signature text) = some (signature text) := by
  simp [integritySchema, integrityFields, required, literal, signature, parse, parseFields, List.lookup, ht,
    Value.isUndefined]

/-- What is read of a snapshot is an object. -/
theorem parse_object (hparse : parse (snapshotInput h) value = some body) :
    ∃ fields, body = .object fields := by
  obtain ⟨kind, hmem, -, hkind⟩ := kind_of_parse hparse
  rw [snapshotInput, Schema.kinds, List.mem_singleton] at hmem
  subst hmem
  cases body with
  | object fields => exact ⟨fields, rfl⟩
  | _ => cases hkind

/-- What is signed, and what comes of it. -/
theorem createSignedSnapshot_eq_ok : createSignedSnapshot P h value key = .ok signed ↔
    ∃ fields, parse (snapshotInput h) value = some (.object fields) ∧ key.length ≠ 0 ∧
      isGiven (fields.lookup "integrity") = false ∧
        signed = .object (put "integrity" (signature (hmacText P (.object fields) key)) fields) := by
  rw [createSignedSnapshot]
  cases hparse : parse (snapshotInput h) value with
  | none => simp
  | some body =>
    obtain ⟨fields, rfl⟩ := parse_object hparse
    change (if isGiven (fields.lookup "integrity") = true then _ else _) = _ ↔ _
    cases hgiven : isGiven (fields.lookup "integrity") with
    | true => simp [hgiven]
    | false =>
      rw [if_neg Bool.false_ne_true, sign]
      by_cases hkey : key.length = 0
      · simp [hkey, Except.map]
      · rw [if_neg hkey]
        constructor
        · intro hok
          cases hok
          exact ⟨fields, rfl, hkey, hgiven, rfl⟩
        · rintro ⟨_, hfields, -, -, rfl⟩
          cases hfields
          rfl

/-- What is verified, and what comes of it. -/
theorem verifySignedSnapshot_eq_ok : verifySignedSnapshot P h value key = .ok signed ↔
    ∃ raw integrity fields, value = .object raw ∧
      (raw.lookup "integrity").bind (parse integritySchema) = some integrity ∧
      parse (snapshotInput h) (.object (without "integrity" raw)) = some (.object fields) ∧
      key.length ≠ 0 ∧
      fromBase64url (valueOf integrity) = fromBase64url (hmacText P (.object fields) key) ∧
      signed = .object (put "integrity" integrity fields) := by
  cases value with
  | object raw =>
    rw [verifySignedSnapshot, verifyObject]
    cases hintegrity : (raw.lookup "integrity").bind (parse integritySchema) with
    | none => simp [hintegrity]
    | some integrity =>
      cases hparse : parse (snapshotInput h) (.object (without "integrity" raw)) with
      | none => simp [hparse]
      | some body =>
        obtain ⟨fields, rfl⟩ := parse_object hparse
        dsimp only
        rw [sign]
        by_cases hkey : key.length = 0
        · simp [hkey, Except.bind]
        · rw [if_neg hkey]
          change (if fromBase64url (valueOf integrity) ≠ fromBase64url (hmacText P (.object fields) key)
            then _ else _) = _ ↔ _
          by_cases hbytes : fromBase64url (valueOf integrity) = fromBase64url (hmacText P (.object fields) key)
          · rw [if_neg (not_not_intro hbytes)]
            constructor
            · intro hok
              cases hok
              exact ⟨raw, integrity, fields, rfl, hintegrity, hparse, hkey, hbytes, rfl⟩
            · rintro ⟨_, _, _, hraw, hintegrity', hparse', -, -, rfl⟩
              cases hraw
              cases hintegrity.symm.trans hintegrity'
              cases hparse.symm.trans hparse'
              rfl
          · rw [if_pos hbytes]
            simp only [reduceCtorEq, false_iff]
            rintro ⟨_, _, _, hraw, hintegrity', hparse', -, hbytes', -⟩
            cases hraw
            cases hintegrity.symm.trans hintegrity'
            cases hparse.symm.trans hparse'
            exact hbytes hbytes'
  | array items =>
    refine iff_of_false (fun hok => ?_) (by rintro ⟨_, _, _, ⟨⟩, -⟩)
    cases hok
  | _ => exact iff_of_false (fun hok => by cases hok) (by rintro ⟨_, _, _, ⟨⟩, -⟩)

/-- A signed snapshot that has been written as JSON and read again: it is refused unless the numbers in
    what the schema has read are finite and no property of it is without a value. -/
theorem verify_roundTrip {texts : Set String} {fields : List (String × JsValue)}
    (hP : Distinguishes P key texts) (hparse : parse (snapshotInput h) value = some (.object fields))
    (hkey : key.length ≠ 0) (hgiven : isGiven (fields.lookup "integrity") = false)
    (htext : canonical P (.object fields) ∈ texts) (hleft : canonical P (roundTrip (.object fields)) ∈ texts) :
    verifySignedSnapshot P h (roundTrip (.object
        (put "integrity" (signature (hmacText P (.object fields) key)) fields))) key =
      if isFinite isFiniteNumber (.object fields) = false then .error (invalid "invalid snapshot body")
      else if isDefined (.object fields) = false then .error (invalid "signature verification failed")
      else .ok (.object (put "integrity" (signature (hmacText P (.object fields) key)) fields)) := by
  have hproper := isProper_of_parse (apart_snapshotInput h) hparse
  have hintegrity : ∀ field ∈ fields, field.1 = "integrity" → field.2.isUndefined = true := by
    rintro field hmem hname
    rw [isProper, Bool.and_eq_true, decide_eq_true_eq] at hproper
    rw [← hname, lookup_of_mem hproper.1 hmem] at hgiven
    simpa [isGiven] using hgiven
  have hlookup := lookup_jsonFields isFiniteNumber
    (lookup_put "integrity" (signature (hmacText P (.object fields) key)) fields) rfl
  have hbody : Js.without "integrity" (jsonFields isFiniteNumber
      (put "integrity" (signature (hmacText P (.object fields) key)) fields)) =
        jsonFields isFiniteNumber fields := by
    rw [← jsonFields_without, without_put, jsonFields_without_of hintegrity]
  rw [roundTrip, json, verifySignedSnapshot, verifyObject, hlookup, hbody]
  have hsignature : parse integritySchema (signature (hmacText P (.object fields) key)) =
      some (signature (hmacText P (.object fields) key)) := parse_signature (hP.form _)
  change (match parse integritySchema (signature (hmacText P (.object fields) key)) with
    | none => _ | some integrity => _) = _
  rw [hsignature]
  dsimp only
  have hread := parse_json isFiniteNumber (apart_snapshotInput h) hparse
  rw [json] at hread
  rw [hread]
  cases hfinite : isFinite isFiniteNumber (.object fields) with
  | false => rfl
  | true =>
    rw [if_pos rfl, if_neg Bool.noConfusion]
    dsimp only
    rw [sign, if_neg hkey]
    change (if fromBase64url (hmacText P (.object fields) key) ≠
      fromBase64url (hmacText P (.object (jsonFields isFiniteNumber fields)) key) then _ else _) = _
    cases hdefined : isDefined (.object fields) with
    | false =>
      rw [if_pos rfl, if_pos]
      intro hbytes
      have htexts := hP.free htext hleft hbytes
      rw [isDefined_of_canonical_eq hproper rfl htexts.symm] at hdefined
      cases hdefined
    | true =>
      have hself : jsonFields isFiniteNumber fields = fields := by
        have heq := json_eq_self (.object fields) hfinite hdefined
        rw [json] at heq
        exact Value.object.inj heq
      rw [hself, if_neg (not_not_intro rfl)]
      rfl

/-- What JSON has made of data is finite, and has a text of its own in every place. -/
theorem isFinite_ofYaml (v : Yaml) (hv : isJson v = true) : isFinite isFiniteNumber (ofYaml v) = true := by
  induction v using TenantMigration.valueInduction with
  | num n =>
    cases n with
    | finite q => rfl
    | _ => cases hv
  | seq items ih =>
    rw [ofYaml, isFinite, areFinite_iff, itemsOfYaml_eq]
    rintro _ hmem
    obtain ⟨item, hitem, rfl⟩ := List.mem_map.mp hmem
    exact ih item hitem (TenantMigration.areJson_iff.mp hv item hitem)
  | map fields ih =>
    rw [isJson, Bool.and_eq_true, TenantMigration.holdJson_iff] at hv
    rw [ofYaml, isFinite, holdFinite_iff, fieldsOfYaml_eq]
    rintro _ hmem
    obtain ⟨field, hfield, rfl⟩ := List.mem_map.mp hmem
    exact ih field hfield (hv.2 field hfield)
  | _ => rfl

/-- The body of a snapshot that has been verified, as the importer reads it. -/
theorem body_of_verified {v : Yaml} (hv : isJson v = true)
    (hok : verifySignedSnapshot P h (ofYaml v) key = .ok signed) :
    ∃ integrity y, bodyOf signed = ofYaml y ∧ isJson y = true ∧
      canonical P (bodyOf signed) = canonicalJson P y ∧
      (properties signed).lookup "integrity" = some integrity ∧
      fromBase64url (valueOf integrity) = fromBase64url (P.hmac key (canonicalJson P y)) := by
  obtain ⟨raw, integrity, fields, hraw, -, hparse, -, hbytes, rfl⟩ := verifySignedSnapshot_eq_ok.mp hok
  have hfinite : isFinite isFiniteNumber (.object raw) = true := hraw ▸ isFinite_ofYaml v hv
  have hdefined : isDefined (.object raw) = true := hraw ▸ isDefined_ofYaml v
  have hrest : isFinite isFiniteNumber (.object (Js.without "integrity" raw)) = true ∧
      isDefined (.object (Js.without "integrity" raw)) = true := by
    rw [isFinite, holdFinite_iff] at hfinite ⊢
    rw [isDefined, holdDefined_iff] at hdefined ⊢
    exact ⟨fun field hmem => hfinite field (List.mem_of_mem_filter hmem),
      fun field hmem => hdefined field (List.mem_of_mem_filter hmem)⟩
  have hschema := apart_snapshotInput h
  have hbody := isDefined_of_parse hschema hparse hrest.2
  have hfree : Js.without "integrity" fields = fields := by
    refine List.filter_eq_self.mpr fun field hfield => decide_eq_true ?_
    obtain ⟨prop, hprop, hname⟩ := List.mem_map.mp (key_of_parse hschema hparse hfield)
    rw [← hname]
    exact of_decide_eq_true (List.mem_filter.mp hprop).2
  have hof : bodyOf (.object (put "integrity" integrity fields)) = .object fields := by
    rw [bodyOf, properties, without_put, hfree]
  refine ⟨integrity, toYaml (.object fields), ?_, isJson_toYaml _ (isProper_of_parse hschema hparse)
    (isFinite_of_parse hschema hparse hrest.1), ?_, lookup_put _ _ _, ?_⟩
  · rw [hof, ofYaml_toYaml _ hbody]
  · rw [hof, canonical_eq P _ hbody]
  · rw [hbytes, hmacText, canonical_eq P _ hbody]

/-- Two snapshots that one signature is valid for are, as the importer reads them, equal up to the order of
    their keys. -/
theorem same_of_verified {texts : Set String} (hP : Distinguishes P key texts) (hnumbers : WritesNumbers P)
    {v v' : Yaml} {signed' : JsValue} (hv : isJson v = true) (hv' : isJson v' = true)
    (hok : verifySignedSnapshot P h (ofYaml v) key = .ok signed)
    (hok' : verifySignedSnapshot P h (ofYaml v') key = .ok signed')
    (hsame : (properties signed).lookup "integrity" = (properties signed').lookup "integrity")
    (htext : canonical P (bodyOf signed) ∈ texts) (htext' : canonical P (bodyOf signed') ∈ texts) :
    ∃ y y', bodyOf signed = ofYaml y ∧ bodyOf signed' = ofYaml y' ∧ SameJson y y' := by
  obtain ⟨integrity, y, hbody, hjson, hcanonical, hlookup, hbytes⟩ := body_of_verified hv hok
  obtain ⟨integrity', y', hbody', hjson', hcanonical', hlookup', hbytes'⟩ := body_of_verified hv' hok'
  obtain rfl : integrity = integrity' := Option.some.inj (hlookup.symm.trans (hsame.trans hlookup'))
  rw [hcanonical] at htext
  rw [hcanonical'] at htext'
  exact ⟨y, y', hbody, hbody', (canonicalJson_eq_iff hnumbers hjson hjson').mp
    (hP.free htext htext' (hbytes.symm.trans hbytes'))⟩

end Theorems

end Remembra.Snapshot
