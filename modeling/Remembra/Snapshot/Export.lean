import Remembra.Snapshot.Integrity

/-! The snapshots that the export signs. `sanitizeMemory` sets `relations`, `supersededBy` and the
    `compressedFrom` of `meta` whether or not anything is left of them, and a store may hand over more
    properties without a value; the schema keeps all of these, and JSON drops them. So a signed export
    survives JSON exactly when every memory in it has a value in all these places
    (`survives_iff`). -/

namespace Remembra.Snapshot
open Js
open Store (Yaml JsNum Host Memory truthy)
open Service (SnapshotMemory SnapshotProvenance snapshotMemory sanitizeMemory metaTexts withMeta
  snapshotFormat)
open TenantMigration (Platform fromBase64url textOf provenanceValue relationValue canonicalJson SameJson
  SameFields isJson WritesNumbers canonicalJson_eq_iff)

/-! ### The objects -/

/-- `meta` with `compressedFrom` set, if only to `undefined`. -/
def metaObject (fields : List (String × Yaml)) : JsValue :=
  .object (fieldsOfYaml fields ++
    if "compressedFrom" ∈ fields.map Prod.fst then [] else [("compressedFrom", .undefined)])

def provenanceOf : SnapshotProvenance → Yaml
  | .typed p => provenanceValue p
  | .explicit => .str "explicit"
  | .auto => .str "auto"

/-- The properties that the schema names, with their values. -/
def memoryProperties (raw : SnapshotMemory) : List (String × Option JsValue) :=
  [("id", some (.str raw.id)), ("type", some (ofYaml (textOf raw.type))), ("content", some (.str raw.content)),
    ("scope", some (.str raw.scope)), ("tags", some (ofYaml (.seq (raw.tags.map .str)))),
    ("importance", some (.num (.finite raw.importance))), ("createdAt", some (.str raw.createdAt)),
    ("updatedAt", some (.str raw.updatedAt)), ("source", raw.source.map .str),
    ("lastSeen", raw.lastSeen.map .str), ("lastValidated", raw.lastValidated.map .str),
    ("archivedAt", raw.archivedAt.map .str),
    ("provenance", raw.provenance.map fun p => ofYaml (provenanceOf p)),
    ("confidence", raw.confidence.map fun c => .num (.finite c)),
    ("trust", raw.trust.map fun e => ofYaml (textOf e)),
    ("retention", raw.retention.map fun e => ofYaml (textOf e)),
    ("owner", raw.owner.map fun e => ofYaml (textOf e)), ("access", raw.access.map fun e => ofYaml (textOf e)),
    ("tenantId", raw.tenantId.map .str), ("projectId", raw.projectId.map .str),
    ("userId", raw.userId.map .str), ("agentId", raw.agentId.map .str),
    ("meta", raw.metaFields.map metaObject), ("validFrom", raw.validFrom.map .str),
    ("validUntil", raw.validUntil.map .str), ("observedAt", raw.observedAt.map .str),
    ("supersededBy", raw.supersededBy.map .str),
    ("version", raw.version.map fun version => .num (.finite version)),
    ("relations", raw.relations.map fun l => ofYaml (.seq (l.map relationValue))),
    ("related", raw.related.map fun l => ofYaml (.seq (l.map .str))),
    ("embedding", raw.embedding.map fun v => ofYaml (.seq (v.map .num)))]

/-- The properties that the schema does not name. -/
def otherProperties (raw : SnapshotMemory) : List (String × JsValue) :=
  (raw.sensitivity.map fun e => ("sensitivity", ofYaml (textOf e))).toList ++
    (raw.legalHold.map fun b => ("legalHold", .bool b)).toList

/-- The properties that an object has, some of them without a value. -/
def present (unset : List String) : List (String × Option JsValue) → List (String × JsValue)
  | [] => []
  | (key, some v) :: l => (key, v) :: present unset l
  | (key, none) :: l => if key ∈ unset then (key, .undefined) :: present unset l else present unset l

def memoryObject (raw : SnapshotMemory) (unset : List String) : JsValue :=
  .object (present unset (memoryProperties raw) ++ otherProperties raw)

/-- A memory as the store hands it over, with the properties that it has without a value. -/
structure StoredMemory where
  memory : Memory
  unset : List String := []
  absent : ∀ key ∈ unset, (key, none) ∈ memoryProperties (snapshotMemory memory) := by simp

/-- The object that `sanitizeMemory` makes. -/
def sanitizedObject (visibleIds : List String) (stored : StoredMemory) : JsValue :=
  memoryObject (snapshotMemory (sanitizeMemory stored.memory visibleIds))
    ("relations" :: "supersededBy" :: stored.unset)

/-- The object that `exportSnapshot` signs. -/
def exportedSnapshot (version : ℤ) (exportedAt : String) (visible : List StoredMemory) : JsValue :=
  .object [("format", .str snapshotFormat), ("version", .num (.finite version)),
    ("exportedAt", .str exportedAt),
    ("memories", .array (visible.map (sanitizedObject (visible.map (·.memory.id)))))]

/-- The snapshot is signed, and is verified as it was signed after it has been written as JSON. -/
def Survives (P : Platform) (h : Host) (key : List UInt8) (snapshot : JsValue) : Prop :=
  ∃ signed, createSignedSnapshot P h snapshot key = .ok signed ∧
    verifySignedSnapshot P h (roundTrip signed) key = .ok signed

/-- There is a value in every place that the export sets or the store hands over. -/
structure Whole (ids : List String) (stored : StoredMemory) : Prop where
  relations : ∃ r ∈ stored.memory.relations.getD [], r.id ∈ ids
  supersededBy : ∃ id, truthy stored.memory.supersededBy = some id ∧ id ∈ ids
  compressedFrom : stored.memory.metaFields.isSome = true →
    ∃ id ∈ metaTexts stored.memory.metaFields "compressedFrom", id ∈ ids
  embedding : ∀ n ∈ stored.memory.embedding.getD [], isFiniteNumber n = true
  unset : stored.unset = []

/-! ### What is read of a memory -/

section Memory
variable {h : Host} {raw : SnapshotMemory} {unset : List String} {w : JsValue}
  {fields : List (String × Yaml)}

theorem nodup_memoryFields (h : Host) : ((memoryFields h).map Prod.fst).Nodup := by
  have hschema := apart_memorySchema h
  rw [memorySchema, Schema.apart, Bool.and_eq_true, decide_eq_true_eq] at hschema
  exact hschema.1

theorem checksFinite_integer (low : ℤ) (high : Option ℤ) :
    (integer low high).ChecksFinite isFiniteNumber := by
  intro n hn
  cases n with
  | finite q => rfl
  | _ => cases hn

theorem checksFinite_fraction : fraction.ChecksFinite isFiniteNumber := by
  intro n hn
  cases n with
  | finite q => rfl
  | _ => cases hn

/-- Only embeddings may hold a number that is not finite. -/
theorem checksFinite_memoryFields (h : Host) :
    ∀ field ∈ memoryFields h, field.1 = "embedding" ∨ field.2.2.ChecksFinite isFiniteNumber := by
  simp [memoryFields, required, optional, anyString, enum, isoInstant, metaSchema, metaFields,
    provenanceSchema, Schema.ChecksFinite, FieldsCheckFinite, checksFinite_integer, checksFinite_fraction]

theorem mem_present {l : List (String × Option JsValue)} {key : String} {v : JsValue} :
    (key, v) ∈ present unset l ↔ (key, some v) ∈ l ∨ v = .undefined ∧ key ∈ unset ∧ (key, none) ∈ l := by
  induction l with
  | nil => simp [present]
  | cons property l ih =>
    obtain ⟨key', value⟩ := property
    cases value with
    | some v' => simp [present, ih, or_assoc]
    | none =>
      rw [present]
      split
      · rename_i hunset
        simp only [List.mem_cons, Prod.mk.injEq, ih, reduceCtorEq, and_false, false_or]
        constructor
        · rintro (⟨rfl, rfl⟩ | hmem | hmem)
          · exact .inr ⟨rfl, hunset, .inl ⟨rfl, trivial⟩⟩
          · exact .inl hmem
          · exact .inr ⟨hmem.1, hmem.2.1, .inr hmem.2.2⟩
        · rintro (hmem | ⟨rfl, hkey, ⟨rfl, -⟩ | hmem⟩)
          · exact .inr (.inl hmem)
          · exact .inl ⟨rfl, rfl⟩
          · exact .inr (.inr ⟨rfl, hkey, hmem⟩)
      · rename_i hunset
        simp only [List.mem_cons, Prod.mk.injEq, ih, reduceCtorEq, and_false, false_or]
        refine or_congr_right (and_congr_right fun _ => and_congr_right fun hkey => ?_)
        exact (or_iff_right fun heq : key = key' ∧ True => hunset (heq.1 ▸ hkey)).symm

theorem keys_present {l : List (String × Option JsValue)} :
    ((present unset l).map Prod.fst).Sublist (l.map Prod.fst) := by
  induction l with
  | nil => exact List.Sublist.refl _
  | cons property l ih =>
    obtain ⟨key, value⟩ := property
    cases value with
    | some v => exact ih.cons_cons _
    | none =>
      rw [present]
      split
      · exact ih.cons_cons _
      · exact ih.cons _

theorem parse_undefined (schema : JsSchema) : parse schema .undefined = none := by
  cases hparse : parse schema .undefined with
  | none => rfl
  | some w =>
    obtain ⟨_, -, hkind, -⟩ := kind_of_parse hparse
    cases hkind

theorem apart_of_memoryFields {field : String × Bool × JsSchema} (hfield : field ∈ memoryFields h) :
    field.2.2.apart = true := by
  have hschema := apart_memorySchema h
  rw [memorySchema, Schema.apart, Bool.and_eq_true] at hschema
  exact fieldsApart_iff.mp hschema.2 field hfield

/-- The property of a name is one. -/
theorem field_eq {field field' : String × Bool × JsSchema} (hfield : field ∈ memoryFields h)
    (hfield' : field' ∈ memoryFields h) (hname : field.1 = field'.1) : field = field' :=
  List.inj_on_of_nodup_map (nodup_memoryFields h) hfield hfield' hname

theorem field_meta {field : String × Bool × JsSchema} (hfield : field ∈ memoryFields h)
    (hname : field.1 = "meta") : field.2.2 = metaSchema := by
  rw [field_eq hfield (show optional "meta" metaSchema ∈ memoryFields h by simp [memoryFields]) hname]
  rfl

/-- The values of a memory have a value in every place, but for `meta`. -/
theorem isDefined_of_property {key : String} {v : JsValue} (hmem : (key, some v) ∈ memoryProperties raw) :
    isDefined v = true ∨ ∃ fields, raw.metaFields = some fields ∧ v = metaObject fields := by
  have hall : ∀ property ∈ memoryProperties raw, property.1 = "meta" ∨
      ∀ v, property.2 = some v → isDefined v = true := by
    simp [memoryProperties, isDefined, isDefined_ofYaml, Option.bind_eq_some_iff]
  rcases hall _ hmem with hkey | hdefined
  · have hmeta : ∀ property ∈ memoryProperties raw, property.1 = "meta" →
        property.2 = raw.metaFields.map metaObject := by
      simp [memoryProperties]
    obtain ⟨fields, hfields, heq⟩ := Option.map_eq_some_iff.mp (hmeta _ hmem hkey).symm
    exact .inr ⟨fields, hfields, heq.symm⟩
  · exact .inl (hdefined v rfl)

theorem isDefined_other {key : String} {v : JsValue} (hmem : (key, v) ∈ otherProperties raw) :
    isDefined v = true := by
  rcases List.mem_append.mp hmem with hmem | hmem
  · obtain ⟨e, -, heq⟩ := Option.map_eq_some_iff.mp (Option.mem_toList.mp hmem)
    cases heq
    rfl
  · obtain ⟨b, -, heq⟩ := Option.map_eq_some_iff.mp (Option.mem_toList.mp hmem)
    cases heq
    rfl

theorem isDefined_metaObject (hmem : "compressedFrom" ∈ fields.map Prod.fst) :
    isDefined (metaObject fields) = true := by
  rw [metaObject, if_pos hmem, List.append_nil]
  exact isDefined_ofYaml (.map fields)

/-- What is read of a `meta` has a value in every place only if `compressedFrom` has. -/
theorem compressedFrom_of_isDefined {data : JsValue} (hparse : parse metaSchema (metaObject fields) = some data)
    (hdefined : isDefined data = true) : "compressedFrom" ∈ fields.map Prod.fst := by
  by_contra hnot
  rw [metaObject, if_neg hnot, metaSchema, parse, Bool.false_and, if_neg Bool.false_ne_true] at hparse
  obtain ⟨out, hout, rfl⟩ := Option.map_eq_some_iff.mp hparse
  have hlookup : (fieldsOfYaml fields ++ [("compressedFrom", Value.undefined)]).lookup "compressedFrom" =
      some .undefined := by
    have hkeys : "compressedFrom" ∉ (fieldsOfYaml fields).map Prod.fst := by
      rw [fieldsOfYaml_eq, List.map_map]
      exact hnot
    rw [List.lookup_append, Js.lookup_eq_none hkeys]
    rfl
  have hfield : optional "compressedFrom" (.array none anyString) ∈ metaFields := by simp [metaFields]
  obtain ⟨data, hdata, ⟨-, rfl⟩ | hkept⟩ := kept_of_parseFields hout hfield hlookup
  · exact absurd (holdDefined_iff.mp hdefined _ hdata) Bool.false_ne_true
  · rw [parse_undefined] at hkept
    cases hkept

theorem field_embedding {field : String × Bool × JsSchema} (hfield : field ∈ memoryFields h)
    (hname : field.1 = "embedding") : field.2.2 = .array none number := by
  rw [field_eq hfield (show optional "embedding" (.array none number) ∈ memoryFields h by
    simp [memoryFields]) hname]
  rfl

theorem value_embedding {v : JsValue} (hmem : ("embedding", some v) ∈ memoryProperties raw) :
    ∃ vector, raw.embedding = some vector ∧ v = ofYaml (.seq (vector.map .num)) := by
  have hall : ∀ property ∈ memoryProperties raw, property.1 = "embedding" →
      property.2 = raw.embedding.map fun vector => ofYaml (.seq (vector.map .num)) := by
    simp [memoryProperties]
  obtain ⟨vector, hvector, heq⟩ := Option.map_eq_some_iff.mp (hall _ hmem rfl).symm
  exact ⟨vector, hvector, heq.symm⟩

theorem ofYaml_numbers (vector : List JsNum) :
    ofYaml (.seq (vector.map .num)) = .array (vector.map Value.num) := by
  rw [ofYaml, itemsOfYaml_eq, List.map_map]
  rfl

theorem isFinite_numbers {vector : List JsNum} :
    isFinite isFiniteNumber (ofYaml (.seq (vector.map .num))) = true ↔
      ∀ n ∈ vector, isFiniteNumber n = true := by
  rw [ofYaml_numbers, isFinite, areFinite_iff, List.forall_mem_map]
  rfl

/-- Numbers are read as they are. -/
theorem parse_numbers {vector : List JsNum} {data : JsValue}
    (hread : parse (.array none number) (ofYaml (.seq (vector.map .num))) = some data) :
    data = ofYaml (.seq (vector.map .num)) := by
  rw [ofYaml_numbers, parse] at hread
  obtain ⟨out, hout, rfl⟩ := Option.map_eq_some_iff.mp hread
  rw [ofYaml_numbers]
  congr 1
  clear hread
  induction vector generalizing out with
  | nil =>
    cases hout
    rfl
  | cons n vector ih =>
    rw [List.map_cons, List.mapM_cons] at hout
    obtain ⟨first, hfirst, hout⟩ := Option.bind_eq_some_iff.mp hout
    obtain ⟨rest, hrest, hsome⟩ := Option.bind_eq_some_iff.mp hout
    cases hsome
    rw [number, parse] at hfirst
    split at hfirst <;> cases hfirst
    rw [ih rest hrest, List.map_cons]

section Read
variable (hparse : parse (memorySchema h) (memoryObject raw unset) = some w)
include hparse

theorem parseFields_of_memory : ∃ out, w = .object out ∧ parseFields (memoryFields h)
    (present unset (memoryProperties raw) ++ otherProperties raw) = some out := by
  rw [memorySchema, memoryObject, parse, Bool.false_and, if_neg Bool.false_ne_true] at hparse
  obtain ⟨out, hout, rfl⟩ := Option.map_eq_some_iff.mp hparse
  exact ⟨out, rfl, hout⟩

/-- A property that a memory has is kept. -/
theorem kept_of_memory {key : String} {v : JsValue} (hmem : (key, v) ∈ present unset (memoryProperties raw)) :
    ∃ out data, w = .object out ∧ (key, data) ∈ out ∧ ∃ field ∈ memoryFields h, field.1 = key ∧
      (v.isUndefined = true ∧ data = .undefined ∨ parse field.2.2 v = some data) := by
  obtain ⟨out, rfl, hout⟩ := parseFields_of_memory hparse
  have hkeys : (present unset (memoryProperties raw)).map Prod.fst |>.Sublist
      ((memoryFields h).map Prod.fst) := keys_present
  have hkey : key ∈ (memoryFields h).map Prod.fst := hkeys.subset (List.mem_map.mpr ⟨_, hmem, rfl⟩)
  obtain ⟨field, hfield, rfl⟩ := List.mem_map.mp hkey
  have hlookup : (present unset (memoryProperties raw) ++ otherProperties raw).lookup field.1 = some v := by
    rw [List.lookup_append, lookup_of_mem ((nodup_memoryFields h).sublist hkeys) hmem]
    rfl
  obtain ⟨data, hdata, hkept⟩ := kept_of_parseFields hout hfield hlookup
  exact ⟨out, data, rfl, hdata, field, hfield, rfl, hkept⟩

/-- What is read has a value in every place if the memory has, and `compressedFrom` with its `meta`. -/
theorem isDefined_iff_of_memory : isDefined w = true ↔ (∀ key ∈ unset, (key, none) ∉ memoryProperties raw) ∧
    ∀ fields, raw.metaFields = some fields → "compressedFrom" ∈ fields.map Prod.fst := by
  constructor
  · intro hdefined
    refine ⟨fun key hkey hnone => ?_, fun fields hfields => ?_⟩
    · obtain ⟨out, data, rfl, hdata, field, -, -, hkept⟩ :=
        kept_of_memory hparse (mem_present.mpr (.inr ⟨rfl, hkey, hnone⟩))
      rcases hkept with ⟨-, rfl⟩ | hkept
      · exact absurd (holdDefined_iff.mp hdefined _ hdata) Bool.false_ne_true
      · rw [parse_undefined] at hkept
        cases hkept
    · have hproperty : ("meta", some (metaObject fields)) ∈ memoryProperties raw := by
        simp [memoryProperties, hfields]
      obtain ⟨out, data, rfl, hdata, field, hfield, hname, ⟨hundefined, -⟩ | hkept⟩ :=
        kept_of_memory hparse (mem_present.mpr (.inl hproperty))
      · cases hundefined
      · rw [field_meta hfield hname] at hkept
        exact compressedFrom_of_isDefined hkept (holdDefined_iff.mp hdefined _ hdata)
  · rintro ⟨hunset, hmeta⟩
    obtain ⟨out, rfl, hout⟩ := parseFields_of_memory hparse
    have hvalues : ∀ property ∈ present unset (memoryProperties raw) ++ otherProperties raw,
        isDefined property.2 = true := by
      rintro ⟨key, v⟩ hmem
      rcases List.mem_append.mp hmem with hmem | hmem
      · rcases mem_present.mp hmem with hmem | ⟨-, hkey, hnone⟩
        · rcases isDefined_of_property hmem with hdefined | ⟨fields, hfields, rfl⟩
          · exact hdefined
          · exact isDefined_metaObject (hmeta fields hfields)
        · exact absurd hnone (hunset key hkey)
      · exact isDefined_other hmem
    rw [isDefined, holdDefined_iff]
    intro prop hprop
    obtain ⟨value, hmem, ⟨hundefined, -⟩ | ⟨field, hfield, -, hvalue⟩⟩ := value_of_parseFields hout hprop
    · rw [not_isUndefined (hvalues _ hmem)] at hundefined
      cases hundefined
    · exact isDefined_of_parse (apart_of_memoryFields hfield) hvalue (hvalues _ hmem)

/-- The numbers that are read are finite if those of the embedding are. -/
theorem isFinite_iff_of_memory : isFinite isFiniteNumber w = true ↔
    ∀ n ∈ raw.embedding.getD [], isFiniteNumber n = true := by
  constructor
  · intro hfinite n hn
    cases hembedding : raw.embedding with
    | none =>
      rw [hembedding] at hn
      cases hn
    | some v =>
      rw [hembedding] at hn
      have hproperty : ("embedding", some (ofYaml (.seq (v.map .num)))) ∈ memoryProperties raw := by
        simp [memoryProperties, hembedding]
      obtain ⟨out, data, rfl, hdata, field, hfield, hname, ⟨hundefined, -⟩ | hkept⟩ :=
        kept_of_memory hparse (mem_present.mpr (.inl hproperty))
      · cases hundefined
      · rw [field_embedding hfield hname] at hkept
        obtain rfl := parse_numbers hkept
        exact isFinite_numbers.mp (holdFinite_iff.mp hfinite _ hdata) n hn
  · intro hembedding
    obtain ⟨out, rfl, hout⟩ := parseFields_of_memory hparse
    rw [isFinite, holdFinite_iff]
    intro prop hprop
    obtain ⟨value, hmem, ⟨-, hundefined⟩ | ⟨field, hfield, hname, hvalue⟩⟩ := value_of_parseFields hout hprop
    · rw [hundefined]
      rfl
    · rcases checksFinite_memoryFields h field hfield with hnumbers | hchecks
      · rw [hname] at hnumbers
        refine isFinite_of_parse (apart_of_memoryFields hfield) hvalue ?_
        rcases List.mem_append.mp hmem with hmem | hmem
        · rcases mem_present.mp hmem with hmem | ⟨hundefined, -⟩
          · obtain ⟨vector, hvector, rfl⟩ := value_embedding (hnumbers ▸ hmem)
            rw [hvector] at hembedding
            exact isFinite_numbers.mpr hembedding
          · rw [hundefined, parse_undefined] at hvalue
            cases hvalue
        · have hkeys : ∀ property ∈ otherProperties raw, property.1 ≠ "embedding" := by
            simp [otherProperties, or_imp, forall_and]
          exact absurd hnumbers (hkeys (prop.1, value) hmem)
      · exact isFinite_of_checks hchecks hvalue

end Read

end Memory

/-! ### What is left of a memory -/

section Whole
variable {ids : List String} {m : Memory} {stored : StoredMemory}

theorem relations_sanitized : (sanitizeMemory m ids).relations = none ↔
    ¬ ∃ r ∈ m.relations.getD [], r.id ∈ ids := by
  simp only [sanitizeMemory]
  split
  · rename_i hnone
    simpa using hnone
  · rename_i hsome
    simpa using hsome

theorem supersededBy_sanitized : (sanitizeMemory m ids).supersededBy = none ↔
    ¬ ∃ id, truthy m.supersededBy = some id ∧ id ∈ ids := by
  simp [sanitizeMemory, Option.filter_eq_none_iff]

theorem mem_withMeta (fields : List (String × Yaml)) (key : String) (value : Yaml) :
    key ∈ (withMeta (some fields) key value).map Prod.fst := by
  rw [withMeta]
  dsimp only [Option.getD_some]
  split
  · rename_i hsome
    obtain ⟨old, hold⟩ := Option.isSome_iff_exists.mp hsome
    obtain ⟨l, l', rfl, -⟩ := List.lookup_eq_some_iff.mp hold
    simp
  · simp

theorem compressedFrom_sanitized {fields : List (String × Yaml)}
    (h : (sanitizeMemory m ids).metaFields = some fields) : "compressedFrom" ∈ fields.map Prod.fst ↔
      ∃ id ∈ metaTexts m.metaFields "compressedFrom", id ∈ ids := by
  obtain ⟨before, -, hfields⟩ := Option.map_eq_some_iff.mp h
  split at hfields
  · rename_i hnone
    subst hfields
    have hnot : ¬ ∃ id ∈ metaTexts m.metaFields "compressedFrom", id ∈ ids := by simpa using hnone
    simp [hnot]
  · rename_i hsome
    subst hfields
    have hex : ∃ id ∈ metaTexts m.metaFields "compressedFrom", id ∈ ids := by simpa using hsome
    exact iff_of_true (mem_withMeta ..) hex

/-- The property has no value on the right if it has none on the left. -/
def KeepsAbsent (p q : String × Option JsValue) : Prop := p.1 = q.1 ∧ (p.2 = none → q.2 = none)

theorem absent_of_keeps {l l' : List (String × Option JsValue)} (h : List.Forall₂ KeepsAbsent l l')
    {key : String} (hmem : (key, none) ∈ l) : (key, none) ∈ l' := by
  induction h with
  | nil => cases hmem
  | @cons p q _ _ hpq _ ih =>
    rcases List.mem_cons.mp hmem with rfl | hmem
    · obtain ⟨hkey, hnone⟩ := hpq
      have hq : q = (key, none) := Prod.ext hkey.symm (hnone rfl)
      rw [hq]
      exact List.mem_cons_self ..
    · exact List.mem_cons_of_mem _ (ih hmem)

/-- What a memory lacks, it lacks after `sanitizeMemory`. -/
theorem absent_sanitized {key : String} (h : (key, none) ∈ memoryProperties (snapshotMemory m)) :
    (key, none) ∈ memoryProperties (snapshotMemory (sanitizeMemory m ids)) := by
  refine absent_of_keeps ?_ h
  have hrelations : m.relations = none → (sanitizeMemory m ids).relations = none := by
    simp +contextual [relations_sanitized]
  have hsuperseded : m.supersededBy = none → (sanitizeMemory m ids).supersededBy = none := by
    simp +contextual [supersededBy_sanitized, truthy]
  have hmeta : m.metaFields = none → (sanitizeMemory m ids).metaFields = none := by
    simp +contextual [sanitizeMemory]
  simp only [memoryProperties, snapshotMemory, List.forall₂_cons, List.Forall₂.nil, and_true, KeepsAbsent,
    true_and, Option.map_eq_none_iff, reduceCtorEq, imp_self]
  and_intros
  all_goals first | exact id | exact hrelations | exact hsuperseded | exact hmeta

theorem absent_relations {raw : SnapshotMemory} :
    ("relations", none) ∈ memoryProperties raw ↔ raw.relations = none := by
  simp [memoryProperties, eq_comm]

theorem absent_supersededBy {raw : SnapshotMemory} :
    ("supersededBy", none) ∈ memoryProperties raw ↔ raw.supersededBy = none := by
  simp [memoryProperties, eq_comm]

/-- What is read of the object of a memory is finite and has a value in every place exactly when the
    memory is whole. -/
theorem isWhole_iff {h : Host} {w : JsValue}
    (hparse : parse (memorySchema h) (sanitizedObject ids stored) = some w) :
    isFinite isFiniteNumber w = true ∧ isDefined w = true ↔ Whole ids stored := by
  rw [isFinite_iff_of_memory hparse, isDefined_iff_of_memory hparse]
  simp only [List.forall_mem_cons, absent_relations, absent_supersededBy]
  change (∀ n ∈ stored.memory.embedding.getD [], _) ∧ (¬ (sanitizeMemory stored.memory ids).relations = none ∧
    ¬ (sanitizeMemory stored.memory ids).supersededBy = none ∧ _) ∧
      (∀ fields, (sanitizeMemory stored.memory ids).metaFields = some fields → _) ↔ _
  rw [relations_sanitized, supersededBy_sanitized, not_not, not_not]
  constructor
  · rintro ⟨hembedding, ⟨hrelations, hsuperseded, hunset⟩, hmeta⟩
    refine ⟨hrelations, hsuperseded, fun hsome => ?_, hembedding, ?_⟩
    · cases hfields : (sanitizeMemory stored.memory ids).metaFields with
      | none =>
        rw [Option.map_eq_none_iff.mp hfields] at hsome
        cases hsome
      | some fields => exact (compressedFrom_sanitized hfields).mp (hmeta fields hfields)
    · refine List.eq_nil_iff_forall_not_mem.mpr fun key hkey => hunset key hkey ?_
      exact absent_sanitized (stored.absent key hkey)
  · rintro ⟨hrelations, hsuperseded, hcompressed, hembedding, hunset⟩
    refine ⟨hembedding, ⟨hrelations, hsuperseded, ?_⟩, fun fields hfields => ?_⟩
    · rw [hunset]
      rintro _ ⟨⟩
    · obtain ⟨before, hbefore, -⟩ := Option.map_eq_some_iff.mp hfields
      exact (compressedFrom_sanitized hfields).mpr (hcompressed (by rw [hbefore]; rfl))

end Whole

/-! ### What is signed -/

section Signed
variable {P : Platform} {h : Host} {key : List UInt8} {texts : Set String} {version : ℤ} {exportedAt : String}
  {visible : List StoredMemory}

/-- What the schema reads of an export. -/
theorem parse_exported {body : JsValue}
    (hparse : parse (snapshotInput h) (exportedSnapshot version exportedAt visible) = some body) :
    ∃ out, (visible.map (sanitizedObject (visible.map (·.memory.id)))).mapM (parse (memorySchema h)) = some out ∧
      body = .object [("format", .str snapshotFormat), ("version", .num (.finite version)),
        ("exportedAt", .str exportedAt), ("memories", .array out)] := by
  have heq : parse (snapshotInput h) (exportedSnapshot version exportedAt visible) =
      (parse (integer 1 (some 4)) (.num (.finite version))).bind fun number =>
        (parse (.array (some 100000) (memorySchema h))
            (.array (visible.map (sanitizedObject (visible.map (·.memory.id)))))).bind fun memories =>
          some (.object [("format", .str snapshotFormat), ("version", number),
            ("exportedAt", .str exportedAt), ("memories", memories)]) := by
    simp [snapshotInput, exportedSnapshot, parseFields, required, optional, List.lookup, Value.isUndefined,
      parse, literal, anyString]
  rw [heq, integer, parse] at hparse
  obtain ⟨number, hnumber, hparse⟩ := Option.bind_eq_some_iff.mp hparse
  obtain ⟨memories, hmemories, hparse⟩ := Option.bind_eq_some_iff.mp hparse
  rw [Option.ite_none_right_eq_some] at hnumber
  cases hnumber.2
  rw [parse] at hmemories
  split at hmemories
  · obtain ⟨out, hout, rfl⟩ := Option.map_eq_some_iff.mp hmemories
    cases hparse
    exact ⟨out, hout, rfl⟩
  · cases hmemories

/-- A signed export survives JSON exactly when it is accepted, the key is not empty and every memory in it
    is whole. -/
theorem survives_iff (hP : Distinguishes P key texts) (htexts : ∀ body,
      parse (snapshotInput h) (exportedSnapshot version exportedAt visible) = some body →
        canonical P body ∈ texts ∧ canonical P (roundTrip body) ∈ texts) :
    Survives P h key (exportedSnapshot version exportedAt visible) ↔ key.length ≠ 0 ∧
      (parse (snapshotInput h) (exportedSnapshot version exportedAt visible)).isSome = true ∧
        ∀ stored ∈ visible, Whole (visible.map (·.memory.id)) stored := by
  have hwhole : ∀ fields,
      parse (snapshotInput h) (exportedSnapshot version exportedAt visible) = some (.object fields) →
        isGiven (fields.lookup "integrity") = false ∧
          (isFinite isFiniteNumber (.object fields) = true ∧ isDefined (.object fields) = true ↔
            ∀ stored ∈ visible, Whole (visible.map (·.memory.id)) stored) := by
    intro fields hparse
    obtain ⟨out, hout, hbody⟩ := parse_exported hparse
    cases hbody
    refine ⟨rfl, ?_⟩
    have hfinite : isFinite isFiniteNumber (.object [("format", Value.str snapshotFormat),
        ("version", .num (.finite version)), ("exportedAt", .str exportedAt), ("memories", .array out)]) =
          areFinite isFiniteNumber out := by
      simp [isFinite, holdFinite, isFiniteNumber]
    have hdefined : isDefined (.object [("format", Value.str snapshotFormat),
        ("version", Value.num (JsNum.finite version)), ("exportedAt", .str exportedAt),
          ("memories", .array out)]) = areDefined out := by
      simp [isDefined, holdDefined]
    rw [hfinite, hdefined, areFinite_iff, areDefined_iff]
    constructor
    · rintro ⟨hfinite, hdefined⟩ stored hstored
      obtain ⟨w, hw, hread⟩ := data_of_mapM hout (List.mem_map_of_mem hstored)
      exact (isWhole_iff hread).mp ⟨hfinite w hw, hdefined w hw⟩
    · intro hall
      have hread : ∀ w ∈ out, isFinite isFiniteNumber w = true ∧ isDefined w = true := by
        intro w hw
        obtain ⟨_, hmem, hread⟩ := mem_of_mapM hout hw
        obtain ⟨stored, hstored, rfl⟩ := List.mem_map.mp hmem
        exact (isWhole_iff hread).mpr (hall stored hstored)
      exact ⟨fun w hw => (hread w hw).1, fun w hw => (hread w hw).2⟩
  constructor
  · rintro ⟨signed, hcreate, hverify⟩
    obtain ⟨fields, hparse, hkey, hgiven, rfl⟩ := createSignedSnapshot_eq_ok.mp hcreate
    obtain ⟨htext, hleft⟩ := htexts _ hparse
    rw [verify_roundTrip hP hparse hkey hgiven htext hleft] at hverify
    refine ⟨hkey, by rw [hparse]; rfl, (hwhole fields hparse).2.mp ?_⟩
    split at hverify
    · cases hverify
    · rename_i hfinite
      split at hverify
      · cases hverify
      · rename_i hdefined
        exact ⟨Bool.eq_true_of_not_eq_false hfinite, Bool.eq_true_of_not_eq_false hdefined⟩
  · rintro ⟨hkey, hsome, hall⟩
    obtain ⟨body, hparse⟩ := Option.isSome_iff_exists.mp hsome
    obtain ⟨fields, rfl⟩ := parse_object hparse
    obtain ⟨hgiven, hiff⟩ := hwhole fields hparse
    obtain ⟨hfinite, hdefined⟩ := hiff.mpr hall
    obtain ⟨htext, hleft⟩ := htexts _ hparse
    refine ⟨_, createSignedSnapshot_eq_ok.mpr ⟨fields, hparse, hkey, hgiven, rfl⟩, ?_⟩
    rw [verify_roundTrip hP hparse hkey hgiven htext hleft, hfinite, hdefined]
    rfl

end Signed

/-! ### A signed export of one memory -/

def signingKey : List UInt8 := "snapshot signing key".toUTF8.toList

def instant : String := "2026-01-01T00:00:00.000Z"

/-- A memory without relations, which nothing supersedes. -/
def plain : StoredMemory where
  memory := {
    id := "aaaaaaaa"
    type := .fact
    content := "one memory"
    scope := "global"
    tags := []
    importance := 3
    confidence := 1
    trust := .trusted
    createdAt := instant
    updatedAt := instant
    version := 1
    provenance := { sourceType := .manual }
    owner := some .global
    access := some .global }

/-- The canonical texts of an export with this memory, as it is signed and as it comes back, and of one
    without memories. -/
def snapshotText (memories : String) : String :=
  "\x7b\"exportedAt\":\"2026-01-01T00:00:00.000Z\",\"format\":\"remembra-export\",\"memories\":[" ++
    memories ++ "],\"version\":3\x7d"

def memoryText (relations supersededBy : String) : String :=
  "\x7b\"access\":\"global\",\"confidence\":1,\"content\":\"one memory\"," ++
    "\"createdAt\":\"2026-01-01T00:00:00.000Z\",\"id\":\"aaaaaaaa\",\"importance\":3," ++
    "\"owner\":\"global\",\"provenance\":\x7b\"sourceType\":\"manual\"\x7d," ++ relations ++
    "\"scope\":\"global\"," ++ supersededBy ++ "\"tags\":[],\"trust\":\"trusted\",\"type\":\"fact\"," ++
    "\"updatedAt\":\"2026-01-01T00:00:00.000Z\",\"version\":1\x7d"

/-- The texts with their signatures under the key. -/
def signatures : List (String × String) :=
  [(snapshotText "", "KpAV4FYN_gM4Nr4sCk0R1ZXaTyuaHo9Ouk2rXAjHADA"),
    (snapshotText (memoryText "\"relations\":undefined," "\"supersededBy\":undefined,"),
      "tWEzkLSLmoEGSuZI18_A1LCq5eAynhg2Adi5tRiR0tI"),
    (snapshotText (memoryText "" ""), "_rzjVlCQ8zZdV4ZArmP-cxGCsi03yXmoUkvprF88A8I")]

/-- A platform that knows these signatures. -/
def sealing : Platform where
  numText := TenantMigration.fractionText
  sha256 text := text
  hmac _ text := (signatures.lookup text).getD "AAAAAAAAAAAAAAAAAAAAAAAAAAAAAAAAAAAAAAAAAAA"

theorem distinguishes_sealing :
    Distinguishes sealing signingKey { text | text ∈ signatures.map Prod.fst } where
  form text := by
    have hform : ∀ entry ∈ signatures, isBase64url entry.2 = true := by decide +kernel
    change isBase64url ((signatures.lookup text).getD _) = true
    cases hlookup : signatures.lookup text with
    | none => decide +kernel
    | some signature =>
      obtain ⟨l, l', heq, -⟩ := List.lookup_eq_some_iff.mp hlookup
      exact hform (text, signature) (heq ▸ List.mem_append_right _ (List.mem_cons_self ..))
  free := by
    have hfree : ∀ t ∈ signatures.map Prod.fst, ∀ t' ∈ signatures.map Prod.fst,
        fromBase64url (sealing.hmac signingKey t) = fromBase64url (sealing.hmac signingKey t') →
          t = t' := by
      decide +kernel
    exact fun t ht t' ht' => hfree t ht t' ht'

end Remembra.Snapshot
