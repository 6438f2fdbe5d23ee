import Mathlib.Data.List.DropRight
import Remembra.Store.Codec

/-! What comes back when a rendered record is read: `parse_render` says it for every record, field by
    field (`readBack`), and says which records are not read at all (`Readable`). `storeLocked` writes
    the record of an accepted input; it reads back as the input and as the returned record exactly
    when the input is `Preserved`: content without white space at its ends, a scope the reader takes,
    canonical timestamps, no empty text in a field that drops it, an embedding of finite numbers, and
    no sensitivity or legal hold, which no file keeps. -/

namespace Remembra.Store
open Jobs (trim isTrimmed)

/-! ### Texts -/

theorem trim_append_newline (s : String) : trim (s ++ "\n") = trim s := by
  have hn : isTrimmed '\n' = true := by decide
  have hlist : (s ++ "\n").toList = s.toList ++ ['\n'] := by
    rw [String.toList_append]
    rfl
  unfold trim
  rw [hlist, List.dropWhile_append]
  split
  · rename_i h
    rw [List.isEmpty_iff.mp h, List.dropWhile_cons_of_pos hn, List.dropWhile_nil]
  · rw [List.reverse_append, List.reverse_singleton, List.singleton_append,
      List.dropWhile_cons_of_pos hn]

/-- A text whose characters are all kept. -/
theorem trim_eq_self {s : String} (h : ∀ c ∈ s.toList, isTrimmed c = false) : trim s = s := by
  have hdrop : ∀ l : List Char, (∀ c ∈ l, isTrimmed c = false) → l.dropWhile isTrimmed = l := by
    intro l hl
    cases l with
    | nil => rfl
    | cons c l => simp [hl c (List.mem_cons_self ..)]
  unfold trim
  rw [hdrop _ h, hdrop _ (fun c hc => h c (List.mem_reverse.mp hc)), List.reverse_reverse,
    String.ofList_toList]

theorem stripBrackets_eq_self {s : String} (hl : '[' ∉ s.toList) (hr : ']' ∉ s.toList) :
    stripBrackets s = s := by
  have hhead : s.toList.head? ≠ some '[' := fun h => hl (List.mem_of_head? h)
  have hlast : s.toList.getLast? ≠ some ']' := fun h => hr (List.mem_of_getLast? h)
  simp only [stripBrackets, if_neg hhead, if_neg hlast, String.ofList_toList]

theorem mem_intercalate {α : Type*} {sep c : α} {ls : List (List α)}
    (h : c ∈ [sep].intercalate ls) : c = sep ∨ ∃ l ∈ ls, c ∈ l := by
  induction ls with
  | nil => simp at h
  | cons l ls ih =>
    cases ls with
    | nil => exact .inr ⟨l, List.mem_singleton_self l, by simpa using h⟩
    | cons l' ls =>
      rw [List.intercalate_cons_cons, List.mem_append, List.mem_append, List.mem_singleton] at h
      rcases h with (hl | rfl) | hrest
      · exact .inr ⟨l, List.mem_cons_self .., hl⟩
      · exact .inl rfl
      · rcases ih hrest with rfl | ⟨k, hk, hck⟩
        · exact .inl rfl
        · exact .inr ⟨k, List.mem_cons_of_mem _ hk, hck⟩

theorem splitComma_joinComma {texts : List String} (hne : texts ≠ [])
    (h : ∀ t ∈ texts, ',' ∉ t.toList) : splitComma (joinComma texts) = texts := by
  have hmap : ∀ l ∈ texts.map String.toList, ',' ∉ l := by
    intro l hl
    obtain ⟨t, ht, rfl⟩ := List.mem_map.mp hl
    exact h t ht
  rw [splitComma, joinComma, String.toList_ofList,
    List.splitOn_intercalate ',' hmap (by simpa using hne), List.map_map]
  exact (List.map_congr_left fun t _ => String.ofList_toList).trans (List.map_id _)

/-! ### Fields -/

@[simp] theorem truthy_none : truthy none = none := rfl

theorem truthy_truthy (s : Option String) : truthy (truthy s) = truthy s := by
  unfold truthy
  cases s with
  | none => rfl
  | some t => by_cases ht : t = "" <;> simp [Option.filter, ht]

theorem truthy_eq_self {s : Option String} : truthy s = s ↔ s ≠ some "" := by
  cases s with
  | none => simp
  | some t => by_cases ht : t = "" <;> simp [truthy, Option.filter, ht]

theorem bind_asStr_str (h : Host) (s : Option String) : (s.map Yaml.str).bind (asStr h) = s := by
  cases s <;> rfl

theorem bind_asStr_text {ε : Type} [Vocabulary ε] (h : Host) (e : Option ε) :
    ((e.map fun x => Yaml.str (Vocabulary.text x)).bind (asStr h)).bind Vocabulary.ofText = e := by
  cases e with
  | none => rfl
  | some e => exact Vocabulary.ofText_text e

/-- Looking a key up among the fields that are there. -/
theorem lookup_present {fields : List (String × Option Yaml)}
    (hnd : (fields.map Prod.fst).Nodup) {key : String} {value : Option Yaml}
    (hmem : (key, value) ∈ fields) : (present fields).lookup key = value := by
  have hout : ∀ {l : List (String × Option Yaml)}, key ∉ l.map Prod.fst →
      (present l).lookup key = none := by
    intro l hl
    rw [List.lookup_eq_none_iff]
    rintro ⟨k, v⟩ hkv
    obtain ⟨⟨k', v'⟩, hin, hsome⟩ := List.mem_filterMap.mp hkv
    obtain ⟨w, -, hw⟩ := Option.map_eq_some_iff.mp hsome
    have hkey : k' = k := congrArg Prod.fst hw
    have hne : key ≠ k := by
      rintro rfl
      exact hl (List.mem_map.mpr ⟨_, hin, hkey⟩)
    simpa using hne
  induction fields with
  | nil => cases hmem
  | cons f fields ih =>
    rw [List.map_cons, List.nodup_cons] at hnd
    obtain ⟨k, v⟩ := f
    rcases List.mem_cons.mp hmem with heq | hin
    · cases heq
      cases value with
      | none => exact hout (l := fields) hnd.1
      | some y => simp [present]
    · have hne : key ≠ k := by
        rintro rfl
        exact hnd.1 (List.mem_map.mpr ⟨_, hin, rfl⟩)
      have hbeq : (key == k) = false := beq_false_of_ne hne
      cases v with
      | none => exact ih hnd.2 hin
      | some y =>
        change List.lookup key ((k, y) :: present fields) = value
        rw [List.lookup_cons, hbeq]
        exact ih hnd.2 hin

theorem optionalText_present {fields : List (String × Option Yaml)}
    (hnd : (fields.map Prod.fst).Nodup) {key : String} {s : Option String}
    (hmem : (key, s.map Yaml.str) ∈ fields) : optionalText (present fields) key = some s := by
  rw [optionalText, lookup_present hnd hmem]
  cases s <;> rfl

theorem nodup_provenanceFields (p : Provenance) : ((provenanceFields p).map Prod.fst).Nodup := by
  change ["sourceType", "sessionId", "messageId", "agentId", "agentType", "agentVersion",
    "conversationId", "taskId", "runId", "provider"].Nodup
  decide

/-- Provenance reads back as it was written. -/
theorem parseProvenance_present (p : Provenance) :
    parseProvenance (present (provenanceFields p)) = some p := by
  have htext : ∀ (key : String) (s : Option String),
      (key, s.map Yaml.str) ∈ provenanceFields p →
      optionalText (present (provenanceFields p)) key = some s :=
    fun _ _ hmem => optionalText_present (nodup_provenanceFields p) hmem
  have hsource := htext "sourceType" (some (Vocabulary.text p.sourceType))
    (by simp [provenanceFields])
  unfold parseProvenance
  rw [hsource, htext "sessionId" p.sessionId (by simp [provenanceFields]),
    htext "messageId" p.messageId (by simp [provenanceFields]),
    htext "agentId" p.agentId (by simp [provenanceFields]),
    htext "agentType" p.agentType (by simp [provenanceFields]),
    htext "agentVersion" p.agentVersion (by simp [provenanceFields]),
    htext "conversationId" p.conversationId (by simp [provenanceFields]),
    htext "taskId" p.taskId (by simp [provenanceFields]),
    htext "runId" p.runId (by simp [provenanceFields]),
    htext "provider" p.provider (by simp [provenanceFields])]
  simp only [Option.bind_some, id, Vocabulary.ofText_text, Option.bind_eq_bind]

/-! ### A rendered record, field by field -/

/-- The numbers of the two schema versions read back from their texts. -/
def Host.ReadsVersions (h : Host) : Prop :=
  h.Numeral schemaVersion ∧ h.Numeral tenantSchemaVersion

/-- What `parse` asks of a record before it takes it. -/
structure Readable (m : Memory) : Prop where
  id : isIdShape m.id = true
  scope : badScope m.scope = false
  content : trim m.content ≠ ""
  tenantId : ∀ t ∈ truthy m.tenantId, isValidTenantId t = true
  projectId : ∀ t ∈ truthy m.projectId, isValidTenantId t = true
  userId : ∀ t ∈ truthy m.userId, isValidTenantId t = true
  agentId : ∀ t ∈ truthy m.agentId, isValidTenantId t = true

section ReadBack
variable (h : Host)

/-- The record that is read where `m` was written. -/
def readBack (m : Memory) : Memory where
  id := m.id
  type := m.type
  content := trim m.content
  scope := m.scope
  tenantId := truthy m.tenantId
  projectId := truthy m.projectId
  userId := truthy m.userId
  agentId := truthy m.agentId
  tags := m.tags.filter fun t => t ≠ ""
  importance := min 5 (max 1 m.importance)
  confidence := min 1 (max 0 m.confidence)
  trust := m.trust
  source := truthy m.source
  createdAt := (validDate h (some m.createdAt)).getD (epoch h)
  updatedAt := (validDate h (some m.updatedAt)).getD
    ((validDate h (some m.createdAt)).getD (epoch h))
  lastSeen := validDate h (truthy m.lastSeen)
  lastValidated := validDate h (truthy m.lastValidated)
  archivedAt := validDate h (truthy m.archivedAt)
  version := if 1 ≤ m.version then m.version else 1
  provenance := m.provenance
  relations := readRelations h (renderFrontmatter h m)
  retention := m.retention
  owner := some (m.owner.getD .global)
  access := some (m.access.getD .global)
  metaFields := m.metaFields
  validFrom := truthy (validDate h (truthy m.validFrom))
  validUntil := truthy (validDate h (truthy m.validUntil))
  observedAt := truthy (validDate h (truthy m.observedAt))
  supersededBy := truthy m.supersededBy
  embedding := readEmbedding h (renderFrontmatter h m)

variable {h} (m : Memory)

theorem readVersion_render (hv : h.ReadsVersions) :
    readVersion h (renderFrontmatter h m) =
      some (if (truthy m.tenantId).isSome then tenantSchemaVersion else schemaVersion) := by
  have hnum : ∀ z : ℤ, ((z : ℚ).den = 1) ∧ (z : ℚ).num = z := fun z => ⟨rfl, rfl⟩
  by_cases htenant : (truthy m.tenantId).isSome = true
  · simp [readVersion, renderFrontmatter, asStr, htenant, hv.2.1, hnum]
  · simp only [readVersion, renderFrontmatter, asStr, htenant, if_false, hv.1.1, hnum,
      Bool.false_eq_true]
    rfl

theorem badTenantField_map (s : Option String) :
    badTenantField h ((truthy s).map .str) = false ↔ ∀ t ∈ truthy s, isValidTenantId t = true := by
  unfold badTenantField
  cases truthy s with
  | none => simp
  | some t => simp [asStr]

theorem badTenant_render :
    badTenant h (renderFrontmatter h m)
        (if (truthy m.tenantId).isSome then tenantSchemaVersion else schemaVersion) = false ↔
      (∀ t ∈ truthy m.tenantId, isValidTenantId t = true) ∧
      (∀ t ∈ truthy m.projectId, isValidTenantId t = true) ∧
      (∀ t ∈ truthy m.userId, isValidTenantId t = true) ∧
      ∀ t ∈ truthy m.agentId, isValidTenantId t = true := by
  simp only [badTenant, renderFrontmatter, Bool.or_eq_false_iff, badTenantField_map, and_assoc]
  constructor
  · rintro ⟨ht, hp, hu, ha, -⟩
    exact ⟨ht, hp, hu, ha⟩
  · rintro ⟨ht, hp, hu, ha⟩
    refine ⟨ht, hp, hu, ha, ?_⟩
    cases hid : truthy m.tenantId with
    | none => simp [schemaVersion, tenantSchemaVersion]
    | some t => simp [asStr, ht t hid]

theorem badId_render : badId h (renderFrontmatter h m) = false ↔ isIdShape m.id = true := by
  simp [badId, renderFrontmatter, asStr]

theorem readType_render : readType h (renderFrontmatter h m) = some m.type := by
  simp [readType, renderFrontmatter, asStr]

theorem readScope_render : readScope h (renderFrontmatter h m) = m.scope := by
  simp [readScope, renderFrontmatter, asStr]

theorem readTags_render :
    readTags h (renderFrontmatter h m) = m.tags.filter fun t => t ≠ "" := by
  have hmap : (m.tags.map Yaml.str).map (fun t => (asStr h t).getD "") = m.tags := by
    rw [List.map_map]
    exact List.map_id _
  simp only [readTags, renderFrontmatter, hmap]

theorem readImportance_render :
    readImportance h (renderFrontmatter h m) = min 5 (max 1 m.importance) := by
  have hround : ⌊(m.importance : ℚ) + 1 / 2⌋ = m.importance := by
    rw [Int.floor_intCast_add]
    norm_num
  simp only [readImportance, renderFrontmatter, numberOf, hround]

theorem readProvenance_render : readProvenance h (renderFrontmatter h m) = m.provenance := by
  simp only [readProvenance, renderFrontmatter, renderProvenance, parseProvenance_present,
    Option.getD_some]

theorem readConfidence_render (sourceType : SourceType) :
    readConfidence h (renderFrontmatter h m) sourceType = min 1 (max 0 m.confidence) := rfl

theorem readTrust_render (sourceType : SourceType) :
    readTrust h (renderFrontmatter h m) sourceType = m.trust := by
  simp [readTrust, renderFrontmatter, asStr]

theorem readRevision_render :
    readRevision h (renderFrontmatter h m) = if 1 ≤ m.version then m.version else 1 := by
  have hnum : ∀ z : ℤ, ((z : ℚ).den = 1) ∧ (z : ℚ).num = z := fun z => ⟨rfl, rfl⟩
  simp [readRevision, renderFrontmatter, numberOf, hnum]

theorem readMetaFields_render : readMetaFields (renderFrontmatter h m) = m.metaFields := by
  unfold readMetaFields renderFrontmatter
  cases m.metaFields <;> rfl

theorem readDate_map (s : Option String) : readDate h (s.map .str) = validDate h s := by
  rw [readDate, bind_asStr_str]

variable {m} {file : Path}

/-- What is read where a record was written. -/
theorem parse_render (hv : h.ReadsVersions) (hfile : stem file = m.id) (hr : Readable m) :
    parse h file (render h m) = some (readBack h m) := by
  have htenant := (badTenant_render (h := h) m).mpr
    ⟨hr.tenantId, hr.projectId, hr.userId, hr.agentId⟩
  have hid := (badId_render (h := h) m).mpr hr.id
  simp only [parse, render, readVersion_render m hv, htenant, hid, Bool.or_false,
    Bool.false_eq_true, if_false, readType_render, readScope_render, hr.scope,
    trim_append_newline, decide_eq_true_iff, Bool.false_or, hr.content, hfile]
  simp only [readBack, readTags_render, readImportance_render, readProvenance_render,
    readConfidence_render, readTrust_render, readRevision_render, readMetaFields_render]
  simp only [renderFrontmatter, bind_asStr_str, bind_asStr_text, readDate_map, truthy_truthy]
  rfl

/-- Only readable records are read. -/
theorem readable_of_parse (hv : h.ReadsVersions) {r : Memory}
    (hp : parse h file (render h m) = some r) : Readable m := by
  simp only [parse, render, readVersion_render m hv, readType_render, readScope_render,
    trim_append_newline] at hp
  generalize hversion : (if (truthy m.tenantId).isSome then tenantSchemaVersion
    else schemaVersion) = version at hp
  split at hp
  · cases hp
  · rename_i hchecks
    split at hp
    · cases hp
    · rename_i hcontent
      subst hversion
      rw [Bool.or_eq_true, not_or, Bool.not_eq_true, Bool.not_eq_true] at hchecks hcontent
      obtain ⟨htenant, hproject, huser, hagent⟩ := (badTenant_render m).mp hchecks.1
      exact ⟨(badId_render m).mp hchecks.2, hcontent.1, of_decide_eq_false hcontent.2, htenant,
        hproject, huser, hagent⟩

/-! ### Embeddings -/

theorem finiteList_readEmbedding {fm : Frontmatter} {ns : List JsNum}
    (he : readEmbedding h fm = some ns) : ns ≠ [] ∧ finiteList ns = true := by
  simp only [readEmbedding] at he
  split at he
  · rename_i hok
    cases he
    exact hok
  · cases he

/-- The text of a numeral has no comma, no bracket and no white space. -/
theorem Host.Numeral.clean {q : ℚ} (hq : h.Numeral q) {c : Char}
    (hdigit : c.isDigit = false) (hc : c ∉ ['.', '-', '+', 'e']) :
    c ∉ (h.numText (.finite q)).toList := by
  intro hmem
  rcases hq.2 c hmem with hd | hd
  · rw [hdigit] at hd
    cases hd
  · exact hc hd

theorem Host.Numeral.trim {q : ℚ} (hq : h.Numeral q) :
    Jobs.trim (h.numText (.finite q)) = h.numText (.finite q) := by
  refine trim_eq_self fun c hc => ?_
  rcases hq.2 c hc with hd | hd
  · have hrange : 48 ≤ c.toNat ∧ c.toNat ≤ 57 := by
      simpa [Char.isDigit, UInt32.le_iff_toNat_le] using hd
    simp only [isTrimmed, List.mem_cons, List.not_mem_nil, or_false, Bool.or_eq_false_iff,
      decide_eq_false_iff_not, Bool.and_eq_false_iff]
    omega
  · simp only [List.mem_cons, List.not_mem_nil, or_false] at hd
    rcases hd with rfl | rfl | rfl | rfl <;> decide

/-- A vector of finite numbers reads back. -/
theorem readEmbedding_render {ns : List JsNum} (hm : m.embedding = some ns) (hne : ns ≠ [])
    (hfin : finiteList ns = true) (hnum : ∀ q, .finite q ∈ ns → h.Numeral q) :
    readEmbedding h (renderFrontmatter h m) = some ns := by
  have hnumeral : ∀ n ∈ ns, ∃ q, n = .finite q ∧ h.Numeral q := by
    intro n hn
    have hf := List.all_eq_true.mp hfin n hn
    cases n with
    | finite q => exact ⟨q, rfl, hnum q hn⟩
    | _ => cases hf
  have hclean : ∀ {c : Char}, c.isDigit = false → c ∉ ['.', '-', '+', 'e'] →
      ∀ text ∈ ns.map h.numText, c ∉ text.toList := by
    intro c hdigit hc text htext
    obtain ⟨n, hn, rfl⟩ := List.mem_map.mp htext
    obtain ⟨q, rfl, hq⟩ := hnumeral n hn
    exact hq.clean hdigit hc
  have hbracket : ∀ {c : Char}, c.isDigit = false → c ∉ ['.', '-', '+', 'e'] → c ≠ ',' →
      c ∉ (joinComma (ns.map h.numText)).toList := by
    intro c hdigit hc hcomma hmem
    rw [joinComma, String.toList_ofList] at hmem
    rcases mem_intercalate hmem with rfl | ⟨l, hl, hcl⟩
    · exact hcomma rfl
    · obtain ⟨text, htext, rfl⟩ := List.mem_map.mp hl
      exact hclean hdigit hc text htext hcl
  have hsplit : splitComma (joinComma (ns.map h.numText)) = ns.map h.numText :=
    splitComma_joinComma (by simpa using hne) (hclean (by decide) (by decide))
  have hback : (ns.map h.numText).map (fun n => h.toNumber (Jobs.trim n)) = ns := by
    rw [List.map_map]
    refine (List.map_congr_left fun n hn => ?_).trans (List.map_id _)
    obtain ⟨q, rfl, hq⟩ := hnumeral n hn
    change h.toNumber (Jobs.trim (h.numText (.finite q))) = _
    rw [hq.trim, hq.1]
    rfl
  have hstrip := stripBrackets_eq_self (hbracket (by decide) (by decide) (by decide))
    (hbracket (by decide) (by decide) (by decide))
  have hfm : (renderFrontmatter h m).embedding = some (.str (joinComma (ns.map h.numText))) := by
    simp [renderFrontmatter, hm, hne, Option.filter]
  simp only [readEmbedding, embeddingNumbers, hfm, hstrip, hsplit, hback]
  rw [if_pos ⟨hne, hfin⟩]

end ReadBack

/-! ### Stored inputs -/

section Stored
variable (h : Host)

/-- The provenance has every text that the input's provenance has. -/
structure SuppliedProvenance (p : ProvenanceInput) (r : Provenance) : Prop where
  sourceType : ∀ v ∈ p.sourceType, r.sourceType = v
  sessionId : ∀ v ∈ p.sessionId, r.sessionId = some v
  messageId : ∀ v ∈ p.messageId, r.messageId = some v
  agentId : ∀ v ∈ p.agentId, r.agentId = some v
  agentType : ∀ v ∈ p.agentType, r.agentType = some v
  agentVersion : ∀ v ∈ p.agentVersion, r.agentVersion = some v
  conversationId : ∀ v ∈ p.conversationId, r.conversationId = some v
  taskId : ∀ v ∈ p.taskId, r.taskId = some v
  runId : ∀ v ∈ p.runId, r.runId = some v
  provider : ∀ v ∈ p.provider, r.provider = some v

/-- The record has every field that the input, the tenant filter and the embedding supply. -/
structure Supplied (input : StoreInput) (embedding : Option (List JsNum))
    (tenant : Option TenantFilter) (r : Memory) : Prop where
  type : r.type = input.type
  content : r.content = input.content
  scope : r.scope = input.scope
  tags : r.tags = input.tags
  importance : r.importance = input.importance
  source : ∀ v ∈ input.source, r.source = some v
  confidence : ∀ v ∈ input.confidence, r.confidence = v
  trust : ∀ v ∈ input.trust, r.trust = v
  retention : ∀ v ∈ input.retention, r.retention = some v
  provenance : ∀ p ∈ input.provenance, SuppliedProvenance p r.provenance
  owner : ∀ v ∈ input.owner, r.owner = some v
  access : ∀ v ∈ input.access, r.access = some v
  metaFields : ∀ v ∈ input.metaFields, r.metaFields = some v
  sensitivity : ∀ v ∈ input.sensitivity, r.sensitivity = some v
  legalHold : ∀ v ∈ input.legalHold, r.legalHold = some v
  validFrom : ∀ v ∈ input.validFrom, r.validFrom = some v
  validUntil : ∀ v ∈ input.validUntil, r.validUntil = some v
  observedAt : ∀ v ∈ input.observedAt, r.observedAt = some v
  supersededBy : ∀ v ∈ input.supersededBy, r.supersededBy = some v
  embedding : ∀ v ∈ embedding, r.embedding = some v
  tenantId : ∀ t ∈ tenant, r.tenantId = some t.organizationId.1
  projectId : ∀ t ∈ tenant, ∀ v ∈ t.projectId, r.projectId = some v.1
  userId : ∀ t ∈ tenant, ∀ v ∈ t.userId, r.userId = some v.1
  agentId : ∀ t ∈ tenant, ∀ v ∈ t.agentId, r.agentId = some v.1

/-- The file that a stored record is rendered to parses to that record, with every supplied field. -/
def RoundTrips (root : Root) (configured : Option String) (now : ℤ) (id : String)
    (input : StoreInput) (embedding : Option (List JsNum)) (tenant : Option TenantFilter) : Prop :=
  let memory := storeRecord h configured now id input embedding tenant
  ∃ file r, fileFor root memory = .ok file ∧ parse h file (render h memory) = some r ∧
    r = memory ∧ Supplied input embedding tenant r

/-- The texts of a provenance. -/
def ProvenanceInput.texts (p : ProvenanceInput) : List (Option String) :=
  [p.sessionId, p.messageId, p.agentId, p.agentType, p.agentVersion, p.conversationId, p.taskId,
    p.runId, p.provider]

/-- The timestamp is the text that reading it gives. -/
def Canonical (v : String) : Prop := validDate h (some v) = some v

/-- The inputs that a file keeps as they are. -/
structure Preserved (input : StoreInput) (embedding : Option (List JsNum)) : Prop where
  content : trim input.content = input.content
  scope : input.scope ≠ "" ∧ '\\' ∉ input.scope.toList
  tags : "" ∉ input.tags
  source : input.source ≠ some ""
  supersededBy : input.supersededBy ≠ some ""
  provenance : ∀ p ∈ input.provenance, some "" ∉ p.texts
  validFrom : ∀ v ∈ input.validFrom, Canonical h v
  validUntil : ∀ v ∈ input.validUntil, Canonical h v
  observedAt : ∀ v ∈ input.observedAt, Canonical h v
  sensitivity : input.sensitivity = none
  legalHold : input.legalHold = none
  embedding : ∀ ns ∈ embedding, ns ≠ [] ∧ finiteList ns = true

variable {h} {root : Root} {configured : Option String} {now : ℤ} {id : String}
  {input : StoreInput} {embedding : Option (List JsNum)} {tenant : Option TenantFilter}

theorem isValid_map_tenantId {o : Option TenantId} {s : String}
    (hs : s ∈ truthy (o.map fun t => t.1)) : isValidTenantId s = true := by
  obtain ⟨ho, -⟩ := Option.filter_eq_some_iff.mp hs
  obtain ⟨t, -, rfl⟩ := Option.map_eq_some_iff.mp ho
  exact t.2

/-- A tenant id is not the empty text. -/
theorem truthy_map_tenantId (o : Option TenantId) :
    truthy (o.map fun t => t.1) = o.map fun t => t.1 := by
  rw [truthy_eq_self]
  intro he
  obtain ⟨t, -, ht⟩ := Option.map_eq_some_iff.mp he
  have hvalid := t.2
  rw [ht] at hvalid
  exact absurd hvalid (by decide)

/-- A record of a filter's organization belongs to the filter's tree. -/
theorem baseRoot_of_tenant (root : Root) {m : Memory}
    (h : truthy m.tenantId = tenant.map fun t => t.organizationId.1) :
    baseRoot root m = .ok (treeRoot root tenant) := by
  rw [baseRoot, h]
  cases tenant with
  | none => rfl
  | some t =>
    have hvalid : isValidTenantId t.organizationId.1 = true := t.organizationId.2
    simp only [Option.map_some, tenantPath, tenantDirectoryKey, hvalid, if_true]
    rfl

theorem baseRoot_storeRecord (root : Root) :
    baseRoot root (storeRecord h configured now id input embedding tenant) =
      .ok (treeRoot root tenant) := by
  refine baseRoot_of_tenant root ?_
  have htenant : tenant.map (fun t => t.organizationId.1) =
      (tenant.map fun t => t.organizationId).map fun t => t.1 := by
    rw [Option.map_map]
    rfl
  rw [storeRecord, htenant, truthy_map_tenantId]

/-- A stored record has a file, named after its id. -/
theorem fileFor_storeRecord (hscope : isSafeScope input.scope = true) (hid : isIdShape id = true) :
    ∃ file, fileFor root (storeRecord h configured now id input embedding tenant) = .ok file ∧
      stem file = id := by
  have hne : id ≠ "" := by
    rintro rfl
    exact absurd hid (by decide)
  exact ⟨_, fileFor_eq (baseRoot_storeRecord root) hscope hid, stem_concat hne⟩

/-- A map that keeps the separator, and nothing else becomes it, maps the parts. -/
theorem splitOn_map {f : Char → Char} {sep : Char} (hf : ∀ c, f c = sep ↔ c = sep)
    (l : List Char) : (l.map f).splitOn sep = (l.splitOn sep).map (List.map f) := by
  induction l with
  | nil => rfl
  | cons c l ih =>
    rw [List.map_cons, List.splitOn_cons_eq_if_modifyHead, List.splitOn_cons_eq_if_modifyHead, ih]
    by_cases hc : c = sep
    · rw [if_pos (beq_iff_eq.mpr hc), if_pos (beq_iff_eq.mpr ((hf c).mpr hc))]
      rfl
    · have hfc : ¬ f c = sep := fun h => hc ((hf c).mp h)
      rw [if_neg (by simpa using hfc), if_neg (by simpa using hc)]
      cases l.splitOn sep <;> rfl

/-- A safe scope without a backslash is one the reader takes, unless it is empty. -/
theorem badScope_of_safe {scope : String} (hsafe : isSafeScope scope = true) (hne : scope ≠ "")
    (hslash : '\\' ∉ scope.toList) : badScope scope = false := by
  have hdots : ".." ∉ segments scope := by
    intro hmem
    by_cases hglobal : scope = "global"
    · subst hglobal
      exact absurd hmem (by decide)
    · simp only [isSafeScope, hglobal, decide_false, Bool.false_or, decide_eq_true_iff] at hsafe
      refine hsafe ?_
      obtain ⟨s, hs, hdot⟩ := List.mem_map.mp hmem
      have hkeep : ∀ c, (if isScopeChar c then c else '_') = '/' ↔ c = '/' := by
        intro c
        by_cases hc : isScopeChar c = true
        · rw [if_pos hc]
        · rw [if_neg hc]
          constructor
          · intro h
            exact absurd h (by decide)
          · rintro rfl
            exact absurd rfl hc
      rw [segments, normalizeScope, String.toList_ofList, splitOn_map hkeep]
      refine List.mem_map.mpr ⟨_, List.mem_map.mpr ⟨s, hs, rfl⟩, ?_⟩
      have hs' : s = ['.', '.'] := by
        have := congrArg String.toList hdot
        rwa [String.toList_ofList] at this
      subst hs'
      decide
  simp only [badScope, hne, hdots, hslash, decide_false, Bool.or_false]

/-- The other way round: what the reader takes. -/
theorem badScope_eq_false {scope : String} (h : badScope scope = false) :
    scope ≠ "" ∧ '\\' ∉ scope.toList := by
  simp only [badScope, Bool.or_eq_false_iff, decide_eq_false_iff_not] at h
  exact ⟨h.1.1, h.2⟩

/-! ### Exactly the preserved inputs come back -/

theorem canonical_of_readBack {v : String} {o : Option String} (ho : o = some v)
    (hr : truthy (validDate h (truthy o)) = some v) : Canonical h v := by
  subst ho
  obtain ⟨hv, hne⟩ := Option.filter_eq_some_iff.mp hr
  have htruthy : truthy (some v) = some v :=
    truthy_eq_self.mpr fun he => of_decide_eq_true hne (Option.some.inj he)
  rw [htruthy] at hv
  exact hv

theorem ne_empty_of_truthy {o : Option String} (hs : ∀ v ∈ o, truthy o = some v) : o ≠ some "" := by
  intro he
  have := hs "" he
  rw [he] at this
  cases this

/-- A provenance that comes back whole had no empty text. -/
theorem texts_of_supplied {p : ProvenanceInput} (hp : SuppliedProvenance p (newProvenance (some p))) :
    some "" ∉ p.texts := by
  have hfield : ∀ field : ProvenanceInput → Option String,
      (∀ v ∈ field p, provenanceText (some p) field = some v) → some "" ≠ field p :=
    fun field hs he => ne_empty_of_truthy hs he.symm
  simp only [ProvenanceInput.texts, List.mem_cons, List.not_mem_nil, or_false, not_or]
  exact ⟨hfield _ hp.sessionId, hfield _ hp.messageId, hfield _ hp.agentId, hfield _ hp.agentType,
    hfield _ hp.agentVersion, hfield _ hp.conversationId, hfield _ hp.taskId, hfield _ hp.runId,
    hfield _ hp.provider⟩

theorem supplied_of_texts {p : ProvenanceInput} (hp : some "" ∉ p.texts) :
    SuppliedProvenance p (newProvenance (some p)) := by
  have hfield : ∀ field : ProvenanceInput → Option String, field p ∈ p.texts →
      ∀ v ∈ field p, provenanceText (some p) field = some v := by
    intro field hmem v hv
    have hne : field p ≠ some "" := fun he => hp (he ▸ hmem)
    exact (truthy_eq_self.mpr hne).trans hv
  refine ⟨?_, hfield _ ?_, hfield _ ?_, hfield _ ?_, hfield _ ?_, hfield _ ?_, hfield _ ?_,
    hfield _ ?_, hfield _ ?_, hfield _ ?_⟩
  · intro v hv
    have : p.sourceType = some v := hv
    simp [newProvenance, this]
  all_goals simp [ProvenanceInput.texts]

/-- Whatever comes back as it was stored is preserved. -/
theorem preserved_of_roundTrips (hin : input.Accepted h) (hid : isIdShape id = true)
    (hv : h.ReadsVersions)
    (hrt : RoundTrips h root configured now id input embedding tenant) :
    Preserved h input embedding := by
  obtain ⟨file, r, hfile, hparse, rfl, hs⟩ := hrt
  have hstem : stem file = id := by
    have hexists : ∃ file, fileFor root
        (storeRecord h configured now id input embedding tenant) = .ok file ∧ stem file = id :=
      fileFor_storeRecord hin.scope hid
    obtain ⟨file', hfile', hstem⟩ := hexists
    rw [hfile, Except.ok.injEq] at hfile'
    exact hfile' ▸ hstem
  have hread := readable_of_parse hv hparse
  have hback : readBack h (storeRecord h configured now id input embedding tenant) =
      storeRecord h configured now id input embedding tenant := by
    rw [parse_render hv hstem hread, Option.some.injEq] at hparse
    exact hparse
  have htags : (input.tags.filter fun t => t ≠ "") = input.tags := congrArg Memory.tags hback
  have hsource : truthy input.source = input.source := congrArg Memory.source hback
  have hembedding := congrArg Memory.embedding hback
  refine {
    content := congrArg Memory.content hback
    scope := badScope_eq_false hread.scope
    tags := fun hmem => ?_
    source := truthy_eq_self.mp hsource
    supersededBy := ne_empty_of_truthy hs.supersededBy
    provenance := fun p hp => texts_of_supplied ?_
    validFrom := fun v hvf => ?_
    validUntil := fun v hvu => ?_
    observedAt := fun v hvo => ?_
    sensitivity := ?_
    legalHold := ?_
    embedding := fun ns hns => ?_ }
  · have := List.filter_eq_self.mp htags "" hmem
    simp at this
  · have hsupplied := hs.provenance p hp
    rw [Option.mem_def] at hp
    simpa only [storeRecord, hp] using hsupplied
  · refine canonical_of_readBack (hs.validFrom v hvf) ?_
    exact (congrArg Memory.validFrom hback).trans (hs.validFrom v hvf)
  · refine canonical_of_readBack (hs.validUntil v hvu) ?_
    exact (congrArg Memory.validUntil hback).trans (hs.validUntil v hvu)
  · refine canonical_of_readBack (hs.observedAt v hvo) ?_
    exact (congrArg Memory.observedAt hback).trans (hs.observedAt v hvo)
  · cases hsens : input.sensitivity with
    | none => rfl
    | some v => exact absurd (hs.sensitivity v hsens) (by simp [storeRecord])
  · cases hhold : input.legalHold with
    | none => rfl
    | some v => exact absurd (hs.legalHold v hhold) (by simp [storeRecord])
  · refine finiteList_readEmbedding (hembedding.trans ?_)
    exact hns

theorem readable_storeRecord (hin : input.Accepted h) (hid : isIdShape id = true)
    (hp : Preserved h input embedding) :
    Readable (storeRecord h configured now id input embedding tenant) where
  id := hid
  scope := badScope_of_safe hin.scope hp.scope.1 hp.scope.2
  content := by
    change trim input.content ≠ ""
    rw [hp.content]
    exact hin.content
  tenantId := by
    have hmap : tenant.map (fun t => t.organizationId.1) =
        (tenant.map fun t => t.organizationId).map fun t => t.1 := (Option.map_map ..).symm
    intro t ht
    change t ∈ truthy (tenant.map fun t => t.organizationId.1) at ht
    rw [hmap] at ht
    exact isValid_map_tenantId ht
  projectId := fun _ => isValid_map_tenantId
  userId := fun _ => isValid_map_tenantId
  agentId := fun _ => isValid_map_tenantId

/-- A canonical timestamp of the input comes back. -/
theorem readBack_date {o : Option String} (hiso : ∀ v ∈ o, isIsoInstant h v = true)
    (hc : ∀ v ∈ o, Canonical h v) : truthy (validDate h (truthy o)) = truthy o := by
  have ho : truthy o = o := by
    refine truthy_eq_self.mpr fun he => ?_
    have hzone : isIsoInstant h "" = true := hiso "" he
    simp only [isIsoInstant, Bool.and_eq_true] at hzone
    exact absurd hzone.1 (by decide)
  rw [ho]
  cases o with
  | none => exact ho
  | some v =>
    rw [hc v rfl]
    exact ho

theorem readBack_storeRecord (hin : input.Accepted h) (hp : Preserved h input embedding)
    (hnow : h.dateParse (h.toISOString now) = some now)
    (hnum : ∀ ns ∈ embedding, ∀ q, .finite q ∈ ns → h.Numeral q) :
    readBack h (storeRecord h configured now id input embedding tenant) =
      storeRecord h configured now id input embedding tenant := by
  have htags : (input.tags.filter fun t => t ≠ "") = input.tags := by
    refine List.filter_eq_self.mpr fun t ht => ?_
    rw [decide_eq_true_iff]
    rintro rfl
    exact hp.tags ht
  have himportance : min 5 (max 1 input.importance) = input.importance := by
    have := hin.importance
    omega
  have hconfidence : ∀ s, min 1 (max 0 (input.confidence.getD (defaultConfidence s))) =
      input.confidence.getD (defaultConfidence s) := by
    intro s
    cases hc : input.confidence with
    | none =>
      unfold defaultConfidence
      split <;> norm_num
    | some c =>
      obtain ⟨h0, h1⟩ := hin.confidence c hc
      rw [Option.getD_some, max_eq_right h0, min_eq_right h1]
  have hdate : validDate h (some (h.toISOString now)) = some (h.toISOString now) := by
    simp [validDate, hnow]
  have horg : truthy (tenant.map fun t => t.organizationId.1) =
      tenant.map fun t => t.organizationId.1 := by
    have hmap : tenant.map (fun t => t.organizationId.1) =
        (tenant.map fun t => t.organizationId).map fun t => t.1 := (Option.map_map ..).symm
    rw [hmap]
    exact truthy_map_tenantId _
  have hembedding : readEmbedding h (renderFrontmatter h
      (storeRecord h configured now id input embedding tenant)) = embedding := by
    cases hns : embedding with
    | none => rfl
    | some ns =>
      obtain ⟨hne, hfin⟩ := hp.embedding ns hns
      exact readEmbedding_render rfl hne hfin (hnum ns hns)
  have hrelations : readRelations h (renderFrontmatter h
      (storeRecord h configured now id input embedding tenant)) = none := rfl
  simp only [readBack, hembedding, hrelations]
  simp only [storeRecord, hp.content, htags, himportance, hconfidence, hdate, horg,
    truthy_map_tenantId, truthy_eq_self.mpr hp.source, truthy_truthy,
    readBack_date hin.validFrom hp.validFrom, readBack_date hin.validUntil hp.validUntil,
    readBack_date hin.observedAt hp.observedAt, Option.getD_some, truthy_none]
  rfl

theorem supplied_storeRecord (hin : input.Accepted h) (hp : Preserved h input embedding) :
    Supplied input embedding tenant
      (storeRecord h configured now id input embedding tenant) := by
  have hdate : ∀ {o : Option String}, (∀ v ∈ o, isIsoInstant h v = true) → ∀ v ∈ o,
      truthy o = some v := by
    intro o hiso v hv
    refine (truthy_eq_self.mpr fun he => ?_).trans hv
    have hzone : isIsoInstant h "" = true := hiso "" he
    simp only [isIsoInstant, Bool.and_eq_true] at hzone
    exact absurd hzone.1 (by decide)
  have hsensitivity : ∀ v, v ∉ input.sensitivity := by simp [hp.sensitivity]
  have hlegalHold : ∀ v, v ∉ input.legalHold := by simp [hp.legalHold]
  constructor
  case provenance =>
    intro p hmem
    rw [Option.mem_def] at hmem
    simpa only [storeRecord, hmem] using supplied_of_texts (hp.provenance p hmem)
  case sensitivity => exact fun v hv => absurd hv (hsensitivity v)
  case legalHold => exact fun v hv => absurd hv (hlegalHold v)
  case validFrom => exact hdate hin.validFrom
  case validUntil => exact hdate hin.validUntil
  case observedAt => exact hdate hin.observedAt
  case supersededBy => exact fun v hv => (truthy_eq_self.mpr hp.supersededBy).trans hv
  all_goals intros; simp_all [storeRecord]

end Stored

/-! ### Two inputs -/

/-- A platform on which the clock reads the first instant of 2026. -/
def newYear : Host where
  dateParse s := if s = "2026-01-01T00:00:00.000Z" then some 1767225600000 else none
  toISOString t := if t = 1767225600000 then "2026-01-01T00:00:00.000Z" else ""
  numText n := if n = .finite 3 then "3" else if n = .finite 4 then "4" else "0"
  toNumber s := if s = "3" then .finite 3 else if s = "4" then .finite 4 else .finite 0
  objText _ := "[object Object]"

theorem readsVersions_newYear : newYear.ReadsVersions := by
  have hthree : newYear.numText (.finite schemaVersion) = "3" := by decide +kernel
  have hfour : newYear.numText (.finite tenantSchemaVersion) = "4" := by decide +kernel
  refine ⟨⟨by decide +kernel, ?_⟩, by decide +kernel, ?_⟩
  · rw [hthree]
    simp
  · rw [hfour]
    simp

def dataRoot : Root := ⟨["data", ".remembra"], by decide, by decide⟩

/-- An input as a client sends it. -/
def preference : StoreInput :=
  { type := .preference, content := "Prefers short answers.", tags := ["style"],
    source := some "chat", provenance := some { sessionId := some "s-1" } }

def indented : StoreInput := { type := .fact, content := "  indented" }

theorem accepted_indented : indented.Accepted newYear := by
  constructor <;> decide

end Remembra.Store
