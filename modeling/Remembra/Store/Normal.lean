import Remembra.Lib.Delimited
import Remembra.Store.Sound

/-! What reading a file makes of it, from the text. A file is cut at its `---` lines and the part between
    them is read as YAML, or line by line where YAML refuses it; `parse` takes the fields from there. The
    record it leaves is valid, and reading it again after writing it changes nothing, exactly when the
    file is named by an id and the record has no empty `source`. -/

namespace Remembra.Store
open Jobs (trim isTrimmed)

/-! ### Texts of files -/

/-- What the store uses of the YAML library; `none` is a text that YAML refuses. -/
structure YamlLib where
  parse : String → Option Yaml
  stringify : Yaml → String

/-- The text without the white space at its end. -/
def trimEnd (s : String) : String := .ofList (s.toList.rdropWhile isTrimmed)

/-- What stands before the first `sep`, and what follows it. -/
def cutAt (sep : List Char) : List Char → Option (List Char × List Char)
  | [] => none
  | c :: l =>
    if sep.isPrefixOf (c :: l) then some ([], (c :: l).drop sep.length)
    else (cutAt sep l).map fun cut => (c :: cut.1, cut.2)

def fence : List Char := ['\n', '-', '-', '-', '\n']

/-- `/^---\n([\s\S]*?)\n---\n\n?([\s\S]*)$/` -/
def splitFrontmatter (raw : String) : Option (String × String) :=
  match raw.toList with
  | '-' :: '-' :: '-' :: '\n' :: l => (cutAt fence l).map fun (head, body) =>
    (.ofList head, .ofList (if body.head? = some '\n' then body.tail else body))
  | _ => none

/-- A line `key: value`; an object takes no `__proto__`. -/
def legacyEntry (line : List Char) : Option (String × Yaml) :=
  if ':' ∈ line then
    let key := trim (.ofList (line.takeWhile (· ≠ ':')))
    if key = "__proto__" then none
    else some (key, .str (trim (.ofList (line.dropWhile (· ≠ ':')).tail)))
  else none

/-- The line reader of older files: a key's last line counts. -/
def legacyFrontmatter (text : String) : List (String × Yaml) :=
  ((text.toList.splitOn '\n').filterMap legacyEntry).reverse

/-- The keys that `parse` looks at. -/
def frontmatterOf (fields : List (String × Yaml)) : Frontmatter where
  id := fields.lookup "id"
  version := fields.lookup "version"
  revision := fields.lookup "revision"
  type := fields.lookup "type"
  scope := fields.lookup "scope"
  tags := fields.lookup "tags"
  importance := fields.lookup "importance"
  confidence := fields.lookup "confidence"
  trust := fields.lookup "trust"
  created := fields.lookup "created"
  updated := fields.lookup "updated"
  tenantId := fields.lookup "tenantId"
  projectId := fields.lookup "projectId"
  userId := fields.lookup "userId"
  agentId := fields.lookup "agentId"
  lastSeen := fields.lookup "lastSeen"
  lastValidated := fields.lookup "lastValidated"
  archivedAt := fields.lookup "archivedAt"
  source := fields.lookup "source"
  provenance := fields.lookup "provenance"
  owner := fields.lookup "owner"
  access := fields.lookup "access"
  metaFields := fields.lookup "meta"
  validFrom := fields.lookup "validFrom"
  validUntil := fields.lookup "validUntil"
  observedAt := fields.lookup "observedAt"
  supersededBy := fields.lookup "supersededBy"
  retention := fields.lookup "retention"
  relations := fields.lookup "relations"
  related := fields.lookup "related"
  embedding := fields.lookup "embedding"

/-- The keys of a frontmatter in the order in which `render` writes them. -/
def frontmatterFields (fm : Frontmatter) : List (String × Option Yaml) :=
  [("id", fm.id), ("version", fm.version), ("revision", fm.revision), ("type", fm.type),
   ("scope", fm.scope), ("tags", fm.tags), ("importance", fm.importance),
   ("confidence", fm.confidence), ("trust", fm.trust), ("created", fm.created),
   ("updated", fm.updated), ("tenantId", fm.tenantId), ("projectId", fm.projectId),
   ("userId", fm.userId), ("agentId", fm.agentId), ("lastSeen", fm.lastSeen),
   ("lastValidated", fm.lastValidated), ("archivedAt", fm.archivedAt), ("source", fm.source),
   ("provenance", fm.provenance), ("owner", fm.owner), ("access", fm.access),
   ("meta", fm.metaFields), ("validFrom", fm.validFrom), ("validUntil", fm.validUntil),
   ("observedAt", fm.observedAt), ("supersededBy", fm.supersededBy), ("retention", fm.retention),
   ("relations", fm.relations), ("related", fm.related), ("embedding", fm.embedding)]

section Text
variable (h : Host) (yaml : YamlLib)

def readText (raw : String) : FileText :=
  match splitFrontmatter raw with
  | none => .other
  | some (head, body) =>
    match yaml.parse head with
    | some (.map fields) => .memory (frontmatterOf fields) body
    | some _ => if trim head = "" then .memory {} body else .other
    | none =>
      match legacyFrontmatter head with
      | [] => .other
      | fields => .memory (frontmatterOf fields) body

/-- The YAML document of a record. -/
def document (m : Memory) : Yaml := .map (present (frontmatterFields (renderFrontmatter h m)))

def renderText (m : Memory) : String :=
  "---\n" ++ trimEnd (yaml.stringify (document h m)) ++ "\n---\n\n" ++ m.content ++ "\n"

def parseText (file : Path) (raw : String) : Option Memory := parse h file (readText yaml raw)

/-- The document reads back from its text without the white space at the end, and no line of the text but
    the first is `---`. -/
structure YamlLib.ReadsBack (doc : Yaml) : Prop where
  parse : yaml.parse (trimEnd (yaml.stringify doc)) = some doc
  unmarked : ¬ fence <:+: (trimEnd (yaml.stringify doc)).toList ++ ['\n']

end Text

/-! ### What is written is cut where it was joined -/

theorem cutAt_append {sep a b : List Char} (hsep : sep ≠ [])
    (hfirst : ∀ x y, a = x ++ y → y ≠ [] → ¬ sep <+: y ++ (sep ++ b)) :
    cutAt sep (a ++ (sep ++ b)) = some (a, b) := by
  induction a with
  | nil =>
    obtain ⟨c, sep, rfl⟩ := List.exists_cons_of_ne_nil hsep
    have hpre : (c :: sep).isPrefixOf (c :: (sep ++ b)) = true := by
      rw [List.isPrefixOf_iff_prefix]
      exact List.prefix_append _ _
    simp [cutAt, hpre]
  | cons c a ih =>
    have hnot : sep.isPrefixOf (c :: (a ++ (sep ++ b))) = false := by
      rw [← Bool.not_eq_true, List.isPrefixOf_iff_prefix]
      exact hfirst [] (c :: a) rfl (List.cons_ne_nil _ _)
    have hrest := ih fun x y hxy => hfirst (c :: x) y (by rw [hxy, List.cons_append])
    rw [List.cons_append, cutAt, if_neg (by rw [hnot]; exact Bool.noConfusion), hrest]
    rfl

/-- Where nothing is cut, the separator is nowhere. -/
theorem not_infix_of_cutAt {sep l : List Char} (hsep : sep ≠ []) (hcut : cutAt sep l = none) :
    ¬ sep <:+: l := by
  induction l with
  | nil => rwa [List.infix_nil]
  | cons c l ih =>
    rw [cutAt] at hcut
    split at hcut
    · cases hcut
    · rename_i hpre
      rw [List.infix_cons_iff, ← List.isPrefixOf_iff_prefix]
      rintro (hp | hin)
      · exact hpre hp
      · exact ih (Option.map_eq_none_iff.mp hcut) hin

/-- A fence that begins inside a text and goes on into the next fence begins with the text's own line. -/
theorem not_fence_prefix {a x y b : List Char} (hmark : ¬ fence <:+: a ++ ['\n']) (ha : a = x ++ y)
    (hy : y ≠ []) : ¬ fence <+: y ++ (fence ++ b) := by
  intro hpre
  have hlong : y.length < 4 := by
    by_contra hlong
    have hpre' : y ++ ['\n'] <+: y ++ (fence ++ b) := by
      rw [List.prefix_append_right_inj]
      exact ⟨['-', '-', '-', '\n'] ++ b, rfl⟩
    have hin : fence <+: y ++ ['\n'] := List.prefix_of_prefix_length_le hpre hpre' (by
      simp only [fence, List.length_append, List.length_cons, List.length_nil]
      omega)
    refine hmark ?_
    rw [ha, List.append_assoc]
    exact hin.isInfix.trans (List.suffix_append _ _).isInfix
  rcases y with _ | ⟨c, _ | ⟨d, _ | ⟨e, _ | ⟨f, y⟩⟩⟩⟩
  · exact hy rfl
  · simp [fence] at hpre
  · simp [fence] at hpre
  · simp [fence] at hpre
  · simp only [List.length_cons] at hlong
    omega

theorem splitFrontmatter_fenced {head : String} (hmark : ¬ fence <:+: head.toList ++ ['\n'])
    (body : String) : splitFrontmatter ("---\n" ++ head ++ "\n---\n\n" ++ body) = some (head, body) := by
  have hlist : ("---\n" ++ head ++ "\n---\n\n" ++ body).toList =
      '-' :: '-' :: '-' :: '\n' :: (head.toList ++ (fence ++ ('\n' :: body.toList))) := by
    simp only [String.toList_append, List.append_assoc]
    rfl
  have hcut : cutAt fence (head.toList ++ (fence ++ ('\n' :: body.toList))) =
      some (head.toList, '\n' :: body.toList) :=
    cutAt_append (by decide) fun x y hxy hy => not_fence_prefix hmark hxy hy
  simp [splitFrontmatter, hlist, hcut]

theorem nodup_frontmatterFields (fm : Frontmatter) : ((frontmatterFields fm).map Prod.fst).Nodup := by
  change ["id", "version", "revision", "type", "scope", "tags", "importance", "confidence", "trust",
    "created", "updated", "tenantId", "projectId", "userId", "agentId", "lastSeen", "lastValidated",
    "archivedAt", "source", "provenance", "owner", "access", "meta", "validFrom", "validUntil",
    "observedAt", "supersededBy", "retention", "relations", "related", "embedding"].Nodup
  decide

/-- The keys of a document are the fields it was written from. -/
theorem frontmatterOf_present (fm : Frontmatter) :
    frontmatterOf (present (frontmatterFields fm)) = fm := by
  cases fm
  simp only [frontmatterOf, Frontmatter.mk.injEq]
  and_intros <;> exact lookup_present (nodup_frontmatterFields _) (by simp [frontmatterFields])

/-- Reading the text of a record is reading the record that was rendered. -/
theorem parseText_renderText {h : Host} {yaml : YamlLib} {m : Memory} (file : Path)
    (hyaml : yaml.ReadsBack (document h m)) :
    parseText h yaml file (renderText h yaml m) = parse h file (render h m) := by
  have hsplit : splitFrontmatter (renderText h yaml m) =
      some (trimEnd (yaml.stringify (document h m)), m.content ++ "\n") := by
    rw [renderText, String.append_assoc]
    exact splitFrontmatter_fenced hyaml.unmarked _
  have hfields : frontmatterOf (present (frontmatterFields (renderFrontmatter h m))) =
      renderFrontmatter h m := frontmatterOf_present _
  simp only [parseText, readText, hsplit, hyaml.parse]
  rw [document]
  simp only [hfields, render]

/-! ### What reading leaves -/

section Read
variable (h : Host)

/-- Dates that are written read the same, the epoch among them. -/
structure Host.ReadsInstants : Prop extends h.ReadsDates where
  epoch : h.dateParse (h.toISOString 0) = some 0

/-- A legal record: what a field holds beyond its type. -/
structure Valid (m : Memory) : Prop where
  importance : 1 ≤ m.importance ∧ m.importance ≤ 5
  confidence : 0 ≤ m.confidence ∧ m.confidence ≤ 1
  revision : 1 ≤ m.version
  createdAt : Canonical h m.createdAt
  updatedAt : Canonical h m.updatedAt
  dates : ∀ o ∈ [m.lastSeen, m.lastValidated, m.archivedAt, m.validFrom, m.validUntil, m.observedAt],
    ∀ d ∈ o, Canonical h d
  relations : ∀ rs ∈ m.relations, ∀ r ∈ rs, isIdShape r.id = true
  embedding : ∀ ns ∈ m.embedding, finiteList ns = true

/-- What else `parse` leaves in a record that it reads. -/
structure Normal (m : Memory) : Prop extends Valid h m where
  content : trim m.content = m.content ∧ m.content ≠ ""
  scope : badScope m.scope = false
  tags : "" ∉ m.tags
  tenant : ∀ o ∈ [m.tenantId, m.projectId, m.userId, m.agentId], ∀ t ∈ o, isValidTenantId t = true
  supersededBy : m.supersededBy ≠ some ""
  owner : m.owner.isSome = true
  access : m.access.isSome = true
  noRelations : m.relations ≠ some []
  noNumbers : m.embedding ≠ some []
  unread : m.sensitivity = none ∧ m.legalHold = none

variable {h}

theorem readImportance_bounds (fm : Frontmatter) :
    1 ≤ readImportance h fm ∧ readImportance h fm ≤ 5 := by
  simp only [readImportance]
  split <;> omega

theorem readConfidence_bounds (fm : Frontmatter) (sourceType : SourceType) :
    0 ≤ readConfidence h fm sourceType ∧ readConfidence h fm sourceType ≤ 1 := by
  unfold readConfidence
  split
  · exact ⟨le_min zero_le_one (le_max_left _ _), min_le_left _ _⟩
  · unfold defaultConfidence
    split <;> norm_num

theorem readRevision_pos (fm : Frontmatter) : 1 ≤ readRevision h fm := by
  unfold readRevision
  split
  · split
    · rename_i hq
      exact hq.2
    · exact le_refl _
  · exact le_refl _

theorem not_mem_readTags (fm : Frontmatter) : "" ∉ readTags h fm := by
  unfold readTags
  split
  · simp
  · simp [listItems]
  · exact List.not_mem_nil

theorem isIdShape_of_readRelation {v : Yaml} {r : Relation} (hr : readRelation h v = some r) :
    isIdShape r.id = true := by
  unfold readRelation at hr
  split at hr
  · split at hr
    · split at hr
      · rename_i hid
        obtain ⟨kind, -, rfl⟩ := Option.map_eq_some_iff.mp hr
        exact hid
      · cases hr
    · cases hr
  · cases hr

theorem legal_relations {typed : List Relation} {legacy : List String} {rs : List Relation}
    (htyped : ∀ r ∈ typed, isIdShape r.id = true)
    (hr : (let relations := if typed ≠ [] then typed
        else (legacy.filter isIdShape).map fun id => ⟨id, .related⟩
      if relations = [] then none else some relations) = some rs) :
    rs ≠ [] ∧ ∀ r ∈ rs, isIdShape r.id = true := by
  rw [Option.ite_none_left_eq_some, Option.some.injEq] at hr
  obtain ⟨hne, rfl⟩ := hr
  refine ⟨hne, fun r hmem => ?_⟩
  split at hmem
  · exact htyped r hmem
  · obtain ⟨id, hid, rfl⟩ := List.mem_map.mp hmem
    exact (List.mem_filter.mp hid).2

theorem readRelations_legal {fm : Frontmatter} {rs : List Relation}
    (hr : readRelations h fm = some rs) : rs ≠ [] ∧ ∀ r ∈ rs, isIdShape r.id = true := by
  unfold readRelations at hr
  refine legal_relations (fun r hmem => ?_) hr
  split at hmem
  · obtain ⟨v, -, hv⟩ := List.mem_filterMap.mp hmem
    exact isIdShape_of_readRelation hv
  · cases hmem

/-- A date that is read is canonical. -/
theorem canonical_of_validDate (hd : h.ReadsInstants) {v : Option String} {d : String}
    (hv : validDate h v = some d) : Canonical h d := by
  obtain ⟨t, ht, rfl⟩ := Option.map_eq_some_iff.mp hv
  obtain ⟨s, -, hs⟩ := Option.bind_eq_some_iff.mp ht
  simp [Canonical, validDate, hd.again s t hs]

theorem canonical_epoch (hd : h.ReadsInstants) : Canonical h (epoch h) := by
  simp [Canonical, validDate, epoch, hd.epoch]

theorem Canonical.ne_empty (hd : h.ReadsInstants) {d : String} (hc : Canonical h d) : d ≠ "" := by
  rintro rfl
  simp [Canonical, validDate, hd.empty] at hc

theorem valid_of_badTenantField {v : Option Yaml} (hv : badTenantField h v = false) :
    ∀ t ∈ truthy (v.bind (asStr h)), isValidTenantId t = true := by
  intro t ht
  obtain ⟨hb, -⟩ := Option.filter_eq_some_iff.mp ht
  obtain ⟨y, rfl, hy⟩ := Option.bind_eq_some_iff.mp hb
  simpa [badTenantField, hy] using hv

theorem trim_eq_strip (s : String) : trim s = .ofList (Delimited.strip isTrimmed s.toList) := rfl

theorem trim_trim (s : String) : trim (trim s) = trim s := by
  rw [trim_eq_strip (trim s), trim_eq_strip s, String.toList_ofList, Delimited.strip_strip]

/-- Reading normalizes. -/
theorem normal_of_parse (hd : h.ReadsInstants) {file : Path} {text : FileText} {m : Memory}
    (hm : parse h file text = some m) : Normal h m ∧ m.id = stem file := by
  cases text with
  | other => cases hm
  | memory fm body =>
    simp only [parse] at hm
    split at hm
    · cases hm
    split at hm
    · cases hm
    rename_i hchecks
    split at hm
    · cases hm
    split at hm
    · cases hm
    rename_i hcontent
    rw [Option.some.injEq] at hm
    subst hm
    simp only [badTenant, Bool.or_eq_true, not_or, Bool.not_eq_true] at hchecks hcontent
    obtain ⟨⟨⟨⟨⟨htenant, hproject⟩, huser⟩, hagent⟩, -⟩, -⟩ := hchecks
    have hdate : ∀ {v : Option Yaml} {d : String}, readDate h v = some d → Canonical h d :=
      canonical_of_validDate hd
    have hcreated : Canonical h ((readDate h fm.created).getD (epoch h)) := by
      cases hc : readDate h fm.created with
      | none => exact canonical_epoch hd
      | some d => exact hdate hc
    refine ⟨?_, rfl⟩
    constructor
    case toValid =>
      constructor
      case importance => exact readImportance_bounds fm
      case confidence => exact readConfidence_bounds fm _
      case revision => exact readRevision_pos fm
      case createdAt => exact hcreated
      case updatedAt =>
        cases hu : readDate h fm.updated with
        | none => exact hcreated
        | some d => exact hdate hu
      case dates =>
        have htruthy : ∀ {v : Option Yaml}, ∀ d ∈ truthy (readDate h v), Canonical h d :=
          fun d hv => hdate (Option.filter_eq_some_iff.mp hv).1
        simp only [List.forall_mem_cons]
        exact ⟨fun d => hdate, fun d => hdate, fun d => hdate, htruthy, htruthy, htruthy,
          List.forall_mem_nil _⟩
      case relations => exact fun rs hrs => (readRelations_legal hrs).2
      case embedding => exact fun ns hns => (finiteList_readEmbedding hns).2
    case content => exact ⟨trim_trim body, by simpa using hcontent.2⟩
    case scope => exact hcontent.1
    case tags => exact not_mem_readTags fm
    case tenant =>
      simp only [List.forall_mem_cons]
      exact ⟨valid_of_badTenantField htenant, valid_of_badTenantField hproject,
        valid_of_badTenantField huser, valid_of_badTenantField hagent, List.forall_mem_nil _⟩
    case supersededBy => exact truthy_eq_self.mp (truthy_truthy _)
    case owner => rfl
    case access => rfl
    case noRelations => exact fun hr => (readRelations_legal hr).1 rfl
    case noNumbers => exact fun hn => (finiteList_readEmbedding hn).1 rfl
    case unread => exact ⟨rfl, rfl⟩

/-! ### Writing what was read -/

theorem readRelation_render {r : Relation} (hr : isIdShape r.id = true) :
    readRelation h (renderRelation r) = some r := by
  have hid : ([("id", .str r.id), ("kind", .str (Vocabulary.text r.kind))] :
      List (String × Yaml)).lookup "id" = some (.str r.id) := rfl
  have hkind : (([("id", .str r.id), ("kind", .str (Vocabulary.text r.kind))] :
      List (String × Yaml)).lookup "kind").bind (asStr h) = some (Vocabulary.text r.kind) := rfl
  simp only [readRelation, renderRelation, hid, hkind, hr, if_true, Vocabulary.ofText_text, Option.map_some]

theorem readRelations_render {m : Memory} (hne : m.relations ≠ some [])
    (hlegal : ∀ rs ∈ m.relations, ∀ r ∈ rs, isIdShape r.id = true) :
    readRelations h (renderFrontmatter h m) = m.relations := by
  cases hrs : m.relations with
  | none => simp [readRelations, renderFrontmatter, hrs]
  | some rs =>
    have hnil : rs ≠ [] := fun hnil => hne (by rw [hrs, hnil])
    have hback : (rs.map renderRelation).filterMap (readRelation h) = rs := by
      rw [List.filterMap_map]
      refine (List.filterMap_congr (g := some) fun r hr => ?_).trans (List.filterMap_some)
      exact readRelation_render (hlegal rs hrs r hr)
    have hfm : (renderFrontmatter h m).relations = some (.seq (rs.map renderRelation)) := by
      simp [renderFrontmatter, hrs, hnil, Option.filter]
    simp only [readRelations, hfm, hback, ne_eq, hnil, not_false_eq_true, if_true, if_false]

theorem readEmbedding_normal {m : Memory} (hne : m.embedding ≠ some [])
    (hfin : ∀ ns ∈ m.embedding, finiteList ns = true)
    (hnum : ∀ ns ∈ m.embedding, ∀ q, .finite q ∈ ns → h.Numeral q) :
    readEmbedding h (renderFrontmatter h m) = m.embedding := by
  cases hns : m.embedding with
  | none => simp [readEmbedding, embeddingNumbers, renderFrontmatter, hns]
  | some ns =>
    have hnil : ns ≠ [] := fun hnil => hne (by rw [hns, hnil])
    exact readEmbedding_render hns hnil (hfin ns hns) (hnum ns hns)

/-- A canonical date reads back, also where it may be left out. -/
theorem validDate_canonical {o : Option String} (ho : ∀ d ∈ o, Canonical h d) : validDate h o = o := by
  cases o with
  | none => rfl
  | some d => exact ho d rfl

theorem truthy_canonical (hd : h.ReadsInstants) {o : Option String} (ho : ∀ d ∈ o, Canonical h d) :
    truthy o = o :=
  truthy_eq_self.mpr fun he => (ho "" he).ne_empty hd rfl

theorem truthy_tenant {o : Option String} (ho : ∀ t ∈ o, isValidTenantId t = true) : truthy o = o := by
  refine truthy_eq_self.mpr fun he => ?_
  have hvalid := ho "" he
  exact absurd hvalid (by decide)

/-- A normal record is what reading it makes of it, but for an empty source. -/
theorem readBack_normal (hd : h.ReadsInstants) {m : Memory} (hm : Normal h m)
    (hnum : ∀ ns ∈ m.embedding, ∀ q, .finite q ∈ ns → h.Numeral q) :
    readBack h m = { m with source := truthy m.source } := by
  have hdates := hm.dates
  have htenant := hm.tenant
  simp only [List.forall_mem_cons] at hdates htenant
  obtain ⟨hseen, hvalidated, harchived, hfrom, huntil, hobserved, -⟩ := hdates
  obtain ⟨hten, hproject, huser, hagent, -⟩ := htenant
  have htags : (m.tags.filter fun t => t ≠ "") = m.tags := by
    refine List.filter_eq_self.mpr fun t ht => ?_
    rw [decide_eq_true_iff]
    rintro rfl
    exact hm.tags ht
  have himportance : min 5 (max 1 m.importance) = m.importance := by
    have := hm.importance
    omega
  have hconfidence : min 1 (max 0 m.confidence) = m.confidence := by
    rw [max_eq_right hm.confidence.1, min_eq_right hm.confidence.2]
  have hcreated : validDate h (some m.createdAt) = some m.createdAt := hm.createdAt
  have hupdated : validDate h (some m.updatedAt) = some m.updatedAt := hm.updatedAt
  have hsuperseded : truthy m.supersededBy = m.supersededBy := truthy_eq_self.mpr hm.supersededBy
  have howner : some (m.owner.getD .global) = m.owner := by
    obtain ⟨o, ho⟩ := Option.isSome_iff_exists.mp hm.owner
    rw [ho, Option.getD_some]
  have haccess : some (m.access.getD .global) = m.access := by
    obtain ⟨a, ha⟩ := Option.isSome_iff_exists.mp hm.access
    rw [ha, Option.getD_some]
  simp only [readBack, hm.content.1, truthy_tenant hten, truthy_tenant hproject,
    truthy_tenant huser, truthy_tenant hagent, htags, himportance, hconfidence, hcreated, hupdated,
    truthy_canonical hd hseen, truthy_canonical hd hvalidated, truthy_canonical hd harchived,
    truthy_canonical hd hfrom, truthy_canonical hd huntil, truthy_canonical hd hobserved,
    validDate_canonical hseen, validDate_canonical hvalidated, validDate_canonical harchived,
    validDate_canonical hfrom, validDate_canonical huntil, validDate_canonical hobserved,
    if_pos hm.revision, readRelations_render hm.noRelations hm.relations, howner, haccess,
    hsuperseded, readEmbedding_normal hm.noNumbers hm.embedding hnum, Option.getD_some,
    hm.unread.1, hm.unread.2]

/-- The file has a `source`, and it is the empty text. -/
def HasEmptySource (h : Host) : FileText → Prop
  | .memory fm _ => fm.source.bind (asStr h) = some ""
  | .other => False

theorem source_of_parse {file : Path} {text : FileText} {m : Memory}
    (hm : parse h file text = some m) : m.source = some "" ↔ HasEmptySource h text := by
  cases text with
  | other => cases hm
  | memory fm body =>
    simp only [parse] at hm
    split at hm
    · cases hm
    split at hm
    · cases hm
    split at hm
    · cases hm
    split at hm
    · cases hm
    rw [Option.some.injEq] at hm
    subst hm
    exact Iff.rfl

/-- What is read is read again, exactly when it has an id of its own and no empty source. -/
theorem parse_render_normal (hv : h.ReadsVersions) (hd : h.ReadsInstants) {file : Path} {m : Memory}
    (hm : Normal h m) (hid : m.id = stem file)
    (hnum : ∀ ns ∈ m.embedding, ∀ q, .finite q ∈ ns → h.Numeral q) :
    parse h file (render h m) = some m ↔ isIdShape (stem file) = true ∧ m.source ≠ some "" := by
  have hback := readBack_normal hd hm hnum
  constructor
  · intro hp
    have hread := readable_of_parse hv hp
    refine ⟨hid ▸ hread.id, truthy_eq_self.mp ?_⟩
    rw [parse_render hv hid.symm hread, hback, Option.some.injEq] at hp
    exact congrArg Memory.source hp
  · rintro ⟨hshape, hsource⟩
    have htenant := hm.tenant
    simp only [List.forall_mem_cons] at htenant
    obtain ⟨hten, hproject, huser, hagent, -⟩ := htenant
    have hread : Readable m := {
      id := hid ▸ hshape
      scope := hm.scope
      content := by rw [hm.content.1]; exact hm.content.2
      tenantId := by rwa [truthy_tenant hten]
      projectId := by rwa [truthy_tenant hproject]
      userId := by rwa [truthy_tenant huser]
      agentId := by rwa [truthy_tenant hagent] }
    rw [parse_render hv hid.symm hread, hback, truthy_eq_self.mpr hsource]

end Read

/-- Reading normalizes once and for all: the record is legal, and reading it again after writing it
    gives the same record. -/
def NormalizedForGood (h : Host) (yaml : YamlLib) (file : Path) (m : Memory) : Prop :=
  Valid h m ∧ parseText h yaml file (renderText h yaml m) = some m

/-! ### Three files -/

/-- A platform that knows the epoch. -/
def epochHost : Host := { newYear with
  dateParse := fun s => if s = "1970-01-01T00:00:00.000Z" then some 0 else none
  toISOString := fun t => if t = 0 then "1970-01-01T00:00:00.000Z" else "" }

theorem readsVersions_epochHost : epochHost.ReadsVersions := readsVersions_newYear

theorem readsInstants_epochHost : epochHost.ReadsInstants where
  again := by
    intro s t hs
    simp only [epochHost, Option.ite_none_right_eq_some, Option.some.injEq] at hs
    obtain ⟨-, rfl⟩ := hs
    decide
  epoch := by decide
  empty := by decide

/-- What is read where a file says little. -/
def plainRecord (id : String) (type : MemoryType) (source : Option String) : Memory where
  id := id
  type := type
  content := "Short answers."
  scope := "global"
  tags := []
  importance := 3
  confidence := 1
  trust := .trusted
  source := source
  createdAt := "1970-01-01T00:00:00.000Z"
  updatedAt := "1970-01-01T00:00:00.000Z"
  version := 1
  provenance := { sourceType := .manual }
  owner := some .global
  access := some .global

/-- The YAML of such a record. -/
def plainYaml (id type : String) : String :=
  "id: " ++ id ++ "\nversion: 3\nrevision: 1\ntype: " ++ type ++ "\nscope: global\ntags: []\n" ++
    "importance: 3\nconfidence: 1\ntrust: trusted\ncreated: 1970-01-01T00:00:00.000Z\n" ++
    "updated: 1970-01-01T00:00:00.000Z\nprovenance:\n  sourceType: manual\nowner: global\n" ++
    "access: global\n"

/-- The library on one file and on the record that is read there. -/
def plainLib (head : String) (fields : List (String × Yaml)) (id : String) (type : MemoryType) :
    YamlLib where
  parse s := if s = head then some (.map fields)
    else if s = trimEnd (plainYaml id (Vocabulary.text type)) then
      some (document epochHost (plainRecord id type none))
    else none
  stringify _ := plainYaml id (Vocabulary.text type)

/-- The frontmatter of a file that has a type, and perhaps a source. -/
def plainFrontmatter (type : MemoryType) (source : Option String) : Frontmatter :=
  { type := some (.str (Vocabulary.text type)), source := source.map .str }

theorem parse_plain (file : Path) (type : MemoryType) (source : Option String) :
    parse epochHost file (.memory (plainFrontmatter type source) "Short answers.\n") =
      some (plainRecord (stem file) type source) := by
  have hversion : readVersion epochHost (plainFrontmatter type source) = some 3 := by
    have hden : ((schemaVersion : ℤ) : ℚ).den = 1 ∧ ((schemaVersion : ℤ) : ℚ).num = 3 := ⟨rfl, rfl⟩
    simp [readVersion, plainFrontmatter, hden, tenantSchemaVersion]
  have htype : readType epochHost (plainFrontmatter type source) = some type :=
    Vocabulary.ofText_text type
  have hbad : badTenant epochHost (plainFrontmatter type source) 3 = false := rfl
  have hid : badId epochHost (plainFrontmatter type source) = false := rfl
  have hscope : badScope (readScope epochHost (plainFrontmatter type source)) = false := by
    change badScope "global" = false
    decide
  have hcontent : trim "Short answers.\n" = "Short answers." := by decide
  have himportance : readImportance epochHost (plainFrontmatter type source) = 3 := by
    change min 5 (max 1 ⌊(3 : ℚ) + 1 / 2⌋) = 3
    decide +kernel
  have hne : ¬ decide ("Short answers." = "") = true := by decide
  simp only [parse, hversion, hbad, hid, Bool.or_false, Bool.false_eq_true, if_false, htype, hscope,
    hcontent, himportance, hne]
  cases source <;> rfl

theorem parseText_plain {head raw : String} {fields : List (String × Yaml)} {id : String}
    {type type' : MemoryType} {source : Option String}
    (hsplit : splitFrontmatter raw = some (head, "Short answers.\n"))
    (hfields : frontmatterOf fields = plainFrontmatter type source) (file : Path) :
    parseText epochHost (plainLib head fields id type') file raw =
      some (plainRecord (stem file) type source) := by
  have htext : readText (plainLib head fields id type') raw =
      .memory (plainFrontmatter type source) "Short answers.\n" := by
    simp [readText, hsplit, plainLib, hfields]
  rw [parseText, htext, parse_plain]

theorem readsBack_plain {head : String} {fields : List (String × Yaml)} {id : String}
    {type : MemoryType} {source : Option String} (hsource : truthy source = none)
    (hhead : (plainYaml id (Vocabulary.text type)).toList.rdropWhile isTrimmed ≠ head.toList)
    (hmark : cutAt fence ((plainYaml id (Vocabulary.text type)).toList.rdropWhile isTrimmed ++ ['\n']) =
      none) :
    (plainLib head fields id type).ReadsBack (document epochHost (plainRecord id type source)) where
  parse := by
    have hdoc : document epochHost (plainRecord id type source) =
        document epochHost (plainRecord id type none) := by
      simp only [document, renderFrontmatter, plainRecord, hsource, truthy_none]
      rfl
    have hother : trimEnd (plainYaml id (Vocabulary.text type)) ≠ head := by
      rintro rfl
      rw [trimEnd, String.toList_ofList] at hhead
      exact hhead rfl
    simp [plainLib, hother, hdoc]
  unmarked := by
    rw [plainLib, trimEnd, String.toList_ofList]
    exact not_infix_of_cutAt (by decide) hmark

def preferenceFile : String := "---\ntype: preference\n---\n\nShort answers.\n"

def preferenceLib : YamlLib := plainLib "type: preference" [("type", .str "preference")] "memory" .preference

def sourcedFile : String := "---\ntype: fact\nsource: \"\"\n---\n\nShort answers.\n"

def sourcedLib : YamlLib :=
  plainLib "type: fact\nsource: \"\"" [("type", .str "fact"), ("source", .str "")] "memory" .fact

def unnamedFile : String := "---\ntype: fact\n---\n\nShort answers.\n"

def unnamedLib : YamlLib := plainLib "type: fact" [("type", .str "fact")] "my note" .fact

theorem readsBack_files :
    preferenceLib.ReadsBack (document epochHost (plainRecord "memory" .preference none)) ∧
    sourcedLib.ReadsBack (document epochHost (plainRecord "memory" .fact (some ""))) ∧
    unnamedLib.ReadsBack (document epochHost (plainRecord "my note" .fact none)) := by
  refine ⟨readsBack_plain rfl ?_ ?_, readsBack_plain rfl ?_ ?_, readsBack_plain rfl ?_ ?_⟩ <;>
    simp only [plainYaml, Vocabulary.text, String.toList_append, String.reduceToList] <;>
    decide +kernel

theorem splitFrontmatter_files :
    splitFrontmatter preferenceFile = some ("type: preference", "Short answers.\n") ∧
    splitFrontmatter sourcedFile = some ("type: fact\nsource: \"\"", "Short answers.\n") ∧
    splitFrontmatter unnamedFile = some ("type: fact", "Short answers.\n") := by
  decide +kernel

/-- The records of these files are read again as they are only where the name is an id and there is no
    empty source. -/
theorem normalizedForGood_plain {yaml : YamlLib} {file : Path} {type : MemoryType} {source : Option String}
    (hyaml : yaml.ReadsBack (document epochHost (plainRecord (stem file) type source)))
    (h : NormalizedForGood epochHost yaml file (plainRecord (stem file) type source)) :
    isIdShape (stem file) = true ∧ source ≠ some "" := by
  obtain ⟨-, hread⟩ := h
  have hnormal := (normal_of_parse readsInstants_epochHost (parse_plain file type source)).1
  rw [parseText_renderText file hyaml, parse_render_normal readsVersions_epochHost readsInstants_epochHost
    hnormal rfl fun _ hns => by cases hns] at hread
  exact hread

end Remembra.Store
