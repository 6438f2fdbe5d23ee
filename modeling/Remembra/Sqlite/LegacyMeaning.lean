import Remembra.Lib.Delimited
import Remembra.Sqlite.Legacy

/-! The two readers of a memory file compared. `parseLegacyFile` takes any value as text where `parse`
    takes scalars, keeps a date as it is written, knows provenance as an object only, and derives neither
    confidence nor trust from what it does not know. `migration_preserves_iff` says which files it reads
    as `parse` does. -/

namespace Remembra.Sqlite.Legacy
open Store (Yaml JsNum Host Frontmatter Path Memory MemoryType TrustLevel RetentionMode SourceType
  Provenance Relation Vocabulary truthy asStr numberOf isValidTenantId validDate epoch)
open Jobs (trim)

/-! ### What is preserved -/

/-- The record of the migration has the meaning of the record that was served. -/
structure Preserved (l : Migrated) (m : Memory) : Prop where
  id : l.id = m.id
  type : l.type = m.type
  scope : l.scope = m.scope
  content : l.content = m.content
  tags : l.tags = m.tags
  importance : l.importance = m.importance
  confidence : l.confidence = m.confidence
  trust : l.trust = m.trust
  provenance : l.provenance = m.provenance
  relations : l.relations = m.relations.map (List.map fun r => (r.id, Vocabulary.text r.kind))
  retention : l.retention = m.retention
  version : l.version = .finite m.version
  createdAt : l.createdAt = m.createdAt
  updatedAt : l.updatedAt = m.updatedAt
  validFrom : l.validFrom = m.validFrom
  validUntil : l.validUntil = m.validUntil
  observedAt : l.observedAt = m.observedAt
  supersededBy : l.supersededBy = m.supersededBy
  lastSeen : l.lastSeen = m.lastSeen
  archivedAt : l.archivedAt = m.archivedAt
  /-- Migration has no such field. -/
  lastValidated : m.lastValidated = none

/-! ### What a file must be like -/

section Conditions
variable (h : Host)

/-- A value that is no scalar has no text. -/
def PlainText (v : Yaml) : Prop := asStr h v = none → stringOf h v = ""

/-- A date that is there is written as `toISOString` writes it. -/
def PlainDate (v : Yaml) : Prop :=
  if isTruthy v then
    validDate h (asStr h v) = some (stringOf h v) ∨ (asStr h v = none ∧ stringOf h v = "")
  else validDate h (asStr h v) = none

/-- The date `parse` falls back to where `updated` has none. -/
def createdDate (fields : Fields) : String := (Store.readDate h fields.created).getD (epoch h)

/-- The typed edges among the entries of `relations`. -/
def typedEdges (items : List Yaml) : List Relation := items.filterMap (Store.readRelation h)

/-- The ids of the untyped list `related`. -/
def relatedIds (fields : Fields) : List String :=
  (match fields.related with
    | some (.str raw) => Store.listItems raw
    | some (.seq items) => items.map fun r => (asStr h r).getD ""
    | _ => []).filter Store.isIdShape

def relationItems (fields : Fields) : List Yaml :=
  match fields.relations with
  | some (.seq items) => items
  | _ => []

/-- Frontmatter that both readers take for the same record. -/
structure Migratable (now : ℤ) (file : Path) (fields : Fields) : Prop where
  id : ∀ v ∈ fields.id, isTruthy v = true → stringOf h v = Store.stem file
  scope : ∀ v ∈ fields.scope, isTruthy v = true ∧ hasDots (stringOf h v).toList = false
  tags : ∀ items, fields.tags = some (.seq items) → ∀ t ∈ items, PlainText h t
  /-- Provenance is no text that names a source type other than `manual`. -/
  provenance : ∀ s, fields.provenance = some (.str s) →
    s ∉ ["auto", "conversation", "agent", "import", "system"]
  /-- A provenance object that says `conversation` is valid, or there is a confidence. -/
  confidence : saysConversation fields.provenance = true →
    (∃ c, fields.confidence.map (numberOf h) = some (.finite c)) ∨
      (Store.readProvenance h fields.toFrontmatter).sourceType = .conversation
  /-- `trust` is a text that names a level, or it is not there and the provenance is neither a
      conversation nor the system. -/
  trust : ((fields.trust.bind (asStr h)).bind Vocabulary.ofText : Option TrustLevel).isSome = true ∨
    match (legacyOption h fields.trust : Option TrustLevel) with
    | some level =>
      level = Store.defaultTrust (Store.readProvenance h fields.toFrontmatter).sourceType
    | none => (Store.readProvenance h fields.toFrontmatter).sourceType ∉
        [SourceType.conversation, SourceType.system]
  /-- Every entry with an id is a typed edge; without typed edges the entries are the edges to the
      ids of `related`. -/
  relations : if typedEdges h (relationItems fields) = [] then
      (relationItems fields).filterMap (legacyEdge h) =
        (relatedIds h fields).map fun id => (id, "related")
    else ∀ e ∈ relationItems fields, (legacyEdge h e).isSome → (Store.readRelation h e).isSome
  retention : ∀ v ∈ fields.retention, asStr h v = none →
    (legacyOption h (some v) : Option RetentionMode) = none
  revision : ∀ v ∈ fields.revision, match numberOf h v with
    | .finite q => q.den = 1 ∨ q < 3 / 2
    | .negInfinity => True
    | _ => False
  /-- The date of creation is written as `toISOString` writes it; one that is not there or no date is
      the epoch for `parse`, and the time of the migration or the text itself for migration. -/
  created : match fields.created with
    | none => h.toISOString now = epoch h
    | some v =>
      if isTruthy v then validDate h (asStr h v) = some (stringOf h v) ∨
        (validDate h (asStr h v) = none ∧ stringOf h v = epoch h)
      else (validDate h (asStr h v)).getD (epoch h) = h.toISOString now
  updated : ∀ v ∈ fields.updated,
    if isTruthy v then validDate h (asStr h v) = some (stringOf h v) ∨
      (validDate h (asStr h v) = none ∧ stringOf h v = createdDate h fields)
    else validDate h (asStr h v) = none ∨ validDate h (asStr h v) = some (createdDate h fields)
  validFrom : ∀ v ∈ fields.validFrom, PlainDate h v
  validUntil : ∀ v ∈ fields.validUntil, PlainDate h v
  observedAt : ∀ v ∈ fields.observedAt, PlainDate h v
  lastSeen : ∀ v ∈ fields.lastSeen, PlainDate h v
  archivedAt : ∀ v ∈ fields.archivedAt, PlainDate h v
  lastValidated : Store.readDate h fields.lastValidated = none
  supersededBy : ∀ v ∈ fields.supersededBy,
    if isTruthy v then PlainText h v else truthy (asStr h v) = none

/-- What `String(n)` and `toISOString` give: the text of a number is no word, and no text is empty. -/
structure Shows : Prop where
  number : ∀ n, ∃ c ∈ (h.numText n).toList.head?, c.isLower = false
  instant : ∀ t, h.toISOString t ≠ ""

end Conditions

/-! ### Field by field -/

section Fields
variable {h : Host} {v : Yaml} {fields : Fields} {s : String}

/-- A scalar has the same text for both readers. -/
theorem stringOf_of_asStr (hv : asStr h v = some s) : stringOf h v = s := by
  cases v with
  | bool b => exact Option.some.inj hv
  | num n => exact Option.some.inj hv
  | str t => exact Option.some.inj hv
  | _ => cases hv

/-- The text of a value that counts as false is no word. -/
theorem falsy_asStr (hv : isTruthy v = false) :
    asStr h v = none ∨ asStr h v = some "" ∨ asStr h v = some "false" ∨
      ∃ n, v = .num n ∧ asStr h v = some (h.numText n) := by
  cases v with
  | null => exact .inl rfl
  | bool b =>
    obtain rfl : b = false := hv
    exact .inr (.inr (.inl rfl))
  | num n => exact .inr (.inr (.inr ⟨n, rfl, rfl⟩))
  | str t =>
    refine .inr (.inl ?_)
    have ht : t = "" := by simpa [isTruthy] using hv
    rw [ht]
    rfl
  | seq items => cases hv
  | map items => cases hv

/-- Every option of the vocabulary is a word other than `false`. -/
class Words (ε : Type) [Vocabulary ε] : Prop where
  word : ∀ e : ε, Vocabulary.text e ≠ "false" ∧ Vocabulary.text e ≠ "" ∧
    (Vocabulary.text e).toList.head?.all Char.isLower = true

instance : Words MemoryType where
  word := by rintro (_ | _) <;> decide

instance : Words SourceType where
  word := by rintro (_ | _) <;> decide

instance : Words TrustLevel where
  word := by rintro (_ | _) <;> decide

instance : Words RetentionMode where
  word := by rintro (_ | _) <;> decide

theorem numText_ne (hshows : Shows h) (hs : s.toList.head?.all Char.isLower = true) (n : JsNum) :
    h.numText n ≠ s := by
  rintro rfl
  obtain ⟨c, hc, hlow⟩ := hshows.number n
  rw [Option.mem_def.mp hc, Option.all_some, hlow] at hs
  cases hs

theorem text_of_ofText {ε : Type} [Vocabulary ε] {e : ε} (hs : Vocabulary.ofText s = some e) :
    Vocabulary.text e = s := by
  have hfound := List.find?_some hs
  simpa using hfound

/-- A value that counts as false names no option. -/
theorem ofText_of_falsy {ε : Type} [Vocabulary ε] [Words ε] (hshows : Shows h)
    (hv : isTruthy v = false) : (asStr h v).bind (Vocabulary.ofText : String → Option ε) = none := by
  rw [Option.bind_eq_none_iff]
  intro t ht
  by_contra hsome
  obtain ⟨e, he⟩ := Option.ne_none_iff_exists'.mp hsome
  have htext := text_of_ofText he
  obtain ⟨hfalse, hempty, hlow⟩ := Words.word e
  rcases falsy_asStr hv with hn | hn | hn | ⟨n, -, hn⟩ <;> rw [hn] at ht <;> cases ht
  · exact hempty htext
  · exact hfalse htext
  · exact numText_ne hshows hlow n htext.symm

/-- An option that a scalar names is the same for both readers. -/
theorem legacyOption_of_asStr {ε : Type} [Vocabulary ε] [Words ε] (hshows : Shows h)
    (hs : asStr h v = some s) :
    (legacyOption h (some v) : Option ε) = Vocabulary.ofText s := by
  rw [legacyOption, shown]
  by_cases hv : isTruthy v = true
  · rw [Option.filter_some_pos hv, Option.map_some, stringOf_of_asStr hs, Option.bind_some]
  · have hnone := ofText_of_falsy (ε := ε) hshows (by simpa using hv)
    rw [hs, Option.bind_some] at hnone
    rw [Option.filter_some_neg (by simpa using hv), Option.map_none, Option.bind_none, hnone]

theorem stringOf_ne_empty (hshows : Shows h) (hv : isTruthy v = true) (hs : asStr h v = some s) :
    s ≠ "" := by
  cases v with
  | bool b =>
    obtain rfl : b = true := hv
    cases hs
    decide
  | num n =>
    cases hs
    exact numText_ne hshows rfl n
  | str t =>
    cases hs
    simpa [isTruthy] using hv
  | _ => cases hs

theorem validDate_ne_empty (hshows : Shows h) (o : Option String) : validDate h o ≠ some "" := by
  intro hd
  obtain ⟨t, -, ht⟩ := Option.map_eq_some_iff.mp hd
  exact hshows.instant t ht

theorem readDate_some : Store.readDate h (some v) = validDate h (asStr h v) := rfl

theorem truthy_some (hs : s ≠ "") : truthy (some s) = some s := by simp [truthy, hs]

theorem date_iff (hshows : Shows h) (o : Option Yaml) :
    truthy (shown h o) = Store.readDate h o ↔ ∀ v ∈ o, PlainDate h v := by
  cases o with
  | none => simp [shown, truthy, Store.readDate, validDate]
  | some v =>
    simp only [Option.mem_some_iff, forall_eq', readDate_some, PlainDate, shown]
    by_cases hv : isTruthy v = true
    · rw [Option.filter_some_pos hv, Option.map_some, if_pos hv]
      by_cases hempty : stringOf h v = ""
      · -- only what is no scalar can be shown as no text
        have hnone : asStr h v = none := by
          cases hs : asStr h v with
          | none => rfl
          | some s =>
            rw [stringOf_of_asStr hs] at hempty
            exact absurd hempty (stringOf_ne_empty hshows hv hs)
        simp [hempty, hnone, truthy, validDate]
      · rw [truthy_some hempty, eq_comm]
        simp [hempty]
    · rw [Option.filter_some_neg (by simpa using hv), if_neg hv]
      simp [truthy, eq_comm]

theorem truthy_readDate (hshows : Shows h) (o : Option Yaml) :
    truthy (Store.readDate h o) = Store.readDate h o := by
  cases hd : Store.readDate h o with
  | none => rfl
  | some d => exact truthy_some fun hempty => validDate_ne_empty hshows _ (hempty ▸ hd)

theorem created_iff (now : ℤ) :
    (shown h fields.created).getD (h.toISOString now) = createdDate h fields ↔
      match fields.created with
      | none => h.toISOString now = epoch h
      | some v =>
        if isTruthy v then validDate h (asStr h v) = some (stringOf h v) ∨
          (validDate h (asStr h v) = none ∧ stringOf h v = epoch h)
        else (validDate h (asStr h v)).getD (epoch h) = h.toISOString now := by
  rw [createdDate]
  cases fields.created with
  | none => rfl
  | some v =>
    simp only [readDate_some, shown]
    by_cases hv : isTruthy v = true
    · rw [Option.filter_some_pos hv, Option.map_some, Option.getD_some, if_pos hv]
      cases validDate h (asStr h v) <;> simp [eq_comm]
    · rw [Option.filter_some_neg (by simpa using hv), Option.map_none, Option.getD_none, if_neg hv,
        eq_comm]

theorem updated_iff (c : String) :
    (shown h fields.updated).getD c = (Store.readDate h fields.updated).getD c ↔
      ∀ v ∈ fields.updated,
        if isTruthy v then validDate h (asStr h v) = some (stringOf h v) ∨
          (validDate h (asStr h v) = none ∧ stringOf h v = c)
        else validDate h (asStr h v) = none ∨ validDate h (asStr h v) = some c := by
  cases fields.updated with
  | none => simp [shown, Store.readDate, validDate]
  | some v =>
    simp only [readDate_some, shown, Option.mem_some_iff, forall_eq']
    by_cases hv : isTruthy v = true
    · rw [Option.filter_some_pos hv, Option.map_some, Option.getD_some, if_pos hv]
      cases validDate h (asStr h v) <;> simp [eq_comm]
    · rw [Option.filter_some_neg (by simpa using hv), Option.map_none, Option.getD_none, if_neg hv]
      cases validDate h (asStr h v) <;> simp [eq_comm]

theorem supersededBy_iff (o : Option Yaml) :
    truthy (shown h o) = truthy (o.bind (asStr h)) ↔
      ∀ v ∈ o, if isTruthy v then PlainText h v else truthy (asStr h v) = none := by
  cases o with
  | none => simp [shown]
  | some v =>
    simp only [Option.mem_some_iff, forall_eq', shown, Option.bind_some]
    by_cases hv : isTruthy v = true
    · rw [Option.filter_some_pos hv, Option.map_some, if_pos hv, PlainText]
      cases hs : asStr h v with
      | none => by_cases hempty : stringOf h v = "" <;> simp [truthy, hempty]
      | some s => simp [stringOf_of_asStr hs]
    · rw [Option.filter_some_neg (by simpa using hv), Option.map_none, if_neg hv]
      simp [truthy, eq_comm]

/-- Where one reader takes all that the other does and more, they agree on a list without more. -/
theorem filterMap_eq_iff {α β : Type} {f g : α → Option β} (hext : ∀ a b, f a = some b → g a = some b)
    (l : List α) :
    l.filterMap g = l.filterMap f ↔ ∀ a ∈ l, (g a).isSome → (f a).isSome := by
  have hle : ∀ l : List α, (l.filterMap f).length ≤ (l.filterMap g).length := by
    intro l
    induction l with
    | nil => rfl
    | cons a l ih =>
      cases hf : f a with
      | none =>
        rw [List.filterMap_cons_none hf]
        exact ih.trans (List.Sublist.length_le ((List.sublist_cons_self a l).filterMap g))
      | some b =>
        rw [List.filterMap_cons_some hf, List.filterMap_cons_some (hext a b hf)]
        exact Nat.succ_le_succ ih
  induction l with
  | nil => simp
  | cons a l ih =>
    rw [List.forall_mem_cons]
    cases hf : f a with
    | some b =>
      rw [List.filterMap_cons_some hf, List.filterMap_cons_some (hext a b hf)]
      simpa using ih
    | none =>
      rw [List.filterMap_cons_none hf]
      cases hg : g a with
      | none =>
        rw [List.filterMap_cons_none hg]
        simpa using ih
      | some b =>
        rw [List.filterMap_cons_some hg]
        constructor
        · intro heq
          have hlen := congrArg List.length heq
          have := hle l
          rw [List.length_cons] at hlen
          omega
        · intro hall
          simp at hall

theorem filter_map_eq {α : Type} (F : α → String) (l : List α) :
    (l.map F).filter (fun t => t ≠ "") = l.filterMap fun a => truthy (some (F a)) := by
  induction l with
  | nil => rfl
  | cons a l ih =>
    by_cases ha : F a = ""
    · rw [List.map_cons, List.filter_cons_of_neg (by simp [ha]), ih,
        List.filterMap_cons_none (by simp [truthy, ha])]
    · rw [List.map_cons, List.filter_cons_of_pos (by simp [ha]), ih,
        List.filterMap_cons_some (by exact truthy_some ha)]

theorem map_trim_splitComma (s : String) :
    (Store.splitComma (trim s)).map trim = (Store.splitComma s).map trim := by
  have htrim : ∀ l : List Char,
      trim (String.ofList l) = String.ofList (Delimited.strip Jobs.isTrimmed l) := by
    intro l
    rw [trim, String.toList_ofList]
    rfl
  have hs : (trim s).toList = Delimited.strip Jobs.isTrimmed s.toList := by
    rw [trim, String.toList_ofList]
    rfl
  have hmap : ∀ l : List (List Char), (l.map String.ofList).map trim =
      (l.map (Delimited.strip Jobs.isTrimmed)).map String.ofList := by
    intro l
    rw [List.map_map, List.map_map]
    exact List.map_congr_left fun x _ => htrim x
  rw [Store.splitComma, Store.splitComma, hmap, hmap, hs,
    Delimited.map_strip_splitOn_strip (by decide)]

theorem tags_iff :
    legacyTags h fields = Store.readTags h fields.toFrontmatter ↔
      ∀ items, fields.tags = some (.seq items) → ∀ t ∈ items, PlainText h t := by
  unfold legacyTags Store.readTags
  rcases fields.tags with _ | (_ | b | n | raw | items | m)
  case some.str => simp [Store.listItems, map_trim_splitComma]
  case some.seq =>
    change List.filter _ (items.map _) = List.filter _ (items.map _) ↔ _
    have hext : ∀ t s, truthy (some ((asStr h t).getD "")) = some s →
        truthy (some (stringOf h t)) = some s := by
      intro t s ht
      cases hs : asStr h t with
      | none => simp [hs, truthy] at ht
      | some s' => rwa [stringOf_of_asStr hs, ← Option.getD_some (a := s') (b := ""), ← hs]
    have hiff := filterMap_eq_iff hext items
    rw [← filter_map_eq, ← filter_map_eq] at hiff
    rw [hiff]
    simp only [Option.some.injEq, Yaml.seq.injEq, forall_eq']
    refine forall₂_congr fun t _ => ?_
    rw [PlainText]
    cases hs : asStr h t with
    | none => by_cases hempty : stringOf h t = "" <;> simp [truthy, hempty]
    | some s => simp [stringOf_of_asStr hs]
  all_goals simp
theorem readProvenance_scalar {fm : Frontmatter} (hfm : fm.provenance = some v)
    (hs : asStr h v = some s) :
    Store.readProvenance h fm =
      { sourceType := if s = "auto" then .conversation else (Vocabulary.ofText s).getD .manual } := by
  unfold Store.readProvenance
  rw [hfm]
  cases v with
  | null => cases hs
  | seq items => cases hs
  | map m => cases hs
  | _ =>
    simp only [hs]
    split
    · rename_i heq
      rw [if_pos (Option.some.inj heq)]
    · rename_i t hne heq
      obtain rfl := Option.some.inj heq
      rw [if_neg fun hauto => hne (by rw [hauto])]
    · rename_i heq
      cases heq

/-- The text of a number or of a truth value names no source. -/
theorem no_source (hshows : Shows h) (hs : asStr h v = some s) (hv : ∀ t, v ≠ .str t) :
    s ≠ "auto" ∧ (Vocabulary.ofText s : Option SourceType) = none := by
  cases v with
  | bool b => cases b <;> cases hs <;> decide
  | num n =>
    cases hs
    refine ⟨numText_ne hshows rfl n, ?_⟩
    by_contra hsome
    obtain ⟨e, he⟩ := Option.ne_none_iff_exists'.mp hsome
    exact numText_ne hshows (Words.word e).2.2 n (text_of_ofText he).symm
  | str t => exact absurd rfl (hv t)
  | _ => cases hs

theorem named_source : s ∈ ["auto", "conversation", "agent", "import", "system"] ↔
    (if s = "auto" then .conversation else (Vocabulary.ofText s).getD .manual) ≠
      SourceType.manual := by
  constructor
  · intro hs
    simp only [List.mem_cons, List.not_mem_nil, or_false] at hs
    rcases hs with rfl | rfl | rfl | rfl | rfl <;> decide
  · intro hs
    split at hs
    · simp [*]
    · cases he : (Vocabulary.ofText s : Option SourceType) with
      | none => simp [he] at hs
      | some e =>
        rw [← text_of_ofText he]
        rw [he, Option.getD_some] at hs
        cases e <;> first | decide | exact absurd rfl hs

theorem provenance_iff (hshows : Shows h) :
    legacyProvenance fields = Store.readProvenance h fields.toFrontmatter ↔
      ∀ s, fields.provenance = some (.str s) →
        s ∉ ["auto", "conversation", "agent", "import", "system"] := by
  unfold legacyProvenance
  cases hp : fields.provenance with
  | none => simp [Store.readProvenance, hp]
  | some v =>
    have hscalar : ∀ s, asStr h v = some s → (∀ t, v ≠ .str t) →
        Store.readProvenance h fields.toFrontmatter = { sourceType := .manual } := by
      intro s hs hv
      rw [readProvenance_scalar hp hs, if_neg (no_source hshows hs hv).1,
        (no_source hshows hs hv).2, Option.getD_none]
    cases v with
    | null => simp [Store.readProvenance, hp]
    | bool b => simp [hscalar _ rfl (by simp)]
    | num n => simp [hscalar _ rfl (by simp)]
    | str s =>
      rw [readProvenance_scalar hp rfl]
      simp only [Option.some.injEq, Yaml.str.injEq, forall_eq', named_source, ne_eq, not_not,
        Provenance.mk.injEq, and_true]
      exact eq_comm
    | seq items => simp [Store.readProvenance, hp, asStr]
    | map m => simp [Store.readProvenance, hp]

/-- An object that is valid and has the source type `conversation` says so. -/
theorem says_of_source {m : List (String × Yaml)} {p : Provenance}
    (hp : Store.parseProvenance m = some p) (hconv : p.sourceType = .conversation) :
    saysConversation (some (.map m)) = true := by
  have hsource : ((Store.optionalText m "sourceType").bind id).bind Vocabulary.ofText =
      some p.sourceType := by
    simp only [Store.parseProvenance, Option.bind_eq_bind, Option.bind_eq_some_iff,
      Option.some.injEq] at hp
    obtain ⟨source, hsource, -, -, -, -, -, -, -, -, -, -, -, -, -, -, -, -, -, -, rfl⟩ := hp
    simpa only [Option.bind_eq_some_iff] using hsource
  rw [hconv] at hsource
  obtain ⟨s, htext, hname⟩ := Option.bind_eq_some_iff.mp hsource
  obtain rfl : "conversation" = s := text_of_ofText hname
  rw [saysConversation]
  cases hlookup : m.lookup "sourceType" with
  | none => simp [Store.optionalText, hlookup] at htext
  | some v =>
    cases v with
    | str t =>
      obtain rfl : t = "conversation" := by simpa [Store.optionalText, hlookup] using htext
      rfl
    | _ => simp [Store.optionalText, hlookup] at htext

/-- Apart from the texts that only `parse` knows, a conversation is an object that says so. -/
theorem says_of_conversation (hprov : legacyProvenance fields =
      Store.readProvenance h fields.toFrontmatter)
    (hconv : (Store.readProvenance h fields.toFrontmatter).sourceType = .conversation) :
    saysConversation fields.provenance = true := by
  rw [← hprov, legacyProvenance] at hconv
  split at hconv
  · rename_i m hm
    rw [hm]
    cases hp : Store.parseProvenance m with
    | none => simp [hp] at hconv
    | some p =>
      rw [hp, Option.getD_some] at hconv
      exact says_of_source hp hconv
  · cases hconv

theorem confidence_iff
    (hprov : legacyProvenance fields = Store.readProvenance h fields.toFrontmatter) :
    legacyConfidence h fields = Store.readConfidence h fields.toFrontmatter
        (Store.readProvenance h fields.toFrontmatter).sourceType ↔
      (saysConversation fields.provenance = true →
        (∃ c, fields.confidence.map (numberOf h) = some (.finite c)) ∨
          (Store.readProvenance h fields.toFrontmatter).sourceType = .conversation) := by
  have hsays := says_of_conversation hprov
  rw [legacyConfidence, Store.readConfidence]
  by_cases hfinite : ∃ c, fields.confidence.map (numberOf h) = some (.finite c)
  · obtain ⟨c, hc⟩ := hfinite
    simp [hc]
  · have hdefault : (if saysConversation fields.provenance = true then (7 : ℚ) / 10 else 1) =
        Store.defaultConfidence (Store.readProvenance h fields.toFrontmatter).sourceType ↔
      (saysConversation fields.provenance = true →
        (Store.readProvenance h fields.toFrontmatter).sourceType = .conversation) := by
      rw [Store.defaultConfidence]
      by_cases hc : (Store.readProvenance h fields.toFrontmatter).sourceType = .conversation
      · simp [hc, hsays hc]
      · by_cases hs : saysConversation fields.provenance = true
        · simp only [hs, hc, if_true, if_false, forall_const, iff_false]
          norm_num
        · simp [hs, hc]
    simp only [hfinite, false_or]
    rw [← hdefault]
    cases hc : fields.confidence.map (numberOf h) with
    | none => rfl
    | some n =>
      cases n with
      | finite c => exact absurd ⟨c, hc⟩ hfinite
      | _ => rfl

theorem retention_iff (hshows : Shows h) :
    (legacyOption h fields.retention : Option RetentionMode) =
        (fields.retention.bind (asStr h)).bind Vocabulary.ofText ↔
      ∀ v ∈ fields.retention, asStr h v = none →
        (legacyOption h (some v) : Option RetentionMode) = none := by
  cases fields.retention with
  | none => simp [legacyOption, shown]
  | some v =>
    simp only [Option.mem_some_iff, forall_eq', Option.bind_some]
    cases hs : asStr h v with
    | none => simp
    | some s => simp [legacyOption_of_asStr hshows hs]

theorem trust_iff (hshows : Shows h) (src : SourceType) :
    (legacyOption h fields.trust).getD .trusted = Store.readTrust h fields.toFrontmatter src ↔
      ((fields.trust.bind (asStr h)).bind Vocabulary.ofText : Option TrustLevel).isSome = true ∨
        match (legacyOption h fields.trust : Option TrustLevel) with
        | some level => level = Store.defaultTrust src
        | none => src ∉ [SourceType.conversation, SourceType.system] := by
  have hdefault : TrustLevel.trusted = Store.defaultTrust src ↔
      src ∉ [SourceType.conversation, SourceType.system] := by
    cases src <;> decide
  rw [Store.readTrust]
  cases hread : ((fields.trust.bind (asStr h)).bind Vocabulary.ofText : Option TrustLevel) with
  | some level =>
    obtain ⟨s, hs, hlevel⟩ := Option.bind_eq_some_iff.mp hread
    obtain ⟨v, hv, hs⟩ := Option.bind_eq_some_iff.mp hs
    simp [hv, legacyOption_of_asStr hshows hs, hlevel]
  | none =>
    cases (legacyOption h fields.trust : Option TrustLevel) with
    | none => simpa using hdefault
    | some level => simp

theorem version_iff :
    (match fields.revision with
      | some v => atLeastOne (numberOf h v)
      | none => .finite 1) = .finite (Store.readRevision h fields.toFrontmatter) ↔
      ∀ v ∈ fields.revision, match numberOf h v with
        | .finite q => q.den = 1 ∨ q < 3 / 2
        | .negInfinity => True
        | _ => False := by
  rw [Store.readRevision]
  cases fields.revision with
  | none => simp
  | some v =>
    simp only [Option.mem_some_iff, forall_eq', Option.map_some]
    cases numberOf h v with
    | finite q =>
      simp only [atLeastOne, JsNum.finite.injEq, Int.cast_inj]
      by_cases hden : q.den = 1
      · have hfloor : ⌊q + 1 / 2⌋ = q.num := by
          rw [Int.floor_eq_iff, ← Rat.coe_int_num_of_den_eq_one hden]
          constructor <;> norm_num
        rw [hfloor]
        by_cases hpos : 1 ≤ q.num
        · simp [hden, hpos]
        · simp only [hden, hpos, and_false, if_false, true_or, iff_true]
          omega
      · simp only [hden, false_and, if_false, false_or]
        rw [max_eq_left_iff, ← Int.lt_add_one_iff, Int.floor_lt]
        norm_num
        constructor <;> intro hq <;> linarith
    | _ => simp [atLeastOne]

/-- A typed edge is an edge of the migration. -/
theorem edge_of_relation {r : Relation} (hr : Store.readRelation h v = some r) :
    legacyEdge h v = some (r.id, Vocabulary.text r.kind) := by
  cases v with
  | map m =>
    rw [Store.readRelation] at hr
    split at hr
    · rename_i id kind hid hkind
      split at hr
      · rename_i hshape
        obtain ⟨k, hk, rfl⟩ := Option.map_eq_some_iff.mp hr
        obtain ⟨w, hw, hkind⟩ := Option.bind_eq_some_iff.mp hkind
        have hne : id ≠ "" := by
          rintro rfl
          exact absurd hshape (by decide)
        have hid' : edgePart (.map m) "id" 0 = some (.str id) := by simp [edgePart, hid]
        have hkind' : edgePart (.map m) "kind" 1 = some w := by
          cases w with
          | null => cases hkind
          | _ => simp [edgePart, hw]
        have hstr : stringOf h (.str id) = id := rfl
        simp [legacyEdge, hid', hkind', hstr, hne, stringOf_of_asStr hkind, text_of_ofText hk]
      · cases hr
    · cases hr
  | _ => cases hr

/-- A list that is there only if it has an entry. -/
def nonEmpty {α : Type} (l : List α) : Option (List α) := if l = [] then none else some l

theorem nonEmpty_inj {α : Type} {l l' : List α} : nonEmpty l = nonEmpty l' ↔ l = l' := by
  cases l <;> cases l' <;> simp [nonEmpty]

theorem map_nonEmpty {α β : Type} (f : α → β) (l : List α) :
    (nonEmpty l).map (List.map f) = nonEmpty (l.map f) := by
  cases l <;> simp [nonEmpty]

theorem legacyRelations_eq :
    legacyRelations h fields = nonEmpty ((relationItems fields).filterMap (legacyEdge h)) := by
  unfold legacyRelations relationItems nonEmpty
  rcases fields.relations with _ | (_ | _ | _ | _ | items | _) <;> rfl

theorem readRelations_eq :
    Store.readRelations h fields.toFrontmatter = nonEmpty
      (if typedEdges h (relationItems fields) ≠ [] then typedEdges h (relationItems fields)
        else (relatedIds h fields).map fun id => ⟨id, .related⟩) := by
  unfold Store.readRelations relationItems typedEdges relatedIds nonEmpty
  rcases fields.relations with _ | (_ | _ | _ | _ | items | _) <;> rfl

theorem relations_iff :
    legacyRelations h fields = (Store.readRelations h fields.toFrontmatter).map
        (List.map fun r => (r.id, Vocabulary.text r.kind)) ↔
      if typedEdges h (relationItems fields) = [] then
        (relationItems fields).filterMap (legacyEdge h) =
          (relatedIds h fields).map fun id => (id, "related")
      else ∀ e ∈ relationItems fields, (legacyEdge h e).isSome → (Store.readRelation h e).isSome := by
  rw [legacyRelations_eq, readRelations_eq, map_nonEmpty, nonEmpty_inj]
  by_cases htyped : typedEdges h (relationItems fields) = []
  · rw [if_neg (not_not.mpr htyped), if_pos htyped, List.map_map]
    rfl
  · rw [if_pos htyped, if_neg htyped]
    have hext : ∀ e edge, (Store.readRelation h e).map (fun r => (r.id, Vocabulary.text r.kind)) =
        some edge → legacyEdge h e = some edge := by
      intro e edge he
      obtain ⟨r, hr, rfl⟩ := Option.map_eq_some_iff.mp he
      exact edge_of_relation hr
    have hiff := filterMap_eq_iff hext (relationItems fields)
    simp only [Option.isSome_map] at hiff
    rw [← hiff, typedEdges, List.map_filterMap]

theorem id_iff (d : String) :
    (shown h fields.id).getD d = d ↔ ∀ v ∈ fields.id, isTruthy v = true → stringOf h v = d := by
  cases fields.id with
  | none => simp [shown]
  | some v => by_cases hv : isTruthy v = true <;> simp [shown, Option.filter, hv]

theorem scope_iff (hshows : Shows h)
    (hok : Store.badScope (Store.readScope h fields.toFrontmatter) = false) :
    (shown h fields.scope).getD "global" = Store.readScope h fields.toFrontmatter ∧
        legacyBadScope ((shown h fields.scope).getD "global") = false ↔
      ∀ v ∈ fields.scope, isTruthy v = true ∧ hasDots (stringOf h v).toList = false := by
  unfold Store.readScope at hok ⊢
  cases hscope : fields.scope with
  | none => simp [shown, legacyBadScope, hasDots]
  | some v =>
    rw [hscope] at hok
    simp only [Store.badScope, Bool.or_eq_false_iff, decide_eq_false_iff_not] at hok
    obtain ⟨⟨hne, -⟩, hback⟩ := hok
    cases hs : asStr h v with
    | none => exact absurd (by rw [hs]; rfl) hne
    | some s =>
      rw [hs, Option.getD_some] at hne hback
      simp only [Option.mem_some_iff, forall_eq', shown, hs, Option.getD_some]
      by_cases hv : isTruthy v = true
      · rw [Option.filter_some_pos hv, Option.map_some, Option.getD_some, stringOf_of_asStr hs]
        simp [legacyBadScope, hne, hback, hv]
      · rw [Option.filter_some_neg (by simpa using hv), Option.map_none, Option.getD_none]
        simp only [hv, Bool.false_eq_true, false_and, iff_false, not_and]
        rintro rfl
        rcases falsy_asStr (by simpa using hv) with hn | hn | hn | ⟨n, -, hn⟩ <;>
          rw [hn] at hs
        · cases hs
        · exact absurd (Option.some.inj hs) (by decide)
        · exact absurd (Option.some.inj hs) (by decide)
        · exact absurd (Option.some.inj hs) (numText_ne hshows rfl n)

theorem type_of_readType (hshows : Shows h) {type : MemoryType}
    (htype : Store.readType h fields.toFrontmatter = some type) :
    (Vocabulary.ofText ((shown h fields.type).getD "fact") : Option MemoryType) = some type := by
  unfold Store.readType at htype
  cases hfm : fields.type with
  | none =>
    rw [hfm] at htype
    rw [← Option.some.inj htype]
    rfl
  | some v =>
    rw [hfm] at htype
    simp only at htype
    cases hs : asStr h v with
    | none =>
      rw [hs] at htype
      cases htype
    | some s =>
      rw [hs, Option.getD_some] at htype
      have hv : isTruthy v = true := by
        by_contra hv
        have hnone := ofText_of_falsy (ε := MemoryType) hshows (by simpa using hv)
        rw [hs, Option.bind_some, htype] at hnone
        cases hnone
      rw [shown, Option.filter_some_pos hv, Option.map_some, Option.getD_some,
        stringOf_of_asStr hs, htype]

/-- A tenant field that `parse` takes is no obstacle to migration. -/
theorem valid_shown {o : Option Yaml} (ho : Store.badTenantField h o = false) :
    (shown h o).all isValidTenantId = true := by
  cases o with
  | none => rfl
  | some v =>
    simp only [Store.badTenantField, Option.any_some, Bool.not_eq_false'] at ho
    obtain ⟨s, hs, hvalid⟩ := (Option.any_eq_true _ _).mp ho
    rw [shown]
    by_cases hv : isTruthy v = true
    · rwa [Option.filter_some_pos hv, Option.map_some, Option.all_some, stringOf_of_asStr hs]
    · rw [Option.filter_some_neg (by simpa using hv)]
      rfl

end Fields

/-! ### Whole files -/

section Files
variable {h : Host} {parseFloat : String → JsNum} {now : ℤ} {file : Path} {fields : Fields}
  {body : String} {m : Memory}

/-- A file that `MemoryStore` serves is migrated to a record with the same meaning exactly if YAML
    reads its frontmatter and each field is one that both readers take alike. -/
theorem migration_preserves_iff (hshows : Shows h) {text : FileText}
    (hserved : served h file text = some m) :
    (∃ l, parseLegacyFile h parseFloat now file text = some l ∧ Preserved l m) ↔
      ∃ fields body, text = .yaml fields body ∧ Migratable h now file fields := by
  cases text with
  | other => cases hserved
  | lines fields body =>
    constructor
    · rintro ⟨l, hl, -⟩
      cases hl
    · rintro ⟨fields, body, htext, -⟩
      cases htext
  | yaml fields body =>
    simp only [served, Store.parse] at hserved
    split at hserved
    · cases hserved
    · split at hserved
      · cases hserved
      · rename_i version hversion htenant
        split at hserved
        · cases hserved
        · rename_i type htype
          split at hserved
          · cases hserved
          · rename_i hscope
            rw [Bool.or_eq_true, not_or, Bool.not_eq_true, decide_eq_true_iff] at hscope
            obtain ⟨hscope, hcontent⟩ := hscope
            obtain rfl := Option.some.inj hserved
            have htype' := type_of_readType hshows htype
            have hbad : legacyBadTenant h fields = false := by
              simp only [Bool.or_eq_true, not_or, Bool.not_eq_true, Store.badTenant] at htenant
              obtain ⟨⟨⟨⟨⟨ht, hp⟩, hu⟩, ha⟩, -⟩, -⟩ := htenant
              simp [legacyBadTenant, valid_shown ht, valid_shown hp, valid_shown hu, valid_shown ha]
            have hparse : parseLegacyFile h parseFloat now file (.yaml fields body) =
                if legacyBadScope ((shown h fields.scope).getD "global") then none
                else some (migrated h parseFloat now file fields type (trim body)) := by
              simp [parseLegacyFile, htype', hbad, hcontent]
            have hscopes := scope_iff hshows hscope
            rw [hparse]
            constructor
            · rintro ⟨l, hl, hp⟩
              split at hl
              · cases hl
              · rename_i hok
                obtain rfl := Option.some.inj hl
                have hprov := hp.provenance
                refine ⟨fields, body, rfl, ?_⟩
                exact {
                  id := (id_iff _).mp hp.id
                  scope := hscopes.mp ⟨hp.scope, by simpa using hok⟩
                  tags := tags_iff.mp hp.tags
                  provenance := (provenance_iff hshows).mp hprov
                  confidence := (confidence_iff hprov).mp hp.confidence
                  trust := (trust_iff hshows _).mp hp.trust
                  relations := relations_iff.mp hp.relations
                  retention := (retention_iff hshows).mp hp.retention
                  revision := version_iff.mp hp.version
                  created := (created_iff now).mp hp.createdAt
                  updated := (updated_iff _).mp (by
                    have hcreated := hp.createdAt
                    have hupdated := hp.updatedAt
                    simp only [migrated] at hcreated hupdated
                    rwa [hcreated] at hupdated)
                  validFrom := (date_iff hshows _).mp (hp.validFrom.trans (truthy_readDate hshows _))
                  validUntil := (date_iff hshows _).mp (hp.validUntil.trans (truthy_readDate hshows _))
                  observedAt := (date_iff hshows _).mp (hp.observedAt.trans (truthy_readDate hshows _))
                  lastSeen := (date_iff hshows _).mp hp.lastSeen
                  archivedAt := (date_iff hshows _).mp hp.archivedAt
                  lastValidated := hp.lastValidated
                  supersededBy := (supersededBy_iff _).mp hp.supersededBy }
            · rintro ⟨fields', body', htext, hm⟩
              cases htext
              obtain ⟨hscopeEq, hok⟩ := hscopes.mpr hm.scope
              have hprov := (provenance_iff hshows).mpr hm.provenance
              have hcreated := (created_iff now).mpr hm.created
              rw [hok]
              refine ⟨_, rfl, ?_⟩
              exact {
                id := (id_iff _).mpr hm.id
                type := rfl
                scope := hscopeEq
                content := rfl
                tags := tags_iff.mpr hm.tags
                importance := rfl
                confidence := (confidence_iff hprov).mpr hm.confidence
                trust := (trust_iff hshows _).mpr hm.trust
                provenance := hprov
                relations := relations_iff.mpr hm.relations
                retention := (retention_iff hshows).mpr hm.retention
                version := version_iff.mpr hm.revision
                createdAt := hcreated
                updatedAt := by
                  simp only [migrated]
                  rw [hcreated]
                  exact (updated_iff _).mpr hm.updated
                validFrom := ((date_iff hshows _).mpr hm.validFrom).trans
                  (truthy_readDate hshows _).symm
                validUntil := ((date_iff hshows _).mpr hm.validUntil).trans
                  (truthy_readDate hshows _).symm
                observedAt := ((date_iff hshows _).mpr hm.observedAt).trans
                  (truthy_readDate hshows _).symm
                supersededBy := (supersededBy_iff _).mpr hm.supersededBy
                lastSeen := (date_iff hshows _).mpr hm.lastSeen
                archivedAt := (date_iff hshows _).mpr hm.archivedAt
                lastValidated := hm.lastValidated }

/-- One instant besides the epoch. -/
def newYear : Host where
  dateParse s := if s = "2026-01-01T00:00:00.000Z" then some 1767225600000 else none
  toISOString t := if t = 1767225600000 then "2026-01-01T00:00:00.000Z" else "1970-01-01T00:00:00.000Z"
  numText n := if n = .finite 3 then "3" else "0"
  toNumber s := if s = "3" then .finite 3 else .finite 0
  objText _ := "[object Object]"

theorem shows_newYear : Shows newYear := by
  constructor
  · intro n
    by_cases hn : n = .finite 3
    · exact ⟨'3', by simp [newYear, hn], by decide⟩
    · exact ⟨'0', by simp [newYear, hn], by decide⟩
  · intro t
    by_cases ht : t = 1767225600000 <;> simp [newYear, ht]

/-- A file that was written by hand when provenance was still a word. -/
def handWritten (provenance : Yaml) : Fields :=
  { type := some (.str "instruction"), tags := some (.seq [.str "style"]),
    created := some (.str "2026-01-01T00:00:00.000Z"), provenance := some provenance }

theorem migration_preserves_iff_object :
    ∃ l, parseLegacyFile newYear (fun _ => .nan) 1767225600000 ["global", "m-1.md"]
        (.yaml (handWritten (.map [("sourceType", .str "manual")])) "Answer in one line.") = some l ∧
      l.trust = .trusted := by
  obtain ⟨l, hl, hp⟩ := (@migration_preserves_iff newYear (fun _ => .nan) 1767225600000
    ["global", "m-1.md"] _ shows_newYear
    (.yaml (handWritten (.map [("sourceType", .str "manual")])) "Answer in one line.") rfl).mpr
    ⟨_, _, rfl, by
      constructor
      case trust =>
        have hmanual : SourceType.manual ∉ [SourceType.conversation, SourceType.system] := by decide
        exact .inr hmanual
      case lastValidated => rfl
      all_goals simp [handWritten, PlainText, asStr, stringOf, isTruthy, validDate, newYear,
        saysConversation, Store.readProvenance, relationItems, typedEdges, relatedIds]⟩
  exact ⟨l, hl, hp.trust.trans (by decide +kernel)⟩

/-- A digest of the time when provenance was a word is served as unverified, and is trusted once it
    has been migrated. -/
theorem auto_file_gains_trust :
    (served newYear ["global", "m-1.md"]
        (.yaml (handWritten (.str "auto")) "Answer in one line.")).map (·.trust) =
      some .unverified ∧
    (parseLegacyFile newYear (fun _ => .nan) 1767225600000 ["global", "m-1.md"]
        (.yaml (handWritten (.str "auto")) "Answer in one line.")).map (·.trust) = some .trusted := by
  decide +kernel

end Files

end Remembra.Sqlite.Legacy
