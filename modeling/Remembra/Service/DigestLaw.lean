import Remembra.Service.Insert
import Remembra.Service.StaleWrite

/-! Does a digest lose an extracted fact? A round of its loop first decides what to do with an item and
    then does it (`digestItem_eq`). Every item that has been answered is served by an active memory of
    its own type and scope exactly as long as each round keeps to three things: an item that is dropped
    as a duplicate, or for which a memory has been revived, has such a memory already; a merge goes into
    an active memory; and no earlier item needs the text that the merge replaces (`facts_kept_iff`). -/

namespace Remembra.Service
open Store (Memory JsNum StoreInput TenantFilter)
open Sqlite (Row Memories rowOf setUpdated setRevived tenantWhere storeRecord)
open Sqlite.Serial (Tables updatedOver)
open Prog

/-! ### A round, taken apart -/

/-- What the loop does with an item. -/
inductive Course where
  /-- The dedup set has the key, or an active memory has nearly the text. -/
  | duplicate
  | revived
  /-- The language model calls the item a duplicate of the candidate. -/
  | skipped (candidate : Memory)
  | merged (candidate : Memory) (content : String)
  | fresh

def decidedCourse (candidate : Memory) : Except Thrown Decision → Course
  | .ok .skip => .skipped candidate
  | .ok (.merge content) => .merged candidate content
  | .ok .store => .fresh
  | .error _ => .fresh

section Rounds
variable (C : Config)

/-- The part of `digestDecide` before it writes. -/
def decideCourse (archived : List Memory) (item : ExtractedMemory) (scope : String)
    (st : DigestState) : Act Course := do
  let itemVec ← maybeEmbed C item.content
  match findCandidate C item scope (st.active ++ archived) itemVec with
  | none => pure .fresh
  | some candidate => do
    let decision ← Act.ask (.merge item.content candidate.type candidate.content)
    pure (decidedCourse candidate decision)

/-- The part of `digestFresh` before it writes a text. -/
def freshCourse (tenant : Option TenantFilter) (archived : List Memory) (item : ExtractedMemory)
    (scope key : String) (st : DigestState) : Act Course := do
  let exact ← reviveFound (archivedDup C archived scope key) tenant
  if exact then pure .revived
  else if (fuzzy C item scope st.active).isSome then pure .duplicate
  else do
    let near ← reviveFound (fuzzy C item scope archived) tenant
    if near then pure .revived
    else decideCourse C archived item scope st

/-- The part of a round before it writes a text. -/
def course (input : DigestInput) (tenant : Option TenantFilter) (archived : List Memory)
    (st : DigestState) (extractedItem : ExtractedMemory) : Act Course := do
  unlessCancelled
  let item := cleanItem C extractedItem
  let scope := itemScope input item
  let key := dedupKey C item.type item.content scope
  if key ∈ st.seen then pure .duplicate
  else freshCourse C tenant archived item scope key st

/-- The rest of a round. -/
def follow (input : DigestInput) (options : Options) (tenant : Option TenantFilter)
    (st : DigestState) (extractedItem : ExtractedMemory) (taken : Course) : Act DigestState :=
  let item := cleanItem C extractedItem
  let scope := itemScope input item
  let key := dedupKey C item.type item.content scope
  match taken with
  | .duplicate => pure st.skip
  | .revived => pure (st.revived key)
  | .skipped _ => pure st.skip
  | .merged candidate content => digestMerge C input tenant candidate content st
  | .fresh => digestStore C input options item scope key st

theorem digestDecide_eq (input : DigestInput) (options : Options) (tenant : Option TenantFilter)
    (archived : List Memory) (st : DigestState) (extractedItem : ExtractedMemory) :
    digestDecide C input options tenant archived (cleanItem C extractedItem)
        (itemScope input (cleanItem C extractedItem))
        (dedupKey C (cleanItem C extractedItem).type (cleanItem C extractedItem).content
          (itemScope input (cleanItem C extractedItem))) st =
      decideCourse C archived (cleanItem C extractedItem)
          (itemScope input (cleanItem C extractedItem)) st >>=
        follow C input options tenant st extractedItem := by
  unfold digestDecide decideCourse
  rw [Prog.bind_assoc]
  refine congrArg _ (funext fun itemVec => ?_)
  cases findCandidate C (cleanItem C extractedItem) (itemScope input (cleanItem C extractedItem))
    (st.active ++ archived) itemVec with
  | none => rfl
  | some candidate =>
    dsimp only
    rw [Prog.bind_assoc]
    refine congrArg _ (funext fun decision => ?_)
    rcases decision with e | decision
    · rfl
    · cases decision <;> rfl

/-- A round decides, and then does what it has decided. -/
theorem digestItem_eq (input : DigestInput) (options : Options) (tenant : Option TenantFilter)
    (archived : List Memory) (st : DigestState) (extractedItem : ExtractedMemory) :
    digestItem C input options tenant archived st extractedItem =
      course C input tenant archived st extractedItem >>=
        follow C input options tenant st extractedItem := by
  unfold digestItem course
  rw [Prog.bind_assoc]
  refine congrArg _ (funext fun _ => ?_)
  dsimp only
  split
  · rfl
  · unfold digestFresh freshCourse
    rw [Prog.bind_assoc]
    refine congrArg _ (funext fun exact => ?_)
    split
    · rfl
    split
    · rfl
    rw [Prog.bind_assoc]
    refine congrArg _ (funext fun near => ?_)
    split
    · rfl
    · exact digestDecide_eq C input options tenant archived st extractedItem

/-- What the loop starts from. -/
structure Begun where
  tenant : Option TenantFilter
  extracted : List ExtractedMemory
  active : List Memory
  archived : List Memory

/-- The part of `digest` before the loop. -/
def digestBegin (input : DigestInput) (options : Options) : Act Begun := do
  Act.ensure C.extractionEnabled .invalidInput "memory extraction is disabled by policy"
  let tenant ← freshTenantFilter C options .write none
  let extracted ← extractItems input.transcript
  let current ← Act.all false tenant
  let active ← readable C options current
  let everything ← Act.all true tenant
  let archived ← readable C options (archivedOnes everything)
  pure ⟨tenant, extracted, active, archived⟩

def Begun.result (b : Begun) (st : DigestState) : DigestResult :=
  ⟨b.extracted.length, st.stored, st.skippedDuplicates, st.merged⟩

theorem digest_eq (input : DigestInput) (options : Options) :
    digest C input options = digestBegin C input options >>= fun b =>
      b.extracted.foldlM (digestItem C input options b.tenant b.archived) (digestStart C b.active) >>=
        fun st => pure (b.result st) := by
  unfold digest digestBegin
  simp only [Prog.bind_assoc]
  rfl

end Rounds

/-! ### What serves an item -/

/-- An item that has been answered, and how. -/
structure Answered where
  item : ExtractedMemory
  course : Course

/-- The loop between two rounds. -/
structure Loop where
  st : DigestState
  world : World
  answered : List Answered := []

/-- The content of a merge, as it is written. -/
def mergedText (C : Config) (merged : String) : String :=
  ((redactPair C merged []).map Prod.fst).getD merged

section Law
variable (C : Config) (input : DigestInput) (options : Options)

/-- The content is the item's, as a store cleans it, or nearly its text, or what the merge function has
    returned for it, or what the merge function has called it a duplicate of. -/
def HasText (a : Answered) (content : String) : Prop :=
  (∃ parsed cleaned, checkedInput C (digestStoreInput C input options (cleanItem C a.item)
      (itemScope input a.item)) options = .ok parsed ∧ cleanedInput C parsed = .ok cleaned ∧
      content = cleaned.content) ∨
    nearDuplicate C (cleanItem C a.item).content content = true ∨
    (∃ m merged, a.course = .merged m merged ∧ content = mergedText C merged) ∨
    ∃ m, a.course = .skipped m ∧ content = m.content

variable (tenant : Option TenantFilter)

/-- The row is an active memory of the item's type and scope with its text. -/
structure Serves (a : Answered) (row : Row) : Prop where
  active : row.archivedAt = none
  type : row.type = a.item.type
  scope : row.scope = itemScope input a.item
  tenant : tenantWhere tenant row = true
  text : HasText C input options a row.content

def Served (memories : Memories) (a : Answered) : Prop :=
  ∃ id row, memories.get id = some row ∧ Serves C input options tenant a row

/-- The item is served by another memory than this one. -/
def ServedBeside (memories : Memories) (id : String) (a : Answered) : Prop :=
  ∃ k row, k ≠ id ∧ memories.get k = some row ∧ Serves C input options tenant a row

/-- The candidate is active and, with the new text, of the item's type and scope. -/
structure Fits (candidate : Memory) (content : String) (a : Answered) : Prop where
  active : candidate.archivedAt = none
  type : candidate.type = a.item.type
  scope : candidate.scope = itemScope input a.item
  text : HasText C input options a content

end Law

/-! ### Runs of the loop -/

section Loops
variable (C : Config) (E : Environment) (input : DigestInput) (options : Options) (b : Begun)

/-- One round; none where it throws. -/
def round (L : Loop) (item : ExtractedMemory) : Option Loop :=
  match (course C input b.tenant b.archived L.st item).exec (handle C E) L.world with
  | (.error _, _) => none
  | (.ok taken, w) =>
    match (follow C input options b.tenant L.st item taken).exec (handle C E) w with
    | (.error _, _) => none
    | (.ok st, w) => some ⟨st, w, L.answered ++ [⟨item, taken⟩]⟩

/-- The loop before the first round. -/
def Begun.loop (w : World) : Loop := { st := digestStart C b.active, world := w }

/-- Every item so far is served. -/
def AllServed (L : Loop) : Prop :=
  ∀ a ∈ L.answered, Served C input options b.tenant L.world.tables.memories a

/-- The decision is a sound one in the world in which it is made. -/
def SoundCourse (L : Loop) (item : ExtractedMemory) (taken : Course) (w : World) : Prop :=
  match taken with
  | .fresh => True
  | .merged candidate content => ∀ a ∈ L.answered ++ [⟨item, .merged candidate content⟩],
      ServedBeside C input options b.tenant w.tables.memories candidate.id a ∨
        Fits C input options candidate (mergedText C content) a
  | taken => Served C input options b.tenant w.tables.memories ⟨item, taken⟩

/-- The round decides soundly. -/
def Sound (L : Loop) (item : ExtractedMemory) : Prop :=
  ∀ taken w, (course C input b.tenant b.archived L.st item).exec (handle C E) L.world =
    (.ok taken, w) → SoundCourse C input options b L item taken w

end Loops

section Facts
variable {C : Config} {E : Environment} {input : DigestInput} {options : Options} {b : Begun}
  {memories memories' : Memories} {tenant : Option TenantFilter}

/-! ### While a round decides -/

/-- A round reads and revives before it writes a text. -/
def Deciding (tenant : Option TenantFilter) (q : Ask) : Prop :=
  q.Reads ∨ ∃ id, q = .revive id tenant

theorem only_course (archived : List Memory) (st : DigestState) (item : ExtractedMemory) :
    (course C input tenant archived st item).Only (Deciding tenant) := by
  have hread (q : Ask) (hq : q.Reads) (_ : q.Checked) : Deciding tenant q := .inl hq
  have hrevive (found : Option Memory) : (reviveFound found tenant).Only (Deciding tenant) := by
    cases found with
    | none => trivial
    | some m =>
      refine only_bind (only_bind (only_request.mpr (.inr ⟨m.id, rfl⟩)) fun _ => ?_) fun _ => trivial
      exact only_ofExcept _
  refine only_bind (only_bind (only_read hread trivial rfl) fun _ => only_ensure _ _ _) fun _ => ?_
  dsimp only
  split
  · trivial
  refine only_bind (hrevive _) fun exact => ?_
  split
  · trivial
  split
  · trivial
  refine only_bind (hrevive _) fun near => ?_
  split
  · trivial
  refine only_bind (only_maybeEmbed C hread _) fun itemVec => ?_
  split
  · trivial
  · exact only_bind (only_request.mpr (.inl trivial)) fun _ => trivial

/-- A memory that is active is not one that a revival changes. -/
theorem get_handle_revive {w : World} {id k : String} {row : Row}
    (hrow : w.tables.memories.get k = some row) (hactive : row.archivedAt = none) :
    (handle C E (.revive id tenant) w).2.tables.memories.get k = some row := by
  rcases h : Tables.revive C.backend w.tables (E.writeClock w.writes) id tenant with ⟨r, t⟩
  have htables : (handle C E (.revive id tenant) w).2.tables = t := by
    simp only [handle, h, World.written]
  rw [htables]
  obtain ⟨-, ⟨-, -, rfl⟩ | ⟨old, hsel, harchived, hmemories, -⟩⟩ := Tables.revive_cases h
  · exact hrow
  · have hne : k ≠ id := by
      rintro rfl
      rw [(Sqlite.Serial.selected_eq_some.mp hsel).1, Option.some.injEq] at hrow
      exact harchived (hrow ▸ hactive)
    rw [hmemories]
    exact (Sqlite.get_updateWhere_selected hsel (setRevived (Sqlite.Serial.stamp C.backend
      (E.writeClock w.writes))) (fun _ => rfl) k).trans ((if_neg hne).trans hrow)

theorem served_deciding {q : Ask} (hq : Deciding b.tenant q) {w : World} {a : Answered}
    (h : Served C input options b.tenant w.tables.memories a) :
    Served C input options b.tenant (handle C E q w).2.tables.memories a := by
  rcases hq with hreads | ⟨id, rfl⟩
  · rw [tables_handle hreads]
    exact h
  · obtain ⟨k, row, hrow, hserves⟩ := h
    exact ⟨k, row, get_handle_revive hrow hserves.active, hserves⟩

theorem served_course {st : DigestState} {item : ExtractedMemory} {w : World} {a : Answered}
    (h : Served C input options b.tenant w.tables.memories a) :
    Served C input options b.tenant ((course C input b.tenant b.archived st item).exec
      (handle C E) w).2.tables.memories a :=
  exec_induct (handle C E) (I := fun w => Served C input options b.tenant w.tables.memories a)
    (fun _ _ hq hw => served_deciding hq hw) (only_course _ _ _) h

/-! ### The item that is stored -/

/-- A new row leaves the others. -/
theorem Served.insert {row : Row} {a : Answered}
    (h : Served C input options tenant memories a) (hinsert : memories.insert row = some memories') :
    Served C input options tenant memories' a := by
  obtain ⟨k, old, hold, hserves⟩ := h
  refine ⟨k, old, ?_, hserves⟩
  have hne : k ≠ row.id := by
    rintro rfl
    rw [Table.insert_eq_none.mpr (by rw [hold]; simp)] at hinsert
    cases hinsert
  rw [Table.get_insert hinsert, if_neg hne]
  exact hold

/-- The columns of a new record are its caller's. -/
theorem tenantWhere_storeRecord (now : ℤ) (id : String) (i : StoreInput)
    (vector : Option (List JsNum)) (tenant : Option TenantFilter) :
    tenantWhere tenant (rowOf C.backend.platform
      (storeRecord C.backend.platform now id i vector tenant)) = true := by
  cases tenant with
  | none => rfl
  | some t =>
    obtain ⟨org, project, user, agent, wide⟩ := t
    cases project <;> cases user <;> cases agent <;>
      simp [tenantWhere, rowOf, storeRecord, Store.storeRecord]

/-- The checks and the policy leave the type and the scope. -/
theorem checked_type_scope {i parsed : StoreInput} (h : checkedInput C i options = .ok parsed) :
    parsed.type = i.type ∧ parsed.scope = i.scope := by
  obtain ⟨retention, access, provenance, owner, rfl⟩ := checked_fields C h
  exact ⟨rfl, rfl⟩

theorem cleaned_type_scope {parsed cleaned : StoreInput} (h : cleanedInput C parsed = .ok cleaned) :
    cleaned.type = parsed.type ∧ cleaned.scope = parsed.scope := by
  unfold cleanedInput applyInputPolicy at h
  have hredacted : (if C.redactOn then applyRedaction C parsed else parsed).type = parsed.type ∧
      (if C.redactOn then applyRedaction C parsed else parsed).scope = parsed.scope := by
    unfold applyRedaction
    split
    · split <;> exact ⟨rfl, rfl⟩
    · exact ⟨rfl, rfl⟩
  generalize (if C.redactOn then applyRedaction C parsed else parsed) = redacted at h hredacted
  cases hpolicy : applySensitivePolicy C
      ⟨redacted.content, redacted.trust, redacted.metaFields⟩ with
  | error e => simp [hpolicy, Except.map] at h
  | ok held =>
    simp only [hpolicy, Except.map, Except.ok.injEq] at h
    rw [← h]
    unfold flagInjection
    split <;> exact hredacted

theorem itemScope_cleanItem (item : ExtractedMemory) :
    itemScope input (cleanItem C item) = itemScope input item := by
  unfold cleanItem
  split <;> rfl

theorem type_cleanItem (item : ExtractedMemory) : (cleanItem C item).type = item.type := by
  unfold cleanItem
  split <;> rfl

/-- The stored item is served by its own record. -/
theorem serves_stored {item : ExtractedMemory} {parsed cleaned : StoreInput} {taken : Course}
    (hchecked : checkedInput C (digestStoreInput C input options (cleanItem C item)
      (itemScope input (cleanItem C item))) options = .ok parsed)
    (hcleaned : cleanedInput C parsed = .ok cleaned) (now : ℤ) (id : String)
    (vector : Option (List JsNum)) (tenant : Option TenantFilter) :
    Serves C input options tenant ⟨item, taken⟩ (rowOf C.backend.platform
      (storeRecord C.backend.platform now id cleaned vector tenant)) := by
  obtain ⟨htype, hscope⟩ := cleaned_type_scope hcleaned
  obtain ⟨htype', hscope'⟩ := checked_type_scope hchecked
  rw [itemScope_cleanItem] at hchecked hscope'
  refine ⟨rfl, ?_, ?_, tenantWhere_storeRecord _ _ _ _ _, .inl ⟨parsed, cleaned, hchecked, hcleaned,
    rfl⟩⟩
  · exact (htype.trans htype').trans (type_cleanItem item)
  · exact hscope.trans hscope'

/-! ### The item that is merged -/

/-- The row with the merged text over the candidate's. -/
theorem serves_merged_iff {row : Row} {candidate : Memory} {patch : Patch} {content : String}
    {a : Answered} (hpatch : patch.content = some content) (htype : patch.type = none)
    (hscope : patch.scope = none) (hwhere : tenantWhere tenant row = true) (now : ℤ) :
    Serves C input options tenant a (setUpdated C.backend.platform
        (updatedOver C.backend now row (patch.over candidate)) row) ↔
      Fits C input options candidate content a := by
  have hcontent : (patch.over candidate).content = content := by simp [Patch.over, hpatch]
  have htype' : (patch.over candidate).type = candidate.type := by simp [Patch.over, htype]
  have hscope' : (patch.over candidate).scope = candidate.scope := by simp [Patch.over, hscope]
  constructor
  · rintro ⟨hactive, htype, hscope, -, htext⟩
    exact ⟨hactive, htype'.symm.trans htype, hscope'.symm.trans hscope, hcontent ▸ htext⟩
  · rintro ⟨hactive, htype, hscope, htext⟩
    refine ⟨hactive, htype'.trans htype, hscope'.trans hscope, hwhere, ?_⟩
    change HasText C input options a (patch.over candidate).content
    rwa [hcontent]

/-- A merge that goes through leaves every other row and puts its text over the candidate's. -/
theorem served_merge_iff {candidate : Memory} {merged : String} {st st' : DigestState}
    {w w' : World} (h : (digestMerge C input tenant candidate merged st).exec (handle C E) w =
      (.ok st', w')) (a : Answered) :
    Served C input options tenant w'.tables.memories a ↔
      ServedBeside C input options tenant w.tables.memories candidate.id a ∨
        Fits C input options candidate (mergedText C merged) a := by
  unfold digestMerge at h
  obtain ⟨embedding, w₁, hembedding, h⟩ := (exec_bind_eq_ok _).mp h
  obtain ⟨m, w₂, hupdate, h⟩ := (exec_bind_eq_ok _).mp h
  cases h
  have htables := tables_of_exec (only_maybeEmbed C (fun q hq _ => hq) _) hembedding
  obtain ⟨row, hsel, hget⟩ := get_update (tables_update_of_exec hupdate)
  rw [htables] at hsel hget
  have hnew := @serves_merged_iff C input options tenant row candidate
    { content := some (mergedText C merged), embedding := some embedding,
      source := input.source.map some } (mergedText C merged) a rfl rfl rfl
    (Sqlite.Serial.selected_eq_some.mp hsel).2 (E.writeClock w₁.writes)
  constructor
  · rintro ⟨k, r, hr, hserves⟩
    rw [hget] at hr
    split at hr
    · cases hr
      exact .inr (hnew.mp hserves)
    · rename_i hne
      exact .inl ⟨k, r, hne, hr, hserves⟩
  · rintro (⟨k, r, hne, hr, hserves⟩ | hfits)
    · exact ⟨k, r, (hget k).trans ((if_neg hne).trans hr), hserves⟩
    · exact ⟨candidate.id, _, (hget candidate.id).trans (if_pos rfl), hnew.mpr hfits⟩

/-! ### Rounds -/

theorem round_eq_some {L L' : Loop} {item : ExtractedMemory} :
    round C E input options b L item = some L' ↔ ∃ taken w st w',
      (course C input b.tenant b.archived L.st item).exec (handle C E) L.world = (.ok taken, w) ∧
        (follow C input options b.tenant L.st item taken).exec (handle C E) w = (.ok st, w') ∧
        L' = ⟨st, w', L.answered ++ [⟨item, taken⟩]⟩ := by
  unfold round
  rcases (course C input b.tenant b.archived L.st item).exec (handle C E) L.world with ⟨e | taken, w⟩
  · simp
  · dsimp only
    rcases hfollow : (follow C input options b.tenant L.st item taken).exec (handle C E) w with
      ⟨e | st, w'⟩
    · simp [hfollow]
    · simp [hfollow, eq_comm]

/-- A round keeps every item served exactly when it decides soundly. -/
theorem allServed_round (htenant : tenantFilter C.strict options .write none = .ok b.tenant)
    {L L' : Loop} {item : ExtractedMemory} (hL : AllServed C input options b L)
    (h : round C E input options b L item = some L') :
    AllServed C input options b L' ↔ Sound C E input options b L item := by
  obtain ⟨taken, w, st, w', hcourse, hfollow, rfl⟩ := round_eq_some.mp h
  have hsound : Sound C E input options b L item ↔ SoundCourse C input options b L item taken w := by
    refine ⟨fun h => h taken w hcourse, fun h taken' w₁ hcourse' => ?_⟩
    rw [hcourse, Prod.mk.injEq, Except.ok.injEq] at hcourse'
    obtain ⟨rfl, rfl⟩ := hcourse'
    exact h
  have hbefore : ∀ a ∈ L.answered, Served C input options b.tenant w.tables.memories a := by
    intro a ha
    have hserved := @served_course C E input options b L.st item L.world a (hL a ha)
    rwa [hcourse] at hserved
  -- Where the round writes nothing more, the new item is what is left to be served.
  have hquiet (hworld : w' = w) : AllServed C input options b ⟨st, w', L.answered ++ [⟨item, taken⟩]⟩ ↔
      Served C input options b.tenant w.tables.memories ⟨item, taken⟩ := by
    subst hworld
    refine ⟨fun h => h _ (by simp), fun hserved a ha => ?_⟩
    rcases List.mem_append.mp ha with ha | ha
    · exact hbefore a ha
    · exact List.mem_singleton.mp ha ▸ hserved
  rw [hsound]
  cases taken with
  | duplicate =>
    cases hfollow
    exact hquiet rfl
  | revived =>
    cases hfollow
    exact hquiet rfl
  | skipped candidate =>
    cases hfollow
    exact hquiet rfl
  | merged candidate merged =>
    exact forall₂_congr fun a _ => served_merge_iff hfollow a
  | fresh =>
    refine iff_of_true (fun a ha => ?_) trivial
    change (digestStore ..).exec (handle C E) w = _ at hfollow
    unfold digestStore at hfollow
    obtain ⟨stored, w₁, hstored, hdone⟩ := (exec_bind_eq_ok _).mp hfollow
    cases hdone
    obtain ⟨parsed, cleaned, tenant, vector, now, id, hchecked, hcleaned, hfilter, hrecord, hinsert⟩ :=
      store_inserts hstored
    rw [htenant, Except.ok.injEq] at hfilter
    rcases List.mem_append.mp ha with ha | ha
    · exact (hbefore a ha).insert hinsert
    · rw [List.mem_singleton.mp ha]
      refine ⟨_, _, (Table.get_insert hinsert _).trans (if_pos rfl), ?_⟩
      rw [hrecord, ← hfilter]
      exact serves_stored hchecked hcleaned _ _ _ _

/-- The items that a state has counted. -/
def DigestState.count (st : DigestState) : ℕ :=
  st.stored.length + st.skippedDuplicates + st.merged

/-- What is done with an item counts it once, whatever the answers are. -/
theorem count_follow {W : Type} {answer : (q : Ask) → W → q.Answer × W} {tenant : Option TenantFilter}
    {st st' : DigestState} {item : ExtractedMemory} {taken : Course} {w w' : W}
    (h : (follow C input options tenant st item taken).exec answer w = (.ok st', w')) :
    st'.count = st.count + 1 := by
  unfold DigestState.count
  cases taken with
  | duplicate =>
    cases h
    simp only [DigestState.skip]
    omega
  | revived =>
    cases h
    simp only [DigestState.revived]
    omega
  | skipped candidate =>
    cases h
    simp only [DigestState.skip]
    omega
  | merged candidate merged =>
    change (digestMerge ..).exec answer w = _ at h
    unfold digestMerge at h
    obtain ⟨embedding, w₁, -, h⟩ := (exec_bind_eq_ok _).mp h
    obtain ⟨m, w₂, -, hdone⟩ := (exec_bind_eq_ok _).mp h
    cases hdone
    simp only [DigestState.remerged]
    omega
  | fresh =>
    change (digestStore ..).exec answer w = _ at h
    unfold digestStore at h
    obtain ⟨stored, w₁, -, hdone⟩ := (exec_bind_eq_ok _).mp h
    cases hdone
    simp only [DigestState.push, List.length_append, List.length_singleton]
    omega

/-- A round counts its item once. -/
theorem count_round {L L' : Loop} {item : ExtractedMemory}
    (h : round C E input options b L item = some L') : L'.st.count = L.st.count + 1 := by
  obtain ⟨taken, w, st, w', -, hfollow, rfl⟩ := round_eq_some.mp h
  exact count_follow hfollow

/-- The loop of a digest is a run of rounds. -/
theorem exec_loop : ∀ (items : List ExtractedMemory) (L : Loop) {st : DigestState} {w : World},
    (items.foldlM (digestItem C input options b.tenant b.archived) L.st).exec (handle C E) L.world =
        (.ok st, w) →
      ∃ answered, Transition.run (round C E input options b) L items = some ⟨st, w, answered⟩ ∧
        answered.map (·.item) = L.answered.map (·.item) ++ items ∧
        st.count = L.st.count + items.length
  | [], L, st, w, h => by
    cases h
    exact ⟨L.answered, rfl, (List.append_nil _).symm, rfl⟩
  | item :: items, L, st, w, h => by
    rw [List.foldlM_cons, digestItem_eq] at h
    obtain ⟨st₁, w₁, hround, hrest⟩ := (exec_bind_eq_ok _).mp h
    obtain ⟨taken, u, hcourse, hfollow⟩ := (exec_bind_eq_ok _).mp hround
    have hstep : round C E input options b L item =
        some ⟨st₁, w₁, L.answered ++ [⟨item, taken⟩]⟩ :=
      round_eq_some.mpr ⟨taken, u, st₁, w₁, hcourse, hfollow, rfl⟩
    obtain ⟨answered, hrun, hitems, hcount⟩ :=
      exec_loop items ⟨st₁, w₁, L.answered ++ [⟨item, taken⟩]⟩ hrest
    have hone := count_round hstep
    refine ⟨answered, Transition.run_cons_some.mpr ⟨_, hstep, hrun⟩, ?_, ?_⟩
    · rw [hitems]
      simp
    · rw [hcount, hone, List.length_cons]
      omega

end Facts

/-! ### The digest -/

section Digest
variable (C : Config) (E : Environment) (input : DigestInput) (options : Options) (w : World)

/-- The digest comes to its loop. -/
def Begins (b : Begun) (w₀ : World) : Prop :=
  (digestBegin C input options).exec (handle C E) w = (.ok b, w₀)

/-- After each round of the loop every item so far is served. -/
def FactsKept : Prop :=
  ∀ b w₀, Begins C E input options w b w₀ →
    Transition.Everywhere (round C E input options b) (AllServed C input options b) (b.loop C w₀)
      b.extracted

/-- Each round of the loop decides soundly. -/
def SoundRounds : Prop :=
  ∀ b w₀, Begins C E input options w b w₀ →
    Transition.Along (round C E input options b) (Sound C E input options b) (b.loop C w₀) b.extracted

/-- When the digest returns, every extracted item is served. -/
def LosesNothing : Prop :=
  ∀ result w', (digest C input options).exec (handle C E) w = (.ok result, w') →
    ∃ b w₀, ∃ answered : List Answered, Begins C E input options w b w₀ ∧
      answered.map (·.item) = b.extracted ∧
      ∀ a ∈ answered, Served C input options b.tenant w'.tables.memories a

end Digest

section Digest
variable {C : Config} {E : Environment} {input : DigestInput} {options : Options} {w : World}

theorem tenantFilter_of_begins {V : Type} {answer : (q : Ask) → V → q.Answer × V} {b : Begun} {v v₀ : V}
    (h : (digestBegin C input options).exec answer v = (.ok b, v₀)) :
    tenantFilter C.strict options .write none = .ok b.tenant := by
  unfold digestBegin at h
  obtain ⟨u, w₁, -, h⟩ := (exec_bind_eq_ok _).mp h
  obtain ⟨tenant, w₂, htenant, h⟩ := (exec_bind_eq_ok _).mp h
  obtain ⟨extracted, w₃, -, h⟩ := (exec_bind_eq_ok _).mp h
  obtain ⟨current, w₄, -, h⟩ := (exec_bind_eq_ok _).mp h
  obtain ⟨active, w₅, -, h⟩ := (exec_bind_eq_ok _).mp h
  obtain ⟨everything, w₆, -, h⟩ := (exec_bind_eq_ok _).mp h
  obtain ⟨archived, w₇, -, h⟩ := (exec_bind_eq_ok _).mp h
  cases h
  exact tenantFilter_of_exec htenant

/-- A digest that returns has run its loop over every item, and has counted each once. -/
theorem digest_returns {result : DigestResult} {w' : World}
    (h : (digest C input options).exec (handle C E) w = (.ok result, w')) :
    ∃ b w₀ L, Begins C E input options w b w₀ ∧
      Transition.run (round C E input options b) (b.loop C w₀) b.extracted = some L ∧ L.world = w' ∧
      L.answered.map (·.item) = b.extracted ∧
      result.stored.length + result.skippedDuplicates + result.merged = result.extracted := by
  rw [digest_eq] at h
  obtain ⟨b, w₀, hbegins, h⟩ := (exec_bind_eq_ok _).mp h
  obtain ⟨st, w₁, hloop, hdone⟩ := (exec_bind_eq_ok _).mp h
  cases hdone
  obtain ⟨answered, hrun, hitems, hcount⟩ := exec_loop b.extracted (b.loop C w₀) hloop
  refine ⟨b, w₀, _, hbegins, hrun, rfl, hitems, ?_⟩
  have hzero : (b.loop C w₀).st.count = 0 := rfl
  rw [hzero, Nat.zero_add] at hcount
  exact hcount

theorem factsKept_iff : FactsKept C E input options w ↔ SoundRounds C E input options w := by
  refine forall₂_congr fun b w₀ => forall_congr' fun hbegins => ?_
  have htenant := tenantFilter_of_begins hbegins
  exact Transition.everywhere_iff_along
    (fun L item L' hL hok h => (allServed_round htenant hL h).mpr hok) (fun L hL => hL)
    (fun L item L' hL hnot h hserved => hnot ((allServed_round htenant hL h).mp hserved))
    (by simp [AllServed, Begun.loop]) _

end Digest

/-- A model that extracts one sentence. -/
def teaExtracted : Environment :=
  { steady with extract := fun _ _ => .ok [{ type := .fact, content := "tea at five" }] }

/-- The sentence is archived in another scope. -/
def teaArchived : World :=
  let stored := ((store plainConfig { type := .fact, content := "tea at five", scope := "other" } {}
    none).exec (handle plainConfig teaExtracted)
      (initial {} ⟨"openai", .external, .internal, false, 0⟩).world).2
  ((archive plainConfig "m-0" {}).exec (handle plainConfig teaExtracted) stored).2

end Remembra.Service
