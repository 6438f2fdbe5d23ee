import Remembra.Lib.Versioned
import Remembra.Store.Sound

/-! Optimistic concurrency in the file store. Callers read records, patch what they read and hand it
    back to `update`, with the version they expect or without; the store's lock makes each call a step
    of its own.

    In sound trees each call is a change of one record (`fileStore_lawful`). `archive` and `revive` move
    a record without raising its version: an update that expects a version is told of every update
    since its read, and of no move. -/

namespace Remembra.Store

/-! ### The store and its callers -/

/-- What `update` is handed is the record that was read, with some of its fields patched: who it
    belongs to and whether it is archived are no part of a patch, and its scope is checked. -/
def patches (m patched : Memory) : Bool :=
  patched.id = m.id && patched.tenantId = m.tenantId && patched.projectId = m.projectId &&
    patched.userId = m.userId && patched.agentId = m.agentId && patched.archivedAt = m.archivedAt &&
    isSafeScope patched.scope

inductive FileAct where
  | get (id : String) (tenant : Option TenantFilter)
  | call (now : ℤ) (tags : ℕ → String) (tenant : Option TenantFilter) (op : Operation)

section Machine
variable (C : Config)

/-- New ids are new, and updates are of records that were read. -/
def admits (s : FileState) : Operation → Bool
  | .store id input _ => id ∉ s.used && isIdShape id && isSafeScope input.scope
  | .update memory _ => s.hands.any (patches · memory)
  | _ => true

def generated : Operation → List String
  | .store id _ _ => [id]
  | _ => []

/-- The clock reads a time that a date can hold. -/
def FileState.step (s : FileState) : FileAct → Option FileState
  | .get id tenant => some { s with hands := (get C s.files id tenant).toList ++ s.hands }
  | .call now tags tenant op =>
    if C.host.dateParse (C.host.toISOString now) = some now ∧ admits s op = true then
      some { s with
        files := applySteps s.files ((planOf C now tags s.files tenant op).steps (tags 0))
        used := generated op ++ s.used }
    else none

/-- What a call does to a record. -/
def changeOf (now : ℤ) (tags : ℕ → String) (files : Files) (tenant : Option TenantFilter) :
    Operation → Option (String × Change Memory)
  | .store id input embedding =>
    match (store C now id input embedding tenant).result with
    | .ok _ => some (id, .created)
    | .error _ => none
  | .archive id =>
    match (archive C now files id tenant).result with
    | .ok (some _) => some (id, .moved)
    | _ => none
  | .revive id =>
    match (revive C now files id tenant).result with
    | .ok (some _) => some (id, .moved)
    | _ => none
  | .touch _ => none
  | .forget id =>
    match (forget C files id tenant).result with
    | .ok true => some (id, .removed)
    | _ => none
  | .update memory options =>
    match (update C now tags files memory options tenant).result with
    | .ok updated => some (memory.id, .updated memory options.expectedVersion updated.version)
    | .error _ => none

def FileState.change (s : FileState) : FileAct → Option ((Option String × String) × Change Memory)
  | .get _ _ => none
  | .call now tags tenant op =>
    (changeOf C now tags s.files tenant op).map fun c => ((treeOf tenant, c.1), c.2)

/-- The file store as its callers see it; a record is archived or not. -/
def fileStore : Versioned FileState FileAct (Option String × String) Memory where
  step := FileState.step C
  change := FileState.change C
  read s k := recordIn C s.files k.1 k.2
  version := Memory.version
  place m := (truthy m.archivedAt).isSome

end Machine

/-! ### What each call does -/

def Operation.id : Operation → String
  | .store id _ _ | .archive id | .revive id | .touch id | .forget id => id
  | .update memory _ => memory.id

/-- What a call's plan comes to, and the change that it is. -/
inductive Outcome (C : Config) (s : FileState) (tree : Option String) (id : String) (plan : Plan) :
    Option (Change Memory) → Prop where
  | quiet : plan = {} → Outcome C s tree id plan none
  | stored (m : Memory) (f : Path) : Rewrites C s.files tree plan m f → m.id = id → id ∉ s.used →
      Outcome C s tree id plan (some .created)
  | touched (r seen : Memory) (f g : Path) : Current C s.files tree id r f →
      Rewrites C s.files tree plan seen g → seen.id = id → seen.version = r.version →
      (truthy seen.archivedAt).isSome = (truthy r.archivedAt).isSome → Outcome C s tree id plan none
  | moved (r updated : Memory) (f g : Path) : Current C s.files tree id r f →
      Rewrites C s.files tree plan updated g → updated.id = id → updated.version = r.version →
      Outcome C s tree id plan (some .moved)
  | removed (r : Memory) (f : Path) : Current C s.files tree id r f → plan = { remove := some f } →
      Outcome C s tree id plan (some .removed)
  | updated (r given updated : Memory) (f g : Path) (expected : Option ℤ) :
      Current C s.files tree id r f → Rewrites C s.files tree plan updated g → updated.id = id →
      updated.version = r.version + 1 → updated.archivedAt = given.archivedAt →
      (∀ x ∈ expected, x = r.version) →
      Outcome C s tree id plan (some (.updated given expected updated.version))

section Calls
variable {C : Config} {s : FileState} {now : ℤ} {tags : ℕ → String} {tenant : Option TenantFilter}
  {id : String}

theorem findFile_bind : (findFile C s.files id tenant).bind (readFile C s.files) =
    recordIn C s.files (treeOf tenant) id := by
  rw [findFile, recordIn, treePath_treeOf]

theorem recordIn_of_get {r : Memory} (h : get C s.files id tenant = some r) :
    recordIn C s.files (treeOf tenant) id = some r := by
  rw [Store.get, findFile_bind, Option.filter_eq_some_iff] at h
  exact h.1

/-- A rewrite of the record where it is. -/
theorem Current.rewrites {tree : Option String} {r m : Memory} {f : Path}
    (hc : Current C s.files tree id r f) (hkept : Kept C.host m) (hid : m.id = id)
    (hbase : baseRoot C.root m = .ok (treePath C.root tree)) {g : Path}
    (hg : fileFor C.root m = .ok g)
    {history : List DiskStep} (hhistory : ∀ s ∈ history, OffTree C.root s) {remove : Option Path}
    (hremove : remove = if f = g then none else some f) :
    Rewrites C s.files tree ⟨history, some (g, render C.host m), remove⟩ m g := by
  have hrem : ∀ g', remove = some g' → g' = f ∧ f ≠ g := by
    intro g' hg'
    rw [hremove] at hg'
    split at hg'
    · cases hg'
    · cases hg'
      exact ⟨rfl, ‹_›⟩
  constructor
  case history => exact hhistory
  case kept => exact hkept
  case base => exact hbase
  case file => exact hg
  case write => rfl
  case remove =>
    intro g' hg'
    obtain ⟨rfl, hne⟩ := hrem g' hg'
    exact ⟨hc.inTree, hc.named.trans hid.symm, hne⟩
  case old =>
    intro g' hin hstem hsome
    have hf : g' = f := hc.only g' hin (hstem.trans hid) hsome
    subst hf
    by_cases hne : g' = g
    · exact .inl hne
    · refine .inr ?_
      simp only
      rw [hremove, if_neg hne]

theorem store_outcome {input : StoreInput} {embedding : Option (List JsNum)} (hs : Sound C s)
    (hadm : admits s (.store id input embedding) = true) :
    ∃ c, changeOf C now tags s.files tenant (.store id input embedding) = c.map (id, ·) ∧
      Outcome C s (treeOf tenant) id (store C now id input embedding tenant).plan c := by
  simp only [admits, Bool.and_eq_true, decide_eq_true_iff] at hadm
  obtain ⟨⟨hnew, hshape⟩, hscope⟩ := hadm
  simp only [changeOf, store]
  generalize hm : storeRecord C.host C.access now id input embedding tenant = m
  have hkept : Kept C.host m := by
    subst hm
    refine ⟨hshape, hscope, ?_⟩
    intro d hdate
    cases hdate
  have hid : m.id = id := by subst hm; rfl
  have hbase : baseRoot C.root m = .ok (treePath C.root (treeOf tenant)) := by
    subst hm
    rw [treePath_treeOf]
    exact baseRoot_storeRecord C.root
  obtain ⟨f, hfile, hin, hstem⟩ := fileFor_kept hkept hbase
  rw [hfile]
  refine ⟨some .created, rfl, .stored m f ?_ hid hnew⟩
  constructor
  case history => exact fun s hs => absurd hs List.not_mem_nil
  case kept => exact hkept
  case base => exact hbase
  case file => exact hfile
  case write => rfl
  case remove => intro g hg; cases hg
  case old =>
    intro g hg hgstem hsome
    refine absurd (hs.used _ g hg hsome) ?_
    rw [hgstem, hid]
    exact hnew

theorem forget_outcome (hs : Sound C s) (hv : C.host.ReadsVersions) (hd : C.host.ReadsDates) :
    ∃ c, changeOf C now tags s.files tenant (.forget id) = c.map (id, ·) ∧
      Outcome C s (treeOf tenant) id (forget C s.files id tenant).plan c := by
  simp only [changeOf, forget]
  cases hfind : findFile C s.files id tenant with
  | none => exact ⟨none, rfl, .quiet rfl⟩
  | some file =>
    simp only
    cases hread : readFile C s.files file with
    | none => exact ⟨none, rfl, .quiet rfl⟩
    | some r =>
      simp only
      by_cases hmatch : matchesTenant r tenant = true
      · have hr : recordIn C s.files (treeOf tenant) id = some r := by
          rw [← findFile_bind, hfind, Option.bind_some, hread]
        obtain ⟨f, hf⟩ := hs.current hv hd hr
        have hfile : file = f := by
          have hmem := mem_walk_tree.mp (List.mem_of_find?_eq_some hfind)
          have hstem : stem file = id := by simpa using List.find?_some hfind
          refine hf.only file ?_ hstem hmem.2
          rw [treePath_treeOf]
          exact hmem.1
        subst hfile
        rw [if_pos hmatch]
        exact ⟨some .removed, rfl, .removed r file hf rfl⟩
      · rw [if_neg hmatch]
        exact ⟨none, rfl, .quiet rfl⟩

theorem touch_outcome (hs : Sound C s) (hv : C.host.ReadsVersions) (hd : C.host.ReadsDates) :
    ∃ c, changeOf C now tags s.files tenant (.touch id) = c.map (id, ·) ∧
      Outcome C s (treeOf tenant) id (touch C now s.files id tenant).plan c := by
  refine ⟨none, rfl, ?_⟩
  unfold touch
  cases hget : get C s.files id tenant with
  | none => exact .quiet rfl
  | some r =>
    simp only
    split
    · exact .quiet rfl
    · obtain ⟨f, hf⟩ := hs.current hv hd (recordIn_of_get hget)
      generalize hseen : { r with lastSeen := some (C.host.toISOString now) } = seen
      have hfile : fileFor C.root seen = .ok f := by
        rw [← hf.file, ← hseen]
        exact fileFor_congr rfl rfl rfl rfl
      have hkept : Kept C.host seen := by
        rw [← hseen]
        exact ⟨hf.kept.id, hf.kept.scope, hf.kept.archivedAt⟩
      rw [hfile]
      have hbase : baseRoot C.root seen = .ok (treePath C.root (treeOf tenant)) := by
        rw [← hf.base, ← hseen]
        rfl
      have hid : seen.id = id := by
        rw [← hseen]
        exact hf.ident
      refine .touched r seen f f hf ?_ hid ?_ ?_
      · exact hf.rewrites hkept hid hbase hfile (fun s hs => absurd hs List.not_mem_nil)
          (if_pos rfl).symm
      · rw [← hseen]
      · rw [← hseen]

theorem kept_stamp (hd : C.host.ReadsDates)
    (hclock : C.host.dateParse (C.host.toISOString now) = some now) {r m : Memory}
    (hr : Kept C.host r) (hid : m.id = r.id) (hscope : m.scope = r.scope)
    (harchived : m.archivedAt = some (C.host.toISOString now)) : Kept C.host m := by
  refine ⟨hid ▸ hr.id, hscope ▸ hr.scope, ?_⟩
  intro d hdate
  rw [harchived, hd.truthy hclock, Option.mem_def, Option.some.injEq] at hdate
  rw [← hdate, hclock]
  rfl

/-- A move of the current record to another file. -/
theorem Current.moves {tree : Option String} {r m : Memory} {f g : Path}
    (hc : Current C s.files tree id r f) (hkept : Kept C.host m) (hid : m.id = id)
    (hbase : baseRoot C.root m = .ok (treePath C.root tree)) (hversion : m.version = r.version)
    (hg : fileFor C.root m = .ok g) (hne : f ≠ g) :
    (move C s.files f g m).result = .ok (some m) ∧
      Outcome C s tree id (move C s.files f g m).plan (some .moved) := by
  refine ⟨if_pos hc.isSome, .moved r m f g hc ?_ hid hversion⟩
  exact hc.rewrites hkept hid hbase hg (fun s hs => absurd hs List.not_mem_nil) (if_neg hne).symm

theorem archive_outcome (hs : Sound C s) (hv : C.host.ReadsVersions) (hd : C.host.ReadsDates)
    (hclock : C.host.dateParse (C.host.toISOString now) = some now) :
    ∃ c, changeOf C now tags s.files tenant (.archive id) = c.map (id, ·) ∧
      Outcome C s (treeOf tenant) id (archive C now s.files id tenant).plan c := by
  simp only [changeOf]
  unfold archive
  cases hget : get C s.files id tenant with
  | none => exact ⟨none, rfl, .quiet rfl⟩
  | some r =>
    simp only
    obtain ⟨f, hf⟩ := hs.current hv hd (recordIn_of_get hget)
    by_cases harchived : (truthy r.archivedAt).isSome = true
    · rw [if_pos harchived]
      exact ⟨none, rfl, .quiet rfl⟩
    · rw [if_neg harchived]
      generalize hupdated : { r with
        archivedAt := some (C.host.toISOString now)
        updatedAt := C.host.toISOString now } = updated
      have hkept : Kept C.host updated := by
        subst hupdated
        exact kept_stamp hd hclock hf.kept rfl rfl rfl
      have hbase : baseRoot C.root updated = .ok (treePath C.root (treeOf tenant)) := by
        rw [← hf.base, ← hupdated]
        rfl
      obtain ⟨g, hg, -, -⟩ := fileFor_kept hkept hbase
      simp only [hf.file, hg]
      by_cases hfg : f = g
      · rw [if_pos hfg]
        exact ⟨none, rfl, .quiet rfl⟩
      · rw [if_neg hfg]
        obtain ⟨hresult, hout⟩ := hf.moves hkept (by rw [← hupdated]; exact hf.ident) hbase
          (by rw [← hupdated]) hg hfg
        rw [hresult]
        exact ⟨some .moved, rfl, hout⟩

theorem revive_outcome (hs : Sound C s) (hv : C.host.ReadsVersions) (hd : C.host.ReadsDates) :
    ∃ c, changeOf C now tags s.files tenant (.revive id) = c.map (id, ·) ∧
      Outcome C s (treeOf tenant) id (revive C now s.files id tenant).plan c := by
  simp only [changeOf]
  unfold revive
  cases hget : get C s.files id tenant with
  | none => exact ⟨none, rfl, .quiet rfl⟩
  | some r =>
    simp only
    obtain ⟨f, hf⟩ := hs.current hv hd (recordIn_of_get hget)
    by_cases harchived : (truthy r.archivedAt).isSome = true
    · rw [if_pos harchived]
      generalize hupdated : { r with
        lastSeen := some (C.host.toISOString now)
        archivedAt := none
        updatedAt := C.host.toISOString now } = updated
      have hkept : Kept C.host updated := by
        subst hupdated
        refine ⟨hf.kept.id, hf.kept.scope, ?_⟩
        intro d hdate
        cases hdate
      have hbase : baseRoot C.root updated = .ok (treePath C.root (treeOf tenant)) := by
        rw [← hf.base, ← hupdated]
        rfl
      obtain ⟨g, hg, -, -⟩ := fileFor_kept hkept hbase
      have hne : f ≠ g := fileFor_ne hf.kept hkept (by rw [← hupdated]) harchived
        (by rw [← hupdated]; rfl) hf.file hg
      obtain ⟨hresult, hout⟩ := hf.moves hkept (by rw [← hupdated]; exact hf.ident) hbase
        (by rw [← hupdated]) hg hne
      simp only [hf.file, hg]
      rw [hresult]
      exact ⟨some .moved, rfl, hout⟩
    · rw [if_neg harchived]
      exact ⟨none, rfl, .quiet rfl⟩

theorem kept_of_patches {h : Host} {m patched : Memory} (hm : Kept h m)
    (hp : patches m patched = true) : Kept h patched := by
  simp only [patches, Bool.and_eq_true, decide_eq_true_iff] at hp
  obtain ⟨⟨⟨⟨⟨⟨hid, -⟩, -⟩, -⟩, -⟩, harchived⟩, hscope⟩ := hp
  exact ⟨hid ▸ hm.id, hscope, harchived ▸ hm.archivedAt⟩

/-- A record that the call may update belongs to the call's tree. -/
theorem baseRoot_of_matches {memory : Memory} (hmatch : matchesTenant memory tenant = true)
    (hnone : ¬ ((truthy memory.tenantId).isSome && tenant.isNone) = true) :
    baseRoot C.root memory = .ok (treePath C.root (treeOf tenant)) := by
  rw [treePath_treeOf]
  refine baseRoot_of_tenant C.root ?_
  cases tenant with
  | none =>
    simpa using hnone
  | some t =>
    rw [matchesTenant, Option.all_some, memoryBelongsToTenant, Bool.and_eq_true,
      decide_eq_true_iff] at hmatch
    rw [hmatch.1]
    exact truthy_map_tenantId (some t.organizationId)

theorem update_outcome {memory : Memory} {options : UpdateOptions} (hs : Sound C s)
    (hv : C.host.ReadsVersions) (hd : C.host.ReadsDates)
    (hadm : admits s (.update memory options) = true) :
    ∃ c, changeOf C now tags s.files tenant (.update memory options) = c.map (memory.id, ·) ∧
      Outcome C s (treeOf tenant) memory.id (update C now tags s.files memory options tenant).plan
        c := by
  have hkept : Kept C.host memory := by
    obtain ⟨m, hm, hp⟩ := List.any_eq_true.mp hadm
    exact kept_of_patches (hs.hands m hm) hp
  simp only [changeOf]
  rcases update_cases C now tags s.files memory options tenant with
    ⟨e, h⟩ | ⟨target, existing, current, history, htarget, hexisting, hread, hmatch, hnone,
      hexpected, hhistory, h⟩
  · rw [h]
    exact ⟨none, rfl, .quiet rfl⟩
  · rw [h]
    have hbase := baseRoot_of_matches (C := C) hmatch (by rw [hnone]; decide)
    obtain ⟨f', hfile', hin', hstem'⟩ := fileFor_kept hkept hbase
    rw [htarget, Except.ok.injEq] at hfile'
    subst hfile'
    -- the file that is updated is the one of the id, at its new place or elsewhere
    have hexists : InTree (treePath C.root (treeOf tenant)) existing ∧ stem existing = memory.id := by
      unfold existingFile at hexisting
      split at hexisting
      · cases hexisting
        exact ⟨hin', hstem'⟩
      · have hmem := mem_walk_tree.mp (List.mem_of_find?_eq_some hexisting)
        rw [treePath_treeOf]
        exact ⟨hmem.1, by simpa using List.find?_some hexisting⟩
    have hrecord : recordIn C s.files (treeOf tenant) memory.id = some current :=
      (recordIn_eq_some (hs.one _)).mpr ⟨existing, hexists.1, hexists.2, hread⟩
    obtain ⟨f, hf⟩ := hs.current hv hd hrecord
    have hsome : (s.files.get existing).isSome := by
      unfold readFile at hread
      cases hget : s.files.get existing with
      | none => rw [hget] at hread; cases hread
      | some text => rfl
    obtain rfl := hf.only existing hexists.1 hexists.2 hsome
    have hbase' : baseRoot C.root (updatedFrom C now current memory) =
        .ok (treePath C.root (treeOf tenant)) := by
      rw [← hbase]
      rfl
    have hfile : fileFor C.root (updatedFrom C now current memory) = .ok target := by
      rw [← htarget]
      exact fileFor_congr rfl rfl rfl rfl
    have hkept' : Kept C.host (updatedFrom C now current memory) :=
      ⟨hkept.id, hkept.scope, hkept.archivedAt⟩
    exact ⟨some _, rfl, .updated current memory _ existing target options.expectedVersion hf
      (hf.rewrites hkept' rfl hbase' hfile (offTree_history hhistory) rfl) rfl rfl rfl hexpected⟩

theorem call_outcome {op : Operation} (hs : Sound C s) (hv : C.host.ReadsVersions)
    (hd : C.host.ReadsDates) (hclock : C.host.dateParse (C.host.toISOString now) = some now)
    (hadm : admits s op = true) :
    ∃ c, changeOf C now tags s.files tenant op = c.map (op.id, ·) ∧
      Outcome C s (treeOf tenant) op.id (planOf C now tags s.files tenant op) c := by
  cases op with
  | store id input embedding => exact store_outcome hs hadm
  | archive id => exact archive_outcome hs hv hd hclock
  | revive id => exact revive_outcome hs hv hd
  | touch id => exact touch_outcome hs hv hd
  | forget id => exact forget_outcome hs hv hd
  | update memory options => exact update_outcome hs hv hd hadm

end Calls

/-! ### The store is lawful -/

section Lawful
variable {C : Config} {s t : FileState} {a : FileAct}

/-- Only `store` creates, under the id it generated. -/
theorem generated_of_created {now : ℤ} {tags : ℕ → String} {files : Files}
    {tenant : Option TenantFilter} {op : Operation} {i : String}
    (h : changeOf C now tags files tenant op = some (i, .created)) : op.id ∈ generated op := by
  cases op with
  | store id input embedding => exact List.mem_singleton_self id
  | touch id => cases h
  | archive id =>
    simp only [changeOf] at h
    split at h <;> cases h
  | revive id =>
    simp only [changeOf] at h
    split at h <;> cases h
  | forget id =>
    simp only [changeOf] at h
    split at h <;> cases h
  | update memory options =>
    simp only [changeOf] at h
    split at h <;> cases h

/-- A read adds to what callers have in hand, a call does what its outcome says. -/
theorem step_outcome (hs : Sound C s) (hv : C.host.ReadsVersions) (hd : C.host.ReadsDates)
    (ht : FileState.step C s a = some t) :
    (∃ id tenant, FileState.change C s a = none ∧
      t = { s with hands := (get C s.files id tenant).toList ++ s.hands }) ∨
    ∃ tree id plan tag used c, Outcome C s tree id plan c ∧
      FileState.change C s a = c.map ((tree, id), ·) ∧ (∀ i ∈ s.used, i ∈ used) ∧
      (c = some .created → id ∈ used) ∧
      t = { s with files := applySteps s.files (plan.steps tag), used := used } := by
  cases a with
  | get id tenant =>
    simp only [FileState.step, Option.some.injEq] at ht
    exact .inl ⟨id, tenant, rfl, ht.symm⟩
  | call now tags tenant op =>
    simp only [FileState.step] at ht
    split at ht
    · rename_i hok
      rw [Option.some.injEq] at ht
      have hcall : ∃ c, changeOf C now tags s.files tenant op = c.map (op.id, ·) ∧
          Outcome C s (treeOf tenant) op.id (planOf C now tags s.files tenant op) c :=
        call_outcome hs hv hd hok.1 hok.2
      obtain ⟨c, hchange, hout⟩ := hcall
      refine .inr ⟨treeOf tenant, op.id, _, tags 0, generated op ++ s.used, c, hout, ?_,
        fun i hi => List.mem_append_right _ hi, ?_, ht.symm⟩
      · rw [FileState.change, hchange, Option.map_map]
        rfl
      · rintro rfl
        exact List.mem_append_left _ (generated_of_created hchange)
    · cases ht

theorem Outcome.sound {tree : Option String} {id tag : String} {plan : Plan} {used : List String}
    {c : Option (Change Memory)} (hout : Outcome C s tree id plan c) (hs : Sound C s)
    (hused : ∀ i ∈ s.used, i ∈ used) (hnew : c = some .created → id ∈ used) :
    Sound C { s with files := applySteps s.files (plan.steps tag), used := used } := by
  have hcurrent : ∀ {r f}, Current C s.files tree id r f → id ∈ used := by
    intro r f hf
    exact hf.named ▸ hused _ (hs.used tree f hf.inTree hf.isSome)
  cases hout with
  | quiet hplan =>
    subst hplan
    exact ⟨hs.placed, hs.one, fun tree g hg hgs => hused _ (hs.used tree g hg hgs), hs.hands⟩
  | stored m f hw hid _ => exact hw.sound hs hused (hid ▸ hnew rfl)
  | touched r seen f g hf hw hid _ _ => exact hw.sound hs hused (hid ▸ hcurrent hf)
  | moved r updated f g hf hw hid _ => exact hw.sound hs hused (hid ▸ hcurrent hf)
  | removed r f hf hplan =>
    subst hplan
    have hrem := sound_remove hs f tag
    exact ⟨hrem.placed, hrem.one, fun tree g hg hgs => hused _ (hrem.used tree g hg hgs), hrem.hands⟩
  | updated r given updated f g expected hf hw hid _ _ _ => exact hw.sound hs hused (hid ▸ hcurrent hf)

theorem Outcome.within {tree : Option String} {id : String} {plan : Plan}
    {c : Option (Change Memory)} (hout : Outcome C s tree id plan c) :
    plan.Within C.root tree id := by
  cases hout with
  | quiet hplan =>
    subst hplan
    constructor
    · exact fun s hs => absurd hs List.not_mem_nil
    · intro f text hw
      cases hw
    · intro f hr
      cases hr
  | stored m f hw hid _ => exact hid ▸ hw.within
  | touched r seen f g hf hw hid _ _ => exact hid ▸ hw.within
  | moved r updated f g hf hw hid _ => exact hid ▸ hw.within
  | removed r f hf hplan =>
    subst hplan
    constructor
    · exact fun s hs => absurd hs List.not_mem_nil
    · intro g text hw
      cases hw
    · intro g hr
      cases hr
      exact ⟨hf.inTree, hf.named⟩
  | updated r given updated f g expected hf hw hid _ _ _ => exact hid ▸ hw.within

theorem sound_step (hv : C.host.ReadsVersions) (hd : C.host.ReadsDates) (hs : Sound C s)
    (ht : FileState.step C s a = some t) : Sound C t := by
  rcases step_outcome hs hv hd ht with
    ⟨id, tenant, -, rfl⟩ | ⟨tree, id, plan, tag, used, c, hout, -, hused, hnew, rfl⟩
  · refine ⟨hs.placed, hs.one, hs.used, ?_⟩
    intro m hm
    rcases List.mem_append.mp hm with hm | hm
    · rw [Option.mem_toList] at hm
      obtain ⟨f, hf⟩ := hs.current hv hd (recordIn_of_get hm)
      exact hf.kept
    · exact hs.hands m hm
  · exact hout.sound hs hused hnew

/-- What is read of a record after a change, by what was read before it. -/
def ReadAfter (before : Option Memory) (r' : Memory) : Option (Change Memory) → Prop
  | none => ∃ r, before = some r ∧ r'.version = r.version ∧
      (truthy r'.archivedAt).isSome = (truthy r.archivedAt).isSome
  | some .created => True
  | some .moved => ∃ r, before = some r ∧ r'.version = r.version
  | some .removed => False
  | some (.updated given _ v) => r'.version = v ∧
      (truthy r'.archivedAt).isSome = (truthy given.archivedAt).isSome

theorem Outcome.reads {tree : Option String} {id tag : String} {plan : Plan} {used : List String}
    {c : Option (Change Memory)} {r' : Memory} (hv : C.host.ReadsVersions) (hd : C.host.ReadsDates)
    (hout : Outcome C s tree id plan c) (hs : Sound C s) (hused : ∀ i ∈ s.used, i ∈ used)
    (hr : recordIn C (applySteps s.files (plan.steps tag)) tree id = some r') :
    ReadAfter (recordIn C s.files tree id) r' c := by
  have hcur : ∀ {r f}, Current C s.files tree id r f → recordIn C s.files tree id = some r :=
    fun hf => (recordIn_eq_some (hs.one tree)).mpr ⟨_, hf.inTree, hf.named, hf.read⟩
  -- a record that has a version reads back with it
  have hback : ∀ {m r : Memory} {f g : Path}, Current C s.files tree id r f →
      Rewrites C s.files tree plan m g → m.id = id → 1 ≤ m.version →
      r'.version = m.version ∧
        (truthy r'.archivedAt).isSome = (truthy m.archivedAt).isSome := by
    intro m r f g hf hw hid hversion
    have hidUsed : m.id ∈ used := hid ▸ hf.named ▸ hused _ (hs.used tree f hf.inTree hf.isSome)
    have hr' := hw.read hv hs hused hidUsed (hid ▸ hr)
    subst hr'
    exact ⟨if_pos hversion, archived_readBack hd hw.kept⟩
  cases hout with
  | quiet hplan =>
    subst hplan
    exact ⟨r', hr, rfl, rfl⟩
  | stored m f hw hid _ => trivial
  | touched r seen f g hf hw hid hversion hplace =>
    obtain ⟨hver, harch⟩ := hback hf hw hid (hversion ▸ hf.version)
    exact ⟨r, hcur hf, hver.trans hversion, harch.trans hplace⟩
  | moved r updated f g hf hw hid hversion =>
    obtain ⟨hver, -⟩ := hback hf hw hid (hversion ▸ hf.version)
    exact ⟨r, hcur hf, hver.trans hversion⟩
  | removed r f hf hplan =>
    subst hplan
    have hone := (sound_remove hs f tag).one tree
    obtain ⟨g, hg, hstem, hread⟩ := (recordIn_eq_some hone).mp hr
    rw [readFile, get_applySteps (fun s hs => absurd hs List.not_mem_nil)
      (isTreeRoot_treePath C.root tree) hg] at hread
    split at hread
    · cases hread
    · rename_i hne
      cases hget : s.files.get g with
      | none =>
        rw [hget] at hread
        cases hread
      | some text =>
        have hgs : (s.files.get g).isSome := by rw [hget]; rfl
        exact hne (congrArg some (hf.only g hg hstem hgs).symm)
  | updated r given updated f g expected hf hw hid hversion harchived _ =>
    have hle : 1 ≤ updated.version := by
      rw [hversion]
      have := hf.version
      omega
    obtain ⟨hver, harch⟩ := hback hf hw hid hle
    exact ⟨hver, by rw [harch, harchived]⟩

/-- A change is the outcome of a call. -/
theorem step_changed {k : Option String × String} {x : Change Memory} (hs : Sound C s)
    (hv : C.host.ReadsVersions) (hd : C.host.ReadsDates) (ht : FileState.step C s a = some t)
    (hc : FileState.change C s a = some (k, x)) :
    ∃ plan tag used, Outcome C s k.1 k.2 plan (some x) ∧ (∀ i ∈ s.used, i ∈ used) ∧
      t = { s with files := applySteps s.files (plan.steps tag), used := used } := by
  rcases step_outcome hs hv hd ht with
    ⟨id, tenant, hnone, -⟩ | ⟨tree, id, plan, tag, used, c, hout, hchange, hused, -, rfl⟩
  · rw [hnone] at hc
    cases hc
  · rw [hchange, Option.map_eq_some_iff] at hc
    obtain ⟨x', rfl, hx⟩ := hc
    cases hx
    exact ⟨plan, tag, used, hout, hused, rfl⟩

theorem fileStore_lawful (hv : C.host.ReadsVersions) (hd : C.host.ReadsDates) :
    (fileStore C).Lawful (Sound C) fun s k => k.2 ∈ s.used := by
  constructor
  case keeps => exact fun hs ht => sound_step hv hd hs ht
  case born =>
    intro s t a k hs ht hborn
    rcases step_outcome hs hv hd ht with
      ⟨id, tenant, -, rfl⟩ | ⟨tree, id, plan, tag, used, c, -, -, hused, -, rfl⟩
    · exact hborn
    · exact hused _ hborn
  case born_of_read =>
    intro s k r hs hr
    obtain ⟨f, hf⟩ := hs.current hv hd hr
    exact hf.named ▸ hs.used k.1 f hf.inTree hf.isSome
  case created =>
    intro s t a k hs ht hc
    obtain ⟨plan, tag, used, hout, -, -⟩ := step_changed hs hv hd ht hc
    cases hout with
    | stored m f hw hid hnew => exact hnew
  case spared =>
    intro s t a k r hs ht hspared hr
    rcases step_outcome hs hv hd ht with
      ⟨id, tenant, -, rfl⟩ | ⟨tree, id, plan, tag, used, c, hout, hchange, hused, hnew, rfl⟩
    · exact ⟨r, hr, rfl, rfl⟩
    · by_cases hk : k = (tree, id)
      · subst hk
        cases c with
        | none => exact hout.reads hv hd hs hused hr
        | some x => exact absurd hchange (hspared x)
      · have hsound : Sound C { s with files := applySteps s.files (plan.steps tag), used := used } :=
          hout.sound hs hused hnew
        have hsame : recordIn C (applySteps s.files (plan.steps tag)) k.1 k.2 =
            recordIn C s.files k.1 k.2 := by
          refine recordIn_other (hs.one k.1) (hsound.one k.1) fun g hg hstem => ?_
          refine hout.within.get_other hg ?_
          by_contra hboth
          push Not at hboth
          exact hk (Prod.ext hboth.1 (hstem.symm.trans hboth.2))
        exact ⟨r, hsame.symm.trans hr, rfl, rfl⟩
  case updated =>
    intro s t a k given expected v hs ht hc
    obtain ⟨plan, tag, used, hout, hused, rfl⟩ := step_changed hs hv hd ht hc
    have hreads : ∀ r, recordIn C (applySteps s.files (plan.steps tag)) k.1 k.2 = some r →
        r.version = v ∧ (truthy r.archivedAt).isSome = (truthy given.archivedAt).isSome :=
      fun r hr => hout.reads hv hd hs hused hr
    cases hout with
    | updated r given updated f g expected hf hw hid hversion harchived hexpected =>
      exact ⟨r, (recordIn_eq_some (hs.one k.1)).mpr ⟨f, hf.inTree, hf.named, hf.read⟩, hexpected,
        hversion, hreads⟩
  case moved =>
    intro s t a k r hs ht hc hr
    obtain ⟨plan, tag, used, hout, hused, rfl⟩ := step_changed hs hv hd ht hc
    exact hout.reads hv hd hs hused hr
  case removed =>
    intro s t a k hs ht hc
    obtain ⟨plan, tag, used, hout, hused, rfl⟩ := step_changed hs hv hd ht hc
    refine Option.eq_none_iff_forall_ne_some.mpr fun r hr => ?_
    exact hout.reads hv hd hs hused hr

theorem sound_init : Sound C {} := by
  have hnone : ∀ f : Path, (OrdMap.empty : Files).get f = none := OrdMap.get_empty
  constructor
  · intro tree f text _ hget
    rw [hnone f] at hget
    cases hget
  · intro tree f g _ _ hf
    rw [hnone f] at hf
    cases hf
  · intro tree f _ hf
    rw [hnone f] at hf
    cases hf
  · exact fun m hm => absurd hm List.not_mem_nil

end Lawful

end Remembra.Store
