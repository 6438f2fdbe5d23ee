import Remembra.Store.RoundTrip
import Remembra.Store.Tree

/-! Sound trees: a file holds a record that its name and place belong to, and no two files of a tree are
    of one id. The record of an id in a tree is then what its one file reads as, and a plan that leaves
    one file of the id keeps the trees sound. -/

namespace Remembra.Store

/-! ### The records of a tree -/

/-- The files, the ids that have been generated and the records that callers have read. -/
structure FileState where
  files : Files := .empty
  used : List String := []
  hands : List Memory := []

/-- A tree, by its directory key if it is a tenant's. -/
def treePath (root : Root) : Option String → Path
  | none => root.path
  | some key => root.path ++ ["tenants", key]

/-- The tree that a call works on. -/
def treeOf (tenant : Option TenantFilter) : Option String :=
  tenant.map fun t => directoryKey t.organizationId.1

/-- The record of an id in a tree. -/
def recordIn (C : Config) (files : Files) (tree : Option String) (id : String) : Option Memory :=
  ((walk (treeDirs (treePath C.root tree)) files).find? fun f => stem f = id).bind (readFile C files)

/-! ### Records in their files -/

/-- What every record in a file keeps. -/
structure Kept (h : Host) (m : Memory) : Prop where
  id : isIdShape m.id = true
  scope : isSafeScope m.scope = true
  archivedAt : ∀ d ∈ truthy m.archivedAt, (h.dateParse d).isSome

/-- Dates that were read and written again read the same, and the empty text is no date. -/
structure Host.ReadsDates (h : Host) : Prop where
  empty : h.dateParse "" = none
  again : ∀ s t, h.dateParse s = some t → h.dateParse (h.toISOString t) = some t

section Kept
variable {h : Host} {root : Root} {m : Memory}

theorem Host.ReadsDates.truthy (hd : h.ReadsDates) {t : ℤ}
    (ht : h.dateParse (h.toISOString t) = some t) :
    truthy (some (h.toISOString t)) = some (h.toISOString t) := by
  refine truthy_eq_self.mpr fun he => ?_
  rw [Option.some.injEq] at he
  rw [he, hd.empty] at ht
  cases ht

/-- Archived before it was written, archived when it is read, and the other way round. -/
theorem archived_readBack (hd : h.ReadsDates) (hm : Kept h m) :
    (Store.truthy (readBack h m).archivedAt).isSome = (Store.truthy m.archivedAt).isSome := by
  simp only [readBack, validDate]
  cases ha : Store.truthy m.archivedAt with
  | none => rfl
  | some d =>
    obtain ⟨t, ht⟩ := Option.isSome_iff_exists.mp (hm.archivedAt d ha)
    rw [Option.bind_some, ht, Option.map_some, hd.truthy (hd.again d t ht)]
    rfl

theorem kept_readBack (hd : h.ReadsDates) (hm : Kept h m) : Kept h (readBack h m) := by
  refine ⟨hm.id, hm.scope, ?_⟩
  intro d hdate
  simp only [readBack, validDate] at hdate
  cases ha : Store.truthy m.archivedAt with
  | none =>
    rw [ha] at hdate
    cases hdate
  | some e =>
    obtain ⟨t, ht⟩ := Option.isSome_iff_exists.mp (hm.archivedAt e ha)
    rw [ha, Option.bind_some, ht, Option.map_some, hd.truthy (hd.again e t ht), Option.mem_def,
      Option.some.injEq] at hdate
    rw [← hdate, hd.again e t ht]
    rfl

/-- The place of a file is a matter of the tenant, the scope, the id and whether it is archived. -/
theorem fileFor_congr {m' : Memory} (hid : m'.id = m.id) (hscope : m'.scope = m.scope)
    (htenant : Store.truthy m'.tenantId = Store.truthy m.tenantId)
    (harchived : (Store.truthy m'.archivedAt).isSome = (Store.truthy m.archivedAt).isSome) :
    fileFor root m' = fileFor root m := by
  have hbase : baseRoot root m' = baseRoot root m := by
    unfold baseRoot
    rw [htenant]
  have hfolder : folder m' = folder m := by
    unfold folder
    rw [harchived, hscope]
  unfold fileFor
  rw [hbase, hfolder, hid, hscope]

theorem fileFor_readBack (hd : h.ReadsDates) (hm : Kept h m) :
    fileFor root (readBack h m) = fileFor root m :=
  fileFor_congr rfl rfl (truthy_truthy _) (archived_readBack hd hm)

theorem isName_folder_head (m : Memory) :
    ∃ s ∈ ["global", "scopes", "archived"], ∃ rest, (folder m).filter isName = s :: rest := by
  unfold folder
  split
  · exact ⟨"archived", by decide, _, List.filter_cons_of_pos (by decide)⟩
  · split
    · exact ⟨"global", by decide, _, List.filter_cons_of_pos (by decide)⟩
    · exact ⟨"scopes", by decide, _, List.filter_cons_of_pos (by decide)⟩

/-- The file of a record with a legal scope and id is in its tree and is named after it. -/
theorem fileFor_placed {base : Path} (hbase : baseRoot root m = .ok base)
    (hscope : isSafeScope m.scope = true) (hid : isIdShape m.id = true) :
    ∃ f, fileFor root m = .ok f ∧ InTree base f ∧ stem f = m.id := by
  have hne : m.id ≠ "" := by
    intro he
    rw [he] at hid
    exact absurd hid (by decide)
  refine ⟨_, fileFor_eq hbase hscope hid, ?_, stem_concat hne⟩
  obtain ⟨s, hs, rest, hfolder⟩ := isName_folder_head m
  refine inTree_iff.mpr ⟨?_, s, hs, below_iff.mpr ⟨?_, ?_⟩⟩
  · rw [List.getLast?_concat, Option.getD_some, isMd_append]
  · rw [hfolder]
    exact ⟨rest ++ [m.id ++ ".md"], by simp⟩
  · rw [hfolder]
    simp only [List.length_append, List.length_cons, List.length_nil]
    omega

theorem fileFor_kept (hm : Kept h m) {base : Path} (hbase : baseRoot root m = .ok base) :
    ∃ f, fileFor root m = .ok f ∧ InTree base f ∧ stem f = m.id :=
  fileFor_placed hbase hm.scope hm.id

/-- An archived and an active record are not in one file. -/
theorem fileFor_ne {m' : Memory} {f f' : Path} (hm : Kept h m) (hm' : Kept h m')
    (htenant : m'.tenantId = m.tenantId) (ha : (Store.truthy m.archivedAt).isSome = true)
    (ha' : (Store.truthy m'.archivedAt).isSome = false) (hf : fileFor root m = .ok f)
    (hf' : fileFor root m' = .ok f') : f ≠ f' := by
  obtain ⟨base, hbase⟩ : ∃ base, baseRoot root m = .ok base := by
    unfold fileFor at hf
    split at hf
    · cases hf
    · exact ⟨_, ‹_›⟩
  have hbase' : baseRoot root m' = .ok base := by
    rw [← hbase]
    unfold baseRoot
    rw [htenant]
  rw [fileFor_eq hbase hm.scope hm.id] at hf
  rw [fileFor_eq hbase' hm'.scope hm'.id] at hf'
  cases hf
  cases hf'
  intro heq
  rw [List.append_assoc, List.append_assoc, List.append_cancel_left_eq] at heq
  have hhead : ((folder m).filter isName ++ [m.id ++ ".md"]).head? = some "archived" := by
    rw [folder, if_pos ha, List.singleton_append, List.filter_cons_of_pos (by decide)]
    rfl
  have hhead' : ∃ s ∈ ["global", "scopes"],
      ((folder m').filter isName ++ [m'.id ++ ".md"]).head? = some s := by
    rw [folder, ha', if_neg (by decide), List.nil_append]
    split
    · refine ⟨"global", by decide, ?_⟩
      rw [List.filter_cons_of_pos (by decide)]
      rfl
    · refine ⟨"scopes", by decide, ?_⟩
      rw [List.filter_cons_of_pos (by decide)]
      rfl
  obtain ⟨s, hs, hs'⟩ := hhead'
  rw [← heq, hhead, Option.some.injEq] at hs'
  rw [← hs'] at hs
  exact absurd hs (by decide)

end Kept

/-! ### Sound trees -/

theorem isTreeRoot_treePath (root : Root) (tree : Option String) :
    IsTreeRoot root (treePath root tree) := by
  cases tree with
  | none => exact .inl rfl
  | some key => exact .inr ⟨key, rfl⟩

theorem treePath_treeOf (root : Root) (tenant : Option TenantFilter) :
    treePath root (treeOf tenant) = treeRoot root tenant := by
  cases tenant <;> rfl

theorem treePath_inj {root : Root} {tree tree' : Option String}
    (h : treePath root tree = treePath root tree') : tree = tree' := by
  cases tree with
  | none =>
    cases tree' with
    | none => rfl
    | some key => simp [treePath] at h
  | some key =>
    cases tree' with
    | none => simp [treePath] at h
    | some key' => simpa [treePath] using h

/-- Every record file holds a record that belongs there, each id is in one file of a tree, and the
    ids in use and the records that were read are of the right kind. -/
structure Sound (C : Config) (s : FileState) : Prop where
  placed : ∀ tree f text, InTree (treePath C.root tree) f → s.files.get f = some text →
    ∃ m, text = render C.host m ∧ fileFor C.root m = .ok f ∧ Kept C.host m
  one : ∀ tree, OneTree (treePath C.root tree) s.files
  used : ∀ tree f, InTree (treePath C.root tree) f → (s.files.get f).isSome → stem f ∈ s.used
  hands : ∀ m ∈ s.hands, Kept C.host m

/-- The record of an id, with the file it is in. -/
structure Current (C : Config) (files : Files) (tree : Option String) (id : String) (r : Memory)
    (f : Path) : Prop where
  inTree : InTree (treePath C.root tree) f
  named : stem f = id
  isSome : (files.get f).isSome
  read : readFile C files f = some r
  file : fileFor C.root r = .ok f
  kept : Kept C.host r
  ident : r.id = id
  base : baseRoot C.root r = .ok (treePath C.root tree)
  version : 1 ≤ r.version
  only : ∀ g, InTree (treePath C.root tree) g → stem g = id → (files.get g).isSome → g = f

section Sound
variable {C : Config} {files : Files} {tree : Option String} {id : String} {s : FileState}
  {r m : Memory} {f : Path}

theorem mem_walk_tree {base : Path} : f ∈ walk (treeDirs base) files ↔
    InTree base f ∧ (files.get f).isSome := by
  rw [mem_walk, InTree, and_assoc]

/-- With one file for each id, a record is what can be read from a file of the id. -/
theorem recordIn_eq_some (hone : OneTree (treePath C.root tree) files) :
    recordIn C files tree id = some r ↔
      ∃ f, InTree (treePath C.root tree) f ∧ stem f = id ∧ readFile C files f = some r := by
  unfold recordIn
  rw [Option.bind_eq_some_iff]
  constructor
  · rintro ⟨f, hfind, hread⟩
    have hmem := mem_walk_tree.mp (List.mem_of_find?_eq_some hfind)
    have hstem := List.find?_some hfind
    exact ⟨f, hmem.1, of_decide_eq_true hstem, hread⟩
  · rintro ⟨f, hin, hstem, hread⟩
    have hsome : (files.get f).isSome := by
      unfold readFile at hread
      cases hget : files.get f with
      | none => rw [hget] at hread; cases hread
      | some text => rfl
    refine ⟨f, ?_, hread⟩
    cases hfind : (walk (treeDirs (treePath C.root tree)) files).find? fun f => stem f = id with
    | none =>
      have := List.find?_eq_none.mp hfind f (mem_walk_tree.mpr ⟨hin, hsome⟩)
      exact absurd (decide_eq_true hstem) this
    | some g =>
      have hg := mem_walk_tree.mp (List.mem_of_find?_eq_some hfind)
      have hgstem : stem g = id := by simpa using List.find?_some hfind
      rw [hone g f hg.1 hin hg.2 hsome (hgstem.trans hstem.symm)]

theorem isTreeRoot_baseRoot {base : Path} (h : baseRoot C.root m = .ok base) :
    IsTreeRoot C.root base := by
  unfold baseRoot at h
  split at h
  · unfold tenantPath tenantDirectoryKey at h
    split at h
    · cases h
      exact .inr ⟨_, rfl⟩
    · cases h
  · cases h
    exact .inl rfl

theorem baseRoot_of_fileFor (h : fileFor C.root m = .ok f) :
    ∃ base, baseRoot C.root m = .ok base := by
  unfold fileFor at h
  split at h
  · cases h
  · exact ⟨_, ‹_›⟩

/-- What is read where a record was written. -/
theorem parse_render_eq (hv : C.host.ReadsVersions) (hstem : stem f = m.id)
    (h : parse C.host f (render C.host m) = some r) : r = readBack C.host m := by
  rw [parse_render hv hstem (readable_of_parse hv h), Option.some.injEq] at h
  exact h.symm

theorem Sound.current (hs : Sound C s) (hv : C.host.ReadsVersions) (hd : C.host.ReadsDates)
    (h : recordIn C s.files tree id = some r) : ∃ f, Current C s.files tree id r f := by
  obtain ⟨f, hin, hstem, hread⟩ := (recordIn_eq_some (hs.one tree)).mp h
  have hget : ∃ text, s.files.get f = some text ∧ parse C.host f text = some r := by
    rw [readFile, Option.bind_eq_some_iff] at hread
    exact hread
  obtain ⟨text, htext, hparse⟩ := hget
  obtain ⟨m, rfl, hfile, hkept⟩ := hs.placed tree f text hin htext
  obtain ⟨base, hbase⟩ := baseRoot_of_fileFor hfile
  obtain ⟨f', hfile', hin', hstem'⟩ := fileFor_kept hkept hbase
  rw [hfile, Except.ok.injEq] at hfile'
  subst hfile'
  have hbase' : base = treePath C.root tree :=
    inTree_unique (isTreeRoot_baseRoot hbase) (isTreeRoot_treePath C.root tree) hin' hin
  subst hbase'
  have hr := parse_render_eq hv hstem' hparse
  have hsome : (s.files.get f).isSome := by rw [htext]; rfl
  refine ⟨f, ?_⟩
  constructor
  case inTree => exact hin
  case named => exact hstem
  case isSome => exact hsome
  case read => exact hread
  case file => rw [hr, fileFor_readBack hd hkept, hfile]
  case kept => exact hr ▸ kept_readBack hd hkept
  case ident => exact hr ▸ hstem'.symm.trans hstem
  case base =>
    rw [← hbase, hr]
    simp only [baseRoot, readBack, truthy_truthy]
  case version =>
    rw [hr]
    simp only [readBack]
    split
    · assumption
    · exact Int.le_refl 1
  case only =>
    intro g hg hgstem hgsome
    exact hs.one tree g f hg hin hgsome hsome (hgstem.trans hstem.symm)

end Sound

/-! ### What a plan does to the records -/

/-- The plan writes and removes files of the id in the tree. -/
structure Plan.Within (plan : Plan) (root : Root) (tree : Option String) (id : String) : Prop where
  history : ∀ s ∈ plan.history, OffTree root s
  write : ∀ f text, plan.write = some (f, text) → InTree (treePath root tree) f ∧ stem f = id
  remove : ∀ f, plan.remove = some f → InTree (treePath root tree) f ∧ stem f = id

/-- After the plan the record is the one of its id. -/
structure Rewrites (C : Config) (files : Files) (tree : Option String) (plan : Plan) (m : Memory)
    (f : Path) : Prop where
  history : ∀ s ∈ plan.history, OffTree C.root s
  kept : Kept C.host m
  base : baseRoot C.root m = .ok (treePath C.root tree)
  file : fileFor C.root m = .ok f
  write : plan.write = some (f, render C.host m)
  remove : ∀ g, plan.remove = some g → InTree (treePath C.root tree) g ∧ stem g = m.id ∧ g ≠ f
  old : ∀ g, InTree (treePath C.root tree) g → stem g = m.id → (files.get g).isSome →
    g = f ∨ plan.remove = some g

section Plans
variable {C : Config} {s : FileState} {tree : Option String} {plan : Plan} {tag : String}
  {m : Memory} {f : Path} {id : String}

/-- Files of other ids and of other trees are as they were. -/
theorem Plan.Within.get_other {files : Files} (hw : plan.Within C.root tree id)
    {tree' : Option String} {g : Path} (hg : InTree (treePath C.root tree') g)
    (hne : tree' ≠ tree ∨ stem g ≠ id) :
    (applySteps files (plan.steps tag)).get g = files.get g := by
  have hother : ∀ f, InTree (treePath C.root tree) f ∧ stem f = id → g ≠ f := by
    rintro f ⟨hin, hstem⟩ rfl
    rcases hne with hne | hne
    · exact hne (treePath_inj (inTree_unique (isTreeRoot_treePath C.root tree')
        (isTreeRoot_treePath C.root tree) hg hin))
    · exact hne hstem
  rw [get_applySteps hw.history (isTreeRoot_treePath C.root tree') hg,
    if_neg fun hrem => hother g (hw.remove g hrem) rfl]
  cases hwrite : plan.write with
  | none => rfl
  | some w =>
    obtain ⟨file, text⟩ := w
    exact if_neg (hother file (hw.write file text hwrite))

theorem Rewrites.within (hw : Rewrites C s.files tree plan m f) :
    plan.Within C.root tree m.id := by
  obtain ⟨f', hfile, hin, hstem⟩ := fileFor_kept hw.kept hw.base
  rw [hw.file, Except.ok.injEq] at hfile
  subst hfile
  refine ⟨hw.history, ?_, fun g hg => ⟨(hw.remove g hg).1, (hw.remove g hg).2.1⟩⟩
  intro g text hwrite
  rw [hw.write, Option.some.injEq, Prod.mk.injEq] at hwrite
  exact hwrite.1 ▸ ⟨hin, hstem⟩

/-- The written file holds the record, and no other file of the tree is of its id. -/
theorem Rewrites.get_self (hw : Rewrites C s.files tree plan m f) {g : Path}
    (hg : InTree (treePath C.root tree) g) (hstem : stem g = m.id) :
    (applySteps s.files (plan.steps tag)).get g =
      if g = f then some (render C.host m) else none := by
  rw [get_applySteps hw.history (isTreeRoot_treePath C.root tree) hg, hw.write]
  by_cases hgf : g = f
  · subst hgf
    rw [if_neg fun hrem => (hw.remove g hrem).2.2 rfl, if_pos rfl]
    exact if_pos rfl
  · rw [if_neg hgf]
    split
    · rfl
    · rename_i hrem
      have hnone : ¬ (s.files.get g).isSome := by
        intro hsome
        rcases hw.old g hg hstem hsome with hgf' | hrem'
        · exact hgf hgf'
        · exact hrem hrem'
      simp only [if_neg hgf]
      exact Option.not_isSome_iff_eq_none.mp hnone

theorem Rewrites.sound (hs : Sound C s) (hw : Rewrites C s.files tree plan m f)
    {used : List String} (hused : ∀ i ∈ s.used, i ∈ used) (hid : m.id ∈ used) :
    Sound C { s with files := applySteps s.files (plan.steps tag), used := used } := by
  have hother : ∀ tree' g, InTree (treePath C.root tree') g → (tree' ≠ tree ∨ stem g ≠ m.id) →
      (applySteps s.files (plan.steps tag)).get g = s.files.get g :=
    fun _ _ hg hne => hw.within.get_other hg hne
  constructor
  case placed =>
    intro tree' g text hg hget
    by_cases hne : tree' ≠ tree ∨ stem g ≠ m.id
    · rw [hother tree' g hg hne] at hget
      exact hs.placed tree' g text hg hget
    · push Not at hne
      obtain ⟨rfl, hstem⟩ := hne
      simp only [hw.get_self hg hstem] at hget
      split at hget
      · rename_i hgf
        rw [Option.some.injEq] at hget
        exact ⟨m, hget.symm, hgf ▸ hw.file, hw.kept⟩
      · cases hget
  case one =>
    intro tree' g g' hg hg' hgs hgs' hstem
    by_cases hne : tree' ≠ tree ∨ stem g ≠ m.id
    · simp only [hother tree' g hg hne] at hgs
      simp only [hother tree' g' hg' (by rwa [← hstem])] at hgs'
      exact hs.one tree' g g' hg hg' hgs hgs' hstem
    · push Not at hne
      obtain ⟨rfl, hgm⟩ := hne
      simp only [hw.get_self hg hgm] at hgs
      simp only [hw.get_self hg' (hstem.symm.trans hgm)] at hgs'
      split at hgs
      · split at hgs'
        · rename_i hgf hgf'
          exact hgf.trans hgf'.symm
        · cases hgs'
      · cases hgs
  case used =>
    intro tree' g hg hgs
    by_cases hne : tree' ≠ tree ∨ stem g ≠ m.id
    · simp only [hother tree' g hg hne] at hgs
      exact hused _ (hs.used tree' g hg hgs)
    · push Not at hne
      exact hne.2 ▸ hid
  case hands => exact hs.hands

/-- After the plan the id reads as the record does, if it reads at all. -/
theorem Rewrites.read (hv : C.host.ReadsVersions) (hs : Sound C s)
    (hw : Rewrites C s.files tree plan m f) {used : List String}
    (hused : ∀ i ∈ s.used, i ∈ used) (hid : m.id ∈ used) {r : Memory}
    (hr : recordIn C (applySteps s.files (plan.steps tag)) tree m.id = some r) :
    r = readBack C.host m := by
  have hsound : Sound C { s with files := applySteps s.files (plan.steps tag), used := used } :=
    hw.sound hs hused hid
  obtain ⟨g, hg, hstem, hread⟩ := (recordIn_eq_some (hsound.one tree)).mp hr
  rw [readFile, hw.get_self hg hstem, Option.bind_eq_some_iff] at hread
  obtain ⟨text, htext, hparse⟩ := hread
  split at htext
  · cases htext
    exact parse_render_eq hv hstem hparse
  · cases htext

/-- Records of other ids and of other trees read as they did. -/
theorem recordIn_other {files files' : Files} {tree' : Option String} {id' : String}
    (hone : OneTree (treePath C.root tree') files) (hone' : OneTree (treePath C.root tree') files')
    (hsame : ∀ g, InTree (treePath C.root tree') g → stem g = id' → files'.get g = files.get g) :
    recordIn C files' tree' id' = recordIn C files tree' id' := by
  refine Option.ext fun r => ?_
  rw [recordIn_eq_some hone, recordIn_eq_some hone']
  refine exists_congr fun g => and_congr_right fun hg => and_congr_right fun hstem => ?_
  rw [readFile, readFile, hsame g hg hstem]

/-- A plan that only removes. -/
theorem sound_remove {C : Config} {s : FileState} (hs : Sound C s) (g₀ : Path) (tag : String) :
    Sound C { s with files := applySteps s.files (({ remove := some g₀ } : Plan).steps tag) } := by
  have hget : ∀ tree g, InTree (treePath C.root tree) g → ∀ text,
      (applySteps s.files (({ remove := some g₀ } : Plan).steps tag)).get g = some text →
      s.files.get g = some text := by
    intro tree g hg text htext
    rw [get_applySteps (fun s hs => absurd hs List.not_mem_nil)
      (isTreeRoot_treePath C.root tree) hg] at htext
    split at htext
    · cases htext
    · exact htext
  have hsome : ∀ tree g, InTree (treePath C.root tree) g →
      ((applySteps s.files (({ remove := some g₀ } : Plan).steps tag)).get g).isSome →
      (s.files.get g).isSome := by
    intro tree g hg hgs
    obtain ⟨text, htext⟩ := Option.isSome_iff_exists.mp hgs
    rw [hget tree g hg text htext]
    rfl
  constructor
  case placed => exact fun tree g text hg htext => hs.placed tree g text hg (hget tree g hg text htext)
  case one =>
    intro tree g g' hg hg' hgs hgs' hstem
    exact hs.one tree g g' hg hg' (hsome tree g hg hgs) (hsome tree g' hg' hgs') hstem
  case used => exact fun tree g hg hgs => hs.used tree g hg (hsome tree g hg hgs)
  case hands => exact hs.hands

end Plans

end Remembra.Store
