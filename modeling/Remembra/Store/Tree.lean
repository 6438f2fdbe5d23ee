import Remembra.Store.Files

/-! The trees below the storage root, the legacy one and one for each tenant, and what the steps of a
    call do to the record files in them: the temporary files and the history are in no tree, so the
    files of the trees change where a plan writes or removes and nowhere else. -/

namespace Remembra.Store

/-! ### Trees -/

/-- The root of the legacy tree or of a tenant's. -/
def IsTreeRoot (root : Root) (base : Path) : Prop :=
  base = root.path ∨ ∃ key, base = root.path ++ ["tenants", key]

/-- A record file of the tree. -/
def InTree (base file : Path) : Prop :=
  isMd (file.getLast?.getD "") = true ∧ ∃ dir ∈ treeDirs base, below dir file = true

/-- Each id occurs in one file of the tree. -/
def OneTree (base : Path) (files : Files) : Prop :=
  ∀ f g, InTree base f → InTree base g → (files.get f).isSome → (files.get g).isSome →
    stem f = stem g → f = g

/-! ### Calls -/

inductive Operation where
  | store (id : String) (input : StoreInput) (embedding : Option (List JsNum))
  | archive (id : String)
  | revive (id : String)
  | touch (id : String)
  | forget (id : String)
  | update (memory : Memory) (options : UpdateOptions)

/-- The durable steps that a call decides on. -/
def planOf (C : Config) (now : ℤ) (tags : ℕ → String) (files : Files) (tenant : Option TenantFilter) :
    Operation → Plan
  | .store id input embedding => (store C now id input embedding tenant).plan
  | .archive id => (archive C now files id tenant).plan
  | .revive id => (revive C now files id tenant).plan
  | .touch id => (touch C now files id tenant).plan
  | .forget id => (forget C files id tenant).plan
  | .update memory options => (update C now tags files memory options tenant).plan

/-! ### Files in and off the trees -/

theorem below_iff {dir file : Path} :
    below dir file = true ↔ dir <+: file ∧ dir.length < file.length := by
  simp [below, List.isPrefixOf_iff_prefix]

theorem mem_walk {dirs : List Path} {files : Files} {f : Path} :
    f ∈ walk dirs files ↔ isMd (f.getLast?.getD "") = true ∧ (∃ dir ∈ dirs, below dir f = true) ∧
      (files.get f).isSome := by
  have hkeys : f ∈ files.keys ↔ (files.get f).isSome := by
    rw [Option.isSome_iff_ne_none, ne_eq, OrdMap.get_eq_none, not_not]
  simp only [walk, List.mem_flatMap, List.mem_filter, Bool.and_eq_true, hkeys]
  constructor
  · rintro ⟨dir, hdir, hf, hbelow, hmd⟩
    exact ⟨hmd, ⟨dir, hdir, hbelow⟩, hf⟩
  · rintro ⟨hmd, ⟨dir, hdir, hbelow⟩, hf⟩
    exact ⟨dir, hdir, hf, hbelow, hmd⟩

/-- What follows a directory in the path of a file below it. -/
theorem prefix_singleton_inj {base : Path} {s s' : String} {file : Path}
    (h : base ++ [s] <+: file) (h' : base ++ [s'] <+: file) : s = s' := by
  obtain ⟨r, rfl⟩ := h
  obtain ⟨r', hr⟩ := h'
  rw [List.append_assoc, List.append_assoc, List.append_cancel_left_eq] at hr
  exact (List.cons.inj hr).1.symm

theorem inTree_iff {base file : Path} :
    InTree base file ↔ isMd (file.getLast?.getD "") = true ∧
      ∃ s ∈ ["global", "scopes", "archived"], below (base ++ [s]) file = true := by
  simp [InTree, treeDirs]

/-- A file below a directory that is none of a tree's is in no tree: what follows the root of the
    tree in its path is not one of the tree's directories. -/
theorem not_inTree_of_prefix {base : Path} {s : String} {file : Path}
    (h : base ++ [s] <+: file) (hs : s ∉ ["global", "scopes", "archived"]) :
    ¬ InTree base file := by
  intro hin
  obtain ⟨-, s', hs', hbelow⟩ := inTree_iff.mp hin
  rw [prefix_singleton_inj h (below_iff.mp hbelow).1] at hs
  exact hs hs'

/-- A file of a tenant's tree is in no legacy directory. -/
theorem under_tenants {root : Root} {key : String} {file : Path}
    (h : InTree (root.path ++ ["tenants", key]) file) : root.path ++ ["tenants"] <+: file := by
  obtain ⟨-, s, -, hbelow⟩ := inTree_iff.mp h
  refine List.IsPrefix.trans ⟨[key, s], ?_⟩ (below_iff.mp hbelow).1
  simp

theorem not_inTree_root {root : Root} {key : String} {file : Path}
    (h : InTree (root.path ++ ["tenants", key]) file) : ¬ InTree root.path file :=
  not_inTree_of_prefix (under_tenants h) (by decide)

/-- Every record file's name ends in `.md`. -/
theorem isMd_append (s : String) : isMd (s ++ ".md") = true := by
  have hrev : (s ++ ".md").toList.reverse = 'd' :: 'm' :: '.' :: s.toList.reverse := by
    rw [String.toList_append, List.reverse_append]
    rfl
  rw [isMd, hrev]
  rfl

theorem isMd_tmp (name : String) : isMd (name ++ ".tmp") = false := by
  have hrev : (name ++ ".tmp").toList.reverse = 'p' :: 'm' :: 't' :: '.' :: name.toList.reverse := by
    rw [String.toList_append, List.reverse_append]
    rfl
  rw [isMd, hrev]
  rfl

theorem not_inTree_tmp (base file : Path) (tag : String) : ¬ InTree base (tmpFile file tag) := by
  intro h
  have hmd := h.1
  rw [tmpFile, List.getLast?_concat, Option.getD_some, isMd_tmp] at hmd
  cases hmd

/-- The last part of a text that ends in `.md` does too. -/
theorem splitOn_md (l : List Char) : ∃ init x, (l ++ ['.', 'm', 'd']).splitOn '/' =
    init ++ [x ++ ['.', 'm', 'd']] := by
  induction l with
  | nil => exact ⟨[], [], rfl⟩
  | cons c l ih =>
    obtain ⟨init, x, hsplit⟩ := ih
    rw [List.cons_append, List.splitOn_cons_eq_if_modifyHead, hsplit]
    split
    · exact ⟨[] :: init, x, rfl⟩
    · cases init with
      | nil => exact ⟨[], c :: x, rfl⟩
      | cons y init => exact ⟨(c :: y) :: init, x, rfl⟩

/-- A record's file ends in `.md`, whatever its id and its scope are. -/
theorem isMd_fileFor {root : Root} {m : Memory} {f : Path} (h : fileFor root m = .ok f) :
    isMd (f.getLast?.getD "") = true := by
  unfold fileFor at h
  split at h
  · cases h
  · rename_i base hbase
    simp only at h
    split at h
    · cases h
      obtain ⟨init, x, hsplit⟩ := splitOn_md m.id.toList
      have hseg : segments (m.id ++ ".md") =
          init.map String.ofList ++ [String.ofList x ++ ".md"] := by
        rw [segments, String.toList_append]
        change ((m.id.toList ++ ['.', 'm', 'd']).splitOn '/').map String.ofList = _
        rw [hsplit, List.map_append, List.map_singleton, String.ofList_append]
      have hdescend : ∀ p, descend p (String.ofList x ++ ".md") = p ++ [String.ofList x ++ ".md"] := by
        intro p
        obtain ⟨h1, h2, h3⟩ := isName_iff.mp (isName_append_md (String.ofList x))
        simp [descend, h1, h2, h3]
      rw [resolve, hseg, ← List.append_assoc, List.foldl_append, List.foldl_cons, List.foldl_nil,
        hdescend, List.getLast?_concat, Option.getD_some]
      exact isMd_append _
    · cases h

/-- The history directory of a tree is in no tree. -/
theorem not_inTree_history {root : Root} {base base' : Path} (hb : IsTreeRoot root base)
    (hb' : IsTreeRoot root base') {file : Path} (h : base' ++ [".history"] <+: file) :
    ¬ InTree base file := by
  intro hin
  rcases hb with rfl | ⟨key, rfl⟩ <;> rcases hb' with rfl | ⟨key', rfl⟩
  · exact not_inTree_of_prefix h (by decide) hin
  · have htenants : root.path ++ ["tenants"] <+: file :=
      List.IsPrefix.trans ⟨[key', ".history"], by simp⟩ h
    exact not_inTree_of_prefix htenants (by decide) hin
  · exact absurd (prefix_singleton_inj h (under_tenants hin)) (by decide)
  · obtain ⟨-, s, hs, hbelow⟩ := inTree_iff.mp hin
    have hpre := (below_iff.mp hbelow).1
    have hkey : key = key' := by
      have h1 : (root.path ++ ["tenants"]) ++ [key] <+: file :=
        List.IsPrefix.trans ⟨[s], by simp⟩ hpre
      have h2 : (root.path ++ ["tenants"]) ++ [key'] <+: file :=
        List.IsPrefix.trans ⟨[".history"], by simp⟩ h
      exact prefix_singleton_inj h1 h2
    subst hkey
    exact not_inTree_of_prefix h (by decide) hin

/-- A file is in one tree at most. -/
theorem inTree_unique {root : Root} {base base' file : Path} (hb : IsTreeRoot root base)
    (hb' : IsTreeRoot root base') (h : InTree base file) (h' : InTree base' file) :
    base = base' := by
  rcases hb with rfl | ⟨key, rfl⟩ <;> rcases hb' with rfl | ⟨key', rfl⟩
  · rfl
  · exact absurd h (not_inTree_root h')
  · exact absurd h' (not_inTree_root h)
  · have hdir : ∀ {key}, InTree (root.path ++ ["tenants", key]) file →
        root.path ++ ["tenants"] ++ [key] <+: file := by
      intro key hin
      obtain ⟨-, s, -, hbelow⟩ := inTree_iff.mp hin
      exact List.IsPrefix.trans ⟨[s], by simp⟩ (below_iff.mp hbelow).1
    rw [prefix_singleton_inj (hdir h) (hdir h')]

theorem isTreeRoot_treeRoot (root : Root) (tenant : Option TenantFilter) :
    IsTreeRoot root (treeRoot root tenant) := by
  cases tenant with
  | none => exact .inl rfl
  | some t => exact .inr ⟨_, rfl⟩

/-! ### What the steps of a call do in the trees -/

/-- A step that touches no file of the trees. -/
def OffTree (root : Root) : DiskStep → Prop
  | .create file _ | .unlink file => ∀ base, IsTreeRoot root base → ¬ InTree base file
  | .rename old new => ∀ base, IsTreeRoot root base → ¬ InTree base old ∧ ¬ InTree base new

section Steps
variable {root : Root} {base g : Path} {files : Files}

theorem get_delete_ne {f : Path} (h : g ≠ f) : (files.delete f).get g = files.get g := by
  rw [OrdMap.get_delete, if_neg h]

theorem get_apply_offTree {step : DiskStep} (hoff : OffTree root step) (hb : IsTreeRoot root base)
    (hg : InTree base g) : (step.apply files).get g = files.get g := by
  have hne : ∀ {f}, ¬ InTree base f → g ≠ f := by
    rintro f hf rfl
    exact hf hg
  cases step with
  | create file text => exact OrdMap.get_set_ne _ (hne (hoff base hb)) _
  | unlink file => exact get_delete_ne (hne (hoff base hb))
  | rename old new =>
    obtain ⟨hold, hnew⟩ := hoff base hb
    simp only [DiskStep.apply]
    split
    · rw [get_delete_ne (hne hold), OrdMap.get_set_ne _ (hne hnew)]
    · rfl

theorem get_applySteps_offTree {steps : List DiskStep} (hoff : ∀ s ∈ steps, OffTree root s)
    (hb : IsTreeRoot root base) (hg : InTree base g) :
    (applySteps files steps).get g = files.get g := by
  induction steps generalizing files with
  | nil => rfl
  | cons s steps ih =>
    refine (ih fun s' hs' => hoff s' (List.mem_cons_of_mem _ hs')).trans ?_
    exact get_apply_offTree (hoff s (List.mem_cons_self ..)) hb hg

/-- A finished atomic write puts the text under its name. -/
theorem get_writeAtomic {file : Path} {text : FileText} {tag : String} (hg : InTree base g) :
    (applySteps files (writeAtomic file text tag)).get g =
      if g = file then some text else files.get g := by
  have hne : g ≠ tmpFile file tag := by
    rintro rfl
    exact not_inTree_tmp _ _ _ hg
  simp only [writeAtomic, applySteps, List.foldl_cons, List.foldl_nil, DiskStep.apply,
    OrdMap.get_set_self]
  rw [get_delete_ne hne, OrdMap.get_set, OrdMap.get_set_ne _ hne, OrdMap.get_set_ne _ hne]

theorem applySteps_append (files : Files) (s t : List DiskStep) :
    applySteps files (s ++ t) = applySteps (applySteps files s) t := List.foldl_append ..

/-- An atomic write below a history directory is off the trees. -/
theorem offTree_writeAtomic {base' dir : Path} (hb' : IsTreeRoot root base')
    (hdir : base' ++ [".history"] <+: dir) (name : String) (text : FileText) (tag : String) :
    ∀ s ∈ writeAtomic (dir ++ [name]) text tag, OffTree root s := by
  have hoff : ∀ name, ∀ base, IsTreeRoot root base → ¬ InTree base (dir ++ [name]) :=
    fun name base hb => not_inTree_history hb hb' (hdir.trans (List.prefix_append ..))
  have htmp : tmpFile (dir ++ [name]) tag = dir ++ [name ++ "." ++ tag ++ ".tmp"] := by
    rw [tmpFile, List.dropLast_concat, List.getLast?_concat, Option.getD_some]
  intro s hs
  simp only [writeAtomic, htmp, List.mem_cons, List.not_mem_nil, or_false] at hs
  rcases hs with rfl | rfl | rfl
  · exact hoff _
  · exact hoff _
  · exact fun base hb => ⟨hoff _ base hb, hoff _ base hb⟩

theorem offTree_snapshotHistory {C : Config} {now : ℤ} {tags : ℕ → String} {file : Path}
    {reason : Option String} {tenant : Option TenantFilter} {steps : List DiskStep}
    (h : snapshotHistory C now tags files file reason tenant = .ok steps) :
    ∀ s ∈ steps, OffTree C.root s := by
  have hb' := isTreeRoot_treeRoot C.root tenant
  have hdir : treeRoot C.root tenant ++ [".history"] <+:
      treeRoot C.root tenant ++ [".history", stem file] := ⟨[stem file], by simp⟩
  unfold snapshotHistory at h
  split at h
  · cases h
    intro s hs
    cases hs
  · split at h
    · cases h
      intro s hs
      rcases List.mem_append.mp hs with hs | hs
      · rcases List.mem_append.mp hs with hs | hs
        · exact offTree_writeAtomic hb' hdir _ _ _ s hs
        · split at hs
          · exact offTree_writeAtomic hb' hdir _ _ _ s hs
          · cases hs
      · obtain ⟨n, -, rfl⟩ := List.mem_map.mp hs
        exact fun base hb => not_inTree_history hb hb' (hdir.trans (List.prefix_append ..))
    · cases h

/-- Only an update keeps history. -/
theorem history_planOf {C : Config} {now : ℤ} {tags : ℕ → String} {tenant : Option TenantFilter}
    {op : Operation} (hop : ∀ memory options, op ≠ .update memory options) :
    (planOf C now tags files tenant op).history = [] := by
  cases op with
  | store id input embedding =>
    simp only [planOf, store]
    split <;> rfl
  | archive id =>
    simp only [planOf, archive, move]
    repeat' split
    all_goals rfl
  | revive id =>
    simp only [planOf, revive, move]
    repeat' split
    all_goals rfl
  | touch id =>
    simp only [planOf, touch]
    repeat' split
    all_goals rfl
  | forget id =>
    simp only [planOf, forget]
    repeat' split
    all_goals rfl
  | update memory options => exact absurd rfl (hop memory options)

/-- The record that `update` writes over the current one. -/
def updatedFrom (C : Config) (now : ℤ) (current memory : Memory) : Memory :=
  { memory with version := current.version + 1, updatedAt := C.host.toISOString now }

/-- An update that is refused has no step, any other writes the record and unlinks the old file. -/
theorem update_cases (C : Config) (now : ℤ) (tags : ℕ → String) (files : Files) (memory : Memory)
    (options : UpdateOptions) (tenant : Option TenantFilter) :
    (∃ e, update C now tags files memory options tenant = { result := .error e }) ∨
    ∃ target existing current history, fileFor C.root memory = .ok target ∧
      existingFile C files target memory.id tenant = some existing ∧
      readFile C files existing = some current ∧ matchesTenant memory tenant = true ∧
      ((truthy memory.tenantId).isSome && tenant.isNone) = false ∧
      (∀ x ∈ options.expectedVersion, x = current.version) ∧
      (if current.content = memory.content then .ok []
        else snapshotHistory C now tags files existing options.reason tenant) = .ok history ∧
      update C now tags files memory options tenant =
        { plan := {
            history := history
            write := some (target, render C.host (updatedFrom C now current memory))
            remove := if existing = target then none else some existing }
          result := .ok (updatedFrom C now current memory) } := by
  unfold update
  by_cases hmatch : matchesTenant memory tenant = true
  · rw [hmatch, Bool.not_true, if_neg (by decide)]
    cases htarget : fileFor C.root memory with
    | error e => exact .inl ⟨e, rfl⟩
    | ok target =>
      simp only
      cases hexisting : existingFile C files target memory.id tenant with
      | none => exact .inl ⟨_, rfl⟩
      | some existing =>
        simp only
        cases hcurrent : readFile C files existing with
        | none => exact .inl ⟨_, rfl⟩
        | some current =>
          simp only
          split
          · exact .inl ⟨_, rfl⟩
          · rename_i htenant
            split
            · exact .inl ⟨_, rfl⟩
            · rename_i hexpected
              rw [Bool.or_eq_true, not_or] at htenant
              cases hhistory : (if current.content = memory.content then Except.ok []
                  else snapshotHistory C now tags files existing options.reason tenant) with
              | error e => exact .inl ⟨e, rfl⟩
              | ok history =>
                refine .inr ⟨target, existing, current, history, rfl, hexisting, hcurrent, trivial,
                  Bool.eq_false_iff.mpr htenant.1, ?_, hhistory, rfl⟩
                intro x hx
                rw [Option.mem_def] at hx
                simpa [hx] using hexpected
  · rw [Bool.eq_false_iff.mpr hmatch, Bool.not_false, if_pos rfl]
    exact .inl ⟨_, rfl⟩

theorem offTree_history {C : Config} {now : ℤ} {tags : ℕ → String} {file : Path}
    {reason : Option String} {tenant : Option TenantFilter} {steps : List DiskStep} {same : Prop}
    [Decidable same]
    (h : (if same then Except.ok [] else snapshotHistory C now tags files file reason tenant) =
      .ok steps) : ∀ s ∈ steps, OffTree C.root s := by
  split at h
  · cases h
    intro s hs
    cases hs
  · exact offTree_snapshotHistory h

theorem offTree_update {C : Config} {now : ℤ} {tags : ℕ → String} {tenant : Option TenantFilter}
    {memory : Memory} {options : UpdateOptions} :
    ∀ s ∈ (update C now tags files memory options tenant).plan.history, OffTree C.root s := by
  rcases update_cases C now tags files memory options tenant with
    ⟨e, h⟩ | ⟨target, existing, current, history, -, -, -, -, -, -, hhistory, h⟩
  · rw [h]
    intro s hs
    cases hs
  · rw [h]
    exact offTree_history hhistory

/-- The history steps of a call are off the trees. -/
theorem offTree_planOf {C : Config} {now : ℤ} {tags : ℕ → String} {tenant : Option TenantFilter}
    {op : Operation} : ∀ s ∈ (planOf C now tags files tenant op).history, OffTree C.root s := by
  by_cases hop : ∃ memory options, op = .update memory options
  · obtain ⟨memory, options, rfl⟩ := hop
    exact offTree_update
  · have hnil : (planOf C now tags files tenant op).history = [] :=
      history_planOf fun memory options h => hop ⟨memory, options, h⟩
    intro s hs
    rw [hnil] at hs
    cases hs

/-- The tree after a call: the removed file is gone and the written one holds its text. -/
theorem get_applySteps {plan : Plan} {tag : String} (hhistory : ∀ s ∈ plan.history, OffTree root s)
    (hb : IsTreeRoot root base) (hg : InTree base g) :
    (applySteps files (plan.steps tag)).get g =
      if plan.remove = some g then none
      else match plan.write with
        | some (file, text) => if g = file then some text else files.get g
        | none => files.get g := by
  have hwritten : (applySteps files (plan.history ++ plan.writeSteps tag)).get g =
      match plan.write with
        | some (file, text) => if g = file then some text else files.get g
        | none => files.get g := by
    rw [applySteps_append]
    unfold Plan.writeSteps
    cases plan.write with
    | none => exact get_applySteps_offTree hhistory hb hg
    | some w =>
      simp only
      rw [get_writeAtomic hg, get_applySteps_offTree hhistory hb hg]
  rw [Plan.steps, applySteps_append]
  unfold Plan.removeSteps
  cases plan.remove with
  | none =>
    rw [if_neg (by simp)]
    exact hwritten
  | some f =>
    simp only [applySteps, List.foldl_cons, List.foldl_nil, DiskStep.apply, Option.some.injEq]
    rw [OrdMap.get_delete]
    by_cases hgf : f = g
    · rw [if_pos hgf, if_pos hgf.symm]
    · rw [if_neg hgf, if_neg (Ne.symm hgf)]
      exact hwritten

end Steps

end Remembra.Store
