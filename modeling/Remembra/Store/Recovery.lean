import Remembra.Store.RoundTrip
import Remembra.Store.Tree

/-! Crash recovery. `recover` rolls back an import that its journal shows to be unfinished, removes
    temporary files that are old enough and looks for ids that the active and the archived half of the
    legacy tree both hold.

    A crash inside a call leaves its first durable steps. Where the call moves a record, the crash
    between its write and its unlink leaves the id in two files, and `recover` removes one of them only
    if they lie in opposite halves of the legacy tree (`restored_iff`): a move inside one half, and any
    move in a tenant's tree, stay in two files. -/

namespace Remembra.Store

/-! ### The recovery pass -/

/-- The files and the import journal beside the root. -/
structure Disk where
  files : Files
  journal : Option (List Path) := none

/-- Remove every file the journal lists, then the journal. -/
def reconcileSnapshotImport (d : Disk) : Disk :=
  match d.journal with
  | none => d
  | some paths => ⟨paths.foldl OrdMap.delete d.files, none⟩

def isTmp (name : String) : Bool :=
  match name.toList.reverse with
  | 'p' :: 'm' :: 't' :: '.' :: _ => true
  | _ => false

section Recover
variable (C : Config)

/-- Remove the temporary files that are older than the lock's stale window. -/
def sweep (aged : Path → Bool) (files : Files) : Files :=
  files.filter fun f _ => !(below C.root.path f && isTmp (f.getLast?.getD "") && aged f)

/-- The archived file of an id: the last one that the map of archived files was given. -/
def archivedTwin (archived : List Path) (id : String) : Option Path :=
  (archived.filter fun f => stem f = id).getLast?

/-- The newest `updatedAt` wins, ties go to the archived copy. -/
def keepArchived (active archived : Option Memory) : Bool :=
  match active, archived with
  | none, _ => true
  | some _, none => false
  | some am, some zm =>
    match C.host.dateParse zm.updatedAt, C.host.dateParse am.updatedAt with
    | some tz, some ta => ta ≤ tz
    | _, _ => false

/-- One active file against its archived twin. Two copies that cannot be read are left alone. -/
def reconcilePair (archived : List Path) (files : Files) (activeFile : Path) : Files :=
  match archivedTwin archived (stem activeFile) with
  | none => files
  | some twin =>
    let am := readFile C files activeFile
    let zm := readFile C files twin
    if am.isNone && zm.isNone then files
    else files.delete (if keepArchived C am zm then activeFile else twin)

def activeDirs : List Path := [C.root.path ++ ["global"], C.root.path ++ ["scopes"]]

def archivedDirs : List Path := [C.root.path ++ ["archived"]]

/-- Ids in both halves of the legacy tree. -/
def reconcileTrees (files : Files) : Files :=
  (walk (activeDirs C) files).foldl (reconcilePair C (walk (archivedDirs C) files)) files

/-- The recovery pass; `aged` tells the temporary files that are old enough. -/
def recover (aged : Path → Bool) (d : Disk) : Disk :=
  let d := reconcileSnapshotImport d
  { d with files := reconcileTrees C (sweep C aged d.files) }

end Recover

/-! ### Crashes -/

/-- The id occurs in exactly one file of the tree, and that file holds the text. -/
def HeldOnce (base : Path) (files : Files) (id : String) (text : FileText) : Prop :=
  ∃ g, InTree base g ∧ stem g = id ∧ files.get g = some text ∧
    ∀ g', InTree base g' → stem g' = id → (files.get g').isSome → g' = g

/-- What is on disk when the call crashes after `k` of its durable steps. -/
def crash (tags : ℕ → String) (files : Files) (plan : Plan) (k : ℕ) : Files :=
  applySteps files ((plan.steps (tags 0)).take k)

/-- The file that the first `k` steps have put under its name. -/
def written (plan : Plan) (k : ℕ) : Option (Path × FileText) :=
  if plan.history.length + 3 ≤ k then plan.write else none

section Law
variable (C : Config) (files : Files)

/-- Every id that was in a tree is in exactly one file of it, with the text it had or the one the
    call writes. -/
def Restored (plan : Plan) (after : Files) : Prop :=
  ∀ base, IsTreeRoot C.root base → ∀ f text, InTree base f → files.get f = some text →
    HeldOnce base after (stem f) text ∨
    ∃ file new, plan.write = some (file, new) ∧ stem file = stem f ∧
      HeldOnce base after (stem f) new

/-- The two files lie in opposite halves of the legacy tree. -/
def Opposite (f g : Path) : Prop :=
  below (C.root.path ++ ["archived"]) f ≠ below (C.root.path ++ ["archived"]) g

/-- What was written lies where the id was, or in the other half of the legacy tree with one of the
    two copies readable. -/
def Recoverable (w : Option (Path × FileText)) : Prop :=
  ∀ file text, w = some (file, text) → ∀ base, IsTreeRoot C.root base → InTree base file →
    ∀ f, InTree base f → (files.get f).isSome → stem f = stem file →
      f = file ∨ (base = C.root.path ∧ Opposite C f file ∧
        ((readFile C files f).isSome ∨ (parse C.host file text).isSome))

end Law

/-! ### What a crash leaves in the trees -/

section Crash
variable {root : Root} {base g : Path} {files : Files}

/-- The first two steps of an atomic write touch the temporary file only. -/
theorem get_writeAtomic_start {file : Path} {text : FileText} {tag : String} {k : ℕ} (hk : k < 3)
    (hg : InTree base g) :
    (applySteps files ((writeAtomic file text tag).take k)).get g = files.get g := by
  have hne : g ≠ tmpFile file tag := by
    rintro rfl
    exact not_inTree_tmp _ _ _ hg
  match k, hk with
  | 0, _ => rfl
  | 1, _ => exact OrdMap.get_set_ne _ hne _
  | 2, _ => exact (OrdMap.get_set_ne _ hne _).trans (OrdMap.get_set_ne _ hne _)

/-- Inside a call the unlink, its last step, is still to come. -/
theorem take_steps {plan : Plan} {tag : String} {k : ℕ} (hk : k < (plan.steps tag).length) :
    (plan.steps tag).take k = plan.history.take k ++
      (plan.writeSteps tag).take (k - plan.history.length) := by
  have hremove : plan.removeSteps.length ≤ 1 := by
    unfold Plan.removeSteps
    split
    · exact Nat.le_refl 1
    · exact Nat.zero_le 1
  unfold Plan.steps at hk ⊢
  rw [List.length_append] at hk
  rw [List.take_append_of_le_length (by omega), List.take_append]

/-- The tree after a crash inside a call: as before, but for the file that was written by then. -/
theorem get_crash {tags : ℕ → String} {plan : Plan} {k : ℕ}
    (hhistory : ∀ s ∈ plan.history, OffTree root s) (hk : k < (plan.steps (tags 0)).length)
    (hb : IsTreeRoot root base) (hg : InTree base g) :
    (crash tags files plan k).get g =
      match written plan k with
      | some (file, text) => if g = file then some text else files.get g
      | none => files.get g := by
  have hbefore : ∀ l, (∀ s ∈ l, s ∈ plan.history) → (applySteps files l).get g = files.get g :=
    fun l hl => get_applySteps_offTree (fun s hs => hhistory s (hl s hs)) hb hg
  rw [crash, take_steps hk, applySteps_append]
  have htake := hbefore (plan.history.take k) fun s hs => List.mem_of_mem_take hs
  unfold written
  cases hwrite : plan.write with
  | none =>
    have hnil : plan.writeSteps (tags 0) = [] := by rw [Plan.writeSteps, hwrite]
    rw [hnil, List.take_nil]
    split
    · rename_i hsome
      split at hsome <;> cases hsome
    · exact htake
  | some w =>
    obtain ⟨file, text⟩ := w
    have hsteps : plan.writeSteps (tags 0) = writeAtomic file text (tags 0) := by
      rw [Plan.writeSteps, hwrite]
    rw [hsteps]
    by_cases hdone : plan.history.length + 3 ≤ k
    · rw [if_pos hdone, List.take_of_length_le (i := k - plan.history.length)
        (by simp only [writeAtomic, List.length_cons, List.length_nil]; omega),
        get_writeAtomic hg, htake]
    · rw [if_neg hdone]
      exact (get_writeAtomic_start (by omega) hg).trans htake

end Crash

/-! ### What the recovery pass does to the trees -/

section Reconcile
variable {C : Config} {files : Files}
theorem isTmp_of_isMd {name : String} (h : isMd name = true) : isTmp name = false := by
  unfold isMd at h
  unfold isTmp
  split at h
  · rename_i hl
    rw [hl]
    rfl
  · cases h

theorem get_sweep {aged : Path → Bool} {base g : Path} (hg : InTree base g) :
    (sweep C aged files).get g = files.get g := by
  have hkeep : (!(below C.root.path g && isTmp (g.getLast?.getD "") && aged g)) = true := by
    rw [isTmp_of_isMd hg.1, Bool.and_false, Bool.false_and, Bool.not_false]
  rw [sweep, OrdMap.get_filter]
  cases files.get g with
  | none => rfl
  | some text => exact Option.filter_some_pos hkeep

theorem mem_active {f : Path} :
    f ∈ walk (activeDirs C) files ↔ InTree C.root.path f ∧
      below (C.root.path ++ ["archived"]) f = false ∧ (files.get f).isSome := by
  have hsplit : ∀ s ∈ ["global", "scopes"], below (C.root.path ++ [s]) f = true →
      below (C.root.path ++ ["archived"]) f = false := by
    intro s hs hbelow
    rw [Bool.eq_false_iff]
    intro harchived
    have := prefix_singleton_inj (below_iff.mp hbelow).1 (below_iff.mp harchived).1
    subst this
    exact absurd hs (by decide)
  rw [mem_walk, inTree_iff]
  simp only [activeDirs, List.mem_cons, List.not_mem_nil, or_false, exists_eq_or_imp,
    exists_eq_left]
  constructor
  · rintro ⟨hmd, hdir, hf⟩
    rcases hdir with hdir | hdir
    · exact ⟨⟨hmd, .inl hdir⟩, hsplit "global" (by decide) hdir, hf⟩
    · exact ⟨⟨hmd, .inr (.inl hdir)⟩, hsplit "scopes" (by decide) hdir, hf⟩
  · rintro ⟨⟨hmd, hdir⟩, hactive, hf⟩
    rw [hactive] at hdir
    refine ⟨hmd, ?_, hf⟩
    rcases hdir with hdir | hdir | hdir
    · exact .inl hdir
    · exact .inr hdir
    · cases hdir

theorem mem_archived {f : Path} :
    f ∈ walk (archivedDirs C) files ↔ InTree C.root.path f ∧
      below (C.root.path ++ ["archived"]) f = true ∧ (files.get f).isSome := by
  rw [mem_walk, inTree_iff]
  simp only [archivedDirs, List.mem_cons, List.not_mem_nil, or_false, exists_eq_or_imp,
    exists_eq_left]
  constructor
  · rintro ⟨hmd, hdir, hf⟩
    exact ⟨⟨hmd, .inr (.inr hdir)⟩, hdir, hf⟩
  · rintro ⟨⟨hmd, -⟩, hdir, hf⟩
    exact ⟨hmd, hdir, hf⟩

theorem nodup_active : (walk (activeDirs C) files).Nodup := by
  have hone : ∀ dir, (files.keys.filter fun f => below dir f && isMd (f.getLast?.getD "")).Nodup :=
    fun dir => files.nodup.filter _
  simp only [walk, activeDirs, List.flatMap_cons, List.flatMap_nil, List.append_nil]
  refine List.nodup_append.mpr ⟨hone _, hone _, ?_⟩
  rintro f hf g hg rfl
  simp only [List.mem_filter, Bool.and_eq_true] at hf hg
  exact absurd (prefix_singleton_inj (below_iff.mp hf.2.1).1 (below_iff.mp hg.2.1).1) (by decide)

/-- Without a twin a file is left alone. -/
theorem reconcilePair_eq_self {archived : List Path} {e : Files} {a : Path}
    (h : ∀ z ∈ archived, stem z ≠ stem a) : reconcilePair C archived e a = e := by
  have hnil : (archived.filter fun f => stem f = stem a) = [] :=
    List.filter_eq_nil_iff.mpr fun z hz => by simpa using h z hz
  rw [reconcilePair, archivedTwin, hnil]
  rfl

theorem foldl_reconcilePair {archived l : List Path} {e : Files}
    (h : ∀ a ∈ l, ∀ z ∈ archived, stem z ≠ stem a) : l.foldl (reconcilePair C archived) e = e := by
  induction l with
  | nil => rfl
  | cons a l ih =>
    rw [List.foldl_cons, reconcilePair_eq_self (h a (List.mem_cons_self ..))]
    exact ih fun b hb => h b (List.mem_cons_of_mem _ hb)

/-- With one pair in the two halves the pass decides on that pair and on nothing else. -/
theorem reconcileTrees_pair {a z : Path} (ha : a ∈ walk (activeDirs C) files)
    (hz : z ∈ walk (archivedDirs C) files) (hstem : stem z = stem a)
    (honly : ∀ a' ∈ walk (activeDirs C) files, ∀ z' ∈ walk (archivedDirs C) files,
      stem z' = stem a' → a' = a ∧ z' = z) :
    reconcileTrees C files =
      if (readFile C files a).isNone && (readFile C files z).isNone then files
      else files.delete
        (if keepArchived C (readFile C files a) (readFile C files z) then a else z) := by
  obtain ⟨l, r, hl⟩ := List.append_of_mem ha
  have hnd : (walk (activeDirs C) files).Nodup := nodup_active
  rw [hl, List.nodup_append, List.nodup_cons] at hnd
  have hother : ∀ b ∈ l ++ r, ∀ z' ∈ walk (archivedDirs C) files, stem z' ≠ stem b := by
    intro b hb z' hz' hs
    have hmem : b ∈ walk (activeDirs C) files := by
      rw [hl]
      rcases List.mem_append.mp hb with hb | hb
      · exact List.mem_append_left _ hb
      · exact List.mem_append_right _ (List.mem_cons_of_mem _ hb)
    obtain ⟨rfl, -⟩ := honly b hmem z' hz' hs
    rcases List.mem_append.mp hb with hb | hb
    · exact hnd.2.2 b hb b (List.mem_cons_self ..) rfl
    · exact hnd.2.1.1 hb
  have htwin : archivedTwin (walk (archivedDirs C) files) (stem a) = some z := by
    unfold archivedTwin
    cases hlast : ((walk (archivedDirs C) files).filter fun f => stem f = stem a).getLast? with
    | none =>
      rw [List.getLast?_eq_none_iff, List.filter_eq_nil_iff] at hlast
      exact absurd (decide_eq_true hstem) (hlast z hz)
    | some z' =>
      have hmem := List.mem_of_getLast? hlast
      rw [List.mem_filter, decide_eq_true_iff] at hmem
      rw [(honly a ha z' hmem.1 hmem.2).2]
  rw [reconcileTrees, hl, List.foldl_append, List.foldl_cons,
    foldl_reconcilePair fun b hb => hother b (List.mem_append_left _ hb),
    foldl_reconcilePair fun b hb => hother b (List.mem_append_right _ hb),
    reconcilePair, htwin]

end Reconcile

/-! ### One tree again -/

section Restore
variable {C : Config} {files e : Files} {w : Option (Path × FileText)}

/-- `e` is `files` in the trees, but for what was written. -/
structure Crashed (C : Config) (files e : Files) (w : Option (Path × FileText)) : Prop where
  self : ∀ {base file text}, IsTreeRoot C.root base → InTree base file → w = some (file, text) →
    e.get file = some text
  other : ∀ {base g}, IsTreeRoot C.root base → InTree base g →
    (∀ file text, w = some (file, text) → g ≠ file) → e.get g = files.get g

/-- The id of the written file is in another file of the tree as well. -/
def Dual (base : Path) (files : Files) (w : Option (Path × FileText)) (p file : Path)
    (text : FileText) : Prop :=
  w = some (file, text) ∧ InTree base file ∧ InTree base p ∧ (files.get p).isSome ∧
    stem p = stem file ∧ p ≠ file

/-- Where no id is in two files, each is in one, with its old text or the written one. -/
theorem Crashed.held (hc : Crashed C files e w) {base : Path} (hb : IsTreeRoot C.root base)
    (hone : OneTree base files) (hdual : ∀ p file text, ¬ Dual base files w p file text) {f : Path}
    {text : FileText} (hf : InTree base f) (hget : files.get f = some text) :
    HeldOnce base e (stem f) text ∨
      ∃ file new, w = some (file, new) ∧ stem file = stem f ∧ HeldOnce base e (stem f) new := by
  have hsome : (files.get f).isSome := by rw [hget]; rfl
  have huniq : ∀ g, InTree base g → stem g = stem f → (e.get g).isSome → g = f := by
    intro g hg hstem he
    by_cases hw : ∃ text, w = some (g, text)
    · obtain ⟨text, hw⟩ := hw
      by_contra hne
      exact hdual f g text ⟨hw, hg, hf, hsome, hstem.symm, fun heq => hne heq.symm⟩
    · have hother : ∀ file text, w = some (file, text) → g ≠ file := by
        rintro file text hwf rfl
        exact hw ⟨text, hwf⟩
      rw [hc.other hb hg hother] at he
      exact hone g f hg hf he hsome hstem
  by_cases hw : ∃ new, w = some (f, new)
  · obtain ⟨new, hw⟩ := hw
    exact .inr ⟨f, new, hw, rfl, f, hf, rfl, hc.self hb hf hw, huniq⟩
  · have hother : ∀ file new, w = some (file, new) → f ≠ file := by
      rintro file new hwf rfl
      exact hw ⟨new, hwf⟩
    exact .inl ⟨f, hf, rfl, (hc.other hb hf hother).trans hget, huniq⟩

/-- A crash without a second copy leaves nothing to reconcile. -/
theorem Crashed.no_pair (hc : Crashed C files e w) (hone : OneTree C.root.path files)
    (hdual : ∀ p file text, Dual C.root.path files w p file text → ¬ Opposite C p file) :
    reconcileTrees C e = e := by
  have hb : IsTreeRoot C.root C.root.path := .inl rfl
  refine foldl_reconcilePair fun a ha z hz hstem => ?_
  obtain ⟨hain, haact, hae⟩ := mem_active.mp ha
  obtain ⟨hzin, hzarch, hze⟩ := mem_archived.mp hz
  have hne : z ≠ a := by
    rintro rfl
    rw [haact] at hzarch
    cases hzarch
  have hopp : Opposite C z a := by
    rw [Opposite, haact, hzarch]
    decide
  by_cases hwa : ∃ text, w = some (a, text)
  · obtain ⟨text, hw⟩ := hwa
    have hother : ∀ file new, w = some (file, new) → z ≠ file := by
      rintro file new hwf rfl
      rw [hw, Option.some.injEq, Prod.mk.injEq] at hwf
      exact hne hwf.1.symm
    rw [hc.other hb hzin hother] at hze
    exact hdual z a text ⟨hw, hain, hzin, hze, hstem, hne⟩ hopp
  · have hotherA : ∀ file new, w = some (file, new) → a ≠ file := by
      rintro file new hwf rfl
      exact hwa ⟨new, hwf⟩
    rw [hc.other hb hain hotherA] at hae
    by_cases hwz : ∃ text, w = some (z, text)
    · obtain ⟨text, hw⟩ := hwz
      exact hdual a z text ⟨hw, hzin, hain, hae, hstem.symm, hne.symm⟩ hopp.symm
    · have hotherZ : ∀ file new, w = some (file, new) → z ≠ file := by
        rintro file new hwf rfl
        exact hwz ⟨new, hwf⟩
      rw [hc.other hb hzin hotherZ] at hze
      exact hne (hone z a hzin hain hze hae hstem)

/-- A file of the tree after the crash was there before, or is the one written. -/
theorem Crashed.before (hc : Crashed C files e w) {base g file : Path} {text : FileText}
    (hw : w = some (file, text)) (hb : IsTreeRoot C.root base) (hg : InTree base g)
    (he : (e.get g).isSome) (hne : g ≠ file) : (files.get g).isSome := by
  rw [hc.other hb hg] at he
  · exact he
  · intro file' text' hw'
    rw [hw, Option.some.injEq, Prod.mk.injEq] at hw'
    rw [← hw'.1]
    exact hne

theorem Crashed.of_dual (hc : Crashed C files e w) {base p file : Path} {text : FileText}
    (hb : IsTreeRoot C.root base) (hd : Dual base files w p file text) :
    e.get p = files.get p ∧ e.get file = some text := by
  obtain ⟨hw, hfile, hp, -, -, hne⟩ := hd
  refine ⟨hc.other hb hp ?_, hc.self hb hfile hw⟩
  intro file' text' hw'
  rw [hw, Option.some.injEq, Prod.mk.injEq] at hw'
  rw [← hw'.1]
  exact hne

/-- One id in two files of the legacy tree is the only one. -/
theorem Crashed.only_pair (hc : Crashed C files e w) (hone : OneTree C.root.path files)
    {p file : Path} {text : FileText} (hd : Dual C.root.path files w p file text) {g g' : Path}
    (hg : InTree C.root.path g) (hg' : InTree C.root.path g') (he : (e.get g).isSome)
    (he' : (e.get g').isSome) (hstem : stem g' = stem g) (hne : g' ≠ g) :
    (g = p ∧ g' = file) ∨ (g = file ∧ g' = p) := by
  have hb : IsTreeRoot C.root C.root.path := .inl rfl
  obtain ⟨hw, hfile, hp, hpsome, hpstem, hpne⟩ := hd
  by_cases hgf : g = file
  · subst hgf
    have hold := hc.before hw hb hg' he' hne
    exact .inr ⟨rfl, hone g' p hg' hp hold hpsome (hstem.trans hpstem.symm)⟩
  · have hold := hc.before hw hb hg he hgf
    by_cases hgf' : g' = file
    · subst hgf'
      exact .inl ⟨hone g p hg hp hold hpsome (hstem.symm.trans hpstem.symm), rfl⟩
    · have hold' := hc.before hw hb hg' he' hgf'
      exact absurd (hone g' g hg' hg hold' hold hstem) hne

/-- The pass removes one of two copies in opposite halves, unless neither can be read. -/
theorem Crashed.pair (hc : Crashed C files e w) (hone : OneTree C.root.path files) {p file : Path}
    {text : FileText} (hd : Dual C.root.path files w p file text) (hopp : Opposite C p file) :
    ∃ d, (d = p ∨ d = file) ∧ reconcileTrees C e =
      if (readFile C files p).isNone && (parse C.host file text).isNone then e else e.delete d := by
  have hb : IsTreeRoot C.root C.root.path := .inl rfl
  obtain ⟨hep, hefile⟩ := hc.of_dual hb hd
  have hread : readFile C e p = readFile C files p := by rw [readFile, hep, readFile]
  have hreadf : readFile C e file = parse C.host file text := by
    rw [readFile, hefile, Option.bind_some]
  have hpsome : (e.get p).isSome := by rw [hep]; exact hd.2.2.2.1
  have hfsome : (e.get file).isSome := by rw [hefile]; rfl
  -- what an active and an archived file of one id can be
  have honly : ∀ a ∈ walk (activeDirs C) e, ∀ z ∈ walk (archivedDirs C) e, stem z = stem a →
      (a = p ∧ z = file) ∨ (a = file ∧ z = p) := by
    intro a ha z hz hstem
    obtain ⟨hain, haact, hae⟩ := mem_active.mp ha
    obtain ⟨hzin, hzarch, hze⟩ := mem_archived.mp hz
    refine hc.only_pair hone hd hain hzin hae hze hstem ?_
    rintro rfl
    rw [haact] at hzarch
    cases hzarch
  unfold Opposite at hopp
  cases hparch : below (C.root.path ++ ["archived"]) p with
  | false =>
    have hfarch : below (C.root.path ++ ["archived"]) file = true := by
      rw [hparch] at hopp
      simpa using hopp.symm
    have hpair := reconcileTrees_pair (mem_active.mpr ⟨hd.2.2.1, hparch, hpsome⟩)
      (mem_archived.mpr ⟨hd.2.1, hfarch, hfsome⟩) hd.2.2.2.2.1.symm fun a ha z hz hstem => by
        rcases honly a ha z hz hstem with h | ⟨rfl, -⟩
        · exact h
        · rw [(mem_active.mp ha).2.1] at hfarch
          cases hfarch
    rw [hread, hreadf] at hpair
    refine ⟨_, ?_, hpair⟩
    split
    · exact .inl rfl
    · exact .inr rfl
  | true =>
    have hfarch : below (C.root.path ++ ["archived"]) file = false := by
      rw [hparch] at hopp
      simpa using hopp.symm
    have hpair := reconcileTrees_pair (mem_active.mpr ⟨hd.2.1, hfarch, hfsome⟩)
      (mem_archived.mpr ⟨hd.2.2.1, hparch, hpsome⟩) hd.2.2.2.2.1 fun a ha z hz hstem => by
        rcases honly a ha z hz hstem with ⟨rfl, -⟩ | h
        · rw [(mem_active.mp ha).2.1] at hparch
          cases hparch
        · exact h
    rw [hread, hreadf, Bool.and_comm] at hpair
    refine ⟨_, ?_, hpair⟩
    split
    · exact .inr rfl
    · exact .inl rfl

/-- The pass touches no tenant's tree. -/
theorem get_reconcileTrees_tenant {key : String} {g : Path}
    (hg : InTree (C.root.path ++ ["tenants", key]) g) :
    (reconcileTrees C e).get g = e.get g := by
  have hgroot := not_inTree_root hg
  have hfold : ∀ (l : List Path) (files : Files), (∀ a ∈ l, g ≠ a) →
      (∀ z ∈ walk (archivedDirs C) e, g ≠ z) →
      (l.foldl (reconcilePair C (walk (archivedDirs C) e)) files).get g = files.get g := by
    intro l
    induction l with
    | nil => intro files _ _; rfl
    | cons a l ih =>
      intro files hl hz
      rw [List.foldl_cons, ih _ (fun b hb => hl b (List.mem_cons_of_mem _ hb)) hz, reconcilePair]
      split
      · rfl
      · rename_i twin htwin
        have htwin := List.mem_of_getLast? htwin
        simp only
        split
        · rfl
        · split
          · exact get_delete_ne (hl a (List.mem_cons_self ..))
          · exact get_delete_ne (hz twin (List.mem_filter.mp htwin).1)
  refine hfold _ _ (fun a ha => ?_) fun z hz => ?_
  · rintro rfl
    exact hgroot (mem_active.mp ha).1
  · rintro rfl
    exact hgroot (mem_archived.mp hz).1

theorem heldOnce_congr {base : Path} {e' : Files} {id : String} {text : FileText}
    (h : ∀ g, InTree base g → stem g = id → e'.get g = e.get g)
    (hheld : HeldOnce base e id text) : HeldOnce base e' id text := by
  obtain ⟨g, hg, hstem, hget, huniq⟩ := hheld
  refine ⟨g, hg, hstem, (h g hg hstem).trans hget, fun g' hg' hstem' he => ?_⟩
  rw [h g' hg' hstem'] at he
  exact huniq g' hg' hstem' he

/-- With one of the two copies removed, the other is the one file of the id. -/
theorem Crashed.held_delete (hc : Crashed C files e w) (hone : OneTree C.root.path files)
    {p file : Path} {new : FileText} (hd : Dual C.root.path files w p file new) {d : Path}
    (hdel : d = p ∨ d = file) {f : Path} {text : FileText} (hf : InTree C.root.path f)
    (hget : files.get f = some text) :
    HeldOnce C.root.path (e.delete d) (stem f) text ∨
      ∃ file new, w = some (file, new) ∧ stem file = stem f ∧
        HeldOnce C.root.path (e.delete d) (stem f) new := by
  have hb : IsTreeRoot C.root C.root.path := .inl rfl
  obtain ⟨hep, hefile⟩ := hc.of_dual hb hd
  obtain ⟨hw, hfile, hp, hpsome, hpstem, hpne⟩ := hd
  have hsome : (files.get f).isSome := by rw [hget]; rfl
  have honly : ∀ g, InTree C.root.path g → stem g = stem p → (e.get g).isSome →
      g = p ∨ g = file := by
    intro g hg hstem he
    by_cases hgf : g = file
    · exact .inr hgf
    · exact .inl (hone g p hg hp (hc.before hw hb hg he hgf) hpsome hstem)
  by_cases hstem : stem f = stem p
  · have hfp : f = p := hone f p hf hp hsome hpsome hstem
    subst hfp
    rcases hdel with rfl | rfl
    · refine .inr ⟨file, new, hw, hpstem.symm, file, hfile, hpstem.symm, ?_, ?_⟩
      · rw [get_delete_ne hpne.symm]
        exact hefile
      · intro g hg hgstem he
        rw [OrdMap.get_delete] at he
        split at he
        · cases he
        · rename_i hgd
          exact (honly g hg hgstem he).resolve_left hgd
    · refine .inl ⟨f, hf, rfl, ?_, ?_⟩
      · rw [get_delete_ne hpne]
        exact hep.trans hget
      · intro g hg hgstem he
        rw [OrdMap.get_delete] at he
        split at he
        · cases he
        · rename_i hgd
          exact (honly g hg hgstem he).resolve_right hgd
  · -- another id: neither copy is its file
    have hdstem : stem d = stem p := by
      rcases hdel with rfl | rfl
      · rfl
      · exact hpstem.symm
    have hne : ∀ g, stem g = stem f → g ≠ d := by
      rintro g hg rfl
      exact hstem (hg.symm.trans hdstem)
    have hother : ∀ g, InTree C.root.path g → stem g = stem f → e.get g = files.get g := by
      intro g hg hgstem
      refine hc.other hb hg fun file' new' hw' => ?_
      rw [hw, Option.some.injEq, Prod.mk.injEq] at hw'
      rw [← hw'.1]
      rintro rfl
      exact hstem (hgstem.symm.trans hpstem.symm)
    refine .inl ⟨f, hf, rfl, ?_, ?_⟩
    · rw [get_delete_ne (hne f rfl), hother f hf rfl, hget]
    · intro g hg hgstem he
      rw [get_delete_ne (hne g hgstem), hother g hg hgstem] at he
      exact hone g f hg hf he hsome hgstem

/-- Two copies that the pass leaves both are not restored. -/
theorem not_held_of_both {base after p file : _} {id : String} {text : FileText}
    (hp : InTree base p) (hfile : InTree base file) (hpid : stem p = id) (hfid : stem file = id)
    (hne : p ≠ file) (hps : ((after : Files).get p).isSome) (hfs : (after.get file).isSome) :
    ¬ HeldOnce base after id text := by
  rintro ⟨g, -, -, -, huniq⟩
  exact hne ((huniq p hp hpid hps).trans (huniq file hfile hfid hfs).symm)

end Restore

/-- A crash inside any call leaves, after recovery, every id that was in a tree in exactly one file of
    it, with its old text or the written one, exactly when what was written by then lies where the id
    was, or in the other half of the legacy tree with one of the two copies readable. -/
theorem restored_iff (C : Config) (now : ℤ) (tags : ℕ → String) (files : Files)
    (tenant : Option TenantFilter) (op : Operation) (aged : Path → Bool) (k : ℕ)
    (hone : ∀ base, IsTreeRoot C.root base → OneTree base files)
    (hk : k < ((planOf C now tags files tenant op).steps (tags 0)).length) :
    Restored C files (planOf C now tags files tenant op)
        (recover C aged ⟨crash tags files (planOf C now tags files tenant op) k, none⟩).files ↔
      Recoverable C files (written (planOf C now tags files tenant op) k) := by
  have hoff : ∀ s ∈ (planOf C now tags files tenant op).history, OffTree C.root s := offTree_planOf
  generalize planOf C now tags files tenant op = plan at hoff hk ⊢
  have hroot : IsTreeRoot C.root C.root.path := .inl rfl
  have hc : Crashed C files (sweep C aged (crash tags files plan k)) (written plan k) := by
    constructor
    · intro base file text hb hin hw
      rw [get_sweep hin, get_crash hoff hk hb hin, hw]
      exact if_pos rfl
    · intro base g hb hin hw
      rw [get_sweep hin, get_crash hoff hk hb hin]
      split
      · rename_i file text hw'
        exact if_neg (hw file text hw')
      · rfl
  have hwrite : ∀ {v}, written plan k = some v → plan.write = some v := by
    intro v hw
    unfold written at hw
    split at hw
    · exact hw
    · cases hw
  change Restored C files plan (reconcileTrees C (sweep C aged (crash tags files plan k))) ↔ _
  generalize sweep C aged (crash tags files plan k) = e at hc ⊢
  generalize written plan k = w at hc hwrite ⊢
  constructor
  · intro hres file text hw base hb hin f hf hfs hstem
    by_contra hnot
    rw [not_or] at hnot
    obtain ⟨hne, hbad⟩ := hnot
    have hd : Dual base files w f file text := ⟨hw, hin, hf, hfs, hstem, hne⟩
    obtain ⟨hef, hefile⟩ := hc.of_dual hb hd
    have hboth : ((reconcileTrees C e).get f).isSome ∧ ((reconcileTrees C e).get file).isSome := by
      have hsame : (reconcileTrees C e).get f = e.get f ∧
          (reconcileTrees C e).get file = e.get file := by
        rcases hb with rfl | ⟨key, rfl⟩
        · have hself : reconcileTrees C e = e := by
            by_cases hopp : Opposite C f file
            · obtain ⟨d, -, hpair⟩ := hc.pair (hone _ hroot) hd hopp
              rw [hpair]
              refine if_pos ?_
              have hunread : ¬ ((readFile C files f).isSome ∨ (parse C.host file text).isSome) :=
                fun h => hbad ⟨rfl, hopp, h⟩
              rw [not_or, Option.not_isSome_iff_eq_none, Option.not_isSome_iff_eq_none] at hunread
              rw [hunread.1, hunread.2]
              rfl
            · refine hc.no_pair (hone _ hroot) fun p file' text' hd' => ?_
              obtain ⟨hw', -, hp, hps, hpstem, -⟩ := hd'
              rw [hw, Option.some.injEq, Prod.mk.injEq] at hw'
              obtain ⟨rfl, rfl⟩ := hw'
              rw [hone _ hroot p f hp hf hps hfs (hpstem.trans hstem.symm)]
              exact hopp
          rw [hself]
          exact ⟨rfl, rfl⟩
        · exact ⟨get_reconcileTrees_tenant hf, get_reconcileTrees_tenant hin⟩
      rw [hsame.1, hsame.2, hef, hefile]
      exact ⟨hfs, rfl⟩
    obtain ⟨old, hold⟩ := Option.isSome_iff_exists.mp hfs
    rcases hres base hb f old hf hold with hheld | ⟨file', new, -, -, hheld⟩
    · exact not_held_of_both hf hin rfl hstem.symm hne hboth.1 hboth.2 hheld
    · exact not_held_of_both hf hin rfl hstem.symm hne hboth.1 hboth.2 hheld
  · intro hrec base hb f text hf hget
    have hfin : HeldOnce base (reconcileTrees C e) (stem f) text ∨ ∃ file new, w = some (file, new) ∧
        stem file = stem f ∧ HeldOnce base (reconcileTrees C e) (stem f) new := by
      rcases hb with rfl | ⟨key, rfl⟩
      · by_cases hdual : ∃ p file new, Dual C.root.path files w p file new
        · obtain ⟨p, file, new, hd⟩ := hdual
          obtain ⟨hw, hfile, hp, hps, hpstem, hne⟩ := id hd
          rcases hrec file new hw _ hroot hfile p hp hps hpstem with heq | ⟨-, hopp, hread⟩
          · exact absurd heq hne
          · obtain ⟨d, hdel, hpair⟩ := hc.pair (hone _ hroot) hd hopp
            have hsome : ¬ ((readFile C files p).isNone && (parse C.host file new).isNone) = true := by
              rw [Bool.and_eq_true, Option.isNone_iff_eq_none, Option.isNone_iff_eq_none]
              rintro ⟨hp', hfile'⟩
              rw [hp', hfile'] at hread
              simp at hread
            rw [hpair, if_neg hsome]
            exact hc.held_delete (hone _ hroot) hd hdel hf hget
        · have hnone : ∀ p file new, ¬ Dual C.root.path files w p file new :=
            fun p file new hd => hdual ⟨p, file, new, hd⟩
          rw [hc.no_pair (hone _ hroot) fun p file new hd => absurd hd (hnone p file new)]
          exact hc.held hroot (hone _ hroot) hnone hf hget
      · have hb : IsTreeRoot C.root (C.root.path ++ ["tenants", key]) := .inr ⟨key, rfl⟩
        have hnone : ∀ p file new, ¬ Dual (C.root.path ++ ["tenants", key]) files w p file new := by
          rintro p file new ⟨hw, hfile, hp, hps, hpstem, hne⟩
          rcases hrec file new hw _ hb hfile p hp hps hpstem with heq | ⟨hbase, -, -⟩
          · exact hne heq
          · simp at hbase
        have hsame : ∀ g, InTree (C.root.path ++ ["tenants", key]) g → stem g = stem f →
            (reconcileTrees C e).get g = e.get g := fun g hg _ => get_reconcileTrees_tenant hg
        rcases hc.held hb (hone _ hb) hnone hf hget with hheld | ⟨file, new, hw, hstem, hheld⟩
        · exact .inl (heldOnce_congr hsame hheld)
        · exact .inr ⟨file, new, hw, hstem, heldOnce_congr hsame hheld⟩
    rcases hfin with hheld | ⟨file, new, hw, hstem, hheld⟩
    · exact .inl hheld
    · exact .inr ⟨file, new, hwrite hw, hstem, hheld⟩

/-! ### Two crashes -/

/-- A store with its root below the data directory. -/
def dataStore : Config := { host := newYear, root := dataRoot }

def noteId : String := genId 0 fun _ => 0

def note : Memory := storeRecord newYear none 1767225600000 noteId preference none none

def noteFile : Path := ["data", ".remembra", "global", "00000000-0000-7000-8000-000000000000.md"]

def archivedFile : Path :=
  ["data", ".remembra", "archived", "global", "00000000-0000-7000-8000-000000000000.md"]

def scopedFile : Path :=
  ["data", ".remembra", "scopes", "repo_a", "00000000-0000-7000-8000-000000000000.md"]

/-- The tree with this one record. -/
def oneNote : Files := OrdMap.empty.set noteFile (render newYear note)

theorem get_oneNote {g : Path} (h : (oneNote.get g).isSome) : g = noteFile := by
  by_contra hne
  rw [oneNote, OrdMap.get_set_ne _ hne, OrdMap.get_empty] at h
  cases h

theorem oneTree_oneNote (base : Path) : OneTree base oneNote := by
  intro f g _ _ hf hg _
  rw [get_oneNote hf, get_oneNote hg]

/-- An archive that crashes before its unlink is finished by the recovery pass. -/
theorem restored_iff_archive :
    Restored dataStore oneNote
      (planOf dataStore 1767225600000 (fun _ => "t") oneNote none (.archive noteId))
      (recover dataStore (fun _ => false) ⟨crash (fun _ => "t") oneNote
        (planOf dataStore 1767225600000 (fun _ => "t") oneNote none (.archive noteId)) 3,
        none⟩).files := by
  refine (restored_iff dataStore 1767225600000 (fun _ => "t") oneNote none (.archive noteId)
    (fun _ => false) 3 (fun base _ => oneTree_oneNote base) (by decide +kernel)).mpr ?_
  have hfile : (written (planOf dataStore 1767225600000 (fun _ => "t") oneNote none
      (.archive noteId)) 3).map Prod.fst = some archivedFile := by decide +kernel
  intro file text hw base hb hin f hf hfs hstem
  rw [hw, Option.map_some, Option.some.injEq] at hfile
  obtain rfl := get_oneNote hfs
  dsimp only at hfile
  subst hfile
  refine .inr ⟨?_, by unfold Opposite; decide +kernel, .inl (by decide +kernel)⟩
  rcases hb with rfl | ⟨key, rfl⟩
  · rfl
  · have hroot : InTree dataStore.root.path archivedFile :=
      ⟨by decide, _, List.mem_cons_of_mem _ (List.mem_cons_of_mem _ (List.mem_cons_self ..)),
        by decide⟩
    exact absurd hroot (not_inTree_root hin)

/-- An update that takes the record to another scope and crashes before its unlink leaves the id in
    both files: they are active files both, and the pass compares active files with archived ones. -/
theorem scope_move_stays_in_two_files :
    ¬ ∀ (C : Config) (now : ℤ) (tags : ℕ → String) (files : Files) (tenant : Option TenantFilter)
      (op : Operation) (aged : Path → Bool) (k : ℕ),
      (∀ base, IsTreeRoot C.root base → OneTree base files) →
      k < ((planOf C now tags files tenant op).steps (tags 0)).length →
      Restored C files (planOf C now tags files tenant op)
        (recover C aged ⟨crash tags files (planOf C now tags files tenant op) k, none⟩).files := by
  intro hall
  have hres := hall dataStore 1767225600000 (fun _ => "t") oneNote none
    (.update { note with scope := "repo:a" } {}) (fun _ => false) 3
    (fun base _ => oneTree_oneNote base) (by decide +kernel)
  have hnote : InTree dataStore.root.path noteFile :=
    ⟨by decide, _, List.mem_cons_self .., by decide⟩
  have hscoped : InTree dataStore.root.path scopedFile :=
    ⟨by decide, _, List.mem_cons_of_mem _ (List.mem_cons_self ..), by decide⟩
  have hget : oneNote.get noteFile = some (render newYear note) := OrdMap.get_set_self ..
  rcases hres _ (.inl rfl) noteFile _ hnote hget with hheld | ⟨file, new, -, -, hheld⟩
  · exact not_held_of_both hnote hscoped rfl rfl (by decide) (by decide +kernel) (by decide +kernel)
      hheld
  · exact not_held_of_both hnote hscoped rfl rfl (by decide) (by decide +kernel) (by decide +kernel)
      hheld

end Remembra.Store
