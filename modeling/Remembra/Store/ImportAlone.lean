import Remembra.Store.Import
import Remembra.Store.Sound

/-! An import that nobody disturbs and that no failure meets. It runs to its end (`importBatch`), and of
    records that belong to the tenant, have a legal place and different ids it adds exactly those whose
    id names no file of the tree yet, whatever is in the files that are there. -/

namespace Remembra.Store.Import

section Alone
variable (C : Config) (tenant : Option TenantFilter) (tag : String)

/-- As many steps of the importing process as it takes, up to a bound. -/
def settle : ℕ → State → State
  | 0, s => s
  | n + 1, s =>
    match s.advance C tenant tag with
    | none => s
    | some t => settle n t

/-- More steps than an import of `n` memories can take. -/
def enoughSteps (n : ℕ) : ℕ := 7 * n + 4

/-- `importBatch`: how many memories were imported and how many skipped, and the files after it. -/
def importBatch (files : Files) (memories : List Memory) :
    Except RemembraError (ℕ × ℕ) × Files :=
  let s := settle C tenant tag (enoughSteps memories.length) (start files memories)
  match s.pc with
  | .succeeded imported skipped => (.ok (imported, skipped), s.disk.files)
  | .failed e => (.error e, s.disk.files)
  | _ => (.error noSuchFile, s.disk.files)

/-- A record that belongs to the tenant and has a legal place in its tree. -/
structure Ready (m : Memory) : Prop where
  legacy : tenant = none → truthy m.tenantId = none
  belongs : matchesTenant m tenant = true
  scope : isSafeScope m.scope = true
  id : isIdShape m.id = true

/-- The records whose id names no file of the tree. -/
def fresh (files : Files) (memories : List Memory) : List Memory :=
  memories.filter fun m => (findFile C files m.id tenant).isNone

variable {C tenant tag} {files : Files} {s t : State} {m : Memory}

/-! ### Where a record goes -/

theorem findFile_isSome {id : String} : (findFile C files id tenant).isSome = true ↔
    ∃ f, InTree (treeRoot C.root tenant) f ∧ (files.get f).isSome = true ∧ stem f = id := by
  rw [findFile, List.find?_isSome]
  constructor
  · rintro ⟨f, hf, hstem⟩
    obtain ⟨hin, hsome⟩ := mem_walk_tree.mp hf
    exact ⟨f, hin, hsome, of_decide_eq_true hstem⟩
  · rintro ⟨f, hin, hsome, hstem⟩
    exact ⟨f, mem_walk_tree.mpr ⟨hin, hsome⟩, decide_eq_true hstem⟩

theorem Ready.base (hm : Ready tenant m) : baseRoot C.root m = .ok (treeRoot C.root tenant) := by
  refine baseRoot_of_tenant C.root ?_
  cases tenant with
  | none => exact hm.legacy rfl
  | some t =>
    have hbelongs := hm.belongs
    simp only [matchesTenant, Option.all_some, memoryBelongsToTenant, Bool.and_eq_true,
      decide_eq_true_iff] at hbelongs
    have hmap : truthy ((some t.organizationId).map fun t => t.1) = some t.organizationId.1 :=
      truthy_map_tenantId (some t.organizationId)
    rw [hbelongs.1]
    exact hmap

/-- A ready record has its file in the tree, named after it. -/
theorem Ready.file (hm : Ready tenant m) : ∃ f, fileFor C.root m = .ok f ∧
    InTree (treeRoot C.root tenant) f ∧ stem f = m.id :=
  fileFor_placed hm.base hm.scope hm.id

/-! ### The steps, one after the other -/

theorem settle_advance (h : s.advance C tenant tag = some t) (n : ℕ) :
    settle C tenant tag (n + 1) s = settle C tenant tag n t := by
  rw [settle, h]

/-- The planned files are in the tree and named after their memories. -/
def Placed (C : Config) (tenant : Option TenantFilter) (planned : List (Memory × Path)) : Prop :=
  ∀ p ∈ planned, InTree (treeRoot C.root tenant) p.2 ∧ stem p.2 = p.1.id

/-- The planning of one ready memory: it is skipped when its id names a file. -/
theorem plan_ready (hm : Ready tenant m) (hplaced : Placed C tenant s.planned)
    (hnew : m.id ∉ s.planned.map (·.1.id)) (rest : List Memory) :
    ∃ f, InTree (treeRoot C.root tenant) f ∧ stem f = m.id ∧ s.plan C tenant m rest =
      if (findFile C s.disk.files m.id tenant).isSome then s.skip rest else s.add m f rest := by
  obtain ⟨f, hfile, hin, hstem⟩ := hm.file (C := C)
  refine ⟨f, hin, hstem, ?_⟩
  have hout : ((tenant.isNone && (truthy m.tenantId).isSome) || !matchesTenant m tenant) = false := by
    rw [hm.belongs, Bool.not_true, Bool.or_false]
    cases ht : tenant with
    | none => rw [hm.legacy ht]; rfl
    | some t => rfl
  have hpath : f ∉ s.paths := by
    intro hmem
    obtain ⟨p, hp, rfl⟩ := List.mem_map.mp hmem
    exact hnew (List.mem_map.mpr ⟨p, hp, (hplaced p hp).2.symm.trans hstem⟩)
  simp only [State.plan, hout, Bool.false_eq_true, if_false, hnew, false_or, hfile, hpath]

variable (tag) in
/-- The planning of ready memories with different ids. -/
theorem settle_plan {memories : List Memory} (hpc : s.pc = .planning memories)
    (hready : ∀ m ∈ memories, Ready tenant m)
    (hnodup : (s.planned.map (·.1.id) ++ memories.map (·.id)).Nodup) (hplaced : Placed C tenant s.planned)
    (n : ℕ) : ∃ t, settle C tenant tag (n + memories.length) s = settle C tenant tag n t ∧
      t.pc = .planning [] ∧ t.disk = s.disk ∧ Placed C tenant t.planned ∧
      t.planned.map Prod.fst = s.planned.map Prod.fst ++ fresh C tenant s.disk.files memories ∧
      t.skipped + t.planned.length = s.skipped + s.planned.length + memories.length := by
  induction memories generalizing s with
  | nil => exact ⟨s, rfl, hpc, rfl, hplaced, by simp [fresh], rfl⟩
  | cons m rest ih =>
    have hm := hready m List.mem_cons_self
    have hrest : ∀ m ∈ rest, Ready tenant m := fun m hmem => hready m (List.mem_cons_of_mem _ hmem)
    have hnew : m.id ∉ s.planned.map (·.1.id) := by
      intro hmem
      exact List.disjoint_of_nodup_append hnodup hmem (by simp)
    obtain ⟨f, hin, hstem, hplan⟩ := plan_ready hm hplaced hnew rest
    have hadvance : s.advance C tenant tag = some (s.plan C tenant m rest) := by
      simp only [State.advance, hpc]
    rw [hplan] at hadvance
    rw [List.length_cons, ← Nat.add_assoc, settle_advance hadvance]
    cases hfound : (findFile C s.disk.files m.id tenant).isSome with
    | true =>
      have hnodup' : ((s.skip rest).planned.map (·.1.id) ++ rest.map (·.id)).Nodup :=
        hnodup.sublist (List.Sublist.append (List.Sublist.refl _) (List.sublist_cons_self ..))
      obtain ⟨t, hsettle, htpc, hdisk, htplaced, hplanned, hcount⟩ :=
        ih (s := s.skip rest) rfl hrest hnodup' hplaced
      refine ⟨t, hsettle, htpc, hdisk, htplaced, ?_, ?_⟩
      · rw [hplanned]
        simp [fresh, State.skip, hfound, ← Option.not_isSome]
      · simp only [State.skip] at hcount
        omega
    | false =>
      have hplaced' : Placed C tenant (s.add m f rest).planned := by
        intro p hp
        rcases List.mem_append.mp hp with hp | hp
        · exact hplaced p hp
        · rw [List.mem_singleton.mp hp]
          exact ⟨hin, hstem⟩
      have hnodup' : ((s.add m f rest).planned.map (·.1.id) ++ rest.map (·.id)).Nodup := by
        simpa [State.add] using hnodup
      obtain ⟨t, hsettle, htpc, hdisk, htplaced, hplanned, hcount⟩ :=
        ih (s := s.add m f rest) rfl hrest hnodup' hplaced'
      refine ⟨t, hsettle, htpc, hdisk, htplaced, ?_, ?_⟩
      · rw [hplanned]
        simp [fresh, State.add, hfound, ← Option.not_isSome]
      · simp only [State.add, List.length_append, List.length_singleton] at hcount
        omega

variable (tag) in
/-- The publication of one memory whose id names no file. -/
theorem settle_publish_one {f : Path} {todo : List (Memory × Path)}
    (hpc : s.pc = .publishing ((m, f) :: todo) .recheck)
    (hfree : (findFile C s.disk.files m.id tenant).isSome = false) (n : ℕ) :
    settle C tenant tag (n + 5) s = settle C tenant tag n { s with
      disk := { s.disk with files := applySteps s.disk.files (writeAtomic f (render C.host m) tag) }
      pc := .publishing todo .recheck } := by
  have hrecheck : s.advance C tenant tag = some { s with pc := .publishing ((m, f) :: todo) .create } := by
    simp [State.advance, hpc, hfree]
  rw [settle_advance hrecheck]
  rfl

/-- What an atomic write adds to a tree. -/
theorem isSome_writeAtomic {base f g : Path} {text : FileText} (hg : InTree base g) :
    ((applySteps files (writeAtomic f text tag)).get g).isSome = true ↔
      (files.get g).isSome = true ∨ g = f := by
  rw [get_writeAtomic hg]
  by_cases h : g = f <;> simp [h]

variable (tag) in
/-- The publication of memories whose ids name no files and differ. -/
theorem settle_publish {todo : List (Memory × Path)} (hpc : s.pc = .publishing todo .recheck)
    (hplaced : Placed C tenant todo) (hnodup : (todo.map (·.1.id)).Nodup)
    (hfree : ∀ p ∈ todo, (findFile C s.disk.files p.1.id tenant).isSome = false) (n : ℕ) :
    ∃ t, settle C tenant tag (n + 5 * todo.length) s = settle C tenant tag n t ∧
      t.pc = .publishing [] .recheck ∧ t.planned = s.planned ∧ t.skipped = s.skipped ∧
      ∀ g, InTree (treeRoot C.root tenant) g → ((t.disk.files.get g).isSome = true ↔
        (s.disk.files.get g).isSome = true ∨ g ∈ todo.map Prod.snd) := by
  induction todo generalizing s with
  | nil => exact ⟨s, rfl, hpc, rfl, rfl, fun g _ => by simp⟩
  | cons p todo ih =>
    obtain ⟨m, f⟩ := p
    obtain ⟨hin, hstem⟩ := hplaced (m, f) List.mem_cons_self
    have hone := settle_publish_one tag hpc (hfree (m, f) List.mem_cons_self) (n + 5 * todo.length)
    rw [List.map_cons, List.nodup_cons] at hnodup
    obtain ⟨hother, hnodup⟩ := hnodup
    obtain ⟨t, hsettle, htpc, htplanned, htskipped, hfiles⟩ := ih (s := { s with
        disk := { s.disk with files := applySteps s.disk.files (writeAtomic f (render C.host m) tag) }
        pc := .publishing todo .recheck }) rfl (fun p hp => hplaced p (List.mem_cons_of_mem _ hp)) hnodup
      (by
        intro p hp
        rw [← Bool.not_eq_true, findFile_isSome]
        rintro ⟨g, hg, hsome, hgstem⟩
        rcases (isSome_writeAtomic hg).mp hsome with hsome | rfl
        · have hnone := hfree p (List.mem_cons_of_mem _ hp)
          rw [← Bool.not_eq_true] at hnone
          exact hnone (findFile_isSome.mpr ⟨g, hg, hsome, hgstem⟩)
        · exact hother (List.mem_map.mpr ⟨p, hp, (hstem.symm.trans hgstem).symm⟩))
    refine ⟨t, ?_, htpc, htplanned, htskipped, fun g hg => ?_⟩
    · rw [← hsettle, ← hone]
      rfl
    · rw [hfiles g hg, isSome_writeAtomic hg, List.map_cons, List.mem_cons, or_assoc]

theorem settle_done (h : s.advance C tenant tag = none) (n : ℕ) : settle C tenant tag n s = s := by
  cases n with
  | zero => rfl
  | succ n => rw [settle, h]

variable (tag) in
/-- What is left when everything is planned. -/
theorem settle_planned {n : ℕ} (hpc : s.pc = .planning []) (hplaced : Placed C tenant s.planned)
    (hnodup : (s.planned.map (·.1.id)).Nodup)
    (hfree : ∀ p ∈ s.planned, (findFile C s.disk.files p.1.id tenant).isSome = false)
    (hlen : s.planned.length ≤ n) :
    ∃ t, settle C tenant tag (6 * n + 4) s = t ∧ t.pc = .succeeded s.planned.length s.skipped ∧
      ∀ g, InTree (treeRoot C.root tenant) g → ((t.disk.files.get g).isSome = true ↔
        (s.disk.files.get g).isSome = true ∨ g ∈ s.planned.map Prod.snd) := by
  by_cases hnil : s.planned = []
  · have hadvance : s.advance C tenant tag = some { s with pc := .succeeded 0 s.skipped } := by
      simp [State.advance, hpc, hnil]
    refine ⟨{ s with pc := .succeeded 0 s.skipped }, ?_, ?_, ?_⟩
    · rw [settle_advance hadvance, settle_done rfl]
    · rw [hnil]
      rfl
    · simp [hnil]
  · have hadvance : s.advance C tenant tag = some { s with
        disk := { s.disk with journal := some s.paths }, pc := .publishing s.planned .recheck } := by
      simp [State.advance, hpc, hnil]
    obtain ⟨k, hk⟩ : ∃ k, 6 * n + 3 = k + 1 + 5 * s.planned.length :=
      ⟨6 * n + 2 - 5 * s.planned.length, by omega⟩
    obtain ⟨t, hsettle, htpc, htplanned, htskipped, hfiles⟩ := settle_publish tag (s := { s with
      disk := { s.disk with journal := some s.paths }, pc := .publishing s.planned .recheck })
      rfl hplaced hnodup hfree (k + 1)
    have hlast : t.advance C tenant tag = some { t with
        disk := { t.disk with journal := none }
        expected := addPlanned C t.expected t.planned
        pc := .succeeded t.planned.length t.skipped } := by
      simp [State.advance, htpc]
    refine ⟨{ t with
        disk := { t.disk with journal := none }
        expected := addPlanned C t.expected t.planned
        pc := .succeeded t.planned.length t.skipped }, ?_, ?_, ?_⟩
    · rw [settle_advance hadvance, hk, hsettle, settle_advance hlast, settle_done rfl]
    · rw [htplanned, htskipped]
    · exact hfiles

variable (C tag files) in
/-- An import that nobody disturbs adds the ready memories whose id names no file of the tree, and skips
    the others. -/
theorem importBatch_ready {memories : List Memory} (hready : ∀ m ∈ memories, Ready tenant m)
    (hnodup : (memories.map (·.id)).Nodup) : ∃ skipped files',
    importBatch C tenant tag files memories =
        (.ok ((fresh C tenant files memories).length, skipped), files') ∧
      (fresh C tenant files memories).length + skipped = memories.length ∧
      ∀ id, (findFile C files' id tenant).isSome = true ↔ (findFile C files id tenant).isSome = true ∨
        id ∈ (fresh C tenant files memories).map (·.id) := by
  obtain ⟨t, hsettle, htpc, hdisk, hplaced, hplanned, hcount⟩ :=
    settle_plan (C := C) tag (s := start files memories) rfl hready hnodup
      (fun _ hp => absurd hp List.not_mem_nil) (6 * memories.length + 4)
  have hfst : t.planned.map Prod.fst = fresh C tenant files memories := hplanned
  have hids : t.planned.map (·.1.id) = (fresh C tenant files memories).map (·.id) := by
    rw [← hfst, List.map_map]
    rfl
  have hlen : t.planned.length = (fresh C tenant files memories).length := by
    rw [← hfst, List.length_map]
  have hle : t.planned.length ≤ memories.length := hlen ▸ List.length_filter_le _ _
  have hfree : ∀ p ∈ t.planned, (findFile C t.disk.files p.1.id tenant).isSome = false := by
    intro p hp
    have hmem : p.1 ∈ fresh C tenant files memories := hfst ▸ List.mem_map_of_mem hp
    have hnone : (findFile C files p.1.id tenant).isNone = true := (List.mem_filter.mp hmem).2
    have hdiskFiles : t.disk.files = files := congrArg Disk.files hdisk
    rw [hdiskFiles]
    simpa using hnone
  have hdistinct : (t.planned.map (·.1.id)).Nodup := by
    rw [hids]
    exact hnodup.sublist (List.filter_sublist.map _)
  obtain ⟨u, hu, hupc, hfiles⟩ := settle_planned tag htpc hplaced hdistinct hfree hle
  have hrun : settle C tenant tag (enoughSteps memories.length) (start files memories) = u := by
    have hsteps : enoughSteps memories.length = 6 * memories.length + 4 + memories.length := by
      rw [enoughSteps]
      omega
    rw [hsteps, hsettle, hu]
  refine ⟨t.skipped, u.disk.files, ?_, ?_, fun id => ?_⟩
  · simp only [importBatch, hrun, hupc, hlen]
  · rw [← hlen, Nat.add_comm]
    simpa [start] using hcount
  · rw [← hids, findFile_isSome, findFile_isSome]
    constructor
    · rintro ⟨g, hg, hsome, hstem⟩
      rcases (hfiles g hg).mp hsome with hsome | hmem
      · rw [hdisk] at hsome
        exact .inl ⟨g, hg, hsome, hstem⟩
      · obtain ⟨p, hp, rfl⟩ := List.mem_map.mp hmem
        exact .inr (List.mem_map.mpr ⟨p, hp, (hplaced p hp).2.symm.trans hstem⟩)
    · rintro (⟨g, hg, hsome, hstem⟩ | hmem)
      · refine ⟨g, hg, (hfiles g hg).mpr (.inl ?_), hstem⟩
        rwa [hdisk]
      · obtain ⟨p, hp, rfl⟩ := List.mem_map.mp hmem
        obtain ⟨hin, hstem⟩ := hplaced p hp
        exact ⟨p.2, hin, (hfiles p.2 hin).mpr (.inr (List.mem_map_of_mem hp)), hstem⟩

end Alone
end Remembra.Store.Import
