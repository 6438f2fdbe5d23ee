import Remembra.Service.Holds

/-! The decay pass, next to other callers. Between its scans and the turns of the memories that they
    bring up it waits for its answers, and others may write: a turn looks at nothing but the id. So the
    pass does what it may and what it reports exactly as long as every memory stands as it was scanned,
    and as nothing else exempts a memory that is to be deleted (`decayLaws_iff`). -/

namespace Remembra.Service
open Store (Memory TenantFilter truthy)
open Sqlite (Row rowToMemory memoryOf tenantWhere selected)
open Sqlite.Serial (Tables Failure recordTenant)
open Prog

/-! ### Tables that others write to -/

/-- What the pass does to a memory, with the tables of the scan that brought it up and those right before
    and after. -/
structure Turn where
  deletes : Bool
  id : String
  scanned : Tables
  before : Tables
  after : Tables

/-- Each answer comes after what other callers have done to the tables in the meantime. The scans and the
    turns are recorded. -/
structure Shared where
  world : World
  meanwhile : List (Tables → Tables) := []
  scans : List Tables := []
  turns : List Turn := []

/-- The tables as the next answer finds them. -/
def Shared.found (s : Shared) : Tables := s.meanwhile.headD id s.world.tables

/-- The tables of the last scan. -/
def Shared.scanned (s : Shared) : Tables := s.scans.getLastD s.world.tables

/-- The scan that a question is. -/
def scanOf (tables : Tables) : Ask → List Tables
  | .all .. => [tables]
  | _ => []

/-- The turn that a question is. -/
def turnOf (scanned before after : Tables) : Ask → List Turn
  | .archive id _ => [⟨false, id, scanned, before, after⟩]
  | .forget id _ => [⟨true, id, scanned, before, after⟩]
  | _ => []

section Shared
variable (C : Config) (E : Environment)

def handleShared (q : Ask) (s : Shared) : q.Answer × Shared :=
  let r := handle C E q { s.world with tables := s.found }
  (r.1, {
    world := r.2
    meanwhile := s.meanwhile.tail
    scans := s.scans ++ scanOf s.found q
    turns := s.turns ++ turnOf s.scanned s.found r.2.tables q })

def runPass (options : Options) (s : Shared) : Except Thrown (List String × List String) × Shared :=
  (decayPass C options).exec (handleShared C E) s

end Shared

/-! ### What the pass may touch -/

section May
variable (C : Config) (options : Options) (now : ℤ) (m : Memory)

/-- The active memory may be archived. -/
structure Archivable : Prop where
  readable : canRead C.strict C.agentMode m options = .ok true
  standing : m.type ≠ .role ∧ m.type ≠ .instruction
  decaying : m.retention ≠ some .pinned ∧ m.retention ≠ some .neverExpire
  unused : ∃ t, C.host.dateParse (m.lastSeen.getD m.updatedAt) = some t ∧
    (t : ℚ) < now - C.archiveAfterDays * msPerDay

/-- The memory is archived and may be destroyed. -/
structure Destroyable : Prop where
  readable : canRead C.strict C.agentMode m options = .ok true
  past : ∃ archivedAt t, m.archivedAt = some archivedAt ∧ C.host.dateParse archivedAt = some t ∧
    (t : ℚ) < now - C.archiveTtlDays * msPerDay
  standing : m.type ≠ .role ∧ m.type ≠ .instruction
  expiring : m.retention ≠ some .persistent ∧ m.retention ≠ some .pinned ∧
    m.retention ≠ some .neverExpire
  unheld : m.legalHold ≠ some true

end May

/-- The state of the memory is another one after the turn. -/
def Turn.Changed (t : Turn) : Prop := t.after.memories.get t.id ≠ t.before.memories.get t.id

/-- Nobody has touched the memory between the scan and its turn. -/
def Turn.Undisturbed (t : Turn) : Prop := t.before.memories.get t.id = t.scanned.memories.get t.id

section Laws
variable (C : Config) (E : Environment) (options : Options)

/-- The caller gets its filter, and it may read. -/
structure Admits (s : Shared) (tenant : Option TenantFilter) (u : Shared) : Prop where
  filter : (freshTenantFilter C options .write none).exec (handleShared C E) s = (.ok tenant, u)
  reads : (tenantFilter C.strict options .read none).isOk = true

/-- The instant that the pass takes as now. -/
def Shared.now (u : Shared) : ℤ := E.clock u.world.asked

/-- The pass archives and destroys what it may and nothing else, leaves alone what was touched since its
    scan, and reports what it has done; a second pass at the same instant finds nothing to do. -/
structure DecayLaws (s : Shared) (tenant : Option TenantFilter) (now : ℤ) : Prop where
  reports : ∃ archived deleted, (runPass C E options s).1 = .ok (archived, deleted) ∧
    (∀ id, id ∈ archived ↔
      ∃ t ∈ (runPass C E options s).2.turns, t.deletes = false ∧ t.id = id ∧ t.Changed) ∧
    ∀ id, id ∈ deleted ↔
      ∃ t ∈ (runPass C E options s).2.turns, t.deletes = true ∧ t.id = id ∧ t.Changed
  archives : ∀ scan, (runPass C E options s).2.scans[0]? = some scan → ∀ id,
    (∃ t ∈ (runPass C E options s).2.turns, t.deletes = false ∧ t.id = id ∧ t.Changed) ↔
      (∃ m ∈ scan.all false tenant, m.id = id ∧ Archivable C options now m) ∧
        ∀ t ∈ (runPass C E options s).2.turns, t.deletes = false → t.id = id → t.Undisturbed
  destroys : ∀ scan, (runPass C E options s).2.scans[1]? = some scan → ∀ id,
    (∃ t ∈ (runPass C E options s).2.turns, t.deletes = true ∧ t.id = id ∧ t.Changed) ↔
      (∃ m ∈ scan.all true tenant, m.id = id ∧ Destroyable C options now m) ∧
        ∀ t ∈ (runPass C E options s).2.turns, t.deletes = true → t.id = id → t.Undisturbed
  again : s.meanwhile = [] → ∀ (E' : Environment) (w : World) (u : Shared),
    w.tables = (runPass C E options s).2.world.tables → Admits C E' options { world := w } tenant u →
      u.now E' = now →
      (runPass C E' options { world := w }).1 = .ok ([], []) ∧
        (runPass C E' options { world := w }).2.world.tables = w.tables

end Laws

/-- The memory stands as it was scanned; if it is to be deleted, it is no standing instruction, it is not
    on hold, and none of its audit rows lies outside the caller's slice. -/
structure Turn.Clear (tenant : Option TenantFilter) (t : Turn) : Prop where
  undisturbed : t.Undisturbed
  standing : t.deletes = true → ∀ row ∈ t.before.memories.get t.id,
    row.type ≠ .role ∧ row.type ≠ .instruction
  unheld : t.deletes = true → ∀ row ∈ t.before.memories.get t.id, row.legalHold = false
  audited : t.deletes = true → ∀ a ∈ t.before.audit, a.memoryId = t.id →
    a.tenant.within (tenant.map recordTenant) = true

/-! ### Turns -/

/-- A turn as the store has answered it. -/
def Turn.Ends (C : Config) (tenant : Option TenantFilter) (t : Turn) (ok : Bool) : Prop :=
  if t.deletes then
    ∃ now r, Tables.forget C.backend t.before now t.id tenant = (r, t.after) ∧ r.isOk = ok
  else ∃ now r, Tables.archive C.backend t.before now t.id tenant = (r, t.after) ∧ r.isOk = ok

section Turn
variable {C : Config} {tenant : Option TenantFilter} {t : Turn} {ok : Bool}

theorem ends_archive (hkind : t.deletes = false) (h : t.Ends C tenant ok) :
    ∃ now r, Tables.archive C.backend t.before now t.id tenant = (r, t.after) ∧ r.isOk = ok := by
  unfold Turn.Ends at h
  rw [hkind] at h
  simpa using h

theorem ends_forget (hkind : t.deletes = true) (h : t.Ends C tenant ok) :
    ∃ now r, Tables.forget C.backend t.before now t.id tenant = (r, t.after) ∧ r.isOk = ok := by
  unfold Turn.Ends at h
  rw [hkind] at h
  simpa using h

/-- An active memory that the caller sees is archived. -/
theorem changed_archive (hkind : t.deletes = false) (h : t.Ends C tenant ok) {row : Row}
    (hsel : selected t.before.memories t.id tenant = some row) (hactive : row.archivedAt = none) :
    t.Changed := by
  obtain ⟨now, r, hcall, -⟩ := ends_archive hkind h
  obtain ⟨-, ⟨hall, -, -⟩ | ⟨row', hsel', -, -, hrows, -⟩⟩ := Tables.archive_cases hcall
  · rw [hsel, Option.all_some, hactive] at hall
    simp at hall
  · obtain rfl : row = row' := Option.some.inj (hsel.symm.trans hsel')
    have hget : t.after.memories.get t.id =
        some (Sqlite.setArchived (Sqlite.Serial.stamp C.backend now) row) := by
      rw [hrows]
      exact (Sqlite.get_updateWhere_selected hsel _ _ _).trans (if_pos rfl)
    unfold Turn.Changed
    rw [hget, (Sqlite.Serial.selected_eq_some.mp hsel).1]
    intro heq
    have hstamped := congrArg Row.archivedAt (Option.some.inj heq)
    rw [hactive] at hstamped
    simp [Sqlite.setArchived] at hstamped

/-- What is active after it was active before, and is another memory. -/
theorem active_archive (hkind : t.deletes = false) (h : t.Ends C tenant ok) {k : String} {row : Row}
    (hsel : selected t.after.memories k tenant = some row) (hactive : row.archivedAt = none) :
    k ≠ t.id ∧ selected t.before.memories k tenant = some row := by
  obtain ⟨now, r, hcall, -⟩ := ends_archive hkind h
  obtain ⟨-, ⟨hall, -, hsame⟩ | ⟨row', hsel', -, -, hrows, -⟩⟩ := Tables.archive_cases hcall
  · rw [hsame] at hsel
    refine ⟨?_, hsel⟩
    rintro rfl
    rw [hsel, Option.all_some, hactive] at hall
    simp at hall
  · have hafter : t.after.memories.get k = if k = t.id then
        some (Sqlite.setArchived (Sqlite.Serial.stamp C.backend now) row') else t.before.memories.get k := by
      rw [hrows]
      exact Sqlite.get_updateWhere_selected hsel' _ _ k
    obtain ⟨hget, hsees⟩ := Sqlite.Serial.selected_eq_some.mp hsel
    rw [hafter] at hget
    split at hget
    · obtain rfl := Option.some.inj hget
      simp [Sqlite.setArchived] at hactive
    · rename_i hne
      exact ⟨hne, Sqlite.Serial.selected_eq_some.mpr ⟨hget, hsees⟩⟩

/-- A deletion of a memory that the caller sees fails exactly if one of its audit rows is out of reach. -/
theorem ok_forget (hkind : t.deletes = true) (h : t.Ends C tenant ok) {row : Row}
    (hsel : selected t.before.memories t.id tenant = some row) :
    (ok = true ↔ ∀ a ∈ t.before.audit, a.memoryId = t.id →
      a.tenant.within (tenant.map recordTenant) = true) ∧ (ok = true → t.Changed) := by
  obtain ⟨now, r, hcall, hok⟩ := ends_forget hkind h
  have hsees := (Sqlite.Serial.selected_eq_some.mp hsel).2
  obtain ⟨-, haudit, hcase⟩ := Tables.forget_selected hsel hcall
  have hleft : (∃ a ∈ t.after.audit, a.memoryId = t.id) ↔ ∃ a ∈ t.before.audit, a.memoryId = t.id ∧
      a.tenant.within (tenant.map recordTenant) = false := by
    rw [haudit]
    constructor
    · rintro ⟨a, ha, hid⟩
      obtain ⟨hmem, hkept⟩ := List.mem_filter.mp ha
      rw [hid, decide_eq_true rfl, Bool.true_and, Bool.not_eq_true'] at hkept
      rcases List.mem_append.mp hmem with hmem | hmem
      · exact ⟨a, hmem, hid, hkept⟩
      · -- The row that the deletion writes lies within the slice of whoever sees the memory.
        rw [List.mem_singleton.mp hmem] at hkept
        exact absurd ((Sqlite.Serial.within_rowOfForget hsees).symm.trans hkept) (by decide)
    · rintro ⟨a, ha, hid, hout⟩
      exact ⟨a, List.mem_filter.mpr ⟨List.mem_append_left _ ha, by simp [hout]⟩, hid⟩
  obtain ⟨hstuck, rfl, -, -⟩ | ⟨hgone, rfl, hrows, -⟩ := hcase
  · have hfalse : ok = false := hok.symm
    subst hfalse
    obtain ⟨a, ha, hid, hout⟩ := hleft.mp hstuck
    refine ⟨iff_of_false (by decide) fun hall => ?_, fun h => absurd h (by decide)⟩
    rw [hall a ha hid] at hout
    cases hout
  · have htrue : ok = true := hok.symm
    refine ⟨iff_of_true htrue fun a ha hid => ?_, fun _ => ?_⟩
    · by_contra hout
      obtain ⟨a', ha', hid'⟩ := hleft.mpr ⟨a, ha, hid, Bool.eq_false_of_not_eq_true hout⟩
      exact hgone a' ha' hid'
    · unfold Turn.Changed
      rw [hrows, Sqlite.get_deleteWhere_selected hsel, if_pos rfl,
        (Sqlite.Serial.selected_eq_some.mp hsel).1]
      simp

/-- What the caller sees after a deletion it saw before. -/
theorem seen_forget (hkind : t.deletes = true) (h : t.Ends C tenant true) {k : String} {row : Row}
    (hseen : selected t.after.memories k tenant = some row) :
    k ≠ t.id ∧ selected t.before.memories k tenant = some row := by
  obtain ⟨now, r, hcall, hok⟩ := ends_forget hkind h
  cases hsel : selected t.before.memories t.id tenant with
  | none =>
    simp only [Tables.forget, hsel, Prod.mk.injEq] at hcall
    obtain ⟨-, hsame⟩ := hcall
    rw [← hsame] at hseen
    refine ⟨?_, hseen⟩
    rintro rfl
    rw [hsel] at hseen
    cases hseen
  | some row' =>
    obtain ⟨-, -, ⟨-, rfl, -, -⟩ | ⟨-, -, hrows, -⟩⟩ := Tables.forget_selected hsel hcall
    · cases hok
    · obtain ⟨hget, hsees⟩ := Sqlite.Serial.selected_eq_some.mp hseen
      rw [hrows, Sqlite.get_deleteWhere_selected hsel] at hget
      split at hget
      · cases hget
      · rename_i hne
        exact ⟨hne, Sqlite.Serial.selected_eq_some.mpr ⟨hget, hsees⟩⟩

/-- A turn leaves the other memories. -/
theorem get_other (h : t.Ends C tenant ok) {k : String} (hk : k ≠ t.id) :
    t.after.memories.get k = t.before.memories.get k := by
  cases hkind : t.deletes with
  | true =>
    obtain ⟨now, r, hcall, -⟩ := ends_forget hkind h
    exact get_forget_ne hcall hk
  | false =>
    obtain ⟨now, r, hcall, -⟩ := ends_archive hkind h
    obtain ⟨-, ⟨-, -, hsame⟩ | ⟨row, hsel, -, -, hrows, -⟩⟩ := Tables.archive_cases hcall
    · rw [hsame]
    · rw [hrows]
      exact (Sqlite.get_updateWhere_selected hsel _ _ k).trans (if_neg hk)

/-- An archiving does not fail. -/
theorem ok_archive (hkind : t.deletes = false) (h : t.Ends C tenant ok) : ok = true := by
  obtain ⟨now, r, hcall, rfl⟩ := ends_archive hkind h
  obtain ⟨-, ⟨-, rfl, -⟩ | ⟨row, -, -, rfl, -⟩⟩ := Tables.archive_cases hcall <;> rfl

end Turn

/-! ### Loops over turns -/

/-- A round of the two loops. -/
def takeTurn (tenant : Option TenantFilter) (deletes : Bool) (m : Memory) : Act Unit :=
  if deletes then ignoring (Act.forget m.id tenant) else ignoring (Act.archive m.id tenant)

/-- Nothing comes between the turns. -/
def Linked (first : Tables) : List Turn → Tables → Prop
  | [], last => first = last
  | t :: turns, last => t.before = first ∧ Linked t.after turns last

/-- What a loop over the memories does: a turn for each, up to one that fails. -/
structure Swept (C : Config) (tenant : Option TenantFilter) (deletes : Bool) (memories : List Memory)
    (s u : Shared) (scan : Tables) (turns : List Turn) (done : Bool) : Prop where
  scans : u.scans = s.scans
  recorded : u.turns = s.turns ++ turns
  kind : ∀ t ∈ turns, t.deletes = deletes ∧ t.scanned = scan
  ends : ∀ t ∈ turns, ∃ ok, t.Ends C tenant ok
  order : (turns.map Turn.id).Sublist (memories.map Memory.id)
  finished : done = true → turns.map Turn.id = memories.map Memory.id ∧ ∀ t ∈ turns, t.Ends C tenant true
  stuck : done = false → ∃ t ∈ turns, t.Ends C tenant false
  alone : s.meanwhile = [] → u.meanwhile = [] ∧ Linked s.world.tables turns u.world.tables

section Loop
variable {C : Config} {E : Environment} {tenant : Option TenantFilter} {deletes : Bool}

/-- A question that is a turn, and how it ends. -/
theorem swept_turn {s : Shared} {q : Ask} {m : Memory} {scan : Tables} {t : Turn} {ok : Bool}
    (hscan : s.scans.getLast? = some scan) (hquestion : scanOf s.found q = [])
    (hturn : turnOf s.scanned s.found (handleShared C E q s).2.world.tables q = [t])
    (hkind : t.deletes = deletes) (hid : t.id = m.id) (hscanned : t.scanned = s.scanned)
    (hbefore : t.before = s.found) (hafter : t.after = (handleShared C E q s).2.world.tables)
    (hends : t.Ends C tenant ok) :
    Swept C tenant deletes [m] s (handleShared C E q s).2 scan [t] ok := by
  have hlast : s.scanned = scan := by
    rw [Shared.scanned, List.getLastD_eq_getLast?, hscan]
    rfl
  constructor
  case scans =>
    change s.scans ++ scanOf s.found q = s.scans
    rw [hquestion, List.append_nil]
  case recorded =>
    rw [← hturn]
    rfl
  case kind =>
    intro t' ht'
    rw [List.mem_singleton.mp ht', hscanned]
    exact ⟨hkind, hlast⟩
  case ends =>
    intro t' ht'
    rw [List.mem_singleton.mp ht']
    exact ⟨ok, hends⟩
  case order =>
    rw [List.map_singleton, List.map_singleton, hid]
  case finished =>
    rintro rfl
    refine ⟨by simp [hid], fun t' ht' => ?_⟩
    rw [List.mem_singleton.mp ht']
    exact hends
  case stuck =>
    rintro rfl
    exact ⟨t, List.mem_singleton_self t, hends⟩
  case alone =>
    intro halone
    refine ⟨?_, ?_, hafter⟩
    · change s.meanwhile.tail = []
      rw [halone]
      rfl
    · rw [hbefore, Shared.found, halone]
      rfl

variable (C E tenant deletes) in
theorem swept_takeTurn {s : Shared} {scan : Tables} (hscan : s.scans.getLast? = some scan) (m : Memory) :
    ∃ r u t, (takeTurn tenant deletes m).exec (handleShared C E) s = (r, u) ∧
      Swept C tenant deletes [m] s u scan [t] r.isOk := by
  cases deletes with
  | true =>
    rcases hcall : Tables.forget C.backend s.found (E.writeClock s.world.writes) m.id tenant with
      ⟨r, after⟩
    have hafter : (handleShared C E (.forget m.id tenant) s).2.world.tables = after :=
      congrArg Prod.snd hcall
    have hanswer : (handleShared C E (.forget m.id tenant) s).1 = r.mapError ofFailure :=
      congrArg (fun p : Except Failure Bool × Tables => p.1.mapError ofFailure) hcall
    have hexec : (takeTurn tenant true m).exec (handleShared C E) s =
        ((r.mapError ofFailure).map fun _ => (), (handleShared C E (.forget m.id tenant) s).2) := by
      change (ignoring (ofExcept (handleShared C E (.forget m.id tenant) s).1)).exec (handleShared C E)
        (handleShared C E (.forget m.id tenant) s).2 = _
      rw [hanswer]
      cases r <;> rfl
    refine ⟨_, _, ⟨true, m.id, s.scanned, s.found, after⟩, hexec,
      swept_turn hscan rfl (by rw [hafter]; rfl) rfl rfl rfl rfl hafter.symm ⟨_, r, hcall, ?_⟩⟩
    cases r <;> rfl
  | false =>
    rcases hcall : Tables.archive C.backend s.found (E.writeClock s.world.writes) m.id tenant with
      ⟨r, after⟩
    have hafter : (handleShared C E (.archive m.id tenant) s).2.world.tables = after :=
      congrArg Prod.snd hcall
    have hanswer : (handleShared C E (.archive m.id tenant) s).1 = r.mapError ofFailure :=
      congrArg (fun p : Except Failure (Option Memory) × Tables => p.1.mapError ofFailure) hcall
    have hexec : (takeTurn tenant false m).exec (handleShared C E) s =
        ((r.mapError ofFailure).map fun _ => (), (handleShared C E (.archive m.id tenant) s).2) := by
      change (ignoring (ofExcept (handleShared C E (.archive m.id tenant) s).1)).exec (handleShared C E)
        (handleShared C E (.archive m.id tenant) s).2 = _
      rw [hanswer]
      cases r <;> rfl
    refine ⟨_, _, ⟨false, m.id, s.scanned, s.found, after⟩, hexec,
      swept_turn hscan rfl (by rw [hafter]; rfl) rfl rfl rfl rfl hafter.symm ⟨_, r, hcall, ?_⟩⟩
    cases r <;> rfl

variable (C E tenant deletes) in
/-- The loop: by induction on the memories, one turn at a time. -/
theorem swept_each {s : Shared} (scan : Tables) (hscan : s.scans.getLast? = some scan)
    (memories : List Memory) :
    ∃ r u turns, (each memories (takeTurn tenant deletes)).exec (handleShared C E) s = (r, u) ∧
      Swept C tenant deletes memories s u scan turns r.isOk := by
  induction memories generalizing s with
  | nil =>
    refine ⟨.ok (), s, [], rfl, rfl, (List.append_nil _).symm, ?_, ?_, .slnil, ?_, ?_,
      fun h => ⟨h, rfl⟩⟩
    · simp
    · simp
    · simp
    · intro h
      cases h
  | cons m memories ih =>
    obtain ⟨r, u, t, hexec, hone⟩ := swept_takeTurn C E tenant deletes hscan m
    have hloop : (each (m :: memories) (takeTurn tenant deletes)).exec (handleShared C E) s =
        continued (handleShared C E) (fun _ => each memories (takeTurn tenant deletes)) (r, u) := by
      rw [← hexec]
      exact exec_bind _ _ _ _
    cases r with
    | error e =>
      refine ⟨.error e, u, [t], hloop, hone.scans, hone.recorded, hone.kind, hone.ends, ?_, ?_,
        hone.stuck, hone.alone⟩
      · exact hone.order.trans (.cons_cons _ (List.nil_sublist _))
      · intro h
        cases h
    | ok =>
      obtain ⟨r, v, turns, hrest, hswept⟩ := ih (hone.scans.symm ▸ hscan)
      refine ⟨r, v, t :: turns, hloop.trans hrest, hswept.scans.trans hone.scans, ?_, ?_, ?_, ?_, ?_, ?_, ?_⟩
      · rw [hswept.recorded, hone.recorded, List.append_assoc]
        rfl
      · intro t' ht'
        rcases List.mem_cons.mp ht' with rfl | ht'
        · exact hone.kind _ (List.mem_singleton_self _)
        · exact hswept.kind t' ht'
      · intro t' ht'
        rcases List.mem_cons.mp ht' with rfl | ht'
        · exact hone.ends _ (List.mem_singleton_self _)
        · exact hswept.ends t' ht'
      · exact hone.order.append hswept.order
      · intro hdone
        obtain ⟨hid, hfirst⟩ := hone.finished rfl
        obtain ⟨hids, hall⟩ := hswept.finished hdone
        refine ⟨?_, ?_⟩
        · simp only [List.map_cons, List.map_nil, List.cons.injEq, and_true] at hid
          rw [List.map_cons, List.map_cons, hid, hids]
        · intro t' ht'
          rcases List.mem_cons.mp ht' with rfl | ht'
          · exact hfirst _ (List.mem_singleton_self _)
          · exact hall t' ht'
      · intro hstuck
        obtain ⟨t', ht', hends⟩ := hswept.stuck hstuck
        exact ⟨t', List.mem_cons_of_mem _ ht', hends⟩
      · intro halone
        obtain ⟨hmid, hbefore, hafter⟩ := hone.alone halone
        obtain ⟨hend, hlinked⟩ := hswept.alone hmid
        refine ⟨hend, hbefore, ?_⟩
        rw [hafter]
        exact hlinked

end Loop

/-! ### The whole pass -/

section Pass
variable (C : Config) (options : Options) (tenant : Option TenantFilter) (now : ℤ) (scan : Tables)

def mayRead (m : Memory) : Bool := (canRead C.strict C.agentMode m options).toOption = some true

/-- What the first scan brings up. -/
def stale : List Memory :=
  ((scan.all false tenant).filter (mayRead C options)).filter
    (decays C (now - C.archiveAfterDays * msPerDay))

/-- What the second scan brings up. -/
def expired : List Memory :=
  (((scan.all true tenant).filter fun m => (truthy m.archivedAt).isSome).filter
    (mayRead C options)).filter (expires C (now - C.archiveTtlDays * msPerDay))

/-- The two scans and the turns of a pass, and what it returns. -/
structure Passed (s : Shared) (start : Tables) (first second : Tables) (archiving deleting : List Turn)
    (r : Except Thrown (List String × List String)) (v : Shared) : Prop where
  scans : v.scans = [first, second]
  turns : v.turns = archiving ++ deleting
  archives : ∀ t ∈ archiving, t.deletes = false ∧ t.scanned = first ∧ t.Ends C tenant true
  deletes : ∀ t ∈ deleting, t.deletes = true ∧ t.scanned = second
  ends : ∀ t ∈ deleting, ∃ ok, t.Ends C tenant ok
  order : (deleting.map Turn.id).Sublist ((expired C options tenant now second).map Memory.id)
  archived : archiving.map Turn.id = (stale C options tenant now first).map Memory.id
  returned : ∀ a, r = .ok a → a = ((stale C options tenant now first).map Memory.id,
      (expired C options tenant now second).map Memory.id) ∧
    deleting.map Turn.id = (expired C options tenant now second).map Memory.id ∧
    ∀ t ∈ deleting, t.Ends C tenant true
  stuck : ∀ e, r = .error e → ∃ t ∈ deleting, t.Ends C tenant false
  alone : s.meanwhile = [] → first = start ∧ Linked first archiving second ∧
    Linked second deleting v.world.tables

end Pass

section Pass
variable {C : Config} {E : Environment} {options : Options} {tenant : Option TenantFilter}

/-- The questions on the way to the filter. -/
def Asks : Ask → Prop
  | .mayProceed _ => True
  | .verifyContext _ => True
  | _ => False

theorem only_filter (capability : Capability) (operation : Option AuthorizationOperation) :
    (freshTenantFilter C options capability operation).Only Asks := by
  refine only_bind (only_request.mpr trivial) fun proceed => ?_
  refine only_bind (only_ofExcept _) fun _ => ?_
  refine only_bind (only_ofRefusal _) fun filter => ?_
  split
  · exact only_bind (only_request.mpr trivial) fun _ => only_bind (only_ensure _ _ _) fun _ => trivial
  · trivial

variable (C E options) in
/-- On the way to the filter nothing is scanned or written. -/
theorem fresh_shared (s : Shared) :
    let u := ((freshTenantFilter C options .write none).exec (handleShared C E) s).2
    u.scans = s.scans ∧ u.turns = s.turns ∧
      (s.meanwhile = [] → u.meanwhile = [] ∧ u.world.tables = s.world.tables) := by
  refine exec_induct (handleShared C E) (I := fun u => u.scans = s.scans ∧ u.turns = s.turns ∧
    (s.meanwhile = [] → u.meanwhile = [] ∧ u.world.tables = s.world.tables)) ?_ (only_filter _ _)
    ⟨rfl, rfl, fun h => ⟨h, rfl⟩⟩
  rintro q u hq ⟨hscans, hturns, halone⟩
  have hfound : u.meanwhile = [] → u.found = u.world.tables := by
    intro h
    rw [Shared.found, h]
    rfl
  cases q with
  | mayProceed write =>
    refine ⟨(List.append_nil _).trans hscans, (List.append_nil _).trans hturns, fun h => ?_⟩
    obtain ⟨hnobody, htables⟩ := halone h
    refine ⟨?_, (hfound hnobody).trans htables⟩
    change u.meanwhile.tail = []
    rw [hnobody]
    rfl
  | verifyContext context =>
    refine ⟨(List.append_nil _).trans hscans, (List.append_nil _).trans hturns, fun h => ?_⟩
    obtain ⟨hnobody, htables⟩ := halone h
    refine ⟨?_, (hfound hnobody).trans htables⟩
    change u.meanwhile.tail = []
    rw [hnobody]
    rfl
  | _ => exact hq.elim

theorem canRead_of_reads (h : (tenantFilter C.strict options .read none).isOk = true) (m : Memory) :
    (canRead C.strict C.agentMode m options).isOk = true := by
  unfold canRead
  cases hfilter : tenantFilter C.strict options .read none with
  | error e =>
    rw [hfilter] at h
    cases h
  | ok filter => rfl

variable (C options) in
theorem mayRead_iff (m : Memory) :
    mayRead C options m = true ↔ canRead C.strict C.agentMode m options = .ok true := by
  unfold mayRead
  rw [decide_eq_true_iff]
  cases canRead C.strict C.agentMode m options <;> simp [Except.toOption]

theorem exec_readable {V : Type} {answer : (q : Ask) → V → q.Answer × V} {v : V}
    (h : (tenantFilter C.strict options .read none).isOk = true) (memories : List Memory) :
    (readable C options memories).exec answer v = (.ok (memories.filter (mayRead C options)), v) :=
  exec_ofRefusal_eq_ok.mpr ⟨filterM_eq_ok.mpr ⟨fun m _ => canRead_of_reads h m, rfl⟩, rfl⟩

theorem exec_pass {s u : Shared} (hscans : s.scans = []) (hturns : s.turns = [])
    (h : Admits C E options s tenant u) :
    ∃ first second archiving deleting r v, runPass C E options s = (r, v) ∧
      Passed C options tenant (u.now E) s u.world.tables first second archiving deleting r v := by
  obtain ⟨hscans', hturns', halone⟩ := fresh_shared C E options s
  rw [h.filter] at hscans' hturns' halone
  -- After the clock and the first scan.
  let u₁ := (handleShared C E .now u).2
  let u₂ := (handleShared C E (.all false tenant) u₁).2
  have hu₂ : u₂.scans = [u₁.found] := by
    change (u.scans ++ []) ++ [u₁.found] = [u₁.found]
    rw [hscans', hscans]
    rfl
  obtain ⟨r₁, u₃, archiving, hloop, hswept⟩ := swept_each C E tenant false (s := u₂) u₁.found (by rw [hu₂]; rfl)
    (stale C options tenant (u.now E) u₁.found)
  have hok : r₁ = .ok () := by
    cases r₁ with
    | ok => rfl
    | error e =>
      obtain ⟨t, ht, hends⟩ := hswept.stuck rfl
      exact absurd (ok_archive (hswept.kind t ht).1 hends) (by decide)
  subst hok
  -- After the second scan.
  let u₄ := (handleShared C E (.all true tenant) u₃).2
  have hu₄ : u₄.scans = [u₁.found, u₃.found] := by
    change u₃.scans ++ [u₃.found] = _
    rw [hswept.scans, hu₂]
    rfl
  obtain ⟨r₂, v, deleting, hloop₂, hswept₂⟩ := swept_each C E tenant true (s := u₄) u₃.found (by rw [hu₄]; rfl)
    (expired C options tenant (u.now E) u₃.found)
  have hrun : runPass C E options s = (r₂.map fun _ =>
      ((stale C options tenant (u.now E) u₁.found).map Memory.id,
        (expired C options tenant (u.now E) u₃.found).map Memory.id), v) := by
    rw [runPass, decayPass, exec_bind, h.filter, continued_ok]
    change exec (handleShared C E) (readable C options (u₁.found.all false tenant) >>= _) u₂ = _
    rw [exec_bind, exec_readable h.reads, continued_ok]
    change exec (handleShared C E) (each (stale C options tenant (u.now E) u₁.found)
      (takeTurn tenant false) >>= _) u₂ = _
    rw [exec_bind, hloop, continued_ok]
    change exec (handleShared C E) (readable C options ((u₃.found.all true tenant).filter _) >>= _) u₄ = _
    rw [exec_bind, exec_readable h.reads, continued_ok]
    change exec (handleShared C E) (each (expired C options tenant (u.now E) u₃.found)
      (takeTurn tenant true) >>= _) u₄ = _
    rw [exec_bind, hloop₂]
    cases r₂ <;> rfl
  refine ⟨u₁.found, u₃.found, archiving, deleting, _, v, hrun, ?_⟩
  constructor
  case scans => exact hswept₂.scans.trans hu₄
  case turns =>
    rw [hswept₂.recorded]
    change (u₃.turns ++ []) ++ deleting = _
    rw [hswept.recorded, List.append_nil]
    change ((u.turns ++ []) ++ []) ++ archiving ++ deleting = _
    rw [hturns', hturns]
    rfl
  case archives => exact fun t ht => ⟨(hswept.kind t ht).1, (hswept.kind t ht).2, (hswept.finished rfl).2 t ht⟩
  case deletes => exact hswept₂.kind
  case ends => exact hswept₂.ends
  case order => exact hswept₂.order
  case archived => exact (hswept.finished rfl).1
  case returned =>
    intro a ha
    cases r₂ with
    | error e => cases ha
    | ok =>
      cases ha
      exact ⟨rfl, (hswept₂.finished rfl).1, (hswept₂.finished rfl).2⟩
  case stuck =>
    intro e he
    cases r₂ with
    | error e' => exact hswept₂.stuck rfl
    | ok => cases he
  case alone =>
    intro hnobody
    obtain ⟨hu, -⟩ := halone hnobody
    have hfound {x : Shared} (hx : x.meanwhile = []) : x.found = x.world.tables := by
      rw [Shared.found, hx]
      rfl
    have htail {q : Ask} {x : Shared} (hx : x.meanwhile = []) : (handleShared C E q x).2.meanwhile = [] := by
      change x.meanwhile.tail = []
      rw [hx]
      rfl
    have hu₁ : u₁.meanwhile = [] := htail hu
    have hfirst : u₁.found = u.world.tables := (hfound hu₁).trans (hfound hu)
    obtain ⟨hu₃, hlinked⟩ := hswept.alone (htail hu₁)
    obtain ⟨-, hlinked₂⟩ := hswept₂.alone (htail hu₃)
    refine ⟨hfirst, ?_, hlinked₂⟩
    rw [hfound hu₃]
    exact hlinked

end Pass

/-! ### What the scans bring up -/

section Scan
variable {C : Config} {options : Options} {tenant : Option TenantFilter} {now : ℤ} {scan : Tables}
  {includeArchived : Bool} {m : Memory}

theorem mem_all : m ∈ scan.all includeArchived tenant ↔ ∃ row,
    selected scan.memories m.id tenant = some row ∧ (includeArchived = true ∨ row.archivedAt = none) ∧
      rowToMemory row = some m := by
  simp only [Tables.all, List.mem_filterMap, mem_newestFirst, List.mem_filter, Bool.and_eq_true,
    Bool.or_eq_true, decide_eq_true_eq]
  constructor
  · rintro ⟨row, ⟨hmem, hsees, harchived⟩, hread⟩
    refine ⟨row, Sqlite.Serial.selected_eq_some.mpr ⟨?_, hsees⟩, harchived, hread⟩
    rw [Sqlite.Serial.id_of_read hread]
    exact Table.get_of_mem hmem
  · rintro ⟨row, hsel, harchived, hread⟩
    obtain ⟨hget, hsees⟩ := Sqlite.Serial.selected_eq_some.mp hsel
    exact ⟨row, ⟨(Table.get_eq_some.mp hget).1, hsees, harchived⟩, hread⟩

theorem nodup_all : ((scan.all includeArchived tenant).map Memory.id).Nodup := by
  have hids : ((scan.all includeArchived tenant).map Memory.id).Sublist
      ((newestFirst Row.updatedAt (scan.memories.rows.filter fun row =>
        tenantWhere tenant row && (includeArchived || row.archivedAt = none))).map Row.id) := by
    unfold Tables.all
    generalize newestFirst Row.updatedAt _ = rows
    induction rows with
    | nil => exact .slnil
    | cons row rows ih =>
      rw [List.filterMap_cons]
      cases hread : rowToMemory row with
      | none => exact ih.cons _
      | some m =>
        rw [List.map_cons, List.map_cons, Sqlite.Serial.id_of_read hread]
        exact ih.cons_cons _
  refine hids.nodup ((List.Perm.map Row.id newestFirst_perm).nodup_iff.mpr ?_)
  exact (List.filter_sublist.map Row.id).nodup scan.memories.nodup

theorem nodup_stale : ((stale C options tenant now scan).map Memory.id).Nodup :=
  ((List.filter_sublist.trans List.filter_sublist).map Memory.id).nodup nodup_all

theorem nodup_expired : ((expired C options tenant now scan).map Memory.id).Nodup :=
  (((List.filter_sublist.trans List.filter_sublist).trans List.filter_sublist).map Memory.id).nodup nodup_all

theorem any_lift (o : Option ℤ) (p : ℚ → Bool) :
    (do let t ← o; pure (t : ℚ)).any p = true ↔ ∃ t : ℤ, o = some t ∧ p t = true := by
  cases o with
  | none => simp
  | some t => exact ⟨fun h => ⟨t, rfl, h⟩, fun ⟨t', ht, h⟩ => Option.some.inj ht ▸ h⟩

theorem mem_stale : m ∈ stale C options tenant now scan ↔
    m ∈ scan.all false tenant ∧ Archivable C options now m := by
  have hread := mayRead_iff C options m
  simp only [stale, List.mem_filter, hread, decays, Bool.and_eq_true, any_lift, decide_eq_true_eq]
  constructor
  · rintro ⟨⟨hmem, hvisible⟩, ⟨⟨⟨hrole, hinstruction⟩, hpinned⟩, hnever⟩, t, ht, hlt⟩
    exact ⟨hmem, hvisible, ⟨hrole, hinstruction⟩, ⟨hpinned, hnever⟩, t, ht, hlt⟩
  · rintro ⟨hmem, hvisible, hstanding, hdecaying, t, ht, hlt⟩
    exact ⟨⟨hmem, hvisible⟩, ⟨⟨⟨hstanding.1, hstanding.2⟩, hdecaying.1⟩, hdecaying.2⟩, t, ht, hlt⟩

/-- The second loop looks at neither the type nor the hold. -/
theorem mem_expired : m ∈ expired C options tenant now scan ∧
    ((m.type ≠ .role ∧ m.type ≠ .instruction) ∧ m.legalHold ≠ some true) ↔
      m ∈ scan.all true tenant ∧ Destroyable C options now m := by
  have hread := mayRead_iff C options m
  simp only [expired, List.mem_filter, hread, expires, Bool.and_eq_true, any_lift, decide_eq_true_eq,
    Option.bind_eq_some_iff]
  constructor
  · rintro ⟨⟨⟨⟨hmem, -⟩, hvisible⟩, ⟨⟨hpersistent, hpinned⟩, hnever⟩, t, ⟨a, ha, ht⟩, hlt⟩, hstanding,
      hunheld⟩
    exact ⟨hmem, hvisible, ⟨a, t, ha, ht, hlt⟩, hstanding, ⟨hpersistent, hpinned, hnever⟩, hunheld⟩
  · rintro ⟨hmem, hvisible, ⟨a, t, ha, ht, hlt⟩, hstanding, ⟨hpersistent, hpinned, hnever⟩, hunheld⟩
    have htruthy : (truthy m.archivedAt).isSome = true := by
      obtain ⟨row, -, -, hrow⟩ := mem_all.mp hmem
      obtain ⟨-, rfl⟩ := Sqlite.rowToMemory_eq_some.mp hrow
      change (truthy (truthy row.archivedAt)).isSome = true
      rw [Store.truthy_truthy, show truthy row.archivedAt = some a from ha]
      rfl
    exact ⟨⟨⟨⟨hmem, htruthy⟩, hvisible⟩, ⟨⟨hpersistent, hpinned⟩, hnever⟩, t, ⟨a, ha, ht⟩, hlt⟩,
      hstanding, hunheld⟩

end Scan

/-! ### The laws and the condition -/

section Passes
variable {C : Config} {E : Environment} {options : Options} {tenant : Option TenantFilter} {now : ℤ}
  {s v : Shared} {start first second : Tables} {archiving deleting : List Turn}
  {r : Except Thrown (List String × List String)}

theorem Passed.mem_archiving (h : Passed C options tenant now s start first second archiving deleting r v)
    {t : Turn} : t ∈ v.turns ∧ t.deletes = false ↔ t ∈ archiving := by
  rw [h.turns, List.mem_append]
  constructor
  · rintro ⟨ht | ht, hkind⟩
    · exact ht
    · rw [(h.deletes t ht).1] at hkind
      cases hkind
  · exact fun ht => ⟨.inl ht, (h.archives t ht).1⟩

theorem Passed.mem_deleting (h : Passed C options tenant now s start first second archiving deleting r v)
    {t : Turn} : t ∈ v.turns ∧ t.deletes = true ↔ t ∈ deleting := by
  rw [h.turns, List.mem_append]
  constructor
  · rintro ⟨ht | ht, hkind⟩
    · rw [(h.archives t ht).1] at hkind
      cases hkind
    · exact ht
  · exact fun ht => ⟨.inr ht, (h.deletes t ht).1⟩

/-- The row of a memory that a scan has brought up. -/
theorem row_of_undisturbed {t : Turn} {m : Memory} {includeArchived : Bool} (hid : m.id = t.id)
    (hm : m ∈ t.scanned.all includeArchived tenant) (h : t.Undisturbed) :
    ∃ row, selected t.before.memories t.id tenant = some row ∧
      (includeArchived = true ∨ row.archivedAt = none) ∧ memoryOf row = m := by
  obtain ⟨row, hsel, harchived, hread⟩ := mem_all.mp hm
  obtain ⟨-, hmemory⟩ := Sqlite.rowToMemory_eq_some.mp hread
  refine ⟨row, ?_, harchived, hmemory.symm⟩
  rw [selected, h, ← hid]
  exact hsel

theorem mem_of_id {α : Type} {turns : List Turn} {memories : List α} {f : α → String}
    (h : turns.map Turn.id = memories.map f) {t : Turn} (ht : t ∈ turns) : ∃ m ∈ memories, f m = t.id :=
  List.mem_map.mp (h ▸ List.mem_map_of_mem ht)

theorem turn_of_mem {α : Type} {turns : List Turn} {memories : List α} {f : α → String}
    (h : turns.map Turn.id = memories.map f) {m : α} (hm : m ∈ memories) : ∃ t ∈ turns, t.id = f m :=
  List.mem_map.mp (h.symm ▸ List.mem_map_of_mem hm)

/-- A deletion that nothing stops. -/
theorem Turn.Clear.ends {t : Turn} (h : t.Clear tenant) (hkind : t.deletes = true) {ok : Bool}
    (hends : t.Ends C tenant ok) : ok = true := by
  cases hsel : selected t.before.memories t.id tenant with
  | some row => exact (ok_forget hkind hends hsel).1.mpr (h.audited hkind)
  | none =>
    obtain ⟨now, r, hcall, rfl⟩ := ends_forget hkind hends
    simp only [Tables.forget, hsel, Prod.mk.injEq] at hcall
    rw [← hcall.1]
    rfl

/-- Where every turn is clear, the pass returns and every turn does something. -/
theorem Passed.returns (h : Passed C options tenant now s start first second archiving deleting r v)
    (hclear : ∀ t ∈ v.turns, t.Clear tenant) : ∃ a, r = .ok a := by
  cases r with
  | ok a => exact ⟨a, rfl⟩
  | error e =>
    obtain ⟨t, ht, hends⟩ := h.stuck e rfl
    obtain ⟨hmem, hkind⟩ := h.mem_deleting.mpr ht
    exact absurd ((hclear t hmem).ends hkind hends) (by decide)

theorem Passed.changed (h : Passed C options tenant now s start first second archiving deleting r v)
    (hclear : ∀ t ∈ v.turns, t.Clear tenant) : ∀ t ∈ v.turns, t.Changed := by
  intro t ht
  have hundisturbed := (hclear t ht).undisturbed
  cases hkind : t.deletes with
  | false =>
    have hmem := h.mem_archiving.mp ⟨ht, hkind⟩
    obtain ⟨-, hscanned, hends⟩ := h.archives t hmem
    obtain ⟨m, hm, hid⟩ := mem_of_id h.archived hmem
    obtain ⟨row, hsel, hactive, -⟩ := row_of_undisturbed hid (hscanned ▸ (mem_stale.mp hm).1) hundisturbed
    exact changed_archive hkind hends hsel (hactive.resolve_left (by decide))
  | true =>
    have hmem := h.mem_deleting.mp ⟨ht, hkind⟩
    obtain ⟨a, ha⟩ := h.returns hclear
    obtain ⟨-, hids, hall⟩ := h.returned a ha
    obtain ⟨m, hm, hid⟩ := mem_of_id hids hmem
    have hscan : m ∈ second.all true tenant := by
      simp only [expired, List.mem_filter] at hm
      exact hm.1.1.1
    obtain ⟨row, hsel, -⟩ := row_of_undisturbed hid ((h.deletes t hmem).2 ▸ hscan) hundisturbed
    exact (ok_forget hkind (hall t hmem) hsel).2 rfl

/-- Who is active after turns that follow each other was so before, and had no turn. -/
theorem active_linked {turns : List Turn} {before after : Tables}
    (hturns : ∀ t ∈ turns, t.deletes = false ∧ t.Ends C tenant true) (h : Linked before turns after)
    {k : String} {row : Row} (hsel : selected after.memories k tenant = some row)
    (hactive : row.archivedAt = none) :
    k ∉ turns.map Turn.id ∧ selected before.memories k tenant = some row := by
  induction turns generalizing before with
  | nil =>
    rw [show before = after from h]
    exact ⟨List.not_mem_nil, hsel⟩
  | cons t turns ih =>
    obtain ⟨rfl, hrest⟩ := h
    obtain ⟨hnot, hmid⟩ := ih (fun t' ht' => hturns t' (List.mem_cons_of_mem _ ht')) hrest
    obtain ⟨hkind, hends⟩ := hturns t List.mem_cons_self
    obtain ⟨hne, hbefore⟩ := active_archive hkind hends hmid hactive
    exact ⟨fun hmem => (List.mem_cons.mp hmem).elim hne hnot, hbefore⟩

theorem seen_linked {turns : List Turn} {before after : Tables}
    (hturns : ∀ t ∈ turns, t.deletes = true ∧ t.Ends C tenant true) (h : Linked before turns after)
    {k : String} {row : Row} (hsel : selected after.memories k tenant = some row) :
    k ∉ turns.map Turn.id ∧ selected before.memories k tenant = some row := by
  induction turns generalizing before with
  | nil =>
    rw [show before = after from h]
    exact ⟨List.not_mem_nil, hsel⟩
  | cons t turns ih =>
    obtain ⟨rfl, hrest⟩ := h
    obtain ⟨hnot, hmid⟩ := ih (fun t' ht' => hturns t' (List.mem_cons_of_mem _ ht')) hrest
    obtain ⟨hkind, hends⟩ := hturns t List.mem_cons_self
    obtain ⟨hne, hbefore⟩ := seen_forget hkind hends hmid
    exact ⟨fun hmem => (List.mem_cons.mp hmem).elim hne hnot, hbefore⟩

/-- A pass that has returned, and that nobody came between, leaves nothing to do. -/
theorem Passed.nothing_left (h : Passed C options tenant now s start first second archiving deleting r v)
    (hnobody : s.meanwhile = []) {a : List String × List String} (ha : r = .ok a) :
    stale C options tenant now v.world.tables = [] ∧ expired C options tenant now v.world.tables = [] := by
  obtain ⟨-, harchiving, hdeleting⟩ := h.alone hnobody
  obtain ⟨-, hids, hall⟩ := h.returned a ha
  have hdeleted {k : String} {row : Row} (hsel : selected v.world.tables.memories k tenant = some row) :=
    seen_linked (fun t ht => ⟨(h.deletes t ht).1, hall t ht⟩) hdeleting hsel
  constructor
  · refine List.eq_nil_iff_forall_not_mem.mpr fun m hm => ?_
    obtain ⟨hscan, hmay⟩ := mem_stale.mp hm
    obtain ⟨row, hsel, hactive, hread⟩ := mem_all.mp hscan
    obtain ⟨-, hmid⟩ := hdeleted hsel
    obtain ⟨hnot, hfirst⟩ := active_linked (fun t ht => ⟨(h.archives t ht).1, (h.archives t ht).2.2⟩)
      harchiving hmid (hactive.resolve_left (by decide))
    refine hnot ?_
    rw [h.archived]
    exact List.mem_map_of_mem (mem_stale.mpr ⟨mem_all.mpr ⟨row, hfirst, hactive, hread⟩, hmay⟩)
  · refine List.eq_nil_iff_forall_not_mem.mpr fun m hm => ?_
    have hm' := hm
    simp only [expired, List.mem_filter] at hm'
    obtain ⟨⟨⟨hscan, harchived⟩, hvisible⟩, hexpires⟩ := hm'
    obtain ⟨row, hsel, hactive, hread⟩ := mem_all.mp hscan
    obtain ⟨hnot, hmid⟩ := hdeleted hsel
    refine hnot ?_
    rw [hids]
    refine List.mem_map_of_mem ?_
    simp only [expired, List.mem_filter]
    exact ⟨⟨⟨mem_all.mpr ⟨row, hmid, hactive, hread⟩, harchived⟩, hvisible⟩, hexpires⟩

/-- Turns of different memories that follow each other leave each memory as it was until its turn. -/
theorem undisturbed_linked {turns : List Turn} {before after : Tables}
    (hturns : ∀ t ∈ turns, ∃ ok, t.Ends C tenant ok) (hids : (turns.map Turn.id).Nodup)
    (h : Linked before turns after) : ∀ t ∈ turns, t.before.memories.get t.id = before.memories.get t.id := by
  induction turns generalizing before with
  | nil =>
    intro t ht
    exact absurd ht List.not_mem_nil
  | cons first turns ih =>
    obtain ⟨rfl, hrest⟩ := h
    rw [List.map_cons, List.nodup_cons] at hids
    intro t ht
    rcases List.mem_cons.mp ht with rfl | ht
    · rfl
    · obtain ⟨ok, hends⟩ := hturns first List.mem_cons_self
      rw [ih (fun t' ht' => hturns t' (List.mem_cons_of_mem _ ht')) hids.2 hrest t ht]
      refine get_other hends fun heq => hids.1 ?_
      rw [← heq]
      exact List.mem_map_of_mem ht

/-- Without others no turn is disturbed. -/
theorem Passed.undisturbed (h : Passed C options tenant now s start first second archiving deleting r v)
    (hnobody : s.meanwhile = []) : ∀ t ∈ v.turns, t.Undisturbed := by
  obtain ⟨-, harchiving, hdeleting⟩ := h.alone hnobody
  intro t ht
  rw [h.turns, List.mem_append] at ht
  rcases ht with ht | ht
  · obtain ⟨-, hscanned, -⟩ := h.archives t ht
    rw [Turn.Undisturbed, hscanned]
    exact undisturbed_linked (fun t ht => ⟨true, (h.archives t ht).2.2⟩) (h.archived ▸ nodup_stale)
      harchiving t ht
  · rw [Turn.Undisturbed, (h.deletes t ht).2]
    exact undisturbed_linked h.ends (h.order.nodup nodup_expired) hdeleting t ht

/-- A pass that finds nothing changes nothing. -/
theorem Passed.idle (h : Passed C options tenant now s start first second archiving deleting r v)
    (hnobody : s.meanwhile = []) (hstale : stale C options tenant now start = [])
    (hexpired : expired C options tenant now start = []) : r = .ok ([], []) ∧ v.world.tables = start := by
  obtain ⟨rfl, harchiving, hdeleting⟩ := h.alone hnobody
  have hnone : archiving = [] := List.map_eq_nil_iff.mp (h.archived.trans (by rw [hstale]; rfl))
  subst hnone
  obtain rfl : first = second := harchiving
  have hnone : deleting = [] := by
    refine List.eq_nil_iff_forall_not_mem.mpr fun t ht => ?_
    have hid := h.order.subset (List.mem_map_of_mem ht)
    rw [hexpired] at hid
    exact List.not_mem_nil hid
  subst hnone
  cases r with
  | ok a =>
    obtain ⟨rfl, -⟩ := h.returned a rfl
    rw [hstale, hexpired]
    exact ⟨rfl, Eq.symm hdeleting⟩
  | error e =>
    obtain ⟨t, ht, -⟩ := h.stuck e rfl
    exact absurd ht List.not_mem_nil

/-- If every turn is clear, the laws hold. -/
theorem decayLaws_of_clear (hrun : runPass C E options s = (r, v))
    (h : Passed C options tenant now s start first second archiving deleting r v)
    (hclear : ∀ t ∈ v.turns, t.Clear tenant) : DecayLaws C E options s tenant now := by
  have hchanged := h.changed hclear
  obtain ⟨a, ha⟩ := h.returns hclear
  obtain ⟨hreported, hids, hall⟩ := h.returned a ha
  constructor
  case reports =>
    rw [hrun]
    refine ⟨_, _, ha.trans (congrArg Except.ok hreported), fun id => ?_, fun id => ?_⟩
    · rw [← h.archived, List.mem_map]
      constructor
      · rintro ⟨t, ht, rfl⟩
        obtain ⟨hmem, hkind⟩ := h.mem_archiving.mpr ht
        exact ⟨t, hmem, hkind, rfl, hchanged t hmem⟩
      · rintro ⟨t, hmem, hkind, rfl, -⟩
        exact ⟨t, h.mem_archiving.mp ⟨hmem, hkind⟩, rfl⟩
    · rw [← hids, List.mem_map]
      constructor
      · rintro ⟨t, ht, rfl⟩
        obtain ⟨hmem, hkind⟩ := h.mem_deleting.mpr ht
        exact ⟨t, hmem, hkind, rfl, hchanged t hmem⟩
      · rintro ⟨t, hmem, hkind, rfl, -⟩
        exact ⟨t, h.mem_deleting.mp ⟨hmem, hkind⟩, rfl⟩
  case archives =>
    rw [hrun, h.scans]
    rintro _ ⟨⟩ id
    constructor
    · rintro ⟨t, ht, hkind, rfl, -⟩
      obtain ⟨m, hm, hid⟩ := mem_of_id h.archived (h.mem_archiving.mp ⟨ht, hkind⟩)
      obtain ⟨hscan, hmay⟩ := mem_stale.mp hm
      exact ⟨⟨m, hscan, hid, hmay⟩, fun t' ht' _ _ => (hclear t' ht').undisturbed⟩
    · rintro ⟨⟨m, hscan, rfl, hmay⟩, -⟩
      obtain ⟨t, ht, hid⟩ := turn_of_mem h.archived (mem_stale.mpr ⟨hscan, hmay⟩)
      obtain ⟨hmem, hkind⟩ := h.mem_archiving.mpr ht
      exact ⟨t, hmem, hkind, hid, hchanged t hmem⟩
  case destroys =>
    rw [hrun, h.scans]
    rintro _ ⟨⟩ id
    constructor
    · rintro ⟨t, ht, hkind, rfl, -⟩
      refine ⟨?_, fun t' ht' _ _ => (hclear t' ht').undisturbed⟩
      have hdeleting := h.mem_deleting.mp ⟨ht, hkind⟩
      obtain ⟨m, hm, hid⟩ := mem_of_id hids hdeleting
      have hscan : m ∈ second.all true tenant := by
        simp only [expired, List.mem_filter] at hm
        exact hm.1.1.1
      obtain ⟨row, hsel, -, rfl⟩ := row_of_undisturbed hid ((h.deletes t hdeleting).2 ▸ hscan)
        (hclear t ht).undisturbed
      have hget := (Sqlite.Serial.selected_eq_some.mp hsel).1
      refine ⟨_, hscan, hid, (mem_expired.mp ⟨hm, (hclear t ht).standing hkind row hget, ?_⟩).2⟩
      intro hheld
      exact absurd ((hclear t ht).unheld hkind row hget) (by rw [Option.some.inj hheld]; decide)
    · rintro ⟨⟨m, hscan, rfl, hmay⟩, -⟩
      obtain ⟨t, ht, hid⟩ := turn_of_mem hids (mem_expired.mpr ⟨hscan, hmay⟩).1
      obtain ⟨hmem, hkind⟩ := h.mem_deleting.mpr ht
      exact ⟨t, hmem, hkind, hid, hchanged t hmem⟩
  case again =>
    rw [hrun]
    intro hnobody E' w u htables hadmits hnow
    obtain ⟨hstale, hexpired⟩ := h.nothing_left hnobody ha
    obtain ⟨first', second', archiving', deleting', r', v', hrun', hpassed⟩ := exec_pass rfl rfl hadmits
    obtain ⟨-, -, halone⟩ := fresh_shared C E' options { world := w }
    rw [hadmits.filter] at halone
    have hstart : u.world.tables = v.world.tables := (halone rfl).2.trans htables
    rw [hnow, hstart] at hpassed
    rw [hrun']
    obtain ⟨hr, hv⟩ := hpassed.idle rfl hstale hexpired
    exact ⟨hr, hv.trans htables.symm⟩

/-- If the laws hold, every turn is clear. -/
theorem clear_of_decayLaws (hrun : runPass C E options s = (r, v))
    (h : Passed C options tenant now s start first second archiving deleting r v)
    (hlaws : DecayLaws C E options s tenant now) : ∀ t ∈ v.turns, t.Clear tenant := by
  obtain ⟨⟨archived, deleted, hr, harchived, hdeleted⟩, harchives, hdestroys, -⟩ := hlaws
  rw [hrun] at hr harchived hdeleted harchives hdestroys
  obtain ⟨hreported, hids, hall⟩ := h.returned _ hr
  obtain ⟨rfl, rfl⟩ := Prod.mk.inj hreported
  rw [h.scans] at harchives hdestroys
  intro t ht
  cases hkind : t.deletes with
  | false =>
    have hmem : t.id ∈ (stale C options tenant now first).map Memory.id := by
      rw [← h.archived]
      exact List.mem_map_of_mem (h.mem_archiving.mp ⟨ht, hkind⟩)
    have hundisturbed := ((harchives first rfl t.id).mp ((harchived t.id).mp hmem)).2 t ht hkind rfl
    constructor
    case undisturbed => exact hundisturbed
    all_goals
      intro hdeletes
      rw [hkind] at hdeletes
      cases hdeletes
  | true =>
    have hdeleting := h.mem_deleting.mp ⟨ht, hkind⟩
    have hmem : t.id ∈ (expired C options tenant now second).map Memory.id := by
      rw [← hids]
      exact List.mem_map_of_mem hdeleting
    obtain ⟨⟨m, hscan, hid, hmay⟩, hundisturbed⟩ :=
      (hdestroys second rfl t.id).mp ((hdeleted t.id).mp hmem)
    obtain ⟨row, hsel, -, rfl⟩ := row_of_undisturbed hid ((h.deletes t hdeleting).2 ▸ hscan)
      (hundisturbed t ht hkind rfl)
    have hget := (Sqlite.Serial.selected_eq_some.mp hsel).1
    constructor
    case undisturbed => exact hundisturbed t ht hkind rfl
    case standing =>
      rintro - row' hrow'
      obtain rfl := Option.some.inj (hget.symm.trans hrow')
      exact hmay.standing
    case unheld =>
      rintro - row' hrow'
      obtain rfl := Option.some.inj (hget.symm.trans hrow')
      exact Bool.eq_false_of_not_eq_true fun hheld => hmay.unheld (congrArg some hheld)
    case audited => exact fun _ => (ok_forget hkind (hall t hdeleting) hsel).1.mp rfl

/-- Whoever may not read gets an error for each list but the empty one. -/
theorem exec_readable_refused {V : Type} {answer : (q : Ask) → V → q.Answer × V} {x : V}
    (h : ¬ (tenantFilter C.strict options .read none).isOk = true) (memories : List Memory) :
    (memories = [] ∧ (readable C options memories).exec answer x = (.ok [], x)) ∨
      ∃ e, (readable C options memories).exec answer x = (.error e, x) := by
  cases hr : (readable C options memories).exec answer x with
  | mk r x' =>
    have hsame : x' = x := by
      have hsnd := congrArg Prod.snd hr
      rw [readable, exec_ofRefusal] at hsnd
      exact hsnd.symm
    subst hsame
    cases r with
    | error e => exact .inr ⟨e, rfl⟩
    | ok shown =>
      obtain ⟨hall, rfl⟩ := filterM_eq_ok.mp (exec_ofRefusal_eq_ok.mp hr).1
      cases memories with
      | nil => exact .inl ⟨rfl, rfl⟩
      | cons m memories =>
        have hm := hall m List.mem_cons_self
        unfold canRead at hm
        cases hfilter : tenantFilter C.strict options .read none with
        | ok filter => exact absurd (by rw [hfilter]; rfl) h
        | error e =>
          rw [hfilter] at hm
          cases hm

/-- A caller that is not let in, or may not read, has no memory touched. -/
theorem turns_of_refused (hturns : s.turns = []) (h : ¬ ∃ tenant u, Admits C E options s tenant u) :
    (runPass C E options s).2.turns = [] := by
  obtain ⟨-, hturns', -⟩ := fresh_shared C E options s
  rw [runPass, decayPass, exec_bind]
  cases hfilter : (freshTenantFilter C options .write none).exec (handleShared C E) s with
  | mk r u =>
    rw [hfilter] at hturns'
    have hnone : u.turns = [] := hturns'.trans hturns
    cases r with
    | error e => exact hnone
    | ok tenant =>
      have hreads : ¬ (tenantFilter C.strict options .read none).isOk = true :=
        fun hreads => h ⟨tenant, u, hfilter, hreads⟩
      let u₁ := (handleShared C E .now u).2
      let u₂ := (handleShared C E (.all false tenant) u₁).2
      have hu₂ : u₂.turns = [] := by
        change (u.turns ++ []) ++ [] = []
        rw [hnone]
        rfl
      change (exec (handleShared C E) (readable C options (u₁.found.all false tenant) >>= _) u₂).2.turns = []
      rw [exec_bind]
      rcases exec_readable_refused hreads (u₁.found.all false tenant) with ⟨-, hread⟩ | ⟨e, hread⟩
      · rw [hread]
        let u₃ := (handleShared C E (.all true tenant) u₂).2
        have hu₃ : u₃.turns = [] := by
          change u₂.turns ++ [] = []
          rw [hu₂]
          rfl
        change (exec (handleShared C E) (readable C options ((u₂.found.all true tenant).filter _) >>= _)
          u₃).2.turns = []
        rw [exec_bind]
        rcases exec_readable_refused hreads ((u₂.found.all true tenant).filter _) with ⟨-, hread'⟩ |
          ⟨e, hread'⟩
        · rw [hread']
          exact hu₃
        · rw [hread']
          exact hu₃
      · rw [hread]
        exact hu₂

end Passes

section Decay
variable (C : Config) (E : Environment) (options : Options)

/-- The world and what others will do; nothing is scanned yet. -/
def beside (w : World) (meanwhile : List (Tables → Tables)) : Shared :=
  { world := w, meanwhile := meanwhile }

/-- For every store, clock, caller and whatever others write in between: a pass that is let in keeps to
    its laws exactly if every turn finds its memory as it was scanned and nothing exempts a memory that it
    deletes; any other touches no memory. -/
theorem decayLaws_iff (w : World) (meanwhile : List (Tables → Tables)) :
    (∀ tenant u, Admits C E options (beside w meanwhile) tenant u →
      (DecayLaws C E options (beside w meanwhile) tenant (u.now E) ↔
        ∀ t ∈ (runPass C E options (beside w meanwhile)).2.turns, t.Clear tenant)) ∧
      ((¬ ∃ tenant u, Admits C E options (beside w meanwhile) tenant u) →
        (runPass C E options (beside w meanwhile)).2.turns = []) := by
  refine ⟨fun tenant u hadmits => ?_, turns_of_refused rfl⟩
  obtain ⟨first, second, archiving, deleting, r, v, hrun, hpassed⟩ := exec_pass rfl rfl hadmits
  rw [hrun]
  exact ⟨clear_of_decayLaws hrun hpassed, decayLaws_of_clear hrun hpassed⟩

/-- Without others every turn finds its memory as it was scanned. -/
theorem undisturbed_alone (w : World) {tenant : Option TenantFilter} {u : Shared}
    (h : Admits C E options (beside w []) tenant u) :
    ∀ t ∈ (runPass C E options (beside w [])).2.turns, t.Undisturbed := by
  obtain ⟨first, second, archiving, deleting, r, v, hrun, hpassed⟩ := exec_pass rfl rfl h
  rw [hrun]
  exact hpassed.undisturbed rfl

end Decay

/-! ### A memory that was archived years ago -/

def newYears : Store.Host :=
  { Store.newYear with
    dateParse := fun s => if s = "2024-01-01T00:00:00.000Z" then some 1704067200000 else none }

def agedConfig : Config :=
  { plainConfig with backend := { platform := { host := newYears, fround := id } } }

/-- Archived at the start of 2024. -/
def archivedRow (legalHold : Bool) : Row :=
  { Sqlite.rowOf agedConfig.backend.platform
      (Sqlite.storeRecord agedConfig.backend.platform 1704067200000 "m-1" Store.preference none none)
    with archivedAt := some "2024-01-01T00:00:00.000Z", legalHold := legalHold }

def worldOf (row : Row) : World where
  tables := { memories := ⟨[row], List.nodup_singleton _⟩ }
  manifest := { id := "local", privacy := .isLocal, maxSensitivity := .internal }

/-- Three years later. -/
def later : Environment := { steady with clock := fun _ => 1798761600000 }

/-- The memory is destroyed, as it should be. -/
theorem decayLaws_archivedRow : DecayLaws agedConfig later {} (beside (worldOf (archivedRow false)) []) none
    1798761600000 := by
  have hadmits : Admits agedConfig later {} (beside (worldOf (archivedRow false)) []) none
      ((freshTenantFilter agedConfig {} .write none).exec (handleShared agedConfig later)
        (beside (worldOf (archivedRow false)) [])).2 := ⟨rfl, rfl⟩
  refine ((decayLaws_iff agedConfig later {} _ _).1 none _ hadmits).mpr fun t ht => ?_
  have hturns : ∀ t ∈ (runPass agedConfig later {} (beside (worldOf (archivedRow false)) [])).2.turns,
      (∀ row ∈ t.before.memories.get t.id, (row.type ≠ .role ∧ row.type ≠ .instruction) ∧
        row.legalHold = false) ∧ t.before.audit = [] := by
    decide +kernel
  obtain ⟨hrow, haudit⟩ := hturns t ht
  constructor
  case undisturbed => exact undisturbed_alone agedConfig later {} _ hadmits t ht
  case standing => exact fun _ row hget => (hrow row hget).1
  case unheld => exact fun _ row hget => (hrow row hget).2
  case audited =>
    intro _ a ha
    rw [haudit] at ha
    exact absurd ha List.not_mem_nil

/-- The same memory on legal hold is destroyed too. -/
theorem heldRow_destroyed : ∃ u, Admits agedConfig later {} (beside (worldOf (archivedRow true)) []) none u ∧
    ¬ DecayLaws agedConfig later {} (beside (worldOf (archivedRow true)) []) none (u.now later) := by
  refine ⟨_, ⟨rfl, rfl⟩, fun hlaws => ?_⟩
  obtain ⟨first, second, archiving, deleting, r, v, hrun, hpassed⟩ :=
    @exec_pass agedConfig later {} none (beside (worldOf (archivedRow true)) []) _ rfl rfl ⟨rfl, rfl⟩
  have hclear := clear_of_decayLaws hrun hpassed hlaws
  have hheld : ∃ t ∈ (runPass agedConfig later {} (beside (worldOf (archivedRow true)) [])).2.turns,
      t.deletes = true ∧ ∃ row ∈ t.before.memories.get t.id, row.legalHold = true := by
    decide +kernel
  rw [hrun] at hheld
  obtain ⟨t, ht, hdeletes, row, hget, hrow⟩ := hheld
  exact absurd ((hclear t ht).unheld hdeletes row hget) (by rw [hrow]; decide)

end Remembra.Service
