import Remembra.Service.Reading

/-! The edges of a memory under `relate`. Both actions check that every listed target is there and can be
    read before they look at the edges, so an edge whose target is gone cannot be removed any more; and
    where two edges lead to one target, `add` changes the kind of the first and leaves the other. Apart
    from this the edges are a map from targets to kinds (`relateLaws_iff`). -/

namespace Remembra.Service
open Store (Memory Relation RelationKind TenantFilter)
open Sqlite (Row memoryOf rowToMemory rowToMemory_eq_some setUpdated)
open Sqlite.Serial (Tables updatedOver)
open Prog

/-! ### Edges -/

/-- The edges to one target. -/
def edgesTo (edges : List Relation) (rid : String) : List Relation := edges.filter fun r => r.id = rid

section Edges
variable {kind : RelationKind} {edges front back : List Relation} {ids added : List String}
  {rid : String} {e : Relation} {p : String → Bool}

theorem modify_first (hfront : ∀ r ∈ front, r.id ≠ rid) (he : e.id = rid) (f : Relation → Relation) :
    (front ++ e :: back).modify ((front ++ e :: back).findIdx fun r => r.id = rid) f =
      front ++ f e :: back := by
  induction front with
  | nil => simp [List.findIdx_cons, he]
  | cons a front ih =>
    have ha := hfront a List.mem_cons_self
    simp [List.findIdx_cons, ha, ih fun r hr => hfront r (List.mem_cons_of_mem _ hr)]

/-- A target gets an edge at the end, or its first edge is of the kind afterwards. -/
theorem addEdge_cases (kind : RelationKind) (edges : List Relation) (added : List String) (rid : String) :
    ((∀ r ∈ edges, r.id ≠ rid) ∧ (addEdge kind (edges, added) rid).1 = edges ++ [⟨rid, kind⟩]) ∨
    ∃ front e back, edges = front ++ e :: back ∧ (∀ r ∈ front, r.id ≠ rid) ∧ e.id = rid ∧
      (addEdge kind (edges, added) rid).1 = front ++ ⟨rid, kind⟩ :: back := by
  cases hfind : edges.find? fun r => r.id = rid with
  | none =>
    refine .inl ⟨?_, ?_⟩
    · simpa using hfind
    · simp [addEdge, hfind]
  | some e =>
    obtain ⟨he, front, back, rfl, hfront⟩ := List.find?_eq_some_iff_append.mp hfind
    have hid : e.id = rid := of_decide_eq_true he
    have hne : ∀ r ∈ front, r.id ≠ rid := by simpa using hfront
    refine .inr ⟨front, e, back, rfl, hne, hid, ?_⟩
    simp only [addEdge, hfind]
    split
    · rw [modify_first hne hid, hid]
    · rename_i hkind
      rw [← not_not.mp hkind, ← hid]

theorem filter_addEdge (hp : p rid = false) :
    (addEdge kind (edges, added) rid).1.filter (fun r => p r.id) = edges.filter fun r => p r.id := by
  obtain ⟨-, h⟩ | ⟨front, e, back, rfl, -, rfl, h⟩ := addEdge_cases kind edges added rid
  · simp [h, hp]
  · simp [h, hp]

/-- The first edge to the target is of the kind, and the other ones are as they were. -/
theorem edgesTo_addEdge : edgesTo (addEdge kind (edges, added) rid).1 rid =
    ⟨rid, kind⟩ :: (edgesTo edges rid).tail := by
  obtain ⟨hnone, h⟩ | ⟨front, e, back, rfl, hfront, hid, h⟩ := addEdge_cases kind edges added rid
  · have hnil : edgesTo edges rid = [] := by simpa [edgesTo] using hnone
    rw [h, edgesTo, List.filter_append, ← edgesTo, hnil]
    simp
  · have hnil : front.filter (fun r => r.id = rid) = [] := by simpa using hfront
    simp [h, edgesTo, hnil, hid]

theorem edgesTo_addEdge_of_ne {other : String} (h : other ≠ rid) :
    edgesTo (addEdge kind (edges, added) rid).1 other = edgesTo edges other :=
  filter_addEdge (p := fun id => id = other) (by simpa using Ne.symm h)

/-! A whole list of targets, from any state of the loop. -/

variable {s : List Relation × List String}

theorem filter_addEdges (hp : ∀ rid ∈ ids, p rid = false) :
    (ids.foldl (addEdge kind) s).1.filter (fun r => p r.id) = s.1.filter fun r => p r.id := by
  induction ids generalizing s with
  | nil => rfl
  | cons rid ids ih =>
    rw [List.foldl_cons, ih fun other hother => hp other (List.mem_cons_of_mem _ hother)]
    exact filter_addEdge (hp rid List.mem_cons_self)

theorem edgesTo_addEdges_of_notMem (h : rid ∉ ids) :
    edgesTo (ids.foldl (addEdge kind) s).1 rid = edgesTo s.1 rid :=
  filter_addEdges (p := fun id => id = rid) fun _ hother =>
    decide_eq_false fun heq => h (heq ▸ hother)

variable (kind) in
/-- The first edge to each listed target is of the kind, and the other ones are as they were. -/
theorem edgesTo_addEdges (h : rid ∈ ids) : edgesTo (ids.foldl (addEdge kind) s).1 rid =
    ⟨rid, kind⟩ :: (edgesTo s.1 rid).tail := by
  induction ids generalizing s with
  | nil => cases h
  | cons other ids ih =>
    rw [List.foldl_cons]
    by_cases hlater : rid ∈ ids
    · rw [ih hlater]
      by_cases heq : rid = other
      · rw [← heq, edgesTo_addEdge, List.tail_cons]
      · rw [edgesTo_addEdge_of_ne heq]
    · obtain rfl : rid = other := (List.mem_cons.mp h).resolve_right hlater
      rw [edgesTo_addEdges_of_notMem hlater, edgesTo_addEdge]

/-- A target with an edge of the kind in front changes nothing. -/
theorem addEdge_of_edgesTo (h : ∃ rest, edgesTo s.1 rid = ⟨rid, kind⟩ :: rest) :
    addEdge kind s rid = s := by
  obtain ⟨rest, hrest⟩ := h
  have hfind : s.1.find? (fun r => r.id = rid) = some ⟨rid, kind⟩ := by
    rw [← List.head?_filter]
    exact congrArg List.head? hrest
  simp [addEdge, hfind]

/-- The same list a second time adds nothing. -/
theorem addEdges_again (edges : List Relation) (ids : List String)
    (h : ∀ rid ∈ ids, ∃ rest, edgesTo edges rid = ⟨rid, kind⟩ :: rest) :
    ids.foldl (addEdge kind) (edges, []) = (edges, []) := by
  induction ids with
  | nil => rfl
  | cons rid ids ih =>
    rw [List.foldl_cons, addEdge_of_edgesTo (h rid List.mem_cons_self)]
    exact ih fun other hother => h other (List.mem_cons_of_mem _ hother)

/-- A call that is made a second time changes nothing. -/
theorem relatedEdges_again (i : RelateInput) (edges : List Relation) :
    relatedEdges i (relatedEdges i edges).1 = ((relatedEdges i edges).1, []) := by
  unfold relatedEdges
  split
  · exact addEdges_again _ _ fun rid hrid => ⟨_, edgesTo_addEdges _ hrid⟩
  · simp

theorem prefix_addEdge : s.2 <+: (addEdge kind s rid).2 := by
  unfold addEdge
  split
  · exact List.prefix_append _ _
  · split
    · exact List.prefix_append _ _
    · exact List.prefix_refl _

theorem prefix_addEdges : s.2 <+: (ids.foldl (addEdge kind) s).2 := by
  induction ids generalizing s with
  | nil => exact List.prefix_refl _
  | cons rid ids ih => exact prefix_addEdge.trans ih

theorem addEdge_unchanged (h : (addEdge kind s rid).2 = []) : addEdge kind s rid = s := by
  unfold addEdge at h ⊢
  split at h
  · simp at h
  · split at h
    · simp at h
    · rename_i hkind
      simp only [if_neg hkind]

/-- Where no target was added nothing has changed. -/
theorem addEdges_unchanged (h : (ids.foldl (addEdge kind) s).2 = []) :
    ids.foldl (addEdge kind) s = s := by
  induction ids generalizing s with
  | nil => rfl
  | cons rid ids ih =>
    rw [List.foldl_cons] at h ⊢
    have hstep : (addEdge kind s rid).2 = [] := List.prefix_nil.mp (h ▸ prefix_addEdges)
    rw [addEdge_unchanged hstep] at h ⊢
    exact ih h

theorem relatedEdges_unchanged {i : RelateInput} (h : (relatedEdges i edges).2 = []) :
    (relatedEdges i edges).1 = edges := by
  unfold relatedEdges at h ⊢
  split at h
  · exact congrArg Prod.fst (addEdges_unchanged h)
  · rw [List.map_eq_nil_iff, List.filter_eq_nil_iff] at h
    exact List.filter_eq_self.mpr (by simpa using h)

end Edges

/-! ### The call -/

/-- The tables and the number of writes are the same. -/
structure Same (u w : World) : Prop where
  tables : u.tables = w.tables
  writes : u.writes = w.writes

/-- The edges that the row of a memory holds. -/
def edgesAt (w : World) (id : String) : List Relation :=
  ((w.tables.memories.get id).map Row.relations).getD []

section Call
variable {C : Config} {E : Environment} {options : Options} {tenant : Option TenantFilter} {w u u' : World}
  {memory : Memory} {id rid : String}

theorem Same.trans {v : World} (h : Same u v) (h' : Same v w) : Same u w :=
  ⟨h.tables.trans h'.tables, h.writes.trans h'.writes⟩

theorem same_handle {q : Ask} (h : q.Reads) (w : World) : Same (handle C E q w).2 w := by
  cases q with
  | store _ _ _ => exact h.elim
  | update _ _ _ _ => exact h.elim
  | archive _ _ => exact h.elim
  | revive _ _ => exact h.elim
  | forget _ _ => exact h.elim
  | embed gate text =>
    simp only [handle]
    split <;> exact ⟨rfl, rfl⟩
  | extract gate transcript =>
    simp only [handle]
    split <;> exact ⟨rfl, rfl⟩
  | _ => exact ⟨rfl, rfl⟩

theorem same_of_exec {α : Type} {p : Act α} (h : p.Only Ask.Reads) {r : Except Thrown α}
    (hexec : p.exec (handle C E) w = (r, u)) : Same u w := by
  have hsame : Same (p.exec (handle C E) w).2 w :=
    exec_induct (handle C E) (I := fun v => Same v w) (fun q v hq hv => (same_handle hq v).trans hv) h
      ⟨rfl, rfl⟩
  rwa [hexec] at hsame

/-- The memory with the id can be read. -/
def isTarget (C : Config) (options : Options) (tenant : Option TenantFilter) (tables : Tables)
    (rid : String) : Bool :=
  (Sqlite.get tables.memories rid tenant).any fun target =>
    (canRead C.strict C.agentMode target options).toOption = some true

/-- The caller may read the source of the edges, and the call gets its filter. -/
structure MayRelate (C : Config) (E : Environment) (options : Options) (w : World) (id : String)
    (tenant : Option TenantFilter) (memory : Memory) : Prop where
  filter : ∃ u, (freshTenantFilter C options .write none).exec (handle C E) w = (.ok tenant, u)
  found : Sqlite.get w.tables.memories id tenant = some memory
  visible : canRead C.strict C.agentMode memory options = .ok true

/-- Whether a memory can be read is always decided where it is for one. -/
theorem canRead_isOk {m : Memory} (m' : Memory) {b : Bool} (h : canRead C.strict C.agentMode m options = .ok b) :
    ∃ b', canRead C.strict C.agentMode m' options = .ok b' := by
  unfold canRead at h ⊢
  cases htenant : tenantFilter C.strict options .read none with
  | error e =>
    rw [htenant] at h
    cases h
  | ok t => exact ⟨_, rfl⟩

theorem edgesAt_of_get (h : Sqlite.get w.tables.memories id tenant = some memory) :
    edgesAt w id = memory.relations.getD [] := by
  obtain ⟨row, hrow, hmemory⟩ := Option.bind_eq_some_iff.mp h
  obtain ⟨hget, -⟩ := Option.filter_eq_some_iff.mp hrow
  obtain ⟨-, rfl⟩ := rowToMemory_eq_some.mp hmemory
  rw [edgesAt, hget]
  by_cases hnil : row.relations = []
  · simp [memoryOf, hnil]
  · simp [memoryOf, hnil]

theorem exec_get (id : String) (tenant : Option TenantFilter) (w : World) :
    (Act.get id tenant).exec (handle C E) w = (.ok (Sqlite.get w.tables.memories id tenant), w.tick) := rfl

theorem exec_missingTarget (hvisible : canRead C.strict C.agentMode memory options = .ok true)
    (missing : List String) (rid : String) (w : World) :
    (missingTarget C options tenant missing rid).exec (handle C E) w =
      (.ok (missing ++ if isTarget C options tenant w.tables rid then [] else [rid]), w.tick) := by
  rw [missingTarget, exec_bind, exec_get, continued_ok, isTarget]
  cases Sqlite.get w.tables.memories rid tenant with
  | none => rfl
  | some target =>
    obtain ⟨b, hb⟩ := canRead_isOk target hvisible
    rw [exec_bind, exec_ofRefusal, hb]
    cases b with
    | true =>
      simp [Except.mapError, hb, Except.toOption]
    | false => simp [Except.mapError, hb, Except.toOption]

variable (E tenant) in
/-- The loop collects the targets that cannot be read. -/
theorem exec_missingTargets (hvisible : canRead C.strict C.agentMode memory options = .ok true)
    (ids missing : List String) (w : World) :
    ∃ u, (ids.foldlM (missingTarget C options tenant) missing).exec (handle C E) w =
      (.ok (missing ++ ids.filter fun rid => !isTarget C options tenant w.tables rid), u) ∧ Same u w := by
  induction ids generalizing missing w with
  | nil => exact ⟨w, by simp, rfl, rfl⟩
  | cons rid ids ih =>
    obtain ⟨u, hu, hsame⟩ := ih (missing ++ if isTarget C options tenant w.tables rid then [] else [rid])
      w.tick
    refine ⟨u, ?_, hsame.tables, hsame.writes⟩
    rw [List.foldlM_cons, exec_bind, exec_missingTarget hvisible, continued_ok, hu]
    have htables : w.tick.tables = w.tables := rfl
    rw [htables, List.filter_cons]
    cases isTarget C options tenant w.tables rid <;> simp

theorem existing_of_get {s : Tables} (h : Sqlite.get s.memories id tenant = some memory)
    (patch : Patch) : ∃ row, rowToMemory row = some memory ∧ memory.id = id ∧
      s.existing (patch.over memory) {} tenant = .ok row := by
  obtain ⟨row, hrow, hmemory⟩ := Option.bind_eq_some_iff.mp h
  obtain ⟨hget, hwhere⟩ := Option.filter_eq_some_iff.mp hrow
  have hid : memory.id = id := (Sqlite.Serial.id_of_read hmemory).trans (Table.key_of_get hget)
  have hbelongs : tenant.all (Store.memoryBelongsToTenant (patch.over memory)) = true := by
    cases tenant with
    | none => rfl
    | some t =>
      rw [Sqlite.Serial.tenantWhere_eq_belongs hmemory, Bool.and_eq_true, Bool.and_eq_true,
        Bool.and_eq_true] at hwhere
      exact hwhere.1.1.1
  have hlegacy : (tenant.isNone && (Store.truthy (patch.over memory).tenantId).isSome) = false := by
    cases tenant with
    | none =>
      have hnone : memory.tenantId = none :=
        (Sqlite.Serial.dims_of_read hmemory).1.trans (of_decide_eq_true hwhere)
      have hpatched : (patch.over memory).tenantId = none := hnone
      rw [hpatched]
      rfl
    | some t => rfl
  have hselected : Sqlite.selected s.memories (patch.over memory).id tenant = some row := by
    have hpatched : (patch.over memory).id = id := hid
    rw [hpatched]
    exact hrow
  refine ⟨row, hmemory, hid, ?_⟩
  simp only [Tables.existing, hbelongs, hlegacy, hselected]
  rfl

/-- What is read can be written back with other edges. -/
theorem update_read {s : Tables} (now : ℤ) (h : Sqlite.get s.memories id tenant = some memory)
    (edges : Option (List Relation)) : ∃ m t, Tables.update C.backend s now
      (({ relations := some edges } : Patch).over memory) {} tenant = (.ok m, t) ∧
      ∃ row : Row, row.relations = edges.getD [] ∧
        ∀ k, t.memories.get k = if k = id then some row else s.memories.get k := by
  obtain ⟨row, hmemory, hid, hexisting⟩ := existing_of_get h { relations := some edges }
  rcases hupdate : Tables.update C.backend s now
    (({ relations := some edges } : Patch).over memory) {} tenant with ⟨r, t⟩
  obtain ⟨e, herror, -, -⟩ | ⟨row', hrow', -, -, hcases⟩ := Tables.update_cases hupdate
  · rw [hexisting] at herror
    cases herror
  · obtain rfl : row = row' := Except.ok.inj (hexisting.symm.trans hrow')
    obtain ⟨-, rfl⟩ := rowToMemory_eq_some.mp hmemory
    have hchecks : Sqlite.Serial.checks (setUpdated C.backend.platform (updatedOver C.backend now row
        (({ relations := some edges } : Patch).over (memoryOf row))) row) = true := by
      have himportance : 1 ≤ min 5 (max 1 row.importance) ∧ min 5 (max 1 row.importance) ≤ 5 := by omega
      have hconfidence : 0 ≤ min 1 (max 0 row.confidence) ∧ min 1 (max 0 row.confidence) ≤ 1 :=
        ⟨le_min zero_le_one (le_max_left 0 _), min_le_left _ _⟩
      exact Bool.and_eq_true_iff.mpr ⟨Bool.and_eq_true_iff.mpr ⟨Bool.and_eq_true_iff.mpr
        ⟨decide_eq_true himportance.1, decide_eq_true himportance.2⟩, decide_eq_true hconfidence.1⟩,
        decide_eq_true hconfidence.2⟩
    rcases hcases with ⟨hno, -, -⟩ | ⟨-, rfl, hget, -⟩
    · rw [hchecks] at hno
      cases hno
    · subst hid
      refine ⟨_, t, rfl, _, ?_, hget⟩
      rfl

/-- `writeEdges` leaves the edges that it is given, and writes nothing where none has changed. -/
theorem exec_writeEdges (h : Sqlite.get w.tables.memories id tenant = some memory)
    (edges : List Relation × List String) (hedges : edges.2 = [] → edges.1 = edgesAt w id) :
    ∃ u, (writeEdges memory tenant edges).exec (handle C E) w = (.ok (), u) ∧ edgesAt u id = edges.1 ∧
      (∀ k, k ≠ id → u.tables.memories.get k = w.tables.memories.get k) ∧ (edges.2 = [] → Same u w) := by
  unfold writeEdges
  split
  · rename_i hnone
    exact ⟨w, rfl, (hedges hnone).symm, fun _ _ => rfl, fun _ => ⟨rfl, rfl⟩⟩
  · rename_i hsome
    obtain ⟨m, t, hupdate, row, hrow, hget⟩ := update_read (C := C) (E.writeClock w.writes) h
      (if edges.1 = [] then none else some edges.1)
    refine ⟨w.written t, ?_, ?_, ?_, fun hnone => absurd hnone hsome⟩
    · have hanswer : (Act.update memory { relations := some (if edges.1 = [] then none else some edges.1) } {}
          tenant).exec (handle C E) w = (.ok m, w.written t) := by
        have hhandle : handle C E (.update memory
            { relations := some (if edges.1 = [] then none else some edges.1) } {} tenant) w =
              (.ok m, w.written t) := by
          simp only [handle, hupdate]
          rfl
        rw [Act.update, exec_bind]
        unfold Act.ask
        rw [exec_request, hhandle, continued_ok]
        rfl
      rw [exec_bind, hanswer]
      rfl
    · have hrow' : (w.written t).tables.memories.get id = some row := by
        exact (hget id).trans (if_pos rfl)
      rw [edgesAt, hrow', Option.map_some, Option.getD_some, hrow]
      split
      · rename_i hnil
        exact hnil.symm
      · rfl
    · intro k hk
      exact (hget k).trans (if_neg hk)

/-- A call with a target that cannot be read, or with the source among its targets, changes nothing; every
    other one leaves the edges of `relatedEdges`. -/
theorem exec_relate {i : RelateInput} (h : MayRelate C E options w i.id tenant memory)
    (hi : acceptsRelate i = true) :
    (i.id ∈ i.related ∨ (∃ rid ∈ i.related, isTarget C options tenant w.tables rid = false)) ∧
      (∃ e u, (relate C i options).exec (handle C E) w = (.error e, u) ∧ Same u w) ∨
    (i.id ∉ i.related ∧ ∀ rid ∈ i.related, isTarget C options tenant w.tables rid = true) ∧
      ∃ u, (relate C i options).exec (handle C E) w = (.ok (relatedEdges i (edgesAt w i.id)), u) ∧
        edgesAt u i.id = (relatedEdges i (edgesAt w i.id)).1 ∧
        (∀ k, k ≠ i.id → u.tables.memories.get k = w.tables.memories.get k) := by
  obtain ⟨⟨w₁, hfilter⟩, hfound, hvisible⟩ := h
  have hsame : Same w₁ w := same_of_exec (only_freshTenantFilter C (fun _ h _ => h) ..) hfilter
  have hread : (assertCanRead C (some memory) i.id options).exec (handle C E) w₁.tick =
      (.ok memory, w₁.tick) := by
    simp [assertCanRead, exec_bind, exec_ofRefusal, hvisible, Except.mapError, Act.ensure]
  have hpass : ∀ (code : ErrorCode) (message : String) (v : World),
      (Act.ensure true code message).exec (handle C E) v = (.ok (), v) := fun _ _ _ => rfl
  have hstop : ∀ (code : ErrorCode) (message : String) (v : World),
      (Act.ensure false code message).exec (handle C E) v = (.error (.error ⟨code, message⟩), v) :=
    fun _ _ _ => rfl
  have htables : w₁.tick.tables = w.tables := hsame.tables
  unfold relate
  rw [hi, exec_bind, hpass, continued_ok, exec_bind, hfilter, continued_ok, exec_bind, exec_get,
    continued_ok, hsame.tables, hfound, exec_bind, hread, continued_ok, exec_bind]
  by_cases hself : i.id ∈ i.related
  · rw [decide_eq_false (not_not.mpr hself), hstop, continued_error]
    exact .inl ⟨.inl hself, _, _, rfl, hsame.tables, hsame.writes⟩
  obtain ⟨u, hmissing, husame⟩ := exec_missingTargets E tenant hvisible i.related []
    w₁.tick
  rw [decide_eq_true hself, hpass, continued_ok, exec_bind, hmissing, continued_ok, exec_bind, htables,
    List.nil_append]
  have hu : Same u w := husame.trans ⟨hsame.tables, hsame.writes⟩
  by_cases hall : ∀ rid ∈ i.related, isTarget C options tenant w.tables rid = true
  · have hnil : (i.related.filter fun rid => !isTarget C options tenant w.tables rid) = [] := by
      simpa using hall
    have hget : Sqlite.get u.tables.memories i.id tenant = some memory := by rw [hu.tables, hfound]
    have hedges : memory.relations.getD [] = edgesAt u i.id := (edgesAt_of_get hget).symm
    have hsameEdges : edgesAt u i.id = edgesAt w i.id := by rw [edgesAt, edgesAt, hu.tables]
    obtain ⟨v, hwrite, hafter, hframe, -⟩ := exec_writeEdges (C := C) (E := E) hget
      (relatedEdges i (edgesAt w i.id)) fun hnone => by
        rw [relatedEdges_unchanged hnone, hsameEdges]
    rw [hnil, decide_eq_true rfl, hpass, continued_ok, exec_bind, hedges, hsameEdges, hwrite, continued_ok]
    exact .inr ⟨⟨hself, hall⟩, v, rfl, hafter, fun k hk => by rw [hframe k hk, hu.tables]⟩
  · obtain ⟨rid, hrid, htarget⟩ : ∃ rid ∈ i.related, isTarget C options tenant w.tables rid = false := by
      simpa using hall
    have hne : ¬ (i.related.filter fun rid => !isTarget C options tenant w.tables rid) = [] := by
      intro hnil
      have := List.filter_eq_nil_iff.mp hnil rid hrid
      simp [htarget] at this
    rw [decide_eq_false hne, hstop, continued_error]
    exact .inl ⟨.inr ⟨rid, hrid, htarget⟩, _, _, rfl, hu⟩

/-- What only reads first leaves it to what comes after it whether something changes. -/
theorem same_bind {α β : Type} {p : Act α} {f : α → Act β} (hp : p.Only Ask.Reads)
    (hf : ∀ a u, p.exec (handle C E) w = (.ok a, u) → Same ((f a).exec (handle C E) u).2 u) :
    Same ((p >>= f).exec (handle C E) w).2 w := by
  rw [exec_bind]
  rcases hexec : p.exec (handle C E) w with ⟨e | a, u⟩
  · exact same_of_exec hp hexec
  · exact (hf a u hexec).trans (same_of_exec hp hexec)

theorem assertCanRead_eq_ok {found : Option Memory}
    (h : (assertCanRead C found id options).exec (handle C E) w = (.ok memory, u)) :
    found = some memory ∧ canRead C.strict C.agentMode memory options = .ok true := by
  cases found with
  | none => cases h
  | some m =>
    obtain ⟨visible, v, hvisible, h⟩ := (exec_bind_eq_ok _).mp h
    obtain ⟨hread, rfl⟩ := exec_ofRefusal_eq_ok.mp hvisible
    cases visible with
    | true =>
      cases h
      exact ⟨rfl, hread⟩
    | false => cases h

theorem only_missingTarget (missing : List String) (rid : String) :
    (missingTarget C options tenant missing rid).Only Ask.Reads := by
  refine only_bind (only_request.mpr trivial) fun found => ?_
  cases found with
  | none => trivial
  | some target => exact only_bind (only_ofRefusal _) fun _ => trivial

/-- A call that would change no edge changes nothing at all. -/
theorem same_relate {i : RelateInput} (h : (relatedEdges i (edgesAt w i.id)).2 = []) :
    Same ((relate C i options).exec (handle C E) w).2 w := by
  refine same_bind (only_ensure _ _ _) fun _ w₁ h₁ => ?_
  refine same_bind (only_freshTenantFilter C (fun _ h _ => h) ..) fun tenant w₂ h₂ => ?_
  refine same_bind (only_request.mpr trivial) fun found w₃ h₃ => ?_
  refine same_bind (only_assertCanRead C _ _ _) fun memory w₄ h₄ => ?_
  refine same_bind (only_ensure _ _ _) fun _ w₅ h₅ => ?_
  refine same_bind (only_foldlM only_missingTarget _ _) fun missing w₆ h₆ => ?_
  refine same_bind (only_ensure _ _ _) fun _ w₇ h₇ => ?_
  have hw₂ : Same w₂ w := (same_of_exec (only_freshTenantFilter C (fun _ h _ => h) ..) h₂).trans
    (same_of_exec (only_ensure _ _ _) h₁)
  have hfound : Sqlite.get w.tables.memories i.id tenant = some memory := by
    obtain ⟨hmemory, -⟩ := assertCanRead_eq_ok h₄
    rw [hmemory] at h₃
    rw [← hw₂.tables]
    exact Except.ok.inj (Prod.mk.inj h₃).1
  have hnone : (relatedEdges i (memory.relations.getD [])).2 = [] := by
    rw [← edgesAt_of_get hfound]
    exact h
  have hwrite : writeEdges memory tenant (relatedEdges i (memory.relations.getD [])) = pure () :=
    if_pos hnone
  change Same ((writeEdges memory tenant (relatedEdges i (memory.relations.getD [])) >>= fun _ =>
    pure (relatedEdges i (memory.relations.getD []))).exec (handle C E) w₇).2 w₇
  rw [hwrite]
  exact ⟨rfl, rfl⟩

/-- A call that succeeds is one of a caller who may read the source. -/
theorem mayRelate_of_exec {i : RelateInput} {r : List Relation × List String}
    (h : (relate C i options).exec (handle C E) w = (.ok r, u)) :
    acceptsRelate i = true ∧ ∃ tenant memory, MayRelate C E options w i.id tenant memory := by
  obtain ⟨_, w₁, h₁, h⟩ := (exec_bind_eq_ok _).mp h
  obtain ⟨tenant, w₂, h₂, h⟩ := (exec_bind_eq_ok _).mp h
  obtain ⟨found, w₃, h₃, h⟩ := (exec_bind_eq_ok _).mp h
  obtain ⟨memory, w₄, h₄, -⟩ := (exec_bind_eq_ok _).mp h
  have haccepts : acceptsRelate i = true ∧ w₁ = w := by
    cases hi : acceptsRelate i with
    | true =>
      rw [hi] at h₁
      cases h₁
      exact ⟨rfl, rfl⟩
    | false =>
      rw [hi] at h₁
      cases h₁
  obtain ⟨hi, rfl⟩ := haccepts
  obtain ⟨hmemory, hvisible⟩ := assertCanRead_eq_ok h₄
  refine ⟨hi, tenant, memory, ⟨w₂, h₂⟩, ?_, hvisible⟩
  rw [hmemory] at h₃
  rw [← (same_of_exec (only_freshTenantFilter C (fun _ h _ => h) ..) h₂).tables]
  exact Except.ok.inj (Prod.mk.inj h₃).1

/-- The filter of a call is the one that the caller's options give. -/
theorem MayRelate.tenant_eq {w' : World} {id' : String} {tenant' : Option TenantFilter} {memory' : Memory}
    (h : MayRelate C E options w id tenant memory) (h' : MayRelate C E options w' id' tenant' memory') :
    tenant = tenant' := by
  obtain ⟨_, hfilter⟩ := h.filter
  obtain ⟨_, hfilter'⟩ := h'.filter
  exact Except.ok.inj ((tenantFilter_of_exec hfilter).symm.trans (tenantFilter_of_exec hfilter'))

theorem relate_again {i : RelateInput} {r : List Relation × List String}
    (h : (relate C i options).exec (handle C E) w = (.ok r, u)) :
    Same ((relate C i options).exec (handle C E) u).2 u := by
  obtain ⟨hi, tenant, memory, hmay⟩ := mayRelate_of_exec h
  rcases exec_relate hmay hi with ⟨-, e, v, hexec, -⟩ | ⟨-, v, hexec, hedges, -⟩
  · rw [hexec] at h
    cases h
  · rw [hexec] at h
    cases h
    refine same_relate ?_
    rw [hedges, relatedEdges_again]

/-! ### The laws -/

/-- What is said of the edges of a memory, for one caller and one state. -/
structure RelateLaws (C : Config) (E : Environment) (options : Options) (w : World) (id : String)
    (tenant : Option TenantFilter) : Prop where
  /-- Each listed target that is there gets one edge of the kind, and the other edges stay. -/
  add : ∀ related kind, acceptsRelate ⟨id, related, .add, kind⟩ = true → id ∉ related →
    (∀ rid ∈ related, isTarget C options tenant w.tables rid = true) →
    ∃ r u, (relate C ⟨id, related, .add, kind⟩ options).exec (handle C E) w = (.ok r, u) ∧
      (∀ rid ∈ related, edgesTo (edgesAt u id) rid = [⟨rid, kind⟩]) ∧
      (edgesAt u id).filter (fun edge => edge.id ∉ related) =
        (edgesAt w id).filter fun edge => edge.id ∉ related
  /-- The same call a second time changes nothing and writes nothing. -/
  again : ∀ i, i.id = id → ∀ r u, (relate C i options).exec (handle C E) w = (.ok r, u) →
    Same ((relate C i options).exec (handle C E) u).2 u
  /-- Edges that the memory has can be removed. -/
  remove : ∀ related kind, acceptsRelate ⟨id, related, .remove, kind⟩ = true →
    (∀ rid ∈ related, rid ∈ (edgesAt w id).map Relation.id) →
    ∃ r u, (relate C ⟨id, related, .remove, kind⟩ options).exec (handle C E) w = (.ok r, u) ∧
      ∀ edge ∈ edgesAt u id, edge.id ∉ related
  /-- What was added can be removed again, and then the edges are what they were. -/
  undo : ∀ related kind kind', (∀ rid ∈ related, rid ∉ (edgesAt w id).map Relation.id) →
    ∀ r u, (relate C ⟨id, related, .add, kind⟩ options).exec (handle C E) w = (.ok r, u) →
      (∃ tenant' memory', MayRelate C E options u id tenant' memory') →
      ∃ r' v, (relate C ⟨id, related, .remove, kind'⟩ options).exec (handle C E) u = (.ok r', v) ∧
        edgesAt v id = edgesAt w id

/-- No two edges lead to a target that can be listed, and every edge that can be listed leads to another
    memory that the caller can read. -/
structure MapLike (C : Config) (options : Options) (w : World) (id : String)
    (tenant : Option TenantFilter) : Prop where
  single : ∀ rid, rid ≠ "" → rid ≠ id → isTarget C options tenant w.tables rid = true →
    (edgesTo (edgesAt w id) rid).length ≤ 1
  live : ∀ edge ∈ edgesAt w id, edge.id ≠ "" →
    edge.id ≠ id ∧ isTarget C options tenant w.tables edge.id = true

theorem isTarget_of_frame {s t : Tables} (h : s.memories.get rid = t.memories.get rid) :
    isTarget C options tenant s rid = isTarget C options tenant t rid := by
  rw [isTarget, isTarget, Sqlite.get, Sqlite.get, h]

theorem accepts_singleton (action : RelateAction) (kind : RelationKind) (h : rid ≠ "") :
    acceptsRelate ⟨id, [rid], action, kind⟩ = true := by
  simp [acceptsRelate, h]

theorem relateLaws_of_mapLike (h : MayRelate C E options w id tenant memory)
    (hmap : MapLike C options w id tenant) : RelateLaws C E options w id tenant := by
  have hnonempty : ∀ {i : RelateInput}, acceptsRelate i = true → ∀ rid ∈ i.related, rid ≠ "" := by
    intro i hi rid hrid
    simp only [acceptsRelate, Bool.and_eq_true, List.all_eq_true, decide_eq_true_eq] at hi
    exact hi.2 rid hrid
  refine ⟨?_, fun i _ r u hexec => relate_again hexec, ?_, ?_⟩
  · intro related kind hi hself htargets
    rcases exec_relate (i := ⟨id, related, .add, kind⟩) h hi with ⟨hbad, -⟩ | ⟨-, u, hexec, hedges, -⟩
    · rcases hbad with hbad | ⟨rid, hrid, hbad⟩
      · exact absurd hbad hself
      · rw [htargets rid hrid] at hbad
        cases hbad
    · refine ⟨_, u, hexec, fun rid hrid => ?_, ?_⟩
      · have hsingle := hmap.single rid (hnonempty hi rid hrid) (fun heq => hself (heq ▸ hrid))
          (htargets rid hrid)
        have htail : (edgesTo (edgesAt w id) rid).tail = [] := by
          rw [← List.length_eq_zero_iff, List.length_tail]
          omega
        rw [hedges]
        exact (edgesTo_addEdges _ hrid).trans (by rw [htail])
      · rw [hedges]
        exact filter_addEdges (p := fun rid => rid ∉ related) (by simp)
  · intro related kind hi hlisted
    rcases exec_relate (i := ⟨id, related, .remove, kind⟩) h hi with ⟨hbad, -⟩ | ⟨-, u, hexec, hedges, -⟩
    · have hlive : ∀ rid ∈ related, rid ≠ id ∧ isTarget C options tenant w.tables rid = true := by
        intro rid hrid
        obtain ⟨edge, hedge, rfl⟩ := List.mem_map.mp (hlisted rid hrid)
        exact hmap.live edge hedge (hnonempty hi _ hrid)
      rcases hbad with hbad | ⟨rid, hrid, hbad⟩
      · exact absurd rfl (hlive id hbad).1
      · rw [(hlive rid hrid).2] at hbad
        cases hbad
    · refine ⟨_, u, hexec, fun edge hedge => ?_⟩
      rw [hedges] at hedge
      simpa using (List.mem_filter.mp hedge).2
  · intro related kind kind' hnew r u hexec hmay
    obtain ⟨tenant', memory', hmay⟩ := hmay
    obtain rfl := h.tenant_eq hmay
    obtain ⟨hi, -⟩ := mayRelate_of_exec hexec
    rcases exec_relate (i := ⟨id, related, .add, kind⟩) h hi with ⟨-, e, v, hexec', -⟩ |
      ⟨⟨hself, htargets⟩, v, hexec', hedges, hframe⟩
    · rw [hexec'] at hexec
      cases hexec
    rw [hexec'] at hexec
    cases hexec
    rcases exec_relate (i := ⟨id, related, .remove, kind'⟩) hmay hi with ⟨hbad, -⟩ |
      ⟨-, x, hremove, hremoved, -⟩
    · rcases hbad with hbad | ⟨rid, hrid, hbad⟩
      · exact absurd hbad hself
      · have hne : rid ≠ id := fun heq => hself (heq ▸ hrid)
        rw [isTarget_of_frame (hframe rid hne), htargets rid hrid] at hbad
        cases hbad
    · refine ⟨_, x, hremove, ?_⟩
      rw [hremoved, hedges]
      have hkept : (relatedEdges ⟨id, related, .add, kind⟩ (edgesAt w id)).1.filter
          (fun edge => edge.id ∉ related) = (edgesAt w id).filter fun edge => edge.id ∉ related :=
        filter_addEdges (p := fun rid => rid ∉ related) (by simp)
      refine hkept.trans (List.filter_eq_self.mpr fun edge hedge => ?_)
      exact decide_eq_true fun hlisted => hnew edge.id hlisted (List.mem_map_of_mem hedge)

theorem mapLike_of_relateLaws (h : MayRelate C E options w id tenant memory)
    (hlaws : RelateLaws C E options w id tenant) : MapLike C options w id tenant := by
  refine ⟨fun rid hne hother htarget => ?_, fun edge hedge hne => ?_⟩
  · have hi : acceptsRelate ⟨id, [rid], .add, .related⟩ = true := accepts_singleton _ _ hne
    obtain ⟨r, u, hexec, hone, -⟩ := hlaws.add [rid] .related hi (by simpa using Ne.symm hother)
      (by simpa using htarget)
    rcases exec_relate (i := ⟨id, [rid], .add, .related⟩) h hi with ⟨-, e, v, hexec', -⟩ |
      ⟨-, v, hexec', hedges, -⟩
    · rw [hexec'] at hexec
      cases hexec
    · rw [hexec'] at hexec
      cases hexec
      have hedge := hone rid List.mem_cons_self
      rw [hedges] at hedge
      have htail := (edgesTo_addEdges .related (s := (edgesAt w id, []))
        (List.mem_singleton_self rid)).symm.trans hedge
      have hlength := congrArg List.length htail
      simp only [List.length_cons, List.length_tail, List.length_nil] at hlength
      omega
  · have hi : acceptsRelate ⟨id, [edge.id], .remove, .related⟩ = true := accepts_singleton _ _ hne
    obtain ⟨r, u, hexec, -⟩ := hlaws.remove [edge.id] .related hi
      (by simpa using ⟨edge, hedge, rfl⟩)
    rcases exec_relate (i := ⟨id, [edge.id], .remove, .related⟩) h hi with ⟨-, e, v, hexec', -⟩ |
      ⟨⟨hself, htargets⟩, -⟩
    · rw [hexec'] at hexec
      cases hexec
    · exact ⟨fun heq => hself (by simp [heq]), htargets edge.id List.mem_cons_self⟩

/-- In any state, and for any caller who may read the memory, the edges are a map from targets to kinds
    exactly where no target has two of them and every one of them leads to another memory that the caller
    can read. -/
theorem relateLaws_iff (h : MayRelate C E options w id tenant memory) :
    RelateLaws C E options w id tenant ↔ MapLike C options w id tenant :=
  ⟨mapLike_of_relateLaws h, relateLaws_of_mapLike h⟩

end Call

/-! ### A target that is gone -/

/-- The world after some calls, made one after another. -/
def afterCalls (operations : List Operation) : World :=
  operations.foldl (fun w operation => ((operation.program plainConfig).exec (handle plainConfig steady) w).2)
    { tables := {}, manifest := { id := "local", privacy := .isLocal, maxSensitivity := .internal } }

/-- Two memories. -/
def twoNotes : List Operation := [
  .store { type := .fact, content := "tea at five" } {},
  .store { type := .fact, content := "the kettle is broken" } {}]

/-- The first one is related to the second, which is then forgotten. -/
def targetGone : List Operation :=
  twoNotes ++ [.relate { id := "m-0", related := ["m-1"] } {}, .forget "m-1" {}]

/-- A caller without a tenant may read every memory that is there. -/
theorem mayRelate_of_isSome (w : World) (id : String)
    (hfound : (Sqlite.get w.tables.memories id none).isSome = true) :
    ∃ memory, MayRelate plainConfig steady {} w id none memory := by
  obtain ⟨memory, hmemory⟩ := Option.isSome_iff_exists.mp hfound
  exact ⟨memory, ⟨_, rfl⟩, hmemory, canRead_legacy memory {} rfl⟩

/-- Between two memories without edges the laws hold. -/
theorem relateLaws_twoNotes : RelateLaws plainConfig steady {} (afterCalls twoNotes) "m-0" none := by
  have hedges : edgesAt (afterCalls twoNotes) "m-0" = [] := by decide +kernel
  obtain ⟨memory, hmay⟩ := mayRelate_of_isSome (afterCalls twoNotes) "m-0" (by decide +kernel)
  refine (relateLaws_iff hmay).mpr ⟨fun rid _ _ _ => ?_, fun edge hedge => ?_⟩
  · rw [hedges]
    exact Nat.zero_le 1
  · rw [hedges] at hedge
    cases hedge

/-- An edge to a memory that was forgotten stays, and cannot be removed. -/
theorem not_relateLaws_targetGone :
    (∃ memory, MayRelate plainConfig steady {} (afterCalls targetGone) "m-0" none memory) ∧
      ¬ RelateLaws plainConfig steady {} (afterCalls targetGone) "m-0" none := by
  refine ⟨mayRelate_of_isSome _ _ (by decide +kernel), fun h => ?_⟩
  have hedges : (edgesAt (afterCalls targetGone) "m-0").map Relation.id = ["m-1"] := by decide +kernel
  obtain ⟨r, u, hexec, -⟩ := h.remove ["m-1"] .related (by decide) fun rid hrid => hedges ▸ hrid
  have hfails : ((relate plainConfig ⟨"m-0", ["m-1"], .remove, .related⟩ {}).exec
      (handle plainConfig steady) (afterCalls targetGone)).1.isOk = false := by decide +kernel
  rw [hexec] at hfails
  cases hfails

end Remembra.Service
