import Remembra.Lib.Linearization
import Remembra.Tenant.Entities

/-! Concurrent administration. A call takes effect with its mutation, or with its check when that refuses
    it. It does so as it would alone where the check, made again then, still asks for the same mutation;
    and what it wrote has to be there when it is read back. Runs of such steps are linearizable
    (`linearizable`), and whatever else is under way, a call that nothing comes in between is such a run
    and ends as it does alone (`uninterrupted`). The checks of two creations of one user that both come
    first let both of them succeed (`created_twice`). -/

namespace Remembra.Tenant
open InMemoryTenantDirectory Transition

/-! ### What is to be seen of a call -/

/-- What came of it, once it has taken effect. -/
def EntityPhase.outcome : EntityPhase → Option (Except RemembraError Unit)
  | .checking | .mutating _ => none
  | .reading | .auditing _ => some (.ok ())
  | .settled result => some (result.map fun _ => ())

def EntityRun.occurrence (r : EntityRun) : Occurrence ℕ EntityCall (Except RemembraError Unit) :=
  ⟨r.call, r.phase.outcome, r.earlier⟩

def EntityService.view (s : EntityService) (i : ℕ) :
    Option (Occurrence ℕ EntityCall (Except RemembraError Unit)) :=
  (s.calls[i]?).map EntityRun.occurrence

/-- Calls one after the other explain what came of the calls and the directory they left. -/
def Linearizable (start : InMemoryTenantDirectory) (s : EntityService) : Prop :=
  ∃ order, Linearizes EntityCall.alone start s.view s.directory order

/-- The check that a mutation rests on still says the same, and what is read back is still there. -/
def EntityMeets (s : EntityService) : EntityEvent → Prop
  | .begin _ _ _ => True
  | .advance i => ∀ r ∈ s.calls[i]?, match r.phase with
    | .mutating m => r.call.operation.check s.directory.snapshot r.call.organizationId.1 = .ok m
    | .reading =>
      (r.call.operation.entity s.directory.snapshot r.call.organizationId.1).isSome = true
    | _ => True

/-! ### Steps -/

section Steps
variable {s s' : EntityService} {d d' : InMemoryTenantDirectory} {call : EntityCall}
  {phase phase' : EntityPhase} {e : EntityEvent}

theorem entityStep_cases (h : entityStep s e = some s') :
    (∃ context operation parsed, e = .begin context operation parsed ∧
      authorizeAdmin s.directory context = .ok () ∧
      s' = { s with calls :=
        s.calls ++ [⟨⟨context.principal.organizationId, operation, parsed⟩, .checking, s.settledCalls⟩] }) ∨
    ∃ i r phase directory, e = .advance i ∧ s.calls[i]? = some r ∧
      r.call.next s.directory r.phase = some (phase, directory) ∧
      s' = { directory, calls := s.calls.set i { r with phase } } := by
  cases e with
  | begin context operation parsed =>
    simp only [entityStep] at h
    split at h
    · cases h
    · exact .inl ⟨context, operation, parsed, rfl, by assumption, (Option.some.inj h).symm⟩
  | advance i =>
    simp only [entityStep] at h
    split at h
    · cases h
    · rename_i r hr
      obtain ⟨⟨phase, directory⟩, hnext, hs⟩ := Option.map_eq_some_iff.mp h
      exact .inr ⟨i, r, phase, directory, rfl, hr, hnext, hs.symm⟩

/-- A current administrator is one of an organization that is there. -/
theorem knows_of_authorized {context : TenantContext} (h : authorizeAdmin d context = .ok ()) :
    d.Knows context.principal.organizationId.1 := by
  refine ⟨context.principal.organizationId.2, ?_⟩
  rw [authorizeAdmin] at h
  split at h
  · cases h
  · rename_i haccepted
    obtain ⟨r, hr, -⟩ := version_of_accepted ((Bool.not_eq_false _).mp haccepted)
    rw [Table.has, hr, Option.isSome_some]

/-- No call of the directory takes an organization away. -/
theorem knows_apply (h : Sound d) {o : String} (ho : d.Knows o) (m : Mutation) : (d.apply m).2.Knows o := by
  obtain ⟨r, hr⟩ := Option.isSome_iff_exists.mp ho.2
  obtain rfl : r.organizationId = o := Table.key_of_get hr
  obtain ⟨v, hv, -⟩ := version_step h hr m
  exact ⟨ho.1, by rw [Table.has, hv, Option.isSome_some]⟩

theorem getMembershipVersion_of_knows {o : String} (h : d.Knows o) :
    ∃ version, d.getMembershipVersion o = some version := by
  obtain ⟨r, hr⟩ := Option.isSome_iff_exists.mp h.2
  exact ⟨toString r.membershipVersion, by rw [getMembershipVersion, hr, Option.map_some]⟩

/-- The directory changes by a mutation only. -/
theorem next_directory (h : call.next d phase = some (phase', d')) :
    d' = d ∨ ∃ m, d' = (d.apply m).2 := by
  cases phase with
  | checking =>
    simp only [EntityCall.next] at h
    split at h <;> cases h <;> exact .inl rfl
  | mutating m =>
    simp only [EntityCall.next] at h
    split at h <;> cases h <;> exact .inr ⟨m, by simp [*]⟩
  | reading =>
    simp only [EntityCall.next] at h
    split at h <;> cases h <;> exact .inl rfl
  | auditing entity =>
    simp only [EntityCall.next] at h
    split at h <;> cases h <;> exact .inl rfl
  | settled result => cases h

/-- The step of a call: it takes effect as it would alone, or nothing is to be seen of it. -/
theorem next_cases (hknows : d.Knows call.organizationId.1)
    (hmutating : ∀ m, phase = .mutating m →
      call.operation.check d.snapshot call.organizationId.1 = .ok m)
    (hreading : phase = .reading →
      (call.operation.entity d.snapshot call.organizationId.1).isSome = true)
    (h : call.next d phase = some (phase', d')) :
    (phase.outcome = none ∧ phase'.outcome = some (call.alone d).1 ∧ d' = (call.alone d).2) ∨
      (phase'.outcome = phase.outcome ∧ d' = d) := by
  cases phase with
  | checking =>
    simp only [EntityCall.next] at h
    split at h <;> rename_i hcheck <;> cases h
    · exact .inl ⟨rfl, by simp [EntityCall.alone, hcheck, EntityPhase.outcome, Except.map],
        by simp [EntityCall.alone, hcheck]⟩
    · exact .inr ⟨rfl, rfl⟩
  | mutating m =>
    have halone : call.alone d = d.apply m := by rw [EntityCall.alone, hmutating m rfl]
    rw [halone]
    simp only [EntityCall.next] at h
    split at h <;> rename_i happly <;> cases h <;> rw [happly]
    · exact .inl ⟨rfl, rfl, rfl⟩
    · refine .inl ⟨rfl, ?_, rfl⟩
      split <;> rfl
  | reading =>
    obtain ⟨entity, hentity⟩ := Option.isSome_iff_exists.mp (hreading rfl)
    simp only [EntityCall.next, hentity] at h
    cases h
    exact .inr ⟨rfl, rfl⟩
  | auditing entity =>
    obtain ⟨version, hversion⟩ := getMembershipVersion_of_knows hknows
    simp only [EntityCall.next, hversion] at h
    cases h
    exact .inr ⟨rfl, rfl⟩
  | settled result => cases h

/-! ### Runs -/

/-- What the steps preserve. -/
structure EntityInv (start : InMemoryTenantDirectory) (s : EntityService) : Prop where
  sound : Sound s.directory
  knows : ∀ r ∈ s.calls, s.directory.Knows r.call.organizationId.1
  explained : Linearizable start s

theorem entityInv_init {start : InMemoryTenantDirectory} (h : Sound start) : EntityInv start ⟨start, []⟩ where
  sound := h
  knows := by simp
  explained := ⟨[], .nil fun i => by simp [EntityService.view]⟩

theorem mem_settledCalls {i : ℕ} (h : i ∈ s.settledCalls) :
    ∃ o, s.view i = some o ∧ o.outcome.isSome = true := by
  obtain ⟨-, hany⟩ := List.mem_filter.mp h
  obtain ⟨r, hr, hsettled⟩ := (Option.any_eq_true _ _).mp hany
  refine ⟨r.occurrence, by rw [EntityService.view, hr, Option.map_some], ?_⟩
  rw [EntityRun.occurrence]
  revert hsettled
  cases r.phase <;> simp [EntityPhase.isSettled, EntityPhase.outcome]

theorem view_getElem? (i : ℕ) : s.view i = (s.calls[i]?).map EntityRun.occurrence := rfl

/-- A call has begun. -/
theorem view_concat (r : EntityRun) (directory : InMemoryTenantDirectory) (i : ℕ) :
    EntityService.view ⟨directory, s.calls ++ [r]⟩ i = s.view i ∨
      s.view i = none ∧ EntityService.view ⟨directory, s.calls ++ [r]⟩ i = some r.occurrence := by
  rcases lt_trichotomy i s.calls.length with hi | rfl | hi
  · exact .inl (by simp only [view_getElem?, List.getElem?_append_left hi])
  · exact .inr (by simp [view_getElem?])
  · refine .inl ?_
    have hlen : (s.calls ++ [r]).length ≤ i := by
      rw [List.length_append, List.length_singleton]
      omega
    rw [view_getElem?, view_getElem?, List.getElem?_eq_none hi.le, List.getElem?_eq_none hlen]

/-- A call has gone on. -/
theorem view_set {i : ℕ} (hi : i < s.calls.length) (r : EntityRun) (directory : InMemoryTenantDirectory) :
    EntityService.view ⟨directory, s.calls.set i r⟩ = Function.update s.view i (some r.occurrence) := by
  funext j
  rcases eq_or_ne j i with rfl | hj
  · rw [Function.update_self, view_getElem?, List.getElem?_set_self hi, Option.map_some]
  · rw [Function.update_of_ne hj, view_getElem?, view_getElem?, List.getElem?_set_ne hj.symm]

theorem entityInv_begin {start : InMemoryTenantDirectory} (hinv : EntityInv start s)
    (hknows : s.directory.Knows call.organizationId.1) :
    EntityInv start { s with calls := s.calls ++ [⟨call, .checking, s.settledCalls⟩] } := by
  obtain ⟨order, hlin⟩ := hinv.explained
  refine ⟨hinv.sound, ?_, order, hlin.silent fun i => ?_⟩
  · intro r hr
    rcases List.mem_append.mp hr with hr | hr
    · exact hinv.knows r hr
    · rw [List.mem_singleton.mp hr]
      exact hknows
  · obtain hsame | ⟨hnone, hnew⟩ := view_concat (s := s) ⟨call, .checking, s.settledCalls⟩ s.directory i
    · exact .inl hsame
    · exact .inr ⟨hnone, _, hnew, rfl, fun j hj => hlin.mem_order.mpr (mem_settledCalls hj)⟩

theorem entityInv_advance {start : InMemoryTenantDirectory} (hinv : EntityInv start s) {i : ℕ}
    {r : EntityRun} (hr : s.calls[i]? = some r) (hmeets : EntityMeets s (.advance i))
    (hnext : r.call.next s.directory r.phase = some (phase, d)) :
    EntityInv start ⟨d, s.calls.set i { r with phase }⟩ := by
  obtain ⟨order, hlin⟩ := hinv.explained
  have hmem : r ∈ s.calls := List.mem_of_getElem? hr
  have hview : s.view i = some r.occurrence := by rw [view_getElem?, hr, Option.map_some]
  have hviews := view_set (List.getElem?_eq_some_iff.mp hr).1 { r with phase } d
  have hholds := hmeets r hr
  refine ⟨?_, ?_, ?_⟩
  · obtain rfl | ⟨m, rfl⟩ := next_directory hnext
    · exact hinv.sound
    · exact hinv.sound.apply m
  · intro r' hr'
    have hknows : s.directory.Knows r'.call.organizationId.1 := by
      rcases List.mem_or_eq_of_mem_set hr' with hold | rfl
      · exact hinv.knows r' hold
      · exact hinv.knows r hmem
    obtain rfl | ⟨m, rfl⟩ := next_directory hnext
    · exact hknows
    · exact knows_apply hinv.sound hknows m
  · obtain ⟨hnone, hsome, rfl⟩ | ⟨hsame, rfl⟩ := next_cases (hinv.knows r hmem)
      (fun m hm => by rw [hm] at hholds; exact hholds) (fun hm => by rw [hm] at hholds; exact hholds) hnext
    · refine ⟨_, hlin.effect hview hnone (hviews.trans ?_)⟩
      rw [EntityRun.occurrence, hsome]
      rfl
    · refine ⟨order, hlin.silent fun j => .inl ?_⟩
      have hoccurrence : EntityRun.occurrence { r with phase } = r.occurrence := by
        rw [EntityRun.occurrence, hsame]
        rfl
      rw [hviews, hoccurrence, ← hview, Function.update_eq_self]

/-- The step lemma. -/
theorem entityInv_step {start : InMemoryTenantDirectory} (hinv : EntityInv start s)
    (hmeets : EntityMeets s e) (h : entityStep s e = some s') : EntityInv start s' := by
  obtain ⟨context, operation, parsed, rfl, hadmin, rfl⟩ | ⟨i, r, phase, directory, rfl, hr, hnext, rfl⟩ :=
    entityStep_cases h
  · exact entityInv_begin hinv (knows_of_authorized hadmin)
  · exact entityInv_advance hinv hr hmeets hnext

end Steps

/-- Runs in which no other call comes in between a check and its mutation, or between a mutation and
    what is read back, in a way that matters. -/
theorem linearizable {start : InMemoryTenantDirectory} (hstart : Reached start) (run : List EntityEvent)
    (h : Along entityStep EntityMeets ⟨start, []⟩ run) :
    Everywhere entityStep (Linearizable start) ⟨start, []⟩ run :=
  everywhere_of_along (fun _ _ _ => entityInv_step) (fun _ hinv => hinv.explained) run
    (entityInv_init hstart.sound) h

/-! ### One call after the other -/

section Serial
variable {s : EntityService} {d : InMemoryTenantDirectory} {call : EntityCall} {o : String} {m : Mutation}

theorem createEntity_eq_ok {α : Type} {current : Option α} {kind : String} {mutation : Mutation} :
    createEntity current kind mutation = .ok m ↔ current = none ∧ mutation = m := by
  cases current <;> simp [createEntity]

theorem changeEntity_eq_ok {α : Type} {current : Option α} {kind : String} {mutation : α → Mutation} :
    changeEntity current kind mutation = .ok m ↔ ∃ row, current = some row ∧ mutation row = m := by
  cases current <;> simp [changeEntity]

/-- What a creation or an update has written is there. -/
theorem entity_written {operation : EntityOperation} (hreads : operation.readsBack = true)
    (h : operation.check d.snapshot o = .ok m) :
    (operation.entity (d.next m).snapshot o).isSome = true := by
  have horganization : ∀ {α : Type} {rows : List α} {p : α → Bool} {q : α → String} {row : α},
      rows.find? (fun a => decide (q a = o) && p a) = some row → q row = o := by
    intro α rows p q row hfind
    have hrow := List.find?_some hfind
    rw [Bool.and_eq_true, decide_eq_true_eq] at hrow
    exact hrow.1
  cases operation with
  | createUser | createProject | createAgent =>
    obtain ⟨-, rfl⟩ := createEntity_eq_ok.mp h
    rw [EntityOperation.entity, Option.isSome_map]
    exact List.find?_isSome.mpr ⟨_, Table.mem_upsert.mpr (.inl rfl), by simp⟩
  | updateUser | updateProject | updateAgent =>
    obtain ⟨row, hrow, rfl⟩ := changeEntity_eq_ok.mp h
    obtain rfl := horganization hrow
    rw [EntityOperation.entity, Option.isSome_map]
    exact List.find?_isSome.mpr ⟨_, Table.mem_upsert.mpr (.inl rfl), by simp⟩
  | deleteUser | deleteProject | deleteAgent => cases hreads

/-- The service with the call at a phase. -/
def EntityService.at (s : EntityService) (i : ℕ) (r : EntityRun) (phase : EntityPhase)
    (directory : InMemoryTenantDirectory) : EntityService :=
  ⟨directory, s.calls.set i { r with phase }⟩

/-- The call alone goes on, the condition met at every step, until this is the state. -/
def GoesTo (i : ℕ) (s t : EntityService) : Prop :=
  ∃ n, Along entityStep EntityMeets s (List.replicate n (.advance i)) ∧
    run entityStep s (List.replicate n (.advance i)) = some t

section Alone
variable {i : ℕ} {r : EntityRun} {phase phase' : EntityPhase} {d' : InMemoryTenantDirectory}

theorem GoesTo.here : GoesTo i s s := ⟨0, trivial, rfl⟩

theorem goesTo_next {t : EntityService} (hi : i < s.calls.length)
    (hmeets : match phase with
      | .mutating m => r.call.operation.check d.snapshot r.call.organizationId.1 = .ok m
      | .reading => (r.call.operation.entity d.snapshot r.call.organizationId.1).isSome = true
      | _ => True)
    (hnext : r.call.next d phase = some (phase', d')) (hrest : GoesTo i (s.at i r phase' d') t) :
    GoesTo i (s.at i r phase d) t := by
  have hat : (s.at i r phase d).calls[i]? = some { r with phase } := List.getElem?_set_self hi
  have hstep : entityStep (s.at i r phase d) (.advance i) = some (s.at i r phase' d') := by
    simp only [entityStep, hat]
    rw [show (s.at i r phase d).directory = d from rfl, hnext]
    simp [EntityService.at, List.set_set]
  have hholds : EntityMeets (s.at i r phase d) (.advance i) := by
    intro r' hr'
    obtain rfl := Option.some.inj (hat.symm.trans hr')
    exact hmeets
  obtain ⟨n, halong, hrun⟩ := hrest
  exact ⟨n + 1, along_cons hstep hholds halong, run_cons_some.mpr ⟨_, hstep, hrun⟩⟩

theorem goesTo_audited (hi : i < s.calls.length) (hknows : d.Knows r.call.organizationId.1)
    (entity : Option TenantEntity) :
    GoesTo i (s.at i r (.auditing entity) d) (s.at i r (.settled (.ok entity)) d) := by
  obtain ⟨version, hversion⟩ := getMembershipVersion_of_knows hknows
  refine goesTo_next hi trivial ?_ .here
  simp [EntityCall.next, hversion]

theorem goesTo_read (hi : i < s.calls.length) (hknows : d.Knows r.call.organizationId.1)
    (hentity : (r.call.operation.entity d.snapshot r.call.organizationId.1).isSome = true) :
    ∃ entity, GoesTo i (s.at i r .reading d) (s.at i r (.settled (.ok entity)) d) := by
  obtain ⟨entity, he⟩ := Option.isSome_iff_exists.mp hentity
  exact ⟨some entity, goesTo_next hi hentity (by simp [EntityCall.next, he])
    (goesTo_audited hi hknows (some entity))⟩

theorem goesTo_mutated (hsound : Sound d) (hi : i < s.calls.length)
    (hknows : d.Knows r.call.organizationId.1)
    (hcheck : r.call.operation.check d.snapshot r.call.organizationId.1 = .ok m) :
    ∃ result, GoesTo i (s.at i r (.mutating m) d) (s.at i r (.settled result) (d.apply m).2) ∧
      result.map (fun _ => ()) = (d.apply m).1 := by
  have hknows' := knows_apply hsound hknows m
  obtain ⟨-, he⟩ | ⟨-, e, he⟩ := hsound.apply_cases m
  · rw [he] at hknows' ⊢
    cases hreads : r.call.operation.readsBack with
    | true =>
      obtain ⟨entity, hend⟩ := goesTo_read hi hknows' (entity_written hreads hcheck)
      exact ⟨.ok entity, goesTo_next hi hcheck (by simp [EntityCall.next, he, hreads]) hend, rfl⟩
    | false =>
      exact ⟨.ok none, goesTo_next hi hcheck (by simp [EntityCall.next, he, hreads])
        (goesTo_audited hi hknows' none), rfl⟩
  · rw [he]
    exact ⟨.error e, goesTo_next hi hcheck (by simp [EntityCall.next, he]) .here, rfl⟩

/-- A call that nothing comes in between meets the condition, and ends as it does alone. -/
theorem goesTo_alone {earlier : List ℕ} (hsound : Sound s.directory)
    (hknows : s.directory.Knows call.organizationId.1)
    (hi : s.calls[i]? = some ⟨call, .checking, earlier⟩) :
    ∃ result, GoesTo i s (s.at i ⟨call, .checking, earlier⟩ (.settled result) (call.alone s.directory).2) ∧
      result.map (fun _ => ()) = (call.alone s.directory).1 := by
  obtain ⟨hlt, hget⟩ := List.getElem?_eq_some_iff.mp hi
  have hself : s.at i ⟨call, .checking, earlier⟩ .checking s.directory = s := by
    rw [EntityService.at, ← hget, List.set_getElem_self]
  cases hcheck : call.operation.check s.directory.snapshot call.organizationId.1 with
  | error e =>
    have hnext : call.next s.directory .checking = some (.settled (.error e), s.directory) := by
      simp only [EntityCall.next, hcheck]
    have hend := goesTo_next (r := ⟨call, .checking, earlier⟩) hlt trivial hnext .here
    rw [hself] at hend
    exact ⟨.error e, by rwa [EntityCall.alone, hcheck], by rw [EntityCall.alone, hcheck]; rfl⟩
  | ok m =>
    have hnext : call.next s.directory .checking = some (.mutating m, s.directory) := by
      simp only [EntityCall.next, hcheck]
    obtain ⟨result, hmutated, hresult⟩ :=
      goesTo_mutated (s := s) (r := ⟨call, .checking, earlier⟩) hsound hlt hknows hcheck
    have hend := goesTo_next (r := ⟨call, .checking, earlier⟩) hlt trivial hnext hmutated
    rw [hself] at hend
    exact ⟨result, by rwa [EntityCall.alone, hcheck], by rwa [EntityCall.alone, hcheck]⟩

end Alone

/-- A call of a current administrator, with others under way, that goes on alone once it has begun. -/
theorem uninterrupted (hsound : Sound s.directory) {context : TenantContext}
    (hadmin : authorizeAdmin s.directory context = .ok ()) (operation : EntityOperation)
    (parsed : operation.accepts = true) :
    let call : EntityCall := ⟨context.principal.organizationId, operation, parsed⟩
    ∃ n result,
      let events := .begin context operation parsed :: List.replicate n (.advance s.calls.length)
      Along entityStep EntityMeets s events ∧
        run entityStep s events = some
          ⟨(call.alone s.directory).2, s.calls ++ [⟨call, .settled result, s.settledCalls⟩]⟩ ∧
        result.map (fun _ => ()) = (call.alone s.directory).1 := by
  intro call
  have hbegin : entityStep s (.begin context operation parsed) =
      some ⟨s.directory, s.calls ++ [⟨call, .checking, s.settledCalls⟩]⟩ := by
    simp only [entityStep, hadmin]
    rfl
  have hi : (s.calls ++ [⟨call, .checking, s.settledCalls⟩])[s.calls.length]? =
      some ⟨call, .checking, s.settledCalls⟩ := List.getElem?_concat_length
  obtain ⟨result, ⟨n, halong, hrun⟩, hresult⟩ := goesTo_alone
    (s := ⟨s.directory, s.calls ++ [⟨call, .checking, s.settledCalls⟩]⟩) hsound
    (knows_of_authorized hadmin) hi
  refine ⟨n, result, along_cons hbegin trivial halong, run_cons_some.mpr ⟨_, hbegin, ?_⟩, hresult⟩
  rw [hrun, EntityService.at]
  simp

end Serial

/-! ### Two creations of one user -/

instance (s : EntityService) (e : EntityEvent) : Decidable (EntityMeets s e) :=
  match e with
  | .begin _ _ _ => .isTrue trivial
  | .advance i =>
    have : DecidablePred fun r : EntityRun => match r.phase with
      | .mutating m => r.call.operation.check s.directory.snapshot r.call.organizationId.1 = .ok m
      | .reading =>
        (r.call.operation.entity s.directory.snapshot r.call.organizationId.1).isSome = true
      | _ => True := fun r => by dsimp only; split <;> infer_instance
    inferInstanceAs (Decidable (∀ r ∈ s.calls[i]?, _))

/-- An organization with nobody in it. -/
def founded : InMemoryTenantDirectory := (InMemoryTenantDirectory.apply {} (.createOrganization "org-a")).2

/-- Its administrator, at its first version. -/
def administrator : TenantContext where
  principal :=
    { organizationId := ⟨"org-a", isValidTenantId_orgA⟩
      capabilities := [.read, .admin]
      membershipVersion := "1" }
  accepted := by decide

def userCreation : EntityCall :=
  ⟨administrator.principal.organizationId, .createUser { userId := "u" }, by decide⟩

/-- The creation begins. -/
def creates : EntityEvent := .begin administrator userCreation.operation userCreation.parsed

theorem uninterrupted_founded : ∃ n result, Along entityStep EntityMeets ⟨founded, []⟩
      (creates :: List.replicate n (.advance 0)) ∧
    run entityStep ⟨founded, []⟩ (creates :: List.replicate n (.advance 0)) = some
      ⟨(userCreation.alone founded).2, [⟨userCreation, .settled result, []⟩]⟩ ∧
    result.map (fun _ => ()) = (userCreation.alone founded).1 :=
  uninterrupted (s := ⟨founded, []⟩) (Reached.applied .fresh _).sound (by decide) _ _

theorem linearizable_founded : Everywhere entityStep (Linearizable founded) ⟨founded, []⟩
    [creates, creates, .advance 0, .advance 0, .advance 1, .advance 0, .advance 0] :=
  linearizable (.applied .fresh _) _ (by decide)

/-- Both look before either writes, and both succeed. -/
theorem created_twice : ¬ Everywhere entityStep (Linearizable founded) ⟨founded, []⟩
    [creates, creates, .advance 0, .advance 1, .advance 0, .advance 1, .advance 0, .advance 0,
      .advance 1, .advance 1] := by
  refine not_everywhere (fun s => s.calls.map EntityRun.occurrence =
    [⟨userCreation, some (.ok ()), []⟩, ⟨userCreation, some (.ok ()), []⟩]) (by decide) ?_
  rintro s hbad ⟨order, hlin⟩
  have hview : ∀ i, s.view i = ([⟨userCreation, some (.ok ()), []⟩,
      ⟨userCreation, some (.ok ()), []⟩] : List (Occurrence ℕ EntityCall (Except RemembraError Unit)))[i]? := by
    intro i
    rw [← of_decide_eq_true hbad, view_getElem?, List.getElem?_map]
  have hall : ∀ i o, s.view i = some o → o.call = userCreation ∧ o.outcome = some (.ok ()) := by
    intro i o hi
    rw [hview] at hi
    obtain rfl : o = ⟨userCreation, some (.ok ()), []⟩ := by simpa using List.mem_of_getElem? hi
    exact ⟨rfl, rfl⟩
  have hsecond := (hlin.repeated (i := 0) (j := 1) (by decide) (by rw [hview]; rfl) (by rw [hview]; rfl)
    hall).2
  exact absurd hsecond (by decide)

end Remembra.Tenant
