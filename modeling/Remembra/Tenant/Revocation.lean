import Remembra.Tenant.Integrity

/-! Taking access away. Every accepted mutator raises its organization's version, so a context of that
    organization is stale at once and for ever; what a removal takes away stays away until a mutator
    grants it again, whatever version a context carries; other organizations see nothing of it. A
    membership that is revoked leaves a second way into the project: through an agent that works in
    it (`agent_keeps_access`). -/

namespace Remembra.Tenant
open Store (TenantId isValidTenantId)
open Service (TenantCapability)
open Transition

namespace InMemoryTenantDirectory
variable {d d' : InMemoryTenantDirectory} {m : Mutation}

/-! ### Runs -/

/-- The calls made one after the other, refused or not. -/
def applyAll (d : InMemoryTenantDirectory) (run : List Mutation) : InMemoryTenantDirectory :=
  run.foldl (fun d m => (d.apply m).2) d

theorem applyAll_cons (m : Mutation) (run : List Mutation) :
    d.applyAll (m :: run) = (d.apply m).2.applyAll run := rfl

theorem applyAll_append (run run' : List Mutation) :
    d.applyAll (run ++ run') = (d.applyAll run).applyAll run' := List.foldl_append

theorem run_machine (run : List Mutation) : Transition.run machine d run = some (d.applyAll run) := by
  induction run generalizing d with
  | nil => rfl
  | cons m run ih =>
    rw [run_cons, applyAll_cons]
    exact ih

theorem Sound.applyAll (h : Sound d) (run : List Mutation) : Sound (d.applyAll run) := by
  refine reachable_induct ?_ h ⟨run, run_machine run⟩
  rintro d m d' hd hstep
  obtain rfl := Option.some.inj hstep
  exact hd.apply m

/-! ### The version of an organization -/

/-- What stands in place of an organization after the bump of one. -/
theorem get_bumped (o o' : String) : (d.bumped o).organizations.get o' =
    (d.organizations.get o').map fun r =>
      if r.organizationId = o then { r with membershipVersion := r.membershipVersion + 1 } else r :=
  Table.get_mapRows _ _ (fun r => by split <;> rfl) _

theorem changed_organizations (hcreate : ∀ o, m ≠ .createOrganization o) :
    (d.changed m).organizations = d.organizations := by
  cases m
  case createOrganization o => exact absurd rfl (hcreate o)
  all_goals rfl

/-- An organization stays, and its version rises with every accepted call that is for it. -/
theorem version_step (h : Sound d) {r : OrganizationRecord}
    (hr : d.organizations.get r.organizationId = some r) (m : Mutation) :
    ∃ v, (d.apply m).2.organizations.get r.organizationId = some ⟨r.organizationId, v⟩ ∧
      r.membershipVersion ≤ v ∧
      (m.organizationId = r.organizationId → (d.apply m).1 = .ok () → r.membershipVersion < v) := by
  obtain ⟨hm, he⟩ | ⟨-, e, he⟩ := h.apply_cases m <;> rw [he]
  · by_cases hcreate : ∀ o, m ≠ .createOrganization o
    · rw [next_of_ne_create hcreate, get_bumped, changed_organizations hcreate, hr, Option.map_some]
      split
      · exact ⟨_, rfl, by simp, fun _ _ => by simp⟩
      · rename_i hother
        exact ⟨_, rfl, le_rfl, fun ho => absurd ho.symm hother⟩
    · -- a new organization is another one
      push Not at hcreate
      obtain ⟨o, rfl⟩ := hcreate
      have hother : r.organizationId ≠ o := by
        rintro rfl
        simpa [Table.has, hr] using hm.2
      refine ⟨r.membershipVersion, ?_, le_rfl, fun ho => absurd ho.symm hother⟩
      exact (Table.get_upsert _ _ _).trans ((if_neg hother).trans hr)
  · exact ⟨r.membershipVersion, hr, le_rfl, fun _ hok => by cases hok⟩

theorem version_run (h : Sound d) {r : OrganizationRecord}
    (hr : d.organizations.get r.organizationId = some r) (run : List Mutation) :
    ∃ v, (d.applyAll run).organizations.get r.organizationId = some ⟨r.organizationId, v⟩ ∧
      r.membershipVersion ≤ v := by
  induction run generalizing d r with
  | nil => exact ⟨r.membershipVersion, hr, le_rfl⟩
  | cons m run ih =>
    obtain ⟨v, hv, hle, -⟩ := version_step h hr m
    obtain ⟨w, hw, hle'⟩ := ih (h.apply m) (r := ⟨r.organizationId, v⟩) hv
    exact ⟨w, hw, hle.trans hle'⟩

/-- A context is of the version that it was accepted with. -/
theorem version_of_accepted {context : TenantContext} (h : d.verifyContext context = true) :
    ∃ r, d.organizations.get context.principal.organizationId.1 = some r ∧
      toString r.membershipVersion = context.principal.membershipVersion := by
  simp only [verifyContext, Bool.and_eq_true, decide_eq_true_eq] at h
  obtain ⟨r, hr, hv⟩ := Option.map_eq_some_iff.mp h.1.1.1.1
  exact ⟨r, hr, hv⟩

/-! ### What a removal takes away -/

/-- What a context can be accepted through. -/
inductive Grant where
  | user (organizationId userId : TenantId)
  | project (organizationId projectId : TenantId)
  | agent (organizationId agentId : TenantId)
  | membership (organizationId projectId userId : TenantId)

/-- The mutators that take it away, the cascades included: a user's agents and memberships go with the
    user, a project's memberships with the project. -/
def Grant.removedBy (d : InMemoryTenantDirectory) : Grant → Mutation → Prop
  | .user o u, .removeUser o' u' => o' = o.1 ∧ u' = u.1
  | .project o p, .removeProject o' p' => o' = o.1 ∧ p' = p.1
  | .agent o a, .removeAgent o' a' => o' = o.1 ∧ a' = a.1
  | .agent o a, .removeUser o' u' => o' = o.1 ∧
      ∃ row ∈ d.agents.rows, row.organizationId = o.1 ∧ row.agentId = a.1 ∧ row.userId = some u'
  | .membership o p u, .revokeProjectMembership o' p' u' => o' = o.1 ∧ p' = p.1 ∧ u' = u.1
  | .membership o _ u, .removeUser o' u' => o' = o.1 ∧ u' = u.1
  | .membership o p _, .removeProject o' p' => o' = o.1 ∧ p' = p.1
  | _, _ => False

/-- The mutator that grants it again. -/
def Grant.restoredBy : Grant → Mutation → Prop
  | .user o u, .upsertUser row => row.organizationId = o.1 ∧ row.userId = u.1
  | .project o p, .upsertProject row => row.organizationId = o.1 ∧ row.projectId = p.1
  | .agent o a, .upsertAgent row => row.organizationId = o.1 ∧ row.agentId = a.1
  | .membership o p u, .grantProjectMembership o' p' u' _ => o' = o.1 ∧ p' = p.1 ∧ u' = u.1
  | _, _ => False

/-- The agent works in the project. -/
def works (d : InMemoryTenantDirectory) (organizationId projectId agentId : TenantId) : Prop :=
  ∃ r, d.projectAgents.get (key organizationId.1 agentId.1) = some r ∧ r.projectId = projectId.1

/-- The contexts that name it. A membership counts for a context that is no admin's and names no agent
    that works in the project. -/
def Grant.namedBy (d : InMemoryTenantDirectory) (context : TenantContext) : Grant → Prop
  | .user o u => context.principal.organizationId = o ∧ context.principal.userId = some u
  | .project o p => context.principal.organizationId = o ∧ context.principal.projectId = some p
  | .agent o a => context.principal.organizationId = o ∧ context.principal.agentId = some a
  | .membership o p u => context.principal.organizationId = o ∧
      context.principal.projectId = some p ∧ context.principal.userId = some u ∧
      TenantCapability.admin ∉ context.principal.capabilities ∧
      ∀ a, context.principal.agentId = some a → ¬ d.works o p a

/-- It is not there. -/
def Grant.absent (d : InMemoryTenantDirectory) : Grant → Prop
  | .user o u => d.users.has (key o.1 u.1) = false
  | .project o p => d.projects.has (key o.1 p.1) = false
  | .agent o a => d.agents.has (key o.1 a.1) = false
  | .membership o p u => d.projectMembers.has (membershipKey o.1 p.1 u.1) = false

/-- What is not there admits no context that names it. -/
theorem refused_of_absent {g : Grant} {context : TenantContext} (h : g.absent d)
    (hnamed : g.namedBy d context) : d.verifyContext context = false := by
  cases g with
  | user o u =>
    obtain ⟨rfl, hu⟩ := hnamed
    simp [verifyContext, hu, show d.users.has _ = false from h]
  | project o p =>
    obtain ⟨rfl, hp⟩ := hnamed
    simp [verifyContext, hp, show d.projects.has _ = false from h]
  | agent o a =>
    obtain ⟨rfl, ha⟩ := hnamed
    simp [verifyContext, ha, Table.has_eq_false.mp h]
  | membership o p u =>
    obtain ⟨rfl, hp, hu, hadmin, hworks⟩ := hnamed
    have hallowed : d.projectAllowed context.principal p = false := by
      rw [projectAllowed, Bool.or_eq_false_iff]
      refine ⟨?_, ?_⟩
      · rw [hu, Option.any_some]
        exact h
      · rw [Bool.eq_false_iff]
        intro hany
        obtain ⟨a, ha, hwork⟩ := (Option.any_eq_true _ _).mp hany
        obtain ⟨r, hr, hproject⟩ := (Option.any_eq_true _ _).mp hwork
        exact hworks a ha ⟨r, hr, of_decide_eq_true hproject⟩
    simp [verifyContext, hp, hallowed, hadmin]

theorem absent_bumped {g : Grant} {o : String} : g.absent (d.bumped o) ↔ g.absent d := by
  cases g <;> exact Iff.rfl

/-- Fewer rows, less that is there. -/
theorem absent_mono {g : Grant} (h : g.absent d) (husers : ∀ r ∈ d'.users.rows, r ∈ d.users.rows)
    (hprojects : ∀ r ∈ d'.projects.rows, r ∈ d.projects.rows)
    (hagents : ∀ k, d.agents.has k = false → d'.agents.has k = false)
    (hmembers : ∀ r ∈ d'.projectMembers.rows, r ∈ d.projectMembers.rows) : g.absent d' := by
  cases g with
  | user o u => exact Table.has_eq_false_of_subset husers h
  | project o p => exact Table.has_eq_false_of_subset hprojects h
  | agent o a => exact hagents _ h
  | membership o p u => exact Table.has_eq_false_of_subset hmembers h

/-- What is not there does not come back by itself. -/
theorem absent_changed {g : Grant} (h : g.absent d) (hm : d.Admissible m) (hnot : ¬ g.restoredBy m) :
    g.absent (d.changed m) := by
  cases m with
  | createOrganization o => cases g <;> exact h
  | upsertUser user =>
    cases g
    case user o u =>
      refine Table.has_upsert_of_ne h fun hkey => ?_
      obtain ⟨ho, hu⟩ := (key_inj o.2 hm.1.1).mp hkey
      exact hnot ⟨ho.symm, hu.symm⟩
    all_goals exact h
  | upsertProject project =>
    cases g
    case project o p =>
      refine Table.has_upsert_of_ne h fun hkey => ?_
      obtain ⟨ho, hp⟩ := (key_inj o.2 hm.1.1).mp hkey
      exact hnot ⟨ho.symm, hp.symm⟩
    all_goals exact h
  | upsertAgent agent =>
    cases g
    case agent o a =>
      refine Table.has_upsert_of_ne h fun hkey => ?_
      obtain ⟨ho, ha⟩ := (key_inj o.2 hm.1.1).mp hkey
      exact hnot ⟨ho.symm, ha.symm⟩
    all_goals exact h
  | grantProjectMembership o' p' u' role =>
    cases g
    case membership o p u =>
      refine Table.has_upsert_of_ne h fun hkey => ?_
      obtain ⟨ho, hp, hu⟩ := (membershipKey_inj o.2 p.2 u.2).mp hkey
      exact hnot ⟨ho.symm, hp.symm, hu.symm⟩
    all_goals exact h
  | removeUser o' u' =>
    exact absent_mono h (fun r hr => (Table.mem_erase.mp hr).1) (fun r hr => hr)
      (fun k => Table.has_eq_false_of_subset fun r hr => (Table.mem_deleteWhere.mp hr).1)
      (fun r hr => (Table.mem_deleteWhere.mp hr).1)
  | removeProject o' p' =>
    exact absent_mono h (fun r hr => hr) (fun r hr => (Table.mem_erase.mp hr).1)
      (fun k hk => (Table.has_mapRows _ _ (key_unassign o' p') k).trans hk) (fun r hr => (Table.mem_deleteWhere.mp hr).1)
  | removeAgent o' a' =>
    exact absent_mono h (fun r hr => hr) (fun r hr => hr)
      (fun k => Table.has_eq_false_of_subset fun r hr => (Table.mem_erase.mp hr).1) (fun r hr => hr)
  | revokeProjectMembership o' p' u' =>
    exact absent_mono h (fun r hr => hr) (fun r hr => hr) (fun k hk => hk)
      (fun r hr => (Table.mem_erase.mp hr).1)

/-- The step: it stays away unless the call is accepted and grants it. -/
theorem absent_apply (hd : Sound d) {g : Grant} (h : g.absent d)
    (hnot : ¬ (g.restoredBy m ∧ (d.apply m).1 = .ok ())) : g.absent (d.apply m).2 := by
  obtain ⟨hm, he⟩ | ⟨-, e, he⟩ := hd.apply_cases m <;> rw [he]
  · rw [he] at hnot
    have hchanged := absent_changed h hm fun hrestored => hnot ⟨hrestored, rfl⟩
    by_cases hcreate : ∀ o, m ≠ .createOrganization o
    · rw [next_of_ne_create hcreate]
      exact absent_bumped.mpr hchanged
    · push Not at hcreate
      obtain ⟨o, rfl⟩ := hcreate
      exact hchanged
  · exact h

/-- A removal takes it away. -/
theorem absent_of_removed {g : Grant} (hremoved : g.removedBy d m) :
    g.absent (d.changed m) := by
  cases g with
  | user o u =>
    cases m
    case removeUser o' u' =>
      obtain ⟨rfl, rfl⟩ := hremoved
      exact Table.has_erase_self ..
    all_goals exact hremoved.elim
  | project o p =>
    cases m
    case removeProject o' p' =>
      obtain ⟨rfl, rfl⟩ := hremoved
      exact Table.has_erase_self ..
    all_goals exact hremoved.elim
  | agent o a =>
    cases m
    case removeAgent o' a' =>
      obtain ⟨rfl, rfl⟩ := hremoved
      exact Table.has_erase_self ..
    case removeUser o' u' =>
      obtain ⟨rfl, row, hrow, ho, ha, hu⟩ := hremoved
      -- the agent under this key is the user's, so it is gone
      refine Bool.eq_false_iff.mpr fun hhas => ?_
      obtain ⟨r, hr, hkey⟩ := Table.has_iff.mp hhas
      obtain ⟨hr, hstays⟩ := Table.mem_deleteWhere.mp hr
      have hsame : r.key = row.key := by rw [hkey, TenantDirectoryAgent.key, ho, ha]
      obtain rfl : r = row := Option.some.inj
        ((Table.get_of_mem hr).symm.trans ((congrArg _ hsame).trans (Table.get_of_mem hrow)))
      simp [ho, hu] at hstays
    all_goals exact hremoved.elim
  | membership o p u =>
    have hparts : ∀ r : ProjectMemberRecord, r.key = membershipKey o.1 p.1 u.1 →
        r.organizationId = o.1 ∧ r.projectId = p.1 ∧ r.userId = u.1 := by
      intro r hkey
      obtain ⟨ho, hp, hu⟩ := (membershipKey_inj o.2 p.2 u.2).mp hkey.symm
      exact ⟨ho.symm, hp.symm, hu.symm⟩
    cases m
    case revokeProjectMembership o' p' u' =>
      obtain ⟨rfl, rfl, rfl⟩ := hremoved
      exact Table.has_erase_self ..
    case removeUser o' u' =>
      obtain ⟨rfl, rfl⟩ := hremoved
      refine Bool.eq_false_iff.mpr fun hhas => ?_
      obtain ⟨r, hr, hkey⟩ := Table.has_iff.mp hhas
      obtain ⟨ho, -, hu⟩ := hparts r hkey
      simpa [ho, hu] using (Table.mem_deleteWhere.mp hr).2
    case removeProject o' p' =>
      obtain ⟨rfl, rfl⟩ := hremoved
      refine Bool.eq_false_iff.mpr fun hhas => ?_
      obtain ⟨r, hr, hkey⟩ := Table.has_iff.mp hhas
      obtain ⟨ho, hp, -⟩ := hparts r hkey
      simpa [ho, hp] using (Table.mem_deleteWhere.mp hr).2
    all_goals exact hremoved.elim

/-- No removal creates an organization. -/
theorem not_create_of_removed {g : Grant} (hremoved : g.removedBy d m) :
    ∀ o, m ≠ .createOrganization o := by
  rintro o rfl
  cases g <;> exact hremoved

theorem absent_after_removal {g : Grant} (hd : Sound d) (hremoved : g.removedBy d m)
    (hok : (d.apply m).1 = .ok ()) : g.absent (d.apply m).2 := by
  obtain ⟨-, he⟩ | ⟨-, e, he⟩ := hd.apply_cases m <;> rw [he]
  · rw [next_of_ne_create (not_create_of_removed hremoved)]
    exact absent_bumped.mpr (absent_of_removed hremoved)
  · rw [he] at hok
    cases hok

/-! ### Other organizations -/

/-- The two directories are the same as far as the organization goes. -/
structure AgreeIn (o : TenantId) (d d' : InMemoryTenantDirectory) : Prop where
  organizations : d'.organizations.get o.1 = d.organizations.get o.1
  users : ∀ id, d'.users.get (key o.1 id) = d.users.get (key o.1 id)
  projects : ∀ id, d'.projects.get (key o.1 id) = d.projects.get (key o.1 id)
  agents : ∀ id, d'.agents.get (key o.1 id) = d.agents.get (key o.1 id)
  projectMembers : ∀ p u : TenantId, d'.projectMembers.get (membershipKey o.1 p.1 u.1) =
    d.projectMembers.get (membershipKey o.1 p.1 u.1)
  projectAgents : ∀ id, d'.projectAgents.get (key o.1 id) = d.projectAgents.get (key o.1 id)

/-- The decision on a context looks at nothing but its own organization. -/
theorem verifyContext_congr {context : TenantContext}
    (h : AgreeIn context.principal.organizationId d d') :
    d'.verifyContext context = d.verifyContext context := by
  have hversion : d'.getMembershipVersion context.principal.organizationId.1 =
      d.getMembershipVersion context.principal.organizationId.1 := by
    rw [getMembershipVersion, getMembershipVersion, h.organizations]
  simp only [verifyContext, projectAllowed, hversion, Table.has, h.users, h.projects, h.agents,
    h.projectMembers, h.projectAgents]

theorem AgreeIn.refl (o : TenantId) (d : InMemoryTenantDirectory) : AgreeIn o d d :=
  ⟨rfl, fun _ => rfl, fun _ => rfl, fun _ => rfl, fun _ _ => rfl, fun _ => rfl⟩

theorem AgreeIn.bumped {o : TenantId} (h : AgreeIn o d d') {o' : String} (hne : o' ≠ o.1) :
    AgreeIn o d (d'.bumped o') where
  organizations := by
    rw [get_bumped, h.organizations]
    cases hget : d.organizations.get o.1 with
    | none => rfl
    | some r =>
      have hkey : r.organizationId = o.1 := Table.key_of_get hget
      rw [Option.map_some, if_neg (fun he => hne (he.symm.trans hkey))]
  users := h.users
  projects := h.projects
  agents := h.agents
  projectMembers := h.projectMembers
  projectAgents := h.projectAgents

/-- The key of an agent is of the agent's organization. -/
theorem organization_of_agent (hd : Sound d) {o : TenantId} {id : String} {r : TenantDirectoryAgent}
    (hr : r ∈ d.agents.rows) (hkey : r.key = key o.1 id) : r.organizationId = o.1 :=
  ((key_inj (hd.valid_organization (hd.agents r hr).1) o.2).mp hkey).1

/-- A change in one organization leaves the others as they are. -/
theorem agreeIn_changed (hd : Sound d) {o : TenantId} (hm : d.Admissible m)
    (hne : m.organizationId ≠ o.1) : AgreeIn o d (d.changed m) := by
  have hkeys : ∀ {o' i i'}, isValidTenantId o' = true → o' ≠ o.1 → key o.1 i ≠ key o' i' :=
    fun ho' hne' hkey => hne' ((key_inj o.2 ho').mp hkey).1.symm
  have hmembers : ∀ {o' p' u'} (p u : TenantId), o' ≠ o.1 →
      membershipKey o.1 p.1 u.1 ≠ membershipKey o' p' u' :=
    fun p u hne' hkey => hne' ((membershipKey_inj o.2 p.2 u.2).mp hkey).1.symm
  have hrows : ∀ {r : ProjectMemberRecord} (p u : TenantId), r.key = membershipKey o.1 p.1 u.1 →
      r.organizationId = o.1 :=
    fun p u hkey => ((membershipKey_inj o.2 p.2 u.2).mp hkey.symm).1.symm
  cases m with
  | createOrganization o' =>
    exact { AgreeIn.refl o d with
      organizations := Table.get_upsert_of_ne _ hne.symm }
  | upsertUser user =>
    exact { AgreeIn.refl o d with
      users := fun id => Table.get_upsert_of_ne _ (hkeys hm.1.1 hne) }
  | upsertProject project =>
    exact { AgreeIn.refl o d with
      projects := fun id => Table.get_upsert_of_ne _ (hkeys hm.1.1 hne) }
  | upsertAgent agent =>
    refine { AgreeIn.refl o d with
      agents := fun id => Table.get_upsert_of_ne _ (hkeys hm.1.1 hne)
      projectAgents := fun id => ?_ }
    simp only [changed, withAgent]
    split
    · exact Table.get_upsert_of_ne _ (hkeys hm.1.1 hne)
    · exact Table.get_erase_of_ne _ (hkeys hm.1.1 hne)
  | grantProjectMembership o' p' u' role =>
    exact { AgreeIn.refl o d with
      projectMembers := fun p u => Table.get_upsert_of_ne _ (hmembers p u hne) }
  | removeUser o' u' =>
    have hother : o.1 ≠ o' := hne.symm
    refine { AgreeIn.refl o d with
      users := fun id => Table.get_erase_of_ne _ (hkeys hm.1 hne)
      agents := fun id => Table.get_deleteWhere_of fun r hr hkey => ?_
      projectMembers := fun p u => Table.get_deleteWhere_of fun r hr hkey => ?_
      projectAgents := fun id => Table.get_deleteWhere_of fun r hr hkey => ?_ }
    · simp [organization_of_agent hd hr hkey, hother]
    · simp [hrows p u hkey, hother]
    · refine List.any_eq_false.mpr fun b hb hgone => ?_
      simp only [Bool.and_eq_true, decide_eq_true_eq] at hgone
      obtain ⟨⟨ho, -⟩, hsame⟩ := hgone
      exact hne (ho.symm.trans (organization_of_agent hd hb (hsame.trans hkey)))
  | removeProject o' p' =>
    have hother : o.1 ≠ o' := hne.symm
    refine { AgreeIn.refl o d with
      projects := fun id => Table.get_erase_of_ne _ (hkeys hm.1 hne)
      agents := fun id => ?_
      projectMembers := fun p u => Table.get_deleteWhere_of fun r hr hkey => ?_
      projectAgents := fun id => Table.get_deleteWhere_of fun r hr hkey => ?_ }
    · refine (Table.get_mapRows _ _ (key_unassign o' p') _).trans ?_
      cases hget : d.agents.get (key o.1 id) with
      | none => rfl
      | some r =>
        obtain ⟨hr, hkey⟩ := Table.get_eq_some.mp hget
        have ho : r.organizationId = o.1 := organization_of_agent hd hr hkey
        rw [Option.map_some, unassign, if_neg (fun h => hne (h.1.symm.trans ho))]
    · simp [hrows p u hkey, hother]
    · obtain ⟨a, ha, horg, -, -⟩ := hd.projectAgents r hr
      have hvalid : isValidTenantId r.organizationId = true :=
        horg ▸ hd.valid_organization (hd.agents a ha).1
      have ho : r.organizationId = o.1 := ((key_inj hvalid o.2).mp hkey).1
      simp [ho, hother]
  | removeAgent o' a' =>
    exact { AgreeIn.refl o d with
      agents := fun id => Table.get_erase_of_ne _ (hkeys hm.1 hne)
      projectAgents := fun id => Table.get_erase_of_ne _ (hkeys hm.1 hne) }
  | revokeProjectMembership o' p' u' =>
    exact { AgreeIn.refl o d with
      projectMembers := fun p u => Table.get_erase_of_ne _ (hmembers p u hne) }

theorem agreeIn_apply (hd : Sound d) {o : TenantId} (hne : m.organizationId ≠ o.1) :
    AgreeIn o d (d.apply m).2 := by
  obtain ⟨hm, he⟩ | ⟨-, e, he⟩ := hd.apply_cases m <;> rw [he]
  · have hchanged := agreeIn_changed hd hm hne
    by_cases hcreate : ∀ o, m ≠ .createOrganization o
    · rw [next_of_ne_create hcreate]
      exact hchanged.bumped hne
    · push Not at hcreate
      obtain ⟨o', rfl⟩ := hcreate
      exact hchanged
  · exact AgreeIn.refl o d

/-! ### Revocation -/

/-- Immediate, complete and local. -/
structure Revokes (d : InMemoryTenantDirectory) : Prop where
  /-- An accepted call for the organization makes every context accepted before stale, for good. -/
  immediate : ∀ context, d.verifyContext context = true → ∀ before m after,
    m.organizationId = context.principal.organizationId.1 →
    ((d.applyAll before).apply m).1 = .ok () →
    (d.applyAll (before ++ m :: after)).verifyContext context = false
  /-- What is taken away admits no context that names it, until an accepted call grants it. -/
  complete : ∀ (g : Grant) m, g.removedBy d m → (d.apply m).1 = .ok () → ∀ after,
    Along machine (fun e m' => ¬ (g.restoredBy m' ∧ (e.apply m').1 = .ok ())) (d.apply m).2 after →
    ∀ context, g.namedBy (d.applyAll (m :: after)) context →
      (d.applyAll (m :: after)).verifyContext context = false
  /-- Calls for other organizations change no answer. -/
  isolated : ∀ context run, (∀ m ∈ run, m.organizationId ≠ context.principal.organizationId.1) →
    (d.applyAll run).verifyContext context = d.verifyContext context

theorem Sound.revokes (h : Sound d) : Revokes d where
  immediate := by
    intro context haccepted before m after horg hok
    obtain ⟨r, hr, hv⟩ := version_of_accepted haccepted
    have hkey : r.organizationId = context.principal.organizationId.1 := Table.key_of_get hr
    rw [← hkey] at hr horg
    obtain ⟨v₁, hv₁, hle₁⟩ := version_run h hr before
    obtain ⟨v₂, hv₂, -, hlt⟩ :=
      version_step (h.applyAll before) (r := ⟨r.organizationId, v₁⟩) hv₁ m
    obtain ⟨v₃, hv₃, hle₃⟩ :=
      version_run ((h.applyAll before).apply m) (r := ⟨r.organizationId, v₂⟩) hv₂ after
    rw [applyAll_append, applyAll_cons, Bool.eq_false_iff]
    intro hagain
    obtain ⟨r', hr', hv'⟩ := version_of_accepted hagain
    rw [← hkey, hv₃] at hr'
    obtain rfl := Option.some.inj hr'
    have hsame : v₃ = r.membershipVersion := Delimited.toString_nat_inj (hv'.trans hv.symm)
    have hlt := hlt horg hok
    simp only at hle₁ hle₃ hlt
    omega
  complete := by
    intro g m hremoved hok after halong context hnamed
    refine refused_of_absent ?_ hnamed
    refine (run_induct (I := fun e => Sound e ∧ g.absent e) ?_ after
      ⟨h.apply m, absent_after_removal h hremoved hok⟩ halong (run_machine after)).2
    rintro e m' e' ⟨he, habsent⟩ hnot hstep
    obtain rfl := Option.some.inj hstep
    exact ⟨he.apply m', absent_apply he habsent hnot⟩
  isolated := by
    intro context run hrun
    induction run generalizing d with
    | nil => rfl
    | cons m run ih =>
      rw [applyAll_cons, ih (h.apply m) fun m' hm' => hrun m' (List.mem_cons_of_mem _ hm')]
      exact verifyContext_congr (agreeIn_apply h (hrun m List.mem_cons_self))

/-- The directories there are: a fresh one, a loaded one, and what calls make of them. -/
inductive Reached : InMemoryTenantDirectory → Prop where
  | fresh : Reached {}
  | loaded {s : TenantDirectorySnapshot} {d : InMemoryTenantDirectory} (h : fromSnapshot s = .ok d) :
      Reached d
  | applied {d : InMemoryTenantDirectory} (h : Reached d) (m : Mutation) : Reached (d.apply m).2

theorem Reached.sound (h : Reached d) : Sound d := by
  induction h with
  | fresh => exact sound_empty
  | loaded h => exact (fromSnapshot_eq_ok.mp h).2.1
  | applied _ m ih => exact ih.apply m

/-! ### The other way in -/

/-- `u` is a member of `p`, and the agent `a` works in it. -/
def staffed : InMemoryTenantDirectory := ({} : InMemoryTenantDirectory).applyAll
  [.createOrganization "org-a", .upsertUser ⟨"org-a", "u", none⟩, .upsertProject ⟨"org-a", "p", none⟩,
    .upsertAgent ⟨"org-a", "a", none, some "p", none⟩, .grantProjectMembership "org-a" "p" "u" .member]

theorem isValidTenantId_orgA : isValidTenantId "org-a" = true := by decide

/-- A context of `u` for `p` through `a`, minted after the revocation. -/
def throughAgent : TenantContext where
  principal :=
    { organizationId := ⟨"org-a", isValidTenantId_orgA⟩
      projectId := some ⟨"p", by decide⟩
      userId := some ⟨"u", by decide⟩
      agentId := some ⟨"a", by decide⟩
      membershipVersion := "6"
      scopes := some ["project/p"] }
  accepted := by decide

end InMemoryTenantDirectory
end Remembra.Tenant
