import Mathlib.Data.List.Perm.Subperm
import Remembra.Lib.Transition
import Remembra.Tenant.Directory

/-! The directory stays whole: whatever is called, every membership and every agent refers to what is
    there, and an agent's association is its project's. The snapshot of a whole directory loads again,
    as it stands, where no reference is empty and no map has outgrown what the loader takes. -/

namespace Remembra.Tenant
open Store (isValidTenantId truthy)
open Transition

namespace InMemoryTenantDirectory
variable {d d' : InMemoryTenantDirectory}

/-! ### The invariant -/

/-- What every mutator keeps. A reference counts where it is given (not absent, not empty). -/
structure Sound (d : InMemoryTenantDirectory) : Prop where
  organizations : ∀ o ∈ d.organizations.rows,
    isValidTenantId o.organizationId = true ∧ 0 < o.membershipVersion
  users : ∀ u ∈ d.users.rows, d.organizations.has u.organizationId = true ∧
    isValidTenantId u.userId = true ∧ isDisplayName u.displayName = true
  projects : ∀ p ∈ d.projects.rows, d.organizations.has p.organizationId = true ∧
    isValidTenantId p.projectId = true ∧ isDisplayName p.displayName = true
  agents : ∀ a ∈ d.agents.rows, d.organizations.has a.organizationId = true ∧
    isValidTenantId a.agentId = true ∧ isDisplayName a.displayName = true
  agentUsers : ∀ a ∈ d.agents.rows, ∀ u, truthy a.userId = some u →
    d.users.has (key a.organizationId u) = true
  agentProjects : ∀ a ∈ d.agents.rows, ∀ p, truthy a.projectId = some p →
    d.projects.has (key a.organizationId p) = true ∧
      d.projectAgents.get a.key = some ⟨a.organizationId, p, a.agentId⟩
  projectMembers : ∀ m ∈ d.projectMembers.rows, d.organizations.has m.organizationId = true ∧
    d.projects.has (key m.organizationId m.projectId) = true ∧
      d.users.has (key m.organizationId m.userId) = true
  /-- An association is that of an agent that is there. -/
  projectAgents : ∀ r ∈ d.projectAgents.rows, ∃ a ∈ d.agents.rows,
    a.organizationId = r.organizationId ∧ a.agentId = r.agentId ∧ truthy a.projectId = some r.projectId

theorem sound_empty : Sound {} where
  organizations := by rintro _ ⟨⟩
  users := by rintro _ ⟨⟩
  projects := by rintro _ ⟨⟩
  agents := by rintro _ ⟨⟩
  agentUsers := by rintro _ ⟨⟩
  agentProjects := by rintro _ ⟨⟩
  projectMembers := by rintro _ ⟨⟩
  projectAgents := by rintro _ ⟨⟩

theorem agent_key_eq {a : TenantDirectoryAgent} {r : ProjectAgentRecord}
    (ho : a.organizationId = r.organizationId) (ha : a.agentId = r.agentId) : a.key = r.key := by
  rw [TenantDirectoryAgent.key, ProjectAgentRecord.key, ho, ha]

namespace Sound

theorem valid_organization (h : Sound d) {o : String} (ho : d.organizations.has o = true) :
    isValidTenantId o = true := by
  obtain ⟨r, hr, rfl⟩ := Table.has_iff.mp ho
  exact (h.organizations r hr).1

/-- Where a key of a user leads. -/
theorem user_of_has (h : Sound d) {o u : String} (ho : d.organizations.has o = true)
    (hu : d.users.has (key o u) = true) :
    ∃ r ∈ d.users.rows, r.organizationId = o ∧ r.userId = u := by
  obtain ⟨r, hr, hkey⟩ := Table.has_iff.mp hu
  exact ⟨r, hr, (key_inj (h.valid_organization (h.users r hr).1) (h.valid_organization ho)).mp hkey⟩

theorem project_of_has (h : Sound d) {o p : String} (ho : d.organizations.has o = true)
    (hp : d.projects.has (key o p) = true) :
    ∃ r ∈ d.projects.rows, r.organizationId = o ∧ r.projectId = p := by
  obtain ⟨r, hr, hkey⟩ := Table.has_iff.mp hp
  exact ⟨r, hr, (key_inj (h.valid_organization (h.projects r hr).1) (h.valid_organization ho)).mp hkey⟩

theorem valid_user (h : Sound d) {o u : String} (ho : d.organizations.has o = true)
    (hu : d.users.has (key o u) = true) : isValidTenantId u = true := by
  obtain ⟨r, hr, -, rfl⟩ := h.user_of_has ho hu
  exact (h.users r hr).2.1

theorem valid_project (h : Sound d) {o p : String} (ho : d.organizations.has o = true)
    (hp : d.projects.has (key o p) = true) : isValidTenantId p = true := by
  obtain ⟨r, hr, -, rfl⟩ := h.project_of_has ho hp
  exact (h.projects r hr).2.1

/-! ### Each change keeps it -/

/-- Only the set of organizations counts, and that their versions are positive. -/
theorem bumped (h : Sound d) (o : String) : Sound (d.bumped o) where
  organizations := by
    intro r hr
    obtain ⟨r, hold, rfl⟩ := List.mem_map.mp hr
    obtain ⟨hvalid, hpos⟩ := h.organizations r hold
    split
    · exact ⟨hvalid, by simp⟩
    · exact ⟨hvalid, hpos⟩
  users := by simpa [InMemoryTenantDirectory.bumped] using h.users
  projects := by simpa [InMemoryTenantDirectory.bumped] using h.projects
  agents := by simpa [InMemoryTenantDirectory.bumped] using h.agents
  agentUsers := h.agentUsers
  agentProjects := h.agentProjects
  projectMembers := by simpa [InMemoryTenantDirectory.bumped] using h.projectMembers
  projectAgents := h.projectAgents

theorem withOrganization (h : Sound d) {o : String} (ho : isValidTenantId o = true) :
    Sound (d.withOrganization o) where
  organizations := by
    intro r hr
    rcases Table.mem_upsert.mp hr with rfl | ⟨hold, -⟩
    · exact ⟨ho, by simp⟩
    · exact h.organizations r hold
  users u hu := by simp [InMemoryTenantDirectory.withOrganization, h.users u hu]
  projects p hp := by simp [InMemoryTenantDirectory.withOrganization, h.projects p hp]
  agents a ha := by simp [InMemoryTenantDirectory.withOrganization, h.agents a ha]
  agentUsers := h.agentUsers
  agentProjects := h.agentProjects
  projectMembers m hm := by simp [InMemoryTenantDirectory.withOrganization, h.projectMembers m hm]
  projectAgents := h.projectAgents

theorem withUser (h : Sound d) {user : TenantDirectoryUser} (hm : d.Admissible (.upsertUser user)) :
    Sound (d.withUser user) where
  organizations := h.organizations
  users := by
    intro u hu
    rcases Table.mem_upsert.mp hu with rfl | ⟨hold, -⟩
    · exact ⟨hm.1.2, hm.2⟩
    · exact h.users u hold
  projects := h.projects
  agents := h.agents
  agentUsers a ha u hu := by simp [InMemoryTenantDirectory.withUser, h.agentUsers a ha u hu]
  agentProjects := h.agentProjects
  projectMembers m hm := by simp [InMemoryTenantDirectory.withUser, h.projectMembers m hm]
  projectAgents := h.projectAgents

theorem withProject (h : Sound d) {project : TenantDirectoryProject}
    (hm : d.Admissible (.upsertProject project)) : Sound (d.withProject project) where
  organizations := h.organizations
  users := h.users
  projects := by
    intro p hp
    rcases Table.mem_upsert.mp hp with rfl | ⟨hold, -⟩
    · exact ⟨hm.1.2, hm.2⟩
    · exact h.projects p hold
  agents := h.agents
  agentUsers := h.agentUsers
  agentProjects a ha p hp := by simp [InMemoryTenantDirectory.withProject, h.agentProjects a ha p hp]
  projectMembers m hm := by simp [InMemoryTenantDirectory.withProject, h.projectMembers m hm]
  projectAgents := h.projectAgents

theorem withMember (h : Sound d) {o projectId userId : String} {role : TenantMembershipRole}
    (hm : d.Admissible (.grantProjectMembership o projectId userId role)) :
    Sound (d.withMember ⟨o, projectId, userId, role⟩) where
  organizations := h.organizations
  users := h.users
  projects := h.projects
  agents := h.agents
  agentUsers := h.agentUsers
  agentProjects := h.agentProjects
  projectMembers := by
    intro m hmem
    rcases Table.mem_upsert.mp hmem with rfl | ⟨hold, -⟩
    · exact ⟨hm.1.2, hm.2⟩
    · exact h.projectMembers m hold
  projectAgents := h.projectAgents

theorem withoutMember (h : Sound d) (o projectId userId : String) :
    Sound (d.withoutMember o projectId userId) where
  organizations := h.organizations
  users := h.users
  projects := h.projects
  agents := h.agents
  agentUsers := h.agentUsers
  agentProjects := h.agentProjects
  projectMembers m hm := h.projectMembers m (Table.mem_erase.mp hm).1
  projectAgents := h.projectAgents

theorem withAgent (h : Sound d) {agent : TenantDirectoryAgent}
    (hm : d.Admissible (.upsertAgent agent)) : Sound (d.withAgent agent) where
  organizations := h.organizations
  users := h.users
  projects := h.projects
  agents := by
    intro a ha
    rcases Table.mem_upsert.mp ha with rfl | ⟨hold, -⟩
    · exact ⟨hm.1.2, hm.2.1, hm.2.2.1⟩
    · exact h.agents a hold
  agentUsers := by
    intro a ha u hu
    rcases Table.mem_upsert.mp ha with rfl | ⟨hold, -⟩
    · exact (hm.2.2.2.1 u hu).2
    · exact h.agentUsers a hold u hu
  agentProjects := by
    intro a ha p hp
    rcases Table.mem_upsert.mp ha with rfl | ⟨hold, hne⟩
    · refine ⟨(hm.2.2.2.2 p hp).2, ?_⟩
      simp only [InMemoryTenantDirectory.withAgent, hp]
      exact (Table.get_upsert _ _ _).trans (if_pos rfl)
    · obtain ⟨hproject, hassoc⟩ := h.agentProjects a hold p hp
      refine ⟨hproject, ?_⟩
      -- the association of another agent is under another key
      simp only [InMemoryTenantDirectory.withAgent]
      split
      · exact (Table.get_upsert _ _ _).trans ((if_neg hne).trans hassoc)
      · refine Table.get_eq_some.mpr ⟨Table.mem_erase.mpr ⟨?_, hne⟩, rfl⟩
        exact (Table.get_eq_some.mp hassoc).1
  projectMembers := h.projectMembers
  projectAgents := by
    have hold : ∀ r ∈ d.projectAgents.rows, r.key ≠ agent.key →
        ∃ a ∈ (d.agents.upsert agent).rows, a.organizationId = r.organizationId ∧
          a.agentId = r.agentId ∧ truthy a.projectId = some r.projectId := by
      intro r hr hne
      obtain ⟨a, ha, ho, hid, hproject⟩ := h.projectAgents r hr
      refine ⟨a, Table.mem_upsert.mpr (.inr ⟨ha, ?_⟩), ho, hid, hproject⟩
      rwa [agent_key_eq ho hid]
    simp only [InMemoryTenantDirectory.withAgent]
    split
    · rename_i p hp
      intro r hr
      rcases Table.mem_upsert.mp hr with rfl | ⟨hr, hne⟩
      · exact ⟨agent, Table.mem_upsert.mpr (.inl rfl), rfl, rfl, hp⟩
      · exact hold r hr hne
    · intro r hr
      obtain ⟨hr, hne⟩ := Table.mem_erase.mp hr
      exact hold r hr hne

theorem withoutAgent (h : Sound d) (o agentId : String) : Sound (d.withoutAgent o agentId) where
  organizations := h.organizations
  users := h.users
  projects := h.projects
  agents a ha := h.agents a (Table.mem_erase.mp ha).1
  agentUsers a ha := h.agentUsers a (Table.mem_erase.mp ha).1
  agentProjects := by
    intro a ha p hp
    obtain ⟨ha, hne⟩ := Table.mem_erase.mp ha
    obtain ⟨hproject, hassoc⟩ := h.agentProjects a ha p hp
    refine ⟨hproject, Table.get_eq_some.mpr ⟨Table.mem_erase.mpr ⟨?_, hne⟩, rfl⟩⟩
    exact (Table.get_eq_some.mp hassoc).1
  projectMembers := h.projectMembers
  projectAgents := by
    intro r hr
    obtain ⟨hr, hne⟩ := Table.mem_erase.mp hr
    obtain ⟨a, ha, ho, hid, hproject⟩ := h.projectAgents r hr
    refine ⟨a, Table.mem_erase.mpr ⟨ha, ?_⟩, ho, hid, hproject⟩
    rwa [agent_key_eq ho hid]

/-- The cascade of a user: what remains refers to other users. -/
theorem withoutUser (h : Sound d) {o : String} (ho : d.Knows o) (userId : String) :
    Sound (d.withoutUser o userId) where
  organizations := h.organizations
  users u hu := h.users u (Table.mem_erase.mp hu).1
  projects := h.projects
  agents a ha := h.agents a (Table.mem_deleteWhere.mp ha).1
  agentUsers := by
    intro a ha u hu
    obtain ⟨ha, hstays⟩ := Table.mem_deleteWhere.mp ha
    have hvalid := h.valid_organization (h.agents a ha).1
    refine Table.has_erase_of_ne (h.agentUsers a ha u hu) fun hkey => ?_
    obtain ⟨rfl, rfl⟩ := (key_inj hvalid ho.1).mp hkey
    have := Option.filter_eq_some_iff.mp hu
    simp [this.1] at hstays
  agentProjects := by
    intro a ha p hp
    obtain ⟨ha, hstays⟩ := Table.mem_deleteWhere.mp ha
    obtain ⟨hproject, hassoc⟩ := h.agentProjects a ha p hp
    refine ⟨hproject, Table.get_eq_some.mpr ⟨Table.mem_deleteWhere.mpr ⟨?_, ?_⟩, rfl⟩⟩
    · exact (Table.get_eq_some.mp hassoc).1
    · -- an agent under the same key is this one, which stays
      refine List.any_eq_false.mpr fun b hb hgone => ?_
      rw [Bool.and_eq_true, decide_eq_true_eq] at hgone
      obtain rfl : b = a :=
        Option.some.inj ((Table.get_of_mem hb).symm.trans ((congrArg _ hgone.2).trans
          (Table.get_of_mem ha)))
      exact Bool.noConfusion (hgone.1.symm.trans hstays)
  projectMembers := by
    intro m hm
    obtain ⟨hm, hstays⟩ := Table.mem_deleteWhere.mp hm
    obtain ⟨horg, hproject, huser⟩ := h.projectMembers m hm
    refine ⟨horg, hproject, Table.has_erase_of_ne huser fun hkey => ?_⟩
    obtain ⟨rfl, rfl⟩ := (key_inj (h.valid_organization horg) ho.1).mp hkey
    simp at hstays
  projectAgents := by
    intro r hr
    obtain ⟨hr, hstays⟩ := Table.mem_deleteWhere.mp hr
    obtain ⟨a, ha, horg, hid, hproject⟩ := h.projectAgents r hr
    refine ⟨a, Table.mem_deleteWhere.mpr ⟨ha, ?_⟩, horg, hid, hproject⟩
    have := List.any_eq_false.mp hstays a ha
    simpa [agent_key_eq horg hid] using this

/-- The cascade of a project: what remains refers to other projects. -/
theorem withoutProject (h : Sound d) {o : String} (ho : d.Knows o) (projectId : String) :
    Sound (d.withoutProject o projectId) where
  organizations := h.organizations
  users := h.users
  projects p hp := h.projects p (Table.mem_erase.mp hp).1
  agents := by
    intro a ha
    obtain ⟨b, hb, rfl⟩ := List.mem_map.mp ha
    rw [unassign]
    split <;> exact h.agents b hb
  agentUsers := by
    intro a ha
    obtain ⟨b, hb, rfl⟩ := List.mem_map.mp ha
    rw [unassign]
    split <;> exact h.agentUsers b hb
  agentProjects := by
    intro a ha p hp
    obtain ⟨b, hb, rfl⟩ := List.mem_map.mp ha
    rw [unassign] at hp ⊢
    split at hp
    · cases hp
    · rename_i hother
      rw [if_neg hother]
      obtain ⟨hproject, hassoc⟩ := h.agentProjects b hb p hp
      have hset : b.projectId = some p := (Option.filter_eq_some_iff.mp hp).1
      refine ⟨Table.has_erase_of_ne hproject fun hkey => ?_,
        Table.get_eq_some.mpr ⟨Table.mem_deleteWhere.mpr ⟨(Table.get_eq_some.mp hassoc).1, ?_⟩, rfl⟩⟩
      · obtain ⟨rfl, rfl⟩ := (key_inj (h.valid_organization (h.agents b hb).1) ho.1).mp hkey
        exact hother ⟨rfl, hset⟩
      · rw [hset] at hother
        simpa using hother
  projectMembers := by
    intro m hm
    obtain ⟨hm, hstays⟩ := Table.mem_deleteWhere.mp hm
    obtain ⟨horg, hproject, huser⟩ := h.projectMembers m hm
    refine ⟨horg, Table.has_erase_of_ne hproject fun hkey => ?_, huser⟩
    obtain ⟨rfl, rfl⟩ := (key_inj (h.valid_organization horg) ho.1).mp hkey
    simp at hstays
  projectAgents := by
    intro r hr
    obtain ⟨hr, hstays⟩ := Table.mem_deleteWhere.mp hr
    obtain ⟨a, ha, horg, hid, hproject⟩ := h.projectAgents r hr
    have hset : a.projectId = some r.projectId := (Option.filter_eq_some_iff.mp hproject).1
    have hsame : unassign o projectId a = a := by
      rw [unassign, if_neg]
      rintro ⟨rfl, hp⟩
      rw [hset] at hp
      obtain rfl := Option.some.inj hp
      simp [horg] at hstays
    exact ⟨a, List.mem_map.mpr ⟨a, ha, hsame⟩, horg, hid, hproject⟩

/-- What an accepted call leaves. -/
theorem next (h : Sound d) {m : Mutation} (hm : d.Admissible m) : Sound (d.next m) := by
  cases m with
  | createOrganization o => exact h.withOrganization hm.1
  | upsertUser user => exact (h.withUser hm).bumped _
  | removeUser o userId => exact (h.withoutUser hm userId).bumped _
  | upsertProject project => exact (h.withProject hm).bumped _
  | removeProject o projectId => exact (h.withoutProject hm projectId).bumped _
  | upsertAgent agent => exact (h.withAgent hm).bumped _
  | removeAgent o agentId => exact (h.withoutAgent o agentId).bumped _
  | grantProjectMembership o projectId userId role => exact (h.withMember hm).bumped _
  | revokeProjectMembership o projectId userId => exact (h.withoutMember o projectId userId).bumped _

/-- An unknown organization has no memberships to revoke. -/
theorem withoutMember_of_not_knows (h : Sound d) {o : String} (ho : ¬ d.Knows o)
    (projectId userId : String) : d.withoutMember o projectId userId = d := by
  have hnone : d.projectMembers.has (membershipKey o projectId userId) = false := by
    refine Bool.eq_false_iff.mpr fun hhas => ?_
    obtain ⟨m, hm, hkey⟩ := Table.has_iff.mp hhas
    obtain ⟨horg, hproject, huser⟩ := h.projectMembers m hm
    have hvalid := h.valid_organization horg
    obtain ⟨rfl, -, -⟩ := (membershipKey_inj hvalid (h.valid_project horg hproject)
      (h.valid_user horg huser)).mp hkey
    exact ho ⟨hvalid, horg⟩
  rw [InMemoryTenantDirectory.withoutMember, Table.erase_of_not_has hnone]

/-- A call either is admissible and done, or is refused and changes nothing. -/
theorem apply_cases (h : Sound d) (m : Mutation) :
    d.Admissible m ∧ d.apply m = (.ok (), d.next m) ∨
      ¬ d.Admissible m ∧ ∃ e, d.apply m = (.error e, d) := by
  by_cases hm : d.Admissible m
  · exact .inl ⟨hm, apply_of_admissible hm⟩
  · obtain ⟨e, he | ⟨o, p, u, rfl, he⟩⟩ := apply_of_not_admissible hm
    · exact .inr ⟨hm, e, he⟩
    · rw [h.withoutMember_of_not_knows hm] at he
      exact .inr ⟨hm, e, he⟩

/-- The step lemma. -/
theorem apply (h : Sound d) (m : Mutation) : Sound (d.apply m).2 := by
  obtain ⟨hm, he⟩ | ⟨-, e, he⟩ := h.apply_cases m <;> rw [he]
  · exact h.next hm
  · exact h

end Sound

/-! ### Loading -/

/-- What the loops of the loader check, read off the directory that they build. -/
structure Checked (d : InMemoryTenantDirectory) : Prop where
  users : ∀ u ∈ d.users.rows, d.Knows u.organizationId
  projects : ∀ p ∈ d.projects.rows, d.Knows p.organizationId
  agents : ∀ a ∈ d.agents.rows, d.Knows a.organizationId ∧
    (∀ u, truthy a.userId = some u → d.users.has (key a.organizationId u) = true) ∧
    ∀ p, truthy a.projectId = some p → d.projects.has (key a.organizationId p) = true
  projectMembers : ∀ m ∈ d.projectMembers.rows, d.Knows m.organizationId ∧
    d.projects.has (key m.organizationId m.projectId) = true ∧
      d.users.has (key m.organizationId m.userId) = true
  projectAgents : ∀ r ∈ d.projectAgents.rows, d.Knows r.organizationId ∧
    d.projects.has (key r.organizationId r.projectId) = true ∧
      ((d.agents.get r.key).any fun a => a.projectId = some r.projectId) = true
  associated : d.assertAssociated = .ok ()

/-- A snapshot that passes the loops is the snapshot of the directory loaded. -/
theorem loadSnapshot_eq_ok {s : TenantDirectorySnapshot} :
    loadSnapshot s = .ok d ↔ d.snapshot = s ∧ d.Checked := by
  unfold loadSnapshot
  simp only [↓seq_eq_ok, ↓require_eq_ok, bind_eq_ok, Table.load_eq_ok, assertKnown_eq_ok,
    assertReference_eq_ok, pure, Except.pure, and_true, Table.empty, List.nil_append, Except.ok.injEq]
  constructor
  · obtain ⟨os, us, ps, as, ms, rs⟩ := s
    rintro ⟨organizations, ⟨-, rfl⟩, users, ⟨husers, rfl⟩, projects, ⟨hprojects, rfl⟩, agents,
      ⟨hagents, rfl⟩, members, ⟨hmembers, rfl⟩, projectAgents, ⟨hassociations, rfl⟩, hall, rfl⟩
    exact ⟨rfl, husers, hprojects, hagents, hmembers, hassociations, hall⟩
  · rintro ⟨rfl, h⟩
    exact ⟨d.organizations, ⟨fun _ _ => trivial, rfl⟩, d.users, ⟨h.users, rfl⟩, d.projects,
      ⟨h.projects, rfl⟩, d.agents, ⟨h.agents, rfl⟩, d.projectMembers, ⟨h.projectMembers, rfl⟩,
      d.projectAgents, ⟨h.projectAgents, rfl⟩, h.associated, rfl⟩

/-- A sound directory passes the loops. -/
theorem Sound.checked (h : Sound d) : d.Checked where
  users u hu := ⟨h.valid_organization (h.users u hu).1, (h.users u hu).1⟩
  projects p hp := ⟨h.valid_organization (h.projects p hp).1, (h.projects p hp).1⟩
  agents a ha := ⟨⟨h.valid_organization (h.agents a ha).1, (h.agents a ha).1⟩, h.agentUsers a ha,
    fun p hp => (h.agentProjects a ha p hp).1⟩
  projectMembers m hm := ⟨⟨h.valid_organization (h.projectMembers m hm).1, (h.projectMembers m hm).1⟩,
    (h.projectMembers m hm).2⟩
  projectAgents := by
    intro r hr
    obtain ⟨a, ha, horg, hid, hproject⟩ := h.projectAgents r hr
    have hknown := (h.agents a ha).1
    rw [← horg, ← agent_key_eq horg hid, Table.get_of_mem ha]
    refine ⟨⟨h.valid_organization hknown, hknown⟩, (h.agentProjects a ha _ hproject).1, ?_⟩
    simpa using (Option.filter_eq_some_iff.mp hproject).1
  associated := by
    rw [assertAssociated, assertKnown_eq_ok, List.all_eq_true]
    intro a ha
    cases hproject : truthy a.projectId with
    | none => rfl
    | some p => simp [Table.has, (h.agentProjects a ha p hproject).2]

/-- What the schema takes, map by map. -/
structure Accepted (s : TenantDirectorySnapshot) : Prop where
  organizations : s.organizations.length ≤ 100000 ∧ ∀ o ∈ s.organizations,
    isValidTenantId o.organizationId = true ∧ 0 < o.membershipVersion
  users : s.users.length ≤ 1000000 ∧ ∀ u ∈ s.users,
    (isValidTenantId u.organizationId = true ∧ isValidTenantId u.userId = true) ∧
      isDisplayName u.displayName = true
  projects : s.projects.length ≤ 1000000 ∧ ∀ p ∈ s.projects,
    (isValidTenantId p.organizationId = true ∧ isValidTenantId p.projectId = true) ∧
      isDisplayName p.displayName = true
  agents : s.agents.length ≤ 1000000 ∧ ∀ a ∈ s.agents,
    (((isValidTenantId a.organizationId = true ∧ isValidTenantId a.agentId = true) ∧
      a.userId.all isValidTenantId = true) ∧ a.projectId.all isValidTenantId = true) ∧
      isDisplayName a.displayName = true
  projectMembers : s.projectMembers.length ≤ 5000000 ∧ ∀ m ∈ s.projectMembers,
    (isValidTenantId m.organizationId = true ∧ isValidTenantId m.projectId = true) ∧
      isValidTenantId m.userId = true
  projectAgents : s.projectAgents.length ≤ 5000000 ∧ ∀ a ∈ s.projectAgents,
    (isValidTenantId a.organizationId = true ∧ isValidTenantId a.projectId = true) ∧
      isValidTenantId a.agentId = true

theorem acceptsSnapshot_iff {s : TenantDirectorySnapshot} : acceptsSnapshot s = true ↔ Accepted s := by
  simp only [acceptsSnapshot, Bool.and_eq_true, List.all_eq_true, decide_eq_true_eq]
  constructor
  · rintro ⟨⟨⟨⟨⟨ho, hu⟩, hp⟩, ha⟩, hm⟩, hr⟩
    exact ⟨ho, hu, hp, ha, hm, hr⟩
  · rintro ⟨ho, hu, hp, ha, hm, hr⟩
    exact ⟨⟨⟨⟨⟨ho, hu⟩, hp⟩, ha⟩, hm⟩, hr⟩

theorem truthy_of_valid {reference : Option String} (h : reference.all isValidTenantId = true)
    {id : String} (hid : reference = some id) : truthy reference = some id := by
  subst hid
  refine Option.filter_eq_some_iff.mpr ⟨rfl, decide_eq_true ?_⟩
  rintro rfl
  exact absurd h (by decide)

/-- What the loader takes is sound. -/
theorem sound_of_checked (ha : Accepted d.snapshot) (h : d.Checked) : Sound d where
  organizations := ha.organizations.2
  users u hu := ⟨(h.users u hu).2, (ha.users.2 u hu).1.2, (ha.users.2 u hu).2⟩
  projects p hp := ⟨(h.projects p hp).2, (ha.projects.2 p hp).1.2, (ha.projects.2 p hp).2⟩
  agents a hmem := ⟨(h.agents a hmem).1.2, (ha.agents.2 a hmem).1.1.1.2, (ha.agents.2 a hmem).2⟩
  agentUsers a hmem := (h.agents a hmem).2.1
  agentProjects := by
    intro a hmem p hp
    refine ⟨(h.agents a hmem).2.2 p hp, ?_⟩
    have hall := assertKnown_eq_ok.mp h.associated
    have hhas := List.all_eq_true.mp hall a hmem
    rw [hp, Option.isNone_some, Bool.false_or] at hhas
    obtain ⟨r, hr, hkey⟩ := Table.has_iff.mp hhas
    obtain ⟨hknows, -, hany⟩ := h.projectAgents r hr
    rw [hkey, Table.get_of_mem hmem, Option.any_some, decide_eq_true_eq] at hany
    obtain ⟨horg, hid⟩ := (key_inj hknows.1 (ha.agents.2 a hmem).1.1.1.1).mp hkey
    have hset : a.projectId = some p := (Option.filter_eq_some_iff.mp hp).1
    obtain rfl : r = ⟨a.organizationId, p, a.agentId⟩ := by
      cases r
      simp_all
    exact Table.get_of_mem hr
  projectMembers m hm := ⟨(h.projectMembers m hm).1.2, (h.projectMembers m hm).2⟩
  projectAgents := by
    intro r hr
    obtain ⟨hknows, -, hany⟩ := h.projectAgents r hr
    obtain ⟨a, hget, hset⟩ := (Option.any_eq_true _ _).mp hany
    obtain ⟨hmem, hkey⟩ := Table.get_eq_some.mp hget
    obtain ⟨horg, hid⟩ := (key_inj (ha.agents.2 a hmem).1.1.1.1 hknows.1).mp hkey
    exact ⟨a, hmem, horg, hid,
      truthy_of_valid (ha.agents.2 a hmem).1.2 (of_decide_eq_true hset)⟩

/-- A directory whose snapshot loads. -/
def Reloadable (d : InMemoryTenantDirectory) : Prop := Sound d ∧ acceptsSnapshot d.snapshot = true

/-- The round trip, both ways: what loads is the snapshot of what is loaded, and these are the
    directories that load. -/
theorem fromSnapshot_eq_ok {s : TenantDirectorySnapshot} :
    fromSnapshot s = .ok d ↔ d.snapshot = s ∧ Reloadable d := by
  rw [fromSnapshot]
  split
  · rename_i haccepts
    have hmap : (loadSnapshot s).mapError LoadError.refused = .ok d ↔ loadSnapshot s = .ok d := by
      cases loadSnapshot s <;> simp [Except.mapError]
    rw [hmap, loadSnapshot_eq_ok]
    refine and_congr_right ?_
    rintro rfl
    exact ⟨fun h => ⟨sound_of_checked (acceptsSnapshot_iff.mp haccepts) h, haccepts⟩,
      fun h => h.1.checked⟩
  · rename_i haccepts
    simp only [reduceCtorEq, false_iff, not_and]
    rintro rfl h
    exact haccepts h.2

theorem fromSnapshot_snapshot (h : Reloadable d) : fromSnapshot d.snapshot = .ok d :=
  fromSnapshot_eq_ok.mpr ⟨rfl, h⟩

/-! ### What the loader has room for -/

/-- The sizes that the loader takes, and no reference given as the empty text. -/
structure Fits (d : InMemoryTenantDirectory) : Prop where
  organizations : d.organizations.rows.length ≤ 100000
  users : d.users.rows.length ≤ 1000000
  projects : d.projects.rows.length ≤ 1000000
  agents : d.agents.rows.length ≤ 1000000
  projectMembers : d.projectMembers.rows.length ≤ 5000000
  references : ∀ a ∈ d.agents.rows, a.userId ≠ some "" ∧ a.projectId ≠ some ""

/-- Each association has its agent. -/
theorem Sound.length_projectAgents_le (h : Sound d) :
    d.projectAgents.rows.length ≤ d.agents.rows.length := by
  have hsub : d.projectAgents.rows.map ProjectAgentRecord.key ⊆
      d.agents.rows.map TenantDirectoryAgent.key := by
    intro k hk
    obtain ⟨r, hr, rfl⟩ := List.mem_map.mp hk
    obtain ⟨a, ha, horg, hid, -⟩ := h.projectAgents r hr
    rw [← agent_key_eq horg hid]
    exact List.mem_map_of_mem ha
  simpa using (List.Nodup.subperm d.projectAgents.nodup hsub).length_le

theorem truthy_of_ne_empty {reference : Option String} (h : reference ≠ some "") :
    truthy reference = reference := by
  cases reference with
  | none => rfl
  | some id =>
    have hne : id ≠ "" := fun he => h (congrArg some he)
    exact Option.filter_eq_some_iff.mpr ⟨rfl, decide_eq_true hne⟩

/-- Of a sound directory the schema asks no more than that. -/
theorem Sound.accepted_iff (h : Sound d) : Accepted d.snapshot ↔ Fits d := by
  constructor
  · intro ha
    refine ⟨ha.organizations.1, ha.users.1, ha.projects.1, ha.agents.1, ha.projectMembers.1, ?_⟩
    intro a hmem
    obtain ⟨⟨⟨-, hu⟩, hp⟩, -⟩ := ha.agents.2 a hmem
    constructor
    · intro he
      exact absurd (he ▸ hu) (by decide)
    · intro he
      exact absurd (he ▸ hp) (by decide)
  · intro hf
    refine ⟨⟨hf.organizations, h.organizations⟩, ⟨hf.users, fun u hu => ?_⟩,
      ⟨hf.projects, fun p hp => ?_⟩, ⟨hf.agents, fun a ha => ?_⟩, ⟨hf.projectMembers, fun m hm => ?_⟩,
      ⟨h.length_projectAgents_le.trans (hf.agents.trans (by omega)), fun r hr => ?_⟩⟩
    · obtain ⟨horg, hid, hname⟩ := h.users u hu
      exact ⟨⟨h.valid_organization horg, hid⟩, hname⟩
    · obtain ⟨horg, hid, hname⟩ := h.projects p hp
      exact ⟨⟨h.valid_organization horg, hid⟩, hname⟩
    · obtain ⟨horg, hid, hname⟩ := h.agents a ha
      obtain ⟨hu, hp⟩ := hf.references a ha
      refine ⟨⟨⟨⟨h.valid_organization horg, hid⟩, ?_⟩, ?_⟩, hname⟩
      · rw [Option.all_eq_true]
        intro u hset
        exact h.valid_user horg (h.agentUsers a ha u ((truthy_of_ne_empty hu).trans hset))
      · rw [Option.all_eq_true]
        intro p hset
        exact h.valid_project horg (h.agentProjects a ha p ((truthy_of_ne_empty hp).trans hset)).1
    · obtain ⟨horg, hproject, huser⟩ := h.projectMembers m hm
      exact ⟨⟨h.valid_organization horg, h.valid_project horg hproject⟩, h.valid_user horg huser⟩
    · obtain ⟨a, ha, horg, hid, hproject⟩ := h.projectAgents r hr
      rw [← horg, ← hid]
      have hknown := (h.agents a ha).1
      exact ⟨⟨h.valid_organization hknown,
        h.valid_project hknown (h.agentProjects a ha _ hproject).1⟩, (h.agents a ha).2.1⟩

theorem reloadable_iff : Reloadable d ↔ Sound d ∧ Fits d :=
  and_congr_right fun h => acceptsSnapshot_iff.trans h.accepted_iff

/-- The loader has room for what an accepted call adds, and no reference is given as the empty text. -/
def Room (d : InMemoryTenantDirectory) : Mutation → Prop
  | .createOrganization _ => d.organizations.rows.length < 100000
  | .upsertUser user => d.users.has user.key = true ∨ d.users.rows.length < 1000000
  | .upsertProject project => d.projects.has project.key = true ∨ d.projects.rows.length < 1000000
  | .upsertAgent agent => (agent.userId ≠ some "" ∧ agent.projectId ≠ some "") ∧
      (d.agents.has agent.key = true ∨ d.agents.rows.length < 1000000)
  | .grantProjectMembership o projectId userId _ =>
      d.projectMembers.has (membershipKey o projectId userId) = true ∨
        d.projectMembers.rows.length < 5000000
  | .removeUser _ _ | .removeProject _ _ | .removeAgent _ _ | .revokeProjectMembership _ _ _ => True

theorem fits_bumped {o : String} : Fits (d.bumped o) ↔ Fits d := by
  have hlength : (d.bumped o).organizations.rows.length = d.organizations.rows.length :=
    List.length_map _
  constructor
  · rintro ⟨ho, hu, hp, ha, hm, hr⟩
    exact ⟨hlength ▸ ho, hu, hp, ha, hm, hr⟩
  · rintro ⟨ho, hu, hp, ha, hm, hr⟩
    exact ⟨hlength.symm ▸ ho, hu, hp, ha, hm, hr⟩

/-- What fits still fits after a change that there is room for. -/
theorem Fits.changed (h : Fits d) {m : Mutation} (hm : d.Admissible m) :
    Fits (d.changed m) ↔ d.Room m := by
  cases m with
  | createOrganization o =>
    have hlength := Table.length_upsert_le (r := ⟨o, 1⟩) h.organizations
    rw [or_iff_right (by simp [hm.2])] at hlength
    exact ⟨fun hf => hlength.mp hf.organizations, fun hroom => { h with organizations := hlength.mpr hroom }⟩
  | upsertUser user =>
    have hlength := Table.length_upsert_le (r := user) h.users
    exact ⟨fun hf => hlength.mp hf.users, fun hroom => { h with users := hlength.mpr hroom }⟩
  | upsertProject project =>
    have hlength := Table.length_upsert_le (r := project) h.projects
    exact ⟨fun hf => hlength.mp hf.projects, fun hroom => { h with projects := hlength.mpr hroom }⟩
  | upsertAgent agent =>
    have hlength := Table.length_upsert_le (r := agent) h.agents
    constructor
    · intro hf
      exact ⟨hf.references agent (Table.mem_upsert.mpr (.inl rfl)), hlength.mp hf.agents⟩
    · rintro ⟨hrefs, hroom⟩
      refine { h with agents := hlength.mpr hroom, references := ?_ }
      intro a ha
      rcases Table.mem_upsert.mp ha with rfl | ⟨hold, -⟩
      · exact hrefs
      · exact h.references a hold
  | grantProjectMembership o projectId userId role =>
    have hlength := Table.length_upsert_le (r := ⟨o, projectId, userId, role⟩) h.projectMembers
    exact ⟨fun hf => hlength.mp hf.projectMembers,
      fun hroom => { h with projectMembers := hlength.mpr hroom }⟩
  | removeUser o userId =>
    exact iff_of_true { h with
      users := (Table.length_erase_le _ _).trans h.users
      agents := (List.length_filter_le ..).trans h.agents
      projectMembers := (List.length_filter_le ..).trans h.projectMembers
      references := fun a ha => h.references a (Table.mem_deleteWhere.mp ha).1 } trivial
  | removeProject o projectId =>
    refine iff_of_true { h with
      projects := (Table.length_erase_le _ _).trans h.projects
      agents := (List.length_map _).trans_le h.agents
      projectMembers := (List.length_filter_le ..).trans h.projectMembers
      references := ?_ } trivial
    intro a ha
    obtain ⟨b, hb, rfl⟩ := List.mem_map.mp ha
    obtain ⟨hu, hp⟩ := h.references b hb
    rw [unassign]
    split
    · exact ⟨hu, by simp⟩
    · exact ⟨hu, hp⟩
  | removeAgent o agentId =>
    exact iff_of_true { h with
      agents := (Table.length_erase_le _ _).trans h.agents
      references := fun a ha => h.references a (Table.mem_erase.mp ha).1 } trivial
  | revokeProjectMembership o projectId userId =>
    exact iff_of_true { h with
      projectMembers := (Table.length_erase_le _ _).trans h.projectMembers } trivial

theorem Fits.next (h : Fits d) {m : Mutation} (hm : d.Admissible m) :
    Fits (d.next m) ↔ d.Room m := by
  by_cases hcreate : ∀ o, m ≠ .createOrganization o
  · rw [next_of_ne_create hcreate, fits_bumped, h.changed hm]
  · push Not at hcreate
    obtain ⟨o, rfl⟩ := hcreate
    exact h.changed hm

/-! ### Every run -/

/-- The directory as a machine: every call can be made in every state. -/
def machine (d : InMemoryTenantDirectory) (m : Mutation) : Option InMemoryTenantDirectory :=
  some (d.apply m).2

/-- The directory refers to nothing that is not there, and its snapshot loads as the same directory. -/
structure Whole (d : InMemoryTenantDirectory) : Prop where
  reloads : ∃ d', fromSnapshot d.snapshot = .ok d' ∧ d'.snapshot = d.snapshot ∧
    (∀ context, d'.verifyContext context = d.verifyContext context) ∧
      ∀ o, d'.getMembershipVersion o = d.getMembershipVersion o
  members : ∀ m ∈ d.projectMembers.rows,
    (∃ u ∈ d.users.rows, u.organizationId = m.organizationId ∧ u.userId = m.userId) ∧
      ∃ p ∈ d.projects.rows, p.organizationId = m.organizationId ∧ p.projectId = m.projectId
  agents : ∀ a ∈ d.agents.rows,
    (∀ id, a.userId = some id →
      ∃ u ∈ d.users.rows, u.organizationId = a.organizationId ∧ u.userId = id) ∧
    ∀ id, a.projectId = some id →
      ∃ p ∈ d.projects.rows, p.organizationId = a.organizationId ∧ p.projectId = id
  associations : ∀ a ∈ d.agents.rows, ∀ id, a.projectId = some id ↔
    ∃ r ∈ d.projectAgents.rows, r.organizationId = a.organizationId ∧ r.agentId = a.agentId ∧
      r.projectId = id
  /-- There is no association without its agent. -/
  owned : ∀ r ∈ d.projectAgents.rows, ∃ a ∈ d.agents.rows,
    a.organizationId = r.organizationId ∧ a.agentId = r.agentId

theorem whole_of_reloadable (h : Reloadable d) : Whole d where
  reloads := ⟨d, fromSnapshot_snapshot h, rfl, fun _ => rfl, fun _ => rfl⟩
  members := by
    intro m hm
    obtain ⟨horg, hproject, huser⟩ := h.1.projectMembers m hm
    exact ⟨h.1.user_of_has horg huser, h.1.project_of_has horg hproject⟩
  agents := by
    intro a ha
    have horg := (h.1.agents a ha).1
    obtain ⟨hu, hp⟩ := (reloadable_iff.mp h).2.references a ha
    exact ⟨fun id hid => h.1.user_of_has horg (h.1.agentUsers a ha id ((truthy_of_ne_empty hu).trans hid)),
      fun id hid => h.1.project_of_has horg
        (h.1.agentProjects a ha id ((truthy_of_ne_empty hp).trans hid)).1⟩
  associations := by
    intro a ha id
    have hp := truthy_of_ne_empty ((reloadable_iff.mp h).2.references a ha).2
    constructor
    · intro hid
      have hassoc := (h.1.agentProjects a ha id (hp.trans hid)).2
      exact ⟨_, (Table.get_eq_some.mp hassoc).1, rfl, rfl, rfl⟩
    · rintro ⟨r, hr, horg, hagent, rfl⟩
      obtain ⟨b, hb, hborg, hbid, hbproject⟩ := h.1.projectAgents r hr
      have hkey : b.key = a.key := (agent_key_eq hborg hbid).trans (agent_key_eq horg.symm hagent.symm).symm
      obtain rfl : b = a := Option.some.inj
        ((Table.get_of_mem hb).symm.trans ((congrArg _ hkey).trans (Table.get_of_mem ha)))
      exact hp.symm.trans hbproject
  owned := by
    intro r hr
    obtain ⟨a, ha, horg, hid, -⟩ := h.1.projectAgents r hr
    exact ⟨a, ha, horg, hid⟩

/-- A call that, if it is accepted, the loader has room for. -/
def Meets (d : InMemoryTenantDirectory) (m : Mutation) : Prop := d.Admissible m → d.Room m

/-- The step: an accepted call leaves a directory that loads exactly where the loader has room. -/
theorem reloadable_apply (h : Reloadable d) (m : Mutation) :
    Reloadable (d.apply m).2 ↔ d.Meets m := by
  obtain ⟨hm, he⟩ | ⟨hm, e, he⟩ := h.1.apply_cases m <;> rw [he]
  · rw [reloadable_iff, and_iff_right (h.1.next hm), (reloadable_iff.mp h).2.next hm]
    exact ⟨fun hroom _ => hroom, fun hmeets => hmeets hm⟩
  · exact iff_of_true h fun h' => absurd h' hm

theorem reloadable_empty : Reloadable {} := ⟨sound_empty, by decide⟩

end InMemoryTenantDirectory
end Remembra.Tenant
