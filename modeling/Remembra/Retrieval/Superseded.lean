import Remembra.Lib.Follow
import Remembra.Retrieval.Search

/-! The suppression of memories that another one replaces. Whether there is a replacement is looked up in
    the whole pool, and what is suppressed is taken out of the ranking, which the gates have thinned
    before. So an answer is left for each suppressed memory exactly when no chain of replacements runs
    into a cycle, and each ends at a memory that passes the gates. -/

namespace Remembra.Retrieval
open Store (Memory JsNum truthy)
open Follow (after EndsAt Repeats)

section Superseded
variable (P : Platform) (now : ℤ) (memories : List Memory) (q : SearchQuery)
  (queryVec : Option (List JsNum)) (policy : RetrievalPolicy)

/-- The memory of the pool that replaces this one. -/
def replacement (m : Memory) : Option Memory :=
  (truthy m.supersededBy).bind fun id => memories.find? fun n => n.id = id

/-- The memory is ranked: it passes the gates and is no seed only where there are none. -/
def IsRanked (m : Memory) : Prop :=
  m ∈ memories ∧ passesGates P q queryVec policy m = true ∧
    (m.id ∈ q.candidates ∨
      ∀ n ∈ memories, passesGates P q queryVec policy n = true → n.id ∉ q.candidates)

/-- Following the replacements, each suppressed memory leads to one that is left in the ranking. -/
def LeavesAnswer : Prop :=
  ∀ m ∈ fullRanking P now memories q queryVec policy,
    m ∉ currentRanking P now memories q queryVec policy →
      ∃ n r, after (replacement memories) n m = some r ∧
        r ∈ currentRanking P now memories q queryVec policy

/-- No chain of replacements from a ranked memory runs into a cycle. -/
def NoCycles : Prop :=
  ∀ m, IsRanked P memories q queryVec policy m → ¬ Repeats (replacement memories) m

/-- Each chain of replacements from a ranked memory ends at a ranked one. -/
def EndsRanked : Prop :=
  ∀ m r, IsRanked P memories q queryVec policy m → EndsAt (replacement memories) m r →
    IsRanked P memories q queryVec policy r

variable {P now memories q queryVec policy} {m r : Memory}

/-! ### What is ranked, and what is left of it -/

theorem mem_seeded {scored : List ScoredEntry} {e : ScoredEntry} : e ∈ seeded q scored ↔
    e ∈ scored ∧ (e.m.id ∈ q.candidates ∨ ∀ d ∈ scored, d.m.id ∉ q.candidates) := by
  have hnone : (scored.filter fun d => d.m.id ∈ q.candidates) = [] ↔
      ∀ d ∈ scored, d.m.id ∉ q.candidates := by
    simp [List.filter_eq_nil_iff]
  simp only [seeded]
  split_ifs with hseeds
  · rw [Bool.and_eq_true, decide_eq_true_eq, decide_eq_true_eq] at hseeds
    rw [List.mem_filter, decide_eq_true_eq, or_iff_left (mt hnone.mpr hseeds.2)]
  · refine ⟨fun he => ⟨he, ?_⟩, fun he => he.1⟩
    rw [Bool.and_eq_true, decide_eq_true_eq, decide_eq_true_eq, not_and_or, not_not, not_not] at hseeds
    refine .inr ?_
    rcases hseeds with hempty | hempty
    · simp [hempty]
    · exact hnone.mp hempty

theorem mem_map_scoredEntries : m ∈ (scoredEntries P memories q queryVec policy).map (·.m) ↔
    IsRanked P memories q queryVec policy m := by
  simp only [scoredEntries, List.mem_map, mem_seeded, IsRanked, List.mem_filter]
  constructor
  · rintro ⟨_, ⟨⟨n, ⟨hn, hpasses⟩, rfl⟩, hseeds⟩, rfl⟩
    refine ⟨hn, hpasses, hseeds.imp_right fun hnone d hd hdpasses => ?_⟩
    exact hnone _ ⟨d, ⟨hd, hdpasses⟩, rfl⟩
  · rintro ⟨hm, hpasses, hseeds⟩
    refine ⟨_, ⟨⟨m, ⟨hm, hpasses⟩, rfl⟩, hseeds.imp_right fun hnone => ?_⟩, rfl⟩
    rintro _ ⟨d, ⟨hd, hdpasses⟩, rfl⟩
    exact hnone d hd hdpasses

theorem mem_map_gated : m ∈ (gated P now memories q queryVec policy).map (·.m) ↔
    IsRanked P memories q queryVec policy m := by
  rw [← mem_map_scoredEntries]
  simp only [gated, List.mem_map, List.mem_mergeSort]
  constructor
  · rintro ⟨_, ⟨e, he, rfl⟩, rfl⟩
    exact ⟨e, he, rfl⟩
  · rintro ⟨e, he, rfl⟩
    exact ⟨_, ⟨e, he, rfl⟩, rfl⟩

/-- The ranking has the memories that pass the gates, whatever the scores are. -/
theorem mem_fullRanking : m ∈ fullRanking P now memories q queryVec policy ↔
    IsRanked P memories q queryVec policy m := by
  have hgated : m ∈ (gated P now memories q queryVec policy).map (·.m) ↔ _ := mem_map_gated
  rw [← hgated]
  simp only [fullRanking]
  split
  · split_ifs
    · exact List.mem_mergeSort
    · rfl
  · rfl

theorem isSuperseded_iff : isSuperseded memories m = true ↔ (replacement memories m).isSome = true := by
  rw [isSuperseded, replacement]
  cases truthy m.supersededBy with
  | none => simp
  | some id => simp [List.find?_isSome]

theorem mem_currentRanking : m ∈ currentRanking P now memories q queryVec policy ↔
    IsRanked P memories q queryVec policy m ∧
      (q.includeSuperseded = true ∨ replacement memories m = none) := by
  rw [currentRanking, withoutSuperseded]
  split_ifs with hinclude
  · rw [mem_fullRanking]
    exact ⟨fun h => ⟨h, .inl hinclude⟩, fun h => h.1⟩
  · rw [List.mem_filter, mem_fullRanking, Bool.not_eq_true', ← Bool.not_eq_true, isSuperseded_iff,
      Option.not_isSome_iff_eq_none, or_iff_right hinclude]

theorem mem_of_replacement (h : replacement memories m = some r) : r ∈ memories := by
  obtain ⟨id, -, hfind⟩ := Option.bind_eq_some_iff.mp h
  exact List.mem_of_find?_eq_some hfind

/-! ### Chains -/

/-- A chain that a suppressed memory begins has its end where it comes to what is left. -/
theorem endsAt_of_left (hsuppress : q.includeSuperseded = false) {n : ℕ}
    (hn : after (replacement memories) n m = some r)
    (hr : r ∈ currentRanking P now memories q queryVec policy) : EndsAt (replacement memories) m r := by
  refine ⟨n, hn, (mem_currentRanking.mp hr).2.resolve_left ?_⟩
  simp [hsuppress]

/-- An answer is left for each suppressed memory exactly when suppressed memories are asked for, or no
    chain of replacements runs into a cycle and each ends at a memory that is ranked. -/
theorem leavesAnswer_iff : LeavesAnswer P now memories q queryVec policy ↔
    q.includeSuperseded = true ∨
      (NoCycles P memories q queryVec policy ∧ EndsRanked P memories q queryVec policy) := by
  constructor
  · intro hleaves
    by_cases hinclude : q.includeSuperseded = true
    · exact .inl hinclude
    · have hsuppress : q.includeSuperseded = false := by simpa using hinclude
      -- each ranked memory is left itself or leads to one that is
      have hend (m : Memory) (hm : IsRanked P memories q queryVec policy m) :
          ∃ r, EndsAt (replacement memories) m r ∧ IsRanked P memories q queryVec policy r := by
        by_cases hleft : m ∈ currentRanking P now memories q queryVec policy
        · exact ⟨m, endsAt_of_left hsuppress (n := 0) rfl hleft, hm⟩
        · obtain ⟨n, r, hn, hr⟩ := hleaves m (mem_fullRanking.mpr hm) hleft
          exact ⟨r, endsAt_of_left hsuppress hn hr, (mem_currentRanking.mp hr).1⟩
      refine .inr ⟨fun m hm hrepeats => ?_, fun m r hm hmr => ?_⟩
      · obtain ⟨r, hmr, -⟩ := hend m hm
        exact hrepeats.not_endsAt hmr
      · obtain ⟨s, hms, hs⟩ := hend m hm
        rwa [hmr.unique hms]
  · rintro (hinclude | ⟨hcycles, hends⟩) m hm hgone
    · exact absurd (mem_currentRanking.mpr ⟨mem_fullRanking.mp hm, .inl hinclude⟩) hgone
    · have hranked := mem_fullRanking.mp hm
      rcases Follow.endsAt_or_repeats (fun _ _ h => mem_of_replacement h) m with ⟨r, hmr⟩ | hrepeats
      · obtain ⟨n, hn, hlast⟩ := id hmr
        exact ⟨n, r, hn, mem_currentRanking.mpr ⟨hends m r hranked hmr, .inr hlast⟩⟩
      · exact absurd hrepeats (hcycles m hranked)

end Superseded

/-- The port as one project has it, and as another one has it now. -/
def oldPort : Memory := { plainMemory "a" "The port is 80." "project-a" with supersededBy := some "b" }

def newPort : Memory := plainMemory "b" "The port is 443." "project-b"

/-- The replacement is in the pool and of another scope than the query: both are gone. -/
theorem superseded_leaves_nothing :
    ¬ ∀ (P : Platform) (now : ℤ) (memories : List Memory) (q : SearchQuery)
      (queryVec : Option (List JsNum)) (policy : RetrievalPolicy),
      LeavesAnswer P now memories q queryVec policy := by
  intro hall
  have hpasses : passesGates plainPlatform { scope := some "project-a" } none {} oldPort = true := by
    decide +kernel
  have hforeign : passesGates plainPlatform { scope := some "project-a" } none {} newPort = false := by
    decide +kernel
  have hreplaced : (replacement [oldPort, newPort] oldPort).isSome = true := by decide +kernel
  have hranked : IsRanked plainPlatform [oldPort, newPort] { scope := some "project-a" } none {} oldPort :=
    ⟨List.mem_cons_self, hpasses, .inr fun _ _ _ => List.not_mem_nil⟩
  obtain ⟨n, r, -, hr⟩ := hall plainPlatform 1767225600000 [oldPort, newPort] { scope := some "project-a" }
    none {} oldPort (mem_fullRanking.mpr hranked) fun hleft => by
      obtain ⟨-, hinclude | hnone⟩ := mem_currentRanking.mp hleft
      · cases hinclude
      · rw [hnone] at hreplaced
        cases hreplaced
  obtain ⟨⟨hmem, hgates, -⟩, hinclude | hnone⟩ := mem_currentRanking.mp hr
  · cases hinclude
  · rcases List.mem_cons.mp hmem with rfl | hmem
    · rw [hnone] at hreplaced
      cases hreplaced
    · rw [List.mem_singleton.mp hmem, hforeign] at hgates
      cases hgates

end Remembra.Retrieval
