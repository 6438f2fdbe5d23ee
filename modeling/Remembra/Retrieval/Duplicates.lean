import Remembra.Retrieval.Search

/-! Duplicate suppression: what it keeps is in the order of the ranking, and each memory of the ranking is
    either kept or named as removed, once. -/

namespace Remembra.Retrieval
open Store (Memory)

section Duplicates
variable {P : Platform} {m : Memory} {ranked l : List Memory} {st : DedupState}
  {exact sameSource : Bool} {window : ℕ}

variable (P sameSource st m) in
/-- A round keeps the memory or removes it. -/
theorem dedupeOne_cases :
    ((dedupeOne P sameSource st m).kept = st.kept ++ [m] ∧
      (dedupeOne P sameSource st m).removed = st.removed) ∨
    ∃ r : Removal, r.id = m.id ∧ (dedupeOne P sameSource st m).kept = st.kept ∧
      (dedupeOne P sameSource st m).removed = st.removed ++ [r] := by
  rw [dedupeOne]
  by_cases hempty : duplicateKey P m = ""
  · exact .inl (by simp [hempty])
  · simp only [hempty, if_false]
    split
    · exact .inr ⟨_, rfl, rfl, rfl⟩
    · split
      · exact .inr ⟨_, rfl, rfl, rfl⟩
      · exact .inl ⟨rfl, rfl⟩

variable (P sameSource) in
/-- Over a run, each memory is kept or removed. -/
theorem foldl_dedupeOne (l : List Memory) (st : DedupState) : ∃ (kept : List Memory)
    (removed : List Removal), (l.foldl (dedupeOne P sameSource) st).kept = st.kept ++ kept ∧
      (l.foldl (dedupeOne P sameSource) st).removed = st.removed ++ removed ∧ kept.Sublist l ∧
      (kept.map (·.id) ++ removed.map (·.id)).Perm (l.map (·.id)) := by
  induction l generalizing st with
  | nil => exact ⟨[], [], by simp, by simp, List.Sublist.refl _, List.Perm.refl _⟩
  | cons m l ih =>
    obtain ⟨kept, removed, hkept, hremoved, hsub, hperm⟩ := ih (dedupeOne P sameSource st m)
    rw [List.foldl_cons, hkept, hremoved]
    rcases dedupeOne_cases P m st sameSource with ⟨hkeep, hsame⟩ | ⟨r, hr, hsame, hremove⟩
    · refine ⟨m :: kept, removed, by simp [hkeep], by simp [hsame], hsub.cons_cons m, ?_⟩
      exact hperm.cons m.id
    · refine ⟨kept, r :: removed, by simp [hsame], by simp [hremove], hsub.cons m, ?_⟩
      rw [List.map_cons, List.map_cons, hr]
      exact List.perm_middle.trans (hperm.cons m.id)

theorem dedupeResults_memories_sublist :
    (dedupeResults P exact sameSource window ranked).memories.Sublist ranked := by
  rw [dedupeResults]
  split_ifs
  · exact List.Sublist.refl _
  · obtain ⟨kept, removed, hkept, -, hsub, -⟩ :=
      foldl_dedupeOne P sameSource (ranked.take (max 1 window)) {}
    have happend := hsub.append_right (ranked.drop (max 1 window))
    rw [List.take_append_drop] at happend
    simpa only [hkept, List.nil_append] using happend

/-- Each memory of the ranking is kept or removed, once. -/
theorem dedupeResults_perm : ((dedupeResults P exact sameSource window ranked).memories.map (·.id) ++
    (dedupeResults P exact sameSource window ranked).removed.map (·.id)).Perm (ranked.map (·.id)) := by
  rw [dedupeResults]
  split_ifs
  · simp
  · obtain ⟨kept, removed, hkept, hremoved, -, hperm⟩ :=
      foldl_dedupeOne P sameSource (ranked.take (max 1 window)) {}
    have hrest := hperm.append_right ((ranked.drop (max 1 window)).map (·.id))
    rw [← List.map_append, List.take_append_drop] at hrest
    simp only [hkept, hremoved, List.nil_append, List.map_append]
    refine List.Perm.trans ?_ hrest
    rw [List.append_assoc, List.append_assoc]
    exact List.perm_append_comm.append_left _

end Duplicates

end Remembra.Retrieval
