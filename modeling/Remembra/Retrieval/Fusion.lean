import Remembra.Retrieval.Explained

/-! The fusion of two rankings. Those with one score share the average of their ranks, so no place in a
    ranking is worth more for the order in which ties happen to stand, and no rank is lost: the ranks of `n`
    places are together what they are without ties. What two rankings are fused to, they are also fused to
    where one of them is empty and the other is taken alone (`rrfFuse_fair`). -/

namespace Remembra.Retrieval
open Store (JsNum)

/-! ### Average ranks -/

section Ranks
variable {α : Type*} {groups : List (List α)} {i : ℕ}

/-- The average ranks of groups that stand behind so many places. -/
def averageRanks : ℕ → List (List α) → List (α × ℚ)
  | _, [] => []
  | i, group :: rest =>
    let j := i + group.length
    group.map (·, ((i + 1 + j : ℕ) : ℚ) / 2) ++ averageRanks j rest

theorem map_fst_averageRanks (i : ℕ) (groups : List (List α)) :
    (averageRanks i groups).map Prod.fst = groups.flatten := by
  induction groups generalizing i with
  | nil => rfl
  | cons group rest ih =>
    rw [averageRanks, List.map_append, ih, List.flatten_cons, List.map_map]
    congr 1
    exact List.map_id group

/-- The ranks of places behind `i` others are together as much as without any ties. -/
theorem sum_averageRanks (i : ℕ) (groups : List (List α)) :
    ((averageRanks i groups).map Prod.snd).sum =
      groups.flatten.length * i + (groups.flatten.length * (groups.flatten.length + 1) : ℚ) / 2 := by
  induction groups generalizing i with
  | nil => simp [averageRanks]
  | cons group rest ih =>
    have hgroup : (group.map (·, ((i + 1 + (i + group.length) : ℕ) : ℚ) / 2)).map Prod.snd =
        List.replicate group.length (((i + 1 + (i + group.length) : ℕ) : ℚ) / 2) := by
      rw [List.map_map]
      exact List.map_const' ..
    rw [averageRanks, List.map_append, List.sum_append, hgroup, List.sum_replicate, ih, List.flatten_cons,
      List.length_append, nsmul_eq_mul]
    push_cast
    ring

theorem lt_of_mem_averageRanks {p : α × ℚ} (h : p ∈ averageRanks i groups) : (i : ℚ) < p.2 := by
  induction groups generalizing i with
  | nil => cases h
  | cons group rest ih =>
    have hlength : (0 : ℚ) ≤ group.length := Nat.cast_nonneg _
    rcases List.mem_append.mp h with h | h
    · obtain ⟨a, -, rfl⟩ := List.mem_map.mp h
      push_cast
      linarith
    · have hbehind := ih h
      push_cast at hbehind
      linarith

/-- The scores of a group are one, and those of a group are above those of every later one. -/
def Graded (score : α → JsNum) (groups : List (List α)) : Prop :=
  (∀ group ∈ groups, ∀ a ∈ group, ∀ b ∈ group, score a = score b) ∧
    groups.Pairwise fun group later => ∀ a ∈ group, ∀ b ∈ later, less (score b) (score a) = true

theorem rank_eq_of_graded {score : α → JsNum} (h : Graded score groups) {p q : α × ℚ}
    (hp : p ∈ averageRanks i groups) (hq : q ∈ averageRanks i groups) (hpq : score p.1 = score q.1) :
    p.2 = q.2 := by
  induction groups generalizing i with
  | nil => cases hp
  | cons group rest ih =>
    obtain ⟨hsame, hapart⟩ := h
    rw [List.forall_mem_cons] at hsame
    rw [List.pairwise_cons] at hapart
    -- No score of the first group comes again.
    have hlater (a : α) (ha : a ∈ group) (q : α × ℚ) (hq : q ∈ averageRanks (i + group.length) rest) :
        score a ≠ score q.1 := by
      have hmem : q.1 ∈ rest.flatten :=
        map_fst_averageRanks _ rest ▸ List.mem_map_of_mem hq
      obtain ⟨later, hin, hmem⟩ := List.mem_flatten.mp hmem
      have hless := hapart.1 later hin a ha q.1 hmem
      intro heq
      rw [heq, less_irrefl] at hless
      cases hless
    rcases List.mem_append.mp hp with hp | hp <;> rcases List.mem_append.mp hq with hq | hq
    · obtain ⟨a, -, rfl⟩ := List.mem_map.mp hp
      obtain ⟨b, -, rfl⟩ := List.mem_map.mp hq
      rfl
    · obtain ⟨a, ha, rfl⟩ := List.mem_map.mp hp
      exact absurd hpq (hlater a ha q hq)
    · obtain ⟨b, hb, rfl⟩ := List.mem_map.mp hq
      exact absurd hpq.symm (hlater b hb p hp)
    · exact ih ⟨hsame.2, hapart.2⟩ hp hq

theorem rank_lt_of_graded {score : α → JsNum} (h : Graded score groups) {p q : α × ℚ}
    (hp : p ∈ averageRanks i groups) (hq : q ∈ averageRanks i groups)
    (hpq : less (score q.1) (score p.1) = true) : p.2 < q.2 := by
  induction groups generalizing i with
  | nil => cases hp
  | cons group rest ih =>
    obtain ⟨hsame, hapart⟩ := h
    rw [List.forall_mem_cons] at hsame
    rw [List.pairwise_cons] at hapart
    rcases List.mem_append.mp hp with hp | hp <;> rcases List.mem_append.mp hq with hq | hq
    · obtain ⟨a, ha, rfl⟩ := List.mem_map.mp hp
      obtain ⟨b, hb, rfl⟩ := List.mem_map.mp hq
      rw [hsame.1 b hb a ha, less_irrefl] at hpq
      cases hpq
    · obtain ⟨a, ha, rfl⟩ := List.mem_map.mp hp
      have hbehind := lt_of_mem_averageRanks hq
      have hlength : (1 : ℚ) ≤ group.length := by exact_mod_cast List.length_pos_of_mem ha
      push_cast at hbehind ⊢
      linarith
    · obtain ⟨b, hb, rfl⟩ := List.mem_map.mp hq
      have hmem : p.1 ∈ rest.flatten := map_fst_averageRanks _ rest ▸ List.mem_map_of_mem hp
      obtain ⟨later, hin, hmem⟩ := List.mem_flatten.mp hmem
      have hback := less_trans hpq (hapart.1 later hin b hb p.1 hmem)
      rw [less_irrefl] at hback
      cases hback
    · exact ih ⟨hsame.2, hapart.2⟩ hp hq

end Ranks

/-! ### What a ranking contributes -/

section Contributions
variable {P : Platform} {list : List Ranked} {listWeight k : ℚ}

/-- A ranking with the highest scores in front. -/
def Descending (list : List Ranked) : Prop := list.Pairwise fun a b => atMost b.2 a.2 = true

/-- The runs of one score in a ranking. -/
def ties (list : List Ranked) : List (List Ranked) := list.splitBy fun a b => same a.2 b.2

theorem flatten_ties (list : List Ranked) : (ties list).flatten = list := List.flatten_splitBy _ _

theorem contributions_eq (hF : P.floats.Exact) (hk : 0 < k) (i : ℕ) (groups : List (List Ranked)) :
    contributions P (.finite listWeight) (.finite k) i groups =
      (averageRanks i groups).map fun p => (p.1.1, .finite (listWeight / (k + p.2))) := by
  induction groups generalizing i with
  | nil => rfl
  | cons group rest ih =>
    have htwo : ((2 : ℤ) : ℚ) ≠ 0 := by norm_num
    have hpositive : k + ((i + 1 + (i + group.length) : ℕ) : ℚ) / ((2 : ℤ) : ℚ) ≠ 0 := by
      push_cast
      positivity
    rw [contributions, averageRanks, List.map_append, ih, List.map_map]
    simp only [ofNat, ofInt, div_finite hF _ htwo, add_finite hF, div_finite hF _ hpositive]
    rfl

theorem listContributions_eq (hF : P.floats.Exact) (hk : 0 < k) (list : List Ranked) :
    listContributions P (.finite listWeight) (.finite k) list =
      (averageRanks 0 (ties list)).map fun p => (p.1.1, .finite (listWeight / (k + p.2))) :=
  contributions_eq hF hk 0 _

theorem atMost_cases {a b : JsNum} (h : atMost a b = true) : same a b = true ∨ less a b = true := by
  rw [atMost, Bool.or_eq_true] at h
  exact h.symm

/-- Groups of one score each, in a descending order, none of which has the score of the one before it. -/
theorem graded_of_chains {groups : List (List Ranked)} (hne : [] ∉ groups)
    (hsame : ∀ group ∈ groups, ∀ a ∈ group, ∀ b ∈ group, a.2 = b.2)
    (hbetween : groups.Pairwise fun group later => ∀ a ∈ group, ∀ b ∈ later, atMost b.2 a.2 = true)
    (hapart : groups.IsChain fun group next => ∃ hg hn, same (group.getLast hg).2 (next.head hn).2 = false) :
    Graded Prod.snd groups := by
  refine ⟨hsame, ?_⟩
  induction groups with
  | nil => exact .nil
  | cons group rest ih =>
    rw [List.forall_mem_cons] at hsame
    rw [List.pairwise_cons] at hbetween
    rw [List.isChain_cons] at hapart
    have hrest := ih (fun h => hne (List.mem_cons_of_mem _ h)) hsame.2 hbetween.2 hapart.2
    refine List.pairwise_cons.mpr ⟨?_, hrest⟩
    cases rest with
    | nil => exact fun later hlater => absurd hlater List.not_mem_nil
    | cons next rest =>
      obtain ⟨hg, hn, hdiffer⟩ := hapart.1 next rfl
      have hnext : ∀ a ∈ group, ∀ b ∈ next, less b.2 a.2 = true := by
        intro a ha b hb
        have ha' : (group.getLast hg).2 = a.2 := hsame.1 _ (List.getLast_mem hg) a ha
        have hb' : (next.head hn).2 = b.2 :=
          hsame.2 next List.mem_cons_self _ (List.head_mem hn) b hb
        rw [ha', hb'] at hdiffer
        rcases atMost_cases (hbetween.1 next List.mem_cons_self a ha b hb) with heq | hless
        · have hback : same a.2 b.2 = true := by
            rw [same, Bool.and_eq_true, decide_eq_true_eq] at heq ⊢
            exact ⟨heq.1.symm, heq.1 ▸ heq.2⟩
          rw [hback] at hdiffer
          cases hdiffer
        · exact hless
      rintro later hlater a ha b hb
      rcases List.mem_cons.mp hlater with rfl | hlater
      · exact hnext a ha b hb
      · -- Through any of those in between.
        exact less_trans ((List.pairwise_cons.mp hrest).1 later hlater _ (List.head_mem hn) b hb)
          (hnext a ha _ (List.head_mem hn))

theorem graded_ties (h : Descending list) : Graded Prod.snd (ties list) := by
  have hflat : (ties list).flatten.Pairwise fun a b => atMost b.2 a.2 = true := by
    rw [flatten_ties]
    exact h
  have hsame (group : List Ranked) (hgroup : group ∈ ties list) : ∀ a ∈ group, ∀ b ∈ group, a.2 = b.2 := by
    have hchain : group.IsChain fun a b => a.2 = b.2 :=
      (List.isChain_of_mem_splitBy hgroup).imp fun a b hab => by
        rw [same, Bool.and_eq_true, decide_eq_true_eq] at hab
        exact hab.1
    have htrans : Trans (fun a b : Ranked => a.2 = b.2) (fun a b : Ranked => a.2 = b.2)
        (fun a b : Ranked => a.2 = b.2) :=
      ⟨fun hab hbc => hab.trans hbc⟩
    have hsymm : Std.Symm fun a b : Ranked => a.2 = b.2 := ⟨fun _ _ => Eq.symm⟩
    exact (List.isChain_iff_pairwise.mp hchain).forall_of_forall fun _ _ => rfl
  exact graded_of_chains (List.nil_notMem_splitBy _ _) hsame (List.pairwise_flatten.mp hflat).2
    (List.isChain_getLast_head_splitBy (fun a b => same a.2 b.2) list)

/-- What a ranking contributes to an id: nothing, where it is not in it. -/
def contribution (P : Platform) (listWeight rrfK : JsNum) (list : List Ranked) (id : String) : JsNum :=
  ((listContributions P listWeight rrfK list).lookup id).getD (ofInt 0)

theorem lookup_listContributions (hF : P.floats.Exact) (hk : 0 < k) (hnodup : (list.map Prod.fst).Nodup)
    {p : Ranked × ℚ} (hp : p ∈ averageRanks 0 (ties list)) :
    (listContributions P (.finite listWeight) (.finite k) list).lookup p.1.1 =
      some (.finite (listWeight / (k + p.2))) := by
  rw [OrdMap.lookup_eq_some_of_nodup (by rw [map_fst_listContributions]; exact hnodup),
    listContributions_eq hF hk]
  exact List.mem_map_of_mem (f := fun p : Ranked × ℚ => (p.1.1, JsNum.finite (listWeight / (k + p.2)))) hp

theorem exists_rank {e : Ranked} (he : e ∈ list) : ∃ r, (e, r) ∈ averageRanks 0 (ties list) := by
  have hmem : e ∈ (averageRanks 0 (ties list)).map Prod.fst := by
    rw [map_fst_averageRanks, flatten_ties]
    exact he
  obtain ⟨p, hp, rfl⟩ := List.mem_map.mp hmem
  exact ⟨p.2, hp⟩

theorem contribution_of_mem (hF : P.floats.Exact) (hk : 0 < k) (hnodup : (list.map Prod.fst).Nodup)
    {e : Ranked} {r : ℚ} (hr : (e, r) ∈ averageRanks 0 (ties list)) :
    contribution P (.finite listWeight) (.finite k) list e.1 = .finite (listWeight / (k + r)) := by
  rw [contribution, lookup_listContributions hF hk hnodup hr]
  rfl

/-- Equal scores get equal contributions, and a larger score gets a larger one, if the ranking counts. -/
def FairList (P : Platform) (listWeight rrfK : JsNum) (list : List Ranked) : Prop :=
  ∀ a ∈ list, ∀ b ∈ list,
    (a.2 = b.2 → contribution P listWeight rrfK list a.1 = contribution P listWeight rrfK list b.1) ∧
    (less b.2 a.2 = true → less (ofInt 0) listWeight = true →
      less (contribution P listWeight rrfK list b.1) (contribution P listWeight rrfK list a.1) = true)

theorem fairList (hF : P.floats.Exact) (hk : 0 < k) (hnodup : (list.map Prod.fst).Nodup)
    (hdesc : Descending list) : FairList P (.finite listWeight) (.finite k) list := by
  intro a ha b hb
  obtain ⟨r, hr⟩ := exists_rank ha
  obtain ⟨t, ht⟩ := exists_rank hb
  rw [contribution_of_mem hF hk hnodup hr, contribution_of_mem hF hk hnodup ht]
  have hgraded := graded_ties hdesc
  refine ⟨fun heq => ?_, fun hless hweight => ?_⟩
  · have hrank : r = t := rank_eq_of_graded hgraded hr ht heq
    rw [hrank]
  · have hrank : r < t := rank_lt_of_graded hgraded hr ht hless
    have hfirst : ((0 : ℕ) : ℚ) < r := lt_of_mem_averageRanks hr
    have hpositive : 0 < listWeight := by simpa [less, ofInt] using hweight
    push_cast at hfirst
    have hdiv : listWeight / (k + t) < listWeight / (k + r) :=
      div_lt_div_of_pos_left hpositive (by linarith) (by linarith)
    simpa [less] using hdiv

end Contributions

/-! ### The two rankings together -/

section Fused
variable {P : Platform} {l : List Ranked} {m : OrdMap String JsNum} {k : ℚ}

theorem get_accumulated (hnodup : (l.map Prod.fst).Nodup) (id : String) :
    (l.foldl (fun fuse e => fuse.set e.1 (P.floats.add ((fuse.get e.1).getD (ofInt 0)) e.2)) m).get id =
      match l.lookup id with
      | some c => some (P.floats.add ((m.get id).getD (ofInt 0)) c)
      | none => m.get id := by
  induction l generalizing m with
  | nil => rfl
  | cons e l ih =>
    rw [List.map_cons, List.nodup_cons] at hnodup
    rw [List.foldl_cons, ih hnodup.2, List.lookup_cons]
    by_cases hid : id = e.1
    · have hnone : l.lookup id = none := by
        rw [List.lookup_eq_none_iff]
        rintro p hp
        rw [bne_iff_ne]
        rintro rfl
        exact hnodup.1 (hid ▸ List.mem_map_of_mem hp)
      rw [hnone, hid, beq_self_eq_true]
      exact OrdMap.get_set_self ..
    · rw [beq_eq_false_iff_ne.mpr hid, OrdMap.get_set_ne _ hid]

/-- Where every id is new and every contribution is a number, to add is to set. -/
theorem accumulated_eq_set (hF : P.floats.Exact) (hnodup : (l.map Prod.fst).Nodup)
    (hl : ∀ e ∈ l, isFinite e.2 = true) (hm : ∀ e ∈ l, m.get e.1 = none) :
    l.foldl (fun fuse e => fuse.set e.1 (P.floats.add ((fuse.get e.1).getD (ofInt 0)) e.2)) m =
      l.foldl (fun out e => out.set e.1 e.2) m := by
  induction l generalizing m with
  | nil => rfl
  | cons e l ih =>
    rw [List.map_cons, List.nodup_cons] at hnodup
    rw [List.forall_mem_cons] at hl hm
    obtain ⟨c, hc⟩ := isFinite_iff.mp hl.1
    have hadd : P.floats.add ((m.get e.1).getD (ofInt 0)) e.2 = e.2 := by
      rw [hm.1, hc]
      exact (add_finite hF _ c).trans (by rw [Int.cast_zero, zero_add])
    rw [List.foldl_cons, List.foldl_cons, hadd]
    refine ih hnodup.2 hl.2 fun d hd => ?_
    have hne : d.1 ≠ e.1 := fun heq => hnodup.1 (heq ▸ List.mem_map_of_mem hd)
    rw [OrdMap.get_set_ne _ hne]
    exact hm.2 d hd

theorem isFinite_lookup (hF : P.floats.Exact) {listWeight c : JsNum} (hk : 0 < k) {list : List Ranked}
    (hweight : isFinite listWeight = true) (hnodup : (list.map Prod.fst).Nodup) {id : String}
    (h : (listContributions P listWeight (.finite k) list).lookup id = some c) : ∃ q, c = .finite q := by
  rw [OrdMap.lookup_eq_some_of_nodup (by rw [map_fst_listContributions]; exact hnodup)] at h
  exact isFinite_iff.mp (isFinite_contributions hF hk hweight 0 _ _ h)

theorem lookup_isSome (P : Platform) (listWeight rrfK : JsNum) (list : List Ranked) {id : String} :
    ((listContributions P listWeight rrfK list).lookup id).isSome = true ↔ id ∈ list.map Prod.fst := by
  rw [← map_fst_listContributions (P := P) listWeight rrfK list]
  simp [List.lookup_isSome_iff]

theorem get_rrfFuse {w : FusionWeights} {kw vec : List Ranked} (hF : P.floats.Exact) (hw : FiniteWeights w)
    (hkw : (kw.map Prod.fst).Nodup) (hvec : (vec.map Prod.fst).Nodup) (id : String) :
    (rrfFuse P kw vec w).get id =
      if id ∈ kw.map Prod.fst ∨ id ∈ vec.map Prod.fst then
        some (P.floats.add (contribution P w.keyword w.rrfK kw id) (contribution P w.semantic w.rrfK vec id))
      else none := by
  obtain ⟨k, hk, hpositive⟩ := hw.positive
  have hkeyword : isFinite w.keyword = true := hw.finite ("keyword", w.keyword) (by simp [FusionWeights.named])
  have hsemantic : isFinite w.semantic = true :=
    hw.finite ("semantic", w.semantic) (by simp [FusionWeights.named])
  rw [rrfFuse, List.foldl_append, get_accumulated (by rw [map_fst_listContributions]; exact hvec),
    get_accumulated (by rw [map_fst_listContributions]; exact hkw), contribution, contribution, hk]
  simp only [← lookup_isSome P w.keyword (.finite k) kw,
    ← lookup_isSome P w.semantic (.finite k) vec]
  have hzero (q : ℚ) : P.floats.add (ofInt 0) (.finite q) = .finite q :=
    (add_finite hF _ q).trans (by rw [Int.cast_zero, zero_add])
  have hzero' (q : ℚ) : P.floats.add (.finite q) (ofInt 0) = .finite q :=
    (add_finite hF q _).trans (by rw [Int.cast_zero, add_zero])
  cases hone : (listContributions P w.keyword (.finite k) kw).lookup id with
  | none =>
    cases htwo : (listContributions P w.semantic (.finite k) vec).lookup id with
    | none => simp
    | some d => simp
  | some c =>
    obtain ⟨q, rfl⟩ := isFinite_lookup hF hpositive hkeyword hkw hone
    cases htwo : (listContributions P w.semantic (.finite k) vec).lookup id with
    | none => simp [hzero, hzero']
    | some d => simp [hzero]

theorem contribution_of_notMem {listWeight rrfK : JsNum} {list : List Ranked} {id : String}
    (h : id ∉ list.map Prod.fst) : contribution P listWeight rrfK list id = ofInt 0 := by
  rw [← lookup_isSome P listWeight rrfK, Bool.not_eq_true,
    Option.isSome_eq_false_iff, Option.isNone_iff_eq_none] at h
  rw [contribution, h]
  rfl

theorem contribution_scaled (hF : P.floats.Exact) (hk : 0 < k) {list : List Ranked}
    (hnodup : (list.map Prod.fst).Nodup) (c listWeight : ℚ) (id : String) :
    contribution P (.finite (c * listWeight)) (.finite k) list id =
      P.floats.mul (.finite c) (contribution P (.finite listWeight) (.finite k) list id) := by
  by_cases hid : id ∈ list.map Prod.fst
  · obtain ⟨e, he, rfl⟩ := List.mem_map.mp hid
    obtain ⟨r, hr⟩ := exists_rank he
    rw [contribution_of_mem hF hk hnodup hr, contribution_of_mem hF hk hnodup hr, mul_finite hF, mul_div_assoc]
  · rw [contribution_of_notMem hid, contribution_of_notMem hid, ofInt, mul_finite hF, Int.cast_zero, mul_zero]

theorem isFinite_contribution (hF : P.floats.Exact) (hk : 0 < k) {list : List Ranked}
    (hnodup : (list.map Prod.fst).Nodup) (listWeight : ℚ) (id : String) :
    ∃ q, contribution P (.finite listWeight) (.finite k) list id = .finite q := by
  by_cases hid : id ∈ list.map Prod.fst
  · obtain ⟨e, he, rfl⟩ := List.mem_map.mp hid
    obtain ⟨r, hr⟩ := exists_rank he
    exact ⟨_, contribution_of_mem hF hk hnodup hr⟩
  · exact ⟨0, contribution_of_notMem hid⟩

end Fused

/-! ### The laws of the fusion -/

section Laws
variable {P : Platform}

/-- A contribution is the weight over the constant and the average rank, and the average ranks of `n` places
    are together `1 + 2 + ⋯ + n`. -/
def KeepsRanks (P : Platform) (listWeight rrfK : JsNum) (list : List Ranked) : Prop :=
  listContributions P listWeight rrfK list = (averageRanks 0 (ties list)).map (fun p =>
      (p.1.1, P.floats.div listWeight (P.floats.add rrfK (.finite p.2)))) ∧
    ((averageRanks 0 (ties list)).map Prod.snd).sum = (list.length * (list.length + 1) : ℚ) / 2

theorem keepsRanks (hF : P.floats.Exact) {listWeight k : ℚ} (hk : 0 < k) (list : List Ranked) :
    KeepsRanks P (.finite listWeight) (.finite k) list := by
  refine ⟨?_, ?_⟩
  · rw [listContributions_eq hF hk]
    refine List.map_congr_left fun p hp => ?_
    have hfirst : ((0 : ℕ) : ℚ) < p.2 := lt_of_mem_averageRanks hp
    push_cast at hfirst
    have hne : k + p.2 ≠ 0 := by linarith
    rw [add_finite hF, div_finite hF _ hne]
  · rw [sum_averageRanks, flatten_ties]
    push_cast
    ring

/-- A ranking that is fused with an empty one. -/
theorem rrfFuse_alone (hF : P.floats.Exact) {listWeight k : ℚ} (hk : 0 < k) {list : List Ranked}
    (hnodup : (list.map Prod.fst).Nodup) :
    (listContributions P (.finite listWeight) (.finite k) list).foldl
      (fun fuse e => fuse.set e.1 (P.floats.add ((fuse.get e.1).getD (ofInt 0)) e.2)) .empty =
      singleListRanks P (.finite listWeight) (.finite k) list :=
  accumulated_eq_set hF (by rw [map_fst_listContributions]; exact hnodup)
    (isFinite_contributions hF hk rfl 0 _) fun _ _ => rfl

theorem rrfFuse_fair (hF : P.floats.Exact) {w : FusionWeights} (hw : assertValidFusionWeights w = .ok ())
    {kw vec : List Ranked} (hkw : (kw.map Prod.fst).Nodup) (hvec : (vec.map Prod.fst).Nodup)
    (hkwDesc : Descending kw) (hvecDesc : Descending vec) :
    (∀ id, (rrfFuse P kw vec w).get id =
      if id ∈ kw.map Prod.fst ∨ id ∈ vec.map Prod.fst then
        some (P.floats.add (contribution P w.keyword w.rrfK kw id) (contribution P w.semantic w.rrfK vec id))
      else none) ∧
    (FairList P w.keyword w.rrfK kw ∧ FairList P w.semantic w.rrfK vec) ∧
    (KeepsRanks P w.keyword w.rrfK kw ∧ KeepsRanks P w.semantic w.rrfK vec) ∧
    (rrfFuse P kw [] w = singleListRanks P w.keyword w.rrfK kw ∧
      rrfFuse P [] vec w = singleListRanks P w.semantic w.rrfK vec ∧
      rrfFuse P kw vec w = fuseScores P kw vec w) ∧
    ∀ c : ℚ, 0 < c → ∀ id,
      (rrfFuse P kw vec { w with
        keyword := P.floats.mul (.finite c) w.keyword
        semantic := P.floats.mul (.finite c) w.semantic }).get id =
      ((rrfFuse P kw vec w).get id).map (P.floats.mul (.finite c)) := by
  have hfinite := finiteWeights_of_valid hw
  obtain ⟨k, hk, hpositive⟩ := hfinite.positive
  obtain ⟨a, ha⟩ := isFinite_iff.mp (hfinite.finite ("keyword", w.keyword) (by simp [FusionWeights.named]))
  obtain ⟨b, hb⟩ := isFinite_iff.mp (hfinite.finite ("semantic", w.semantic) (by simp [FusionWeights.named]))
  dsimp only at ha hb
  refine ⟨get_rrfFuse hF hfinite hkw hvec, ?_, ?_, ?_, ?_⟩
  · rw [hk, ha, hb]
    exact ⟨fairList hF hpositive hkw hkwDesc, fairList hF hpositive hvec hvecDesc⟩
  · rw [hk, ha, hb]
    exact ⟨keepsRanks hF hpositive kw, keepsRanks hF hpositive vec⟩
  · have hkwAlone : rrfFuse P kw [] w = singleListRanks P w.keyword w.rrfK kw := by
      rw [rrfFuse, hk, ha]
      exact (congrArg (List.foldl _ _) (List.append_nil _)).trans (rrfFuse_alone hF hpositive hkw)
    have hvecAlone : rrfFuse P [] vec w = singleListRanks P w.semantic w.rrfK vec := by
      rw [rrfFuse, hk, hb]
      exact rrfFuse_alone hF hpositive hvec
    refine ⟨hkwAlone, hvecAlone, ?_⟩
    rw [fuseScores]
    split_ifs with hkwNil hvecNil
    · rw [hkwNil, hvecAlone]
    · rw [hvecNil, hkwAlone]
    · rfl
  · intro c hc id
    have hscaled : FiniteWeights { w with
        keyword := P.floats.mul (.finite c) w.keyword
        semantic := P.floats.mul (.finite c) w.semantic } := by
      refine ⟨?_, k, hk, hpositive⟩
      intro e he
      have hold := hfinite.finite
      simp only [FusionWeights.named, List.mem_cons, List.not_mem_nil, or_false, forall_eq_or_imp,
        forall_eq] at he hold
      rcases he with rfl | rfl | rfl | rfl | rfl | rfl | rfl
      · exact isFinite_mul hF rfl hold.1
      · exact isFinite_mul hF rfl hold.2.1
      · exact hold.2.2.1
      · exact hold.2.2.2.1
      · exact hold.2.2.2.2.1
      · exact hold.2.2.2.2.2.1
      · exact hold.2.2.2.2.2.2
    obtain ⟨p, hp⟩ := isFinite_contribution hF hpositive hkw a id
    obtain ⟨q, hq⟩ := isFinite_contribution hF hpositive hvec b id
    rw [get_rrfFuse hF hscaled hkw hvec, get_rrfFuse hF hfinite hkw hvec]
    dsimp only
    split_ifs
    · rw [hk, ha, hb, mul_finite hF, mul_finite hF, contribution_scaled hF hpositive hkw,
        contribution_scaled hF hpositive hvec, hp, hq, mul_finite hF, mul_finite hF, add_finite hF,
        add_finite hF, Option.map_some, mul_finite hF, mul_add]
    · rfl

/-- Two ids of one score, and one below them. -/
theorem rrfFuse_fair_tied :
    FairList plainPlatform (ofInt 1) (.finite (16 / 10)) [("a", ofInt 3), ("b", ofInt 3), ("c", ofInt 1)] ∧
    rrfFuse plainPlatform [("a", ofInt 3), ("b", ofInt 3), ("c", ofInt 1)] []
        (defaultFusionWeights plainPlatform) =
      singleListRanks plainPlatform (ofInt 1) (.finite (16 / 10))
        [("a", ofInt 3), ("b", ofInt 3), ("c", ofInt 1)] := by
  have hlaws := @rrfFuse_fair plainPlatform plainPlatform_exact
    (defaultFusionWeights plainPlatform) (by decide +kernel)
    [("a", ofInt 3), ("b", ofInt 3), ("c", ofInt 1)] [] (by decide) List.nodup_nil
    (by rw [Descending]; decide +kernel) .nil
  exact ⟨hlaws.2.1.1, hlaws.2.2.2.1.1⟩

end Laws

end Remembra.Retrieval
