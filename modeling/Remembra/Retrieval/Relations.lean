import Mathlib.Algebra.Order.BigOperators.Group.List
import Remembra.Retrieval.Search

/-! The expansion of a ranking along relations: a search in breadth from the seeds, along relations in either
    direction, with a budget of edges. What it returns are the seeds and then memories of the pool that a
    path joins to a seed, and no more of them than the budget. It returns all of them if the budget has room
    for the ends of relations at the memories it explores (`expandRelations_bounded`); a relation between
    two explored memories has two of them. -/

namespace Remembra.Retrieval
open Store (Memory JsNum)

/-! ### The options -/

/-- `RelationExpansionOptions` -/
structure ExpansionOptions where
  maxDepth : Option JsNum := none
  maxEdges : Option JsNum := none

/-- `Math.floor(x)` -/
def floored : JsNum → JsNum
  | .finite q => .finite ⌊q⌋
  | x => x

/-- `Math.max(0, Math.min(cap, Math.floor(x)))` -/
def clamped (cap : ℕ) (x : JsNum) : JsNum := larger (ofInt 0) (smaller (ofNat cap) (floored x))

/-- A number of steps or of edges; `NaN` is none. -/
def amount : JsNum → ℕ
  | .finite q => ⌊q⌋₊
  | _ => 0

def ExpansionOptions.depth (o : ExpansionOptions) : JsNum := clamped 2 (o.maxDepth.getD (ofInt 1))
def ExpansionOptions.edges (o : ExpansionOptions) : JsNum := clamped 128 (o.maxEdges.getD (ofInt 32))

section Expand
variable (pool : List Memory)

/-- The loop over the depth. -/
def expandRounds (maxDepth maxEdges : JsNum) : ℕ → ℕ → Expansion → Expansion
  | 0, _, st => st
  | rounds + 1, depth, st =>
    if less (ofNat depth) maxDepth && st.next ≠ [] && less (ofNat st.edges) maxEdges then
      expandRounds maxDepth maxEdges rounds (depth + 1)
        ((st.next.flatMap (neighborIds pool)).foldl
          (fun st id => if atMost maxEdges (ofNat st.edges) then st else expandEdge pool (st.edges + 1) st id)
          { st with next := [] })
    else st

/-- `expandRelationCandidates`, with its options. -/
def expandRelations (seeds : List Memory) (options : ExpansionOptions) : List Memory :=
  let maxDepth := options.depth
  let maxEdges := options.edges
  let selected := dedupeMemories seeds
  if same maxDepth (ofInt 0) || same maxEdges (ofInt 0) then selected
  else (expandRounds pool maxDepth maxEdges 2 0 ⟨selected, selected.map (·.id), selected, 0⟩).selected

end Expand

theorem clamped_cases (cap : ℕ) (x : JsNum) :
    clamped cap x = .nan ∨ ∃ n ≤ cap, clamped cap x = ofNat n := by
  have hzero (q : ℚ) : larger (ofInt 0) (.finite q) = .finite (max 0 q) := by
    rw [larger, if_neg (by simp [ofInt]), ofInt, less]
    split_ifs with h <;> simp only [Int.cast_zero, decide_eq_true_eq] at h ⊢
    · rw [max_eq_right h.le]
    · rw [max_eq_left (not_lt.mp h)]
  cases x with
  | nan => exact .inl rfl
  | infinity =>
    refine .inr ⟨cap, le_refl cap, ?_⟩
    have hmin : smaller (ofNat cap) (floored .infinity) = ofNat cap := by
      simp [smaller, floored, ofNat, less]
    rw [clamped, hmin, ofNat, hzero, max_eq_right (Nat.cast_nonneg cap)]
  | negInfinity =>
    refine .inr ⟨0, Nat.zero_le cap, ?_⟩
    have hmin : smaller (ofNat cap) (floored .negInfinity) = .negInfinity := by
      simp [smaller, floored, ofNat, less]
    rw [clamped, hmin]
    simp [larger, ofInt, less, ofNat]
  | finite q =>
    refine .inr ⟨(min (cap : ℤ) ⌊q⌋).toNat, by omega, ?_⟩
    have hmin : smaller (ofNat cap) (floored (.finite q)) = .finite (min (cap : ℤ) ⌊q⌋ : ℤ) := by
      rw [smaller, floored, ofNat, if_neg (by simp), less]
      split_ifs with h <;> rw [decide_eq_true_eq] at h
      · have hlt : ⌊q⌋ < (cap : ℤ) := by exact_mod_cast h
        rw [min_eq_right hlt.le]
      · have hle : (cap : ℤ) ≤ ⌊q⌋ := by exact_mod_cast not_lt.mp h
        rw [min_eq_left hle, Int.cast_natCast]
    rw [clamped, hmin, hzero, ofNat]
    congr 1
    rw [max_comm]
    exact_mod_cast (Int.ofNat_toNat (min (cap : ℤ) ⌊q⌋)).symm

@[simp] theorem amount_ofNat (n : ℕ) : amount (ofNat n) = n := Nat.floor_natCast n

theorem amount_clamped_le (cap : ℕ) (x : JsNum) : amount (clamped cap x) ≤ cap := by
  rcases clamped_cases cap x with h | ⟨n, hn, h⟩
  · rw [h]
    exact Nat.zero_le cap
  · rw [h, amount_ofNat]
    exact hn

/-! ### The budget -/

section Budget
variable {pool : List Memory} {maxEdges : ℕ} {st : Expansion}

theorem expandEdge_exhausted (h : maxEdges ≤ st.edges) (id : String) :
    expandEdge pool maxEdges st id = st := by
  rw [expandEdge, if_pos h]

variable (st) in
theorem foldl_expandEdge_exhausted (h : maxEdges ≤ st.edges) (ids : List String) :
    ids.foldl (expandEdge pool maxEdges) st = st := by
  induction ids with
  | nil => rfl
  | cons id ids ih => rw [List.foldl_cons, expandEdge_exhausted h, ih]

/-- Without a frontier or without edges, further rounds reach nothing. -/
theorem selected_iterate (h : st.next = [] ∨ maxEdges ≤ st.edges) (n : ℕ) :
    ((expandRound pool maxEdges)^[n] st).selected = st.selected := by
  induction n generalizing st with
  | zero => rfl
  | succ n ih =>
    rw [Function.iterate_succ_apply]
    rcases h with h | h
    · have hround : expandRound pool maxEdges st = { st with next := [] } := by
        rw [expandRound, h]
        rfl
      rw [hround]
      exact ih (.inl rfl)
    · have hround : expandRound pool maxEdges st = { st with next := [] } :=
        foldl_expandEdge_exhausted { st with next := [] } h _
      rw [hround]
      exact ih (.inl rfl)

theorem atMost_ofNat (m n : ℕ) : atMost (ofNat m) (ofNat n) = decide (m ≤ n) := by
  rw [Bool.eq_iff_iff, decide_eq_true_eq, le_iff_lt_or_eq]
  simp [atMost, less, ofNat]

theorem less_ofNat (m n : ℕ) : less (ofNat m) (ofNat n) = decide (m < n) := by
  simp [less, ofNat]

theorem less_nan (n : ℕ) : less (ofNat n) .nan = false := rfl

theorem expandEdge_eq (maxEdges : ℕ) (st : Expansion) (id : String) :
    (if atMost (ofNat maxEdges) (ofNat st.edges) then st else expandEdge pool (st.edges + 1) st id) =
      expandEdge pool maxEdges st id := by
  rw [atMost_ofNat]
  by_cases h : maxEdges ≤ st.edges
  · rw [if_pos (decide_eq_true h), expandEdge_exhausted h]
  · rw [if_neg (by rw [decide_eq_true_eq]; exact h), expandEdge, expandEdge, if_neg h, if_neg (by omega)]

theorem expandRounds_eq {maxDepth rounds depth : ℕ} (hrounds : maxDepth ≤ depth + rounds) :
    (expandRounds pool (ofNat maxDepth) (ofNat maxEdges) rounds depth st).selected =
      ((expandRound pool maxEdges)^[maxDepth - depth] st).selected := by
  induction rounds generalizing depth st with
  | zero =>
    rw [Nat.sub_eq_zero_of_le (Nat.add_zero depth ▸ hrounds)]
    rfl
  | succ rounds ih =>
    rw [expandRounds, less_ofNat, less_ofNat]
    split_ifs with h
    · simp only [Bool.and_eq_true, decide_eq_true_eq] at h
      have hround : (st.next.flatMap (neighborIds pool)).foldl (fun st id =>
          if atMost (ofNat maxEdges) (ofNat st.edges) then st else expandEdge pool (st.edges + 1) st id)
          { st with next := [] } = expandRound pool maxEdges st :=
        List.foldl_ext _ _ _ fun st id _ => expandEdge_eq maxEdges st id
      have hdepth : maxDepth - depth = maxDepth - (depth + 1) + 1 := by omega
      rw [hround, ih (by omega), hdepth, Function.iterate_succ_apply]
    · by_cases hdepth : depth < maxDepth
      · refine (selected_iterate ?_ _).symm
        by_contra hnot
        rw [not_or, not_le] at hnot
        exact h (by simp [hdepth, hnot.1, hnot.2])
      · rw [Nat.sub_eq_zero_of_le (not_lt.mp hdepth)]
        rfl

/-- With the options in their bounds, these are the rounds that a search for context runs. -/
theorem expandRelations_eq (pool seeds : List Memory) (options : ExpansionOptions) :
    expandRelations pool seeds options =
      expandRelationCandidates pool (amount options.edges) seeds (amount options.depth) := by
  have hnone (n : ℕ) : expandRelationCandidates pool 0 seeds n = dedupeMemories seeds :=
    selected_iterate (.inr (Nat.zero_le _)) _
  have hfalse (n : ℕ) (st : Expansion) : expandRounds pool options.depth .nan n 0 st = st := by
    cases n <;> simp [expandRounds, less_nan]
  rw [expandRelations]
  rcases clamped_cases 2 (options.maxDepth.getD (ofInt 1)) with hdepth | ⟨d, hd, hdepth⟩
  · have hstop : expandRounds pool .nan options.edges 2 0 ⟨dedupeMemories seeds,
        (dedupeMemories seeds).map (·.id), dedupeMemories seeds, 0⟩ = ⟨dedupeMemories seeds,
        (dedupeMemories seeds).map (·.id), dedupeMemories seeds, 0⟩ := by
      simp [expandRounds, less_nan]
    have hdepth : options.depth = .nan := hdepth
    rw [hdepth, hstop, ite_self]
    rfl
  · have hdepth : options.depth = ofNat d := hdepth
    rcases clamped_cases 128 (options.maxEdges.getD (ofInt 32)) with hedges | ⟨e, he, hedges⟩
    · have hedges : options.edges = .nan := hedges
      rw [hedges, hfalse, ite_self]
      exact (hnone _).symm
    · have hedges : options.edges = ofNat e := hedges
      have hsame (n : ℕ) : same (ofNat n) (ofInt 0) = decide (n = 0) := by
        simp [same, ofNat, ofInt]
      rw [hdepth, hedges, amount_ofNat, amount_ofNat, hsame, hsame, expandRounds_eq (by omega),
        expandRelationCandidates, min_eq_right hd, min_eq_right he, Nat.sub_zero]
      split_ifs with hzero
      · rw [Bool.or_eq_true, decide_eq_true_eq, decide_eq_true_eq] at hzero
        rcases hzero with rfl | rfl
        · rfl
        · exact (hnone d).symm.trans (by rw [expandRelationCandidates, min_eq_right hd, min_eq_right he])
      · rfl

end Budget

/-! ### Without repeated ids -/

section Dedupe
variable {l : List Memory} {a m : Memory}

theorem dedupeMemories_concat (l : List Memory) (a : Memory) :
    dedupeMemories (l ++ [a]) =
      if a.id ∈ (dedupeMemories l).map (·.id) then dedupeMemories l else dedupeMemories l ++ [a] := by
  rw [dedupeMemories, List.foldl_append]
  rfl

theorem nodup_dedupeMemories (l : List Memory) : ((dedupeMemories l).map (·.id)).Nodup := by
  induction l using List.reverseRecOn with
  | nil => exact List.nodup_nil
  | append_singleton l a ih =>
    rw [dedupeMemories_concat]
    split_ifs with h
    · exact ih
    · rw [List.map_append]
      refine ih.append (List.nodup_singleton a.id) fun i hi hid => ?_
      obtain rfl : i = a.id := List.mem_singleton.mp hid
      exact h hi

/-- The first memory with an id stands for all of them. -/
theorem find?_dedupeMemories (l : List Memory) (id : String) :
    (dedupeMemories l).find? (·.id = id) = l.find? (·.id = id) := by
  induction l using List.reverseRecOn with
  | nil => rfl
  | append_singleton l a ih =>
    rw [dedupeMemories_concat, List.find?_append, ← ih]
    split_ifs with h
    · obtain ⟨m, hm, hid⟩ := List.mem_map.mp h
      by_cases ha : a.id = id
      · have hsome : ((dedupeMemories l).find? (·.id = id)).isSome = true := by
          rw [List.find?_isSome]
          exact ⟨m, hm, by simpa using hid.trans ha⟩
        rw [Option.or_of_isSome hsome]
      · rw [List.find?_cons_of_neg (by simpa using ha), List.find?_nil, Option.or_none]
    · rw [List.find?_append]

theorem dedupeMemories_sublist (l : List Memory) : (dedupeMemories l).Sublist l := by
  induction l using List.reverseRecOn with
  | nil => exact List.Sublist.refl _
  | append_singleton l a ih =>
    rw [dedupeMemories_concat]
    split_ifs
    · exact ih.trans (List.sublist_append_left l [a])
    · exact ih.append_right [a]

theorem mem_dedupeMemories_iff : m ∈ dedupeMemories l ↔ l.find? (·.id = m.id) = some m := by
  rw [← find?_dedupeMemories]
  constructor
  · intro hm
    obtain ⟨k, hk⟩ : ∃ k, (dedupeMemories l).find? (·.id = m.id) = some k := by
      rw [← Option.isSome_iff_exists, List.find?_isSome]
      exact ⟨m, hm, by simp⟩
    have hid : k.id = m.id := by simpa using List.find?_some hk
    have hsame : k = m :=
      List.inj_on_of_nodup_map (nodup_dedupeMemories l) (List.mem_of_find?_eq_some hk) hm hid
    rw [hk, hsame]
  · exact List.mem_of_find?_eq_some

theorem mem_map_id_dedupeMemories {id : String} :
    id ∈ (dedupeMemories l).map (·.id) ↔ id ∈ l.map (·.id) := by
  refine ⟨fun h => (dedupeMemories_sublist l).map (·.id) |>.subset h, fun h => ?_⟩
  obtain ⟨m, hm, rfl⟩ := List.mem_map.mp h
  obtain ⟨k, hk⟩ : ∃ k, (dedupeMemories l).find? (·.id = m.id) = some k := by
    rw [find?_dedupeMemories, ← Option.isSome_iff_exists, List.find?_isSome]
    exact ⟨m, hm, by simp⟩
  have hid : k.id = m.id := by simpa using List.find?_some hk
  exact hid ▸ List.mem_map_of_mem (List.mem_of_find?_eq_some hk)

end Dedupe

/-! ### Paths -/

section Paths
variable (pool seeds : List Memory)

/-- The memories of the search. Of several with one id, it is a seed, or else the last one of the pool. -/
def relationNodes : List Memory := dedupeMemories (seeds ++ pool.reverse)

/-- A relation from the memory to the id, or from a memory of the pool with the id to it. -/
def Linked (a : Memory) (id : String) : Prop :=
  (∃ r ∈ a.relations.getD [], r.id = id) ∨ ∃ n ∈ pool, n.id = id ∧ ∃ r ∈ n.relations.getD [], r.id = a.id

/-- So many relations, in either direction, lead from a seed to the id. -/
inductive Path : ℕ → String → Prop
  | seed {s : Memory} : s ∈ seeds → Path 0 s.id
  | step {n : ℕ} {a : Memory} {id : String} : Path n a.id → a ∈ relationNodes pool seeds →
    Linked pool a id → Path (n + 1) id

/-- The memories within a distance of the seeds. -/
def within : ℕ → List Memory
  | 0 => dedupeMemories seeds
  | n + 1 => (relationNodes pool seeds).filter fun m =>
    m.id ∈ (within n).map (·.id) || m.id ∈ (within n).flatMap (neighborIds pool)

/-- The ends of relations at the memories within a distance. -/
def relationEnds (n : ℕ) : ℕ := ((within pool seeds n).map fun m => (neighborIds pool m).length).sum

variable {pool seeds} {a m : Memory} {id : String} {n : ℕ}

theorem mem_neighborIds : id ∈ neighborIds pool a ↔ Linked pool a id := by
  rw [neighborIds, List.mem_append, Linked, List.mem_map]
  refine or_congr Iff.rfl ?_
  simp only [List.mem_flatMap, List.mem_map, List.mem_filter, decide_eq_true_eq]
  constructor
  · rintro ⟨k, hk, r, ⟨hr, hid⟩, rfl⟩
    exact ⟨k, hk, rfl, r, hr, hid⟩
  · rintro ⟨k, hk, rfl, r, hr, hid⟩
    exact ⟨k, hk, r, ⟨hr, hid⟩, rfl⟩

theorem mem_nodes_of_seed (h : m ∈ dedupeMemories seeds) : m ∈ relationNodes pool seeds := by
  rw [relationNodes, mem_dedupeMemories_iff, List.find?_append, mem_dedupeMemories_iff.mp h]
  rfl

/-- What the search finds in the pool, of an id that no seed has. -/
theorem mem_nodes_of_find? (hid : id ∉ seeds.map (·.id)) (h : pool.reverse.find? (·.id = id) = some m) :
    m ∈ relationNodes pool seeds ∧ m.id = id ∧ m ∈ pool := by
  have hsame : m.id = id := by simpa using List.find?_some h
  have hnone : seeds.find? (·.id = m.id) = none := by
    rw [List.find?_eq_none]
    intro s hs heq
    rw [decide_eq_true_eq] at heq
    exact hid (hsame ▸ heq ▸ List.mem_map_of_mem hs)
  refine ⟨?_, hsame, List.mem_reverse.mp (List.mem_of_find?_eq_some h)⟩
  rw [relationNodes, mem_dedupeMemories_iff, List.find?_append, hnone, hsame, h]
  rfl

theorem path_zero_iff : Path pool seeds 0 id ↔ id ∈ seeds.map (·.id) := by
  constructor
  · rintro ⟨hs⟩
    exact List.mem_map_of_mem hs
  · intro h
    obtain ⟨s, hs, rfl⟩ := List.mem_map.mp h
    exact .seed hs

theorem path_succ_iff : Path pool seeds (n + 1) id ↔
    ∃ a ∈ relationNodes pool seeds, Path pool seeds n a.id ∧ id ∈ neighborIds pool a := by
  constructor
  · intro h
    cases h with
    | step hpath ha hlinked => exact ⟨_, ha, hpath, mem_neighborIds.mpr hlinked⟩
  · rintro ⟨a, ha, hpath, hid⟩
    exact .step hpath ha (mem_neighborIds.mp hid)

theorem mem_within : m ∈ within pool seeds n ↔
    m ∈ relationNodes pool seeds ∧ ∃ j ≤ n, Path pool seeds j m.id := by
  induction n generalizing m with
  | zero =>
    simp only [Nat.le_zero, exists_eq_left, path_zero_iff]
    constructor
    · intro hm
      exact ⟨mem_nodes_of_seed hm, List.mem_map_of_mem ((dedupeMemories_sublist seeds).subset hm)⟩
    · rintro ⟨hnode, hid⟩
      rw [relationNodes, mem_dedupeMemories_iff, List.find?_append] at hnode
      obtain ⟨s, hs, hsame⟩ := List.mem_map.mp hid
      have hsome : (seeds.find? (·.id = m.id)).isSome = true := by
        rw [List.find?_isSome]
        exact ⟨s, hs, by simpa using hsame⟩
      rw [Option.or_of_isSome hsome] at hnode
      exact mem_dedupeMemories_iff.mpr hnode
  | succ n ih =>
    simp only [within, List.mem_filter, Bool.or_eq_true, decide_eq_true_eq, List.mem_map, List.mem_flatMap]
    refine and_congr_right fun hnode => ?_
    constructor
    · rintro (⟨k, hk, hid⟩ | ⟨a, ha, hid⟩)
      · obtain ⟨-, j, hj, hpath⟩ := ih.mp hk
        exact ⟨j, Nat.le_succ_of_le hj, hid ▸ hpath⟩
      · obtain ⟨hanode, j, hj, hpath⟩ := ih.mp ha
        exact ⟨j + 1, Nat.succ_le_succ hj, path_succ_iff.mpr ⟨a, hanode, hpath, hid⟩⟩
    · rintro ⟨j, hj, hpath⟩
      rcases Nat.lt_or_ge j (n + 1) with hlt | hge
      · exact .inl ⟨m, ih.mpr ⟨hnode, j, Nat.lt_succ_iff.mp hlt, hpath⟩, rfl⟩
      · obtain rfl : j = n + 1 := Nat.le_antisymm hj hge
        obtain ⟨a, ha, hpath, hid⟩ := path_succ_iff.mp hpath
        exact .inr ⟨a, ih.mpr ⟨ha, n, le_refl n, hpath⟩, hid⟩

end Paths

/-! ### What a round reaches -/

section Rounds
variable {pool seeds : List Memory} {maxEdges n : ℕ} {st : Expansion} {id : String}

/-- What holds of the search at a depth, whatever the budget. -/
structure Searching (pool seeds : List Memory) (maxEdges n : ℕ) (st : Expansion) : Prop where
  front : ∃ added, st.selected = dedupeMemories seeds ++ added ∧ added.length ≤ st.edges ∧
    ∀ m ∈ added, m ∈ pool
  visited : st.visited = st.selected.map (·.id)
  nodup : (st.selected.map (·.id)).Nodup
  reached : ∀ m ∈ st.selected, m ∈ within pool seeds n
  next : st.next ⊆ st.selected
  edges : st.edges ≤ maxEdges

theorem Searching.start (pool seeds : List Memory) (maxEdges : ℕ) :
    Searching pool seeds maxEdges 0
      ⟨dedupeMemories seeds, (dedupeMemories seeds).map (·.id), dedupeMemories seeds, 0⟩ where
  front := ⟨[], (List.append_nil _).symm, Nat.le_refl 0, fun _ h => absurd h List.not_mem_nil⟩
  visited := rfl
  nodup := nodup_dedupeMemories seeds
  reached _ h := h
  next _ h := h
  edges := Nat.zero_le _

/-- An edge is looked at, and nothing or one new memory of the pool is reached by it. -/
theorem expandEdge_cases (hst : Searching pool seeds maxEdges n st) (hedges : st.edges < maxEdges)
    (id : String) :
    (expandEdge pool maxEdges st id = { st with edges := st.edges + 1 } ∧
      (id ∈ st.visited ∨ id ∉ pool.map (·.id))) ∨
    ∃ m ∈ pool, m.id = id ∧ id ∉ st.visited ∧ m ∈ relationNodes pool seeds ∧
      expandEdge pool maxEdges st id =
        ⟨st.selected ++ [m], st.visited ++ [id], st.next ++ [m], st.edges + 1⟩ := by
  rw [expandEdge, if_neg (not_le.mpr hedges)]
  dsimp only
  by_cases hid : id ∈ st.visited
  · rw [if_pos hid]
    exact .inl ⟨rfl, .inl hid⟩
  · rw [if_neg hid]
    cases hfind : pool.reverse.find? (·.id = id) with
    | none =>
      refine .inl ⟨rfl, .inr fun hmem => ?_⟩
      obtain ⟨m, hm, rfl⟩ := List.mem_map.mp hmem
      exact List.find?_eq_none.mp hfind m (List.mem_reverse.mpr hm) (by simp)
    | some m =>
      have hseed : id ∉ seeds.map (·.id) := by
        obtain ⟨added, hselected, -⟩ := hst.front
        intro hseed
        rw [hst.visited, hselected, List.map_append] at hid
        exact hid (List.mem_append_left _ (mem_map_id_dedupeMemories.mpr hseed))
      obtain ⟨hnode, hsame, hpool⟩ := mem_nodes_of_find? hseed hfind
      exact .inr ⟨m, hpool, hsame, hid, hnode, rfl⟩

theorem within_succ (m : Memory) (h : m ∈ within pool seeds n) : m ∈ within pool seeds (n + 1) := by
  obtain ⟨hnode, j, hj, hpath⟩ := mem_within.mp h
  exact mem_within.mpr ⟨hnode, j, Nat.le_succ_of_le hj, hpath⟩

/-- The frontier is laid aside for a new round. -/
theorem Searching.turn (h : Searching pool seeds maxEdges n st) :
    Searching pool seeds maxEdges (n + 1) { st with next := [] } where
  front := h.front
  visited := h.visited
  nodup := h.nodup
  reached m hm := within_succ m (h.reached m hm)
  next := List.nil_subset _
  edges := h.edges

theorem Searching.edge (h : Searching pool seeds maxEdges (n + 1) st)
    (hid : ∃ a ∈ within pool seeds n, id ∈ neighborIds pool a) :
    Searching pool seeds maxEdges (n + 1) (expandEdge pool maxEdges st id) := by
  by_cases hedges : st.edges < maxEdges
  · rcases expandEdge_cases h hedges id with ⟨heq, -⟩ | ⟨m, hpool, rfl, hnew, hnode, heq⟩
    · rw [heq]
      obtain ⟨added, hselected, hlength, hadded⟩ := h.front
      exact { h with front := ⟨added, hselected, Nat.le_succ_of_le hlength, hadded⟩, edges := hedges }
    · rw [heq]
      obtain ⟨added, hselected, hlength, hadded⟩ := h.front
      obtain ⟨a, ha, hneighbor⟩ := hid
      refine ⟨⟨added ++ [m], ?_, ?_, ?_⟩, ?_, ?_, ?_, ?_, hedges⟩
      · rw [hselected, List.append_assoc]
      · rw [List.length_append]
        exact Nat.succ_le_succ hlength
      · exact List.forall_mem_append.mpr ⟨hadded, List.forall_mem_singleton.mpr hpool⟩
      · rw [h.visited, List.map_append]
        rfl
      · rw [List.map_append]
        refine h.nodup.append (List.nodup_singleton m.id) fun i hi him => ?_
        obtain rfl : i = m.id := List.mem_singleton.mp him
        exact hnew (h.visited ▸ hi)
      · refine List.forall_mem_append.mpr ⟨h.reached, List.forall_mem_singleton.mpr ?_⟩
        obtain ⟨-, j, hj, hpath⟩ := mem_within.mp ha
        exact mem_within.mpr ⟨hnode, j + 1, Nat.succ_le_succ hj,
          path_succ_iff.mpr ⟨a, (mem_within.mp ha).1, hpath, hneighbor⟩⟩
      · exact List.append_subset.mpr ⟨fun k hk => List.mem_append_left _ (h.next hk),
          List.subset_append_right _ _⟩
  · rw [expandEdge_exhausted (not_lt.mp hedges)]
    exact h

theorem Searching.foldl (h : Searching pool seeds maxEdges (n + 1) st) {ids : List String}
    (hids : ∀ id ∈ ids, ∃ a ∈ within pool seeds n, id ∈ neighborIds pool a) :
    Searching pool seeds maxEdges (n + 1) (ids.foldl (expandEdge pool maxEdges) st) := by
  induction ids generalizing st with
  | nil => exact h
  | cons id ids ih =>
    rw [List.forall_mem_cons] at hids
    exact ih (h.edge hids.1) hids.2

theorem Searching.frontier (h : Searching pool seeds maxEdges n st) (id : String)
    (hid : id ∈ st.next.flatMap (neighborIds pool)) :
    ∃ a ∈ within pool seeds n, id ∈ neighborIds pool a := by
  obtain ⟨a, ha, hid⟩ := List.mem_flatMap.mp hid
  exact ⟨a, h.reached a (h.next ha), hid⟩

/-- One round reaches one step further. -/
theorem Searching.round (h : Searching pool seeds maxEdges n st) :
    Searching pool seeds maxEdges (n + 1) (expandRound pool maxEdges st) :=
  h.turn.foldl h.frontier

/-! ### What a round with room in the budget reaches -/

/-- What was explored and what is explored next; the edges of the former are counted. -/
structure Covering (pool : List Memory) (st : Expansion) (explored : List Memory) : Prop where
  parts : st.selected = explored ++ st.next
  count : st.edges = (explored.map fun m => (neighborIds pool m).length).sum
  closed : ∀ a ∈ explored, ∀ id ∈ neighborIds pool a, id ∈ pool.map (·.id) → id ∈ st.visited

/-- Edges that the budget has room for. -/
theorem expandEdges_room (hst : Searching pool seeds maxEdges (n + 1) st) {ids : List String}
    (hids : ∀ id ∈ ids, ∃ a ∈ within pool seeds n, id ∈ neighborIds pool a)
    (hroom : st.edges + ids.length ≤ maxEdges) :
    let after := ids.foldl (expandEdge pool maxEdges) st
    after.edges = st.edges + ids.length ∧
      (∃ new, after.selected = st.selected ++ new ∧ after.next = st.next ++ new) ∧
      st.visited ⊆ after.visited ∧ ∀ id ∈ ids, id ∈ pool.map (·.id) → id ∈ after.visited := by
  induction ids generalizing st with
  | nil => exact ⟨rfl, ⟨[], (List.append_nil _).symm, (List.append_nil _).symm⟩, fun _ h => h,
      fun _ h => absurd h List.not_mem_nil⟩
  | cons id ids ih =>
    rw [List.forall_mem_cons] at hids
    rw [List.length_cons] at hroom
    have hnext := hst.edge hids.1
    have hcases := expandEdge_cases hst (by omega) id
    have hedges : (expandEdge pool maxEdges st id).edges = st.edges + 1 := by
      rcases hcases with ⟨heq, -⟩ | ⟨m, -, -, -, -, heq⟩ <;> rw [heq]
    obtain ⟨hcount, ⟨new, hselected, hfrontier⟩, hkept, hcovered⟩ := ih hnext hids.2 (by omega)
    rw [hedges] at hcount
    rw [List.foldl_cons, List.length_cons]
    rcases hcases with ⟨heq, hskip⟩ | ⟨m, -, -, -, -, heq⟩
    · rw [heq] at hcount hselected hfrontier hkept hcovered ⊢
      refine ⟨by omega, ⟨new, hselected, hfrontier⟩, hkept,
        List.forall_mem_cons.mpr ⟨fun hpool => ?_, hcovered⟩⟩
      exact hkept (hskip.resolve_right fun hnot => hnot hpool)
    · rw [heq] at hcount hselected hfrontier hkept hcovered ⊢
      refine ⟨by omega, ⟨m :: new, ?_, ?_⟩, ?_, List.forall_mem_cons.mpr ⟨fun _ => ?_, hcovered⟩⟩
      · rw [hselected, List.append_assoc]
        rfl
      · rw [hfrontier, List.append_assoc]
        rfl
      · exact List.Subset.trans (List.subset_append_left _ _) hkept
      · exact hkept (List.mem_append_right _ (List.mem_singleton_self id))

theorem Covering.round {explored : List Memory} (h : Covering pool st explored)
    (hst : Searching pool seeds maxEdges n st)
    (hroom : (st.selected.map fun m => (neighborIds pool m).length).sum ≤ maxEdges) :
    Covering pool (expandRound pool maxEdges st) st.selected ∧
      st.visited ⊆ (expandRound pool maxEdges st).visited := by
  have hlength : (st.next.flatMap (neighborIds pool)).length =
      (st.next.map fun m => (neighborIds pool m).length).sum := List.length_flatMap
  rw [h.parts, List.map_append, List.sum_append, ← h.count, ← hlength] at hroom
  obtain ⟨hcount, ⟨new, hselected, hnext⟩, hkept, hcovered⟩ :=
    expandEdges_room hst.turn hst.frontier hroom
  refine ⟨⟨?_, ?_, ?_⟩, hkept⟩
  · rw [expandRound, hselected, hnext]
    rfl
  · rw [expandRound, hcount, hlength, h.parts, List.map_append, List.sum_append, ← h.count]
  · rw [h.parts]
    refine List.forall_mem_append.mpr ⟨fun a ha id hid hpool => hkept (h.closed a ha id hid hpool), ?_⟩
    exact fun a ha id hid hpool => hcovered id (List.mem_flatMap.mpr ⟨a, ha, hid⟩) hpool

theorem sum_degree_le {l l' : List Memory} (hnodup : (l.map (·.id)).Nodup) (hsub : l ⊆ l') :
    (l.map fun m => (neighborIds pool m).length).sum ≤ (l'.map fun m => (neighborIds pool m).length).sum := by
  obtain ⟨k, hperm, hsublist⟩ := List.subperm_of_subset (hnodup.of_map _) hsub
  rw [← (hperm.map _).sum_eq]
  exact (hsublist.map _).sum_le_sum fun _ _ => Nat.zero_le _

/-- The search after so many rounds. -/
def searchAfter (pool : List Memory) (maxEdges : ℕ) (seeds : List Memory) (n : ℕ) : Expansion :=
  (expandRound pool maxEdges)^[n]
    ⟨dedupeMemories seeds, (dedupeMemories seeds).map (·.id), dedupeMemories seeds, 0⟩

theorem searchAfter_succ (n : ℕ) : searchAfter pool maxEdges seeds (n + 1) =
    expandRound pool maxEdges (searchAfter pool maxEdges seeds n) := Function.iterate_succ_apply' ..

variable (pool seeds maxEdges) in
theorem searching_after (n : ℕ) : Searching pool seeds maxEdges n (searchAfter pool maxEdges seeds n) := by
  induction n with
  | zero => exact Searching.start pool seeds maxEdges
  | succ n ih =>
    rw [searchAfter_succ]
    exact ih.round

/-- With room for the ends of relations at what is explored, every memory within the distance is reached. -/
theorem covering_after (n : ℕ) (hroom : ∀ k < n, relationEnds pool seeds k ≤ maxEdges) :
    (∃ explored, Covering pool (searchAfter pool maxEdges seeds n) explored) ∧
    ∀ j ≤ n, ∀ id, Path pool seeds j id → id ∈ pool.map (·.id) →
      id ∈ (searchAfter pool maxEdges seeds n).visited := by
  induction n with
  | zero =>
    refine ⟨⟨[], rfl, rfl, fun _ h => absurd h List.not_mem_nil⟩, fun j hj id hpath _ => ?_⟩
    obtain rfl : j = 0 := Nat.le_zero.mp hj
    exact mem_map_id_dedupeMemories.mpr (path_zero_iff.mp hpath)
  | succ n ih =>
    obtain ⟨⟨explored, hcover⟩, hreach⟩ := ih fun k hk => hroom k (Nat.lt_succ_of_lt hk)
    have hst := searching_after pool seeds maxEdges n
    have hall : ((searchAfter pool maxEdges seeds n).selected.map fun m => (neighborIds pool m).length).sum ≤
        maxEdges := (sum_degree_le hst.nodup hst.reached).trans (hroom n n.lt_succ_self)
    obtain ⟨hnext, hkept⟩ := hcover.round hst hall
    rw [searchAfter_succ]
    refine ⟨⟨_, hnext⟩, fun j hj id hpath hid => ?_⟩
    rcases Nat.lt_or_ge j (n + 1) with hlt | hge
    · exact hkept (hreach j (Nat.lt_succ_iff.mp hlt) id hpath hid)
    · obtain rfl : j = n + 1 := Nat.le_antisymm hj hge
      obtain ⟨a, ha, hpath, hneighbor⟩ := path_succ_iff.mp hpath
      -- The memory before the last step has been selected itself, as no other has its id.
      have hvisited : a.id ∈ (searchAfter pool maxEdges seeds n).visited := by
        rcases List.mem_append.mp ((dedupeMemories_sublist _).subset ha) with hseed | hpool
        · obtain ⟨added, hselected, -⟩ := hst.front
          rw [hst.visited, hselected, List.map_append]
          exact List.mem_append_left _ (mem_map_id_dedupeMemories.mpr (List.mem_map_of_mem hseed))
        · exact hreach n (le_refl n) a.id hpath (List.mem_map_of_mem (List.mem_reverse.mp hpool))
      rw [hst.visited] at hvisited
      obtain ⟨m, hm, hsame⟩ := List.mem_map.mp hvisited
      have hnode := (mem_within.mp (hst.reached m hm)).1
      obtain rfl : m = a :=
        List.inj_on_of_nodup_map (nodup_dedupeMemories (seeds ++ pool.reverse)) hnode ha hsame
      exact hnext.closed m hm id hneighbor hid

end Rounds

/-- What the expansion promises, with its options brought into their bounds. -/
structure Bounded (pool seeds : List Memory) (depth edges : ℕ) (out : List Memory) : Prop where
  /-- The seeds without repeated ids come first, then memories of the pool, no more than there are edges. -/
  parts : ∃ kept added, out = kept ++ added ∧ kept.Sublist seeds ∧
    (∀ id, id ∈ kept.map (·.id) ↔ id ∈ seeds.map (·.id)) ∧ (∀ m ∈ added, m ∈ pool) ∧ added.length ≤ edges
  distinct : (out.map (·.id)).Nodup
  joined : ∀ m ∈ out, ∃ j ≤ depth, Path pool seeds j m.id
  /-- With room for the ends of relations at the memories that are explored, nothing within the distance is
      missing. -/
  complete : (∀ k < depth, relationEnds pool seeds k ≤ edges) →
    ∀ m ∈ pool, (∃ j ≤ depth, Path pool seeds j m.id) → m.id ∈ out.map (·.id)

theorem expandRelations_bounded (pool seeds : List Memory) (options : ExpansionOptions) :
    amount options.depth ≤ 2 ∧ amount options.edges ≤ 128 ∧
      Bounded pool seeds (amount options.depth) (amount options.edges)
        (expandRelations pool seeds options) := by
  have hdepth : amount options.depth ≤ 2 := amount_clamped_le 2 _
  have hedges : amount options.edges ≤ 128 := amount_clamped_le 128 _
  have hout : expandRelations pool seeds options =
      (searchAfter pool (amount options.edges) seeds (amount options.depth)).selected := by
    rw [expandRelations_eq, expandRelationCandidates, min_eq_right hdepth, min_eq_right hedges]
    rfl
  refine ⟨hdepth, hedges, ?_⟩
  rw [hout]
  have hst := searching_after pool seeds (amount options.edges)
    (amount options.depth)
  obtain ⟨added, hselected, hlength, hadded⟩ := hst.front
  refine ⟨⟨_, added, hselected, dedupeMemories_sublist seeds, fun _ => mem_map_id_dedupeMemories, hadded,
    hlength.trans hst.edges⟩, hst.nodup, fun m hm => (mem_within.mp (hst.reached m hm)).2, ?_⟩
  rintro hroom m hm ⟨j, hj, hpath⟩
  rw [← hst.visited]
  exact (covering_after _ hroom).2 j hj m.id hpath (List.mem_map_of_mem hm)

/-- The relations that begin or end at a memory within a distance, each counted once. -/
def incidentRelations (pool seeds : List Memory) (n : ℕ) : ℕ :=
  ((relationNodes pool seeds).flatMap fun m => (m.relations.getD []).map fun r => (m.id, r.id)).countP
    fun e => e.1 ∈ (within pool seeds n).map (·.id) || e.2 ∈ (within pool seeds n).map (·.id)

def related (id : String) (targets : List String) : Memory :=
  { plainMemory id "" "global" with relations := some (targets.map fun target => ⟨target, .related⟩) }

/-- Two edges are room for two relations, but not for the one between the seeds, which is seen from both. -/
theorem expandRelations_shared : ¬ ∀ (pool seeds : List Memory) (options : ExpansionOptions),
    (∀ k < amount options.depth, incidentRelations pool seeds k ≤ amount options.edges) →
    ∀ m ∈ pool, (∃ j ≤ amount options.depth, Path pool seeds j m.id) →
      m.id ∈ (expandRelations pool seeds options).map (·.id) := by
  intro h
  have hmissing := h [related "a" ["b"], related "b" [], related "c" ["b"]]
    [related "a" ["b"], related "b" []]
    { maxDepth := some (ofNat 1), maxEdges := some (ofNat 2) } (by decide +kernel) (related "c" ["b"])
    (by simp) ⟨1, by decide +kernel, ?_⟩
  · revert hmissing
    decide +kernel
  · have hseed : related "b" [] ∈ dedupeMemories [related "a" ["b"], related "b" []] :=
      mem_dedupeMemories_iff.mpr rfl
    exact .step (.seed (s := related "b" []) (by simp)) (mem_nodes_of_seed hseed)
      (mem_neighborIds.mp (by decide +kernel))

end Remembra.Retrieval
