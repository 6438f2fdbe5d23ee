import Mathlib
import Remembra.Retrieval.Scores
import Remembra.Service.World

/-! `consolidate`: what it finds among some memories. Two memories of one group are compared unless one of
    them is reported as an exact duplicate of the other, and a duplicate is reported of the first memory
    with its fingerprint only. So of three with one fingerprint two are compared, and which two depends on
    the order. The findings are consistent exactly where no such pair has anything to be found
    (`consistent_iff`). -/

namespace Remembra.Service
open Store (Memory MemoryType JsNum Vocabulary)
open Retrieval (Floats atMost ofInt cosine)

/-- A pair of memories, by their ids, and why it is one. -/
structure Finding where
  a : String
  b : String
  reason : String
  deriving DecidableEq

structure Fragment where
  ids : List String
  type : MemoryType
  scope : String

structure ConsolidationFindings where
  /-- The duplicate, and what it is one of. -/
  exactDuplicates : List (String × String)
  nearDuplicates : List Finding
  contradictions : List Finding
  fragments : List Fragment

/-- An option may also be given as `undefined`. -/
structure ConsolidationOpts where
  similarityThreshold : Option (Option JsNum) := none
  fragmentWindowDays : Option (Option JsNum) := none

/-- What the findings take from the rankingPlatform beside what the service takes. -/
structure Numbers where
  floats : Floats
  /-- `n.toFixed(3)` -/
  toFixed3 : JsNum → String

section Consolidate
variable (C : Config) (N : Numbers) (opts : ConsolidationOpts) (now : ℤ)

def rankingPlatform : Retrieval.Platform := ⟨C.text, C.host.dateParse, N.floats⟩

/-- `cosineSim`, which computes what `cosine` does. -/
def cosineSim (u v : List JsNum) : JsNum := cosine (rankingPlatform C N) u v

/-- `{ ...DEFAULT_OPTS, ...opts }.similarityThreshold` -/
def threshold : Option JsNum := opts.similarityThreshold.getD (some (N.floats.literal (92 / 100)))

def windowDays : Option JsNum := opts.fragmentWindowDays.getD (some (ofInt 7))

/-- The similarity of two memories that have vectors of one length. -/
def similarity (a b : Memory) : Option JsNum :=
  match a.embedding, b.embedding with
  | some u, some v => if u.length = v.length then some (cosineSim C N u v) else none
  | _, _ => none

def isNear (a b : Memory) : Bool :=
  (similarity C N a b).any fun sim => atMost ((threshold N opts).getD (N.floats.literal (92 / 100))) sim

def nearText (sim : Option JsNum) : String :=
  "cosine similarity " ++ (sim.map N.toFixed3).getD "" ++ " ≥ " ++
    ((threshold N opts).map C.host.numText).getD "undefined"

def nearReason (a b : Memory) : String := nearText C N opts (similarity C N a b)

local instance lawfulPairs : LawfulBEq (String × String) := inferInstance

/-- One of the two is a known duplicate of the other. -/
def skipped (duplicates : List (String × String)) (pair : Memory × Memory) : Bool :=
  (pair.1.id, pair.2.id) ∈ duplicates || (pair.2.id, pair.1.id) ∈ duplicates

/-- The pairs within the groups, newest first. -/
def groupPairs (memories : List Memory) : List (Memory × Memory) :=
  (groups memories).flatMap fun group => pairs (group.mergeSort (newerFirst C))

/-- The pairs that are compared and found. -/
def found (is : Memory → Memory → Bool) (reason : Memory → Memory → String) (memories : List Memory) :
    List Finding :=
  let duplicates := exactDuplicates C [] memories
  ((groupPairs C memories).filter fun pair => !skipped duplicates pair && is pair.1 pair.2).map
    fun pair => ⟨pair.1.id, pair.2.id, reason pair.1 pair.2⟩

/-- `s.split(/\s+/).length` -/
def pieces (s : String) : ℕ :=
  ((s.toList.splitBy fun c d => Regex.isSpace c == Regex.isSpace d).filter fun run =>
    run.head?.any Regex.isSpace).length + 1

def isRecent (m : Memory) : Bool :=
  let F := N.floats
  let cutoff := F.sub (ofInt now) (F.mul ((windowDays opts).getD (ofInt 7)) (ofInt 86400000))
  (C.host.dateParse m.createdAt).any fun t => atMost cutoff (ofInt t)

/-- Three or more memories of the group are recent, and all that are so are short. -/
def fragment (group : List Memory) : Option Fragment :=
  let sorted := group.mergeSort (newerFirst C)
  let recent := sorted.filter (isRecent C N opts now)
  match sorted with
  | m :: _ =>
    if 3 ≤ recent.length && recent.all fun m => pieces m.content < 15 then
      some ⟨recent.map (·.id), m.type, m.scope⟩
    else none
  | [] => none

def nearDuplicates (memories : List Memory) : List Finding :=
  found C (isNear C N opts) (nearReason C N opts) memories

def contradictory (memories : List Memory) : List Finding :=
  found C (appearsContradictory C) (fun _ _ => "semantic opposition detected") memories

def consolidate (memories : List Memory) : ConsolidationFindings where
  exactDuplicates := exactDuplicates C [] memories
  nearDuplicates := nearDuplicates C N opts memories
  contradictions := contradictory C memories
  fragments := ((groups memories).filter fun group => 2 ≤ group.length).filterMap (fragment C N opts now)

end Consolidate

/-! ### Pairs -/

section Pairs
variable {α β : Type} {l : List α} {x y : α}

theorem mem_of_mem_pairs {p : α × α} (h : p ∈ pairs l) : p.1 ∈ l ∧ p.2 ∈ l := by
  induction l with
  | nil => cases h
  | cons a l ih =>
    rw [pairs, List.mem_append, List.mem_map] at h
    rcases h with ⟨b, hb, rfl⟩ | h
    · exact ⟨List.mem_cons_self, List.mem_cons_of_mem _ hb⟩
    · exact ⟨List.mem_cons_of_mem _ (ih h).1, List.mem_cons_of_mem _ (ih h).2⟩

/-- Of two members one comes first. -/
theorem mem_pairs_or (hx : x ∈ l) (hy : y ∈ l) (hne : x ≠ y) : (x, y) ∈ pairs l ∨ (y, x) ∈ pairs l := by
  induction l with
  | nil => cases hx
  | cons a l ih =>
    simp only [pairs, List.mem_append, List.mem_map, Prod.mk.injEq]
    rcases List.mem_cons.mp hx with rfl | hxl
    · rcases List.mem_cons.mp hy with rfl | hyl
      · exact absurd rfl hne
      · exact .inl (.inl ⟨y, hyl, rfl, rfl⟩)
    · rcases List.mem_cons.mp hy with rfl | hyl
      · exact .inr (.inl ⟨x, hxl, rfl, rfl⟩)
      · exact (ih hxl hyl).imp .inr .inr

theorem ne_of_mem_pairs {p : α × α} (hl : l.Nodup) (h : p ∈ pairs l) : p.1 ≠ p.2 := by
  induction l with
  | nil => cases h
  | cons a l ih =>
    obtain ⟨ha, hl⟩ := List.nodup_cons.mp hl
    rw [pairs, List.mem_append, List.mem_map] at h
    rcases h with ⟨b, hb, rfl⟩ | h
    · intro heq
      obtain rfl : a = b := heq
      exact ha hb
    · exact ih hl h

/-- Of two members of a list one stands before the other. -/
theorem before_or (hx : x ∈ l) (hy : y ∈ l) (hne : x ≠ y) :
    (∃ front back, l = front ++ y :: back ∧ x ∈ front) ∨
      ∃ front back, l = front ++ x :: back ∧ y ∈ front := by
  obtain ⟨front, back, rfl⟩ := List.append_of_mem hy
  rcases List.mem_append.mp hx with hfront | htail
  · exact .inl ⟨front, back, rfl, hfront⟩
  · rcases List.mem_cons.mp htail with heq | hback
    · exact absurd heq hne
    · obtain ⟨mid, last, rfl⟩ := List.append_of_mem hback
      exact .inr ⟨front ++ y :: mid, last, by simp, by simp⟩

theorem pairs_map (f : α → β) (l : List α) : pairs (l.map f) = (pairs l).map (Prod.map f f) := by
  induction l with
  | nil => rfl
  | cons a l ih => simp [pairs, ih, Function.comp_def]

theorem nodup_pairs (h : l.Nodup) : ((pairs l).map fun p => s(p.1, p.2)).Nodup := by
  induction l with
  | nil => exact List.nodup_nil
  | cons a l ih =>
    obtain ⟨ha, hl⟩ := List.nodup_cons.mp h
    rw [pairs, List.map_append, List.map_map]
    refine List.nodup_append'.mpr ⟨?_, ih hl, ?_⟩
    · refine hl.map_on fun b hb c hc heq => ?_
      exact Sym2.congr_right.mp heq
    · intro z hz hz'
      obtain ⟨b, -, rfl⟩ := List.mem_map.mp hz
      obtain ⟨p, hp, heq⟩ := List.mem_map.mp hz'
      obtain ⟨h1, h2⟩ := mem_of_mem_pairs hp
      have hmem : a ∈ s(p.1, p.2) := by
        rw [heq]
        exact Sym2.mem_mk_left a b
      rcases Sym2.mem_iff.mp hmem with rfl | rfl
      · exact ha h1
      · exact ha h2

/-- The places of a list with a head. -/
theorem exists_place_cons {P : List α → α → List α → Prop} {a : α} :
    (∃ front b back, a :: l = front ++ b :: back ∧ P front b back) ↔
      P [] a l ∨ ∃ front b back, l = front ++ b :: back ∧ P (a :: front) b back := by
  constructor
  · rintro ⟨front, b, back, heq, hP⟩
    cases front with
    | nil =>
      cases heq
      exact .inl hP
    | cons c front =>
      cases heq
      exact .inr ⟨front, b, back, rfl, hP⟩
  · rintro (hP | ⟨front, b, back, rfl, hP⟩)
    · exact ⟨[], a, l, rfl, hP⟩
    · exact ⟨a :: front, b, back, rfl, hP⟩

theorem exists_perm_cons (h : x ∈ l) : ∃ l', l.Perm (x :: l') := by
  obtain ⟨before, after, rfl⟩ := List.append_of_mem h
  exact ⟨before ++ after, List.perm_middle⟩

theorem nodup_eraseDups [DecidableEq α] (l : List α) : l.eraseDups.Nodup := by
  induction hn : l.length using Nat.strong_induction_on generalizing l with
  | _ n ih =>
    cases l with
    | nil => exact List.nodup_nil
    | cons a l =>
      rw [List.eraseDups_cons, List.nodup_cons]
      refine ⟨?_, ih _ ?_ _ rfl⟩
      · simp [List.mem_eraseDups]
      · rw [← hn]
        exact Nat.lt_succ_of_le (List.length_filter_le _ _)

end Pairs

/-! ### Exact duplicates -/

section Duplicates
variable {C : Config} {memories before after : List Memory} {m k x y : Memory} {i j : String}

/-- The memory has an id, and this fingerprint. -/
def namesIt (C : Config) (fp : String) (k : Memory) : Bool := k.id ≠ "" && fingerprint C k = fp

/-- What is recorded of the memories that came before: a text that is empty records nothing. -/
def Records (C : Config) (seen : List (String × String)) (before : List Memory) : Prop :=
  ∀ fp, (seen.lookup fp).getD "" = ((before.find? (namesIt C fp)).map (·.id)).getD ""

theorem namesIt_eq_true {fp : String} : namesIt C fp k = true ↔ k.id ≠ "" ∧ fingerprint C k = fp := by
  simp [namesIt]

theorem exactDuplicates_cons (seen : List (String × String)) (m : Memory) (memories : List Memory) :
    exactDuplicates C seen (m :: memories) =
      if (seen.lookup (fingerprint C m)).getD "" ≠ "" ∧ (seen.lookup (fingerprint C m)).getD "" ≠ m.id then
        (m.id, (seen.lookup (fingerprint C m)).getD "") :: exactDuplicates C seen memories
      else exactDuplicates C ((fingerprint C m, m.id) :: seen) memories := by
  rw [exactDuplicates]
  cases seen.lookup (fingerprint C m) with
  | none => simp
  | some first => simp

theorem Records.keep {seen : List (String × String)} (h : Records C seen before)
    (hsome : before.find? (namesIt C (fingerprint C m)) = some k) : Records C seen (before ++ [m]) := by
  intro fp
  rw [h fp, List.find?_append]
  by_cases hfp : fingerprint C m = fp
  · rw [← hfp, hsome, Option.some_or]
  · have hm : [m].find? (namesIt C fp) = none := by simp [namesIt, hfp]
    rw [hm, Option.or_none]

theorem Records.cons {seen : List (String × String)} (h : Records C seen before)
    (hnone : before.find? (namesIt C (fingerprint C m)) = none) :
    Records C ((fingerprint C m, m.id) :: seen) (before ++ [m]) := by
  intro fp
  rw [List.lookup_cons, List.find?_append]
  by_cases hfp : fp = fingerprint C m
  · subst hfp
    rw [hnone]
    by_cases hid : m.id = ""
    · simp [namesIt, hid]
    · simp [namesIt, hid]
  · have hm : [m].find? (namesIt C fp) = none := by simp [namesIt, Ne.symm hfp]
    rw [hm, Option.or_none, beq_false_of_ne hfp]
    exact h fp

/-- The memory at the place is a duplicate of the other one. -/
def RepeatOf (C : Config) (before : List Memory) (m k : Memory) : Prop :=
  before.find? (namesIt C (fingerprint C m)) = some k

theorem RepeatOf.spec (h : RepeatOf C before m k) :
    k ∈ before ∧ k.id ≠ "" ∧ fingerprint C k = fingerprint C m :=
  ⟨List.mem_of_find?_eq_some h, namesIt_eq_true.mp (List.find?_some h)⟩

/-- A memory is reported when one with an id and its fingerprint comes before it, and as a duplicate of
    the first such one. -/
theorem mem_exactDuplicates_of {seen : List (String × String)} (h : Records C seen before)
    (hids : ((before ++ memories).map (·.id)).Nodup) : (i, j) ∈ exactDuplicates C seen memories ↔
      ∃ front m back, memories = front ++ m :: back ∧
        ∃ k, m.id = i ∧ k.id = j ∧ RepeatOf C (before ++ front) m k := by
  induction memories generalizing seen before with
  | nil => simp [exactDuplicates]
  | cons m memories ih =>
    have hids' : (((before ++ [m]) ++ memories).map (·.id)).Nodup := by simpa using hids
    have hfirst := h (fingerprint C m)
    rw [exists_place_cons, exactDuplicates_cons, List.append_nil]
    cases hfind : before.find? (namesIt C (fingerprint C m)) with
    | none =>
      rw [hfind] at hfirst
      rw [if_neg fun hne => hne.1 hfirst, ih (h.cons hfind) hids', or_iff_right]
      · simp only [List.append_assoc, List.singleton_append]
      · rintro ⟨k, -, -, hk⟩
        rw [RepeatOf, hfind] at hk
        cases hk
    | some k =>
      rw [hfind] at hfirst
      have hk : RepeatOf C before m k := hfind
      have hne : k.id ≠ m.id := by
        rw [List.map_append, List.nodup_append'] at hids
        intro heq
        exact hids.2.2 (List.mem_map_of_mem hk.spec.1) (heq ▸ List.mem_map_of_mem List.mem_cons_self)
      have hcase : (seen.lookup (fingerprint C m)).getD "" = k.id := hfirst
      rw [hcase, if_pos ⟨hk.spec.2.1, hne⟩, List.mem_cons, ih (h.keep hfind) hids', Prod.mk.injEq]
      simp only [List.append_assoc, List.singleton_append]
      refine or_congr_left ⟨?_, ?_⟩
      · rintro ⟨rfl, rfl⟩
        exact ⟨k, rfl, rfl, hk⟩
      · rintro ⟨k', rfl, rfl, hk'⟩
        obtain rfl : k = k' := Option.some.inj (hfind.symm.trans hk')
        exact ⟨rfl, rfl⟩

theorem map_fst_exactDuplicates (seen : List (String × String)) (memories : List Memory) :
    ((exactDuplicates C seen memories).map Prod.fst).Sublist (memories.map (·.id)) := by
  induction memories generalizing seen with
  | nil => exact List.Sublist.refl _
  | cons m memories ih =>
    rw [exactDuplicates_cons, List.map_cons]
    split
    · exact (ih seen).cons_cons _
    · exact (ih _).cons _

theorem mem_exactDuplicates (hids : (memories.map (·.id)).Nodup) :
    (i, j) ∈ exactDuplicates C [] memories ↔ ∃ front m back, memories = front ++ m :: back ∧
      ∃ k, m.id = i ∧ k.id = j ∧ RepeatOf C front m k :=
  mem_exactDuplicates_of (show Records C [] [] from fun _ => rfl) hids

/-- A memory is reported once at most. -/
theorem filter_exactDuplicates (hids : (memories.map (·.id)).Nodup)
    (h : (i, j) ∈ exactDuplicates C [] memories) :
    (exactDuplicates C [] memories).filter (fun d => d.1 = i) = [(i, j)] := by
  have hnodup : ((exactDuplicates C [] memories).map Prod.fst).Nodup :=
    hids.sublist (map_fst_exactDuplicates [] memories)
  obtain ⟨front, back, heq⟩ := List.append_of_mem h
  rw [heq, List.map_append, List.map_cons, List.nodup_append', List.nodup_cons] at hnodup
  rw [heq, List.filter_append, List.filter_cons_of_pos (by simp)]
  have hfront : front.filter (fun d => d.1 = i) = [] := by
    refine List.filter_eq_nil_iff.mpr fun d hd hi => ?_
    exact hnodup.2.2 (List.mem_map_of_mem hd) (by simp [decide_eq_true_eq.mp hi])
  have hback : back.filter (fun d => d.1 = i) = [] := by
    refine List.filter_eq_nil_iff.mpr fun d hd hi => ?_
    exact hnodup.2.1.1 (List.mem_map.mpr ⟨d, hd, decide_eq_true_eq.mp hi⟩)
  rw [hfront, hback, List.nil_append]

end Duplicates

/-! ### What is compared -/

section Compared
variable {C : Config} {N : Numbers} {opts : ConsolidationOpts} {memories : List Memory} {x y : Memory}

theorem groupKey_inj (h : groupKey x = groupKey y) : x.type = y.type ∧ x.scope = y.scope := by
  have hno : ∀ t : MemoryType, '|' ∉ (Vocabulary.text t).toList := by
    intro t
    cases t <;> decide
  obtain ⟨htype, hscope⟩ := Delimited.join_inj_first (hno _) (hno _) h
  exact ⟨Vocabulary.text_inj _ _ htype, hscope⟩

theorem mem_groups {g : List Memory} : g ∈ groups memories ↔
    ∃ m ∈ memories, memories.filter (fun k => groupKey k = groupKey m) = g := by
  simp only [groups, List.mem_map, List.mem_eraseDups]
  constructor
  · rintro ⟨_, ⟨m, hm, rfl⟩, rfl⟩
    exact ⟨m, hm, rfl⟩
  · rintro ⟨m, hm, rfl⟩
    exact ⟨_, ⟨m, hm, rfl⟩, rfl⟩

theorem mem_of_mem_groupPairs {p : Memory × Memory} (h : p ∈ groupPairs C memories) :
    p.1 ∈ memories ∧ p.2 ∈ memories ∧ groupKey p.1 = groupKey p.2 := by
  obtain ⟨g, hg, hp⟩ := List.mem_flatMap.mp h
  obtain ⟨m, -, rfl⟩ := mem_groups.mp hg
  obtain ⟨h1, h2⟩ := mem_of_mem_pairs hp
  rw [List.mem_mergeSort, List.mem_filter, decide_eq_true_eq] at h1 h2
  exact ⟨h1.1, h2.1, h1.2.trans h2.2.symm⟩

theorem ids_ne_of_mem_groupPairs (hids : (memories.map (·.id)).Nodup) {p : Memory × Memory}
    (h : p ∈ groupPairs C memories) : p.1.id ≠ p.2.id := by
  obtain ⟨h1, h2, -⟩ := mem_of_mem_groupPairs h
  obtain ⟨g, hg, hp⟩ := List.mem_flatMap.mp h
  obtain ⟨m, -, rfl⟩ := mem_groups.mp hg
  have hsorted : ((memories.filter fun k => groupKey k = groupKey m).mergeSort (newerFirst C)).Nodup :=
    (List.mergeSort_perm _ _).nodup_iff.mpr (hids.of_map.filter _)
  exact fun heq => ne_of_mem_pairs hsorted hp (List.inj_on_of_nodup_map hids h1 h2 heq)

/-- Two memories of a group are compared in one order or in the other. -/
theorem mem_groupPairs_or (hx : x ∈ memories) (hy : y ∈ memories) (hne : x ≠ y)
    (hkey : groupKey x = groupKey y) :
    (x, y) ∈ groupPairs C memories ∨ (y, x) ∈ groupPairs C memories := by
  have hgroup := mem_groups.mpr ⟨x, hx, rfl⟩
  have hxg : x ∈ (memories.filter fun k => groupKey k = groupKey x).mergeSort (newerFirst C) := by
    simp [hx]
  have hyg : y ∈ (memories.filter fun k => groupKey k = groupKey x).mergeSort (newerFirst C) := by
    simp [hy, hkey]
  rcases mem_pairs_or hxg hyg hne with h | h
  · exact .inl (List.mem_flatMap.mpr ⟨_, hgroup, h⟩)
  · exact .inr (List.mem_flatMap.mpr ⟨_, hgroup, h⟩)

/-- No two are compared twice. -/
theorem nodup_groupPairs (hids : (memories.map (·.id)).Nodup) :
    ((groupPairs C memories).map fun p => s(p.1.id, p.2.id)).Nodup := by
  have hinj : ∀ a ∈ memories, ∀ b ∈ memories, a.id = b.id → a = b := fun a ha b hb =>
    List.inj_on_of_nodup_map hids ha hb
  rw [groupPairs, List.map_flatMap, List.nodup_flatMap]
  constructor
  · intro g hg
    obtain ⟨m, -, rfl⟩ := mem_groups.mp hg
    have hsorted : (((memories.filter fun k => groupKey k = groupKey m).mergeSort (newerFirst C)).map
        (·.id)).Nodup := by
      refine (((List.mergeSort_perm _ _).map _).nodup_iff).mpr ?_
      exact hids.sublist (List.filter_sublist.map _)
    have hpairs := nodup_pairs hsorted
    rwa [pairs_map, List.map_map] at hpairs
  · rw [groups, List.pairwise_map]
    refine (nodup_eraseDups _).imp fun {key key'} hne => ?_
    intro z hz hz'
    obtain ⟨p, hp, rfl⟩ := List.mem_map.mp hz
    obtain ⟨q, hq, heq⟩ := List.mem_map.mp hz'
    obtain ⟨hp1, -⟩ := mem_of_mem_pairs hp
    obtain ⟨hq1, hq2⟩ := mem_of_mem_pairs hq
    rw [List.mem_mergeSort, List.mem_filter, decide_eq_true_eq] at hp1 hq1 hq2
    have hmem : p.1.id ∈ s(q.1.id, q.2.id) := by
      rw [heq]
      exact Sym2.mem_mk_left _ _
    rcases Sym2.mem_iff.mp hmem with h | h
    · rw [hinj _ hp1.1 _ hq1.1 h] at hp1
      exact hne (hp1.2.symm.trans hq1.2)
    · rw [hinj _ hp1.1 _ hq2.1 h] at hp1
      exact hne (hp1.2.symm.trans hq2.2)

theorem product_comm (F : Floats) (a b : JsNum) : F.mul a b = F.mul b a := by
  cases a <;> cases b <;> simp [Floats.mul, mul_comm, Bool.xor_comm]

theorem products_comm (F : Floats) (u v : List JsNum) :
    (u.zip v).map (fun p => F.mul p.1 p.2) = (v.zip u).map fun p => F.mul p.1 p.2 := by
  induction u generalizing v with
  | nil => simp
  | cons a u ih =>
    cases v with
    | nil => simp
    | cons b v => simp [ih, product_comm F a]

theorem cosineSim_comm {u v : List JsNum} (h : u.length = v.length) :
    cosineSim C N u v = cosineSim C N v u := by
  have hnil : u = [] ↔ v = [] := by
    rw [← List.length_eq_zero_iff, ← List.length_eq_zero_iff, h]
  have hsum : ∀ l : List (JsNum × JsNum), l.foldl (fun total p => N.floats.add total (N.floats.mul p.1 p.2))
      (ofInt 0) = (l.map fun p => N.floats.mul p.1 p.2).foldl N.floats.add (ofInt 0) := fun l =>
    List.foldl_map.symm
  simp only [cosineSim, cosine, rankingPlatform, hsum, hnil, h, products_comm N.floats u v]
  rw [Bool.or_comm (Retrieval.same _ _), product_comm N.floats (N.floats.sqrt _)]

theorem similarity_comm (x y : Memory) : similarity C N x y = similarity C N y x := by
  unfold similarity
  cases x.embedding with
  | none => cases y.embedding <;> rfl
  | some u =>
    cases y.embedding with
    | none => rfl
    | some v =>
      by_cases h : u.length = v.length
      · simp only [h, if_true, cosineSim_comm h]
      · simp only [h, Ne.symm h, if_false]

theorem isNear_comm (x y : Memory) : isNear C N opts x y = isNear C N opts y x := by
  simp only [isNear, similarity_comm x y]

theorem nearReason_comm (x y : Memory) : nearReason C N opts x y = nearReason C N opts y x := by
  rw [nearReason, nearReason, similarity_comm]

theorem appearsContradictory_comm (x y : Memory) :
    appearsContradictory C x y = appearsContradictory C y x := by
  unfold appearsContradictory
  congr 1
  funext pair
  rw [Bool.or_comm, Bool.and_comm, Bool.and_comm (includes (C.text.lower x.content) pair.1)]

end Compared

/-! ### The findings -/

def Finding.pair (f : Finding) : Sym2 String := s(f.a, f.b)

/-- What is left of a finding without the order of its two ids. -/
def Finding.tag (f : Finding) : Sym2 String × String := (f.pair, f.reason)

section Found
variable {C : Config} {is : Memory → Memory → Bool} {reason : Memory → Memory → String}
  {memories memories' : List Memory} {f : Finding} {m k x y z : Memory}

theorem nodup_found (hids : (memories.map (·.id)).Nodup) :
    ((found C is reason memories).map Finding.pair).Nodup := by
  rw [found, List.map_map]
  exact (nodup_groupPairs hids).sublist (List.filter_sublist.map _)

theorem mem_found : f ∈ found C is reason memories ↔ ∃ p ∈ groupPairs C memories,
    skipped (exactDuplicates C [] memories) p = false ∧ is p.1 p.2 = true ∧
      f = ⟨p.1.id, p.2.id, reason p.1 p.2⟩ := by
  simp only [found, List.mem_map, List.mem_filter, Bool.and_eq_true, Bool.not_eq_eq_eq_not, Bool.not_true,
    and_assoc, eq_comm (a := f)]

/-- A pair that is found is of one group. -/
theorem within_found (h : f ∈ found C is reason memories) : ∃ x ∈ memories, ∃ y ∈ memories,
    x.id = f.a ∧ y.id = f.b ∧ x.type = y.type ∧ x.scope = y.scope := by
  obtain ⟨p, hp, -, -, rfl⟩ := mem_found.mp h
  obtain ⟨h1, h2, hkey⟩ := mem_of_mem_groupPairs hp
  exact ⟨p.1, h1, p.2, h2, rfl, rfl, groupKey_inj hkey⟩

theorem skipped_comm (duplicates : List (String × String)) (x y : Memory) :
    skipped duplicates (x, y) = skipped duplicates (y, x) := by
  rw [skipped, skipped, Bool.or_comm]

/-- What is found of two memories does not depend on which of them comes first. -/
structure IsSymmetric (is : Memory → Memory → Bool) (reason : Memory → Memory → String) : Prop where
  is : ∀ x y, is x y = is y x
  reason : ∀ x y, reason x y = reason y x

theorem mem_tags_found (hsym : IsSymmetric is reason) (hids : (memories.map (·.id)).Nodup)
    (t : Sym2 String × String) : t ∈ (found C is reason memories).map Finding.tag ↔
      ∃ x ∈ memories, ∃ y ∈ memories, x.id ≠ y.id ∧ groupKey x = groupKey y ∧
        skipped (exactDuplicates C [] memories) (x, y) = false ∧ is x y = true ∧
        (s(x.id, y.id), reason x y) = t := by
  rw [List.mem_map]
  constructor
  · rintro ⟨f, hf, rfl⟩
    obtain ⟨p, hp, hskip, his, rfl⟩ := mem_found.mp hf
    obtain ⟨h1, h2, hkey⟩ := mem_of_mem_groupPairs hp
    exact ⟨p.1, h1, p.2, h2, ids_ne_of_mem_groupPairs hids hp, hkey, hskip, his, rfl⟩
  · rintro ⟨x, hx, y, hy, hne, hkey, hskip, his, rfl⟩
    rcases mem_groupPairs_or (C := C) hx hy (fun heq => hne (congrArg _ heq)) hkey with hp | hp
    · exact ⟨_, mem_found.mpr ⟨_, hp, hskip, his, rfl⟩, rfl⟩
    · rw [skipped_comm] at hskip
      rw [hsym.is] at his
      refine ⟨_, mem_found.mpr ⟨_, hp, hskip, his, rfl⟩, ?_⟩
      rw [hsym.reason, Sym2.eq_swap]
      rfl

/-! ### Where they are consistent -/

/-- Both memories have ids, and no third memory that has one has their fingerprint. In every order of the
    memories one of the two is then reported as a duplicate of the other. -/
structure PairOnly (C : Config) (memories : List Memory) (x y : Memory) : Prop where
  left : x.id ≠ ""
  right : y.id ≠ ""
  third : ∀ z ∈ memories, z.id ≠ "" → fingerprint C z = fingerprint C x → z.id = x.id ∨ z.id = y.id

/-- Nothing is found of two memories with one fingerprint that might be compared. -/
def NoThird (C : Config) (is : Memory → Memory → Bool) (memories : List Memory) : Prop :=
  ∀ x ∈ memories, ∀ y ∈ memories, x.id ≠ y.id → groupKey x = groupKey y →
    fingerprint C x = fingerprint C y → is x y = true → PairOnly C memories x y

/-- A memory that the other ones repeat has an id. -/
def Named (C : Config) (memories : List Memory) : Prop :=
  ∀ front m back, memories = front ++ m :: back → m.id = "" →
    (∀ k ∈ front, fingerprint C k ≠ fingerprint C m) → ∀ k ∈ back, fingerprint C k ≠ fingerprint C m

/-- What is reported as a duplicate has the fingerprint of what it is one of. -/
theorem fingerprint_of_skipped (hids : (memories.map (·.id)).Nodup) (hx : x ∈ memories) (hy : y ∈ memories)
    (h : skipped (exactDuplicates C [] memories) (x, y) = true) : fingerprint C x = fingerprint C y := by
  have key : ∀ a ∈ memories, ∀ b ∈ memories, (a.id, b.id) ∈ exactDuplicates C [] memories →
      fingerprint C b = fingerprint C a := by
    intro a ha b hb hmem
    obtain ⟨front, m, back, heq, k, hm, hk, hrep⟩ := (mem_exactDuplicates hids).mp hmem
    have hin : m ∈ memories ∧ k ∈ memories := by
      rw [heq]
      exact ⟨by simp, List.mem_append_left _ hrep.spec.1⟩
    rw [← List.inj_on_of_nodup_map hids hin.1 ha hm, ← List.inj_on_of_nodup_map hids hin.2 hb hk]
    exact hrep.spec.2.2
  rw [skipped, Bool.or_eq_true, decide_eq_true_eq, decide_eq_true_eq] at h
  rcases h with h | h
  · exact (key x hx y hy h).symm
  · exact key y hy x hx h

theorem PairOnly.symm (h : PairOnly C memories x y) (hfp : fingerprint C x = fingerprint C y) :
    PairOnly C memories y x :=
  ⟨h.right, h.left, fun z hz hid hz' => (h.third z hz hid (hz'.trans hfp.symm)).symm⟩

/-- Of two memories that are a pair of their own the later one is reported as a duplicate of the other. -/
theorem PairOnly.reported (h : PairOnly C memories x y) (hids : (memories.map (·.id)).Nodup)
    {front back : List Memory} (heq : memories = front ++ y :: back) (hx : x ∈ front)
    (hfp : fingerprint C x = fingerprint C y) : (y.id, x.id) ∈ exactDuplicates C [] memories := by
  refine (mem_exactDuplicates hids).mpr ⟨front, y, back, heq, ?_⟩
  cases hfind : front.find? (namesIt C (fingerprint C y)) with
  | none => exact absurd (namesIt_eq_true.mpr ⟨h.left, hfp⟩) (List.find?_eq_none.mp hfind x hx)
  | some k =>
    have hk : RepeatOf C front y k := hfind
    have hmem : k ∈ memories := by
      rw [heq]
      exact List.mem_append_left _ hk.spec.1
    rcases h.third k hmem hk.spec.2.1 (hk.spec.2.2.trans hfp.symm) with hid | hid
    · exact ⟨k, rfl, hid, hk⟩
    · rw [heq, List.map_append, List.map_cons, List.nodup_append'] at hids
      exact absurd (hid ▸ List.mem_cons_self) (hids.2.2 (List.mem_map_of_mem hk.spec.1))

/-- Two memories that are a pair of their own are not compared. -/
theorem PairOnly.skipped (h : PairOnly C memories x y) (hids : (memories.map (·.id)).Nodup)
    (hx : x ∈ memories) (hy : y ∈ memories) (hne : x.id ≠ y.id) (hfp : fingerprint C x = fingerprint C y) :
    skipped (exactDuplicates C [] memories) (x, y) = true := by
  rw [Service.skipped, Bool.or_eq_true, decide_eq_true_eq, decide_eq_true_eq]
  rcases before_or hx hy fun heq => hne (congrArg _ heq) with ⟨_, _, heq, hin⟩ | ⟨_, _, heq, hin⟩
  · exact .inr (h.reported hids heq hin hfp)
  · exact .inl ((h.symm hfp).reported hids heq hin hfp.symm)

/-- Where nothing is found of such pairs, the pairs with one fingerprint are the ones not compared. -/
theorem NoThird.skipped_iff (h : NoThird C is memories) (hids : (memories.map (·.id)).Nodup)
    (hx : x ∈ memories) (hy : y ∈ memories) (hne : x.id ≠ y.id) (hkey : groupKey x = groupKey y)
    (his : is x y = true) :
    skipped (exactDuplicates C [] memories) (x, y) = false ↔ fingerprint C x ≠ fingerprint C y := by
  constructor
  · intro hskip hfp
    rw [(h x hx y hy hne hkey hfp his).skipped hids hx hy hne hfp] at hskip
    cases hskip
  · intro hfp
    exact Bool.eq_false_iff.mpr fun hskip => hfp (fingerprint_of_skipped hids hx hy hskip)

/-- What holds of the findings of one kind. -/
structure PairLaws (C : Config) (findings : List Memory → List Finding) (memories : List Memory) :
    Prop where
  /-- Two memories with one fingerprint are not reported. -/
  apart : ∀ f ∈ findings memories, ∀ x ∈ memories, ∀ y ∈ memories, x.id = f.a → y.id = f.b →
    fingerprint C x ≠ fingerprint C y
  once : ((findings memories).map Finding.pair).Nodup
  within : ∀ f ∈ findings memories, ∃ x ∈ memories, ∃ y ∈ memories,
    x.id = f.a ∧ y.id = f.b ∧ x.type = y.type ∧ x.scope = y.scope
  /-- The order of the memories decides about nothing but the order of the findings and of their ids. -/
  order : ∀ memories', memories'.Perm memories →
    ((findings memories').map Finding.tag).Perm ((findings memories).map Finding.tag)

theorem nodup_tags (hids : (memories.map (·.id)).Nodup) :
    ((found C is reason memories).map Finding.tag).Nodup := by
  refine List.Nodup.of_map Prod.fst ?_
  rw [List.map_map]
  exact nodup_found hids

theorem NoThird.perm (h : NoThird C is memories) (hperm : memories'.Perm memories) :
    NoThird C is memories' := by
  intro x hx y hy hne hkey hfp his
  obtain ⟨hleft, hright, hthird⟩ := h x (hperm.mem_iff.mp hx) y (hperm.mem_iff.mp hy) hne hkey hfp his
  exact ⟨hleft, hright, fun z hz => hthird z (hperm.mem_iff.mp hz)⟩

theorem pairLaws_of_noThird (hsym : IsSymmetric is reason) (hids : (memories.map (·.id)).Nodup)
    (h : NoThird C is memories) : PairLaws C (found C is reason) memories := by
  refine ⟨?_, nodup_found hids, fun _ => within_found, ?_⟩
  · intro f hf x hx y hy hxa hyb
    obtain ⟨p, hp, hskip, his, rfl⟩ := mem_found.mp hf
    obtain ⟨h1, h2, hkey⟩ := mem_of_mem_groupPairs hp
    rw [List.inj_on_of_nodup_map hids hx h1 hxa, List.inj_on_of_nodup_map hids hy h2 hyb]
    exact (h.skipped_iff hids h1 h2 (ids_ne_of_mem_groupPairs hids hp) hkey his).mp hskip
  · intro memories' hperm
    have hids' : (memories'.map (·.id)).Nodup := (hperm.map _).nodup_iff.mpr hids
    refine (List.perm_ext_iff_of_nodup (nodup_tags hids') (nodup_tags hids)).mpr fun t => ?_
    rw [mem_tags_found hsym hids', mem_tags_found hsym hids]
    constructor
    · rintro ⟨x, hx, y, hy, hne, hkey, hskip, his, rfl⟩
      have hfp := ((h.perm hperm).skipped_iff hids' hx hy hne hkey his).mp hskip
      rw [hperm.mem_iff] at hx hy
      exact ⟨x, hx, y, hy, hne, hkey, (h.skipped_iff hids hx hy hne hkey his).mpr hfp, his, rfl⟩
    · rintro ⟨x, hx, y, hy, hne, hkey, hskip, his, rfl⟩
      have hfp := (h.skipped_iff hids hx hy hne hkey his).mp hskip
      rw [← hperm.mem_iff] at hx hy
      exact ⟨x, hx, y, hy, hne, hkey, ((h.perm hperm).skipped_iff hids' hx hy hne hkey his).mpr hfp,
        his, rfl⟩

/-- If two orders of the memories differ in whether a pair is compared, nothing is found of it. -/
theorem PairLaws.not_is (h : PairLaws C (found C is reason) memories) (hsym : IsSymmetric is reason)
    (hids : (memories.map (·.id)).Nodup) {l l' : List Memory} (hl : l.Perm memories)
    (hl' : l'.Perm memories) (hx : x ∈ memories) (hy : y ∈ memories) (hne : x.id ≠ y.id)
    (hkey : groupKey x = groupKey y) (hskip : skipped (exactDuplicates C [] l) (x, y) = true)
    (hcompared : skipped (exactDuplicates C [] l') (x, y) = false) : is x y = false := by
  refine Bool.eq_false_iff.mpr fun his => ?_
  have hnodup : (l.map (·.id)).Nodup := (hl.map _).nodup_iff.mpr hids
  have hnodup' : (l'.map (·.id)).Nodup := (hl'.map _).nodup_iff.mpr hids
  have hmem' : (s(x.id, y.id), reason x y) ∈ (found C is reason l').map Finding.tag :=
    (mem_tags_found hsym hnodup' _).mpr
      ⟨x, hl'.mem_iff.mpr hx, y, hl'.mem_iff.mpr hy, hne, hkey, hcompared, his, rfl⟩
  have hmem := ((h.order l hl).mem_iff.trans (h.order l' hl').mem_iff.symm).mpr hmem'
  obtain ⟨a, ha, b, hb, -, -, hab, -, heq⟩ := (mem_tags_found hsym hnodup _).mp hmem
  have hxl := hl.mem_iff.mpr hx
  have hyl := hl.mem_iff.mpr hy
  rcases Sym2.eq_iff.mp (Prod.mk.inj heq).1 with ⟨hax, hby⟩ | ⟨hay, hbx⟩
  · rw [List.inj_on_of_nodup_map hnodup ha hxl hax, List.inj_on_of_nodup_map hnodup hb hyl hby] at hab
    rw [hskip] at hab
    cases hab
  · rw [List.inj_on_of_nodup_map hnodup ha hyl hay, List.inj_on_of_nodup_map hnodup hb hxl hbx,
      skipped_comm, hskip] at hab
    cases hab

/-! ### Orders that tell -/

theorem id_ne_of_reported {i j : String} (hids : (memories.map (·.id)).Nodup)
    (h : (i, j) ∈ exactDuplicates C [] memories) : j ≠ "" := by
  obtain ⟨front, m, back, -, k, -, rfl, hk⟩ := (mem_exactDuplicates hids).mp h
  exact hk.spec.2.1

theorem head_not_reported {j : String} (hids : ((x :: memories).map (·.id)).Nodup) :
    (x.id, j) ∉ exactDuplicates C [] (x :: memories) := by
  intro h
  obtain ⟨front, m, back, heq, k, hm, -, hk⟩ := (mem_exactDuplicates hids).mp h
  cases front with
  | nil => cases hk.spec.1
  | cons a front =>
    obtain ⟨rfl, rfl⟩ := List.cons.inj heq
    rw [List.map_cons, List.nodup_cons] at hids
    exact hids.1 (hm ▸ List.mem_map_of_mem (by simp))

/-- Everything with the fingerprint of the first memory is a duplicate of it, if it has an id. -/
theorem reported_of_head {j : String} (hids : ((z :: memories).map (·.id)).Nodup) (hz : z.id ≠ "")
    (hx : x ∈ memories) (hfp : fingerprint C x = fingerprint C z)
    (h : (x.id, j) ∈ exactDuplicates C [] (z :: memories)) : j = z.id := by
  obtain ⟨front, m, back, heq, k, hm, rfl, hk⟩ := (mem_exactDuplicates hids).mp h
  have hmx : m = x := by
    refine List.inj_on_of_nodup_map hids ?_ (List.mem_cons_of_mem _ hx) hm
    rw [heq]
    simp
  cases front with
  | nil => cases hk.spec.1
  | cons a front =>
    obtain ⟨rfl, -⟩ := List.cons.inj heq
    rw [RepeatOf, List.find?_cons_of_pos (namesIt_eq_true.mpr ⟨hz, by rw [hmx, hfp]⟩)] at hk
    rw [Option.some.inj hk]

/-- The second memory repeats the first one. -/
theorem skipped_second (hids : ((x :: y :: memories).map (·.id)).Nodup) (hx : x.id ≠ "")
    (hfp : fingerprint C x = fingerprint C y) :
    skipped (exactDuplicates C [] (x :: y :: memories)) (x, y) = true := by
  have hrep : RepeatOf C [x] y x := List.find?_cons_of_pos (namesIt_eq_true.mpr ⟨hx, hfp⟩)
  have hmem : (y.id, x.id) ∈ exactDuplicates C [] (x :: y :: memories) :=
    (mem_exactDuplicates hids).mpr ⟨[x], y, memories, rfl, x, rfl, rfl, hrep⟩
  simp [Service.skipped, hmem]

/-- Two memories at the front, in the one order and in the other. -/
theorem exists_front (hx : x ∈ memories) (hy : y ∈ memories) (hne : x.id ≠ y.id) :
    ∃ rest, (x :: y :: rest).Perm memories ∧ (y :: x :: rest).Perm memories := by
  obtain ⟨l, hl⟩ := exists_perm_cons hx
  have hyl : y ∈ l := by
    rcases List.mem_cons.mp (hl.mem_iff.mp hy) with rfl | h
    · exact absurd rfl hne
    · exact h
  obtain ⟨rest, hrest⟩ := exists_perm_cons hyl
  have hperm : memories.Perm (x :: y :: rest) := hl.trans (hrest.cons x)
  exact ⟨rest, hperm.symm, (hperm.trans (List.Perm.swap y x rest)).symm⟩

theorem PairLaws.id_ne (h : PairLaws C (found C is reason) memories) (hsym : IsSymmetric is reason)
    (hids : (memories.map (·.id)).Nodup) (hx : x ∈ memories) (hy : y ∈ memories) (hne : x.id ≠ y.id)
    (hkey : groupKey x = groupKey y) (hfp : fingerprint C x = fingerprint C y) (his : is x y = true) :
    x.id ≠ "" := by
  intro hempty
  obtain ⟨rest, hxy, hyx⟩ := exists_front hx hy hne
  have hnodup : ((x :: y :: rest).map (·.id)).Nodup := (hxy.map _).nodup_iff.mpr hids
  have hnodup' : ((y :: x :: rest).map (·.id)).Nodup := (hyx.map _).nodup_iff.mpr hids
  have hskip := skipped_second hnodup' (fun h => hne (hempty.trans h.symm)) hfp.symm
  rw [skipped_comm] at hskip
  have hcompared : skipped (exactDuplicates C [] (x :: y :: rest)) (x, y) = false := by
    rw [Service.skipped, Bool.or_eq_false_iff, decide_eq_false_iff_not, decide_eq_false_iff_not]
    exact ⟨head_not_reported hnodup, fun hmem => id_ne_of_reported hnodup hmem hempty⟩
  rw [h.not_is hsym hids hyx hxy hx hy hne hkey hskip hcompared] at his
  cases his

theorem noThird_of_pairLaws (hsym : IsSymmetric is reason) (hids : (memories.map (·.id)).Nodup)
    (h : PairLaws C (found C is reason) memories) : NoThird C is memories := by
  intro x hx y hy hne hkey hfp his
  have hleft := h.id_ne hsym hids hx hy hne hkey hfp his
  refine ⟨hleft, h.id_ne hsym hids hy hx hne.symm hkey.symm hfp.symm (hsym.is x y ▸ his), ?_⟩
  intro z hz hid hzfp
  by_contra hthird
  obtain ⟨hzx, hzy⟩ := not_or.mp hthird
  obtain ⟨rest, hxy, -⟩ := exists_front hx hy hne
  obtain ⟨tail, htail⟩ := exists_perm_cons hz
  have hnodup : ((x :: y :: rest).map (·.id)).Nodup := (hxy.map _).nodup_iff.mpr hids
  have hnodup' : ((z :: tail).map (·.id)).Nodup := (htail.map _).nodup_iff.mp hids
  have hmem : ∀ a ∈ memories, z.id ≠ a.id → a ∈ tail := by
    intro a ha hne
    rcases List.mem_cons.mp (htail.mem_iff.mp ha) with rfl | h
    · exact absurd rfl hne
    · exact h
  have hcompared : skipped (exactDuplicates C [] (z :: tail)) (x, y) = false := by
    rw [Service.skipped, Bool.or_eq_false_iff, decide_eq_false_iff_not, decide_eq_false_iff_not]
    constructor
    · intro hrep
      exact hzy (reported_of_head hnodup' hid (hmem x hx hzx) hzfp.symm hrep).symm
    · intro hrep
      exact hzx (reported_of_head hnodup' hid (hmem y hy hzy) (hfp.symm.trans hzfp.symm) hrep).symm
  have hskip := skipped_second hnodup hleft hfp
  rw [h.not_is hsym hids hxy htail.symm hx hy hne hkey hskip hcompared] at his
  cases his

variable (is reason) in
theorem pairLaws_iff (hsym : IsSymmetric is reason) (hids : (memories.map (·.id)).Nodup) :
    PairLaws C (found C is reason) memories ↔ NoThird C is memories :=
  ⟨noThird_of_pairLaws hsym hids, pairLaws_of_noThird hsym hids⟩

/-! ### The first occurrence -/

/-- What repeats an earlier memory is reported once, as a duplicate of the first one. -/
def ReportsFirst (C : Config) (reports : List (String × String)) (memories : List Memory) : Prop :=
  ∀ front m back k, memories = front ++ m :: back →
    front.find? (fun k => fingerprint C k = fingerprint C m) = some k →
      reports.filter (fun d => d.1 = m.id) = [(m.id, k.id)]

theorem named_of_ids (h : "" ∉ memories.map (·.id)) : Named C memories := by
  intro front m back heq hid
  refine absurd ?_ h
  rw [← hid, heq]
  exact List.mem_map_of_mem (by simp)

theorem reportsFirst_iff (hids : (memories.map (·.id)).Nodup) :
    ReportsFirst C (exactDuplicates C [] memories) memories ↔ Named C memories := by
  constructor
  · intro h front m back heq hid hfront k hk hfp
    obtain ⟨mid, last, rfl⟩ := List.append_of_mem hk
    have hfind : (front ++ m :: mid).find? (fun a => fingerprint C a = fingerprint C k) = some m := by
      rw [List.find?_append, List.find?_eq_none.mpr, Option.none_or, List.find?_cons_of_pos]
      · simp [hfp]
      · intro a ha hak
        exact hfront a ha ((decide_eq_true_eq.mp hak).trans hfp)
    have hfilter := h (front ++ m :: mid) k last m (by rw [heq]; simp) hfind
    have hmem : (k.id, m.id) ∈ exactDuplicates C [] memories :=
      List.mem_of_mem_filter (hfilter ▸ List.mem_singleton_self _)
    exact id_ne_of_reported hids hmem hid
  · intro h front m back k heq hfind
    have hfp : fingerprint C k = fingerprint C m := by simpa using List.find?_some hfind
    have hfirst := hfind
    rw [List.find?_eq_some_iff_append] at hfirst
    obtain ⟨-, before, after, rfl, hbefore⟩ := hfirst
    have hne : k.id ≠ "" := by
      intro hid
      refine h before k (after ++ m :: back) (by rw [heq]; simp) hid ?_ m (by simp) hfp.symm
      intro a ha hak
      have := hbefore a ha
      simp [hak.trans hfp] at this
    refine filter_exactDuplicates hids ((mem_exactDuplicates hids).mpr
      ⟨before ++ k :: after, m, back, heq, k, rfl, rfl, ?_⟩)
    rw [RepeatOf, List.find?_append, List.find?_eq_none.mpr, Option.none_or, List.find?_cons_of_pos]
    · exact namesIt_eq_true.mpr ⟨hne, hfp⟩
    · intro a ha hnames
      have := hbefore a ha
      simp [(namesIt_eq_true.mp hnames).2] at this

end Found

/-! ### The findings as a whole -/

section Consistent
variable {C : Config} {N : Numbers} {opts : ConsolidationOpts} {now : ℤ} {memories : List Memory}

structure Consistent (C : Config) (N : Numbers) (opts : ConsolidationOpts) (now : ℤ)
    (memories : List Memory) : Prop where
  first : ReportsFirst C (consolidate C N opts now memories).exactDuplicates memories
  near : PairLaws C (fun l => (consolidate C N opts now l).nearDuplicates) memories
  contradictions : PairLaws C (fun l => (consolidate C N opts now l).contradictions) memories

/-- The findings of memories with ids of their own are consistent exactly where a memory that others repeat
    has an id, and where two memories of one group and fingerprint that are near to each other or contradict
    each other are the only ones with that fingerprint that have an id. -/
theorem consistent_iff (hids : (memories.map (·.id)).Nodup) : Consistent C N opts now memories ↔
    Named C memories ∧ NoThird C (isNear C N opts) memories ∧
      NoThird C (appearsContradictory C) memories := by
  have hnear := pairLaws_iff (C := C) (isNear C N opts) (nearReason C N opts)
    ⟨isNear_comm, nearReason_comm⟩ hids
  have hcontra := pairLaws_iff (C := C) (appearsContradictory C) (fun _ _ => "semantic opposition detected")
    ⟨appearsContradictory_comm, fun _ _ => rfl⟩ hids
  rw [← reportsFirst_iff hids, ← hnear, ← hcontra]
  exact ⟨fun h => ⟨h.first, h.near, h.contradictions⟩, fun h => ⟨h.1, h.2.1, h.2.2⟩⟩

end Consistent

/-- A memory with this content, like all the others. -/
def remark (id content : String) : Memory where
  id := id
  type := .fact
  content := content
  scope := "global"
  tags := []
  importance := 3
  confidence := 1
  trust := .trusted
  createdAt := "2026-01-01T00:00:00.000Z"
  updatedAt := "2026-01-01T00:00:00.000Z"
  version := 1
  provenance := { sourceType := .manual }

def exactNumbers : Numbers where
  floats := { round := .finite, sqrt := id, log := id, exp2 := fun _ => ofInt 1 }
  toFixed3 _ := "1.000"

theorem consistent_two : Consistent plainConfig exactNumbers {} 0
    [remark "m1" "it is not done", remark "m2" "It is not done "] := by
  have hthird : ∀ is, NoThird plainConfig is
      [remark "m1" "it is not done", remark "m2" "It is not done "] := by
    intro is x hx y hy hne _ _ _
    rw [List.mem_pair] at hx hy
    rcases hx with rfl | rfl <;> rcases hy with rfl | rfl
    · exact absurd rfl hne
    · exact ⟨by decide, by decide, fun z hz _ _ => (List.mem_pair.mp hz).imp (congrArg _) (congrArg _)⟩
    · exact ⟨by decide, by decide, fun z hz _ _ => (List.mem_pair.mp hz).symm.imp (congrArg _) (congrArg _)⟩
    · exact absurd rfl hne
  exact (consistent_iff (by decide)).mpr ⟨named_of_ids (by decide), hthird _, hthird _⟩

/-- Of three memories with one content the second and the third are found to contradict each other. -/
theorem not_consistent_three : ¬ Consistent plainConfig exactNumbers {} 0
    [remark "m1" "it is not done", remark "m2" "it is not done", remark "m3" "it is not done"] := by
  intro h
  have hids : ([remark "m1" "it is not done", remark "m2" "it is not done",
      remark "m3" "it is not done"].map (·.id)).Nodup := by decide
  have hlaws : PairLaws plainConfig (found plainConfig (appearsContradictory plainConfig) fun _ _ =>
      "semantic opposition detected") _ := h.contradictions
  have hthird := noThird_of_pairLaws ⟨appearsContradictory_comm, fun _ _ => rfl⟩ hids hlaws
  have hpair := hthird (remark "m2" "it is not done") (by simp) (remark "m3" "it is not done") (by simp)
    (by decide) rfl rfl (by decide +kernel)
  have hfirst := hpair.third (remark "m1" "it is not done") (by simp) (by decide) rfl
  revert hfirst
  decide

end Remembra.Service
