import Mathlib.Data.Finset.Card
import Mathlib.Data.List.Sort
import Remembra.Lib.Transition

/-! Pages by key: each request sorts what there is, the greatest key first, and answers with the first
    `n` items behind its cursor and, where there is more, with the key of the last of them as the next
    cursor. A walk follows the cursors while the items change between its requests. What is there at
    every request is visited once and in order (`Visiting`), and every request lowers the cursor. -/

namespace Remembra.Keyset

section Pages
variable {α κ : Type*} [LinearOrder κ] (key : α → κ)

def descending (items : List α) : List α := items.insertionSort fun a b => key b ≤ key a

/-- The items behind the cursor. -/
def behind (cursor : Option κ) (items : List α) : List α :=
  (descending key items).filter fun a => cursor.all fun c => key a < c

def page (n : ℕ) (cursor : Option κ) (items : List α) : List α := (behind key cursor items).take n

/-- The cursor of the next page, if there is more. -/
def next (n : ℕ) (cursor : Option κ) (items : List α) : Option κ :=
  if (page key n cursor items).length < (behind key cursor items).length then
    (page key n cursor items).getLast?.map key
  else none

/-- A walk under way. -/
structure Walk (α κ : Type*) where
  cursor : Option κ := none
  visited : List α := []
  done : Bool := false

/-- One request; none where the walk is over. -/
def request (n : ℕ) (s : Walk α κ) (items : List α) : Option (Walk α κ) :=
  if s.done then none
  else some {
    cursor := next key n s.cursor items
    visited := s.visited ++ page key n s.cursor items
    done := (next key n s.cursor items).isNone }

end Pages

section Laws
variable {α κ : Type*} [LinearOrder κ] {key : α → κ} {n : ℕ} {cursor : Option κ} {items : List α}

@[simp] theorem mem_descending {a : α} : a ∈ descending key items ↔ a ∈ items :=
  List.mem_insertionSort _

theorem mem_behind {a : α} : a ∈ behind key cursor items ↔ a ∈ items ∧ ∀ c ∈ cursor, key a < c := by
  cases cursor <;> simp [behind]

/-- Items with different keys come in a strict order. -/
theorem descending_pairwise (h : (items.map key).Nodup) :
    (descending key items).Pairwise fun a b => key b < key a := by
  have hsorted : (descending key items).Pairwise fun a b => key b ≤ key a := by
    have : Std.Total fun a b : α => key b ≤ key a := ⟨fun a b => le_total (key b) (key a)⟩
    have : IsTrans α fun a b => key b ≤ key a := ⟨fun _ _ _ hab hbc => hbc.trans hab⟩
    exact List.pairwise_insertionSort _ items
  have hdistinct : (descending key items).Pairwise fun a b => key a ≠ key b := by
    rw [← List.pairwise_map (f := key) (R := (· ≠ ·))]
    exact ((List.perm_insertionSort _ items).map key).nodup_iff.mpr h
  exact (hsorted.and hdistinct).imp fun h => lt_of_le_of_ne h.1 (Ne.symm h.2)

theorem behind_pairwise (h : (items.map key).Nodup) :
    (behind key cursor items).Pairwise fun a b => key b < key a :=
  (descending_pairwise h).filter _

/-- What is not on a page any more comes after all of it. -/
theorem lt_of_notMem_page (h : (items.map key).Nodup) {a b : α}
    (ha : a ∈ page key n cursor items) (hb : b ∈ behind key cursor items)
    (hnot : b ∉ page key n cursor items) : key b < key a := by
  have hparts : (behind key cursor items).Pairwise fun a b => key b < key a := behind_pairwise h
  rw [← List.take_append_drop n (behind key cursor items), List.pairwise_append] at hparts
  have hdrop : b ∈ (behind key cursor items).drop n := by
    rw [← List.take_append_drop n (behind key cursor items)] at hb
    exact (List.mem_append.mp hb).resolve_left hnot
  exact hparts.2.2 a ha b hdrop

/-- The next cursor is the least key of a page that is not the last. -/
theorem next_eq_some (h : (items.map key).Nodup) {c : κ}
    (hnext : next key n cursor items = some c) :
    (∃ a ∈ page key n cursor items, key a = c) ∧ ∀ a ∈ page key n cursor items, c ≤ key a := by
  unfold next at hnext
  split at hnext
  · obtain ⟨last, hlast, rfl⟩ := Option.map_eq_some_iff.mp hnext
    refine ⟨⟨last, List.mem_of_getLast? hlast, rfl⟩, fun a ha => ?_⟩
    have hpage : (page key n cursor items).Pairwise fun a b => key b < key a :=
      (behind_pairwise h).sublist (List.take_sublist ..)
    obtain ⟨init, hinit⟩ := List.getLast?_eq_some_iff.mp hlast
    rw [hinit] at ha hpage
    rcases List.mem_append.mp ha with ha | ha
    · exact ((List.pairwise_append.mp hpage).2.2 a ha last (by simp)).le
    · rw [List.mem_singleton.mp ha]
  · cases hnext

/-- The last item of a page that is not the last. -/
theorem page_getLast? (hn : 1 ≤ n) (h : n < (behind key cursor items).length) :
    (page key n cursor items).getLast? = (behind key cursor items)[n - 1]? := by
  have hlength : (page key n cursor items).length = n := by
    rw [page, List.length_take]
    omega
  rw [List.getLast?_eq_getElem?, hlength, page, List.getElem?_take_of_lt (by omega)]

theorem next_eq (hn : 1 ≤ n) : next key n cursor items =
    if n < (behind key cursor items).length then (behind key cursor items)[n - 1]?.map key
    else none := by
  have hlength : (page key n cursor items).length = min n (behind key cursor items).length :=
    List.length_take
  unfold next
  by_cases h : n < (behind key cursor items).length
  · rw [if_pos h, if_pos (by omega), page_getLast? hn h]
  · rw [if_neg h, if_neg (by omega)]

/-- A last page holds all that is behind its cursor. -/
theorem page_of_next_none (hn : 1 ≤ n) (hnext : next key n cursor items = none) :
    page key n cursor items = behind key cursor items := by
  unfold next at hnext
  split at hnext
  · rename_i hlt
    have hempty : page key n cursor items = [] := by simpa using hnext
    have hlength : (page key n cursor items).length = min n (behind key cursor items).length :=
      List.length_take
    rw [hempty] at hlength hlt
    simp only [List.length_nil] at hlength hlt
    omega
  · rename_i hge
    have hlength : (page key n cursor items).length = min n (behind key cursor items).length :=
      List.length_take
    exact List.take_of_length_le (by omega)

/-! ### The walk -/

/-- What a walk has visited after requests that saw `seen`. -/
structure Visiting (key : α → κ) (seen : List (List α)) (s : Walk α κ) : Prop where
  ordered : s.visited.Pairwise fun a b => key b < key a
  reached : ∀ c ∈ s.cursor, ∀ a ∈ s.visited, c ≤ key a
  fresh : s.cursor = none → s.done = false → s.visited = []
  complete : ∀ k, (∀ items ∈ seen, k ∈ items.map key) → s.done = true ∨ (∃ c ∈ s.cursor, c ≤ k) →
    k ∈ s.visited.map key
  sound : ∀ a ∈ s.visited, ∃ items ∈ seen, a ∈ items

theorem visiting_start : Visiting key [] ({} : Walk α κ) where
  ordered := List.Pairwise.nil
  reached := by rintro c ⟨⟩
  fresh _ _ := rfl
  complete := by
    rintro k - (⟨⟨⟩⟩ | ⟨c, ⟨⟩, -⟩)
  sound := by rintro a ⟨⟩

/-- One request. -/
theorem Visiting.request {seen : List (List α)} {s t : Walk α κ} (hs : Visiting key seen s)
    (hn : 1 ≤ n) (hitems : (items.map key).Nodup) (h : Keyset.request key n s items = some t) :
    Visiting key (items :: seen) t := by
  unfold Keyset.request at h
  split at h
  · cases h
  rename_i hdone
  rw [Bool.not_eq_true] at hdone
  cases h
  -- What has been visited lies before the cursor, and the page behind it.
  have hbefore : ∀ a ∈ s.visited, ∀ b ∈ page key n s.cursor items, key b < key a := by
    intro a ha b hb
    have hb' := (mem_behind.mp (List.mem_of_mem_take hb)).2
    cases hcursor : s.cursor with
    | none =>
      rw [hs.fresh hcursor hdone] at ha
      cases ha
    | some c => exact (hb' c hcursor).trans_le (hs.reached c hcursor a ha)
  constructor
  case ordered =>
    refine List.pairwise_append.mpr ⟨hs.ordered, ?_, hbefore⟩
    exact (behind_pairwise hitems).sublist (List.take_sublist ..)
  case reached =>
    intro c hc a ha
    obtain ⟨⟨last, hlast, rfl⟩, hleast⟩ := next_eq_some hitems hc
    rcases List.mem_append.mp ha with ha | ha
    · exact (hbefore a ha last hlast).le
    · exact hleast a ha
  case fresh =>
    intro hcursor hdone
    change (next key n s.cursor items).isNone = false at hdone
    rw [show next key n s.cursor items = none from hcursor] at hdone
    cases hdone
  case complete =>
    intro k hk hreached
    rw [List.map_append, List.mem_append]
    by_cases hold : ∃ c ∈ s.cursor, c ≤ k
    · exact .inl (hs.complete k (fun l hl => hk l (List.mem_cons_of_mem _ hl)) (.inr hold))
    right
    obtain ⟨a, ha, rfl⟩ := List.mem_map.mp (hk items (List.mem_cons_self ..))
    have hbehind : a ∈ behind key s.cursor items := by
      refine mem_behind.mpr ⟨ha, fun c hc => ?_⟩
      by_contra hnot
      exact hold ⟨c, hc, not_lt.mp hnot⟩
    refine List.mem_map_of_mem ?_
    rcases hreached with hlast | ⟨c, hc, hle⟩
    · rw [page_of_next_none hn (Option.isNone_iff_eq_none.mp hlast)]
      exact hbehind
    · obtain ⟨⟨last, hlast, rfl⟩, -⟩ := next_eq_some hitems hc
      by_contra hnot
      exact absurd hle (not_le.mpr (lt_of_notMem_page hitems hlast hbehind hnot))
  case sound =>
    intro a ha
    rcases List.mem_append.mp ha with ha | ha
    · obtain ⟨l, hl, hal⟩ := hs.sound a ha
      exact ⟨l, List.mem_cons_of_mem _ hl, hal⟩
    · exact ⟨items, List.mem_cons_self .., (mem_behind.mp (List.mem_of_mem_take ha)).1⟩

/-- Every walk over collections of items with different keys. -/
theorem visiting_run (hn : 1 ≤ n) : ∀ (collections : List (List α)) {seen : List (List α)}
    {s t : Walk α κ}, Visiting key seen s → (∀ items ∈ collections, (items.map key).Nodup) →
      Transition.run (request key n) s collections = some t →
        Visiting key (collections.reverse ++ seen) t
  | [], seen, s, t, hs, _, h => by
    cases h
    exact hs
  | items :: collections, seen, s, t, hs, hdistinct, h => by
    obtain ⟨u, hu, hrest⟩ := Transition.run_cons_some.mp h
    have hu' := hs.request hn (hdistinct items (List.mem_cons_self ..)) hu
    have ht := visiting_run hn collections hu'
      (fun l hl => hdistinct l (List.mem_cons_of_mem _ hl)) hrest
    simpa using ht

/-- A request behind a cursor lowers it. -/
theorem next_lt (h : (items.map key).Nodup) {c c' : κ}
    (hnext : next key n (some c) items = some c') : c' < c := by
  obtain ⟨⟨last, hlast, rfl⟩, -⟩ := next_eq_some h hnext
  exact (mem_behind.mp (List.mem_of_mem_take hlast)).2 c rfl

/-- A walk that follows cursors of a finite set makes no more requests than that, and one. -/
theorem length_le (F : Finset κ) : ∀ (collections : List (List α)) {s t : Walk α κ},
    (∀ items ∈ collections, (items.map key).Nodup) →
      Transition.Along (request key n) (fun s _ => ∀ c ∈ s.cursor, c ∈ F) s collections →
        Transition.run (request key n) s collections = some t →
          (s.done = true → collections = []) ∧
            collections.length ≤ (F.filter fun x => ∀ c ∈ s.cursor, x < c).card + 1
  | [], s, t, _, _, _ => ⟨fun _ => rfl, Nat.zero_le _⟩
  | items :: collections, s, t, hdistinct, hcursors, h => by
    obtain ⟨u, hu, hrest⟩ := Transition.run_cons_some.mp h
    obtain ⟨-, hfollowed⟩ := hcursors u hu
    obtain ⟨hend, hle⟩ := length_le F collections
      (fun l hl => hdistinct l (List.mem_cons_of_mem _ hl)) hfollowed hrest
    unfold request at hu
    split at hu
    · cases hu
    rename_i hdone
    cases hu
    refine ⟨fun h => absurd h hdone, ?_⟩
    rw [List.length_cons, Nat.add_le_add_iff_right]
    cases collections with
    | nil => exact Nat.zero_le _
    | cons l ls =>
      obtain ⟨v, hv, -⟩ := Transition.run_cons_some.mp hrest
      have hmem := (hfollowed v hv).1
      cases hnext : next key n s.cursor items with
      | none =>
        rw [hnext] at hend
        cases hend rfl
      | some c' =>
        -- The new cursor is one of the keys that were below the old.
        rw [hnext] at hle hmem
        have hlower : ∀ c ∈ s.cursor, c' < c := by
          intro c hc
          rw [show s.cursor = some c from hc] at hnext
          exact next_lt (hdistinct items (List.mem_cons_self ..)) hnext
        refine hle.trans (Finset.card_lt_card ?_)
        rw [Finset.ssubset_iff_of_subset]
        · exact ⟨c', Finset.mem_filter.mpr ⟨hmem c' rfl, hlower⟩, by simp⟩
        · intro x hx
          obtain ⟨hxF, hx⟩ := Finset.mem_filter.mp hx
          exact Finset.mem_filter.mpr ⟨hxF, fun c hc => (hx c' rfl).trans (hlower c hc)⟩

end Laws

end Remembra.Keyset
