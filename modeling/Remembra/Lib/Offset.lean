import Mathlib

/-! Pages by offset: each request answers with the next `n` items of a sorted list, counted from its
    front, and the list changes between the requests. Offsets are no places in the list: a walk is exact
    (each item that stands at every request is visited once, in order) for as long as every request finds
    the list `Steady`, that is, with nothing moved across the offset. -/

namespace Remembra.Offset
variable {α κ : Type*}

/-- A walk under way: the lists that the requests so far saw, and what they answered. -/
structure Walk (α : Type*) where
  lists : List (List α) := []
  visited : List α := []
  done : Bool := false
  failed : Bool := false

/-- How many items the next request leaves out. -/
def Walk.start (s : Walk α) : ℕ := s.visited.length

section Request
variable (n : ℕ) (s : Walk α) (items : List α)

def page : List α := (items.drop s.start).take n

/-- One request; an offset beyond the end of the list is refused. -/
def request : Walk α :=
  if items.length < s.start then { s with lists := items :: s.lists, failed := true }
  else {
    lists := items :: s.lists
    visited := s.visited ++ page n s items
    done := !decide (s.start + (page n s items).length < items.length)
    failed := s.failed }

end Request

/-- The item stood in the list at every request. -/
def Kept (s : Walk α) (a : α) : Prop := ∀ items ∈ s.lists, a ∈ items

section Laws
variable [LinearOrder κ] (key : α → κ)

/-- The items in order, each key once. -/
def Ascending (items : List α) : Prop := items.Pairwise fun a b => key a < key b

/-- What the walk has visited is in order, and of the items that have been there all along it has passed
    over none. -/
structure Exact (s : Walk α) : Prop where
  ordered : Ascending key s.visited
  passed : ∀ a, Kept s a → a ∉ s.visited → s.done = false ∧ ∀ b ∈ s.visited, key b < key a
  answered : s.failed = false

/-- The offset stands where the last page ended: behind it nothing that comes before a visited item, in
    front of it nothing that has been there all along and is not visited. -/
structure Steady (s : Walk α) (items : List α) : Prop where
  within : s.start ≤ items.length
  behind : ∀ b ∈ items.drop s.start, ∀ a ∈ s.visited, key a < key b
  front : ∀ a ∈ items.take s.start, Kept s a → a ∈ s.visited

instance [DecidableEq α] (s : Walk α) (a : α) : Decidable (Kept s a) :=
  inferInstanceAs (Decidable (∀ items ∈ s.lists, a ∈ items))

instance [DecidableEq α] (s : Walk α) (items : List α) : Decidable (Steady key s items) :=
  decidable_of_iff (s.start ≤ items.length ∧ (∀ b ∈ items.drop s.start, ∀ a ∈ s.visited, key a < key b) ∧
      ∀ a ∈ items.take s.start, Kept s a → a ∈ s.visited)
    ⟨fun ⟨hwithin, hbehind, hfront⟩ => ⟨hwithin, hbehind, hfront⟩, fun h => ⟨h.within, h.behind, h.front⟩⟩

end Laws

section Walk
variable [LinearOrder κ] {key : α → κ} {n : ℕ} {s : Walk α} {items : List α}

theorem exact_start : Exact key ({} : Walk α) where
  ordered := List.Pairwise.nil
  passed _ _ _ := ⟨rfl, by rintro b ⟨⟩⟩
  answered := rfl

theorem request_of_le (h : s.start ≤ items.length) : request n s items = {
    lists := items :: s.lists
    visited := s.visited ++ page n s items
    done := !decide (s.start + (page n s items).length < items.length)
    failed := s.failed } := if_neg (Nat.not_lt.mpr h)

variable (n s items) in
theorem length_page : (page n s items).length = min n (items.length - s.start) := by
  rw [page, List.length_take, List.length_drop]

/-- The items of a list lie in front of the offset, on the page and behind the page. -/
theorem items_eq (n : ℕ) (s : Walk α) (items : List α) :
    items = items.take s.start ++ (page n s items ++ (items.drop s.start).drop n) := by
  rw [page, List.take_append_drop, List.take_append_drop]

/-- The request of a walk that is exact keeps it so. -/
theorem exact_request (hs : Exact key s) (hitems : Ascending key items) (h : Steady key s items) :
    Exact key (request n s items) := by
  rw [request_of_le h.within]
  have hparts := hitems
  rw [Ascending, items_eq n s items, List.pairwise_append, List.pairwise_append] at hparts
  obtain ⟨-, ⟨hpage, -, hbefore⟩, -⟩ := hparts
  have hbehind : ∀ b ∈ page n s items, ∀ a ∈ s.visited, key a < key b := fun b hb =>
    h.behind b (List.mem_of_mem_take hb)
  constructor
  case ordered => exact List.pairwise_append.mpr ⟨hs.ordered, hpage, fun a ha b hb => hbehind b hb a ha⟩
  case passed =>
    intro a hkept hnot
    have hkept' : Kept s a := fun l hl => hkept l (List.mem_cons_of_mem _ hl)
    have hmem : a ∈ items := hkept items List.mem_cons_self
    rw [List.mem_append, not_or] at hnot
    rw [items_eq n s items, List.mem_append, List.mem_append] at hmem
    -- It can only stand behind the page.
    rcases hmem with hfront | honPage | hrest
    · exact absurd (h.front a hfront hkept') hnot.1
    · exact absurd honPage hnot.2
    · constructor
      · have hlength := List.length_pos_of_mem hrest
        rw [List.length_drop, List.length_drop] at hlength
        have hpageLength := length_page n s items
        simp only [Bool.not_eq_false', decide_eq_true_eq]
        omega
      · intro b hb
        rcases List.mem_append.mp hb with hb | hb
        · exact h.behind a (List.mem_of_mem_drop hrest) b hb
        · exact hbefore b hb a hrest
  case answered => exact hs.answered

/-- A request that leaves a walk exact found its list steady. -/
theorem steady_of_exact (hn : 1 ≤ n) (hitems : Ascending key items) (h : Exact key (request n s items)) :
    Steady key s items := by
  have hwithin : s.start ≤ items.length := by
    by_contra hbeyond
    have hanswered := h.answered
    rw [request, if_pos (not_le.mp hbeyond)] at hanswered
    cases hanswered
  rw [request_of_le hwithin] at h
  -- The item that the page begins with, where there is one.
  have hfirst (b : α) (hb : b ∈ items.drop s.start) : ∃ c ∈ page n s items, key c ≤ key b := by
    obtain ⟨m, rfl⟩ : ∃ m, n = m + 1 := ⟨n - 1, by omega⟩
    have hsorted := hitems.sublist (List.drop_sublist s.start items)
    cases hdrop : items.drop s.start with
    | nil =>
      rw [hdrop] at hb
      cases hb
    | cons c rest =>
      rw [hdrop] at hb hsorted
      refine ⟨c, by rw [page, hdrop]; exact List.mem_cons_self, ?_⟩
      rcases List.mem_cons.mp hb with rfl | hb
      · exact le_rfl
      · exact ((List.pairwise_cons.mp hsorted).1 b hb).le
  have hcross : ∀ a ∈ items.take s.start, ∀ b ∈ items.drop s.start, key a < key b := by
    have hparts := hitems
    rw [Ascending, ← List.take_append_drop s.start items, List.pairwise_append] at hparts
    exact hparts.2.2
  refine ⟨hwithin, ?_, ?_⟩
  · intro b hb a ha
    obtain ⟨c, hc, hle⟩ := hfirst b hb
    exact ((List.pairwise_append.mp h.ordered).2.2 a ha c hc).trans_le hle
  · intro a ha hkept
    by_contra hnot
    have hpage : a ∉ page n s items := fun hmem =>
      lt_irrefl _ (hcross a ha a (List.mem_of_mem_take hmem))
    have hall : Kept { s with lists := items :: s.lists } a := by
      intro l hl
      rcases List.mem_cons.mp hl with rfl | hl
      · exact List.mem_of_mem_take ha
      · exact hkept l hl
    obtain ⟨hmore, hlast⟩ := h.passed a hall (by rw [List.mem_append, not_or]; exact ⟨hnot, hpage⟩)
    -- There is more behind the page, so the page has items, and they come after this one.
    simp only [Bool.not_eq_false', decide_eq_true_eq] at hmore
    have hdrop : 0 < (items.drop s.start).length := by
      rw [List.length_drop]
      omega
    obtain ⟨b, hb⟩ := List.exists_mem_of_length_pos hdrop
    obtain ⟨c, hc, -⟩ := hfirst b hb
    exact lt_asymm (hlast c (List.mem_append_right _ hc)) (hcross a ha c (List.mem_of_mem_take hc))

end Walk

end Remembra.Offset
