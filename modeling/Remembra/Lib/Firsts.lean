import Mathlib.Data.List.Induction
import Mathlib.Data.List.Perm.Basic

/-! The items of a list without those that repeat the tag of an earlier one. An item without a tag repeats
    nothing. -/

namespace Remembra.Firsts

variable {α β γ : Type*} [DecidableEq β] [DecidableEq γ]

/-- What is kept, and what is left out, each with the item that it repeats. -/
structure Split (α : Type*) where
  kept : List α := []
  repeats : List (α × α) := []

section Split
variable (tag : α → Option β)

/-- The kept item with the tag of this one. -/
def prior (kept : List α) (a : α) : Option α :=
  if tag a = none then none else kept.find? fun k => tag k = tag a

def push (s : Split α) (a : α) : Split α :=
  match prior tag s.kept a with
  | none => { s with kept := s.kept ++ [a] }
  | some k => { s with repeats := s.repeats ++ [(a, k)] }

def split (l : List α) : Split α := l.foldl (push tag) {}

/-- The later item does not repeat the earlier one. -/
def Apart (a b : α) : Prop := tag b = none ∨ tag a ≠ tag b

variable {tag} {l l' kept : List α} {s : Split α} {a k : α}

theorem prior_eq_some (h : prior tag kept a = some k) : k ∈ kept ∧ tag k = tag a ∧ tag a ≠ none := by
  rw [prior] at h
  split at h
  · cases h
  · next hne => exact ⟨List.mem_of_find?_eq_some h, by simpa using List.find?_some h, hne⟩

theorem prior_eq_none : prior tag kept a = none ↔ ∀ k ∈ kept, Apart tag k a := by
  rw [prior]
  split
  · next hnone => exact iff_of_true rfl fun _ _ => .inl hnone
  · next hne =>
    rw [List.find?_eq_none]
    exact forall₂_congr fun k _ => by simp [Apart, hne]

theorem split_concat (l : List α) (a : α) : split tag (l ++ [a]) = push tag (split tag l) a := by
  rw [split, split, List.foldl_append, List.foldl_cons, List.foldl_nil]

theorem split_append (l l' : List α) : split tag (l ++ l') = l'.foldl (push tag) (split tag l) :=
  List.foldl_append

variable (tag) in
/-- A step keeps the item, which repeats nothing, or leaves it out. -/
theorem push_cases (s : Split α) (a : α) :
    ((∀ k ∈ s.kept, Apart tag k a) ∧ push tag s a = ⟨s.kept ++ [a], s.repeats⟩) ∨
    ∃ k ∈ s.kept, tag k = tag a ∧ tag a ≠ none ∧ push tag s a = ⟨s.kept, s.repeats ++ [(a, k)]⟩ := by
  rw [push]
  cases hprior : prior tag s.kept a with
  | none => exact .inl ⟨prior_eq_none.mp hprior, rfl⟩
  | some k =>
    obtain ⟨hk, hsame, hne⟩ := prior_eq_some hprior
    exact .inr ⟨k, hk, hsame, hne, rfl⟩

variable (tag) in
theorem kept_sublist (l : List α) : (split tag l).kept.Sublist l := by
  induction l using List.reverseRecOn with
  | nil => exact List.Sublist.refl _
  | append_singleton l a ih =>
    rw [split_concat]
    rcases push_cases tag (split tag l) a with ⟨-, h⟩ | ⟨k, -, -, -, h⟩
    · rw [h]
      exact ih.append_right [a]
    · rw [h]
      exact ih.trans (List.sublist_append_left l [a])

theorem kept_apart (l : List α) : (split tag l).kept.Pairwise (Apart tag) := by
  induction l using List.reverseRecOn with
  | nil => exact List.Pairwise.nil
  | append_singleton l a ih =>
    rw [split_concat]
    rcases push_cases tag (split tag l) a with ⟨hapart, h⟩ | ⟨k, -, -, -, h⟩
    · rw [h]
      exact List.pairwise_append.mpr ⟨ih, List.pairwise_singleton .., fun k hk b hb =>
        List.mem_singleton.mp hb ▸ hapart k hk⟩
    · rw [h]
      exact ih

variable (tag) in
/-- Each item has one of its tag among the kept ones. -/
theorem exists_kept (ha : a ∈ l) : ∃ k ∈ (split tag l).kept, tag k = tag a := by
  induction l using List.reverseRecOn with
  | nil => cases ha
  | append_singleton l b ih =>
    rw [split_concat]
    rcases push_cases tag (split tag l) b with ⟨-, h⟩ | ⟨k, hk, hsame, -, h⟩
    · rw [h]
      rcases List.mem_append.mp ha with hl | hb
      · obtain ⟨k, hk, hsame⟩ := ih hl
        exact ⟨k, List.mem_append_left _ hk, hsame⟩
      · exact ⟨a, List.mem_append_right _ hb, rfl⟩
    · rw [h]
      rcases List.mem_append.mp ha with hl | hb
      · exact ih hl
      · exact ⟨k, hk, by rw [hsame, List.mem_singleton.mp hb]⟩

/-- What is left out repeats a kept item before it. -/
theorem repeats_spec {r : α × α} (h : r ∈ (split tag l).repeats) : ∃ before between after,
    l = before ++ r.2 :: (between ++ r.1 :: after) ∧ r.2 ∈ (split tag l).kept ∧ tag r.2 = tag r.1 ∧
      tag r.1 ≠ none := by
  induction l using List.reverseRecOn with
  | nil => cases h
  | append_singleton l b ih =>
    have hold (hr : r ∈ (split tag l).repeats) (hkept : (split tag l).kept ⊆ (split tag (l ++ [b])).kept) :
        ∃ before between after, l ++ [b] = before ++ r.2 :: (between ++ r.1 :: after) ∧
          r.2 ∈ (split tag (l ++ [b])).kept ∧ tag r.2 = tag r.1 ∧ tag r.1 ≠ none := by
      obtain ⟨before, between, after, hl, hk, hsame⟩ := ih hr
      refine ⟨before, between, after ++ [b], ?_, hkept hk, hsame⟩
      rw [hl]
      simp only [List.append_assoc, List.cons_append]
    rcases push_cases tag (split tag l) b with ⟨-, hpush⟩ | ⟨k, hk, hsame, hne, hpush⟩
    · rw [split_concat, hpush] at h hold ⊢
      exact hold h (List.subset_append_left _ _)
    · rw [split_concat, hpush] at h hold ⊢
      rcases List.mem_append.mp h with hr | hr
      · exact hold hr (fun _ hx => hx)
      · obtain rfl := List.mem_singleton.mp hr
        obtain ⟨before, after, hl⟩ := List.append_of_mem ((kept_sublist _ l).subset hk)
        exact ⟨before, after, [], by rw [hl, List.append_assoc, List.cons_append], hk, hsame, hne⟩

variable (tag) in
theorem split_perm (l : List α) :
    ((split tag l).kept ++ (split tag l).repeats.map Prod.fst).Perm l := by
  induction l using List.reverseRecOn with
  | nil => exact List.Perm.refl _
  | append_singleton l a ih =>
    rw [split_concat]
    rcases push_cases tag (split tag l) a with ⟨-, h⟩ | ⟨k, -, -, -, h⟩
    · rw [h]
      refine List.Perm.trans ?_ (ih.append_right [a])
      rw [List.append_assoc, List.append_assoc]
      exact List.perm_append_comm.append_left _
    · rw [h, List.map_append, ← List.append_assoc]
      exact ih.append_right [a]

theorem eq_of_tag (h : l.Pairwise (Apart tag)) {b : α} (ha : a ∈ l) (hb : b ∈ l) (hsame : tag a = tag b)
    (hne : tag a ≠ none) : a = b := by
  induction l with
  | nil => cases ha
  | cons c l ih =>
    obtain ⟨hc, hl⟩ := List.pairwise_cons.mp h
    rcases List.mem_cons.mp ha with rfl | hal
    · rcases List.mem_cons.mp hb with rfl | hbl
      · rfl
      · rcases hc b hbl with hnone | hdiff
        · exact absurd (hsame.trans hnone) hne
        · exact absurd hsame hdiff
    · rcases List.mem_cons.mp hb with rfl | hbl
      · rcases hc a hal with hnone | hdiff
        · exact absurd hnone hne
        · exact absurd hsame.symm hdiff
      · exact ih hl hal hbl

/-- A list in which nothing repeats is kept as it is. -/
theorem split_of_apart (h : l.Pairwise (Apart tag)) : split tag l = ⟨l, []⟩ := by
  induction l using List.reverseRecOn with
  | nil => rfl
  | append_singleton l a ih =>
    obtain ⟨hl, -, hbefore⟩ := List.pairwise_append.mp h
    have hnone : prior tag l a = none :=
      prior_eq_none.mpr fun k hk => hbefore k hk a (List.mem_singleton_self a)
    rw [split_concat, ih hl, push]
    simp only [hnone]

theorem repeats_eq_nil : (split tag l).repeats = [] ↔ l.Pairwise (Apart tag) := by
  refine ⟨fun h => ?_, fun h => by rw [split_of_apart h]⟩
  have hperm := split_perm tag l
  rw [h, List.map_nil, List.append_nil] at hperm
  have hsame := (kept_sublist tag l).eq_of_length hperm.length_eq
  exact hsame ▸ kept_apart l

variable (tag) in
/-- The items that follow leave out only some of themselves. -/
theorem foldl_repeats (l' : List α) (s : Split α) : ∃ added,
    (l'.foldl (push tag) s).repeats = s.repeats ++ added ∧ (added.map Prod.fst).Sublist l' := by
  induction l' generalizing s with
  | nil => exact ⟨[], by simp, List.Sublist.refl _⟩
  | cons a l' ih =>
    obtain ⟨added, hadded, hsub⟩ := ih (push tag s a)
    rw [List.foldl_cons, hadded]
    rcases push_cases tag s a with ⟨-, h⟩ | ⟨k, -, -, -, h⟩
    · rw [h]
      exact ⟨added, rfl, hsub.cons a⟩
    · rw [h]
      exact ⟨(a, k) :: added, by simp, hsub.cons_cons a⟩

/-- A second run over what was kept, and items after it, leaves out only of the latter. -/
theorem repeats_again (l l' : List α) :
    ((split tag ((split tag l).kept ++ l')).repeats.map Prod.fst).Sublist l' := by
  rw [split_append, split_of_apart (kept_apart l)]
  obtain ⟨added, hadded, hsub⟩ := foldl_repeats tag l' ⟨(split tag l).kept, []⟩
  rw [hadded]
  exact hsub

end Split

theorem find?_congr {p q : α → Bool} {l : List α} (h : ∀ a ∈ l, p a = q a) : l.find? p = l.find? q := by
  induction l with
  | nil => rfl
  | cons a l ih =>
    rw [List.find?_cons, List.find?_cons, h a List.mem_cons_self,
      ih fun b hb => h b (List.mem_cons_of_mem _ hb)]

/-- Two tags that tell the same items apart leave the same ones out. -/
theorem split_congr {tag : α → Option β} {tag' : α → Option γ} {l : List α}
    (hnone : ∀ a ∈ l, tag a = none ↔ tag' a = none)
    (hsame : ∀ a ∈ l, ∀ b ∈ l, tag a = tag b ↔ tag' a = tag' b) : split tag l = split tag' l := by
  induction l using List.reverseRecOn with
  | nil => rfl
  | append_singleton l a ih =>
    have hl : ∀ {b}, b ∈ l → b ∈ l ++ [a] := List.mem_append_left _
    have ha : a ∈ l ++ [a] := List.mem_append_right _ (List.mem_singleton_self a)
    have hprior : prior tag (split tag' l).kept a = prior tag' (split tag' l).kept a := by
      have hfind : ((split tag' l).kept.find? fun k => tag k = tag a) =
          (split tag' l).kept.find? fun k => tag' k = tag' a :=
        find?_congr fun k hk => by
          simp only [hsame k (hl ((kept_sublist _ l).subset hk)) a ha]
      rw [prior, prior, hfind]
      simp only [hnone a ha]
    rw [split_concat, split_concat, ih (fun b hb => hnone b (hl hb)) fun b hb c hc =>
      hsame b (hl hb) c (hl hc), push, push, hprior]

end Remembra.Firsts
