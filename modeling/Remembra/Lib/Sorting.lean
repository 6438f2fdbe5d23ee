import Mathlib.Data.List.Basic

/-! What a merge sort does with two kinds of items, of which the comparison always puts the first kind
    before the second: they stand before the others in the sorted list, also where the comparison is no
    order within a kind. -/

namespace Remembra.Sorting

variable {α : Type*} {p : α → Prop} {le : α → α → Bool} {xs ys : List α}

/-- The items of one kind stand before the others. -/
def Front (p : α → Prop) (l : List α) : Prop := l.Pairwise fun a b => p b → p a

theorem Front.sublist {l l' : List α} (h : Front p l) (hsub : l'.Sublist l) : Front p l' :=
  List.Pairwise.sublist hsub h

/-- The list is the items of the kind, and then the others. -/
theorem Front.eq_append [DecidablePred p] {l : List α} (h : Front p l) :
    l = l.filter p ++ l.filter fun a => ¬ p a := by
  induction l with
  | nil => rfl
  | cons a l ih =>
    obtain ⟨ha, hl⟩ := List.pairwise_cons.mp h
    by_cases hpa : p a
    · rw [List.filter_cons_of_pos (by simpa using hpa), List.filter_cons_of_neg (by simpa using hpa),
        List.cons_append, ← ih hl]
    · have hnone : l.filter p = [] := by
        rw [List.filter_eq_nil_iff]
        intro b hb hpb
        exact hpa (ha b hb (of_decide_eq_true hpb))
      rw [List.filter_cons_of_neg (by simpa using hpa), List.filter_cons_of_pos (by simpa using hpa),
        hnone, List.nil_append]
      rw [hnone, List.nil_append] at ih
      rw [← ih hl]

/-- The comparison puts the items of the first list that are of the kind before those of the second list
    that are not. -/
def Separates (le : α → α → Bool) (p : α → Prop) (xs ys : List α) : Prop :=
  ∀ a ∈ xs, ∀ b ∈ ys, (p a → ¬ p b → le a b = true) ∧ (p b → ¬ p a → le a b = false)

theorem Front.merge (hxs : Front p xs) (hys : Front p ys) (hle : Separates le p xs ys) :
    Front p (xs.merge ys le) := by
  induction xs generalizing ys with
  | nil => rwa [List.nil_merge]
  | cons x xs ih =>
    induction ys with
    | nil => rwa [List.merge_right]
    | cons y ys ihy =>
      obtain ⟨hx, hxs'⟩ := List.pairwise_cons.mp hxs
      obtain ⟨hy, hys'⟩ := List.pairwise_cons.mp hys
      obtain ⟨hxy, hyx⟩ := hle x List.mem_cons_self y List.mem_cons_self
      rw [List.merge]
      split_ifs with hle'
      · refine List.pairwise_cons.mpr ⟨fun z hz hpz => ?_, ih hxs' hys fun a ha => ?_⟩
        · rcases List.mem_merge.mp hz with hz | hz
          · exact hx z hz hpz
          · have hpy : p y := by
              rcases List.mem_cons.mp hz with rfl | hz
              · exact hpz
              · exact hy z hz hpz
            by_contra hpx
            rw [hyx hpy hpx] at hle'
            cases hle'
        · exact hle a (List.mem_cons_of_mem _ ha)
      · refine List.pairwise_cons.mpr ⟨fun z hz hpz => ?_, ihy hys' fun a ha b hb => ?_⟩
        · rcases List.mem_merge.mp hz with hz | hz
          · have hpx : p x := by
              rcases List.mem_cons.mp hz with rfl | hz
              · exact hpz
              · exact hx z hz hpz
            by_contra hpy
            exact hle' (hxy hpx hpy)
          · exact hy z hz hpz
        · exact hle a ha b (List.mem_cons_of_mem _ hb)

open List.MergeSort.Internal in
/-- A merge sort puts the items of the kind in front. -/
theorem front_mergeSort {l : List α}
    (h : ∀ a ∈ l, ∀ b ∈ l, p a → ¬ p b → le a b = true ∧ le b a = false) :
    Front p (l.mergeSort le) := by
  match l with
  | [] =>
    rw [List.mergeSort_nil]
    exact List.Pairwise.nil
  | [a] =>
    rw [List.mergeSort_singleton]
    exact List.pairwise_singleton _ _
  | a :: b :: l =>
    have hhalves : (splitInTwo ⟨a :: b :: l, rfl⟩).1.1 ++ (splitInTwo ⟨a :: b :: l, rfl⟩).2.1 =
        a :: b :: l := splitInTwo_fst_append_splitInTwo_snd ⟨a :: b :: l, rfl⟩
    have hfst : ∀ x ∈ (splitInTwo ⟨a :: b :: l, rfl⟩).1.1, x ∈ a :: b :: l := fun x hx =>
      hhalves ▸ List.mem_append_left _ hx
    have hsnd : ∀ x ∈ (splitInTwo ⟨a :: b :: l, rfl⟩).2.1, x ∈ a :: b :: l := fun x hx =>
      hhalves ▸ List.mem_append_right _ hx
    have hfstLength : (splitInTwo ⟨a :: b :: l, rfl⟩).1.1.length < l.length + 2 := by
      rw [(splitInTwo ⟨a :: b :: l, rfl⟩).1.2]
      simp only [List.length_cons]
      omega
    have hsndLength : (splitInTwo ⟨a :: b :: l, rfl⟩).2.1.length < l.length + 2 := by
      rw [(splitInTwo ⟨a :: b :: l, rfl⟩).2.2]
      simp only [List.length_cons]
      omega
    rw [List.mergeSort]
    refine Front.merge (front_mergeSort fun x hx y hy => h x (hfst x hx) y (hfst y hy))
      (front_mergeSort fun x hx y hy => h x (hsnd x hx) y (hsnd y hy)) fun x hx y hy => ?_
    have hx' := hfst x (List.mem_mergeSort.mp hx)
    have hy' := hsnd y (List.mem_mergeSort.mp hy)
    exact ⟨fun hpx hpy => (h x hx' y hy' hpx hpy).1, fun hpy hpx => (h y hy' x hx' hpy hpx).2⟩
termination_by l.length

end Remembra.Sorting
