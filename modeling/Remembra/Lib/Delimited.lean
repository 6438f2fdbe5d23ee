import Mathlib.Data.List.DropRight

/-! Texts joined by a delimiter. Where the delimiter does not occur in the parts before it, or in the
    parts after it, the joined text determines both parts. What is stripped from the ends of the parts
    may be stripped from the ends of the whole text before. -/

namespace Remembra.Delimited

section List
variable {α : Type*} {a b x y : List α} {c : α}

/-- The first delimiter is where the first part ends. -/
theorem first_inj (ha : c ∉ a) (hb : c ∉ b) (h : a ++ c :: x = b ++ c :: y) : a = b ∧ x = y := by
  induction a generalizing b with
  | nil =>
    cases b with
    | nil => exact ⟨rfl, (List.cons.inj h).2⟩
    | cons d b => exact absurd ((List.cons.inj h).1 ▸ List.mem_cons_self ..) hb
  | cons d a ih =>
    cases b with
    | nil => exact absurd ((List.cons.inj h).1 ▸ List.mem_cons_self ..) ha
    | cons e b =>
      obtain ⟨rfl, hrest⟩ := List.cons.inj h
      obtain ⟨rfl, hxy⟩ := ih (fun hm => ha (List.mem_cons_of_mem _ hm))
        (fun hm => hb (List.mem_cons_of_mem _ hm)) hrest
      exact ⟨rfl, hxy⟩

/-- The last delimiter is where the last part begins. -/
theorem last_inj (hx : c ∉ x) (hy : c ∉ y) (h : a ++ c :: x = b ++ c :: y) : a = b ∧ x = y := by
  have hrev : x.reverse ++ c :: a.reverse = y.reverse ++ c :: b.reverse := by
    have := congrArg List.reverse h
    simpa using this
  obtain ⟨hxy, hab⟩ := first_inj (by simpa using hx) (by simpa using hy) hrev
  exact ⟨List.reverse_inj.mp hab, List.reverse_inj.mp hxy⟩

section Strip
variable [BEq α] [LawfulBEq α] {p : α → Bool} {sep : α}

/-- Without what `p` holds of at both ends. -/
def strip (p : α → Bool) (l : List α) : List α := (l.dropWhile p).rdropWhile p

omit [BEq α] [LawfulBEq α] in
theorem strip_cons {d : α} (hd : p d = true) (l : List α) : strip p (d :: l) = strip p l := by
  rw [strip, List.dropWhile_cons_of_pos hd, strip]

omit [BEq α] [LawfulBEq α] in
theorem strip_concat {d : α} (hd : p d = true) (l : List α) : strip p (l ++ [d]) = strip p l := by
  rw [strip, List.dropWhile_append, strip]
  split
  · rename_i hempty
    rw [List.isEmpty_iff.mp hempty, List.dropWhile_cons_of_pos hd, List.dropWhile_nil]
  · exact List.rdropWhile_concat_pos p _ d hd

omit [BEq α] [LawfulBEq α] in
theorem strip_strip (l : List α) : strip p (strip p l) = strip p l := by
  rcases hl : strip p l with _ | ⟨c, t⟩
  · rfl
  · have hpre : c :: t <+: l.dropWhile p := hl ▸ List.rdropWhile_prefix p _
    have hc : ¬ p c = true := by
      obtain ⟨r, hr⟩ := hpre
      have hne : l.dropWhile p ≠ [] := by simp [← hr]
      have hhead := List.head_dropWhile_not p hne
      simpa [← hr] using hhead
    have hdrop : (c :: t).dropWhile p = c :: t := List.dropWhile_cons_of_neg hc
    have hlast : (c :: t).rdropWhile p = c :: t := by
      rw [← hl, strip, List.rdropWhile_idempotent]
    rw [strip, hdrop, hlast]


/-- The last part grows by what is no delimiter. -/
theorem splitOn_concat {d : α} (hd : d ≠ sep) (l : List α) : ∃ init last,
    l.splitOn sep = init ++ [last] ∧ (l ++ [d]).splitOn sep = init ++ [last ++ [d]] := by
  induction l with
  | nil => exact ⟨[], [], List.splitOn_nil sep, List.splitOn_eq_singleton (by simpa using Ne.symm hd)⟩
  | cons e l ih =>
    obtain ⟨init, last, hl, hld⟩ := ih
    rw [List.cons_append, List.splitOn_cons_eq_if_modifyHead, List.splitOn_cons_eq_if_modifyHead,
      hl, hld]
    split
    · exact ⟨[] :: init, last, rfl, rfl⟩
    · cases init with
      | nil => exact ⟨[], e :: last, rfl, rfl⟩
      | cons x init => exact ⟨(e :: x) :: init, last, rfl, rfl⟩

variable (sep) in
/-- Each item of a list is the delimiter or in a part. -/
theorem eq_or_mem_splitOn {e : α} {l : List α} (h : e ∈ l) :
    e = sep ∨ ∃ part ∈ l.splitOn sep, e ∈ part := by
  induction l with
  | nil => cases h
  | cons d l ih =>
    rw [List.splitOn_cons_eq_if_modifyHead]
    by_cases hd : d = sep
    · rw [if_pos (by simp [hd])]
      rcases List.mem_cons.mp h with rfl | hmem
      · exact .inl hd
      · refine (ih hmem).imp_right ?_
        rintro ⟨part, hpart, he⟩
        exact ⟨part, List.mem_cons_of_mem _ hpart, he⟩
    · rw [if_neg (by simp [hd])]
      obtain ⟨first, others, hparts⟩ := List.exists_cons_of_ne_nil (List.splitOn_ne_nil sep l)
      rw [hparts] at ih ⊢
      rw [List.modifyHead_cons]
      rcases List.mem_cons.mp h with rfl | hmem
      · exact .inr ⟨e :: first, List.mem_cons_self, List.mem_cons_self⟩
      · refine (ih hmem).imp_right ?_
        rintro ⟨part, hpart, he⟩
        rcases List.mem_cons.mp hpart with rfl | hpart
        · exact ⟨d :: part, List.mem_cons_self, List.mem_cons_of_mem _ he⟩
        · exact ⟨part, List.mem_cons_of_mem _ hpart, he⟩

theorem map_strip_splitOn_dropWhile (hsep : p sep = false) (l : List α) :
    ((l.dropWhile p).splitOn sep).map (strip p) = (l.splitOn sep).map (strip p) := by
  induction l with
  | nil => rfl
  | cons d l ih =>
    by_cases hd : p d = true
    · have hne : (d == sep) = false := by
        rw [beq_eq_false_iff_ne]
        rintro rfl
        exact Bool.noConfusion (hd.symm.trans hsep)
      rw [List.dropWhile_cons_of_pos hd, ih, List.splitOn_cons_eq_if_modifyHead, hne]
      cases l.splitOn sep with
      | nil => rfl
      | cons x parts =>
        simp only [Bool.false_eq_true, if_false, List.modifyHead_cons, List.map_cons, strip_cons hd]
    · rw [List.dropWhile_cons_of_neg hd]

theorem map_strip_splitOn_rdropWhile (hsep : p sep = false) (l : List α) :
    ((l.rdropWhile p).splitOn sep).map (strip p) = (l.splitOn sep).map (strip p) := by
  induction l using List.reverseRecOn with
  | nil => rfl
  | append_singleton l d ih =>
    by_cases hd : p d = true
    · have hne : d ≠ sep := by
        rintro rfl
        exact Bool.noConfusion (hd.symm.trans hsep)
      obtain ⟨init, last, hl, hld⟩ := splitOn_concat hne l
      rw [List.rdropWhile_concat_pos p l d hd, ih, hl, hld]
      simp only [List.map_append, List.map_cons, List.map_nil, strip_concat hd]
    · rw [List.rdropWhile_concat_neg p l d hd]

/-- Stripping the whole first changes no part that is stripped after. -/
theorem map_strip_splitOn_strip (hsep : p sep = false) (l : List α) :
    ((strip p l).splitOn sep).map (strip p) = (l.splitOn sep).map (strip p) := by
  rw [strip, map_strip_splitOn_rdropWhile hsep, map_strip_splitOn_dropWhile hsep]

end Strip

end List

/-- `a` and `x` joined by `c`. -/
def join (c : Char) (a x : String) : String := a ++ String.singleton c ++ x

variable {a b x y : String} {c : Char}

theorem toList_join : (join c a x).toList = a.toList ++ c :: x.toList := by
  simp [join, String.toList_append]

theorem join_inj_first (ha : c ∉ a.toList) (hb : c ∉ b.toList) (h : join c a x = join c b y) :
    a = b ∧ x = y := by
  have hlist := congrArg String.toList h
  rw [toList_join, toList_join] at hlist
  obtain ⟨hab, hxy⟩ := first_inj ha hb hlist
  exact ⟨String.toList_injective hab, String.toList_injective hxy⟩

theorem join_inj_last (hx : c ∉ x.toList) (hy : c ∉ y.toList) (h : join c a x = join c b y) :
    a = b ∧ x = y := by
  have hlist := congrArg String.toList h
  rw [toList_join, toList_join] at hlist
  obtain ⟨hab, hxy⟩ := last_inj hx hy hlist
  exact ⟨String.toList_injective hab, String.toList_injective hxy⟩

/-- A number in decimal holds digits only. -/
theorem notMem_toString_nat (hc : c.isDigit = false) (n : ℕ) : c ∉ (toString n).toList := by
  intro hm
  rw [Nat.toString_eq_repr, Nat.toList_repr] at hm
  rw [Nat.isDigit_of_mem_toDigits (by decide) (by decide) hm] at hc
  cases hc

theorem toString_nat_inj {m n : ℕ} (h : toString m = toString n) : m = n := by
  have hdigits : Nat.toDigits 10 m = Nat.toDigits 10 n := by
    simpa only [Nat.toString_eq_repr, Nat.toList_repr] using congrArg String.toList h
  simpa using congrArg (fun digits => Nat.ofDigitChars 10 digits 0) hdigits

theorem notMem_toString_int (hc : c.isDigit = false) (hminus : c ≠ '-') (z : ℤ) :
    c ∉ (toString z).toList := by
  have hdigits : ∀ n : ℕ, c ∉ n.repr.toList := fun n => by
    rw [← Nat.toString_eq_repr]
    exact notMem_toString_nat hc n
  rw [Int.toString_eq_repr, Int.repr_eq_if]
  split
  · exact hdigits _
  · rw [String.toList_append, List.mem_append, not_or]
    refine ⟨?_, hdigits _⟩
    simpa using hminus

theorem toString_int_inj {m n : ℤ} (h : toString m = toString n) : m = n := by
  have hdigits : ∀ {k l : ℕ}, k.repr = l.repr → k = l := fun h => toString_nat_inj h
  have hsign : ∀ k l : ℕ, k.repr ≠ "-" ++ l.repr := by
    intro k l heq
    have hmem : '-' ∈ k.repr.toList := by simp [heq]
    exact notMem_toString_nat rfl k hmem
  rw [Int.toString_eq_repr, Int.toString_eq_repr, Int.repr_eq_if, Int.repr_eq_if] at h
  by_cases hm : 0 ≤ m
  · by_cases hn : 0 ≤ n
    · rw [if_pos hm, if_pos hn] at h
      have hnat := hdigits h
      omega
    · rw [if_pos hm, if_neg hn] at h
      exact absurd h (hsign _ _)
  · by_cases hn : 0 ≤ n
    · rw [if_neg hm, if_pos hn] at h
      exact absurd h.symm (hsign _ _)
    · rw [if_neg hm, if_neg hn] at h
      have hnat := hdigits (String.append_right_inj _ |>.mp h)
      omega

theorem toString_int_ne_empty (z : ℤ) : toString z ≠ "" := by
  rw [Int.toString_eq_repr, Int.repr_eq_if]
  split
  · exact Nat.repr_ne_empty
  · intro h
    have hlength := congrArg String.toList h
    simp at hlength

end Remembra.Delimited
