import Mathlib.Tactic.Common

/-! Codes that can be told apart from what follows them. A code determines a value if, followed by anything
    that may stand after a value, it is the code of no other value and ends in one place only. Repeated up
    to a closing mark, or separated by a mark, such codes determine the list of their values. -/

namespace Remembra.Encoding

variable {α β γ : Type*}

/-- Among the values `V`, and with what meets `stop` after it, the code of `x` is that of `x` alone. -/
def Determines (f : β → List α) (V : β → Prop) (stop : List α → Prop) (x : β) : Prop :=
  ∀ y r s, V y → stop r → stop s → f x ++ r = f y ++ s → x = y ∧ r = s

section Codes
variable {f : β → List α} {V : β → Prop} {stop : List α → Prop} {sep close : α}

/-- What can be read back determines what was written. -/
theorem determines_of_read {read : List α → Option (β × List α)}
    (h : ∀ x r, read (f x ++ r) = some (x, r)) (x : β) : Determines f V stop x := by
  intro y r s _ _ _ heq
  have hread := h x r
  rw [heq, h y s] at hread
  obtain ⟨rfl, rfl⟩ := Prod.mk.inj (Option.some.inj hread)
  exact ⟨rfl, rfl⟩

theorem Determines.injective {stop : List α → Prop} (hnil : stop [])
    {x y : β} (hx : Determines f V stop x) (hy : V y) (h : f x = f y) : x = y :=
  (hx y [] [] hy hnil hnil (by rw [h])).1

/-- Codes one after another, up to the closing mark that none of them begins with. -/
theorem flatMap_determines (hclose : ∀ x r s, f x ++ r ≠ close :: s)
    (hf : ∀ x, Determines f (fun _ => True) (fun _ => True) x) :
    ∀ {xs ys : List β} {r s : List α},
      xs.flatMap f ++ close :: r = ys.flatMap f ++ close :: s → xs = ys ∧ r = s
  | [], [], r, s, h => ⟨rfl, (List.cons.inj h).2⟩
  | [], y :: ys, r, s, h => by
    rw [List.flatMap_cons, List.append_assoc] at h
    exact absurd h.symm (hclose y _ _)
  | x :: xs, [], r, s, h => by
    rw [List.flatMap_cons, List.append_assoc] at h
    exact absurd h (hclose x _ _)
  | x :: xs, y :: ys, r, s, h => by
    rw [List.flatMap_cons, List.flatMap_cons, List.append_assoc, List.append_assoc] at h
    obtain ⟨rfl, hrest⟩ := hf x y _ _ trivial trivial trivial h
    obtain ⟨rfl, hrs⟩ := flatMap_determines hclose hf hrest
    exact ⟨rfl, hrs⟩

/-! ### Separated codes -/

theorem intercalate_cons (x : List α) (l : List (List α)) :
    [sep].intercalate (x :: l) = x ++ l.flatMap (sep :: ·) := by
  induction l generalizing x with
  | nil => simp
  | cons y l ih =>
    rw [List.intercalate_cons_cons, ih y, List.flatMap_cons]
    simp

section Separated
variable (hclose : ∀ x r s, V x → f x ++ r ≠ close :: s) (hne : sep ≠ close)
  (hsep : ∀ l, stop (sep :: l)) (hstop : ∀ l, stop (close :: l))

include hsep hstop in
theorem stop_tail (xs : List β) (r : List α) :
    stop ((xs.map f).flatMap (sep :: ·) ++ close :: r) := by
  cases xs with
  | nil => exact hstop r
  | cons x xs => exact hsep _

include hne hsep hstop

/-- The codes after the first one. -/
theorem tail_determines : ∀ {xs ys : List β} {r s : List α}, (∀ x ∈ xs, Determines f V stop x) →
    (∀ y ∈ ys, V y) → (xs.map f).flatMap (sep :: ·) ++ close :: r =
      (ys.map f).flatMap (sep :: ·) ++ close :: s → xs = ys ∧ r = s
  | [], [], r, s, _, _, h => ⟨rfl, (List.cons.inj h).2⟩
  | [], y :: ys, r, s, _, _, h => absurd (List.cons.inj h).1.symm hne
  | x :: xs, [], r, s, _, _, h => absurd (List.cons.inj h).1 hne
  | x :: xs, y :: ys, r, s, hxs, hys, h => by
    simp only [List.map_cons, List.flatMap_cons, List.cons_append, List.append_assoc] at h
    obtain ⟨rfl, hrest⟩ := hxs x (List.mem_cons_self ..) y _ _ (hys y (List.mem_cons_self ..))
      (stop_tail hsep hstop xs r) (stop_tail hsep hstop ys s) (List.cons.inj h).2
    obtain ⟨rfl, hrs⟩ := tail_determines (fun x hx => hxs x (List.mem_cons_of_mem _ hx))
      (fun y hy => hys y (List.mem_cons_of_mem _ hy)) hrest
    exact ⟨rfl, hrs⟩

include hclose

/-- Codes separated by one mark and closed by another, that none of them begins with. -/
theorem intercalate_determines {xs ys : List β} {r s : List α}
    (hxs : ∀ x ∈ xs, V x ∧ Determines f V stop x) (hys : ∀ y ∈ ys, V y)
    (h : [sep].intercalate (xs.map f) ++ close :: r = [sep].intercalate (ys.map f) ++ close :: s) :
    xs = ys ∧ r = s := by
  cases xs with
  | nil =>
    cases ys with
    | nil => exact ⟨rfl, (List.cons.inj h).2⟩
    | cons y ys =>
      rw [List.map_cons, intercalate_cons, List.append_assoc] at h
      exact absurd h.symm (hclose y _ _ (hys y (List.mem_cons_self ..)))
  | cons x xs =>
    obtain ⟨hx, hdetermines⟩ := hxs x (List.mem_cons_self ..)
    cases ys with
    | nil =>
      rw [List.map_cons, intercalate_cons, List.append_assoc] at h
      exact absurd h (hclose x _ _ hx)
    | cons y ys =>
      rw [List.map_cons, List.map_cons, intercalate_cons, intercalate_cons, List.append_assoc,
        List.append_assoc] at h
      obtain ⟨rfl, hrest⟩ := hdetermines y _ _ (hys y (List.mem_cons_self ..))
        (stop_tail hsep hstop xs r) (stop_tail hsep hstop ys s) h
      obtain ⟨rfl, hrs⟩ := tail_determines hne hsep hstop
        (fun x hx => (hxs x (List.mem_cons_of_mem _ hx)).2)
        (fun y hy => hys y (List.mem_cons_of_mem _ hy)) hrest
      exact ⟨rfl, hrs⟩

end Separated

end Codes

/-- A run of letters ends where the first other one stands. -/
theorem span_inj {p : α → Bool} {a b r s : List α} (ha : ∀ c ∈ a, p c = true) (hb : ∀ c ∈ b, p c = true)
    (hr : ∀ c ∈ r.head?, p c = false) (hs : ∀ c ∈ s.head?, p c = false) (h : a ++ r = b ++ s) :
    a = b ∧ r = s := by
  induction a generalizing b with
  | nil =>
    cases b with
    | nil => exact ⟨rfl, h⟩
    | cons d b =>
      obtain rfl : r = d :: (b ++ s) := h
      exact absurd (hr d rfl) (by rw [hb d (List.mem_cons_self ..)]; exact Bool.noConfusion)
  | cons c a ih =>
    cases b with
    | nil =>
      obtain rfl : c :: (a ++ r) = s := h
      exact absurd (hs c rfl) (by rw [ha c (List.mem_cons_self ..)]; exact Bool.noConfusion)
    | cons d b =>
      obtain ⟨rfl, hrest⟩ := List.cons.inj h
      obtain ⟨rfl, hrs⟩ := ih (fun c hc => ha c (List.mem_cons_of_mem _ hc))
        (fun c hc => hb c (List.mem_cons_of_mem _ hc)) hrest
      exact ⟨rfl, hrs⟩

end Remembra.Encoding
