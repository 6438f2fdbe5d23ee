import Mathlib.Tactic.Common

/-! What holds of each event of a history in view of the events before and after it. A history grows at
    its end, and `AtEach` is kept when the new event meets it and what came earlier still meets it with
    one event more behind (`atEach_concat`). -/

namespace Remembra

variable {α : Type*} {P Q : List α → α → List α → Prop} {l : List α} {a : α}

/-- Every event of the history, with those before it and those after it, meets `P`. -/
def AtEach (P : List α → α → List α → Prop) (l : List α) : Prop :=
  ∀ before a after, l = before ++ a :: after → P before a after

theorem atEach_nil : AtEach P [] := by
  intro before a after h
  exact absurd h.symm (List.append_ne_nil_of_right_ne_nil _ (List.cons_ne_nil _ _))

theorem atEach_concat : AtEach P (l ++ [a]) ↔
    AtEach (fun before b after => P before b (after ++ [a])) l ∧ P l a [] := by
  constructor
  · intro h
    refine ⟨?_, h l a [] rfl⟩
    rintro before b after rfl
    exact h before b (after ++ [a]) (by rw [List.append_assoc, List.cons_append])
  · rintro ⟨hold, hnew⟩ before b after heq
    rcases List.eq_nil_or_concat after with rfl | ⟨after, c, rfl⟩
    · obtain ⟨rfl, hlast⟩ := List.append_inj' heq rfl
      obtain rfl := (List.cons.inj hlast).1
      exact hnew
    · rw [List.concat_eq_append, ← List.cons_append, ← List.append_assoc] at heq
      obtain ⟨hinit, hlast⟩ := List.append_inj' heq rfl
      obtain rfl := (List.cons.inj hlast).1
      rw [List.concat_eq_append]
      exact hold before b after hinit

theorem AtEach.imp (h : AtEach P l) (hpq : ∀ before a after, P before a after → Q before a after) :
    AtEach Q l := by
  intro before a after heq
  exact hpq before a after (h before a after heq)

end Remembra
