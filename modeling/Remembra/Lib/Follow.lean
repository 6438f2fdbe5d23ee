import Mathlib.Data.Fintype.Pigeonhole
import Mathlib.Data.Set.Finite.Basic

/-! Following a partial function. Where it leads into a finite collection only, the chain from each
    place either ends or comes to one place twice, and never both. -/

namespace Remembra.Follow

variable {α : Type*} (next : α → Option α)

/-- Where `n` steps lead. -/
def after : ℕ → α → Option α
  | 0, a => some a
  | n + 1, a => (next a).bind (after n)

/-- The chain from `a` has its end at `b`. -/
def EndsAt (a b : α) : Prop := ∃ n, after next n a = some b ∧ next b = none

/-- The chain from `a` comes to one place twice. -/
def Repeats (a : α) : Prop :=
  ∃ m n b, m < n ∧ after next m a = some b ∧ after next n a = some b

variable {next} {a b c : α} {m n : ℕ}

@[simp] theorem after_zero : after next 0 a = some a := rfl

theorem after_succ : after next (n + 1) a = (next a).bind (after next n) := rfl

theorem after_add : after next (m + n) a = (after next m a).bind (after next n) := by
  induction m generalizing a with
  | zero => rw [Nat.zero_add, after_zero, Option.bind_some]
  | succ m ih =>
    rw [Nat.succ_add, after_succ, after_succ, Option.bind_assoc]
    exact congrArg (next a).bind (funext fun _ => ih)

/-- Nothing comes after the end. -/
theorem after_of_end (h : next b = none) (hn : 0 < n) : after next n b = none := by
  obtain ⟨k, rfl⟩ := Nat.exists_eq_succ_of_ne_zero hn.ne'
  rw [after_succ, h, Option.bind_none]

/-- What the chain comes to lies no later than its end. -/
theorem le_of_end (hm : after next m a = some c) (hn : after next n a = some b) (h : next b = none) :
    m ≤ n := by
  by_contra hlt
  obtain ⟨k, rfl⟩ := Nat.exists_eq_add_of_lt (not_le.mp hlt)
  rw [Nat.add_assoc, after_add, hn, Option.bind_some, after_of_end h (Nat.succ_pos k)] at hm
  cases hm

theorem EndsAt.unique (hb : EndsAt next a b) (hc : EndsAt next a c) : b = c := by
  obtain ⟨m, hm, hbend⟩ := hb
  obtain ⟨n, hn, hcend⟩ := hc
  have hle := le_of_end hm hn hcend
  have hge := le_of_end hn hm hbend
  obtain rfl := le_antisymm hle hge
  exact Option.some.inj (hm.symm.trans hn)

/-- A chain that repeats has no end. -/
theorem Repeats.not_endsAt (h : Repeats next a) : ¬ EndsAt next a b := by
  obtain ⟨i, j, c, hlt, hi, hj⟩ := h
  rintro ⟨n, hn, hend⟩
  have hjn := le_of_end hj hn hend
  -- the rest of the way from the second visit, taken from the first one
  have hearly : after next (i + (n - j)) a = some b := by
    rw [after_add, hi, ← hj, ← after_add, Nat.add_sub_cancel' hjn]
    exact hn
  have hle := le_of_end hn hearly hend
  omega

/-- A chain that stays in a finite collection ends or repeats. -/
theorem endsAt_or_repeats {s : List α} (hs : ∀ a b, next a = some b → b ∈ s) (a : α) :
    (∃ b, EndsAt next a b) ∨ Repeats next a := by
  by_cases hend : ∃ b, EndsAt next a b
  · exact .inl hend
  · refine .inr ?_
    have hgoes (n : ℕ) : ∃ b, after next n a = some b := by
      induction n with
      | zero => exact ⟨a, rfl⟩
      | succ n ih =>
        obtain ⟨b, hb⟩ := ih
        cases hnext : next b with
        | none => exact absurd ⟨b, n, hb, hnext⟩ hend
        | some c =>
          refine ⟨c, ?_⟩
          rw [after_add, hb, Option.bind_some, after_succ, hnext]
          rfl
    choose place hplace using hgoes
    have hmem (n : ℕ) : place n ∈ a :: s := by
      cases n with
      | zero => exact Option.some.inj (hplace 0) ▸ List.mem_cons_self
      | succ n =>
        have hstep := hplace (n + 1)
        rw [after_add, hplace n, Option.bind_some, after_succ, Option.bind_eq_some_iff] at hstep
        obtain ⟨b, hb, hlast⟩ := hstep
        exact List.mem_cons_of_mem a (Option.some.inj hlast ▸ hs _ _ hb)
    have hfinite : Finite { x | x ∈ a :: s } := (List.finite_toSet (a :: s)).to_subtype
    obtain ⟨i, j, hne, heq⟩ :=
      Finite.exists_ne_map_eq_of_infinite fun n : ℕ => (⟨place n, hmem n⟩ : { x | x ∈ a :: s })
    have hsame : place i = place j := congrArg Subtype.val heq
    rcases lt_or_gt_of_ne hne with hlt | hlt
    · exact ⟨i, j, place i, hlt, hplace i, hsame ▸ hplace j⟩
    · exact ⟨j, i, place j, hlt, hplace j, hsame ▸ hplace i⟩

end Remembra.Follow
