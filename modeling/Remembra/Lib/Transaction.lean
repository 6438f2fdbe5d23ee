import Mathlib.Tactic.Common

/-! Transactions over a database. The body reads and writes as it goes and may throw; when it throws,
    the transaction rolls back what the body has written so far. -/

namespace Remembra

variable {δ ε α : Type*}

/-- Run a body as one atomic transaction. -/
def immediate (body : δ → Except ε α × δ) (db : δ) : Except ε α × δ :=
  match body db with
  | (.ok a, after) => (.ok a, after)
  | (.error e, _) => (.error e, db)

variable {body : δ → Except ε α × δ} {db after : δ}

theorem immediate_fst : (immediate body db).1 = (body db).1 := by
  rw [immediate]
  split <;> rename_i h <;> rw [h]

theorem immediate_ok {a : α} (h : body db = (.ok a, after)) : immediate body db = (.ok a, after) := by
  rw [immediate, h]

theorem immediate_throw {e : ε} (h : body db = (.error e, after)) : immediate body db = (.error e, db) := by
  rw [immediate, h]

/-- A view of the database that the body respects is respected by the transaction. -/
theorem immediate_comm (view : δ → δ) (h : body (view db) = ((body db).1, view (body db).2)) :
    immediate body (view db) = ((immediate body db).1, view (immediate body db).2) := by
  rw [immediate, h, immediate]
  rcases body db with ⟨_ | _, _⟩ <;> rfl

/-- What a transaction comes to: it throws and changes nothing, or it does what its body does. -/
theorem immediate_cases (body : δ → Except ε α × δ) (db : δ) :
    (∃ e, immediate body db = (.error e, db)) ∨
      ∃ a after, body db = (.ok a, after) ∧ immediate body db = (.ok a, after) := by
  rcases hb : body db with ⟨_ | a, after⟩
  · rename_i e
    exact .inl ⟨e, by rw [immediate, hb]⟩
  · exact .inr ⟨a, after, rfl, immediate_ok hb⟩

end Remembra
