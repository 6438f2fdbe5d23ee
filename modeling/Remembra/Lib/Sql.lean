import Mathlib.Data.Rat.Defs

/-! Conditions of SQL with their three-valued meaning. A condition is a tree over the columns of a row;
    a parameter carries the value that is bound to its `?`, so that the list of bound values follows
    from the tree. A row is selected where the condition is true: neither false nor unknown. -/

namespace Remembra.Sql

inductive Value where
  | null
  | integer (n : ℤ)
  | text (s : String)
  /-- The ISO-8601 text of an instant, in milliseconds since 1970. -/
  | instant (t : ℤ)
  deriving DecidableEq

inductive Term (κ : Type) where
  | column (c : κ)
  | literal (n : ℤ)
  | param (value : Value)

inductive Cond (κ : Type) where
  | isNull (a : Term κ)
  | eq (a b : Term κ)
  | isIn (a : Term κ) (options : List (Term κ))
  /-- `julianday(a) IS NOT NULL` -/
  | isDate (a : Term κ)
  /-- `julianday(a) > julianday(b)` -/
  | after (a b : Term κ)
  | and (p q : Cond κ)
  | or (p q : Cond κ)

/-! ### Texts -/

section Texts
variable {κ : Type} (name : κ → String)

def Term.sql : Term κ → String
  | .column c => name c
  | .literal n => toString n
  | .param _ => "?"

def Cond.sql : Cond κ → String
  | .isNull a => a.sql name ++ " IS NULL"
  | .eq a b => a.sql name ++ " = " ++ b.sql name
  | .isIn a options => a.sql name ++ " IN (" ++ ", ".intercalate (options.map (Term.sql name)) ++ ")"
  | .isDate a => "julianday(" ++ a.sql name ++ ") IS NOT NULL"
  | .after a b => "julianday(" ++ a.sql name ++ ") > julianday(" ++ b.sql name ++ ")"
  | .and p q => p.sql ++ " AND " ++ q.sql
  | .or p q => "(" ++ p.sql ++ " OR (" ++ q.sql ++ "))"

end Texts

/-! ### Meanings -/

/-- `NULL` is neither equal to anything nor different from it. -/
def Value.same : Value → Value → Option Bool
  | .null, _ => none
  | _, .null => none
  | a, b => some (a = b)

/-- False if one of the two is false, else unknown if one of them is. -/
def both : Option Bool → Option Bool → Option Bool
  | some false, _ => some false
  | _, some false => some false
  | some true, some true => some true
  | _, _ => none

def either : Option Bool → Option Bool → Option Bool
  | some true, _ => some true
  | _, some true => some true
  | some false, some false => some false
  | _, _ => none

section Meanings
variable {κ : Type} (julianday : Value → Option ℚ) (row : κ → Value)

def Term.value : Term κ → Value
  | .column c => row c
  | .literal n => .integer n
  | .param value => value

def Cond.eval : Cond κ → Option Bool
  | .isNull a => some (a.value row = .null)
  | .eq a b => (a.value row).same (b.value row)
  | .isIn a options => options.foldr (fun b rest => either ((a.value row).same (b.value row)) rest)
      (some false)
  | .isDate a => some (julianday (a.value row)).isSome
  | .after a b => (julianday (a.value row)).bind fun x =>
      (julianday (b.value row)).map fun y => decide (y < x)
  | .and p q => both p.eval q.eval
  | .or p q => either p.eval q.eval

/-- The row is selected. -/
def Cond.holds (p : Cond κ) : Bool := p.eval julianday row = some true

end Meanings

section Laws
attribute [local simp] Cond.holds Cond.eval
variable {κ : Type} {julianday : Value → Option ℚ} {row : κ → Value} {a b : Term κ} {p q : Cond κ}

theorem both_eq_true {x y : Option Bool} : both x y = some true ↔ x = some true ∧ y = some true := by
  rcases x with _ | _ | _ <;> rcases y with _ | _ | _ <;> simp [both]

theorem either_eq_true {x y : Option Bool} :
    either x y = some true ↔ x = some true ∨ y = some true := by
  rcases x with _ | _ | _ <;> rcases y with _ | _ | _ <;> simp [either]

theorem same_eq_true {x y : Value} : x.same y = some true ↔ x ≠ .null ∧ x = y := by
  unfold Value.same
  split
  · simp
  · rename_i hx
    simp only [reduceCtorEq, false_iff]
    rintro ⟨hne, rfl⟩
    exact hne rfl
  · rename_i hx hy
    simp only [Option.some.injEq, decide_eq_true_eq]
    exact ⟨fun h => ⟨hx, h⟩, fun h => h.2⟩

@[simp] theorem holds_and :
    (p.and q).holds julianday row = true ↔ p.holds julianday row = true ∧ q.holds julianday row = true := by
  simp [both_eq_true]

@[simp] theorem holds_or :
    (p.or q).holds julianday row = true ↔ p.holds julianday row = true ∨ q.holds julianday row = true := by
  simp [either_eq_true]

@[simp] theorem holds_isNull :
    (Cond.isNull a).holds julianday row = true ↔ a.value row = .null := by
  simp

@[simp] theorem holds_eq : (Cond.eq a b).holds julianday row = true ↔
    a.value row ≠ .null ∧ a.value row = b.value row := by
  simp [same_eq_true]

@[simp] theorem holds_isDate :
    (Cond.isDate a).holds julianday row = true ↔ (julianday (a.value row)).isSome = true := by
  simp

@[simp] theorem holds_after : (Cond.after a b).holds julianday row = true ↔
    ∃ x y, julianday (a.value row) = some x ∧ julianday (b.value row) = some y ∧ y < x := by
  simp [Option.bind_eq_some_iff]

theorem any_eq_true {x : Value} {options : List (Term κ)} :
    options.foldr (fun b rest => either (x.same (b.value row)) rest) (some false) = some true ↔
      x ≠ .null ∧ ∃ b ∈ options, x = b.value row := by
  induction options with
  | nil => simp
  | cons b options ih =>
    rw [List.foldr_cons, either_eq_true, ih, same_eq_true, ← and_or_left]
    simp

/-- A value is in a list exactly where it is not `NULL` and one of the options. -/
@[simp] theorem holds_isIn {options : List (Term κ)} :
    (Cond.isIn a options).holds julianday row = true ↔
      a.value row ≠ .null ∧ ∃ b ∈ options, a.value row = b.value row := by
  rw [← any_eq_true]
  exact decide_eq_true_iff

end Laws

end Remembra.Sql
