import Remembra.Lib.Sql
import Remembra.V6.Context

/-! The retrieval boundary of V6: `buildV6Predicate` writes its rules as a condition of SQL and
    `guardCandidateSet` applies them in process. The two select the same rows up to a limit exactly as
    long as no row that comes before the limit is filled is one that only one of them selects, and the
    limit is not below one (`boundary_agrees_iff`). -/

namespace Remembra.V6
open Store (SensitivityBand TrustLevel RetentionMode Vocabulary)
open Service (bandIndex)
open Sql (Value Term Cond)

/-! ### The predicate -/

structure Candidate where
  id : String
  organizationId : String
  projectId : Option String := none
  sensitivity : SensitivityBand
  trust : TrustLevel
  retention : RetentionMode
  legalHold : Bool
  expiresAt : Option ℤ := none

structure PredicateOptions where
  now : ℤ
  /-- The clock that SQLite is handed, `now` where it is left out. -/
  nowIso : Option ℤ := none
  forOperation : Option OperationClass := none
  limit : Option ℚ := none

inductive Column where
  | tenantId | projectId | sensitivity | validUntil | legalHold
  deriving DecidableEq

def Column.sql : Column → String
  | .tenantId => "m.tenant_id"
  | .projectId => "m.project_id"
  | .sensitivity => "m.sensitivity"
  | .validUntil => "m.valid_until"
  | .legalHold => "m.legal_hold"

/-- `SENSITIVITY_ORDER` -/
def sensitivityOrder : List SensitivityBand := [.isPublic, .internal, .confidential, .secret]

/-- `SENSITIVITY_ORDER.slice(0, clearance + 1)` -/
def reachable (clearance : SensitivityBand) : List SensitivityBand :=
  sensitivityOrder.take (bandIndex clearance + 1)

/-- `CANDIDATE_OPERATIONS` -/
def isCandidateOperation (operation : OperationClass) : Bool := operation = .contextRead

def excludesHeld (options : PredicateOptions) : Bool := options.forOperation.all isCandidateOperation

section Predicate
variable (context : RequestContext) (options : PredicateOptions)

def tenantClause : Cond Column :=
  .eq (.column .tenantId) (.param (.text context.principal.organizationId))

def projectClause : Cond Column :=
  match context.principal.projectId with
  | some project => .eq (.column .projectId) (.param (.text project))
  | none => .isNull (.column .projectId)

def sensitivityClause : Cond Column :=
  .isIn (.column .sensitivity) ((reachable (clearanceOf context.principal)).map fun band =>
    .param (.text (Vocabulary.text band)))

def expiryClause : Cond Column :=
  .or (.isNull (.column .validUntil))
    (.and (.isDate (.column .validUntil))
      (.after (.column .validUntil) (.param (.instant (options.nowIso.getD options.now)))))

def holdClause : Cond Column := .eq (.column .legalHold) (.literal 0)

/-- `buildV6Predicate` -/
def buildV6Predicate : Cond Column :=
  let base := ((tenantClause context).and (projectClause context)).and (sensitivityClause context)
    |>.and (expiryClause options)
  if excludesHeld options then base.and holdClause else base

/-- `Math.trunc` -/
def trunc (q : ℚ) : ℤ := if 0 ≤ q then ⌊q⌋ else ⌈q⌉

/-- `Math.max(0, Math.trunc(limit))` -/
def limitOf (limit : ℚ) : ℤ := max 0 (trunc limit)

/-- The clause of `compileV6Predicate`, the same for every path. -/
def clauseFor : String :=
  "WHERE " ++ (buildV6Predicate context options).sql Column.sql ++
    ((options.limit.map fun limit => " LIMIT " ++ toString (limitOf limit)).getD "")

end Predicate

/-! ### What SQLite makes of it -/

/-- The years 0000 to 9999, which SQLite's date functions are for. -/
def sqliteDates (t : ℤ) : Bool := -62167219200000 ≤ t && t < 253402300800000

/-- `julianday`; `NULL` for what is no date, also the text of an instant in a year of six digits. -/
def julianday : Value → Option ℚ
  | .instant t => if sqliteDates t then some ((t : ℚ) / 86400000 + 4881175 / 2) else none
  | _ => none

/-- The columns of the row of a candidate. -/
def Candidate.columns (c : Candidate) : Column → Value
  | .tenantId => .text c.organizationId
  | .projectId => (c.projectId.map Value.text).getD .null
  | .sensitivity => .text (Vocabulary.text c.sensitivity)
  | .validUntil => (c.expiresAt.map Value.instant).getD .null
  | .legalHold => .integer (if c.legalHold then 1 else 0)

def sqlSelects (context : RequestContext) (options : PredicateOptions) (c : Candidate) : Bool :=
  (buildV6Predicate context options).holds julianday c.columns

/-- `LIMIT` -/
def limited {α : Type} (limit : Option ℚ) (rows : List α) : List α :=
  match limit with
  | none => rows
  | some limit => rows.take (limitOf limit).toNat

/-- The rows that the compiled query returns of these. -/
def compiledRows (candidates : List Candidate) (context : RequestContext) (options : PredicateOptions) :
    List Candidate :=
  limited options.limit (candidates.filter (sqlSelects context options))

/-! ### The guard -/

/-- The candidate goes through the loop's body to the end. -/
def guardKeeps (context : RequestContext) (options : PredicateOptions) (c : Candidate) : Bool :=
  if c.organizationId ≠ context.principal.organizationId then false
  else if context.principal.projectId.isSome && c.projectId ≠ context.principal.projectId then false
  else if bandIndex (clearanceOf context.principal) < bandIndex c.sensitivity then false
  else if c.expiresAt.any (· ≤ options.now) then false
  else if c.legalHold then false
  else true

/-- The loop, which stops once it has the limit. -/
def guardLoop (keeps : Candidate → Bool) (limit : Option ℚ) :
    List Candidate → List Candidate → List Candidate
  | [], visible => visible
  | c :: candidates, visible =>
    if !keeps c then guardLoop keeps limit candidates visible
    else if limit.any fun limit => limitOf limit ≤ (visible ++ [c]).length then visible ++ [c]
    else guardLoop keeps limit candidates (visible ++ [c])

def guardCandidateSet (candidates : List Candidate) (context : RequestContext)
    (options : PredicateOptions) : List Candidate :=
  guardLoop (guardKeeps context options) options.limit candidates []

/-! ### What the two select -/

section Selection
variable {context : RequestContext} {options : PredicateOptions} {c : Candidate}

theorem mem_reachable {clearance band : SensitivityBand} :
    band ∈ reachable clearance ↔ bandIndex band ≤ bandIndex clearance := by
  cases clearance <;> cases band <;> decide

theorem tenantClause_holds : (tenantClause context).holds julianday c.columns = true ↔
    c.organizationId = context.principal.organizationId := by
  simp [tenantClause, Term.value, Candidate.columns]

theorem projectClause_holds : (projectClause context).holds julianday c.columns = true ↔
    c.projectId = context.principal.projectId := by
  unfold projectClause
  cases context.principal.projectId with
  | none => cases h : c.projectId <;> simp [Term.value, Candidate.columns, h]
  | some project => cases h : c.projectId <;> simp [Term.value, Candidate.columns, h]

theorem sensitivityClause_holds : (sensitivityClause context).holds julianday c.columns = true ↔
    bandIndex c.sensitivity ≤ bandIndex (clearanceOf context.principal) := by
  rw [← mem_reachable]
  rw [sensitivityClause, Sql.holds_isIn]
  constructor
  · rintro ⟨-, b, hb, htext⟩
    obtain ⟨band, hband, rfl⟩ := List.mem_map.mp hb
    rw [Vocabulary.text_inj c.sensitivity band (Value.text.inj htext)]
    exact hband
  · exact fun hband => ⟨by simp [Term.value, Candidate.columns], _, List.mem_map_of_mem hband, rfl⟩

/-- SQLite takes both the expiry and its clock for dates, and the expiry is later. -/
def unexpiredInSql (options : PredicateOptions) (t : ℤ) : Bool :=
  sqliteDates t && sqliteDates (options.nowIso.getD options.now) &&
    options.nowIso.getD options.now < t

theorem julianday_instant (t : ℤ) : julianday (.instant t) =
    if sqliteDates t then some ((t : ℚ) / 86400000 + 4881175 / 2) else none := rfl

theorem julianday_lt {s t : ℤ} : (∃ x y, julianday (.instant t) = some x ∧
      julianday (.instant s) = some y ∧ y < x) ↔
    sqliteDates t = true ∧ sqliteDates s = true ∧ s < t := by
  have hmono : ((s : ℚ) / 86400000 + 4881175 / 2 < t / 86400000 + 4881175 / 2) ↔ s < t := by
    rw [add_lt_add_iff_right, div_lt_div_iff_of_pos_right (by norm_num), Int.cast_lt]
  rw [julianday_instant, julianday_instant]
  by_cases ht : sqliteDates t = true
  · by_cases hs : sqliteDates s = true
    · rw [if_pos ht, if_pos hs, ← hmono]
      constructor
      · rintro ⟨x, y, ⟨rfl⟩, ⟨rfl⟩, hlt⟩
        exact ⟨ht, hs, hlt⟩
      · exact fun h => ⟨_, _, rfl, rfl, h.2.2⟩
    · simp [hs]
  · simp [ht]

theorem expiryClause_holds : (expiryClause options).holds julianday c.columns = true ↔
    ∀ t ∈ c.expiresAt, unexpiredInSql options t = true := by
  cases h : c.expiresAt with
  | none => simp [expiryClause, Term.value, Candidate.columns, h]
  | some t =>
    have hdate : (julianday (.instant t)).isSome = sqliteDates t := by
      rw [julianday_instant]
      split <;> simp [*]
    simp only [expiryClause, Sql.holds_or, Sql.holds_isNull, Sql.holds_and, Sql.holds_isDate,
      Sql.holds_after, Term.value, Candidate.columns, h, Option.map_some, Option.getD_some,
      reduceCtorEq, false_or, hdate, julianday_lt, Option.mem_def, Option.some.injEq,
      forall_eq', unexpiredInSql, Bool.and_eq_true, decide_eq_true_eq]
    tauto

theorem holdClause_holds :
    holdClause.holds julianday c.columns = true ↔ c.legalHold = false := by
  cases h : c.legalHold <;> simp [holdClause, Term.value, Candidate.columns, h]

theorem sqlSelects_iff : sqlSelects context options c = true ↔
    c.organizationId = context.principal.organizationId ∧
      c.projectId = context.principal.projectId ∧
      bandIndex c.sensitivity ≤ bandIndex (clearanceOf context.principal) ∧
      (∀ t ∈ c.expiresAt, unexpiredInSql options t = true) ∧
      (excludesHeld options = true → c.legalHold = false) := by
  unfold sqlSelects buildV6Predicate
  dsimp only
  split
  · rename_i hexcludes
    simp only [Sql.holds_and, tenantClause_holds, projectClause_holds, sensitivityClause_holds,
      expiryClause_holds, holdClause_holds, hexcludes, and_assoc, forall_const]
  · rename_i hexcludes
    simp only [Sql.holds_and, tenantClause_holds, projectClause_holds, sensitivityClause_holds,
      expiryClause_holds, hexcludes, and_assoc, Bool.false_eq_true, false_implies, and_true]

theorem guardKeeps_iff : guardKeeps context options c = true ↔
    c.organizationId = context.principal.organizationId ∧
      (context.principal.projectId = none ∨ c.projectId = context.principal.projectId) ∧
      bandIndex c.sensitivity ≤ bandIndex (clearanceOf context.principal) ∧
      (∀ t ∈ c.expiresAt, options.now < t) ∧ c.legalHold = false := by
  unfold guardKeeps
  split_ifs with horganization hproject hband hexpiry hheld
  · simp [horganization]
  · rw [Bool.and_eq_true, decide_eq_true_eq, Option.isSome_iff_ne_none] at hproject
    simp [hproject.1, hproject.2]
  · simp [hband]
  · obtain ⟨t, ht, hle⟩ := (Option.any_eq_true _ _).mp hexpiry
    rw [decide_eq_true_eq] at hle
    exact iff_of_false id fun h => absurd (h.2.2.2.1 t ht) (by omega)
  · simp [hheld]
  · rw [Bool.and_eq_true, decide_eq_true_eq, Option.isSome_iff_ne_none] at hproject
    have hexpiry' : ∀ t ∈ c.expiresAt, options.now < t := by
      intro t ht
      by_contra hnot
      exact hexpiry ((Option.any_eq_true _ _).mpr ⟨t, ht, decide_eq_true (by omega)⟩)
    have hproject' : context.principal.projectId = none ∨
        c.projectId = context.principal.projectId := by tauto
    exact iff_of_true rfl ⟨not_not.mp horganization, hproject', not_lt.mp hband, hexpiry',
      eq_false_of_ne_true hheld⟩

end Selection

/-! ### Where the two differ -/

/-- A row of the organization and within the clearance that one of the two selects and the other does
    not. -/
structure Differs (context : RequestContext) (options : PredicateOptions) (c : Candidate) : Prop where
  organization : c.organizationId = context.principal.organizationId
  sensitivity : bandIndex c.sensitivity ≤ bandIndex (clearanceOf context.principal)
  rules :
    -- The guard keeps it: an unheld, unexpired row of a project for a principal without one, or one
    -- whose expiry SQLite does not see in the future.
    (c.legalHold = false ∧ (∀ t ∈ c.expiresAt, options.now < t) ∧
      (context.principal.projectId = none ∧ c.projectId ≠ none ∨
        c.projectId = context.principal.projectId ∧
          ∃ t ∈ c.expiresAt, unexpiredInSql options t = false)) ∨
    -- SQLite selects it: a row on hold for an operation that is no candidate operation, or one that
    -- has expired by the guard's clock alone.
    (c.projectId = context.principal.projectId ∧ (∀ t ∈ c.expiresAt, unexpiredInSql options t = true) ∧
      (excludesHeld options = true → c.legalHold = false) ∧
      (c.legalHold = true ∨ ∃ t ∈ c.expiresAt, t ≤ options.now))

theorem rules_iff {organization band project projectless unassigned inSql inGuard excluded free : Prop}
    (hproject : projectless → (project ↔ unassigned)) (hfree : free → excluded) :
    (organization ∧ band ∧ (free ∧ inGuard ∧ (projectless ∧ ¬unassigned ∨ project ∧ ¬inSql) ∨
        project ∧ inSql ∧ excluded ∧ (¬free ∨ ¬inGuard))) ↔
      ¬(organization ∧ project ∧ band ∧ inSql ∧ excluded ↔
        organization ∧ (projectless ∨ project) ∧ band ∧ inGuard ∧ free) := by
  by_cases horganization : organization
  · by_cases hband : band
    · by_cases hp : project <;> by_cases hs : inSql <;> by_cases hg : inGuard <;>
        by_cases hf : free <;> simp_all
    · simp [hband]
  · simp [horganization]

theorem differs_iff {context : RequestContext} {options : PredicateOptions} {c : Candidate} :
    Differs context options c ↔ sqlSelects context options c ≠ guardKeeps context options c := by
  have hexpired : (∃ t ∈ c.expiresAt, t ≤ options.now) ↔ ¬∀ t ∈ c.expiresAt, options.now < t := by
    push Not
    rfl
  have hunread : (∃ t ∈ c.expiresAt, unexpiredInSql options t = false) ↔
      ¬∀ t ∈ c.expiresAt, unexpiredInSql options t = true := by
    push Not
    simp
  have hparts : Differs context options c ↔ _ ∧ _ ∧ _ :=
    ⟨fun h => ⟨h.organization, h.sensitivity, h.rules⟩, fun h => ⟨h.1, h.2.1, h.2.2⟩⟩
  have hproject : context.principal.projectId = none →
      (c.projectId = context.principal.projectId ↔ c.projectId = none) := by
    intro h
    rw [h]
  have hheld : c.legalHold = true ↔ ¬c.legalHold = false := by simp
  have hboth : sqlSelects context options c = guardKeeps context options c ↔
      (sqlSelects context options c = true ↔ guardKeeps context options c = true) :=
    Bool.eq_iff_iff
  rw [hparts, hexpired, hunread, hheld, Ne, Ne, hboth, sqlSelects_iff, guardKeeps_iff]
  exact rules_iff hproject fun h _ => h

/-! ### Up to a limit -/

section Limits
variable {α : Type} {p q : α → Bool}

/-- Every item meets `good` until `n` of them have been kept. -/
def UpTo (keeps : α → Bool) (good : α → Prop) : ℕ → List α → Prop
  | 0, _ => True
  | _ + 1, [] => True
  | n + 1, a :: l => good a ∧ UpTo keeps good (if keeps a then n else n + 1) l

theorem upTo_congr {keeps : α → Bool} {good good' : α → Prop} (h : ∀ a, good a ↔ good' a) :
    ∀ (n : ℕ) (l : List α), UpTo keeps good n l ↔ UpTo keeps good' n l
  | 0, _ => by simp [UpTo]
  | _ + 1, [] => by simp [UpTo]
  | n + 1, a :: l => and_congr (h a) (upTo_congr h _ l)

theorem filter_eq_filter_iff (l : List α) :
    l.filter p = l.filter q ↔ ∀ a ∈ l, p a = q a := by
  refine ⟨fun h a ha => Bool.eq_iff_iff.mpr ?_, List.filter_congr⟩
  have hmem : a ∈ l.filter p ↔ a ∈ l.filter q := by rw [h]
  simpa only [List.mem_filter, ha, true_and] using hmem

/-- Two selections agree on their first `n` exactly where they agree until they have that many. -/
theorem take_filter_eq_iff (l : List α) : ∀ n : ℕ, (l.filter p).take n = (l.filter q).take n ↔
    UpTo q (fun a => p a = q a) n l := by
  induction l with
  | nil =>
    intro n
    cases n <;> simp [UpTo]
  | cons a l ih =>
    rintro (_ | n)
    · simp [UpTo]
    by_cases ha : p a = q a
    · cases hq : q a with
      | true => simp [UpTo, ha, hq, ih n]
      | false => simp [UpTo, ha, hq, ih (n + 1)]
    · refine iff_of_false (fun h => ha ?_) fun h => ha h.1
      -- The one that selects the item has it in its first place, the other nowhere.
      cases hp : p a with
      | true =>
        rw [List.filter_cons_of_pos hp, List.take_succ_cons] at h
        have hmem : a ∈ (List.filter q (a :: l)).take (n + 1) := h ▸ List.mem_cons_self ..
        exact (List.mem_filter.mp (List.mem_of_mem_take hmem)).2.symm
      | false =>
        cases hq : q a with
        | false => rfl
        | true =>
          rw [List.filter_cons_of_pos hq, List.take_succ_cons] at h
          have hmem : a ∈ (List.filter p (a :: l)).take (n + 1) := h ▸ List.mem_cons_self ..
          rw [(List.mem_filter.mp (List.mem_of_mem_take hmem)).2] at hp
          cases hp

end Limits

section Loop
variable {keeps : Candidate → Bool}

theorem guardLoop_none (candidates visible : List Candidate) :
    guardLoop keeps none candidates visible = visible ++ candidates.filter keeps := by
  induction candidates generalizing visible with
  | nil => simp [guardLoop]
  | cons c candidates ih =>
    cases hc : keeps c with
    | true => simp [guardLoop, hc, ih]
    | false => simp [guardLoop, hc, ih]

/-- The loop keeps at least one row, whatever the limit. -/
theorem guardLoop_some {limit : ℚ} (candidates : List Candidate) : ∀ (visible : List Candidate) (n : ℕ),
    max 1 (limitOf limit).toNat = visible.length + (n + 1) →
      guardLoop keeps (some limit) candidates visible =
        visible ++ (candidates.filter keeps).take (n + 1) := by
  induction candidates with
  | nil => simp [guardLoop]
  | cons c candidates ih =>
    intro visible n hn
    have hpos : 0 ≤ limitOf limit := le_max_left ..
    cases hc : keeps c with
    | false =>
      simp only [guardLoop, hc, Bool.not_false, if_true, List.filter_cons, if_false, Bool.false_eq_true]
      exact ih visible n hn
    | true =>
      simp only [guardLoop, hc, Bool.not_true, Bool.false_eq_true, if_false, List.filter_cons, if_true,
        Option.any_some, decide_eq_true_eq, List.length_append, List.length_singleton,
        List.take_succ_cons]
      cases n with
      | zero =>
        rw [if_pos (by omega)]
        simp
      | succ n =>
        rw [if_neg (by omega), ih (visible ++ [c]) n (by simp; omega)]
        simp

end Loop

theorem limitOf_eq_zero {limit : ℚ} : limitOf limit = 0 ↔ limit < 1 := by
  unfold limitOf trunc
  split_ifs with h
  · have hfloor : 0 ≤ ⌊limit⌋ := Int.floor_nonneg.mpr h
    rw [max_eq_right hfloor]
    constructor
    · intro hzero
      have hlt := Int.lt_floor_add_one limit
      rw [hzero] at hlt
      simpa using hlt
    · intro hlt
      exact Int.floor_eq_zero_iff.mpr ⟨h, hlt⟩
  · have hceil : ⌈limit⌉ ≤ 0 := Int.ceil_le.mpr (by push_cast; linarith)
    exact iff_of_true (max_eq_left hceil) (by linarith)

/-- The rows before the limit is filled are none on which the two differ; where the limit is below one,
    the guard, which keeps one row at least, keeps none. -/
def Undecided (candidates : List Candidate) (context : RequestContext) (options : PredicateOptions) :
    Prop :=
  match options.limit with
  | none => ∀ c ∈ candidates, ¬Differs context options c
  | some limit =>
    if limit < 1 then ∀ c ∈ candidates, guardKeeps context options c = false
    else UpTo (guardKeeps context options) (fun c => ¬Differs context options c)
      (limitOf limit).toNat candidates

/-- The compiled query and the guard return the same rows exactly where they do not differ before the
    limit is filled and the limit is no limit below one. -/
theorem boundary_agrees_iff (candidates : List Candidate) (context : RequestContext)
    (options : PredicateOptions) :
    compiledRows candidates context options = guardCandidateSet candidates context options ↔
      Undecided candidates context options := by
  have hsame (c : Candidate) : ¬Differs context options c ↔
      sqlSelects context options c = guardKeeps context options c := by
    rw [differs_iff, not_not]
  unfold compiledRows guardCandidateSet Undecided limited
  cases options.limit with
  | none =>
    dsimp only
    rw [guardLoop_none, List.nil_append, filter_eq_filter_iff]
    exact forall₂_congr fun c _ => (hsame c).symm
  | some limit =>
    dsimp only
    have hpos : 0 ≤ limitOf limit := le_max_left ..
    split_ifs with hlimit
    · have hzero := limitOf_eq_zero.mpr hlimit
      rw [guardLoop_some candidates [] 0 (by simp [hzero]), hzero]
      simp only [Int.toNat_zero, List.take_zero, List.nil_append]
      rw [eq_comm, List.take_eq_nil_iff]
      simp [List.filter_eq_nil_iff]
    · have hone : limitOf limit ≠ 0 := fun h => hlimit (limitOf_eq_zero.mp h)
      obtain ⟨n, hn⟩ : ∃ n, (limitOf limit).toNat = n + 1 :=
        Nat.exists_eq_succ_of_ne_zero (by omega)
      rw [guardLoop_some candidates [] n (by simp [hn]), hn, List.nil_append, take_filter_eq_iff]
      exact (upTo_congr hsame _ _).symm

example : (buildV6Predicate organizationReader { now := 0 }).sql Column.sql =
    "m.tenant_id = ? AND m.project_id IS NULL AND m.sensitivity IN (?) AND (m.valid_until IS NULL OR (julianday(m.valid_until) IS NOT NULL AND julianday(m.valid_until) > julianday(?))) AND m.legal_hold = 0" := by
  decide +kernel

/-- The guard lets a reader without a project see a row of a project, which SQLite leaves out. -/
theorem project_row_is_kept : compiledRows
      [{ id := "m-1", organizationId := "org-a", projectId := some "p-1", sensitivity := .isPublic,
         trust := .trusted, retention := .decaying, legalHold := false }]
      organizationReader { now := 0 } ≠
    guardCandidateSet
      [{ id := "m-1", organizationId := "org-a", projectId := some "p-1", sensitivity := .isPublic,
         trust := .trusted, retention := .decaying, legalHold := false }]
      organizationReader { now := 0 } := by
  intro h
  exact absurd (congrArg List.length h) (by decide +kernel)

end Remembra.V6
