import Remembra.V6.Context

/-! The lifecycle of a record: expiry against a clock that is given, and the five actions. What is deleted
    stays as it is, a hold lets only supersession through, and each action that is applied counts the
    version up by one (`next_cases`). A renewal counts from the clock and not from the old expiry, so it
    brings an expiry forward that was later, and gives one to a record that had none. Over any run the
    laws hold exactly where no renewal does that (`lifecycle_laws_iff`). -/

namespace Remembra.V6.Lifecycle
open Store (RetentionMode JsNum)

/-! ### Numbers -/

/-- `a - b` for a finite `b`. -/
def numMinus (a : JsNum) (b : ℚ) : JsNum :=
  match a with
  | .finite q => .finite (q - b)
  | a => a

/-- `b + a` for a finite `b`. -/
def numPlus (b : ℚ) (a : JsNum) : JsNum :=
  match a with
  | .finite q => .finite (b + q)
  | a => a

/-! ### Records -/

/-- `ExpirationState` -/
inductive ExpirationState where
  | active | expiring | expired | neverExpires
  deriving DecidableEq

/-- `LIFECYCLE_ACTIONS` -/
inductive LifecycleAction where
  | expire | archive | delete | supersede | renew
  deriving DecidableEq

structure LifecycleRecord where
  id : String
  organizationId : String
  projectId : Option String := none
  content : String
  expiresAt : Option JsNum := none
  retention : RetentionMode
  legalHold : Bool
  archived : Bool
  deleted : Bool
  supersededBy : Option String := none
  renewals : ℤ
  version : ℤ
  deriving DecidableEq

/-- What may be done to a record now. -/
inductive Disposition where
  | retrievable | expirable | blockedByHold | archived | superseded | deleted
  deriving DecidableEq

structure ExpirationEvaluation where
  state : ExpirationState
  includeInRetrieval : Bool
  disposition : Disposition
  expiresInMs : Option JsNum := none
  deriving DecidableEq

/-- The options of `evaluateExpiration`. -/
structure EvaluationOptions where
  now : ℚ
  skewToleranceMs : Option JsNum := none
  includeExpired : Bool := false

def evaluateExpiration (record : LifecycleRecord) (options : EvaluationOptions) :
    ExpirationEvaluation :=
  let skew := options.skewToleranceMs.getD (.finite 0)
  if record.deleted then ⟨.neverExpires, false, .deleted, none⟩
  else if record.supersededBy.isSome then ⟨.neverExpires, false, .superseded, none⟩
  else if record.archived then ⟨.neverExpires, false, .archived, none⟩
  else match record.expiresAt with
    | none =>
      ⟨.neverExpires, true, if record.legalHold then .blockedByHold else .retrievable, none⟩
    | some expiresAt =>
      let expiresInMs := numMinus expiresAt options.now
      if numLe expiresInMs (.finite 0) then
        ⟨.expired, options.includeExpired,
          if record.legalHold then .blockedByHold else .expirable, some expiresInMs⟩
      else if numLe expiresInMs skew then ⟨.expiring, true, .retrievable, some expiresInMs⟩
      else ⟨.active, true, .retrievable, some expiresInMs⟩

/-! ### Actions -/

/-- Why an action did not apply. -/
inductive BlockedBy where
  | legalHold | alreadyDeleted | alreadyApplied | notExpired | renewalLimit
  deriving DecidableEq

/-- What an action that applied has done. -/
inductive Done where
  | expired | archived | deleted | superseded | renewed
  deriving DecidableEq

structure LifecycleActionResult where
  applied : Bool
  record : LifecycleRecord
  blockedBy : Option BlockedBy := none
  disposition : Option Done := none
  deriving DecidableEq

structure ActionOptions where
  now : ℚ
  supersededBy : Option String := none
  renewForMs : Option JsNum := none
  maxRenewals : Option JsNum := none

def blocked (record : LifecycleRecord) (reason : BlockedBy) : LifecycleActionResult :=
  { applied := false, record, blockedBy := some reason }

def applied (record : LifecycleRecord) (done : Done) : LifecycleActionResult :=
  { applied := true, record, disposition := some done }

/-- The renewals that a record may have had before another one. -/
def renewalLimit (options : ActionOptions) : JsNum := options.maxRenewals.getD (.finite 3)

def renewalDuration (options : ActionOptions) : JsNum := options.renewForMs.getD (.finite 0)

def applyLifecycleAction (record : Option LifecycleRecord) (action : LifecycleAction)
    (options : ActionOptions) : Except RemembraError LifecycleActionResult :=
  match record with
  | none => .error ⟨.notFound, "no record to act on"⟩
  | some record =>
    if record.deleted then .ok (blocked record .alreadyDeleted)
    else if record.legalHold && action ≠ .supersede then .ok (blocked record .legalHold)
    else match action with
      | .delete =>
        if (evaluateExpiration record { now := options.now }).state ≠ .expired then
          .ok (blocked record .notExpired)
        else .ok (applied { record with deleted := true, version := record.version + 1 } .deleted)
      | .archive =>
        if record.archived then .ok (blocked record .alreadyApplied)
        else .ok (applied { record with archived := true, version := record.version + 1 } .archived)
      | .supersede =>
        if options.supersededBy.all (· = record.id) then
          .error ⟨.invalidInput, "supersession requires the id of the superseding record"⟩
        else .ok (applied { record with
          supersededBy := options.supersededBy, version := record.version + 1 } .superseded)
      | .renew =>
        if numLe (renewalLimit options) (.finite record.renewals) then
          .ok (blocked record .renewalLimit)
        else if !isFinite (renewalDuration options) || numLe (renewalDuration options) (.finite 0) then
          .error ⟨.invalidInput, "renewal requires a positive duration"⟩
        else .ok (applied { record with
          expiresAt := some (numPlus options.now (renewalDuration options))
          renewals := record.renewals + 1, version := record.version + 1 } .renewed)
      | .expire =>
        if (evaluateExpiration record { now := options.now }).state ≠ .expired then
          .ok (blocked record .notExpired)
        else .ok (applied { record with archived := false, version := record.version + 1 } .expired)

/-! ### Expiry -/

/-- The clock is at or after the expiry; without one it never is. -/
def hasPassed (expiresAt : Option JsNum) (now : ℚ) : Bool :=
  expiresAt.any fun e => numLe (numMinus e now) (.finite 0)

/-- Deleted, superseded and archived hide an expiry that has passed. -/
theorem state_eq_expired {r : LifecycleRecord} {o : EvaluationOptions} :
    (evaluateExpiration r o).state = .expired ↔ r.deleted = false ∧ r.supersededBy = none ∧
      r.archived = false ∧ hasPassed r.expiresAt o.now = true := by
  unfold evaluateExpiration hasPassed
  cases r.deleted <;> cases r.supersededBy <;> cases r.archived <;> cases r.expiresAt <;> simp
  split_ifs with h h' <;> simp [h]

theorem hasPassed_finite {q now : ℚ} : hasPassed (some (.finite q)) now = true ↔ q ≤ now := by
  simp [hasPassed, numMinus, numLe]

/-- From the moment `t` on an expiry has passed exactly where it has at `t`. -/
theorem hasPassed_from {e : Option JsNum} {t : ℚ} :
    (∀ now, t ≤ now → hasPassed e now = true) ↔ ∃ a ∈ e, numLe a (.finite t) = true := by
  cases e with
  | none => simpa [hasPassed] using ⟨t, le_rfl⟩
  | some a =>
    cases a with
    | finite q =>
      simp only [hasPassed_finite, Option.mem_some_iff, exists_eq_left', numLe, decide_eq_true_eq]
      exact ⟨fun h => h t le_rfl, fun h now hle => h.trans hle⟩
    | nan => simpa [hasPassed, numMinus, numLe] using ⟨t, le_rfl⟩
    | infinity => simpa [hasPassed, numMinus, numLe] using ⟨t, le_rfl⟩
    | negInfinity => simp [hasPassed, numMinus, numLe]

/-! ### What an action does -/

/-- An action with its options. -/
structure Step where
  action : LifecycleAction
  options : ActionOptions

def outcome (r : LifecycleRecord) (s : Step) : Except RemembraError LifecycleActionResult :=
  applyLifecycleAction (some r) s.action s.options

/-- The record that the next action is given; one that throws gives none. -/
def next (r : LifecycleRecord) (s : Step) : LifecycleRecord :=
  match outcome r s with
  | .ok result => result.record
  | .error _ => r

/-- A renewal that is applied: there is nothing in its way. -/
structure Renewable (r : LifecycleRecord) (s : Step) : Prop where
  action : s.action = .renew
  deleted : r.deleted = false
  legalHold : r.legalHold = false
  renewals : numLe (renewalLimit s.options) (.finite r.renewals) = false
  finite : isFinite (renewalDuration s.options) = true
  positive : numLe (renewalDuration s.options) (.finite 0) = false

/-- The record after a renewal. -/
def renewed (r : LifecycleRecord) (s : Step) : LifecycleRecord :=
  { r with
    expiresAt := some (numPlus s.options.now (renewalDuration s.options))
    renewals := r.renewals + 1
    version := r.version + 1 }

/-- What each action makes of a record that it applies to. -/
inductive Applied (r : LifecycleRecord) (s : Step) : LifecycleRecord → Prop where
  | delete (action : s.action = .delete) (passed : hasPassed r.expiresAt s.options.now = true) :
    Applied r s { r with deleted := true, version := r.version + 1 }
  | archive (action : s.action = .archive) :
    Applied r s { r with archived := true, version := r.version + 1 }
  | supersede (action : s.action = .supersede) :
    Applied r s { r with supersededBy := s.options.supersededBy, version := r.version + 1 }
  | renew (renewable : Renewable r s) : Applied r s (renewed r s)
  | expire (action : s.action = .expire) :
    Applied r s { r with archived := false, version := r.version + 1 }

section Laws
variable {r : LifecycleRecord} {s : Step}

theorem outcome_deleted (h : r.deleted = true) : outcome r s = .ok (blocked r .alreadyDeleted) := by
  simp [outcome, applyLifecycleAction, h]

theorem outcome_held (hd : r.deleted = false) (h : r.legalHold = true) (ha : s.action ≠ .supersede) :
    outcome r s = .ok (blocked r .legalHold) := by
  simp [outcome, applyLifecycleAction, hd, h, ha]

theorem outcome_renew (h : Renewable r s) : outcome r s = .ok (applied (renewed r s) .renewed) := by
  obtain ⟨ha, hd, hl, hr, hf, hp⟩ := h
  simp [outcome, applyLifecycleAction, ha, hd, hl, hr, hf, hp, renewed]

/-- An action is blocked, or it throws, or it applies to a record that is neither deleted nor, unless it
    supersedes, on hold. -/
theorem next_cases (r : LifecycleRecord) (s : Step) :
    (∃ why, outcome r s = .ok (blocked r why)) ∨ (∃ e, outcome r s = .error e) ∨
      ∃ r' done, outcome r s = .ok (applied r' done) ∧ Applied r s r' ∧ r.deleted = false ∧
        (r.legalHold = true → s.action = .supersede) := by
  by_cases hdeleted : r.deleted = true
  · exact .inl ⟨_, outcome_deleted hdeleted⟩
  · have hd : r.deleted = false := eq_false_of_ne_true hdeleted
    by_cases hheld : r.legalHold = true ∧ s.action ≠ .supersede
    · exact .inl ⟨_, outcome_held hd hheld.1 hheld.2⟩
    have hhold : r.legalHold = true → s.action = .supersede := fun h => by
      by_contra ha
      exact hheld ⟨h, ha⟩
    suffices hmain : (∃ why, outcome r s = .ok (blocked r why)) ∨ (∃ e, outcome r s = .error e) ∨
        ∃ r' done, outcome r s = .ok (applied r' done) ∧ Applied r s r' by
      obtain hblocked | hthrown | ⟨r', done, hok, happlied⟩ := hmain
      · exact .inl hblocked
      · exact .inr (.inl hthrown)
      · exact .inr (.inr ⟨r', done, hok, happlied, hd, hhold⟩)
    obtain ⟨action, options⟩ := s
    have hout : ¬ (r.legalHold && decide (action ≠ .supersede)) = true := by
      rw [Bool.and_eq_true, decide_eq_true_eq]
      exact hheld
    unfold outcome applyLifecycleAction
    dsimp only
    rw [if_neg hdeleted, if_neg hout]
    cases action with
    | delete =>
      dsimp only
      split_ifs with hstate
      · exact .inl ⟨_, rfl⟩
      · have hpassed := (state_eq_expired.mp (not_not.mp hstate)).2.2.2
        exact .inr (.inr ⟨_, _, rfl, .delete rfl hpassed⟩)
    | archive =>
      dsimp only
      split_ifs
      · exact .inl ⟨_, rfl⟩
      · exact .inr (.inr ⟨_, _, rfl, .archive rfl⟩)
    | supersede =>
      dsimp only
      split_ifs
      · exact .inr (.inl ⟨_, rfl⟩)
      · exact .inr (.inr ⟨_, _, rfl, .supersede rfl⟩)
    | renew =>
      dsimp only
      split_ifs with hlimit hduration
      · exact .inl ⟨_, rfl⟩
      · exact .inr (.inl ⟨_, rfl⟩)
      · simp only [Bool.or_eq_true, Bool.not_eq_true', not_or, Bool.not_eq_true,
          Bool.not_eq_false] at hduration
        have hfree : r.legalHold = false := by
          rw [← Bool.not_eq_true]
          exact fun h => LifecycleAction.noConfusion (hhold h)
        exact .inr (.inr ⟨_, _, rfl, .renew ⟨rfl, hd, hfree, eq_false_of_ne_true hlimit, hduration.1,
          hduration.2⟩⟩)
    | expire =>
      dsimp only
      split_ifs
      · exact .inl ⟨_, rfl⟩
      · exact .inr (.inr ⟨_, _, rfl, .expire rfl⟩)

/-- Without a change, or as one of the actions that apply. -/
theorem next_eq (r : LifecycleRecord) (s : Step) :
    next r s = r ∨ Applied r s (next r s) ∧ r.deleted = false ∧
      (r.legalHold = true → s.action = .supersede) := by
  unfold next
  rcases next_cases r s with ⟨why, h⟩ | ⟨e, h⟩ | ⟨r', done, h, happlied⟩
  · exact .inl (by rw [h]; rfl)
  · exact .inl (by rw [h])
  · exact .inr (by rw [h]; exact happlied)

/-! ### The laws of one action -/

/-- Only what supersession writes may differ. -/
def SameButSuperseded (r r' : LifecycleRecord) : Prop :=
  r' = { r with supersededBy := r'.supersededBy, version := r'.version }

def isApplied (r : LifecycleRecord) (s : Step) : Bool :=
  match outcome r s with
  | .ok result => result.applied
  | .error _ => false

theorem next_deleted (h : r.deleted = true) : next r s = r := by
  unfold next
  rw [outcome_deleted h]
  rfl

theorem next_held (h : r.legalHold = true) : SameButSuperseded r (next r s) := by
  rcases next_eq r s with hsame | ⟨happlied, -, hheld⟩
  · rw [hsame]
    rfl
  · have ha := hheld h
    generalize next r s = r' at happlied
    cases happlied with
    | supersede => rfl
    | delete h | archive h | expire h => rw [ha] at h; cases h
    | renew h => cases ha.symm.trans h.action

theorem next_version (r : LifecycleRecord) (s : Step) :
    (next r s).version = r.version + if isApplied r s then 1 else 0 := by
  unfold next isApplied
  rcases next_cases r s with ⟨why, h⟩ | ⟨e, h⟩ | ⟨r', done, h, hcase, -⟩
  · simp [h, blocked]
  · simp [h]
  · have hversion : r'.version = r.version + 1 := by cases hcase <;> rfl
    simp [h, applied, hversion]

theorem next_unapplied (h : isApplied r s = false) : next r s = r := by
  unfold isApplied at h
  unfold next
  rcases next_cases r s with ⟨why, hok⟩ | ⟨e, hok⟩ | ⟨r', done, hok, -⟩
  · rw [hok]
    rfl
  · rw [hok]
  · rw [hok] at h
    cases h

/-- What is to hold of an action on a record. -/
structure Lawful (r : LifecycleRecord) (s : Step) : Prop where
  deleted : r.deleted = true → next r s = r
  held : r.legalHold = true → SameButSuperseded r (next r s)
  version : isApplied r s = true → (next r s).version = r.version + 1
  /-- What is not applied, or throws, changes nothing. -/
  unapplied : isApplied r s = false → next r s = r
  expired : r.deleted = false → (next r s).deleted = true →
    hasPassed r.expiresAt s.options.now = true
  /-- A renewal of what has not expired lets no moment pass its expiry that would not have. -/
  renews : s.action = .renew → hasPassed r.expiresAt s.options.now = false →
    ∀ t, hasPassed (next r s).expiresAt t = true → hasPassed r.expiresAt t = true

/-- A renewal that is applied to what has not expired leads past the old expiry, which is there. -/
def Extends (r : LifecycleRecord) (s : Step) : Prop :=
  Renewable r s → hasPassed r.expiresAt s.options.now = false →
    ∃ e ∈ r.expiresAt, numLe e (numPlus s.options.now (renewalDuration s.options)) = true

theorem renews_iff (h : Renewable r s) :
    (∀ t, hasPassed (next r s).expiresAt t = true → hasPassed r.expiresAt t = true) ↔
      ∃ e ∈ r.expiresAt, numLe e (numPlus s.options.now (renewalDuration s.options)) = true := by
  have hnext : next r s = renewed r s := by
    unfold next
    rw [outcome_renew h]
    rfl
  rw [hnext]
  obtain ⟨q, hq⟩ : ∃ q, renewalDuration s.options = .finite q := by
    have hf := h.finite
    cases hd : renewalDuration s.options <;> rw [hd] at hf <;> first | exact ⟨_, rfl⟩ | cases hf
  simp only [renewed, hq, numPlus, hasPassed_finite]
  exact hasPassed_from

/-- One action is lawful exactly where it is no renewal that brings the expiry forward. -/
theorem lawful_iff (r : LifecycleRecord) (s : Step) : Lawful r s ↔ Extends r s := by
  refine ⟨fun h hr hnot => (renews_iff hr).mp (h.renews hr.action hnot), fun hextends => ?_⟩
  refine ⟨next_deleted, next_held, fun h => ?_, next_unapplied, fun hd hd' => ?_, fun ha hnot => ?_⟩
  · rw [next_version, h, if_pos rfl]
  · rcases next_eq r s with h | ⟨happlied, -⟩
    · rw [h, hd] at hd'
      cases hd'
    · generalize next r s = r' at happlied hd'
      cases happlied with
      | delete _ hpassed => exact hpassed
      | archive _ | supersede _ | expire _ | renew _ => exact absurd (hd.symm.trans hd') (by decide)
  · rcases next_eq r s with h | ⟨happlied, -⟩
    · rw [h]
      exact fun _ => id
    · have hrenewable : Renewable r s := by
        generalize next r s = r' at happlied
        cases happlied with
        | renew h => exact h
        | delete h | archive h | supersede h | expire h => rw [ha] at h; cases h
      exact (renews_iff hrenewable).mpr (hextends hrenewable hnot)

end Laws

/-! ### Runs -/

/-- The record after a run of actions, each on the record that the one before it has left. -/
def after (r : LifecycleRecord) (steps : List Step) : LifecycleRecord := steps.foldl next r

/-- How many actions of a run are applied. -/
def applications : LifecycleRecord → List Step → ℕ
  | _, [] => 0
  | r, s :: steps => (if isApplied r s then 1 else 0) + applications (next r s) steps

theorem after_append (r : LifecycleRecord) (before rest : List Step) :
    after r (before ++ rest) = after (after r before) rest := List.foldl_append ..

theorem after_deleted {r : LifecycleRecord} (steps : List Step) (h : r.deleted = true) :
    after r steps = r := by
  induction steps with
  | nil => rfl
  | cons s steps ih =>
    rw [after, List.foldl_cons, next_deleted h]
    exact ih

theorem after_held {r : LifecycleRecord} (steps : List Step) (h : r.legalHold = true) :
    SameButSuperseded r (after r steps) := by
  induction steps generalizing r with
  | nil => rfl
  | cons s steps ih =>
    have hnext : SameButSuperseded r (next r s) := next_held h
    have hheld : (next r s).legalHold = true := by
      rw [hnext]
      exact h
    have hrest := ih hheld
    rw [SameButSuperseded] at hrest hnext ⊢
    rw [after, List.foldl_cons]
    refine hrest.trans ?_
    rw [hnext]
    rfl

theorem after_version (r : LifecycleRecord) (steps : List Step) :
    (after r steps).version = r.version + applications r steps := by
  induction steps generalizing r with
  | nil => simp [after, applications]
  | cons s steps ih =>
    rw [after, List.foldl_cons]
    have hrest := ih (next r s)
    rw [after, next_version] at hrest
    rw [hrest, applications]
    split_ifs <;> push_cast <;> omega

/-- What is to hold of a run of actions. -/
structure LawfulRun (r : LifecycleRecord) (steps : List Step) : Prop where
  actions : ∀ before s rest, steps = before ++ s :: rest → Lawful (after r before) s
  /-- Once deleted, the record never changes again. -/
  deleted : ∀ before rest, steps = before ++ rest → (after r before).deleted = true →
    after r steps = after r before
  /-- From a hold on, only what supersession writes changes. -/
  held : ∀ before rest, steps = before ++ rest → (after r before).legalHold = true →
    SameButSuperseded (after r before) (after r steps)
  version : (after r steps).version = r.version + applications r steps

/-- Over every run, with any actions, options and clocks, the laws hold exactly where each renewal that
    is applied to what has not expired leads past the old expiry. -/
theorem lifecycle_laws_iff (r : LifecycleRecord) (steps : List Step) :
    LawfulRun r steps ↔
      ∀ before s rest, steps = before ++ s :: rest → Extends (after r before) s := by
  refine ⟨fun h before s rest hsplit => (lawful_iff _ s).mp (h.actions before s rest hsplit),
    fun h => ⟨fun before s rest hsplit => (lawful_iff _ s).mpr (h before s rest hsplit),
      fun before rest hsplit hd => ?_, fun before rest hsplit hl => ?_, after_version r steps⟩⟩
  · rw [hsplit, after_append]
    exact after_deleted rest hd
  · rw [hsplit, after_append]
    exact after_held rest hl

/-- A record that is kept for good. -/
def lasting : LifecycleRecord where
  id := "m1"
  organizationId := "org-a"
  content := "a fact"
  retention := .neverExpire
  legalHold := false
  archived := false
  deleted := false
  renewals := 0
  version := 1

/-- Its renewal for ten milliseconds at 500. -/
def shortRenewal : Step := ⟨.renew, { now := 500, renewForMs := some (.finite 10) }⟩

/-- The renewal gives it an expiry. -/
theorem renewal_gives_expiry : ¬ LawfulRun lasting [shortRenewal] := by
  intro h
  have hlaw := (h.actions [] shortRenewal [] rfl).renews rfl rfl 510 (by decide +kernel)
  exact absurd hlaw (by decide)

end Remembra.V6.Lifecycle
