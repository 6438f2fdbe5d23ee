import Remembra.Service.Listing
import Remembra.V6.Retrieval

/-! The times of a memory on the four paths that read it: the search over all memories, the search over
    the candidates that SQLite selects, the list, and the predicate of V6. `Date.parse` and `julianday`
    read the same texts, and what cannot be read counts as unlimited for the one and as expired for the
    other (`expiry_agrees_iff`). -/

namespace Remembra.Service
open Store (Memory)
open Sqlite (Row rowToMemory memoryOf tenantWhere)
open Sqlite.Serial (candidateTenantWhere)
open Sql (Value)

/-! ### The four paths -/

/-- What a search includes beyond the default. -/
structure SearchFlags where
  includeArchived : Bool := false
  includeExpired : Bool := false
  includeFuture : Bool := false
  includeQuarantined : Bool := false

/-- `COALESCE(CASE WHEN json_valid(meta) THEN json_extract(meta, '$.quarantined') ELSE 0 END, 0) <> 0` -/
def quarantinedInSql (row : Row) : Bool :=
  match (row.metaFields.getD []).lookup "quarantined" with
  | none | some .null => false
  | some (.bool b) => b
  | some (.num n) => n ≠ .finite 0
  | some _ => true

section Paths
variable (C : Config) (julianday : String → Option ℚ)

/-- `eligible`: the same conditions as for the list. -/
def eligible (f : SearchFlags) (options : Options) (now : ℤ) (m : Memory) :
    Except RemembraError Bool :=
  listShows C { includeExpired := f.includeExpired, includeFuture := f.includeFuture
                includeQuarantined := f.includeQuarantined } options now m

/-- `julianday(a) >= julianday(b)`; false where one of them is `NULL`. -/
def notBefore (a b : String) : Bool :=
  (julianday a).any fun x => (julianday b).any fun y => y ≤ x

/-- `eligibleFilter` -/
def eligibleFilter (f : SearchFlags) (nowIso : String) (row : Row) : Bool :=
  (f.includeArchived || row.archivedAt = none) &&
    (f.includeExpired || row.validUntil.all fun t => notBefore julianday t nowIso) &&
    (f.includeFuture || row.validFrom.all fun t => notBefore julianday nowIso t) &&
    (f.includeQuarantined || !quarantinedInSql row)

variable (options : Options) (context : V6.RequestContext) (now : ℤ) (row : Row)

/-- The row's record is one that the caller's search may answer with. -/
def isEligible : Bool :=
  (rowToMemory row).any fun m => (eligible C {} options now m).toOption = some true

/-- A search over all memories has it in its pool. -/
def shownBySearch : Bool :=
  tenantWhere (options.tenant.map tenantFilterFromContext) row && row.archivedAt = none &&
    isEligible C options now row

/-- It is on a page of candidates: `searchCandidates` selects it and does not drop the page for it. -/
def shownOnPage : Bool :=
  candidateTenantWhere (options.tenant.map tenantFilterFromContext) row &&
    eligibleFilter julianday {} (C.host.toISOString now) row && isEligible C options now row

def shownByList : Bool :=
  tenantWhere (options.tenant.map tenantFilterFromContext) row && row.archivedAt = none &&
    (rowToMemory row).any fun m => (listShows C {} options now m).toOption = some true

def textOrNull (value : Option String) : Value := (value.map Value.text).getD .null

/-- The columns of the row that V6 looks at. -/
def rowColumns : V6.Column → Value
  | .tenantId => textOrNull row.tenantId
  | .projectId => textOrNull row.projectId
  | .sensitivity => .text (Store.Vocabulary.text row.sensitivity)
  | .validUntil => textOrNull row.validUntil
  | .legalHold => .integer (if row.legalHold then 1 else 0)

/-- `julianday` of what is bound or stored. -/
def dateOf : Value → Option ℚ
  | .text s => julianday s
  | .instant t => julianday (C.host.toISOString t)
  | _ => none

def shownByV6 : Bool :=
  (V6.buildV6Predicate context { now := now }).holds (dateOf C julianday) (rowColumns row)

/-! ### One predicate -/

/-- The four paths agree, and a memory whose expiry cannot be read is on none of them. -/
structure OnePredicate : Prop where
  page : shownOnPage C julianday options now row = shownBySearch C options now row
  list : shownByList C options now row = shownBySearch C options now row
  v6 : shownByV6 C julianday context now row = shownBySearch C options now row
  closed : ∀ t ∈ row.validUntil, C.host.dateParse t = none →
    shownBySearch C options now row = false ∧ shownOnPage C julianday options now row = false ∧
      shownByList C options now row = false ∧ shownByV6 C julianday context now row = false

/-- The memory in the row without its times. -/
def timeless : Row := { row with validFrom := none, validUntil := none }

/-- Nothing but its times hides the memory on one of the paths. -/
structure InReach : Prop where
  search : shownBySearch C options now (timeless row) = true
  page : shownOnPage C julianday options now (timeless row) = true
  list : shownByList C options now (timeless row) = true
  v6 : shownByV6 C julianday context now (timeless row) = true

/-- `julianday` reads the expiry and the clock, and the expiry is later. -/
def laterInSql (t : String) : Bool :=
  (julianday t).any fun x => (julianday (C.host.toISOString now)).any fun y => y < x

/-- Both ways of reading say that it has not expired yet, or both that it must not be seen: by its
    expiry, or by a start in the future that an expiry hides from the path that does not look at it. -/
structure ReadAlike : Prop where
  times :
    (hasExpired C now (memoryOf row) = false ∧ isFuture C now (memoryOf row) = false ∧
      (∀ t ∈ row.validUntil, (C.host.dateParse t).isSome = true ∧ laterInSql C julianday now t = true) ∧
      ∀ t ∈ row.validFrom, notBefore julianday (C.host.toISOString now) t = true) ∨
    ((hasExpired C now (memoryOf row) = true ∨ isFuture C now (memoryOf row) = true) ∧
      ∃ t ∈ row.validUntil, laterInSql C julianday now t = false)

end Paths

/-! ### What is left of the paths in reach -/

section Times
variable {C : Config} {julianday : String → Option ℚ} {options : Options}
  {context : V6.RequestContext} {now : ℤ} {row : Row}

theorem listShows_timeless {m : Memory} :
    (listShows C {} options now m).toOption = some true ↔
      (listShows C {} options now { m with validFrom := none, validUntil := none }).toOption = some true ∧
        hasExpired C now m = false ∧ isFuture C now m = false := by
  have hread : canRead C.strict C.agentMode { m with validFrom := none, validUntil := none } options =
      canRead C.strict C.agentMode m options := rfl
  unfold listShows
  rw [hread]
  cases canRead C.strict C.agentMode m options with
  | error e => simp [Except.map, Except.toOption]
  | ok visible =>
    have hexpired : hasExpired C now { m with validFrom := none, validUntil := none } = false := rfl
    have hfuture : isFuture C now { m with validFrom := none, validUntil := none } = false := rfl
    have hflag : metaFlag { m with validFrom := none, validUntil := none } "quarantined" =
        metaFlag m "quarantined" := rfl
    rw [hexpired, hfuture, hflag]
    cases visible <;> cases hasExpired C now m <;> cases isFuture C now m <;>
      cases metaFlag m "quarantined" <;> simp [Except.map, Except.toOption]

theorem rowToMemory_timeless : rowToMemory (timeless row) =
    (rowToMemory row).map fun m => { m with validFrom := none, validUntil := none } := by
  rw [Sqlite.rowToMemory_eq, Sqlite.rowToMemory_eq,
    show Sqlite.isReadable (timeless row) = Sqlite.isReadable row from rfl]
  split <;> rfl

/-- The two filters in JavaScript, of the search and of the list. -/
theorem isEligible_timeless : isEligible C options now row = true ↔
    isEligible C options now (timeless row) = true ∧
      hasExpired C now (memoryOf row) = false ∧ isFuture C now (memoryOf row) = false := by
  unfold isEligible eligible
  rw [rowToMemory_timeless]
  cases hread : rowToMemory row with
  | none => simp
  | some m =>
    obtain ⟨-, rfl⟩ := Sqlite.rowToMemory_eq_some.mp hread
    simp only [Option.map_some, Option.any_some, decide_eq_true_eq]
    exact listShows_timeless

theorem shownBySearch_iff (h : InReach C julianday options context now row) :
    shownBySearch C options now row = true ↔
      hasExpired C now (memoryOf row) = false ∧ isFuture C now (memoryOf row) = false := by
  have hsearch := h.search
  unfold shownBySearch at hsearch ⊢
  rw [Bool.and_eq_true] at hsearch ⊢
  rw [isEligible_timeless]
  have hrest : (tenantWhere (options.tenant.map tenantFilterFromContext) row &&
      decide (row.archivedAt = none)) = true := hsearch.1
  simp only [hrest, hsearch.2, true_and]

/-- `eligibleFilter`, in SQL. -/
theorem eligibleFilter_timeless {nowIso : String} : eligibleFilter julianday {} nowIso row = true ↔
    eligibleFilter julianday {} nowIso (timeless row) = true ∧
      (∀ t ∈ row.validUntil, notBefore julianday t nowIso = true) ∧
      ∀ t ∈ row.validFrom, notBefore julianday nowIso t = true := by
  have hquarantined : quarantinedInSql (timeless row) = quarantinedInSql row := rfl
  unfold eligibleFilter
  rw [hquarantined]
  simp only [timeless, Bool.false_or, Bool.and_eq_true, Option.all_none, Option.all_eq_true]
  tauto

theorem shownOnPage_iff (h : InReach C julianday options context now row) :
    shownOnPage C julianday options now row = true ↔
      (∀ t ∈ row.validUntil, notBefore julianday t (C.host.toISOString now) = true) ∧
        (∀ t ∈ row.validFrom, notBefore julianday (C.host.toISOString now) t = true) ∧
        shownBySearch C options now row = true := by
  rw [shownBySearch_iff h]
  have hpage := h.page
  unfold shownOnPage at hpage ⊢
  rw [Bool.and_eq_true, Bool.and_eq_true] at hpage ⊢
  rw [isEligible_timeless, eligibleFilter_timeless]
  obtain ⟨⟨htenant, hfilter⟩, heligible⟩ := hpage
  have htenant' : candidateTenantWhere (options.tenant.map tenantFilterFromContext) row = true :=
    htenant
  simp only [htenant', hfilter, heligible, true_and, and_assoc]

/-- The clause of the expiry, in the SQL of V6. -/
theorem expiryClause_row : (V6.expiryClause { now := now }).holds (dateOf C julianday) (rowColumns row) =
    true ↔ ∀ t ∈ row.validUntil, laterInSql C julianday now t = true := by
  cases h : row.validUntil with
  | none => simp [V6.expiryClause, Sql.Term.value, rowColumns, textOrNull, h]
  | some t =>
    simp only [V6.expiryClause, Sql.holds_or, Sql.holds_isNull, Sql.holds_and, Sql.holds_isDate,
      Sql.holds_after, Sql.Term.value, rowColumns, textOrNull, h, Option.map_some, Option.getD_some,
      reduceCtorEq, false_or, dateOf, Option.getD_none, Option.mem_def, Option.some.injEq, forall_eq',
      laterInSql, Option.any_eq_true, decide_eq_true_eq]
    constructor
    · rintro ⟨-, x, y, hx, hy, hlt⟩
      exact ⟨x, hx, y, hy, hlt⟩
    · rintro ⟨x, hx, y, hy, hlt⟩
      exact ⟨by rw [hx]; rfl, x, y, hx, hy, hlt⟩

theorem sensitivityClause_row :
    (V6.sensitivityClause context).holds (dateOf C julianday) (rowColumns row) = true ↔
      ∃ band ∈ V6.reachable (V6.clearanceOf context.principal),
        Store.Vocabulary.text row.sensitivity = Store.Vocabulary.text band := by
  simp [V6.sensitivityClause, Sql.Term.value, rowColumns]

theorem shownByV6_iff (h : InReach C julianday options context now row) :
    shownByV6 C julianday context now row = true ↔
      ∀ t ∈ row.validUntil, laterInSql C julianday now t = true := by
  have hv6 := h.v6
  unfold shownByV6 V6.buildV6Predicate at hv6 ⊢
  rw [← expiryClause_row]
  have hexcludes : V6.excludesHeld { now := now } = true := rfl
  simp only [hexcludes, if_true, Sql.holds_and] at hv6 ⊢
  obtain ⟨⟨⟨⟨htenant, hproject⟩, hsensitivity⟩, -⟩, hheld⟩ := hv6
  have htenant' : (V6.tenantClause context).holds (dateOf C julianday) (rowColumns row) = true :=
    htenant
  have hproject' : (V6.projectClause context).holds (dateOf C julianday) (rowColumns row) = true := by
    rw [← hproject]
    unfold V6.projectClause
    cases context.principal.projectId <;> rfl
  have hsensitivity' := (@sensitivityClause_row C julianday context row).mpr
    ((@sensitivityClause_row C julianday context (timeless row)).mp hsensitivity)
  have hheld' : V6.holdClause.holds (dateOf C julianday) (rowColumns row) = true := hheld
  simp only [htenant', hproject', hsensitivity', hheld', true_and, and_true]

/-- A later expiry is one that has not been reached. -/
theorem notBefore_of_later {t : String} (h : laterInSql C julianday now t = true) :
    notBefore julianday t (C.host.toISOString now) = true := by
  unfold laterInSql at h
  unfold notBefore
  obtain ⟨x, hx, hlater⟩ := (Option.any_eq_true _ _).mp h
  obtain ⟨y, hy, hlt⟩ := (Option.any_eq_true _ _).mp hlater
  exact (Option.any_eq_true _ _).mpr ⟨x, hx, (Option.any_eq_true _ _).mpr
    ⟨y, hy, decide_eq_true (of_decide_eq_true hlt).le⟩⟩

end Times

section Expiry
variable (C : Config) (julianday : String → Option ℚ) (options : Options)
  (context : V6.RequestContext) (now : ℤ) (row : Row)

/-- For a memory that only its times can hide: the four paths agree on it, and show no expiry that
    cannot be read, exactly if the two ways of reading times agree on it. -/
theorem expiry_agrees_iff (h : InReach C julianday options context now row) :
    OnePredicate C julianday options context now row ↔ ReadAlike C julianday now row := by
  have hsearch := shownBySearch_iff h
  have hpage := shownOnPage_iff h
  have hv6 := shownByV6_iff h
  constructor
  · rintro ⟨hpage', -, hv6', hclosed⟩
    constructor
    by_cases hshown : shownBySearch C options now row = true
    · left
      obtain ⟨hexpired, hfuture⟩ := hsearch.mp hshown
      have hlater := hv6.mp (hv6'.trans hshown)
      refine ⟨hexpired, hfuture, fun t ht => ⟨?_, hlater t ht⟩, (hpage.mp (hpage'.trans hshown)).2.1⟩
      rw [Option.isSome_iff_ne_none]
      intro hparse
      exact absurd hshown (by rw [(hclosed t ht hparse).1]; decide)
    · right
      have hhidden := hsearch.not.mp hshown
      rw [not_and_or, Bool.not_eq_false, Bool.not_eq_false] at hhidden
      refine ⟨hhidden, ?_⟩
      by_contra hnot
      push Not at hnot
      refine hshown (hv6'.symm.trans (hv6.mpr fun t ht => ?_))
      exact Bool.eq_true_of_not_eq_false (hnot t ht)
  · rintro ⟨⟨hexpired, hfuture, huntil, hfrom⟩ | ⟨hhidden, t, ht, hlate⟩⟩
    · have hshown := hsearch.mpr ⟨hexpired, hfuture⟩
      have hlater := fun t ht => (huntil t ht).2
      have honPage := hpage.mpr ⟨fun t ht => notBefore_of_later (hlater t ht), hfrom, hshown⟩
      refine ⟨honPage.trans hshown.symm, rfl, (hv6.mpr hlater).trans hshown.symm, fun t ht hparse => ?_⟩
      have hread := (huntil t ht).1
      rw [hparse] at hread
      cases hread
    · have hshown : shownBySearch C options now row = false := by
        refine eq_false_of_ne_true fun hshown => ?_
        obtain ⟨hexpired, hfuture⟩ := hsearch.mp hshown
        rw [hexpired, hfuture] at hhidden
        simp at hhidden
      have honPage : shownOnPage C julianday options now row = false :=
        eq_false_of_ne_true fun h => by rw [(hpage.mp h).2.2] at hshown; cases hshown
      have hbyV6 : shownByV6 C julianday context now row = false :=
        eq_false_of_ne_true fun h => by rw [hv6.mp h t ht] at hlate; cases hlate
      exact ⟨honPage.trans hshown.symm, rfl, hbyV6.trans hshown.symm,
        fun _ _ _ => ⟨hshown, honPage, hshown, hbyV6⟩⟩

end Expiry

/-! ### Instants that both read -/

/-! ### An expiry that no one can read -/

/-- The first instants of 2026 and of 2027. -/
def yearsHost : Store.Host :=
  { Store.newYear with
    dateParse := fun s =>
      if s = "2026-01-01T00:00:00.000Z" then some 1767225600000
      else if s = "2027-01-01T00:00:00.000Z" then some 1798761600000
      else none }

def yearsJulianday (s : String) : Option ℚ :=
  if s = "2026-01-01T00:00:00.000Z" then some (4922083 / 2)
  else if s = "2027-01-01T00:00:00.000Z" then some (4922813 / 2)
  else none

def yearsConfig : Config :=
  { plainConfig with backend := { platform := { host := yearsHost, fround := id } } }

/-- A reader of the organization `org-a`. -/
def readerOptions : Options where
  tenant := some { principal := {
    organizationId := ⟨"org-a", by decide +kernel⟩, capabilities := [.read] } }

/-- A memory of the organization with this expiry. -/
def expiringRow (validUntil : Option String) : Row :=
  { Sqlite.rowOf yearsConfig.backend.platform
      (Sqlite.storeRecord yearsConfig.backend.platform 1767225600000 "m-1" Store.preference none none)
    with tenantId := some "org-a", validUntil := validUntil }

theorem inReach_expiring (validUntil : Option String) :
    InReach yearsConfig yearsJulianday readerOptions V6.organizationReader 1767225600000
      (expiringRow validUntil) := by
  have hsame : timeless (expiringRow validUntil) = timeless (expiringRow none) := rfl
  constructor <;> rw [hsame] <;> decide +kernel

/-- At the start of 2026 a memory that expires with the year is visible on all four paths. -/
theorem expiry_agrees_iff_years : OnePredicate yearsConfig yearsJulianday readerOptions
    V6.organizationReader 1767225600000 (expiringRow (some "2027-01-01T00:00:00.000Z")) := by
  refine (expiry_agrees_iff yearsConfig yearsJulianday readerOptions V6.organizationReader
    1767225600000 _ (inReach_expiring _)).mpr ⟨.inl ?_⟩
  decide +kernel

/-- A search and a list show the memory that is valid until `soon`, SQLite and V6 do not. -/
theorem soon_is_visible :
    InReach yearsConfig yearsJulianday readerOptions V6.organizationReader 1767225600000
        (expiringRow (some "soon")) ∧
      ¬ OnePredicate yearsConfig yearsJulianday readerOptions V6.organizationReader 1767225600000
        (expiringRow (some "soon")) := by
  refine ⟨inReach_expiring _, fun h => ?_⟩
  exact absurd h.v6 (by decide +kernel)

end Remembra.Service
