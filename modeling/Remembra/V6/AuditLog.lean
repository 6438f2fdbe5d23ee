import Remembra.V6.Guarded
import Remembra.Lib.Offset
import Remembra.Lib.Retained
import Remembra.Lib.Transition

/-! The log of V6's policy decisions: a ring of events, read by organization and page by page, newest
    first. The ring keeps what it says it keeps in every run. The cursor of a page is an offset into the
    sorted list, and appending moves events across it: a reader that follows the cursors gets each event
    once, in order, exactly where every page finds the list steady (`auditLog_exact_iff`). -/

namespace Remembra.V6
open Store (JsNum)

/-- `ResourceClass` -/
inductive ResourceClass where
  | tenantMemory | memoryExport | providerRequest | policyDocument | recoveryOperation
  deriving DecidableEq

/-- `V6PolicyAuditEvent` -/
structure PolicyAuditEvent where
  «at» : JsNum
  organizationId : String
  projectId : Option String := none
  userId : Option String := none
  agentId : Option String := none
  operation : DirectOperation
  effect : Effect
  reason : Reason
  policyVersion : String
  resourceClass : ResourceClass
  authMethod : String
  correlationId : Option String := none
  deriving DecidableEq

/-- `/^v6-policy\/\d+\.\d+\.\d+$/` -/
def isPolicyVersion (s : String) : Bool :=
  let name := "v6-policy/".toList
  s.toList.take name.length = name &&
    match (s.toList.drop name.length).splitOn '.' with
    | [major, minor, patch] => [major, minor, patch].all fun l => l ≠ [] && l.all Char.isDigit
    | _ => false

/-- `CORRELATION_RE`: `/^[A-Za-z0-9._:-]+$/` -/
def isCorrelationId (s : String) : Bool :=
  s ≠ "" && s.toList.all fun c => c.isAlphanum || c ∈ ['.', '_', ':', '-']

def maxCorrelationId : ℕ := 64
def maxAuditPage : ℕ := 200
def defaultMaxEvents : ℕ := 10000

/-- `V6_POLICY_AUDIT_SCHEMA` accepts the event; the values of the closed vocabularies are of their types. -/
def acceptsAuditEvent (event : PolicyAuditEvent) : Bool :=
  isCount event.at && event.organizationId ≠ "" && Jobs.utf16Length event.organizationId ≤ 128 &&
    event.projectId.all (Jobs.utf16Length · ≤ 128) && event.userId.all (Jobs.utf16Length · ≤ 128) &&
    event.agentId.all (Jobs.utf16Length · ≤ 128) && isPolicyVersion event.policyVersion &&
    event.authMethod ≠ "" && Jobs.utf16Length event.authMethod ≤ 32 &&
    event.correlationId.all fun id => isCorrelationId id && Jobs.utf16Length id ≤ maxCorrelationId

/-- `invalid` -/
def invalid (detail : String) : RemembraError := ⟨.invalidInput, "v6 audit: " ++ detail⟩

/-- `Number.isInteger(n) && n >= 1`, or `invalid(detail)` -/
def positiveInteger (detail : String) : JsNum → Except RemembraError ℕ
  | .finite q => if q.den = 1 ∧ 1 ≤ q then .ok q.num.toNat else .error (invalid detail)
  | _ => .error (invalid detail)

/-! ### The log -/

/-- An event of the log. Two events may be equal; `serial`, how many the log took before, tells them
    apart and is not in the source. -/
structure Entry where
  serial : ℕ
  event : PolicyAuditEvent
  deriving DecidableEq

structure PolicyAuditLog where
  events : List Entry := []
  dropped : ℕ := 0

/-- `new PolicyAuditLog({ maxEvents })`: how many events it keeps. -/
def capacity (maxEvents : Option JsNum) : Except RemembraError ℕ :=
  positiveInteger "maxEvents must be a positive integer" (maxEvents.getD (.finite defaultMaxEvents))

def PolicyAuditLog.entry (s : PolicyAuditLog) (event : PolicyAuditEvent) : Entry where
  serial := s.events.length + s.dropped
  event := event

/-- `while (this.#events.length > this.#maxEvents)` -/
def dropOldest (maxEvents : ℕ) : List Entry → ℕ → PolicyAuditLog
  | [], dropped => ⟨[], dropped⟩
  | e :: events, dropped =>
    if maxEvents < (e :: events).length then dropOldest maxEvents events (dropped + 1)
    else ⟨e :: events, dropped⟩

def PolicyAuditLog.append (maxEvents : ℕ) (s : PolicyAuditLog) (event : PolicyAuditEvent) :
    Except RemembraError PolicyAuditLog :=
  if acceptsAuditEvent event then .ok (dropOldest maxEvents (s.events ++ [s.entry event]) s.dropped)
  else .error (invalid "refusing to append an event that does not satisfy the audit schema")

structure AuditQuery where
  organizationId : String
  limit : Option JsNum := none
  cursor : Option String := none

structure AuditQueryResult where
  events : List Entry
  nextCursor : Option String := none
  totalRetained : ℕ
  dropped : ℕ

/-- The number of milliseconds that `b.at - a.at` compares. -/
def Entry.stamp (e : Entry) : ℚ :=
  match e.event.at with
  | .finite q => q
  | _ => 0

def PolicyAuditLog.scopedEvents (s : PolicyAuditLog) (organizationId : String) : List Entry :=
  newestFirst Entry.stamp (s.events.filter fun e => e.event.organizationId = organizationId)

/-- How many events a page has. -/
def pageSize (limit : Option JsNum) : Except RemembraError ℕ := do
  let limit ← positiveInteger "limit must be a positive integer" (limit.getD (.finite maxAuditPage))
  if maxAuditPage < limit then .error (invalid "limit exceeds the page ceiling of 200") else .ok limit

section Query
variable (toNumber : String → JsNum)

/-- The offset that a cursor stands for in a list of `length` events; `toNumber` is `Number`. -/
def startOf (cursor : Option String) (length : ℕ) : Except RemembraError ℕ :=
  match cursor with
  | none => .ok 0
  | some c =>
    match toNumber c with
    | .finite q =>
      if q.den = 1 ∧ 0 ≤ q ∧ q ≤ length then .ok q.num.toNat
      else .error (invalid "cursor is not a valid offset")
    | _ => .error (invalid "cursor is not a valid offset")

def PolicyAuditLog.query (s : PolicyAuditLog) (q : AuditQuery) : Except RemembraError AuditQueryResult :=
  if q.organizationId = "" then .error (invalid "an audit query requires an organizationId")
  else do
    let limit ← pageSize q.limit
    let events := s.scopedEvents q.organizationId
    let start ← startOf toNumber q.cursor events.length
    let page := (events.drop start).take limit
    let next := start + page.length
    .ok {
      events := page
      nextCursor := if next < events.length then some (toString next) else none
      totalRetained := events.length
      dropped := s.dropped }

end Query

/-! ### A reader that follows the cursors -/

/-- A log and a reader of it, with values that the log takes. -/
structure Setup where
  maxEvents : Option JsNum := none
  kept : ℕ
  built : capacity maxEvents = .ok kept
  organizationId : String
  limit : Option JsNum := none
  size : ℕ
  named : organizationId ≠ ""
  sized : pageSize limit = .ok size

inductive AuditAction where
  | append (event : PolicyAuditEvent)
  /-- The reader's first query, or its next with the cursor that it was given. -/
  | follow

/-- The log, all that was ever appended, and the reader. -/
structure AuditWorld where
  log : PolicyAuditLog := {}
  appended : List Entry := []
  cursor : Option String := none
  walk : Offset.Walk Entry := {}

section Machine
variable (toNumber : String → JsNum) (c : Setup)

def AuditWorld.scopedEvents (w : AuditWorld) : List Entry := w.log.scopedEvents c.organizationId

def auditStep (w : AuditWorld) : AuditAction → Option AuditWorld
  | .append event =>
    match w.log.append c.kept event with
    | .ok log => some { w with log := log, appended := w.appended ++ [w.log.entry event] }
    | .error _ => some w
  | .follow =>
    if w.walk.done || w.walk.failed then none
    else
      match w.log.query toNumber ⟨c.organizationId, c.limit, w.cursor⟩ with
      | .ok result => some { w with
          cursor := result.nextCursor
          walk := {
            lists := w.scopedEvents c :: w.walk.lists
            visited := w.walk.visited ++ result.events
            done := result.nextCursor.isNone
            failed := false } }
      | .error _ => some { w with
          walk := { w.walk with lists := w.scopedEvents c :: w.walk.lists, failed := true } }

/-- Newest first; of equal stamps, the one that was appended first. -/
def rank (e : Entry) : ℚᵒᵈ ×ₗ ℕ := toLex (.toDual e.stamp, e.serial)

/-- What the log says of itself. -/
structure AuditWorld.Rings (w : AuditWorld) : Prop where
  counted : w.log.events.length + w.log.dropped = w.appended.length
  retained : w.log.events = w.appended.drop (w.appended.length - c.kept)

/-- What the pages are to be: exact, and of one organization. -/
structure AuditWorld.Pages (w : AuditWorld) : Prop where
  own : ∀ e ∈ w.walk.visited, e.event.organizationId = c.organizationId
  exact : Offset.Exact rank w.walk

/-- The reader's next page finds the list where the last one left it. -/
def AuditWorld.Steadied (w : AuditWorld) : AuditAction → Prop
  | .append _ => True
  | .follow => Offset.Steady rank w.walk (w.scopedEvents c)

instance (w : AuditWorld) (a : AuditAction) : Decidable (w.Steadied c a) := by
  cases a <;> unfold AuditWorld.Steadied <;> infer_instance

end Machine

/-! ### The ring -/

theorem dropOldest_eq (maxEvents : ℕ) (events : List Entry) (dropped : ℕ) :
    dropOldest maxEvents events dropped =
      ⟨events.drop (events.length - maxEvents), dropped + (events.length - maxEvents)⟩ := by
  induction events generalizing dropped with
  | nil => simp [dropOldest]
  | cons e events ih =>
    rw [dropOldest]
    split_ifs with h
    · have hlength : (e :: events).length - maxEvents = events.length - maxEvents + 1 := by
        rw [List.length_cons] at h ⊢
        omega
      rw [ih, hlength, List.drop_succ_cons, Nat.add_right_comm, Nat.add_assoc]
    · have hlength : (e :: events).length - maxEvents = 0 := by omega
      rw [hlength, List.drop_zero, Nat.add_zero]

section Ring
variable {c : Setup} {w : AuditWorld} {event : PolicyAuditEvent} {log : PolicyAuditLog}

theorem append_eq_ok (h : w.log.append c.kept event = .ok log) :
    log.events = (w.log.events ++ [w.log.entry event]).drop (w.log.events.length + 1 - c.kept) ∧
      log.dropped = w.log.dropped + (w.log.events.length + 1 - c.kept) := by
  rw [PolicyAuditLog.append, dropOldest_eq] at h
  split_ifs at h
  cases h
  simp

/-- One event more. -/
theorem AuditWorld.Rings.append (h : w.Rings c) (hlog : w.log.append c.kept event = .ok log) :
    AuditWorld.Rings c { w with log := log, appended := w.appended ++ [w.log.entry event] } := by
  obtain ⟨hevents, hdropped⟩ := append_eq_ok hlog
  have hcounted := h.counted
  have hlength : w.log.events.length = w.appended.length - (w.appended.length - c.kept) := by
    rw [h.retained, List.length_drop]
  constructor
  · change log.events.length + log.dropped = (w.appended ++ [w.log.entry event]).length
    rw [hevents, hdropped, List.length_drop, List.length_append, List.length_append, List.length_singleton]
    omega
  · change log.events = (w.appended ++ [w.log.entry event]).drop _
    rw [hevents, List.length_append, List.length_singleton, h.retained,
      ← List.drop_append_of_le_length (by omega), List.drop_drop, ← h.retained]
    congr 1
    omega

/-- The serials of the entries are their places among all that were appended. -/
def AuditWorld.Numbered (w : AuditWorld) : Prop :=
  w.appended.map Entry.serial = List.range w.appended.length

theorem AuditWorld.Numbered.append (h : w.Numbered) (hrings : w.Rings c) :
    (w.appended ++ [w.log.entry event]).map Entry.serial =
      List.range (w.appended ++ [w.log.entry event]).length := by
  rw [List.map_append, h, List.length_append, List.length_singleton, List.range_succ, ← hrings.counted]
  rfl

/-- What a reader pages through is strictly ordered. -/
theorem ascending_scopedEvents (hrings : w.Rings c) (h : w.Numbered) :
    Offset.Ascending rank (w.scopedEvents c) := by
  have hserials : w.appended.Pairwise fun a b => a.serial < b.serial := by
    rw [← List.pairwise_map (f := Entry.serial) (R := (· < ·)), h]
    exact List.pairwise_lt_range
  have hevents : w.log.events.Pairwise fun a b => a.serial < b.serial := by
    rw [hrings.retained]
    exact hserials.sublist (List.drop_sublist ..)
  refine (newestFirst_stable (hevents.sublist List.filter_sublist)).imp ?_
  rintro a b (hlt | ⟨heq, hserial⟩)
  · exact Prod.Lex.toLex_lt_toLex.mpr (.inl hlt)
  · exact Prod.Lex.toLex_lt_toLex.mpr (.inr ⟨congrArg OrderDual.toDual heq, hserial⟩)

end Ring

/-! ### The pages -/

theorem positiveInteger_pos {detail : String} {v : JsNum} {n : ℕ}
    (h : positiveInteger detail v = .ok n) : 1 ≤ n := by
  unfold positiveInteger at h
  split at h
  · rename_i q
    split_ifs at h with hq
    cases h
    have hnum : (1 : ℚ) ≤ q.num := by
      rw [Rat.coe_int_num_of_den_eq_one hq.1]
      exact hq.2
    have hnum' : 1 ≤ q.num := by exact_mod_cast hnum
    omega
  · cases h

theorem Setup.size_pos (c : Setup) : 1 ≤ c.size := by
  have h := c.sized
  unfold pageSize at h
  cases hlimit : positiveInteger "limit must be a positive integer" (c.limit.getD (.finite maxAuditPage)) with
  | error e =>
    rw [hlimit] at h
    cases h
  | ok n =>
    rw [hlimit] at h
    change (if maxAuditPage < n then _ else _) = _ at h
    split_ifs at h
    cases h
    exact positiveInteger_pos hlimit

section Pages
variable {toNumber : String → JsNum} {c : Setup} {w t : AuditWorld}

/-- The cursor of a reader that is under way. -/
def AuditWorld.Placed (w : AuditWorld) : Prop :=
  w.walk.done = false →
    w.cursor = none ∧ w.walk.visited = [] ∨ w.cursor = some (toString w.walk.start)

theorem startOf_of_placed (hnumber : ∀ n : ℕ, toNumber (toString n) = .finite n) (h : w.Placed)
    (hgoing : w.walk.done = false) (length : ℕ) : startOf toNumber w.cursor length =
      if w.walk.start ≤ length then .ok w.walk.start else .error (invalid "cursor is not a valid offset") := by
  rcases h hgoing with ⟨hnone, hfresh⟩ | hsome
  · have hstart : w.walk.start = 0 := by rw [Offset.Walk.start, hfresh, List.length_nil]
    rw [hnone, hstart, if_pos (Nat.zero_le _)]
    rfl
  · rw [hsome]
    simp only [startOf, hnumber]
    simp

/-- What the reader gets for its cursor. -/
theorem query_of_placed (hnumber : ∀ n : ℕ, toNumber (toString n) = .finite n) (h : w.Placed)
    (hgoing : w.walk.done = false) :
    w.log.query toNumber ⟨c.organizationId, c.limit, w.cursor⟩ =
      let next := w.walk.start + (Offset.page c.size w.walk (w.scopedEvents c)).length
      if w.walk.start ≤ (w.scopedEvents c).length then .ok {
        events := Offset.page c.size w.walk (w.scopedEvents c)
        nextCursor := if next < (w.scopedEvents c).length then some (toString next) else none
        totalRetained := (w.scopedEvents c).length
        dropped := w.log.dropped }
      else .error (invalid "cursor is not a valid offset") := by
  have hstart := startOf_of_placed hnumber h hgoing (w.scopedEvents c).length
  rw [AuditWorld.scopedEvents] at hstart ⊢
  rw [PolicyAuditLog.query, if_neg c.named, c.sized]
  simp only [bind, Except.bind, hstart]
  by_cases hle : w.walk.start ≤ (w.log.scopedEvents c.organizationId).length
  · rw [if_pos hle, if_pos hle]
    rfl
  · rw [if_neg hle, if_neg hle]

theorem follow_log (ht : auditStep toNumber c w .follow = some t) :
    t.log = w.log ∧ t.appended = w.appended := by
  unfold auditStep at ht
  dsimp only at ht
  split at ht
  · cases ht
  · split at ht
    · cases ht
      exact ⟨rfl, rfl⟩
    · cases ht
      exact ⟨rfl, rfl⟩

/-- What a query of the reader changes. -/
theorem follow_walk (hnumber : ∀ n : ℕ, toNumber (toString n) = .finite n) (h : w.Placed)
    (ht : auditStep toNumber c w .follow = some t) :
    t.walk = Offset.request c.size w.walk (w.scopedEvents c) ∧ t.Placed := by
  unfold auditStep at ht
  dsimp only at ht
  split at ht
  · cases ht
  rename_i hgoing
  rw [Bool.or_eq_true, not_or, Bool.not_eq_true, Bool.not_eq_true] at hgoing
  rw [query_of_placed hnumber h hgoing.1] at ht
  by_cases hle : w.walk.start ≤ (w.scopedEvents c).length
  · rw [Offset.request_of_le hle]
    dsimp only at ht
    rw [if_pos hle] at ht
    cases ht
    by_cases hmore : w.walk.start + (Offset.page c.size w.walk (w.scopedEvents c)).length <
        (w.scopedEvents c).length
    · refine ⟨by simp [hmore, hgoing.2], fun _ => .inr ?_⟩
      simp only [if_pos hmore]
      rw [Offset.Walk.start, Offset.Walk.start, List.length_append]
    · refine ⟨by simp [hmore, hgoing.2], fun hdone => ?_⟩
      simp [hmore] at hdone
  · rw [Offset.request, if_pos (not_le.mp hle)]
    dsimp only at ht
    rw [if_neg hle] at ht
    cases ht
    exact ⟨rfl, h⟩

/-- What holds between the steps. -/
structure AuditWorld.Inv (c : Setup) (w : AuditWorld) : Prop where
  rings : w.Rings c
  numbered : w.Numbered
  pages : w.Pages c
  placed : w.Placed

theorem own_request (h : ∀ e ∈ w.walk.visited, e.event.organizationId = c.organizationId) :
    ∀ e ∈ (Offset.request c.size w.walk (w.scopedEvents c)).visited,
      e.event.organizationId = c.organizationId := by
  intro e he
  unfold Offset.request at he
  split_ifs at he
  · exact h e he
  · rcases List.mem_append.mp he with he | he
    · exact h e he
    · have hmem : e ∈ w.scopedEvents c := List.mem_of_mem_drop (List.mem_of_mem_take he)
      simpa using (List.mem_filter.mp (mem_newestFirst.mp hmem)).2

theorem inv_start : AuditWorld.Inv c {} where
  rings := ⟨rfl, by simp⟩
  numbered := rfl
  pages := ⟨by rintro e ⟨⟩, Offset.exact_start⟩
  placed _ := .inl ⟨rfl, rfl⟩

theorem append_cases {event : PolicyAuditEvent} (ht : auditStep toNumber c w (.append event) = some t) :
    t = w ∨ ∃ log, w.log.append c.kept event = .ok log ∧
      t = { w with log := log, appended := w.appended ++ [w.log.entry event] } := by
  unfold auditStep at ht
  dsimp only at ht
  split at ht
  · rename_i log hlog
    exact .inr ⟨log, hlog, (Option.some.inj ht).symm⟩
  · exact .inl (Option.some.inj ht).symm

theorem inv_step (hnumber : ∀ n : ℕ, toNumber (toString n) = .finite n) (a : AuditAction)
    (h : w.Inv c) (ha : w.Steadied c a) (ht : auditStep toNumber c w a = some t) : t.Inv c := by
  cases a with
  | append event =>
    rcases append_cases ht with rfl | ⟨log, hlog, rfl⟩
    · exact h
    · exact ⟨h.rings.append hlog, h.numbered.append h.rings, ⟨h.pages.own, h.pages.exact⟩, h.placed⟩
  | follow =>
    obtain ⟨hlog, happended⟩ := follow_log ht
    obtain ⟨hwalk, hplaced⟩ := follow_walk hnumber h.placed ht
    have hascending := ascending_scopedEvents h.rings h.numbered
    refine ⟨⟨?_, ?_⟩, ?_, ⟨?_, ?_⟩, hplaced⟩
    · rw [hlog, happended, h.rings.counted]
    · rw [hlog, happended, h.rings.retained]
    · rw [AuditWorld.Numbered, happended]
      exact h.numbered
    · rw [hwalk]
      exact own_request h.pages.own
    · rw [hwalk]
      exact Offset.exact_request h.pages.exact hascending ha

theorem steadied_of_pages (hnumber : ∀ n : ℕ, toNumber (toString n) = .finite n) (a : AuditAction)
    (h : w.Inv c) (ht : auditStep toNumber c w a = some t) (hpages : t.Pages c) : w.Steadied c a := by
  cases a with
  | append event => trivial
  | follow =>
    obtain ⟨hwalk, -⟩ := follow_walk hnumber h.placed ht
    have hexact := hpages.exact
    rw [hwalk] at hexact
    exact Offset.steady_of_exact c.size_pos (ascending_scopedEvents h.rings h.numbered) hexact

/-- The ring keeps the last events and counts the others in every run. -/
theorem rings_everywhere (actions : List AuditAction) :
    Transition.Everywhere (auditStep toNumber c) (AuditWorld.Rings c) {} actions := by
  refine Transition.everywhere_of_along (I := AuditWorld.Rings c) ?_
    (fun _ h => h) actions inv_start.rings (Transition.along_of_forall (fun _ _ => trivial) _ _)
  intro w a t h _ ht
  cases a with
  | append event =>
    rcases append_cases ht with rfl | ⟨log, hlog, rfl⟩
    · exact h
    · exact h.append hlog
  | follow =>
    obtain ⟨hlog, happended⟩ := follow_log ht
    exact ⟨by rw [hlog, happended, h.counted], by rw [hlog, happended, h.retained]⟩

/-- In every interleaving the ring is what it says, and a reader's pages are exact from end to end if and
    only if each of them found the list where the last one left it. -/
theorem auditLog_exact_iff (hnumber : ∀ n : ℕ, toNumber (toString n) = .finite n)
    (actions : List AuditAction) :
    Transition.Everywhere (auditStep toNumber c) (AuditWorld.Rings c) {} actions ∧
      (Transition.Everywhere (auditStep toNumber c) (AuditWorld.Pages c) {} actions ↔
        Transition.Along (auditStep toNumber c) (AuditWorld.Steadied c) {} actions) := by
  refine ⟨rings_everywhere actions, ?_⟩
  exact Transition.everywhere_iff_along (I := AuditWorld.Inv c)
    (fun w a t h ha ht => inv_step hnumber a h ha ht) (fun w h => h.pages)
    (fun w a t h ha ht hpages => ha (steadied_of_pages hnumber a h ht hpages)) inv_start actions

end Pages

/-! ### A log of two events -/

/-- `Number` of a decimal numeral. -/
def numeralOf (s : String) : JsNum :=
  if s ≠ "" ∧ s.toList.all Char.isDigit then .finite (Nat.ofDigitChars 10 s.toList 0 : ℕ) else .nan

theorem numeralOf_toString (n : ℕ) : numeralOf (toString n) = .finite n := by
  have hdigits : n.repr.toList.all Char.isDigit = true := by
    rw [Nat.toList_repr, List.all_eq_true]
    intro c hc
    exact Nat.isDigit_of_mem_toDigits (by decide) (by decide) hc
  change numeralOf n.repr = _
  rw [numeralOf, if_pos ⟨Nat.repr_ne_empty, hdigits⟩, Nat.toList_repr,
    Nat.ofDigitChars_toDigits (by decide) (by decide)]

def eventAt (ms : ℕ) (organizationId : String) : PolicyAuditEvent where
  «at» := .finite ms
  organizationId := organizationId
  operation := .read
  effect := .deny
  reason := .tenantMismatch
  policyVersion := "v6-policy/1.0.0"
  resourceClass := .tenantMemory
  authMethod := "api_key"

/-- A reader of `org-a`, one event a page. -/
def oneByOne : Setup where
  kept := 10000
  built := rfl
  organizationId := "org-a"
  limit := some (.finite 1)
  size := 1
  named := by decide
  sized := rfl

/-- An event of another organization between two pages moves nothing. -/
theorem auditLog_exact_otherTenant :
    Transition.Everywhere (auditStep numeralOf oneByOne) (AuditWorld.Pages oneByOne) {}
      [.append (eventAt 1 "org-a"), .append (eventAt 2 "org-a"), .follow,
        .append (eventAt 3 "org-b"), .follow] :=
  (auditLog_exact_iff numeralOf_toString _).2.mpr (by decide +kernel)

/-- A new event of the organization between two pages: the second page repeats the first. -/
theorem auditLog_repeats : ¬ ∀ (c : Setup) (actions : List AuditAction),
    Transition.Everywhere (auditStep numeralOf c) (AuditWorld.Pages c) {} actions := by
  intro h
  refine Transition.not_everywhere (fun w => !decide w.walk.visited.Nodup) ?_ ?_
    (h oneByOne [.append (eventAt 1 "org-a"), .append (eventAt 2 "org-a"), .follow,
      .append (eventAt 3 "org-a"), .follow])
  · decide +kernel
  · intro w hw hpages
    rw [Bool.not_eq_true', decide_eq_false_iff_not] at hw
    refine hw (hpages.exact.ordered.imp ?_)
    rintro a b hab rfl
    exact lt_irrefl _ hab

end Remembra.V6
