import Remembra.Idempotency.Store

/-! The ledger stays bounded: the claims in progress and the completed ones fit in what the options allow,
    over every run (`ledger_bounded`). Tombstones take no capacity, so they are not bounded
    (`tombstones_pile_up`). -/

namespace Remembra.Idempotency
open Transition

variable {V : Type*} {P : Platform V} {o : Options} {db : Db} {input : BatchIdempotencyInput} {now : ℤ}

/-- A claim in progress, or a completed one. -/
def ClaimRow.Unreleased (row : ClaimRow) : Prop := row.state = .inProgress ∨ row.state = .completed

instance (row : ClaimRow) : Decidable row.Unreleased := inferInstanceAs (Decidable (_ ∨ _))

theorem unreleased_iff {row : ClaimRow} : row.Unreleased ↔ row.state ≠ .released := by
  rw [ClaimRow.Unreleased]
  cases row.state <;> decide

theorem not_unreleased {row : ClaimRow} (h : row.state = .released) : ¬ row.Unreleased :=
  fun hrow => unreleased_iff.mp hrow h

/-- The reserved bytes of the claims in progress and the response bytes of the completed ones. -/
def heldBytes (claims : ClaimTable) : ℕ :=
  ((claims.rows.filter fun row => row.state = .inProgress).map ClaimRow.reservedBytes).sum +
    ((claims.rows.filter fun row => row.state = .completed).map ClaimRow.responseBytes).sum

structure Bounded (o : Options) (claims : ClaimTable) : Prop where
  entries : (claims.rows.filter fun row => row.Unreleased).length ≤ o.maxEntries
  scopes : ∀ scope, (claims.rows.filter fun row => row.scopeHash = scope ∧ row.Unreleased).length ≤
    o.maxEntriesPerScope
  bytes : heldBytes claims ≤ o.maxTotalBytes

/-- The same, of every row that is retained. -/
structure Retained (o : Options) (claims : ClaimTable) : Prop where
  entries : claims.rows.length ≤ o.maxEntries
  scopes : ∀ scope, (claims.rows.filter fun row => row.scopeHash = scope).length ≤ o.maxEntriesPerScope
  bytes : heldBytes claims ≤ o.maxTotalBytes

theorem entryCount_eq (claims : ClaimTable) :
    claims.entryCount = (claims.rows.filter fun row => row.Unreleased).length := by
  simp only [ClaimTable.entryCount, unreleased_iff]

theorem scopeCount_eq (claims : ClaimTable) (scope : String) : claims.scopeCount scope =
    (claims.rows.filter fun row => row.scopeHash = scope ∧ row.Unreleased).length := by
  simp only [ClaimTable.scopeCount, unreleased_iff]

theorem totalBytes_eq (claims : ClaimTable) : claims.totalBytes = heldBytes claims := by
  rw [ClaimTable.totalBytes, heldBytes]
  induction claims.rows with
  | nil => rfl
  | cons row rows ih =>
    cases hstate : row.state <;> simp [hstate, ClaimRow.bytes] at ih ⊢ <;> omega

/-- What every step keeps: the bounds, and that a claim in progress has reserved room for a response. -/
structure Fits (o : Options) (claims : ClaimTable) : Prop where
  bounded : Bounded o claims
  slots : ∀ row ∈ claims.rows, row.state = .inProgress → row.reservedBytes = o.maxBytes

theorem fits_empty : Fits o .empty :=
  ⟨⟨Nat.zero_le _, fun _ => Nat.zero_le _, Nat.zero_le _⟩, fun _ h => absurd h List.not_mem_nil⟩

/-- What a granted claim adds to a count that tombstones do not enter. -/
theorem Grants.filter {after : ClaimTable} (h : Grants P o input now db after) {p : ClaimRow → Bool}
    (hp : ∀ row : ClaimRow, row.state = .released → p row = false) :
    after.rows.filter p =
      db.claims.rows.filter p ++ [reserved P o input now db.generation].filter p := by
  rcases h with ⟨-, hrows⟩ | ⟨row, l, l', -, hreusable, hbefore, hrows⟩
  · rw [hrows, List.filter_append]
  · rw [hrows, hbefore]
    simp only [List.filter_append, List.filter_cons, hp row hreusable.1, Bool.false_eq_true, if_false]

theorem Fits.grants {after : ClaimTable} (hfits : Fits o db.claims) (hroom : Room o input.scope db.claims)
    (h : Grants P o input now db after) : Fits o after := by
  obtain ⟨hentries, hbytes, hscopes⟩ := hroom
  rw [entryCount_eq] at hentries
  rw [totalBytes_eq, heldBytes] at hbytes
  rw [scopeCount_eq] at hscopes
  have hnew : (reserved P o input now db.generation).Unreleased := .inl rfl
  refine ⟨⟨?_, fun scope => ?_, ?_⟩, fun row hrow hstate => ?_⟩
  · rw [h.filter fun row hrow => by simpa using not_unreleased hrow, List.length_append]
    simpa [hnew] using Nat.succ_le_of_lt hentries
  · rw [h.filter fun row hrow => by simp [not_unreleased hrow], List.length_append]
    have hscope : (reserved P o input now db.generation).scopeHash = input.scope := rfl
    rcases eq_or_ne input.scope scope with rfl | hne
    · simpa [hnew, hscope] using Nat.succ_le_of_lt hscopes
    · simpa [hscope, hne] using hfits.bounded.scopes scope
  · rw [heldBytes, h.filter (by simp +contextual), h.filter (by simp +contextual)]
    simp only [List.map_append, List.sum_append]
    simp [reserved]
    omega
  · have hmem : row ∈ after.rows.filter fun row => row.state = .inProgress :=
      List.mem_filter.mpr ⟨hrow, by simpa using hstate⟩
    rw [h.filter (by simp +contextual), List.mem_append] at hmem
    rcases hmem with hmem | hmem
    · exact hfits.slots row (List.mem_filter.mp hmem).1 hstate
    · rw [List.mem_singleton.mp (List.mem_filter.mp hmem).1]
      rfl

/-- What a rewritten row takes part in, the row took part in. -/
theorem length_filter_rewrite {p : ClaimRow → Bool} {row new : ClaimRow} (hp : p new = true → p row = true)
    (l l' : List ClaimRow) :
    ((l ++ new :: l').filter p).length ≤ ((l ++ row :: l').filter p).length := by
  simp only [List.filter_append, List.filter_cons, List.length_append]
  cases hnew : p new with
  | true => simp [hp hnew]
  | false => cases p row <;> simp

/-- Completing or releasing a claim needs no more than was reserved for it. -/
theorem Fits.rewrites {after : ClaimTable} {row new : ClaimRow} (hfits : Fits o db.claims)
    (h : Rewrites P input db row new after) (hstate : new.state ≠ .inProgress)
    (hbytes : new.state = .completed → new.responseBytes ≤ o.maxBytes) : Fits o after := by
  obtain ⟨l, l', hbefore, hafter⟩ := h.rows
  have hscope : new.scopeHash = row.scopeHash := congrArg Prod.fst h.key
  have hreserved : row.reservedBytes = o.maxBytes :=
    hfits.slots row (by rw [hbefore]; simp) h.state
  obtain ⟨⟨hentries, hscopes, htotal⟩, hrows⟩ := hfits
  rw [heldBytes] at htotal
  rw [hbefore] at hentries hscopes htotal hrows
  have hlive : row.Unreleased := .inl h.state
  refine ⟨⟨?_, fun scope => ?_, ?_⟩, fun r hr hr' => ?_⟩
  · rw [hafter]
    refine Nat.le_trans (length_filter_rewrite (fun _ => ?_) l l') hentries
    exact decide_eq_true hlive
  · rw [hafter]
    refine Nat.le_trans (length_filter_rewrite (fun hnew => ?_) l l') (hscopes scope)
    simp only [decide_eq_true_eq] at hnew ⊢
    exact ⟨hscope.symm.trans hnew.1, hlive⟩
  · rw [heldBytes, hafter]
    simp [List.filter_cons, h.state, hstate, hreserved] at htotal ⊢
    split
    · rename_i hcompleted
      have := hbytes hcompleted
      simp
      omega
    · omega
  · rw [hafter] at hr
    rcases List.mem_append.mp hr with hr | hr
    · exact hrows r (List.mem_append_left _ hr) hr'
    rcases List.mem_cons.mp hr with rfl | hr
    · exact absurd hr' hstate
    · exact hrows r (List.mem_append_right _ (List.mem_cons_of_mem _ hr)) hr'

theorem Fits.perform (hfits : Fits o db.claims) (mutation : Mutation V) (now : ℤ) :
    Fits o (perform P o mutation now db).2.claims := by
  cases mutation with
  | claim input =>
    change Fits o (claim P o input now db).2.claims
    rcases claim_cases P o input now db with ⟨e, he⟩ | ⟨v, row, hv, -⟩ | ⟨claims, hok, -, hroom, hgrants⟩
    · rw [he]
      exact hfits
    · rw [hv]
      exact hfits
    · rw [hok]
      exact hfits.grants hroom hgrants
  | complete input response =>
    change Fits o (complete P o input response now db).2.claims
    rcases complete_cases P o input response now db with
      ⟨e, he⟩ | ⟨hok, -⟩ | ⟨text, row, claims, hok, -, hsize, hrewrites⟩
    · rw [he]
      exact hfits
    · rw [hok]
      exact hfits
    · rw [hok]
      exact hfits.rewrites hrewrites ClaimState.noConfusion fun _ => hsize
  | abandon input =>
    change Fits o (abandon P input db).2.claims
    rcases abandon_cases P input db with ⟨e, he⟩ | ⟨hok, -⟩ | ⟨row, claims, hok, hrewrites⟩
    · rw [he]
      exact hfits
    · rw [hok]
      exact hfits
    · rw [hok]
      exact hfits.rewrites hrewrites ClaimState.noConfusion fun h => absurd h ClaimState.noConfusion

theorem fits_step {s t : State V} {a : Action V} (hfits : Fits o s.db.claims)
    (h : step P o s a = some t) : Fits o t.db.claims := by
  cases step_effect h with
  | none hclaims _ _ =>
    rw [hclaims]
    exact hfits
  | turnedAway mutation _ hdb _ =>
    rw [hdb]
    exact hfits
  | performs caller now mutation _ _ hdb _ =>
    rw [hdb]
    exact hfits.perform mutation now
  | invalidates hdb _ =>
    rw [hdb]
    exact fits_empty

/-- Over every run, the claims in progress and the completed ones fit in the options; and a claim that is
    refused for capacity changes nothing. -/
theorem ledger_bounded (P : Platform V) (o : Options) (as : List (Action V)) :
    Everywhere (step P o) (fun s => Bounded o s.db.claims) init as ∧
    ∀ input now db, (claim P o input now db).1 = .error capacityExhausted →
      (claim P o input now db).2 = db := by
  refine ⟨?_, fun input now db hfull => ?_⟩
  · exact everywhere_of_along (fun s a t hfits _ h => fits_step hfits h) (fun s hfits => hfits.bounded)
      as fits_empty (along_of_forall (fun _ _ => trivial) _ _)
  · rcases claim_cases P o input now db with ⟨e, he⟩ | ⟨v, row, hv, -⟩ | ⟨claims, hok, -⟩
    · rw [he]
    · rw [hv]
    · rw [hok] at hfull
      cases hfull

/-! ### A ledger for one claim -/

/-- A platform whose values are booleans, and whose keys are `a` and any one other key. -/
def booleans : Platform Bool where
  digest key :=
    if key = "a" then "ca978112ca1bbdcafac231b39a23dc4da786eff8147c4e72b9807785afee48bb"
    else "3e23e8160039594a33894f6564e1b1348bbd7a0088d42c4acb73eeaed59c009d"
  stringify v := some (if v then "true" else "false")
  parse text := if text = "true" then some true else if text = "false" then some false else none
  parse_stringify v text h := by
    obtain rfl := Option.some.inj h
    cases v <;> rfl

/-- Room for one claim. -/
def single : Options where
  maxBytes := 1024
  maxEntries := 1
  maxEntriesPerScope := 1
  maxTotalBytes := 1024
  maxBytes_range := by decide
  maxEntries_range := by decide
  maxEntriesPerScope_range := by decide
  maxTotalBytes_range := by decide

/-- A digest of 64 times the same digit. -/
def digestOf (c : Char) : String := .ofList (List.replicate 64 c)

/-- A request under a key of one scope. -/
def request (key : String) (operation : Option String) : BatchIdempotencyInput :=
  ⟨digestOf 'a', key, digestOf 'f', operation⟩

/-- One caller makes a call and goes on until it returns. -/
def callAlone (call : Call V) (steps : ℕ) : List (Action V) :=
  .calls 0 call :: List.replicate steps (.goesOn 0 0)

/-- Two claims, each released again. -/
def twoReleased : List (Action Bool) :=
  callAlone (.mutate (.claim (request "a" none))) 3 ++
  callAlone (.mutate (.abandon (request "a" none))) 3 ++
  callAlone (.mutate (.claim (request "b" none))) 3 ++
  callAlone (.mutate (.abandon (request "b" none))) 3

/-- Both tombstones are retained, where the options allow one claim. -/
theorem tombstones_pile_up : ¬ Everywhere (step booleans single)
    (fun s => Retained single s.db.claims) init twoReleased := by
  refine not_everywhere (fun s => s.db.claims.rows.length = 2) (by decide +kernel) fun t ht hretained => ?_
  have hentries := hretained.entries
  rw [of_decide_eq_true ht] at hentries
  exact absurd hentries (by decide)

/-- A claim that the one before it leaves no room for. -/
theorem ledger_bounded_full : Everywhere (step booleans single)
      (fun s => Bounded single s.db.claims) init twoReleased ∧
    (claim booleans single (request "b" none) 0 (claim booleans single (request "a" none) 0 .new).2).2 =
      (claim booleans single (request "a" none) 0 .new).2 :=
  have h := ledger_bounded booleans single twoReleased
  ⟨h.1, h.2 (request "b" none) 0 _ (by decide +kernel)⟩

end Remembra.Idempotency
