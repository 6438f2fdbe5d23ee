import Remembra.Idempotency.Capacity
import Remembra.Lib.History

/-! At most one live execution under a key. Within a generation of the ledger a key is granted again only
    after it was abandoned, a completed key replays its first response, and a key stays with the operation
    it was claimed for, in every run in which an abandoned claim is abandoned under its own operation
    (`at_most_one_live`). `abandon` does not compare the operation it writes with the one it finds
    (`abandon_rebinds`). -/

namespace Remembra.Idempotency
open Transition

variable {V : Type*}

def Mutation.input : Mutation V → BatchIdempotencyInput
  | .claim input | .complete input _ | .abandon input => input

namespace Event

variable (P : Platform V)

def key (e : Event V) : String × String := e.mutation.input.at P

def SameKey (e e' : Event V) : Prop := e.generation = e'.generation ∧ e.key P = e'.key P

/-- A claim that was answered `fresh`. -/
inductive Fresh : Event V → Prop where
  | mk (input : BatchIdempotencyInput) (generation : ℕ) (gated : Bool) :
    Fresh ⟨.claim input, .ok (.claimed .fresh), generation, gated⟩

/-- A call of `abandon` that returned, for the request of the claim `e`. -/
structure Abandons (e a : Event V) : Prop where
  call : ∃ input, a.mutation = .abandon input
  returned : a.result = .ok .void
  same : SameKey P e a
  fingerprint : a.mutation.input.fingerprint = e.mutation.input.fingerprint

/-- A call of `complete` that returned, for a key in a generation. -/
def completes (generation : ℕ) (key : String × String) (e : Event V) : Bool :=
  match e.mutation, e.result with
  | .complete input _, .ok _ => e.generation = generation && input.at P = key
  | _, _ => false

end Event

/-- The answer to a claim of a key that was completed with `response` first. -/
def Replayed (P : Platform V) (response : V) (sameRequest : Prop)
    (result : Except RemembraError (Answer V)) : Prop :=
  (sameRequest → ∃ text v, P.stringify response = some text ∧ P.parse text = some v ∧
    result = .ok (.claimed (.replay v))) ∧
  (¬ sameRequest → ∃ e, result = .error e ∧ e.code = .conflict)

/-- A claim is for the operation of the first claim; read strictly, also where that named none. -/
def Bound (strict : Bool) (first later : Option String) : Prop :=
  later = first ∨ strict = false ∧ first = none

structure Idempotent (P : Platform V) (strict : Bool) (log : List (Event V)) : Prop where
  once : AtEach (fun before e _ => e.Fresh → AtEach (fun _ first between => first.Fresh →
    first.SameKey P e → ∃ a ∈ between, first.Abandons P a) before) log
  replays : AtEach (fun before e _ => ∀ input, e.mutation = .claim input →
    validateInput input = .ok () → ∀ c completed response,
      before.find? (Event.completes P e.generation (input.at P)) = some c →
        c.mutation = .complete completed response →
          Replayed P response (completed.fingerprint = input.fingerprint) e.result) log
  bound : AtEach (fun before e _ => e.Fresh → ∀ first ∈ before, first.Fresh → first.SameKey P e →
    Bound strict first.mutation.input.operation e.mutation.input.operation) log

/-! ### The condition -/

variable (P : Platform V)

/-- The claim is abandoned under its own operation, or without naming one. -/
def NamesOwn (strict : Bool) (claimed : String) (named : Option String) : Prop :=
  named = none ∨ named = some claimed ∨ strict = false ∧ claimed = ""

instance (strict : Bool) (claimed : String) (named : Option String) :
    Decidable (NamesOwn strict claimed named) := inferInstanceAs (Decidable (_ ∨ _ ∨ _))

/-- The key is not completed. -/
def Unfinished (s : State V) (input : BatchIdempotencyInput) : Prop :=
  ∀ row ∈ s.db.claims.get (input.at P), row.state ≠ .completed

instance (s : State V) (input : BatchIdempotencyInput) : Decidable (Unfinished P s input) :=
  inferInstanceAs (Decidable (∀ row ∈ s.db.claims.get (input.at P), _))

/-- The request that a step abandons. -/
def abandoning (s : State V) : Action V → Option BatchIdempotencyInput
  | .goesOn caller _ =>
    match s.callers caller with
    | .transacts (.abandon input) => some input
    | _ => none
  | _ => none

/-- The claim that a step refuses for the restore gate. -/
def gateRefuses (s : State V) : Action V → Option BatchIdempotencyInput
  | .goesOn caller _ =>
    match s.callers caller with
    | .checksMarker (.claim input) => if s.restoreMarkerExists then some input else none
    | .checksFlag (.claim input) | .transacts (.claim input) =>
      if s.db.restorePending then some input else none
    | _ => none
  | _ => none

/-- The condition on a step: a claim in progress is abandoned under its own operation, and no claim of a
    completed key is refused for the restore gate. -/
def OwnOperation (strict : Bool) (s : State V) (a : Action V) : Prop :=
  (∀ input ∈ abandoning s a, ∀ row ∈ s.db.claims.get (input.at P), row.state = .inProgress →
    row.fingerprint = input.fingerprint → NamesOwn strict row.operation input.operation) ∧
  ∀ input ∈ gateRefuses s a, Unfinished P s input

instance (strict : Bool) (s : State V) (a : Action V) : Decidable (OwnOperation P strict s a) :=
  inferInstanceAs (Decidable (_ ∧ _))

/-! ### The invariant -/

/-- A row is bound as its first claim was. -/
def Kept (strict : Bool) (first : Option String) (operation : String) : Prop :=
  operation = first.getD "" ∨ strict = false ∧ first = none

structure Inv (strict : Bool) (claims : ClaimTable) (generation : ℕ) (log : List (Event V)) : Prop where
  current : ∀ row ∈ claims.rows, row.generation = generation
  past : ∀ e ∈ log, e.generation ≤ generation
  named : ∀ e ∈ log, e.Fresh → e.mutation.input.operation ≠ some ""
  live : AtEach (fun _ e after => e.Fresh → e.generation = generation →
    (∃ a ∈ after, e.Abandons P a) ∨ ∃ row, claims.get (e.key P) = some row ∧ row.state ≠ .released ∧
      row.fingerprint = e.mutation.input.fingerprint) log
  kept : ∀ e ∈ log, e.Fresh → e.generation = generation →
    ∃ row, claims.get (e.key P) = some row ∧ Kept strict e.mutation.input.operation row.operation
  responses : ∀ key c input response, log.find? (Event.completes P generation key) = some c →
    c.mutation = .complete input response → ∃ row text, claims.get key = some row ∧
      row.state = .completed ∧ row.fingerprint = input.fingerprint ∧ row.response = some text ∧
        P.stringify response = some text
  completed : ∀ key row, claims.get key = some row → row.state = .completed →
    ∃ c, log.find? (Event.completes P generation key) = some c
  idempotent : Idempotent P strict log

variable {P} {strict : Bool} {claims after : ClaimTable} {generation : ℕ} {log : List (Event V)}
  {e : Event V}

theorem inv_init : Inv P strict .empty 1 ([] : List (Event V)) where
  current _ h := absurd h List.not_mem_nil
  past _ h := absurd h List.not_mem_nil
  named _ h := absurd h List.not_mem_nil
  live := atEach_nil
  kept _ h := absurd h List.not_mem_nil
  responses _ _ _ _ h := by cases h
  completed _ _ h := by cases h
  idempotent := ⟨atEach_nil, atEach_nil, atEach_nil⟩

theorem find_concat {p : Event V → Bool} (l : List (Event V)) (e : Event V) :
    (l ++ [e]).find? p = (l.find? p).or (if p e then some e else none) := by
  rw [List.find?_append, List.find?_singleton]

/-- An event that leaves the claims as they are: it grants nothing, and completes what was completed. -/
theorem Inv.quiet (h : Inv P strict claims generation log) (hgeneration : e.generation = generation)
    (hfresh : ¬ e.Fresh)
    (hcompletes : ∀ key, e.completes P generation key = true →
      ∃ row, claims.get key = some row ∧ row.state = .completed)
    (hreplays : ∀ input, e.mutation = .claim input → validateInput input = .ok () →
      ∀ c completed response, log.find? (Event.completes P generation (input.at P)) = some c →
        c.mutation = .complete completed response →
          Replayed P response (completed.fingerprint = input.fingerprint) e.result) :
    Inv P strict claims generation (log ++ [e]) := by
  have hfind : ∀ key c, (log ++ [e]).find? (Event.completes P generation key) = some c →
      log.find? (Event.completes P generation key) = some c := by
    intro key c hc
    rw [find_concat] at hc
    rcases hold : log.find? (Event.completes P generation key) with _ | c'
    · rw [hold, Option.none_or] at hc
      split at hc
      · rename_i hnew
        obtain ⟨row, hget, hstate⟩ := hcompletes key hnew
        obtain ⟨c', hc'⟩ := h.completed key row hget hstate
        rw [hold] at hc'
        cases hc'
      · cases hc
    · rwa [hold, Option.some_or] at hc
  refine ⟨h.current, ?_, ?_, ?_, ?_, ?_, ?_, ?_, ?_, ?_⟩
  · intro e' he'
    rcases List.mem_append.mp he' with he' | he'
    · exact h.past e' he'
    · rw [List.mem_singleton.mp he']
      exact Nat.le_of_eq hgeneration
  · intro e' he' hnew
    rcases List.mem_append.mp he' with he' | he'
    · exact h.named e' he' hnew
    · exact absurd (List.mem_singleton.mp he' ▸ hnew) hfresh
  · refine atEach_concat.mpr ⟨h.live.imp fun _ first between hlive hnew hcurrent => ?_,
      fun hnew => absurd hnew hfresh⟩
    exact (hlive hnew hcurrent).imp_left fun ⟨a, ha, habandons⟩ =>
      ⟨a, List.mem_append_left _ ha, habandons⟩
  · intro e' he' hnew
    rcases List.mem_append.mp he' with he' | he'
    · exact h.kept e' he' hnew
    · exact absurd (List.mem_singleton.mp he' ▸ hnew) hfresh
  · intro key c input response hc
    exact h.responses key c input response (hfind key c hc)
  · intro key row hget hstate
    obtain ⟨c, hc⟩ := h.completed key row hget hstate
    exact ⟨c, by rw [find_concat, hc, Option.some_or]⟩
  · exact atEach_concat.mpr ⟨h.idempotent.once, fun hnew => absurd hnew hfresh⟩
  · rw [← hgeneration] at hreplays
    exact atEach_concat.mpr ⟨h.idempotent.replays, hreplays⟩
  · exact atEach_concat.mpr ⟨h.idempotent.bound, fun hnew => absurd hnew hfresh⟩

/-- What an event that changes the row of its key has to say of the row it found and of the new one. -/
structure Changes (P : Platform V) (strict : Bool) (claims after : ClaimTable) (e : Event V)
    (new : ClaimRow) : Prop where
  get : ∀ k, after.get k = if k = e.key P then some new else claims.get k
  generation : new.generation = e.generation
  unfinished : ∀ row, claims.get (e.key P) = some row → row.state ≠ .completed
  fresh : e.Fresh → e.mutation.input.operation ≠ some "" ∧ new.state ≠ .released ∧
    new.fingerprint = e.mutation.input.fingerprint ∧ new.operation = e.mutation.input.operation.getD ""
  reuses : e.Fresh → ∀ row, claims.get (e.key P) = some row → row.state = .released ∧
    row.operation ≠ "" ∧ e.mutation.input.operation = some row.operation
  live : ∀ row (first : Event V), claims.get (e.key P) = some row → row.state ≠ .released → first.SameKey P e →
    row.fingerprint = first.mutation.input.fingerprint →
      first.Abandons P e ∨ new.state ≠ .released ∧ new.fingerprint = row.fingerprint
  kept : ∀ row first, claims.get (e.key P) = some row → first ≠ some "" →
    Kept strict first row.operation → Kept strict first new.operation
  completes : ∀ key, e.completes P e.generation key = true → key = e.key P ∧
    ∃ input response text, e.mutation = .complete input response ∧ new.state = .completed ∧
      new.fingerprint = input.fingerprint ∧ new.response = some text ∧ P.stringify response = some text
  completed : new.state = .completed → e.completes P e.generation (e.key P) = true

theorem Inv.changes {new : ClaimRow} (h : Inv P strict claims generation log)
    (hgeneration : e.generation = generation) (hc : Changes P strict claims after e new) :
    Inv P strict after generation (log ++ [e]) := by
  subst hgeneration
  have hself : after.get (e.key P) = some new := by rw [hc.get, if_pos rfl]
  have hother : ∀ k, k ≠ e.key P → after.get k = claims.get k := fun k hk => by
    rw [hc.get, if_neg hk]
  -- the key of the event has not been completed
  have hnone : log.find? (Event.completes P e.generation (e.key P)) = none := by
    rcases hfind : log.find? (Event.completes P e.generation (e.key P)) with _ | c
    · rfl
    · have hcompletes := List.find?_some hfind
      rw [Event.completes] at hcompletes
      split at hcompletes
      · rename_i input response _ hmutation _
        obtain ⟨row, text, hget, hstate, -⟩ := h.responses _ c input response hfind hmutation
        exact absurd hstate (hc.unfinished row hget)
      · cases hcompletes
  have hfind : ∀ key, key ≠ e.key P → (log ++ [e]).find? (Event.completes P e.generation key) =
      log.find? (Event.completes P e.generation key) := by
    intro key hkey
    rw [find_concat, if_neg fun hnew => hkey (hc.completes key hnew).1, Option.or_none]
  have habandoned : AtEach (fun _ first between => first.Fresh → first.SameKey P e → e.Fresh →
      ∃ a ∈ between, first.Abandons P a) log := by
    refine h.live.imp fun _ first between hlive hfirst hsame hfresh => ?_
    rcases hlive hfirst hsame.1 with habandons | ⟨row, hget, hstate, -⟩
    · exact habandons
    · rw [hsame.2] at hget
      exact absurd (hc.reuses hfresh row hget).1 hstate
  refine ⟨?_, ?_, ?_, ?_, ?_, ?_, ?_, ?_, ?_, ?_⟩
  · intro row hrow
    have hget := Table.get_of_mem hrow
    rw [hc.get] at hget
    split at hget
    · cases hget
      exact hc.generation
    · exact h.current row (Table.get_eq_some.mp hget).1
  · intro e' he'
    rcases List.mem_append.mp he' with he' | he'
    · exact h.past e' he'
    · obtain rfl := List.mem_singleton.mp he'
      exact Nat.le_refl _
  · intro e' he' hfresh
    rcases List.mem_append.mp he' with he' | he'
    · exact h.named e' he' hfresh
    · obtain rfl := List.mem_singleton.mp he'
      exact (hc.fresh hfresh).1
  · refine atEach_concat.mpr ⟨h.live.imp fun _ first between hlive hfirst hcurrent => ?_,
      fun hfresh _ => .inr ⟨new, hself, (hc.fresh hfresh).2.1, (hc.fresh hfresh).2.2.1⟩⟩
    rcases hlive hfirst hcurrent with ⟨a, ha, habandons⟩ | ⟨row, hget, hstate, hfingerprint⟩
    · exact .inl ⟨a, List.mem_append_left _ ha, habandons⟩
    · by_cases hkey : first.key P = e.key P
      · rw [hkey] at hget ⊢
        rcases hc.live row first hget hstate ⟨hcurrent, hkey⟩ hfingerprint with habandons | ⟨hlive, hsame⟩
        · exact .inl ⟨e, List.mem_append_right _ (List.mem_singleton.mpr rfl), habandons⟩
        · exact .inr ⟨new, hself, hlive, hsame.trans hfingerprint⟩
      · exact .inr ⟨row, (hother _ hkey).trans hget, hstate, hfingerprint⟩
  · intro e' he' hfresh hcurrent
    rcases List.mem_append.mp he' with he' | he'
    · obtain ⟨row, hget, hkept⟩ := h.kept e' he' hfresh hcurrent
      by_cases hkey : e'.key P = e.key P
      · rw [hkey] at hget ⊢
        exact ⟨new, hself, hc.kept row _ hget (h.named e' he' hfresh) hkept⟩
      · exact ⟨row, (hother _ hkey).trans hget, hkept⟩
    · obtain rfl := List.mem_singleton.mp he'
      exact ⟨new, hself, .inl (hc.fresh hfresh).2.2.2⟩
  · intro key c input response hfound hmutation
    by_cases hkey : key = e.key P
    · subst hkey
      rw [find_concat, hnone, Option.none_or] at hfound
      split at hfound
      · rename_i hcompletes
        cases hfound
        obtain ⟨-, input', response', text, hmutation', hstate, hfingerprint, hresponse, htext⟩ :=
          hc.completes _ hcompletes
        rw [hmutation] at hmutation'
        cases hmutation'
        exact ⟨new, text, hself, hstate, hfingerprint, hresponse, htext⟩
      · cases hfound
    · rw [hfind key hkey] at hfound
      rw [hother key hkey]
      exact h.responses key c input response hfound hmutation
  · intro key row hget hstate
    by_cases hkey : key = e.key P
    · subst hkey
      rw [hself] at hget
      cases hget
      exact ⟨e, by rw [find_concat, hnone, Option.none_or, if_pos (hc.completed hstate)]⟩
    · rw [hother key hkey] at hget
      rw [hfind key hkey]
      exact h.completed key row hget hstate
  · exact atEach_concat.mpr ⟨h.idempotent.once, fun hfresh =>
      habandoned.imp fun _ first between habandons hfirst hsame => habandons hfirst hsame hfresh⟩
  · refine atEach_concat.mpr ⟨h.idempotent.replays, fun input hmutation _ c completed response hfound => ?_⟩
    have hkey : e.key P = input.at P := by rw [Event.key, hmutation]; rfl
    rw [← hkey, hnone] at hfound
    cases hfound
  · refine atEach_concat.mpr ⟨h.idempotent.bound, fun hfresh first hfirst hnew hsame => ?_⟩
    obtain ⟨row, hget, hkept⟩ := h.kept first hfirst hnew hsame.1
    rw [hsame.2] at hget
    obtain ⟨-, hoperation, hreuses⟩ := hc.reuses hfresh row hget
    rw [hreuses]
    refine hkept.imp (fun hrow => ?_) id
    rcases hnamed : first.mutation.input.operation with _ | named
    · rw [hnamed] at hrow
      exact absurd hrow hoperation
    · rw [hnamed] at hrow
      rw [hrow]
      rfl

/-! ### The calls -/

section Calls
variable {o : Options} {db : Db} {input : BatchIdempotencyInput} {now : ℤ} {gated : Bool}

theorem operation_ne_empty (h : validateInput input = .ok ()) : input.operation ≠ some "" := by
  intro hempty
  rw [validateInput, hempty] at h
  repeat' split at h
  all_goals first | (rename_i hoperation; exact hoperation (by decide)) | cases h

theorem Grants.reusable {after : ClaimTable} (h : Grants P o input now db after) {row : ClaimRow}
    (hget : db.claims.get (input.at P) = some row) : Reusable db input row := by
  rcases h with ⟨hnone, -⟩ | ⟨row', l, l', hsome, hreusable, -⟩
  · rw [hnone] at hget
    cases hget
  · rw [hsome] at hget
    cases hget
    exact hreusable

theorem Grants.changes {after : ClaimTable} (hvalid : validateInput input = .ok ())
    (h : Grants P o input now db after) :
    Changes P strict db.claims after ⟨.claim input, .ok (.claimed .fresh), db.generation, gated⟩
      (reserved P o input now db.generation) where
  get := h.get
  generation := rfl
  unfinished row hget hcompleted := by
    rw [(h.reusable hget).1] at hcompleted
    cases hcompleted
  fresh _ := ⟨operation_ne_empty hvalid, ClaimState.noConfusion, rfl, rfl⟩
  reuses _ row hget := ⟨(h.reusable hget).1, (h.reusable hget).2.2⟩
  live row _ hget hlive := absurd (h.reusable hget).1 hlive
  kept row first hget _ hkept := by
    have hsame : (reserved P o input now db.generation).operation = row.operation := by
      rw [reserved, (h.reusable hget).2.2.2]
      rfl
    rwa [hsame]
  completes _ hcompletes := by cases hcompletes
  completed hcompleted := by cases hcompleted

theorem Rewrites.completed {claims : ClaimTable} {row : ClaimRow} {text : String} {response : V}
    (hgeneration : row.generation = db.generation) (htext : P.stringify response = some text)
    (h : Rewrites P input db row (setCompleted now text row) claims) :
    Changes P strict db.claims claims ⟨.complete input response, .ok .void, db.generation, gated⟩
      (setCompleted now text row) where
  get := h.get
  generation := hgeneration
  unfinished row' hget hcompleted := by
    rw [Event.key, Mutation.input, h.stands] at hget
    cases hget
    rw [h.state] at hcompleted
    cases hcompleted
  fresh hfresh := by cases hfresh
  reuses hfresh := by cases hfresh
  live row' _ hget _ _ _ := by
    rw [Event.key, Mutation.input, h.stands] at hget
    cases hget
    exact .inr ⟨ClaimState.noConfusion, rfl⟩
  kept row' first hget _ hkept := by
    rw [Event.key, Mutation.input, h.stands] at hget
    cases hget
    exact hkept
  completes key hcompletes := by
    have hkey : input.at P = key := by simpa [Event.completes] using hcompletes
    exact ⟨hkey.symm, input, response, text, rfl, rfl, h.fingerprint, rfl, htext⟩
  completed _ := by simp [Event.completes, Event.key, Mutation.input]

theorem Rewrites.released {claims : ClaimTable} {row : ClaimRow}
    (hgeneration : row.generation = db.generation)
    (h : Rewrites P input db row (setReleased input.operation row) claims)
    (hown : NamesOwn strict row.operation input.operation) :
    Changes P strict db.claims claims ⟨.abandon input, .ok .void, db.generation, gated⟩
      (setReleased input.operation row) where
  get := h.get
  generation := hgeneration
  unfinished row' hget hcompleted := by
    rw [Event.key, Mutation.input, h.stands] at hget
    cases hget
    rw [h.state] at hcompleted
    cases hcompleted
  fresh hfresh := by cases hfresh
  reuses hfresh := by cases hfresh
  live row' first hget _ hsame hfingerprint := by
    rw [Event.key, Mutation.input, h.stands] at hget
    cases hget
    exact .inl ⟨⟨input, rfl⟩, rfl, hsame, h.fingerprint.symm.trans hfingerprint⟩
  kept row' first hget hnamed hkept := by
    rw [Event.key, Mutation.input, h.stands] at hget
    cases hget
    change Kept strict first (input.operation.getD row.operation)
    rcases hown with hnone | hsome | ⟨hstrict, hempty⟩
    · rwa [hnone]
    · rwa [hsome]
    · refine .inr ⟨hstrict, ?_⟩
      rcases hkept with hkept | ⟨-, hfirst⟩
      · rcases first with _ | operation
        · rfl
        · rw [hempty] at hkept
          exact absurd (congrArg some hkept.symm) hnamed
      · exact hfirst
  completes _ hcompletes := by cases hcompletes
  completed hcompleted := by cases hcompleted

/-- What a claim that grants nothing answers for a completed key. -/
theorem Inv.replayed (h : Inv P strict db.claims db.generation log) (o : Options) (now : ℤ)
    (hvalid : validateInput input = .ok ())
    (hgate : db.restorePending = true → ∀ row ∈ db.claims.get (input.at P), row.state ≠ .completed)
    {c : Event V} {completed : BatchIdempotencyInput} {response : V}
    (hfound : log.find? (Event.completes P db.generation (input.at P)) = some c)
    (hmutation : c.mutation = .complete completed response) :
    Replayed P response (completed.fingerprint = input.fingerprint)
      (perform P o (.claim input) now db).1 := by
  obtain ⟨row, text, hget, hstate, hfingerprint, hresponse, htext⟩ :=
    h.responses _ c completed response hfound hmutation
  have hopen : db.restorePending = false := by
    refine Bool.eq_false_iff.mpr fun hclosed => ?_
    exact hgate hclosed row hget hstate
  obtain ⟨v, hv⟩ := Option.isSome_iff_exists.mp (P.parse_stringify response text htext)
  have hclaim := claim_of_completed o now hvalid hopen hget
    (h.current row (Table.get_eq_some.mp hget).1) hstate hresponse hv
  rw [hfingerprint] at hclaim
  refine ⟨fun hsame => ⟨text, v, htext, hv, ?_⟩, fun hother => ⟨differentRequest, ?_, rfl⟩⟩
  · change (claim P o input now db).1.map _ = _
    rw [hclaim, if_pos hsame]
    rfl
  · change (claim P o input now db).1.map _ = _
    rw [hclaim, if_neg hother]
    rfl

theorem Inv.performed (h : Inv P strict db.claims db.generation log) (mutation : Mutation V) (now : ℤ)
    (hown : ∀ input, mutation = .abandon input → ∀ row ∈ db.claims.get (input.at P),
      row.state = .inProgress → row.fingerprint = input.fingerprint →
        NamesOwn strict row.operation input.operation)
    (hgate : ∀ input, mutation = .claim input → db.restorePending = true →
      ∀ row ∈ db.claims.get (input.at P), row.state ≠ .completed) :
    Inv P strict (perform P o mutation now db).2.claims (perform P o mutation now db).2.generation
      (log ++ [⟨mutation, (perform P o mutation now db).1, db.generation, gated⟩]) := by
  cases mutation with
  | claim input =>
    have hquiet : (perform P o (.claim input) now db).2 = db →
        ¬ Event.Fresh ⟨.claim input, (perform P o (.claim input) now db).1, db.generation, gated⟩ →
          Inv P strict (perform P o (.claim input) now db).2.claims
            (perform P o (.claim input) now db).2.generation
            (log ++ [⟨.claim input, (perform P o (.claim input) now db).1, db.generation, gated⟩]) := by
      intro hdb hfresh
      rw [hdb]
      refine h.quiet rfl hfresh (fun _ hcompletes => by cases hcompletes) ?_
      rintro _ ⟨⟩ hvalid c completed response hfound hmutation
      exact h.replayed o now hvalid (hgate input rfl) hfound hmutation
    rcases claim_cases P o input now db with ⟨e, he⟩ | ⟨v, row, hv, -⟩ | ⟨claims, hok, hvalid, -, hgrants⟩
    · refine hquiet (by rw [perform, he]) ?_
      rw [perform, he]
      rintro ⟨⟩
    · refine hquiet (by rw [perform, hv]) ?_
      rw [perform, hv]
      rintro ⟨⟩
    · rw [perform, hok]
      exact h.changes rfl (hgrants.changes hvalid)
  | complete input response =>
    rcases complete_cases P o input response now db with
      ⟨e, he⟩ | ⟨hok, row, hget, -, -, hstate⟩ | ⟨text, row, claims, hok, htext, -, hrewrites⟩
    · rw [perform, he]
      exact h.quiet rfl (by rintro ⟨⟩) (by rintro _ ⟨⟩) (by rintro _ ⟨⟩)
    · rw [perform, hok]
      refine h.quiet rfl (by rintro ⟨⟩) (fun key hkey => ⟨row, ?_, hstate⟩) (by rintro _ ⟨⟩)
      have hkey : input.at P = key := by simpa [Event.completes, Except.map] using hkey
      exact hkey ▸ hget
    · rw [perform, hok]
      exact h.changes rfl (hrewrites.completed hrewrites.generation htext)
  | abandon input =>
    rcases abandon_cases P input db with ⟨e, he⟩ | ⟨hok, -⟩ | ⟨row, claims, hok, hrewrites⟩
    · rw [perform, he]
      exact h.quiet rfl (by rintro ⟨⟩) (by rintro _ ⟨⟩) (by rintro _ ⟨⟩)
    · rw [perform, hok]
      exact h.quiet rfl (by rintro ⟨⟩) (by rintro _ ⟨⟩) (by rintro _ ⟨⟩)
    · rw [perform, hok]
      exact h.changes rfl (hrewrites.released hrewrites.generation
        (hown input rfl row hrewrites.stands hrewrites.state hrewrites.fingerprint))

end Calls

/-- A new generation knows of no event. -/
theorem Inv.invalidated (h : Inv P strict claims generation log) :
    Inv P strict .empty (generation + 1) log := by
  have hnone : ∀ e ∈ log, e.generation ≠ generation + 1 := fun e he heq => by
    have := h.past e he
    omega
  have hfind : ∀ key, log.find? (Event.completes P (generation + 1) key) = none := by
    refine fun key => List.find?_eq_none.mpr fun e he hcompletes => ?_
    rw [Event.completes] at hcompletes
    split at hcompletes
    · simp only [Bool.and_eq_true, decide_eq_true_eq] at hcompletes
      exact hnone e he hcompletes.1
    · cases hcompletes
  refine ⟨fun _ hrow => absurd hrow List.not_mem_nil, fun e he => Nat.le_succ_of_le (h.past e he),
    h.named, ?_, ?_, ?_, ?_, h.idempotent⟩
  · intro before e between hlog _ hcurrent
    exact absurd hcurrent (hnone e (by rw [hlog]; simp))
  · intro e he _ hcurrent
    exact absurd hcurrent (hnone e he)
  · intro key c input response hc
    rw [hfind] at hc
    cases hc
  · intro key row hget
    cases hget

theorem inv_step {o : Options} {s t : State V} {a : Action V}
    (h : Inv P strict s.db.claims s.db.generation s.log) (hown : OwnOperation P strict s a)
    (hstep : step P o s a = some t) : Inv P strict t.db.claims t.db.generation t.log := by
  cases step_effect hstep with
  | none hclaims hgeneration hlog =>
    rw [hclaims, hgeneration, hlog]
    exact h
  | turnedAway mutation haway hdb hlog =>
    rw [hdb, hlog]
    refine h.quiet rfl (by rintro ⟨⟩) (fun key hkey => ?_) ?_
    · cases mutation <;> cases hkey
    · rintro input rfl hvalid c completed response hfound hmutation
      obtain ⟨row, text, hget, hstate, -⟩ := h.responses _ c completed response hfound hmutation
      obtain ⟨caller, now, rfl, ⟨hphase, hpending⟩ | ⟨hphase, hpending⟩⟩ := haway
      all_goals
        have hrefuses := hown.2 input (by simp only [gateRefuses, hphase, hpending]; rfl)
        exact absurd hstate (hrefuses row hget)
  | performs caller now mutation haction hphase hdb hlog =>
    subst haction
    rw [hdb, hlog]
    refine h.performed mutation now ?_ ?_
    · rintro input rfl
      exact hown.1 input (by simp only [abandoning, hphase]; rfl)
    · rintro input rfl hpending
      exact hown.2 input (by simp only [gateRefuses, hphase, hpending]; rfl)
  | invalidates hdb hlog =>
    rw [hdb, hlog]
    exact h.invalidated

/-- In every run in which a claim is abandoned under its own operation, and no claim of a completed key
    meets the restore gate, the ledger is idempotent. -/
theorem at_most_one_live (P : Platform V) (o : Options) (strict : Bool) (as : List (Action V))
    (hown : Along (step P o) (OwnOperation P strict) init as) :
    Everywhere (step P o) (fun s => Idempotent P strict s.log) init as :=
  everywhere_of_along (fun _ _ _ h hown hstep => inv_step h hown hstep) (fun _ h => h.idempotent) as
    inv_init hown

/-- Claimed for one operation, released, claimed again and completed: the request after that replays, and
    another request conflicts. -/
def retried : List (Action Bool) :=
  callAlone (.mutate (.claim (request "a" (some "store")))) 3 ++
  callAlone (.mutate (.abandon (request "a" (some "store")))) 3 ++
  callAlone (.mutate (.claim (request "a" (some "store")))) 3 ++
  callAlone (.mutate (.complete (request "a" (some "store")) true)) 3 ++
  callAlone (.mutate (.claim (request "a" (some "store")))) 3 ++
  callAlone (.mutate (.claim ⟨digestOf 'a', "a", digestOf 'e', some "store"⟩)) 3

theorem at_most_one_live_retried :
    Everywhere (step booleans single) (fun s => Idempotent booleans true s.log) init retried :=
  at_most_one_live booleans single true retried (by decide +kernel)

/-- Claimed for one operation and abandoned under another. -/
def rebound : List (Action Bool) :=
  callAlone (.mutate (.claim (request "a" (some "store")))) 3 ++
  callAlone (.mutate (.abandon (request "a" (some "delete")))) 3 ++
  callAlone (.mutate (.claim (request "a" (some "delete")))) 3

/-- The key is granted for both operations. -/
theorem abandon_rebinds : ¬ Everywhere (step booleans single)
    (fun s => Idempotent booleans false s.log) init rebound := by
  refine not_everywhere (fun s => s.log = [
    ⟨.claim (request "a" (some "store")), .ok (.claimed .fresh), 1, false⟩,
    ⟨.abandon (request "a" (some "delete")), .ok .void, 1, false⟩,
    ⟨.claim (request "a" (some "delete")), .ok (.claimed .fresh), 1, false⟩])
    (by decide +kernel) fun t ht h => ?_
  have hbound := h.bound
  rw [of_decide_eq_true ht] at hbound
  have hsame := hbound [_, _] _ [] rfl (.mk _ _ _) _ (List.mem_cons_self ..) (.mk _ _ _) ⟨rfl, rfl⟩
  exact absurd hsame (by simp [Bound, Mutation.input, request])

end Remembra.Idempotency
