import Remembra.Idempotency.Batch
import Remembra.Idempotency.Store
import Remembra.Lib.History

/-! Keyed batches of any callers over one ledger. Each caller serves one request; its program stops at each
    question, and a step of the machine answers one question of one caller, so that the callers interleave
    in any way and any of them may never go on again. What the ledger answers is what its calls come to;
    all other answers come from outside, and so does what happens to the restore gate.

    Beside the ledger, the log keeps the responses that were stored and those that were returned again. -/

namespace Remembra.Idempotency.Keyed
open TenantMigration (SameJson)
open Transition

inductive Entry where
  | completed (caller : ℕ) (response : BatchResult)
  | replayed (caller : ℕ) (response : BatchResult)
  deriving DecidableEq

def Entry.caller : Entry → ℕ
  | .completed caller _ | .replayed caller _ => caller

/-- The ledger, the marker of its restore gate and the log. -/
structure World where
  db : Db
  marker : Bool
  log : List Entry

structure State where
  programs : ℕ → Option (Act BatchResult)
  world : World

/-- What is answered from outside, and the time. -/
structure HostAnswer where
  checked : Except RemembraError Unit
  executed : Except RemembraError BatchResult
  now : ℤ

/-- What may happen to the restore gate. -/
inductive GateStep where
  | marks (present : Bool)
  | flags (pending : Bool)
  | invalidates

inductive Action where
  | arrives (caller : ℕ)
  | goesOn (caller : ℕ) (host : HostAnswer)
  | gate (change : GateStep)

def World.restorePending (w : World) : Bool := w.marker || w.db.restorePending

/-- The log after the answer to a claim. -/
def replays (caller : ℕ) : Except RemembraError (BatchIdempotencyClaim BatchResult) → List Entry
  | .ok (.replay response) => [.replayed caller response]
  | _ => []

def completes (caller : ℕ) (response : BatchResult) : Except RemembraError Unit → List Entry
  | .ok () => [.completed caller response]
  | .error _ => []

def GateStep.apply (w : World) : GateStep → World
  | .marks present => { w with marker := present }
  | .flags pending => { w with db := { w.db with restorePending := pending } }
  | .invalidates => { w with db := (invalidate w.db).2 }

def init : State := ⟨fun _ => none, ⟨.new, false, []⟩⟩

section Step
variable (P : Platform BatchResult) (o : Options)

/-- The answer to a question of a caller, and the world after it. -/
def answer (caller : ℕ) (host : HostAnswer) : (q : Ask) → World → q.Answer × World
  | .refresh, w => (host.checked, w)
  | .authorize _, w => (host.checked, w)
  | .execute, w => (host.executed, w)
  | .claim input, w =>
    if w.restorePending then (.error restoreIsPending, w)
    else
      let (result, db) := claim P o input host.now w.db
      (result, { w with db := db, log := w.log ++ replays caller result })
  | .complete input response, w =>
    if w.restorePending then (.error restoreIsPending, w)
    else
      let (result, db) := complete P o input response host.now w.db
      (result, { w with db := db, log := w.log ++ completes caller response result })
  | .abandon input, w =>
    if w.restorePending then (.error restoreIsPending, w)
    else
      let (result, db) := abandon P input w.db
      (result, { w with db := db })

variable (C : Crypto) (requests : ℕ → KeyedBatch)

def step (s : State) : Action → Option State
  | .arrives caller =>
    match s.programs caller with
    | none => some { s with
        programs := Function.update s.programs caller (some (serve C P (requests caller))) }
    | some _ => none
  | .goesOn caller host =>
    match s.programs caller with
    | some (.ask q next) =>
      let (a, w) := answer P o caller host q s.world
      some ⟨Function.update s.programs caller (some (next a)), w⟩
    | _ => none
  | .gate change => some { s with world := change.apply s.world }

end Step

/-! ### What a program asks and returns -/

section Programs
variable {C : Crypto} {P : Platform BatchResult} {o : Options}

/-- The input of a question to the ledger. -/
def Ask.input : Ask → Option BatchIdempotencyInput
  | .claim input | .complete input _ | .abandon input => some input
  | _ => none

/-- The claim of a request, where its scope is computed. -/
def Claims (C : Crypto) (batch : KeyedBatch) (input : BatchIdempotencyInput) : Prop :=
  ∃ scope, idempotencyScopeFor C batch.apiKey batch.credentialScope batch.tenant batch.agentId = .ok scope ∧
    input = batch.input C scope

/-- A question of a request to the ledger is about its own claim. -/
def OwnInput (C : Crypto) (batch : KeyedBatch) (q : Ask) : Prop :=
  ∀ input, Ask.input q = some input → Claims C batch input

/-- The replays that a program was told of are in the log. -/
def Told (caller : ℕ) (log : List Entry) : (q : Ask) → q.Answer → Prop
  | .claim _, a => ∀ response, a = .ok (.replay response) → .replayed caller response ∈ log
  | _, _ => True

/-- A response that is marked as a replay was one. -/
def Marked (caller : ℕ) (log : List Entry) (result : BatchResult) : Prop :=
  result.idempotency = .replayed → ∃ response, result = replayed response ∧ .replayed caller response ∈ log

theorem settle_ensures {batch : KeyedBatch} {input : BatchIdempotencyInput} (hinput : Claims C batch input)
    (caller : ℕ) (log : List Entry) (result : BatchResult) :
    (settle P batch input result).Ensures (Told caller log) (OwnInput C batch) (Marked caller log) := by
  have hown : ∀ q, Ask.input q = some input → OwnInput C batch q := by
    rintro q hq _ hq'
    rw [hq] at hq'
    cases hq'
    exact hinput
  unfold settle
  split
  · split
    · exact ⟨hown _ rfl, fun _ _ => trivial⟩
    · trivial
  split
  · trivial
  split
  · trivial
  · refine ⟨hown _ rfl, fun a _ => ?_⟩
    cases a with
    | error e => trivial
    | ok _ => rintro ⟨⟩

theorem claimed_ensures {batch : KeyedBatch} {input : BatchIdempotencyInput} (hinput : Claims C batch input)
    (caller : ℕ) (log : List Entry) {claim : BatchIdempotencyClaim BatchResult}
    (htold : ∀ response, claim = .replay response → .replayed caller response ∈ log) :
    (claimed P batch input claim).Ensures (Told caller log) (OwnInput C batch) (Marked caller log) := by
  cases claim with
  | fresh =>
    refine ⟨by rintro _ ⟨⟩, fun a _ => ?_⟩
    cases a with
    | error e => trivial
    | ok result => exact settle_ensures hinput caller log result
  | replay response =>
    refine ⟨by rintro _ ⟨⟩, fun a _ => ?_⟩
    cases a with
    | error e => trivial
    | ok _ =>
      change Prog.Ensures _ _ _ (if _ then _ else _)
      split
      · trivial
      · exact fun _ => ⟨response, rfl, htold response rfl⟩

theorem serve_ensures (C : Crypto) (P : Platform BatchResult) (batch : KeyedBatch) (caller : ℕ)
    (log : List Entry) :
    (serve C P batch).Ensures (Told caller log) (OwnInput C batch) (Marked caller log) := by
  have hquiet : ∀ q, Ask.input q = none → OwnInput C batch q := by
    rintro q hq _ hq'
    rw [hq] at hq'
    cases hq'
  unfold serve
  refine Prog.ensures_bind (R := fun scope => idempotencyScopeFor C batch.apiKey batch.credentialScope
    batch.tenant batch.agentId = .ok scope) (Prog.ensures_ofExcept fun _ h => h) fun scope hscope => ?_
  have hrest : (do
      Prog.ofExcept (checkKeyed batch scope)
      Act.authorize false
      claimed P batch (batch.input C scope) (← Act.claim (batch.input C scope)) : Act BatchResult).Ensures
        (Told caller log) (OwnInput C batch) (Marked caller log) := by
    refine Prog.ensures_bind (Prog.ensures_ofExcept (R := fun _ => True) fun _ _ => trivial) fun _ _ => ?_
    refine ⟨hquiet _ rfl, fun a _ => ?_⟩
    cases a with
    | error e => trivial
    | ok _ =>
      refine ⟨?_, fun a htold => ?_⟩
      · rintro _ ⟨⟩
        exact ⟨scope, hscope, rfl⟩
      cases a with
      | error e => trivial
      | ok claim =>
        exact claimed_ensures ⟨scope, hscope, rfl⟩ caller log fun response hclaim =>
          htold response (congrArg Except.ok hclaim)
  split
  · refine ⟨hquiet _ rfl, fun a _ => ?_⟩
    cases a with
    | error e => trivial
    | ok _ => exact hrest
  · exact hrest

/-- No claim is asked for. -/
def NoClaim (q : Ask) : Prop := ∀ input, q ≠ .claim input

/-- At most one claim is asked for, and nothing is completed before it. -/
def Once : Act BatchResult → Prop
  | .done _ | .fail _ => True
  | .ask q next =>
    match q with
    | .claim _ => ∀ a, (next a).Only NoClaim
    | .complete _ _ => False
    | _ => ∀ a, Once (next a)

theorem claimed_only (batch : KeyedBatch) (input : BatchIdempotencyInput)
    (claim : BatchIdempotencyClaim BatchResult) : (claimed P batch input claim).Only NoClaim := by
  cases claim with
  | fresh =>
    refine ⟨by rintro _ ⟨⟩, fun a => Prog.only_bind (Prog.only_ofExcept a) fun result => ?_⟩
    unfold settle
    split
    · split
      · exact ⟨by rintro _ ⟨⟩, fun _ => trivial⟩
      · trivial
    split
    · trivial
    split
    · trivial
    · exact ⟨by rintro _ ⟨⟩, fun a => Prog.only_bind (Prog.only_ofExcept a) fun _ => trivial⟩
  | replay response =>
    refine ⟨by rintro _ ⟨⟩, fun a => Prog.only_bind (Prog.only_ofExcept a) fun _ => ?_⟩
    change Prog.Only _ (if _ then _ else _)
    split <;> trivial

theorem serve_once (C : Crypto) (P : Platform BatchResult) (batch : KeyedBatch) : Once (serve C P batch) := by
  have hafter : ∀ scope, Once (do
      Prog.ofExcept (checkKeyed batch scope)
      Act.authorize false
      claimed P batch (batch.input C scope) (← Act.claim (batch.input C scope))) := by
    intro scope
    cases checkKeyed batch scope with
    | error e => trivial
    | ok _ =>
      intro a
      cases a with
      | error e => trivial
      | ok _ => exact fun a => Prog.only_bind (Prog.only_ofExcept a) fun _ => claimed_only batch _ _
  unfold serve
  cases idempotencyScopeFor C batch.apiKey batch.credentialScope batch.tenant batch.agentId with
  | error e => trivial
  | ok scope =>
    change Once (if _ then _ else _)
    split
    · intro a
      cases a with
      | error e => trivial
      | ok _ => exact hafter scope
    · exact hafter scope

end Programs

/-! ### What a step does -/

section Steps
variable {C : Crypto} {P : Platform BatchResult} {o : Options} {requests : ℕ → KeyedBatch} {s t : State}

theorem step_cases {a : Action} (h : step P o C requests s a = some t) :
    (∃ caller, a = .arrives caller ∧ s.programs caller = none ∧ t = { s with
      programs := Function.update s.programs caller (some (serve C P (requests caller))) }) ∨
    (∃ caller host q next, a = .goesOn caller host ∧ s.programs caller = some (.ask q next) ∧
      t = ⟨Function.update s.programs caller (some (next (answer P o caller host q s.world).1)),
        (answer P o caller host q s.world).2⟩) ∨
    ∃ change, a = .gate change ∧ t = { s with world := change.apply s.world } := by
  cases a with
  | arrives caller =>
    rw [step] at h
    split at h
    · rename_i hfree
      exact .inl ⟨caller, rfl, hfree, (Option.some.inj h).symm⟩
    · cases h
  | goesOn caller host =>
    rw [step] at h
    split at h
    · rename_i q next hprogram
      exact .inr (.inl ⟨caller, host, q, next, rfl, hprogram, (Option.some.inj h).symm⟩)
    · cases h
  | gate change => exact .inr (.inr ⟨change, rfl, (Option.some.inj h).symm⟩)

/-- A program is told what the log tells. -/
theorem answer_told (P : Platform BatchResult) (o : Options) (caller : ℕ) (host : HostAnswer) (q : Ask)
    (w : World) : Told caller (answer P o caller host q w).2.log q (answer P o caller host q w).1 := by
  cases q with
  | claim input =>
    rintro response hclaim
    rw [answer] at hclaim ⊢
    split at hclaim
    · cases hclaim
    · rename_i hopen
      rw [if_neg hopen]
      change (claim P o input host.now w.db).1 = _ at hclaim
      change _ ∈ w.log ++ replays caller (claim P o input host.now w.db).1
      rw [hclaim]
      exact List.mem_append_right _ (List.mem_singleton.mpr rfl)
  | _ => trivial

/-- What the answer to a question of a caller does to the claims and to the log. -/
inductive Effect (P : Platform BatchResult) (o : Options) (caller : ℕ) (now : ℤ) (w w' : World) (q : Ask) :
    Prop where
  | none (world : w' = w)
  | replays (input : BatchIdempotencyInput) (response : BatchResult) (row : ClaimRow) (text : String)
      (question : q = .claim input) (world : w' = { w with log := w.log ++ [.replayed caller response] })
      (get : w.db.claims.get (input.at P) = some row) (state : row.state = .completed)
      (fingerprint : row.fingerprint = input.fingerprint) (stored : row.response = some text)
      (parse : P.parse text = some response)
  | grants (input : BatchIdempotencyInput) (claims : ClaimTable) (question : q = .claim input)
      (world : w' = { w with db := { w.db with claims := claims } })
      (grants : Grants P o input now w.db claims)
  | again (input : BatchIdempotencyInput) (response : BatchResult) (question : q = .complete input response)
      (world : w' = { w with log := w.log ++ [.completed caller response] })
  | completes (input : BatchIdempotencyInput) (response : BatchResult) (text : String) (row : ClaimRow)
      (claims : ClaimTable) (question : q = .complete input response)
      (world : w' = ⟨{ w.db with claims := claims }, w.marker, w.log ++ [.completed caller response]⟩)
      (stringify : P.stringify response = some text)
      (rewrites : Rewrites P input w.db row (setCompleted now text row) claims)
  | abandons (input : BatchIdempotencyInput) (row : ClaimRow) (claims : ClaimTable)
      (question : q = .abandon input) (world : w' = { w with db := { w.db with claims := claims } })
      (rewrites : Rewrites P input w.db row (setReleased input.operation row) claims)

theorem answer_effect (P : Platform BatchResult) (o : Options) (caller : ℕ) (host : HostAnswer) (q : Ask)
    (w : World) : Effect P o caller host.now w (answer P o caller host q w).2 q := by
  cases q with
  | refresh => exact .none rfl
  | authorize replay => exact .none rfl
  | execute => exact .none rfl
  | claim input =>
    rw [answer]
    split
    · exact .none rfl
    rcases claim_cases P o input host.now w.db with ⟨e, he⟩ | ⟨v, -, hv, -⟩ | ⟨claims, hok, -, -, hgrants⟩
    · rw [he]
      exact .none (congrArg (World.mk w.db w.marker) (List.append_nil w.log))
    · obtain ⟨row, text, hget, hstate, hfingerprint, htext, hparse⟩ :=
        claim_replay (v := v) (by rw [hv])
      rw [hv]
      exact .replays input v row text rfl rfl hget hstate hfingerprint htext hparse
    · rw [hok]
      exact .grants input claims rfl
        (congrArg (World.mk { w.db with claims := claims } w.marker) (List.append_nil w.log)) hgrants
  | complete input response =>
    rw [answer]
    split
    · exact .none rfl
    rcases complete_cases P o input response host.now w.db with
      ⟨e, he⟩ | ⟨hok, -⟩ | ⟨text, row, claims, hok, htext, -, hrewrites⟩
    · rw [he]
      exact .none (congrArg (World.mk w.db w.marker) (List.append_nil w.log))
    · rw [hok]
      exact .again input response rfl rfl
    · rw [hok]
      exact .completes input response text row claims rfl rfl htext hrewrites
  | abandon input =>
    rw [answer]
    split
    · exact .none rfl
    rcases abandon_cases P input w.db with ⟨e, he⟩ | ⟨hok, -⟩ | ⟨row, claims, hok, hrewrites⟩
    · rw [he]
      exact .none rfl
    · rw [hok]
      exact .none rfl
    · rw [hok]
      exact .abandons input row claims rfl rfl hrewrites

end Steps

/-! ### Replays -/

/-- One principal, one key, one request up to the order of its properties. -/
structure SameRequest (batch batch' : KeyedBatch) : Prop where
  principal : ∃ p, batch.principal = .ok p ∧ batch'.principal = .ok p
  key : batch.idempotencyKey = batch'.idempotencyKey
  request : SameJson batch.request.value batch'.request.value

section Replays
variable {C : Crypto} {P : Platform BatchResult} {o : Options} {requests : ℕ → KeyedBatch}

/-- A claim is made under the scope of the principal that sends the request. -/
theorem Claims.scope {batch : KeyedBatch} {input : BatchIdempotencyInput} (h : Claims C batch input) :
    ∃ p, batch.principal = .ok p ∧ input.scope = p.scope C := by
  obtain ⟨scope, hscope, rfl⟩ := h
  obtain ⟨credential, hcredential, heffective⟩ := effectiveScope_eq hscope
  exact ⟨_, by rw [KeyedBatch.principal, hcredential]; rfl, heffective⟩

/-- What the ledger tells requests apart by is all of them. -/
theorem sameRequest_of_claims (hC : CollisionFree C) (hdigest : P.digest = C.sha256) {batch batch' : KeyedBatch}
    {input input' : BatchIdempotencyInput} (h : Claims C batch input) (h' : Claims C batch' input')
    (hkey : input.at P = input'.at P) (hfingerprint : input.fingerprint = input'.fingerprint) :
    SameRequest batch batch' := by
  obtain ⟨p, hp, hscope⟩ := h.scope
  obtain ⟨p', hp', hscope'⟩ := h'.scope
  obtain ⟨hscopes, hkeys⟩ := Prod.mk.inj hkey
  obtain rfl : p = p' := scope_injective hC (hscope.symm.trans (hscopes.trans hscope'))
  obtain ⟨scope, -, rfl⟩ := h
  obtain ⟨scope', -, rfl⟩ := h'
  refine ⟨⟨p, hp, hp'⟩, ?_, ?_⟩
  · rw [hdigest] at hkeys
    exact hC.digest hkeys
  · exact ((fingerprint_eq_iff hC batch.request.json batch'.request.json).mp hfingerprint).2

/-- The request of another caller that a response comes from. -/
def Produced (P : Platform BatchResult) (requests : ℕ → KeyedBatch) (before : List Entry) (caller : ℕ)
    (response : BatchResult) : Prop :=
  ∃ caller' response' text, caller' ≠ caller ∧ .completed caller' response' ∈ before ∧
    SameRequest (requests caller') (requests caller) ∧ P.stringify response' = some text ∧
      P.parse text = some response

/-- A completed row holds the response of a request that claimed it. -/
def Backed (C : Crypto) (P : Platform BatchResult) (requests : ℕ → KeyedBatch) (log : List Entry)
    (row : ClaimRow) : Prop :=
  ∃ caller response text input, .completed caller response ∈ log ∧ P.stringify response = some text ∧
    row.response = some text ∧ Claims C (requests caller) input ∧ row.key = input.at P ∧
      row.fingerprint = input.fingerprint

structure Inv (C : Crypto) (P : Platform BatchResult) (requests : ℕ → KeyedBatch) (s : State) : Prop where
  programs : ∀ caller p, s.programs caller = some p → ∀ log, s.world.log ⊆ log →
    p.Ensures (Told caller log) (OwnInput C (requests caller)) (Marked caller log)
  once : ∀ caller p, s.programs caller = some p →
    p.Only NoClaim ∨ Once p ∧ ∀ e ∈ s.world.log, e.caller ≠ caller
  silent : ∀ caller, s.programs caller = none → ∀ e ∈ s.world.log, e.caller ≠ caller
  backed : ∀ row ∈ s.world.db.claims.rows, row.state = .completed →
    Backed C P requests s.world.log row
  replays : AtEach (fun before e _ => ∀ caller response, e = .replayed caller response →
    Produced P requests before caller response) s.world.log

theorem inv_init : Inv C P requests init where
  programs _ _ h := by cases h
  once _ _ h := by cases h
  silent _ _ _ h := absurd h List.not_mem_nil
  backed _ h := absurd h List.not_mem_nil
  replays := atEach_nil

theorem Backed.mono {log log' : List Entry} {row : ClaimRow} (h : Backed C P requests log row)
    (hsub : log ⊆ log') : Backed C P requests log' row := by
  obtain ⟨caller, response, text, input, hmem, hrest⟩ := h
  exact ⟨caller, response, text, input, hsub hmem, hrest⟩

/-- What an answer adds to the log is of its caller; only a claim and a completion add anything. -/
theorem Effect.log {caller : ℕ} {now : ℤ} {w w' : World} {q : Ask} (h : Effect P o caller now w w' q) :
    ∃ l, w'.log = w.log ++ l ∧ (∀ e ∈ l, e.caller = caller) ∧
      (l = [] ∨ (∃ input, q = .claim input) ∨ ∃ input response, q = .complete input response) := by
  cases h with
  | none world => exact ⟨[], by rw [world, List.append_nil], by simp, .inl rfl⟩
  | replays input response row text question world => exact ⟨_, by rw [world], by simp [Entry.caller],
      .inr (.inl ⟨input, question⟩)⟩
  | grants input claims question world => exact ⟨[], by rw [world, List.append_nil], by simp, .inl rfl⟩
  | again input response question world => exact ⟨_, by rw [world], by simp [Entry.caller],
      .inr (.inr ⟨input, response, question⟩)⟩
  | completes input response text row claims question world => exact ⟨_, by rw [world],
      by simp [Entry.caller], .inr (.inr ⟨input, response, question⟩)⟩
  | abandons input row claims question world => exact ⟨[], by rw [world, List.append_nil], by simp, .inl rfl⟩

theorem Told.mono {caller : ℕ} {log log' : List Entry} {q : Ask} {a : q.Answer} (h : Told caller log q a)
    (hsub : log ⊆ log') : Told caller log' q a := by
  cases q with
  | claim input => exact fun response hclaim => hsub (h response hclaim)
  | _ => trivial

/-- The program that remains after an answer. -/
theorem once_next {caller : ℕ} {now : ℤ} {w w' : World} {q : Ask} {next : q.Answer → Act BatchResult}
    (heffect : Effect P o caller now w w' q)
    (h : (Prog.ask q next).Only NoClaim ∨ Once (.ask q next) ∧ ∀ e ∈ w.log, e.caller ≠ caller)
    (a : q.Answer) : (next a).Only NoClaim ∨ Once (next a) ∧ ∀ e ∈ w'.log, e.caller ≠ caller := by
  rcases h with honly | ⟨honce, hsilent⟩
  · exact .inl (honly.2 a)
  obtain ⟨l, hlog, -, rfl | ⟨input, rfl⟩ | ⟨input, response, rfl⟩⟩ := heffect.log
  · rw [hlog, List.append_nil]
    cases q with
    | claim input => exact .inl (honce a)
    | complete input response => exact honce.elim
    | _ => exact .inr ⟨honce a, hsilent⟩
  · exact .inl (honce a)
  · exact honce.elim

/-- A row keeps what stands behind it, or its new state has a caller behind it. -/
theorem backed_effect {caller : ℕ} {now : ℤ} {w w' : World} {q : Ask}
    (h : ∀ row ∈ w.db.claims.rows, row.state = .completed → Backed C P requests w.log row)
    (hown : OwnInput C (requests caller) q) (heffect : Effect P o caller now w w' q) :
    ∀ row ∈ w'.db.claims.rows, row.state = .completed → Backed C P requests w'.log row := by
  have hsub : w.log ⊆ w'.log := by
    obtain ⟨l, hlog, -⟩ := heffect.log
    rw [hlog]
    exact List.subset_append_left _ _
  have hold : ∀ {row k}, w.db.claims.get k = some row → row.state = .completed →
      Backed C P requests w'.log row := fun hget hstate =>
    (h _ (Table.get_eq_some.mp hget).1 hstate).mono hsub
  intro row hrow hstate
  have hget := Table.get_of_mem hrow
  cases heffect with
  | none world =>
    rw [world] at hget
    exact hold hget hstate
  | replays input response row text question world =>
    rw [world] at hget
    exact hold hget hstate
  | again input response question world =>
    rw [world] at hget
    exact hold hget hstate
  | grants input claims question world grants =>
    rw [world] at hget
    change claims.get row.key = some row at hget
    rw [grants.get] at hget
    split at hget
    · cases hget
      cases hstate
    · exact hold hget hstate
  | abandons input row' claims question world rewrites =>
    rw [world] at hget
    change claims.get row.key = some row at hget
    rw [rewrites.get] at hget
    split at hget
    · cases hget
      cases hstate
    · exact hold hget hstate
  | completes input response text row' claims question world stringify rewrites =>
    rw [world] at hget
    change claims.get row.key = some row at hget
    rw [rewrites.get] at hget
    split at hget
    · rename_i hkey
      cases hget
      refine ⟨caller, response, text, input, ?_, stringify, rfl, hown input (by rw [question]; rfl), hkey,
        rewrites.fingerprint⟩
      rw [world]
      exact List.mem_append_right _ (List.mem_singleton.mpr rfl)
    · exact hold hget hstate

theorem replays_effect (hC : CollisionFree C) (hdigest : P.digest = C.sha256) {caller : ℕ} {now : ℤ}
    {w w' : World} {q : Ask}
    (hbacked : ∀ row ∈ w.db.claims.rows, row.state = .completed → Backed C P requests w.log row)
    (h : AtEach (fun before e _ => ∀ caller response, e = .replayed caller response →
      Produced P requests before caller response) w.log)
    (hown : OwnInput C (requests caller) q)
    (hsilent : ∀ input, q = .claim input → ∀ e ∈ w.log, e.caller ≠ caller)
    (heffect : Effect P o caller now w w' q) :
    AtEach (fun before e _ => ∀ caller response, e = .replayed caller response →
      Produced P requests before caller response) w'.log := by
  cases heffect with
  | none world =>
    rw [world]
    exact h
  | grants input claims question world grants =>
    rw [world]
    exact h
  | abandons input row claims question world rewrites =>
    rw [world]
    exact h
  | again input response question world =>
    rw [world]
    exact atEach_concat.mpr ⟨h, by rintro _ _ ⟨⟩⟩
  | completes input response text row claims question world stringify rewrites =>
    rw [world]
    exact atEach_concat.mpr ⟨h, by rintro _ _ ⟨⟩⟩
  | replays input response row text question world get state fingerprint stored parse =>
    rw [world]
    refine atEach_concat.mpr ⟨h, ?_⟩
    rintro _ _ ⟨⟩
    obtain ⟨caller', response', text', input', hmem, hstringify, htext, hclaims, hkey, hfingerprint⟩ :=
      hbacked row (Table.get_eq_some.mp get).1 state
    rw [stored] at htext
    cases htext
    have hkeys : input'.at P = input.at P := hkey.symm.trans (Table.key_of_get get)
    refine ⟨caller', response', text, hsilent input question _ hmem, hmem, ?_, hstringify, parse⟩
    exact sameRequest_of_claims hC hdigest hclaims (hown input (by rw [question]; rfl)) hkeys
      (hfingerprint.symm.trans fingerprint)

theorem some_of_update {programs : ℕ → Option (Act BatchResult)} {caller c : ℕ} {p p' : Act BatchResult}
    (h : Function.update programs caller (some p') c = some p) :
    c = caller ∧ p = p' ∨ c ≠ caller ∧ programs c = some p := by
  rcases eq_or_ne c caller with rfl | hne
  · rw [Function.update_self] at h
    exact .inl ⟨rfl, (Option.some.inj h).symm⟩
  · rw [Function.update_of_ne hne] at h
    exact .inr ⟨hne, h⟩

theorem none_of_update {programs : ℕ → Option (Act BatchResult)} {caller c : ℕ} {p' : Act BatchResult}
    (h : Function.update programs caller (some p') c = none) : c ≠ caller ∧ programs c = none := by
  rcases eq_or_ne c caller with rfl | hne
  · rw [Function.update_self] at h
    cases h
  · rw [Function.update_of_ne hne] at h
    exact ⟨hne, h⟩

variable {s t : State}

theorem inv_arrives (h : Inv C P requests s) {caller : ℕ} (hfree : s.programs caller = none) :
    Inv C P requests { s with
      programs := Function.update s.programs caller (some (serve C P (requests caller))) } := by
  refine ⟨fun c p hp log hsub => ?_, fun c p hp => ?_, fun c hc => ?_, h.backed, h.replays⟩
  · rcases some_of_update hp with ⟨rfl, rfl⟩ | ⟨-, hp⟩
    · exact serve_ensures C P _ _ log
    · exact h.programs c p hp log hsub
  · rcases some_of_update hp with ⟨rfl, rfl⟩ | ⟨-, hp⟩
    · exact .inr ⟨serve_once C P _, h.silent c hfree⟩
    · exact h.once c p hp
  · exact h.silent c (none_of_update hc).2

theorem inv_goesOn (hC : CollisionFree C) (hdigest : P.digest = C.sha256) (h : Inv C P requests s)
    {caller : ℕ} (host : HostAnswer) {q : Ask} {next : q.Answer → Act BatchResult}
    (hprogram : s.programs caller = some (.ask q next)) :
    Inv C P requests ⟨Function.update s.programs caller (some (next (answer P o caller host q s.world).1)),
      (answer P o caller host q s.world).2⟩ := by
  have heffect := answer_effect P o caller host q s.world
  obtain ⟨l, hlog, hcallers, -⟩ := heffect.log
  have hsub : s.world.log ⊆ (answer P o caller host q s.world).2.log := by
    rw [hlog]
    exact List.subset_append_left _ _
  have hothers : ∀ {c}, c ≠ caller → (∀ e ∈ s.world.log, e.caller ≠ c) →
      ∀ e ∈ (answer P o caller host q s.world).2.log, e.caller ≠ c := by
    intro c hne hsilent e he
    rw [hlog] at he
    rcases List.mem_append.mp he with he | he
    · exact hsilent e he
    · rw [hcallers e he]
      exact hne.symm
  have hown := (h.programs caller _ hprogram _ (List.Subset.refl _)).1
  have honce := h.once caller _ hprogram
  refine ⟨fun c p hp log hlogs => ?_, fun c p hp => ?_, fun c hc => ?_,
    backed_effect h.backed hown heffect, replays_effect hC hdigest h.backed h.replays hown ?_ heffect⟩
  · rcases some_of_update hp with ⟨rfl, rfl⟩ | ⟨-, hp⟩
    · exact (h.programs c _ hprogram log (List.Subset.trans hsub hlogs)).2 _
        ((answer_told P o c host q s.world).mono hlogs)
    · exact h.programs c p hp log (List.Subset.trans hsub hlogs)
  · rcases some_of_update hp with ⟨rfl, rfl⟩ | ⟨hne, hp⟩
    · exact once_next heffect honce _
    · exact (h.once c p hp).imp_right fun hp => ⟨hp.1, hothers hne hp.2⟩
  · obtain ⟨hne, hc⟩ := none_of_update hc
    exact hothers hne (h.silent c hc)
  · rintro input rfl
    rcases honce with honly | ⟨-, hsilent⟩
    · exact absurd rfl (honly.1 input)
    · exact hsilent

theorem inv_gate (h : Inv C P requests s) (change : GateStep) :
    Inv C P requests { s with world := change.apply s.world } := by
  have hlog : (change.apply s.world).log = s.world.log := by cases change <;> rfl
  have hrows : ∀ row ∈ (change.apply s.world).db.claims.rows, row ∈ s.world.db.claims.rows := by
    intro row hrow
    cases change with
    | marks present => exact hrow
    | flags pending => exact hrow
    | invalidates =>
      change row ∈ (invalidate s.world.db).2.claims.rows at hrow
      rcases invalidate_cases s.world.db with ⟨e, he⟩ | hok
      · rw [he] at hrow
        exact hrow
      · rw [hok] at hrow
        exact absurd hrow List.not_mem_nil
  constructor
  · rw [hlog]
    exact h.programs
  · rw [hlog]
    exact h.once
  · rw [hlog]
    exact h.silent
  · rw [hlog]
    exact fun row hrow => h.backed row (hrows row hrow)
  · rw [hlog]
    exact h.replays

theorem inv_step (hC : CollisionFree C) (hdigest : P.digest = C.sha256) {a : Action}
    (h : Inv C P requests s) (hstep : step P o C requests s a = some t) : Inv C P requests t := by
  rcases step_cases hstep with ⟨caller, -, hfree, rfl⟩ | ⟨caller, host, q, next, -, hprogram, rfl⟩ |
    ⟨change, -, rfl⟩
  · exact inv_arrives h hfree
  · exact inv_goesOn hC hdigest h host hprogram
  · exact inv_gate h change

/-- Every response that is returned as a replay is one that another request of the same principal, with the
    same key and the same body, had stored before. -/
def Replays (P : Platform BatchResult) (requests : ℕ → KeyedBatch) (s : State) : Prop :=
  ∀ caller result, s.programs caller = some (.done result) → result.idempotency = .replayed →
    ∃ before after response, s.world.log = before ++ .replayed caller response :: after ∧
      result = replayed response ∧ Produced P requests before caller response

theorem Inv.returned (h : Inv C P requests s) : Replays P requests s := by
  intro caller result hdone hmark
  obtain ⟨response, hresult, hmem⟩ := h.programs caller _ hdone _ (List.Subset.refl _) hmark
  obtain ⟨before, after, hlog⟩ := List.append_of_mem hmem
  exact ⟨before, after, response, hlog, hresult, h.replays before _ after hlog caller response rfl⟩

theorem replays_everywhere (hC : CollisionFree C) (hdigest : P.digest = C.sha256) (as : List Action) :
    Everywhere (step P o C requests) (Replays P requests) init as :=
  everywhere_of_along (fun _ _ _ h _ hstep => inv_step hC hdigest h hstep) (fun _ h => h.returned) as
    inv_init (along_of_forall (fun _ _ => trivial) _ _)

end Replays

end Remembra.Idempotency.Keyed
