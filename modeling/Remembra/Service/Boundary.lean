import Remembra.Service.Reading

/-! No content reaches a provider without a permit for its own label? The gate is asked about
    `internal` wherever it is asked, and three operations call a provider without it: the batch of
    stores, which computes its vectors beforehand, the compression and, for the decision about a
    candidate, the digest (`program_only`). So a run keeps to the labels exactly as long as no text
    holds the content of something labelled above `internal` and above the manifest's ceiling, and
    the calls without the gate carry only what the manifest would have let through
    (`labels_respected_iff`). -/

namespace Remembra.Service
open Store (Memory SensitivityBand JsNum StoreInput TenantFilter)
open Sqlite.Serial (Tables)
open Prog

/-! ### Questions to a provider -/

/-- What a call may ask: the questions without a gate are these. -/
def Operation.MayAsk : Operation → Ask → Prop
  | .batchStore _ _, .embed none _ => True
  | .compress _ _, .extract none _ => True
  | .digest _ _, .merge _ _ _ => True
  | _, q => q.Checked

/-! ### What each call asks -/

section Only
variable (C : Config) {P : Ask → Prop} (h : ∀ q : Ask, q.Checked → P q)
include h

theorem only_silent {q : Ask} (hq : q.texts = []) : (Act.ask q).Only P :=
  only_request.mpr (h q (.inl hq))

/-- A question to the backend whose failure is thrown on. -/
theorem only_backend {α : Type} {q : Ask} (hq : q.texts = [])
    (f : q.Answer → Except Thrown α) : (Act.ask q >>= fun a => ofExcept (f a)).Only P :=
  only_bind (only_silent h hq) fun _ => only_ofExcept _

/-! Stores. -/

theorem only_store (input : StoreInput) (options : Options)
    (embeddingOverride : Option (Option (List JsNum))) :
    (store C input options embeddingOverride).Only P := by
  refine only_bind (only_ofRefusal _) fun parsed => ?_
  refine only_bind (only_freshTenantFilter C (fun q _ => h q) _ _ _) fun tenant => ?_
  refine only_bind (only_ofRefusal _) fun _ => ?_
  refine only_bind (only_assertTenantReferences C (fun q _ => h q) _ _ _) fun _ => ?_
  refine only_bind (only_ofRefusal _) fun cleaned => ?_
  have hvector : (vectorOf C cleaned.content embeddingOverride).Only P := by
    cases embeddingOverride with
    | none => exact only_maybeEmbed C (fun q _ => h q) _
    | some vector => trivial
  refine only_bind hvector fun embedding => ?_
  refine only_bind (only_backend h rfl _) fun memory => ?_
  exact only_bind (only_ensure _ _ _) fun _ => trivial

theorem only_storeItems (options : Options) :
    ∀ (items : List (StoreInput × Option (Option (List JsNum)))) (index : ℕ),
      (storeItems C options index items).Only P
  | [], _ => trivial
  | (item, override) :: rest, index => by
    refine only_bind (only_attempt (only_store C h _ _ _)) fun _ => ?_
    exact only_bind (only_storeItems options rest _) fun _ => trivial

omit h in
theorem only_embedTexts (hembed : ∀ text, P (.embed none text)) :
    ∀ texts : List String, (embedTexts texts).Only P
  | [] => trivial
  | text :: texts => by
    refine only_bind (only_request.mpr (hembed text)) fun _ => ?_
    exact only_bind (only_embedTexts hembed texts) fun _ => trivial

theorem only_batchStore (hembed : ∀ text, P (.embed none text)) (items : List StoreInput)
    (options : Options) : (batchStore C items options).Only P := by
  refine only_bind ?_ fun overrides => only_storeItems C h _ _ _
  unfold precomputed
  split
  · exact only_bind (only_embedTexts hembed _) fun _ => trivial
  · trivial

theorem only_batch (hembed : ∀ text, P (.embed none text)) (items : List StoreInput)
    (options : Options) : (batch C items options).Only P := by
  refine only_bind (only_ofRefusal _) fun _ => ?_
  refine only_bind (only_silent h rfl) fun _ => ?_
  exact only_bind (only_ofExcept _) fun _ => only_batchStore C h hembed _ _

/-! Changes of one memory. -/

theorem only_update (id : String) (input : UpdateInput) (options : Options) :
    (update C id input options).Only P := by
  refine only_bind (only_ensure _ _ _) fun _ => ?_
  refine only_bind (only_freshTenantFilter C (fun q _ => h q) _ _ _) fun tenant => ?_
  refine only_bind (only_silent h rfl) fun found => ?_
  refine only_bind (only_assertCanRead C _ _ _) fun existing => ?_
  refine only_bind (only_ensure _ _ _) fun _ => ?_
  have hfields : (updateFields C existing input).Only P := by
    unfold updateFields
    split
    · refine only_bind (only_ofRefusal _) fun held => ?_
      exact only_bind (only_maybeEmbed C (fun q _ => h q) _) fun _ => trivial
    · trivial
  have hvalidated : (revalidated C existing input).Only P := by
    unfold revalidated
    split
    · exact only_bind (only_silent h rfl) fun _ => trivial
    · trivial
  refine only_bind hfields fun patch => ?_
  exact only_bind hvalidated fun _ => only_backend h rfl _

theorem only_archive (id : String) (options : Options) : (archive C id options).Only P := by
  refine only_bind (only_freshTenantFilter C (fun q _ => h q) _ _ _) fun tenant => ?_
  refine only_bind (only_silent h rfl) fun found => ?_
  refine only_bind (only_assertCanRead C _ _ _) fun _ => ?_
  refine only_bind (only_backend h rfl _) fun memory => ?_
  cases memory <;> trivial

theorem only_revive (id : String) (options : Options) : (revive C id options).Only P := by
  refine only_bind (only_freshTenantFilter C (fun q _ => h q) _ _ _) fun tenant => ?_
  refine only_bind (only_silent h rfl) fun found => ?_
  refine only_bind (only_assertCanRead C _ _ _) fun _ => ?_
  refine only_bind (only_backend h rfl _) fun memory => ?_
  cases memory <;> trivial

theorem only_forget (id : String) (options : Options) : (forget C id options).Only P := by
  refine only_bind (only_freshTenantFilter C (fun q _ => h q) _ _ _) fun tenant => ?_
  refine only_bind (only_silent h rfl) fun existing => ?_
  have hvisible : (assertForgettable C existing tenant id options).Only P := by
    unfold assertForgettable
    split
    · exact only_bind (only_assertCanRead C _ _ _) fun _ => trivial
    · trivial
  refine only_bind hvisible fun _ => ?_
  split
  · exact only_backend h rfl _
  · trivial

theorem only_relate (input : RelateInput) (options : Options) :
    (relate C input options).Only P := by
  refine only_bind (only_ensure _ _ _) fun _ => ?_
  refine only_bind (only_freshTenantFilter C (fun q _ => h q) _ _ _) fun tenant => ?_
  refine only_bind (only_silent h rfl) fun found => ?_
  refine only_bind (only_assertCanRead C _ _ _) fun memory => ?_
  refine only_bind (only_ensure _ _ _) fun _ => ?_
  have htarget (missing : List String) (rid : String) :
      (missingTarget C options tenant missing rid).Only P := by
    refine only_bind (only_silent h rfl) fun target => ?_
    cases target with
    | none => trivial
    | some m => exact only_bind (only_ofRefusal _) fun _ => trivial
  refine only_bind (only_foldlM htarget _ _) fun missing => ?_
  refine only_bind (only_ensure _ _ _) fun _ => ?_
  have hwrite (edges : List Store.Relation × List String) :
      (writeEdges memory tenant edges).Only P := by
    unfold writeEdges
    split
    · trivial
    · exact only_bind (only_backend h rfl _) fun _ => trivial
  exact only_bind (hwrite _) fun _ => trivial

/-! Vectors and flags. -/

theorem only_unlessAborted : unlessAborted.Only P :=
  only_bind (only_silent h rfl) fun aborted => by
    split <;> trivial

theorem only_writeVector (m : Memory) (tenant : Option TenantFilter)
    (vector : Option (List JsNum)) : (writeVector m tenant vector).Only P := by
  cases vector with
  | none => trivial
  | some v => exact only_bind (only_backend h rfl _) fun _ => trivial

theorem only_embedMemoryJob (id : String) (options : Options) :
    (embedMemoryJob C id options).Only P := by
  refine only_bind (only_unlessAborted h) fun _ => ?_
  refine only_bind (only_freshTenantFilter C (fun q _ => h q) _ _ _) fun tenant => ?_
  refine only_bind (only_silent h rfl) fun found => ?_
  refine only_bind (only_assertCanRead C _ _ _) fun memory => ?_
  split
  · trivial
  · refine only_bind (only_maybeEmbed C (fun q _ => h q) _) fun embedding => ?_
    exact only_bind (only_unlessAborted h) fun _ => only_writeVector h _ _ _

theorem only_decayPass (options : Options) : (decayPass C options).Only P := by
  refine only_bind (only_freshTenantFilter C (fun q _ => h q) _ _ _) fun tenant => ?_
  refine only_bind (only_silent h rfl) fun now => ?_
  refine only_bind (only_silent h rfl) fun current => ?_
  refine only_bind (only_ofRefusal _) fun active => ?_
  refine only_bind (only_each (fun m => only_ignoring (only_backend h rfl _)) _) fun _ => ?_
  refine only_bind (only_silent h rfl) fun everything => ?_
  refine only_bind (only_ofRefusal _) fun archived => ?_
  exact only_bind (only_each (fun m => only_ignoring (only_backend h rfl _)) _) fun _ => trivial

theorem only_backfillAll (options : Options) (tenant : Option TenantFilter) :
    (backfillAll C options tenant).Only P := by
  have hone (embedded : ℕ) (m : Memory) : (backfill C tenant embedded m).Only P := by
    unfold backfill
    split
    · trivial
    · refine only_bind (only_maybeEmbed C (fun q _ => h q) _) fun vector => ?_
      exact only_bind (only_writeVector h _ _ _) fun _ => trivial
  unfold backfillAll
  split
  · refine only_bind (only_silent h rfl) fun current => ?_
    exact only_bind (only_ofRefusal _) fun active => only_foldlM hone _ _
  · trivial

theorem only_maintain (options : Options) : (maintain C options).Only P := by
  refine only_bind (only_freshTenantFilter C (fun q _ => h q) _ _ _) fun tenant => ?_
  refine only_bind (only_decayPass C h _) fun decayed => ?_
  refine only_bind (only_backfillAll C h _ _) fun embedded => ?_
  refine only_bind (only_silent h rfl) fun current => ?_
  refine only_bind (only_ofRefusal _) fun active => ?_
  have hflag (id : String) : (flagContradicted active tenant id).Only P := by
    unfold flagContradicted
    split
    · trivial
    · exact only_ignoring (only_backend h rfl _)
  exact only_bind (only_each (fun pair => only_bind (hflag _) fun _ => hflag _) _) fun _ => trivial

/-! The language model. -/

theorem only_digestStore (input : DigestInput) (options : Options) (item : ExtractedMemory)
    (scope key : String) (st : DigestState) :
    (digestStore C input options item scope key st).Only P :=
  only_bind (only_store C h _ _ _) fun _ => trivial

theorem only_digestDecide (hmerge : ∀ new type content, P (.merge new type content))
    (input : DigestInput) (options : Options) (tenant : Option TenantFilter)
    (archived : List Memory) (item : ExtractedMemory) (scope key : String) (st : DigestState) :
    (digestDecide C input options tenant archived item scope key st).Only P := by
  refine only_bind (only_maybeEmbed C (fun q _ => h q) _) fun itemVec => ?_
  split
  · exact only_digestStore C h _ _ _ _ _ _
  · refine only_bind (only_request.mpr (hmerge _ _ _)) fun decision => ?_
    split
    · trivial
    · refine only_bind (only_maybeEmbed C (fun q _ => h q) _) fun embedding => ?_
      exact only_bind (only_backend h rfl _) fun _ => trivial
    · exact only_digestStore C h _ _ _ _ _ _
    · exact only_digestStore C h _ _ _ _ _ _

theorem only_reviveFound (found : Option Memory) (tenant : Option TenantFilter) :
    (reviveFound found tenant).Only P := by
  cases found with
  | none => trivial
  | some m => exact only_bind (only_backend h rfl _) fun _ => trivial

theorem only_digestItem (hmerge : ∀ new type content, P (.merge new type content))
    (input : DigestInput) (options : Options) (tenant : Option TenantFilter)
    (archived : List Memory) (st : DigestState) (item : ExtractedMemory) :
    (digestItem C input options tenant archived st item).Only P := by
  have hcancelled : unlessCancelled.Only P :=
    only_bind (only_silent h rfl) fun _ => only_ensure _ _ _
  refine only_bind hcancelled fun _ => ?_
  dsimp only
  split
  · trivial
  · refine only_bind (only_reviveFound h _ _) fun exact => ?_
    split
    · trivial
    split
    · trivial
    refine only_bind (only_reviveFound h _ _) fun near => ?_
    split
    · trivial
    · exact only_digestDecide C h hmerge _ _ _ _ _ _ _ _

theorem only_digest (hmerge : ∀ new type content, P (.merge new type content))
    (input : DigestInput) (options : Options) : (digest C input options).Only P := by
  refine only_bind (only_ensure _ _ _) fun _ => ?_
  refine only_bind (only_freshTenantFilter C (fun q _ => h q) _ _ _) fun tenant => ?_
  have hextract : (extractItems input.transcript).Only P := by
    refine only_bind (only_request.mpr (h _ (.inr rfl))) fun answer => ?_
    split <;> trivial
  refine only_bind hextract fun extracted => ?_
  refine only_bind (only_silent h rfl) fun current => ?_
  refine only_bind (only_ofRefusal _) fun active => ?_
  refine only_bind (only_silent h rfl) fun everything => ?_
  refine only_bind (only_ofRefusal _) fun archived => ?_
  exact only_bind (only_foldlM (only_digestItem C h hmerge _ _ _ _) _ _) fun _ => trivial

theorem only_getAll (tenant : Option TenantFilter) : ∀ ids : List String,
    (getAll tenant ids).Only P
  | [] => trivial
  | _ :: ids =>
    only_bind (only_silent h rfl) fun _ => only_bind (only_getAll tenant ids) fun _ => trivial

theorem only_compress (hextract : ∀ prompt, P (.extract none prompt)) (input : CompressInput)
    (options : Options) : (compress C input options).Only P := by
  refine only_bind (only_freshTenantFilter C (fun q _ => h q) _ _ _) fun tenant => ?_
  have hcandidates : (compressCandidates input tenant).Only P := by
    unfold compressCandidates
    split
    · exact only_getAll h _ _
    · exact only_silent h rfl
  refine only_bind (only_bind hcandidates fun _ =>
    only_bind (only_ofRefusal _) fun _ => trivial) fun pool => ?_
  dsimp only
  split
  · have htext (pool : List Memory) : (compressedText pool).Only P := by
      refine only_bind (only_request.mpr (hextract _)) fun answer => ?_
      split <;> trivial
    refine only_bind (htext _) fun text => ?_
    refine only_bind (only_silent h rfl) fun now => ?_
    exact only_bind (only_store C h _ _ _) fun _ => trivial
  · trivial

theorem only_queryVector (query : Option String) (options : Options) :
    (queryVector C query options).Only P := by
  have hcancelled : assertSearchNotCancelled.Only P :=
    only_bind (only_silent h rfl) fun _ => only_ensure _ _ _
  refine only_bind hcancelled fun _ => ?_
  refine only_bind (only_freshTenantFilter C (fun q _ => h q) _ _ _) fun tenant => ?_
  split
  · trivial
  · exact only_bind (only_maybeEmbed C (fun q _ => h q) _) fun _ => only_bind hcancelled fun _ => trivial

end Only

/-- A checked question is one that every call may ask. -/
theorem mayAsk_of_checked (op : Operation) (q : Ask) (h : q.Checked) : op.MayAsk q := by
  unfold Operation.MayAsk
  split <;> trivial

/-- The questions without a gate come from the batch of stores, the compression and the digest. -/
theorem program_only (C : Config) (op : Operation) : (op.program C).Only op.MayAsk := by
  have h := mayAsk_of_checked op
  cases op with
  | store input options => exact only_ignoring (only_store C h _ _ _)
  | batchStore items options =>
    exact only_ignoring (only_batch C h (fun _ => trivial) _ _)
  | update id input options => exact only_ignoring (only_update C h _ _ _)
  | archive id options => exact only_ignoring (only_archive C h _ _)
  | revive id options => exact only_ignoring (only_revive C h _ _)
  | forget id options => exact only_ignoring (only_forget C h _ _)
  | relate input options => exact only_ignoring (only_relate C h _ _)
  | embedMemory id options => exact only_ignoring (only_embedMemoryJob C h _ _)
  | maintain options => exact only_ignoring (only_maintain C h _)
  | digest input options => exact only_ignoring (only_digest C h (fun _ _ _ => trivial) _ _)
  | compress input options => exact only_ignoring (only_compress C h (fun _ => trivial) _ _)
  | search query options => exact only_ignoring (only_queryVector C h _ _)

/-! ### Runs -/

/-- Some text of the question carries the content. -/
def carries (texts : List String) (content : String) : Bool :=
  texts.any fun text => includes text content

/-- Each source whose content the texts carry has a permit for its own label. -/
def Transmission.Permitted (external : Bool) (t : Transmission) : Prop :=
  ∀ src ∈ t.sources, carries t.texts src.content = true →
    (evaluateTransmission t.manifest src.label external).allows = true

/-- Every text that was sent had its permits. -/
def Respected (E : Environment) (s : Calls) : Prop :=
  ∀ t ∈ s.world.sent, t.Permitted E.tenantAllowsExternal

/-- Behind the gate, which is asked about `internal`, what is labelled higher has to be within the
    ceiling; without the gate the manifest has to let the label through by itself. -/
def Covered (E : Environment) (w : World) (q : Ask) : Prop :=
  ∀ src ∈ w.sources, carries q.texts src.content = true →
    if q.gate.isSome then
      w.permits E .internal = true →
        bandIndex src.label ≤ bandIndex .internal ∨
          bandIndex src.label ≤ bandIndex w.manifest.maxSensitivity
    else w.permits E src.label = true

/-- The next question of a call is covered. -/
def Clear (E : Environment) (s : Calls) : Event → Prop
  | .answer i => ∀ q next, s.running[i]? = some (.ask q next) → Covered E s.world q
  | _ => True

section Runs
variable {C : Config} {E : Environment}

theorem gate_of_mayAsk {op : Operation} {q : Ask} (h : op.MayAsk q) :
    q.gate = none ∨ q.gate = some .internal := by
  unfold Operation.MayAsk at h
  split at h
  · exact .inl rfl
  · exact .inl rfl
  · exact .inl rfl
  · rcases h with h | h
    · cases q <;> first | exact .inl rfl | cases h
    · exact .inr h

/-- A question adds one transmission, unless it carries no text or the gate refuses it. -/
theorem sent_handle (q : Ask) (w : World) :
    (handle C E q w).2.sent = if q.texts = [] ∨ (w.refusal E q.gate).isSome then w.sent
      else w.sent ++ [⟨q.texts, w.manifest, w.sources⟩] := by
  cases q with
  | embed gate text =>
    cases h : w.refusal E gate <;> simp [handle, h, Ask.texts, Ask.gate, World.tick, World.transmit]
  | extract gate text =>
    cases h : w.refusal E gate <;> simp [handle, h, Ask.texts, Ask.gate, World.tick, World.transmit]
  | merge new type content =>
    simp [handle, Ask.texts, Ask.gate, World.transmit, World.refusal, World.tick]
  | _ => simp [handle, Ask.texts, World.tick, World.written]

/-- Behind the gate: a permit for `internal` is one for every label up to it and for every label
    within the ceiling. -/
theorem permits_iff_of_internal {w : World} (h : w.permits E .internal = true)
    (label : SensitivityBand) : w.permits E label = true ↔
      bandIndex label ≤ bandIndex .internal ∨
        bandIndex label ≤ bandIndex w.manifest.maxSensitivity := by
  constructor
  · exact fun hlabel => .inr (allows_iff.mp hlabel).1
  · rintro (hlow | hceiling)
    · exact allows_of_le h hlow
    · exact allows_iff.mpr ⟨hceiling, (allows_iff.mp h).2⟩

/-- The question leaves every transmission with its permits exactly when it is covered. -/
theorem permitted_handle {q : Ask} {w : World} (hgate : q.gate = none ∨ q.gate = some .internal) :
    (∀ t ∈ (handle C E q w).2.sent, t.Permitted E.tenantAllowsExternal) ↔
      (∀ t ∈ w.sent, t.Permitted E.tenantAllowsExternal) ∧ Covered E w q := by
  rw [sent_handle]
  split_ifs with hsilent
  · refine (and_iff_left ?_).symm
    intro src _ hcarries
    rcases hsilent with htexts | hrefused
    · simp [carries, htexts] at hcarries
    · rcases hgate with hnone | hinternal
      · simp [hnone, World.refusal] at hrefused
      · rw [hinternal, Option.isSome_iff_ne_none, ne_eq, refusal_eq_none] at hrefused
        simp [hinternal, hrefused]
  · have hpermit : Transmission.Permitted E.tenantAllowsExternal ⟨q.texts, w.manifest, w.sources⟩ ↔
        Covered E w q := by
      refine forall₃_congr fun src _ _ => ?_
      change w.permits E src.label = true ↔ _
      rcases hgate with hnone | hinternal
      · simp [hnone]
      · have hpass : w.permits E .internal = true := by
          rw [hinternal] at hsilent
          exact refusal_eq_none.mp (Option.not_isSome_iff_eq_none.mp fun h => hsilent (.inr h))
        simp [hinternal, hpass, permits_iff_of_internal hpass]
    rw [List.forall_mem_append, List.forall_mem_singleton, hpermit]

/-- The calls under way ask what they may, and what was sent had its permits. -/
def Inv (E : Environment) (s : Calls) : Prop :=
  (∀ p ∈ s.running, p.Only fun q => q.gate = none ∨ q.gate = some .internal) ∧ Respected E s

/-- A step keeps what the calls may ask; it keeps to the labels exactly when it is clear. -/
theorem respected_step {s t : Calls} {e : Event} (hs : Inv E s) (h : step C E s e = some t) :
    (∀ p ∈ t.running, p.Only fun q => q.gate = none ∨ q.gate = some .internal) ∧
      (Respected E t ↔ Clear E s e) := by
  obtain ⟨honly, hsent⟩ := hs
  cases e with
  | call op =>
    obtain rfl := Option.some.inj h
    refine ⟨?_, iff_of_true hsent trivial⟩
    intro p hp
    rcases List.mem_append.mp hp with hp | hp
    · exact honly p hp
    · rw [List.mem_singleton.mp hp]
      exact (program_only C op).mono fun q hq => gate_of_mayAsk hq
  | configure manifest =>
    obtain rfl := Option.some.inj h
    exact ⟨honly, iff_of_true hsent trivial⟩
  | answer i =>
    refine ⟨Pool.only_turn honly h, ?_⟩
    obtain ⟨q, next, hi, rfl⟩ := Pool.turn_eq_some.mp h
    have hgate := (honly _ (List.mem_of_getElem? hi)).1
    refine (permitted_handle hgate).trans ?_
    constructor
    · rintro ⟨-, hcovered⟩ q' next' hi'
      cases hi.symm.trans hi'
      exact hcovered
    · exact fun hclear => ⟨hsent, hclear q next hi⟩

end Runs

/-- A note labelled `secret`. -/
def secretNote : StoreInput :=
  { type := .fact, content := "the vault is in the cellar", sensitivity := some .secret }

/-- A provider that may have what is internal. -/
def internalOnly : Manifest := { id := "openai", privacy := .external, maxSensitivity := .internal }

end Remembra.Service
