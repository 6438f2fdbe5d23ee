import Remembra.Service.Derived
import Remembra.Service.Holds

/-! Redaction, where it is on: does anything that can still be redacted get stored or embedded? Each
    call redacts for itself, an update does not redact its tags, and `redact` is not idempotent. A run
    keeps the store and what is embedded redacted as long as each text that is handed in settles
    (`nothing_redactable`). -/

namespace Remembra.Service
open Store (Memory StoreInput TenantFilter JsNum)
open Sqlite (Row rowOf setUpdated)
open Sqlite.Serial (Tables Failure updatedOver)
open Prog

/-! ### Texts that settle -/

def cleanRow (row : Row) : Bool := clean row.content && row.tags.all clean

def cleanMemory (m : Memory) : Bool := clean m.content && m.tags.all clean

section Inputs
variable (C : Config)

/-- What the policy for sensitive data leaves of a text, unless it refuses it. -/
def policed (text : String) : Option String :=
  (applySensitivePolicy C ⟨text, none, none⟩).toOption.map (·.content)

/-- What redaction and then the policy leave of a content can be redacted no more. -/
def settles (content : String) : Bool := (policed C (redact content).1).all clean

def tagSettles (tag : String) : Bool := clean (redact tag).1

def inputSettles (content : String) (tags : List String) : Bool :=
  settles C content && tags.all tagSettles

/-- The tags of an update are not redacted. -/
def updateSettles (input : UpdateInput) : Bool :=
  input.content.all (settles C) && (input.tags.getD []).all clean

/-- An extracted item is redacted once, embedded, and then stored like any other input. -/
def itemSettles (item : ExtractedMemory) : Bool :=
  (!C.embeddings || clean (redact item.content).1) &&
    inputSettles C (redact item.content).1 (item.tags.map fun t => (redact t).1)

/-- The texts of a request settle. -/
def Request.settles : Request → Bool
  | .operation (.store input _) => inputSettles C input.content input.tags
  | .operation (.batchStore items _) => items.all fun input => inputSettles C input.content input.tags
  | .operation (.update _ input _) => updateSettles C input
  | .operation (.search query _) => query.all clean
  | .operation _ => true
  | .batchUpdate _ items _ => items.all fun item => updateSettles C item.2
  | .batchDelete _ _ _ => true
  | .importSnapshot data _ => data.memories.all fun raw => inputSettles C raw.content raw.tags

/-- The texts that the language model answers with settle: the items of a digest, the text of a merge,
    and what a compression stores for its sources. -/
def AnswerSettles : (q : Ask) → q.Answer → Prop
  | .extract (some _) _, .ok items => ∀ item ∈ items, itemSettles C item = true
  | .extract none prompt, .ok items => ∀ text, prompt = compressPrompt text →
      settles C ((items.head?.map (·.content)).getD text) = true
  | .extract none prompt, .error _ => ∀ pool : List Memory, (∀ m ∈ pool, cleanMemory m = true) →
      prompt = compressPrompt (compressContent pool) → settles C (compressFallback pool) = true
  | .merge .., .ok (.merge text) => clean (redact text).1 = true
  | _, _ => True

end Inputs

/-! ### What the calls leave of a text -/

-- Nothing here depends on how the two go through a text.
seal redact scan

section Texts
variable {C : Config}

theorem map_redact_of_clean {tags : List String} (h : ∀ t ∈ tags, clean t = true) :
    tags.map (fun t => (redact t).1) = tags :=
  (List.map_congr_left fun t ht => redact_of_clean (h t ht)).trans (List.map_id _)

/-- Where the pair is left, there was nothing to redact. -/
theorem redactPair_eq (hon : C.redactOn = true) (content : String) (tags : List String) :
    (redactPair C content tags).getD (content, tags) =
      ((redact content).1, tags.map fun t => (redact t).1) := by
  unfold redactPair
  simp only [hon, Bool.not_true, Bool.false_eq_true, if_false]
  split_ifs with hfound
  · simp only [Bool.and_eq_true, decide_eq_true_eq, redactTags, List.flatMap_eq_nil_iff] at hfound
    rw [Option.getD_none, redact_of_clean (decide_eq_true hfound.1),
      map_redact_of_clean fun t ht => decide_eq_true (hfound.2 t ht)]
  · rfl

theorem redactPair_content (hon : C.redactOn = true) (content : String) (tags : List String) :
    ((redactPair C content tags).map Prod.fst).getD content = (redact content).1 := by
  rw [← congrArg Prod.fst (redactPair_eq hon content tags)]
  cases redactPair C content tags <;> rfl

/-- The policy sees the content alone. -/
theorem policed_of_ok {x held : Held} (h : applySensitivePolicy C x = .ok held) :
    policed C x.content = some held.content := by
  unfold policed
  unfold applySensitivePolicy at h ⊢
  dsimp only at h ⊢
  generalize scan C.sensitiveData C.redactionEnabled x.content = scanned at h ⊢
  obtain ⟨text, detected, categories, action, quarantine⟩ := scanned
  cases detected with
  | false =>
    cases h
    rfl
  | true =>
    cases action with
    | reject => cases h
    | _ =>
      cases h
      rfl

theorem clean_of_policed {content : String} {x held : Held} (hsettles : settles C content = true)
    (hx : x.content = (redact content).1) (h : applySensitivePolicy C x = .ok held) :
    clean held.content = true := by
  have hpoliced := policed_of_ok h
  unfold settles at hsettles
  rw [← hx, hpoliced] at hsettles
  exact hsettles

/-- An input that settles is stored as it can be redacted no more. -/
theorem clean_of_cleanedInput (hon : C.redactOn = true) {input cleaned : StoreInput}
    (hsettles : inputSettles C input.content input.tags = true)
    (h : cleanedInput C input = .ok cleaned) :
    clean cleaned.content = true ∧ cleaned.tags.all clean = true := by
  have hredacted := redactPair_eq hon input.content input.tags
  have happly : (applyRedaction C input).content = (redact input.content).1 ∧
      (applyRedaction C input).tags = input.tags.map fun t => (redact t).1 := by
    unfold applyRedaction
    cases hpair : redactPair C input.content input.tags with
    | none =>
      rw [hpair] at hredacted
      exact ⟨congrArg Prod.fst hredacted, congrArg Prod.snd hredacted⟩
    | some pair =>
      rw [hpair] at hredacted
      exact ⟨congrArg Prod.fst hredacted, congrArg Prod.snd hredacted⟩
  obtain ⟨hcontent, htags⟩ := Bool.and_eq_true_iff.mp hsettles
  unfold cleanedInput applyInputPolicy at h
  rw [hon, if_pos rfl] at h
  cases hpolicy : applySensitivePolicy C ⟨(applyRedaction C input).content,
      (applyRedaction C input).trust, (applyRedaction C input).metaFields⟩ with
  | error e =>
    rw [hpolicy] at h
    cases h
  | ok held =>
    rw [hpolicy] at h
    have hkept : cleaned.content = held.content ∧ cleaned.tags = (applyRedaction C input).tags := by
      cases h
      unfold flagInjection
      split <;> exact ⟨rfl, rfl⟩
    rw [hkept.1, hkept.2, happly.2, List.all_map]
    exact ⟨clean_of_policed hcontent happly.1 hpolicy, htags⟩

theorem cleanItem_eq (hon : C.redactOn = true) (item : ExtractedMemory) :
    (cleanItem C item).content = (redact item.content).1 ∧
      (cleanItem C item).tags = item.tags.map fun t => (redact t).1 := by
  have hredacted := redactPair_eq hon item.content item.tags
  unfold cleanItem
  cases hpair : redactPair C item.content item.tags with
  | none =>
    rw [hpair] at hredacted
    exact ⟨congrArg Prod.fst hredacted, congrArg Prod.snd hredacted⟩
  | some pair =>
    rw [hpair] at hredacted
    exact ⟨congrArg Prod.fst hredacted, congrArg Prod.snd hredacted⟩

end Texts

/-! ### Questions and answers -/

/-- What the question writes or has embedded can be redacted no more. -/
def CleanAsk : Ask → Prop
  | .store input _ _ => clean input.content = true ∧ input.tags.all clean = true
  | .update base patch _ _ => cleanMemory (patch.over base) = true
  | .embed _ text => clean text = true
  | _ => True

def CleanDemand : Demand → Prop
  | .ask q => CleanAsk q
  | .importBatch memories _ => ∀ m ∈ memories, cleanMemory m = true

/-- The memories of an answer can be redacted no more. -/
def CleanAnswer : (q : Ask) → q.Answer → Prop
  | .get _ _, found => ∀ m ∈ found, cleanMemory m = true
  | .all _ _, found => ∀ m ∈ found, cleanMemory m = true
  | .store _ _ _, .ok m => cleanMemory m = true
  | _, _ => True

section Programs
variable (C : Config)

def GoodAnswer (q : Ask) (a : q.Answer) : Prop := CleanAnswer q a ∧ AnswerSettles C q a

/-- The program writes and embeds only what can be redacted no more. -/
abbrev Screens {α : Type} (p : Act α) (R : α → Prop) : Prop := p.Ensures (GoodAnswer C) CleanAsk R

variable {C}

theorem screens_ensure (c : Bool) (code : ErrorCode) (message : String) :
    Screens C (Act.ensure c code message) fun _ => True := by
  unfold Act.ensure
  split <;> trivial

theorem screens_refusal {α : Type} {r : Except RemembraError α} :
    Screens C (Act.ofRefusal r) fun a => r = .ok a := by
  refine ensures_ofExcept fun a h => ?_
  cases r with
  | error e => cases h
  | ok b =>
    cases h
    rfl

/-- A question to the backend whose failure is thrown on. -/
theorem screens_backend {α : Type} {q : Ask} {f : q.Answer → Except Thrown α} (hq : CleanAsk q) :
    Screens C (Act.ask q >>= fun a => ofExcept (f a)) fun _ => True :=
  ensures_bind (ensures_request hq) fun _ _ => ensures_ofExcept fun _ _ => trivial

theorem screens_freshTenantFilter (options : Options) (capability : Capability)
    (operation : Option AuthorizationOperation) :
    Screens C (freshTenantFilter C options capability operation) fun _ => True := by
  refine ensures_bind (ensures_request trivial) fun proceed _ => ?_
  refine ensures_bind (ensures_ofExcept fun _ _ => trivial) fun _ _ => ?_
  refine ensures_bind screens_refusal fun filter _ => ?_
  split
  · exact ensures_bind (ensures_request trivial) fun _ _ =>
      ensures_bind (screens_ensure _ _ _) fun _ _ => trivial
  · trivial

theorem screens_get (id : String) (tenant : Option TenantFilter) :
    Screens C (Act.get id tenant) fun found => ∀ m ∈ found, cleanMemory m = true :=
  (ensures_request trivial).mono fun _ h => h.1

theorem screens_all (includeArchived : Bool) (tenant : Option TenantFilter) :
    Screens C (Act.all includeArchived tenant) fun found => ∀ m ∈ found, cleanMemory m = true :=
  (ensures_request trivial).mono fun _ h => h.1

theorem screens_readable (options : Options) {l : List Memory}
    (h : ∀ m ∈ l, cleanMemory m = true) :
    Screens C (readable C options l) fun pool => ∀ m ∈ pool, cleanMemory m = true := by
  refine screens_refusal.mono fun pool hpool m hm => ?_
  obtain ⟨-, rfl⟩ := filterM_eq_ok.mp hpool
  exact h m (List.mem_of_mem_filter hm)

theorem screens_assertCanRead {found : Option Memory} (h : ∀ m ∈ found, cleanMemory m = true)
    (id : String) (options : Options) :
    Screens C (assertCanRead C found id options) fun m => cleanMemory m = true := by
  cases found with
  | none => trivial
  | some m =>
    refine ensures_bind screens_refusal fun visible _ => ?_
    exact ensures_bind (screens_ensure _ _ _) fun _ _ => h m rfl

theorem screens_maybeEmbed {text : String} (h : C.embeddings = true → clean text = true) :
    Screens C (maybeEmbed C text) fun _ => True := by
  unfold maybeEmbed
  split
  · rename_i hon
    exact ensures_bind (ensures_request (h hon)) fun _ _ => ensures_ofExcept fun _ _ => trivial
  · trivial

/-- A record that is written with other fields than its content and its tags. -/
theorem clean_over {m : Memory} {patch : Patch} (h : cleanMemory m = true)
    (hcontent : patch.content = none) (htags : patch.tags = none) :
    cleanMemory (patch.over m) = true := by
  unfold cleanMemory Patch.over
  rw [hcontent, htags]
  exact h

theorem screens_write {base : Memory} {patch : Patch} (h : cleanMemory (patch.over base) = true)
    (options : Store.UpdateOptions) (tenant : Option TenantFilter) :
    Screens C (Act.update base patch options tenant) fun _ => True :=
  screens_backend (q := .update base patch options tenant) h

/-! Stores. -/

theorem screens_assertTenantReferences (ids : List String) (options : Options)
    (tenant : Option TenantFilter) :
    Screens C (assertTenantReferences C ids options tenant) fun _ => True := by
  cases tenant with
  | none => trivial
  | some t =>
    refine ensures_each fun id _ => ?_
    refine ensures_bind (screens_get _ _) fun found _ => ?_
    cases found with
    | none => trivial
    | some m => exact ensures_bind screens_refusal fun _ _ => screens_ensure _ _ _

variable (hon : C.redactOn = true)
include hon

theorem screens_store {input : StoreInput} (h : inputSettles C input.content input.tags = true)
    (options : Options) :
    Screens C (store C input options none) fun stored => cleanMemory stored.memory = true := by
  refine ensures_bind screens_refusal fun parsed hparsed => ?_
  refine ensures_bind (screens_freshTenantFilter _ _ _) fun tenant _ => ?_
  refine ensures_bind screens_refusal fun _ _ => ?_
  refine ensures_bind (screens_assertTenantReferences _ _ _) fun _ _ => ?_
  refine ensures_bind screens_refusal fun cleaned hcleaned => ?_
  obtain ⟨hcontent, htags, -⟩ := checked_labels hparsed
  rw [← hcontent, ← htags] at h
  obtain ⟨hclean, hcleanTags⟩ := clean_of_cleanedInput hon h hcleaned
  refine ensures_bind (screens_maybeEmbed fun _ => hclean) fun embedding _ => ?_
  have hask : CleanAsk (.store cleaned embedding tenant) := ⟨hclean, hcleanTags⟩
  have hrecord : Screens C (Act.store cleaned embedding tenant) fun m => cleanMemory m = true := by
    refine ensures_bind (ensures_request hask) fun answer hanswer => ensures_ofExcept fun m hm => ?_
    cases hm
    exact hanswer.1
  refine ensures_bind hrecord fun m hm => ?_
  exact ensures_bind (screens_ensure _ _ _) fun _ _ => hm

theorem screens_storeItems (options : Options)
    {items : List (StoreInput × Option (Option (List JsNum)))}
    (h : ∀ item ∈ items, inputSettles C item.1.content item.1.tags = true ∧ item.2 = none) (index : ℕ) :
    Screens C (storeItems C options index items) fun _ => True := by
  induction items generalizing index with
  | nil => trivial
  | cons item rest ih =>
    obtain ⟨input, override⟩ := item
    obtain ⟨hsettles, rfl⟩ := h _ (List.mem_cons_self ..)
    refine ensures_bind (ensures_attempt (screens_store hon hsettles options)) fun _ _ => ?_
    exact ensures_bind (ih (fun item hitem => h item (List.mem_cons_of_mem _ hitem)) _) fun _ _ => trivial

/-- With redaction no vector is computed beforehand. -/
theorem screens_batch {items : List StoreInput}
    (h : ∀ input ∈ items, inputSettles C input.content input.tags = true) (options : Options) :
    Screens C (batch C items options) fun _ => True := by
  refine ensures_bind screens_refusal fun _ _ => ?_
  refine ensures_bind (ensures_request trivial) fun _ _ => ?_
  refine ensures_bind (ensures_ofExcept fun _ _ => trivial) fun _ _ => ?_
  have hnone : precomputed C items options = pure (items.map fun _ => none) := by
    simp [precomputed, precomputes, hon]
  unfold batchStore
  rw [hnone]
  refine screens_storeItems hon options (fun item hitem => ?_) 0
  obtain ⟨hmem, hoverride⟩ := List.of_mem_zip hitem
  exact ⟨h _ hmem, (List.mem_map.mp hoverride).choose_spec.2.symm⟩

/-! Changes of one memory. -/

theorem screens_update {input : UpdateInput} (h : updateSettles C input = true) (id : String)
    (options : Options) : Screens C (update C id input options) fun _ => True := by
  obtain ⟨hcontent, htags⟩ := Bool.and_eq_true_iff.mp h
  refine ensures_bind (screens_ensure _ _ _) fun _ _ => ?_
  refine ensures_bind (screens_freshTenantFilter _ _ _) fun tenant _ => ?_
  refine ensures_bind (screens_get _ _) fun found hfound => ?_
  refine ensures_bind (screens_assertCanRead hfound _ _) fun existing hexisting => ?_
  refine ensures_bind (screens_ensure _ _ _) fun _ _ => ?_
  obtain ⟨hold, holdTags⟩ := Bool.and_eq_true_iff.mp hexisting
  have hkept : (input.tags.getD existing.tags).all clean = true := by
    cases htagsGiven : input.tags with
    | none => exact holdTags
    | some tags => rwa [htagsGiven] at htags
  have hfields : Screens C (updateFields C existing input) fun patch =>
      cleanMemory (patch.over existing) = true := by
    unfold updateFields
    split
    · rename_i content hgiven
      have hsettles : settles C content = true := by
        obtain ⟨hinput, -⟩ := Option.filter_eq_some_iff.mp hgiven
        rwa [hinput] at hcontent
      refine ensures_bind screens_refusal fun held hheld => ?_
      have hclean := clean_of_policed hsettles (redactPair_content hon _ _) hheld
      refine ensures_bind (screens_maybeEmbed fun _ => hclean) fun embedding _ => ?_
      exact Bool.and_eq_true_iff.mpr ⟨hclean, hkept⟩
    · rename_i hsame
      refine Bool.and_eq_true_iff.mpr ⟨?_, hkept⟩
      cases hgiven : input.content with
      | none => simpa [UpdateInput.fields, Patch.over, hgiven] using hold
      | some content =>
        have hequal : content = existing.content := by simpa [hgiven, Option.filter] using hsame
        simpa [UpdateInput.fields, Patch.over, hgiven, hequal] using hold
  refine ensures_bind hfields fun patch hpatch => ?_
  have hvalidated : Screens C (revalidated C existing input) fun _ => True := by
    unfold revalidated
    split
    · exact ensures_bind (ensures_request trivial) fun _ _ => trivial
    · trivial
  refine ensures_bind hvalidated fun _ _ => ?_
  refine screens_write ?_ _ _
  exact hpatch

omit hon

theorem screens_archive (id : String) (options : Options) :
    Screens C (archive C id options) fun _ => True := by
  refine ensures_bind (screens_freshTenantFilter _ _ _) fun tenant _ => ?_
  refine ensures_bind (screens_get _ _) fun found hfound => ?_
  refine ensures_bind (screens_assertCanRead hfound _ _) fun _ _ => ?_
  refine ensures_bind (screens_backend (q := .archive id tenant) trivial) fun memory _ => ?_
  cases memory <;> trivial

theorem screens_revive (id : String) (options : Options) :
    Screens C (revive C id options) fun _ => True := by
  refine ensures_bind (screens_freshTenantFilter _ _ _) fun tenant _ => ?_
  refine ensures_bind (screens_get _ _) fun found hfound => ?_
  refine ensures_bind (screens_assertCanRead hfound _ _) fun _ _ => ?_
  refine ensures_bind (screens_backend (q := .revive id tenant) trivial) fun memory _ => ?_
  cases memory <;> trivial

theorem screens_forget (id : String) (options : Options) :
    Screens C (forget C id options) fun _ => True := by
  refine ensures_bind (screens_freshTenantFilter _ _ _) fun tenant _ => ?_
  refine ensures_bind (screens_get _ _) fun existing hexisting => ?_
  have hvisible : Screens C (assertForgettable C existing tenant id options) fun _ => True := by
    unfold assertForgettable
    split
    · exact ensures_bind (screens_assertCanRead hexisting _ _) fun _ _ => trivial
    · trivial
  refine ensures_bind hvisible fun _ _ => ?_
  split
  · exact screens_backend (q := .forget id tenant) trivial
  · trivial

theorem screens_relate (input : RelateInput) (options : Options) :
    Screens C (relate C input options) fun _ => True := by
  refine ensures_bind (screens_ensure _ _ _) fun _ _ => ?_
  refine ensures_bind (screens_freshTenantFilter _ _ _) fun tenant _ => ?_
  refine ensures_bind (screens_get _ _) fun found hfound => ?_
  refine ensures_bind (screens_assertCanRead hfound _ _) fun memory hmemory => ?_
  refine ensures_bind (screens_ensure _ _ _) fun _ _ => ?_
  have htarget (missing : List String) (rid : String) :
      Screens C (missingTarget C options tenant missing rid) fun _ => True := by
    refine ensures_bind (screens_get _ _) fun target _ => ?_
    cases target with
    | none => trivial
    | some m => exact ensures_bind screens_refusal fun _ _ => trivial
  refine ensures_bind (ensures_foldlM (fun missing rid _ _ => htarget missing rid) trivial)
    fun missing _ => ?_
  refine ensures_bind (screens_ensure _ _ _) fun _ _ => ?_
  have hwrite (edges : List Store.Relation × List String) :
      Screens C (writeEdges memory tenant edges) fun _ => True := by
    unfold writeEdges
    split
    · trivial
    · exact ensures_bind (screens_write (clean_over hmemory rfl rfl) _ _) fun _ _ => trivial
  exact ensures_bind (hwrite _) fun _ _ => trivial

/-! Vectors and flags. -/

theorem screens_unlessAborted : Screens C unlessAborted fun _ => True :=
  ensures_bind (ensures_request trivial) fun aborted _ => by
    split <;> trivial

theorem screens_writeVector {m : Memory} (h : cleanMemory m = true) (tenant : Option TenantFilter)
    (vector : Option (List JsNum)) : Screens C (writeVector m tenant vector) fun _ => True := by
  cases vector with
  | none => trivial
  | some v => exact ensures_bind (screens_write (clean_over h rfl rfl) _ _) fun _ _ => trivial

/-- A memory's own content is embedded. -/
theorem screens_embedContent {m : Memory} (h : cleanMemory m = true) :
    Screens C (maybeEmbed C m.content) fun _ => True :=
  screens_maybeEmbed fun _ => (Bool.and_eq_true_iff.mp h).1

theorem screens_embedMemoryJob (id : String) (options : Options) :
    Screens C (embedMemoryJob C id options) fun _ => True := by
  refine ensures_bind screens_unlessAborted fun _ _ => ?_
  refine ensures_bind (screens_freshTenantFilter _ _ _) fun tenant _ => ?_
  refine ensures_bind (screens_get _ _) fun found hfound => ?_
  refine ensures_bind (screens_assertCanRead hfound _ _) fun memory hmemory => ?_
  split
  · trivial
  · refine ensures_bind (screens_embedContent hmemory) fun embedding _ => ?_
    exact ensures_bind screens_unlessAborted fun _ _ => screens_writeVector hmemory _ _

theorem screens_decayPass (options : Options) : Screens C (decayPass C options) fun _ => True := by
  refine ensures_bind (screens_freshTenantFilter _ _ _) fun tenant _ => ?_
  refine ensures_bind (ensures_request trivial) fun now _ => ?_
  refine ensures_bind (screens_all _ _) fun current hcurrent => ?_
  refine ensures_bind (screens_readable _ hcurrent) fun active _ => ?_
  refine ensures_bind (ensures_each fun m _ =>
    ensures_bind (screens_backend (q := .archive m.id tenant) trivial) fun _ _ => trivial) fun _ _ => ?_
  refine ensures_bind (screens_all _ _) fun everything heverything => ?_
  refine ensures_bind (screens_readable _ fun m hm => heverything m (List.mem_of_mem_filter hm))
    fun archived _ => ?_
  exact ensures_bind (ensures_each fun m _ =>
    ensures_bind (screens_backend (q := .forget m.id tenant) trivial) fun _ _ => trivial) fun _ _ => trivial

theorem screens_backfillAll (options : Options) (tenant : Option TenantFilter) :
    Screens C (backfillAll C options tenant) fun _ => True := by
  have hone (embedded : ℕ) {m : Memory} (hm : cleanMemory m = true) :
      Screens C (backfill C tenant embedded m) fun _ => True := by
    unfold backfill
    split
    · trivial
    · refine ensures_bind (screens_embedContent hm) fun vector _ => ?_
      exact ensures_bind (screens_writeVector hm _ _) fun _ _ => trivial
  unfold backfillAll
  split
  · refine ensures_bind (screens_all _ _) fun current hcurrent => ?_
    exact ensures_bind (screens_readable _ hcurrent) fun active hactive =>
      ensures_foldlM (fun embedded m hm _ => hone embedded (hactive m hm)) trivial
  · trivial

theorem screens_maintain (options : Options) : Screens C (maintain C options) fun _ => True := by
  refine ensures_bind (screens_freshTenantFilter _ _ _) fun tenant _ => ?_
  refine ensures_bind (screens_decayPass _) fun decayed _ => ?_
  refine ensures_bind (screens_backfillAll _ _) fun embedded _ => ?_
  refine ensures_bind (screens_all _ _) fun current hcurrent => ?_
  refine ensures_bind (screens_readable _ hcurrent) fun active hactive => ?_
  have hflag (id : String) : Screens C (flagContradicted active tenant id) fun _ => True := by
    unfold flagContradicted
    split
    · trivial
    · rename_i m hfound
      have hm := List.mem_of_find?_eq_some (Option.filter_eq_some_iff.mp hfound).1
      exact ensures_bind (screens_write (clean_over (hactive m hm) rfl rfl) _ _) fun _ _ => trivial
  exact ensures_bind (ensures_each fun pair _ => ensures_bind (hflag _) fun _ _ => hflag _)
    fun _ _ => trivial

/-! The language model. -/

section Digest
variable (hon : C.redactOn = true)
include hon

/-- The memories of the loop are clean. -/
def CleanState (st : DigestState) : Prop := ∀ m ∈ st.active, cleanMemory m = true

theorem screens_digestStore {item : ExtractedMemory} {st : DigestState}
    (hitem : inputSettles C item.content item.tags = true) (hst : CleanState st) (input : DigestInput)
    (options : Options) (scope key : String) :
    Screens C (digestStore C input options item scope key st) CleanState := by
  refine ensures_bind (screens_store hon hitem options) fun stored hstored => ?_
  intro m hm
  rcases List.mem_append.mp hm with hm | hm
  · exact hst m hm
  · rw [List.mem_singleton.mp hm]
    exact hstored

theorem screens_digestMerge {candidate : Memory} {merged : String} {st : DigestState}
    (hcandidate : cleanMemory candidate = true) (hmerged : clean (redact merged).1 = true)
    (hst : CleanState st) (input : DigestInput) (tenant : Option TenantFilter) :
    Screens C (digestMerge C input tenant candidate merged st) CleanState := by
  unfold digestMerge
  dsimp only
  rw [redactPair_content hon]
  refine ensures_bind (screens_maybeEmbed fun _ => hmerged) fun embedding _ => ?_
  refine ensures_bind (screens_write ?_ _ _) fun _ _ => hst
  exact Bool.and_eq_true_iff.mpr ⟨hmerged, (Bool.and_eq_true_iff.mp hcandidate).2⟩

theorem screens_digestDecide {item : ExtractedMemory} {st : DigestState} {archived : List Memory}
    (hitem : inputSettles C item.content item.tags = true)
    (hembedded : C.embeddings = true → clean item.content = true) (hst : CleanState st)
    (harchived : ∀ m ∈ archived, cleanMemory m = true) (input : DigestInput) (options : Options)
    (tenant : Option TenantFilter) (scope key : String) :
    Screens C (digestDecide C input options tenant archived item scope key st) CleanState := by
  refine ensures_bind (screens_maybeEmbed hembedded) fun itemVec _ => ?_
  split
  · exact screens_digestStore hon hitem hst _ _ _ _
  · rename_i candidate hfound
    have hcandidate : cleanMemory candidate = true := by
      rcases List.mem_append.mp (findCandidate_mem hfound) with hm | hm
      · exact hst _ hm
      · exact harchived _ hm
    refine ensures_bind (ensures_request trivial) fun decision hdecision => ?_
    split
    · exact hst
    · exact screens_digestMerge hon hcandidate hdecision.2 hst _ _
    · exact screens_digestStore hon hitem hst _ _ _ _
    · exact screens_digestStore hon hitem hst _ _ _ _

omit hon in
theorem screens_reviveFound (found : Option Memory) (tenant : Option TenantFilter) :
    Screens C (reviveFound found tenant) fun _ => True := by
  cases found with
  | none => trivial
  | some m => exact ensures_bind (screens_backend (q := .revive m.id tenant) trivial) fun _ _ => trivial

theorem screens_digestItem {item : ExtractedMemory} {st : DigestState} {archived : List Memory}
    (hitem : itemSettles C item = true) (hst : CleanState st)
    (harchived : ∀ m ∈ archived, cleanMemory m = true) (input : DigestInput) (options : Options)
    (tenant : Option TenantFilter) :
    Screens C (digestItem C input options tenant archived st item) CleanState := by
  obtain ⟨hembedded, hsettles⟩ := Bool.and_eq_true_iff.mp hitem
  obtain ⟨hcontent, htags⟩ := cleanItem_eq hon item
  rw [← hcontent, ← htags] at hsettles
  have hclean : C.embeddings = true → clean (cleanItem C item).content = true := by
    intro henabled
    rw [hcontent]
    simpa [henabled] using hembedded
  refine ensures_bind (ensures_bind (ensures_request trivial) fun _ _ => screens_ensure _ _ _)
    fun _ _ => ?_
  dsimp only
  split
  · exact hst
  · refine ensures_bind (screens_reviveFound _ _) fun exact _ => ?_
    split
    · exact hst
    split
    · exact hst
    refine ensures_bind (screens_reviveFound _ _) fun near _ => ?_
    split
    · exact hst
    · exact screens_digestDecide hon hsettles hclean hst harchived _ _ _ _ _

theorem screens_digest (input : DigestInput) (options : Options) :
    Screens C (digest C input options) fun _ => True := by
  refine ensures_bind (screens_ensure _ _ _) fun _ _ => ?_
  refine ensures_bind (screens_freshTenantFilter _ _ _) fun tenant _ => ?_
  have hextract : Screens C (extractItems input.transcript) fun items =>
      ∀ item ∈ items, itemSettles C item = true := by
    refine ensures_bind (ensures_request trivial) fun answer hanswer => ?_
    split
    · exact hanswer.2
    · trivial
    · trivial
  refine ensures_bind hextract fun extracted hextracted => ?_
  refine ensures_bind (screens_all _ _) fun current hcurrent => ?_
  refine ensures_bind (screens_readable _ hcurrent) fun active hactive => ?_
  refine ensures_bind (screens_all _ _) fun everything heverything => ?_
  refine ensures_bind (screens_readable _ fun m hm => heverything m (List.mem_of_mem_filter hm))
    fun archived harchived => ?_
  exact ensures_bind (ensures_foldlM (fun st item hmem hst =>
    screens_digestItem hon (hextracted item hmem) hst harchived _ _ _) hactive) fun _ _ => trivial

omit hon in
theorem screens_getAll (tenant : Option TenantFilter) (ids : List String) :
    Screens C (getAll tenant ids) fun found => ∀ m ∈ found, cleanMemory m = true := by
  induction ids with
  | nil => exact fun m hm => nomatch hm
  | cons id ids ih =>
    refine ensures_bind (screens_get _ _) fun found hfound => ?_
    refine ensures_bind ih fun rest hrest m hm => ?_
    rcases List.mem_append.mp hm with hm | hm
    · exact hfound m (Option.mem_toList.mp hm)
    · exact hrest m hm

omit hon in
theorem screens_compressedText {pool : List Memory} (h : ∀ m ∈ pool, cleanMemory m = true) :
    Screens C (compressedText pool) fun text => settles C text = true := by
  refine ensures_bind (ensures_request trivial) fun answer hanswer => ?_
  split
  · exact hanswer.2 _ rfl
  · exact hanswer.2 pool h rfl

theorem screens_compress (input : CompressInput) (options : Options) :
    Screens C (compress C input options) fun _ => True := by
  refine ensures_bind (screens_freshTenantFilter _ _ _) fun tenant _ => ?_
  have hcandidates : Screens C (compressCandidates input tenant) fun found =>
      ∀ m ∈ found, cleanMemory m = true := by
    unfold compressCandidates
    split
    · exact screens_getAll _ _
    · exact screens_all _ _
  have hpool : Screens C (compressPool C input options tenant) fun pool =>
      ∀ m ∈ pool, cleanMemory m = true := by
    refine ensures_bind hcandidates fun found hfound => ?_
    refine ensures_bind (screens_readable _ hfound) fun pool hpool => ?_
    exact fun m hm => hpool m (List.mem_of_mem_filter hm)
  refine ensures_bind hpool fun pool hpool => ?_
  dsimp only
  have hsorted : ∀ m ∈ pool.mergeSort fun a b => C.text.localeLe a.createdAt b.createdAt,
      cleanMemory m = true := fun m hm => hpool m (List.mem_mergeSort.mp hm)
  split
  · refine ensures_bind (screens_compressedText hsorted) fun text htext => ?_
    refine ensures_bind (ensures_request trivial) fun now _ => ?_
    refine ensures_bind (screens_store hon (Bool.and_eq_true_iff.mpr ⟨htext, ?_⟩) options)
      fun _ _ => trivial
    refine List.all_eq_true.mpr fun t ht => ?_
    obtain ⟨m, hm, ht⟩ := List.mem_flatMap.mp ht
    have hclean := List.all_eq_true.mp (Bool.and_eq_true_iff.mp (hsorted m hm)).2 t ht
    rw [tagSettles, redact_of_clean hclean]
    exact hclean
  · trivial

end Digest

theorem screens_queryVector {query : Option String} (h : query.all clean = true) (options : Options) :
    Screens C (queryVector C query options) fun _ => True := by
  have hcancelled : Screens C assertSearchNotCancelled fun _ => True :=
    ensures_bind (ensures_request trivial) fun _ _ => screens_ensure _ _ _
  refine ensures_bind hcancelled fun _ _ => ?_
  refine ensures_bind (screens_freshTenantFilter _ _ _) fun tenant _ => ?_
  split
  · trivial
  · rename_i text hgiven
    obtain ⟨hgiven, -⟩ := Option.filter_eq_some_iff.mp (Option.filter_eq_some_iff.mp hgiven).1
    rw [hgiven] at h
    exact ensures_bind (screens_maybeEmbed fun _ => h) fun _ _ =>
      ensures_bind hcancelled fun _ _ => trivial

/-! Batches and imports. -/

theorem screens_runItems {α β : Type} {run : α → Act β} {idOf : α → Option String} {items : List α}
    (h : ∀ item ∈ items, Screens C (run item) fun _ => True) (index : ℕ) :
    Screens C (runItems run idOf index items) fun _ => True := by
  induction items generalizing index with
  | nil => trivial
  | cons item rest ih =>
    refine ensures_bind (ensures_attempt (h item (List.mem_cons_self ..))) fun _ _ => ?_
    exact ensures_bind (ih (fun item hitem => h item (List.mem_cons_of_mem _ hitem)) _) fun _ _ => trivial

theorem screens_batchDelete (fits : Bool) (ids : List String) (options : Options) :
    Screens C (batchDelete C fits ids options) fun _ => True := by
  refine ensures_bind (screens_ensure _ _ _) fun _ _ => ?_
  refine ensures_bind (ensures_request trivial) fun _ _ => ?_
  refine ensures_bind (ensures_ofExcept fun _ _ => trivial) fun _ _ => ?_
  refine screens_runItems (fun id _ => ?_) 0
  refine ensures_bind (screens_forget id options) fun ok _ => ?_
  exact ensures_bind (screens_ensure _ _ _) fun _ _ => trivial

theorem screens_batchUpdate (hon : C.redactOn = true) {items : List (String × UpdateInput)}
    (h : ∀ item ∈ items, updateSettles C item.2 = true) (fits : Bool) (options : Options) :
    Screens C (batchUpdate C fits items options) fun _ => True := by
  refine ensures_bind (screens_ensure _ _ _) fun _ _ => ?_
  refine ensures_bind (ensures_request trivial) fun _ _ => ?_
  refine ensures_bind (ensures_ofExcept fun _ _ => trivial) fun _ _ => ?_
  refine screens_runItems (fun item hitem => ?_) 0
  exact ensures_bind (screens_update hon (h item hitem) _ _) fun _ _ => trivial

theorem screens_ignoring {α : Type} {p : Act α} {R : α → Prop} (h : Screens C p R) :
    Screens C (ignoring p) fun _ => True := ensures_bind h fun _ _ => trivial

/-- Every call whose texts settle. -/
theorem screens_program (hon : C.redactOn = true) {op : Operation}
    (h : Request.settles C (.operation op) = true) : Screens C (op.program C) fun _ => True := by
  cases op with
  | store input options => exact screens_ignoring (screens_store hon h options)
  | batchStore items options =>
    exact screens_ignoring (screens_batch hon (fun input hinput => List.all_eq_true.mp h input hinput) options)
  | update id input options => exact screens_ignoring (screens_update hon h id options)
  | archive id options => exact screens_ignoring (screens_archive id options)
  | revive id options => exact screens_ignoring (screens_revive id options)
  | forget id options => exact screens_ignoring (screens_forget id options)
  | relate input options => exact screens_ignoring (screens_relate input options)
  | embedMemory id options => exact screens_ignoring (screens_embedMemoryJob id options)
  | maintain options => exact screens_ignoring (screens_maintain options)
  | digest input options => exact screens_ignoring (screens_digest hon input options)
  | compress input options => exact screens_ignoring (screens_compress hon input options)
  | search query options => exact screens_ignoring (screens_queryVector h options)

variable (C) in
def GoodDemand : (q : Demand) → q.Answer → Prop
  | .ask q, a => GoodAnswer C q a
  | .importBatch _ _, _ => True

theorem screens_lifted {α : Type} {p : Act α} {R : α → Prop} (h : Screens C p R) :
    (lifted p).Ensures (GoodDemand C) CleanDemand R := by
  induction p with
  | done a => exact h
  | fail e => trivial
  | ask q next ih => exact ⟨h.1, fun a ha => ih a (h.2 a ha)⟩

theorem clean_of_preparedMemory (hon : C.redactOn = true) {options : Options}
    {tenant : Option TenantFilter} {raw : SnapshotMemory} {m : Memory}
    (hsettles : inputSettles C raw.content raw.tags = true)
    (h : preparedMemory C options tenant raw = .ok m) : cleanMemory m = true := by
  obtain ⟨hcontent, htags⟩ := Bool.and_eq_true_iff.mp hsettles
  obtain ⟨trust, metaFields, held, hheld, hkept, hkeptTags⟩ := preparedMemory_texts h
  have hredacted := redactPair_eq hon raw.content raw.tags
  rw [hredacted] at hheld hkeptTags
  refine Bool.and_eq_true_iff.mpr ⟨?_, ?_⟩
  · rw [hkept]
    exact clean_of_policed hcontent rfl hheld
  · rw [hkeptTags, List.all_map]
    exact htags

theorem screens_importSnapshot (hon : C.redactOn = true) {data : Snapshot}
    (h : ∀ raw ∈ data.memories, inputSettles C raw.content raw.tags = true)
    (fits : Snapshot → Bool) (options : Options) :
    (importSnapshot C fits data options).Ensures (GoodDemand C) CleanDemand fun _ => True := by
  have hprepared : Screens C (prepareSnapshotImport C fits data options) fun p =>
      ∀ m ∈ p.prepared, cleanMemory m = true := by
    refine ensures_bind (screens_freshTenantFilter _ _ _) fun tenant _ => ?_
    refine ensures_bind screens_refusal fun snap hsnap => ?_
    refine ensures_bind screens_refusal fun _ _ => ?_
    refine ensures_bind (screens_all _ _) fun allExisting hall => ?_
    refine ensures_bind (screens_readable _ hall) fun existing _ => ?_
    refine ensures_bind screens_refusal fun st hst => ?_
    obtain ⟨-, -, -, -, rfl⟩ := parseSnapshot_eq_ok.mp hsnap
    have hclean : ∀ m ∈ st.prepared, cleanMemory m = true := by
      refine forall_prepareAll hst (fun m hm => nomatch hm) fun raw hraw m _ hm => ?_
      obtain ⟨unstripped, hmem, rfl⟩ := List.mem_map.mp hraw
      have hsettles : inputSettles C (strippedMemory unstripped).content
          (strippedMemory unstripped).tags = true := h unstripped hmem
      exact clean_of_preparedMemory hon hsettles hm
    refine ensures_bind (ensures_each fun m _ => screens_assertTenantReferences _ _ _) fun _ _ => ?_
    intro m hm
    obtain ⟨x, hx, rfl⟩ := List.mem_map.mp hm
    unfold withoutHidden
    dsimp only
    split
    · exact hclean x hx
    · exact hclean x hx
  refine ensures_bind (screens_lifted hprepared) fun p hp => ?_
  refine ensures_bind (ensures_request hp) fun answer _ => ?_
  exact ensures_bind (ensures_ofExcept fun _ _ => trivial) fun _ _ => trivial

/-- Every request whose texts settle. -/
theorem screens_request (hon : C.redactOn = true) (fits : Snapshot → Bool) {r : Request}
    (h : r.settles C = true) :
    (r.program C fits).Ensures (GoodDemand C) CleanDemand fun _ => True := by
  cases r with
  | operation op => exact screens_lifted (screens_program hon h)
  | batchUpdate ok items options =>
    exact screens_lifted (screens_ignoring
      (screens_batchUpdate hon (fun item hitem => List.all_eq_true.mp h item hitem) ok options))
  | batchDelete ok ids options =>
    exact screens_lifted (screens_ignoring (screens_batchDelete ok ids options))
  | importSnapshot data options =>
    exact ensures_bind (screens_importSnapshot hon
      (fun raw hraw => List.all_eq_true.mp h raw hraw) fits options) fun _ _ => trivial

end Programs

/-! ### The store -/

section Tables
variable {C : Config} {s t : Tables} {now : ℤ} {id : String} {tenant : Option TenantFilter}

/-- Nothing in the store can be redacted. -/
def CleanTables (s : Tables) : Prop := ∀ row ∈ s.memories.rows, cleanRow row = true

theorem CleanTables.get {row : Row} (h : CleanTables s) (hget : s.memories.get id = some row) :
    cleanRow row = true := h row (Table.get_eq_some.mp hget).1

theorem cleanTables_iff_get :
    CleanTables s ↔ ∀ id row, s.memories.get id = some row → cleanRow row = true :=
  ⟨fun h _ _ hget => h.get hget, fun h row hrow => h _ row (Table.get_of_mem hrow)⟩

theorem CleanTables.insert (h : CleanTables s) {m : Memory} (hm : cleanMemory m = true)
    (hinsert : s.memories.insert (rowOf C.backend.platform m) = some t.memories) : CleanTables t := by
  intro row hrow
  rw [(Table.rows_insert hinsert).2] at hrow
  rcases List.mem_append.mp hrow with hrow | hrow
  · exact h row hrow
  · rw [List.mem_singleton.mp hrow]
    exact hm

theorem CleanTables.rewrite (h : CleanTables s) (id : String) (row : Row) (hrow : cleanRow row = true)
    (hget : ∀ k, t.memories.get k = if k = id then some row else s.memories.get k) :
    CleanTables t := by
  refine cleanTables_iff_get.mpr fun k r hk => ?_
  rw [hget] at hk
  split at hk
  · cases hk
    exact hrow
  · exact h.get hk

theorem cleanTables_store (h : CleanTables s) {input : StoreInput} {embedding : Option (List JsNum)}
    (hinput : clean input.content = true ∧ input.tags.all clean = true) {r : Except Failure Memory}
    (hstore : Tables.store C.backend s now id input embedding tenant = (r, t)) :
    CleanTables t ∧ ∀ m, r = .ok m → cleanMemory m = true := by
  have hrecord : cleanMemory (Sqlite.storeRecord C.backend.platform now id input embedding tenant) = true :=
    Bool.and_eq_true_iff.mpr hinput
  obtain ⟨-, ⟨⟨e, rfl⟩, -, hsame | hinsert⟩ | ⟨rfl, hinsert, -⟩⟩ := Tables.store_cases hstore
  · refine ⟨?_, fun m hm => by cases hm⟩
    unfold CleanTables
    rw [hsame]
    exact h
  · exact ⟨h.insert hrecord hinsert, fun m hm => by cases hm⟩
  · refine ⟨h.insert hrecord hinsert, fun m hm => ?_⟩
    cases hm
    exact hrecord

theorem cleanTables_update (h : CleanTables s) {memory : Memory} {options : Store.UpdateOptions}
    (hmemory : cleanMemory memory = true) {r : Except Failure Memory}
    (hupdate : Tables.update C.backend s now memory options tenant = (r, t)) : CleanTables t := by
  cases r with
  | error e =>
    unfold CleanTables
    rw [memories_update_error hupdate]
    exact h
  | ok m =>
    obtain ⟨row, -, hget⟩ := get_update hupdate
    refine h.rewrite memory.id (setUpdated C.backend.platform (updatedOver C.backend now row memory) row) ?_ hget
    exact hmemory

theorem cleanTables_archive (h : CleanTables s) {r : Except Failure (Option Memory)}
    (harchive : Tables.archive C.backend s now id tenant = (r, t)) : CleanTables t := by
  obtain ⟨-, ⟨-, -, rfl⟩ | ⟨row, hsel, -, -, hrows, -⟩⟩ := Tables.archive_cases harchive
  · exact h
  · have hrow : cleanRow row = true := h.get (Sqlite.Serial.selected_eq_some.mp hsel).1
    refine h.rewrite id (Sqlite.setArchived (Sqlite.Serial.stamp C.backend now) row) hrow fun k => ?_
    rw [hrows]
    exact Sqlite.get_updateWhere_selected hsel _ _ k

theorem cleanTables_revive (h : CleanTables s) {r : Except Failure (Option Memory)}
    (hrevive : Tables.revive C.backend s now id tenant = (r, t)) : CleanTables t := by
  obtain ⟨-, ⟨-, -, rfl⟩ | ⟨row, hsel, -, hrows, -⟩⟩ := Tables.revive_cases hrevive
  · exact h
  · have hrow : cleanRow row = true := h.get (Sqlite.Serial.selected_eq_some.mp hsel).1
    refine h.rewrite id (Sqlite.setRevived (Sqlite.Serial.stamp C.backend now) row) hrow fun k => ?_
    rw [hrows]
    exact Sqlite.get_updateWhere_selected hsel _ _ k

theorem cleanTables_forget (h : CleanTables s) {r : Except Failure Bool}
    (hforget : Tables.forget C.backend s now id tenant = (r, t)) : CleanTables t := by
  refine cleanTables_iff_get.mpr fun k row hk => ?_
  obtain ⟨-, rfl⟩ | ⟨old, hsel, -, -, ⟨-, -, hrows, -⟩ | ⟨-, -, hrows, -⟩⟩ := Tables.forget_cases hforget
  · exact h.get hk
  · rw [hrows] at hk
    exact h.get hk
  · rw [hrows, Sqlite.get_deleteWhere_selected hsel] at hk
    split at hk
    · cases hk
    · exact h.get hk

theorem cleanTables_importAll {memories : List Memory} {answer : List Memory × ℕ} (h : CleanTables s)
    (hmemories : ∀ m ∈ memories, cleanMemory m = true)
    (himport : Tables.importAll C.backend s now tenant memories = (.ok answer, t)) : CleanTables t := by
  induction memories generalizing s answer with
  | nil =>
    cases himport
    exact h
  | cons m memories ih =>
    unfold Tables.importAll at himport
    split at himport
    · cases himport
    rename_i added u hone
    have hfirst : CleanTables u := by
      obtain ⟨hr, -, hskip⟩ | ⟨-, -, hinsert, -⟩ := Tables.importMemory_cases hone
      · cases added with
        | true => exact absurd rfl hr
        | false =>
          rw [hskip rfl]
          exact h
      · exact h.insert (hmemories m (List.mem_cons_self ..)) hinsert
    split at himport
    · cases himport
    rename_i imported skipped v hrest
    have hv : v = t := by
      split at himport <;> cases himport <;> rfl
    subst hv
    exact ih hfirst (fun m hm => hmemories m (List.mem_cons_of_mem _ hm)) hrest

theorem cleanTables_importBatch (h : CleanTables s) {memories : List Memory}
    (hmemories : ∀ m ∈ memories, cleanMemory m = true) {r : Except Failure (List Memory × ℕ)}
    (himport : Tables.importBatch C.backend s now memories tenant = (r, t)) : CleanTables t := by
  unfold Tables.importBatch at himport
  split at himport
  · cases himport
    exact h
  · rename_i answer u hall
    cases himport
    exact cleanTables_importAll h hmemories hall

theorem cleanMemory_of_row (h : CleanTables s) {row : Row} {m : Memory} (hrow : row ∈ s.memories.rows)
    (hm : Sqlite.rowToMemory row = some m) : cleanMemory m = true := by
  obtain ⟨-, rfl⟩ := Sqlite.rowToMemory_eq_some.mp hm
  exact h row hrow

/-- A clean question keeps the store clean. -/
theorem cleanTables_demand {E : Environment} {w : World} (h : CleanTables w.tables) {q : Demand}
    (hq : CleanDemand q) : CleanTables (handleDemand C E q w).2.tables := by
  cases q with
  | importBatch memories tenant => exact cleanTables_importBatch h hq rfl
  | ask q =>
    cases q with
    | store input embedding tenant => exact (cleanTables_store h hq rfl).1
    | update base patch options tenant => exact cleanTables_update h hq rfl
    | archive id tenant => exact cleanTables_archive h rfl
    | revive id tenant => exact cleanTables_revive h rfl
    | forget id tenant => exact cleanTables_forget h rfl
    | embed gate text =>
      simp only [handleDemand, handle]
      cases w.refusal E gate <;> exact h
    | extract gate transcript =>
      simp only [handleDemand, handle]
      cases w.refusal E gate <;> exact h
    | _ => exact h

/-- The answer to a clean question shows clean memories. -/
theorem cleanAnswer_handle {E : Environment} {w : World} (h : CleanTables w.tables) {q : Ask}
    (hq : CleanAsk q) : CleanAnswer q (handle C E q w).1 := by
  cases q with
  | get id tenant =>
    intro m hm
    obtain ⟨row, hrow, hread⟩ := Option.bind_eq_some_iff.mp hm
    obtain ⟨hget, -⟩ := Option.filter_eq_some_iff.mp hrow
    exact cleanMemory_of_row h (Table.get_eq_some.mp hget).1 hread
  | all includeArchived tenant =>
    intro m hm
    obtain ⟨row, hrow, hread⟩ := List.mem_filterMap.mp hm
    exact cleanMemory_of_row h (List.mem_filter.mp (mem_newestFirst.mp hrow)).1 hread
  | store input embedding tenant =>
    rcases hstore : Tables.store C.backend w.tables (E.writeClock w.writes) (E.newId w.writes) input
      embedding tenant with ⟨r, t⟩
    obtain ⟨-, hrecord⟩ := cleanTables_store h hq hstore
    simp only [handle, hstore]
    cases r with
    | error e => trivial
    | ok m => exact hrecord m rfl
  | _ => trivial

end Tables

/-! ### Runs -/

/-- The requests under way, and the texts that have been handed to the embedder. -/
structure Screening where
  requests : Requests
  embedded : List String := []

/-- `redact(x).changed` is false of every content, every tag and every text that was embedded. -/
structure NothingRedactable (s : Screening) : Prop where
  stored : ∀ row ∈ s.requests.world.tables.memories.rows,
    clean row.content = true ∧ ∀ tag ∈ row.tags, clean tag = true
  embedded : ∀ text ∈ s.embedded, clean text = true

section Runs
variable (C : Config) (E : Environment) (fits : Snapshot → Bool)

/-- The text that a question hands to the embedder, unless the gate refuses it. -/
def embeddedBy (w : World) : Demand → List String
  | .ask (.embed gate text) => if (w.refusal E gate).isNone then [text] else []
  | _ => []

def screeningStep (s : Screening) (e : RequestEvent) : Option Screening :=
  (requestStep C E fits s.requests e).map fun requests => {
    requests := requests
    embedded := s.embedded ++
      (questionOf s.requests e).toList.flatMap (embeddedBy E s.requests.world) }

/-- What a step hands in settles: the texts of a new request, or those that a provider answers with. -/
def Settled (s : Screening) (e : RequestEvent) : Prop :=
  (∀ r, e = .call r → r.settles C = true) ∧
    ∀ q, questionOf s.requests e = some (.ask q) →
      AnswerSettles C q (handle C E q s.requests.world).1

/-- The store is clean, and so is all that the requests under way will ask for. -/
structure Screened (s : Screening) : Prop where
  tables : CleanTables s.requests.world.tables
  embedded : ∀ text ∈ s.embedded, clean text = true
  running : ∀ p ∈ s.requests.running, p.Ensures (GoodDemand C) CleanDemand fun _ => True

variable {C E fits}

theorem clean_of_embedded {w : World} {q : Demand} (hq : CleanDemand q) {text : String}
    (h : text ∈ embeddedBy E w q) : clean text = true := by
  unfold embeddedBy at h
  split at h
  · split at h
    · rw [List.mem_singleton.mp h]
      exact hq
    · cases h
  · cases h

theorem screened_step (hon : C.redactOn = true) {s t : Screening} {e : RequestEvent}
    (hs : Screened C s) (hsettled : Settled C E s e) (h : screeningStep C E fits s e = some t) :
    Screened C t := by
  obtain ⟨requests, hstep, rfl⟩ := Option.map_eq_some_iff.mp h
  cases e with
  | call r =>
    cases hstep
    refine ⟨hs.tables, ?_, fun p hp => ?_⟩
    · simpa [questionOf] using hs.embedded
    · rcases List.mem_append.mp hp with hp | hp
      · exact hs.running p hp
      · rw [List.mem_singleton.mp hp]
        exact screens_request hon fits (hsettled.1 r rfl)
  | configure manifest =>
    cases hstep
    refine ⟨hs.tables, ?_, hs.running⟩
    simpa [questionOf] using hs.embedded
  | answer i =>
    obtain ⟨q, next, hi, rfl⟩ := Pool.turn_eq_some.mp hstep
    have hquestion : questionOf s.requests (.answer i) = some q := by
      simp only [questionOf, hi]
    obtain ⟨hclean, hnext⟩ := hs.running _ (List.mem_of_getElem? hi)
    refine ⟨cleanTables_demand hs.tables hclean, ?_, fun p hp => ?_⟩
    · intro text htext
      rcases List.mem_append.mp htext with htext | htext
      · exact hs.embedded text htext
      · rw [hquestion] at htext
        simp only [Option.toList_some, List.flatMap_cons, List.flatMap_nil, List.append_nil] at htext
        exact clean_of_embedded hclean htext
    · rcases List.mem_or_eq_of_mem_set hp with hp | rfl
      · exact hs.running p hp
      · refine hnext _ ?_
        cases q with
        | importBatch memories tenant => trivial
        | ask q => exact ⟨cleanAnswer_handle hs.tables hclean, hsettled.2 q hquestion⟩

/-- With redaction on, nothing that can be redacted is stored or embedded, in any state of a run that
    begins with a clean store and in which every text that is handed in settles. -/
theorem nothing_redactable (hon : C.redactOn = true) (tables : Tables) (manifest : Manifest)
    (hclean : ∀ row ∈ tables.memories.rows, cleanRow row = true) (events : List RequestEvent)
    (h : Transition.Along (screeningStep C E fits) (Settled C E) ⟨idle tables manifest, []⟩ events) :
    Transition.Everywhere (screeningStep C E fits) NothingRedactable ⟨idle tables manifest, []⟩
      events := by
  refine Transition.everywhere_of_along (I := Screened C)
    (fun s e t hs hsettled hstep => screened_step hon hs hsettled hstep) (fun s hs => ?_) events ?_ h
  · refine ⟨fun row hrow => ?_, hs.embedded⟩
    obtain ⟨hcontent, htags⟩ := Bool.and_eq_true_iff.mp (hs.tables row hrow)
    exact ⟨hcontent, List.all_eq_true.mp htags⟩
  · exact ⟨hclean, (fun text htext => by cases htext), fun p hp => by cases hp⟩

end Runs

/-! ### Addresses in content and tags -/

def redactingConfig : Config := { plainConfig with redactOn := true }

/-- A language model that extracts the same harmless item from everything. -/
def harmlessModel : Environment :=
  { steady with extract := fun _ _ => .ok [{ type := .fact, content := "tea" }] }

theorem harmless_answer (q : Ask) (w : World) :
    AnswerSettles redactingConfig q (handle redactingConfig harmlessModel q w).1 := by
  have hitem : settles redactingConfig "tea" = true ∧
      itemSettles redactingConfig { type := .fact, content := "tea" } = true := by decide +kernel
  cases q with
  | extract gate transcript =>
    simp only [handle]
    cases hrefusal : w.refusal harmlessModel gate with
    | none =>
      cases gate with
      | none => exact fun _ _ => hitem.1
      | some label =>
        intro item hmem
        rw [List.mem_singleton.mp hmem]
        exact hitem.2
    | some e =>
      cases gate with
      | none => cases hrefusal
      | some label => trivial
  | embed gate text =>
    simp only [handle]
    cases w.refusal harmlessModel gate <;> trivial
  | _ => trivial

/-- A note with an address in its content and another among its tags. -/
def addressStored : List RequestEvent := [
  .call (.operation (.store { type := .fact, content := "ask bob@example.com", tags := ["eve@example.com"] }
    {})), .answer 0, .answer 0, .answer 0]

/-- The addresses are neither stored nor embedded. -/
theorem nothing_redactable_address :
    Transition.Everywhere (screeningStep redactingConfig harmlessModel fun _ => true) NothingRedactable
      ⟨idle {} ⟨"openai", .external, .internal, false, 0⟩, []⟩ addressStored := by
  refine nothing_redactable rfl {} _ (fun row hrow => nomatch hrow) _ ?_
  have hcalls : ∀ e ∈ addressStored, ∀ r, e = .call r → r.settles redactingConfig = true := by
    intro e he r hr
    subst hr
    simp only [addressStored, List.mem_cons, reduceCtorEq, or_false, RequestEvent.call.injEq,
      List.not_mem_nil] at he
    subst he
    decide +kernel
  exact Transition.along_of_along (fun _ _ _ _ _ _ => trivial)
    (fun s e _ h => ⟨h, fun q _ => harmless_answer q s.requests.world⟩) addressStored trivial
    (Transition.along_of_mem hcalls _)

/-- The tag of an update is stored as it is. -/
theorem address_is_stored :
    ¬ Transition.Everywhere (screeningStep redactingConfig steady fun _ => true) NothingRedactable
      ⟨idle {} ⟨"openai", .external, .internal, false, 0⟩, []⟩ [
        .call (.operation (.store { type := .fact, content := "tea at five" } {})),
        .answer 0, .answer 0, .answer 0,
        .call (.operation (.update "m-0" { tags := some ["bob@example.com"] } {})),
        .answer 1, .answer 1, .answer 1] := by
  refine Transition.not_everywhere (fun s => s.requests.world.tables.memories.rows.any fun row =>
    row.tags.any fun tag => !clean tag) (by decide +kernel) fun s hbad hs => ?_
  obtain ⟨row, hrow, hbad⟩ := List.any_eq_true.mp hbad
  obtain ⟨tag, htag, hbad⟩ := List.any_eq_true.mp hbad
  rw [(hs.stored row hrow).2 tag htag] at hbad
  cases hbad

end Remembra.Service
