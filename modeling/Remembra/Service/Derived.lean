import Remembra.Service.DigestLaw

/-! Do memories that are derived from others keep their labels? A compression writes a record of its own,
    with a trust that follows from its provenance and without a sensitivity; a merge puts a text from a
    conversation into a candidate and leaves the candidate's trust. So a compression keeps the labels of
    its sources exactly where they are public and of at least the trust that it gives itself, or where
    the policy quarantines the result, and a merge exactly where the candidate is unverified
    (`labels_kept_iff`). -/

namespace Remembra.Service
open Store (Memory TrustLevel SensitivityBand Yaml JsNum StoreInput TenantFilter)
open Sqlite (Row Memories rowOf setRevived storeRecord)
open Sqlite.Serial (Tables)
open Prog

/-! ### Labels -/

/-- The place in the list of trust levels. -/
def trustRank : TrustLevel → ℕ
  | .unverified => 0
  | .trusted => 1
  | .verified => 2
  | .system => 3

/-- The labels of a text. -/
structure Labels where
  trust : TrustLevel
  sensitivity : SensitivityBand
  quarantined : Bool

def memoryLabels (m : Memory) : Labels :=
  ⟨m.trust, m.sensitivity.getD .isPublic, metaFlag m "quarantined"⟩

/-- A text that was extracted from a conversation. -/
def extractedLabels : Labels := ⟨.unverified, .isPublic, false⟩

/-- `row.meta?.quarantined` counts as true. -/
def rowQuarantined (row : Row) : Bool := ((row.metaFields.getD []).lookup "quarantined").any isTrue

/-- The row is labelled no better than any of its sources. -/
structure KeepsLabels (sources : List Labels) (row : Row) : Prop where
  trust : ∀ s ∈ sources, trustRank row.trust ≤ trustRank s.trust
  sensitivity : ∀ s ∈ sources, bandIndex s.sensitivity ≤ bandIndex row.sensitivity
  quarantined : ∀ s ∈ sources, s.quarantined = true → rowQuarantined row = true

theorem keepsLabels_map {memories : List Memory} {row : Row} :
    KeepsLabels (memories.map memoryLabels) row ↔
      (∀ m ∈ memories, trustRank row.trust ≤ trustRank m.trust) ∧
      (∀ m ∈ memories, bandIndex (m.sensitivity.getD .isPublic) ≤ bandIndex row.sensitivity) ∧
      ∀ m ∈ memories, metaFlag m "quarantined" = true → rowQuarantined row = true := by
  constructor
  · intro h
    exact ⟨fun m hm => h.trust _ (List.mem_map_of_mem hm),
      fun m hm => h.sensitivity _ (List.mem_map_of_mem hm),
      fun m hm => h.quarantined _ (List.mem_map_of_mem hm)⟩
  · rintro ⟨htrust, hsensitivity, hquarantined⟩
    constructor
    · intro s hs
      obtain ⟨m, hm, rfl⟩ := List.mem_map.mp hs
      exact htrust m hm
    · intro s hs
      obtain ⟨m, hm, rfl⟩ := List.mem_map.mp hs
      exact hsensitivity m hm
    · intro s hs
      obtain ⟨m, hm, rfl⟩ := List.mem_map.mp hs
      exact hquarantined m hm

/-- Nothing is below unverified. -/
theorem trustRank_le_unverified {t : TrustLevel} (h : trustRank t ≤ trustRank .unverified) :
    t = .unverified := by
  cases t with
  | unverified => rfl
  | trusted => exact absurd h (by decide)
  | verified => exact absurd h (by decide)
  | system => exact absurd h (by decide)

/-- Nothing is below public. -/
theorem band_le_public {band : SensitivityBand} (h : bandIndex band ≤ bandIndex .isPublic) :
    band = .isPublic := by
  cases band with
  | isPublic => rfl
  | internal => exact absurd h (by decide)
  | confidential => exact absurd h (by decide)
  | secret => exact absurd h (by decide)

/-! ### What a store makes of an input's labels -/

/-- The pairs with one value in place of all those under a key. -/
def replaced (key : String) (value : Yaml) (l : List (String × Yaml)) : List (String × Yaml) :=
  l.map fun (k, v) => if k = key then (k, value) else (k, v)

theorem lookup_replaced (key k : String) (value : Yaml) : ∀ l : List (String × Yaml),
    (replaced key value l).lookup k =
      if k = key then (l.lookup key).map fun _ => value else l.lookup k
  | [] => by simp [replaced]
  | (x, v) :: l => by
    have ih := lookup_replaced key k value l
    by_cases hx : x = key
    · subst hx
      change ((if x = x then (x, value) else (x, v)) :: replaced x value l).lookup k = _
      rw [if_pos rfl]
      by_cases hk : k = x
      · simp [hk]
      · have hbeq : (k == x) = false := by simpa using hk
        simp only [List.lookup_cons, hbeq, ih, if_neg hk]
    · change ((if x = key then (x, value) else (x, v)) :: replaced key value l).lookup k = _
      rw [if_neg hx]
      have hkey : (key == x) = false := by simpa using Ne.symm hx
      by_cases hk : k = x
      · subst hk
        simp [hx]
      · have hbeq : (k == x) = false := by simpa using hk
        simp only [List.lookup_cons, hbeq, hkey, ih]

theorem lookup_withMeta (fields : Option (List (String × Yaml))) (key k : String) (value : Yaml) :
    (withMeta fields key value).lookup k =
      if k = key then some value else (fields.getD []).lookup k := by
  unfold withMeta
  generalize fields.getD [] = l
  dsimp only
  split
  · rename_i hsome
    obtain ⟨v, hv⟩ := Option.isSome_iff_exists.mp hsome
    refine (lookup_replaced key k value l).trans ?_
    rw [hv]
    rfl
  · rename_i hnone
    rw [List.lookup_append]
    by_cases hk : k = key
    · subst hk
      have hl : l.lookup k = none := Option.not_isSome_iff_eq_none.mp hnone
      simp [hl]
    · have hbeq : (k == key) = false := by simpa using hk
      simp [List.lookup_cons, hbeq, hk]

section Cleaned
variable {C : Config} {options : Options}

/-- The policy puts a text in quarantine, as a store hands it the text. -/
def policyQuarantines (C : Config) (content : String) (tags : List String) : Bool :=
  let scanned := scan C.sensitiveData C.redactionEnabled
    (((redactPair C content tags).map Prod.fst).getD content)
  scanned.detected && scanned.action = .quarantine

/-- The checks leave the labels, and a provenance of the system's or an agent's keeps its kind. -/
theorem checked_labels {i parsed : StoreInput} (h : checkedInput C i options = .ok parsed) :
    parsed.content = i.content ∧ parsed.tags = i.tags ∧ parsed.trust = i.trust ∧
      parsed.sensitivity = i.sensitivity ∧ parsed.metaFields = i.metaFields ∧
      ((i.provenance.bind (·.sourceType)).any (· ∈ [.system, .agent]) = true →
        (Store.newProvenance parsed.provenance).sourceType =
          (i.provenance.bind (·.sourceType)).getD .manual) := by
  unfold checkedInput at h
  split at h
  · cases h
  cases hcanonical : canonicalizeAgentInput C i options with
  | error e =>
    rw [hcanonical] at h
    cases h
  | ok canonical =>
    rw [hcanonical] at h
    cases hwrite : assertAgentWrite C canonical options with
    | error e => simp [Except.bind, hwrite, Except.map] at h
    | ok u =>
      simp only [Except.bind, hwrite, Except.map, Except.ok.injEq] at h
      subst h
      unfold canonicalizeAgentInput at hcanonical
      dsimp only at hcanonical
      split at hcanonical
      · cases hcanonical
        exact ⟨rfl, rfl, rfl, rfl, rfl, fun _ => rfl⟩
      split at hcanonical
      · split at hcanonical
        · cases hcanonical
        · cases hcanonical
          exact ⟨rfl, rfl, rfl, rfl, rfl, fun _ => rfl⟩
      · split at hcanonical
        · cases hcanonical
        · cases hcanonical
          refine ⟨rfl, rfl, rfl, rfl, rfl, fun hkind => ?_⟩
          obtain ⟨kind, hkind, hmem⟩ := (Option.any_eq_true _ _).mp hkind
          simp only [List.mem_cons, List.not_mem_nil, or_false, decide_eq_true_eq] at hmem
          simp only [Store.newProvenance, provenanceInput, canonicalProvenance, rawProvenance, hkind,
            Option.bind_some, Option.getD_some]
          rcases hmem with rfl | rfl <;> rfl

/-- What the redaction leaves of the text that the policy sees. -/
theorem redacted_content (parsed : StoreInput) :
    (if C.redactOn then applyRedaction C parsed else parsed).content =
      ((redactPair C parsed.content parsed.tags).map Prod.fst).getD parsed.content := by
  unfold applyRedaction
  split
  · cases hpair : redactPair C parsed.content parsed.tags with
    | none => rfl
    | some pair => rfl
  · rename_i hoff
    simp [redactPair, hoff]

/-- The policy changes the labels of what it quarantines. -/
theorem policy_labels {x held : Held} (h : applySensitivePolicy C x = .ok held) :
    held.trust = (if (scan C.sensitiveData C.redactionEnabled x.content).detected &&
        (scan C.sensitiveData C.redactionEnabled x.content).action = .quarantine
      then some .unverified else x.trust) ∧
      (held.metaFields.getD []).lookup "quarantined" =
        if (scan C.sensitiveData C.redactionEnabled x.content).detected &&
          (scan C.sensitiveData C.redactionEnabled x.content).action = .quarantine
        then some (.bool true) else (x.metaFields.getD []).lookup "quarantined" := by
  unfold applySensitivePolicy at h
  dsimp only at h
  generalize scan C.sensitiveData C.redactionEnabled x.content = scanned at h ⊢
  obtain ⟨text, detected, categories, action, quarantine⟩ := scanned
  cases detected with
  | false =>
    cases h
    exact ⟨rfl, rfl⟩
  | true =>
    cases action with
    | reject => cases h
    | quarantine =>
      cases h
      exact ⟨rfl, by rw [Option.getD_some, lookup_withMeta]; rfl⟩
    | redact =>
      cases h
      exact ⟨rfl, rfl⟩
    | allow =>
      cases h
      exact ⟨rfl, rfl⟩

theorem flagInjection_labels (i : StoreInput) : (flagInjection C i).provenance = i.provenance ∧
    (flagInjection C i).sensitivity = i.sensitivity ∧ (flagInjection C i).trust = i.trust ∧
    ((flagInjection C i).metaFields.getD []).lookup "quarantined" =
      (i.metaFields.getD []).lookup "quarantined" := by
  unfold flagInjection
  split
  · refine ⟨rfl, rfl, rfl, ?_⟩
    rw [Option.getD_some, lookup_withMeta, if_neg (by decide)]
  · exact ⟨rfl, rfl, rfl, rfl⟩

/-- The policy's quarantine is what a store adds to the labels. -/
theorem cleaned_labels {parsed cleaned : StoreInput} (h : cleanedInput C parsed = .ok cleaned) :
    cleaned.provenance = parsed.provenance ∧ cleaned.sensitivity = parsed.sensitivity ∧
      cleaned.trust = (if policyQuarantines C parsed.content parsed.tags then some .unverified
        else parsed.trust) ∧
      (cleaned.metaFields.getD []).lookup "quarantined" =
        if policyQuarantines C parsed.content parsed.tags then some (.bool true)
        else (parsed.metaFields.getD []).lookup "quarantined" := by
  unfold policyQuarantines
  dsimp only
  rw [← redacted_content]
  have hredacted : (if C.redactOn then applyRedaction C parsed else parsed).provenance =
        parsed.provenance ∧
      (if C.redactOn then applyRedaction C parsed else parsed).sensitivity = parsed.sensitivity ∧
      (if C.redactOn then applyRedaction C parsed else parsed).trust = parsed.trust ∧
      (if C.redactOn then applyRedaction C parsed else parsed).metaFields = parsed.metaFields := by
    unfold applyRedaction
    split
    · split <;> exact ⟨rfl, rfl, rfl, rfl⟩
    · exact ⟨rfl, rfl, rfl, rfl⟩
  unfold cleanedInput applyInputPolicy at h
  generalize (if C.redactOn then applyRedaction C parsed else parsed) = redacted at h hredacted ⊢
  obtain ⟨hprovenance, hsensitivity, htrust, hmeta⟩ := hredacted
  cases hpolicy : applySensitivePolicy C
      ⟨redacted.content, redacted.trust, redacted.metaFields⟩ with
  | error e => simp [hpolicy, Except.map] at h
  | ok held =>
    simp only [hpolicy, Except.map, Except.ok.injEq] at h
    obtain ⟨htrusted, hquarantined⟩ := policy_labels hpolicy
    obtain ⟨hp, hs, ht, hm⟩ := flagInjection_labels (C := C)
      { redacted with content := held.content, trust := held.trust, metaFields := held.metaFields }
    rw [← h, ← htrust, ← hmeta]
    exact ⟨hp.trans hprovenance, hs.trans hsensitivity, ht.trans htrusted, hm.trans hquarantined⟩

/-- What a store makes of an input without labels of its own. -/
theorem stored_labels {i parsed cleaned : StoreInput} (h : checkedInput C i options = .ok parsed)
    (h' : cleanedInput C parsed = .ok cleaned) (htrust : i.trust = none)
    (hsensitivity : i.sensitivity = none)
    (hmeta : (i.metaFields.getD []).lookup "quarantined" = none)
    (hkind : (i.provenance.bind (·.sourceType)).any (· ∈ [.system, .agent]) = true) (now : ℤ)
    (id : String) (vector : Option (List JsNum)) (tenant : Option TenantFilter) :
    let row := rowOf C.backend.platform (storeRecord C.backend.platform now id cleaned vector tenant)
    row.trust = (if policyQuarantines C i.content i.tags then .unverified
        else Store.defaultTrust ((i.provenance.bind (·.sourceType)).getD .manual)) ∧
      row.sensitivity = .isPublic ∧ rowQuarantined row = policyQuarantines C i.content i.tags := by
  intro row
  obtain ⟨hcontent, htags, htrust', hsensitivity', hmeta', hkind'⟩ := checked_labels h
  obtain ⟨hprovenance, hs, ht, hm⟩ := cleaned_labels h'
  rw [hcontent, htags] at ht hm
  rw [htrust', htrust] at ht
  rw [hmeta', hmeta] at hm
  have hrow : row.trust = cleaned.trust.getD
      (Store.defaultTrust (Store.newProvenance cleaned.provenance).sourceType) := rfl
  have hrow' : row.sensitivity = cleaned.sensitivity.getD .isPublic := rfl
  have hrow'' : rowQuarantined row =
      ((cleaned.metaFields.getD []).lookup "quarantined").any isTrue := rfl
  rw [hrow, hrow', hrow'', ht, hs, hsensitivity', hsensitivity, hm, hprovenance, hkind' hkind]
  cases policyQuarantines C i.content i.tags <;> exact ⟨rfl, rfl, rfl⟩

end Cleaned

/-! ### Compression -/

/-- The trust that a compression gives itself. -/
def compressTrust (sources : List Memory) : TrustLevel :=
  if sources.any fun m => m.access = some .isPrivate then .trusted else .system

/-- The sources of a compression are public and no better trusted than its record would be, or the policy
    quarantines what has been made of them. -/
structure Compressible (C : Config) (sources : List Memory) (text : String) : Prop where
  sensitivity : ∀ m ∈ sources, m.sensitivity.getD .isPublic = .isPublic
  labels : policyQuarantines C text (sources.flatMap (·.tags)) = true ∨
    ∀ m ∈ sources, trustRank (compressTrust sources) ≤ trustRank m.trust ∧
      metaFlag m "quarantined" = false

section Compress
variable (C : Config) (E : Environment) (input : CompressInput) (options : Options) (w : World)

/-- A compression of these sources, the oldest first, has come to the text and stored the memory. -/
def Compresses (sources : List Memory) (text : String) (m : Memory) (w' : World) : Prop :=
  ∃ tenant w₁ pool w₂ w₃ ids,
    (freshTenantFilter C options .write none).exec (handle C E) w = (.ok tenant, w₁) ∧
      (compressPool C input options tenant).exec (handle C E) w₁ = (.ok pool, w₂) ∧
      sources = pool.mergeSort (fun a b => C.text.localeLe a.createdAt b.createdAt) ∧
      (compressedText sources).exec (handle C E) w₂ = (.ok text, w₃) ∧
      (compress C input options).exec (handle C E) w = (.ok (some m, ids), w')

/-- The stored memory is labelled no better than any of its sources. -/
def CompressKeeps : Prop :=
  ∀ sources text m w', Compresses C E input options w sources text m w' →
    ∃ row, w'.tables.memories.get m.id = some row ∧ KeepsLabels (sources.map memoryLabels) row

def CompressFair : Prop :=
  ∀ sources text m w', Compresses C E input options w sources text m w' → Compressible C sources text

end Compress

section Compress
variable {C : Config} {E : Environment} {input : CompressInput} {options : Options} {w w' : World}
  {sources : List Memory} {text : String} {m : Memory}

theorem nothing_compressed {ids : List String} : ¬ (Prog.done (none, []) :
    Act (Option Memory × List String)).exec (handle C E) w = (.ok (some m, ids), w') := by
  rw [exec_done]
  rintro ⟨⟩

/-- The part of a compression behind its pool, the oldest memory first. -/
theorem compress_cases (h : Compresses C E input options w sources text m w') :
    ∃ first second third rest w₂ w₃, sources = first :: second :: third :: rest ∧
      (compressedText sources).exec (handle C E) w₂ = (.ok text, w₃) ∧
      ∃ ids, (do
        let now ← Act.now
        let stored ← store C (compressInput C input options first sources text now) options none
        pure (some stored.memory, sources.map (·.id)) : Act (Option Memory × List String)).exec
          (handle C E) w₃ = (.ok (some m, ids), w') := by
  obtain ⟨tenant, w₁, pool, w₂, w₃, ids, htenant, hpool, hsources, htext, h⟩ := h
  unfold compress at h
  rw [exec_bind, htenant, continued_ok, exec_bind, hpool, continued_ok, ← hsources] at h
  rcases sources with _ | ⟨first, _ | ⟨second, _ | ⟨third, rest⟩⟩⟩
  · exact absurd h nothing_compressed
  · exact absurd h nothing_compressed
  · exact absurd h nothing_compressed
  · refine ⟨first, second, third, rest, w₂, w₃, rfl, htext, ids, ?_⟩
    rw [exec_bind, htext, continued_ok] at h
    exact h

/-- A compression stores the record of its text. -/
theorem compress_inserts (h : Compresses C E input options w sources text m w') :
    ∃ first stamp parsed cleaned tenant vector now id memories, first ∈ sources ∧
      checkedInput C (compressInput C input options first sources text stamp) options = .ok parsed ∧
      cleanedInput C parsed = .ok cleaned ∧
      m = storeRecord C.backend.platform now id cleaned vector tenant ∧
      Table.insert memories (rowOf C.backend.platform m) = some w'.tables.memories := by
  obtain ⟨first, second, third, rest, w₂, w₃, rfl, -, ids, h⟩ := compress_cases h
  obtain ⟨now, w₄, -, h⟩ := (exec_bind_eq_ok _).mp h
  obtain ⟨stored, w₅, hstored, h⟩ := (exec_bind_eq_ok _).mp h
  rw [exec_pure] at h
  obtain ⟨⟨⟨rfl⟩, -⟩, rfl⟩ := h
  obtain ⟨parsed, cleaned, tenant', vector, stamp, id, hchecked, hcleaned, -, hrecord, hinsert⟩ :=
    store_inserts hstored
  exact ⟨first, now, parsed, cleaned, tenant', vector, stamp, id, _, List.mem_cons_self ..,
    hchecked, hcleaned, hrecord, hinsert⟩

/-- A compression keeps the labels of its sources exactly where they are fair. -/
theorem compress_keeps_iff (h : Compresses C E input options w sources text m w') :
    (∃ row, w'.tables.memories.get m.id = some row ∧ KeepsLabels (sources.map memoryLabels) row) ↔
      Compressible C sources text := by
  obtain ⟨first, stamp, parsed, cleaned, tenant, vector, now, id, memories, hfirst, hchecked,
    hcleaned, hrecord, hinsert⟩ := compress_inserts h
  have hget : w'.tables.memories.get m.id = some (rowOf C.backend.platform m) :=
    (Table.get_insert hinsert m.id).trans (if_pos rfl)
  have hkind : ((compressInput C input options first sources text stamp).provenance.bind
      (·.sourceType)) = some (if sources.any (fun m => m.access = some .isPrivate) then .agent
        else .system) := by
    unfold compressInput
    dsimp only
    split <;> rfl
  obtain ⟨htrust, hsensitivity, hquarantined⟩ := stored_labels hchecked hcleaned rfl rfl rfl
    (by rw [hkind]; split <;> rfl) now id vector tenant
  rw [← hrecord] at htrust hsensitivity hquarantined
  have htrusted : Store.defaultTrust (((compressInput C input options first sources text
      stamp).provenance.bind (·.sourceType)).getD .manual) = compressTrust sources := by
    rw [hkind, Option.getD_some]
    unfold compressTrust
    split <;> rfl
  rw [htrusted] at htrust
  change _ = (if policyQuarantines C text (sources.flatMap (·.tags)) = true then _ else _) at htrust
  change _ = policyQuarantines C text (sources.flatMap (·.tags)) at hquarantined
  rw [hget]
  have hlabels : (∃ row, some (rowOf C.backend.platform m) = some row ∧
        KeepsLabels (sources.map memoryLabels) row) ↔
      KeepsLabels (sources.map memoryLabels) (rowOf C.backend.platform m) :=
    ⟨by rintro ⟨row, ⟨rfl⟩, hkeeps⟩; exact hkeeps, fun hkeeps => ⟨_, rfl, hkeeps⟩⟩
  rw [hlabels, keepsLabels_map, htrust, hsensitivity, hquarantined]
  constructor
  · rintro ⟨hranks, hbands, hquarantines⟩
    refine ⟨fun m hm => band_le_public (hbands m hm), ?_⟩
    cases hpolicy : policyQuarantines C text (sources.flatMap (·.tags)) with
    | true => exact .inl rfl
    | false =>
      rw [hpolicy] at hranks hquarantines
      refine .inr fun m hm => ⟨hranks m hm, ?_⟩
      exact eq_false_of_ne_true fun hflag => Bool.false_ne_true (hquarantines m hm hflag)
  · intro hfair
    refine ⟨?_, fun m hm => ?_, ?_⟩
    · intro m hm
      split
      · exact Nat.zero_le _
      · rename_i hpolicy
        exact (hfair.labels.resolve_left hpolicy m hm).1
    · rw [hfair.sensitivity m hm]
    · intro m hm hflag
      rcases hfair.labels with hpolicy | hsources
      · exact hpolicy
      · rw [(hsources m hm).2] at hflag
        cases hflag

end Compress

/-! ### Merges -/

def rowLabels (row : Row) : Labels := ⟨row.trust, row.sensitivity, rowQuarantined row⟩

/-- The memory's row has the labels that the memory was read with. -/
def Labelled (memories : Memories) (m : Memory) : Prop :=
  ∃ row, memories.get m.id = some row ∧ rowLabels row = memoryLabels m

section Merge
variable (C : Config) (E : Environment) (input : DigestInput) (options : Options) (b : Begun)

/-- The memories that a round can merge into, and those that it has merged into, have their labels. -/
structure TrueLabels (L : Loop) : Prop where
  pool : ∀ m ∈ L.st.active ++ b.archived, Labelled L.world.tables.memories m
  merged : ∀ a ∈ L.answered, ∀ candidate content, a.course = .merged candidate content →
    Labelled L.world.tables.memories candidate

/-- A memory that an extracted text has been merged into is labelled no better than it was and than the
    text. -/
def MergesKept (L : Loop) : Prop :=
  ∀ a ∈ L.answered, ∀ candidate content, a.course = .merged candidate content →
    ∃ row, L.world.tables.memories.get candidate.id = some row ∧
      KeepsLabels [memoryLabels candidate, extractedLabels] row

/-- The round merges into nothing but an unverified memory. -/
def Untrusting (L : Loop) (item : ExtractedMemory) : Prop :=
  ∀ candidate content w, (course C input b.tenant b.archived L.st item).exec (handle C E) L.world =
    (.ok (.merged candidate content), w) → candidate.trust = .unverified

end Merge

section Merge
variable {C : Config} {E : Environment} {input : DigestInput} {options : Options} {b : Begun}

theorem keepsLabels_merged_iff {row : Row} {m : Memory} (h : rowLabels row = memoryLabels m) :
    KeepsLabels [memoryLabels m, extractedLabels] row ↔ m.trust = .unverified := by
  have htrust : row.trust = m.trust := congrArg Labels.trust h
  constructor
  · intro hkeeps
    have hrank : trustRank row.trust ≤ trustRank .unverified :=
      hkeeps.trust extractedLabels (by simp)
    rw [← htrust]
    exact trustRank_le_unverified hrank
  · intro hm
    refine ⟨fun s _ => ?_, fun s hs => ?_, fun s hs hflag => ?_⟩
    · rw [htrust, hm]
      exact Nat.zero_le _
    · rcases List.mem_pair.mp hs with rfl | rfl
      · rw [← h]
        exact le_rfl
      · exact Nat.zero_le _
    · rcases List.mem_pair.mp hs with rfl | rfl
      · rw [← h] at hflag
        exact hflag
      · cases hflag

theorem mergesKept_iff {L : Loop} (h : TrueLabels b L) : MergesKept L ↔
    ∀ a ∈ L.answered, ∀ candidate content, a.course = .merged candidate content →
      candidate.trust = .unverified := by
  refine forall₂_congr fun a ha => forall₂_congr fun candidate content => forall_congr' fun hcourse => ?_
  obtain ⟨row, hrow, hlabels⟩ := h.merged a ha candidate content hcourse
  rw [← keepsLabels_merged_iff hlabels]
  constructor
  · rintro ⟨row', hrow', hkeeps⟩
    rw [hrow, Option.some.injEq] at hrow'
    exact hrow' ▸ hkeeps
  · exact fun hkeeps => ⟨row, hrow, hkeeps⟩

/-! ### What a round does to the labels -/

/-- No row goes or changes its labels. -/
def KeepsRows (memories memories' : Memories) : Prop :=
  ∀ id row, memories.get id = some row →
    ∃ row', memories'.get id = some row' ∧ rowLabels row' = rowLabels row

theorem KeepsRows.labelled {memories memories' : Memories} (h : KeepsRows memories memories')
    {m : Memory} (hm : Labelled memories m) : Labelled memories' m := by
  obtain ⟨row, hrow, hlabels⟩ := hm
  obtain ⟨row', hrow', hsame⟩ := h m.id row hrow
  exact ⟨row', hrow', hsame.trans hlabels⟩

theorem KeepsRows.refl (memories : Memories) : KeepsRows memories memories :=
  fun _ row hrow => ⟨row, hrow, rfl⟩

theorem keepsRows_revive {w : World} {id : String} {tenant : Option TenantFilter} :
    KeepsRows w.tables.memories (handle C E (.revive id tenant) w).2.tables.memories := by
  intro k row hrow
  rcases h : Tables.revive C.backend w.tables (E.writeClock w.writes) id tenant with ⟨r, t⟩
  have htables : (handle C E (.revive id tenant) w).2.tables = t := by
    simp only [handle, h, World.written]
  rw [htables]
  obtain ⟨-, ⟨-, -, rfl⟩ | ⟨old, hsel, -, hmemories, -⟩⟩ := Tables.revive_cases h
  · exact ⟨row, hrow, rfl⟩
  have hget := Sqlite.get_updateWhere_selected hsel (setRevived (Sqlite.Serial.stamp C.backend
    (E.writeClock w.writes))) (fun _ => rfl) k
  rw [hmemories, hget]
  split
  · rename_i hk
    rw [hk, (Sqlite.Serial.selected_eq_some.mp hsel).1, Option.some.injEq] at hrow
    exact ⟨_, rfl, hrow ▸ rfl⟩
  · exact ⟨row, hrow, rfl⟩

theorem labelled_course {st : DigestState} {item : ExtractedMemory} {w : World} {m : Memory}
    (h : Labelled w.tables.memories m) :
    Labelled ((course C input b.tenant b.archived st item).exec (handle C E) w).2.tables.memories m :=
  exec_induct (handle C E) (I := fun w => Labelled w.tables.memories m)
    (fun q w hq hw => by
      rcases hq with hreads | ⟨id, rfl⟩
      · rw [tables_handle hreads]
        exact hw
      · exact keepsRows_revive.labelled hw)
    (only_course _ _ _) h

/-- A merge keeps the labels where the candidate has those of its row. -/
theorem keepsRows_merge {tenant : Option TenantFilter} {candidate : Memory} {merged : String}
    {st st' : DigestState} {w w' : World}
    (h : (digestMerge C input tenant candidate merged st).exec (handle C E) w = (.ok st', w'))
    (hcandidate : Labelled w.tables.memories candidate) :
    KeepsRows w.tables.memories w'.tables.memories := by
  unfold digestMerge at h
  obtain ⟨embedding, w₁, hembedding, h⟩ := (exec_bind_eq_ok _).mp h
  obtain ⟨m, w₂, hupdate, h⟩ := (exec_bind_eq_ok _).mp h
  cases h
  have htables := tables_of_exec (only_maybeEmbed C (fun q hq _ => hq) _) hembedding
  obtain ⟨row, hsel, hget⟩ := get_update (tables_update_of_exec hupdate)
  rw [htables] at hsel hget
  obtain ⟨old, hold, hlabels⟩ := hcandidate
  have hrow := (Sqlite.Serial.selected_eq_some.mp hsel).1
  intro k r hr
  rw [hget]
  split
  · rename_i hk
    obtain rfl : k = candidate.id := hk
    obtain rfl : r = old := Option.some.inj (hr.symm.trans hold)
    obtain rfl : r = row := Option.some.inj (hr.symm.trans hrow)
    have htrust : r.trust = candidate.trust := congrArg Labels.trust hlabels
    have hquarantined : rowQuarantined r = metaFlag candidate "quarantined" :=
      congrArg Labels.quarantined hlabels
    refine ⟨_, rfl, ?_⟩
    change Labels.mk candidate.trust r.sensitivity (metaFlag candidate "quarantined") = rowLabels r
    rw [← htrust, ← hquarantined]
    rfl
  · exact ⟨r, hr, rfl⟩

/-- A new row leaves the others. -/
theorem keepsRows_insert {memories memories' : Memories} {row : Row}
    (h : memories.insert row = some memories') : KeepsRows memories memories' := by
  intro k r hr
  have hne : k ≠ row.id := by
    rintro rfl
    rw [Table.insert_eq_none.mpr (by rw [hr]; simp)] at h
    cases h
  exact ⟨r, (Table.get_insert h k).trans ((if_neg hne).trans hr), rfl⟩

/-! ### Where a candidate comes from -/

theorem mem_betterCandidate {newContent : String} {itemVec : Option (List JsNum)} {pool : List Memory}
    {m : Memory} : ∀ (l : List Memory) (best : Option Memory × ℚ), (∀ x ∈ l, x ∈ pool) →
      (∀ x ∈ best.1, x ∈ pool) → (l.foldl (betterCandidate C newContent itemVec) best).1 = some m →
      m ∈ pool
  | [], best, _, hbest, h => hbest m h
  | x :: l, best, hl, hbest, h => by
    refine mem_betterCandidate l _ (fun y hy => hl y (List.mem_cons_of_mem _ hy)) ?_ h
    unfold betterCandidate
    split
    · rintro y ⟨rfl⟩
      exact hl x (List.mem_cons_self ..)
    · exact hbest

theorem findCandidate_mem {item : ExtractedMemory} {scope : String} {pool : List Memory}
    {itemVec : Option (List JsNum)} {m : Memory}
    (h : findCandidate C item scope pool itemVec = some m) : m ∈ pool := by
  unfold findCandidate at h
  dsimp only at h
  split at h
  · exact mem_betterCandidate _ _ (fun x hx => (List.mem_filter.mp hx).1) (by simp) h
  · cases h

theorem decidedCourse_merged {candidate m : Memory} {decision : Except Thrown Decision}
    {content : String} (h : decidedCourse candidate decision = .merged m content) : m = candidate := by
  rcases decision with e | decision
  · cases h
  · cases decision with
    | store => cases h
    | skip => cases h
    | merge content =>
      cases h
      rfl

/-- A round merges into one of the memories that it has been given. -/
theorem course_merged {archived : List Memory} {tenant : Option TenantFilter} {st : DigestState}
    {item : ExtractedMemory} {w w' : World} {candidate : Memory} {content : String}
    (h : (course C input tenant archived st item).exec (handle C E) w =
      (.ok (.merged candidate content), w')) : candidate ∈ st.active ++ archived := by
  unfold course at h
  obtain ⟨u, w₁, -, h⟩ := (exec_bind_eq_ok _).mp h
  dsimp only at h
  split at h
  · cases h
  unfold freshCourse at h
  obtain ⟨exact, w₂, -, h⟩ := (exec_bind_eq_ok _).mp h
  split at h
  · cases h
  split at h
  · cases h
  obtain ⟨near, w₃, -, h⟩ := (exec_bind_eq_ok _).mp h
  split at h
  · cases h
  unfold decideCourse at h
  obtain ⟨itemVec, w₄, -, h⟩ := (exec_bind_eq_ok _).mp h
  cases hfound : findCandidate C (cleanItem C item) (itemScope input (cleanItem C item))
    (st.active ++ archived) itemVec with
  | none =>
    rw [hfound] at h
    cases h
  | some m =>
    rw [hfound] at h
    obtain ⟨decision, w₅, -, h⟩ := (exec_bind_eq_ok _).mp h
    rw [exec_pure, Prod.mk.injEq, Except.ok.injEq] at h
    rw [decidedCourse_merged h.1]
    exact findCandidate_mem hfound

/-! ### Rounds -/

theorem labelsTrue_round {L L' : Loop} {item : ExtractedMemory} (hL : TrueLabels b L)
    (h : round C E input options b L item = some L') : TrueLabels b L' := by
  obtain ⟨taken, w, st, w', hcourse, hfollow, rfl⟩ := round_eq_some.mp h
  have hdecided {m : Memory} (hm : Labelled L.world.tables.memories m) :
      Labelled w.tables.memories m := by
    have hcome := @labelled_course C E input b L.st item L.world m hm
    rwa [hcourse] at hcome
  -- Where the rest of the round keeps the rows, only the memories that it adds are left to be looked at.
  have hnext (hrows : KeepsRows w.tables.memories w'.tables.memories)
      (hactive : ∀ m ∈ st.active, m ∉ L.st.active → Labelled w'.tables.memories m)
      (htaken : ∀ candidate content, taken = .merged candidate content →
        candidate ∈ L.st.active ++ b.archived) :
      TrueLabels b ⟨st, w', L.answered ++ [⟨item, taken⟩]⟩ := by
    refine ⟨fun m hm => ?_, fun a ha candidate content ha' => ?_⟩
    · by_cases hold : m ∈ L.st.active ++ b.archived
      · exact hrows.labelled (hdecided (hL.pool m hold))
      · have hparts : m ∈ st.active ∧ m ∉ L.st.active := by
          simp only [List.mem_append, not_or] at hm hold
          exact ⟨hm.resolve_right hold.2, hold.1⟩
        exact hactive m hparts.1 hparts.2
    · rcases List.mem_append.mp ha with ha | ha
      · exact hrows.labelled (hdecided (hL.merged a ha candidate content ha'))
      · rw [List.mem_singleton.mp ha] at ha'
        exact hrows.labelled (hdecided (hL.pool _ (htaken candidate content ha')))
  cases taken with
  | duplicate =>
    cases hfollow
    exact hnext (.refl _) (fun m hm hnot => absurd hm hnot) (by simp)
  | revived =>
    cases hfollow
    exact hnext (.refl _) (fun m hm hnot => absurd hm hnot) (by simp)
  | skipped candidate =>
    cases hfollow
    exact hnext (.refl _) (fun m hm hnot => absurd hm hnot) (by simp)
  | merged candidate content =>
    have hmem := course_merged hcourse
    have hrows := keepsRows_merge hfollow (hdecided (hL.pool _ hmem))
    have hactive : st.active = L.st.active := by
      change (digestMerge ..).exec (handle C E) w = _ at hfollow
      unfold digestMerge at hfollow
      obtain ⟨embedding, w₁, -, hfollow⟩ := (exec_bind_eq_ok _).mp hfollow
      obtain ⟨m, w₂, -, hfollow⟩ := (exec_bind_eq_ok _).mp hfollow
      cases hfollow
      rfl
    refine hnext hrows (fun m hm hnot => absurd (hactive ▸ hm) hnot) ?_
    rintro _ _ ⟨rfl, rfl⟩
    exact hmem
  | fresh =>
    change (digestStore ..).exec (handle C E) w = _ at hfollow
    unfold digestStore at hfollow
    obtain ⟨stored, w₁, hstored, hdone⟩ := (exec_bind_eq_ok _).mp hfollow
    cases hdone
    obtain ⟨parsed, cleaned, tenant, vector, now, id, -, -, -, hrecord, hinsert⟩ :=
      store_inserts hstored
    refine hnext (keepsRows_insert hinsert) (fun m hm hnot => ?_) (by simp)
    have hm : m = stored.memory := by
      simp only [DigestState.push, List.mem_append, List.mem_singleton] at hm
      exact hm.resolve_left hnot
    subst hm
    exact ⟨_, (Table.get_insert hinsert _).trans (if_pos rfl), rfl⟩

theorem mergesKept_round {L L' : Loop} {item : ExtractedMemory} (hL : TrueLabels b L)
    (hkept : MergesKept L) (h : round C E input options b L item = some L') :
    MergesKept L' ↔ Untrusting C E input b L item := by
  rw [mergesKept_iff (labelsTrue_round hL h)]
  rw [mergesKept_iff hL] at hkept
  obtain ⟨taken, w, st, w', hcourse, hfollow, rfl⟩ := round_eq_some.mp h
  constructor
  · intro hall candidate content w₁ hcourse'
    rw [hcourse, Prod.mk.injEq, Except.ok.injEq] at hcourse'
    exact hall ⟨item, taken⟩ (by simp) candidate content hcourse'.1
  · intro huntrusting a ha candidate content ha'
    rcases List.mem_append.mp ha with ha | ha
    · exact hkept a ha candidate content ha'
    · rw [List.mem_singleton.mp ha] at ha'
      exact huntrusting candidate content w (ha' ▸ hcourse)

/-! ### Before the loop -/

/-- A memory that the backend hands out has the labels of its row. -/
theorem labelled_of_all {tables : Tables} {includeArchived : Bool} {tenant : Option TenantFilter}
    {m : Memory} (h : m ∈ tables.all includeArchived tenant) : Labelled tables.memories m := by
  unfold Tables.all at h
  obtain ⟨row, hrow, hread⟩ := List.mem_filterMap.mp h
  obtain ⟨-, rfl⟩ := Sqlite.rowToMemory_eq_some.mp hread
  have hmem := (List.mem_filter.mp (mem_newestFirst.mp hrow)).1
  exact ⟨row, Table.get_eq_some.mpr ⟨hmem, rfl⟩, rfl⟩

/-- What is readable of a list is in it. -/
theorem mem_readable {l pool : List Memory} {w w' : World}
    (h : (readable C options l).exec (handle C E) w = (.ok pool, w')) {m : Memory} (hm : m ∈ pool) :
    m ∈ l := by
  obtain ⟨hfilter, -⟩ := exec_ofRefusal_eq_ok.mp h
  obtain ⟨-, rfl⟩ := filterM_eq_ok.mp hfilter
  exact List.mem_of_mem_filter hm

theorem trueLabels_begun {w w₀ : World} (h : Begins C E input options w b w₀) :
    TrueLabels b (b.loop C w₀) := by
  unfold Begins digestBegin at h
  obtain ⟨u, w₁, hensure, h⟩ := (exec_bind_eq_ok _).mp h
  obtain ⟨tenant, w₂, htenant, h⟩ := (exec_bind_eq_ok _).mp h
  obtain ⟨extracted, w₃, hextracted, h⟩ := (exec_bind_eq_ok _).mp h
  obtain ⟨current, w₄, hcurrent, h⟩ := (exec_bind_eq_ok _).mp h
  obtain ⟨active, w₅, hactive, h⟩ := (exec_bind_eq_ok _).mp h
  obtain ⟨everything, w₆, heverything, h⟩ := (exec_bind_eq_ok _).mp h
  obtain ⟨archived, w₇, harchived, h⟩ := (exec_bind_eq_ok _).mp h
  cases h
  have hread {α : Type} {p : Act α} (hp : p.Only Ask.Reads) {u u' : World} {a : α}
      (hexec : p.exec (handle C E) u = (.ok a, u')) : u'.tables = u.tables := tables_of_exec hp hexec
  have hall (includeArchived : Bool) : (Act.all includeArchived tenant).Only Ask.Reads :=
    only_request.mpr trivial
  have hactiveTables : w₅.tables = w₃.tables :=
    (hread (only_ofRefusal _) hactive).trans (hread (hall false) hcurrent)
  have hafter : w₀.tables = w₅.tables :=
    (hread (only_ofRefusal _) harchived).trans (hread (hall true) heverything)
  cases hcurrent
  cases heverything
  refine ⟨fun m hm => ?_, by simp [Begun.loop]⟩
  change Labelled w₀.tables.memories m
  rw [hafter]
  rcases List.mem_append.mp hm with hm | hm
  · rw [hactiveTables]
    exact labelled_of_all (mem_readable hactive hm)
  · exact labelled_of_all (List.mem_filter.mp (mem_readable harchived hm)).1

end Merge

/-! ### The calls -/

section Calls
variable (C : Config) (E : Environment) (w : World)

/-- After each round of a digest what has been merged into is labelled no better than it was and than
    the texts. -/
def MergesKeep (input : DigestInput) (options : Options) : Prop :=
  ∀ b w₀, Begins C E input options w b w₀ →
    Transition.Everywhere (round C E input options b) MergesKept (b.loop C w₀) b.extracted

def MergesUntrusting (input : DigestInput) (options : Options) : Prop :=
  ∀ b w₀, Begins C E input options w b w₀ →
    Transition.Along (round C E input options b) (Untrusting C E input b) (b.loop C w₀) b.extracted

end Calls

theorem mergesKeep_iff {C : Config} {E : Environment} {w : World} {input : DigestInput}
    {options : Options} : MergesKeep C E w input options ↔ MergesUntrusting C E w input options := by
  refine forall₂_congr fun b w₀ => forall_congr' fun hbegins => ?_
  exact Transition.everywhere_iff_along
    (I := fun L => TrueLabels b L ∧ MergesKept L)
    (fun L item L' hL hok h => ⟨labelsTrue_round hL.1 h, (mergesKept_round hL.1 hL.2 h).mpr hok⟩)
    (fun L hL => hL.2)
    (fun L item L' hL hnot h hkept => hnot ((mergesKept_round hL.1 hL.2 h).mp hkept))
    ⟨trueLabels_begun hbegins, by simp [MergesKept, Begun.loop]⟩ _

/-- Compressions and merges keep the labels of what they are derived from exactly where their sources are
    labelled no better than they are. -/
theorem labels_kept_iff (C : Config) (E : Environment) (w : World) :
    (∀ input options, CompressKeeps C E input options w ↔ CompressFair C E input options w) ∧
      ∀ input options, MergesKeep C E w input options ↔ MergesUntrusting C E w input options := by
  refine ⟨fun input options => ?_, fun input options => mergesKeep_iff⟩
  exact forall₂_congr fun sources text => forall₂_congr fun m w' => forall_congr' fun h =>
    compress_keeps_iff h

/-- A service without embeddings. -/
def wordConfig : Config := { plainConfig with embeddings := false }

/-- A model that extracts one sentence and merges it into the memory it is shown. -/
def ovenExtracted : Environment :=
  { steady with
    extract := fun _ _ => .ok [{ type := .fact, content := "the oven needs cleaning soon" }]
    merge := fun _ text _ _ => .ok (.merge text) }

/-- A memory of the user's. -/
def ovenStored : World :=
  ((store wordConfig { type := .fact, content := "the oven needs repair" } {} none).exec
    (handle wordConfig ovenExtracted) (initial {} ⟨"openai", .external, .internal, false, 0⟩).world).2

/-- The loop has merged a text into a memory that is trusted. -/
def Loop.trusts (L : Loop) : Bool :=
  L.answered.any fun a =>
    match a.course with
    | .merged candidate _ =>
      (L.world.tables.memories.get candidate.id).any fun row => row.trust = .trusted
    | _ => false

theorem not_mergesKept {L : Loop} (h : L.trusts = true) : ¬ MergesKept L := by
  intro hkept
  obtain ⟨⟨item, taken⟩, ha, htrusts⟩ := List.any_eq_true.mp h
  cases taken with
  | merged candidate content =>
    obtain ⟨row, hrow, hkeeps⟩ := hkept _ ha candidate content rfl
    simp only [hrow, Option.any_some, decide_eq_true_eq] at htrusts
    have hrank := hkeeps.trust extractedLabels (by simp)
    rw [htrusts] at hrank
    exact absurd hrank (by decide)
  | duplicate => cases htrusts
  | revived => cases htrusts
  | skipped candidate => cases htrusts
  | fresh => cases htrusts

/-- The text of the conversation ends up in a trusted memory. -/
theorem text_is_trusted :
    ¬ MergesKeep wordConfig ovenExtracted ovenStored { transcript := "t" } {} := by
  intro h
  have hrun : ((digestBegin wordConfig { transcript := "t" } {}).exec (handle wordConfig ovenExtracted)
      ovenStored).1.toOption.any (fun b => (Transition.run
        (round wordConfig ovenExtracted { transcript := "t" } {} b)
        (b.loop wordConfig ((digestBegin wordConfig { transcript := "t" } {}).exec
          (handle wordConfig ovenExtracted) ovenStored).2) b.extracted).any Loop.trusts) = true := by
    decide +kernel
  rcases hbegins : (digestBegin wordConfig { transcript := "t" } {}).exec
    (handle wordConfig ovenExtracted) ovenStored with ⟨e | b, w₀⟩
  · rw [hbegins] at hrun
    cases hrun
  · rw [hbegins] at hrun
    exact Transition.not_everywhere Loop.trusts hrun (fun L hL => not_mergesKept hL) (h b w₀ hbegins)

end Remembra.Service
