import Remembra.Service.Insert

/-! Is a batch of stores its single stores one after another? The batch computes the vectors beforehand
    where it may, from the items as they came in: without the gate, before the policy has taken
    anything out, and for items that are refused later. So it is its single stores exactly where
    every item that gets through has the permit and the vector that its stored text has, and where
    each raw text is one that a single store would send (`batch_iff`). -/

namespace Remembra.Service
open Store (JsNum StoreInput)
open Sqlite (embedToBlob)
open Prog

section Batch
variable (C : Config) (E : Environment) (options : Options)

/-- The items without a vector. -/
def bare (items : List StoreInput) : List (StoreInput × Option (Option (List JsNum))) :=
  items.map fun item => (item, none)

/-- The stores one after another. -/
def singleStores (items : List StoreInput) : Act (List BatchOutcome) :=
  storeItems C options 0 (bare items)

/-! ### One item after another -/

/-- What a list of stores does to the world, and the outcomes. -/
def storeRun : ℕ → World → List (StoreInput × Option (Option (List JsNum))) →
    List BatchOutcome × World
  | _, w, [] => ([], w)
  | index, w, (item, override) :: rest =>
    let r := (store C item options override).exec (handle C E) w
    let s := storeRun (index + 1) r.2 rest
    (⟨index, r.1.map fun stored => (stored.id, stored.message)⟩ :: s.1, s.2)

theorem exec_storeItems :
    ∀ (items : List (StoreInput × Option (Option (List JsNum)))) (index : ℕ) (w : World),
      (storeItems C options index items).exec (handle C E) w =
        (.ok (storeRun C E options index w items).1, (storeRun C E options index w items).2)
  | [], _, _ => rfl
  | (item, override) :: rest, index, w => by
    unfold storeItems
    rw [exec_bind, exec_attempt, continued_ok, exec_bind, exec_storeItems rest, continued_ok]
    rfl

variable {C E options} {embed : String → Except Thrown (List JsNum)} {proceed : Except Thrown Unit}
  {w u : World}

/-- Ids stay free, and rows stay where they are. -/
structure Grows (E : Environment) (w w' : World) : Prop where
  fresh : FreshIds E w'
  rows : w.tables.memories.rows <+: w'.tables.memories.rows
  manifest : w'.manifest = w.manifest

theorem Grows.trans {w' w'' : World} (h : Grows E w w') (h' : Grows E w' w'') : Grows E w w'' :=
  ⟨h'.fresh, h.rows.trans h'.rows, h'.manifest.trans h.manifest⟩

theorem SameCore.grows {w' : World} (h : SameCore w w') (hfresh : FreshIds E w) : Grows E w w' :=
  ⟨hfresh.congr h, h.tables ▸ List.prefix_rfl, h.manifest⟩

theorem Stores.grows {r : Except Thrown Stored × World} {cleaned : StoreInput}
    {vector : Option (List JsNum)} (h : Stores C E w r cleaned vector) (hfresh : FreshIds E w) :
    Grows E w r.2 :=
  ⟨h.fresh hfresh, by rw [h.appends.rows]; exact List.prefix_append _ _, h.manifest⟩

section Runs
variable (hstrict : C.strict = false) (htenant : options.tenant = none)
  (hd : Deterministic E embed proceed) (hon : C.embeddings = true)
include hstrict htenant hd hon

/-- A single store changes nothing, or it stores the item. -/
theorem store_grows (hfresh : FreshIds E w) (item : StoreInput)
    (override : Option (Option (List JsNum))) :
    Grows E w ((store C item options override).exec (handle C E) w).2 := by
  cases hadmitted : admitted C options proceed item with
  | error e => exact (store_unadmitted hstrict htenant hd hadmitted override).2.core.grows hfresh
  | ok cleaned =>
    cases override with
    | some vector => exact (store_override hstrict htenant hd hadmitted hfresh vector).1.grows hfresh
    | none =>
      cases hpermits : w.permits E .internal with
      | false => exact (store_denied hstrict htenant hd hon hadmitted hpermits).core.grows hfresh
      | true =>
        cases hembed : orNone (embed cleaned.content) with
        | error e =>
          exact (store_thrown hstrict htenant hd hon hadmitted hpermits hembed).core.grows hfresh
        | ok vector =>
          exact (store_embedded hstrict htenant hd hon hadmitted hpermits hfresh hembed).1.grows hfresh

theorem storeRun_grows :
    ∀ (items : List (StoreInput × Option (Option (List JsNum)))) (index : ℕ) (w : World),
      FreshIds E w → Grows E w (storeRun C E options index w items).2
  | [], _, w, hfresh => ⟨hfresh, List.prefix_rfl, rfl⟩
  | (item, override) :: rest, index, w, hfresh => by
    have hstep := store_grows hstrict htenant hd hon hfresh item override
    exact hstep.trans (storeRun_grows rest (index + 1) _ hstep.fresh)

end Runs

/-! ### With the vectors computed beforehand -/

/-- The item's outcome and record do not depend on when its vector is computed: where it gets
    through, the gate lets its text pass and the raw text has the vector of the stored one. -/
def Agrees (C : Config) (options : Options) (proceed : Except Thrown Unit)
    (embed : String → Except Thrown (List JsNum)) (permitted : Bool) (item : StoreInput) : Prop :=
  ∀ cleaned, admitted C options proceed item = .ok cleaned → permitted = true ∧
    ∃ vector, orNone (embed cleaned.content) = .ok vector ∧
      embedToBlob C.backend.platform vector =
        embedToBlob C.backend.platform (embed item.content).toOption

section Runs
variable (hstrict : C.strict = false) (htenant : options.tenant = none)
  (hd : Deterministic E embed proceed) (hon : C.embeddings = true)
include hstrict htenant hd hon

/-- What one item does on both ways: they go on alike, or they have come apart for good. -/
theorem item_agrees (hcore : SameCore w u) (hfresh : FreshIds E w) (item : StoreInput) :
    let single := (store C item options none).exec (handle C E) w
    let batched := (store C item options (some (embed item.content).toOption)).exec (handle C E) u
    (Agrees C options proceed embed (w.permits E .internal) item ∧ SameCore single.2 batched.2 ∧
      single.1.map (fun s => (s.id, s.message)) = batched.1.map fun s => (s.id, s.message)) ∨
    (¬Agrees C options proceed embed (w.permits E .internal) item ∧
      (single.1.map (fun s => (s.id, s.message)) ≠ batched.1.map (fun s => (s.id, s.message)) ∨
        ∃ n, n < single.2.tables.memories.rows.length ∧ n < batched.2.tables.memories.rows.length ∧
          single.2.tables.memories.rows[n]? ≠ batched.2.tables.memories.rows[n]?)) := by
  intro single batched
  have hfresh' : FreshIds E u := hfresh.congr hcore
  cases hadmitted : admitted C options proceed item with
  | error e =>
    left
    obtain ⟨hsingle, hsame⟩ := store_unadmitted (w := w) hstrict htenant hd hadmitted none
    obtain ⟨hbatched, hsame'⟩ := store_unadmitted (w := u) hstrict htenant hd hadmitted
      (some (embed item.content).toOption)
    refine ⟨fun cleaned h => ?_, ?_, ?_⟩
    · rw [hadmitted] at h
      cases h
    · exact ⟨hsame'.core.tables.trans (hcore.tables.trans hsame.core.tables.symm),
        hsame'.core.writes.trans (hcore.writes.trans hsame.core.writes.symm),
        hsame'.core.manifest.trans (hcore.manifest.trans hsame.core.manifest.symm)⟩
    · exact congrArg _ (hsingle.trans hbatched.symm)
  | ok cleaned =>
    obtain ⟨hstored, -⟩ := store_override hstrict htenant hd hadmitted hfresh'
      (embed item.content).toOption
    -- The batch has stored the item. A single store that fails has another outcome.
    have hfailed (e : Thrown) (h : single.1 = .error e) :
        single.1.map (fun s => (s.id, s.message)) ≠ batched.1.map fun s => (s.id, s.message) := by
      rw [h, show batched.1 = _ from hstored.result]
      simp [Except.map]
    have hagrees : Agrees C options proceed embed (w.permits E .internal) item ↔
        w.permits E .internal = true ∧ ∃ vector, orNone (embed cleaned.content) = .ok vector ∧
          embedToBlob C.backend.platform vector =
            embedToBlob C.backend.platform (embed item.content).toOption :=
      ⟨fun h => h cleaned hadmitted, fun h other hother => by
        rw [hadmitted, Except.ok.injEq] at hother
        exact hother ▸ h⟩
    rw [hagrees]
    cases hpermits : w.permits E .internal with
    | false =>
      obtain ⟨e, hresult⟩ := (store_denied hstrict htenant hd hon hadmitted hpermits).result
      exact .inr ⟨by simp, .inl (hfailed e hresult)⟩
    | true =>
      cases hembed : orNone (embed cleaned.content) with
      | error e =>
        obtain ⟨e, hresult⟩ :=
          (store_thrown hstrict htenant hd hon hadmitted hpermits hembed).result
        exact .inr ⟨by simp, .inl (hfailed e hresult)⟩
      | ok vector =>
        obtain ⟨hsingle, -⟩ :=
          store_embedded hstrict htenant hd hon hadmitted hpermits hfresh hembed
        have happends := hstored.appends
        rw [hcore.tables, hcore.writes] at happends
        by_cases hblob : embedToBlob C.backend.platform vector =
            embedToBlob C.backend.platform (embed item.content).toOption
        · left
          refine ⟨⟨rfl, vector, rfl, hblob⟩, ⟨?_, ?_, ?_⟩, ?_⟩
          · exact ((hsingle.appends.unique happends).mpr hblob).symm
          · rw [hstored.writes, hsingle.writes, hcore.writes]
          · rw [hstored.manifest, hsingle.manifest, hcore.manifest]
          · rw [show single.1 = _ from hsingle.result, show batched.1 = _ from hstored.result]
            unfold storedReply
            rw [hcore.writes]
            rfl
        · right
          refine ⟨?_, .inr ⟨w.tables.memories.rows.length, ?_, ?_, ?_⟩⟩
          · rintro ⟨-, other, hother, heq⟩
            cases hother
            exact hblob heq
          · rw [show single.2.tables.memories.rows = _ from hsingle.appends.rows]
            simp
          · rw [show batched.2.tables.memories.rows = _ from happends.rows]
            simp
          · rw [show single.2.tables.memories.rows = _ from hsingle.appends.rows,
              show batched.2.tables.memories.rows = _ from happends.rows]
            simp only [List.getElem?_concat_length, ne_eq, Option.some.injEq]
            exact fun hrow => hblob (congrArg Sqlite.Row.embedding hrow)

/-- The items with the vectors of their raw texts. -/
def embedded (embed : String → Except Thrown (List JsNum)) (items : List StoreInput) :
    List (StoreInput × Option (Option (List JsNum))) :=
  items.map fun item => (item, some (embed item.content).toOption)

/-- The two ways have the same outcomes and tables exactly when every item agrees. -/
theorem storeRun_agrees : ∀ (items : List StoreInput) (index : ℕ) (w u : World), SameCore w u →
    FreshIds E w →
    (((storeRun C E options index u (embedded embed items)).1 =
          (storeRun C E options index w (bare items)).1 ∧
        (storeRun C E options index u (embedded embed items)).2.tables =
          (storeRun C E options index w (bare items)).2.tables) ↔
      ∀ item ∈ items, Agrees C options proceed embed (w.permits E .internal) item)
  | [], _, _, _, hcore, _ => by simpa [storeRun, bare, embedded] using hcore.tables
  | item :: rest, index, w, u, hcore, hfresh => by
    rw [List.forall_mem_cons]
    have hgrows := store_grows hstrict htenant hd hon hfresh item none
    have hgrows' := store_grows hstrict htenant hd hon (hfresh.congr hcore) item
      (some (embed item.content).toOption)
    change ((_ :: _ = _ :: _) ∧ _) ↔ _
    rw [List.cons_eq_cons]
    rcases item_agrees hstrict htenant hd hon hcore hfresh item with
      ⟨hagrees, hcore', houtcome⟩ | ⟨hnot, hapart⟩
    · have ih := storeRun_agrees rest (index + 1) _ _ hcore' hgrows.fresh
      have hpermits : ((store C item options none).exec (handle C E) w).2.permits E .internal =
          w.permits E .internal := by
        unfold World.permits
        rw [hgrows.manifest]
      rw [hpermits] at ih
      simp only [hagrees, true_and, ← ih, and_assoc]
      exact and_iff_right (congrArg (BatchOutcome.mk index) houtcome.symm)
    · refine iff_of_false ?_ fun h => hnot h.1
      rintro ⟨⟨hfirst, -⟩, htables⟩
      rcases hapart with houtcome | ⟨n, hn, hn', hrow⟩
      · exact houtcome (congrArg BatchOutcome.result hfirst).symm
      · -- A row stays where it is, so the tables differ in it to the end.
        have hend := (storeRun_grows hstrict htenant hd hon (bare rest) (index + 1) _ hgrows.fresh).rows
        have hend' := (storeRun_grows hstrict htenant hd hon (embedded embed rest) (index + 1) _
          hgrows'.fresh).rows
        apply hrow
        rw [List.getElem?_eq_getElem hn, List.getElem?_eq_getElem hn',
          ← List.prefix_iff_getElem?.mp hend n hn, ← List.prefix_iff_getElem?.mp hend' n hn']
        exact congrArg (fun t : Sqlite.Serial.Tables => t.memories.rows[n]?) htables.symm

/-! ### What is sent -/

/-- The text that a store of the item sends, behind the gate. -/
def storedText (C : Config) (options : Options) (proceed : Except Thrown Unit)
    (item : StoreInput) : Option String :=
  ((admitted C options proceed item).map (·.content)).toOption

/-- Where the items agree, the single stores send the cleaned texts of those that are admitted. -/
theorem sent_bare : ∀ (items : List StoreInput) (index : ℕ) (w : World), FreshIds E w →
    (∀ item ∈ items, Agrees C options proceed embed (w.permits E .internal) item) →
    sentTexts (storeRun C E options index w (bare items)).2 =
      sentTexts w ++ items.filterMap (storedText C options proceed)
  | [], _, w, _, _ => (List.append_nil _).symm
  | item :: rest, index, w, hfresh, hagree => by
    rw [List.forall_mem_cons] at hagree
    have hgrows := store_grows hstrict htenant hd hon hfresh item none
    have hpermits : ((store C item options none).exec (handle C E) w).2.permits E .internal =
        w.permits E .internal := by
      unfold World.permits
      rw [hgrows.manifest]
    have hitem : sentTexts ((store C item options none).exec (handle C E) w).2 =
        sentTexts w ++ (storedText C options proceed item).toList := by
      unfold storedText
      cases hadmitted : admitted C options proceed item with
      | error e => exact (store_unadmitted hstrict htenant hd hadmitted none).2.sent
      | ok cleaned =>
        obtain ⟨hpermitted, vector, hembed, -⟩ := hagree.1 cleaned hadmitted
        exact (store_embedded hstrict htenant hd hon hadmitted hpermitted hfresh hembed).2
    change sentTexts (storeRun C E options (index + 1) _ (bare rest)).2 = _
    rw [sent_bare rest (index + 1) _ hgrows.fresh (hpermits ▸ hagree.2), hitem, List.append_assoc]
    cases h : storedText C options proceed item <;> simp [h]

omit hon in
/-- With the vectors at hand nothing is sent. -/
theorem sent_embedded : ∀ (items : List StoreInput) (index : ℕ) (w : World), FreshIds E w →
    sentTexts (storeRun C E options index w (embedded embed items)).2 = sentTexts w
  | [], _, _, _ => rfl
  | item :: rest, index, w, hfresh => by
    have hitem : FreshIds E ((store C item options (some (embed item.content).toOption)).exec
        (handle C E) w).2 ∧ sentTexts ((store C item options
          (some (embed item.content).toOption)).exec (handle C E) w).2 = sentTexts w := by
      cases hadmitted : admitted C options proceed item with
      | error e =>
        have hsame := (store_unadmitted (w := w) hstrict htenant hd hadmitted
          (some (embed item.content).toOption)).2
        exact ⟨hfresh.congr hsame.core, hsame.sent.trans (List.append_nil _)⟩
      | ok cleaned =>
        obtain ⟨hstores, hsent⟩ := store_override hstrict htenant hd hadmitted hfresh
          (embed item.content).toOption
        exact ⟨hstores.fresh hfresh, hsent⟩
    exact (sent_embedded rest (index + 1) _ hitem.1).trans hitem.2

end Runs

/-- Beforehand every text goes out, without the gate. -/
theorem exec_embedTexts (hd : Deterministic E embed proceed) : ∀ (texts : List String) (w : World),
    ∃ u, (embedTexts texts).exec (handle C E) w = (.ok (texts.map fun t => (embed t).toOption), u) ∧
      SameCore w u ∧ sentTexts u = sentTexts w ++ texts
  | [], w => ⟨w, rfl, ⟨rfl, rfl, rfl⟩, (List.append_nil _).symm⟩
  | text :: texts, w => by
    obtain ⟨u, hexec, hcore, hsent⟩ := exec_embedTexts hd texts (w.transmit [text])
    refine ⟨u, ?_, ⟨hcore.tables, hcore.writes, hcore.manifest⟩, ?_⟩
    · unfold embedTexts
      rw [exec_bind]
      change continued _ _ (.ok (E.embed w.asked text), w.transmit [text]) = _
      rw [continued_ok, exec_bind, hexec, hd.embed]
      rfl
    · rw [hsent]
      simp [sentTexts, World.transmit, World.tick]

/-! ### The batch -/

/-- The texts that were sent after `w`. -/
def sentSince (w w' : World) : List String := (sentTexts w').drop (sentTexts w).length

/-- The batch is its single stores: the same outcomes, the same tables, and no other text is sent. -/
structure ActsAsSingles (C : Config) (E : Environment) (options : Options)
    (items : List StoreInput) (w : World) : Prop where
  outcomes : ((batchStore C items options).exec (handle C E) w).1 =
    ((singleStores C options items).exec (handle C E) w).1
  tables : ((batchStore C items options).exec (handle C E) w).2.tables =
    ((singleStores C options items).exec (handle C E) w).2.tables
  texts : ∀ text ∈ sentSince w ((batchStore C items options).exec (handle C E) w).2,
    text ∈ sentSince w ((singleStores C options items).exec (handle C E) w).2

theorem zip_map_self {α β : Type} (xs : List α) (f : α → β) :
    xs.zip (xs.map f) = xs.map fun x => (x, f x) := by
  simpa using @List.zip_map' _ _ _ id f xs

/-- Without the vectors the batch is the single stores. -/
theorem batchStore_eq_singleStores {items : List StoreInput}
    (h : (precomputes C items options && C.batchLimits) = false) :
    batchStore C items options = singleStores C options items := by
  unfold batchStore precomputed singleStores
  rw [if_neg (by simp [h])]
  exact congrArg (storeItems C options 0) (zip_map_self items fun _ => none)

/-- The vectors are computed beforehand only without tenants. -/
theorem legacy_of_precomputes {items : List StoreInput} (h : precomputes C items options = true) :
    C.embeddings = true ∧ C.strict = false ∧ options.tenant = none := by
  simp only [precomputes, Bool.and_eq_true, Bool.not_eq_true', Option.isNone_iff_eq_none] at h
  exact ⟨h.1.1.1.1, h.1.1.2, h.1.2⟩

/-- With them it is the stores with the vectors of the raw texts, which have all been sent. -/
theorem exec_batchStore (hd : Deterministic E embed proceed) {items : List StoreInput}
    (h : (precomputes C items options && C.batchLimits) = true) (w : World) :
    ∃ u, (batchStore C items options).exec (handle C E) w =
        (.ok (storeRun C E options 0 u (embedded embed items)).1,
          (storeRun C E options 0 u (embedded embed items)).2) ∧
      SameCore w u ∧ sentTexts u = sentTexts w ++ items.map (·.content) := by
  obtain ⟨u, hexec, hcore, hsent⟩ :=
    @exec_embedTexts C E embed proceed hd (items.map (·.content)) w
  refine ⟨u, ?_, hcore, hsent⟩
  unfold batchStore precomputed
  rw [if_pos h, exec_bind, exec_bind, hexec, continued_ok, exec_pure, continued_ok, List.map_map,
    List.map_map, zip_map_self, exec_storeItems]
  rfl

end Batch

/-- A batch is its single stores exactly when it does not compute the vectors beforehand, or each item
    that is admitted has the permit and the vector of its stored text anyway and each raw text is
    the stored text of an item that is admitted. -/
theorem batch_iff {C : Config} {E : Environment} {options : Options}
    {embed : String → Except Thrown (List JsNum)} {proceed : Except Thrown Unit} {w : World}
    (hd : Deterministic E embed proceed) (hfresh : FreshIds E w) (items : List StoreInput) :
    ActsAsSingles C E options items w ↔
      ((precomputes C items options && C.batchLimits) = false ∨
        (∀ item ∈ items, Agrees C options proceed embed (w.permits E .internal) item) ∧
          ∀ item ∈ items, ∃ other ∈ items, storedText C options proceed other = some item.content) := by
  cases hpre : precomputes C items options && C.batchLimits with
  | false =>
    refine iff_of_true ?_ (.inl rfl)
    have heq := batchStore_eq_singleStores hpre
    exact ⟨by rw [heq], by rw [heq], by rw [heq]; exact fun _ h => h⟩
  | true =>
    rw [Bool.and_eq_true] at hpre
    obtain ⟨hon, hstrict, htenant⟩ := legacy_of_precomputes hpre.1
    obtain ⟨u, hbatch, hcore, hsent⟩ := exec_batchStore hd (Bool.and_eq_true_iff.mpr hpre) w
    have hsingles : (singleStores C options items).exec (handle C E) w = _ :=
      exec_storeItems C E options (bare items) 0 w
    have hagree := storeRun_agrees hstrict htenant hd hon items 0 w u hcore hfresh
    have htexts := sent_embedded hstrict htenant hd items 0 u (hfresh.congr hcore)
    rw [hsent] at htexts
    have hsince : sentSince w ((batchStore C items options).exec (handle C E) w).2 =
        items.map (·.content) := by
      unfold sentSince
      rw [hbatch, htexts, List.drop_left]
    have hsince' (hall : ∀ item ∈ items,
        Agrees C options proceed embed (w.permits E .internal) item) :
        sentSince w ((singleStores C options items).exec (handle C E) w).2 =
          items.filterMap (storedText C options proceed) := by
      unfold sentSince
      rw [hsingles, sent_bare hstrict htenant hd hon items 0 w hfresh hall, List.drop_left]
    constructor
    · rintro ⟨houtcomes, htables, hsub⟩
      rw [hbatch] at houtcomes htables
      have hall := hagree.mp ⟨Except.ok.inj (houtcomes.trans (congrArg Prod.fst hsingles)),
        htables.trans (congrArg (fun r => r.2.tables) hsingles)⟩
      refine .inr ⟨hall, fun item hitem => ?_⟩
      have hmem := hsub item.content (hsince ▸ List.mem_map_of_mem hitem)
      rw [hsince' hall] at hmem
      exact List.mem_filterMap.mp hmem
    · rintro (hoff | ⟨hall, hstored⟩)
      · cases hoff
      · obtain ⟨houtcomes, htables⟩ := hagree.mpr hall
        refine ⟨?_, ?_, ?_⟩
        · rw [hbatch, houtcomes]
          exact (congrArg Prod.fst hsingles).symm
        · rw [hbatch, htables]
          exact (congrArg (fun r => r.2.tables) hsingles).symm
        · rw [hsince, hsince' hall]
          intro text htext
          obtain ⟨item, hitem, rfl⟩ := List.mem_map.mp htext
          exact List.mem_filterMap.mpr (hstored item hitem)

/-- As `steady`, with ids that are strokes and a vector that depends on the text. -/
def strokes : Environment :=
  { steady with
    newId := fun n => .ofList (List.replicate n 'i')
    embed := fun _ text => .ok [.finite text.length] }

/-- A note with a password in it. -/
def passwordNote : StoreInput := { type := .fact, content := "pwd:x" }

theorem deterministic_strokes :
    Deterministic strokes (fun text => .ok [.finite text.length]) (.ok ()) :=
  ⟨fun _ _ => rfl, fun _ => rfl⟩

theorem freshIds_strokes (manifest : Manifest) :
    FreshIds strokes (initial {} manifest).world := by
  refine ⟨fun n _ => ⟨rfl, List.not_mem_nil⟩, fun m n h => ?_⟩
  have hlength := congrArg String.length h
  simpa [strokes] using hlength

/-- Where the policy rejects the password, nothing is computed beforehand. -/
theorem rejected_batch_acts :
    ActsAsSingles { plainConfig with sensitiveData := .reject } strokes {} [passwordNote]
      (initial {} ⟨"openai", .external, .internal, false, 0⟩).world :=
  (batch_iff deterministic_strokes (freshIds_strokes _) [passwordNote]).mpr
    (.inl (by decide +kernel))

/-- Under the policy that redacts, the batch sends the password, which a single store takes out. -/
theorem password_is_sent :
    ¬ ActsAsSingles plainConfig strokes {} [passwordNote]
      (initial {} ⟨"openai", .external, .internal, false, 0⟩).world := by
  intro h
  have hsent := h.texts "pwd:x" (by decide +kernel)
  revert hsent
  decide +kernel

end Remembra.Service
