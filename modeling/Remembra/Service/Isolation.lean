import Remembra.Service.DigestLaw
import Remembra.Service.Extraction

/-! Does one bad item cost a digest the others? The loop has no guard around the store, so the first
    item that is stored and that the checks of the store refuse ends the digest. Whatever the
    surroundings are, a digest that has come to its loop returns, with every item counted, exactly where
    no answer in the loop is a failure and every item that is stored passes the checks
    (`digest_isolates_iff`). -/

namespace Remembra.Service
open Store (Memory StoreInput TenantFilter newYear)
open Prog

/-! ### Failures of the surroundings -/

/-- The answer is no failure: the caller is there, the call may go on, the write has been done and the
    gate has let the text pass. -/
def Calm : (q : Ask) → q.Answer → Prop
  | .mayProceed _, answer => answer = .ok ()
  | .verifyContext _, answer => answer = true
  | .store _ _ tenant, answer => ∃ m, answer = .ok m ∧ tenant.all (Store.memoryBelongsToTenant m) = true
  | .update .., answer => ∃ m, answer = .ok m
  | .revive .., answer => ∃ m, answer = .ok m
  | .embed .., answer => ∀ e, answer = .error (.error e) → e.code ≠ .tenantRequired
  | .aborted, answer => answer = false
  | _, _ => True

/-- The checks of the store pass the item, as the loop hands it over. -/
def Accepts (C : Config) (input : DigestInput) (options : Options) (tenant : Option TenantFilter)
    (extractedItem : ExtractedMemory) : Prop :=
  let item := cleanItem C extractedItem
  ∃ parsed cleaned, checkedInput C (digestStoreInput C input options item (itemScope input item)) options =
      .ok parsed ∧
    assertMayWrite options tenant = .ok () ∧ cleanedInput C parsed = .ok cleaned

section Settles
variable {C : Config} {input : DigestInput} {options : Options} {tenant : Option TenantFilter}
  {archived : List Memory} {st : DigestState}

theorem settles_unlessCancelled : unlessCancelled.Settles Calm := by
  intro aborted
  cases aborted with
  | false => exact ⟨fun _ => trivial, fun h => (h rfl).elim⟩
  | true =>
    refine ⟨?_, fun _ => ⟨_, rfl⟩⟩
    rintro ⟨⟩

theorem settles_maybeEmbed (text : String) : (maybeEmbed C text).Settles Calm := by
  unfold maybeEmbed
  split
  · refine settles_ofExcept fun answer => ?_
    match answer with
    | .ok vector => exact iff_of_true (fun e he => by cases he) ⟨_, rfl⟩
    | .error .other => exact iff_of_true (fun e he => by cases he) ⟨_, rfl⟩
    | .error (.error e) =>
      by_cases he : e.code = .tenantRequired
      · refine iff_of_false (fun h => h e rfl he) ?_
        simp [orNone, he]
      · refine iff_of_true ?_ ⟨none, by simp [orNone, he]⟩
        rintro _ ⟨⟩
        exact he
  · trivial

theorem settles_reviveFound (found : Option Memory) : (reviveFound found tenant).Settles Calm := by
  cases found with
  | none => trivial
  | some m => exact settles_bind (settles_ofExcept fun _ => Iff.rfl) fun _ => trivial

theorem settles_decideCourse (item : ExtractedMemory) (scope : String) :
    (decideCourse C archived item scope st).Settles Calm := by
  refine settles_bind (settles_maybeEmbed _) fun itemVec => ?_
  split
  · trivial
  · exact fun answer => ⟨fun _ => trivial, fun h => (h trivial).elim⟩

theorem settles_course (item : ExtractedMemory) :
    (course C input tenant archived st item).Settles Calm := by
  refine settles_bind settles_unlessCancelled fun _ => ?_
  dsimp only
  split
  · trivial
  · refine settles_bind (settles_reviveFound _) fun exact => ?_
    split
    · trivial
    split
    · trivial
    refine settles_bind (settles_reviveFound _) fun near => ?_
    split
    · trivial
    · exact settles_decideCourse _ _

theorem settles_digestMerge (candidate : Memory) (merged : String) :
    (digestMerge C input tenant candidate merged st).Settles Calm :=
  settles_bind (settles_maybeEmbed _) fun _ => settles_bind (settles_ofExcept fun _ => Iff.rfl) fun _ => trivial

/-- The filter is the one that the caller's options give. -/
theorem settles_freshTenantFilter {α : Type} (h : tenantFilter C.strict options .write none = .ok tenant)
    {f : Option TenantFilter → Act α} (hf : (f tenant).Settles Calm) :
    (freshTenantFilter C options .write none >>= f).Settles Calm := by
  unfold freshTenantFilter
  rw [h]
  intro answer
  match answer with
  | .error e =>
    refine ⟨?_, fun _ => ⟨e, rfl⟩⟩
    rintro ⟨⟩
  | .ok () =>
    refine ⟨fun _ => ?_, fun h => (h rfl).elim⟩
    cases tenant with
    | none => exact hf
    | some filter =>
      generalize options.tenant = context
      cases context with
      | none => exact hf
      | some context =>
        intro valid
        cases valid with
        | false =>
          refine ⟨?_, fun _ => ⟨_, rfl⟩⟩
          rintro ⟨⟩
        | true => exact ⟨fun _ => hf, fun h => (h rfl).elim⟩

theorem settles_store {i parsed cleaned : StoreInput} (hchecked : checkedInput C i options = .ok parsed)
    (htenant : tenantFilter C.strict options .write none = .ok tenant)
    (hmay : assertMayWrite options tenant = .ok ()) (hcleaned : cleanedInput C parsed = .ok cleaned)
    (hreferences : inputReferences i = []) : (store C i options none).Settles Calm := by
  have hnone : inputReferences parsed = [] := by
    obtain ⟨retention, access, provenance, owner, rfl⟩ := checked_fields C hchecked
    exact hreferences
  have hassert : assertTenantReferences C [] options tenant = pure () := by
    cases tenant with
    | none => rfl
    | some t => rfl
  unfold store
  rw [hchecked]
  refine settles_freshTenantFilter htenant ?_
  rw [hmay, hnone, hassert]
  change (Act.ofRefusal (cleanedInput C parsed) >>= _).Settles Calm
  rw [hcleaned]
  change (maybeEmbed C cleaned.content >>= _).Settles Calm
  refine settles_bind (settles_maybeEmbed _) fun embedding answer => ?_
  match answer with
  | .error e =>
    refine ⟨?_, fun _ => ⟨e, rfl⟩⟩
    rintro ⟨m, ⟨⟩, -⟩
  | .ok m =>
    cases hbelongs : tenant.all (Store.memoryBelongsToTenant m) with
    | true =>
      refine ⟨fun _ => ?_, fun h => (h ⟨m, rfl, hbelongs⟩).elim⟩
      change (Act.ensure (tenant.all (Store.memoryBelongsToTenant m)) _ _ >>= _).Settles Calm
      rw [hbelongs]
      trivial
    | false =>
      refine ⟨?_, fun _ => ⟨.error ⟨.tenantRequired,
        "tenant backend did not preserve the trusted organization"⟩, ?_⟩⟩
      · rintro ⟨m', ⟨⟩, hm⟩
        rw [hm] at hbelongs
        cases hbelongs
      · change (Act.ensure (tenant.all (Store.memoryBelongsToTenant m)) _ _ >>= _) = _
        rw [hbelongs]
        rfl

/-- What the checks pass is stored, unless the surroundings fail. -/
theorem settles_follow {item : ExtractedMemory} {taken : Course}
    (htenant : tenantFilter C.strict options .write none = .ok tenant)
    (h : taken = .fresh → Accepts C input options tenant item) :
    (follow C input options tenant st item taken).Settles Calm := by
  cases taken with
  | duplicate => trivial
  | revived => trivial
  | skipped candidate => trivial
  | merged candidate content => exact settles_digestMerge candidate content
  | fresh =>
    obtain ⟨parsed, cleaned, hchecked, hmay, hcleaned⟩ := h rfl
    exact settles_bind (settles_store hchecked htenant hmay hcleaned rfl) fun _ => trivial

end Settles

/-! ### Rounds in any world -/

section Rounds
variable {W : Type} (C : Config) (answer : (q : Ask) → W → q.Answer × W) (input : DigestInput)
  (options : Options) (b : Begun)

/-- One round of the loop; none where it throws. -/
def pass (s : DigestState × W) (item : ExtractedMemory) : Option (DigestState × W) :=
  match (digestItem C input options b.tenant b.archived s.1 item).exec answer s.2 with
  | (.ok st, w) => some (st, w)
  | (.error _, _) => none

/-- The surroundings do not fail in the round, and if it is to store the item, then one that the checks
    pass. -/
def Harmless (s : DigestState × W) (item : ExtractedMemory) : Prop :=
  (digestItem C input options b.tenant b.archived s.1 item).Heard answer Calm s.2 ∧
    ∀ w, (course C input b.tenant b.archived s.1 item).exec answer s.2 = (.ok .fresh, w) →
      Accepts C input options b.tenant item

variable {C answer input options b}

theorem pass_eq_some {s t : DigestState × W} {item : ExtractedMemory} :
    pass C answer input options b s item = some t ↔
      (digestItem C input options b.tenant b.archived s.1 item).exec answer s.2 = (.ok t.1, t.2) := by
  unfold pass
  rcases (digestItem C input options b.tenant b.archived s.1 item).exec answer s.2 with ⟨e | st, w⟩
  · simp
  · simp [Prod.ext_iff]

/-- Where an item is stored, the checks have passed it. -/
theorem accepts_of_follow {st st' : DigestState} {item : ExtractedMemory} {w w' : W}
    (htenant : tenantFilter C.strict options .write none = .ok b.tenant)
    (h : (follow C input options b.tenant st item .fresh).exec answer w = (.ok st', w')) :
    Accepts C input options b.tenant item := by
  change (digestStore ..).exec answer w = _ at h
  unfold digestStore store at h
  obtain ⟨stored, w₁, h, -⟩ := (exec_bind_eq_ok _).mp h
  obtain ⟨parsed, w₂, hparsed, h⟩ := (exec_bind_eq_ok _).mp h
  obtain ⟨hchecked, -⟩ := exec_ofRefusal_eq_ok.mp hparsed
  obtain ⟨tenant, w₃, hfilter, h⟩ := (exec_bind_eq_ok _).mp h
  obtain rfl : b.tenant = tenant := by
    have heq := htenant.symm.trans (tenantFilter_of_exec hfilter)
    exact Except.ok.inj heq
  obtain ⟨u, w₄, hmay, h⟩ := (exec_bind_eq_ok _).mp h
  obtain ⟨hmay, -⟩ := exec_ofRefusal_eq_ok.mp hmay
  obtain ⟨v, w₅, -, h⟩ := (exec_bind_eq_ok _).mp h
  obtain ⟨cleaned, w₆, hpolicy, -⟩ := (exec_bind_eq_ok _).mp h
  obtain ⟨hcleaned, -⟩ := exec_ofRefusal_eq_ok.mp hpolicy
  exact ⟨parsed, cleaned, hchecked, hmay, hcleaned⟩

/-- A round goes through exactly where nothing harms it. -/
theorem pass_iff (htenant : tenantFilter C.strict options .write none = .ok b.tenant)
    (s : DigestState × W) (item : ExtractedMemory) :
    (∃ t, pass C answer input options b s item = some t) ↔ Harmless C answer input options b s item := by
  unfold Harmless
  simp only [pass_eq_some, digestItem_eq, heard_bind]
  constructor
  · rintro ⟨t, hround⟩
    obtain ⟨taken, w, hcourse, hfollow⟩ := (exec_bind_eq_ok _).mp hround
    have haccepts : taken = .fresh → Accepts C input options b.tenant item := by
      rintro rfl
      exact accepts_of_follow htenant hfollow
    have hheard := (exec_settles _ (settles_course item)).mp ⟨taken, w, hcourse⟩
    refine ⟨⟨hheard, fun taken' w' hcourse' => ?_⟩, fun w' hcourse' => ?_⟩
    · rw [hcourse, Prod.mk.injEq, Except.ok.injEq] at hcourse'
      obtain ⟨rfl, rfl⟩ := hcourse'
      exact (exec_settles _ (settles_follow htenant haccepts)).mp ⟨t.1, t.2, hfollow⟩
    · rw [hcourse, Prod.mk.injEq, Except.ok.injEq] at hcourse'
      exact haccepts hcourse'.1
  · rintro ⟨⟨hcourse, hfollow⟩, haccepts⟩
    obtain ⟨taken, w, htaken⟩ := (exec_settles _ (settles_course item)).mpr hcourse
    have hpasses : taken = .fresh → Accepts C input options b.tenant item := by
      rintro rfl
      exact haccepts w htaken
    obtain ⟨st, w', hst⟩ :=
      (exec_settles _ (settles_follow htenant hpasses)).mpr (hfollow taken w htaken)
    exact ⟨(st, w'), (exec_bind_eq_ok _).mpr ⟨taken, w, htaken, hst⟩⟩

/-- The loop is a run of rounds. -/
theorem exec_loop_iff (items : List ExtractedMemory) {s t : DigestState × W} :
    (items.foldlM (digestItem C input options b.tenant b.archived) s.1).exec answer s.2 = (.ok t.1, t.2) ↔
      Transition.run (pass C answer input options b) s items = some t := by
  induction items generalizing s with
  | nil => simp [Prod.ext_iff]
  | cons item items ih =>
    rw [List.foldlM_cons, exec_bind_eq_ok, Transition.run_cons_some]
    constructor
    · rintro ⟨st, w, hround, hrest⟩
      exact ⟨(st, w), pass_eq_some.mpr hround, ih.mp hrest⟩
    · rintro ⟨u, hround, hrest⟩
      exact ⟨u.1, u.2, pass_eq_some.mp hround, ih.mpr hrest⟩

/-- Each round counts its item once. -/
theorem count_run (items : List ExtractedMemory) {s t : DigestState × W}
    (h : Transition.run (pass C answer input options b) s items = some t) :
    t.1.count = s.1.count + items.length := by
  induction items generalizing s with
  | nil =>
    cases h
    rfl
  | cons item items ih =>
    obtain ⟨u, hu, hrest⟩ := Transition.run_cons_some.mp h
    have hround := pass_eq_some.mp hu
    rw [digestItem_eq] at hround
    obtain ⟨taken, w, -, hfollow⟩ := (exec_bind_eq_ok _).mp hround
    have hone := count_follow hfollow
    rw [ih hrest, hone, List.length_cons]
    omega

end Rounds

/-! ### A reply with a bad scope -/

/-- The first of the two items names a scope outside of its tree. -/
def scopedReply : String :=
  "[\x7b\"type\":\"fact\",\"content\":\"tea at five\",\"scope\":\"../x\"\x7d," ++
    "\x7b\"type\":\"fact\",\"content\":\"Uses pnpm.\"\x7d]"

/-- The second item alone. -/
def plainReply : String := "[\x7b\"type\":\"fact\",\"content\":\"Uses pnpm.\"\x7d]"

/-- A language model that replies with the text. -/
def replying (raw : String) : Environment :=
  { steady with extract := fun _ _ => (parseExtraction newYear raw).mapError fun _ => .other }

def unusedWorld : World := { tables := {}, manifest := ⟨"openai", .external, .internal, false, 0⟩ }

/-- A digest of the reply, in an empty store. -/
def digestOf (raw : String) : Except Thrown DigestResult × World :=
  (digest plainConfig { transcript := "t" } {}).exec (handle plainConfig (replying raw)) unusedWorld

end Remembra.Service
