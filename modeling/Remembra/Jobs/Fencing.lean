import Remembra.Jobs.Lifecycle

/-! Whether a claim fences the ones before it. The ledger knows a claim only by the job and the
    owner, so a run carries what the ledger does not: every claim ever made, and which of them is
    the current claim of each job. A call on behalf of a claim names its job and its owner; it must
    have no effect once the claim is over. -/

namespace Remembra.Jobs
open Transition

variable {π σ : Type*}

/-- A store with the claims made on it: job and owner of each, in order. -/
structure Claims (σ : Type*) where
  store : σ
  made : List (String × String)
  current : String → Option ℕ

def Claims.init (S : JobStore π σ) : Claims σ := ⟨S.empty, [], fun _ => none⟩

/-- One call of the store. A claim is current from the call that made it until its job shows no
    lease: then it was settled, or taken away by `reclaimExpired`. -/
def Claims.call (S : JobStore π σ) (c : Claims σ) (op : JobOp π) : Option (Claims σ) :=
  let store := (S.exec c.store op).1
  let kept := fun j => if S.leaseOwner store j = none then none else c.current j
  match (S.exec c.store op).2 with
  | .claimed (some taken) => some
    { store := store, made := c.made ++ [(taken.jobId, taken.leaseOwner.getD "")],
      current := fun j => if j = taken.jobId then some c.made.length else kept j }
  | _ => some { store := store, made := c.made, current := kept }

/-- No call on behalf of the owner's claim of `j` takes effect: each returns false and leaves the
    whole ledger as it was. -/
structure Refused (S : JobStore π σ) (s : σ) (j owner : String) : Prop where
  complete : ∀ now, S.complete s now j owner = (s, false)
  fail : ∀ now label retryAfterMs, S.fail s now j owner label retryAfterMs = (s, false)
  renew : ∀ now leaseMs, S.renew s now j owner leaseMs = (s, false)

/-- Every claim that is over is fenced off. -/
def Fenced (S : JobStore π σ) (c : Claims σ) : Prop :=
  ∀ (i : ℕ) (j owner : String), c.made[i]? = some (j, owner) → c.current j ≠ some i →
    Refused S c.store j owner

/-- A claim call hands no job to an owner that has claimed this job before. -/
def NewOwner (S : JobStore π σ) (c : Claims σ) (op : JobOp π) : Prop :=
  ∀ taken owner, (S.exec c.store op).2 = .claimed (some taken) → taken.leaseOwner = some owner →
    (taken.jobId, owner) ∉ c.made

/-- The current claim is the one the record shows, and no two claims are alike. -/
structure Claims.Inv (S : JobStore π σ) (c : Claims σ) : Prop where
  shown : ∀ j owner, S.leaseOwner c.store j = some owner →
    ∃ i, c.current j = some i ∧ c.made[i]? = some (j, owner)
  distinct : c.made.Nodup

variable {P : Platform π} {S : JobStore π σ}

/-- A call on behalf of a claim is accepted only from the owner the record shows. -/
theorem refused_of_ne (hS : S.Lawful P) {s : σ} {j owner : String}
    (h : S.leaseOwner s j ≠ some owner) : Refused S s j owner := by
  have hnot : ∀ {change : JobRecord → JobRecord → Prop} {t : σ},
      ¬ S.Leased change s t j owner := by
    rintro change t ⟨old, -, hold, howner, -⟩
    exact h (by rw [JobStore.leaseOwner, hold]; exact howner)
  refine ⟨fun now => ?_, fun now label retryAfterMs => ?_, fun now leaseMs => ?_⟩
  · cases hr : (S.complete s now j owner).2 with
    | true => exact absurd (hS.complete_true hr) hnot
    | false => exact Prod.ext (hS.complete_false hr).1 hr
  · cases hr : (S.fail s now j owner label retryAfterMs).2 with
    | true => exact absurd (hS.fail_true hr) hnot
    | false => exact Prod.ext (hS.fail_false hr).1 hr
  · cases hr : (S.renew s now j owner leaseMs).2 with
    | true => exact absurd (hS.renew_true hr) hnot
    | false => exact Prod.ext (hS.renew_false hr) hr

/-- A call other than a claim leaves each lease as it was or ends it. -/
theorem leaseOwner_of_move {j : String} {op : JobOp π} {result : JobResult}
    {r r' : Option JobRecord} (h : Move P j op result r r')
    (hclaim : ∀ job, result = .claimed (some job) → job.jobId ≠ j) :
    r'.bind (·.leaseOwner) = r.bind (·.leaseOwner) ∨ r'.bind (·.leaseOwner) = none := by
  cases h with
  | same _ _ => exact .inl rfl
  | enqueue _ _ h => exact .inr h.leaseOwner
  | claim hj _ => exact absurd hj (hclaim _ rfl)
  | complete _ h => exact .inr h.leaseOwner
  | fail _ h => exact .inr h.leaseOwner
  | renew _ h => exact .inl h.leaseOwner
  | reclaim _ h => exact .inr h.leaseOwner
  | prune _ => exact .inr rfl

/-- Where the record still shows a lease after a call that did not claim the job, its claim is
    still the current one. -/
theorem shown_of_kept (hS : S.Lawful P) {c : Claims σ} (hc : c.Inv S) {op : JobOp π}
    {j owner : String}
    (hclaim : ∀ job, (S.exec c.store op).2 = .claimed (some job) → job.jobId ≠ j)
    (h : S.leaseOwner (S.exec c.store op).1 j = some owner) :
    ∃ i, c.current j = some i ∧ c.made[i]? = some (j, owner) := by
  refine hc.shown j owner ?_
  rcases leaseOwner_of_move (exec_move hS c.store op j) hclaim with hsame | hnone
  · exact hsame.symm.trans h
  · exact absurd (hnone.symm.trans h) (by simp)

/-- What a claim call that hands out a job shows of it. -/
theorem claimed_shown (hS : S.Lawful P) {s : σ} {op : JobOp π} {taken : JobRecord}
    (h : (S.exec s op).2 = .claimed (some taken)) :
    ∃ owner, taken.leaseOwner = some owner ∧
      S.leaseOwner (S.exec s op).1 taken.jobId = some owner := by
  have hmove := exec_move hS s op taken.jobId
  rw [h] at hmove
  rw [JobStore.leaseOwner]
  generalize S.get s taken.jobId = r at hmove
  generalize S.get (S.exec s op).1 taken.jobId = r' at hmove ⊢
  cases hmove with
  | same _ hclaim => exact absurd rfl (hclaim taken rfl)
  | claim _ hclaimed => exact ⟨_, hclaimed.leaseOwner, hclaimed.leaseOwner⟩

theorem Claims.inv_init (hS : S.Lawful P) : (Claims.init S).Inv S where
  shown j owner h := by
    rw [Claims.init, JobStore.leaseOwner, hS.get_empty] at h
    cases h
  distinct := List.nodup_nil

theorem Claims.inv_call (hS : S.Lawful P) {c t : Claims σ} {op : JobOp π} (hc : c.Inv S)
    (hop : NewOwner S c op) (ht : c.call S op = some t) : t.Inv S := by
  rw [Claims.call] at ht
  split at ht
  · rename_i taken hres
    obtain ⟨owner, howner, hshown⟩ := claimed_shown hS hres
    rw [howner, Option.getD_some] at ht
    cases ht
    refine ⟨fun j o ho => ?_, ?_⟩
    · rcases eq_or_ne j taken.jobId with rfl | hj
      · obtain rfl : o = owner := Option.some.inj (ho.symm.trans hshown)
        exact ⟨c.made.length, if_pos rfl, by simp⟩
      · have hclaim : ∀ job, (S.exec c.store op).2 = .claimed (some job) → job.jobId ≠ j := by
          intro job hjob
          rw [hres] at hjob
          cases hjob
          exact hj.symm
        obtain ⟨i, hcur, hmade⟩ := shown_of_kept hS hc hclaim ho
        refine ⟨i, ?_, List.getElem?_append_left (List.getElem?_eq_some_iff.mp hmade).1 ▸ hmade⟩
        simp only [if_neg hj, hcur, ho, reduceCtorEq, if_false]
    · refine List.nodup_append.mpr ⟨hc.distinct, List.nodup_singleton _, ?_⟩
      rintro a ha b hb rfl
      rw [List.mem_singleton] at hb
      exact hop taken owner hres howner (hb ▸ ha)
  · rename_i hres
    cases ht
    refine ⟨fun j o ho => ?_, hc.distinct⟩
    obtain ⟨i, hcur, hmade⟩ := shown_of_kept hS hc
      (fun job hjob => absurd hjob (hres job)) ho
    exact ⟨i, by simp only [ho, hcur, reduceCtorEq, if_false], hmade⟩

theorem fenced_of_inv (hS : S.Lawful P) {c : Claims σ} (hc : c.Inv S) : Fenced S c := by
  intro i j owner hi hcur
  refine refused_of_ne hS fun hshown => ?_
  obtain ⟨i', hcur', hi'⟩ := hc.shown j owner hshown
  have hlt := (List.getElem?_eq_some_iff.mp hi).1
  obtain rfl : i = i' := (List.getElem?_inj hlt hc.distinct).mp (hi.trans hi'.symm)
  exact hcur hcur'

/-- An owner that claims a job again revives its earlier claim of it. -/
theorem not_fenced_of_reclaimed (hS : S.Lawful P) {c t : Claims σ} {op : JobOp π}
    (hop : ¬ NewOwner S c op) (ht : c.call S op = some t) : ¬ Fenced S t := by
  simp only [NewOwner, not_forall, not_not] at hop
  obtain ⟨taken, owner, hres, howner, hmem⟩ := hop
  obtain ⟨o, ho, hshown⟩ := claimed_shown hS hres
  obtain rfl : o = owner := Option.some.inj (ho.symm.trans howner)
  obtain ⟨i, hlt, hi⟩ := List.mem_iff_getElem.mp hmem
  rw [Claims.call, hres] at ht
  cases ht
  intro hfenced
  have hrefused := hfenced i taken.jobId o
    (by simp only [List.getElem?_append_left hlt]; exact List.getElem?_eq_some_iff.mpr ⟨hlt, hi⟩)
    (by simp only [if_pos, ne_eq, Option.some.injEq]; omega)
  have hfalse := congrArg Prod.snd (hrefused.complete 0)
  have hne := (hS.complete_false hfalse).2
  rw [JobStore.leaseOwner, Option.bind_eq_some_iff] at hshown
  obtain ⟨job, hjob, hown⟩ := hshown
  exact hne job hjob hown

theorem fenced_iff_of_lawful (hS : S.Lawful P) (ops : List (JobOp π)) :
    Everywhere (Claims.call S) (Fenced S) (Claims.init S) ops ↔
      Along (Claims.call S) (NewOwner S) (Claims.init S) ops :=
  everywhere_iff_along (fun _ _ _ hc hop ht => Claims.inv_call hS hc hop ht)
    (fun _ hc => fenced_of_inv hS hc)
    (fun _ _ _ _ hop ht => not_fenced_of_reclaimed hS hop ht) (Claims.inv_init hS) ops

/-- In both stores the claims that are over stay fenced exactly when no owner is handed a job it has
    claimed before. -/
theorem claims_fenced_iff (P : Platform π) (ops : List (JobOp π)) :
    (Everywhere (Claims.call (inMemory P)) (Fenced (inMemory P)) (Claims.init (inMemory P)) ops ↔
      Along (Claims.call (inMemory P)) (NewOwner (inMemory P)) (Claims.init (inMemory P)) ops) ∧
    (Everywhere (Claims.call (sqlite P)) (Fenced (sqlite P)) (Claims.init (sqlite P)) ops ↔
      Along (Claims.call (sqlite P)) (NewOwner (sqlite P)) (Claims.init (sqlite P)) ops) :=
  ⟨fenced_iff_of_lawful (inMemory_lawful P) ops, fenced_iff_of_lawful (sqlite_lawful P) ops⟩

/-- Worker `a` loses job `j` to `reclaimExpired` and claims it again. -/
def claimedAgain : List (JobOp Unit) :=
  [.enqueue 0 "j" { type := "t", payload := () },
    .claim 1 { owner := some "a", leaseMs := some 100 }, .reclaimExpired 101,
    .claim 102 { owner := some "a", leaseMs := some 100 }]

/-- The first claim is over and yet a call on its behalf is accepted. -/
def firstAccepted (S : JobStore Unit σ) (c : Claims σ) : Bool :=
  c.made[0]? = some ("j", "a") && c.current "j" ≠ some 0 && (S.complete c.store 103 "j" "a").2

theorem not_fenced_of_accepted {S : JobStore Unit σ} {ops : List (JobOp Unit)}
    (h : (run (Claims.call S) (Claims.init S) ops).any (firstAccepted S) = true) :
    ¬ Everywhere (Claims.call S) (Fenced S) (Claims.init S) ops := by
  intro hall
  obtain ⟨c, hc, haccepted⟩ := (Option.any_eq_true _ _).mp h
  simp only [firstAccepted, Bool.and_eq_true, decide_eq_true_eq] at haccepted
  obtain ⟨⟨hmade, hcur⟩, htrue⟩ := haccepted
  have hrefused := (hall.of_run hc) 0 "j" "a" hmade hcur
  rw [hrefused.complete] at htrue
  cases htrue

theorem lost_claim_completes_the_next :
    ¬ Everywhere (Claims.call (inMemory noPayload)) (Fenced (inMemory noPayload))
      (Claims.init (inMemory noPayload)) claimedAgain ∧
    ¬ Everywhere (Claims.call (sqlite noPayload)) (Fenced (sqlite noPayload))
      (Claims.init (sqlite noPayload)) claimedAgain :=
  ⟨not_fenced_of_accepted (by decide), not_fenced_of_accepted (by decide)⟩

end Remembra.Jobs
