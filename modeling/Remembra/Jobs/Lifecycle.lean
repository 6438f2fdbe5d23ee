import Mathlib.Algebra.Order.Ring.Int
import Remembra.Jobs.Ledger
import Remembra.Lib.Transition

/-! The life of one job in the ledger, from the call that enqueued it on: which states its record
    passes through, and how often it is taken. `claim` never compares the attempt count with its
    bound; that a waiting job has an attempt left is what `fail` and `reclaimExpired` see to. -/

namespace Remembra.Jobs
open Transition

/-- The call can store a new record for `j`. -/
def JobOp.Enqueues {π : Type*} (j : String) : JobOp π → Prop
  | .enqueue _ newId input => input.jobId.getD newId = j
  | _ => False

def JobOp.IsPrune {π : Type*} : JobOp π → Prop
  | .prune _ _ => True
  | _ => False

/-- The call handed the job `j` to a claimer. -/
def JobResult.claims (j : String) : JobResult → Bool
  | .claimed (some taken) => taken.jobId = j
  | _ => false

def IsSettled (job : JobRecord) : Prop := job.state = .completed ∨ job.state = .failed

variable {π σ : Type*}

/-- The store as a machine: every call is enabled in every state. -/
def JobStore.step (S : JobStore π σ) (s : σ) (op : JobOp π) : Option σ := some (S.exec s op).1

/-- How many calls of the run took the job `j`. -/
def JobStore.claimCount (S : JobStore π σ) (j : String) : σ → List (JobOp π) → ℕ
  | _, [] => 0
  | s, op :: ops =>
    (if (S.exec s op).2.claims j then 1 else 0) + S.claimCount j (S.exec s op).1 ops

/-- What every record in the ledger looks like. -/
structure WellFormed (job : JobRecord) : Prop where
  lease : job.leaseOwner.isSome = true ↔ job.state = .running
  waiting : job.state = .queued ∨ job.state = .retrying → job.attempt < job.maxAttempts
  tried : job.state = .running ∨ job.state = .completed ∨ job.state = .failed →
    1 ≤ job.attempt ∧ job.attempt ≤ job.maxAttempts

/-- What a call does not do to the job `j`: a settled record stays as it is until it is pruned, one
    that is not settled is not removed, and neither a settled nor a removed job is taken again. -/
structure KeepsSettled (S : JobStore π σ) (j : String) (s : σ) (op : JobOp π) : Prop where
  settled : ∀ job, S.get s j = some job → IsSettled job →
    (S.get (S.exec s op).1 j = some job ∨ op.IsPrune ∧ S.get (S.exec s op).1 j = none) ∧
      (S.exec s op).2.claims j = false
  unsettled : ∀ job, S.get s j = some job →
    job.state = .queued ∨ job.state = .running ∨ job.state = .retrying →
      S.get (S.exec s op).1 j ≠ none
  removed : S.get s j = none → S.get (S.exec s op).1 j = none ∧ (S.exec s op).2.claims j = false

/-- The life of the job `j` over a run of the store. -/
structure Lifecycle (S : JobStore π σ) (j : String) (maxAttempts : ℤ) (s : σ)
    (ops : List (JobOp π)) : Prop where
  wellFormed : Everywhere S.step (fun t => ∀ job, S.get t j = some job → WellFormed job) s ops
  keepsSettled : Along S.step (KeepsSettled S j) s ops
  claimed_le : (S.claimCount j s ops : ℤ) ≤ maxAttempts

/-! ### The invariant -/

/-- What the record of a job enqueued with the bound `maxAttempts` keeps to. -/
structure Sound (maxAttempts : ℤ) (job : JobRecord) : Prop extends WellFormed job where
  bound : job.maxAttempts = maxAttempts
  nonneg : 0 ≤ job.attempt
  known : job.state ≠ .cancelled

def Inv (maxAttempts : ℤ) (r : Option JobRecord) : Prop := ∀ job, r = some job → Sound maxAttempts job

/-- How many more times the job can be taken. -/
def attemptsLeft (maxAttempts : ℤ) : Option JobRecord → ℤ
  | none => 0
  | some job => maxAttempts - job.attempt

variable {P : Platform π} {S : JobStore π σ} {m : ℤ}

theorem Sound.of_fresh {input : EnqueueInput π} {new : JobRecord} (h : Fresh input new)
    (hm : 1 ≤ input.maxAttempts.getD defaultMaxAttempts) :
    Sound (input.maxAttempts.getD defaultMaxAttempts) new := by
  have hattempt := h.attempt
  have hmax := h.maxAttempts
  refine ⟨⟨?_, fun _ => by omega, ?_⟩, hmax, by omega, ?_⟩
  · rw [h.leaseOwner, h.state]
    simp
  · rw [h.state]
    simp
  · rw [h.state]
    simp

theorem Sound.of_claimed {owner : String} {old new : JobRecord} (hold : Sound m old)
    (h : Claimed owner old new) : Sound m new := by
  have hleft := hold.waiting h.waiting
  have hnonneg := hold.nonneg
  have hattempt := h.attempt
  have hmax := h.maxAttempts
  refine ⟨⟨?_, ?_, fun _ => ⟨by omega, by omega⟩⟩, hmax.trans hold.bound, by omega, ?_⟩
  · rw [h.leaseOwner, h.state]
    simp
  · rw [h.state]
    simp
  · rw [h.state]
    simp

/-- A lease is only ever given up by a job that was running. -/
theorem Sound.running_of_leased {owner : String} {job : JobRecord} (h : Sound m job)
    (howner : job.leaseOwner = some owner) : job.state = .running := by
  rw [← h.lease, howner]
  rfl

theorem Sound.of_completed {old new : JobRecord} (hold : Sound m old)
    (hrun : old.state = .running) (h : Completed old new) : Sound m new := by
  have htried := hold.tried (.inl hrun)
  have hattempt := h.same.attempt
  have hmax := h.same.maxAttempts
  refine ⟨⟨?_, ?_, fun _ => by omega⟩, hmax.trans hold.bound, by omega, ?_⟩
  · rw [h.leaseOwner, h.state]
    simp
  · rw [h.state]
    simp
  · rw [h.state]
    simp

theorem Sound.of_released {old new : JobRecord} (hold : Sound m old)
    (hrun : old.state = .running) (h : Released old new) : Sound m new := by
  have htried := hold.tried (.inl hrun)
  have hattempt := h.same.attempt
  have hmax := h.same.maxAttempts
  have hstate := h.state
  rcases lt_or_ge old.attempt old.maxAttempts with hlt | hge
  · rw [if_pos hlt] at hstate
    refine ⟨⟨?_, fun _ => by omega, fun _ => by omega⟩, hmax.trans hold.bound, by omega, ?_⟩
    · rw [h.leaseOwner, hstate]
      simp
    · rw [hstate]
      simp
  · rw [if_neg (not_lt.mpr hge)] at hstate
    refine ⟨⟨?_, ?_, fun _ => by omega⟩, hmax.trans hold.bound, by omega, ?_⟩
    · rw [h.leaseOwner, hstate]
      simp
    · rw [hstate]
      simp
    · rw [hstate]
      simp

theorem Sound.of_renewed {old new : JobRecord} (hold : Sound m old) (h : Renewed old new) :
    Sound m new := by
  have hattempt := h.same.attempt
  have hmax := h.same.maxAttempts
  have hnonneg := hold.nonneg
  refine ⟨⟨?_, fun hw => ?_, fun ht => ?_⟩, hmax.trans hold.bound, by omega, ?_⟩
  · rw [h.leaseOwner, h.state]
    exact hold.lease
  · have := hold.waiting (h.state ▸ hw)
    omega
  · have := hold.tried (h.state ▸ ht)
    omega
  · rw [h.state]
    exact hold.known

/-- One call keeps the invariant of a job it does not enqueue anew. -/
theorem inv_move {j : String} {op : JobOp π} {result : JobResult} {r r' : Option JobRecord}
    (hop : ¬ op.Enqueues j) (h : Move P j op result r r') (hr : Inv m r) : Inv m r' := by
  intro job hjob
  cases h with
  | same _ _ => exact hr job hjob
  | enqueue _ hj _ => exact absurd hj hop
  | claim _ h =>
    cases hjob
    exact (hr _ rfl).of_claimed h
  | complete howner h =>
    cases hjob
    exact (hr _ rfl).of_completed ((hr _ rfl).running_of_leased howner) h
  | fail howner h =>
    cases hjob
    exact (hr _ rfl).of_released ((hr _ rfl).running_of_leased howner) h
  | renew _ h =>
    cases hjob
    exact (hr _ rfl).of_renewed h
  | reclaim hrun h =>
    cases hjob
    exact (hr _ rfl).of_released hrun h
  | prune _ => cases hjob

theorem not_claims {j : String} : ∀ {result : JobResult},
    (∀ job, result = .claimed (some job) → job.jobId ≠ j) → result.claims j = false
  | .claimed (some taken), h => decide_eq_false (h taken rfl)
  | .claimed none, _ | .enqueued _, _ | .flag _, _ | .count _, _ | .job _, _ | .stats _, _ => rfl

/-- What a claim costs is paid from the attempts left. -/
theorem attemptsLeft_move {j : String} {op : JobOp π} {result : JobResult}
    {r r' : Option JobRecord} (hop : ¬ op.Enqueues j) (h : Move P j op result r r')
    (hr : Inv m r) :
    ((if result.claims j then 1 else 0 : ℕ) : ℤ) + attemptsLeft m r' ≤ attemptsLeft m r := by
  cases h with
  | same _ hclaim =>
    simp [not_claims hclaim]
  | enqueue _ hj _ => exact absurd hj hop
  | claim hj h =>
    have hattempt := h.attempt
    simp only [JobResult.claims, hj, decide_true, if_true, attemptsLeft]
    push_cast
    omega
  | complete _ h =>
    have hattempt := h.same.attempt
    simp [JobResult.claims, attemptsLeft, hattempt]
  | fail _ h =>
    have hattempt := h.same.attempt
    simp [JobResult.claims, attemptsLeft, hattempt]
  | renew _ h =>
    have hattempt := h.same.attempt
    simp [JobResult.claims, attemptsLeft, hattempt]
  | reclaim _ h =>
    have hattempt := h.same.attempt
    simp [JobResult.claims, attemptsLeft, hattempt]
  | @prune _ _ _ old hterminal =>
    have hsound := hr old rfl
    have hbound := hsound.bound
    have hstate : old.state = .completed ∨ old.state = .failed := by
      have := hsound.known
      rcases hs : old.state <;> simp_all [Memory.isTerminal]
    have := hsound.tried (.inr hstate)
    simp only [JobResult.claims, attemptsLeft, Bool.false_eq_true, if_false]
    push_cast
    omega

theorem attemptsLeft_nonneg : ∀ {r : Option JobRecord}, Inv m r → 0 ≤ attemptsLeft m r
  | none, _ => le_rfl
  | some job, hr => by
      have hsound := hr job rfl
      have hbound := hsound.bound
      have hknown := hsound.known
      have hle : job.attempt ≤ job.maxAttempts := by
        rcases hs : job.state
        case queued => exact (hsound.waiting (.inl hs)).le
        case running => exact (hsound.tried (.inl hs)).2
        case completed => exact (hsound.tried (.inr (.inl hs))).2
        case failed => exact (hsound.tried (.inr (.inr hs))).2
        case retrying => exact (hsound.waiting (.inr hs)).le
        case cancelled => exact absurd hs hknown
      change 0 ≤ m - job.attempt
      omega

theorem keepsSettled_of_inv (hS : S.Lawful P) {j : String} {s : σ} {op : JobOp π}
    (hop : ¬ op.Enqueues j) (hs : Inv m (S.get s j)) : KeepsSettled S j s op := by
  have hmove := exec_move hS s op j
  revert hmove hs
  generalize hr : S.get s j = r
  generalize hr' : S.get (S.exec s op).1 j = r'
  generalize hres : (S.exec s op).2 = result
  intro hs hmove
  have hrunning : ∀ job, r = some job → IsSettled job → job.state ≠ .running := by
    rintro job - (hstate | hstate) <;> simp [hstate]
  refine ⟨fun job hjob hsettled => ?_, fun job hjob hstate => ?_, fun hnone => ?_⟩
  · rw [hr] at hjob
    rw [hr', hres]
    have hne := hrunning job hjob hsettled
    cases hmove with
    | same _ hclaim => exact ⟨.inl hjob, not_claims hclaim⟩
    | enqueue _ hj _ => exact absurd hj hop
    | claim _ h =>
      cases hjob
      rcases hsettled with hstate | hstate <;> rcases h.waiting with hw | hw <;>
        simp [hstate] at hw
    | complete howner _ =>
      cases hjob
      exact absurd ((hs _ rfl).running_of_leased howner) hne
    | fail howner _ =>
      cases hjob
      exact absurd ((hs _ rfl).running_of_leased howner) hne
    | renew howner _ =>
      cases hjob
      exact absurd ((hs _ rfl).running_of_leased howner) hne
    | reclaim hrun _ =>
      cases hjob
      exact absurd hrun hne
    | prune _ => exact ⟨.inr ⟨trivial, rfl⟩, rfl⟩
  · rw [hr] at hjob
    rw [hr']
    cases hmove with
    | same _ _ => simp [hjob]
    | prune hterminal =>
      cases hjob
      rcases hstate with hstate | hstate | hstate <;> simp [hstate, Memory.isTerminal] at hterminal
    | _ => simp
  · rw [hr] at hnone
    subst hnone
    rw [hr', hres]
    cases hmove with
    | same _ hclaim => exact ⟨rfl, not_claims hclaim⟩
    | enqueue _ hj _ => exact absurd hj hop

/-! ### Runs -/

/-- The run lemma: from a sound record on, and as long as nothing is enqueued under its id. -/
theorem lifecycle_of_inv (hS : S.Lawful P) {j : String} {ops : List (JobOp π)} {s : σ}
    (hops : ∀ op ∈ ops, ¬ op.Enqueues j) (hs : Inv m (S.get s j)) :
    Lifecycle S j (attemptsLeft m (S.get s j)) s ops := by
  induction ops generalizing s with
  | nil =>
    refine ⟨fun job hjob => (hs job hjob).toWellFormed, trivial, ?_⟩
    simpa [JobStore.claimCount] using attemptsLeft_nonneg hs
  | cons op ops ih =>
    have hop : ¬ op.Enqueues j := hops op List.mem_cons_self
    have hmove := exec_move hS s op j
    have hnext := inv_move hop hmove hs
    have hrest := ih (fun o ho => hops o (List.mem_cons_of_mem op ho)) hnext
    refine ⟨⟨fun job hjob => (hs job hjob).toWellFormed, ?_⟩, ?_, ?_⟩
    · rintro t ⟨⟩
      exact hrest.wellFormed
    · rintro t ⟨⟩
      exact ⟨keepsSettled_of_inv hS hop hs, hrest.keepsSettled⟩
    · have hcost := attemptsLeft_move hop hmove hs
      have hle := hrest.claimed_le
      rw [JobStore.claimCount]
      push_cast at hcost ⊢
      omega

/-- A job enqueued with at least one attempt keeps to its life cycle in every lawful store. -/
theorem lifecycle_of_lawful (hS : S.Lawful P) {j newId : String} {s : σ} {now : ℤ}
    {input : EnqueueInput π} {ops : List (JobOp π)}
    (h : (S.enqueue s now newId input).2 = .ok j)
    (hm : 1 ≤ input.maxAttempts.getD defaultMaxAttempts) (hops : ∀ op ∈ ops, ¬ op.Enqueues j) :
    Lifecycle S j (input.maxAttempts.getD defaultMaxAttempts) (S.enqueue s now newId input).1
      ops := by
  obtain ⟨-, new, hfresh, hset⟩ := hS.enqueue_ok h
  have hget : S.get (S.enqueue s now newId input).1 j = some new := by rw [hset, if_pos rfl]
  have hlife := lifecycle_of_inv (m := input.maxAttempts.getD defaultMaxAttempts) hS hops
    (s := (S.enqueue s now newId input).1) (by
      rw [hget]
      rintro job ⟨⟩
      exact .of_fresh hfresh hm)
  rw [hget] at hlife
  have hattempt := hfresh.attempt
  refine ⟨hlife.wellFormed, hlife.keepsSettled, hlife.claimed_le.trans ?_⟩
  simp [attemptsLeft, hattempt]

/-- A job with two attempts, which one worker loses and another one completes. -/
def twoAttempts : EnqueueInput Unit := { type := "t", payload := (), maxAttempts := some 2 }

def lostAndCompleted : List (JobOp Unit) :=
  [.claim 10 { owner := some "a", leaseMs := some 100 }, .reclaimExpired 110,
    .claim 120 { owner := some "b" }, .complete 130 "j" "b", .claim 140 {}, .prune 150 0]

end Remembra.Jobs
