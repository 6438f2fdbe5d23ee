import Remembra.Sqlite.Restore

/-! Does a restore that fails or is cut off leave one whole database? As long as nothing fails once the
    target holds the restored database, and the way back does not fail while there is no target, a restore
    that throws leaves the previous database at the target. The next start then comes to a whole database
    exactly when the file that it takes, given the journal, is there and passes its verification
    (`recovers_iff`): that is not so of every crash. -/

namespace Remembra.Sqlite.Restore
open Transition Prog

variable {δ : Type} [Contents δ] (part : δ → δ) (o : Options) (d₀ : Disk δ)

/-! ### What is asked of a restore -/

/-- There is a previous database, and it is to be kept. -/
def Keeps : Bool := o.keepPrevious && d₀.target.isSome

/-- The next reconciliation that runs to its end succeeds, with the previous or the restored database at
    the target, and with the previous one there or at the rollback path. -/
def Recovers (d : Disk δ) : Prop :=
  ∃ action d', exec (fun q d => Disk.handle part q .ok d) reconcileSqliteRestore d = (.ok action, d') ∧
    (d'.target = d₀.target ∨ d'.target = d₀.source ∧ d'.target.isSome) ∧
    (d₀.target = none ∨ d'.target = d₀.target ∨ Keeps o d₀ = true ∧ d'.rollback = d₀.target)

/-- What is promised of a restore from the files `d₀`. -/
def Safe (m : Machine δ) : Prop :=
  match m.process with
  | .threw => m.disk.target = d₀.target
  | .down => Recovers part o d₀ m.disk
  | _ => True

/-- A request may fail while the previous database is at the target, or while nothing is there and the
    request is not the way back. -/
def FaultSafe (q : Ask) (fault : Fault) (d : Disk δ) : Prop :=
  fault = .fails → d.target = d₀.target ∨
    d.target = none ∧ q ≠ .isThere .target ∧ q ≠ .act (.rename .rollback .target)

def FaultsSafe (m : Machine δ) : Event → Prop
  | .answers fault =>
    match m.process with
    | .restoring (.ask q _) => FaultSafe d₀ q fault m.disk
    | _ => True
  | _ => True

/-- The file that a reconciliation takes. -/
def Disk.taken (d : Disk δ) (phase : Phase) : Option δ :=
  if d.target.isSome && (d.rollback.isSome || phase ≠ .prepared) then d.target
  else if d.target.isSome || d.temp.isSome then d.temp
  else d.rollback

/-- Without a journal the previous database is not lost; with one its paths are in one directory, and the
    file that is taken is there and passes the verification with the default limit. -/
def Readable (d : Disk δ) : Prop :=
  match d.journal with
  | none => Keeps o d₀ = true ∨ d₀.target = none ∨ d.target = d₀.target
  | some journal => journal.beside = true ∧ (d.taken journal.phase).any (verifies none) = true

def CrashesReadable (m : Machine δ) : Event → Prop
  | .crashes => Readable o d₀ m.disk
  | _ => True

section Decidable
variable [DecidableEq δ]

instance FaultSafe.decidable (q : Ask) (fault : Fault) (d : Disk δ) :
    Decidable (FaultSafe d₀ q fault d) :=
  inferInstanceAs (Decidable (fault = .fails → d.target = d₀.target ∨
    d.target = none ∧ q ≠ .isThere .target ∧ q ≠ .act (.rename .rollback .target)))

instance FaultsSafe.decidable : ∀ (m : Machine δ) (e : Event), Decidable (FaultsSafe d₀ m e)
  | ⟨d, .restoring (.ask q _)⟩, .answers fault => FaultSafe.decidable d₀ q fault d
  | ⟨_, .restoring (.done _)⟩, .answers _ | ⟨_, .restoring (.fail _)⟩, .answers _
  | ⟨_, .restored⟩, .answers _ | ⟨_, .threw⟩, .answers _ | ⟨_, .down⟩, .answers _
  | ⟨_, .reconciling _⟩, .answers _ | ⟨_, .reconciled⟩, .answers _
  | _, .crashes | _, .reconciles => .isTrue trivial

instance Readable.decidable (d : Disk δ) : Decidable (Readable o d₀ d) :=
  match h : d.journal with
  | none => decidable_of_iff (Keeps o d₀ = true ∨ d₀.target = none ∨ d.target = d₀.target)
      (by rw [Readable, h])
  | some journal => decidable_of_iff
      (journal.beside = true ∧ (d.taken journal.phase).any (verifies none) = true) (by rw [Readable, h])

instance CrashesReadable.decidable : ∀ (m : Machine δ) (e : Event), Decidable (CrashesReadable o d₀ m e)
  | m, .crashes => Readable.decidable o d₀ m.disk
  | _, .answers _ | _, .reconciles => .isTrue trivial

end Decidable

/-! ### What the files can be -/

/-- The target is the previous database, the restored one, or away; the previous one is kept. -/
structure Shape (d : Disk δ) : Prop where
  source : d.source = d₀.source
  target : d.target = d₀.target ∨
    (d.target = d₀.source ∧ d.target.isSome = true ∧ (Keeps o d₀ = true → d.rollback = d₀.target)) ∨
    (d.target = none ∧ d.rollback = d₀.target ∧ d.journal.isSome = true)
  journal : d.journal.isSome = true → Keeps o d₀ = true
  staged : d.journal.isSome = true → d.temp = none ∨ d.temp = d₀.source

variable {part o d₀} {d d' : Disk δ} {α β : Type} {previousMoved : Bool} {a : Act}

/-- The previous database is at the target, or it has been moved and the target is away. -/
structure Unpublished (o : Options) (d₀ : Disk δ) (previousMoved : Bool) (d : Disk δ) : Prop where
  shape : Shape o d₀ d
  keeps : previousMoved = true → Keeps o d₀ = true
  target : d.target = d₀.target ∨ previousMoved = true ∧ d.target = none

/-- One step of the `try` block, of those that succeed unless the file system fails. -/
theorem guarantees_must {t : Disk δ} {f : Unit → RProg α} {R : α → Disk δ → Prop} (hshape : Shape o d₀ d)
    (hkeeps : previousMoved = true → Keeps o d₀ = true)
    (haway : d.target = none → d.target = d₀.target ∨ previousMoved = true)
    (hdone : d.perform part a = some t)
    (hnext : (f ()).Guarantees (Disk.handle part) (FaultSafe d₀) (fun _ => Shape o d₀) R
      (Unpublished o d₀) t) :
    (must previousMoved a >>= f).Guarantees (Disk.handle part) (FaultSafe d₀) (fun _ => Shape o d₀) R
      (Unpublished o d₀) d := by
  refine ⟨hshape, fun fault hfault => ?_⟩
  cases fault with
  | ok =>
    simp only [Disk.handle, hdone]
    exact hnext
  | fails =>
    refine ⟨hshape, hkeeps, ?_⟩
    rcases hfault rfl with htarget | ⟨hnone, -⟩
    · exact .inl htarget
    · exact (haway hnone).imp_right fun hmoved => ⟨hmoved, hnone⟩

theorem guarantees_last {t : Disk δ} {R : Unit → Disk δ → Prop} (hshape : Shape o d₀ d)
    (hkeeps : previousMoved = true → Keeps o d₀ = true)
    (haway : d.target = none → d.target = d₀.target ∨ previousMoved = true)
    (hdone : d.perform part a = some t) (hend : R () t) :
    (must previousMoved a).Guarantees (Disk.handle part) (FaultSafe d₀) (fun _ => Shape o d₀) R
      (Unpublished o d₀) d := by
  rw [← bind_done (must previousMoved a)]
  exact guarantees_must hshape hkeeps haway hdone hend

variable (part) in
/-- The `try` block on a backup that has been verified. -/
theorem publish_guarantees {b : δ} (hshape : Shape o d₀ d) (htarget : d.target = d₀.target)
    (hjournal : d.journal = none) (hb : d₀.source = some b) (hverifies : verifies o.maxBytes b = true) :
    (publish o (Keeps o d₀)).Guarantees (Disk.handle part) (FaultSafe d₀) (fun _ => Shape o d₀)
      (fun _ => Shape o d₀) (Unpublished o d₀) d := by
  have hsource : d.source = some b := hshape.source.trans hb
  have hkept : d.target = none → d.target = d₀.target ∨ false = true := fun _ => .inl htarget
  have hnot : false = true → Keeps o d₀ = true := by rintro ⟨⟩
  rw [publish]
  refine guarantees_must (t := { d with temp := some (part b) }) hshape hnot hkept
    (by simp [Disk.perform, hsource]) ?_
  have hpart : Shape o d₀ { d with temp := some (part b) } :=
    ⟨hshape.source, .inl htarget, by simp [hjournal], by simp [hjournal]⟩
  refine guarantees_must (t := { d with temp := some b }) hpart hnot hkept
    (by simp [Disk.perform, hsource]) ?_
  have hcopied : Shape o d₀ { d with temp := some b } :=
    ⟨hshape.source, .inl htarget, by simp [hjournal], by simp [hjournal]⟩
  refine guarantees_must hcopied hnot hkept rfl ?_
  refine guarantees_must hcopied hnot hkept (if_pos hverifies) ?_
  refine guarantees_must hcopied hnot hkept rfl ?_
  split
  · rename_i hkeeps
    obtain ⟨prev, hprev⟩ : ∃ prev, d₀.target = some prev :=
      Option.isSome_iff_exists.mp (Bool.and_eq_true_iff.mp hkeeps).2
    refine guarantees_must hcopied hnot hkept rfl ?_
    have hprepared : ∀ phase beside, Shape o d₀
        { d with temp := some b, journal := some ⟨phase, beside⟩ } :=
      fun phase beside => ⟨hshape.source, .inl htarget, fun _ => hkeeps, fun _ => .inr hb.symm⟩
    refine guarantees_must (t := { d with
        temp := some b, journal := some ⟨.prepared, o.rollbackBeside⟩
        target := none, rollback := some prev }) (hprepared _ _) hnot hkept
      (by simp [Disk.perform, Disk.get, Disk.put, htarget, hprev]) ?_
    -- the target is away, and the previous database at the rollback path
    have haway : ∀ journal, Shape o d₀ { d with
        temp := some b, journal := some journal, target := none, rollback := some prev } :=
      fun journal => ⟨hshape.source, .inr (.inr ⟨rfl, hprev.symm, rfl⟩), fun _ => hkeeps,
        fun _ => .inr hb.symm⟩
    have hmoved : ∀ {target : Option δ}, target = none → target = d₀.target ∨ true = true :=
      fun _ => .inr rfl
    refine guarantees_must (haway _) (fun _ => hkeeps) hmoved rfl ?_
    refine guarantees_must (t := { d with
        temp := none, journal := some ⟨.previousMoved, o.rollbackBeside⟩
        target := some b, rollback := some prev }) (haway _) (fun _ => hkeeps) hmoved rfl ?_
    have hpublished : ∀ journal, Shape o d₀ { d with
        temp := none, journal := journal, target := some b, rollback := some prev } :=
      fun journal => ⟨hshape.source, .inr (.inl ⟨hb.symm, rfl, fun _ => hprev.symm⟩), fun _ => hkeeps,
        fun _ => .inl rfl⟩
    refine guarantees_must (hpublished _) (fun _ => hkeeps) hmoved rfl ?_
    refine guarantees_must (hpublished _) (fun _ => hkeeps) hmoved (if_pos hverifies) ?_
    exact guarantees_last (hpublished _) (fun _ => hkeeps) hmoved rfl (hpublished none)
  · rename_i hkeeps
    refine guarantees_must (t := { d with temp := none, target := some b }) hcopied hnot hkept rfl ?_
    have hpublished : Shape o d₀ { d with temp := none, target := some b } :=
      ⟨hshape.source, .inr (.inl ⟨hb.symm, rfl, fun h => absurd h hkeeps⟩), by simp [hjournal],
        by simp [hjournal]⟩
    exact guarantees_last hpublished hnot (by rintro ⟨⟩) rfl hpublished

/-- A step of the `catch` block whose failure is ignored. -/
theorem guarantees_attempts {f : Unit → RProg α} {I : Ask → Disk δ → Prop} {R : α → Disk δ → Prop}
    {G : Ask → Fault → Disk δ → Prop} {E : Bool → Disk δ → Prop} (hI : I (.act a) d)
    (hok : G (.act a) .ok d →
      (f ()).Guarantees (Disk.handle part) G I R E ((d.perform part a).getD d))
    (hfails : G (.act a) .fails d → (f ()).Guarantees (Disk.handle part) G I R E d) :
    (attempts a >>= f).Guarantees (Disk.handle part) G I R E d := by
  refine ⟨hI, fun fault hG => ?_⟩
  cases fault with
  | ok => exact hok hG
  | fails => exact hfails hG

theorem unlinked_temp (d : Disk δ) :
    (d.perform part (.unlink .temp)).getD d = { d with temp := none } := by
  obtain ⟨source, target, temp, rollback, journal, sidecar⟩ := d
  cases temp <;> rfl

section CleanUp
variable {R : Unit → Disk δ → Prop}

theorem giveUp_guarantees (hshape : Shape o d₀ d) (htarget : d.target = d₀.target) :
    (giveUp (Keeps o d₀) previousMoved).Guarantees (Disk.handle part) (FaultSafe d₀)
      (fun _ => Shape o d₀) R (fun _ d => d.target = d₀.target) d := by
  rw [giveUp]
  split
  · exact guarantees_attempts hshape (fun _ => htarget) fun _ => htarget
  · exact htarget

theorem bringBack_guarantees (h : Unpublished o d₀ previousMoved d) :
    (bringBack (Keeps o d₀) previousMoved).Guarantees (Disk.handle part) (FaultSafe d₀)
      (fun _ => Shape o d₀) R (fun _ d => d.target = d₀.target) d := by
  rw [bringBack]
  split
  · rename_i hmoved
    obtain ⟨prev, hprev⟩ : ∃ prev, d₀.target = some prev :=
      Option.isSome_iff_exists.mp (Bool.and_eq_true_iff.mp (h.keeps hmoved)).2
    refine ⟨h.shape, fun fault hfault => ?_⟩
    cases fault with
    | fails =>
      rcases hfault rfl with htarget | ⟨-, hne, -⟩
      · exact htarget
      · exact absurd rfl hne
    | ok =>
      rcases Option.eq_none_or_eq_some d.target with hnone | ⟨x, hx⟩
      · -- the target is away, so the previous database is at the rollback path
        have hrollback : d.rollback = some prev := by
          rcases h.shape.target with htarget | ⟨-, hsome, -⟩ | ⟨-, hrollback, -⟩
          · rw [hnone, hprev] at htarget
            cases htarget
          · rw [hnone] at hsome
            cases hsome
          · exact hrollback.trans hprev
        simp only [Disk.handle, Disk.get, hnone, Option.isSome_none]
        refine guarantees_attempts h.shape (fun _ => ?_) fun hfails => ?_
        · simp only [Disk.perform, Disk.get, hrollback, Option.map_some, Option.getD_some]
          exact giveUp_guarantees ⟨h.shape.source, .inl hprev.symm, h.shape.journal, h.shape.staged⟩
            hprev.symm
        · rcases hfails rfl with htarget | ⟨-, -, hne⟩
          · rw [hnone, hprev] at htarget
            cases htarget
          · exact absurd rfl hne
      · simp only [Disk.handle, Disk.get, hx, Option.isSome_some]
        exact giveUp_guarantees h.shape (h.target.resolve_right fun hnone => by simp [hx] at hnone)
  · rename_i hmoved
    exact giveUp_guarantees h.shape (h.target.resolve_right fun h => hmoved h.1)

theorem cleanUp_guarantees (h : Unpublished o d₀ previousMoved d) :
    (cleanUp (Keeps o d₀) previousMoved).Guarantees (Disk.handle part) (FaultSafe d₀)
      (fun _ => Shape o d₀) R (fun _ d => d.target = d₀.target) d := by
  rw [cleanUp]
  refine guarantees_attempts h.shape (fun _ => ?_) fun _ => bringBack_guarantees h
  rw [unlinked_temp]
  exact bringBack_guarantees ⟨⟨h.shape.source, h.shape.target, h.shape.journal, fun _ => .inl rfl⟩,
    h.keeps, h.target⟩

end CleanUp

/-! ### The whole restore -/

omit [Contents δ] in
theorem shape_start (hjournal : d₀.journal = none) : Shape o d₀ d₀ :=
  ⟨rfl, .inl rfl, by simp [hjournal], by simp [hjournal]⟩

section Asks
variable {I : Ask → Disk δ → Prop} {G : Ask → Fault → Disk δ → Prop} {E : Bool → Disk δ → Prop}
  {R : α → Disk δ → Prop} {place : Place}

theorem guarantees_isThere {f : Bool → RProg α} (hI : I (.isThere place) d)
    (hfails : G (.isThere place) .fails d → E previousMoved d)
    (hnext : (f (d.get place).isSome).Guarantees (Disk.handle part) G I R E d) :
    (isThere previousMoved place >>= f).Guarantees (Disk.handle part) G I R E d := by
  refine ⟨hI, fun fault hG => ?_⟩
  cases fault with
  | ok => exact hnext
  | fails => exact hfails hG

theorem assertTarget_guarantees {overwrite : Bool} (hI : I (.isThere place) d) (hE : E false d) :
    (assertTarget place overwrite).Guarantees (Disk.handle part) G I (fun _ d' => d' = d) E d := by
  refine guarantees_isThere hI (fun _ => hE) ?_
  split
  · exact hE
  · rfl

end Asks

/-- The checks leave the files as they are, and the backup that passes them is one that verifies. -/
theorem checks_guarantees (hjournal : d₀.journal = none) :
    (checks o).Guarantees (Disk.handle part) (FaultSafe d₀) (fun _ => Shape o d₀)
      (fun keeps d => d = d₀ ∧ keeps = Keeps o d₀ ∧ ∃ b, d₀.source = some b ∧ verifies o.maxBytes b = true)
      (fun _ d => d.target = d₀.target) d₀ := by
  have hshape : Shape o d₀ d₀ := shape_start hjournal
  rw [checks]
  refine ⟨hshape, fun fault _ => ?_⟩
  cases fault with
  | fails => rfl
  | ok =>
    by_cases hverifies : (d₀.source.any (verifies o.maxBytes)) = true
    · obtain ⟨b, hb, hbverifies⟩ := (Option.any_eq_true _ _).mp hverifies
      simp only [Disk.handle, Disk.perform, Disk.get, hverifies, if_true]
      refine guarantees_isThere hshape (fun _ => rfl) ?_
      refine guarantees_bind (assertTarget_guarantees hshape rfl) ?_
      rintro _ d hd
      rw [hd]
      refine ⟨hshape, fun fault _ => ?_⟩
      cases fault with
      | fails => rfl
      | ok =>
        change Guarantees _ _ _ _ _ (if d₀.sidecar = true then _ else _) _
        split
        · rfl
        · have hkeeps : (o.keepPrevious && (d₀.get .target).isSome) = Keeps o d₀ := rfl
          change Guarantees _ _ _ _ _ (if (o.keepPrevious && (d₀.get .target).isSome) = true then _ else _) _
          split
          · rename_i hkept
            refine guarantees_bind (assertTarget_guarantees hshape rfl) ?_
            rintro _ d hd
            exact ⟨hd, (hkeeps.symm.trans hkept).symm, b, hb, hbverifies⟩
          · rename_i hnot
            rw [Bool.not_eq_true] at hnot
            exact ⟨rfl, (hkeeps.symm.trans hnot).symm, b, hb, hbverifies⟩
    · simp only [Disk.handle, Disk.perform, Disk.get, hverifies]
      rfl

/-- A restore that throws leaves the previous database at the target. -/
theorem restore_guarantees (hjournal : d₀.journal = none) :
    (restoreSqliteBackup o).Guarantees (Disk.handle part) (FaultSafe d₀) (fun _ => Shape o d₀)
      (fun _ _ => True) (fun _ d => d.target = d₀.target) d₀ := by
  refine guarantees_bind (checks_guarantees hjournal) ?_
  rintro keeps d ⟨hd, rfl, b, hb, hverifies⟩
  rw [hd]
  have hpublish := publish_guarantees part (shape_start hjournal) rfl hjournal hb hverifies
  refine guarantees_bind (guarantees_attempt hpublish
    (S := fun r d => ∀ previousMoved, r = .error previousMoved → Unpublished o d₀ previousMoved d)
    (by rintro _ _ _ _ ⟨⟩) (by rintro _ _ h _ ⟨⟩; exact h)) ?_
  intro result d hresult
  cases result with
  | ok => trivial
  | error previousMoved => exact cleanUp_guarantees (hresult previousMoved rfl)

/-! ### The reconciliation alone -/

section Alone
variable (part) (d)

/-- The reconciliation when nothing fails. -/
def alone (p : RProg α) : Except Bool α × Disk δ := exec (fun q d => Disk.handle part q .ok d) p d

variable {part d}

theorem alone_must {f : Unit → RProg α} (h : d.perform part a = some d') :
    alone part d (must previousMoved a >>= f) = alone part d' (f ()) := by
  simp [alone, must, Prog.request, Disk.handle, h, exec]

theorem alone_must_error {f : Unit → RProg α} (h : d.perform part a = none) :
    alone part d (must previousMoved a >>= f) = (.error previousMoved, d) := by
  simp [alone, must, Prog.request, Disk.handle, h, exec]

theorem alone_attempts {f : Unit → RProg α} :
    alone part d (attempts a >>= f) = alone part ((d.perform part a).getD d) (f ()) := rfl

theorem perform_verify {place : Place} {maxBytes : Option ℕ}
    (h : (d.get place).any (verifies maxBytes) = true) :
    d.perform part (.verify place maxBytes) = some d := if_pos h

theorem perform_verify_none {place : Place} {maxBytes : Option ℕ}
    (h : ¬ (d.get place).any (verifies maxBytes) = true) :
    d.perform part (.verify place maxBytes) = none := if_neg h

theorem alone_keepTarget (h : d.target.any (verifies none) = true) :
    alone part d keepTarget = (.ok .keptTarget, { d with temp := none, journal := none }) := by
  rw [keepTarget, alone_must (perform_verify h), alone_attempts, unlinked_temp, alone_must rfl]
  rfl

theorem alone_keepTarget_error (h : ¬ d.target.any (verifies none) = true) :
    alone part d keepTarget = (.error false, d) :=
  alone_must_error (perform_verify_none h)

theorem alone_putBack {place : Place} {action : Action}
    (h : (d.get place).any (verifies none) = true)
    (hmoved : d.perform part (.rename place .target) = some d') (htarget : d'.target = d.get place) :
    alone part d (putBack place action) = (.ok action, { d' with journal := none }) := by
  rw [putBack, alone_must (perform_verify h), alone_must hmoved, alone_must rfl,
    alone_must (perform_verify (by rw [← htarget] at h; exact h)), alone_must rfl]
  rfl

theorem alone_putBack_error {place : Place} {action : Action}
    (h : ¬ (d.get place).any (verifies none) = true) :
    alone part d (putBack place action) = (.error false, d) :=
  alone_must_error (perform_verify_none h)

variable (part) in
/-- The reconciliation takes one file, and leaves it at the target if it verifies. -/
theorem alone_reconcile {phase : Phase} (hjournal : d.journal = some ⟨phase, true⟩) :
    alone part d reconcileSqliteRestore =
      alone part d (reconcileFrom phase d.target.isSome d.temp.isSome d.rollback.isSome) := by
  rw [reconcileSqliteRestore, alone, alone]
  simp only [Prog.request, ask_bind, done_bind, exec, Disk.handle, hjournal, Option.elim, if_true]
  rfl

variable (part) in
/-- Where nothing has been moved yet and there is no older file at the rollback path, the reconciliation
    moves the target itself, and then only a staged file helps. -/
theorem alone_unmoved {x : δ} (hjournal : d.journal = some ⟨.prepared, true⟩)
    (htarget : d.target = some x) (hrollback : d.rollback = none) :
    alone part d reconcileSqliteRestore =
      alone part { d with target := none, rollback := some x }
        (if d.temp.isSome then putBack .temp .publishedStaged else .fail false) := by
  have hmoved : d.perform part (.rename .target .rollback) =
      some { d with target := none, rollback := some x } := by
    simp [Disk.perform, Disk.get, Disk.put, htarget]
  rw [alone_reconcile part hjournal, reconcileFrom, htarget, hrollback]
  change alone part d (must false _ >>= _) = _
  rw [alone_must hmoved, alone_must rfl]
  rfl

end Alone

omit [Contents δ] in
/-- With a journal there was a previous database. -/
theorem Shape.previous (h : Shape o d₀ d) (hjournal : d.journal.isSome = true) :
    d₀.target.isSome = true :=
  (Bool.and_eq_true_iff.mp (h.journal hjournal)).2

theorem recovers_of_ok {action : Action} (hrun : alone part d reconcileSqliteRestore = (.ok action, d'))
    (htarget : d'.target = d₀.target ∨ d'.target = d₀.source ∧ d'.target.isSome = true)
    (hprevious : d₀.target = none ∨ d'.target = d₀.target ∨
      Keeps o d₀ = true ∧ d'.rollback = d₀.target) : Recovers part o d₀ d :=
  ⟨action, d', hrun, htarget, hprevious⟩

theorem not_recovers_of_error {previousMoved : Bool}
    (hrun : alone part d reconcileSqliteRestore = (.error previousMoved, d')) :
    ¬ Recovers part o d₀ d := by
  rintro ⟨action, d'', hok, -⟩
  cases hrun.symm.trans hok

/-- The target is there and is not the previous database alone: it is kept. -/
theorem recovers_kept (h : Shape o d₀ d) {phase : Phase} (hjournal : d.journal = some ⟨phase, true⟩)
    (hthere : d.target.isSome = true) (hkept : d.rollback.isSome = true ∨ phase ≠ .prepared) :
    Recovers part o d₀ d ↔ d.target.any (verifies none) = true := by
  have hrun : alone part d reconcileSqliteRestore = alone part d keepTarget := by
    rw [alone_reconcile part hjournal, reconcileFrom, if_pos]
    rcases hkept with hrollback | hphase
    · simp [hthere, hrollback]
    · simp [hthere, hphase]
  by_cases hv : d.target.any (verifies none) = true
  · refine iff_of_true (recovers_of_ok (hrun.trans (alone_keepTarget hv)) ?_ ?_) hv
    · rcases h.target with hold | ⟨hnew, hsome, -⟩ | ⟨hnone, -⟩
      · exact .inl hold
      · exact .inr ⟨hnew, hsome⟩
      · rw [hnone] at hthere
        cases hthere
    · have hkeeps := h.journal (by simp [hjournal])
      rcases h.target with hold | ⟨-, -, hrollback⟩ | ⟨hnone, -⟩
      · exact .inr (.inl hold)
      · exact .inr (.inr ⟨hkeeps, hrollback hkeeps⟩)
      · rw [hnone] at hthere
        cases hthere
  · exact iff_of_false (not_recovers_of_error (hrun.trans (alone_keepTarget_error hv))) hv

/-- The staged file is published over a target that is away. -/
theorem recovers_staged (h : Shape o d₀ d) (hsome : d.journal.isSome = true) {d₁ : Disk δ}
    (hrun : alone part d reconcileSqliteRestore = alone part d₁ (putBack .temp .publishedStaged))
    (htemp : d₁.temp = d.temp) (hrollback : d₁.rollback = d₀.target) :
    Recovers part o d₀ d ↔ d.temp.any (verifies none) = true := by
  have hget : d₁.get .temp = d.temp := htemp
  by_cases hv : d.temp.any (verifies none) = true
  · obtain ⟨b, hb, -⟩ := (Option.any_eq_true _ _).mp hv
    have hmoved : d₁.perform part (.rename .temp .target) =
        some { d₁ with temp := none, target := some b } := by
      simp [Disk.perform, Disk.put, hget, hb]
    have hsource : d.temp = d₀.source := (h.staged hsome).resolve_left (by simp [hb])
    refine iff_of_true (recovers_of_ok (hrun.trans (alone_putBack (hget ▸ hv) hmoved ?_))
      (.inr ⟨?_, rfl⟩) (.inr (.inr ⟨h.journal hsome, hrollback⟩))) hv
    · exact hb.symm.trans hget.symm
    · exact hb.symm.trans hsource
  · exact iff_of_false (not_recovers_of_error (hrun.trans (alone_putBack_error (hget ▸ hv)))) hv

/-- The previous database is brought back where nothing is staged. -/
theorem recovers_previous
    (hrun : alone part d reconcileSqliteRestore = alone part d (putBack .rollback .restoredPrevious))
    (hrollback : d.rollback = d₀.target) :
    Recovers part o d₀ d ↔ d.rollback.any (verifies none) = true := by
  by_cases hv : d.rollback.any (verifies none) = true
  · obtain ⟨prev, hprev, -⟩ := (Option.any_eq_true _ _).mp hv
    have hmoved : d.perform part (.rename .rollback .target) =
        some { d with rollback := none, target := some prev } := by
      simp [Disk.perform, Disk.get, Disk.put, hprev]
    have htarget : some prev = d₀.target := hprev.symm.trans hrollback
    exact iff_of_true (recovers_of_ok (hrun.trans (alone_putBack hv hmoved hprev.symm))
      (.inl htarget) (.inr (.inl htarget))) hv
  · exact iff_of_false (not_recovers_of_error (hrun.trans (alone_putBack_error hv))) hv

/-- Without a journal nothing is done. -/
theorem recovers_unjournaled (h : Shape o d₀ d) (hjournal : d.journal = none) :
    Recovers part o d₀ d ↔ Keeps o d₀ = true ∨ d₀.target = none ∨ d.target = d₀.target := by
  have hrun : alone part d reconcileSqliteRestore = (.ok .none, d) := by
    rw [reconcileSqliteRestore, alone]
    simp only [Prog.request, ask_bind, done_bind, exec, Disk.handle, hjournal, Option.elim]
    rfl
  -- the target is the previous database, or the restored one
  have htarget := h.target
  rw [hjournal] at htarget
  simp only [Option.isSome_none, Bool.false_eq_true, and_false, or_false] at htarget
  constructor
  · rintro ⟨action, d', hok, -, hprevious⟩
    obtain ⟨-, rfl⟩ := Prod.mk.inj (hrun.symm.trans hok)
    rcases hprevious with hnone | hold | ⟨hkeeps, -⟩
    · exact .inr (.inl hnone)
    · exact .inr (.inr hold)
    · exact .inl hkeeps
  · intro hlost
    refine recovers_of_ok hrun (htarget.imp_right fun hnew => ⟨hnew.1, hnew.2.1⟩) ?_
    rcases htarget with hold | ⟨-, -, hrollback⟩
    · exact .inr (.inl hold)
    · rcases hlost with hkeeps | hnone | hold
      · exact .inr (.inr ⟨hkeeps, hrollback hkeeps⟩)
      · exact .inl hnone
      · exact .inr (.inl hold)

/-- Of the files that a restore can leave, the next reconciliation makes a whole database exactly where
    the file that it takes is there and verifies. -/
theorem recovers_iff (h : Shape o d₀ d) : Recovers part o d₀ d ↔ Readable o d₀ d := by
  rcases hjournal : d.journal with _ | ⟨phase, beside⟩
  · rw [recovers_unjournaled h hjournal, Readable, hjournal]
  cases beside with
  | false =>
    have hrun : alone part d reconcileSqliteRestore = (.error false, d) := by
      rw [reconcileSqliteRestore, alone]
      simp only [Prog.request, ask_bind, done_bind, exec, Disk.handle, hjournal, Option.elim]
      rfl
    refine iff_of_false (not_recovers_of_error hrun) ?_
    rw [Readable, hjournal]
    rintro ⟨⟨⟩, -⟩
  | true =>
    have hrun := alone_reconcile part hjournal
    have hsome : d.journal.isSome = true := by simp [hjournal]
    obtain ⟨prev, hprev⟩ := Option.isSome_iff_exists.mp (h.previous hsome)
    have hreadable : Readable o d₀ d ↔ (d.taken phase).any (verifies none) = true := by
      rw [Readable, hjournal]
      exact ⟨fun h => h.2, fun h => ⟨rfl, h⟩⟩
    rw [hreadable]
    rcases htarget : d.target with _ | x
    · -- the target is away, so the previous database is at the rollback path
      have hrollback : d.rollback = d₀.target := by
        rcases h.target with hold | ⟨-, hthere, -⟩ | ⟨-, hrollback, -⟩
        · rw [htarget, hprev] at hold
          cases hold
        · rw [htarget] at hthere
          cases hthere
        · exact hrollback
      rcases htemp : d.temp with _ | b
      · have hback : alone part d reconcileSqliteRestore =
            alone part d (putBack .rollback .restoredPrevious) := by
          rw [hrun, reconcileFrom, htarget, htemp, hrollback, hprev]
          rfl
        rw [recovers_previous hback hrollback, Disk.taken, htarget, htemp]
        rfl
      · have hstaged : alone part d reconcileSqliteRestore =
            alone part d (putBack .temp .publishedStaged) := by
          rw [hrun, reconcileFrom, htarget, htemp]
          rfl
        rw [recovers_staged h hsome hstaged rfl hrollback, Disk.taken, htarget, htemp]
        rfl
    · by_cases hkept : d.rollback.isSome = true ∨ phase ≠ .prepared
      · rw [recovers_kept h hjournal (by rw [htarget]; rfl) hkept, Disk.taken, if_pos]
        simpa [htarget] using hkept
      · -- nothing has been moved yet, and the reconciliation does it
        obtain ⟨hnone, hphase⟩ := not_or.mp hkept
        rw [Option.not_isSome_iff_eq_none] at hnone
        have hold : d.target = d₀.target := by
          rcases h.target with hold | ⟨-, -, hrollback⟩ | ⟨haway, -⟩
          · exact hold
          · have hlost := hrollback (h.journal hsome)
            rw [hnone, hprev] at hlost
            cases hlost
          · rw [htarget] at haway
            cases haway
        have htaken : d.taken phase = d.temp := by
          simp [Disk.taken, htarget, hnone, not_not.mp hphase]
        have hopened := alone_unmoved part (not_not.mp hphase ▸ hjournal) htarget hnone
        rw [htaken]
        by_cases htemp : d.temp.isSome = true
        · rw [if_pos htemp] at hopened
          exact recovers_staged h hsome hopened rfl (htarget.symm.trans hold)
        · rw [if_neg htemp] at hopened
          refine iff_of_false (not_recovers_of_error hopened) ?_
          rw [Option.not_isSome_iff_eq_none.mp htemp]
          rintro ⟨⟩

/-! ### The files inside a reconciliation -/

section Steady
variable (part o d₀)

/-- Wherever the reconciliation is cut off, the files are such as a restore leaves. -/
def Steady (p : RProg α) (d : Disk δ) : Prop :=
  p.Guarantees (Disk.handle part) (fun _ fault _ => fault = .ok) (fun _ => Shape o d₀) (fun _ _ => True)
    (fun _ _ => True) d

variable {part o d₀}

theorem steady_must {f : Unit → RProg α} (h : Shape o d₀ d)
    (hnext : ∀ d', d.perform part a = some d' → Steady part o d₀ (f ()) d') :
    Steady part o d₀ (must previousMoved a >>= f) d := by
  refine ⟨h, ?_⟩
  rintro _ rfl
  cases hdone : d.perform part a with
  | none =>
    simp only [Disk.handle, hdone]
    trivial
  | some d' =>
    simp only [Disk.handle, hdone]
    exact hnext d' hdone

theorem steady_isThere {place : Place} {f : Bool → RProg α} (h : Shape o d₀ d)
    (hnext : Steady part o d₀ (f (d.get place).isSome) d) :
    Steady part o d₀ (isThere previousMoved place >>= f) d := by
  refine ⟨h, ?_⟩
  rintro _ rfl
  exact hnext

theorem steady_verify {place : Place} {f : Unit → RProg α} (h : Shape o d₀ d)
    (hnext : Steady part o d₀ (f ()) d) :
    Steady part o d₀ (must previousMoved (.verify place none) >>= f) d :=
  steady_must h fun d' hd' => by
    obtain ⟨-, hsame⟩ := Option.ite_none_right_eq_some.mp hd'
    cases hsame
    exact hnext

theorem steady_keepTarget (h : Shape o d₀ d) : Steady part o d₀ keepTarget d := by
  refine steady_verify h (guarantees_attempts h (fun _ => ?_) (by rintro ⟨⟩))
  rw [unlinked_temp]
  exact steady_must ⟨h.source, h.target, h.journal, fun _ => .inl rfl⟩ fun _ _ => trivial

/-- One whole database is put at the target, and stays there. -/
theorem steady_putBack {place : Place} {action : Action} (h : Shape o d₀ d)
    (hmoved : ∀ d', d.perform part (.rename place .target) = some d' → Shape o d₀ d') :
    Steady part o d₀ (putBack place action) d := by
  refine steady_verify h (steady_must h fun d' hd' => ?_)
  have hshape := hmoved d' hd'
  refine steady_must hshape ?_
  rintro _ ⟨⟩
  exact steady_verify hshape (steady_must hshape fun _ _ => trivial)

/-- The target is away. -/
theorem steady_away {tempExists rollbackExists : Bool} (h : Shape o d₀ d) (hnone : d.target = none)
    (hsome : d.journal.isSome = true) :
    Steady part o d₀ (if tempExists then putBack .temp .publishedStaged
      else if rollbackExists then putBack .rollback .restoredPrevious else .fail false) d := by
  obtain ⟨prev, hprev⟩ := Option.isSome_iff_exists.mp (h.previous hsome)
  have hrollback : d.rollback = d₀.target := by
    rcases h.target with hold | ⟨-, hthere, -⟩ | ⟨-, hrollback, -⟩
    · rw [hnone, hprev] at hold
      cases hold
    · rw [hnone] at hthere
      cases hthere
    · exact hrollback
  split
  · refine steady_putBack h fun d' hd' => ?_
    obtain ⟨b, hb, rfl⟩ := Option.map_eq_some_iff.mp hd'
    have hsource : d.temp = d₀.source := (h.staged hsome).resolve_left (by
      rw [show d.temp = some b from hb]
      rintro ⟨⟩)
    exact ⟨h.source, .inr (.inl ⟨hb.symm.trans hsource, rfl, fun _ => hrollback⟩), h.journal,
      fun _ => .inl rfl⟩
  · split
    · refine steady_putBack h fun d' hd' => ?_
      obtain ⟨b, hb, rfl⟩ := Option.map_eq_some_iff.mp hd'
      exact ⟨h.source, .inl (hb.symm.trans hrollback), h.journal, h.staged⟩
    · trivial

theorem steady_reconcileFrom (h : Shape o d₀ d) (phase : Phase) (hsome : d.journal.isSome = true) :
    Steady part o d₀ (reconcileFrom phase d.target.isSome d.temp.isSome d.rollback.isSome) d := by
  by_cases hkept : (d.target.isSome && (d.rollback.isSome || phase ≠ .prepared)) = true
  · rw [reconcileFrom, if_pos hkept]
    exact steady_keepTarget h
  rw [reconcileFrom, if_neg hkept]
  by_cases hthere : d.target.isSome = true
  · -- no older file is at the rollback path, so the target is the previous database
    have hold : d.target = d₀.target := by
      rcases h.target with hold | ⟨-, -, hrollback⟩ | ⟨hnone, -⟩
      · exact hold
      · have hprevious := h.previous hsome
        rw [← hrollback (h.journal hsome)] at hprevious
        simp [hthere, hprevious] at hkept
      · rw [hnone] at hthere
        cases hthere
    rw [hthere]
    refine steady_must h fun d' hd' => ?_
    obtain ⟨x, hx, rfl⟩ := Option.map_eq_some_iff.mp hd'
    have haway : Shape o d₀ ((d.put (some x) .rollback).put none .target) :=
      ⟨h.source, .inr (.inr ⟨rfl, hx.symm.trans hold, hsome⟩), h.journal, h.staged⟩
    refine steady_must haway ?_
    rintro _ ⟨⟩
    exact steady_away haway rfl hsome
  · rw [Bool.not_eq_true] at hthere
    rw [hthere]
    exact steady_away h (Option.isSome_eq_false_iff.mp hthere |> Option.isNone_iff_eq_none.mp) hsome

theorem steady_reconcile (h : Shape o d₀ d) : Steady part o d₀ reconcileSqliteRestore d := by
  refine ⟨h, ?_⟩
  rintro _ rfl
  rcases hjournal : d.journal with _ | ⟨phase, beside⟩
  · simp only [Disk.handle, hjournal, Option.elim]
    trivial
  have hsome : d.journal.isSome = true := by simp [hjournal]
  simp only [Disk.handle, hjournal, Option.elim]
  split
  · exact steady_isThere h (steady_isThere h (steady_isThere h (steady_reconcileFrom h phase hsome)))
  · trivial

end Steady

/-! ### Runs -/

/-- Every program that is under way leaves the files in shape wherever it is cut off. -/
structure Inv (part : δ → δ) (o : Options) (d₀ : Disk δ) (m : Machine δ) : Prop where
  restoring : ∀ p, m.process = .restoring p → (∃ q next, p = .ask q next) ∧
    p.Guarantees (Disk.handle part) (FaultSafe d₀) (fun _ => Shape o d₀) (fun _ _ => True)
      (fun _ d => d.target = d₀.target) m.disk
  threw : m.process = .threw → m.disk.target = d₀.target
  down : m.process = .down → Shape o d₀ m.disk
  reconciling : ∀ p, m.process = .reconciling p → (∃ q next, p = .ask q next) ∧ Steady part o d₀ p m.disk

theorem inv_ofRestore {p : RProg Unit} (h : p.Guarantees (Disk.handle part) (FaultSafe d₀)
      (fun _ => Shape o d₀) (fun _ _ => True) (fun _ d => d.target = d₀.target) d) :
    Inv part o d₀ ⟨d, .ofRestore p⟩ := by
  cases p with
  | done a => constructor <;> simp [Process.ofRestore]
  | fail e => exact ⟨by simp [Process.ofRestore], fun _ => h, by simp [Process.ofRestore],
      by simp [Process.ofRestore]⟩
  | ask q next =>
    refine ⟨?_, by simp [Process.ofRestore], by simp [Process.ofRestore], by simp [Process.ofRestore]⟩
    rintro _ ⟨⟩
    exact ⟨⟨q, next, rfl⟩, h⟩

theorem inv_ofReconcile {p : RProg Action} (h : Steady part o d₀ p d) :
    Inv part o d₀ ⟨d, .ofReconcile p⟩ := by
  cases p with
  | done a => constructor <;> simp [Process.ofReconcile]
  | fail e => constructor <;> simp [Process.ofReconcile]
  | ask q next =>
    refine ⟨by simp [Process.ofReconcile], by simp [Process.ofReconcile], by simp [Process.ofReconcile], ?_⟩
    rintro _ ⟨⟩
    exact ⟨⟨q, next, rfl⟩, h⟩

theorem inv_step {m m' : Machine δ} {e : Event} (h : Inv part o d₀ m) (hmeets : FaultsSafe d₀ m e)
    (hm : step part m e = some m') : Inv part o d₀ m' := by
  obtain ⟨disk, process⟩ := m
  cases e with
  | answers fault =>
    cases process with
    | restoring p =>
      obtain ⟨⟨q, next, rfl⟩, hp⟩ := h.restoring p rfl
      cases hm
      exact inv_ofRestore (hp.2 fault hmeets)
    | reconciling p =>
      obtain ⟨⟨q, next, rfl⟩, hp⟩ := h.reconciling p rfl
      obtain ⟨rfl, hm⟩ := Option.ite_none_right_eq_some.mp hm
      cases hm
      exact inv_ofReconcile (hp.2 .ok rfl)
    | restored | threw | down | reconciled => cases hm
  | crashes =>
    cases process with
    | restoring p =>
      obtain ⟨⟨q, next, rfl⟩, hp⟩ := h.restoring p rfl
      cases hm
      exact ⟨by simp, by simp, fun _ => hp.1, by simp⟩
    | reconciling p =>
      obtain ⟨⟨q, next, rfl⟩, hp⟩ := h.reconciling p rfl
      cases hm
      exact ⟨by simp, by simp, fun _ => hp.1, by simp⟩
    | restored | threw | down | reconciled => cases hm
  | reconciles =>
    cases process with
    | down =>
      cases hm
      exact inv_ofReconcile (steady_reconcile (h.down rfl))
    | restoring _ | restored | threw | reconciling _ | reconciled => cases hm

theorem Inv.safe {m : Machine δ} (h : Inv part o d₀ m) (hup : m.process ≠ .down) : Safe part o d₀ m := by
  obtain ⟨disk, process⟩ := m
  cases process with
  | threw => exact h.threw rfl
  | down => exact absurd rfl hup
  | restoring _ | restored | reconciling _ | reconciled => trivial

theorem ofRestore_ne_down (p : RProg Unit) : Process.ofRestore p ≠ .down := by
  cases p <;> rintro ⟨⟩

theorem ofReconcile_ne_down (p : RProg Action) : Process.ofReconcile p ≠ .down := by
  cases p <;> rintro ⟨⟩

/-- Only a crash can break the promise. -/
theorem safe_step_iff {m m' : Machine δ} {e : Event} (h : Inv part o d₀ m) (hmeets : FaultsSafe d₀ m e)
    (hm : step part m e = some m') : Safe part o d₀ m' ↔ CrashesReadable o d₀ m e := by
  have hinv := inv_step h hmeets hm
  obtain ⟨disk, process⟩ := m
  cases e with
  | answers fault =>
    refine iff_of_true (hinv.safe ?_) trivial
    cases process with
    | restoring p =>
      obtain ⟨⟨q, next, rfl⟩, -⟩ := h.restoring p rfl
      cases hm
      exact ofRestore_ne_down _
    | reconciling p =>
      obtain ⟨⟨q, next, rfl⟩, -⟩ := h.reconciling p rfl
      obtain ⟨-, hm⟩ := Option.ite_none_right_eq_some.mp hm
      cases hm
      exact ofReconcile_ne_down _
    | restored | threw | down | reconciled => cases hm
  | crashes =>
    cases process with
    | restoring _ | reconciling _ =>
      cases hm
      exact recovers_iff (hinv.down rfl)
    | restored | threw | down | reconciled => cases hm
  | reconciles =>
    refine iff_of_true (hinv.safe ?_) trivial
    cases process with
    | down =>
      cases hm
      exact ofReconcile_ne_down reconcileSqliteRestore
    | restoring _ | restored | threw | reconciling _ | reconciled => cases hm

/-- As long as the file system fails only where a restore can bear it, a run is safe exactly when each
    crash in it leaves the reconciliation a file that it can take. -/
theorem restore_safe_iff (part : δ → δ) (o : Options) (d₀ : Disk δ) (hjournal : d₀.journal = none)
    (events : List Event)
    (hfaults : Along (step part) (FaultsSafe d₀) (Machine.start o d₀) events) :
    Everywhere (step part) (Safe part o d₀) (Machine.start o d₀) events ↔
      Along (step part) (CrashesReadable o d₀) (Machine.start o d₀) events := by
  have hstart : Inv part o d₀ (Machine.start o d₀) := inv_ofRestore (restore_guarantees hjournal)
  exact everywhere_iff_along_of_along (I := Inv part o d₀) (fun _ _ _ => inv_step) (fun _ _ _ => safe_step_iff)
    hstart (hstart.safe (ofRestore_ne_down (restoreSqliteBackup o))) events hfaults

/-- Two databases, of one kilobyte or of more than a gigabyte. -/
inductive Copy where
  | old | new | large
  deriving DecidableEq

instance : Contents Copy where
  size content := if content = .large then defaultMaxBytes + 1 else 1024
  sound _ := true

def replaceOptions : Options := { maxBytes := some (2 * defaultMaxBytes), overwrite := true, keepPrevious := true }

/-- The backup beside the database that it is to replace. -/
def replaced (backup : Copy) : Disk Copy := { source := some backup, target := some .old }

/-- A crash while the target is away, and one inside the reconciliation. -/
def cutTwice : List Event :=
  List.replicate 12 (.answers .ok) ++ [.crashes, .reconciles] ++ List.replicate 6 (.answers .ok) ++
    [.crashes, .reconciles] ++ List.replicate 7 (.answers .ok)

theorem restore_safe_cutTwice :
    Everywhere (step id) (Safe id replaceOptions (replaced .new)) (Machine.start replaceOptions (replaced .new))
        cutTwice ∧
      (run (step id) (Machine.start replaceOptions (replaced .new)) cutTwice).map Machine.disk =
        some { source := some .new, target := some .new, rollback := some .old } :=
  ⟨(restore_safe_iff id replaceOptions (replaced .new) rfl cutTwice (by decide +kernel)).mpr
    (by decide +kernel), by decide +kernel⟩

def Machine.overwritten (m : Machine Copy) : Bool :=
  match m.process with
  | .threw => m.disk.target ≠ some .old
  | _ => false

def Machine.stuck (m : Machine Copy) : Bool :=
  match m.process with
  | .down => !(alone id m.disk reconcileSqliteRestore).1.isOk
  | _ => false

theorem not_safe_of_overwritten {backup : Copy} {m : Machine Copy} (h : m.overwritten = true) :
    ¬ Safe id replaceOptions (replaced backup) m := by
  obtain ⟨disk, process⟩ := m
  cases process with
  | threw =>
    intro hold
    have hne : disk.target ≠ some .old := of_decide_eq_true h
    exact hne hold
  | restoring _ | restored | down | reconciling _ | reconciled => cases h

theorem not_safe_of_stuck {backup : Copy} {m : Machine Copy} (h : m.stuck = true) :
    ¬ Safe id replaceOptions (replaced backup) m := by
  obtain ⟨disk, process⟩ := m
  cases process with
  | down =>
    rintro ⟨action, d', hok, -⟩
    change (!(alone id disk reconcileSqliteRestore).1.isOk) = true at h
    rw [show alone id disk reconcileSqliteRestore = (.ok action, d') from hok] at h
    cases h
  | restoring _ | restored | threw | reconciling _ | reconciled => cases h

/-- The directory cannot be synced after the publication; a crash in the `catch` block, after the rename
    of the target has failed; and a crash of the restore of a large database. -/
theorem restore_breaks :
    ¬ Everywhere (step id) (Safe id replaceOptions (replaced .new)) (Machine.start replaceOptions (replaced .new))
        (List.replicate 14 (.answers .ok) ++ [.answers .fails] ++ List.replicate 3 (.answers .ok)) ∧
      ¬ Everywhere (step id) (Safe id replaceOptions (replaced .new))
        (Machine.start replaceOptions (replaced .new))
        (List.replicate 11 (.answers .ok) ++ [.answers .fails, .answers .ok, .crashes]) ∧
      ¬ Everywhere (step id) (Safe id replaceOptions (replaced .large))
        (Machine.start replaceOptions (replaced .large)) (List.replicate 12 (.answers .ok) ++ [.crashes]) :=
  ⟨not_everywhere Machine.overwritten (by decide +kernel) fun _ => not_safe_of_overwritten,
    not_everywhere Machine.stuck (by decide +kernel) fun _ => not_safe_of_stuck,
    not_everywhere Machine.stuck (by decide +kernel) fun _ => not_safe_of_stuck⟩

end Remembra.Sqlite.Restore
