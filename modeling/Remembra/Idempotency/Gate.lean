import Remembra.Idempotency.Capacity

/-! The restore gate, over every interleaving of its callers and every crash. While a gate is held the flag
    of the database is set and the marker names nobody else (`Core`), as long as no step clears the flag
    while the marker still names a reason or a `beginRestore` is on its way to it (`gate_holds`). A direct
    `invalidate` does: it leaves the marker, and the next `beginRestore` is attributed to the reason that
    the marker names (`invalidate_breaks_gate`). -/

namespace Remembra.Idempotency
open Transition

variable {V : Type*}

/-- A `beginRestore` stands between its flag and its return. -/
def Phase.underWay : Phase V → Bool
  | .looksForMarker _ | .opens _ | .writes _ _ | .syncs _ | .chmods _ | .reverts => true
  | _ => false

/-- The reason it may still return with. -/
def Phase.begins : Phase V → Option BatchRestoreReason
  | .looksForMarker reason | .opens reason | .writes reason _ | .syncs reason | .chmods reason =>
    some reason
  | _ => none

theorem Phase.underWay_of_begins {phase : Phase V} {reason : BatchRestoreReason}
    (h : phase.begins = some reason) : phase.underWay = true := by
  cases phase <;> first | rfl | cases h

/-- The condition on a step: where it clears the flag, the marker names no reason; where it clears the
    flag of the others too, no `beginRestore` is under way, and if that is `invalidate` itself, called
    directly, no gate is held. -/
def Clears (s : State V) : Action V → Prop
  | .goesOn caller _ =>
    match s.callers caller with
    | .invalidates restored => readRestoreMarkerReason s.marker = none ∧
      (∀ c, (s.callers c).underWay = false) ∧ (restored = false → s.held = none)
    | .reverts => readRestoreMarkerReason s.marker = none
    | _ => True
  | _ => True

/-- What the gate is for. -/
structure GateKept (s : State V) : Prop where
  refused : ∀ e ∈ s.log, e.gated = true → ∃ error, e.result = .error error
  cleared : ∀ generation ∈ s.restored, ∀ row ∈ s.db.claims.rows, generation < row.generation
  attributed : ∀ gate, s.held = some gate →
    s.restoreReason = none ∨ s.restoreReason = some gate.reason

/-! ### The invariant -/

/-- The flag, the reason that the marker names, the callers and the gate held. -/
structure Core (pending : Bool) (marked : Option BatchRestoreReason) (callers : ℕ → Phase V)
    (held : Option Gate) : Prop where
  shut : held ≠ none → pending = true
  clear : pending = false → marked = none ∧ ∀ c, (callers c).underWay = false
  alone : ∀ c c', (callers c).underWay = true → (callers c').underWay = true → c = c'
  unheld : ∀ c, (callers c).underWay = true → held = none
  own : ∀ c reason, (callers c).begins = some reason → marked = none ∨ marked = some reason
  attributed : ∀ gate, held = some gate → marked = none ∨ marked = some gate.reason

namespace Core
variable {pending : Bool} {marked : Option BatchRestoreReason} {callers : ℕ → Phase V}
  {held : Option Gate} {caller : ℕ} {phase : Phase V} {reason : BatchRestoreReason}

/-- A caller goes on, and is under way to no other gate than before. -/
theorem moves (h : Core pending marked callers held)
    (hway : phase.underWay = true → (callers caller).underWay = true)
    (hbegins : ∀ reason, phase.begins = some reason → (callers caller).begins = some reason) :
    Core pending marked (Function.update callers caller phase) held := by
  have hways : ∀ c, (Function.update callers caller phase c).underWay = true →
      (callers c).underWay = true := by
    intro c hc
    rcases eq_or_ne c caller with rfl | hne
    · rw [Function.update_self] at hc
      exact hway hc
    · rwa [Function.update_of_ne hne] at hc
  refine ⟨h.shut, fun hp => ⟨(h.clear hp).1, fun c => ?_⟩, fun c c' hc hc' => h.alone c c' (hways c hc)
    (hways c' hc'), fun c hc => h.unheld c (hways c hc), fun c reason hc => ?_, h.attributed⟩
  · refine Bool.eq_false_iff.mpr fun hc => ?_
    have hold := hways c hc
    rw [(h.clear hp).2 c] at hold
    cases hold
  · rcases eq_or_ne c caller with rfl | hne
    · rw [Function.update_self] at hc
      exact h.own c reason (hbegins reason hc)
    · rw [Function.update_of_ne hne] at hc
      exact h.own c reason hc

/-- A caller under way is left alone by the flag. -/
theorem pending_of_underWay (h : Core pending marked callers held)
    (hway : (callers caller).underWay = true) : pending = true := by
  rcases hp : pending with _ | _
  · rw [(h.clear hp).2 caller] at hway
    cases hway
  · rfl

theorem unmarked (h : Core pending marked callers held) : Core pending none callers held :=
  { h with
    clear := fun hp => ⟨rfl, (h.clear hp).2⟩
    own := fun _ _ _ => .inl rfl
    attributed := fun _ _ => .inl rfl }

/-- The caller under way writes its reason. -/
theorem marks (h : Core pending marked callers held) (hbegins : (callers caller).begins = some reason) :
    Core pending (some reason) callers held := by
  have hway := Phase.underWay_of_begins hbegins
  refine { h with clear := fun hp => ?_, own := fun c reason' hc => .inr ?_, attributed := fun gate hg => ?_ }
  · rw [h.pending_of_underWay hway] at hp
    cases hp
  · obtain rfl := h.alone c caller (Phase.underWay_of_begins hc) hway
    exact hbegins.symm.trans hc
  · rw [h.unheld caller hway] at hg
    cases hg

/-- `beginRestore` sets the flag. -/
theorem publishes (h : Core false marked callers held) (caller : ℕ) (phase : Phase V) :
    Core true marked (Function.update callers caller phase) held := by
  obtain ⟨rfl, hidle⟩ := h.clear rfl
  have hways : ∀ c, (Function.update callers caller phase c).underWay = true → c = caller := by
    intro c hc
    by_contra hne
    rw [Function.update_of_ne hne, hidle c] at hc
    cases hc
  have hheld : held = none := by
    by_contra hne
    cases h.shut hne
  refine ⟨fun _ => rfl, ?_, fun c c' hc hc' => (hways c hc).trans (hways c' hc').symm,
    fun _ _ => hheld, fun _ _ _ => .inl rfl, fun _ _ => .inl rfl⟩
  rintro ⟨⟩

/-- `beginRestore` returns. -/
theorem begun (h : Core pending marked callers held) (hbegins : (callers caller).begins = some reason)
    (generation : ℕ) : Core pending marked (Function.update callers caller .idle)
      (some ⟨reason, generation⟩) := by
  have hway := Phase.underWay_of_begins hbegins
  have hmoved : Core pending marked (Function.update callers caller .idle) held :=
    h.moves Bool.noConfusion (fun _ => by rintro ⟨⟩)
  refine { hmoved with shut := fun _ => h.pending_of_underWay hway, unheld := fun c hc => ?_, attributed := ?_ }
  · rcases eq_or_ne c caller with rfl | hne
    · rw [Function.update_self] at hc
      cases hc
    · rw [Function.update_of_ne hne] at hc
      exact absurd (h.alone c caller hc hway) hne
  · rintro gate ⟨⟩
    exact h.own caller reason hbegins

/-- The flag is cleared, with no reason on the marker and nobody else under way. -/
theorem clears (h : Core pending marked callers held) (hmarked : marked = none)
    (hidle : ∀ c, c ≠ caller → (callers c).underWay = false) :
    Core false marked (Function.update callers caller .idle) none := by
  subst hmarked
  have hways : ∀ c, (Function.update callers caller .idle c).underWay = false := by
    intro c
    rcases eq_or_ne c caller with rfl | hne
    · rw [Function.update_self]
      rfl
    · rw [Function.update_of_ne hne]
      exact hidle c hne
  refine ⟨fun hne => absurd rfl hne, fun _ => ⟨rfl, hways⟩, fun c _ hc => ?_, fun _ _ => rfl,
    fun _ _ _ => .inl rfl, fun _ _ => .inl rfl⟩
  rw [hways c] at hc
  cases hc

end Core

variable {P : Platform V} {o : Options} {s t : State V} {a : Action V}

structure GateInv (s : State V) : Prop where
  core : Core s.db.restorePending (readRestoreMarkerReason s.marker) s.callers s.held
  current : ∀ row ∈ s.db.claims.rows, row.generation = s.db.generation
  begun : ∀ gate, s.held = some gate → gate.generation ≤ s.db.generation
  restored : ∀ generation ∈ s.restored, generation < s.db.generation
  refused : ∀ e ∈ s.log, e.gated = true → ∃ error, e.result = .error error

theorem gateInv_init : GateInv (init : State V) where
  core := by
    refine ⟨fun h => absurd rfl h, fun _ => ⟨rfl, fun _ => rfl⟩, ?_, fun _ _ => rfl, ?_, ?_⟩
    · rintro _ _ ⟨⟩
    · rintro _ _ ⟨⟩
    · rintro _ ⟨⟩
  current _ h := absurd h List.not_mem_nil
  begun _ h := by cases h
  restored _ h := absurd h List.not_mem_nil
  refused _ h := absurd h List.not_mem_nil

theorem GateInv.kept (h : GateInv s) : GateKept s where
  refused := h.refused
  cleared generation hg row hrow := by
    rw [h.current row hrow]
    exact h.restored generation hg
  attributed gate hgate := by
    rw [State.restoreReason]
    split
    · exact h.core.attributed gate hgate
    · exact .inl rfl

/-- A step that keeps the database, the gate and the log. -/
theorem GateInv.of_core (h : GateInv s) (hdb : t.db.claims = s.db.claims)
    (hgeneration : t.db.generation = s.db.generation) (hrestored : t.restored = s.restored)
    (hlog : t.log = s.log) (hheld : ∀ gate, t.held = some gate → gate.generation ≤ s.db.generation)
    (hcore : Core t.db.restorePending (readRestoreMarkerReason t.marker) t.callers t.held) :
    GateInv t where
  core := hcore
  current := by
    rw [hdb, hgeneration]
    exact h.current
  begun := by
    rw [hgeneration]
    exact hheld
  restored := by
    rw [hrestored, hgeneration]
    exact h.restored
  refused := by
    rw [hlog]
    exact h.refused

/-! ### The calls on claims -/

/-- While the flag is set, every call on a claim throws. -/
theorem perform_of_pending {db : Db} (hpending : db.restorePending = true) (mutation : Mutation V)
    (now : ℤ) : ∃ e, perform P o mutation now db = (.error e, db) := by
  cases mutation with
  | claim input =>
    obtain ⟨e, he⟩ : ∃ e, claim P o input now db = (.error e, db) := by
      rw [claim]
      split
      · exact ⟨_, rfl⟩
      · exact ⟨_, immediate_throw (if_pos hpending)⟩
    exact ⟨e, by rw [perform, he]; rfl⟩
  | complete input response =>
    obtain ⟨e, he⟩ : ∃ e, complete P o input response now db = (.error e, db) := by
      rw [complete]
      split
      · exact ⟨_, rfl⟩
      split
      · exact ⟨_, rfl⟩
      · exact ⟨_, immediate_throw (if_pos hpending)⟩
    exact ⟨e, by rw [perform, he]; rfl⟩
  | abandon input =>
    obtain ⟨e, he⟩ : ∃ e, abandon P input db = (.error e, db) := by
      rw [abandon]
      split
      · exact ⟨_, rfl⟩
      · exact ⟨_, immediate_throw (if_pos hpending)⟩
    exact ⟨e, by rw [perform, he]; rfl⟩

theorem Rewrites.current {db : Db} {input : BatchIdempotencyInput} {row new : ClaimRow}
    {after : ClaimTable} (h : Rewrites P input db row new after) (hnew : new.generation = row.generation)
    (hcurrent : ∀ row ∈ db.claims.rows, row.generation = db.generation) :
    ∀ row ∈ after.rows, row.generation = db.generation := by
  obtain ⟨l, l', hbefore, hafter⟩ := h.rows
  intro r hr
  rw [hafter, List.mem_append, List.mem_cons] at hr
  rw [hbefore] at hcurrent
  rcases hr with hr | rfl | hr
  · exact hcurrent r (List.mem_append_left _ hr)
  · exact hnew.trans h.generation
  · exact hcurrent r (List.mem_append_right _ (List.mem_cons_of_mem _ hr))

/-- No call on a claim touches the flag or the generation, and every row is of the generation. -/
theorem perform_keeps {db : Db} (hcurrent : ∀ row ∈ db.claims.rows, row.generation = db.generation)
    (mutation : Mutation V) (now : ℤ) :
    (perform P o mutation now db).2.generation = db.generation ∧
      (perform P o mutation now db).2.restorePending = db.restorePending ∧
        ∀ row ∈ (perform P o mutation now db).2.claims.rows, row.generation = db.generation := by
  cases mutation with
  | claim input =>
    change (claim P o input now db).2.generation = _ ∧ (claim P o input now db).2.restorePending = _ ∧
      ∀ row ∈ (claim P o input now db).2.claims.rows, _
    rcases claim_cases P o input now db with ⟨e, he⟩ | ⟨v, row, hv, -⟩ | ⟨claims, hok, -, -, hgrants⟩
    · rw [he]
      exact ⟨rfl, rfl, hcurrent⟩
    · rw [hv]
      exact ⟨rfl, rfl, hcurrent⟩
    · rw [hok]
      refine ⟨rfl, rfl, fun row hrow => ?_⟩
      have hget := Table.get_of_mem hrow
      rw [hgrants.get] at hget
      split at hget
      · cases hget
        rfl
      · exact hcurrent row (Table.get_eq_some.mp hget).1
  | complete input response =>
    change (complete P o input response now db).2.generation = _ ∧
      (complete P o input response now db).2.restorePending = _ ∧
        ∀ row ∈ (complete P o input response now db).2.claims.rows, _
    rcases complete_cases P o input response now db with
      ⟨e, he⟩ | ⟨hok, -⟩ | ⟨text, row, claims, hok, -, -, hrewrites⟩
    · rw [he]
      exact ⟨rfl, rfl, hcurrent⟩
    · rw [hok]
      exact ⟨rfl, rfl, hcurrent⟩
    · rw [hok]
      exact ⟨rfl, rfl, hrewrites.current rfl hcurrent⟩
  | abandon input =>
    change (abandon P input db).2.generation = _ ∧ (abandon P input db).2.restorePending = _ ∧
      ∀ row ∈ (abandon P input db).2.claims.rows, _
    rcases abandon_cases P input db with ⟨e, he⟩ | ⟨hok, -⟩ | ⟨row, claims, hok, hrewrites⟩
    · rw [he]
      exact ⟨rfl, rfl, hcurrent⟩
    · rw [hok]
      exact ⟨rfl, rfl, hcurrent⟩
    · rw [hok]
      exact ⟨rfl, rfl, hrewrites.current rfl hcurrent⟩

/-- A call on a claim is answered: with an error, if a gate is held. -/
theorem GateInv.answers (h : GateInv s) {caller : ℕ} {mutation : Mutation V}
    {result : Except RemembraError (Answer V)} {db : Db}
    (hresult : s.held ≠ none → ∃ e, result = .error e)
    (hgeneration : db.generation = s.db.generation)
    (hpending : db.restorePending = s.db.restorePending)
    (hcurrent : ∀ row ∈ db.claims.rows, row.generation = s.db.generation) :
    GateInv (s.answer caller mutation result db) where
  core := by
    change Core db.restorePending _ (Function.update s.callers caller .idle) _
    rw [hpending]
    exact h.core.moves Bool.noConfusion (fun _ => by rintro ⟨⟩)
  current := by
    change ∀ row ∈ db.claims.rows, row.generation = db.generation
    rwa [hgeneration]
  begun := by
    change ∀ gate, s.held = some gate → gate.generation ≤ db.generation
    rw [hgeneration]
    exact h.begun
  restored := by
    change ∀ generation ∈ s.restored, generation < db.generation
    rw [hgeneration]
    exact h.restored
  refused := by
    intro e he hgated
    rcases List.mem_append.mp he with he | he
    · exact h.refused e he hgated
    · obtain rfl := List.mem_singleton.mp he
      exact hresult fun hnone => by
        rw [hnone] at hgated
        cases hgated

/-! ### The steps -/

/-- A caller goes on, to no gate but the one it is under way to. -/
theorem GateInv.goto (h : GateInv s) {caller : ℕ} {phase : Phase V}
    (hway : phase.underWay = true → (s.callers caller).underWay = true)
    (hbegins : ∀ reason, phase.begins = some reason → (s.callers caller).begins = some reason) :
    GateInv (s.goto caller phase) :=
  h.of_core rfl rfl rfl rfl h.begun (h.core.moves hway hbegins)

theorem GateInv.begins (h : GateInv s) {caller : ℕ} {reason : BatchRestoreReason}
    (hbegins : (s.callers caller).begins = some reason) : GateInv (s.begun caller reason) := by
  refine h.of_core rfl rfl rfl rfl ?_ (h.core.begun hbegins s.db.generation)
  rintro gate ⟨⟩
  exact Nat.le_refl _

/-- A new marker is empty. -/
theorem reason_create (files : Fs String Marker) : readRestoreMarkerReason
    ((files.create restoreMarkerPath .unreadable).read restoreMarkerPath) = none := by
  rw [Fs.read_create_self]
  rfl

/-- A write through a descriptor reaches the marker, or another file. -/
theorem reason_writeTo (files : Fs String Marker) (inode : ℕ) (reason : BatchRestoreReason) :
    readRestoreMarkerReason ((files.writeTo inode (.of reason)).read restoreMarkerPath) = some reason ∨
      (files.writeTo inode (.of reason)).read restoreMarkerPath = files.read restoreMarkerPath := by
  by_cases hinode : files.dir restoreMarkerPath = some inode
  · left
    rw [Fs.read_writeTo_self hinode, readRestoreMarkerReason_of]
  · exact .inr (Fs.read_writeTo_ne hinode)

theorem gateInv_goesOn {caller : ℕ} {now : ℤ} (h : GateInv s) (hclears : Clears s (.goesOn caller now))
    (hstep : step P o s (.goesOn caller now) = some t) : GateInv t := by
  rw [step, goesOn] at hstep
  rw [Clears] at hclears
  cases hphase : s.callers caller <;> rw [hphase] at hstep hclears <;> dsimp only at hstep hclears
  case idle => cases hstep
  case checksMarker mutation =>
    obtain rfl := Option.some.inj hstep
    split
    · exact h.answers (fun _ => ⟨_, rfl⟩) rfl rfl h.current
    · exact h.goto Bool.noConfusion (by rintro _ ⟨⟩)
  case checksFlag mutation =>
    obtain rfl := Option.some.inj hstep
    split
    · exact h.answers (fun _ => ⟨_, rfl⟩) rfl rfl h.current
    · exact h.goto Bool.noConfusion (by rintro _ ⟨⟩)
  case transacts mutation =>
    obtain rfl := Option.some.inj hstep
    obtain ⟨hgeneration, hpending, hcurrent⟩ := perform_keeps (P := P) (o := o) h.current mutation now
    refine h.answers (fun hheld => ?_) hgeneration hpending hcurrent
    obtain ⟨e, he⟩ := perform_of_pending (P := P) (o := o) (h.core.shut hheld) mutation now
    exact ⟨e, by rw [he]⟩
  case publishes reason =>
    rcases publish_cases s.db with ⟨e, he⟩ | ⟨hopen, hok⟩
    · rw [he] at hstep
      cases hstep
      exact h.goto Bool.noConfusion (by rintro _ ⟨⟩)
    · rw [hok] at hstep
      cases hstep
      have hcore := h.core
      rw [hopen] at hcore
      exact h.of_core rfl rfl rfl rfl h.begun (hcore.publishes caller (.looksForMarker reason))
  case looksForMarker reason =>
    obtain rfl := Option.some.inj hstep
    split
    · exact h.begins (by rw [hphase]; rfl)
    · exact h.goto (by simp [hphase, Phase.underWay]) (by simp [hphase, Phase.begins])
  case opens reason =>
    split at hstep
    · cases hstep
      exact h.begins (by rw [hphase]; rfl)
    · rename_i files inode hcreate
      cases hstep
      obtain ⟨-, rfl, rfl⟩ := Fs.createExcl_some hcreate
      refine h.of_core rfl rfl rfl rfl h.begun ?_
      change Core _ (readRestoreMarkerReason ((s.files.create _ _).read _)) _ _
      rw [reason_create]
      exact h.core.unmarked.moves (by simp [hphase, Phase.underWay]) (by simp [hphase, Phase.begins])
  case writes reason inode =>
    cases hstep
    refine h.of_core rfl rfl rfl rfl h.begun ?_
    change Core _ (readRestoreMarkerReason ((s.files.writeTo _ _).read _)) _ _
    rcases reason_writeTo s.files inode reason with hwritten | hsame
    · rw [hwritten]
      exact (h.core.marks (by rw [hphase]; rfl)).moves (by simp [hphase, Phase.underWay])
        (by simp [hphase, Phase.begins])
    · rw [hsame]
      exact h.core.moves (by simp [hphase, Phase.underWay]) (by simp [hphase, Phase.begins])
  case syncs reason =>
    cases hstep
    exact h.goto (by simp [hphase, Phase.underWay]) (by simp [hphase, Phase.begins])
  case chmods reason =>
    obtain rfl := Option.some.inj hstep
    split
    · exact h.begins (by rw [hphase]; rfl)
    · exact h.goto (by simp [hphase, Phase.underWay]) (by rintro _ ⟨⟩)
  case reverts =>
    cases hstep
    have hway : (s.callers caller).underWay = true := by rw [hphase]; rfl
    have hrevert : revert s.db = { s.db with restorePending := false } := by
      rw [revert, if_pos (h.core.pending_of_underWay hway)]
    rw [hrevert]
    refine h.of_core rfl rfl rfl rfl (by rintro _ ⟨⟩) (h.core.clears hclears fun c hc => ?_)
    exact Bool.eq_false_iff.mpr fun hway' => hc (h.core.alone c caller hway' hway)
  case stats =>
    obtain rfl := Option.some.inj hstep
    split <;> exact h.goto Bool.noConfusion (by rintro _ ⟨⟩)
  case unlinks =>
    obtain rfl := Option.some.inj hstep
    split
    · refine h.of_core rfl rfl rfl rfl h.begun ?_
      change Core _ (readRestoreMarkerReason ((s.files.unlink _).read _)) _ _
      rw [Fs.read_unlink_self]
      exact h.core.unmarked.moves Bool.noConfusion (by rintro _ ⟨⟩)
    · exact h.goto Bool.noConfusion (by rintro _ ⟨⟩)
  case syncsDirectory =>
    cases hstep
    exact h.goto Bool.noConfusion (by rintro _ ⟨⟩)
  case invalidates restored =>
    rcases invalidate_cases s.db with ⟨e, he⟩ | hok
    · rw [he] at hstep
      cases hstep
      exact h.goto Bool.noConfusion (by rintro _ ⟨⟩)
    · rw [hok] at hstep
      obtain ⟨hmarked, hidle, hheld⟩ := hclears
      have hcore : Core false (readRestoreMarkerReason s.marker)
          (Function.update s.callers caller .idle) none := h.core.clears hmarked fun c _ => hidle c
      cases restored with
      | true =>
        obtain rfl := Option.some.inj hstep
        refine ⟨hcore, fun _ hrow => absurd hrow List.not_mem_nil, by rintro _ ⟨⟩, fun generation hg => ?_,
          h.refused⟩
        rcases List.mem_append.mp hg with hg | hg
        · exact Nat.lt_succ_of_lt (h.restored generation hg)
        · obtain ⟨gate, hgate, rfl⟩ := List.mem_map.mp hg
          exact Nat.lt_succ_of_le (h.begun gate (Option.mem_toList.mp hgate))
      | false =>
        obtain rfl := Option.some.inj hstep
        refine ⟨?_, fun _ hrow => absurd hrow List.not_mem_nil, fun gate hgate => ?_, fun generation hg => ?_,
          h.refused⟩
        · change Core false _ _ s.held
          rw [hheld rfl]
          exact hcore
        · exact Nat.le_succ_of_le (h.begun gate hgate)
        · exact Nat.lt_succ_of_lt (h.restored generation hg)

theorem gateInv_step (h : GateInv s) (hclears : Clears s a) (hstep : step P o s a = some t) :
    GateInv t := by
  cases a with
  | goesOn caller now => exact gateInv_goesOn h hclears hstep
  | calls caller call =>
    rw [step] at hstep
    split at hstep
    · cases hstep
      refine h.goto ?_ ?_ <;> cases call <;> rintro ⟨⟩ <;> rintro ⟨⟩
    · cases hstep
  | fails caller =>
    rw [step, fails] at hstep
    split at hstep
    all_goals cases hstep
    all_goals
      rename_i hphase
      exact h.goto (by simp [hphase, Phase.underWay]) (by rintro _ ⟨⟩)
  | dies caller =>
    cases hstep
    exact h.goto Bool.noConfusion (by rintro _ ⟨⟩)

/-- Over every run in which the flag is only cleared with no reason on the marker and no other
    `beginRestore` on its way to it, and `invalidate` is not called under a gate: the gate is kept. -/
theorem gate_holds (P : Platform V) (o : Options) (as : List (Action V))
    (hclears : Along (step P o) Clears init as) : Everywhere (step P o) GateKept init as :=
  everywhere_of_along (fun _ _ _ h hclears hstep => gateInv_step h hclears hstep) (fun _ h => h.kept) as
    gateInv_init hclears

/-! ### One caller after the other -/

/-- The condition, where no caller but `caller` has begun anything. -/
def clearsAlone (caller : ℕ) (s : State V) (a : Action V) : Bool :=
  a.caller = caller &&
    match s.callers caller with
    | .invalidates restored =>
      (readRestoreMarkerReason s.marker).isNone && (restored || s.held.isNone)
    | .reverts => (readRestoreMarkerReason s.marker).isNone
    | _ => true

theorem clears_of_alone (caller : ℕ) {as : List (Action V)}
    (h : Along (step P o) (fun s a => clearsAlone caller s a = true) init as) :
    Along (step P o) Clears init as := by
  have hidle : ∀ c, c ≠ caller → (init : State V).callers c = .idle := fun _ _ => rfl
  refine along_of_along (I := fun s => ∀ c, c ≠ caller → s.callers c = .idle) ?_ ?_ as hidle h
  · intro s a t hothers halone hstep c hc
    simp only [clearsAlone, Bool.and_eq_true, decide_eq_true_eq] at halone
    rw [step_callers hstep (halone.1 ▸ hc)]
    exact hothers c hc
  · intro s a hothers halone
    simp only [clearsAlone, Bool.and_eq_true, decide_eq_true_eq] at halone
    obtain ⟨rfl, hclears⟩ := halone
    cases a with
    | goesOn caller now =>
      rw [Clears]
      cases hphase : s.callers caller with
      | invalidates restored =>
        simp only [Action.caller, hphase, Bool.and_eq_true, Bool.or_eq_true,
          Option.isNone_iff_eq_none] at hclears
        refine ⟨hclears.1, fun c => ?_, fun hdirect => hclears.2.resolve_left (by simp [hdirect])⟩
        rcases eq_or_ne c caller with rfl | hne
        · rw [hphase]
          rfl
        · rw [hothers c hne]
          rfl
      | reverts =>
        simp only [Action.caller, hphase, Option.isNone_iff_eq_none] at hclears
        exact hclears
      | _ => trivial
    | _ => trivial

/-- A gate is begun, refuses a claim, and is cleared again. -/
def restoredOnce : List (Action Bool) :=
  callAlone (.beginRestore .restore) 6 ++ callAlone (.mutate (.claim (request "a" none))) 1 ++
  callAlone .completeRestore 4 ++ callAlone (.mutate (.claim (request "a" none))) 3

theorem gate_holds_restoredOnce : Everywhere (step booleans single) GateKept init restoredOnce :=
  gate_holds booleans single restoredOnce (clears_of_alone 0 (by decide +kernel))

/-- `invalidate` is called under a gate, and another gate is begun for a migration. -/
def invalidatedUnderGate : List (Action Bool) :=
  callAlone (.beginRestore .restore) 6 ++ callAlone .invalidate 1 ++
  callAlone (.beginRestore .migration) 2

/-- `invalidate` is called under a gate, and `completeRestore` has unlinked the marker when another caller
    claims a key. -/
def claimedUnderGate : List (Action Bool) :=
  callAlone (.beginRestore .restore) 6 ++ callAlone .invalidate 1 ++ callAlone .completeRestore 2 ++
  [.calls 1 (.mutate (.claim (request "a" none))), .goesOn 1 0, .goesOn 1 0, .goesOn 1 0]

/-- The gate for the migration is attributed to the restore; and the claim is granted under the gate. -/
theorem invalidate_breaks_gate :
    ¬ Everywhere (step booleans single) GateKept init invalidatedUnderGate ∧
      ¬ Everywhere (step booleans single) GateKept init claimedUnderGate := by
  constructor
  · refine not_everywhere
      (fun s => s.held.any (·.reason = .migration) && s.restoreReason = some .restore)
      (by decide +kernel) fun t ht h => ?_
    simp only [Bool.and_eq_true, decide_eq_true_eq] at ht
    obtain ⟨gate, hgate, hreason⟩ := (Option.any_eq_true _ _).mp ht.1
    rcases h.attributed gate hgate with hnone | hsome
    · rw [ht.2] at hnone
      cases hnone
    · rw [ht.2, of_decide_eq_true hreason] at hsome
      cases hsome
  · refine not_everywhere (fun s => s.log = [⟨.claim (request "a" none), .ok (.claimed .fresh), 2, true⟩])
      (by decide +kernel) fun t ht h => ?_
    have hrefused := h.refused
    rw [of_decide_eq_true ht] at hrefused
    obtain ⟨e, he⟩ := hrefused _ (List.mem_singleton.mpr rfl) rfl
    cases he

end Remembra.Idempotency
