import Remembra.Lib.Indexed
import Remembra.Recovery.Service

/-! Does a restrictive state stay? An observer notes when a restriction begins and when it is lifted.
    What is written without a look at the store is what lifts it: a health probe or a verification of
    before the restriction, whose write comes after it, or whose value reaches an instance between the
    refresh and the check of a later write (`sticky_of_meets`). -/

namespace Remembra.Recovery
open Transition

/-! ### What the observer notes -/

def RecoveryState.restrictive (r : RecoveryState) : Bool := r = .readOnly ∨ r = .failed

def RecoveryState.blocks (r : RecoveryState) : Bool := r = .readOnly ∨ r = .failed ∨ r = .recovering

/-- The store holds `ReadOnly` or `Failed`. -/
def State.closed (s : State) : Bool := s.durable.any RecoveryState.restrictive

/-- `enterReadOnly` has been told that its write is done, and returns next. -/
def Call.returnsReadOnly (call : Call) : Bool :=
  call.operation = .enterReadOnly &&
    match call.pc with
    | .writing _ _ (some (.ok ())) => true
    | _ => false

def Operation.isWrite : Operation → Bool
  | .write _ | .assertWritable => true
  | _ => false

structure Watch where
  state : State
  /-- A restriction is in force. -/
  restricted : Bool
  /-- The calls from here on began after it. -/
  mark : ℕ := 0
  /-- A health probe has moved the store out of a restrictive state. -/
  cleared : Bool := false
  deriving DecidableEq

/-- Whatever the store holds at first is in force. -/
def Watch.init (durable : Option RecoveryState) : Watch where
  state := { durable := durable }
  restricted := ({ durable := durable } : State).closed

/-- A restriction begins: `enterReadOnly` returns, or `Failed` has been written. -/
def Watch.restrict (w : Watch) : Watch := { w with restricted := true, mark := w.state.calls.length }

/-- What the observer notes of an answer to call `k`, with the state `s` that it was given in. -/
def Watch.notesAnswer (w : Watch) (s : State) (k : ℕ) (how : Outcome) (call : Call) : Watch :=
  match call.pc, call.operation with
  | .failing _, _ => if how = .fails then w else w.restrict
  | .writing _ _ _, .verifyRecovery =>
    if how = .done ∧ w.mark ≤ k then { w with restricted := false } else w
  | .writing _ _ _, .health _ => { w with cleared := w.cleared || s.closed && !w.state.closed }
  | _, _ => w

/-- What the observer notes of an event, after which the state is `t`. -/
def Watch.notes (w : Watch) (t : State) : Event → Watch
  | .serves k how =>
    (w.state.calls[k]?).elim { w with state := t }
      (({ w with state := t } : Watch).notesAnswer w.state k how)
  | .resumes k =>
    if (w.state.calls[k]?).any Call.returnsReadOnly then ({ w with state := t } : Watch).restrict
    else { w with state := t }
  | .boot _ | .call _ _ => { w with state := t }

def watch (w : Watch) (e : Event) : Option Watch := (step w.state e).map fun t => w.notes t e

/-- A restriction is sticky: the store is closed while it is in force, no write that began after it
    passes its check, and no probe opens the store. -/
structure Sticky (w : Watch) : Prop where
  durable : w.restricted = true → w.state.closed = true
  refused : w.restricted = true → ∀ k call, w.state.calls[k]? = some call → w.mark ≤ k →
    call.operation.isWrite = true → call.pc ≠ .over true
  probes : w.cleared = false

/-- The state that the call, when it is resumed, makes its instance hold. -/
def Call.assigns (call : Call) : Option RecoveryState :=
  match call.pc, call.operation with
  | .initializing (some (.ok persisted)), _ | .refreshing (some (.ok persisted)), _ => persisted
  | .writing next _ (some (.ok ())), .verifyRecovery | .writing next _ (some (.ok ())), .health _ =>
    some next
  | _, _ => none

/-- A write that opens the store may have its effect: a probe does so only on a store that is open, a
    verification is one that began after the restriction, has no `enterReadOnly` about to return and is
    not told that it failed. -/
def MayOpen (w : Watch) (k : ℕ) (how : Outcome) : Operation → Prop
  | .health _ => w.state.closed = false
  | .verifyRecovery => (w.restricted = true → w.mark ≤ k ∧ how = .done) ∧
      ∀ call ∈ w.state.calls, call.returnsReadOnly = false
  | _ => True

/-- The call awaits a write of what is not restrictive. -/
def Call.opens (call : Call) : Bool :=
  match call.pc with
  | .writing next _ none => !next.restrictive
  | _ => false

/-- The store is opened only by what may open it; what was read or written before a restriction does not
    reach an instance while a later write waits there for its check; and a command that checks without a
    refresh is not run on an instance that has not seen the restriction. -/
def Meets (w : Watch) : Event → Prop
  | .serves k how => ∀ call ∈ w.state.calls[k]?, call.opens = true → how ≠ .fails →
      MayOpen w k how call.operation
  | .resumes k => w.restricted = true → ∀ call ∈ w.state.calls[k]?, ∀ r ∈ call.assigns,
      r.blocks = false → ∀ other ∈ w.state.calls.drop w.mark, other.operation.isWrite = true →
      other.inst = call.inst → other.pc ≠ .refreshed
  | .call i operation => operation = .assertWritable → w.restricted = true →
      ∀ inst ∈ w.state.instances[i]?, inst.recoveryState.blocks = true
  | .boot _ => True

instance MayOpen.decidable (w : Watch) (k : ℕ) (how : Outcome) : ∀ op, Decidable (MayOpen w k how op)
  | .health _ => inferInstanceAs (Decidable (w.state.closed = false))
  | .verifyRecovery => inferInstanceAs (Decidable ((w.restricted = true → w.mark ≤ k ∧ how = .done) ∧
      ∀ call ∈ w.state.calls, call.returnsReadOnly = false))
  | .initializeRecovery | .enterReadOnly | .write _ | .assertWritable => .isTrue trivial

instance Meets.decidable (w : Watch) : ∀ e, Decidable (Meets w e)
  | .serves k how => inferInstanceAs (Decidable (∀ call ∈ w.state.calls[k]?, call.opens = true →
      how ≠ .fails → MayOpen w k how call.operation))
  | .resumes k => inferInstanceAs (Decidable (w.restricted = true → ∀ call ∈ w.state.calls[k]?,
      ∀ r ∈ call.assigns, r.blocks = false → ∀ other ∈ w.state.calls.drop w.mark,
      other.operation.isWrite = true → other.inst = call.inst → other.pc ≠ .refreshed))
  | .call i operation => inferInstanceAs (Decidable (operation = .assertWritable →
      w.restricted = true → ∀ inst ∈ w.state.instances[i]?, inst.recoveryState.blocks = true))
  | .boot _ => .isTrue trivial

/-! ### What a call does when it is resumed -/

/-- The state of its instance has been loaded since the call began. -/
def Call.loaded (call : Call) : Bool :=
  match call.pc with
  | .initializing _ | .over _ => false
  | .refreshed => call.operation ≠ .write false
  | _ => true

/-- Only these operations write, and `enterReadOnly` writes `ReadOnly`. -/
def Call.Writes (call : Call) : Prop := ∀ next event answer, call.pc = .writing next event answer →
  call.operation = .enterReadOnly ∧ next = .readOnly ∨ call.operation = .verifyRecovery ∨
    ∃ restorePending, call.operation = .health restorePending

variable {w w' : Watch} {s : State} {call call' : Call} {inst inst' : Instance} {k : ℕ} {how : Outcome}
  {e : Event}

theorem writable_of_blocks (h : inst.recoveryState.blocks = true) : inst.writable = false := by
  simp only [RecoveryState.blocks, decide_eq_true_eq] at h
  rcases h with h | h | h <;> simp [Instance.writable, h]

theorem blocks_of_restrictive {r : RecoveryState} (h : r.restrictive = true) : r.blocks = true := by
  simp only [RecoveryState.restrictive, decide_eq_true_eq] at h
  rcases h with rfl | rfl <;> rfl

theorem returnsReadOnly_iff : call.returnsReadOnly = true ↔
    call.operation = .enterReadOnly ∧ ∃ next event, call.pc = .writing next event (some (.ok ())) := by
  rw [Call.returnsReadOnly, Bool.and_eq_true, decide_eq_true_eq]
  refine and_congr_right fun _ => ?_
  split
  · rename_i next event hpc
    exact iff_of_true rfl ⟨next, event, hpc⟩
  · rename_i hpc
    exact iff_of_false (by rintro ⟨⟩) fun ⟨next, event, h⟩ => hpc next event h

/-- Everything that matters of one stretch of a call. -/
structure Resumed (call : Call) (inst inst' : Instance) (call' : Call) : Prop where
  place : call'.inst = call.inst
  operation : call'.operation = call.operation
  initialized : inst.recoveryStateInitialized = true → inst'.recoveryStateInitialized = true
  loaded : call'.loaded = true → inst'.recoveryStateInitialized = true
  copy : inst'.recoveryState = inst.recoveryState ∨ inst'.recoveryState.blocks = true ∨
    call.assigns = some inst'.recoveryState
  fresh : inst'.recoveryStateInitialized = true ∨ inst' = inst
  returns : call'.returnsReadOnly = false
  writes : call'.Writes
  refreshing : ∀ answer, call'.pc ≠ .refreshing (some answer)
  refreshed : call'.pc = .refreshed → ∃ persisted, call.pc = .refreshing (some (.ok persisted)) ∧
    inst'.recoveryState = persisted.getD inst.recoveryState
  passed : call.operation.isWrite = true → call'.pc = .over true → call.pc = .refreshed ∧
    inst.writable = true

/-- A call that throws: only a probe goes on, and what it leaves its instance holding is restrictive. -/
theorem throws_cases (call : Call) (inst : Instance) :
    call.throws inst = (inst, { call with pc := .over false }) ∨
      (∃ b, call.operation = .health b) ∧ ∃ inst' pc, call.throws inst = (inst', { call with pc }) ∧
        inst'.recoveryStateInitialized = inst.recoveryStateInitialized ∧
        (pc = .failing false ∧ inst' = inst ∨ pc = .over true ∧ inst'.recoveryState.restrictive = true) := by
  rw [Call.throws]
  split
  · rename_i b hop
    extract_lets next
    have hnext : next.restrictive = true := by
      by_cases hstate : inst.recoveryState = .readOnly
      · simp only [next, if_pos hstate, hstate]
        rfl
      · simp only [next, if_neg hstate]
        rfl
    refine .inr ⟨⟨b, hop⟩, ?_⟩
    split
    · exact ⟨inst, _, rfl, rfl, .inl ⟨rfl, rfl⟩⟩
    · exact ⟨_, _, rfl, rfl, .inr ⟨rfl, hnext⟩⟩
  · exact .inl rfl

theorem resumed_of_throws {base : Instance} (hloaded : base.recoveryStateInitialized = true)
    (hcopy : base.recoveryState = inst.recoveryState ∨ base.recoveryState.blocks = true)
    (h : call.throws base = (inst', call')) : Resumed call inst inst' call' := by
  rcases throws_cases call base with hover | ⟨⟨b, hop⟩, next, pc, hthrows, hinit, hpc⟩
  · obtain ⟨rfl, rfl⟩ := Prod.mk.inj (hover.symm.trans h)
    exact ⟨rfl, rfl, fun _ => hloaded, fun _ => hloaded, hcopy.imp_right .inl, .inl hloaded,
      by simp [Call.returnsReadOnly], by simp [Call.Writes], by simp, by simp, by simp⟩
  · obtain ⟨rfl, rfl⟩ := Prod.mk.inj (hthrows.symm.trans h)
    rw [hloaded] at hinit
    have hwrite : call.operation.isWrite = false := by rw [hop]; rfl
    rcases hpc with ⟨rfl, rfl⟩ | ⟨rfl, hrestrictive⟩
    · exact ⟨rfl, rfl, fun _ => hloaded, fun _ => hloaded, hcopy.imp_right .inl, .inl hloaded,
        by simp [Call.returnsReadOnly], by simp [Call.Writes], by simp, by simp, by simp⟩
    · exact ⟨rfl, rfl, fun _ => hinit, fun _ => hinit, .inr (.inl (blocks_of_restrictive hrestrictive)),
        .inl hinit, by simp [Call.returnsReadOnly], by simp [Call.Writes], by simp, by simp,
        by simp [hwrite]⟩

/-- A probe on a loaded instance that applies an event, and writes if that changes the state. -/
theorem resumed_apply {event : RecoveryEvent} {b : Bool} (hinit : inst.recoveryStateInitialized = true)
    (hop : call.operation = .health b) : Resumed call inst inst (call.apply inst event) := by
  rw [Call.apply]
  split <;> constructor <;> simp [hinit, hop, Call.returnsReadOnly, Call.Writes, Operation.isWrite]

/-- What an instance holds after a read. -/
theorem getD_cases (persisted : Option RecoveryState) (r : RecoveryState) :
    persisted.getD r = r ∨ persisted = some (persisted.getD r) := by
  cases persisted with
  | none => exact .inl rfl
  | some r => exact .inr rfl

theorem resumed_cases (hinit : call.loaded = true → inst.recoveryStateInitialized = true)
    (h : call.resumed inst = some (inst', call')) : Resumed call inst inst' call' := by
  obtain ⟨i, operation, stateReady, pc⟩ := call
  rw [Call.resumed.eq_def] at h
  dsimp only at h hinit
  split at h
  case h_1 persisted =>
    cases h
    have hcopy := (getD_cases persisted inst.recoveryState).imp_right
      (Or.inr (a := (persisted.getD inst.recoveryState).blocks = true))
    split <;> constructor <;> simp_all [Call.loaded, Call.returnsReadOnly, Call.Writes, Call.assigns,
      Operation.isWrite]
  -- the calls that throw
  case h_2 => exact resumed_of_throws rfl (.inr rfl) (Option.some.inj h)
  case h_8 | h_14 | h_20 => exact resumed_of_throws (hinit rfl) (.inl rfl) (Option.some.inj h)
  case h_7 persisted =>
    split at h
    · exact resumed_of_throws (hinit rfl) (.inl rfl) (Option.some.inj h)
    · cases h
      have hcopy := (getD_cases persisted inst.recoveryState).imp_right
        (Or.inr (a := (persisted.getD inst.recoveryState).blocks = true))
      constructor <;> simp_all [Call.loaded, Call.returnsReadOnly, Call.Writes, Call.assigns,
        Operation.isWrite]
  case h_13 =>
    cases h
    exact resumed_apply (hinit rfl) rfl
  case h_21 =>
    cases h
    split
    · exact resumed_apply (hinit rfl) rfl
    · constructor <;> simp_all [Call.loaded, Call.returnsReadOnly, Call.Writes, Operation.isWrite]
  case h_5 | h_11 =>
    cases h
    split <;> constructor <;>
      simp_all [Call.loaded, Call.returnsReadOnly, Call.Writes, Operation.isWrite]
  case h_24 => cases h
  -- the others go on with what they have
  all_goals
    cases h
    constructor <;> simp_all [Call.loaded, Call.returnsReadOnly, Call.Writes, Call.assigns,
      RecoveryState.blocks, Operation.isWrite, transitionRecoveryState]

/-! ### What holds as long as nothing opens the store -/

/-- A write that began after the restriction has read what is restrictive, and its instance holds what
    blocks it when it comes to its check. -/
structure Call.Held (call : Call) (inst : Instance) : Prop where
  asked : ∀ persisted, call.pc = .refreshing (some (.ok persisted)) →
    persisted.any RecoveryState.restrictive = true
  checked : call.pc = .refreshed → inst.recoveryState.blocks = true
  refused : call.pc ≠ .over true

structure Inv (w : Watch) : Prop where
  durable : w.restricted = true → w.state.closed = true
  loaded : ∀ (k : ℕ) (call : Call), w.state.calls[k]? = some call →
    ∃ inst : Instance, w.state.instances[call.inst]? = some inst ∧
      (call.loaded = true → inst.recoveryStateInitialized = true)
  writes : ∀ (k : ℕ) (call : Call), w.state.calls[k]? = some call → call.Writes
  returning : ∀ (k : ℕ) (call : Call), w.state.calls[k]? = some call → call.returnsReadOnly = true →
    w.state.closed = true
  held : w.restricted = true → ∀ (k : ℕ) (call : Call), w.state.calls[k]? = some call → w.mark ≤ k →
    call.operation.isWrite = true → ∀ inst, w.state.instances[call.inst]? = some inst → call.Held inst
  fresh : ∀ (i : ℕ) (inst : Instance), w.state.instances[i]? = some inst → inst.recoveryStateInitialized = false →
    inst.recoveryState.blocks = true
  probes : w.cleared = false

theorem inv_init (durable : Option RecoveryState) : Inv (Watch.init durable) := by
  constructor <;> simp [Watch.init]

theorem Inv.sticky (h : Inv w) : Sticky w where
  durable := h.durable
  refused hr k call hk hmark hwrite := by
    obtain ⟨inst, hinst, -⟩ := h.loaded k call hk
    exact (h.held hr k call hk hmark hwrite inst hinst).refused
  probes := h.probes

/-- A restriction begins on a store that is closed. -/
theorem Inv.restrict (h : Inv w) (hclosed : w.state.closed = true) : Inv w.restrict where
  durable _ := hclosed
  loaded := h.loaded
  writes := h.writes
  returning := h.returning
  held _ k call hk hmark := by
    have hlt := (List.getElem?_eq_some_iff.mp hk).1
    exact absurd hmark (Nat.not_le.mpr hlt)
  fresh := h.fresh
  probes := h.probes

theorem Inv.lift (h : Inv w) : Inv { w with restricted := false } where
  durable := by rintro ⟨⟩
  loaded := h.loaded
  writes := h.writes
  returning := h.returning
  held := by rintro ⟨⟩
  fresh := h.fresh
  probes := h.probes

theorem inv_boot (h : Inv w) (backendFallback : Bool) : Inv { w with
    state := { w.state with
      instances := w.state.instances ++ [{ backendFallback := backendFallback }] } } := by
  have hold : ∀ {i inst}, w.state.instances[i]? = some inst →
      (w.state.instances ++ [({ backendFallback := backendFallback } : Instance)])[i]? = some inst :=
    fun hi => Indexed.getElem?_concat.mpr (.inl hi)
  refine ⟨h.durable, fun k call hk => ?_, h.writes, h.returning, fun hr k call hk hmark hwrite inst' hi => ?_,
    Indexed.forall_concat h.fresh fun _ => rfl, h.probes⟩
  · obtain ⟨inst, hinst, hloaded⟩ := h.loaded k call hk
    exact ⟨inst, hold hinst, hloaded⟩
  · obtain ⟨inst, hinst, -⟩ := h.loaded k call hk
    obtain rfl : inst = inst' := Option.some.inj ((hold hinst).symm.trans hi)
    exact h.held hr k call hk hmark hwrite inst hinst

theorem start_loaded (inst : Instance) (i : ℕ) (operation : Operation)
    (h : (Call.start inst i operation).loaded = true) : inst.recoveryStateInitialized = true := by
  by_contra hinit
  cases operation with
  | write ensures => cases ensures <;> simp [Call.start, Call.loaded, hinit] at h
  | _ => simp [Call.start, Call.loaded, hinit] at h

theorem start_pc (inst : Instance) (i : ℕ) (operation : Operation) :
    (∀ next event answer, (Call.start inst i operation).pc ≠ .writing next event answer) ∧
      (∀ answer, (Call.start inst i operation).pc ≠ .refreshing (some answer)) ∧
      ((Call.start inst i operation).pc = .refreshed → inst.recoveryStateInitialized = false) ∧
      (operation.isWrite = true → (Call.start inst i operation).pc = .over true →
        operation = .assertWritable ∧ inst.writable = true) := by
  cases operation with
  | write ensures => cases ensures <;> cases h : inst.recoveryStateInitialized <;> simp [Call.start, h]
  | _ => cases h : inst.recoveryStateInitialized <;> simp [Call.start, h, Operation.isWrite]

theorem inv_call (h : Inv w) {i : ℕ} {operation : Operation} (hi : w.state.instances[i]? = some inst)
    (hmeets : operation = .assertWritable → w.restricted = true → inst.recoveryState.blocks = true) :
    Inv { w with state := { w.state with
      calls := w.state.calls ++ [Call.start inst i operation] } } := by
  obtain ⟨hwriting, hrefreshing, hrefreshed, hover⟩ := start_pc inst i operation
  refine ⟨h.durable, Indexed.forall_concat h.loaded ⟨inst, hi, start_loaded inst i operation⟩,
    Indexed.forall_concat h.writes fun next event answer hpc => absurd hpc (hwriting next event answer),
    Indexed.forall_concat h.returning fun hreturns => ?_, fun hr => Indexed.forall_concat (h.held hr) ?_,
    h.fresh, h.probes⟩
  · obtain ⟨-, next, event, hpc⟩ := returnsReadOnly_iff.mp hreturns
    exact absurd hpc (hwriting next event _)
  · intro _ hwrite inst' hinst'
    obtain rfl : inst = inst' := Option.some.inj (hi.symm.trans hinst')
    refine ⟨fun persisted hpc => absurd hpc (hrefreshing _), fun hpc => h.fresh i inst hi (hrefreshed hpc),
      fun hpc => ?_⟩
    obtain ⟨hop, hwritable⟩ := hover hwrite hpc
    rw [writable_of_blocks (hmeets hop hr)] at hwritable
    cases hwritable

/-- A call is answered, and stands where it stood. -/
theorem Inv.answered (h : Inv w) (hk : w.state.calls[k]? = some call) {pc : Pc}
    (hloaded : ({ call with pc } : Call).loaded = true → call.loaded = true)
    (hwrites : ({ call with pc } : Call).Writes)
    (hreturns : ({ call with pc } : Call).returnsReadOnly = true → w.state.closed = true)
    (hheld : w.restricted = true → w.mark ≤ k → call.operation.isWrite = true →
      ∀ inst, ({ call with pc } : Call).Held inst) :
    Inv { w with state := { w.state with calls := w.state.calls.set k { call with pc } } } := by
  obtain ⟨inst, hinst, hinit⟩ := h.loaded k call hk
  exact ⟨h.durable,
    Indexed.forall_set (fun i call _ hi => h.loaded i call hi) ⟨inst, hinst, fun hl => hinit (hloaded hl)⟩,
    Indexed.forall_set (fun i call _ hi => h.writes i call hi) hwrites,
    Indexed.forall_set (fun i call _ hi => h.returning i call hi) hreturns,
    fun hr => Indexed.forall_set (fun i call _ hi => h.held hr i call hi)
      fun hmark hwrite inst' _ => hheld hr hmark hwrite inst',
    h.fresh, h.probes⟩

/-- The store changes, but not while it has to be closed. -/
theorem Inv.stored (h : Inv w) {durable : Option RecoveryState}
    (hr : w.restricted = true → durable.any RecoveryState.restrictive = true)
    (hreturns : ∀ (k : ℕ) (call : Call), w.state.calls[k]? = some call → call.returnsReadOnly = true →
      durable.any RecoveryState.restrictive = true) :
    Inv { w with state := { w.state with durable } } :=
  ⟨hr, h.loaded, h.writes, hreturns, h.held, h.fresh, h.probes⟩

/-- What is answered to a call that does not write. -/
theorem Inv.read (h : Inv w) (hk : w.state.calls[k]? = some call) {pc : Pc}
    (hloaded : ({ call with pc } : Call).loaded = true → call.loaded = true)
    (hpc : pc = .initializing (some (how.answer w.state.durable)) ∨
      pc = .refreshing (some (how.answer w.state.durable)) ∨ pc = .probing (some (how.answer ()))) :
    Inv { w with state := { w.state with calls := w.state.calls.set k { call with pc } } } := by
  refine h.answered hk hloaded ?_ ?_ fun hr _ _ inst => ⟨fun persisted hasked => ?_, ?_, ?_⟩
  · rcases hpc with rfl | rfl | rfl <;> rintro _ _ _ ⟨⟩
  · intro hreturns
    obtain ⟨-, next, event, hwriting⟩ := returnsReadOnly_iff.mp hreturns
    rcases hpc with rfl | rfl | rfl <;> cases hwriting
  · rcases hpc with rfl | rfl | rfl
    · cases hasked
    · rw [Outcome.answer] at hasked
      split at hasked
      · cases hasked
        exact h.durable hr
      · cases hasked
    · cases hasked
  · rcases hpc with rfl | rfl | rfl <;> rintro ⟨⟩
  · rcases hpc with rfl | rfl | rfl <;> rintro ⟨⟩

/-- A write is answered, whatever the store then holds. -/
theorem Inv.written (h : Inv w) (hk : w.state.calls[k]? = some call) {next : RecoveryState}
    {event : RecoveryEvent} (hpc : call.pc = .writing next event none)
    (hr : w.restricted = true → (how.leaves next w.state.durable).any RecoveryState.restrictive = true)
    (hreturns : ∀ (k : ℕ) (call : Call), w.state.calls[k]? = some call → call.returnsReadOnly = true →
      (how.leaves next w.state.durable).any RecoveryState.restrictive = true)
    (hself : call.operation = .enterReadOnly → how = .done → next.restrictive = true) :
    Inv { w with state := { w.state with
      durable := how.leaves next w.state.durable
      calls := w.state.calls.set k { call with pc := .writing next event (some (how.answer ())) } } } := by
  refine (h.stored hr hreturns).answered hk (fun _ => by simp [Call.loaded, hpc]) ?_ ?_
    fun _ _ _ inst => ⟨by rintro _ ⟨⟩, by rintro ⟨⟩, by rintro ⟨⟩⟩
  · rintro _ _ _ ⟨⟩
    exact h.writes k call hk next event none hpc
  · intro hreturning
    obtain ⟨hop, _, _, hanswer⟩ := returnsReadOnly_iff.mp hreturning
    have hdone : how = .done := by
      cases how <;> simp_all [Outcome.answer]
    simp [State.closed, Outcome.leaves, hdone, hself hop hdone]

/-- A write that does not open the store. -/
theorem leaves_closed {next : RecoveryState} {durable : Option RecoveryState}
    (h : next.restrictive = true ∨ how = .fails) (hclosed : durable.any RecoveryState.restrictive = true) :
    (how.leaves next durable).any RecoveryState.restrictive = true := by
  rw [Outcome.leaves]
  split
  · exact hclosed
  · rename_i hnot
    exact h.resolve_right hnot

section Notes
variable {next : RecoveryState} {event : RecoveryEvent} {answer : Option (Answer Unit)}

theorem notesAnswer_enterReadOnly (hpc : call.pc = .writing next event answer)
    (hop : call.operation = .enterReadOnly) : w.notesAnswer s k how call = w := by
  simp only [Watch.notesAnswer, hpc, hop]

theorem notesAnswer_verifyRecovery (hpc : call.pc = .writing next event answer)
    (hop : call.operation = .verifyRecovery) : w.notesAnswer s k how call =
      if how = .done ∧ w.mark ≤ k then { w with restricted := false } else w := by
  simp only [Watch.notesAnswer, hpc, hop]

theorem notesAnswer_health (hpc : call.pc = .writing next event answer) {b : Bool}
    (hop : call.operation = .health b) : w.notesAnswer s k how call =
      { w with cleared := w.cleared || s.closed && !w.state.closed } := by
  simp only [Watch.notesAnswer, hpc, hop]

end Notes

theorem inv_writing (h : Inv w) (hk : w.state.calls[k]? = some call) {next : RecoveryState}
    {event : RecoveryEvent} (hpc : call.pc = .writing next event none)
    (hmeets : next.restrictive = false → how ≠ .fails → MayOpen w k how call.operation) :
    Inv (({ w with state := { w.state with
      durable := how.leaves next w.state.durable
      calls := w.state.calls.set k { call with pc := .writing next event (some (how.answer ())) } } } :
        Watch).notesAnswer w.state k how call) := by
  have hwho := h.writes k call hk next event none hpc
  -- either the write leaves a closed store closed, or it is one that may open it
  have hcases : (w.state.closed = true →
      (how.leaves next w.state.durable).any RecoveryState.restrictive = true) ∨
        next.restrictive = false ∧ MayOpen w k how call.operation := by
    by_cases hclosed : next.restrictive = true ∨ how = .fails
    · exact .inl (leaves_closed hclosed)
    · obtain ⟨hnext, hhow⟩ := not_or.mp hclosed
      rw [Bool.not_eq_true] at hnext
      exact .inr ⟨hnext, hmeets hnext hhow⟩
  rcases hwho with ⟨hop, rfl⟩ | hop | ⟨b, hop⟩
  · rw [notesAnswer_enterReadOnly hpc hop]
    have hkeeps := hcases.resolve_right (by rintro ⟨⟨⟩, -⟩)
    exact h.written hk hpc (fun hr => hkeeps (h.durable hr))
      (fun k call hk hreturns => hkeeps (h.returning k call hk hreturns)) fun _ _ => rfl
  · rw [notesAnswer_verifyRecovery hpc hop]
    have hreturns : ∀ (k : ℕ) (call : Call), w.state.calls[k]? = some call →
        call.returnsReadOnly = true →
        (how.leaves next w.state.durable).any RecoveryState.restrictive = true := by
      intro k' call' hk' hreturns
      rcases hcases with hkeeps | ⟨-, hmay⟩
      · exact hkeeps (h.returning k' call' hk' hreturns)
      · rw [hop] at hmay
        rw [hmay.2 call' (List.mem_of_getElem? hk')] at hreturns
        cases hreturns
    split
    · exact h.lift.written hk hpc (by rintro ⟨⟩) hreturns (by simp [hop])
    · rename_i hearly
      refine h.written hk hpc (fun hr => ?_) hreturns (by simp [hop])
      rcases hcases with hkeeps | ⟨-, hmay⟩
      · exact hkeeps (h.durable hr)
      · rw [hop] at hmay
        exact absurd (hmay.1 hr).symm hearly
  · rw [notesAnswer_health hpc hop]
    have hkeeps : w.state.closed = true →
        (how.leaves next w.state.durable).any RecoveryState.restrictive = true := by
      intro hclosed
      rcases hcases with hkeeps | ⟨-, hmay⟩
      · exact hkeeps hclosed
      · rw [hop] at hmay
        exact absurd (hmay.symm.trans hclosed) (by decide)
    have hnot : (w.state.closed && !(how.leaves next w.state.durable).any RecoveryState.restrictive) =
        false := by
      rw [Bool.and_eq_false_imp]
      intro hclosed
      rw [hkeeps hclosed]
      rfl
    have hwritten := h.written hk hpc (fun hr => hkeeps (h.durable hr))
      (fun k call hk hreturns => hkeeps (h.returning k call hk hreturns)) (by simp [hop])
    exact { hwritten with probes := by rw [h.probes]; exact hnot }

/-- The write of `Failed` is answered. -/
theorem inv_failing (h : Inv w) (hk : w.state.calls[k]? = some call) (hpc : call.pc = .failing false) :
    Inv (({ w with state := { w.state with
      durable := how.leaves .failed w.state.durable
      calls := w.state.calls.set k { call with pc := .failing true } } } :
        Watch).notesAnswer w.state k how call) := by
  have hkeeps : w.state.closed = true →
      (how.leaves .failed w.state.durable).any RecoveryState.restrictive = true := leaves_closed (.inl rfl)
  have hwritten : Inv { w with state := { w.state with
      durable := how.leaves .failed w.state.durable
      calls := w.state.calls.set k { call with pc := .failing true } } } :=
    (h.stored (fun hr => hkeeps (h.durable hr)) fun k call hk hreturns =>
      hkeeps (h.returning k call hk hreturns)).answered hk (fun _ => by simp [Call.loaded, hpc])
      (by rintro _ _ _ ⟨⟩) (by simp [Call.returnsReadOnly])
      fun _ _ _ inst => ⟨by rintro _ ⟨⟩, by rintro ⟨⟩, by rintro ⟨⟩⟩
  simp only [Watch.notesAnswer, hpc]
  split
  · exact hwritten
  · rename_i hhow
    refine hwritten.restrict ?_
    simp only [State.closed, Outcome.leaves, if_neg hhow]
    rfl

theorem inv_serves (h : Inv w) (hk : w.state.calls[k]? = some call) {t : State}
    (hmeets : Meets w (.serves k how)) (ht : w.state.serves k how = some t) :
    Inv (({ w with state := t } : Watch).notesAnswer w.state k how call) := by
  rw [State.serves, hk, Option.bind_some] at ht
  split at ht
  · rename_i hpc
    cases ht
    simp only [Watch.notesAnswer, hpc]
    exact h.read hk (by rintro ⟨⟩) (.inl rfl)
  · rename_i hpc
    cases ht
    simp only [Watch.notesAnswer, hpc]
    exact h.read hk (fun _ => by simp [Call.loaded, hpc]) (.inr (.inl rfl))
  · rename_i hpc
    cases ht
    simp only [Watch.notesAnswer, hpc]
    exact h.read hk (fun _ => by simp [Call.loaded, hpc]) (.inr (.inr rfl))
  · rename_i next event hpc
    cases ht
    refine inv_writing h hk hpc fun hnext => hmeets call hk ?_
    simp only [Call.opens, hpc, hnext, Bool.not_false]
  · rename_i hpc
    cases ht
    exact inv_failing h hk hpc
  · cases ht

theorem Resumed.loaded_other (hres : Resumed call inst inst' call')
    (hinst : s.instances[call.inst]? = some inst) {j : ℕ} {old : Instance}
    (hj : s.instances[j]? = some old) : ∃ new, (s.instances.set call.inst inst')[j]? = some new ∧
      (old.recoveryStateInitialized = true → new.recoveryStateInitialized = true) := by
  rcases eq_or_ne j call.inst with rfl | hne
  · obtain rfl : inst = old := Option.some.inj (hinst.symm.trans hj)
    exact ⟨inst', List.getElem?_set_self (List.getElem?_eq_some_iff.mp hinst).1, hres.initialized⟩
  · exact ⟨old, by rw [List.getElem?_set_ne hne.symm, hj], id⟩

/-- The call itself: what it has read was restrictive, and with that it does not pass its check. -/
theorem Resumed.held (hres : Resumed call inst inst' call') (hheld : call.Held inst)
    (hwrite : call.operation.isWrite = true) : call'.Held inst' where
  asked persisted hpc := absurd hpc (hres.refreshing _)
  checked hpc := by
    obtain ⟨persisted, hread, hstate⟩ := hres.refreshed hpc
    obtain ⟨r, rfl, hr⟩ := (Option.any_eq_true _ _).mp (hheld.asked persisted hread)
    rw [hstate]
    exact blocks_of_restrictive hr
  refused hpc := by
    obtain ⟨hcheck, hwritable⟩ := hres.passed hwrite hpc
    rw [writable_of_blocks (hheld.checked hcheck)] at hwritable
    cases hwritable

/-- Another call of the same instance: nothing that opens it is written over what it holds. -/
theorem Resumed.held_other (hres : Resumed call inst inst' call') {other : Call}
    (hheld : other.Held inst) (hmeets : ∀ r, call.assigns = some r → r.blocks = false →
      other.pc ≠ .refreshed) : other.Held inst' where
  asked := hheld.asked
  checked hpc := by
    rcases hres.copy with hsame | hblocks | hassigns
    · rw [hsame]
      exact hheld.checked hpc
    · exact hblocks
    · by_contra hopen
      exact hmeets _ hassigns (Bool.not_eq_true _ ▸ hopen) hpc
  refused := hheld.refused

theorem inv_resumes (h : Inv w) {t : State} (hmeets : Meets w (.resumes k))
    (ht : w.state.resumes k = some t) :
    Inv (if (w.state.calls[k]?).any Call.returnsReadOnly then ({ w with state := t } : Watch).restrict
      else { w with state := t }) := by
  obtain ⟨call, hk, ht⟩ := Option.bind_eq_some_iff.mp ht
  obtain ⟨inst, hinst, ht⟩ := Option.bind_eq_some_iff.mp ht
  obtain ⟨⟨inst', call'⟩, hresumed, rfl⟩ := Option.map_eq_some_iff.mp ht
  obtain ⟨inst₀, hinst₀, hloaded⟩ := h.loaded k call hk
  obtain rfl : inst = inst₀ := Option.some.inj (hinst.symm.trans hinst₀)
  have hres := resumed_cases hloaded hresumed
  have hself : (w.state.instances.set call.inst inst')[call.inst]? = some inst' :=
    List.getElem?_set_self (List.getElem?_eq_some_iff.mp hinst).1
  have hnext : Inv { w with state := { w.state with
      instances := w.state.instances.set call.inst inst', calls := w.state.calls.set k call' } } := by
    refine ⟨h.durable, Indexed.forall_set (fun i other _ hi => ?_) ⟨inst', hres.place ▸ hself, hres.loaded⟩,
      Indexed.forall_set (fun i other _ hi => h.writes i other hi) hres.writes,
      Indexed.forall_set (fun i other _ hi => h.returning i other hi) fun hreturns => ?_,
      fun hr => Indexed.forall_set (fun i other _ hi hmark hwrite new hnew => ?_)
        fun hmark hwrite new hnew => ?_,
      Indexed.forall_set (fun i old _ hi => h.fresh i old hi) fun hnot => ?_, h.probes⟩
    · obtain ⟨old, hold, hinit⟩ := h.loaded i other hi
      obtain ⟨new, hnew, hkept⟩ := hres.loaded_other hinst hold
      exact ⟨new, hnew, fun hl => hkept (hinit hl)⟩
    · rw [hres.returns] at hreturns
      cases hreturns
    · have hheld := h.held hr i other hi hmark hwrite
      change (w.state.instances.set call.inst inst')[other.inst]? = some new at hnew
      rcases eq_or_ne other.inst call.inst with heq | hne
      · rw [heq, hself, Option.some.injEq] at hnew
        subst hnew
        have hlater : other ∈ w.state.calls.drop w.mark :=
          List.mem_of_getElem? (i := i - w.mark) (by rw [List.getElem?_drop, Nat.add_sub_cancel' hmark, hi])
        exact hres.held_other (hheld inst (heq ▸ hinst)) fun r hassigns hopen =>
          hmeets hr call hk r hassigns hopen other hlater hwrite heq
      · rw [List.getElem?_set_ne hne.symm] at hnew
        exact hheld new hnew
    · obtain rfl : inst' = new := Option.some.inj (hself.symm.trans (hres.place ▸ hnew))
      rw [hres.operation] at hwrite
      exact hres.held (h.held hr k call hk hmark hwrite inst hinst) hwrite
    · rcases hres.fresh with hinit | rfl
      · rw [hinit] at hnot
        cases hnot
      · exact h.fresh call.inst _ hinst hnot
  split
  · rename_i hreturns
    rw [hk, Option.any_some] at hreturns
    exact hnext.restrict (h.returning k call hk hreturns)
  · exact hnext

theorem inv_step (h : Inv w) (hmeets : Meets w e) (ht : watch w e = some w') : Inv w' := by
  obtain ⟨t, hstep, rfl⟩ := Option.map_eq_some_iff.mp ht
  cases e with
  | boot backendFallback =>
    cases hstep
    exact inv_boot h backendFallback
  | call i operation =>
    obtain ⟨inst, hi, rfl⟩ := Option.map_eq_some_iff.mp hstep
    exact inv_call h hi fun hop hr => hmeets hop hr inst hi
  | serves k how =>
    obtain ⟨call, hk, -⟩ := Option.bind_eq_some_iff.mp hstep
    rw [Watch.notes, hk]
    exact inv_serves h hk hmeets hstep
  | resumes k => exact inv_resumes h hmeets hstep

/-! ### Runs -/

/-- In a run whose steps all meet the condition, every restriction is sticky, whatever the store holds at
    first. -/
theorem sticky_of_meets (durable : Option RecoveryState) (events : List Event)
    (h : Along watch Meets (Watch.init durable) events) :
    Everywhere watch Sticky (Watch.init durable) events :=
  everywhere_of_along (fun _ _ _ hinv hmeets ht => inv_step hinv hmeets ht) (fun _ hinv => hinv.sticky)
    events (inv_init durable) h

/-- `enterReadOnly`, a write that is refused, a verification, and a write that is let through. -/
def maintenance : List Event :=
  [.boot false, .call 0 .enterReadOnly, .serves 0 .done, .resumes 0, .resumes 0, .serves 0 .done, .resumes 0,
    .call 0 (.write false), .serves 1 .done, .resumes 1, .resumes 1,
    .call 0 .verifyRecovery, .resumes 2, .serves 2 .done, .resumes 2, .serves 2 .done, .resumes 2,
    .call 0 (.write false), .serves 3 .done, .resumes 3, .resumes 3]

theorem sticky_maintenance : Everywhere watch Sticky (Watch.init none) maintenance ∧
    (run watch (Watch.init none) maintenance).map (fun w => w.state.calls.map Call.pc) =
      some [.over true, .over false, .over true, .over true] :=
  ⟨sticky_of_meets none maintenance (by decide), by decide⟩

/-- A probe is about to write `Healthy` when `enterReadOnly` is called and returns. -/
def overtaken : List Event :=
  [.boot false, .call 0 (.health false), .serves 0 .done, .resumes 0, .resumes 0, .serves 0 .done, .resumes 0,
    .resumes 0, .serves 0 .done, .resumes 0,
    .call 0 .enterReadOnly, .resumes 1, .serves 1 .done, .resumes 1, .serves 0 .done]

theorem overtaken_opens : ¬ Everywhere watch Sticky (Watch.init none) overtaken :=
  not_everywhere (fun w => w.restricted && !w.state.closed) (by decide) fun w hbad hsticky => by
    rw [Bool.and_eq_true] at hbad
    simp [hsticky.durable hbad.1] at hbad

end Remembra.Recovery
