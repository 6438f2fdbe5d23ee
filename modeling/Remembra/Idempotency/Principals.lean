import Mathlib.Algebra.Order.BigOperators.Group.List
import Remembra.Idempotency.Capacity
import Remembra.Idempotency.Keyed

/-! Principals apart. What the ledger answers to the requests of one principal depends on the claims of that
    principal alone, but for the two limits on the ledger as a whole. So, as long as none of its claims
    is refused for these, its requests go as they go when nobody else sends any (`alone`); and a response
    that is returned as a replay was stored for an earlier request of the same principal, with the same
    key and body (`replays_everywhere`). Another principal's claims do fill the ledger
    (`filled_by_another`). -/

namespace Remembra.Idempotency
open TenantMigration (isJson areJson holdJson)
open Transition

/-! ### The claims of one scope -/

/-- The database without the claims of other scopes. -/
def Db.only (scope : String) (db : Db) : Db :=
  { db with claims := db.claims.keep fun row => row.scopeHash = scope }

/-- The limits on the whole ledger leave no room for a claim. -/
def GloballyFull (o : Options) (claims : ClaimTable) : Prop :=
  claims.entryCount ≥ o.maxEntries ∨ claims.totalBytes + o.maxBytes > o.maxTotalBytes

instance (o : Options) (claims : ClaimTable) : Decidable (GloballyFull o claims) :=
  inferInstanceAs (Decidable (_ ∨ _))

section Only
variable {V : Type*} {P : Platform V} {o : Options} {input : BatchIdempotencyInput} {now : ℤ} {db : Db}
  {claims claims' : ClaimTable} {scope : String}

theorem GloballyFull.mono (hsub : claims.rows.Sublist claims'.rows) (h : GloballyFull o claims) :
    GloballyFull o claims' := by
  have hlive : (claims.rows.filter fun row => row.state ≠ .released).Sublist
      (claims'.rows.filter fun row => row.state ≠ .released) := hsub.filter _
  refine h.imp (fun hentries => hentries.trans hlive.length_le) fun hbytes => ?_
  have hsum : claims.totalBytes ≤ claims'.totalBytes :=
    (hlive.map ClaimRow.bytes).sum_le_sum fun _ _ => Nat.zero_le _
  omega

theorem scopeCount_only : (db.only scope).claims.scopeCount scope = db.claims.scopeCount scope := by
  rw [ClaimTable.scopeCount, ClaimTable.scopeCount, Db.only, Table.filter_keep]
  intro row hrow
  simp only [decide_eq_true_eq] at hrow ⊢
  exact hrow.1

theorem get_only (key : String) :
    (db.only scope).claims.get (scope, key) = db.claims.get (scope, key) :=
  Table.get_keep fun _ hrow => decide_eq_true (congrArg Prod.fst hrow)

theorem sublist_only : (db.only scope).claims.rows.Sublist db.claims.rows := by
  rw [Db.only, Table.rows_keep]
  exact List.filter_sublist

/-- What a part of the claims, with all those of the scope, has room for. -/
theorem reserve_only (h : (reserve (V := V) P o input now db).1 = .error capacityExhausted →
      ¬ GloballyFull o db.claims) : reserve (V := V) P o input now (db.only input.scope) =
    ((reserve (V := V) P o input now db).1, (reserve (V := V) P o input now db).2.only input.scope) := by
  have hglobal : GloballyFull o (db.only input.scope).claims → GloballyFull o db.claims :=
    GloballyFull.mono sublist_only
  have hscope : (db.only input.scope).claims.scopeCount input.scope = db.claims.scopeCount input.scope :=
    scopeCount_only
  rw [reserve] at h ⊢
  rw [reserve]
  by_cases hfull : db.claims.entryCount ≥ o.maxEntries ∨
      db.claims.totalBytes + o.maxBytes > o.maxTotalBytes ∨
        db.claims.scopeCount input.scope ≥ o.maxEntriesPerScope
  · rw [if_pos hfull] at h ⊢
    have hnot := h rfl
    have hcount : db.claims.scopeCount input.scope ≥ o.maxEntriesPerScope := by
      rcases hfull with hentries | hbytes | hcount
      · exact absurd (.inl hentries) hnot
      · exact absurd (.inr hbytes) hnot
      · exact hcount
    rw [if_pos (.inr (.inr (hscope ▸ hcount)))]
  · rw [if_neg hfull]
    rw [if_neg fun hfull' => hfull ?_]
    · have hinsert : (db.only input.scope).claims.insert (reserved P o input now db.generation) =
          (db.claims.insert (reserved P o input now db.generation)).map fun claims =>
            claims.keep fun row => row.scopeHash = input.scope :=
        Table.insert_keep fun row hrow => decide_eq_true (congrArg Prod.fst hrow)
      rw [show (db.only input.scope).generation = db.generation from rfl, hinsert]
      cases db.claims.insert (reserved P o input now db.generation) <;> rfl
    · rw [hscope] at hfull'
      rcases hfull' with hentries | hbytes | hcount
      · exact (hglobal (.inl hentries)).imp_right .inl
      · exact (hglobal (.inr hbytes)).imp_right .inl
      · exact .inr (.inr hcount)

theorem claimTransaction_only (h : (claimTransaction P o input now db).1 = .error capacityExhausted →
      ¬ GloballyFull o db.claims) : claimTransaction P o input now (db.only input.scope) =
    ((claimTransaction P o input now db).1, (claimTransaction P o input now db).2.only input.scope) := by
  rw [claimTransaction] at h ⊢
  rw [claimTransaction, get_only]
  change (if db.restorePending = true then _ else _) = _
  by_cases hpending : db.restorePending = true
  · rw [if_pos hpending, if_pos hpending]
  rw [if_neg hpending] at h ⊢
  rw [if_neg hpending]
  cases hget : db.claims.get (input.scope, P.digest input.key) with
  | none =>
    rw [hget] at h
    exact reserve_only h
  | some existing =>
    rw [hget] at h
    dsimp only at h ⊢
    by_cases hbinding : existing.scopeHash ≠ input.scope ∨ existing.keyHash ≠ P.digest input.key
    · rw [if_pos hbinding, if_pos hbinding]
    rw [if_neg hbinding] at h ⊢
    rw [if_neg hbinding]
    change (if existing.generation ≠ db.generation then _ else _) = _
    by_cases hgeneration : existing.generation ≠ db.generation
    · rw [if_pos hgeneration, if_pos hgeneration]
    rw [if_neg hgeneration] at h ⊢
    rw [if_neg hgeneration]
    by_cases hreleased : existing.state = .released
    · rw [if_pos hreleased] at h ⊢
      rw [if_pos hreleased]
      by_cases hnamed : existing.operation = ""
      · rw [if_pos hnamed, if_pos hnamed]
      rw [if_neg hnamed] at h ⊢
      rw [if_neg hnamed]
      by_cases hoperation : input.operation ≠ some existing.operation
      · rw [if_pos hoperation, if_pos hoperation]
      rw [if_neg hoperation] at h ⊢
      rw [if_neg hoperation]
      have hdelete : { db.only input.scope with claims := ((db.only input.scope).claims.deleteWhere
            (releasedWhere input.scope (P.digest input.key))).1 } =
          Db.only input.scope { db with claims :=
            (db.claims.deleteWhere (releasedWhere input.scope (P.digest input.key))).1 } := by
        rw [Db.only, Db.only, Table.keep_deleteWhere]
      rw [hdelete]
      refine reserve_only fun hfull hglobal => h hfull (hglobal.mono ?_)
      exact List.filter_sublist
    · rw [if_neg hreleased, if_neg hreleased]
      by_cases hfingerprint : existing.fingerprint ≠ input.fingerprint
      · rw [if_pos hfingerprint, if_pos hfingerprint]
      rw [if_neg hfingerprint, if_neg hfingerprint]
      by_cases hprogress : existing.state = .inProgress
      · rw [if_pos hprogress, if_pos hprogress]
      · rw [if_neg hprogress, if_neg hprogress]

theorem claim_only (h : (claim P o input now db).1 = .error capacityExhausted → ¬ GloballyFull o db.claims) :
    claim P o input now (db.only input.scope) =
      ((claim P o input now db).1, (claim P o input now db).2.only input.scope) := by
  rw [claim] at h ⊢
  rw [claim]
  cases hvalid : validateInput input with
  | error e => rfl
  | ok _ =>
    rw [hvalid] at h
    dsimp only at h ⊢
    rw [immediate_fst] at h
    exact immediate_comm _ (claimTransaction_only h)

/-- An update of a claim finds in a part with all claims of the scope what it finds in the whole. -/
theorem updateWhere_only {key fingerprint : String} {f : ClaimRow → ClaimRow}
    (hf : ∀ row, (f row).key = row.key) :
    (db.only scope).claims.updateWhere (inProgressWhere scope key fingerprint) f hf =
      (((db.claims.updateWhere (inProgressWhere scope key fingerprint) f hf).1.keep
          fun row => row.scopeHash = scope),
        (db.claims.updateWhere (inProgressWhere scope key fingerprint) f hf).2) := by
  have hkept : ∀ row, decide ((f row).scopeHash = scope) = decide (row.scopeHash = scope) := fun row => by
    rw [show (f row).scopeHash = row.scopeHash from congrArg Prod.fst (hf row)]
  refine Prod.ext (Table.keep_updateWhere hkept).symm ?_
  refine congrArg List.length (Table.filter_keep fun row hrow => ?_)
  simp only [inProgressWhere, keyWhere, Bool.and_eq_true, decide_eq_true_eq] at hrow ⊢
  exact hrow.1.1.1

variable (P o input now db) in
theorem complete_only (response : V) : complete P o input response now (db.only input.scope) =
    ((complete P o input response now db).1, (complete P o input response now db).2.only input.scope) := by
  rw [complete, complete]
  split
  · rfl
  split
  · rfl
  rename_i text _
  refine immediate_comm _ ?_
  change _ = Prod.map id (Db.only input.scope) _
  rw [completeTransaction, completeTransaction, get_only, updateWhere_only,
    apply_ite (Prod.map id (Db.only input.scope))]
  cases db.claims.get (input.scope, P.digest input.key) with
  | none => rfl
  | some existing =>
    simp only [apply_ite (Prod.map id (Db.only input.scope))]
    rfl

variable (P input db) in
theorem abandon_only : abandon P input (db.only input.scope) =
    ((abandon P input db).1, (abandon P input db).2.only input.scope) := by
  rw [abandon, abandon]
  split
  · rfl
  refine immediate_comm _ ?_
  change _ = Prod.map id (Db.only input.scope) _
  rw [abandonTransaction, abandonTransaction, get_only, updateWhere_only,
    apply_ite (Prod.map id (Db.only input.scope))]
  cases db.claims.get (input.scope, P.digest input.key) with
  | none => rfl
  | some existing =>
    simp only [apply_ite (Prod.map id (Db.only input.scope))]
    rfl

/-! ### The claims of the other scopes -/

theorem Grants.only (h : Grants P o input now db claims) (hne : input.scope ≠ scope) :
    Db.only scope { db with claims := claims } = db.only scope := by
  have hnew : ¬ (reserved P o input now db.generation).scopeHash = scope := hne
  refine congrArg (fun claims => { db with claims := claims }) (Table.ext_rows ?_)
  rw [Table.rows_keep, Table.rows_keep]
  rcases h with ⟨-, hrows⟩ | ⟨row, l, l', hget, -, hbefore, hrows⟩
  · rw [hrows, List.filter_append, List.filter_cons_of_neg (by simpa using hnew)]
    exact List.append_nil _
  · have hrow : ¬ row.scopeHash = scope := by
      rw [show row.scopeHash = input.scope from congrArg Prod.fst (Table.key_of_get hget)]
      exact hne
    rw [hrows, hbefore, List.filter_append, List.filter_append, List.filter_append,
      List.filter_cons_of_neg (by simpa using hnew), List.filter_cons_of_neg (by simpa using hrow)]
    exact List.append_nil _

theorem Rewrites.only {row new : ClaimRow} (h : Rewrites P input db row new claims)
    (hne : input.scope ≠ scope) : Db.only scope { db with claims := claims } = db.only scope := by
  have hrow : row.scopeHash = input.scope := congrArg Prod.fst (Table.key_of_get h.stands)
  have hold : ¬ row.scopeHash = scope := by rwa [hrow]
  have hnew : ¬ new.scopeHash = scope := by
    rwa [show new.scopeHash = row.scopeHash from congrArg Prod.fst h.key]
  obtain ⟨l, l', hbefore, hafter⟩ := h.rows
  refine congrArg (fun claims => { db with claims := claims }) (Table.ext_rows ?_)
  rw [Table.rows_keep, Table.rows_keep, hafter, hbefore, List.filter_append, List.filter_append,
    List.filter_cons_of_neg (by simpa using hnew), List.filter_cons_of_neg (by simpa using hold)]

end Only

namespace Keyed

/-- The request is the principal's. -/
def isFrom (p : Principal) (batch : KeyedBatch) : Bool := batch.principal = .ok p

/-- What the principal does, and what happens to the restore gate. -/
def ownAction (requests : ℕ → KeyedBatch) (p : Principal) : Action → Bool
  | .arrives caller | .goesOn caller _ => isFrom p (requests caller)
  | .gate _ => true

/-- A claim of the principal is refused for the limits on the whole ledger. -/
def limited (P : Platform BatchResult) (o : Options) (requests : ℕ → KeyedBatch) (p : Principal)
    (s : State) : Action → Bool
  | .goesOn caller host =>
    match s.programs caller with
    | some (.ask (.claim input) _) => isFrom p (requests caller) && GloballyFull o s.world.db.claims &&
        (claim P o input host.now s.world.db).1 = .error capacityExhausted
    | _ => false
  | _ => false

/-- Beside a state, the one without the other principals. -/
structure Alike (C : Crypto) (requests : ℕ → KeyedBatch) (p : Principal) (s s' : State) : Prop where
  db : s'.world.db = s.world.db.only (p.scope C)
  marker : s'.world.marker = s.world.marker
  programs : ∀ caller, isFrom p (requests caller) = true → s'.programs caller = s.programs caller

section Alike
variable {C : Crypto} {P : Platform BatchResult} {o : Options} {requests : ℕ → KeyedBatch} {p : Principal}
  {s s' t : State} {w w' : World}

theorem alike_init : Alike C requests p init init := ⟨rfl, rfl, fun _ _ => rfl⟩

theorem restorePending_of_alike (hdb : w'.db = w.db.only (p.scope C)) (hmarker : w'.marker = w.marker) :
    w'.restorePending = w.restorePending := by
  rw [World.restorePending, World.restorePending, hdb, hmarker]
  rfl

/-- The answer to a question of the principal depends on its own claims. -/
theorem answer_own (caller : ℕ) (host : HostAnswer) {q : Ask} (hdb : w'.db = w.db.only (p.scope C))
    (hmarker : w'.marker = w.marker) (hscope : ∀ input, Ask.input q = some input → input.scope = p.scope C)
    (hlimits : ∀ input, q = .claim input →
      (claim P o input host.now w.db).1 = .error capacityExhausted → ¬ GloballyFull o w.db.claims) :
    (answer P o caller host q w').1 = (answer P o caller host q w).1 ∧
      (answer P o caller host q w').2.db = (answer P o caller host q w).2.db.only (p.scope C) ∧
        (answer P o caller host q w').2.marker = (answer P o caller host q w).2.marker := by
  have hpending := restorePending_of_alike hdb hmarker
  cases q with
  | refresh => exact ⟨rfl, hdb, hmarker⟩
  | authorize replay => exact ⟨rfl, hdb, hmarker⟩
  | execute => exact ⟨rfl, hdb, hmarker⟩
  | claim input =>
    rw [answer, answer, hpending]
    split
    · exact ⟨rfl, hdb, hmarker⟩
    · have hown := claim_only (hlimits input rfl)
      rw [hscope input rfl] at hown
      rw [hdb, hown]
      exact ⟨rfl, rfl, hmarker⟩
  | complete input response =>
    rw [answer, answer, hpending]
    split
    · exact ⟨rfl, hdb, hmarker⟩
    · have hown := complete_only P o input host.now w.db response
      rw [hscope input rfl] at hown
      rw [hdb, hown]
      exact ⟨rfl, rfl, hmarker⟩
  | abandon input =>
    rw [answer, answer, hpending]
    split
    · exact ⟨rfl, hdb, hmarker⟩
    · have hown := abandon_only P input w.db
      rw [hscope input rfl] at hown
      rw [hdb, hown]
      exact ⟨rfl, rfl, hmarker⟩

/-- The answer to a question of another principal leaves the principal's claims alone. -/
theorem answer_other (caller : ℕ) (host : HostAnswer) {q : Ask}
    (hscope : ∀ input, Ask.input q = some input → input.scope ≠ p.scope C) :
    (answer P o caller host q w).2.db.only (p.scope C) = w.db.only (p.scope C) ∧
      (answer P o caller host q w).2.marker = w.marker := by
  cases answer_effect P o caller host q w with
  | none world => exact ⟨by rw [world], by rw [world]⟩
  | replays input response row text question world => exact ⟨by rw [world], by rw [world]⟩
  | again input response question world => exact ⟨by rw [world], by rw [world]⟩
  | grants input claims question world grants =>
    rw [world]
    exact ⟨grants.only (hscope input (by rw [question]; rfl)), rfl⟩
  | completes input response text row claims question world stringify rewrites =>
    rw [world]
    exact ⟨rewrites.only (hscope input (by rw [question]; rfl)), rfl⟩
  | abandons input row claims question world rewrites =>
    rw [world]
    exact ⟨rewrites.only (hscope input (by rw [question]; rfl)), rfl⟩

/-- The scope of a question to the ledger is that of the principal that asks. -/
theorem scope_of_own {batch : KeyedBatch} {q : Ask} (h : OwnInput C batch q) {input : BatchIdempotencyInput}
    (hinput : Ask.input q = some input) : ∃ p, batch.principal = .ok p ∧ input.scope = p.scope C :=
  (h input hinput).scope

theorem alike_gate (h : Alike C requests p s s') (change : GateStep) :
    Alike C requests p { s with world := change.apply s.world } { s' with world := change.apply s'.world } := by
  cases change with
  | marks present => exact ⟨h.db, rfl, h.programs⟩
  | flags pending =>
    refine ⟨?_, h.marker, h.programs⟩
    change { s'.world.db with restorePending := pending } = _
    rw [h.db]
    rfl
  | invalidates =>
    refine ⟨?_, h.marker, h.programs⟩
    change (invalidate s'.world.db).2 = _
    rw [h.db, invalidate, immediate_comm (Db.only (p.scope C))]
    · rfl
    · rw [invalidateTransaction, invalidateTransaction]
      change (if s.world.db.generation + 1 > maxSafeInteger then _ else _) = _
      split <;> rfl

variable {a : Action}

theorem isFrom_iff {batch : KeyedBatch} : isFrom p batch = true ↔ batch.principal = .ok p :=
  decide_eq_true_iff

/-- A step of the principal is taken on both sides. -/
theorem alike_own (hinv : Inv C P requests s) (h : Alike C requests p s s')
    (hlimited : limited P o requests p s a = false) (hown : ownAction requests p a = true)
    (hstep : step P o C requests s a = some t) :
    ∃ t', step P o C requests s' a = some t' ∧ Alike C requests p t t' := by
  rcases step_cases hstep with ⟨caller, rfl, hfree, rfl⟩ | ⟨caller, host, q, next, rfl, hprogram, rfl⟩ |
    ⟨change, rfl, rfl⟩
  · refine ⟨{ s' with
      programs := Function.update s'.programs caller (some (serve C P (requests caller))) }, ?_, ?_⟩
    · rw [step, h.programs caller hown, hfree]
    · refine ⟨h.db, h.marker, fun c hc => ?_⟩
      change Function.update s'.programs _ _ c = Function.update s.programs _ _ c
      rcases eq_or_ne c caller with rfl | hne
      · rw [Function.update_self, Function.update_self]
      · rw [Function.update_of_ne hne, Function.update_of_ne hne, h.programs c hc]
  · have hasks := (hinv.programs caller _ hprogram _ (List.Subset.refl _)).1
    have hscope : ∀ input, Ask.input q = some input → input.scope = p.scope C := by
      intro input hinput
      obtain ⟨p', hp', hscope⟩ := scope_of_own hasks hinput
      rw [isFrom_iff.mp hown] at hp'
      cases hp'
      exact hscope
    have hlimits : ∀ input, q = .claim input →
        (claim P o input host.now s.world.db).1 = .error capacityExhausted →
          ¬ GloballyFull o s.world.db.claims := by
      rintro input rfl hrefused hfull
      have hfrom : isFrom p (requests caller) = true := hown
      simp only [limited, hprogram, hfrom, hrefused, hfull] at hlimited
      cases hlimited
    obtain ⟨hanswer, hdb, hmarker⟩ :=
      answer_own (P := P) caller host h.db h.marker hscope hlimits
    refine ⟨⟨Function.update s'.programs caller (some (next (answer P o caller host q s'.world).1)),
      (answer P o caller host q s'.world).2⟩, ?_, hdb, hmarker, fun c hc => ?_⟩
    · rw [step, h.programs caller hown, hprogram]
    · change Function.update s'.programs _ _ c = Function.update s.programs _ _ c
      rw [hanswer]
      rcases eq_or_ne c caller with rfl | hne
      · rw [Function.update_self, Function.update_self]
      · rw [Function.update_of_ne hne, Function.update_of_ne hne, h.programs c hc]
  · exact ⟨_, rfl, alike_gate h change⟩

/-- A step of another principal changes nothing for the principal. -/
theorem alike_other (hC : CollisionFree C) (hinv : Inv C P requests s) (h : Alike C requests p s s')
    (hother : ownAction requests p a = false) (hstep : step P o C requests s a = some t) :
    Alike C requests p t s' := by
  have hcaller : ∀ {caller c : ℕ}, isFrom p (requests caller) = false → isFrom p (requests c) = true →
      c ≠ caller := by
    rintro caller c hcaller hc rfl
    rw [hcaller] at hc
    cases hc
  rcases step_cases hstep with ⟨caller, rfl, -, rfl⟩ | ⟨caller, host, q, next, rfl, hprogram, rfl⟩ |
    ⟨change, rfl, -⟩
  · refine ⟨h.db, h.marker, fun c hc => ?_⟩
    change _ = Function.update s.programs _ _ c
    rw [Function.update_of_ne (hcaller hother hc), h.programs c hc]
  · have hasks := (hinv.programs caller _ hprogram _ (List.Subset.refl _)).1
    have hscope : ∀ input, Ask.input q = some input → input.scope ≠ p.scope C := by
      intro input hinput hsame
      obtain ⟨p', hp', hscope⟩ := scope_of_own hasks hinput
      obtain rfl : p = p' := scope_injective hC (hsame.symm.trans hscope)
      rw [ownAction, isFrom_iff.mpr hp'] at hother
      cases hother
    obtain ⟨hdb, hmarker⟩ := answer_other (P := P) (o := o) (w := s.world) caller host hscope
    refine ⟨h.db.trans hdb.symm, h.marker.trans hmarker.symm, fun c hc => ?_⟩
    change _ = Function.update s.programs _ _ c
    rw [Function.update_of_ne (hcaller hother hc), h.programs c hc]
  · cases hother

/-- As long as no claim of a principal is refused for the limits on the whole ledger, its requests stand
    where they stand in the run in which the other principals send nothing. -/
theorem alone (hC : CollisionFree C) (hdigest : P.digest = C.sha256) (p : Principal) (as : List Action)
    (hlimited : Along (step P o C requests) (fun s a => limited P o requests p s a = false) init as)
    (hrun : run (step P o C requests) init as = some t) :
    ∃ t', run (step P o C requests) init (as.filter (ownAction requests p)) = some t' ∧
      ∀ caller, isFrom p (requests caller) = true → t'.programs caller = t.programs caller := by
  obtain ⟨t', hrun', -, halike⟩ := run_filter
    (R := fun s s' => Inv C P requests s ∧ Alike C requests p s s') (ownAction requests p) (fun s a t s' h hlimited hown hstep => by
      obtain ⟨t', hstep', halike⟩ := alike_own h.1 h.2 hlimited hown hstep
      exact ⟨t', hstep', inv_step hC hdigest h.1 hstep, halike⟩)
    (fun s a t s' h hother hstep => ⟨inv_step hC hdigest h.1 hstep, alike_other hC h.1 h.2 hother hstep⟩)
    as ⟨inv_init, alike_init⟩ hlimited hrun
  exact ⟨t', hrun', halike.programs⟩

end Alike

/-- Requests are claimed under one scope exactly when one principal sends them; whatever is returned as a
    replay was stored for an earlier request of the same principal with the same key and body; and as long
    as no claim of a principal is refused for the limits on the whole ledger, its requests go as they go
    without the other principals. -/
theorem principals_apart {C : Crypto} {P : Platform BatchResult} (hC : CollisionFree C)
    (hdigest : P.digest = C.sha256) :
    (∀ (batch batch' : KeyedBatch) (scope scope' : String),
      idempotencyScopeFor C batch.apiKey batch.credentialScope batch.tenant batch.agentId = .ok scope →
      idempotencyScopeFor C batch'.apiKey batch'.credentialScope batch'.tenant batch'.agentId = .ok scope' →
      (effectiveIdempotencyScope C scope batch.tenant batch.agentId =
        effectiveIdempotencyScope C scope' batch'.tenant batch'.agentId ↔
          batch.principal = batch'.principal)) ∧
    ∀ (o : Options) (requests : ℕ → KeyedBatch) (as : List Action),
      Everywhere (step P o C requests) (Replays P requests) init as ∧
      ∀ (p : Principal) (t : State),
        Along (step P o C requests) (fun s a => limited P o requests p s a = false) init as →
        run (step P o C requests) init as = some t →
        ∃ t', run (step P o C requests) init (as.filter (ownAction requests p)) = some t' ∧
          ∀ caller, isFrom p (requests caller) = true → t'.programs caller = t.programs caller := by
  refine ⟨fun batch batch' scope scope' hscope hscope' => ?_, fun o requests as =>
    ⟨replays_everywhere hC hdigest as, fun p t => alone hC hdigest p as⟩⟩
  obtain ⟨credential, hcredential, heffective⟩ := effectiveScope_eq hscope
  obtain ⟨credential', hcredential', heffective'⟩ := effectiveScope_eq hscope'
  rw [heffective, heffective', (scope_injective hC).eq_iff, KeyedBatch.principal, KeyedBatch.principal,
    hcredential, hcredential']
  exact ⟨fun h => congrArg Except.ok h, fun h => Except.ok.inj h⟩

/-! ### Two principals over one ledger -/

/-- The hashes of the texts below; the hash of any other text is the text, marked as such. -/
def digests : List (String × String) := [
  ("v5.4\\0api-key:5d70418c6c60ef9815d0bf52721039fdc8c7ac6ddf48b0fc6aab2be2555b42d1\\0legacy\\0no-agent",
    "d8d9d734925fac34c4ae106383fb64024c38a41b2ebd0ec4f0b3b6b046a668cd"),
  ("\x7b\"credentialScope\":\"d8d9d734925fac34c4ae106383fb64024c38a41b2ebd0ec4f0b3b6b046a668cd\"," ++
      "\"organizationId\":null,\"projectId\":null,\"userId\":null,\"tenantAgentId\":null," ++
      "\"agentId\":null\x7d",
    "1732ef980b5b5f6889965dae09910abab95f4d916d1294c96b5b766e39d895a0"),
  ("\x7b\"request\":\x7b\"ids\":[\"m-1\"],\"operation\":\"delete\"\x7d," ++
      "\"scope\":\"1732ef980b5b5f6889965dae09910abab95f4d916d1294c96b5b766e39d895a0\"\x7d",
    "77fab9377a8d5a94a49fcfd6237cf382a42ce0489afd2ed655767bc3c26d0a09"),
  ("v5.4\\0api-key:5d70418c6c60ef9815d0bf52721039fdc8c7ac6ddf48b0fc6aab2be2555b42d1\\0legacy\\0agent:b",
    "0f599dc5f9e4ea377b04b321809b356adc21c3b00e75ad831d51ff14ca438675"),
  ("\x7b\"credentialScope\":\"0f599dc5f9e4ea377b04b321809b356adc21c3b00e75ad831d51ff14ca438675\"," ++
      "\"organizationId\":null,\"projectId\":null,\"userId\":null,\"tenantAgentId\":null," ++
      "\"agentId\":\"b\"\x7d",
    "8b75e3c44168f5eec2db8ccf09677603a1f1f148ca03db8dad24ca88689b0da6"),
  ("\x7b\"request\":\x7b\"ids\":[\"m-1\"],\"operation\":\"delete\"\x7d," ++
      "\"scope\":\"8b75e3c44168f5eec2db8ccf09677603a1f1f148ca03db8dad24ca88689b0da6\"\x7d",
    "804c9f2129ff5c39ba3af46495db354827ca8916a183c8f353ae3f9d00116551"),
  ("batch-1", "8f5815465303ca0a3b700c07068ef3ef0bf6f4d8a6cd60bf7220cd3d33e7c77e")]

def digestText (text : String) : String := (digests.lookup text).getD ("text:" ++ text)

theorem digestText_injective : Function.Injective digestText := by
  have hvalues : (digests.map Prod.snd).Nodup := by decide +kernel
  have hmarked : ∀ entry ∈ digests, entry.2.toList.head? ≠ some 't' := by decide +kernel
  have hmem : ∀ {text hash}, digests.lookup text = some hash → (text, hash) ∈ digests := by
    intro text hash h
    obtain ⟨l, l', heq, -⟩ := List.lookup_eq_some_iff.mp h
    rw [heq]
    exact List.mem_append_right _ (List.mem_cons_self ..)
  have hapart : ∀ {text hash other}, digests.lookup text = some hash → hash ≠ "text:" ++ other := by
    rintro text hash other h rfl
    exact hmarked _ (hmem h) (by simp)
  intro a b h
  rw [digestText, digestText] at h
  cases ha : digests.lookup a with
  | none =>
    cases hb : digests.lookup b with
    | none => simpa [ha, hb] using h
    | some y =>
      rw [ha, hb] at h
      exact absurd h.symm (hapart hb)
  | some x =>
    cases hb : digests.lookup b with
    | none =>
      rw [ha, hb] at h
      exact absurd h (hapart ha)
    | some y =>
      rw [ha, hb] at h
      exact congrArg Prod.fst (List.inj_on_of_nodup_map hvalues (hmem ha) (hmem hb) h)

/-- The digest of the credential of the static key `key`, by `createHmac`. -/
def keyDigest (key : String) : String :=
  if key = "key" then "5d70418c6c60ef9815d0bf52721039fdc8c7ac6ddf48b0fc6aab2be2555b42d1" else "key:" ++ key

theorem keyDigest_injective : Function.Injective keyDigest := by
  have hapart : ∀ key : String,
      "5d70418c6c60ef9815d0bf52721039fdc8c7ac6ddf48b0fc6aab2be2555b42d1" ≠ "key:" ++ key := by
    intro key h
    have hhead := congrArg (fun text => text.toList.head?) h
    simp at hhead
  intro a b h
  rw [keyDigest, keyDigest] at h
  by_cases ha : a = "key"
  · by_cases hb : b = "key"
    · rw [ha, hb]
    · rw [if_pos ha, if_neg hb] at h
      exact absurd h (hapart b)
  · by_cases hb : b = "key"
    · rw [if_neg ha, if_pos hb] at h
      exact absurd h.symm (hapart a)
    · rw [if_neg ha, if_neg hb] at h
      simpa using h

def hashes : Crypto where
  numText := TenantMigration.fractionText
  sha256 := digestText
  hmac _ text := text
  hmacHex key _ := keyDigest key

theorem collisionFree_hashes : CollisionFree hashes :=
  ⟨digestText_injective, fun _ => keyDigest_injective, TenantMigration.writesNumbers_fractionText _ _⟩

/-- What comes of the deletion of `m-1`. -/
def deletion : BatchResult :=
  ⟨.delete, 1, 1, 0, [⟨0, some "m-1", .ok (.deleted "Deleted memory m-1.")⟩], .perItem, .unsupported⟩

def deletionText : String :=
  "\x7b\"operation\":\"delete\",\"summary\":\x7b\"requested\":1,\"succeeded\":1,\"failed\":0\x7d," ++
    "\"results\":[\x7b\"index\":0,\"id\":\"m-1\",\"ok\":true," ++
    "\"result\":\x7b\"text\":\"Deleted memory m-1.\"\x7d\x7d]," ++
    "\"execution\":\x7b\"transactionPolicy\":\"per-item\",\"idempotency\":\"stored\"\x7d\x7d"

/-- A platform that stores the response of that deletion. -/
def deletions : Platform BatchResult where
  digest := digestText
  stringify result := if result = stored deletion then some deletionText else none
  parse text := if text = deletionText then some (stored deletion) else none
  parse_stringify result text h := by
    split at h
    · cases h
      rw [if_pos rfl]
      rfl
    · cases h

/-- The deletion of `m-1` under the key `batch-1`, by an agent or none. -/
def deletionBy (agentId : Option String) : KeyedBatch where
  apiKey := some "key"
  credentialScope := none
  tenant := none
  agentId := agentId
  idempotencyKey := "batch-1"
  requestBytes := 40
  request := ⟨.delete, [("ids", .seq [.str "m-1"])], by simp [isJson, areJson, holdJson]⟩

/-- The callers 0 and 1 are one principal, all others another. -/
def callers (caller : ℕ) : KeyedBatch := deletionBy (if caller ≤ 1 then none else some "b")

/-- A caller arrives and gets so many answers. -/
def goesOn (caller answers : ℕ) : List Action :=
  .arrives caller :: List.replicate answers (.goesOn caller ⟨.ok (), .ok deletion, 0⟩)

/-- What a caller has returned. -/
def State.returned (s : State) (caller : ℕ) : Option (Except RemembraError BatchResult) :=
  match s.programs caller with
  | some (.done result) => some (.ok result)
  | some (.fail e) => some (.error e)
  | _ => none

/-- Room for two claims. -/
def pair : Options where
  maxBytes := 1024
  maxEntries := 2
  maxEntriesPerScope := 1
  maxTotalBytes := 2048
  maxBytes_range := single.maxBytes_range
  maxEntries_range := by decide
  maxEntriesPerScope_range := by decide
  maxTotalBytes_range := by decide

/-- The same key and body come from one principal twice, and then from another. -/
def threeDeletions : List Action := goesOn 0 5 ++ goesOn 1 4 ++ goesOn 2 5

/-- The claim of that deletion. -/
def deletionInput (agentId : Option String) : BatchIdempotencyInput where
  scope := if agentId = none then "1732ef980b5b5f6889965dae09910abab95f4d916d1294c96b5b766e39d895a0"
    else "8b75e3c44168f5eec2db8ccf09677603a1f1f148ca03db8dad24ca88689b0da6"
  key := "batch-1"
  fingerprint := if agentId = none then "77fab9377a8d5a94a49fcfd6237cf382a42ce0489afd2ed655767bc3c26d0a09"
    else "804c9f2129ff5c39ba3af46495db354827ca8916a183c8f353ae3f9d00116551"
  operation := some "delete"

/-- How that deletion is served, with its hashes worked out. -/
def servedDeletion (agentId : Option String) : Act BatchResult := do
  Act.refresh
  Act.authorize false
  claimed deletions (deletionBy agentId) (deletionInput agentId) (← Act.claim (deletionInput agentId))

theorem serve_deletionBy {agentId : Option String} (h : agentId = none ∨ agentId = some "b") :
    serve hashes deletions (deletionBy agentId) = servedDeletion agentId := by
  obtain ⟨scope, hscope, hcheck, hinput⟩ : ∃ scope,
      idempotencyScopeFor hashes (some "key") none none agentId = .ok scope ∧
      checkKeyed (deletionBy agentId) scope = .ok () ∧
      (deletionBy agentId).input hashes scope = deletionInput agentId := by
    rcases h with rfl | rfl
    · refine ⟨"d8d9d734925fac34c4ae106383fb64024c38a41b2ebd0ec4f0b3b6b046a668cd", ?_, ?_, ?_⟩ <;>
        decide +kernel
    · refine ⟨"0f599dc5f9e4ea377b04b321809b356adc21c3b00e75ad831d51ff14ca438675", ?_, ?_, ?_⟩ <;>
        decide +kernel
  rw [serve, deletionBy, hscope, ← deletionBy]
  change (do
    Act.refresh
    Prog.ofExcept (checkKeyed (deletionBy agentId) scope)
    Act.authorize false
    claimed deletions (deletionBy agentId) ((deletionBy agentId).input hashes scope)
      (← Act.claim ((deletionBy agentId).input hashes scope))) = _
  rw [hcheck, hinput]
  rfl

/-- The system over the programs of its callers. -/
def stepOf (P : Platform BatchResult) (o : Options) (served : ℕ → Act BatchResult) (s : State) :
    Action → Option State
  | .arrives caller =>
    match s.programs caller with
    | none => some { s with programs := Function.update s.programs caller (some (served caller)) }
    | some _ => none
  | .goesOn caller host =>
    match s.programs caller with
    | some (.ask q next) =>
      let (a, w) := answer P o caller host q s.world
      some ⟨Function.update s.programs caller (some (next a)), w⟩
    | _ => none
  | .gate change => some { s with world := change.apply s.world }

theorem step_callers (o : Options) : step deletions o hashes callers =
    stepOf deletions o fun caller => servedDeletion (if caller ≤ 1 then none else some "b") := by
  have hserve (caller : ℕ) : serve hashes deletions (callers caller) =
      servedDeletion (if caller ≤ 1 then none else some "b") := by
    refine serve_deletionBy ?_
    split
    · exact .inl rfl
    · exact .inr rfl
  funext s a
  cases a with
  | arrives caller =>
    rw [step, hserve]
    rfl
  | goesOn caller host => rfl
  | gate change => rfl

/-- The second caller gets what was stored for the first; the third, who is another principal, gets what it
    would have got alone. -/
theorem principals_apart_deletions :
    effectiveIdempotencyScope hashes "d8d9d734925fac34c4ae106383fb64024c38a41b2ebd0ec4f0b3b6b046a668cd"
        none none ≠
      effectiveIdempotencyScope hashes "0f599dc5f9e4ea377b04b321809b356adc21c3b00e75ad831d51ff14ca438675"
        none (some "b") ∧
    Everywhere (step deletions pair hashes callers) (Replays deletions callers) init threeDeletions ∧
    ∃ t, run (step deletions pair hashes callers) init threeDeletions = some t ∧
      t.returned 1 = some (.ok (replayed (stored deletion))) ∧
      ∃ t', run (step deletions pair hashes callers) init (threeDeletions.filter
          (ownAction callers (principalOf (.apiKey "key") none (some "b")))) = some t' ∧
        t'.returned 2 = some (.ok (stored deletion)) := by
  have h := principals_apart (P := deletions) collisionFree_hashes rfl
  have hreturned : ((run (step deletions pair hashes callers) init threeDeletions).bind
      fun t => (t.returned 1).bind fun r => (t.returned 2).map fun r' => (r, r')) =
        some (.ok (replayed (stored deletion)), .ok (stored deletion)) := by
    rw [step_callers]
    decide +kernel
  have hlimited : Along (step deletions pair hashes callers) (fun s a => limited deletions pair callers
      (principalOf (.apiKey "key") none (some "b")) s a = false) init threeDeletions := by
    rw [step_callers]
    decide +kernel
  obtain ⟨t, ht, hreturned⟩ := Option.bind_eq_some_iff.mp hreturned
  obtain ⟨r, hfirst, hreturned⟩ := Option.bind_eq_some_iff.mp hreturned
  obtain ⟨r', hsecond, hpair⟩ := Option.map_eq_some_iff.mp hreturned
  cases hpair
  obtain ⟨t', ht', hprograms⟩ := (h.2 pair callers threeDeletions).2
    (principalOf (.apiKey "key") none (some "b")) t hlimited ht
  refine ⟨?_, (h.2 pair callers threeDeletions).1, t, ht, hfirst, t', ht', ?_⟩
  · refine mt (h.1 (callers 0) (callers 2) _ _ ?_ ?_).mp ?_
    · decide +kernel
    · decide +kernel
    · decide +kernel
  · rw [State.returned, hprograms 2 (by decide +kernel)]
    exact hsecond

/-- Without room for another claim, a caller is refused because another principal has made one: alone it
    would have been served. -/
theorem filled_by_another :
    (callers 0).principal ≠ (callers 2).principal ∧
    (run (step deletions single hashes callers) init (goesOn 0 5 ++ goesOn 2 3)).bind (·.returned 2) =
      some (.error capacityExhausted) ∧
    (run (step deletions single hashes callers) init (goesOn 2 5)).bind (·.returned 2) =
      some (.ok (stored deletion)) := by
  rw [step_callers]
  refine ⟨?_, ?_, ?_⟩ <;> decide +kernel

end Keyed

end Remembra.Idempotency
