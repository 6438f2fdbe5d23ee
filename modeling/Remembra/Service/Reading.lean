import Remembra.Service.World

/-! The questions of a call: what a question hands to a provider, what is checked before it, and whether
    it can change the store. The parts of a call that only read leave the tables as they are. -/

namespace Remembra.Service
open Store (Memory SensitivityBand TenantFilter)
open Prog

/-- The texts that a question hands to a provider. -/
def Ask.texts : Ask → List String
  | .embed _ text => [text]
  | .extract _ transcript => [transcript]
  | .merge newContent _ content => [newContent, content]
  | _ => []

/-- The label that is checked right before the question. -/
def Ask.gate : Ask → Option SensitivityBand
  | .embed gate _ => gate
  | .extract gate _ => gate
  | _ => none

/-- The question carries no text, or it is checked as `internal`. -/
def Ask.Checked (q : Ask) : Prop := q.texts = [] ∨ q.gate = some .internal

/-- The question leaves the store as it is. -/
def Ask.Reads : Ask → Prop
  | .store .. => False
  | .update .. => False
  | .archive .. => False
  | .revive .. => False
  | .forget .. => False
  | _ => True

theorem tables_handle {C : Config} {E : Environment} {q : Ask} (h : q.Reads) (w : World) :
    (handle C E q w).2.tables = w.tables := by
  cases q with
  | store _ _ _ => exact h.elim
  | update _ _ _ _ => exact h.elim
  | archive _ _ => exact h.elim
  | revive _ _ => exact h.elim
  | forget _ _ => exact h.elim
  | embed gate text =>
    simp only [handle]
    split <;> rfl
  | extract gate transcript =>
    simp only [handle]
    split <;> rfl
  | _ => rfl

/-- A program that only reads leaves the tables as they are. -/
theorem tables_exec {C : Config} {E : Environment} {α : Type} {p : Act α} (h : p.Only Ask.Reads)
    (w : World) : (p.exec (handle C E) w).2.tables = w.tables :=
  exec_induct (handle C E) (I := fun u => u.tables = w.tables)
    (fun _ u hq hu => (tables_handle hq u).trans hu) h rfl

theorem tables_of_exec {C : Config} {E : Environment} {α : Type} {p : Act α}
    (h : p.Only Ask.Reads) {w w' : World} {r : Except Thrown α}
    (hexec : p.exec (handle C E) w = (r, w')) : w'.tables = w.tables := by
  have htables := tables_exec (C := C) (E := E) h w
  rwa [hexec] at htables

/-! ### What the parts of a call ask -/

theorem only_ensure {P : Ask → Prop} (c : Bool) (code : ErrorCode) (message : String) :
    (Act.ensure c code message).Only P := by
  unfold Act.ensure
  split <;> trivial

theorem only_ofRefusal {P : Ask → Prop} {α : Type} (r : Except RemembraError α) :
    (Act.ofRefusal r).Only P := only_ofExcept _

theorem only_ignoring {P : Ask → Prop} {α : Type} {p : Act α} (hp : p.Only P) :
    (ignoring p).Only P := only_bind hp fun _ => trivial

section Reading
variable (C : Config) {P : Ask → Prop} (h : ∀ q : Ask, q.Reads → q.Checked → P q)
include h

theorem only_read {q : Ask} (hreads : q.Reads) (hq : q.texts = []) : (Act.ask q).Only P :=
  only_request.mpr (h q hreads (.inl hq))

theorem only_freshTenantFilter (options : Options) (capability : Capability)
    (operation : Option AuthorizationOperation) :
    (freshTenantFilter C options capability operation).Only P := by
  refine only_bind (only_read h trivial rfl) fun proceed => ?_
  refine only_bind (only_ofExcept _) fun _ => ?_
  refine only_bind (only_ofRefusal _) fun filter => ?_
  split
  · exact only_bind (only_read h trivial rfl) fun _ => only_bind (only_ensure _ _ _) fun _ => trivial
  · trivial

omit h in
theorem only_assertCanRead (found : Option Memory) (id : String) (options : Options) :
    (assertCanRead C found id options).Only P := by
  cases found with
  | none => trivial
  | some m => exact only_bind (only_ofRefusal _) fun _ => only_bind (only_ensure _ _ _) fun _ => trivial

theorem only_maybeEmbed (text : String) : (maybeEmbed C text).Only P := by
  unfold maybeEmbed
  split
  · exact only_bind (only_request.mpr (h _ trivial (.inr rfl))) fun _ => only_ofExcept _
  · trivial

theorem only_assertTenantReferences (ids : List String) (options : Options)
    (tenant : Option TenantFilter) : (assertTenantReferences C ids options tenant).Only P := by
  cases tenant with
  | none => trivial
  | some t =>
    refine only_each (fun id => ?_) _
    refine only_bind (only_read h trivial rfl) fun found => ?_
    cases found with
    | none => trivial
    | some m => exact only_bind (only_ofRefusal _) fun _ => only_ensure _ _ _

end Reading

/-! ### What the parts of a call come to -/

section Results
variable {C : Config} {E : Environment}

theorem filterAuxM_eq_ok {ε α : Type} {p : α → Except ε Bool} : ∀ {l acc r : List α},
    l.filterAuxM p acc = .ok r ↔
      (∀ a ∈ l, (p a).isOk = true) ∧ (l.filter fun a => (p a).toOption = some true).reverse ++ acc = r
  | [], acc, r => by simp [List.filterAuxM, Pure.pure, Except.pure]
  | a :: l, acc, r => by
    rw [List.filterAuxM]
    cases ha : p a with
    | error e => simp [Bind.bind, Except.bind, ha, Except.isOk, Except.toBool]
    | ok b =>
      have ih := @filterAuxM_eq_ok _ _ p l (cond b (a :: acc) acc) r
      cases b <;> simpa [Bind.bind, Except.bind, ha, Except.isOk, Except.toBool, Except.toOption] using ih

/-- A filter whose test may be refused keeps what passes the test. -/
theorem filterM_eq_ok {ε α : Type} {p : α → Except ε Bool} {l r : List α} :
    l.filterM p = .ok r ↔
      (∀ a ∈ l, (p a).isOk = true) ∧ l.filter (fun a => (p a).toOption = some true) = r := by
  have haux (kept : List α) := @filterAuxM_eq_ok _ _ p l [] kept
  simp only [List.append_nil] at haux
  rw [List.filterM]
  cases hkept : l.filterAuxM p [] with
  | error e =>
    refine iff_of_false (by simp [Bind.bind, Except.bind]) fun h => ?_
    cases hkept.symm.trans ((haux _).mpr ⟨h.1, rfl⟩)
  | ok kept =>
    obtain ⟨hall, rfl⟩ := (haux kept).mp hkept
    refine ⟨fun h => ⟨hall, ?_⟩, fun h => ?_⟩
    · cases h
      rw [List.reverse_reverse]
    · exact congrArg Except.ok ((List.reverse_reverse _).trans h.2)

section Answers
variable {V : Type} {answer : (q : Ask) → V → q.Answer × V}

theorem exec_ofRefusal {α : Type} (r : Except RemembraError α) (w : V) :
    (Act.ofRefusal r).exec answer w = (r.mapError .error, w) := exec_ofExcept ..

theorem exec_ofRefusal_eq_ok {α : Type} {r : Except RemembraError α} {a : α} {w w' : V} :
    (Act.ofRefusal r).exec answer w = (.ok a, w') ↔ r = .ok a ∧ w = w' := by
  rw [exec_ofRefusal]
  cases r <;> simp [Except.mapError]

/-- A filter that comes back is the one that the caller's options give. -/
theorem tenantFilter_of_exec {options : Options} {capability : Capability}
    {operation : Option AuthorizationOperation} {tenant : Option TenantFilter} {w w' : V}
    (h : (freshTenantFilter C options capability operation).exec answer w = (.ok tenant, w')) :
    tenantFilter C.strict options capability operation = .ok tenant := by
  unfold freshTenantFilter at h
  obtain ⟨proceed, w₁, -, h⟩ := (exec_bind_eq_ok _).mp h
  obtain ⟨u, w₂, -, h⟩ := (exec_bind_eq_ok _).mp h
  obtain ⟨filter, w₃, hfilter, h⟩ := (exec_bind_eq_ok _).mp h
  obtain ⟨hfilter, -⟩ := exec_ofRefusal_eq_ok.mp hfilter
  rw [hfilter]
  split at h
  · obtain ⟨valid, w₄, -, h⟩ := (exec_bind_eq_ok _).mp h
    obtain ⟨v, w₅, -, h⟩ := (exec_bind_eq_ok _).mp h
    cases h
    rfl
  · cases h
    rfl

end Answers

end Results

end Remembra.Service
