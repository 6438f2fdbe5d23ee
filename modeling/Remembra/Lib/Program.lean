import Mathlib.Tactic.Common

/-! Programs that ask their surroundings questions and go on with the answers. A question is one
    step: whatever a program does between two questions nobody else can see, so an interleaving of
    programs is an order in which their questions are answered.

    `Prog.Only` says which questions a program can ever ask, whatever the answers are; `Prog.exec`
    runs one program alone and `Pool.turn` gives one of several programs its next answer. -/

namespace Remembra

/-- A program: it is done, it fails, or it asks and goes on with the answer. -/
inductive Prog (Q : Type) (A : Q → Type) (ε α : Type) where
  | done (a : α)
  | fail (e : ε)
  | ask (q : Q) (next : A q → Prog Q A ε α)

namespace Prog
variable {Q : Type} {A : Q → Type} {ε α β γ : Type}

def bind : Prog Q A ε α → (α → Prog Q A ε β) → Prog Q A ε β
  | done a, f => f a
  | fail e, _ => fail e
  | ask q next, f => ask q fun a => (next a).bind f

instance : Monad (Prog Q A ε) where
  pure := done
  bind := bind

/-- One question, and its answer. -/
def request (q : Q) : Prog Q A ε (A q) := ask q done

/-- The failure of a program as a value: `try` with everything caught. -/
def attempt : Prog Q A ε α → Prog Q A ε (Except ε α)
  | done a => done (.ok a)
  | fail e => done (.error e)
  | ask q next => ask q fun a => (next a).attempt

/-- One round for each item, in order. -/
def each (xs : List α) (f : α → Prog Q A ε Unit) : Prog Q A ε Unit := xs.foldlM (fun _ x => f x) ()

/-- An answer that is a failure fails the program. -/
def ofExcept : Except ε α → Prog Q A ε α
  | .ok a => done a
  | .error e => fail e

@[simp] theorem done_bind (a : α) (f : α → Prog Q A ε β) : (done a >>= f) = f a := rfl
@[simp] theorem fail_bind (e : ε) (f : α → Prog Q A ε β) : (fail e >>= f) = fail e := rfl
@[simp] theorem ask_bind (q : Q) (next : A q → Prog Q A ε α) (f : α → Prog Q A ε β) :
    (ask q next >>= f) = ask q fun a => next a >>= f := rfl

theorem bind_done (p : Prog Q A ε α) : (p >>= done) = p := by
  induction p with
  | done a => rfl
  | fail e => rfl
  | ask q next ih => exact congrArg (ask q) (funext ih)

theorem bind_assoc (p : Prog Q A ε α) (f : α → Prog Q A ε β) (g : β → Prog Q A ε γ) :
    (p >>= f >>= g) = (p >>= fun a => f a >>= g) := by
  induction p with
  | done a => rfl
  | fail e => rfl
  | ask q next ih => exact congrArg (ask q) (funext ih)

instance : LawfulMonad (Prog Q A ε) := LawfulMonad.mk' _
  bind_done (fun _ _ => rfl) bind_assoc

/-! ### The questions a program can ask -/

/-- Every question the program can ask meets `P`. -/
def Only (P : Q → Prop) : Prog Q A ε α → Prop
  | done _ => True
  | fail _ => True
  | ask q next => P q ∧ ∀ a, (next a).Only P

section Only
variable {P : Q → Prop}

@[simp] theorem only_pure (a : α) : (pure a : Prog Q A ε α).Only P := trivial

@[simp] theorem only_request {q : Q} : (request q : Prog Q A ε (A q)).Only P ↔ P q := by
  simp [request, Only]

@[simp] theorem only_ofExcept (r : Except ε α) : (ofExcept r : Prog Q A ε α).Only P := by
  cases r <;> trivial

theorem only_bind {p : Prog Q A ε α} {f : α → Prog Q A ε β} (hp : p.Only P)
    (hf : ∀ a, (f a).Only P) : (p >>= f).Only P := by
  induction p with
  | done a => exact hf a
  | fail e => trivial
  | ask q next ih => exact ⟨hp.1, fun a => ih a (hp.2 a)⟩

theorem only_attempt {p : Prog Q A ε α} (hp : p.Only P) : p.attempt.Only P := by
  induction p with
  | done a => trivial
  | fail e => trivial
  | ask q next ih => exact ⟨hp.1, fun a => ih a (hp.2 a)⟩

/-- A loop asks what its rounds ask. -/
theorem only_foldlM_of_mem {f : β → α → Prog Q A ε β} :
    ∀ {xs : List α}, (∀ b, ∀ a ∈ xs, (f b a).Only P) → ∀ b : β, (xs.foldlM f b).Only P
  | [], _, _ => trivial
  | x :: xs, hf, b => by
    rw [List.foldlM_cons]
    exact only_bind (hf b x List.mem_cons_self)
      (only_foldlM_of_mem fun b a ha => hf b a (List.mem_cons_of_mem _ ha))

theorem only_foldlM {f : β → α → Prog Q A ε β} (hf : ∀ b a, (f b a).Only P) (xs : List α) (b : β) :
    (xs.foldlM f b).Only P :=
  only_foldlM_of_mem (fun b a _ => hf b a) b

theorem only_each {f : α → Prog Q A ε Unit} (hf : ∀ a, (f a).Only P) (xs : List α) :
    (each xs f).Only P :=
  only_foldlM (fun _ a => hf a) xs ()

theorem Only.mono {R : Q → Prop} {p : Prog Q A ε α} (hp : p.Only P) (h : ∀ q, P q → R q) :
    p.Only R := by
  induction p with
  | done a => trivial
  | fail e => trivial
  | ask q next ih => exact ⟨h q hp.1, fun a => ih a (hp.2 a)⟩

end Only

/-! ### Programs whose answers are good -/

/-- As long as its answers meet `G`, the program asks what meets `P`, and what it returns meets `R`. -/
def Ensures (G : (q : Q) → A q → Prop) (P : Q → Prop) (R : α → Prop) : Prog Q A ε α → Prop
  | done a => R a
  | fail _ => True
  | ask q next => P q ∧ ∀ a, G q a → (next a).Ensures G P R

section Ensures
variable {G : (q : Q) → A q → Prop} {P : Q → Prop} {R : α → Prop} {S : β → Prop}

theorem ensures_bind {p : Prog Q A ε α} {f : α → Prog Q A ε β} (hp : p.Ensures G P R)
    (hf : ∀ a, R a → (f a).Ensures G P S) : (p >>= f).Ensures G P S := by
  induction p with
  | done a => exact hf a hp
  | fail e => trivial
  | ask q next ih => exact ⟨hp.1, fun a ha => ih a (hp.2 a ha)⟩

theorem Ensures.mono {R' : α → Prop} {p : Prog Q A ε α} (hp : p.Ensures G P R)
    (h : ∀ a, R a → R' a) : p.Ensures G P R' := by
  induction p with
  | done a => exact h a hp
  | fail e => trivial
  | ask q next ih => exact ⟨hp.1, fun a ha => ih a (hp.2 a ha)⟩

theorem ensures_attempt {p : Prog Q A ε α} (hp : p.Ensures G P R) :
    p.attempt.Ensures G P fun r => ∀ a, r = .ok a → R a := by
  induction p with
  | done a =>
    rintro _ ⟨⟩
    exact hp
  | fail e => rintro _ ⟨⟩
  | ask q next ih => exact ⟨hp.1, fun a ha => ih a (hp.2 a ha)⟩

theorem ensures_ofExcept {r : Except ε α} (h : ∀ a, r = .ok a → R a) :
    (ofExcept r : Prog Q A ε α).Ensures G P R := by
  cases r with
  | ok a => exact h a rfl
  | error e => trivial

theorem ensures_request {q : Q} (h : P q) : (request q : Prog Q A ε (A q)).Ensures G P (G q) :=
  ⟨h, fun _ ha => ha⟩

/-- A loop keeps what each of its rounds keeps. -/
theorem ensures_foldlM {f : β → α → Prog Q A ε β} {xs : List α}
    (hf : ∀ b, ∀ a ∈ xs, S b → (f b a).Ensures G P S) {b : β} (hb : S b) :
    (xs.foldlM f b).Ensures G P S := by
  induction xs generalizing b with
  | nil => exact hb
  | cons x xs ih =>
    rw [List.foldlM_cons]
    exact ensures_bind (hf b x (List.mem_cons_self ..) hb) fun b hb =>
      ih (fun b a ha => hf b a (List.mem_cons_of_mem _ ha)) hb

theorem ensures_each {f : α → Prog Q A ε Unit} {xs : List α}
    (hf : ∀ a ∈ xs, (f a).Ensures G P fun _ => True) : (each xs f).Ensures G P fun _ => True :=
  ensures_foldlM (fun _ a ha _ => hf a ha) trivial

end Ensures

/-- The same without a state: each question is answered by a program, which may fail the whole. -/
def through {Q' : Type} {A' : Q' → Type} (answer : (q : Q) → Prog Q' A' ε (A q)) :
    Prog Q A ε α → Prog Q' A' ε α
  | done a => done a
  | fail e => fail e
  | ask q next => answer q >>= fun a => (next a).through answer

/-! ### One program alone -/

section Exec
variable {W : Type} (handle : (q : Q) → W → A q × W)

/-- The program runs alone in a world that answers its questions. -/
def exec : Prog Q A ε α → W → Except ε α × W
  | done a, w => (.ok a, w)
  | fail e, w => (.error e, w)
  | ask q next, w => (next (handle q w).1).exec (handle q w).2

@[simp] theorem exec_done (a : α) (w : W) :
    exec handle (done a : Prog Q A ε α) w = (.ok a, w) := rfl
@[simp] theorem exec_pure (a : α) (w : W) :
    exec handle (pure a : Prog Q A ε α) w = (.ok a, w) := rfl
@[simp] theorem exec_request (q : Q) (w : W) :
    exec handle (request q : Prog Q A ε (A q)) w = (.ok (handle q w).1, (handle q w).2) := rfl

@[simp] theorem exec_ofExcept (r : Except ε α) (w : W) :
    exec handle (ofExcept r : Prog Q A ε α) w = (r, w) := by
  cases r <;> rfl

/-- How a run goes on from the outcome of its first part. -/
def continued (f : α → Prog Q A ε β) : Except ε α × W → Except ε β × W
  | (.ok a, w) => (f a).exec handle w
  | (.error e, w) => (.error e, w)

@[simp] theorem continued_ok (f : α → Prog Q A ε β) (a : α) (w : W) :
    continued handle f (.ok a, w) = (f a).exec handle w := rfl
@[simp] theorem continued_error (f : α → Prog Q A ε β) (e : ε) (w : W) :
    continued handle f (.error e, w) = (.error e, w) := rfl

theorem exec_bind (p : Prog Q A ε α) (f : α → Prog Q A ε β) (w : W) :
    exec handle (p >>= f) w = continued handle f (exec handle p w) := by
  induction p generalizing w with
  | done a => rfl
  | fail e => rfl
  | ask q next ih => exact ih _ _

theorem exec_bind_eq_ok {p : Prog Q A ε α} {f : α → Prog Q A ε β} {w w' : W} {b : β} :
    exec handle (p >>= f) w = (.ok b, w') ↔
      ∃ a u, exec handle p w = (.ok a, u) ∧ exec handle (f a) u = (.ok b, w') := by
  rw [exec_bind]
  rcases exec handle p w with ⟨e | a, u⟩
  · simp
  · simp

/-- What every question that a program asks preserves, the program preserves. -/
theorem exec_induct {P : Q → Prop} {I : W → Prop} (hI : ∀ q w, P q → I w → I (handle q w).2)
    {p : Prog Q A ε α} (hp : p.Only P) {w : W} (hw : I w) : I (exec handle p w).2 := by
  induction p generalizing w with
  | done a => exact hw
  | fail e => exact hw
  | ask q next ih => exact ih _ (hp.2 _) (hI q w hp.1 hw)

/-- Every answer that the run gets meets `P`. -/
def Heard (P : (q : Q) → A q → Prop) : Prog Q A ε α → W → Prop
  | done _, _ => True
  | fail _, _ => True
  | ask q next, w => P q (handle q w).1 ∧ (next (handle q w).1).Heard P (handle q w).2

theorem heard_bind {P : (q : Q) → A q → Prop} {p : Prog Q A ε α} {f : α → Prog Q A ε β} {w : W} :
    Heard handle P (p >>= f) w ↔
      Heard handle P p w ∧ ∀ a u, exec handle p w = (.ok a, u) → Heard handle P (f a) u := by
  induction p generalizing w with
  | done a =>
    refine ⟨fun h => ⟨trivial, ?_⟩, fun h => h.2 a w rfl⟩
    rintro _ _ ⟨⟩
    exact h
  | fail e =>
    refine ⟨fun _ => ⟨trivial, ?_⟩, fun _ => trivial⟩
    rintro _ _ ⟨⟩
  | ask q next ih => exact (and_congr_right fun _ => ih _).trans and_assoc.symm

/-- The program fails at the first answer that does not meet `P`, and nowhere else. -/
def Settles (P : (q : Q) → A q → Prop) : Prog Q A ε α → Prop
  | done _ => True
  | fail _ => False
  | ask q next => ∀ a, (P q a → (next a).Settles P) ∧ (¬ P q a → ∃ e, next a = fail e)

theorem settles_bind {P : (q : Q) → A q → Prop} {p : Prog Q A ε α} {f : α → Prog Q A ε β}
    (hp : p.Settles P) (hf : ∀ a, (f a).Settles P) : (p >>= f).Settles P := by
  induction p with
  | done a => exact hf a
  | fail e => exact hp.elim
  | ask q next ih =>
    intro a
    refine ⟨fun ha => ih a ((hp a).1 ha), fun ha => ?_⟩
    obtain ⟨e, he⟩ := (hp a).2 ha
    exact ⟨e, congrArg (bind · f) he⟩

/-- A question whose answers that do not meet `P` are failures. -/
theorem settles_ofExcept {P : (q : Q) → A q → Prop} {q : Q} {f : A q → Except ε α}
    (h : ∀ a, P q a ↔ ∃ b, f a = .ok b) : (request q >>= fun a => ofExcept (f a)).Settles P := by
  intro a
  change (P q a → (ofExcept (f a)).Settles P) ∧ (¬ P q a → ∃ e, ofExcept (f a) = fail e)
  rw [h]
  cases f a with
  | ok b => exact ⟨fun _ => trivial, fun hnot => (hnot ⟨b, rfl⟩).elim⟩
  | error e =>
    refine ⟨?_, fun _ => ⟨e, rfl⟩⟩
    rintro ⟨b, ⟨⟩⟩

theorem exec_settles {P : (q : Q) → A q → Prop} {p : Prog Q A ε α} (hp : p.Settles P) {w : W} :
    (∃ a u, exec handle p w = (.ok a, u)) ↔ Heard handle P p w := by
  induction p generalizing w with
  | done a => exact iff_of_true ⟨a, w, rfl⟩ trivial
  | fail e => exact hp.elim
  | ask q next ih =>
    by_cases ha : P q (handle q w).1
    · exact (ih _ ((hp _).1 ha)).trans (and_iff_right ha).symm
    · obtain ⟨e, he⟩ := (hp _).2 ha
      refine iff_of_false ?_ fun h => ha h.1
      rintro ⟨a, u, h⟩
      rw [exec, he] at h
      cases h

theorem exec_attempt (p : Prog Q A ε α) (w : W) :
    exec handle p.attempt w = (.ok (exec handle p w).1, (exec handle p w).2) := by
  induction p generalizing w with
  | done a => rfl
  | fail e => rfl
  | ask q next ih => exact ih _ _

end Exec

/-! ### One program in a world that stands still -/

section Answered
variable (answer : (q : Q) → A q)

/-- How the program ends when each question has one answer for good. -/
def answered : Prog Q A ε α → Except ε α
  | done a => .ok a
  | fail e => .error e
  | ask q next => (next (answer q)).answered

@[simp] theorem answered_ofExcept (r : Except ε α) :
    answered answer (ofExcept r : Prog Q A ε α) = r := by
  cases r <;> rfl

theorem answered_bind (p : Prog Q A ε α) (f : α → Prog Q A ε β) :
    answered answer (p >>= f) = (answered answer p).bind fun a => answered answer (f a) := by
  induction p with
  | done a => rfl
  | fail e => rfl
  | ask q next ih => exact ih (answer q)

theorem answered_bind_eq_ok {p : Prog Q A ε α} {f : α → Prog Q A ε β} {b : β} :
    answered answer (p >>= f) = .ok b ↔
      ∃ a, answered answer p = .ok a ∧ answered answer (f a) = .ok b := by
  rw [answered_bind]
  cases answered answer p <;> simp [Except.bind]

theorem answered_attempt (p : Prog Q A ε α) : p.attempt.answered answer = .ok (p.answered answer) := by
  induction p with
  | done a => rfl
  | fail e => rfl
  | ask q next ih => exact ih (answer q)

/-- A program whose questions other programs answer ends as it does on their answers. -/
theorem answered_through {Q' : Type} {A' : Q' → Type} {B : (q : Q') → A' q}
    {sub : (q : Q) → Prog Q' A' ε (A q)} (h : ∀ q, (sub q).answered B = .ok (answer q))
    (p : Prog Q A ε α) : (p.through sub).answered B = p.answered answer := by
  induction p with
  | done a => rfl
  | fail e => rfl
  | ask q next ih =>
    rw [through, answered_bind, h]
    exact ih (answer q)

variable {answer} {W : Type} {handle : (q : Q) → W → A q × W}

end Answered

/-! ### One program in a world that may fail it -/

section Guarantees
variable {W Φ : Type}

/-- Each question is answered in one of several ways `Φ`. As long as the world chooses among those that
    `G` lets it, `I` holds where the program waits for an answer, `R` where it is done and `E` where it
    has failed. -/
def Guarantees (handle : (q : Q) → Φ → W → A q × W) (G : Q → Φ → W → Prop) (I : Q → W → Prop)
    (R : α → W → Prop) (E : ε → W → Prop) : Prog Q A ε α → W → Prop
  | done a, w => R a w
  | fail e, w => E e w
  | ask q next, w => I q w ∧ ∀ f, G q f w →
      (next (handle q f w).1).Guarantees handle G I R E (handle q f w).2

variable {handle : (q : Q) → Φ → W → A q × W} {G : Q → Φ → W → Prop} {I : Q → W → Prop}
  {R : α → W → Prop} {E : ε → W → Prop}

theorem guarantees_bind {S : β → W → Prop} {p : Prog Q A ε α} {f : α → Prog Q A ε β} {w : W}
    (hp : p.Guarantees handle G I R E w) (hf : ∀ a w, R a w → (f a).Guarantees handle G I S E w) :
    (p >>= f).Guarantees handle G I S E w := by
  induction p generalizing w with
  | done a => exact hf a w hp
  | fail e => exact hp
  | ask q next ih => exact ⟨hp.1, fun answer hG => ih _ (hp.2 answer hG)⟩

theorem guarantees_attempt {S : Except ε α → W → Prop} {E' : ε → W → Prop} {p : Prog Q A ε α} {w : W}
    (hp : p.Guarantees handle G I R E w) (hok : ∀ a w, R a w → S (.ok a) w)
    (hfail : ∀ e w, E e w → S (.error e) w) : p.attempt.Guarantees handle G I S E' w := by
  induction p generalizing w with
  | done a => exact hok a w hp
  | fail e => exact hfail e w hp
  | ask q next ih => exact ⟨hp.1, fun answer hG => ih _ (hp.2 answer hG)⟩

end Guarantees

end Prog

/-! ### Several programs at once -/

/-- Programs under way, and the world they share. -/
structure Pool (Q : Type) (A : Q → Type) (ε α W : Type) where
  running : List (Prog Q A ε α)
  world : W

namespace Pool
variable {Q : Type} {A : Q → Type} {ε α W : Type} (handle : (q : Q) → W → A q × W)

/-- The program in place `i` gets its next answer. -/
def turn (s : Pool Q A ε α W) (i : ℕ) : Option (Pool Q A ε α W) :=
  match s.running[i]? with
  | some (.ask q next) =>
    some ⟨s.running.set i (next (handle q s.world).1), (handle q s.world).2⟩
  | _ => none

def start (s : Pool Q A ε α W) (p : Prog Q A ε α) : Pool Q A ε α W :=
  { s with running := s.running ++ [p] }

variable {handle}

/-- A turn is one question of one of the programs. -/
theorem turn_eq_some {s t : Pool Q A ε α W} {i : ℕ} : s.turn handle i = some t ↔
    ∃ q next, s.running[i]? = some (.ask q next) ∧
      t = ⟨s.running.set i (next (handle q s.world).1), (handle q s.world).2⟩ := by
  unfold turn
  split
  · rename_i q next h
    simp only [h, Option.some.injEq, Prog.ask.injEq]
    constructor
    · rintro rfl
      exact ⟨q, next, ⟨rfl, HEq.rfl⟩, rfl⟩
    · rintro ⟨q', next', ⟨rfl, hnext⟩, rfl⟩
      rw [eq_of_heq hnext]
  · rename_i h
    simp only [reduceCtorEq, false_iff]
    rintro ⟨q, next, hi, -⟩
    exact h q next hi

/-- What every program may ask is kept by a turn. -/
theorem only_turn {P : Q → Prop} {s t : Pool Q A ε α W} {i : ℕ}
    (hs : ∀ p ∈ s.running, p.Only P) (h : s.turn handle i = some t) :
    ∀ p ∈ t.running, p.Only P := by
  obtain ⟨q, next, hi, rfl⟩ := turn_eq_some.mp h
  intro p hp
  rcases List.mem_or_eq_of_mem_set hp with hp | rfl
  · exact hs p hp
  · exact (hs _ (List.mem_of_getElem? hi)).2 _

end Pool

end Remembra
