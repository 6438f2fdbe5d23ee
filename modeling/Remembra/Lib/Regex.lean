import Mathlib.Tactic.Common

/-! Regular expressions the way a backtracking matcher reads them: the ways to match at a position
    are tried in order (the left alternative first, a repetition as often as it can), and the first
    one that works is the match. Global replacement goes through the text from the left, and its
    matches do not overlap. -/

namespace Remembra

inductive Regex where
  | empty
  /-- One character of a class. -/
  | char (p : Char → Bool)
  | seq (r s : Regex)
  | alt (r s : Regex)
  /-- `{min,max}`, as often as possible. -/
  | rep (r : Regex) (min : ℕ) (max : Option ℕ)
  /-- Asks something of the characters before and after the position. -/
  | between (p : Option Char → Option Char → Bool)

namespace Regex

/-- A position in a text: what is before it, the nearest character first, and what is left. -/
structure Pos where
  before : List Char
  rest : List Char

def Pos.next (p : Pos) : Option (Char × Pos) :=
  match p.rest with
  | [] => none
  | c :: rest => some (c, ⟨c :: p.before, rest⟩)

/-- The ends of a repetition, the longest first. A round beyond `min` has to take something. -/
def repeated (ends : Pos → List Pos) : ℕ → ℕ → Option ℕ → Pos → List Pos
  | 0, min, _, p => if min = 0 then [p] else []
  | fuel + 1, min, max, p =>
    let rounds := if max = some 0 then [] else
      (ends p).filter fun q => 0 < min || q.rest.length < p.rest.length
    rounds.flatMap (repeated ends fuel (min - 1) (max.map (· - 1))) ++ if min = 0 then [p] else []

/-- Where a match that starts at the position can end, in the order the matcher tries. -/
def ends : Regex → Pos → List Pos
  | empty, p => [p]
  | char f, p => match p.next with
    | some (c, q) => if f c then [q] else []
    | none => []
  | seq r s, p => (r.ends p).flatMap s.ends
  | alt r s, p => r.ends p ++ s.ends p
  | rep r min max, p => repeated r.ends (p.rest.length + min) min max p
  | between f, p => if f p.before.head? p.rest.head? then [p] else []

/-- Where the match at the position ends. -/
def matchAt (r : Regex) (p : Pos) : Option Pos := (r.ends p).head?

/-- Some position from here on starts a match. -/
def testFrom (r : Regex) : List Char → List Char → Bool
  | before, [] => (r.matchAt ⟨before, []⟩).isSome
  | before, c :: rest => (r.matchAt ⟨before, c :: rest⟩).isSome || testFrom r (c :: before) rest

/-- `test`, from the start of the text. -/
def test (r : Regex) (s : String) : Bool := r.testFrom [] s.toList

/-- `replace` with a global expression that matches no empty text: the text of each match is handed
    to `f`. -/
def replaceFrom (r : Regex) (f : List Char → List Char) : ℕ → Pos → List Char
  | 0, p => p.rest
  | fuel + 1, p =>
    match p.next with
    | none => []
    | some (c, q) =>
      match r.matchAt p with
      | some e =>
        if e.rest.length < p.rest.length then
          f (p.rest.take (p.rest.length - e.rest.length)) ++ replaceFrom r f fuel e
        else c :: replaceFrom r f fuel q
      | none => c :: replaceFrom r f fuel q

def replaceAll (r : Regex) (f : String → String) (s : String) : String :=
  .ofList (r.replaceFrom (fun l => (f (.ofList l)).toList) s.length ⟨[], s.toList⟩)

/-! ### Matches -/

theorem repeated_suffix {f : Pos → List Pos} (hf : ∀ p, ∀ q ∈ f p, q.rest <:+ p.rest) :
    ∀ (fuel min : ℕ) (max : Option ℕ) (p : Pos), ∀ q ∈ repeated f fuel min max p, q.rest <:+ p.rest
  | 0, min, _, p, q, h => by
    unfold repeated at h
    split at h
    · exact List.mem_singleton.mp h ▸ List.suffix_refl _
    · cases h
  | fuel + 1, min, max, p, q, h => by
    unfold repeated at h
    rcases List.mem_append.mp h with h | h
    · obtain ⟨e, he, hq⟩ := List.mem_flatMap.mp h
      have hround : e ∈ f p := by
        split at he
        · cases he
        · exact (List.mem_filter.mp he).1
      exact (repeated_suffix hf fuel _ _ e q hq).trans (hf p e hround)
    · split at h
      · exact List.mem_singleton.mp h ▸ List.suffix_refl _
      · cases h

/-- What is left after a match is the end of what was left before it. -/
theorem ends_suffix (r : Regex) (p : Pos) : ∀ q ∈ r.ends p, q.rest <:+ p.rest := by
  induction r generalizing p with
  | empty =>
    intro q hq
    exact List.mem_singleton.mp hq ▸ List.suffix_refl _
  | char f =>
    intro q hq
    obtain ⟨before, rest⟩ := p
    cases rest with
    | nil => cases hq
    | cons c rest =>
      unfold ends Pos.next at hq
      dsimp only at hq
      split at hq
      · rw [List.mem_singleton.mp hq]
        exact List.suffix_cons c rest
      · cases hq
  | seq r s hr hs =>
    intro q hq
    obtain ⟨e, he, hq⟩ := List.mem_flatMap.mp hq
    exact (hs e q hq).trans (hr p e he)
  | alt r s hr hs =>
    intro q hq
    rcases List.mem_append.mp hq with hq | hq
    · exact hr p q hq
    · exact hs p q hq
  | rep r min max hr => exact repeated_suffix hr _ _ _ p
  | between f =>
    intro q hq
    unfold ends at hq
    split at hq
    · exact List.mem_singleton.mp hq ▸ List.suffix_refl _
    · cases hq

theorem matchAt_suffix {r : Regex} {p e : Pos} (h : r.matchAt p = some e) : e.rest <:+ p.rest :=
  ends_suffix r p e (List.mem_of_mem_head? h)

section Removal
variable (r : Regex) (accept : List Char → Bool)

/-- Taking out the matches that are accepted makes no text longer. -/
theorem length_removed_le (fuel : ℕ) (p : Pos) :
    (r.replaceFrom (fun m => if accept m then [] else m) fuel p).length ≤ p.rest.length := by
  induction fuel generalizing p with
  | zero => exact Nat.le_refl _
  | succ fuel ih =>
    obtain ⟨before, rest⟩ := p
    cases rest with
    | nil => exact Nat.le_refl _
    | cons c rest =>
      unfold replaceFrom Pos.next
      dsimp only
      have hskip := ih ⟨c :: before, rest⟩
      split
      · rename_i e _
        have hrest := ih e
        split_ifs
        · simp only [List.nil_append, List.length_cons] at *
          omega
        · simp only [List.length_append, List.length_take, List.length_cons] at *
          omega
        · simpa using hskip
      · simpa using hskip

/-- Where that changes nothing, no match is accepted, so nothing is replaced by anything else. -/
theorem replaceFrom_of_removed (g : List Char → List Char) (fuel : ℕ) (p : Pos)
    (h : r.replaceFrom (fun m => if accept m then [] else m) fuel p = p.rest) :
    r.replaceFrom (fun m => if accept m then g m else m) fuel p = p.rest := by
  induction fuel generalizing p with
  | zero => rfl
  | succ fuel ih =>
    obtain ⟨before, rest⟩ := p
    cases rest with
    | nil => rfl
    | cons c rest =>
      unfold replaceFrom Pos.next at h ⊢
      dsimp only at h ⊢
      split at h
      · rename_i e hmatch
        obtain ⟨taken, htaken⟩ : e.rest <:+ c :: rest := matchAt_suffix hmatch
        have hlength := length_removed_le r accept fuel e
        split_ifs at h ⊢
        · rename_i hshorter _
          rw [List.nil_append] at h
          rw [h] at hlength
          omega
        · have htake : (c :: rest).take ((c :: rest).length - e.rest.length) = taken := by
            rw [← htaken, List.length_append, Nat.add_sub_cancel, List.take_left]
          rw [htake] at h ⊢
          rw [← htaken] at h ⊢
          rw [ih e (List.append_cancel_left h)]
        · rw [ih ⟨c :: before, rest⟩ (List.cons_inj_right c |>.mp h)]
      · rw [ih ⟨c :: before, rest⟩ (List.cons_inj_right c |>.mp h)]

end Removal

/-! ### Pieces of expressions -/

/-- A text as it stands. -/
def lit (s : String) : Regex := s.toList.foldr (fun c r => seq (char (· = c)) r) empty

/-- A text in either case. -/
def litI (s : String) : Regex :=
  s.toList.foldr (fun c r => seq (char fun d => d.toLower = c.toLower) r) empty

/-- One of several, the first that works. -/
def oneOf : List Regex → Regex
  | [] => char fun _ => false
  | [r] => r
  | r :: rs => alt r (oneOf rs)

/-- One after another. -/
def all (rs : List Regex) : Regex := rs.foldr seq empty

def opt (r : Regex) : Regex := rep r 0 (some 1)
def star (r : Regex) : Regex := rep r 0 none
def plus (r : Regex) : Regex := rep r 1 none
def times (r : Regex) (n : ℕ) : Regex := rep r n (some n)
def atLeast (r : Regex) (n : ℕ) : Regex := rep r n none
def upTo (r : Regex) (min max : ℕ) : Regex := rep r min (some max)

/-- `\w` -/
def isWord (c : Char) : Bool := c.isAlphanum || c = '_'

/-- `\s` -/
def isSpace (c : Char) : Bool :=
  (9 ≤ c.toNat && c.toNat ≤ 13) || (0x2000 ≤ c.toNat && c.toNat ≤ 0x200a) ||
    c.toNat ∈ [0x20, 0xa0, 0x1680, 0x2028, 0x2029, 0x202f, 0x205f, 0x3000, 0xfeff]

def digit : Regex := char Char.isDigit
def space : Regex := char isSpace

/-- `\b` -/
def boundary : Regex := between fun before after => before.any isWord != after.any isWord

/-- `(?<=^|\s)` -/
def afterSpace : Regex := between fun before _ => before.all isSpace

end Regex

end Remembra
