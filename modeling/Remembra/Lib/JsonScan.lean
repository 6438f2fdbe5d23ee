import Remembra.Lib.Json

/-! What a reader of JSON accepts keeps its brackets balanced outside of its strings. This tells apart what
    is a text from what is cut out of one: a piece that begins in the middle of a string, that closes its
    first bracket before its end, or that has something before an object, is not a text
    (`parse_inside`, `parse_closed`, `parse_wrapped`). -/

namespace Remembra.Json
open Js

variable {N : Type*}

/-! ### What is read keeps its brackets balanced -/

/-- Where a scan of a text stands. -/
inductive Mode where
  | outside | inside | escaped
  deriving DecidableEq

/-- What may stand outside of a string, besides brackets. -/
def isOutside (c : Char) : Bool :=
  isBlank c || isNumberChar c || c ∈ [',', ':', 'n', 'u', 'l', 't', 'r', 'f', 'a', 's']

/-- One character of a scan, which counts the open brackets; a text that is not nested has none. -/
def step (nested : Bool) : Mode × ℕ → Char → Option (Mode × ℕ)
  | (.outside, d), c =>
    if c = '"' then some (.inside, d)
    else if c = '[' ∨ c = '\x7b' then if nested then some (.outside, d + 1) else none
    else if c = ']' ∨ c = '\x7d' then if nested ∧ 0 < d then some (.outside, d - 1) else none
    else if isOutside c then some (.outside, d) else none
  | (.inside, d), c =>
    if c = '"' then some (.outside, d) else if c = '\\' then some (.escaped, d) else some (.inside, d)
  | (.escaped, d), c => if c = 'u' ∨ (escapes.lookup c).isSome = true then some (.inside, d) else none

def scan (nested : Bool) (s : Mode × ℕ) (l : List Char) : Option (Mode × ℕ) := l.foldlM (step nested) s

/-- Every bracket that is opened is closed, and no other one. -/
def Balanced (nested : Bool) (l : List Char) : Prop :=
  ∀ d, scan nested (.outside, d) l = some (.outside, d)

section Scan
variable {nested : Bool} {s t : Mode × ℕ} {x y l r w : List Char} {c : Char} {d e : ℕ}

theorem scan_cons : scan nested s (c :: l) = (step nested s c).bind fun s => scan nested s l := rfl

theorem scan_append : scan nested s (x ++ y) = (scan nested s x).bind fun s => scan nested s y :=
  List.foldlM_append

theorem scan_append_eq_some : scan nested s (x ++ y) = some t ↔
    ∃ u, scan nested s x = some u ∧ scan nested u y = some t := by
  rw [scan_append, Option.bind_eq_some_iff]

theorem Balanced.append (hx : Balanced nested x) (hy : Balanced nested y) : Balanced nested (x ++ y) := by
  intro d
  rw [scan_append, hx d]
  exact hy d

theorem step_isOutside (hc : isOutside c = true) : step nested (.outside, d) c = some (.outside, d) := by
  have hnone : ∀ e ∈ ['"', '[', '\x7b', ']', '\x7d'], isOutside e = false :=
    List.forall_iff_forall_mem.mp (by decide)
  have hne : ∀ e ∈ ['"', '[', '\x7b', ']', '\x7d'], c ≠ e := by
    rintro e he rfl
    rw [hnone c he] at hc
    cases hc
  simp [step, hne _, hc]

theorem balanced_of_outside (h : ∀ c ∈ l, isOutside c = true) : Balanced nested l := by
  intro d
  induction l with
  | nil => rfl
  | cons c l ih =>
    rw [scan_cons, step_isOutside (h c List.mem_cons_self)]
    exact ih fun e he => h e (List.mem_cons_of_mem _ he)

theorem Blank.balanced (hw : Blank w) : Balanced nested w :=
  balanced_of_outside fun c hc => by simp [isOutside, hw c hc]

theorem balanced_cons (hc : isOutside c = true) (hl : Balanced nested l) : Balanced nested (c :: l) :=
  (balanced_of_outside (l := [c]) fun e he => by rw [List.mem_singleton.mp he]; exact hc).append hl

/-- A text between two brackets. -/
theorem Balanced.bracketed (hl : Balanced true l) {a b : Char} (hab : (a, b) ∈ [('[', ']'), ('\x7b', '\x7d')]) :
    Balanced true (a :: (l ++ [b])) := by
  intro d
  have ha : step true (.outside, d) a = some (.outside, d + 1) := by
    simp only [List.mem_cons, Prod.mk.injEq, List.not_mem_nil, or_false] at hab
    rcases hab with ⟨rfl, -⟩ | ⟨rfl, -⟩ <;> simp [step]
  have hb : step true (.outside, d + 1) b = some (.outside, d) := by
    simp only [List.mem_cons, Prod.mk.injEq, List.not_mem_nil, or_false] at hab
    rcases hab with ⟨-, rfl⟩ | ⟨-, rfl⟩ <;> simp [step]
  rw [scan_cons, ha, Option.bind_some, scan_append, hl (d + 1), Option.bind_some, scan_cons, hb]
  rfl

/-- A text without brackets may stand in one with them. -/
theorem scan_nested (h : scan false s l = some t) : scan true s l = some t := by
  have hstep (s t : Mode × ℕ) (c : Char) (h : step false s c = some t) : step true s c = some t := by
    obtain ⟨mode, d⟩ := s
    cases mode with
    | outside =>
      simp only [step] at h ⊢
      split_ifs at h ⊢ with h₁ h₂ h₃ h₄ h₅ <;> simp_all
    | inside => exact h
    | escaped => exact h
  induction l generalizing s with
  | nil => exact h
  | cons c l ih =>
    rw [scan_cons, Option.bind_eq_some_iff] at h ⊢
    obtain ⟨u, hu, hl⟩ := h
    exact ⟨u, hstep s u c hu, ih hl⟩

/-- A scan with more open brackets before it. -/
theorem scan_shift {m q : Mode} (h : scan true (m, d) l = some (q, e)) (k : ℕ) :
    scan true (m, d + k) l = some (q, e + k) := by
  have hstep (m q : Mode) (d e : ℕ) (c : Char) (h : step true (m, d) c = some (q, e)) :
      step true (m, d + k) c = some (q, e + k) := by
    cases m with
    | outside =>
      simp only [step] at h ⊢
      split_ifs at h ⊢ <;> simp_all <;> omega
    | inside =>
      simp only [step] at h ⊢
      split_ifs at h ⊢ <;> simp_all
    | escaped =>
      simp only [step] at h ⊢
      split_ifs at h ⊢ <;> simp_all
  induction l generalizing m d with
  | nil =>
    obtain ⟨rfl, rfl⟩ := Prod.mk.inj (Option.some.inj h)
    rfl
  | cons c l ih =>
    rw [scan_cons, Option.bind_eq_some_iff] at h ⊢
    obtain ⟨⟨u, f⟩, hu, hl⟩ := h
    exact ⟨(u, f + k), hstep m u d f c hu, ih hl⟩

/-- Of two scans of one text, one that starts inside of a string and one that starts outside, always one
    is inside and one outside: neither meets an escape. -/
theorem scan_flip {nested' : Bool} {m q m' q' : Mode} {d' e' : ℕ}
    (hm : m = .inside ∧ m' = .outside ∨ m = .outside ∧ m' = .inside)
    (h : scan nested (m, d) l = some (q, e)) (h' : scan nested' (m', d') l = some (q', e')) :
    q = .inside ∧ q' = .outside ∨ q = .outside ∧ q' = .inside := by
  have hstep (nested nested' : Bool) (d d' : ℕ) (u u' : Mode × ℕ) (c : Char)
      (h : step nested (.inside, d) c = some u) (h' : step nested' (.outside, d') c = some u') :
      u.1 = .inside ∧ u'.1 = .outside ∨ u.1 = .outside ∧ u'.1 = .inside := by
    have hslash : step nested' (.outside, d') '\\' = none := by
      simp [step, isOutside, isBlank, isNumberChar]
    by_cases hc : c = '\\'
    · rw [hc, hslash] at h'
      cases h'
    · simp only [step] at h h'
      split_ifs at h h' <;> simp_all <;> subst_vars <;> simp
  induction l generalizing m m' d d' with
  | nil =>
    obtain ⟨rfl, rfl⟩ := Prod.mk.inj (Option.some.inj h)
    obtain ⟨rfl, rfl⟩ := Prod.mk.inj (Option.some.inj h')
    exact hm
  | cons c l ih =>
    rw [scan_cons, Option.bind_eq_some_iff] at h h'
    obtain ⟨⟨u, f⟩, hu, hl⟩ := h
    obtain ⟨⟨u', f'⟩, hu', hl'⟩ := h'
    refine ih ?_ hl hl'
    rcases hm with ⟨rfl, rfl⟩ | ⟨rfl, rfl⟩
    · exact hstep _ _ _ _ _ _ c hu hu'
    · exact (hstep _ _ _ _ _ _ c hu' hu).symm.imp And.symm And.symm

end Scan

/-- A piece of a string: a scan goes through it without leaving the string. -/
def Within (l : List Char) : Prop := ∀ nested d, scan nested (.inside, d) l = some (.inside, d)

section Soundness
variable {number : List Char → N} {x y l r w : List Char} {c : Char} {fuel : ℕ}

theorem Within.append (hx : Within x) (hy : Within y) : Within (x ++ y) := by
  intro nested d
  rw [scan_append, hx nested d]
  exact hy nested d

theorem within_plain (h : c ≠ '"' ∧ c ≠ '\\') : Within [c] := by
  intro nested d
  simp [step, h.1, h.2, scan]

theorem within_hex {a b c d : Char} {n : ℕ} (h : hex4 a b c d = some n) : Within [a, b, c, d] := by
  have hdigit (e : Char) (he : hexDigit e ≠ none) : e ≠ '"' ∧ e ≠ '\\' := by
    constructor
    · rintro rfl
      exact he (by decide)
    · rintro rfl
      exact he (by decide)
  have hall : ∀ e ∈ [a, b, c, d], hexDigit e ≠ none := by
    intro e he hnone
    simp only [List.mem_cons, List.not_mem_nil, or_false] at he
    rw [hex4] at h
    rcases he with rfl | rfl | rfl | rfl <;> simp [hnone] at h
  have happend := ((within_plain (hdigit a (hall a (by simp)))).append
    (within_plain (hdigit b (hall b (by simp))))).append
    ((within_plain (hdigit c (hall c (by simp)))).append (within_plain (hdigit d (hall d (by simp)))))
  exact happend

theorem within_escape (h : c = 'u' ∨ (escapes.lookup c).isSome = true) : Within ['\\', c] := by
  intro nested d
  have hmark : step nested (.inside, d) '\\' = some (.escaped, d) := by simp [step]
  have hletter : step nested (.escaped, d) c = some (.inside, d) := if_pos h
  rw [scan_cons, hmark, Option.bind_some, scan_cons, hletter]
  rfl

theorem readLow_eq_some {n : ℕ} (h : readLow l = some (n, r)) : ∃ x, l = x ++ r ∧ Within x := by
  unfold readLow at h
  split at h
  · rename_i e f g k l'
    obtain ⟨m, hm, heq⟩ := Option.map_eq_some_iff.mp h
    obtain ⟨rfl, rfl⟩ := Prod.mk.inj heq
    exact ⟨['\\', 'u', e, f, g, k], rfl,
      (within_escape (.inl rfl)).append (within_hex (Option.filter_eq_some_iff.mp hm).1)⟩
  · cases h

theorem readUnit_eq_some (h : readUnit l = some (c, r)) : ∃ x, l = x ++ r ∧ Within x := by
  unfold readUnit at h
  split at h
  · rename_i a b e f l'
    obtain ⟨n, hn, heq⟩ := Option.map_eq_some_iff.mp h
    split at heq
    · rename_i low l'' hlow
      obtain ⟨-, rfl⟩ := Prod.mk.inj heq
      split_ifs at hlow
      obtain ⟨x, rfl, hx⟩ := readLow_eq_some hlow
      exact ⟨[a, b, e, f] ++ x, rfl, (within_hex hn).append hx⟩
    · obtain ⟨-, rfl⟩ := Prod.mk.inj heq
      exact ⟨[a, b, e, f], rfl, within_hex hn⟩
  · cases h

theorem readChar_eq_some (h : readChar l = some (c, r)) : ∃ x, l = x ++ r ∧ Within x := by
  cases l with
  | nil => cases h
  | cons e l =>
    rw [readChar] at h
    split_ifs at h with hslash hquote
    · rw [hslash]
      unfold readEscape at h
      split at h
      · obtain ⟨x, rfl, hx⟩ := readUnit_eq_some h
        exact ⟨['\\', 'u'] ++ x, rfl, (within_escape (.inl rfl)).append hx⟩
      · rename_i f l' hne
        obtain ⟨g, hg, heq⟩ := Option.map_eq_some_iff.mp h
        obtain ⟨-, rfl⟩ := Prod.mk.inj heq
        exact ⟨['\\', f], rfl, within_escape (.inr (by rw [hg]; rfl))⟩
      · cases h
    · obtain ⟨rfl, rfl⟩ := Prod.mk.inj (Option.some.inj h)
      exact ⟨[e], rfl, within_plain ⟨fun heq => hquote (.inl heq), hslash⟩⟩

theorem readString_eq_some {s : List Char} (h : readString fuel l = some (s, r)) :
    ∃ x, l = x ++ '"' :: r ∧ Within x := by
  induction fuel generalizing l s with
  | zero => cases h
  | succ fuel ih =>
    rw [readString] at h
    split_ifs at h with hquote
    · obtain ⟨-, rfl⟩ := Prod.mk.inj (Option.some.inj h)
      cases l with
      | nil => cases hquote
      | cons c l =>
        obtain rfl : c = '"' := Option.some.inj hquote
        exact ⟨[], rfl, fun nested d => rfl⟩
    · obtain ⟨⟨c, l'⟩, hchar, h⟩ := Option.bind_eq_some_iff.mp h
      obtain ⟨⟨s', r'⟩, hrest, heq⟩ := Option.map_eq_some_iff.mp h
      obtain ⟨-, rfl⟩ := Prod.mk.inj heq
      obtain ⟨x, rfl, hx⟩ := readChar_eq_some hchar
      obtain ⟨y, rfl, hy⟩ := ih hrest
      exact ⟨x ++ y, by simp, hx.append hy⟩

/-- A string is balanced, and has no brackets outside. -/
theorem Within.balanced (hx : Within x) (nested : Bool) : Balanced nested ('"' :: (x ++ ['"'])) := by
  intro d
  have hopen : step nested (.outside, d) '"' = some (.inside, d) := by simp [step]
  have hclose : step nested (.inside, d) '"' = some (.outside, d) := by simp [step]
  rw [scan_cons, hopen, Option.bind_some, scan_append, hx nested d, Option.bind_some, scan_cons, hclose]
  rfl

theorem readScalar_eq_some {v : Value N} (h : readScalar number l = some (v, r)) :
    ∃ x, l = x ++ r ∧ ∀ c ∈ x, isOutside c = true := by
  have hword (word : String) (n : ℕ) (hn : n = word.toList.length)
      (hword : ∀ c ∈ word.toList, isOutside c = true) (hbegins : word.toList.isPrefixOf l = true)
      (hr : l.drop n = r) : ∃ x, l = x ++ r ∧ ∀ c ∈ x, isOutside c = true := by
    obtain ⟨t, rfl⟩ := List.isPrefixOf_iff_prefix.mp hbegins
    rw [hn, List.drop_left] at hr
    exact ⟨word.toList, by rw [hr], hword⟩
  rw [readScalar] at h
  split_ifs at h with hnull htrue hfalse hnumber
  · exact hword "null" 4 rfl (List.forall_iff_forall_mem.mp (by decide)) hnull (Prod.mk.inj (Option.some.inj h)).2
  · exact hword "true" 4 rfl (List.forall_iff_forall_mem.mp (by decide)) htrue (Prod.mk.inj (Option.some.inj h)).2
  · exact hword "false" 5 rfl (List.forall_iff_forall_mem.mp (by decide)) hfalse (Prod.mk.inj (Option.some.inj h)).2
  · obtain ⟨-, rfl⟩ := Prod.mk.inj (Option.some.inj h)
    refine ⟨l.takeWhile isNumberChar, List.takeWhile_append_dropWhile.symm, fun c hc => ?_⟩
    simp [isOutside, List.mem_takeWhile_imp hc]

/-- What a value has been read from. -/
inductive Consumed : List Char → Prop
  | scalar {x : List Char} (h : Balanced false x) : Consumed x
  | array {y : List Char} (h : Balanced true y) : Consumed ('[' :: (y ++ [']']))
  | object {y : List Char} (h : Balanced true y) : Consumed ('\x7b' :: (y ++ ['\x7d']))

theorem Consumed.balanced (h : Consumed x) : Balanced true x := by
  cases h with
  | scalar h => exact fun d => scan_nested (h d)
  | array h => exact h.bracketed (by simp)
  | object h => exact h.bracketed (by simp)

theorem exists_skip (l : List Char) : ∃ w, l = w ++ skip l ∧ Blank w := by
  refine ⟨l.takeWhile isBlank, List.takeWhile_append_dropWhile.symm, fun c hc => ?_⟩
  exact List.mem_takeWhile_imp hc

/-- What a reader leaves behind something and blanks. -/
theorem exists_of_skip {c : Char} (h : skip l = c :: r) : ∃ w, l = w ++ c :: r ∧ Blank w := by
  obtain ⟨w, hl, hw⟩ := exists_skip l
  exact ⟨w, by rw [← h]; exact hl, hw⟩

mutual

theorem readValue_eq_some : ∀ {fuel : ℕ} {l r : List Char} {v : Value N},
    readValue number fuel l = some (v, r) → ∃ x, l = x ++ r ∧ Consumed x
  | 0, _, _, _, h => by cases h
  | fuel + 1, [], r, v, h => by
    rw [readValue_scalar (by simp)] at h
    obtain ⟨x, hx, hall⟩ := readScalar_eq_some h
    exact ⟨x, hx, .scalar (balanced_of_outside hall)⟩
  | fuel + 1, c :: l, r, v, h => by
    by_cases hquote : c = '"'
    · subst hquote
      rw [readValue] at h
      obtain ⟨⟨s, r'⟩, hread, heq⟩ := Option.map_eq_some_iff.mp h
      obtain ⟨-, rfl⟩ := Prod.mk.inj heq
      obtain ⟨x, rfl, hx⟩ := readString_eq_some hread
      exact ⟨'"' :: (x ++ ['"']), by simp, .scalar (hx.balanced false)⟩
    · by_cases hbracket : c = '['
      · subst hbracket
        obtain ⟨w, hl, hw⟩ := exists_skip l
        rw [readValue] at h
        split_ifs at h with hend
        · obtain ⟨-, rfl⟩ := Prod.mk.inj (Option.some.inj h)
          cases hskip : skip l with
          | nil => rw [hskip] at hend; cases hend
          | cons c r =>
            rw [hskip] at hend hl
            obtain rfl : c = ']' := Option.some.inj hend
            exact ⟨'[' :: (w ++ [']']), by rw [hl]; simp, .array hw.balanced⟩
        · obtain ⟨⟨items, r'⟩, hread, heq⟩ := Option.map_eq_some_iff.mp h
          obtain ⟨-, rfl⟩ := Prod.mk.inj heq
          obtain ⟨y, hy, hbalanced⟩ := readItems_eq_some hread
          rw [hy] at hl
          exact ⟨'[' :: ((w ++ y) ++ [']']), by rw [hl]; simp, .array (hw.balanced.append hbalanced)⟩
      · by_cases hbrace : c = '\x7b'
        · subst hbrace
          obtain ⟨w, hl, hw⟩ := exists_skip l
          rw [readValue] at h
          split_ifs at h with hend
          · obtain ⟨-, rfl⟩ := Prod.mk.inj (Option.some.inj h)
            cases hskip : skip l with
            | nil => rw [hskip] at hend; cases hend
            | cons c r =>
              rw [hskip] at hend hl
              obtain rfl : c = '\x7d' := Option.some.inj hend
              exact ⟨'\x7b' :: (w ++ ['\x7d']), by rw [hl]; simp, .object hw.balanced⟩
          · obtain ⟨⟨fields, r'⟩, hread, heq⟩ := Option.map_eq_some_iff.mp h
            obtain ⟨-, rfl⟩ := Prod.mk.inj heq
            obtain ⟨y, hy, hbalanced⟩ := readMembers_eq_some hread
            rw [hy] at hl
            exact ⟨'\x7b' :: ((w ++ y) ++ ['\x7d']), by rw [hl]; simp,
              .object (hw.balanced.append hbalanced)⟩
        · rw [readValue_scalar (by simp [hquote, hbracket, hbrace])] at h
          obtain ⟨x, hx, hall⟩ := readScalar_eq_some h
          exact ⟨x, hx, .scalar (balanced_of_outside hall)⟩

theorem readItems_eq_some : ∀ {fuel : ℕ} {l r : List Char} {items : List (Value N)},
    readItems number fuel l = some (items, r) → ∃ y, l = y ++ ']' :: r ∧ Balanced true y
  | 0, _, _, _, h => by cases h
  | fuel + 1, l, r, items, h => by
    rw [readItems] at h
    obtain ⟨⟨item, l'⟩, hread, hnext⟩ := Option.bind_eq_some_iff.mp h
    obtain ⟨x, rfl, hx⟩ := readValue_eq_some hread
    dsimp only at hnext
    split at hnext
    · rename_i l'' hskip
      obtain ⟨⟨rest, r'⟩, hrest, heq⟩ := Option.map_eq_some_iff.mp hnext
      obtain ⟨-, rfl⟩ := Prod.mk.inj heq
      obtain ⟨w, rfl, hw⟩ := exists_of_skip hskip
      obtain ⟨w', hl, hw'⟩ := exists_skip l''
      obtain ⟨y, hy, hbalanced⟩ := readItems_eq_some hrest
      rw [hy] at hl
      refine ⟨x ++ (w ++ (',' :: (w' ++ y))), by rw [hl]; simp, hx.balanced.append (hw.balanced.append ?_)⟩
      exact balanced_cons (by decide) (hw'.balanced.append hbalanced)
    · rename_i l'' hskip
      obtain ⟨-, rfl⟩ := Prod.mk.inj (Option.some.inj hnext)
      obtain ⟨w, rfl, hw⟩ := exists_of_skip hskip
      exact ⟨x ++ w, by simp, hx.balanced.append hw.balanced⟩
    · cases hnext

theorem readMembers_eq_some : ∀ {fuel : ℕ} {l r : List Char} {fields : List (String × Value N)},
    readMembers number fuel l = some (fields, r) → ∃ y, l = y ++ '\x7d' :: r ∧ Balanced true y
  | 0, _, _, _, h => by
    rw [readMembers] at h
    · cases h
    · simp
  | fuel + 1, [], _, _, h => by
    rw [readMembers] at h
    · cases h
    · simp
  | fuel + 1, c :: l, r, fields, h => by
    by_cases hquote : c = '"'
    · subst hquote
      rw [readMembers] at h
      obtain ⟨⟨key, l'⟩, hkey, hcolon⟩ := Option.bind_eq_some_iff.mp h
      obtain ⟨k, rfl, hk⟩ := readString_eq_some hkey
      dsimp only at hcolon
      split at hcolon
      · rename_i l'' hskip
        obtain ⟨⟨value, t⟩, hread, hnext⟩ := Option.bind_eq_some_iff.mp hcolon
        obtain ⟨w₁, rfl, hw₁⟩ := exists_of_skip hskip
        obtain ⟨w₂, hl, hw₂⟩ := exists_skip l''
        obtain ⟨x, hx, hconsumed⟩ := readValue_eq_some hread
        rw [hx] at hl
        have hfront : Balanced true ('"' :: (k ++ ['"']) ++ (w₁ ++ (':' :: (w₂ ++ x)))) :=
          (hk.balanced true).append (hw₁.balanced.append
            (balanced_cons (by decide) (hw₂.balanced.append hconsumed.balanced)))
        dsimp only at hnext
        split at hnext
        · rename_i t' hskip
          obtain ⟨⟨rest, r'⟩, hrest, heq⟩ := Option.map_eq_some_iff.mp hnext
          obtain ⟨-, rfl⟩ := Prod.mk.inj heq
          obtain ⟨w, rfl, hw⟩ := exists_of_skip hskip
          obtain ⟨w', ht, hw'⟩ := exists_skip t'
          obtain ⟨y, hy, hbalanced⟩ := readMembers_eq_some hrest
          rw [hy] at ht
          refine ⟨'"' :: (k ++ ['"']) ++ (w₁ ++ (':' :: (w₂ ++ x))) ++ (w ++ (',' :: (w' ++ y))),
            by rw [hl, ht]; simp, hfront.append (hw.balanced.append ?_)⟩
          exact balanced_cons (by decide) (hw'.balanced.append hbalanced)
        · rename_i t' hskip
          obtain ⟨-, rfl⟩ := Prod.mk.inj (Option.some.inj hnext)
          obtain ⟨w, rfl, hw⟩ := exists_of_skip hskip
          exact ⟨'"' :: (k ++ ['"']) ++ (w₁ ++ (':' :: (w₂ ++ x))) ++ w, by rw [hl]; simp,
            hfront.append hw.balanced⟩
        · cases hnext
      · cases hcolon
    · rw [readMembers] at h
      · cases h
      · simpa using hquote

end

/-- What is parsed is the text of a value between blanks. -/
theorem parse_eq_some {v : Value N} (h : parse number l = some v) :
    ∃ w x w', l = w ++ (x ++ w') ∧ Blank w ∧ Consumed x ∧ Blank w' := by
  rw [parse] at h
  split at h
  · rename_i v' r hread
    split_ifs at h with hblank
    obtain ⟨w, hl, hw⟩ := exists_skip l
    obtain ⟨x, hx, hconsumed⟩ := readValue_eq_some hread
    rw [hx] at hl
    exact ⟨w, x, r, hl, hw, hconsumed, List.all_eq_true.mp hblank⟩
  · cases h

/-! ### Texts are balanced -/

theorem consumed_isText {v : Value N} (h : IsText number v x) : Consumed x := by
  have hread := readValue_text v x (2 * x.length) [] h (le_refl _) (fun c hc => by cases hc)
  obtain ⟨y, hy, hconsumed⟩ := readValue_eq_some hread
  rw [List.append_nil, List.append_nil] at hy
  exact hy ▸ hconsumed

theorem within_isBody {s : List Char} (h : IsBody s x) : Within x := by
  have hread := readString_isBody _ h (le_refl _) []
  obtain ⟨y, hy, hwithin⟩ := readString_eq_some hread
  rw [List.append_cancel_right_eq] at hy
  exact hy ▸ hwithin

/-- The text of an array is in its brackets. -/
theorem exists_bracketed {items : List (Value N)} (h : IsText number (.array items) x) :
    ∃ y, x = '[' :: (y ++ [']']) ∧ Balanced true y := by
  have hhead : x.head? = some '[' := by
    cases items with
    | nil => obtain ⟨w, rfl, -⟩ := h; rfl
    | cons item items => obtain ⟨w, y, w', r, rfl, -⟩ := h; rfl
  cases consumed_isText h with
  | scalar hscalar =>
    cases x with
    | nil => cases hhead
    | cons c l =>
      obtain rfl : c = '[' := Option.some.inj hhead
      have hnone := hscalar 0
      rw [scan_cons] at hnone
      cases hnone
  | array hy => exact ⟨_, rfl, hy⟩
  | object hy => cases hhead

theorem balanced_isKey {key : String} (h : IsKey key l) : Balanced true l := by
  obtain ⟨w, k, w', w'', rfl, hw, ⟨y, rfl, hy⟩, hw', hw''⟩ := h
  exact hw.balanced.append (((within_isBody hy).balanced true).append
    (hw'.balanced.append (balanced_cons (by decide) hw''.balanced)))

/-- A letter that stands in strings only. -/
def Foreign (c : Char) : Prop := ∀ nested d, step nested (.outside, d) c = none

theorem foreign_of_not {c : Char} (hc : isOutside c = false) (hbracket : c ∉ ['"', '[', '\x7b', ']', '\x7d']) :
    Foreign c := by
  intro nested d
  simp only [List.mem_cons, List.not_mem_nil, or_false, not_or] at hbracket
  simp [step, hc, hbracket]

/-- A key that begins with such a letter has a text that does. -/
theorem exists_isKey {key : String} {s : List Char} (hkey : key.toList = c :: s) (hc : Foreign c)
    (h : IsKey key l) : ∃ w d t, l = w ++ '"' :: d :: t ∧ Blank w ∧ Foreign d := by
  obtain ⟨w, k, w', w'', rfl, hw, ⟨y, rfl, hy⟩, -⟩ := h
  rw [hkey] at hy
  obtain ⟨z, r, rfl, hchar, -⟩ := hy
  cases hchar with
  | plain h => exact ⟨w, c, r ++ ['"'] ++ (w' ++ ':' :: w''), by simp, hw, hc⟩
  | escape h =>
    rename_i e
    exact ⟨w, '\\', [e] ++ r ++ ['"'] ++ (w' ++ ':' :: w''), by simp, hw, foreign_of_not (by decide) (by decide)⟩
  | unit h hhigh hlow =>
    rename_i a b e f n
    exact ⟨w, '\\', ['u', a, b, e, f] ++ r ++ ['"'] ++ (w' ++ ':' :: w''), by simp, hw, foreign_of_not (by decide) (by decide)⟩
  | pair hm hhigh hn hlow =>
    rename_i a b e f a' b' e' f' m n
    exact ⟨w, '\\', ['u', a, b, e, f, '\\', 'u', a', b', e', f'] ++ r ++ ['"'] ++ (w' ++ ':' :: w''),
      by simp, hw, foreign_of_not (by decide) (by decide)⟩

/-- A bracket in the text of a key is one of the key. -/
theorem isKey_notMem {key : String} (hkey : '[' ∉ key.toList) (h : IsKey key l) : '[' ∉ l := by
  have hhex {a b e f : Char} {n : ℕ} (h : hex4 a b e f = some n) : '[' ∉ [a, b, e, f] := by
    have hnone : hexDigit '[' = none := by decide
    intro hmem
    simp only [List.mem_cons, List.not_mem_nil, or_false] at hmem
    rw [hex4] at h
    rcases hmem with rfl | rfl | rfl | rfl <;> simp [hnone] at h
  have hchar {c : Char} {x : List Char} (h : IsChar c x) (hc : '[' ≠ c) : '[' ∉ x := by
    cases h with
    | plain h => simpa using hc
    | escape h =>
      rename_i e
      have hne : '[' ≠ e := by
        rintro rfl
        cases h
      simp [hne]
    | unit h hhigh hlow => simpa using hhex h
    | pair hm hhigh hn hlow =>
      have hm := hhex hm
      have hn := hhex hn
      simp_all
  have hbody {s x : List Char} (h : IsBody s x) (hs : '[' ∉ s) : '[' ∉ x := by
    induction s generalizing x with
    | nil => rw [show x = [] from h]; exact List.not_mem_nil
    | cons c s ih =>
      obtain ⟨y, r, rfl, hy, hr⟩ := h
      rw [List.mem_cons, not_or] at hs
      rw [List.mem_append, not_or]
      exact ⟨hchar hy hs.1, ih hr hs.2⟩
  have hblank {w : List Char} (hw : Blank w) : '[' ∉ w := fun hmem => absurd (hw _ hmem) (by decide)
  obtain ⟨w, k, w', w'', rfl, hw, ⟨y, rfl, hy⟩, hw', hw''⟩ := h
  have hy := hbody hy hkey
  have hw := hblank hw
  have hw' := hblank hw'
  have hw'' := hblank hw''
  simp_all

variable (number) in
/-- The text of an object from its first property up to the value of the one with the key. -/
def IsFront (key : String) : List (String × Value N) → List Char → Prop
  | [], l => IsKey key l
  | (k, v) :: before, l => ∃ kt x w r, l = kt ++ (x ++ (w ++ ',' :: r)) ∧ IsKey k kt ∧
    IsText number v x ∧ Blank w ∧ IsFront key before r

section Front
variable {key : String} {value : Value N} {before after : List (String × Value N)}

theorem areMembers_front (hf : IsFront number key before l) (hx : IsText number value x) (hw : Blank w)
    (hr : AreMembers number after r) :
    AreMembers number (before ++ (key, value) :: after) (',' :: (l ++ (x ++ (w ++ r)))) := by
  induction before generalizing l with
  | nil => exact ⟨l, x, w, r, rfl, hf, hx, hw, hr⟩
  | cons field before ih =>
    obtain ⟨kt, y, w', t, rfl, hkt, hy, hw', ht⟩ := hf
    exact ⟨kt, y, w', ',' :: (t ++ (x ++ (w ++ r))), by simp, hkt, hy, hw', ih ht⟩

/-- The text of an object, with the value of one property in its place. -/
theorem isText_front (hf : IsFront number key before l) (hx : IsText number value x) (hw : Blank w)
    (hr : AreMembers number after r) : IsText number (.object (before ++ (key, value) :: after))
      ('\x7b' :: (l ++ (x ++ (w ++ (r ++ ['\x7d']))))) := by
  cases before with
  | nil => exact ⟨l, x, w, r, rfl, hf, hx, hw, hr⟩
  | cons field before =>
    obtain ⟨kt, y, w', t, rfl, hkt, hy, hw', ht⟩ := hf
    exact ⟨kt, y, w', ',' :: (t ++ (x ++ (w ++ r))), by simp, hkt, hy, hw', areMembers_front ht hx hw hr⟩

/-- The key stands at the end of it. -/
theorem exists_isFront (hf : IsFront number key before l) :
    ∃ z k, l = z ++ k ∧ Balanced true z ∧ IsKey key k := by
  induction before generalizing l with
  | nil => exact ⟨[], l, rfl, fun d => rfl, hf⟩
  | cons field before ih =>
    obtain ⟨kt, y, w', r, rfl, hkt, hy, hw', hr⟩ := hf
    obtain ⟨z, k, rfl, hz, hk⟩ := ih hr
    exact ⟨kt ++ (y ++ (w' ++ ',' :: z)), k, by simp, (balanced_isKey hkt).append
      ((consumed_isText hy).balanced.append (hw'.balanced.append (balanced_cons (by decide) hz))), hk⟩

end Front

/-! ### What is cut out of a text -/

theorem balanced_parse {v : Value N} (h : parse number l = some v) : Balanced true l := by
  obtain ⟨w, x, w', rfl, hw, hx, hw'⟩ := parse_eq_some h
  exact hw.balanced.append (hx.balanced.append hw'.balanced)

variable (number) in
/-- A piece that begins inside of a string, and has a string after it that begins with a foreign letter, is
    not a text of JSON. -/
theorem parse_inside {d e : ℕ} {z : List Char} (t : List Char) (hz : scan true (.inside, d) z = some (.outside, e))
    (hc : Foreign c) : parse number (z ++ '"' :: c :: t) = none := by
  cases h : parse number (z ++ '"' :: c :: t) with
  | none => rfl
  | some v =>
    obtain ⟨⟨q, f⟩, hscan, hrest⟩ := scan_append_eq_some.mp (balanced_parse h 0)
    have hq : q = .inside := by
      rcases scan_flip (.inl ⟨rfl, rfl⟩) hz hscan with ⟨habs, -⟩ | ⟨-, hq⟩
      · cases habs
      · exact hq
    subst hq
    have hopen : step true (.inside, f) '"' = some (.outside, f) := by simp [step]
    rw [scan_cons, hopen, Option.bind_some, scan_cons, hc] at hrest
    cases hrest

/-- A piece that begins with a bracket which is closed before the end of the piece is not a text of JSON. -/
theorem parse_closed {d e : ℕ} {z t : List Char} (hc : c = '[' ∨ c = '\x7b')
    (hz : scan true (.outside, d + 1) z = some (.outside, e)) (he : e ≤ d)
    (ht : ∃ a ∈ t, isBlank a = false) : parse number (c :: (z ++ t)) = none := by
  cases h : parse number (c :: (z ++ t)) with
  | none => rfl
  | some v =>
    obtain ⟨w, x, w', heq, hw, hx, hw'⟩ := parse_eq_some h
    have hblank : isBlank c = false := by rcases hc with rfl | rfl <;> decide
    obtain rfl : w = [] := by
      cases w with
      | nil => rfl
      | cons a w =>
        have ha := hw a List.mem_cons_self
        rw [← (List.cons.inj heq).1, hblank] at ha
        cases ha
    -- what stands before the closing bracket is balanced
    obtain ⟨y, b, rfl, hy⟩ : ∃ y b, x = c :: (y ++ [b]) ∧ Balanced true y := by
      cases hx with
      | scalar hscalar =>
        cases x with
        | nil =>
          rw [List.nil_append, List.nil_append] at heq
          rw [hw' c (heq ▸ List.mem_cons_self)] at hblank
          cases hblank
        | cons a x =>
          obtain rfl : c = a := (List.cons.inj heq).1
          have hnone := hscalar 0
          rw [scan_cons] at hnone
          rcases hc with rfl | rfl <;> cases hnone
      | array hy => exact ⟨_, _, by rw [(List.cons.inj heq).1], hy⟩
      | object hy => exact ⟨_, _, by rw [(List.cons.inj heq).1], hy⟩
    have hsplit : z ++ t = y ++ b :: w' := by simpa using heq
    have hbegins (u : List Char) (hu : y = z ++ u) : False := by
      have hscan := hy 0
      rw [hu] at hscan
      obtain ⟨⟨q, f⟩, hfront, -⟩ := scan_append_eq_some.mp hscan
      have hshift := scan_shift hfront (d + 1)
      rw [Nat.zero_add, hz, Option.some.injEq, Prod.mk.injEq] at hshift
      omega
    rcases List.append_eq_append_iff.mp hsplit with ⟨u, hu, -⟩ | ⟨u, rfl, hu⟩
    · exact (hbegins u hu).elim
    · cases u with
      | nil => exact (hbegins [] (by simp)).elim
      | cons a u =>
        obtain ⟨c, hct, hcblank⟩ := ht
        have hmem : c ∈ w' := by
          rw [(List.cons.inj hu).2]
          exact List.mem_append_right _ hct
        rw [hw' c hmem] at hcblank
        cases hcblank

variable (number) in
/-- Nothing but blanks may stand after what is in brackets. -/
theorem parse_followed {z : List Char} (t : List Char) (hc : c = '[' ∨ c = '\x7b') (hz : Balanced true (c :: z))
    (ht : ∃ a ∈ t, isBlank a = false) : parse number (c :: (z ++ t)) = none := by
  have hopen : step true (.outside, 0) c = some (.outside, 1) := by
    rcases hc with rfl | rfl <;> simp [step]
  have hscan := hz 0
  rw [scan_cons, hopen] at hscan
  exact parse_closed hc hscan (le_refl _) ht

/-- A piece of an object that begins at a bracket before the key of a property is not a text of JSON. -/
theorem parse_cut {key : String} {s k z z' t : List Char} (hz : Balanced true (z ++ '[' :: z'))
    (hkey : key.toList = c :: s) (hc : Foreign c) (hk : IsKey key k) :
    parse number ('[' :: (z' ++ (k ++ t))) = none := by
  obtain ⟨w, d, k, rfl, hw, hd⟩ := exists_isKey hkey hc hk
  obtain ⟨⟨q, f⟩, -, hscan⟩ := scan_append_eq_some.mp (hz 0)
  cases q with
  | outside =>
    have hopen : step true (.outside, f) '[' = some (.outside, f + 1) := by simp [step]
    rw [scan_cons, hopen] at hscan
    exact parse_closed (.inl rfl) hscan (Nat.zero_le f) ⟨'"', by simp, by decide⟩
  | inside =>
    have hinside : scan true (.inside, f) ('[' :: z' ++ w) = some (.outside, 0) :=
      scan_append_eq_some.mpr ⟨_, hscan, hw.balanced 0⟩
    have hnone := parse_inside number (k ++ t) hinside hd
    simpa using hnone
  | escaped =>
    rw [scan_cons] at hscan
    cases hscan

/-- A text that begins with no bracket has none outside of its strings. -/
theorem balanced_front {v : Value N} (hc : isBlank c = false ∧ c ≠ '[' ∧ c ≠ '\x7b')
    (h : parse number (c :: l) = some v) : Balanced false (c :: l) := by
  obtain ⟨hblank, hbracket, hbrace⟩ := hc
  obtain ⟨w, x, w', heq, hw, hx, hw'⟩ := parse_eq_some h
  cases w with
  | nil =>
    cases hx with
    | scalar hscalar =>
      rw [heq]
      exact hw.balanced.append (hscalar.append hw'.balanced)
    | array hy => exact absurd (List.cons.inj heq).1 hbracket
    | object hy => exact absurd (List.cons.inj heq).1 hbrace
  | cons d w =>
    have hd := hw d List.mem_cons_self
    rw [← (List.cons.inj heq).1, hblank] at hd
    cases hd

variable (number) in
/-- An object with something before it that begins with no bracket is not a text of JSON. -/
theorem parse_wrapped (p : List Char) {z t : List Char} {a : Char} (ha : isBlank a = false ∧ a ≠ '[' ∧ a ≠ '\x7b')
    (hz : Balanced true z) (hc : Foreign c) :
    parse number ((a :: p) ++ '\x7b' :: (z ++ '"' :: c :: t)) = none := by
  cases h : parse number ((a :: p) ++ '\x7b' :: (z ++ '"' :: c :: t)) with
  | none => rfl
  | some v =>
    have hall : scan false (.outside, 0) ((a :: p) ++ '\x7b' :: (z ++ '"' :: c :: t)) = some (.outside, 0) :=
      balanced_front ha h 0
    obtain ⟨⟨q, d⟩, -, hrest⟩ := scan_append_eq_some.mp hall
    have hobject : scan true (.outside, 0) ('\x7b' :: z) = some (.outside, 1) := by
      rw [scan_cons]
      exact hz 1
    cases q with
    | outside => rw [scan_cons] at hrest; cases hrest
    | escaped => rw [scan_cons] at hrest; cases hrest
    | inside =>
      -- the object would stand in a string, and what is in its strings outside
      rw [← List.cons_append] at hrest
      obtain ⟨⟨q, e⟩, hinside, hrest⟩ := scan_append_eq_some.mp hrest
      have hq : q = .inside := by
        rcases scan_flip (.inl ⟨rfl, rfl⟩) hinside hobject with ⟨hq, -⟩ | ⟨-, habs⟩
        · exact hq
        · cases habs
      subst hq
      have hopen : step false (.inside, e) '"' = some (.outside, e) := by simp [step]
      rw [scan_cons, hopen, Option.bind_some, scan_cons, hc] at hrest
      cases hrest

end Soundness

end Remembra.Json
