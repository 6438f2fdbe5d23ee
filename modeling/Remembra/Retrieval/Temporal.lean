import Mathlib
import Remembra.Retrieval.Search

/-! The temporal part of a query. A query may begin with `latest` or `recent` and a count, or with `before` or
    `after` and a date. What it says is recovered for three of the documented forms of a date, today,
    yesterday and an ISO date, and for a count before a text of one line (`extractQueryAt_recovers_iff`). -/

namespace Remembra.Retrieval
open Store (JsNum)

/-! ### The query -/

/-- The groups of `TEMPORAL_RE`. -/
inductive Qualifier where
  | latest (digits body : List Char)
  | recent (digits body : List Char)
  | before (token : List Char)
  | after (token : List Char)

/-- `q.match(TEMPORAL_RE)`; `q` has no white space at its ends. -/
def temporalMatch (q : List Char) : Option Qualifier :=
  match countedBody "latest" q, countedBody "recent" q with
  | some (digits, body), _ => some (.latest digits body)
  | none, some (digits, body) => some (.recent digits body)
  | none, none =>
    match (afterWord "before" q).filter (· ≠ []) with
    | some rest => some (.before (rest.takeWhile fun c => !isLineEnd c))
    | none => ((afterWord "after" q).filter fun rest => rest ≠ [] && rest.all fun c => !isLineEnd c).map .after

/-- `temporal`; `some none` is `null`. -/
structure TemporalParts where
  latestCount : Option JsNum := none
  recentCount : Option JsNum := none
  beforeMs : Option (Option JsNum) := none
  afterMs : Option (Option JsNum) := none

def dayMs : ℚ := 86400000
def weekMs : ℚ := dayMs * 7
def yearMs : ℚ := dayMs * 365

/-- `/^[+\-]?\d+(\sd|sw|sy)$/i` -/
def isRelative (token : List Char) : Bool :=
  let digits := if token.head?.any (· ∈ ['+', '-']) then token.tail else token
  let rest := digits.dropWhile Char.isDigit
  digits.head?.any Char.isDigit && match rest with
    | [a, b] => Regex.isSpace a && b.toLower = 'd' || a.toLower = 's' && (b.toLower = 'w' || b.toLower = 'y')
    | _ => false

/-- The unit that `/^([+\-]?\d+)\s*([dwy])$/` finds in what `isRelative` accepts: `sw` and `sy` are none. -/
def relativeMs (token : List Char) : ℚ :=
  if token.getLast?.map Char.toLower = some 'd' then dayMs else yearMs

section Parts
variable (P : Platform) (toNumber : String → JsNum) (now : ℤ)

def parseDateToken (token : List Char) : Option JsNum :=
  if token.map Char.toLower = "today".toList then some (.finite now)
  else if token.map Char.toLower = "yesterday".toList then some (.finite (now - dayMs))
  else
    match toNumber (.ofList token), isRelative token with
    | .finite n, true => some (.finite (now + n * relativeMs token))
    | .infinity, true => some .infinity
    | .negInfinity, true => some .negInfinity
    | _, _ => (P.dateParse (.ofList token)).map fun t : ℤ => .finite t

def temporalParts : Option Qualifier → TemporalParts
  | none => {}
  | some (.latest digits _) => { latestCount := some (toNumber (.ofList digits)) }
  | some (.recent digits _) => { recentCount := some (toNumber (.ofList digits)) }
  | some (.before token) =>
    { beforeMs := some (parseDateToken P toNumber now (Delimited.strip Regex.isSpace token)) }
  | some (.after token) =>
    { afterMs := some (parseDateToken P toNumber now (Delimited.strip Regex.isSpace token)) }

/-- What is left of the query for its terms. -/
def bodyOf (q : List Char) : Option Qualifier → List Char
  | none => q
  | some (.latest _ body) | some (.recent _ body) => Delimited.strip Regex.isSpace body
  | some (.before _) | some (.after _) => []

/-- The terms of a text: a single character is one if it is of the CJK range. -/
def termsOf (l : List Char) : List String :=
  (tokenize P (.ofList l)).filter fun t => 1 < Jobs.utf16Length t || t.toList.any isCjk

/-- `extractQuery`, with the instants of a `before` and an `after`. -/
def extractQueryAt (raw : Option String) : List String × TemporalParts :=
  let q := Jobs.trim (raw.getD "")
  if q = "" then ([], {})
  else
    let tempMatch := temporalMatch q.toList
    (termsOf P (bodyOf q.toList tempMatch), temporalParts P toNumber now tempMatch)

end Parts

/-! ### What a query says -/

/-- `d`, `w` or `y` -/
inductive TimeUnit where
  | day | week | year

def TimeUnit.letter : TimeUnit → Char
  | .day => 'd'
  | .week => 'w'
  | .year => 'y'

def TimeUnit.ms : TimeUnit → ℚ
  | .day => dayMs
  | .week => weekMs
  | .year => yearMs

/-- The days of a month. -/
def daysIn (year month : ℕ) : ℕ :=
  if month = 2 then if year % 4 = 0 ∧ (year % 100 ≠ 0 ∨ year % 400 = 0) then 29 else 28
  else if month ∈ [4, 6, 9, 11] then 30 else 31

structure IsoDate where
  year : ℕ
  month : ℕ
  day : ℕ
  valid : year < 10000 ∧ 1 ≤ month ∧ month ≤ 12 ∧ 1 ≤ day ∧ day ≤ daysIn year month

/-- A number with so many digits. -/
def padded (width n : ℕ) : List Char :=
  List.replicate (width - (Nat.toDigits 10 n).length) '0' ++ Nat.toDigits 10 n

/-- `YYYY-MM-DD` -/
def IsoDate.text (d : IsoDate) : List Char :=
  padded 4 d.year ++ '-' :: (padded 2 d.month ++ '-' :: padded 2 d.day)

/-- The days from the beginning of the year 0 to that of another. -/
def daysBefore (year : ℕ) : ℕ := 365 * year + (year + 3) / 4 - (year + 99) / 100 + (year + 399) / 400

/-- Midnight, universal time, in milliseconds since 1970. -/
def midnight (year month day : ℕ) : ℤ :=
  ((daysBefore year + ((List.range' 1 (month - 1)).map (daysIn year)).sum + (day - 1) : ℕ) -
    (daysBefore 1970 : ℕ)) * 86400000

def IsoDate.instant (d : IsoDate) : ℤ := midnight d.year d.month d.day

/-- One digit or more. -/
abbrev Digits := { l : List Char // l ≠ [] ∧ ∀ c ∈ l, c.isDigit = true }

/-- The forms of a date in the grammar of `parseDateToken`. -/
inductive DateToken where
  | today
  | yesterday
  | lastWeek
  | iso (date : IsoDate)
  | relative (back : Bool) (count : Digits) (spaced : Bool) (unit : TimeUnit)

def DateToken.text : DateToken → List Char
  | .today => "today".toList
  | .yesterday => "yesterday".toList
  | .lastWeek => "last week".toList
  | .iso date => date.text
  | .relative back count spaced unit =>
    (if back then '-' else '+') :: (count.val ++ ((if spaced then [' '] else []) ++ [unit.letter]))

/-- The instant that a date means at `now`. -/
def DateToken.denotes (now : ℤ) : DateToken → ℚ
  | .today => now
  | .yesterday => now - dayMs
  | .lastWeek => now - weekMs
  | .iso date => date.instant
  | .relative back count _ unit => now + (if back then -1 else 1) * digitsValue count.val * unit.ms

/-- A text that begins with a word, in any case, and white space behind it. -/
def Leads (word : String) (q rest : List Char) : Prop :=
  ∃ w s, q = w ++ (s ++ rest) ∧ w.map Char.toLower = word.toList ∧ s ≠ [] ∧ ∀ c ∈ s, Regex.isSpace c = true

inductive CountWord where
  | latest | recent

def CountWord.text : CountWord → String
  | .latest => "latest"
  | .recent => "recent"

inductive DateWord where
  | before | after

def DateWord.text : DateWord → String
  | .before => "before"
  | .after => "after"

/-- A text that begins with a qualifier. -/
def Qualified (q : List Char) : Prop :=
  (∃ (word : CountWord) (rest : List Char), Leads word.text q rest ∧ rest.head?.any Char.isDigit = true) ∨
    ∃ (word : DateWord) (rest : List Char), Leads word.text q rest ∧ rest ≠ []

/-- The forms of a query. -/
inductive QueryForm where
  | counted (word : CountWord) (count : Digits) (body : List Char)
  | dated (word : DateWord) (date : DateToken)
  | plain

/-- The query, without the white space around it, is of the form. -/
def QueryForm.Of (q : List Char) : QueryForm → Prop
  | .counted word count body =>
    ∃ s, Leads word.text q (count.val ++ (s ++ body)) ∧ s ≠ [] ∧ (∀ c ∈ s, Regex.isSpace c = true) ∧
      ¬ Qualified (Delimited.strip Regex.isSpace body)
  | .dated word date => Leads word.text q date.text
  | .plain => ¬ Qualified q

def CountWord.qualifier : CountWord → List Char → List Char → Qualifier
  | .latest => .latest
  | .recent => .recent

def DateWord.qualifier : DateWord → List Char → Qualifier
  | .before => .before
  | .after => .after

def TemporalParts.count (parts : TemporalParts) : CountWord → Option JsNum
  | .latest => parts.latestCount
  | .recent => parts.recentCount

def TemporalParts.instant (parts : TemporalParts) : DateWord → Option (Option JsNum)
  | .before => parts.beforeMs
  | .after => parts.afterMs

section Recovers
variable (P : Platform) (toNumber : String → JsNum)

/-- `extractQuery` recovers what the query says, whatever the clock shows. -/
def QueryForm.Recovered (raw : String) : QueryForm → Prop
  | .counted word count body => ∀ now,
    (extractQueryAt P toNumber now (some raw)).2.count word = some (.finite (digitsValue count.val)) ∧
      (extractQueryAt P toNumber now (some raw)).1 =
        (extractQueryAt P toNumber now (some (.ofList body))).1
  | .dated word date => ∀ now,
    (extractQueryAt P toNumber now (some raw)).2.instant word = some (some (.finite (date.denotes now)))
  | .plain => ∀ now, extractQueryAt P toNumber now (some raw) = (termsOf P raw.toList, {})

/-- `Number` reads the count as it stands and nothing of the body behind its first line makes a term; the
    date is today, yesterday or an ISO date. -/
def QueryForm.Recoverable (P : Platform) (toNumber : String → JsNum) : QueryForm → Prop
  | .counted _ count body => toNumber (.ofList count.val) = .finite (digitsValue count.val) ∧
    termsOf P ((Delimited.strip Regex.isSpace body).dropWhile fun c => !isLineEnd c).tail = []
  | .dated _ .today | .dated _ .yesterday | .dated _ (.iso _) => True
  | .dated _ _ => False
  | .plain => True

/-- What is used of the platform. -/
structure ReadsQueries : Prop where
  /-- A numeral with a unit behind it is no number. -/
  number : ∀ token, isRelative token = true → toNumber (.ofList token) = .nan
  iso : ∀ date : IsoDate, P.dateParse (.ofList date.text) = some date.instant
  space : ∀ c, Regex.isSpace c = true → P.text.isLetterOrNumber c = false
  lowerEmpty : P.text.lower "" = ""
  /-- White space has no case, and around a text it changes nothing in it. -/
  lowerAround : ∀ x l y : List Char, (∀ c ∈ x, Regex.isSpace c = true) → (∀ c ∈ y, Regex.isSpace c = true) →
    (P.text.lower (.ofList (x ++ (l ++ y)))).toList = x ++ ((P.text.lower (.ofList l)).toList ++ y)
  /-- The lines of a text are set in lower case one by one. -/
  lowerLines : ∀ (x y : List Char) (c : Char), isLineEnd c = true →
    (P.text.lower (.ofList (x ++ c :: y))).toList =
      (P.text.lower (.ofList x)).toList ++ c :: (P.text.lower (.ofList y)).toList

end Recovers

/-! ### The ends of a text -/

section Ends
open Delimited (strip)
variable {l x y q : List Char} {c : Char}

theorem isTrimmed_eq : Jobs.isTrimmed = Regex.isSpace := by
  funext c
  rw [Bool.eq_iff_iff]
  simp only [Jobs.isTrimmed, Regex.isSpace, List.mem_cons, List.not_mem_nil, or_false, Bool.or_eq_true,
    Bool.and_eq_true, decide_eq_true_eq]
  omega

theorem toList_trim (s : String) : (Jobs.trim s).toList = strip Regex.isSpace s.toList := by
  rw [← isTrimmed_eq, Jobs.trim, String.toList_ofList]
  rfl

theorem isSpace_of_isLineEnd (h : isLineEnd c = true) : Regex.isSpace c = true := by
  simp only [isLineEnd, Regex.isSpace, List.mem_cons, List.not_mem_nil, or_false, Bool.or_eq_true,
    Bool.and_eq_true, decide_eq_true_eq] at h ⊢
  omega

/-- A text is the white space in front of it, the text without any, and the white space behind it. -/
theorem exists_strip (l : List Char) : ∃ x y, l = x ++ (strip Regex.isSpace l ++ y) ∧
    (∀ c ∈ x, Regex.isSpace c = true) ∧ ∀ c ∈ y, Regex.isSpace c = true := by
  refine ⟨l.takeWhile Regex.isSpace, (l.dropWhile Regex.isSpace).rtakeWhile Regex.isSpace, ?_,
    fun c hc => List.mem_takeWhile_imp hc, fun c hc => List.mem_rtakeWhile_imp hc⟩
  rw [strip, List.rdropWhile_append_rtakeWhile, List.takeWhile_append_dropWhile]

theorem strip_of_ends (hne : l ≠ []) (hhead : Regex.isSpace (l.head hne) = false)
    (hlast : Regex.isSpace (l.getLast hne) = false) : strip Regex.isSpace l = l := by
  have hfront : l.dropWhile Regex.isSpace = l := by
    cases l with
    | nil => rfl
    | cons c l => exact List.dropWhile_cons_of_neg (by simpa using hhead)
  rw [strip, hfront, List.rdropWhile_eq_self_iff]
  exact fun _ => by rw [hlast]; exact Bool.false_ne_true

/-- A text without white space around it ends with something else. -/
theorem getLast_of_strip (hq : strip Regex.isSpace q = q) (hne : q ≠ []) :
    Regex.isSpace (q.getLast hne) = false := by
  have hlast (r : List Char) (hr : r = q) (hrne : r ≠ []) (h : ¬ Regex.isSpace (r.getLast hrne) = true) :
      Regex.isSpace (q.getLast hne) = false := by
    subst hr
    rwa [Bool.not_eq_true] at h
  exact hlast _ hq (by rw [hq]; exact hne) (List.rdropWhile_last_not Regex.isSpace _ _)

/-- So does what it ends with, unless that is empty. -/
theorem strip_suffix (hq : strip Regex.isSpace (x ++ l) = x ++ l) :
    strip Regex.isSpace l = l.dropWhile Regex.isSpace := by
  rw [strip, List.rdropWhile_eq_self_iff]
  intro hne
  have hl : l ≠ [] := by
    rintro rfl
    exact hne rfl
  have hlast := getLast_of_strip hq (List.append_ne_nil_of_right_ne_nil x hl)
  rw [List.getLast_append_of_ne_nil _ hl] at hlast
  have hsame : (l.dropWhile Regex.isSpace).getLast hne = l.getLast hl :=
    (List.dropWhile_suffix _).getLast hne
  rw [hsame, hlast]
  exact Bool.false_ne_true

theorem exists_of_strip (hq : strip Regex.isSpace (x ++ l) = x ++ l) (hl : l ≠ []) :
    ∃ c ∈ l, Regex.isSpace c = false := by
  have hlast := getLast_of_strip hq (List.append_ne_nil_of_right_ne_nil x hl)
  rw [List.getLast_append_of_ne_nil _ hl] at hlast
  exact ⟨_, List.getLast_mem hl, hlast⟩

end Ends

/-! ### The terms -/

section Terms
open Delimited (strip)
variable {P : Platform} {toNumber : String → JsNum} {x y l : List Char} {c : Char}

/-- The runs of letters and digits. -/
def runs (P : Platform) (l : List Char) : List (List Char) :=
  (l.splitOnP fun c => !P.text.isLetterOrNumber c).filter (· ≠ [])

theorem runs_append_cons (hc : P.text.isLetterOrNumber c = false) :
    runs P (x ++ c :: y) = runs P x ++ runs P y := by
  rw [runs, List.splitOnP_append_cons _ _ (by rw [hc]; rfl), List.filter_append]
  rfl

theorem runs_nil : runs P [] = [] := rfl

theorem runs_blank (hP : ReadsQueries P toNumber) (hx : ∀ c ∈ x, Regex.isSpace c = true) :
    runs P x = [] := by
  induction x with
  | nil => rfl
  | cons c x ih =>
    obtain ⟨hc, hx⟩ := List.forall_mem_cons.mp hx
    have hcons := runs_append_cons (P := P) (x := []) (y := x) (hP.space c hc)
    rw [List.nil_append, runs_nil, List.nil_append, ih hx] at hcons
    exact hcons

theorem runs_around (hP : ReadsQueries P toNumber) (hx : ∀ c ∈ x, Regex.isSpace c = true)
    (hy : ∀ c ∈ y, Regex.isSpace c = true) : runs P (x ++ (l ++ y)) = runs P l := by
  have hbehind : runs P (l ++ y) = runs P l := by
    cases y with
    | nil => rw [List.append_nil]
    | cons c y =>
      obtain ⟨hc, hy⟩ := List.forall_mem_cons.mp hy
      rw [runs_append_cons (hP.space c hc), runs_blank hP hy, List.append_nil]
  induction x with
  | nil => exact hbehind
  | cons c x ih =>
    obtain ⟨hc, hx⟩ := List.forall_mem_cons.mp hx
    have hcons := runs_append_cons (P := P) (x := []) (y := x ++ (l ++ y)) (hP.space c hc)
    rw [List.nil_append, runs_nil, List.nil_append, ih hx] at hcons
    exact hcons

/-- The terms of a run. -/
def runTerms (run : List Char) : List String :=
  if run.any isCjk then run.map fun c => String.ofList [c] else [String.ofList run]

theorem termsOf_eq (l : List Char) : termsOf P l =
    ((runs P (P.text.lower (.ofList l)).toList).flatMap runTerms).filter fun t =>
      1 < Jobs.utf16Length t || t.toList.any isCjk := rfl

theorem termsOf_nil (hP : ReadsQueries P toNumber) : termsOf P [] = [] := by
  rw [termsOf_eq, show String.ofList [] = "" from rfl, hP.lowerEmpty]
  rfl

theorem termsOf_strip (hP : ReadsQueries P toNumber) (l : List Char) :
    termsOf P (strip Regex.isSpace l) = termsOf P l := by
  obtain ⟨x, y, hl, hx, hy⟩ := exists_strip l
  conv_rhs => rw [hl]
  rw [termsOf_eq, termsOf_eq, hP.lowerAround x _ y hx hy, runs_around hP hx hy]

theorem termsOf_lines (hP : ReadsQueries P toNumber) (hc : isLineEnd c = true) :
    termsOf P (x ++ c :: y) = termsOf P x ++ termsOf P y := by
  rw [termsOf_eq, hP.lowerLines x y c hc, runs_append_cons (hP.space c (isSpace_of_isLineEnd hc)),
    List.flatMap_append, List.filter_append]
  rfl

/-- The terms of the first line are all there are if and only if there are none behind it. -/
theorem termsOf_firstLine_iff (hP : ReadsQueries P toNumber) (l : List Char) :
    termsOf P (l.takeWhile fun c => !isLineEnd c) = termsOf P l ↔
      termsOf P (l.dropWhile fun c => !isLineEnd c).tail = [] := by
  cases hdrop : l.dropWhile fun c => !isLineEnd c with
  | nil =>
    have hall : (l.takeWhile fun c => !isLineEnd c) = l := by
      have hparts := List.takeWhile_append_dropWhile (p := fun c => !isLineEnd c) (l := l)
      rwa [hdrop, List.append_nil] at hparts
    rw [hall]
    exact iff_of_true rfl (termsOf_nil hP)
  | cons c rest =>
    have hc : isLineEnd c = true := by
      have hhead := List.head_dropWhile_not (fun c => !isLineEnd c) (l := l)
        (by rw [hdrop]; exact List.cons_ne_nil _ _)
      simpa [hdrop] using hhead
    have hparts := List.takeWhile_append_dropWhile (p := fun c => !isLineEnd c) (l := l)
    rw [hdrop] at hparts
    conv_lhs => rhs; rw [← hparts]
    rw [termsOf_lines hP hc, List.tail_cons]
    exact List.self_eq_append_right

end Terms

/-! ### The qualifiers -/

section Qualifiers
open Delimited (strip)
variable {word word' : String} {q rest r : List Char}

theorem leads_of_afterWord (h : afterWord word q = some r) : Leads word q r := by
  unfold afterWord at h
  dsimp only at h
  split_ifs at h with hword hspace
  cases h
  refine ⟨q.take word.length, (q.drop word.length).takeWhile Regex.isSpace, ?_, hword, ?_,
    fun c hc => List.mem_takeWhile_imp hc⟩
  · rw [List.takeWhile_append_dropWhile, List.take_append_drop]
  · intro hnil
    cases hdrop : q.drop word.length with
    | nil =>
      rw [hdrop] at hspace
      cases hspace
    | cons c l =>
      rw [hdrop] at hspace hnil
      rw [List.takeWhile_cons_of_pos (by simpa using hspace)] at hnil
      cases hnil

theorem afterWord_of_leads (h : Leads word q rest) :
    afterWord word q = some (rest.dropWhile Regex.isSpace) := by
  obtain ⟨w, s, rfl, hw, hs, hblank⟩ := h
  have hlength : w.length = word.length := by
    have hlengths := congrArg List.length hw
    rwa [List.length_map, String.length_toList] at hlengths
  have hhead : (s ++ rest).head?.any Regex.isSpace = true := by
    cases s with
    | nil => exact absurd rfl hs
    | cons c s => simpa using hblank c List.mem_cons_self
  rw [afterWord, ← hlength, List.take_left, List.drop_left, if_pos hw]
  dsimp only
  rw [if_pos hhead, List.dropWhile_append_of_pos hblank]

/-- A text begins with one of the words only. -/
theorem afterWord_eq_none (h : Leads word q rest) (hword : ¬ word'.toList <+: word.toList)
    (hword' : ¬ word.toList <+: word'.toList) : afterWord word' q = none := by
  cases hafter : afterWord word' q with
  | none => rfl
  | some r =>
    obtain ⟨w, s, rfl, hw, -, -⟩ := h
    obtain ⟨w', s', heq, hw', -, -⟩ := leads_of_afterWord hafter
    have hprefix : word.toList <+: (w ++ (s ++ rest)).map Char.toLower := by
      rw [List.map_append, hw]
      exact List.prefix_append _ _
    have hprefix' : word'.toList <+: (w ++ (s ++ rest)).map Char.toLower := by
      rw [heq, List.map_append, hw']
      exact List.prefix_append _ _
    rcases List.prefix_or_prefix_of_prefix hprefix' hprefix with hle | hle
    · exact absurd hle hword
    · exact absurd hle hword'

theorem isSpace_of_isDigit {c : Char} (h : c.isDigit = true) : Regex.isSpace c = false := by
  rw [Bool.eq_false_iff]
  intro hspace
  simp only [Char.isDigit, Bool.and_eq_true, decide_eq_true_eq, ge_iff_le, UInt32.le_iff_toNat_le] at h
  simp only [Regex.isSpace, List.mem_cons, List.not_mem_nil, or_false, Bool.or_eq_true, Bool.and_eq_true,
    decide_eq_true_eq] at hspace
  change 48 ≤ c.toNat ∧ c.toNat ≤ 57 at h
  omega

theorem isDigit_of_isSpace {c : Char} (h : Regex.isSpace c = true) : c.isDigit = false := by
  rw [Bool.eq_false_iff]
  intro hdigit
  rw [isSpace_of_isDigit hdigit] at h
  cases h

theorem countedBody_of_leads {count : Digits} {s body : List Char}
    (h : Leads word q (count.val ++ (s ++ body))) (hs : s ≠ []) (hblank : ∀ c ∈ s, Regex.isSpace c = true) :
    countedBody word q = some (count.val, (body.dropWhile Regex.isSpace).takeWhile fun c => !isLineEnd c) := by
  obtain ⟨d, digits, hcount⟩ := List.exists_cons_of_ne_nil count.2.1
  obtain ⟨e, blanks, rfl⟩ := List.exists_cons_of_ne_nil hs
  have hd : Regex.isSpace d = false := isSpace_of_isDigit (count.2.2 d (by rw [hcount]; exact List.mem_cons_self))
  have he := hblank e List.mem_cons_self
  have hfront : (count.val ++ (e :: blanks ++ body)).dropWhile Regex.isSpace =
      count.val ++ (e :: blanks ++ body) := by
    rw [hcount, List.cons_append, List.dropWhile_cons_of_neg (by rw [hd]; exact Bool.false_ne_true)]
  have hstop : ¬ e.isDigit = true := by
    rw [isDigit_of_isSpace he]
    exact Bool.false_ne_true
  have htake : (count.val ++ (e :: blanks ++ body)).takeWhile Char.isDigit = count.val := by
    rw [List.takeWhile_append_of_pos count.2.2, List.cons_append, List.takeWhile_cons_of_neg hstop,
      List.append_nil]
  have hdrop : (count.val ++ (e :: blanks ++ body)).dropWhile Char.isDigit = e :: blanks ++ body := by
    rw [List.dropWhile_append_of_pos count.2.2, List.cons_append, List.dropWhile_cons_of_neg hstop]
  rw [countedBody, afterWord_of_leads h, Option.bind_some, hfront]
  dsimp only
  rw [htake, hdrop, if_neg count.2.1, if_pos (by simpa using he), List.dropWhile_append_of_pos hblank]

theorem temporalMatch_counted {word : CountWord} {count : Digits} {s body : List Char}
    (h : Leads word.text q (count.val ++ (s ++ body))) (hs : s ≠ [])
    (hblank : ∀ c ∈ s, Regex.isSpace c = true) :
    temporalMatch q = some (word.qualifier count.val
      ((body.dropWhile Regex.isSpace).takeWhile fun c => !isLineEnd c)) := by
  have hcounted := countedBody_of_leads h hs hblank
  cases word with
  | latest =>
    rw [temporalMatch, show countedBody "latest" q = _ from hcounted]
    rfl
  | recent =>
    have hlatest : countedBody "latest" q = none := by
      rw [countedBody, afterWord_eq_none h (by decide) (by decide)]
      rfl
    rw [temporalMatch, hlatest, show countedBody "recent" q = _ from hcounted]
    rfl

theorem countedBody_dated {word : DateWord} (h : Leads word.text q rest) (count : CountWord) :
    countedBody count.text q = none := by
  have hword : afterWord count.text q = none := by
    cases word <;> cases count <;> exact afterWord_eq_none h (by decide) (by decide)
  rw [countedBody, hword]
  rfl

/-- A text of one line, with no white space in front. -/
theorem temporalMatch_dated {word : DateWord} {c : Char} {text : List Char} (h : Leads word.text q (c :: text))
    (hc : Regex.isSpace c = false) (hline : ∀ d ∈ c :: text, isLineEnd d = false) :
    temporalMatch q = some (word.qualifier (c :: text)) := by
  have hfront : (c :: text).dropWhile Regex.isSpace = c :: text :=
    List.dropWhile_cons_of_neg (by rw [hc]; exact Bool.false_ne_true)
  have hafter := afterWord_of_leads h
  rw [hfront] at hafter
  have hlatest : countedBody "latest" q = none := countedBody_dated h .latest
  have hrecent : countedBody "recent" q = none := countedBody_dated h .recent
  cases word with
  | before =>
    have hall : ((c :: text).takeWhile fun d => !isLineEnd d) = c :: text :=
      List.takeWhile_eq_self_iff.mpr fun d hd => by rw [hline d hd]; rfl
    rw [temporalMatch, hlatest, hrecent, show afterWord "before" q = _ from hafter]
    dsimp only
    rw [Option.filter_some, if_pos (by simp)]
    dsimp only
    rw [hall]
    rfl
  | after =>
    have hbefore : afterWord "before" q = none := afterWord_eq_none h (by decide) (by decide)
    have hall : ((c :: text).all fun d => !isLineEnd d) = true :=
      List.all_eq_true.mpr fun d hd => by rw [hline d hd]; rfl
    rw [temporalMatch, hlatest, hrecent, hbefore, show afterWord "after" q = _ from hafter]
    dsimp only [Option.filter_none]
    rw [Option.filter_some, if_pos (by rw [hall]; simp)]
    rfl

theorem qualified_of_countedBody {word : CountWord} {g : List Char × List Char}
    (h : countedBody word.text q = some g) : Qualified q := by
  unfold countedBody at h
  obtain ⟨r, hr, hg⟩ := Option.bind_eq_some_iff.mp h
  refine .inl ⟨word, r, leads_of_afterWord hr, ?_⟩
  dsimp only at hg
  cases r with
  | nil => cases hg
  | cons c r =>
    by_contra hc
    rw [List.takeWhile_cons_of_neg (by simpa using hc)] at hg
    cases hg

theorem temporalMatch_none (h : ¬ Qualified q) : temporalMatch q = none := by
  have hcounted (word : CountWord) : countedBody word.text q = none := by
    cases hword : countedBody word.text q with
    | none => rfl
    | some g => exact absurd (qualified_of_countedBody hword) h
  have hdated (word : DateWord) (r : List Char) (hr : afterWord word.text q = some r) : r = [] := by
    by_contra hne
    exact h (.inr ⟨word, r, leads_of_afterWord hr, hne⟩)
  have hbefore : (afterWord "before" q).filter (· ≠ []) = none := by
    rw [Option.filter_eq_none_iff]
    exact fun r hr => by simpa using hdated .before r hr
  have hafter : ((afterWord "after" q).filter fun r => r ≠ [] && r.all fun c => !isLineEnd c) = none := by
    rw [Option.filter_eq_none_iff]
    exact fun r hr => by simp [hdated .after r hr]
  rw [temporalMatch, show countedBody "latest" q = none from hcounted .latest,
    show countedBody "recent" q = none from hcounted .recent]
  dsimp only
  rw [hbefore]
  dsimp only
  rw [hafter]
  rfl

end Qualifiers

/-! ### The dates -/

section Dates
open Delimited (strip)
variable {P : Platform} {toNumber : String → JsNum}

theorem padded_digits {width n : ℕ} {c : Char} (hc : c ∈ padded width n) : c.isDigit = true := by
  rcases List.mem_append.mp hc with hc | hc
  · rw [(List.mem_replicate.mp hc).2]
    rfl
  · exact Nat.isDigit_of_mem_toDigits (by decide) (by decide) hc

theorem isoText_mem {date : IsoDate} {c : Char} (hc : c ∈ date.text) : c.isDigit = true ∨ c = '-' := by
  simp only [IsoDate.text, List.mem_append, List.mem_cons] at hc
  rcases hc with hc | rfl | hc | rfl | hc
  · exact .inl (padded_digits hc)
  · exact .inr rfl
  · exact .inl (padded_digits hc)
  · exact .inr rfl
  · exact .inl (padded_digits hc)

theorem isLineEnd_of_isSpace {c : Char} (h : Regex.isSpace c = false) : isLineEnd c = false := by
  rw [Bool.eq_false_iff]
  intro hline
  rw [isSpace_of_isLineEnd hline] at h
  cases h

/-- A date is a text of one line without white space around it. -/
theorem dateText_line (date : DateToken) : (∃ c l, date.text = c :: l ∧ Regex.isSpace c = false) ∧
    (∀ d ∈ date.text, isLineEnd d = false) ∧ strip Regex.isSpace date.text = date.text := by
  cases date with
  | today => exact ⟨⟨_, _, rfl, rfl⟩, List.forall_iff_forall_mem.mp (by decide), rfl⟩
  | yesterday => exact ⟨⟨_, _, rfl, rfl⟩, List.forall_iff_forall_mem.mp (by decide), rfl⟩
  | lastWeek => exact ⟨⟨_, _, rfl, rfl⟩, List.forall_iff_forall_mem.mp (by decide), rfl⟩
  | iso date =>
    have hspace : ∀ c ∈ date.text, Regex.isSpace c = false := by
      intro c hc
      rcases isoText_mem hc with hdigit | rfl
      · exact isSpace_of_isDigit hdigit
      · rfl
    have hne : date.text ≠ [] := by simp [IsoDate.text]
    obtain ⟨c, l, hcl⟩ := List.exists_cons_of_ne_nil hne
    refine ⟨⟨c, l, hcl, hspace c (by rw [hcl]; exact List.mem_cons_self)⟩,
      fun d hd => isLineEnd_of_isSpace (hspace d hd), ?_⟩
    exact strip_of_ends hne (hspace _ (List.head_mem hne)) (hspace _ (List.getLast_mem hne))
  | relative back count spaced unit =>
    have hsign : Regex.isSpace (if back then '-' else '+') = false := by cases back <;> rfl
    have hletter : Regex.isSpace unit.letter = false := by cases unit <;> rfl
    have htext : (DateToken.relative back count spaced unit).text = (if back then '-' else '+') ::
        (count.val ++ ((if spaced then [' '] else []) ++ [unit.letter])) := rfl
    rw [htext]
    refine ⟨⟨_, _, rfl, hsign⟩, fun d hd => ?_,
      strip_of_ends (List.cons_ne_nil _ _) (by rw [List.head_cons]; exact hsign) ?_⟩
    · simp only [List.mem_cons, List.mem_append, List.not_mem_nil, or_false] at hd
      rcases hd with rfl | hd | hd | rfl
      · exact isLineEnd_of_isSpace hsign
      · exact isLineEnd_of_isSpace (isSpace_of_isDigit (count.2.2 d hd))
      · cases spaced with
        | false => cases hd
        | true =>
          obtain rfl := List.mem_singleton.mp hd
          rfl
      · exact isLineEnd_of_isSpace hletter
    · simpa [List.getLast_cons, List.getLast_append] using hletter

/-- No other date is read than what `Date.parse` reads. -/
theorem parseDateToken_other (hP : ReadsQueries P toNumber) {token : List Char} {c : Char} (hc : c ∈ token)
    (hother : c.toLower ∉ "today".toList ∧ c.toLower ∉ "yesterday".toList) (now : ℤ) :
    parseDateToken P toNumber now token = (P.dateParse (.ofList token)).map fun t : ℤ => .finite t := by
  have hmem : c.toLower ∈ token.map Char.toLower := List.mem_map_of_mem hc
  have htoday : ¬ token.map Char.toLower = "today".toList := fun h => hother.1 (h ▸ hmem)
  have hyesterday : ¬ token.map Char.toLower = "yesterday".toList := fun h => hother.2 (h ▸ hmem)
  rw [parseDateToken, if_neg htoday, if_neg hyesterday]
  cases hrelative : isRelative token with
  | false => cases toNumber (.ofList token) <;> rfl
  | true => rw [hP.number token hrelative]

theorem parseDateToken_date (hP : ReadsQueries P toNumber) (word : DateWord) (date : DateToken) :
    (∀ now, parseDateToken P toNumber now date.text = some (.finite (date.denotes now))) ↔
      QueryForm.Recoverable P toNumber (.dated word date) := by
  -- What does not depend on the clock is not so many days before or after what it shows.
  have hclock (k : ℚ) (t : Option JsNum) (h : ∀ now : ℤ, t = some (.finite (now + k))) : False := by
    have heq := (h 0).symm.trans (h 1)
    rw [Option.some.injEq, JsNum.finite.injEq] at heq
    push_cast at heq
    linarith
  cases date with
  | today => exact iff_of_true (fun now => rfl) trivial
  | yesterday => exact iff_of_true (fun now => rfl) trivial
  | lastWeek =>
    refine iff_of_false (fun h => ?_) id
    refine hclock (-weekMs) ((P.dateParse (.ofList "last week".toList)).map fun t : ℤ => .finite t) fun now => ?_
    rw [← parseDateToken_other hP (c := ' ') (by decide) (by decide) now, ← sub_eq_add_neg]
    exact h now
  | iso date =>
    refine iff_of_true (fun now => ?_) trivial
    change parseDateToken P toNumber now date.text = _
    have hdash : '-' ∈ date.text := by simp [IsoDate.text]
    rw [parseDateToken_other hP hdash (by decide), hP.iso]
    rfl
  | relative back count spaced unit =>
    refine iff_of_false (fun h => ?_) id
    refine hclock ((if back then -1 else 1) * digitsValue count.val * unit.ms)
      ((P.dateParse (.ofList (DateToken.relative back count spaced unit).text)).map
        fun t : ℤ => .finite t) fun now => ?_
    have hsign : (if back then '-' else '+') ∈ (DateToken.relative back count spaced unit).text :=
      List.mem_cons_self
    rw [← parseDateToken_other hP hsign (by cases back <;> decide) now]
    exact (h now).trans (by rw [DateToken.denotes])

end Dates

/-! ### What is recovered -/

section Recovery
open Delimited (strip)
variable {P : Platform} {toNumber : String → JsNum}

theorem extractQueryAt_eq {raw : String} (hq : (Jobs.trim raw).toList ≠ []) (now : ℤ) :
    extractQueryAt P toNumber now (some raw) =
      (termsOf P (bodyOf (Jobs.trim raw).toList (temporalMatch (Jobs.trim raw).toList)),
        temporalParts P toNumber now (temporalMatch (Jobs.trim raw).toList)) := by
  have hne : Jobs.trim raw ≠ "" := fun h => hq (by rw [h]; rfl)
  rw [extractQueryAt]
  dsimp only [Option.getD_some]
  rw [if_neg hne]

theorem leads_ne_nil {word : String} {q rest : List Char} (h : Leads word q rest) : q ≠ [] := by
  obtain ⟨w, s, rfl, -, hs, -⟩ := h
  simp [hs]

/-- The terms are those that the ranking reads. -/
theorem extractQueryAt_terms (raw : Option String) (now : ℤ) :
    (extractQueryAt P toNumber now raw).1 = (extractQuery P raw).1 := by
  have hbody (q : List Char) (hq : strip Regex.isSpace q = q) :
      bodyOf q (temporalMatch q) = strip Regex.isSpace (temporalQuery q).2 := by
    unfold temporalMatch temporalQuery
    cases hlatest : countedBody "latest" q with
    | some g => rfl
    | none =>
      cases hrecent : countedBody "recent" q with
      | some g => rfl
      | none =>
        dsimp only
        cases hbefore : (afterWord "before" q).filter (· ≠ []) with
        | some rest =>
          obtain ⟨hrest, hne⟩ := Option.filter_eq_some_iff.mp hbefore
          rw [if_pos (by rw [hrest, Option.any_some, hne]; rfl)]
          rfl
        | none =>
          cases hafter : (afterWord "after" q).filter fun r => r ≠ [] && r.all fun c => !isLineEnd c with
          | some rest =>
            obtain ⟨hrest, hline⟩ := Option.filter_eq_some_iff.mp hafter
            rw [if_pos (by rw [hrest, Option.any_some, hline, Bool.or_true])]
            rfl
          | none =>
            rw [if_neg, Option.map_none]
            · exact hq.symm
            · rw [Bool.or_eq_true, Option.any_eq_true, Option.any_eq_true]
              rintro (⟨r, hr, hne⟩ | ⟨r, hr, hline⟩)
              · exact Option.filter_eq_none_iff.mp hbefore r hr hne
              · exact Option.filter_eq_none_iff.mp hafter r hr hline
  have hstrip : strip Regex.isSpace (Jobs.trim (raw.getD "")).toList = (Jobs.trim (raw.getD "")).toList := by
    rw [toList_trim, Delimited.strip_strip]
  unfold extractQueryAt extractQuery
  dsimp only
  split_ifs
  · rfl
  · have hlist (l : List Char) : Jobs.trim (.ofList l) = .ofList (strip Regex.isSpace l) := by
      rw [← String.toList_inj, toList_trim, String.toList_ofList, String.toList_ofList]
    rw [hbody _ hstrip, termsOf, ← hlist]

/-- `extractQuery` recovers what a query says if and only if its count is read as it stands and stands before
    a text of one line, or its date is today, yesterday or an ISO date. -/
theorem extractQueryAt_recovers_iff (hP : ReadsQueries P toNumber) (raw : String) (form : QueryForm)
    (hform : form.Of (Jobs.trim raw).toList) :
    form.Recovered P toNumber raw ↔ form.Recoverable P toNumber := by
  have hstrip : strip Regex.isSpace (Jobs.trim raw).toList = (Jobs.trim raw).toList := by
    rw [toList_trim, Delimited.strip_strip]
  cases form with
  | counted word count body =>
    obtain ⟨s, hleads, hs, hblank, hbody⟩ := hform
    have hmatch := temporalMatch_counted hleads hs hblank
    -- What is left of the body without white space around it.
    obtain ⟨x, hx⟩ : ∃ x, (Jobs.trim raw).toList = x ++ (s ++ body) := by
      obtain ⟨w, s', heq, -⟩ := hleads
      exact ⟨w ++ (s' ++ count.val), by rw [heq]; simp⟩
    have hbodyStrip : strip Regex.isSpace body = body.dropWhile Regex.isSpace :=
      strip_suffix (x := x ++ s) (by rw [List.append_assoc, ← hx, hstrip])
    have hne : strip Regex.isSpace body ≠ [] := by
      intro hnil
      rw [hx] at hstrip
      obtain ⟨c, hc, hspace⟩ := exists_of_strip hstrip (List.append_ne_nil_of_left_ne_nil hs body)
      rcases List.mem_append.mp hc with hc | hc
      · rw [hblank c hc] at hspace
        cases hspace
      · rw [hbodyStrip, List.dropWhile_eq_nil_iff] at hnil
        rw [hnil c hc] at hspace
        cases hspace
    have htrim : (Jobs.trim (.ofList body)).toList = strip Regex.isSpace body := by
      rw [toList_trim, String.toList_ofList]
    have halone (now : ℤ) : (extractQueryAt P toNumber now (some (.ofList body))).1 =
        termsOf P (strip Regex.isSpace body) := by
      rw [extractQueryAt_eq (by rw [htrim]; exact hne), htrim, temporalMatch_none hbody]
      rfl
    have hterms (now : ℤ) : (extractQueryAt P toNumber now (some raw)).1 =
        termsOf P ((strip Regex.isSpace body).takeWhile fun c => !isLineEnd c) := by
      rw [extractQueryAt_eq (leads_ne_nil hleads), hmatch, hbodyStrip]
      conv_rhs => rw [← termsOf_strip hP]
      cases word <;> rfl
    have hcount (now : ℤ) : (extractQueryAt P toNumber now (some raw)).2.count word =
        some (toNumber (.ofList count.val)) := by
      rw [extractQueryAt_eq (leads_ne_nil hleads), hmatch]
      cases word <;> rfl
    simp only [QueryForm.Recovered, QueryForm.Recoverable, halone, hterms, hcount, Option.some.injEq,
      termsOf_firstLine_iff hP]
    exact forall_const ℤ
  | dated word date =>
    obtain ⟨⟨c, l, hcl, hc⟩, hline, htext⟩ := dateText_line date
    rw [← parseDateToken_date hP word date]
    have hleads : Leads word.text (Jobs.trim raw).toList (c :: l) := hcl ▸ hform
    have hmatch := temporalMatch_dated hleads hc (hcl ▸ hline)
    refine forall_congr' fun now => ?_
    rw [extractQueryAt_eq (leads_ne_nil hleads), hmatch, ← hcl]
    cases word with
    | before =>
      change some (parseDateToken P toNumber now (strip Regex.isSpace date.text)) = _ ↔ _
      rw [htext, Option.some.injEq]
    | after =>
      change some (parseDateToken P toNumber now (strip Regex.isSpace date.text)) = _ ↔ _
      rw [htext, Option.some.injEq]
  | plain =>
    refine iff_of_true (fun now => ?_) trivial
    by_cases hne : (Jobs.trim raw).toList = []
    · have hraw : termsOf P raw.toList = [] := by
        rw [← termsOf_strip hP, ← toList_trim, hne, termsOf_nil hP]
      rw [hraw, extractQueryAt]
      dsimp only [Option.getD_some]
      rw [if_pos (String.toList_eq_nil_iff.mp hne)]
    · rw [extractQueryAt_eq hne, temporalMatch_none hform, bodyOf, toList_trim, termsOf_strip hP]
      rfl

end Recovery

/-! ### A platform that reads decimal numerals and ISO dates -/

def decimal (s : String) : JsNum :=
  if s ≠ "" ∧ s.toList.all Char.isDigit then .finite (digitsValue s.toList) else .nan

def isoPlatform : Platform := { plainPlatform with
  dateParse := fun s => match s.toList.splitOn '-' with
    | [year, month, day] => some (midnight (digitsValue year) (digitsValue month) (digitsValue day))
    | _ => none }

theorem digitsValue_padded (width n : ℕ) : digitsValue (padded width n) = n := by
  have hzeros (k : ℕ) : Nat.ofDigitChars 10 (List.replicate k '0') 0 = 0 := by
    rw [Nat.ofDigitChars_replicate_zero, Nat.mul_zero]
  change Nat.ofDigitChars 10 (padded width n) 0 = n
  rw [padded, Nat.ofDigitChars_append, hzeros, Nat.ofDigitChars_toDigits (by decide) (by decide)]

theorem not_isAlphanum {c : Char} (h : Regex.isSpace c = true) : c.isAlphanum = false := by
  rw [Bool.eq_false_iff]
  intro halpha
  simp only [Regex.isSpace, List.mem_cons, List.not_mem_nil, or_false, Bool.or_eq_true, Bool.and_eq_true,
    decide_eq_true_eq] at h
  simp only [Char.isAlphanum, Char.isAlpha, Char.isUpper, Char.isLower, Char.isDigit, Bool.or_eq_true,
    Bool.and_eq_true, decide_eq_true_eq, ge_iff_le, UInt32.le_iff_toNat_le] at halpha
  change ((65 ≤ c.toNat ∧ c.toNat ≤ 90) ∨ 97 ≤ c.toNat ∧ c.toNat ≤ 122) ∨ 48 ≤ c.toNat ∧ c.toNat ≤ 57 at halpha
  omega

theorem toLower_of_isSpace {c : Char} (h : Regex.isSpace c = true) : c.toLower = c := by
  have hnot := not_isAlphanum h
  simp only [Char.isAlphanum, Char.isAlpha, Char.isUpper, Bool.or_eq_false_iff] at hnot
  rw [Char.toLower, dif_neg]
  simpa using hnot.1.1

theorem readsQueries_iso : ReadsQueries isoPlatform decimal where
  number token h := by
    refine if_neg ?_
    rintro ⟨hne, hall⟩
    rw [String.toList_ofList, List.all_eq_true] at hall
    cases token with
    | nil => exact hne rfl
    | cons c l =>
      have hc : (c :: l).head?.any (· ∈ ['+', '-']) = false := by
        have hdigit := hall c List.mem_cons_self
        rw [Bool.eq_false_iff]
        intro hsign
        simp only [List.head?_cons, Option.any_some, List.mem_cons, List.not_mem_nil, or_false,
          decide_eq_true_eq] at hsign
        rcases hsign with rfl | rfl <;> cases hdigit
      have hrest : (c :: l).dropWhile Char.isDigit = [] := List.dropWhile_eq_nil_iff.mpr hall
      unfold isRelative at h
      simp only [hc, Bool.false_eq_true, if_false, hrest] at h
      simp at h
  iso date := by
    have hdash (n m : ℕ) : ∀ c ∈ padded n m, (c == '-') = false := by
      intro c hc
      have hdigit := padded_digits hc
      rw [beq_eq_false_iff_ne]
      rintro rfl
      cases hdigit
    have hsplit : date.text.splitOn '-' = [padded 4 date.year, padded 2 date.month, padded 2 date.day] := by
      rw [IsoDate.text, List.splitOn_eq_splitOnP, List.splitOnP_append_cons_of_forall_mem (hdash _ _) _ rfl,
        List.splitOnP_append_cons_of_forall_mem (hdash _ _) _ rfl, List.splitOnP_eq_singleton (hdash _ _)]
    simp only [isoPlatform, String.toList_ofList, hsplit, digitsValue_padded, IsoDate.instant]
  space c h := not_isAlphanum h
  lowerEmpty := rfl
  lowerAround x l y hx hy := by
    have hmap (w : List Char) (hw : ∀ c ∈ w, Regex.isSpace c = true) : w.map Char.toLower = w :=
      (List.map_congr_left fun c hc => toLower_of_isSpace (hw c hc)).trans (List.map_id w)
    change (String.ofList ((String.ofList (x ++ (l ++ y))).toList.map Char.toLower)).toList =
      x ++ ((String.ofList ((String.ofList l).toList.map Char.toLower)).toList ++ y)
    simp only [String.toList_ofList, List.map_append, hmap x hx, hmap y hy]
  lowerLines x y c hc := by
    change (String.ofList ((String.ofList (x ++ c :: y)).toList.map Char.toLower)).toList =
      (String.ofList ((String.ofList x).toList.map Char.toLower)).toList ++
        c :: (String.ofList ((String.ofList y).toList.map Char.toLower)).toList
    simp only [String.toList_ofList, List.map_append, List.map_cons,
      toLower_of_isSpace (isSpace_of_isLineEnd hc)]

def newYear2024 : IsoDate where
  year := 2024
  month := 1
  day := 1
  valid := by decide

/-- An ISO date. -/
theorem extractQueryAt_iso : QueryForm.Recovered isoPlatform decimal "before 2024-01-01"
    (.dated .before (.iso newYear2024)) :=
  (extractQueryAt_recovers_iff readsQueries_iso "before 2024-01-01" (.dated .before (.iso newYear2024))
    ⟨"before".toList, [' '], by decide +kernel, by decide, by decide,
      List.forall_iff_forall_mem.mp (by decide)⟩).mpr trivial

/-- `+3d` is no date. -/
theorem extractQueryAt_relative : ¬ ∀ (raw : String) (form : QueryForm),
    form.Of (Jobs.trim raw).toList → form.Recovered isoPlatform decimal raw := by
  intro h
  have hnow := h "before +3d" (.dated .before (.relative false ⟨['3'], by decide, List.forall_iff_forall_mem.mp (by decide)⟩ false .day))
    ⟨"before".toList, [' '], by decide +kernel, by decide, by decide,
      List.forall_iff_forall_mem.mp (by decide)⟩ 0
  have hnull : (extractQueryAt isoPlatform decimal 0 (some "before +3d")).2.beforeMs = some none := by
    decide +kernel
  rw [TemporalParts.instant, hnull] at hnow
  cases hnow

end Remembra.Retrieval
