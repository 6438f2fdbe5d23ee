import Mathlib.Data.List.TakeWhile
import Remembra.Lib.Js

/-! Texts of JSON. `parse` reads a text; `IsText` says which texts a value has, with any white space, any
    escapes and any order of properties, and what is a text of a value is read as the value
    (`parse_text`). -/

namespace Remembra.Json
open Js

variable {N : Type*}

/-! ### Characters -/

def isBlank (c : Char) : Bool := c ∈ [' ', '\t', '\n', '\r']

def skip (l : List Char) : List Char := l.dropWhile isBlank

def Blank (l : List Char) : Prop := ∀ c ∈ l, isBlank c = true

/-- The escapes of one letter. -/
def escapes : List (Char × Char) :=
  [('"', '"'), ('\\', '\\'), ('/', '/'), ('b', Char.ofNat 8), ('f', Char.ofNat 12), ('n', '\n'),
    ('r', '\r'), ('t', '\t')]

def hexDigit (c : Char) : Option ℕ :=
  if c.isDigit then some (c.toNat - 48)
  else if 'a' ≤ c ∧ c ≤ 'f' then some (c.toNat - 87)
  else if 'A' ≤ c ∧ c ≤ 'F' then some (c.toNat - 55)
  else none

def hex4 (a b c d : Char) : Option ℕ :=
  match hexDigit a, hexDigit b, hexDigit c, hexDigit d with
  | some a, some b, some c, some d => some (((16 * a + b) * 16 + c) * 16 + d)
  | _, _, _, _ => none

def isHigh (n : ℕ) : Bool := 0xd800 ≤ n && n < 0xdc00
def isLow (n : ℕ) : Bool := 0xdc00 ≤ n && n < 0xe000

/-- The character of a code unit; a surrogate that stands alone has none. -/
def ofUnit (n : ℕ) : Char := if isHigh n || isLow n then '\ufffd' else Char.ofNat n

def ofPair (high low : ℕ) : Char := Char.ofNat (0x10000 + (high - 0xd800) * 0x400 + (low - 0xdc00))

/-- The second half of a pair of surrogates. -/
def readLow : List Char → Option (ℕ × List Char)
  | '\\' :: 'u' :: e :: f :: g :: h :: l => ((hex4 e f g h).filter isLow).map (·, l)
  | _ => none

/-- What stands after `\u`. -/
def readUnit : List Char → Option (Char × List Char)
  | a :: b :: c :: d :: l =>
    (hex4 a b c d).map fun n =>
      match if isHigh n then readLow l else none with
      | some (low, l) => (ofPair n low, l)
      | none => (ofUnit n, l)
  | _ => none

/-- What stands after the mark of an escape. -/
def readEscape : List Char → Option (Char × List Char)
  | 'u' :: l => readUnit l
  | e :: l => (escapes.lookup e).map (·, l)
  | [] => none

/-- One character of a string. -/
def readChar : List Char → Option (Char × List Char)
  | c :: l => if c = '\\' then readEscape l else if c = '"' ∨ c.toNat < 32 then none else some (c, l)
  | [] => none

/-- The rest of a string, after its opening mark. -/
def readString : ℕ → List Char → Option (List Char × List Char)
  | 0, _ => none
  | fuel + 1, l =>
    if l.head? = some '"' then some ([], l.tail)
    else (readChar l).bind fun (c, l) => (readString fuel l).map fun (s, l) => (c :: s, l)

/-! ### Numbers -/

def isNumberChar (c : Char) : Bool := c.isDigit || c ∈ ['-', '+', '.', 'e', 'E']

def afterDigits (l : List Char) : Option (List Char) :=
  if l.head?.any Char.isDigit then some (l.dropWhile Char.isDigit) else none

def afterWhole : List Char → Option (List Char)
  | '0' :: l => some l
  | l => afterDigits l

def afterFraction : List Char → Option (List Char)
  | '.' :: l => afterDigits l
  | l => some l

def afterSign : List Char → List Char
  | '+' :: l | '-' :: l => l
  | l => l

def afterExponent : List Char → Option (List Char)
  | 'e' :: l | 'E' :: l => afterDigits (afterSign l)
  | l => some l

/-- A number as JSON writes it. -/
def isNumber (l : List Char) : Bool :=
  ((afterWhole (if l.head? = some '-' then l.tail else l)).bind afterFraction).bind afterExponent = some []

/-! ### The reader -/

section Reader
variable (number : List Char → N)

/-- A word or a number. -/
def readScalar (l : List Char) : Option (Value N × List Char) :=
  if "null".toList.isPrefixOf l then some (.null, l.drop 4)
  else if "true".toList.isPrefixOf l then some (.bool true, l.drop 4)
  else if "false".toList.isPrefixOf l then some (.bool false, l.drop 5)
  else if isNumber (l.takeWhile isNumberChar) then
    some (.num (number (l.takeWhile isNumberChar)), l.dropWhile isNumberChar)
  else none

mutual

/-- A value, and what is left. -/
def readValue : ℕ → List Char → Option (Value N × List Char)
  | 0, _ => none
  | fuel + 1, '"' :: l => (readString fuel l).map fun (s, l) => (.str (.ofList s), l)
  | fuel + 1, '[' :: l =>
    if (skip l).head? = some ']' then some (.array [], (skip l).tail)
    else (readItems fuel (skip l)).map fun (items, l) => (.array items, l)
  | fuel + 1, '\x7b' :: l =>
    if (skip l).head? = some '\x7d' then some (.object [], (skip l).tail)
    else (readMembers fuel (skip l)).map fun (fields, l) => (.object fields, l)
  | _ + 1, l => readScalar number l

/-- The items of an array, and its end. -/
def readItems : ℕ → List Char → Option (List (Value N) × List Char)
  | 0, _ => none
  | fuel + 1, l =>
    (readValue fuel l).bind fun (item, l) =>
      match skip l with
      | ',' :: l => (readItems fuel (skip l)).map fun (items, l) => (item :: items, l)
      | ']' :: l => some ([item], l)
      | _ => none

/-- The properties of an object, and its end. -/
def readMembers : ℕ → List Char → Option (List (String × Value N) × List Char)
  | fuel + 1, '"' :: l =>
    (readString fuel l).bind fun (key, l) =>
      match skip l with
      | ':' :: l =>
        (readValue fuel (skip l)).bind fun (value, l) =>
          match skip l with
          | ',' :: l => (readMembers fuel (skip l)).map fun (fields, l) => ((.ofList key, value) :: fields, l)
          | '\x7d' :: l => some ([(.ofList key, value)], l)
          | _ => none
      | _ => none
  | _, _ => none

end

/-- `JSON.parse(text)` -/
@[irreducible] def parse (text : List Char) : Option (Value N) :=
  match readValue number (2 * text.length + 1) (skip text) with
  | some (v, l) => if l.all isBlank then some v else none
  | none => none

end Reader

/-- The property of an object; of two with one name it is the last. -/
def property (fields : List (String × Value N)) (key : String) : Option (Value N) := fields.reverse.lookup key

section Property
variable {key : String} {value : Value N} {fields before after : List (String × Value N)}

theorem property_eq_none (h : ∀ field ∈ fields, field.1 ≠ key) : property fields key = none := by
  refine List.lookup_eq_none_iff.mpr fun field hfield => ?_
  simpa using (h field (List.mem_reverse.mp hfield)).symm

variable (value before) in
theorem property_append (h : ∀ field ∈ after, field.1 ≠ key) :
    property (before ++ (key, value) :: after) key = some value := by
  have hafter : List.lookup key after.reverse = none := property_eq_none h
  rw [property, List.reverse_append, List.reverse_cons, List.append_assoc, List.lookup_append, hafter]
  simp

end Property

/-! ### The texts of a value -/

/-- The texts of a character in a string. -/
inductive IsChar : Char → List Char → Prop
  | plain {c : Char} (h : c ≠ '"' ∧ c ≠ '\\' ∧ 32 ≤ c.toNat) : IsChar c [c]
  | escape {e c : Char} (h : escapes.lookup e = some c) : IsChar c ['\\', e]
  | unit {a b c d : Char} {n : ℕ} (h : hex4 a b c d = some n) (hhigh : isHigh n = false)
    (hlow : isLow n = false) : IsChar (Char.ofNat n) ['\\', 'u', a, b, c, d]
  | pair {a b c d e f g h : Char} {m n : ℕ} (hm : hex4 a b c d = some m) (hhigh : isHigh m = true)
    (hn : hex4 e f g h = some n) (hlow : isLow n = true) :
    IsChar (ofPair m n) ['\\', 'u', a, b, c, d, '\\', 'u', e, f, g, h]

/-- The texts of what stands between the marks of a string. -/
def IsBody : List Char → List Char → Prop
  | [], l => l = []
  | c :: s, l => ∃ x r, l = x ++ r ∧ IsChar c x ∧ IsBody s r

def IsString (s : String) (l : List Char) : Prop := ∃ x, l = '"' :: (x ++ ['"']) ∧ IsBody s.toList x

/-- A key with the colon after it, and blanks around both. -/
def IsKey (key : String) (l : List Char) : Prop :=
  ∃ w k w' w'', l = w ++ (k ++ (w' ++ ':' :: w'')) ∧ Blank w ∧ IsString key k ∧ Blank w' ∧ Blank w''

section Texts
variable (number : List Char → N)

mutual

/-- The text is one of the value. -/
def IsText : Value N → List Char → Prop
  | .undefined, _ => False
  | .null, l => l = "null".toList
  | .bool b, l => l = (if b then "true" else "false").toList
  | .num n, l => (∀ c ∈ l, isNumberChar c = true) ∧ isNumber l = true ∧ n = number l
  | .str s, l => IsString s l
  | .array [], l => ∃ w, l = '[' :: (w ++ [']']) ∧ Blank w
  | .array (item :: items), l => ∃ w x w' r, l = '[' :: (w ++ (x ++ (w' ++ (r ++ [']'])))) ∧
    Blank w ∧ IsText item x ∧ Blank w' ∧ AreItems items r
  | .object [], l => ∃ w, l = '\x7b' :: (w ++ ['\x7d']) ∧ Blank w
  | .object ((key, value) :: fields), l => ∃ k x w r, l = '\x7b' :: (k ++ (x ++ (w ++ (r ++ ['\x7d'])))) ∧
    IsKey key k ∧ IsText value x ∧ Blank w ∧ AreMembers fields r

/-- The texts of the items after the first one, each with a comma before it. -/
def AreItems : List (Value N) → List Char → Prop
  | [], l => l = []
  | item :: items, l => ∃ w x w' r, l = ',' :: (w ++ (x ++ (w' ++ r))) ∧
    Blank w ∧ IsText item x ∧ Blank w' ∧ AreItems items r

/-- The texts of the properties after the first one. -/
def AreMembers : List (String × Value N) → List Char → Prop
  | [], l => l = []
  | (key, value) :: fields, l => ∃ k x w r, l = ',' :: (k ++ (x ++ (w ++ r))) ∧
    IsKey key k ∧ IsText value x ∧ Blank w ∧ AreMembers fields r

end

end Texts

/-- A string is its own text where nothing needs an escape. -/
theorem isString_plain {s : String} (hs : s.toList.Forall fun c => c ≠ '"' ∧ c ≠ '\\' ∧ 32 ≤ c.toNat) :
    IsString s ('"' :: (s.toList ++ ['"'])) := by
  have hbody (l : List Char) (hl : ∀ c ∈ l, c ≠ '"' ∧ c ≠ '\\' ∧ 32 ≤ c.toNat) : IsBody l l := by
    induction l with
    | nil => rfl
    | cons c l ih =>
      exact ⟨[c], l, rfl, .plain (hl c List.mem_cons_self), ih fun d hd => hl d (List.mem_cons_of_mem _ hd)⟩
  exact ⟨s.toList, rfl, hbody _ (List.forall_iff_forall_mem.mp hs)⟩

theorem isKey_plain {s : String} (hs : s.toList.Forall fun c => c ≠ '"' ∧ c ≠ '\\' ∧ 32 ≤ c.toNat) :
    IsKey s ('"' :: (s.toList ++ ['"', ':'])) :=
  ⟨[], _, [], [], by simp, List.forall_mem_nil _, isString_plain hs, List.forall_mem_nil _,
    List.forall_mem_nil _⟩

/-! ### What is a text of a value is read as the value -/

/-- No blank in front. -/
def Starts (l : List Char) : Prop := ∀ c ∈ l.head?, isBlank c = false

/-- A number that stands before it ends there. -/
def Stops (l : List Char) : Prop := ∀ c ∈ l.head?, isNumberChar c = false

section Completeness
variable {number : List Char → N} {w l r x : List Char} {c : Char} {fuel : ℕ}

theorem skip_append (hw : Blank w) (hr : Starts r) : skip (w ++ r) = r := by
  induction w with
  | nil =>
    cases r with
    | nil => rfl
    | cons c r =>
      have hc : isBlank c = false := hr c rfl
      simp [skip, hc]
  | cons c w ih =>
    have hc : isBlank c = true := hw c List.mem_cons_self
    have hrest := ih fun d hd => hw d (List.mem_cons_of_mem _ hd)
    rw [skip] at hrest ⊢
    rw [List.cons_append, List.dropWhile_cons_of_pos hc, hrest]

theorem stops_cons (hc : isNumberChar c = false) : Stops (c :: l) := by
  intro d hd
  obtain rfl : c = d := Option.some.inj hd
  exact hc

theorem starts_cons (hc : isBlank c = false) : Starts (c :: l) := by
  intro d hd
  obtain rfl : c = d := Option.some.inj hd
  exact hc

/-- No blank is a part of a number. -/
theorem stops_blank_append (hw : Blank w) (hr : Stops r) : Stops (w ++ r) := by
  cases w with
  | nil => exact hr
  | cons c w =>
    have hc := hw c List.mem_cons_self
    simp only [isBlank, List.mem_cons, List.not_mem_nil, or_false, decide_eq_true_eq] at hc
    refine stops_cons ?_
    rcases hc with rfl | rfl | rfl | rfl <;> decide

/-! #### Strings -/

theorem ofUnit_of_not {n : ℕ} (hhigh : isHigh n = false) (hlow : isLow n = false) :
    ofUnit n = Char.ofNat n := by
  simp [ofUnit, hhigh, hlow]

theorem readChar_isChar (h : IsChar c x) (r : List Char) : readChar (x ++ r) = some (c, r) := by
  cases h with
  | plain h =>
    obtain ⟨hquote, hslash, hcontrol⟩ := h
    have hnot : ¬ (c = '"' ∨ c.toNat < 32) := by
      rintro (rfl | hlt)
      · exact hquote rfl
      · omega
    rw [List.singleton_append, readChar, if_neg hslash, if_neg hnot]
  | escape h =>
    rename_i e
    have hne : e ≠ 'u' := by
      rintro rfl
      cases h
    have hread : readEscape (e :: r) = (escapes.lookup e).map (·, r) := by
      rw [readEscape]
      exact hne
    simp [readChar, hread, h]
  | unit h hhigh hlow =>
    simp [readChar, readEscape, readUnit, h, hhigh, ofUnit_of_not hhigh hlow]
  | pair hm hhigh hn hlow =>
    simp [readChar, readEscape, readUnit, readLow, hm, hhigh, hn, Option.filter_some, hlow]

/-- A character has a text that is not empty and does not begin as the string ends. -/
theorem isChar_head (h : IsChar c x) : ∃ d l, x = d :: l ∧ d ≠ '"' := by
  cases h with
  | plain h => exact ⟨c, [], rfl, h.1⟩
  | escape h => exact ⟨'\\', _, rfl, by decide⟩
  | unit h hhigh hlow => exact ⟨'\\', _, rfl, by decide⟩
  | pair hm hhigh hn hlow => exact ⟨'\\', _, rfl, by decide⟩

variable (fuel) in
theorem readString_isBody {s : List Char} (h : IsBody s x) (hfuel : x.length + 1 ≤ fuel) (r : List Char) :
    readString fuel (x ++ '"' :: r) = some (s, r) := by
  induction s generalizing x fuel with
  | nil =>
    obtain rfl : x = [] := h
    obtain ⟨n, rfl⟩ : ∃ n, fuel = n + 1 := ⟨fuel - 1, by simp at hfuel; omega⟩
    rfl
  | cons c s ih =>
    obtain ⟨y, z, rfl, hchar, hbody⟩ := h
    obtain ⟨d, l, rfl, hd⟩ := isChar_head hchar
    obtain ⟨n, rfl⟩ : ∃ n, fuel = n + 1 := ⟨fuel - 1, by simp at hfuel; omega⟩
    have hhead : ((d :: l) ++ z ++ '"' :: r).head? ≠ some '"' := fun heq => hd (Option.some.inj heq)
    have hrest : readString n (z ++ '"' :: r) = some (s, r) := by
      refine ih _ hbody ?_
      simp at hfuel
      omega
    rw [readString, if_neg hhead, List.append_assoc, readChar_isChar hchar]
    simp [hrest]

/-! #### Values -/

theorem readValue_scalar (hl : ∀ c ∈ l.head?, c ≠ '"' ∧ c ≠ '[' ∧ c ≠ '\x7b') (fuel : ℕ) :
    readValue number (fuel + 1) l = readScalar number l := by
  cases l with
  | nil => rw [readValue] <;> simp
  | cons c l =>
    obtain ⟨hquote, hbracket, hbrace⟩ := hl c rfl
    rw [readValue] <;> simp [hquote, hbracket, hbrace]

theorem takeWhile_number (hx : ∀ c ∈ x, isNumberChar c = true) (hr : Stops r) :
    (x ++ r).takeWhile isNumberChar = x ∧ (x ++ r).dropWhile isNumberChar = r := by
  have hend : r.takeWhile isNumberChar = [] ∧ r.dropWhile isNumberChar = r := by
    cases r with
    | nil => exact ⟨rfl, rfl⟩
    | cons c r =>
      have hc : isNumberChar c = false := hr c rfl
      simp [hc]
  rw [List.takeWhile_append_of_pos hx, List.dropWhile_append_of_pos hx, hend.1, hend.2, List.append_nil]
  exact ⟨rfl, rfl⟩

/-- A text begins with a letter that tells a value from what may stand in its place. -/
theorem isText_head {v : Value N} (h : IsText number v x) :
    ∃ c l, x = c :: l ∧ isBlank c = false ∧ c ≠ ']' ∧ c ≠ '\x7d' := by
  cases v with
  | undefined => cases h
  | null => exact ⟨'n', _, h, by decide, by decide, by decide⟩
  | bool b =>
    cases b with
    | false => exact ⟨'f', _, h, by decide, by decide, by decide⟩
    | true => exact ⟨'t', _, h, by decide, by decide, by decide⟩
  | num n =>
    obtain ⟨hchars, hnumber, -⟩ := h
    cases x with
    | nil => exact absurd hnumber (by decide)
    | cons c l =>
      have hc := hchars c List.mem_cons_self
      have hnone : ∀ d ∈ [' ', '\t', '\n', '\r', ']', '\x7d'], isNumberChar d = false :=
        List.forall_iff_forall_mem.mp (by decide)
      have hcases : ∀ d ∈ [' ', '\t', '\n', '\r', ']', '\x7d'], c ≠ d := by
        rintro d hd rfl
        rw [hnone c hd] at hc
        cases hc
      refine ⟨c, l, rfl, ?_, hcases _ (by simp), hcases _ (by simp)⟩
      simp only [isBlank, decide_eq_false_iff_not]
      exact fun hmem => hcases c (List.mem_append_left [']', '\x7d'] hmem) rfl
  | str s =>
    obtain ⟨y, rfl, -⟩ := h
    exact ⟨'"', _, rfl, by decide, by decide, by decide⟩
  | array items =>
    cases items with
    | nil =>
      obtain ⟨w, rfl, -⟩ := h
      exact ⟨'[', _, rfl, by decide, by decide, by decide⟩
    | cons item items =>
      obtain ⟨w, y, w', r, rfl, -⟩ := h
      exact ⟨'[', _, rfl, by decide, by decide, by decide⟩
  | object fields =>
    cases fields with
    | nil =>
      obtain ⟨w, rfl, -⟩ := h
      exact ⟨'\x7b', _, rfl, by decide, by decide, by decide⟩
    | cons field fields =>
      obtain ⟨k, y, w, r, rfl, -⟩ := h
      exact ⟨'\x7b', _, rfl, by decide, by decide, by decide⟩

theorem starts_isText {v : Value N} (h : IsText number v x) (r : List Char) : Starts (x ++ r) := by
  obtain ⟨c, l, rfl, hc, -⟩ := isText_head h
  exact starts_cons hc

theorem length_isText_pos {v : Value N} (h : IsText number v x) : 0 < x.length := by
  obtain ⟨c, l, rfl, -⟩ := isText_head h
  simp

theorem readScalar_num {n : N} (h : IsText number (.num n) x) (hr : Stops r) :
    readScalar number (x ++ r) = some (.num n, r) := by
  obtain ⟨hchars, hnumber, rfl⟩ := h
  obtain ⟨htake, hdrop⟩ := takeWhile_number hchars hr
  have hword : ∀ word ∈ ["null", "true", "false"], ¬ word.toList.isPrefixOf (x ++ r) = true := by
    intro word hword hprefix
    cases x with
    | nil => exact absurd hnumber (by decide)
    | cons c l =>
      have hc := hchars c List.mem_cons_self
      have hfirst : ∀ word ∈ ["null", "true", "false"], ∃ d t, word.toList = d :: t ∧
          isNumberChar d = false := by
        simp only [List.mem_cons, List.not_mem_nil, or_false, forall_eq_or_imp, forall_eq]
        exact ⟨⟨_, _, rfl, by decide⟩, ⟨_, _, rfl, by decide⟩, _, _, rfl, by decide⟩
      obtain ⟨d, t, hd, hnone⟩ := hfirst word hword
      rw [hd, List.cons_append, List.isPrefixOf_cons_cons, Bool.and_eq_true, beq_iff_eq] at hprefix
      rw [← hprefix.1, hnone] at hc
      cases hc
  rw [readScalar, if_neg (hword _ (by simp)), if_neg (hword _ (by simp)), if_neg (hword _ (by simp)),
    htake, hdrop, if_pos hnumber]

/-- Some texts of one value, as the induction over values has it. -/
def Reads (number : List Char → N) (v : Value N) : Prop :=
  ∀ x fuel r, IsText number v x → 2 * x.length ≤ fuel → Stops r →
    readValue number fuel (x ++ r) = some (v, r)

/-- One item, and what follows it. -/
theorem readItems_item {item : Value N} (hitem : Reads number item) (hx : IsText number item x)
    (hfuel : 2 * x.length ≤ fuel) (hl : Stops l) : readItems number (fuel + 1) (x ++ l) =
      match skip l with
      | ',' :: l => (readItems number fuel (skip l)).map fun (items, l) => (item :: items, l)
      | ']' :: l => some ([item], l)
      | _ => none := by
  rw [readItems, hitem x fuel l hx hfuel hl, Option.bind_some]

variable (fuel) in
theorem readItems_areItems {item : Value N} {items : List (Value N)} (hitem : Reads number item)
    (hitems : ∀ v ∈ items, Reads number v) (hx : IsText number item x) {w' : List Char} (hw' : Blank w')
    {z : List Char} (hz : AreItems number items z)
    (hfuel : 2 * (x.length + w'.length + z.length) + 1 ≤ fuel) (r : List Char) :
    readItems number fuel (x ++ (w' ++ (z ++ ']' :: r))) = some (item :: items, r) := by
  induction items generalizing item x w' z fuel with
  | nil =>
    obtain rfl : z = [] := hz
    obtain ⟨n, rfl⟩ : ∃ n, fuel = n + 1 := ⟨fuel - 1, by omega⟩
    have hstops : Stops (w' ++ ([] ++ ']' :: r)) := stops_blank_append hw' (stops_cons (by decide))
    have hskip : skip (w' ++ ([] ++ ']' :: r)) = ']' :: r := skip_append hw' (starts_cons (by decide))
    rw [readItems_item hitem hx (by omega) hstops, hskip]
    rfl
  | cons next items ih =>
    obtain ⟨w, y, v', t, rfl, hw, hy, hv', ht⟩ := hz
    obtain ⟨n, rfl⟩ : ∃ n, fuel = n + 1 := ⟨fuel - 1, by omega⟩
    have hrest := ih n (hitems next List.mem_cons_self) (fun v hv => hitems v (List.mem_cons_of_mem _ hv)) hy
      hv' ht (by simp only [List.length_cons, List.length_append] at hfuel; omega)
    have hskip : skip (w' ++ (',' :: (w ++ (y ++ (v' ++ t))) ++ ']' :: r)) =
        ',' :: (w ++ (y ++ (v' ++ (t ++ ']' :: r)))) := by
      simpa using skip_append hw' (r := ',' :: (w ++ (y ++ (v' ++ (t ++ ']' :: r)))))
        (starts_cons (by decide))
    have hskip' : skip (w ++ (y ++ (v' ++ (t ++ ']' :: r)))) = y ++ (v' ++ (t ++ ']' :: r)) :=
      skip_append hw (starts_isText hy _)
    have hstops : Stops (w' ++ (',' :: (w ++ (y ++ (v' ++ t))) ++ ']' :: r)) :=
      stops_blank_append hw' (stops_cons (by decide))
    rw [readItems_item hitem hx (by omega) hstops, hskip]
    change Option.map _ (readItems number n (skip _)) = _
    rw [hskip', hrest]
    rfl

theorem skip_key_head {key : String} {k : List Char} (hk : IsKey key k) (l : List Char) :
    (skip (k ++ l)).head? = some '"' := by
  obtain ⟨w₁, m, w₂, w₃, rfl, hw₁, ⟨s, rfl, -⟩, -⟩ := hk
  have hskip := skip_append hw₁ (r := '"' :: (s ++ ['"']) ++ (w₂ ++ ':' :: w₃) ++ l)
    (starts_cons (by decide))
  rw [List.append_assoc, hskip]
  rfl

/-- One property, and what follows it. -/
theorem readMembers_member {key : String} {value : Value N} (hvalue : Reads number value) {k : List Char}
    (hk : IsKey key k) (hx : IsText number value x) (hfuel : 2 * (k.length + x.length) ≤ fuel)
    (hl : Stops l) : readMembers number (fuel + 1) (skip (k ++ (x ++ l))) =
      match skip l with
      | ',' :: l => (readMembers number fuel (skip l)).map fun (fields, l) => ((key, value) :: fields, l)
      | '\x7d' :: l => some ([(key, value)], l)
      | _ => none := by
  obtain ⟨w₁, m, w₂, w₃, rfl, hw₁, ⟨s, rfl, hs⟩, hw₂, hw₃⟩ := hk
  simp only [List.length_append, List.length_cons] at hfuel
  have hstart : skip ((w₁ ++ ('"' :: (s ++ ['"']) ++ (w₂ ++ ':' :: w₃))) ++ (x ++ l)) =
      '"' :: (s ++ '"' :: (w₂ ++ ':' :: (w₃ ++ (x ++ l)))) := by
    simpa using skip_append hw₁ (r := '"' :: (s ++ '"' :: (w₂ ++ ':' :: (w₃ ++ (x ++ l)))))
      (starts_cons (by decide))
  have hkey := readString_isBody fuel hs (by omega) (w₂ ++ ':' :: (w₃ ++ (x ++ l)))
  have hcolon : skip (w₂ ++ ':' :: (w₃ ++ (x ++ l))) = ':' :: (w₃ ++ (x ++ l)) :=
    skip_append hw₂ (starts_cons (by decide))
  have hvalueStart : skip (w₃ ++ (x ++ l)) = x ++ l := skip_append hw₃ (starts_isText hx l)
  rw [hstart, readMembers, hkey, Option.bind_some]
  dsimp only
  rw [hcolon]
  change Option.bind (readValue number fuel (skip _)) _ = _
  rw [hvalueStart, hvalue x fuel l hx (by omega) hl, Option.bind_some, String.ofList_toList]

variable (fuel) in
theorem readMembers_areMembers {key : String} {value : Value N} {fields : List (String × Value N)}
    (hvalue : Reads number value) (hfields : ∀ field ∈ fields, Reads number field.2) {k : List Char}
    (hk : IsKey key k) (hx : IsText number value x) (hw : Blank w) {z : List Char}
    (hz : AreMembers number fields z)
    (hfuel : 2 * (k.length + x.length + w.length + z.length) + 1 ≤ fuel) (r : List Char) :
    readMembers number fuel (skip (k ++ (x ++ (w ++ (z ++ '\x7d' :: r))))) =
      some ((key, value) :: fields, r) := by
  induction fields generalizing key value k x w z fuel with
  | nil =>
    obtain rfl : z = [] := hz
    obtain ⟨n, rfl⟩ : ∃ n, fuel = n + 1 := ⟨fuel - 1, by omega⟩
    have hstops : Stops (w ++ ([] ++ '\x7d' :: r)) := stops_blank_append hw (stops_cons (by decide))
    have hskip : skip (w ++ ([] ++ '\x7d' :: r)) = '\x7d' :: r := skip_append hw (starts_cons (by decide))
    rw [readMembers_member hvalue hk hx (by omega) hstops, hskip]
    rfl
  | cons field fields ih =>
    obtain ⟨nextKey, next⟩ := field
    obtain ⟨k', y, v, t, rfl, hk', hy, hv, ht⟩ := hz
    obtain ⟨n, rfl⟩ : ∃ n, fuel = n + 1 := ⟨fuel - 1, by omega⟩
    have hrest := ih n (hfields (nextKey, next) List.mem_cons_self)
      (fun f hf => hfields f (List.mem_cons_of_mem _ hf)) hk' hy hv ht
      (by simp only [List.length_cons, List.length_append] at hfuel; omega)
    have hskip : skip (w ++ (',' :: (k' ++ (y ++ (v ++ t))) ++ '\x7d' :: r)) =
        ',' :: (k' ++ (y ++ (v ++ (t ++ '\x7d' :: r)))) := by
      simpa using skip_append hw (r := ',' :: (k' ++ (y ++ (v ++ (t ++ '\x7d' :: r)))))
        (starts_cons (by decide))
    have hstops : Stops (w ++ (',' :: (k' ++ (y ++ (v ++ t))) ++ '\x7d' :: r)) :=
      stops_blank_append hw (stops_cons (by decide))
    rw [readMembers_member hvalue hk hx (by omega) hstops, hskip]
    change Option.map _ (readMembers number n (skip _)) = _
    rw [hrest]
    rfl

/-- A text of a value is read as the value, whatever follows that is no part of a number. -/
theorem readValue_text (v : Value N) : Reads number v := by
  induction v using Value.inductionOn with
  | undefined => intro x fuel r hx; cases hx
  | null =>
    intro x fuel r hx hfuel hr
    obtain rfl : x = "null".toList := hx
    obtain ⟨n, rfl⟩ : ∃ n, fuel = n + 1 := ⟨fuel - 1, by simp at hfuel; omega⟩
    rw [readValue_scalar (by simp)]
    rfl
  | bool b =>
    intro x fuel r hx hfuel hr
    obtain rfl : x = (if b then "true" else "false").toList := hx
    obtain ⟨n, rfl⟩ : ∃ n, fuel = n + 1 := ⟨fuel - 1, by cases b <;> simp at hfuel <;> omega⟩
    rw [readValue_scalar (by cases b <;> simp)]
    cases b with
    | false => rfl
    | true => rfl
  | num k =>
    intro x fuel r hx hfuel hr
    have hpos := length_isText_pos hx
    obtain ⟨n, rfl⟩ : ∃ n, fuel = n + 1 := ⟨fuel - 1, by omega⟩
    have hhead : ∀ c ∈ (x ++ r).head?, c ≠ '"' ∧ c ≠ '[' ∧ c ≠ '\x7b' := by
      obtain ⟨hchars, -⟩ := hx
      cases x with
      | nil => cases hpos
      | cons c l =>
        intro d hd
        obtain rfl : c = d := Option.some.inj hd
        have hc := hchars c List.mem_cons_self
        refine ⟨?_, ?_, ?_⟩ <;> rintro rfl <;> exact absurd hc (by decide)
    rw [readValue_scalar hhead, readScalar_num hx hr]
  | str s =>
    intro x fuel r hx hfuel hr
    obtain ⟨y, rfl, hy⟩ := hx
    simp only [List.length_cons, List.length_append, List.length_nil] at hfuel
    obtain ⟨n, rfl⟩ : ∃ n, fuel = n + 1 := ⟨fuel - 1, by omega⟩
    have hread := readString_isBody n hy (by omega) r
    rw [List.cons_append, List.append_assoc, readValue, List.singleton_append, hread]
    simp
  | array items ih =>
    intro x fuel r hx hfuel hr
    cases items with
    | nil =>
      obtain ⟨w, rfl, hw⟩ := hx
      obtain ⟨n, rfl⟩ : ∃ n, fuel = n + 1 := ⟨fuel - 1, by simp at hfuel; omega⟩
      have hskip : skip (w ++ ']' :: r) = ']' :: r := skip_append hw (starts_cons (by decide))
      rw [List.cons_append, List.append_assoc, readValue, List.singleton_append, hskip]
      simp
    | cons item items =>
      obtain ⟨w, y, w', z, rfl, hw, hy, hw', hz⟩ := hx
      simp only [List.length_cons, List.length_append, List.length_nil] at hfuel
      obtain ⟨n, rfl⟩ : ∃ n, fuel = n + 1 := ⟨fuel - 1, by omega⟩
      have hread := readItems_areItems n (ih item List.mem_cons_self)
        (fun v hv => ih v (List.mem_cons_of_mem _ hv)) hy hw' hz (by omega) r
      have hskip : skip (w ++ (y ++ (w' ++ (z ++ ']' :: r)))) = y ++ (w' ++ (z ++ ']' :: r)) :=
        skip_append hw (starts_isText hy _)
      have hassoc : ('[' :: (w ++ (y ++ (w' ++ (z ++ [']']))))) ++ r =
          '[' :: (w ++ (y ++ (w' ++ (z ++ ']' :: r)))) := by simp
      have hhead : (y ++ (w' ++ (z ++ ']' :: r))).head? ≠ some ']' := by
        obtain ⟨c, l, rfl, -, hc, -⟩ := isText_head hy
        exact fun heq => hc (Option.some.inj heq)
      rw [hassoc, readValue, hskip, if_neg hhead, hread]
      rfl
  | object fields ih =>
    intro x fuel r hx hfuel hr
    cases fields with
    | nil =>
      obtain ⟨w, rfl, hw⟩ := hx
      obtain ⟨n, rfl⟩ : ∃ n, fuel = n + 1 := ⟨fuel - 1, by simp at hfuel; omega⟩
      have hskip : skip (w ++ '\x7d' :: r) = '\x7d' :: r := skip_append hw (starts_cons (by decide))
      rw [List.cons_append, List.append_assoc, readValue, List.singleton_append, hskip]
      simp
    | cons field fields =>
      obtain ⟨key, value⟩ := field
      obtain ⟨k, y, w, z, rfl, hk, hy, hw, hz⟩ := hx
      simp only [List.length_cons, List.length_append, List.length_nil] at hfuel
      obtain ⟨n, rfl⟩ : ∃ n, fuel = n + 1 := ⟨fuel - 1, by omega⟩
      have hread := readMembers_areMembers n (ih (key, value) List.mem_cons_self)
        (fun f hf => ih f (List.mem_cons_of_mem _ hf)) hk hy hw hz (by omega) r
      have hassoc : ('\x7b' :: (k ++ (y ++ (w ++ (z ++ ['\x7d']))))) ++ r =
          '\x7b' :: (k ++ (y ++ (w ++ (z ++ '\x7d' :: r)))) := by simp
      have hhead : (skip (k ++ (y ++ (w ++ (z ++ '\x7d' :: r))))).head? ≠ some '\x7d' := by
        rw [skip_key_head hk]
        exact fun heq => absurd (Option.some.inj heq) (by decide)
      rw [hassoc, readValue, if_neg hhead, hread]
      rfl

/-- What is a text of a value, with blanks around it, is parsed as the value. -/
theorem parse_text {v : Value N} (hx : IsText number v x) {w' : List Char} (hw : Blank w) (hw' : Blank w') :
    parse number (w ++ (x ++ w')) = some v := by
  have hskip : skip (w ++ (x ++ w')) = x ++ w' := skip_append hw (starts_isText hx w')
  have hstops : Stops w' := by
    rw [← List.append_nil w']
    exact stops_blank_append hw' (fun c hc => by cases hc)
  have hread := readValue_text v x (2 * (w ++ (x ++ w')).length + 1) w' hx
    (by simp only [List.length_append]; omega) hstops
  rw [parse, hskip, hread]
  exact if_pos (List.all_eq_true.mpr hw')

end Completeness

end Remembra.Json
