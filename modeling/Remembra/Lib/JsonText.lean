import Remembra.Lib.Json

/-! How a value is written as JSON, in one line or indented by a gap. However it is indented, what is
    written is a text of what JSON keeps of the value (`isText_write`), so it is read back as that
    (`parse_write`). -/

namespace Remembra.Json
open Js

variable {N : Type*}

/-! ### Strings -/

/-- A digit of a number below sixteen. -/
def hexChar (n : ℕ) : Char := if n < 10 then Char.ofNat (48 + n) else Char.ofNat (87 + n)

/-- The text of a character in a string. -/
def escapeChar (c : Char) : List Char :=
  if c = '"' then ['\\', '"']
  else if c = '\\' then ['\\', '\\']
  else if c.toNat = 8 then ['\\', 'b']
  else if c.toNat = 12 then ['\\', 'f']
  else if c = '\n' then ['\\', 'n']
  else if c = '\r' then ['\\', 'r']
  else if c = '\t' then ['\\', 't']
  else if c.toNat < 32 then ['\\', 'u', '0', '0', hexChar (c.toNat / 16), hexChar (c.toNat % 16)]
  else [c]

def quote (s : String) : List Char := '"' :: (s.toList.flatMap escapeChar ++ ['"'])

/-! ### Values -/

/-- How numbers are written, and how they are read back. -/
structure Numerals (N : Type*) where
  finite : N → Bool
  text : N → List Char
  number : List Char → N
  numeral : ∀ n, finite n = true →
    (∀ c ∈ text n, isNumberChar c = true) ∧ isNumber (text n) = true ∧ n = number (text n)

/-- The end of a line, where lines are indented. -/
def lineBreak (gap indent : List Char) : List Char := if gap = [] then [] else '\n' :: indent

/-- What stands after the colon of a key. -/
def space (gap : List Char) : List Char := if gap = [] then [] else [' ']

/-- What stands between the brackets of an array or an object, by its parts. -/
def enclose (gap indent : List Char) (a b : Char) (parts : List (List Char)) : List Char :=
  if parts = [] then [a, b]
  else a :: (lineBreak gap (indent ++ gap) ++
    ((',' :: lineBreak gap (indent ++ gap)).intercalate parts ++ (lineBreak gap indent ++ [b])))

section Write
variable (num : Numerals N) (gap : List Char)

mutual

/-- `JSON.stringify(value, null, gap)` of a value other than `undefined`, or of an element of an array. -/
def write (indent : List Char) : Value N → List Char
  | .undefined => "null".toList
  | .null => "null".toList
  | .bool b => (if b then "true" else "false").toList
  | .num n => if num.finite n then num.text n else "null".toList
  | .str s => quote s
  | .array items => enclose gap indent '[' ']' (writeItems (indent ++ gap) items)
  | .object fields => enclose gap indent '\x7b' '\x7d' (writeFields (indent ++ gap) fields)

def writeItems (indent : List Char) : List (Value N) → List (List Char)
  | [] => []
  | item :: items => write indent item :: writeItems indent items

/-- The properties; those without a value are left out. -/
def writeFields (indent : List Char) : List (String × Value N) → List (List Char)
  | [] => []
  | (key, value) :: fields =>
    if value.isUndefined then writeFields indent fields
    else (quote key ++ ':' :: (space gap ++ write indent value)) ::
      writeFields indent fields

end

end Write

/-! ### What is written is a text of what JSON keeps -/

section Texts
variable {num : Numerals N} {gap indent : List Char}

theorem isChar_escapeChar (c : Char) : IsChar c (escapeChar c) := by
  have hunit : ∀ n < 32, hex4 '0' '0' (hexChar (n / 16)) (hexChar (n % 16)) = some n ∧
      isHigh n = false ∧ isLow n = false := by decide
  unfold escapeChar
  split_ifs with hquote hback h8 h12 hn hr ht hlow
  · subst hquote
    exact .escape rfl
  · subst hback
    exact .escape rfl
  · obtain rfl : c = Char.ofNat 8 := by rw [← h8, Char.ofNat_toNat]
    exact .escape rfl
  · obtain rfl : c = Char.ofNat 12 := by rw [← h12, Char.ofNat_toNat]
    exact .escape rfl
  · subst hn
    exact .escape rfl
  · subst hr
    exact .escape rfl
  · subst ht
    exact .escape rfl
  · obtain ⟨hhex, hhigh, hlow'⟩ := hunit c.toNat hlow
    have hchar := IsChar.unit hhex hhigh hlow'
    rwa [Char.ofNat_toNat] at hchar
  · exact .plain ⟨hquote, hback, by omega⟩

theorem isString_quote (s : String) : IsString s (quote s) := by
  refine ⟨_, rfl, ?_⟩
  induction s.toList with
  | nil => rfl
  | cons c l ih => exact ⟨escapeChar c, l.flatMap escapeChar, rfl, isChar_escapeChar c, ih⟩

variable (gap) in
theorem blank_lineBreak (hindent : Blank indent) : Blank (lineBreak gap indent) := by
  intro c hc
  unfold lineBreak at hc
  split_ifs at hc
  · cases hc
  · rcases List.mem_cons.mp hc with rfl | hc
    · decide
    · exact hindent c hc

theorem blank_append {v w : List Char} (hv : Blank v) (hw : Blank w) : Blank (v ++ w) := by
  intro c hc
  rcases List.mem_append.mp hc with hc | hc
  · exact hv c hc
  · exact hw c hc

/-- A key on a line of its own. -/
theorem isKey_quote (key : String) {w w' : List Char} (hw : Blank w) (hw' : Blank w') :
    IsKey key (w ++ (quote key ++ ':' :: w')) :=
  ⟨w, quote key, [], w', rfl, hw, isString_quote key, List.forall_mem_nil _, hw'⟩

theorem blank_space : Blank (space gap) := by
  intro c hc
  unfold space at hc
  split_ifs at hc
  · cases hc
  · obtain rfl := List.mem_singleton.mp hc
    rfl

theorem enclose_cons (a b : Char) (x : List Char) (parts : List (List Char)) :
    enclose gap indent a b (x :: parts) = a :: (lineBreak gap (indent ++ gap) ++ (x ++
      (parts.flatMap (fun y => ',' :: (lineBreak gap (indent ++ gap) ++ y)) ++
        lineBreak gap indent ++ [b]))) := by
  have hjoin (sep x : List Char) (parts : List (List Char)) :
      sep.intercalate (x :: parts) = x ++ parts.flatMap fun y => sep ++ y := by
    induction parts generalizing x with
    | nil => simp [List.intercalate]
    | cons y parts ih =>
      rw [List.intercalate, List.intersperse_cons_cons, List.flatten_cons, List.flatten_cons,
        ← List.intercalate, ih, List.flatMap_cons, List.append_assoc]
  rw [enclose, if_neg (List.cons_ne_nil _ _), hjoin]
  simp

variable (num gap indent) in
/-- The items after the first one, and the blanks behind the last. -/
theorem exists_areItems {items : List (Value N)} {w t : List Char}
    (h : ∀ item ∈ items, IsText num.number (json num.finite item) (write num gap indent item))
    (hw : Blank w) (ht : Blank t) : ∃ w' r,
      (writeItems num gap indent items).flatMap (fun y => ',' :: (w ++ y)) ++ t = w' ++ r ∧
        Blank w' ∧ AreItems num.number (jsonItems num.finite items) r := by
  induction items with
  | nil => exact ⟨t, [], by simp [writeItems], ht, rfl⟩
  | cons item items ih =>
    obtain ⟨w', r, heq, hw', hr⟩ := ih fun item hitem => h item (List.mem_cons_of_mem _ hitem)
    refine ⟨[], ',' :: (w ++ (write num gap indent item ++ (w' ++ r))), ?_, List.forall_mem_nil _, w,
      write num gap indent item, w', r, rfl, hw, h item List.mem_cons_self, hw', hr⟩
    rw [writeItems, List.flatMap_cons, List.append_assoc, heq]
    simp

variable (num gap indent) in
theorem exists_areMembers {fields : List (String × Value N)} {w t : List Char}
    (h : ∀ field ∈ fields, IsText num.number (json num.finite field.2) (write num gap indent field.2))
    (hw : Blank w) (ht : Blank t) : ∃ w' r,
      (writeFields num gap indent fields).flatMap (fun y => ',' :: (w ++ y)) ++ t = w' ++ r ∧
        Blank w' ∧ AreMembers num.number (jsonFields num.finite fields) r := by
  induction fields with
  | nil => exact ⟨t, [], by simp [writeFields], ht, rfl⟩
  | cons field fields ih =>
    obtain ⟨key, value⟩ := field
    obtain ⟨w', r, heq, hw', hr⟩ := ih fun f hf => h f (List.mem_cons_of_mem _ hf)
    rw [writeFields, jsonFields]
    split_ifs with hundefined
    · exact ⟨w', r, heq, hw', hr⟩
    · have hvalue := h (key, value) List.mem_cons_self
      refine ⟨[], ',' :: (w ++ (quote key ++ ':' :: space gap) ++ (write num gap indent value ++ (w' ++ r))),
        ?_, List.forall_mem_nil _, w ++ (quote key ++ ':' :: space gap), write num gap indent value, w', r,
        rfl, isKey_quote key hw blank_space, hvalue, hw', hr⟩
      rw [List.flatMap_cons, List.append_assoc, heq]
      simp

variable (num) in
/-- What is written is a text of what JSON keeps of the value. -/
theorem isText_write (hgap : Blank gap) (v : Value N) {indent : List Char} (hindent : Blank indent) :
    IsText num.number (json num.finite v) (write num gap indent v) := by
  induction v using Value.inductionOn generalizing indent with
  | undefined => rfl
  | null => rfl
  | bool b => rfl
  | num n =>
    rw [json, write]
    split_ifs with hfinite
    · exact num.numeral n hfinite
    · rfl
  | str s => exact isString_quote s
  | array items ih =>
    have hin := blank_append hindent hgap
    rw [json, write]
    cases items with
    | nil => exact ⟨[], rfl, List.forall_mem_nil _⟩
    | cons item items =>
      obtain ⟨w', r, heq, hw', hr⟩ := exists_areItems num gap (indent ++ gap)
        (fun item hitem => ih item (List.mem_cons_of_mem _ hitem) hin)
        (blank_lineBreak gap hin) (blank_lineBreak gap hindent)
      rw [writeItems, enclose_cons, heq]
      exact ⟨lineBreak gap (indent ++ gap), write num gap (indent ++ gap) item, w', r, by simp,
        blank_lineBreak gap hin, ih item List.mem_cons_self hin, hw', hr⟩
  | object fields ih =>
    have hin := blank_append hindent hgap
    rw [json, write]
    induction fields with
    | nil => exact ⟨[], rfl, List.forall_mem_nil _⟩
    | cons field fields ihf =>
      obtain ⟨key, value⟩ := field
      rw [writeFields, jsonFields]
      split_ifs with hundefined
      · exact ihf fun field hfield => ih field (List.mem_cons_of_mem _ hfield)
      · obtain ⟨w', r, heq, hw', hr⟩ := exists_areMembers num gap (indent ++ gap)
          (fun field hfield => ih field (List.mem_cons_of_mem _ hfield) hin)
          (blank_lineBreak gap hin) (blank_lineBreak gap hindent)
        rw [enclose_cons, heq]
        exact ⟨lineBreak gap (indent ++ gap) ++ (quote key ++ ':' :: space gap),
          write num gap (indent ++ gap) value, w', r, by simp,
          isKey_quote key (blank_lineBreak gap hin) blank_space, ih (key, value) List.mem_cons_self hin, hw', hr⟩

theorem parse_write (hgap : Blank gap) (v : Value N) (hindent : Blank indent) :
    parse num.number (write num gap indent v) = some (json num.finite v) := by
  have hparse := parse_text (isText_write num hgap v hindent) (List.forall_mem_nil _)
    (List.forall_mem_nil _)
  rwa [List.nil_append, List.append_nil] at hparse

end Texts

/-! ### Values up to the order of properties -/

mutual

/-- The values are the same up to the order in which objects have their properties. -/
def alike : Value N → Value N → Prop
  | .array items, .array items' => alikeItems items items'
  | .object fields, .object fields' =>
    (fields.map Prod.fst).Perm (fields'.map Prod.fst) ∧ alikeFields fields fields'
  | v, w => v = w

def alikeItems : List (Value N) → List (Value N) → Prop
  | [], [] => True
  | item :: items, item' :: items' => alike item item' ∧ alikeItems items items'
  | _, _ => False

/-- Each property is there with a value that is alike. -/
def alikeFields : List (String × Value N) → List (String × Value N) → Prop
  | [], _ => True
  | (key, value) :: fields, fields' =>
    (∃ value', (key, value') ∈ fields' ∧ alike value value') ∧ alikeFields fields fields'

end

section Alike
variable {fields fields' : List (String × Value N)}

theorem alikeFields_iff : alikeFields fields fields' ↔
    ∀ field ∈ fields, ∃ value', (field.1, value') ∈ fields' ∧ alike field.2 value' := by
  induction fields with
  | nil => simp [alikeFields]
  | cons field fields ih => simp [alikeFields, ih]

theorem alike_refl (v : Value N) : alike v v := by
  induction v using Value.inductionOn with
  | array items ih =>
    rw [alike]
    induction items with
    | nil => trivial
    | cons item items ihs =>
      exact ⟨ih item List.mem_cons_self, ihs fun item hitem => ih item (List.mem_cons_of_mem _ hitem)⟩
  | object fields ih =>
    rw [alike]
    exact ⟨.refl _, alikeFields_iff.mpr fun field hfield => ⟨field.2, hfield, ih field hfield⟩⟩
  | _ => rfl

theorem alike_of_perm (h : fields.Perm fields') : alike (.object fields) (.object fields') := by
  rw [alike]
  exact ⟨h.map _, alikeFields_iff.mpr fun field hfield => ⟨field.2, h.mem_iff.mp hfield, alike_refl _⟩⟩

end Alike

end Remembra.Json
