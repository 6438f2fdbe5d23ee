import Remembra.Lib.Encoding
import Remembra.TenantMigration.Manifest

/-! What the canonical JSON of a value says of the value. `jsonText` is `JSON.stringify`, and a text of it
    can come from one value only (`jsonText_injective`); the canonical text is that of the value with its
    keys in order, so two values have the same one exactly when they are equal up to the order of their
    keys (`canonicalJson_eq_iff`). -/

namespace Remembra.TenantMigration
open Encoding
open Store (Yaml JsNum)
open Service (codeUnits codeUnits_injective)

/-! ### Values of JSON -/

mutual

/-- The numbers are finite, and no object has two properties of one name. -/
def isJson : Yaml → Bool
  | .num (.finite _) => true
  | .num _ => false
  | .seq items => areJson items
  | .map fields => decide (fields.map Prod.fst).Nodup && holdJson fields
  | _ => true

def areJson : List Yaml → Bool
  | [] => true
  | item :: items => isJson item && areJson items

def holdJson : List (String × Yaml) → Bool
  | [] => true
  | (_, value) :: fields => isJson value && holdJson fields

end

mutual

/-- `JSON.stringify` of a value of JSON. -/
def jsonText (P : Platform) : Yaml → String
  | .null => "null"
  | .bool b => if b then "true" else "false"
  | .num n => jsonNumber P n
  | .str s => jsonString s
  | .seq items => "[" ++ ",".intercalate (jsonItems P items) ++ "]"
  | .map fields => "\x7b" ++ ",".intercalate (jsonFields P fields) ++ "\x7d"

def jsonItems (P : Platform) : List Yaml → List String
  | [] => []
  | item :: items => jsonText P item :: jsonItems P items

def jsonFields (P : Platform) : List (String × Yaml) → List String
  | [] => []
  | (key, value) :: fields => (jsonString key ++ ":" ++ jsonText P value) :: jsonFields P fields

end

mutual

/-- Equal up to the order of the properties. -/
def SameJson : Yaml → Yaml → Prop
  | .null, .null => True
  | .bool b, .bool b' => b = b'
  | .num n, .num n' => n = n'
  | .str s, .str s' => s = s'
  | .seq items, .seq items' => SameItems items items'
  | .map fields, .map fields' =>
    (fields.map Prod.fst).Perm (fields'.map Prod.fst) ∧ SameFields fields fields'
  | _, _ => False

def SameItems : List Yaml → List Yaml → Prop
  | [], [] => True
  | item :: items, item' :: items' => SameJson item item' ∧ SameItems items items'
  | _, _ => False

def SameFields : List (String × Yaml) → List (String × Yaml) → Prop
  | [], _ => True
  | (key, value) :: fields, fields' =>
    (∃ value', (key, value') ∈ fields' ∧ SameJson value value') ∧ SameFields fields fields'

end

/-- How the platform writes finite numbers: a text stands for one of them. -/
structure WritesNumbers (P : Platform) : Prop where
  injective : ∀ q q', P.numText (.finite q) = P.numText (.finite q') → q = q'
  nonempty : ∀ q, P.numText (.finite q) ≠ ""
  chars : ∀ q, ∀ c ∈ (P.numText (.finite q)).toList, c.isDigit ∨ c ∈ ['-', '+', '.', 'e']

/-- Values by their elements and their properties. -/
@[elab_as_elim]
theorem valueInduction {motive : Yaml → Prop} (null : motive .null) (bool : ∀ b, motive (.bool b))
    (num : ∀ n, motive (.num n)) (str : ∀ s, motive (.str s))
    (seq : ∀ items, (∀ item ∈ items, motive item) → motive (.seq items))
    (map : ∀ fields, (∀ field ∈ fields, motive field.2) → motive (.map fields)) (v : Yaml) : motive v :=
  @Store.Yaml.rec motive (fun items => ∀ item ∈ items, motive item)
    (fun fields => ∀ field ∈ fields, motive field.2) (fun field => motive field.2)
    null bool num str seq map (fun _ h => absurd h List.not_mem_nil)
    (fun _ _ hitem hitems => List.forall_mem_cons.mpr ⟨hitem, hitems⟩) (fun _ h => absurd h List.not_mem_nil)
    (fun _ _ hfield hfields => List.forall_mem_cons.mpr ⟨hfield, hfields⟩) (fun _ _ h => h) v

theorem areJson_iff {items : List Yaml} : areJson items = true ↔ ∀ item ∈ items, isJson item = true := by
  induction items with
  | nil => simp [areJson]
  | cons item items ih => simp [areJson, ih]

theorem holdJson_iff {fields : List (String × Yaml)} :
    holdJson fields = true ↔ ∀ field ∈ fields, isJson field.2 = true := by
  induction fields with
  | nil => simp [holdJson]
  | cons field fields ih => simp [holdJson, ih]

theorem jsonItems_eq (P : Platform) (items : List Yaml) : jsonItems P items = items.map (jsonText P) := by
  induction items with
  | nil => rfl
  | cons item items ih => rw [jsonItems, ih, List.map_cons]

theorem jsonFields_eq (P : Platform) (fields : List (String × Yaml)) : jsonFields P fields =
    fields.map fun field => jsonString field.1 ++ ":" ++ jsonText P field.2 := by
  induction fields with
  | nil => rfl
  | cons field fields ih => rw [jsonFields, ih, List.map_cons]

theorem sameFields_iff {fields fields' : List (String × Yaml)} : SameFields fields fields' ↔
    ∀ field ∈ fields, ∃ value', (field.1, value') ∈ fields' ∧ SameJson field.2 value' := by
  induction fields with
  | nil => simp [SameFields]
  | cons field fields ih => simp [SameFields, ih]

/-! ### Texts -/

/-- The value of a hexadecimal digit. -/
def digitValue (c : Char) : ℕ := if c.isDigit then c.toNat - 48 else c.toNat - 87

theorem digitValue_digitChar : ∀ n < 16, digitValue (Nat.digitChar n) = n := by decide

/-- What stands after the mark of an escape. -/
def readEscape : List Char → Option (Char × List Char)
  | 'n' :: l => some ('\n', l)
  | 'r' :: l => some ('\r', l)
  | 't' :: l => some ('\t', l)
  | 'b' :: l => some (Char.ofNat 8, l)
  | 'f' :: l => some (Char.ofNat 12, l)
  | 'u' :: _ :: _ :: high :: low :: l => some (Char.ofNat (16 * digitValue high + digitValue low), l)
  | c :: l => some (c, l)
  | [] => none

/-- Reads back what `escapeChar` writes. -/
def readChar : List Char → Option (Char × List Char)
  | c :: l => if c = '\\' then readEscape l else some (c, l)
  | [] => none

/-- The text of a character is the character, or begins with the mark of an escape. -/
theorem escapeChar_cases (c : Char) : (escapeChar c).toList = [c] ∧ c ≠ '"' ∧ c ≠ '\\' ∨
    ∃ l, (escapeChar c).toList = '\\' :: l ∧ ∀ r, readEscape (l ++ r) = some (c, r) := by
  unfold escapeChar
  split
  any_goals exact .inr ⟨_, rfl, fun _ => rfl⟩
  rename_i hquote hslash _ _ _
  by_cases hb : c.toNat = 8
  · obtain rfl : c = Char.ofNat 8 := by rw [← hb, Char.ofNat_toNat]
    exact .inr ⟨_, rfl, fun _ => rfl⟩
  by_cases hf : c.toNat = 12
  · obtain rfl : c = Char.ofNat 12 := by rw [← hf, Char.ofNat_toNat]
    exact .inr ⟨_, rfl, fun _ => rfl⟩
  rw [if_neg hb, if_neg hf]
  split
  · rename_i hcontrol
    right
    refine ⟨['u', '0', '0', Nat.digitChar (c.toNat / 16), Nat.digitChar (c.toNat % 16)], ?_, fun r => ?_⟩
    · simp [hexEscape]
    · change some (Char.ofNat (16 * digitValue _ + digitValue _), r) = _
      rw [digitValue_digitChar _ (by omega), digitValue_digitChar _ (by omega), Nat.div_add_mod,
        Char.ofNat_toNat]
  · exact .inl ⟨by simp, hquote, hslash⟩

theorem readChar_escapeChar (c : Char) (r : List Char) :
    readChar ((escapeChar c).toList ++ r) = some (c, r) := by
  rcases escapeChar_cases c with ⟨hl, -, hslash⟩ | ⟨l, hl, hread⟩
  · rw [hl]
    exact if_neg hslash
  · rw [hl]
    exact hread r

theorem escapeChar_ne_quote (c : Char) (r s : List Char) : (escapeChar c).toList ++ r ≠ '"' :: s := by
  rcases escapeChar_cases c with ⟨hl, hquote, -⟩ | ⟨l, hl, -⟩
  · rw [hl]
    rintro heq
    exact hquote (List.cons.inj heq).1
  · rw [hl]
    rintro heq
    exact absurd (List.cons.inj heq).1 (by decide)

theorem jsonString_toList (s : String) : (jsonString s).toList =
    '"' :: (s.toList.flatMap (fun c => (escapeChar c).toList) ++ ['"']) := by
  rw [jsonString, String.toList_append, String.toList_append, String.toList_join, List.flatMap_map]
  rfl

/-- The text of a string shows where it ends. -/
theorem jsonString_determines (V : String → Prop) (stop : List Char → Prop) (s : String) :
    Determines (fun s => (jsonString s).toList) V stop s := by
  intro t r r' _ _ _ h
  simp only [jsonString_toList, List.cons_append, List.append_assoc] at h
  obtain ⟨heq, hrest⟩ := flatMap_determines escapeChar_ne_quote
    (fun c => determines_of_read readChar_escapeChar c) (List.cons.inj h).2
  exact ⟨String.toList_injective heq, hrest⟩

/-! ### Values -/

/-- What may stand after a value: nothing, a comma or a closing bracket. -/
def mayFollow (l : List Char) : Prop := ∀ c ∈ l.head?, c = ',' ∨ c = ']' ∨ c = '\x7d'

/-- The letters of numbers. -/
def isNumberChar (c : Char) : Bool := c.isDigit || ['-', '+', '.', 'e'].contains c

/-- The first letter of a value tells what kind of value it is. -/
def kindOf (c : Char) : ℕ :=
  if isNumberChar c then 2
  else
    match c with
    | 'n' => 0
    | 't' | 'f' => 1
    | '"' => 3
    | '[' => 4
    | '\x7b' => 5
    | _ => 6

/-- The kind of a value of JSON. -/
def kind : Yaml → ℕ
  | .null => 0
  | .bool _ => 1
  | .num _ => 2
  | .str _ => 3
  | .seq _ => 4
  | .map _ => 5

section Values
variable {P : Platform}

/-- One property of an object. -/
def propertyText (P : Platform) (field : String × Yaml) : List Char :=
  (jsonString field.1 ++ ":" ++ jsonText P field.2).toList

theorem property_determines {field : String × Yaml}
    (hvalue : Determines (fun v => (jsonText P v).toList) (isJson · = true) mayFollow field.2) :
    Determines (propertyText P) (fun field => isJson field.2 = true) mayFollow field := by
  rintro ⟨key, v⟩ r s hv hr hs h
  simp only [propertyText, String.toList_append, List.append_assoc] at h
  obtain ⟨hkey, hrest⟩ :=
    jsonString_determines (fun _ => True) (fun _ => True) field.1 key _ _ trivial trivial trivial h
  obtain ⟨hv, hrs⟩ := hvalue v r s hv hr hs (List.cons.inj hrest).2
  exact ⟨Prod.ext hkey hv, hrs⟩

theorem property_ne_close (field : String × Yaml) (r s : List Char) :
    propertyText P field ++ r ≠ '\x7d' :: s := by
  simp only [propertyText, String.toList_append, jsonString_toList, List.cons_append]
  rintro heq
  exact absurd (List.cons.inj heq).1 (by decide)

theorem seq_toList (items : List Yaml) : (jsonText P (.seq items)).toList =
    '[' :: ([','].intercalate (items.map fun v => (jsonText P v).toList) ++ [']']) := by
  rw [jsonText, String.toList_append, String.toList_append, String.toList_intercalate, jsonItems_eq,
    List.map_map]
  rfl

theorem map_toList (fields : List (String × Yaml)) : (jsonText P (.map fields)).toList =
    '\x7b' :: ([','].intercalate (fields.map (propertyText P)) ++ ['\x7d']) := by
  rw [jsonText, String.toList_append, String.toList_append, String.toList_intercalate, jsonFields_eq,
    List.map_map]
  rfl

variable (hP : WritesNumbers P)
include hP

theorem isNumberChar_of_numText {q : ℚ} {c : Char} (hc : c ∈ (P.numText (.finite q)).toList) :
    isNumberChar c = true := by
  rw [isNumberChar, Bool.or_eq_true, List.contains_iff_mem]
  exact hP.chars q c hc

/-- A value begins with a letter of its kind. -/
theorem text_head {v : Yaml} (hv : isJson v = true) :
    ∃ c l, (jsonText P v).toList = c :: l ∧ kindOf c = kind v := by
  cases v with
  | null => exact ⟨'n', ['u', 'l', 'l'], by rw [jsonText]; rfl, rfl⟩
  | bool b =>
    cases b with
    | false => exact ⟨'f', ['a', 'l', 's', 'e'], by rw [jsonText]; rfl, rfl⟩
    | true => exact ⟨'t', ['r', 'u', 'e'], by rw [jsonText]; rfl, rfl⟩
  | num n =>
    cases n with
    | finite q =>
      rw [jsonText, jsonNumber]
      cases hl : (P.numText (.finite q)).toList with
      | nil => exact absurd (String.toList_eq_nil_iff.mp hl) (hP.nonempty q)
      | cons c l =>
        exact ⟨c, l, rfl, if_pos (isNumberChar_of_numText hP (hl ▸ List.mem_cons_self ..))⟩
    | _ => cases hv
  | str s => exact ⟨_, _, jsonString_toList s, rfl⟩
  | seq items => exact ⟨_, _, seq_toList items, rfl⟩
  | map fields => exact ⟨_, _, map_toList fields, rfl⟩

theorem text_ne_close {v : Yaml} (hv : isJson v = true) (r s : List Char) :
    (jsonText P v).toList ++ r ≠ ']' :: s := by
  obtain ⟨c, l, hl, hkind⟩ := text_head hP hv
  rw [hl]
  rintro heq
  rw [(List.cons.inj heq).1] at hkind
  cases v <;> cases hkind

theorem kind_eq {v w : Yaml} (hv : isJson v = true) (hw : isJson w = true) {r s : List Char}
    (h : (jsonText P v).toList ++ r = (jsonText P w).toList ++ s) : kind v = kind w := by
  obtain ⟨c, l, hl, hkind⟩ := text_head hP hv
  obtain ⟨c', l', hl', hkind'⟩ := text_head hP hw
  rw [hl, hl'] at h
  rw [← hkind, ← hkind', (List.cons.inj h).1]

/-- The text of a number shows where it ends. -/
theorem number_determines {q q' : ℚ} {r s : List Char} (hr : mayFollow r) (hs : mayFollow s)
    (h : (P.numText (.finite q)).toList ++ r = (P.numText (.finite q')).toList ++ s) : q = q' ∧ r = s := by
  have hstop : ∀ {l}, mayFollow l → ∀ c ∈ l.head?, isNumberChar c = false := by
    intro l hl c hc
    rcases hl c hc with rfl | rfl | rfl <;> decide
  obtain ⟨htext, hrest⟩ := span_inj (fun _ => isNumberChar_of_numText hP)
    (fun _ => isNumberChar_of_numText hP) (hstop hr) (hstop hs) h
  exact ⟨hP.injective q q' (String.toList_injective htext), hrest⟩

/-- The text of a value shows what the value is and where it ends. -/
theorem text_determines (v : Yaml) (hv : isJson v = true) :
    Determines (fun v => (jsonText P v).toList) (isJson · = true) mayFollow v := by
  induction v using valueInduction with
  | null =>
    intro w r s hw hr hs h
    have hkind := kind_eq hP hv hw h
    cases w <;> cases hkind
    exact ⟨rfl, List.append_cancel_left h⟩
  | bool b =>
    intro w r s hw hr hs h
    have hkind := kind_eq hP hv hw h
    cases w with
    | bool b' =>
      simp only [jsonText] at h
      cases b <;> cases b'
      · exact ⟨rfl, List.append_cancel_left h⟩
      · exact absurd (List.cons.inj h).1 (by decide)
      · exact absurd (List.cons.inj h).1 (by decide)
      · exact ⟨rfl, List.append_cancel_left h⟩
    | _ => cases hkind
  | num n =>
    intro w r s hw hr hs h
    have hkind := kind_eq hP hv hw h
    cases w with
    | num n' =>
      cases n <;> cases hv
      cases n' <;> cases hw
      obtain ⟨rfl, hrest⟩ := number_determines hP hr hs h
      exact ⟨rfl, hrest⟩
    | _ => cases hkind
  | str t =>
    intro w r s hw hr hs h
    have hkind := kind_eq hP hv hw h
    cases w with
    | str t' =>
      obtain ⟨rfl, hrest⟩ :=
        jsonString_determines (fun _ => True) (fun _ => True) t t' r s trivial trivial trivial h
      exact ⟨rfl, hrest⟩
    | _ => cases hkind
  | seq items ih =>
    intro w r s hw hr hs h
    have hkind := kind_eq hP hv hw h
    cases w with
    | seq items' =>
      simp only [seq_toList, List.cons_append, List.append_assoc] at h
      have hitems := areJson_iff.mp hv
      obtain ⟨rfl, hrest⟩ := intercalate_determines (fun v r s hv => text_ne_close hP hv r s) (by decide)
        (fun l c hc => .inl (Option.some.inj hc).symm) (fun l c hc => .inr (.inl (Option.some.inj hc).symm))
        (fun v hv => ⟨hitems v hv, ih v hv (hitems v hv)⟩) (areJson_iff.mp hw) (List.cons.inj h).2
      exact ⟨rfl, hrest⟩
    | _ => cases hkind
  | map fields ih =>
    intro w r s hw hr hs h
    have hkind := kind_eq hP hv hw h
    cases w with
    | map fields' =>
      simp only [map_toList, List.cons_append, List.append_assoc] at h
      rw [isJson, Bool.and_eq_true] at hv hw
      have hfields := holdJson_iff.mp hv.2
      obtain ⟨rfl, hrest⟩ := intercalate_determines (fun field r s _ => property_ne_close field r s)
        (by decide) (fun l c hc => .inl (Option.some.inj hc).symm)
        (fun l c hc => .inr (.inr (Option.some.inj hc).symm))
        (fun field hf => ⟨hfields field hf, property_determines (ih field hf (hfields field hf))⟩)
        (holdJson_iff.mp hw.2) (List.cons.inj h).2
      exact ⟨rfl, hrest⟩
    | _ => cases hkind

/-- Two values of JSON with one text are one value. -/
theorem jsonText_injective {v w : Yaml} (hv : isJson v = true) (hw : isJson w = true)
    (h : jsonText P v = jsonText P w) : v = w :=
  (text_determines hP v hv).injective (by rintro _ ⟨⟩) hw (congrArg String.toList h)

end Values

/-! ### The order of keys -/

/-- The order in which `Object.keys(record).sort()` puts two keys. -/
abbrev keyLe {β : Type} (left right : String × β) : Prop := codeUnits left.1 ≤ codeUnits right.1

instance {β : Type} : Std.Total (keyLe (β := β)) := ⟨fun left _ => le_total (codeUnits left.1) _⟩

instance {β : Type} : IsTrans (String × β) keyLe := ⟨fun _ _ _ => le_trans⟩

mutual

/-- The value with the properties of its objects in the order of their keys. -/
def inOrder : Yaml → Yaml
  | .seq items => .seq (itemsInOrder items)
  | .map fields => .map ((fieldsInOrder fields).insertionSort keyLe)
  | .null => .null
  | .bool b => .bool b
  | .num n => .num n
  | .str s => .str s

def itemsInOrder : List Yaml → List Yaml
  | [] => []
  | item :: items => inOrder item :: itemsInOrder items

def fieldsInOrder : List (String × Yaml) → List (String × Yaml)
  | [] => []
  | (key, value) :: fields => (key, inOrder value) :: fieldsInOrder fields

end

theorem itemsInOrder_eq (items : List Yaml) : itemsInOrder items = items.map inOrder := by
  induction items with
  | nil => rfl
  | cons item items ih => rw [itemsInOrder, ih, List.map_cons]

theorem fieldsInOrder_eq (fields : List (String × Yaml)) :
    fieldsInOrder fields = fields.map fun field => (field.1, inOrder field.2) := by
  induction fields with
  | nil => rfl
  | cons field fields ih => rw [fieldsInOrder, ih, List.map_cons]

theorem canonicalItems_eq (P : Platform) (items : List Yaml) :
    canonicalItems P items = items.map (canonicalJson P) := by
  induction items with
  | nil => rfl
  | cons item items ih => rw [canonicalItems, ih, List.map_cons]

theorem canonicalFields_eq (P : Platform) (fields : List (String × Yaml)) :
    canonicalFields P fields = fields.map fun field => (field.1, canonicalJson P field.2) := by
  induction fields with
  | nil => rfl
  | cons field fields ih => rw [canonicalFields, ih, List.map_cons]

/-- The canonical text is the text of the value with its keys in order. -/
theorem canonicalJson_eq (P : Platform) (v : Yaml) : canonicalJson P v = jsonText P (inOrder v) := by
  induction v using valueInduction with
  | null => rw [canonicalJson, inOrder, jsonText]
  | bool b => rw [canonicalJson, inOrder, jsonText]
  | num n => rw [canonicalJson, inOrder, jsonText]
  | str s => rw [canonicalJson, inOrder, jsonText]
  | seq items ih =>
    rw [canonicalJson, inOrder, jsonText, canonicalItems_eq, itemsInOrder_eq, jsonItems_eq, List.map_map]
    exact congrArg (fun texts => "[" ++ ",".intercalate texts ++ "]") (List.map_congr_left ih)
  | map fields ih =>
    have htexts : (canonicalFields P fields) =
        (fieldsInOrder fields).map fun field => (field.1, jsonText P field.2) := by
      rw [canonicalFields_eq, fieldsInOrder_eq, List.map_map]
      exact List.map_congr_left fun field hf => by rw [ih field hf]; rfl
    have hsort : sortKeys ((fieldsInOrder fields).map fun field => (field.1, jsonText P field.2)) =
        ((fieldsInOrder fields).insertionSort keyLe).map fun field => (field.1, jsonText P field.2) :=
      (List.map_insertionSort keyLe keyLe (fun field : String × Yaml => (field.1, jsonText P field.2))
        (fieldsInOrder fields) fun _ _ _ _ => Iff.rfl).symm
    rw [canonicalJson, inOrder, jsonText, htexts, hsort, jsonFields_eq, List.map_map]
    rfl

theorem keys_fieldsInOrder (fields : List (String × Yaml)) :
    (fieldsInOrder fields).map Prod.fst = fields.map Prod.fst := by
  rw [fieldsInOrder_eq, List.map_map]
  rfl

theorem isJson_inOrder {v : Yaml} (hv : isJson v = true) : isJson (inOrder v) = true := by
  induction v using valueInduction with
  | seq items ih =>
    have hitems := areJson_iff.mp hv
    rw [inOrder, isJson, itemsInOrder_eq, areJson_iff]
    rintro _ hitem
    obtain ⟨item, hmem, rfl⟩ := List.mem_map.mp hitem
    exact ih item hmem (hitems item hmem)
  | map fields ih =>
    rw [isJson, Bool.and_eq_true, decide_eq_true_eq, holdJson_iff] at hv
    rw [inOrder, isJson, Bool.and_eq_true, decide_eq_true_eq, holdJson_iff]
    have hperm := List.perm_insertionSort keyLe (fieldsInOrder fields)
    constructor
    · rw [(hperm.map Prod.fst).nodup_iff, keys_fieldsInOrder]
      exact hv.1
    · intro field hfield
      rw [hperm.mem_iff, fieldsInOrder_eq] at hfield
      obtain ⟨field, hmem, rfl⟩ := List.mem_map.mp hfield
      exact ih field hmem (hv.2 field hmem)
  | null => rfl
  | bool b => rfl
  | num n => exact hv
  | str s => rfl

/-- Two lists of properties without repeated keys have one order exactly when they have the same
    properties. -/
theorem insertionSort_eq_iff {fields fields' : List (String × Yaml)} (hnodup : (fields.map Prod.fst).Nodup) :
    fields.insertionSort keyLe = fields'.insertionSort keyLe ↔ fields.Perm fields' := by
  have hsort := List.perm_insertionSort keyLe fields
  have hsort' := List.perm_insertionSort keyLe fields'
  constructor
  · intro h
    rw [h] at hsort
    exact hsort.symm.trans hsort'
  · intro h
    have hperm := hsort.trans (h.trans hsort'.symm)
    refine List.Perm.eq_of_pairwise (fun a b ha hb hab hba => ?_) (List.pairwise_insertionSort keyLe fields)
      (List.pairwise_insertionSort keyLe fields') hperm
    exact List.inj_on_of_nodup_map hnodup (hsort.mem_iff.mp ha) (hsort.mem_iff.mp (hperm.mem_iff.mpr hb))
      (codeUnits_injective (le_antisymm hab hba))

/-! ### What the canonical text says -/

/-- Values in order are equal exactly when they are equal up to the order of their keys. -/
theorem inOrder_eq_iff {v w : Yaml} (hv : isJson v = true) (hw : isJson w = true) :
    inOrder v = inOrder w ↔ SameJson v w := by
  induction v using valueInduction generalizing w with
  | null => cases w <;> simp [inOrder, SameJson]
  | bool b => cases w <;> simp [inOrder, SameJson]
  | num n => cases w <;> simp [inOrder, SameJson]
  | str s => cases w <;> simp [inOrder, SameJson]
  | seq items ih =>
    cases w with
    | seq items' =>
      rw [inOrder, inOrder, SameJson, Yaml.seq.injEq]
      rw [isJson, areJson_iff] at hv hw
      induction items generalizing items' with
      | nil => cases items' <;> simp [itemsInOrder, SameItems]
      | cons item items ih' =>
        cases items' with
        | nil => simp [itemsInOrder, SameItems]
        | cons item' items' =>
          rw [List.forall_mem_cons] at hv hw ih
          rw [itemsInOrder, itemsInOrder, SameItems, List.cons.injEq, ih.1 hv.1 hw.1,
            ih' ih.2 hv.2 items' hw.2]
    | _ => simp [inOrder, SameJson]
  | map fields ih =>
    cases w with
    | map fields' =>
      rw [isJson, Bool.and_eq_true, decide_eq_true_eq, holdJson_iff] at hv hw
      rw [inOrder, inOrder, SameJson, Yaml.map.injEq,
        insertionSort_eq_iff (by rw [keys_fieldsInOrder]; exact hv.1), sameFields_iff]
      have hkeys := keys_fieldsInOrder fields
      have hkeys' := keys_fieldsInOrder fields'
      constructor
      · intro hperm
        have hmap := hperm.map Prod.fst
        rw [hkeys, hkeys'] at hmap
        refine ⟨hmap, fun field hfield => ?_⟩
        have hmem : (field.1, inOrder field.2) ∈ fieldsInOrder fields' := by
          rw [← hperm.mem_iff, fieldsInOrder_eq]
          exact List.mem_map.mpr ⟨field, hfield, rfl⟩
        rw [fieldsInOrder_eq] at hmem
        obtain ⟨⟨key, value⟩, hmem, heq⟩ := List.mem_map.mp hmem
        obtain ⟨rfl, hvalue⟩ := Prod.mk.inj heq
        exact ⟨value, hmem, (ih field hfield (hv.2 field hfield) (hw.2 _ hmem)).mp hvalue.symm⟩
      · rintro ⟨hmap, hsame⟩
        have hnodup : (fieldsInOrder fields).Nodup := by
          refine List.Nodup.of_map Prod.fst ?_
          rw [hkeys]
          exact hv.1
        have hsub : fieldsInOrder fields ⊆ fieldsInOrder fields' := by
          rw [fieldsInOrder_eq, fieldsInOrder_eq]
          rintro _ hmem
          obtain ⟨field, hfield, rfl⟩ := List.mem_map.mp hmem
          obtain ⟨value, hmem, hvalue⟩ := hsame field hfield
          refine List.mem_map.mpr ⟨_, hmem, ?_⟩
          rw [(ih field hfield (hv.2 field hfield) (hw.2 _ hmem)).mpr hvalue]
        refine (List.subperm_of_subset hnodup hsub).perm_of_length_le ?_
        have hlength := hmap.length_eq
        rw [← hkeys, ← hkeys', List.length_map, List.length_map] at hlength
        exact hlength.ge
    | _ => simp [inOrder, SameJson]

/-- Two values of JSON have one canonical text exactly when they are equal up to the order of their keys. -/
theorem canonicalJson_eq_iff {P : Platform} (hP : WritesNumbers P) {v w : Yaml} (hv : isJson v = true)
    (hw : isJson w = true) : canonicalJson P v = canonicalJson P w ↔ SameJson v w := by
  rw [canonicalJson_eq, canonicalJson_eq, ← inOrder_eq_iff hv hw]
  exact ⟨jsonText_injective hP (isJson_inOrder hv) (isJson_inOrder hw), fun h => by rw [h]⟩

/-! ### A way to write numbers -/

/-- Integers in decimal, and any other number by its numerator and its denominator. -/
def fractionText : JsNum → String
  | .finite q =>
    if q.den = 1 then toString q.num else Delimited.join 'e' (toString q.num) (toString q.den)
  | _ => ""

theorem notMem_numerator (z : ℤ) : 'e' ∉ (toString z).toList :=
  Delimited.notMem_toString_int rfl (by decide) z

theorem mem_join (z : ℤ) (n : ℕ) : 'e' ∈ (Delimited.join 'e' (toString z) (toString n)).toList := by
  rw [Delimited.toList_join]
  exact List.mem_append_right _ (List.mem_cons_self ..)

theorem fractionText_injective (q r : ℚ) (h : fractionText (.finite q) = fractionText (.finite r)) :
    q = r := by
  rw [fractionText, fractionText] at h
  by_cases hq : q.den = 1
  · by_cases hr : r.den = 1
    · rw [if_pos hq, if_pos hr] at h
      exact Rat.ext (Delimited.toString_int_inj h) (hq.trans hr.symm)
    · rw [if_pos hq, if_neg hr] at h
      exact absurd (h ▸ mem_join r.num r.den) (notMem_numerator q.num)
  · by_cases hr : r.den = 1
    · rw [if_neg hq, if_pos hr] at h
      exact absurd (h ▸ mem_join q.num q.den) (notMem_numerator r.num)
    · rw [if_neg hq, if_neg hr] at h
      obtain ⟨hnum, hden⟩ := Delimited.join_inj_first (notMem_numerator q.num) (notMem_numerator r.num) h
      exact Rat.ext (Delimited.toString_int_inj hnum) (Delimited.toString_nat_inj hden)

theorem chars_toString_nat (n : ℕ) : ∀ c ∈ (toString n).toList, c.isDigit = true := by
  intro c hc
  by_contra hnot
  exact Delimited.notMem_toString_nat (Bool.eq_false_iff.mpr hnot) n hc

theorem chars_toString_int (z : ℤ) : ∀ c ∈ (toString z).toList, c.isDigit = true ∨ c = '-' := by
  intro c hc
  by_contra hnot
  rw [not_or] at hnot
  exact Delimited.notMem_toString_int (Bool.eq_false_iff.mpr hnot.1) hnot.2 z hc

/-- Such a platform can be had. -/
theorem writesNumbers_fractionText (sha256 : String → String) (hmac : List UInt8 → String → String) :
    WritesNumbers ⟨fractionText, sha256, hmac⟩ where
  injective := fractionText_injective
  nonempty q := by
    change fractionText (.finite q) ≠ ""
    intro h
    rw [fractionText] at h
    split at h
    · exact Delimited.toString_int_ne_empty _ h
    · have hmem := mem_join q.num q.den
      rw [h] at hmem
      exact absurd hmem List.not_mem_nil
  chars q c hc := by
    change c ∈ (fractionText (.finite q)).toList at hc
    rw [fractionText] at hc
    split at hc
    · rcases chars_toString_int q.num c hc with hdigit | rfl
      · exact .inl hdigit
      · exact .inr (by decide)
    · rw [Delimited.toList_join, List.mem_append, List.mem_cons] at hc
      rcases hc with hc | rfl | hc
      · rcases chars_toString_int q.num c hc with hdigit | rfl
        · exact .inl hdigit
        · exact .inr (by decide)
      · exact .inr (by decide)
      · exact .inl (chars_toString_nat q.den c hc)

end Remembra.TenantMigration
