import Mathlib.Algebra.Order.BigOperators.Group.List
import Remembra.Lib.Js
import Remembra.TenantMigration.Canonical

/-! The canonical text of a JavaScript value. A property without a value has the text `undefined` there,
    where JSON drops the property; so the text that JSON leaves is shorter (`canonical_json_lt`), and
    the two are the same only for values without such a property. -/

namespace Remembra.Snapshot
open Js
open Store (Yaml JsNum)
open TenantMigration (Platform jsonString jsonNumber sortKeys canonicalJson canonicalItems
  canonicalFields isJson areJson_iff holdJson_iff)

abbrev JsValue := Js.Value JsNum

/-- `Number.isFinite` -/
def isFiniteNumber : JsNum → Bool
  | .finite _ => true
  | _ => false

/-- `JSON.parse(JSON.stringify(value))` -/
abbrev roundTrip (v : JsValue) : JsValue := json isFiniteNumber v

mutual

/-- `canonicalJson`, as it stands in a template. -/
def canonical (P : Platform) : JsValue → String
  | .undefined => "undefined"
  | .null => "null"
  | .bool b => if b then "true" else "false"
  | .num n => jsonNumber P n
  | .str s => jsonString s
  | .array items => "[" ++ ",".intercalate (itemTexts P items) ++ "]"
  | .object fields =>
    "\x7b" ++ ",".intercalate ((sortKeys (fieldTexts P fields)).map fun (key, text) =>
      jsonString key ++ ":" ++ text) ++ "\x7d"

/-- What `join` makes of the elements. -/
def itemTexts (P : Platform) : List JsValue → List String
  | [] => []
  | item :: items => (if item.isUndefined then "" else canonical P item) :: itemTexts P items

def fieldTexts (P : Platform) : List (String × JsValue) → List (String × String)
  | [] => []
  | (key, value) :: fields => (key, canonical P value) :: fieldTexts P fields

end

/-! ### Plain data among the values -/

mutual

def ofYaml : Yaml → JsValue
  | .null => .null
  | .bool b => .bool b
  | .num n => .num n
  | .str s => .str s
  | .seq items => .array (itemsOfYaml items)
  | .map fields => .object (fieldsOfYaml fields)

def itemsOfYaml : List Yaml → List JsValue
  | [] => []
  | item :: items => ofYaml item :: itemsOfYaml items

def fieldsOfYaml : List (String × Yaml) → List (String × JsValue)
  | [] => []
  | (key, value) :: fields => (key, ofYaml value) :: fieldsOfYaml fields

end

mutual

/-- The data of a value that has no `undefined` in it. -/
def toYaml : JsValue → Yaml
  | .undefined => .null
  | .null => .null
  | .bool b => .bool b
  | .num n => .num n
  | .str s => .str s
  | .array items => .seq (itemsToYaml items)
  | .object fields => .map (fieldsToYaml fields)

def itemsToYaml : List JsValue → List Yaml
  | [] => []
  | item :: items => toYaml item :: itemsToYaml items

def fieldsToYaml : List (String × JsValue) → List (String × Yaml)
  | [] => []
  | (key, value) :: fields => (key, toYaml value) :: fieldsToYaml fields

end

section Lists
variable (P : Platform)

theorem itemTexts_eq (items : List JsValue) : itemTexts P items =
    items.map fun item => if item.isUndefined then "" else canonical P item := by
  induction items with
  | nil => rfl
  | cons item items ih => rw [itemTexts, ih, List.map_cons]

theorem fieldTexts_eq (fields : List (String × JsValue)) : fieldTexts P fields =
    fields.map fun field => (field.1, canonical P field.2) := by
  induction fields with
  | nil => rfl
  | cons field fields ih => rw [fieldTexts, ih, List.map_cons]

theorem itemsToYaml_eq (items : List JsValue) : itemsToYaml items = items.map toYaml := by
  induction items with
  | nil => rfl
  | cons item items ih => rw [itemsToYaml, ih, List.map_cons]

theorem fieldsToYaml_eq (fields : List (String × JsValue)) : fieldsToYaml fields =
    fields.map fun field => (field.1, toYaml field.2) := by
  induction fields with
  | nil => rfl
  | cons field fields ih => rw [fieldsToYaml, ih, List.map_cons]

theorem itemsOfYaml_eq (items : List Yaml) : itemsOfYaml items = items.map ofYaml := by
  induction items with
  | nil => rfl
  | cons item items ih => rw [itemsOfYaml, ih, List.map_cons]

theorem fieldsOfYaml_eq (fields : List (String × Yaml)) : fieldsOfYaml fields =
    fields.map fun field => (field.1, ofYaml field.2) := by
  induction fields with
  | nil => rfl
  | cons field fields ih => rw [fieldsOfYaml, ih, List.map_cons]

end Lists

theorem canonicalItems_eq (P : Platform) (items : List Yaml) :
    canonicalItems P items = items.map (canonicalJson P) := by
  induction items with
  | nil => rfl
  | cons item items ih => rw [canonicalItems, ih, List.map_cons]

theorem canonicalFields_eq (P : Platform) (fields : List (String × Yaml)) :
    canonicalFields P fields = fields.map fun field => (field.1, canonicalJson P field.2) := by
  induction fields with
  | nil => rfl
  | cons field fields ih => rw [canonicalFields, ih, List.map_cons]

/-- Without `undefined` in it, a value is its data. -/
theorem ofYaml_toYaml (v : JsValue) (h : isDefined v = true) : ofYaml (toYaml v) = v := by
  induction v using Value.inductionOn with
  | undefined => cases h
  | array items ih =>
    rw [toYaml, ofYaml, itemsToYaml_eq, itemsOfYaml_eq, List.map_map]
    congr 1
    refine (List.map_congr_left fun item hitem => ?_).trans (List.map_id items)
    exact ih item hitem (areDefined_iff.mp h item hitem)
  | object fields ih =>
    rw [toYaml, ofYaml, fieldsToYaml_eq, fieldsOfYaml_eq, List.map_map]
    congr 1
    refine (List.map_congr_left fun field hfield => ?_).trans (List.map_id fields)
    exact Prod.ext rfl (ih field hfield (holdDefined_iff.mp h field hfield))
  | _ => rfl

/-- The text of such a value is the canonical JSON of its data. -/
theorem canonical_eq (P : Platform) (v : JsValue) (h : isDefined v = true) :
    canonical P v = canonicalJson P (toYaml v) := by
  induction v using Value.inductionOn with
  | undefined => cases h
  | array items ih =>
    have hitems := areDefined_iff.mp h
    rw [toYaml, canonical, canonicalJson, itemTexts_eq, itemsToYaml_eq, canonicalItems_eq, List.map_map]
    congr 3
    refine List.map_congr_left fun item hitem => ?_
    rw [not_isUndefined (hitems item hitem), if_neg Bool.false_ne_true]
    exact ih item hitem (hitems item hitem)
  | object fields ih =>
    rw [toYaml, canonical, canonicalJson, fieldTexts_eq, fieldsToYaml_eq, canonicalFields_eq, List.map_map]
    congr 5
    refine List.map_congr_left fun field hfield => ?_
    exact Prod.ext rfl (ih field hfield (holdDefined_iff.mp h field hfield))
  | _ => rfl

theorem isJson_toYaml (v : JsValue) (hproper : isProper v = true)
    (hfinite : isFinite isFiniteNumber v = true) : isJson (toYaml v) = true := by
  induction v using Value.inductionOn with
  | num n =>
    cases n with
    | finite q => rfl
    | _ => cases hfinite
  | array items ih =>
    rw [toYaml, isJson, areJson_iff, itemsToYaml_eq]
    rintro _ hmem
    obtain ⟨item, hitem, rfl⟩ := List.mem_map.mp hmem
    exact ih item hitem (areProper_iff.mp hproper item hitem).2 (areFinite_iff.mp hfinite item hitem)
  | object fields ih =>
    rw [isProper, Bool.and_eq_true, decide_eq_true_eq, holdProper_iff] at hproper
    rw [toYaml, isJson, Bool.and_eq_true, decide_eq_true_eq, holdJson_iff, fieldsToYaml_eq, List.map_map]
    refine ⟨hproper.1, ?_⟩
    rintro _ hmem
    obtain ⟨field, hfield, rfl⟩ := List.mem_map.mp hmem
    exact ih field hfield (hproper.2 field hfield) (holdFinite_iff.mp hfinite field hfield)
  | _ => rfl

theorem isDefined_ofYaml (v : Yaml) : isDefined (ofYaml v) = true := by
  induction v using TenantMigration.valueInduction with
  | seq items ih =>
    rw [ofYaml, isDefined, areDefined_iff, itemsOfYaml_eq]
    rintro _ hmem
    obtain ⟨item, hitem, rfl⟩ := List.mem_map.mp hmem
    exact ih item hitem
  | map fields ih =>
    rw [ofYaml, isDefined, holdDefined_iff, fieldsOfYaml_eq]
    rintro _ hmem
    obtain ⟨field, hfield, rfl⟩ := List.mem_map.mp hmem
    exact ih field hfield
  | _ => rfl

/-! ### The length of the text -/

theorem length_intercalate (l : List String) :
    (",".intercalate l).length + 1 = max 1 (l.map fun text => text.length + 1).sum := by
  have hsep : (",".intercalate l).toList = [','].intercalate (l.map String.toList) := by
    rw [String.toList_intercalate]
    rfl
  rw [← String.length_toList, hsep]
  cases l with
  | nil => rfl
  | cons text l =>
    rw [List.map_cons, Encoding.intercalate_cons, List.length_append, List.length_flatMap, List.map_map,
      List.map_cons, List.sum_cons, String.length_toList]
    have hsum : (l.map ((fun text => (',' :: text).length) ∘ String.toList)).sum =
        (l.map fun text => text.length + 1).sum := by
      congr 1
    rw [hsum]
    omega

/-- The width of an element, with the comma or the bracket after it. -/
def itemWidth (P : Platform) (v : JsValue) : ℕ := (canonical P v).length + 1

/-- The width of a property, with what stands after it. -/
def fieldWidth (P : Platform) (field : String × JsValue) : ℕ :=
  (jsonString field.1).length + 1 + itemWidth P field.2

theorem length_array {P : Platform} {items : List JsValue} (h : ∀ item ∈ items, item.isUndefined = false) :
    (canonical P (.array items)).length = 1 + max 1 (items.map (itemWidth P)).sum := by
  have hwidth := length_intercalate (itemTexts P items)
  have htexts : (itemTexts P items).map (fun text => text.length + 1) = items.map (itemWidth P) := by
    rw [itemTexts_eq, List.map_map]
    refine List.map_congr_left fun item hitem => ?_
    simp [itemWidth, h item hitem]
  rw [htexts] at hwidth
  have hlength : (canonical P (.array items)).length =
      1 + (",".intercalate (itemTexts P items)).length + 1 := by
    rw [canonical, String.length_append, String.length_append]
    rfl
  omega

theorem length_object (P : Platform) (fields : List (String × JsValue)) :
    (canonical P (.object fields)).length = 1 + max 1 (fields.map (fieldWidth P)).sum := by
  have hwidth := length_intercalate ((sortKeys (fieldTexts P fields)).map fun (key, text) =>
    jsonString key ++ ":" ++ text)
  have htexts : (((sortKeys (fieldTexts P fields)).map fun (key, text) =>
      jsonString key ++ ":" ++ text).map fun text => text.length + 1).sum =
        (fields.map (fieldWidth P)).sum := by
    rw [List.map_map]
    have hperm : (sortKeys (fieldTexts P fields)).Perm (fieldTexts P fields) := List.perm_insertionSort _ _
    rw [(hperm.map _).sum_eq, fieldTexts_eq, List.map_map]
    congr 1
    refine List.map_congr_left fun field _ => ?_
    simp only [Function.comp, fieldWidth, itemWidth, String.length_append]
    change _ + 1 + _ + 1 = _
    omega
  rw [htexts] at hwidth
  have hlength : (canonical P (.object fields)).length = 1 + (",".intercalate
      ((sortKeys (fieldTexts P fields)).map fun (key, text) => jsonString key ++ ":" ++ text)).length + 1 := by
    rw [canonical, String.length_append, String.length_append]
    rfl
  omega

/-- The width that JSON leaves to a property. -/
def widthLeft (P : Platform) (field : String × JsValue) : ℕ :=
  if field.2.isUndefined then 0 else fieldWidth P (field.1, roundTrip field.2)

theorem sum_jsonFields (P : Platform) (fields : List (String × JsValue)) :
    ((jsonFields isFiniteNumber fields).map (fieldWidth P)).sum = (fields.map (widthLeft P)).sum := by
  induction fields with
  | nil => rfl
  | cons field fields ih =>
    rw [jsonFields, List.map_cons, List.sum_cons, widthLeft]
    split
    · rw [ih, Nat.zero_add]
    · rw [List.map_cons, List.sum_cons, ih]

theorem canonical_json_le (P : Platform) (v : JsValue) (hproper : isProper v = true)
    (hundefined : v.isUndefined = false) :
    (canonical P (roundTrip v)).length ≤ (canonical P v).length ∧
      (isDefined v = false → (canonical P (roundTrip v)).length < (canonical P v).length) := by
  induction v using Value.inductionOn with
  | undefined => cases hundefined
  | num n =>
    refine ⟨?_, fun h => by cases h⟩
    cases n <;> exact le_of_eq rfl
  | array items ih =>
    have hitems := areProper_iff.mp hproper
    have hround : roundTrip (.array items) = .array (items.map roundTrip) := by
      rw [roundTrip, json, jsonItems_eq]
    have hdefined : ∀ item ∈ items.map roundTrip, item.isUndefined = false := by
      rintro _ hmem
      obtain ⟨item, -, rfl⟩ := List.mem_map.mp hmem
      exact not_isUndefined (isDefined_json item)
    rw [hround, length_array hdefined, length_array fun item hitem => (hitems item hitem).1, List.map_map]
    have hle : ∀ item ∈ items, (itemWidth P ∘ roundTrip) item ≤ itemWidth P item := fun item hitem =>
      Nat.succ_le_succ (ih item hitem (hitems item hitem).2 (hitems item hitem).1).1
    refine ⟨?_, fun h => ?_⟩
    · have hsum := List.sum_le_sum hle
      omega
    · have hex : ∃ item ∈ items, isDefined item = false := by
        by_contra hall
        push Not at hall
        rw [isDefined, areDefined_iff.mpr fun item hitem => by simpa using hall item hitem] at h
        cases h
      obtain ⟨item, hitem, hgap⟩ := hex
      have hlt := List.sum_lt_sum _ _ hle ⟨item, hitem, Nat.succ_lt_succ
        ((ih item hitem (hitems item hitem).2 (hitems item hitem).1).2 hgap)⟩
      have hpos : 1 ≤ (items.map (itemWidth P ∘ roundTrip)).sum :=
        (Nat.le_add_left 1 _).trans (List.single_le_sum (fun _ _ => Nat.zero_le _) _
          (List.mem_map_of_mem hitem))
      omega
  | object fields ih =>
    rw [isProper, Bool.and_eq_true, holdProper_iff] at hproper
    have hround : roundTrip (.object fields) = .object (jsonFields isFiniteNumber fields) := rfl
    rw [hround, length_object, length_object, sum_jsonFields]
    have hfield : ∀ field ∈ fields, widthLeft P field ≤ fieldWidth P field ∧
        (isDefined field.2 = false → widthLeft P field < fieldWidth P field) := by
      intro field hmem
      rw [widthLeft]
      split
      · refine ⟨Nat.zero_le _, fun _ => ?_⟩
        rw [fieldWidth]
        omega
      · rename_i hnot
        obtain ⟨hle, hlt⟩ := ih field hmem (hproper.2 field hmem) (by simpa using hnot)
        simp only [fieldWidth, itemWidth]
        exact ⟨by omega, fun h => by have := hlt h; omega⟩
    refine ⟨?_, fun h => ?_⟩
    · have hsum := List.sum_le_sum fun field hmem => (hfield field hmem).1
      omega
    · have hex : ∃ field ∈ fields, isDefined field.2 = false := by
        by_contra hall
        push Not at hall
        rw [isDefined, holdDefined_iff.mpr fun field hmem => by simpa using hall field hmem] at h
        cases h
      obtain ⟨field, hmem, hgap⟩ := hex
      have hlt := List.sum_lt_sum _ _ (fun field hmem => (hfield field hmem).1)
        ⟨field, hmem, (hfield field hmem).2 hgap⟩
      have hwide : 2 ≤ fieldWidth P field := by
        rw [fieldWidth, itemWidth]
        omega
      have hpos : 2 ≤ (fields.map (fieldWidth P)).sum :=
        hwide.trans (List.single_le_sum (fun _ _ => Nat.zero_le _) _ (List.mem_map_of_mem hmem))
      omega
  | _ => exact ⟨le_of_eq rfl, fun h => by cases h⟩

/-- A value and what JSON leaves of it have one text only if there is no `undefined` in the value. -/
theorem isDefined_of_canonical_eq {P : Platform} {v : JsValue} (hproper : isProper v = true)
    (hundefined : v.isUndefined = false) (h : canonical P (roundTrip v) = canonical P v) :
    isDefined v = true := by
  cases hdefined : isDefined v with
  | true => rfl
  | false =>
    have hlt := (canonical_json_le P v hproper hundefined).2 hdefined
    rw [h] at hlt
    exact absurd hlt (lt_irrefl _)

end Remembra.Snapshot
