import Mathlib.Data.List.Nodup

/-! Schemas that read JavaScript values, and what becomes of a value that is written as JSON and read again.
    A schema keeps of an object the properties that it names, and keeps one that is there without a
    value; JSON drops the latter, and writes `null` for a number that is not finite. So what a schema has
    read, it reads again after JSON exactly when all its numbers are finite, and then it gets what JSON
    has left of it (`parse_json`). -/

namespace Remembra.Js

inductive Value (N : Type*) where
  | undefined
  | null
  | bool (b : Bool)
  | num (n : N)
  | str (s : String)
  | array (items : List (Value N))
  | object (fields : List (String × Value N))

variable {N : Type*}

/-- Values by their elements and their properties. -/
@[elab_as_elim]
theorem Value.inductionOn {motive : Value N → Prop} (undefined : motive .undefined) (null : motive .null)
    (bool : ∀ b, motive (.bool b)) (num : ∀ n, motive (.num n)) (str : ∀ s, motive (.str s))
    (array : ∀ items, (∀ item ∈ items, motive item) → motive (.array items))
    (object : ∀ fields, (∀ field ∈ fields, motive field.2) → motive (.object fields)) (v : Value N) :
    motive v :=
  @Value.rec N motive (fun items => ∀ item ∈ items, motive item)
    (fun fields => ∀ field ∈ fields, motive field.2) (fun field => motive field.2)
    undefined null bool num str array object (fun _ h => absurd h List.not_mem_nil)
    (fun _ _ hitem hitems => List.forall_mem_cons.mpr ⟨hitem, hitems⟩)
    (fun _ h => absurd h List.not_mem_nil)
    (fun _ _ hfield hfields => List.forall_mem_cons.mpr ⟨hfield, hfields⟩) (fun _ _ h => h) v

def Value.isUndefined : Value N → Bool
  | .undefined => true
  | _ => false

/-! ### JSON -/

section Json
variable (finite : N → Bool)

mutual

/-- `JSON.parse(JSON.stringify(value))` of a value other than `undefined`, or of an element of an array. -/
def json : Value N → Value N
  | .undefined => .null
  | .null => .null
  | .bool b => .bool b
  | .num n => if finite n then .num n else .null
  | .str s => .str s
  | .array items => .array (jsonItems items)
  | .object fields => .object (jsonFields fields)

def jsonItems : List (Value N) → List (Value N)
  | [] => []
  | item :: items => json item :: jsonItems items

def jsonFields : List (String × Value N) → List (String × Value N)
  | [] => []
  | (key, value) :: fields =>
    if value.isUndefined then jsonFields fields else (key, json value) :: jsonFields fields

end

mutual

/-- All numbers in the value are finite. -/
def isFinite : Value N → Bool
  | .num n => finite n
  | .array items => areFinite items
  | .object fields => holdFinite fields
  | _ => true

def areFinite : List (Value N) → Bool
  | [] => true
  | item :: items => isFinite item && areFinite items

def holdFinite : List (String × Value N) → Bool
  | [] => true
  | (_, value) :: fields => isFinite value && holdFinite fields

end

end Json

mutual

/-- There is no `undefined` in the value. -/
def isDefined : Value N → Bool
  | .undefined => false
  | .array items => areDefined items
  | .object fields => holdDefined fields
  | _ => true

def areDefined : List (Value N) → Bool
  | [] => true
  | item :: items => isDefined item && areDefined items

def holdDefined : List (String × Value N) → Bool
  | [] => true
  | (_, value) :: fields => isDefined value && holdDefined fields

end

mutual

/-- Every element of an array has a value, and no object has two properties of one name. -/
def isProper : Value N → Bool
  | .array items => areProper items
  | .object fields => decide (fields.map Prod.fst).Nodup && holdProper fields
  | _ => true

def areProper : List (Value N) → Bool
  | [] => true
  | item :: items => !item.isUndefined && isProper item && areProper items

def holdProper : List (String × Value N) → Bool
  | [] => true
  | (_, value) :: fields => isProper value && holdProper fields

end

/-- The properties of an object after an assignment to one of them. -/
def put (key : String) (value : Value N) : List (String × Value N) → List (String × Value N)
  | [] => [(key, value)]
  | field :: fields => if field.1 = key then (key, value) :: fields else field :: put key value fields

/-- The properties but one. -/
def without (key : String) (fields : List (String × Value N)) : List (String × Value N) :=
  fields.filter fun field => field.1 ≠ key

section JsonLemmas
variable {finite : N → Bool}

theorem jsonItems_eq (items : List (Value N)) : jsonItems finite items = items.map (json finite) := by
  induction items with
  | nil => rfl
  | cons item items ih => rw [jsonItems, ih, List.map_cons]

theorem jsonFields_eq (fields : List (String × Value N)) : jsonFields finite fields =
    (fields.filter fun field => !field.2.isUndefined).map fun field => (field.1, json finite field.2) := by
  induction fields with
  | nil => rfl
  | cons field fields ih =>
    rw [jsonFields, ih]
    by_cases h : field.2.isUndefined = true
    · rw [if_pos h, List.filter_cons_of_neg (by simp [h])]
    · rw [if_neg h, List.filter_cons_of_pos (by simp [h]), List.map_cons]

theorem areFinite_iff {items : List (Value N)} :
    areFinite finite items = true ↔ ∀ item ∈ items, isFinite finite item = true := by
  induction items with
  | nil => simp [areFinite]
  | cons item items ih => simp [areFinite, ih]

theorem holdFinite_iff {fields : List (String × Value N)} :
    holdFinite finite fields = true ↔ ∀ field ∈ fields, isFinite finite field.2 = true := by
  induction fields with
  | nil => simp [holdFinite]
  | cons field fields ih => simp [holdFinite, ih]

theorem areDefined_iff {items : List (Value N)} :
    areDefined items = true ↔ ∀ item ∈ items, isDefined item = true := by
  induction items with
  | nil => simp [areDefined]
  | cons item items ih => simp [areDefined, ih]

theorem holdDefined_iff {fields : List (String × Value N)} :
    holdDefined fields = true ↔ ∀ field ∈ fields, isDefined field.2 = true := by
  induction fields with
  | nil => simp [holdDefined]
  | cons field fields ih => simp [holdDefined, ih]

theorem areProper_iff {items : List (Value N)} : areProper items = true ↔
    ∀ item ∈ items, item.isUndefined = false ∧ isProper item = true := by
  induction items with
  | nil => simp [areProper]
  | cons item items ih => simp [areProper, ih]

theorem holdProper_iff {fields : List (String × Value N)} :
    holdProper fields = true ↔ ∀ field ∈ fields, isProper field.2 = true := by
  induction fields with
  | nil => simp [holdProper]
  | cons field fields ih => simp [holdProper, ih]

theorem lookup_put (key : String) (value : Value N) (fields : List (String × Value N)) :
    (put key value fields).lookup key = some value := by
  induction fields with
  | nil => exact List.lookup_cons_self
  | cons field fields ih =>
    rw [put]
    split
    · exact List.lookup_cons_self
    · rename_i hne
      rw [List.lookup_cons, beq_false_of_ne (Ne.symm hne)]
      exact ih

theorem without_put (key : String) (value : Value N) (fields : List (String × Value N)) :
    without key (put key value fields) = without key fields := by
  induction fields with
  | nil => simp [put, without]
  | cons field fields ih =>
    rw [put]
    split
    · rename_i hkey
      rw [without, without, List.filter_cons_of_neg (by simp), List.filter_cons_of_neg (by simp [hkey])]
    · rename_i hkey
      rw [without, without, List.filter_cons_of_pos (by simp [hkey]),
        List.filter_cons_of_pos (by simp [hkey])]
      exact congrArg (field :: ·) ih

theorem jsonFields_without (key : String) (fields : List (String × Value N)) :
    jsonFields finite (without key fields) = without key (jsonFields finite fields) := by
  rw [jsonFields_eq, jsonFields_eq, without, without, List.filter_map, List.filter_filter,
    List.filter_filter]
  congr 1
  refine List.filter_congr fun field _ => ?_
  exact Bool.and_comm _ _

variable (finite) in
theorem lookup_jsonFields {key : String} {value : Value N} {fields : List (String × Value N)}
    (h : fields.lookup key = some value) (hvalue : value.isUndefined = false) :
    (jsonFields finite fields).lookup key = some (json finite value) := by
  induction fields with
  | nil => cases h
  | cons field fields ih =>
    rw [List.lookup_cons] at h
    rw [jsonFields]
    by_cases hkey : key = field.1
    · rw [hkey, beq_self_eq_true] at h
      cases h
      rw [if_neg (by simp [hvalue]), hkey]
      exact List.lookup_cons_self
    · rw [beq_false_of_ne hkey] at h
      split
      · exact ih h
      · rw [List.lookup_cons, beq_false_of_ne hkey]
        exact ih h

theorem lookup_of_mem {field : String × Value N} {fields : List (String × Value N)}
    (hnodup : (fields.map Prod.fst).Nodup) (h : field ∈ fields) : fields.lookup field.1 = some field.2 := by
  induction fields with
  | nil => cases h
  | cons first fields ih =>
    rw [List.map_cons, List.nodup_cons] at hnodup
    rcases List.mem_cons.mp h with rfl | hmem
    · exact List.lookup_cons_self
    · have hne : field.1 ≠ first.1 := fun heq => hnodup.1 (heq ▸ List.mem_map_of_mem hmem)
      rw [List.lookup_cons, beq_false_of_ne hne]
      exact ih hnodup.2 hmem

/-- A property without a value is dropped all the same. -/
theorem jsonFields_without_of {key : String} {fields : List (String × Value N)}
    (h : ∀ field ∈ fields, field.1 = key → field.2.isUndefined = true) :
    jsonFields finite (without key fields) = jsonFields finite fields := by
  rw [jsonFields_eq, jsonFields_eq, without, List.filter_filter]
  congr 1
  refine List.filter_congr fun field hfield => ?_
  by_cases hkey : field.1 = key
  · simp [hkey, h field hfield hkey]
  · simp [hkey]

theorem not_isUndefined {v : Value N} (h : isDefined v = true) : v.isUndefined = false := by
  cases v with
  | undefined => cases h
  | _ => rfl

/-- JSON keeps a value that has a text of its own in every place. -/
theorem json_eq_self (v : Value N) (hfinite : isFinite finite v = true) (hdefined : isDefined v = true) :
    json finite v = v := by
  induction v using Value.inductionOn with
  | undefined => cases hdefined
  | num n => exact if_pos hfinite
  | array items ih =>
    rw [json, jsonItems_eq]
    congr 1
    refine (List.map_congr_left fun item hitem => ?_).trans (List.map_id items)
    exact ih item hitem (areFinite_iff.mp hfinite item hitem) (areDefined_iff.mp hdefined item hitem)
  | object fields ih =>
    have hfield := holdDefined_iff.mp hdefined
    rw [json, jsonFields_eq, List.filter_eq_self.mpr fun field h => by simp [not_isUndefined (hfield field h)]]
    congr 1
    refine (List.map_congr_left fun field h => ?_).trans (List.map_id fields)
    exact Prod.ext rfl (ih field h (holdFinite_iff.mp hfinite field h) (hfield field h))
  | _ => rfl

/-- What JSON has left has a text of its own in every place. -/
theorem isDefined_json (v : Value N) : isDefined (json finite v) = true := by
  induction v using Value.inductionOn with
  | num n =>
    rw [json]
    split <;> rfl
  | array items ih =>
    rw [json, isDefined, areDefined_iff, jsonItems_eq]
    rintro _ hmem
    obtain ⟨item, hitem, rfl⟩ := List.mem_map.mp hmem
    exact ih item hitem
  | object fields ih =>
    rw [json, isDefined, holdDefined_iff, jsonFields_eq]
    rintro _ hmem
    obtain ⟨field, hfield, rfl⟩ := List.mem_map.mp hmem
    exact ih field (List.mem_of_mem_filter hfield)
  | _ => rfl

end JsonLemmas

/-! ### Schemas -/

/-- A property of an object is given with whether it is optional; a strict object has no others. -/
inductive Schema (N : Type*) where
  | string (check : String → Bool)
  | number (check : N → Bool)
  | boolean
  | array (most : Option ℕ) (item : Schema N)
  | object (strict : Bool) (fields : List (String × Bool × Schema N))
  | either (first second : Schema N)

mutual

/-- The data that the schema makes of a value that it accepts. -/
def parse : Schema N → Value N → Option (Value N)
  | .string check, .str s => if check s then some (.str s) else none
  | .number check, .num n => if check n then some (.num n) else none
  | .boolean, .bool b => some (.bool b)
  | .array most item, .array items =>
    if most.all (items.length ≤ ·) then (items.mapM (parse item)).map .array else none
  | .object strict fields, .object props =>
    if strict && props.any fun prop => prop.1 ∉ fields.map (·.1) then none
    else (parseFields fields props).map .object
  | .either first second, v => (parse first v).or (parse second v)
  | _, _ => none

def parseFields : List (String × Bool × Schema N) → List (String × Value N) →
    Option (List (String × Value N))
  | [], _ => some []
  | (key, optional, schema) :: fields, props =>
    match props.lookup key with
    | none => if optional then parseFields fields props else none
    | some value =>
      if value.isUndefined then
        if optional then (parseFields fields props).map ((key, .undefined) :: ·) else none
      else
        (parse schema value).bind fun data => (parseFields fields props).map ((key, data) :: ·)

end

/-- Schemas by their parts. -/
@[elab_as_elim]
theorem Schema.inductionOn {motive : Schema N → Prop} (string : ∀ check, motive (.string check))
    (number : ∀ check, motive (.number check)) (boolean : motive .boolean)
    (array : ∀ most item, motive item → motive (.array most item))
    (object : ∀ strict fields, (∀ field ∈ fields, motive field.2.2) → motive (.object strict fields))
    (either : ∀ first second, motive first → motive second → motive (.either first second))
    (schema : Schema N) : motive schema :=
  @Schema.rec N motive (fun fields => ∀ field ∈ fields, motive field.2.2) (fun field => motive field.2.2)
    (fun part => motive part.2) string number boolean array object either
    (fun _ h => absurd h List.not_mem_nil)
    (fun _ _ hfield hfields => List.forall_mem_cons.mpr ⟨hfield, hfields⟩) (fun _ _ h => h)
    (fun _ _ h => h) schema

inductive Kind where
  | bool | num | str | array | object
  deriving DecidableEq

def Value.kind : Value N → Option Kind
  | .undefined | .null => none
  | .bool _ => some .bool
  | .num _ => some .num
  | .str _ => some .str
  | .array _ => some .array
  | .object _ => some .object

/-- The kinds of values that a schema may accept. -/
def Schema.kinds : Schema N → List Kind
  | .string _ => [.str]
  | .number _ => [.num]
  | .boolean => [.bool]
  | .array .. => [.array]
  | .object .. => [.object]
  | .either first second => first.kinds ++ second.kinds

mutual

/-- No property is named twice, and the kind of a value decides between alternatives. -/
def Schema.apart : Schema N → Bool
  | .array _ item => item.apart
  | .object _ fields => decide (fields.map (·.1)).Nodup && fieldsApart fields
  | .either first second =>
    first.apart && second.apart && first.kinds.all fun kind => !second.kinds.contains kind
  | _ => true

def fieldsApart : List (String × Bool × Schema N) → Bool
  | [] => true
  | (_, _, schema) :: fields => schema.apart && fieldsApart fields

end

mutual

/-- The schema takes finite numbers only. -/
def Schema.ChecksFinite (finite : N → Bool) : Schema N → Prop
  | .number check => ∀ n, check n = true → finite n = true
  | .array _ item => item.ChecksFinite finite
  | .object _ fields => FieldsCheckFinite finite fields
  | .either first second => first.ChecksFinite finite ∧ second.ChecksFinite finite
  | _ => True

def FieldsCheckFinite (finite : N → Bool) : List (String × Bool × Schema N) → Prop
  | [] => True
  | (_, _, schema) :: fields => schema.ChecksFinite finite ∧ FieldsCheckFinite finite fields

end

section Parse
attribute [local simp] parse parseFields
variable {finite : N → Bool} {schema : Schema N} {v w : Value N}
  {fields : List (String × Bool × Schema N)} {props props' out : List (String × Value N)}

theorem fieldsApart_iff : fieldsApart fields = true ↔ ∀ field ∈ fields, field.2.2.apart = true := by
  induction fields with
  | nil => simp [fieldsApart]
  | cons field fields ih => simp [fieldsApart, ih]

/-- A schema accepts values of its kinds, and keeps the kind. -/
theorem kind_of_parse (h : parse schema v = some w) :
    ∃ kind ∈ schema.kinds, v.kind = some kind ∧ w.kind = some kind := by
  induction schema using Schema.inductionOn with
  | string check =>
    cases v <;> simp only [parse, reduceCtorEq] at h
    split at h <;> cases h
    exact ⟨.str, List.mem_singleton_self _, rfl, rfl⟩
  | number check =>
    cases v <;> simp only [parse, reduceCtorEq] at h
    split at h <;> cases h
    exact ⟨.num, List.mem_singleton_self _, rfl, rfl⟩
  | boolean =>
    cases v <;> simp only [parse, reduceCtorEq] at h
    cases h
    exact ⟨.bool, List.mem_singleton_self _, rfl, rfl⟩
  | array most item ih =>
    cases v <;> simp only [parse, reduceCtorEq] at h
    split at h
    · obtain ⟨items, -, rfl⟩ := Option.map_eq_some_iff.mp h
      exact ⟨.array, List.mem_singleton_self _, rfl, rfl⟩
    · cases h
  | object strict fields ih =>
    cases v <;> simp only [parse, reduceCtorEq] at h
    split at h
    · cases h
    · obtain ⟨fields, -, rfl⟩ := Option.map_eq_some_iff.mp h
      exact ⟨.object, List.mem_singleton_self _, rfl, rfl⟩
  | either first second ih ih' =>
    rw [parse, Option.or_eq_some_iff] at h
    rcases h with h | ⟨-, h⟩
    · obtain ⟨kind, hmem, hkinds⟩ := ih h
      exact ⟨kind, List.mem_append_left _ hmem, hkinds⟩
    · obtain ⟨kind, hmem, hkinds⟩ := ih' h
      exact ⟨kind, List.mem_append_right _ hmem, hkinds⟩

theorem isUndefined_of_parse (h : parse schema v = some w) : w.isUndefined = false := by
  obtain ⟨kind, -, -, hkind⟩ := kind_of_parse h
  cases w with
  | undefined => cases hkind
  | _ => rfl

/-- JSON makes no other kind of value out of one, though it may leave none. -/
theorem kind_of_json {kind : Kind} (h : (json finite v).kind = some kind) : v.kind = some kind := by
  cases v with
  | num n =>
    rw [json] at h
    split at h
    · exact h
    · cases h
  | undefined => cases h
  | _ => exact h

theorem parse_json_eq_none {kind : Kind} (hkind : v.kind = some kind) (hmem : kind ∉ schema.kinds) :
    parse schema (json finite v) = none := by
  cases h : parse schema (json finite v) with
  | none => rfl
  | some w =>
    obtain ⟨kind', hmem', hkind', -⟩ := kind_of_parse h
    have heq := hkind.symm.trans (kind_of_json hkind')
    cases heq
    exact absurd hmem' hmem

theorem parseFields_congr (h : ∀ field ∈ fields, props.lookup field.1 = props'.lookup field.1) :
    parseFields fields props = parseFields fields props' := by
  induction fields with
  | nil => rfl
  | cons field fields ih =>
    rw [List.forall_mem_cons] at h
    rw [parseFields, parseFields, h.1, ih h.2]

/-- The properties that are kept are some of those that the schema names. -/
theorem keys_of_parseFields (h : parseFields fields props = some out) :
    (out.map Prod.fst).Sublist (fields.map Prod.fst) := by
  induction fields generalizing out with
  | nil =>
    cases h
    exact List.Sublist.refl _
  | cons field fields ih =>
    rw [parseFields] at h
    split at h
    · split at h
      · exact (ih h).cons _
      · cases h
    · split at h
      · split at h
        · obtain ⟨rest, hrest, rfl⟩ := Option.map_eq_some_iff.mp h
          exact (ih hrest).cons_cons _
        · cases h
      · obtain ⟨data, -, hdata⟩ := Option.bind_eq_some_iff.mp h
        obtain ⟨rest, hrest, rfl⟩ := Option.map_eq_some_iff.mp hdata
        exact (ih hrest).cons_cons _

theorem lookup_mem {key : String} {value : Value N} (h : props.lookup key = some value) :
    (key, value) ∈ props := by
  obtain ⟨l, l', rfl, -⟩ := List.lookup_eq_some_iff.mp h
  exact List.mem_append_right _ (List.mem_cons_self ..)

/-- A property that is kept was there, without a value or with one that its schema has read. -/
theorem value_of_parseFields {prop : String × Value N} (h : parseFields fields props = some out)
    (hprop : prop ∈ out) : ∃ value, (prop.1, value) ∈ props ∧
      (value.isUndefined = true ∧ prop.2 = .undefined ∨
        ∃ field ∈ fields, field.1 = prop.1 ∧ parse field.2.2 value = some prop.2) := by
  induction fields generalizing out with
  | nil =>
    cases h
    cases hprop
  | cons field fields ih =>
    have hlift : ∀ {rest}, parseFields fields props = some rest → prop ∈ rest →
        ∃ value, (prop.1, value) ∈ props ∧ (value.isUndefined = true ∧ prop.2 = .undefined ∨
          ∃ f ∈ field :: fields, f.1 = prop.1 ∧ parse f.2.2 value = some prop.2) := by
      intro rest hrest hmem
      obtain ⟨value, hvalue, hkept⟩ := ih hrest hmem
      exact ⟨value, hvalue, hkept.imp_right fun ⟨f, hf, hread⟩ => ⟨f, List.mem_cons_of_mem _ hf, hread⟩⟩
    rw [parseFields] at h
    split at h
    · split at h
      · exact hlift h hprop
      · cases h
    · rename_i value hvalue
      split at h
      · rename_i hundefined
        split at h
        · obtain ⟨rest, hrest, rfl⟩ := Option.map_eq_some_iff.mp h
          rcases List.mem_cons.mp hprop with rfl | hmem
          · exact ⟨value, lookup_mem hvalue, .inl ⟨hundefined, rfl⟩⟩
          · exact hlift hrest hmem
        · cases h
      · obtain ⟨data, hdata, hout⟩ := Option.bind_eq_some_iff.mp h
        obtain ⟨rest, hrest, rfl⟩ := Option.map_eq_some_iff.mp hout
        rcases List.mem_cons.mp hprop with rfl | hmem
        · exact ⟨value, lookup_mem hvalue, .inr ⟨field, List.mem_cons_self .., rfl, hdata⟩⟩
        · exact hlift hrest hmem

theorem mem_of_mapM {items out : List (Value N)} (h : items.mapM (parse schema) = some out) {data : Value N}
    (hdata : data ∈ out) : ∃ value ∈ items, parse schema value = some data := by
  induction items generalizing out with
  | nil =>
    cases h
    cases hdata
  | cons item items ih =>
    rw [List.mapM_cons] at h
    obtain ⟨first, hfirst, hout⟩ := Option.bind_eq_some_iff.mp h
    obtain ⟨rest, hrest, hsome⟩ := Option.bind_eq_some_iff.mp hout
    cases hsome
    rcases List.mem_cons.mp hdata with rfl | hmem
    · exact ⟨item, List.mem_cons_self .., hfirst⟩
    · obtain ⟨value, hvalue, hparse⟩ := ih hrest hmem
      exact ⟨value, List.mem_cons_of_mem _ hvalue, hparse⟩

theorem data_of_mapM {items out : List (Value N)} (h : items.mapM (parse schema) = some out) {value : Value N}
    (hvalue : value ∈ items) : ∃ data ∈ out, parse schema value = some data := by
  induction items generalizing out with
  | nil => cases hvalue
  | cons item items ih =>
    rw [List.mapM_cons] at h
    obtain ⟨first, hfirst, hout⟩ := Option.bind_eq_some_iff.mp h
    obtain ⟨rest, hrest, hsome⟩ := Option.bind_eq_some_iff.mp hout
    cases hsome
    rcases List.mem_cons.mp hvalue with rfl | hmem
    · exact ⟨first, List.mem_cons_self .., hfirst⟩
    · obtain ⟨data, hdata, hparse⟩ := ih hrest hmem
      exact ⟨data, List.mem_cons_of_mem _ hdata, hparse⟩

/-- A property that the schema names and the object has is kept. -/
theorem kept_of_parseFields (h : parseFields fields props = some out) {field : String × Bool × Schema N}
    (hfield : field ∈ fields) {value : Value N} (hvalue : props.lookup field.1 = some value) :
    ∃ data, (field.1, data) ∈ out ∧ (value.isUndefined = true ∧ data = .undefined ∨
      parse field.2.2 value = some data) := by
  induction fields generalizing out with
  | nil => cases hfield
  | cons first fields ih =>
    rw [parseFields] at h
    rcases List.mem_cons.mp hfield with rfl | hmem
    · rw [hvalue] at h
      dsimp only at h
      split at h
      · rename_i hundefined
        split at h
        · obtain ⟨rest, -, rfl⟩ := Option.map_eq_some_iff.mp h
          exact ⟨.undefined, List.mem_cons_self .., .inl ⟨hundefined, rfl⟩⟩
        · cases h
      · obtain ⟨data, hdata, hout⟩ := Option.bind_eq_some_iff.mp h
        obtain ⟨rest, -, rfl⟩ := Option.map_eq_some_iff.mp hout
        exact ⟨data, List.mem_cons_self .., .inr hdata⟩
    · have hlift : ∀ {rest} {head : String × Value N}, parseFields fields props = some rest →
          ∃ data, (field.1, data) ∈ head :: rest ∧ (value.isUndefined = true ∧ data = .undefined ∨
            parse field.2.2 value = some data) := by
        intro rest head hrest
        obtain ⟨data, hdata, hkept⟩ := ih hrest hmem
        exact ⟨data, List.mem_cons_of_mem _ hdata, hkept⟩
      split at h
      · split at h
        · exact ih h hmem
        · cases h
      · split at h
        · split at h
          · obtain ⟨rest, hrest, rfl⟩ := Option.map_eq_some_iff.mp h
            exact hlift hrest
          · cases h
        · obtain ⟨data, -, hout⟩ := Option.bind_eq_some_iff.mp h
          obtain ⟨rest, hrest, rfl⟩ := Option.map_eq_some_iff.mp hout
          exact hlift hrest

/-- The rule for what a schema makes of a value. -/
theorem parse_induct {R : Value N → Value N → Prop} (hbool : ∀ b, R (.bool b) (.bool b))
    (hnum : ∀ n, R (.num n) (.num n)) (hstr : ∀ s, R (.str s) (.str s))
    (harray : ∀ items out, (∀ data ∈ out, data.isUndefined = false ∧ ∃ value ∈ items, R value data) →
      R (.array items) (.array out))
    (hobject : ∀ props out : List (String × Value N), (out.map Prod.fst).Nodup →
      (∀ prop ∈ out, ∃ value, (prop.1, value) ∈ props ∧
        (value.isUndefined = true ∧ prop.2 = .undefined ∨ prop.2.isUndefined = false ∧ R value prop.2)) →
      R (.object props) (.object out))
    (hschema : schema.apart = true) (h : parse schema v = some w) : R v w := by
  induction schema using Schema.inductionOn generalizing v w with
  | string check =>
    cases v <;> simp only [parse, reduceCtorEq] at h
    split at h <;> cases h
    exact hstr _
  | number check =>
    cases v <;> simp only [parse, reduceCtorEq] at h
    split at h <;> cases h
    exact hnum _
  | boolean =>
    cases v <;> simp only [parse, reduceCtorEq] at h
    cases h
    exact hbool _
  | array most item ih =>
    cases v <;> simp only [parse, reduceCtorEq] at h
    split at h
    · obtain ⟨out, hout, rfl⟩ := Option.map_eq_some_iff.mp h
      refine harray _ out fun data hdata => ?_
      obtain ⟨value, hmem, hvalue⟩ := mem_of_mapM hout hdata
      exact ⟨isUndefined_of_parse hvalue, value, hmem, ih hschema hvalue⟩
    · cases h
  | object strict fields ih =>
    cases v <;> simp only [parse, reduceCtorEq] at h
    split at h
    · cases h
    · obtain ⟨out, hout, rfl⟩ := Option.map_eq_some_iff.mp h
      rw [Schema.apart, Bool.and_eq_true, decide_eq_true_eq, fieldsApart_iff] at hschema
      refine hobject _ out (hschema.1.sublist (keys_of_parseFields hout)) fun prop hprop => ?_
      obtain ⟨value, hmem, hkept⟩ := value_of_parseFields hout hprop
      refine ⟨value, hmem, hkept.imp_right fun ⟨field, hfield, _, hvalue⟩ => ?_⟩
      exact ⟨isUndefined_of_parse hvalue, ih field hfield (hschema.2 field hfield) hvalue⟩
  | either first second ih ih' =>
    rw [Schema.apart, Bool.and_eq_true, Bool.and_eq_true] at hschema
    rw [parse, Option.or_eq_some_iff] at h
    rcases h with h | ⟨-, h⟩
    · exact ih hschema.1.1 h
    · exact ih' hschema.1.2 h

/-- Data that a schema has made has no gaps in its arrays and no property twice. -/
theorem isProper_of_parse (hschema : schema.apart = true) (h : parse schema v = some w) :
    isProper w = true := by
  refine parse_induct (R := fun _ w => isProper w = true) (fun _ => rfl) (fun _ => rfl) (fun _ => rfl)
    (fun items out hout => ?_) (fun props out hnodup hout => ?_) hschema h
  · rw [isProper, areProper_iff]
    intro data hdata
    obtain ⟨hdefined, -, -, hproper⟩ := hout data hdata
    exact ⟨hdefined, hproper⟩
  · rw [isProper, Bool.and_eq_true, decide_eq_true_eq, holdProper_iff]
    refine ⟨hnodup, fun prop hprop => ?_⟩
    obtain ⟨-, -, ⟨-, hprop⟩ | ⟨-, hproper⟩⟩ := hout prop hprop
    · rw [hprop]
      rfl
    · exact hproper

theorem isFinite_of_parse (hschema : schema.apart = true) (h : parse schema v = some w)
    (hv : isFinite finite v = true) : isFinite finite w = true := by
  refine parse_induct (R := fun v w => isFinite finite v = true → isFinite finite w = true)
    (fun _ => id) (fun _ => id) (fun _ => id) (fun items out hout hv => ?_)
    (fun props out _ hout hv => ?_) hschema h hv
  · rw [isFinite, areFinite_iff] at hv ⊢
    intro data hdata
    obtain ⟨-, value, hmem, hvalue⟩ := hout data hdata
    exact hvalue (hv value hmem)
  · rw [isFinite, holdFinite_iff] at hv ⊢
    intro prop hprop
    obtain ⟨value, hmem, ⟨-, hprop⟩ | ⟨-, hvalue⟩⟩ := hout prop hprop
    · rw [hprop]
      rfl
    · exact hvalue (hv _ hmem)

theorem isDefined_of_parse (hschema : schema.apart = true) (h : parse schema v = some w)
    (hv : isDefined v = true) : isDefined w = true := by
  refine parse_induct (R := fun v w => isDefined v = true → isDefined w = true)
    (fun _ => id) (fun _ => id) (fun _ => id) (fun items out hout hv => ?_)
    (fun props out _ hout hv => ?_) hschema h hv
  · rw [isDefined, areDefined_iff] at hv ⊢
    intro data hdata
    obtain ⟨-, value, hmem, hvalue⟩ := hout data hdata
    exact hvalue (hv value hmem)
  · rw [isDefined, holdDefined_iff] at hv ⊢
    intro prop hprop
    obtain ⟨value, hmem, ⟨hundefined, -⟩ | ⟨-, hvalue⟩⟩ := hout prop hprop
    · have hdefined := not_isUndefined (hv _ hmem)
      rw [hundefined] at hdefined
      cases hdefined
    · exact hvalue (hv _ hmem)

theorem fieldsCheckFinite_iff :
    FieldsCheckFinite finite fields ↔ ∀ field ∈ fields, field.2.2.ChecksFinite finite := by
  induction fields with
  | nil => simp [FieldsCheckFinite]
  | cons field fields ih => simp [FieldsCheckFinite, ih]

theorem isFinite_of_checks (hschema : schema.ChecksFinite finite) (h : parse schema v = some w) :
    isFinite finite w = true := by
  induction schema using Schema.inductionOn generalizing v w with
  | string check =>
    cases v <;> simp only [parse, reduceCtorEq] at h
    split at h <;> cases h
    rfl
  | number check =>
    cases v <;> simp only [parse, reduceCtorEq] at h
    split at h <;> cases h
    rename_i n hcheck
    exact hschema n hcheck
  | boolean =>
    cases v <;> simp only [parse, reduceCtorEq] at h
    cases h
    rfl
  | array most item ih =>
    cases v <;> simp only [parse, reduceCtorEq] at h
    split at h
    · obtain ⟨out, hout, rfl⟩ := Option.map_eq_some_iff.mp h
      rw [isFinite, areFinite_iff]
      intro data hdata
      obtain ⟨value, -, hvalue⟩ := mem_of_mapM hout hdata
      exact ih hschema hvalue
    · cases h
  | object strict fields ih =>
    cases v <;> simp only [parse, reduceCtorEq] at h
    split at h
    · cases h
    · obtain ⟨out, hout, rfl⟩ := Option.map_eq_some_iff.mp h
      rw [isFinite, holdFinite_iff]
      intro prop hprop
      obtain ⟨value, -, ⟨-, hundefined⟩ | ⟨field, hfield, -, hvalue⟩⟩ := value_of_parseFields hout hprop
      · rw [hundefined]
        rfl
      · exact ih field hfield (fieldsCheckFinite_iff.mp hschema field hfield) hvalue
  | either first second ih ih' =>
    rw [parse, Option.or_eq_some_iff] at h
    rcases h with h | ⟨-, h⟩
    · exact ih hschema.1 h
    · exact ih' hschema.2 h

/-- A property that is kept was there. -/
theorem key_of_parse (hschema : schema.apart = true) (h : parse schema (.object props) = some (.object out))
    {prop : String × Value N} (hprop : prop ∈ out) : prop.1 ∈ props.map Prod.fst := by
  refine parse_induct (R := fun v w => ∀ props out, v = .object props → w = .object out →
    ∀ prop ∈ out, prop.1 ∈ props.map Prod.fst) ?_ ?_ ?_ ?_ ?_ hschema h props out rfl rfl prop hprop
  · rintro b _ _ ⟨⟩
  · rintro n _ _ ⟨⟩
  · rintro s _ _ ⟨⟩
  · rintro items out _ _ _ ⟨⟩
  · rintro props out - hkept _ _ ⟨⟩ ⟨⟩ prop hprop
    obtain ⟨value, hmem, -⟩ := hkept prop hprop
    exact List.mem_map.mpr ⟨_, hmem, rfl⟩

theorem keys_jsonFields : ((jsonFields finite out).map Prod.fst).Sublist (out.map Prod.fst) := by
  rw [jsonFields_eq, List.map_map]
  exact List.Sublist.map Prod.fst List.filter_sublist

theorem lookup_eq_none {key : String} (h : key ∉ props.map Prod.fst) : props.lookup key = none := by
  rw [List.lookup_eq_none_iff]
  intro prop hprop
  rw [bne_iff_ne]
  rintro rfl
  exact h (List.mem_map_of_mem hprop)

/-- The loop over the properties, on what JSON has left of what it has read. -/
theorem parseFields_json (hnodup : (fields.map Prod.fst).Nodup)
    (ih : ∀ field ∈ fields, ∀ v w, parse field.2.2 v = some w → parse field.2.2 (json finite w) =
      if isFinite finite w then some (json finite w) else none)
    (h : parseFields fields props = some out) : parseFields fields (jsonFields finite out) =
      if holdFinite finite out then some (jsonFields finite out) else none := by
  induction fields generalizing out with
  | nil =>
    cases h
    rfl
  | cons field fields ihfields =>
    obtain ⟨key, optional, schema⟩ := field
    rw [List.map_cons, List.nodup_cons] at hnodup
    have hkey : key ∉ fields.map Prod.fst := hnodup.1
    replace hnodup := hnodup.2
    rw [List.forall_mem_cons] at ih
    have hfree : ∀ {rest}, parseFields fields props = some rest →
        (jsonFields finite rest).lookup key = none := fun hrest =>
      lookup_eq_none fun hmem => hkey ((keys_of_parseFields hrest).subset (keys_jsonFields.subset hmem))
    rw [parseFields] at h
    split at h
    · split at h
      · rename_i hoptional
        rw [parseFields, hfree h]
        exact (if_pos hoptional).trans (ihfields hnodup ih.2 h)
      · cases h
    · rename_i value _
      split at h
      · split at h
        · rename_i hoptional
          obtain ⟨rest, hrest, rfl⟩ := Option.map_eq_some_iff.mp h
          have hdropped : jsonFields finite ((key, Value.undefined) :: rest) = jsonFields finite rest := rfl
          rw [hdropped, parseFields, hfree hrest]
          exact (if_pos hoptional).trans (ihfields hnodup ih.2 hrest)
        · cases h
      · obtain ⟨data, hdata, hout⟩ := Option.bind_eq_some_iff.mp h
        obtain ⟨rest, hrest, rfl⟩ := Option.map_eq_some_iff.mp hout
        have hdefined := isUndefined_of_parse hdata
        have hothers : parseFields fields ((key, json finite data) :: jsonFields finite rest) =
            parseFields fields (jsonFields finite rest) := by
          refine parseFields_congr fun field hfield => ?_
          have hne : field.1 ≠ key := by
            rintro rfl
            exact hkey (List.mem_map_of_mem hfield)
          rw [List.lookup_cons, beq_false_of_ne hne]
        rw [jsonFields, hdefined, if_neg Bool.false_ne_true, parseFields, List.lookup_cons_self, hothers,
          ihfields hnodup ih.2 hrest, holdFinite]
        simp only [not_isUndefined (isDefined_json data)]
        rw [if_neg Bool.false_ne_true, ih.1 value data hdata]
        cases isFinite finite data <;> cases holdFinite finite rest <;> rfl

theorem mapM_json {items out : List (Value N)}
    (ih : ∀ v w, parse schema v = some w → parse schema (json finite w) =
      if isFinite finite w then some (json finite w) else none)
    (h : items.mapM (parse schema) = some out) : items.length = out.length ∧
      (out.map (json finite)).mapM (parse schema) =
        if areFinite finite out then some (out.map (json finite)) else none := by
  induction items generalizing out with
  | nil =>
    cases h
    exact ⟨rfl, rfl⟩
  | cons item items ihitems =>
    rw [List.mapM_cons] at h
    obtain ⟨data, hdata, hout⟩ := Option.bind_eq_some_iff.mp h
    obtain ⟨rest, hrest, hsome⟩ := Option.bind_eq_some_iff.mp hout
    cases hsome
    obtain ⟨hlength, hitems⟩ := ihitems hrest
    refine ⟨congrArg (· + 1) hlength, ?_⟩
    rw [List.map_cons, List.mapM_cons, ih item data hdata, hitems, areFinite]
    cases isFinite finite data <;> cases areFinite finite rest <;> rfl

variable (finite) in
/-- What a schema has read it reads again after JSON exactly when the numbers in it are finite, and it
    gets what JSON has left. -/
theorem parse_json (hschema : schema.apart = true) (h : parse schema v = some w) :
    parse schema (json finite w) = if isFinite finite w then some (json finite w) else none := by
  induction schema using Schema.inductionOn generalizing v w with
  | string check =>
    cases v <;> simp only [parse, reduceCtorEq] at h
    split at h <;> cases h
    rename_i hcheck
    exact if_pos hcheck
  | number check =>
    cases v <;> simp only [parse, reduceCtorEq] at h
    split at h <;> cases h
    rename_i n hcheck
    rw [json, isFinite]
    cases finite n
    · rfl
    · exact if_pos hcheck
  | boolean =>
    cases v <;> simp only [parse, reduceCtorEq] at h
    cases h
    rfl
  | array most item ih =>
    cases v <;> simp only [parse, reduceCtorEq] at h
    split at h
    · rename_i hmost
      obtain ⟨out, hout, rfl⟩ := Option.map_eq_some_iff.mp h
      obtain ⟨hlength, hitems⟩ := mapM_json (fun v w => ih hschema) hout
      rw [json, jsonItems_eq, parse, List.length_map, ← hlength, if_pos hmost, hitems, isFinite]
      cases areFinite finite out <;> rfl
    · cases h
  | object strict fields ih =>
    cases v <;> simp only [parse, reduceCtorEq] at h
    split at h
    · cases h
    · obtain ⟨out, hout, rfl⟩ := Option.map_eq_some_iff.mp h
      rw [Schema.apart, Bool.and_eq_true, decide_eq_true_eq, fieldsApart_iff] at hschema
      have hknown : (jsonFields finite out).any (fun prop => prop.1 ∉ fields.map (·.1)) = false := by
        rw [List.any_eq_false]
        intro prop hprop
        rw [decide_eq_true_eq, not_not]
        exact (keys_of_parseFields hout).subset (keys_jsonFields.subset (List.mem_map_of_mem hprop))
      rw [json, parse, hknown, Bool.and_false, if_neg Bool.false_ne_true, isFinite,
        parseFields_json hschema.1 (fun field hfield v w => ih field hfield (hschema.2 field hfield)) hout]
      cases holdFinite finite out <;> rfl
  | either first second ih ih' =>
    rw [Schema.apart, Bool.and_eq_true, Bool.and_eq_true, List.all_eq_true] at hschema
    obtain ⟨⟨hfirst, hsecond⟩, hkinds⟩ := hschema
    have happart : ∀ kind ∈ first.kinds, kind ∉ second.kinds := by
      intro kind hkind hmem
      have hnot := hkinds kind hkind
      simp [hmem] at hnot
    rw [parse, Option.or_eq_some_iff] at h
    rw [parse]
    rcases h with h | ⟨-, h⟩
    · obtain ⟨kind, hmem, -, hkind⟩ := kind_of_parse h
      rw [ih hfirst h, parse_json_eq_none hkind (happart kind hmem), Option.or_none]
    · obtain ⟨kind, hmem, -, hkind⟩ := kind_of_parse h
      rw [ih' hsecond h, parse_json_eq_none hkind fun hmem' => happart kind hmem' hmem, Option.none_or]

end Parse

end Remembra.Js
