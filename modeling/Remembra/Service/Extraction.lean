import Remembra.Lib.JsonScan
import Remembra.Service.Asks

/-! Reading the reply of a language model. The array of items may stand between other texts, and the text
    from the first opening to the last closing bracket is then the array. Where that is no JSON the reply
    is read again as a whole, fences included, and so an object with another bracket in it must be all
    of the reply. Items come out of every wrapping in which the array is found, and of no other
    (`parseExtraction_wrapped`). -/

namespace Remembra.Service
open Js (Value)
open Json (property IsText IsFront AreMembers Blank isBlank Balanced)
open Jobs (trim isTrimmed)
open Store (Host JsNum MemoryType Vocabulary newYear)

/-! ### The text -/

/-- What stands after the word, whose letters may be large ones in the text. -/
def afterWord : List Char → List Char → Option (List Char)
  | [], l => some l
  | c :: word, d :: l => if d.toLower = c then afterWord word l else none
  | _ :: _, [] => none

/-- ``replace(/^```(?:json)?\s*/i, "")`` -/
def stripOpen (l : List Char) : List Char :=
  match afterWord "```".toList l with
  | some l => ((afterWord "json".toList l).getD l).dropWhile Regex.isSpace
  | none => l

/-- ``replace(/\s*```$/i, "")`` -/
def stripClose (l : List Char) : List Char :=
  match afterWord "```".toList l.reverse with
  | some r => (r.dropWhile Regex.isSpace).reverse
  | none => l

/-- The text from the first `[` to the last `]`, if that is after it. -/
def sliceBrackets (l : List Char) : List Char :=
  let slice := (l.dropWhile (· ≠ '[')).rdropWhile (· ≠ ']')
  if slice = [] then l else slice

/-- `s.slice(0, n)`; of a pair of surrogates that is cut there is left what stands for half of one. -/
def firstUnits : ℕ → List Char → List Char
  | 0, _ | _, [] => []
  | n + 1, c :: l =>
    if c.toNat < 0x10000 then c :: firstUnits n l
    else if n = 0 then ['\ufffd'] else c :: firstUnits (n - 1) l

inductive ExtractionError where
  /-- `Error` -/
  | error (message : String)
  /-- `TypeError: Cannot convert object to primitive value` -/
  | notPrimitive
  deriving DecidableEq

def couldNotParse (raw : String) : ExtractionError :=
  .error ("Could not parse extraction output: " ++ .ofList (firstUnits 200 raw.toList))

/-- What `??` takes. -/
def given : Option (Value JsNum) → Option (Value JsNum)
  | some .null => none
  | v => v

/-- `Array.isArray(obj) ? obj : (obj.memories ?? obj.items ?? [])`, which throws for `null`. -/
def unwrapped : Value JsNum → Option (Value JsNum)
  | .array items => some (.array items)
  | .object fields =>
    some (((given (property fields "memories")).or (given (property fields "items"))).getD (.array []))
  | .null => none
  | _ => some (.array [])

section Parse
variable (H : Host)

/-- The number that a numeral of JSON is. -/
def numeral (l : List Char) : JsNum := H.toNumber (.ofList l)

/-- What is parsed of the reply, in the first attempt or in the second. -/
def readReply (raw : String) : Option (Value JsNum) :=
  (Json.parse (numeral H) (sliceBrackets (stripClose (stripOpen (trim raw).toList)))).or
    ((Json.parse (numeral H) (trim raw).toList).bind unwrapped)

/-! ### The items -/

mutual

/-- `String(value)`, which throws for an object with a property of the name `toString`. -/
def textOf : Value JsNum → Option String
  | .undefined => some "undefined"
  | .null => some "null"
  | .bool b => some (if b then "true" else "false")
  | .num n => some (H.numText n)
  | .str s => some s
  | .array items => (textsOf items).map (",".intercalate ·)
  | .object fields => if fields.any (·.1 = "toString") then none else some "[object Object]"

/-- The parts that `join` puts together. -/
def textsOf : List (Value JsNum) → Option (List String)
  | [] => some []
  | .null :: items | .undefined :: items => (textsOf items).map ("" :: ·)
  | item :: items => (textOf item).bind fun text => (textsOf items).map (text :: ·)

end

/-- `Number(value)` -/
def numberOfValue : Option (Value JsNum) → Option JsNum
  | none | some .undefined => some .nan
  | some .null => some (.finite 0)
  | some (.bool b) => some (.finite (if b then 1 else 0))
  | some (.num n) => some n
  | some v => (textOf H v).map H.toNumber

def importanceOf : JsNum → ℤ
  | .finite q => min 5 (max 1 ⌊q + 1 / 2⌋)
  | _ => 3

def confidenceOf : JsNum → Option ℚ
  | .finite q => some (min 1 (max 0 q))
  | _ => none

def strings (items : List (Value JsNum)) : List String :=
  items.filterMap fun
    | .str s => some s
    | _ => none

def tagsOf : Option (Value JsNum) → List String
  | some (.array items) => strings items
  | _ => []

def scopeOf : Option (Value JsNum) → Option String
  | some (.str s) => if trim s = "" then none else some (trim s)
  | _ => none

/-- One round of the loop; `none` is a `continue`. -/
def extractItem : Value JsNum → Except ExtractionError (Option ExtractedMemory)
  | .object fields =>
    match property fields "content", property fields "type" with
    | some (.str content), some (.str type) =>
      match (Vocabulary.ofText type : Option MemoryType) with
      | some type =>
        if trim content = "" then .ok none
        else
          match numberOfValue H (property fields "importance"),
            numberOfValue H (property fields "confidence") with
          | some importance, some confidence => .ok <| some {
              type := type
              content := trim content
              tags := tagsOf (property fields "tags")
              importance := importanceOf importance
              scope := scopeOf (property fields "scope")
              confidence := confidenceOf confidence }
          | _, _ => .error .notPrimitive
      | none => .ok none
    | _, _ => .ok none
  | _ => .ok none

def extractAll : List (Value JsNum) → Except ExtractionError (List ExtractedMemory)
  | [] => .ok []
  | item :: items => do
    let extracted ← extractItem H item
    let rest ← extractAll items
    return extracted.toList ++ rest

def parseExtraction (raw : String) : Except ExtractionError (List ExtractedMemory) :=
  match readReply H raw with
  | some (.array items) => extractAll H items
  | some _ => .ok []
  | none => .error (couldNotParse raw)

end Parse

/-! ### Well-formed items -/

/-- The properties are those of a well-formed item, and this is its normal form. -/
structure Describes (fields : List (String × Value JsNum)) (m : ExtractedMemory) : Prop where
  type : property fields "type" = some (.str (Vocabulary.text m.type))
  content : ∃ s, property fields "content" = some (.str s) ∧ trim s ≠ "" ∧ m.content = trim s
  tags : property fields "tags" = none ∧ m.tags = [] ∨
    ∃ items, property fields "tags" = some (.array items) ∧ m.tags = strings items
  importance : property fields "importance" = none ∧ m.importance = 3 ∨
    ∃ q, property fields "importance" = some (.num (.finite q)) ∧ m.importance = max 1 (min 5 (round q))
  scope : property fields "scope" = none ∧ m.scope = none ∨
    ∃ s, property fields "scope" = some (.str s) ∧
      (trim s = "" ∧ m.scope = none ∨ trim s ≠ "" ∧ m.scope = some (trim s))
  confidence : property fields "confidence" = none ∧ m.confidence = none ∨
    ∃ q, property fields "confidence" = some (.num (.finite q)) ∧ m.confidence = some (max 0 (min 1 q))

def IsItem (item : Value JsNum) (m : ExtractedMemory) : Prop :=
  ∃ fields, item = .object fields ∧ Describes fields m

section Items
variable {H : Host} {fields : List (String × Value JsNum)} {m : ExtractedMemory}

theorem importanceOf_finite (q : ℚ) : importanceOf (.finite q) = max 1 (min 5 (round q)) := by
  rw [round_eq, importanceOf]
  omega

theorem confidenceOf_finite (q : ℚ) : confidenceOf (.finite q) = some (max 0 (min 1 q)) := by
  have hone : max (0 : ℚ) 1 = 1 := max_eq_right zero_le_one
  rw [confidenceOf, max_min_distrib_left, hone]

theorem Describes.exists_importance (h : Describes fields m) :
    ∃ n, numberOfValue H (property fields "importance") = some n ∧ importanceOf n = m.importance := by
  rcases h.importance with ⟨hnone, hm⟩ | ⟨q, hq, hm⟩
  · exact ⟨.nan, by rw [hnone]; rfl, hm.symm⟩
  · exact ⟨.finite q, by rw [hq]; rfl, by rw [importanceOf_finite, hm]⟩

theorem Describes.exists_confidence (h : Describes fields m) :
    ∃ n, numberOfValue H (property fields "confidence") = some n ∧ confidenceOf n = m.confidence := by
  rcases h.confidence with ⟨hnone, hm⟩ | ⟨q, hq, hm⟩
  · exact ⟨.nan, by rw [hnone]; rfl, hm.symm⟩
  · exact ⟨.finite q, by rw [hq]; rfl, by rw [confidenceOf_finite, hm]⟩

theorem Describes.tagsOf_eq (h : Describes fields m) : tagsOf (property fields "tags") = m.tags := by
  rcases h.tags with ⟨hnone, hm⟩ | ⟨items, hitems, hm⟩
  · rw [hnone, hm, tagsOf]
    simp
  · rw [hitems, hm, tagsOf]

theorem Describes.scopeOf_eq (h : Describes fields m) : scopeOf (property fields "scope") = m.scope := by
  rcases h.scope with ⟨hnone, hm⟩ | ⟨s, hs, ⟨htrim, hm⟩ | ⟨htrim, hm⟩⟩
  · rw [hnone, hm, scopeOf]
    simp
  · rw [hs, hm, scopeOf, if_pos htrim]
  · rw [hs, hm, scopeOf, if_neg htrim]

theorem extractItem_describes (h : Describes fields m) : extractItem H (.object fields) = .ok (some m) := by
  obtain ⟨s, hs, hblank, hcontent⟩ := h.content
  obtain ⟨i, hi, himportance⟩ := h.exists_importance (H := H)
  obtain ⟨c, hc, hconfidence⟩ := h.exists_confidence (H := H)
  rw [← hcontent] at hblank
  simp only [extractItem, hs, h.type, Vocabulary.ofText_text, hi, hc, himportance, hconfidence,
    h.tagsOf_eq, h.scopeOf_eq, ← hcontent, if_neg hblank]

theorem extractAll_forall₂ {items : List (Value JsNum)} {out : List ExtractedMemory}
    (h : List.Forall₂ IsItem items out) : extractAll H items = .ok out := by
  induction h with
  | nil => rfl
  | cons hitem hitems ih =>
    obtain ⟨fields, rfl, hfields⟩ := hitem
    rw [extractAll, extractItem_describes hfields, ih]
    rfl

end Items

/-! ### Wrappings -/

/-- An object around an array: its text up to the array, and from there to its end. -/
structure Enclosure (H : Host) where
  key : String
  before : List (String × Value JsNum)
  after : List (String × Value JsNum)
  front : List Char
  rest : List Char
  named : key = "memories" ∨ key = "items"
  alone : ∀ field ∈ before ++ after, field.1 ≠ key ∧ field.1 ≠ "memories"
  isFront : IsFront (numeral H) key before front
  isRest : ∃ w r, rest = w ++ r ∧ Blank w ∧ AreMembers (numeral H) after r

/-- What stands around an array: perhaps an object, and texts without brackets. -/
structure Wrapping (H : Host) where
  before : List Char
  object : Option (Enclosure H)
  after : List Char
  clear : '[' ∉ before ∧ ']' ∉ after

section Wrappings
variable {H : Host}

def Enclosure.around (e : Enclosure H) (array : List Char) : List Char :=
  '\x7b' :: (e.front ++ (array ++ (e.rest ++ ['\x7d'])))

def Wrapping.core (w : Wrapping H) (array : List Char) : List Char :=
  w.object.elim array fun e => e.around array

def Wrapping.around (w : Wrapping H) (array : List Char) : List Char :=
  w.before ++ (w.core array ++ w.after)

/-- Nothing stands around the object, or there are no brackets beside the array. -/
def Wrapping.Tolerated (w : Wrapping H) : Prop :=
  (∀ c ∈ w.before ++ w.after, isTrimmed c = true) ∨ ∀ e ∈ w.object, '[' ∉ e.front ∧ ']' ∉ e.rest

end Wrappings

/-! ### Stripping -/

section Stripping
variable {a b : Char} {word p s l r y : List Char}

theorem afterWord_append (ha : a.toLower ∉ word) (h : afterWord word (p ++ a :: l) = some r) :
    ∃ p', r = p' ++ a :: l ∧ p' <:+ p := by
  induction word generalizing p with
  | nil => exact ⟨p, (Option.some.inj h).symm, List.suffix_refl p⟩
  | cons c word ih =>
    rw [List.mem_cons, not_or] at ha
    cases p with
    | nil =>
      rw [List.nil_append, afterWord, if_neg ha.1] at h
      cases h
    | cons d p =>
      rw [List.cons_append, afterWord] at h
      split_ifs at h
      obtain ⟨p', rfl, hp⟩ := ih ha.2 h
      exact ⟨p', rfl, hp.trans (List.suffix_cons d p)⟩

theorem dropWhile_append_cons {f : Char → Bool} (ha : f a = false) :
    (p ++ a :: l).dropWhile f = p.dropWhile f ++ a :: l := by
  rw [List.dropWhile_append]
  split_ifs with hp
  · rw [List.isEmpty_iff.mp hp, List.dropWhile_cons_of_neg (by simp [ha]), List.nil_append]
  · rfl

theorem rdropWhile_append_cons {f : Char → Bool} (ha : f a = false) :
    (l ++ a :: s).rdropWhile f = l ++ a :: s.rdropWhile f := by
  have hreverse : (l ++ a :: s).reverse = s.reverse ++ a :: l.reverse := by simp
  rw [List.rdropWhile, hreverse, dropWhile_append_cons ha]
  simp [List.rdropWhile]

theorem stripOpen_append (hspace : Regex.isSpace a = false)
    (ha : a.toLower ∉ "```".toList ∧ a.toLower ∉ "json".toList) :
    ∃ p', stripOpen (p ++ a :: l) = p' ++ a :: l ∧ p' <:+ p := by
  rw [stripOpen]
  split
  · rename_i r hfence
    obtain ⟨q, rfl, hq⟩ := afterWord_append ha.1 hfence
    cases hjson : afterWord "json".toList (q ++ a :: l) with
    | none =>
      refine ⟨q.dropWhile Regex.isSpace, ?_, (List.dropWhile_suffix _).trans hq⟩
      rw [Option.getD_none, dropWhile_append_cons hspace]
    | some r =>
      obtain ⟨q', rfl, hq'⟩ := afterWord_append ha.2 hjson
      refine ⟨q'.dropWhile Regex.isSpace, ?_, (List.dropWhile_suffix _).trans (hq'.trans hq)⟩
      rw [Option.getD_some, dropWhile_append_cons hspace]
  · exact ⟨p, rfl, List.suffix_refl p⟩

theorem stripClose_append (hspace : Regex.isSpace b = false) (hb : b.toLower ∉ "```".toList) :
    ∃ s', stripClose (l ++ b :: s) = l ++ b :: s' ∧ s' <+: s := by
  have hreverse : (l ++ b :: s).reverse = s.reverse ++ b :: l.reverse := by simp
  rw [stripClose, hreverse]
  split
  · rename_i r hfence
    obtain ⟨q, rfl, hq⟩ := afterWord_append hb hfence
    refine ⟨(q.dropWhile Regex.isSpace).reverse, ?_, ?_⟩
    · rw [dropWhile_append_cons hspace]
      simp
    · rw [← List.reverse_suffix, List.reverse_reverse]
      exact (List.dropWhile_suffix _).trans hq
  · exact ⟨s, rfl, List.prefix_refl s⟩

theorem trim_append (ha : isTrimmed a = false) (hb : isTrimmed b = false) :
    (trim (.ofList (p ++ (a :: (y ++ [b]) ++ s)))).toList =
      p.dropWhile isTrimmed ++ (a :: (y ++ [b]) ++ s.rdropWhile isTrimmed) := by
  have hassoc : p.dropWhile isTrimmed ++ (a :: (y ++ [b]) ++ s) =
      (p.dropWhile isTrimmed ++ a :: y) ++ b :: s := by simp
  rw [trim, String.toList_ofList, String.toList_ofList, List.cons_append, dropWhile_append_cons ha,
    ← List.cons_append, hassoc]
  change List.rdropWhile isTrimmed _ = _
  rw [rdropWhile_append_cons hb]
  simp

/-- The slice begins at the first opening bracket and ends in a closing one. -/
theorem sliceBrackets_append (hp : '[' ∉ p) (y s : List Char) :
    ∃ s', sliceBrackets (p ++ '[' :: (y ++ ']' :: s)) = '[' :: (y ++ ']' :: s') ∧
      (']' ∉ s → s' = []) := by
  have hfront : ∀ c ∈ p, decide (c ≠ '[') = true := by
    intro c hc
    rw [decide_eq_true_eq]
    rintro rfl
    exact hp hc
  refine ⟨s.rdropWhile (· ≠ ']'), ?_, fun hs => ?_⟩
  · have hslice : ((p ++ '[' :: (y ++ ']' :: s)).dropWhile (· ≠ '[')).rdropWhile (· ≠ ']') =
        '[' :: (y ++ ']' :: s.rdropWhile (· ≠ ']')) := by
      rw [List.dropWhile_append_of_pos hfront, List.dropWhile_cons_of_neg (by simp), ← List.cons_append,
        rdropWhile_append_cons (by simp), List.cons_append]
    rw [sliceBrackets, hslice, if_neg (List.cons_ne_nil _ _)]
  · rw [List.rdropWhile_eq_nil_iff]
    intro c hc
    rw [decide_eq_true_eq]
    rintro rfl
    exact hs hc

end Stripping

/-! ### What is read of a wrapped array -/

section Wrapped
variable {H : Host} {items : List (Value JsNum)} {array : List Char}

namespace Enclosure
variable {e : Enclosure H}

theorem isText (harray : IsText (numeral H) (.array items) array) :
    IsText (numeral H) (.object (e.before ++ (e.key, .array items) :: e.after)) (e.around array) := by
  obtain ⟨w, r, hrest, hw, hr⟩ := e.isRest
  have htext := Json.isText_front e.isFront harray hw hr
  rwa [around, hrest, List.append_assoc]

/-- The array is what `memories ?? items` is of the object. -/
theorem given_eq : (given (property (e.before ++ (e.key, .array items) :: e.after) "memories")).or
    (given (property (e.before ++ (e.key, .array items) :: e.after) "items")) = some (.array items) := by
  have hafter : ∀ field ∈ e.after, field.1 ≠ e.key := fun field hfield =>
    (e.alone field (List.mem_append_right _ hfield)).1
  have hproperty := Json.property_append (Value.array items) e.before hafter
  rcases e.named with hkey | hkey
  · rw [hkey] at hproperty ⊢
    rw [hproperty]
    rfl
  · have hnone : property (e.before ++ (e.key, .array items) :: e.after) "memories" = none := by
      refine Json.property_eq_none fun field hfield => ?_
      rw [List.mem_append, List.mem_cons] at hfield
      rcases hfield with hbefore | rfl | hafter
      · exact (e.alone field (List.mem_append_left _ hbefore)).2
      · rw [hkey]
        exact (by decide : "items" ≠ "memories")
      · exact (e.alone field (List.mem_append_right _ hafter)).2
    rw [hkey] at hproperty hnone ⊢
    rw [hproperty, hnone]
    rfl

theorem exists_key : ∃ c s, e.key.toList = c :: s ∧ Json.Foreign c ∧ '[' ∉ e.key.toList := by
  rcases e.named with hkey | hkey
  · rw [hkey]
    exact ⟨'m', _, rfl, Json.foreign_of_not (by decide) (by decide), by decide⟩
  · rw [hkey]
    exact ⟨'i', _, rfl, Json.foreign_of_not (by decide) (by decide), by decide⟩

/-- From the first bracket before the array on, nothing of the object is a text of JSON. -/
theorem exists_front (h : '[' ∈ e.front) : ∃ z z', e.front = z ++ '[' :: z' ∧ '[' ∉ z ∧
    ∀ t, Json.parse (numeral H) ('[' :: (z' ++ t)) = none := by
  obtain ⟨y, k, hyk, hy, hk⟩ := Json.exists_isFront e.isFront
  obtain ⟨c, s, hkey, hc, hbracket⟩ := e.exists_key
  have hmem : '[' ∈ y := by
    rw [hyk, List.mem_append] at h
    exact h.resolve_right (Json.isKey_notMem hbracket hk)
  obtain ⟨z, z', rfl, hz⟩ := List.eq_append_cons_of_mem hmem
  refine ⟨z, z' ++ k, by rw [hyk]; simp, hz, fun t => ?_⟩
  rw [List.append_assoc]
  exact Json.parse_cut hy hkey hc hk

variable {p s : List Char}

theorem parse_slice (harray : IsText (numeral H) (.array items) array)
    (he : '[' ∉ e.front ∧ ']' ∉ e.rest) (hp : '[' ∉ p) (hs : ']' ∉ s) :
    Json.parse (numeral H) (sliceBrackets (p ++ (e.around array ++ s))) = some (.array items) := by
  obtain ⟨y, rfl, -⟩ := Json.exists_bracketed harray
  have hfront : '[' ∉ p ++ '\x7b' :: e.front := by simp [hp, he.1]
  obtain ⟨s', hslice, hnil⟩ := sliceBrackets_append hfront y (e.rest ++ '\x7d' :: s)
  obtain rfl := hnil (by simp [hs, he.2])
  have hassoc : p ++ (e.around ('[' :: (y ++ [']'])) ++ s) =
      (p ++ '\x7b' :: e.front) ++ '[' :: (y ++ ']' :: (e.rest ++ '\x7d' :: s)) := by simp [around]
  rw [hassoc, hslice]
  simpa using Json.parse_text harray (List.forall_mem_nil _) (List.forall_mem_nil _)

theorem parse_slice_none (harray : IsText (numeral H) (.array items) array)
    (he : ¬ ('[' ∉ e.front ∧ ']' ∉ e.rest)) (hp : '[' ∉ p) (s : List Char) :
    Json.parse (numeral H) (sliceBrackets (p ++ (e.around array ++ s))) = none := by
  obtain ⟨y, rfl, -⟩ := Json.exists_bracketed harray
  by_cases hfront : '[' ∈ e.front
  · obtain ⟨z, z', hz, hbracket, hnone⟩ := exists_front hfront
    have hbefore : '[' ∉ p ++ '\x7b' :: z := by simp [hp, hbracket]
    obtain ⟨s', hslice, -⟩ := sliceBrackets_append hbefore (z' ++ '[' :: y) (e.rest ++ '\x7d' :: s)
    have hassoc : p ++ (e.around ('[' :: (y ++ [']'])) ++ s) =
        (p ++ '\x7b' :: z) ++ '[' :: ((z' ++ '[' :: y) ++ ']' :: (e.rest ++ '\x7d' :: s)) := by
      simp [around, hz]
    rw [hassoc, hslice, List.append_assoc]
    exact hnone _
  · have hrest : ']' ∈ e.rest := by
      by_contra hrest
      exact he ⟨hfront, hrest⟩
    obtain ⟨r, r', hr⟩ := List.append_of_mem hrest
    have hbefore : '[' ∉ p ++ '\x7b' :: e.front := by simp [hp, hfront]
    obtain ⟨s', hslice, -⟩ := sliceBrackets_append hbefore (y ++ ']' :: r) (r' ++ '\x7d' :: s)
    have hassoc : p ++ (e.around ('[' :: (y ++ [']'])) ++ s) =
        (p ++ '\x7b' :: e.front) ++ '[' :: ((y ++ ']' :: r) ++ ']' :: (r' ++ '\x7d' :: s)) := by
      simp [around, hr]
    have hfollowed := Json.parse_followed (numeral H) (r ++ ']' :: s') (.inl rfl)
      (Json.consumed_isText harray).balanced ⟨']', by simp, by decide⟩
    rw [hassoc, hslice]
    simpa using hfollowed

end Enclosure

namespace Wrapping
variable {w : Wrapping H}

theorem core_consumed (w : Wrapping H) (harray : IsText (numeral H) (.array items) array) :
    ∃ a y b, w.core array = a :: (y ++ [b]) ∧ (a = '[' ∧ b = ']' ∨ a = '\x7b' ∧ b = '\x7d') ∧
      Balanced true (w.core array) := by
  rw [core]
  cases w.object with
  | none =>
    obtain ⟨y, rfl, -⟩ := Json.exists_bracketed harray
    exact ⟨'[', y, ']', rfl, .inl ⟨rfl, rfl⟩, (Json.consumed_isText harray).balanced⟩
  | some e =>
    refine ⟨'\x7b', e.front ++ (array ++ e.rest), '\x7d', ?_, .inr ⟨rfl, rfl⟩,
      (Json.consumed_isText (e.isText harray)).balanced⟩
    simp [Enclosure.around]

/-- What is trimmed of a wrapped array. -/
theorem trim_around (w : Wrapping H) (harray : IsText (numeral H) (.array items) array) :
    (trim (.ofList (w.around array))).toList =
      w.before.dropWhile isTrimmed ++ (w.core array ++ w.after.rdropWhile isTrimmed) := by
  obtain ⟨a, y, b, hcore, hends, -⟩ := w.core_consumed harray
  rw [around, hcore]
  rcases hends with ⟨rfl, rfl⟩ | ⟨rfl, rfl⟩
  · exact trim_append (by decide) (by decide)
  · exact trim_append (by decide) (by decide)

/-- What the fences are stripped from. -/
theorem exists_strip (w : Wrapping H) (harray : IsText (numeral H) (.array items) array)
    (p s : List Char) : ∃ p' s', stripClose (stripOpen (p ++ (w.core array ++ s))) =
      p' ++ (w.core array ++ s') ∧ p' <:+ p ∧ s' <+: s := by
  obtain ⟨a, y, b, hcore, hends, -⟩ := w.core_consumed harray
  have ha : Regex.isSpace a = false ∧ a.toLower ∉ "```".toList ∧ a.toLower ∉ "json".toList := by
    rcases hends with ⟨rfl, -⟩ | ⟨rfl, -⟩ <;> decide
  have hb : Regex.isSpace b = false ∧ b.toLower ∉ "```".toList := by
    rcases hends with ⟨-, rfl⟩ | ⟨-, rfl⟩ <;> decide
  obtain ⟨p', hopen, hp⟩ := stripOpen_append (p := p) (l := y ++ b :: s) ha.1 ha.2
  obtain ⟨s', hclose, hs⟩ := stripClose_append (l := p' ++ a :: y) (s := s) hb.1 hb.2
  refine ⟨p', s', ?_, hp, hs⟩
  have hassoc (p s : List Char) : p ++ (a :: (y ++ [b]) ++ s) = p ++ a :: (y ++ b :: s) := by simp
  rw [hcore, hassoc, hassoc, hopen]
  simpa using hclose

/-- The first text that is parsed. -/
theorem exists_slice (w : Wrapping H) (harray : IsText (numeral H) (.array items) array) :
    ∃ p s, sliceBrackets (stripClose (stripOpen (trim (.ofList (w.around array))).toList)) =
      sliceBrackets (p ++ (w.core array ++ s)) ∧ '[' ∉ p ∧ ']' ∉ s := by
  obtain ⟨p, s, hstrip, hp, hs⟩ := w.exists_strip harray (w.before.dropWhile isTrimmed)
    (w.after.rdropWhile isTrimmed)
  refine ⟨p, s, by rw [w.trim_around harray, hstrip], fun hmem => ?_, fun hmem => ?_⟩
  · exact w.clear.1 ((List.dropWhile_suffix _).subset (hp.subset hmem))
  · exact w.clear.2 ((List.rdropWhile_prefix _ _).subset (hs.subset hmem))

theorem readReply_tolerated (harray : IsText (numeral H) (.array items) array) (hw : w.Tolerated) :
    readReply H (.ofList (w.around array)) = some (.array items) := by
  obtain ⟨p, s, hslice, hp, hs⟩ := w.exists_slice harray
  cases hobject : w.object with
  | none =>
    have hcore : w.core array = array := by rw [core, hobject, Option.elim_none]
    obtain ⟨y, rfl, -⟩ := Json.exists_bracketed harray
    obtain ⟨s', hcut, hnil⟩ := sliceBrackets_append hp y s
    obtain rfl := hnil hs
    have hassoc : p ++ ('[' :: (y ++ [']']) ++ s) = p ++ '[' :: (y ++ ']' :: s) := by simp
    have hparse := Json.parse_text harray (List.forall_mem_nil _) (List.forall_mem_nil _)
    rw [List.nil_append, List.append_nil] at hparse
    rw [readReply, hslice, hcore, hassoc, hcut, hparse, Option.some_or]
  | some e =>
    have hcore : w.core array = e.around array := by rw [core, hobject, Option.elim_some]
    rw [readReply, hslice, hcore]
    by_cases he : '[' ∉ e.front ∧ ']' ∉ e.rest
    · rw [Enclosure.parse_slice harray he hp hs, Option.some_or]
    · -- the object is all that is left, and is parsed in the second attempt
      have htrimmed := hw.resolve_right fun hclear => he (hclear e hobject)
      have hbefore : w.before.dropWhile isTrimmed = [] :=
        List.dropWhile_eq_nil_iff.mpr fun c hc => htrimmed c (List.mem_append_left _ hc)
      have hafter : w.after.rdropWhile isTrimmed = [] :=
        List.rdropWhile_eq_nil_iff.mpr fun c hc => htrimmed c (List.mem_append_right _ hc)
      have hparse := Json.parse_text (e.isText harray) (List.forall_mem_nil _) (List.forall_mem_nil _)
      have htrim : (trim (.ofList (w.around array))).toList = [] ++ (e.around array ++ []) := by
        rw [w.trim_around harray, hbefore, hafter, hcore]
      rw [Enclosure.parse_slice_none harray he hp, Option.none_or, htrim, hparse, Option.bind_some, unwrapped,
        Enclosure.given_eq, Option.getD_some]

theorem isBlank_eq_false {c : Char} (hc : isTrimmed c = false) : isBlank c = false := by
  rw [isBlank, decide_eq_false_iff_not]
  intro hmem
  have hall : ∀ d ∈ [' ', '\t', '\n', '\r'], isTrimmed d = true :=
    List.forall_iff_forall_mem.mp (by decide)
  rw [hall c hmem] at hc
  cases hc

/-- An object in other text is not all of the reply. -/
theorem parse_surrounded {e : Enclosure H} (harray : IsText (numeral H) (.array items) array)
    (hbrace : '\x7b' ∉ w.before) (hobject : w.object = some e)
    (hw : ¬ ∀ c ∈ w.before ++ w.after, isTrimmed c = true) :
    Json.parse (numeral H) (trim (.ofList (w.around array))).toList = none := by
  have hcore : w.core array = e.around array := by rw [core, hobject, Option.elim_some]
  rw [w.trim_around harray, hcore]
  cases hbefore : w.before.dropWhile isTrimmed with
  | cons a p =>
    have ha : isTrimmed a = false := by
      have hhead := List.head_dropWhile_not (p := isTrimmed) (l := w.before)
        (by rw [hbefore]; exact List.cons_ne_nil a p)
      simpa [hbefore] using hhead
    have hmem : a ∈ w.before := by
      refine (List.dropWhile_suffix isTrimmed).subset ?_
      rw [hbefore]
      exact List.mem_cons_self
    have hne : a ≠ '[' ∧ a ≠ '\x7b' :=
      ⟨fun heq => w.clear.1 (heq ▸ hmem), fun heq => hbrace (heq ▸ hmem)⟩
    obtain ⟨z, k, hfront, hz, hk⟩ := Json.exists_isFront e.isFront
    obtain ⟨c, s, hkey, hc, -⟩ := e.exists_key
    obtain ⟨v, d, t, rfl, hv, hd⟩ := Json.exists_isKey hkey hc hk
    have hnone := Json.parse_wrapped (numeral H) p
      (t := t ++ (array ++ (e.rest ++ ['\x7d'])) ++ w.after.rdropWhile isTrimmed)
      ⟨isBlank_eq_false ha, hne⟩ (hz.append hv.balanced) hd
    simpa [Enclosure.around, hfront] using hnone
  | nil =>
    have hlast : ∃ c ∈ w.after.rdropWhile isTrimmed, isBlank c = false := by
      have hne : w.after.rdropWhile isTrimmed ≠ [] := by
        intro hnil
        refine hw fun c hc => ?_
        rw [List.mem_append] at hc
        rcases hc with hc | hc
        · exact List.dropWhile_eq_nil_iff.mp hbefore c hc
        · exact List.rdropWhile_eq_nil_iff.mp hnil c hc
      have hnot := List.rdropWhile_last_not isTrimmed w.after hne
      exact ⟨_, List.getLast_mem hne, isBlank_eq_false (by simpa using hnot)⟩
    have hbalanced := (Json.consumed_isText (e.isText harray)).balanced
    have hnone := Json.parse_followed (numeral H) _ (.inr rfl) hbalanced hlast
    simpa [Enclosure.around] using hnone

theorem readReply_lost (harray : IsText (numeral H) (.array items) array) (hbrace : '\x7b' ∉ w.before)
    (hw : ¬ w.Tolerated) : readReply H (.ofList (w.around array)) = none := by
  obtain ⟨p, s, hslice, hp, hs⟩ := w.exists_slice harray
  rw [Tolerated, not_or] at hw
  cases hobject : w.object with
  | none => exact absurd (fun e he => by cases hobject.symm.trans he) hw.2
  | some e =>
    have hcore : w.core array = e.around array := by rw [core, hobject, Option.elim_some]
    have he : ¬ ('[' ∉ e.front ∧ ']' ∉ e.rest) := by
      intro hclear
      refine hw.2 fun e' he' => ?_
      obtain rfl : e = e' := Option.some.inj (hobject.symm.trans he')
      exact hclear
    rw [readReply, hslice, hcore, Enclosure.parse_slice_none harray he hp,
      parse_surrounded harray hbrace hobject hw.1, Option.none_or, Option.bind_none]

end Wrapping

/-- Well-formed items come out of a tolerated wrapping in their order, each in its normal form. Out of
    another one nothing comes, unless its prose opens an object of its own. -/
theorem parseExtraction_wrapped (w : Wrapping H) {out : List ExtractedMemory}
    (hitems : List.Forall₂ IsItem items out) (harray : IsText (numeral H) (.array items) array) :
    (w.Tolerated → parseExtraction H (.ofList (w.around array)) = .ok out) ∧
      ('\x7b' ∉ w.before → parseExtraction H (.ofList (w.around array)) = .ok out → w.Tolerated) := by
  constructor
  · intro hw
    rw [parseExtraction, Wrapping.readReply_tolerated harray hw]
    exact extractAll_forall₂ hitems
  · intro hbrace hout
    by_contra hw
    rw [parseExtraction, Wrapping.readReply_lost harray hbrace hw] at hout
    cases hout

end Wrapped

/-! ### An object in a fence -/

def pnpmItem : List (String × Value JsNum) := [("type", .str "fact"), ("content", .str "Uses [pnpm]")]

def pnpmMemory : ExtractedMemory where
  type := .fact
  content := "Uses [pnpm]"

def pnpmText : String := "[\x7b\"type\":\"fact\",\"content\":\"Uses [pnpm]\"\x7d]"

theorem isItem_pnpm : List.Forall₂ IsItem [.object pnpmItem] [pnpmMemory] := by
  refine .cons ⟨pnpmItem, rfl, ?_⟩ .nil
  exact {
    type := rfl
    content := ⟨"Uses [pnpm]", rfl, by decide +kernel, by decide +kernel⟩
    tags := .inl ⟨rfl, rfl⟩
    importance := .inl ⟨rfl, rfl⟩
    scope := .inl ⟨rfl, rfl⟩
    confidence := .inl ⟨rfl, rfl⟩ }

theorem isText_pnpm (H : Host) : IsText (numeral H) (.array [.object pnpmItem]) pnpmText.toList := by
  have hobject : IsText (numeral H) (.object pnpmItem)
      "\x7b\"type\":\"fact\",\"content\":\"Uses [pnpm]\"\x7d".toList :=
    ⟨_, _, [], _, rfl, Json.isKey_plain (s := "type") (by decide),
      Json.isString_plain (s := "fact") (by decide), List.forall_mem_nil _, _, _, [], [], rfl,
      Json.isKey_plain (s := "content") (by decide), Json.isString_plain (s := "Uses [pnpm]") (by decide),
      List.forall_mem_nil _, rfl⟩
  exact ⟨[], _, [], [], by simp [pnpmText], List.forall_mem_nil _, hobject, List.forall_mem_nil _, rfl⟩

/-- An object with another list in it. -/
def besideNotes : Enclosure newYear where
  key := "memories"
  before := []
  after := [("notes", .array [])]
  front := "\"memories\":".toList
  rest := ",\"notes\":[]".toList
  named := .inl rfl
  alone := by decide
  isFront := Json.isKey_plain (s := "memories") (by decide)
  isRest := ⟨[], _, rfl, List.forall_mem_nil _, _, "[]".toList, [], [], rfl,
    Json.isKey_plain (s := "notes") (by decide), ⟨[], rfl, List.forall_mem_nil _⟩, List.forall_mem_nil _, rfl⟩

/-- The object is all of a reply, or stands in a fence. -/
def replied (fence : Bool) (object : Option (Enclosure newYear)) : Wrapping newYear where
  before := if fence then "```json\n".toList else []
  object := object
  after := if fence then "\n```".toList else []
  clear := by cases fence <;> decide

theorem parseExtraction_pnpm :
    parseExtraction newYear (.ofList ((replied true none).around pnpmText.toList)) = .ok [pnpmMemory] ∧
      parseExtraction newYear (.ofList ((replied false (some besideNotes)).around pnpmText.toList)) =
        .ok [pnpmMemory] ∧
      parseExtraction newYear (.ofList ((replied true (some besideNotes)).around pnpmText.toList)) ≠
        .ok [pnpmMemory] := by
  refine ⟨?_, ?_, fun hout => ?_⟩
  · refine (parseExtraction_wrapped _ isItem_pnpm (isText_pnpm newYear)).1 (.inr fun e he => ?_)
    cases he
  · refine (parseExtraction_wrapped _ isItem_pnpm (isText_pnpm newYear)).1 (.inl fun c hc => ?_)
    cases hc
  · have hw := (parseExtraction_wrapped _ isItem_pnpm (isText_pnpm newYear)).2 (by decide) hout
    rcases hw with htrimmed | hclear
    · exact absurd (htrimmed (.ofNat 96) (by decide)) (by decide)
    · exact (hclear _ rfl).2 (by decide)

def notesReply : String :=
  "```json\n\x7b\"memories\":[\x7b\"type\":\"fact\",\"content\":\"Uses [pnpm]\"\x7d],\"notes\":[]\x7d\n```"

/-- The fence around an object with another list in it. -/
theorem notesReply_not_undone : List.Forall₂ IsItem [.object pnpmItem] [pnpmMemory] ∧
    IsText (numeral newYear) (.array [.object pnpmItem]) pnpmText.toList ∧
    notesReply = .ofList ((replied true (some besideNotes)).around pnpmText.toList) ∧
    parseExtraction newYear notesReply ≠ .ok [pnpmMemory] := by
  refine ⟨isItem_pnpm, isText_pnpm newYear, by decide +kernel, fun hout => ?_⟩
  have hlost : (parseExtraction newYear notesReply).isOk = false := by decide +kernel
  rw [hout] at hlost
  cases hlost

end Remembra.Service
