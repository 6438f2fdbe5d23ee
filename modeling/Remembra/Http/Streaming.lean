import Remembra.Jobs.Record
import Remembra.Lib.JsonScan
import Remembra.Lib.JsonText

/-! Answers that hold a list. A small one goes out as one text, a large one in pieces, put together by hand:
    its list first, then the other fields. The pieces say the same as the text where the list is there and no
    other field is without a value, and only there (`sendListLike_alike_iff`). -/

namespace Remembra.Http
open Js Json

variable {N : Type*}

inductive ItemKey where
  | memories | results | events

def ItemKey.text : ItemKey → String
  | .memories => "memories"
  | .results => "results"
  | .events => "events"

def isObject : Value N → Bool
  | .object _ => true
  | _ => false

/-- A body: an object of which the property `itemKey`, where it has a value, is a list of objects. -/
structure ListBody (N : Type*) (itemKey : ItemKey) where
  fields : List (String × Value N)
  distinct : (fields.map Prod.fst).Nodup
  listed : ∀ v, fields.lookup itemKey.text = some v → v = .undefined ∨ v = .null ∨
    ∃ items, v = .array items ∧ ∀ item ∈ items, isObject item = true

/-- What is written to the response. -/
structure Sent where
  status : ℕ
  headers : List (String × String)
  chunks : List (List Char)

def Sent.text (s : Sent) : List Char := s.chunks.flatten

/-- `STREAM_THRESHOLD` -/
def streamThreshold : ℕ := 64 * 1024

section Answers
variable (num : Numerals N) (status : ℕ) {itemKey : ItemKey} (body : ListBody N itemKey)

/-- `JSON.stringify(value)`, as a template literal has it. -/
def stringify (value : Value N) : List Char :=
  if value.isUndefined then "undefined".toList else write num [] [] value

def send (extraHeaders : List (String × String)) : Sent :=
  let data := write num [' ', ' '] [] (.object body.fields)
  { status := status
    headers := [("content-type", "application/json; charset=utf-8"),
      ("content-length", toString (String.ofList data).utf8ByteSize)] ++ extraHeaders
    chunks := [data] }

/-- `record[itemKey] ?? []` -/
def ListBody.items : List (Value N) :=
  match body.fields.lookup itemKey.text with
  | some (.array items) => items
  | _ => []

/-- `const { [itemKey]: _items, ...rest } = record` -/
def ListBody.rest : List (String × Value N) := without itemKey.text body.fields

/-- `est` -/
def ListBody.estimate : ℕ :=
  256 + (body.fields.map fun field => Jobs.utf16Length field.1 + 16).sum +
    (body.items.map fun item => Jobs.utf16Length (.ofList (stringify num item)) + 64).sum

def ListBody.head : List Char := '\x7b' :: '"' :: (itemKey.text.toList ++ ['"', ':', '['])

/-- The items, each but the first one with a comma before it. -/
def itemChunks : List (Value N) → List (List Char)
  | [] => []
  | item :: items => stringify num item :: items.map fun item => ',' :: stringify num item

/-- One of the other fields. -/
def memberText (field : String × Value N) : List Char :=
  ',' :: (quote field.1 ++ ':' :: stringify num field.2)

def ListBody.tail : List Char := ']' :: ((body.rest.map (memberText num)).flatten ++ ['\x7d'])

def sendListLike : Sent :=
  if body.estimate num < streamThreshold then send num status body []
  else {
    status := status
    headers := [("content-type", "application/json; charset=utf-8")]
    chunks := @ListBody.head itemKey :: (itemChunks num body.items ++ [body.tail num]) }

end Answers

/-- Both texts are JSON, of values that are the same up to the order of properties. -/
def SameAnswer (num : Numerals N) (a b : List Char) : Prop :=
  ∃ v w, parse num.number a = some v ∧ parse num.number b = some w ∧ alike v w

/-! ### The pieces -/

section Pieces
variable {num : Numerals N} {itemKey : ItemKey} {body : ListBody N itemKey}

/-- The text of the pieces. -/
def ListBody.streamed (num : Numerals N) (body : ListBody N itemKey) : List Char :=
  @ListBody.head itemKey ++ ((itemChunks num body.items).flatten ++ body.tail num)

theorem sendListLike_small (status : ℕ) (h : body.estimate num < streamThreshold) :
    (sendListLike num status body).text = (send num status body []).text := by
  rw [sendListLike, if_pos h]

theorem sendListLike_large (status : ℕ) (h : ¬ body.estimate num < streamThreshold) :
    (sendListLike num status body).text = body.streamed num := by
  rw [sendListLike, if_neg h]
  simp [Sent.text, ListBody.streamed]

theorem quote_itemKey (itemKey : ItemKey) : quote itemKey.text = '"' :: (itemKey.text.toList ++ ['"']) := by
  cases itemKey <;> decide

theorem stringify_of_defined {v : Value N} (h : v.isUndefined = false) :
    stringify num v = write num [] [] v := if_neg (by rw [h]; exact Bool.false_ne_true)

theorem ListBody.isObject_of_mem (body : ListBody N itemKey) {item : Value N} (h : item ∈ body.items) :
    isObject item = true := by
  unfold ListBody.items at h
  split at h
  · rename_i items hitems
    rcases body.listed _ hitems with habs | habs | ⟨items', heq, hobjects⟩
    · cases habs
    · cases habs
    · cases heq
      exact hobjects item h
  · cases h

theorem stringify_item {item : Value N} (h : isObject item = true) :
    stringify num item = write num [] [] item := by
  cases item with
  | object fields => rfl
  | _ => cases h

theorem write_items {items : List (Value N)} (h : ∀ item ∈ items, isObject item = true) :
    write num [] [] (.array items) = '[' :: ((itemChunks num items).flatten ++ [']']) := by
  have hrest (items : List (Value N)) (h : ∀ item ∈ items, isObject item = true) :
      (writeItems num [] [] items).flatMap (fun y => ',' :: y) =
        (items.map fun item => ',' :: stringify num item).flatten := by
    induction items with
    | nil => rfl
    | cons item items ih =>
      obtain ⟨hitem, hitems⟩ := List.forall_mem_cons.mp h
      rw [writeItems, List.flatMap_cons, List.map_cons, List.flatten_cons, ih hitems, stringify_item hitem]
  rw [write]
  cases items with
  | nil => rfl
  | cons item items =>
    obtain ⟨hitem, hitems⟩ := List.forall_mem_cons.mp h
    rw [writeItems, enclose_cons, itemChunks, List.flatten_cons, stringify_item hitem]
    change '[' :: (write num [] [] item ++
      ((writeItems num [] [] items).flatMap (fun y => ',' :: y) ++ [] ++ [']'])) = _
    rw [hrest items hitems, List.append_nil, List.append_assoc]

theorem writeFields_defined {fields : List (String × Value N)}
    (h : ∀ field ∈ fields, field.2.isUndefined = false) :
    (writeFields num [] [] fields).flatMap (fun y => ',' :: y) = (fields.map (memberText num)).flatten := by
  induction fields with
  | nil => rfl
  | cons field fields ih =>
    obtain ⟨hfield, hfields⟩ := List.forall_mem_cons.mp h
    rw [writeFields, if_neg (by rw [hfield]; exact Bool.false_ne_true), List.flatMap_cons, ih hfields,
      List.map_cons, List.flatten_cons, memberText, stringify_of_defined hfield]
    rfl

theorem streamed_eq (body : ListBody N itemKey) : body.streamed num =
    '\x7b' :: (quote itemKey.text ++ ':' :: (write num [] [] (.array body.items) ++
      ((body.rest.map (memberText num)).flatten ++ ['\x7d']))) := by
  rw [write_items fun item hitem => body.isObject_of_mem hitem, quote_itemKey]
  simp [ListBody.streamed, ListBody.head, ListBody.tail]

/-- The pieces are the text of an object with the list in front. -/
theorem streamed_defined (h : ∀ field ∈ body.rest, field.2.isUndefined = false) :
    body.streamed num =
      write num [] [] (.object ((itemKey.text, .array body.items) :: body.rest)) := by
  symm
  rw [write, writeFields, if_neg (by exact Bool.false_ne_true), enclose_cons, streamed_eq]
  change '\x7b' :: (quote itemKey.text ++ ':' :: write num [] [] (.array body.items) ++
    ((writeFields num [] [] body.rest).flatMap (fun y => ',' :: y) ++ [] ++ ['\x7d'])) = _
  rw [writeFields_defined h]
  simp

theorem balanced_quote (key : String) : Balanced true (quote key ++ [':']) :=
  balanced_isKey (isKey_quote key (List.forall_mem_nil _) (List.forall_mem_nil _))

theorem balanced_write (v : Value N) : Balanced true (write num [] [] v) :=
  (consumed_isText (isText_write _ (List.forall_mem_nil _) v (List.forall_mem_nil _))).balanced

theorem balanced_memberText {field : String × Value N} (h : field.2.isUndefined = false) :
    Balanced true (memberText num field) := by
  have heq : memberText num field = ',' :: ((quote field.1 ++ [':']) ++ write num [] [] field.2) := by
    simp [memberText, stringify_of_defined h]
  rw [heq]
  exact balanced_cons (by decide) ((balanced_quote field.1).append (balanced_write field.2))

variable (num) in
/-- A text that comes to the word `undefined` outside of a string is not JSON. -/
theorem parse_undefined {x : List Char} (y : List Char) (h : Balanced true x) :
    parse num.number ('\x7b' :: (x ++ ("undefined".toList ++ y))) = none := by
  cases hparse : parse num.number ('\x7b' :: (x ++ ("undefined".toList ++ y))) with
  | none => rfl
  | some v =>
    have hscan := balanced_parse hparse 0
    rw [scan_cons, show step true (.outside, 0) '\x7b' = some (.outside, 1) from rfl, Option.bind_some,
      scan_append, h 1] at hscan
    cases hscan

/-- With a field that has no value they are not JSON. -/
theorem parse_streamed_undefined (field : String × Value N) (hfield : field ∈ body.rest)
    (h : field.2.isUndefined = true) : parse num.number (body.streamed num) = none := by
  obtain ⟨⟨key, value⟩, hfind⟩ : ∃ f, body.rest.find? (fun f => f.2.isUndefined) = some f :=
    Option.isSome_iff_exists.mp (List.find?_isSome.mpr ⟨field, hfield, h⟩)
  obtain ⟨hvalue, before, after, hrest, hbefore⟩ := List.find?_eq_some_iff_append.mp hfind
  have hfront : Balanced true ((before.map (memberText num)).flatten) := by
    clear hrest hfind
    induction before with
    | nil => exact fun d => rfl
    | cons f before ih =>
      obtain ⟨hf, hbefore⟩ := List.forall_mem_cons.mp hbefore
      rw [Bool.not_eq_true'] at hf
      exact (balanced_memberText hf).append (ih hbefore)
  have hall : Balanced true ((quote itemKey.text ++ [':']) ++ (write num [] [] (.array body.items) ++
      ((before.map (memberText num)).flatten ++ ',' :: (quote key ++ [':'])))) :=
    (balanced_quote _).append ((balanced_write _).append (hfront.append
      (balanced_cons (by decide) (balanced_quote key))))
  have hword : stringify num value = "undefined".toList := if_pos hvalue
  have hnone := parse_undefined num ((after.map (memberText num)).flatten ++ ['\x7d']) hall
  rw [← hnone, streamed_eq, hrest, List.map_append, List.map_cons, List.flatten_append, List.flatten_cons]
  simp [memberText, hword]

/-- Where every other field has a value, they are read as an object with the list in front. -/
theorem parse_streamed (h : ∀ field ∈ body.rest, field.2.isUndefined = false) :
    parse num.number (body.streamed num) = some (.object
      ((itemKey.text, json num.finite (.array body.items)) :: jsonFields num.finite body.rest)) := by
  rw [streamed_defined h, parse_write (List.forall_mem_nil _) _ (List.forall_mem_nil _)]
  rfl

theorem parse_sent (status : ℕ) : parse num.number (send num status body []).text =
    some (.object (jsonFields num.finite body.fields)) := by
  have hblank : Blank [' ', ' '] := by simp [Blank, isBlank]
  rw [← json, ← parse_write hblank _ (List.forall_mem_nil _)]
  simp [Sent.text, send]

end Pieces

/-! ### One answer or the other -/

section Same
variable {num : Numerals N} {itemKey : ItemKey} {body : ListBody N itemKey}

/-- An object with one of its properties in front. -/
theorem perm_without {key : String} {value : Value N} {fields : List (String × Value N)}
    (hdistinct : (fields.map Prod.fst).Nodup) (h : fields.lookup key = some value) :
    fields.Perm ((key, value) :: without key fields) := by
  induction fields with
  | nil => cases h
  | cons field fields ih =>
    rw [List.map_cons, List.nodup_cons] at hdistinct
    rw [List.lookup_cons] at h
    by_cases hkey : key = field.1
    · rw [hkey, beq_self_eq_true] at h
      cases h
      have hrest : without key (field :: fields) = fields := by
        rw [without, List.filter_cons_of_neg (by simp [hkey]), List.filter_eq_self]
        intro f hf
        have hne : f.1 ≠ field.1 := fun heq => hdistinct.1 (heq ▸ List.mem_map_of_mem hf)
        simpa [hkey] using hne
      rw [hrest, hkey]
    · rw [beq_false_of_ne hkey] at h
      rw [without, List.filter_cons_of_pos (by simpa using Ne.symm hkey)]
      exact ((ih hdistinct.2 h).cons field).trans (.swap _ _ _)

theorem perm_jsonFields (finite : N → Bool) {fields fields' : List (String × Value N)}
    (h : fields.Perm fields') : (jsonFields finite fields).Perm (jsonFields finite fields') := by
  rw [jsonFields_eq, jsonFields_eq]
  exact (h.filter _).map _

/-- The list is there, and every other field has a value. -/
structure ListBody.Whole (body : ListBody N itemKey) : Prop where
  list : ∃ items, body.fields.lookup itemKey.text = some (.array items)
  rest : ∀ field ∈ body.rest, field.2.isUndefined = false

theorem alike_streamed (h : body.Whole) (status : ℕ) :
    SameAnswer num (body.streamed num) (send num status body []).text := by
  obtain ⟨items, hitems⟩ := h.list
  refine ⟨_, _, parse_streamed h.rest, parse_sent status, alike_of_perm ?_⟩
  have hlist : body.items = items := by rw [ListBody.items, hitems]
  have hperm := perm_jsonFields num.finite (perm_without body.distinct hitems)
  rw [hlist]
  exact hperm.symm

/-- Pieces that say the same have the list from the body. -/
theorem whole_of_alike {status : ℕ}
    (h : SameAnswer num (body.streamed num) (send num status body []).text) : body.Whole := by
  obtain ⟨v, w, hv, hw, halike⟩ := h
  have hrest : ∀ field ∈ body.rest, field.2.isUndefined = false := by
    intro field hfield
    by_contra hundefined
    rw [Bool.not_eq_false] at hundefined
    rw [parse_streamed_undefined _ hfield hundefined] at hv
    cases hv
  refine ⟨?_, hrest⟩
  rw [parse_streamed hrest] at hv
  rw [parse_sent] at hw
  cases hv
  cases hw
  rw [alike] at halike
  obtain ⟨value, hmem, hvalue⟩ := alikeFields_iff.mp halike.2 _ List.mem_cons_self
  -- The list that the pieces begin with is a property of the body, so it is the property `itemKey`.
  rw [jsonFields_eq] at hmem
  obtain ⟨⟨key, value'⟩, hfield, heq⟩ := List.mem_map.mp hmem
  cases heq
  have hlookup := lookup_of_mem body.distinct (List.mem_of_mem_filter hfield)
  rcases body.listed value' hlookup with rfl | rfl | ⟨items, rfl, -⟩
  · have hpresent := (List.mem_filter.mp hfield).2
    cases hpresent
  · cases hvalue
  · exact ⟨items, hlookup⟩

/-- The bytes of `sendListLike` say the same as those of `send` if and only if the answer is small, or its
    list is there and no other field is without a value. -/
theorem sendListLike_alike_iff (num : Numerals N) (status : ℕ) (body : ListBody N itemKey) :
    SameAnswer num (sendListLike num status body).text (send num status body []).text ↔
      body.estimate num < streamThreshold ∨ body.Whole := by
  by_cases hsmall : body.estimate num < streamThreshold
  · rw [sendListLike_small status hsmall]
    exact iff_of_true ⟨_, _, parse_sent status, parse_sent status, alike_refl _⟩ (.inl hsmall)
  · rw [sendListLike_large status hsmall]
    constructor
    · exact fun h => .inr (whole_of_alike h)
    · rintro (habs | hwhole)
      · exact absurd habs hsmall
      · exact alike_streamed hwhole status

end Same

/-! ### A thousand memories and a field without a value -/

/-- For bodies without numbers. -/
def noNumerals : Numerals Unit where
  finite _ := false
  text _ := []
  number _ := ()
  numeral := nofun

def manyMemories : ListBody Unit .memories where
  fields := [("memories", .array (List.replicate 1000 (.object []))), ("nextCursor", .undefined)]
  distinct := by decide
  listed v hv := by
    cases hv
    refine .inr (.inr ⟨_, rfl, fun item hitem => ?_⟩)
    rw [(List.mem_replicate.mp hitem).2]
    rfl

theorem manyMemories_large : ¬ manyMemories.estimate noNumerals < streamThreshold := by decide +kernel

/-- The pieces of a large answer with such a field are not JSON. -/
theorem sendListLike_undefined : ¬ ∀ body : ListBody Unit .memories, SameAnswer noNumerals
    (sendListLike noNumerals 200 body).text (send noNumerals 200 body []).text := by
  intro h
  obtain ⟨v, w, hv, -⟩ := h manyMemories
  rw [sendListLike_large 200 manyMemories_large,
    parse_streamed_undefined ("nextCursor", .undefined) List.mem_cons_self rfl] at hv
  cases hv

end Remembra.Http
