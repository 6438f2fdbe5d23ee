import Mathlib.Data.Set.Card
import Mathlib.Data.Set.Finite.List
import Remembra.Lib.Keyset
import Remembra.Service.Reading

/-! The list of memories and its cursor. A page ends in a cursor that names the last memory of the page
    by its time and its id, and the next page starts behind it. A walk that follows the cursors while
    the store changes visits what is there all the time once and in order, but a page may end at a
    memory that no cursor can name (`pagination_iff`). -/

namespace Remembra.Service
open Store (Memory MemoryType TenantFilter Yaml truthy)
open Jobs (utf16Length)
open Prog

/-! ### Positions -/

/-- What the list is ordered by. -/
structure Position where
  updatedAt : String
  id : String
  deriving DecidableEq

def position (m : Memory) : Position := ⟨m.updatedAt, m.id⟩

/-- `<` on texts, which compares code units. -/
def textLt (s t : String) : Bool := codeUnits s < codeUnits t

def compareMemoryDescending (left right : Position) : ℤ :=
  if left.updatedAt ≠ right.updatedAt then
    if textLt left.updatedAt right.updatedAt then 1 else -1
  else if left.id = right.id then 0
  else if textLt left.id right.id then 1 else -1

/-! ### Cursors -/

/-- JSON in base64url, as the platform writes and reads it. -/
structure CursorText where
  /-- The text of `{ version: 1, updatedAt, id }`. -/
  encode : Position → String
  /-- The object in a text; none where the text is not that of an object. -/
  parse : String → Option (List (String × Yaml))
  parse_encode : ∀ p, parse (encode p) =
    some [("version", .num (.finite 1)), ("updatedAt", .str p.updatedAt), ("id", .str p.id)]
  encode_ne : ∀ p, encode p ≠ ""

section Cursors
variable (C : Config) (K : CursorText)

def encodeListCursor (m : Memory) : String := K.encode (position m)

/-- A position that a cursor may name. -/
def isListPosition (p : Position) : Bool :=
  (C.host.dateParse p.updatedAt).isSome && 1 ≤ utf16Length p.id && utf16Length p.id ≤ 128 &&
    Store.isIdShape p.id

/-- The checks on the object in a cursor. -/
def listPosition (record : List (String × Yaml)) : Option Position :=
  match record.lookup "version", record.lookup "updatedAt", record.lookup "id" with
  | some (.num version), some (.str updatedAt), some (.str id) =>
    if version = .finite 1 then some (⟨updatedAt, id⟩ : Position) |>.filter (isListPosition C)
    else none
  | _, _, _ => none

def decodeListCursor (value : String) : Except RemembraError Position :=
  if utf16Length value < 1 || 512 < utf16Length value then .error ⟨.invalidInput, "cursor is invalid"⟩
  else match (K.parse value).bind (listPosition C) with
    | none => .error ⟨.invalidInput, "cursor is invalid"⟩
    | some p => .ok p

end Cursors

/-! ### The call -/

structure ListQuery where
  scope : Option String := none
  type : Option MemoryType := none
  includeArchived : Bool := false
  offset : Option ℕ := none
  cursor : Option String := none
  limit : Option ℕ := none
  includeQuarantined : Bool := false
  includeExpired : Bool := false
  includeFuture : Bool := false

structure ListAnswer where
  text : String
  memories : List Memory
  total : ℕ
  offset : Option ℕ
  limit : Option ℕ
  nextCursor : Option String

/-- `sanitizeMemory`: without references to what is not visible. -/
def sanitizeMemory (m : Memory) (visibleIds : List String) : Memory :=
  let relations := (m.relations.getD []).filter fun r => r.id ∈ visibleIds
  let compressedFrom := (metaTexts m.metaFields "compressedFrom").filter (· ∈ visibleIds)
  { m with
    relations := if relations = [] then none else some relations
    supersededBy := (truthy m.supersededBy).filter (· ∈ visibleIds)
    metaFields := m.metaFields.map fun fields =>
      if compressedFrom = [] then fields.filter fun (key, _) => key ≠ "compressedFrom"
      else withMeta (some fields) "compressedFrom" (.seq (compressedFrom.map .str)) }

section List
variable (C : Config) (K : CursorText)

/-- `m.validUntil && Date.parse(m.validUntil) < now` -/
def hasExpired (now : ℤ) (m : Memory) : Bool :=
  (truthy m.validUntil).any fun t => (C.host.dateParse t).any (· < now)

/-- `m.validFrom && Date.parse(m.validFrom) > now` -/
def isFuture (now : ℤ) (m : Memory) : Bool :=
  (truthy m.validFrom).any fun t => (C.host.dateParse t).any (now < ·)

/-- The filter of time, lifecycle and visibility. -/
def listShows (q : ListQuery) (options : Options) (now : ℤ) (m : Memory) :
    Except RemembraError Bool :=
  (canRead C.strict C.agentMode m options).map fun visible =>
    if !visible then false
    else if !q.includeExpired && hasExpired C now m then false
    else if !q.includeFuture && isFuture C now m then false
    else if !q.includeQuarantined && metaFlag m "quarantined" then false
    else true

/-- The filter of scope and type, and what the caller sees of the memories. -/
def listed (q : ListQuery) (memories : List Memory) : List Memory :=
  let memories := memories.filter fun m =>
    ((truthy q.scope).all fun scope => m.scope = scope || m.scope = "global") &&
      q.type.all fun type => m.type = type
  memories.map fun m => sanitizeMemory m (memories.map Memory.id)

/-- The memories of a list in the order of the store. -/
def listMemories (q : ListQuery) (options : Options) : Act (List Memory) := do
  let tenant ← freshTenantFilter C options .read none
  let memories ← Act.all q.includeArchived tenant
  let now ← Act.now
  let shown ← Act.ofRefusal (memories.filterM (listShows C q options now))
  pure (listed q shown)

def sortedMemories (memories : List Memory) : List Memory :=
  memories.insertionSort fun a b => compareMemoryDescending (position a) (position b) ≤ 0

/-- `[id] [archived] type (scope): first line` -/
def listLine (m : Memory) : String :=
  "[" ++ m.id ++ "]" ++ (if (truthy m.archivedAt).isSome then " [archived]" else "") ++ " " ++
    Store.Vocabulary.text m.type ++ " (" ++ m.scope ++ "): " ++
      .ofList (m.content.toList.takeWhile (· ≠ '\n'))

def listText (paginated : Bool) (start total remaining : ℕ) (page : List Memory) : String :=
  let header :=
    if paginated && 0 < remaining then
      "Showing " ++ toString (min (start + 1) remaining) ++ "–" ++
        toString (min (start + page.length) remaining) ++ " of " ++ toString remaining ++ "\n\n"
    else ""
  let body :=
    if total = 0 then "No memories stored yet."
    else if page.length = 0 then "No memories at this offset."
    else "\n".intercalate (page.map listLine)
  header ++ body

/-- The cursor of the request, if it has one. -/
def listCursor (q : ListQuery) : Except RemembraError (Option Position) :=
  match truthy q.cursor with
  | none => .ok none
  | some cursor =>
    if q.offset.isSome then .error ⟨.invalidInput, "cursor and offset cannot be combined"⟩
    else (decodeListCursor C K cursor).map some

/-- The part of the sorted memories that lies behind the cursor. -/
def afterCursor (cursor : Option Position) (memories : List Memory) : List Memory :=
  match cursor with
  | none => memories
  | some c => memories.filter fun m => 0 < compareMemoryDescending (position m) c

/-- `memories.slice(start, limit !== undefined ? start + limit : undefined)` -/
def slice {α : Type} (start : ℕ) (limit : Option ℕ) (l : List α) : List α :=
  match limit with
  | none => l.drop start
  | some limit => (l.drop start).take limit

/-- The page that the request asks for. -/
def listPage (q : ListQuery) (cursor : Option Position) (memories : List Memory) : ListAnswer :=
  let total := memories.length
  let memories := afterCursor cursor (sortedMemories memories)
  let remaining := memories.length
  let paginated := q.offset.isSome || q.limit.isSome || q.cursor.isSome
  let start := q.offset.getD 0
  let page := if paginated then slice start q.limit memories else memories
  { text := listText paginated start total remaining page
    memories := page
    total := total
    offset := q.offset
    limit := q.limit
    nextCursor :=
      if paginated && 0 < page.length && start + page.length < remaining then
        page.getLast?.map (encodeListCursor K)
      else none }

def list (q : ListQuery) (options : Options) : Act ListAnswer := do
  let memories ← listMemories C q options
  let cursor ← Act.ofRefusal (listCursor C K q)
  pure (listPage K q cursor memories)

end List

/-! ### The order of positions -/

section Order

/-- The code units of one character. -/
def unitsOf (c : Char) : List ℕ :=
  if c.toNat < 0x10000 then [c.toNat]
  else [0xd800 + (c.toNat - 0x10000) / 0x400, 0xdc00 + (c.toNat - 0x10000) % 0x400]

/-- No text has the code units of one character before those of another. -/
theorem unitsOf_append {c d : Char} {l r : List ℕ} (h : unitsOf c ++ l = unitsOf d ++ r) :
    c = d ∧ l = r := by
  have hc := c.valid
  have hd := d.valid
  simp only [UInt32.isValidChar, Nat.isValidChar] at hc hd
  change c.toNat < 0xd800 ∨ 0xdfff < c.toNat ∧ c.toNat < 0x110000 at hc
  change d.toNat < 0xd800 ∨ 0xdfff < d.toNat ∧ d.toNat < 0x110000 at hd
  unfold unitsOf at h
  split at h <;> split at h <;>
    simp only [List.cons_append, List.nil_append, List.cons.injEq] at h
  · exact ⟨Char.toNat_inj.mp h.1, h.2⟩
  · omega
  · omega
  · exact ⟨Char.toNat_inj.mp (by omega), h.2.2⟩

theorem flatMap_unitsOf_injective : Function.Injective (List.flatMap unitsOf) := by
  have hne : ∀ c : Char, unitsOf c ≠ [] := by
    intro c
    unfold unitsOf
    split <;> simp
  intro l
  induction l with
  | nil =>
    rintro (_ | ⟨d, r⟩) h
    · rfl
    · exact absurd (List.append_eq_nil_iff.mp h.symm).1 (hne d)
  | cons c l ih =>
    rintro (_ | ⟨d, r⟩) h
    · exact absurd (List.append_eq_nil_iff.mp h).1 (hne c)
    · obtain ⟨rfl, hrest⟩ := unitsOf_append h
      rw [ih hrest]

theorem codeUnits_injective : Function.Injective codeUnits := by
  intro s t h
  exact String.toList_inj.mp (flatMap_unitsOf_injective h)

/-- Positions by the code units of their time, then of their id. -/
def Position.rank (p : Position) : List ℕ ×ₗ List ℕ := toLex (codeUnits p.updatedAt, codeUnits p.id)

theorem Position.rank_injective : Function.Injective Position.rank := by
  rintro ⟨s, i⟩ ⟨t, j⟩ h
  obtain ⟨hs, hi⟩ := Prod.mk.inj (toLex.injective h)
  rw [Position.mk.injEq]
  exact ⟨codeUnits_injective hs, codeUnits_injective hi⟩

instance : LinearOrder Position := LinearOrder.lift' Position.rank Position.rank_injective

theorem textLt_iff {s t : String} : textLt s t = true ↔ codeUnits s < codeUnits t :=
  decide_eq_true_iff

theorem position_lt {p q : Position} : p < q ↔
    codeUnits p.updatedAt < codeUnits q.updatedAt ∨
      p.updatedAt = q.updatedAt ∧ codeUnits p.id < codeUnits q.id := by
  refine (Prod.Lex.toLex_lt_toLex (x := (codeUnits p.updatedAt, codeUnits p.id))
    (y := (codeUnits q.updatedAt, codeUnits q.id))).trans ?_
  rw [codeUnits_injective.eq_iff]

/-- The comparison says which of two positions is the greater one. -/
theorem compare_pos {p q : Position} : 0 < compareMemoryDescending p q ↔ p < q := by
  rw [position_lt]
  unfold compareMemoryDescending
  split_ifs with htime hlt hid hlt
  · simp [textLt_iff.mp hlt]
  · rw [textLt_iff] at hlt
    simp [hlt, htime]
  · simp [not_not.mp htime, hid]
  · simp [not_not.mp htime, textLt_iff.mp hlt]
  · rw [textLt_iff] at hlt
    simp [not_not.mp htime, hlt]

theorem compare_nonpos {p q : Position} : compareMemoryDescending p q ≤ 0 ↔ q ≤ p := by
  rw [← not_lt, compare_pos, not_lt]

theorem compare_eq_zero {p q : Position} : compareMemoryDescending p q = 0 ↔ p = q := by
  unfold compareMemoryDescending
  rw [Position.mk.injEq]
  split_ifs with htime hlt hid hlt
  · simp [htime]
  · simp [htime]
  · simp [not_not.mp htime, hid]
  · simp [hid]
  · simp [hid]

theorem compare_neg {p q : Position} : compareMemoryDescending p q < 0 ↔ q < p := by
  rw [lt_iff_le_and_ne, compare_nonpos, Ne, compare_eq_zero, lt_iff_le_and_ne]
  exact and_congr_right' ⟨Ne.symm, Ne.symm⟩

theorem sortedMemories_eq (memories : List Memory) :
    sortedMemories memories = Keyset.descending position memories := by
  unfold sortedMemories Keyset.descending
  congr 1
  funext a b
  exact propext compare_nonpos

theorem afterCursor_eq (cursor : Option Position) (memories : List Memory) :
    afterCursor cursor (sortedMemories memories) = Keyset.behind position cursor memories := by
  rw [sortedMemories_eq]
  cases cursor with
  | none => simp [afterCursor, Keyset.behind]
  | some c =>
    refine List.filter_congr fun m _ => ?_
    simp only [compare_pos, Option.all_some]

end Order

/-! ### A request and its memories -/

section Request
variable (C : Config) (K : CursorText) (E : Environment) (q : ListQuery) (options : Options)

/-- What matches the filter in a world, as the list shows it. -/
def matching (w : World) : Except Thrown (List Memory) :=
  ((listMemories C q options).exec (handle C E) w).1

theorem exec_list (w : World) : ((list C K q options).exec (handle C E) w).1 =
    (matching C E q options w).bind fun items =>
      ((listCursor C K q).mapError .error).map fun cursor => listPage K q cursor items := by
  unfold list matching
  rw [exec_bind]
  rcases (listMemories C q options).exec (handle C E) w with ⟨e | items, u⟩
  · rfl
  · rw [continued_ok, exec_bind, exec_ofRefusal]
    cases listCursor C K q <;> rfl

variable {C K E q options}

theorem id_of_rowToMemory {row : Sqlite.Row} {m : Memory} (h : Sqlite.rowToMemory row = some m) :
    m.id = row.id := by
  obtain ⟨-, rfl⟩ := Sqlite.rowToMemory_eq_some.mp h
  rfl

theorem ids_all (tables : Sqlite.Serial.Tables) (includeArchived : Bool)
    (tenant : Option TenantFilter) :
    (tables.all includeArchived tenant).Pairwise fun a b => a.id ≠ b.id := by
  have hrows : tables.memories.rows.Pairwise fun a b => a.id ≠ b.id :=
    List.pairwise_map.mp tables.memories.nodup
  have hsorted : (newestFirst Sqlite.Row.updatedAt (tables.memories.rows.filter fun row =>
      Sqlite.tenantWhere tenant row && (includeArchived || row.archivedAt = none))).Pairwise
        fun a b => a.id ≠ b.id :=
    (newestFirst_perm.pairwise_iff Ne.symm).mpr (hrows.filter _)
  refine List.Pairwise.filterMap _ (fun a b hab m hm m' hm' => ?_) hsorted
  rwa [id_of_rowToMemory hm, id_of_rowToMemory hm']

/-- The memories of a list have different positions. -/
theorem positions_matching {w : World} {items : List Memory}
    (h : matching C E q options w = .ok items) : (items.map position).Nodup := by
  obtain ⟨u, hexec⟩ : ∃ u, (listMemories C q options).exec (handle C E) w = (.ok items, u) :=
    ⟨_, Prod.ext h rfl⟩
  unfold listMemories at hexec
  obtain ⟨tenant, w₁, -, hexec⟩ := (exec_bind_eq_ok _).mp hexec
  obtain ⟨all, w₂, hall, hexec⟩ := (exec_bind_eq_ok _).mp hexec
  obtain ⟨now, w₃, -, hexec⟩ := (exec_bind_eq_ok _).mp hexec
  obtain ⟨shown, w₄, hshown, hexec⟩ := (exec_bind_eq_ok _).mp hexec
  cases hexec
  obtain ⟨-, rfl⟩ := filterM_eq_ok.mp (exec_ofRefusal_eq_ok.mp hshown).1
  have hids : all.Pairwise fun a b => a.id ≠ b.id := by
    cases hall
    exact ids_all ..
  refine List.pairwise_map.mpr (List.pairwise_map.mpr ?_)
  refine ((hids.filter _).filter _).imp fun hab heq => hab ?_
  exact (Position.mk.inj heq).2

end Request

/-! ### The walk -/

/-- A walk by pages that follows the cursors. -/
structure ListWalk where
  cursor : Option String := none
  visited : List Memory := []
  done : Bool := false

/-- The walk's next request. -/
def ListWalk.request (s : ListWalk) (q : ListQuery) (n : ℕ) : ListQuery :=
  { q with offset := none, cursor := s.cursor, limit := some n }

/-- The walk with the page that was answered. -/
def ListWalk.turned (s : ListWalk) (answer : ListAnswer) : ListWalk where
  cursor := answer.nextCursor
  visited := s.visited ++ answer.memories
  done := answer.nextCursor.isNone

section Walk
variable (C : Config) (K : CursorText) (E : Environment) (q : ListQuery) (options : Options) (n : ℕ)

/-- The next request of the walk, in the world as it is by then; none where it is refused. -/
def walkStep (s : ListWalk) (w : World) : Option ListWalk :=
  if s.done then none
  else match ((list C K (s.request q n) options).exec (handle C E) w).1 with
    | .error _ => none
    | .ok answer => some (s.turned answer)

/-- The filter matches a memory at this position. -/
def Lists (w : World) (p : Position) : Prop :=
  ∃ items, matching C E q options w = .ok items ∧ p ∈ items.map position

/-- A position whose cursor is accepted. -/
def citable (p : Position) : Bool := isListPosition C p && utf16Length (K.encode p) ≤ 512

/-- The cursor, if there is one, is accepted and is the position of the last memory visited. -/
def Accepted (s : ListWalk) : Prop :=
  ∀ text ∈ s.cursor, ∃ m, s.visited.getLast? = some m ∧ decodeListCursor C K text = .ok (position m)

/-- What a walk through these worlds has visited. -/
structure Visits (worlds : List World) (s : ListWalk) : Prop where
  ordered : s.visited.Pairwise fun a b => compareMemoryDescending (position a) (position b) < 0
  once : s.done = true → ∀ p, (∀ w ∈ worlds, Lists C E q options w p) →
    (s.visited.map position).count p = 1
  listed : ∀ m ∈ s.visited, ∃ w ∈ worlds, Lists C E q options w (position m)
  bounded : worlds.length ≤ {p | citable C K p = true}.ncard + 1

/-- Every cursor is accepted, and the walk visits what it should and comes to an end. -/
structure Paginates (worlds : List World) : Prop where
  accepted : Transition.Everywhere (walkStep C K E q options n) (Accepted C K) {} worlds
  visits : ∀ s, Transition.run (walkStep C K E q options n) {} worlds = some s →
    Visits C K E q options worlds s

/-- Where more than a page of memories lies behind the cursor, a cursor can name the last of the page. -/
def EndsCitably (s : ListWalk) (w : World) : Prop :=
  ∀ items c m, matching C E q options w = .ok items → s.cursor = c.map K.encode →
    n < (Keyset.behind position c items).length → (Keyset.behind position c items)[n - 1]? = some m →
      citable C K (position m) = true

end Walk

section WalkLaws
variable {C : Config} {K : CursorText} {E : Environment} {q : ListQuery} {options : Options} {n : ℕ}

/-- A cursor is read as the position it was made of, or refused. -/
theorem decode_encode (p : Position) : decodeListCursor C K (K.encode p) =
    if citable C K p then .ok p else .error ⟨.invalidInput, "cursor is invalid"⟩ := by
  have hpos : ¬ utf16Length (K.encode p) < 1 := by
    intro h
    refine K.encode_ne p (String.toList_inj.mp ?_)
    cases hchars : (K.encode p).toList with
    | nil => rfl
    | cons c l =>
      simp only [utf16Length, hchars, List.map_cons, List.sum_cons] at h
      split at h <;> omega
  have hrecord : listPosition C [("version", .num (.finite 1)), ("updatedAt", .str p.updatedAt),
      ("id", .str p.id)] = if isListPosition C p then some p else none := by
    simp [listPosition, List.lookup_cons, Option.filter]
  unfold decodeListCursor citable
  rw [K.parse_encode, Option.bind_some, hrecord]
  by_cases hlong : 512 < utf16Length (K.encode p)
  · simp [hlong, not_le.mpr hlong]
  · by_cases hlist : isListPosition C p = true
    · simp [hlong, hpos, not_lt.mp hlong, hlist]
    · simp [hlong, hpos, hlist]

theorem encode_injective : Function.Injective K.encode := by
  intro p p' h
  have hparse := (K.parse_encode p).symm.trans ((congrArg K.parse h).trans (K.parse_encode p'))
  simp only [Option.some.injEq, List.cons.injEq, Prod.mk.injEq, true_and, and_true,
    Yaml.str.injEq] at hparse
  cases p
  cases p'
  exact congrArg₂ _ hparse.1 hparse.2

theorem listCursor_request {s : ListWalk} {c c' : Option Position}
    (hcursor : s.cursor = c.map K.encode) (h : listCursor C K (s.request q n) = .ok c') :
    c' = c ∧ ∀ p ∈ c, citable C K p = true := by
  cases c with
  | none =>
    have hnone : listCursor C K (s.request q n) = .ok none := by
      simp [listCursor, ListWalk.request, hcursor, truthy]
    cases hnone.symm.trans h
    exact ⟨rfl, by rintro p ⟨⟩⟩
  | some p =>
    have htruthy : truthy (some (K.encode p)) = some (K.encode p) :=
      Option.filter_some_pos (decide_eq_true (K.encode_ne p))
    have hdecode : listCursor C K (s.request q n) =
        (decodeListCursor C K (K.encode p)).map some := by
      simp [listCursor, ListWalk.request, hcursor, htruthy]
    rw [hdecode, decode_encode] at h
    split at h
    · rename_i hcitable
      cases h
      exact ⟨rfl, by rintro p ⟨⟩; exact hcitable⟩
    · cases h

/-- A page of the walk is a page by keys, and so is its cursor. -/
theorem listPage_request (s : ListWalk) (c : Option Position) (items : List Memory) :
    (listPage K (s.request q n) c items).memories = Keyset.page position n c items ∧
      (listPage K (s.request q n) c items).nextCursor =
        (Keyset.next position n c items).map K.encode := by
  have hpage : slice 0 (some n) (Keyset.behind position c items) = Keyset.page position n c items :=
    rfl
  simp only [listPage, ListWalk.request, Option.isSome_some, Bool.or_true, Bool.true_or, if_true,
    Option.getD_none, afterCursor_eq, hpage, Bool.true_and, Nat.zero_add, Keyset.next, true_and]
  by_cases hmore : (Keyset.page position n c items).length < (Keyset.behind position c items).length
  · rw [if_pos hmore]
    split
    · simp only [Option.map_map]
      rfl
    · rename_i hempty
      simp only [Bool.and_eq_true, decide_eq_true_eq, hmore, and_true, not_lt, Nat.le_zero,
        List.length_eq_zero_iff] at hempty
      rw [hempty]
      rfl
  · simp [hmore]

/-- The walk goes as the walk by keys. -/
structure Follows (K : CursorText) (s : ListWalk) (k : Keyset.Walk Memory Position) : Prop where
  cursor : s.cursor = k.cursor.map K.encode
  visited : s.visited = k.visited
  done : s.done = k.done

theorem follows_start : Follows K {} {} := ⟨rfl, rfl, rfl⟩

/-- A step of the walk is a request by keys behind a cursor that is accepted. -/
theorem Follows.step {s t : ListWalk} {k : Keyset.Walk Memory Position} {w : World}
    (hs : Follows K s k) (h : walkStep C K E q options n s w = some t) :
    ∃ items k', matching C E q options w = .ok items ∧ (∀ c ∈ k.cursor, citable C K c = true) ∧
      Keyset.request position n k items = some k' ∧ Follows K t k' := by
  unfold walkStep at h
  split at h
  · cases h
  rename_i hdone
  split at h
  · cases h
  rename_i answer hanswer
  cases h
  have hview : matching C E (s.request q n) options w = matching C E q options w := rfl
  rw [exec_list, hview] at hanswer
  cases hitems : matching C E q options w with
  | error e =>
    rw [hitems] at hanswer
    cases hanswer
  | ok items =>
    rw [hitems] at hanswer
    cases hc : listCursor C K (s.request q n) with
    | error e =>
      rw [hc] at hanswer
      cases hanswer
    | ok c =>
      obtain ⟨rfl, hcitable⟩ := listCursor_request hs.cursor hc
      rw [hc] at hanswer
      cases hanswer
      obtain ⟨hmemories, hnext⟩ := @listPage_request K q n s k.cursor items
      refine ⟨items, _, rfl, hcitable, if_neg (by rw [← hs.done]; exact hdone), ?_⟩
      constructor
      · exact hnext
      · exact congrArg₂ (· ++ ·) hs.visited hmemories
      · change (listPage K (s.request q n) k.cursor items).nextCursor.isNone = _
        rw [hnext]
        exact Option.isNone_map

/-- A walk goes as a walk by keys through what matches, and follows accepted cursors only. -/
theorem Follows.run : ∀ (worlds : List World) {s t : ListWalk} {k : Keyset.Walk Memory Position},
    Follows K s k → Transition.run (walkStep C K E q options n) s worlds = some t →
      ∃ collections k', List.Forall₂ (fun w items => matching C E q options w = .ok items)
          worlds collections ∧
        Transition.run (Keyset.request position n) k collections = some k' ∧ Follows K t k' ∧
        Transition.Along (Keyset.request position n)
          (fun k _ => ∀ c ∈ k.cursor, citable C K c = true) k collections
  | [], s, t, k, hs, h => by
    cases h
    exact ⟨[], k, .nil, rfl, hs, trivial⟩
  | w :: worlds, s, t, k, hs, h => by
    obtain ⟨u, hu, hrest⟩ := Transition.run_cons_some.mp h
    obtain ⟨items, k', hitems, hcitable, hrequest, hu'⟩ := hs.step hu
    obtain ⟨collections, k'', hall, hrun, ht, halong⟩ := Follows.run worlds hu' hrest
    exact ⟨items :: collections, k'', .cons hitems hall,
      Transition.run_cons_some.mpr ⟨k', hrequest, hrun⟩, ht,
      Transition.along_cons hrequest hcitable halong⟩

/-! ### What every walk visits -/

theorem toNat_lt (c : Char) : c.toNat < 0x110000 := by
  have h := c.valid
  simp only [UInt32.isValidChar, Nat.isValidChar] at h
  change c.toNat < 0xd800 ∨ 0xdfff < c.toNat ∧ c.toNat < 0x110000 at h
  omega

theorem utf16Length_ge (s : String) : s.toList.length ≤ utf16Length s := by
  unfold utf16Length
  induction s.toList with
  | nil => exact Nat.le_refl 0
  | cons c l ih =>
    rw [List.map_cons, List.sum_cons, List.length_cons]
    split <;> omega

/-- There are finitely many positions that a cursor can name. -/
theorem finite_citable (C : Config) (K : CursorText) : {p | citable C K p = true}.Finite := by
  have : Finite Char := Finite.of_injective
    (fun c : Char => (⟨c.toNat, toNat_lt c⟩ : Fin 0x110000)) fun c d h =>
      Char.toNat_inj.mp (Fin.mk.inj h)
  have hinjective : Set.InjOn (fun p => (K.encode p).toList) {p | citable C K p = true} :=
    fun p _ p' _ h => encode_injective (String.toList_inj.mp h)
  refine Set.Finite.of_injOn (t := {l : List Char | l.length ≤ 512}) (fun p hp => ?_) hinjective
    (List.finite_length_le Char 512)
  obtain ⟨-, hlength⟩ := Bool.and_eq_true_iff.mp hp
  exact (utf16Length_ge _).trans (of_decide_eq_true hlength)

theorem forall₂_mem {α β : Type} {R : α → β → Prop} {l : List α} {r : List β}
    (h : List.Forall₂ R l r) : (∀ a ∈ l, ∃ b ∈ r, R a b) ∧ ∀ b ∈ r, ∃ a ∈ l, R a b := by
  induction h with
  | nil => exact ⟨by rintro a ⟨⟩, by rintro b ⟨⟩⟩
  | cons hab _ ih =>
    refine ⟨fun a ha => ?_, fun b hb => ?_⟩
    · rcases List.mem_cons.mp ha with rfl | ha
      · exact ⟨_, List.mem_cons_self .., hab⟩
      · obtain ⟨b, hb, h⟩ := ih.1 a ha
        exact ⟨b, List.mem_cons_of_mem _ hb, h⟩
    · rcases List.mem_cons.mp hb with rfl | hb
      · exact ⟨_, List.mem_cons_self .., hab⟩
      · obtain ⟨a, ha, h⟩ := ih.2 b hb
        exact ⟨a, List.mem_cons_of_mem _ ha, h⟩

/-- Every walk visits what matches all the time once, in order, and in finitely many pages. -/
theorem visits_of_run (hn : 1 ≤ n) {worlds : List World} {s : ListWalk}
    (h : Transition.run (walkStep C K E q options n) {} worlds = some s) :
    Visits C K E q options worlds s := by
  obtain ⟨collections, k, hall, hrun, hs, halong⟩ := (@follows_start K).run worlds h
  obtain ⟨hworlds, hcollections⟩ := forall₂_mem hall
  have hdistinct : ∀ items ∈ collections, (items.map position).Nodup := by
    intro items hitems
    obtain ⟨w, -, hw⟩ := hcollections items hitems
    exact positions_matching hw
  have hvisiting := Keyset.visiting_run hn collections Keyset.visiting_start hdistinct hrun
  have hordered : s.visited.Pairwise fun a b => position b < position a := by
    rw [hs.visited]
    exact hvisiting.ordered
  constructor
  case ordered => exact hordered.imp compare_neg.mpr
  case once =>
    intro hdone p hp
    rw [hs.done] at hdone
    have hmem : p ∈ k.visited.map position := by
      refine hvisiting.complete p (fun items hitems => ?_) (.inl hdone)
      rw [List.append_nil, List.mem_reverse] at hitems
      obtain ⟨w, hw, hmatching⟩ := hcollections items hitems
      obtain ⟨items', hitems', hp'⟩ := hp w hw
      cases hmatching.symm.trans hitems'
      exact hp'
    rw [← hs.visited] at hmem
    refine List.count_eq_one_of_mem ?_ hmem
    exact List.pairwise_map.mpr (hordered.imp fun hlt => (ne_of_lt hlt).symm)
  case listed =>
    intro m hm
    rw [hs.visited] at hm
    obtain ⟨items, hitems, hmem⟩ := hvisiting.sound m hm
    rw [List.append_nil, List.mem_reverse] at hitems
    obtain ⟨w, hw, hmatching⟩ := hcollections items hitems
    exact ⟨w, hw, items, hmatching, List.mem_map_of_mem hmem⟩
  case bounded =>
    have hfinite := finite_citable C K
    obtain ⟨-, hlength⟩ := Keyset.length_le hfinite.toFinset collections hdistinct
      (Transition.along_of_along (I := fun _ => True) (fun _ _ _ _ _ _ => trivial)
        (fun k _ _ hk c hc => hfinite.mem_toFinset.mpr (hk c hc)) collections trivial halong) hrun
    rw [← hall.length_eq] at hlength
    refine hlength.trans (Nat.add_le_add_right ?_ 1)
    rw [Set.ncard_eq_toFinset_card _ hfinite]
    exact Finset.card_filter_le ..

/-! ### Which cursors are accepted -/

/-- What the walk makes of a page. -/
theorem walkStep_next {s t : ListWalk} {w : World} {c : Option Position}
    (hcursor : s.cursor = c.map K.encode) (h : walkStep C K E q options n s w = some t) :
    ∃ items, matching C E q options w = .ok items ∧
      t.cursor = (Keyset.next position n c items).map K.encode ∧
      t.visited = s.visited ++ Keyset.page position n c items := by
  have hs : Follows K s ⟨c, s.visited, s.done⟩ := ⟨hcursor, rfl, rfl⟩
  obtain ⟨items, k', hitems, -, hrequest, ht⟩ := hs.step h
  unfold Keyset.request at hrequest
  split at hrequest
  · cases hrequest
  · cases hrequest
    exact ⟨items, hitems, ht.cursor, ht.visited⟩

theorem endsCitably_iff {s : ListWalk} {w : World} {c : Option Position} {items : List Memory}
    (hcursor : s.cursor = c.map K.encode) (hitems : matching C E q options w = .ok items) :
    EndsCitably C K E q options n s w ↔ (n < (Keyset.behind position c items).length →
      ∀ m ∈ (Keyset.behind position c items)[n - 1]?, citable C K (position m) = true) := by
  constructor
  · exact fun hends hmore m hm => hends items c m hitems hcursor hmore hm
  · intro hends items' c' m hitems' hcursor'
    cases hitems.symm.trans hitems'
    have hsame : c = c' := Option.map_injective encode_injective (hcursor.symm.trans hcursor')
    rw [← hsame]
    exact fun hmore hm => hends hmore m hm

/-- After a page the cursor is accepted exactly if the page ends where a cursor can name it. -/
theorem accepted_iff (hn : 1 ≤ n) {s t : ListWalk} {w : World} {c : Option Position}
    (hcursor : s.cursor = c.map K.encode) (h : walkStep C K E q options n s w = some t) :
    Accepted C K t ↔ EndsCitably C K E q options n s w := by
  obtain ⟨items, hitems, htcursor, htvisited⟩ := walkStep_next hcursor h
  rw [endsCitably_iff hcursor hitems]
  unfold Accepted
  rw [htcursor, htvisited, Keyset.next_eq hn]
  by_cases hmore : n < (Keyset.behind position c items).length
  · have hlast : n - 1 < (Keyset.behind position c items).length := by omega
    have hpage : (Keyset.page position n c items).getLast? = _ := Keyset.page_getLast? hn hmore
    rw [List.getElem?_eq_getElem hlast] at hpage
    simp only [hmore, if_true, List.getElem?_eq_getElem hlast, Option.map_some, Option.mem_def,
      Option.some.injEq, forall_eq', List.getLast?_append, hpage, Option.some_or, decode_encode,
      true_imp_iff]
    split <;> simp [*]
  · simp [hmore]

end WalkLaws

section Pagination
variable (C : Config) (K : CursorText) (E : Environment) (q : ListQuery) (options : Options)

/-- Every page whose cursor is followed must end where a cursor can name it; then, and only then, the
    list can be walked to its end. -/
theorem pagination_iff (n : ℕ) (hn : 1 ≤ n) (worlds : List World) :
    Paginates C K E q options n worlds ↔
      Transition.Along (walkStep C K E q options n) (EndsCitably C K E q options n) {} worlds := by
  have hvisits := fun s => @visits_of_run C K E q options n hn worlds s
  have haccepted : Transition.Everywhere (walkStep C K E q options n) (Accepted C K) {} worlds ↔
      Transition.Along (walkStep C K E q options n) (EndsCitably C K E q options n) {} worlds := by
    refine Transition.everywhere_iff_along
      (I := fun s => (∃ c : Option Position, s.cursor = c.map K.encode) ∧ Accepted C K s)
      ?_ (fun s hs => hs.2) ?_ ⟨⟨none, rfl⟩, by rintro text ⟨⟩⟩ worlds
    · rintro s w t ⟨⟨c, hcursor⟩, -⟩ hends ht
      obtain ⟨items, -, htcursor, -⟩ := walkStep_next hcursor ht
      exact ⟨⟨_, htcursor⟩, (accepted_iff hn hcursor ht).mpr hends⟩
    · rintro s w t ⟨⟨c, hcursor⟩, -⟩ hends ht haccepted
      exact hends ((accepted_iff hn hcursor ht).mp haccepted)
  rw [← haccepted]
  exact ⟨fun h => h.accepted, fun h => ⟨h, hvisits⟩⟩

end Pagination

/-! ### A memory that no cursor can name -/

/-- A cursor as a count of the time's length, the time and the id. -/
def countedCursors : CursorText where
  encode p := .ofList (List.replicate p.updatedAt.toList.length '1' ++
    '0' :: (p.updatedAt.toList ++ p.id.toList))
  parse text :=
    let count := (text.toList.takeWhile (· = '1')).length
    match text.toList.drop count with
    | [] => none
    | _ :: rest => some [("version", .num (.finite 1)), ("updatedAt", .str (.ofList (rest.take count))),
        ("id", .str (.ofList (rest.drop count)))]
  parse_encode p := by
    have hcount : ((List.replicate p.updatedAt.toList.length '1' ++
        '0' :: (p.updatedAt.toList ++ p.id.toList)).takeWhile (· = '1')).length =
          p.updatedAt.toList.length := by
      simp
    simp only [String.toList_ofList, hcount]
    simp
  encode_ne p := by
    rw [Ne, ← String.toList_inj]
    simp

/-- A store with imported memories that have these ids. -/
def imported (ids : List String) : World :=
  (initial (Sqlite.Serial.Tables.importBatch plainConfig.backend {} 0
    (ids.map fun id => Sqlite.Serial.edited id "Prefers tables.") none).2
    ⟨"openai", .external, .internal, false, 0⟩).world

/-- What an unfiltered list of the store shows. -/
def importedMemories (ids : List String) : List Memory :=
  (matching plainConfig steady {} {} (imported ids)).toOption.getD []

theorem matching_imported {ids : List String}
    (h : (matching plainConfig steady {} {} (imported ids)).isOk = true) :
    matching plainConfig steady {} {} (imported ids) = .ok (importedMemories ids) := by
  unfold importedMemories
  cases hitems : matching plainConfig steady {} {} (imported ids) with
  | error e =>
    rw [hitems] at h
    cases h
  | ok items => rfl

/-- Two memories on two pages. -/
theorem pagination_iff_two : Paginates plainConfig countedCursors steady {} {} 1
    [imported ["m-1", "m-2"], imported ["m-1", "m-2"]] := by
  refine (pagination_iff plainConfig countedCursors steady {} {} 1 (by decide) _).mpr ?_
  have hitems := @matching_imported ["m-1", "m-2"] (by decide +kernel)
  intro s hs
  obtain ⟨items, hsame, hcursor, -⟩ := walkStep_next (c := none) rfl hs
  cases hitems.symm.trans hsame
  refine ⟨(endsCitably_iff (c := none) rfl hitems).mpr (by decide +kernel), fun t ht => ?_⟩
  exact ⟨(endsCitably_iff hcursor hitems).mpr (by decide +kernel), trivial⟩

/-- An id of 129 characters, which can be stored. -/
def longId : String := .ofList (List.replicate 129 'm')

/-- The cursor of a page that ends at the memory with the long id is refused. -/
theorem long_id_is_refused : Store.isSafeMemoryId longId = true ∧
    ¬ Paginates plainConfig countedCursors steady {} {} 1 [imported [longId, "m-1"]] := by
  refine ⟨by decide +kernel, fun h => ?_⟩
  have hitems := @matching_imported [longId, "m-1"] (by decide +kernel)
  have hstep : (walkStep plainConfig countedCursors steady {} {} 1 {}
      (imported [longId, "m-1"])).isSome = true := by decide +kernel
  obtain ⟨t, ht⟩ := Option.isSome_iff_exists.mp hstep
  have hends := (accepted_iff (c := none) (by decide) rfl ht).mp (h.accepted.2 t ht)
  exact absurd ((endsCitably_iff (c := none) rfl hitems).mp hends) (by decide +kernel)

end Remembra.Service
