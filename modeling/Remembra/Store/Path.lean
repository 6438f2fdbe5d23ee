import Remembra.Errors
import Remembra.Store.Record

/-! Where a record's file is: `fileFor`, `tenantRoot` and the ids and keys that file names are made of.
    A path is the list of its segments from the file system's root; `resolve` is `path.resolve`. -/

namespace Remembra.Store

abbrev Path := List String

/-- A segment that is a name: not empty, and neither `.` nor `..`. -/
def isName (s : String) : Bool := s ≠ "" && s ≠ "." && s ≠ ".."

/-- The storage root, resolved. -/
structure Root where
  path : Path
  ne_nil : path ≠ []
  names : ∀ s ∈ path, isName s = true

/-- One segment further: `..` goes up, `.` and the empty segment stay. -/
def descend (p : Path) (s : String) : Path :=
  if s = "" ∨ s = "." then p else if s = ".." then p.dropLast else p ++ [s]

def resolve (p : Path) : Path := p.foldl descend []

/-- The name without a final `.md`. -/
def stripMd (name : String) : String :=
  match name.toList.reverse with
  | 'd' :: 'm' :: '.' :: c :: rest => .ofList (c :: rest).reverse
  | _ => name

/-- `path.basename(file, ".md")` -/
def stem (file : Path) : String := stripMd (file.getLast?.getD "")

/-! ### Ids and keys -/

def hexDigit (n : ℕ) : Char := "0123456789abcdef".toList.getD n '0'

def hexByte (b : UInt8) : List Char := [hexDigit (b.toNat / 16), hexDigit (b.toNat % 16)]

/-- The UUIDv7 of a millisecond clock reading and sixteen random bytes. -/
def genId (now : ℕ) (random : Fin 16 → UInt8) : String :=
  let b : ℕ → UInt8 := fun i =>
    if i < 6 then UInt8.ofNat (now / 256 ^ (5 - i))
    else if i = 6 then (random 6 &&& 0x0f) ||| 0x70
    else if i = 8 then (random 8 &&& 0x3f) ||| 0x80
    else random (Fin.ofNat 16 i)
  let hex : List ℕ → List Char := fun is => is.flatMap fun i => hexByte (b i)
  .ofList (hex [0, 1, 2, 3] ++ '-' :: hex [4, 5] ++ '-' :: hex [6, 7] ++ '-' :: hex [8, 9] ++
    '-' :: hex [10, 11, 12, 13, 14, 15])

def base64Digit (n : ℕ) : Char :=
  "ABCDEFGHIJKLMNOPQRSTUVWXYZabcdefghijklmnopqrstuvwxyz0123456789-_".toList.getD (n % 64) 'A'

/-- `toString("base64url")`: three bytes are four digits, without padding. -/
def base64url : List UInt8 → List Char
  | a :: b :: c :: rest =>
    let n := a.toNat * 65536 + b.toNat * 256 + c.toNat
    base64Digit (n / 262144) :: base64Digit (n / 4096) :: base64Digit (n / 64) :: base64Digit n ::
      base64url rest
  | [a, b] =>
    let n := a.toNat * 1024 + b.toNat * 4
    [base64Digit (n / 4096), base64Digit (n / 64), base64Digit n]
  | [a] =>
    let n := a.toNat * 16
    [base64Digit (n / 64), base64Digit n]
  | [] => []

/-- The key of a valid organization id. -/
def directoryKey (organizationId : String) : String :=
  "tenant_" ++ .ofList (base64url organizationId.toUTF8.data.toList)

/-- The directory of an organization. -/
def tenantDirectoryKey (organizationId : String) : Except RemembraError String :=
  if isValidTenantId organizationId then .ok (directoryKey organizationId)
  else .error ⟨.invalidInput, "invalid tenant filter"⟩

/-! ### The file of a record -/

section Files
variable (root : Root)

def tenantPath (organizationId : String) : Except RemembraError Path :=
  (tenantDirectoryKey organizationId).map fun key => root.path ++ ["tenants", key]

/-- The root of a tenant's tree; a filter's organization id is valid, so there is one. -/
def tenantRoot (tenant : TenantFilter) : Path :=
  root.path ++ ["tenants", directoryKey tenant.organizationId.1]

/-- The root of the tree that a call with the given filter works on. -/
def treeRoot : Option TenantFilter → Path
  | none => root.path
  | some tenant => tenantRoot root tenant

/-- The root of a record's tree. -/
def baseRoot (m : Memory) : Except RemembraError Path :=
  match truthy m.tenantId with
  | some tenantId => tenantPath root tenantId
  | none => .ok root.path

/-- The directory of a record below the root of its tree. -/
def folder (m : Memory) : Path :=
  (if (truthy m.archivedAt).isSome then ["archived"] else []) ++
    if m.scope = "global" then ["global"] else "scopes" :: segments (normalizeScope m.scope)

def fileFor (m : Memory) : Except RemembraError Path :=
  match baseRoot root m with
  | .error e => .error e
  | .ok base =>
    let file := resolve (base ++ folder m ++ segments (m.id ++ ".md"))
    if root.path.isPrefixOf file && decide (root.path.length < file.length) then .ok file
    else .error ⟨.scopeEscapesRoot,
      "Invalid scope \"" ++ m.scope ++ "\": resolves outside the storage root"⟩

end Files

/-! ### Resolved paths -/

theorem isName_iff {s : String} : isName s = true ↔ s ≠ "" ∧ s ≠ "." ∧ s ≠ ".." := by
  simp [isName, and_assoc]

theorem foldl_descend {p q : Path} (hq : ".." ∉ q) :
    q.foldl descend p = p ++ q.filter isName := by
  induction q generalizing p with
  | nil => simp
  | cons s q ih =>
    rw [List.mem_cons, not_or] at hq
    rw [List.foldl_cons, ih hq.2, List.filter_cons]
    by_cases hs : s = "" ∨ s = "."
    · have hn : isName s = false := by
        rcases hs with rfl | rfl <;> decide
      simp [descend, hs, hn]
    · have hn : isName s = true := isName_iff.mpr ⟨fun h => hs (.inl h), fun h => hs (.inr h),
        fun h => hq.1 h.symm⟩
      have hdot : ¬ s = ".." := fun h => hq.1 h.symm
      simp [descend, hs, hdot, hn]

/-- Without `..` a path resolves to its names. -/
theorem resolve_eq_filter {p : Path} (hp : ".." ∉ p) : resolve p = p.filter isName := by
  rw [resolve, foldl_descend hp, List.nil_append]

/-- The segments of a text without slashes. -/
theorem segments_of_notMem {s : String} (h : '/' ∉ s.toList) : segments s = [s] := by
  rw [segments, List.splitOn_eq_singleton h, List.map_singleton, String.ofList_toList]

theorem stripMd_append {id : String} (h : id ≠ "") : stripMd (id ++ ".md") = id := by
  have hrev : (id ++ ".md").toList.reverse = 'd' :: 'm' :: '.' :: id.toList.reverse := by
    rw [String.toList_append, List.reverse_append]
    rfl
  cases hid : id.toList.reverse with
  | nil =>
    rw [List.reverse_eq_nil_iff] at hid
    exact absurd (String.toList_injective (hid.trans String.toList_empty.symm)) h
  | cons c rest =>
    rw [hid] at hrev
    have hback : (c :: rest).reverse = id.toList := by rw [← hid, List.reverse_reverse]
    simp only [stripMd, hrev, hback, String.ofList_toList]

theorem notMem_of_isIdShape {id : String} (h : isIdShape id = true) {c : Char}
    (hc : c.isAlphanum = false) (hc' : c ∉ ['.', '_', '-']) : c ∉ id.toList := by
  intro hmem
  simp only [isIdShape, Bool.and_eq_true, List.all_eq_true, Bool.or_eq_true,
    decide_eq_true_iff] at h
  rcases h.2 c hmem with h | h
  · rw [hc] at h
    cases h
  · exact hc' h

theorem isName_append_md (s : String) : isName (s ++ ".md") = true := by
  have hlen : 3 ≤ (s ++ ".md").length := by
    rw [String.length_append]
    exact Nat.le_add_left 3 _
  have hne : ∀ t : String, t.length < 3 → s ++ ".md" ≠ t := by
    intro t ht heq
    rw [heq] at hlen
    omega
  exact isName_iff.mpr ⟨hne "" (by decide), hne "." (by decide), hne ".." (by decide)⟩

/-- The name of a record's file is one segment, and a name. -/
theorem segments_file {id : String} (h : isIdShape id = true) :
    segments (id ++ ".md") = [id ++ ".md"] ∧ isName (id ++ ".md") = true := by
  refine ⟨segments_of_notMem ?_, isName_append_md id⟩
  rw [String.toList_append, List.mem_append, not_or]
  exact ⟨notMem_of_isIdShape h (by decide) (by decide), by decide⟩

/-! ### The file of a record with a safe scope -/

theorem isName_directoryKey (organizationId : String) : isName (directoryKey organizationId) = true := by
  have hlen : 7 ≤ (directoryKey organizationId).length := by
    rw [directoryKey, String.length_append]
    exact Nat.le_add_right 7 _
  have hne : ∀ s : String, s.length < 7 → directoryKey organizationId ≠ s := by
    intro s hs heq
    rw [heq] at hlen
    omega
  exact isName_iff.mpr ⟨hne "" (by decide), hne "." (by decide), hne ".." (by decide)⟩

/-- The root of a record's tree is made of names and lies in the storage root. -/
theorem baseRoot_names {root : Root} {m : Memory} {base : Path} (h : baseRoot root m = .ok base) :
    (∀ s ∈ base, isName s = true) ∧ root.path <+: base := by
  unfold baseRoot at h
  split at h
  · rename_i tenantId htenant
    unfold tenantPath tenantDirectoryKey at h
    split at h
    · cases h
      refine ⟨?_, List.prefix_append ..⟩
      intro s hs
      simp only [List.mem_append, List.mem_cons, List.not_mem_nil, or_false] at hs
      rcases hs with hs | rfl | rfl
      · exact root.names s hs
      · decide
      · exact isName_directoryKey tenantId
    · cases h
  · cases h
    exact ⟨root.names, List.prefix_rfl⟩

theorem dotdot_notMem_folder {m : Memory} (h : isSafeScope m.scope = true) :
    ".." ∉ folder m := by
  have harchived : ".." ∉ (if (truthy m.archivedAt).isSome then ["archived"] else []) := by
    split <;> decide
  rw [folder, List.mem_append, not_or]
  refine ⟨harchived, ?_⟩
  split
  · decide
  · rename_i hglobal
    simp only [isSafeScope, hglobal, decide_false, Bool.false_or, decide_eq_true_iff] at h
    rw [List.mem_cons, not_or]
    exact ⟨by decide, h⟩

/-- A record with a safe scope has its file in the folder its scope names. -/
theorem fileFor_eq {root : Root} {m : Memory} {base : Path} (hbase : baseRoot root m = .ok base)
    (hscope : isSafeScope m.scope = true) (hid : isIdShape m.id = true) :
    fileFor root m = .ok (base ++ (folder m).filter isName ++ [m.id ++ ".md"]) := by
  obtain ⟨hnames, hprefix⟩ := baseRoot_names hbase
  obtain ⟨hseg, hname⟩ := segments_file hid
  have hdotdot : ".." ∉ base ++ folder m ++ segments (m.id ++ ".md") := by
    rw [hseg, List.mem_append, List.mem_append, not_or, not_or, List.mem_singleton]
    refine ⟨⟨fun h => ?_, dotdot_notMem_folder hscope⟩, fun h => ?_⟩
    · exact absurd (hnames _ h) (by decide)
    · rw [← h] at hname
      exact absurd hname (by decide)
  have hfile : resolve (base ++ folder m ++ segments (m.id ++ ".md")) =
      base ++ (folder m).filter isName ++ [m.id ++ ".md"] := by
    rw [resolve_eq_filter hdotdot, hseg, List.filter_append, List.filter_append,
      List.filter_eq_self.mpr hnames, List.filter_singleton, hname]
    rfl
  unfold fileFor
  simp only [hbase, hfile]
  rw [if_pos]
  rw [Bool.and_eq_true, decide_eq_true_iff, List.isPrefixOf_iff_prefix]
  refine ⟨?_, ?_⟩
  · rw [List.append_assoc]
    exact hprefix.trans (List.prefix_append ..)
  · have := hprefix.length_le
    simp only [List.length_append, List.length_singleton]
    omega

/-- The file of a record is named after its id. -/
theorem stem_concat {p : Path} {id : String} (h : id ≠ "") : stem (p ++ [id ++ ".md"]) = id := by
  rw [stem, List.getLast?_concat, Option.getD_some, stripMd_append h]

theorem hexByte_shape (b : UInt8) :
    ∀ c ∈ hexByte b, (c.isAlphanum || c ∈ ['.', '_', '-']) = true := by
  have hdigit : ∀ n < 16, ((hexDigit n).isAlphanum || hexDigit n ∈ ['.', '_', '-']) = true := by
    decide
  intro c hc
  simp only [hexByte, List.mem_cons, List.not_mem_nil, or_false] at hc
  rcases hc with rfl | rfl
  · exact hdigit _ (by have := b.toNat_lt; omega)
  · exact hdigit _ (Nat.mod_lt _ (by decide))

/-- A generated id is of the shape the reader asks for. -/
theorem genId_shape (now : ℕ) (random : Fin 16 → UInt8) : isIdShape (genId now random) = true := by
  have hhex : ∀ (b : ℕ → UInt8) (is : List ℕ), ∀ c ∈ is.flatMap fun i => hexByte (b i),
      (c.isAlphanum || c ∈ ['.', '_', '-']) = true := by
    intro b is c hc
    obtain ⟨i, -, hi⟩ := List.mem_flatMap.mp hc
    exact hexByte_shape _ c hi
  have hdash : ('-'.isAlphanum || '-' ∈ ['.', '_', '-']) = true := by decide
  rw [isIdShape, Bool.and_eq_true, decide_eq_true_iff, List.all_eq_true]
  constructor
  · intro h
    have hlist := congrArg String.toList h
    simp [genId] at hlist
  · intro c hc
    simp only [genId, String.toList_ofList, List.append_assoc, List.cons_append, List.mem_append,
      List.mem_cons] at hc
    rcases hc with hc | rfl | hc | rfl | hc | rfl | hc | rfl | hc
    · exact hhex _ _ c hc
    · exact hdash
    · exact hhex _ _ c hc
    · exact hdash
    · exact hhex _ _ c hc
    · exact hdash
    · exact hhex _ _ c hc
    · exact hdash
    · exact hhex _ _ c hc

end Remembra.Store
