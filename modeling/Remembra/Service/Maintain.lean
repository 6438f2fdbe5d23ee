import Mathlib.Data.List.Infix
import Remembra.Lib.Delimited
import Remembra.Service.Writers

/-! `maintain`: the decay pass, the vectors that are missing and the flags of memories that contradict
    each other. -/

namespace Remembra.Service
open Store (Memory Yaml TenantFilter Vocabulary)

section Maintain
variable (C : Config)

/-! ### Decay -/

def msPerDay : ℚ := 86400000

/-- The active memory has not been used since the cutoff and may be archived. -/
def decays (cutoff : ℚ) (m : Memory) : Bool :=
  m.type ≠ .role && m.type ≠ .instruction && m.retention ≠ some .pinned &&
    m.retention ≠ some .neverExpire &&
    (C.host.dateParse (m.lastSeen.getD m.updatedAt)).any fun t => (t : ℚ) < cutoff

/-- The archived memory is past its time and may be deleted. -/
def expires (cutoff : ℚ) (m : Memory) : Bool :=
  m.retention ≠ some .persistent && m.retention ≠ some .pinned &&
    m.retention ≠ some .neverExpire &&
    (m.archivedAt.bind C.host.dateParse).any fun t => (t : ℚ) < cutoff

/-- `decayPass`: the ids archived and the ids deleted. -/
def decayPass (options : Options) : Act (List String × List String) := do
  let tenant ← freshTenantFilter C options .write none
  let now ← Act.now
  let current ← Act.all false tenant
  let active ← readable C options current
  let stale := active.filter (decays C (now - C.archiveAfterDays * msPerDay))
  Prog.each stale fun m => ignoring (Act.archive m.id tenant)
  let everything ← Act.all true tenant
  let archived ← readable C options (everything.filter fun m => (Store.truthy m.archivedAt).isSome)
  let expired := archived.filter (expires C (now - C.archiveTtlDays * msPerDay))
  Prog.each expired fun m => ignoring (Act.forget m.id tenant)
  pure (stale.map (·.id), expired.map (·.id))

/-! ### Contradictions -/

/-- `String.includes` -/
def includes (text part : String) : Bool := decide (part.toList <:+: text.toList)

def negations : List (String × String) := [
  ("prefer", "dislike"), ("uses", "does not use"), ("is", "is not"), ("was", "was not"),
  ("has", "does not have"), ("agrees", "disagrees"), ("active", "inactive"), ("yes", "no"),
  ("true", "false"), ("correct", "incorrect"), ("right", "wrong"), ("started", "stopped"),
  ("began", "ended"), ("likes", "hates"), ("good", "bad"), ("love", "hate"), ("can", "cannot"),
  ("will", "will not"), ("should", "should not")]

def appearsContradictory (a b : Memory) : Bool :=
  negations.any fun pair =>
    (includes (C.text.lower a.content) pair.1 && includes (C.text.lower b.content) pair.2) ||
      (includes (C.text.lower a.content) pair.2 && includes (C.text.lower b.content) pair.1)

/-- The type and the scope, as `consolidate` groups by them. -/
def groupKey (m : Memory) : String := Delimited.join '|' (Vocabulary.text m.type) m.scope

def fingerprint (m : Memory) : String :=
  Delimited.join '|' (groupKey m) (C.text.lower (Jobs.trim m.content))

/-- Each memory that has the fingerprint of an earlier one, beside the id of the first such one. -/
def exactDuplicates : List (String × String) → List Memory → List (String × String)
  | _, [] => []
  | seen, m :: memories =>
    match seen.lookup (fingerprint C m) with
    | some first =>
      if first ≠ "" && first ≠ m.id then (m.id, first) :: exactDuplicates seen memories
      else exactDuplicates ((fingerprint C m, m.id) :: seen) memories
    | none => exactDuplicates ((fingerprint C m, m.id) :: seen) memories

/-- Newest first; a date that cannot be read compares as equal. -/
def newerFirst (a b : Memory) : Bool :=
  match C.host.dateParse a.createdAt, C.host.dateParse b.createdAt with
  | some x, some y => y ≤ x
  | _, _ => true

/-- The pairs of a list, in order. -/
def pairs {α : Type} : List α → List (α × α)
  | [] => []
  | x :: xs => xs.map (Prod.mk x) ++ pairs xs

/-- The memories by their group, as a map from the keys has them. -/
def groups (memories : List Memory) : List (List Memory) :=
  (memories.map groupKey).eraseDups.map fun key => memories.filter fun m => groupKey m = key

/-- The contradictions that `consolidate` finds, as pairs of ids. -/
def contradictions (memories : List Memory) : List (String × String) :=
  let duplicates := exactDuplicates C [] memories
  (groups memories).flatMap fun group =>
    ((pairs (group.mergeSort (newerFirst C))).filter fun pair =>
      (pair.1.id, pair.2.id) ∉ duplicates && (pair.2.id, pair.1.id) ∉ duplicates &&
        appearsContradictory C pair.1 pair.2).map fun pair => (pair.1.id, pair.2.id)

/-- `Boolean(v)` of plain data. -/
def isTrue : Yaml → Bool
  | .null => false
  | .bool b => b
  | .num n => n ≠ .finite 0 && n ≠ .nan
  | .str s => s ≠ ""
  | .seq _ => true
  | .map _ => true

/-- `memory.meta?.[key]` counts as true. -/
def metaFlag (m : Memory) (key : String) : Bool := ((m.metaFields.getD []).lookup key).any isTrue

/-- Flags the memory as contradicted, as the list of active memories has it, unless it is. -/
def flagContradicted (active : List Memory) (tenant : Option TenantFilter) (id : String) : Act Unit :=
  match (active.find? fun m => m.id = id).filter fun m => !metaFlag m "contradicted" with
  | none => pure ()
  | some m => ignoring (Act.update m
      { metaFields := some (some (withMeta m.metaFields "contradicted" (.bool true))) } {} tenant)

/-! ### The call -/

/-- Embeds an active memory that has no vector. -/
def backfill (tenant : Option TenantFilter) (embedded : ℕ) (m : Memory) : Act ℕ :=
  if m.embedding.getD [] ≠ [] then pure embedded
  else do
    let vector ← maybeEmbed C m.content
    let written ← writeVector m tenant vector
    pure (if written then embedded + 1 else embedded)

/-- The vectors of the active memories that have none. -/
def backfillAll (options : Options) (tenant : Option TenantFilter) : Act ℕ :=
  if C.embeddings then do
    let current ← Act.all false tenant
    let active ← readable C options current
    active.foldlM (backfill C tenant) 0
  else pure 0

structure MaintainResult where
  archived : List String
  deleted : List String
  embedded : ℕ

def maintain (options : Options) : Act MaintainResult := do
  let tenant ← freshTenantFilter C options .write none
  let decayed ← decayPass C options
  let embedded ← backfillAll C options tenant
  let current ← Act.all false tenant
  let active ← readable C options current
  Prog.each (contradictions C active) fun pair => do
    flagContradicted active tenant pair.1
    flagContradicted active tenant pair.2
  pure ⟨decayed.1, decayed.2, embedded⟩

end Maintain

end Remembra.Service
