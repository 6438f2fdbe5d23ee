import Remembra.Retrieval.Numbers
import Remembra.Service.Digest

/-! The cache of embeddings. An entry is found by a text that is joined from the partition, the model and
    a short hash of the embedded text; the provider is not a part of it. For calls that such a key tells
    apart the cache cannot be noticed, whatever is called in whatever order, and for other calls it can
    (`transparent_iff`). -/

namespace Remembra.Retrieval
open Store (JsNum)

inductive EmbeddingProvider where
  | openai | ollama | none
  deriving DecidableEq

/-- `hashStr`: a sum of the code units, stirred after each. -/
def hashStr (s : String) : BitVec 32 :=
  (Service.codeUnits s).foldl (fun h unit =>
    let h := h + BitVec.ofNat 32 unit
    h ^^^ (h >>> 11)) 0xdeadbeef#32

/-- What a call asks for, and the model that the environment names at that moment. -/
structure EmbedQuery where
  text : String
  provider : EmbeddingProvider
  cachePartition : Option String := none
  envModel : Option String := none

namespace EmbedQuery

def model (x : EmbedQuery) : String :=
  match x.provider with
  | .openai => x.envModel.getD "text-embedding-3-small"
  | _ => x.envModel.getD "nomic-embed-text"

def partitionName (x : EmbedQuery) : String := x.cachePartition.getD "global"

/-- The partition and the model, as the key begins with them. -/
def keyStart (x : EmbedQuery) : String := Delimited.join ':' x.partitionName x.model

def key (x : EmbedQuery) : String := Delimited.join ':' x.keyStart (toString (hashStr x.text).toNat)

end EmbedQuery

structure EmbedCacheEntry where
  vec : List JsNum
  ts : ℤ
  deriving DecidableEq

abbrev EmbedCache := OrdMap String EmbedCacheEntry

/-- What is around the cache: how long an entry is fresh, and the vectors of the providers. -/
structure EmbedWorld where
  ttlMs : JsNum
  vectors : EmbeddingProvider → String → String → List JsNum

/-- What a call answers. An answer from the cache is told from one of the provider, which is asked. -/
inductive EmbedAnswer where
  | disabled
  | failed
  | cached (vec : List JsNum)
  | computed (vec : List JsNum)
  deriving DecidableEq

/-- What the caller gets. -/
def EmbedAnswer.returned : EmbedAnswer → Option (List JsNum)
  | .disabled | .failed => none
  | .cached vec | .computed vec => some vec

/-- A call: its moment and whether the provider fails are no part of what it asks for. -/
inductive EmbedCall where
  | embed (x : EmbedQuery) (now : ℤ) (fails : Bool)
  | clearPartition (partition : String)
  | clear

section Cache
variable (W : EmbedWorld)

/-- The entry that the call is answered with, if there is a fresh one. -/
def freshEntry (cache : EmbedCache) (x : EmbedQuery) (now : ℤ) : Option EmbedCacheEntry :=
  (cache.get x.key).filter fun hit => less (ofInt (now - hit.ts)) W.ttlMs

def embedCached (cache : EmbedCache) (x : EmbedQuery) (now : ℤ) (fails : Bool) : EmbedCache × EmbedAnswer :=
  if x.provider = .none then (cache, .disabled)
  else
    match freshEntry W cache x now with
    | some hit => (cache, .cached hit.vec)
    | none =>
      if fails then (cache, .failed)
      else
        let vec := W.vectors x.provider x.model x.text
        (cache.set x.key ⟨vec, now⟩, .computed vec)

def clearEmbedCachePartition (cache : EmbedCache) (partition : String) : EmbedCache :=
  cache.filter fun key _ => !(partition ++ ":").toList.isPrefixOf key.toList

def clearEmbedCache (_ : EmbedCache) : EmbedCache := .empty

def EmbedCall.run (cache : EmbedCache) : EmbedCall → EmbedCache × EmbedAnswer
  | .embed x now fails => embedCached W cache x now fails
  | .clearPartition partition => (clearEmbedCachePartition cache partition, .disabled)
  | .clear => (clearEmbedCache cache, .disabled)

/-- The cache after some calls. -/
def cacheAfter (cache : EmbedCache) (calls : List EmbedCall) : EmbedCache :=
  calls.foldl (fun cache call => (call.run W cache).1) cache

/-- What a call answers that is made after others. -/
def answerAfter (calls : List EmbedCall) (call : EmbedCall) : EmbedAnswer :=
  (call.run W (cacheAfter W .empty calls)).2

/-- The cache is not noticed in a sequence of calls, and its partitions are apart. -/
structure Transparent (calls : List EmbedCall) : Prop where
  /-- A vector is the provider's one for the text and the model. -/
  faithful : ∀ before x now fails rest, calls = before ++ .embed x now fails :: rest →
    ∀ vec, (answerAfter W before (.embed x now fails)).returned = some vec →
      vec = W.vectors x.provider x.model x.text
  /-- Two texts, or two partitions, do not share an entry. -/
  apart : ∀ x now fails y now' fails', .embed x now fails ∈ calls → .embed y now' fails' ∈ calls →
    x.provider ≠ .none → y.provider ≠ .none → x.key = y.key →
      x.text = y.text ∧ x.cachePartition = y.cachePartition
  /-- What a partition is answered from the cache has been computed for it since it was cleared. -/
  cleared : ∀ before partition middle x now fails rest,
    calls = before ++ .clearPartition partition :: middle ++ .embed x now fails :: rest →
    x.cachePartition = some partition → ∀ vec,
    answerAfter W (before ++ .clearPartition partition :: middle) (.embed x now fails) = .cached vec →
      ∃ since y now' fails' later, middle = since ++ .embed y now' fails' :: later ∧
        y.cachePartition = some partition ∧
        answerAfter W (before ++ .clearPartition partition :: since) (.embed y now' fails') = .computed vec

end Cache

/-- The hash of the text and the text before it tell the queries apart. -/
def ToldApart (asked : Set EmbedQuery) : Prop :=
  ∀ x ∈ asked, ∀ y ∈ asked, x.provider ≠ .none → y.provider ≠ .none →
    hashStr x.text = hashStr y.text → x.keyStart = y.keyStart →
      x.text = y.text ∧ x.cachePartition = y.cachePartition ∧ x.provider = y.provider

/-! ### Keys -/

section Keys
variable {x y : EmbedQuery}

/-- A key has the hash of the text and the text before it. -/
theorem key_eq_iff : x.key = y.key ↔ x.keyStart = y.keyStart ∧ hashStr x.text = hashStr y.text := by
  constructor
  · intro h
    obtain ⟨hstart, hhash⟩ := Delimited.join_inj_last (Delimited.notMem_toString_nat rfl _)
      (Delimited.notMem_toString_nat rfl _) h
    exact ⟨hstart, BitVec.eq_of_toNat_eq (Delimited.toString_nat_inj hhash)⟩
  · rintro ⟨hstart, hhash⟩
    rw [EmbedQuery.key, EmbedQuery.key, hstart, hhash]

/-- The keys of one partition begin with its name. -/
theorem isPrefixOf_key (x : EmbedQuery) :
    (x.partitionName ++ ":").toList.isPrefixOf x.key.toList = true := by
  rw [List.isPrefixOf_iff_prefix, EmbedQuery.key, EmbedQuery.keyStart, Delimited.toList_join,
    Delimited.toList_join, String.toList_append]
  exact ⟨x.model.toList ++ ':' :: (toString (hashStr x.text).toNat).toList, by simp⟩

/-- Two queries of one partition with one start of the key are for one model. -/
theorem model_eq_of_keyStart (h : x.keyStart = y.keyStart) (hpartition : x.cachePartition = y.cachePartition) :
    x.model = y.model := by
  have hname : x.partitionName = y.partitionName := by
    rw [EmbedQuery.partitionName, EmbedQuery.partitionName, hpartition]
  rw [EmbedQuery.keyStart, EmbedQuery.keyStart, hname] at h
  have hlist := congrArg String.toList h
  rw [Delimited.toList_join, Delimited.toList_join, List.append_cancel_left_eq, List.cons.injEq] at hlist
  exact String.toList_injective hlist.2

end Keys

/-! ### One call -/

section Run
variable {W : EmbedWorld} {cache : EmbedCache} {x : EmbedQuery} {now : ℤ} {fails : Bool} {call : EmbedCall}
  {vec : List JsNum}

variable (W cache x now fails) in
/-- What a query is answered with. -/
theorem embedCached_cases : (x.provider = .none ∧ embedCached W cache x now fails = (cache, .disabled)) ∨
    (∃ hit, x.provider ≠ .none ∧ freshEntry W cache x now = some hit ∧
      embedCached W cache x now fails = (cache, .cached hit.vec)) ∨
    (x.provider ≠ .none ∧ freshEntry W cache x now = none ∧ fails = true ∧
      embedCached W cache x now fails = (cache, .failed)) ∨
    (x.provider ≠ .none ∧ freshEntry W cache x now = none ∧ fails = false ∧
      embedCached W cache x now fails =
        (cache.set x.key ⟨W.vectors x.provider x.model x.text, now⟩,
          .computed (W.vectors x.provider x.model x.text))) := by
  rw [embedCached]
  by_cases hnone : x.provider = .none
  · exact .inl ⟨hnone, if_pos hnone⟩
  · rw [if_neg hnone]
    cases hfresh : freshEntry W cache x now with
    | some hit => exact .inr (.inl ⟨hit, hnone, rfl, rfl⟩)
    | none =>
      cases fails with
      | true => exact .inr (.inr (.inl ⟨hnone, rfl, rfl, rfl⟩))
      | false => exact .inr (.inr (.inr ⟨hnone, rfl, rfl, rfl⟩))

theorem computed_eq (h : (embedCached W cache x now fails).2 = .computed vec) :
    x.provider ≠ .none ∧ vec = W.vectors x.provider x.model x.text := by
  rcases embedCached_cases W cache x now fails with
    ⟨-, hrun⟩ | ⟨hit, -, -, hrun⟩ | ⟨-, -, -, hrun⟩ | ⟨hprovider, -, -, hrun⟩
  · rw [hrun] at h; cases h
  · rw [hrun] at h; cases h
  · rw [hrun] at h; cases h
  · rw [hrun] at h
    exact ⟨hprovider, (EmbedAnswer.computed.inj h).symm⟩

theorem cached_eq (h : (embedCached W cache x now fails).2 = .cached vec) :
    x.provider ≠ .none ∧ ∃ hit, cache.get x.key = some hit ∧ hit.vec = vec := by
  rcases embedCached_cases W cache x now fails with
    ⟨-, hrun⟩ | ⟨hit, hprovider, hfresh, hrun⟩ | ⟨-, -, -, hrun⟩ | ⟨-, -, -, hrun⟩
  · rw [hrun] at h; cases h
  · rw [hrun] at h
    exact ⟨hprovider, hit, (Option.filter_eq_some_iff.mp hfresh).1, EmbedAnswer.cached.inj h⟩
  · rw [hrun] at h; cases h
  · rw [hrun] at h; cases h

/-- An entry is one that was there or one that the call has computed. -/
theorem get_run {key : String} {e : EmbedCacheEntry} (h : (call.run W cache).1.get key = some e) :
    cache.get key = some e ∨ ∃ x now fails, call = .embed x now fails ∧ x.key = key ∧
      (call.run W cache).2 = .computed e.vec := by
  cases call with
  | embed x now fails =>
    rcases embedCached_cases W cache x now fails with
      ⟨-, hrun⟩ | ⟨hit, -, -, hrun⟩ | ⟨-, -, -, hrun⟩ | ⟨-, -, -, hrun⟩
    · rw [EmbedCall.run, hrun] at h
      exact .inl h
    · rw [EmbedCall.run, hrun] at h
      exact .inl h
    · rw [EmbedCall.run, hrun] at h
      exact .inl h
    · rw [EmbedCall.run, hrun, OrdMap.get_set] at h
      split_ifs at h with hkey
      · obtain rfl := Option.some.inj h
        exact .inr ⟨x, now, fails, rfl, hkey.symm, by rw [EmbedCall.run, hrun]⟩
      · exact .inl h
  | clearPartition partition =>
    rw [EmbedCall.run, clearEmbedCachePartition, OrdMap.get_filter] at h
    exact .inl (Option.filter_eq_some_iff.mp h).1
  | clear =>
    cases h

/-! ### A sequence of calls -/

theorem cacheAfter_append (calls more : List EmbedCall) :
    cacheAfter W cache (calls ++ more) = cacheAfter W (cacheAfter W cache calls) more :=
  List.foldl_append

/-- Where an entry comes from: it was there before the calls, or one of them has computed it. -/
theorem origin {calls : List EmbedCall} {key : String} {e : EmbedCacheEntry}
    (h : (cacheAfter W cache calls).get key = some e) :
    cache.get key = some e ∨ ∃ since x now fails later, calls = since ++ .embed x now fails :: later ∧
      x.key = key ∧ (embedCached W (cacheAfter W cache since) x now fails).2 = .computed e.vec := by
  induction calls using List.reverseRecOn with
  | nil => exact .inl h
  | append_singleton calls call ih =>
    rw [cacheAfter_append] at h
    rcases get_run h with hbefore | ⟨x, now, fails, rfl, hkey, hcomputed⟩
    · rcases ih hbefore with hcache | ⟨since, x, now, fails, later, rfl, hkey, hcomputed⟩
      · exact .inl hcache
      · exact .inr ⟨since, x, now, fails, later ++ [call], by simp, hkey, hcomputed⟩
    · exact .inr ⟨calls, x, now, fails, [], rfl, hkey, hcomputed⟩

/-- The entries of a partition are gone when it is cleared. -/
theorem get_clearPartition (cache : EmbedCache) {partition : String} (hname : x.partitionName = partition) :
    (clearEmbedCachePartition cache partition).get x.key = none := by
  rw [clearEmbedCachePartition, OrdMap.get_filter, Option.filter_eq_none_iff]
  intro e _
  rw [← hname, isPrefixOf_key]
  simp

/-- What a query is answered from the cache has been computed since its partition was cleared, for a query
    with the same key. -/
theorem computed_since {before middle : List EmbedCall} {partition : String}
    (hname : x.partitionName = partition)
    (h : answerAfter W (before ++ .clearPartition partition :: middle) (.embed x now fails) = .cached vec) :
    ∃ since y now' fails' later, middle = since ++ .embed y now' fails' :: later ∧ y.key = x.key ∧
      answerAfter W (before ++ .clearPartition partition :: since) (.embed y now' fails') = .computed vec := by
  obtain ⟨-, hit, hget, rfl⟩ := cached_eq h
  have hsplit (since : List EmbedCall) :
      cacheAfter W .empty (before ++ .clearPartition partition :: since) =
        cacheAfter W (clearEmbedCachePartition (cacheAfter W .empty before) partition) since := by
    rw [cacheAfter_append]
    rfl
  rw [hsplit] at hget
  rcases origin hget with hthere | ⟨since, y, now', fails', later, rfl, hkey, hcomputed⟩
  · rw [get_clearPartition _ hname] at hthere
    cases hthere
  · refine ⟨since, y, now', fails', later, rfl, hkey, ?_⟩
    rw [answerAfter, hsplit]
    exact hcomputed

/-- A query with the key of the one before it is answered with the vector of that one. -/
theorem cached_of_key_eq {y : EmbedQuery} (hx : x.provider ≠ .none) (hy : y.provider ≠ .none)
    (hkey : x.key = y.key) (httl : less (ofInt 0) W.ttlMs = true) (now : ℤ) :
    answerAfter W [.embed x now false] (.embed y now false) =
      .cached (W.vectors x.provider x.model x.text) := by
  have hcache : cacheAfter W .empty [.embed x now false] =
      (OrdMap.empty : EmbedCache).set x.key ⟨W.vectors x.provider x.model x.text, now⟩ := by
    simp [cacheAfter, EmbedCall.run, embedCached, hx, freshEntry]
  have hfresh : freshEntry W (cacheAfter W .empty [.embed x now false]) y now =
      some ⟨W.vectors x.provider x.model x.text, now⟩ := by
    rw [hcache, freshEntry, ← hkey, OrdMap.get_set_self, Option.filter_some, sub_self, if_pos httl]
  rw [answerAfter, EmbedCall.run, embedCached, if_neg hy, hfresh]

/-- Queries that the key tells apart do not notice the cache. -/
theorem transparent_of_toldApart {asked : Set EmbedQuery} (hasked : ToldApart asked)
    {calls : List EmbedCall} (hcalls : ∀ x now fails, .embed x now fails ∈ calls → x ∈ asked) :
    Transparent W calls where
  faithful before x now fails rest hsplit vec hvec := by
    cases hanswer : answerAfter W before (.embed x now fails) with
    | disabled => rw [hanswer] at hvec; cases hvec
    | failed => rw [hanswer] at hvec; cases hvec
    | computed v =>
      rw [hanswer] at hvec
      obtain rfl : v = vec := Option.some.inj hvec
      exact (computed_eq hanswer).2
    | cached v =>
      rw [hanswer] at hvec
      obtain rfl : v = vec := Option.some.inj hvec
      obtain ⟨hprovider, hit, hget, rfl⟩ := cached_eq hanswer
      rcases origin hget with hempty | ⟨since, y, now', fails', later, rfl, hkey, hcomputed⟩
      · cases hempty
      · obtain ⟨hprovider', hvec'⟩ := computed_eq hcomputed
        obtain ⟨hstart, hhash⟩ := key_eq_iff.mp hkey
        have hx : x ∈ asked := hcalls x now fails (by rw [hsplit]; simp)
        have hy : y ∈ asked := hcalls y now' fails' (by rw [hsplit]; simp)
        obtain ⟨htext, hpartition, heq⟩ := hasked y hy x hx hprovider' hprovider hhash hstart
        rw [hvec', heq, htext, model_eq_of_keyStart hstart hpartition]
  apart x now fails y now' fails' hx hy hprovider hprovider' hkey := by
    obtain ⟨hstart, hhash⟩ := key_eq_iff.mp hkey
    obtain ⟨htext, hpartition, -⟩ := hasked x (hcalls x now fails hx) y (hcalls y now' fails' hy) hprovider
      hprovider' hhash hstart
    exact ⟨htext, hpartition⟩
  cleared before partition middle x now fails rest hsplit hpartition vec hcached := by
    have hname : x.partitionName = partition := by
      rw [EmbedQuery.partitionName, hpartition]
      rfl
    obtain ⟨since, y, now', fails', later, rfl, hkey, hcomputed⟩ := computed_since hname hcached
    obtain ⟨hstart, hhash⟩ := key_eq_iff.mp hkey
    have hx : x ∈ asked := hcalls x now fails (by rw [hsplit]; simp)
    have hy : y ∈ asked := hcalls y now' fails' (by rw [hsplit]; simp)
    obtain ⟨-, hsame, -⟩ :=
      hasked y hy x hx (computed_eq hcomputed).1 (cached_eq hcached).1 hhash hstart
    exact ⟨since, y, now', fails', later, rfl, hsame.trans hpartition, hcomputed⟩

end Run

/-- The cache is not noticed, in any sequence of calls with the queries, exactly if the hash of the text
    and the text before it tell any two of the queries apart. -/
theorem transparent_iff (asked : Set EmbedQuery) :
    (∀ (W : EmbedWorld) (calls : List EmbedCall),
      (∀ x now fails, .embed x now fails ∈ calls → x ∈ asked) → Transparent W calls) ↔
      ToldApart asked := by
  constructor
  · intro hall x hx y hy hprovider hprovider' hhash hstart
    have hkey : x.key = y.key := key_eq_iff.mpr ⟨hstart, hhash⟩
    -- the provider of the first query is the only one with a vector that is not empty
    let W : EmbedWorld :=
      { ttlMs := ofInt 1, vectors := fun provider _ _ => if provider = x.provider then [ofInt 0] else [] }
    have htransparent : Transparent W [.embed x 0 false, .embed y 0 false] := by
      refine hall W _ fun z now fails hz => ?_
      rcases List.mem_cons.mp hz with hz | hz
      · cases hz
        exact hx
      · cases List.mem_singleton.mp hz
        exact hy
    obtain ⟨htext, hpartition⟩ := htransparent.apart x 0 false y 0 false (by simp) (by simp) hprovider
      hprovider' hkey
    have hcached := cached_of_key_eq (W := W) hprovider hprovider' hkey rfl 0
    have hvec := htransparent.faithful [.embed x 0 false] y 0 false [] rfl _ (by rw [hcached]; rfl)
    refine ⟨htext, hpartition, ?_⟩
    by_contra hne
    simp [W, Ne.symm hne] at hvec
  · exact fun hasked W calls hcalls => transparent_of_toldApart hasked hcalls

/-- Two texts of one hash: the second one is answered with the vector of the first. -/
theorem collision_not_transparent : ¬ ∀ (W : EmbedWorld) (calls : List EmbedCall), Transparent W calls := by
  intro hall
  let W : EmbedWorld :=
    { ttlMs := ofInt 3600000, vectors := fun _ _ text => if text = "aa" then [ofInt 1] else [ofInt 0] }
  have hkey : (EmbedQuery.mk "aa" .openai none none).key = (EmbedQuery.mk "bb" .openai none none).key :=
    key_eq_iff.mpr ⟨rfl, by decide +kernel⟩
  have hcached := cached_of_key_eq (W := W) (by decide) (by decide) hkey rfl 0
  have hvec := (hall W [.embed ⟨"aa", .openai, none, none⟩ 0 false, .embed ⟨"bb", .openai, none, none⟩ 0 false]).faithful
    [.embed ⟨"aa", .openai, none, none⟩ 0 false] ⟨"bb", .openai, none, none⟩ 0 false [] rfl _
    (by rw [hcached]; rfl)
  exact absurd hvec (by decide)

end Remembra.Retrieval
