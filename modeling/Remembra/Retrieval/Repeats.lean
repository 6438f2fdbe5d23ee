import Remembra.Lib.Firsts
import Remembra.Retrieval.Duplicates

/-! What duplicate suppression leaves out of its window. It keeps the first memory of each text; where it
    looks at the source as well it keeps the first of each text and source, so that the wish to collapse
    more brings texts back that the other option alone would have collapsed. -/

namespace Remembra.Retrieval
open Store (Memory)
open Firsts (Split split push prior Apart)

section Window
variable (P : Platform) (sameSource : Bool)

/-- The key of the map that counts. -/
def pairKey (m : Memory) : String := sourceKey m ++ "\x00" ++ duplicateKey P m

/-- What a memory is told apart by: nothing where its text is empty. -/
def repeatTag (m : Memory) : Option String :=
  if duplicateKey P m = "" then none else some (if sameSource then pairKey P m else duplicateKey P m)

/-- How a memory that is left out is reported. -/
def reported (r : Memory × Memory) : Removal :=
  ⟨r.1.id, r.2.id, if sameSource then "same_source" else "exact"⟩

variable {P sameSource} {m : Memory} {ranked l : List Memory} {st : DedupState} {s : Split Memory}

theorem repeatTag_eq_none : repeatTag P sameSource m = none ↔ duplicateKey P m = "" := by
  rw [repeatTag]
  split <;> simp_all

variable (P sameSource st s) in
/-- The maps of the run hold the first memory of each tag. -/
structure Follows : Prop where
  kept : st.kept = s.kept
  removed : st.removed = s.repeats.map (reported sameSource)
  text : sameSource = false → ∀ t, t ≠ "" →
    st.seenText.get t = s.kept.find? fun k => repeatTag P sameSource k = some t
  pair : sameSource = true → ∀ t,
    st.seenTextAndSource.get t = s.kept.find? fun k => repeatTag P sameSource k = some t

theorem find?_kept_concat {t : String} :
    ((s.kept ++ [m]).find? fun k => repeatTag P sameSource k = some t) =
      (s.kept.find? fun k => repeatTag P sameSource k = some t).or
        (if repeatTag P sameSource m = some t then some m else none) := by
  rw [List.find?_append, List.find?_singleton]
  by_cases htag : repeatTag P sameSource m = some t
  · simp only [htag, decide_true, if_true]
  · simp only [htag, decide_false, Bool.false_eq_true, if_false]

/-- A memory is looked up by its tag, and kept where none has it. -/
theorem follows_dedupeOne (h : Follows P sameSource st s) :
    Follows P sameSource (dedupeOne P sameSource st m) (push (repeatTag P sameSource) s m) := by
  by_cases hempty : duplicateKey P m = ""
  · have htag : repeatTag P sameSource m = none := repeatTag_eq_none.mpr hempty
    have hpush : push (repeatTag P sameSource) s m = { s with kept := s.kept ++ [m] } := by
      simp only [push, prior, htag, if_true]
    have hone : dedupeOne P sameSource st m = { st with kept := st.kept ++ [m] } := by
      simp only [dedupeOne, hempty, if_true]
    rw [hpush, hone]
    refine ⟨by rw [h.kept], h.removed, fun hsource t ht => ?_, fun hsource t => ?_⟩
    · rw [find?_kept_concat, htag, h.text hsource t ht]
      simp
    · rw [find?_kept_concat, htag, h.pair hsource t]
      simp
  · have hprior (t : String) (ht : repeatTag P sameSource m = some t) :
        prior (repeatTag P sameSource) s.kept m =
          s.kept.find? fun k => repeatTag P sameSource k = some t := by
      rw [prior, if_neg (by rw [ht]; exact Option.some_ne_none t), ht]
    cases sameSource with
    | false =>
      have htag : repeatTag P false m = some (duplicateKey P m) := by simp [repeatTag, hempty]
      have hfound := h.text rfl _ hempty
      rw [push, hprior _ htag, ← hfound]
      cases hget : st.seenText.get (duplicateKey P m) with
      | some k =>
        have hone : dedupeOne P false st m =
            { st with removed := st.removed ++ [⟨m.id, k.id, "exact"⟩] } := by
          simp [dedupeOne, hempty, hget]
        rw [hone]
        exact ⟨h.kept, by simp [h.removed, reported], h.text, h.pair⟩
      | none =>
        have hone : dedupeOne P false st m =
            { st with seenText := st.seenText.set (duplicateKey P m) m, kept := st.kept ++ [m] } := by
          simp [dedupeOne, hempty, hget]
        rw [hone]
        refine ⟨by rw [h.kept], h.removed, fun _ t ht => ?_, (fun hsource => by cases hsource)⟩
        rw [find?_kept_concat, htag, OrdMap.get_set, ← h.text rfl t ht]
        by_cases hsame : t = duplicateKey P m
        · rw [hsame, hget]
          simp
        · simp [hsame, Ne.symm hsame]
    | true =>
      have htag : repeatTag P true m = some (pairKey P m) := by simp [repeatTag, hempty]
      have hfound := h.pair rfl (pairKey P m)
      rw [push, hprior _ htag, ← hfound]
      cases hget : st.seenTextAndSource.get (pairKey P m) with
      | some k =>
        have hone : dedupeOne P true st m =
            { st with removed := st.removed ++ [⟨m.id, k.id, "same_source"⟩] } := by
          rw [pairKey] at hget
          simp [dedupeOne, hempty, hget]
        rw [hone]
        exact ⟨h.kept, by simp [h.removed, reported], h.text, h.pair⟩
      | none =>
        have hone : (dedupeOne P true st m).kept = st.kept ++ [m] ∧
            (dedupeOne P true st m).removed = st.removed ∧
            (dedupeOne P true st m).seenTextAndSource = st.seenTextAndSource.set (pairKey P m) m := by
          rw [pairKey] at hget
          simp [dedupeOne, hempty, hget, pairKey]
        obtain ⟨hkept, hremoved, hpair⟩ := hone
        refine ⟨by rw [hkept, h.kept], by rw [hremoved, h.removed], (fun hsource => by cases hsource),
          fun _ t => ?_⟩
        rw [hpair, find?_kept_concat, htag, OrdMap.get_set, ← h.pair rfl t]
        by_cases hsame : t = pairKey P m
        · rw [hsame, hget]
          simp
        · simp [hsame, Ne.symm hsame]

variable (P sameSource) in
theorem follows_run (l : List Memory) :
    Follows P sameSource (l.foldl (dedupeOne P sameSource) {}) (split (repeatTag P sameSource) l) := by
  induction l using List.reverseRecOn with
  | nil => exact ⟨rfl, rfl, fun _ _ _ => rfl, fun _ _ => rfl⟩
  | append_singleton l m ih =>
    rw [List.foldl_append, List.foldl_cons, List.foldl_nil, Firsts.split_concat]
    exact follows_dedupeOne ih

end Window

/-! ### The laws -/

section Laws
variable (P : Platform) (exact sameSource : Bool) (window : ℕ) (ranked : List Memory)

/-- The memories that the pass looks at. -/
def windowOf : List Memory := ranked.take (max 1 window)

/-- What a pass keeps is in the order of the ranking, and with what it removes it is the ranking; each
    removal names a memory that is kept before it and has its text; where exact duplicates are to go, no
    two memories of the window have one text, and to look at the source as well brings nothing back; and a
    second pass removes nothing of the window. -/
structure DedupeLaws : Prop where
  order : (dedupeResults P exact sameSource window ranked).memories.Sublist ranked
  all : ((dedupeResults P exact sameSource window ranked).memories.map (·.id) ++
    (dedupeResults P exact sameSource window ranked).removed.map (·.id)).Perm (ranked.map (·.id))
  named : ∀ r ∈ (dedupeResults P exact sameSource window ranked).removed, ∃ before k between m after,
    ranked = before ++ k :: (between ++ m :: after) ∧ m.id = r.id ∧ k.id = r.keptId ∧
      k ∈ (dedupeResults P exact sameSource window ranked).memories ∧
      duplicateKey P k = duplicateKey P m ∧ duplicateKey P m ≠ ""
  distinct : exact = true → ∀ a ∈ (dedupeResults P exact sameSource window ranked).memories,
    ∀ b ∈ (dedupeResults P exact sameSource window ranked).memories, a ∈ windowOf window ranked →
      b ∈ windowOf window ranked → a.id ≠ b.id → duplicateKey P a ≠ "" →
        duplicateKey P a ≠ duplicateKey P b
  further : exact = true → sameSource = true →
    ∀ id ∈ (dedupeResults P true false window ranked).removed.map (·.id),
      id ∈ (dedupeResults P exact sameSource window ranked).removed.map (·.id)
  again : ∀ r ∈ (dedupeResults P exact sameSource window
    (dedupeResults P exact sameSource window ranked).memories).removed,
      r.id ∉ (windowOf window ranked).map (·.id)

/-- Memories of the window with one text have one source, and no source runs into the text after it. -/
structure OneSource : Prop where
  source : exact = true → ∀ a ∈ windowOf window ranked, ∀ b ∈ windowOf window ranked,
    duplicateKey P a ≠ "" → duplicateKey P a = duplicateKey P b → sourceKey a = sourceKey b
  text : ∀ a ∈ windowOf window ranked, ∀ b ∈ windowOf window ranked, duplicateKey P a ≠ "" →
    duplicateKey P b ≠ "" → pairKey P a = pairKey P b → duplicateKey P a = duplicateKey P b

variable {P exact sameSource window ranked} {a b m : Memory}

theorem repeatTag_false (h : duplicateKey P m ≠ "") :
    repeatTag P false m = some (duplicateKey P m) := by
  simp [repeatTag, h]

theorem repeatTag_true (h : duplicateKey P m ≠ "") : repeatTag P true m = some (pairKey P m) := by
  simp [repeatTag, h]

theorem sourceKey_eq_of_pairKey (h : pairKey P a = pairKey P b) (hkey : duplicateKey P a = duplicateKey P b) :
    sourceKey a = sourceKey b := by
  have hchars := congrArg String.toList h
  simp only [pairKey, String.toList_append, hkey] at hchars
  exact String.toList_injective (List.append_cancel_right (List.append_cancel_right hchars))

variable (window ranked) in
/-- A pass that collapses something keeps the first of each tag in the window. -/
theorem dedupeResults_eq (h : (exact || sameSource) = true) :
    dedupeResults P exact sameSource window ranked =
      ⟨(split (repeatTag P sameSource) (windowOf window ranked)).kept ++ ranked.drop (max 1 window),
        (split (repeatTag P sameSource) (windowOf window ranked)).repeats.map (reported sameSource)⟩ := by
  have hnot : (!exact && !sameSource) = false := by rw [← Bool.not_or, h, Bool.not_true]
  have hrun := follows_run P sameSource (windowOf window ranked)
  rw [dedupeResults, hnot, if_neg Bool.false_ne_true, ← hrun.kept, ← hrun.removed]
  rfl

theorem dedupeResults_off (h : (exact || sameSource) = false) :
    dedupeResults P exact sameSource window ranked = ⟨ranked, []⟩ := by
  have hnot : (!exact && !sameSource) = true := by rw [← Bool.not_or, h, Bool.not_false]
  rw [dedupeResults, hnot, if_pos rfl]

/-- Two memories of a ranking with one id are one. -/
theorem eq_of_id (hids : (ranked.map (·.id)).Nodup) (ha : a ∈ ranked) (hb : b ∈ ranked)
    (h : a.id = b.id) : a = b :=
  List.inj_on_of_nodup_map hids ha hb h

variable (window ranked) in
theorem window_append : windowOf window ranked ++ ranked.drop (max 1 window) = ranked :=
  List.take_append_drop ..

theorem mem_of_mem_window (h : a ∈ windowOf window ranked) : a ∈ ranked := List.mem_of_mem_take h

/-- What is past the window is none of the window. -/
theorem not_mem_window (hids : (ranked.map (·.id)).Nodup) (h : a ∈ ranked.drop (max 1 window)) :
    a.id ∉ (windowOf window ranked).map (·.id) := by
  rw [← window_append window ranked, List.map_append] at hids
  exact fun hmem => List.disjoint_of_nodup_append hids hmem (List.mem_map_of_mem h)

/-- A second pass over what is kept looks at nothing of the window that it could remove. -/
theorem removed_again (hids : (ranked.map (·.id)).Nodup) :
    ∀ r ∈ (dedupeResults P exact sameSource window
      (dedupeResults P exact sameSource window ranked).memories).removed,
        r.id ∉ (windowOf window ranked).map (·.id) := by
  cases hon : exact || sameSource with
  | false =>
    rw [dedupeResults_off hon, dedupeResults_off hon]
    exact fun r hr => by cases hr
  | true =>
    intro r hr
    rw [dedupeResults_eq _ _ hon] at hr
    obtain ⟨x, hx, rfl⟩ := List.mem_map.mp hr
    have hwindow : windowOf window (dedupeResults P exact sameSource window ranked).memories =
        (split (repeatTag P sameSource) (windowOf window ranked)).kept ++ (ranked.drop (max 1 window)).take
          (max 1 window - (split (repeatTag P sameSource) (windowOf window ranked)).kept.length) := by
      have hlength : (split (repeatTag P sameSource) (windowOf window ranked)).kept.length ≤ max 1 window :=
        (Firsts.kept_sublist _ _).length_le.trans (List.length_take_le _ _)
      rw [dedupeResults_eq _ _ hon, windowOf, List.take_append, List.take_of_length_le hlength]
    rw [hwindow] at hx
    have hpast := (Firsts.repeats_again _ _).subset (List.mem_map_of_mem hx)
    exact not_mem_window hids (List.mem_of_mem_take hpast)

/-- Where the window's texts have one source, the pair tells memories apart as the text does. -/
theorem tags_alike (h : OneSource P true window ranked) :
    split (repeatTag P true) (windowOf window ranked) = split (repeatTag P false) (windowOf window ranked) := by
  refine Firsts.split_congr (fun a _ => by rw [repeatTag_eq_none, repeatTag_eq_none]) fun a ha b hb => ?_
  by_cases hna : duplicateKey P a = ""
  · rw [repeatTag_eq_none.mpr hna, repeatTag_eq_none.mpr hna, eq_comm, repeatTag_eq_none, eq_comm (a := none),
      repeatTag_eq_none]
  · by_cases hnb : duplicateKey P b = ""
    · rw [repeatTag_eq_none.mpr hnb, repeatTag_eq_none.mpr hnb, repeatTag_eq_none, repeatTag_eq_none]
    · rw [repeatTag_true hna, repeatTag_true hnb, repeatTag_false hna, repeatTag_false hnb,
        Option.some.injEq, Option.some.injEq]
      exact ⟨h.text a ha b hb hna hnb, fun hkey => by
        rw [pairKey, pairKey, hkey, h.source rfl a ha b hb hna hkey]⟩

theorem dedupeLaws_of_oneSource (hids : (ranked.map (·.id)).Nodup)
    (h : sameSource = true → OneSource P exact window ranked) :
    DedupeLaws P exact sameSource window ranked := by
  cases hon : exact || sameSource with
  | false =>
    obtain ⟨rfl, rfl⟩ := Bool.or_eq_false_iff.mp hon
    exact {
      order := dedupeResults_memories_sublist
      all := dedupeResults_perm
      named := fun r hr => by
        rw [dedupeResults_off rfl] at hr
        cases hr
      distinct := fun hexact => by cases hexact
      further := fun hexact => by cases hexact
      again := removed_again hids }
  | true =>
    have hkey : ∀ a ∈ windowOf window ranked, ∀ b ∈ windowOf window ranked,
        repeatTag P sameSource a = repeatTag P sameSource b → repeatTag P sameSource b ≠ none →
          duplicateKey P a = duplicateKey P b := by
      intro a ha b hb hsame hne
      have hnb : duplicateKey P b ≠ "" := mt repeatTag_eq_none.mpr hne
      have hna : duplicateKey P a ≠ "" := mt repeatTag_eq_none.mpr (hsame.trans_ne hne)
      cases sameSource with
      | false =>
        rw [repeatTag_false hna, repeatTag_false hnb] at hsame
        exact Option.some.inj hsame
      | true =>
        rw [repeatTag_true hna, repeatTag_true hnb] at hsame
        exact (h rfl).text a ha b hb hna hnb (Option.some.inj hsame)
    refine ⟨dedupeResults_memories_sublist, dedupeResults_perm, ?_, ?_, ?_, removed_again hids⟩
    · rw [dedupeResults_eq _ _ hon]
      intro r hr
      obtain ⟨x, hx, rfl⟩ := List.mem_map.mp hr
      obtain ⟨before, between, after, hwindow, hk, hsame, hne⟩ := Firsts.repeats_spec hx
      refine ⟨before, x.2, between, x.1, after ++ ranked.drop (max 1 window), ?_, rfl, rfl,
        List.mem_append_left _ hk, hkey x.2 ((Firsts.kept_sublist _ _).subset hk) x.1 ?_ hsame hne,
        mt repeatTag_eq_none.mpr hne⟩
      · have hranked := window_append window ranked
        rw [hwindow] at hranked
        simpa only [List.append_assoc, List.cons_append] using hranked.symm
      · rw [hwindow]
        simp
    · intro hexact a ha b hb hwa hwb hne hna hsame
      rw [dedupeResults_eq _ _ hon] at ha hb
      have hin {x : Memory} (hx : x ∈ (split (repeatTag P sameSource) (windowOf window ranked)).kept ++
          ranked.drop (max 1 window)) (hw : x ∈ windowOf window ranked) :
          x ∈ (split (repeatTag P sameSource) (windowOf window ranked)).kept :=
        (List.mem_append.mp hx).resolve_right fun hpast =>
          not_mem_window hids hpast (List.mem_map_of_mem hw)
      have htag : repeatTag P sameSource a = repeatTag P sameSource b := by
        have hnb : duplicateKey P b ≠ "" := hsame.symm.trans_ne hna
        cases sameSource with
        | false => rw [repeatTag_false hna, repeatTag_false hnb, hsame]
        | true =>
          rw [repeatTag_true hna, repeatTag_true hnb, pairKey, pairKey, hsame,
            (h rfl).source hexact a hwa b hwb hna hsame]
      exact hne (congrArg (·.id) (Firsts.eq_of_tag (Firsts.kept_apart _) (hin ha hwa) (hin hb hwb) htag
        (mt repeatTag_eq_none.mp hna)))
    · rintro rfl rfl id hid
      rw [dedupeResults_eq _ _ rfl, ← tags_alike (h rfl)] at hid
      rw [dedupeResults_eq _ _ rfl]
      rw [List.map_map] at hid ⊢
      exact hid

/-- What a kept memory of the same tag says of a memory of the window. -/
theorem key_eq_of_kept (hids : (ranked.map (·.id)).Nodup) (h : DedupeLaws P exact true window ranked)
    {k : Memory} (hk : k ∈ (split (repeatTag P true) (windowOf window ranked)).kept)
    (ha : a ∈ windowOf window ranked) (hsame : repeatTag P true k = repeatTag P true a)
    (hna : duplicateKey P a ≠ "") : duplicateKey P k = duplicateKey P a := by
  have hne : repeatTag P true a ≠ none := mt repeatTag_eq_none.mp hna
  have hperm := Firsts.split_perm (repeatTag P true) (windowOf window ranked)
  rcases List.mem_append.mp (hperm.mem_iff.mpr ha) with hkept | hrepeats
  · rw [Firsts.eq_of_tag (Firsts.kept_apart _) hk hkept hsame (hsame.trans_ne hne)]
  · obtain ⟨x, hx, rfl⟩ := List.mem_map.mp hrepeats
    obtain ⟨-, -, -, -, hk', hsame', -⟩ := Firsts.repeats_spec hx
    have hkeeper : x.2 = k := Firsts.eq_of_tag (Firsts.kept_apart _) hk' hk (hsame'.trans hsame.symm)
      (hsame'.trans_ne hne)
    have hremoved : reported true x ∈ (dedupeResults P exact true window ranked).removed := by
      rw [dedupeResults_eq _ _ (Bool.or_true exact)]
      exact List.mem_map_of_mem hx
    obtain ⟨before, k₀, between, m₀, after, hranked, hm₀, hk₀, -, hkeys, -⟩ := h.named _ hremoved
    have hin : k₀ ∈ ranked ∧ m₀ ∈ ranked := by
      rw [hranked]
      simp
    have hfirst : k₀ = k := eq_of_id hids hin.1 (mem_of_mem_window ((Firsts.kept_sublist _ _).subset hk))
      (hk₀.trans (congrArg (·.id) hkeeper))
    have hsecond : m₀ = x.1 := eq_of_id hids hin.2 (mem_of_mem_window ha) hm₀
    rw [← hfirst, ← hsecond, hkeys]

theorem oneSource_of_dedupeLaws (hids : (ranked.map (·.id)).Nodup)
    (h : DedupeLaws P exact true window ranked) : OneSource P exact window ranked := by
  constructor
  · intro hexact a ha b hb hna hsame
    have hnb : duplicateKey P b ≠ "" := hsame.symm.trans_ne hna
    obtain ⟨ka, hka, hta⟩ := Firsts.exists_kept (repeatTag P true) ha
    obtain ⟨kb, hkb, htb⟩ := Firsts.exists_kept (repeatTag P true) hb
    have hkeya := key_eq_of_kept hids h hka ha hta hna
    have hkeyb := key_eq_of_kept hids h hkb hb htb hnb
    have hwindow {k : Memory} (hk : k ∈ (split (repeatTag P true) (windowOf window ranked)).kept) :
        k ∈ (dedupeResults P exact true window ranked).memories ∧ k ∈ windowOf window ranked := by
      rw [dedupeResults_eq _ _ (Bool.or_true exact)]
      exact ⟨List.mem_append_left _ hk, (Firsts.kept_sublist _ _).subset hk⟩
    have hone : ka = kb := by
      by_contra hne
      have hidne : ka.id ≠ kb.id := fun hid => hne
        (eq_of_id hids (mem_of_mem_window (hwindow hka).2) (mem_of_mem_window (hwindow hkb).2) hid)
      exact h.distinct hexact ka (hwindow hka).1 kb (hwindow hkb).1 (hwindow hka).2 (hwindow hkb).2 hidne
        (hkeya.trans_ne hna) (by rw [hkeya, hkeyb, hsame])
    have htags : repeatTag P true a = repeatTag P true b := by rw [← hta, ← htb, hone]
    rw [repeatTag_true hna, repeatTag_true hnb] at htags
    exact sourceKey_eq_of_pairKey (Option.some.inj htags) hsame
  · intro a ha b hb hna hnb hpair
    have htags : repeatTag P true a = repeatTag P true b := by
      rw [repeatTag_true hna, repeatTag_true hnb, hpair]
    obtain ⟨k, hk, hka⟩ := Firsts.exists_kept (repeatTag P true) ha
    exact (key_eq_of_kept hids h hk ha hka hna).symm.trans
      (key_eq_of_kept hids h hk hb (hka.trans htags) hnb)

end Laws

/-- Two notes of one text, by hand and from a conversation. -/
def corroborated : List Memory :=
  [plainMemory "a" "The port is 80." "global",
    { plainMemory "b" "The port is 80." "global" with provenance := { sourceType := .conversation } }]

end Remembra.Retrieval
