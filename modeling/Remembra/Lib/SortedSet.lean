import Remembra.Lib.OrdMap
import Remembra.Lib.SlidingWindow
import Remembra.Lib.Table

/-! Sorted sets under keys that may expire, as a data-structure server keeps them. A command is run at
    an instant and acts on what stands under its key; a key whose time has come stands for nothing, and
    a set that loses its last member is gone with its expiry.

    A sliding window may be kept in such a set, with the time of an event as its score (`Logs`): removing
    the scores up to `now - w` leaves the young events (`Logs.prune`), and adding an event under a new
    member together with an expiry of the window's width keeps the log (`Logs.charge`). -/

namespace Remembra

/-- The members with their scores, in the order in which they were added, and the time of expiry. -/
structure SortedSet (μ T : Type*) where
  members : OrdMap μ T
  expiresAt : Option T

namespace SortedSet
open SlidingWindow

variable {μ T : Type*} [LinearOrder T]

/-- What a command at `now` finds. -/
def present (now : T) (z : Option (SortedSet μ T)) : Option (SortedSet μ T) :=
  z.filter fun z => z.expiresAt.all (now < ·)

def zremrangebyscore (now lo hi : T) (z : Option (SortedSet μ T)) : Option (SortedSet μ T) :=
  ((present now z).map fun z =>
    { z with members := z.members.filter fun _ score => ¬ (lo ≤ score ∧ score ≤ hi) }).filter
      fun z => ¬ z.members.entries.isEmpty

def zcard (now : T) (z : Option (SortedSet μ T)) : ℕ := (present now z).elim 0 (·.members.size)

/-- The number of members with a score from `lo` on. -/
def zcount (now lo : T) (z : Option (SortedSet μ T)) : ℕ :=
  (present now z).elim 0 fun z => (z.members.filter fun _ score => lo ≤ score).size

/-- Add a member, or give it a new score. -/
def zadd [DecidableEq μ] (now score : T) (member : μ) (z : Option (SortedSet μ T)) :
    Option (SortedSet μ T) :=
  let s := (present now z).getD ⟨.empty, none⟩
  some { s with members := s.members.set member score }

/-- By score, members of one score in their own order. -/
def precedes [LT μ] [DecidableLT μ] (a b : μ × T) : Bool := a.2 < b.2 ∨ a.2 = b.2 ∧ a.1 < b.1

/-- The score of the first member. -/
def zrangeFirst [LT μ] [DecidableLT μ] (now : T) (z : Option (SortedSet μ T)) : Option T :=
  (present now z).bind fun z => (firstMin precedes z.members.entries).map Prod.snd

/-- The scores kept, whether the key has expired or not. -/
def scores (z : Option (SortedSet μ T)) : List T :=
  z.elim [] fun z => z.members.entries.map Prod.snd

/-- The members kept, whether the key has expired or not. -/
def names (z : Option (SortedSet μ T)) : List μ := z.elim [] (·.members.keys)

theorem zcard_eq (now : T) (z : Option (SortedSet μ T)) :
    zcard now z = (scores (present now z)).length := by
  rw [zcard, scores]
  cases present now z with
  | none => rfl
  | some z => exact (List.length_map ..).symm

theorem present_cases (now : T) (z : Option (SortedSet μ T)) :
    present now z = z ∨
      present now z = none ∧ ∃ s, z = some s ∧ ∃ e, s.expiresAt = some e ∧ e ≤ now := by
  cases z with
  | none => exact .inl rfl
  | some s =>
    cases he : s.expiresAt with
    | none => exact .inl (by simp [present, Option.filter, he])
    | some e =>
      by_cases h : now < e
      · exact .inl (by simp [present, Option.filter, he, h])
      · exact .inr ⟨by simp [present, Option.filter, he, h], s, rfl, e, he, le_of_not_gt h⟩

theorem present_eq_some {now : T} {z : Option (SortedSet μ T)} {s : SortedSet μ T} :
    present now z = some s ↔ z = some s ∧ s.expiresAt.all (now < ·) = true := by
  rw [present, Option.filter_eq_some_iff]

/-- The first of members added in the order of their scores has the score added first. -/
theorem firstMin_score [LT μ] [DecidableLT μ] {l : List (μ × T)}
    (hs : (l.map Prod.snd).Pairwise (· ≤ ·)) :
    (firstMin precedes l).map Prod.snd = (l.map Prod.snd).head? := by
  cases l with
  | nil => rfl
  | cons e l =>
    rw [firstMin]
    rcases hl : firstMin precedes l with _ | b
    · rfl
    · have hle : e.2 ≤ b.2 :=
        (List.pairwise_cons.mp hs).1 b.2 (List.mem_map.mpr ⟨b, firstMin_mem hl, rfl⟩)
      dsimp only
      split
      · rename_i hlt
        rcases of_decide_eq_true hlt with hlt | ⟨heq, -⟩
        · exact absurd hlt (not_lt_of_ge hle)
        · exact congrArg some heq
      · rfl

theorem zrangeFirst_eq [LT μ] [DecidableLT μ] (now : T)
    {z : Option (SortedSet μ T)} (hs : (scores z).Pairwise (· ≤ ·)) :
    zrangeFirst now z = (scores (present now z)).head? := by
  rw [zrangeFirst]
  rcases hz : present now z with _ | s
  · rfl
  · obtain ⟨rfl, -⟩ := present_eq_some.mp hz
    exact firstMin_score hs

/-- No command but `zadd` brings a member in. -/
theorem names_present {now : T} {z : Option (SortedSet μ T)} {m : μ} (h : m ∈ names (present now z)) :
    m ∈ names z := by
  rcases present_cases now z with heq | ⟨hnone, -⟩
  · rwa [heq] at h
  · rw [hnone] at h
    cases h

theorem names_zremrangebyscore {now lo hi : T} {z : Option (SortedSet μ T)} {m : μ}
    (h : m ∈ names (zremrangebyscore now lo hi z)) : m ∈ names z := by
  refine @names_present _ _ _ now _ _ ?_
  rw [zremrangebyscore] at h
  rcases hz : present now z with _ | s <;> rw [hz] at h
  · exact h
  · rw [Option.map_some, Option.filter_some] at h
    split at h
    · exact (List.filter_sublist.map Prod.fst).subset h
    · cases h

theorem names_zadd [DecidableEq μ] {now score : T} {member m : μ} {z : Option (SortedSet μ T)}
    (h : m ∈ names (zadd now score member z)) : m ∈ names z ∨ m = member := by
  refine (OrdMap.mem_keys_set h).imp_left fun hm => @names_present _ _ _ now _ _ ?_
  rcases hz : present now z with _ | s <;> rw [hz] at hm <;> exact hm

/-! ### A sliding window kept in a sorted set -/

section Window
variable [AddCommGroup T]

/-- Set the key to expire after `ms`. -/
def pexpire (now ms : T) (z : Option (SortedSet μ T)) : Option (SortedSet μ T) :=
  (present now z).map fun z => { z with expiresAt := some (now + ms) }

/-- The scores are what is young of the history `h`, and maybe more, in order; the key outlives what is
    young. No event came before zero. -/
structure Logs (w now : T) (h : List T) (z : Option (SortedSet μ T)) : Prop where
  sorted : (scores z).Pairwise (· ≤ ·)
  past : ∀ x ∈ scores z, 0 ≤ x ∧ x ≤ now
  live : ∀ t, now ≤ t → SlidingWindow.live w t (scores z) = SlidingWindow.live w t h
  outlives : ∀ s e, z = some s → s.expiresAt = some e → ∀ x ∈ scores z, x + w ≤ e

variable {w now now' : T} {h : List T} {z : Option (SortedSet μ T)}

theorem names_pexpire {ms : T} {m : μ} (h : m ∈ names (pexpire now ms z)) : m ∈ names z := by
  refine @names_present _ _ _ now _ _ ?_
  rw [pexpire] at h
  rcases hz : present now z with _ | s <;> rw [hz] at h <;> exact h

theorem logs_none (hlive : ∀ t, now ≤ t → SlidingWindow.live w t h = []) :
    Logs w now h (none : Option (SortedSet μ T)) where
  sorted := List.Pairwise.nil
  past _ hx := absurd hx List.not_mem_nil
  live t ht := (hlive t ht).symm
  outlives _ _ hs := by cases hs

theorem Logs.later (hl : Logs w now h z) (hle : now ≤ now') : Logs w now' h z :=
  { hl with
    past := fun x hx => ⟨(hl.past x hx).1, (hl.past x hx).2.trans hle⟩
    live := fun t ht => hl.live t (hle.trans ht) }

variable [IsOrderedAddMonoid T]

/-- A key that has expired only held what was old. -/
theorem Logs.present (hl : Logs w now h z) : Logs w now h (present now z) := by
  rcases present_cases now z with heq | ⟨hnone, s, rfl, e, he, hexpired⟩
  · rw [heq]
    exact hl
  · rw [hnone]
    refine logs_none fun t ht => ?_
    rw [← hl.live t ht]
    refine List.filter_eq_nil_iff.mpr fun x hx => ?_
    rw [decide_eq_true_eq, not_lt, le_sub_iff_add_le, add_comm]
    exact ((hl.outlives s e rfl he x hx).trans hexpired).trans ht

/-- Removing the scores up to `now - w` leaves what is young, and keeps the log. -/
theorem Logs.prune (hl : Logs w now h z) :
    scores (SortedSet.present now (zremrangebyscore now 0 (now - w) z)) =
      SlidingWindow.live w now h ∧
    Logs w now h (zremrangebyscore now 0 (now - w) z) := by
  have hp := hl.present
  rw [zremrangebyscore]
  rcases hz : SortedSet.present now z with _ | s
  · rw [hz] at hp
    exact ⟨hp.live now le_rfl, hp⟩
  · rw [hz] at hp
    have hscores : (s.members.filter fun _ score => ¬ (0 ≤ score ∧ score ≤ now - w)).entries.map
        Prod.snd = SlidingWindow.live w now h := by
      rw [← hp.live now le_rfl, SlidingWindow.live]
      simp only [scores, Option.elim_some, OrdMap.filter, List.filter_map]
      congr 1
      refine List.filter_congr fun e he => Bool.eq_iff_iff.mpr ?_
      have hnonneg : 0 ≤ e.2 := (hp.past e.2 (List.mem_map.mpr ⟨e, he, rfl⟩)).1
      simp only [decide_eq_true_eq, Function.comp_apply, hnonneg, true_and, not_le, sub_lt_comm]
    have halive := (present_eq_some.mp hz).2
    have hyoung : Logs w now h (some { s with
        members := s.members.filter fun _ score => ¬ (0 ≤ score ∧ score ≤ now - w) }) := by
      have hsub : ∀ x ∈ SlidingWindow.live w now h, x ∈ scores (some s) := by
        intro x hx
        rw [← hp.live now le_rfl] at hx
        exact (List.mem_filter.mp hx).1
      refine ⟨?_, fun x hx => ?_, fun t ht => ?_, fun s' e hs he x hx => ?_⟩
      · change List.Pairwise _ (List.map _ _)
        rw [hscores, ← hp.live now le_rfl]
        exact hp.sorted.filter _
      · change x ∈ List.map _ _ at hx
        rw [hscores] at hx
        exact hp.past x (hsub x hx)
      · change SlidingWindow.live w t (List.map _ _) = _
        rw [hscores, live_live ht]
      · cases hs
        change x ∈ List.map _ _ at hx
        rw [hscores] at hx
        exact hp.outlives s e rfl he x (hsub x hx)
    rw [Option.map_some, Option.filter_some]
    split
    · refine ⟨?_, hyoung⟩
      rw [SortedSet.present, Option.filter_some, if_pos halive]
      exact hscores
    · rename_i hempty
      have hnil : SlidingWindow.live w now h = [] := by
        rw [← hscores, List.map_eq_nil_iff]
        simpa using hempty
      refine ⟨hnil.symm, logs_none fun t ht => ?_⟩
      rw [← live_live ht, hnil, live_nil]

variable [DecidableEq μ]

/-- Adding an event under a new member, and an expiry of the window's width. -/
theorem Logs.charge (hl : Logs w now h z) (hnow : 0 ≤ now) {member : μ}
    (hnew : member ∉ names z) : Logs w now (h ++ [now]) (pexpire now w (zadd now now member z)) := by
  have hp := hl.present
  -- the set the member is added to
  obtain ⟨s, hs, halive, hscores, hkeys⟩ : ∃ s : SortedSet μ T,
      (SortedSet.present now z).getD ⟨.empty, none⟩ = s ∧ s.expiresAt.all (now < ·) = true ∧
        s.members.entries.map Prod.snd = scores (SortedSet.present now z) ∧
          member ∉ s.members.keys := by
    rcases hz : SortedSet.present now z with _ | s
    · exact ⟨⟨.empty, none⟩, rfl, rfl, rfl, List.not_mem_nil⟩
    · obtain ⟨hsome, halive⟩ := present_eq_some.mp hz
      exact ⟨s, rfl, halive, rfl, by rwa [hsome] at hnew⟩
  have hcharged : pexpire now w (zadd now now member z) =
      some ⟨s.members.set member now, some (now + w)⟩ := by
    have hadded : zadd now now member z = some ⟨s.members.set member now, s.expiresAt⟩ := by
      rw [zadd, hs]
    have hpresent : SortedSet.present now
        (some (⟨s.members.set member now, s.expiresAt⟩ : SortedSet μ T)) =
          some ⟨s.members.set member now, s.expiresAt⟩ := present_eq_some.mpr ⟨rfl, halive⟩
    rw [pexpire, hadded, hpresent]
    rfl
  have hafter : scores (some ⟨s.members.set member now, some (now + w)⟩) =
      scores (SortedSet.present now z) ++ [now] := by
    rw [scores, Option.elim_some, OrdMap.entries_set_of_new hkeys, List.map_append, hscores]
    rfl
  rw [hcharged]
  refine ⟨?_, fun x hx => ?_, fun t ht => ?_, fun s' e hs' he x hx => ?_⟩
  · rw [hafter]
    refine List.pairwise_append.mpr ⟨hp.sorted, List.pairwise_singleton _ _, fun x hx y hy => ?_⟩
    rw [List.mem_singleton.mp hy]
    exact (hp.past x hx).2
  · rw [hafter] at hx
    rcases List.mem_append.mp hx with hx | hx
    · exact hp.past x hx
    · rw [List.mem_singleton.mp hx]
      exact ⟨hnow, le_rfl⟩
  · rw [hafter, live_append, live_append, hp.live t ht]
  · cases hs'
    cases he
    rw [hafter] at hx
    refine add_le_add_left ?_ w
    rcases List.mem_append.mp hx with hx | hx
    · exact (hp.past x hx).2
    · exact le_of_eq (List.mem_singleton.mp hx)

end Window

end SortedSet
end Remembra
