/-
What `update` and `search` do to the frecency table.

* `updateTable_visited` — the three outcomes of a visit: the entry of the path is
  counted up, a new one is added, or a new one takes the place of an entry
  with the smallest rank;
* `update_invariant` — these, and that over a run of visits a score counts the
  visits since the entry was inserted;
* `search_best` — `search` finds the first entry of the largest rank, among
  those that match in the last component if there are any.
-/
import Mathlib.Tactic.Linarith
import Mathlib.Tactic.NormNum
import Mathlib.Tactic.Positivity
import CshellXv6.Lib.Counter
import CshellXv6.Lib.RunningMax
import CshellXv6.Lib.Transition
import CshellXv6.Shell.Frecency

namespace Cshell

open RunningMax

/-! ### Ranks -/

section Rank

variable {now : Int64} {e : Element}

/-- The denominator of a rank. -/
theorem one_le_age (h : e.stamp ≤ now) :
    1 ≤ ((now.toInt - e.stamp.toInt : ℤ) : ℚ) / 12813 / 11 + 1 := by
  have hage : (0 : ℤ) ≤ now.toInt - e.stamp.toInt := by
    have := Int64.le_iff_toInt_le.mp h
    omega
  have hage' : (0 : ℚ) ≤ ((now.toInt - e.stamp.toInt : ℤ) : ℚ) := by exact_mod_cast hage
  have hdiv : (0 : ℚ) ≤ ((now.toInt - e.stamp.toInt : ℤ) : ℚ) / 12813 / 11 := by positivity
  linarith

/-- A rank is below the sentinel of `update`. -/
theorem rank_lt (h : e.stamp ≤ now) : rank now e < DBL_MAX := by
  have hden := one_le_age h
  have hmax : (2 : ℚ) ^ 31 < DBL_MAX := by
    have hpow : (1 : ℚ) ≤ 2 ^ 971 := one_le_pow₀ (by norm_num)
    have hmul : (2 ^ 53 - 1 : ℚ) ≤ (2 ^ 53 - 1) * 2 ^ 971 := le_mul_of_one_le_right (by norm_num) hpow
    have hlt : (2 : ℚ) ^ 31 < 2 ^ 53 - 1 := by norm_num
    exact lt_of_lt_of_le hlt hmul
  -- a rank is at most its score, or not positive
  by_cases hs : 0 ≤ e.score.toInt
  · have hs' : (0 : ℚ) ≤ (e.score.toInt : ℚ) := by exact_mod_cast hs
    have hlt : (e.score.toInt : ℚ) < 2 ^ 31 := by exact_mod_cast e.score.toInt_lt
    have hle : rank now e ≤ (e.score.toInt : ℚ) := div_le_self hs' hden
    linarith
  · have hs' : (e.score.toInt : ℚ) ≤ 0 := by
      have : e.score.toInt ≤ 0 := by omega
      exact_mod_cast this
    have hle : rank now e ≤ 0 := div_nonpos_of_nonpos_of_nonneg hs' (by linarith)
    linarith

/-- The rank of a positive score is above the sentinel of `search`. -/
theorem rank_gt (h : e.stamp ≤ now) (hs : 0 < e.score.toInt) : -1 < rank now e := by
  have hden := one_le_age h
  have hs' : (0 : ℚ) < (e.score.toInt : ℚ) := by exact_mod_cast hs
  have hpos : 0 < rank now e := div_pos hs' (by linarith)
  linarith

end Rank

/-! ### A visit -/

/-- The key of the loop of the load, for an entry and its index. -/
def minKey (now : Int64) (x : Element × ℕ) : ℚ := -rank now x.1

/-- The loop of the load is a running maximum of the negated ranks. -/
theorem loadMin_eq (now : Int64) (minRank : ℚ) (arg : Option (Element × ℕ)) (d count : ℕ)
    (t : List Element) :
    loadMin now minRank ((arg.map Prod.snd).getD d) count t =
      ((runningMax (minKey now) (-minRank) arg (t.zipIdx count)).map
        Prod.snd).getD d := by
  induction t generalizing minRank arg count with
  | nil => rfl
  | cons e t ih =>
    rw [List.zipIdx_cons, loadMin, runningMax]
    by_cases hlt : rank now e < minRank
    · have hkey : -minRank < minKey now (e, count) := neg_lt_neg hlt
      rw [if_pos hlt, if_pos hkey]
      exact ih (rank now e) (some (e, count)) (count + 1)
    · have hkey : ¬ -minRank < minKey now (e, count) := fun h => hlt (neg_lt_neg_iff.mp h)
      rw [if_neg hlt, if_neg hkey]
      exact ih minRank arg (count + 1)

/-- The index kept by the load is that of an entry with the smallest rank. -/
theorem loadMin_spec {now : Int64} {t : List Element} (hne : t ≠ [])
    (hs : ∀ e ∈ t, e.stamp ≤ now) :
    ∃ l e r, t = l ++ e :: r ∧ loadMin now DBL_MAX 0 0 t = l.length ∧
      ∀ x ∈ t, rank now e ≤ rank now x := by
  have hkey : ∀ x ∈ t.zipIdx, -DBL_MAX < minKey now x := by
    intro x hx
    exact neg_lt_neg (rank_lt (hs x.1 (List.fst_mem_of_mem_zipIdx hx)))
  -- the running maximum of the negated ranks, over the entries with their indices
  obtain ⟨⟨e, i⟩, hmax, hfirst⟩ := runningMax_firstMax hkey (by simpa using hne)
  have hload := loadMin_eq now DBL_MAX none 0 0 t
  rw [hmax] at hload
  obtain ⟨l, r, hlr, -, -⟩ := id hfirst
  have hi : t[l.length]?.map (fun a => (a, 0 + l.length)) = some (e, i) := by
    rw [← List.getElem?_zipIdx, hlr]
    simp
  obtain ⟨e', he', heq⟩ := Option.map_eq_some_iff.mp hi
  cases heq
  have ht : t = l.map Prod.fst ++ e :: r.map Prod.fst := by
    have := congrArg (List.map Prod.fst) hlr
    rwa [List.map_append, List.map_cons, List.zipIdx_map_fst] at this
  refine ⟨l.map Prod.fst, e, r.map Prod.fst, ht, ?_, ?_⟩
  · rw [List.length_map]
    simpa using hload
  · intro x hx
    obtain ⟨k, hk⟩ := List.getElem?_of_mem hx
    have hmem : (x, k) ∈ t.zipIdx := by
      refine List.mem_of_getElem? (i := k) ?_
      rw [List.getElem?_zipIdx, hk]
      simp
    have hle := hfirst.le hmem
    rw [minKey, minKey, neg_le_neg_iff] at hle
    exact hle

/-- The outcomes of a visit: an entry is counted up in its place, a new one is added at
the end, or a new one takes the place of one with the smallest rank. -/
inductive Visited (now : Int64) (path : Str) (t t' : List Element) : Prop
  | bump {l r : List Element} {e : Element} {s : Int32} : t = l ++ e :: r → e.path = path →
      s.toInt = e.score.toInt + 1 → t' = l ++ ⟨path, s, now⟩ :: r → Visited now path t t'
  | append : path ∉ t.map Element.path → t.length < 100 → t' = t ++ [⟨path, 1, now⟩] →
      Visited now path t t'
  | evict {l r : List Element} {e : Element} : path ∉ t.map Element.path → t.length = 100 →
      t = l ++ e :: r → (∀ x ∈ t, rank now e ≤ rank now x) →
      t' = l ++ ⟨path, 1, now⟩ :: r → Visited now path t t'

/-- The score of the path is not the largest `int`. -/
def CanCount (t : List Element) (path : Str) : Prop :=
  ∀ e ∈ t, e.path = path → e.score ≠ Int32.maxValue

instance (t : List Element) (path : Str) : Decidable (CanCount t path) :=
  inferInstanceAs (Decidable (∀ e ∈ t, e.path = path → e.score ≠ Int32.maxValue))

/-- **The outcomes of `update`.** -/
theorem updateTable_visited {now : Int64} {path : Str} {t : List Element} (hlen : t.length ≤ 100)
    (hs : ∀ e ∈ t, e.stamp ≤ now) (hc : CanCount t path) :
    Visited now path t (updateTable now path t) := by
  unfold updateTable
  cases hf : t.findIdx? (·.path = path) with
  | some found =>
    obtain ⟨hlt, hp, -⟩ := List.findIdx?_eq_some_iff_getElem.mp hf
    have hcut : t = t.take found ++ t[found] :: t.drop (found + 1) := by
      rw [← List.drop_eq_getElem_cons hlt, List.take_append_drop]
    have hpath : t[found].path = path := by simpa using hp
    refine .bump hcut hpath (Counter.toInt_add_one (hc _ (List.getElem_mem hlt) hpath)) ?_
    -- the entry is changed in its place
    show t.modify found _ = _
    rw [List.modify_eq_take_cons_drop hlt, hpath]
  | none =>
    have habs : path ∉ t.map Element.path := by
      intro hm
      obtain ⟨e, he, rfl⟩ := List.mem_map.mp hm
      simpa using List.findIdx?_eq_none_iff.mp hf e he
    by_cases hfull : t.length < 100
    · refine .append habs hfull ?_
      simp only [if_pos hfull]
    · have h100 : t.length = 100 := by omega
      have hne : t ≠ [] := by
        rintro rfl
        cases h100
      obtain ⟨l, e, r, ht, hmin, hrank⟩ := loadMin_spec hne hs
      refine .evict habs h100 ht hrank ?_
      simp only [if_neg hfull, hmin]
      conv_lhs => rw [ht]
      rw [List.set_append_right _ _ (Nat.le_refl _), Nat.sub_self, List.set_cons_zero]

section Visited

variable {now : Int64} {path : Str} {t t' : List Element}

theorem Visited.length_le (h : Visited now path t t') (hlen : t.length ≤ 100) : t'.length ≤ 100 := by
  cases h with
  | bump ht hp hsc ht' =>
    rw [ht] at hlen
    rw [ht']
    simpa using hlen
  | append ha hl ht' =>
    rw [ht', List.length_append, List.length_singleton]
    omega
  | evict ha hl ht hr ht' =>
    rw [ht] at hlen
    rw [ht']
    simpa using hlen

/-- Replacing an entry by one with a path that no other entry has. -/
theorem nodup_replace {l r : List Element} {e x : Element}
    (h : ((l ++ e :: r).map Element.path).Nodup) (hx : x.path ∉ (l ++ r).map Element.path) :
    ((l ++ x :: r).map Element.path).Nodup := by
  rw [List.map_append, List.map_cons, List.nodup_middle] at h ⊢
  rw [← List.map_append] at h ⊢
  exact List.nodup_cons.mpr ⟨hx, (List.nodup_cons.mp h).2⟩

theorem Visited.nodup (h : Visited now path t t') (hn : (t.map Element.path).Nodup) :
    (t'.map Element.path).Nodup := by
  cases h with
  | bump ht hp hsc ht' =>
    rw [ht] at hn
    rw [ht']
    refine nodup_replace hn ?_
    rw [List.map_append, List.map_cons, List.nodup_middle, ← List.map_append] at hn
    rw [← hp]
    exact (List.nodup_cons.mp hn).1
  | append ha hl ht' =>
    rw [ht', List.map_append, List.nodup_append]
    refine ⟨hn, by simp, ?_⟩
    intro a hm b hb
    rw [List.map_singleton, List.mem_singleton] at hb
    rintro rfl
    rw [hb] at hm
    exact ha hm
  | evict ha hl ht hr ht' =>
    rw [ht] at hn ha
    rw [ht']
    refine nodup_replace hn fun hm => ha ?_
    rw [List.map_append, List.mem_append] at hm
    rw [List.map_append, List.map_cons, List.mem_append, List.mem_cons]
    rcases hm with hm | hm
    · exact .inl hm
    · exact .inr (.inr hm)

/-- An entry after a visit is that of the path, or was there before under another
path. -/
theorem Visited.mem_cases (h : Visited now path t t') (hn : (t.map Element.path).Nodup)
    {x : Element} (hx : x ∈ t') :
    (x = ⟨path, 1, now⟩ ∧ path ∉ t.map Element.path) ∨
      (∃ e ∈ t, e.path = path ∧ x.path = path ∧ x.score.toInt = e.score.toInt + 1) ∨
      (x ∈ t ∧ x.path ≠ path) := by
  cases h with
  | @bump l r e s ht hp hsc ht' =>
    rw [ht'] at hx
    rw [ht, List.map_append, List.map_cons, List.nodup_middle, ← List.map_append] at hn
    have hne : ∀ y ∈ l ++ r, y.path ≠ path := by
      intro y hy he
      exact (List.nodup_cons.mp hn).1 (List.mem_map.mpr ⟨y, hy, he.trans hp.symm⟩)
    rw [List.mem_append, List.mem_cons] at hx
    rcases hx with hx | rfl | hx
    · exact .inr (.inr ⟨by rw [ht]; simp [hx], hne x (List.mem_append_left r hx)⟩)
    · exact .inr (.inl ⟨e, by rw [ht]; simp, hp, rfl, hsc⟩)
    · exact .inr (.inr ⟨by rw [ht]; simp [hx], hne x (List.mem_append_right l hx)⟩)
  | append ha hl ht' =>
    rw [ht', List.mem_append, List.mem_singleton] at hx
    rcases hx with hx | rfl
    · exact .inr (.inr ⟨hx, fun he => ha (List.mem_map.mpr ⟨x, hx, he⟩)⟩)
    · exact .inl ⟨rfl, ha⟩
  | evict ha hl ht hr ht' =>
    rw [ht', List.mem_append, List.mem_cons] at hx
    have hold : x ∈ t → x.path ≠ path := fun hm he => ha (List.mem_map.mpr ⟨x, hm, he⟩)
    rcases hx with hx | rfl | hx
    · have hm : x ∈ t := by rw [ht]; simp [hx]
      exact .inr (.inr ⟨hm, hold hm⟩)
    · exact .inl ⟨rfl, ha⟩
    · have hm : x ∈ t := by rw [ht]; simp [hx]
      exact .inr (.inr ⟨hm, hold hm⟩)

/-- Where the score is the largest `int` there is no such outcome. -/
theorem Visited.canCount (h : Visited now path t t') (hn : (t.map Element.path).Nodup) :
    CanCount t path := by
  intro x hx hpx hmax
  cases h with
  | @bump l r e s ht hp hsc ht' =>
    have he : e ∈ t := by rw [ht]; simp
    have hxe : x = e := List.inj_on_of_nodup_map hn hx he (hpx.trans hp.symm)
    rw [← hxe, hmax] at hsc
    have hlt := s.toInt_lt
    rw [hsc] at hlt
    exact absurd hlt (by decide)
  | append ha hl ht' => exact ha (List.mem_map.mpr ⟨x, hx, hpx⟩)
  | evict ha hl ht hr ht' => exact ha (List.mem_map.mpr ⟨x, hx, hpx⟩)

end Visited

/-! ### Runs of visits -/

/-- Visits one after the other, at times no stored stamp is later than. -/
def visits : Sys (List Element) (Str × Int64) where
  init t := t = []
  step t v := if ∀ e ∈ t, e.stamp ≤ v.2 then some (updateTable v.2 v.1 t) else none

/-- A visit of a run, and whether it found no entry. -/
structure Visit where
  path : Str
  isNew : Bool
  deriving DecidableEq

/-- The record of a visit. -/
def visitLog (t : List Element) (v : Str × Int64) : List Visit :=
  [⟨v.1, v.1 ∉ t.map Element.path⟩]

/-- The visits of a path since it was last inserted, that one included. -/
def visitsSince (path : Str) : List Visit → ℕ
  | [] => 0
  | v :: vs =>
    if v.path = path then if v.isNew then 1 else visitsSince path vs + 1
    else visitsSince path vs

/-- What holds of a table and the visits that led to it. -/
structure Counts (t : List Element) (vs : List Visit) : Prop where
  length : t.length ≤ 100
  nodup : (t.map Element.path).Nodup
  score : ∀ e ∈ t, e.score.toInt = visitsSince e.path vs

theorem Counts.visit {t t' : List Element} {vs : List Visit} {path : Str} {now : Int64}
    (h : Counts t vs) (hv : Visited now path t t') :
    Counts t' (visitLog t (path, now) ++ vs) := by
  refine ⟨hv.length_le h.length, hv.nodup h.nodup, ?_⟩
  intro x hx
  rcases hv.mem_cases h.nodup hx with ⟨rfl, hnew⟩ | ⟨e, he, hp, hpx, hsc⟩ | ⟨hm, hne⟩
  -- inserted now, counted up, or not visited
  · simp [visitLog, visitsSince, hnew]
  · have hold : path ∈ t.map Element.path := List.mem_map.mpr ⟨e, he, hp⟩
    have hscore := h.score e he
    rw [hp] at hscore
    rw [hsc, hscore, hpx]
    simp [visitLog, visitsSince, hold]
  · have hne' : path ≠ x.path := fun he => hne he.symm
    simpa [visitLog, visitsSince, hne'] using h.score x hm

/-- The runs in which no visit finds a score that is the largest `int`. -/
def countedVisits : Sys (List Element) (Str × Int64) := visits.restrict fun t v => CanCount t v.1

theorem counts_of_reachable {x : List Element × List Visit}
    (h : (countedVisits.logged visitLog).Reachable x) : Counts x.1 x.2 := by
  refine Sys.logged_invariant countedVisits (I := Counts) ?_ ?_ h
  · rintro t rfl
    exact ⟨by simp, by simp, by simp⟩
  · intro t vs v t' _ hI hs
    obtain ⟨hc, hs⟩ := visits.restrict_step.mp hs
    simp only [visits] at hs
    split at hs
    case isTrue hstamp =>
      cases hs
      exact hI.visit (updateTable_visited hI.length hstamp hc)
    case isFalse => cases hs

/-- **The frecency table under visits**: for a table of at most 100 entries with
distinct paths, a visit leaves such a table, in which the path has the current
time and its score is one more than before, or 1 for a new entry, and the
others are as they were, unless the table was full and the path new, when one
with the smallest rank is replaced; this exactly if the score of the path was
not the largest `int`.  Over every run of such visits from the empty table a
score is the number of visits since the entry was inserted. -/
theorem update_invariant {now : Int64} {path : Str} {t : List Element} (hlen : t.length ≤ 100)
    (hn : (t.map Element.path).Nodup) (hs : ∀ e ∈ t, e.stamp ≤ now) :
    ((Visited now path t (updateTable now path t) ∧ (updateTable now path t).length ≤ 100 ∧
        ((updateTable now path t).map Element.path).Nodup) ↔ CanCount t path) ∧
    ∀ x : List Element × List Visit, (countedVisits.logged visitLog).Reachable x →
      ∀ e ∈ x.1, e.score.toInt = visitsSince e.path x.2 := by
  refine ⟨⟨?_, ?_⟩, fun x hx => (counts_of_reachable hx).score⟩
  · rintro ⟨hv, -, -⟩
    exact hv.canCount hn
  · intro hc
    have hv := updateTable_visited hlen hs hc
    exact ⟨hv, hv.length_le hlen, hv.nodup hn⟩

/-- A first visit to `/b`, and the run that visits `/a`, `/b` and `/a` again. -/
theorem update_visit_again :
    Visited 5 "/b".toList [⟨"/a".toList, 2, 3⟩] (updateTable 5 "/b".toList [⟨"/a".toList, 2, 3⟩]) ∧
      ∃ x, (countedVisits.logged visitLog).Reachable x ∧
        x.1 = [⟨"/a".toList, 2, 7⟩, ⟨"/b".toList, 1, 6⟩] ∧
        ∀ e ∈ x.1, e.score.toInt = visitsSince e.path x.2 := by
  obtain ⟨x, hx, ht⟩ := Sys.exists_of_run (countedVisits.logged visitLog)
    [("/a".toList, 5), ("/b".toList, 6), ("/a".toList, 7)]
    (p := fun x => x.1 = [⟨"/a".toList, 2, 7⟩, ⟨"/b".toList, 1, 6⟩])
    (.init (s := ([], [])) ⟨rfl, rfl⟩) (by decide +kernel)
  obtain ⟨hiff, hrun⟩ := @update_invariant 5 "/b".toList [⟨"/a".toList, 2, 3⟩] (by decide) (by decide)
    (by decide)
  exact ⟨(hiff.mpr (by decide)).1, x, hx, ht, hrun x hx⟩

/-- The largest score: the next visit makes it negative. -/
theorem score_overflows :
    updateTable 1 "/a".toList [⟨"/a".toList, 2147483647, 0⟩] = [⟨"/a".toList, -2147483648, 1⟩] ∧
      ¬ Visited 1 "/a".toList [⟨"/a".toList, 2147483647, 0⟩]
        (updateTable 1 "/a".toList [⟨"/a".toList, 2147483647, 0⟩]) := by
  refine ⟨by decide +kernel, ?_⟩
  intro hv
  have hc := hv.canCount (by decide)
  exact absurd hc (by decide)

/-! ### Searches -/

section Search

variable (now : Int64) (isDir : Str → Bool) (query : Str)

/-- The rows of existing directories whose path has the query in it. -/
def matching (t : List Element) : List Element :=
  t.filter fun e => query <:+: e.path ∧ isDir e.path = true

/-- Those that have it in the last component. -/
def baseMatching (t : List Element) : List Element :=
  t.filter fun e => query <:+: lastComponent e.path ∧ isDir e.path = true

theorem lastComponent_suffix (path : Str) : lastComponent path <:+ path :=
  List.reverse_prefix.mp (by simpa [lastComponent] using List.takeWhile_prefix _)

/-- The loop on its first two variables. -/
theorem searchRow_base (s : Search) (e : Element) :
    keepBest (rank now) (fun e => query <:+: lastComponent e.path ∧ isDir e.path = true)
        Element.path (s.maxRank, s.matched) e =
      ((searchRow now isDir query s e).maxRank, (searchRow now isDir query s e).matched) := by
  unfold keepBest searchRow
  by_cases hm : query <:+: e.path ∧ isDir e.path = true
  · by_cases hb : query <:+: lastComponent e.path ∧ s.maxRank < rank now e
    · have hk : decide (query <:+: lastComponent e.path ∧ isDir e.path = true) = true ∧
          s.maxRank < rank now e := ⟨decide_eq_true ⟨hb.1, hm.2⟩, hb.2⟩
      rw [if_pos hk, if_pos hm]
      dsimp only
      rw [if_pos hb]
      split
      · rfl
      · rfl
    · have hk : ¬ (decide (query <:+: lastComponent e.path ∧ isDir e.path = true) = true ∧
          s.maxRank < rank now e) := fun h => hb ⟨(of_decide_eq_true h.1).1, h.2⟩
      rw [if_neg hk, if_pos hm]
      dsimp only
      rw [if_neg hb]
      split
      · rfl
      · rfl
  · have hk : ¬ (decide (query <:+: lastComponent e.path ∧ isDir e.path = true) = true ∧
        s.maxRank < rank now e) := by
      intro h
      obtain ⟨hb, hd⟩ := of_decide_eq_true h.1
      exact hm ⟨hb.trans (lastComponent_suffix e.path).isInfix, hd⟩
    rw [if_neg hk, if_neg hm]

/-- The loop on the other two. -/
theorem searchRow_bk (s : Search) (e : Element) :
    keepBest (rank now) (fun e => query <:+: e.path ∧ isDir e.path = true) Element.path
        (s.maxRankBk, s.matchedBk) e =
      ((searchRow now isDir query s e).maxRankBk, (searchRow now isDir query s e).matchedBk) := by
  unfold keepBest searchRow
  by_cases hm : query <:+: e.path ∧ isDir e.path = true
  · rw [if_pos hm]
    dsimp only
    by_cases hb : query <:+: lastComponent e.path ∧ s.maxRank < rank now e
    · rw [if_pos hb]
      by_cases hlt : s.maxRankBk < rank now e
      · rw [if_pos ⟨decide_eq_true hm, hlt⟩, if_pos hlt]
      · rw [if_neg fun h => hlt h.2, if_neg hlt]
    · rw [if_neg hb]
      by_cases hlt : s.maxRankBk < rank now e
      · rw [if_pos ⟨decide_eq_true hm, hlt⟩, if_pos hlt]
      · rw [if_neg fun h => hlt h.2, if_neg hlt]
  · rw [if_neg fun h => hm (of_decide_eq_true h.1), if_neg hm]

/-- The loop as two running maxima. -/
theorem searchTable_eq (t : List Element) :
    searchTable now isDir query t =
      ((runningMax (rank now) (-1) none (baseMatching isDir query t)).map Element.path).or
        ((runningMax (rank now) (-1) none (matching isDir query t)).map Element.path) := by
  have hbase := @foldl_keepBest Element ℚ _ (rank now) Str
    (fun e => query <:+: lastComponent e.path ∧ isDir e.path = true) Element.path (-1) none t
  have hbk := @foldl_keepBest Element ℚ _ (rank now) Str
    (fun e => query <:+: e.path ∧ isDir e.path = true) Element.path (-1) none t
  have hfold : t.foldl _ ((-1 : ℚ), (none : Option Str)) = _ :=
    @List.foldl_hom _ _ _ (fun s : Search => (s.maxRank, s.matched)) _ _ t {}
      (searchRow_base now isDir query)
  have hfoldBk : t.foldl _ ((-1 : ℚ), (none : Option Str)) = _ :=
    @List.foldl_hom _ _ _ (fun s : Search => (s.maxRankBk, s.matchedBk)) _ _ t {}
      (searchRow_bk now isDir query)
  rw [Option.map_none, hfold] at hbase
  rw [Option.map_none, hfoldBk] at hbk
  exact congrArg₂ Option.or hbase hbk

variable {now isDir query}

theorem mem_matching {t : List Element} {e : Element} :
    e ∈ matching isDir query t ↔ e ∈ t ∧ query <:+: e.path ∧ isDir e.path = true := by
  simp [matching]

theorem mem_of_mem_baseMatching {t : List Element} {e : Element} (h : e ∈ baseMatching isDir query t) :
    e ∈ matching isDir query t := by
  obtain ⟨he, hp⟩ := List.mem_filter.mp h
  obtain ⟨hb, hd⟩ := of_decide_eq_true hp
  exact mem_matching.mpr ⟨he, hb.trans (lastComponent_suffix e.path).isInfix, hd⟩

/-- **What `search` returns**, for every table with positive scores and no stamp later
than the current time: a path if and only if some row is an existing directory
with the query in its path; and then that of the first row of the largest
rank, among those with the query in the last component if there are any. -/
theorem search_best {t : List Element} (hstamp : ∀ e ∈ t, e.stamp ≤ now)
    (hscore : ∀ e ∈ t, 0 < e.score.toInt) :
    ((searchTable now isDir query t).isSome = true ↔
      ∃ e ∈ t, query <:+: e.path ∧ isDir e.path = true) ∧
    ∀ path, searchTable now isDir query t = some path → ∃ e, e.path = path ∧
      FirstMax (rank now) (if baseMatching isDir query t = [] then matching isDir query t
        else baseMatching isDir query t) e := by
  have hkey : ∀ e ∈ matching isDir query t, -1 < rank now e := by
    intro e he
    have ht := (mem_matching.mp he).1
    exact rank_gt (hstamp e ht) (hscore e ht)
  have hex : (∃ e ∈ t, query <:+: e.path ∧ isDir e.path = true) ↔ matching isDir query t ≠ [] := by
    constructor
    · rintro ⟨e, he⟩
      exact List.ne_nil_of_mem (mem_matching.mpr he)
    · intro hne
      obtain ⟨e, he⟩ := List.exists_mem_of_ne_nil _ hne
      exact ⟨e, mem_matching.mp he⟩
  rw [searchTable_eq, hex]
  -- the first of the two maxima decides if it has anything to go over
  by_cases hb : baseMatching isDir query t = []
  · rw [if_pos hb, hb]
    by_cases hm : matching isDir query t = []
    · rw [hm]
      refine ⟨⟨?_, fun h => absurd rfl h⟩, ?_⟩
      · intro h
        cases h
      · intro path h
        cases h
    · obtain ⟨e, hrun, hfirst⟩ := runningMax_firstMax hkey hm
      rw [hrun]
      refine ⟨⟨fun _ => hm, fun _ => rfl⟩, ?_⟩
      intro path h
      cases h
      exact ⟨e, rfl, hfirst⟩
  · obtain ⟨e, hrun, hfirst⟩ :=
      runningMax_firstMax (fun e he => hkey e (mem_of_mem_baseMatching he)) hb
    have hm : matching isDir query t ≠ [] :=
      List.ne_nil_of_mem (mem_of_mem_baseMatching hfirst.mem)
    rw [if_neg hb, hrun]
    refine ⟨⟨fun _ => hm, fun _ => rfl⟩, ?_⟩
    intro path h
    cases h
    exact ⟨e, rfl, hfirst⟩

/-- A match in the last component wins over one with a larger rank. -/
theorem search_prefers_base :
    searchTable 10 (fun _ => true) "b".toList
        [⟨"/b/c".toList, 9, 10⟩, ⟨"/b".toList, 2, 10⟩, ⟨"/a/ab".toList, 2, 10⟩] = some "/b".toList ∧
      ∃ e : Element, e.path = "/b".toList ∧
        FirstMax (rank 10) [⟨"/b".toList, 2, 10⟩, ⟨"/a/ab".toList, 2, 10⟩] e := by
  have hres : searchTable 10 (fun _ => true) "b".toList
      [⟨"/b/c".toList, 9, 10⟩, ⟨"/b".toList, 2, 10⟩, ⟨"/a/ab".toList, 2, 10⟩] =
        some "/b".toList := by
    decide +kernel
  exact ⟨hres, (search_best (by decide) (by decide)).2 _ hres⟩

end Search

end Cshell
