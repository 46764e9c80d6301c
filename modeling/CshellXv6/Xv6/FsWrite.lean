/-
Writing to a file.

`writei` goes from block to block, and may stop at each: when the disk is full,
or when a byte of the source cannot be read.  What it does up to there, and which
blocks it gives to the log, is carried through the loop.

* `Fs.Written` — what the loop has done when it ends;
* `Fs.writei_spec` — the call on the list of the file's bytes;
* `Fs.cost` — how many blocks a write may give to the log.
-/
import CshellXv6.Xv6.FsFiles

namespace Xv6

namespace Fs

open Words

variable {sb : Superblock} {s s' : Fs} {i off n tot k : ℕ} {src : ℕ → Option UInt8}

/-- The bytes of the list up to the first that is not there. -/
theorem takeWhile_isSome_spec (l : List (Option UInt8)) :
    ((l.takeWhile Option.isSome).filterMap id).length ≤ l.length ∧
    (∀ j (hj : j < ((l.takeWhile Option.isSome).filterMap id).length),
      l[j]? = some (some ((l.takeWhile Option.isSome).filterMap id)[j])) ∧
    (((l.takeWhile Option.isSome).filterMap id).length < l.length →
      l[((l.takeWhile Option.isSome).filterMap id).length]? = some none) := by
  induction l with
  | nil => exact ⟨le_rfl, fun j hj => absurd hj (Nat.not_lt_zero j), fun h => absurd h (by decide)⟩
  | cons o l ih =>
    cases o with
    | none =>
      exact ⟨Nat.zero_le _, fun j hj => absurd hj (Nat.not_lt_zero j), fun _ => rfl⟩
    | some x =>
      obtain ⟨hle, hget, hstop⟩ := ih
      have hcons : (((some x :: l).takeWhile Option.isSome).filterMap id) =
          x :: (l.takeWhile Option.isSome).filterMap id := rfl
      rw [hcons]
      refine ⟨Nat.succ_le_succ hle, fun j hj => ?_, fun h => ?_⟩
      · cases j with
        | zero => rfl
        | succ j => exact hget j (Nat.lt_of_succ_lt_succ hj)
      · exact hstop (Nat.lt_of_succ_lt_succ h)

/-- `either_copyin` copies the bytes up to the first that cannot be read. -/
theorem copyin_spec (src : ℕ → Option UInt8) (tot m : ℕ) : (copyin src tot m).length ≤ m ∧
    (∀ j (hj : j < (copyin src tot m).length), src (tot + j) = some (copyin src tot m)[j]) ∧
    ((copyin src tot m).length < m → src (tot + (copyin src tot m).length) = none) := by
  obtain ⟨hle, hget, hstop⟩ := takeWhile_isSome_spec ((List.range m).map fun j => src (tot + j))
  rw [List.length_map, List.length_range] at hle hstop
  have hidx : ∀ j, j < m →
      ((List.range m).map fun j => src (tot + j))[j]? = some (src (tot + j)) := by
    intro j hj
    rw [List.getElem?_map, List.getElem?_range hj, Option.map_some]
  refine ⟨hle, fun j hj => ?_, fun h => ?_⟩
  · have hj' := hget j hj
    rw [hidx j (lt_of_lt_of_le hj hle)] at hj'
    exact Option.some_inj.mp hj'
  · have hj' : ((List.range m).map fun j => src (tot + j))[(copyin src tot m).length]? =
        some none := hstop h
    rw [hidx _ h] at hj'
    exact Option.some_inj.mp hj'

/-! ### How much is logged -/

/-- The blocks that `d` bytes are on. -/
def turns (d : ℕ) : ℕ := (d + (BSIZE - 1)) / BSIZE

/-- A bound on the blocks logged for `d` bytes at `a`, the indirect block apart:
two for each block of the file, one for a first block that is there. -/
def cost (a d : ℕ) : ℕ :=
  if d = 0 then 0 else if a % BSIZE = 0 then 2 * turns d else 1 + 2 * turns (d - 1)

/-- The blocks logged for one block of the file. -/
def turnLogs (sb : Superblock) (old new : ℕ) : List ℕ :=
  if old = 0 then [new, sb.BBLOCK new] else [new]

theorem mem_turnLogs {old c : ℕ} (new : ℕ) (hc : c ∈ freshLogs sb old new) :
    c ∈ turnLogs sb old new := by
  unfold freshLogs at hc
  unfold turnLogs
  split at hc
  · rename_i hz
    rw [if_pos hz]
    exact hc
  · exact absurd hc List.not_mem_nil

theorem cost_turn (sb : Superblock) {d m a old : ℕ} (new : ℕ) (hd : 0 < d)
    (hgap : a % BSIZE ≠ 0 → old ≠ 0) (hm : m = min d (BSIZE - a % BSIZE)) :
    (turnLogs sb old new).length + cost (a + m) (d - m) ≤ cost a d := by
  have hlen : (turnLogs sb old new).length = if old = 0 then 2 else 1 := by
    unfold turnLogs
    split <;> rfl
  rw [hlen]
  unfold cost turns
  unfold BSIZE at *
  split_ifs <;> omega

theorem cost_le {a d : ℕ} (h : d ≤ 3 * BSIZE) : cost a d ≤ 7 := by
  unfold cost turns
  unfold BSIZE at *
  split
  · omega
  · split <;> omega

/-! ### The loop -/

/-- The loop of `writei` ends at `r`, having written up to `w`. -/
structure Written (sb : Superblock) (s s' : Fs) (i : ℕ) (src : ℕ → Option UInt8)
    (off n tot r w : ℕ) : Prop where
  le : tot ≤ r ∧ r ≤ w ∧ w ≤ n
  inv : Inv sb s'
  wrote : Wrote s s' i (off + tot) (off + w) fun p => (src (p - off)).getD 0
  near : w < r + BSIZE
  read : ∀ j, tot ≤ j → j < w → src j ≠ none
  stop : r = n ∨ (w < n ∧ src w = none) ∨ (r = w ∧ Full sb s')
  logs : ∃ bs, bs.length ≤ cost (off + tot) (n - tot) ∧ Logs s s' (bs ++ indirectLogs sb s' i)

theorem near_self (r : ℕ) : r < r + BSIZE := Nat.lt_add_of_pos_right (by decide)

theorem Written.refl (h : Inv sb s) (hn : tot = n) : Written sb s s i src off n tot tot tot := by
  refine ⟨⟨le_rfl, le_rfl, hn.le⟩, h, (Grows.refl s i).wrote _ _, near_self tot,
    fun j hj hj' => by omega, .inl hn, ?_⟩
  exact ⟨[], Nat.zero_le _, .refl s _⟩

theorem indirectLogs_subset (sb : Superblock) {i a b : ℕ} {f : ℕ → UInt8} (h : Wrote s s' i a b f) :
    ∀ c ∈ indirectLogs sb s i, c ∈ indirectLogs sb s' i := by
  intro c hc
  unfold indirectLogs at hc ⊢
  split at hc
  · exact absurd hc List.not_mem_nil
  · rename_i hs
    rw [h.slot i _ hs, if_neg hs]
    exact hc

/-- One turn, the rest of the loop behind it. -/
theorem Written.turn {s₁ s₂ : Fs} {bs : List ℕ} {m r w : ℕ}
    (hw : Wrote s s₁ i (off + tot) (off + (tot + m)) fun p => (src (p - off)).getD 0)
    (hread : ∀ j, tot ≤ j → j < tot + m → src j ≠ none)
    (hlogs : Logs s s₁ (bs ++ indirectLogs sb s₁ i))
    (hcost : bs.length + cost (off + tot + m) (n - tot - m) ≤ cost (off + tot) (n - tot))
    (h : Written sb s₁ s₂ i src off n (tot + m) r w) : Written sb s s₂ i src off n tot r w := by
  obtain ⟨hle, hrw, hwn⟩ := h.le
  refine ⟨⟨by omega, hrw, hwn⟩, h.inv, hw.trans h.wrote (by omega) (by omega), h.near,
    fun j hj hjw => ?_, h.stop, ?_⟩
  · by_cases hjm : j < tot + m
    · exact hread j hj hjm
    · exact h.read j (by omega) hjw
  · obtain ⟨cs, hcs, hlogs'⟩ := h.logs
    rw [← Nat.add_assoc, ← Nat.sub_sub] at hcs
    refine ⟨bs ++ cs, by rw [List.length_append]; omega, (hlogs.trans hlogs').mono fun c hc => ?_⟩
    have hsub := indirectLogs_subset sb h.wrote c
    simp only [List.mem_append] at hc ⊢
    tauto

/-- The piece that a turn writes into the block `r` that `bmap` found. -/
theorem Mapped.piece {s₁ : Fs} {r m : ℕ} (src : ℕ → Option UInt8) (hm : m = chunk off n tot)
    (hmap : Mapped sb s s₁ i ((off + tot) / BSIZE) r) (hr : r ≠ 0) :
    ∃ s₂, (s₁.setData r (splice (s₁.data r) ((off + tot) % BSIZE) (copyin src tot m))).logWrite r =
        s₂ ∧ Inv sb s₂ ∧
      Wrote s s₂ i (off + tot) (off + (tot + (copyin src tot m).length))
        (fun p => (src (p - off)).getD 0) ∧
      Logs s s₂ (turnLogs sb (slot s i (slotOf ((off + tot) / BSIZE))) r ++ indirectLogs sb s₂ i) ∧
      slot s₂ i (slotOf ((off + tot) / BSIZE)) ≠ 0 := by
  obtain ⟨hslot, -⟩ : r = slot s₁ i (slotOf ((off + tot) / BSIZE)) ∧ r ≠ 0 :=
    hmap.block.resolve_left fun hc => hr hc.1
  obtain ⟨hlen, hget, -⟩ := copyin_spec src tot m
  have hdiv := Nat.div_add_mod' (off + tot) BSIZE
  have hfits := chunk_fits off n tot
  rw [← hm] at hfits
  have hbytes : ∀ l (hl : l < (copyin src tot m).length), (copyin src tot m)[l] =
      (fun p => (src (p - off)).getD 0)
        ((off + tot) / BSIZE * BSIZE + (off + tot) % BSIZE + l) := by
    intro l hl
    show _ = (src ((off + tot) / BSIZE * BSIZE + (off + tot) % BSIZE + l - off)).getD 0
    have hidx : (off + tot) / BSIZE * BSIZE + (off + tot) % BSIZE + l - off = tot + l := by omega
    rw [hidx, hget l hl, Option.getD_some]
  have hx : (off + tot) % BSIZE + (copyin src tot m).length ≤ BSIZE := by omega
  have hne : slot s₁ i (slotOf ((off + tot) / BSIZE)) ≠ 0 := hslot ▸ hr
  obtain ⟨hinv, hwrote⟩ := hmap.inv.wrote
    (f := fun p => (src (p - off)).getD 0) hne hx hbytes
  rw [← hslot, hdiv, Nat.add_assoc off tot] at hwrote
  rw [← hslot] at hinv
  refine ⟨_, rfl, hinv, ((hmap.grows.wrote (off + tot) _).trans hwrote le_rfl (by omega)),
    fun c hc => ?_, ?_⟩
  · have hc' : c = r ∨ c ∈ s₁.logged := List.mem_cons.mp hc
    have hsub := indirectLogs_subset sb hwrote c
    obtain rfl | hc' := hc'
    · refine .inr (List.mem_append_left _ ?_)
      unfold turnLogs
      split <;> exact List.mem_cons_self
    · refine (hmap.logs c hc').imp id fun hmem => ?_
      exact List.mem_append.mpr ((List.mem_append.mp hmem).imp (mem_turnLogs r) hsub)
  · rw [hwrote.slot i _ hne]
    exact hne

/-- **The loop of `writei`**, from wherever it has come to. -/
theorem writeLoop_spec (src : ℕ → Option UInt8) (h : Inv sb s) (hi : (s.inode i).type ≠ 0)
    (hmax : off + n ≤ MAXFILE * BSIZE) (htot : tot ≤ n) (hk : n - tot ≤ k)
    (hgap : (off + tot) % BSIZE ≠ 0 → there s i (off + tot)) :
    ∃ r w s', writeLoop sb i src off n k tot s = some (r, s') ∧
      Written sb s s' i src off n tot r w := by
  induction k generalizing tot s with
  | zero => exact ⟨_, _, _, rfl, .refl h (by omega)⟩
  | succ k ih =>
    rw [writeLoop]
    by_cases hlt : tot < n
    · rw [if_pos hlt]
      obtain ⟨r, s₁, he, hmap⟩ := bmap_spec h hi (lt_maxfile (p := off + tot) (by omega))
      rw [he]
      by_cases hr : r = 0
      · -- the disk is full
        subst hr
        have hfull : Full sb s₁ := (hmap.block.resolve_right fun hc => hc.2 rfl).2
        refine ⟨tot, tot, s₁, rfl, ⟨le_rfl, le_rfl, htot⟩, hmap.inv, hmap.grows.wrote _ _,
          near_self tot, fun j hj hj' => by omega, .inr (.inr ⟨rfl, hfull⟩), ?_⟩
        refine ⟨turnLogs sb (slot s i (slotOf ((off + tot) / BSIZE))) 0, ?_, hmap.logs.mono ?_⟩
        · have := cost_turn sb 0 (Nat.sub_pos_of_lt hlt) hgap rfl
          omega
        · intro c hc
          exact List.mem_append.mpr ((List.mem_append.mp hc).imp (mem_turnLogs 0) id)
      · simp only [if_neg hr]
        have hpos := chunk_pos off hlt
        have hle := chunk_le off n tot
        have hchunk : chunk off n tot = min (n - tot) (BSIZE - (off + tot) % BSIZE) := rfl
        obtain ⟨m, hm⟩ : ∃ m, m = chunk off n tot := ⟨_, rfl⟩
        obtain ⟨hlen, hget, hstop⟩ := copyin_spec src tot m
        obtain ⟨s₂, hs₂, hinv, hwrote, hlogs, hthere⟩ := hmap.piece src hm hr
        have hread : ∀ j, tot ≤ j → j < tot + (copyin src tot m).length → src j ≠ none := by
          intro j hj hjl
          have hj' := hget (j - tot) (by omega)
          rw [Nat.add_sub_cancel' hj] at hj'
          rw [hj']
          exact Option.some_ne_none _
        have hcost := cost_turn sb r (Nat.sub_pos_of_lt hlt) hgap (hm.trans hchunk)
        rw [← hm, hs₂]
        by_cases hshort : (copyin src tot m).length < m
        · -- a byte of the source cannot be read
          rw [if_pos hshort]
          have hblock : chunk off n tot ≤ BSIZE := by
            have := chunk_fits off n tot
            omega
          refine ⟨tot, tot + (copyin src tot m).length, s₂, rfl, ⟨le_rfl, by omega, by omega⟩, hinv,
            hwrote, by omega, hread, .inr (.inl ⟨by omega, hstop hshort⟩), ?_⟩
          exact ⟨_, by omega, hlogs⟩
        · have hfull : (copyin src tot m).length = m := by omega
          rw [hfull] at hwrote hread
          rw [if_neg hshort]
          have hi₂ : (s₂.inode i).type ≠ 0 := by
            rw [(hwrote.inode i).1]
            exact hi
          -- the next turn starts with a block, or there is nothing left to write
          have hgap₂ : (off + (tot + m)) % BSIZE ≠ 0 → there s₂ i (off + (tot + m)) := by
            intro hmod
            have hdiv : (off + (tot + m)) / BSIZE = (off + tot) / BSIZE := by
              have hm' := hm.trans hchunk
              unfold BSIZE at *
              omega
            rw [there, hdiv]
            exact hthere
          obtain ⟨r', w, s₃, he', hw⟩ := ih hinv hi₂ (by omega) (by omega) hgap₂
          exact ⟨r', w, s₃, he', hw.turn hwrote hread hlogs hcost⟩
    · rw [if_neg hlt]
      exact ⟨_, _, _, rfl, .refl h (by omega)⟩

/-! ### The call -/

/-- The list `f` with the bytes `bs` written at `off`. -/
def pwrite (f : List UInt8) (off : ℕ) (bs : List UInt8) : List UInt8 :=
  f.take off ++ bs ++ f.drop (off + bs.length)

theorem length_pwrite {f : List UInt8} (bs : List UInt8) (h : off ≤ f.length) :
    (pwrite f off bs).length = max f.length (off + bs.length) := by
  simp only [pwrite, List.length_append, List.length_take, List.length_drop]
  omega

theorem getElem?_pwrite {f bs : List UInt8} (h : off ≤ f.length) (p : ℕ) :
    (pwrite f off bs)[p]? = if off ≤ p ∧ p < off + bs.length then bs[p - off]? else f[p]? := by
  have htake : (f.take off).length = off := by
    rw [List.length_take]
    omega
  rw [pwrite, List.append_assoc, List.getElem?_append, htake]
  by_cases hlt : p < off
  · rw [if_pos hlt, List.getElem?_take_of_lt hlt, if_neg (by omega)]
  · rw [if_neg hlt, List.getElem?_append]
    by_cases hin : p - off < bs.length
    · rw [if_pos hin, if_pos (by omega)]
    · -- behind what is written
      rw [if_neg hin, if_neg (by omega), List.getElem?_drop]
      congr 1
      omega

/-- The first `w` bytes of the source. -/
def sourceBytes (src : ℕ → Option UInt8) (w : ℕ) : List UInt8 :=
  (List.range w).map fun j => (src j).getD 0

@[simp] theorem length_sourceBytes (src : ℕ → Option UInt8) (w : ℕ) :
    (sourceBytes src w).length = w := by
  rw [sourceBytes, List.length_map, List.length_range]

theorem getElem?_sourceBytes {w p : ℕ} (h : p < w) :
    (sourceBytes src w)[p]? = some ((src p).getD 0) := by
  rw [sourceBytes, List.getElem?_map, List.getElem?_range h, Option.map_some]

/-- `writei` was not refused: it returned `r`, having written `w` bytes. -/
structure Accepted (sb : Superblock) (s s' : Fs) (i : ℕ) (src : ℕ → Option UInt8)
    (off n r w : ℕ) : Prop where
  le : r ≤ w ∧ w ≤ n
  inv : Inv sb s'
  type : ∀ j, (s'.inode j).type = (s.inode j).type
  contents : Fs.contents s' i = (pwrite (Fs.contents s i) off (sourceBytes src w)).take
    (max (s.inode i).size (off + r))
  other : ∀ j, j ≠ i → Fs.contents s' j = Fs.contents s j
  slot : ∀ j k, Fs.slot s j k ≠ 0 → Fs.slot s' j k = Fs.slot s j k
  near : w < r + BSIZE
  read : ∀ j, j < w → src j ≠ none
  stop : r = n ∨ (w < n ∧ src w = none) ∨ (r = w ∧ Full sb s')
  logs : ∃ bs, bs.length ≤ cost off n + 3 ∧ Logs s s' bs

theorem Wrote.contents_other {a b j : ℕ} {f : ℕ → UInt8} (hw : Wrote s s' i a b f) (h : Inv sb s)
    (hj : j ≠ i) : contents s' j = contents s j := by
  unfold contents
  rw [(hw.inode j).2]
  refine List.map_congr_left fun p hp => hw.byte j p (h.full j p (List.mem_range.mp hp)) ?_
  exact fun hji => absurd hji hj

theorem contents_setSize_ne {j m : ℕ} (hj : j ≠ i) : contents (s.setSize i m) j = contents s j := by
  unfold contents
  rw [inode_setSize]
  simp only [if_neg hj]
  refine List.map_congr_left fun p _ => ?_
  rw [byteAt, slot_setSize]
  rfl

/-- The size is set and the inode is written back. -/
theorem Written.accepted {r w : ℕ} (h : Inv sb s) (hi : (s.inode i).type ≠ 0)
    (hoff : off ≤ (s.inode i).size) (hmax : off + n ≤ MAXFILE * BSIZE)
    (hw : Written sb s s' i src off n 0 r w) :
    Accepted sb s (iupdate sb (s'.setSize i (max (s.inode i).size (off + r))) i) i src off n r
      w := by
  obtain ⟨-, hrw, hwn⟩ := hw.le
  have hwrote := hw.wrote
  rw [Nat.add_zero] at hwrote
  obtain ⟨s'', hs''⟩ : ∃ s'', iupdate sb (s'.setSize i (max (s.inode i).size (off + r))) i = s'' :=
    ⟨_, rfl⟩
  have hinode : ∀ j, (s''.inode j).type = (s.inode j).type ∧ (s''.inode j).size =
      if j = i then max (s.inode i).size (off + r) else (s.inode j).size := by
    intro j
    have hj : s''.inode j = { s'.inode j with
        size := if j = i then max (s.inode i).size (off + r) else (s'.inode j).size } := by
      rw [← hs'']
      exact inode_setSize s' i _ j
    rw [hj]
    exact ⟨(hwrote.inode j).1, by rw [(hwrote.inode j).2]⟩
  have hslot : ∀ j l, slot s'' j l = slot s' j l := by
    intro j l
    rw [← hs'']
    exact slot_setSize s' i _ j l
  have hdata : s''.data = s'.data := by rw [← hs'']; rfl
  have hused : s''.used = s'.used := by rw [← hs'']; rfl
  -- below the new size there is a block everywhere, old or just written
  have hthere : ∀ p, p < max (s.inode i).size (off + r) → there s' i p := by
    intro p hp
    by_cases hps : p < (s.inode i).size
    · exact hwrote.there (h.full i p hps)
    · exact (hwrote.written p (by omega) (by omega)).1
  rw [hs'']
  refine ⟨⟨hrw, hwn⟩, hw.inv.of_slots hslot hused (fun j p hp => ?_) (fun j => ?_) (fun j hj => ?_),
    fun j => (hinode j).1, ?_, fun j hj => ?_, fun j k hs => (hslot j k).trans (hwrote.slot j k hs),
    hw.near, fun j hj => hw.read j (Nat.zero_le j) hj, ?_, ?_⟩
  · rw [(hinode j).2] at hp
    split at hp
    · rename_i hji
      rw [hji]
      exact hthere p hp
    · rw [← (hwrote.inode j).2] at hp
      exact hw.inv.full j p hp
  · rw [(hinode j).2]
    split
    · have := h.size_le i
      omega
    · exact h.size_le j
  · rw [(hinode j).1] at hj
    have hji : j ≠ i := by
      rintro rfl
      exact hi hj
    rw [(hinode j).2, if_neg hji, ← (hwrote.inode j).2]
    exact hw.inv.free j (by rw [(hwrote.inode j).1]; exact hj)
  · refine List.ext_getElem? fun p => ?_
    rw [getElem?_contents, (hinode i).2, if_pos rfl, List.getElem?_take]
    by_cases hp : p < max (s.inode i).size (off + r)
    · rw [if_pos hp, if_pos hp, getElem?_pwrite (by rw [length_contents]; exact hoff),
        length_sourceBytes]
      have hbyte : byteAt s'' i p = byteAt s' i p := by
        rw [byteAt, hslot, hdata]
        rfl
      rw [hbyte]
      by_cases hin : off ≤ p ∧ p < off + w
      · rw [if_pos hin, (hwrote.written p hin.1 hin.2).2, getElem?_sourceBytes (by omega)]
      · have hps : p < (s.inode i).size := by omega
        rw [if_neg hin, getElem?_contents, if_pos hps,
          hwrote.byte i p (h.full i p hps) fun _ => by omega]
    · rw [if_neg hp, if_neg hp]
  · rw [← hs'']
    exact (contents_setSize_ne hj).trans (hwrote.contents_other h hj)
  · refine hw.stop.imp id (Or.imp id fun hc => ⟨hc.1, fun b hb => ?_⟩)
    rw [hused]
    exact hc.2 b hb
  · obtain ⟨bs, hbs, hlogs⟩ := hw.logs
    rw [Nat.add_zero, Nat.sub_zero] at hbs
    have hind : (indirectLogs sb s' i).length ≤ 2 := by
      unfold indirectLogs
      split
      · exact Nat.zero_le _
      · exact le_rfl
    refine ⟨sb.IBLOCK i :: (bs ++ indirectLogs sb s' i), ?_, fun c hc => ?_⟩
    · rw [List.length_cons, List.length_append]
      omega
    · rw [← hs''] at hc
      obtain rfl | hc := List.mem_cons.mp hc
      · exact .inr List.mem_cons_self
      · exact (hlogs c hc).imp id (List.mem_cons_of_mem _)

/-- **`writei`** is refused, or puts bytes of the source into the list of the
file's. -/
theorem writei_spec (h : Inv sb s) (hi : (s.inode i).type ≠ 0) (src : ℕ → Option UInt8)
    (off n : UInt32) :
    (((s.inode i).size < off.toNat ∨ MAXFILE * BSIZE < off.toNat + n.toNat) ∧
      writei sb s i src off n = some (-1, s)) ∨
    (off.toNat ≤ (s.inode i).size ∧ off.toNat + n.toNat ≤ MAXFILE * BSIZE ∧
      ∃ (r w : ℕ) (s' : Fs), writei sb s i src off n = some ((r : ℤ), s') ∧
        Accepted sb s s' i src off.toNat n.toNat r w) := by
  have hbig : MAXFILE * BSIZE < 2 ^ 32 := by decide
  have hoff' := off.toNat_lt
  have hn' := n.toNat_lt
  have hadd : (off + n).toNat = (off.toNat + n.toNat) % 2 ^ 32 := UInt32.toNat_add off n
  unfold writei
  by_cases hc : (s.inode i).size < off.toNat ∨ off + n < off
  · refine .inl ⟨hc.imp id fun hover => ?_, if_pos hc⟩
    rw [UInt32.lt_iff_toNat_lt, hadd] at hover
    omega
  · obtain ⟨hoff, hover⟩ := not_or.mp hc
    rw [UInt32.lt_iff_toNat_lt, hadd] at hover
    have hsum : (off + n).toNat = off.toNat + n.toNat := by omega
    rw [if_neg hc, hsum]
    by_cases hmax : MAXFILE * BSIZE < off.toNat + n.toNat
    · exact .inl ⟨.inr hmax, if_pos hmax⟩
    · -- an offset inside a block has a byte of the file before it in this block
      have hgap : (off.toNat + 0) % BSIZE ≠ 0 → there s i (off.toNat + 0) := by
        intro hmod
        have hdiv : (off.toNat + 0) / BSIZE = (off.toNat - 1) / BSIZE := by
          unfold BSIZE at hmod ⊢
          omega
        have hpos : off.toNat ≠ 0 := by
          rintro hz
          rw [hz] at hmod
          exact hmod rfl
        rw [there, hdiv]
        exact h.full i _ (by omega)
      obtain ⟨r, w, s', he, hw⟩ := writeLoop_spec (k := n.toNat) src h hi
        (Nat.le_of_not_lt hmax) (Nat.zero_le n.toNat) le_rfl hgap
      refine .inr ⟨by omega, by omega, r, w, _, ?_, hw.accepted h hi (by omega) (by omega)⟩
      rw [if_neg hmax, he, Option.map_some]
      have hsize : (s'.inode i).size = (s.inode i).size := (hw.wrote.inode i).2
      have hset : (if (s'.inode i).size < off.toNat + r then s'.setSize i (off.toNat + r) else s') =
          s'.setSize i (max (s.inode i).size (off.toNat + r)) := by
        rw [hsize]
        split
        · rename_i hlt
          rw [Nat.max_eq_right hlt.le]
        · rename_i hle
          rw [Nat.max_eq_left (Nat.le_of_not_lt hle), ← hsize, setSize, Function.update_eq_self]
      simp only [hset]

end Fs

end Xv6
