/-
Which block is whose.

An inode has 269 slots: its twelve direct blocks, its indirect block, and the
256 blocks listed there.  The data blocks of the disk are a pool; the slots are
the places that hold them.

* `Fs.Inv` — what is true of a disk between two calls: no block is in two
  slots, every block that is marked is in one, and a file has no holes;
* `Fs.Filled` — a free block put into an empty slot, the one thing that `bmap`
  does to the map;
* `Fs.bmap_spec` — what `bmap` does.
-/
import CshellXv6.Lib.Pool
import CshellXv6.Xv6.Fs

namespace Xv6

/-- The data blocks. -/
def Superblock.avail (sb : Superblock) (b : ℕ) : Prop := sb.nmeta ≤ b ∧ b < sb.size

theorem Superblock.nmeta_pos (sb : Superblock) : 0 < sb.nmeta := Nat.sub_pos_of_lt sb.meta_pos

namespace Fs

open Words

/-- The block in a slot, 0 if there is none. -/
def slot (s : Fs) (i k : ℕ) : ℕ :=
  if k ≤ NDIRECT then (s.inode i).addrs k
  else if k < MAXFILE + 1 ∧ (s.inode i).addrs NDIRECT ≠ 0 then
    word (s.data ((s.inode i).addrs NDIRECT)) (k - (NDIRECT + 1))
  else 0

/-- The slot of a block of the file. -/
def slotOf (bn : ℕ) : ℕ := if bn < NDIRECT then bn else bn + 1

/-- The slots as places. -/
def place (s : Fs) (p : ℕ × ℕ) : Option ℕ :=
  if slot s p.1 p.2 = 0 then none else some (slot s p.1 p.2)

/-- What is true of a disk between two calls. -/
structure Inv (sb : Superblock) (s : Fs) : Prop where
  pool : Pool sb.avail s.used (place s)
  meta_used : ∀ b, b < sb.nmeta → s.used b = true
  full : ∀ i p, p < (s.inode i).size → slot s i (slotOf (p / BSIZE)) ≠ 0
  size_le : ∀ i, (s.inode i).size ≤ MAXFILE * BSIZE
  free : ∀ i, (s.inode i).type = 0 → (s.inode i).size = 0 ∧ ∀ k, slot s i k = 0

variable {sb : Superblock} {s s' : Fs} {i j k l b : ℕ}

theorem slot_direct (s : Fs) (i : ℕ) (hk : k ≤ NDIRECT) : slot s i k = (s.inode i).addrs k :=
  if_pos hk

theorem slot_indirect (s : Fs) (i : ℕ) (hk : k < NINDIRECT) (h : slot s i NDIRECT ≠ 0) :
    slot s i (k + (NDIRECT + 1)) = word (s.data (slot s i NDIRECT)) k := by
  have h' : slot s i NDIRECT = (s.inode i).addrs NDIRECT := slot_direct s i le_rfl
  rw [h'] at h ⊢
  have hlt : k + (NDIRECT + 1) < MAXFILE + 1 := by
    unfold MAXFILE
    omega
  rw [slot, if_neg (by omega), if_pos ⟨hlt, h⟩, Nat.add_sub_cancel]

/-- Without an indirect block, the slots behind it are empty. -/
theorem slot_of_indirect_zero (h : slot s i NDIRECT = 0) (hk : NDIRECT ≤ k) : slot s i k = 0 := by
  have h' : (s.inode i).addrs NDIRECT = 0 := by
    rw [← slot_direct s i le_rfl]
    exact h
  by_cases hle : k ≤ NDIRECT
  · obtain rfl : k = NDIRECT := by omega
    exact h
  · rw [slot, if_neg hle, if_neg fun hc => hc.2 h']

theorem slot_congr (ha : (s'.inode i).addrs = (s.inode i).addrs)
    (hd : slot s i NDIRECT ≠ 0 → s'.data (slot s i NDIRECT) = s.data (slot s i NDIRECT)) :
    slot s' i k = slot s i k := by
  have h' : slot s i NDIRECT = (s.inode i).addrs NDIRECT := slot_direct s i le_rfl
  rw [h'] at hd
  unfold slot
  rw [ha]
  split
  · rfl
  · split
    · -- only here are the words of the indirect block looked at
      rename_i hc
      rw [hd hc.2]
    · rfl

theorem place_eq_some (h : slot s i k ≠ 0) : place s (i, k) = some (slot s i k) := if_neg h

theorem place_eq_some_iff : place s (i, k) = some b ↔ slot s i k = b ∧ b ≠ 0 := by
  unfold place
  split
  · rename_i h
    simp only [reduceCtorEq, false_iff, not_and, not_not]
    intro hb
    exact hb.symm.trans h
  · rename_i h
    rw [Option.some_inj]
    exact ⟨fun hb => ⟨hb, hb ▸ h⟩, fun hb => hb.1⟩

namespace Inv

/-- What is in a slot is marked, and a data block. -/
theorem used (h : Inv sb s) (hs : slot s i k ≠ 0) :
    s.used (slot s i k) = true ∧ sb.avail (slot s i k) :=
  h.pool.marked (place_eq_some hs)

theorem unique (h : Inv sb s) (hs : slot s i k ≠ 0) (he : slot s i k = slot s j l) :
    i = j ∧ k = l := by
  have hp : place s (i, k) = some (slot s i k) := place_eq_some hs
  have hq : place s (j, l) = some (slot s i k) := place_eq_some_iff.mpr ⟨he.symm, hs⟩
  exact Prod.mk.inj (h.pool.unique hp hq)

theorem ne_of_unused (h : Inv sb s) (hb : s.used b = false) (hs : slot s i k ≠ 0) :
    slot s i k ≠ b := by
  rintro rfl
  rw [(h.used hs).1] at hb
  cases hb

end Inv

/-! ### Allocating -/

/-- There is no free block. -/
def Full (sb : Superblock) (s : Fs) : Prop := ∀ b, sb.avail b → s.used b = true

/-- A disk stays full while no slot loses its block. -/
theorem Inv.full_of_slots (h : Inv sb s) (h' : Inv sb s')
    (hslot : ∀ j k, slot s j k ≠ 0 → ∃ j' k', slot s' j' k' = slot s j k) (hfull : Full sb s) :
    Full sb s' := by
  intro b hb
  obtain ⟨p, hp⟩ := h.pool.held hb (hfull b hb)
  obtain ⟨hpb, hne⟩ := place_eq_some_iff.mp hp
  obtain ⟨j, k, hjk⟩ := hslot p.1 p.2 (by rw [hpb]; exact hne)
  rw [hpb] at hjk
  have hused := h'.used (i := j) (k := k) (by rw [hjk]; exact hne)
  rw [hjk] at hused
  exact hused.1

/-- What `balloc` gives. -/
structure Given (sb : Superblock) (s s' : Fs) (b : ℕ) : Prop where
  unused : s.used b = false
  avail : sb.avail b
  used : s'.used = Function.update s.used b true
  data : s'.data = Function.update s.data b fun _ => 0
  inode : s'.inode = s.inode
  logged : s'.logged = b :: sb.BBLOCK b :: s.logged

theorem Given.ne_zero (h : Given sb s s' b) : b ≠ 0 := by
  have hpos := sb.nmeta_pos
  have hb := h.avail.1
  omega

theorem balloc_spec (hmeta : ∀ b, b < sb.nmeta → s.used b = true) :
    (balloc sb s = (0, s) ∧ Full sb s) ∨ ∃ b s', balloc sb s = (b, s') ∧ Given sb s s' b := by
  unfold balloc
  split
  · rename_i b hb
    have hfree : s.used b = false := by simpa using List.find?_some hb
    have hlt : b < sb.size := List.mem_range.mp (List.mem_of_find?_eq_some hb)
    have hge : sb.nmeta ≤ b := by
      by_contra hlt'
      rw [hmeta b (by omega)] at hfree
      cases hfree
    exact .inr ⟨b, _, rfl, hfree, ⟨hge, hlt⟩, rfl, rfl, rfl, rfl⟩
  · rename_i hnone
    refine .inl ⟨rfl, fun b hb => ?_⟩
    simpa using List.find?_eq_none.mp hnone b (List.mem_range.mpr hb.2)

theorem addrs_setAddr (s : Fs) (i k b j l : ℕ) : ((s.setAddr i k b).inode j).addrs l =
    if j = i ∧ l = k then b else (s.inode j).addrs l := by
  unfold setAddr
  by_cases hj : j = i
  · subst hj
    by_cases hl : l = k
    · simp [hl]
    · simp [hl]
  · simp [hj]

theorem inode_setAddr (s : Fs) (i k b j : ℕ) : ((s.setAddr i k b).inode j).type =
    (s.inode j).type ∧ ((s.setAddr i k b).inode j).size = (s.inode j).size := by
  unfold setAddr
  by_cases hj : j = i
  · subst hj
    simp
  · simp [hj]

/-- The slots do not change: a free block is nobody's indirect block. -/
theorem Given.slot (hg : Given sb s s' b) (h : Inv sb s) (j k : ℕ) :
    slot s' j k = Fs.slot s j k := by
  refine slot_congr (by rw [hg.inode]) fun hne => ?_
  rw [hg.data, Function.update_of_ne (h.ne_of_unused hg.unused hne)]

/-- The free block `b` is put into the empty slot `k` of inode `i`. -/
structure Filled (sb : Superblock) (s s' : Fs) (i k b : ℕ) : Prop where
  empty : slot s i k = 0
  unused : s.used b = false
  avail : sb.avail b
  used : s'.used = Function.update s.used b true
  slot : ∀ j l, slot s' j l = if j = i ∧ l = k then b else Fs.slot s j l
  data : ∀ c, c ≠ b → c ≠ Fs.slot s i NDIRECT → s'.data c = s.data c
  inode : ∀ j, (s'.inode j).type = (s.inode j).type ∧ (s'.inode j).size = (s.inode j).size

/-- A step that only allocates for inode `i`: nothing that is there moves. -/
structure Grows (s s' : Fs) (i : ℕ) : Prop where
  inode : ∀ j, (s'.inode j).type = (s.inode j).type ∧ (s'.inode j).size = (s.inode j).size
  slot : ∀ j k, slot s j k ≠ 0 → Fs.slot s' j k = Fs.slot s j k
  other : ∀ j k, j ≠ i → Fs.slot s' j k = Fs.slot s j k
  data : ∀ j k, k ≠ NDIRECT → Fs.slot s j k ≠ 0 →
    s'.data (Fs.slot s j k) = s.data (Fs.slot s j k)

theorem Grows.refl (s : Fs) (i : ℕ) : Grows s s i :=
  ⟨fun _ => ⟨rfl, rfl⟩, fun _ _ _ => rfl, fun _ _ _ => rfl, fun _ _ _ _ => rfl⟩

theorem Grows.trans {s₁ s₂ s₃ : Fs} (h : Grows s₁ s₂ i) (h' : Grows s₂ s₃ i) : Grows s₁ s₃ i := by
  refine ⟨fun j => ?_, fun j k hs => ?_, fun j k hj => ?_, fun j k hk hs => ?_⟩
  · exact ⟨(h'.inode j).1.trans (h.inode j).1, (h'.inode j).2.trans (h.inode j).2⟩
  · have hs' := h.slot j k hs
    exact (h'.slot j k (by rw [hs']; exact hs)).trans hs'
  · exact (h'.other j k hj).trans (h.other j k hj)
  · have hs' := h.slot j k hs
    have hd := h'.data j k hk (by rw [hs']; exact hs)
    rw [hs'] at hd
    exact hd.trans (h.data j k hk hs)

namespace Filled

theorem ne_zero (hf : Filled sb s s' i k b) : b ≠ 0 := by
  have hpos := sb.nmeta_pos
  have hb := hf.avail.1
  omega

theorem place (hf : Filled sb s s' i k b) :
    Fs.place s' = Function.update (Fs.place s) (i, k) (some b) := by
  funext ⟨j, l⟩
  by_cases hp : (j, l) = (i, k)
  · rw [hp, Function.update_self]
    have hs : Fs.slot s' i k = b := by rw [hf.slot, if_pos ⟨rfl, rfl⟩]
    exact place_eq_some_iff.mpr ⟨hs, hf.ne_zero⟩
  · rw [Function.update_of_ne hp]
    have hs : Fs.slot s' j l = Fs.slot s j l := by
      rw [hf.slot, if_neg]
      rintro ⟨rfl, rfl⟩
      exact hp rfl
    unfold Fs.place
    rw [hs]

theorem grows (hf : Filled sb s s' i k b) (h : Inv sb s) : Grows s s' i := by
  have hslot : ∀ j l, Fs.slot s j l ≠ 0 → Fs.slot s' j l = Fs.slot s j l := by
    intro j l hs
    rw [hf.slot, if_neg]
    rintro ⟨rfl, rfl⟩
    exact hs hf.empty
  refine ⟨hf.inode, hslot, fun j l hj => ?_, fun j l hl hs => ?_⟩
  · rw [hf.slot, if_neg fun hc => hj hc.1]
  · refine hf.data _ (h.ne_of_unused hf.unused hs) fun he => ?_
    exact hl (h.unique hs he).2

theorem inv (hf : Filled sb s s' i k b) (h : Inv sb s) (hi : (s.inode i).type ≠ 0) : Inv sb s' := by
  have hg := hf.grows h
  refine ⟨?_, fun c hc => ?_, fun j p hp => ?_, fun j => ?_, fun j hj => ?_⟩
  · rw [hf.used, hf.place]
    exact h.pool.grow hf.unused hf.avail (if_pos hf.empty)
  · rw [hf.used]
    by_cases hcb : c = b
    · rw [hcb, Function.update_self]
    · rw [Function.update_of_ne hcb]
      exact h.meta_used c hc
  · rw [(hf.inode j).2] at hp
    have hs := h.full j p hp
    rw [hg.slot j _ hs]
    exact hs
  · rw [(hf.inode j).2]
    exact h.size_le j
  · rw [(hf.inode j).1] at hj
    have hji : j ≠ i := by
      rintro rfl
      exact hi hj
    obtain ⟨hsize, hslots⟩ := h.free j hj
    refine ⟨by rw [(hf.inode j).2]; exact hsize, fun l => ?_⟩
    rw [hg.other j l hji]
    exact hslots l

end Filled

/-- The step gives `log_write` no other blocks than `bs`. -/
def Logs (s s' : Fs) (bs : List ℕ) : Prop := ∀ b ∈ s'.logged, b ∈ s.logged ∨ b ∈ bs

theorem Logs.refl (s : Fs) (bs : List ℕ) : Logs s s bs := fun _ hb => .inl hb

theorem Logs.trans {s₁ s₂ s₃ : Fs} {bs cs : List ℕ} (h : Logs s₁ s₂ bs) (h' : Logs s₂ s₃ cs) :
    Logs s₁ s₃ (bs ++ cs) := by
  intro b hb
  obtain hb | hb := h' b hb
  · exact (h b hb).imp id (List.mem_append_left _)
  · exact .inr (List.mem_append_right _ hb)

theorem Logs.mono {bs cs : List ℕ} (h : Logs s s' bs) (hsub : ∀ b ∈ bs, b ∈ cs) :
    Logs s s' cs :=
  fun b hb => (h b hb).imp id (hsub b)

/-- The blocks logged for a slot that held `old` and holds `new`. -/
def freshLogs (sb : Superblock) (old new : ℕ) : List ℕ :=
  if old = 0 then [new, sb.BBLOCK new] else []

/-- The blocks logged for the indirect block. -/
def indirectLogs (sb : Superblock) (s : Fs) (i : ℕ) : List ℕ :=
  if slot s i NDIRECT = 0 then [] else [slot s i NDIRECT, sb.BBLOCK (slot s i NDIRECT)]

/-- Putting a given block into the inode. -/
theorem Given.setAddr {s₁ : Fs} (hg : Given sb s s₁ b) (h : Inv sb s) (hk : k ≤ NDIRECT)
    (hs : Fs.slot s i k = 0) : Filled sb s (s₁.setAddr i k b) i k b := by
  have haddr : ∀ j l, ((s₁.setAddr i k b).inode j).addrs l =
      if j = i ∧ l = k then b else (s.inode j).addrs l := by
    intro j l
    rw [addrs_setAddr, hg.inode]
  refine ⟨hs, hg.unused, hg.avail, hg.used, fun j l => ?_, fun c hc _ => ?_, fun j => ?_⟩
  · by_cases hjk : j = i ∧ NDIRECT = k
    · -- the block is the new indirect block of `i`, and empty
      obtain ⟨rfl, rfl⟩ := hjk
      by_cases hl : l ≤ NDIRECT
      · rw [slot_direct _ _ hl, haddr, slot_direct _ _ hl]
      · rw [if_neg (by omega), slot_of_indirect_zero hs (by omega), Fs.slot, if_neg hl]
        split
        · have hb : ((s₁.setAddr j NDIRECT b).inode j).addrs NDIRECT = b := by
            rw [haddr, if_pos ⟨rfl, rfl⟩]
          have hzero : (s₁.setAddr j NDIRECT b).data b = fun _ => 0 := by
            show s₁.data b = _
            rw [hg.data, Function.update_self]
          rw [hb, hzero, word_zero]
        · rfl
    · by_cases hl : l ≤ NDIRECT
      · rw [slot_direct _ _ hl, haddr, slot_direct _ _ hl]
      · have hne : ¬ (j = i ∧ l = k) := by omega
        have hind : ((s₁.setAddr i k b).inode j).addrs NDIRECT = (s₁.inode j).addrs NDIRECT := by
          rw [haddr, if_neg hjk, hg.inode]
        have hsame : Fs.slot (s₁.setAddr i k b) j l = Fs.slot s₁ j l := by
          unfold Fs.slot
          rw [if_neg hl, if_neg hl, hind]
          rfl
        rw [if_neg hne, hsame, hg.slot h]
  · show s₁.data c = s.data c
    rw [hg.data, Function.update_of_ne hc]
  · have hin := inode_setAddr s₁ i k b j
    rw [hg.inode] at hin
    exact hin

/-- Putting a given block into the indirect block. -/
theorem Given.setEntry {s₁ : Fs} (hg : Given sb s s₁ b) (h : Inv sb s) (hk : k < NINDIRECT)
    (hind : Fs.slot s i NDIRECT ≠ 0) (hs : Fs.slot s i (k + (NDIRECT + 1)) = 0) :
    Filled sb s ((s₁.setData (Fs.slot s i NDIRECT)
      (setWord (s₁.data (Fs.slot s i NDIRECT)) k b)).logWrite (Fs.slot s i NDIRECT)) i
      (k + (NDIRECT + 1)) b := by
  have hsmall : b < 2 ^ 32 := hg.avail.2.trans sb.small
  have hne : Fs.slot s i NDIRECT ≠ b := h.ne_of_unused hg.unused hind
  have hold : s₁.data (Fs.slot s i NDIRECT) = s.data (Fs.slot s i NDIRECT) := by
    rw [hg.data, Function.update_of_ne hne]
  refine ⟨hs, hg.unused, hg.avail, hg.used, fun j l => ?_, fun c hc hci => ?_, fun j => ?_⟩
  · by_cases hj : j = i
    · subst hj
      by_cases hl : l ≤ NDIRECT
      · rw [if_neg (by omega), slot_direct _ _ hl, slot_direct _ _ hl, ← hg.inode]
        rfl
      · by_cases hlt : l < MAXFILE + 1
        · obtain ⟨m, rfl⟩ : ∃ m, l = m + (NDIRECT + 1) := ⟨l - (NDIRECT + 1), by omega⟩
          have hm : m < NINDIRECT := by
            unfold MAXFILE at hlt
            omega
          have hsame : Fs.slot ((s₁.setData (Fs.slot s j NDIRECT)
              (setWord (s₁.data (Fs.slot s j NDIRECT)) k b)).logWrite (Fs.slot s j NDIRECT)) j
              NDIRECT = Fs.slot s j NDIRECT := by
            rw [slot_direct _ _ le_rfl, slot_direct _ _ le_rfl, ← hg.inode]
            rfl
          rw [slot_indirect _ _ hm (by rw [hsame]; exact hind), hsame]
          have hdata : ((s₁.setData (Fs.slot s j NDIRECT)
              (setWord (s₁.data (Fs.slot s j NDIRECT)) k b)).logWrite (Fs.slot s j NDIRECT)).data
              (Fs.slot s j NDIRECT) = setWord (s₁.data (Fs.slot s j NDIRECT)) k b :=
            Function.update_self ..
          rw [hdata]
          by_cases hmk : m = k
          · rw [hmk, word_setWord_self hsmall, if_pos ⟨rfl, rfl⟩]
          · rw [word_setWord_of_ne hmk, if_neg (by omega), hold, slot_indirect _ _ hm hind]
        · rw [if_neg (by unfold MAXFILE at hlt; omega), Fs.slot, if_neg hl,
            if_neg fun hc => hlt hc.1, Fs.slot, if_neg hl, if_neg fun hc => hlt hc.1]
    · -- the indirect block of another inode is another block
      rw [if_neg fun hc => hj hc.1, ← hg.slot h j l]
      refine slot_congr rfl fun hne' => ?_
      show Function.update s₁.data _ _ _ = _
      rw [Function.update_of_ne]
      intro he
      rw [hg.slot h] at hne' he
      exact hj (h.unique hne' he).1
  · show Function.update s₁.data _ _ c = _
    rw [Function.update_of_ne hci, hg.data, Function.update_of_ne hc]
  · show (s₁.inode j).type = _ ∧ (s₁.inode j).size = _
    rw [hg.inode]
    exact ⟨rfl, rfl⟩

/-- What asking for a slot's block does: it is there, there is no free block, or
one is filled in. -/
inductive Asked (sb : Superblock) (s : Fs) (i k : ℕ) : ℕ × Fs → Prop
  | there : slot s i k ≠ 0 → Asked sb s i k (slot s i k, s)
  | none : slot s i k = 0 → Full sb s → Asked sb s i k (0, s)
  | filled {s' : Fs} {b : ℕ} : Filled sb s s' i k b →
      Logs s s' (b :: sb.BBLOCK b :: if k ≤ NDIRECT then [] else [slot s i NDIRECT]) →
      Asked sb s i k (b, s')

theorem addrOf_spec (h : Inv sb s) (hk : k ≤ NDIRECT) : Asked sb s i k (addrOf sb s i k) := by
  have haddr : slot s i k = (s.inode i).addrs k := slot_direct s i hk
  unfold addrOf
  split
  · rename_i hz
    rw [← haddr] at hz
    obtain ⟨he, hfull⟩ | ⟨b, s₁, he, hg⟩ := balloc_spec h.meta_used
    · simp only [he]
      exact .none hz hfull
    · simp only [he, if_neg hg.ne_zero]
      refine .filled (hg.setAddr h hk hz) fun c hc => ?_
      have hc' : c ∈ s₁.logged := hc
      rw [hg.logged] at hc'
      simp only [List.mem_cons] at hc' ⊢
      tauto
  · rename_i hz
    rw [← haddr] at hz ⊢
    exact .there hz

theorem entryOf_spec (h : Inv sb s) (hk : k < NINDIRECT) (hind : slot s i NDIRECT ≠ 0) :
    Asked sb s i (k + (NDIRECT + 1)) (entryOf sb s (slot s i NDIRECT) k) := by
  have hword := slot_indirect s i hk hind
  unfold entryOf
  split
  · rename_i hz
    rw [← hword] at hz
    obtain ⟨he, hfull⟩ | ⟨b, s₁, he, hg⟩ := balloc_spec h.meta_used
    · simp only [he]
      exact .none hz hfull
    · simp only [he, if_neg hg.ne_zero]
      refine .filled (hg.setEntry h hk hind hz) fun c hc => ?_
      have hc' : c ∈ slot s i NDIRECT :: s₁.logged := hc
      rw [hg.logged] at hc'
      rw [if_neg (by omega)]
      simp only [List.mem_cons] at hc' ⊢
      tauto
  · rename_i hz
    rw [← hword] at hz ⊢
    exact .there hz

/-- What `bmap` gives: a block of the file, or 0 when the disk is full. -/
structure Mapped (sb : Superblock) (s s' : Fs) (i bn r : ℕ) : Prop where
  inv : Inv sb s'
  grows : Grows s s' i
  block : (r = 0 ∧ Full sb s') ∨ (r = slot s' i (slotOf bn) ∧ r ≠ 0)
  logs : Logs s s' (freshLogs sb (slot s i (slotOf bn)) r ++ indirectLogs sb s' i)

theorem Asked.mapped_direct {bn : ℕ} {x : ℕ × Fs} (h : Inv sb s) (hi : (s.inode i).type ≠ 0)
    (hbn : bn < NDIRECT) (ha : Asked sb s i bn x) : Mapped sb s x.2 i bn x.1 := by
  have hslot : slotOf bn = bn := if_pos hbn
  cases ha with
  | there hs => exact ⟨h, .refl s i, .inr ⟨by rw [hslot], hs⟩, .refl s _⟩
  | none hs hfull => exact ⟨h, .refl s i, .inl ⟨rfl, hfull⟩, .refl s _⟩
  | filled hf hlog =>
    have hnew : slot _ i bn = _ := (hf.slot i bn).trans (if_pos ⟨rfl, rfl⟩)
    refine ⟨hf.inv h hi, hf.grows h, .inr ⟨by rw [hslot, hnew], hf.ne_zero⟩, hlog.mono ?_⟩
    rw [if_pos hbn.le, hslot, freshLogs, if_pos hf.empty]
    exact fun c hc => List.mem_append_left _ hc

/-- An empty slot that is filled behind an indirect block. -/
theorem Asked.mapped_indirect {m : ℕ} {x : ℕ × Fs} (h : Inv sb s) (hi : (s.inode i).type ≠ 0)
    (ha : Asked sb s i (m + (NDIRECT + 1)) x) :
    Inv sb x.2 ∧ Grows s x.2 i ∧
      ((x.1 = 0 ∧ Full sb x.2) ∨ (x.1 = slot x.2 i (m + (NDIRECT + 1)) ∧ x.1 ≠ 0)) ∧
      Logs s x.2 (freshLogs sb (slot s i (m + (NDIRECT + 1))) x.1 ++ [slot s i NDIRECT]) := by
  cases ha with
  | there hs => exact ⟨h, .refl s i, .inr ⟨rfl, hs⟩, .refl s _⟩
  | none hs hfull => exact ⟨h, .refl s i, .inl ⟨rfl, hfull⟩, .refl s _⟩
  | filled hf hlog =>
    have hnew : slot _ i (m + (NDIRECT + 1)) = _ := (hf.slot i _).trans (if_pos ⟨rfl, rfl⟩)
    refine ⟨hf.inv h hi, hf.grows h, .inr ⟨hnew.symm, hf.ne_zero⟩, ?_⟩
    rw [if_neg (by omega)] at hlog
    rw [freshLogs, if_pos hf.empty]
    exact hlog

/-- The entry, once the indirect block is there. -/
theorem Mapped.entry {s₁ : Fs} {m : ℕ} (h : Inv sb s₁) (hi : (s₁.inode i).type ≠ 0)
    (hg : Grows s s₁ i) (hm : m < NINDIRECT) (hind : slot s₁ i NDIRECT ≠ 0)
    (hsame : slot s₁ i (m + (NDIRECT + 1)) = slot s i (m + (NDIRECT + 1)))
    (hlog : Logs s s₁ (indirectLogs sb s₁ i)) :
    Mapped sb s (entryOf sb s₁ (slot s₁ i NDIRECT) m).2 i (m + NDIRECT)
      (entryOf sb s₁ (slot s₁ i NDIRECT) m).1 := by
  have hslot : slotOf (m + NDIRECT) = m + (NDIRECT + 1) := if_neg (by omega)
  obtain ⟨hinv, hg', hblock, hlog'⟩ := (entryOf_spec h hm hind).mapped_indirect h hi
  refine ⟨hinv, hg.trans hg', by rw [hslot]; exact hblock, (hlog.trans hlog').mono fun b hb => ?_⟩
  rw [hsame, indirectLogs, if_neg hind] at hb
  rw [hslot, indirectLogs, hg'.slot i NDIRECT hind, if_neg hind]
  simp only [List.mem_append, List.mem_cons, List.not_mem_nil, or_false] at hb ⊢
  tauto

/-- **`bmap`** finds the block of the file, or allocates it. -/
theorem bmap_spec {bn : ℕ} (h : Inv sb s) (hi : (s.inode i).type ≠ 0) (hbn : bn < MAXFILE) :
    ∃ r s', bmap sb s i bn = some (r, s') ∧ Mapped sb s s' i bn r := by
  unfold bmap
  by_cases hd : bn < NDIRECT
  · rw [if_pos hd]
    exact ⟨_, _, rfl, (addrOf_spec h hd.le).mapped_direct h hi hd⟩
  · rw [if_neg hd]
    obtain ⟨m, rfl⟩ : ∃ m, bn = m + NDIRECT := ⟨bn - NDIRECT, by omega⟩
    have hm : m < NINDIRECT := by
      unfold MAXFILE at hbn
      omega
    rw [Nat.add_sub_cancel, if_pos hm]
    obtain ⟨x, hx⟩ : ∃ x, addrOf sb s i NDIRECT = x := ⟨_, rfl⟩
    have hask : Asked sb s i NDIRECT x := by
      rw [← hx]
      exact addrOf_spec h le_rfl
    rw [hx]
    cases hask with
    | there hs =>
      simp only [if_neg hs]
      exact ⟨_, _, rfl, .entry h hi (.refl s i) hm hs rfl (.refl s _)⟩
    | none hs hfull => exact ⟨_, _, rfl, h, .refl s i, .inl ⟨rfl, hfull⟩, .refl s _⟩
    | @filled s₁ b hf hlog =>
      have hind : slot s₁ i NDIRECT = b := (hf.slot i NDIRECT).trans (if_pos ⟨rfl, rfl⟩)
      have hne : slot s₁ i NDIRECT ≠ 0 := by
        rw [hind]
        exact hf.ne_zero
      have hi₁ : (s₁.inode i).type ≠ 0 := by
        rw [(hf.inode i).1]
        exact hi
      have hlog₁ : Logs s s₁ (indirectLogs sb s₁ i) := by
        rw [if_pos le_rfl] at hlog
        rw [indirectLogs, if_neg hne, hind]
        exact hlog
      have hsame : slot s₁ i (m + (NDIRECT + 1)) = slot s i (m + (NDIRECT + 1)) := by
        rw [hf.slot, if_neg (by omega)]
      simp only [if_neg hf.ne_zero]
      rw [← hind]
      exact ⟨_, _, rfl, .entry (hf.inv h hi) hi₁ (hf.grows h) hm hne hsame hlog₁⟩

/-- A block that is there is found, and nothing changes. -/
theorem bmap_there {bn : ℕ} (hbn : bn < MAXFILE) (hs : slot s i (slotOf bn) ≠ 0) :
    bmap sb s i bn = some (slot s i (slotOf bn), s) := by
  unfold bmap
  by_cases hd : bn < NDIRECT
  · have hslot : slotOf bn = bn := if_pos hd
    rw [hslot, slot_direct s i hd.le] at hs ⊢
    rw [if_pos hd, addrOf, if_neg hs]
  · obtain ⟨m, rfl⟩ : ∃ m, bn = m + NDIRECT := ⟨bn - NDIRECT, by omega⟩
    have hm : m < NINDIRECT := by
      unfold MAXFILE at hbn
      omega
    have hslot : slotOf (m + NDIRECT) = m + (NDIRECT + 1) := if_neg hd
    rw [hslot] at hs ⊢
    have hind : slot s i NDIRECT ≠ 0 := fun hz => hs (slot_of_indirect_zero hz (by omega))
    rw [slot_indirect s i hm hind] at hs ⊢
    have haddr : addrOf sb s i NDIRECT = (slot s i NDIRECT, s) := by
      rw [slot_direct s i le_rfl] at hind ⊢
      rw [addrOf, if_neg hind]
    rw [if_neg hd, Nat.add_sub_cancel, if_pos hm, haddr]
    simp only [if_neg hind, entryOf, if_neg hs]

/-! ### Steps that move no block -/

theorem inode_setSize (s : Fs) (i n j : ℕ) : (s.setSize i n).inode j =
    { s.inode j with size := if j = i then n else (s.inode j).size } := by
  unfold setSize
  by_cases hj : j = i
  · subst hj
    simp
  · simp [hj]

theorem slot_setSize (s : Fs) (i n j l : ℕ) : slot (s.setSize i n) j l = slot s j l :=
  slot_congr (by rw [inode_setSize]) fun _ => rfl

/-- A step that leaves the blocks where they are. -/
theorem Inv.of_slots (h : Inv sb s) (hslot : ∀ j l, slot s' j l = slot s j l)
    (hused : s'.used = s.used)
    (hfull : ∀ j p, p < (s'.inode j).size → slot s j (slotOf (p / BSIZE)) ≠ 0)
    (hsize : ∀ j, (s'.inode j).size ≤ MAXFILE * BSIZE)
    (hfree : ∀ j, (s'.inode j).type = 0 → (s'.inode j).size = 0 ∧ ∀ k, slot s j k = 0) :
    Inv sb s' := by
  have hplace : place s' = place s := by
    funext p
    unfold place
    rw [hslot]
  refine ⟨?_, fun b hb => ?_, fun j p hp => ?_, hsize, fun j hj => ⟨(hfree j hj).1, fun k => ?_⟩⟩
  · rw [hused, hplace]
    exact h.pool
  · rw [hused]
    exact h.meta_used b hb
  · rw [hslot]
    exact hfull j p hp
  · rw [hslot]
    exact (hfree j hj).2 k

end Fs

end Xv6
