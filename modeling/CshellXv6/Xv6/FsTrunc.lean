/-
Giving the blocks of a file back.

`itrunc` empties the slots of an inode one by one and clears the bits of what
was in them.  It panics if a bit is clear already, which the uniqueness of the
slots rules out.

* `Fs.Cleared` — some slots of an inode are emptied, and their blocks are free;
* `Fs.itrunc_spec`, `Fs.ialloc_spec`, `Fs.iput_spec` — the calls that leave an
  empty file.
-/
import CshellXv6.Xv6.FsInvariant

namespace Xv6

namespace Fs

open Words

variable {sb : Superblock} {s s' : Fs} {i j k l b : ℕ}

/-- The slots `l` of inode `i` with `G l` are emptied, and their blocks are
free. -/
structure Cleared (s s' : Fs) (i : ℕ) (G : ℕ → Prop) : Prop where
  gone : ∀ l, G l → slot s' i l = 0
  stay : ∀ j l, ¬ (j = i ∧ G l) → slot s' j l = slot s j l
  used : ∀ b, s'.used b = true ↔ s.used b = true ∧ ∀ l, G l → place s (i, l) ≠ some b
  data : s'.data = s.data
  inode : ∀ j, (s'.inode j).type = (s.inode j).type ∧ (s'.inode j).size = (s.inode j).size

theorem Cleared.pool {G : ℕ → Prop} (hc : Cleared s s' i G)
    (h : Pool sb.avail s.used (place s)) : Pool sb.avail s'.used (place s') := by
  refine h.shrink (fun p => p.1 = i ∧ G p.2) ?_ ?_ ?_
  · rintro ⟨j, l⟩ ⟨rfl, hl⟩
    exact if_pos (hc.gone l hl)
  · rintro ⟨j, l⟩ hl
    unfold place
    rw [hc.stay j l hl]
  · intro b
    rw [hc.used]
    constructor
    · rintro ⟨hb, hl⟩
      refine ⟨hb, ?_⟩
      rintro ⟨j, l⟩ ⟨rfl, hg⟩
      exact hl l hg
    · rintro ⟨hb, hl⟩
      exact ⟨hb, fun l hg => hl (i, l) ⟨rfl, hg⟩⟩

theorem Cleared.trans {s₁ s₂ s₃ : Fs} {G H : ℕ → Prop} (h : Cleared s₁ s₂ i G)
    (h' : Cleared s₂ s₃ i H) : Cleared s₁ s₃ i fun l => G l ∨ H l := by
  have hplace : ∀ l, ¬ G l → place s₂ (i, l) = place s₁ (i, l) := by
    intro l hl
    unfold place
    rw [h.stay i l fun hc => hl hc.2]
  refine ⟨fun l hl => ?_, fun j l hl => ?_, fun b => ?_, h'.data.trans h.data, fun j => ?_⟩
  · by_cases hH : H l
    · exact h'.gone l hH
    · rw [h'.stay i l fun hc => hH hc.2]
      exact h.gone l (hl.resolve_right hH)
  · rw [h'.stay j l fun hc => hl ⟨hc.1, .inr hc.2⟩, h.stay j l fun hc => hl ⟨hc.1, .inl hc.2⟩]
  · rw [h'.used, h.used]
    constructor
    · rintro ⟨⟨hb, hG⟩, hH⟩
      refine ⟨hb, fun l hl => ?_⟩
      by_cases hg : G l
      · exact hG l hg
      · rw [← hplace l hg]
        exact hH l (hl.resolve_left hg)
    · rintro ⟨hb, hl⟩
      refine ⟨⟨hb, fun l hg => hl l (.inl hg)⟩, fun l hH => ?_⟩
      by_cases hg : G l
      · rw [place, h.gone l hg, if_pos rfl]
        exact nofun
      · rw [hplace l hg]
        exact hl l (.inr hH)
  · exact ⟨(h'.inode j).1.trans (h.inode j).1, (h'.inode j).2.trans (h.inode j).2⟩

theorem Cleared.refl (s : Fs) (i : ℕ) : Cleared s s i fun _ => False := by
  refine ⟨fun _ hl => hl.elim, fun _ _ _ => rfl, fun b => ?_, rfl, fun _ => ⟨rfl, rfl⟩⟩
  exact ⟨fun hb => ⟨hb, fun _ hl => hl.elim⟩, fun hb => hb.1⟩

/-- Slots that were empty count as cleared. -/
theorem Cleared.mono {G H : ℕ → Prop} (h : Cleared s s' i G) (hGH : ∀ l, G l → H l)
    (hHG : ∀ l, H l → G l ∨ slot s i l = 0) : Cleared s s' i H := by
  refine ⟨fun l hl => ?_, fun j l hl => h.stay j l fun hc => hl ⟨hc.1, hGH l hc.2⟩, fun b => ?_,
    h.data, h.inode⟩
  · by_cases hG : G l
    · exact h.gone l hG
    · rw [h.stay i l fun hc => hG hc.2]
      exact (hHG l hl).resolve_left hG
  · rw [h.used]
    refine and_congr_right fun _ => ⟨fun hb l hl => ?_, fun hb l hl => hb l (hGH l hl)⟩
    obtain hG | hz := hHG l hl
    · exact hb l hG
    · rw [place, if_pos hz]
      exact nofun

theorem place_ne_iff (hs : slot s i k ≠ 0) : place s (i, k) ≠ some b ↔ b ≠ slot s i k := by
  rw [place_eq_some hs, Ne, Option.some_inj]
  exact ne_comm

/-- Giving back the block of one direct slot. -/
theorem setAddr_cleared (hk : k < NDIRECT) (hs : slot s i k ≠ 0) :
    Cleared s (((s.mark (slot s i k) false).logWrite b).setAddr i k 0) i (· = k) := by
  obtain ⟨s₁, hs₁⟩ : ∃ s₁, (s.mark (slot s i k) false).logWrite b = s₁ := ⟨_, rfl⟩
  have hinode : s₁.inode = s.inode := by rw [← hs₁]; rfl
  have hdata : s₁.data = s.data := by rw [← hs₁]; rfl
  have hused : s₁.used = Function.update s.used (slot s i k) false := by rw [← hs₁]; rfl
  rw [hs₁]
  have haddr : ∀ j l, ((s₁.setAddr i k 0).inode j).addrs l =
      if j = i ∧ l = k then 0 else (s.inode j).addrs l := by
    intro j l
    rw [addrs_setAddr, hinode]
  have hslot : ∀ j l, slot (s₁.setAddr i k 0) j l =
      if j = i ∧ l = k then 0 else slot s j l := by
    intro j l
    by_cases hl : l ≤ NDIRECT
    · rw [slot_direct _ _ hl, haddr, slot_direct _ _ hl]
    · have hind : ((s₁.setAddr i k 0).inode j).addrs NDIRECT = (s.inode j).addrs NDIRECT := by
        rw [haddr, if_neg (by omega)]
      have hdata' : (s₁.setAddr i k 0).data = s.data := hdata
      rw [if_neg (by omega)]
      unfold slot
      rw [if_neg hl, if_neg hl, hind, hdata']
  refine ⟨fun l hl => ?_, fun j l hl => ?_, fun c => ?_, hdata, fun j => ?_⟩
  · rw [hslot, if_pos ⟨rfl, hl⟩]
  · rw [hslot, if_neg hl]
  · have hused' : (s₁.setAddr i k 0).used = Function.update s.used (slot s i k) false := hused
    rw [hused', forall_eq, place_ne_iff hs]
    by_cases hc : c = slot s i k
    · rw [hc, Function.update_self]
      simp
    · rw [Function.update_of_ne hc]
      simp [hc]
  · rw [← hinode]
    exact inode_setAddr s₁ i k 0 j

theorem truncDirect_spec {ks : List ℕ} (hks : ∀ k ∈ ks, k < NDIRECT)
    (h : Pool sb.avail s.used (place s)) :
    ∃ s', truncDirect sb i ks s = some s' ∧ Cleared s s' i (· ∈ ks) := by
  induction ks generalizing s with
  | nil =>
    refine ⟨s, rfl, (Cleared.refl s i).mono (fun _ hl => hl.elim) fun l hl => ?_⟩
    exact absurd hl List.not_mem_nil
  | cons k ks ih =>
    have hk := hks k List.mem_cons_self
    have hks' : ∀ k ∈ ks, k < NDIRECT := fun k hk => hks k (List.mem_cons_of_mem _ hk)
    have haddr : slot s i k = (s.inode i).addrs k := slot_direct s i hk.le
    unfold truncDirect
    rw [← haddr]
    split
    · rename_i hs
      have hused : s.used (slot s i k) = true := (h.marked (place_eq_some hs)).1
      have hc : Cleared s (((s.mark (slot s i k) false).logWrite
          (sb.BBLOCK (slot s i k))).setAddr i k 0) i (· = k) := setAddr_cleared hk hs
      obtain ⟨s', hs', hc'⟩ := ih hks' (hc.pool h)
      refine ⟨s', by rw [bfree, if_pos hused]; exact hs', ?_⟩
      simpa only [List.mem_cons] using hc.trans hc'
    · rename_i hs
      obtain ⟨s', hs', hc'⟩ := ih hks' h
      refine ⟨s', hs', hc'.mono (fun l hl => List.mem_cons_of_mem _ hl) fun l hl => ?_⟩
      obtain rfl | hl := List.mem_cons.mp hl
      · exact .inr (not_not.mp hs)
      · exact .inl hl

/-- The loop over the words `js` of an indirect block: their blocks are free. -/
theorem truncEntries_spec (sb : Superblock) {a : ℕ → UInt8} {js : List ℕ} (hnodup : js.Nodup)
    (hused : ∀ j ∈ js, word a j ≠ 0 → s.used (word a j) = true)
    (hne : ∀ j ∈ js, ∀ l ∈ js, word a j ≠ 0 → word a j = word a l → j = l) :
    ∃ s', truncEntries sb a js s = some s' ∧ s'.data = s.data ∧ s'.inode = s.inode ∧
      ∀ b, s'.used b = true ↔ s.used b = true ∧ ∀ j ∈ js, word a j ≠ 0 → b ≠ word a j := by
  induction js generalizing s with
  | nil => exact ⟨s, rfl, rfl, rfl, fun b => by simp⟩
  | cons j js ih =>
    obtain ⟨hj, hnodup⟩ := List.nodup_cons.mp hnodup
    have hne' : ∀ k ∈ js, ∀ l ∈ js, word a k ≠ 0 → word a k = word a l → k = l := fun k hk l hl =>
      hne k (List.mem_cons_of_mem _ hk) l (List.mem_cons_of_mem _ hl)
    unfold truncEntries
    split
    · rename_i hs
      rw [bfree, if_pos (hused j List.mem_cons_self hs)]
      have hmark : ∀ b, ((s.mark (word a j) false).logWrite (sb.BBLOCK (word a j))).used b = true ↔
          s.used b = true ∧ b ≠ word a j := by
        intro b
        show Function.update s.used (word a j) false b = true ↔ _
        by_cases hb : b = word a j
        · rw [hb, Function.update_self]
          simp
        · rw [Function.update_of_ne hb]
          simp [hb]
      obtain ⟨s', hs', hdata, hinode, hu⟩ := ih
        (s := (s.mark (word a j) false).logWrite (sb.BBLOCK (word a j))) hnodup
        (fun k hk hz => (hmark _).mpr ⟨hused k (List.mem_cons_of_mem _ hk) hz, fun he =>
          hj (hne k (List.mem_cons_of_mem _ hk) j List.mem_cons_self hz he ▸ hk)⟩) hne'
      refine ⟨s', hs', hdata, hinode, fun b => ?_⟩
      rw [hu, hmark, List.forall_mem_cons]
      exact ⟨fun hb => ⟨hb.1.1, fun _ => hb.1.2, hb.2⟩, fun hb => ⟨⟨hb.1, hb.2.1 hs⟩, hb.2.2⟩⟩
    · rename_i hs
      obtain ⟨s', hs', hdata, hinode, hu⟩ := ih hnodup
        (fun k hk => hused k (List.mem_cons_of_mem _ hk)) hne'
      refine ⟨s', hs', hdata, hinode, fun b => ?_⟩
      rw [hu, List.forall_mem_cons]
      exact and_congr_right fun _ => ⟨fun hb => ⟨fun hz => absurd hz hs, hb⟩, fun hb => hb.2⟩

/-- The slots from the indirect block on. -/
theorem truncIndirect_spec (h : Pool sb.avail s.used (place s)) :
    ∃ s', truncIndirect sb i s = some s' ∧ Cleared s s' i (NDIRECT ≤ ·) := by
  have haddr : slot s i NDIRECT = (s.inode i).addrs NDIRECT := slot_direct s i le_rfl
  unfold truncIndirect
  rw [← haddr]
  by_cases hs : slot s i NDIRECT = 0
  · refine ⟨s, if_neg (not_not.mpr hs), (Cleared.refl s i).mono (fun _ hl => hl.elim) ?_⟩
    exact fun l hl => .inr (slot_of_indirect_zero hs hl)
  have hword : ∀ j < NINDIRECT, slot s i (j + (NDIRECT + 1)) = word (s.data (slot s i NDIRECT)) j :=
    fun j hj => slot_indirect s i hj hs
  -- the words are in slots of their own, so that no bit is cleared twice
  have hplace : ∀ j < NINDIRECT, word (s.data (slot s i NDIRECT)) j ≠ 0 →
      place s (i, j + (NDIRECT + 1)) = some (word (s.data (slot s i NDIRECT)) j) := by
    intro j hj hz
    rw [← hword j hj] at hz ⊢
    exact place_eq_some hz
  obtain ⟨s₁, hs₁, hdata, hinode, hu⟩ := truncEntries_spec sb (s := s)
    (a := s.data (slot s i NDIRECT)) List.nodup_range
    (fun j hj hz => (h.marked (hplace j (List.mem_range.mp hj) hz)).1)
    (fun j hj l hl hz he => by
      have hp := hplace j (List.mem_range.mp hj) hz
      have hq := hplace l (List.mem_range.mp hl) (he ▸ hz)
      rw [← he] at hq
      have := (Prod.mk.inj (h.unique hp hq)).2
      omega)
  -- and the indirect block is none of those it lists
  have hind : s₁.used (slot s i NDIRECT) = true := by
    refine (hu _).mpr ⟨(h.marked (place_eq_some hs)).1, fun j hj hz he => ?_⟩
    have hp := hplace j (List.mem_range.mp hj) hz
    rw [← he] at hp
    have := (Prod.mk.inj (h.unique (place_eq_some hs) hp)).2
    omega
  obtain ⟨s₂, hs₂⟩ : ∃ s₂, (s₁.mark (slot s i NDIRECT) false).logWrite
      (sb.BBLOCK (slot s i NDIRECT)) = s₂ := ⟨_, rfl⟩
  have hinode₂ : s₂.inode = s.inode := by rw [← hs₂, ← hinode]; rfl
  have hdata₂ : s₂.data = s.data := by rw [← hs₂, ← hdata]; rfl
  have hused₂ : s₂.used = Function.update s₁.used (slot s i NDIRECT) false := by rw [← hs₂]; rfl
  have hslot : ∀ j l, slot (s₂.setAddr i NDIRECT 0) j l =
      if j = i ∧ NDIRECT ≤ l then 0 else slot s j l := by
    intro j l
    by_cases hj : j = i
    · subst hj
      by_cases hl : NDIRECT ≤ l
      · rw [if_pos ⟨rfl, hl⟩]
        refine slot_of_indirect_zero ?_ hl
        rw [slot_direct _ _ le_rfl, addrs_setAddr, if_pos ⟨rfl, rfl⟩]
      · rw [if_neg (by omega), slot_direct _ _ (by omega), addrs_setAddr, if_neg (by omega),
          hinode₂, slot_direct _ _ (by omega)]
    · rw [if_neg fun hc => hj hc.1]
      refine slot_congr ?_ fun _ => ?_
      · funext l'
        rw [addrs_setAddr, if_neg fun hc => hj hc.1, hinode₂]
      · exact congrFun hdata₂ _
  refine ⟨s₂.setAddr i NDIRECT 0, ?_, fun l hl => ?_, fun j l hl => ?_, fun b => ?_, hdata₂,
    fun j => ?_⟩
  · rw [if_pos hs, hs₁, Option.bind_some, bfree, if_pos hind, hs₂]
    rfl
  · rw [hslot, if_pos ⟨rfl, hl⟩]
  · rw [hslot, if_neg hl]
  · have hmark : (s₂.setAddr i NDIRECT 0).used b = true ↔
        b ≠ slot s i NDIRECT ∧ s₁.used b = true := by
      show s₂.used b = true ↔ _
      rw [hused₂]
      by_cases hb : b = slot s i NDIRECT
      · rw [hb, Function.update_self]
        simp
      · rw [Function.update_of_ne hb]
        simp [hb]
    rw [hmark, hu]
    constructor
    · rintro ⟨hb, hub, hw⟩
      refine ⟨hub, fun l hl hp => ?_⟩
      obtain ⟨hp, hz⟩ := place_eq_some_iff.mp hp
      by_cases hle : l ≤ NDIRECT
      · obtain rfl : l = NDIRECT := by omega
        exact hb hp.symm
      · obtain ⟨j, rfl⟩ : ∃ j, l = j + (NDIRECT + 1) := ⟨l - (NDIRECT + 1), by omega⟩
        by_cases hj : j < NINDIRECT
        · rw [hword j hj] at hp
          exact hw j (List.mem_range.mpr hj) (hp ▸ hz) hp.symm
        · rw [slot, if_neg hle, if_neg (by unfold MAXFILE; omega)] at hp
          exact hz hp.symm
    · rintro ⟨hub, hp⟩
      refine ⟨fun hb => hp NDIRECT le_rfl (hb ▸ place_eq_some hs), hub, fun j hj hz hb => ?_⟩
      exact hp _ (by omega) (hb ▸ hplace j (List.mem_range.mp hj) hz)
  · rw [← hinode₂]
    exact inode_setAddr s₂ i NDIRECT 0 j

/-- The calls that leave the other files alone, and the data. -/
structure Emptied (sb : Superblock) (s s' : Fs) (i : ℕ) : Prop where
  inv : Inv sb s'
  size : (s'.inode i).size = 0
  slot : ∀ l, slot s' i l = 0
  other : ∀ j, j ≠ i → (s'.inode j).type = (s.inode j).type ∧
    (s'.inode j).size = (s.inode j).size ∧ ∀ l, Fs.slot s' j l = Fs.slot s j l
  data : s'.data = s.data

/-- A disk is full behind such a call only if it was, and the file had no
block. -/
theorem Emptied.full (he : Emptied sb s s' i) (h : Inv sb s) (hfull : Full sb s') :
    Full sb s ∧ ∀ l, Fs.slot s i l = 0 := by
  have hback : ∀ j l, Fs.slot s' j l ≠ 0 → j ≠ i ∧ Fs.slot s j l = Fs.slot s' j l := by
    intro j l hne
    have hji : j ≠ i := by
      rintro rfl
      exact hne (he.slot l)
    exact ⟨hji, ((he.other j hji).2.2 l).symm⟩
  refine ⟨he.inv.full_of_slots h (fun j l hne => ⟨j, l, (hback j l hne).2⟩) hfull, fun l => ?_⟩
  by_contra hne
  -- the block would be in another slot as well
  obtain ⟨-, havail⟩ := h.used hne
  obtain ⟨p, hp⟩ := he.inv.pool.held havail (hfull _ havail)
  obtain ⟨hpb, -⟩ := place_eq_some_iff.mp hp
  obtain ⟨hpi, hold⟩ := hback p.1 p.2 (by rw [hpb]; exact hne)
  exact hpi (h.unique (hold ▸ hpb ▸ hne) (hold.trans hpb)).1

/-- **`itrunc`** empties the file and gives back all its blocks. -/
theorem itrunc_spec (h : Inv sb s) (i : ℕ) : ∃ s', itrunc sb s i = some s' ∧
    Emptied sb s s' i ∧ (s'.inode i).type = (s.inode i).type := by
  have hks : ∀ k ∈ List.range NDIRECT, k < NDIRECT := fun k hk => List.mem_range.mp hk
  obtain ⟨s₁, hs₁, hc₁⟩ := truncDirect_spec (i := i) hks h.pool
  obtain ⟨s₂, hs₂, hc₂⟩ := truncIndirect_spec (i := i) (hc₁.pool h.pool)
  have hc : Cleared s s₂ i fun _ => True := by
    refine (hc₁.trans hc₂).mono (fun _ _ => trivial) fun l _ => .inl ?_
    rw [List.mem_range]
    exact Nat.lt_or_ge l NDIRECT
  -- with the slots gone, `iupdate` changes the size only
  obtain ⟨s₃, hs₃⟩ : ∃ s₃, iupdate sb (s₂.setSize i 0) i = s₃ := ⟨_, rfl⟩
  have hslot : ∀ j l, slot s₃ j l = slot s₂ j l := by
    intro j l
    rw [← hs₃]
    exact slot_setSize s₂ i 0 j l
  have hinode : ∀ j, (s₃.inode j).type = (s.inode j).type ∧
      (s₃.inode j).size = if j = i then 0 else (s.inode j).size := by
    intro j
    have hj : s₃.inode j = { s₂.inode j with size := if j = i then 0 else (s₂.inode j).size } := by
      rw [← hs₃]
      exact inode_setSize s₂ i 0 j
    rw [hj]
    exact ⟨(hc.inode j).1, by rw [(hc.inode j).2]⟩
  have hplace : place s₃ = place s₂ := by
    funext p
    unfold place
    rw [hslot]
  have hused : s₃.used = s₂.used := by rw [← hs₃]; rfl
  refine ⟨s₃, ?_, ⟨⟨?_, fun b hb => ?_, fun j p hp => ?_, fun j => ?_, fun j hj => ?_⟩, ?_,
    fun l => ?_, fun j hj => ⟨(hinode j).1, ?_, fun l => ?_⟩, ?_⟩, (hinode i).1⟩
  · rw [itrunc, hs₁, Option.bind_some, hs₂, ← hs₃]
    rfl
  · rw [hplace, hused]
    exact hc.pool h.pool
  · rw [hused, hc.used]
    -- the blocks given back are data blocks, so the others stay marked
    refine ⟨h.meta_used b hb, fun l _ hp => ?_⟩
    have hlt := (h.pool.marked hp).2.1
    omega
  · have hji : j ≠ i := by
      rintro rfl
      rw [(hinode j).2, if_pos rfl] at hp
      exact Nat.not_lt_zero p hp
    rw [(hinode j).2, if_neg hji] at hp
    rw [hslot, hc.stay j _ fun hc => hji hc.1]
    exact h.full j p hp
  · rw [(hinode j).2]
    split
    · exact Nat.zero_le _
    · exact h.size_le j
  · rw [(hinode j).1] at hj
    obtain ⟨hsize, hslots⟩ := h.free j hj
    refine ⟨?_, fun l => ?_⟩
    · rw [(hinode j).2, hsize, ite_self]
    · rw [hslot]
      by_cases hji : j = i
      · rw [hji]
        exact hc.gone l trivial
      · rw [hc.stay j l fun hc => hji hc.1]
        exact hslots l
  · rw [(hinode i).2, if_pos rfl]
  · rw [hslot]
    exact hc.gone l trivial
  · rw [(hinode j).2, if_neg hj]
  · rw [hslot, hc.stay j l fun hc => hj hc.1]
  · rw [← hs₃, ← hc.data]
    rfl

/-- An inode without blocks is overwritten by one without blocks. -/
theorem Inv.emptied {ip : Inode} {bs : List ℕ} (h : Inv sb s) (hs : ∀ l, slot s i l = 0)
    (hsize : ip.size = 0) (haddrs : ∀ k, k ≤ NDIRECT → ip.addrs k = 0) :
    Emptied sb s { s with inode := Function.update s.inode i ip, logged := bs } i := by
  obtain ⟨s', hs'⟩ : ∃ s' : Fs,
      { s with inode := Function.update s.inode i ip, logged := bs } = s' := ⟨_, rfl⟩
  have hself : s'.inode i = ip := by
    rw [← hs']
    exact Function.update_self ..
  have hother : ∀ j, j ≠ i → s'.inode j = s.inode j := by
    intro j hj
    rw [← hs']
    exact Function.update_of_ne hj ..
  have hdata : s'.data = s.data := by rw [← hs']
  have hslot : ∀ j l, slot s' j l = slot s j l := by
    intro j l
    by_cases hj : j = i
    · subst hj
      rw [hs l]
      by_cases hl : l ≤ NDIRECT
      · rw [slot_direct _ _ hl, hself, haddrs l hl]
      · refine slot_of_indirect_zero ?_ (Nat.le_of_not_le hl)
        rw [slot_direct _ _ le_rfl, hself, haddrs _ le_rfl]
    · refine slot_congr (by rw [hother j hj]) fun _ => ?_
      rw [hdata]
  -- only the inode changes, and it has no slots before or after
  rw [hs']
  refine ⟨h.of_slots hslot (by rw [← hs']) (fun j p hp => ?_) (fun j => ?_) fun j hj => ?_,
    by rw [hself, hsize], fun l => by rw [hslot, hs l],
    fun j hj => ⟨by rw [hother j hj], by rw [hother j hj], hslot j⟩, hdata⟩
  · by_cases hj : j = i
    · subst hj
      rw [hself, hsize] at hp
      exact absurd hp (Nat.not_lt_zero p)
    · rw [hother j hj] at hp
      exact h.full j p hp
  · by_cases hj : j = i
    · rw [hj, hself, hsize]
      exact Nat.zero_le _
    · rw [hother j hj]
      exact h.size_le j
  · by_cases hji : j = i
    · subst hji
      exact ⟨by rw [hself, hsize], hs⟩
    · rw [hother j hji] at hj ⊢
      exact h.free j hj

/-- `ialloc` takes a free inode, whose file is empty. -/
theorem ialloc_spec (h : Inv sb s) (type : ℕ) :
    (ialloc sb s type = (0, s) ∧ ∀ i, 1 ≤ i → i < sb.ninodes → (s.inode i).type ≠ 0) ∨
    ∃ i s', ialloc sb s type = (i, s') ∧ 1 ≤ i ∧ i < sb.ninodes ∧ (s.inode i).type = 0 ∧
      (s'.inode i).type = type ∧ Emptied sb s s' i := by
  unfold ialloc
  split
  · rename_i i hi
    obtain ⟨hpos, htype⟩ : 1 ≤ i ∧ (s.inode i).type = 0 := by simpa using List.find?_some hi
    have hlt : i < sb.ninodes := List.mem_range.mp (List.mem_of_find?_eq_some hi)
    refine .inr ⟨i, _, rfl, hpos, hlt, htype, ?_, h.emptied (h.free i htype).2 rfl fun _ _ => rfl⟩
    show (Function.update s.inode i _ i).type = type
    rw [Function.update_self]
  · rename_i hnone
    refine .inl ⟨rfl, fun i hpos hlt htype => ?_⟩
    exact absurd (List.find?_eq_none.mp hnone i (List.mem_range.mpr hlt)) (by simp [hpos, htype])

/-- The inode is free, and so are its blocks. -/
theorem iput_spec (h : Inv sb s) (i : ℕ) : ∃ s', iput sb s i = some s' ∧
    Emptied sb s s' i ∧ (s'.inode i).type = 0 := by
  obtain ⟨s₁, hs₁, he, -⟩ := itrunc_spec h i
  have he' : Emptied sb s₁ (ifree sb s₁ i) i := he.inv.emptied he.slot he.size fun k hk => by
    rw [← slot_direct s₁ i hk]
    exact he.slot k
  refine ⟨ifree sb s₁ i, by rw [iput, hs₁]; rfl, ⟨he'.inv, he'.size, he'.slot, fun j hj => ?_,
    he'.data.trans he.data⟩, ?_⟩
  · obtain ⟨htype, hsize, hslot⟩ := he.other j hj
    obtain ⟨htype', hsize', hslot'⟩ := he'.other j hj
    exact ⟨htype'.trans htype, hsize'.trans hsize, fun l => (hslot' l).trans (hslot l)⟩
  · show (Function.update s₁.inode i _ i).type = 0
    rw [Function.update_self]

end Fs

end Xv6
