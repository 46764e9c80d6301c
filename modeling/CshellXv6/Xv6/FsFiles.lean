/-
What the files hold.

A file is the list of its bytes, looked up block by block.  The loops of `readi`
and `writei` go through it in pieces that do not cross a block.

* `Fs.contents` — the bytes of a file;
* `Fs.Wrote` — a step that writes some bytes of one file, and what it keeps;
* `Fs.readi_spec`, `Fs.writei_spec` — the two calls on the list.
-/
import Mathlib.Data.List.Range
import CshellXv6.Xv6.FsInvariant

namespace Xv6

namespace Fs

open Words

/-- There is a block for place `p` of the file. -/
def there (s : Fs) (i p : ℕ) : Prop := slot s i (slotOf (p / BSIZE)) ≠ 0

/-- The byte at place `p` of the file. -/
def byteAt (s : Fs) (i p : ℕ) : UInt8 := s.data (slot s i (slotOf (p / BSIZE))) (p % BSIZE)

/-- What the file holds. -/
def contents (s : Fs) (i : ℕ) : List UInt8 := (List.range (s.inode i).size).map (byteAt s i)

variable {sb : Superblock} {s s' : Fs} {i j a b c p off n tot m bn x : ℕ} {f : ℕ → UInt8}

@[simp] theorem length_contents (s : Fs) (i : ℕ) : (contents s i).length = (s.inode i).size := by
  rw [contents, List.length_map, List.length_range]

theorem getElem?_contents (s : Fs) (i p : ℕ) :
    (contents s i)[p]? = if p < (s.inode i).size then some (byteAt s i p) else none := by
  rw [contents, List.getElem?_map]
  split
  · rename_i h
    rw [List.getElem?_range h, Option.map_some]
  · rename_i h
    rw [List.getElem?_eq_none (by rw [List.length_range]; omega), Option.map_none]

theorem slotOf_ne (bn : ℕ) : slotOf bn ≠ NDIRECT := by
  unfold slotOf
  split <;> omega

theorem slotOf_inj (h : slotOf a = slotOf b) : a = b := by
  unfold slotOf at h
  split at h <;> split at h <;> omega

/-- The bytes `a` to `b` of file `i` become those of `f`; nothing else that is
there changes. -/
structure Wrote (s s' : Fs) (i a b : ℕ) (f : ℕ → UInt8) : Prop where
  inode : ∀ j, (s'.inode j).type = (s.inode j).type ∧ (s'.inode j).size = (s.inode j).size
  slot : ∀ j k, slot s j k ≠ 0 → Fs.slot s' j k = Fs.slot s j k
  other : ∀ j k, j ≠ i → Fs.slot s' j k = Fs.slot s j k
  byte : ∀ j p, there s j p → (j = i → p < a ∨ b ≤ p) → byteAt s' j p = byteAt s j p
  written : ∀ p, a ≤ p → p < b → there s' i p ∧ byteAt s' i p = f p

namespace Wrote

theorem there (h : Wrote s s' i a b f) (hp : Fs.there s j p) : Fs.there s' j p := by
  unfold Fs.there
  rw [h.slot j _ hp]
  exact hp

theorem trans {s₁ s₂ s₃ : Fs} (h : Wrote s₁ s₂ i a b f) (h' : Wrote s₂ s₃ i b c f) (hab : a ≤ b)
    (hbc : b ≤ c) : Wrote s₁ s₃ i a c f := by
  refine ⟨fun j => ?_, fun j k hs => ?_, fun j k hj => ?_, fun j p hp hout => ?_,
    fun p hap hpc => ?_⟩
  · exact ⟨(h'.inode j).1.trans (h.inode j).1, (h'.inode j).2.trans (h.inode j).2⟩
  · have hs' := h.slot j k hs
    exact (h'.slot j k (by rw [hs']; exact hs)).trans hs'
  · exact (h'.other j k hj).trans (h.other j k hj)
  · rw [h'.byte j p (h.there hp) fun hj => (hout hj).imp (by omega) id,
      h.byte j p hp fun hj => (hout hj).imp id (by omega)]
  · by_cases hpb : p < b
    · obtain ⟨hthere, hbyte⟩ := h.written p hap hpb
      exact ⟨h'.there hthere, (h'.byte i p hthere fun _ => .inl hpb).trans hbyte⟩
    · exact h'.written p (by omega) hpc

end Wrote

/-- Allocating writes nothing. -/
theorem Grows.wrote (hg : Grows s s' i) (a : ℕ) (f : ℕ → UInt8) : Wrote s s' i a a f := by
  refine ⟨hg.inode, hg.slot, hg.other, fun j p hp _ => ?_, fun p hap hpa => by omega⟩
  rw [byteAt, hg.slot j _ hp, hg.data j _ (slotOf_ne _) hp]
  rfl

/-- Writing into one block of the file. -/
theorem Inv.wrote (h : Inv sb s) {bs : List UInt8} (hs : slot s i (slotOf bn) ≠ 0)
    (hx : x + bs.length ≤ BSIZE) (hbs : ∀ l (hl : l < bs.length), bs[l] = f (bn * BSIZE + x + l)) :
    Inv sb ((s.setData (slot s i (slotOf bn))
      (splice (s.data (slot s i (slotOf bn))) x bs)).logWrite (slot s i (slotOf bn))) ∧
    Wrote s ((s.setData (slot s i (slotOf bn))
      (splice (s.data (slot s i (slotOf bn))) x bs)).logWrite (slot s i (slotOf bn)))
      i (bn * BSIZE + x) (bn * BSIZE + x + bs.length) f := by
  obtain ⟨s', hs'⟩ : ∃ s', (s.setData (slot s i (slotOf bn))
      (splice (s.data (slot s i (slotOf bn))) x bs)).logWrite (slot s i (slotOf bn)) = s' :=
    ⟨_, rfl⟩
  have hinode : s'.inode = s.inode := by rw [← hs']; rfl
  have hdata : s'.data = Function.update s.data (slot s i (slotOf bn))
      (splice (s.data (slot s i (slotOf bn))) x bs) := by rw [← hs']; rfl
  have hslot : ∀ j k, slot s' j k = slot s j k := by
    intro j k
    refine slot_congr (by rw [hinode]) fun hne => ?_
    rw [hdata, Function.update_of_ne]
    intro he
    exact slotOf_ne bn (h.unique hne he).2.symm
  rw [hs']
  refine ⟨h.of_slots hslot (by rw [← hs']; rfl) ?_ ?_ ?_, fun j => by rw [hinode]; exact ⟨rfl, rfl⟩,
    fun j k _ => hslot j k, fun j k _ => hslot j k, fun j p hp hout => ?_, fun p hap hpb => ?_⟩
  · rw [hinode]
    exact h.full
  · rw [hinode]
    exact h.size_le
  · rw [hinode]
    exact h.free
  · rw [byteAt, byteAt, hslot, hdata]
    by_cases he : slot s j (slotOf (p / BSIZE)) = slot s i (slotOf bn)
    · -- the same block is the same block of the same file
      obtain ⟨rfl, hk⟩ := h.unique hp he
      have hbn := slotOf_inj hk
      subst hbn
      rw [Function.update_self]
      have hp' := Nat.div_add_mod' p BSIZE
      obtain hlt | hge := hout rfl
      · rw [splice_lt (by omega)]
      · rw [splice_ge (by omega)]
    · rw [Function.update_of_ne he]
  · have hbn : p / BSIZE = bn := by
      clear hslot hdata hs' hinode hbs
      unfold BSIZE at hx hap hpb ⊢
      omega
    subst hbn
    have hp' := Nat.div_add_mod' p BSIZE
    refine ⟨by rw [Fs.there, hslot]; exact hs, ?_⟩
    rw [byteAt, hslot, hdata, Function.update_self, splice_in (by omega) (by omega), hbs]
    have hidx : p / BSIZE * BSIZE + x + (p % BSIZE - x) = p := by omega
    rw [hidx]

/-! ### Reading -/

theorem byteAt_add (h : (off + tot) % BSIZE + x < BSIZE) :
    byteAt s i (off + tot + x) =
      s.data (slot s i (slotOf ((off + tot) / BSIZE))) ((off + tot) % BSIZE + x) := by
  have hdiv : (off + tot + x) / BSIZE = (off + tot) / BSIZE := by
    unfold BSIZE at *
    omega
  have hmod : (off + tot + x) % BSIZE = (off + tot) % BSIZE + x := by
    unfold BSIZE at *
    omega
  rw [byteAt, hdiv, hmod]

theorem chunk_pos (off : ℕ) (h : tot < n) : 0 < chunk off n tot := by
  have hlt : (off + tot) % BSIZE < BSIZE := Nat.mod_lt _ (by decide)
  unfold chunk
  omega

theorem chunk_le (off n tot : ℕ) : chunk off n tot ≤ n - tot := Nat.min_le_left _ _

theorem chunk_fits (off n tot : ℕ) : (off + tot) % BSIZE + chunk off n tot ≤ BSIZE := by
  have hlt : (off + tot) % BSIZE < BSIZE := Nat.mod_lt _ (by decide)
  unfold chunk
  omega

theorem lt_maxfile (hp : p < MAXFILE * BSIZE) : p / BSIZE < MAXFILE :=
  (Nat.div_lt_iff_lt_mul (by decide)).mpr hp

/-- The loop of `readi` copies the bytes of the file, and changes nothing. -/
theorem readLoop_spec (h : Inv sb s) (dst : ℕ → Bool) {k : ℕ} {acc : List UInt8}
    (hsize : off + n ≤ (s.inode i).size) (hacc : acc.length ≤ n) (hk : n - acc.length ≤ k) :
    ∃ out, readLoop sb i dst off n k acc s = some (out, s) ∧
      ((∀ j, acc.length ≤ j → j < n → dst j = true) → out = some (acc ++
        (List.range (n - acc.length)).map fun j => byteAt s i (off + acc.length + j))) ∧
      ((∃ j, acc.length ≤ j ∧ j < n ∧ dst j = false) → out = none) := by
  have hdone : ∀ acc : List UInt8, acc.length = n →
      ((∀ j, acc.length ≤ j → j < n → dst j = true) → some acc = some (acc ++
        (List.range (n - acc.length)).map fun j => byteAt s i (off + acc.length + j))) ∧
      ((∃ j, acc.length ≤ j ∧ j < n ∧ dst j = false) → some acc = none) := by
    intro acc hn
    rw [hn, Nat.sub_self]
    refine ⟨fun _ => by simp, ?_⟩
    rintro ⟨j, hj, hjn, -⟩
    omega
  induction k generalizing acc with
  | zero => exact ⟨_, rfl, hdone acc (by omega)⟩
  | succ k ih =>
    rw [readLoop]
    by_cases hlt : acc.length < n
    · have hin : off + acc.length < (s.inode i).size := by omega
      have hs := h.full i _ hin
      have hmax := lt_maxfile (hin.trans_le (h.size_le i))
      rw [if_pos hlt, bmap_there hmax hs]
      simp only [if_neg hs]
      have hpos := chunk_pos off hlt
      have hle := chunk_le off n acc.length
      have hfits := chunk_fits off n acc.length
      -- `m` bytes, all of one block
      obtain ⟨m, hm⟩ : ∃ m, chunk off n acc.length = m := ⟨_, rfl⟩
      rw [hm] at hpos hle hfits ⊢
      by_cases hall : ((List.range m).all fun j => dst (acc.length + j)) = true
      · rw [if_pos hall]
        obtain ⟨piece, hpiece⟩ : ∃ piece, ((List.range m).map fun j => s.data
            (slot s i (slotOf ((off + acc.length) / BSIZE)))
            ((off + acc.length) % BSIZE + j)) = piece := ⟨_, rfl⟩
        have hlen : piece.length = m := by rw [← hpiece, List.length_map, List.length_range]
        have hbytes : piece = (List.range m).map fun j => byteAt s i (off + acc.length + j) := by
          rw [← hpiece]
          refine List.map_congr_left fun j hj => ?_
          rw [byteAt_add]
          have := List.mem_range.mp hj
          omega
        have hall' : ∀ j, j < m → dst (acc.length + j) = true := fun j hj =>
          List.all_eq_true.mp hall j (List.mem_range.mpr hj)
        rw [hpiece]
        have hacc' : (acc ++ piece).length ≤ n := by
          rw [List.length_append]
          omega
        have hk' : n - (acc ++ piece).length ≤ k := by
          rw [List.length_append]
          omega
        obtain ⟨out, hout, hok, hbad⟩ := ih hacc' hk'
        rw [List.length_append, hlen] at hok hbad
        refine ⟨out, hout, fun hdst => ?_, ?_⟩
        · rw [hok fun j hj hjn => hdst j (by omega) hjn, hbytes]
          have hsplit : n - acc.length = m + (n - (acc.length + m)) := by omega
          rw [hsplit, List.range_add, List.map_append, List.map_map, List.append_assoc]
          congr 4
          funext j
          rw [Function.comp_apply]
          congr 1
          omega
        · rintro ⟨j, hj, hjn, hjd⟩
          refine hbad ⟨j, ?_, hjn, hjd⟩
          by_contra hlt'
          have hj' := hall' (j - acc.length) (by omega)
          rw [Nat.add_sub_cancel' hj, hjd] at hj'
          cases hj'
      · rw [if_neg hall]
        refine ⟨none, rfl, fun hdst => ?_, fun _ => rfl⟩
        refine absurd (List.all_eq_true.mpr fun j hj => ?_) hall
        have := List.mem_range.mp hj
        exact hdst _ (by omega) (by omega)
    · rw [if_neg hlt]
      exact ⟨_, rfl, hdone acc (by omega)⟩

/-- What a read of `n` bytes at `off` is about. -/
def window (bs : List UInt8) (off n : UInt32) : List UInt8 :=
  if off + n < off then [] else (bs.drop off.toNat).take n.toNat

/-- **`readi`** gives the bytes of the file, or -1 if one of them cannot be
copied out, and changes nothing. -/
theorem readi_spec (h : Inv sb s) (i : ℕ) (dst : ℕ → Bool) (off n : UInt32) :
    ∃ out, readi sb s i dst off n = some (out, s) ∧
      ((∀ j < (window (contents s i) off n).length, dst j = true) →
        out = some (window (contents s i) off n)) ∧
      ((∃ j < (window (contents s i) off n).length, dst j = false) → out = none) := by
  unfold readi
  by_cases hc : (s.inode i).size < off.toNat ∨ off + n < off
  · have hw : window (contents s i) off n = [] := by
      unfold window
      split
      · rfl
      · rename_i hover
        rw [List.drop_of_length_le (by rw [length_contents]; exact (hc.resolve_right hover).le)]
        exact List.take_nil
    rw [if_pos hc, hw]
    refine ⟨_, rfl, fun _ => rfl, ?_⟩
    rintro ⟨j, hj, -⟩
    exact absurd hj (Nat.not_lt_zero j)
  · obtain ⟨hoff, hover⟩ := not_or.mp hc
    obtain ⟨l, hl⟩ : ∃ l, min n.toNat ((s.inode i).size - off.toNat) = l := ⟨_, rfl⟩
    have hwin : window (contents s i) off n =
        (List.range l).map fun j => byteAt s i (off.toNat + j) := by
      rw [window, if_neg hover]
      refine List.ext_getElem? fun p => ?_
      rw [List.getElem?_take, List.getElem?_drop, getElem?_contents, List.getElem?_map]
      by_cases hp : p < l
      · rw [if_pos (by omega), if_pos (by omega), List.getElem?_range hp, Option.map_some]
      · rw [List.getElem?_eq_none (by rw [List.length_range]; omega), Option.map_none]
        split
        · exact if_neg (by omega)
        · rfl
    rw [if_neg hc, hl, hwin, List.length_map, List.length_range]
    have hsize : off.toNat + l ≤ (s.inode i).size := by omega
    have hacc : ([] : List UInt8).length ≤ l := Nat.zero_le l
    obtain ⟨out, hout, hok, hbad⟩ := readLoop_spec h dst hsize hacc (Nat.sub_le l 0)
    refine ⟨out, hout, fun hd => ?_, fun hd => hbad ?_⟩
    · exact hok fun j _ hj => hd j hj
    · obtain ⟨j, hj, hd⟩ := hd
      exact ⟨j, Nat.zero_le _, hj, hd⟩

end Fs

end Xv6
