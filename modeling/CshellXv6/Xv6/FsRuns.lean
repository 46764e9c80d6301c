/-
The disk as a set of files.

Seen from outside, an inode is free or holds a list of bytes, and the disk may be
full.  Whatever calls are made, one after the other, the lists are those that the
calls describe, a call that does less than it was asked for has its reason, and
the blocks stay accounted for.

* `Files.Step` — what a call may do to the lists;
* `Fs.refines_files` — the disk does nothing else;
* `Fs.blocks_accounted` — which blocks are marked, and when one of these functions
  panics.
-/
import CshellXv6.Lib.Transition
import CshellXv6.Xv6.FsTrunc
import CshellXv6.Xv6.FsWrite

namespace Xv6

open Fs

/-- The disk from outside: what each inode holds, `none` if it is free, and
whether no data block is free. -/
structure Files where
  holds : ℕ → Option (List UInt8)
  full : Prop

/-- A call and what it returns, on the lists, with inodes from 1 up to `ninodes`.
A write that returns `r` has written `w` bytes: all, those in front of a byte that
cannot be read, or those for which there were blocks.  Behind a call that empties a
file, the disk is full only if it was and the file was empty. -/
inductive Files.Step (ninodes : ℕ) : Files → Call × Ret → Files → Prop
  | read {f : Files} {i : ℕ} {bs : List UInt8} {dst : ℕ → Bool} {off n : UInt32} :
    f.holds i = some bs → (∀ j < (window bs off n).length, dst j = true) →
    Step ninodes f (.read i dst off n, .got (some (window bs off n))) f
  | readFault {f : Files} {i : ℕ} {bs : List UInt8} {dst : ℕ → Bool} {off n : UInt32} :
    f.holds i = some bs → (∃ j < (window bs off n).length, dst j = false) →
    Step ninodes f (.read i dst off n, .got none) f
  | refused {f : Files} {i : ℕ} {bs : List UInt8} {src : ℕ → Option UInt8} {off n : UInt32} :
    f.holds i = some bs → bs.length < off.toNat ∨ MAXFILE * BSIZE < off.toNat + n.toNat →
    Step ninodes f (.write i src off n, .wrote (-1)) f
  | write {f : Files} {i r w : ℕ} {bs : List UInt8} {src : ℕ → Option UInt8} {off n : UInt32}
    {full : Prop} :
    f.holds i = some bs → off.toNat ≤ bs.length → off.toNat + n.toNat ≤ MAXFILE * BSIZE →
    r ≤ w → w ≤ n.toNat → w < r + BSIZE → (∀ j < w, src j ≠ none) →
    r = n.toNat ∨ (w < n.toNat ∧ src w = none) ∨ (r = w ∧ full) → (f.full → full) →
    Step ninodes f (.write i src off n, .wrote r) ⟨Function.update f.holds i
      (some ((pwrite bs off.toNat (sourceBytes src w)).take (max bs.length (off.toNat + r)))), full⟩
  | trunc {f : Files} {i : ℕ} {bs : List UInt8} {full : Prop} :
    f.holds i = some bs → (full → f.full ∧ bs = []) →
    Step ninodes f (.trunc i, .done) ⟨Function.update f.holds i (some []), full⟩
  | create {f : Files} {i type : ℕ} {hne : type ≠ 0} :
    1 ≤ i → i < ninodes → f.holds i = none →
    Step ninodes f (.create type hne, .made i) ⟨Function.update f.holds i (some []), f.full⟩
  | noInode {f : Files} {type : ℕ} {hne : type ≠ 0} :
    (∀ i, 1 ≤ i → i < ninodes → f.holds i ≠ none) →
    Step ninodes f (.create type hne, .made 0) f
  | put {f : Files} {i : ℕ} {bs : List UInt8} {full : Prop} :
    f.holds i = some bs → (full → f.full ∧ bs = []) →
    Step ninodes f (.put i, .done) ⟨Function.update f.holds i none, full⟩

namespace Fs

variable {sb : Superblock} {s s' : Fs} {i : ℕ}

/-- The lists of a disk. -/
def files (s : Fs) (i : ℕ) : Option (List UInt8) :=
  if (s.inode i).type = 0 then none else some (contents s i)

/-- A disk from outside. -/
def seen (sb : Superblock) (s : Fs) : Files := ⟨files s, Full sb s⟩

theorem files_of_type (hi : (s.inode i).type ≠ 0) : files s i = some (contents s i) := if_neg hi

/-- The other files are as before. -/
theorem files_eq_update {o : Option (List UInt8)}
    (htype : ∀ j, j ≠ i → (s'.inode j).type = (s.inode j).type)
    (hcont : ∀ j, j ≠ i → contents s' j = contents s j) (ho : files s' i = o) :
    files s' = Function.update (files s) i o := by
  funext j
  by_cases hj : j = i
  · rw [hj, Function.update_self, ho]
  · rw [Function.update_of_ne hj, files, files, htype j hj, hcont j hj]

theorem Emptied.contents (he : Emptied sb s s' i) : Fs.contents s' i = [] := by
  rw [Fs.contents, he.size]
  rfl

theorem Emptied.files {o : Option (List UInt8)} (he : Emptied sb s s' i)
    (ho : Fs.files s' i = o) : Fs.files s' = Function.update (Fs.files s) i o := by
  refine files_eq_update (fun j hj => (he.other j hj).1) (fun j hj => ?_) ho
  obtain ⟨-, hsize, hslot⟩ := he.other j hj
  unfold Fs.contents
  rw [hsize]
  refine List.map_congr_left fun p _ => ?_
  rw [byteAt, hslot, he.data]
  rfl

/-- A file without blocks is empty. -/
theorem Emptied.full_nil (he : Emptied sb s s' i) (h : Inv sb s) (hfull : Full sb s') :
    Full sb s ∧ Fs.contents s i = [] := by
  obtain ⟨hold, hslot⟩ := he.full h hfull
  refine ⟨hold, ?_⟩
  have hsize : (s.inode i).size = 0 := by
    by_contra hne
    exact h.full i 0 (Nat.pos_of_ne_zero hne) (hslot _)
  rw [Fs.contents, hsize]
  rfl

/-- A new file takes no block. -/
theorem Emptied.full_iff (he : Emptied sb s s' i) (h : Inv sb s) (hi : (s.inode i).type = 0) :
    Full sb s' ↔ Full sb s := by
  refine ⟨fun hfull => (he.full h hfull).1, h.full_of_slots he.inv fun j k hne => ⟨j, k, ?_⟩⟩
  have hji : j ≠ i := by
    rintro rfl
    exact hne ((h.free j hi).2 k)
  exact (he.other j hji).2.2 k

/-- The inode that a call locks is not free. -/
def Call.legal (s : Fs) : Call → Prop
  | .read i _ _ _ | .write i _ _ _ | .trunc i | .put i => (s.inode i).type ≠ 0
  | .create _ _ => True

/-- **A call** does not panic, keeps the blocks in order, and does to the lists
what it should. -/
theorem exec_spec (h : Inv sb s) {c : Call} (hc : c.legal s) :
    ∃ r s', exec sb s c = some (r, s') ∧ Inv sb s' ∧
      Files.Step sb.ninodes (seen sb s) (c, r) (seen sb s') := by
  have hlock : ∀ i, (s.inode i).type ≠ 0 → ilock s i = some s := fun i hi => if_neg hi
  cases c with
  | read i dst off n =>
    obtain ⟨out, he, hok, hbad⟩ := readi_spec h i dst off n
    refine ⟨.got out, s, by rw [exec, hlock i hc, Option.bind_some, he]; rfl, h, ?_⟩
    by_cases hd : ∃ j < (window (contents s i) off n).length, dst j = false
    · rw [hbad hd]
      exact .readFault (files_of_type hc) hd
    · have hd' : ∀ j < (window (contents s i) off n).length, dst j = true := by
        intro j hj
        by_contra hne
        exact hd ⟨j, hj, Bool.eq_false_iff.mpr hne⟩
      rw [hok hd']
      exact .read (files_of_type hc) hd'
  | write i src off n =>
    -- refused before anything is done, or written piece by piece
    obtain ⟨href, he⟩ | ⟨hoff, hmax, r, w, s', he, ha⟩ := writei_spec h hc src off n
    · refine ⟨.wrote (-1), s, by rw [exec, hlock i hc, Option.bind_some, he]; rfl, h, ?_⟩
      rw [← length_contents] at href
      exact .refused (files_of_type hc) href
    · have htype : (s'.inode i).type ≠ 0 := by
        rw [ha.type]
        exact hc
      refine ⟨.wrote r, s', by rw [exec, hlock i hc, Option.bind_some, he]; rfl, ha.inv, ?_⟩
      rw [seen, seen, files_eq_update (fun j _ => ha.type j) ha.other (files_of_type htype),
        ha.contents, ← length_contents s i]
      rw [← length_contents s i] at hoff
      obtain ⟨hrw, hwn⟩ := ha.le
      have hfull : Full sb s → Full sb s' :=
        h.full_of_slots ha.inv fun j k hs => ⟨j, k, ha.slot j k hs⟩
      exact .write (f := ⟨files s, Full sb s⟩) (files_of_type hc) hoff hmax hrw hwn ha.near ha.read
        ha.stop hfull
  | trunc i =>
    obtain ⟨s', he, hem, htype⟩ := itrunc_spec h i
    refine ⟨.done, s', by rw [exec, hlock i hc, Option.bind_some, he]; rfl, hem.inv, ?_⟩
    rw [seen, seen, hem.files (files_of_type (by rw [htype]; exact hc)), hem.contents]
    exact .trunc (f := ⟨files s, Full sb s⟩) (files_of_type hc) (hem.full_nil h)
  | create type hne =>
    -- no inode left, or a free one, which holds no block
    obtain ⟨he, hnone⟩ | ⟨i, s', he, hpos, hlt, hfree, htype, hem⟩ := ialloc_spec h type
    · refine ⟨.made 0, s, by rw [exec, he], h, .noInode fun i hpos hlt => ?_⟩
      exact (files_of_type (hnone i hpos hlt)).trans_ne (Option.some_ne_none _)
    · refine ⟨.made i, s', by rw [exec, he], hem.inv, ?_⟩
      rw [seen, seen, hem.files (files_of_type (by rw [htype]; exact hne)), hem.contents,
        propext (hem.full_iff h hfree)]
      exact .create (f := ⟨files s, Full sb s⟩) hpos hlt (if_pos hfree)
  | put i =>
    obtain ⟨s', he, hem, htype⟩ := iput_spec h i
    refine ⟨.done, s', by rw [exec, hlock i hc, Option.bind_some, he]; rfl, hem.inv, ?_⟩
    rw [seen, seen, hem.files (if_pos htype)]
    exact .put (f := ⟨files s, Full sb s⟩) (files_of_type hc) (hem.full_nil h)

theorem exec_none {c : Call} (hc : ¬ c.legal s) : exec sb s c = none := by
  have hlock : ∀ i, ¬ (s.inode i).type ≠ 0 → ilock s i = none := fun i hi => if_pos (not_not.mp hi)
  cases c with
  | read i dst off n => rw [exec, hlock i hc, Option.bind_none]
  | write i src off n => rw [exec, hlock i hc, Option.bind_none]
  | trunc i => rw [exec, hlock i hc, Option.bind_none]
  | create type hne => exact absurd trivial hc
  | put i => rw [exec, hlock i hc, Option.bind_none]

/-- A call that is made, with what it returns. -/
def Calls (sb : Superblock) (s : Fs) (e : Call × Ret) (s' : Fs) : Prop :=
  exec sb s e.1 = some (e.2, s')

theorem Calls.step {e : Call × Ret} (h : Inv sb s) (hs : Calls sb s e s') :
    Inv sb s' ∧ Files.Step sb.ninodes (seen sb s) e (seen sb s') := by
  have hc : e.1.legal s := by
    by_contra hc
    rw [Calls, exec_none hc] at hs
    cases hs
  obtain ⟨r, s₁, he, hinv, hstep⟩ := exec_spec h hc
  rw [Calls, he, Option.some_inj, Prod.mk.injEq] at hs
  obtain ⟨hr, rfl⟩ := hs
  rw [hr] at hstep
  exact ⟨hinv, hstep⟩

/-- **The disk is a set of files**: over any calls, the lists change as the calls
say, and what they return is what they should.  A write stops short only in front
of a byte that cannot be read or when no block is free, and a create fails only
when every inode is taken. -/
theorem refines_files {es : List (Call × Ret)} (h : Inv sb s) (hr : Steps (Calls sb) s es s') :
    Steps (Files.Step sb.ninodes) (seen sb s) es (seen sb s') :=
  (hr.map (seen sb) (fun _ _ _ hI hs => hs.step hI) h).2

theorem inv_calls {es : List (Call × Ret)} (h : Inv sb s) (hr : Steps (Calls sb) s es s') :
    Inv sb s' :=
  (hr.map (seen sb) (fun _ _ _ hI hs => hs.step hI) h).1

/-- A disk without files. -/
def blank (sb : Superblock) : Fs where
  used b := b < sb.nmeta
  data _ _ := 0
  inode _ := ⟨0, 0, fun _ => 0⟩
  logged := []

theorem inv_blank (sb : Superblock) : Inv sb (blank sb) := by
  have hslot : ∀ i k, slot (blank sb) i k = 0 := by
    intro i k
    by_cases hk : k ≤ NDIRECT
    · exact slot_direct _ _ hk
    · exact slot_of_indirect_zero (slot_direct _ _ le_rfl) (by omega)
  have hplace : ∀ p, place (blank sb) p = none := fun p => if_pos (hslot p.1 p.2)
  refine ⟨⟨fun hp => ?_, fun hp => ?_, fun {b} ha hb => ?_⟩, fun b hb => decide_eq_true hb,
    fun i p hp => absurd hp (Nat.not_lt_zero p), fun i => Nat.zero_le _, fun i _ => ⟨rfl, hslot i⟩⟩
  · rw [hplace] at hp
    cases hp
  · rw [hplace] at hp
    cases hp
  · have hlt : b < sb.nmeta := of_decide_eq_true hb
    exact absurd ha.1 (Nat.not_le_of_lt hlt)

/-- Make the calls; `none` if one does not return what it should. -/
def replay (sb : Superblock) : List (Call × Ret) → Fs → Option Fs
  | [], s => some s
  | e :: es, s => (exec sb s e.1).bind fun r => if r.1 = e.2 then replay sb es r.2 else none

theorem steps_of_replay {es : List (Call × Ret)} (h : replay sb es s = some s') :
    Steps (Calls sb) s es s' := by
  induction es generalizing s with
  | nil =>
    rw [replay, Option.some_inj] at h
    exact h ▸ .nil
  | cons e es ih =>
    obtain ⟨r, hr, h⟩ := Option.bind_eq_some_iff.mp h
    split at h
    · rename_i he
      have hstep : Calls sb s e r.2 := by rw [Calls, hr, ← he]
      exact .cons hstep (ih h)
    · cases h

/-- A small disk. -/
def noteDisk : Superblock := ⟨8, 5, 4, 1, 2, by decide, by decide⟩

/-- A file is made, written and read. -/
def noteCalls : List (Call × Ret) :=
  [(.create 2 (by decide), .made 1), (.write 1 (fun _ => some 7) 0 2, .wrote 2),
    (.read 1 (fun _ => true) 1 5, .got (some [7]))]

theorem exists_noteCalls : ∃ s, Steps (Calls noteDisk) (blank noteDisk) noteCalls s := by
  have hsome : (replay noteDisk noteCalls (blank noteDisk)).isSome = true := by decide +kernel
  obtain ⟨s, hs⟩ := Option.isSome_iff_exists.mp hsome
  exact ⟨s, steps_of_replay hs⟩

theorem refines_files_note : ∃ s, Steps (Calls noteDisk) (blank noteDisk) noteCalls s ∧
    Steps (Files.Step 4) (seen noteDisk (blank noteDisk)) noteCalls (seen noteDisk s) := by
  obtain ⟨s, hs⟩ := exists_noteCalls
  exact ⟨s, hs, refines_files (inv_blank noteDisk) hs⟩

/-- **Blocks are accounted for**: after any calls, a data block is marked if and
only if it is in one slot, and in no other; what is in a slot is a marked data
block, and in no other slot; and of the panics of these functions only that of
`ilock` is ever reached, by a call whose inode is free. -/
theorem blocks_accounted {es : List (Call × Ret)} (h : Inv sb s) (hr : Steps (Calls sb) s es s') :
    (∀ b, sb.avail b → (s'.used b = true ↔ ∃! p : ℕ × ℕ, slot s' p.1 p.2 = b)) ∧
    (∀ p : ℕ × ℕ, slot s' p.1 p.2 ≠ 0 → sb.avail (slot s' p.1 p.2) ∧
      s'.used (slot s' p.1 p.2) = true ∧
      ∀ q : ℕ × ℕ, slot s' q.1 q.2 = slot s' p.1 p.2 → q = p) ∧
    ∀ c, exec sb s' c = none ↔ ¬ Call.legal s' c := by
  have hinv := inv_calls h hr
  refine ⟨fun b hb => ?_, fun p hp => ?_, fun c => ⟨fun hnone hc => ?_, exec_none⟩⟩
  · have hne : b ≠ 0 := by
      have hpos := sb.nmeta_pos
      have hge := hb.1
      omega
    constructor
    · intro hu
      obtain ⟨p, hp⟩ := hinv.pool.held hb hu
      refine ⟨p, (place_eq_some_iff.mp hp).1, fun q hq => ?_⟩
      exact hinv.pool.unique (place_eq_some_iff.mpr ⟨hq, hne⟩) hp
    · rintro ⟨p, hp, -⟩
      exact (hinv.pool.marked (place_eq_some_iff.mpr ⟨hp, hne⟩)).1
  · obtain ⟨hused, havail⟩ := hinv.used hp
    refine ⟨havail, hused, fun q hq => ?_⟩
    exact hinv.pool.unique (place_eq_some_iff.mpr ⟨hq, hp⟩) (place_eq_some hp)
  · obtain ⟨r, s'', he, -⟩ := exec_spec hinv hc
    rw [hnone] at he
    cases he

theorem blocks_accounted_note : ∃ s, Steps (Calls noteDisk) (blank noteDisk) noteCalls s ∧
    (∀ b, noteDisk.avail b → (s.used b = true ↔ ∃! p : ℕ × ℕ, slot s p.1 p.2 = b)) ∧
    (∀ p : ℕ × ℕ, slot s p.1 p.2 ≠ 0 → noteDisk.avail (slot s p.1 p.2) ∧
      s.used (slot s p.1 p.2) = true ∧
      ∀ q : ℕ × ℕ, slot s q.1 q.2 = slot s p.1 p.2 → q = p) ∧
    ∀ c, exec noteDisk s c = none ↔ ¬ Call.legal s c := by
  obtain ⟨s, hs⟩ := exists_noteCalls
  exact ⟨s, hs, blocks_accounted (inv_blank noteDisk) hs⟩

end Fs

end Xv6
