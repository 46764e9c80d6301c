/-
Writing to an open file (kernel/file.c).

`filewrite` cuts what it is given into pieces of three blocks and writes each in
a transaction of its own, between which other processes call what they like.

* `Fs.filewrite` — the branch for files on the disk;
* `Fs.filewrite_reserved` — a transaction logs no more blocks than `begin_op`
  reserves;
* `Fs.filewrite_whole` — all is written, or -1 returned for a reason.
-/
import Mathlib.Data.Finset.Dedup
import Mathlib.Data.Finset.Card
import CshellXv6.Xv6.FsRuns
import CshellXv6.Xv6.Log

namespace Xv6

namespace Fs

/-- The calls that others make in between. -/
def others (sb : Superblock) : List Call → Fs → Option Fs
  | [], s => some s
  | c :: cs, s => (exec sb s c).bind fun r => others sb cs r.2

/-- How much is written in one transaction (file.c:153). -/
def maxWrite : ℕ := (MAXOPBLOCKS - 1 - 1 - 2) / 2 * BSIZE

theorem maxWrite_pos : 0 < maxWrite := by decide

/-- The variables of `filewrite`, with the disk, and what each transaction gave
to the log, the latest first. -/
structure FileWrite where
  i : ℕ
  off : UInt32
  fs : Fs
  ops : List (List ℕ)

variable (sb : Superblock)

/-- From `begin_op` to `end_op` (file.c:160-165): what `writei` returns. -/
def FileWrite.round (ip : ℕ) (addr : ℕ → Option UInt8) (n1 : ℕ) (d : FileWrite) :
    Option (ℤ × FileWrite) :=
  (ilock { d.fs with logged := [] } ip).bind fun s =>
    (writei sb s ip (fun j => addr (d.i + j)) d.off (.ofNat n1)).map fun r =>
      let off := if 0 < r.1 then d.off + .ofNat r.1.toNat else d.off
      (r.1, { d with off := off, fs := r.2, ops := r.2.logged :: d.ops })

/-- The loop of `filewrite` (file.c:155-173).  Before the turn at `i`, others make
the calls `env i`.  A turn that goes on has written a byte at least, so that `n`
turns are enough. -/
def filewriteLoop (env : ℕ → List Call) (ip : ℕ) (addr : ℕ → Option UInt8) (n : ℕ) :
    ℕ → FileWrite → Option FileWrite
  | 0, d => some d
  | k + 1, d =>
    if d.i < n then
      (others sb (env d.i) d.fs).bind fun s =>
        let n1 := min (n - d.i) maxWrite
        (FileWrite.round sb ip addr n1 { d with fs := s }).bind fun r =>
          if r.1 ≠ n1 then some r.2
          else filewriteLoop env ip addr n k { r.2 with i := r.2.i + n1 }
    else some d

/-- `filewrite` on a file of the disk (file.c:135-179). -/
def filewrite (env : ℕ → List Call) (writable : Bool) (ip : ℕ) (addr : ℕ → Option UInt8)
    (off : UInt32) (n : ℤ) (s : Fs) : Option (ℤ × FileWrite) :=
  if writable = false ∨ n < 0 then some (-1, ⟨0, off, s, []⟩)
  else
    (filewriteLoop sb env ip addr n.toNat n.toNat ⟨0, off, s, []⟩).map fun d =>
      (if d.i = n.toNat then n else -1, d)

variable {sb} {s s' : Fs} {ip : ℕ}

/-- The call leaves the file `ip` alone. -/
def Call.avoids (ip : ℕ) : Call → Prop
  | .write i _ _ _ | .trunc i | .put i => i ≠ ip
  | .read _ _ _ _ | .create _ _ => True

end Fs

open Fs

theorem Files.Step.avoids {ninodes : ℕ} {f f' : Files} {c : Call} {r : Ret} {ip : ℕ}
    {bs : List UInt8} (h : Files.Step ninodes f (c, r) f') (hc : c.avoids ip)
    (hf : f.holds ip = some bs) : f'.holds ip = some bs := by
  cases h with
  | read | readFault | refused | noInode => exact hf
  | write | trunc | put => exact (Function.update_of_ne (Ne.symm hc) _ _).trans hf
  | create _ _ hnone =>
    refine (Function.update_of_ne ?_ _ _).trans hf
    rintro rfl
    rw [hnone] at hf
    cases hf

namespace Fs

variable {sb : Superblock} {s s' : Fs} {ip i n m : ℕ} {addr : ℕ → Option UInt8} {off : UInt32}

theorem others_inv {cs : List Call} (h : Inv sb s) (he : others sb cs s = some s') : Inv sb s' := by
  induction cs generalizing s with
  | nil =>
    rw [others, Option.some_inj] at he
    exact he ▸ h
  | cons c cs ih =>
    obtain ⟨r, hr, he⟩ := Option.bind_eq_some_iff.mp he
    exact ih (Calls.step (e := (c, r.1)) h hr).1 he

theorem others_avoid {cs : List Call} {bs : List UInt8} (h : Inv sb s)
    (hcs : ∀ c ∈ cs, c.avoids ip) (hf : files s ip = some bs) (he : others sb cs s = some s') :
    files s' ip = some bs := by
  induction cs generalizing s with
  | nil =>
    rw [others, Option.some_inj] at he
    exact he ▸ hf
  | cons c cs ih =>
    obtain ⟨r, hr, he⟩ := Option.bind_eq_some_iff.mp he
    obtain ⟨hinv, hstep⟩ := Calls.step (e := (c, r.1)) h hr
    exact ih hinv (fun c hc => hcs c (List.mem_cons_of_mem _ hc))
      (hstep.avoids (hcs c List.mem_cons_self) hf) he

theorem type_of_files {bs : List UInt8} (h : files s ip = some bs) :
    (s.inode ip).type ≠ 0 ∧ contents s ip = bs := by
  unfold files at h
  split at h
  · cases h
  · rename_i ht
    exact ⟨ht, Option.some_inj.mp h⟩

/-- What one transaction does, as `writei_spec` says it. -/
theorem round_spec {d : FileWrite} (addr : ℕ → Option UInt8) (h : Inv sb d.fs)
    (hi : (d.fs.inode ip).type ≠ 0) (hm : m ≤ maxWrite) :
    ((d.fs.inode ip).size < d.off.toNat ∨ MAXFILE * BSIZE < d.off.toNat + m) ∧
      FileWrite.round sb ip addr m d = some (-1, { d with
        fs := { d.fs with logged := [] }
        ops := [] :: d.ops }) ∨
    (d.off.toNat ≤ (d.fs.inode ip).size ∧ d.off.toNat + m ≤ MAXFILE * BSIZE ∧
      ∃ (r w : ℕ) (s' : Fs), FileWrite.round sb ip addr m d = some ((r : ℤ), { d with
          off := if 0 < r then d.off + .ofNat r else d.off
          fs := s'
          ops := s'.logged :: d.ops }) ∧
        Accepted sb { d.fs with logged := [] } s' ip (fun j => addr (d.i + j)) d.off.toNat m r
          w) := by
  have hinv : Inv sb { d.fs with logged := [] } := ⟨h.pool, h.meta_used, h.full, h.size_le, h.free⟩
  have hlock : ilock { d.fs with logged := [] } ip = some { d.fs with logged := [] } := if_neg hi
  have hmn : (UInt32.ofNat m).toNat = m := by
    have hmax : maxWrite < 2 ^ 32 := by decide
    rw [UInt32.toNat_ofNat']
    exact Nat.mod_eq_of_lt (by omega)
  obtain ⟨href, he⟩ | ⟨hoff, hmax, r, w, s', he, ha⟩ :=
    writei_spec hinv hi (fun j => addr (d.i + j)) d.off (.ofNat m)
  · rw [hmn] at href
    refine .inl ⟨href, ?_⟩
    rw [FileWrite.round, hlock, Option.bind_some, he]
    rfl
  · rw [hmn] at hmax ha
    refine .inr ⟨hoff, hmax, r, w, s', ?_, ha⟩
    rw [FileWrite.round, hlock, Option.bind_some, he, Option.map_some]
    simp only [Int.natCast_pos, Int.toNat_natCast]

/-- A transaction fits into what `begin_op` reserves for it. -/
theorem Accepted.fits {src : ℕ → Option UInt8} {off r w : ℕ}
    (ha : Accepted sb { s with logged := [] } s' ip src off m r w) (hm : m ≤ maxWrite) :
    s'.logged.toFinset.card ≤ MAXOPBLOCKS := by
  obtain ⟨bs, hbs, hlogs⟩ := ha.logs
  have hcost : cost off m ≤ 7 := cost_le hm
  have hsub : s'.logged.toFinset ⊆ bs.toFinset := by
    intro b hb
    refine List.mem_toFinset.mpr ((hlogs b (List.mem_toFinset.mp hb)).resolve_left ?_)
    exact List.not_mem_nil
  have hcard := (Finset.card_le_card hsub).trans (List.toFinset_card_le bs)
  have hmax : MAXOPBLOCKS = 10 := rfl
  omega

/-- Everything that a turn of the loop can do. -/
theorem turn_cases {env : ℕ → List Call} {k : ℕ} {d d' : FileWrite} (h : Inv sb d.fs)
    (hlt : d.i < n) (he : filewriteLoop sb env ip addr n (k + 1) d = some d') :
    ∃ s m, others sb (env d.i) d.fs = some s ∧ m = min (n - d.i) maxWrite ∧ Inv sb s ∧
    (((s.inode ip).size < d.off.toNat ∨ MAXFILE * BSIZE < d.off.toNat + m) ∧
        d' = { d with fs := { s with logged := [] }, ops := [] :: d.ops } ∨
      ∃ r w s', d.off.toNat ≤ (s.inode ip).size ∧ d.off.toNat + m ≤ MAXFILE * BSIZE ∧
        Accepted sb { s with logged := [] } s' ip (fun j => addr (d.i + j)) d.off.toNat m r w ∧
        ((r ≠ m ∧ ∃ off, d' = { d with off := off, fs := s', ops := s'.logged :: d.ops }) ∨
          (r = m ∧ filewriteLoop sb env ip addr n k
            ⟨d.i + m, d.off + .ofNat m, s', s'.logged :: d.ops⟩ = some d'))) := by
  rw [filewriteLoop, if_pos hlt] at he
  obtain ⟨s, hs, he⟩ := Option.bind_eq_some_iff.mp he
  obtain ⟨x, hx, he⟩ := Option.bind_eq_some_iff.mp he
  obtain ⟨m, hm⟩ : ∃ m, m = min (n - d.i) maxWrite := ⟨_, rfl⟩
  rw [← hm] at hx he
  have hinv := others_inv h hs
  have hle : m ≤ maxWrite := hm ▸ Nat.min_le_right _ _
  have hpos : 0 < m := by
    have hmax := maxWrite_pos
    omega
  -- otherwise `ilock` would have panicked
  have hi : (s.inode ip).type ≠ 0 := by
    intro hz
    rw [FileWrite.round, ilock, if_pos hz] at hx
    cases hx
  refine ⟨s, m, hs, hm, hinv, ?_⟩
  obtain ⟨href, hround⟩ | ⟨hoff, hmax, r, w, s', hround, ha⟩ :=
    round_spec (d := { d with fs := s }) addr hinv hi hle
  · rw [hround, Option.some_inj] at hx
    subst hx
    have hne : (-1 : ℤ) ≠ (m : ℤ) := by omega
    rw [if_pos hne, Option.some_inj] at he
    exact .inl ⟨href, he.symm⟩
  · rw [hround, Option.some_inj] at hx
    subst hx
    refine .inr ⟨r, w, s', hoff, hmax, ha, ?_⟩
    by_cases hr : r = m
    · have heq : ¬ ((r : ℤ) ≠ (m : ℤ)) := by omega
      rw [if_neg heq] at he
      simp only [hr, if_pos hpos] at he
      exact .inr ⟨hr, he⟩
    · have hne : (r : ℤ) ≠ (m : ℤ) := by omega
      rw [if_pos hne, Option.some_inj] at he
      exact .inl ⟨hr, _, he.symm⟩

theorem filewriteLoop_fits {env : ℕ → List Call} {k : ℕ} {d d' : FileWrite} (h : Inv sb d.fs)
    (hops : ∀ op ∈ d.ops, op.toFinset.card ≤ MAXOPBLOCKS)
    (he : filewriteLoop sb env ip addr n k d = some d') :
    ∀ op ∈ d'.ops, op.toFinset.card ≤ MAXOPBLOCKS := by
  induction k generalizing d with
  | zero =>
    rw [filewriteLoop, Option.some_inj] at he
    exact he ▸ hops
  | succ k ih =>
    by_cases hlt : d.i < n
    · obtain ⟨s, m, -, hm, -, ⟨-, rfl⟩ | ⟨r, w, s', -, -, ha, hend⟩⟩ := turn_cases h hlt he
      · exact List.forall_mem_cons.mpr ⟨Nat.zero_le _, hops⟩
      · have hops' : ∀ op ∈ s'.logged :: d.ops, op.toFinset.card ≤ MAXOPBLOCKS :=
          List.forall_mem_cons.mpr ⟨ha.fits (hm ▸ Nat.min_le_right _ _), hops⟩
        obtain ⟨-, off, rfl⟩ | ⟨-, he⟩ := hend
        · exact hops'
        · exact ih (d := ⟨_, _, s', _⟩) ha.inv hops' he
    · rw [filewriteLoop, if_neg hlt, Option.some_inj] at he
      exact he ▸ hops

/-- **The reservation is enough**: whatever was done to the disk before, and
whatever others do in between, no transaction of `filewrite` logs more than
`MAXOPBLOCKS` blocks. -/
theorem filewrite_reserved {es : List (Call × Ret)} (h : Inv sb s)
    (hr : Steps (Calls sb) s es s') {env : ℕ → List Call} {writable : Bool}
    {addr : ℕ → Option UInt8} {off : UInt32} {n ret : ℤ} {d : FileWrite}
    (he : filewrite sb env writable ip addr off n s' = some (ret, d)) :
    ∀ op ∈ d.ops, op.toFinset.card ≤ MAXOPBLOCKS := by
  have hnil : ∀ op ∈ ([] : List (List ℕ)), op.toFinset.card ≤ MAXOPBLOCKS :=
    fun op hop => absurd hop List.not_mem_nil
  unfold filewrite at he
  split at he
  · rw [Option.some_inj, Prod.mk.injEq] at he
    exact he.2 ▸ hnil
  · obtain ⟨d', hd', he⟩ := Option.map_eq_some_iff.mp he
    obtain ⟨-, rfl⟩ := Prod.mk.inj he
    exact filewriteLoop_fits (d := ⟨0, off, s', []⟩) (inv_calls h hr) hnil hd'

/-- A new file and two bytes for it. -/
theorem exists_newFile : ∃ s d,
    Steps (Calls noteDisk) (blank noteDisk) [(.create 2 (by decide), .made 1)] s ∧
    files s 1 = some [] ∧
    filewrite noteDisk (fun _ => []) true 1 (fun _ => some 7) 0 2 s = some (2, d) := by
  have hany : (replay noteDisk [(.create 2 (by decide), .made 1)] (blank noteDisk)).any (fun s =>
      decide (files s 1 = some [] ∧ ((filewrite noteDisk (fun _ => []) true 1 (fun _ => some 7) 0 2
        s).any fun x => decide (x.1 = 2)) = true)) = true := by decide +kernel
  obtain ⟨s, hs, hp⟩ := (Option.any_eq_true _ _).mp hany
  obtain ⟨hfile, hwrite⟩ := of_decide_eq_true hp
  obtain ⟨⟨ret, d⟩, hd, hret⟩ := (Option.any_eq_true _ _).mp hwrite
  obtain rfl : ret = 2 := of_decide_eq_true hret
  exact ⟨s, d, steps_of_replay hs, hfile, hd⟩

theorem filewrite_reserved_new : ∃ s d,
    filewrite noteDisk (fun _ => []) true 1 (fun _ => some 7) 0 2 s = some (2, d) ∧
    ∀ op ∈ d.ops, op.toFinset.card ≤ MAXOPBLOCKS := by
  obtain ⟨s, d, hs, -, hd⟩ := exists_newFile
  exact ⟨s, d, hd, filewrite_reserved (inv_blank noteDisk) hs hd⟩

/-! ### The whole write -/

theorem pwrite_zero (f : List UInt8) (off : ℕ) (src : ℕ → Option UInt8) :
    pwrite f off (sourceBytes src 0) = f := by
  rw [pwrite, sourceBytes, List.range_zero, List.map_nil, List.append_nil, List.length_nil,
    Nat.add_zero, List.take_append_drop]

/-- Two writes, one behind the other. -/
theorem pwrite_pwrite {f bs cs : List UInt8} {off : ℕ} (h : off ≤ f.length) :
    pwrite (pwrite f off bs) (off + bs.length) cs = pwrite f off (bs ++ cs) := by
  have hlen := length_pwrite bs h
  refine List.ext_getElem? fun p => ?_
  rw [getElem?_pwrite (by omega), getElem?_pwrite h, getElem?_pwrite h, List.length_append]
  by_cases h₁ : off + bs.length ≤ p ∧ p < off + bs.length + cs.length
  · rw [if_pos h₁, if_pos (by omega), List.getElem?_append_right (by omega)]
    congr 1
    omega
  · rw [if_neg h₁]
    by_cases h₂ : off ≤ p ∧ p < off + bs.length
    · rw [if_pos h₂, if_pos (by omega), List.getElem?_append_left (by omega)]
    · rw [if_neg h₂, if_neg (by omega)]

theorem sourceBytes_add (src : ℕ → Option UInt8) (a b : ℕ) :
    sourceBytes src (a + b) = sourceBytes src a ++ sourceBytes (fun j => src (a + j)) b := by
  rw [sourceBytes, List.range_add, List.map_append, List.map_map]
  rfl

/-- Where `filewrite` has come to: the bytes up to `i` are written. -/
structure Underway (sb : Superblock) (ip : ℕ) (addr : ℕ → Option UInt8) (off : UInt32) (n : ℕ)
    (bs : List UInt8) (d : FileWrite) : Prop where
  inv : Inv sb d.fs
  le : d.i ≤ n
  moved : d.off.toNat = off.toNat + d.i
  start : d.i = 0 ∨ off.toNat ≤ bs.length
  read : ∀ j < d.i, addr j ≠ none
  holds : files d.fs ip = some (pwrite bs off.toNat (sourceBytes addr d.i))

/-- Why `filewrite` may stop before the end. -/
structure Stopped (sb : Superblock) (addr : ℕ → Option UInt8) (off : UInt32) (n : ℕ)
    (bs : List UInt8) (d : FileWrite) : Prop where
  lt : d.i < n
  reason : bs.length < off.toNat ∨ MAXFILE * BSIZE < off.toNat + n ∨ (∃ j < n, addr j = none) ∨
    Full sb d.fs

theorem Underway.turn {s s' : Fs} {bs : List UInt8} {d : FileWrite} {m r w : ℕ}
    {ops : List (List ℕ)} (hu : Underway sb ip addr off n bs { d with fs := s })
    (hm : m = min (n - d.i) maxWrite) (hoff : d.off.toNat ≤ (s.inode ip).size)
    (hmax : d.off.toNat + m ≤ MAXFILE * BSIZE)
    (ha : Accepted sb { s with logged := [] } s' ip (fun j => addr (d.i + j)) d.off.toNat m r w)
    (hr : r = m) : Underway sb ip addr off n bs ⟨d.i + m, d.off + .ofNat m, s', ops⟩ := by
  obtain ⟨htype, hcont⟩ := type_of_files hu.holds
  have hdoff : d.off.toNat = off.toNat + d.i := hu.moved
  have hcont' : contents s ip = pwrite bs off.toNat (sourceBytes addr d.i) := hcont
  have hstart : d.i = 0 ∨ off.toNat ≤ bs.length := hu.start
  have hle : d.i ≤ n := hu.le
  -- at the first piece, the offset is that of the call
  have hbs : off.toNat ≤ bs.length := by
    obtain hz | hbs := hstart
    · rw [hz, Nat.add_zero] at hdoff
      rw [← length_contents, hcont', hz, pwrite_zero, hdoff] at hoff
      exact hoff
    · exact hbs
  have hw : w = m := by
    have := ha.le
    omega
  have hbig : MAXFILE * BSIZE < 2 ^ 32 := by decide
  refine ⟨ha.inv, ?_, ?_, .inr hbs, fun j hj => ?_, ?_⟩
  · show d.i + m ≤ n
    omega
  · show (d.off + .ofNat m).toNat = off.toNat + (d.i + m)
    rw [UInt32.toNat_add, UInt32.toNat_ofNat']
    omega
  · by_cases hji : j < d.i
    · exact hu.read j hji
    · have hj' : j < d.i + m := hj
      have hread := ha.read (j - d.i) (by omega)
      rwa [Nat.add_sub_cancel' (Nat.le_of_not_lt hji)] at hread
  · have htype' : (s'.inode ip).type ≠ 0 := by
      rw [ha.type]
      exact htype
    show files s' ip = some (pwrite bs off.toNat (sourceBytes addr (d.i + m)))
    have hold : contents { s with logged := [] } ip = contents s ip := rfl
    rw [files_of_type htype', ha.contents, hold, hcont', hw, hdoff, sourceBytes_add,
      ← pwrite_pwrite hbs, length_sourceBytes, List.take_of_length_le]
    have hlen := length_pwrite (sourceBytes addr d.i) hbs
    rw [length_sourceBytes] at hlen
    rw [length_pwrite _ (by omega), length_sourceBytes, ← hcont', length_contents, hr]

theorem Underway.loop {env : ℕ → List Call} {bs : List UInt8} {k : ℕ} {d d' : FileWrite}
    (henv : ∀ k, ∀ c ∈ env k, c.avoids ip) (hu : Underway sb ip addr off n bs d)
    (hk : n - d.i ≤ k) (he : filewriteLoop sb env ip addr n k d = some d') :
    (d'.i = n ∧ Underway sb ip addr off n bs d') ∨ Stopped sb addr off n bs d' := by
  induction k generalizing d with
  | zero =>
    have hle := hu.le
    rw [filewriteLoop, Option.some_inj] at he
    subst he
    exact .inl ⟨by omega, hu⟩
  | succ k ih =>
    by_cases hlt : d.i < n
    · obtain ⟨s, m, hs, hm, hinv, hturn⟩ := turn_cases hu.inv hlt he
      have hfiles := others_avoid hu.inv (henv d.i) hu.holds hs
      have hu' : Underway sb ip addr off n bs { d with fs := s } :=
        ⟨hinv, hu.le, hu.moved, hu.start, hu.read, hfiles⟩
      have hcont := (type_of_files hfiles).2
      have hmn : d.i + m ≤ n := by omega
      have hpos : 0 < m := by
        have hmax := maxWrite_pos
        omega
      have hdoff := hu.moved
      obtain ⟨href, rfl⟩ | ⟨r, w, s', hoff, hmax, ha, hend⟩ := hturn
      · -- only the first piece can be behind the end of the file
        refine .inr ⟨hlt, ?_⟩
        obtain hsize | hbig := href
        · rw [← length_contents, hcont] at hsize
          obtain hz | hbs := hu.start
          · rw [hz, pwrite_zero] at hsize
            exact .inl (by omega)
          · rw [length_pwrite _ hbs, length_sourceBytes] at hsize
            omega
        · exact .inr (.inl (by omega))
      · obtain ⟨hr, off', rfl⟩ | ⟨hr, he⟩ := hend
        · refine .inr ⟨hlt, .inr (.inr ?_)⟩
          obtain hrm | ⟨hwm, hsrc⟩ | ⟨-, hfull⟩ := ha.stop
          · exact absurd hrm hr
          · exact .inl ⟨d.i + w, by omega, hsrc⟩
          · exact .inr hfull
        · refine ih (d := ⟨d.i + m, _, s', _⟩) (hu'.turn hm hoff hmax ha hr) ?_ he
          show n - (d.i + m) ≤ k
          omega
    · have hle := hu.le
      rw [filewriteLoop, if_neg hlt, Option.some_inj] at he
      subst he
      exact .inl ⟨by omega, hu⟩

/-- **`filewrite` writes all or says why not**: whatever was done to the disk
before, and if others leave the file alone in between, either all `n` bytes could
be read and are in the file and the offset has moved behind them, or -1 is
returned, and the write was out of bounds, a byte could not be read or no block
is free. -/
theorem filewrite_whole {es : List (Call × Ret)} (h : Inv sb s) (hr : Steps (Calls sb) s es s')
    {env : ℕ → List Call} (henv : ∀ k, ∀ c ∈ env k, c.avoids ip) {bs : List UInt8}
    (hbs : files s' ip = some bs) {ret : ℤ} {d : FileWrite}
    (he : filewrite sb env true ip addr off n s' = some (ret, d)) :
    (ret = n ∧ (∀ j < n, addr j ≠ none) ∧
      files d.fs ip = some (pwrite bs off.toNat (sourceBytes addr n)) ∧
      d.off.toNat = off.toNat + n) ∨
    (ret = -1 ∧ Stopped sb addr off n bs d) := by
  rw [filewrite, if_neg (by simp)] at he
  obtain ⟨d', hd', he⟩ := Option.map_eq_some_iff.mp he
  rw [Int.toNat_natCast] at hd' he
  obtain ⟨hret, rfl⟩ := Prod.mk.inj he
  have hu : Underway sb ip addr off n bs ⟨0, off, s', []⟩ := by
    refine ⟨inv_calls h hr, Nat.zero_le n, rfl, .inl rfl, fun j hj => absurd hj (Nat.not_lt_zero j),
      ?_⟩
    rw [pwrite_zero]
    exact hbs
  obtain ⟨hn, hu'⟩ | hstop := hu.loop henv (by simp) hd'
  · refine .inl ⟨?_, ?_, ?_, ?_⟩
    · rw [← hret, if_pos hn]
    · rw [← hn]
      exact hu'.read
    · rw [← hn]
      exact hu'.holds
    · rw [← hn]
      exact hu'.moved
  · refine .inr ⟨?_, hstop⟩
    have hlt := hstop.lt
    rw [← hret, if_neg (by omega)]

theorem filewrite_whole_new : ∃ s d,
    filewrite noteDisk (fun _ => []) true 1 (fun _ => some 7) 0 2 s = some (2, d) ∧
    files s 1 = some [] ∧ files d.fs 1 = some [7, 7] := by
  obtain ⟨s, d, hs, hfile, hd⟩ := exists_newFile
  obtain ⟨-, -, hfiles, -⟩ | ⟨hret, -⟩ := filewrite_whole (n := 2) (inv_blank noteDisk) hs
    (fun _ c hc => absurd hc List.not_mem_nil) hfile hd
  · exact ⟨s, d, hd, hfile, hfiles⟩
  · exact absurd hret (by decide)

end Fs

end Xv6
