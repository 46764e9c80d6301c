/-
Runs of the buffer cache: what is read, and what is recycled.

A run is logged: what `bread` hands out, what the holders of buffers write, and
when a buffer is given up by the last that refers to it.

* `Bcache.reads_last_write` — as long as a holder that has changed a buffer
  writes it to the disk or pins it before it gives it back, every `bread`
  returns what was last written for its block, by whomever and in whichever
  buffer, and otherwise what was on the disk;
* `Bcache.least_recent` — the linked list has the buffers in the order of their
  last releases, and the one that `bget` recycles was given up before all
  others that nobody refers to.
-/
import CshellXv6.Xv6.BioInvariant

namespace Xv6.Bcache

open Monitor (Out St)

variable {T B α : Type} [DecidableEq B]

/-- What happens in a run. -/
inductive Event (B α : Type) where
  | read (k : ℕ × ℕ) (v : α)
  | write (k : ℕ × ℕ) (v : α)
  | released (b : B)

/-- The events of one step. -/
def ev (_ : T) (l : Loc B) (d : Bcache T B α) (i : Input B α) : List (Event B α) :=
  match l.doing, i with
  | .bread dev blockno b, .go => [.read (dev, blockno) ((d.fill b).buf b).data]
  | .nothing, .write b v => [.write (d.buf b).block v]
  | .brelse b, _ => if ((d.unref b).buf b).refcnt = 0 then [.released b] else []
  | _, _ => []

/-- What is last written for each block; the log has the latest event first. -/
def contents (disk : ℕ × ℕ → α) : List (Event B α) → ℕ × ℕ → α
  | [] => disk
  | .write k v :: e => Function.update (contents disk e) k v
  | _ :: e => contents disk e

/-- Everything that was read is what was last written. -/
def Faithful (disk : ℕ × ℕ → α) : List (Event B α) → Prop
  | [] => True
  | .read k v :: e => v = contents disk e k ∧ Faithful disk e
  | _ :: e => Faithful disk e

/-- A buffer is given back only when its contents are on the disk, or while it
is pinned. -/
def careful [DecidableEq α] (l : Loc B) (d : Bcache T B α) : Input B α → Bool
  | .brelse b => l.doing != .nothing || d.pins b != 0 || (d.buf b).data == d.disk (d.buf b).block
  | _ => true

/-! ### Reads and writes -/

/-- The cache and the disk show the memory `mem`. -/
structure Shows (d : Bcache T B α) (f : T → Loc B) (mem : ℕ × ℕ → α) : Prop where
  cached : ∀ b, (d.buf b).valid = true → (d.buf b).data = mem (d.buf b).block
  rest : ∀ k, (∀ b, (d.buf b).block = k → (d.buf b).valid = false) → d.disk k = mem k
  clean : ∀ b, (d.buf b).valid = true → d.pins b = 0 → (∀ t, (f t).held b = none) →
    d.disk (d.buf b).block = (d.buf b).data

section Steps

variable [DecidableEq T] {order : List B} {d d' : Bcache T B α} {f : T → Loc B} {t : T}
  {l' : Loc B} {b : B} {mem : ℕ × ℕ → α} {disk : ℕ × ℕ → α}

omit [DecidableEq B] in
/-- Steps that leave the contents of the buffers and of the disk. -/
theorem Shows.move (h : Shows d f mem) (hsame : Same d d')
    (hfree : ∀ b, d'.pins b = 0 → (∀ u, (Function.update f t l' u).held b = none) →
      d.pins b = 0 ∧ ∀ u, (f u).held b = none) :
    Shows d' (Function.update f t l') mem := by
  refine ⟨fun b hb => ?_, fun k hk => ?_, fun b hb hp hh => ?_⟩
  · rw [hsame.valid] at hb
    rw [hsame.data, hsame.block]
    exact h.cached b hb
  · rw [hsame.disk]
    exact h.rest k fun b hb => hsame.valid b ▸ hk b (by rw [hsame.block]; exact hb)
  · rw [hsame.valid] at hb
    rw [hsame.disk, hsame.data, hsame.block]
    obtain ⟨hp, hh⟩ := hfree b hp hh
    exact h.clean b hb hp hh

omit [DecidableEq B] in
/-- Who holds a buffer, when the process that moves keeps what it holds. -/
theorem held_same (hl : l'.held = (f t).held) (u : T) :
    (Function.update f t l' u).held = (f u).held := by
  by_cases hu : u = t
  · rw [hu, Function.update_self, hl]
  · rw [Function.update_of_ne hu]

omit [DecidableEq B] in
theorem Shows.keep (h : Shows d f mem) (hsame : Same d d') (hl : l'.held = (f t).held)
    (hp : ∀ b, d'.pins b = 0 → d.pins b = 0) : Shows d' (Function.update f t l') mem := by
  refine h.move hsame fun b hb hh => ⟨hp b hb, fun u => ?_⟩
  rw [← held_same hl u]
  exact hh u

variable [Fintype T]

/-- A recycled buffer was not dirty. -/
theorem Shows.claim (h : Shows d f mem) (hI : Inv order d f) {dev blockno : ℕ}
    (hl : (f t).doing = .recycle dev blockno (some b)) (hb : (d.buf b).refcnt = 0) :
    Shows (d.claim b dev blockno)
      (Function.update f t { f t with doing := .acquire dev blockno b }) mem := by
  have hcount := hI.counted b
  have hpins : d.pins b = 0 := by omega
  have hheld : ∀ u, (f u).held b = none := by
    intro u
    by_contra hu
    have := hI.counted.pos (t := u) (b := b) (by
      rw [Loc.refs, if_pos (Option.isSome_iff_ne_none.mpr hu)]
      omega)
    omega
  refine ⟨fun c hc => ?_, fun k hk => ?_, fun c hc hp hh => ?_⟩
  · have hcb : c ≠ b := by
      rintro rfl
      rw [claim_self] at hc
      cases hc
    rw [claim_of_ne d b c hcb] at hc ⊢
    exact h.cached c hc
  · show d.disk k = mem k
    by_cases hbk : (d.buf b).valid = true ∧ (d.buf b).block = k
    · -- the block that the buffer was for
      obtain ⟨hv, rfl⟩ := hbk
      rw [h.clean b hv hpins hheld]
      exact h.cached b hv
    · refine h.rest k fun c hc => ?_
      by_cases hcb : c = b
      · rw [hcb] at hc ⊢
        by_contra hv
        exact hbk ⟨by simpa using hv, hc⟩
      · have := hk c
        rw [claim_of_ne d b c hcb] at this
        exact this hc
  · have hcb : c ≠ b := by
      rintro rfl
      rw [claim_self] at hc
      cases hc
    rw [claim_of_ne d b c hcb] at hc ⊢
    have hkeep : ∀ u, (Function.update f t { f t with doing := .acquire dev blockno b } u).held =
        (f u).held := held_same rfl
    exact h.clean c hc hp fun u => by rw [← hkeep]; exact hh u

theorem Shows.does (h : Shows d f mem) (hI : Inv order d f)
    {o : Out (Bcache T B α) (Loc B) Empty} (hd : Does d (f t) o) :
    Shows o.shared (Function.update f t o.loc) mem := by
  cases hd with
  | hit hl hb => exact h.keep (same_ref d _) rfl fun _ hp => hp
  | claim hl hb => exact h.claim hI hl hb
  | release hl =>
    refine h.keep (same_release d _) rfl fun c hp => ?_
    rwa [← pins_release d]
  | @pin b hl =>
    refine h.keep ⟨(same_ref d b).block, (same_ref d b).valid, (same_ref d b).data, rfl⟩ rfl
      fun c hp => ?_
    have hp : Function.update d.pins b (d.pins b + 1) c = 0 := hp
    by_cases hc : c = b
    · simp [hc] at hp
    · simpa [hc] using hp
  | unpin hl => exact h.keep (same_unref d _) rfl fun _ hp => hp
  | _ => exact h.keep (.refl d) rfl fun _ hp => hp

/-- `bread` reads the block, or finds it valid. -/
theorem Shows.fill (h : Shows d f mem) (hI : Inv order d f) {dev blockno : ℕ}
    (hl : (f t).doing = .bread dev blockno b) :
    Shows (d.fill b)
      (Function.update f t ⟨Function.update (f t).held b (some (dev, blockno)), .nothing⟩) mem ∧
      ((d.fill b).buf b).data = mem (dev, blockno) := by
  obtain ⟨-, -, hpins, hdisk⟩ := fill_frame d b
  obtain ⟨hb, hdev⟩ := hI.blocks.named t b (dev, blockno) (.inr (.inr hl))
  have hdevb : (d.buf b).dev ≠ 0 := by
    rw [show (d.buf b).dev = dev from congrArg Prod.fst hb]
    exact hdev
  have hdata : ((d.fill b).buf b).data = mem (d.buf b).block := by
    by_cases hv : (d.buf b).valid = true
    · rw [Bcache.fill, if_pos hv]
      exact h.cached b hv
    · rw [Bcache.fill, if_neg hv]
      simp only [Function.update_self]
      -- no other buffer is for the block, so the disk has its last contents
      refine h.rest _ fun c hc => ?_
      rw [← hI.blocks.unique b c hdevb hc.symm]
      simpa using hv
  refine ⟨⟨fun c hc => ?_, fun k hk => ?_, fun c hc hp hh => ?_⟩, by rw [hdata, hb]⟩
  · rw [block_fill]
    by_cases hcb : c = b
    · rw [hcb]
      exact hdata
    · rw [fill_of_ne d b c hcb] at hc ⊢
      exact h.cached c hc
  · rw [hdisk]
    refine h.rest k fun c hc => ?_
    have hcb : c ≠ b := by
      rintro rfl
      have := hk c (by rw [block_fill]; exact hc)
      rw [valid_fill] at this
      cases this
    have := hk c (by rw [block_fill]; exact hc)
    rwa [fill_of_ne d b c hcb] at this
  · have hcb : c ≠ b := by
      rintro rfl
      have := hh t
      simp at this
    rw [fill_of_ne d b c hcb] at hc ⊢
    rw [hdisk]
    refine h.clean c hc (by rwa [hpins] at hp) fun u => ?_
    have := hh u
    by_cases hut : u = t
    · rw [hut, Function.update_self] at this
      rw [hut]
      simpa [hcb] using this
    · rwa [Function.update_of_ne hut] at this

omit [DecidableEq T] in
/-- The holder of a buffer writes into it. -/
theorem Shows.write (h : Shows d f mem) (hI : Inv order d f) {k : ℕ × ℕ} {v : α}
    (hk : (f t).held b = some k) :
    Shows (d.write b v) f (Function.update mem (d.buf b).block v) := by
  obtain ⟨hb, hdev⟩ := hI.blocks.named t b k (.inl hk)
  have hvalid := hI.blocks.valid t b k hk
  rw [← hb] at hdev
  have hne : ∀ c, c ≠ b → (d.buf c).block ≠ (d.buf b).block := fun c hc he =>
    hc (hI.blocks.unique b c hdev he.symm).symm
  have hother : ∀ c, c ≠ b → (d.write b v).buf c = d.buf c := fun c hc => by
    simp [Bcache.write, hc]
  refine ⟨fun c hc => ?_, fun k hk => ?_, fun c hc hp hh => ?_⟩
  · rw [block_write]
    by_cases hcb : c = b
    · rw [hcb, Function.update_self]
      simp [Bcache.write]
    · rw [Function.update_of_ne (hne c hcb), hother c hcb]
      rw [valid_write] at hc
      exact h.cached c hc
  · have hkb : k ≠ (d.buf b).block := by
      rintro rfl
      have := hk b (block_write d b b v)
      rw [valid_write, hvalid] at this
      cases this
    rw [Function.update_of_ne hkb]
    refine h.rest k fun c hc => ?_
    have := hk c (by rw [block_write]; exact hc)
    rwa [valid_write] at this
  · have hcb : c ≠ b := by
      rintro rfl
      rw [hh t] at hk
      cases hk
    rw [hother c hcb] at hc ⊢
    exact h.clean c hc hp hh

omit [DecidableEq T] in
/-- The holder of a buffer writes it to the disk. -/
theorem Shows.bwrite (h : Shows d f mem) (hI : Inv order d f) {k : ℕ × ℕ}
    (hk : (f t).held b = some k) : Shows (d.bwrite b) f mem := by
  obtain ⟨hb, hdev⟩ := hI.blocks.named t b k (.inl hk)
  have hvalid := hI.blocks.valid t b k hk
  rw [← hb] at hdev
  refine ⟨h.cached, fun k hk => ?_, fun c hc hp hh => ?_⟩
  · have hkb : k ≠ (d.buf b).block := by
      rintro rfl
      have := hk b rfl
      rw [show ((d.bwrite b).buf b).valid = (d.buf b).valid from rfl, hvalid] at this
      cases this
    rw [← h.rest k hk]
    exact Function.update_of_ne hkb _ _
  · have hcb : (d.buf c).block ≠ (d.buf b).block := by
      intro he
      have hht := hh t
      rw [← hI.blocks.unique b c hdev he.symm, hk] at hht
      cases hht
    show Function.update d.disk (d.buf b).block (d.buf b).data (d.buf c).block = (d.buf c).data
    rw [Function.update_of_ne hcb]
    exact h.clean c hc hp hh

omit [Fintype T] in
/-- A buffer is given back. -/
theorem Shows.brelse (h : Shows d f mem) (hl : (f t).doing = .nothing) [DecidableEq α]
    (hc : careful (f t) d (.brelse b) = true) :
    Shows { d with owner := Function.update d.owner b none }
      (Function.update f t ⟨Function.update (f t).held b none, .brelse b⟩) mem := by
  refine ⟨h.cached, h.rest, fun c hv hp hh => ?_⟩
  by_cases hcb : c = b
  · have hp : d.pins c = 0 := hp
    rw [hcb] at hp ⊢
    simp only [careful, hl, hp, Bool.or_eq_true, bne_iff_ne, beq_iff_eq] at hc
    exact (by simpa using hc : (d.buf b).data = d.disk (d.buf b).block).symm
  · refine h.clean c hv hp fun u => ?_
    have := hh u
    by_cases hut : u = t
    · rw [hut, Function.update_self] at this
      rw [hut]
      simpa [hcb] using this
    · rwa [Function.update_of_ne hut] at this

/-- The steps without the lock, with their events. -/
theorem Shows.goes [DecidableEq α] {e : List (Event B α)} (h : Shows d f (contents disk e))
    (hf : Faithful disk e) (hI : Inv order d f) {i : Input B α} (hg : Goes t d (f t) i d' l')
    (hc : careful (f t) d i = true) :
    Shows d' (Function.update f t l') (contents disk (ev t (f t) d i ++ e)) ∧
      Faithful disk (ev t (f t) d i ++ e) := by
  cases hg with
  | @acquire dev blockno b hl hb =>
    have hev : ev t (f t) d .go = [] := by simp [ev, hl]
    rw [hev]
    exact ⟨h.keep ⟨fun _ => rfl, fun _ => rfl, fun _ => rfl, rfl⟩ rfl fun _ hp => hp, hf⟩
  | @fill dev blockno b hl =>
    have hev : ev t (f t) d .go = [.read (dev, blockno) ((d.fill b).buf b).data] := by simp [ev, hl]
    rw [hev]
    obtain ⟨hshow, hdata⟩ := h.fill hI hl
    exact ⟨hshow, hdata, hf⟩
  | @bread dev blockno hl hdev =>
    have hev : ev t (f t) d (.bread dev blockno) = [] := by simp [ev, hl]
    rw [hev]
    exact ⟨h.keep (.refl d) rfl fun _ hp => hp, hf⟩
  | @write b k v hl hk =>
    have hev : ev t (f t) d (.write b v) = [.write (d.buf b).block v] := by simp [ev, hl]
    rw [hev, Function.update_eq_self]
    exact ⟨h.write hI hk, hf⟩
  | @bwrite b k hl hk =>
    have hev : ev t (f t) d (.bwrite b) = [] := by simp [ev, hl]
    rw [hev, Function.update_eq_self]
    exact ⟨h.bwrite hI hk, hf⟩
  | @brelse b k hl hk =>
    have hev : ev t (f t) d (.brelse b) = [] := by simp [ev, hl]
    rw [hev]
    exact ⟨h.brelse hl hc, hf⟩
  | @bpin b k hl hk =>
    have hev : ev t (f t) d (.bpin b) = [] := by simp [ev, hl]
    rw [hev]
    exact ⟨h.keep (.refl d) rfl fun _ hp => hp, hf⟩
  | @bunpin b k hl hk hp =>
    have hev : ev t (f t) d (.bunpin b) = [] := by simp [ev, hl]
    rw [hev]
    refine ⟨h.move ⟨fun _ => rfl, fun _ => rfl, fun _ => rfl, rfl⟩ fun c hp hh => ?_, hf⟩
    -- this process holds `b`, so it is not among the buffers in question
    have hcb : c ≠ b := by
      rintro rfl
      have := hh t
      rw [Function.update_self] at this
      rw [hk] at this
      cases this
    have hp : Function.update d.pins b (d.pins b - 1) c = 0 := hp
    rw [Function.update_of_ne hcb] at hp
    have hkeep : ∀ u, (Function.update f t { f t with doing := .bunpin b } u).held = (f u).held :=
      held_same rfl
    exact ⟨hp, fun u => by rw [← hkeep]; exact hh u⟩

end Steps

variable [DecidableEq T] {procs : List T} {bufs : List B} {disk : ℕ × ℕ → α}

omit [DecidableEq T] in
/-- The events of the holder of the lock are releases. -/
theorem ev_inside {t : T} {l : Loc B} {d : Bcache T B α} {i : Input B α}
    {o : Out (Bcache T B α) (Loc B) Empty} (h : inside l d = some o) :
    ev t l d i = [] ∧ (∀ b, l.doing ≠ .brelse b) ∨
      ∃ b, l.doing = .brelse b ∧
        ev t l d i = if ((d.unref b).buf b).refcnt = 0 then [.released b] else [] := by
  cases hl : l.doing with
  | nothing => simp [inside, hl] at h
  | bread dev blockno b => simp [inside, hl] at h
  | brelse b => exact .inr ⟨b, rfl, by simp [ev, hl]⟩
  | _ => exact .inl ⟨by simp [ev, hl], by simp⟩

/-- All releases, the latest first, and behind them the buffers as `binit` lists
them. -/
def recency (bufs : List B) : List (Event B α) → List B
  | [] => bufs.reverse
  | .released b :: e => b :: recency bufs e
  | _ :: e => recency bufs e

/-- The list is sorted by the last release. -/
def Sorted (l order : List B) : Prop := order.Pairwise fun b c => l.idxOf b < l.idxOf c

theorem sorted_self {l : List B} (h : l.Nodup) : Sorted l l := by
  refine List.pairwise_iff_getElem.mpr fun i j hi hj hij => ?_
  rw [h.idxOf_getElem i hi, h.idxOf_getElem j hj]
  exact hij

/-- Moving the latest one to the front. -/
theorem Sorted.moveFront {l order : List B} {b : B} (h : Sorted l order) (hnd : order.Nodup) :
    Sorted (b :: l) (b :: order.erase b) := by
  have hidx : ∀ c, c ∈ order.erase b → (b :: l).idxOf c = l.idxOf c + 1 := by
    intro c hc
    have hcb : b ≠ c := by
      rintro rfl
      exact hnd.not_mem_erase hc
    rw [List.idxOf_cons_ne _ hcb]
  refine List.pairwise_cons.mpr ⟨fun c hc => ?_, ?_⟩
  · rw [hidx c hc, List.idxOf_cons_self]
    omega
  · refine (h.sublist List.erase_sublist).imp_of_mem fun {c c'} hc hc' hlt => ?_
    rw [hidx c hc, hidx c' hc']
    omega

/-- **`bget` recycles the least recently used buffer.**  In every interleaving
the pointers link all buffers in the order of their last releases, the latest
first and behind them those never used, as `binit` lists them.  Of two buffers
that nobody refers to when `bget` is about to recycle the first, the other one
was given up later, or if neither was ever used stands before it in the list of
`binit`. -/
theorem least_recent [Fintype T] (hnd : bufs.Nodup) (hall : ∀ b, b ∈ bufs)
    {x : St T (Loc B) (Bcache T B α) Empty × List (Event B α)}
    (h : ((monitor procs bufs disk).sys.logged (Monitor.events ev)).Reachable x) :
    (∃ order, x.1.shared.ring.Ring none (order.map some) ∧ (∀ b, b ∈ order) ∧
      Sorted (recency bufs x.2) order) ∧
    ∀ t dev blockno b c, (x.1.locs t).doing = .recycle dev blockno (some b) →
      (x.1.shared.buf c).refcnt = 0 → c ≠ b →
      (recency bufs x.2).idxOf c < (recency bufs x.2).idxOf b := by
  have hJ : ∃ order, Inv order x.1.shared x.1.locs ∧ Sorted (recency bufs x.2) order := by
    refine Monitor.logged_view_invariant monitor_private
      (J := fun d f e => ∃ order, Inv order d f ∧ Sorted (recency bufs e) order) ?_ ?_ ?_ h
    · exact fun d f hi => ⟨_, inv_init hi hnd hall, sorted_self (List.nodup_reverse.mpr hnd)⟩
    · rintro d f e t i d' l' ⟨order, hI, hS⟩ ho
      have hg : Goes t d (f t) i d' l' := outside_goes ho
      refine ⟨order, hI.goes hg, ?_⟩
      have hev : recency bufs (ev t (f t) d i ++ e) = recency bufs e := by
        unfold ev
        split
        · rfl
        · rfl
        · rename_i b hb
          cases hg <;> simp_all
        · rfl
      rw [hev]
      exact hS
    · rintro d f e t i o ⟨order, hI, hS⟩ halone ho
      have hd := inside_does ho
      refine ⟨_, hI.does halone hd, ?_⟩
      obtain ⟨hev, hne⟩ | ⟨b, hb, hev⟩ := ev_inside (t := t) (i := i) ho
      · rw [hev, moveFront_of_ne hne]
        exact hS
      · rw [hev, moveFront, hb]
        dsimp only
        split
        · exact hS.moveFront ((List.nodup_cons.mp hI.listed.ring.nodup).2.of_map some)
        · exact hS
  obtain ⟨order, hI, hS⟩ := hJ
  refine ⟨⟨order, hI.listed.ring, hI.listed.all, hS⟩, fun t dev blockno b c ht hc hcb => ?_⟩
  have hscan := hI.listed.scan t
  rw [ht] at hscan
  obtain ⟨-, xs, ys, rfl, hlast, hbusy⟩ := hscan
  -- `c` is not behind `b`, where all buffers are referred to
  obtain ⟨xs, rfl⟩ := List.getLast?_eq_some_iff.mp hlast.symm
  have hmem := hI.listed.all c
  have hxs : c ∈ xs := by
    obtain hmem | hmem := List.mem_append.mp hmem
    · obtain hmem | hmem := List.mem_append.mp hmem
      · exact hmem
      · exact absurd (List.mem_singleton.mp hmem) hcb
    · exact absurd hc (hbusy c hmem)
  have hsorted := (List.pairwise_append.mp (List.pairwise_append.mp hS).1).2.2
  exact hsorted c hxs b (List.mem_singleton_self b)

/-- Two blocks are read and given back, and a third one is asked for. -/
def thirdActs : List (Monitor.Act Bool (Input Bool ℕ)) :=
  breadActs true 5 5 ++ breadActs true 6 6 ++
    [.outside true (.brelse true), .acquire true, .inside true .go,
    .outside true (.brelse false), .acquire true, .inside true .go,
    .outside true (.bread 1 7), .acquire true] ++ List.replicate 4 (.inside true .go)

theorem least_recent_third :
    ∃ x : St Bool (Loc Bool) (Bcache Bool Bool ℕ) Empty × List (Event Bool ℕ),
    ((monitor [false, true] [false, true] Prod.snd).sys.logged (Monitor.events ev)).Reachable x ∧
    (x.1.locs true).doing = .recycle 1 7 (some true) ∧
    (∃ order, x.1.shared.ring.Ring none (order.map some) ∧ (∀ b, b ∈ order) ∧
      Sorted (recency [false, true] x.2) order) ∧
    (recency [false, true] x.2).idxOf false < (recency [false, true] x.2).idxOf true := by
  obtain ⟨x, hx, ht, hc⟩ := Sys.exists_of_run
    ((monitor [false, true] [false, true] Prod.snd).sys.logged (Monitor.events ev)) thirdActs
    (p := fun x => (x.1.locs true).doing = .recycle 1 7 (some true) ∧
      (x.1.shared.buf false).refcnt = 0) (s := (start, [])) (.init ⟨start_init, rfl⟩)
    (by decide +kernel)
  obtain ⟨hring, hleast⟩ := least_recent (by decide) (by decide) hx
  exact ⟨x, hx, ht, hring, hleast true 1 7 true false ht hc (by decide)⟩

end Xv6.Bcache
