/-
The buffer cache (kernel/bio.c).

`bcache.lock` is a monitor in which nobody waits: `bget` looks for a block in
the list of buffers, or recycles the buffer that was released least recently.
The list is the ring of pointers that `binit` builds, with `bcache.head` for
`none`, and `bget` follows the pointers one step at a time.

The sleep lock of a buffer is taken in one step, when it is free, and a block
is moved between a buffer and the disk in one step.  Two things are not in the
source: each process remembers for which block it holds a buffer, and `pins`
counts the calls of `bpin` that no `bunpin` has answered.  Buffers that were
never used are for block 0 of device 0, which nobody reads (`ROOTDEV` is 1).

* `Bcache.monitor` — the processes around the cache;
* `Bcache.inside_does` and `Bcache.outside_goes` — everything they can do.
-/
import CshellXv6.Lib.LinkedRing
import CshellXv6.Lib.Monitor

namespace Xv6

/-- `struct buf`, without its links and its lock. -/
structure Buf (α : Type) where
  valid : Bool
  dev : ℕ
  blockno : ℕ
  refcnt : ℕ
  data : α

/-- The block that a buffer is for. -/
def Buf.block {α : Type} (b : Buf α) : ℕ × ℕ := (b.dev, b.blockno)

/-- `bcache`, with the owners of the buffers' sleep locks and the disk. -/
structure Bcache (T B α : Type) where
  buf : B → Buf α
  owner : B → Option T
  ring : LinkedRing (Option B)
  pins : B → ℕ
  disk : ℕ × ℕ → α

namespace Bcache

/-- Where a process is in bio.c: in `bget`, in `bread` behind it, or behind
`releasesleep` in `brelse`. -/
inductive Doing (B : Type) where
  | nothing
  | bget (dev blockno : ℕ)
  | lookup (dev blockno : ℕ) (b : Option B)
  | recycle (dev blockno : ℕ) (b : Option B)
  | acquire (dev blockno : ℕ) (b : B)
  | bread (dev blockno : ℕ) (b : B)
  | brelse (b : B)
  | bpin (b : B)
  | bunpin (b : B)
  | panicked
  deriving DecidableEq

/-- A process, with the buffers it holds and for which block. -/
structure Loc (B : Type) where
  held : B → Option (ℕ × ℕ)
  doing : Doing B

/-- The calls into bio.c and the writes into a buffer; `go` is the next step
of a call. -/
inductive Input (B α : Type) where
  | bread (dev blockno : ℕ)
  | write (b : B) (v : α)
  | bwrite (b : B)
  | brelse (b : B)
  | bpin (b : B)
  | bunpin (b : B)
  | go

variable {T B α : Type} [DecidableEq B]

/-- `b->refcnt++` -/
def ref (d : Bcache T B α) (b : B) : Bcache T B α :=
  { d with buf := Function.update d.buf b { d.buf b with refcnt := (d.buf b).refcnt + 1 } }

/-- `b->refcnt--` -/
def unref (d : Bcache T B α) (b : B) : Bcache T B α :=
  { d with buf := Function.update d.buf b { d.buf b with refcnt := (d.buf b).refcnt - 1 } }

/-- A buffer is recycled for a block (bio.c:78-81). -/
def claim (d : Bcache T B α) (b : B) (dev blockno : ℕ) : Bcache T B α :=
  { d with
    buf := Function.update d.buf b
      { d.buf b with valid := false, dev := dev, blockno := blockno, refcnt := 1 } }

/-- `if (!b->valid) { virtio_disk_rw(b, 0); b->valid = 1; }` -/
def fill (d : Bcache T B α) (b : B) : Bcache T B α :=
  if (d.buf b).valid then d
  else
    { d with
      buf := Function.update d.buf b
        { d.buf b with valid := true, data := d.disk (d.buf b).block } }

/-- The holder of a buffer writes into it. -/
def write (d : Bcache T B α) (b : B) (v : α) : Bcache T B α :=
  { d with buf := Function.update d.buf b { d.buf b with data := v } }

/-- `virtio_disk_rw(b, 1)` -/
def bwrite (d : Bcache T B α) (b : B) : Bcache T B α :=
  { d with disk := Function.update d.disk (d.buf b).block (d.buf b).data }

/-- The end of `brelse` (bio.c:124-134): a buffer that nobody refers to any more
moves to the front of the list. -/
def release (d : Bcache T B α) (b : B) : Bcache T B α :=
  if ((d.unref b).buf b).refcnt = 0 then
    { d.unref b with ring := (d.ring.unlink (some b)).insertAfter none (some b) }
  else d.unref b

/-- What a process does without `bcache.lock`.  It only hands over buffers that
it holds, and only unpins what is pinned. -/
def outside (t : T) (l : Loc B) (d : Bcache T B α) : Input B α → Option (Bcache T B α × Loc B)
  | .go =>
    match l.doing with
    | .acquire dev blockno b =>
      if (d.owner b).isNone then
        some ({ d with owner := Function.update d.owner b (some t) },
          { l with doing := .bread dev blockno b })
      else none
    | .bread dev blockno b =>
      some (d.fill b, ⟨Function.update l.held b (some (dev, blockno)), .nothing⟩)
    | _ => none
  | .bread dev blockno =>
    match l.doing with
    | .nothing => if dev = 0 then none else some (d, { l with doing := .bget dev blockno })
    | _ => none
  | .write b v =>
    match l.doing, l.held b with
    | .nothing, some _ => some (d.write b v, l)
    | _, _ => none
  | .bwrite b =>
    match l.doing, l.held b with
    | .nothing, some _ => some (d.bwrite b, l)
    | _, _ => none
  | .brelse b =>
    match l.doing, l.held b with
    | .nothing, some _ =>
      some ({ d with owner := Function.update d.owner b none },
        ⟨Function.update l.held b none, .brelse b⟩)
    | _, _ => none
  | .bpin b =>
    match l.doing, l.held b with
    | .nothing, some _ => some (d, { l with doing := .bpin b })
    | _, _ => none
  | .bunpin b =>
    match l.doing, l.held b with
    | .nothing, some _ =>
      if d.pins b = 0 then none
      else some ({ d with pins := Function.update d.pins b (d.pins b - 1) },
        { l with doing := .bunpin b })
    | _, _ => none

open Monitor (Out St)

/-- What the holder of `bcache.lock` does; the two loops of `bget` are
`lookup`, along `next`, and `recycle`, along `prev`. -/
def inside (l : Loc B) (d : Bcache T B α) : Option (Out (Bcache T B α) (Loc B) Empty) :=
  match l.doing with
  | .bget dev blockno => some (.work d { l with doing := .lookup dev blockno (d.ring.next none) })
  | .lookup dev blockno (some b) =>
    if (d.buf b).dev = dev ∧ (d.buf b).blockno = blockno then
      some (.leave (d.ref b) { l with doing := .acquire dev blockno b })
    else some (.work d { l with doing := .lookup dev blockno (d.ring.next (some b)) })
  | .lookup dev blockno none =>
    some (.work d { l with doing := .recycle dev blockno (d.ring.prev none) })
  | .recycle dev blockno (some b) =>
    if (d.buf b).refcnt = 0 then
      some (.leave (d.claim b dev blockno) { l with doing := .acquire dev blockno b })
    else some (.work d { l with doing := .recycle dev blockno (d.ring.prev (some b)) })
  | .recycle _ _ none => some (.work d { l with doing := .panicked })
  | .brelse b => some (.leave (d.release b) { l with doing := .nothing })
  | .bpin b =>
    some (.leave { d.ref b with pins := Function.update d.pins b (d.pins b + 1) }
      { l with doing := .nothing })
  | .bunpin b => some (.leave (d.unref b) { l with doing := .nothing })
  | _ => none

/-- The places at which `acquire(&bcache.lock)` comes next. -/
def wants (l : Loc B) : Bool :=
  match l.doing with
  | .bget _ _ | .brelse _ | .bpin _ | .bunpin _ => true
  | _ => false

/-- `binit` (bio.c:42-51). -/
def binit (bufs : List B) : LinkedRing (Option B) :=
  bufs.foldl (fun m b => m.insertAfter none (some b)) ⟨fun _ => none, fun _ => none⟩

/-- The processes of the table `procs` around the buffers `bufs`, all of them
unused, over what is on the disk. -/
def monitor (procs : List T) (bufs : List B) (disk : ℕ × ℕ → α) :
    Monitor T (Loc B) (Bcache T B α) Empty (Input B α) where
  threads := procs
  init d f :=
    (∀ b, (d.buf b).valid = false ∧ (d.buf b).block = (0, 0) ∧ (d.buf b).refcnt = 0) ∧
    (∀ b, d.owner b = none) ∧ d.ring = binit bufs ∧ (∀ b, d.pins b = 0) ∧ d.disk = disk ∧
    ∀ t, f t = ⟨fun _ => none, .nothing⟩
  wants := wants
  outside := outside
  inside _ l d _ := inside l d

/-- Two unused buffers, with nobody around, over a disk on which every block
holds its number. -/
def start : St Bool (Loc Bool) (Bcache Bool Bool ℕ) Empty :=
  .start (fun _ => ⟨fun _ => none, .nothing⟩)
    { buf := fun _ => { valid := false, dev := 0, blockno := 0, refcnt := 0, data := 0 }
      owner := fun _ => none
      ring := binit [false, true]
      pins := fun _ => 0
      disk := Prod.snd }

theorem start_init : (monitor [false, true] [false, true] Prod.snd).sys.init start :=
  Monitor.init_start ⟨fun _ => ⟨rfl, rfl, rfl⟩, fun _ => rfl, rfl, fun _ => rfl, rfl, fun _ => rfl⟩

/-- A process reads a block into the buffer that was used least recently, from
the front of the list in `steps` steps. -/
def breadActs (t : Bool) (blockno steps : ℕ) : List (Monitor.Act Bool (Input Bool ℕ)) :=
  [.outside t (.bread 1 blockno), .acquire t] ++ List.replicate steps (.inside t .go) ++
    [.outside t .go, .outside t .go]

/-! ### What the operations leave alone -/

/-- The same buffers, up to their counts and their order. -/
structure Same (d d' : Bcache T B α) : Prop where
  block : ∀ c, (d'.buf c).block = (d.buf c).block
  valid : ∀ c, (d'.buf c).valid = (d.buf c).valid
  data : ∀ c, (d'.buf c).data = (d.buf c).data
  disk : d'.disk = d.disk

omit [DecidableEq B] in
theorem Same.refl (d : Bcache T B α) : Same d d :=
  ⟨fun _ => rfl, fun _ => rfl, fun _ => rfl, rfl⟩

section Fields

variable (d : Bcache T B α) (b c : B)

@[simp] theorem refcnt_ref :
    ((d.ref b).buf c).refcnt = (d.buf c).refcnt + if c = b then 1 else 0 := by
  by_cases hc : c = b
  · subst hc
    simp [ref]
  · simp [ref, hc]

@[simp] theorem refcnt_unref :
    ((d.unref b).buf c).refcnt = (d.buf c).refcnt - if c = b then 1 else 0 := by
  by_cases hc : c = b
  · subst hc
    simp [unref]
  · simp [unref, hc]

@[simp] theorem refcnt_release : ((d.release b).buf c).refcnt = ((d.unref b).buf c).refcnt := by
  unfold release
  split <;> rfl

@[simp] theorem pins_release : (d.release b).pins = d.pins := by
  unfold release
  split <;> rfl

@[simp] theorem owner_release : (d.release b).owner = d.owner := by
  unfold release
  split <;> rfl

@[simp] theorem block_fill : ((d.fill b).buf c).block = (d.buf c).block := by
  unfold fill
  split
  · rfl
  · by_cases hc : c = b
    · subst hc
      simp [Buf.block]
    · simp [hc]

@[simp] theorem refcnt_fill : ((d.fill b).buf c).refcnt = (d.buf c).refcnt := by
  unfold fill
  split
  · rfl
  · by_cases hc : c = b
    · subst hc
      simp
    · simp [hc]

theorem valid_fill : ((d.fill b).buf b).valid = true := by
  unfold fill
  split
  · assumption
  · simp

theorem fill_of_ne (hc : c ≠ b) : (d.fill b).buf c = d.buf c := by
  unfold fill
  split
  · rfl
  · simp [hc]

theorem fill_frame : (d.fill b).owner = d.owner ∧ (d.fill b).ring = d.ring ∧
    (d.fill b).pins = d.pins ∧ (d.fill b).disk = d.disk := by
  unfold fill
  split <;> exact ⟨rfl, rfl, rfl, rfl⟩

@[simp] theorem block_write (v : α) : ((d.write b v).buf c).block = (d.buf c).block := by
  by_cases hc : c = b
  · subst hc
    simp [write, Buf.block]
  · simp [write, hc]

@[simp] theorem valid_write (v : α) : ((d.write b v).buf c).valid = (d.buf c).valid := by
  by_cases hc : c = b
  · subst hc
    simp [write]
  · simp [write, hc]

@[simp] theorem refcnt_write (v : α) : ((d.write b v).buf c).refcnt = (d.buf c).refcnt := by
  by_cases hc : c = b
  · subst hc
    simp [write]
  · simp [write, hc]

theorem claim_of_ne {dev blockno : ℕ} (hc : c ≠ b) : (d.claim b dev blockno).buf c = d.buf c := by
  simp [claim, hc]

theorem claim_self {dev blockno : ℕ} : (d.claim b dev blockno).buf b =
    { d.buf b with valid := false, dev := dev, blockno := blockno, refcnt := 1 } := by
  simp [claim]

theorem same_ref : Same d (d.ref b) := by
  refine ⟨fun c => ?_, fun c => ?_, fun c => ?_, rfl⟩
  all_goals
    by_cases hc : c = b
    · subst hc
      simp [ref, Buf.block]
    · simp [ref, hc]

theorem same_unref : Same d (d.unref b) := by
  refine ⟨fun c => ?_, fun c => ?_, fun c => ?_, rfl⟩
  all_goals
    by_cases hc : c = b
    · subst hc
      simp [unref, Buf.block]
    · simp [unref, hc]

theorem same_release : Same d (d.release b) := by
  have h := same_unref d b
  unfold release
  split
  · exact ⟨h.block, h.valid, h.data, h.disk⟩
  · exact h

end Fields

/-! ### Everything a process can do -/

/-- What the holder of the lock does, by what it is doing. -/
inductive Does (d : Bcache T B α) (l : Loc B) : Out (Bcache T B α) (Loc B) Empty → Prop
  | start {dev blockno} : l.doing = .bget dev blockno →
      Does d l (.work d { l with doing := .lookup dev blockno (d.ring.next none) })
  | hit {dev blockno b} : l.doing = .lookup dev blockno (some b) →
      (d.buf b).block = (dev, blockno) →
      Does d l (.leave (d.ref b) { l with doing := .acquire dev blockno b })
  | miss {dev blockno b} : l.doing = .lookup dev blockno (some b) →
      (d.buf b).block ≠ (dev, blockno) →
      Does d l (.work d { l with doing := .lookup dev blockno (d.ring.next (some b)) })
  | absent {dev blockno} : l.doing = .lookup dev blockno none →
      Does d l (.work d { l with doing := .recycle dev blockno (d.ring.prev none) })
  | claim {dev blockno b} : l.doing = .recycle dev blockno (some b) → (d.buf b).refcnt = 0 →
      Does d l (.leave (d.claim b dev blockno) { l with doing := .acquire dev blockno b })
  | busy {dev blockno b} : l.doing = .recycle dev blockno (some b) → (d.buf b).refcnt ≠ 0 →
      Does d l (.work d { l with doing := .recycle dev blockno (d.ring.prev (some b)) })
  | panic {dev blockno} : l.doing = .recycle dev blockno none →
      Does d l (.work d { l with doing := .panicked })
  | release {b} : l.doing = .brelse b → Does d l (.leave (d.release b) { l with doing := .nothing })
  | pin {b} : l.doing = .bpin b →
      Does d l (.leave { d.ref b with pins := Function.update d.pins b (d.pins b + 1) }
        { l with doing := .nothing })
  | unpin {b} : l.doing = .bunpin b → Does d l (.leave (d.unref b) { l with doing := .nothing })

variable {d d' : Bcache T B α} {l l' : Loc B} {t : T}

theorem inside_does {o : Out (Bcache T B α) (Loc B) Empty} (h : inside l d = some o) :
    Does d l o := by
  unfold inside at h
  split at h
  · rename_i hl
    cases h
    exact .start hl
  · rename_i hl
    split at h
    · rename_i hb
      cases h
      exact .hit hl (Prod.ext hb.1 hb.2)
    · rename_i hb
      cases h
      exact .miss hl fun he => hb ⟨congrArg Prod.fst he, congrArg Prod.snd he⟩
  · rename_i hl
    cases h
    exact .absent hl
  · rename_i hl
    split at h
    · rename_i hb
      cases h
      exact .claim hl hb
    · rename_i hb
      cases h
      exact .busy hl hb
  · rename_i hl
    cases h
    exact .panic hl
  · rename_i hl
    cases h
    exact .release hl
  · rename_i hl
    cases h
    exact .pin hl
  · rename_i hl
    cases h
    exact .unpin hl
  · cases h

/-- What a process does without the lock. -/
inductive Goes (t : T) (d : Bcache T B α) (l : Loc B) :
    Input B α → Bcache T B α → Loc B → Prop
  | acquire {dev blockno b} : l.doing = .acquire dev blockno b → d.owner b = none →
      Goes t d l .go { d with owner := Function.update d.owner b (some t) }
        { l with doing := .bread dev blockno b }
  | fill {dev blockno b} : l.doing = .bread dev blockno b →
      Goes t d l .go (d.fill b) ⟨Function.update l.held b (some (dev, blockno)), .nothing⟩
  | bread {dev blockno} : l.doing = .nothing → dev ≠ 0 →
      Goes t d l (.bread dev blockno) d { l with doing := .bget dev blockno }
  | write {b k v} : l.doing = .nothing → l.held b = some k →
      Goes t d l (.write b v) (d.write b v) l
  | bwrite {b k} : l.doing = .nothing → l.held b = some k → Goes t d l (.bwrite b) (d.bwrite b) l
  | brelse {b k} : l.doing = .nothing → l.held b = some k →
      Goes t d l (.brelse b) { d with owner := Function.update d.owner b none }
        ⟨Function.update l.held b none, .brelse b⟩
  | bpin {b k} : l.doing = .nothing → l.held b = some k →
      Goes t d l (.bpin b) d { l with doing := .bpin b }
  | bunpin {b k} : l.doing = .nothing → l.held b = some k → d.pins b ≠ 0 →
      Goes t d l (.bunpin b) { d with pins := Function.update d.pins b (d.pins b - 1) }
        { l with doing := .bunpin b }

theorem outside_goes {i : Input B α} (h : outside t l d i = some (d', l')) :
    Goes t d l i d' l' := by
  cases i with
  | go =>
    simp only [outside] at h
    split at h
    · rename_i hl
      split at h
      · rename_i hb
        cases h
        exact .acquire hl (Option.isNone_iff_eq_none.mp hb)
      · cases h
    · rename_i hl
      cases h
      exact .fill hl
    · cases h
  | bread dev blockno =>
    simp only [outside] at h
    split at h
    · rename_i hl
      split at h
      · cases h
      · rename_i hdev
        cases h
        exact .bread hl hdev
    · cases h
  | bunpin b =>
    simp only [outside] at h
    split at h
    · rename_i k hl hb
      split at h
      · cases h
      · rename_i hp
        cases h
        exact .bunpin hl hb hp
    · cases h
  | write b v =>
    simp only [outside] at h
    split at h
    · rename_i k hl hb
      cases h
      exact .write hl hb
    · cases h
  | bwrite b =>
    simp only [outside] at h
    split at h
    · rename_i k hl hb
      cases h
      exact .bwrite hl hb
    · cases h
  | brelse b =>
    simp only [outside] at h
    split at h
    · rename_i k hl hb
      cases h
      exact .brelse hl hb
    · cases h
  | bpin b =>
    simp only [outside] at h
    split at h
    · rename_i k hl hb
      cases h
      exact .bpin hl hb
    · cases h

end Bcache

end Xv6
