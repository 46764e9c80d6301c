/-
The contents of files (kernel/fs.c).

An inode lists the blocks of its file: twelve of them directly, 256 more in the
words of an indirect block.  Blocks come from the free map, which has a bit for
each block of the disk, and go back to it when the file is truncated.

The blocks are seen as the buffer cache and the log show them, the latest
contents of each.  The free map and the inodes, which are in blocks as well, are
kept apart here, and an inode in memory and on the disk are one: the calls
below work on a locked inode and write it back.  Their transactions fit into the
log, and the table of inodes in memory has room: the panics of `log_write` and of
`iget` are left out.

* `Fs.balloc`, `Fs.bfree`, `Fs.bmap`, `Fs.itrunc`, `Fs.readi`, `Fs.writei` — the
  functions of fs.c, `none` where they themselves panic;
* `Fs.exec` — a call of one of them from outside.
-/
import Mathlib.Data.List.Basic
import Mathlib.Logic.Function.Basic
import Mathlib.Data.UInt
import CshellXv6.Lib.Words

namespace Xv6

/-- Block size (fs.h:5). -/
def BSIZE : ℕ := 1024

/-- fs.h:29-31 -/
def NDIRECT : ℕ := 12
def NINDIRECT : ℕ := 256
def MAXFILE : ℕ := NDIRECT + NINDIRECT

/-- Inodes per block (fs.h:45). -/
def IPB : ℕ := 16

/-- Bitmap bits per block (fs.h:51). -/
def BPB : ℕ := 8192

/-- The superblock, as far as fs.c reads it; `nblocks` of the blocks, the last
ones, are for data. -/
structure Superblock where
  size : ℕ
  nblocks : ℕ
  ninodes : ℕ
  inodestart : ℕ
  bmapstart : ℕ
  meta_pos : nblocks < size
  small : size < 2 ^ 32

/-- The first data block. -/
def Superblock.nmeta (sb : Superblock) : ℕ := sb.size - sb.nblocks

/-- `IBLOCK(i, sb)` -/
def Superblock.IBLOCK (sb : Superblock) (i : ℕ) : ℕ := i / IPB + sb.inodestart

/-- `BBLOCK(b, sb)` -/
def Superblock.BBLOCK (sb : Superblock) (b : ℕ) : ℕ := b / BPB + sb.bmapstart

/-- `struct dinode`, as far as fs.c reads it; a `type` of 0 is a free inode. -/
structure Inode where
  type : ℕ
  size : ℕ
  addrs : ℕ → ℕ

/-- The disk: the free map, the blocks, the inodes, and the numbers of the
blocks given to `log_write`, the latest first. -/
structure Fs where
  used : ℕ → Bool
  data : ℕ → ℕ → UInt8
  inode : ℕ → Inode
  logged : List ℕ

namespace Fs

open Words

/-- `log_write(bp)`, in a transaction that is not too big (log.c:230). -/
def logWrite (s : Fs) (b : ℕ) : Fs := { s with logged := b :: s.logged }

/-- Set or clear the bit of a block. -/
def mark (s : Fs) (b : ℕ) (u : Bool) : Fs := { s with used := Function.update s.used b u }

/-- Write into the buffer of a block. -/
def setData (s : Fs) (b : ℕ) (d : ℕ → UInt8) : Fs :=
  { s with data := Function.update s.data b d }

/-- `ip->addrs[k] = addr` -/
def setAddr (s : Fs) (i k addr : ℕ) : Fs :=
  { s with
    inode := Function.update s.inode i
      { s.inode i with addrs := Function.update (s.inode i).addrs k addr } }

/-- `ip->size = size` -/
def setSize (s : Fs) (i size : ℕ) : Fs :=
  { s with inode := Function.update s.inode i { s.inode i with size := size } }

variable (sb : Superblock)

/-- `bzero` (fs.c:53-61). -/
def bzero (s : Fs) (b : ℕ) : Fs := (s.setData b fun _ => 0).logWrite b

/-- `balloc` (fs.c:68-91): the two loops go through the bits in order. -/
def balloc (s : Fs) : ℕ × Fs :=
  match (List.range sb.size).find? fun b => !s.used b with
  | some b => (b, ((s.mark b true).logWrite (sb.BBLOCK b)).bzero b)
  | none => (0, s)

/-- `bfree` (fs.c:94-109). -/
def bfree (s : Fs) (b : ℕ) : Option Fs :=
  if s.used b then some ((s.mark b false).logWrite (sb.BBLOCK b)) else none

/-- `iupdate` (fs.c:228-243). -/
def iupdate (s : Fs) (i : ℕ) : Fs := s.logWrite (sb.IBLOCK i)

/-- `ip->addrs[k]`, allocated if it is not there; 0 if the disk is full. -/
def addrOf (s : Fs) (i k : ℕ) : ℕ × Fs :=
  if (s.inode i).addrs k = 0 then
    let r := balloc sb s
    if r.1 = 0 then (0, r.2) else (r.1, r.2.setAddr i k r.1)
  else ((s.inode i).addrs k, s)

/-- `a[j]` of the indirect block `ind`, allocated if it is not there. -/
def entryOf (s : Fs) (ind j : ℕ) : ℕ × Fs :=
  if word (s.data ind) j = 0 then
    let r := balloc sb s
    if r.1 = 0 then (0, r.2)
    else (r.1, (r.2.setData ind (setWord (r.2.data ind) j r.1)).logWrite ind)
  else (word (s.data ind) j, s)

/-- `bmap` (fs.c:421-459). -/
def bmap (s : Fs) (i bn : ℕ) : Option (ℕ × Fs) :=
  if bn < NDIRECT then some (addrOf sb s i bn)
  else if bn - NDIRECT < NINDIRECT then
    -- the indirect block stays allocated if there is no block left to list in it
    let r := addrOf sb s i NDIRECT
    if r.1 = 0 then some (0, r.2) else some (entryOf sb r.2 r.1 (bn - NDIRECT))
  else none

/-- The first loop of `itrunc` (fs.c:470-475). -/
def truncDirect (i : ℕ) : List ℕ → Fs → Option Fs
  | [], s => some s
  | k :: ks, s =>
    if (s.inode i).addrs k ≠ 0 then
      (bfree sb s ((s.inode i).addrs k)).bind fun s => truncDirect i ks (s.setAddr i k 0)
    else truncDirect i ks s

/-- The loop over the indirect block in `itrunc` (fs.c:480-483); `a` is what the
buffer holds. -/
def truncEntries (a : ℕ → UInt8) : List ℕ → Fs → Option Fs
  | [], s => some s
  | j :: js, s =>
    if word a j ≠ 0 then (bfree sb s (word a j)).bind (truncEntries a js)
    else truncEntries a js s

/-- The indirect block and what it lists (fs.c:477-487). -/
def truncIndirect (i : ℕ) (s : Fs) : Option Fs :=
  let ind := (s.inode i).addrs NDIRECT
  if ind ≠ 0 then
    (truncEntries sb (s.data ind) (List.range NINDIRECT) s).bind fun s =>
      (bfree sb s ind).map fun s => s.setAddr i NDIRECT 0
  else some s

/-- `itrunc` (fs.c:464-491). -/
def itrunc (s : Fs) (i : ℕ) : Option Fs :=
  (truncDirect sb i (List.range NDIRECT) s).bind fun s =>
    (truncIndirect sb i s).map fun s => iupdate sb (s.setSize i 0) i

/-- How many bytes a turn of the loops of `readi` and `writei` is about:
`min(n - tot, BSIZE - off % BSIZE)`, where `off` has moved on by `tot`. -/
def chunk (off n tot : ℕ) : ℕ := min (n - tot) (BSIZE - (off + tot) % BSIZE)

/-- The loop of `readi` (fs.c:521-534).  `dst i` says whether the byte can be
copied to `dst + i`; `acc` are the bytes copied so far.  Each turn takes a byte
at least, so that `n` turns are enough. -/
def readLoop (i : ℕ) (dst : ℕ → Bool) (off n : ℕ) :
    ℕ → List UInt8 → Fs → Option (Option (List UInt8) × Fs)
  | 0, acc, s => some (some acc, s)
  | k + 1, acc, s =>
    if acc.length < n then
      match bmap sb s i ((off + acc.length) / BSIZE) with
      | none => none
      | some (addr, s) =>
        if addr = 0 then some (some acc, s)
        else
          let m := chunk off n acc.length
          if (List.range m).all fun j => dst (acc.length + j) then
            readLoop i dst off n k
              (acc ++ (List.range m).map fun j => s.data addr ((off + acc.length) % BSIZE + j)) s
          else some (none, s)
    else some (some acc, s)

/-- `readi` (fs.c:510-536); -1 is `none`. -/
def readi (s : Fs) (i : ℕ) (dst : ℕ → Bool) (off n : UInt32) :
    Option (Option (List UInt8) × Fs) :=
  if (s.inode i).size < off.toNat ∨ off + n < off then some (some [], s)
  else
    let n := min n.toNat ((s.inode i).size - off.toNat)
    readLoop sb i dst off.toNat n n [] s

/-- `either_copyin(..., src + tot, m)`: the bytes up to the first that cannot be
read. -/
def copyin (src : ℕ → Option UInt8) (tot m : ℕ) : List UInt8 :=
  ((List.range m).map fun j => src (tot + j)).takeWhile Option.isSome |>.filterMap id

/-- The loop of `writei` (fs.c:555-568): the bytes written when it ends. -/
def writeLoop (i : ℕ) (src : ℕ → Option UInt8) (off n : ℕ) : ℕ → ℕ → Fs → Option (ℕ × Fs)
  | 0, tot, s => some (tot, s)
  | k + 1, tot, s =>
    if tot < n then
      match bmap sb s i ((off + tot) / BSIZE) with
      | none => none
      | some (addr, s) =>
        if addr = 0 then some (tot, s)
        else
          let m := chunk off n tot
          let bs := copyin src tot m
          -- the block is logged also if the copy has stopped in it
          let s := (s.setData addr (splice (s.data addr) ((off + tot) % BSIZE) bs)).logWrite addr
          if bs.length < m then some (tot, s) else writeLoop i src off n k (tot + m) s
    else some (tot, s)

/-- `writei` (fs.c:544-579). -/
def writei (s : Fs) (i : ℕ) (src : ℕ → Option UInt8) (off n : UInt32) : Option (ℤ × Fs) :=
  if (s.inode i).size < off.toNat ∨ off + n < off then some (-1, s)
  else if MAXFILE * BSIZE < (off + n).toNat then some (-1, s)
  else
    (writeLoop sb i src off.toNat n.toNat n.toNat 0 s).map fun r =>
      -- the inode is written back in any case: `bmap` may have added a block
      let s := r.2
      let s := if (s.inode i).size < off.toNat + r.1 then s.setSize i (off.toNat + r.1) else s
      (r.1, iupdate sb s i)

/-- `ialloc` (fs.c:201-222): the number of the inode, 0 if there is none; `iget`,
which finds it a place in memory, is left out. -/
def ialloc (s : Fs) (type : ℕ) : ℕ × Fs :=
  match (List.range sb.ninodes).find? fun i => 1 ≤ i ∧ (s.inode i).type = 0 with
  | some i =>
    let s := { s with inode := Function.update s.inode i ⟨type, 0, fun _ => 0⟩ }
    (i, logWrite s (sb.IBLOCK i))
  | none => (0, s)

/-- `ifree` (fs.c:333-341). -/
def ifree (s : Fs) (i : ℕ) : Fs :=
  { s with inode := Function.update s.inode i { s.inode i with type := 0 } }.logWrite (sb.IBLOCK i)

/-- `iput` of the last reference to a file without links (fs.c:350-380). -/
def iput (s : Fs) (i : ℕ) : Option Fs := (itrunc sb s i).map fun s => ifree sb s i

/-- A call from outside: the inode is locked first. -/
inductive Call
  | read (i : ℕ) (dst : ℕ → Bool) (off n : UInt32)
  | write (i : ℕ) (src : ℕ → Option UInt8) (off n : UInt32)
  | trunc (i : ℕ)
  | create (type : ℕ) (hne : type ≠ 0)
  | put (i : ℕ)

/-- What a call returns. -/
inductive Ret
  | got (out : Option (List UInt8))
  | wrote (r : ℤ)
  | made (i : ℕ)
  | done
  deriving DecidableEq

/-- `ilock` panics on a free inode (fs.c:312). -/
def ilock (s : Fs) (i : ℕ) : Option Fs := if (s.inode i).type = 0 then none else some s

/-- A call; `none` if `ilock`, `bmap` or `bfree` panics. -/
def exec (s : Fs) : Call → Option (Ret × Fs)
  | .read i dst off n =>
    (ilock s i).bind fun s => (readi sb s i dst off n).map fun r => (.got r.1, r.2)
  | .write i src off n =>
    (ilock s i).bind fun s => (writei sb s i src off n).map fun r => (.wrote r.1, r.2)
  | .trunc i => (ilock s i).bind fun s => (itrunc sb s i).map fun s => (.done, s)
  | .create type _ => some (.made (ialloc sb s type).1, (ialloc sb s type).2)
  | .put i => (ilock s i).bind fun s => (iput sb s i).map fun s => (.done, s)

end Fs

end Xv6
