-- SUMMARY: `fat_readi`, the file nodes and the calls that use them.
import DmaCpu.Fat.Volume

/-!
# File reads

The counters of a read are natural numbers, none of which can pass `2 ^ 32` but the
position behind a run of sectors. Addresses are words. A multi-sector command may fail at
any time and leave anything in the part of the buffer that it was to fill; a single
sector is read as it is on the card. Loops take the number of rounds that they can
make at most.
-/
namespace DmaCpu.Fat

open Blit (blit)

/-- The outcome of each multi-sector command: the bytes that it leaves when it fails. -/
abbrev Runs := Nat → Option (Nat → Byte)

structure Fs where
  cache : Cache
  mem : Blit.Mem 32 Byte
  /-- The number of multi-sector commands so far. -/
  run : Nat

/-- A computation that reads through the cache. -/
def cached {α : Type} (x : StateM Cache α) : StateM Fs α := fun s =>
  ((x s.cache).1, { s with cache := (x s.cache).2 })

/-- A transfer into memory. -/
def put (d : Word) (len : Nat) (src : Nat → Byte) : StateM Fs Unit := fun s =>
  ((), { s with mem := blit s.mem d len src })

/-- `kdmacpy`, from the memory bus: words when everything is aligned, else bytes. -/
def kdmacpy (v : Volume) (dst src : Word) (len : Nat) : StateM Fs Unit := fun s =>
  let byte := fun i => v.media (src + BitVec.ofNat 32 i).toNat
  if (dst ||| src ||| BitVec.ofNat 32 len) &&& 3 = 0 then
    ((), { s with mem := Blit.copyUnits 4 s.mem dst (len / 4) byte })
  else ((), { s with mem := Blit.copyUnits 1 s.mem dst len byte })

/-- `ksd_read_run`: whether the command succeeds. -/
def ksdReadRun (v : Volume) (runs : Runs) (lba dst : Word) (n : Nat) : StateM Fs Bool := fun s =>
  match runs s.run with
  | none =>
    (true, { s with
      mem := blit s.mem dst (512 * n) fun i => v.media (512 * lba.toNat + i)
      run := s.run + 1 })
  | some junk => (false, { s with mem := blit s.mem dst (512 * n) junk, run := s.run + 1 })

/-- The walk to the cluster of the offset. -/
def skipLoop (v : Volume) : Nat → Word → StateM Cache Word
  | 0, cl => return cl
  | skip + 1, cl =>
    if live cl then do
      let nx ← fatNext v cl
      skipLoop v skip nx
    else return cl

/-- The sectors that lie behind one another from cluster `c2` on, up to `want`. -/
def spanLoop (v : Volume) (want : Nat) : Nat → Nat → Word → StateM Cache Nat
  | 0, span, _ => return span
  | fuel + 1, span, c2 =>
    if span < want then do
      let nx ← fatNext v c2
      if ¬live nx ∨ clusaddr v nx ≠ clusaddr v c2 + v.clussz then return span
      else spanLoop v want fuel (span + v.cluster / 512) nx
    else return span

/-- The cluster at a position behind `cl`. -/
def advanceLoop (v : Volume) : Nat → Nat → Word → StateM Cache (Nat × Word)
  | 0, pos, cl => return (pos, cl)
  | fuel + 1, pos, cl =>
    if v.cluster ≤ pos ∧ live cl then do
      let nx ← fatNext v cl
      advanceLoop v fuel (pos - v.cluster) nx
    else return (pos, cl)

/-- Whole aligned sectors go to the buffer, the rest through the cache. -/
def sectorLoop (v : Volume) : Nat → Word → Word → Nat → StateM Fs Unit
  | 0, _, _, _ => return ()
  | fuel + 1, voff, d, left =>
    if left = 0 then return ()
    else
      let inn := (voff &&& 511).toNat
      if inn = 0 ∧ 512 ≤ left ∧ d &&& 3 = 0 then do
        put d 512 (v.sector (v.sdpart + (voff >>> 9)))
        sectorLoop v fuel (voff + 512) (d + 512) (left - 512)
      else do
        let chunk := min (512 - inn) left
        let s ← cached (sdsec v (v.sdpart + (voff >>> 9)))
        put d chunk fun j => s (inn + j)
        sectorLoop v fuel (voff + BitVec.ofNat 32 chunk) (d + BitVec.ofNat 32 chunk) (left - chunk)

/-- Where a read is: the bytes delivered, the position in the cluster, the cluster. -/
abbrev Cursor := Nat × Nat × Word

/-- The multi-sector path; `none` when it is not taken or fails. -/
def readRun (v : Volume) (runs : Runs) (dst : Word) (n : Nat) :
    Cursor → StateM Fs (Option Cursor) := fun (done, pos, cl) => do
  let a := clusaddr v cl + BitVec.ofNat 32 pos
  let d := dst + BitVec.ofNat 32 done
  if v.sd = true ∧ a &&& 511 = 0 ∧ d &&& 3 = 0 ∧ 1024 ≤ n - done then
    let want := (n - done) / 512
    let found ← cached (spanLoop v want want ((v.cluster - pos) / 512) cl)
    let span := min found want
    if 1 < span then
      if ← ksdReadRun v runs (v.sdpart + ((a - sdbase) >>> 9)) d span then
        let end' := (pos + 512 * span) % 2 ^ 32
        let (pos', cl') ← cached (advanceLoop v end' end' cl)
        return some (done + 512 * span, pos', cl')
      else return none
    else return none
  else return none

/-- `take` bytes from address `a`, sector by sector or as one copy. -/
def transfer (v : Volume) (d a : Word) (take : Nat) : StateM Fs Unit :=
  if v.sd then sectorLoop v take (a - sdbase) d take else kdmacpy v d a take

/-- The part of one cluster. -/
def readCluster (v : Volume) (dst : Word) (n : Nat) : Cursor → StateM Fs Cursor :=
  fun (done, pos, cl) => do
  let take := min (v.cluster - pos) (n - done)
  transfer v (dst + BitVec.ofNat 32 done) (clusaddr v cl + BitVec.ofNat 32 pos) take
  let nx ← cached (fatNext v cl)
  return (done + take, 0, nx)

def readLoop (v : Volume) (runs : Runs) (dst : Word) (n : Nat) : Nat → Cursor → StateM Fs Nat
  | 0, c => return c.1
  | fuel + 1, c =>
    if c.1 < n ∧ live c.2.2 then do
      match ← readRun v runs dst n c with
      | some c' => readLoop v runs dst n fuel c'
      | none =>
        let c' ← readCluster v dst n c
        readLoop v runs dst n fuel c'
    else return c.1

/-- `struct fatmeta`. -/
structure Meta where
  clus : Word
  size : Word
  seqci : Word
  seqcl : Word

/-- `fat_readi` on a file: what it returns, and the new sequential position. -/
def fatReadi (v : Volume) (runs : Runs) (fm : Meta) (dst off n : Word) : StateM Fs (Int × Meta) :=
  if fm.size ≤ off then return (0, fm)
  else do
    let n := if fm.size < off + n then fm.size - off else n
    let ci := off / v.clussz
    let resume := live fm.seqcl ∧ fm.seqci ≤ ci
    let cl ← cached (if resume then skipLoop v (ci - fm.seqci).toNat fm.seqcl
      else skipLoop v ci.toNat fm.clus)
    let done ← readLoop v runs dst n.toNat n.toNat (0, (off % v.clussz).toNat, cl)
    return ((BitVec.ofNat 32 done).toInt, { fm with seqci := ci, seqcl := cl })

/-! ## Nodes -/

structure Node where
  ref : Nat
  inum : Word
  isdir : Bool
  info : Meta

/-- `NFATNODE`. -/
def nfatnode : Nat := 16

structure State where
  fs : Fs
  node : Nat → Node

namespace State

def setNode (s : State) (i : Nat) (nd : Node) : State :=
  { s with node := fun j => if j = i then nd else s.node j }

/-- After a mount. -/
structure Mounted (s : State) : Prop where
  empty : ∀ i, s.fs.cache.tag i = 0
  unused : ∀ i, (s.node i).ref = 0

end State

inductive Event where
  /-- `fat_getnode`. -/
  | getnode (clus size : Word) (isdir : Bool) (ident : Word)
  /-- `fat_dup`. -/
  | dup (i : Nat)
  /-- `fat_put`. -/
  | put (i : Nat)
  /-- `fat_readi` on a file. -/
  | readi (i : Nat) (dst off n : Word)
  /-- The rest of the kernel: another reader of the card looks at a sector, and memory
      changes. -/
  | other (lba : Word) (mem : Blit.Mem 32 Byte)

/-- `fat_getnode`; the size of a directory is the caller's here. -/
def fatGetnode (s : State) (clus size : Word) (isdir : Bool) (ident : Word) : State :=
  match (List.range nfatnode).find? fun i => 0 < (s.node i).ref ∧ (s.node i).inum = ident with
  | some i => s.setNode i { s.node i with ref := (s.node i).ref + 1 }
  | none =>
    match (List.range nfatnode).find? fun i => (s.node i).ref = 0 with
    | some i => s.setNode i { ref := 1, inum := ident, isdir := isdir, info := ⟨clus, size, 0, 0⟩ }
    | none => s

/-- A read through node `i`. -/
def readNode (v : Volume) (runs : Runs) (s : State) (i : Nat) (dst off n : Word) : Int × State :=
  let r := fatReadi v runs (s.node i).info dst off n s.fs
  (r.1.1, { s with fs := r.2 }.setNode i { s.node i with info := r.1.2 })

def step (v : Volume) (runs : Runs) (s : State) : Event → Option State
  | .getnode clus size isdir ident => some (fatGetnode s clus size isdir ident)
  | .dup i =>
    if 0 < (s.node i).ref then some (s.setNode i { s.node i with ref := (s.node i).ref + 1 })
    else none
  | .put i => some (s.setNode i { s.node i with ref := (s.node i).ref - 1 })
  | .readi i dst off n =>
    if 0 < (s.node i).ref ∧ (s.node i).isdir = false then some (readNode v runs s i dst off n).2
    else none
  | .other lba mem =>
    some { s with fs := { s.fs with cache := (sdsec v lba s.fs.cache).2, mem := mem } }

end DmaCpu.Fat
