import Ufs.Framework.Ring
import Ufs.Impl.JSuper

/-!
# Runs of a `JSuper`

`Hist` is a `JSuper` with its history: the blocks enqueued and released so far, counted as items of
one stream (`enq`, `deq`), the slots and fillers granted (`grants`, the newest first), the
superblock on the device (`durable`) and the one being written (`pending`). `step` runs one function
of the `JSuper` and records what it did; `jsuperDurable` is the device finishing a write before its
completion is processed. `call` does so for any arguments, and `step` for requests whose sum with
`n_used` does not wrap.
-/

namespace Ufs.Impl

open Ufs.Ring

/-- A slot or a filler that was granted: its place in the stream of blocks, and the
index the caller got. -/
structure Grant extends Extent where
  startIdx : ℕ
  filler : Bool
deriving Repr, DecidableEq

/-- A snapshot of the superblock, with the state of the stream when it was taken. -/
structure Snap where
  disk : JSuperOnDisk
  enq : ℕ
  deq : ℕ
deriving Repr, DecidableEq

/-- A write of the superblock in progress: its snapshot, and the count to subtract when
it completes. -/
structure Pending where
  snap : Snap
  old : ℕ
deriving Repr, DecidableEq

/-- A `JSuper` with its history. -/
structure Hist where
  js : JSuper
  enq : ℕ
  deq : ℕ
  grants : List Grant
  durable : Snap
  pending : Option Pending
deriving Repr, DecidableEq

/-- A function of `JSuper`, or the device finishing a superblock write. -/
inductive Op where
  | acquire (n : ℕ)
  | release (k : ℕ)
  | trySetWriteInProgress
  | jsuperDurable
  | onWriteComplete
  | setLastCheckpoint (ts : ℕ)
deriving Repr, DecidableEq

namespace Hist

/-- The `JSuper` read from the superblock `d`, which is on the device. -/
def start (d : JSuperOnDisk) : Hist := ⟨JSuper.ofDisk d, d.head, d.head, [], ⟨d, d.head, d.head⟩, none⟩

/-- The snapshot that a superblock write takes now. -/
def snap (h : Hist) : Snap := ⟨h.js.djsuper, h.enq, h.deq⟩

/-- A slot of `n` blocks at index `idx`, and the (possibly empty) filler of `f` blocks
after it. -/
def grant (h : Hist) (idx n f : ℕ) : Hist :=
  { h with
    enq := h.enq + n + f
    grants := ⟨⟨h.enq + n, f⟩, (idx + n) % h.js.capacity, true⟩ :: ⟨⟨h.enq, n⟩, idx, false⟩ :: h.grants }

/-- A request for `n` blocks, granted or not. -/
def acquire (h : Hist) (n : ℕ) : Hist :=
  let (slot, js) := h.js.acquireNextNSlots n
  match slot.startIdx with
  | none => { h with js }
  | some idx => { h.grant idx n (js.size - (h.js.size + n)) with js }

/-- `k` blocks are given back at the tail. -/
def release (h : Hist) (k : ℕ) : Hist := { h with js := h.js.releaseFirstNSlots k, deq := h.deq + k }

/-- One operation; `acquire` if the sum does not wrap, and `release` and `onWriteComplete` only as
their callers use them. -/
def step : Op → Hist → Option Hist
  | .acquire n, h => if h.js.djsuper.nUsed + n < 2 ^ 64 then some (h.acquire n) else none
  | .release k, h =>
    if k ≤ h.js.size then some (h.release k) else none
  | .trySetWriteInProgress, h =>
    match h.js.trySetWriteInProgress with
    | (none, js) => some { h with js }
    | (some (disk, old), js) => some { h with js, pending := some ⟨⟨disk, h.enq, h.deq⟩, old⟩ }
  | .jsuperDurable, h => h.pending.map fun p => { h with durable := p.snap }
  | .onWriteComplete, h =>
    h.pending.map fun p => { h with js := h.js.onWriteComplete p.old, durable := p.snap, pending := none }
  | .setLastCheckpoint ts, h => some { h with js := h.js.setLastCheckpoint ts }

/-- One operation, with a request for any number of blocks. -/
def call : Op → Hist → Option Hist
  | .acquire n, h => some (h.acquire n)
  | op, h => step op h

end Hist

end Ufs.Impl
