import Ufs.Impl.Inode

/-!
# Logging the extents of an inode (`InodeLogEntry::update_extent`)

The extents that were added and those that were deleted are in two maps from the block number to the
last call for the block. `bmap_modified` stays set once a call has set it.
-/

namespace Ufs.Impl

def convLbaToPba (lba : UInt64) : UInt64 := UInt64.ofNat (Layout.standard.convLbaToPba lba.toNat)

/-- A call of `update_extent`. -/
structure ExtentCall where
  extent : CfsExtent
  addOrDel : Bool
  bmapModified : Bool
deriving Repr, DecidableEq

/-- `block_no` of the call: the extent has the block relative to the first data block. -/
def ExtentCall.blockNo (c : ExtentCall) : UInt64 := convLbaToPba c.extent.blockNo

namespace InodeLogEntry

/-- The entry as its constructor makes it and `on_successful_journal_write` leaves it. -/
def reset (e : InodeLogEntry) : InodeLogEntry :=
  { e with optfieldBitarr := 0, extentSeqNo := some 0, extAdd := ∅, extDel := ∅, dependsOn := ∅ }

/-- `try_emplace`, and the assignments when the block is in the map. -/
def updateExtMap (extMap : ExtMap) (ts : UInt32) (c : ExtentCall) : ExtMap :=
  match extMap.lookup c.blockNo with
  | none => extMap.insert c.blockNo ⟨ts, c.extent.iBlockOffset, c.extent.numBlocks, c.bmapModified⟩
  | some val =>
    extMap.insert c.blockNo ⟨ts, c.extent.iBlockOffset, c.extent.numBlocks, val.bmapModified || c.bmapModified⟩

/-- Only entries that were not read from a journal are updated: `extentSeqNo` is initialized. -/
def updateExtent (e : InodeLogEntry) (c : ExtentCall) : InodeLogEntry :=
  let ts := e.extentSeqNo.getD 0
  if c.addOrDel then { e with extentSeqNo := some (ts + 1), extAdd := updateExtMap e.extAdd ts c }
  else { e with extentSeqNo := some (ts + 1), extDel := updateExtMap e.extDel ts c }

end InodeLogEntry

end Ufs.Impl
