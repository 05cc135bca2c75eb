import Ufs.Impl.JSuper

/-!
# The layout of the device (`FsProc_FsInternal.h`)

`DEV_SIZE` and `kFsPerExtShareArr` are chosen when the server is built, so that the functions are
those of a `Layout`; the ones without it are at the default choice (`standard`). The helpers work
with `uint64_t`, except for the number of bitmap blocks that
`getDataBMapStartBlockNoForExtentArrIdx` takes and the numbers it returns.
-/

namespace Ufs.Impl

/-- The choices: `DEV_SIZE`, in bytes, and `kFsPerExtShareArr`, which has no share for the last extent. -/
structure Layout where
  devSize : ℕ
  share : Fin 6 → ℕ

def devSize : ℕ := 858993459200

def bpb : ℕ := bsize * 8

abbrev nextentArr : ℕ := 7

def lastExtentAllocUnitByte : ℕ := 4294967296

def maxLargeFileNum : ℕ := nmaxFspWorker

def lastExtentMaxBmapBlockNum : ℕ := lastExtentAllocUnitByte / (bpb * bsize) * maxLargeFileNum

def getDevImapNumBlocks : ℕ := 125000 / bpb + 1

def getBmapStartBlock : ℕ := getWorkerJournalSb nmaxFspWorker

def getDevInodeNumBlocks : ℕ := 125000 / (bsize / 512) + 1

namespace Layout

/-- The device and the shares of the extents that the code is compiled for. -/
def standard : Layout := ⟨Impl.devSize, ![1, 1, 4, 8, 16, 20]⟩

def kFsExtArrShareSum (L : Layout) : ℕ := ((List.finRange 6).map L.share).sum

def totalPreShare (L : Layout) (extentArrIdx : ℕ) : ℕ :=
  (((List.finRange 6).take extentArrIdx).map L.share).sum

def perShare (L : Layout) (totalBmapBlockNum : ℕ) : ℕ :=
  u64Sub (totalBmapBlockNum % 2 ^ 32) lastExtentMaxBmapBlockNum / L.kFsExtArrShareSum

/-- `maxBmapBlockNum`, which `getDataBMapStartBlockNoForExtentArrIdx` assigns. -/
def maxBmapBlockNum (L : Layout) (extentArrIdx : Fin nextentArr) (totalBmapBlockNum : ℕ) : ℕ :=
  if h : extentArrIdx.1 < 6 then L.perShare totalBmapBlockNum * L.share ⟨extentArrIdx, h⟩ % 2 ^ 32
  else lastExtentMaxBmapBlockNum

def getDataBMapStartBlockNoForExtentArrIdx (L : Layout) (extentArrIdx : Fin nextentArr)
    (totalBmapBlockNum : ℕ) : ℕ :=
  L.totalPreShare extentArrIdx * L.perShare totalBmapBlockNum % 2 ^ 32

def getDevBmapNumBlocksInTotal (L : Layout) : ℕ := L.devSize / bsize / bpb + 1

def getDevBmapNumBlocksForWorker (L : Layout) : ℕ := L.getDevBmapNumBlocksInTotal / nmaxFspWorker

def getBmapStartBlockForWorker (L : Layout) (widIdx : ℕ) : ℕ :=
  getBmapStartBlock + ((List.range widIdx).map fun _ => L.getDevBmapNumBlocksForWorker).sum

def getInodeStartBlock (L : Layout) : ℕ :=
  L.getBmapStartBlockForWorker 0 + L.getDevBmapNumBlocksInTotal

def getDataStartBlock (L : Layout) : ℕ := L.getInodeStartBlock + getDevInodeNumBlocks

def convLbaToPba (L : Layout) (lba : ℕ) : ℕ := lba + L.getDataStartBlock

/-- The argument and the result are `uint32_t`. -/
def getBmapBlockForLba (L : Layout) (lba : ℕ) : ℕ :=
  (lba % 2 ^ 32 / bpb + L.getBmapStartBlockForWorker 0) % 2 ^ 32

/-- The blocks of the device. -/
def devBlocks (L : Layout) : ℕ := L.devSize / bsize

end Layout

/-! ## The default choice -/

def getDevBmapNumBlocksForWorker : ℕ := Layout.standard.getDevBmapNumBlocksForWorker

def getInodeStartBlock : ℕ := Layout.standard.getInodeStartBlock

def getDataStartBlock : ℕ := Layout.standard.getDataStartBlock

def getBmapBlockForLba (lba : ℕ) : ℕ := Layout.standard.getBmapBlockForLba lba

end Ufs.Impl
