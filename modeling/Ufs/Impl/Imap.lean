import Ufs.Impl.Alloc

/-!
# Inode numbers (`FsImpl::GetFreeInum`, `FsProc_FileMng.cc`)

The search goes on after the bit where it ended last. A bit is cleared when a new inode is given
back (`returnInode`) and when a deallocation is committed (`processInodeBitmapChanges`). `live`, the
numbers in use, is not read by the code.
-/

namespace Ufs.Impl

/-- `NINODES`. -/
def ninodes : ℕ := 125000

def imapblockNum : ℕ := 4

/-- A `uint32_t`. -/
def calcSectorForInode (ino : ℕ) : ℕ := (ino + bsize / 512 * getInodeStartBlock) % 2 ^ 32

/-- The inode bitmap and the cursor of the search. -/
structure Imap where
  iMapBlock : ℕ → Bitmap
  nextImapNo : ℕ
  nextImapBlockFreeBitNo : ℤ

namespace Imap

/-- The bit of an inode number. -/
def test (m : Imap) (ino : ℕ) : Bool := m.iMapBlock (ino / bpb) (ino % bpb)

def search : ℕ → ℕ → Imap → Option (ℕ × ℕ) × Imap
  | 0, _, m => (none, m)
  | n + 1, i, m =>
    let imapBlkIdx := i % imapblockNum
    let m := { m with nextImapNo := imapBlkIdx }
    match findBlockFreeBitNoStartFrom (m.iMapBlock imapBlkIdx) m.nextImapBlockFreeBitNo bpb with
    | some inBlkino => (some (imapBlkIdx, inBlkino), { m with nextImapBlockFreeBitNo := inBlkino })
    | none => search n (i + 1) { m with nextImapBlockFreeBitNo := -1 }

/-- `GetFreeInum`: a number whose bit was clear, or 0. -/
def getFreeInum (m : Imap) : ℕ × Imap :=
  match search (imapblockNum + 1) m.nextImapNo m with
  | (none, m) => (0, m)
  | (some (imapBlkIdx, inBlkino), m) =>
    (bpb * imapBlkIdx + inBlkino, { m with
      iMapBlock := Function.update m.iMapBlock imapBlkIdx (blockSetBit inBlkino (m.iMapBlock imapBlkIdx)) })

def clear (m : Imap) (imapBlkIdx inBlkino : ℕ) : Imap :=
  { m with iMapBlock := Function.update m.iMapBlock imapBlkIdx (blockClearBit inBlkino (m.iMapBlock imapBlkIdx)) }

def returnInode (m : Imap) (ino : ℕ) : Imap := m.clear (ino / bpb) (ino % bpb)

/-- A deallocation in `processInodeBitmapChanges`, in the block of `getDirtyInodeBitmap`. -/
def processInodeBitmapChange (m : Imap) (ino : ℕ) : Imap :=
  m.clear (u64Sub (getImapForInode ino) getImapStartBlock) (ino % bpb)

end Imap

/-- The bitmap with the inodes that exist. -/
structure Inums where
  imap : Imap
  live : Finset ℕ

namespace Inums

/-- A number is given, given back, or freed by a committed entry. -/
inductive Label where
  | getFreeInum
  | returnInode (ino : ℕ)
  | processInodeBitmapChange (ino : ℕ)
deriving Repr, DecidableEq

/-- Inodes that are there are given back or deallocated. -/
def step (l : Label) (s : Inums) : Option Inums :=
  match l with
  | .getFreeInum =>
    let (ino, imap) := s.imap.getFreeInum
    some ⟨imap, if ino = 0 then s.live else insert ino s.live⟩
  | .returnInode ino => if ino ∈ s.live then some ⟨s.imap.returnInode ino, s.live.erase ino⟩ else none
  | .processInodeBitmapChange ino =>
    if ino ∈ s.live then some ⟨s.imap.processInodeBitmapChange ino, s.live.erase ino⟩ else none

end Inums

end Ufs.Impl
