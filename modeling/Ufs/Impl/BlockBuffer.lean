import Mathlib.Data.Finset.Card

/-!
# The block buffer (`BlockBuffer.cc`, `BlockBuffer.h`)

An iterator of the LRU list is the entry that it points to. A map from an index to a set is a
partial function, as an empty set is not the same as none. The order of an unordered set is given
where it shows. What throws, or uses a null pointer, is `none`. Statistics and the lock are left
out.
-/

namespace Ufs.Impl

open Function (update)

/-- `BlockBufferStatus`: a slot is unused, has its block, or is being filled. -/
inductive BlockBufferStatus where
  | none
  | valid
  | locked
deriving Repr, DecidableEq

/-- `BlockBufferItem` without its memory. -/
structure BlockBufferItem where
  blockNo : ℕ
  itemIndex : ℕ
  isDirty : Bool
  inMem : Bool
  status : BlockBufferStatus
deriving Repr, DecidableEq

/-- What `getBlock` reports about the lock. -/
inductive LockGrabbed where
  | default
  | yes
  | no
deriving Repr, DecidableEq

/-- What `getBlock` returns: the slot, if there is one, the lock, and whether dirty blocks stood in
the way. -/
structure GotBlock where
  item : Option ℕ
  lockGrabbed : LockGrabbed
  hasDirty : Bool
deriving Repr, DecidableEq

/-- `BlockBuffer`: the slots, the LRU list of pairs of block and slot, the map and the two indexes.
-/
structure BlockBuffer where
  item : ℕ → BlockBufferItem
  cacheItemsList : List (ℕ × ℕ)
  cacheItemsMap : ℕ → Option (ℕ × ℕ)
  freeItems : List ℕ
  blockIndexMap : ℕ → Option (Finset ℕ)
  dirtyIndexMap : ℕ → Option (Finset ℕ)
  dirtyItemNum : ℤ
  bgFlushSent : Bool
  numFgFlushInflight : ℤ

namespace BlockBuffer

/-! ## Index maps -/

/-- The slots at a key of an index, none if the key is absent. -/
def itemsAt (m : ℕ → Option (Finset ℕ)) (k : ℕ) : Finset ℕ := (m k).getD ∅

/-- `m[k].erase(item)`, which makes an entry where there is none. -/
def eraseAt (m : ℕ → Option (Finset ℕ)) (k i : ℕ) : ℕ → Option (Finset ℕ) :=
  update m k (some ((itemsAt m k).erase i))

def emplaceAt (m : ℕ → Option (Finset ℕ)) (k i : ℕ) : ℕ → Option (Finset ℕ) :=
  update m k (some (insert i (itemsAt m k)))

def eraseKey (m : ℕ → Option (Finset ℕ)) (k : ℕ) : ℕ → Option (Finset ℕ) := update m k none

/-! ## Items -/

def setItem (s : BlockBuffer) (i : ℕ) (x : BlockBufferItem) : BlockBuffer :=
  { s with item := update s.item i x }

def setStatus (s : BlockBuffer) (i : ℕ) (status : BlockBufferStatus) : BlockBuffer :=
  s.setItem i { s.item i with status := status }

def setDirty (s : BlockBuffer) (i : ℕ) (isDirty : Bool) : BlockBuffer :=
  s.setItem i { s.item i with isDirty := isDirty }

def blockFetchedCallback (s : BlockBuffer) (i : ℕ) : BlockBuffer :=
  if (s.item i).status = .locked then s.setItem i { s.item i with inMem := true, status := .valid } else s

/-- `adjustDirtyItemNum` throws below 0. -/
def adjustDirtyItemNum (s : BlockBuffer) (delta : ℤ) : Option BlockBuffer :=
  if s.dirtyItemNum + delta < 0 then none else some { s with dirtyItemNum := s.dirtyItemNum + delta }

def dropEntry (s : BlockBuffer) (e : ℕ × ℕ) (bno : ℕ) : BlockBuffer :=
  { s with
    cacheItemsList := s.cacheItemsList.erase e
    cacheItemsMap := update s.cacheItemsMap bno none }

def pushFront (s : BlockBuffer) (bno i : ℕ) : BlockBuffer :=
  { s with
    cacheItemsList := (bno, i) :: s.cacheItemsList
    cacheItemsMap := update s.cacheItemsMap bno (some (bno, i)) }

/-! ## `getBlock` -/

/-- From the end of the list to an item that is neither locked nor dirty; what it passes may set `hasDirty`. -/
def findReplacement (item : ℕ → BlockBufferItem) : List (ℕ × ℕ) → Bool → Option (ℕ × ℕ) × Bool
  | [], hasDirty => (none, hasDirty)
  | e :: rest, hasDirty =>
    if (item e.2).status = .locked then findReplacement item rest (hasDirty || (item e.2).isDirty)
    else if (item e.2).isDirty then findReplacement item rest hasDirty
    else (some e, hasDirty)

/-- The item is locked for the block, and goes from its index to the new one. -/
def grab (s : BlockBuffer) (blockNo newIndex i : ℕ) : BlockBuffer :=
  let origIndex := (s.item i).itemIndex
  let erased := if origIndex ≠ newIndex ∧ origIndex ≠ 0 then eraseAt s.blockIndexMap origIndex i else s.blockIndexMap
  { s with
    item := update s.item i { s.item i with blockNo := blockNo, status := .locked, itemIndex := newIndex }
    cacheItemsMap := update s.cacheItemsMap blockNo s.cacheItemsList.head?
    blockIndexMap := if origIndex ≠ newIndex ∧ newIndex ≠ 0 then emplaceAt erased newIndex i else erased }

def getBlock (s : BlockBuffer) (blockNo newIndex : ℕ) : Option (BlockBuffer × GotBlock) :=
  match s.cacheItemsMap blockNo with
  | some e =>
    if (s.item e.2).status = .locked then some (s, ⟨some e.2, .no, false⟩)
    else
      some (grab { s with cacheItemsList := e :: s.cacheItemsList.erase e } blockNo newIndex e.2,
        ⟨some e.2, .yes, false⟩)
  | none =>
    match s.freeItems with
    | i :: rest =>
      some (grab
          (setItem { s with freeItems := rest, cacheItemsList := (blockNo, i) :: s.cacheItemsList } i
            { s.item i with inMem := false }) blockNo newIndex i,
        ⟨some i, .yes, false⟩)
    | [] =>
      if s.cacheItemsList = [] then some (s, ⟨none, .default, false⟩)
      else
        match findReplacement s.item s.cacheItemsList.reverse false with
        | (none, _) => none
        | (some e, hasDirty) =>
          some (grab
              (setItem
                { s with
                  cacheItemsMap := update s.cacheItemsMap (s.item e.2).blockNo none
                  cacheItemsList := (blockNo, e.2) :: s.cacheItemsList.erase e } e.2
                { s.item e.2 with inMem := false }) blockNo newIndex e.2,
            ⟨some e.2, .yes, hasDirty⟩)

def getBlockWithoutAccess (s : BlockBuffer) (blockNo : ℕ) : Option ℕ := (s.cacheItemsMap blockNo).map Prod.snd

/-! ## Other operations -/

def releaseBlock (s : BlockBuffer) (i : ℕ) : BlockBuffer :=
  if (s.item i).status = .locked then s.setStatus i .valid else s

def releaseBlockNo (s : BlockBuffer) (blockNo : ℕ) : BlockBuffer :=
  match s.cacheItemsMap blockNo with
  | some e => s.releaseBlock e.2
  | none => s

def setItemDirty (s : BlockBuffer) (i : ℕ) (isDirty : Bool) (itemIndex : ℕ) : Option BlockBuffer :=
  let orig := (s.item i).isDirty
  let s := s.setDirty i isDirty
  if orig = isDirty then some s
  else if orig then
    (s.adjustDirtyItemNum (-1)).map fun s => { s with dirtyIndexMap := eraseAt s.dirtyIndexMap itemIndex i }
  else (s.adjustDirtyItemNum 1).map fun s => { s with dirtyIndexMap := emplaceAt s.dirtyIndexMap itemIndex i }

/-- One item of an unlinked inode goes back to the free items, with the index that it had. -/
def freeItem (s : BlockBuffer) (i : ℕ) : Option BlockBuffer :=
  let orig := (s.item i).isDirty
  ((s.setDirty i false).adjustDirtyItemNum (if orig then -1 else 0)).bind fun s =>
    (s.cacheItemsMap (s.item i).blockNo).map fun e =>
      let s := s.dropEntry e (s.item i).blockNo
      { s with freeItems := s.freeItems ++ [i] }

def freeAll : List ℕ → BlockBuffer → Option BlockBuffer
  | [], s => some s
  | i :: rest, s => (s.freeItem i).bind (freeAll rest)

/-- `order` is the order in which the set of the index is gone through. -/
def releaseUnlinkedInodeDirtyBlocks (s : BlockBuffer) (itemIndex : ℕ) (order : List ℕ) : Option BlockBuffer :=
  (freeAll order s).map fun s =>
    { s with
      blockIndexMap := eraseKey s.blockIndexMap itemIndex
      dirtyIndexMap :=
        if (itemsAt s.dirtyIndexMap itemIndex).Nonempty then eraseKey s.dirtyIndexMap itemIndex else s.dirtyIndexMap }

def flushDoneBlock (s : BlockBuffer) (bno : ℕ) (e : ℕ × ℕ) : Option BlockBuffer :=
  ((s.setDirty e.2 false).adjustDirtyItemNum (-1)).map fun s =>
    { s with
      dirtyIndexMap := eraseAt s.dirtyIndexMap (s.item e.2).itemIndex e.2
      cacheItemsList := s.cacheItemsList.erase e ++ [(bno, e.2)]
      cacheItemsMap := update s.cacheItemsMap bno (some (bno, e.2)) }

/-- The loop of `doFlushDone`, with what it returns: it ends at a block that was not dirty. -/
def flushDoneLoop : List ℕ → BlockBuffer → Option (BlockBuffer × ℤ)
  | [], s => some (s, 0)
  | bno :: rest, s =>
    (s.cacheItemsMap bno).bind fun e =>
      if (s.item e.2).isDirty then (s.flushDoneBlock bno e).bind (flushDoneLoop rest) else some (s, -1)

def doFlushDone (s : BlockBuffer) (blocks : List ℕ) : Option (BlockBuffer × ℤ) :=
  if s.bgFlushSent ∨ 0 < s.numFgFlushInflight then flushDoneLoop blocks s else some (s, -1)

def splitItem (s : BlockBuffer) (i : ℕ) : Option BlockBuffer :=
  (s.cacheItemsMap (s.item i).blockNo).bind fun e =>
    if (s.item e.2).status = .locked then none else some (s.dropEntry e (s.item i).blockNo)

def splitAll : List ℕ → BlockBuffer → Option BlockBuffer
  | [], s => some s
  | i :: rest, s => (s.splitItem i).bind (splitAll rest)

/-- With the items that it hands over; -1 is `none`. -/
def splitBufferItemsByIndex (s : BlockBuffer) (index : ℕ) (order : List ℕ) : Option (BlockBuffer × Option (Finset ℕ)) :=
  match s.blockIndexMap index with
  | none => some (s, none)
  | some set =>
    let dirty := itemsAt s.dirtyIndexMap index
    (s.adjustDirtyItemNum (-dirty.card)).bind fun s =>
      (splitAll order { s with dirtyIndexMap := eraseKey s.dirtyIndexMap index }).map fun s =>
        ({ s with blockIndexMap := eraseKey s.blockIndexMap index }, some set)

def installItem (s : BlockBuffer) (x : ℕ × BlockBufferItem) : BlockBuffer :=
  (s.setItem x.1 x.2).pushFront x.2.blockNo x.1

/-- The items come with what they hold; `dirtyIndexMap_.emplace` does nothing when the index has an entry. -/
def installBufferItemsOfIndex (s : BlockBuffer) (index : ℕ) (items : List (ℕ × BlockBufferItem)) : Option BlockBuffer :=
  let dirtySet := ((items.filter fun x => x.2.isDirty).map Prod.fst).toFinset
  let s := items.foldl installItem
    { s with
      blockIndexMap := update s.blockIndexMap index
        (some (itemsAt s.blockIndexMap index ∪ (items.map Prod.fst).toFinset)) }
  if dirtySet.Nonempty then
    { s with
      dirtyIndexMap :=
        if (s.dirtyIndexMap index).isSome then s.dirtyIndexMap
        else update s.dirtyIndexMap index (some dirtySet) }.adjustDirtyItemNum dirtySet.card
  else some s

def initItem : BlockBufferItem :=
  { blockNo := 0, itemIndex := 0, isDirty := false, inMem := false, status := .none }

/-- An empty buffer of `blockNum` slots. -/
def init (blockNum : ℕ) : BlockBuffer :=
  { item := fun _ => initItem
    cacheItemsList := []
    cacheItemsMap := fun _ => none
    freeItems := List.range blockNum
    blockIndexMap := fun _ => none
    dirtyIndexMap := fun _ => none
    dirtyItemNum := 0
    bgFlushSent := false
    numFgFlushInflight := 0 }

/-! ## Steps -/

/-- A call of a public function of the buffer. -/
inductive Label where
  | getBlock (blockNo newIndex : ℕ)
  | blockFetched (i : ℕ)
  | releaseBlock (i : ℕ)
  | releaseBlockNo (blockNo : ℕ)
  | setItemDirty (i : ℕ) (isDirty : Bool) (itemIndex : ℕ)
  | releaseUnlinked (itemIndex : ℕ) (order : List ℕ)
  | setFlush (bgFlushSent : Bool) (numFgFlushInflight : ℤ)
  | doFlushDone (blocks : List ℕ)
  | split (index : ℕ) (order : List ℕ)
  | install (index : ℕ) (items : List (ℕ × BlockBufferItem))

def IsOrder (s : BlockBuffer) (k : ℕ) (order : List ℕ) : Prop :=
  order.Nodup ∧ order.toFinset = itemsAt s.blockIndexMap k

instance (s : BlockBuffer) (k : ℕ) (order : List ℕ) : Decidable (s.IsOrder k order) :=
  inferInstanceAs (Decidable (_ ∧ _))

/-- One call; there is no result where the code fails an assertion. -/
def step : Label → BlockBuffer → Option BlockBuffer
  | .getBlock blockNo newIndex, s => (s.getBlock blockNo newIndex).map Prod.fst
  | .blockFetched i, s => some (s.blockFetchedCallback i)
  | .releaseBlock i, s => some (s.releaseBlock i)
  | .releaseBlockNo blockNo, s => some (s.releaseBlockNo blockNo)
  | .setItemDirty i isDirty itemIndex, s => s.setItemDirty i isDirty itemIndex
  | .releaseUnlinked itemIndex order, s =>
    if s.IsOrder itemIndex order then s.releaseUnlinkedInodeDirtyBlocks itemIndex order else none
  | .setFlush bgFlushSent numFgFlushInflight, s =>
    some { s with bgFlushSent := bgFlushSent, numFgFlushInflight := numFgFlushInflight }
  | .doFlushDone blocks, s => (s.doFlushDone blocks).map Prod.fst
  | .split index order, s =>
    if s.IsOrder index order then (s.splitBufferItemsByIndex index order).map Prod.fst else none
  | .install index items, s => s.installBufferItemsOfIndex index items

end BlockBuffer

end Ufs.Impl
