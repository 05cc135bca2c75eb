import Ufs.Impl.Alloc

/-!
# Bits of a block (`util.cc`)

The operations on a bit of the bytes at an address, and the search for several clear bits. Its
numbers are natural ones, as those of the other searches.
-/

namespace Ufs.Impl

/-- The bytes of a bitmap block. -/
abbrev Bytes := ℕ → BitVec 8

/-- `1 << (nr & 0x07)`. -/
def bitMask (nr : ℕ) : BitVec 8 := 1#8 <<< (nr &&& 0x07)

/-- The bit in its place of the byte, so that the result is not 0 or 1 but 0 or a power of 2. -/
def Bytes.blockTestBit (nr : ℕ) (addr : Bytes) : ℕ := (bitMask nr &&& addr (nr >>> 3)).toNat

/-- The old value of the bit, and the bytes with it set. -/
def Bytes.blockSetBit (nr : ℕ) (addr : Bytes) : ℕ × Bytes :=
  (Bytes.blockTestBit nr addr, Function.update addr (nr >>> 3) (addr (nr >>> 3) ||| bitMask nr))

/-- The old value of the bit, and the bytes with it clear. -/
def Bytes.blockClearBit (nr : ℕ) (addr : Bytes) : ℕ × Bytes :=
  (Bytes.blockTestBit nr addr, Function.update addr (nr >>> 3) (addr (nr >>> 3) &&& ~~~bitMask nr))

/-- The loop at `bitNo`, with as many bits left as the first number says; `none` is -1. -/
def multiBitsLoop (b : Bitmap) (numBitsNeed : ℕ) : ℕ → ℕ → Option ℕ → ℕ → Option ℕ
  | 0, _, _, _ => none
  | n + 1, bitNo, startBitNo, numBitsFound =>
    if b bitNo then multiBitsLoop b numBitsNeed n (bitNo + 1) startBitNo 0
    else if numBitsFound + 1 = numBitsNeed then startBitNo
    else
      let startBitNo := if numBitsFound + 1 = 1 then some bitNo else startBitNo
      if numBitsFound + 1 < numBitsNeed then multiBitsLoop b numBitsNeed n (bitNo + 1) startBitNo
        (numBitsFound + 1) else none

/-- The first of `numBitsNeed` clear bits in a row. -/
def findBlockFreeMultiBitsNo (b : Bitmap) (numBitsPerBlock numBitsNeed : ℕ) : Option ℕ :=
  multiBitsLoop b numBitsNeed numBitsPerBlock 0 none 0

end Ufs.Impl
