import LogCodec.Bytes

/-! # Checksums

    The cyclic redundancy check of gzip files, with the reflected polynomial
    `0xEDB88320`. -/

namespace LogCodec.Gzip

/-- The reflected polynomial. -/
def crcPolynomial : UInt32 := 0xEDB88320

/-- One bit of the division. -/
def crcBit (r : UInt32) : UInt32 :=
  if r % 2 = 1 then crcPolynomial ^^^ (r >>> 1) else r >>> 1

/-- The remainders of all bytes. -/
def crcTable : Array UInt32 :=
  ((List.range 256).map fun n => Nat.repeat crcBit 8 (UInt32.ofNat n)).toArray

/-- One byte of the division. -/
def crcByte (r : UInt32) (b : UInt8) : UInt32 :=
  crcTable.getD ((r ^^^ b.toUInt32).toNat % 256) 0 ^^^ (r >>> 8)

/-- The remainder that division starts with and that the result is combined
    with. -/
def crcMask : UInt32 := 0xFFFFFFFF

/-- The checksum of some bytes. -/
def crc32 (bytes : Bytes) : UInt32 := bytes.foldl crcByte crcMask ^^^ crcMask

end LogCodec.Gzip
