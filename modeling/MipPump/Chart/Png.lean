import MipPump.Chart.Raster

/-!
# Pictures as files

A picture is written in the portable network graphics format, in shades of grey and without
compression: a signature, a header, the rows in blocks that are stored as they are, and an end.
Each chunk carries a cyclic checksum, and the stored rows a sum checksum.
-/

namespace MipPump
namespace Chart

section Checksums

/-- One bit of the cyclic checksum. -/
def cyclicBit (c : UInt32) : UInt32 :=
  if c &&& 1 == 1 then (0xedb88320 : UInt32) ^^^ (c >>> 1) else c >>> 1

/-- One byte of the cyclic checksum. -/
def cyclicByte (c : UInt32) (b : UInt8) : UInt32 :=
  (List.range 8).foldl (fun c _ => cyclicBit c) (c ^^^ b.toUInt32)

/-- The cyclic checksum of bytes. -/
def cyclic (bytes : List UInt8) : UInt32 :=
  bytes.foldl cyclicByte (0xffffffff : UInt32) ^^^ (0xffffffff : UInt32)

/-- The sum checksum of bytes. -/
def sums (bytes : List UInt8) : UInt32 :=
  let (a, b) := bytes.foldl
    (fun (a, b) x => let a := (a + x.toNat) % 65521; (a, (b + a) % 65521)) (1, 0)
  UInt32.ofNat (b * 65536 + a)

end Checksums

section Files

/-- A number in four bytes, the most significant first. -/
def fourBytes (n : UInt32) : List UInt8 :=
  [(n >>> 24).toUInt8, (n >>> 16).toUInt8, (n >>> 8).toUInt8, n.toUInt8]

/-- A chunk with its length and checksum. -/
def chunk (name : String) (body : List UInt8) : List UInt8 :=
  let named := name.toUTF8.toList ++ body
  fourBytes (UInt32.ofNat body.length) ++ named ++ fourBytes (cyclic named)

/-- A block that is stored as it is. -/
def storedBlock (isLast : Bool) (body : List UInt8) : List UInt8 :=
  let n := UInt16.ofNat body.length
  let m := n ^^^ (0xffff : UInt16)
  [if isLast then 1 else 0, n.toUInt8, (n >>> 8).toUInt8, m.toUInt8, (m >>> 8).toUInt8] ++ body

/-- The rows of a picture, each after a byte for its filter. -/
def scanlines (r : Raster) : List (List UInt8) :=
  (List.range r.height).map fun y =>
    0 :: (r.shades.extract (y * r.width) ((y + 1) * r.width)).toList

/-- Rows as a stream of stored blocks, one for each row. -/
def stored (rows : List (List UInt8)) : List UInt8 :=
  let last := rows.length - 1
  [0x78, 0x01] ++ rows.zipIdx.flatMap (fun (row, i) => storedBlock (i == last) row)
    ++ fourBytes (sums rows.flatten)

/-- The header of a picture in eight-bit shades of grey. -/
def header (r : Raster) : List UInt8 :=
  fourBytes (UInt32.ofNat r.width) ++ fourBytes (UInt32.ofNat r.height) ++ [8, 0, 0, 0, 0]

/-- A picture as a file. -/
def png (r : Raster) : ByteArray :=
  let signature : List UInt8 := [0x89, 0x50, 0x4e, 0x47, 0x0d, 0x0a, 0x1a, 0x0a]
  ⟨(signature ++ chunk "IHDR" (header r) ++ chunk "IDAT" (stored (scanlines r))
    ++ chunk "IEND" []).toArray⟩

end Files

end Chart
end MipPump
