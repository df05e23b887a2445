import TreeArchive.Archive.Checksum
import TreeArchive.Archive.Deflate

/-!
Members of an archive and the bytes of the container that holds them: a local part for each, then a
directory entry for each, then the end record.
-/
namespace TreeArchive

structure Member where
  name : String
  /-- Permission bits and the mark of a regular file. -/
  mode : Nat
  content : Content
  /-- The header has room for sizes from 4 GiB on. -/
  large : Bool
deriving DecidableEq, Inhabited

namespace Archive

def regularFile : Nat := 0o100000

/-- The largest size that a plain header can hold. -/
def plainLimit : Nat := 0xFFFFFFFF

def le16 (n : Nat) : List UInt8 := [n.toUInt8, (n / 256).toUInt8]

def le32 (n : Nat) : List UInt8 := le16 (n % 65536) ++ le16 (n / 65536)

def le64 (n : Nat) : List UInt8 := le32 (n % 4294967296) ++ le32 (n / 4294967296)

/-- A member as written: with its checksum and its packed bytes. -/
structure Record where
  member : Member
  crc : UInt32
  packed : ByteArray

def Record.ofMember (level : UInt8) (m : Member) : Record :=
  ⟨m, m.content.checksum.crc, Deflate.pack level m.content⟩

def isAscii (name : String) : Bool :=
  name.toList.all fun c => c.toNat < 0x80

/-- The fields that local parts and directory entries share; the time is the first of January 1980.
-/
def sharedFields (m : Member) (crc : UInt32) (packed size : Nat) (wide : List Nat) : List UInt8 :=
  le16 (if wide.isEmpty then 20 else 45) ++ le16 (if isAscii m.name then 0 else 0x800) ++ le16 8 ++
    le16 0 ++ le16 0x21 ++ le32 crc.toNat ++
    le32 (if m.large then plainLimit else packed) ++ le32 (if m.large then plainLimit else size) ++
    le16 m.name.utf8ByteSize ++ le16 (if wide.isEmpty then 0 else 4 + 8 * wide.length)

/-- The extra field for values that do not fit into the plain fields. -/
def wideFields (wide : List Nat) : List UInt8 :=
  if wide.isEmpty then [] else le16 1 ++ le16 (8 * wide.length) ++ wide.flatMap le64

def wideSizes (m : Member) (packed size : Nat) : List Nat :=
  if m.large then [size, packed] else []

def pushAll (out : ByteArray) (bytes : List UInt8) : ByteArray :=
  bytes.foldl ByteArray.push out

def localHeader (m : Member) (crc : UInt32) (packed size : Nat) : ByteArray :=
  let wide := wideSizes m packed size
  pushAll (pushAll .empty (le32 0x04034B50 ++ sharedFields m crc packed size wide) ++
    m.name.toUTF8) (wideFields wide)

/-- The header of a member whose data is still to come. -/
def openHeader (m : Member) : ByteArray :=
  localHeader m 0 0 0

def Record.localPart (r : Record) : ByteArray :=
  localHeader r.member r.crc r.packed.size r.member.content.size ++ r.packed

def Record.directoryEntry (r : Record) (offset : Nat) : ByteArray :=
  let m := r.member
  let size := m.content.size
  let wide := wideSizes m r.packed.size size ++ if plainLimit ≤ offset then [offset] else []
  let fields := le32 0x02014B50 ++ le16 (3 * 256 + 45) ++
    sharedFields m r.crc r.packed.size size wide ++ le16 0 ++ le16 0 ++ le16 0 ++
    le32 (m.mode * 65536) ++ le32 (min offset plainLimit)
  pushAll (pushAll .empty fields ++ m.name.toUTF8) (wideFields wide)

def Record.localSize (r : Record) : Nat :=
  r.localPart.size

def directory (offset : Nat) : List Record → ByteArray
  | [] => .empty
  | r :: rest => r.directoryEntry offset ++ directory (offset + r.localSize) rest

/-- The largest number of members that a plain end record can hold. -/
def plainCount : Nat := 0xFFFF

/-- The end record for archives that the plain one cannot describe, and where it stands. -/
def wideEndRecord (count size offset : Nat) : List UInt8 :=
  le32 0x06064B50 ++ le64 44 ++ le16 45 ++ le16 45 ++ le32 0 ++ le32 0 ++ le64 count ++
    le64 count ++ le64 size ++ le64 offset ++
    le32 0x07064B50 ++ le32 0 ++ le64 (offset + size) ++ le32 1

def endRecord (count size offset : Nat) : List UInt8 :=
  let isWide := plainCount < count || plainLimit < max size offset
  (if isWide then wideEndRecord count size offset else []) ++
    le32 0x06054B50 ++ le16 0 ++ le16 0 ++ le16 (min count plainCount) ++
    le16 (min count plainCount) ++ le32 (min size plainLimit) ++ le32 (min offset plainLimit) ++
    le16 0

/-- What precedes the directory: the local parts of all records. -/
def locals (records : List Record) : Content :=
  ⟨records.map fun r => ⟨r.localPart, 1⟩⟩

theorem locals_append (first second : List Record) :
    locals (first ++ second) = (locals first).append (locals second) := by
  simp [locals, Content.append]

/-- The whole container. -/
def image (records : List Record) : Content :=
  let front := locals records
  let entries := directory 0 records
  front.append (.ofBytes (pushAll entries (endRecord records.length entries.size front.size)))

end Archive

end TreeArchive
