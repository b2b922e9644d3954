/-
The exporter, `src/read.go`: the program that reads a card's image on a
computer and writes out what its files hold.

It is a second implementation of the card's format, with its own copies of the
CRC table, of the packed structures and of their sizes, and so it is modelled on
its own: nothing here is taken from the device's side but the notion of bytes.
What a Go program does when it panics is part of it (`Panic`), and so is what
`binary.Read` and `f.Read` do at the end of the image.

The operating system is a parameter (`Host`): whether `os.OpenFile` opens a file
and whether `Write` takes what it is given.
-/
import Mathlib.Data.List.DropRight
import Fkfs.Lib.Bytes

set_option autoImplicit false

namespace Fkfs.Exporter

open Bytes

/-- What makes the program panic. -/
inductive Panic
  /-- An index is out of range. -/
  | index
  /-- A read from the image fails. -/
  | read
  /-- `os.OpenFile` fails. -/
  | openFile
  /-- `Write` fails. -/
  | write
  deriving DecidableEq

/-- `xs[i]`. -/
def index {α : Type*} (xs : List α) (i : ℕ) : Except Panic α :=
  match xs[i]? with
  | some x => .ok x
  | none => .error .index

/-! ## The CRC -/

/-- `Crc16Table`. -/
def Crc16Table : List UInt16 := [
  0x0000, 0xCC01, 0xD801, 0x1400, 0xF001, 0x3C00, 0x2800, 0xE401,
  0xA001, 0x6C00, 0x7800, 0xB401, 0x5000, 0x9C01, 0x8801, 0x4400]

/-- One round of the loop of `Crc16Update`. Its indices are masked with `0xF`
and so in range. -/
def Crc16Round (crc : UInt16) (b : UInt8) : UInt16 :=
  -- compute checksum of lower four bits of *p
  let r := Crc16Table.getD (crc &&& 0xF).toNat 0
  let crc := (crc >>> 4) &&& 0x0FFF
  let crc := crc ^^^ r ^^^ Crc16Table.getD (b &&& 0xF).toNat 0
  -- now compute checksum of upper four bits of *p
  let r := Crc16Table.getD (crc &&& 0xF).toNat 0
  let crc := (crc >>> 4) &&& 0x0FFF
  crc ^^^ r ^^^ Crc16Table.getD ((b >>> 4) &&& 0xF).toNat 0

/-- `Crc16Update`. -/
def Crc16Update (start : UInt16) (data : List UInt8) (n : ℕ) : Except Panic UInt16 :=
  (List.range n).foldlM (fun crc i => do
    let b ← index data i
    return Crc16Round crc b) start

/-! ## The structures -/

/-- `MaximumEntrySize`. -/
abbrev MaximumEntrySize : ℕ := 505

/-- `MaximumBlockSize`. -/
abbrev MaximumBlockSize : ℕ := 512

/-- `Entry`. -/
structure Entry where
  File : UInt8
  Size : UInt16
  Available : UInt16
  Crc : UInt16
  deriving DecidableEq

/-- `File`. -/
structure File where
  Name : Fin 12 → UInt8
  Version : UInt16
  StartBlock : UInt32
  StartOffset : UInt16
  EndBlock : UInt32
  EndOffset : UInt16
  Size : UInt32

/-- `HeaderBlock`. -/
structure HeaderBlock where
  Version : UInt8
  Generation : UInt32
  Block : UInt32
  Offset : UInt16
  Time : UInt32
  Files : Fin 4 → File
  Crc : UInt16

/-- `Cursor`. -/
structure Cursor where
  Block : UInt32
  Offset : UInt16
  deriving DecidableEq

/-- `Block`. -/
structure Block where
  File : Option File
  Entry : Option Entry
  Data : List UInt8
  Next : Cursor

/-- `header.Files[i]`. -/
def HeaderBlock.file (header : HeaderBlock) (i : UInt8) : Except Panic File :=
  if h : i.toNat < 4 then .ok (header.Files ⟨i.toNat, h⟩) else .error .index

/-! ## `encoding/binary`

A structure is laid out field by field, little-endian, with nothing between the
fields. -/

/-- `binary.Size(&entry)`. -/
abbrev sizeEntry : ℕ := 7

/-- What `binary.Write` makes of an entry. -/
def Entry.bytes (e : Entry) : List UInt8 :=
  e.File :: (le16 e.Size ++ (le16 e.Available ++ le16 e.Crc))

/-- What `binary.Read` makes of the bytes at `o`. -/
def entryOf (m : Mem) (o : ℕ) : Entry := ⟨m o, u16 m (o + 1), u16 m (o + 3), u16 m (o + 5)⟩

/-- A `File` at `o`. -/
def fileOf (m : Mem) (o : ℕ) : File where
  Name := fun i => m (o + i)
  Version := u16 m (o + 12)
  StartBlock := u32 m (o + 14)
  StartOffset := u16 m (o + 18)
  EndBlock := u32 m (o + 20)
  EndOffset := u16 m (o + 24)
  Size := u32 m (o + 26)

/-- A `HeaderBlock` at `o`. -/
def headerOf (m : Mem) (o : ℕ) : HeaderBlock where
  Version := m o
  Generation := u32 m (o + 1)
  Block := u32 m (o + 5)
  Offset := u16 m (o + 9)
  Time := u32 m (o + 11)
  Files := fun i => fileOf m (o + 15 + 30 * i)
  Crc := u16 m (o + 135)

/-! ## The image -/

/-- The card or image that is read. -/
structure Image where
  size : ℕ
  bytes : Mem

/-- `binary.Read` of an `Entry` at `pos`: all of it or an error. -/
def Image.readEntry (f : Image) (pos : ℕ) : Except Panic Entry :=
  if pos + sizeEntry ≤ f.size then .ok (entryOf f.bytes pos) else .error .read

/-- `f.Read` into `n` zeros from `pos` on: as many bytes as are left, an error
only if there are none. -/
def Image.read (f : Image) (pos n : ℕ) : Except Panic (List UInt8) :=
  if f.size ≤ pos then .error .read
  else .ok (slice f.bytes pos (min n (f.size - pos)) ++ List.replicate (n - (f.size - pos)) 0)

/-- `ReadHeader`: both slots are read in one piece. -/
def ReadHeader (f : Image) : Except Panic HeaderBlock :=
  if f.size < 2 * 137 then .error .read
  else
    let headerBlock (i : ℕ) : HeaderBlock := headerOf f.bytes (137 * i)
    if (headerBlock 1).Generation < (headerBlock 0).Generation then .ok (headerBlock 0)
    else .ok (headerBlock 1)

/-- `BlockChecksum`. -/
def BlockChecksum (file : File) (entry : Entry) (data : List UInt8) : Except Panic UInt16 := do
  let crc ← Crc16Update file.Version entry.bytes (entry.bytes.length - 2)
  Crc16Update crc data data.length

/-- Where `ReadBlock` looks: the sum is one of 32-bit words. -/
def position (c : Cursor) : ℕ := (c.Block * 512 + c.Offset.toUInt32).toNat

/-- The next block. -/
def Cursor.skip (c : Cursor) : Cursor := ⟨c.Block + 1, 0⟩

/-- The place behind an entry of this size. -/
def Cursor.past (c : Cursor) (size : UInt16) : Cursor :=
  let next : Cursor := ⟨c.Block, c.Offset + size + 7⟩
  if MaximumBlockSize ≤ next.Offset.toNat then ⟨c.Block + 1, 0⟩ else next

/-- The bounds `ReadBlock` puts on an entry header are broken. -/
def Entry.refused (entry : Entry) : Bool :=
  6 ≤ entry.File.toNat || entry.Size == 0 || MaximumEntrySize < entry.Size.toNat
    || entry.Available == 0 || MaximumEntrySize < entry.Available.toNat

/-- `ReadBlock`. -/
def ReadBlock (header : HeaderBlock) (c : Cursor) (f : Image) : Except Panic Block := do
  let entry ← f.readEntry (position c)
  if entry.refused then return ⟨none, none, [], c.skip⟩
  else
    let data ← f.read (position c + sizeEntry) entry.Size.toNat
    let file ← header.file entry.File
    let actual ← BlockChecksum file entry data
    if entry.Crc ≠ actual then return ⟨none, none, [], c.skip⟩
    else return ⟨some file, some entry, data, c.past entry.Size⟩

/-! ## `main` -/

/-- `FileInfo`, with what has been written to the file. -/
structure FileInfo where
  Name : List UInt8
  Written : List UInt8
  Size : ℕ

/-- The operating system: the date in front of every name, and whether the
`OpenFile` and the `Write` for the `n`-th entry succeed. -/
structure Host where
  date : List UInt8
  opens : ℕ → List UInt8 → Bool
  writes : ℕ → Bool

/-- What `main` has done so far. The number of entries exported and the places
visited are ghosts. -/
structure Export where
  files : UInt8 → Option FileInfo
  entries : ℕ
  visits : List Cursor

/-- `strings.TrimRight(string(name), "\x00")`. -/
def trimRight (name : Fin 12 → UInt8) : List UInt8 := (List.ofFn name).rdropWhile (· = 0)

/-- The name of a file's copy. -/
def exportName (host : Host) (file : File) : List UInt8 :=
  host.date ++ [95] ++ trimRight file.Name

/-- `files[b.Entry.File]`, opened if need be. -/
def openExport (host : Host) (x : Export) (i : UInt8) (file : File) : Except Panic FileInfo :=
  match x.files i with
  | some info => .ok info
  | none =>
    if host.opens x.entries (exportName host file) then .ok ⟨exportName host file, [], 0⟩
    else .error .openFile

/-- What the loop of `main` does with a block before it goes on to the next. -/
def exportBlock (host : Host) (x : Export) (b : Block) : Except Panic Export :=
  match b.Entry, b.File with
  | some entry, some file => do
    let info ← openExport host x entry.File file
    if host.writes x.entries then
      return { x with
        files := Function.update x.files entry.File (some {
          info with Written := info.Written ++ b.Data, Size := info.Size + b.Data.length })
        entries := x.entries + 1 }
    else .error .write
  | _, _ => .ok x

/-- The loop of `main`, for `n` rounds at most. -/
def exportLoop (host : Host) (header : HeaderBlock) (f : Image) :
    ℕ → Cursor → Export → Option (Except Panic Export)
  | 0, _, _ => none
  | n + 1, c, x =>
    if c.Block < header.Block then
      if c.Block = 0 then exportLoop host header f n ⟨c.Block + 1, c.Offset⟩ x
      else
        match ReadBlock header c f with
        | .error p => some (.error p)
        | .ok b =>
          match exportBlock host { x with visits := x.visits ++ [c] } b with
          | .error p => some (.error p)
          | .ok x => exportLoop host header f n b.Next x
    else some (.ok x)

/-- `main` once the header is read, for `n` rounds at most. -/
def exportFrom (host : Host) (header : HeaderBlock) (f : Image) (n : ℕ) :
    Option (Except Panic Export) :=
  exportLoop host header f n ⟨1, 0⟩ ⟨fun _ => none, 0, []⟩

/-- `main`, for `n` rounds at most. -/
def main (host : Host) (f : Image) (n : ℕ) : Option (Except Panic Export) :=
  match ReadHeader f with
  | .error p => some (.error p)
  | .ok header => exportFrom host header f n

end Fkfs.Exporter
