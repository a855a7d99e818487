import I18nZh.Otf.Chunks
import I18nZh.Otf.NameTable

/-!
# `FixName`

`FixName.run` on a source font, a name XML and an output file.  The directory
entries are objects: an entry is referred to by its place in the list the
directory loop builds, and both sorts and the loops move references.  The report
printed on the way is left out.
-/

namespace I18nZh
namespace Otf
namespace FixName

open Java Storage BigEndian RandomAccessFile Tookit

/-- `new TableDirectory()` -/
def newTableDirectory : TableDirectory := { tag := 0, checkSum := 0, offset := 0, length := 0 }

def derefTable (store : List TableDirectory) (ref : Nat) : TableDirectory :=
  store.getD ref newTableDirectory

def isName (td : TableDirectory) : Prop := toTag td.tag = jstr "name"

def isHead (td : TableDirectory) : Prop := toTag td.tag = jstr "head"

def isDSIG (td : TableDirectory) : Prop := toTag td.tag = jstr "DSIG"

instance (td : TableDirectory) : Decidable (isName td) := inferInstanceAs (Decidable (_ = _))

instance (td : TableDirectory) : Decidable (isHead td) := inferInstanceAs (Decidable (_ = _))

instance (td : TableDirectory) : Decidable (isDSIG td) := inferInstanceAs (Decidable (_ = _))

def writeInt (f : RandomAccessFile) (v : JInt) : RandomAccessFile := f.write (intBytes v)

def writeShort (f : RandomAccessFile) (v : JShort) : RandomAccessFile := f.write (shortBytes v)

/-- The loop that loads the directory. -/
def readDirectory : Nat → RandomAccessFile → Bytes → List TableDirectory → Option Nat →
    JavaM (List TableDirectory × Option Nat × RandomAccessFile)
  | 0, src, _, tdl, head => return (tdl, head, src)
  | rest + 1, src, buf, tdl, head => do
    let (_, buf, src) ← src.read buf 0 16
    let td ← getTableDirectory buf 0
    if isDSIG td then readDirectory rest src buf tdl head
    else
      readDirectory rest src buf (tdl ++ [td]) (if isHead td then some tdl.length else head)

/-- The file header checked and the directory loaded. -/
def loadDirectory (src : RandomAccessFile) :
    JavaM (OffsetTable × List TableDirectory × Option Nat × RandomAccessFile) := do
  let buf := List.replicate 65536 0
  let (_, buf, src) ← src.read buf 0 12
  let ot ← getOffsetTable buf 0
  if ot.sfnt ≠ 0x00010000#32 ∧ ot.sfnt ≠ 0x4F54544F#32 then throw (.exit 1)
  else do
    let (tdl, head, src) ← readDirectory ot.numTables.toInt.toNat src buf [] none
    return (ot, tdl, head, src)

def writeHeader (dst : RandomAccessFile) (ot : OffsetTable) : RandomAccessFile :=
  let dst := writeInt dst ot.sfnt
  let dst := writeShort dst ot.numTables
  let dst := writeShort dst ot.searchRange
  let dst := writeShort dst ot.entrySelector
  writeShort dst ot.rangeShift

def compareOffset (store : List TableDirectory) (r1 r2 : Nat) : Int :=
  let o1 := derefTable store r1
  let o2 := derefTable store r2
  if o2.offset.toInt < o1.offset.toInt then 1
  else if o1.offset.toInt < o2.offset.toInt then -1
  else 0

def compareTag (store : List TableDirectory) (r1 r2 : Nat) : Int :=
  let o1 := derefTable store r1
  let o2 := derefTable store r2
  if o2.tag.toInt < o1.tag.toInt then 1
  else if o1.tag.toInt < o2.tag.toInt then -1
  else 0

structure CopyState where
  src : RandomAccessFile
  dst : RandomAccessFile
  store : List TableDirectory
  size : JInt

/-- The content of a table goes to `size`: the name table is built, any other is
copied.  Returns the length the entry has from then on. -/
def copyContent (xmlfile : XmlFile) (src dst : RandomAccessFile) (td : TableDirectory)
    (size : JInt) : JavaM (RandomAccessFile × RandomAccessFile × JInt) :=
  if isName td then do
    let nameTable ← loadNameTable xmlfile
    let dst ← dst.seek size
    return (src, dst.write nameTable, BitVec.ofNat 32 nameTable.length)
  else do
    let (src, dst) ← copyTo src td.offset dst size td.length
    return (src, dst, td.length)

/-- The `checkSumAdjustment` of the table `head` is set to 0. -/
def clearAdjustment (dst : RandomAccessFile) (td : TableDirectory) (size : JInt) :
    JavaM RandomAccessFile :=
  if isHead td then do
    let dst ← dst.seek (size + 8)
    return writeInt dst 0
  else return dst

/-- `while(size % 4 != 0) { dst.write(0); size++; }` -/
def padLoop : Nat → RandomAccessFile → JInt → JavaM (RandomAccessFile × JInt)
  | 0, _, _ => throw .outOfFuel
  | fuel + 1, dst, size =>
    if size.toInt.tmod 4 ≠ 0 then padLoop fuel (dst.write [0]) (size + 1) else return (dst, size)

/-- Up to the next multiple of 4. -/
def pad (dst : RandomAccessFile) (size : JInt) : JavaM (RandomAccessFile × JInt) :=
  if size.toInt.tmod 4 ≠ 0 then do
    let dst ← dst.seek size
    padLoop 4 dst size
  else return (dst, size)

/-- One table is copied, patched, summed and padded, and its entry updated. -/
def copyTable (xmlfile : XmlFile) (r : Nat) (st : CopyState) : JavaM CopyState := do
  let td := derefTable st.store r
  let (src, dst, length) ← copyContent xmlfile st.src st.dst td st.size
  let dst ← clearAdjustment dst td st.size
  let (checkSum, dst) ← calcTableChecksumFile dst st.size length
  let store := st.store.set r { td with checkSum, offset := st.size, length }
  let (dst, size) ← pad dst (st.size + length)
  return { src, dst, store, size }

/-- The loop over the tables. -/
def copyTables (xmlfile : XmlFile) : List Nat → CopyState → JavaM CopyState
  | [], st => return st
  | r :: rest, st => do
    let st ← copyTable xmlfile r st
    copyTables xmlfile rest st

/-- The loop that writes the directory. -/
def writeDirectory (store : List TableDirectory) : List Nat → RandomAccessFile → RandomAccessFile
  | [], dst => dst
  | r :: rest, dst =>
    let td := derefTable store r
    let dst := writeInt dst td.tag
    let dst := writeInt dst td.checkSum
    let dst := writeInt dst td.offset
    let dst := writeInt dst td.length
    writeDirectory store rest dst

/-- The adjustment that makes the whole file sum up to the constant. -/
def adjust (dst : RandomAccessFile) (store : List TableDirectory) (head : Option Nat)
    (size : JInt) : JavaM RandomAccessFile := do
  let (checkSum, dst) ← calcTableChecksumFile dst 0 size
  let sum := 0xB1B0AFBA#32 - checkSum
  match head with
  | none => throw .nullPointer
  | some h => do
    let dst ← dst.seek ((derefTable store h).offset + 8)
    return writeInt dst sum

/-- The output file when `run` returns. -/
def run (src : RandomAccessFile) (xmlfile : XmlFile) (dst : RandomAccessFile) :
    JavaM RandomAccessFile := do
  let (ot, tdl, head, src) ← loadDirectory src
  let ot ← updateOffsetTable ot (BitVec.ofNat 32 tdl.length)
  let dst ← dst.seek 0
  let dst := writeHeader dst ot
  let tds := arraysSort (compareOffset tdl) (List.range tdl.length)
  let size := BitVec.ofNat 32 (12 + 16 * tds.length)
  let st ← copyTables xmlfile tds { src, dst, store := tdl, size }
  let tds := arraysSort (compareTag st.store) tds
  let dst ← st.dst.seek 12
  let dst := writeDirectory st.store tds dst
  adjust dst st.store head st.size

end FixName
end Otf
end I18nZh
