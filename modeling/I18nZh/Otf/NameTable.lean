import I18nZh.Java.Charset
import I18nZh.Java.Xml
import I18nZh.Otf.Codec

/-!
# The name table

`loadNameRecord`, `loadNameTable` and `indexOf` of `Tookit`.  A `NameRecord`
object is referred to by its position in the order of creation, so that a list
which holds one object twice, or an object changed after it was added, behaves
as in the source.
-/

namespace I18nZh
namespace Otf

open Java

structure NameRecord where
  platformID : JShort
  encodingID : JShort
  languageID : JShort
  nameID : JShort
  /-- String length (in bytes) -/
  length : JShort
  /-- String offset from start of storage area (in bytes) -/
  offset : JShort
  /-- UTF-16BE -/
  bytes : Option Bytes
  value : Option JString
  deriving DecidableEq, Repr

/-- `new NameRecord()` -/
def newNameRecord : NameRecord :=
  { platformID := 0, encodingID := 0, languageID := 0, nameID := 0, length := 0, offset := 0,
    bytes := none, value := none }

/-- The objects made so far, in the order of creation. -/
abbrev Heap := List NameRecord

def deref (heap : Heap) (ref : Nat) : NameRecord := heap.getD ref newNameRecord

namespace Tookit

/-! ## The loader -/

structure LoadState where
  heap : Heap
  nrs : List Nat
  value : JString
  deriving DecidableEq, Repr

namespace LoadState

/-- The variable `nr`: always the newest object, or null before the first. -/
def nr (st : LoadState) : Option NameRecord := st.heap.getLast?

/-- An assignment to fields of `nr`. -/
def setNr (st : LoadState) (nr : NameRecord) : LoadState :=
  { st with heap := st.heap.dropLast ++ [nr] }

end LoadState

/-- The records the tools keep. -/
def kept (platformID encodingID languageID : JShort) : Bool :=
  (platformID == 3 && encodingID == 1 && (languageID == 1033 || languageID == 2052)) ||
    (platformID == 1 && encodingID == 0 && languageID == 0)

/-- `value.getBytes(..)`, the charset going by the platform. -/
def encodeValue (platformID : JShort) (value : JString) : Bytes :=
  if platformID = 3 then getBytesUtf16 value else getBytesLatin1 value

/-- A `string` element begins. -/
def startString (name : JString) (attributes : List (JString × JString)) (st : LoadState) :
    JavaM LoadState :=
  if name = jstr "string" then do
    let platformID ← parseShort (attributes.lookup (jstr "platformID"))
    let encodingID ← parseShort (attributes.lookup (jstr "encodingID"))
    let languageID ← parseShort (attributes.lookup (jstr "languageID"))
    let nameID ← parseShort (attributes.lookup (jstr "nameID"))
    return { st with heap := st.heap ++
      [{ newNameRecord with platformID, encodingID, languageID, nameID }] }
  else return st

/-- A `value` element begins. -/
def startValue (name : JString) (st : LoadState) : LoadState :=
  if name = jstr "value" then { st with value := [] } else st

/-- A `string` element ends. -/
def endString (name : JString) (st : LoadState) : JavaM LoadState :=
  if name = jstr "string" then
    match st.nr with
    | none => throw .nullPointer
    | some nr =>
      if kept nr.platformID nr.encodingID nr.languageID then
        return { st with nrs := st.nrs ++ [st.heap.length - 1] }
      else return st
  else return st

/-- A `value` element ends. -/
def endValue (name : JString) (st : LoadState) : JavaM LoadState :=
  if name = jstr "value" then
    match st.nr with
    | none => throw .nullPointer
    | some nr =>
      let bytes := encodeValue nr.platformID st.value
      return st.setNr { nr with bytes := some bytes, value := some st.value,
                                length := BitVec.ofNat 16 bytes.length }
  else return st

/-- The event loop. -/
def loadEvents : XmlFile → LoadState → JavaM LoadState
  | [], _ => throw .xmlStream
  | .endDocument :: _, st => return st
  | .startElement name attributes :: rest, st => do
    let st ← startString name attributes st
    loadEvents rest (startValue name st)
  | .endElement name :: rest, st => do
    let st ← endString name st
    let st ← endValue name st
    loadEvents rest st
  | .characters text :: rest, st => loadEvents rest { st with value := st.value ++ text }
  | .other :: rest, st => loadEvents rest st

/-- The objects made, and the list of references returned. -/
def loadNameRecord (xmlfile : XmlFile) : JavaM (Heap × List Nat) := do
  let st ← loadEvents xmlfile { heap := [], nrs := [], value := [] }
  return (st.heap, st.nrs)

/-! ## Searching the string pool -/

/-- `while(i < sb.length) { if(sb[i] != buf[offset + i]) break; i++; }`, over the
rest of `sb` from `i` on. -/
def matchLoop (buf : Bytes) (offset : JInt) : Bytes → Nat → JavaM Nat
  | [], i => return i
  | b :: rest, i => do
    let c ← arrayGet buf (offset + BitVec.ofNat 32 i)
    if b ≠ c then return i else matchLoop buf offset rest (i + 1)

def searchLoop (buf sb : Bytes) : Nat → JInt → JInt → JavaM JInt
  | 0, _, _ => throw .outOfFuel
  | fuel + 1, offset, size =>
    if (sb.length : Int) ≤ size.toInt then do
      let i ← matchLoop buf offset sb 0
      if sb.length ≤ i then return offset
      else searchLoop buf sb fuel (offset + 1) (size - 1)
    else return -1

def indexOf (buf : Bytes) (offset size : JInt) (sb : Bytes) : JavaM JInt :=
  if size.toInt < (sb.length : Int) then return -1
  else searchLoop buf sb (size.toNat + 2) offset size

/-! ## The table -/

/-- Longest first. -/
def compareLength (heap : Heap) (r1 r2 : Nat) : Int :=
  let o1 := deref heap r1
  let o2 := deref heap r2
  if o1.length.toInt < o2.length.toInt then 1
  else if o2.length.toInt < o1.length.toInt then -1
  else 0

def compareKey (heap : Heap) (r1 r2 : Nat) : Int :=
  let o1 := deref heap r1
  let o2 := deref heap r2
  if o1.platformID.toInt < o2.platformID.toInt then -1
  else if o2.platformID.toInt < o1.platformID.toInt then 1
  else if o1.encodingID.toInt < o2.encodingID.toInt then -1
  else if o2.encodingID.toInt < o1.encodingID.toInt then 1
  else if o1.languageID.toInt < o2.languageID.toInt then -1
  else if o2.languageID.toInt < o1.languageID.toInt then 1
  else if o1.nameID.toInt < o2.nameID.toInt then -1
  else if o2.nameID.toInt < o1.nameID.toInt then 1
  else 0

/-- The loop that fills the string storage area. -/
def placeLoop (stringOffset : JShort) : List Nat → Heap → Bytes → JInt →
    JavaM (Heap × Bytes × JInt)
  | [], heap, buf, size => return (heap, buf, size)
  | r :: rest, heap, buf, size =>
    let nr := deref heap r
    match nr.bytes with
    | none => throw .nullPointer
    | some bytes => do
      let index ← indexOf buf (stringOffset.signExtend 32) size bytes
      if index.toInt < 0 then do
        let buf ← arraycopy bytes 0 buf (stringOffset.signExtend 32 + size)
          (nr.length.signExtend 32)
        placeLoop stringOffset rest (heap.set r { nr with offset := size.setWidth 16 }) buf
          (size + nr.length.signExtend 32)
      else
        placeLoop stringOffset rest
          (heap.set r { nr with offset := (index - stringOffset.signExtend 32).setWidth 16 })
          buf size

/-- The loop that writes the records, from the `i`-th on. -/
def writeRecords (heap : Heap) : List Nat → Nat → Bytes → JavaM Bytes
  | [], _, buf => return buf
  | r :: rest, i, buf => do
    let nr := deref heap r
    let buf ← toBytesShort nr.platformID buf (BitVec.ofNat 32 (6 + i * 12))
    let buf ← toBytesShort nr.encodingID buf (BitVec.ofNat 32 (6 + i * 12 + 2))
    let buf ← toBytesShort nr.languageID buf (BitVec.ofNat 32 (6 + i * 12 + 4))
    let buf ← toBytesShort nr.nameID buf (BitVec.ofNat 32 (6 + i * 12 + 6))
    let buf ← toBytesShort nr.length buf (BitVec.ofNat 32 (6 + i * 12 + 8))
    let buf ← toBytesShort nr.offset buf (BitVec.ofNat 32 (6 + i * 12 + 10))
    writeRecords heap rest (i + 1) buf

/-- `loadNameTable` once the records are loaded. -/
def packNameTable (heap : Heap) (nrs : List Nat) : JavaM Bytes := do
  let buf := List.replicate 65536 0
  let nh : NameHeader :=
    { format := 0, count := BitVec.ofNat 16 nrs.length,
      stringOffset := BitVec.ofNat 16 (6 + 12 * nrs.length) }
  let nra := arraysSort (compareLength heap) nrs
  let (heap, buf, size) ← placeLoop nh.stringOffset nra heap buf 0
  let buf ← toBytesShort nh.format buf 0
  let buf ← toBytesShort nh.count buf 2
  let buf ← toBytesShort nh.stringOffset buf 4
  let nra := arraysSort (compareKey heap) nra
  let buf ← writeRecords heap nra 0 buf
  let size := size + nh.stringOffset.signExtend 32
  let name ← newArray 0 size
  arraycopy buf 0 name 0 size

def loadNameTable (xmlfile : XmlFile) : JavaM Bytes := do
  let (heap, nrs) ← loadNameRecord xmlfile
  packNameTable heap nrs

end Tookit
end Otf
end I18nZh
