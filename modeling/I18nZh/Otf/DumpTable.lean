import I18nZh.Java.Charset
import I18nZh.Java.Xml
import I18nZh.Otf.Directory
import I18nZh.Otf.NameFormat

/-!
# `DumpTable`

The calls `DumpTable.run` makes to the XML writer.  The report it prints on the
way is left out.
-/

namespace I18nZh
namespace Otf
namespace DumpTable

open Java Storage BigEndian RandomAccessFile Tookit

/-- The loop that loads the directory, `i` being the next index and `name` the
last index of a `name` entry. -/
def readDirectory : Nat → Nat → RandomAccessFile → Bytes → List TableDirectory → Nat →
    JavaM (List TableDirectory × Nat × RandomAccessFile × Bytes)
  | 0, _, file, buf, tds, name => return (tds, name, file, buf)
  | rest + 1, i, file, buf, tds, name => do
    let (_, buf, file) ← file.read buf 0 16
    let td ← getTableDirectory buf 0
    let name := if toTag td.tag = jstr "name" then i else name
    readDirectory rest (i + 1) file buf (tds ++ [td]) name

/-- `new String(buf, offset, length, charset)`, the charset given by its decoder. -/
def newString (decode : Bytes → JString) (buf : Bytes) (offset length : JInt) : JavaM JString :=
  if length.toInt < 0 ∨ offset.toInt < 0 ∨ (buf.length : Int) - length.toInt < offset.toInt then
    throw .stringIndexOutOfBounds
  else return decode (slice buf offset.toNat length.toNat)

/-- What the tool writes as the description of a name. -/
def description (nameID : JShort) : JString :=
  match nameID.toInt with
  | 0 => jstr "Copyright notice."
  | 1 => jstr "Font Family name."
  | 2 => jstr "Font Subfamily name."
  | 3 => jstr "Unique font identifier"
  | 4 => jstr "Full font name(No Regular)."
  | 5 => jstr "Version string."
  | 6 => jstr "Postscript name for the font."
  | 7 => jstr "Trademark."
  | 8 => jstr "Manufacturer Name."
  | 9 => jstr "Designer."
  | 10 => jstr "Description."
  | 11 => jstr "URL Vendor."
  | 12 => jstr "URL Designer."
  | 13 => jstr "License Description."
  | 14 => jstr "License Info URL."
  | 15 => jstr "Reserved; Set to zero."
  | 16 => jstr "Preferred Family."
  | 17 => jstr "Preferred Subfamily."
  | 18 => jstr "Compatible Full (Macintosh only)."
  | 19 => jstr "Sample text."
  | 20 => jstr "PostScript CID findfont name."
  | 21 => jstr "WWS Family Name."
  | 22 => jstr "WWS Subfamily Name."
  | _ => jstr "unknown name id."

/-- The records that are written. -/
def dumped (platformID encodingID languageID : JShort) : Bool :=
  (platformID == 1 && encodingID == 0 && languageID == 0) ||
    (platformID == 3 && encodingID == 1 && languageID == 1033) ||
    (platformID == 3 && encodingID == 1 && languageID == 2052)

/-- The `string` element of one record. -/
def stringElement (platformID encodingID languageID nameID : JShort) (value : JString) :
    List XmlWrite :=
  [.startElement (jstr "string"),
    .attribute (jstr "platformID") (integerToString platformID.toInt),
    .attribute (jstr "encodingID") (integerToString encodingID.toInt),
    .attribute (jstr "languageID") (integerToString languageID.toInt),
    .attribute (jstr "nameID") (integerToString nameID.toInt),
    .startElement (jstr "description"), .characters (description nameID), .endElement,
    .startElement (jstr "value"), .characters value, .endElement, .endElement]

/-- What the loop writes for one record. -/
def recordElement (buf : Bytes) (nh : NameHeader) (nr : RawNameRecord) :
    JavaM (List XmlWrite) :=
  if dumped nr.platformID nr.encodingID nr.languageID then do
    let value ← newString (if nr.platformID = 1 then newStringLatin1 else newStringUtf16) buf
      (nh.stringOffset.signExtend 32 + nr.offset.signExtend 32) (nr.length.signExtend 32)
    return stringElement nr.platformID nr.encodingID nr.languageID nr.nameID value
  else return []

/-- The loop over the records, `i` being the next one. -/
def writeRecords (buf : Bytes) (nh : NameHeader) : Nat → Nat → JavaM (List XmlWrite)
  | 0, _ => return []
  | rest + 1, i => do
    let nr ← getNameRecord buf (BitVec.ofNat 32 (6 + i * 12))
    let element ← recordElement buf nh nr
    let elements ← writeRecords buf nh rest (i + 1)
    return element ++ elements

/-- The calls for a buffer that holds the name table. -/
def dumpName (buf : Bytes) : JavaM (List XmlWrite) := do
  let nh ← getNameHeader buf 0
  if nh.count.toInt < 0 then throw .negativeArraySize
  else do
    let elements ← writeRecords buf nh nh.count.toNat 0
    return [.startDocument, .startElement (jstr "name")] ++ elements ++
      [.endElement, .endDocument]

def run (file : RandomAccessFile) : JavaM (List XmlWrite) := do
  let buf := List.replicate 65536 0
  let (_, buf, file) ← file.read buf 0 12
  let ot ← getOffsetTable buf 0
  if ot.sfnt ≠ 0x00010000#32 ∧ ot.sfnt ≠ 0x4F54544F#32 then throw (.exit 1)
  else if ot.numTables.toInt < 0 then throw .negativeArraySize
  else do
    let (tds, name, file, buf) ← readDirectory ot.numTables.toNat 0 file buf [] 0
    match tds[name]? with
    | none => throw .arrayIndexOutOfBounds
    | some td => do
      let file ← file.seek td.offset
      let (_, buf, _) ← file.read buf 0 td.length
      dumpName buf

end DumpTable
end Otf
end I18nZh
