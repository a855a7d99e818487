import I18nZh.Java.Basic

namespace I18nZh
namespace Otf

open Java

structure OffsetTable where
  /-- 0x00010000 for version 1.0, 0x4F54544F for otf, 0x74746366 for ttc -/
  sfnt : JInt
  numTables : JShort
  searchRange : JShort
  entrySelector : JShort
  rangeShift : JShort
  deriving DecidableEq, Repr

structure TableDirectory where
  tag : JInt
  checkSum : JInt
  offset : JInt
  length : JInt
  deriving DecidableEq, Repr

structure FontHeader where
  tableRevision : JInt
  fontRevision : JInt
  checkSumAdjustment : JInt
  magicNumber : JInt
  flags : JShort
  unitsPerEm : JShort
  created : JLong
  modified : JLong
  xMin : JShort
  yMin : JShort
  xMax : JShort
  yMax : JShort
  macStyle : JShort
  lowestRecPPEM : JShort
  fontDirectionHint : JShort
  indexToLocFormat : JShort
  glyphDataFormat : JShort
  deriving DecidableEq, Repr

structure NameHeader where
  /-- Format selector (=0) -/
  format : JShort
  /-- Number of name records -/
  count : JShort
  /-- Offset to start of string storage (from start of table) -/
  stringOffset : JShort
  deriving DecidableEq, Repr

/-- The twelve bytes of a name record.  The objects `loadNameRecord` builds have
two more fields, see `NameRecord`. -/
structure RawNameRecord where
  platformID : JShort
  encodingID : JShort
  languageID : JShort
  nameID : JShort
  /-- String length (in bytes) -/
  length : JShort
  /-- String offset from start of storage area (in bytes) -/
  offset : JShort
  deriving DecidableEq, Repr

end Otf
end I18nZh
