import I18nZh.Java.Charset
import I18nZh.Otf.Chunks

/-!
# `CheckSum`

The lines `CheckSum.run` prints.  A line that is printed stays printed when an
exception follows.  The line `EOF` of the checksum loop is left out.
-/

namespace I18nZh
namespace Otf

open Java Storage RandomAccessFile Tookit

namespace Tookit

def toHexChar (index : JInt) : JChar :=
  (jstr "0123456789ABCDEF").getD (index &&& 0x0F).toNat 0

def toHex (value : JInt) : JString :=
  jstr "0x" ++ [toHexChar (value.sshiftRight 28), toHexChar (value.sshiftRight 24),
    toHexChar (value.sshiftRight 20), toHexChar (value.sshiftRight 16),
    toHexChar (value.sshiftRight 12), toHexChar (value.sshiftRight 8),
    toHexChar (value.sshiftRight 4), toHexChar value]

end Tookit

namespace CheckSum

inductive Line where
  | header (ot : OffsetTable)
  | table (td : TableDirectory)
  | fail (tag : JString)
  | done
  deriving DecidableEq, Repr

/-- The text of a line. -/
def Line.text : Line → JString
  | .header ot =>
    jstr "sfnt: " ++ toHex ot.sfnt ++ jstr " numTables: " ++ integerToString ot.numTables.toInt ++
      jstr " searchRange: " ++ integerToString ot.searchRange.toInt ++
      jstr " entrySelector: " ++ integerToString ot.entrySelector.toInt ++
      jstr " rangeShift: " ++ integerToString ot.rangeShift.toInt ++ jstr "\n"
  | .table td =>
    jstr "table " ++ toTag td.tag ++ jstr " checkSum: " ++ toHex td.checkSum ++
      jstr " length: " ++ integerToString td.length.toInt ++
      jstr "\toffset: " ++ integerToString td.offset.toInt
  | .fail tag => jstr "Check sum '" ++ tag ++ jstr "' fail!"
  | .done => jstr "\nDONE!"

/-- A method that prints and may throw. -/
abbrev PrintM := ExceptT JavaError (StateM (List Line))

def println (line : Line) : PrintM Unit := ExceptT.lift (modify fun out => out ++ [line])

/-- A step that prints nothing. -/
def perform {α : Type} (x : JavaM α) : PrintM α := ExceptT.mk (pure x)

/-- The lines a method prints, whether it returns or not. -/
def printed {α : Type} (x : PrintM α) : List Line := (x.run.run []).2

/-- The line about two sums that differ. -/
def compareSums (sum expected : JInt) (tag : JString) : PrintM Unit :=
  if sum ≠ expected then println (.fail tag) else return ()

/-- The loop over the directory, `hi` being the last index of a `head` entry. -/
def checkTables : Nat → Nat → RandomAccessFile → Bytes → List TableDirectory → Nat →
    PrintM (List TableDirectory × Nat × RandomAccessFile × Bytes)
  | 0, _, file, buf, tds, hi => return (tds, hi, file, buf)
  | rest + 1, i, file, buf, tds, hi => do
    let file ← perform (file.seek (BitVec.ofNat 32 (12 + 16 * i)))
    let (_, buf, file) ← perform (file.read buf 0 16)
    let td ← perform (getTableDirectory buf 0)
    if toTag td.tag = jstr "head" then checkTables rest (i + 1) file buf (tds ++ [td]) i
    else do
      println (.table td)
      let (sum, file) ← perform (calcTableChecksumFile file td.offset td.length)
      compareSums sum td.checkSum (toTag td.tag)
      checkTables rest (i + 1) file buf (tds ++ [td]) hi

/-- The check of the adjustment. -/
def checkHead (file : RandomAccessFile) (buf : Bytes) (tds : List TableDirectory) (hi : Nat) :
    PrintM Unit := do
  let (adj, file) ← perform (calcTableChecksumFile file 0 (BitVec.ofNat 32 file.length))
  match tds[hi]? with
  | none => perform (throw .arrayIndexOutOfBounds)
  | some td => do
    let file ← perform (file.seek td.offset)
    let (_, buf, _) ← perform (file.read buf 0 td.length)
    let fh ← perform (getFontHeader buf 0)
    let adj := adj - fh.checkSumAdjustment
    let adj := 0xB1B0AFBA#32 - adj
    compareSums adj fh.checkSumAdjustment (jstr "head")
    println .done

def run (file : RandomAccessFile) : PrintM Unit := do
  let buf := List.replicate 65536 0
  let (_, buf, file) ← perform (file.read buf 0 12)
  let ot ← perform (getOffsetTable buf 0)
  if ot.sfnt ≠ 0x00010000#32 ∧ ot.sfnt ≠ 0x4F54544F#32 then perform (throw (.exit 1))
  else do
    println (.header ot)
    if ot.numTables.toInt < 0 then perform (throw .negativeArraySize)
    else do
      let (tds, hi, file, buf) ← checkTables ot.numTables.toNat 0 file buf [] 0
      checkHead file buf tds hi

/-- All lines a run prints. -/
def output (file : RandomAccessFile) : List Line := printed (run file)

end CheckSum
end Otf
end I18nZh
