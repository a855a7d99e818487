import Mathlib.Data.List.DropRight
import Mathlib.Logic.Function.Basic
import I18nZh.Lib.Lines

/-!
# `po-merge.py`

The script on a file system.  A file that is read is the list of its lines, each
with its line feed.  The line printed before a parse error in a msgstr, and the
percentage in the last line of the report, are left out.
-/

namespace I18nZh
namespace Po

open Lines

/-- A Python string. -/
abbrev Text := List Char

def text (s : String) : Text := s.toList

inductive PyError where
  | parseError
  | indexError
  | osError
  | zeroDivisionError
  | systemExit (message : Text)
  | outOfFuel
  deriving DecidableEq, Repr

abbrev PyM := Except PyError

theorem bind_eq_ok {α β : Type} {x : PyM α} {f : α → PyM β} {b : β} (h : (x >>= f) = .ok b) :
    ∃ a, x = .ok a ∧ f a = .ok b := by
  cases x with
  | error e => cases h
  | ok a => exact ⟨a, rfl, h⟩

theorem ok_bind {ε α β : Type} (a : α) (f : α → Except ε β) :
    ((.ok a : Except ε α) >>= f) = f a := rfl

/-- The white space `strip` takes away. -/
def isSpace (c : Char) : Bool := c ∈ [' ', '\t', '\n', '\r', '\x0b', '\x0c']

def strip (line : Text) : Text := (line.dropWhile isSpace).rdropWhile isSpace

/-- The lines of a file. -/
def fileLines (file : Text) : List Text := keepLines '\n' file

namespace Merge

/-- What `parse_translation` returns; msgid and msgstr are `None` together. -/
structure Block where
  comments : List Text
  message : Option (Text × Text)
  deriving DecidableEq, Repr

/-- `not comments and msgid is None` -/
def Block.isEnd (block : Block) : Prop := block.comments = [] ∧ block.message = none

instance (block : Block) : Decidable block.isEnd := inferInstanceAs (Decidable (_ ∧ _))

/-- The loop over the comments, with the line that ends it; at the end of the file
this is the empty string. -/
def parseComments : List Text → List Text → List Text × Text × List Text
  | [], comments => (comments, [], [])
  | line :: f, comments =>
    if strip line = [] then (comments, line, f)
    else if line.head? = some '#' then parseComments f (comments ++ [line.dropLast])
    else (comments, line, f)

/-- The loop over the lines of a msgid. -/
def parseMsgid : List Text → Text → PyM (Text × Text × List Text)
  | [], _ => throw .indexError
  | line :: f, msgid =>
    if line.head? ≠ some '"' then return (msgid, line, f)
    else parseMsgid f (msgid ++ text "\n" ++ line.dropLast)

/-- The loop over the lines of a msgstr. -/
def parseMsgstr : List Text → Text → Text × Text × List Text
  | [], msgstr => (msgstr, [], [])
  | line :: f, msgstr =>
    if line.head? ≠ some '"' then (msgstr, line, f)
    else parseMsgstr f (msgstr ++ text "\n" ++ line.dropLast)

/-- The line starts with the keyword and a quote and ends with a quote. -/
def opens (keyword : Text) (line : Text) : Prop :=
  line.take keyword.length = keyword ∧ line.dropLast.getLast? = some '"'

instance (keyword line : Text) : Decidable (opens keyword line) :=
  inferInstanceAs (Decidable (_ ∧ _))

/-- msgid and msgstr, from the line that ends the comments. -/
def parseMessage (comments : List Text) (line : Text) (f : List Text) :
    PyM (Block × List Text) :=
  if ¬ opens (text "msgid \"") line then throw .parseError
  else do
    let (msgid, line, f) ← parseMsgid f (line.dropLast.drop 6)
    if ¬ opens (text "msgstr \"") line then throw .parseError
    else
      let (msgstr, line, f) := parseMsgstr f (line.dropLast.drop 7)
      if strip line ≠ [] then throw .parseError
      else return (⟨comments, some (msgid, msgstr)⟩, f)

def parseTranslation (f : List Text) : PyM (Block × List Text) :=
  let (comments, line, f) := parseComments f []
  if strip line = [] then return (⟨comments, none⟩, f) else parseMessage comments line f

/-- The loop that parses one translation after the other, in both places. -/
def whileBlocks {σ : Type} (body : σ → Block → σ) : Nat → List Text → σ → σ × Option PyError
  | 0, _, st => (st, some .outOfFuel)
  | fuel + 1, f, st =>
    match parseTranslation f with
    | .error e => (st, some e)
    | .ok (block, f) =>
      if block.isEnd then (st, none) else whileBlocks body fuel f (body st block)

/-- The loop over a whole file. -/
def forBlocks {σ : Type} (body : σ → Block → σ) (file : Text) (st : σ) : σ × Option PyError :=
  whileBlocks body ((fileLines file).length + 1) (fileLines file) st

def isFlag (comment : Text) : Bool := 1 < comment.length ∧ comment[1]? = some ','

/-- Flag comments and other comments. -/
def splitComments (comments : List Text) : List Text × List Text := comments.partition isFlag

/-- The hash of the source: msgid to msgstr and flags. -/
abbrev Source := Text → Option (Text × List Text)

def addTranslation (source : Source) (block : Block) : Source :=
  match block.message with
  | none => source
  | some (msgid, msgstr) =>
    Function.update source msgid (some (msgstr, (splitComments block.comments).1))

/-- The string `""`. -/
def emptyString : Text := text "\"\""

def Source.get (source : Source) (msgid : Text) : Text × List Text :=
  (source msgid).getD (emptyString, [])

/-- Comments and msgstr as they are written, and the new count of updates. -/
def updateMessage (source : Source) (comments : List Text) (msgid msgstr : Text)
    (updateCount : Nat) : List Text × Text × Nat :=
  if msgid ≠ emptyString ∧ (source.get msgid).1 ≠ emptyString then
    let other := (splitComments comments).2
    let (newMsgstr, newFlags) := source.get msgid
    let newComments := other ++ newFlags
    if newMsgstr ≠ msgstr ∨ newComments ≠ comments then (newComments, newMsgstr, updateCount + 1)
    else (comments, msgstr, updateCount)
  else (comments, msgstr, updateCount)

/-- The block as the merge writes it. -/
def updateBlock (source : Source) (block : Block) : Block :=
  match block.message with
  | none => block
  | some (msgid, msgstr) =>
    let (comments, msgstr, _) := updateMessage source block.comments msgid msgstr 0
    ⟨comments, some (msgid, msgstr)⟩

def join (lines : List Text) : Text := List.intercalate (text "\n") lines

structure MergeState where
  outfile : Text
  first : Bool
  stringCount : Nat
  updateCount : Nat
  untranslated : Nat

def startState : MergeState :=
  { outfile := [], first := true, stringCount := 0, updateCount := 0, untranslated := 0 }

/-- The body of the main loop. -/
def mergeBlock (source : Source) (st : MergeState) (block : Block) : MergeState :=
  let outfile := if st.first then st.outfile else st.outfile ++ text "\n"
  match block.message with
  | none => { st with outfile := outfile ++ (join block.comments ++ text "\n"), first := false }
  | some (msgid, msgstr) =>
    let (comments, msgstr, updateCount) :=
      updateMessage source block.comments msgid msgstr st.updateCount
    { outfile := outfile ++ (join comments ++ text "\n") ++ (text "msgid " ++ msgid ++ text "\n") ++
        (text "msgstr " ++ msgstr ++ text "\n")
      first := false
      stringCount := st.stringCount + 1
      updateCount
      untranslated := if msgstr = emptyString then st.untranslated + 1 else st.untranslated }

/-- The numbers of the last line: `%d strings updated. %d of %d strings are still
untranslated`. -/
structure Report where
  updateCount : Nat
  untranslated : Nat
  stringCount : Nat
  deriving DecidableEq, Repr

abbrev FileSystem := Text → Option Text

def basename (path : Text) : Text := path.rtakeWhile (· ≠ '/')

def usage (argv0 : Text) : Text :=
  text "Usage: " ++ argv0 ++ text " <lang.po>\n\n" ++
  text "This script will replace the translations and flags in lang.po with\n" ++
  text "the translations and flags in the source po file read from standard\n" ++
  text "input.  Strings that are not found in the source file are left untouched.\n" ++
  text "A backup copy of lang.po is saved as lang.po.bak.\n\nExample:\n" ++
  text "    svn cat http://svn.collab.net/repos/svn/trunk/subversion/po/sv.po | \\\n" ++
  text "        " ++ argv0 ++ text " sv.po"

/-- The files afterwards, and what is reported unless an exception ends the run. -/
def main (argv : List Text) (stdin : Text) (fs : FileSystem) : FileSystem × PyM Report :=
  match argv with
  | [_, lang] =>
    match forBlocks addTranslation stdin fun _ => none with
    | (_, some e) => (fs, .error e)
    | (source, none) =>
      match fs lang with
      | none => (fs, .error .osError)
      | some infile =>
        let fs := Function.update (Function.update fs lang none) (lang ++ text ".bak") (some infile)
        let (st, e) := forBlocks (mergeBlock source) infile startState
        let fs := Function.update fs lang (some st.outfile)
        match e with
        | some e => (fs, .error e)
        | none =>
          if st.stringCount = 0 then (fs, .error .zeroDivisionError)
          else (fs, .ok ⟨st.updateCount, st.untranslated, st.stringCount⟩)
  | argv => (fs, .error (.systemExit (usage (basename (argv.headD [])))))

end Merge
end Po
end I18nZh
