import I18nZh.Xml2po.Catalogue
import I18nZh.Xml2po.Docbook

/-!
# A run

The main program in the mode `pot`: the files one after the other, and the file that is
written.
-/

namespace I18nZh
namespace Xml2po

open Po (Text text strip)
open DocbookXmlMode

/-- What a run asks for: the document in a file, parsed as the options say, with what is
called of `libxml2` for it; the images; and the date. -/
structure System where
  parseFile : Text → Option (Node × Libxml2)
  images : Images
  date : Text

/-- `docbook` says that the mode can be loaded; `origxml` is the argument of `-r`. -/
structure Arguments where
  docbook : Bool
  automatic : Bool
  keepEntities : Bool
  filenames : List Text
  origxml : Text

def readFinaltags (docbook : Bool) : List Text :=
  if docbook then getFinalTags
  else [text "para", text "title", text "releaseinfo", text "revnumber", text "date",
    text "itemizedlist", text "orderedlist", text "variablelist", text "varlistentry",
    text "term"]

def readIgnoredtags (docbook : Bool) : List Text :=
  if docbook then getIgnoredTags
  else [text "itemizedlist", text "orderedlist", text "variablelist", text "varlistentry"]

/-- Without a mode the tags are not looked at. -/
def Arguments.options (args : Arguments) : Options where
  automatic := args.automatic || !args.docbook
  expandEntities := !args.keepEntities
  ultimateTags := readFinaltags args.docbook
  ignoredTags := readIgnoredtags args.docbook
  spacePreserveTags := if args.docbook then getSpacePreserveTags else []

section Run

variable (sys : System) (args : Arguments)

/-- The calls of `outputMessage` for a file, and what is called of `libxml2`. -/
def readCalls (filename : Text) : Except Error (List Call × Libxml2) :=
  match sys.parseFile filename with
  | none => .error .cannotOpen
  | some (doc, lib) => do
    let images ← (
      if args.docbook && args.origxml = [] then preProcessXml sys.images filename doc
      else return [] : Except Error (List Call))
    let (_, calls) ← doSerialize args.options lib [] [] doc
    return (images ++ calls, lib)

/-- The messages of a file one after the other. -/
def outputMessages (lib : Libxml2) (msg : MessageOutput) (calls : List Call) : MessageOutput :=
  calls.foldl (MessageOutput.outputMessage (normalizeString args.options lib)) msg

/-- The body of the loop over the files; the last document stays in use. -/
def readFile : MessageOutput × Option Libxml2 → Text →
    Except Error (MessageOutput × Option Libxml2)
  | (msg, _), filename => do
    let msg := if filename = args.origxml then msg.translationsFollow else msg
    let (calls, lib) ← readCalls sys args filename
    return (outputMessages args lib (msg.setFilename filename) calls, some lib)

/-- The files in the order in which they are read. -/
def Arguments.files (args : Arguments) : List Text :=
  args.filenames.reverse ++ if args.origxml = [] then [] else [args.origxml]

def creditsCall : Call :=
  ⟨getStringForTranslators, 0, some getCommentForTranslators, false, none⟩

/-- The message for the translators; without a file there is no `filename`. -/
def outputCredits : MessageOutput × Option Libxml2 → Except Error MessageOutput
  | (msg, none) => if args.docbook then .error .attributeError else .ok msg
  | (msg, some lib) => .ok (if args.docbook then outputMessages args lib msg [creditsCall] else msg)

def main : Except Error Text := do
  let read ← args.files.foldlM (readFile sys args) (MessageOutput.new (args.origxml ≠ []), none)
  let msg ← outputCredits args read
  return msg.outputAll sys.date

end Run

end Xml2po
end I18nZh
