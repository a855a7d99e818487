import Mathlib.Logic.Function.Basic
import I18nZh.Xml2po.Escape
import I18nZh.Xml2po.Extract

/-!
# `MessageOutput`

The messages that are found, and the file that is written of them.  `normalize` stands
for `normalizeString` with the document that is being read; the date is a parameter.
-/

namespace I18nZh
namespace Xml2po

open Po (Text text strip)
open Replace

structure Reference where
  filename : Text
  tag : Option Text
  lineno : Nat
  deriving DecidableEq, Repr

/-- A key that is missing in `linenos` has the empty list. -/
structure MessageOutput where
  messages : List Text
  comments : Text → Option Text
  linenos : Text → List Reference
  nowrap : Text → Bool
  translations : List Text
  doTranslations : Bool
  outputMsgstr : Bool
  filename : Text

namespace MessageOutput

/-- `__init__` -/
def new (withTranslations : Bool) : MessageOutput :=
  { messages := [], comments := fun _ => none, linenos := fun _ => [], nowrap := fun _ => false
    translations := [], doTranslations := withTranslations, outputMsgstr := false
    filename := [] }

def translationsFollow (self : MessageOutput) : MessageOutput := { self with outputMsgstr := true }

def setFilename (self : MessageOutput) (filename : Text) : MessageOutput :=
  { self with filename := filename }

/-- The reference is added to those of the message. -/
def addReference (self : MessageOutput) (t : Text) (call : Call) : Text → List Reference :=
  Function.update self.linenos t
    (self.linenos t ++ [⟨self.filename, call.tag, call.lineno⟩])

/-- A comment that is not empty is kept if there is none. -/
def addComment (self : MessageOutput) (t : Text) (call : Call) : Text → Option Text :=
  match call.comment with
  | none => self.comments
  | some comment =>
    if comment ≠ [] ∧ self.comments t = none then Function.update self.comments t (some comment)
    else self.comments

def outputMessage (normalize : Text → Bool → Text) (self : MessageOutput) (call : Call) :
    MessageOutput :=
  if strip call.text ≠ [] then
    let t := escapePoString (normalize call.text (!call.spacepreserve))
    if self.outputMsgstr then { self with translations := self.translations ++ [t] }
    else if self.doTranslations || !self.messages.contains t then
      { self with
        messages := self.messages ++ [t]
        nowrap := if call.spacepreserve then Function.update self.nowrap t true else self.nowrap
        linenos := self.addReference t call
        comments := if self.doTranslations then self.comments else self.addComment t call }
    else
      { self with
        linenos := self.addReference t call
        comments := self.addComment t call }
  else self

/-! ## The file -/

def outputHeader (date : Text) : Text :=
  text "msgid \"\"\n" ++ text "msgstr \"\"\n" ++
  text "\"Project-Id-Version: PACKAGE VERSION\\n\"\n" ++
  (text "\"POT-Creation-Date: " ++ date ++ text "\\n\"\n") ++
  text "\"PO-Revision-Date: YEAR-MO-DA HO:MI+ZONE\\n\"\n" ++
  text "\"Last-Translator: FULL NAME <EMAIL@ADDRESS>\\n\"\n" ++
  text "\"Language-Team: LANGUAGE <LL@li.org>\\n\"\n" ++
  text "\"MIME-Version: 1.0\\n\"\n" ++
  text "\"Content-Type: text/plain; charset=UTF-8\\n\"\n" ++
  text "\"Content-Transfer-Encoding: 8bit\\n\"\n" ++ text "\n"

/-- `str` of a tag -/
def tagName (tag : Option Text) : Text := tag.getD (text "None")

/-- `tags` and `tagstr` behind the loop over the references. -/
def tagLoop (linenos : List Reference) : List (Option Text) × Text :=
  linenos.foldl (fun (tags, tagstr) reference =>
    if reference.tag ∈ tags then (tags, tagstr)
    else (tags ++ [reference.tag], tagstr ++ (text "(" ++ tagName reference.tag ++ text "), ")))
    ([], [])

def references (linenos : List Reference) : Text :=
  linenos.foldl (fun references reference => references ++
    (reference.filename ++ text ":" ++ Nat.toDigits 10 reference.lineno ++ text " ")) []

def outputComment : Option Text → Text
  | none => []
  | some comment => text "#. " ++ replace (text "\n") (text "\n#. ") comment ++ text "\n"

/-- What is written for the message `k`. -/
def outputEntry (self : MessageOutput) (k translation : Text) : Text :=
  outputComment (self.comments k) ++
  (text "#." ++ (tagLoop (self.linenos k)).2.take ((tagLoop (self.linenos k)).2.length - 2) ++
    text "\n") ++
  (text "#: " ++ (references (self.linenos k)).take ((references (self.linenos k)).length - 1) ++
    text "\n") ++
  (if self.nowrap k then text "#, no-wrap\n" else []) ++
  (text "msgid \"" ++ k ++ text "\"\n") ++
  (text "msgstr \"" ++ (if translation = k then [] else translation) ++ text "\"\n\n")

/-- The loop over the messages; each takes the next translation. -/
def outputEntries (self : MessageOutput) : List Text → List Text → Text
  | [], _ => []
  | k :: messages, translations =>
    if self.doTranslations then
      self.outputEntry k (translations.head?.getD []) ++
        outputEntries self messages translations.tail
    else self.outputEntry k [] ++ outputEntries self messages translations

def outputAll (self : MessageOutput) (date : Text) : Text :=
  outputHeader date ++ self.outputEntries self.messages self.translations

end MessageOutput

end Xml2po
end I18nZh
