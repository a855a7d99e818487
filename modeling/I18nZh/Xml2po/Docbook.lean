import I18nZh.Xml2po.Extract

/-!
# The mode `docbook`

The tags of the mode, and the messages for the images of a document.
-/

namespace I18nZh
namespace Xml2po
namespace DocbookXmlMode

open Po (Text text)

def lists : List Text :=
  [text "itemizedlist", text "orderedlist", text "variablelist", text "segmentedlist",
    text "simplelist", text "calloutlist", text "varlistentry"]

def objects : List Text :=
  [text "figure", text "textobject", text "imageobject", text "mediaobject", text "screenshot"]

def getIgnoredTags : List Text := objects ++ lists

def getFinalTags : List Text :=
  [text "para", text "formalpara", text "simpara", text "releaseinfo", text "revnumber",
    text "title", text "date", text "term", text "programlisting"] ++ objects ++ lists

def getSpacePreserveTags : List Text :=
  [text "classsynopsisinfo", text "computeroutput", text "funcsynopsisinfo",
    text "literallayout", text "programlisting", text "screen", text "synopsis",
    text "userinput"]

def getStringForTranslators : Text := text "translator-credits"

def getCommentForTranslators : Text :=
  text "Put one translator per line, in the form of NAME <EMAIL>, YEAR1, YEAR2."

/-! ## Images -/

/-- `os.path.dirname` -/
def dirname (p : Text) : Text :=
  let head := p.rdropWhile (· ≠ '/')
  if head.all (· = '/') then head else head.rdropWhile (· = '/')

/-- `os.path.join` -/
def join (a b : Text) : Text :=
  if b.head? = some '/' then b
  else if a = [] ∨ a.getLast? = some '/' then a ++ b
  else a ++ text "/" ++ b

/-- `node.prop("fileref")`, and the hash of a file that exists. -/
structure Images where
  fileref : Node → Option Text
  md5ForFile : Text → Option Text

variable (images : Images) (filename : Text)

def imageComment : Text :=
  text "When image changes, this message will be marked fuzzy or untranslated for you.\n" ++
    text "It doesn't matter what you translate it to: it's not used at all."

/-- The message for an `imagedata` element. -/
def imageMessage (node : Node) (attr : Text) : Call :=
  let hash := (images.md5ForFile (join (dirname filename) attr)).getD
    (text "THIS FILE DOESN'T EXIST")
  ⟨text "@@image: '" ++ attr ++ text "'; md5=" ++ hash, node.info.lineNo, some imageComment,
    false, none⟩

mutual

/-- `_output_images`: the calls of `outputMessage` in their order. -/
def outputImages (node : Node) : List Call :=
  match node with
  | .mk info children =>
    if info.type = .element && info.name = text "imagedata" then
      match images.fileref (.mk info children) with
      | none => []
      | some attr =>
        if attr = [] then [] else [imageMessage images filename (.mk info children) attr]
    else childImages children

def childImages (children : List Node) : List Call :=
  match children with
  | [] => []
  | child :: rest => outputImages child ++ childImages rest

end

/-- `preProcessXml`, with the root element of the document. -/
def preProcessXml (doc : Node) : Except Error (List Call) :=
  match doc.children.find? fun child => child.type = .element with
  | none => .error .treeError
  | some root => .ok (outputImages images filename root)

/-! ## The tags -/

/-- Every tag to be ignored is a final tag. -/
theorem ignored_final : ∀ tag ∈ getIgnoredTags, tag ∈ getFinalTags := by
  intro tag htag
  rw [getFinalTags, List.append_assoc]
  exact List.mem_append_right _ htag

/-- An image has no tag in its reference. -/
theorem tag_of_image : (∀ node, ∀ call ∈ outputImages images filename node, call.tag = none) ∧
    ∀ children, ∀ call ∈ childImages images filename children, call.tag = none := by
  apply Node.both
  case mk =>
    intro info children ih call hcall
    rw [outputImages] at hcall
    split_ifs at hcall
    · split at hcall
      · cases hcall
      · split_ifs at hcall
        · cases hcall
        · rw [List.mem_singleton.mp hcall]
          rfl
    · exact ih call hcall
  case nil =>
    intro call hcall
    cases hcall
  case cons =>
    intro child rest ihchild ihrest call hcall
    rw [childImages] at hcall
    rcases List.mem_append.mp hcall with hcall | hcall
    · exact ihchild call hcall
    · exact ihrest call hcall

theorem preProcessXml_iff {doc : Node} : (∃ calls, preProcessXml images filename doc = .ok calls) ↔
    ∃ c ∈ doc.children, c.type = .element := by
  rw [preProcessXml]
  cases hroot : doc.children.find? fun child => child.type = .element with
  | none =>
    rw [List.find?_eq_none] at hroot
    constructor
    · rintro ⟨calls, hno⟩
      cases hno
    · rintro ⟨c, hc, htype⟩
      exact absurd (decide_eq_true htype) (hroot c hc)
  | some root =>
    have htype := List.find?_some hroot
    exact ⟨fun _ => ⟨root, List.mem_of_find?_eq_some hroot, of_decide_eq_true htype⟩,
      fun _ => ⟨_, rfl⟩⟩

end DocbookXmlMode
end Xml2po
end I18nZh
