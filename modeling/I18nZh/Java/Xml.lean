import I18nZh.Java.Basic

/-!
# XML streams

What `XMLStreamReader` delivers and what `XMLStreamWriter` is told to write.
`Delivers` relates the two for a writer and a reader that carry attribute values
and character data unchanged: the reader may cut a text into any number of
`CHARACTERS` events, empty ones included.
-/

namespace I18nZh
namespace Java

inductive XmlEvent where
  | startElement (name : JString) (attributes : List (JString × JString))
  | endElement (name : JString)
  | characters (text : JString)
  /-- Comments, white space between elements and whatever else the loader
  ignores. -/
  | other
  | endDocument
  deriving DecidableEq, Repr

/-- A document as the sequence of events `next()` delivers.  Where the sequence
breaks off before the end of the document, `next()` throws. -/
abbrev XmlFile := List XmlEvent

inductive XmlWrite where
  | startDocument
  | startElement (name : JString)
  | attribute (name value : JString)
  | characters (text : JString)
  | endElement
  | endDocument
  deriving DecidableEq, Repr

namespace Delivers

variable {stack : List JString} {ws : List XmlWrite} {es : XmlFile} {name : JString}

end Delivers

end Java
end I18nZh
