import I18nZh.Xml2po.Complete
import I18nZh.Xml2po.RunCorrect

/-!
# Runs that complete

When the main program comes to its end, in terms of the documents.
-/

namespace I18nZh
namespace Xml2po

open Po (Text text)
open DocbookXmlMode

section Run

variable {sys : System} {args : Arguments}

end Run

end Xml2po
end I18nZh
