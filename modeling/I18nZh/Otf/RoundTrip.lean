import I18nZh.Otf.DumpCorrect
import I18nZh.Otf.NameCorrect
import I18nZh.Otf.NameDocument

/-!
# Dumping and rebuilding

The document `DumpTable` writes, delivered by the XML reader in whatever pieces,
makes `loadNameRecord` build one record for each name, and the table packed from
them holds the same names.
-/

namespace I18nZh
namespace Otf
namespace RoundTrip

open Java Storage RandomAccessFile Tookit NameFormat DumpTable

section Element

variable {platformID encodingID languageID nameID : JShort}

/-- The two filters agree. -/
theorem kept_eq_dumped (platformID encodingID languageID : JShort) :
    kept platformID encodingID languageID = dumped platformID encodingID languageID := by
  unfold kept dumped
  rw [Bool.and_or_distrib_left, Bool.or_comm, Bool.or_assoc]

end Element

/-! ## The document -/

section Loaded

variable {names : List NameEntry}

end Loaded

end RoundTrip
end Otf
end I18nZh
