import I18nZh.Lib.BigEndian
import I18nZh.Lib.Lines
import I18nZh.Lib.Layout
import I18nZh.Lib.Occurrence
import I18nZh.Lib.Replace
import I18nZh.Lib.Storage
import I18nZh.Lib.WeightedSum
import I18nZh.Lib.Writes
import I18nZh.Java.Basic
import I18nZh.Java.Charset
import I18nZh.Java.File
import I18nZh.Java.Xml
import I18nZh.Otf.Pojo
import I18nZh.Otf.Codec
import I18nZh.Otf.CodecCorrect
import I18nZh.Otf.Directory
import I18nZh.Otf.Ranges
import I18nZh.Otf.Chunks
import I18nZh.Otf.NameTable
import I18nZh.Otf.NameText
import I18nZh.Otf.NameFormat
import I18nZh.Otf.NamePool
import I18nZh.Otf.SearchCorrect
import I18nZh.Otf.NamePack
import I18nZh.Otf.NameLoad
import I18nZh.Otf.NameCorrect
import I18nZh.Otf.NameDocument
import I18nZh.Otf.PoolCorrect
import I18nZh.Otf.DumpTable
import I18nZh.Otf.DumpCorrect
import I18nZh.Otf.RoundTrip
import I18nZh.Otf.FixName
import I18nZh.Otf.FixRun
import I18nZh.Otf.FixOutput
import I18nZh.Otf.FixPlaces
import I18nZh.Otf.Font
import I18nZh.Otf.FixFont
import I18nZh.Otf.FixLayout
import I18nZh.Otf.FixCopied
import I18nZh.Otf.FixCorrect
import I18nZh.Otf.FixPrior
import I18nZh.Otf.Pipeline
import I18nZh.Otf.CheckSum
import I18nZh.Otf.CheckCorrect
import I18nZh.Po.Merge
import I18nZh.Po.Blocks
import I18nZh.Po.OutFile
import I18nZh.Po.ReadBack
import I18nZh.Po.BlankLines
import I18nZh.Po.Failing
import I18nZh.Po.Lossless
import I18nZh.Po.Canonical
import I18nZh.Po.Touched
import I18nZh.Po.Sequence
import I18nZh.Po.Translated
import I18nZh.Po.TranslatedEntry
import I18nZh.Po.TranslatedNames
import I18nZh.Xml2po.Escape
import I18nZh.Xml2po.Node
import I18nZh.Xml2po.Extract
import I18nZh.Xml2po.Pieces
import I18nZh.Xml2po.Placeholder
import I18nZh.Xml2po.Messages
import I18nZh.Xml2po.Coverage
import I18nZh.Xml2po.Complete
import I18nZh.Xml2po.MessageOutput
import I18nZh.Xml2po.Pot
import I18nZh.Xml2po.Catalogue
import I18nZh.Xml2po.Docbook
import I18nZh.Xml2po.Run
import I18nZh.Xml2po.RunCorrect
import I18nZh.Xml2po.RunComplete
import I18nZh.Xml2po.Reuse
import I18nZh.Xml2po.Translate
import I18nZh.Xml2po.Stable
import I18nZh.Xml2po.Translated
import I18nZh.Xml2po.MergeCorrect
import I18nZh.Xml2po.Untranslated
import I18nZh.Xml2po.PotMerge
import I18nZh.Xml2po.Credits
import I18nZh.Xml2po.CreditsCorrect
import I18nZh.Xml2po.MergeRun
import I18nZh.Xml2po.PotAgain
