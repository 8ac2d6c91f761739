import Mdencode.Cpp.ThreadProtocol
import Mdencode.Cpp.SetRange
import Mdencode.Cpp.KeySchedule
import Mdencode.Cpp.SipKeys
import Mdencode.Cpp.FileValidation
import Mdencode.Cpp.FileHash
import Mdencode.Cpp.ExponentRoundTrip
import Mdencode.Cpp.ExponentFormat
import Mdencode.Go.ScanCoverage
import Mdencode.Go.ThreadProtocol
import Mdencode.Go.UnzipTotal
import Mdencode.Go.BinaryRoundTrip
import Mdencode.Go.SqlStore
import Mdencode.Cpp.UnzipFormats
import Mdencode.Cpp.ExportBounds
import Mdencode.Cpp.HeaderSafety
import Mdencode.Cpp.UnzipFiles
import Mdencode.Cpp.HashSections
import Mdencode.Cpp.RangeList
import Mdencode.Go.LogN
import Mdencode.Go.MdUnzipMutex
import Mdencode.Go.HashBlockList
import Mdencode.Go.KeyList
import Mdencode.Go.IntegerKeys
import Mdencode.Go.CheckFileHashBlock
import Mdencode.Go.MdFormatJson
import Mdencode.Lib.Xml
import Mdencode.Lib.XmlDocument
import Mdencode.Lib.Csv
import Mdencode.Go.MdFormatXML
import Mdencode.Go.MdFormatCSV
import Mdencode.Go.UnescapedText
import Mdencode.Lib.InPlace
import Mdencode.Cpp.VendoredSignatures
import Mdencode.Cpp.VendoredTable
import Mdencode.Lib.Channel
import Mdencode.Go.MdTest
import Mdencode.Go.MdTestProtocol
import Mdencode.Go.MdTestOutcome
