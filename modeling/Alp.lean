import Alp.CommCmd
import Alp.CommBox
import Alp.CommDispatch
import Alp.CommRegistry
import Alp.CommMain
import Alp.CommModules
import Alp.RestartBuffer
import Alp.CommReader
import Alp.CommBounds
import Alp.CommFraming
import Alp.CommTokenizer
import Alp.CommOverlong
import Alp.CommEof
import Alp.CommFirstMatch
import Alp.CommSession
import Alp.CommScreen
import Alp.CommWire
import Alp.Getopt
import Alp.Calc
import Alp.CalcItems
import Alp.CalcResults
import Alp.CalcBox
import Alp.CalcHistory
import Alp.CalcConsole
import Alp.SerialThread
import Alp.SerialWorker
import Alp.SerialMailbox
import Alp.SerialAnswer
import Alp.SerialLoopback
import Alp.SerialShutdown
import Alp.SerialBounds
import Alp.SerialProgress
import Alp.Hoare
import Alp.Ownership
import Alp.UsbCmd
import Alp.UsbFrame
import Alp.UsbHandle
import Alp.UsbFm
import Alp.UsbBind
import Alp.UsbBalance
import Alp.UsbTransfers
import Alp.UsbBurst
import Alp.UsbMemory
import Alp.UsbConsole
import Alp.UsbMain
import Alp.UsbMainMemory
import Alp.UsbErrors
import Alp.UsbDescriptors
import Alp.Sequenced
import Alp.Crc
import Alp.CrcRemainder
import Alp.CrcDetect
import Alp.Xyzmodem
import Alp.XyzmodemDelivery
import Alp.XyzmodemAnswers
import Alp.XyzmodemReads
import Alp.XyzmodemFrame
import Alp.XyzmodemCrc
import Alp.XyzmodemErrors
import Alp.XyzmodemTransfer
import Alp.XyzmodemBuffer
import Alp.XyzmodemSilence
import Alp.LocalSocket
import Alp.SocketLength
import Alp.LineServer
import Alp.LineRoundTrip
import Alp.LineScan
import Alp.Numeral
import Alp.Astrtol
import Alp.AstrtolTail
import Alp.DataFile
import Alp.CommFile
import Alp.CommFileStatus
import Alp.CommFileEdits
import Alp.CommFileRead
import Alp.DirTree
import Alp.DirScan
import Alp.DirScanHome
import Alp.DirSearch
import Alp.SignalWait
import Alp.CondWorkers
import Alp.Semaphore
import Alp.SemWorkers
