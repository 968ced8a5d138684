import Thebends.AvrEcho
import Thebends.AvrNetAddress
import Thebends.AvrNetArp
import Thebends.AvrNetRuns
import Thebends.AvrRing
import Thebends.BitrubBencode
import Thebends.BitrubGetRequest
import Thebends.BitrubLanguage
import Thebends.BitrubProgress
import Thebends.BitrubRoundTrip
import Thebends.BitrubString
import Thebends.BtunnelCore
import Thebends.BtunnelDelivery
import Thebends.BtunnelIsolation
import Thebends.BtunnelLink
import Thebends.BtunnelMessage
import Thebends.BtunnelPrefix
import Thebends.BtunnelRegistration
import Thebends.BtunnelRoundTrip
import Thebends.BtunnelService
import Thebends.BtunnelSession
import Thebends.BtunnelStreams
import Thebends.BtunnelStrings
import Thebends.BtunnelTunnel
import Thebends.DhcpArrays
import Thebends.DhcpFields
import Thebends.DhcpGrammar
import Thebends.DhcpMessages
import Thebends.DhcpOptions
import Thebends.DhcpReads
import Thebends.DhcpRoundTrip
import Thebends.JspngCrc
import Thebends.JspngNumber
import Thebends.JspngPng
import Thebends.JspngReader
import Thebends.LibAscii
import Thebends.LibBlocks
import Thebends.LibCString
import Thebends.LibContents
import Thebends.LibCrc
import Thebends.LibDecimal
import Thebends.LibExcept
import Thebends.LibForest
import Thebends.LibHeap
import Thebends.LibLoop
import Thebends.LibMap
import Thebends.LibNetOrder
import Thebends.LibNoting
import Thebends.LibPercent
import Thebends.LibRing
import Thebends.LibRun
import Thebends.LibScan
import Thebends.LibSchedule
import Thebends.LibSockets
import Thebends.LibSorted
import Thebends.LibSplit
import Thebends.LibTrie
import Thebends.LibWalk
import Thebends.MidiBuffer
import Thebends.MidiRoundTrip
import Thebends.MidiTrack
import Thebends.MiscBtunnel
import Thebends.RamdiskCounted
import Thebends.RamdiskDisk
import Thebends.RamdiskFile
import Thebends.RamdiskHeap
import Thebends.RamdiskLookup
import Thebends.RamdiskParent
import Thebends.RamdiskPaths
import Thebends.RamdiskRename
import Thebends.RamdiskStep
import Thebends.RamdiskTidy
import Thebends.RamdiskUsage
import Thebends.Sling
import Thebends.StaticFiles
import Thebends.SyllableHyphenator
import Thebends.SyllablePieces
import Thebends.SynthEnvelope
import Thebends.UtilSplit
import Thebends.UtunnelSession
import Thebends.UtunnelTunnel
import Thebends.UtunnelUsage
import Thebends.YdbAlarms
import Thebends.YdbAutocommit
import Thebends.YdbDeadlock
import Thebends.YdbInvariants
import Thebends.YdbLeaf
import Thebends.YdbLeafRuns
import Thebends.YdbLeafSlots
import Thebends.YdbLock
import Thebends.YdbLockRuns
import Thebends.YdbOp
import Thebends.YdbOrdered
import Thebends.YdbRecord
import Thebends.YdbRollback
import Thebends.YdbSched
import Thebends.YdbSearches
import Thebends.YdbSerial
import Thebends.YdbTree
import Thebends.YdbTreeInsert
import Thebends.YdbWaits
import Thebends.YhttpRequest
import Thebends.YhttpReuse
import Thebends.YhttpRoundTrip
import Thebends.YhttpServer
import Thebends.YhttpServerRuns
import Thebends.YhttpUnescape
import Thebends.YhttpUrl
import Thebends.YnetBuffer
import Thebends.YnetBufferedReader
import Thebends.YnetBufferedWriter
import Thebends.YnetPass
import Thebends.YnetRewind
import Thebends.YnetSelect
import Thebends.YnetTunnel
import Thebends.YnetTunnelRuns
import Thebends.YpeerBencode
import Thebends.YpeerBinary
import Thebends.YpeerEscape
import Thebends.YpeerInfoHash
import Thebends.YpeerPeers
import Thebends.YpeerResponse
import Thebends.YpeerSha1
import Thebends.YpeerSha1Runs
import Thebends.YpeerTracker
import Thebends.YpeerTypes
import Thebends.YthreadPool
