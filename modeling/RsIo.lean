import RsIo.BufferChannel
import RsIo.BufferReadAll
import RsIo.Channel
import RsIo.ChannelWaits
import RsIo.Cstdio
import RsIo.DeepSearch
import RsIo.DeepSearchLinks
import RsIo.Dispatch
import RsIo.DispatchFaults
import RsIo.DispatchStop
import RsIo.DispatchTimer
import RsIo.Dns
import RsIo.FileCell
import RsIo.FileCopyEnds
import RsIo.FileCopyNested
import RsIo.FileLoad
import RsIo.FileMakeDirectory
import RsIo.FileMove
import RsIo.FileSave
import RsIo.FileSize
import RsIo.FileSystem
import RsIo.FileTimes
import RsIo.FileUrl
import RsIo.Filetime
import RsIo.Growing
import RsIo.JobLedger
import RsIo.Memory
import RsIo.Monitor
import RsIo.NamedMutex
import RsIo.OpenMode
import RsIo.OrderedSet
import RsIo.Path
import RsIo.PathCanonical
import RsIo.PathCommon
import RsIo.PathJoin
import RsIo.PathName
import RsIo.PathParts
import RsIo.PathRelative
import RsIo.PathResolve
import RsIo.PathSplit
import RsIo.PathWindows
import RsIo.PosixSignal
import RsIo.Progress
import RsIo.QueueDelivery
import RsIo.Regex
import RsIo.Resource
import RsIo.Socket
import RsIo.SocketAddress
import RsIo.SocketAddressText
import RsIo.SocketRetry
import RsIo.SocketSet
import RsIo.SocketSetEntries
import RsIo.SocketSetMembers
import RsIo.StdString
import RsIo.Stdio
import RsIo.StdioRead
import RsIo.StdioWrite
import RsIo.TempFile
import RsIo.TempFileStreams
import RsIo.TextProcess
import RsIo.TextProcessReadAll
import RsIo.ThreadPool
import RsIo.ThreadPoolDestroy
import RsIo.ThreadPoolEach
import RsIo.ThreadPoolJobs
import RsIo.ThreadPoolStop
import RsIo.TimeConversion
import RsIo.TimerFlush
import RsIo.TimerThreads
import RsIo.Transition
import RsIo.UdpClient
import RsIo.Uri
import RsIo.UriAssembly
import RsIo.UriEquality
import RsIo.UriMarks
import RsIo.UriOffsets
import RsIo.UriParse
import RsIo.UriPath
import RsIo.UriQuery
import RsIo.UriReachable
import RsIo.UriReadBack
import RsIo.UriReadable
import RsIo.UriSegments
import RsIo.UriSlashes
import RsIo.ValueChannel
