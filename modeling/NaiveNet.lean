import NaiveNet.AppendFile
import NaiveNet.AsyncLoggingFiles
import NaiveNet.AsyncLoggingProgress
import NaiveNet.AsyncLoggingStop
import NaiveNet.BlockingQueue
import NaiveNet.BlockingQueueTestProgress
import NaiveNet.CountDownLatch
import NaiveNet.CurrentThread
import NaiveNet.DateOrder
import NaiveNet.DateText
import NaiveNet.LocalTime
import NaiveNet.LogFileDisk
import NaiveNet.LogFileLimits
import NaiveNet.LogStreamNumerals
import NaiveNet.LoggingToFile
import NaiveNet.MutexLock
import NaiveNet.ProcessInfo
import NaiveNet.ProcessThreads
import NaiveNet.ReadSmallFile
import NaiveNet.SingletonExit
import NaiveNet.SingletonProgress
import NaiveNet.StringPiece
import NaiveNet.ThreadLifetime
import NaiveNet.ThreadLocalSingleton
import NaiveNet.ThreadPoolProgress
import NaiveNet.ThreadPoolTestProgress
import NaiveNet.Timestamp
import NaiveNet.ZoneConversions
