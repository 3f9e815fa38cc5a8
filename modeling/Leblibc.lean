import Leblibc.Base.Align
import Leblibc.Base.Ints
import Leblibc.Base.Machine
import Leblibc.Env.Environ
import Leblibc.Env.EnvironInv
import Leblibc.Env.EnvironMap
import Leblibc.Env.EnvironOwnership
import Leblibc.Env.InitTls
import Leblibc.Exit.Atexit
import Leblibc.Ldso.Lookup
import Leblibc.Ldso.LookupCorrect
import Leblibc.Ldso.Relr
import Leblibc.Lib.Avl
import Leblibc.Lib.Buffer
import Leblibc.Lib.Bytes
import Leblibc.Lib.Gregorian
import Leblibc.Lib.Leonardo
import Leblibc.Lib.LeonardoHeap
import Leblibc.Lib.Memory
import Leblibc.Lib.OpenAddressing
import Leblibc.Lib.Ownership
import Leblibc.Lib.Search
import Leblibc.Lib.Separated
import Leblibc.Lib.Span
import Leblibc.Lib.Threads
import Leblibc.Lib.Triangular
import Leblibc.Lib.Words
import Leblibc.Locale.Iconv
import Leblibc.Locale.Pleval
import Leblibc.Locale.PlevalCorrect
import Leblibc.Locale.Plural
import Leblibc.Malloc.LiteMalloc
import Leblibc.Malloc.LiteMallocCorrect
import Leblibc.Misc.Getopt
import Leblibc.Misc.GetoptOperands
import Leblibc.Misc.GetoptPermute
import Leblibc.Multibyte.Utf16
import Leblibc.Multibyte.Utf8
import Leblibc.Multibyte.Utf8Correct
import Leblibc.Multibyte.Utf8State
import Leblibc.Network.DnComp
import Leblibc.Network.DnCompCorrect
import Leblibc.Network.DnName
import Leblibc.Network.Inet
import Leblibc.Network.InetAton
import Leblibc.Network.InetCorrect
import Leblibc.Network.NsParse
import Leblibc.Network.ResMkquery
import Leblibc.Network.ResMsend
import Leblibc.Network.ResMsendCorrect
import Leblibc.Network.ResolvConf
import Leblibc.Passwd.Getgrent
import Leblibc.Passwd.GetgrentCorrect
import Leblibc.Passwd.GetgrentMembers
import Leblibc.Search.Hsearch
import Leblibc.Search.HsearchMap
import Leblibc.Search.Tsearch
import Leblibc.Search.TsearchSet
import Leblibc.Search.TsearchTree
import Leblibc.Stdio.File
import Leblibc.Stdio.Input
import Leblibc.Stdio.MemStream
import Leblibc.Stdio.MemStreamCorrect
import Leblibc.Stdio.MemStreamRuns
import Leblibc.Stdio.Output
import Leblibc.Stdio.Printf
import Leblibc.Stdio.PrintfBlocks
import Leblibc.Stdio.PrintfCore
import Leblibc.Stdio.PrintfCorrect
import Leblibc.Stdio.PrintfCount
import Leblibc.Stdio.PrintfDigits
import Leblibc.Stdio.PrintfFields
import Leblibc.Stdio.PrintfFp
import Leblibc.Stdio.PrintfFpCorrect
import Leblibc.Stdio.PrintfOutput
import Leblibc.Stdio.PrintfParse
import Leblibc.Stdio.Read
import Leblibc.Stdio.Stream
import Leblibc.Stdio.Vfprintf
import Leblibc.Stdio.Vsnprintf
import Leblibc.Stdio.Write
import Leblibc.Stdlib.Qsort
import Leblibc.Stdlib.QsortHeap
import Leblibc.Stdlib.QsortMoves
import Leblibc.Stdlib.QsortSorts
import Leblibc.Stdlib.QsortWords
import Leblibc.Stdlib.Strtol
import Leblibc.Stdlib.StrtolCorrect
import Leblibc.String.Scan
import Leblibc.String.Strstr
import Leblibc.String.StrstrCorrect
import Leblibc.String.StrstrFactor
import Leblibc.String.StrstrLoop
import Leblibc.Thread.Once
import Leblibc.Thread.Rwlock
import Leblibc.Thread.SemOpen
import Leblibc.Thread.SemOpenCorrect
import Leblibc.Thread.Semaphore
import Leblibc.Thread.Tsd
import Leblibc.Thread.TsdAtomic
import Leblibc.Thread.TsdMap
import Leblibc.Thread.TsdTable
import Leblibc.Time.Strftime
import Leblibc.Time.StrftimeText
import Leblibc.Time.StrftimeWeek
import Leblibc.Time.Tm
import Leblibc.Time.TmCorrect
import Leblibc.Time.Tz
import Leblibc.Time.TzCorrect
import Leblibc.Time.TzRules
