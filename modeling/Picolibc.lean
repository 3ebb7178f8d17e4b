import Picolibc.Lib.ByteMemory
import Picolibc.Lib.LinkedList
import Picolibc.Malloc.Heap
import Picolibc.Malloc.Ops
import Picolibc.Malloc.Layout
import Picolibc.Malloc.Standard
import Picolibc.Malloc.Cells
import Picolibc.Malloc.Wellformed
import Picolibc.Malloc.Transitions
import Picolibc.Malloc.Free
import Picolibc.Malloc.Sbrk
import Picolibc.Malloc.Alloc
import Picolibc.Malloc.Resize
import Picolibc.Malloc.Memalign
import Picolibc.Malloc.Targets
import Picolibc.Malloc.Runs
import Picolibc.Malloc.Erase
import Picolibc.Malloc.DoubleFree
import Picolibc.Malloc.Growth
import Picolibc.Lib.ByteSlices
import Picolibc.Lib.FileArray
import Picolibc.Stdio.Stream
import Picolibc.Stdio.Bufio
import Picolibc.Stdio.Calls
import Picolibc.Stdio.Frames
import Picolibc.Lib.Simulation
import Picolibc.Stdio.Positions
import Picolibc.Stdio.Refinement
import Picolibc.Stdio.Delivery
import Picolibc.Stdio.Room
import Picolibc.Stdio.Fwrite
import Picolibc.Stdio.Fread
import Picolibc.Stdio.Moves
import Picolibc.Stdio.FailedSeek
import Picolibc.Stdio.PushBack
import Picolibc.Stdio.Append
import Picolibc.Stdio.Setvbuf
import Picolibc.Lib.LockTrace
import Picolibc.Lib.Mediants
import Picolibc.Stdio.Locking
import Picolibc.Lib.Ascii
import Picolibc.Multibyte.Convert
import Picolibc.Lib.Utf8
import Picolibc.Multibyte.Decode
import Picolibc.Multibyte.Resume
import Picolibc.Multibyte.Chunks
import Picolibc.Multibyte.Bulk
import Picolibc.Lib.PrefixCode
import Picolibc.Multibyte.Uchar
import Picolibc.Multibyte.Units
import Picolibc.Multibyte.Delivered
import Picolibc.Lib.Numerals
import Picolibc.Printf.Vfprintf
import Picolibc.Printf.Formats
import Picolibc.Printf.Parse
import Picolibc.Printf.Reading
import Picolibc.Printf.Skipping
import Picolibc.Printf.Positional
import Picolibc.Printf.Digits
import Picolibc.Printf.Minimal
import Picolibc.Lib.Blocks
import Picolibc.Stdlib.Getopt
import Picolibc.Stdlib.Partition
import Picolibc.Stdlib.Rand48
import Picolibc.Stdlib.Radix64
import Picolibc.Stdlib.Exitprocs
import Picolibc.Stdio.Mktemp
import Picolibc.Lib.Checked
import Picolibc.Lib.Gregorian
import Picolibc.Time.Gmtime
import Picolibc.Time.Mktime
import Picolibc.Time.Tzset
import Picolibc.Time.Local
import Picolibc.Time.History
import Picolibc.Time.Shift
import Picolibc.Time.Undo
import Picolibc.Iconv.Charsets
import Picolibc.Iconv.Codes
import Picolibc.Iconv.Signed
import Picolibc.Iconv.Jis
import Picolibc.Iconv.Convert
import Picolibc.Iconv.Buffering
import Picolibc.Stdio.Ungetwc
import Picolibc.Printf.IntText
import Picolibc.Stdio.Strtoi
import Picolibc.Printf.Octal
import Picolibc.Printf.Endings
import Picolibc.Printf.Sinks
import Picolibc.Lib.FaultRun
import Picolibc.Stdio.Memstream
import Picolibc.Stdio.Fmemopen
import Picolibc.Lib.BlockHeap
import Picolibc.Stdio.Getdelim
import Picolibc.Lib.HalfEven
import Picolibc.Printf.FloatText
import Picolibc.Printf.FloatLayout
import Picolibc.Printf.HexFloat
import Picolibc.Printf.Ryu
import Picolibc.Printf.Decimal
import Picolibc.Printf.Padding
import Picolibc.Stdio.Strtol
import Picolibc.Scanf.Input
import Picolibc.Scanf.Bracket
import Picolibc.Scanf.HexAssembly
import Picolibc.Scanf.RyuTable
import Picolibc.Scanf.RyuEngine
import Picolibc.Scanf.RyuRounds
import Picolibc.Scanf.ConvFlt
import Picolibc.Scanf.FloatGrammar
import Picolibc.Scanf.Walk
import Picolibc.Scanf.Strtod
import Picolibc.Scanf.Feed
import Picolibc.Scanf.Significand
import Picolibc.Scanf.Decimal
import Picolibc.Time.Localtime
import Picolibc.Time.Limits
import Picolibc.Time.Validate
import Picolibc.Time.Timegm
import Picolibc.Iconv.Loop
import Picolibc.Iconv.Spelling
import Picolibc.Iconv.Dropping
import Picolibc.Iconv.Restart
import Picolibc.Time.Strftime
import Picolibc.Time.Fields
import Picolibc.Time.YearText
import Picolibc.Time.IsoWeek
import Picolibc.Time.Strptime
import Picolibc.Time.DateParse
import Picolibc.Time.RoundTrip
import Picolibc.Time.WeekTrip
import Picolibc.Time.TzGrammar
import Picolibc.Time.TzForm
import Picolibc.Time.TzLoose
import Picolibc.Lib.BinaryRounding
import Picolibc.Scanf.HexText
import Picolibc.Scanf.HexNarrow
import Picolibc.Scanf.HexAgree
import Picolibc.Strings.Strverscmp
import Picolibc.Strings.CheckedCopy
import Picolibc.Lib.Occurrences
import Picolibc.Argz.Findstr
import Picolibc.Argz.Vector
import Picolibc.Argz.Replace
import Picolibc.Argz.Calls
import Picolibc.Argz.Envz
import Picolibc.Argz.EnvzRuns
import Picolibc.Posix.Fgetgrent
import Picolibc.Posix.Fnmatch
import Picolibc.Posix.Globs
import Picolibc.Posix.LeadingPeriod
import Picolibc.Lib.LinkedTree
import Picolibc.Lib.Comparison
import Picolibc.Search.Tsearch
import Picolibc.Search.Tdelete
import Picolibc.Search.Sets
import Picolibc.Printf.UltoaInvert
import Picolibc.Lib.DecimalGrid
import Picolibc.Printf.DigitRemoval
import Picolibc.Lib.ByteWords
import Picolibc.Strings.WordCopy
import Picolibc.Strings.WordScan
import Picolibc.Search.Quickruns
import Picolibc.Time.ZoneText
