import LampUserspace.Libc.Ctype
import LampUserspace.Libc.Strings
import LampUserspace.Search.DepthFirst
import LampUserspace.Calendar.Gregorian
import LampUserspace.Calendar.Civil
import LampUserspace.Memory.Bytes
import LampUserspace.Keyed.Lists
import LampUserspace.Lifo.Discipline
import LampUserspace.Ownership.Ledger
import LampUserspace.Refinement.Runs
import LampUserspace.Tiling.Blocks
import LampUserspace.Tiling.FirstFit
import LampUserspace.Tracking.Lists
import LampUserspace.Partial.Total
import LampUserspace.Numerals.Positional
import LampUserspace.Libc.Digits
import LampUserspace.Regex.Program
import LampUserspace.Regex.Compile
import LampUserspace.Regex.Syntax
import LampUserspace.Regex.Exec
import LampUserspace.Regex.Steps
import LampUserspace.Regex.Matcher
import LampUserspace.Regex.Layout
import LampUserspace.Regex.Codegen
import LampUserspace.Regex.Reading
import LampUserspace.Regex.Growth
import LampUserspace.Regex.Compiling
import LampUserspace.Regex.Regcomp
import LampUserspace.Regex.Slots
import LampUserspace.Regex.Regexec
import LampUserspace.Regex.CaseFold
import LampUserspace.Regex.Brackets
import LampUserspace.Regex.Nesting
import LampUserspace.Regex.Shorthands
import LampUserspace.Regex.Replacing
import LampUserspace.Regex.Spans
import LampUserspace.Regex.Exits
import LampUserspace.Regex.Composition
import LampUserspace.Regex.Branching
import LampUserspace.Regex.Intervals
import LampUserspace.Regex.Steady
import LampUserspace.Regex.Spelling
import LampUserspace.Regex.Syntaxes
import LampUserspace.Regex.Agreement
import LampUserspace.Time.Localtime
import LampUserspace.Time.Dates
import LampUserspace.Stdio.Format
import LampUserspace.Stdio.Formatted
import LampUserspace.Stdio.Numbers
import LampUserspace.Stdio.Directives
import LampUserspace.Stdio.Prescribed
import LampUserspace.Stdio.Produced
import LampUserspace.Stdio.Stream
import LampUserspace.Stdio.Logical
import LampUserspace.Stdio.Channel
import LampUserspace.Stdio.Lines
import LampUserspace.Stdio.Indicators
import LampUserspace.Stdio.Printf
import LampUserspace.Time.Strptime
import LampUserspace.Stdlib.Malloc
import LampUserspace.Stdlib.Chain
import LampUserspace.Stdlib.HeapTiles
import LampUserspace.Stdlib.HeapLists
import LampUserspace.Stdlib.HeapRuns
import LampUserspace.Stdlib.HeapSizes
import LampUserspace.Stdlib.HeapMoves
import LampUserspace.Stdlib.Environ
import LampUserspace.Stdlib.Strtol
import LampUserspace.Stdlib.Subject
import LampUserspace.Stdlib.Conversions
import LampUserspace.Stdlib.Reparsing
import LampUserspace.Stdlib.Bindings
import LampUserspace.Stdlib.Vector
import LampUserspace.Stdlib.Exit
import LampUserspace.Stdio.Descriptors
import LampUserspace.Partial.Loops
import LampUserspace.Partial.Pairs
import LampUserspace.Binary.Words
import LampUserspace.Binary.Frames
import LampUserspace.Binary.Format
import LampUserspace.Binary.Truncation
import LampUserspace.CompilerRt.Divmod
import LampUserspace.CompilerRt.Shifts
import LampUserspace.CompilerRt.Double
import LampUserspace.CompilerRt.Pack
import LampUserspace.CompilerRt.Normalizer
import LampUserspace.CompilerRt.Arithmetic
import LampUserspace.CompilerRt.Special
import LampUserspace.CompilerRt.Compare
import LampUserspace.CompilerRt.Single
import LampUserspace.CompilerRt.Integers
import LampUserspace.Stdio.Scan
import LampUserspace.Stdio.Scanning
import LampUserspace.Stdio.Rescanning
import LampUserspace.Stdio.Fields
import LampUserspace.Stdio.LineBuffer
import LampUserspace.Stdio.Filling
import LampUserspace.Stdio.LineOutcomes
import LampUserspace.Stdio.LineResults
import LampUserspace.Net.Inet
import LampUserspace.Net.Quads
import LampUserspace.Net.Addresses
import LampUserspace.Net.Roundtrip
import LampUserspace.Search.Occurrence
import LampUserspace.Libc.Searching
import LampUserspace.Libc.Tokens
import LampUserspace.Libc.Paths
import LampUserspace.Search.InOrder
import LampUserspace.Process.Execvp
import LampUserspace.Process.Getopt
import LampUserspace.Process.Commandline
import LampUserspace.Search.Bisection
import LampUserspace.Stdlib.Bsearch
import LampUserspace.Sorting.Exchange
import LampUserspace.Stdlib.Qsort
import LampUserspace.CompilerRt.Calls
import LampUserspace.Time.Ranges
import LampUserspace.Memory.Copying
import LampUserspace.Libc.Moving
import LampUserspace.Regex.Insertion
import LampUserspace.Regex.Meaning
import LampUserspace.Regex.Matching
import LampUserspace.Regex.Work
import LampUserspace.Regex.LifeCycle
import LampUserspace.Libc.Comparing
import LampUserspace.Stdlib.Sorted
import LampUserspace.Congruential.Cycle
import LampUserspace.Stdlib.Rand
import LampUserspace.Stdlib.HeapRecovery
import LampUserspace.Binary.Rounding
import LampUserspace.CompilerRt.Sums
import LampUserspace.Calendar.Order
import LampUserspace.Time.Order
import LampUserspace.Stdio.Transfer
import LampUserspace.Memory.Objects
import LampUserspace.Stdlib.ObjectRuns
import LampUserspace.Stdio.Records
import LampUserspace.Stdio.Storage
import LampUserspace.CompilerRt.Narrowing
import LampUserspace.CompilerRt.Products
import LampUserspace.Process.Signals
