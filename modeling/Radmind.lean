import Radmind.CString
import Radmind.Code
import Radmind.ArgcArgv
import Radmind.PathCmp
import Radmind.Lib.PrecedenceMerge
import Radmind.Number
import Radmind.Base64
import Radmind.Transcript.Types
import Radmind.Transcript.Parse
import Radmind.Transcript.Select
import Radmind.Transcript.Merged
import Radmind.Lib.SortedTable
import Radmind.Hardlink
import Radmind.Transcript.Print
import Radmind.Transcript.Compare
import Radmind.Lib.SortedJoin
import Radmind.Transcript.Join
import Radmind.Transcript.Outcome
import Radmind.Transcript.Steps
import Radmind.Transcript.Lines
import Radmind.Transcript.Complete
import Radmind.Transcript.Spurious
import Radmind.Transcript.Text
import Radmind.Transcript.Creatable
import Radmind.Transcript.Overlay
import Radmind.Fsdiff.Walk
import Radmind.Fsdiff.Order
import Radmind.Fsdiff.Negative
import Radmind.Fsdiff.Terminates
import Radmind.PathList
import Radmind.CommandFile
import Radmind.Ktcheck
import Radmind.SpecialTranscript
import Radmind.Transcript.Kfile
import Radmind.Lapply.Context
import Radmind.Lapply.Removal
import Radmind.Lapply.Status
import Radmind.Lapply.Minus
import Radmind.Lapply.Sign
import Radmind.Command.Authorized
import Radmind.Command.Contained
import Radmind.Command.Stages
import Radmind.Lcreate.Pipeline
import Radmind.Lib.ExclusiveTree
import Radmind.Command.Shared
import Radmind.Command.Names
import Radmind.Pattern
import Radmind.Transcript.Links
import Radmind.Transcript.Lookup
import Radmind.Lmerge.Sorted
import Radmind.Lmerge.NoUpload
import Radmind.Hardlink.Table
import Radmind.Transcript.Forms
import Radmind.Transcript.Fits
import Radmind.Transcript.Recursive
import Radmind.Fsdiff.Canonical
import Radmind.Wildcard.Lower
import Radmind.Wildcard.Inside
import Radmind.Lcksum.CheckAll
import Radmind.Lcksum.Repair
import Radmind.CodeBuffer
import Radmind.Applefile.Sizes
import Radmind.Daemon
import Radmind.Root
import Radmind.Transcript.Words
import Radmind.Lapply.Words
import Radmind.Command.Arguments
import Radmind.Lsize
import Radmind.Lsort
import Radmind.Applefile.Retr
import Radmind.Lib.ByteOrder
import Radmind.Applefile.Streams
import Radmind.Applefile.Checksum
import Radmind.DiffArgs
import Radmind.NodeList
import Radmind.Fsdiff.Hint
import Radmind.Mkdirs
import Radmind.Retr
import Radmind.Ktcheck.Run
import Radmind.Ktcheck.Clean
import Radmind.Lapply.Applied
import Radmind.Fsdiff.Readdir
