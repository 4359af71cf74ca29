import Cs252.Lib.ByteMem
import Cs252.Lib.LinkedRing
import Cs252.Lib.Tiling
import Cs252.Lib.Transition
import Cs252.Lib.Interleaving
import Cs252.Lib.Shuffle
import Cs252.Lib.Refinement
import Cs252.Lib.Terminal
import Cs252.Lib.Descriptors
import Cs252.Lib.CString
import Cs252.Lib.MessageFormat
import Cs252.Lib.LexicalPath
import Cs252.Lib.Comparison
import Cs252.Malloc.Object
import Cs252.Malloc.Allocator
import Cs252.Malloc.Layout
import Cs252.Malloc.Extended
import Cs252.Malloc.Policy
import Cs252.Malloc.Observe
import Cs252.Malloc.Updates
import Cs252.Malloc.AllocateSound
import Cs252.Malloc.FreeSound
import Cs252.Malloc.Start
import Cs252.Malloc.FreeOrder
import Cs252.Malloc.Requests
import Cs252.Malloc.Wrapped
import Cs252.Malloc.Isolation
import Cs252.Malloc.Integrity
import Cs252.Malloc.Realloc
import Cs252.Malloc.Sections
import Cs252.Malloc.Disclosure
import Cs252.Malloc.OutOfMemory
import Cs252.Malloc.Placement
import Cs252.Malloc.Coalescing
import Cs252.Malloc.FirstFit
import Cs252.Malloc.ObjectStore
import Cs252.Malloc.StoreRefinement
import Cs252.Malloc.Accounting
import Cs252.Threads.BoundedBuffer
import Cs252.Threads.BufferSafety
import Cs252.Threads.BufferProgress
import Cs252.Threads.BufferReports
import Cs252.Threads.Reactions
import Cs252.Threads.ReactionRuns
import Cs252.Threads.BufferEnds
import Cs252.Threads.BufferContents
import Cs252.Threads.ReactionEnds
import Cs252.Shell.Command
import Cs252.Shell.Execute
import Cs252.Shell.Pipeline
import Cs252.Shell.Restored
import Cs252.Shell.Grammar
import Cs252.Shell.Wiring
import Cs252.Shell.ErrorLines
import Cs252.Shell.Arguments
import Cs252.Shell.WildcardSearch
import Cs252.Shell.WildcardMatches
import Cs252.Shell.WildcardSessions
import Cs252.Shell.WildcardRegex
import Cs252.Shell.PipelineLines
import Cs252.Shell.OpenModes
import Cs252.Shell.TableMemory
import Cs252.Shell.TableRuns
import Cs252.Shell.LineTables
import Cs252.Shell.Remembered
import Cs252.Shell.EscapedText
import Cs252.Shell.QuotedWords
import Cs252.Shell.Backquotes
import Cs252.Shell.WrittenLines
import Cs252.Shell.Script
import Cs252.Shell.Substitution
import Cs252.Shell.Sessions
import Cs252.Shell.Zombie
import Cs252.Shell.ReadLine
import Cs252.Shell.Display
import Cs252.Http.Messages
import Cs252.Http.Directory
import Cs252.Http.Server
import Cs252.Http.Delivery
import Cs252.Http.Connection
import Cs252.Http.DocumentRoot
import Cs252.Http.Page
import Cs252.Http.DirectoryLinks
import Cs252.Http.Answers
import Cs252.Http.Survival
import Cs252.Http.HeaderLines
import Cs252.Http.ResponseFormat
import Cs252.Http.LineStream
import Cs252.Http.Listing
import Cs252.Http.PrintedNumbers
import Cs252.Http.GeneratedListing
import Cs252.Http.OpenFiles
import Cs252.Http.Serving
import Cs252.Http.Received
