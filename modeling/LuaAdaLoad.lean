import LuaAdaLoad.Build.Configured
import LuaAdaLoad.Build.LoadConf
import LuaAdaLoad.Build.MkCtxt
import LuaAdaLoad.Control.Actions
import LuaAdaLoad.Control.Frames
import LuaAdaLoad.Control.Invariants
import LuaAdaLoad.Control.Mutex
import LuaAdaLoad.Control.Transitions
import LuaAdaLoad.Control.Weakest
import LuaAdaLoad.Install.Agreement
import LuaAdaLoad.Install.BaseNameBuffer
import LuaAdaLoad.Install.BaseNames
import LuaAdaLoad.Install.Calls
import LuaAdaLoad.Install.Conserved
import LuaAdaLoad.Install.Courses
import LuaAdaLoad.Install.Deeds
import LuaAdaLoad.Install.Deinstalled
import LuaAdaLoad.Install.Directories
import LuaAdaLoad.Install.Effects
import LuaAdaLoad.Install.FileChecks
import LuaAdaLoad.Install.FileCopies
import LuaAdaLoad.Install.Footprints
import LuaAdaLoad.Install.Installed
import LuaAdaLoad.Install.Insthier
import LuaAdaLoad.Install.Journals
import LuaAdaLoad.Install.Ledgers
import LuaAdaLoad.Install.LibraryNames
import LuaAdaLoad.Install.Operators
import LuaAdaLoad.Install.PathBuffer
import LuaAdaLoad.Install.Posix
import LuaAdaLoad.Install.Programs
import LuaAdaLoad.Install.Reinstalled
import LuaAdaLoad.Install.Reports
import LuaAdaLoad.Install.RoundTrip
import LuaAdaLoad.Install.Settled
import LuaAdaLoad.Install.StartingDirectory
import LuaAdaLoad.Install.Streams
import LuaAdaLoad.Install.TranslatedNames
import LuaAdaLoad.Install.Translation
import LuaAdaLoad.Install.Truncation
import LuaAdaLoad.Install.Verdict
import LuaAdaLoad.Install.Verified
import LuaAdaLoad.Lua.Values
import LuaAdaLoad.Number.Floats
import LuaAdaLoad.Package.Base
import LuaAdaLoad.Package.Chains
import LuaAdaLoad.Package.Client
import LuaAdaLoad.Package.ErrorReports
import LuaAdaLoad.Package.FieldReads
import LuaAdaLoad.Package.IntegerDefaults
import LuaAdaLoad.Package.NamePath
import LuaAdaLoad.Package.Names
import LuaAdaLoad.Package.RangeChecks
import LuaAdaLoad.Package.Readers
import LuaAdaLoad.Package.Rounds
import LuaAdaLoad.Package.Rules
import LuaAdaLoad.Package.Sessions
import LuaAdaLoad.Package.Tables
import LuaAdaLoad.Package.Tolerance
import LuaAdaLoad.Package.Traversal
import LuaAdaLoad.Package.Trees
import LuaAdaLoad.Package.Unwinding
import LuaAdaLoad.Sysdeps.CpuidX86
import LuaAdaLoad.Sysdeps.Endings
import LuaAdaLoad.Sysdeps.Locker
import LuaAdaLoad.Sysdeps.ProcessorAnswers
import LuaAdaLoad.Sysdeps.Sections
import LuaAdaLoad.System.FileSystem
import LuaAdaLoad.System.Paths
import LuaAdaLoad.System.RecordLocks
import LuaAdaLoad.System.Removals
import LuaAdaLoad.System.Undoing
import LuaAdaLoad.System.Walks
import LuaAdaLoad.System.Writes
import LuaAdaLoad.Text.Buffers
import LuaAdaLoad.Text.CStrings
import LuaAdaLoad.Text.Dotted
import LuaAdaLoad.Text.Initializers
import LuaAdaLoad.Text.Strings
