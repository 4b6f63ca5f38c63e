import RustFundamentals.Aprobe.Draining
import RustFundamentals.Aprobe.ScanRuns
import RustFundamentals.Aprobe.Shutdown
import RustFundamentals.Aprobe.TargetRewrites
import RustFundamentals.Brc.Generated
import RustFundamentals.Cbloom.HandleSafety
import RustFundamentals.Cbloom.Probes
import RustFundamentals.Envtyped.Reports
import RustFundamentals.ExpenseTracker.EndOfInput
import RustFundamentals.ExpenseTracker.Survival
import RustFundamentals.Fsm.Door
import RustFundamentals.Fsm.TrafficLight
import RustFundamentals.Logcrunch.CommandLine
import RustFundamentals.Logcrunch.Generated
import RustFundamentals.Logcrunch.ReportContents
import RustFundamentals.Logcrunch.ReportSafety
import RustFundamentals.Lsmkv.Bookkeeping
import RustFundamentals.Lsmkv.Compacted
import RustFundamentals.Lsmkv.Damage
import RustFundamentals.Lsmkv.DamagedTables
import RustFundamentals.Lsmkv.Durability
import RustFundamentals.Lsmkv.FlushAtomicity
import RustFundamentals.Lsmkv.KvSessions
import RustFundamentals.Lsmkv.LayerOrder
import RustFundamentals.Lsmkv.MergeOrder
import RustFundamentals.Lsmkv.Sequence
import RustFundamentals.Lsmkv.Strays
import RustFundamentals.Rudis.Chunking
import RustFundamentals.Rudis.Counters
import RustFundamentals.Rudis.Lives
import RustFundamentals.Rudis.ParseSafety
import RustFundamentals.Rudis.Purging
import RustFundamentals.Rudis.Reload
import RustFundamentals.Rudis.Separation
import RustFundamentals.Rudis.Tokens
import RustFundamentals.Rudis.WriteBuffer
import RustFundamentals.Taskline.TodoLists
