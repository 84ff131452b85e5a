import BitprimDatabase.DataBase.PopAbove
import BitprimDatabase.Databases.CacheCoherence
import BitprimDatabase.Primitives.AddRowsFile
import BitprimDatabase.Primitives.UnlinkCalls
import BitprimDatabase.DataBase.FailureLatch
import BitprimDatabase.DataBase.ImportOrder
import BitprimDatabase.DataBase.Visible
import BitprimDatabase.Primitives.Reopen
import BitprimDatabase.Primitives.FindCalls
import BitprimDatabase.DataBase.PoolMirror
import BitprimDatabase.DataBase.Linked
import BitprimDatabase.DataBase.Replaces
import BitprimDatabase.DataBase.Buckets
import BitprimDatabase.DataBase.StaleSpends
import BitprimDatabase.DataBase.Reopened
import BitprimDatabase.Databases.HeightIndex
import BitprimDatabase.Databases.ConfirmInPlace
import BitprimDatabase.Databases.CacheReference
import BitprimDatabase.Databases.CacheAge
import BitprimDatabase.DataBase.CreateOpen
import BitprimDatabase.Primitives.UnlinkSafe
import BitprimDatabase.Databases.SpendFile
import BitprimDatabase.Databases.HistoryFile
import BitprimDatabase.Databases.SpendMarks
import BitprimDatabase.Databases.BlockFile
import BitprimDatabase.Primitives.RecordIndexes
import BitprimDatabase.Primitives.Allocations
import BitprimDatabase.DataBase.FilesReturn
import BitprimDatabase.DataBase.Ledger
import BitprimDatabase.DataBase.LedgerRuns
import BitprimDatabase.DataBase.LedgerSessions
import BitprimDatabase.DataBase.LedgerFiles
import BitprimDatabase.Primitives.ParallelProgress
import BitprimDatabase.Primitives.MappedProgress
