import MariadbShell.ImportTable.ReadLength
import MariadbShell.ImportTable.HandoverRuns
import MariadbShell.ImportTable.ScanFile
import MariadbShell.Dump.LoadData
import MariadbShell.Dump.Rfc4180
import MariadbShell.Load.ChunkResume
import MariadbShell.Sql.MatchWild
import MariadbShell.Scripting.NumberTexts
import MariadbShell.Sql.ReservedWords
import MariadbShell.Load.TablesInProgress
import MariadbShell.Grants.Deny
import MariadbShell.Mrs.SafeDrops
import MariadbShell.Storage.UploadTraffic
import MariadbShell.Storage.Glob
import MariadbShell.Storage.NaturalCompare
import MariadbShell.Dump.ChunkTrace
import MariadbShell.Dump.Coalescer
import MariadbShell.Dump.NonIntegerChunks
import MariadbShell.Uri.RoundTrip
import MariadbShell.Load.IndexRecreation
import MariadbShell.Db.Filters
import MariadbShell.Db.GtidText
import MariadbShell.Dump.DecimalNumber
import MariadbShell.Sql.MaskedLog
import MariadbShell.Utils.StringCodes
import MariadbShell.Utils.ByteSizes
