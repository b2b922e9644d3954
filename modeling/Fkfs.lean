import Fkfs.Walk
import Fkfs.Iterate
import Fkfs.Mount
import Fkfs.Slots
import Fkfs.Writer
import Fkfs.Reader
import Fkfs.Run
import Fkfs.Structure
import Fkfs.Generations
import Fkfs.Wrap
import Fkfs.Priority
import Fkfs.Log
import Fkfs.CardLog
import Fkfs.Truncation
import Fkfs.Delivery
import Fkfs.Fit
import Fkfs.LogStream
import Fkfs.Bounds
import Fkfs.Termination
import Fkfs.Reinit
import Fkfs.Crashes
import Fkfs.TornHeader
import Fkfs.FailedAppend
import Fkfs.Evictions
import Fkfs.Stepping
import Fkfs.Checksum
import Fkfs.Selection
import Fkfs.ExporterWalk
import Fkfs.FileTable
import Fkfs.LogRetry
import Fkfs.DmaPaths
import Fkfs.SpiSize
import Fkfs.ExportRuns
