import MPIre.Library.Run
import MPIre.Capture
import MPIre.Replay
import MPIre.Inbound
import MPIre.Pending
import MPIre.CaptureStep
import MPIre.ReplayStep
import MPIre.Lockstep
import MPIre.RoundTrip
import MPIre.CaptureRun
import MPIre.Chronicle
import MPIre.Window
import MPIre.FortranReduce
import MPIre.ReplayRun
import MPIre.Reinit
import MPIre.Waitall
import MPIre.IoFailures
import MPIre.Communicators
import MPIre.Bystander
import MPIre.FailedCalls
import MPIre.Alltoall
import MPIre.Outstanding
import MPIre.FortranAlltoallv
import MPIre.RecordNames
import MPIre.StaleLog
import MPIre.FortranRequests
import MPIre.FortranStatuses
import MPIre.Library.FileTree
import MPIre.Mkpath
import MPIre.Ccan.HtableRun
import MPIre.Ccan.Requests
import MPIre.LinkedReplay
import MPIre.LinkedCapture
import MPIre.LinkedRoundTrip
import MPIre.Regions
import MPIre.Footprint
import MPIre.Transparent
import MPIre.Ccan.Hash
import MPIre.DiskFiles
import MPIre.DiskInit
import MPIre.DiskJob
import MPIre.DiskReplay
import MPIre.DiskRoundTrip
