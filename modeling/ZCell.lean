import ZCell.Bytes
import ZCell.Persist
import ZCell.Errcode
import ZCell.Pm
import ZCell.PmLog
import ZCell.CrashAtomicity
import ZCell.Allocator
import ZCell.AllocatorScan
import ZCell.AllocatorSpec
import ZCell.AllocatorCount
import ZCell.AllocatorFailed
import ZCell.AllocatorTail
import ZCell.Store
import ZCell.Runs
import ZCell.DataIndex
import ZCell.ExtentMerge
import ZCell.AllocatorLoad
import ZCell.AllocatorBounds
import ZCell.Regions
import ZCell.Prepare
import ZCell.Layout
import ZCell.StoreRun
import ZCell.StoreStep
import ZCell.Mkfs
import ZCell.TxQueue
import ZCell.Fifo
import ZCell.Commit
import ZCell.OnodeTable
import ZCell.Outage
import ZCell.PowerFailure
import ZCell.Durability
import ZCell.PmBitmap
import ZCell.Reserve
import ZCell.Bdev
import ZCell.Message
import ZCell.Messager
import ZCell.Framing
import ZCell.Receiving
import ZCell.Transfer
import ZCell.Hangup
import ZCell.Server
import ZCell.Chunkstore
import ZCell.ChunkRun
import ZCell.ChunkReadBack
import ZCell.Response
import ZCell.Release
import ZCell.RequestMemory
import ZCell.ServerRun
import ZCell.OnodeHistory
import ZCell.Rejected
import ZCell.ObjectRange
import ZCell.WorkArrays
import ZCell.Progress
import ZCell.HotBlock
import ZCell.AbsentObject
import ZCell.Holding
import ZCell.Ownership
import ZCell.SsdBitmap
import ZCell.OwnershipStep
import ZCell.OwnershipCommit
import ZCell.Accounting
import ZCell.Overlap
import ZCell.Reading
import ZCell.Spared
import ZCell.IndexPlace
import ZCell.ReserveRuns
import ZCell.PmRecovery
import ZCell.PmRegion
import ZCell.Stranded
import ZCell.StoreDrain
import ZCell.Liboss
import ZCell.LibossRun
import ZCell.Reply
import ZCell.ChunkService
import ZCell.Slots
import ZCell.ReadBuffer
import ZCell.SlotSearch
import ZCell.Pairing
import ZCell.PairingStep
import ZCell.PairingRun
import ZCell.ChannelCalls
import ZCell.SlotLife
import ZCell.SlotIds
import ZCell.SubmitOnce
import ZCell.PollReport
import ZCell.PollBounds
import ZCell.ReportedOnce
import ZCell.RingLoss
import ZCell.RingSharing
import ZCell.Matching
import ZCell.Connection
import ZCell.ConnectionRun
import ZCell.LocalChannel
import ZCell.Vdisk
import ZCell.VdiskAccount
import ZCell.Device
import ZCell.Submission
import ZCell.Trim
import ZCell.ReservedBlocks
import ZCell.Holes
import ZCell.Clients
import ZCell.Placement
import ZCell.ReadBack
