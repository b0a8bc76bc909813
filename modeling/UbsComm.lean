import UbsComm.Service.SecInfo
import UbsComm.Service.CtxLookup
import UbsComm.Service.CtxPeek
import UbsComm.Service.TimerLife
import UbsComm.Service.TimeoutScan
import UbsComm.Service.EpUpCtx
import UbsComm.Service.PrepareTimer
import UbsComm.Service.AsyncConsume
import UbsComm.Service.AsyncClosure
import UbsComm.Service.RateLimiter
import UbsComm.Service.SendFits
import UbsComm.Service.SyncSplice
import UbsComm.Service.SyncSplit
import UbsComm.Service.ConnectWhole
import UbsComm.Sock.OneSideSafety
import UbsComm.Sock.SendQueue
import UbsComm.Shm.QueueFifo
import UbsComm.Shm.DataChannel
import UbsComm.Common.PgTableExact
import UbsComm.Common.RbTreeNeighbours
import UbsComm.Common.AddrSizeLive
import UbsComm.Common.NetRing
import UbsComm.Brpc.BlockCache
import UbsComm.Umq.BindRoundTrip
import UbsComm.Umq.Bind
import UbsComm.Umq.PullIds
import UbsComm.Umq.Dequeue
import UbsComm.Umq.ShmRegion
import UbsComm.Brpc.SocketReadWhole
import UbsComm.Brpc.TxAccounting
import UbsComm.Brpc.TxReturn
import UbsComm.Brpc.RingDelivery
import UbsComm.Umq.BufFree
import UbsComm.Umq.PostTxRemote
import UbsComm.Umq.MsgRingFifo
import UbsComm.Umq.PullImport
import UbsComm.Umq.IpcNotify
