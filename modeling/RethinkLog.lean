import RethinkLog.Acknowledgement
import RethinkLog.AdminConsole
import RethinkLog.BoundedSearch
import RethinkLog.ChunkStream
import RethinkLog.ChunkText
import RethinkLog.ChunkedMessage
import RethinkLog.ChunkedRequest
import RethinkLog.ChunkedResponse
import RethinkLog.ClientService
import RethinkLog.ClientSession
import RethinkLog.Confinement
import RethinkLog.Conversation
import RethinkLog.Decimal
import RethinkLog.EntryCache
import RethinkLog.Exchange
import RethinkLog.FirstResponse
import RethinkLog.FrameBuilding
import RethinkLog.FrameExclusion
import RethinkLog.FrameOrder
import RethinkLog.FramePacking
import RethinkLog.FramePath
import RethinkLog.HeadBoundaries
import RethinkLog.HeaderDecoding
import RethinkLog.Host
import RethinkLog.HttpConnection
import RethinkLog.HttpServer
import RethinkLog.Incremental
import RethinkLog.Journal
import RethinkLog.JsonWriter
import RethinkLog.LogArchive
import RethinkLog.LogEntry
import RethinkLog.LogIntegrity
import RethinkLog.Machine
import RethinkLog.MappedLinks
import RethinkLog.MappedObjects
import RethinkLog.MessageBody
import RethinkLog.MessageHead
import RethinkLog.MessageText
import RethinkLog.Offsets
import RethinkLog.Outbox
import RethinkLog.Packing
import RethinkLog.PrefixCode
import RethinkLog.ReceivedText
import RethinkLog.RecordStream
import RethinkLog.Rejection
import RethinkLog.Replies
import RethinkLog.RequestDelivery
import RethinkLog.RequestReading
import RethinkLog.RequestText
import RethinkLog.ResponseReading
import RethinkLog.Restarts
import RethinkLog.SendQueue
import RethinkLog.Storage
import RethinkLog.StorageIsolation
import RethinkLog.StorageOffsets
import RethinkLog.Stripe
import RethinkLog.StripeEffect
import RethinkLog.StripeHeap
import RethinkLog.ViaConnection
import RethinkLog.ViaParser
import RethinkLog.ViaReceiver
import RethinkLog.WebAdmin
import RethinkLog.WebGuard
import RethinkLog.Wire
