import LwipDtn.StorageFiles
import LwipDtn.AckRelease
import LwipDtn.OwnContact
import LwipDtn.StatusTransit
import LwipDtn.Senders
import LwipDtn.CustodyWalk
import LwipDtn.Cgr.Filter
import LwipDtn.Cgr.YenRoutes
import LwipDtn.Cgr.HopByHop
import LwipDtn.PlanLoaders
import LwipDtn.BufferLedger
import LwipDtn.Tracked
import LwipDtn.RetryLimit
import LwipDtn.EligiblePackets
import LwipDtn.Expiry
import LwipDtn.RetryTable
import LwipDtn.ContactWindows
import LwipDtn.RouteFields
import LwipDtn.ShortStatus
import LwipDtn.PassSafety
import LwipDtn.LoopRetries
import LwipDtn.LoopBuffers
import LwipDtn.Network
import LwipDtn.AddressRoundTrip
import LwipDtn.StatusChecksum
import LwipDtn.PbufChain
import LwipDtn.MemHeapRuns
