import Osc2FtdiDmx.BytesEndian
import Osc2FtdiDmx.PriorityLevels
import Osc2FtdiDmx.LightingDesk
import Osc2FtdiDmx.DeskLaws
import Osc2FtdiDmx.SortedInsertion
import Osc2FtdiDmx.LinkedHeap
import Osc2FtdiDmx.GlobLanguage
import Osc2FtdiDmx.GlobSyntax
import Osc2FtdiDmx.FuelledRuns
import Osc2FtdiDmx.TransitionRuns
import Osc2FtdiDmx.CircularBuffer
import Osc2FtdiDmx.SlotStore
import Osc2FtdiDmx.OscMemory
import Osc2FtdiDmx.MemoryStores
import Osc2FtdiDmx.OscReader
import Osc2FtdiDmx.OscTree
import Osc2FtdiDmx.PacketHandler
import Osc2FtdiDmx.PacketWalk
import Osc2FtdiDmx.PacketCalls
import Osc2FtdiDmx.SlotRefinement
import Osc2FtdiDmx.ReaderSpecs
import Osc2FtdiDmx.PacketRanges
import Osc2FtdiDmx.PacketTermination
import Osc2FtdiDmx.PacketFlatten
import Osc2FtdiDmx.ScheduleOrder
import Osc2FtdiDmx.SchedBlocks
import Osc2FtdiDmx.BlockRefinement
import Osc2FtdiDmx.TimetagDue
import Osc2FtdiDmx.BeatLoop
import Osc2FtdiDmx.ScheduleDrain
import Osc2FtdiDmx.SessionSchedule
import Osc2FtdiDmx.MessageRefusal
import Osc2FtdiDmx.MessageEncoding
import Osc2FtdiDmx.TreeWalk
import Osc2FtdiDmx.MessageLaw
import Osc2FtdiDmx.MessageClearing
import Osc2FtdiDmx.SessionThreads
import Osc2FtdiDmx.SignalDelivery
import Osc2FtdiDmx.VarchunkRing
import Osc2FtdiDmx.VarchunkThreads
import Osc2FtdiDmx.RingInvariant
import Osc2FtdiDmx.RingProducer
import Osc2FtdiDmx.RingConsumer
import Osc2FtdiDmx.RingRuns
import Osc2FtdiDmx.RingGrant
import Osc2FtdiDmx.RingHandoff
import Osc2FtdiDmx.UdpReceive
import Osc2FtdiDmx.OwnedTokens
import Osc2FtdiDmx.SessionTokens
import Osc2FtdiDmx.ByteStuffing
import Osc2FtdiDmx.SlipDecode
import Osc2FtdiDmx.FramedStreams
import Osc2FtdiDmx.SlipReceive
import Osc2FtdiDmx.PrefixReceive
import Osc2FtdiDmx.SlipEncode
import Osc2FtdiDmx.StreamSend
import Osc2FtdiDmx.StreamChannel
import Osc2FtdiDmx.StreamReconnect
import Osc2FtdiDmx.StreamUrl
import Osc2FtdiDmx.PacketSurroundings
import Osc2FtdiDmx.MessageSurroundings
import Osc2FtdiDmx.SlashSurroundings
import Osc2FtdiDmx.OwnBytes
import Osc2FtdiDmx.StaleBytes
import Osc2FtdiDmx.ArgumentBytes
import Osc2FtdiDmx.ArgumentWalk
import Osc2FtdiDmx.BeatClock
import Osc2FtdiDmx.MessageCues
import Osc2FtdiDmx.BeatFrames
import Osc2FtdiDmx.BridgeSystem
import Osc2FtdiDmx.FrameLaws
import Osc2FtdiDmx.OscPattern
import Osc2FtdiDmx.AddressPattern
import Osc2FtdiDmx.OscWriter
import Osc2FtdiDmx.WriterSpecs
import Osc2FtdiDmx.MessageWriting
import Osc2FtdiDmx.PacketClone
import Osc2FtdiDmx.StreamIntake
