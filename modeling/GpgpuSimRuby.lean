import GpgpuSimRuby.Ruby.Cachelease2.Order
import GpgpuSimRuby.Ruby.Cachelease3.Fences
import GpgpuSimRuby.Ruby.ViWt.BroadcastSafety
import GpgpuSimRuby.Ruby.ViWt.InclusiveSafety
import GpgpuSimRuby.Ruby.ViWt.NonInclusiveSafety
import GpgpuSimRuby.Ruby.MessageBuffer
import GpgpuSimRuby.Ruby.EventQueue
import GpgpuSimRuby.RubyWrapper.Overtaking
import GpgpuSimRuby.RubyWrapper.BackPressure
import GpgpuSimRuby.Ptx.BlockPartition
import GpgpuSimRuby.Ptx.BreakLoop
import GpgpuSimRuby.Ptx.Reconvergence
import GpgpuSimRuby.Ptx.CallFrames
import GpgpuSimRuby.Shader.Atomics
import GpgpuSimRuby.Memory.BankGroups
import GpgpuSimRuby.Memory.Conserved
import GpgpuSimRuby.Memory.SchedulerRefinement
import GpgpuSimRuby.Streams.Barrier
import GpgpuSimRuby.Streams.Order
import GpgpuSimRuby.Cache.DirtyLines
import GpgpuSimRuby.Cache.Refusals
import GpgpuSimRuby.Cache.Replacement
import GpgpuSimRuby.Cache.Reserved
import GpgpuSimRuby.Cache.Conservation
import GpgpuSimRuby.Cache.TexDelivery
import GpgpuSimRuby.Partition.Conserved
import GpgpuSimRuby.Coalescing.CacheBlocks
import GpgpuSimRuby.Coalescing.Banks
import GpgpuSimRuby.Coalescing.Coalesced
import GpgpuSimRuby.Coalescing.Atomics
import GpgpuSimRuby.Addrdec.RawAddress
import GpgpuSimRuby.Memory.DelayQueue
import GpgpuSimRuby.Shader.CtaBarriers
import GpgpuSimRuby.Ptx.FunctionalCore
import GpgpuSimRuby.Ptx.MultiWord
import GpgpuSimRuby.Ptx.PreDecode
import GpgpuSimRuby.Ptx.Vote
import GpgpuSimRuby.Ptx.KernelParams
import GpgpuSimRuby.Ptx.Loads
import GpgpuSimRuby.Ptx.TextureTiling
import GpgpuSimRuby.Shader.LocalMemory
import GpgpuSimRuby.Shader.CollectorSteps
import GpgpuSimRuby.Shader.StructuralHazards
import GpgpuSimRuby.Shader.InstructionAccounting
