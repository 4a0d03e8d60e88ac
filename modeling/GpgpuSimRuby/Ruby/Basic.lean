import GpgpuSimRuby.Library.Machine
import GpgpuSimRuby.Library.Slicc

/-!
# What the Ruby protocols share

The exported types of `RubySlicc_Exports.sm` that the lease protocols use, for one cache block.

* Ruby's `Time`, an `int64` cycle count, is a natural number here: the event queue starts it at `1`
  and it only grows.
* A `MemFetch` stands for the `mem_fetch` object that a request of the GPU side points to. It is
  allocated afresh for every access, so its `uid` is unique and grows with the order of issue.
* A `DataBlock` is what a copy of the block *contains*: the stores that have been merged into it.
  Ruby itself moves no bytes here (an L1 never fills the `DataBlk` of the messages it sends: the
  values live in the functional simulator), so the contents are the only thing there is to say
  about the data of a block.
-/

namespace GpgpuSimRuby.Ruby

/-- The access of a core that a message serves: `sid` is the core (and so the L1), `wid` the warp. -/
structure MemFetch (ι : Type) where
  uid : Nat
  sid : ι
  wid : Nat
  deriving DecidableEq, Repr

/-- The stores a copy of the block contains, the latest first. -/
abbrev DataBlock (ι : Type) := List (MemFetch ι)

inductive MemorySpaceType where
  | GLOBAL | LOCAL | NULL
  deriving DecidableEq, Repr

inductive CacheRequestType where
  | LD | ST | ATOMIC | MEM_FENCE
  deriving DecidableEq, Repr

/-- A request of the core, as the sequencer puts it into the mandatory queue of its L1. -/
structure CacheMsg (ι : Type) where
  type : CacheRequestType
  space : MemorySpaceType
  threadID : Nat
  profiled : Bool := false
  memfetch : MemFetch ι
  deriving DecidableEq, Repr

/-- The three kinds of transactions a line can have outstanding. -/
inductive Kind where
  | read | write | atomic
  deriving DecidableEq, Repr

/-- The cycle `EventQueue::init` starts at. -/
def startTime : Nat := 1

end GpgpuSimRuby.Ruby
