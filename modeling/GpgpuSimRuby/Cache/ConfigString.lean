import GpgpuSimRuby.Cache.TagArray
import GpgpuSimRuby.Library.Scanf

/-!
# The configuration string of a cache

`cache_config::init`. Every number is taken as it was read: nothing is asked of the number of sets or of
the size of a line.
-/

namespace GpgpuSimRuby.Cache

open Library

inductive MshrConfig where
  | texFifo | assoc
  deriving DecidableEq, Repr

/-- `exit_parse_error`, and the assertion on the number of tokens. -/
inductive ConfigFault where
  | parseError | tokens
  deriving DecidableEq, Repr

/-- What the members hold that a short string leaves unset. -/
structure Unset where
  missQueueSize : Nat
  resultFifoEntries : Nat

/-- A configuration. The sizes of the MSHRs and of the miss queue are, for a texture cache, those of the
fragment FIFO, of the request FIFO and of the reorder buffer. -/
structure ParsedConfig where
  cfg : CacheConfig
  mshrType : MshrConfig
  resultFifoEntries : Nat

namespace ParsedConfig

open Scanf

/-- `"%u:%u:%u,%c:%c:%c:%c,%c:%u:%u,%u:%u"` -/
def format : List Directive :=
  [.unsigned, .ordinary ':', .unsigned, .ordinary ':', .unsigned, .ordinary ',',
   .char, .ordinary ':', .char, .ordinary ':', .char, .ordinary ':', .char, .ordinary ',',
   .char, .ordinary ':', .unsigned, .ordinary ':', .unsigned, .ordinary ',', .unsigned, .ordinary ':',
   .unsigned]

def ofRp : Char → Except ConfigFault ReplacementPolicy
  | 'L' => .ok .lru
  | 'F' => .ok .fifo
  | _ => .error .parseError

def ofWp : Char → Except ConfigFault WritePolicy
  | 'R' => .ok .readOnly
  | 'B' => .ok .writeBack
  | 'T' => .ok .writeThrough
  | 'E' => .ok .writeEvict
  | 'L' => .ok .localWbGlobalWt
  | _ => .error .parseError

def ofAp : Char → Except ConfigFault AllocationPolicy
  | 'm' => .ok .onMiss
  | 'f' => .ok .onFill
  | _ => .error .parseError

/-- A texture cache needs all tokens. -/
def ofMshrType (ntok : Nat) : Char → Except ConfigFault MshrConfig
  | 'F' => do
    assert (ntok = 12) .tokens
    return .texFifo
  | 'A' => .ok .assoc
  | _ => .error .parseError

def ofWap : Char → Except ConfigFault WriteAllocatePolicy
  | 'W' => .ok .writeAllocate
  | 'N' => .ok .noWriteAllocate
  | _ => .error .parseError

/-- What a member holds after the scan. -/
def assigned (values : List Value) (i old : Nat) : Nat :=
  match values[i]? with
  | some (.unsigned n) => n
  | _ => old

/-- `none` is a cache that is disabled. -/
def init (old : Unset) (s : List Char) : Except ConfigFault (Option ParsedConfig) :=
  match scan format s with
  | .unsigned nset :: .unsigned lineSz :: .unsigned assoc :: .char rp :: .char wp :: .char ap ::
      .char wap :: .char mt :: .unsigned mshrEntries :: .unsigned mshrMaxMerge :: rest => do
    let replacementPolicy ← ofRp rp
    let writePolicy ← ofWp wp
    let allocPolicy ← ofAp ap
    let mshrType ← ofMshrType (10 + rest.length) mt
    let writeAllocPolicy ← ofWap wap
    return some {
      cfg := {
        nset, lineSz, assoc, replacementPolicy, writePolicy, allocPolicy, writeAllocPolicy, mshrEntries,
        mshrMaxMerge, missQueueSize := assigned rest 0 old.missQueueSize }
      mshrType
      resultFifoEntries := assigned rest 1 old.resultFifoEntries }
  | _ => if s = "none".toList then .ok none else .error .parseError

variable {old : Unset} {s : List Char} {p : ParsedConfig}

theorem init_scan (h : init old s = .ok (some p)) : ∃ values,
    scan format s = .unsigned p.cfg.nset :: .unsigned p.cfg.lineSz :: values := by
  unfold init at h
  split at h
  · next nset lineSz assoc rp wp ap wap mt mshrEntries mshrMaxMerge rest hscan =>
    obtain ⟨_, -, h⟩ := bind_eq_ok.mp h
    obtain ⟨_, -, h⟩ := bind_eq_ok.mp h
    obtain ⟨_, -, h⟩ := bind_eq_ok.mp h
    obtain ⟨_, -, h⟩ := bind_eq_ok.mp h
    obtain ⟨_, -, h⟩ := bind_eq_ok.mp h
    obtain rfl := Option.some.inj (Except.ok.inj h)
    exact ⟨_, hscan⟩
  · split at h <;> cases h

theorem init_lt (h : init old s = .ok (some p)) : p.cfg.nset < wordSize ∧ p.cfg.lineSz < wordSize := by
  obtain ⟨values, hscan⟩ := init_scan h
  constructor
  · have hmem : .unsigned p.cfg.nset ∈ scan format s := by
      rw [hscan]
      exact List.mem_cons_self
    exact scan_unsigned_lt hmem
  · have hmem : .unsigned p.cfg.lineSz ∈ scan format s := by
      rw [hscan]
      exact List.mem_cons_of_mem _ List.mem_cons_self
    exact scan_unsigned_lt hmem

def charOfRp : ReplacementPolicy → Char
  | .lru => 'L'
  | .fifo => 'F'

def charOfWp : WritePolicy → Char
  | .readOnly => 'R'
  | .writeBack => 'B'
  | .writeThrough => 'T'
  | .writeEvict => 'E'
  | .localWbGlobalWt => 'L'

def charOfAp : AllocationPolicy → Char
  | .onMiss => 'm'
  | .onFill => 'f'

def charOfMshrType : MshrConfig → Char
  | .texFifo => 'F'
  | .assoc => 'A'

def charOfWap : WriteAllocatePolicy → Char
  | .writeAllocate => 'W'
  | .noWriteAllocate => 'N'

/-- The twelve tokens of a configuration. -/
def tokens (p : ParsedConfig) : List Value :=
  [.unsigned p.cfg.nset, .unsigned p.cfg.lineSz, .unsigned p.cfg.assoc,
   .char (charOfRp p.cfg.replacementPolicy), .char (charOfWp p.cfg.writePolicy),
   .char (charOfAp p.cfg.allocPolicy), .char (charOfWap p.cfg.writeAllocPolicy),
   .char (charOfMshrType p.mshrType), .unsigned p.cfg.mshrEntries, .unsigned p.cfg.mshrMaxMerge,
   .unsigned p.cfg.missQueueSize, .unsigned p.resultFifoEntries]

def render (p : ParsedConfig) : List Char := printf format p.tokens

theorem init_of_tokens (old : Unset) (hp : ∀ n, .unsigned n ∈ p.tokens → n < wordSize) :
    init old p.render = .ok (some p) := by
  have hscan : scan format p.render = p.tokens := by
    apply scan_printf
    simpa [Fits, format, tokens, printf, wordSize] using hp
  obtain ⟨⟨nset, lineSz, assoc, rp, wp, ap, wap, _, _, _⟩, mt, _⟩ := p
  unfold init
  rw [hscan]
  cases rp <;> cases wp <;> cases ap <;> cases wap <;> cases mt <;> rfl

theorem assigned_lt {values : List Value} {i n : Nat} (h : ∀ m, .unsigned m ∈ values → m < wordSize)
    (hn : n < wordSize) : assigned values i n < wordSize := by
  unfold assigned
  split
  · next m hm => exact h m (List.mem_of_getElem? hm)
  · exact hn

/-- **Every configuration has a string.** What `init` reads from a string, it reads from the string
of its twelve tokens, whatever the members held before. -/
theorem init_render (h : init old s = .ok (some p)) (hqueue : old.missQueueSize < wordSize)
    (hfifo : old.resultFifoEntries < wordSize) (old' : Unset) : init old' p.render = .ok (some p) := by
  apply init_of_tokens
  unfold init at h
  split at h
  · next nset lineSz assoc _ _ _ _ _ mshrEntries mshrMaxMerge rest hscan =>
    obtain ⟨_, -, h⟩ := bind_eq_ok.mp h
    obtain ⟨_, -, h⟩ := bind_eq_ok.mp h
    obtain ⟨_, -, h⟩ := bind_eq_ok.mp h
    obtain ⟨_, -, h⟩ := bind_eq_ok.mp h
    obtain ⟨_, -, h⟩ := bind_eq_ok.mp h
    cases h
    have hlt : ∀ n, .unsigned n ∈ scan format s → n < wordSize := fun n => scan_unsigned_lt
    rw [hscan] at hlt
    simp only [List.mem_cons, Value.unsigned.injEq, forall_eq_or_imp, reduceCtorEq, false_or] at hlt
    obtain ⟨h1, h2, h3, h4, h5, hrest⟩ := hlt
    simp [tokens, h1, h2, h3, h4, h5, assigned_lt hrest hqueue, assigned_lt hrest hfifo]
  · split at h <;> cases h

def dataCache : ParsedConfig :=
  ⟨⟨64, 128, 6, .lru, .localWbGlobalWt, .onMiss, .noWriteAllocate, 32, 8, 4⟩, .assoc, 2⟩

theorem init_render_short : init ⟨0, 0⟩ dataCache.render = .ok (some dataCache) := by
  have h : init ⟨4, 2⟩ "64:128:6,L:L:m:N,A:32:8".toList = .ok (some dataCache) := by rfl
  exact init_render h (by decide) (by decide) ⟨0, 0⟩

end ParsedConfig

end GpgpuSimRuby.Cache
