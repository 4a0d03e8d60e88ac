import GpgpuSimRuby.Streams.Manager

/-!
# What one call of `operation` does

`turn` is the stream that `front` serves, read off the state. A call first takes a finished kernel off
its stream (`Finishes`), and then serves the stream whose turn it is (`Serves`).
-/

namespace GpgpuSimRuby.Streams.Manager

open Library Gpu Function

variable {n : Nat} (cfg : Config) (m : Manager n)

/-! ## Whose turn it is -/

/-- A stream with an operation that has not started. -/
def idle (i : StreamId n) : Bool := !(m.stream i).busy && !(m.stream i).empty

/-- Stream zero goes on as long as it has operations, and starts when the others have none. -/
def zeroInService : Bool := m.serviceStreamZero || m.concurrentStreamsEmpty

def turn : Option (StreamId n) :=
  if m.zeroInService then if m.idle .zero then some .zero else none
  else ((List.finRange n).find? fun i => m.idle (.created i)).map .created

/-- The flag after `front`. -/
def keepService : Manager n :=
  { m with serviceStreamZero := m.zeroInService && !(m.stream .zero).empty }

/-- The kernel that is launched next, if the operation whose turn it is launches one. -/
def nextKernel : Option KernelPtr :=
  m.turn.bind fun i => (m.stream i).operations.head?.bind StreamOperation.kernel

variable {cfg m} {m' : Manager n} {i : StreamId n} {x : Nat}

theorem idle_of_turn (h : m.turn = some i) : m.idle i = true := by
  unfold turn at h
  split at h
  · split at h
    · next hz =>
      cases h
      exact hz
    · cases h
  · obtain ⟨j, hj, rfl⟩ := Option.map_eq_some_iff.mp h
    have hidle := List.find?_some hj
    exact hidle

theorem exists_of_idle (h : m.idle i = true) :
    (m.stream i).pending = false ∧ ∃ op rest, (m.stream i).operations = op :: rest := by
  rw [idle, Bool.and_eq_true, Bool.not_eq_true', Bool.not_eq_true'] at h
  refine ⟨h.1, List.exists_cons_of_ne_nil ?_⟩
  exact List.isEmpty_eq_false_iff.mp h.2

theorem zeroInService_eq : (if m.concurrentStreamsEmpty then { m with serviceStreamZero := true } else m) =
    { m with serviceStreamZero := m.zeroInService } := by
  unfold zeroInService
  cases m.concurrentStreamsEmpty with
  | true => rw [Bool.or_true, if_pos rfl]
  | false =>
    rw [Bool.or_false]
    rfl

theorem front_eq : m.front = match m.turn with
    | some i => m.keepService.next i
    | none => (m.keepService, .none) := by
  unfold front turn keepService
  rw [zeroInService_eq]
  cases hz : m.zeroInService with
  | false =>
    simp only [Bool.false_eq_true, ite_false, Bool.false_and, idle]
    cases (List.finRange n).find? fun i =>
        !(m.stream (.created i)).busy && !(m.stream (.created i)).empty with
    | none => rfl
    | some i => rfl
  | true =>
    simp only [ite_true, Bool.true_and]
    cases he : (m.stream .zero).empty with
    | true => simp [idle, he]
    | false =>
      cases hb : (m.stream .zero).busy with
      | true => simp [idle, he, hb]
      | false => simp [idle, he, hb]

/-! ## Taking a finished kernel off its stream -/

/-- The front operation of a stream is over. -/
def dropFront (m : Manager n) (i : StreamId n) (op : StreamOperation n)
    (rest : List (StreamOperation n)) : Manager n :=
  (m.setStream i ⟨rest, false⟩).log i (.completed op)

/-- The manager after `m_finished_kernel` has lost its front. -/
def popped (m : Manager n) : Manager n := { m with gpu := m.gpu.popFinishedKernel.1 }

inductive Finishes (m : Manager n) : Manager n → Prop
  | nothing (h : m.gpu.popFinishedKernel.2 = 0) : Finishes m m.popped
  | kernel {uid i op rest k} (huid : m.gpu.popFinishedKernel.2 = uid) (hpos : 0 < uid)
      (hi : m.gridIdToStream uid = some i) (hops : (m.stream i).operations = op :: rest)
      (hk : op.kernel = some k) (heq : uid = (m.gpu.kernels k).uid)
      (hbusy : (m.stream i).pending = true) :
      Finishes m { m.popped.dropFront i op rest with
        gridIdToStream := update m.gridIdToStream uid none }

theorem recordNextDone_eq_ok : m.recordNextDone i = .ok m' ↔ ∃ op rest, (m.stream i).operations = op :: rest ∧
      (m.stream i).pending = true ∧ m' = m.dropFront i op rest := by
  unfold recordNextDone CuStream.recordNextDone
  constructor
  · intro h
    obtain ⟨s, hs, h⟩ := bind_eq_ok.mp h
    obtain ⟨_, hp, hs⟩ := bind_eq_ok.mp hs
    cases hs
    cases hops : (m.stream i).operations with
    | nil =>
      rw [hops] at h
      cases h
    | cons op rest =>
      rw [hops] at h
      cases h
      exact ⟨op, rest, rfl, assert_eq_ok.mp hp, rfl⟩
  · rintro ⟨op, rest, hops, hp, rfl⟩
    simp only [hp, hops, assert_pos, ok_bind]
    rfl

@[simp]
theorem popFinishedKernel_kernels (g : GpgpuSim) : g.popFinishedKernel.1.kernels = g.kernels := by
  unfold GpgpuSim.popFinishedKernel
  split <;> rfl

theorem checkFinishedKernel_ok (h : m.checkFinishedKernel = .ok m') : m.Finishes m' := by
  unfold checkFinishedKernel registerFinishedKernel at h
  by_cases hu : m.gpu.popFinishedKernel.2 > 0
  · rw [if_pos hu] at h
    cases hi : m.gridIdToStream m.gpu.popFinishedKernel.2 with
    | none =>
      rw [hi] at h
      cases h
    | some i =>
      simp only [hi] at h
      cases hops : (m.stream i).operations with
      | nil =>
        rw [hops] at h
        cases h
      | cons op rest =>
        simp only [hops] at h
        cases hk : op.kernel with
        | none =>
          rw [hk] at h
          cases h
        | some k =>
          simp only [hk] at h
          obtain ⟨_, heq, h⟩ := bind_eq_ok.mp h
          obtain ⟨m₁, hm₁, h⟩ := bind_eq_ok.mp h
          obtain ⟨op', rest', hops', hp, rfl⟩ := recordNextDone_eq_ok.mp hm₁
          cases hops.symm.trans hops'
          cases h
          have huid := assert_eq_ok.mp heq
          rw [popFinishedKernel_kernels] at huid
          exact .kernel rfl hu hi hops hk huid hp
  · rw [if_neg hu] at h
    cases h
    exact .nothing (Nat.eq_zero_of_not_pos hu)

/-! ## Serving a stream -/

/-- The front operation of the stream whose turn it is has been taken. -/
def take (m : Manager n) (i : StreamId n) (op : StreamOperation n)
    (rest : List (StreamOperation n)) : Manager n :=
  (m.keepService.setStream i ⟨op :: rest, true⟩).log i (.taken op)

/-- The kernel of the front operation has been noted for when it finishes. -/
def note (m : Manager n) (i : StreamId n) (k : KernelPtr) : Manager n :=
  { m with gridIdToStream := update m.gridIdToStream (m.gpu.kernels k).uid (some i) }

/-- In every queue are operations of this stream that are still to be done. -/
structure Formed (m : Manager n) : Prop where
  stream : ∀ i, ∀ op ∈ (m.stream i).operations, op.stream = some i
  queued : ∀ i, ∀ op ∈ (m.stream i).operations, op.done = false ∧ op.isNoop = false

inductive Serves (cfg : Config) (m : Manager n) : Manager n → Prop
  | nothing (ht : m.turn = none) : Serves cfg m m.keepService
  | copy {i op rest} (ht : m.turn = some i) (hops : (m.stream i).operations = op :: rest)
      (hk : op.kernel = none) :
      Serves cfg m (((m.take i op rest).log i (.performed op)).dropFront i op rest)
  | launch {i op rest k g} (ht : m.turn = some i) (hops : (m.stream i).operations = op :: rest)
      (hk : op.kernel = some k) (hroom : m.gpu.canStartKernel = true)
      (hg : m.gpu.launch cfg.gpu k = .ok g) :
      Serves cfg m ({ (m.take i op rest).note i k with gpu := g }.log i (.performed op))
  | lost {i op rest k} (ht : m.turn = some i) (hops : (m.stream i).operations = op :: rest)
      (hk : op.kernel = some k) (hroom : m.gpu.canStartKernel = false) :
      Serves cfg m ((m.take i op rest).note i k)

variable {rest : List (StreamOperation n)}

variable {op : StreamOperation n}

theorem next_eq (hops : (m.stream i).operations = op :: rest) :
    m.keepService.next i = match op.kernel with
      | some k => ((m.take i op rest).note i k, op)
      | none => (m.take i op rest, op) := by
  unfold next
  have h : (m.keepService.stream i).operations = op :: rest := hops
  rw [h]
  dsimp only
  cases op.kernel with
  | none => rfl
  | some k => rfl

theorem serve_ok (hf : m.Formed) (h : m.front.1.doOperation cfg m.front.2 = .ok m') : m.Serves cfg m' := by
  rw [front_eq] at h
  cases ht : m.turn with
  | none =>
    rw [ht] at h
    cases h
    exact .nothing ht
  | some i =>
    rw [ht] at h
    obtain ⟨hp, op, rest, hops⟩ := exists_of_idle (idle_of_turn ht)
    have hmem : op ∈ (m.stream i).operations := hops ▸ List.mem_cons_self
    have hs := hf.stream i op hmem
    obtain ⟨hd, hn⟩ := hf.queued i op hmem
    simp only [next_eq hops] at h
    cases hk : op.kernel with
    | none =>
      simp only [hk, doOperation, hn, hs, hd, assert_pos, ok_bind, Bool.false_eq_true, if_false] at h
      obtain ⟨op', rest', hops', -, rfl⟩ := recordNextDone_eq_ok.mp h
      have htake : (((m.take i op rest).log i (.performed op)).stream i).operations = op :: rest := by
        show (update m.stream i ⟨op :: rest, true⟩ i).operations = _
        rw [update_self]
      cases htake.symm.trans hops'
      exact .copy ht hops hk
    | some k =>
      simp only [hk, doOperation, hn, hs, hd, assert_pos, ok_bind, Bool.false_eq_true, if_false] at h
      cases hroom : m.gpu.canStartKernel with
      | false =>
        have hroom' : ((m.take i op rest).note i k).gpu.canStartKernel = false := hroom
        rw [hroom'] at h
        cases h
        exact .lost ht hops hk hroom
      | true =>
        have hroom' : ((m.take i op rest).note i k).gpu.canStartKernel = true := hroom
        rw [hroom', if_pos rfl] at h
        obtain ⟨g, hg, h⟩ := bind_eq_ok.mp h
        cases h
        exact .launch ht hops hk hroom (mapError_eq_ok.mp hg)

theorem operation_ok (h : m.operation cfg = .ok m') :
    ∃ m₁, m.checkFinishedKernel = .ok m₁ ∧ m₁.front.1.doOperation cfg m₁.front.2 = .ok m' :=
  bind_eq_ok.mp h

/-! ## Operations stay well formed -/

/-- The operation that a host is about to push. -/
def hostOps : Host n → List (StreamOperation n)
  | .blocked op | .ready op => [op]
  | _ => []

/-- The operations of the queues and of the hosts are still to be done. -/
structure Sound (m : Manager n) : Prop extends m.Formed where
  hosts : ∀ h, ∀ op ∈ hostOps (m.host h), op.done = false ∧ op.isNoop = false

theorem stream_setStream (s : CuStream n) (i j : StreamId n) :
    (m.setStream i s).stream j = if j = i then s else m.stream j := update_apply ..

theorem stream_take (j : StreamId n) :
    (m.take i op rest).stream j = if j = i then ⟨op :: rest, true⟩ else m.stream j :=
  update_apply ..

theorem stream_dropFront (j : StreamId n) :
    (m.dropFront i op rest).stream j = if j = i then ⟨rest, false⟩ else m.stream j :=
  update_apply ..

theorem operations_take
    (hops : (m.stream i).operations = op :: rest) (j : StreamId n) :
    ((m.take i op rest).stream j).operations = (m.stream j).operations := by
  rw [stream_take]
  split
  · next hj => rw [hj, hops]
  · rfl

theorem dropFront_subset
    (hops : (m.stream i).operations = op :: rest) (j : StreamId n) :
    ((m.dropFront i op rest).stream j).operations ⊆ (m.stream j).operations := by
  rw [stream_dropFront]
  split
  · next hj =>
    rw [hj, hops]
    exact List.subset_cons_self op rest
  · exact List.Subset.refl _

theorem Finishes.subset (h : m.Finishes m') (j : StreamId n) :
    (m'.stream j).operations ⊆ (m.stream j).operations := by
  cases h with
  | nothing => exact List.Subset.refl _
  | kernel huid hpos hi hops hk heq hbusy =>
    apply dropFront_subset
    exact hops

theorem Serves.subset (h : m.Serves cfg m') (j : StreamId n) :
    (m'.stream j).operations ⊆ (m.stream j).operations := by
  cases h with
  | nothing => exact List.Subset.refl _
  | @copy i op rest ht hops hk =>
    rw [← operations_take hops j]
    apply dropFront_subset
    exact (operations_take hops i).trans hops
  | launch ht hops hk hroom hg => exact fun op hop => operations_take hops j ▸ hop
  | lost ht hops hk hroom => exact fun op hop => operations_take hops j ▸ hop

theorem Finishes.host (h : m.Finishes m') : m'.host = m.host := by
  cases h <;> rfl

theorem Serves.host (h : m.Serves cfg m') : m'.host = m.host := by
  cases h <;> rfl

theorem Sound.shrink (h : m.Sound)
    (hs : ∀ j, (m'.stream j).operations ⊆ (m.stream j).operations)
    (hh : m'.host = m.host) : m'.Sound where
  stream j op hop := h.stream j op (hs j hop)
  queued j op hop := h.queued j op (hs j hop)
  hosts x := hh ▸ h.hosts x

theorem Sound.setHost (h : m.Sound) {y : Host n}
    (hy : ∀ op ∈ hostOps y, op.done = false ∧ op.isNoop = false) : (m.setHost x y).Sound where
  stream := h.stream
  queued := h.queued
  hosts j op hop := by
    have hop : op ∈ hostOps (update m.host x y j) := hop
    by_cases hj : j = x
    · rw [hj, update_self] at hop
      exact hy op hop
    · rw [update_of_ne hj] at hop
      exact h.hosts j op hop

theorem construct_spec (m : Manager n) (stream : Option (StreamId n)) (req : Request) :
    (m.construct stream req).2.done = false ∧ (m.construct stream req).2.isNoop = false ∧
      (m.construct stream req).1 = { m with gpu := (m.construct stream req).1.gpu } := by
  cases req <;> exact ⟨rfl, rfl, rfl⟩

theorem Sound.call (h : m.Sound) (x : Nat) (stream : Option (Fin n)) (req : Request) :
    (m.call cfg x stream req).Sound := by
  obtain ⟨hdone, hnoop, hm⟩ := construct_spec m (stream.map .created) req
  have hsound : (m.construct (stream.map .created) req).1.Sound := by
    rw [hm]
    exact h.shrink (fun _ => List.Subset.refl _) rfl
  apply hsound.setHost
  intro op hop
  have heq : op = (m.construct (stream.map .created) req).2 := by
    split at hop <;> exact List.mem_singleton.mp hop
  exact heq ▸ ⟨hdone, hnoop⟩

/-- The operation as `push` puts it into a queue. -/
def stamped (m : Manager n) (i : StreamId n) (op : StreamOperation n) : StreamOperation n :=
  { op with stream := some i, serial := m.numPushed }

theorem mem_push {b : StreamOperation n} {j : StreamId n}
    (hb : b ∈ ((m.setStream i ((m.stream i).push op)).stream j).operations) :
    b ∈ (m.stream j).operations ∨ j = i ∧ b = op := by
  rw [stream_setStream] at hb
  split at hb
  · next hj =>
    rcases List.mem_append.mp hb with hb | hb
    · exact .inl (hj ▸ hb)
    · exact .inr ⟨hj, List.mem_singleton.mp hb⟩
  · exact .inl hb

theorem Sound.enqueue (h : m.Sound) (hx : m.host x = .ready op) : (m.enqueue cfg x op).Sound := by
  obtain ⟨hdone, hnoop⟩ := h.hosts x op (by rw [hx]; exact List.mem_cons_self)
  have hpush : (m.setStream (target cfg op) ((m.stream (target cfg op)).push
      (m.stamped (target cfg op) op))).Sound := {
    stream := fun j b hb => by
      rcases mem_push hb with hb | ⟨rfl, rfl⟩
      · exact h.stream j b hb
      · rfl
    queued := fun j b hb => by
      rcases mem_push hb with hb | ⟨rfl, rfl⟩
      · exact h.queued j b hb
      · exact ⟨hdone, hnoop⟩
    hosts := h.hosts }
  unfold Manager.enqueue
  apply Sound.setHost
  · exact ⟨⟨hpush.stream, hpush.queued⟩, hpush.hosts⟩
  · intro b hb
    split at hb <;> cases hb

theorem Sound.host (h : m.Sound) (hm : hostStep cfg m x = some m') : m'.Sound := by
  unfold hostStep at hm
  cases hx : m.host x with
  | idle =>
    rw [hx] at hm
    cases hm
  | blocked op =>
    rw [hx] at hm
    cases hm
    apply h.setHost
    intro b hb
    refine h.hosts x b ?_
    rw [hx]
    split at hb <;> exact hb
  | ready op =>
    rw [hx] at hm
    cases hm
    exact h.enqueue hx
  | draining next result =>
    rw [hx] at hm
    cases hm
    apply h.setHost
    intro b hb
    split at hb
    · cases hb
    · split at hb <;> cases hb

theorem Sound.init : (Manager.init cfg : Manager n).Sound where
  stream _ _ hop := by cases hop
  queued _ _ hop := by cases hop
  hosts _ _ hop := by cases hop

theorem Sound.step (h : m.Sound) {a : Act n} (hm : (machine n cfg).step m a = some (.ok m')) : m'.Sound := by
  cases a with
  | call x stream req =>
    simp only [machine] at hm
    split at hm
    · cases hm
      exact h.call x stream req
    · cases hm
  | host x =>
    obtain ⟨m₁, h₁, heq⟩ := Option.map_eq_some_iff.mp hm
    cases heq
    exact h.host h₁
  | operation =>
    obtain ⟨m₁, h₁, h₂⟩ := operation_ok (Option.some.inj hm)
    have hfin := checkFinishedKernel_ok h₁
    have hsound := h.shrink hfin.subset hfin.host
    have hserve := serve_ok hsound.toFormed h₂
    exact hsound.shrink hserve.subset hserve.host
  | bind k | issue k =>
    simp only [machine] at hm
    split at hm
    · cases hm
      exact h.shrink (fun _ => List.Subset.refl _) rfl
    · cases hm
  | release k =>
    simp only [machine] at hm
    split at hm
    · obtain ⟨g, -, rfl⟩ := map_eq_ok.mp (Option.some.inj hm)
      exact h.shrink (fun _ => List.Subset.refl _) rfl
    · cases hm

end GpgpuSimRuby.Streams.Manager
