import GpgpuSimRuby.Streams.Turns

/-!
# Stream zero as a barrier

`push` waits until the other streams are empty before it puts an operation in stream zero, and `front`
serves stream zero without the others once it has begun to. In between nothing is locked: another host
can push to a stream after the test and before the operation is in the queue, or after that and before
`front` has raised `m_service_stream_zero`.
-/

namespace GpgpuSimRuby.Streams

open Library Gpu

variable {n : Nat}

/-- One of the two streams is stream zero and the other is not. -/
def Across (i j : StreamId n) : Prop := (i = .zero ∧ j ≠ .zero) ∨ (i ≠ .zero ∧ j = .zero)

instance (i j : StreamId n) : Decidable (Across i j) := inferInstanceAs (Decidable (_ ∨ _))

/-- Whenever an operation was taken, the operations that had been pushed before it to the other side of
stream zero were completed. -/
def Barrier : List (StreamId n × QueueEvent (StreamOperation n)) → Prop
  | [] => True
  | (i, e) :: t => Barrier t ∧ ∀ op, e = .taken op → ∀ j earlier, Across i j →
      (j, .pushed earlier) ∈ t → earlier.serial < op.serial → (j, .completed earlier) ∈ t

theorem Barrier.cons {t : List (StreamId n × QueueEvent (StreamOperation n))} {i : StreamId n}
    {e : QueueEvent (StreamOperation n)} (h : Barrier t) (he : ∀ op, e ≠ .taken op) : Barrier ((i, e) :: t) :=
  ⟨h, fun op heq => absurd heq (he op)⟩

namespace Manager

variable (cfg : Config) (m : Manager n)

/-- An operation enters stream zero only when the other streams are empty or stream zero is not yet
served, and another stream only when stream zero is empty or already served. -/
def Orderly : Act n → Prop
  | .host h =>
    match m.host h with
    | .ready op =>
      if target cfg op = .zero then m.concurrentStreamsEmpty = true ∨ m.serviceStreamZero = false
      else (m.stream .zero).empty = true ∨ m.serviceStreamZero = true
    | _ => True
  | _ => True

instance : ∀ a, Decidable (m.Orderly cfg a)
  | .host h => by
    unfold Orderly
    dsimp only
    split <;> infer_instance
  | .call _ _ _ | .operation | .bind _ | .issue _ | .release _ => .isTrue trivial

/-! ## What every run keeps -/

/-- The operations of the queues are in the order in which they will be taken: those of stream zero
first while it is served, and else last. -/
structure Sorted : Prop where
  last : m.serviceStreamZero = false → ∀ z ∈ (m.stream .zero).operations, ∀ i,
    ∀ a ∈ (m.stream (.created i)).operations, a.serial < z.serial
  first : m.serviceStreamZero = true → ∀ z ∈ (m.stream .zero).operations, ∀ i,
    ∀ a ∈ (m.stream (.created i)).operations, z.serial < a.serial

structure BarrierInv : Prop where
  noted : ∀ i op, (i, .pushed op) ∈ m.trace →
    op ∈ (m.stream i).operations ∨ (i, .completed op) ∈ m.trace
  serials : ∀ i, ∀ op ∈ (m.stream i).operations, op.serial < m.numPushed
  sorted : m.Sorted
  barrier : Barrier m.trace

variable {cfg m} {m' : Manager n} {i : StreamId n} {op : StreamOperation n}
  {rest : List (StreamOperation n)}

theorem concurrentStreamsEmpty_iff :
    m.concurrentStreamsEmpty = true ↔ ∀ i, (m.stream (.created i)).operations = [] := by
  simp [concurrentStreamsEmpty, CuStream.empty]

theorem empty_iff {s : CuStream n} : s.empty = true ↔ s.operations = [] := List.isEmpty_iff

theorem Sorted.shrink (h : m.Sorted) (hf : m'.serviceStreamZero = m.serviceStreamZero)
    (hsub : ∀ i, (m'.stream i).operations ⊆ (m.stream i).operations) : m'.Sorted where
  last hm z hz i a ha := h.last (hf ▸ hm) z (hsub _ hz) i a (hsub _ ha)
  first hm z hz i a ha := h.first (hf ▸ hm) z (hsub _ hz) i a (hsub _ ha)

theorem Sorted.keepService (h : m.Sorted) : m.keepService.Sorted where
  last hf z hz i a ha := by
    have hne : (m.stream .zero).empty = false := by
      rw [CuStream.empty, List.isEmpty_eq_false_iff]
      exact List.ne_nil_of_mem hz
    have hf : (m.zeroInService && !(m.stream .zero).empty) = false := hf
    rw [hne, Bool.not_false, Bool.and_true] at hf
    exact h.last (Bool.or_eq_false_iff.mp hf).1 z hz i a ha
  first hf z hz i a ha := by
    have hf : (m.zeroInService && !(m.stream .zero).empty) = true := hf
    rcases Bool.or_eq_true_iff.mp (Bool.and_eq_true_iff.mp hf).1 with hs | hc
    · exact h.first hs z hz i a ha
    · have hnil : (m.stream (.created i)).operations = [] := concurrentStreamsEmpty_iff.mp hc i
      have ha : a ∈ (m.stream (.created i)).operations := ha
      rw [hnil] at ha
      cases ha

theorem Sorted.turn (h : m.Sorted) (ht : m.turn = some i)
    (hop : op ∈ (m.stream i).operations) {j : StreamId n} (hij : Across i j)
    {other : StreamOperation n} (ho : other ∈ (m.stream j).operations) : op.serial < other.serial := by
  unfold Manager.turn at ht
  split at ht
  · next hz =>
    split at ht
    · cases ht
      obtain ⟨-, hj⟩ := hij.resolve_right fun hc => hc.1 rfl
      cases j with
      | zero => exact absurd rfl hj
      | created j =>
        rcases Bool.or_eq_true_iff.mp hz with hs | hc
        · exact h.first hs op hop j other ho
        · rw [concurrentStreamsEmpty_iff.mp hc j] at ho
          cases ho
    · cases ht
  · next hz =>
    obtain ⟨k, -, rfl⟩ := Option.map_eq_some_iff.mp ht
    obtain ⟨-, rfl⟩ := hij.resolve_left fun hc => by cases hc.1
    rw [Bool.not_eq_true] at hz
    exact h.last (Bool.or_eq_false_iff.mp hz).1 other ho k op hop

theorem Sorted.push (h : m.Sorted) (hser : ∀ i, ∀ op ∈ (m.stream i).operations, op.serial < m.numPushed)
    (hlast : op.serial = m.numPushed)
    (hz : i = .zero → m.concurrentStreamsEmpty = true ∨ m.serviceStreamZero = false)
    (hc : i ≠ .zero → (m.stream .zero).empty = true ∨ m.serviceStreamZero = true) :
    (m.setStream i ((m.stream i).push op)).Sorted := by
  constructor
  · intro hf z hzm k a ha
    have hflag : m.serviceStreamZero = false := hf
    rcases mem_push hzm with hz₀ | ⟨rfl, rfl⟩ <;> rcases mem_push ha with ha₀ | ⟨hk, rfl⟩
    · exact h.last hf z hz₀ k a ha₀
    · rcases hc (hk ▸ by rintro ⟨⟩) with hempty | hserved
      · rw [empty_iff.mp hempty] at hz₀
        cases hz₀
      · rw [hflag] at hserved
        cases hserved
    · rw [hlast]
      exact hser _ a ha₀
    · cases hk
  · intro hf z hzm k a ha
    have hflag : m.serviceStreamZero = true := hf
    rcases mem_push hzm with hz₀ | ⟨rfl, rfl⟩ <;> rcases mem_push ha with ha₀ | ⟨hk, rfl⟩
    · exact h.first hf z hz₀ k a ha₀
    · rw [hlast]
      exact hser _ z hz₀
    · rcases hz rfl with hempty | hidle
      · rw [concurrentStreamsEmpty_iff.mp hempty k] at ha₀
        cases ha₀
      · rw [hflag] at hidle
        cases hidle
    · cases hk

/-! ## One step -/

section

variable (h : m.BarrierInv)
include h

theorem BarrierInv.congr (hs : m'.stream = m.stream) (hf : m'.serviceStreamZero = m.serviceStreamZero)
    (hn : m'.numPushed = m.numPushed) (ht : m'.trace = m.trace) : m'.BarrierInv where
  noted := by
    rw [hs, ht]
    exact h.noted
  serials := by
    rw [hs, hn]
    exact h.serials
  sorted := by
    apply h.sorted.shrink hf
    intro i
    rw [hs]
    exact List.Subset.refl _
  barrier := ht ▸ h.barrier

theorem BarrierInv.performed : (m.log i (.performed op)).BarrierInv where
  noted j b hb := by
    rcases List.mem_cons.mp hb with heq | hb
    · cases heq
    · exact (h.noted j b hb).imp_right (List.mem_cons_of_mem _)
  serials := h.serials
  sorted := ⟨h.sorted.last, h.sorted.first⟩
  barrier := h.barrier.cons fun _ heq => by cases heq

theorem BarrierInv.dropFront (hops : (m.stream i).operations = op :: rest) :
    (m.dropFront i op rest).BarrierInv where
  noted j b hb := by
    rcases List.mem_cons.mp hb with heq | hb
    · cases heq
    · rcases h.noted j b hb with hin | hdone
      · rw [stream_dropFront]
        split
        · next hj =>
          rw [hj, hops] at hin
          rcases List.mem_cons.mp hin with rfl | hin
          · exact .inr (hj ▸ List.mem_cons_self)
          · exact .inl hin
        · exact .inl hin
      · exact .inr (List.mem_cons_of_mem _ hdone)
  serials j b hb := h.serials j b (dropFront_subset hops j hb)
  sorted := h.sorted.shrink rfl (dropFront_subset hops)
  barrier := h.barrier.cons fun _ heq => by cases heq

theorem BarrierInv.take (ht : m.turn = some i)
    (hops : (m.stream i).operations = op :: rest) : (m.take i op rest).BarrierInv where
  noted j b hb := by
    rcases List.mem_cons.mp hb with heq | hb
    · cases heq
    · rw [operations_take hops j]
      exact (h.noted j b hb).imp_right (List.mem_cons_of_mem _)
  serials j b hb := h.serials j b (operations_take hops j ▸ hb)
  sorted := h.sorted.keepService.shrink rfl fun j x hx => operations_take hops j ▸ hx
  barrier := by
    refine ⟨h.barrier, fun x hx j earlier hij hpush hlt => ?_⟩
    cases hx
    refine (h.noted j earlier hpush).resolve_left fun hin => ?_
    have hmem : op ∈ (m.stream i).operations := hops ▸ List.mem_cons_self
    exact absurd (h.sorted.turn ht hmem hij hin) (Nat.lt_asymm hlt)

theorem BarrierInv.finishes (hm : m.Finishes m') : m'.BarrierInv := by
  have hpopped : m.popped.BarrierInv := h.congr rfl rfl rfl rfl
  cases hm with
  | nothing => exact hpopped
  | kernel huid hpos hi hops hk heq hbusy =>
    have hdrop := hpopped.dropFront hops
    exact hdrop.congr rfl rfl rfl rfl

theorem BarrierInv.serves (hm : m.Serves cfg m') : m'.BarrierInv := by
  cases hm with
  | nothing ht => exact ⟨h.noted, h.serials, h.sorted.keepService, h.barrier⟩
  | @copy i op rest ht hops hk =>
    apply (h.take ht hops).performed.dropFront
    exact (operations_take hops i).trans hops
  | launch ht hops hk hroom hg =>
    apply BarrierInv.performed
    exact (h.take ht hops).congr rfl rfl rfl rfl
  | lost ht hops hk hroom => exact (h.take ht hops).congr rfl rfl rfl rfl

theorem BarrierInv.enqueue {x : Nat} (hx : m.host x = .ready op)
    (hok : m.Orderly cfg (.host x)) : (m.enqueue cfg x op).BarrierInv := by
  simp only [Orderly, hx] at hok
  generalize hi : target cfg op = i at hok
  have hlast : (m.stamped i op).serial = m.numPushed := rfl
  have hsorted := h.sorted.push h.serials hlast (fun hz => by rwa [if_pos hz] at hok)
    fun hz => by rwa [if_neg hz] at hok
  have hpush : ((({ m with numPushed := m.numPushed + 1 } : Manager n).setStream i
      ((m.stream i).push (m.stamped i op))).log i (.pushed (m.stamped i op))).BarrierInv := {
    noted := fun j b hb => by
      show b ∈ ((m.setStream i _).stream j).operations ∨ _
      rw [stream_setStream]
      rcases List.mem_cons.mp hb with heq | hb
      · cases heq
        left
        rw [if_pos rfl]
        exact List.mem_append_right _ (List.mem_singleton.mpr rfl)
      · refine (h.noted j b hb).imp (fun hin => ?_) (List.mem_cons_of_mem _)
        split
        · next hj => exact List.mem_append_left _ (hj ▸ hin)
        · exact hin
    serials := fun j b hb => by
      have hb : b ∈ ((m.setStream i ((m.stream i).push (m.stamped i op))).stream j).operations := hb
      rcases mem_push hb with hb | ⟨rfl, rfl⟩
      · exact Nat.lt_succ_of_lt (h.serials j b hb)
      · exact Nat.lt_succ_self _
    sorted := ⟨hsorted.last, hsorted.first⟩
    barrier := h.barrier.cons fun _ heq => by cases heq }
  unfold Manager.enqueue
  rw [hi]
  exact hpush.congr rfl rfl rfl rfl

theorem BarrierInv.host {x : Nat} (hok : m.Orderly cfg (.host x))
    (hm : hostStep cfg m x = some m') : m'.BarrierInv := by
  unfold hostStep at hm
  cases hx : m.host x with
  | idle =>
    rw [hx] at hm
    cases hm
  | blocked op | draining next result =>
    rw [hx] at hm
    cases hm
    exact h.congr rfl rfl rfl rfl
  | ready op =>
    rw [hx] at hm
    cases hm
    exact h.enqueue hx hok

end

theorem BarrierInv.init : (Manager.init cfg : Manager n).BarrierInv where
  noted _ _ hop := by cases hop
  serials _ _ hop := by cases hop
  sorted := by
    constructor
    · intro _ z hz
      cases hz
    · intro _ z hz
      cases hz
  barrier := trivial

theorem BarrierInv.step (h : m.BarrierInv) (hsound : m.Sound) {a : Act n} (hok : m.Orderly cfg a)
    (hm : (machine n cfg).step m a = some (.ok m')) : m'.BarrierInv := by
  cases a with
  | call x stream req =>
    simp only [machine] at hm
    split at hm
    · cases hm
      obtain ⟨-, -, hc⟩ := construct_spec m (stream.map .created) req
      unfold Manager.call
      dsimp only
      rw [hc]
      exact h.congr rfl rfl rfl rfl
    · cases hm
  | host x =>
    obtain ⟨m₁, h₁, heq⟩ := Option.map_eq_some_iff.mp hm
    cases heq
    exact h.host hok h₁
  | operation =>
    obtain ⟨m₁, h₁, h₂⟩ := operation_ok (Option.some.inj hm)
    have hfin := checkFinishedKernel_ok h₁
    have hformed := (hsound.shrink hfin.subset hfin.host).toFormed
    exact (h.finishes hfin).serves (serve_ok hformed h₂)
  | bind k | issue k =>
    simp only [machine] at hm
    split at hm
    · cases hm
      exact h.congr rfl rfl rfl rfl
    · cases hm
  | release k =>
    simp only [machine] at hm
    split at hm
    · obtain ⟨g, -, rfl⟩ := map_eq_ok.mp (Option.some.inj hm)
      exact h.congr rfl rfl rfl rfl
    · cases hm

end Manager

/-- **Stream zero is a barrier** in every run in which an operation enters stream zero only when the
other streams are empty or stream zero is not yet served, and another stream only when stream zero is
empty or already served. -/
theorem barrier_of_orderly {cfg : Config} {m : Manager n}
    (h : (machine n cfg).ReachableUnder (Manager.Orderly cfg) m) : Barrier m.trace := by
  have hinv : m.Sound ∧ m.BarrierInv := by
    apply h.invariant
    · exact ⟨Manager.Sound.init, Manager.BarrierInv.init⟩
    · intro m a m' hm hok hstep
      exact ⟨hm.1.step hstep, hm.2.step hm.1 hok hstep⟩
  exact hinv.2.barrier

/-- An event is pushed to stream zero and done; then a host copies in a stream of its own. -/
theorem barrier_of_orderly_copy : ∃ m : Manager 1,
    (machine 1 oneSlot).run [.call 0 none .event, .host 0, .host 0, .operation,
      .call 1 (some 0) .memcpyHostToDevice, .host 1, .operation, .operation] (.init oneSlot) = some m ∧
    m.trace.length = 8 ∧ Barrier m.trace := by
  refine (machine 1 oneSlot).exists_run_of (Manager.Orderly oneSlot) (fun m => m.trace.length) (y := 8)
    (by decide) (by decide) fun m hreach hlen => ?_
  exact ⟨hlen, barrier_of_orderly hreach⟩

/-- **Stream zero is not a barrier**: a host pushes an event to stream zero, and a copy that another
host pushes afterwards is taken first. -/
theorem not_barrier : ¬ ∀ (n : Nat) (cfg : Config) (m : Manager n), (machine n cfg).Reachable m →
    Barrier m.trace := by
  intro hall
  obtain ⟨m, -, hreach, htrace⟩ := (machine 1 oneSlot).exists_reachable_of_run
    [.call 0 none .event, .host 0, .host 0, .call 1 (some 0) .memcpyHostToDevice, .host 1, .operation]
    Manager.trace
    (y := [(.created 0, .completed ⟨.memcpyHostToDevice, some (.created 0), false, 1⟩),
      (.created 0, .performed ⟨.memcpyHostToDevice, some (.created 0), false, 1⟩),
      (.created 0, .taken ⟨.memcpyHostToDevice, some (.created 0), false, 1⟩),
      (.created 0, .pushed ⟨.memcpyHostToDevice, some (.created 0), false, 1⟩),
      (.zero, .pushed ⟨.event, some .zero, false, 0⟩)]) (by decide)
  have hbar := hall 1 oneSlot m hreach
  rw [htrace] at hbar
  have hdone := hbar.1.1.2 _ rfl .zero ⟨.event, some .zero, false, 0⟩ (by decide) (by decide) (by decide)
  revert hdone
  decide

end GpgpuSimRuby.Streams
