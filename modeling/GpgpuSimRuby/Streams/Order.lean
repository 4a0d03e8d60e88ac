import GpgpuSimRuby.Streams.InService

/-!
# Every operation once and in its turn

`front` marks a stream busy and notes the uid of its kernel before `do_operation` asks the GPU for a
kernel slot. If there is none the launch is dropped, and the stream stays busy for ever. In the runs
in which a kernel's turn only comes while a slot is free, every operation is performed once and in
its turn.
-/

namespace GpgpuSimRuby.Streams

open Library Gpu QueueEvent Function

variable {n : Nat}

/-! ## What the property says -/

/-- What has happened to the operations of a stream. -/
def historyOf (i : StreamId n) (t : List (StreamId n × QueueEvent (StreamOperation n))) :
    List (QueueEvent (StreamOperation n)) :=
  t.filterMap fun e => if e.1 = i then some e.2 else none

namespace CuStream

variable (s : CuStream n)

/-- The kernel that a stream waits for. -/
def inService : Option KernelPtr :=
  if s.pending then s.operations.head?.bind StreamOperation.kernel else none

/-- The operations that have not started. -/
def waiting : List (StreamOperation n) := if s.pending then s.operations.tail else s.operations

end CuStream

namespace Manager

variable (cfg : Config) (m : Manager n)

/-- Each operation that was pushed to a stream has been performed, once and in the order of the
pushes, or waits behind those that have; it was taken when all before it were completed. A busy
stream waits for a kernel that the GPU runs or has just finished, and `m_grid_id_to_stream` holds
these kernels and no others. -/
structure Served : Prop where
  once : ∀ i, pushes (historyOf i m.trace) =
    performances (historyOf i m.trace) ++ (m.stream i).waiting
  launched : ∀ i, performances (historyOf i m.trace) = takes (historyOf i m.trace)
  inTurn : ∀ i, InTurn (historyOf i m.trace)
  busy : ∀ i, (m.stream i).pending = true → ∃ k, (m.stream i).inService = some k ∧
    (some k ∈ m.gpu.runningKernels ∨ (m.gpu.kernels k).uid ∈ m.gpu.finishedKernel)
  stream : ∀ u i, m.gridIdToStream u = some i → ∃ k, (m.stream i).inService = some k ∧
    (m.gpu.kernels k).uid = u
  grid : ∀ u, (∃ i, m.gridIdToStream u = some i) ↔
    (∃ k, some k ∈ m.gpu.runningKernels ∧ (m.gpu.kernels k).uid = u) ∨ u ∈ m.gpu.finishedKernel

/-- A launch's turn comes only while a kernel slot is free, and kernels have CTAs and uids of their
own. -/
def Room : Act n → Prop
  | .operation =>
    match m.checkFinishedKernel with
    | .ok m₁ => m₁.nextKernel = none ∨ m₁.gpu.canStartKernel = true
    | .error _ => True
  | .call _ _ (.kernelLaunch gridDim _) =>
    0 < gridDim.x ∧ 0 < gridDim.y ∧ 0 < gridDim.z ∧ m.gpu.numKernels + 1 < wordSize
  | _ => True

instance : ∀ a, Decidable (m.Room a)
  | .operation => by
    unfold Room
    dsimp only
    split <;> infer_instance
  | .call _ _ req => by
    unfold Room
    cases req <;> infer_instance
  | .host _ | .bind _ | .issue _ | .release _ => .isTrue trivial

/-! ## The invariant -/

def kernelsOf (ops : List (StreamOperation n)) : List KernelPtr :=
  ops.filterMap StreamOperation.kernel

/-- Kernels wait in the queue of a stream or in the hands of a host. -/
def place : StreamId n ⊕ Nat → List KernelPtr
  | .inl i => kernelsOf (m.stream i).operations
  | .inr h => kernelsOf (hostOps (m.host h))

def serving (i : StreamId n) : Option KernelPtr := (m.stream i).inService

structure OrderInv : Prop where
  ledger : ∀ i, Ledger (historyOf i m.trace) (m.stream i).operations (m.stream i).pending
  placed : Placed m.place m.gpu.numKernels
  fresh : ∀ l, ∀ k ∈ m.place l, (∀ i, m.serving i ≠ some k) →
    (m.gpu.kernels k).noMoreCtasToRun = false
  busy : ∀ i, (m.stream i).pending = true → ∃ k, m.serving i = some k
  live : Live m.serving m.gridIdToStream m.gpu
  next : m.gpu.nextUid = (m.gpu.numKernels + 1) % wordSize

variable {cfg m} {m' : Manager n} {i : StreamId n} {op : StreamOperation n}
  {rest : List (StreamOperation n)} {k : KernelPtr} {x : Nat} {e : Fault} {y : Host n}

theorem kernelsOf_cons_of_some (hk : op.kernel = some k) :
    kernelsOf (op :: rest) = k :: kernelsOf rest := List.filterMap_cons_some hk

theorem kernelsOf_cons_of_none (hk : op.kernel = none) : kernelsOf (op :: rest) = kernelsOf rest :=
  List.filterMap_cons_none hk

theorem serving_of_idle (hp : (m.stream i).pending = false) : m.serving i = none := by
  unfold serving CuStream.inService
  rw [hp]
  rfl

theorem exists_of_serving (h : m.serving i = some k) : (m.stream i).pending = true ∧
    ∃ op rest, (m.stream i).operations = op :: rest ∧ op.kernel = some k := by
  unfold serving CuStream.inService at h
  split at h
  · next hp =>
    refine ⟨hp, ?_⟩
    cases hops : (m.stream i).operations with
    | nil =>
      rw [hops] at h
      cases h
    | cons op rest =>
      rw [hops] at h
      exact ⟨op, rest, rfl, h⟩
  · cases h

theorem mem_place_of_serving (h : m.serving i = some k) : k ∈ m.place (.inl i) := by
  obtain ⟨-, op, rest, hops, hk⟩ := exists_of_serving h
  show k ∈ kernelsOf (m.stream i).operations
  rw [hops, kernelsOf_cons_of_some hk]
  exact List.mem_cons_self

theorem OrderInv.served (h : m.OrderInv) : m.Served where
  once i := (h.ledger i).pushes_eq
  launched i := (h.ledger i).performances
  inTurn i := (h.ledger i).inTurn
  busy i hp := by
    obtain ⟨k, hk⟩ := h.busy i hp
    exact ⟨k, hk, h.live.running i k hk⟩
  stream u i hu := (h.live.grid u i).mp hu
  grid u := by
    constructor
    · rintro ⟨i, hi⟩
      obtain ⟨k, hk, rfl⟩ := (h.live.grid u i).mp hi
      exact (h.live.running i k hk).imp_left fun hin => ⟨k, hin, rfl⟩
    · rintro (⟨k, hk, rfl⟩ | hu)
      · obtain ⟨i, hi⟩ := h.live.ofSlot k hk
        exact ⟨i, (h.live.grid _ i).mpr ⟨k, hi, rfl⟩⟩
      · obtain ⟨i, k, hk, hku⟩ := h.live.ofFinished u hu
        exact ⟨i, (h.live.grid u i).mpr ⟨k, hk, hku⟩⟩

/-! ## How the parts of the invariant move -/

theorem serving_update {s : CuStream n} (hs : m'.stream = update m.stream i s) :
    m'.serving = update m.serving i s.inService := by
  funext j
  unfold serving
  rw [hs, update_apply, update_apply]
  split <;> rfl

theorem ledger_update {s : CuStream n} (es : List (QueueEvent (StreamOperation n)))
    (h : ∀ j, Ledger (historyOf j m.trace) (m.stream j).operations (m.stream j).pending)
    (hs : m'.stream = update m.stream i s) (ht : m'.trace = es.map (i, ·) ++ m.trace)
    (hi : Ledger (es ++ historyOf i m.trace) s.operations s.pending) (j : StreamId n) :
    Ledger (historyOf j m'.trace) (m'.stream j).operations (m'.stream j).pending := by
  rw [hs, ht]
  by_cases hji : j = i
  · subst hji
    have hist : historyOf j (es.map (j, ·) ++ m.trace) = es ++ historyOf j m.trace := by
      simp [historyOf]
    rw [update_self, hist]
    exact hi
  · have hist : historyOf j (es.map (i, ·) ++ m.trace) = historyOf j m.trace := by
      simp [historyOf, Ne.symm hji]
    rw [update_of_ne hji, hist]
    exact h j

theorem busy_update {s : CuStream n} (h : ∀ j, (m.stream j).pending = true → ∃ k, m.serving j = some k)
    (hs : m'.stream = update m.stream i s)
    (hi : s.pending = true → ∃ k, s.inService = some k) (j : StreamId n)
    (hj : (m'.stream j).pending = true) : ∃ k, m'.serving j = some k := by
  rw [hs, update_apply] at hj
  rw [serving_update hs, update_apply]
  split at hj
  · next hji =>
    rw [if_pos hji]
    exact hi hj
  · next hji =>
    rw [if_neg hji]
    exact h j hj

theorem place_update {s : CuStream n} (hs : m'.stream = update m.stream i s)
    (hh : m'.host = m.host) (hsub : (kernelsOf s.operations).Sublist (kernelsOf (m.stream i).operations))
    (l : StreamId n ⊕ Nat) : (m'.place l).Sublist (m.place l) := by
  cases l with
  | inl j =>
    show (kernelsOf (m'.stream j).operations).Sublist (kernelsOf (m.stream j).operations)
    rw [hs, update_apply]
    split
    · next hj => exact hj ▸ hsub
    · exact List.Sublist.refl _
  | inr x =>
    show (kernelsOf (hostOps (m'.host x))).Sublist _
    rw [hh]
    exact List.Sublist.refl _

/-! ## A finished kernel leaves its stream -/

section

variable (h : m.OrderInv)
include h

theorem OrderInv.finish_uid {u : Nat} {us : List Nat}
    (hfin : m.gpu.finishedKernel = u :: us) : ∃ i k op rest, m.serving i = some k ∧
      (m.gpu.kernels k).uid = u ∧ 0 < u ∧ m.gridIdToStream u = some i ∧
      (m.stream i).operations = op :: rest ∧ op.kernel = some k ∧ (m.stream i).pending = true := by
  obtain ⟨i, k, hi, huid⟩ := h.live.ofFinished u (hfin ▸ List.mem_cons_self)
  obtain ⟨hp, op, rest, hops, hk⟩ := exists_of_serving hi
  exact ⟨i, k, op, rest, hi, huid, huid ▸ h.live.uid_pos hi, (h.live.grid u i).mpr ⟨k, hi, huid⟩,
    hops, hk, hp⟩

theorem OrderInv.checkFinishedKernel_ne_error : m.checkFinishedKernel ≠ .error e := by
  unfold checkFinishedKernel registerFinishedKernel
  cases hfin : m.gpu.finishedKernel with
  | nil =>
    intro herr
    rw [if_neg (by simp [GpgpuSim.popFinishedKernel, hfin])] at herr
    cases herr
  | cons u us =>
    obtain ⟨i, k, op, rest, hi, huid, hpos, hgrid, hops, hk, hp⟩ := h.finish_uid hfin
    simp [GpgpuSim.popFinishedKernel, hfin, hpos, hgrid, hops, hk, huid, recordNextDone,
      CuStream.recordNextDone, hp, pure, Except.pure]

theorem OrderInv.not_mem_rest (hi : m.serving i = some k)
    (hops : (m.stream i).operations = op :: rest) : k ∉ kernelsOf rest := by
  obtain ⟨-, op', rest', hops', hk⟩ := exists_of_serving hi
  cases hops.symm.trans hops'
  have hnodup : (kernelsOf (m.stream i).operations).Nodup := h.placed.nodup (.inl i)
  rw [hops, kernelsOf_cons_of_some hk] at hnodup
  exact (List.nodup_cons.mp hnodup).1

theorem OrderInv.complete {us : List Nat} (hi : m.serving i = some k)
    (hops : (m.stream i).operations = op :: rest)
    (hfin : m.gpu.finishedKernel = (m.gpu.kernels k).uid :: us)
    (hs : m'.stream = update m.stream i ⟨rest, false⟩) (hh : m'.host = m.host)
    (ht : m'.trace = (i, .completed op) :: m.trace)
    (hg : m'.gpu = { m.gpu with finishedKernel := us })
    (hgrid : m'.gridIdToStream = update m.gridIdToStream (m.gpu.kernels k).uid none) :
    m'.OrderInv := by
  obtain ⟨hp, op', rest', hops', hk⟩ := exists_of_serving hi
  cases hops.symm.trans hops'
  have hserving : m'.serving = update m.serving i none := serving_update hs
  have hplace := place_update hs hh (by
    rw [hops, kernelsOf_cons_of_some hk]
    exact List.sublist_cons_self k _)
  constructor
  · apply ledger_update [.completed op] h.ledger hs ht
    have hi := h.ledger i
    rw [hops, hp] at hi
    exact hi.complete
  · rw [hg]
    exact h.placed.sublist hplace
  · intro l k' hk' hnot
    rw [hg]
    refine h.fresh l k' ((hplace l).subset hk') fun j hj => ?_
    by_cases hji : j = i
    · subst hji
      cases hi.symm.trans hj
      have hl := h.placed.apart l (.inl j) k ((hplace l).subset hk') (mem_place_of_serving hi)
      subst hl
      have hrest : k ∈ kernelsOf (m'.stream j).operations := hk'
      rw [hs, update_self] at hrest
      exact h.not_mem_rest hi hops hrest
    · refine hnot j ?_
      rw [hserving, update_of_ne hji]
      exact hj
  · apply busy_update h.busy hs
    intro hfalse
    cases hfalse
  · rw [hserving, hgrid, hg]
    exact h.live.finish hfin hi
  · rw [hg]
    exact h.next

theorem OrderInv.finishes (hm : m.Finishes m') : m'.OrderInv := by
  cases hfin : m.gpu.finishedKernel with
  | nil =>
    have hpop : m.gpu.popFinishedKernel = (m.gpu, 0) := by simp [GpgpuSim.popFinishedKernel, hfin]
    cases hm with
    | nothing hz =>
      unfold popped
      rw [hpop]
      exact h
    | kernel huid hpos =>
      rw [hpop] at huid
      cases huid
      cases hpos
  | cons u us =>
    have hpop : m.gpu.popFinishedKernel = ({ m.gpu with finishedKernel := us }, u) := by
      simp [GpgpuSim.popFinishedKernel, hfin]
    obtain ⟨i, k, op, rest, hi, huid, hpos, hgrid, hops, hk, hp⟩ := h.finish_uid hfin
    cases hm with
    | nothing hz =>
      rw [hpop] at hz
      exact absurd hz hpos.ne'
    | @kernel u' i' op' rest' k' hu' _ hi' hops' hk' heq hbusy =>
      rw [hpop] at hu'
      cases hu'
      cases hgrid.symm.trans hi'
      cases hops.symm.trans hops'
      subst huid
      exact h.complete hi hops hfin rfl rfl rfl (congrArg Prod.fst hpop) rfl

/-! ## A stream is served -/

theorem OrderInv.keepService : m.keepService.OrderInv :=
  ⟨h.ledger, h.placed, h.fresh, h.busy, h.live, h.next⟩

theorem OrderInv.copy (ht : m.turn = some i)
    (hops : (m.stream i).operations = op :: rest) (hk : op.kernel = none) :
    (((m.take i op rest).log i (.performed op)).dropFront i op rest).OrderInv := by
  obtain ⟨hp, -⟩ := exists_of_idle (idle_of_turn ht)
  have hs : (((m.take i op rest).log i (.performed op)).dropFront i op rest).stream =
      update m.stream i ⟨rest, false⟩ := update_idem ..
  have hnone : m.serving i = none := serving_of_idle hp
  have hserving : (((m.take i op rest).log i (.performed op)).dropFront i op rest).serving = m.serving := by
    rw [serving_update hs]
    exact Function.update_eq_self_iff.mpr hnone.symm
  have hplace := place_update hs rfl (by rw [hops, kernelsOf_cons_of_none hk])
  constructor
  · apply ledger_update [.completed op, .performed op, .taken op] h.ledger hs rfl
    have hi := h.ledger i
    rw [hops, hp] at hi
    exact hi.serve.complete
  · exact h.placed.sublist hplace
  · intro l k' hk' hnot
    rw [hserving] at hnot
    exact h.fresh l k' ((hplace l).subset hk') hnot
  · apply busy_update h.busy hs
    intro hfalse
    cases hfalse
  · rw [hserving]
    exact h.live
  · exact h.next

theorem OrderInv.launch (ht : m.turn = some i)
    (hops : (m.stream i).operations = op :: rest) (hk : op.kernel = some k) {g : GpgpuSim}
    (hg : m.gpu.launch cfg.gpu k = .ok g) :
    ({ (m.take i op rest).note i k with gpu := g }.log i (.performed op)).OrderInv := by
  obtain ⟨hp, -⟩ := exists_of_idle (idle_of_turn ht)
  set m' : Manager n := { (m.take i op rest).note i k with gpu := g }.log i (.performed op) with hm'
  have hs : m'.stream = update m.stream i ⟨op :: rest, true⟩ := rfl
  have hserving : m'.serving = update m.serving i (some k) := by
    rw [serving_update hs]
    exact congrArg _ hk
  have hmem : k ∈ m.place (.inl i) := by
    show k ∈ kernelsOf (m.stream i).operations
    rw [hops, kernelsOf_cons_of_some hk]
    exact List.mem_cons_self
  have hnew (j) : m.serving j ≠ some k := by
    intro hj
    cases h.placed.apart (.inl i) (.inl j) k hmem (mem_place_of_serving hj)
    rw [serving_of_idle hp] at hj
    cases hj
  have hdone : (m.gpu.kernels k).done = false := by
    rw [KernelInfo.done, h.fresh _ k hmem hnew]
    rfl
  have hlive := h.live.launch (serving_of_idle hp) hnew (h.placed.made _ k hmem) hdone hg
  have hplace := place_update hs rfl (by rw [hops])
  obtain ⟨-, _, _, -, -, rfl⟩ := GpgpuSim.launch_ok hg
  constructor
  · apply ledger_update [.performed op, .taken op] h.ledger hs rfl
    have hi := h.ledger i
    rw [hops, hp] at hi
    exact hi.serve
  · exact h.placed.sublist hplace
  · intro l k' hk' hnot
    refine h.fresh l k' ((hplace l).subset hk') fun j hj => hnot j ?_
    rw [hserving, update_apply]
    split
    · next hji =>
      rw [hji, serving_of_idle hp] at hj
      cases hj
    · exact hj
  · apply busy_update h.busy hs
    intro _
    exact ⟨k, hk⟩
  · rw [hserving]
    exact hlive
  · exact h.next

end

theorem nextKernel_eq (ht : m.turn = some i) (hops : (m.stream i).operations = op :: rest) :
    m.nextKernel = op.kernel := by
  unfold nextKernel
  rw [ht]
  show (m.stream i).operations.head?.bind StreamOperation.kernel = _
  rw [hops]
  rfl

theorem OrderInv.serves (h : m.OrderInv) (hm : m.Serves cfg m')
    (hroom : m.nextKernel = none ∨ m.gpu.canStartKernel = true) : m'.OrderInv := by
  cases hm with
  | nothing ht => exact h.keepService
  | copy ht hops hk => exact h.copy ht hops hk
  | launch ht hops hk _ hg => exact h.launch ht hops hk hg
  | lost ht hops hk hfull =>
    rw [nextKernel_eq ht hops, hk, hfull] at hroom
    rcases hroom with hroom | hroom <;> cases hroom

theorem serve_error (hf : m.Formed)
    (he : m.front.1.doOperation cfg m.front.2 = .error e) : e = .gpu .ctaTooLarge := by
  rw [front_eq] at he
  cases ht : m.turn with
  | none =>
    rw [ht] at he
    cases he
  | some i =>
    rw [ht] at he
    obtain ⟨hp, op, rest, hops⟩ := exists_of_idle (idle_of_turn ht)
    have hmem : op ∈ (m.stream i).operations := hops ▸ List.mem_cons_self
    have hs := hf.stream i op hmem
    obtain ⟨hd, hn⟩ := hf.queued i op hmem
    simp only [next_eq hops] at he
    cases hk : op.kernel with
    | none =>
      simp only [hk, doOperation, hn, hs, hd, assert_pos, ok_bind, Bool.false_eq_true, if_false] at he
      have hok : ((m.take i op rest).log i (.performed op)).recordNextDone i =
          .ok (((m.take i op rest).log i (.performed op)).dropFront i op rest) := by
        apply recordNextDone_eq_ok.mpr
        have htake : (m.take i op rest).stream i = ⟨op :: rest, true⟩ := update_self ..
        exact ⟨op, rest, congrArg CuStream.operations htake, congrArg CuStream.pending htake, rfl⟩
      rw [hok] at he
      cases he
    | some k =>
      simp only [hk, doOperation, hn, hs, hd, assert_pos, ok_bind, Bool.false_eq_true, if_false] at he
      split at he
      · next hroom =>
        rcases bind_eq_error.mp he with he | ⟨g, -, he⟩
        · obtain ⟨e', he', rfl⟩ := mapError_eq_error.mp he
          exact congrArg Fault.gpu (GpgpuSim.launch_error hroom he')
        · cases he
      · cases he

/-! ## The hosts -/

section

variable (h : m.OrderInv)
include h

theorem OrderInv.congr (hs : m'.stream = m.stream) (hp : m'.place = m.place)
    (ht : m'.trace = m.trace) (hg : m'.gpu = m.gpu) (hgrid : m'.gridIdToStream = m.gridIdToStream) :
    m'.OrderInv := by
  have hserving : m'.serving = m.serving := by
    funext j
    unfold serving
    rw [hs]
  constructor
  · rw [hs, ht]
    exact h.ledger
  · rw [hp, hg]
    exact h.placed
  · rw [hp, hg, hserving]
    exact h.fresh
  · rw [hs, hserving]
    exact h.busy
  · rw [hserving, hgrid, hg]
    exact h.live
  · rw [hg]
    exact h.next

theorem OrderInv.setHost
    (hy : kernelsOf (hostOps y) = kernelsOf (hostOps (m.host x))) : (m.setHost x y).OrderInv := by
  refine h.congr rfl ?_ rfl rfl rfl
  funext l
  cases l with
  | inl i => rfl
  | inr z =>
    show kernelsOf (hostOps (update m.host x y z)) = kernelsOf (hostOps (m.host z))
    rw [update_apply]
    split
    · next hz => rw [hz, hy]
    · rfl

theorem OrderInv.launchCall (hx : m.host x = .idle) {gridDim : Dim3}
    (hpos : 0 < gridDim.x ∧ 0 < gridDim.y ∧ 0 < gridDim.z) (hlt : m.gpu.numKernels + 1 < wordSize)
    (blockDim : Dim3) (hy : kernelsOf (hostOps y) = [m.gpu.numKernels]) :
    (({ m with gpu := m.gpu.newKernel gridDim blockDim } : Manager n).setHost x y).OrderInv := by
  have hhost (z) : place (({ m with gpu := m.gpu.newKernel gridDim blockDim } :
      Manager n).setHost x y) (.inr z) =
        if z = x then [m.gpu.numKernels] else m.place (.inr z) := by
    show kernelsOf (hostOps (update m.host x y z)) = _
    rw [update_apply]
    split
    · exact hy
    · rfl
  have hold {l} (hl : l ≠ .inr x) : place (({ m with gpu := m.gpu.newKernel gridDim blockDim } :
      Manager n).setHost x y) l = m.place l := by
    cases l with
    | inl i => rfl
    | inr z =>
      rw [hhost, if_neg]
      rintro rfl
      exact hl rfl
  constructor
  · exact h.ledger
  · exact h.placed.make ((hhost x).trans (if_pos rfl)) fun l hl => hold hl
  · intro l k hk hnot
    show (update m.gpu.kernels m.gpu.numKernels _ k).noMoreCtasToRun = false
    by_cases hl : l = .inr x
    · rw [hl, hhost, if_pos rfl] at hk
      rw [List.mem_singleton.mp hk, update_self]
      simp [KernelInfo.noMoreCtasToRun, Dim3.zero, Nat.ne_of_gt hpos.1, Nat.ne_of_gt hpos.2.1,
        Nat.ne_of_gt hpos.2.2]
    · rw [hold hl] at hk
      rw [update_of_ne (Nat.ne_of_lt (h.placed.made l k hk))]
      exact h.fresh l k hk hnot
  · exact h.busy
  · have hnext : m.gpu.nextUid = m.gpu.numKernels + 1 := h.next.trans (Nat.mod_eq_of_lt hlt)
    exact h.live.newKernel hnext gridDim blockDim
  · show (m.gpu.nextUid + 1) % wordSize = (m.gpu.numKernels + 1 + 1) % wordSize
    rw [h.next, Nat.mod_add_mod]

theorem OrderInv.call (hx : m.host x = .idle) {stream : Option (Fin n)}
    {req : Request} (hok : m.Room (.call x stream req)) : (m.call cfg x stream req).OrderInv := by
  have hempty : kernelsOf (hostOps (m.host x)) = [] := by
    rw [hx]
    rfl
  unfold Manager.call
  cases req with
  | kernelLaunch gridDim blockDim =>
    obtain ⟨hx₀, hy₀, hz₀, hlt⟩ := hok
    dsimp only [construct]
    apply h.launchCall hx ⟨hx₀, hy₀, hz₀⟩ hlt blockDim
    split <;> rfl
  | memcpyHostToDevice | memcpyDeviceToHost | memcpyDeviceToDevice | memcpyToSymbol
  | memcpyFromSymbol | event =>
    dsimp only [construct]
    apply h.setHost
    rw [hempty]
    split <;> rfl

theorem OrderInv.push (hx : m.host x = .ready op) (hkernels : kernelsOf (hostOps y) = [])
    (hs : m'.stream = update m.stream i ((m.stream i).push (m.stamped i op)))
    (hh : m'.host = update m.host x y)
    (ht : m'.trace = (i, .pushed (m.stamped i op)) :: m.trace) (hg : m'.gpu = m.gpu)
    (hgrid : m'.gridIdToStream = m.gridIdToStream) : m'.OrderInv := by
  have hnonempty (hp : (m.stream i).pending = true) : (m.stream i).operations ≠ [] := by
    obtain ⟨k, hk⟩ := h.busy i hp
    obtain ⟨-, op', rest, hops, -⟩ := exists_of_serving hk
    rw [hops]
    exact List.cons_ne_nil op' rest
  have hservice : ((m.stream i).push (m.stamped i op)).inService = m.serving i := by
    unfold serving CuStream.inService CuStream.push
    dsimp only
    split
    · next hp =>
      obtain ⟨op', rest, hops⟩ := List.exists_cons_of_ne_nil (hnonempty hp)
      rw [hops]
      rfl
    · rfl
  have hserving : m'.serving = m.serving := by
    rw [serving_update hs]
    exact Function.update_eq_self_iff.mpr hservice
  have hfrom : m.place (.inr x) = kernelsOf [m.stamped i op] := by
    show kernelsOf (hostOps (m.host x)) = _
    rw [hx]
    rfl
  have hto : m'.place (.inl i) = m.place (.inl i) ++ m.place (.inr x) := by
    rw [hfrom]
    show kernelsOf (m'.stream i).operations = _
    rw [hs, update_self]
    exact List.filterMap_append
  have hgone : m'.place (.inr x) = [] := by
    show kernelsOf (hostOps (m'.host x)) = []
    rw [hh, update_self]
    exact hkernels
  have hold (l) (hl : l ≠ .inr x) (hl' : l ≠ .inl i) : m'.place l = m.place l := by
    cases l with
    | inl j =>
      show kernelsOf (m'.stream j).operations = _
      rw [hs, update_of_ne fun hj => hl' (congrArg Sum.inl hj)]
      rfl
    | inr z =>
      show kernelsOf (hostOps (m'.host z)) = _
      rw [hh, update_of_ne fun hz => hl (congrArg Sum.inr hz)]
      rfl
  have hplaced : Placed m'.place m.gpu.numKernels := by
    apply h.placed.move _ hgone hto hold
    intro heq
    cases heq
  constructor
  · apply ledger_update [.pushed (m.stamped i op)] h.ledger hs ht
    exact (h.ledger i).push hnonempty
  · rw [hg]
    exact hplaced
  · intro l k hk hnot
    rw [hserving] at hnot
    rw [hg]
    by_cases hl : l = .inl i
    · rw [hl, hto] at hk
      rcases List.mem_append.mp hk with hk | hk
      · exact h.fresh _ k hk hnot
      · exact h.fresh _ k hk hnot
    · by_cases hl' : l = .inr x
      · rw [hl', hgone] at hk
        cases hk
      · rw [hold l hl' hl] at hk
        exact h.fresh l k hk hnot
  · apply busy_update h.busy hs
    intro hp
    obtain ⟨k, hk⟩ := h.busy i hp
    exact ⟨k, hservice.trans hk⟩
  · rw [hserving, hgrid, hg]
    exact h.live
  · rw [hg]
    exact h.next

theorem OrderInv.enqueue (hx : m.host x = .ready op) : (m.enqueue cfg x op).OrderInv := by
  have hkernels : kernelsOf (hostOps (if target cfg op = .zero then .draining 0 true else .idle :
      Host n)) = [] := by split <;> rfl
  unfold Manager.enqueue
  exact h.push hx hkernels rfl rfl rfl rfl rfl

theorem OrderInv.host (hm : hostStep cfg m x = some m') : m'.OrderInv := by
  unfold hostStep at hm
  cases hx : m.host x with
  | idle =>
    rw [hx] at hm
    cases hm
  | blocked op =>
    rw [hx] at hm
    cases hm
    apply h.setHost
    rw [hx]
    split <;> rfl
  | ready op =>
    rw [hx] at hm
    cases hm
    exact h.enqueue hx
  | draining next result =>
    rw [hx] at hm
    cases hm
    apply h.setHost
    rw [hx]
    split
    · rfl
    · split <;> rfl

/-! ## The GPU -/

theorem OrderInv.setKernel {info : KernelInfo}
    (hk : some k ∈ m.gpu.runningKernels) (huid : info.uid = (m.gpu.kernels k).uid)
    (hd : info.done = false) : ({ m with gpu := m.gpu.setKernel k info } : Manager n).OrderInv where
  ledger := h.ledger
  placed := h.placed
  fresh l k' hk' hnot := by
    have hne : k' ≠ k := by
      rintro rfl
      obtain ⟨i, hi⟩ := h.live.ofSlot k' hk
      exact hnot i hi
    show ((m.gpu.setKernel k info).kernels k').noMoreCtasToRun = false
    rw [GpgpuSim.setKernel_of_ne hne]
    exact h.fresh l k' hk' hnot
  busy := h.busy
  live := h.live.setKernel hk huid hd
  next := h.next

theorem OrderInv.releases (hk : some k ∈ m.gpu.runningKernels) {g : GpgpuSim}
    (hr : m.gpu.Releases k g) : ({ m with gpu := g } : Manager n).OrderInv := by
  have hlive := h.live.releases hk hr
  have hkernels : g.numKernels = m.gpu.numKernels ∧ g.nextUid = m.gpu.nextUid ∧
      ∀ k', k' ≠ k → g.kernels k' = m.gpu.kernels k' := by
    cases hr <;> exact ⟨rfl, rfl, fun k' hne => GpgpuSim.setKernel_of_ne hne⟩
  obtain ⟨hnum, hnext, hother⟩ := hkernels
  constructor
  · exact h.ledger
  · show Placed m.place g.numKernels
    rw [hnum]
    exact h.placed
  · intro l k' hk' hnot
    have hne : k' ≠ k := by
      rintro rfl
      obtain ⟨i, hi⟩ := h.live.ofSlot k' hk
      exact hnot i hi
    show (g.kernels k').noMoreCtasToRun = false
    rw [hother k' hne]
    exact h.fresh l k' hk' hnot
  · exact h.busy
  · exact hlive
  · show g.nextUid = (g.numKernels + 1) % wordSize
    rw [hnum, hnext]
    exact h.next

end

/-! ## Runs -/

theorem OrderInv.init : (Manager.init cfg : Manager n).OrderInv where
  ledger _ := .empty
  placed := by
    have hnil (l) : place (Manager.init cfg : Manager n) l = [] := by cases l <;> rfl
    constructor
    · intro l
      rw [hnil]
      exact List.nodup_nil
    · intro l l' k hk
      rw [hnil] at hk
      cases hk
    · intro l k hk
      rw [hnil] at hk
      cases hk
  fresh l k hk := by cases l <;> cases hk
  busy i hi := by cases hi
  live := .init
  next := rfl

theorem OrderInv.step (h : m.OrderInv) (hsound : m.Sound) {a : Act n} (hok : m.Room a)
    (hm : (machine n cfg).step m a = some (.ok m')) : m'.OrderInv := by
  cases a with
  | call x stream req =>
    simp only [machine] at hm
    split at hm
    · next hx =>
      cases hm
      exact h.call hx hok
    · cases hm
  | host x =>
    obtain ⟨m₁, h₁, heq⟩ := Option.map_eq_some_iff.mp hm
    cases heq
    exact h.host h₁
  | operation =>
    obtain ⟨m₁, h₁, h₂⟩ := operation_ok (Option.some.inj hm)
    have hfin := checkFinishedKernel_ok h₁
    have hformed := (hsound.shrink hfin.subset hfin.host).toFormed
    simp only [Room, h₁] at hok
    exact (h.finishes hfin).serves (serve_ok hformed h₂) hok
  | bind k =>
    simp only [machine] at hm
    split at hm
    · next hk =>
      cases hm
      have hd : (m.gpu.kernels k).incRunning.done = false := by
        simp [KernelInfo.done, KernelInfo.running, KernelInfo.incRunning]
      exact h.setKernel hk.1 rfl hd
    · cases hm
  | issue k =>
    simp only [machine] at hm
    split at hm
    · next hk =>
      cases hm
      have hd : (m.gpu.kernels k).incrementCtaId.done = false := by
        simp [KernelInfo.done, KernelInfo.running, KernelInfo.incrementCtaId, hk.1]
      exact h.setKernel (h.live.slots.bound k hk.1) rfl hd
    · cases hm
  | release k =>
    simp only [machine] at hm
    split at hm
    · next hk =>
      obtain ⟨g, hg, rfl⟩ := map_eq_ok.mp (Option.some.inj hm)
      have hrel := GpgpuSim.releaseKernel_ok (mapError_eq_ok.mp hg)
      exact h.releases (h.live.slots.bound k hk) hrel
    · cases hm

theorem OrderInv.fault (h : m.OrderInv) (hsound : m.Sound) {a : Act n}
    (he : (machine n cfg).step m a = some (.error e)) : e = .gpu .ctaTooLarge := by
  cases a with
  | call x stream req =>
    simp only [machine] at he
    split at he <;> cases he
  | host x =>
    obtain ⟨m₁, -, heq⟩ := Option.map_eq_some_iff.mp he
    cases heq
  | operation =>
    rcases bind_eq_error.mp (Option.some.inj he) with he | ⟨m₁, h₁, he⟩
    · exact absurd he h.checkFinishedKernel_ne_error
    · have hfin := checkFinishedKernel_ok h₁
      exact serve_error (hsound.shrink hfin.subset hfin.host).toFormed he
  | bind k | issue k =>
    simp only [machine] at he
    split at he <;> cases he
  | release k =>
    simp only [machine] at he
    split at he
    · next hk =>
      obtain ⟨e', he', -⟩ := mapError_eq_error.mp (map_eq_error.mp (Option.some.inj he))
      exact absurd he' (h.live.slots.releaseKernel_ne_error hk)
    · cases he

end Manager

/-- **Streams are served in order.** In every run in which the turn of a launch only comes while a
kernel slot is free, every operation is performed once and in its turn, and no assertion fails. -/
theorem served_of_room {cfg : Config} {m : Manager n}
    (h : (machine n cfg).ReachableUnder (fun m a => m.Room a) m) :
    m.Served ∧ ∀ a e, (machine n cfg).step m a = some (.error e) → e = .gpu .ctaTooLarge := by
  have hinv : m.Sound ∧ m.OrderInv := by
    apply h.invariant
    · exact ⟨Manager.Sound.init, Manager.OrderInv.init⟩
    · intro m a m' hm hok hstep
      exact ⟨hm.1.step hstep, hm.2.step hm.1 hok hstep⟩
  exact ⟨hinv.2.served, fun a e he => hinv.2.fault hinv.1 he⟩

/-- One kernel of one CTA, from its launch to the end of its stream. -/
theorem served_of_room_kernel : ∃ m : Manager 1,
    (machine 1 oneSlot).run [.call 0 (some 0) (.kernelLaunch ⟨1, 1, 1⟩ ⟨1, 1, 1⟩), .host 0, .operation,
      .bind 0, .issue 0, .release 0, .operation] (.init oneSlot) = some m ∧ m.trace.length = 4 ∧
    m.Served ∧ ∀ a e, (machine 1 oneSlot).step m a = some (.error e) → e = .gpu .ctaTooLarge := by
  refine (machine 1 oneSlot).exists_run_of (fun m a => m.Room a) (fun m => m.trace.length) (y := 4)
    (by decide) (by decide) fun m hreach hlen => ?_
  exact ⟨hlen, served_of_room hreach⟩

/-- **A launch can be lost**: two hosts launch a kernel each, and the GPU runs one kernel at a time. The
second kernel is taken and never launched. -/
theorem not_served : ¬ ∀ (n : Nat) (cfg : Config) (m : Manager n), (machine n cfg).Reachable m →
    m.Served := by
  intro hall
  obtain ⟨m, -, hreach, hcount⟩ := (machine 2 oneSlot).exists_reachable_of_run
    [.call 0 (some 0) (.kernelLaunch ⟨1, 1, 1⟩ ⟨1, 1, 1⟩), .host 0,
      .call 1 (some 1) (.kernelLaunch ⟨1, 1, 1⟩ ⟨1, 1, 1⟩), .host 1, .operation, .operation]
    (fun m => ((performances (historyOf (.created 1) m.trace)).length,
      (takes (historyOf (.created 1) m.trace)).length))
    (y := (0, 1)) (by decide)
  have hlaunched := congrArg List.length ((hall 2 oneSlot m hreach).launched (.created 1))
  rw [(Prod.mk.inj hcount).1, (Prod.mk.inj hcount).2] at hlaunched
  cases hlaunched

end GpgpuSimRuby.Streams
