import GpgpuSimRuby.Cache.TexSteps

/-!
# The queues of the texture cache

The fragment FIFO and the reorder buffer advance in lockstep, whatever the order in which memory
answers: so results leave in the order of the accesses. The data array follows the tags: after the
fragments that are queued it will hold what the tags say.
-/

namespace GpgpuSimRuby.Cache

open Library Function

namespace TexRun

variable {tc : TexConfig} {s t : TexRun} {a : TexAct}

/-! ## Queues -/

/-- What holds in every run. -/
structure Inv (tc : TexConfig) (s : TexRun) : Prop where
  wellFormed : s.core.WellFormed
  settled : TexCache.Settled s.core.tags
  lockstep : TexCache.Lockstep tc s.core
  placed : TexCache.Placed s.core
  order : s.accepted = s.results ++ s.core.resultFifo.contents ++
    s.core.fragmentFifo.contents.map FragmentEntry.request
  ids : (s.accepted.map MemFetch.id).Nodup
  /-- the misses whose blocks have not come back are those that memory has been or will be asked for -/
  outstanding : (s.core.requestFifo.contents ++ s.memory).Perm
    ((s.core.rob.contents.filter fun r => !r.ready).map RobEntry.request)

theorem settled_setLine {lines : Lines} {index : Nat} {line : CacheBlock} (h : TexCache.Settled lines)
    (hline : line.status = .invalid ∨ line.status = .valid) :
    TexCache.Settled (Lines.setLine lines index line) := by
  intro i
  by_cases hi : i = index
  · subst hi
    rwa [Lines.setLine_self]
  · rw [Lines.setLine_of_ne hi]
    exact h i

variable {core : TexCache} {r : RobEntry} {mf : MemFetch}

theorem placed_push {rob : RingBuffer RobEntry}
    (hp : core.Placed) (hcontents : rob.contents = core.rob.contents ++ [r])
    (hslot : ∀ i, rob.slot i = core.rob.slot i)
    (hnew : ∀ r' ∈ core.rob.contents, r'.request.id ≠ r.request.id) (i : Nat) (r' : RobEntry)
    (hr' : rob.contents[i]? = some r') :
    update core.extraMfFields r.request.id (some (core.rob.slot core.rob.num)) r'.request.id =
      some (rob.slot i) := by
  rw [hcontents] at hr'
  by_cases hi : i < core.rob.contents.length
  · rw [List.getElem?_append_left hi] at hr'
    rw [update_of_ne (hnew r' (List.mem_of_getElem? hr')), hp i r' hr', hslot]
  · have hlen : i = core.rob.num := by
      have hlt := (List.getElem?_eq_some_iff.mp hr').1
      rw [List.length_append, List.length_singleton] at hlt
      rw [RingBuffer.length_contents] at hlt hi
      omega
    subst hlen
    rw [List.getElem?_append_right (by rw [RingBuffer.length_contents]), RingBuffer.length_contents,
      Nat.sub_self] at hr'
    obtain rfl : r = r' := Option.some.inj hr'
    rw [update_self, hslot]

theorem Inv.mem_accepted (h : Inv tc s) (hr : r ∈ s.core.rob.contents) :
    r.request ∈ s.accepted := by
  have hmem : (r.request, r.index) ∈ s.core.rob.contents.map fun r => (r.request, r.index) :=
    List.mem_map_of_mem hr
  rw [h.lockstep.entries] at hmem
  obtain ⟨e, he, heq⟩ := List.mem_map.mp hmem
  rw [h.order]
  apply List.mem_append_right
  rw [← (Prod.mk.inj heq).1]
  exact List.mem_map_of_mem (List.mem_of_mem_filter he)

theorem inv_init : Inv tc (texCache tc).init where
  wellFormed := ⟨RingBuffer.new_wellFormed _, RingBuffer.new_wellFormed _, RingBuffer.new_wellFormed _,
    RingBuffer.new_wellFormed _⟩
  settled _ := .inl rfl
  lockstep := by
    refine ⟨rfl, ?_⟩
    intro r hr
    cases hr
  placed i r hr := by cases hr
  order := rfl
  ids := .nil
  outstanding := .refl _

theorem Inv.asked (h : Inv tc s) (dataSize : Nat → Nat) :
    Inv tc { s with core := { s.core with dataSize } } :=
  ⟨⟨h.wellFormed.fragmentFifo, h.wellFormed.requestFifo, h.wellFormed.rob, h.wellFormed.resultFifo⟩,
    h.settled, ⟨h.lockstep.entries, h.lockstep.blocks⟩, h.placed, h.order, h.ids, h.outstanding⟩

theorem ids_append (h : Inv tc s) (hnew : mf.id ∉ s.accepted.map MemFetch.id) :
    ((s.accepted ++ [mf]).map MemFetch.id).Nodup := by
  rw [List.map_append, List.map_singleton, ← List.concat_eq_append, List.nodup_concat]
  exact ⟨hnew, h.ids⟩

theorem Inv.access (h : Inv tc s) {time : Nat} {status : CacheRequestStatus}
    (hnew : mf.id ∉ s.accepted.map MemFetch.id)
    (ha : TexCache.Accesses tc s.core mf.addr mf time status core) :
    Inv tc (if status = .reservationFail then { s with core }
      else { s with core, accepted := s.accepted ++ [mf] }) := by
  have horder := h.order
  cases ha with
  | full => exact h
  | hit hfragment hrequest hrob hprobe hpush =>
    obtain ⟨_, hok, hwell, hcontents, -⟩ := h.wellFormed.fragmentFifo.push hfragment _
    cases hpush.symm.trans hok
    rw [if_neg (by decide)]
    constructor
    case wellFormed => exact ⟨hwell, h.wellFormed.requestFifo, h.wellFormed.rob, h.wellFormed.resultFifo⟩
    case settled => exact settled_setLine h.settled (h.settled _)
    case lockstep =>
      refine ⟨?_, h.lockstep.blocks⟩
      dsimp only
      rw [hcontents, List.filter_append, List.map_append, h.lockstep.entries]
      exact (List.append_nil _).symm
    case placed => exact h.placed
    case order =>
      dsimp only
      rw [hcontents, horder, List.map_append, ← List.append_assoc]
      rfl
    case ids => exact ids_append h hnew
    case outstanding => exact h.outstanding
  | @miss index place fragmentFifo robIndex rob place' requestFifo hfragment hrequest hrob hprobe hpush
      hpushRob hpushRequest =>
    obtain ⟨_, hok, hwell, hcontents, -⟩ := h.wellFormed.fragmentFifo.push hfragment _
    cases hpush.symm.trans hok
    obtain ⟨_, hok, hwellRob, hcontentsRob, -, hslot⟩ := h.wellFormed.rob.push hrob _
    cases hpushRob.symm.trans hok
    obtain ⟨_, hok, hwellRequest, hcontentsRequest, -⟩ := h.wellFormed.requestFifo.push hrequest _
    cases hpushRequest.symm.trans hok
    rw [if_neg (by decide)]
    constructor
    case wellFormed => exact ⟨hwell, hwellRequest, hwellRob, h.wellFormed.resultFifo⟩
    case settled =>
      unfold Lines.setStatus Lines.allocate
      rw [Lines.setLine_setLine]
      exact settled_setLine h.settled (.inr rfl)
    case lockstep =>
      constructor
      · dsimp only
        rw [hcontents, hcontentsRob, List.filter_append, List.map_append, List.map_append,
          h.lockstep.entries]
        rfl
      · dsimp only
        rw [hcontentsRob]
        intro r hr
        rcases List.mem_append.mp hr with hr | hr
        · exact h.lockstep.blocks r hr
        · obtain rfl := List.mem_singleton.mp hr
          rfl
    case placed =>
      apply placed_push h.placed hcontentsRob hslot
      intro r' hr' heq
      apply hnew
      rw [← heq]
      exact List.mem_map_of_mem (h.mem_accepted hr')
    case order =>
      dsimp only
      rw [hcontents, horder, List.map_append, ← List.append_assoc]
      rfl
    case ids => exact ids_append h hnew
    case outstanding =>
      dsimp only
      rw [hcontentsRequest, hcontentsRob, List.filter_append, List.map_append, List.append_assoc]
      have hswap : (s.core.requestFifo.contents ++ ([mf] ++ s.memory)).Perm
          (s.core.requestFifo.contents ++ s.memory ++ [mf]) := by
        rw [List.append_assoc]
        exact List.Perm.append_left _ List.perm_append_comm
      exact hswap.trans (h.outstanding.append_right [mf])

theorem Inv.send (h : Inv tc s) {sent : Option MemFetch} {requestFifo : RingBuffer MemFetch}
    (hwell : requestFifo.WellFormed)
    (hcontents : s.core.requestFifo.contents = sent.toList ++ requestFifo.contents) :
    Inv tc { s with core := { s.core with requestFifo }, memory := s.memory ++ sent.toList } := by
  refine ⟨⟨h.wellFormed.fragmentFifo, hwell, h.wellFormed.rob, h.wellFormed.resultFifo⟩, h.settled,
    ⟨h.lockstep.entries, h.lockstep.blocks⟩, h.placed, h.order, h.ids, ?_⟩
  have hperm := h.outstanding
  rw [hcontents, List.append_assoc] at hperm
  refine List.Perm.trans ?_ hperm
  rw [← List.append_assoc]
  exact List.perm_append_comm

theorem Inv.serve (h : Inv tc s) (hserves : TexCache.Serves tc s.core core) :
    Inv tc { s with core } := by
  have horder := h.order
  cases hserves with
  | waits => exact h
  | miss hcons hmiss hrob hready hrequest hfull hpush hpopRob hpop =>
    obtain ⟨_, hok, hwell, hrest, -⟩ := h.wellFormed.fragmentFifo.pop hcons
    cases hpop.symm.trans hok
    obtain ⟨_, hok, hwellRob, hrestRob, -, hslot⟩ := h.wellFormed.rob.pop hrob
    cases hpopRob.symm.trans hok
    obtain ⟨_, hok, hwellResult, hresult, -⟩ := h.wellFormed.resultFifo.push hfull _
    cases hpush.symm.trans hok
    obtain ⟨r', rs', hrob', -, -, -, hentries⟩ := h.lockstep.head hcons hmiss
    obtain ⟨rfl, rfl⟩ := List.cons_eq_cons.mp (hrob.symm.trans hrob')
    constructor
    case wellFormed => exact ⟨hwell, h.wellFormed.requestFifo, hwellRob, hwellResult⟩
    case settled => exact h.settled
    case lockstep =>
      constructor
      · dsimp only
        rw [hrest, hrestRob]
        exact hentries
      · dsimp only
        rw [hrestRob]
        intro r hr
        apply h.lockstep.blocks
        rw [hrob]
        exact List.mem_cons_of_mem _ hr
    case placed =>
      intro i r hr
      dsimp only at hr ⊢
      rw [hrestRob] at hr
      rw [hslot]
      apply h.placed
      rw [hrob, List.getElem?_cons_succ]
      exact hr
    case order =>
      dsimp only
      rw [hrest, hresult, horder, hcons, List.map_cons]
      simp only [List.append_assoc, List.singleton_append]
    case ids => exact h.ids
    case outstanding =>
      have hperm := h.outstanding
      rw [hrob, List.filter_cons_of_neg (by simp [hready])] at hperm
      dsimp only
      rw [hrestRob]
      exact hperm
  | hit hcons hmiss hvalid hblock hfull hpush hpop =>
    obtain ⟨_, hok, hwell, hrest, -⟩ := h.wellFormed.fragmentFifo.pop hcons
    cases hpop.symm.trans hok
    obtain ⟨_, hok, hwellResult, hresult, -⟩ := h.wellFormed.resultFifo.push hfull _
    cases hpush.symm.trans hok
    have hentries := h.lockstep.entries
    rw [hcons, List.filter_cons_of_neg (by simp [hmiss])] at hentries
    constructor
    case wellFormed => exact ⟨hwell, h.wellFormed.requestFifo, h.wellFormed.rob, hwellResult⟩
    case settled => exact h.settled
    case lockstep =>
      refine ⟨?_, h.lockstep.blocks⟩
      dsimp only
      rw [hrest]
      exact hentries
    case placed => exact h.placed
    case order =>
      dsimp only
      rw [hrest, hresult, horder, hcons, List.map_cons]
      simp only [List.append_assoc, List.singleton_append]
    case ids => exact h.ids
    case outstanding => exact h.outstanding

theorem outstanding_modify {l : List RobEntry} {i : Nat} (hr : l[i]? = some r)
    (hready : r.ready = false) : ((l.filter fun r : RobEntry => !r.ready).map RobEntry.request).Perm
      (r.request :: (((l.modify i fun r : RobEntry => { r with ready := true }).filter
        fun r : RobEntry => !r.ready).map RobEntry.request)) := by
  induction l generalizing i with
  | nil => cases hr
  | cons r' l ih =>
    cases i with
    | zero =>
      obtain rfl : r' = r := Option.some.inj hr
      rw [List.modify_zero_cons, List.filter_cons_of_pos (by simp [hready]),
        List.filter_cons_of_neg (by simp), List.map_cons]
    | succ i =>
      rw [List.getElem?_cons_succ] at hr
      rw [List.modify_succ_cons]
      cases hr' : r'.ready with
      | true =>
        rw [List.filter_cons_of_neg (by simp [hr']), List.filter_cons_of_neg (by simp [hr'])]
        exact ih hr
      | false =>
        rw [List.filter_cons_of_pos (by simp [hr']), List.filter_cons_of_pos (by simp [hr']), List.map_cons,
          List.map_cons]
        exact ((ih hr).cons _).trans (List.Perm.swap _ _ _)

theorem map_modify {β : Type} (f : RobEntry → β) (hf : ∀ r : RobEntry, f { r with ready := true } = f r)
    (l : List RobEntry) (i : Nat) :
    (l.modify i fun r : RobEntry => { r with ready := true }).map f = l.map f := by
  induction l generalizing i with
  | nil => rw [List.modify_nil]
  | cons r l ih =>
    cases i with
    | zero => rw [List.modify_zero_cons, List.map_cons, List.map_cons, hf]
    | succ i => rw [List.modify_succ_cons, List.map_cons, List.map_cons, ih]

theorem Inv.exists_waiting (h : Inv tc s) (hmf : mf ∈ s.memory) : ∃ (i : Nat) (r : RobEntry),
      s.core.rob.contents[i]? = some r ∧ r.ready = false ∧ r.request = mf := by
  have hmem : mf ∈ (s.core.rob.contents.filter fun r => !r.ready).map RobEntry.request :=
    h.outstanding.mem_iff.mp (List.mem_append_right _ hmf)
  obtain ⟨r, hr, rfl⟩ := List.mem_map.mp hmem
  obtain ⟨hr, hready⟩ := List.mem_filter.mp hr
  obtain ⟨i, hi⟩ := List.mem_iff_getElem?.mp hr
  exact ⟨i, r, hi, (Bool.not_eq_true' _).mp hready, rfl⟩

/-- **A fill** meets no assertion that fails. -/
theorem Inv.fill (h : Inv tc s) (hmf : mf ∈ s.memory) :
    ∃ rob, s.core.fill tc mf = .ok { s.core with rob } ∧
      Inv tc { s with core := { s.core with rob }, memory := s.memory.erase mf } := by
  obtain ⟨i, r, hr, hready, rfl⟩ := h.exists_waiting hmf
  obtain ⟨rob, hfill, hwell, hcontents, hslot⟩ :=
    TexCache.fill_ok h.wellFormed h.lockstep h.placed hr hready
  have hmap {β : Type} (f : RobEntry → β) (hf : ∀ r : RobEntry, f { r with ready := true } = f r) :
      rob.contents.map f = s.core.rob.contents.map f := by
    rw [hcontents]
    exact map_modify f hf s.core.rob.contents i
  refine ⟨rob, hfill, ?_⟩
  constructor
  case wellFormed =>
    exact ⟨h.wellFormed.fragmentFifo, h.wellFormed.requestFifo, hwell, h.wellFormed.resultFifo⟩
  case settled => exact h.settled
  case lockstep =>
    constructor
    · dsimp only
      rw [hmap _ fun _ => rfl]
      exact h.lockstep.entries
    · intro r' hr'
      have hmem : (r'.request, r'.blockAddr) ∈ rob.contents.map fun r => (r.request, r.blockAddr) :=
        List.mem_map_of_mem hr'
      rw [hmap _ fun _ => rfl] at hmem
      obtain ⟨r'', hr'', heq⟩ := List.mem_map.mp hmem
      obtain ⟨hrequest, hblock⟩ := Prod.mk.inj heq
      rw [← hblock, ← hrequest]
      exact h.lockstep.blocks r'' hr''
  case placed =>
    intro j r' hr'
    dsimp only at hr' ⊢
    rw [hslot]
    have hrequest : (rob.contents.map RobEntry.request)[j]? =
        (s.core.rob.contents.map RobEntry.request)[j]? :=
      congrArg (fun l : List MemFetch => l[j]?) (hmap RobEntry.request fun _ => rfl)
    rw [List.getElem?_map, List.getElem?_map, hr', Option.map_some] at hrequest
    obtain ⟨r'', hr'', heq⟩ := Option.map_eq_some_iff.mp hrequest.symm
    rw [← heq]
    exact h.placed j r'' hr''
  case order => exact h.order
  case ids => exact h.ids
  case outstanding =>
    have hback := (List.perm_cons_erase hmf).append_left s.core.requestFifo.contents
    have hperm := (hback.symm.trans h.outstanding).trans (outstanding_modify hr hready)
    dsimp only
    rw [hcontents]
    exact (List.perm_middle.symm.trans hperm).cons_inv

theorem Inv.nextAccess (h : Inv tc s) {rest : List MemFetch}
    {resultFifo : RingBuffer MemFetch} (hcons : s.core.resultFifo.contents = mf :: rest)
    (hwell : resultFifo.WellFormed) (hrest : resultFifo.contents = rest) :
    Inv tc { s with core := { s.core with resultFifo }, results := s.results ++ [mf] } := by
  refine ⟨⟨h.wellFormed.fragmentFifo, h.wellFormed.requestFifo, h.wellFormed.rob, hwell⟩, h.settled,
    ⟨h.lockstep.entries, h.lockstep.blocks⟩, h.placed, ?_, h.ids, h.outstanding⟩
  have horder := h.order
  rw [hcons] at horder
  dsimp only
  rw [hrest, horder]
  simp only [List.append_assoc, List.cons_append, List.nil_append]

/-! ## Steps -/

/-- What is accepted, served, filled and taken in a step, and that it can fail for no other reason than
these. -/
inductive Steps (tc : TexConfig) (s : TexRun) : TexAct → Except TexFault TexRun → Prop
  | access {mf dataSize time status core} : mf.id ∉ s.accepted.map MemFetch.id →
      TexCache.Accesses tc { s.core with dataSize := update s.core.dataSize mf.id dataSize }
        mf.addr mf time status core →
      Steps tc s (.access mf dataSize time) (.ok (if status = .reservationFail then { s with core }
        else { s with core, accepted := s.accepted ++ [mf] }))
  | refused {mf dataSize time e} : (e = .dataSize ∨ e = .tagReservationFail ∨ ∃ f, e = .tags f) →
      Steps tc s (.access mf dataSize time) (.error e)
  | cycle {memportFull sent requestFifo core} : requestFifo.WellFormed →
      s.core.requestFifo.contents = sent.toList ++ requestFifo.contents →
      (memportFull = false → s.core.requestFifo.contents ≠ [] → sent ≠ none) →
      TexCache.Serves tc { s.core with requestFifo } core →
      Steps tc s (.cycle memportFull) (.ok { s with core, memory := s.memory ++ sent.toList })
  | aborted {memportFull e es f} : s.core.fragmentFifo.contents = e :: es → e.miss = false →
      ¬ TexCache.Servable tc s.core e → (f = .dataValid ∨ f = .dataBlock) →
      Steps tc s (.cycle memportFull) (.error f)
  | fill {mf rob} : mf ∈ s.memory → s.core.fill tc mf = .ok { s.core with rob } →
      Inv tc { s with core := { s.core with rob }, memory := s.memory.erase mf } →
      Steps tc s (.fill mf) (.ok { s with core := { s.core with rob }, memory := s.memory.erase mf })
  | nextAccess {mf rest resultFifo} : s.core.resultFifo.contents = mf :: rest → resultFifo.WellFormed →
      resultFifo.contents = rest → resultFifo.size = s.core.resultFifo.size →
      Steps tc s .nextAccess
        (.ok { s with core := { s.core with resultFifo }, results := s.results ++ [mf] })

theorem Inv.steps (h : Inv tc s) {a : TexAct} {r : Except TexFault TexRun}
    (hs : (texCache tc).step s a = some r) : Steps tc s a r := by
  cases a with
  | access mf dataSize time =>
    have hasked := h.asked (update s.core.dataSize mf.id dataSize)
    unfold texCache at hs
    dsimp only at hs
    split at hs
    · cases hs
    · next hnew =>
      cases hs
      cases ha : TexCache.access tc { s.core with
          dataSize := update s.core.dataSize mf.id dataSize } mf.addr mf time with
      | error e => exact .refused (TexCache.access_error hasked.wellFormed hasked.settled ha)
      | ok p => exact .access hnew (TexCache.access_ok hasked.settled ha)
  | cycle memportFull =>
    obtain ⟨sent, requestFifo, hsend, hwell, hcontents, hsent⟩ :=
      TexCache.sendRequest_ok h.wellFormed memportFull
    have hafter := h.send hwell hcontents
    have hs : (s.core.cycle tc memportFull >>= fun p =>
        .ok { s with core := p.2, memory := s.memory ++ p.1.toList }) = r := Option.some.inj hs
    subst hs
    unfold TexCache.cycle
    rw [hsend, ok_bind]
    dsimp only
    rcases TexCache.serveFragment_cases hafter.wellFormed hafter.lockstep with
      ⟨core, hserve, hserves⟩ | ⟨e, es, f, hcons, hmiss, -, hnot, hserve, hf⟩
    · dsimp only at hserve
      rw [hserve]
      exact .cycle hwell hcontents hsent hserves
    · dsimp only at hserve
      rw [hserve]
      exact .aborted hcons hmiss hnot hf
  | fill mf =>
    unfold texCache at hs
    dsimp only at hs
    split at hs
    · next hmf =>
      obtain ⟨rob, hfill, hafter⟩ := h.fill hmf
      rw [hfill] at hs
      cases hs
      exact .fill hmf hfill hafter
    · cases hs
  | nextAccess =>
    unfold texCache at hs
    dsimp only at hs
    split at hs
    · next hready =>
      obtain ⟨mf, rest, hcons⟩ := List.exists_cons_of_ne_nil (TexCache.accessReady_iff.mp hready)
      obtain ⟨resultFifo, hnext, hwell, hrest, hsize⟩ := TexCache.nextAccess_ok h.wellFormed hcons
      rw [hnext] at hs
      cases hs
      exact .nextAccess hcons hwell hrest hsize
    · cases hs

/-- **Every step** keeps the invariant. -/
theorem Inv.step (h : Inv tc s) {a : TexAct} {t : TexRun} (hs : Steps tc s a (.ok t)) : Inv tc t := by
  cases hs with
  | @access mf dataSize time status core hnew ha =>
    exact (h.asked (update s.core.dataSize mf.id dataSize)).access hnew ha
  | cycle hwell hcontents _ hserves => exact (h.send hwell hcontents).serve hserves
  | fill _ _ hafter => exact hafter
  | nextAccess hcons hwell hrest _ => exact h.nextAccess hcons hwell hrest

end TexRun

end GpgpuSimRuby.Cache
