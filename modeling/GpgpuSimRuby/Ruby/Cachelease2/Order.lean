import GpgpuSimRuby.Ruby.Cachelease2.Safety

/-!
# cachelease2: a load sees the stores its L1 sent before it

The MSHR no longer holds a load back behind a store of the same warp, so the order has to come from
the L2: a `GETS` must not be answered before the stores its L1 sent earlier are in the block.

`Block.OrderInv` says where a store that was sent can be (on its way, waiting in the TBE, or in the
block) and that no `GETS` is ahead of an older write in the queues. The second part is what
`MessageBuffer::recycle` breaks in cachelease2oo: a recycled write is put behind whatever has
arrived in the meantime. `Block.KeepsOrder` is the condition on a step under which it does not.
-/

namespace GpgpuSimRuby.Ruby.Cachelease2

open Library Function

variable {ι : Type} [DecidableEq ι] {rest : List (RequestMsg ι)}

/-! ## The invariant -/

omit [DecidableEq ι] in
/-- The line holds the copy `e` in `S` or `SM`. -/
def L1Line.HasCopy (ℓ : L1Line ι) (e : L1Entry ι) : Prop :=
  ℓ.entry = some e ∧
    (ℓ.tbe = none ∧ e.cacheState = .S ∨ ∃ t, ℓ.tbe = some t ∧ t.tbeState = .SM)

namespace Block

/-- The requests of `i` that are queued, the oldest first. -/
def requestsOf (b : Block ι) (i : ι) : List (RequestMsg ι) :=
  b.l1RequestToL2Cache.filter (fun m => m.requestor = i) ++ b.toL2 i

/-- The stores that the block contains, be it in the cache or in memory. -/
def contents (b : Block ι) : DataBlock ι :=
  match b.tbe, b.entry with
  | none, some e => e.dataBlk
  | _, _ => b.memory

/-- The store waits in the TBE for the block to be fetched. -/
def Waits (b : Block ι) (w : MemFetch ι) : Prop :=
  ∃ t, b.tbe = some t ∧ (t.tbeState = .IM ∨ t.tbeState = .IMA) ∧ t.memfetch = some w

/-- A block that contains `blk` may answer the load `g` of `i`: the stores `i` sent before `g` are
in it. -/
def Answers (b : Block ι) (i : ι) (g : MemFetch ι) (blk : DataBlock ι) : Prop :=
  g.uid < b.nextUid ∧ ∀ w ∈ b.sentWrites i, w.uid < g.uid → w ∈ blk

/-- A read is not queued ahead of an older write. -/
def InOrder (x y : RequestMsg ι) : Prop :=
  x.type = .GETS → y.type ≠ .GETS → x.memfetch.uid < y.memfetch.uid

instance (x y : RequestMsg ι) : Decidable (InOrder x y) :=
  inferInstanceAs (Decidable (x.type = .GETS → y.type ≠ .GETS → x.memfetch.uid < y.memfetch.uid))

/-- **The order of the accesses of an L1 is kept.** -/
structure OrderInv (b : Block ι) : Prop where
  fresh : ∀ m, b.InTransit m → m.memfetch.uid < b.nextUid
  queued : ∀ i, (b.requestsOf i).Pairwise InOrder
  recycled : ∀ p ∈ b.recycled, p.2.type ≠ .GETS ∧
    ∀ g ∈ b.l1RequestToL2Cache, g.requestor = p.2.requestor → InOrder g p.2
  sent : ∀ i, ∀ w ∈ b.sentWrites i, w.uid < b.nextUid ∧
    ((∃ m, b.InTransit m ∧ m.requestor = i ∧ m.type ≠ .GETS ∧ m.memfetch = w) ∨ b.Waits w ∨
      w ∈ b.contents)
  clean : b.tbe = none → ∀ e ∈ b.entry, e.dirty = false → e.dataBlk ⊆ b.memory
  readers : ∀ t ∈ b.tbe, t.tbeState = .IS →
    (∀ i ∈ t.l1GetSIDs, ∃ g, (i, g) ∈ t.mfset) ∧ ∀ p ∈ t.mfset, b.Answers p.1 p.2 b.memory
  data : ∀ i, ∀ m ∈ b.responseToL1 i, m.type = .DATA →
    (∃ g, (i, g) ∈ m.mfset) ∧ ∀ p ∈ m.mfset, b.Answers p.1 p.2 m.dataBlk
  copy : ∀ i e, (b.l1 i).HasCopy e → ∃ g, e.filledFor = some g ∧ b.Answers i g e.dataBlk

/-- The step does not put a write behind a younger read of its L1: no blocked write is recycled
while such a read is in the L2's queue, and no read enters the queue while an older write of its L1
is recycled. -/
def KeepsOrder (cfg : Config) (b : Block ι) : BlockAct ι → Prop
  | .l2Request =>
    match b.l1RequestToL2Cache with
    | [] => True
    | w :: rest => cfg.variant = .cachelease2oo → w.type ≠ .GETS →
        (L2.getState b = .SS ∨ L2.getState b = .S ∧ cfg.requestEvent b w ≠ .ok .l1UpgradeT) →
        ∀ g ∈ rest, g.requestor = w.requestor → InOrder g w
  | .arrive i =>
    match b.toL2 i with
    | [] => True
    | g :: _ => ∀ p ∈ b.recycled, p.2.requestor = i → InOrder g p.2
  | _ => True

instance (cfg : Config) (b : Block ι) (act : BlockAct ι) : Decidable (b.KeepsOrder cfg act) := by
  unfold KeepsOrder
  split
  · split <;> infer_instance
  · split <;> infer_instance
  · infer_instance

theorem orderInv_init : ({} : Block ι).OrderInv where
  fresh m := by rintro (h | h | ⟨_, h⟩) <;> cases h
  queued i := by simp [requestsOf]
  recycled := nofun
  sent _ := nofun
  clean _ _ := nofun
  readers := nofun
  data _ := nofun
  copy _ _ h := nomatch h.1

variable {cfg : Config} {space : MemorySpaceType} {b b' : Block ι} {a : BlockAct ι}

omit [DecidableEq ι] in
theorem Answers.mono {i : ι} {g : MemFetch ι} {blk : DataBlock ι} (h : b.Answers i g blk)
    (hle : b.nextUid ≤ b'.nextUid) (hsent : ∀ w ∈ b'.sentWrites i, w ∈ b.sentWrites i ∨ b.nextUid ≤ w.uid) :
    b'.Answers i g blk := by
  refine ⟨h.1.trans_le hle, fun w hw hlt => ?_⟩
  rcases hsent w hw with hw | hge
  · exact h.2 w hw hlt
  · have := h.1
    omega

/-! ## Reads at the head of the queue -/

/-- **A read at the head finds the older stores performed**, unless a write waits in the TBE. -/
theorem OrderInv.answers (ho : b.OrderInv) {m : RequestMsg ι}
    (hq : b.l1RequestToL2Cache = m :: rest) (hm : m.type = .GETS)
    (hno : ∀ w, ¬ b.Waits w) : b.Answers m.requestor m.memfetch b.contents := by
  have htransit : b.InTransit m := .inr (.inl (by simp [hq]))
  refine ⟨ho.fresh m htransit, fun w hw hlt => ?_⟩
  rcases (ho.sent _ w hw).2 with ⟨m', hm', hreq, htype, rfl⟩ | hwait | hw
  · exfalso
    -- the write is behind the read, so it is younger
    have hsorted := ho.queued m.requestor
    simp only [requestsOf, hq, List.filter_cons, decide_true, if_true, List.cons_append,
      List.pairwise_cons, List.mem_append, List.mem_filter, decide_eq_true_eq] at hsorted
    rcases hm' with hm' | hm' | ⟨due, hm'⟩
    · have := hsorted.1 m' (.inr (hreq ▸ hm')) hm htype
      omega
    · rw [hq] at hm'
      rcases List.mem_cons.mp hm' with rfl | hm'
      · exact htype hm
      · have := hsorted.1 m' (.inl ⟨hm', hreq⟩) hm htype
        omega
    · have : m.memfetch.uid < m'.memfetch.uid :=
        (ho.recycled _ hm').2 m (by simp [hq]) hreq.symm hm htype
      omega
  · exact absurd hwait (hno w)
  · exact hw

/-! ## Steps of the L2 -/

end Block

section Bank

variable {cfg : Config} {space : MemorySpaceType} {b b' : Block ι} {a : BlockAct ι}

theorem BankStep.queue_suffix (h : BankStep cfg b a b') : b'.l1RequestToL2Cache <:+ b.l1RequestToL2Cache := by
  cases h with
  | recycle _ hq | fetchRead hq | mergeRead hq | fetchWrite hq | read hq | write hq =>
    rw [hq]
    exact List.suffix_cons _ _
  | _ => exact List.suffix_rfl

theorem BankStep.requestsOf_sublist (h : BankStep cfg b a b') (i : ι) :
    (b'.requestsOf i).Sublist (b.requestsOf i) := by
  unfold Block.requestsOf
  rw [h.frame.2.2.1]
  exact (h.queue_suffix.sublist.filter _).append_right _

theorem BankStep.answers (h : BankStep cfg b a b') {i : ι} {g : MemFetch ι} {blk : DataBlock ι}
    (ha : b.Answers i g blk) : b'.Answers i g blk := by
  obtain ⟨-, -, -, hsent, huid⟩ := h.frame
  exact ha.mono huid.ge fun w hw => .inl (hsent ▸ hw)

theorem BankStep.recycled (h : BankStep cfg b a b') {p : Nat × RequestMsg ι}
    (hp : p ∈ b'.recycled) : p ∈ b.recycled ∨ ∃ w rest, a = .l2Request ∧
      b.l1RequestToL2Cache = w :: rest ∧ cfg.variant = .cachelease2oo ∧ w.type ≠ .GETS ∧
      (L2.getState b = .SS ∨ L2.getState b = .S ∧ cfg.requestEvent b w ≠ .ok .l1UpgradeT) ∧
      b'.l1RequestToL2Cache = rest ∧ p = (b.now + cfg.recycleLatency, w) := by
  cases h with
  | @recycle w rest hv hq hw hs =>
    refine (List.mem_append.mp hp).imp id fun hp => ?_
    exact ⟨w, rest, rfl, hq, hv, hw, hs, rfl, List.mem_singleton.mp hp⟩
  | _ => exact .inl hp

theorem Block.OrderInv.subset_writeBack (ho : b.OrderInv) (ht : b.tbe = none) {e : L2Entry ι}
    (he : b.entry = some e) : e.dataBlk ⊆ e.writeBack b.memory := by
  unfold L2Entry.writeBack
  cases hd : e.dirty with
  | true => exact List.Subset.refl _
  | false => exact ho.clean ht e he hd

omit [DecidableEq ι] in
theorem Block.InTransit.pop {m m' : RequestMsg ι}
    (h : b.InTransit m') (hq : b.l1RequestToL2Cache = m :: rest) :
    m' = m ∨ { b with l1RequestToL2Cache := rest }.InTransit m' := by
  rcases h with h | h | h
  · exact .inr (.inl h)
  · rw [hq] at h
    rcases List.mem_cons.mp h with rfl | h
    · exact .inl rfl
    · exact .inr (.inr (.inl h))
  · exact .inr (.inr (.inr h))

end Bank

namespace Block

variable {cfg : Config} {space : MemorySpaceType} {b b' : Block ι} {a : BlockAct ι}

section

variable (h : BankStep cfg b a b')
include h

theorem BankStep.sent (hinv : b.Inv cfg space) (ho : b.OrderInv) {i : ι}
    {w : MemFetch ι} (hw : w ∈ b.sentWrites i) :
    (∃ m, b'.InTransit m ∧ m.requestor = i ∧ m.type ≠ .GETS ∧ m.memfetch = w) ∨ b'.Waits w ∨
      w ∈ b'.contents := by
  have hloc := (ho.sent i w hw).2
  cases h with
  | stall => exact hloc
  | @recycle m rest hv hq hwr hs =>
    refine hloc.imp ?_ id
    rintro ⟨m', hm', h⟩
    rcases hm'.pop hq with rfl | hm'
    · exact ⟨m', .inr (.inr ⟨b.now + cfg.recycleLatency, by simp⟩), h⟩
    · refine ⟨m', ?_, h⟩
      rcases hm' with hm' | hm' | ⟨due, hm'⟩
      · exact .inl hm'
      · exact .inr (.inl hm')
      · exact .inr (.inr ⟨due, List.mem_append_left _ hm'⟩)
  | @fetchRead m rest hq ht he hm =>
    rcases hloc with ⟨m', hm', hreq, htype, rfl⟩ | ⟨t, ht', -⟩ | hw
    · rcases hm'.pop hq with rfl | hm'
      · exact absurd hm htype
      · exact .inl ⟨m', hm', hreq, htype, rfl⟩
    · cases ht.symm.trans ht'
    · exact .inr (.inr (by simpa [contents, ht, he] using hw))
  | @mergeRead m rest t hq ht hs hm =>
    rcases hloc with ⟨m', hm', hreq, htype, rfl⟩ | ⟨t', ht', hs', -⟩ | hw
    · rcases hm'.pop hq with rfl | hm'
      · exact absurd hm htype
      · exact .inl ⟨m', hm', hreq, htype, rfl⟩
    · cases ht.symm.trans ht'
      simp [hs] at hs'
    · exact .inr (.inr (by simpa [contents, ht] using hw))
  | @fetchWrite m rest s hq ht he hm hs =>
    rcases hloc with ⟨m', hm', hreq, htype, rfl⟩ | ⟨t, ht', -⟩ | hw
    · rcases hm'.pop hq with rfl | hm'
      · refine .inr (.inl ⟨_, rfl, ?_, rfl⟩)
        rw [hs]
        split <;> simp
      · exact .inl ⟨m', hm', hreq, htype, rfl⟩
    · cases ht.symm.trans ht'
    · exact .inr (.inr (by simpa [contents, ht, he] using hw))
  | @read m rest e hq ht he hm =>
    rcases hloc with ⟨m', hm', hreq, htype, rfl⟩ | ⟨t, ht', -⟩ | hw
    · rcases hm'.pop hq with rfl | hm'
      · exact absurd hm htype
      · exact .inl ⟨m', hm', hreq, htype, rfl⟩
    · cases ht.symm.trans ht'
    · exact .inr (.inr (by simpa [contents, L2.send, L2Entry.afterRead, ht, he] using hw))
  | @write m rest e hq ht he hm hs =>
    rcases hloc with ⟨m', hm', hreq, htype, rfl⟩ | ⟨t, ht', -⟩ | hw
    · rcases hm'.pop hq with rfl | hm'
      · exact .inr (.inr (by simp [contents, L2.send, L2Entry.afterWrite, ht]))
      · exact .inl ⟨m', hm', hreq, htype, rfl⟩
    · cases ht.symm.trans ht'
    · refine .inr (.inr ?_)
      simp only [contents, ht, he] at hw
      simp [contents, L2.send, L2Entry.afterWrite, ht, hw]
  | @fillRead t s ht hts hs =>
    rcases hloc with h | ⟨t', ht', hs', -⟩ | hw
    · exact .inl h
    · cases ht.symm.trans ht'
      simp [hts] at hs'
    · exact .inr (.inr (by simpa [contents, L2.send, ht] using hw))
  | @fillWrite t r g ht hts hr hg =>
    rcases hloc with h | ⟨t', ht', -, hg'⟩ | hw
    · exact .inl h
    · cases ht.symm.trans ht'
      cases hg.symm.trans hg'
      exact .inr (.inr (by simp [contents, L2.send]))
    · refine .inr (.inr ?_)
      simp only [contents, ht] at hw
      simp [contents, L2.send, hw]
  | @evict e ht he hlive hs hv =>
    rcases hloc with h | ⟨t, ht', -⟩ | hw
    · exact .inl h
    · cases ht.symm.trans ht'
    · simp only [contents, ht, he] at hw
      exact .inr (.inr (ho.subset_writeBack ht he hw))
  | @drop e ht he hs =>
    rcases hloc with h | ⟨t, ht', -⟩ | hw
    · exact .inl h
    · cases ht.symm.trans ht'
    · simp only [contents, ht, he] at hw
      refine .inr (.inr ?_)
      simpa [contents, ht] using ho.subset_writeBack ht he hw
  | @expire t ht hs hdue =>
    have he : b.entry = none := by
      cases hinv.shape <;> simp_all
    rcases hloc with h | ⟨t', ht', hs', -⟩ | hw
    · exact .inl h
    · cases ht.symm.trans ht'
      simp [hs] at hs'
    · exact .inr (.inr (by simpa [contents, ht, he] using hw))

theorem BankStep.clean (hinv : b.Inv cfg space) (ho : b.OrderInv) :
    b'.tbe = none → ∀ e ∈ b'.entry, e.dirty = false → e.dataBlk ⊆ b'.memory := by
  intro ht' e' he' hd
  cases h with
  | stall => exact ho.clean ht' e' he' hd
  | recycle => exact ho.clean ht' e' he' hd
  | fetchRead | mergeRead | fetchWrite | evict => cases ht'
  | @read m rest e hq ht he hm =>
    cases he'
    exact ho.clean ht e he hd
  | write => cases he'; cases hd
  | fillRead => cases he'; exact List.Subset.refl _
  | fillWrite => cases he'; cases hd
  | drop => cases he'
  | @expire t ht hs hdue =>
    have he : b.entry = none := by
      cases hinv.shape <;> simp_all
    cases he.symm.trans he'

theorem BankStep.readers (ho : b.OrderInv) : ∀ t ∈ b'.tbe, t.tbeState = .IS →
      (∀ i ∈ t.l1GetSIDs, ∃ g, (i, g) ∈ t.mfset) ∧ ∀ p ∈ t.mfset, b.Answers p.1 p.2 b'.memory := by
  intro t' ht' hs'
  cases h with
  | stall => exact ho.readers t' ht' hs'
  | recycle => exact ho.readers t' ht' hs'
  | @fetchRead m rest hq ht he hm =>
    cases ht'
    have hread := ho.answers hq hm (by rintro w ⟨t, ht', -⟩; cases ht.symm.trans ht')
    simp only [contents, ht, he] at hread
    simpa using hread
  | @mergeRead m rest t hq ht hs hm =>
    cases ht'
    have hread := ho.answers hq hm (by
      rintro w ⟨t', ht', hs', -⟩
      cases ht.symm.trans ht'
      simp [hs] at hs')
    simp only [contents, ht] at hread
    obtain ⟨hold, hmf⟩ := ho.readers t ht hs
    refine ⟨fun i hi => ?_, fun p hp => ?_⟩
    · rcases Finset.mem_insert.mp hi with rfl | hi
      · exact ⟨m.memfetch, by simp⟩
      · obtain ⟨g, hg⟩ := hold i hi
        exact ⟨g, List.mem_append_left _ hg⟩
    · rcases List.mem_append.mp hp with hp | hp
      · exact hmf p hp
      · rw [List.mem_singleton.mp hp]
        exact hread
  | @fetchWrite m rest s hq ht he hm hs =>
    cases ht'
    simp only [hs] at hs'
    split at hs' <;> cases hs'
  | read _ ht | write _ ht | drop ht => cases ht.symm.trans ht'
  | fillRead | fillWrite | expire => cases ht'
  | evict => cases ht'; cases hs'

theorem BankStep.data (ho : b.OrderInv) :
    ∀ i, ∀ m ∈ b'.responseToL1 i, m.type = .DATA →
      (∃ g, (i, g) ∈ m.mfset) ∧ ∀ p ∈ m.mfset, b.Answers p.1 p.2 m.dataBlk := by
  intro i m' hm' hd
  cases h with
  | stall => exact ho.data i m' hm' hd
  | recycle => exact ho.data i m' hm' hd
  | fetchRead => exact ho.data i m' hm' hd
  | mergeRead => exact ho.data i m' hm' hd
  | fetchWrite => exact ho.data i m' hm' hd
  | @read m rest e hq ht he hm =>
    rcases L2.mem_send.mp hm' with hm' | ⟨rfl, hi⟩
    · exact ho.data i m' hm' hd
    · have hread := ho.answers hq hm (by rintro w ⟨t, ht', -⟩; cases ht.symm.trans ht')
      simp only [contents, ht, he] at hread
      obtain rfl : i = m.requestor := by simpa using hi
      simpa using hread
  | write =>
    rcases L2.mem_send.mp hm' with hm' | ⟨rfl, -⟩
    · exact ho.data i m' hm' hd
    · unfold writeResponse at hd
      split at hd <;> cases hd
  | @fillRead t s ht hts hs =>
    rcases L2.mem_send.mp hm' with hm' | ⟨rfl, hi⟩
    · exact ho.data i m' hm' hd
    · obtain ⟨hold, hmf⟩ := ho.readers t ht hts
      exact ⟨hold i hi, hmf⟩
  | fillWrite =>
    rcases L2.mem_send.mp hm' with hm' | ⟨rfl, -⟩
    · exact ho.data i m' hm' hd
    · unfold fillResponse at hd
      split at hd <;> cases hd
  | evict => exact ho.data i m' hm' hd
  | drop => exact ho.data i m' hm' hd
  | expire => exact ho.data i m' hm' hd

theorem BankStep.orderInv (hinv : b.Inv cfg space) (ho : b.OrderInv)
    (hkeep : b.KeepsOrder cfg a) : b'.OrderInv := by
  obtain ⟨-, hl1, -, hsent, huid⟩ := h.frame
  have hans : ∀ {i g blk}, b.Answers i g blk → b'.Answers i g blk := h.answers
  refine ⟨fun m hm => huid ▸ ho.fresh m (h.inTransit hm),
    fun i => (ho.queued i).sublist (h.requestsOf_sublist i), fun p hp => ?_, fun i w hw => ?_,
    BankStep.clean h hinv ho, fun t ht hs => ?_, fun i m hm hd => ?_, fun i e he => ?_⟩
  · rcases h.recycled hp with hp | ⟨w, rest, rfl, hq, hv, htype, hs, hq', rfl⟩
    · obtain ⟨h1, h2⟩ := ho.recycled p hp
      exact ⟨h1, fun g hg => h2 g (h.queue_suffix.subset hg)⟩
    · simp only [KeepsOrder, hq] at hkeep
      exact ⟨htype, fun g hg hr => hkeep hv htype hs g (hq' ▸ hg) hr⟩
  · rw [hsent] at hw
    exact ⟨huid ▸ (ho.sent i w hw).1, BankStep.sent h hinv ho hw⟩
  · obtain ⟨h1, h2⟩ := BankStep.readers h ho t ht hs
    exact ⟨h1, fun p hp => hans (h2 p hp)⟩
  · obtain ⟨h1, h2⟩ := BankStep.data h ho i m hm hd
    exact ⟨h1, fun p hp => hans (h2 p hp)⟩
  · rw [hl1] at he
    obtain ⟨g, hg, h1⟩ := ho.copy i e he
    exact ⟨g, hg, hans h1⟩

end

end Block

/-! ## Steps of the L1s -/

section Line

omit [DecidableEq ι]

variable {cfg : Config} {space : MemorySpaceType} {now : Nat} {ℓ ℓ' : L1Line ι} {e' : L1Entry ι}

theorem CoreStep.sent_memfetch {g : MemFetch ι} {sent : Option (RequestMsg ι)}
    (h : CoreStep cfg now space g ℓ sent ℓ') {m : RequestMsg ι} (hm : m ∈ sent) : m.memfetch = g := by
  cases h <;> cases hm <;> rfl

theorem CoreStep.hasCopy {g : MemFetch ι} {sent : Option (RequestMsg ι)}
    (h : CoreStep cfg now space g ℓ sent ℓ') (he : ℓ'.HasCopy e') :
    ∃ e, ℓ.HasCopy e ∧ e'.filledFor = e.filledFor ∧ e'.dataBlk = e.dataBlk := by
  obtain ⟨he', hstate⟩ := he
  cases h with
  | hit => exact ⟨e', ⟨he', hstate⟩, rfl, rfl⟩
  | loadMiss => simp at hstate
  | @loadMore t hr ht hs =>
    obtain ⟨e, he, rfl⟩ := Option.map_eq_some_iff.mp he'
    exact ⟨e, ⟨he, .inr ⟨t, ht, (L1TBE.stateAt_SM (by simpa using hstate)).1⟩⟩, rfl, rfl⟩
  | upgrade ht he hs => cases he'; exact ⟨_, ⟨he, .inl ⟨ht, hs⟩⟩, rfl, rfl⟩
  | upgradeMore ht hs =>
    obtain ⟨e, he, rfl⟩ := Option.map_eq_some_iff.mp he'
    exact ⟨e, ⟨he, .inr ⟨_, ht, (L1TBE.stateAt_SM hs).1⟩⟩, rfl, rfl⟩
  | write | writeMore => simp at hstate

theorem ResponseStep.hasCopy [DecidableEq ι] {i : ι} {m : ResponseMsg ι}
    (h : ResponseStep now i m ℓ ℓ') (he : ℓ'.HasCopy e') :
    (∃ e, ℓ.HasCopy e ∧ e'.filledFor = e.filledFor ∧ e'.dataBlk = e.dataBlk) ∨
      m.type = .DATA ∧ e'.filledFor = L1.answered m i ∧ e'.dataBlk = m.dataBlk := by
  obtain ⟨he', hstate⟩ := he
  cases h with
  | install ht hm => cases he'; exact .inr ⟨hm, rfl, rfl⟩
  | @discard t ht hm hw hs =>
    obtain ⟨e, he, rfl⟩ := Option.map_eq_some_iff.mp he'
    exact .inl ⟨e, ⟨he, .inr ⟨t, ht, (L1TBE.stateAt_SM (by simpa using hstate)).1⟩⟩, rfl, rfl⟩
  | discardDone | ackDone =>
    obtain ⟨e, he, rfl⟩ := Option.map_eq_some_iff.mp he'
    simp at hstate
  | renew ht he _ hs | renewDone ht he _ hs =>
    cases he'
    exact .inl ⟨_, ⟨he, .inr ⟨_, ht, (L1TBE.stateAt_SM hs).1⟩⟩, rfl, rfl⟩
  | ack => simp at hstate

end Line

namespace Block

variable {cfg : Config} {space : MemorySpaceType} {b b' : Block ι} {a : BlockAct ι}

variable {i : ι} {m : RequestMsg ι} {sent : Option (RequestMsg ι)}

theorem InTransit.setLine (h : b.InTransit m) {ℓ : L1Line ι}
    {uid : Nat} : { b.setLine i ℓ sent with nextUid := uid }.InTransit m := by
  refine h.imp (fun hm => ?_) id
  by_cases hj : m.requestor = i
  · simp only [Block.setLine, hj, update_self]
    exact List.mem_append_left _ (hj ▸ hm)
  · simpa only [Block.setLine, update_of_ne hj] using hm

theorem requestsOf_setLine (i j : ι) {ℓ : L1Line ι} {uid : Nat} :
    { b.setLine i ℓ sent with nextUid := uid }.requestsOf j =
      b.requestsOf j ++ if j = i then sent.toList else [] := by
  by_cases hj : j = i
  · subst hj
    simp [requestsOf, setLine]
  · simp [requestsOf, setLine, hj]

theorem inTransit_of_requestsOf (hinv : b.Inv cfg space)
    (hm : m ∈ b.requestsOf i) : b.InTransit m := by
  rcases List.mem_append.mp hm with hm | hm
  · exact .inr (.inl (List.mem_filter.mp hm).1)
  · exact .inl (by rwa [hinv.requestor i m hm])

theorem answered_eq_some {m : ResponseMsg ι} (h : ∃ g, (i, g) ∈ m.mfset) :
    ∃ g, L1.answered m i = some g ∧ (i, g) ∈ m.mfset := by
  obtain ⟨g, hg⟩ := h
  have hsome : (m.mfset.find? fun p => p.1 = i).isSome :=
    List.find?_isSome.mpr ⟨(i, g), hg, by simp⟩
  obtain ⟨⟨j, g'⟩, hp⟩ := Option.isSome_iff_exists.mp hsome
  obtain rfl : j = i := by simpa using List.find?_some hp
  exact ⟨g', by simp [L1.answered, hp], List.mem_of_find?_eq_some hp⟩

theorem orderInv_core (hinv : b.Inv cfg space) (ho : b.OrderInv) {wid : Nat}
    {ℓ : L1Line ι}
    (hstep : CoreStep cfg b.now space ⟨b.nextUid, i, wid⟩ (b.l1 i) sent ℓ) :
    { b.setLine i ℓ sent with nextUid := b.nextUid + 1 }.OrderInv := by
  have hwrites : ∀ j, ∀ w ∈ (b.setLine i ℓ sent).sentWrites j, w ∈ b.sentWrites j ∨
      j = i ∧ w.uid = b.nextUid ∧ ∃ m ∈ sent, m.type ≠ .GETS ∧ m.memfetch = w := by
    intro j w hw
    by_cases hj : j = i
    · subst hj
      simp only [setLine, update_self, List.mem_append, List.mem_map,
        List.mem_filter, Option.mem_toList, isWrite, decide_eq_true_eq] at hw
      rcases hw with hw | ⟨m, ⟨hm, htype⟩, rfl⟩
      · exact .inl hw
      · exact .inr ⟨rfl, by rw [hstep.sent_memfetch hm], m, hm, htype, rfl⟩
    · simp only [setLine, update_of_ne hj] at hw
      exact .inl hw
  have hans : ∀ {j g blk}, b.Answers j g blk →
      Answers { b.setLine i ℓ sent with nextUid := b.nextUid + 1 } j g blk := by
    intro j g blk h
    refine h.mono (Nat.le_succ _) fun w hw => (hwrites j w hw).imp id fun h => h.2.1.ge
  refine ⟨?_, ?_, ho.recycled, ?_, ho.clean, ?_, ?_, ?_⟩
  · intro m hm
    rcases inTransit_setLine hm with hm | ⟨hm, -⟩
    · exact Nat.lt_succ_of_lt (ho.fresh m hm)
    · rw [hstep.sent_memfetch hm]
      exact Nat.lt_succ_self _
  · intro j
    rw [requestsOf_setLine]
    split
    · refine List.pairwise_append.mpr ⟨ho.queued j, ?_, ?_⟩
      · cases sent <;> simp
      · intro x hx y hy _ _
        rw [hstep.sent_memfetch (Option.mem_toList.mp hy)]
        exact ho.fresh x (inTransit_of_requestsOf hinv hx)
    · rw [List.append_nil]
      exact ho.queued j
  · intro j w hw
    rcases hwrites j w hw with hw | ⟨rfl, huid, m, hm, htype, rfl⟩
    · obtain ⟨hlt, hloc⟩ := ho.sent j w hw
      refine ⟨Nat.lt_succ_of_lt hlt, hloc.imp ?_ id⟩
      rintro ⟨m, hm, h⟩
      exact ⟨m, hm.setLine, h⟩
    · have hreq : m.requestor = j := (hstep.sent hm).1
      refine ⟨huid ▸ Nat.lt_succ_self _, .inl ⟨m, .inl ?_, hreq, htype, rfl⟩⟩
      simp only [setLine, hreq, update_self]
      exact List.mem_append_right _ (Option.mem_toList.mpr hm)
  · intro t ht hs
    obtain ⟨h1, h2⟩ := ho.readers t ht hs
    exact ⟨h1, fun p hp => hans (h2 p hp)⟩
  · intro j m hm hd
    obtain ⟨h1, h2⟩ := ho.data j m hm hd
    exact ⟨h1, fun p hp => hans (h2 p hp)⟩
  · intro j e' he'
    by_cases hj : j = i
    · subst hj
      simp only [setLine, update_self] at he'
      obtain ⟨e, he, hfor, hdata⟩ := hstep.hasCopy he'
      obtain ⟨g, hg, h1⟩ := ho.copy j e he
      exact ⟨g, hfor.trans hg, hans (hdata ▸ h1)⟩
    · simp only [setLine, update_of_ne hj] at he'
      obtain ⟨g, hg, h1⟩ := ho.copy j e' he'
      exact ⟨g, hg, hans h1⟩

theorem orderInv_response (ho : b.OrderInv) {k : Nat} {m : ResponseMsg ι} {ℓ : L1Line ι}
    (hm : (b.responseToL1 i)[k]? = some m) (hstep : ResponseStep b.now i m (b.l1 i) ℓ) :
    OrderInv { b with l1 := update b.l1 i ℓ
                      responseToL1 := update b.responseToL1 i
                        ((b.responseToL1 i).eraseIdx k) } := by
  refine ⟨ho.fresh, ho.queued, ho.recycled, ho.sent, ho.clean, ho.readers, ?_, ?_⟩
  · intro j m' hm' hd
    by_cases hj : j = i
    · subst hj
      simp only [update_self] at hm'
      exact ho.data j m' (List.mem_of_mem_eraseIdx hm') hd
    · simp only [update_of_ne hj] at hm'
      exact ho.data j m' hm' hd
  · intro j e' he'
    by_cases hj : j = i
    · subst hj
      simp only [update_self] at he'
      rcases hstep.hasCopy he' with ⟨e, he, hfor, hdata⟩ | ⟨hd, hfor, hdata⟩
      · obtain ⟨g, hg, h1⟩ := ho.copy j e he
        exact ⟨g, hfor.trans hg, hdata ▸ h1⟩
      · obtain ⟨hex, h1⟩ := ho.data j m (mem_of_getElem?_eq_some hm) hd
        obtain ⟨g, hg, hmem⟩ := answered_eq_some hex
        exact ⟨g, hfor.trans hg, hdata ▸ h1 _ hmem⟩
    · simp only [update_of_ne hj] at he'
      exact ho.copy j e' he'

theorem orderInv_arrive (hinv : b.Inv cfg space) (ho : b.OrderInv)
    (hm : b.toL2 i = m :: rest) (hkeep : b.KeepsOrder cfg (.arrive i)) :
    OrderInv { b with toL2 := update b.toL2 i rest
                      l1RequestToL2Cache := b.l1RequestToL2Cache ++ [m] } := by
  have hreq : m.requestor = i := hinv.requestor i m (by simp [hm])
  refine ⟨fun m' hm' => ho.fresh m' (inTransit_arrive hinv hm hm'), fun j => ?_, fun p hp => ?_,
    fun j w hw => ?_, ho.clean, ho.readers, ho.data, ho.copy⟩
  · by_cases hj : j = i
    · subst hj
      simpa [requestsOf, hm, hreq] using ho.queued j
    · simpa [requestsOf, hreq, hj, Ne.symm hj] using ho.queued j
  · obtain ⟨h1, h2⟩ := ho.recycled p hp
    refine ⟨h1, fun g hg hr => ?_⟩
    rcases List.mem_append.mp hg with hg | hg
    · exact h2 g hg hr
    · obtain rfl : g = m := by simpa using hg
      simp only [KeepsOrder, hm] at hkeep
      exact hkeep p hp (hr.symm.trans hreq)
  · obtain ⟨hlt, hloc⟩ := ho.sent j w hw
    refine ⟨hlt, hloc.imp ?_ id⟩
    rintro ⟨m', hm', h⟩
    refine ⟨m', ?_, h⟩
    rcases hm' with hm' | hm' | hm'
    · by_cases hj : m'.requestor = i
      · rw [hj, hm] at hm'
        rcases List.mem_cons.mp hm' with rfl | hm'
        · exact .inr (.inl (by simp))
        · exact .inl (by simpa [hj] using hm')
      · exact .inl (by simpa [update_of_ne hj] using hm')
    · exact .inr (.inl (by simp [hm']))
    · exact .inr (.inr hm')

theorem orderInv_requeue (ho : b.OrderInv) {k due : Nat}
    (hm : b.recycled[k]? = some (due, m)) :
    OrderInv { b with recycled := b.recycled.eraseIdx k
                      l1RequestToL2Cache := b.l1RequestToL2Cache ++ [m] } := by
  obtain ⟨htype, hbehind⟩ := ho.recycled (due, m) (mem_of_getElem?_eq_some hm)
  refine ⟨fun m' hm' => ho.fresh m' (inTransit_requeue hm hm'), fun j => ?_, fun p hp => ?_,
    fun j w hw => ?_, ho.clean, ho.readers, ho.data, ho.copy⟩
  · have hold := ho.queued j
    simp only [requestsOf, List.filter_append, List.append_assoc] at hold ⊢
    obtain ⟨hq, hto, hqto⟩ := List.pairwise_append.mp hold
    refine List.pairwise_append.mpr ⟨hq, List.pairwise_append.mpr ⟨?_, hto, ?_⟩, ?_⟩
    · exact List.Pairwise.filter _ (List.pairwise_singleton _ _)
    · intro x hx y _ hgets
      obtain rfl : x = m := by simpa using List.mem_of_mem_filter hx
      exact absurd hgets htype
    · intro x hx y hy
      rcases List.mem_append.mp hy with hy | hy
      · obtain ⟨hy, hyj⟩ := List.mem_filter.mp hy
        obtain rfl : y = m := by simpa using hy
        obtain ⟨hx, hxj⟩ := List.mem_filter.mp hx
        exact hbehind x hx (by simp_all)
      · exact hqto x hx y hy
  · obtain ⟨h1, h2⟩ := ho.recycled p (List.mem_of_mem_eraseIdx hp)
    refine ⟨h1, fun g hg hr => ?_⟩
    rcases List.mem_append.mp hg with hg | hg
    · exact h2 g hg hr
    · obtain rfl : g = m := by simpa using hg
      exact fun hgets => absurd hgets htype
  · obtain ⟨hlt, hloc⟩ := ho.sent j w hw
    refine ⟨hlt, hloc.imp ?_ id⟩
    rintro ⟨m', hm', h⟩
    refine ⟨m', ?_, h⟩
    rcases hm' with hm' | hm' | ⟨due', hm'⟩
    · exact .inl hm'
    · exact .inr (.inl (by simp [hm']))
    · have hperm := perm_cons_eraseIdx hm
      rcases List.mem_cons.mp (hperm.mem_iff.mp hm') with heq | hm'
      · obtain ⟨-, rfl⟩ := Prod.mk.inj heq
        exact .inr (.inl (by simp))
      · exact .inr (.inr ⟨due', hm'⟩)

/-- **The step lemma of the order.** -/
theorem Step.orderInv (h : b.Step cfg space a b') (hinv : b.Inv cfg space) (ho : b.OrderInv)
    (hkeep : b.KeepsOrder cfg a) : b'.OrderInv := by
  cases h with
  | core _ hstep => exact orderInv_core hinv ho hstep
  | @l1Replace i ht =>
    refine ⟨ho.fresh, ho.queued, ho.recycled, ho.sent, ho.clean, ho.readers, ho.data, ?_⟩
    intro j e he
    by_cases hj : j = i
    · subst hj
      simp [L1Line.HasCopy] at he
    · simp only [update_of_ne hj] at he
      exact ho.copy j e he
  | l1Stall => exact ho
  | l1Response hm hstep => exact orderInv_response ho hm hstep
  | arrive hm => exact orderInv_arrive hinv ho hm hkeep
  | requeue hm => exact orderInv_requeue ho hm
  | bank hstep => exact BankStep.orderInv hstep hinv ho hkeep

theorem OrderInv.tick (ho : b.OrderInv) : b.tick.OrderInv :=
  ⟨ho.fresh, ho.queued, ho.recycled, ho.sent, ho.clean, ho.readers, ho.data, ho.copy⟩

end Block

/-! ## Runs -/

section Runs

variable {α : Type} [DecidableEq α] {cfg : Config} {space : α → MemorySpaceType} {s : α → Block ι}

theorem orderInv_of_keepsOrder
    (hs : (system ι cfg space).ReachableUnder (Component.Each (Block.KeepsOrder cfg)) s) (a : α) :
    (s a).OrderInv := by
  have h : (s a).Inv cfg (space a) ∧ (s a).LeaseInv cfg ∧ (s a).OrderInv := by
    refine Component.family_invariant
      (fun a b => b.Inv cfg (space a) ∧ b.LeaseInv cfg ∧ b.OrderInv) ?_ ?_ ?_ hs a
    · exact fun a => ⟨Block.inv_init cfg (space a), Block.leaseInv_init cfg, Block.orderInv_init⟩
    · exact fun a b h => ⟨h.1.tick, h.2.1.tick, h.2.2.tick⟩
    · intro a b act b' ⟨hinv, hl, ho⟩ hkeep hstep
      have h := Block.step_of_ok hinv hl hstep
      exact ⟨h.inv hinv, h.leaseInv hinv hl, h.orderInv hinv ho hkeep⟩
  exact h.2.2

omit [DecidableEq ι] in
theorem Block.keepsOrder_of_stalling (hv : cfg.variant ≠ .cachelease2oo) {b : Block ι}
    (hrec : b.recycled = []) (act : BlockAct ι) : b.KeepsOrder cfg act := by
  cases act with
  | l2Request =>
    simp only [Block.KeepsOrder]
    split
    · trivial
    · exact fun h => absurd h hv
  | arrive i =>
    simp only [Block.KeepsOrder, hrec]
    split
    · trivial
    · nofun
  | _ => trivial

theorem Block.Step.recycled_nil {sp : MemorySpaceType} {b b' : Block ι} {act : BlockAct ι}
    (h : b.Step cfg sp act b') (hv : cfg.variant ≠ .cachelease2oo) (hrec : b.recycled = []) :
    b'.recycled = [] := by
  cases h with
  | bank hstep =>
    rw [List.eq_nil_iff_forall_not_mem]
    intro p hp
    rcases hstep.recycled hp with hp | ⟨_, _, _, _, hoo, _⟩
    · rw [hrec] at hp
      cases hp
    · exact hv hoo
  | requeue hm => simp [hrec] at hm
  | _ => exact hrec

theorem orderInv_of_stalling (hv : cfg.variant ≠ .cachelease2oo)
    (hs : (system ι cfg space).Reachable s) (a : α) : (s a).OrderInv := by
  have h : (s a).Inv cfg (space a) ∧ (s a).LeaseInv cfg ∧ (s a).OrderInv ∧ (s a).recycled = [] := by
    refine Component.family_reachable_invariant
      (fun a b => b.Inv cfg (space a) ∧ b.LeaseInv cfg ∧ b.OrderInv ∧ b.recycled = []) ?_ ?_ ?_ hs a
    · exact fun a =>
        ⟨Block.inv_init cfg (space a), Block.leaseInv_init cfg, Block.orderInv_init, rfl⟩
    · exact fun a b h => ⟨h.1.tick, h.2.1.tick, h.2.2.1.tick, h.2.2.2⟩
    · intro a b act b' ⟨hinv, hl, ho, hrec⟩ hstep
      have h := Block.step_of_ok hinv hl hstep
      exact ⟨h.inv hinv, h.leaseInv hinv hl,
        h.orderInv hinv ho (Block.keepsOrder_of_stalling hv hrec act), h.recycled_nil hv hrec⟩
  exact h.2.2.1

theorem Block.hasCopy_of_getState {sp : MemorySpaceType} {b : Block ι} (hinv : b.Inv cfg sp) {i : ι}
    (h : L1.getState (b.l1Ctx i) = .S) : ∃ e, (b.l1 i).entry = some e ∧ (b.l1 i).HasCopy e := by
  cases ht : (b.l1 i).tbe with
  | some t =>
    rw [L1.getState_tbe (c := b.l1Ctx i) ht] at h
    have hc := (hinv.line i).stateAt_cases ht b.now
    rw [show t.stateAt b.now = .S from h] at hc
    simp at hc
  | none =>
    cases he : (b.l1 i).entry with
    | none => simp [L1.getState, Block.l1Ctx, L1Line.ctx, ht, he] at h
    | some e =>
      have hstate : e.cacheState = .S := by
        simp only [L1.getState, Block.l1Ctx, L1Line.ctx, ht, he] at h
        split at h
        · cases h
        · exact h
      exact ⟨e, rfl, he, .inl ⟨ht, hstate⟩⟩

/-- **cachelease2: a load sees the stores its L1 sent before it.** The accesses are numbered by `uid`
in the order in which the cores issue them. The data that answers the load `g` of `i` contains every
store, upgrade and atomic `i` has sent before `g`, and so does the copy that the data has filled, for
as long as the L1 hits on it. -/
theorem load_sees_older_stores (hv : cfg.variant = .cachelease2)
    (hs : (system ι cfg space).Reachable s) (a : α) (i : ι) :
    (∀ m ∈ (s a).responseToL1 i, m.type = .DATA →
      (∃ g, (i, g) ∈ m.mfset) ∧
      ∀ g, (i, g) ∈ m.mfset → ∀ w ∈ (s a).sentWrites i, w.uid < g.uid → w ∈ m.dataBlk) ∧
    (L1.getState ((s a).l1Ctx i) = .S → ∃ e g, ((s a).l1 i).entry = some e ∧
      e.filledFor = some g ∧ ∀ w ∈ (s a).sentWrites i, w.uid < g.uid → w ∈ e.dataBlk) := by
  have ho := orderInv_of_stalling (by simp [hv]) hs a
  constructor
  · intro m hm hd
    obtain ⟨hex, hall⟩ := ho.data i m hm hd
    exact ⟨hex, fun g hg => (hall _ hg).2⟩
  · intro hS
    obtain ⟨e, he, hcopy⟩ := Block.hasCopy_of_getState (reachable_inv hs a).1 hS
    obtain ⟨g, hg, hans⟩ := ho.copy i e hcopy
    exact ⟨e, g, he, hg, hans.2⟩

/-- A load after a store of the same L1: the copy it fills contains the store. -/
theorem load_sees_older_stores_hit :
    ∃ s, (twoL1s .cachelease2 10).run
        [.at () (.core true .ST 0), .at () (.arrive true), .at () .l2Request, .at () .l2Memory,
          .at () (.l1Response true 0), .at () (.core true .LD 0), .at () (.arrive true),
          .at () .l2Request, .at () (.l1Response true 0)] (twoL1s .cachelease2 10).init = some s ∧
      ∃ e, ((s ()).l1 true).entry = some e ∧ e.filledFor = some ⟨1, true, 0⟩ ∧
        ⟨0, true, 0⟩ ∈ e.dataBlk := by
  refine Machine.exists_run_of (twoL1s .cachelease2 10) _
    (fun s => (L1.getState ((s ()).l1Ctx true), (s ()).sentWrites true,
      ((s ()).l1 true).entry.bind (·.filledFor)))
    (y := (.S, [⟨0, true, 0⟩], some ⟨1, true, 0⟩)) (Machine.runMeets_true ..) rfl fun s hs hf => ?_
  simp only [Prod.mk.injEq] at hf
  obtain ⟨hS, hw, hg⟩ := hf
  obtain ⟨e, g, he, hfor, hall⟩ := (load_sees_older_stores rfl hs () true).2 hS
  simp only [he, Option.bind_some, hfor, Option.some.injEq] at hg
  subst hg
  exact ⟨e, he, hfor, hall ⟨0, true, 0⟩ (hw ▸ List.mem_singleton.mpr rfl) Nat.one_pos⟩

/-- **cachelease2oo keeps the order as long as no write is recycled past a younger read of its
L1.** In every run that does not do so (of this protocol or of the other two, which have nothing to
recycle), the data that answers a load contains the stores, upgrades and atomics its L1 has sent
before it. -/
theorem load_sees_older_stores_of_keepsOrder
    (hs : (system ι cfg space).ReachableUnder (Component.Each (Block.KeepsOrder cfg)) s)
    (a : α) (i : ι) (m : ResponseMsg ι) (hm : m ∈ (s a).responseToL1 i) (hd : m.type = .DATA) :
    (∃ g, (i, g) ∈ m.mfset) ∧
    ∀ g, (i, g) ∈ m.mfset → ∀ w ∈ (s a).sentWrites i, w.uid < g.uid → w ∈ m.dataBlk := by
  obtain ⟨hex, hall⟩ := (orderInv_of_keepsOrder hs a).data i m hm hd
  exact ⟨hex, fun g hg => (hall _ hg).2⟩

/-- The store of one L1 is recycled until the lease of the other is over; a load it sends then is
answered with the store. -/
theorem load_sees_older_stores_after_recycle :
    ∃ s, (twoL1s .cachelease2oo 3).run
        [.at () (.core false .LD 0), .at () (.arrive false), .at () .l2Request, .at () .l2Memory,
          .at () (.core true .ST 0), .at () (.arrive true), .at () .l2Request, .tick, .tick, .tick,
          .tick, .tick, .tick, .tick, .tick, .tick, .tick, .at () (.requeue 0), .at () .l2Request,
          .at () (.core true .LD 0), .at () (.arrive true), .at () .l2Request]
        (twoL1s .cachelease2oo 3).init = some s ∧
      ∃ m ∈ (s ()).responseToL1 true, m.type = .DATA ∧ (true, ⟨2, true, 0⟩) ∈ m.mfset ∧
        ⟨1, true, 0⟩ ∈ m.dataBlk := by
  refine Machine.exists_run_of (twoL1s .cachelease2oo 3)
    (Component.Each (Block.KeepsOrder { variant := .cachelease2oo, fixedLease := 3 }))
    (fun s => ((s ()).sentWrites true, ((s ()).responseToL1 true)[1]?.map fun m =>
      (m.type, m.mfset)))
    (y := ([⟨1, true, 0⟩], some (.DATA, [(true, ⟨2, true, 0⟩)]))) (by decide) rfl fun s hs hf => ?_
  simp only [Prod.mk.injEq, Option.map_eq_some_iff] at hf
  obtain ⟨hw, m, hm, htype, hmf⟩ := hf
  have hmem := mem_of_getElem?_eq_some hm
  have hg : (true, ⟨2, true, 0⟩) ∈ m.mfset := hmf ▸ List.mem_singleton.mpr rfl
  have hall := (load_sees_older_stores_of_keepsOrder hs () true m hmem htype).2 _ hg
  exact ⟨m, hmem, htype, hg, hall _ (hw ▸ List.mem_singleton.mpr rfl) (by decide)⟩

/-- In cachelease2oo a store that is blocked by the lease of another L1 is recycled, and a load the
same L1 sends after it is answered first. -/
theorem load_overtakes_recycled_store :
    ¬ ∀ s, (twoL1s .cachelease2oo 10).Reachable s → ∀ i, ∀ m ∈ (s ()).responseToL1 i,
      m.type = .DATA → ∀ g, (i, g) ∈ m.mfset →
        ∀ w ∈ (s ()).sentWrites i, w.uid < g.uid → w ∈ m.dataBlk := by
  obtain ⟨s, -, hs, hf⟩ := Machine.exists_reachable_of_run (twoL1s .cachelease2oo 10)
    [.at () (.core false .LD 0), .at () (.arrive false), .at () .l2Request, .at () .l2Memory,
      .at () (.core true .ST 0), .at () (.arrive true), .at () .l2Request,
      .at () (.core true .LD 0), .at () (.arrive true), .at () .l2Request]
    (fun s => ((s ()).sentWrites true, ((s ()).responseToL1 true)[0]?.map fun m =>
      (m.type, m.mfset, m.dataBlk)))
    (y := ([⟨1, true, 0⟩], some (.DATA, [(true, ⟨2, true, 0⟩)], []))) rfl
  simp only [Prod.mk.injEq, Option.map_eq_some_iff] at hf
  obtain ⟨hw, m, hm, htype, hmf, hblk⟩ := hf
  intro hall
  have hlost := hall s hs true m (mem_of_getElem?_eq_some hm) htype ⟨2, true, 0⟩
    (hmf ▸ List.mem_singleton.mpr rfl) ⟨1, true, 0⟩ (hw ▸ List.mem_singleton.mpr rfl) (by decide)
  rw [hblk] at hlost
  cases hlost

end Runs

end GpgpuSimRuby.Ruby.Cachelease2
