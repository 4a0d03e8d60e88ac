import GpgpuSimRuby.Ruby.ViWt.Directory

/-!
# VI_wt: the invariant of a block

`Inv` ties the L1s, the networks and the bank together: the counters of every L1 count what is under
way, a round of invalidations accounts for its messages, and every copy is one the bank knows of or
is being invalidated.

* `L1Move.inv`, `BankStep.inv` — every step keeps it.
* `BankStep.answers` — when the bank answers a write, nobody else holds a copy.
* `step_l1Move` — the L1s and the request network of the model take the steps that `L1Move` lists.
-/

namespace GpgpuSimRuby.Ruby.ViWt

open Library Function

variable {ι β γ : Type}

namespace Block

variable [DecidableEq ι] {k : Nat}

/-! ## The invariant -/

/-- The transactions of `i` of the kind `k` that are under way. -/
def outstanding (b : Block ι (View ι)) (i : ι) (k : Kind) : Nat :=
  (b.toL2 i).countP (fun m => m.kind = some k) +
  b.l1RequestToL2Cache.countP (fun m => m.requestor = i ∧ m.kind = some k) +
  b.bank.waiting.countP (fun x => x.2.sid = i ∧ x.1 = k) +
  (b.responseToL1 i).countP (fun m => m.kind = k)

theorem outstanding_congr {b b' : Block ι (View ι)} {i : ι} (hto : b'.toL2 i = b.toL2 i)
    (hq : b'.l1RequestToL2Cache = b.l1RequestToL2Cache)
    (hw : b'.bank.waiting = b.bank.waiting) (hr : b'.responseToL1 i = b.responseToL1 i) :
    b'.outstanding i = b.outstanding i := by
  funext k
  simp only [outstanding, hto, hq, hw, hr]

omit [DecidableEq ι] in
theorem holder_congr {b b' : Block ι β} {i : ι} (hl : b'.l1 i = b.l1 i)
    (hr : b'.responseToL1 i = b.responseToL1 i) : b'.Holder i ↔ b.Holder i := by
  simp only [Holder, hl, hr]

theorem outstanding_sent {b b' : Block ι (View ι)} {i : ι} {sent : Option (RequestMsg ι)}
    (hto : b'.toL2 i = b.toL2 i ++ sent.toList) (hq : b'.l1RequestToL2Cache = b.l1RequestToL2Cache)
    (hw : b'.bank.waiting = b.bank.waiting) (hr : b'.responseToL1 i = b.responseToL1 i) :
    b'.outstanding i = opened (b.outstanding i) sent := by
  funext k
  cases sent with
  | none => simp [outstanding, opened, hto, hq, hw, hr]
  | some m =>
    simp only [outstanding, opened, hto, hq, hw, hr, Option.toList_some, List.countP_append,
      List.countP_singleton, Option.bind_some, decide_eq_true_eq]
    omega

theorem outstanding_response {b b' : Block ι (View ι)} {i : ι} {m : ResponseMsg ι}
    (hm : (b.responseToL1 i)[k]? = some m) (hto : b'.toL2 i = b.toL2 i)
    (hq : b'.l1RequestToL2Cache = b.l1RequestToL2Cache) (hw : b'.bank.waiting = b.bank.waiting)
    (hr : b'.responseToL1 i = (b.responseToL1 i).eraseIdx k) (kind : Kind) :
    b.outstanding i kind = b'.outstanding i kind + if m.kind = kind then 1 else 0 := by
  have hcount := countP_eraseIdx (fun m' : ResponseMsg ι => decide (m'.kind = kind)) hm
  simp only [decide_eq_true_eq] at hcount
  simp only [outstanding, hto, hq, hw, hr]
  omega

/-- The invariant of a block. -/
structure Inv (p : L1.Protocol) (space : MemorySpaceType) [Fintype ι] (b : Block ι (View ι)) :
    Prop where
  line : ∀ i, (b.l1 i).Balanced (b.outstanding i)
  sent : ∀ i, ∀ m ∈ b.toL2 i, m.Sent p space ∧ m.requestor = i
  queue : ∀ m ∈ b.l1RequestToL2Cache, m.Sent p space
  response : ∀ i, ∀ m ∈ b.responseToL1 i, m.For i
  invalidation : ∀ i, ∀ m ∈ b.requestToL1 i, m.For i
  ack : ∀ m ∈ b.unblockToL2Cache, m.Good
  /-- Outside of a round nothing of one is under way. -/
  quiet : b.bank.pending = none → (∀ i, b.requestToL1 i = []) ∧ b.unblockToL2Cache = []
  /-- A round waits for exactly the messages under way. -/
  round : ∀ n, b.bank.pending = some n →
    0 < n ∧ n = ∑ i, (b.requestToL1 i).length + b.unblockToL2Cache.length
  /-- Every holder is one the bank knows of, or is being invalidated. -/
  cover : ∀ i, b.Holder i → i ∈ b.bank.sharers ∨ b.requestToL1 i ≠ []
  /-- Who is asked is being invalidated, is acknowledging, or has acknowledged. -/
  asked : ∀ i ∈ b.bank.asked,
    i ∈ b.ackedBy ∨ b.requestToL1 i ≠ [] ∨ ∃ m ∈ b.unblockToL2Cache, m.sender = i

section Preservation

variable [Fintype ι] {p : L1.Protocol} {space : MemorySpaceType} {b b' : Block ι (View ι)}
  {forgetful : Prop} {act : BankAct} {rest : List (RequestMsg ι)}

theorem Inv.pending_of_ack {m : AckMsg ι} (hinv : b.Inv p space) (hm : m ∈ b.unblockToL2Cache) :
    b.bank.pending ≠ none := by
  intro hnone
  rw [(hinv.quiet hnone).2] at hm
  cases hm

variable {i : ι}

section

variable (hinv : b.Inv p space)
include hinv

theorem Inv.no_data_of_tbe_none (ht : (b.l1 i).tbe = none) : b.responseToL1 i = [] := by
  have h0 := (hinv.line i).tbe_eq_none_iff.mp ht
  rw [List.eq_nil_iff_forall_not_mem]
  intro m hm
  have hpos : 0 < (b.responseToL1 i).countP (fun m' => m'.kind = m.kind) :=
    List.countP_pos_iff.mpr ⟨m, hm, by simp⟩
  have := h0 m.kind
  simp only [outstanding] at this
  omega

theorem Inv.not_holder_of_atomic {g : MemFetch ι}
    (hq : b.l1RequestToL2Cache = writeMsg true space g :: rest) :
    ¬ b.Holder g.sid := by
  have hpos : 0 < b.outstanding g.sid .atomic := by
    have : 0 < b.l1RequestToL2Cache.countP (fun m => m.requestor = g.sid ∧ m.kind = some .atomic) :=
      List.countP_pos_iff.mpr ⟨_, by rw [hq]; exact List.mem_cons_self, by
        simp [writeMsg, dataMsg, RequestMsg.kind]⟩
    simp only [outstanding]
    omega
  have hstate := (hinv.line g.sid).state_of_atomic hpos
  simp [Holder, L1Line.Valid, hstate]

theorem sent_append {sent : Option (RequestMsg ι)}
    (hsent : ∀ m ∈ sent, m.Sent p space ∧ m.requestor = i) (j : ι) :
    ∀ m ∈ update b.toL2 i (b.toL2 i ++ sent.toList) j, m.Sent p space ∧ m.requestor = j := by
  intro m hm
  by_cases hji : j = i
  · subst hji
    rw [update_self, List.mem_append, Option.mem_toList] at hm
    rcases hm with hm | hm
    · exact hinv.sent j m hm
    · exact hsent m hm
  · rw [update_of_ne hji] at hm
    exact hinv.sent j m hm

/-- A step of the L1 of `i` that only sends a request keeps the invariant, if it brings no copy. -/
theorem Inv.send {sent : Option (RequestMsg ι)} {ℓ : L1Line}
    (hl : b'.l1 = update b.l1 i ℓ)
    (hto : b'.toL2 = update b.toL2 i (b.toL2 i ++ sent.toList))
    (hq : b'.l1RequestToL2Cache = b.l1RequestToL2Cache) (hbank : b'.bank = b.bank)
    (hr : b'.responseToL1 = b.responseToL1) (hi : b'.requestToL1 = b.requestToL1)
    (hu : b'.unblockToL2Cache = b.unblockToL2Cache) (ha : b'.ackedBy = b.ackedBy)
    (hsent : ∀ m ∈ sent, m.Sent p space ∧ m.requestor = i)
    (hbal : ℓ.Balanced (opened (b.outstanding i) sent)) (hold : b'.Holder i → b.Holder i) :
    b'.Inv p space := by
  refine ⟨?_, ?_, ?_, ?_, ?_, ?_, ?_, ?_, ?_, ?_⟩
  · intro j
    by_cases hji : j = i
    · subst hji
      rw [hl, update_self, outstanding_sent (by rw [hto, update_self]) hq
        (by rw [hbank]) (by rw [hr])]
      exact hbal
    · rw [hl, update_of_ne hji, outstanding_congr (by rw [hto, update_of_ne hji])
        hq (by rw [hbank]) (by rw [hr])]
      exact hinv.line j
  · rw [hto]
    exact sent_append hinv hsent
  · rw [hq]
    exact hinv.queue
  · rw [hr]
    exact hinv.response
  · rw [hi]
    exact hinv.invalidation
  · rw [hu]
    exact hinv.ack
  · rw [hbank, hi, hu]
    exact hinv.quiet
  · rw [hbank, hi, hu]
    exact hinv.round
  · intro j hj
    rw [hbank, hi]
    by_cases hji : j = i
    · subst hji
      exact hinv.cover j (hold hj)
    · refine hinv.cover j ?_
      exact (holder_congr (by rw [hl, update_of_ne hji]) (by rw [hr])).mp hj
  · rw [hbank, hi, hu, ha]
    exact hinv.asked

theorem Inv.core {type : CacheRequestType} {wid : Nat}
    (h : L1Move p space b (.core i type wid) b') : b'.Inv p space := by
  cases h with
  | @core _ _ _ sent ℓ h =>
    refine hinv.send rfl rfl rfl rfl rfl rfl rfl rfl h.sent (h.balanced (hinv.line i)) ?_
    intro hold
    simp only [Holder, update_self] at hold
    rcases hold with hv | ⟨hs, m, hm, -⟩
    · exact .inl (h.valid hv)
    · rw [hinv.no_data_of_tbe_none (h.tbe_of_I_S hs)] at hm
      cases hm

theorem Inv.replace (h : L1Move p space b (.l1Replace i) b') : b'.Inv p space := by
  cases h with
  | @replace _ sent ℓ h =>
    refine hinv.send rfl rfl rfl rfl rfl rfl rfl rfl h.sent (h.balanced (hinv.line i)) ?_
    intro hold
    simp only [Holder, update_self] at hold
    obtain ⟨rfl, -⟩ := h.holds (hold.imp id And.left)
    exact hold

theorem Inv.l1Response (h : L1Move p space b (.l1Response i k) b') : b'.Inv p space := by
  cases h with
  | @response _ _ m ℓ hm h =>
    refine ⟨?_, hinv.sent, hinv.queue, ?_, hinv.invalidation, hinv.ack, hinv.quiet, hinv.round, ?_,
      hinv.asked⟩
    · intro j
      by_cases hji : j = i
      · subst hji
        simp only [update_self]
        refine h.balanced (hinv.line j) (outstanding_response hm rfl rfl rfl ?_)
        simp only [update_self]
      · simp only [update_of_ne hji]
        rw [outstanding_congr (b := b) (i := j)]
        · exact hinv.line j
        · rfl
        · rfl
        · rfl
        · simp only [update_of_ne hji]
    · intro j m' hm'
      by_cases hji : j = i
      · subst hji
        simp only [update_self] at hm'
        exact hinv.response j m' (List.mem_of_mem_eraseIdx hm')
      · simp only [update_of_ne hji] at hm'
        exact hinv.response j m' hm'
    · intro j hj
      refine hinv.cover j ?_
      by_cases hji : j = i
      · subst hji
        simp only [Holder, update_self] at hj
        rcases hj with hv | ⟨hs, -⟩
        · rcases h.valid hv with hv' | ⟨hs, htype⟩
          · exact .inl hv'
          · exact .inr ⟨hs, m, mem_of_getElem?_eq_some hm, htype⟩
        · exact absurd hs h.state_ne_I_S
      · simpa only [Holder, update_of_ne hji] using hj

end

theorem sum_length_update {α : Type} {f : ι → List α} {a : α} (h : (f i)[k]? = some a) :
    ∑ j, (f j).length = ∑ j, (update f i ((f i).eraseIdx k) j).length + 1 := by
  have hsum := sum_apply_update List.length f i ((f i).eraseIdx k)
  rw [length_eraseIdx_getElem? h] at hsum
  omega

theorem Inv.l1Inv (hinv : b.Inv p space) (h : L1Move p space b (.l1Inv i k) b') : b'.Inv p space := by
  cases h with
  | @invalidate _ _ m ack ℓ hm hack hsender h =>
    have hne : b.requestToL1 i ≠ [] := by
      intro hnil
      simp [hnil] at hm
    refine ⟨?_, hinv.sent, hinv.queue, hinv.response, ?_, ?_, ?_, ?_, ?_, ?_⟩
    · intro j
      by_cases hji : j = i
      · subst hji
        simp only [update_self]
        exact h.balanced (hinv.line j)
      · simp only [update_of_ne hji]
        exact hinv.line j
    · intro j m' hm'
      by_cases hji : j = i
      · subst hji
        simp only [update_self] at hm'
        exact hinv.invalidation j m' (List.mem_of_mem_eraseIdx hm')
      · simp only [update_of_ne hji] at hm'
        exact hinv.invalidation j m' hm'
    · intro m' hm'
      rcases List.mem_append.mp hm' with hm' | hm'
      · exact hinv.ack m' hm'
      · rwa [List.mem_singleton.mp hm']
    · intro hnone
      exact absurd ((hinv.quiet hnone).1 i) hne
    · intro n hn
      obtain ⟨hpos, hsum⟩ := hinv.round n hn
      refine ⟨hpos, ?_⟩
      rw [sum_length_update hm] at hsum
      simp only [List.length_append, List.length_singleton]
      push_cast at hsum ⊢
      omega
    · intro j hj
      by_cases hji : j = i
      · subst hji
        simp only [Holder, L1Line.Valid, update_self] at hj
        rcases h.state with hs | hs <;> simp [hs] at hj
      · simp only [update_of_ne hji]
        exact hinv.cover j (by simpa only [Holder, update_of_ne hji] using hj)
    · intro j hj
      by_cases hji : j = i
      · subst hji
        exact .inr (.inr ⟨ack, by simp, hsender⟩)
      · simp only [update_of_ne hji]
        rcases hinv.asked j hj with h | h | ⟨m', hm', hs⟩
        · exact .inl h
        · exact .inr (.inl h)
        · exact .inr (.inr ⟨m', List.mem_append_left _ hm', hs⟩)

theorem Inv.arrive (hinv : b.Inv p space) (h : L1Move p space b (.arrive i) b') : b'.Inv p space := by
  cases h with
  | @arrive _ m rest hq =>
    obtain ⟨hsent, hreq⟩ := hinv.sent i m (by rw [hq]; exact List.mem_cons_self)
    refine ⟨?_, ?_, ?_, hinv.response, hinv.invalidation, hinv.ack, hinv.quiet, hinv.round,
      hinv.cover, hinv.asked⟩
    · intro j
      have hsame : outstanding { b with
          toL2 := update b.toL2 i rest
          l1RequestToL2Cache := b.l1RequestToL2Cache ++ [m] } j = b.outstanding j := by
        funext k
        by_cases hji : j = i
        · subst hji
          simp only [outstanding, update_self, hq, List.countP_append, List.countP_cons,
            List.countP_nil, hreq, true_and, decide_eq_true_eq]
          omega
        · simp [outstanding, update_of_ne hji, hreq, Ne.symm hji]
      rw [hsame]
      exact hinv.line j
    · intro j m' hm'
      by_cases hji : j = i
      · subst hji
        simp only [update_self] at hm'
        exact hinv.sent j m' (by rw [hq]; exact List.mem_cons_of_mem _ hm')
      · simp only [update_of_ne hji] at hm'
        exact hinv.sent j m' hm'
    · intro m' hm'
      rcases List.mem_append.mp hm' with hm' | hm'
      · exact hinv.queue m' hm'
      · rwa [List.mem_singleton.mp hm']

/-- **The L1s and the request network** keep the invariant. -/
theorem L1Move.inv {act : BlockAct ι} (h : L1Move p space b act b') (hinv : b.Inv p space) :
    b'.Inv p space := by
  cases act with
  | core i type wid => exact hinv.core h
  | l1Replace i => exact hinv.replace h
  | l1Response i k => exact hinv.l1Response h
  | l1Inv i k => exact hinv.l1Inv h
  | arrive i => exact hinv.arrive h
  | l2 act => cases h

omit [DecidableEq ι] [Fintype ι] in
theorem Adjust.holder (h : Adjust b b') (i : ι) : b'.Holder i ↔ b.Holder i := by
  obtain ⟨v, rfl, -⟩ := h
  rfl

theorem Adjust.inv (h : Adjust b b') (hinv : b.Inv p space) : b'.Inv p space := by
  obtain ⟨v, rfl, hw, hp, -, hs, ha⟩ := h
  refine ⟨?_, hinv.sent, hinv.queue, hinv.response, hinv.invalidation, hinv.ack, ?_, ?_, ?_, ?_⟩
  · intro i
    rw [outstanding_congr (b := b) (i := i)]
    · exact hinv.line i
    · rfl
    · rfl
    · exact hw
    · rfl
  · intro hnone
    exact hinv.quiet (hp ▸ hnone)
  · intro n hn
    exact hinv.round n (hp ▸ hn)
  · intro i hi
    exact (hinv.cover i hi).imp (fun hm => hs i hm hi) id
  · intro i hi
    exact hinv.asked i (ha hi)

theorem Inv.take {m : RequestMsg ι} {x : Transaction ι} {fetches : Nat}
    (hinv : b.Inv p space) (hq : b.l1RequestToL2Cache = m :: rest) (hx : m.transaction = some x) :
    Inv p space { b with
      l1RequestToL2Cache := rest
      bank := { b.bank with
        waiting := b.bank.waiting ++ [x], memReads := b.bank.memReads + fetches } } := by
  have hkind := RequestMsg.transaction_kind hx
  have hsid := (hinv.queue m (by simp [hq])).sid hx
  refine ⟨?_, hinv.sent, ?_, hinv.response, hinv.invalidation, hinv.ack, hinv.quiet, hinv.round,
    hinv.cover, hinv.asked⟩
  · intro i
    have hsame : outstanding { b with
        l1RequestToL2Cache := rest
        bank := { b.bank with
          waiting := b.bank.waiting ++ [x], memReads := b.bank.memReads + fetches } } i =
        b.outstanding i := by
      funext k
      simp only [outstanding, hq, List.countP_append, List.countP_cons, List.countP_nil, hkind, hsid,
        Option.some.injEq, decide_eq_true_eq]
      omega
    rw [hsame]
    exact hinv.line i
  · intro m' hm'
    exact hinv.queue m' (by rw [hq]; exact List.mem_cons_of_mem _ hm')

theorem Inv.notice {m : RequestMsg ι} (hinv : b.Inv p space)
    (hq : b.l1RequestToL2Cache = m :: rest) (hk : m.kind = none) :
    Inv p space { b with l1RequestToL2Cache := rest } := by
  refine ⟨?_, hinv.sent, ?_, hinv.response, hinv.invalidation, hinv.ack, hinv.quiet, hinv.round,
    hinv.cover, hinv.asked⟩
  · intro i
    have hsame : outstanding { b with l1RequestToL2Cache := rest } i = b.outstanding i := by
      funext k
      simp [outstanding, hq, hk]
    rw [hsame]
    exact hinv.line i
  · intro m' hm'
    exact hinv.queue m' (by rw [hq]; exact List.mem_cons_of_mem _ hm')

theorem Inv.takeAck {m : AckMsg ι} {n : Int} (hinv : b.Inv p space)
    (hk : b.unblockToL2Cache[k]? = some m) (hn : b.bank.pending = some n) :
    Inv p space { b with
      unblockToL2Cache := b.unblockToL2Cache.eraseIdx k
      ackedBy := insert m.sender b.ackedBy
      bank := { b.bank with pending := if n = 1 then none else some (n - 1) } } := by
  obtain ⟨hpos, hsum⟩ := hinv.round n hn
  rw [length_eraseIdx_getElem? hk, Nat.cast_add, Nat.cast_one] at hsum
  refine ⟨hinv.line, hinv.sent, hinv.queue, hinv.response, hinv.invalidation, ?_, ?_, ?_, hinv.cover,
    ?_⟩
  · intro m' hm'
    exact hinv.ack m' (List.mem_of_mem_eraseIdx hm')
  · intro hnone
    have h1 : n = 1 := by
      by_contra hne
      simp [hne] at hnone
    have hzero : ∑ i, (b.requestToL1 i).length = 0 ∧ (b.unblockToL2Cache.eraseIdx k).length = 0 := by
      constructor <;> omega
    refine ⟨fun i => ?_, List.length_eq_zero_iff.mp hzero.2⟩
    exact List.length_eq_zero_iff.mp (Finset.sum_eq_zero_iff.mp hzero.1 i (Finset.mem_univ i))
  · intro n' hn'
    simp only at hn'
    split at hn'
    · cases hn'
    · obtain rfl := Option.some.inj hn'
      refine ⟨by omega, ?_⟩
      simp only
      omega
  · intro i hi
    rcases hinv.asked i hi with h | h | ⟨m', hm', hs⟩
    · exact .inl (Finset.mem_insert_of_mem h)
    · exact .inr (.inl h)
    · rcases List.mem_cons.mp ((perm_cons_eraseIdx hk).mem_iff.mp hm') with rfl | hm'
      · exact .inl (by simp [hs])
      · exact .inr (.inr ⟨m', hm', hs⟩)

theorem Inv.forget {g : MemFetch ι} {memReads : Nat} (hinv : b.Inv p space)
    (hw : b.bank.waiting = [(.atomic, g)]) : Inv p space { b with
      bank := { b.bank with waiting := [(.write, g)], memReads := memReads } } := by
  refine ⟨?_, hinv.sent, hinv.queue, hinv.response, hinv.invalidation, hinv.ack, hinv.quiet,
    hinv.round, hinv.cover, hinv.asked⟩
  intro i
  refine (hinv.line i).relabel ?_ ?_ ?_
  · simp [outstanding, hw]
  · simp only [outstanding, hw, List.countP_singleton]
    by_cases hi : g.sid = i
    · simp [hi]
      omega
    · simp [hi]
  · simp [outstanding, hw]

theorem Trigger.inv (h : Trigger forgetful b act b') (hinv : b.Inv p space) : b'.Inv p space := by
  cases h with
  | take fetches hq hx hf => exact hinv.take hq hx
  | notice hq hk => exact hinv.notice hq hk
  | ack hk hn => exact hinv.takeAck hk hn
  | memory hm =>
    exact ⟨hinv.line, hinv.sent, hinv.queue, hinv.response, hinv.invalidation, hinv.ack, hinv.quiet,
      hinv.round, hinv.cover, hinv.asked⟩
  | forget hf hm hw => exact hinv.forget hw
  | replace => exact hinv
  | dirReplace => exact hinv

theorem Invalidate.inv (h : Invalidate b b') (hinv : b.Inv p space) : b'.Inv p space := by
  cases h with
  | @mk type T asked htype hpending hT hasked =>
    obtain ⟨hreq, hack⟩ := hinv.quiet hpending
    refine ⟨hinv.line, hinv.sent, hinv.queue, hinv.response, ?_, hinv.ack, ?_, ?_, ?_, ?_⟩
    · intro i m hm
      simp only [L2.sendInv, hreq, List.nil_append] at hm
      split at hm
      · next hi =>
        obtain rfl := List.mem_singleton.mp hm
        exact ⟨hi, htype⟩
      · cases hm
    · intro hnone
      cases hnone
    · intro n hn
      obtain rfl := Option.some.inj hn
      have hsum : ∑ i, ((L2.sendInv (β := View ι) { type := type, destination := T } b).requestToL1
          i).length = T.card := by
        simp [L2.sendInv, hreq, apply_ite List.length, Finset.sum_ite_mem]
      refine ⟨by exact_mod_cast hT.card_pos, ?_⟩
      simp only [L2.sendInv] at hsum ⊢
      rw [hsum, hack]
      simp
    · intro i hi
      rcases hinv.cover i hi with hs | hne
      · by_cases hiT : i ∈ T
        · exact .inr (by simp [L2.sendInv, hiT])
        · exact .inl (Finset.mem_sdiff.mpr ⟨hs, hiT⟩)
      · exact absurd (hreq i) hne
    · intro i hi
      exact .inr (.inl (by simp [L2.sendInv, hasked hi]))

theorem Inv.send_response {r : ResponseMsg ι} (hinv : b.Inv p space)
    (htype : r.type = .DATA ∨ r.type = .WB_ACK ∨ r.type = .DATA_ATOMIC)
    (hcount : ∀ i k, b.bank.waiting.countP (fun x => x.2.sid = i ∧ x.1 = k) =
      if i ∈ r.destination ∧ r.kind = k then 1 else 0)
    (hshare : r.type = .DATA → r.destination ⊆ b.bank.sharers) :
    Inv p space (L2.send r { b with bank := { b.bank with waiting := [] } }) := by
  refine ⟨?_, hinv.sent, hinv.queue, ?_, hinv.invalidation, hinv.ack, hinv.quiet, hinv.round, ?_,
    hinv.asked⟩
  · intro i
    have hsame : outstanding (L2.send r { b with bank := { b.bank with waiting := [] } }) i =
        b.outstanding i := by
      funext k
      simp only [outstanding, hcount, L2.send, List.countP_nil]
      by_cases hi : i ∈ r.destination
      · simp only [hi, if_true, List.countP_append, List.countP_singleton, true_and,
          decide_eq_true_eq]
        omega
      · simp only [hi, if_false, false_and]
    rw [hsame]
    exact hinv.line i
  · intro i m hm
    simp only [L2.send] at hm
    split at hm
    · next hi =>
      rcases List.mem_append.mp hm with hm | hm
      · exact hinv.response i m hm
      · obtain rfl := List.mem_singleton.mp hm
        exact ⟨hi, htype⟩
    · exact hinv.response i m hm
  · intro i hi
    by_cases hd : r.type = .DATA ∧ i ∈ r.destination
    · exact .inl (hshare hd.1 hd.2)
    · refine hinv.cover i ?_
      rcases hi with hv | ⟨hs, m, hm, hmt⟩
      · exact .inl hv
      · refine .inr ⟨hs, m, ?_, hmt⟩
        simp only [L2.send] at hm
        split at hm
        · next hi =>
          rcases List.mem_append.mp hm with hm | hm
          · exact hm
          · obtain rfl := List.mem_singleton.mp hm
            exact absurd ⟨hmt, hi⟩ hd
        · exact hm

theorem Answer.inv {r : ResponseMsg ι} (h : Answer b r b') (hinv : b.Inv p space) : b'.Inv p space := by
  cases h with
  | reads htype hr hdest hshare =>
    have hkind : r.kind = .read := by simp [ResponseMsg.kind, htype]
    have hreads : ∀ x ∈ b.bank.waiting, x.1 = .read := by
      rw [← hr]
      simp only [ResponseMsg.transactions, htype, List.mem_map]
      rintro x ⟨y, -, rfl⟩
      rfl
    refine hinv.send_response (.inl htype) ?_ (fun _ => hshare)
    intro i k
    rw [hkind]
    by_cases hk : Kind.read = k
    · subst hk
      -- at most one read of `i` is under way, and it is here if `i` is a destination
      have hle : b.bank.waiting.countP (fun x => x.2.sid = i ∧ x.1 = .read) ≤ 1 := by
        have := (hinv.line i).reads_le_one
        simp only [outstanding] at this
        omega
      by_cases hi : i ∈ r.destination
      · obtain ⟨x, hx, hsid⟩ := (hdest i).mp hi
        have hpos : 0 < b.bank.waiting.countP (fun x => x.2.sid = i ∧ x.1 = .read) :=
          List.countP_pos_iff.mpr ⟨x, hx, by simp [hsid, hreads x hx]⟩
        rw [if_pos ⟨hi, rfl⟩]
        omega
      · rw [if_neg fun h => hi h.1, List.countP_eq_zero]
        intro x hx hxi
        exact hi ((hdest i).mpr ⟨x, hx, (of_decide_eq_true hxi).1⟩)
    · rw [if_neg fun h => hk h.2, List.countP_eq_zero]
      intro x hx hxi
      exact hk ((hreads x hx).symm.trans (of_decide_eq_true hxi).2)
  | @write x htype hr hw hdest hpending halone =>
    have hkind : r.kind = x.1 := by
      have hmem : x ∈ r.transactions := by simp [hr]
      rcases htype with htype | htype <;>
        simp only [ResponseMsg.transactions, htype, List.mem_map] at hmem <;>
        obtain ⟨g, -, rfl⟩ := hmem <;> rfl
    refine hinv.send_response (.inr htype) ?_ ?_
    · intro i k
      simp only [hw, List.countP_singleton, decide_eq_true_eq, hdest, Finset.mem_singleton, hkind,
        eq_comm (a := i)]
    · intro hdata
      rcases htype with htype | htype <;> rw [hdata] at htype <;> cases htype

/-- **The bank** keeps the invariant. -/
theorem BankStep.inv (h : BankStep forgetful act b b') (hinv : b.Inv p space) : b'.Inv p space := by
  cases h with
  | handle before trigger round answer after =>
    have h₂ := trigger.inv (before.inv hinv)
    have h₃ : Inv p space _ := round.elim (fun h => h ▸ h₂) fun h => h.2.inv h₂
    have h₄ : Inv p space _ := answer.elim (fun h => h ▸ h₃) (fun h => h.choose_spec.inv h₃)
    exact after.inv h₄

/-- **Write atomicity of the abstract bank.** When it answers a write, no other L1 is a holder. -/
theorem Answer.alone {r : ResponseMsg ι} (h : Answer b r b') (hinv : b.Inv p space) (htype : r.type ≠ .DATA) :
    ∃ x, r.transactions = [x] ∧ r.destination = {x.2.sid} ∧ ∀ j ≠ x.2.sid, ¬ b'.Holder j := by
  cases h with
  | reads hdata => exact absurd hdata htype
  | @write x hwrite hr _ hdest hpending halone =>
    refine ⟨x, hr, hdest, ?_⟩
    intro j hj hold
    rcases hinv.cover j (holder_of_send hwrite hold) with hs | hne
    · exact hj (Finset.mem_singleton.mp (halone hs))
    · exact hne ((hinv.quiet hpending).1 j)

omit [Fintype ι] in
theorem BankStep.pending (h : BankStep forgetful act b b') {n : Int} (hn : b.bank.pending = some n) :
    (∃ k, act = .unblock k) ∧ b'.bank.pending = (if n = 1 then none else some (n - 1)) ∨
      (∀ k, act ≠ .unblock k) ∧ b'.bank.pending = some n := by
  cases h with
  | @handle b₁ b₂ b₃ b₄ before trigger round answer after =>
    have hb₁ : b₁.bank.pending = some n := by
      obtain ⟨v, rfl, -, hp, -⟩ := before
      exact hp.trans hn
    have hb₂ : (∃ k, act = .unblock k) ∧ b₂.bank.pending = (if n = 1 then none else some (n - 1)) ∨
        (∀ k, act ≠ .unblock k) ∧ b₂.bank.pending = some n := by
      cases trigger with
      | ack _ hn' =>
        obtain rfl := Option.some.inj (hn'.symm.trans hb₁)
        exact .inl ⟨⟨_, rfl⟩, rfl⟩
      | take | notice | memory | forget | replace | dirReplace => exact .inr ⟨by simp, hb₁⟩
    have hb₃ : b₃.bank.pending = b₂.bank.pending := by
      rcases round with rfl | ⟨hs, hr⟩
      · rfl
      · rcases hb₂ with ⟨⟨k, rfl⟩, -⟩ | ⟨-, hb₂⟩
        · exact hs.elim
        · cases hr with
          | mk _ hnone =>
            rw [hb₂] at hnone
            cases hnone
    have hb₄ : b₄.bank.pending = b₃.bank.pending := by
      rcases answer with rfl | ⟨r, hr⟩
      · rfl
      · cases hr <;> rfl
    obtain ⟨v, rfl, -, hp, -⟩ := after
    simp only [hp, hb₄, hb₃]
    exact hb₂

/-- When a step that starts no round leaves nothing pending, everybody who was asked has
acknowledged. -/
theorem BankStep.acked (h : BankStep forgetful act b b') (hinv : b.Inv p space)
    (hs : ¬ act.Starts) (hinv' : b'.Inv p space) (hp : b'.bank.pending = none) :
    ∀ i ∈ b.bank.asked, i ∈ b'.ackedBy := by
  obtain ⟨hnoinv, hnoack⟩ := hinv'.quiet hp
  -- an acknowledgement that is not under way any more has been taken
  have htaken : b'.requestToL1 = b.requestToL1 ∧ (∀ i ∈ b.ackedBy, i ∈ b'.ackedBy) ∧
      ∀ m ∈ b.unblockToL2Cache, m.sender ∈ b'.ackedBy ∨ m ∈ b'.unblockToL2Cache := by
    cases h with
    | @handle b₁ b₂ b₃ b₄ before trigger round answer after =>
      obtain rfl : b₃ = b₂ := round.resolve_right fun hr => hs hr.1
      have h₄ : b₄.requestToL1 = b₃.requestToL1 ∧ b₄.ackedBy = b₃.ackedBy ∧
          b₄.unblockToL2Cache = b₃.unblockToL2Cache := by
        rcases answer with rfl | ⟨r, hr⟩
        · exact ⟨rfl, rfl, rfl⟩
        · cases hr <;> exact ⟨rfl, rfl, rfl⟩
      obtain ⟨v, rfl, -⟩ := before
      obtain ⟨v', rfl, -⟩ := after
      simp only [h₄]
      cases trigger with
      | take => exact absurd trivial hs
      | notice => exact absurd trivial hs
      | replace => exact absurd trivial hs
      | dirReplace => exact absurd trivial hs
      | memory => exact ⟨rfl, fun i hi => hi, fun m hm => .inr hm⟩
      | forget => exact ⟨rfl, fun i hi => hi, fun m hm => .inr hm⟩
      | ack hk =>
        refine ⟨rfl, fun i hi => Finset.mem_insert_of_mem hi, fun m hm => ?_⟩
        rcases List.mem_cons.mp ((perm_cons_eraseIdx hk).mem_iff.mp hm) with rfl | hm
        · exact .inl (Finset.mem_insert_self ..)
        · exact .inr hm
  obtain ⟨hreq, hold, hack⟩ := htaken
  intro i hi
  rcases hinv.asked i hi with hi | hne | ⟨m, hm, rfl⟩
  · exact hold i hi
  · rw [← hreq] at hne
    exact absurd (hnoinv i) hne
  · rcases hack m hm with hm | hm
    · exact hm
    · rw [hnoack] at hm
      cases hm

theorem BankStep.answers (h : BankStep forgetful act b b') (hinv : b.Inv p space) :
    b'.answers = b.answers ∨ ∃ r, b'.answers = b.answers ++ [r] ∧
      (∀ i ∈ r.destination, r ∈ b'.responseToL1 i) ∧
      (r.type ≠ .DATA → ∃ x, r.transactions = [x] ∧ r.destination = {x.2.sid} ∧
        ∀ j ≠ x.2.sid, ¬ b'.Holder j) := by
  cases h with
  | @handle b₁ b₂ b₃ b₄ before trigger round answer after =>
    have h₂ := trigger.inv (before.inv hinv)
    have h₃ : Inv p space b₃ := round.elim (fun h => h ▸ h₂) fun h => h.2.inv h₂
    have hb₁ : b₁.answers = b.answers := by
      obtain ⟨v, rfl, -⟩ := before
      rfl
    have hb₂ : b₂.answers = b₁.answers := by cases trigger <;> rfl
    have hb₃ : b₃.answers = b₂.answers := by
      rcases round with rfl | ⟨-, round⟩
      · rfl
      · cases round
        rfl
    have hb' : b'.answers = b₄.answers := by
      obtain ⟨v, rfl, -⟩ := after
      rfl
    rcases answer with rfl | ⟨r, hr⟩
    · exact .inl (by rw [hb', hb₃, hb₂, hb₁])
    · refine .inr ⟨r, ?_, ?_, ?_⟩
      · have hb₄ : b₄.answers = b₃.answers ++ [r] := by cases hr <;> rfl
        rw [hb', hb₄, hb₃, hb₂, hb₁]
      · intro i hi
        obtain ⟨v, rfl, -⟩ := after
        cases hr <;> simp [L2.send, hi]
      · intro htype
        obtain ⟨x, hx, hdest, halone⟩ := hr.alone h₃ htype
        exact ⟨x, hx, hdest, fun j hj => (after.holder j).not.mpr (halone j hj)⟩

end Preservation

/-! ## The L1s take these steps -/

section Steps

variable [Fintype ι] {p : L1.Protocol} {space : MemorySpaceType} {b : Block ι β}
  {f : β → View ι} {r : Except Fault (Block ι β)}

section

variable (hinv : (b.map f).Inv p space)
include hinv

theorem stepCore_spec {i : ι} {type : CacheRequestType} {wid : Nat}
    (h : b.stepCore p space i type wid = some r) :
    ∃ b', r = .ok b' ∧ L1Move p space b (.core i type wid) b' := by
  unfold stepCore at h
  split at h
  · cases h
  · next hguard =>
    obtain ⟨hfence, hmshr⟩ := not_or.mp hguard
    have hline : (b.l1 i).Balanced _ := hinv.line i
    obtain ⟨sent, ℓ, hrun, hstep⟩ := L1.request_spec (p := p) b.getTrueSharers space
      { uid := b.nextUid, sid := i, wid := wid } hline
      (fun hld => by simpa [hld] using hmshr) hfence
    have hfilter : sent.toList.filter (fun m => m.type ≠ .L1_EVIC_INV) = sent.toList := by
      rw [List.filter_eq_self]
      intro m hm
      have hkind := hstep.kind_ne_none m (Option.mem_toList.mp hm)
      simp only [ne_eq, decide_not, Bool.not_eq_eq_eq_not, Bool.not_true, decide_eq_false_iff_not]
      intro htype
      simp [RequestMsg.kind, htype] at hkind
    obtain rfl := Option.some.inj h
    refine ⟨_, ?_, .core hstep⟩
    simp only [l1Ctx, Except.map] at hrun ⊢
    rw [hrun]
    simp only [putL1, L1Line.ctx, hfilter, List.append_nil]

theorem stepL1Replace_spec {i : ι} (h : b.stepL1Replace p i = some r) :
    ∃ b', r = .ok b' ∧ L1Move p space b (.l1Replace i) b' := by
  unfold stepL1Replace at h
  split at h
  · cases h
  · next e he =>
    have hmem : (b.l1 i).entry.isSome → i ∈ b.getTrueSharers := by
      simp [getTrueSharers]
    have hline : (b.l1 i).Balanced _ := hinv.line i
    obtain ⟨sent, ℓ, hrun, hstep⟩ := L1.replacement_spec (p := p) hline
      (show (b.l1 i).entry ≠ none by simp [he]) hmem
    have hfilter : sent.toList.filter (fun m => m.type ≠ .L1_EVIC_INV) = [] := by
      rw [List.filter_eq_nil_iff]
      intro m hm
      obtain ⟨-, rfl, -⟩ := hstep.notice (Option.mem_toList.mp hm)
      simp [evicMsg]
    obtain rfl := Option.some.inj h
    refine ⟨_, ?_, .replace hstep⟩
    simp only [l1Ctx, Except.map] at hrun ⊢
    rw [hrun]
    simp only [putL1, L1Line.ctx, hfilter, List.append_nil]

theorem stepL1Response_spec {i : ι} (h : b.stepL1Response p i k = some r) :
    ∃ b', r = .ok b' ∧ L1Move p space b (.l1Response i k) b' := by
  unfold stepL1Response at h
  split at h
  · cases h
  · next m hm =>
    have hmem := mem_of_getElem?_eq_some hm
    have hfor := hinv.response i m hmem
    have hpos : 0 < (b.map f).outstanding i m.kind := by
      have : 0 < (b.responseToL1 i).countP (fun m' => m'.kind = m.kind) :=
        List.countP_pos_iff.mpr ⟨m, hmem, by simp⟩
      simp only [outstanding, map]
      omega
    have hline : (b.l1 i).Balanced _ := hinv.line i
    obtain ⟨ℓ, hrun, hstep⟩ := L1.receive_spec (p := p) b.getTrueSharers hline
      hfor.destination hfor.type hpos
    obtain rfl := Option.some.inj h
    refine ⟨_, ?_, .response hm hstep⟩
    simp only [l1Ctx, Except.map] at hrun ⊢
    rw [hrun]
    simp [putL1, L1Line.ctx]

theorem stepL1Inv_spec {i : ι} (h : b.stepL1Inv p i k = some r) :
    ∃ b', r = .ok b' ∧ L1Move p space b (.l1Inv i k) b' := by
  unfold stepL1Inv at h
  split at h
  · cases h
  · next m hm =>
    have hfor := hinv.invalidation i m (mem_of_getElem?_eq_some hm)
    have hline : (b.l1 i).Balanced _ := hinv.line i
    obtain ⟨ack, ℓ, hrun, htype, hsender, hcount, hstep⟩ := L1.invalidate_spec (p := p)
      b.getTrueSharers hline hfor.destination hfor.type
    obtain rfl := Option.some.inj h
    refine ⟨_, ?_, .invalidate hm ⟨htype, hcount⟩ hsender hstep⟩
    simp only [l1Ctx, Except.map] at hrun ⊢
    rw [hrun]
    simp [putL1, L1Line.ctx]

/-- **The L1s and the request network** take only these steps, and none of them faults. -/
theorem step_l1Move {C : BankController ι β} {act : BlockAct ι}
    (hact : ∀ a, act ≠ .l2 a) (h : b.step p C space act = some r) :
    ∃ b', r = .ok b' ∧ L1Move p space b act b' := by
  cases act with
  | core i type wid => exact stepCore_spec hinv h
  | l1Replace i => exact stepL1Replace_spec hinv h
  | l1Response i k => exact stepL1Response_spec hinv h
  | l1Inv i k => exact stepL1Inv_spec hinv h
  | arrive i =>
    change b.stepArrive i = some r at h
    unfold stepArrive at h
    split at h
    · cases h
    · next m rest hq =>
      obtain rfl := Option.some.inj h
      exact ⟨_, rfl, .arrive hq⟩
  | l2 a => exact absurd rfl (hact a)

end

end Steps

end Block

end GpgpuSimRuby.Ruby.ViWt
