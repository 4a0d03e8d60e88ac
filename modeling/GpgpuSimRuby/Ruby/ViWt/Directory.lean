import GpgpuSimRuby.Ruby.ViWt.L1Steps

/-!
# VI_wt: what a bank does, abstractly

The four protocols keep track of copies in four ways (a sharer list, none at all, a directory apart
from the data, a sharer list with eviction notices). What the L1s and the networks get to see of it
is the same, and this module says what that is:

* `View` — the requests a bank has taken and not answered, the acknowledgements it still waits for,
  the L1s it lets keep a copy, its fetches from the DRAM.
* `BankStep` — a step of a bank is one trigger (a request, an acknowledgement, data from the DRAM, or
  nothing), then perhaps a round of invalidations, then perhaps an answer.
* `L1Move` — the steps of the L1s and of the request network.

A protocol is tied to this by the `View` of its bank: `Block.map` leaves the rest out.
-/

namespace GpgpuSimRuby.Ruby.ViWt

open Library Function

variable {ι β γ : Type}

/-- A request on its way through the system: what it is, and the access it serves. -/
abbrev Transaction (ι : Type) := Kind × MemFetch ι

/-- What the rest of the system gets to know of a bank. -/
structure View (ι : Type) where
  /-- The requests that are taken and not answered. -/
  waiting : List (Transaction ι) := []
  /-- The acknowledgements the bank still waits for, in a round of invalidations. -/
  pending : Option Int := none
  /-- The L1s that may hold a copy, as far as the bank knows. -/
  sharers : Finset ι := ∅
  memReads : Nat := 0
  /-- The L1s whose acknowledgements the answer of the waiting write rests on. -/
  asked : Finset ι := ∅

/-- Look at the bank through `f`. -/
def Block.map (f : β → γ) (b : Block ι β) : Block ι γ where
  l1 := b.l1
  toL2 := b.toL2
  l1RequestToL2Cache := b.l1RequestToL2Cache
  bank := f b.bank
  responseToL1 := b.responseToL1
  requestToL1 := b.requestToL1
  unblockToL2Cache := b.unblockToL2Cache
  nextUid := b.nextUid
  issued := b.issued
  answers := b.answers
  ackedBy := b.ackedBy

/-! ## Messages -/

/-- The transaction a request opens. -/
def RequestMsg.transaction (m : RequestMsg ι) : Option (Transaction ι) :=
  m.kind.bind fun k => m.memfetch.map fun g => (k, g)

/-- The transactions a response closes. -/
def ResponseMsg.transactions (m : ResponseMsg ι) : List (Transaction ι) :=
  match m.type with
  | .DATA => m.mfset.map fun x => (.read, x.2)
  | _ => m.memfetch.toList.map fun g => (m.kind, g)

/-- The request of a write or an atomic. -/
def writeMsg (atomic : Bool) (space : MemorySpaceType) (g : MemFetch ι) : RequestMsg ι :=
  dataMsg (if atomic then .DATA_ATOMIC else .DATA) space g

def writeKind (atomic : Bool) : Kind := if atomic then .atomic else .write

/-- Its answer. -/
def writeResponse (atomic : Bool) (g : MemFetch ι) : ResponseMsg ι where
  type := if atomic then .DATA_ATOMIC else .WB_ACK
  destination := {g.sid}
  memfetch := some g

theorem writeMsg_transaction (atomic : Bool) (space : MemorySpaceType) (g : MemFetch ι) :
    (writeMsg atomic space g).transaction = some (writeKind atomic, g) := by
  cases atomic <;> rfl

theorem writeResponse_transactions (atomic : Bool) (g : MemFetch ι) :
    (writeResponse atomic g).transactions = [(writeKind atomic, g)] := by
  cases atomic <;> rfl

theorem writeResponse_type (atomic : Bool) (g : MemFetch ι) :
    (writeResponse atomic g).type = .WB_ACK ∨ (writeResponse atomic g).type = .DATA_ATOMIC := by
  cases atomic
  · exact .inl rfl
  · exact .inr rfl

theorem ResponseMsg.memfetch_of_transactions {r : ResponseMsg ι} {x : Transaction ι}
    (htype : r.type = .WB_ACK ∨ r.type = .DATA_ATOMIC) (hx : r.transactions = [x]) :
    r.memfetch = some x.2 := by
  have hmap : r.memfetch.toList.map (fun g => (r.kind, g)) = [x] := by
    rcases htype with ht | ht <;> simpa only [ResponseMsg.transactions, ht] using hx
  cases hg : r.memfetch with
  | none => simp [hg] at hmap
  | some g =>
    obtain rfl : (r.kind, g) = x := by simpa [hg] using hmap
    rfl

/-- The requests an L1 sends. -/
inductive RequestMsg.Sent (p : L1.Protocol) (space : MemorySpaceType) : RequestMsg ι → Prop
  | gets (g : MemFetch ι) : Sent p space (getsMsg space g)
  | write (atomic : Bool) (g : MemFetch ι) : Sent p space (writeMsg atomic space g)
  | notice (i : ι) (hp : p = .VI_wt_ee) : Sent p space (evicMsg i)

@[simp] theorem getsMsg_kind (space : MemorySpaceType) (g : MemFetch ι) :
    (getsMsg space g).kind = some .read := rfl

@[simp] theorem dataMsg_kind (space : MemorySpaceType) (g : MemFetch ι) :
    (dataMsg .DATA space g).kind = some .write := rfl

@[simp] theorem atomicMsg_kind (space : MemorySpaceType) (g : MemFetch ι) :
    (dataMsg .DATA_ATOMIC space g).kind = some .atomic := rfl

@[simp] theorem evicMsg_kind (i : ι) : (evicMsg i).kind = none := rfl

theorem RequestMsg.transaction_kind {m : RequestMsg ι} {x : Transaction ι}
    (hx : m.transaction = some x) : m.kind = some x.1 := by
  simp only [RequestMsg.transaction, Option.bind_eq_some_iff, Option.map_eq_some_iff] at hx
  obtain ⟨k, hk, g, -, rfl⟩ := hx
  exact hk

variable {p : L1.Protocol} {space : MemorySpaceType} {ℓ ℓ' : L1Line}

theorem RequestMsg.Sent.sid {m : RequestMsg ι}
    (h : m.Sent p space) {x : Transaction ι} (hx : m.transaction = some x) : x.2.sid = m.requestor := by
  cases h with
  | gets g =>
    obtain rfl := Option.some.inj hx
    rfl
  | write atomic g =>
    rw [writeMsg_transaction] at hx
    obtain rfl := Option.some.inj hx
    rfl
  | notice i hp => cases hx

theorem CoreStep.sent {g : MemFetch ι} 
    {sent : Option (RequestMsg ι)} (h : CoreStep space g ℓ sent ℓ') :
    ∀ m ∈ sent, m.Sent p space ∧ m.requestor = g.sid := by
  intro m hm
  cases h with
  | hit => cases hm
  | loadMiss | loadMore =>
    obtain rfl := Option.some.inj hm
    exact ⟨.gets g, rfl⟩
  | writeHit | writeHitMore =>
    obtain rfl := Option.some.inj hm
    exact ⟨.write false g, rfl⟩
  | write _ htype | writeMore _ htype =>
    obtain rfl := Option.some.inj hm
    rcases htype with rfl | rfl
    · exact ⟨.write false g, rfl⟩
    · exact ⟨.write true g, rfl⟩

theorem CoreStep.kind_ne_none {g : MemFetch ι}
    {sent : Option (RequestMsg ι)} (h : CoreStep space g ℓ sent ℓ') : ∀ m ∈ sent, m.kind ≠ none := by
  intro m hm
  cases h with
  | hit => cases hm
  | loadMiss | loadMore | writeHit | writeHitMore =>
    obtain rfl := Option.some.inj hm
    simp
  | write _ htype | writeMore _ htype =>
    obtain rfl := Option.some.inj hm
    rcases htype with rfl | rfl <;> simp

theorem ReplaceStep.notice {i : ι}
    {sent : Option (RequestMsg ι)} (h : ReplaceStep p i ℓ sent ℓ') {m : RequestMsg ι} (hm : m ∈ sent) :
    p = .VI_wt_ee ∧ m = evicMsg i ∧ ℓ.tbe = none ∧ ℓ.state = .S ∧ ℓ' = { ℓ with entry := none } := by
  cases h with
  | evict ht hs =>
    split at hm
    · next hp => exact ⟨hp, (Option.some.inj hm).symm, ht, hs, rfl⟩
    · cases hm
  | drop => cases hm
  | stall => cases hm

theorem ReplaceStep.sent {i : ι}
    {sent : Option (RequestMsg ι)} (h : ReplaceStep p i ℓ sent ℓ') :
    ∀ m ∈ sent, m.Sent p space ∧ m.requestor = i := by
  intro m hm
  obtain ⟨hp, rfl, -⟩ := h.notice hm
  exact ⟨.notice i hp, rfl⟩

/-- A response an L1 can handle. -/
structure ResponseMsg.For (m : ResponseMsg ι) (i : ι) : Prop where
  destination : i ∈ m.destination
  type : m.type = .DATA ∨ m.type = .WB_ACK ∨ m.type = .DATA_ATOMIC

/-- An invalidation an L1 can handle. -/
structure InvMsg.For (m : InvMsg ι) (i : ι) : Prop where
  destination : i ∈ m.destination
  type : m.type = .INV ∨ m.type = .RECALL

/-- An acknowledgement the L2 can handle. -/
structure AckMsg.Good (m : AckMsg ι) : Prop where
  type : m.type = .INV_ACK ∨ m.type = .RECALL_ACK
  ackCount : m.ackCount = 1

/-! ## The steps of a bank -/

/-- What may start a round of invalidations: a request or a replacement. -/
def BankAct.Starts : BankAct → Prop
  | .request | .replace | .dirReplace => True
  | .unblock _ | .memory => False

namespace Block

variable [DecidableEq ι]

/-- The L1 of `i` has a copy, or is about to install one. -/
def Holder (b : Block ι β) (i : ι) : Prop :=
  (b.l1 i).Valid ∨ (b.l1 i).state = .I_S ∧ ∃ m ∈ b.responseToL1 i, m.type = .DATA

/-- The bank changes its mind on who may hold a copy, but forgets no holder. -/
def Adjust (b b' : Block ι (View ι)) : Prop :=
  ∃ v : View ι, b' = { b with bank := v } ∧ v.waiting = b.bank.waiting ∧
    v.pending = b.bank.pending ∧ v.memReads = b.bank.memReads ∧
    (∀ i ∈ b.bank.sharers, b.Holder i → i ∈ v.sharers) ∧ v.asked ⊆ b.bank.asked

/-- The view `v` forgets no holder of `b` and asks nobody anew. -/
def Keeps (b : Block ι (View ι)) (v : View ι) : Prop :=
  (∀ i ∈ b.bank.sharers, b.Holder i → i ∈ v.sharers) ∧ v.asked ⊆ b.bank.asked

/-- The block once the acknowledgement `a` has been taken, which leaves the bank `bank`. -/
@[simp]
def acked (b : Block ι β) (k : Nat) (a : AckMsg ι) (bank : β) : Block ι β :=
  { b with
    unblockToL2Cache := b.unblockToL2Cache.eraseIdx k
    ackedBy := insert a.sender b.ackedBy
    bank }

/-- What sets a bank off. A `forgetful` bank may lose track of what kind of write it has taken. -/
inductive Trigger (forgetful : Prop) (b : Block ι (View ι)) : BankAct → Block ι (View ι) → Prop
  /-- A request is taken, and perhaps a fetch issued for it. -/
  | take {m rest x} (fetches : Nat) (hq : b.l1RequestToL2Cache = m :: rest)
      (hx : m.transaction = some x) (hf : fetches ≤ 1) :
      Trigger forgetful b .request { b with
        l1RequestToL2Cache := rest
        bank := { b.bank with
          waiting := b.bank.waiting ++ [x], memReads := b.bank.memReads + fetches } }
  /-- A notice is taken. -/
  | notice {m rest} (hq : b.l1RequestToL2Cache = m :: rest) (hk : m.kind = none) :
      Trigger forgetful b .request { b with l1RequestToL2Cache := rest }
  /-- An acknowledgement is taken. -/
  | ack {k m n} (hk : b.unblockToL2Cache[k]? = some m) (hn : b.bank.pending = some n) :
      Trigger forgetful b (.unblock k) { b with
        unblockToL2Cache := b.unblockToL2Cache.eraseIdx k
        ackedBy := insert m.sender b.ackedBy
        bank := { b.bank with pending := if n = 1 then none else some (n - 1) } }
  /-- Data comes in from the DRAM. -/
  | memory (hm : 0 < b.bank.memReads) :
      Trigger forgetful b .memory { b with bank := { b.bank with memReads := b.bank.memReads - 1 } }
  /-- Data comes in from the DRAM, and the waiting atomic passes for a write from here on. -/
  | forget {g} (hf : forgetful) (hm : 0 < b.bank.memReads)
      (hw : b.bank.waiting = [(.atomic, g)]) :
      Trigger forgetful b .memory { b with
        bank := { b.bank with waiting := [(.write, g)], memReads := b.bank.memReads - 1 } }
  | replace : Trigger forgetful b .replace b
  | dirReplace : Trigger forgetful b .dirReplace b

/-- The bank invalidates the L1s `T`. -/
inductive Invalidate (b : Block ι (View ι)) : Block ι (View ι) → Prop
  | mk {type : CoherenceRequestType} {T asked : Finset ι} (htype : type = .INV ∨ type = .RECALL)
      (hpending : b.bank.pending = none) (hT : T.Nonempty) (hasked : asked ⊆ T) :
      Invalidate b (L2.sendInv { type := type, destination := T } { b with
        bank := { b.bank with
          pending := some T.card, sharers := b.bank.sharers \ T, asked := asked } })

/-- The bank answers what it has taken. -/
inductive Answer (b : Block ι (View ι)) (r : ResponseMsg ι) : Block ι (View ι) → Prop
  /-- Data for the loads; the bank knows of the copies it hands out. -/
  | reads (htype : r.type = .DATA) (hr : r.transactions = b.bank.waiting)
      (hdest : ∀ i, i ∈ r.destination ↔ ∃ x ∈ b.bank.waiting, x.2.sid = i)
      (hshare : r.destination ⊆ b.bank.sharers) :
      Answer b r (L2.send r { b with bank := { b.bank with waiting := [] } })
  /-- The answer of a write, once no other L1 may hold a copy. -/
  | write {x} (htype : r.type = .WB_ACK ∨ r.type = .DATA_ATOMIC) (hr : r.transactions = [x])
      (hw : b.bank.waiting = [x]) (hdest : r.destination = {x.2.sid})
      (hpending : b.bank.pending = none) (halone : b.bank.sharers ⊆ {x.2.sid}) :
      Answer b r (L2.send r { b with bank := { b.bank with waiting := [] } })

/-- A step of a bank that does not stall. -/
inductive BankStep (forgetful : Prop) (act : BankAct) (b b' : Block ι (View ι)) : Prop
  | handle {b₁ b₂ b₃ b₄} (before : Adjust b b₁) (trigger : Trigger forgetful b₁ act b₂)
      (round : b₃ = b₂ ∨ act.Starts ∧ Invalidate b₂ b₃) (answer : b₄ = b₃ ∨ ∃ r, Answer b₃ r b₄)
      (after : Adjust b₄ b')

/-! ### The steps of the protocols

What a controller does with one message, in terms of the views before and after it. -/

section Steps

variable {forgetful : Prop} {b b' : Block ι (View ι)} {act : BankAct} {m : RequestMsg ι}
  {rest : List (RequestMsg ι)} {x : Transaction ι} {r : ResponseMsg ι} {type : CoherenceRequestType}
  {T : Finset ι} {k : Nat} {a : AckMsg ι}

omit [DecidableEq ι] in
theorem Adjust.refl (b : Block ι (View ι)) : Adjust b b :=
  ⟨b.bank, rfl, rfl, rfl, rfl, fun _ h _ => h, Finset.Subset.rfl⟩

omit [DecidableEq ι] in
theorem Adjust.share {S : Finset ι} (h : ∀ i ∈ b.bank.sharers, b.Holder i → i ∈ S) :
    Adjust b { b with bank := { b.bank with sharers := S } } :=
  ⟨_, rfl, rfl, rfl, rfl, h, Finset.Subset.rfl⟩

theorem holder_of_send {b : Block ι β} {i : ι} (htype : r.type = .WB_ACK ∨ r.type = .DATA_ATOMIC)
    (hold : (L2.send r b).Holder i) : b.Holder i := by
  rcases hold with hv | ⟨hst, r', hr', htr'⟩
  · exact .inl hv
  refine .inr ⟨hst, r', ?_, htr'⟩
  simp only [L2.send] at hr'
  split at hr'
  · rcases List.mem_append.mp hr' with hr' | hr'
    · exact hr'
    · obtain rfl := List.mem_singleton.mp hr'
      rw [htr'] at htype
      rcases htype with htype | htype <;> cases htype
  · exact hr'

theorem BankStep.take (fetches : Nat) (hq : b.l1RequestToL2Cache = m :: rest)
    (hx : m.transaction = some x) (hf : fetches ≤ 1)
    (hb : b' = { b with l1RequestToL2Cache := rest, bank := b'.bank })
    (hw : b'.bank.waiting = b.bank.waiting ++ [x]) (hp : b'.bank.pending = b.bank.pending)
    (hm : b'.bank.memReads = b.bank.memReads + fetches)
    (hs : b.Keeps b'.bank) : BankStep forgetful .request b b' :=
  .handle (.refl b) (.take fetches hq hx hf) (.inl rfl) (.inl rfl) ⟨_, hb, hw, hp, hm, hs⟩

theorem BankStep.takeInv (fetches : Nat) (hq : b.l1RequestToL2Cache = m :: rest)
    (hx : m.transaction = some x) (hf : fetches ≤ 1)
    (hb : b' = L2.sendInv { type := type, destination := T }
      { b with l1RequestToL2Cache := rest, bank := b'.bank })
    (htype : type = .INV ∨ type = .RECALL) (hT : T.Nonempty) (hpending : b.bank.pending = none)
    (hw : b'.bank.waiting = b.bank.waiting ++ [x]) (hp : b'.bank.pending = some T.card)
    (hm : b'.bank.memReads = b.bank.memReads + fetches)
    (hs : ∀ i ∈ b.bank.sharers, b.Holder i → i ∈ T ∨ i ∈ b'.bank.sharers)
    (ha : b'.bank.asked ⊆ T) : BankStep forgetful .request b b' := by
  refine .handle (.refl b) (.take fetches hq hx hf)
    (.inr ⟨trivial, .mk htype hpending hT ha⟩) (.inl rfl) ⟨_, hb, hw, hp, hm, ?_, Finset.Subset.rfl⟩
  intro i hi hold
  obtain ⟨hi, hT⟩ := Finset.mem_sdiff.mp hi
  exact (hs i hi hold).resolve_left hT

theorem BankStep.answerRead (hq : b.l1RequestToL2Cache = m :: rest) (hx : m.transaction = some x)
    (hb : b' = L2.send r { b with l1RequestToL2Cache := rest, bank := b'.bank })
    (htype : r.type = .DATA) (hr : r.transactions = [x]) (hdest : r.destination = {x.2.sid})
    (hw : b.bank.waiting = []) (hw' : b'.bank.waiting = [])
    (hp : b'.bank.pending = b.bank.pending) (hm : b'.bank.memReads = b.bank.memReads)
    (hx' : x.2.sid ∈ b'.bank.sharers) (hs : b.Keeps b'.bank) :
    BankStep forgetful .request b b' := by
  refine .handle (Adjust.share hs.1) (.take 0 hq hx (by simp)) (.inl rfl)
    (.inr ⟨r, .reads htype ?_ ?_ ?_⟩) ⟨_, hb, hw', hp, hm, fun i hi _ => hi, hs.2⟩
  · simp [hr, hw]
  · simp [hdest, hw, eq_comm]
  · simp [hdest, hx']

theorem BankStep.answerWrite (hq : b.l1RequestToL2Cache = m :: rest) (hx : m.transaction = some x)
    (hb : b' = L2.send r { b with l1RequestToL2Cache := rest, bank := b'.bank })
    (htype : r.type = .WB_ACK ∨ r.type = .DATA_ATOMIC) (hr : r.transactions = [x])
    (hdest : r.destination = {x.2.sid}) (hpending : b.bank.pending = none)
    (hw : b.bank.waiting = []) (hw' : b'.bank.waiting = [])
    (hp : b'.bank.pending = b.bank.pending) (hm : b'.bank.memReads = b.bank.memReads)
    (halone : ∀ i ∈ b.bank.sharers, i = x.2.sid)
    (hs : b.Keeps b'.bank) : BankStep forgetful .request b b' := by
  refine .handle (.refl b) (.take 0 hq hx (by simp)) (.inl rfl)
    (.inr ⟨r, .write htype hr (by simp [hw]) hdest hpending ?_⟩) ⟨_, hb, hw', hp, hm, ?_, hs.2⟩
  · intro i hi
    exact Finset.mem_singleton.mpr (halone i hi)
  · exact fun i hi hold => hs.1 i hi (holder_of_send htype hold)

theorem BankStep.notice (hq : b.l1RequestToL2Cache = m :: rest) (hk : m.kind = none)
    (hb : b' = { b with l1RequestToL2Cache := rest, bank := b'.bank })
    (hw : b'.bank.waiting = b.bank.waiting) (hp : b'.bank.pending = b.bank.pending)
    (hm : b'.bank.memReads = b.bank.memReads)
    (hs : b.Keeps b'.bank) : BankStep forgetful .request b b' :=
  .handle (.refl b) (.notice hq hk) (.inl rfl) (.inl rfl) ⟨_, hb, hw, hp, hm, hs⟩

theorem BankStep.ack {n : Int} (hk : b.unblockToL2Cache[k]? = some a)
    (hn : b.bank.pending = some n)
    (hb : b' = b.acked k a b'.bank) (hw : b'.bank.waiting = b.bank.waiting)
    (hp : b'.bank.pending = if n = 1 then none else some (n - 1))
    (hm : b'.bank.memReads = b.bank.memReads)
    (hs : b.Keeps b'.bank) : BankStep forgetful (.unblock k) b b' :=
  .handle (.refl b) (.ack hk hn) (.inl rfl) (.inl rfl) ⟨_, hb, hw, hp, hm, hs⟩

theorem BankStep.ackAnswer (hk : b.unblockToL2Cache[k]? = some a) (hn : b.bank.pending = some 1)
    (hb : b' = L2.send r (b.acked k a b'.bank))
    (htype : r.type = .WB_ACK ∨ r.type = .DATA_ATOMIC) (hr : r.transactions = [x])
    (hw : b.bank.waiting = [x]) (hdest : r.destination = {x.2.sid})
    (halone : ∀ i ∈ b.bank.sharers, i = x.2.sid) (hw' : b'.bank.waiting = [])
    (hp : b'.bank.pending = none) (hm : b'.bank.memReads = b.bank.memReads)
    (hs : b.Keeps b'.bank) : BankStep forgetful (.unblock k) b b' := by
  refine .handle (.refl b) (.ack hk hn) (.inl rfl)
    (.inr ⟨r, .write htype hr hw hdest (by simp) ?_⟩) ⟨_, hb, hw', by simp [hp, L2.send], hm, ?_, hs.2⟩
  · exact fun i hi => Finset.mem_singleton.mpr (halone i hi)
  · exact fun i hi hold => hs.1 i hi (holder_of_send htype hold)

theorem BankStep.memory (hmem : 0 < b.bank.memReads) (hb : b' = { b with bank := b'.bank })
    (hw : b'.bank.waiting = b.bank.waiting) (hp : b'.bank.pending = b.bank.pending)
    (hm : b'.bank.memReads = b.bank.memReads - 1)
    (hs : b.Keeps b'.bank) : BankStep forgetful .memory b b' :=
  .handle (.refl b) (.memory hmem) (.inl rfl) (.inl rfl) ⟨_, hb, hw, hp, hm, hs⟩

theorem BankStep.forget {g : MemFetch ι} (hf : forgetful) (hmem : 0 < b.bank.memReads)
    (hw : b.bank.waiting = [(.atomic, g)]) (hb : b' = { b with bank := b'.bank })
    (hw' : b'.bank.waiting = [(.write, g)]) (hp : b'.bank.pending = b.bank.pending)
    (hm : b'.bank.memReads = b.bank.memReads - 1)
    (hs : b.Keeps b'.bank) : BankStep forgetful .memory b b' :=
  .handle (.refl b) (.forget hf hmem hw) (.inl rfl) (.inl rfl) ⟨_, hb, hw', hp, hm, hs⟩

theorem BankStep.fillReads (hmem : 0 < b.bank.memReads)
    (hb : b' = L2.send r { b with bank := b'.bank })
    (htype : r.type = .DATA) (hr : r.transactions = b.bank.waiting)
    (hdest : ∀ i, i ∈ r.destination ↔ ∃ x ∈ b.bank.waiting, x.2.sid = i)
    (hshare : r.destination ⊆ b.bank.sharers) (hw' : b'.bank.waiting = [])
    (hp : b'.bank.pending = b.bank.pending) (hm : b'.bank.memReads = b.bank.memReads - 1)
    (hs : b.bank.sharers ⊆ b'.bank.sharers) (ha : b'.bank.asked ⊆ b.bank.asked) :
    BankStep forgetful .memory b b' :=
  .handle (.refl b) (.memory hmem) (.inl rfl) (.inr ⟨r, .reads htype hr hdest hshare⟩)
    ⟨_, hb, hw', hp, hm, fun _ hi _ => hs hi, ha⟩

theorem BankStep.fillWrite (hmem : 0 < b.bank.memReads)
    (hb : b' = L2.send r { b with bank := b'.bank })
    (htype : r.type = .WB_ACK ∨ r.type = .DATA_ATOMIC) (hr : r.transactions = [x])
    (hw : b.bank.waiting = [x]) (hdest : r.destination = {x.2.sid})
    (hpending : b.bank.pending = none) (halone : ∀ i ∈ b.bank.sharers, i = x.2.sid)
    (hw' : b'.bank.waiting = []) (hp : b'.bank.pending = b.bank.pending)
    (hm : b'.bank.memReads = b.bank.memReads - 1) (hs : b.bank.sharers ⊆ b'.bank.sharers)
    (ha : b'.bank.asked ⊆ b.bank.asked) : BankStep forgetful .memory b b' :=
  .handle (.refl b) (.memory hmem) (.inl rfl)
    (.inr ⟨r, .write htype hr hw hdest hpending fun i hi => Finset.mem_singleton.mpr (halone i hi)⟩)
    ⟨_, hb, hw', hp, hm, fun _ hi _ => hs hi, ha⟩

theorem BankStep.quiet (hact : act = .replace ∨ act = .dirReplace)
    (hb : b' = { b with bank := b'.bank }) (hw : b'.bank.waiting = b.bank.waiting)
    (hp : b'.bank.pending = b.bank.pending) (hm : b'.bank.memReads = b.bank.memReads)
    (hs : b.Keeps b'.bank) : BankStep forgetful act b b' := by
  rcases hact with rfl | rfl
  · exact .handle (.refl b) .replace (.inl rfl) (.inl rfl) ⟨_, hb, hw, hp, hm, hs⟩
  · exact .handle (.refl b) .dirReplace (.inl rfl) (.inl rfl) ⟨_, hb, hw, hp, hm, hs⟩

theorem BankStep.evict (hact : act = .replace ∨ act = .dirReplace)
    (hb : b' = L2.sendInv { type := type, destination := T } { b with bank := b'.bank })
    (htype : type = .INV ∨ type = .RECALL) (hT : T.Nonempty) (hpending : b.bank.pending = none)
    (hw : b'.bank.waiting = b.bank.waiting) (hp : b'.bank.pending = some T.card)
    (hm : b'.bank.memReads = b.bank.memReads)
    (hs : ∀ i ∈ b.bank.sharers, b.Holder i → i ∈ T ∨ i ∈ b'.bank.sharers)
    (ha : b'.bank.asked ⊆ T) : BankStep forgetful act b b' := by
  have hafter : ∀ i ∈ b.bank.sharers \ T, b.Holder i → i ∈ b'.bank.sharers := by
    intro i hi hold
    obtain ⟨hi, hT⟩ := Finset.mem_sdiff.mp hi
    exact (hs i hi hold).resolve_left hT
  rcases hact with rfl | rfl
  · exact .handle (.refl b) .replace (.inr ⟨trivial, .mk htype hpending hT ha⟩) (.inl rfl)
      ⟨_, hb, hw, hp, hm, hafter, Finset.Subset.rfl⟩
  · exact .handle (.refl b) .dirReplace (.inr ⟨trivial, .mk htype hpending hT ha⟩) (.inl rfl)
      ⟨_, hb, hw, hp, hm, hafter, Finset.Subset.rfl⟩

end Steps

/-! ## The steps of the L1s and of the request network -/

/-- A step of an L1 or of the request network. -/
inductive L1Move (p : L1.Protocol) (space : MemorySpaceType) (b : Block ι β) :
    BlockAct ι → Block ι β → Prop
  | core {i type wid sent ℓ}
      (h : CoreStep space { uid := b.nextUid, sid := i, wid := wid } (b.l1 i) sent ℓ) :
      L1Move p space b (.core i type wid) { b with
        l1 := update b.l1 i ℓ
        toL2 := update b.toL2 i (b.toL2 i ++ sent.toList)
        issued := b.issued ++ sent.toList
        nextUid := b.nextUid + 1 }
  | replace {i sent ℓ} (h : ReplaceStep p i (b.l1 i) sent ℓ) :
      L1Move p space b (.l1Replace i) { b with
        l1 := update b.l1 i ℓ
        toL2 := update b.toL2 i (b.toL2 i ++ sent.toList) }
  | response {i k m ℓ} (hm : (b.responseToL1 i)[k]? = some m) (h : ResponseStep m (b.l1 i) ℓ) :
      L1Move p space b (.l1Response i k) { b with
        l1 := update b.l1 i ℓ
        responseToL1 := update b.responseToL1 i ((b.responseToL1 i).eraseIdx k) }
  | invalidate {i k m ack ℓ} (hm : (b.requestToL1 i)[k]? = some m) (hack : ack.Good)
      (hsender : ack.sender = i) (h : InvStep (b.l1 i) ℓ) :
      L1Move p space b (.l1Inv i k) { b with
        l1 := update b.l1 i ℓ
        requestToL1 := update b.requestToL1 i ((b.requestToL1 i).eraseIdx k)
        unblockToL2Cache := b.unblockToL2Cache ++ [ack] }
  | arrive {i m rest} (hq : b.toL2 i = m :: rest) :
      L1Move p space b (.arrive i) { b with
        toL2 := update b.toL2 i rest
        l1RequestToL2Cache := b.l1RequestToL2Cache ++ [m] }

theorem L1Move.map {b b' : Block ι β} {act : BlockAct ι}
    (h : L1Move p space b act b') (f : β → γ) : L1Move p space (b.map f) act (b'.map f) := by
  cases h with
  | core h => exact .core (b := b.map f) h
  | replace h => exact .replace (b := b.map f) h
  | response hm h => exact .response (b := b.map f) hm h
  | invalidate hm hack hsender h => exact .invalidate (b := b.map f) hm hack hsender h
  | arrive hq => exact .arrive (b := b.map f) hq

end Block

end GpgpuSimRuby.Ruby.ViWt
