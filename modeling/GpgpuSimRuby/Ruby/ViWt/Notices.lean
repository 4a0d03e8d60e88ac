import GpgpuSimRuby.Ruby.ViWt.Invariant

/-!
# VI_wt_ee: notices of evictions

An L1 of VI_wt_ee tells the L2 when it drops a copy. The notice travels on the request network, where
the messages of one L1 stay in order, so it is always ahead of the requests the L1 has sent since:
as long as a notice is under way, the L1 has nothing but requests behind it (`Notices`). This is why
the L2 can believe a notice whenever it comes.
-/

namespace GpgpuSimRuby.Ruby.ViWt

open Library Function

variable {ι β : Type} [DecidableEq ι]

namespace Block

/-- The messages of `i` on the request network, the oldest first. -/
def pipe (b : Block ι β) (i : ι) : List (RequestMsg ι) :=
  b.l1RequestToL2Cache.filter (fun m => m.requestor = i) ++ b.toL2 i

/-- A notice of `i` is under way. -/
def Noticed (b : Block ι β) (i : ι) : Prop := ∃ m ∈ b.pipe i, m.kind = none

/-- What is known of an L1 with a notice under way: it is the oldest message and the only notice, the
bank has nothing to do for the L1, and the L1 has no copy and none to come. -/
structure Noted (b : Block ι (View ι)) (i : ι) : Prop where
  pipe : ∃ m rest, b.pipe i = m :: rest ∧ m.kind = none ∧ ∀ m' ∈ rest, m'.kind ≠ none
  waiting : ∀ x ∈ b.bank.waiting, x.2.sid ≠ i
  responses : b.responseToL1 i = []
  valid : ¬ (b.l1 i).Valid

/-- Every notice under way is `Noted`. -/
def Notices (b : Block ι (View ι)) : Prop := ∀ i, b.Noticed i → b.Noted i

variable {i : ι}

theorem Noted.not_holder {b : Block ι (View ι)} (h : b.Noted i) : ¬ b.Holder i := by
  rintro (hv | ⟨-, m, hm, -⟩)
  · exact h.valid hv
  · rw [h.responses] at hm
    cases hm

variable {m : RequestMsg ι} {rest : List (RequestMsg ι)}

theorem Notices.not_holder {b : Block ι (View ι)}
    (h : b.Notices) (hq : b.l1RequestToL2Cache = m :: rest) (hk : m.kind = none) : ¬ b.Holder m.requestor :=
  (h _ ⟨m, by simp [pipe, hq], hk⟩).not_holder

section Preservation

variable {b b' : Block ι (View ι)}

theorem Noted.congr (h : b.Noted i) (hp : b'.pipe i = b.pipe i)
    (hw : ∀ x ∈ b'.bank.waiting, x.2.sid = i → ∃ y ∈ b.bank.waiting, y.2.sid = i)
    (hr : b'.responseToL1 i = b.responseToL1 i) (hv : (b'.l1 i).Valid → (b.l1 i).Valid) : b'.Noted i := by
  refine ⟨hp ▸ h.pipe, ?_, hr ▸ h.responses, fun h' => h.valid (hv h')⟩
  intro x hx hxi
  obtain ⟨y, hy, hyi⟩ := hw x hx hxi
  exact h.waiting y hy hyi

theorem Notices.congr (h : b.Notices) (hp : b'.pipe i = b.pipe i)
    (hw : ∀ x ∈ b'.bank.waiting, x.2.sid = i → ∃ y ∈ b.bank.waiting, y.2.sid = i)
    (hr : b'.responseToL1 i = b.responseToL1 i) (hv : (b'.l1 i).Valid → (b.l1 i).Valid)
    (hi : b'.Noticed i) : b'.Noted i := by
  have hn : b.Noticed i := by
    simpa only [Noticed, hp] using hi
  exact (h i hn).congr hp hw hr hv

variable [Fintype ι] {p : L1.Protocol} {space : MemorySpaceType} {forgetful : Prop} {act : BankAct}

theorem Inv.idle_of_tbe_none (hinv : b.Inv p space) (ht : (b.l1 i).tbe = none) :
    (∀ m ∈ b.pipe i, m.kind = none) ∧ ∀ x ∈ b.bank.waiting, x.2.sid ≠ i := by
  have h0 := (hinv.line i).tbe_eq_none_iff.mp ht
  constructor
  · intro m hm
    by_contra hk
    obtain ⟨k, hk⟩ := Option.ne_none_iff_exists'.mp hk
    have hzero := h0 k
    simp only [outstanding] at hzero
    rcases List.mem_append.mp hm with hm | hm
    · have hpos : 0 < b.l1RequestToL2Cache.countP (fun m => m.requestor = i ∧ m.kind = some k) :=
        List.countP_pos_iff.mpr ⟨m, (List.mem_filter.mp hm).1, by
          simpa [hk] using (List.mem_filter.mp hm).2⟩
      omega
    · have hpos : 0 < (b.toL2 i).countP (fun m => m.kind = some k) :=
        List.countP_pos_iff.mpr ⟨m, hm, by simp [hk]⟩
      omega
  · intro x hx hxi
    have hzero := h0 x.1
    have hpos : 0 < b.bank.waiting.countP (fun y => y.2.sid = i ∧ y.1 = x.1) :=
      List.countP_pos_iff.mpr ⟨x, hx, by simp [hxi]⟩
    simp only [outstanding] at hzero
    omega

omit [Fintype ι] in
theorem Notices.send {sent : Option (RequestMsg ι)} {ℓ : L1Line} (h : b.Notices)
    (hl : b'.l1 = update b.l1 i ℓ)
    (hto : b'.toL2 = update b.toL2 i (b.toL2 i ++ sent.toList))
    (hq : b'.l1RequestToL2Cache = b.l1RequestToL2Cache) (hbank : b'.bank = b.bank)
    (hr : b'.responseToL1 = b.responseToL1)
    (hi : b'.pipe i = b.pipe i ++ sent.toList → b'.Noticed i → b'.Noted i) : b'.Notices := by
  intro j hj
  by_cases hji : j = i
  · subst hji
    exact hi (by simp [pipe, hto, hq]) hj
  · refine h.congr ?_ ?_ (by rw [hr]) ?_ hj
    · simp [pipe, hto, hq, update_of_ne hji]
    · rw [hbank]
      exact fun x hx hxi => ⟨x, hx, hxi⟩
    · rw [hl, update_of_ne hji]
      exact id

omit [Fintype ι] in
theorem Notices.core {type : CacheRequestType} {wid : Nat} (h : b.Notices)
    (hmove : L1Move p space b (.core i type wid) b') : b'.Notices := by
  cases hmove with
  | @core _ _ _ sent ℓ hstep =>
    refine h.send rfl rfl rfl rfl rfl ?_
    rintro hpipe ⟨m₀, hm₀, hk₀⟩
    have hn : b.Noticed i := by
      rw [hpipe, List.mem_append, Option.mem_toList] at hm₀
      rcases hm₀ with hm | hm
      · exact ⟨m₀, hm, hk₀⟩
      · exact absurd hk₀ (hstep.kind_ne_none m₀ hm)
    obtain ⟨⟨m, rest, hm, hk, hrest⟩, hw, hr, hv⟩ := h i hn
    refine ⟨⟨m, rest ++ sent.toList, by rw [hpipe, hm, List.cons_append], hk, ?_⟩, hw, hr, ?_⟩
    · intro m' hm'
      rcases List.mem_append.mp hm' with hm' | hm'
      · exact hrest m' hm'
      · exact hstep.kind_ne_none m' (Option.mem_toList.mp hm')
    · simp only [update_self]
      exact fun hv' => hv (hstep.valid hv')

theorem Notices.replace (h : b.Notices) (hinv : b.Inv p space)
    (hmove : L1Move p space b (.l1Replace i) b') : b'.Notices := by
  cases hmove with
  | @replace _ sent ℓ hstep =>
    refine h.send rfl rfl rfl rfl rfl ?_
    intro hpipe hi
    cases sent with
    | none =>
      refine h.congr (hpipe.trans (List.append_nil _)) (fun x hx hxi => ⟨x, hx, hxi⟩) rfl ?_ hi
      simp only [update_self]
      intro hv
      exact (hstep.holds (.inl hv)).1 ▸ hv
    | some m =>
      obtain ⟨-, rfl, ht, hs, rfl⟩ := hstep.notice rfl
      have hnone : ¬ b.Noticed i := fun hn => (h i hn).valid (.inl hs)
      obtain ⟨hidle, hw⟩ := hinv.idle_of_tbe_none ht
      have hnil : b.pipe i = [] := by
        rw [List.eq_nil_iff_forall_not_mem]
        exact fun m hm => hnone ⟨m, hm, hidle m hm⟩
      refine ⟨⟨evicMsg i, [], by rw [hpipe, hnil]; rfl, rfl, by simp⟩, hw,
        hinv.no_data_of_tbe_none ht, ?_⟩
      simp [L1Line.Valid, L1Line.state, ht]

theorem L1Move.notices {act : BlockAct ι} (hmove : L1Move p space b act b') (hinv : b.Inv p space)
    (h : b.Notices) : b'.Notices := by
  cases act with
  | core i type wid => exact h.core hmove
  | l1Replace i => exact h.replace hinv hmove
  | l1Response i k =>
    cases hmove with
    | @response _ _ m ℓ hm hstep =>
      intro j hj
      by_cases hji : j = i
      · subst hji
        have hr := (h j hj).responses
        simp [hr] at hm
      · refine h.congr rfl (fun x hx hxi => ⟨x, hx, hxi⟩) ?_ ?_ hj
        · simp only [update_of_ne hji]
        · simp only [update_of_ne hji]
          exact id
  | l1Inv i k =>
    cases hmove with
    | @invalidate _ _ m ack ℓ hm hack hsender hstep =>
      intro j hj
      refine h.congr rfl (fun x hx hxi => ⟨x, hx, hxi⟩) rfl ?_ hj
      by_cases hji : j = i
      · subst hji
        simp only [update_self]
        intro hv
        rcases hstep.state with hs | hs <;> simp [L1Line.Valid, hs] at hv
      · simp only [update_of_ne hji]
        exact id
  | arrive i =>
    cases hmove with
    | @arrive _ m rest hq =>
      obtain ⟨-, hreq⟩ := hinv.sent i m (by simp [hq])
      intro j hj
      refine h.congr ?_ (fun x hx hxi => ⟨x, hx, hxi⟩) rfl id hj
      by_cases hji : j = i
      · subst hji
        simp [pipe, hq, hreq]
      · simp [pipe, hreq, Ne.symm hji, update_of_ne hji]
  | l2 act => cases hmove

omit [Fintype ι] in
theorem pipe_head (hq : b.l1RequestToL2Cache = m :: rest) (hq' : b'.l1RequestToL2Cache = rest)
    (hto : b'.toL2 = b.toL2) (i : ι) :
    b.pipe i = if m.requestor = i then m :: b'.pipe i else b'.pipe i := by
  split <;> simp_all [pipe]

theorem Notices.take {x : Transaction ι}
    (h : b.Notices) (hinv : b.Inv p space) (hq : b.l1RequestToL2Cache = m :: rest)
    (hx : m.transaction = some x) (hq' : b'.l1RequestToL2Cache = rest) (hto : b'.toL2 = b.toL2)
    (hw : b'.bank.waiting = b.bank.waiting ++ [x]) (hr : b'.responseToL1 = b.responseToL1)
    (hl : b'.l1 = b.l1) : b'.Notices := by
  have hkind := RequestMsg.transaction_kind hx
  have hsid := (hinv.queue m (by simp [hq])).sid hx
  intro i hi
  have hpipe := pipe_head hq hq' hto i
  by_cases hmi : m.requestor = i
  · rw [if_pos hmi] at hpipe
    obtain ⟨m', hm', hk'⟩ := hi
    obtain ⟨m'', rest', hp, hk, -⟩ := (h i ⟨m', by simp [hpipe, hm'], hk'⟩).pipe
    rw [hpipe] at hp
    obtain rfl := (List.cons.inj hp).1
    rw [hkind] at hk
    cases hk
  · rw [if_neg hmi] at hpipe
    refine h.congr hpipe.symm ?_ (by rw [hr]) (by rw [hl]; exact id) hi
    intro y hy hyi
    rw [hw, List.mem_append, List.mem_singleton] at hy
    rcases hy with hy | rfl
    · exact ⟨y, hy, hyi⟩
    · exact absurd (hsid.symm.trans hyi) hmi

omit [Fintype ι] in
theorem Notices.takeNotice (h : b.Notices) (hq : b.l1RequestToL2Cache = m :: rest) (hk : m.kind = none)
    (hq' : b'.l1RequestToL2Cache = rest) (hto : b'.toL2 = b.toL2)
    (hw : b'.bank.waiting = b.bank.waiting) (hr : b'.responseToL1 = b.responseToL1)
    (hl : b'.l1 = b.l1) : b'.Notices := by
  intro i hi
  have hpipe := pipe_head hq hq' hto i
  by_cases hmi : m.requestor = i
  · rw [if_pos hmi] at hpipe
    obtain ⟨m', hm', hk'⟩ := hi
    obtain ⟨m'', rest', hp, -, hrest⟩ := (h i ⟨m, by simp [hpipe], hk⟩).pipe
    rw [hpipe] at hp
    exact absurd hk' (hrest m' ((List.cons.inj hp).2 ▸ hm'))
  · rw [if_neg hmi] at hpipe
    refine h.congr hpipe.symm ?_ (by rw [hr]) (by rw [hl]; exact id) hi
    rw [hw]
    exact fun x hx hxi => ⟨x, hx, hxi⟩

theorem Trigger.notices (htrig : Trigger forgetful b act b')
    (hinv : b.Inv p space) (h : b.Notices) : b'.Notices := by
  cases htrig with
  | take fetches hq hx hf => exact h.take hinv hq hx rfl rfl rfl rfl rfl
  | notice hq hk => exact h.takeNotice hq hk rfl rfl rfl rfl rfl
  | ack hk hn => exact fun i => h.congr rfl (fun x hx hxi => ⟨x, hx, hxi⟩) rfl id
  | memory hm => exact fun i => h.congr rfl (fun x hx hxi => ⟨x, hx, hxi⟩) rfl id
  | @forget g hf hm hw =>
    refine fun i => h.congr rfl (fun x hx hxi => ⟨(.atomic, g), by simp [hw], ?_⟩) rfl id
    obtain rfl := List.mem_singleton.mp hx
    exact hxi
  | replace => exact h
  | dirReplace => exact h

omit [Fintype ι] in
theorem Adjust.notices (hadj : Adjust b b') (h : b.Notices) : b'.Notices := by
  obtain ⟨v, rfl, hw, -⟩ := hadj
  refine fun i => h.congr rfl ?_ rfl id
  simp only [hw]
  exact fun x hx hxi => ⟨x, hx, hxi⟩

omit [Fintype ι] in
theorem Invalidate.notices (hinval : Invalidate b b') (h : b.Notices) : b'.Notices := by
  cases hinval
  exact fun i => h.congr rfl (fun x hx hxi => ⟨x, hx, hxi⟩) rfl id

omit [Fintype ι] in
theorem Answer.notices {r : ResponseMsg ι} (hans : Answer b r b') (h : b.Notices) : b'.Notices := by
  have hdest : ∀ i ∈ r.destination, ∃ x ∈ b.bank.waiting, x.2.sid = i := by
    cases hans with
    | reads _ _ hdest _ => exact fun i hi => (hdest i).mp hi
    | @write x _ _ hw hdest _ _ =>
      intro i hi
      rw [hdest, Finset.mem_singleton] at hi
      exact ⟨x, by simp [hw], hi.symm⟩
  have hsend : b' = L2.send r { b with bank := { b.bank with waiting := [] } } := by
    cases hans <;> rfl
  intro i hi
  have hn : b.Noticed i := by
    rw [hsend] at hi
    exact hi
  have hnot : i ∉ r.destination := by
    intro hmem
    obtain ⟨x, hx, hxi⟩ := hdest i hmem
    exact (h i hn).waiting x hx hxi
  refine h.congr ?_ ?_ ?_ ?_ hi
  · rw [hsend]
    rfl
  · rw [hsend]
    intro x hx
    cases hx
  · simp [hsend, L2.send, hnot]
  · rw [hsend]
    exact id

/-- **The bank** keeps what is known of notices. -/
theorem BankStep.notices (hstep : BankStep forgetful act b b')
    (hinv : b.Inv p space) (h : b.Notices) : b'.Notices := by
  cases hstep with
  | @handle b₁ b₂ b₃ b₄ before trigger round answer after =>
    have h₂ := trigger.notices (before.inv hinv) (before.notices h)
    have h₃ : b₃.Notices := round.elim (fun heq => heq ▸ h₂) fun hr => hr.2.notices h₂
    have h₄ : b₄.Notices := by
      rcases answer with rfl | ⟨r, hr⟩
      · exact h₃
      · exact hr.notices h₃
    exact after.notices h₄

/-! ## How long a notice is under way -/

theorem L1Move.noticed {act : BlockAct ι} (hmove : L1Move p space b act b') (hinv : b.Inv p space)
    (h : b.Noticed i) : b'.Noticed i := by
  obtain ⟨m, hm, hk⟩ := h
  refine ⟨m, ?_, hk⟩
  rcases List.mem_append.mp hm with hm | hm
  · -- on the queue
    refine List.mem_append.mpr (.inl ?_)
    cases hmove with
    | core | replace | response | invalidate => exact hm
    | arrive => rw [List.filter_append, List.mem_append]; exact .inl hm
  · -- on the request network
    cases hmove with
    | response | invalidate => exact List.mem_append.mpr (.inr hm)
    | @core j | @replace j =>
      refine List.mem_append.mpr (.inr ?_)
      by_cases hij : i = j
      · subst hij
        simp only [update_self, List.mem_append]
        exact .inl hm
      · simpa only [update_of_ne hij] using hm
    | @arrive j m' rest hq =>
      by_cases hij : i = j
      · subst hij
        rw [hq, List.mem_cons] at hm
        rcases hm with rfl | hm
        · have hreq := (hinv.sent i m (by simp [hq])).2
          refine List.mem_append.mpr (.inl ?_)
          simp [hreq]
        · refine List.mem_append.mpr (.inr ?_)
          simpa only [update_self] using hm
      · refine List.mem_append.mpr (.inr ?_)
        simpa only [update_of_ne hij] using hm

omit [Fintype ι] in
theorem BankStep.queue (hstep : BankStep forgetful act b b') :
    b'.toL2 = b.toL2 ∧ (b'.l1RequestToL2Cache = b.l1RequestToL2Cache ∨
      act = .request ∧ ∃ m, b.l1RequestToL2Cache = m :: b'.l1RequestToL2Cache) := by
  cases hstep with
  | @handle b₁ b₂ b₃ b₄ before trigger round answer after =>
    have h₂ : b₂.toL2 = b₁.toL2 ∧ (b₂.l1RequestToL2Cache = b₁.l1RequestToL2Cache ∨
        act = .request ∧ ∃ m, b₁.l1RequestToL2Cache = m :: b₂.l1RequestToL2Cache) := by
      cases trigger with
      | take fetches hq hx hf => exact ⟨rfl, .inr ⟨rfl, _, hq⟩⟩
      | notice hq hk => exact ⟨rfl, .inr ⟨rfl, _, hq⟩⟩
      | ack | memory | forget | replace | dirReplace => exact ⟨rfl, .inl rfl⟩
    have h₃ : b₃.toL2 = b₂.toL2 ∧ b₃.l1RequestToL2Cache = b₂.l1RequestToL2Cache := by
      rcases round with rfl | ⟨-, hr⟩
      · exact ⟨rfl, rfl⟩
      · cases hr
        exact ⟨rfl, rfl⟩
    have h₄ : b₄.toL2 = b₃.toL2 ∧ b₄.l1RequestToL2Cache = b₃.l1RequestToL2Cache := by
      rcases answer with rfl | ⟨r, hr⟩
      · exact ⟨rfl, rfl⟩
      · cases hr <;> exact ⟨rfl, rfl⟩
    obtain ⟨v, rfl, -⟩ := before
    obtain ⟨v', rfl, -⟩ := after
    simpa only [h₄, h₃] using h₂

omit [Fintype ι] in
theorem BankStep.noticed (hstep : BankStep forgetful act b b')
    (h : b.Noticed i) (hhead : ∀ m rest, act = .request → b.l1RequestToL2Cache = m :: rest →
      m.requestor = i → m.kind ≠ none) : b'.Noticed i := by
  obtain ⟨hto, hq⟩ := hstep.queue
  obtain ⟨m, hm, hk⟩ := h
  refine ⟨m, ?_, hk⟩
  rcases hq with hq | ⟨rfl, m', hq⟩
  · simpa only [pipe, hto, hq] using hm
  · rw [pipe_head hq rfl hto] at hm
    split at hm
    · next hreq =>
      rcases List.mem_cons.mp hm with rfl | hm
      · exact absurd hk (hhead _ _ rfl hq hreq)
      · exact hm
    · exact hm

end Preservation

end Block

end GpgpuSimRuby.Ruby.ViWt
