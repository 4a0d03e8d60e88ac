import GpgpuSimRuby.Partition.Steps

/-!
# Requests are conserved

What was pushed is inside until it has left, once: by `pop` if it needs a reply, deleted if it needs
none. The request tracker holds what was pushed and is inside. What the L2 makes itself is not tracked.
-/

namespace GpgpuSimRuby.Partition.MemoryPartitionUnit

open Library Cache

variable {cfg : Config} {m t : MemoryPartitionUnit} {mf : MemFetch} {p : Place} {rest : List MemFetch}

/-- A request is in a queue, in the DRAM or in the L2. -/
def Inside (m : MemoryPartitionUnit) (mf : MemFetch) : Prop :=
  ∃ p, Place.inside p = true ∧ mf ∈ m.contents p

/-- Nobody waits for a write-back. -/
def NeedsReply (mf : MemFetch) : Prop := isWriteback mf.accessType = false

/-- What is still there has not happened; what is there no longer has happened once. -/
def Once (still : Prop) (n : Nat) : Prop := still ∧ n = 0 ∨ ¬ still ∧ n = 1

/-- What holds of the requests of a partition. -/
structure Conserved (m : MemoryPartitionUnit) : Prop where
  replied : ∀ mf ∈ m.entered, NeedsReply mf → mf.accessType ≠ .l2WrAllocR →
    mf ∉ m.deleted ∧ Once (m.Inside mf) (m.popped.count mf)
  unreplied : ∀ mf ∈ m.entered, ¬ NeedsReply mf →
    mf ∉ m.popped ∧ Once (m.Inside mf) (m.deleted.count mf)
  own : ∀ id < m.l2.made, id ∉ m.entered.map (·.id) → id ∉ m.fromRuby.map (·.id) →
    ∃ mf, mf.id = id ∧ mf ∉ m.popped ∧ Once (m.Inside mf) (m.deleted.count mf)
  tracked : ∀ mf, mf ∈ m.requestTracker ↔ mf ∈ m.entered ∧ m.Inside mf

/-! ## Where a request counts -/

namespace Inv

variable (h : Inv cfg m) (hp : mf ∈ counted m.l2.waitingForFill m.contents p)
include h

include hp in
theorem inside_iff : m.Inside mf ↔ p.inside = true := by
  constructor
  · rintro ⟨q, hq, hmf⟩
    by_cases hw : q.beyondL2 = true ∧ m.Waited mf
    · have hin := h.mshrs_of_waited (mem_outstanding.mpr ⟨q, hw.1, hmf⟩) hw.2
      have hpq := h.accounts.place_eq hp (mem_counted.mpr ⟨hin, fun hb => by cases hb⟩) rfl
      rw [hpq]
      rfl
    · have hcounted : mf ∈ counted m.l2.waitingForFill m.contents q :=
        mem_counted.mpr ⟨hmf, fun hb => Bool.eq_false_of_not_eq_true fun hw' => hw ⟨hb, hw'⟩⟩
      rw [h.accounts.place_eq hp hcounted rfl]
      exact hq
  · exact fun hin => ⟨p, hin, (mem_counted.mp hp).1⟩

include hp in
theorem mem_iff_of_not_beyond {q : Place} (hq : q.beyondL2 = false) : mf ∈ m.contents q ↔ p = q := by
  constructor
  · intro hmf
    exact h.accounts.place_eq hp (counted_of_not_beyond hmf hq) rfl
  · rintro rfl
    exact (mem_counted.mp hp).1

include hp in
theorem mem_popped_iff : mf ∈ m.popped ↔ p = .popped := h.mem_iff_of_not_beyond hp (q := .popped) rfl

include hp in
theorem mem_deleted_iff : mf ∈ m.deleted ↔ p = .deleted := h.mem_iff_of_not_beyond hp (q := .deleted) rfl

theorem popped_nodup : m.popped.Nodup :=
  Multiset.coe_nodup.mp (nodup_place (c := counted m.l2.waitingForFill m.contents) h.accounts.nodup .popped)

theorem deleted_nodup : m.deleted.Nodup :=
  Multiset.coe_nodup.mp (nodup_place (c := counted m.l2.waitingForFill m.contents) h.accounts.nodup .deleted)

include hp in
theorem once_popped (hd : p ≠ .deleted) (hr : p ≠ .toRuby) : Once (m.Inside mf) (m.popped.count mf) := by
  rw [Once, h.inside_iff hp, List.count_eq_zero, h.mem_popped_iff hp, h.popped_nodup.count]
  by_cases hpop : p = .popped
  · refine .inr ⟨?_, if_pos ((h.mem_popped_iff hp).mpr hpop)⟩
    rw [hpop]
    decide
  · refine .inl ⟨?_, hpop⟩
    cases p <;> first | rfl | contradiction

include hp in
theorem once_deleted (hpop : p ≠ .popped) (hr : p ≠ .toRuby) : Once (m.Inside mf) (m.deleted.count mf) := by
  rw [Once, h.inside_iff hp, List.count_eq_zero, h.mem_deleted_iff hp, h.deleted_nodup.count]
  by_cases hd : p = .deleted
  · refine .inr ⟨?_, if_pos ((h.mem_deleted_iff hp).mpr hd)⟩
    rw [hd]
    decide
  · refine .inl ⟨?_, hd⟩
    cases p <;> first | rfl | contradiction

theorem entered_place (hentered : mf ∈ m.entered) :
    ∃ p, mf ∈ counted m.l2.waitingForFill m.contents p ∧ p ≠ .toRuby := by
  obtain ⟨hcore, htotal⟩ := h.accounts.entered mf hentered
  obtain ⟨p, hp⟩ := mem_total_iff.mp htotal
  refine ⟨p, hp, ?_⟩
  rintro rfl
  have hfrom : mf ∈ m.fromRuby := h.accounts.allowed .toRuby mf (mem_counted.mp hp).1
  exact Bool.false_ne_true (hcore.1.symm.trans (h.accounts.fromRuby mf hfrom).1)

theorem conserved : Conserved m where
  replied mf hentered hreply htype := by
    obtain ⟨p, hp, hr⟩ := h.entered_place hentered
    have hd : p ≠ .deleted := by
      rintro rfl
      rcases h.accounts.allowed .deleted mf (mem_counted.mp hp).1 with hwb | halloc
      · rw [hreply] at hwb
        cases hwb
      · exact htype halloc
    exact ⟨fun hdel => hd ((h.mem_deleted_iff hp).mp hdel), h.once_popped hp hd hr⟩
  unreplied mf hentered hno := by
    obtain ⟨p, hp, hr⟩ := h.entered_place hentered
    have hpop : p ≠ .popped := by
      rintro rfl
      exact hno (h.accounts.allowed .popped mf (mem_counted.mp hp).1).1
    exact ⟨fun hin => hpop ((h.mem_popped_iff hp).mp hin), h.once_deleted hp hpop hr⟩
  own id hid hentered hruby := by
    rw [← Multiset.mem_range, ← h.accounts.ledger] at hid
    obtain ⟨mf, hmf, rfl⟩ := Multiset.mem_map.mp hid
    obtain ⟨p, hp⟩ := mem_total_iff.mp hmf
    have hpop : p ≠ .popped := by
      rintro rfl
      exact hentered (List.mem_map_of_mem (h.accounts.allowed .popped mf (mem_counted.mp hp).1).2)
    have hr : p ≠ .toRuby := by
      rintro rfl
      exact hruby (List.mem_map_of_mem (h.accounts.allowed .toRuby mf (mem_counted.mp hp).1))
    exact ⟨mf, rfl, fun hin => hpop ((h.mem_popped_iff hp).mp hin), h.once_deleted hp hpop hr⟩
  tracked mf := by
    rw [h.accounts.tracker]
    apply and_congr_right
    intro hentered
    obtain ⟨p, hp, hr⟩ := h.entered_place hentered
    rw [h.mem_popped_iff hp, h.mem_deleted_iff hp, h.inside_iff hp]
    cases p <;> simp_all [Place.inside]

end Inv

/-! ## No queue is pushed while it is full -/

/-- The fault of a push on a full queue. -/
def isFifoFull : Fault → Bool
  | .fifoFull => true
  | _ => false

theorem pushFifo_avoids {maxLen : Nat} {q : List MemFetch} (hq : q.length < maxLen) :
    Avoids isFifoFull (pushFifo maxLen q mf) := by
  unfold pushFifo
  rw [assert_pos hq]
  exact .ok

theorem reply_avoids (hq : m.l2Icnt.length < cfg.l2Icnt) : Avoids isFifoFull (m.reply cfg mf) :=
  .bind (pushFifo_avoids hq) fun _ _ => .ok

theorem mapError_avoids {α : Type} (x : Except Cache.Fault α) : Avoids isFifoFull (x.mapError .l2) := by
  intro e he
  obtain ⟨e', -, rfl⟩ := mapError_eq_error.mp he
  rfl

theorem l2Responses_avoids : Avoids isFifoFull (m.l2Responses cfg) := by
  unfold l2Responses
  split
  · next hroom =>
    refine .bind (mapError_avoids _) fun r _ => .bind (mapError_avoids _) fun l2 _ => ?_
    dsimp only
    split
    · exact .bind (.assert rfl) fun _ _ => reply_avoids hroom.2.2
    · exact .ok
  · exact .ok

theorem dramToL2_avoids {time : Nat} : Avoids isFifoFull (m.dramToL2 cfg time) := by
  unfold dramToL2
  split
  · exact .ok
  · split
    · exact .bind (mapError_avoids _) fun _ _ => .ok
    · split
      · next hroom => exact reply_avoids hroom
      · exact .ok

theorem l2Cycle_avoids : Avoids isFifoFull (m.l2Cycle cfg) := by
  unfold l2Cycle
  split
  · exact .ok
  · split
    · next hroom => exact .bind (pushFifo_avoids hroom.2) fun _ _ => .ok
    · exact .ok

theorem l2Answer_avoids {status : CacheRequestStatus} (hroom : m.l2Icnt.length < cfg.l2Icnt) :
    Avoids isFifoFull (m.l2Answer cfg mf rest status) := by
  unfold l2Answer
  split
  · split
    · exact .ok
    · refine .bind (.assert rfl) fun _ _ => ?_
      dsimp only
      split
      · exact .ok
      · exact .bind (.assert rfl) fun _ _ => reply_avoids hroom
  · exact .bind (.assert rfl) fun _ _ => .ok
  · exact .ok

theorem l2Access_avoids {time : Nat} : Avoids isFifoFull (m.l2Access cfg time) := by
  unfold l2Access
  split
  · exact .ok
  · split
    · exact .ok
    · next hdram =>
      split
      · split
        · next hroom => exact .bind (mapError_avoids _) fun _ _ => l2Answer_avoids hroom
        · exact .ok
      · exact .bind (pushFifo_avoids (Nat.lt_of_not_le hdram)) fun _ _ => .ok

theorem ropDelay_avoids {cycle : Nat} : Avoids isFifoFull (m.ropDelay cfg cycle) := by
  unfold ropDelay
  split
  · exact .ok
  · split
    · next hroom => exact .bind (pushFifo_avoids hroom.2) fun _ _ => .ok
    · exact .ok

theorem dramReturn_avoids : Avoids isFifoFull (m.dramReturn cfg) := by
  unfold dramReturn
  split
  · exact .ok
  · split
    · exact .ok
    · next hroom =>
      split
      · exact .ok
      · split
        · exact .ok
        · exact .bind (pushFifo_avoids (Nat.lt_of_not_le hroom)) fun _ _ => .ok

theorem dramComplete_avoids {completes : Option Nat} : Avoids isFifoFull (m.dramComplete cfg completes) := by
  unfold dramComplete
  split
  · exact .ok
  · split
    · exact .ok
    · next hroom =>
      dsimp only
      split
      · exact .ok
      · refine .bind (.assert rfl) fun _ _ => ?_
        exact .bind (pushFifo_avoids (Nat.lt_of_not_le hroom)) fun _ _ => .ok

theorem cacheCycle_avoids {cycle time : Nat} : Avoids isFifoFull (m.cacheCycle cfg cycle time) :=
  .bind l2Responses_avoids fun _ _ => .bind dramToL2_avoids fun _ _ => .bind l2Cycle_avoids fun _ _ =>
    .bind l2Access_avoids fun _ _ => ropDelay_avoids

theorem dramCycle_avoids {c : DramCycle} {time : Nat} : Avoids isFifoFull (m.dramCycle cfg c time) :=
  .bind dramReturn_avoids fun _ _ => .bind dramComplete_avoids fun _ _ => .ok

theorem push_avoids {r : Request} {texture : Bool} {cycle : Nat} (hroom : m.full cfg = false) :
    Avoids isFifoFull (m.push cfg r texture cycle) := by
  unfold push
  dsimp only
  split
  · refine .bind (pushFifo_avoids ?_) fun _ _ => .ok
    exact Nat.lt_of_not_le (of_decide_eq_false hroom)
  · exact .ok

/-- **No internal queue is pushed while it is full.** -/
theorem step_ne_fifoFull (cfg : Config) (m : MemoryPartitionUnit) (a : Act) :
    step cfg m a ≠ some (.error .fifoFull) := by
  intro hs
  have hbad {x : Except Fault MemoryPartitionUnit} (hx : Avoids isFifoFull x) (he : x = .error .fifoFull) :
      False := by
    cases hx _ he
  cases a with
  | push r texture cycle =>
    simp only [step] at hs
    split at hs
    · next hroom => exact hbad (push_avoids hroom.1) (Option.some.inj hs)
    · cases hs
  | cacheCycle cycle time => exact hbad cacheCycle_avoids (Option.some.inj hs)
  | dramCycle c time =>
    simp only [step] at hs
    split at hs
    · exact hbad dramCycle_avoids (Option.some.inj hs)
    · cases hs
  | pop => cases hs
  | top => cases hs

/-! ## The result -/

/-- **Conservation.** In every reachable state each request that was pushed and needs a reply is inside
or has been popped once, and each that needs none, or was made by the L2, is inside or has been deleted
once; the tracker holds what was pushed and is inside, and no queue is pushed while it is full. -/
theorem requests_conserved (cfg : Config) (m : MemoryPartitionUnit) (h : (machine cfg).Reachable m) :
    Conserved m ∧ ∀ a, step cfg m a ≠ some (.error .fifoFull) :=
  ⟨(inv_of_reachable h).conserved, step_ne_fifoFull cfg m⟩

/-- A partition with a small L2 that allocates on writes. -/
def small : Config where
  l2 := { oneLine .onMiss with writeAllocPolicy := .writeAllocate }
  l2Disabled := false
  l2TextureOnly := false
  icntL2 := 8
  l2Dram := 8
  dramL2 := 8
  l2Icnt := 8
  returnq := 8
  ropLatency := 0
  dramLatency := 0
  partitionAddress := id
  icntL2_pos := by decide
  l2Dram_pos := by decide
  dramL2_pos := by decide
  l2Icnt_pos := by decide
  returnq_pos := by decide

/-- A write misses the L2. -/
def writeMiss : List Act := [.push (writeTo 0) false 0, .cacheCycle 0 0, .cacheCycle 0 1]

/-- The write goes to the DRAM, and its reply is popped. -/
def writeDone : List Act :=
  writeMiss ++ [.cacheCycle 0 2, .dramCycle {} 2, .dramCycle {completes := some 0} 3,
  .dramCycle {} 4, .cacheCycle 0 5, .pop]

theorem requests_conserved_write : ∃ m, (machine small).run writeDone {} = some m ∧
    m.popped = [⟨0, 0, .globalAccW, true, false⟩] ∧
    (Conserved m ∧ ∀ a, step small m a ≠ some (.error .fifoFull)) := by
  obtain ⟨m, hm, hreach, hpopped⟩ := (machine small).exists_reachable_of_run writeDone (·.popped)
    (by decide : _ = some [⟨0, 0, .globalAccW, true, false⟩])
  exact ⟨m, hm, hpopped, requests_conserved small m hreach⟩

/-- The read of a write-allocate is inside, and not in the tracker. -/
theorem not_all_tracked : ¬ ∀ (cfg : Config) (m : MemoryPartitionUnit), (machine cfg).Reachable m →
    ∀ mf, mf ∈ m.requestTracker ↔ m.Inside mf := by
  intro h
  obtain ⟨m, -, hreach, hm⟩ := (machine small).exists_reachable_of_run writeMiss
    (fun m => (m.l2.missQueue, decide (⟨1, 0, .l2WrAllocR, false, false⟩ ∈ m.requestTracker)))
    (by decide : _ = some ([⟨0, 0, .globalAccW, true, false⟩, ⟨1, 0, .l2WrAllocR, false, false⟩], false))
  obtain ⟨hqueue, hnot⟩ := Prod.mk.inj hm
  apply of_decide_eq_false hnot
  apply (h small m hreach _).mpr
  exact ⟨.missQueue, rfl, by simp [contents, hqueue]⟩

end GpgpuSimRuby.Partition.MemoryPartitionUnit
