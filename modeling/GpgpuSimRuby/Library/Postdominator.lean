import Mathlib

/-!
# Postdominators

The postdominators of the nodes of a directed graph with respect to a goal: the nodes that lie on
every path to it. Where every node reaches the goal they form a tree, in which the parent of a node is
its immediate postdominator.
-/

namespace GpgpuSimRuby.Library

variable {V : Type} {E : V → V → Prop} {goal : V}

/-- `Path E goal v l`: along the edges `E`, `l` is a path from `v` to the goal. -/
inductive Path (E : V → V → Prop) (goal : V) : V → List V → Prop
  | done : Path E goal goal [goal]
  | step {v w : V} {l : List V} : E v w → Path E goal w l → Path E goal v (v :: l)

/-- The node lies on every path from `v` to the goal. -/
def Postdominates (E : V → V → Prop) (goal d v : V) : Prop := ∀ l, Path E goal v l → d ∈ l

/-- A postdominator other than the node itself. -/
def StrictPostdominates (E : V → V → Prop) (goal d v : V) : Prop :=
  d ≠ v ∧ Postdominates E goal d v

/-- The strict postdominator that comes first: all others postdominate it. -/
def ImmediatePostdominator (E : V → V → Prop) (goal d v : V) : Prop :=
  StrictPostdominates E goal d v ∧ ∀ s, StrictPostdominates E goal s v → s = d ∨
    StrictPostdominates E goal s d

/-- Every node has a path to the goal. -/
def ReachesGoal (E : V → V → Prop) (goal : V) : Prop := ∀ v, ∃ l, Path E goal v l

/-! ## Paths -/

namespace Path

variable {v x : V} {l : List V}

theorem head_mem (h : Path E goal v l) : v ∈ l := by
  cases h with
  | done => exact List.mem_cons_self
  | step => exact List.mem_cons_self

theorem goal_mem (h : Path E goal v l) : goal ∈ l := by
  induction h with
  | done => exact List.mem_cons_self
  | step _ _ ih => exact List.mem_cons_of_mem _ ih

/-- From every node on a path the rest of it is a path, and a shorter one unless it is all of it. -/
theorem exists_suffix (h : Path E goal v l) (hx : x ∈ l) :
    ∃ r, Path E goal x r ∧ r ⊆ l ∧ r.length ≤ l.length ∧ (x ≠ v → r.length < l.length) := by
  induction h with
  | done =>
    obtain rfl := List.mem_singleton.mp hx
    exact ⟨_, .done, List.Subset.refl _, le_rfl, fun hne => absurd rfl hne⟩
  | @step v w l he hp ih =>
    rcases List.mem_cons.mp hx with rfl | hx
    · exact ⟨_, .step he hp, List.Subset.refl _, le_rfl, fun hne => absurd rfl hne⟩
    · obtain ⟨r, hr, hsub, hlen, -⟩ := ih hx
      refine ⟨r, hr, fun y hy => List.mem_cons_of_mem _ (hsub hy), ?_, fun _ => ?_⟩
      · rw [List.length_cons]
        omega
      · rw [List.length_cons]
        omega

theorem exists_edge (h : Path E goal v l) (hx : x ∈ l) (hne : x ≠ v) : ∃ u, E u x := by
  induction h with
  | done => exact absurd (List.mem_singleton.mp hx) hne
  | @step v w l he _ ih =>
    by_cases hxw : x = w
    · exact ⟨v, hxw ▸ he⟩
    · exact ih ((List.mem_cons.mp hx).resolve_left hne) hxw

end Path

/-! ## The order of postdominators -/

namespace Postdominates

variable {a b d v w : V}

theorem refl : Postdominates E goal v v := fun _ h => h.head_mem

theorem goal_left : Postdominates E goal goal v := fun _ h => h.goal_mem

theorem trans (h : Postdominates E goal a b) (h' : Postdominates E goal b v) : Postdominates E goal a v := by
  intro l hl
  obtain ⟨r, hr, hsub, -⟩ := hl.exists_suffix (h' l hl)
  exact hsub (h r hr)

theorem eq_goal (h : Postdominates E goal d goal) : d = goal :=
  List.mem_singleton.mp (h [goal] .done)

theorem of_edge (h : Postdominates E goal d v) (hne : d ≠ v) (he : E v w) : Postdominates E goal d w := by
  intro l hl
  exact (List.mem_cons.mp (h _ (.step he hl))).resolve_left hne

theorem antisymm (hreach : ∃ l, Path E goal a l) (hab : Postdominates E goal a b)
    (hba : Postdominates E goal b a) : a = b := by
  by_contra hne
  -- walking from one to the other and back makes the rest of the path shorter and shorter
  have hno : ∀ n, ∀ l, Path E goal a l → l.length = n → False := by
    intro n
    induction n using Nat.strong_induction_on with
    | _ n ih =>
      intro l hl hn
      obtain ⟨r, hr, -, -, hlt⟩ := hl.exists_suffix (hba l hl)
      obtain ⟨r', hr', -, hle, -⟩ := hr.exists_suffix (hab r hr)
      have hlt := hlt fun h => hne h.symm
      exact ih r'.length (by omega) r' hr' rfl
  obtain ⟨l, hl⟩ := hreach
  exact hno _ l hl rfl

theorem reaches (h : Postdominates E goal d v) (hreach : ∃ l, Path E goal v l) : ∃ l, Path E goal d l := by
  obtain ⟨l, hl⟩ := hreach
  obtain ⟨r, hr, -⟩ := hl.exists_suffix (h l hl)
  exact ⟨r, hr⟩

theorem total {l : List V} (hl : Path E goal v l) (ha : Postdominates E goal a v)
    (hb : Postdominates E goal b v) : Postdominates E goal a b ∨ Postdominates E goal b a := by
  induction hl with
  | done =>
    rw [ha.eq_goal]
    exact .inl goal_left
  | @step v w l he _ ih =>
    by_cases hav : a = v
    · exact .inr (hav ▸ hb)
    · by_cases hbv : b = v
      · exact .inl (hbv ▸ ha)
      · exact ih (ha.of_edge hav he) (hb.of_edge hbv he)

/-- Among finitely many postdominators of a node that reaches the goal there is one that all the
others postdominate. -/
theorem exists_first {l : List V} (hl : Path E goal v l) {S : Finset V} (hne : S.Nonempty)
    (hS : ∀ s ∈ S, Postdominates E goal s v) : ∃ d ∈ S, ∀ s ∈ S, Postdominates E goal s d := by
  classical
  induction S using Finset.induction with
  | empty => exact absurd hne Finset.not_nonempty_empty
  | insert a S _ ih =>
    have ha : Postdominates E goal a v := hS a (Finset.mem_insert_self a S)
    rcases S.eq_empty_or_nonempty with rfl | hne
    · refine ⟨a, Finset.mem_insert_self a _, ?_⟩
      intro s hs
      obtain rfl := Finset.mem_singleton.mp hs
      exact .refl
    · obtain ⟨d, hd, hfirst⟩ := ih hne fun s hs => hS s (Finset.mem_insert_of_mem hs)
      rcases Postdominates.total hl ha (hS d (Finset.mem_insert_of_mem hd)) with had | hda
      · refine ⟨d, Finset.mem_insert_of_mem hd, ?_⟩
        intro s hs
        rcases Finset.mem_insert.mp hs with rfl | hs
        · exact had
        · exact hfirst s hs
      · refine ⟨a, Finset.mem_insert_self a S, ?_⟩
        intro s hs
        rcases Finset.mem_insert.mp hs with rfl | hs
        · exact .refl
        · exact (hfirst s hs).trans hda

end Postdominates

/-! ## Immediate postdominators -/

namespace ImmediatePostdominator

variable {d d' v : V}

theorem unique (hreach : ∃ l, Path E goal v l) (h : ImmediatePostdominator E goal d v)
    (h' : ImmediatePostdominator E goal d' v) : d = d' := by
  rcases h.2 d' h'.1 with heq | hd'
  · exact heq.symm
  · rcases h'.2 d h.1 with heq | hd
    · exact heq
    · exact Postdominates.antisymm (h.1.2.reaches hreach) hd.2 hd'.2

theorem exists_of_ne [Finite V] (hreach : ∃ l, Path E goal v l) (hv : v ≠ goal) :
    ∃ d, ImmediatePostdominator E goal d v := by
  classical
  have := Fintype.ofFinite V
  obtain ⟨l, hl⟩ := hreach
  have hne : ({s | StrictPostdominates E goal s v} : Finset V).Nonempty :=
    ⟨goal, by simpa using ⟨fun h => hv h.symm, Postdominates.goal_left⟩⟩
  obtain ⟨d, hd, hall⟩ := Postdominates.exists_first hl hne
    fun s hs => (Finset.mem_filter.mp hs).2.2
  refine ⟨d, (Finset.mem_filter.mp hd).2, ?_⟩
  intro s hs
  by_cases heq : s = d
  · exact .inl heq
  · exact .inr ⟨heq, hall s (by simpa using hs)⟩

end ImmediatePostdominator

/-! ## Postdominators by their equations -/

/-- A table that solves the equations from above, `D v ⊆ {v} ∪ D w` for every edge and `D goal ⊆
{goal}`, lists postdominators only. -/
theorem postdominates_of_mem {D : V → Set V} (hgoal : D goal ⊆ {goal})
    (hedge : ∀ v w, v ≠ goal → E v w → ∀ x ∈ D v, x = v ∨ x ∈ D w) {x v : V} (hx : x ∈ D v) :
    Postdominates E goal x v := by
  intro l hl
  induction hl with
  | done => exact List.mem_singleton.mpr (hgoal hx)
  | @step v w l he hp ih =>
    by_cases hv : v = goal
    · rw [hv] at hx
      rw [hv, hgoal hx]
      exact List.mem_cons_self
    · rcases hedge v w hv he x hx with rfl | hx
      · exact List.mem_cons_self
      · exact List.mem_cons_of_mem _ (ih hx)

end GpgpuSimRuby.Library
