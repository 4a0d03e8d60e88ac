import GpgpuSimRuby.Library.Fault

/-!
# Loops that assert

`foldlM` and `mapM` in `Except ε`: a loop ends well if every round does, and stops with what a round
stops with. Where a round asserts something about its element alone, the loop is a plain one.
-/

namespace GpgpuSimRuby.Library

variable {ε α β : Type} {l : List α} {e : ε}

section Map

variable {f : α → Except ε β} {ys : List β}

theorem mapM_eq_ok : l.mapM f = .ok ys ↔ List.Forall₂ (fun x y => f x = .ok y) l ys := by
  induction l generalizing ys with
  | nil =>
    rw [List.mapM_nil, List.forall₂_nil_left_iff]
    constructor
    · intro h
      cases h
      rfl
    · rintro rfl
      rfl
  | cons x l ih =>
    rw [List.mapM_cons, bind_eq_ok]
    constructor
    · rintro ⟨y, hy, h⟩
      obtain ⟨zs, hzs, h⟩ := bind_eq_ok.mp h
      cases h
      exact .cons hy (ih.mp hzs)
    · intro h
      cases h with
      | cons hy hzs => exact ⟨_, hy, bind_eq_ok.mpr ⟨_, ih.mpr hzs, rfl⟩⟩

theorem exists_of_mapM_error (h : l.mapM f = .error e) : ∃ x ∈ l, f x = .error e := by
  induction l with
  | nil => cases h
  | cons x l ih =>
    rw [List.mapM_cons] at h
    rcases bind_eq_error.mp h with h | ⟨y, -, h⟩
    · exact ⟨x, List.mem_cons_self, h⟩
    · rcases bind_eq_error.mp h with h | ⟨zs, -, h⟩
      · obtain ⟨z, hz, hez⟩ := ih h
        exact ⟨z, List.mem_cons_of_mem _ hz, hez⟩
      · cases h

theorem mapM_ok (h : ∀ x ∈ l, ∃ y, f x = .ok y) : ∃ ys, l.mapM f = .ok ys := by
  cases hl : l.mapM f with
  | ok ys => exact ⟨ys, rfl⟩
  | error e =>
    obtain ⟨x, hx, he⟩ := exists_of_mapM_error hl
    obtain ⟨y, hy⟩ := h x hx
    cases he.symm.trans hy

theorem exists_of_mem_mapM (h : l.mapM f = .ok ys) {y : β} (hy : y ∈ ys) : ∃ x ∈ l, f x = .ok y := by
  induction mapM_eq_ok.mp h with
  | nil => cases hy
  | @cons x z l zs hz htail ih =>
    rcases List.mem_cons.mp hy with rfl | hy
    · exact ⟨x, List.mem_cons_self, hz⟩
    · obtain ⟨w, hw, hwy⟩ := ih (mapM_eq_ok.mpr htail) hy
      exact ⟨w, List.mem_cons_of_mem _ hw, hwy⟩

theorem exists_mem_of_mapM (h : l.mapM f = .ok ys) {x : α} (hx : x ∈ l) : ∃ y ∈ ys, f x = .ok y := by
  induction mapM_eq_ok.mp h with
  | nil => cases hx
  | @cons z y l zs hz htail ih =>
    rcases List.mem_cons.mp hx with rfl | hx
    · exact ⟨y, List.mem_cons_self, hz⟩
    · obtain ⟨w, hw, hwy⟩ := ih (mapM_eq_ok.mpr htail) hx
      exact ⟨w, List.mem_cons_of_mem _ hw, hwy⟩

end Map

section Fold

variable {f : β → α → Except ε β} {g : β → α → β} {b b' : β}

theorem foldlM_append {l' : List α} : (l ++ l').foldlM f b = (l.foldlM f b >>= l'.foldlM f) :=
  List.foldlM_append

theorem foldlM_checked {P : α → Prop} (h : ∀ b x b', f b x = .ok b' ↔ P x ∧ g b x = b') :
    l.foldlM f b = .ok b' ↔ (∀ x ∈ l, P x) ∧ l.foldl g b = b' := by
  induction l generalizing b with
  | nil =>
    rw [List.foldlM_nil, List.foldl_nil]
    constructor
    · intro hb
      cases hb
      exact ⟨fun _ hx => absurd hx List.not_mem_nil, rfl⟩
    · rintro ⟨-, rfl⟩
      rfl
  | cons x l ih =>
    rw [List.foldlM_cons, bind_eq_ok, List.foldl_cons, List.forall_mem_cons]
    constructor
    · rintro ⟨c, hc, hl⟩
      obtain ⟨hx, rfl⟩ := (h b x c).mp hc
      obtain ⟨hall, hb⟩ := ih.mp hl
      exact ⟨⟨hx, hall⟩, hb⟩
    · rintro ⟨⟨hx, hall⟩, hb⟩
      exact ⟨g b x, (h b x _).mpr ⟨hx, rfl⟩, ih.mpr ⟨hall, hb⟩⟩

theorem exists_of_foldlM_error (h : l.foldlM f b = .error e) : ∃ x ∈ l, ∃ b', f b' x = .error e := by
  induction l generalizing b with
  | nil => cases h
  | cons x l ih =>
    rw [List.foldlM_cons] at h
    rcases bind_eq_error.mp h with h | ⟨b', -, h⟩
    · exact ⟨x, List.mem_cons_self, b, h⟩
    · obtain ⟨y, hy, hey⟩ := ih h
      exact ⟨y, List.mem_cons_of_mem _ hy, hey⟩

/-- **The rule for loops.** What holds at first and is kept by a round after any part of the list holds
after the loop, which ends well. -/
theorem foldlM_invariant (Inv : List α → β → Prop) (hb : Inv [] b)
    (hstep : ∀ done x rest c, l = done ++ x :: rest → Inv done c →
      ∃ c', f c x = .ok c' ∧ Inv (done ++ [x]) c') : ∃ b', l.foldlM f b = .ok b' ∧ Inv l b' := by
  have hprefix : ∀ done rest, l = done ++ rest → ∃ c, done.foldlM f b = .ok c ∧ Inv done c := by
    intro done
    induction done using List.reverseRecOn with
    | nil => exact fun _ _ => ⟨b, rfl, hb⟩
    | append_singleton done x ih =>
      intro rest hl
      rw [List.append_assoc, List.singleton_append] at hl
      obtain ⟨c, hc, hinv⟩ := ih (x :: rest) hl
      obtain ⟨c', hc', hinv'⟩ := hstep done x rest c hl hinv
      refine ⟨c', ?_, hinv'⟩
      rw [foldlM_append, hc, ok_bind, List.foldlM_cons, hc', ok_bind]
      rfl
  exact hprefix l [] (List.append_nil l).symm

/-- **The rule for loops that may stop.** What holds at first and is kept by a round that ends well
holds after the loop, if that ends well. -/
theorem foldlM_ok_invariant {P : List α → β → Prop} (h : l.foldlM f b = .ok b') (hb : P [] b)
    (hstep : ∀ done x rest c c', l = done ++ x :: rest → P done c → f c x = .ok c' →
      P (done ++ [x]) c') : P l b' := by
  have hsuffix : ∀ rest done c, l = done ++ rest → P done c → rest.foldlM f c = .ok b' → P l b' := by
    intro rest
    induction rest with
    | nil =>
      intro done c hl hinv hc
      cases hc
      rw [hl, List.append_nil]
      exact hinv
    | cons x rest ih =>
      intro done c hl hinv hc
      rw [List.foldlM_cons] at hc
      obtain ⟨c', hx, hrest⟩ := bind_eq_ok.mp hc
      apply ih (done ++ [x]) c' _ (hstep done x rest c c' hl hinv hx) hrest
      rw [List.append_assoc, List.singleton_append]
      exact hl
  exact hsuffix l [] b rfl hb h

end Fold

end GpgpuSimRuby.Library
