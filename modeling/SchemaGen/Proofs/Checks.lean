import SchemaGen.Document.Source

/-!
# Taking checks apart

A check is a sequence of steps that end at the first fault. A success is taken apart into the successes of
its steps, one lemma for each way of putting steps together, and a fault is led back to the step it is from.

Results:
1. `bind_eq_ok`, `bind_eq_error`, `map_eq_ok`, `mapError_eq_ok`: one step after another.
2. `forM_eq_ok`, `exists_mapM_eq_ok`, `exists_of_mem_mapM`, `exists_mem_of_mapM`,
   `foldlM_eq_ok_of_agree`: a step for every member of a list.
3. `verdict_mapM`, `exists_of_forM_eq_error`: whether something can be worked out, and where the fault
   comes from.
-/

namespace SchemaGen

variable {ε ε' α β : Type}

theorem bind_eq_ok {x : Except ε α} {f : α → Except ε β} {b : β} :
    (x >>= f) = .ok b ↔ ∃ a, x = .ok a ∧ f a = .ok b := by
  cases x with
  | error e =>
    constructor
    · intro h
      cases h
    · rintro ⟨a, h, -⟩
      cases h
  | ok a =>
    constructor
    · intro h
      exact ⟨a, rfl, h⟩
    · rintro ⟨a', h, h'⟩
      cases h
      exact h'

theorem bind_eq_error {x : Except ε α} {f : α → Except ε β} {fault : ε} :
    (x >>= f) = .error fault ↔ x = .error fault ∨ ∃ a, x = .ok a ∧ f a = .error fault := by
  cases x with
  | error e =>
    constructor
    · intro h
      cases h
      exact .inl rfl
    · rintro (h | ⟨a, h, -⟩)
      · cases h
        rfl
      · cases h
  | ok a =>
    constructor
    · intro h
      exact .inr ⟨a, rfl, h⟩
    · rintro (h | ⟨a', h, h'⟩)
      · cases h
      · cases h
        exact h'

theorem map_eq_ok {x : Except ε α} {f : α → β} {b : β} :
    x.map f = .ok b ↔ ∃ a, x = .ok a ∧ f a = b := by
  cases x with
  | error e => simp [Except.map]
  | ok a => simp [Except.map]

theorem mapError_eq_ok {x : Except ε α} {f : ε → ε'} {a : α} :
    x.mapError f = .ok a ↔ x = .ok a := by
  cases x with
  | error e =>
    show Except.error (f e) = _ ↔ _
    simp only [reduceCtorEq]
  | ok b =>
    show Except.ok b = _ ↔ _
    simp only [Except.ok.injEq]

/-- A check of every member succeeds exactly when each member passes. -/
theorem forM_eq_ok {f : α → Except ε Unit} {xs : List α} :
    xs.forM f = .ok () ↔ ∀ x ∈ xs, f x = .ok () := by
  induction xs with
  | nil => simp [pure, Except.pure]
  | cons x rest ih =>
    show (f x >>= fun _ => rest.forM f) = _ ↔ _
    rw [bind_eq_ok, List.forall_mem_cons, ← ih]
    constructor
    · rintro ⟨u, h, h'⟩
      exact ⟨h, h'⟩
    · rintro ⟨h, h'⟩
      exact ⟨(), h, h'⟩

/-- What works for every member works for the list. -/
theorem exists_mapM_eq_ok {f : α → Except ε β} {xs : List α} (h : ∀ x ∈ xs, ∃ y, f x = .ok y) :
    ∃ ys, xs.mapM f = .ok ys := by
  induction xs with
  | nil => exact ⟨[], rfl⟩
  | cons x rest ih =>
    obtain ⟨y, hy⟩ := h x List.mem_cons_self
    obtain ⟨ys, hys⟩ := ih fun z hz => h z (List.mem_cons_of_mem _ hz)
    refine ⟨y :: ys, ?_⟩
    rw [List.mapM_cons, hy]
    show (rest.mapM f >>= fun zs => pure (y :: zs)) = _
    rw [hys]
    rfl

/-- A list that was worked out holds what its members were worked out to. -/
theorem exists_of_mem_mapM {f : α → Except ε β} {xs : List α} {ys : List β} (h : xs.mapM f = .ok ys)
    {y : β} (hy : y ∈ ys) : ∃ x ∈ xs, f x = .ok y := by
  induction xs generalizing ys with
  | nil =>
    cases h
    cases hy
  | cons x rest ih =>
    rw [List.mapM_cons] at h
    obtain ⟨z, hz, h⟩ := bind_eq_ok.mp h
    obtain ⟨zs, hzs, h⟩ := bind_eq_ok.mp h
    cases h
    rcases List.mem_cons.mp hy with rfl | hy
    · exact ⟨x, List.mem_cons_self, hz⟩
    · obtain ⟨w, hw, he⟩ := ih hzs hy
      exact ⟨w, List.mem_cons_of_mem _ hw, he⟩

/-- What a member was worked out to is in the list that was worked out. -/
theorem exists_mem_of_mapM {f : α → Except ε β} {xs : List α} {ys : List β} (h : xs.mapM f = .ok ys)
    {x : α} (hx : x ∈ xs) : ∃ y ∈ ys, f x = .ok y := by
  induction xs generalizing ys with
  | nil => cases hx
  | cons z rest ih =>
    rw [List.mapM_cons] at h
    obtain ⟨y, hy, h⟩ := bind_eq_ok.mp h
    obtain ⟨more, hmore, h⟩ := bind_eq_ok.mp h
    cases h
    rcases List.mem_cons.mp hx with rfl | hx
    · exact ⟨y, List.mem_cons_self, hy⟩
    · obtain ⟨w, hw, he⟩ := ih hmore hx
      exact ⟨w, List.mem_cons_of_mem _ hw, he⟩

/-- A fold of steps each of which agrees with another one where it succeeds agrees with the fold of the
others where it succeeds. -/
theorem foldlM_eq_ok_of_agree {f g : β → α → Except ε β}
    (hfg : ∀ b a b', f b a = .ok b' → g b a = .ok b') {xs : List α} {b b' : β}
    (h : xs.foldlM f b = .ok b') : xs.foldlM g b = .ok b' := by
  induction xs generalizing b with
  | nil => exact h
  | cons x rest ih =>
    rw [List.foldlM_cons, bind_eq_ok] at h ⊢
    obtain ⟨b₁, hx, hrest⟩ := h
    exact ⟨b₁, hfg b x b₁ hx, ih hrest⟩

/-! ## Faults -/

/-- Whether something can be worked out, and the fault if not. -/
def verdict (x : Except ε α) : Except ε Unit := x.map fun _ => ()

theorem verdict_map (x : Except ε α) (f : α → β) : verdict (x.map f) = verdict x := by
  cases x <;> rfl

theorem verdict_eq_ok {x : Except ε α} : verdict x = .ok () ↔ ∃ a, x = .ok a := by
  cases x <;> simp [verdict, Except.map]

theorem verdict_eq_error {x : Except ε α} {fault : ε} : verdict x = .error fault ↔ x = .error fault := by
  cases x <;> simp [verdict, Except.map]

/-- A list can be worked out if its members can, and its fault is that of the first one that cannot. -/
theorem verdict_mapM (f : α → Except ε β) (xs : List α) :
    verdict (xs.mapM f) = xs.forM fun x => verdict (f x) := by
  induction xs with
  | nil => rfl
  | cons x rest ih =>
    show _ = (verdict (f x) >>= fun _ => rest.forM fun x => verdict (f x))
    rw [List.mapM_cons, ← ih]
    cases f x with
    | error fault => rfl
    | ok y =>
      show verdict (rest.mapM f >>= fun ys => pure (y :: ys)) = verdict (rest.mapM f)
      cases rest.mapM f <;> rfl

/-- The fault of a list of checks is that of a member. -/
theorem exists_of_forM_eq_error {f : α → Except ε Unit} {xs : List α} {fault : ε}
    (h : xs.forM f = .error fault) : ∃ x ∈ xs, f x = .error fault := by
  induction xs with
  | nil => cases h
  | cons x rest ih =>
    have hstep : (f x >>= fun _ => rest.forM f) = .error fault := h
    cases hx : f x with
    | error fault' =>
      rw [hx] at hstep
      cases hstep
      exact ⟨x, List.mem_cons_self, hx⟩
    | ok u =>
      rw [hx] at hstep
      obtain ⟨y, hy, he⟩ := ih hstep
      exact ⟨y, List.mem_cons_of_mem _ hy, he⟩

end SchemaGen
