import ClientGo.Strategicpatch.Diff

/-!
# The recursion bound of the diff changes no result

The functions of the two-way diff (`diffMaps`, its loop, `diffLists`, `diffListsOfMaps` and the two
loops of the latter) take a recursion bound that each call lowers by one, and return
`.error .exhausted` when it runs out. Go has no such bound. A larger bound changes no result, it
only lets more calls return one (`diff_fuel_le_succ`, `diffMaps_fuel_le`): `Except.Le a b` says
that `b` returns whatever `a` returns. So `diffMaps` of two maps is well defined (`DiffsTo`,
`DiffsTo.unique`): the one result any bound gives.

Each step lemma unfolds a function at `n + 1` and `n + 2`; the two bodies differ only in the bound
of the calls they make, which the hypotheses for `n` relate.
-/

namespace ClientGo.Strategicpatch

open Value

/-- `b` returns whatever `a` returns. -/
def Except.Le {ε α : Type} (a b : Except ε α) : Prop := ∀ r, a = .ok r → b = .ok r

namespace Except.Le

variable {ε α β : Type}

theorem refl (a : Except ε α) : Except.Le a a := fun _ h => h

theorem trans {a b c : Except ε α} (h₁ : Except.Le a b) (h₂ : Except.Le b c) : Except.Le a c :=
  fun r h => h₂ r (h₁ r h)

theorem of_error {e : ε} (b : Except ε α) : Except.Le (.error e) b := fun _ h => nomatch h

theorem bind {a a' : Except ε α} {k k' : α → Except ε β} (ha : Except.Le a a')
    (hk : ∀ x, Except.Le (k x) (k' x)) : Except.Le (a >>= k) (a' >>= k') := fun r h => by
  obtain ⟨x, hx, h⟩ := bind_eq_ok.mp h
  exact bind_eq_ok.mpr ⟨x, ha x hx, hk x r h⟩

end Except.Le

section Fuel

variable {τ : Type} (S : Schema τ)

/-- With `recurse = false`, `sortMergeListsByNameArray` does not use its bound. -/
theorem sortMergeListsByNameArray_no_recurse (fuel : Nat) (s : List Value) (elemType : τ)
    (mergeKey : String) :
    sortMergeListsByNameArray S (fuel + 1) s elemType mergeKey false =
      if s.length = 0 then .ok s else (do
        let t ← sliceElementType [s]
        if t ≠ .map then uniqifyAndSortScalars s else sortMapsBasedOnField s mergeKey) := by
  rw [sortMergeListsByNameArray]
  rfl

variable {S} {n : Nat}
variable (hMaps : ∀ original modified t ic id,
  Except.Le (diffMaps S n original modified t ic id) (diffMaps S (n + 1) original modified t ic id))
variable (hLoop : ∀ original t ic id rest patch,
  Except.Le (diffMapsLoop S n original t ic id rest patch)
    (diffMapsLoop S (n + 1) original t ic id rest patch))
variable (hLists : ∀ original modified t mergeKey ic id,
  Except.Le (diffLists S n original modified t mergeKey ic id)
    (diffLists S (n + 1) original modified t mergeKey ic id))
variable (hOfMaps : ∀ original modified t mergeKey ic id,
  Except.Le (diffListsOfMaps S n original modified t mergeKey ic id)
    (diffListsOfMaps S (n + 1) original modified t mergeKey ic id))
variable (hLoopB : ∀ os ms t mergeKey ic id oi mi patch,
  Except.Le (diffListsOfMapsLoopB S n os ms t mergeKey ic id oi mi patch)
    (diffListsOfMapsLoopB S (n + 1) os ms t mergeKey ic id oi mi patch))
variable (hInner : ∀ os ms t mergeKey ic id oi mi mm mv patch,
  Except.Le (diffListsOfMapsInner S n os ms t mergeKey ic id oi mi mm mv patch)
    (diffListsOfMapsInner S (n + 1) os ms t mergeKey ic id oi mi mm mv patch))

include hLoop in
theorem diffMaps_le_succ (original modified : JSONMap) (t : τ) (ic id : Bool) :
    Except.Le (diffMaps S (n + 1) original modified t ic id)
      (diffMaps S (n + 2) original modified t ic id) := by
  rw [diffMaps, diffMaps]
  exact Except.Le.bind (hLoop _ _ _ _ _ _) fun _ => Except.Le.refl _

include hMaps hLoop hLists in
theorem diffMapsLoop_le_succ (original : JSONMap) (t : τ) (ic id : Bool) (rest patch : JSONMap) :
    Except.Le (diffMapsLoop S (n + 1) original t ic id rest patch)
      (diffMapsLoop S (n + 2) original t ic id rest patch) := by
  match rest with
  | [] => exact Except.Le.refl _
  | (key, modifiedValue) :: rest =>
    rw [diffMapsLoop, diffMapsLoop]
    simp only
    repeat' split
    all_goals first
      | exact hLoop _ _ _ _ _ _
      | exact Except.Le.refl _
      | exact Except.Le.bind (hMaps _ _ _ _ _) fun _ => hLoop _ _ _ _ _ _
      | exact Except.Le.bind (hLists _ _ _ _ _ _) fun _ => hLoop _ _ _ _ _ _

include hOfMaps in
theorem diffLists_le_succ (original modified : List Value) (t : τ) (mergeKey : String)
    (ic id : Bool) :
    Except.Le (diffLists S (n + 1) original modified t mergeKey ic id)
      (diffLists S (n + 2) original modified t mergeKey ic id) := by
  rw [diffLists, diffLists]
  split
  · exact Except.Le.refl _
  · refine Except.Le.bind (Except.Le.refl _) fun elementType => ?_
    split
    · exact Except.Le.bind (hOfMaps _ _ _ _ _ _) fun _ => Except.Le.refl _
    all_goals exact Except.Le.refl _

include hLoopB in
theorem diffListsOfMaps_le_succ (original modified : List Value) (t : τ) (mergeKey : String)
    (ic id : Bool) :
    Except.Le (diffListsOfMaps S (n + 1) original modified t mergeKey ic id)
      (diffListsOfMaps S (n + 2) original modified t mergeKey ic id) := by
  rw [diffListsOfMaps, diffListsOfMaps, sortMergeListsByNameArray_no_recurse,
    sortMergeListsByNameArray_no_recurse, sortMergeListsByNameArray_no_recurse,
    sortMergeListsByNameArray_no_recurse]
  exact Except.Le.bind (Except.Le.refl _) fun _ => Except.Le.bind (Except.Le.refl _) fun _ =>
    Except.Le.bind (hLoopB _ _ _ _ _ _ _ _ _) fun _ => Except.Le.refl _

include hInner in
theorem diffListsOfMapsLoopB_le_succ (os ms : List Value) (t : τ) (mergeKey : String)
    (ic id : Bool) (oi mi : Nat) (patch : List Value) :
    Except.Le (diffListsOfMapsLoopB S (n + 1) os ms t mergeKey ic id oi mi patch)
      (diffListsOfMapsLoopB S (n + 2) os ms t mergeKey ic id oi mi patch) := by
  rw [diffListsOfMapsLoopB, diffListsOfMapsLoopB]
  split
  · exact Except.Le.bind (Except.Le.refl _) fun _ => hInner _ _ _ _ _ _ _ _ _ _ _
  · exact Except.Le.refl _

include hMaps hLoopB hInner in
theorem diffListsOfMapsInner_le_succ (os ms : List Value) (t : τ) (mergeKey : String)
    (ic id : Bool) (oi mi : Nat) (mm : JSONMap) (mv : Value) (patch : List Value) :
    Except.Le (diffListsOfMapsInner S (n + 1) os ms t mergeKey ic id oi mi mm mv patch)
      (diffListsOfMapsInner S (n + 2) os ms t mergeKey ic id oi mi mm mv patch) := by
  rw [diffListsOfMapsInner, diffListsOfMapsInner]
  split
  · refine Except.Le.bind (Except.Le.refl _) fun _ => ?_
    simp only
    repeat' split
    all_goals first
      | exact hInner _ _ _ _ _ _ _ _ _ _ _
      | exact hLoopB _ _ _ _ _ _ _ _ _
      | exact Except.Le.bind (hMaps _ _ _ _ _) fun _ => hLoopB _ _ _ _ _ _ _ _ _
  · exact Except.Le.refl _

end Fuel

variable {τ : Type} (S : Schema τ)

/-- **A larger recursion bound changes no result.** Each function of the diff returns, with one
more unit of its bound, whatever it returned before. -/
theorem diff_fuel_le_succ : ∀ n : Nat,
    (∀ original modified t ic id,
      Except.Le (diffMaps S n original modified t ic id) (diffMaps S (n + 1) original modified t ic id)) ∧
    (∀ original t ic id rest patch,
      Except.Le (diffMapsLoop S n original t ic id rest patch)
        (diffMapsLoop S (n + 1) original t ic id rest patch)) ∧
    (∀ original modified t mergeKey ic id,
      Except.Le (diffLists S n original modified t mergeKey ic id)
        (diffLists S (n + 1) original modified t mergeKey ic id)) ∧
    (∀ original modified t mergeKey ic id,
      Except.Le (diffListsOfMaps S n original modified t mergeKey ic id)
        (diffListsOfMaps S (n + 1) original modified t mergeKey ic id)) ∧
    (∀ os ms t mergeKey ic id oi mi patch,
      Except.Le (diffListsOfMapsLoopB S n os ms t mergeKey ic id oi mi patch)
        (diffListsOfMapsLoopB S (n + 1) os ms t mergeKey ic id oi mi patch)) ∧
    (∀ os ms t mergeKey ic id oi mi mm mv patch,
      Except.Le (diffListsOfMapsInner S n os ms t mergeKey ic id oi mi mm mv patch)
        (diffListsOfMapsInner S (n + 1) os ms t mergeKey ic id oi mi mm mv patch))
  | 0 => by
    refine ⟨?_, ?_, ?_, ?_, ?_, ?_⟩ <;> intros <;> exact Except.Le.of_error _
  | n + 1 =>
    let ⟨hMaps, hLoop, hLists, hOfMaps, hLoopB, hInner⟩ := diff_fuel_le_succ n
    ⟨diffMaps_le_succ hLoop, diffMapsLoop_le_succ hMaps hLoop hLists,
      diffLists_le_succ hOfMaps, diffListsOfMaps_le_succ hLoopB,
      diffListsOfMapsLoopB_le_succ hInner, diffListsOfMapsInner_le_succ hMaps hLoopB hInner⟩

variable {S}

/-- **Monotonicity in the bound.** -/
theorem diffMaps_fuel_le {n m : Nat} (h : n ≤ m) (original modified : JSONMap) (t : τ)
    (ic id : Bool) :
    Except.Le (diffMaps S n original modified t ic id) (diffMaps S m original modified t ic id) := by
  induction h with
  | refl => exact Except.Le.refl _
  | step _ ih => exact ih.trans ((diff_fuel_le_succ S _).1 _ _ _ _ _)

variable (S)

/-- `diffMaps(original, modified, t, ignoreChangesAndAdditions, ignoreDeletions)` returns
`patch`: it does with some recursion bound, and then with every larger one. -/
def DiffsTo (t : τ) (ic id : Bool) (original modified patch : JSONMap) : Prop :=
  ∃ n, diffMaps S n original modified t ic id = .ok patch

variable {S}

/-- The diff of two maps does not depend on the bound that reaches it. -/
theorem DiffsTo.unique {t : τ} {ic id : Bool} {original modified p₁ p₂ : JSONMap}
    (h₁ : DiffsTo S t ic id original modified p₁) (h₂ : DiffsTo S t ic id original modified p₂) :
    p₁ = p₂ := by
  obtain ⟨n₁, h₁⟩ := h₁
  obtain ⟨n₂, h₂⟩ := h₂
  have e₁ := diffMaps_fuel_le (le_max_left n₁ n₂) original modified t ic id _ h₁
  have e₂ := diffMaps_fuel_le (le_max_right n₁ n₂) original modified t ic id _ h₂
  rw [e₁] at e₂
  exact Except.ok.inj e₂

/-- Finitely many facts that each hold from some bound on hold together from one bound on. -/
theorem exists_bound_forall_mem {β : Type} {P : β → Nat → Prop}
    (hP : ∀ b n m, n ≤ m → P b n → P b m) :
    ∀ L : List β, (∀ b ∈ L, ∃ n, P b n) → ∃ N, ∀ b ∈ L, P b N
  | [], _ => ⟨0, by simp⟩
  | b :: L, h => by
    obtain ⟨n, hn⟩ := h b (List.mem_cons_self _ _)
    obtain ⟨N, hN⟩ := exists_bound_forall_mem hP L fun b' hb' => h b' (List.mem_cons_of_mem _ hb')
    refine ⟨max n N, fun b' hb' => ?_⟩
    rcases List.mem_cons.mp hb' with rfl | hb'
    · exact hP _ _ _ (le_max_left _ _) hn
    · exact hP _ _ _ (le_max_right _ _) (hN b' hb')

/-- The diffs of finitely many pairs of maps, each reached from some bound on, are all reached from
one bound on. -/
theorem DiffsTo.exists_bound {t : τ} {ic id : Bool} (R : JSONMap → JSONMap → Prop)
    (patch : JSONMap → JSONMap → JSONMap) (L₁ L₂ : List JSONMap)
    (h : ∀ x ∈ L₁, ∀ y ∈ L₂, R x y → DiffsTo S t ic id x y (patch x y)) :
    ∃ N, ∀ x ∈ L₁, ∀ y ∈ L₂, R x y → diffMaps S N x y t ic id = .ok (patch x y) :=
  exists_bound_forall_mem (fun x _ _ hnm h y hy e => diffMaps_fuel_le hnm x y t _ _ _ (h y hy e)) L₁
    fun x hx => exists_bound_forall_mem (fun y _ _ hnm h e => diffMaps_fuel_le hnm x y t _ _ _ (h e))
      L₂ fun y hy => by
        by_cases e : R x y
        · exact (h x hx y hy e).imp fun _ h _ => h
        · exact ⟨0, fun e' => absurd e' e⟩

end ClientGo.Strategicpatch
