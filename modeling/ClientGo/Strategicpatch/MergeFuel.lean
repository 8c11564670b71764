import ClientGo.Strategicpatch.Tree

/-!
# The recursion bound of the merge is never short

`mergeMap`, `mergeSlice` and their loops take a recursion bound that each call lowers by one, and
return `.error .exhausted` when it runs out; Go has no such bound. Every call recurses into a part
of the patch: a value of the patch map, or an element of the patch list that `applySpecialElements`
keeps (`applySpecialElements_sizeList`). So twice the size of the patch is enough, and from there
on one more unit of the bound changes nothing (`merge_fuel_stable`). The bound
`StrategicMergeMapPatch` gives is such a bound: its result is that of Go's unbounded recursion.
-/

namespace ClientGo.Strategicpatch

open Value

theorem sizeList_append (xs ys : List Value) :
    size.sizeList (xs ++ ys) = size.sizeList xs + size.sizeList ys := by
  induction xs with
  | nil => simp [size.sizeList]
  | cons x xs ih => rw [List.cons_append, size.sizeList, size.sizeList, ih]; omega

/-- The patch elements `applySpecialElements` keeps are elements of the patch. -/
theorem applySpecialElements_sizeList (mergeKey : String) :
    ∀ (patch original kept : List Value) (replace : Bool) {r : List Value × List Value × Bool},
      applySpecialElements mergeKey patch original kept replace = .ok r →
      size.sizeList r.2.1 ≤ size.sizeList kept + size.sizeList patch
  | [], _, _, _, _, h => by
    simp only [applySpecialElements, Except.ok.injEq] at h
    subst h; simp [size.sizeList]
  | v :: rest, original, kept, replace, r, h => by
    have hv := one_le_size v
    have ih := applySpecialElements_sizeList mergeKey rest
    simp only [size.sizeList]
    unfold applySpecialElements at h
    split at h
    · split at h
      · split_ifs at h
        · split at h
          · obtain ⟨_, -, h⟩ := bind_eq_ok.mp h
            have := ih _ _ _ h; omega
          · cases h
        · have := ih _ _ _ h; omega
      · have := ih _ _ _ h
        rw [sizeList_append] at this
        simp only [size.sizeList] at this; omega
    · cases h

/-- Two computations that go on alike from every result of a first step agree. -/
theorem bind_congr_of_ok {ε α β : Type} {x : Except ε α} {f g : α → Except ε β}
    (h : ∀ a, x = .ok a → f a = g a) : x >>= f = x >>= g := by
  cases x with
  | error e => rfl
  | ok a => exact h a rfl

section Stable

variable {τ : Type} {S : Schema τ} {m : Nat}
variable (hMap : ∀ original patch t mdl iun, 2 * size (.object patch) ≤ m →
  mergeMap S m original patch t mdl iun = mergeMap S (m + 1) original patch t mdl iun)
variable (hLoop : ∀ t mdl iun patch, 2 * size.sizeFields patch + 1 ≤ m → ∀ original,
  mergeMapLoop S m t mdl iun patch original = mergeMapLoop S (m + 1) t mdl iun patch original)
variable (hSlice : ∀ original patch elemType mergeKey mdl idl iun, 2 * size (.array patch) ≤ m →
  mergeSlice S m original patch elemType mergeKey mdl idl iun =
    mergeSlice S (m + 1) original patch elemType mergeKey mdl idl iun)
variable (hSliceLoop : ∀ elemType mergeKey mdl iun patch, 2 * size.sizeList patch + 1 ≤ m →
  ∀ original, mergeSliceLoop S m elemType mergeKey mdl iun patch original =
    mergeSliceLoop S (m + 1) elemType mergeKey mdl iun patch original)

include hLoop in
theorem mergeMap_stable_succ (original patch : JSONMap) (t : τ) (mdl iun : Bool)
    (hn : 2 * size (.object patch) ≤ m + 1) :
    mergeMap S (m + 1) original patch t mdl iun = mergeMap S (m + 2) original patch t mdl iun := by
  rw [mergeMap, mergeMap, hLoop t mdl iun patch (by simp only [size] at hn; omega)]

include hMap hLoop hSlice in
theorem mergeMapLoop_stable_succ (t : τ) (mdl iun : Bool) (patch : JSONMap)
    (hn : 2 * size.sizeFields patch + 1 ≤ m + 1) (original : JSONMap) :
    mergeMapLoop S (m + 1) t mdl iun patch original =
      mergeMapLoop S (m + 2) t mdl iun patch original := by
  match patch with
  | [] => rfl
  | (k, patchV) :: rest =>
    have hv : 2 * size patchV ≤ m := by simp only [size.sizeFields] at hn; omega
    have hrest : 2 * size.sizeFields rest + 1 ≤ m := by
      have := one_le_size patchV; simp only [size.sizeFields] at hn; omega
    rw [mergeMapLoop, mergeMapLoop]
    simp only [hLoop t mdl iun rest hrest]
    split
    · rfl
    refine bind_congr fun ⟨k', isDeleteList⟩ => ?_
    simp only
    split
    · rfl
    split
    · rfl
    split
    · refine bind_congr fun ⟨fieldType, fieldPatchStrategy, fieldPatchMergeKey⟩ => ?_
      simp only
      split
      · split
        · rw [hMap _ _ _ _ _ hv]
        · rfl
      · split
        · rw [hSlice _ _ _ _ _ _ _ hv]
        · rfl
      · rfl
    · rfl

include hSliceLoop in
theorem mergeSlice_stable_succ (original patch : List Value) (elemType : τ) (mergeKey : String)
    (mdl idl iun : Bool) (hn : 2 * size (.array patch) ≤ m + 1) :
    mergeSlice S (m + 1) original patch elemType mergeKey mdl idl iun =
      mergeSlice S (m + 2) original patch elemType mergeKey mdl idl iun := by
  rw [mergeSlice, mergeSlice]
  split
  · rfl
  refine bind_congr fun _ => ?_
  split
  · rfl
  split
  · rfl
  refine bind_congr_of_ok fun ⟨original', patch', replace⟩ h => ?_
  -- the loop merges the patch elements that are not `$patch` directives
  have hkept := applySpecialElements_sizeList mergeKey patch original [] false h
  simp only [size.sizeList, Nat.zero_add] at hkept
  dsimp only
  split
  · rfl
  · exact hSliceLoop _ _ _ _ _ (by simp only [size] at hn; omega) _

include hMap hSliceLoop in
theorem mergeSliceLoop_stable_succ (elemType : τ) (mergeKey : String) (mdl iun : Bool)
    (patch : List Value) (hn : 2 * size.sizeList patch + 1 ≤ m + 1) (original : List Value) :
    mergeSliceLoop S (m + 1) elemType mergeKey mdl iun patch original =
      mergeSliceLoop S (m + 2) elemType mergeKey mdl iun patch original := by
  match patch with
  | [] => rfl
  | v :: rest =>
    have hv : 2 * size v ≤ m := by simp only [size.sizeList] at hn; omega
    have hrest : 2 * size.sizeList rest + 1 ≤ m := by
      have := one_le_size v; simp only [size.sizeList] at hn; omega
    cases v
    case object typedV =>
      rw [mergeSliceLoop, mergeSliceLoop]
      simp only [hSliceLoop elemType mergeKey mdl iun rest hrest]
      split
      · rfl
      · refine bind_congr fun _ => ?_
        split
        · rw [hMap _ _ _ _ _ hv]
        · rfl
    all_goals rfl

end Stable

variable {τ : Type} (S : Schema τ)

/-- **A bound of twice the patch's size is enough.** From there on, one more unit of the bound
changes no result of the merge. -/
theorem merge_fuel_stable : ∀ m : Nat,
    (∀ original patch t mdl iun, 2 * size (.object patch) ≤ m →
      mergeMap S m original patch t mdl iun = mergeMap S (m + 1) original patch t mdl iun) ∧
    (∀ t mdl iun patch, 2 * size.sizeFields patch + 1 ≤ m → ∀ original,
      mergeMapLoop S m t mdl iun patch original =
        mergeMapLoop S (m + 1) t mdl iun patch original) ∧
    (∀ original patch elemType mergeKey mdl idl iun, 2 * size (.array patch) ≤ m →
      mergeSlice S m original patch elemType mergeKey mdl idl iun =
        mergeSlice S (m + 1) original patch elemType mergeKey mdl idl iun) ∧
    (∀ elemType mergeKey mdl iun patch, 2 * size.sizeList patch + 1 ≤ m → ∀ original,
      mergeSliceLoop S m elemType mergeKey mdl iun patch original =
        mergeSliceLoop S (m + 1) elemType mergeKey mdl iun patch original)
  | 0 => by
    refine ⟨fun _ p _ _ _ h => ?_, fun _ _ _ _ h => ?_, fun _ p _ _ _ _ _ h => ?_,
      fun _ _ _ _ _ h => ?_⟩
    · have := one_le_size (.object p); omega
    · omega
    · have := one_le_size (.array p); omega
    · omega
  | m + 1 =>
    let ⟨hMap, hLoop, hSlice, hSliceLoop⟩ := merge_fuel_stable m
    ⟨fun _ _ _ _ _ => mergeMap_stable_succ hLoop _ _ _ _ _,
      fun _ _ _ _ hn => mergeMapLoop_stable_succ hMap hLoop hSlice _ _ _ _ hn,
      fun _ _ _ _ _ _ _ => mergeSlice_stable_succ hSliceLoop _ _ _ _ _ _ _,
      fun _ _ _ _ _ hn => mergeSliceLoop_stable_succ hMap hSliceLoop _ _ _ _ _ hn⟩

variable {S}

/-- From a bound of twice the size of the patch on, `mergeMap` gives one result. -/
theorem mergeMap_fuel_eq {n n' : Nat} (original patch : JSONMap) (t : τ) (mdl iun : Bool)
    (hn : 2 * size (.object patch) ≤ n) (h : n ≤ n') :
    mergeMap S n original patch t mdl iun = mergeMap S n' original patch t mdl iun := by
  induction h with
  | refl => rfl
  | step hle ih => exact ih.trans ((merge_fuel_stable S _).1 _ _ _ _ _ (hn.trans hle))

/-- From a bound of twice the size of the patch, plus one, on, the loop of `mergeMap` gives one
result. -/
theorem mergeMapLoop_fuel_eq {n n' : Nat} (t : τ) (mdl iun : Bool) (patch original : JSONMap)
    (hn : 2 * size.sizeFields patch + 1 ≤ n) (h : n ≤ n') :
    mergeMapLoop S n t mdl iun patch original = mergeMapLoop S n' t mdl iun patch original := by
  induction h with
  | refl => rfl
  | step hle ih => exact ih.trans ((merge_fuel_stable S _).2.1 _ _ _ _ (hn.trans hle) _)

end ClientGo.Strategicpatch
