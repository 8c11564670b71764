import ClientGo.Strategicpatch.Merge
import ClientGo.Strategicpatch.ScalarDiff
import ClientGo.Strategicpatch.Uniqify

/-!
# Merging lists of scalars

When the elements of both lists are scalars of one kind, `mergeSlice` either applies a parallel
deletion list with `deleteFromSlice` or returns `uniqifyScalars` of the two lists joined.

`deleteFromSlice` uniqifies and sorts both lists by `%v`, then walks them with two indices: an
element of `current` whose string equals the one under `toDeleteIndex` is dropped, a smaller one is
kept, and a larger one moves `toDeleteIndex` on. On sorted lists that walk keeps exactly the
elements whose string is none of the deletion list's (`deleteFromSliceLoop_eq`), so the result is
`current` without repeats, sorted, less every element the deletion list prints the same
(`deleteFromSlice_filter`). `mergeSlice_scalars` puts the two branches together.
-/

namespace ClientGo.Strategicpatch

open Value

/-! ## The sorted, duplicate-free lists the loop walks -/

/-- `uniqifyScalars` on values `==` compares: no repeated element, and the input's elements. -/
theorem uniqifyScalars_nodup {s : List Value} (hs : ∀ v ∈ s, v.isComparable) :
    ∃ r, uniqifyScalars s = .ok r ∧ r.Nodup ∧ ∀ v, v ∈ r ↔ v ∈ s := by
  rcases s with _ | ⟨y, s⟩
  · exact ⟨[], rfl, List.nodup_nil, fun _ => Iff.rfl⟩
  exact uniqifyOuter_spec (y :: s).length 0 (y :: s) s.length hs rfl List.Pairwise.nil (by simp)
    (by simp)

theorem uniqifyAndSortScalars_spec {s : List Value} (hs : ∀ v ∈ s, v.isComparable) :
    ∃ r, uniqifyAndSortScalars s = .ok r ∧ r.Sorted (fun a b => fmtLE a b = true) ∧ r.Nodup ∧
      ∀ v, v ∈ r ↔ v ∈ s := by
  obtain ⟨r, hr, hn, hm⟩ := uniqifyScalars_nodup hs
  exact ⟨sortScalars r, by rw [uniqifyAndSortScalars, hr]; rfl, sorted_sortScalars r,
    (perm_sortScalars r).nodup_iff.mpr hn, fun v => (perm_sortScalars r).mem_iff.trans (hm v)⟩

/-! ## The loop of `deleteFromSlice` -/

/-- **The loop filters.** On lists sorted by `%v`, with a bound at least the elements left, the
loop from `currentIndex` and `toDeleteIndex` appends to `mergedList` the elements of the rest of
`currentScalars` whose string is that of no element of the rest of `toDeleteScalars`. -/
theorem deleteFromSliceLoop_eq {currentScalars toDeleteScalars : List Value}
    (hc : currentScalars.Sorted fun a b => fmtLE a b = true)
    (hd : toDeleteScalars.Sorted fun a b => fmtLE a b = true) :
    ∀ (fuel currentIndex toDeleteIndex : Nat) (mergedList : List Value),
      currentScalars.length - currentIndex + (toDeleteScalars.length - toDeleteIndex) ≤ fuel →
      deleteFromSliceLoop currentScalars toDeleteScalars fuel currentIndex toDeleteIndex
          mergedList =
        mergedList ++ (currentScalars.drop currentIndex).filter
          fun c => c.fmtV ∉ (toDeleteScalars.drop toDeleteIndex).map fmtV
  | 0, currentIndex, toDeleteIndex, mergedList, hfuel => by
    rw [deleteFromSliceLoop, List.drop_eq_nil_of_le (show currentScalars.length ≤ currentIndex by
      omega)]
    rfl
  | fuel + 1, currentIndex, toDeleteIndex, mergedList, hfuel => by
    have ih := deleteFromSliceLoop_eq hc hd fuel
    rcases hcur : currentScalars.drop currentIndex with _ | ⟨c, current⟩
    · -- nothing left to keep
      simp [deleteFromSliceLoop, Nat.not_lt.mpr (List.drop_eq_nil_iff.mp hcur), hcur]
    rcases hdel : toDeleteScalars.drop toDeleteIndex with _ | ⟨d, toDelete⟩
    · -- nothing left to delete: the rest is kept
      simp [deleteFromSliceLoop, Nat.not_lt.mpr (List.drop_eq_nil_iff.mp hdel), hcur]
    obtain ⟨h₁, hg₁, hd₁⟩ := getD_of_drop_eq_cons .null hcur
    obtain ⟨h₂, hg₂, hd₂⟩ := getD_of_drop_eq_cons .null hdel
    simp only [deleteFromSliceLoop, h₁, h₂, and_self, ↓reduceIte, hg₁, hg₂]
    by_cases e : c.fmtV = d.fmtV
    · -- `c` is deleted
      rw [if_pos e, ih _ _ _ (by omega), hd₁, hdel, List.filter_cons_of_neg (by simp [e])]
    by_cases hlt : strLess d.fmtV c.fmtV = true
    · -- `d` is below every element left, so it deletes nothing more
      have hd' : d.fmtV ∉ (c :: current).map fmtV := key_not_mem_of_strLess (hcur ▸ hc.drop) hlt
      rw [if_neg e, if_pos hlt, ih _ _ _ (by omega), hcur, hd₂]
      congr 1
      refine List.filter_congr fun x hx => ?_
      have hx' : x.fmtV ≠ d.fmtV := fun h => hd' (h ▸ List.mem_map_of_mem fmtV hx)
      simp [hx']
    · -- `c` is below every element of the deletion list left, so it is kept
      have hc' : c.fmtV ∉ (d :: toDelete).map fmtV := key_not_mem_of_strLess (hdel ▸ hd.drop)
        ((strLess_total e).resolve_right hlt)
      rw [if_neg e, if_neg hlt, ih _ _ _ (by omega), hd₁, hdel,
        List.filter_cons_of_pos (by simpa using hc')]
      simp

/-- **`deleteFromSlice` deletes by `%v` string.** On lists of values `==` compares, it returns,
sorted by `%v` and without repeats, the elements of `current` whose string is that of no element
of `toDelete`. -/
theorem deleteFromSlice_filter {current toDelete : List Value}
    (hc : ∀ v ∈ current, v.isComparable) (hd : ∀ v ∈ toDelete, v.isComparable) :
    ∃ r, deleteFromSlice current toDelete = .ok r ∧ r.Sorted (fun a b => fmtLE a b = true) ∧
      r.Nodup ∧ ∀ v, v ∈ r ↔ v ∈ current ∧ v.fmtV ∉ toDelete.map fmtV := by
  obtain ⟨cs, hcs, hcsort, hcn, hcm⟩ := uniqifyAndSortScalars_spec hc
  obtain ⟨ds, hds, hdsort, -, hdm⟩ := uniqifyAndSortScalars_spec hd
  refine ⟨cs.filter fun c => c.fmtV ∉ ds.map fmtV, ?_, hcsort.filter _, hcn.filter _, fun v => ?_⟩
  · simp only [deleteFromSlice, hcs, hds, bind, Except.bind, pure, Except.pure]
    rw [deleteFromSliceLoop_eq hcsort hdsort _ 0 0 [] (by omega)]
    rfl
  · simp [List.mem_filter, hcm, hdm]

/-! ## `mergeSlice` on lists of scalars -/

/-- A successful `sliceElementType` names the kind of every element, a kind that is neither
`nil` nor a slice. -/
theorem sliceElementType_ok {slices : List (List Value)} {t : Kind}
    (h : sliceElementType slices = .ok t) :
    t ≠ .nil ∧ t ≠ .slice ∧ ∀ v ∈ slices.flatten, v.kind = t := by
  have hsome : ∀ {t' : Kind} {vs : List Value}, sliceElementType.go slices (some t') vs = .ok t →
      t' = t ∧ ∀ v ∈ vs, v.kind = t := by
    intro t' vs
    induction vs with
    | nil => intro h; exact ⟨Except.ok.inj h, by simp⟩
    | cons v vs ih =>
      intro h
      simp only [sliceElementType.go] at h
      split_ifs at h with hne
      obtain ⟨rfl, hall⟩ := ih h
      exact ⟨rfl, by simpa [not_not.mp hne] using hall⟩
  unfold sliceElementType at h
  cases hf : slices.flatten with
  | nil => rw [hf] at h; cases h
  | cons v vs =>
    rw [hf] at h
    simp only [sliceElementType.go] at h
    split_ifs at h with hn hs
    obtain ⟨rfl, hall⟩ := hsome h
    exact ⟨hn, hs, by simpa using hall⟩

theorem isComparable_of_kind {v : Value} (hs : v.kind ≠ .slice) (hm : v.kind ≠ .map) :
    v.isComparable := by
  cases v <;> simp_all [kind, isComparable]

/-- Lists whose elements, and there is one, all have one kind other than `nil` and a slice:
`sliceElementType` finds that kind. -/
theorem sliceElementType_of_kind {slices : List (List Value)} {t : Kind} (hn : t ≠ .nil)
    (hs : t ≠ .slice) (hne : slices.flatten ≠ []) (hall : ∀ v ∈ slices.flatten, v.kind = t) :
    sliceElementType slices = .ok t := by
  have hgo : ∀ vs : List Value, (∀ v ∈ vs, v.kind = t) →
      sliceElementType.go slices (some t) vs = .ok t := by
    intro vs
    induction vs with
    | nil => intro _; rfl
    | cons v vs ih =>
      intro h
      rw [List.forall_mem_cons] at h
      simp only [sliceElementType.go, h.1, ne_eq, not_true_eq_false, if_false]
      exact ih h.2
  obtain ⟨v, vs, hf⟩ := List.exists_cons_of_ne_nil hne
  rw [hf, List.forall_mem_cons] at hall
  rw [sliceElementType, hf]
  simp only [sliceElementType.go, hall.1, hn, hs, if_false]
  exact hgo vs hall.2

section MergeSlice

variable {τ : Type} (S : Schema τ)

/-- On lists whose elements `sliceElementType` finds of one kind other than a map, `mergeSlice`
applies a parallel deletion list, or appends the patch and removes repeats. -/
theorem mergeSlice_of_scalars (fuel : Nat) (original patch : List Value) (elemType : τ)
    (mergeKey : String) (mergeDeleteList isDeleteList ignoreUnmatchedNulls : Bool) {t : Kind}
    (ht : sliceElementType [original, patch] = .ok t) (hmap : t ≠ .map) :
    mergeSlice S (fuel + 1) original patch elemType mergeKey mergeDeleteList isDeleteList
        ignoreUnmatchedNulls =
      if mergeDeleteList ∧ isDeleteList then deleteFromSlice original patch
      else uniqifyScalars (original ++ patch) := by
  -- both lists empty would leave `sliceElementType` nothing to find
  have hne : ¬(original.length = 0 ∧ patch.length = 0) := fun ⟨h₁, h₂⟩ => by
    rw [List.length_eq_zero.mp h₁, List.length_eq_zero.mp h₂] at ht
    cases ht
  simp only [mergeSlice, if_neg hne, ht, bind, Except.bind, ne_eq, hmap, not_false_eq_true,
    if_true]

/-- **Merging two lists of scalars.** When `sliceElementType` finds one kind other than a map
for the elements of `original` and `patch`, `mergeSlice` returns a list without repeats. With a
parallel deletion list it is sorted by `%v` and holds the elements of `original` whose string is
that of no element of `patch`; otherwise it holds the elements of both lists. -/
theorem mergeSlice_scalars (fuel : Nat) (original patch : List Value) (elemType : τ)
    (mergeKey : String) (mergeDeleteList isDeleteList ignoreUnmatchedNulls : Bool) {t : Kind}
    (ht : sliceElementType [original, patch] = .ok t) (hmap : t ≠ .map) :
    ∃ r, mergeSlice S (fuel + 1) original patch elemType mergeKey mergeDeleteList isDeleteList
        ignoreUnmatchedNulls = .ok r ∧ r.Nodup ∧
      if mergeDeleteList ∧ isDeleteList then
        r.Sorted (fun a b => fmtLE a b = true) ∧ ∀ v, v ∈ r ↔ v ∈ original ∧ v.fmtV ∉ patch.map fmtV
      else ∀ v, v ∈ r ↔ v ∈ original ∨ v ∈ patch := by
  obtain ⟨-, hts, hall⟩ := sliceElementType_ok ht
  have hcmp : ∀ v ∈ original ++ patch, v.isComparable := fun v hv =>
    isComparable_of_kind (by rw [hall v (by simpa using hv)]; exact hts)
      (by rw [hall v (by simpa using hv)]; exact hmap)
  rw [mergeSlice_of_scalars S fuel original patch elemType mergeKey _ _ _ ht hmap]
  split_ifs with hdl
  · obtain ⟨r, hr, hs, hn, hm⟩ := @deleteFromSlice_filter original patch
      (fun v hv => hcmp v (by simp [hv])) (fun v hv => hcmp v (by simp [hv]))
    exact ⟨r, hr, hn, hs, hm⟩
  · obtain ⟨r, hr, hn, hm⟩ := uniqifyScalars_nodup hcmp
    exact ⟨r, hr, hn, fun v => (hm v).trans List.mem_append⟩

/-- `[1, 2]` merged with `[2, 3]`, and with the deletion list `[2, 3]`. -/
theorem mergeSlice_scalars_union_and_delete :
    (mergeSlice (uniformSchema "" "") 1 [.number 1, .number 2] [.number 2, .number 3] () ""
        true false true = .ok [.number 1, .number 2, .number 3] ∧
      ∃ r, mergeSlice (uniformSchema "" "") 1 [.number 1, .number 2] [.number 2, .number 3] () ""
          true false true = .ok r ∧ r.Nodup ∧
        if true = true ∧ false = true then
          r.Sorted (fun a b => fmtLE a b = true) ∧
            ∀ v, v ∈ r ↔ v ∈ [.number 1, .number 2] ∧ v.fmtV ∉ [Value.number 2, .number 3].map fmtV
        else ∀ v, v ∈ r ↔ v ∈ [.number 1, .number 2] ∨ v ∈ [.number 2, .number 3]) ∧
    (mergeSlice (uniformSchema "" "") 1 [.number 1, .number 2] [.number 2, .number 3] () ""
        true true true = .ok [.number 1] ∧
      ∃ r, mergeSlice (uniformSchema "" "") 1 [.number 1, .number 2] [.number 2, .number 3] () ""
          true true true = .ok r ∧ r.Nodup ∧
        if true = true ∧ true = true then
          r.Sorted (fun a b => fmtLE a b = true) ∧
            ∀ v, v ∈ r ↔ v ∈ [.number 1, .number 2] ∧ v.fmtV ∉ [Value.number 2, .number 3].map fmtV
        else ∀ v, v ∈ r ↔ v ∈ [.number 1, .number 2] ∨ v ∈ [.number 2, .number 3]) :=
  ⟨⟨rfl, mergeSlice_scalars (uniformSchema "" "") 0 _ _ () "" true false true
      (show sliceElementType [[.number 1, .number 2], [.number 2, .number 3]] = .ok .float64
        from rfl) (by decide)⟩,
    ⟨rfl, mergeSlice_scalars (uniformSchema "" "") 0 _ _ () "" true true true
      (show sliceElementType [[.number 1, .number 2], [.number 2, .number 3]] = .ok .float64
        from rfl) (by decide)⟩⟩

end MergeSlice

end ClientGo.Strategicpatch
