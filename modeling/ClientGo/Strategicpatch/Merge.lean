import ClientGo.Strategicpatch.Diff

/-!
# Applying a patch

`mergeMap(original, patch, t, mergeDeleteList, ignoreUnmatchedNulls)` walks the keys of the
patch: a `$patch` directive replaces or deletes the whole map, a parallel deletion list is
turned into a deletion from the list it names, a `null` deletes the key, a key the original
lacks takes the patch value as it is, and two maps or two merge lists are merged recursively.
`mergeSlice` unions lists of scalars, applies deletion lists, and merges lists of maps by merge
key after applying their `$patch` elements. `StrategicMergeMapPatch` is `mergeMap` with both
flags set.
-/

namespace ClientGo.Strategicpatch

open Value

/-- `errBadPatchTypeFmt`. -/
def badPatchType (v : Value) (m : JSONMap) : Failure :=
  .error ("unknown patch type: " ++ fmtS v ++ " in map: " ++ fmtV (.object m))

/-- The `for { ... }` loop of `mergeSlice` that deletes every element whose merge key is
`== mergeValue`. `fuel` bounds the iterations; each one removes an element. -/
def deleteMatching (mergeKey : String) (mergeValue : Value) :
    Nat → List Value → Except Failure (List Value)
  | 0, original => .ok original
  | fuel + 1, original => do
    match ← findMapInSliceBasedOnKeyValue original mergeKey mergeValue with
    | none => pure original
    | some (_, originalKey) =>
      deleteMatching mergeKey mergeValue fuel (original.take originalKey ++ original.drop (originalKey + 1))

/-- The first loop of `mergeSlice` over a patch of maps: it applies the `$patch: delete`
elements to `original`, notes a `$patch: replace`, and keeps the other elements. -/
def applySpecialElements (mergeKey : String) :
    List Value → List Value → List Value → Bool → Except Failure (List Value × List Value × Bool)
  | [], original, patchWithoutSpecialElements, replace =>
    .ok (original, patchWithoutSpecialElements, replace)
  | v :: rest, original, patchWithoutSpecialElements, replace =>
    match v with
    | .object typedV =>
      match JSONMap.get? typedV directiveMarker with
      | some patchType =>
        if patchType.deepEqual (.string deleteDirective) then
          match JSONMap.get? typedV mergeKey with
          | some mergeValue => do
            let original ← deleteMatching mergeKey mergeValue (original.length + 1) original
            applySpecialElements mergeKey rest original patchWithoutSpecialElements replace
          | none => .error (.error "delete patch type with no merge key defined")
        else if patchType.deepEqual (.string replaceDirective) then
          applySpecialElements mergeKey rest original patchWithoutSpecialElements true
        else if patchType.deepEqual (.string mergeDirective) then
          .error (.error "merging lists cannot yet be specified in the patch")
        else .error (badPatchType patchType typedV)
      | none => applySpecialElements mergeKey rest original (patchWithoutSpecialElements ++ [v]) replace
    | _ => .error (notAMap v)

/-- The key a patch entry merges into, and whether its value is a parallel deletion list: the
field a `$deleteFromPrimitiveList/<field>` key names, or the key itself. -/
def splitDeleteListKey (k : String) : Except Failure (String × Bool) :=
  if hasPrefix k deleteFromPrimitiveListDirectivePrefix then
    match splitN k with
    | [_, field] => .ok (field, true)
    | _ => .error .badPatchFormatForPrimitiveList
  else .ok (k, false)

section Merge

variable {τ : Type} (S : Schema τ)

mutual

/-- `mergeMap(original, patch, t, mergeDeleteList, ignoreUnmatchedNulls)`. -/
def mergeMap : Nat → JSONMap → JSONMap → τ → Bool → Bool → Except Failure JSONMap
  | 0, _, _, _, _, _ => .error .exhausted
  | fuel + 1, original, patch, t, mergeDeleteList, ignoreUnmatchedNulls =>
    match JSONMap.get? patch directiveMarker with
    | some v =>
      if v.deepEqual (.string replaceDirective) then .ok (JSONMap.erase patch directiveMarker)
      else if v.deepEqual (.string deleteDirective) then .ok []
      else .error (badPatchType v patch)
    | none => mergeMapLoop fuel t mergeDeleteList ignoreUnmatchedNulls patch original

/-- The loop of `mergeMap` over the keys of the patch, merging into `original`. -/
def mergeMapLoop : Nat → τ → Bool → Bool → JSONMap → JSONMap → Except Failure JSONMap
  | 0, _, _, _, _, _ => .error .exhausted
  | _ + 1, _, _, _, [], original => .ok original
  | fuel + 1, t, mergeDeleteList, ignoreUnmatchedNulls, (k, patchV) :: rest, original => do
    let next := mergeMapLoop fuel t mergeDeleteList ignoreUnmatchedNulls rest
    if hasPrefix k deleteFromPrimitiveListDirectivePrefix ∧ !mergeDeleteList then
      next (JSONMap.insert original k patchV)
    else do
      let (k, isDeleteList) ← splitDeleteListKey k
      let original := match patchV with
        | .null => JSONMap.erase original k
        | _ => original
      if patchV.kind = .nil ∧ ignoreUnmatchedNulls then next original else
      match JSONMap.get? original k with
      | none => next (JSONMap.insert original k patchV)
      | some originalValue =>
        if originalValue.kind = patchV.kind then do
          let (fieldType, fieldPatchStrategy, fieldPatchMergeKey) ←
            (S.lookupPatchMetadata t k).mapError Failure.lookup
          match originalValue, patchV with
          | .object typedOriginal, .object typedPatch =>
            if fieldPatchStrategy ≠ replaceDirective then do
              let merged ← mergeMap fuel typedOriginal typedPatch fieldType mergeDeleteList
                ignoreUnmatchedNulls
              next (JSONMap.insert original k (.object merged))
            else next (JSONMap.insert original k patchV)
          | .array typedOriginal, .array typedPatch =>
            if fieldPatchStrategy = mergeDirective then do
              let merged ← mergeSlice fuel typedOriginal typedPatch (S.elem fieldType)
                fieldPatchMergeKey mergeDeleteList isDeleteList ignoreUnmatchedNulls
              next (JSONMap.insert original k (.array merged))
            else next (JSONMap.insert original k patchV)
          | _, _ => next (JSONMap.insert original k patchV)
        else next (JSONMap.insert original k patchV)

/-- `mergeSlice(original, patch, elemType, mergeKey, mergeDeleteList, isDeleteList,
ignoreUnmatchedNulls)`. -/
def mergeSlice : Nat → List Value → List Value → τ → String → Bool → Bool → Bool →
    Except Failure (List Value)
  | 0, _, _, _, _, _, _, _ => .error .exhausted
  | fuel + 1, original, patch, elemType, mergeKey, mergeDeleteList, isDeleteList,
      ignoreUnmatchedNulls =>
    if original.length = 0 ∧ patch.length = 0 then .ok original else do
      let t ← sliceElementType [original, patch]
      if t ≠ .map then
        if mergeDeleteList ∧ isDeleteList then deleteFromSlice original patch
        else uniqifyScalars (original ++ patch)
      else if mergeKey = "" then
        .error (.error ("cannot merge lists without merge key for type " ++ S.kindString elemType))
      else do
        let (original, patch, replace) ← applySpecialElements mergeKey patch original [] false
        if replace then pure patch
        else mergeSliceLoop fuel elemType mergeKey mergeDeleteList ignoreUnmatchedNulls patch original

/-- The loop of `mergeSlice` that merges every remaining patch element into the original element
with the same merge key, or appends it. -/
def mergeSliceLoop : Nat → τ → String → Bool → Bool → List Value → List Value →
    Except Failure (List Value)
  | 0, _, _, _, _, _, _ => .error .exhausted
  | _ + 1, _, _, _, _, [], original => .ok original
  | fuel + 1, elemType, mergeKey, mergeDeleteList, ignoreUnmatchedNulls, v :: rest, original => do
    let next := mergeSliceLoop fuel elemType mergeKey mergeDeleteList ignoreUnmatchedNulls rest
    match v with
    | .object typedV =>
      match JSONMap.get? typedV mergeKey with
      | none => .error (.error ("map: " ++ fmtV v ++ " does not contain declared merge key: " ++
          mergeKey))
      | some mergeValue =>
        match ← findMapInSliceBasedOnKeyValue original mergeKey mergeValue with
        | some (originalMap, originalKey) => do
          let mergedMaps ← mergeMap fuel originalMap typedV elemType mergeDeleteList
            ignoreUnmatchedNulls
          next (original.set originalKey (.object mergedMaps))
        | none => next (original ++ [v])
    | _ => .error (notAMap v)

end

/-- `StrategicMergeMapPatch(original, patch, dataStruct)`. -/
def StrategicMergeMapPatch (original patch : JSONMap) (t : τ) : Except Failure JSONMap :=
  mergeMap S (2 * size (.object patch) + 1) original patch t true true

end Merge

/-- `{"l": ["x", "x"]}` to `{"l": ["x"]}` with `l` a merge list of scalars: the diff deletes one
`"x"`, as a multiset difference, and `deleteFromSlice` then deletes every `"x"`; the result and
`{"l": ["x"]}` differ in normal form. -/
theorem roundTrip_loses_repeated_scalar :
    CreateTwoWayMergeMapPatch (uniformSchema "merge" "") [("l", .array [.string "x", .string "x"])]
        [("l", .array [.string "x"])] () [] =
      .ok [("$deleteFromPrimitiveList/l", .array [.string "x"])] ∧
    StrategicMergeMapPatch (uniformSchema "merge" "") [("l", .array [.string "x", .string "x"])]
        [("$deleteFromPrimitiveList/l", .array [.string "x"])] () = .ok [("l", .array [])] ∧
    sortMergeListsByName (uniformSchema "merge" "") [("l", .array [])] () =
      .ok [("l", .array [])] ∧
    sortMergeListsByName (uniformSchema "merge" "") [("l", .array [.string "x"])] () =
      .ok [("l", .array [.string "x"])] :=
  ⟨rfl, rfl, rfl, rfl⟩

/-! ## Nulls in the patch -/

section Nulls

variable {τ : Type} (S : Schema τ)

/-- One key of the patch: what the loop continues with holds the original's fields and values
that are not `null`. -/
theorem mergeMapLoop_step {fuel : Nat} {t : τ} {k : String} {patchV : Value}
    {rest original r : JSONMap}
    (h : mergeMapLoop S (fuel + 1) t true true ((k, patchV) :: rest) original = .ok r) :
    ∃ X, (∀ kv ∈ X, kv ∈ original ∨ kv.2.kind ≠ .nil) ∧
      mergeMapLoop S fuel t true true rest X = .ok r := by
  simp only [mergeMapLoop, Bool.not_true, Bool.false_eq_true, and_false, if_false] at h
  obtain ⟨⟨k', isDeleteList⟩, -, h⟩ := bind_eq_ok.mp h
  have hclean : ∀ kv ∈ (match patchV with | .null => JSONMap.erase original k' | _ => original),
      kv ∈ original := by
    intro kv hkv; split at hkv
    · exact JSONMap.mem_erase hkv
    · exact hkv
  by_cases hn : patchV.kind = .nil
  · rw [if_pos ⟨hn, trivial⟩] at h
    exact ⟨_, fun kv hkv => .inl (hclean kv hkv), h⟩
  rw [if_neg (fun h' => hn h'.1)] at h
  have hins : ∀ v : Value, v.kind ≠ .nil → ∀ kv ∈ JSONMap.insert
      (match patchV with | .null => JSONMap.erase original k' | _ => original) k' v,
      kv ∈ original ∨ kv.2.kind ≠ .nil := by
    intro v hv kv hkv
    rcases JSONMap.mem_insert hkv with h1 | rfl
    · exact .inl (hclean _ h1)
    · exact .inr hv
  split at h
  · exact ⟨_, hins _ hn, h⟩
  split_ifs at h
  · obtain ⟨_, -, h⟩ := bind_eq_ok.mp h
    split at h
    · split_ifs at h
      · obtain ⟨_, -, h⟩ := bind_eq_ok.mp h
        exact ⟨_, hins _ (by simp [kind]), h⟩
      · exact ⟨_, hins _ hn, h⟩
    · split_ifs at h
      · obtain ⟨_, -, h⟩ := bind_eq_ok.mp h
        exact ⟨_, hins _ (by simp [kind]), h⟩
      · exact ⟨_, hins _ hn, h⟩
    · exact ⟨_, hins _ hn, h⟩
  · exact ⟨_, hins _ hn, h⟩

theorem mergeMapLoop_no_null {t : τ} : ∀ (fuel : Nat) (patch original r : JSONMap),
    (∀ kv ∈ original, kv.2.kind ≠ .nil) → mergeMapLoop S fuel t true true patch original = .ok r →
    ∀ kv ∈ r, kv.2.kind ≠ .nil
  | 0, _, _, _, _, h => by simp [mergeMapLoop] at h
  | _ + 1, [], _, _, ho, h => by simp only [mergeMapLoop, Except.ok.injEq] at h; exact h ▸ ho
  | fuel + 1, (_, _) :: rest, original, r, ho, h => by
    obtain ⟨X, hX, h⟩ := mergeMapLoop_step S h
    exact mergeMapLoop_no_null fuel rest X r (fun kv hkv => (hX kv hkv).elim (ho kv) id) h

/-- A `null` in the patch deletes its key: applying a patch without a `$patch` directive to a
document without `null` fields leaves none at the top level. -/
theorem StrategicMergeMapPatch_no_null_field (original patch : JSONMap) (t : τ) (r : JSONMap)
    (ho : ∀ kv ∈ original, kv.2 ≠ .null) (hp : JSONMap.get? patch directiveMarker = none)
    (h : StrategicMergeMapPatch S original patch t = .ok r) : ∀ kv ∈ r, kv.2 ≠ .null := by
  simp only [StrategicMergeMapPatch, mergeMap, hp] at h
  intro kv hkv e
  exact mergeMapLoop_no_null S _ patch original r
    (fun kv hkv e' => ho kv hkv (kind_eq_nil_iff.mp e')) h kv hkv (kind_eq_nil_iff.mpr e)

/-- `{"a": null, "c": 3}` applied to `{"a": 1, "b": 2}`: `a` is deleted, and no field is `null`. -/
theorem StrategicMergeMapPatch_no_null_field_deleted_key :
    StrategicMergeMapPatch (uniformSchema "" "") [("a", .number 1), ("b", .number 2)]
        [("a", .null), ("c", .number 3)] () = .ok [("b", .number 2), ("c", .number 3)] ∧
    ∀ kv ∈ ([("b", .number 2), ("c", .number 3)] : JSONMap), kv.2 ≠ .null :=
  ⟨rfl, StrategicMergeMapPatch_no_null_field (uniformSchema "" "")
    [("a", .number 1), ("b", .number 2)] [("a", .null), ("c", .number 3)] () _ (by simp) rfl rfl⟩

end Nulls

/-- One level down it is not so: a key the original lacks takes the patch value as it is, the
`null` inside included. -/
theorem nested_null_copied_into_result :
    StrategicMergeMapPatch (uniformSchema "" "") [] [("k", .object [("b", .null)])] () =
      .ok [("k", .object [("b", .null)])] :=
  rfl

/-- Applied once more, the same patch deletes the `null` it copied the first time. -/
theorem reapplied_patch_changes_result :
    StrategicMergeMapPatch (uniformSchema "" "") [] [("k", .object [("b", .null)])] () =
      .ok [("k", .object [("b", .null)])] ∧
    StrategicMergeMapPatch (uniformSchema "" "") [("k", .object [("b", .null)])]
        [("k", .object [("b", .null)])] () = .ok [("k", .object [])] ∧
    sortMergeListsByName (uniformSchema "" "") [("k", .object [("b", .null)])] () =
      .ok [("k", .object [("b", .null)])] ∧
    sortMergeListsByName (uniformSchema "" "") [("k", .object [])] () = .ok [("k", .object [])] :=
  ⟨rfl, rfl, rfl, rfl⟩

/-! ## Parallel deletion lists -/

/-- A deletion list for a field the original lacks reaches the missing-key branch with the field's
name, which stores the deletion list itself there: `{"$deleteFromPrimitiveList/k": [1]}` applied
to `{}` gives `{"k": [1]}`. -/
theorem deletion_list_stored_in_absent_field :
    StrategicMergeMapPatch (uniformSchema "merge" "") []
        [("$deleteFromPrimitiveList/k", .array [.number 1])] () = .ok [("k", .array [.number 1])] :=
  rfl

/-- The patch `{"k": [1], "$deleteFromPrimitiveList/k": [2]}`, with `k` a merge list of scalars,
applied to `{}` in the two orders of its keys. Visiting `k` first stores `[1]` and then deletes
`2` from it; visiting the deletion list first stores `[2]` under `k`, and `k` then unions `[1]`
into it. The two results differ in normal form too. -/
theorem mergeMap_result_depends_on_key_order :
    List.Perm ([("$deleteFromPrimitiveList/k", .array [.number 2]), ("k", .array [.number 1])] :
        JSONMap) [("k", .array [.number 1]), ("$deleteFromPrimitiveList/k", .array [.number 2])] ∧
    StrategicMergeMapPatch (uniformSchema "merge" "") []
        [("k", .array [.number 1]), ("$deleteFromPrimitiveList/k", .array [.number 2])] () =
      .ok [("k", .array [.number 1])] ∧
    StrategicMergeMapPatch (uniformSchema "merge" "") []
        [("$deleteFromPrimitiveList/k", .array [.number 2]), ("k", .array [.number 1])] () =
      .ok [("k", .array [.number 2, .number 1])] ∧
    sortMergeListsByName (uniformSchema "merge" "") [("k", .array [.number 2, .number 1])] () =
      .ok [("k", .array [.number 1, .number 2])] :=
  ⟨List.Perm.swap _ _ _, rfl, rfl, rfl⟩

end ClientGo.Strategicpatch
