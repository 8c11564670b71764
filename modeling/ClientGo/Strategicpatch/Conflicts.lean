import ClientGo.Strategicpatch.Diff
import ClientGo.Strategicpatch.Merge

/-!
# Conflicts and the three-way patch

`MergingMapsHaveConflicts(left, right)` reports whether two patches touch a key differently.
Merge lists of maps are compared by merge key; merge lists of scalars never conflict; other
lists must have the same length and are compared element by element, scalars after
`uniqifyAndSortScalars`. In Go a conflict comes back as `(true, err)`, and every error comes with
`true`, so the model returns `Except Failure Bool`.

`CreateThreeWayMergePatch(original, modified, current, overwrite)` on decoded documents: the
changes from `current` to `modified` without deletions, merged into the deletions from `original`
to `modified`; with `overwrite` false, a conflict between that patch and the changes from
`original` to `current` is an error.
-/

namespace ClientGo.Strategicpatch

open Value

/-- `sliceOfMapsToMapOfMaps(slice, mergeKey)`: the maps of the list, keyed by the `%s` of their
merge key. -/
def sliceOfMapsToMapOfMaps (slice : List Value) (mergeKey : String) :
    Except Failure JSONMap :=
  go slice []
where
  go : List Value → JSONMap → Except Failure JSONMap
    | [], result => .ok result
    | .object typedValue :: rest, result =>
      match JSONMap.get? typedValue mergeKey with
      | some mergeValue => go rest (JSONMap.insert result mergeValue.fmtS (.object typedValue))
      | none => .error (.error ("cannot find merge key `" ++ mergeKey ++
          "` in merging list element:" ++ fmtV (.object typedValue)))
    | _ :: _, _ => .error (.error ("invalid element type in merging list:" ++ fmtV (.array slice)))

section Conflicts

variable {τ : Type} (S : Schema τ)

mutual

/-- `mergingMapFieldsHaveConflicts(left, right, fieldType, fieldPatchStrategy,
fieldPatchMergeKey)`. -/
def mergingMapFieldsHaveConflicts : Nat → Value → Value → τ → String → String →
    Except Failure Bool
  | 0, _, _, _, _, _ => .error .exhausted
  | fuel + 1, left, right, fieldType, fieldPatchStrategy, fieldPatchMergeKey =>
    match left, right with
    | .object leftType, .object rightType =>
      match JSONMap.get? leftType directiveMarker, JSONMap.get? rightType directiveMarker with
      | some leftMarker, some rightMarker => do
        if !(← goEq leftMarker rightMarker) then pure true
        else if fieldPatchStrategy = replaceDirective then pure false
        else mapsHaveConflicts fuel leftType rightType fieldType
      | none, none =>
        if fieldPatchStrategy = replaceDirective then .ok false
        else mapsHaveConflicts fuel leftType rightType fieldType
      | _, _ => .ok true
    | .object _, _ => .ok true
    | .array leftType, .array rightType =>
      slicesHaveConflicts fuel leftType rightType fieldType fieldPatchStrategy fieldPatchMergeKey
    | .array _, _ => .ok true
    | _, _ => .ok !(deepEqual left right)

/-- `mapsHaveConflicts(typedLeft, typedRight, structType)`: the loop over the keys of
`typedLeft`. -/
def mapsHaveConflicts : Nat → JSONMap → JSONMap → τ → Except Failure Bool
  | 0, _, _, _ => .error .exhausted
  | _ + 1, [], _, _ => .ok false
  | fuel + 1, (key, leftValue) :: rest, typedRight, structType => do
    let next := mapsHaveConflicts fuel rest typedRight structType
    if key = directiveMarker then next else
    match JSONMap.get? typedRight key with
    | none => next
    | some rightValue => do
      let (fieldType, fieldPatchStrategy, fieldPatchMergeKey) ←
        (S.lookupPatchMetadata structType key).mapError Failure.lookup
      if ← mergingMapFieldsHaveConflicts fuel leftValue rightValue fieldType fieldPatchStrategy
          fieldPatchMergeKey then pure true
      else next

/-- `slicesHaveConflicts(typedLeft, typedRight, fieldType, fieldPatchStrategy,
fieldPatchMergeKey)`. -/
def slicesHaveConflicts : Nat → List Value → List Value → τ → String → String →
    Except Failure Bool
  | 0, _, _, _, _, _ => .error .exhausted
  | fuel + 1, typedLeft, typedRight, fieldType, fieldPatchStrategy, fieldPatchMergeKey => do
    let elementType ← sliceElementType [typedLeft, typedRight]
    let valueType := S.elem fieldType
    if fieldPatchStrategy = mergeDirective then
      if elementType ≠ .map then pure false else do
        let leftMap ← sliceOfMapsToMapOfMaps typedLeft fieldPatchMergeKey
        let rightMap ← sliceOfMapsToMapOfMaps typedRight fieldPatchMergeKey
        mapsOfMapsHaveConflicts fuel leftMap rightMap valueType
    else if typedLeft.length ≠ typedRight.length then pure true
    else do
      let (typedLeft, typedRight) ← if elementType ≠ .map then do
          pure (← uniqifyAndSortScalars typedLeft, ← uniqifyAndSortScalars typedRight)
        else pure (typedLeft, typedRight)
      slicesHaveConflictsLoop fuel typedRight valueType 0 typedLeft

/-- The loop of `slicesHaveConflicts` comparing `typedLeft[i]` with `typedRight[i]`; an index
past the end of `typedRight` panics. -/
def slicesHaveConflictsLoop : Nat → List Value → τ → Nat → List Value → Except Failure Bool
  | 0, _, _, _, _ => .error .exhausted
  | _ + 1, _, _, _, [] => .ok false
  | fuel + 1, typedRight, valueType, i, l :: rest =>
    match typedRight[i]? with
    | none => .error (.panic ("runtime error: index out of range [" ++ toString i ++
        "] with length " ++ toString typedRight.length))
    | some r => do
      if ← mergingMapFieldsHaveConflicts fuel l r valueType "" "" then pure true
      else slicesHaveConflictsLoop fuel typedRight valueType (i + 1) rest

/-- `mapsOfMapsHaveConflicts(typedLeft, typedRight, structType)`. -/
def mapsOfMapsHaveConflicts : Nat → JSONMap → JSONMap → τ → Except Failure Bool
  | 0, _, _, _ => .error .exhausted
  | _ + 1, [], _, _ => .ok false
  | fuel + 1, (key, leftValue) :: rest, typedRight, structType =>
    match JSONMap.get? typedRight key with
    | none => mapsOfMapsHaveConflicts fuel rest typedRight structType
    | some rightValue => do
      if ← mergingMapFieldsHaveConflicts fuel leftValue rightValue structType "" "" then
        pure true
      else mapsOfMapsHaveConflicts fuel rest typedRight structType

end

/-- `MergingMapsHaveConflicts(left, right, dataStruct)`. -/
def MergingMapsHaveConflicts (left right : JSONMap) (t : τ) : Except Failure Bool :=
  mergingMapFieldsHaveConflicts S (2 * (size (.object left) + size (.object right)) + 1)
    (.object left) (.object right) t "" ""

/-- `CreateThreeWayMergePatch(original, modified, current, dataStruct, overwrite, fns...)` on
the decoded documents. -/
def CreateThreeWayMergePatch (original modified current : JSONMap) (t : τ) (overwrite : Bool)
    (fns : List (JSONMap → Bool)) : Except Failure JSONMap := do
  let deltaMap ← diffMaps S (2 * (size (.object current) + size (.object modified)) + 1)
    current modified t false true
  let deletionsMap ← diffMaps S (2 * (size (.object original) + size (.object modified)) + 1)
    original modified t true false
  let patchMap ← mergeMap S (2 * size (.object deltaMap) + 1) deletionsMap deltaMap t false false
  checkPreconditions fns patchMap
  if !overwrite then do
    let changedMap ← diffMaps S (2 * (size (.object original) + size (.object current)) + 1)
      original current t false false
    if ← MergingMapsHaveConflicts S patchMap changedMap t then
      throw (.conflict patchMap changedMap)
  pure patchMap

/-- The conflict check only decides whether the patch is returned: with `overwrite` false a
three-way patch is the one `overwrite` true gives, and it has no conflict with the changes from
`original` to `current`. -/
theorem CreateThreeWayMergePatch_checked (original modified current : JSONMap) (t : τ)
    (fns : List (JSONMap → Bool)) (patchMap : JSONMap)
    (h : CreateThreeWayMergePatch S original modified current t false fns = .ok patchMap) :
    CreateThreeWayMergePatch S original modified current t true fns = .ok patchMap ∧
      ∃ changedMap, diffMaps S (2 * (size (.object original) + size (.object current)) + 1)
          original current t false false = .ok changedMap ∧
        MergingMapsHaveConflicts S patchMap changedMap t = .ok false := by
  simp only [CreateThreeWayMergePatch, bind_eq_ok] at h ⊢
  obtain ⟨deltaMap, hd, deletionsMap, hdel, p, hp, u, hu, h⟩ := h
  simp only [Bool.not_false, if_true, bind_eq_ok] at h
  obtain ⟨changedMap, hc, conflicts, hm, h⟩ := h
  cases conflicts
  · simp only [Bool.false_eq_true, if_false] at h
    have hp' : p = patchMap := by simpa [pure, Except.pure, bind, Except.bind] using h
    subst hp'
    exact ⟨⟨_, hd, _, hdel, _, hp, _, hu, rfl⟩, changedMap, hc, hm⟩
  · simp [throw, throwThe, MonadExceptOf.throw, Except.bind, bind] at h

end Conflicts

/-- Current lacks `k`, which original and modified have, and modified deleted `k.b`: the patch
carries the deletion `{"k": {"b": null}}`, and applying it to current copies the `null` into the
result, where modified has `{"k": {}}`. -/
theorem threeWay_copies_deletion_into_absent_key :
    CreateThreeWayMergePatch (uniformSchema "" "") [("k", .object [("b", .number 1)])]
        [("k", .object [])] [] () true [] = .ok [("k", .object [("b", .null)])] ∧
    StrategicMergeMapPatch (uniformSchema "" "") [] [("k", .object [("b", .null)])] () =
      .ok [("k", .object [("b", .null)])] :=
  ⟨rfl, rfl⟩

/-- Two runs where current drifted from original at a list `l` without merge strategy and the
conflict check lets the patch overwrite it. Original `[3]`, modified `[1, 1]`, current `[1, 2]`:
the check compares the lists after `uniqifyAndSortScalars`, `[1]` against `[1, 2]`, and finds
nothing. Original `[{"a": 1}]`, modified `[{"a": 1, "h": 3}]`, current `[{"a": 1, "g": 5}]`: the
check compares the elements key by key and finds no key they share with different values, but
the patch replaces the whole list. -/
theorem threeWay_overwrites_drift_without_conflict :
    CreateThreeWayMergePatch (uniformSchema "" "") [("l", .array [.number 3])]
        [("l", .array [.number 1, .number 1])] [("l", .array [.number 1, .number 2])] () false [] =
      .ok [("l", .array [.number 1, .number 1])] ∧
    StrategicMergeMapPatch (uniformSchema "" "") [("l", .array [.number 1, .number 2])]
        [("l", .array [.number 1, .number 1])] () = .ok [("l", .array [.number 1, .number 1])] ∧
    CreateThreeWayMergePatch (uniformSchema "" "") [("l", .array [.object [("a", .number 1)]])]
        [("l", .array [.object [("a", .number 1), ("h", .number 3)]])]
        [("l", .array [.object [("a", .number 1), ("g", .number 5)]])] () false [] =
      .ok [("l", .array [.object [("a", .number 1), ("h", .number 3)]])] ∧
    StrategicMergeMapPatch (uniformSchema "" "")
        [("l", .array [.object [("a", .number 1), ("g", .number 5)]])]
        [("l", .array [.object [("a", .number 1), ("h", .number 3)]])] () =
      .ok [("l", .array [.object [("a", .number 1), ("h", .number 3)]])] :=
  ⟨rfl, rfl, rfl, rfl⟩

/-- Three panics on well-formed JSON. A merge list whose first element is `null` reaches
`sliceElementType`; two lists without merge strategy of length 2, `[1, 2]` and `[1, 1]`, become
`[1, 2]` and `[1]` after the length check, and `slicesHaveConflicts` indexes past the second;
merge-key values that are maps are compared with `==` in `findMapInSliceBasedOnKeyValue`. -/
theorem engine_panics_on_json_inputs :
    CreateTwoWayMergeMapPatch (uniformSchema "merge" "") [("l", .array [.null])]
        [("l", .array [])] () [] =
      .error (.panic "runtime error: invalid memory address or nil pointer dereference") ∧
    MergingMapsHaveConflicts (uniformSchema "" "") [("l", .array [.number 1, .number 2])]
        [("l", .array [.number 1, .number 1])] () =
      .error (.panic "runtime error: index out of range [1] with length 1") ∧
    StrategicMergeMapPatch (uniformSchema "merge" "name")
        [("l", .array [.object [("name", .object [("a", .number 1)])]])]
        [("l", .array [.object [("name", .object [("a", .number 1)])]])] () =
      .error (.panic "runtime error: comparing uncomparable type map[string]interface \x7b\x7d") :=
  ⟨rfl, rfl, rfl⟩

/-- The check depends on which map is on the left. Two lists without merge strategy of length 2,
`[1, 1]` and `[1, 2]`, pass the length check and become `[1]` and `[1, 2]`; the loop walks the
left one. With `[1, 1]` on the left it compares `1` with `1` and finds no conflict; with `[1, 2]`
on the left it indexes past the end of `[1]`. -/
theorem conflict_check_depends_on_side :
    MergingMapsHaveConflicts (uniformSchema "" "") [("l", .array [.number 1, .number 1])]
        [("l", .array [.number 1, .number 2])] () = .ok false ∧
    MergingMapsHaveConflicts (uniformSchema "" "") [("l", .array [.number 1, .number 2])]
        [("l", .array [.number 1, .number 1])] () =
      .error (.panic "runtime error: index out of range [1] with length 1") :=
  ⟨rfl, rfl⟩

end ClientGo.Strategicpatch
