import ClientGo.Strategicpatch.Lists

/-!
# Two-way diff

`diffMaps(original, modified, t, ignoreChangesAndAdditions, ignoreDeletions)` walks the keys of
`modified`, then adds a `null` for every key only `original` has. Merge-strategy lists go to
`diffLists`: scalars to the two-pointer walk `diffListsOfScalars`, which returns the additions
and a parallel deletion list; maps to `diffListsOfMaps`, which pairs elements by merge key and
emits `$patch: delete` directives.

The mutually recursive functions take a recursion bound (`fuel`) that each call lowers by one;
`CreateTwoWayMergeMapPatch` gives twice the size of the two documents.
-/

namespace ClientGo.Strategicpatch

open Value

/-- `reflect.Kind.String()` of a decoded value's kind. -/
def Kind.kindString : Kind → String
  | .nil => "invalid"
  | .bool => "bool"
  | .float64 => "float64"
  | .string => "string"
  | .slice => "slice"
  | .map => "map"

/-- `errBadArgTypeFmt` after a failed assertion of a list element to a map: `t.Kind()` of a
`nil` element dereferences a nil `reflect.Type`. -/
def badArgType (v : Value) : Failure :=
  if v.kind = .nil then .panic "runtime error: invalid memory address or nil pointer dereference"
  else .error ("expected a map[string]interface \x7b\x7d, but received a " ++ v.kind.kindString)

/-- `errNoMergeKeyFmt`. -/
def noMergeKey (m : JSONMap) (mergeKey : String) : Failure :=
  .error ("map: " ++ fmtV (.object m) ++ " does not contain declared merge key: " ++ mergeKey)

/-- A list element asserted to a map, with its merge key, or the error `diffListsOfMaps`
returns. -/
def mapWithMergeKey (v : Value) (mergeKey : String) : Except Failure (JSONMap × Value) :=
  match v with
  | .object m =>
    match JSONMap.get? m mergeKey with
    | some mv => .ok (m, mv)
    | none => .error (noMergeKey m mergeKey)
  | _ => .error (badArgType v)

/-- `{mergeKey: value, "$patch": "delete"}`. -/
def deleteDirectiveFor (mergeKey : String) (value : Value) : Value :=
  .object (JSONMap.insert [(mergeKey, value)] directiveMarker (.string deleteDirective))

/-! ## Lists of scalars -/

/-- The loop of `diffListsOfScalars` over the sorted lists, as its `switch` reads, `fallthrough`
included: an element only in `modified` is an addition, one only in `original` a deletion.
`fuel` bounds the iterations. -/
def diffListsOfScalarsLoop (originalScalars modifiedScalars : List Value)
    (ignoreChangesAndAdditions ignoreDeletions : Bool) :
    Nat → Nat → Nat → List Value → List Value → List Value × List Value
  | 0, _, _, addList, deletionList => (addList, deletionList)
  | fuel + 1, originalIndex, modifiedIndex, addList, deletionList =>
    let originalInBounds := decide (originalIndex < originalScalars.length)
    let modifiedInBounds := decide (modifiedIndex < modifiedScalars.length)
    let bothInBounds := originalInBounds && modifiedInBounds
    if originalInBounds || modifiedInBounds then
      let originalString :=
        if originalInBounds then (originalScalars.getD originalIndex .null).fmtV else ""
      let modifiedString :=
        if modifiedInBounds then (modifiedScalars.getD modifiedIndex .null).fmtV else ""
      if bothInBounds && originalString = modifiedString then
        diffListsOfScalarsLoop originalScalars modifiedScalars ignoreChangesAndAdditions
          ignoreDeletions fuel (originalIndex + 1) (modifiedIndex + 1) addList deletionList
      else if !originalInBounds || (bothInBounds && strLess modifiedString originalString) then
        diffListsOfScalarsLoop originalScalars modifiedScalars ignoreChangesAndAdditions
          ignoreDeletions fuel originalIndex (modifiedIndex + 1)
          (if ignoreChangesAndAdditions then addList
            else addList ++ [modifiedScalars.getD modifiedIndex .null])
          deletionList
      else if !modifiedInBounds || (bothInBounds && strLess originalString modifiedString) then
        diffListsOfScalarsLoop originalScalars modifiedScalars ignoreChangesAndAdditions
          ignoreDeletions fuel (originalIndex + 1) modifiedIndex addList
          (if ignoreDeletions then deletionList
            else deletionList ++ [originalScalars.getD originalIndex .null])
      else
        diffListsOfScalarsLoop originalScalars modifiedScalars ignoreChangesAndAdditions
          ignoreDeletions fuel originalIndex modifiedIndex addList deletionList
    else (addList, deletionList)

/-- `diffListsOfScalars(original, modified, ignoreChangesAndAdditions, ignoreDeletions)`: the
additions and the parallel deletion list. -/
def diffListsOfScalars (original modified : List Value)
    (ignoreChangesAndAdditions ignoreDeletions : Bool) : List Value × List Value :=
  let originalScalars := sortScalars original
  let modifiedScalars := sortScalars modified
  diffListsOfScalarsLoop originalScalars modifiedScalars ignoreChangesAndAdditions ignoreDeletions
    (originalScalars.length + modifiedScalars.length) 0 0 [] []

/-- The trailing loop of `diffListsOfMaps` that deletes the elements left in `original`. -/
def deleteRemaining (mergeKey : String) : List Value → List Value → Except Failure (List Value)
  | [], patch => .ok patch
  | v :: vs, patch => do
    let (_, originalValue) ← mapWithMergeKey v mergeKey
    deleteRemaining mergeKey vs (patch ++ [deleteDirectiveFor mergeKey originalValue])

/-- The keys `original` has and `modified` lacks, set to `null` in `patch`. -/
def addDeletions (modified : JSONMap) : JSONMap → JSONMap → JSONMap
  | [], patch => patch
  | (key, _) :: rest, patch =>
    addDeletions modified rest
      (if (JSONMap.get? modified key).isSome then patch else JSONMap.insert patch key .null)

section Diff

variable {τ : Type} (S : Schema τ)

/-- `LookupPatchMetadata` with its error. -/
def lookup (t : τ) (key : String) : Except Failure (τ × String × String) :=
  (S.lookupPatchMetadata t key).mapError Failure.lookup

mutual

/-- `diffMaps(original, modified, t, ignoreChangesAndAdditions, ignoreDeletions)`. -/
def diffMaps : Nat → JSONMap → JSONMap → τ → Bool → Bool → Except Failure JSONMap
  | 0, _, _, _, _, _ => .error .exhausted
  | fuel + 1, original, modified, t, ignoreChangesAndAdditions, ignoreDeletions => do
    let patch ← diffMapsLoop fuel original t ignoreChangesAndAdditions ignoreDeletions modified []
    pure (if ignoreDeletions then patch else addDeletions modified original patch)

/-- The loop of `diffMaps` over the keys of `modified`. -/
def diffMapsLoop : Nat → JSONMap → τ → Bool → Bool → JSONMap → JSONMap → Except Failure JSONMap
  | 0, _, _, _, _, _, _ => .error .exhausted
  | _ + 1, _, _, _, _, [], patch => .ok patch
  | fuel + 1, original, t, ignoreChangesAndAdditions, ignoreDeletions,
      (key, modifiedValue) :: rest, patch => do
    let next := diffMapsLoop fuel original t ignoreChangesAndAdditions ignoreDeletions rest
    let changed := if ignoreChangesAndAdditions then patch else JSONMap.insert patch key modifiedValue
    match JSONMap.get? original key with
    | none => next changed
    | some originalValue =>
      if key = directiveMarker then
        match originalValue, modifiedValue with
        | .string originalString, .string modifiedString =>
          next (if modifiedString ≠ originalString then
            JSONMap.insert patch directiveMarker modifiedValue else patch)
        | _, _ => .error (.error ("invalid value for special key: " ++ directiveMarker))
      else if originalValue.kind ≠ modifiedValue.kind then next changed
      else
        let bottom :=
          if !ignoreChangesAndAdditions && !deepEqual originalValue modifiedValue then
            JSONMap.insert patch key modifiedValue else patch
        match originalValue, modifiedValue with
        | .object originalValueTyped, .object modifiedValueTyped =>
          match lookup S t key with
          | .error err => if deepEqual originalValue modifiedValue then next patch else .error err
          | .ok (fieldType, fieldPatchStrategy, _) =>
            if fieldPatchStrategy = replaceDirective then next changed else do
              let patchValue ← diffMaps fuel originalValueTyped modifiedValueTyped fieldType
                ignoreChangesAndAdditions ignoreDeletions
              next (if patchValue.length > 0 then
                JSONMap.insert patch key (.object patchValue) else patch)
        | .array originalValueTyped, .array modifiedValueTyped =>
          match lookup S t key with
          | .error err => if deepEqual originalValue modifiedValue then next patch else .error err
          | .ok (fieldType, fieldPatchStrategy, fieldPatchMergeKey) =>
            if fieldPatchStrategy = mergeDirective then do
              let (addList, deletionList) ← diffLists fuel originalValueTyped modifiedValueTyped
                (S.elem fieldType) fieldPatchMergeKey ignoreChangesAndAdditions ignoreDeletions
              let patch := if addList.length > 0 then
                JSONMap.insert patch key (.array addList) else patch
              next (if deletionList.length > 0 then
                JSONMap.insert patch (deleteFromPrimitiveListDirectivePrefix ++ "/" ++ key)
                  (.array deletionList) else patch)
            else next bottom
        | _, _ => next bottom

/-- `diffLists(original, modified, t, mergeKey, ...)`: the additions and the parallel deletion
list. -/
def diffLists : Nat → List Value → List Value → τ → String → Bool → Bool →
    Except Failure (List Value × List Value)
  | 0, _, _, _, _, _, _ => .error .exhausted
  | fuel + 1, original, modified, t, mergeKey, ignoreChangesAndAdditions, ignoreDeletions =>
    if original.length = 0 then
      if modified.length = 0 || ignoreChangesAndAdditions then .ok ([], [])
      else .ok (modified, [])
    else do
      let elementType ← sliceElementType [original, modified]
      match elementType with
      | .map => do
        let patchList ← diffListsOfMaps fuel original modified t mergeKey
          ignoreChangesAndAdditions ignoreDeletions
        pure (patchList, [])
      | .slice => .error .noListOfLists
      | _ => .ok (diffListsOfScalars original modified ignoreChangesAndAdditions ignoreDeletions)

/-- `diffListsOfMaps(original, modified, t, mergeKey, ...)`. -/
def diffListsOfMaps : Nat → List Value → List Value → τ → String → Bool → Bool →
    Except Failure (List Value)
  | 0, _, _, _, _, _, _ => .error .exhausted
  | fuel + 1, original, modified, t, mergeKey, ignoreChangesAndAdditions, ignoreDeletions => do
    let originalSorted ← sortMergeListsByNameArray S (fuel + 1) original t mergeKey false
    let modifiedSorted ← sortMergeListsByNameArray S (fuel + 1) modified t mergeKey false
    let (originalIndex, modifiedIndex, patch) ← diffListsOfMapsLoopB fuel originalSorted
      modifiedSorted t mergeKey ignoreChangesAndAdditions ignoreDeletions 0 0 []
    let patch ← if ignoreDeletions then pure patch
      else deleteRemaining mergeKey (originalSorted.drop originalIndex) patch
    pure (if ignoreChangesAndAdditions then patch else patch ++ modifiedSorted.drop modifiedIndex)

/-- `loopB` of `diffListsOfMaps`: the next element of `modifiedSorted`. It returns both indices
and the patch when the loop ends. -/
def diffListsOfMapsLoopB : Nat → List Value → List Value → τ → String → Bool → Bool →
    Nat → Nat → List Value → Except Failure (Nat × Nat × List Value)
  | 0, _, _, _, _, _, _, _, _, _ => .error .exhausted
  | fuel + 1, originalSorted, modifiedSorted, t, mergeKey, ignoreChangesAndAdditions,
      ignoreDeletions, originalIndex, modifiedIndex, patch =>
    if modifiedIndex < modifiedSorted.length then do
      let (modifiedMap, modifiedValue) ←
        mapWithMergeKey (modifiedSorted.getD modifiedIndex .null) mergeKey
      diffListsOfMapsInner fuel originalSorted modifiedSorted t mergeKey
        ignoreChangesAndAdditions ignoreDeletions originalIndex modifiedIndex modifiedMap
        modifiedValue patch
    else .ok (originalIndex, modifiedIndex, patch)

/-- The inner loop of `diffListsOfMaps` over `originalSorted`, for one modified element: equal
merge keys recurse and `continue loopB`, a greater original key means the modified element was
added, a smaller one that the original element was deleted; running out of originals `break`s
out of `loopB` without advancing `modifiedIndex`. -/
def diffListsOfMapsInner : Nat → List Value → List Value → τ → String → Bool → Bool →
    Nat → Nat → JSONMap → Value → List Value → Except Failure (Nat × Nat × List Value)
  | 0, _, _, _, _, _, _, _, _, _, _, _ => .error .exhausted
  | fuel + 1, originalSorted, modifiedSorted, t, mergeKey, ignoreChangesAndAdditions,
      ignoreDeletions, originalIndex, modifiedIndex, modifiedMap, modifiedValue, patch =>
    if originalIndex < originalSorted.length then do
      let (originalMap, originalValue) ←
        mapWithMergeKey (originalSorted.getD originalIndex .null) mergeKey
      let originalString := originalValue.fmtV
      let modifiedString := modifiedValue.fmtV
      if !strLess originalString modifiedString then
        if originalString = modifiedString then do
          let patchValue ← diffMaps fuel originalMap modifiedMap t ignoreChangesAndAdditions
            ignoreDeletions
          diffListsOfMapsLoopB fuel originalSorted modifiedSorted t mergeKey
            ignoreChangesAndAdditions ignoreDeletions (originalIndex + 1) (modifiedIndex + 1)
            (if patchValue.length > 0 then
              patch ++ [.object (JSONMap.insert patchValue mergeKey modifiedValue)] else patch)
        else
          diffListsOfMapsLoopB fuel originalSorted modifiedSorted t mergeKey
            ignoreChangesAndAdditions ignoreDeletions originalIndex (modifiedIndex + 1)
            (if ignoreChangesAndAdditions then patch else patch ++ [.object modifiedMap])
      else
        diffListsOfMapsInner fuel originalSorted modifiedSorted t mergeKey
          ignoreChangesAndAdditions ignoreDeletions (originalIndex + 1) modifiedIndex modifiedMap
          modifiedValue
          (if ignoreDeletions then patch else patch ++ [deleteDirectiveFor mergeKey originalValue])
    else .ok (originalIndex, modifiedIndex, patch)

end

/-- Every precondition holds of the patch, or `mergepatch.NewErrPreconditionFailed`. -/
def checkPreconditions (fns : List (JSONMap → Bool)) (patchMap : JSONMap) :
    Except Failure Unit :=
  if fns.all (· patchMap) then .ok () else .error (.preconditionFailed patchMap)

/-- `CreateTwoWayMergeMapPatch(original, modified, dataStruct, fns...)`. -/
def CreateTwoWayMergeMapPatch (original modified : JSONMap) (t : τ)
    (fns : List (JSONMap → Bool)) : Except Failure JSONMap := do
  let patchMap ← diffMaps S (2 * (size (.object original) + size (.object modified)) + 1)
    original modified t false false
  checkPreconditions fns patchMap
  pure patchMap

end Diff

/-- A field with `patchStrategy:"replace"` holding a map: `diffMaps` writes the modified map into
the patch without comparing it with the original, so the patch of a document with itself is not
empty. -/
theorem twoWay_patch_of_unchanged_replace_map :
    CreateTwoWayMergeMapPatch (uniformSchema "replace" "") [("k", .object [("b", .number 1)])]
        [("k", .object [("b", .number 1)])] () [] = .ok [("k", .object [("b", .number 1)])] :=
  rfl

end ClientGo.Strategicpatch
