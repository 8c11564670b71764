import ClientGo.Strategicpatch.Json

/-!
# The list helpers of the patch engine

`sliceElementType`, `uniqifyScalars` (the in-place "swap with the last element" loop),
`sortScalars`, `deleteFromSlice`, `findMapInSliceBasedOnKeyValue`, and the normal form
`sortMergeListsByNameMap` that sorts every merge list of a document.

`sort.Sort` with a `Less` that compares `%v` strings is modelled by Go's own `insertionSort`
(`goInsertionSort`), which `sort.Sort` runs on a short slice. Its inner loop swaps the new element
with the one before it while `Less(j, j-1)`, and `Less` is `sort.StringsAreSorted` of the two
strings, true on equal strings: the loop moves an element in front of every equal one, so a run of
elements with equal strings comes out reversed.
-/

namespace ClientGo.Strategicpatch

open Value

/-- `strings.HasPrefix(s, prefix)`. -/
def hasPrefix (s pre : String) : Bool := pre.toList.isPrefixOf s.toList

/-- `strings.SplitN(s, "/", 2)`. -/
def splitN (s : String) : List String :=
  match go s.toList with
  | (a, none) => [String.mk a]
  | (a, some b) => [String.mk a, String.mk b]
where
  go : List Char → List Char × Option (List Char)
    | [] => ([], none)
    | c :: cs => if c = '/' then ([], some cs) else ((c :: (go cs).1), (go cs).2)

/-- The Go name of a decoded value's dynamic type, as a failed type assertion prints it. -/
def Kind.goName : Kind → String
  | .nil => "nil"
  | .bool => "bool"
  | .float64 => "float64"
  | .string => "string"
  | .slice => "[]interface \x7b\x7d"
  | .map => "map[string]interface \x7b\x7d"

/-- The panic of a failed type assertion `v.(map[string]interface{})`. -/
def notAMap (v : Value) : Failure :=
  .panic ("interface conversion: interface \x7b\x7d is " ++ v.kind.goName ++
    ", not map[string]interface \x7b\x7d")

/-! ## `sliceElementType` -/

/-- `sliceElementType(slices...)`: the one kind of all the elements. The first element fixes it;
a `null` first element makes `prevType.Kind()` dereference a nil `reflect.Type`. -/
def sliceElementType (slices : List (List Value)) : Except Failure Kind :=
  go none slices.flatten
where
  go : Option Kind → List Value → Except Failure Kind
    | none, [] => .error (.error "no elements in any of the given slices")
    | some t, [] => .ok t
    | none, v :: vs =>
      if v.kind = .nil then
        .error (.panic "runtime error: invalid memory address or nil pointer dereference")
      else if v.kind = .slice then .error .noListOfLists
      else go (some v.kind) vs
    | some t, v :: vs =>
      if t ≠ v.kind then
        .error (.error ("list element types are not identical: " ++
          fmtV (.array (slices.map .array))))
      else go (some t) vs

/-- Once the first element has fixed the kind, a mismatch is an error, never a panic. -/
theorem sliceElementType_go_some_ne_panic (slices : List (List Value)) (t : Kind)
    (vs : List Value) (msg : String) :
    sliceElementType.go slices (some t) vs ≠ .error (.panic msg) := by
  induction vs with
  | nil => simp [sliceElementType.go]
  | cons v vs ih =>
    simp only [sliceElementType.go]
    split_ifs
    · simp
    · exact ih

/-- `sliceElementType` panics exactly when the first element of its slices is `null`. -/
theorem sliceElementType_panics_iff (slices : List (List Value)) :
    (∃ msg, sliceElementType slices = .error (.panic msg)) ↔ slices.flatten.head? = some .null := by
  unfold sliceElementType
  cases slices.flatten with
  | nil => simp [sliceElementType.go]
  | cons v vs =>
    by_cases hv : v = .null
    · subst hv; simp [sliceElementType.go, kind]
    · have hk : v.kind ≠ .nil := fun e => hv (kind_eq_nil_iff.mp e)
      simp only [sliceElementType.go, hk, if_false, List.head?_cons, Option.some.injEq, hv,
        iff_false, not_exists]
      intro msg
      split_ifs
      · simp
      · exact sliceElementType_go_some_ne_panic _ _ _ _

/-! ## Scalars -/

/-- The order of `SortableSliceOfScalars.Less`: `sort.StringsAreSorted` of the two `%v`
strings. -/
def fmtLE (a b : Value) : Bool := !strLess b.fmtV a.fmtV

/-- The inner loop of Go's `insertionSort`: the new element, at `j`, swapped with the one at
`j-1` while `Less(j, j-1)`. `before` holds the elements before it, the nearest first. -/
def insertLeft {α : Type} (less : α → α → Bool) (x : α) : List α → List α
  | [] => [x]
  | y :: before => if less x y then y :: insertLeft less x before else x :: y :: before

/-- `insertionSort(data, 0, n)` of Go's `sort` package: for `i` from `1`, the element at `i` moved
left by the inner loop. The sorted prefix is kept the nearest element first. -/
def goInsertionSort {α : Type} (less : α → α → Bool) (s : List α) : List α :=
  (s.foldl (fun before x => insertLeft less x before) []).reverse

/-- `sortScalars(s)`: `sort.Sort` with `SortableSliceOfScalars.Less`. -/
def sortScalars (s : List Value) : List Value := goInsertionSort fmtLE s

/-- The inner loop of `uniqifyScalars`: `j` runs up to `length`; an element equal to `s[i]` at
`j` is overwritten by `s[length]` and the slice cut to `s[0:length]`. `fuel` is `length + 1 - j`,
which every iteration lowers by one. -/
def uniqifyInner (i : Nat) : Nat → List Value → Nat → Nat → Except Failure (List Value × Nat)
  | 0, s, length, _ => .ok (s, length)
  | fuel + 1, s, length, j =>
    if j ≤ length then do
      if ← goEq (s.getD i .null) (s.getD j .null) then
        uniqifyInner i fuel ((s.set j (s.getD length .null)).take length) (length - 1) j
      else uniqifyInner i fuel s length (j + 1)
    else .ok (s, length)

/-- The outer loop of `uniqifyScalars`, for `i` up to `length`. -/
def uniqifyOuter : Nat → List Value → Nat → Nat → Except Failure (List Value)
  | 0, s, _, _ => .ok s
  | fuel + 1, s, length, i =>
    if i < length then do
      let (s, length) ← uniqifyInner i (length - i) s length (i + 1)
      uniqifyOuter fuel s length (i + 1)
    else .ok s

/-- `uniqifyScalars(s)`, with `length = len(s) - 1`. -/
def uniqifyScalars (s : List Value) : Except Failure (List Value) :=
  uniqifyOuter s.length s (s.length - 1) 0

def uniqifyAndSortScalars (s : List Value) : Except Failure (List Value) := do
  let s ← uniqifyScalars s
  pure (sortScalars s)

/-- The loop of `deleteFromSlice` over the sorted `currentScalars` and `toDeleteScalars`; it
keeps what is not deleted in `mergedList`. `fuel` bounds the iterations. -/
def deleteFromSliceLoop (currentScalars toDeleteScalars : List Value) :
    Nat → Nat → Nat → List Value → List Value
  | 0, currentIndex, _, mergedList => mergedList ++ currentScalars.drop currentIndex
  | fuel + 1, currentIndex, toDeleteIndex, mergedList =>
    if currentIndex < currentScalars.length ∧ toDeleteIndex < toDeleteScalars.length then
      let originalString := (currentScalars.getD currentIndex .null).fmtV
      let modifiedString := (toDeleteScalars.getD toDeleteIndex .null).fmtV
      if originalString = modifiedString then
        deleteFromSliceLoop currentScalars toDeleteScalars fuel (currentIndex + 1) toDeleteIndex
          mergedList
      else if strLess modifiedString originalString then
        deleteFromSliceLoop currentScalars toDeleteScalars fuel currentIndex (toDeleteIndex + 1)
          mergedList
      else
        deleteFromSliceLoop currentScalars toDeleteScalars fuel (currentIndex + 1) toDeleteIndex
          (mergedList ++ [currentScalars.getD currentIndex .null])
    else mergedList ++ currentScalars.drop currentIndex

/-- `deleteFromSlice(current, toDelete)`: the parallel deletion list applied to a list of
scalars. -/
def deleteFromSlice (current toDelete : List Value) : Except Failure (List Value) := do
  let currentScalars ← uniqifyAndSortScalars current
  let toDeleteScalars ← uniqifyAndSortScalars toDelete
  pure (deleteFromSliceLoop currentScalars toDeleteScalars
    (currentScalars.length + toDeleteScalars.length) 0 0 [])

/-! ## Lists of maps -/

/-- `findMapInSliceBasedOnKeyValue(m, key, value)`: the first map whose `key` is `== value`, with
its index. -/
def findMapInSliceBasedOnKeyValue (m : List Value) (key : String) (value : Value) :
    Except Failure (Option (JSONMap × Nat)) :=
  go 0 m
where
  go : Nat → List Value → Except Failure (Option (JSONMap × Nat))
    | _, [] => .ok none
    | k, .object typedV :: vs =>
      match JSONMap.get? typedV key with
      | some valueToMatch => do
        if ← goEq valueToMatch value then pure (some (typedV, k)) else go (k + 1) vs
      | none => go (k + 1) vs
    | k, _ :: _ => .error (.error ("value for key " ++ toString k ++ " is not a map."))

/-- Go's `==` against a scalar or `nil` never panics. -/
theorem goEq_ok_of_scalar (a : Value) {b : Value} (hb : b.kind ≠ .slice ∧ b.kind ≠ .map) :
    ∃ r, goEq a b = .ok r := by
  cases a <;> cases b <;> simp_all [goEq, kind]

/-- Looking up a scalar (or `null`) merge-key value never panics: only two maps or two slices
are uncomparable. -/
theorem findMapInSliceBasedOnKeyValue_ne_panic (m : List Value) (key : String) {value : Value}
    (hv : value.kind ≠ .slice ∧ value.kind ≠ .map) (msg : String) :
    findMapInSliceBasedOnKeyValue m key value ≠ .error (.panic msg) := by
  unfold findMapInSliceBasedOnKeyValue
  generalize 0 = k
  induction m generalizing k with
  | nil => simp [findMapInSliceBasedOnKeyValue.go]
  | cons v vs ih =>
    cases v with
    | object typedV =>
      simp only [findMapInSliceBasedOnKeyValue.go]
      split
      · rename_i valueToMatch _
        obtain ⟨r, hr⟩ := goEq_ok_of_scalar valueToMatch hv
        rw [hr]
        cases r <;> simp [bind, Except.bind, pure, Except.pure, ih]
      · exact ih _
    | _ => simp [findMapInSliceBasedOnKeyValue.go]

/-- `mapSliceFromSlice`: the type assertion of every element to a map. -/
def mapSliceFromSlice : List Value → Except Failure (List JSONMap)
  | [] => .ok []
  | .object vt :: vs => (vt :: ·) <$> mapSliceFromSlice vs
  | v :: _ => .error (notAMap v)

/-- The `%v` string of a map's field, `<nil>` when it is absent. -/
def fieldFmt (fieldName : String) (m : JSONMap) : String :=
  ((JSONMap.get? m fieldName).getD .null).fmtV

/-- `sortMapsBasedOnField(m, fieldName)`. -/
def sortMapsBasedOnField (m : List Value) (fieldName : String) : Except Failure (List Value) := do
  let mapM ← mapSliceFromSlice m
  let sorted := goInsertionSort (fun a b => !strLess (fieldFmt fieldName b) (fieldFmt fieldName a))
    mapM
  pure (sorted.map .object)

/-! ## The normal form of merge lists -/

section NormalForm

variable {τ : Type} (S : Schema τ)

mutual

/-- `sortMergeListsByNameMap(s, t)`: every merge list of `s`, at any depth, sorted by its merge
key, and every parallel deletion list uniqified and sorted. -/
def sortMergeListsByNameMap : Nat → JSONMap → τ → Except Failure JSONMap
  | 0, _, _ => .error .exhausted
  | fuel + 1, s, t => sortMergeListsByNameFields fuel t s []

/-- The loop of `sortMergeListsByNameMap` over the fields of `s`, building `newS`. -/
def sortMergeListsByNameFields : Nat → τ → JSONMap → JSONMap → Except Failure JSONMap
  | 0, _, _, _ => .error .exhausted
  | _ + 1, _, [], newS => .ok newS
  | fuel + 1, t, (k, v) :: rest, newS => do
    let v ← if hasPrefix k deleteFromPrimitiveListDirectivePrefix then
        match v with
        | .array typedV => .array <$> uniqifyAndSortScalars typedV
        | _ => .error .badPatchFormatForPrimitiveList
      else if k ≠ directiveMarker then do
        let (fieldType, fieldPatchStrategy, fieldPatchMergeKey) ←
          (S.lookupPatchMetadata t k).mapError Failure.lookup
        match v with
        | .object typedV => .object <$> sortMergeListsByNameMap fuel typedV fieldType
        | .array typedV =>
          if fieldPatchStrategy = mergeDirective then
            .array <$> sortMergeListsByNameArray fuel typedV (S.elem fieldType)
              fieldPatchMergeKey true
          else pure v
        | _ => pure v
      else pure v
    sortMergeListsByNameFields fuel t rest (JSONMap.insert newS k v)

/-- `sortMergeListsByNameArray(s, elemType, mergeKey, recurse)`. -/
def sortMergeListsByNameArray :
    Nat → List Value → τ → String → Bool → Except Failure (List Value)
  | 0, _, _, _, _ => .error .exhausted
  | fuel + 1, s, elemType, mergeKey, recurse =>
    if s.length = 0 then .ok s else do
      let t ← sliceElementType [s]
      if t ≠ .map then uniqifyAndSortScalars s else do
        let newS ← if recurse then sortMergeListsByNameElems fuel elemType s else pure s
        sortMapsBasedOnField newS mergeKey

/-- The loop of `sortMergeListsByNameArray` that normalises every element. -/
def sortMergeListsByNameElems : Nat → τ → List Value → Except Failure (List Value)
  | 0, _, _ => .error .exhausted
  | _ + 1, _, [] => .ok []
  | fuel + 1, elemType, elem :: rest => do
    let newElem ← match elem with
      | .object typedElem => sortMergeListsByNameMap fuel typedElem elemType
      | _ => .error (notAMap elem)
    let newRest ← sortMergeListsByNameElems fuel elemType rest
    pure (.object newElem :: newRest)

end

/-- `sortMergeListsByNameMap` of a decoded document, with the recursion bound its size gives. -/
def sortMergeListsByName (s : JSONMap) (t : τ) : Except Failure JSONMap :=
  sortMergeListsByNameMap S (2 * size (.object s) + 1) s t

end NormalForm

end ClientGo.Strategicpatch
