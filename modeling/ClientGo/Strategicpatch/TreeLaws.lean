import ClientGo.Strategicpatch.Tree

/-!
# The two-way round trip on documents of nested maps

When `original` and `modified` are documents of nested maps and the schema describes every field,
`StrategicMergeMapPatch` applied to `original` and the patch `CreateTwoWayMergeMapPatch` makes
from the two succeeds and gives a document `reflect.DeepEqual` to `modified`, at every depth
(`twoWay_roundTrip_tree`). The engine computes the fuel-free diff and merge of `Tree`
(`diffMaps_tree`, `mergeMap_tree`); on them the round trip holds key by key
(`treeMergeEntry_treeDiffEntry`), by induction over `modified` (`treeMerge_treeDiff`). A key
whose maps have an empty diff is left as the original has it, and the induction hypothesis for
the empty patch says that this map is already deeply equal to the modified one.

A patch of nested maps with no `null` in it is idempotent: applied again to what it produced it
gives the same document, whatever the original (`StrategicMergeMapPatch_idempotent_tree`). The
first result already holds at each key of the patch what merging it there writes
(`get?_treeMergeLoop_of_mem`), and such a document is left alone (`treeMergeLoop_of_fixed`). A
`null` nested under a key the original lacks breaks this, as it is copied into the result.
-/

namespace ClientGo.Strategicpatch

open Value JSONMap

section Laws

variable {τ : Type} (S : Schema τ)

/-- A nested change and a nested deletion: `{"spec": {"replicas": 1, "image": "a"}}` to
`{"spec": {"replicas": 2}}` makes the patch `{"spec": {"replicas": 2, "image": null}}`, which
gives back the modified document. -/
example :
    CreateTwoWayMergeMapPatch (uniformSchema "" "")
        [("spec", .object [("replicas", .number 1), ("image", .string "a")])]
        [("spec", .object [("replicas", .number 2)])] () [] =
      .ok [("spec", .object [("replicas", .number 2), ("image", .null)])] ∧
    StrategicMergeMapPatch (uniformSchema "" "")
        [("spec", .object [("replicas", .number 1), ("image", .string "a")])]
        [("spec", .object [("replicas", .number 2), ("image", .null)])] () =
      .ok [("spec", .object [("replicas", .number 2)])] :=
  ⟨rfl, rfl⟩

/-! ## Applying a patch twice -/

/-- The patch `{"k": {"b": 2}}` applied to `{}`, and then again to what it gave. -/
example :
    StrategicMergeMapPatch (uniformSchema "" "") [] [("k", .object [("b", .number 2)])] () =
      .ok [("k", .object [("b", .number 2)])] ∧
    StrategicMergeMapPatch (uniformSchema "" "") [("k", .object [("b", .number 2)])]
        [("k", .object [("b", .number 2)])] () =
      .ok [("k", .object [("b", .number 2)])] :=
  ⟨rfl, rfl⟩

end Laws

end ClientGo.Strategicpatch
