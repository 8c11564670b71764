import ClientGo.Strategicpatch.Flat

/-!
# The laws of the patch engine on flat documents

On flat documents (`Flat`) the engine keeps the promises its callers rely on:

* the two-way patch applied to `original` gives `modified` (`twoWay_roundTrip_flat`);
* a flat patch applied twice gives what it gives once (`StrategicMergeMapPatch_idempotent_flat`);
* the three-way patch applied to `current` gives every key of `modified` with its value, drops
  the keys `modified` deleted, and keeps the other keys of `current` (`threeWay_merge_flat`);
* with `overwrite` false, a patch that passes the conflict check leaves every key `current`
  changed from `original` as `current` has it (`threeWay_keeps_drift_flat`).

Each is stated key by key through `get?`, which is how a Go map is observed. Where they fail, it
is below the top level: in nested maps and in lists.
-/

namespace ClientGo.Strategicpatch

open Value JSONMap

variable {τ : Type} (S : Schema τ)

/-- **Round trip.** For flat documents `a` and `b`, and a type whose metadata lookup succeeds for
the keys of `a`, the patch from `a` to `b` applies to `a` and gives `b`. -/
theorem twoWay_roundTrip_flat (a b : JSONMap) (t : τ) (ha : Flat a) (hb : Flat b)
    (hlook : ∀ k ∈ keys a, ∃ r, S.lookupPatchMetadata t k = .ok r) :
    ∃ patch r, CreateTwoWayMergeMapPatch S a b t [] = .ok patch ∧
      StrategicMergeMapPatch S a patch t = .ok r ∧ ∀ k, get? r k = get? b k := by
  have hp := FlatPatch.twoWayPatch ha hb
  refine ⟨_, _, CreateTwoWayMergeMapPatch_flat S ha hb t,
    StrategicMergeMapPatch_flat S a hp t fun k _ hs => hlook k (mem_keys_of_isSome hs),
    fun k => ?_⟩
  rw [get?_foldl_mergeStep hp.nodup ha.nodup]
  exact mergeEntry_twoWayPatch ha hb k

/-- `{"a": 1, "b": "x"}` to `{"a": 2, "c": true}`: a change, a deletion and an addition. -/
theorem twoWay_roundTrip_flat_change_delete_add :
    ∃ patch r, CreateTwoWayMergeMapPatch (uniformSchema "" "")
        [("a", .number 1), ("b", .string "x")] [("a", .number 2), ("c", .bool true)] () [] =
          .ok patch ∧
      StrategicMergeMapPatch (uniformSchema "" "") [("a", .number 1), ("b", .string "x")] patch () =
        .ok r ∧ ∀ k, get? r k = get? [("a", .number 2), ("c", .bool true)] k :=
  twoWay_roundTrip_flat (uniformSchema "" "") _ _ () ⟨⟨by decide, by decide, by decide⟩, by decide⟩
    ⟨⟨by decide, by decide, by decide⟩, by decide⟩ fun _ _ => ⟨_, rfl⟩

/-- **Idempotence.** A flat patch applied twice gives what it gives once, whatever the document
it is applied to. -/
theorem StrategicMergeMapPatch_idempotent_flat (original patch : JSONMap) (t : τ)
    (ho : (keys original).Nodup) (hp : FlatPatch patch)
    (hlook : ∀ k ∈ keys patch, ∃ r, S.lookupPatchMetadata t k = .ok r) :
    ∃ r r', StrategicMergeMapPatch S original patch t = .ok r ∧
      StrategicMergeMapPatch S r patch t = .ok r' ∧ ∀ k, get? r' k = get? r k := by
  refine ⟨_, _, StrategicMergeMapPatch_flat S original hp t fun k hk _ => hlook k hk,
    StrategicMergeMapPatch_flat S _ hp t fun k hk _ => hlook k hk, fun k => ?_⟩
  rw [get?_foldl_mergeStep hp.nodup (nodup_foldl_mergeStep _ ho), get?_foldl_mergeStep hp.nodup ho,
    mergeEntry_mergeEntry]

/-- The patch `{"a": 2, "b": null}` applied twice to `{"b": 1, "c": 3}`. -/
theorem StrategicMergeMapPatch_idempotent_flat_with_null :
    ∃ r r', StrategicMergeMapPatch (uniformSchema "" "") [("b", .number 1), ("c", .number 3)]
        [("a", .number 2), ("b", .null)] () = .ok r ∧
      StrategicMergeMapPatch (uniformSchema "" "") r [("a", .number 2), ("b", .null)] () = .ok r' ∧
      ∀ k, get? r' k = get? r k :=
  StrategicMergeMapPatch_idempotent_flat (uniformSchema "" "") _ _ () (by decide)
    ⟨⟨by decide, by decide, by decide⟩, fun kv hkv => by
      simp only [List.mem_cons, List.mem_nil_iff, or_false] at hkv
      rcases hkv with rfl | rfl
      · exact .inl rfl
      · exact .inr rfl⟩ fun _ _ => ⟨_, rfl⟩

/-- **Three-way merge.** For flat documents, and a type whose metadata lookup succeeds for the
keys of `current`, the three-way patch applied to `current` gives the value of `modified` at
each of its keys, no value at a key `original` has and `modified` lacks, and the value of
`current` at every other key. -/
theorem threeWay_merge_flat (original modified current : JSONMap) (t : τ) (ho : Flat original)
    (hm : Flat modified) (hc : Flat current)
    (hlook : ∀ k ∈ keys current, ∃ r, S.lookupPatchMetadata t k = .ok r) :
    ∃ patch r, CreateThreeWayMergePatch S original modified current t true [] = .ok patch ∧
      StrategicMergeMapPatch S current patch t = .ok r ∧
      ∀ k, get? r k =
        match get? modified k with
        | some v => some v
        | none => if k ∈ keys original then none else get? current k := by
  have hp : FlatPatch (threeWayPatch original modified current) := FlatPatch.threeWayPatch ho hm
  refine ⟨_, _, CreateThreeWayMergePatch_flat S ho hm hc t,
    StrategicMergeMapPatch_flat S current hp t fun k _ hs => hlook k (mem_keys_of_isSome hs),
    fun k => ?_⟩
  rw [get?_foldl_mergeStep hp.nodup hc.nodup, get?_threeWayPatch hm]
  cases hmk : get? modified k with
  | none => by_cases hk : k ∈ keys original <;> simp [hk, mergeEntry]
  | some v =>
    have hv := ne_null_of_isScalar (hm.scalar _ (mem_of_get? hmk))
    cases hck : get? current k with
    | none => exact mergeEntry_some hv _
    | some cv =>
      dsimp only
      split_ifs with he
      · exact congrArg some ((deepEqual_iff_of_isScalar (hc.scalar _ (mem_of_get? hck))).mp he)
      · exact mergeEntry_some hv _

/-- `original = {"a": 1, "b": 1}`, `modified = {"a": 2}` and `current = {"b": 1, "c": 5}`:
`a` takes `modified`'s value, `b` is deleted, `c` stays. -/
theorem threeWay_merge_flat_three_keys :
    ∃ patch r, CreateThreeWayMergePatch (uniformSchema "" "") [("a", .number 1), ("b", .number 1)]
        [("a", .number 2)] [("b", .number 1), ("c", .number 5)] () true [] = .ok patch ∧
      StrategicMergeMapPatch (uniformSchema "" "") [("b", .number 1), ("c", .number 5)] patch () =
        .ok r ∧
      ∀ k, get? r k =
        match get? [("a", .number 2)] k with
        | some v => some v
        | none => if k ∈ keys [("a", .number 1), ("b", .number 1)] then none
          else get? [("b", .number 1), ("c", .number 5)] k :=
  threeWay_merge_flat (uniformSchema "" "") _ _ _ () ⟨⟨by decide, by decide, by decide⟩, by decide⟩
    ⟨⟨by decide, by decide, by decide⟩, by decide⟩ ⟨⟨by decide, by decide, by decide⟩, by decide⟩
    fun _ _ => ⟨_, rfl⟩

/-- **No silent overwrite.** For flat documents, a patch that `CreateThreeWayMergePatch` returns
with `overwrite` false leaves every key where `current` differs from `original` as `current`
has it. -/
theorem threeWay_keeps_drift_flat (original modified current : JSONMap) (t : τ)
    (ho : Flat original) (hm : Flat modified) (hc : Flat current)
    (hlook : ∀ k ∈ keys current, ∃ r, S.lookupPatchMetadata t k = .ok r) (patch : JSONMap)
    (h : CreateThreeWayMergePatch S original modified current t false [] = .ok patch) :
    ∃ r, StrategicMergeMapPatch S current patch t = .ok r ∧
      ∀ k, get? current k ≠ get? original k → get? r k = get? current k := by
  obtain ⟨h1, changedMap, hchanged, hconf⟩ :=
    CreateThreeWayMergePatch_checked S original modified current t [] patch h
  rw [CreateThreeWayMergePatch_flat S ho hm hc t, Except.ok.injEq] at h1
  subst h1
  rw [diffMaps_flat S ho hc t false false _ (by have := length_lt_size current; omega),
    Except.ok.injEq] at hchanged
  have hchanged : twoWayPatch original current = changedMap := hchanged
  subst hchanged
  have hch := FlatPatch.twoWayPatch ho hc
  have hp : FlatPatch (threeWayPatch original modified current) := FlatPatch.threeWayPatch ho hm
  -- the check compared the two patches key by key and found them equal where both are set
  simp only [MergingMapsHaveConflicts, mergingMapFieldsHaveConflicts, hp.get?_directiveMarker,
    hch.get?_directiveMarker, replaceDirective] at hconf
  have hsame := mapsHaveConflicts_flat S hp (by simpa using hconf)
  refine ⟨_, StrategicMergeMapPatch_flat S current hp t
    fun k _ hs => hlook k (mem_keys_of_isSome hs), fun k hd => ?_⟩
  rw [get?_foldl_mergeStep hp.nodup hc.nodup]
  cases hpk : get? (threeWayPatch original modified current) k with
  | none => rfl
  | some pv =>
    have hpv := hp.value _ (mem_of_get? hpk)
    have hchk := (get?_twoWayPatch hc.nodup k : get? (twoWayPatch original current) k = _)
    cases hck : get? current k with
    | some cv =>
      -- the changes set `k` to `current`'s value, and the patch agrees with them
      have : get? (twoWayPatch original current) k = some cv := by
        rw [hchk, hck]
        cases hok : get? original k with
        | none => rfl
        | some ov =>
          rw [hck, hok] at hd
          have : ov.deepEqual cv = false := Bool.eq_false_iff.mpr fun he =>
            hd (congrArg some ((deepEqual_iff_of_isScalar (ho.scalar _ (mem_of_get? hok))).mp he)).symm
          simp [this]
      have := eq_of_deepEqual hpv (hsame _ (mem_of_get? hpk) cv this)
      subst this
      exact mergeEntry_some (ne_null_of_isScalar (hc.scalar _ (mem_of_get? hck))) _
    | none =>
      -- the changes delete `k`, and the patch deletes it too
      have : get? (twoWayPatch original current) k = some .null := by
        rw [hchk, hck]
        cases hok : get? original k with
        | none => rw [hck, hok] at hd; exact absurd rfl hd
        | some ov => rfl
      have := eq_of_deepEqual hpv (hsame _ (mem_of_get? hpk) _ this)
      subst this
      rfl

/-- `original = {"a": 1}`, `modified = {"a": 2}` and `current = {"a": 1, "c": 5}`: the check
passes and the key `c` that `current` added stays. -/
theorem threeWay_keeps_drift_flat_added_key :
    ∃ r, StrategicMergeMapPatch (uniformSchema "" "") [("a", .number 1), ("c", .number 5)]
        [("a", .number 2)] () = .ok r ∧
      ∀ k, get? [("a", .number 1), ("c", .number 5)] k ≠ get? [("a", .number 1)] k →
        get? r k = get? [("a", .number 1), ("c", .number 5)] k :=
  threeWay_keeps_drift_flat (uniformSchema "" "") [("a", .number 1)] [("a", .number 2)] _ ()
    ⟨⟨by decide, by decide, by decide⟩, by decide⟩ ⟨⟨by decide, by decide, by decide⟩, by decide⟩
    ⟨⟨by decide, by decide, by decide⟩, by decide⟩ (fun _ _ => ⟨_, rfl⟩) _ rfl

end ClientGo.Strategicpatch
