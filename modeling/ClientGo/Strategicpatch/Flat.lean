import ClientGo.Strategicpatch.Conflicts

/-!
# The engine on flat documents

A flat document has distinct keys, as a Go map has, scalar values, and no key of the patch
syntax (`Flat`); a flat patch may also hold `null`s (`FlatPatch`). On such documents every loop
of the engine is a fold over the keys it walks:

* the loop of `diffMaps` puts a key of `modified` in the patch unless changes are ignored or
  `original` has a value `reflect.DeepEqual` to it (`diffMapsLoop_flat`), and `addDeletions`
  sets the keys `modified` lacks to `null`;
* the loop of `mergeMap` writes each value of the patch and deletes each `null`
  (`mergeMapLoop_flat`);
* the loop of `mapsHaveConflicts` finds a conflict at a key both patches set to values that are
  not `reflect.DeepEqual` (`mapsHaveConflicts_flat`).

So the two-way and three-way patches are `twoWayPatch` and `threeWayPatch`, flat patches again,
and each is described key by key (`get?_twoWayPatch`, `get?_threeWayPatch`). The laws these give
are in `FlatLaws`.
-/

namespace ClientGo.Strategicpatch

open Value JSONMap

namespace Value

/-- A value with nothing inside it that is not `null`: a boolean, a number or a string. -/
def isScalar : Value → Bool
  | .bool _ | .number _ | .string _ => true
  | _ => false

theorem deepEqual_iff_of_isScalar {x y : Value} (hx : x.isScalar) :
    x.deepEqual y = true ↔ x = y := by
  cases x <;> simp only [isScalar, Bool.false_eq_true] at hx <;> cases y <;>
    first
    | exact ⟨fun h => absurd h Bool.false_ne_true, fun h => Value.noConfusion h⟩
    | (show (_ == _) = true ↔ _; simp)

theorem ne_null_of_isScalar {x : Value} (hx : x.isScalar) : x ≠ .null := by
  rintro rfl; cases hx

/-- On a scalar or `null`, `reflect.DeepEqual` is equality. -/
theorem eq_of_deepEqual {x y : Value} (hx : x.isScalar ∨ x = .null) (h : x.deepEqual y = true) :
    x = y := by
  rcases hx with hx | rfl
  · exact (deepEqual_iff_of_isScalar hx).mp h
  · cases y <;> first | rfl | cases h

end Value

/-! ## Flat documents and patches -/

/-- Keys as a Go map has them, none of them a key of the patch syntax. -/
structure FlatKeys (m : JSONMap) : Prop where
  nodup : (keys m).Nodup
  not_directive : ∀ kv ∈ m, kv.1 ≠ directiveMarker
  not_deleteList : ∀ kv ∈ m, hasPrefix kv.1 deleteFromPrimitiveListDirectivePrefix = false

/-- A flat document: its values are scalars. -/
structure Flat (m : JSONMap) extends FlatKeys m : Prop where
  scalar : ∀ kv ∈ m, kv.2.isScalar

/-- A flat patch: its values are scalars or `null`. -/
structure FlatPatch (m : JSONMap) extends FlatKeys m : Prop where
  value : ∀ kv ∈ m, kv.2.isScalar ∨ kv.2 = .null

instance (m : JSONMap) : Decidable (FlatKeys m) :=
  decidable_of_iff ((keys m).Nodup ∧ (∀ kv ∈ m, kv.1 ≠ directiveMarker) ∧
      ∀ kv ∈ m, hasPrefix kv.1 deleteFromPrimitiveListDirectivePrefix = false)
    ⟨fun ⟨a, b, c⟩ => ⟨a, b, c⟩, fun ⟨a, b, c⟩ => ⟨a, b, c⟩⟩

instance (m : JSONMap) : Decidable (Flat m) :=
  decidable_of_iff (FlatKeys m ∧ ∀ kv ∈ m, kv.2.isScalar)
    ⟨fun ⟨a, b⟩ => ⟨a, b⟩, fun ⟨a, b⟩ => ⟨a, b⟩⟩

theorem Flat.flatPatch {m : JSONMap} (h : Flat m) : FlatPatch m :=
  ⟨h.toFlatKeys, fun kv hkv => .inl (h.scalar kv hkv)⟩

/-- A key of flat keys is no key of the patch syntax. -/
theorem FlatKeys.key {m : JSONMap} (h : FlatKeys m) {k : String} (hk : k ∈ keys m) :
    k ≠ directiveMarker ∧ hasPrefix k deleteFromPrimitiveListDirectivePrefix = false := by
  obtain ⟨kv, hkv, rfl⟩ := List.mem_map.mp hk
  exact ⟨h.not_directive kv hkv, h.not_deleteList kv hkv⟩

theorem FlatKeys.get?_directiveMarker {m : JSONMap} (h : FlatKeys m) :
    get? m directiveMarker = none :=
  get?_eq_none fun hk => (h.key hk).1 rfl

/-- A list of distinct keys whose entries come from flat patches is a flat patch. -/
theorem FlatPatch.of_mem {m : JSONMap} (hm : (keys m).Nodup) {P : (String × Value) → Prop}
    (hP : ∀ kv, P kv → kv.1 ≠ directiveMarker ∧
      hasPrefix kv.1 deleteFromPrimitiveListDirectivePrefix = false ∧
      (kv.2.isScalar ∨ kv.2 = .null)) (h : ∀ kv ∈ m, P kv) : FlatPatch m :=
  ⟨⟨hm, fun kv hkv => (hP kv (h kv hkv)).1, fun kv hkv => (hP kv (h kv hkv)).2.1⟩,
    fun kv hkv => (hP kv (h kv hkv)).2.2⟩

theorem FlatPatch.entry {m : JSONMap} (h : FlatPatch m) {kv : String × Value} (hkv : kv ∈ m) :
    kv.1 ≠ directiveMarker ∧ hasPrefix kv.1 deleteFromPrimitiveListDirectivePrefix = false ∧
      (kv.2.isScalar ∨ kv.2 = .null) :=
  ⟨h.not_directive kv hkv, h.not_deleteList kv hkv, h.value kv hkv⟩

/-- The fuel the entry points give covers one iteration per key. -/
theorem length_lt_size (m : JSONMap) : m.length < size (.object m) := by
  suffices h : m.length ≤ size.sizeFields m by simp only [size]; omega
  induction m with
  | nil => simp
  | cons kv m ih =>
    obtain ⟨k, v⟩ := kv
    have : 1 ≤ size v := by cases v <;> simp [size]
    simp only [List.length_cons, size.sizeFields]; omega

/-! ## The diff -/

/-- One key of a flat `modified` in the loop of `diffMaps`: the patch takes the value unless
changes are ignored or `original` has one `reflect.DeepEqual` to it. -/
def diffStep (ignoreChangesAndAdditions : Bool) (original patch : JSONMap) :
    String × Value → JSONMap
  | (k, v) =>
    if ignoreChangesAndAdditions then patch
    else
      match get? original k with
      | some ov => if ov.deepEqual v then patch else insert patch k v
      | none => insert patch k v

theorem diffStep_eq (ignoreChangesAndAdditions : Bool) (original patch : JSONMap) (k : String)
    (v : Value) :
    diffStep ignoreChangesAndAdditions original patch (k, v) = patch ∨
      diffStep ignoreChangesAndAdditions original patch (k, v) = insert patch k v := by
  simp only [diffStep]; split_ifs <;> (try split) <;> (try split_ifs) <;> simp

@[simp] theorem foldl_diffStep_true (original rest patch : JSONMap) :
    rest.foldl (diffStep true original) patch = patch := by
  induction rest generalizing patch with
  | nil => rfl
  | cons kv rest ih => obtain ⟨k, v⟩ := kv; exact ih patch

theorem mem_foldl_diffStep {ignoreChangesAndAdditions : Bool} {original rest patch : JSONMap}
    {kv : String × Value} (h : kv ∈ rest.foldl (diffStep ignoreChangesAndAdditions original) patch) :
    kv ∈ patch ∨ kv ∈ rest := by
  induction rest generalizing patch with
  | nil => exact .inl h
  | cons e rest ih =>
    obtain ⟨k, v⟩ := e
    rcases ih h with h | h
    · rcases diffStep_eq ignoreChangesAndAdditions original patch k v with e | e <;> rw [e] at h
      · exact .inl h
      · exact (mem_insert h).imp id fun e : kv = (k, v) => e ▸ List.mem_cons_self _ _
    · exact .inr (List.mem_cons_of_mem _ h)

theorem nodup_foldl_diffStep (ignoreChangesAndAdditions : Bool) (original rest : JSONMap)
    {patch : JSONMap} (hp : (keys patch).Nodup) :
    (keys (rest.foldl (diffStep ignoreChangesAndAdditions original) patch)).Nodup := by
  induction rest generalizing patch with
  | nil => exact hp
  | cons e rest ih =>
    obtain ⟨k, v⟩ := e
    rcases diffStep_eq ignoreChangesAndAdditions original patch k v with e | e <;>
      rw [List.foldl_cons, e]
    · exact ih hp
    · exact ih (nodup_insert hp k v)

/-- The patch after the loop, key by key: the modified value when it is new or differs, and what
it held before otherwise. -/
theorem get?_foldl_diffStep (original : JSONMap) {modified : JSONMap}
    (hm : (keys modified).Nodup) (patch : JSONMap) (k : String) :
    get? (modified.foldl (diffStep false original) patch) k =
      match get? modified k, get? original k with
      | some v, some ov => if ov.deepEqual v then get? patch k else some v
      | some v, none => some v
      | none, _ => get? patch k := by
  induction modified generalizing patch with
  | nil => rfl
  | cons kv rest ih =>
    obtain ⟨k', v⟩ := kv
    simp only [keys, List.map_cons, List.nodup_cons] at hm
    rw [List.foldl_cons, ih hm.2, get?_cons]
    by_cases hk : k' = k
    · subst hk
      rw [get?_eq_none hm.1, if_pos rfl]
      simp only [diffStep, Bool.false_eq_true, if_false]
      cases get? original k' with
      | none => simp
      | some ov => dsimp only; split_ifs <;> simp
    · have hstep : get? (diffStep false original patch (k', v)) k = get? patch k := by
        rcases diffStep_eq false original patch k' v with e | e <;> rw [e]
        exact get?_insert_ne _ _ (Ne.symm hk)
      rw [if_neg hk]
      cases get? rest k <;> cases get? original k <;> simp only [hstep]

theorem get?_addDeletions (modified : JSONMap) (original patch : JSONMap) (k : String) :
    get? (addDeletions modified original patch) k =
      if k ∈ keys original ∧ (get? modified k).isNone then some .null else get? patch k := by
  induction original generalizing patch with
  | nil => simp [addDeletions, keys]
  | cons kv rest ih =>
    obtain ⟨k', v'⟩ := kv
    rw [addDeletions, ih]
    by_cases hk : k = k'
    · subst hk
      cases h : get? modified k <;> simp [keys, h, get?_insert]
    · have hp : get? (if (get? modified k').isSome then patch else insert patch k' .null) k =
          get? patch k := by
        split <;> simp [get?_insert, hk]
      simp only [keys, List.map_cons, List.mem_cons, hk, false_or, hp]

theorem mem_addDeletions {modified original patch : JSONMap} {kv : String × Value}
    (h : kv ∈ addDeletions modified original patch) :
    kv ∈ patch ∨ (kv.1 ∈ keys original ∧ kv.2 = .null) := by
  induction original generalizing patch with
  | nil => exact .inl h
  | cons e rest ih =>
    obtain ⟨k, v⟩ := e
    rcases ih h with h | ⟨hk, hn⟩
    · split at h
      · exact .inl h
      · rcases mem_insert h with h | rfl
        · exact .inl h
        · exact .inr ⟨List.mem_cons_self _ _, rfl⟩
    · exact .inr ⟨List.mem_cons_of_mem _ hk, hn⟩

theorem nodup_addDeletions (modified original : JSONMap) {patch : JSONMap}
    (hp : (keys patch).Nodup) : (keys (addDeletions modified original patch)).Nodup := by
  induction original generalizing patch with
  | nil => exact hp
  | cons e rest ih =>
    simp only [addDeletions]
    split
    · exact ih hp
    · exact ih (nodup_insert hp _ _)

theorem FlatPatch.foldl_diffStep {ignoreChangesAndAdditions : Bool} {original modified patch : JSONMap}
    (hp : FlatPatch patch) (hm : FlatPatch modified) :
    FlatPatch (modified.foldl (diffStep ignoreChangesAndAdditions original) patch) :=
  FlatPatch.of_mem (nodup_foldl_diffStep _ _ _ hp.nodup) (fun _ h => h.elim hp.entry hm.entry)
    fun _ h => mem_foldl_diffStep h

theorem FlatPatch.addDeletions {modified original patch : JSONMap} (hp : FlatPatch patch)
    (ho : FlatKeys original) : FlatPatch (addDeletions modified original patch) :=
  FlatPatch.of_mem (nodup_addDeletions _ _ hp.nodup)
    (fun _ h => h.elim hp.entry fun h => ⟨(ho.key h.1).1, (ho.key h.1).2, .inr h.2⟩)
    fun _ h => mem_addDeletions h

theorem FlatPatch.nil : FlatPatch [] :=
  ⟨⟨List.nodup_nil, fun _ h => (List.not_mem_nil _ h).elim,
    fun _ h => (List.not_mem_nil _ h).elim⟩, fun _ h => (List.not_mem_nil _ h).elim⟩

section Engine

variable {τ : Type} (S : Schema τ)

theorem diffMapsLoop_flat {original : JSONMap} (ho : ∀ kv ∈ original, kv.2.isScalar) (t : τ)
    (ignoreChangesAndAdditions ignoreDeletions : Bool) (rest : JSONMap)
    (hr : ∀ kv ∈ rest, kv.2.isScalar ∧ kv.1 ≠ directiveMarker) :
    ∀ fuel, rest.length < fuel → ∀ patch,
      diffMapsLoop S fuel original t ignoreChangesAndAdditions ignoreDeletions rest patch =
        .ok (rest.foldl (diffStep ignoreChangesAndAdditions original) patch) := by
  induction rest with
  | nil => intro fuel h patch; cases fuel with
    | zero => cases h
    | succ fuel => rfl
  | cons kv rest ih =>
    obtain ⟨k, v⟩ := kv
    intro fuel h patch
    cases fuel with
    | zero => cases h
    | succ fuel =>
    have ih := ih (fun kv hkv => hr kv (List.mem_cons_of_mem _ hkv)) fuel
      (by simp at h; omega)
    obtain ⟨hv, hk⟩ := hr (k, v) (List.mem_cons_self _ _)
    simp only [diffMapsLoop, List.foldl_cons, diffStep]
    cases hg : get? original k with
    | none => exact ih _
    | some ov =>
      have hov : ov.isScalar := ho _ (mem_of_get? hg)
      have hkind : ov.deepEqual v = true → ov.kind = v.kind := fun h => by
        rw [(deepEqual_iff_of_isScalar hov).mp h]
      simp only [if_neg hk]
      by_cases hk' : ov.kind = v.kind
      · rw [if_neg (not_not.mpr hk')]
        -- a scalar is neither a map nor a list: the code compares and writes
        split
        · simp [isScalar] at hov
        · simp [isScalar] at hov
        · rw [ih]; cases ignoreChangesAndAdditions <;> cases Value.deepEqual _ _ <;> rfl
      · rw [if_pos hk', ih, Bool.eq_false_iff.mpr (mt hkind hk')]
        cases ignoreChangesAndAdditions <;> rfl

/-- `diffMaps` of two flat documents. -/
theorem diffMaps_flat {original modified : JSONMap} (ho : Flat original) (hm : Flat modified)
    (t : τ) (ignoreChangesAndAdditions ignoreDeletions : Bool) (fuel : Nat)
    (hf : modified.length < fuel) :
    diffMaps S (fuel + 1) original modified t ignoreChangesAndAdditions ignoreDeletions =
      .ok (let patch := modified.foldl (diffStep ignoreChangesAndAdditions original) []
        if ignoreDeletions then patch else addDeletions modified original patch) := by
  simp only [diffMaps, diffMapsLoop_flat S ho.scalar t ignoreChangesAndAdditions ignoreDeletions
    modified (fun kv h => ⟨hm.scalar kv h, hm.not_directive kv h⟩) fuel hf []]
  rfl

/-! ## Applying a patch -/

end Engine

/-- One key of a flat patch in the loop of `mergeMap`: `null` deletes the key, any other value
is written. -/
def mergeStep (original : JSONMap) : String × Value → JSONMap
  | (k, v) =>
    match v with
    | .null => erase original k
    | _ => insert original k v

/-- What a patch's entry for a key leaves there: a `null` deletes the key, another value sets
it, and no entry keeps the original's. -/
def mergeEntry (patchEntry originalEntry : Option Value) : Option Value :=
  match patchEntry with
  | some .null => none
  | some v => some v
  | none => originalEntry

theorem mergeEntry_some {v : Value} (hv : v ≠ .null) (o : Option Value) :
    mergeEntry (some v) o = some v := by
  cases v <;> first | rfl | exact absurd rfl hv

/-- Writing an entry twice is writing it once. -/
theorem mergeEntry_mergeEntry (e o : Option Value) :
    mergeEntry e (mergeEntry e o) = mergeEntry e o := by
  cases e with
  | none => rfl
  | some v => cases v <;> rfl

theorem mergeStep_eq (original : JSONMap) (k : String) (v : Value) :
    mergeStep original (k, v) = erase original k ∨ mergeStep original (k, v) = insert original k v := by
  simp only [mergeStep]; split <;> simp

theorem mem_foldl_mergeStep {original patch : JSONMap} {kv : String × Value}
    (h : kv ∈ patch.foldl mergeStep original) : kv ∈ original ∨ kv ∈ patch := by
  induction patch generalizing original with
  | nil => exact .inl h
  | cons e rest ih =>
    obtain ⟨k, v⟩ := e
    rcases ih h with h | h
    · rcases mergeStep_eq original k v with e | e <;> rw [e] at h
      · exact .inl (mem_erase h)
      · exact (mem_insert h).imp id fun e : kv = (k, v) => e ▸ List.mem_cons_self _ _
    · exact .inr (List.mem_cons_of_mem _ h)

theorem nodup_foldl_mergeStep (patch : JSONMap) {original : JSONMap}
    (ho : (keys original).Nodup) : (keys (patch.foldl mergeStep original)).Nodup := by
  induction patch generalizing original with
  | nil => exact ho
  | cons e rest ih =>
    obtain ⟨k, v⟩ := e
    rcases mergeStep_eq original k v with e | e <;> rw [List.foldl_cons, e]
    · exact ih (ho.sublist ((erase_sublist _ _).map _))
    · exact ih (nodup_insert ho k v)

theorem FlatPatch.foldl_mergeStep {original patch : JSONMap} (ho : FlatPatch original)
    (hp : FlatPatch patch) : FlatPatch (patch.foldl mergeStep original) :=
  FlatPatch.of_mem (nodup_foldl_mergeStep _ ho.nodup) (fun _ h => h.elim ho.entry hp.entry)
    fun _ h => mem_foldl_mergeStep h

/-- The document after the loop, key by key. -/
theorem get?_foldl_mergeStep {patch : JSONMap} (hp : (keys patch).Nodup) {original : JSONMap}
    (ho : (keys original).Nodup) (k : String) :
    get? (patch.foldl mergeStep original) k = mergeEntry (get? patch k) (get? original k) := by
  induction patch generalizing original with
  | nil => rfl
  | cons kv rest ih =>
    obtain ⟨k', v⟩ := kv
    simp only [keys, List.map_cons, List.nodup_cons] at hp
    have ho' : (keys (mergeStep original (k', v))).Nodup :=
      nodup_foldl_mergeStep [(k', v)] ho
    rw [List.foldl_cons, ih hp.2 ho', get?_cons]
    by_cases hk : k' = k
    · subst hk
      rw [get?_eq_none hp.1, if_pos rfl]
      simp only [mergeStep]; split
      · exact get?_erase_self ho k'
      · rename_i hv
        rw [mergeEntry_some hv]; exact get?_insert_self _ _ _
    · have hstep : get? (mergeStep original (k', v)) k = get? original k := by
        rcases mergeStep_eq original k' v with e | e <;> rw [e]
        · exact get?_erase_ne _ (Ne.symm hk)
        · exact get?_insert_ne _ _ (Ne.symm hk)
      rw [if_neg hk, hstep]

section Engine

variable {τ : Type} (S : Schema τ)

theorem mergeMapLoop_flat (t : τ) (mergeDeleteList ignoreUnmatchedNulls : Bool) (patch : JSONMap)
    (hp : ∀ kv ∈ patch, (kv.2.isScalar ∨ (kv.2 = .null ∧ ignoreUnmatchedNulls = true)) ∧
      hasPrefix kv.1 deleteFromPrimitiveListDirectivePrefix = false)
    (hnodup : (keys patch).Nodup) :
    ∀ fuel, patch.length < fuel → ∀ original : JSONMap,
      (∀ k ∈ keys patch, (get? original k).isSome → ∃ r, S.lookupPatchMetadata t k = .ok r) →
      mergeMapLoop S fuel t mergeDeleteList ignoreUnmatchedNulls patch original =
        .ok (patch.foldl mergeStep original) := by
  induction patch with
  | nil => intro fuel h original _; cases fuel with
    | zero => cases h
    | succ fuel => rfl
  | cons kv rest ih =>
    obtain ⟨k, v⟩ := kv
    intro fuel h original hlook
    cases fuel with
    | zero => cases h
    | succ fuel =>
    simp only [keys, List.map_cons, List.nodup_cons] at hnodup
    obtain ⟨hv, hk⟩ := hp (k, v) (List.mem_cons_self _ _)
    have ih := ih (fun kv hkv => hp kv (List.mem_cons_of_mem _ hkv)) hnodup.2 fuel
      (by simp at h; omega)
    have hne : ∀ k' ∈ keys rest, k' ≠ k := fun k' hk' e => hnodup.1 (e ▸ hk')
    have hnext : ∀ o', (∀ k' ∈ keys rest, get? o' k' = get? original k') →
        mergeMapLoop S fuel t mergeDeleteList ignoreUnmatchedNulls rest o' =
          .ok (rest.foldl mergeStep o') := fun o' ho' =>
      ih o' fun k' hk' hs => hlook k' (List.mem_cons_of_mem _ hk') (ho' k' hk' ▸ hs)
    have hsplit : splitDeleteListKey k = .ok (k, false) := by simp [splitDeleteListKey, hk]
    simp only [mergeMapLoop, List.foldl_cons, hk, hsplit, Bool.false_eq_true, false_and, if_false,
      bind, Except.bind]
    rcases hv with hv | ⟨rfl, rfl⟩
    · -- a scalar is written, whatever the original holds
      have hins : ∀ v', mergeMapLoop S fuel t mergeDeleteList ignoreUnmatchedNulls rest
          (insert original k v') = .ok (rest.foldl mergeStep (insert original k v')) := fun v' =>
        hnext _ fun k' hk' => get?_insert_ne _ _ (hne k' hk')
      cases v <;> simp only [isScalar, Bool.false_eq_true] at hv <;>
        simp only [kind, reduceCtorEq, false_and, if_false] <;>
        cases hg : get? original k
      all_goals first
        | exact hins _
        | obtain ⟨r, hr⟩ := hlook k (List.mem_cons_self _ _) (by simp [hg])
          simp only [hr, Except.mapError]
          split_ifs <;> exact hins _
    · -- a null deletes the key
      exact hnext _ fun k' hk' => get?_erase_ne _ (hne k' hk')

/-- `mergeMap` of a patch with flat keys and scalar values; a `null` too when unmatched nulls are
ignored. -/
theorem mergeMap_flat (original : JSONMap) {patch : JSONMap} (hp : FlatKeys patch) (t : τ)
    (mergeDeleteList ignoreUnmatchedNulls : Bool)
    (hv : ∀ kv ∈ patch, kv.2.isScalar ∨ (kv.2 = .null ∧ ignoreUnmatchedNulls = true))
    (fuel : Nat) (hf : patch.length < fuel)
    (hlook : ∀ k ∈ keys patch, (get? original k).isSome → ∃ r, S.lookupPatchMetadata t k = .ok r) :
    mergeMap S (fuel + 1) original patch t mergeDeleteList ignoreUnmatchedNulls =
      .ok (patch.foldl mergeStep original) := by
  simp only [mergeMap, hp.get?_directiveMarker]
  exact mergeMapLoop_flat S t mergeDeleteList ignoreUnmatchedNulls patch
    (fun kv h => ⟨hv kv h, hp.not_deleteList kv h⟩) hp.nodup fuel hf original hlook

/-- `StrategicMergeMapPatch` of a flat patch, when the type describes its keys. -/
theorem StrategicMergeMapPatch_flat (original : JSONMap) {patch : JSONMap}
    (hp : FlatPatch patch) (t : τ)
    (hlook : ∀ k ∈ keys patch, (get? original k).isSome →
      ∃ r, S.lookupPatchMetadata t k = .ok r) :
    StrategicMergeMapPatch S original patch t = .ok (patch.foldl mergeStep original) :=
  mergeMap_flat S original hp.toFlatKeys t true true
    (fun kv h => (hp.value kv h).imp_right fun e => ⟨e, rfl⟩) _
    (by have := length_lt_size patch; omega) hlook

/-! ## Conflicts -/

/-- `mergingMapFieldsHaveConflicts` of a scalar or `null` on the left compares with
`reflect.DeepEqual`. -/
theorem mergingMapFieldsHaveConflicts_scalar {fuel : Nat} {left : Value}
    (hl : left.isScalar ∨ left = .null) (right : Value) (t : τ) (s k : String) :
    mergingMapFieldsHaveConflicts S (fuel + 1) left right t s k = .ok !(left.deepEqual right) := by
  rcases hl with hl | rfl
  · cases left <;> simp only [isScalar, Bool.false_eq_true] at hl <;> rfl
  · rfl

/-- No conflict between a flat patch and another map: at every key both have, their values
are `reflect.DeepEqual`. -/
theorem mapsHaveConflicts_flat {fuel : Nat} {left : JSONMap} (hl : FlatPatch left)
    {right : JSONMap} {t : τ} (h : mapsHaveConflicts S fuel left right t = .ok false) :
    ∀ kv ∈ left, ∀ rv, get? right kv.1 = some rv → kv.2.deepEqual rv = true := by
  induction left generalizing fuel with
  | nil => intro kv hkv; cases hkv
  | cons e rest ih =>
    obtain ⟨k, lv⟩ := e
    have hrest : FlatPatch rest :=
      FlatPatch.of_mem (List.nodup_cons.mp hl.nodup).2 (fun _ h => hl.entry h)
        fun _ h => List.mem_cons_of_mem _ h
    cases fuel with
    | zero => cases h
    | succ fuel =>
    simp only [mapsHaveConflicts, if_neg (hl.not_directive _ (List.mem_cons_self _ _))] at h
    have hnext : ∀ rv, get? right k = some rv → lv.deepEqual rv = true ∧
        mapsHaveConflicts S fuel rest right t = .ok false := fun rv hrv => by
      simp only [hrv, bind_eq_ok] at h
      obtain ⟨⟨ft, fs, fk⟩, -, c, hc, h⟩ := h
      cases fuel with
      | zero => cases hc
      | succ fuel =>
      rw [mergingMapFieldsHaveConflicts_scalar S (hl.value _ (List.mem_cons_self _ _))] at hc
      cases hc
      cases hd : lv.deepEqual rv
      · simp [hd, pure, Except.pure] at h
      · simp only [hd, Bool.not_true, Bool.false_eq_true, if_false] at h
        exact ⟨rfl, h⟩
    intro kv hkv rv hrv
    rcases List.mem_cons.mp hkv with rfl | hkv
    · exact (hnext rv hrv).1
    · cases hk : get? right k with
      | none => simp only [hk] at h; exact ih hrest h kv hkv rv hrv
      | some rv' => exact ih hrest (hnext rv' hk).2 kv hkv rv hrv

end Engine

/-! ## The two patches -/

/-- The patch `CreateTwoWayMergeMapPatch` computes from two flat documents: the changed and
added values of `modified`, and `null`s for the keys it lacks. -/
def twoWayPatch (original modified : JSONMap) : JSONMap :=
  addDeletions modified original (modified.foldl (diffStep false original) [])

/-- The patch `CreateThreeWayMergePatch` computes from three flat documents: the changes from
`current` to `modified`, without deletions, merged into the deletions from `original` to
`modified`. -/
def threeWayPatch (original modified current : JSONMap) : JSONMap :=
  (modified.foldl (diffStep false current) []).foldl mergeStep (addDeletions modified original [])

theorem FlatPatch.twoWayPatch {original modified : JSONMap} (ho : Flat original)
    (hm : Flat modified) : FlatPatch (twoWayPatch original modified) :=
  (FlatPatch.nil.foldl_diffStep hm.flatPatch).addDeletions ho.toFlatKeys

theorem FlatPatch.threeWayPatch {original modified current : JSONMap} (ho : Flat original)
    (hm : Flat modified) : FlatPatch (threeWayPatch original modified current) :=
  (FlatPatch.nil.addDeletions ho.toFlatKeys).foldl_mergeStep
    (FlatPatch.nil.foldl_diffStep hm.flatPatch)

/-- The two-way patch, key by key: a changed or added value, `null` for a removed key, nothing
for a key left alone. -/
theorem get?_twoWayPatch {original modified : JSONMap} (hm : (keys modified).Nodup) (k : String) :
    get? (twoWayPatch original modified) k =
      match get? modified k, get? original k with
      | some v, some ov => if ov.deepEqual v then none else some v
      | some v, none => some v
      | none, some _ => some .null
      | none, none => none := by
  rw [twoWayPatch, get?_addDeletions, get?_foldl_diffStep original hm]
  cases hmk : get? modified k with
  | some v => cases get? original k <;> simp
  | none =>
    cases hok : get? original k with
    | none => simp [get?_eq_none_iff.mp hok]
    | some ov =>
      have hk : k ∈ keys original := List.mem_map_of_mem Prod.fst (mem_of_get? hok)
      simp [hk]

/-- The two-way patch writes only keys of the two documents. -/
theorem mem_keys_twoWayPatch {original modified : JSONMap} (hm : (keys modified).Nodup)
    {k : String} (hk : k ∈ keys (twoWayPatch original modified)) :
    k ∈ keys original ∨ k ∈ keys modified := by
  by_contra h
  rw [not_or] at h
  have e := @get?_twoWayPatch original modified hm k
  rw [get?_eq_none h.1, get?_eq_none h.2] at e
  exact get?_eq_none_iff.mp e hk

/-- A flat patch with one more scalar under a key of flat keys is a flat patch. -/
theorem FlatPatch.insert {m : JSONMap} (hm : FlatPatch m) {k : String}
    (hk : k ≠ directiveMarker ∧ hasPrefix k deleteFromPrimitiveListDirectivePrefix = false)
    {v : Value} (hv : v.isScalar) : FlatPatch (insert m k v) :=
  FlatPatch.of_mem (nodup_insert hm.nodup k v) (fun kv (h : kv ∈ m ∨ kv = (k, v)) => by
    rcases h with h | rfl
    · exact hm.entry h
    · exact ⟨hk.1, hk.2, .inl hv⟩) fun _ h => mem_insert h

/-- The two-way patch of flat documents, merged into `original` key by key, gives `modified`'s
entries. -/
theorem mergeEntry_twoWayPatch {original modified : JSONMap} (ho : Flat original)
    (hm : Flat modified) (k : String) :
    mergeEntry (get? (twoWayPatch original modified) k) (get? original k) = get? modified k := by
  rw [get?_twoWayPatch hm.nodup]
  cases hmk : get? modified k with
  | none => cases get? original k <;> rfl
  | some v =>
    have hv := ne_null_of_isScalar (hm.scalar _ (mem_of_get? hmk))
    cases hok : get? original k with
    | none => exact mergeEntry_some hv _
    | some ov =>
      dsimp only
      split_ifs with he
      · exact congrArg some ((deepEqual_iff_of_isScalar (ho.scalar _ (mem_of_get? hok))).mp he)
      · exact mergeEntry_some hv _

/-- The three-way patch, key by key: a value of `modified` that `current` lacks or holds
otherwise, `null` for a key `original` has and `modified` lacks, and nothing else. -/
theorem get?_threeWayPatch {original modified current : JSONMap} (hm : Flat modified)
    (k : String) :
    get? (threeWayPatch original modified current) k =
      match get? modified k, get? current k with
      | some v, some cv => if cv.deepEqual v then none else some v
      | some v, none => some v
      | none, _ => if k ∈ keys original then some .null else none := by
  have hdel : (keys (addDeletions modified original [])).Nodup :=
    nodup_addDeletions _ _ List.nodup_nil
  rw [threeWayPatch, get?_foldl_mergeStep (FlatPatch.nil.foldl_diffStep hm.flatPatch).nodup hdel,
    get?_foldl_diffStep current hm.nodup, get?_addDeletions]
  cases hmk : get? modified k with
  | none => cases get? current k <;> simp [mergeEntry]
  | some v =>
    have hv := ne_null_of_isScalar (hm.scalar _ (mem_of_get? hmk))
    simp only [Option.isNone_some, Bool.false_eq_true, and_false, if_false]
    cases get? current k with
    | none => exact mergeEntry_some hv _
    | some cv =>
      dsimp only
      split_ifs
      · rfl
      · exact mergeEntry_some hv _

section Engine

variable {τ : Type} (S : Schema τ)

/-- `CreateTwoWayMergeMapPatch` of two flat documents. -/
theorem CreateTwoWayMergeMapPatch_flat {original modified : JSONMap} (ho : Flat original)
    (hm : Flat modified) (t : τ) :
    CreateTwoWayMergeMapPatch S original modified t [] = .ok (twoWayPatch original modified) := by
  simp only [CreateTwoWayMergeMapPatch, diffMaps_flat S ho hm t false false
    (2 * (size (.object original) + size (.object modified)))
    (by have := length_lt_size modified; omega)]
  rfl

/-- `CreateThreeWayMergePatch` of three flat documents, with `overwrite` true. -/
theorem CreateThreeWayMergePatch_flat {original modified current : JSONMap} (ho : Flat original)
    (hm : Flat modified) (hc : Flat current) (t : τ) :
    CreateThreeWayMergePatch S original modified current t true [] =
      .ok (threeWayPatch original modified current) := by
  have hdelta : FlatPatch (modified.foldl (diffStep false current) []) :=
    FlatPatch.nil.foldl_diffStep hm.flatPatch
  have hdel : (keys (addDeletions modified original [])).Nodup :=
    nodup_addDeletions _ _ List.nodup_nil
  simp only [CreateThreeWayMergePatch,
    diffMaps_flat S hc hm t false true (2 * (size (.object current) + size (.object modified)))
      (by have := length_lt_size modified; omega),
    diffMaps_flat S ho hm t true false (2 * (size (.object original) + size (.object modified)))
      (by have := length_lt_size modified; omega),
    foldl_diffStep_true, if_true, Bool.false_eq_true, if_false, bind, Except.bind]
  -- the changes go to keys of `modified`, which the deletions never hold: no lookup is made
  rw [mergeMap_flat S _ hdelta.toFlatKeys t false false
    (fun kv h => .inl (hm.scalar kv ((mem_foldl_diffStep h).resolve_left (List.not_mem_nil _))))
    _ (by have := length_lt_size (modified.foldl (diffStep false current) []); omega)
    fun k hk hs => absurd hs (by
      obtain ⟨kv, hkv, rfl⟩ := List.mem_map.mp hk
      have hm' : kv ∈ modified := (mem_foldl_diffStep hkv).resolve_left (List.not_mem_nil _)
      rw [get?_addDeletions, get?_eq_some_of_mem hm.nodup hm']
      simp)]
  rfl

end Engine

end ClientGo.Strategicpatch
