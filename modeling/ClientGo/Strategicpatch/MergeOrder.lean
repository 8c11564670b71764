import ClientGo.Strategicpatch.MergeFuel

/-!
# The merge does not depend on the order of the patch's keys

Go visits the keys of the patch map in no fixed order. Each key of the patch writes one field of
the result (`mergeTarget`): the key itself, or for a parallel deletion list
`$deleteFromPrimitiveList/<field>` the field it names. The loop of `mergeMap` reads and writes
only that field (`mergeMapLoop_cons`): what it writes there is `mergeField`, computed from the
field's entry alone. So the loop is one fold per field (`mergeMapLoop_fields`,
`mergeMapLoop_of_fields`), and the result depends only on the order of the keys that write the same
field (`StrategicMergeMapPatch_key_order`). The other order matters: a field and its deletion list
give different results in the two orders (`mergeMap_result_depends_on_key_order`).
-/

namespace ClientGo.Strategicpatch

open Value JSONMap

/-- The field a key of the patch writes: the key, or, when the loop applies parallel deletion
lists, the field a `$deleteFromPrimitiveList/<field>` key names. A malformed deletion-list key,
on which the loop fails, is left as it is. -/
def mergeTarget (mergeDeleteList : Bool) (k : String) : String :=
  if hasPrefix k deleteFromPrimitiveListDirectivePrefix ∧ !mergeDeleteList then k
  else
    match splitDeleteListKey k with
    | .ok (field, _) => field
    | .error _ => k

section Entry

variable {τ : Type} (S : Schema τ)

/-- What the key `k` of the patch, with value `patchV`, makes of the field it writes, read on that
field's entry `entry`: the body of the loop of `mergeMap` with the rest of the map left out. An
entry `none` is a field that is absent, or that the loop deletes. -/
def mergeField (fuel : Nat) (t : τ) (mergeDeleteList ignoreUnmatchedNulls : Bool) (k : String)
    (patchV : Value) (entry : Option Value) : Except Failure (Option Value) :=
  if hasPrefix k deleteFromPrimitiveListDirectivePrefix ∧ !mergeDeleteList then .ok (some patchV)
  else do
    let (k, isDeleteList) ← splitDeleteListKey k
    let entry := match patchV with
      | .null => none
      | _ => entry
    if patchV.kind = .nil ∧ ignoreUnmatchedNulls then pure entry else
    match entry with
    | none => pure (some patchV)
    | some originalValue =>
      if originalValue.kind = patchV.kind then do
        let (fieldType, fieldPatchStrategy, fieldPatchMergeKey) ←
          (S.lookupPatchMetadata t k).mapError Failure.lookup
        match originalValue, patchV with
        | .object typedOriginal, .object typedPatch =>
          if fieldPatchStrategy ≠ replaceDirective then do
            let merged ← mergeMap S fuel typedOriginal typedPatch fieldType mergeDeleteList
              ignoreUnmatchedNulls
            pure (some (.object merged))
          else pure (some patchV)
        | .array typedOriginal, .array typedPatch =>
          if fieldPatchStrategy = mergeDirective then do
            let merged ← mergeSlice S fuel typedOriginal typedPatch (S.elem fieldType)
              fieldPatchMergeKey mergeDeleteList isDeleteList ignoreUnmatchedNulls
            pure (some (.array merged))
          else pure (some patchV)
        | _, _ => pure (some patchV)
      else pure (some patchV)

end Entry

/-- The map the loop of `mergeMap` goes on with after the key `k`, once `mergeField` has given
the field's new entry: the field deleted, or written in place, after its deletion when the patch
value is `null`. -/
def mergeWrite (mergeDeleteList : Bool) (original : JSONMap) (k : String) (patchV : Value) :
    Option Value → JSONMap
  | none => erase original (mergeTarget mergeDeleteList k)
  | some w =>
    if hasPrefix k deleteFromPrimitiveListDirectivePrefix ∧ !mergeDeleteList then insert original k w
    else
      insert (match patchV with
          | .null => erase original (mergeTarget mergeDeleteList k)
          | _ => original)
        (mergeTarget mergeDeleteList k) w

section Step

variable {τ : Type} (S : Schema τ)

/-- **One key of the patch.** The loop of `mergeMap` reads the field the key writes, computes its
new entry with `mergeField`, writes it, and goes on with the other keys. -/
theorem mergeMapLoop_cons (fuel : Nat) (t : τ) (mdl iun : Bool) (k : String) (patchV : Value)
    (rest original : JSONMap) (ho : (keys original).Nodup) :
    mergeMapLoop S (fuel + 1) t mdl iun ((k, patchV) :: rest) original =
      mergeField S fuel t mdl iun k patchV (get? original (mergeTarget mdl k)) >>= fun e =>
        mergeMapLoop S fuel t mdl iun rest (mergeWrite mdl original k patchV e) := by
  cases patchV
  case null =>
    rw [mergeMapLoop, mergeField]
    by_cases hp : hasPrefix k deleteFromPrimitiveListDirectivePrefix ∧ !mdl
    · simp only [if_pos hp, mergeWrite]; rfl
    rw [if_neg hp, if_neg hp]
    cases hs : splitDeleteListKey k with
    | error e => rfl
    | ok p =>
      obtain ⟨k', isDeleteList⟩ := p
      have ht : mergeTarget mdl k = k' := by simp only [mergeTarget, if_neg hp, hs]
      simp only [Bool.not_eq_true'] at hp
      cases iun <;> simp [ht, kind, get?_erase_self ho, mergeWrite, hp, bind, Except.bind, pure,
        Except.pure]
  all_goals
    simp only [mergeMapLoop, mergeField]
    by_cases hp : hasPrefix k deleteFromPrimitiveListDirectivePrefix ∧ !mdl
    · simp only [if_pos hp, mergeWrite]; rfl
    rw [if_neg hp, if_neg hp]
    cases hs : splitDeleteListKey k with
    | error e => rfl
    | ok p =>
      obtain ⟨k', isDeleteList⟩ := p
      have ht : mergeTarget mdl k = k' := by simp only [mergeTarget, if_neg hp, hs]
      simp only [ht, mergeWrite, hp, if_false, kind.eq_2, kind.eq_3, kind.eq_4, kind.eq_5,
        kind.eq_6, reduceCtorEq, false_and, bind, Except.bind, pure, Except.pure]
      cases get? original k' with
      | none => rfl
      | some ov =>
        simp only
        split_ifs <;> try rfl
        cases Except.mapError Failure.lookup (S.lookupPatchMetadata t k') with
        | error e => rfl
        | ok r =>
          -- only two maps, or two lists, go on to a recursive merge
          first
            | rfl
            | cases ov <;> first | rfl | (dsimp only; split_ifs <;> first | rfl | (split <;> rfl))

end Step

/-! ## What a key writes -/

section Write

variable {mdl : Bool} {original : JSONMap} {k : String} {patchV : Value}

theorem mergeTarget_of_directive (h : hasPrefix k deleteFromPrimitiveListDirectivePrefix ∧ !mdl) :
    mergeTarget mdl k = k := if_pos h

theorem nodup_mergeWrite (ho : (keys original).Nodup) (e : Option Value) :
    (keys (mergeWrite mdl original k patchV e)).Nodup := by
  have herase := List.Nodup.sublist ((erase_sublist original (mergeTarget mdl k)).map Prod.fst) ho
  cases e with
  | none => exact herase
  | some w =>
    simp only [mergeWrite]
    split_ifs
    · exact nodup_insert ho _ _
    · cases patchV <;> exact nodup_insert (by assumption) _ _

/-- The key writes its field and no other. -/
theorem get?_mergeWrite (ho : (keys original).Nodup) (e : Option Value) (y : String) :
    get? (mergeWrite mdl original k patchV e) y =
      if y = mergeTarget mdl k then e else get? original y := by
  cases e with
  | none => exact get?_erase ho _ _
  | some w =>
    simp only [mergeWrite]
    split_ifs with hp hy hy
    · rw [hy, mergeTarget_of_directive hp, get?_insert_self]
    · rw [get?_insert_ne _ _ (by rwa [mergeTarget_of_directive hp] at hy)]
    · rw [hy, get?_insert_self]
    · rw [get?_insert_ne _ _ hy]
      cases patchV <;> first | rfl | exact get?_erase_ne _ hy

end Write

/-! ## Each field on its own -/

section Fields

variable {τ : Type} (S : Schema τ)

/-- `mergeField` is the loop on the one-field map that holds the entry. -/
theorem mergeField_eq_loop {fuel : Nat} (hf : 1 ≤ fuel) (t : τ) (mdl iun : Bool) (k : String)
    (patchV : Value) (entry : Option Value) :
    mergeField S fuel t mdl iun k patchV entry =
      (fun r => get? r (mergeTarget mdl k)) <$> mergeMapLoop S (fuel + 1) t mdl iun [(k, patchV)]
        (entry.toList.map fun w => (mergeTarget mdl k, w)) := by
  obtain ⟨f, rfl⟩ : ∃ f, fuel = f + 1 := ⟨fuel - 1, by omega⟩
  have ho : (keys (entry.toList.map fun w => (mergeTarget mdl k, w))).Nodup := by
    cases entry <;> simp [keys]
  have hget : get? (entry.toList.map fun w => (mergeTarget mdl k, w)) (mergeTarget mdl k) = entry := by
    cases entry <;> simp [get?_cons]
  rw [mergeMapLoop_cons S _ t mdl iun k patchV [] _ ho, hget]
  cases mergeField S (f + 1) t mdl iun k patchV entry with
  | error e => rfl
  | ok e =>
    show Except.ok e = Except.ok (get? (mergeWrite mdl _ k patchV e) (mergeTarget mdl k))
    rw [get?_mergeWrite ho, if_pos rfl]

/-- From a bound of twice the size of the patch value on, `mergeField` gives one result. -/
theorem mergeField_fuel_eq {f f' : Nat} {patchV : Value} (hf : 2 * size patchV ≤ f) (h : f ≤ f')
    (t : τ) (mdl iun : Bool) (k : String) (entry : Option Value) :
    mergeField S f t mdl iun k patchV entry = mergeField S f' t mdl iun k patchV entry := by
  have h1 := one_le_size patchV
  rw [mergeField_eq_loop S (by omega), mergeField_eq_loop S (by omega),
    mergeMapLoop_fuel_eq t mdl iun [(k, patchV)] _
      (by simp only [size.sizeFields]; omega) (Nat.succ_le_succ h)]

/-- The keys of the patch that write one field, applied in order to its entry, each with the
bound its value needs. -/
def fieldRun (t : τ) (mdl iun : Bool) (keysOfField : JSONMap) (entry : Option Value) :
    Except Failure (Option Value) :=
  keysOfField.foldlM (fun e kv => mergeField S (2 * size kv.2) t mdl iun kv.1 kv.2 e) entry

/-- The keys of `patch` that write the field `x`, in the patch's order. -/
def keysOfField (mdl : Bool) (patch : JSONMap) (x : String) : JSONMap :=
  patch.filter fun kv => mergeTarget mdl kv.1 = x

theorem keysOfField_cons (mdl : Bool) (k : String) (v : Value) (rest : JSONMap) (x : String) :
    keysOfField mdl ((k, v) :: rest) x =
      if mergeTarget mdl k = x then (k, v) :: keysOfField mdl rest x else keysOfField mdl rest x := by
  simp only [keysOfField, List.filter_cons, decide_eq_true_eq]

variable {S}

/-- **The loop is one run per field.** If the loop of `mergeMap` returns, its result has distinct
keys, and each field holds what the keys that write it make of the original's entry, in the
patch's order. -/
theorem mergeMapLoop_fields (t : τ) (mdl iun : Bool) :
    ∀ (patch original R : JSONMap) (fuel : Nat), (keys original).Nodup →
      2 * size.sizeFields patch + 1 ≤ fuel →
      mergeMapLoop S fuel t mdl iun patch original = .ok R →
      (keys R).Nodup ∧ ∀ x, fieldRun S t mdl iun (keysOfField mdl patch x) (get? original x) =
        .ok (get? R x)
  | [], original, R, fuel, ho, hf, h => by
    obtain ⟨f, rfl⟩ : ∃ f, fuel = f + 1 := ⟨fuel - 1, by omega⟩
    rw [mergeMapLoop, Except.ok.injEq] at h
    subst h
    exact ⟨ho, fun x => rfl⟩
  | (k, v) :: rest, original, R, fuel, ho, hf, h => by
    obtain ⟨f, rfl⟩ : ∃ f, fuel = f + 1 := ⟨fuel - 1, by omega⟩
    have := one_le_size v
    simp only [size.sizeFields] at hf
    rw [mergeMapLoop_cons S f t mdl iun k v rest original ho] at h
    obtain ⟨e, he, h⟩ := bind_eq_ok.mp h
    obtain ⟨hR, ih⟩ := mergeMapLoop_fields t mdl iun rest _ R f (nodup_mergeWrite ho e)
      (by omega) h
    refine ⟨hR, fun x => ?_⟩
    have hw := ih x
    rw [get?_mergeWrite ho] at hw
    rw [keysOfField_cons]
    by_cases hx : mergeTarget mdl k = x
    · -- the key writes `x`: its entry is `e`, which the rest of the run starts from
      subst hx
      rw [if_pos rfl] at hw ⊢
      rw [fieldRun, List.foldlM_cons]
      dsimp only
      rw [mergeField_fuel_eq S le_rfl (show 2 * size v ≤ f by omega), he]
      exact hw
    · rw [if_neg (Ne.symm hx)] at hw
      rwa [if_neg hx]

/-- **Runs per field that return make the loop return.** -/
theorem mergeMapLoop_of_fields (t : τ) (mdl iun : Bool) :
    ∀ (patch original : JSONMap) (fuel : Nat), (keys original).Nodup →
      2 * size.sizeFields patch + 1 ≤ fuel →
      (∀ x, ∃ e, fieldRun S t mdl iun (keysOfField mdl patch x) (get? original x) = .ok e) →
      ∃ R, mergeMapLoop S fuel t mdl iun patch original = .ok R
  | [], original, fuel, _, hf, _ => by
    obtain ⟨f, rfl⟩ : ∃ f, fuel = f + 1 := ⟨fuel - 1, by omega⟩
    exact ⟨original, by rw [mergeMapLoop]⟩
  | (k, v) :: rest, original, fuel, ho, hf, h => by
    obtain ⟨f, rfl⟩ : ∃ f, fuel = f + 1 := ⟨fuel - 1, by omega⟩
    have := one_le_size v
    simp only [size.sizeFields] at hf
    -- the run of the field the first key writes starts with that key
    obtain ⟨e₀, h₀⟩ := h (mergeTarget mdl k)
    rw [keysOfField_cons, if_pos rfl, fieldRun, List.foldlM_cons] at h₀
    dsimp only at h₀
    obtain ⟨e, he, h₀⟩ := bind_eq_ok.mp h₀
    rw [mergeField_fuel_eq S le_rfl (show 2 * size v ≤ f by omega)] at he
    obtain ⟨R, hR⟩ := mergeMapLoop_of_fields t mdl iun rest (mergeWrite mdl original k v e) f
      (nodup_mergeWrite ho e) (by omega) fun x => by
        rw [get?_mergeWrite ho]
        split_ifs with hx
        · exact ⟨e₀, hx ▸ h₀⟩
        · obtain ⟨e', he'⟩ := h x
          rw [keysOfField_cons, if_neg (Ne.symm hx)] at he'
          exact ⟨e', he'⟩
    exact ⟨R, by rw [mergeMapLoop_cons S f t mdl iun k v rest original ho, he]; exact hR⟩

end Fields

/-! ## Reordering the patch -/

/-- Two maps with distinct keys and the same entry at every key hold the same fields. -/
theorem perm_of_get?_eq {r r' : JSONMap} (hr : (keys r).Nodup) (hr' : (keys r').Nodup)
    (h : ∀ x, get? r x = get? r' x) : r.Perm r' := by
  refine (List.perm_ext_iff_of_nodup (hr.of_map _) (hr'.of_map _)).mpr fun ⟨k, v⟩ => ?_
  constructor
  · intro hkv; exact mem_of_get? (h k ▸ get?_eq_some_of_mem hr hkv)
  · intro hkv; exact mem_of_get? ((h k).symm ▸ get?_eq_some_of_mem hr' hkv)

/-- A key's entry is read among the keys that write the same field. -/
theorem get?_keysOfField (mdl : Bool) (patch : JSONMap) (k : String) :
    get? (keysOfField mdl patch (mergeTarget mdl k)) k = get? patch k := by
  induction patch with
  | nil => rfl
  | cons kv rest ih =>
    obtain ⟨k', v⟩ := kv
    rw [keysOfField_cons, get?_cons]
    by_cases hk : k' = k
    · subst hk; simp [get?_cons]
    · rw [if_neg hk, ← ih]
      split_ifs
      · rw [get?_cons, if_neg hk]
      · rfl

theorem mem_keysOfField {mdl : Bool} {patch : JSONMap} {x : String} {kv : String × Value} :
    kv ∈ keysOfField mdl patch x ↔ kv ∈ patch ∧ mergeTarget mdl kv.1 = x := by
  simp [keysOfField]

/-- A map whose keys writing each field are distinct has distinct keys: two entries of one key
write one field. -/
theorem nodup_of_keysOfField {mdl : Bool} :
    ∀ {patch : JSONMap}, (∀ x, (keys (keysOfField mdl patch x)).Nodup) → (keys patch).Nodup
  | [], _ => List.nodup_nil
  | (k, v) :: rest, h => by
    have hrest : ∀ x, (keys (keysOfField mdl rest x)).Nodup := fun x => by
      have := h x
      rw [keysOfField_cons] at this
      split_ifs at this
      · exact (List.nodup_cons.mp this).2
      · exact this
    refine List.nodup_cons.mpr ⟨fun hk => ?_, nodup_of_keysOfField hrest⟩
    -- a second entry of `k` would write the field of `k` too
    have := h (mergeTarget mdl k)
    rw [keysOfField_cons, if_pos rfl] at this
    obtain ⟨⟨k', w⟩, hw, rfl⟩ := List.mem_map.mp hk
    have hmem : (k', w) ∈ keysOfField mdl rest (mergeTarget mdl k') := mem_keysOfField.mpr ⟨hw, rfl⟩
    have hk' : k' ∈ keys (keysOfField mdl rest (mergeTarget mdl k')) :=
      List.mem_map_of_mem Prod.fst hmem
    exact (List.nodup_cons.mp this).1 hk'

section Order

variable {τ : Type} (S : Schema τ)

/-- **The order of the patch's keys changes the result only through the keys that write the same
field.** Merge into a map `original` a patch `patch`, and `patch'`, the same map visited in
another order in which the keys that write each field (a field, and the parallel deletion lists
that name it) come in the same order as in `patch`. If `StrategicMergeMapPatch` returns `r` for
`patch`, it returns for `patch'` a map with the same fields as `r`. -/
theorem StrategicMergeMapPatch_key_order (original patch patch' : JSONMap) (t : τ)
    (ho : (keys original).Nodup) (hp : (keys patch).Nodup)
    (horder : ∀ x, keysOfField true patch' x = keysOfField true patch x) (r : JSONMap)
    (h : StrategicMergeMapPatch S original patch t = .ok r) :
    ∃ r', StrategicMergeMapPatch S original patch' t = .ok r' ∧ r'.Perm r := by
  have hp' : (keys patch').Nodup := nodup_of_keysOfField fun x => by
    rw [horder]; exact hp.sublist ((List.filter_sublist _).map _)
  -- every key has the same entry in both orders
  have hget : ∀ k, get? patch' k = get? patch k := fun k => by
    rw [← get?_keysOfField true patch', horder, get?_keysOfField]
  unfold StrategicMergeMapPatch at h ⊢
  rw [mergeMap] at h ⊢
  rw [hget]
  cases hd : get? patch directiveMarker with
  | some v =>
    -- a `$patch` directive: the same one in both orders
    rw [hd] at h
    simp only at h ⊢
    split_ifs at h ⊢
    · refine ⟨_, rfl, (Except.ok.inj h) ▸ perm_of_get?_eq ?_ ?_ fun x => ?_⟩
      · exact hp'.sublist ((erase_sublist _ _).map _)
      · exact hp.sublist ((erase_sublist _ _).map _)
      · rw [get?_erase hp', get?_erase hp, hget]
    · exact ⟨[], rfl, (Except.ok.inj h) ▸ List.Perm.refl _⟩
  | none =>
    -- the loop: one run per field, and the runs are the same in both orders
    rw [hd] at h
    have hb : ∀ q : JSONMap, 2 * size.sizeFields q + 1 ≤ 2 * size (.object q) := fun q => by
      simp only [size]; omega
    obtain ⟨hr, hfields⟩ := mergeMapLoop_fields t true true patch original r _ ho (hb patch) h
    obtain ⟨r', hr'⟩ := mergeMapLoop_of_fields t true true patch' original _ ho (hb patch')
      fun x => ⟨_, (horder x).symm ▸ hfields x⟩
    obtain ⟨hr'n, hfields'⟩ := mergeMapLoop_fields t true true patch' original r' _ ho (hb patch')
      hr'
    refine ⟨r', hr', perm_of_get?_eq hr'n hr fun x => ?_⟩
    have := hfields' x
    rw [horder, hfields x, Except.ok.injEq] at this
    exact this.symm

/-- `{"$deleteFromPrimitiveList/k": [2], "j": 1}` applied to `{"k": [1, 2]}`, with `k` a merge
list, in the other order of its keys: the two keys write different fields. -/
theorem StrategicMergeMapPatch_key_order_two_fields :
    ∃ r', StrategicMergeMapPatch (uniformSchema "merge" "") [("k", .array [.number 1, .number 2])]
        [("j", .number 1), ("$deleteFromPrimitiveList/k", .array [.number 2])] () = .ok r' ∧
      r'.Perm [("k", .array [.number 1]), ("j", .number 1)] :=
  StrategicMergeMapPatch_key_order _ _ [("$deleteFromPrimitiveList/k", .array [.number 2]),
    ("j", .number 1)] _ () (by decide) (by decide) (fun x => by
      by_cases hk : x = "k"
      · subst hk; rfl
      by_cases hj : x = "j"
      · subst hj; rfl
      simp only [keysOfField, List.filter, show mergeTarget true "j" = "j" from rfl,
        show mergeTarget true "$deleteFromPrimitiveList/k" = "k" from rfl, Ne.symm hk, Ne.symm hj,
        decide_False]) _ rfl

/-- **A merge writes only the fields the patch names.** Merging a patch without a `$patch`
directive into a map leaves every field that no key of the patch writes as it was. -/
theorem StrategicMergeMapPatch_frame (original patch : JSONMap) (t : τ)
    (ho : (keys original).Nodup) (hd : get? patch directiveMarker = none) (x : String)
    (hx : ∀ k ∈ keys patch, mergeTarget true k ≠ x) (r : JSONMap)
    (h : StrategicMergeMapPatch S original patch t = .ok r) : get? r x = get? original x := by
  rw [StrategicMergeMapPatch, mergeMap, hd] at h
  have hb : 2 * size.sizeFields patch + 1 ≤ 2 * size (.object patch) := by simp only [size]; omega
  have hrun := (mergeMapLoop_fields t true true patch original r _ ho hb h).2 x
  -- no key writes `x`, so its run is empty
  have hnone : keysOfField true patch x = [] := List.filter_eq_nil_iff.mpr fun kv hkv => by
    simpa using hx kv.1 (List.mem_map_of_mem Prod.fst hkv)
  rw [hnone] at hrun
  exact (Except.ok.inj hrun).symm

/-- `{"j": 1, "$deleteFromPrimitiveList/k": [2]}` applied to `{"k": [1, 2], "i": true}`, with `k`
a merge list: `k` and `j` change, and the field `i` is left alone. -/
theorem StrategicMergeMapPatch_frame_untouched_field :
    StrategicMergeMapPatch (uniformSchema "merge" "")
        [("k", .array [.number 1, .number 2]), ("i", .bool true)]
        [("j", .number 1), ("$deleteFromPrimitiveList/k", .array [.number 2])] () =
      .ok [("k", .array [.number 1]), ("i", .bool true), ("j", .number 1)] ∧
    get? [("k", .array [.number 1]), ("i", .bool true), ("j", .number 1)] "i" =
      get? [("k", .array [.number 1, .number 2]), ("i", .bool true)] "i" :=
  ⟨rfl, StrategicMergeMapPatch_frame (uniformSchema "merge" "")
    [("k", .array [.number 1, .number 2]), ("i", .bool true)]
    [("j", .number 1), ("$deleteFromPrimitiveList/k", .array [.number 2])] () (by decide) rfl "i"
    (by decide) _ rfl⟩

end Order

end ClientGo.Strategicpatch
