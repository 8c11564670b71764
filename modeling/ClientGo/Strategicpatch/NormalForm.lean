import ClientGo.Strategicpatch.MapListLaws

/-!
# The normal form of merge lists is idempotent on distinct sort keys

`sortMergeListsByName` is what the package's tests compare patched documents through: it sorts
every merge list by its merge key and uniqifies and sorts every parallel deletion list, at every
depth. Run on its own result it returns that result, when no list it sorts holds two elements
with one sort key (`DistinctKeysMap`, `sortMergeListsByName_idempotent`). The condition is
needed: Go's insertion sort moves an element in front of every equal one, so two maps of a merge
list with one merge key, or `1` and `"1"` in a deletion list, come out swapped on every run.

A document is *normal* at type `t` when the normal form gives it back at every recursion bound
its size allows (`NormalMap`); likewise one field (`NormalField`) and one merge list
(`NormalArray`). The proof follows the four mutual definitions, one step of the bound at a time
(`normal_of_sort`):

* the field loop keeps the fields of `newS` normal, when their sort keys are distinct, and their
  keys distinct (`NormalFields`), and over such fields it appends each one as it is
  (`sortMergeListsByNameFields_of_normal`);
* a list of maps becomes a list of normal maps, sorted by the merge key; with distinct keys the
  sort gives a sorted list back (`sortMapsBasedOnField_of_nodup`), and the element loop gives
  normal maps back (`sortMergeListsByNameElems_of_normal`);
* a list of scalars and a deletion list go through `uniqifyAndSortScalars`, which is idempotent on
  strings no two of which are alike (`uniqifyAndSortScalars_idem`).
-/

namespace ClientGo.Strategicpatch

open Value JSONMap

/-- Peeling a map of a computation in `Except`. -/
theorem map_eq_ok {ε α β : Type} {x : Except ε α} {f : α → β} {b : β} :
    f <$> x = .ok b ↔ ∃ a, x = .ok a ∧ f a = b := by
  cases x <;> simp [Functor.map, Except.map]

/-! ## The two sorts -/

section KeyOrder

variable {α : Type} {key : α → String}

/-- Sorted by `key`, with no two keys alike, the keys strictly increase. -/
theorem lt_of_sorted_of_nodup {l : List α}
    (hs : l.Sorted fun a b => (!strLess (key b) (key a)) = true) (hn : (l.map key).Nodup) :
    l.Pairwise fun a b => strLess (key a) (key b) = true := by
  induction l with
  | nil => exact .nil
  | cons x l ih =>
    rw [List.sorted_cons] at hs
    rw [List.map_cons, List.nodup_cons] at hn
    refine List.pairwise_cons.mpr ⟨fun y hy => ?_, ih hs.2 hn.2⟩
    have hne : key x ≠ key y := fun e => hn.1 (e ▸ List.mem_map_of_mem key hy)
    have hle := hs.1 y hy
    rcases strLess_total hne with h | h
    · exact h
    · simp [h] at hle

end KeyOrder

/-- A list sorted by its `%v` strings, no two of them alike, is its own sort. -/
theorem sortScalars_of_nodup {s : List Value} (hs : s.Sorted fun a b => fmtLE a b = true)
    (hn : (s.map fmtV).Nodup) : sortScalars s = s :=
  goInsertionSort_of_lt (lt_of_sorted_of_nodup hs hn)

/-- `uniqifyAndSortScalars` returns elements of its input. -/
theorem mem_of_uniqifyAndSortScalars {s u : List Value} (h : uniqifyAndSortScalars s = .ok u) :
    ∀ v ∈ u, v ∈ s := by
  obtain ⟨r, hr, hu⟩ := bind_eq_ok.mp h
  obtain rfl := Except.ok.inj hu
  exact fun v hv => (uniqifyScalars_pairwise hr).2 v ((perm_sortScalars r).mem_iff.mp hv)

/-- **`uniqifyAndSortScalars` is idempotent on distinct strings.** Run on its own result, no two
elements of which print alike, it returns that result. -/
theorem uniqifyAndSortScalars_idem {s u : List Value} (h : uniqifyAndSortScalars s = .ok u)
    (hn : (u.map fmtV).Nodup) : uniqifyAndSortScalars u = .ok u := by
  obtain ⟨r, hr, hu⟩ := bind_eq_ok.mp h
  obtain rfl := Except.ok.inj hu
  have hsorted : (sortScalars r).Pairwise fun a b => goEq a b = .ok false :=
    ((perm_sortScalars r).pairwise_iff goEq_false_symm).mpr (uniqifyScalars_pairwise hr).1
  simp only [uniqifyAndSortScalars, uniqifyScalars_of_pairwise hsorted, bind, Except.bind, pure,
    Except.pure, sortScalars_of_nodup (sorted_sortScalars r) hn]

/-- `sortMapsBasedOnField` returns its maps sorted by the `%v` string of the field. -/
theorem sortMapsBasedOnField_objects (mergeKey : String) (L : List JSONMap) :
    sortMapsBasedOnField (L.map .object) mergeKey =
      .ok ((goInsertionSort (fun a b => !strLess (fieldFmt mergeKey b) (fieldFmt mergeKey a))
        L).map .object) := by
  simp only [sortMapsBasedOnField, mapSliceFromSlice_objects, bind, Except.bind, pure, Except.pure]

/-- A list of maps sorted by the `%v` string of the field, no two of them alike, is its own
sort. -/
theorem sortMapsBasedOnField_of_nodup {mergeKey : String} {L : List JSONMap}
    (hs : L.Sorted fun a b => (!strLess (fieldFmt mergeKey b) (fieldFmt mergeKey a)) = true)
    (hn : (L.map (fieldFmt mergeKey)).Nodup) :
    sortMapsBasedOnField (L.map .object) mergeKey = .ok (L.map .object) := by
  rw [sortMapsBasedOnField_objects, goInsertionSort_of_lt (lt_of_sorted_of_nodup hs hn)]

/-! ## Distinct sort keys -/

section DistinctKeys

variable {τ : Type} (S : Schema τ)

/-- The string the normal form sorts an element of a merge list by: a map's merge key, a
scalar's own `%v`. -/
def sortKey (mergeKey : String) : Value → String
  | .object m => fieldFmt mergeKey m
  | v => v.fmtV

mutual

/-- No list the normal form of the map `m` of type `t` sorts, at any depth, holds two elements
with one sort key: two maps of a merge list whose merge keys print alike, or two scalars of a
merge list or of a deletion list that print alike. -/
def DistinctKeysMap (t : τ) : JSONMap → Prop
  | [] => True
  | (k, v) :: rest => DistinctKeysField t k v ∧ DistinctKeysMap t rest

/-- `DistinctKeysMap` for the field `k: v`. -/
def DistinctKeysField (t : τ) (k : String) : Value → Prop
  | .object m => ∀ ft strategy mk, S.lookupPatchMetadata t k = .ok (ft, strategy, mk) →
      DistinctKeysMap ft m
  | .array xs =>
    if hasPrefix k deleteFromPrimitiveListDirectivePrefix then (xs.map fmtV).Nodup
    else ∀ ft mk, S.lookupPatchMetadata t k = .ok (ft, mergeDirective, mk) →
      (xs.map (sortKey mk)).Nodup ∧ DistinctKeysElems (S.elem ft) xs
  | _ => True

/-- `DistinctKeysMap` for every map of a merge list. -/
def DistinctKeysElems (et : τ) : List Value → Prop
  | [] => True
  | .object m :: rest => DistinctKeysMap et m ∧ DistinctKeysElems et rest
  | _ :: rest => DistinctKeysElems et rest

end

variable {S}

theorem distinctKeysMap_iff {t : τ} :
    ∀ {s : JSONMap}, DistinctKeysMap S t s ↔ ∀ kv ∈ s, DistinctKeysField S t kv.1 kv.2
  | [] => by simp [DistinctKeysMap]
  | (k, v) :: rest => by
    rw [DistinctKeysMap, distinctKeysMap_iff, List.forall_mem_cons]

theorem distinctKeysElems_objects {et : τ} :
    ∀ {L : List JSONMap}, DistinctKeysElems S et (L.map .object) ↔ ∀ x ∈ L, DistinctKeysMap S et x
  | [] => by simp [DistinctKeysElems]
  | x :: L => by
    rw [List.map_cons, DistinctKeysElems, distinctKeysElems_objects, List.forall_mem_cons]

end DistinctKeys

/-! ## Normal documents -/

section NormalForm

variable {τ : Type} (S : Schema τ)

/-- What the field loop of `sortMergeListsByNameMap` makes of the field `k: v`: the body of the
loop before `newS[k] = v`. -/
def sortField (fuel : Nat) (t : τ) (k : String) (v : Value) : Except Failure Value :=
  if hasPrefix k deleteFromPrimitiveListDirectivePrefix then
    match v with
    | .array typedV => .array <$> uniqifyAndSortScalars typedV
    | _ => .error .badPatchFormatForPrimitiveList
  else if k ≠ directiveMarker then do
    let (fieldType, fieldPatchStrategy, fieldPatchMergeKey) ←
      (S.lookupPatchMetadata t k).mapError Failure.lookup
    match v with
    | .object typedV => .object <$> sortMergeListsByNameMap S fuel typedV fieldType
    | .array typedV =>
      if fieldPatchStrategy = mergeDirective then
        .array <$> sortMergeListsByNameArray S fuel typedV (S.elem fieldType)
          fieldPatchMergeKey true
      else pure v
    | _ => pure v
  else pure v

theorem sortMergeListsByNameFields_cons (fuel : Nat) (t : τ) (k : String) (v : Value)
    (rest newS : JSONMap) :
    sortMergeListsByNameFields S (fuel + 1) t ((k, v) :: rest) newS =
      sortField S fuel t k v >>= fun v =>
        sortMergeListsByNameFields S fuel t rest (JSONMap.insert newS k v) := by
  unfold sortField
  cases v <;> simp only [sortMergeListsByNameFields] <;> split_ifs <;>
    rcases S.lookupPatchMetadata t k with _ | ⟨_, _, _⟩ <;> try rfl
  -- a merge list: the test of its strategy
  simp only [Except.mapError, bind, Except.bind]
  split_ifs <;> rfl

/-- `s` is its own normal form at type `t`, at every bound twice its size or more. -/
def NormalMap (t : τ) (s : JSONMap) : Prop :=
  ∀ fuel, 2 * size (.object s) ≤ fuel → sortMergeListsByNameMap S fuel s t = .ok s

/-- The field `k: v` of a map of type `t` is its own normal form. -/
def NormalField (t : τ) (k : String) (v : Value) : Prop :=
  ∀ fuel, 2 * size v ≤ fuel → sortField S fuel t k v = .ok v

/-- The merge list `xs` is its own normal form. -/
def NormalArray (elemType : τ) (mergeKey : String) (xs : List Value) : Prop :=
  ∀ fuel, 2 * size (.array xs) ≤ fuel →
    sortMergeListsByNameArray S fuel xs elemType mergeKey true = .ok xs

/-- What the field loop keeps of `newS`: fields that are normal when their sort keys are
distinct, under distinct keys. -/
structure NormalFields (t : τ) (s : JSONMap) : Prop where
  normal : ∀ kv ∈ s, DistinctKeysField S t kv.1 kv.2 → NormalField S t kv.1 kv.2
  nodup : (keys s).Nodup

variable {S}

theorem NormalFields.nil (t : τ) : NormalFields S t [] := ⟨by simp, by simp [keys]⟩

theorem NormalFields.insert {t : τ} {s : JSONMap} (hs : NormalFields S t s) {k : String}
    {v : Value} (hv : DistinctKeysField S t k v → NormalField S t k v) :
    NormalFields S t (JSONMap.insert s k v) :=
  ⟨fun kv hkv => (mem_insert hkv).elim (hs.normal kv) fun e => e ▸ hv, nodup_insert hs.nodup k v⟩

/-- The field loop over normal fields with distinct keys and distinct sort keys, none of them in
`newS` yet, appends them to `newS` as they are. -/
theorem sortMergeListsByNameFields_of_normal {t : τ} :
    ∀ {s : JSONMap}, NormalFields S t s → DistinctKeysMap S t s → ∀ {newS : JSONMap},
      (∀ k ∈ keys s, k ∉ keys newS) → ∀ {fuel}, 2 * size.sizeFields s + 1 ≤ fuel →
        sortMergeListsByNameFields S fuel t s newS = .ok (newS ++ s)
  | _, _, _, _, _, 0, hf => absurd hf (by omega)
  | [], _, _, _, _, _ + 1, _ => by simp [sortMergeListsByNameFields]
  | (k, v) :: rest, hs, hd, newS, hnew, fuel + 1, hf => by
    have hv : 2 * size v ≤ fuel := by simp only [size.sizeFields] at hf; omega
    have hrest : 2 * size.sizeFields rest + 1 ≤ fuel := by
      have := one_le_size v; simp only [size.sizeFields] at hf; omega
    have hk : k ∉ keys newS := hnew k (List.mem_cons_self _ _)
    have hnd := hs.nodup
    simp only [keys, List.map_cons, List.nodup_cons] at hnd
    rw [DistinctKeysMap] at hd
    rw [sortMergeListsByNameFields_cons, hs.normal (k, v) (List.mem_cons_self _ _) hd.1 fuel hv]
    show sortMergeListsByNameFields S fuel t rest (JSONMap.insert newS k v) = _
    rw [insert_of_not_mem hk v, sortMergeListsByNameFields_of_normal
      ⟨fun kv hkv => hs.normal kv (List.mem_cons_of_mem _ hkv), hnd.2⟩ hd.2 (fun k' hk' hm => ?_)
      hrest, List.append_assoc, List.singleton_append]
    simp only [keys, List.map_append, List.mem_append, List.map_cons, List.map_nil,
      List.mem_singleton] at hm
    rcases hm with hm | rfl
    · exact hnew k' (List.mem_cons_of_mem _ hk') hm
    · exact hnd.1 hk'

/-- A map whose fields are normal, with distinct keys and distinct sort keys, is normal. -/
theorem NormalFields.normalMap {t : τ} {s : JSONMap} (hs : NormalFields S t s)
    (hd : DistinctKeysMap S t s) : NormalMap S t s := by
  intro fuel hf
  match fuel, hf with
  | fuel + 1, hf =>
    rw [sortMergeListsByNameMap, sortMergeListsByNameFields_of_normal hs hd (by simp [keys])
      (by simp only [size] at hf; omega), List.nil_append]

/-- The element loop gives normal maps back. -/
theorem sortMergeListsByNameElems_of_normal {et : τ} :
    ∀ {L : List JSONMap}, (∀ x ∈ L, NormalMap S et x) → ∀ {fuel},
      2 * size.sizeList (L.map .object) + 1 ≤ fuel →
        sortMergeListsByNameElems S fuel et (L.map .object) = .ok (L.map .object)
  | _, _, 0, hf => absurd hf (by omega)
  | [], _, _ + 1, _ => rfl
  | x :: L, hL, fuel + 1, hf => by
    have hx : 2 * size (.object x) ≤ fuel := by
      simp only [List.map_cons, size.sizeList] at hf; omega
    have hrest : 2 * size.sizeList (L.map .object) + 1 ≤ fuel := by
      have := one_le_size (.object x); simp only [List.map_cons, size.sizeList] at hf; omega
    rw [List.map_cons, sortMergeListsByNameElems]
    simp only [hL x (List.mem_cons_self _ _) fuel hx,
      sortMergeListsByNameElems_of_normal (fun y hy => hL y (List.mem_cons_of_mem _ hy)) hrest,
      bind, Except.bind, pure, Except.pure]

/-! ## One step of the recursion bound -/

section Step

variable {m : Nat}
variable (hMap : ∀ {s : JSONMap} {t : τ} {s'},
  sortMergeListsByNameMap S m s t = .ok s' → DistinctKeysMap S t s' → NormalMap S t s')
variable (hFields : ∀ {t : τ} {s newS r : JSONMap}, sortMergeListsByNameFields S m t s newS = .ok r →
  NormalFields S t newS → NormalFields S t r)
variable (hArray : ∀ {xs : List Value} {et : τ} {mk : String} {xs'},
  sortMergeListsByNameArray S m xs et mk true = .ok xs' → (xs'.map (sortKey mk)).Nodup →
    DistinctKeysElems S et xs' → NormalArray S et mk xs')
variable (hElems : ∀ {et : τ} {xs xs' : List Value}, sortMergeListsByNameElems S m et xs = .ok xs' →
  ∃ L : List JSONMap, xs' = L.map .object ∧ ∀ x ∈ L, DistinctKeysMap S et x → NormalMap S et x)

include hMap hArray in
/-- What the loop body makes of a field is its own normal form, when its sort keys are
distinct. -/
theorem sortField_normal {t : τ} {k : String} {v v' : Value} (h : sortField S m t k v = .ok v')
    (hd : DistinctKeysField S t k v') : NormalField S t k v' := by
  intro fuel hf
  unfold sortField at h ⊢
  by_cases hk : hasPrefix k deleteFromPrimitiveListDirectivePrefix = true
  · -- a parallel deletion list is uniqified and sorted
    rw [if_pos hk] at h ⊢
    cases v with
    | array xs =>
      obtain ⟨u, hu, rfl⟩ := map_eq_ok.mp h
      rw [DistinctKeysField, if_pos hk] at hd
      show Value.array <$> uniqifyAndSortScalars u = _
      rw [uniqifyAndSortScalars_idem hu hd]
      rfl
    | _ => cases h
  rw [if_neg hk] at h ⊢
  by_cases hdm : k ≠ directiveMarker
  · rw [if_pos hdm] at h ⊢
    obtain ⟨⟨fieldType, fieldPatchStrategy, fieldPatchMergeKey⟩, hl, h⟩ := bind_eq_ok.mp h
    have hl' : S.lookupPatchMetadata t k = .ok (fieldType, fieldPatchStrategy, fieldPatchMergeKey) := by
      cases hlk : S.lookupPatchMetadata t k <;> simp_all [Except.mapError]
    simp only [hl, bind, Except.bind]
    cases v with
    | object s =>
      obtain ⟨s', hs', rfl⟩ := map_eq_ok.mp h
      show Value.object <$> sortMergeListsByNameMap S fuel s' fieldType = _
      rw [hMap hs' (hd _ _ _ hl') fuel hf]
      rfl
    | array xs =>
      by_cases hm : fieldPatchStrategy = mergeDirective
      · simp only [if_pos hm] at h
        obtain ⟨xs', hxs', rfl⟩ := map_eq_ok.mp h
        rw [DistinctKeysField, if_neg hk] at hd
        obtain ⟨hn, he⟩ := hd _ _ (hm ▸ hl')
        simp only [if_pos hm, hArray hxs' hn he fuel hf]
        rfl
      · simp only [if_neg hm] at h ⊢
        obtain rfl := Except.ok.inj h
        rfl
    | _ => obtain rfl := Except.ok.inj h; rfl
  · rw [if_neg hdm] at h ⊢
    obtain rfl := Except.ok.inj h
    rfl

include hMap hFields hArray in
/-- The field loop keeps `newS` normal. -/
theorem sortMergeListsByNameFields_normal {t : τ} :
    ∀ {s newS r : JSONMap}, sortMergeListsByNameFields S (m + 1) t s newS = .ok r →
      NormalFields S t newS → NormalFields S t r
  | [], newS, r, h, hn => by
    obtain rfl := Except.ok.inj h
    exact hn
  | (k, v) :: rest, newS, r, h, hn => by
    rw [sortMergeListsByNameFields_cons] at h
    obtain ⟨v', hv', h⟩ := bind_eq_ok.mp h
    exact hFields h (hn.insert (sortField_normal hMap hArray hv'))

include hFields in
theorem sortMergeListsByNameMap_normal {s : JSONMap} {t : τ} {s' : JSONMap}
    (h : sortMergeListsByNameMap S (m + 1) s t = .ok s') (hd : DistinctKeysMap S t s') :
    NormalMap S t s' :=
  (hFields h (NormalFields.nil t)).normalMap hd

include hMap hElems in
theorem sortMergeListsByNameElems_normal {et : τ} :
    ∀ {xs xs' : List Value}, sortMergeListsByNameElems S (m + 1) et xs = .ok xs' →
      ∃ L : List JSONMap, xs' = L.map .object ∧ ∀ x ∈ L, DistinctKeysMap S et x → NormalMap S et x
  | [], xs', h => ⟨[], (Except.ok.inj h).symm, by simp⟩
  | elem :: rest, xs', h => by
    cases elem with
    | object e =>
      rw [sortMergeListsByNameElems] at h
      obtain ⟨x, hx, h⟩ := bind_eq_ok.mp h
      obtain ⟨rest', hrest, h⟩ := bind_eq_ok.mp h
      obtain rfl := Except.ok.inj h
      obtain ⟨L, rfl, hL⟩ := hElems hrest
      exact ⟨x :: L, rfl, List.forall_mem_cons.mpr ⟨hMap hx, hL⟩⟩
    | _ => simp [sortMergeListsByNameElems, bind, Except.bind] at h

include hElems in
/-- A merge list of maps comes out as normal maps sorted by the merge key, a list of scalars
uniqified and sorted: with distinct sort keys, either is its own normal form. -/
theorem sortMergeListsByNameArray_normal {xs : List Value} {et : τ} {mk : String}
    {xs' : List Value} (h : sortMergeListsByNameArray S (m + 1) xs et mk true = .ok xs')
    (hn : (xs'.map (sortKey mk)).Nodup) (hd : DistinctKeysElems S et xs') :
    NormalArray S et mk xs' := by
  intro fuel hf
  match fuel, hf with
  | fuel + 1, hf =>
  rw [sortMergeListsByNameArray] at h ⊢
  -- the flag `recurse` is `true`
  simp only [↓reduceIte] at h ⊢
  by_cases hl : xs.length = 0
  · rw [if_pos hl] at h
    obtain rfl := Except.ok.inj h
    rw [if_pos hl]
  rw [if_neg hl] at h
  obtain ⟨kd, hkd, h⟩ := bind_eq_ok.mp h
  obtain ⟨hnil, hslice, hall⟩ := sliceElementType_ok hkd
  by_cases hmap : kd ≠ .map
  · -- scalars: `uniqifyAndSortScalars` again, on strings no two of which are alike
    rw [if_pos hmap] at h
    have hmem := mem_of_uniqifyAndSortScalars h
    have hkey : xs'.map (sortKey mk) = xs'.map fmtV := List.map_congr_left fun v hv => by
      have hk := hall v (by simpa using hmem v hv)
      cases v with
      | object _ => simp only [kind] at hk; exact absurd hk.symm hmap
      | _ => rfl
    by_cases hl' : xs'.length = 0
    · rw [if_pos hl']
    rw [if_neg hl', sliceElementType_of_kind hnil hslice (by simpa using hl')
      fun v hv => hall v (by simpa using hmem v (by simpa using hv))]
    simp only [bind, Except.bind, if_pos hmap, uniqifyAndSortScalars_idem h (hkey ▸ hn)]
  · -- maps: normal maps, sorted by the merge key
    rw [if_neg hmap] at h
    obtain ⟨newS, hnew, hsort⟩ := bind_eq_ok.mp h
    obtain ⟨L, rfl, hL⟩ := hElems hnew
    obtain rfl := Except.ok.inj ((sortMapsBasedOnField_objects mk L).symm.trans hsort)
    have hsorted := sorted_goInsertionSort_key (fieldFmt mk) L
    have hperm := perm_goInsertionSort (fun a b => !strLess (fieldFmt mk b) (fieldFmt mk a)) L
    generalize goInsertionSort (fun a b => !strLess (fieldFmt mk b) (fieldFmt mk a)) L = L'
      at hsorted hperm hf hn hd ⊢
    rw [List.map_map] at hn
    have hd' := distinctKeysElems_objects.mp hd
    by_cases hl' : (L'.map Value.object).length = 0
    · rw [if_pos hl']
    have hkind : sliceElementType [L'.map Value.object] = .ok .map :=
      sliceElementType_of_kind (by decide) (by decide) (by simpa using hl') fun v hv => by
        obtain ⟨x, -, rfl⟩ := List.mem_map.mp (by simpa using hv)
        rfl
    simp only [if_neg hl', hkind, bind, Except.bind, ne_eq, not_true_eq_false, if_false]
    rw [sortMergeListsByNameElems_of_normal (fun x hx => hL x (hperm.mem_iff.mp hx) (hd' x hx))
      (by simp only [size] at hf; omega)]
    exact sortMapsBasedOnField_of_nodup hsorted hn

end Step

/-- **The normal form gives normal documents.** At every bound, what the normal form of a map,
the field loop, the normal form of a merge list or the element loop returns is its own normal
form when no list in it holds two elements with one sort key, and the field loop keeps `newS`
normal. -/
theorem normal_of_sort : ∀ m : Nat,
    (∀ {s : JSONMap} {t : τ} {s'}, sortMergeListsByNameMap S m s t = .ok s' →
      DistinctKeysMap S t s' → NormalMap S t s') ∧
    (∀ {t : τ} {s newS r : JSONMap}, sortMergeListsByNameFields S m t s newS = .ok r →
      NormalFields S t newS → NormalFields S t r) ∧
    (∀ {xs : List Value} {et : τ} {mk : String} {xs'},
      sortMergeListsByNameArray S m xs et mk true = .ok xs' → (xs'.map (sortKey mk)).Nodup →
        DistinctKeysElems S et xs' → NormalArray S et mk xs') ∧
    (∀ {et : τ} {xs xs' : List Value}, sortMergeListsByNameElems S m et xs = .ok xs' →
      ∃ L : List JSONMap, xs' = L.map .object ∧ ∀ x ∈ L, DistinctKeysMap S et x → NormalMap S et x)
  | 0 => ⟨fun h => (nomatch h), fun h => (nomatch h), fun h => (nomatch h), fun h => (nomatch h)⟩
  | m + 1 =>
    let ⟨hMap, hFields, hArray, hElems⟩ := normal_of_sort m
    ⟨sortMergeListsByNameMap_normal hFields, sortMergeListsByNameFields_normal hMap hFields hArray,
      sortMergeListsByNameArray_normal hElems, sortMergeListsByNameElems_normal hMap hElems⟩

/-- **`sortMergeListsByName` is idempotent on distinct sort keys.** Run on the normal form of a
document, it returns that normal form, when no merge list or deletion list in it, at any depth,
holds two elements with one sort key. Go's insertion sort moves an element in front of every
equal one, so two elements with one key would come out swapped. -/
theorem sortMergeListsByName_idempotent {s s' : JSONMap} {t : τ}
    (h : sortMergeListsByName S s t = .ok s') (hd : DistinctKeysMap S t s') :
    sortMergeListsByName S s' t = .ok s' :=
  (normal_of_sort _).1 h hd _ (by omega)

/-- A merge list of two maps out of order, each with a merge list of its own, and a deletion list
with a repeated element: the normal form sorts and uniqifies them, and gives its result back. -/
theorem sortMergeListsByName_idempotent_nested :
    sortMergeListsByName (uniformSchema "merge" "name")
        [("items", .array [.object [("name", .string "b"),
            ("sub", .array [.object [("name", .string "y")], .object [("name", .string "x")]])],
          .object [("name", .string "a")]]),
          ("$deleteFromPrimitiveList/l", .array [.number 2, .number 1, .number 2])] () =
      .ok [("items", .array [.object [("name", .string "a")], .object [("name", .string "b"),
            ("sub", .array [.object [("name", .string "x")], .object [("name", .string "y")]])]]),
          ("$deleteFromPrimitiveList/l", .array [.number 1, .number 2])] ∧
    sortMergeListsByName (uniformSchema "merge" "name")
        [("items", .array [.object [("name", .string "a")], .object [("name", .string "b"),
            ("sub", .array [.object [("name", .string "x")], .object [("name", .string "y")]])]]),
          ("$deleteFromPrimitiveList/l", .array [.number 1, .number 2])] () =
      .ok [("items", .array [.object [("name", .string "a")], .object [("name", .string "b"),
            ("sub", .array [.object [("name", .string "x")], .object [("name", .string "y")]])]]),
          ("$deleteFromPrimitiveList/l", .array [.number 1, .number 2])] :=
  ⟨by rfl, @sortMergeListsByName_idempotent Unit (uniformSchema "merge" "name")
    [("items", .array [.object [("name", .string "b"),
        ("sub", .array [.object [("name", .string "y")], .object [("name", .string "x")]])],
      .object [("name", .string "a")]]),
      ("$deleteFromPrimitiveList/l", .array [.number 2, .number 1, .number 2])] _ () (by rfl)
    (by simp [DistinctKeysMap, DistinctKeysField, DistinctKeysElems, sortKey, fieldFmt, get?,
      hasPrefix, uniformSchema, deleteFromPrimitiveListDirectivePrefix, mergeDirective, fmtV]; decide)⟩

/-- `1` and `"1"` print alike: the normal form swaps them in a deletion list on every run. -/
example : sortMergeListsByName (uniformSchema "merge" "name")
      [("$deleteFromPrimitiveList/l", .array [.number 1, .string "1"])] () =
        .ok [("$deleteFromPrimitiveList/l", .array [.string "1", .number 1])] ∧
    sortMergeListsByName (uniformSchema "merge" "name")
      [("$deleteFromPrimitiveList/l", .array [.string "1", .number 1])] () =
        .ok [("$deleteFromPrimitiveList/l", .array [.number 1, .string "1"])] := ⟨rfl, rfl⟩

end NormalForm

end ClientGo.Strategicpatch
