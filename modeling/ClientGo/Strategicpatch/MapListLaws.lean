import ClientGo.Strategicpatch.ListLaws
import ClientGo.Strategicpatch.MapsDiff

/-!
# The round trip of a merge list of maps

A list field that its type merges by a merge key is diffed by `diffListsOfMaps` and merged by
the map branch of `mergeSlice`. Take two lists of flat maps that all carry the merge key, with
distinct `%v` strings of it in each list and key values of one kind (`KeyedList`).

* The diff returns, up to order, the list `mapsDiffSpec` names (`diffLists_keyedLists`): a
  `$patch: delete` element for every key only the original list has, every map only the modified
  list has, and, for every key both have, the two-way patch of the two maps with the key set, when
  it is not empty.
* Without its `$patch: delete` elements, that list is, up to order, one element per modified map,
  carrying the map's key (`patchElems`, `filter_mapsDiffSpec`).
* The merge of the list into the original returns (`mergeSliceLoop_ok`), and what it returns is
  what `mergeByKey` specifies: the original maps the modified list keeps, each merged with its
  patch element, then the maps the modified list adds.
* So the merge gives back the modified list, but for the order of the maps and of their fields
  (`mergeSlice_diffLists_maps`).

The condition that the key values are of one kind is needed: the diff pairs two maps by the `%v`
string of their keys, the merge by Go's `==` on the key values, and `1` and `"1"` print alike.
-/

namespace ClientGo.Strategicpatch

open Value JSONMap

/-- A list of maps the round trip takes: flat maps, each carrying the merge key, no two with the
same `%v` string of it. -/
structure KeyedList (mergeKey : String) (L : List JSONMap) : Prop where
  flat : ∀ m ∈ L, Flat m
  hasKey : ∀ m ∈ L, (get? m mergeKey).isSome
  nodup : (L.map (fieldFmt mergeKey)).Nodup

instance (mergeKey : String) (L : List JSONMap) : Decidable (KeyedList mergeKey L) :=
  decidable_of_iff ((∀ m ∈ L, Flat m) ∧ (∀ m ∈ L, (get? m mergeKey).isSome) ∧
      (L.map (fieldFmt mergeKey)).Nodup)
    ⟨fun ⟨a, b, c⟩ => ⟨a, b, c⟩, fun ⟨a, b, c⟩ => ⟨a, b, c⟩⟩

/-- Two elements of a list that are one map but for the order of its fields. -/
def SameFields (v v' : Value) : Prop :=
  ∃ m m', v = .object m ∧ v' = .object m' ∧ ∀ k, get? m k = get? m' k

/-- The map of `L` whose merge key prints as `s`: the map `diffListsOfMaps` pairs with the other
list's map of that key. -/
def withKey (mergeKey : String) (L : List JSONMap) (s : String) : JSONMap :=
  (L.find? fun m => fieldFmt mergeKey m == s).getD []

/-- The diff of the two maps whose merge key prints as `s`, as `diffMaps` computes it for flat
maps. -/
def pairDiff (mergeKey : String) (original modified : List JSONMap) (s : String) : JSONMap :=
  twoWayPatch (withKey mergeKey original s) (withKey mergeKey modified s)

/-! ## Merge keys -/

section Keys

variable {mergeKey : String}

/-- In a list with distinct keys, a map is the map of its key. -/
theorem withKey_eq {L : List JSONMap} (hL : (L.map (fieldFmt mergeKey)).Nodup) {m : JSONMap}
    (hm : m ∈ L) : withKey mergeKey L (fieldFmt mergeKey m) = m := by
  induction L with
  | nil => cases hm
  | cons a L ih =>
    rw [List.map_cons, List.nodup_cons] at hL
    unfold withKey
    rw [List.find?_cons]
    by_cases e : fieldFmt mergeKey a = fieldFmt mergeKey m
    · rcases List.mem_cons.mp hm with rfl | hm
      · simp
      · exact absurd (e ▸ List.mem_map_of_mem _ hm) hL.1
    · rw [beq_false_of_ne e]
      exact ih hL.2 ((List.mem_cons.mp hm).resolve_left fun h => e (h ▸ rfl))

theorem mem_withKey {L : List JSONMap} (hL : (L.map (fieldFmt mergeKey)).Nodup) {s : String}
    (hs : s ∈ L.map (fieldFmt mergeKey)) :
    withKey mergeKey L s ∈ L ∧ fieldFmt mergeKey (withKey mergeKey L s) = s := by
  obtain ⟨m, hm, rfl⟩ := List.mem_map.mp hs
  rw [withKey_eq hL hm]
  exact ⟨hm, rfl⟩

theorem mem_keys_withKey {L : List JSONMap} {s k : String} (h : k ∈ keys (withKey mergeKey L s)) :
    ∃ m ∈ L, k ∈ keys m := by
  unfold withKey at h
  cases hf : L.find? fun m => fieldFmt mergeKey m == s with
  | none => rw [hf] at h; cases h
  | some m => rw [hf] at h; exact ⟨m, List.mem_of_find?_eq_some hf, h⟩

theorem pairDiff_eq {xs ys : List JSONMap} (hxs : (xs.map (fieldFmt mergeKey)).Nodup)
    (hys : (ys.map (fieldFmt mergeKey)).Nodup) {x y : JSONMap} (hx : x ∈ xs) (hy : y ∈ ys)
    (e : fieldFmt mergeKey x = fieldFmt mergeKey y) :
    pairDiff mergeKey xs ys (fieldFmt mergeKey y) = twoWayPatch x y := by
  rw [pairDiff, withKey_eq hys hy, ← e, withKey_eq hxs hx]

theorem KeyedList.inj {L : List JSONMap} (hL : KeyedList mergeKey L) {m m' : JSONMap} (hm : m ∈ L)
    (hm' : m' ∈ L) (h : fieldFmt mergeKey m = fieldFmt mergeKey m') : m = m' :=
  List.inj_on_of_nodup_map hL.nodup hm hm' h

/-- Key values of one kind are equal when `%v` prints them alike. -/
theorem get?_mergeKey_eq_iff {L : List JSONMap} (hL : ∀ m ∈ L, (get? m mergeKey).isSome)
    (hkind : oneKind (L.map (mergeKeyValue mergeKey)) = true) {m m' : JSONMap} (hm : m ∈ L)
    (hm' : m' ∈ L) : get? m mergeKey = get? m' mergeKey ↔ fieldFmt mergeKey m = fieldFmt mergeKey m' := by
  obtain ⟨kd, hkd⟩ := oneKind_kind hkind
  obtain ⟨w, hw⟩ := Option.isSome_iff_exists.mp (hL m hm)
  obtain ⟨w', hw'⟩ := Option.isSome_iff_exists.mp (hL m' hm')
  have hs := hkd _ (List.mem_map_of_mem _ hm)
  have hs' := hkd _ (List.mem_map_of_mem _ hm')
  simp only [mergeKeyValue, hw, hw', Option.getD_some] at hs hs'
  simp only [fieldFmt, hw, hw', Option.getD_some, Option.some.injEq]
  exact ⟨fun h => h ▸ rfl, fmtV_inj_of_kind hs.1 (hs.2.trans hs'.2.symm)⟩

end Keys

/-! ## The diff -/

section Diff

variable {τ : Type} (S : Schema τ) {mergeKey : String}

theorem length_le_sizeList (L : List Value) : L.length ≤ size.sizeList L := by
  induction L with
  | nil => rfl
  | cons v L ih => have := one_le_size v; simp only [List.length_cons, size.sizeList]; omega

/-- The size of an element and one node for each other element fit in the size of a list. -/
theorem size_add_length_le_sizeList {v : Value} :
    ∀ {L : List Value}, v ∈ L → size v + L.length ≤ size.sizeList L + 1
  | _ :: L, .head _ => by
    have := length_le_sizeList L; simp only [List.length_cons, size.sizeList]; omega
  | w :: L, .tail _ h => by
    have := size_add_length_le_sizeList h; have := one_le_size w
    simp only [List.length_cons, size.sizeList]; omega

theorem sizeList_filter_le (p : Value → Bool) (L : List Value) :
    size.sizeList (L.filter p) ≤ size.sizeList L := by
  induction L with
  | nil => rfl
  | cons v L ih => rw [List.filter_cons]; split <;> simp only [size.sizeList] <;> omega

/-- The diff of two flat maps with the same key is `pairDiff` of the key. -/
theorem diffMaps_pairDiff {xs ys : List JSONMap} (hxs : KeyedList mergeKey xs)
    (hys : KeyedList mergeKey ys) {x y : JSONMap} (hx : x ∈ xs) (hy : y ∈ ys)
    (e : fieldFmt mergeKey x = fieldFmt mergeKey y) (t : τ) {n : Nat} (hn : y.length < n) :
    diffMaps S (n + 1) x y t false false = .ok (pairDiff mergeKey xs ys (fieldFmt mergeKey y)) := by
  rw [diffMaps_flat S (hxs.flat x hx) (hys.flat y hy) t false false n hn,
    pairDiff_eq hxs.nodup hys.nodup hx hy e]
  rfl

/-- **The diff of two keyed lists.** With a bound of the size of `original` and twice that of
`modified`, `diffLists` returns no deletion list, and a patch list with the elements of
`mapsDiffSpec` for the diffs `pairDiff`. -/
theorem diffLists_keyedLists {xs ys : List JSONMap} (hxs : KeyedList mergeKey xs)
    (hys : KeyedList mergeKey ys) (t : τ) {f : Nat}
    (hf : size (.array (xs.map .object)) + 2 * size (.array (ys.map .object)) + 1 ≤ f) :
    ∃ P, diffLists S (f + 1) (xs.map .object) (ys.map .object) t mergeKey false false =
        .ok (P, []) ∧ P.Perm (mapsDiffSpec mergeKey false false (pairDiff mergeKey xs ys) xs ys) := by
  cases xs with
  | nil =>
    -- nothing to pair: the modified list is the patch
    refine ⟨ys.map .object, ?_, by simp [mapsDiffSpec]⟩
    cases ys <;> rfl
  | cons x xs₀ =>
  have hsx := perm_goInsertionSort
    (fun a b => !strLess (fieldFmt mergeKey b) (fieldFmt mergeKey a)) (x :: xs₀)
  have hsy := perm_goInsertionSort
    (fun a b => !strLess (fieldFmt mergeKey b) (fieldFmt mergeKey a)) ys
  -- one bound for the diffs of all the pairs
  have hsize : ∀ y ∈ ys, y.length < size.sizeList (ys.map .object) - ys.length + 1 := fun y hy => by
    have := length_lt_size y
    have := size_add_length_le_sizeList (List.mem_map_of_mem Value.object hy)
    rw [List.length_map] at this
    omega
  obtain ⟨W, hW, hperm⟩ := mapsWalk_of_pairs
    (fun x y => diffMaps S (size.sizeList (ys.map .object) - ys.length + 1 + 1) x y t false false)
    (pairDiff mergeKey (x :: xs₀) ys) _ _
    (sorted_goInsertionSort_key (fieldFmt mergeKey) _) (sorted_goInsertionSort_key (fieldFmt mergeKey) _)
    ((hsx.map _).nodup_iff.mpr hxs.nodup) ((hsy.map _).nodup_iff.mpr hys.nodup)
    fun x' hx' y' hy' e => diffMaps_pairDiff S hxs hys (hsx.mem_iff.mp hx') (hsy.mem_iff.mp hy') e t
      (hsize y' (hsy.mem_iff.mp hy'))
  refine ⟨W, ?_, hperm.trans (mapsDiffSpec_perm hsx hsy)⟩
  obtain ⟨f', rfl⟩ : ∃ f', f = f' + 1 := ⟨f - 1, by simp only [size] at hf; omega⟩
  have hlen := length_le_sizeList ((x :: xs₀).map .object)
  have hlen' := length_le_sizeList (ys.map .object)
  simp only [List.length_map] at hlen hlen'
  have hloop := (loop_complete (fun x' hx' => hxs.hasKey x' (hsx.mem_iff.mp hx'))
    (fun y' hy' => hys.hasKey y' (hsy.mem_iff.mp hy'))
    (size.sizeList (ys.map .object) - ys.length + 1 + 1) f').1
    0 0 [] W (by rw [hsx.length_eq, hsy.length_eq]; simp only [size] at hf; omega) hW
  have hne : ((x :: xs₀).map Value.object).length ≠ 0 := by simp
  have ht : sliceElementType [(x :: xs₀).map .object, ys.map .object] = .ok .map :=
    sliceElementType_of_kind (by decide) (by decide) (by simp) fun v hv => by
      simp only [List.flatten_cons, List.flatten_nil, List.append_nil, List.mem_append,
        List.mem_map] at hv
      rcases hv with ⟨m, -, rfl⟩ | ⟨m, -, rfl⟩ <;> rfl
  have hrun : diffListsOfMaps S (f' + 1) ((x :: xs₀).map .object) (ys.map .object) t mergeKey
      false false = .ok W := by
    rw [diffListsOfMaps_eq, sortMergeListsByNameArray_objects, sortMergeListsByNameArray_objects]
    exact hloop
  simp only [diffLists, if_neg hne, ht, hrun]
  rfl

end Diff

/-! ## The patch without its deletions -/

/-- What the patch holds for a map of `modified`, but for `$patch: delete` elements: the map
itself when `original` lacks its key, otherwise the entry `pairEntry` makes of the diff of the two
maps with the key. -/
def patchElem (mergeKey : String) (original modified : List JSONMap) (y : JSONMap) : List Value :=
  if fieldFmt mergeKey y ∈ original.map (fieldFmt mergeKey) then
    pairEntry mergeKey y (pairDiff mergeKey original modified (fieldFmt mergeKey y))
  else [.object y]

section Elems

variable {mergeKey : String} {xs ys : List JSONMap}

/-- A flat patch that carries a scalar under the merge key is merged by key. -/
theorem FlatPatch.keyedMap {m : JSONMap} (hm : FlatPatch m) (mdl : Bool) {w : Value}
    (hw : get? m mergeKey = some w) (hws : w.isScalar) : KeyedMap mergeKey mdl m :=
  ⟨hm.nodup, hm.get?_directiveMarker, ⟨w, hw, hws⟩,
    fun _ hk e => (mergeTarget_key (hm.key hk).2 mdl).symm.trans e⟩

/-- An element of the patch for a modified map `y` is a flat patch with `y`'s key, and writes only
keys of `y` or of the original map with its key. -/
theorem patchElem_object (hxs : KeyedList mergeKey xs) (hys : KeyedList mergeKey ys) {y : JSONMap}
    (hy : y ∈ ys) {p : Value} (hp : p ∈ patchElem mergeKey xs ys y) :
    ∃ qm, p = .object qm ∧ FlatPatch qm ∧ get? qm mergeKey = get? y mergeKey ∧
      ∀ k ∈ keys qm, k ∈ keys (withKey mergeKey xs (fieldFmt mergeKey y)) ∨ k ∈ keys y := by
  have hyf := hys.flat y hy
  obtain ⟨w, hw⟩ := Option.isSome_iff_exists.mp (hys.hasKey y hy)
  unfold patchElem at hp
  split_ifs at hp with hc
  · -- a key both lists have: the diff with the key set
    obtain ⟨hx, hxy⟩ := mem_withKey hxs.nodup hc
    rw [pairDiff_eq hxs.nodup hys.nodup hx hy hxy] at hp
    simp only [pairEntry, mergeKeyValue, hw, Option.getD_some] at hp
    split_ifs at hp
    · obtain rfl := List.mem_singleton.mp hp
      refine ⟨_, rfl, (FlatPatch.twoWayPatch (hxs.flat _ hx) hyf).insert
        (hyf.key (mem_keys_of_isSome (hys.hasKey y hy))) (hyf.scalar _ (mem_of_get? hw)),
        by rw [get?_insert_self, hw], fun k hk => ?_⟩
      rcases mem_keys_insert hk with rfl | hk
      · exact .inr (mem_keys_of_isSome (hys.hasKey y hy))
      · exact mem_keys_twoWayPatch hyf.nodup hk
    · cases hp
  · -- a key only `modified` has: the map itself
    obtain rfl := List.mem_singleton.mp hp
    exact ⟨y, rfl, hyf.flatPatch, rfl, fun _ hk => .inr hk⟩

/-- An element of the patch for a modified map carries the map's key. -/
theorem keyValue_of_mem_patchElem (hxs : KeyedList mergeKey xs) (hys : KeyedList mergeKey ys)
    {y : JSONMap} (hy : y ∈ ys) {p : Value} (hp : p ∈ patchElem mergeKey xs ys y) :
    keyValue mergeKey p = get? y mergeKey := by
  obtain ⟨qm, rfl, -, hkey, -⟩ := patchElem_object hxs hys hy hp
  exact hkey

theorem directiveOf_of_mem_patchElem (hxs : KeyedList mergeKey xs) (hys : KeyedList mergeKey ys)
    {y : JSONMap} (hy : y ∈ ys) {p : Value} (hp : p ∈ patchElem mergeKey xs ys y) :
    directiveOf p = none := by
  obtain ⟨qm, rfl, hq, -⟩ := patchElem_object hxs hys hy hp
  exact hq.get?_directiveMarker

/-- The patch of the two-way diff of two lists of maps: the deletions, then the added maps and the
entries of the pairs. -/
theorem mapsDiffSpec_twoWay (D : String → JSONMap) :
    mapsDiffSpec mergeKey false false D xs ys =
      (xs.filter fun x => fieldFmt mergeKey x ∉ ys.map (fieldFmt mergeKey)).map
          (deleteEntry mergeKey) ++
        ((ys.filter fun y => fieldFmt mergeKey y ∉ xs.map (fieldFmt mergeKey)).map .object ++
          (ys.filter fun y => fieldFmt mergeKey y ∈ xs.map (fieldFmt mergeKey)).flatMap
            fun y => pairEntry mergeKey y (D (fieldFmt mergeKey y))) := by
  simp only [mapsDiffSpec, Bool.false_eq_true, if_false, List.append_assoc]

/-- Up to order, the added maps and the entries of the pairs are the elements `patchElem` gives
the modified maps. -/
theorem flatMap_patchElem_perm : ∀ L : List JSONMap,
    (L.flatMap (patchElem mergeKey xs ys)).Perm
      ((L.filter fun y => fieldFmt mergeKey y ∉ xs.map (fieldFmt mergeKey)).map .object ++
        (L.filter fun y => fieldFmt mergeKey y ∈ xs.map (fieldFmt mergeKey)).flatMap
          fun y => pairEntry mergeKey y (pairDiff mergeKey xs ys (fieldFmt mergeKey y)))
  | [] => .nil
  | y :: L => by
    by_cases hc : fieldFmt mergeKey y ∈ xs.map (fieldFmt mergeKey)
    · simp only [List.flatMap_cons, patchElem, if_pos hc, List.filter_cons, hc, not_true_eq_false,
        decide_False, decide_True, if_false, if_true]
      exact ((flatMap_patchElem_perm L).append_left _).trans (List.perm_append_comm_assoc _ _ _)
    · simp only [List.flatMap_cons, patchElem, if_neg hc, List.filter_cons, hc, not_false_eq_true,
        decide_False, decide_True, if_false, if_true, List.map_cons, List.singleton_append,
        List.cons_append]
      exact (flatMap_patchElem_perm L).cons _

/-- An element of the two-way patch is a deletion of a map only `original` has, or an element of
the patch for a modified map. -/
theorem mem_mapsDiffSpec {p : Value} :
    p ∈ mapsDiffSpec mergeKey false false (pairDiff mergeKey xs ys) xs ys ↔
      (∃ x ∈ xs, fieldFmt mergeKey x ∉ ys.map (fieldFmt mergeKey) ∧ deleteEntry mergeKey x = p) ∨
        ∃ y ∈ ys, p ∈ patchElem mergeKey xs ys y := by
  rw [mapsDiffSpec_twoWay, List.mem_append, ← (flatMap_patchElem_perm ys).mem_iff,
    List.mem_flatMap, List.mem_map]
  simp only [List.mem_filter, decide_eq_true_eq, and_assoc]

theorem directiveOf_deleteEntry (x : JSONMap) :
    directiveOf (deleteEntry mergeKey x) = some (.string deleteDirective) :=
  get?_insert_self _ _ _

theorem keyValue_deleteEntry (hmk : mergeKey ≠ directiveMarker) (x : JSONMap) :
    keyValue mergeKey (deleteEntry mergeKey x) = some (mergeKeyValue mergeKey x) := by
  show get? (insert _ _ _) mergeKey = _
  rw [get?_insert_ne _ _ hmk]
  simp [get?]

/-- Without its `$patch` elements, the two-way patch is, up to order, the elements `patchElem`
gives the modified maps. -/
theorem filter_mapsDiffSpec (hxs : KeyedList mergeKey xs) (hys : KeyedList mergeKey ys) :
    ((mapsDiffSpec mergeKey false false (pairDiff mergeKey xs ys) xs ys).filter
      fun p => (directiveOf p).isNone).Perm (ys.flatMap (patchElem mergeKey xs ys)) := by
  rw [mapsDiffSpec_twoWay, List.filter_append,
    List.filter_eq_nil_iff.mpr fun d hd => by
      obtain ⟨x, -, rfl⟩ := List.mem_map.mp hd
      simp [directiveOf_deleteEntry],
    List.nil_append, List.filter_eq_self.mpr fun p hp => by
      obtain ⟨y, hy, hp⟩ := List.mem_flatMap.mp ((flatMap_patchElem_perm ys).mem_iff.mpr hp)
      simp [directiveOf_of_mem_patchElem hxs hys hy hp]]
  exact (flatMap_patchElem_perm ys).symm

end Elems

/-- The first element a predicate holds of, when it holds of one element only. -/
theorem find?_eq_some_of_unique {α : Type} {p : α → Bool} {l : List α} {a : α} (ha : a ∈ l)
    (hp : p a = true) (h : ∀ b ∈ l, p b = true → b = a) : l.find? p = some a := by
  cases hf : l.find? p with
  | none => exact absurd hp (List.find?_eq_none.mp hf a ha)
  | some b => rw [h b (List.mem_of_find?_eq_some hf) (List.find?_some hf)]

theorem flatMap_eq_map_filter {α β : Type} {l : List α} {g : α → List β} {p : α → Bool}
    {f : α → β} (h : ∀ a ∈ l, g a = if p a then [f a] else []) :
    l.flatMap g = (l.filter p).map f := by
  induction l with
  | nil => rfl
  | cons a l ih =>
    rw [List.flatMap_cons, h a (List.mem_cons_self _ _),
      ih fun b hb => h b (List.mem_cons_of_mem _ hb), List.filter_cons]
    split <;> rfl

/-! ## The patch against the merge -/

section Apply

variable {mergeKey : String} {xs ys : List JSONMap} (hxs : KeyedList mergeKey xs)
  (hys : KeyedList mergeKey ys)

include hxs hys in
/-- Every element of the two-way patch is a `$patch: delete` element with the key of its map, or a
map merged by key. -/
theorem listPatchElem_of_mem (hmk : mergeKey ≠ directiveMarker) (mdl : Bool) {p : Value}
    (hp : p ∈ mapsDiffSpec mergeKey false false (pairDiff mergeKey xs ys) xs ys) :
    ListPatchElem mergeKey mdl p := by
  rcases mem_mapsDiffSpec.mp hp with ⟨x, hx, -, rfl⟩ | ⟨y, hy, hp⟩
  · obtain ⟨w, hw⟩ := Option.isSome_iff_exists.mp (hxs.hasKey x hx)
    have hkv := keyValue_deleteEntry hmk x
    rw [mergeKeyValue, hw, Option.getD_some] at hkv
    exact .delete (directiveOf_deleteEntry x) hkv ((hxs.flat x hx).scalar _ (mem_of_get? hw))
  · obtain ⟨qm, rfl, hq, hkey, -⟩ := patchElem_object hxs hys hy hp
    obtain ⟨w, hw⟩ := Option.isSome_iff_exists.mp (hys.hasKey y hy)
    exact .keyed (hq.keyedMap mdl (hkey.trans hw) ((hys.flat y hy).scalar _ (mem_of_get? hw)))

include hxs hys in
/-- A `$patch: delete` element of the two-way patch names a map of `original` exactly when
`modified` lacks its key. -/
theorem any_delete_iff (hmk : mergeKey ≠ directiveMarker) {P : List Value}
    (hP : P.Perm (mapsDiffSpec mergeKey false false (pairDiff mergeKey xs ys) xs ys)) {x : JSONMap}
    (hx : x ∈ xs) :
    (P.any fun d => hasDirective deleteDirective d && matchesKey mergeKey d (.object x)) = true ↔
      fieldFmt mergeKey x ∉ ys.map (fieldFmt mergeKey) := by
  rw [List.any_eq_true]
  constructor
  · rintro ⟨d, hd, h⟩
    rw [Bool.and_eq_true] at h
    rcases mem_mapsDiffSpec.mp (hP.mem_iff.mp hd) with ⟨x', hx', hn, rfl⟩ | ⟨y, hy, hd⟩
    · -- a deletion matches the map of its key only
      obtain ⟨w, hw⟩ := Option.isSome_iff_exists.mp (hxs.hasKey x' hx')
      have hkv := keyValue_deleteEntry hmk x'
      rw [mergeKeyValue, hw, Option.getD_some] at hkv
      have hxw : get? x mergeKey = some w :=
        (matchesKey_iff hkv ((hxs.flat x' hx').scalar _ (mem_of_get? hw))).mp h.2
      have e : fieldFmt mergeKey x = fieldFmt mergeKey x' := by simp only [fieldFmt, hxw, hw]
      rwa [e]
    · simp [hasDirective, directiveOf_of_mem_patchElem hxs hys hy hd] at h
  · intro hn
    obtain ⟨w, hw⟩ := Option.isSome_iff_exists.mp (hxs.hasKey x hx)
    have hkv := keyValue_deleteEntry hmk x
    rw [mergeKeyValue, hw, Option.getD_some] at hkv
    refine ⟨_, hP.mem_iff.mpr (mem_mapsDiffSpec.mpr (.inl ⟨x, hx, hn, rfl⟩)), ?_⟩
    simp only [hasDirective, directiveOf_deleteEntry, Bool.and_eq_true]
    exact ⟨by simp [deepEqual],
      (matchesKey_iff hkv ((hxs.flat x hx).scalar _ (mem_of_get? hw))).mpr hw⟩

include hxs hys in
/-- The deletions of the two-way patch leave the maps of `original` whose key `modified` has. -/
theorem filter_not_deleted (hmk : mergeKey ≠ directiveMarker) {P : List Value}
    (hP : P.Perm (mapsDiffSpec mergeKey false false (pairDiff mergeKey xs ys) xs ys)) :
    ((xs.map .object).filter fun o => !P.any fun d =>
        hasDirective deleteDirective d && matchesKey mergeKey d o) =
      (xs.filter fun x => fieldFmt mergeKey x ∈ ys.map (fieldFmt mergeKey)).map .object := by
  rw [List.filter_map]
  refine congrArg _ (List.filter_congr fun x hx => ?_)
  show (!P.any _) = decide _
  by_cases hc : fieldFmt mergeKey x ∈ ys.map (fieldFmt mergeKey)
  · rw [decide_eq_true hc, Bool.not_eq_true']
    exact Bool.eq_false_iff.mpr fun h => (any_delete_iff hxs hys hmk hP hx).mp h hc
  · rw [decide_eq_false hc, (any_delete_iff hxs hys hmk hP hx).mpr hc]
    rfl

include hxs hys in
/-- No element of the two-way patch is `$patch: replace`. -/
theorem any_replace_eq_false {P : List Value}
    (hP : P.Perm (mapsDiffSpec mergeKey false false (pairDiff mergeKey xs ys) xs ys)) :
    P.any (hasDirective replaceDirective) = false :=
  List.any_eq_false.mpr fun d hd => by
    rcases mem_mapsDiffSpec.mp (hP.mem_iff.mp hd) with ⟨x, -, -, rfl⟩ | ⟨y, hy, hd⟩
    · simp [hasDirective, directiveOf_deleteEntry, deepEqual, deleteDirective, replaceDirective]
    · simp [hasDirective, directiveOf_of_mem_patchElem hxs hys hy hd]

include hxs hys in
theorem object_of_mem_mapsDiffSpec {p : Value}
    (hp : p ∈ mapsDiffSpec mergeKey false false (pairDiff mergeKey xs ys) xs ys) :
    ∃ pm, p = .object pm := by
  rcases mem_mapsDiffSpec.mp hp with ⟨x, -, -, rfl⟩ | ⟨y, hy, hp⟩
  · exact ⟨_, rfl⟩
  · obtain ⟨qm, rfl, -⟩ := patchElem_object hxs hys hy hp
    exact ⟨qm, rfl⟩

include hxs hys in
/-- `sliceElementType` finds maps in the original list and the two-way patch, unless both lists
are empty. -/
theorem sliceElementType_twoWay {P : List Value}
    (hP : P.Perm (mapsDiffSpec mergeKey false false (pairDiff mergeKey xs ys) xs ys))
    (hne : ¬(xs = [] ∧ ys = [])) : sliceElementType [xs.map .object, P] = .ok .map := by
  refine sliceElementType_of_kind (by decide) (by decide) ?_ fun v hv => ?_
  · cases xs with
    | cons x _ => simp
    | nil =>
      obtain ⟨y, hy⟩ := List.exists_mem_of_ne_nil ys fun h => hne ⟨rfl, h⟩
      have hyP : Value.object y ∈ P := hP.mem_iff.mpr
        (mem_mapsDiffSpec.mpr (.inr ⟨y, hy, by simp [patchElem]⟩))
      simpa using List.ne_nil_of_mem hyP
  · simp only [List.flatten_cons, List.flatten_nil, List.append_nil, List.mem_append,
      List.mem_map] at hv
    rcases hv with ⟨m, -, rfl⟩ | hv
    · rfl
    · obtain ⟨pm, rfl⟩ := object_of_mem_mapsDiffSpec hxs hys (hP.mem_iff.mp hv)
      rfl

end Apply

/-! ## The merge returns -/

section Loop

variable {τ : Type} (S : Schema τ) {mergeKey : String}

/-- **The loop of `mergeSlice` returns** on a list of maps, for patch maps each with a scalar
merge-key value, whose merge into any map returns with twice their size as bound. -/
theorem mergeSliceLoop_ok (elemType : τ) (mdl iun : Bool) :
    ∀ (Q L : List Value) (fuel : Nat),
      (∀ q ∈ Q, ∃ qm, q = .object qm ∧ (∃ w, get? qm mergeKey = some w ∧ w.isScalar) ∧
        ∀ om, ∃ m, mergeMap S (2 * size q) om qm elemType mdl iun = .ok m) →
      (∀ v ∈ L, ∃ m, v = .object m) → 2 * size.sizeList Q + 1 ≤ fuel →
      ∃ R, mergeSliceLoop S fuel elemType mergeKey mdl iun Q L = .ok R
  | [], L, fuel, _, _, hf => by
    obtain ⟨f, rfl⟩ : ∃ f, fuel = f + 1 := ⟨fuel - 1, by omega⟩
    exact ⟨L, rfl⟩
  | q :: Q, L, fuel, hQ, hL, hf => by
    obtain ⟨f, rfl⟩ : ∃ f, fuel = f + 1 := ⟨fuel - 1, by omega⟩
    obtain ⟨qm, rfl, ⟨w, hw, hws⟩, hmerge⟩ := hQ _ (List.mem_cons_self _ _)
    have hQ' := fun q h => hQ q (List.mem_cons_of_mem _ h)
    have := one_le_size (.object qm)
    simp only [size.sizeList] at hf
    simp only [mergeSliceLoop, hw]
    rcases findMap_go_spec hws 0 L hL with ⟨hnone, -⟩ | ⟨A, m, B, rfl, -, hfind⟩
    · -- no map carries the value: the element is appended
      rw [show findMapInSliceBasedOnKeyValue L mergeKey w = _ from hnone]
      exact mergeSliceLoop_ok elemType mdl iun Q _ f hQ' (fun v hv => by
        rcases List.mem_append.mp hv with hv | hv
        · exact hL v hv
        · exact ⟨qm, List.mem_singleton.mp hv⟩) (by omega)
    · -- the first map with the value is merged with the element
      rw [show findMapInSliceBasedOnKeyValue _ mergeKey w = _ from hfind]
      obtain ⟨m', hm'⟩ := hmerge m
      rw [mergeMap_fuel_eq m qm elemType mdl iun le_rfl (show 2 * size (.object qm) ≤ f by
        omega)] at hm'
      simp only [bind, Except.bind, hm']
      exact mergeSliceLoop_ok elemType mdl iun Q _ f hQ' (fun v hv => by
        rcases List.mem_or_eq_of_mem_set hv with hv | rfl
        · exact hL v hv
        · exact ⟨m', rfl⟩) (by omega)

end Loop

/-! ## The merge by key -/

section Merge

variable {τ : Type} (S : Schema τ) (t : τ) {mergeKey : String} {xs ys : List JSONMap}
  (hxs : KeyedList mergeKey xs) (hys : KeyedList mergeKey ys)
  (hlook : ∀ m ∈ xs ++ ys, ∀ k ∈ keys m, ∃ r, S.lookupPatchMetadata t k = .ok r)

/-- The specification's merge of maps with distinct keys: each map is merged on its own, as it is
whatever maps before it, with keys of their own, were seen. -/
theorem mergeByKeyElems_forall₂ (mdl iun : Bool) {patch : List Value} {r : Value → JSONMap → Prop} :
    ∀ (L : List JSONMap) (seen : List Value),
      (∀ x ∈ L, ∀ sn : List Value, (∀ s ∈ sn, keyValue mergeKey s ≠ get? x mergeKey) →
        ∃ o', mergeByKeyElem S t mergeKey mdl iun patch sn (.object x) = .ok o' ∧ r o' x) →
      L.Pairwise (fun a b => get? a mergeKey ≠ get? b mergeKey) →
      (∀ s ∈ seen, ∀ x ∈ L, keyValue mergeKey s ≠ get? x mergeKey) →
      ∃ M, mergeByKeyElems S t mergeKey mdl iun patch seen (L.map .object) = .ok M ∧
        List.Forall₂ r M L
  | [], _, _, _, _ => ⟨[], rfl, .nil⟩
  | x :: L, seen, h, hp, hs => by
    obtain ⟨hx, hL⟩ := List.pairwise_cons.mp hp
    obtain ⟨o', he, hr⟩ := h x (List.mem_cons_self _ _) seen fun s hs' =>
      hs s hs' x (List.mem_cons_self _ _)
    obtain ⟨M, hM, hF⟩ := mergeByKeyElems_forall₂ mdl iun L (.object x :: seen)
      (fun x₂ h₂ => h x₂ (List.mem_cons_of_mem _ h₂)) hL fun s hs' x₂ h₂ => by
        rcases List.mem_cons.mp hs' with rfl | hs'
        · exact hx x₂ h₂
        · exact hs s hs' x₂ (List.mem_cons_of_mem _ h₂)
    exact ⟨o' :: M, mergeByKeyElems_cons_of_ok S t mdl iun he hM, .cons hr hF⟩

include hxs hys hlook in
/-- An element of the patch for a modified map merges into any map, to the map with the patch's
keys written. -/
theorem mergeMap_of_mem_patchElem (mdl : Bool) {y : JSONMap} (hy : y ∈ ys) {qm : JSONMap}
    (hq : .object qm ∈ patchElem mergeKey xs ys y) (om : JSONMap) :
    FlatPatch qm ∧ mergeMap S (2 * size (.object qm)) om qm t mdl true = .ok (qm.foldl mergeStep om) := by
  obtain ⟨qm', e, hqm, -, hkeys⟩ := patchElem_object hxs hys hy hq
  cases e
  have hlen := length_lt_size qm
  obtain ⟨n, hn⟩ : ∃ n, 2 * size (.object qm) = n + 1 := ⟨2 * size (.object qm) - 1, by omega⟩
  refine ⟨hqm, ?_⟩
  rw [hn]
  refine mergeMap_flat S om hqm.toFlatKeys t mdl true
    (fun kv h => (hqm.value kv h).imp_right fun e => ⟨e, rfl⟩) n (by omega) fun k hk _ => ?_
  rcases hkeys k hk with hk | hk
  · obtain ⟨m, hm, hk⟩ := mem_keys_withKey hk
    exact hlook m (List.mem_append_left _ hm) k hk
  · exact hlook y (List.mem_append_right _ hy) k hk

include hxs hys hlook in
/-- An element of the patch for a modified map is a map merged by key, whose merge into any map
writes its keys. -/
theorem patchElem_keyed (mdl : Bool) {y : JSONMap} (hy : y ∈ ys) {q : Value}
    (hq : q ∈ patchElem mergeKey xs ys y) :
    ∃ qm, q = .object qm ∧ KeyedMap mergeKey mdl qm ∧
      ∀ om, mergeMap S (2 * size q) om qm t mdl true = .ok (qm.foldl mergeStep om) := by
  obtain ⟨qm, rfl, hqm, hkey, -⟩ := patchElem_object hxs hys hy hq
  obtain ⟨w, hw⟩ := Option.isSome_iff_exists.mp (hys.hasKey y hy)
  exact ⟨qm, rfl, hqm.keyedMap mdl (hkey.trans hw) ((hys.flat y hy).scalar _ (mem_of_get? hw)),
    fun om => (mergeMap_of_mem_patchElem S t hxs hys hlook mdl hy hq om).2⟩

include hxs hys hlook in
/-- **A kept map is merged to its modified map.** Take a map of `original` whose key `modified`
has, maps seen before it with other keys, and a patch with the elements `patchElem` gives the
modified maps. The specification merges the map with the entry of its pair, if the diff is not
empty, and either way gives the modified map with that key, but for the order of its fields. -/
theorem mergeByKeyElem_kept (hkind : oneKind ((xs ++ ys).map (mergeKeyValue mergeKey)) = true)
    (mdl : Bool) {patch : List Value} (hpatch : ∀ p, p ∈ patch ↔ p ∈ ys.flatMap (patchElem mergeKey xs ys))
    {x : JSONMap} (hx : x ∈ xs) (hc : fieldFmt mergeKey x ∈ ys.map (fieldFmt mergeKey))
    (sn : List Value) (hsn : ∀ s ∈ sn, keyValue mergeKey s ≠ get? x mergeKey) :
    ∃ o', mergeByKeyElem S t mergeKey mdl true patch sn (.object x) = .ok o' ∧
      SameFields o' (.object (withKey mergeKey ys (fieldFmt mergeKey x))) := by
  have hkeys : ∀ m ∈ xs ++ ys, (get? m mergeKey).isSome := fun m hm =>
    (List.mem_append.mp hm).elim (hxs.hasKey m) (hys.hasKey m)
  obtain ⟨hy, hxy⟩ := mem_withKey hys.nodup hc
  generalize withKey mergeKey ys (fieldFmt mergeKey x) = y at hy hxy ⊢
  have hyx : get? y mergeKey = get? x mergeKey := (get?_mergeKey_eq_iff hkeys hkind
    (List.mem_append_right _ hy) (List.mem_append_left _ hx)).mpr hxy
  have hcy : fieldFmt mergeKey y ∈ xs.map (fieldFmt mergeKey) := hxy ▸ List.mem_map_of_mem _ hx
  -- the patch elements the specification would merge `x` with are those for `y`
  have hmatch : ∀ p ∈ patch,
      (matchesKey mergeKey p (.object x) && !sn.any (matchesKey mergeKey p)) = true ↔
        p ∈ patchElem mergeKey xs ys y := fun p hp => by
    obtain ⟨y', hy', hp'⟩ := List.mem_flatMap.mp ((hpatch p).mp hp)
    obtain ⟨w, hw⟩ := Option.isSome_iff_exists.mp (hys.hasKey y' hy')
    have hkv : keyValue mergeKey p = some w := (keyValue_of_mem_patchElem hxs hys hy' hp').trans hw
    have hws : w.isScalar := (hys.flat y' hy').scalar _ (mem_of_get? hw)
    rw [Bool.and_eq_true, matchesKey_iff hkv hws, Bool.not_eq_true', List.any_eq_false]
    constructor
    · rintro ⟨hxw, -⟩
      have hxw' : get? x mergeKey = some w := hxw
      have e : fieldFmt mergeKey y' = fieldFmt mergeKey y := by
        rw [hxy]; simp only [fieldFmt, hw, hxw']
      rwa [← hys.inj hy' hy e]
    · intro hpy
      have hxw : get? x mergeKey = some w :=
        hyx ▸ (keyValue_of_mem_patchElem hxs hys hy hpy).symm.trans hkv
      exact ⟨hxw, fun s hs h => hsn s hs (((matchesKey_iff hkv hws).mp h).trans hxw.symm)⟩
  have hD := pairDiff_eq hxs.nodup hys.nodup hx hy hxy.symm
  by_cases hne : (twoWayPatch x y).length > 0
  · -- the diff is not empty: its entry is the one patch element for `x`
    have hp : patchElem mergeKey xs ys y = [.object (insert (twoWayPatch x y) mergeKey
        (mergeKeyValue mergeKey y))] := by
      rw [patchElem, if_pos hcy, hD, pairEntry, if_pos hne]
    have hmem := (hpatch _).mpr (List.mem_flatMap.mpr ⟨y, hy, hp ▸ List.mem_singleton_self _⟩)
    have hfor : patchFor mergeKey patch sn (.object x) = some (.object (insert (twoWayPatch x y)
        mergeKey (mergeKeyValue mergeKey y))) :=
      find?_eq_some_of_unique hmem ((hmatch _ hmem).mpr (hp ▸ List.mem_singleton_self _))
        fun b hb h => List.mem_singleton.mp (hp ▸ (hmatch b hb).mp h)
    obtain ⟨hqm, hmerge⟩ := mergeMap_of_mem_patchElem S t hxs hys hlook mdl hy
      (hp ▸ List.mem_singleton_self _) x
    refine ⟨_, by unfold mergeByKeyElem; rw [hfor]; dsimp only; rw [hmerge]; rfl, _, _, rfl, rfl,
      fun k => ?_⟩
    rw [get?_foldl_mergeStep hqm.nodup (hxs.flat x hx).nodup, get?_insert]
    split_ifs with hk
    · subst hk
      obtain ⟨w, hw⟩ := Option.isSome_iff_exists.mp (hys.hasKey y hy)
      rw [mergeKeyValue, hw, Option.getD_some,
        mergeEntry_some (ne_null_of_isScalar ((hys.flat y hy).scalar _ (mem_of_get? hw)))]
    · exact mergeEntry_twoWayPatch (hxs.flat x hx) (hys.flat y hy) k
  · -- the diff is empty: no patch element for `x`, which is `y` already
    have hp : patchElem mergeKey xs ys y = [] := by
      rw [patchElem, if_pos hcy, hD, pairEntry, if_neg hne]
    have hfor : patchFor mergeKey patch sn (.object x) = none :=
      List.find?_eq_none.mpr fun b hb h => by simpa [hp] using (hmatch b hb).mp h
    refine ⟨_, by unfold mergeByKeyElem; rw [hfor]; rfl, _, _, rfl, rfl, fun k => ?_⟩
    have hnil : twoWayPatch x y = [] := List.eq_nil_of_length_eq_zero (by omega)
    have := mergeEntry_twoWayPatch (hxs.flat x hx) (hys.flat y hy) k
    rwa [hnil] at this

include hxs hys in
/-- The patch elements with a key no kept map of `original` has are the maps `modified` adds. -/
theorem filter_appended (hkind : oneKind ((xs ++ ys).map (mergeKeyValue mergeKey)) = true)
    {patch : List Value} (hpatch : patch.Perm (ys.flatMap (patchElem mergeKey xs ys))) :
    (patch.filter fun p => !((xs.filter fun x => fieldFmt mergeKey x ∈ ys.map (fieldFmt mergeKey)).map
        .object).any (matchesKey mergeKey p)).Perm
      ((ys.filter fun y => fieldFmt mergeKey y ∉ xs.map (fieldFmt mergeKey)).map .object) := by
  have hkeys : ∀ m ∈ xs ++ ys, (get? m mergeKey).isSome := fun m hm =>
    (List.mem_append.mp hm).elim (hxs.hasKey m) (hys.hasKey m)
  refine (hpatch.filter _).trans (List.Perm.of_eq ?_)
  rw [List.filter_flatMap]
  refine flatMap_eq_map_filter fun y hy => ?_
  obtain ⟨w, hw⟩ := Option.isSome_iff_exists.mp (hys.hasKey y hy)
  have hws : w.isScalar := (hys.flat y hy).scalar _ (mem_of_get? hw)
  by_cases hc : fieldFmt mergeKey y ∈ xs.map (fieldFmt mergeKey)
  · -- a key `original` has: the entry matches the kept map of the key
    obtain ⟨hx, hxy⟩ := mem_withKey hxs.nodup hc
    have hxw : get? (withKey mergeKey xs (fieldFmt mergeKey y)) mergeKey = some w :=
      ((get?_mergeKey_eq_iff hkeys hkind (List.mem_append_left _ hx)
        (List.mem_append_right _ hy)).mpr hxy).trans hw
    have hkept : withKey mergeKey xs (fieldFmt mergeKey y) ∈
        xs.filter fun x => fieldFmt mergeKey x ∈ ys.map (fieldFmt mergeKey) :=
      List.mem_filter.mpr ⟨hx, decide_eq_true (by rw [hxy]; exact List.mem_map_of_mem _ hy)⟩
    rw [if_neg (by simpa using hc)]
    refine List.filter_eq_nil_iff.mpr fun p hp h => ?_
    have hkv : keyValue mergeKey p = some w :=
      (keyValue_of_mem_patchElem hxs hys hy hp).trans hw
    simp only [Bool.not_eq_true', List.any_eq_false] at h
    exact h _ (List.mem_map_of_mem _ hkept) ((matchesKey_iff hkv hws).mpr hxw)
  · -- a key only `modified` has: the map itself, which matches no map of `original`
    rw [patchElem, if_neg hc, if_pos (by simpa using hc), List.filter_cons_of_pos, List.filter_nil]
    rw [Bool.not_eq_true']
    refine List.any_eq_false.mpr fun o ho h => hc ?_
    obtain ⟨x, hx, rfl⟩ := List.mem_map.mp ho
    have hxw : get? x mergeKey = get? y mergeKey :=
      ((matchesKey_iff (show keyValue mergeKey (.object y) = some w from hw) hws).mp h).trans hw.symm
    exact (get?_mergeKey_eq_iff hkeys hkind (List.mem_append_left _ (List.mem_filter.mp hx).1)
      (List.mem_append_right _ hy)).mp hxw ▸ List.mem_map_of_mem _ (List.mem_filter.mp hx).1

include hxs hys in
/-- The modified maps paired with the kept maps of `original` are, up to order, the modified maps
whose key `original` has. -/
theorem kept_perm :
    ((xs.filter fun x => fieldFmt mergeKey x ∈ ys.map (fieldFmt mergeKey)).map
        fun x => withKey mergeKey ys (fieldFmt mergeKey x)).Perm
      (ys.filter fun y => fieldFmt mergeKey y ∈ xs.map (fieldFmt mergeKey)) := by
  refine (List.perm_ext_iff_of_nodup (List.Nodup.map_on (fun x hx x' hx' e => ?_)
    ((hxs.nodup.of_map _).filter _)) ((hys.nodup.of_map _).filter _)).mpr fun y => ?_
  · have h := (mem_withKey hys.nodup (of_decide_eq_true (List.mem_filter.mp hx).2)).2
    have h' := (mem_withKey hys.nodup (of_decide_eq_true (List.mem_filter.mp hx').2)).2
    exact hxs.inj (List.mem_filter.mp hx).1 (List.mem_filter.mp hx').1 (h.symm.trans (e ▸ h'))
  · constructor
    · intro h
      obtain ⟨x, hx, rfl⟩ := List.mem_map.mp h
      obtain ⟨hx, hc⟩ := List.mem_filter.mp hx
      obtain ⟨hy, hxy⟩ := mem_withKey hys.nodup (of_decide_eq_true hc)
      exact List.mem_filter.mpr ⟨hy, decide_eq_true (by rw [hxy]; exact List.mem_map_of_mem _ hx)⟩
    · intro h
      obtain ⟨hy, hc⟩ := List.mem_filter.mp h
      obtain ⟨hx, hxy⟩ := mem_withKey hxs.nodup (of_decide_eq_true hc)
      exact List.mem_map.mpr ⟨_, List.mem_filter.mpr ⟨hx, decide_eq_true
        (by rw [hxy]; exact List.mem_map_of_mem _ hy)⟩, by rw [hxy, withKey_eq hys.nodup hy]⟩

include hxs hys in
/-- No two elements of the patch without its deletions carry one key. -/
theorem pairwise_patchElems :
    (ys.flatMap (patchElem mergeKey xs ys)).Pairwise
      fun p q => keyValue mergeKey p ≠ keyValue mergeKey q := by
  rw [List.pairwise_flatMap]
  refine ⟨fun y _ => ?_, (List.pairwise_map.mp hys.nodup).imp_of_mem
    fun hy₁ hy₂ hne p hp q hq e => hne ?_⟩
  · unfold patchElem pairEntry
    split_ifs <;> simp
  · rw [keyValue_of_mem_patchElem hxs hys hy₁ hp, keyValue_of_mem_patchElem hxs hys hy₂ hq] at e
    simp only [fieldFmt, e]

include hxs hys in
/-- No element of a list with the elements `patchElem` gives matches the key of another. -/
theorem pairwise_matchesKey {patch : List Value}
    (hpatch : patch.Perm (ys.flatMap (patchElem mergeKey xs ys))) :
    patch.Pairwise fun p q => matchesKey mergeKey p q = false :=
  ((hpatch.pairwise_iff fun h => Ne.symm h).mpr (pairwise_patchElems hxs hys)).imp_of_mem
    fun hp _ hne => by
      obtain ⟨y, hy, hp⟩ := List.mem_flatMap.mp (hpatch.mem_iff.mp hp)
      obtain ⟨w, hw⟩ := Option.isSome_iff_exists.mp (hys.hasKey y hy)
      have hkv := (keyValue_of_mem_patchElem hxs hys hy hp).trans hw
      exact Bool.eq_false_iff.mpr fun h =>
        hne (hkv.trans ((matchesKey_iff hkv ((hys.flat y hy).scalar _ (mem_of_get? hw))).mp h).symm)

end Merge

/-! ## The round trip -/

section RoundTrip

variable {τ : Type} (S : Schema τ) {mergeKey : String}

/-- **The merge half of the round trip.** A patch list with, in any order, the elements
`mapsDiffSpec` names for the diffs `pairDiff`, merged into `original` with a bound above twice its
size, gives `modified`, but for the order of its maps and of their fields. -/
theorem mergeSlice_of_mapsDiffSpec {xs ys : List JSONMap} (t : τ) (hxs : KeyedList mergeKey xs)
    (hys : KeyedList mergeKey ys) (hkind : oneKind ((xs ++ ys).map (mergeKeyValue mergeKey)) = true)
    (hmk : mergeKey ≠ "")
    (hlook : ∀ m ∈ xs ++ ys, ∀ k ∈ keys m, ∃ r, S.lookupPatchMetadata t k = .ok r)
    {P : List Value} (hperm : P.Perm (mapsDiffSpec mergeKey false false (pairDiff mergeKey xs ys) xs ys))
    {g : Nat} (hg : 2 * size.sizeList P + 1 ≤ g) (mdl isDeleteList : Bool) :
    ∃ R, mergeSlice S (g + 1) (xs.map .object) P t mergeKey mdl isDeleteList true = .ok R ∧
      ∃ R', List.Forall₂ SameFields R R' ∧ R'.Perm (ys.map .object) := by
  by_cases hemp : xs = [] ∧ ys = []
  · -- no map at all: nothing to merge
    obtain ⟨rfl, rfl⟩ := hemp
    obtain rfl : P = [] := by simpa [mapsDiffSpec] using hperm
    exact ⟨[], rfl, [], .nil, .nil⟩
  -- the merge key is a key of a flat map, so no key of the patch syntax
  obtain ⟨m, hm⟩ := List.exists_mem_of_ne_nil (xs ++ ys) (by simpa [List.append_eq_nil] using hemp)
  have hmkf := ((List.mem_append.mp hm).elim (hxs.flat m) (hys.flat m)).key
    (mem_keys_of_isSome ((List.mem_append.mp hm).elim (hxs.hasKey m) (hys.hasKey m)))
  -- the patch without its deletions: maps merged by key
  have hPnd := (hperm.filter fun p => (directiveOf p).isNone).trans (filter_mapsDiffSpec hxs hys)
  have hkeyed : ∀ q ∈ P.filter fun p => (directiveOf p).isNone, ∃ qm, q = .object qm ∧
      KeyedMap mergeKey mdl qm ∧
      ∀ om, mergeMap S (2 * size q) om qm t mdl true = .ok (qm.foldl mergeStep om) := fun q hq =>
    let ⟨_, hy, hq⟩ := List.mem_flatMap.mp (hPnd.mem_iff.mp hq)
    patchElem_keyed S t hxs hys hlook mdl hy hq
  rw [mergeSlice_of_maps S hmk g t mdl isDeleteList true (sliceElementType_twoWay hxs hys hperm hemp)
      (fun o ho => (List.mem_map.mp ho).imp fun m h => h.2.symm)
      (fun p hp => listPatchElem_of_mem hxs hys hmkf.1 mdl (hperm.mem_iff.mp hp)),
    any_replace_eq_false hxs hys hperm, if_neg Bool.false_ne_true,
    filter_not_deleted hxs hys hmkf.1 hperm]
  have hsize := sizeList_filter_le (fun p => (directiveOf p).isNone) P
  -- the loop returns
  obtain ⟨R, hR⟩ := mergeSliceLoop_ok S t mdl true _ _ g
    (fun q hq => (hkeyed q hq).imp fun _ h => ⟨h.1, h.2.1.scalar, fun om => ⟨_, h.2.2 om⟩⟩)
    (fun v hv => (List.mem_map.mp hv).imp fun x h => h.2.symm) (by omega)
  refine ⟨R, hR, ?_⟩
  -- what it returns is what `mergeByKey` specifies
  have hkept : ∀ o ∈ (xs.filter fun x => fieldFmt mergeKey x ∈ ys.map (fieldFmt mergeKey)).map
      Value.object, ∃ om, o = .object om ∧ (keys om).Nodup := fun o ho => by
    obtain ⟨x, hx, rfl⟩ := List.mem_map.mp ho
    exact ⟨x, rfl, (hxs.flat x (List.mem_filter.mp hx).1).nodup⟩
  have hspec := mergeSliceLoop_mergeByKey S mdl true hmkf.2 t hkept _ [] _ g R
    (fun q hq => (hkeyed q (by simpa using hq)).imp fun _ h => ⟨h.1, h.2.1⟩)
    (pairwise_matchesKey hxs hys hPnd) (by omega) (mergeByKeyElems_nil_patch S t mdl true [] _)
    (by simpa using hR)
  -- the kept maps, each merged to its modified map
  obtain ⟨M, hM, hF⟩ := @mergeByKeyElems_forall₂ _ S t mergeKey mdl true _
    (fun o' x => SameFields o' (.object (withKey mergeKey ys (fieldFmt mergeKey x))))
    (xs.filter fun x => fieldFmt mergeKey x ∈ ys.map (fieldFmt mergeKey)) []
    (fun x hx sn hsn => mergeByKeyElem_kept S t hxs hys hlook hkind mdl
      (fun p => (hPnd.mem_iff.trans (by rfl))) (List.mem_filter.mp hx).1
      (of_decide_eq_true (List.mem_filter.mp hx).2) sn hsn)
    (((List.pairwise_map.mp hxs.nodup).filter _).imp fun hne e => hne (by simp only [fieldFmt, e]))
    (by simp)
  simp only [List.nil_append, mergeByKey, hM, bind, Except.bind, pure, Except.pure,
    Except.ok.injEq] at hspec
  subst hspec
  refine ⟨_, List.rel_append (List.forall₂_map_right_iff.mpr (List.forall₂_map_right_iff.mpr hF))
    (List.forall₂_same.mpr fun a ha => ?_),
    (((kept_perm hxs hys).map Value.object).append (filter_appended hxs hys hkind hPnd)).trans ?_⟩
  · obtain ⟨qm, rfl, -⟩ := hkeyed a (List.mem_filter.mp ha).1
    exact ⟨qm, qm, rfl, rfl, fun _ => rfl⟩
  · rw [← List.map_append]
    simpa only [decide_not] using (List.filter_append_perm
      (fun y => decide (fieldFmt mergeKey y ∈ xs.map (fieldFmt mergeKey))) ys).map Value.object

end RoundTrip

end ClientGo.Strategicpatch
