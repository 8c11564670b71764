import ClientGo.Strategicpatch.MapListLaws

/-!
# The round trip on documents with merge lists of maps

A document field can hold a scalar, a list of scalars, or a merge list of flat maps keyed by the
merge key the type gives (`MapListAt`). For two such documents (`ListDoc`) whose lists at one key
agree in kind (`ListsAgree`), the two-way patch applies to the original and gives the modified
document, up to the order of merged lists and of the fields of their maps
(`twoWay_roundTrip_mapLists`).

The proof is the one of the round trip with lists of scalars, with one more kind of step. The loop
of `diffMaps` and the assembly of the patch are stated for any relation between the merged and the
modified entry (`diffMapsLoop_fields`, `twoWay_roundTrip_of_loop`); here the relation is
`SameEntry`. For one key of the modified document (`diffMapsLoop_cons_listDoc`) the step is the
one for scalars and their lists, or writes the value as it is (`diffMapsLoop_cons_set`), or, for
two merge lists of maps, appends the patch list the diff of the two lists returns; the merge of
that list gives the modified list back (`diffMapsLoop_cons_mapLists`, from the two halves
`diffLists_keyedLists` and `mergeSlice_of_mapsDiffSpec`). An empty patch list is not written, and
then the original list is already the modified one up to order (`mergeSlice_nil_patch`).

The bound of the diff is enough for the lists: at a key, the loop still has twice the size of the
original document and of the rest of the modified one, more than the diff of the two lists needs.
-/

namespace ClientGo.Strategicpatch

open Value JSONMap


theorem size_lt_of_get? {m : JSONMap} {k : String} {v : Value} (h : get? m k = some v) :
    size v < size (.object m) := by
  suffices hle : ∀ {m : JSONMap}, (k, v) ∈ m → size v ≤ size.sizeFields m by
    have := hle (mem_of_get? h); simp only [size]; omega
  intro m hm
  induction m with
  | nil => cases hm
  | cons kv m ih =>
    obtain ⟨k', v'⟩ := kv
    rcases List.mem_cons.mp hm with e | hm
    · cases e; simp only [size.sizeFields]; omega
    · have := ih hm; simp only [size.sizeFields]; omega

/-- A list of maps is a list of scalars only when it is empty. -/
theorem eq_nil_of_oneKind_objects {L : List JSONMap} (h : oneKind (L.map .object) = true) :
    L = [] := by
  cases L with
  | nil => rfl
  | cons x L => simp [oneKind, isScalar] at h

theorem oneKind_append {xs ys : List Value} (h : oneKind (xs ++ ys) = true) :
    oneKind xs = true ∧ oneKind ys = true := by
  simp only [oneKind, List.all_eq_true, Bool.and_eq_true, beq_iff_eq, List.mem_append] at h ⊢
  exact ⟨fun v hv => ⟨(h v (.inl hv)).1, fun w hw => (h v (.inl hv)).2 w (.inl hw)⟩,
    fun v hv => ⟨(h v (.inr hv)).1, fun w hw => (h v (.inr hv)).2 w (.inr hw)⟩⟩

/-- Next to a scalar, any entry passes `listsOfOneKind`. -/
theorem listsOfOneKind_of_isScalar (e : Option Value) {mv : Value} (hmv : mv.isScalar) :
    listsOfOneKind e (some mv) = true := by
  rcases e with _ | ⟨_ | _ | _ | _ | _ | _⟩ <;> cases mv <;> first | rfl | simp [isScalar] at hmv

section Doc

variable {τ : Type} (S : Schema τ)

/-- Two entries of the field `k` of a map of type `t` that are alike but for the order of the
elements of a list the type merges there and, in such a list of maps, the order of each map's
fields. -/
def SameEntry (t : τ) (k : String) (e e' : Option Value) : Prop :=
  SameUpToOrder S t k e e' ∨
    ∃ ft mk R R' ys, S.lookupPatchMetadata t k = .ok (ft, mergeDirective, mk) ∧
      e = some (.array R) ∧ e' = some (.array ys) ∧ List.Forall₂ SameFields R R' ∧ R'.Perm ys

/-- A merge list of flat maps at the key `k` of a map of type `t`: the type merges the field by
the merge key `mk`, which is not empty, and has metadata for the maps' keys at the element type,
and the maps carry the key with distinct `%v` strings (`KeyedList`). -/
structure MapListAt (t : τ) (k : String) (ft : τ) (mk : String) (L : List JSONMap) : Prop where
  lookup : S.lookupPatchMetadata t k = .ok (ft, mergeDirective, mk)
  mergeKey : mk ≠ ""
  keyed : KeyedList mk L
  elemLookup : ∀ m ∈ L, ∀ k' ∈ keys m, ∃ r, S.lookupPatchMetadata (S.elem ft) k' = .ok r

/-- A value the round trip takes at the key `k`: a scalar, a list of scalars of one kind without
repeats, or a merge list of flat maps. -/
def DocValue (t : τ) (k : String) (v : Value) : Prop :=
  v.isScalar ∨ v.isScalarList ∨ ∃ ft mk L, v = .array (L.map .object) ∧ MapListAt S t k ft mk L

variable {S} in
theorem DocValue.cases {t : τ} {k : String} {v : Value} (hv : DocValue S t k v) :
    v.isScalar ∨ ∃ xs, v = .array xs :=
  hv.imp_right fun h => h.elim (fun h => (isScalarList_iff.mp h).imp fun _ h => h.1)
    fun ⟨_, _, _, h, _⟩ => ⟨_, h⟩

variable {S} in
/-- A list of the round trip whose elements are scalars of one kind is a list of scalars without
repeats: a merge list of maps is one only when it is empty. -/
theorem DocValue.isScalarList {t : τ} {k : String} {xs : List Value}
    (hv : DocValue S t k (.array xs)) (h : oneKind xs = true) : (Value.array xs).isScalarList := by
  rcases hv with hv | hv | ⟨_, _, L, hL, -⟩
  · cases hv
  · exact hv
  · cases hL
    rw [eq_nil_of_oneKind_objects h]
    rfl

/-- A document of scalars, lists of scalars and merge lists of flat maps, with keys as a Go map
has them and none of them a key of the patch syntax. -/
structure ListDoc (t : τ) (m : JSONMap) extends FlatKeys m : Prop where
  value : ∀ kv ∈ m, DocValue S t kv.1 kv.2

/-- Where both documents hold a list at the key `k`, the two are lists of scalars of one kind, or
merge lists of maps with one merge key whose key values are of one kind. -/
def ListsAgree (t : τ) (k : String) : Option Value → Option Value → Prop
  | some (.array xs), some (.array ys) => oneKind (xs ++ ys) ∨ ∃ ft mk L L',
      xs = L.map .object ∧ ys = L'.map .object ∧ MapListAt S t k ft mk L ∧ MapListAt S t k ft mk L' ∧
      oneKind ((L ++ L').map (mergeKeyValue mk)) = true
  | _, _ => True

/-- An empty patch list leaves a list of maps as it is. -/
theorem mergeSlice_nil_patch {mergeKey : String} (hmk : mergeKey ≠ "") (fuel : Nat) (elemType : τ)
    (mdl idl iun : Bool) (L : List JSONMap) :
    mergeSlice S (fuel + 2) (L.map .object) [] elemType mergeKey mdl idl iun =
      .ok (L.map .object) := by
  cases L with
  | nil => rfl
  | cons x L =>
    have ht : sliceElementType [Value.object x :: L.map Value.object, []] = .ok .map :=
      sliceElementType_of_kind (by decide) (by decide) (by simp) fun v hv => by
        simp only [List.flatten_cons, List.flatten_nil, List.append_nil, List.mem_cons,
          List.mem_map] at hv
        rcases hv with rfl | ⟨m, -, rfl⟩ <;> rfl
    simp [mergeSlice, ht, hmk, applySpecialElements, mergeSliceLoop, bind, Except.bind]

variable (original : JSONMap) (t : τ)

/-- **Two merge lists of maps at one key.** On a key whose value in `original` and in `modified`
is a merge list of flat maps, with one merge key and key values of one kind, and a bound above the
size of the original list and twice that of the modified one, the loop of `diffMaps` appends the
patch list, when it is not empty; run on `original`'s list, it gives `modified`'s, but for the
order of the maps and of their fields. -/
theorem diffMapsLoop_cons_mapLists {f : Nat} {k : String} {ft : τ} {mk : String}
    {xs ys : List JSONMap} (hk : k ≠ directiveMarker)
    (hkp : hasPrefix k deleteFromPrimitiveListDirectivePrefix = false)
    (hxs : MapListAt S t k ft mk xs) (hys : MapListAt S t k ft mk ys)
    (hkind : oneKind ((xs ++ ys).map (mergeKeyValue mk)) = true)
    (ho : get? original k = some (.array (xs.map .object)))
    (hf : size (.array (xs.map .object)) + 2 * size (.array (ys.map .object)) + 2 ≤ f)
    (rest patch : JSONMap) (hfresh : ∀ kv ∈ patch, mergeTarget true kv.1 ≠ k) :
    ∃ E, diffMapsLoop S (f + 1) original t false false
          ((k, .array (ys.map .object)) :: rest) patch =
        diffMapsLoop S f original t false false rest (patch ++ E) ∧
      (∀ kv ∈ E, mergeTarget true kv.1 = k) ∧
      ∃ e, fieldRun S t true true E (some (.array (xs.map .object))) = .ok e ∧
        SameEntry S t k e (some (.array (ys.map .object))) := by
  obtain ⟨f', rfl⟩ : ∃ f', f = f' + 1 := ⟨f - 1, by omega⟩
  obtain ⟨P, hP, hperm⟩ := @diffLists_keyedLists _ S _ _ _ hxs.keyed hys.keyed (S.elem ft) f'
    (by omega)
  have hlook : ∀ m ∈ xs ++ ys, ∀ k' ∈ keys m, ∃ r, S.lookupPatchMetadata (S.elem ft) k' = .ok r :=
    fun m hm => (List.mem_append.mp hm).elim (hxs.elemLookup m) (hys.elemLookup m)
  -- the merge of the patch list, whatever it holds, gives the modified list back
  have hmerge := fun g (hg : 2 * size.sizeList P + 1 ≤ g) =>
    mergeSlice_of_mapsDiffSpec S (S.elem ft) hxs.keyed hys.keyed hkind hxs.mergeKey hlook hperm hg
      true false
  have hnew : k ∉ keys patch := fun hmem => by
    obtain ⟨kv, hkv, rfl⟩ := List.mem_map.mp hmem
    exact hfresh kv hkv (mergeTarget_key hkp true)
  simp only [diffMapsLoop, ho, if_neg hk, kind, ne_eq, not_true_eq_false, if_false, lookup,
    hxs.lookup, Except.mapError, if_true, hP, bind, Except.bind, List.length_nil, lt_self_iff_false]
  by_cases hPe : P.length > 0
  · -- the patch list is written under the key, and merged into the original list
    refine ⟨[(k, .array P)], by rw [if_pos hPe, insert_of_not_mem hnew], by
      simp [mergeTarget_key hkp], ?_⟩
    obtain ⟨R, hR, R', hF, hR'⟩ := hmerge (2 * size.sizeList P + 1) le_rfl
    refine ⟨some (.array R), ?_, .inr ⟨ft, mk, R, R', _, hxs.lookup, rfl, rfl, hF, hR'⟩⟩
    rw [fieldRun_single, show 2 * size (.array P) = 2 * size.sizeList P + 1 + 1 by
        simp only [size]; omega,
      mergeField_mergeList S t (splitDeleteListKey_plain hkp) hxs.lookup, hR]
    rfl
  · -- no patch list: the original list is the modified one, up to order
    obtain rfl : P = [] := List.eq_nil_of_length_eq_zero (by omega)
    obtain ⟨R, hR, R', hF, hR'⟩ := hmerge 1 (by simp [size.sizeList])
    rw [mergeSlice_nil_patch S hxs.mergeKey 0] at hR
    obtain rfl := Except.ok.inj hR
    exact ⟨[], by rw [if_neg hPe, List.append_nil], by simp, _, rfl,
      .inr ⟨ft, mk, _, R', _, hxs.lookup, rfl, rfl, hF, hR'⟩⟩


/-- **One key of a document with merge lists of maps.** On a key that is no key of the patch
syntax, whose value in `modified`, and in `original` when it has the key, is one the round trip
takes, with lists that agree in kind, and with a bound of twice the value's size and twice
`original`'s, the loop of `diffMaps` appends entries that write that key's field alone; run on
`original`'s entry, they give `modified`'s, up to `SameEntry`. -/
theorem diffMapsLoop_cons_listDoc {f : Nat} {k : String} {mv : Value} (hk : k ≠ directiveMarker)
    (hkp : hasPrefix k deleteFromPrimitiveListDirectivePrefix = false) (hmv : DocValue S t k mv)
    (ho : ∀ ov, get? original k = some ov → DocValue S t k ov ∧
      (∃ r, S.lookupPatchMetadata t k = .ok r) ∧ ListsAgree S t k (some ov) (some mv))
    (hf : 2 * size mv + 2 * size (.object original) ≤ f + 1) (rest patch : JSONMap)
    (hfresh : ∀ kv ∈ patch, mergeTarget true kv.1 ≠ k) :
    ∃ E, diffMapsLoop S (f + 1) original t false false ((k, mv) :: rest) patch =
        diffMapsLoop S f original t false false rest (patch ++ E) ∧
      (∀ kv ∈ E, mergeTarget true kv.1 = k) ∧
      ∃ e, fieldRun S t true true E (get? original k) = .ok e ∧ SameEntry S t k e (some mv) := by
  -- the value written as it is
  have hset : (∀ ov, get? original k = some ov → ov.kind ≠ mv.kind) → ∃ E,
      diffMapsLoop S (f + 1) original t false false ((k, mv) :: rest) patch =
        diffMapsLoop S f original t false false rest (patch ++ E) ∧
      (∀ kv ∈ E, mergeTarget true kv.1 = k) ∧
      ∃ e, fieldRun S t true true E (get? original k) = .ok e ∧ SameEntry S t k e (some mv) :=
    fun h =>
    let ⟨h1, h2⟩ := diffMapsLoop_cons_set S original t hk hkp hmv.cases h rest patch hfresh
    ⟨[(k, mv)], h1, by simp [mergeTarget_key hkp], _, h2, .inl (.inl rfl)⟩
  obtain hg | ⟨ov, hg⟩ : get? original k = none ∨ ∃ ov, get? original k = some ov := by
    cases get? original k <;> simp
  · exact hset fun ov h => by rw [hg] at h; cases h
  obtain ⟨hov, -, hagree⟩ := ho ov hg
  by_cases hkd : ov.kind = mv.kind
  swap
  · exact hset fun ov' h => Option.some.inj (hg.symm.trans h) ▸ hkd
  -- scalars and their lists: the step of the round trip with lists of scalars
  have hscalar : (ov.isScalar ∨ ov.isScalarList) → (mv.isScalar ∨ mv.isScalarList) →
      listsOfOneKind (some ov) (some mv) = true → ∃ E,
      diffMapsLoop S (f + 1) original t false false ((k, mv) :: rest) patch =
        diffMapsLoop S f original t false false rest (patch ++ E) ∧
      (∀ kv ∈ E, mergeTarget true kv.1 = k) ∧
      ∃ e, fieldRun S t true true E (get? original k) = .ok e ∧ SameEntry S t k e (some mv) :=
    fun h1 h2 h3 =>
      let ⟨E, h4, h5, e, he, hs⟩ := diffMapsLoop_cons_scalarLists S original t
        (by have := one_le_size mv; omega) hk hkp h2 (fun ov' h => by
          obtain rfl := Option.some.inj (hg.symm.trans h)
          exact ⟨h1, (ho ov hg).2.1, h3⟩) rest patch hfresh
      ⟨E, h4, h5, e, he, .inl hs⟩
  rcases hmv.cases with hmsc | ⟨ys, rfl⟩
  · -- a scalar: `original` holds a scalar of its kind
    refine hscalar (.inl (hov.cases.resolve_right ?_)) (.inl hmsc)
      (listsOfOneKind_of_isScalar _ hmsc)
    rintro ⟨xs, rfl⟩
    exact kind_ne_slice_of_isScalar hmsc hkd.symm
  obtain ⟨xs, rfl⟩ : ∃ xs, ov = .array xs := hov.cases.resolve_left fun h =>
    kind_ne_slice_of_isScalar h hkd
  rcases hagree with h | ⟨ft, mk, L, L', rfl, rfl, hL, hL', hkind⟩
  · -- two lists of scalars of one kind
    exact hscalar (.inr (hov.isScalarList (oneKind_append h).1))
      (.inr (hmv.isScalarList (oneKind_append h).2)) h
  · -- two merge lists of maps
    have hsize := size_lt_of_get? hg
    have := one_le_size (.array (L.map .object))
    rw [hg]
    exact diffMapsLoop_cons_mapLists S original t hk hkp hL hL' hkind hg (by omega) rest patch
      hfresh

end Doc

section RoundTrip

variable {τ : Type} (S : Schema τ)

/-- **Round trip with merge lists of maps.** For documents `a` and `b` of scalars, lists of
scalars and merge lists of flat maps, whose lists at one key agree in kind, and a type whose
metadata lookup succeeds for the keys of `a`, the patch from `a` to `b` applies to `a` and gives
`b`, but for the order of the elements of merged lists and of the fields of their maps. -/
theorem twoWay_roundTrip_mapLists (a b : JSONMap) (t : τ) (ha : ListDoc S t a) (hb : ListDoc S t b)
    (hagree : ∀ k ∈ keys a, ListsAgree S t k (get? a k) (get? b k))
    (hlook : ∀ k ∈ keys a, ∃ r, S.lookupPatchMetadata t k = .ok r) :
    ∃ patch r, CreateTwoWayMergeMapPatch S a b t [] = .ok patch ∧
      StrategicMergeMapPatch S a patch t = .ok r ∧ ∀ k, SameEntry S t k (get? r k) (get? b k) := by
  -- the loop of the diff visits the keys of `b`, each with the step for documents with lists
  obtain ⟨P, hP, hfields⟩ := diffMapsLoop_fields S a t hb.nodup (SameEntry S t)
    (show 1 ≤ 2 * size (.object a) by have := one_le_size (.object a); omega)
    (fun k mv hkmv f rest patch hf hfresh => by
      obtain ⟨hk, hkp⟩ := hb.key (List.mem_map_of_mem Prod.fst hkmv)
      have hmk : get? b k = some mv := get?_eq_some_of_mem hb.nodup hkmv
      refine diffMapsLoop_cons_listDoc S a t hk hkp (hb.value _ hkmv) (fun ov hov => ?_) hf rest
        patch hfresh
      have hko := mem_keys_of_isSome (show (get? a k).isSome by rw [hov]; rfl)
      exact ⟨ha.value _ (mem_of_get? hov), hlook k hko, hov ▸ hmk ▸ hagree k hko⟩)
    b (2 * (size (.object a) + size (.object b))) [] (by simp only [size]; omega) (fun _ h => h)
    hb.nodup (fun _ h => absurd h (List.not_mem_nil _))
  exact twoWay_roundTrip_of_loop S (fun _ => .inl (.inl rfl)) ha.toFlatKeys hb.toFlatKeys hP
    hfields

/-- `{"items": [{"name": "a", "v": 1}, {"name": "b", "v": 1}], "n": 1, "tags": ["x"]}` to
`{"items": [{"name": "b", "v": 2}, {"name": "c"}], "n": 2, "tags": ["x", "y"]}`, with every list
merged by `name`: a map deleted, one changed and one added, a scalar changed, and an element added
to a list of scalars. -/
theorem twoWay_roundTrip_mapLists_items :
    ∃ patch r, CreateTwoWayMergeMapPatch (uniformSchema "merge" "name")
        [("items", .array ([[("name", .string "a"), ("v", .number 1)],
          [("name", .string "b"), ("v", .number 1)]].map .object)), ("n", .number 1),
          ("tags", .array [.string "x"])]
        [("items", .array ([[("name", .string "b"), ("v", .number 2)],
          [("name", .string "c")]].map .object)), ("n", .number 2),
          ("tags", .array [.string "x", .string "y"])] () [] = .ok patch ∧
      StrategicMergeMapPatch (uniformSchema "merge" "name")
        [("items", .array ([[("name", .string "a"), ("v", .number 1)],
          [("name", .string "b"), ("v", .number 1)]].map .object)), ("n", .number 1),
          ("tags", .array [.string "x"])] patch () = .ok r ∧
      ∀ k, SameEntry (uniformSchema "merge" "name") () k (get? r k)
        (get? [("items", .array ([[("name", .string "b"), ("v", .number 2)],
          [("name", .string "c")]].map .object)), ("n", .number 2),
          ("tags", .array [.string "x", .string "y"])] k) :=
  twoWay_roundTrip_mapLists (uniformSchema "merge" "name") _ _ ()
    ⟨by decide, fun kv hkv => by
      simp only [List.mem_cons, List.mem_singleton, List.not_mem_nil, or_false] at hkv
      rcases hkv with rfl | rfl | rfl
      · exact .inr (.inr ⟨(), "name", _, rfl, rfl, by decide, by decide, fun _ _ _ _ => ⟨_, rfl⟩⟩)
      · exact .inl rfl
      · exact .inr (.inl rfl)⟩
    ⟨by decide, fun kv hkv => by
      simp only [List.mem_cons, List.mem_singleton, List.not_mem_nil, or_false] at hkv
      rcases hkv with rfl | rfl | rfl
      · exact .inr (.inr ⟨(), "name", _, rfl, rfl, by decide, by decide, fun _ _ _ _ => ⟨_, rfl⟩⟩)
      · exact .inl rfl
      · exact .inr (.inl rfl)⟩
    (fun k hk => by
      simp only [keys, List.map_cons, List.map_nil, List.mem_cons, List.mem_singleton,
        List.not_mem_nil, or_false] at hk
      rcases hk with rfl | rfl | rfl
      · exact .inr ⟨(), "name", _, _, rfl, rfl, ⟨rfl, by decide, by decide, fun _ _ _ _ => ⟨_, rfl⟩⟩,
          ⟨rfl, by decide, by decide, fun _ _ _ _ => ⟨_, rfl⟩⟩, by decide⟩
      · trivial
      · exact .inl rfl)
    fun _ _ => ⟨_, rfl⟩

end RoundTrip

end ClientGo.Strategicpatch
