import ClientGo.Strategicpatch.DocRoundTrip
import Mathlib.Data.Multiset.OrderedMonoid

/-!
# No patch between a document and a reordering of its merge lists

The merge treats a merge list as a set, and so does the diff. Two merge lists of scalars are
paired by their sorted `%v` strings, two merge lists of maps by their merge keys, and the order
of either list never reaches the patch. Take a document of scalars, lists of scalars and merge
lists of flat maps (`ListDoc`), and a second document that is the first but for the order of some
of its merge lists (`Reordered`). The two-way patch between them is empty
(`twoWay_patch_of_reordered`).

* A flat map's two-way patch against itself is empty (`twoWayPatch_self`). So is the patch of a
  keyed list of maps against a reordering of it (`mapsDiffSpec_of_perm`): every key is in both
  lists, and the two maps with one key are one map.
* The diff of a merge list against a reordering of it has no additions and no deletions
  (`diffLists_of_perm`). A scalar, or a list the type does not merge, is compared with itself by
  `reflect.DeepEqual`.
* So the loop of `diffMaps` writes nothing for any key (`diffMapsLoop_cons_reordered`,
  `diffMapsLoop_of_unchanged`). The two documents have the same keys, so `addDeletions` adds no
  `null` (`addDeletions_of_keys`).

The documents hold no nested map. The replace strategy is why: under a field with that strategy,
`diffMaps` writes the modified map into the patch without comparing it with the original.
-/

namespace ClientGo.Strategicpatch

open Value JSONMap

/-- A reordering of a list of images is the list of images of a reordering. -/
theorem exists_perm_of_perm_map {α β : Type} {f : α → β} {l l' : List β} (h : l.Perm l') :
    ∀ {L : List α}, l = L.map f → ∃ L', l' = L'.map f ∧ L.Perm L' := by
  induction h with
  | nil => exact fun hL => ⟨_, hL, .refl _⟩
  | cons x _ ih =>
    rintro (_ | ⟨a, L⟩) hL <;>
      simp only [List.map_nil, List.map_cons, reduceCtorEq, List.cons.injEq] at hL
    obtain ⟨L', rfl, hp⟩ := ih hL.2
    exact ⟨a :: L', by rw [hL.1, List.map_cons], hp.cons a⟩
  | swap x y l =>
    rintro (_ | ⟨a, _ | ⟨b, L⟩⟩) hL <;>
      simp only [List.map_nil, List.map_cons, reduceCtorEq, List.cons.injEq, and_false] at hL
    obtain ⟨rfl, rfl, rfl⟩ := hL
    exact ⟨b :: a :: L, rfl, .swap b a L⟩
  | trans _ _ ih₁ ih₂ =>
    intro L hL
    obtain ⟨L₁, rfl, h₁⟩ := ih₁ hL
    obtain ⟨L₂, rfl, h₂⟩ := ih₂ rfl
    exact ⟨L₂, rfl, h₁.trans h₂⟩

theorem KeyedList.perm {mergeKey : String} {L L' : List JSONMap} (h : KeyedList mergeKey L)
    (hp : L.Perm L') : KeyedList mergeKey L' :=
  ⟨fun m hm => h.flat m (hp.mem_iff.mpr hm), fun m hm => h.hasKey m (hp.mem_iff.mpr hm),
    (hp.map _).nodup_iff.mp h.nodup⟩

/-- On scalars, `reflect.DeepEqual` of a list with itself holds. -/
theorem deepEqualList_self {xs : List Value} (hxs : ∀ v ∈ xs, v.isScalar) :
    deepEqual.deepEqualList xs xs = true := by
  induction xs with
  | nil => rfl
  | cons x xs ih =>
    rw [List.forall_mem_cons] at hxs
    simp only [deepEqual.deepEqualList, (deepEqual_iff_of_isScalar hxs.1).mpr rfl, ih hxs.2,
      Bool.and_self]

/-- A flat map's two-way patch against itself is empty. -/
theorem twoWayPatch_self {m : JSONMap} (hm : Flat m) : twoWayPatch m m = [] := by
  have hnone : ∀ k, get? (twoWayPatch m m) k = none := fun k => by
    rw [get?_twoWayPatch hm.nodup]
    cases hk : get? m k with
    | none => rfl
    | some v => simp [(deepEqual_iff_of_isScalar (hm.scalar _ (mem_of_get? hk))).mpr rfl]
  cases hp : twoWayPatch m m with
  | nil => rfl
  | cons kv p => simpa [hp, get?] using hnone kv.1

/-- The two-way patch of a keyed list of maps against a reordering of it is empty: no key is in
one list only, and the two maps with one key are one map. -/
theorem mapsDiffSpec_of_perm {mergeKey : String} {L L' : List JSONMap} (hL : KeyedList mergeKey L)
    (hp : L.Perm L') : mapsDiffSpec mergeKey false false (pairDiff mergeKey L L') L L' = [] := by
  have hkeys : ∀ m, fieldFmt mergeKey m ∈ L.map (fieldFmt mergeKey) ↔
      fieldFmt mergeKey m ∈ L'.map (fieldFmt mergeKey) := fun _ => (hp.map _).mem_iff
  rw [mapsDiffSpec_twoWay]
  simp only [List.append_eq_nil, List.map_eq_nil_iff, List.filter_eq_nil_iff, decide_eq_true_eq,
    not_not, List.flatMap_eq_nil_iff, List.mem_filter]
  refine ⟨fun x hx => (hkeys x).mp (List.mem_map_of_mem _ hx),
    fun y hy => (hkeys y).mpr (List.mem_map_of_mem _ hy), fun y hy => ?_⟩
  have hyL := hp.mem_iff.mpr hy.1
  rw [pairDiff_eq hL.nodup (hL.perm hp).nodup hyL hy.1 rfl, twoWayPatch_self (hL.flat y hyL)]
  rfl

/-- `addDeletions` adds nothing when `modified` has every key of `original`. -/
theorem addDeletions_of_keys {modified : JSONMap} : ∀ {original : JSONMap} (patch : JSONMap),
    (∀ k ∈ keys original, k ∈ keys modified) → addDeletions modified original patch = patch
  | [], _, _ => rfl
  | (k, _) :: rest, patch, h => by
    have hk : (get? modified k).isSome := Option.ne_none_iff_isSome.mp
      (mt get?_eq_none_iff.mp (not_not.mpr (h k (List.mem_cons_self _ _))))
    rw [addDeletions, if_pos hk]
    exact addDeletions_of_keys patch fun k' hk' => h k' (List.mem_cons_of_mem _ hk')

section Reorder

variable {τ : Type} (S : Schema τ)

/-- The value `v'` at the key `k` is `v` but for the order of a list the type merges there. -/
def ReorderedValue (t : τ) (k : String) (v v' : Value) : Prop :=
  v = v' ∨ ∃ xs ys ft mk, v = .array xs ∧ v' = .array ys ∧
    S.lookupPatchMetadata t k = .ok (ft, mergeDirective, mk) ∧ xs.Perm ys

/-- `a'` is `a` but for the order of some of its merge lists: the same keys in the same order,
each value reordered so. -/
def Reordered (t : τ) (a a' : JSONMap) : Prop :=
  List.Forall₂ (fun kv kv' => kv.1 = kv'.1 ∧ ReorderedValue S t kv.1 kv.2 kv'.2) a a'

variable {S}

theorem Reordered.keys_eq {t : τ} {a a' : JSONMap} (h : Reordered S t a a') : keys a = keys a' := by
  induction h with
  | nil => rfl
  | cons hkv _ ih => exact congrArg₂ List.cons hkv.1 ih

theorem Reordered.exists_of_mem {t : τ} {a a' : JSONMap} (h : Reordered S t a a')
    {kv' : String × Value} (hm : kv' ∈ a') : ∃ v, (kv'.1, v) ∈ a ∧ ReorderedValue S t kv'.1 v kv'.2 := by
  induction h with
  | nil => cases hm
  | @cons kv _ _ _ hkv _ ih =>
    rcases List.mem_cons.mp hm with rfl | hm
    · exact ⟨kv.2, hkv.1 ▸ List.mem_cons_self _ _, hkv.1 ▸ hkv.2⟩
    · obtain ⟨v, hv, hr⟩ := ih hm
      exact ⟨v, List.mem_cons_of_mem _ hv, hr⟩

variable (S)

/-- **The diff of a merge list against a reordering of it.** On a list the round trip takes at a
key the type merges, and any reordering of it, with a bound of the size of the first list and
twice that of the second, `diffLists` returns no additions and no deletions. -/
theorem diffLists_of_perm {t : τ} {k : String} {ft : τ} {mk : String} {xs ys : List Value}
    (hv : DocValue S t k (.array xs)) (hl : S.lookupPatchMetadata t k = .ok (ft, mergeDirective, mk))
    (hp : xs.Perm ys) {f : Nat} (hf : size (.array xs) + 2 * size (.array ys) + 1 ≤ f) :
    diffLists S (f + 1) xs ys (S.elem ft) mk false false = .ok ([], []) := by
  rcases hv with hv | hv | ⟨ft', mk', L, hL, hm⟩
  · cases hv
  · -- a list of scalars: the multiset differences of the two lists' strings are empty
    simp only [isScalarList, Bool.and_eq_true, decide_eq_true_eq] at hv
    obtain ⟨kd, hkd⟩ := oneKind_kind hv.1
    obtain ⟨adds, dels, hd, -, -, hadds, hdels⟩ := @diffLists_scalars _ S f xs ys kd
      (fun v h => (List.mem_append.mp h).elim (hkd v) fun h => hkd v (hp.mem_iff.mpr h))
      (S.elem ft) mk
    have he : (xs.map fmtV : Multiset String) = ys.map fmtV := Multiset.coe_eq_coe.mpr (hp.map _)
    rw [← he, tsub_self, Multiset.coe_eq_zero, List.map_eq_nil_iff] at hadds
    rw [he, tsub_self, Multiset.coe_eq_zero, List.map_eq_nil_iff] at hdels
    rw [hd, hadds, hdels]
  · -- a merge list of maps: each map of either list is paired with itself
    obtain ⟨rfl, rfl⟩ : ft' = ft ∧ mk' = mk := by
      have := hm.lookup.symm.trans hl
      simp only [Except.ok.injEq, Prod.mk.injEq] at this
      exact ⟨this.1, this.2.2⟩
    cases hL
    obtain ⟨L', rfl, hLL'⟩ := exists_perm_of_perm_map hp rfl
    obtain ⟨P, hP, hperm⟩ := diffLists_keyedLists S hm.keyed (hm.keyed.perm hLL') (S.elem _) hf
    rw [mapsDiffSpec_of_perm hm.keyed hLL', List.perm_nil] at hperm
    rw [hP, hperm]

variable (original : JSONMap) (t : τ)

/-- **A key whose value is the original one but for the order of a merge list.** On a key that is
not `$patch`, whose value in `original` is one the round trip takes and in `modified` the same
value but for the order of a list the type merges, with a bound of twice the value's size and
twice `original`'s, the loop of `diffMaps` writes nothing. -/
theorem diffMapsLoop_cons_reordered {f : Nat} {k : String} {v v' : Value}
    (hk : k ≠ directiveMarker) (hv : DocValue S t k v) (hvv : ReorderedValue S t k v v')
    (ho : get? original k = some v) (hf : 2 * size v' + 2 * size (.object original) ≤ f + 1)
    (rest patch : JSONMap) :
    diffMapsLoop S (f + 1) original t false false ((k, v') :: rest) patch =
      diffMapsLoop S f original t false false rest patch := by
  have hsize := size_lt_of_get? ho
  -- a merge list against a reordering of it: no additions and no deletions
  have hmerge : ∀ xs ys ft mk, v = .array xs → v' = .array ys →
      S.lookupPatchMetadata t k = .ok (ft, mergeDirective, mk) → xs.Perm ys →
      diffMapsLoop S (f + 1) original t false false ((k, v') :: rest) patch =
        diffMapsLoop S f original t false false rest patch := by
    rintro xs ys ft mk rfl rfl hl hp
    have := one_le_size (.array xs)
    obtain ⟨f', rfl⟩ : ∃ f', f = f' + 1 := ⟨f - 1, by omega⟩
    simp only [diffMapsLoop, ho, if_neg hk, kind, ne_eq, not_true_eq_false, if_false, lookup, hl,
      Except.mapError, if_true, @diffLists_of_perm _ S t k ft mk xs ys hv hl hp f' (by omega), bind,
      Except.bind, List.length_nil, gt_iff_lt, lt_self_iff_false]
  obtain rfl | ⟨xs, ys, ft, mk, hxs, hys, hl, hp⟩ := hvv
  on_goal 2 => exact hmerge xs ys ft mk hxs hys hl hp
  rcases hv.cases with hsc | ⟨xs, rfl⟩
  · -- a scalar: `reflect.DeepEqual` to itself
    have hde := (deepEqual_iff_of_isScalar hsc).mpr rfl
    cases v <;> simp only [isScalar, Bool.false_eq_true] at hsc <;>
      simp only [diffMapsLoop, ho, if_neg hk, ne_eq, not_true_eq_false, if_false, hde,
        Bool.not_true, Bool.and_false, Bool.false_eq_true]
  by_cases hm : ∃ ft mk, S.lookupPatchMetadata t k = .ok (ft, mergeDirective, mk)
  · obtain ⟨ft, mk, hl⟩ := hm
    exact hmerge xs xs ft mk rfl rfl hl (.refl _)
  -- a list the type does not merge: a list of scalars, `reflect.DeepEqual` to itself
  have hsl : ∀ w ∈ xs, w.isScalar := by
    rcases hv with hv | hv | ⟨ft, mk, L, -, hL⟩
    · cases hv
    · simp only [isScalarList, Bool.and_eq_true] at hv
      exact fun w hw => ((oneKind_kind hv.1).choose_spec w hw).1
    · exact absurd ⟨ft, mk, hL.lookup⟩ hm
  have hde : (Value.array xs).deepEqual (.array xs) = true := deepEqualList_self hsl
  cases hl : S.lookupPatchMetadata t k with
  | error e =>
    simp only [diffMapsLoop, ho, if_neg hk, kind, ne_eq, not_true_eq_false, if_false, lookup, hl,
      Except.mapError, hde, if_true]
  | ok r =>
    obtain ⟨ft, strategy, mk⟩ := r
    have hs : strategy ≠ mergeDirective := fun h => hm ⟨ft, mk, h ▸ hl⟩
    simp only [diffMapsLoop, ho, if_neg hk, kind, ne_eq, not_true_eq_false, if_false, lookup, hl,
      Except.mapError, if_neg hs, hde, Bool.not_true, Bool.and_false, Bool.false_eq_true]

/-- **A loop that writes nothing.** If on every key of `modified` the step of the loop of
`diffMaps` leaves the patch as it is, given a bound of twice the key's value size plus `B`, the
loop over keys of `modified`, with a bound of twice their sizes plus `B`, returns the patch it
started from. -/
theorem diffMapsLoop_of_unchanged {modified : JSONMap} {B : Nat} (hB : 1 ≤ B)
    (hstep : ∀ k mv, (k, mv) ∈ modified → ∀ f rest patch, 2 * size mv + B ≤ f + 1 →
      diffMapsLoop S (f + 1) original t false false ((k, mv) :: rest) patch =
        diffMapsLoop S f original t false false rest patch) :
    ∀ (rest : JSONMap) (fuel : Nat) (patch : JSONMap), 2 * size.sizeFields rest + B ≤ fuel →
      (∀ kv ∈ rest, kv ∈ modified) →
      diffMapsLoop S fuel original t false false rest patch = .ok patch
  | [], fuel, patch, hf, _ => by
    obtain ⟨f, rfl⟩ : ∃ f, fuel = f + 1 := ⟨fuel - 1, by omega⟩
    rw [diffMapsLoop]
  | (k, mv) :: rest, fuel, patch, hf, hsub => by
    have := one_le_size mv
    simp only [size.sizeFields] at hf
    obtain ⟨f, rfl⟩ : ∃ f, fuel = f + 1 := ⟨fuel - 1, by omega⟩
    rw [hstep k mv (hsub _ (List.mem_cons_self _ _)) f rest patch (by omega)]
    exact diffMapsLoop_of_unchanged hB hstep rest f patch (by omega)
      fun kv h => hsub kv (List.mem_cons_of_mem _ h)

/-- **The two-way patch of a reordering is empty.** For a document `a` of scalars, lists of
scalars and merge lists of flat maps, and a document `a'` that is `a` but for the order of some
of the lists the type merges, `CreateTwoWayMergeMapPatch` returns the empty patch. -/
theorem twoWay_patch_of_reordered (a a' : JSONMap) (t : τ) (ha : ListDoc S t a)
    (hr : Reordered S t a a') : CreateTwoWayMergeMapPatch S a a' t [] = .ok [] := by
  have hloop := @diffMapsLoop_of_unchanged _ S a t a' (2 * size (.object a))
    (by have := one_le_size (.object a); omega)
    (fun k v' hkv f rest patch hf => by
      obtain ⟨v, hv, hvv⟩ := hr.exists_of_mem hkv
      exact diffMapsLoop_cons_reordered S a t (ha.not_directive _ hv) (ha.value _ hv) hvv
        (get?_eq_some_of_mem ha.nodup hv) hf rest patch)
    a' (2 * (size (.object a) + size (.object a'))) [] (by simp only [size]; omega) fun _ h => h
  simp only [CreateTwoWayMergeMapPatch, diffMaps, hloop, bind, Except.bind, pure, Except.pure,
    addDeletions_of_keys [] fun k hk => hr.keys_eq ▸ hk, checkPreconditions, List.all_nil,
    if_true, Bool.false_eq_true, if_false]

/-- `{"items": [{"name": "a", "v": 1}, {"name": "b"}], "tags": ["x", "y"], "n": 1}` against the
same document with both lists reversed, every list merged by `name`: the patch is empty. -/
theorem twoWay_patch_of_reordered_swapped :
    CreateTwoWayMergeMapPatch (uniformSchema "merge" "name")
      [("items", .array ([[("name", .string "a"), ("v", .number 1)], [("name", .string "b")]].map
          .object)), ("tags", .array [.string "x", .string "y"]), ("n", .number 1)]
      [("items", .array ([[("name", .string "b")], [("name", .string "a"), ("v", .number 1)]].map
          .object)), ("tags", .array [.string "y", .string "x"]), ("n", .number 1)] () [] =
      .ok [] :=
  twoWay_patch_of_reordered (uniformSchema "merge" "name") _ _ ()
    ⟨by decide, fun kv hkv => by
      simp only [List.mem_cons, List.mem_singleton, List.not_mem_nil, or_false] at hkv
      rcases hkv with rfl | rfl | rfl
      · exact .inr (.inr ⟨(), "name", _, rfl, rfl, by decide, by decide, fun _ _ _ _ => ⟨_, rfl⟩⟩)
      · exact .inr (.inl rfl)
      · exact .inl rfl⟩
    (.cons ⟨rfl, .inr ⟨_, _, (), "name", rfl, rfl, rfl, .swap _ _ _⟩⟩
      (.cons ⟨rfl, .inr ⟨_, _, (), "name", rfl, rfl, rfl, .swap _ _ _⟩⟩ (.cons ⟨rfl, .inl rfl⟩ .nil)))

end Reorder

end ClientGo.Strategicpatch
