import ClientGo.Strategicpatch.MergeOrder
import ClientGo.Strategicpatch.ScalarMerge

/-!
# Merging lists of maps by key

The loop of `mergeSlice` over a patch of maps takes each patch element in turn, looks up with
`findMapInSliceBasedOnKeyValue` the first map of the list that carries its merge-key value, and
merges the two with `mergeMap`, or appends the element when no map carries the value.

`mergeByKey` says what this is for, walking the original list instead of the patch: each map of
`original` that is the first to carry the merge-key value of a patch element is merged with that
element, and the patch elements whose value no map carries are appended, in the patch's order.
On patch elements with distinct scalar merge-key values the loop computes it
(`mergeSliceLoop_refines_mergeByKey`). The proof follows the loop: a merge keeps the merge-key
value (`mergeMap_keyValue`), so the maps of the list keep theirs, the lookup finds the map the
specification merges, and one more patch element changes the specification's list at that map
alone (`mergeByKeyElems_snoc`).

Before that loop, `mergeSlice` applies the `$patch` elements of the patch: the deletion loop
removes every map that carries the value a `$patch: delete` element names (`deleteMatching_filter`),
and `$patch: replace` makes the result the patch without its directives
(`applySpecialElements_eq`). `mergeSlice_maps` puts the map branch of `mergeSlice` together.
-/

namespace ClientGo.Strategicpatch

open Value JSONMap

/-- The merge-key value of an element of a list of maps. -/
def keyValue (mergeKey : String) : Value → Option Value
  | .object m => get? m mergeKey
  | _ => none

/-- Whether the map `o` carries the merge-key value of the patch element `p`: the test
`ok && valueToMatch == value` of `findMapInSliceBasedOnKeyValue`, false where `==` panics. -/
def matchesKey (mergeKey : String) (p o : Value) : Bool :=
  match keyValue mergeKey p, keyValue mergeKey o with
  | some value, some valueToMatch =>
    match goEq valueToMatch value with
    | .ok b => b
    | .error _ => false
  | _, _ => false

/-- A patch element the loop merges by key: a map with distinct keys and no `$patch` directive,
whose merge key holds a scalar that no other of its keys writes. -/
structure KeyedMap (mergeKey : String) (mdl : Bool) (m : JSONMap) : Prop where
  nodup : (keys m).Nodup
  noDirective : get? m directiveMarker = none
  scalar : ∃ w, get? m mergeKey = some w ∧ w.isScalar
  onlyKey : ∀ k ∈ keys m, mergeTarget mdl k = mergeKey → k = mergeKey

section Spec

variable {τ : Type} (S : Schema τ) (t : τ) (mergeKey : String) (mdl iun : Bool)

/-- The patch element the map `o` is merged with: the first whose merge-key value `o` carries,
unless a map before `o` (in `seen`) carries it too. -/
def patchFor (patch seen : List Value) (o : Value) : Option Value :=
  patch.find? fun p => matchesKey mergeKey p o && !seen.any (matchesKey mergeKey p)

/-- The map `o` merged with its patch element, if it has one. -/
def mergeByKeyElem (patch seen : List Value) (o : Value) : Except Failure Value :=
  match o, patchFor mergeKey patch seen o with
  | .object om, some (.object pm) =>
    Value.object <$> mergeMap S (2 * size (.object pm)) om pm t mdl iun
  | _, _ => pure o

/-- Every map of a list merged with its patch element; `seen` holds the maps before it. -/
def mergeByKeyElems (patch : List Value) : List Value → List Value → Except Failure (List Value)
  | _, [] => pure []
  | seen, o :: os => do
    let o' ← mergeByKeyElem S t mergeKey mdl iun patch seen o
    let os' ← mergeByKeyElems patch (o :: seen) os
    pure (o' :: os')

/-- **What merging a list of maps by key is for.** Every map of `original` that is the first to
carry the merge-key value of a patch element is merged with it, and the patch elements whose
value no map of `original` carries are appended, in the patch's order. -/
def mergeByKey (original patch : List Value) : Except Failure (List Value) := do
  let merged ← mergeByKeyElems S t mergeKey mdl iun patch [] original
  pure (merged ++ patch.filter fun p => !original.any (matchesKey mergeKey p))

end Spec

/-! ## Merge-key values -/

section Keys

variable {mergeKey : String}

/-- Against a scalar, Go's `==` is equality and never panics. -/
theorem goEq_scalar {w : Value} (hw : w.isScalar) (x : Value) :
    ∃ b, goEq x w = .ok b ∧ (b = true ↔ x = w) := by
  cases x <;> cases w <;> simp_all [goEq, isScalar]

theorem matchesKey_iff {p o w : Value} (hp : keyValue mergeKey p = some w) (hw : w.isScalar) :
    matchesKey mergeKey p o = true ↔ keyValue mergeKey o = some w := by
  unfold matchesKey
  rw [hp]
  cases keyValue mergeKey o with
  | none => simp
  | some x =>
    obtain ⟨b, hb, hiff⟩ := goEq_scalar hw x
    simp only [hb, hiff, Option.some.injEq]

theorem mergeTarget_key (hk : hasPrefix mergeKey deleteFromPrimitiveListDirectivePrefix = false)
    (mdl : Bool) : mergeTarget mdl mergeKey = mergeKey := by
  simp [mergeTarget, splitDeleteListKey, hk]

/-- The merge key of a patch element is written by the merge key alone. -/
theorem keysOfField_key (hk : hasPrefix mergeKey deleteFromPrimitiveListDirectivePrefix = false)
    {mdl : Bool} {pm : JSONMap} (hp : KeyedMap mergeKey mdl pm) {w : Value}
    (hw : get? pm mergeKey = some w) : keysOfField mdl pm mergeKey = [(mergeKey, w)] := by
  have hall : ∀ kv ∈ keysOfField mdl pm mergeKey, kv = (mergeKey, w) := fun kv hkv => by
    obtain ⟨hmem, htarget⟩ := mem_keysOfField.mp hkv
    have h1 : kv.1 = mergeKey := hp.onlyKey kv.1 (List.mem_map_of_mem Prod.fst hmem) htarget
    have h2 := get?_eq_some_of_mem hp.nodup hmem
    rw [h1, hw] at h2
    exact Prod.ext h1 (Option.some.inj h2).symm
  have hnodup : (keys (keysOfField mdl pm mergeKey)).Nodup :=
    hp.nodup.sublist ((List.filter_sublist _).map _)
  have hmem : (mergeKey, w) ∈ keysOfField mdl pm mergeKey :=
    mem_keysOfField.mpr ⟨mem_of_get? hw, mergeTarget_key hk mdl⟩
  generalize keysOfField mdl pm mergeKey = l at hall hnodup hmem ⊢
  obtain ⟨n, rfl⟩ : ∃ n, l = List.replicate n (mergeKey, w) :=
    ⟨_, List.eq_replicate_iff.mpr ⟨rfl, hall⟩⟩
  simp only [keys, List.map_replicate, List.nodup_replicate] at hnodup
  rcases n with _ | _ | n
  · simp at hmem
  · rfl
  · omega

end Keys

section Merge

variable {τ : Type} (S : Schema τ) (t : τ) {mergeKey : String} (mdl iun : Bool)

/-- The merge key's own entry, merged into the same scalar, stays. -/
theorem mergeField_key (hk : hasPrefix mergeKey deleteFromPrimitiveListDirectivePrefix = false)
    {f : Nat} {w : Value} (hw : w.isScalar) {e : Option Value}
    (h : mergeField S f t mdl iun mergeKey w (some w) = .ok e) : e = some w := by
  cases w <;> simp only [isScalar, Bool.false_eq_true] at hw <;>
    simp only [mergeField, hk, splitDeleteListKey, Bool.false_eq_true, false_and, if_false, kind,
      reduceCtorEq, if_true, bind, Except.bind] at h <;>
    split at h <;> cases h <;> rfl

/-- **A merge keeps the merge key.** Merging a patch element into a map that carries its
merge-key value gives a map with distinct keys that carries the same value. -/
theorem mergeMap_keyValue (hk : hasPrefix mergeKey deleteFromPrimitiveListDirectivePrefix = false)
    {om pm : JSONMap} (ho : (keys om).Nodup) (hp : KeyedMap mergeKey mdl pm)
    (hkey : get? om mergeKey = get? pm mergeKey) {n : Nat} (hn : 2 * size (.object pm) ≤ n)
    {m : JSONMap} (h : mergeMap S n om pm t mdl iun = .ok m) :
    (keys m).Nodup ∧ get? m mergeKey = get? pm mergeKey := by
  obtain ⟨w, hw, hws⟩ := hp.scalar
  obtain ⟨f, rfl⟩ : ∃ f, n = f + 1 := ⟨n - 1, by have := one_le_size (.object pm); omega⟩
  simp only [mergeMap, hp.noDirective] at h
  simp only [size] at hn
  obtain ⟨hnodup, hfields⟩ := mergeMapLoop_fields t mdl iun pm om m f ho (by omega) h
  have hrun := hfields mergeKey
  rw [keysOfField_key hk hp hw, hkey, hw] at hrun
  simp only [fieldRun, List.foldlM_cons, List.foldlM_nil] at hrun
  obtain ⟨e, he, hpure⟩ := bind_eq_ok.mp hrun
  rw [mergeField_key S t mdl iun hk hws he] at hpure
  exact ⟨hnodup, by rw [hw]; exact (Except.ok.inj hpure).symm⟩

end Merge

/-! ## The lookup -/

section Lookup

variable {mergeKey : String} {w : Value}

theorem isComparable_of_isScalar (hw : w.isScalar) : w.isComparable := by
  cases w <;> simp_all [isScalar, isComparable]

theorem findMap_go_cons_eq {am : JSONMap} (hw : w.isScalar) (h : get? am mergeKey = some w)
    (k : Nat) (L : List Value) :
    findMapInSliceBasedOnKeyValue.go mergeKey w k (.object am :: L) = .ok (some (am, k)) := by
  simp only [findMapInSliceBasedOnKeyValue.go, h, goEq_self (isComparable_of_isScalar hw)]
  rfl

theorem findMap_go_cons_ne {am : JSONMap} (hw : w.isScalar) (h : get? am mergeKey ≠ some w)
    (k : Nat) (L : List Value) :
    findMapInSliceBasedOnKeyValue.go mergeKey w k (.object am :: L) =
      findMapInSliceBasedOnKeyValue.go mergeKey w (k + 1) L := by
  simp only [findMapInSliceBasedOnKeyValue.go]
  cases hv : get? am mergeKey with
  | none => rfl
  | some x =>
    obtain ⟨b, hb, hiff⟩ := goEq_scalar hw x
    have hb' : b = false := by
      rw [hv] at h
      exact Bool.eq_false_iff.mpr fun hb' => h (congrArg some (hiff.mp hb'))
    simp only [hb, hb', bind, Except.bind, Bool.false_eq_true, if_false]

/-- No map of the list carries the value: the lookup finds nothing. -/
theorem findMap_go_none (hw : w.isScalar) : ∀ (k : Nat) (L : List Value),
    (∀ a ∈ L, ∃ am, a = .object am ∧ get? am mergeKey ≠ some w) →
    findMapInSliceBasedOnKeyValue.go mergeKey w k L = .ok none
  | _, [], _ => rfl
  | k, a :: L, hL => by
    obtain ⟨am, rfl, ham⟩ := hL a (List.mem_cons_self _ _)
    rw [findMap_go_cons_ne hw ham]
    exact findMap_go_none hw (k + 1) L fun a h => hL a (List.mem_cons_of_mem _ h)

end Lookup

/-! ## One more patch element -/

section Snoc

variable {τ : Type} (S : Schema τ) (t : τ) {mergeKey : String} (mdl iun : Bool)

theorem mergeByKeyElems_cons_of_ok {patch seen os M : List Value} {o o' : Value}
    (he : mergeByKeyElem S t mergeKey mdl iun patch seen o = .ok o')
    (h : mergeByKeyElems S t mergeKey mdl iun patch (o :: seen) os = .ok M) :
    mergeByKeyElems S t mergeKey mdl iun patch seen (o :: os) = .ok (o' :: M) := by
  rw [mergeByKeyElems, he, h]
  rfl

/-- With no patch element, no map changes. -/
theorem mergeByKeyElems_nil_patch : ∀ (seen os : List Value),
    mergeByKeyElems S t mergeKey mdl iun [] seen os = .ok os
  | _, [] => rfl
  | seen, o :: os => by
    refine mergeByKeyElems_cons_of_ok S t mdl iun ?_ (mergeByKeyElems_nil_patch (o :: seen) os)
    cases o <;> rfl

theorem patchFor_snoc_of_false {patch seen : List Value} {p o : Value}
    (h : (matchesKey mergeKey p o && !seen.any (matchesKey mergeKey p)) = false) :
    patchFor mergeKey (patch ++ [p]) seen o = patchFor mergeKey patch seen o := by
  simp only [patchFor, List.find?_append, List.find?_cons, h, List.find?_nil, Option.or_none]

/-- A patch element whose value a map already seen carries is merged with none of the others. -/
theorem mergeByKeyElems_snoc_seen {patch : List Value} (p : Value) :
    ∀ {seen : List Value} (os : List Value), seen.any (matchesKey mergeKey p) = true →
      mergeByKeyElems S t mergeKey mdl iun (patch ++ [p]) seen os =
        mergeByKeyElems S t mergeKey mdl iun patch seen os
  | _, [], _ => rfl
  | seen, o :: os, hseen => by
    have hfor : patchFor mergeKey (patch ++ [p]) seen o = patchFor mergeKey patch seen o :=
      patchFor_snoc_of_false (by simp [hseen])
    have ih := @mergeByKeyElems_snoc_seen patch p (o :: seen) os (by simp [hseen])
    simp only [mergeByKeyElems, mergeByKeyElem, hfor, ih]

end Snoc

/-! ## The loop against the specification -/

section Loop

variable {τ : Type} (S : Schema τ) (t : τ) {mergeKey : String} (mdl iun : Bool)
  (hk : hasPrefix mergeKey deleteFromPrimitiveListDirectivePrefix = false)

include hk in
/-- A map is merged only with a patch element whose merge-key value it carries, so it keeps the
value. -/
theorem mergeByKeyElem_keyValue {patch seen : List Value}
    (hp : ∀ p ∈ patch, ∃ pm, p = .object pm ∧ KeyedMap mergeKey mdl pm) {om : JSONMap}
    (ho : (keys om).Nodup) {o' : Value}
    (h : mergeByKeyElem S t mergeKey mdl iun patch seen (.object om) = .ok o') :
    ∃ m, o' = .object m ∧ (keys m).Nodup ∧ get? m mergeKey = get? om mergeKey := by
  unfold mergeByKeyElem at h
  cases hq : patchFor mergeKey patch seen (.object om) with
  | none => rw [hq] at h; exact ⟨om, (Except.ok.inj h).symm, ho, rfl⟩
  | some q =>
    obtain ⟨pm, rfl, hpm⟩ := hp q (List.mem_of_find?_eq_some hq)
    obtain ⟨w, hw, hws⟩ := hpm.scalar
    have hpred := List.find?_some (show List.find? _ patch = _ from hq)
    rw [Bool.and_eq_true] at hpred
    have hkey : get? om mergeKey = get? pm mergeKey := by
      rw [hw]
      exact (matchesKey_iff (show keyValue mergeKey (.object pm) = some w from hw) hws).mp hpred.1
    rw [hq] at h
    dsimp only at h
    cases hm : mergeMap S (2 * size (.object pm)) om pm t mdl iun with
    | error e => rw [hm] at h; cases h
    | ok m =>
      rw [hm] at h
      obtain ⟨hn, hmk⟩ := mergeMap_keyValue S t mdl iun hk ho hpm hkey le_rfl hm
      exact ⟨m, (Except.ok.inj h).symm, hn, hmk.trans hkey.symm⟩

include hk in
/-- **One more patch element.** Take a patch element `.object pm` whose scalar merge-key value `w`
no element of `patch` has, and the list `M` the specification makes of `os` with `patch`,
followed by maps `A` without the value. Either the lookup of `w` in `M ++ A` finds a map at an
index of `M`, the first map of `os` with `w`, and the specification with the element added merges
the element there; or the lookup finds nothing, no map of `os` carries `w`, and the
specification's list stays as it is. -/
theorem mergeByKeyElems_snoc {patch : List Value}
    (hp : ∀ p ∈ patch, ∃ pm, p = .object pm ∧ KeyedMap mergeKey mdl pm) {pm : JSONMap}
    {w : Value} (hw : get? pm mergeKey = some w) (hws : w.isScalar)
    (hnew : ∀ q ∈ patch, keyValue mergeKey q ≠ some w) :
    ∀ (os seen M A : List Value) (k : Nat),
      (∀ o ∈ os, ∃ om, o = .object om ∧ (keys om).Nodup) →
      (∀ o ∈ seen, keyValue mergeKey o ≠ some w) →
      (∀ a ∈ A, ∃ am, a = .object am ∧ get? am mergeKey ≠ some w) →
      mergeByKeyElems S t mergeKey mdl iun patch seen os = .ok M →
      (∃ om i, findMapInSliceBasedOnKeyValue.go mergeKey w k (M ++ A) = .ok (some (om, k + i)) ∧
          i < M.length ∧ (∃ o ∈ os, keyValue mergeKey o = some w) ∧
          ∀ m, mergeMap S (2 * size (.object pm)) om pm t mdl iun = .ok m →
            mergeByKeyElems S t mergeKey mdl iun (patch ++ [.object pm]) seen os =
              .ok (M.set i (.object m))) ∨
      (findMapInSliceBasedOnKeyValue.go mergeKey w k (M ++ A) = .ok none ∧
          (∀ o ∈ os, keyValue mergeKey o ≠ some w) ∧
          mergeByKeyElems S t mergeKey mdl iun (patch ++ [.object pm]) seen os = .ok M)
  | [], seen, M, A, k, _, _, hA, h => by
    cases h
    exact .inr ⟨findMap_go_none hws k A hA, by simp, rfl⟩
  | o :: os, seen, M, A, k, ho, hseen, hA, h => by
    obtain ⟨om, rfl, homn⟩ := ho _ (List.mem_cons_self _ _)
    have hos : ∀ o ∈ os, ∃ om, o = .object om ∧ (keys om).Nodup :=
      fun o h => ho o (List.mem_cons_of_mem _ h)
    rw [mergeByKeyElems] at h
    obtain ⟨o', he, h⟩ := bind_eq_ok.mp h
    obtain ⟨M', hM', h⟩ := bind_eq_ok.mp h
    cases h
    obtain ⟨m', rfl, -, hm'k⟩ := mergeByKeyElem_keyValue S t mdl iun hk hp homn he
    have hpw : keyValue mergeKey (.object pm) = some w := hw
    by_cases hmatch : get? om mergeKey = some w
    · -- `o` is the first map with `w`, and no element of `patch` merges it
      have hnone : patchFor mergeKey patch seen (.object om) = none :=
        List.find?_eq_none.mpr fun q hq hpred => by
          obtain ⟨qm, rfl, hqm⟩ := hp q hq
          obtain ⟨wq, hwq, hwqs⟩ := hqm.scalar
          have hq' := (matchesKey_iff (show keyValue mergeKey (.object qm) = some wq from hwq)
            hwqs).mp ((Bool.and_eq_true _ _).mp hpred).1
          exact hnew _ hq (hwq.trans (hq'.symm.trans hmatch))
      have hm' : m' = om := by
        unfold mergeByKeyElem at he
        rw [hnone] at he
        exact (Value.object.inj (Except.ok.inj he)).symm
      subst hm'
      have hpo : matchesKey mergeKey (.object pm) (.object m') = true :=
        (matchesKey_iff hpw hws).mpr hmatch
      have hps : seen.any (matchesKey mergeKey (.object pm)) = false :=
        List.any_eq_false.mpr fun x hx h => hseen x hx ((matchesKey_iff hpw hws).mp h)
      refine .inl ⟨m', 0, findMap_go_cons_eq hws hmatch k _, by simp,
        ⟨_, List.mem_cons_self _ _, hmatch⟩, fun m hm => ?_⟩
      have hfor : patchFor mergeKey (patch ++ [.object pm]) seen (.object m') = some (.object pm) := by
        simp only [patchFor] at hnone ⊢
        rw [List.find?_append, hnone]
        simp [hpo, hps]
      rw [List.set_cons_zero]
      refine mergeByKeyElems_cons_of_ok S t mdl iun ?_ ?_
      · unfold mergeByKeyElem
        rw [hfor]
        dsimp only
        rw [hm]
        rfl
      · rw [mergeByKeyElems_snoc_seen S t mdl iun _ _ (by simp [hpo])]
        exact hM'
    · -- `o` does not carry `w`: the lookup and the specification go on past it
      have hpo : matchesKey mergeKey (.object pm) (.object om) = false :=
        Bool.eq_false_iff.mpr fun h => hmatch ((matchesKey_iff hpw hws).mp h)
      have he' : mergeByKeyElem S t mergeKey mdl iun (patch ++ [.object pm]) seen (.object om) =
          .ok (.object m') := by
        unfold mergeByKeyElem at he ⊢
        rw [patchFor_snoc_of_false (by simp [hpo])]
        exact he
      have hfind : findMapInSliceBasedOnKeyValue.go mergeKey w k ((.object m' :: M') ++ A) =
          findMapInSliceBasedOnKeyValue.go mergeKey w (k + 1) (M' ++ A) :=
        findMap_go_cons_ne hws (by rw [hm'k]; exact hmatch) k _
      rcases mergeByKeyElems_snoc hp hw hws hnew os (.object om :: seen) M' A (k + 1) hos
          (List.forall_mem_cons.mpr ⟨hmatch, hseen⟩) hA hM' with ⟨om₂, i, hf, hi, ⟨o₂, ho₂, hw₂⟩, hmerge⟩ | ⟨hf, hall, hmerge⟩
      · refine .inl ⟨om₂, i + 1, ?_, by simp; omega, ⟨o₂, List.mem_cons_of_mem _ ho₂, hw₂⟩,
          fun m hm => ?_⟩
        · rw [hfind, hf, show k + 1 + i = k + (i + 1) by omega]
        · rw [List.set_cons_succ]
          exact mergeByKeyElems_cons_of_ok S t mdl iun he' (hmerge m hm)
      · exact .inr ⟨hfind.trans hf, List.forall_mem_cons.mpr ⟨hmatch, hall⟩,
          mergeByKeyElems_cons_of_ok S t mdl iun he' hmerge⟩

include hk in
/-- The loop from any point: with the patch elements `P` done, the list is the specification's
list for `P` followed by the elements of `P` that matched no map; the loop over the rest `Q`
returns the specification's list for `P ++ Q`. -/
theorem mergeSliceLoop_mergeByKey (elemType : τ) {original : List Value}
    (ho : ∀ o ∈ original, ∃ om, o = .object om ∧ (keys om).Nodup) :
    ∀ (Q P M : List Value) (fuel : Nat) (R : List Value),
      (∀ q ∈ P ++ Q, ∃ qm, q = .object qm ∧ KeyedMap mergeKey mdl qm) →
      (P ++ Q).Pairwise (fun p q => matchesKey mergeKey p q = false) →
      2 * size.sizeList Q + 1 ≤ fuel →
      mergeByKeyElems S elemType mergeKey mdl iun P [] original = .ok M →
      mergeSliceLoop S fuel elemType mergeKey mdl iun Q
          (M ++ P.filter fun p => !original.any (matchesKey mergeKey p)) = .ok R →
      mergeByKey S elemType mergeKey mdl iun original (P ++ Q) = .ok R
  | [], P, M, fuel, R, _, _, hf, hM, h => by
    obtain ⟨f, rfl⟩ : ∃ f, fuel = f + 1 := ⟨fuel - 1, by omega⟩
    rw [mergeSliceLoop, Except.ok.injEq] at h
    rw [List.append_nil, mergeByKey, hM, ← h]
    rfl
  | q :: Q, P, M, fuel, R, hp, hd, hf, hM, h => by
    obtain ⟨f, rfl⟩ : ∃ f, fuel = f + 1 := ⟨fuel - 1, by omega⟩
    obtain ⟨pm, rfl, hpm⟩ := hp _ (List.mem_append_right _ (List.mem_cons_self _ _))
    obtain ⟨w, hw, hws⟩ := hpm.scalar
    have hpw : keyValue mergeKey (.object pm) = some w := hw
    have hsize := one_le_size (.object pm)
    simp only [size.sizeList] at hf
    have hP : ∀ p ∈ P, ∃ pm, p = .object pm ∧ KeyedMap mergeKey mdl pm :=
      fun p h => hp p (List.mem_append_left _ h)
    -- the element's value is none of `P`'s
    have hnew : ∀ p ∈ P, keyValue mergeKey p ≠ some w := fun p hpP hpw' => by
      have h1 := (matchesKey_iff hpw' hws).mpr hpw
      rw [(List.pairwise_append.mp hd).2.2 p hpP _ (List.mem_cons_self _ _)] at h1
      cases h1
    have hA : ∀ a ∈ P.filter (fun p => !original.any (matchesKey mergeKey p)),
        ∃ am, a = .object am ∧ get? am mergeKey ≠ some w := fun a ha => by
      have haP := (List.mem_filter.mp ha).1
      obtain ⟨am, rfl, -⟩ := hP a haP
      exact ⟨am, rfl, hnew _ haP⟩
    have hassoc : P ++ .object pm :: Q = (P ++ [.object pm]) ++ Q := by simp
    rw [hassoc] at hp hd ⊢
    have ih := mergeSliceLoop_mergeByKey elemType ho Q (P ++ [.object pm])
    simp only [mergeSliceLoop, hw] at h
    rcases mergeByKeyElems_snoc S elemType mdl iun hk hP hw hws hnew original [] M _ 0 ho
        (by simp) hA hM with ⟨om, i, hfind, hi, ⟨o, ho', how⟩, hmerge⟩ | ⟨hfind, hall, hmerge⟩
    · -- the lookup finds the map the specification merges
      obtain ⟨_, hr, h⟩ := bind_eq_ok.mp h
      rw [show findMapInSliceBasedOnKeyValue _ mergeKey w = _ from hfind] at hr
      cases hr
      dsimp only at h
      obtain ⟨m, hm, h⟩ := bind_eq_ok.mp h
      rw [← mergeMap_fuel_eq om pm elemType mdl iun le_rfl (show 2 * size (.object pm) ≤ f by
        omega)] at hm
      have hq : original.any (matchesKey mergeKey (.object pm)) = true :=
        List.any_eq_true.mpr ⟨o, ho', (matchesKey_iff hpw hws).mpr how⟩
      refine ih _ f R hp hd (by omega) (hmerge m hm) ?_
      rw [Nat.zero_add] at h
      rwa [List.filter_append, List.filter_singleton, hq, Bool.not_true, cond_false, List.append_nil,
        ← List.set_append_left _ _ hi]
    · -- nothing carries the value: the element is appended
      obtain ⟨_, hr, h⟩ := bind_eq_ok.mp h
      rw [show findMapInSliceBasedOnKeyValue _ mergeKey w = _ from hfind] at hr
      cases hr
      have hq : original.any (matchesKey mergeKey (.object pm)) = false :=
        List.any_eq_false.mpr fun o ho' h => hall o ho' ((matchesKey_iff hpw hws).mp h)
      refine ih _ f R hp hd (by omega) hmerge ?_
      rwa [List.filter_append, List.filter_singleton, hq, Bool.not_false, cond_true,
        ← List.append_assoc]

end Loop

/-! ## `$patch` elements -/

/-- The value of a list element's `$patch` directive, if it has one. -/
def directiveOf : Value → Option Value
  | .object m => get? m directiveMarker
  | _ => none

/-- Whether the `$patch` directive of a list element is `==` the string `directive`. -/
def hasDirective (directive : String) (v : Value) : Bool :=
  match directiveOf v with
  | some patchType => patchType.deepEqual (.string directive)
  | none => false

/-- An element of a patch of maps: a map merged by key, a `$patch: delete` element naming the
merge-key value to delete, or a `$patch: replace` element. -/
inductive ListPatchElem (mergeKey : String) (mdl : Bool) : Value → Prop
  | keyed {m : JSONMap} : KeyedMap mergeKey mdl m → ListPatchElem mergeKey mdl (.object m)
  | delete {m : JSONMap} {w : Value} : get? m directiveMarker = some (.string deleteDirective) →
      get? m mergeKey = some w → w.isScalar → ListPatchElem mergeKey mdl (.object m)
  | replace {m : JSONMap} : get? m directiveMarker = some (.string replaceDirective) →
      ListPatchElem mergeKey mdl (.object m)

section Special

variable {mergeKey : String} {w : Value}

/-- The lookup of a scalar in a list of maps: nothing, and no map carries it; or the first map
that carries it, after maps that do not. -/
theorem findMap_go_spec (hw : w.isScalar) : ∀ (k : Nat) (L : List Value),
    (∀ x ∈ L, ∃ m, x = .object m) →
    (findMapInSliceBasedOnKeyValue.go mergeKey w k L = .ok none ∧
        ∀ x ∈ L, keyValue mergeKey x ≠ some w) ∨
      ∃ A m B, L = A ++ .object m :: B ∧ get? m mergeKey = some w ∧
        findMapInSliceBasedOnKeyValue.go mergeKey w k L = .ok (some (m, k + A.length))
  | _, [], _ => .inl ⟨rfl, by simp⟩
  | k, x :: L, hL => by
    obtain ⟨m, rfl⟩ := hL x (List.mem_cons_self _ _)
    by_cases hm : get? m mergeKey = some w
    · exact .inr ⟨[], m, L, rfl, hm, findMap_go_cons_eq hw hm k L⟩
    rw [findMap_go_cons_ne hw hm]
    rcases findMap_go_spec hw (k + 1) L fun x h => hL x (List.mem_cons_of_mem _ h) with
      ⟨hnone, hall⟩ | ⟨A, m', B, rfl, hm', hfind⟩
    · exact .inl ⟨hnone, List.forall_mem_cons.mpr ⟨hm, hall⟩⟩
    · refine .inr ⟨.object m :: A, m', B, rfl, hm', ?_⟩
      rw [hfind, List.length_cons, show k + 1 + A.length = k + (A.length + 1) by omega]

/-- **The deletion loop filters.** With a bound above the list's length, the loop that deletes
every map whose merge key is `== w` returns the maps that do not carry the value of `d`. -/
theorem deleteMatching_filter {d : Value} (hd : keyValue mergeKey d = some w) (hw : w.isScalar) :
    ∀ (fuel : Nat) (L : List Value), (∀ x ∈ L, ∃ m, x = .object m) → L.length < fuel →
      deleteMatching mergeKey w fuel L = .ok (L.filter fun o => !matchesKey mergeKey d o)
  | 0, _, _, hf => absurd hf (Nat.not_lt_zero _)
  | fuel + 1, L, hL, hf => by
    rw [deleteMatching]
    rcases findMap_go_spec hw 0 L hL with ⟨hnone, hall⟩ | ⟨A, m, B, rfl, hm, hfind⟩
    · rw [show findMapInSliceBasedOnKeyValue L mergeKey w = _ from hnone]
      refine congrArg Except.ok (List.filter_eq_self.mpr fun x hx => ?_).symm
      simpa using fun h => hall x hx ((matchesKey_iff hd hw).mp h)
    · rw [show findMapInSliceBasedOnKeyValue _ mergeKey w = _ from hfind]
      have hAB : ∀ x ∈ A ++ B, ∃ m, x = .object m := fun x hx => hL x (by
        rcases List.mem_append.mp hx with h | h <;> simp [h])
      have hrec := deleteMatching_filter hd hw fuel (A ++ B) hAB (by simp at hf ⊢; omega)
      have hsplit : (A ++ .object m :: B).take (0 + A.length) ++
          (A ++ .object m :: B).drop (0 + A.length + 1) = A ++ B := by simp
      have hm' : matchesKey mergeKey d (.object m) = true := (matchesKey_iff hd hw).mpr hm
      show (deleteMatching mergeKey w fuel _) = _
      rw [hsplit, hrec, List.filter_append, List.filter_append, List.filter_cons_of_neg (by simp [hm'])]

/-- **The first loop over a patch of maps.** It deletes from `original` every map that carries
the merge-key value of a `$patch: delete` element, keeps in order the patch elements without a
directive, and notes whether one is `$patch: replace`. -/
theorem applySpecialElements_eq {mdl : Bool} :
    ∀ (patch original kept : List Value) (replace : Bool),
      (∀ o ∈ original, ∃ om, o = .object om) → (∀ p ∈ patch, ListPatchElem mergeKey mdl p) →
      applySpecialElements mergeKey patch original kept replace =
        .ok (original.filter (fun o => !patch.any fun d =>
            hasDirective deleteDirective d && matchesKey mergeKey d o),
          kept ++ patch.filter (fun p => (directiveOf p).isNone),
          replace || patch.any (hasDirective replaceDirective))
  | [], original, kept, replace, _, _ => by simp [applySpecialElements]
  | v :: rest, original, kept, replace, ho, hp => by
    have hrest : ∀ p ∈ rest, ListPatchElem mergeKey mdl p :=
      fun p h => hp p (List.mem_cons_of_mem _ h)
    cases hp v (List.mem_cons_self _ _) with
    | keyed hm =>
      simp only [applySpecialElements, hm.noDirective,
        applySpecialElements_eq rest original _ replace ho hrest]
      simp [hasDirective, directiveOf, hm.noDirective]
    | @delete m w hd hw hws =>
      have hdel := deleteMatching_filter (show keyValue mergeKey (.object m) = some w from hw) hws
        (original.length + 1) original ho (Nat.lt_succ_self _)
      have hfo : ∀ o ∈ original.filter (fun o => !matchesKey mergeKey (.object m) o),
          ∃ om, o = .object om := fun o h => ho o (List.mem_filter.mp h).1
      simp only [applySpecialElements, hd, hw, hdel, bind, Except.bind,
        applySpecialElements_eq rest _ kept replace hfo hrest]
      simp [deepEqual, deleteDirective, replaceDirective, hasDirective, directiveOf, hd,
        List.filter_filter, Bool.and_comm]
    | replace hr =>
      simp only [applySpecialElements, hr, applySpecialElements_eq rest original kept true ho hrest]
      simp [deepEqual, deleteDirective, replaceDirective, hasDirective, directiveOf, hr]

end Special

/-! ## The map branch of `mergeSlice` -/

section Slice

variable {τ : Type} (S : Schema τ) {mergeKey : String}

/-- The map branch of `mergeSlice`, unfolded: with a `$patch: replace` element, the patch without
its directives; otherwise the loop over the patch without its directives, on the maps of `original`
that no `$patch: delete` element names. -/
theorem mergeSlice_of_maps (hmk : mergeKey ≠ "") (fuel : Nat) {original patch : List Value}
    (elemType : τ) (mdl isDeleteList iun : Bool) (ht : sliceElementType [original, patch] = .ok .map)
    (ho : ∀ o ∈ original, ∃ om, o = .object om) (hp : ∀ p ∈ patch, ListPatchElem mergeKey mdl p) :
    mergeSlice S (fuel + 1) original patch elemType mergeKey mdl isDeleteList iun =
      if patch.any (hasDirective replaceDirective) then
        .ok (patch.filter fun p => (directiveOf p).isNone)
      else mergeSliceLoop S fuel elemType mergeKey mdl iun
        (patch.filter fun p => (directiveOf p).isNone)
        (original.filter fun o => !patch.any fun d =>
          hasDirective deleteDirective d && matchesKey mergeKey d o) := by
  -- both lists empty would leave `sliceElementType` nothing to find
  have hne : ¬(original.length = 0 ∧ patch.length = 0) := fun ⟨h₁, h₂⟩ => by
    rw [List.length_eq_zero.mp h₁, List.length_eq_zero.mp h₂] at ht
    cases ht
  simp only [mergeSlice, if_neg hne, ht, bind, Except.bind, ne_eq, not_true_eq_false, if_false,
    if_neg hmk, applySpecialElements_eq patch original [] false ho hp, List.nil_append,
    Bool.false_or]
  split_ifs <;> rfl

/-- **`mergeSlice` on lists of maps.** Take lists of maps, a merge key, maps in `original` with
distinct keys, and a patch whose elements are maps merged by key, with distinct values, or
`$patch: delete` or `$patch: replace` elements. When `mergeSlice` returns, it returns the patch
maps merged by key if some element is `$patch: replace`; otherwise the maps of `original` that no
`$patch: delete` element names, merged by key with the patch maps (`mergeByKey`). -/
theorem mergeSlice_maps (hk : hasPrefix mergeKey deleteFromPrimitiveListDirectivePrefix = false)
    (hmk : mergeKey ≠ "") {fuel : Nat} {original patch : List Value} (elemType : τ)
    (mdl isDeleteList iun : Bool) (ht : sliceElementType [original, patch] = .ok .map)
    (ho : ∀ o ∈ original, ∃ om, o = .object om ∧ (keys om).Nodup)
    (hp : ∀ p ∈ patch, ListPatchElem mergeKey mdl p)
    (hd : (patch.filter fun p => (directiveOf p).isNone).Pairwise
      fun p q => matchesKey mergeKey p q = false)
    (hf : 2 * size.sizeList patch + 1 ≤ fuel) {R : List Value}
    (h : mergeSlice S (fuel + 1) original patch elemType mergeKey mdl isDeleteList iun = .ok R) :
    (if patch.any (hasDirective replaceDirective) then
        .ok (patch.filter fun p => (directiveOf p).isNone)
      else mergeByKey S elemType mergeKey mdl iun
        (original.filter fun o => !patch.any fun d =>
          hasDirective deleteDirective d && matchesKey mergeKey d o)
        (patch.filter fun p => (directiveOf p).isNone)) = .ok R := by
  have hobj : ∀ o ∈ original, ∃ om, o = .object om := fun o h =>
    let ⟨om, e, _⟩ := ho o h; ⟨om, e⟩
  have hsize := applySpecialElements_sizeList mergeKey patch original [] false
    (applySpecialElements_eq patch original [] false hobj hp)
  simp only [List.nil_append, size.sizeList, Nat.zero_add] at hsize
  rw [mergeSlice_of_maps S hmk fuel elemType mdl isDeleteList iun ht hobj hp] at h
  split_ifs at h ⊢
  · exact h
  · refine mergeSliceLoop_mergeByKey S mdl iun hk elemType
      (fun o hof => ho o (List.mem_filter.mp hof).1) _ [] _ fuel R (fun p hpf => ?_) hd (by omega)
      (mergeByKeyElems_nil_patch S elemType mdl iun [] _) (by simpa using h)
    obtain ⟨hpm, hnone⟩ := List.mem_filter.mp hpf
    cases hp p hpm with
    | keyed hm => exact ⟨_, rfl, hm⟩
    | delete hd' _ _ => simp [directiveOf, hd'] at hnone
    | replace hr' => simp [directiveOf, hr'] at hnone

/-- `[{"name": "a", "v": 1}, {"name": "b", "v": 2}]` patched with
`[{"name": "b", "v": 3}, {"$patch": "delete", "name": "a"}, {"name": "c", "v": 4}]`: `a` is
deleted, `b` merged and `c` appended. -/
theorem mergeSlice_maps_delete_merge_append :
    mergeSlice (uniformSchema "" "") 20
        [.object [("name", .string "a"), ("v", .number 1)],
          .object [("name", .string "b"), ("v", .number 2)]]
        [.object [("name", .string "b"), ("v", .number 3)],
          .object [("$patch", .string "delete"), ("name", .string "a")],
          .object [("name", .string "c"), ("v", .number 4)]] () "name" true false true =
      .ok [.object [("name", .string "b"), ("v", .number 3)],
        .object [("name", .string "c"), ("v", .number 4)]] ∧
    (if [Value.object [("name", .string "b"), ("v", .number 3)],
          .object [("$patch", .string "delete"), ("name", .string "a")],
          .object [("name", .string "c"), ("v", .number 4)]].any
          (hasDirective replaceDirective) then
        .ok ([Value.object [("name", .string "b"), ("v", .number 3)],
          .object [("$patch", .string "delete"), ("name", .string "a")],
          .object [("name", .string "c"), ("v", .number 4)]].filter
            fun p => (directiveOf p).isNone)
      else mergeByKey (uniformSchema "" "") () "name" true true
        ([Value.object [("name", .string "a"), ("v", .number 1)],
          .object [("name", .string "b"), ("v", .number 2)]].filter fun o =>
            !(List.any [Value.object [("name", .string "b"), ("v", .number 3)],
              .object [("$patch", .string "delete"), ("name", .string "a")],
              .object [("name", .string "c"), ("v", .number 4)]] fun d =>
              hasDirective deleteDirective d && matchesKey "name" d o))
        ([Value.object [("name", .string "b"), ("v", .number 3)],
          .object [("$patch", .string "delete"), ("name", .string "a")],
          .object [("name", .string "c"), ("v", .number 4)]].filter
            fun p => (directiveOf p).isNone)) =
      .ok [.object [("name", .string "b"), ("v", .number 3)],
        .object [("name", .string "c"), ("v", .number 4)]] :=
  ⟨rfl, mergeSlice_maps (uniformSchema "" "")
    (show hasPrefix "name" deleteFromPrimitiveListDirectivePrefix = false from rfl) (by decide) ()
    true false true (by rfl)
    (fun o ho => by
      simp only [List.mem_cons, List.mem_nil_iff, or_false] at ho
      rcases ho with rfl | rfl <;> exact ⟨_, rfl, by decide⟩)
    (fun p hp => by
      simp only [List.mem_cons, List.mem_nil_iff, or_false] at hp
      rcases hp with rfl | rfl | rfl
      · exact .keyed ⟨by decide, rfl, ⟨_, rfl, rfl⟩, by decide⟩
      · exact .delete rfl rfl rfl
      · exact .keyed ⟨by decide, rfl, ⟨_, rfl, rfl⟩, by decide⟩)
    (by decide) (show 2 * size.sizeList _ + 1 ≤ 19 by decide) (by rfl)⟩

end Slice

end ClientGo.Strategicpatch
