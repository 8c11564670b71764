import ClientGo.Strategicpatch.MergeByKey
import Mathlib.Data.Nat.Digits

/-!
# The round trip on documents with merge lists of scalars

A field whose patch strategy is `merge` and whose value is a list of scalars is diffed as two
lists: the additions, written under the field's key, and the parallel deletion list, written under
`$deleteFromPrimitiveList/<key>` (`diffLists_scalars`). Merging them back appends the additions
and removes repeats (`uniqifyScalars`), then deletes every element whose `%v` string is that of a
deletion (`deleteFromSlice`): the run of the two keys on the field is `fieldRun_listEntries`.

The diff takes multiset differences of `%v` strings and the merge deletes by `%v` string, so the two
meet through the strings. On scalars of one kind `%v` prints different values differently
(`fmtV_inj_of_kind`; for numbers this is `toString_int_inj`), and when the original list has no
two elements that print alike, the merged list holds exactly the modified list's elements
(`mem_merged_iff`). With repeats the round trip fails (`roundTrip_loses_repeated_scalar`).

The loop of `diffMaps` adds, for each key of `modified`, entries that write that key's field alone
(`diffMapsLoop_cons_scalarLists`), and `addDeletions` adds a `null` for each key `modified` lacks
(`keysOfField_addDeletions`). Read field by field through `mergeMapLoop_fields`, the two-way patch
applied to `original` gives `modified`, up to the order of the elements of merged lists
(`twoWay_roundTrip_lists`). The loop and the assembly are stated for any relation between the
merged entry and the modified one, given what the loop does on one key (`diffMapsLoop_fields`,
`twoWay_roundTrip_of_loop`): the round trip with merge lists of maps reuses them.
-/

namespace ClientGo.Strategicpatch

open Value JSONMap

/-! ## `%v` tells scalars of one kind apart -/

section Digits

/-- `Nat.toDigits 10` is computed by `Nat.toDigitsCore` with any bound above the number, in front
of any digits already there. -/
theorem toDigitsCore_ten (n : Nat) : ∀ fuel (ds : List Char), n < fuel →
    Nat.toDigitsCore 10 fuel n ds = Nat.toDigits 10 n ++ ds := by
  induction n using Nat.strong_induction_on with
  | _ n ih =>
    intro fuel ds hn
    obtain ⟨f, rfl⟩ : ∃ f, fuel = f + 1 := ⟨fuel - 1, by omega⟩
    simp only [Nat.toDigits, Nat.toDigitsCore]
    split_ifs with h
    · rfl
    · have hlt : n / 10 < n := Nat.div_lt_self (by omega) (show 1 < 10 by decide)
      rw [ih _ hlt f _ (by omega), ih _ hlt n _ hlt, List.append_assoc]
      rfl

/-- The decimal digits of a number: one digit, or the digits of `n / 10` and then `n % 10`. -/
theorem toDigits_ten (n : Nat) : Nat.toDigits 10 n =
    if n < 10 then [Nat.digitChar n]
    else Nat.toDigits 10 (n / 10) ++ [Nat.digitChar (n % 10)] := by
  conv_lhs => rw [Nat.toDigits, Nat.toDigitsCore]
  by_cases h : n < 10
  · simp [h, Nat.div_eq_of_lt h, Nat.mod_eq_of_lt h]
  · simp only [if_neg h, if_neg (show n / 10 ≠ 0 by omega)]
    exact toDigitsCore_ten _ _ _ (Nat.div_lt_self (by omega) (show 1 < 10 by decide))

theorem digitChar_toNat : ∀ d < 10, (Nat.digitChar d).toNat = d + 48 := by decide

/-- Decimal digits read back into the number they print. -/
def readDigits (cs : List Char) : Nat := cs.foldl (fun n c => 10 * n + (c.toNat - 48)) 0

theorem readDigits_toDigits (n : Nat) : readDigits (Nat.toDigits 10 n) = n := by
  induction n using Nat.strong_induction_on with
  | _ n ih =>
    rw [toDigits_ten]
    split_ifs with h
    · simp [readDigits, digitChar_toNat n h]
    · have := ih _ (Nat.div_lt_self (by omega) (show 1 < 10 by decide))
      rw [readDigits, List.foldl_append, ← readDigits, this]
      simp only [List.foldl_cons, List.foldl_nil,
        digitChar_toNat _ (Nat.mod_lt _ (show 10 > 0 by decide))]
      omega

/-- A decimal digit is no sign: its code is at least that of `'0'`. -/
theorem le_toNat_of_mem_toDigits (n : Nat) : ∀ c ∈ Nat.toDigits 10 n, 48 ≤ c.toNat := by
  induction n using Nat.strong_induction_on with
  | _ n ih =>
    rw [toDigits_ten]
    split_ifs with h
    · simp [digitChar_toNat n h]
    · intro c hc
      rcases List.mem_append.mp hc with hc | hc
      · exact ih _ (Nat.div_lt_self (by omega) (show 1 < 10 by decide)) c hc
      · simp [List.mem_singleton.mp hc, digitChar_toNat _ (Nat.mod_lt _ (show 10 > 0 by decide))]

/-- Different integers print differently. -/
theorem toString_int_inj {i j : Int} (h : toString i = toString j) : i = j := by
  have hd := congrArg String.data h
  have hsign : ∀ m, '-' ∉ Nat.toDigits 10 m := fun m hm => by
    have := le_toNat_of_mem_toDigits m _ hm
    simp at this
  cases i with
  | ofNat m =>
    cases j with
    | ofNat m' =>
      have : Nat.toDigits 10 m = Nat.toDigits 10 m' := hd
      rw [← readDigits_toDigits m, this, readDigits_toDigits]
    | negSucc m' =>
      have : Nat.toDigits 10 m = '-' :: Nat.toDigits 10 (m' + 1) := hd
      exact absurd (this ▸ List.mem_cons_self _ _) (hsign m)
  | negSucc m =>
    cases j with
    | ofNat m' =>
      have : '-' :: Nat.toDigits 10 (m + 1) = Nat.toDigits 10 m' := hd
      exact absurd (this ▸ List.mem_cons_self _ _) (hsign m')
    | negSucc m' =>
      have : '-' :: Nat.toDigits 10 (m + 1) = '-' :: Nat.toDigits 10 (m' + 1) := hd
      have := congrArg readDigits (List.cons.inj this).2
      rw [readDigits_toDigits, readDigits_toDigits] at this
      rw [show m = m' by omega]

end Digits

/-- Two scalars of one kind that `%v` prints alike are the same scalar. -/
theorem fmtV_inj_of_kind {x y : Value} (hx : x.isScalar) (hk : x.kind = y.kind)
    (h : x.fmtV = y.fmtV) : x = y := by
  cases x <;> cases y <;> simp only [isScalar, kind, fmtV, Bool.false_eq_true, reduceCtorEq] at hx hk h ⊢
  case bool.bool b b' => cases b <;> cases b' <;> first | rfl | exact absurd h (by decide)
  case number.number n n' => rw [toString_int_inj h]
  case string.string => rw [h]

/-! ## Documents of scalars and lists of scalars -/

/-- The elements of a list are scalars of one kind. -/
def oneKind (xs : List Value) : Bool :=
  xs.all fun v => v.isScalar && xs.all fun w => w.kind == v.kind

namespace Value

/-- A list of scalars of one kind, no two of which `%v` prints alike. -/
def isScalarList : Value → Bool
  | .array xs => oneKind xs && decide (xs.map fmtV).Nodup
  | _ => false

end Value

/-- A document of scalars and lists of scalars: keys as a Go map has them, none of them a key of
the patch syntax, and every value a scalar or a list of scalars of one kind without repeats. -/
structure ScalarLists (m : JSONMap) extends FlatKeys m : Prop where
  value : ∀ kv ∈ m, kv.2.isScalar ∨ kv.2.isScalarList

/-- Where both documents hold a list at a key, the elements of the two lists are scalars of one
kind, as the Go type of the field makes them. -/
def listsOfOneKind : Option Value → Option Value → Bool
  | some (.array xs), some (.array ys) => oneKind (xs ++ ys)
  | _, _ => true

section Order

variable {τ : Type} (S : Schema τ)

/-- Two entries of the field `k` of a map of type `t`, alike but for the order of a list the type
merges there. -/
def SameUpToOrder (t : τ) (k : String) (e e' : Option Value) : Prop :=
  e = e' ∨ ∃ ft mk xs ys, S.lookupPatchMetadata t k = .ok (ft, mergeDirective, mk) ∧
    e = some (.array xs) ∧ e' = some (.array ys) ∧ xs.Perm ys

end Order

theorem oneKind_kind {xs : List Value} (h : oneKind xs = true) :
    ∃ kd, ∀ v ∈ xs, v.isScalar ∧ v.kind = kd := by
  simp only [oneKind, List.all_eq_true, Bool.and_eq_true, beq_iff_eq] at h
  cases xs with
  | nil => exact ⟨.string, by simp⟩
  | cons x xs => exact ⟨x.kind, fun v hv => ⟨(h v hv).1, (h x (List.mem_cons_self _ _)).2 v hv⟩⟩

theorem isScalarList_iff {v : Value} :
    v.isScalarList ↔ ∃ xs, v = .array xs ∧ oneKind xs ∧ (xs.map fmtV).Nodup := by
  cases v <;> simp [isScalarList]

theorem kind_ne_slice_of_isScalar {v : Value} (h : v.isScalar) : v.kind ≠ .slice := by
  cases v <;> simp_all [isScalar, kind]

/-- A list `sliceElementType` finds to hold scalars of one kind. -/
theorem sliceElementType_scalars {slices : List (List Value)} {kd : Kind}
    (hne : slices.flatten ≠ []) (h : ∀ v ∈ slices.flatten, v.isScalar ∧ v.kind = kd) :
    sliceElementType slices = .ok kd ∧ kd ≠ .map := by
  obtain ⟨v, hv⟩ := List.exists_mem_of_ne_nil _ hne
  obtain ⟨hs, rfl⟩ := h v hv
  refine ⟨sliceElementType_of_kind ?_ ?_ hne fun w hw => (h w hw).2, kind_ne_map_of_isScalar hs⟩ <;>
    cases v <;> simp_all [isScalar, kind]

/-! ## The keys of a parallel deletion list -/

theorem splitN_go_of_no_slash (ks : List Char) :
    ∀ cs : List Char, '/' ∉ cs → splitN.go (cs ++ '/' :: ks) = (cs, some ks)
  | [], _ => by simp [splitN.go]
  | c :: cs, h => by
    rw [List.mem_cons, not_or] at h
    simp [splitN.go, Ne.symm h.1, splitN_go_of_no_slash ks cs h.2]

theorem data_deleteList (k : String) : (deleteFromPrimitiveListDirectivePrefix ++ "/" ++ k).data =
    deleteFromPrimitiveListDirectivePrefix.data ++ '/' :: k.data := by
  simp [String.append]

theorem hasPrefix_deleteList (k : String) :
    hasPrefix (deleteFromPrimitiveListDirectivePrefix ++ "/" ++ k)
      deleteFromPrimitiveListDirectivePrefix = true := by
  rw [hasPrefix, String.toList, String.toList, data_deleteList, List.isPrefixOf_iff_prefix]
  exact List.prefix_append _ _

theorem splitDeleteListKey_deleteList (k : String) :
    splitDeleteListKey (deleteFromPrimitiveListDirectivePrefix ++ "/" ++ k) = .ok (k, true) := by
  have hsplit : splitN (deleteFromPrimitiveListDirectivePrefix ++ "/" ++ k) =
      [deleteFromPrimitiveListDirectivePrefix, k] := by
    rw [splitN, String.toList, data_deleteList, splitN_go_of_no_slash _ _ (by decide)]
  simp [splitDeleteListKey, hasPrefix_deleteList, hsplit]

theorem splitDeleteListKey_plain {k : String}
    (hk : hasPrefix k deleteFromPrimitiveListDirectivePrefix = false) :
    splitDeleteListKey k = .ok (k, false) := by
  simp [splitDeleteListKey, hk]

/-- `$deleteFromPrimitiveList/<key>` writes the field `<key>`. -/
theorem mergeTarget_deleteList (k : String) :
    mergeTarget true (deleteFromPrimitiveListDirectivePrefix ++ "/" ++ k) = k := by
  simp [mergeTarget, splitDeleteListKey_deleteList]

/-! ## What the merge makes of one field -/

section Merge

variable {τ : Type} (S : Schema τ)

/-- A run of keys that write one field is the run of its parts, one after the other. -/
theorem fieldRun_append (t : τ) (mdl iun : Bool) (E E' : JSONMap) (e : Option Value) :
    fieldRun S t mdl iun (E ++ E') e = fieldRun S t mdl iun E e >>= fieldRun S t mdl iun E' :=
  List.foldlM_append _ _ _ _

theorem fieldRun_single (t : τ) (mdl iun : Bool) (k : String) (v : Value) (e : Option Value) :
    fieldRun S t mdl iun [(k, v)] e = mergeField S (2 * size v) t mdl iun k v e := by
  simp only [fieldRun, List.foldlM_cons, List.foldlM_nil]
  exact bind_pure _

/-- A key of a merge list, or its parallel deletion list, with a list as its patch value: the
field's list is merged by `mergeSlice`. -/
theorem mergeField_mergeList {f : Nat} (t : τ) {k field : String} {isDeleteList : Bool}
    (hs : splitDeleteListKey k = .ok (field, isDeleteList)) {ft : τ} {mk : String}
    (hl : S.lookupPatchMetadata t field = .ok (ft, mergeDirective, mk)) (iun : Bool)
    (xs ps : List Value) :
    mergeField S f t true iun k (.array ps) (some (.array xs)) =
      (fun r => some (.array r)) <$> mergeSlice S f xs ps (S.elem ft) mk true isDeleteList iun := by
  simp only [mergeField, hs, hl, Bool.not_true, Bool.false_eq_true, and_false, if_false, kind,
    reduceCtorEq, false_and, if_true, Except.mapError, bind, Except.bind, pure, Except.pure]
  cases mergeSlice S f xs ps (S.elem ft) mk true isDeleteList iun <;> rfl

/-- A key with a value that is not `null` writes it, when the field is absent, holds a value of
another kind, or holds one of the same kind that the type says to replace. -/
theorem mergeField_set {f : Nat} (t : τ) {k : String}
    (hk : hasPrefix k deleteFromPrimitiveListDirectivePrefix = false) {mv : Value}
    (hmv : mv.isScalar ∨ ∃ ys, mv = .array ys) (iun : Bool) {entry : Option Value}
    (h : ∀ ov, entry = some ov → ov.kind = mv.kind → ∃ ft strategy mk,
      S.lookupPatchMetadata t k = .ok (ft, strategy, mk) ∧
        (mv.kind = .slice → strategy ≠ mergeDirective)) :
    mergeField S f t true iun k mv entry = .ok (some mv) := by
  have hnil : mv.kind ≠ .nil := by
    rcases hmv with hmv | ⟨ys, rfl⟩
    · cases mv <;> simp_all [isScalar, kind]
    · simp [kind]
  simp only [mergeField, splitDeleteListKey_plain hk, Bool.not_true, Bool.false_eq_true,
    and_false, if_false, bind, Except.bind, hnil, false_and]
  cases entry with
  | none => cases mv <;> rfl
  | some ov =>
    by_cases hkind : ov.kind = mv.kind
    · -- a value of the same kind: the type's strategy says to replace it
      obtain ⟨ft, strategy, mk, hl, hs⟩ := h ov rfl hkind
      rcases hmv with hmv | ⟨ys, rfl⟩
      · cases mv <;> simp only [isScalar, Bool.false_eq_true] at hmv <;>
          simp [hkind, hl, Except.mapError, pure, Except.pure]
      · cases ov <;> simp only [kind, reduceCtorEq] at hkind
        simp [kind, hl, Except.mapError, hs rfl, pure, Except.pure]
    · rcases hmv with hmv | ⟨ys, rfl⟩
      · cases mv <;> simp only [isScalar, Bool.false_eq_true] at hmv <;>
          simp [hkind, pure, Except.pure]
      · simp [hkind, pure, Except.pure]

/-- A `null` deletes the field when unmatched nulls are ignored. -/
theorem mergeField_null {f : Nat} (t : τ) {k : String}
    (hk : hasPrefix k deleteFromPrimitiveListDirectivePrefix = false) (mdl : Bool)
    (entry : Option Value) :
    mergeField S f t mdl true k .null entry = .ok none := by
  simp [mergeField, hk, splitDeleteListKey_plain hk, kind, bind, Except.bind, pure,
    Except.pure]

/-- The entries the diff writes for a merge list of scalars: the additions under the field's key
and the parallel deletion list under `$deleteFromPrimitiveList/<key>`, each when not empty. -/
def listEntries (k : String) (adds dels : List Value) : JSONMap :=
  (if adds.length > 0 then [(k, .array adds)] else []) ++
    (if dels.length > 0 then [(deleteFromPrimitiveListDirectivePrefix ++ "/" ++ k, .array dels)]
      else [])

theorem mergeTarget_of_mem_listEntries {k : String}
    (hk : hasPrefix k deleteFromPrimitiveListDirectivePrefix = false) {adds dels : List Value}
    {kv : String × Value} (h : kv ∈ listEntries k adds dels) : mergeTarget true kv.1 = k := by
  simp only [listEntries, List.mem_append] at h
  rcases h with h | h <;> split_ifs at h <;> simp only [List.mem_singleton, List.not_mem_nil] at h
  · rw [h, mergeTarget_key hk]
  · rw [h, mergeTarget_deleteList]

/-- **The merge of a field's additions and deletion list.** On a merge list of scalars of one
kind, the additions are appended without repeats, and the elements that print as a deletion are
then removed. -/
theorem fieldRun_listEntries (t : τ) {k : String}
    (hk : hasPrefix k deleteFromPrimitiveListDirectivePrefix = false) {ft : τ} {mk : String}
    (hl : S.lookupPatchMetadata t k = .ok (ft, mergeDirective, mk)) {xs adds dels : List Value}
    {kd : Kind} (hkd : ∀ v ∈ xs ++ adds ++ dels, v.isScalar ∧ v.kind = kd) (hxs : xs.Nodup) :
    ∃ rs, fieldRun S t true true (listEntries k adds dels) (some (.array xs)) =
        .ok (some (.array rs)) ∧ rs.Nodup ∧
      ∀ v, v ∈ rs ↔ (v ∈ xs ∨ v ∈ adds) ∧ v.fmtV ∉ dels.map fmtV := by
  have hcmp : ∀ v : Value, v.isScalar ∧ v.kind = kd → v.isComparable := fun v hv =>
    isComparable_of_isScalar hv.1
  -- the additions: appended, then repeats removed
  obtain ⟨u, hu, hun, hum⟩ : ∃ u, fieldRun S t true true
      (if adds.length > 0 then [(k, .array adds)] else []) (some (.array xs)) =
        .ok (some (.array u)) ∧ u.Nodup ∧ ∀ v, v ∈ u ↔ v ∈ xs ∨ v ∈ adds := by
    split_ifs with ha
    · obtain ⟨r, hr, hrn, hrm⟩ := @uniqifyScalars_nodup (xs ++ adds) fun v hv =>
        hcmp v (hkd v (List.mem_append_left _ hv))
      have ht := @sliceElementType_scalars [xs, adds] kd
        (by simpa using fun _ => List.ne_nil_of_length_pos ha) fun v hv =>
          hkd v (List.mem_append_left _ (by simpa using hv))
      refine ⟨r, ?_, hrn, fun v => (hrm v).trans List.mem_append⟩
      rw [fieldRun_single, show 2 * size (.array adds) = (2 * size.sizeList adds + 1) + 1 by
          simp only [size]; omega, mergeField_mergeList S t (splitDeleteListKey_plain hk) hl,
        mergeSlice_of_scalars S _ _ _ _ _ _ _ _ ht.1 ht.2, if_neg (by simp), hr]
      rfl
    · refine ⟨xs, rfl, hxs, fun v => ?_⟩
      simp [List.length_eq_zero.mp (Nat.eq_zero_of_not_pos ha)]
  have hukd : ∀ v ∈ u ++ dels, v.isScalar ∧ v.kind = kd := fun v hv => by
    rcases List.mem_append.mp hv with hv | hv
    · exact hkd v (by rcases (hum v).mp hv with h | h <;> simp [h])
    · exact hkd v (by simp [hv])
  -- the deletion list: the elements that print as a deletion are removed
  rw [listEntries, fieldRun_append, hu]
  show ∃ rs, fieldRun S t true true _ (some (.array u)) = _ ∧ _
  split_ifs with hd
  · obtain ⟨r, hr, -, hrn, hrm⟩ := @deleteFromSlice_filter u dels
      (fun v hv => hcmp v (hukd v (List.mem_append_left _ hv)))
      (fun v hv => hcmp v (hukd v (List.mem_append_right _ hv)))
    have ht := @sliceElementType_scalars [u, dels] kd
      (by simpa using fun _ => List.ne_nil_of_length_pos hd) fun v hv => hukd v (by simpa using hv)
    refine ⟨r, ?_, hrn, fun v => (hrm v).trans (by rw [hum])⟩
    rw [fieldRun_single, show 2 * size (.array dels) = (2 * size.sizeList dels + 1) + 1 by
        simp only [size]; omega,
      mergeField_mergeList S t (splitDeleteListKey_deleteList k) hl,
      mergeSlice_of_scalars S _ _ _ _ _ _ _ _ ht.1 ht.2, if_pos ⟨rfl, rfl⟩, hr]
    rfl
  · refine ⟨u, rfl, hun, fun v => ?_⟩
    simp [hum, List.length_eq_zero.mp (Nat.eq_zero_of_not_pos hd)]

end Merge

/-! ## What the diff writes for one field -/

/-- `diffListsOfScalars` with neither flag is the walk over the two sorted lists. -/
theorem diffListsOfScalars_eq_walk (original modified : List Value) :
    diffListsOfScalars original modified false false =
      scalarWalk (sortScalars original) (sortScalars modified) := by
  simpa using diffListsOfScalarsLoop_eq (sortScalars original) (sortScalars modified) false false
    _ 0 0 [] [] le_rfl

/-- On scalars, `reflect.DeepEqual` of two lists is equality. -/
theorem eq_of_deepEqualList {xs ys : List Value} (hxs : ∀ v ∈ xs, v.isScalar)
    (h : deepEqual.deepEqualList xs ys = true) : xs = ys := by
  induction xs generalizing ys with
  | nil => cases ys <;> first | rfl | cases h
  | cons x xs ih =>
    cases ys with
    | nil => cases h
    | cons y ys =>
      rw [List.forall_mem_cons] at hxs
      simp only [deepEqual.deepEqualList, Bool.and_eq_true] at h
      rw [eq_of_deepEqual (.inl hxs.1) h.1, ih hxs.2 h.2]

section Diff

variable {τ : Type} (S : Schema τ)

/-- **The diff of a merge list of scalars.** On lists of scalars of one kind, `diffLists` returns
additions drawn from `modified` and deletions drawn from `original`, whose `%v` strings are the
multiset differences of the two lists' strings. -/
theorem diffLists_scalars {f : Nat} {xs ys : List Value} {kd : Kind}
    (hkd : ∀ v ∈ xs ++ ys, v.isScalar ∧ v.kind = kd) (elemType : τ) (mergeKey : String) :
    ∃ adds dels, diffLists S (f + 1) xs ys elemType mergeKey false false = .ok (adds, dels) ∧
      adds.Subperm ys ∧ dels.Subperm xs ∧
      (adds.map fmtV : Multiset String) = ↑(ys.map fmtV) - ↑(xs.map fmtV) ∧
      (dels.map fmtV : Multiset String) = ↑(xs.map fmtV) - ↑(ys.map fmtV) := by
  by_cases hx : xs.length = 0
  · -- no original list: the modified list is all additions
    rw [List.length_eq_zero.mp hx]
    refine ⟨ys, [], ?_, List.Subperm.refl _, List.nil_subperm, by simp, by simp [Multiset.zero_sub]⟩
    cases ys <;> rfl
  · obtain ⟨ht, hmap⟩ := @sliceElementType_scalars [xs, ys] kd
      (fun (h : [xs, ys].flatten = []) => hx (by simp_all)) (by simpa using hkd)
    have hslice := (sliceElementType_ok ht).2.1
    have hw := scalarWalk_sortScalars_fst xs ys
    have hw' := scalarWalk_sortScalars_fst ys xs
    refine ⟨_, _, ?_, hw.2.1, hw'.2.1, hw.2.2, hw'.2.2⟩
    -- `hmap` and `hslice` rule out the arms for maps and for slices
    simp only [diffLists, if_neg hx, ht, bind, Except.bind]
    rw [diffListsOfScalars_eq_walk, scalarWalk_swap (sortScalars ys)]
    rfl

end Diff

/-- **The merge undoes the diff, element by element.** For lists of scalars of one kind, the
first without two elements that print alike, an element is in `original` or the additions and
prints as no deletion exactly when it is in `modified`. -/
theorem mem_merged_iff {xs ys adds dels : List Value} {kd : Kind}
    (hkd : ∀ v ∈ xs ++ ys, v.isScalar ∧ v.kind = kd) (hxs : (xs.map fmtV).Nodup)
    (hsa : adds.Subperm ys)
    (hadd : (adds.map fmtV : Multiset String) = ↑(ys.map fmtV) - ↑(xs.map fmtV))
    (hdel : (dels.map fmtV : Multiset String) = ↑(xs.map fmtV) - ↑(ys.map fmtV)) (v : Value) :
    ((v ∈ xs ∨ v ∈ adds) ∧ v.fmtV ∉ dels.map fmtV) ↔ v ∈ ys := by
  -- one `%v` string names one element of the two lists
  have hinj : ∀ w ∈ xs ++ ys, ∀ w' ∈ xs ++ ys, w.fmtV = w'.fmtV → w = w' := fun w hw w' hw' h =>
    fmtV_inj_of_kind (hkd w hw).1 ((hkd w hw).2.trans (hkd w' hw').2.symm) h
  -- a string is deleted when `original` has it and `modified` lacks it
  have hdel' : ∀ s, s ∈ dels.map fmtV ↔ s ∈ xs.map fmtV ∧ s ∉ ys.map fmtV := fun s => by
    have := List.nodup_iff_count_le_one.mp hxs s
    rw [← Multiset.mem_coe, hdel, Multiset.mem_sub, Multiset.coe_count, Multiset.coe_count,
      ← List.count_pos_iff, ← List.count_pos_iff]
    omega
  constructor
  · rintro ⟨hx | ha, hd⟩
    · -- an element of `original` that is not deleted is in `modified`
      have : v.fmtV ∈ ys.map fmtV :=
        not_not.mp fun h => hd ((hdel' _).mpr ⟨List.mem_map_of_mem _ hx, h⟩)
      obtain ⟨w, hw, he⟩ := List.mem_map.mp this
      exact hinj w (List.mem_append_right _ hw) v (List.mem_append_left _ hx) he ▸ hw
    · exact hsa.subset ha
  · intro hy
    refine ⟨?_, fun h => ((hdel' _).mp h).2 (List.mem_map_of_mem _ hy)⟩
    by_cases hx : v ∈ xs
    · exact .inl hx
    -- an element only `modified` has is an addition
    have hxs' : v.fmtV ∉ xs.map fmtV := fun h => by
      obtain ⟨w, hw, he⟩ := List.mem_map.mp h
      exact hx (hinj w (List.mem_append_left _ hw) v (List.mem_append_right _ hy) he ▸ hw)
    have : v.fmtV ∈ adds.map fmtV := by
      rw [← Multiset.mem_coe, hadd, Multiset.mem_sub, Multiset.coe_count, Multiset.coe_count,
        List.count_eq_zero.mpr hxs']
      exact List.count_pos_iff.mpr (List.mem_map_of_mem _ hy)
    obtain ⟨w, hw, he⟩ := List.mem_map.mp this
    exact .inr (hinj w (List.mem_append_right _ (hsa.subset hw)) v (List.mem_append_right _ hy)
      he ▸ hw)

section Field

variable {τ : Type} (S : Schema τ)

/-- **One merge list, diffed and merged back.** For a merge list of scalars of one kind, neither
list with two elements that print alike, the diff returns, and its additions and deletion list
merged into the original list give the modified list, in some order. -/
theorem fieldRun_diffLists (t : τ) {k : String}
    (hk : hasPrefix k deleteFromPrimitiveListDirectivePrefix = false) {ft : τ} {mk : String}
    (hl : S.lookupPatchMetadata t k = .ok (ft, mergeDirective, mk)) {xs ys : List Value}
    {kd : Kind} (hkd : ∀ v ∈ xs ++ ys, v.isScalar ∧ v.kind = kd) (hxs : (xs.map fmtV).Nodup)
    (hys : (ys.map fmtV).Nodup) (f : Nat) :
    ∃ adds dels, diffLists S (f + 1) xs ys (S.elem ft) mk false false = .ok (adds, dels) ∧
      ∃ rs, fieldRun S t true true (listEntries k adds dels) (some (.array xs)) =
        .ok (some (.array rs)) ∧ rs.Perm ys := by
  obtain ⟨adds, dels, hd, hsa, hsd, hadd, hdel⟩ :=
    @diffLists_scalars _ S f xs ys kd hkd (S.elem ft) mk
  have hkd' : ∀ v ∈ xs ++ adds ++ dels, v.isScalar ∧ v.kind = kd := fun v hv => by
    rcases List.mem_append.mp hv with hv | hv
    · rcases List.mem_append.mp hv with hv | hv
      · exact hkd v (List.mem_append_left _ hv)
      · exact hkd v (List.mem_append_right _ (hsa.subset hv))
    · exact hkd v (List.mem_append_left _ (hsd.subset hv))
  obtain ⟨rs, hrs, hrn, hrm⟩ := fieldRun_listEntries S t hk hl hkd' (hxs.of_map _)
  exact ⟨adds, dels, hd, rs, hrs, (List.perm_ext_iff_of_nodup hrn (hys.of_map _)).mpr fun v =>
    (hrm v).trans (mem_merged_iff hkd hxs hsa hadd hdel v)⟩

end Field

/-! ## The loop of `diffMaps` -/

/-- `m[k] = v` for a key `m` lacks appends the key. -/
theorem insert_of_not_mem {m : JSONMap} {k : String} (hk : k ∉ keys m) (v : Value) :
    insert m k v = m ++ [(k, v)] := by
  induction m with
  | nil => rfl
  | cons kv m ih =>
    obtain ⟨k', v'⟩ := kv
    simp only [keys, List.map_cons, List.mem_cons, not_or] at hk
    simp only [JSONMap.insert, if_neg (Ne.symm hk.1), List.cons_append, ih hk.2]

theorem keysOfField_nil (mdl : Bool) (x : String) : keysOfField mdl [] x = [] := rfl

theorem keysOfField_append (mdl : Bool) (P Q : JSONMap) (x : String) :
    keysOfField mdl (P ++ Q) x = keysOfField mdl P x ++ keysOfField mdl Q x :=
  List.filter_append _ _

theorem keysOfField_of_forall {mdl : Bool} {E : JSONMap} {x : String}
    (h : ∀ kv ∈ E, mergeTarget mdl kv.1 = x) : keysOfField mdl E x = E :=
  List.filter_eq_self.mpr fun kv hkv => by simpa using h kv hkv

theorem keysOfField_eq_nil {mdl : Bool} {E : JSONMap} {x : String}
    (h : ∀ kv ∈ E, mergeTarget mdl kv.1 ≠ x) : keysOfField mdl E x = [] :=
  List.filter_eq_nil_iff.mpr fun kv hkv => by simpa using h kv hkv

/-- The loop writes a merge list's additions, then its deletion list: with both keys new to the
patch, it appends `listEntries`. -/
theorem insert_listEntries {patch : JSONMap} {k : String}
    (hkp : hasPrefix k deleteFromPrimitiveListDirectivePrefix = false)
    (hnew : ∀ {k'}, mergeTarget true k' = k → k' ∉ keys patch) (adds dels : List Value) :
    (if dels.length > 0 then
        insert (if adds.length > 0 then insert patch k (.array adds) else patch)
          (deleteFromPrimitiveListDirectivePrefix ++ "/" ++ k) (.array dels)
      else if adds.length > 0 then insert patch k (.array adds) else patch) =
      patch ++ listEntries k adds dels := by
  have hk : k ∉ keys patch := hnew (mergeTarget_key hkp true)
  have hd : deleteFromPrimitiveListDirectivePrefix ++ "/" ++ k ∉ keys patch :=
    hnew (mergeTarget_deleteList k)
  have hne : deleteFromPrimitiveListDirectivePrefix ++ "/" ++ k ≠ k := fun h => by
    have := hasPrefix_deleteList k
    rw [h, hkp] at this
    cases this
  have hd' : deleteFromPrimitiveListDirectivePrefix ++ "/" ++ k ∉ keys (patch ++ [(k, .array adds)]) := by
    simp only [keys, List.map_append, List.mem_append, List.map_cons, List.map_nil,
      List.mem_singleton, not_or]
    exact ⟨hd, hne⟩
  simp only [listEntries]
  split_ifs <;> simp only [insert_of_not_mem hk, insert_of_not_mem hd, insert_of_not_mem hd',
    List.append_assoc, List.nil_append, List.append_nil, List.singleton_append]

section Loop

variable {τ : Type} (S : Schema τ) (original : JSONMap) (t : τ)

/-- **A key whose value is written as it is.** On a key `original` lacks, or holds a value of
another kind, the loop of `diffMaps` appends `k: mv` to the patch, which, run on `original`'s
entry, gives `mv`. -/
theorem diffMapsLoop_cons_set {f : Nat} {k : String} {mv : Value} (hk : k ≠ directiveMarker)
    (hkp : hasPrefix k deleteFromPrimitiveListDirectivePrefix = false)
    (hmv : mv.isScalar ∨ ∃ ys, mv = .array ys)
    (ho : ∀ ov, get? original k = some ov → ov.kind ≠ mv.kind) (rest patch : JSONMap)
    (hfresh : ∀ kv ∈ patch, mergeTarget true kv.1 ≠ k) :
    diffMapsLoop S (f + 1) original t false false ((k, mv) :: rest) patch =
        diffMapsLoop S f original t false false rest (patch ++ [(k, mv)]) ∧
      fieldRun S t true true [(k, mv)] (get? original k) = .ok (some mv) := by
  have hins : insert patch k mv = patch ++ [(k, mv)] := insert_of_not_mem (fun hmem => by
    obtain ⟨kv, hkv, rfl⟩ := List.mem_map.mp hmem
    exact hfresh kv hkv (mergeTarget_key hkp true)) mv
  refine ⟨?_, by
    rw [fieldRun_single]
    exact mergeField_set S t hkp hmv true fun ov h h' => absurd h' (ho ov h)⟩
  cases hg : get? original k with
  | none => simp only [diffMapsLoop, hg, Bool.false_eq_true, if_false, hins]
  | some ov =>
    simp only [diffMapsLoop, hg, if_neg hk, ne_eq, ho ov hg, not_false_eq_true, if_true,
      Bool.false_eq_true, if_false, hins]

/-- **One key of `modified`.** On a key that is no key of the patch syntax, whose value in
`modified` and in `original` is a scalar or a list of scalars (of one kind when both are lists),
and for which the type has metadata, the loop of `diffMaps` appends to the patch entries that
write that key's field alone; run on `original`'s entry, they give `modified`'s, up to the order
of a merged list. -/
theorem diffMapsLoop_cons_scalarLists {f : Nat} (hf : 1 ≤ f) {k : String} {mv : Value}
    (hk : k ≠ directiveMarker) (hkp : hasPrefix k deleteFromPrimitiveListDirectivePrefix = false)
    (hmv : mv.isScalar ∨ mv.isScalarList)
    (ho : ∀ ov, get? original k = some ov → (ov.isScalar ∨ ov.isScalarList) ∧
      (∃ r, S.lookupPatchMetadata t k = .ok r) ∧ listsOfOneKind (some ov) (some mv))
    (rest patch : JSONMap) (hfresh : ∀ kv ∈ patch, mergeTarget true kv.1 ≠ k) :
    ∃ E, diffMapsLoop S (f + 1) original t false false ((k, mv) :: rest) patch =
        diffMapsLoop S f original t false false rest (patch ++ E) ∧
      (∀ kv ∈ E, mergeTarget true kv.1 = k) ∧
      ∃ e, fieldRun S t true true E (get? original k) = .ok e ∧ SameUpToOrder S t k e (some mv) := by
  -- the keys that write the field `k` are new to the patch
  have hnew : ∀ {k'}, mergeTarget true k' = k → k' ∉ keys patch := fun hk' hmem => by
    obtain ⟨kv, hkv, rfl⟩ := List.mem_map.mp hmem
    exact hfresh kv hkv hk'
  have hins : ∀ v, insert patch k v = patch ++ [(k, v)] :=
    insert_of_not_mem (hnew (mergeTarget_key hkp true))
  have hone : ∀ kv ∈ [(k, mv)], mergeTarget true kv.1 = k := by simp [mergeTarget_key hkp]
  have hmv' : mv.isScalar ∨ ∃ ys, mv = .array ys :=
    hmv.imp_right fun h => (isScalarList_iff.mp h).imp fun _ h => h.1
  -- the modified value, written as it is
  have hset : ∀ e : Option Value, (∀ ov, e = some ov → ov.kind = mv.kind → ∃ ft strategy mk,
      S.lookupPatchMetadata t k = .ok (ft, strategy, mk) ∧
        (mv.kind = .slice → strategy ≠ mergeDirective)) →
      fieldRun S t true true [(k, mv)] e = .ok (some mv) := fun e h => by
    rw [fieldRun_single]
    exact mergeField_set S t hkp hmv' true h
  cases hg : get? original k with
  | none =>
    obtain ⟨h1, h2⟩ := diffMapsLoop_cons_set S original t hk hkp hmv' (by simp [hg]) rest patch
      hfresh
    exact ⟨[(k, mv)], h1, hone, _, hg ▸ h2, .inl rfl⟩
  | some ov =>
    obtain ⟨hov, ⟨⟨ft, strategy, mk⟩, hl⟩, hkind⟩ := ho ov hg
    -- the code compares the two values: the modified value unless they are deeply equal
    have hcompare : (ov.deepEqual mv = true → ov = mv) →
        (mv.kind = .slice → strategy ≠ mergeDirective) → ∃ E,
          (if (!ov.deepEqual mv) = true then insert patch k mv else patch) = patch ++ E ∧
          (∀ kv ∈ E, mergeTarget true kv.1 = k) ∧
          ∃ e, fieldRun S t true true E (some ov) = .ok e ∧ SameUpToOrder S t k e (some mv) :=
      fun hde hs => by
        by_cases h : ov.deepEqual mv
        · exact ⟨[], by simp [h], by simp, _, rfl, .inl (congrArg some (hde h))⟩
        · exact ⟨[(k, mv)], by simp [h, hins], hone, _,
            hset _ fun _ _ _ => ⟨ft, strategy, mk, hl, hs⟩, .inl rfl⟩
    by_cases hkd : ov.kind = mv.kind
    swap
    · -- another kind: the modified value is written
      obtain ⟨h1, h2⟩ := diffMapsLoop_cons_set S original t hk hkp hmv'
        (fun ov' h => Option.some.inj (hg.symm.trans h) ▸ hkd) rest patch hfresh
      exact ⟨[(k, mv)], h1, hone, _, hg ▸ h2, .inl rfl⟩
    simp only [diffMapsLoop, hg, if_neg hk, hkd, ne_eq, not_true_eq_false, if_false, Bool.not_false,
      Bool.true_and, Bool.false_eq_true]
    split
    · -- two maps: `original` holds none
      simp [isScalar, isScalarList] at hov
    · -- two lists
      rename_i xs ys
      simp only [isScalar, isScalarList, Bool.false_eq_true, false_or, Bool.and_eq_true,
        decide_eq_true_eq] at hov hmv
      simp only [lookup, hl, Except.mapError]
      by_cases hs : strategy = mergeDirective
      · -- a merge list: its additions, then its parallel deletion list
        rw [if_pos hs]
        obtain ⟨f', rfl⟩ : ∃ f', f = f' + 1 := ⟨f - 1, by omega⟩
        obtain ⟨kd, hkd'⟩ := oneKind_kind hkind
        obtain ⟨adds, dels, hd, rs, hrs, hperm⟩ :=
          fieldRun_diffLists S t hkp (hs ▸ hl) hkd' hov.2 hmv.2 f'
        refine ⟨listEntries k adds dels, ?_, fun kv h => mergeTarget_of_mem_listEntries hkp h, _,
          hrs, .inr ⟨ft, mk, rs, ys, hs ▸ hl, rfl, rfl, hperm⟩⟩
        simp only [hd, bind, Except.bind]
        rw [insert_listEntries hkp hnew]
      · rw [if_neg hs]
        obtain ⟨E, hE, hEt, hEr⟩ := hcompare
          (fun h => congrArg _ (eq_of_deepEqualList
            (fun v hv => ((oneKind_kind hov.1).choose_spec v hv).1) h)) fun _ => hs
        exact ⟨E, by rw [hE], hEt, hEr⟩
    · -- two scalars
      rename_i hobj harr
      have hsc : ov.isScalar := hov.resolve_right fun h => by
        obtain ⟨xs, rfl, -⟩ := isScalarList_iff.mp h
        cases mv <;> simp only [kind, reduceCtorEq] at hkd
        exact harr _ _ rfl rfl
      obtain ⟨E, hE, hEt, hEr⟩ := hcompare (eq_of_deepEqual (.inl hsc)) fun h =>
        absurd (hkd.trans h) (kind_ne_slice_of_isScalar hsc)
      exact ⟨E, by rw [hE], hEt, hEr⟩

/-- **The loop of `diffMaps`, field by field.** Say what one step of the loop does on each key of
`modified` (`hstep`): it appends entries that write that key's field alone, whose run on
`original`'s entry gives an entry `R`-related to `modified`'s, given a bound of twice the key's
value size plus `B`. Then, over keys of `modified` not yet visited, from a patch none of whose
entries writes one of them, and with a bound of twice their sizes plus `B`, the loop returns. A
field it does not visit keeps its entries; each field it visits gets entries whose run on
`original`'s entry is `R`-related to `modified`'s. -/
theorem diffMapsLoop_fields {modified : JSONMap} (hnd : (keys modified).Nodup)
    (R : String → Option Value → Option Value → Prop) {B : Nat} (hB : 1 ≤ B)
    (hstep : ∀ k mv, (k, mv) ∈ modified → ∀ f rest patch, 2 * size mv + B ≤ f + 1 →
      (∀ kv ∈ patch, mergeTarget true kv.1 ≠ k) →
      ∃ E, diffMapsLoop S (f + 1) original t false false ((k, mv) :: rest) patch =
          diffMapsLoop S f original t false false rest (patch ++ E) ∧
        (∀ kv ∈ E, mergeTarget true kv.1 = k) ∧
        ∃ e, fieldRun S t true true E (get? original k) = .ok e ∧ R k e (some mv)) :
    ∀ (rest : JSONMap) (fuel : Nat) (patch : JSONMap), 2 * size.sizeFields rest + B ≤ fuel →
      (∀ kv ∈ rest, kv ∈ modified) → (keys rest).Nodup →
      (∀ kv ∈ patch, mergeTarget true kv.1 ∉ keys rest) →
      ∃ P, diffMapsLoop S fuel original t false false rest patch = .ok P ∧ ∀ x,
        (x ∉ keys rest → keysOfField true P x = keysOfField true patch x) ∧
        (x ∈ keys rest → ∃ e, fieldRun S t true true (keysOfField true P x) (get? original x) =
          .ok e ∧ R x e (get? modified x))
  | [], fuel, patch, hf, _, _, _ => by
    obtain ⟨f, rfl⟩ : ∃ f, fuel = f + 1 := ⟨fuel - 1, by omega⟩
    exact ⟨patch, by rw [diffMapsLoop],
      fun x => ⟨fun _ => rfl, fun h => absurd h (List.not_mem_nil _)⟩⟩
  | (k, mv) :: rest, fuel, patch, hf, hsub, hndr, hfresh => by
    obtain ⟨f, rfl⟩ : ∃ f, fuel = f + 1 :=
      ⟨fuel - 1, by have := one_le_size mv; simp only [size.sizeFields] at hf; omega⟩
    have hkmv := hsub (k, mv) (List.mem_cons_self _ _)
    have hnd' : k ∉ keys rest ∧ (keys rest).Nodup := List.nodup_cons.mp hndr
    have hfresh' : ∀ kv ∈ patch, mergeTarget true kv.1 ≠ k := fun kv hkv h =>
      hfresh kv hkv (by rw [h]; exact List.mem_cons_self _ _)
    have hmk : get? modified k = some mv := get?_eq_some_of_mem hnd hkmv
    obtain ⟨E, hstep', htarget, e, he, hsame⟩ := hstep k mv hkmv f rest patch
      (by simp only [size.sizeFields] at hf; omega) hfresh'
    obtain ⟨P, hP, hfields⟩ := diffMapsLoop_fields hnd R hB hstep rest f (patch ++ E)
      (by have := one_le_size mv; simp only [size.sizeFields] at hf; omega)
      (fun kv h => hsub kv (List.mem_cons_of_mem _ h)) hnd'.2 fun kv hkv => by
        rcases List.mem_append.mp hkv with h | h
        · exact fun hr => hfresh kv h (List.mem_cons_of_mem _ hr)
        · rw [htarget kv h]; exact hnd'.1
    refine ⟨P, hstep'.trans hP, fun x => ⟨fun hx => ?_, fun hx => ?_⟩⟩
    · -- a field the loop does not visit
      have hxk : k ≠ x := fun h => hx (h ▸ List.mem_cons_self _ _)
      rw [(hfields x).1 fun h => hx (List.mem_cons_of_mem _ h), keysOfField_append,
        keysOfField_eq_nil fun kv h => (htarget kv h).trans_ne hxk, List.append_nil]
    · rcases List.mem_cons.mp hx with rfl | hx
      · -- the field of this key: its entries are those the step appended
        rw [(hfields _).1 hnd'.1, keysOfField_append, keysOfField_of_forall htarget,
          keysOfField_eq_nil hfresh', List.nil_append, hmk]
        exact ⟨e, he, hsame⟩
      · exact (hfields x).2 hx

end Loop

theorem keys_cons (k : String) (v : Value) (m : JSONMap) : keys ((k, v) :: m) = k :: keys m := rfl

/-- **`addDeletions`, field by field.** For each key of `original` that `modified` lacks, and that
the patch does not hold yet, it appends a `null` that writes that key's field. -/
theorem keysOfField_addDeletions (modified : JSONMap) :
    ∀ (original P : JSONMap), (keys original).Nodup →
      (∀ k ∈ keys original, hasPrefix k deleteFromPrimitiveListDirectivePrefix = false) →
      (∀ k ∈ keys original, get? modified k = none → k ∉ keys P) → ∀ x,
      keysOfField true (addDeletions modified original P) x = keysOfField true P x ++
        if x ∈ keys original ∧ (get? modified x).isNone then [(x, .null)] else []
  | [], P, _, _, _, x => by simp [addDeletions, keys]
  | (k, v) :: rest, P, hnd, hp, hfresh, x => by
    rw [keys_cons] at hnd hp hfresh
    have hnd' := List.nodup_cons.mp hnd
    have hkp := hp k (List.mem_cons_self _ _)
    have hp' := fun k' h => hp k' (List.mem_cons_of_mem _ h)
    rw [addDeletions, keys_cons]
    cases hb : get? modified k with
    | some w =>
      -- `modified` has the key: no `null` for it
      rw [Option.isSome_some, if_pos rfl, keysOfField_addDeletions modified rest P hnd'.2 hp'
        fun k' h => hfresh k' (List.mem_cons_of_mem _ h)]
      congr 1
      by_cases hx : x = k
      · subst hx; simp [hb, hnd'.1]
      · exact if_congr (by simp [hx]) rfl rfl
    | none =>
      have hk := hfresh k (List.mem_cons_self _ _) hb
      rw [Option.isSome_none, if_neg Bool.false_ne_true, insert_of_not_mem hk,
        keysOfField_addDeletions modified rest _ hnd'.2 hp' fun k' h h' => by
          simp only [keys, List.map_append, List.mem_append, List.map_cons, List.map_nil,
            List.mem_singleton, not_or]
          exact ⟨hfresh k' (List.mem_cons_of_mem _ h) h', fun e => hnd'.1 (e ▸ h)⟩,
        keysOfField_append, List.append_assoc, keysOfField_cons, mergeTarget_key hkp]
      congr 1
      by_cases hx : x = k
      · subst hx; simp [keysOfField, hb, hnd'.1]
      · rw [if_neg (Ne.symm hx), keysOfField_nil, List.nil_append]
        exact if_congr (by simp [hx]) rfl rfl

section RoundTrip

variable {τ : Type} (S : Schema τ)

/-- **The round trip from the loop of the diff.** When the loop of `diffMaps` from `a` to `b`
returns a patch that writes no key `b` lacks, and each of whose fields, run on `a`'s entry, gives
an entry `R`-related to `b`'s, and `R` holds between two absent entries, then the two-way patch
applies to `a` and gives a document each field of which is `R`-related to `b`'s. -/
theorem twoWay_roundTrip_of_loop {R : String → Option Value → Option Value → Prop}
    (hR : ∀ k, R k none none)
    {a b : JSONMap} {t : τ} (ha : FlatKeys a) (hb : FlatKeys b) {P : JSONMap}
    (hP : diffMapsLoop S (2 * (size (.object a) + size (.object b))) a t false false b [] = .ok P)
    (hfields : ∀ x, (x ∉ keys b → keysOfField true P x = []) ∧
      (x ∈ keys b → ∃ e, fieldRun S t true true (keysOfField true P x) (get? a x) = .ok e ∧
        R x e (get? b x))) :
    ∃ patch r, CreateTwoWayMergeMapPatch S a b t [] = .ok patch ∧
      StrategicMergeMapPatch S a patch t = .ok r ∧ ∀ k, R k (get? r k) (get? b k) := by
  -- `addDeletions` sets the keys `b` lacks to `null`
  have hnull := keysOfField_addDeletions b a P ha.nodup (fun k hk => (ha.key hk).2)
    fun k hk hbk hkP => by
      obtain ⟨kv, hkv, rfl⟩ := List.mem_map.mp hkP
      have hmem : kv ∈ keysOfField true P kv.1 :=
        mem_keysOfField.mpr ⟨hkv, mergeTarget_key (ha.key hk).2 true⟩
      rw [(hfields kv.1).1 fun h => get?_eq_none_iff.mp hbk h] at hmem
      exact List.not_mem_nil _ hmem
  -- each field of the patch, run on `a`'s entry, gives `b`'s
  have hfield : ∀ x, ∃ e, fieldRun S t true true (keysOfField true (addDeletions b a P) x)
      (get? a x) = .ok e ∧ R x e (get? b x) := fun x => by
    rw [hnull x]
    by_cases hxb : x ∈ keys b
    · rw [if_neg fun h => get?_eq_none_iff.mp (Option.isNone_iff_eq_none.mp h.2) hxb,
        List.append_nil]
      exact (hfields x).2 hxb
    · rw [(hfields x).1 hxb, get?_eq_none hxb, List.nil_append]
      by_cases hxa : x ∈ keys a
      · -- a key `b` lacks: its `null` deletes it
        rw [if_pos ⟨hxa, rfl⟩, fieldRun_single, mergeField_null S t (ha.key hxa).2]
        exact ⟨none, rfl, hR x⟩
      · rw [if_neg fun h => hxa h.1, get?_eq_none hxa]
        exact ⟨none, rfl, hR x⟩
  -- no key of the patch is a `$patch` directive
  have hd : get? (addDeletions b a P) directiveMarker = none := by
    rw [← get?_keysOfField true _ directiveMarker, mergeTarget_key (by decide) true, hnull,
      (hfields _).1 fun h => (hb.key h).1 rfl, if_neg fun h => (ha.key h.1).1 rfl]
    rfl
  have hbound : ∀ q : JSONMap, 2 * size.sizeFields q + 1 ≤ 2 * size (.object q) := fun q => by
    simp only [size]; omega
  obtain ⟨R', hR'⟩ := mergeMapLoop_of_fields t true true _ a _ ha.nodup (hbound _)
    fun x => (hfield x).imp fun _ h => h.1
  obtain ⟨-, hRf⟩ := mergeMapLoop_fields t true true _ a R' _ ha.nodup (hbound _) hR'
  refine ⟨addDeletions b a P, R', ?_, by rw [StrategicMergeMapPatch, mergeMap, hd]; exact hR',
    fun x => ?_⟩
  · simp only [CreateTwoWayMergeMapPatch, diffMaps, hP, bind, Except.bind, pure, Except.pure,
      checkPreconditions, List.all_nil, if_true, Bool.false_eq_true, if_false]
  · obtain ⟨e, he, hs⟩ := hfield x
    rw [hRf x, Except.ok.injEq] at he
    exact he ▸ hs

/-- **Round trip with merge lists.** For documents `a` and `b` of scalars and lists of scalars,
whose lists at one key hold scalars of one kind, and a type whose metadata lookup succeeds for the
keys of `a`, the patch from `a` to `b` applies to `a` and gives `b`, but for the order of the
elements of the lists the type merges. -/
theorem twoWay_roundTrip_lists (a b : JSONMap) (t : τ) (ha : ScalarLists a) (hb : ScalarLists b)
    (hkind : ∀ k ∈ keys a, listsOfOneKind (get? a k) (get? b k))
    (hlook : ∀ k ∈ keys a, ∃ r, S.lookupPatchMetadata t k = .ok r) :
    ∃ patch r, CreateTwoWayMergeMapPatch S a b t [] = .ok patch ∧
      StrategicMergeMapPatch S a patch t = .ok r ∧
        ∀ k, SameUpToOrder S t k (get? r k) (get? b k) := by
  -- the loop of the diff visits the keys of `b`, each with the step for scalars and their lists
  obtain ⟨P, hP, hfields⟩ := diffMapsLoop_fields S a t hb.nodup (SameUpToOrder S t)
    (show 1 ≤ 2 * size (.object a) by have := one_le_size (.object a); omega)
    (fun k mv hkmv f rest patch hf hfresh => by
      obtain ⟨hk, hkp⟩ := hb.key (List.mem_map_of_mem Prod.fst hkmv)
      have hmk : get? b k = some mv := get?_eq_some_of_mem hb.nodup hkmv
      refine diffMapsLoop_cons_scalarLists S a t (by have := one_le_size mv; omega) hk hkp
        (hb.value _ hkmv) (fun ov hov => ?_) rest patch hfresh
      have hko := mem_keys_of_isSome (show (get? a k).isSome by rw [hov]; rfl)
      exact ⟨ha.value _ (mem_of_get? hov), hlook k hko, hov ▸ hmk ▸ hkind k hko⟩)
    b (2 * (size (.object a) + size (.object b))) [] (by simp only [size]; omega) (fun _ h => h)
    hb.nodup (fun _ h => absurd h (List.not_mem_nil _))
  exact twoWay_roundTrip_of_loop S (fun _ => .inl rfl) ha.toFlatKeys hb.toFlatKeys hP hfields

/-- `{"f": ["x", "y"], "n": 1, "g": true}` to `{"f": ["y", "z"], "n": 2, "h": "s"}`, with every
list merged: an element added to and one deleted from the list, a change, a deletion and an
addition. -/
theorem twoWay_roundTrip_lists_merge_list :
    ∃ patch r, CreateTwoWayMergeMapPatch (uniformSchema "merge" "")
        [("f", .array [.string "x", .string "y"]), ("n", .number 1), ("g", .bool true)]
        [("f", .array [.string "y", .string "z"]), ("n", .number 2), ("h", .string "s")] () [] =
          .ok patch ∧
      StrategicMergeMapPatch (uniformSchema "merge" "")
        [("f", .array [.string "x", .string "y"]), ("n", .number 1), ("g", .bool true)] patch () =
          .ok r ∧
      ∀ k, SameUpToOrder (uniformSchema "merge" "") () k (get? r k)
        (get? [("f", .array [.string "y", .string "z"]), ("n", .number 2), ("h", .string "s")] k) :=
  twoWay_roundTrip_lists (uniformSchema "merge" "") _ _ () ⟨⟨by decide, by decide, by decide⟩,
    by decide⟩ ⟨⟨by decide, by decide, by decide⟩, by decide⟩ (by decide) fun _ _ => ⟨_, rfl⟩

end RoundTrip

end ClientGo.Strategicpatch
