import ClientGo.Strategicpatch.Diff
import Mathlib.Data.Multiset.Basic

/-!
# `diffListsOfScalars` computes multiset differences

`diffListsOfScalars` sorts both lists by their `%v` strings and walks them with two indices: equal
strings step both, the smaller string is an addition (from `modified`) or a deletion (from
`original`), and once one list is done the rest of the other goes to its list. `scalarWalk` is the
same walk on the lists themselves, with neither indices nor a recursion bound, and the loop with the
bound `diffListsOfScalars` gives it computes what `scalarWalk` computes
(`diffListsOfScalarsLoop_eq`).

On lists sorted by `%v`, the strings of what `scalarWalk` adds are those of `modified` less those
of `original`, counted with multiplicity (`scalarWalk_fst_fmtV`), and its deletions are its
additions with the two lists swapped (`scalarWalk_swap`). Of Go's string order this needs only that
`<` is a strict total order (`strLess_asymm`, `strLess_total`, `strLess_trans`), which also makes
`sortScalars` sort.
-/

namespace ClientGo.Strategicpatch

open Value

/-! ## Go's string order -/

section StringOrder

open strLess (charsLess)

theorem charsLess_irrefl : ∀ l : List Char, charsLess l l = false
  | [] => rfl
  | c :: l => by simp [charsLess, charsLess_irrefl l]

theorem charsLess_asymm : ∀ a b : List Char, charsLess a b = true → charsLess b a = false
  | _, [], h => by simp [charsLess] at h
  | [], _ :: _, _ => rfl
  | c :: a, d :: b, h => by
    simp only [charsLess, Bool.or_eq_true, Bool.and_eq_true, decide_eq_true_eq] at h
    rcases h with h | ⟨e, h⟩
    · simp [charsLess, Nat.lt_asymm h, Nat.ne_of_gt h]
    · simp [charsLess, e, charsLess_asymm a b h]

theorem charsLess_trans :
    ∀ a b c : List Char, charsLess a b = true → charsLess b c = true → charsLess a c = true
  | _, _, [], _, h => by simp [charsLess] at h
  | _, [], _ :: _, h, _ => by simp [charsLess] at h
  | [], _ :: _, _ :: _, _, _ => rfl
  | x :: a, y :: b, z :: c, h₁, h₂ => by
    simp only [charsLess, Bool.or_eq_true, Bool.and_eq_true, decide_eq_true_eq] at h₁ h₂ ⊢
    rcases h₁ with h₁ | ⟨e₁, h₁⟩ <;> rcases h₂ with h₂ | ⟨e₂, h₂⟩
    · exact Or.inl (by omega)
    · exact Or.inl (by omega)
    · exact Or.inl (by omega)
    · exact Or.inr ⟨e₁.trans e₂, charsLess_trans a b c h₁ h₂⟩

/-- Two characters with the same code point are the same character. -/
theorem Char.eq_of_toNat_eq {c d : Char} (h : c.toNat = d.toNat) : c = d := by
  rw [← Char.ofNat_toNat c, h, Char.ofNat_toNat]

theorem charsLess_total : ∀ a b : List Char, a ≠ b → charsLess a b = true ∨ charsLess b a = true
  | [], [], h => absurd rfl h
  | [], _ :: _, _ => Or.inl rfl
  | _ :: _, [], _ => Or.inr rfl
  | c :: a, d :: b, h => by
    simp only [charsLess, Bool.or_eq_true, Bool.and_eq_true, decide_eq_true_eq]
    by_cases hcd : c.toNat = d.toNat
    · obtain rfl := Char.eq_of_toNat_eq hcd
      rcases charsLess_total a b (fun e => h (e ▸ rfl)) with h' | h'
      · exact Or.inl (Or.inr ⟨rfl, h'⟩)
      · exact Or.inr (Or.inr ⟨rfl, h'⟩)
    · omega

theorem strLess_irrefl (a : String) : strLess a a = false :=
  charsLess_irrefl a.data

theorem strLess_asymm {a b : String} (h : strLess a b = true) : strLess b a = false :=
  charsLess_asymm a.data b.data h

theorem strLess_trans {a b c : String} (h₁ : strLess a b = true) (h₂ : strLess b c = true) :
    strLess a c = true :=
  charsLess_trans a.data b.data c.data h₁ h₂

/-- Go compares any two different strings. -/
theorem strLess_total {a b : String} (h : a ≠ b) : strLess a b = true ∨ strLess b a = true :=
  charsLess_total a.data b.data fun e => h (String.ext e)

end StringOrder

/-! ## Go's insertion sort -/

section InsertionSort

variable {α : Type} (less : α → α → Bool)

theorem perm_insertLeft (x : α) : ∀ l : List α, (insertLeft less x l).Perm (x :: l)
  | [] => .refl _
  | y :: l => by
    unfold insertLeft
    split
    · exact ((perm_insertLeft x l).cons y).trans (.swap x y l)
    · exact .refl _

theorem perm_foldl_insertLeft : ∀ (s acc : List α),
    (s.foldl (fun before x => insertLeft less x before) acc).Perm (s.reverse ++ acc)
  | [], _ => .refl _
  | x :: s, acc => by
    rw [List.foldl_cons, List.reverse_cons, List.append_assoc, List.singleton_append]
    exact (perm_foldl_insertLeft s _).trans ((perm_insertLeft less x acc).append_left _)

/-- Go's insertion sort keeps the elements. -/
theorem perm_goInsertionSort (s : List α) : (goInsertionSort less s).Perm s :=
  (List.reverse_perm _).trans ((perm_foldl_insertLeft less s []).trans
    (by rw [List.append_nil]; exact List.reverse_perm s))

variable {less}
variable (htot : ∀ a b, less a b = true ∨ less b a = true)
variable (htrans : ∀ a b c, less a b = true → less b c = true → less a c = true)

include htot htrans in
/-- On a prefix sorted the nearest element first, the inner loop keeps it sorted so. -/
theorem sorted_insertLeft (x : α) : ∀ l : List α, l.Sorted (fun a b => less b a = true) →
    (insertLeft less x l).Sorted (fun a b => less b a = true)
  | [], _ => List.sorted_singleton x
  | y :: l, h => by
    rw [List.sorted_cons] at h
    unfold insertLeft
    split_ifs with hxy
    · -- `x` goes on past `y`
      have hl : ∀ z ∈ x :: l, less z y = true := List.forall_mem_cons.mpr ⟨hxy, h.1⟩
      exact List.sorted_cons.mpr
        ⟨fun z hz => hl z ((perm_insertLeft less x l).subset hz), sorted_insertLeft x l h.2⟩
    · -- `x` stops in front of `y`
      have hyx : less y x = true := (htot x y).resolve_left hxy
      exact List.sorted_cons.mpr ⟨List.forall_mem_cons.mpr
        ⟨hyx, fun z hz => htrans z y x (h.1 z hz) hyx⟩, List.sorted_cons.mpr h⟩

include htot htrans in
theorem sorted_foldl_insertLeft : ∀ (s acc : List α), acc.Sorted (fun a b => less b a = true) →
    (s.foldl (fun before x => insertLeft less x before) acc).Sorted (fun a b => less b a = true)
  | [], _, h => h
  | x :: s, acc, h => sorted_foldl_insertLeft s _ (sorted_insertLeft htot htrans x acc h)

include htot htrans in
/-- With a total and transitive `Less`, Go's insertion sort sorts. -/
theorem sorted_goInsertionSort (s : List α) :
    (goInsertionSort less s).Sorted fun a b => less a b = true :=
  List.pairwise_reverse.mpr (sorted_foldl_insertLeft htot htrans s [] List.sorted_nil)

end InsertionSort

/-! ## Sorting by a string key

`sortScalars` sorts by `%v` strings and `sortMapsBasedOnField` by the `%v` string of a field, both
with `!(key b < key a)` as the order. -/

section KeyOrder

variable {α : Type} (key : α → String)

/-- The order of a sort by `key` is total. -/
theorem keyLE_total (a b : α) :
    (!strLess (key b) (key a)) = true ∨ (!strLess (key a) (key b)) = true := by
  cases h : strLess (key b) (key a)
  · exact Or.inl rfl
  · exact Or.inr (by simp [strLess_asymm h])

variable {key}

/-- The order of a sort by `key` is transitive. -/
theorem keyLE_trans {a b c : α} (h₁ : (!strLess (key b) (key a)) = true)
    (h₂ : (!strLess (key c) (key b)) = true) : (!strLess (key c) (key a)) = true := by
  simp only [Bool.not_eq_true'] at h₁ h₂ ⊢
  by_contra h
  simp only [Bool.not_eq_false] at h
  -- `c < a`, so `b` is below `a` or above `c`
  by_cases hab : key b = key a
  · rw [hab, h] at h₂; cases h₂
  · rcases strLess_total hab with h' | h'
    · rw [h'] at h₁; cases h₁
    · rw [strLess_trans h h'] at h₂; cases h₂

variable (key)

/-- Go's insertion sort by `key` sorts. -/
theorem sorted_goInsertionSort_key (l : List α) :
    (goInsertionSort (fun a b => !strLess (key b) (key a)) l).Sorted
      fun a b => (!strLess (key b) (key a)) = true :=
  sorted_goInsertionSort (keyLE_total key) (fun _ _ _ => keyLE_trans) l

variable {key}

/-- On a list whose keys strictly increase, Go's insertion sort by `key` swaps nothing. -/
theorem goInsertionSort_of_lt {l : List α}
    (h : l.Pairwise fun a b => strLess (key a) (key b) = true) :
    goInsertionSort (fun a b => !strLess (key b) (key a)) l = l := by
  -- the prefix, nearest first, holds only keys below every key still to come
  have hfold : ∀ (s acc : List α), s.Pairwise (fun a b => strLess (key a) (key b) = true) →
      (∀ y ∈ acc, ∀ x ∈ s, strLess (key y) (key x) = true) →
      s.foldl (fun before x => insertLeft (fun a b => !strLess (key b) (key a)) x before) acc =
        s.reverse ++ acc := by
    intro s
    induction s with
    | nil => intro acc _ _; rfl
    | cons x s ih =>
      intro acc hs hacc
      rw [List.pairwise_cons] at hs
      have hins : insertLeft (fun a b => !strLess (key b) (key a)) x acc = x :: acc := by
        cases acc with
        | nil => rfl
        | cons y acc =>
          simp [insertLeft, hacc y (List.mem_cons_self _ _) x (List.mem_cons_self _ _)]
      rw [List.foldl_cons, hins, ih _ hs.2 fun y hy z hz => (List.mem_cons.mp hy).elim
          (fun e => e ▸ hs.1 z hz) fun hy => hacc y hy z (List.mem_cons_of_mem _ hz),
        List.reverse_cons, List.append_assoc, List.singleton_append]
  rw [goInsertionSort, hfold l [] h (by simp), List.append_nil, List.reverse_reverse]

/-- A string below the key of the head of a list sorted by `key` is no element's key. -/
theorem key_not_mem_of_strLess {a : String} {y : α} {l : List α}
    (hs : (y :: l).Sorted fun a b => (!strLess (key b) (key a)) = true)
    (ha : strLess a (key y) = true) : a ∉ (y :: l).map key := by
  intro hmem
  obtain ⟨x, hx, e⟩ := List.mem_map.mp hmem
  rcases List.mem_cons.mp hx with rfl | hx
  · rw [← e, strLess_irrefl] at ha
    cases ha
  · have := List.rel_of_sorted_cons hs x hx
    simp only [e, ha, Bool.not_true] at this
    cases this

end KeyOrder

theorem sorted_sortScalars (s : List Value) : (sortScalars s).Sorted fun a b => fmtLE a b = true :=
  sorted_goInsertionSort_key fmtV s

theorem perm_sortScalars (s : List Value) : (sortScalars s).Perm s :=
  perm_goInsertionSort _ s

/-- `1` and `"1"` print alike: Go's loop swaps them, whichever comes first. -/
example : sortScalars [.number 1, .string "1"] = [.string "1", .number 1] ∧
    sortScalars [.string "1", .number 1] = [.number 1, .string "1"] := ⟨rfl, rfl⟩

/-! ## The walk on the sorted lists -/

/-- The loop of `diffListsOfScalars` on the lists rather than on indices into them: the additions
and the deletions, before the flags drop either. -/
def scalarWalk : List Value → List Value → List Value × List Value
  | [], modified => (modified, [])
  | original, [] => ([], original)
  | o :: original, m :: modified =>
    if o.fmtV = m.fmtV then scalarWalk original modified
    else if strLess m.fmtV o.fmtV then
      let r := scalarWalk (o :: original) modified
      (m :: r.1, r.2)
    else
      let r := scalarWalk original (m :: modified)
      (r.1, o :: r.2)
termination_by original modified => original.length + modified.length

@[simp] theorem scalarWalk_nil_left (modified : List Value) :
    scalarWalk [] modified = (modified, []) := by
  rw [scalarWalk]

@[simp] theorem scalarWalk_nil_right (original : List Value) :
    scalarWalk original [] = ([], original) := by
  cases original with
  | nil => rw [scalarWalk]
  | cons o original => rw [scalarWalk]; simp

/-- The walk's deletions are its additions with the lists swapped. -/
theorem scalarWalk_swap (original modified : List Value) :
    scalarWalk modified original = (scalarWalk original modified).swap := by
  induction original, modified using scalarWalk.induct with
  | case1 modified => simp
  | case2 original _ => simp
  | case3 o original m modified e ih =>
    rw [scalarWalk, if_pos e.symm, ih, scalarWalk, if_pos e]
  | case4 o original m modified e hlt ih =>
    rw [scalarWalk, if_neg (Ne.symm e), if_neg (by simp [strLess_asymm hlt]), ih, scalarWalk,
      if_neg e, if_pos hlt]
    rfl
  | case5 o original m modified e hlt ih =>
    have hlt' : strLess o.fmtV m.fmtV = true :=
      (strLess_total e).resolve_right (by simpa using hlt)
    rw [scalarWalk, if_neg (Ne.symm e), if_pos hlt', ih, scalarWalk, if_neg e, if_neg hlt]
    rfl

/-- The walk adds elements of `modified`, in their order. -/
theorem scalarWalk_fst_sublist (original modified : List Value) :
    (scalarWalk original modified).1.Sublist modified := by
  induction original, modified using scalarWalk.induct with
  | case1 modified => simp
  | case2 original _ => simp
  | case3 o original m modified e ih =>
    rw [scalarWalk, if_pos e]
    exact ih.cons m
  | case4 o original m modified e hlt ih =>
    rw [scalarWalk, if_neg e, if_pos hlt]
    exact ih.cons₂ m
  | case5 o original m modified e hlt ih =>
    rw [scalarWalk, if_neg e, if_neg hlt]
    exact ih

/-- `(a :: s) - t = a :: (s - t)` for an `a` that `t` does not hold. -/
theorem Multiset.cons_sub_of_not_mem {α : Type} [DecidableEq α] {a : α} {s t : Multiset α}
    (h : a ∉ t) : a ::ₘ s - t = a ::ₘ (s - t) := by
  ext b
  rw [Multiset.count_sub, Multiset.count_cons, Multiset.count_cons, Multiset.count_sub]
  by_cases hb : b = a
  · subst hb
    rw [Multiset.count_eq_zero.mpr h]
    simp
  · simp [hb]

/-- **The walk takes the multiset difference.** On lists sorted by `%v`, the `%v` strings of the
walk's additions are those of `modified` less those of `original`, with multiplicity. -/
theorem scalarWalk_fst_fmtV {original modified : List Value}
    (ho : original.Sorted fun a b => fmtLE a b = true)
    (hm : modified.Sorted fun a b => fmtLE a b = true) :
    (((scalarWalk original modified).1.map fmtV : List String) : Multiset String) =
      ↑(modified.map fmtV) - ↑(original.map fmtV) := by
  induction original, modified using scalarWalk.induct with
  | case1 modified => simp [Multiset.sub_zero]
  | case2 original _ => simp [Multiset.zero_sub]
  | case3 o original m modified e ih =>
    rw [scalarWalk, if_pos e, ih ho.of_cons hm.of_cons]
    simp [e]
  | case4 o original m modified e hlt ih =>
    -- `m` is below every element of `o :: original`
    rw [scalarWalk, if_neg e, if_pos hlt]
    simp only [List.map_cons, ← Multiset.cons_coe, ih ho hm.of_cons]
    rw [Multiset.cons_sub_of_not_mem]
    simpa using key_not_mem_of_strLess ho hlt
  | case5 o original m modified e hlt ih =>
    -- `o` is below every element of `m :: modified`
    have hlt' : strLess o.fmtV m.fmtV = true :=
      (strLess_total e).resolve_right (by simpa using hlt)
    rw [scalarWalk, if_neg e, if_neg hlt, ih ho.of_cons hm, List.map_cons fmtV o original,
      ← Multiset.cons_coe, Multiset.sub_cons, Multiset.erase_of_not_mem]
    simpa using key_not_mem_of_strLess hm hlt'

/-! ## The loop computes the walk -/

/-- A suffix `l.drop i` that starts with `x` starts at an index of `l` that holds `x`. -/
theorem getD_of_drop_eq_cons {α : Type} {l l' : List α} {i : Nat} {x : α} (d : α)
    (h : l.drop i = x :: l') : i < l.length ∧ l.getD i d = x ∧ l.drop (i + 1) = l' := by
  have hi : i < l.length := by
    by_contra hi
    rw [List.drop_eq_nil_of_le (by omega)] at h
    cases h
  rw [List.drop_eq_getElem_cons hi, List.cons.injEq] at h
  exact ⟨hi, by simp [hi, h.1], h.2⟩

/-- **The loop computes the walk.** With a recursion bound at least the number of elements left,
the loop from `originalIndex` and `modifiedIndex` appends the walk over the rest of the two lists
to `addList` and `deletionList`, less what a flag drops. -/
theorem diffListsOfScalarsLoop_eq (originalScalars modifiedScalars : List Value)
    (ignoreChangesAndAdditions ignoreDeletions : Bool) :
    ∀ (fuel originalIndex modifiedIndex : Nat) (addList deletionList : List Value),
      originalScalars.length - originalIndex + (modifiedScalars.length - modifiedIndex) ≤ fuel →
      diffListsOfScalarsLoop originalScalars modifiedScalars ignoreChangesAndAdditions
          ignoreDeletions fuel originalIndex modifiedIndex addList deletionList =
        (if ignoreChangesAndAdditions then addList
          else addList ++ (scalarWalk (originalScalars.drop originalIndex)
            (modifiedScalars.drop modifiedIndex)).1,
          if ignoreDeletions then deletionList
          else deletionList ++ (scalarWalk (originalScalars.drop originalIndex)
            (modifiedScalars.drop modifiedIndex)).2)
  | 0, originalIndex, modifiedIndex, addList, deletionList, hfuel => by
    rw [List.drop_eq_nil_of_le (by omega), List.drop_eq_nil_of_le (by omega)]
    simp [diffListsOfScalarsLoop]
  | fuel + 1, originalIndex, modifiedIndex, addList, deletionList, hfuel => by
    have ih := diffListsOfScalarsLoop_eq originalScalars modifiedScalars ignoreChangesAndAdditions
      ignoreDeletions fuel
    rcases ho : originalScalars.drop originalIndex with _ | ⟨o, original⟩ <;>
      rcases hm : modifiedScalars.drop modifiedIndex with _ | ⟨m, modified⟩
    case nil.nil =>
      -- both lists are done
      have h₁ := List.drop_eq_nil_iff.mp ho
      have h₂ := List.drop_eq_nil_iff.mp hm
      simp [diffListsOfScalarsLoop, Nat.not_lt.mpr h₁, Nat.not_lt.mpr h₂]
    case nil.cons =>
      -- only `modified` is left: an addition
      have h₁ := List.drop_eq_nil_iff.mp ho
      obtain ⟨h₂, hg, hd⟩ := getD_of_drop_eq_cons .null hm
      simp only [diffListsOfScalarsLoop, Nat.not_lt.mpr h₁, h₂, hg, decide_True, decide_False, Bool.false_or,
        Bool.or_false, Bool.true_and, Bool.and_true, Bool.false_and, Bool.not_false, Bool.not_true, Bool.false_eq_true, ↓reduceIte]
      rw [ih _ _ _ _ (by omega), ho, hd]
      cases ignoreChangesAndAdditions <;> simp
    case cons.nil =>
      -- only `original` is left: a deletion
      obtain ⟨h₁, hg, hd⟩ := getD_of_drop_eq_cons .null ho
      have h₂ := List.drop_eq_nil_iff.mp hm
      simp only [diffListsOfScalarsLoop, Nat.not_lt.mpr h₂, h₁, hg, decide_True, decide_False, Bool.false_or,
        Bool.or_false, Bool.true_and, Bool.and_true, Bool.false_and, Bool.not_false, Bool.not_true, Bool.false_eq_true, ↓reduceIte]
      rw [ih _ _ _ _ (by omega), hm, hd]
      cases ignoreDeletions <;> simp
    case cons.cons =>
      obtain ⟨h₁, hg₁, hd₁⟩ := getD_of_drop_eq_cons .null ho
      obtain ⟨h₂, hg₂, hd₂⟩ := getD_of_drop_eq_cons .null hm
      simp only [diffListsOfScalarsLoop, h₁, h₂, hg₁, hg₂, decide_True, Bool.true_or,
        Bool.true_and, Bool.not_true, Bool.false_or, ↓reduceIte]
      rw [scalarWalk]
      by_cases e : o.fmtV = m.fmtV
      · simp only [e, decide_True, ↓reduceIte]
        rw [ih _ _ _ _ (by omega), hd₁, hd₂]
      by_cases hlt : strLess m.fmtV o.fmtV = true
      · simp only [e, hlt, decide_False, Bool.false_eq_true, ↓reduceIte]
        rw [ih _ _ _ _ (by omega), ho, hd₂]
        cases ignoreChangesAndAdditions <;> simp
      · have hlt' : strLess o.fmtV m.fmtV = true :=
          (strLess_total e).resolve_right hlt
        simp only [e, hlt, hlt', decide_False, Bool.false_eq_true, ↓reduceIte]
        rw [ih _ _ _ _ (by omega), hd₁, hm]
        cases ignoreDeletions <;> simp

/-! ## `diffListsOfScalars` -/

/-- The walk's additions over the two sorted lists, read on the lists before sorting. -/
theorem scalarWalk_sortScalars_fst (original modified : List Value) :
    let add := (scalarWalk (sortScalars original) (sortScalars modified)).1
    add.Sorted (fun a b => fmtLE a b = true) ∧ add.Subperm modified ∧
      (add.map fmtV : Multiset String) = ↑(modified.map fmtV) - ↑(original.map fmtV) := by
  have hsub := scalarWalk_fst_sublist (sortScalars original) (sortScalars modified)
  refine ⟨(sorted_sortScalars modified).sublist hsub,
    hsub.subperm.trans (perm_sortScalars modified).subperm, ?_⟩
  rw [scalarWalk_fst_fmtV (sorted_sortScalars _) (sorted_sortScalars _),
    Multiset.coe_eq_coe.mpr ((perm_sortScalars modified).map fmtV),
    Multiset.coe_eq_coe.mpr ((perm_sortScalars original).map fmtV)]

/-- **`diffListsOfScalars` takes multiset differences.** For any two lists and both flags, the
loop stops by its own test within the bound it is given, since a larger bound gives the same
lists. Unless `ignoreChangesAndAdditions` holds, the additions are sorted by `%v`, are drawn from
`modified`, and their `%v` strings are those of `modified` less those of `original`, counted with
multiplicity; if it holds there are none. The deletions are the same with the two lists' roles
swapped, under `ignoreDeletions`. -/
theorem diffListsOfScalars_multiset_diff (original modified : List Value)
    (ignoreChangesAndAdditions ignoreDeletions : Bool) :
    let r := diffListsOfScalars original modified ignoreChangesAndAdditions ignoreDeletions
    (∀ fuel, original.length + modified.length ≤ fuel →
      diffListsOfScalarsLoop (sortScalars original) (sortScalars modified)
        ignoreChangesAndAdditions ignoreDeletions fuel 0 0 [] [] = r) ∧
    (if ignoreChangesAndAdditions then r.1 = [] else
      r.1.Sorted (fun a b => fmtLE a b = true) ∧ r.1.Subperm modified ∧
        (r.1.map fmtV : Multiset String) = ↑(modified.map fmtV) - ↑(original.map fmtV)) ∧
    (if ignoreDeletions then r.2 = [] else
      r.2.Sorted (fun a b => fmtLE a b = true) ∧ r.2.Subperm original ∧
        (r.2.map fmtV : Multiset String) = ↑(original.map fmtV) - ↑(modified.map fmtV)) := by
  intro r
  have hloop := diffListsOfScalarsLoop_eq (sortScalars original) (sortScalars modified)
    ignoreChangesAndAdditions ignoreDeletions
  have hlen : (sortScalars original).length + (sortScalars modified).length =
      original.length + modified.length := by
    rw [(perm_sortScalars _).length_eq, (perm_sortScalars _).length_eq]
  -- the additions and deletions are the walk's, less what a flag drops
  have hr : r = (if ignoreChangesAndAdditions then []
        else (scalarWalk (sortScalars original) (sortScalars modified)).1,
      if ignoreDeletions then [] else (scalarWalk (sortScalars original) (sortScalars modified)).2) := by
    simpa using hloop ((sortScalars original).length + (sortScalars modified).length) 0 0 [] []
      (by omega)
  have hswap : (scalarWalk (sortScalars original) (sortScalars modified)).2 =
      (scalarWalk (sortScalars modified) (sortScalars original)).1 := by
    rw [scalarWalk_swap]; rfl
  refine ⟨fun fuel hf => ?_, ?_, ?_⟩
  · rw [hloop fuel 0 0 [] [] (by omega), hr]
    simp
  · cases ignoreChangesAndAdditions
    · rw [hr]; exact scalarWalk_sortScalars_fst original modified
    · rw [hr]; rfl
  · cases ignoreDeletions
    · rw [hr, hswap]; exact scalarWalk_sortScalars_fst modified original
    · rw [hr]; rfl

/-- A repeated element is counted: one `2` matches, both `1`s are deleted. -/
example : diffListsOfScalars [.number 1, .number 2, .number 1] [.number 3, .number 2] false false =
    ([.number 3], [.number 1, .number 1]) :=
  rfl

end ClientGo.Strategicpatch
