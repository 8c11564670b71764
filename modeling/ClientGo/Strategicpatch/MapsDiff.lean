import ClientGo.Strategicpatch.DiffFuel
import ClientGo.Strategicpatch.ScalarDiff

/-!
# `diffListsOfMaps` pairs the elements by merge key

`diffListsOfMaps` sorts both lists of maps by the `%v` string of their merge key, then walks them:
`loopB` takes the next modified map, its inner loop the next original one. Equal keys are diffed
and both indices move (`continue loopB`); a greater original key means the modified map was added
(`continue loopB`, the original index stays); a smaller one that the original map was deleted (the
inner loop goes on); running out of originals `break`s without moving the modified index, and two
trailing loops delete the originals left and add the modified maps left.

`mapsWalk` is that walk on the lists of maps themselves, with the nested `diffMaps` a parameter.
The loop with bound `f` returns only what `mapsWalk` returns with `diffMaps` at bound `f`
(`loop_sound`), and returns what `mapsWalk` returns with `diffMaps` at bound `N` once `f` exceeds
`N` by the lengths of the lists (`loop_complete`). On lists sorted by key with distinct keys,
`mapsWalk` returns, up to order, the patch list `mapsDiffSpec` builds: a delete directive
for every key only `original` has, every map whose key only `modified` has, and the non-empty diff
of every pair of maps with the same key, with the key set to the modified value
(`mapsWalk_of_pairs`, `mapsWalk_pairs_of_ok`). The order facts this needs are those of
`ScalarDiff`: a key below the head of a sorted list is no key of the list.
-/

namespace ClientGo.Strategicpatch

open Value

/-! ## The walk over the two sorted lists -/

section Walk

variable (mergeKey : String) (ignoreChangesAndAdditions ignoreDeletions : Bool)

/-- The merge-key value of a map, `nil` when it is absent. -/
def mergeKeyValue (m : JSONMap) : Value := (JSONMap.get? m mergeKey).getD .null

/-- The directive that deletes a map only `original` has. -/
def deleteEntry (originalMap : JSONMap) : Value :=
  deleteDirectiveFor mergeKey (mergeKeyValue mergeKey originalMap)

/-- The entry for a modified map whose key `original` has too: the diff of the two maps with the
merge key set to the modified value, when the diff is not empty. -/
def pairEntry (modifiedMap patchValue : JSONMap) : List Value :=
  if patchValue.length > 0 then
    [.object (JSONMap.insert patchValue mergeKey (mergeKeyValue mergeKey modifiedMap))]
  else []

/-- `diffListsOfMaps` on the two sorted lists of maps rather than on indices into them: `loopB`,
its inner loop and the two trailing loops in one. `diff` is the nested `diffMaps`. -/
def mapsWalk (diff : JSONMap → JSONMap → Except Failure JSONMap) :
    List JSONMap → List JSONMap → Except Failure (List Value)
  | [], modified => .ok (if ignoreChangesAndAdditions then [] else modified.map .object)
  | original, [] => .ok (if ignoreDeletions then [] else original.map (deleteEntry mergeKey))
  | x :: original, y :: modified =>
    if !strLess (fieldFmt mergeKey x) (fieldFmt mergeKey y) then
      if fieldFmt mergeKey x = fieldFmt mergeKey y then do
        let patchValue ← diff x y
        let rest ← mapsWalk diff original modified
        pure (pairEntry mergeKey y patchValue ++ rest)
      else do
        let rest ← mapsWalk diff (x :: original) modified
        pure ((if ignoreChangesAndAdditions then [] else [.object y]) ++ rest)
    else do
      let rest ← mapsWalk diff original (y :: modified)
      pure ((if ignoreDeletions then [] else [deleteEntry mergeKey x]) ++ rest)
termination_by original modified => original.length + modified.length

/-- The patch list of `diffListsOfMaps`, element by element, `D` giving the diff of the two maps with
a key: a delete directive for every map whose key only `original` has, every map whose key only
`modified` has, and the entry of every modified map whose key both have. -/
def mapsDiffSpec (D : String → JSONMap) (original modified : List JSONMap) : List Value :=
  (if ignoreDeletions then []
    else (original.filter fun x => fieldFmt mergeKey x ∉ modified.map (fieldFmt mergeKey)).map
      (deleteEntry mergeKey)) ++
  (if ignoreChangesAndAdditions then []
    else (modified.filter fun y => fieldFmt mergeKey y ∉ original.map (fieldFmt mergeKey)).map
      .object) ++
  (modified.filter fun y => fieldFmt mergeKey y ∈ original.map (fieldFmt mergeKey)).flatMap
    fun y => pairEntry mergeKey y (D (fieldFmt mergeKey y))

variable (diff : JSONMap → JSONMap → Except Failure JSONMap)

@[simp] theorem mapsWalk_nil_left (modified : List JSONMap) :
    mapsWalk mergeKey ignoreChangesAndAdditions ignoreDeletions diff [] modified =
      .ok (if ignoreChangesAndAdditions then [] else modified.map .object) := by
  rw [mapsWalk]

@[simp] theorem mapsWalk_nil_right (original : List JSONMap) :
    mapsWalk mergeKey ignoreChangesAndAdditions ignoreDeletions diff original [] =
      .ok (if ignoreDeletions then [] else original.map (deleteEntry mergeKey)) := by
  cases original with
  | nil => rw [mapsWalk]; simp
  | cons x original => rw [mapsWalk]; simp

variable {mergeKey ignoreChangesAndAdditions ignoreDeletions}

/-- The walk returns, with a `diff` that returns more, what it returned before. -/
theorem mapsWalk_le {diff diff' : JSONMap → JSONMap → Except Failure JSONMap}
    (h : ∀ x y, Except.Le (diff x y) (diff' x y)) (original modified : List JSONMap) :
    Except.Le (mapsWalk mergeKey ignoreChangesAndAdditions ignoreDeletions diff original modified)
      (mapsWalk mergeKey ignoreChangesAndAdditions ignoreDeletions diff' original modified) := by
  induction original, modified using
    mapsWalk.induct mergeKey ignoreChangesAndAdditions ignoreDeletions diff with
  | case1 modified => simp only [mapsWalk_nil_left]; exact Except.Le.refl _
  | case2 original _ => simp only [mapsWalk_nil_right]; exact Except.Le.refl _
  | case3 x original y modified h₁ h₂ ih =>
    rw [mapsWalk, mapsWalk, if_pos h₁, if_pos h₂, if_pos h₁, if_pos h₂]
    exact Except.Le.bind (h x y) fun _ => Except.Le.bind ih fun _ => Except.Le.refl _
  | case4 x original y modified h₁ h₂ ih =>
    rw [mapsWalk, mapsWalk, if_pos h₁, if_neg h₂, if_pos h₁, if_neg h₂]
    exact Except.Le.bind ih fun _ => Except.Le.refl _
  | case5 x original y modified h₁ ih =>
    rw [mapsWalk, mapsWalk, if_neg h₁, if_neg h₁]
    exact Except.Le.bind ih fun _ => Except.Le.refl _

end Walk

/-! ## `mapsDiffSpec`, one map at a time -/

section Spec

variable {mergeKey : String} {ignoreChangesAndAdditions ignoreDeletions : Bool}
  {D : String → JSONMap}

/-- Keys of a list of maps that one more map, of another key, leaves as they were. -/
theorem mem_keys_cons_iff {x y : JSONMap} {l : List JSONMap} (h : fieldFmt mergeKey y ≠ fieldFmt mergeKey x) :
    fieldFmt mergeKey y ∈ (x :: l).map (fieldFmt mergeKey) ↔
      fieldFmt mergeKey y ∈ l.map (fieldFmt mergeKey) := by
  simp only [List.map_cons, List.mem_cons, h, false_or]

/-- A map of `original` whose key `modified` lacks: its delete directive, then the rest. -/
theorem mapsDiffSpec_cons_left {x : JSONMap} {original modified : List JSONMap}
    (hx : fieldFmt mergeKey x ∉ modified.map (fieldFmt mergeKey)) :
    mapsDiffSpec mergeKey ignoreChangesAndAdditions ignoreDeletions D (x :: original) modified =
      (if ignoreDeletions then [] else [deleteEntry mergeKey x]) ++
        mapsDiffSpec mergeKey ignoreChangesAndAdditions ignoreDeletions D original modified := by
  have hne : ∀ y ∈ modified, fieldFmt mergeKey y ≠ fieldFmt mergeKey x :=
    fun y hy e => hx (e ▸ List.mem_map_of_mem _ hy)
  have hdel : (x :: original).filter (fun x' => fieldFmt mergeKey x' ∉ modified.map (fieldFmt mergeKey)) =
      x :: original.filter fun x' => fieldFmt mergeKey x' ∉ modified.map (fieldFmt mergeKey) :=
    List.filter_cons_of_pos (by simp only [decide_eq_true_eq]; exact hx)
  have hadd : modified.filter (fun y => fieldFmt mergeKey y ∉ (x :: original).map (fieldFmt mergeKey)) =
      modified.filter fun y => fieldFmt mergeKey y ∉ original.map (fieldFmt mergeKey) :=
    List.filter_congr fun y hy => by simp only [mem_keys_cons_iff (hne y hy)]
  have hpair : modified.filter (fun y => fieldFmt mergeKey y ∈ (x :: original).map (fieldFmt mergeKey)) =
      modified.filter fun y => fieldFmt mergeKey y ∈ original.map (fieldFmt mergeKey) :=
    List.filter_congr fun y hy => by simp only [mem_keys_cons_iff (hne y hy)]
  unfold mapsDiffSpec
  rw [hdel, hadd, hpair]
  cases ignoreDeletions <;> simp

/-- A map of `modified` whose key `original` lacks: it is added. -/
theorem mapsDiffSpec_cons_right {y : JSONMap} {original modified : List JSONMap}
    (hy : fieldFmt mergeKey y ∉ original.map (fieldFmt mergeKey)) :
    (mapsDiffSpec mergeKey ignoreChangesAndAdditions ignoreDeletions D original (y :: modified)).Perm
      ((if ignoreChangesAndAdditions then [] else [.object y]) ++
        mapsDiffSpec mergeKey ignoreChangesAndAdditions ignoreDeletions D original modified) := by
  have hne : ∀ x ∈ original, fieldFmt mergeKey x ≠ fieldFmt mergeKey y :=
    fun x hx e => hy (e ▸ List.mem_map_of_mem _ hx)
  have hdel : original.filter (fun x => fieldFmt mergeKey x ∉ (y :: modified).map (fieldFmt mergeKey)) =
      original.filter fun x => fieldFmt mergeKey x ∉ modified.map (fieldFmt mergeKey) :=
    List.filter_congr fun x hx => by simp only [mem_keys_cons_iff (hne x hx)]
  have hadd : (y :: modified).filter (fun y => fieldFmt mergeKey y ∉ original.map (fieldFmt mergeKey)) =
      y :: modified.filter fun y => fieldFmt mergeKey y ∉ original.map (fieldFmt mergeKey) :=
    List.filter_cons_of_pos (by simp only [decide_eq_true_eq]; exact hy)
  have hpair : (y :: modified).filter (fun y => fieldFmt mergeKey y ∈ original.map (fieldFmt mergeKey)) =
      modified.filter fun y => fieldFmt mergeKey y ∈ original.map (fieldFmt mergeKey) :=
    List.filter_cons_of_neg (by simp only [decide_eq_true_eq]; exact hy)
  unfold mapsDiffSpec
  rw [hdel, hadd, hpair]
  cases ignoreChangesAndAdditions
  · simp only [Bool.false_eq_true, if_false, List.map_cons, List.singleton_append, List.append_assoc]
    exact List.perm_middle
  · simp

/-- Two maps with the same key, which neither list has again: their entry. -/
theorem mapsDiffSpec_cons_cons {x y : JSONMap} {original modified : List JSONMap}
    (e : fieldFmt mergeKey x = fieldFmt mergeKey y)
    (hx : fieldFmt mergeKey x ∉ original.map (fieldFmt mergeKey))
    (hy : fieldFmt mergeKey y ∉ modified.map (fieldFmt mergeKey)) :
    (mapsDiffSpec mergeKey ignoreChangesAndAdditions ignoreDeletions D (x :: original)
        (y :: modified)).Perm
      (pairEntry mergeKey y (D (fieldFmt mergeKey y)) ++
        mapsDiffSpec mergeKey ignoreChangesAndAdditions ignoreDeletions D original modified) := by
  have hO : ∀ x' ∈ original, fieldFmt mergeKey x' ≠ fieldFmt mergeKey y :=
    fun x' hx' e' => hx (e ▸ e' ▸ List.mem_map_of_mem _ hx')
  have hM : ∀ y' ∈ modified, fieldFmt mergeKey y' ≠ fieldFmt mergeKey x :=
    fun y' hy' e' => hy (e ▸ e' ▸ List.mem_map_of_mem _ hy')
  have hxy : fieldFmt mergeKey x ∈ (y :: modified).map (fieldFmt mergeKey) := by simp [e]
  have hyx : fieldFmt mergeKey y ∈ (x :: original).map (fieldFmt mergeKey) := by simp [e]
  have hdel : (x :: original).filter
        (fun x => fieldFmt mergeKey x ∉ (y :: modified).map (fieldFmt mergeKey)) =
      original.filter fun x => fieldFmt mergeKey x ∉ modified.map (fieldFmt mergeKey) := by
    rw [List.filter_cons_of_neg (by simp only [decide_eq_true_eq, not_not]; exact hxy)]
    exact List.filter_congr fun x hx => by simp only [mem_keys_cons_iff (hO x hx)]
  have hadd : (y :: modified).filter
        (fun y => fieldFmt mergeKey y ∉ (x :: original).map (fieldFmt mergeKey)) =
      modified.filter fun y => fieldFmt mergeKey y ∉ original.map (fieldFmt mergeKey) := by
    rw [List.filter_cons_of_neg (by simp only [decide_eq_true_eq, not_not]; exact hyx)]
    exact List.filter_congr fun y hy => by simp only [mem_keys_cons_iff (hM y hy)]
  have hpair : (y :: modified).filter
        (fun y => fieldFmt mergeKey y ∈ (x :: original).map (fieldFmt mergeKey)) =
      y :: modified.filter fun y => fieldFmt mergeKey y ∈ original.map (fieldFmt mergeKey) := by
    rw [List.filter_cons_of_pos (by simp only [decide_eq_true_eq]; exact hyx)]
    exact congrArg _ (List.filter_congr fun y hy => by simp only [mem_keys_cons_iff (hM y hy)])
  unfold mapsDiffSpec
  rw [hdel, hadd, hpair, List.flatMap_cons]
  exact List.perm_append_comm_assoc _ _ _

/-- `mapsDiffSpec` reads `D` only at the keys of modified maps. -/
theorem mapsDiffSpec_congr {D' : String → JSONMap} {original modified : List JSONMap}
    (h : ∀ y ∈ modified, D (fieldFmt mergeKey y) = D' (fieldFmt mergeKey y)) :
    mapsDiffSpec mergeKey ignoreChangesAndAdditions ignoreDeletions D original modified =
      mapsDiffSpec mergeKey ignoreChangesAndAdditions ignoreDeletions D' original modified := by
  unfold mapsDiffSpec List.flatMap
  congr 2
  exact List.map_congr_left fun y hy => by rw [h y (List.mem_of_mem_filter hy)]

end Spec

/-! ## The walk on sorted lists with distinct keys -/

section Sorted

variable {mergeKey : String} {ignoreChangesAndAdditions ignoreDeletions : Bool}

/-- In the step that adds `y`, its key is below every key of `x :: original`. -/
theorem key_not_mem_of_add {x y : JSONMap} {original : List JSONMap}
    (hO : (x :: original).Sorted
      fun a b => (!strLess (fieldFmt mergeKey b) (fieldFmt mergeKey a)) = true)
    (h₁ : (!strLess (fieldFmt mergeKey x) (fieldFmt mergeKey y)) = true)
    (h₂ : fieldFmt mergeKey x ≠ fieldFmt mergeKey y) :
    fieldFmt mergeKey y ∉ (x :: original).map (fieldFmt mergeKey) :=
  key_not_mem_of_strLess hO ((strLess_total (Ne.symm h₂)).resolve_right (by simpa using h₁))

/-- In the step that deletes `x`, its key is below every key of `y :: modified`. -/
theorem key_not_mem_of_delete {x y : JSONMap} {modified : List JSONMap}
    (hM : (y :: modified).Sorted
      fun a b => (!strLess (fieldFmt mergeKey b) (fieldFmt mergeKey a)) = true)
    (h₁ : ¬(!strLess (fieldFmt mergeKey x) (fieldFmt mergeKey y)) = true) :
    fieldFmt mergeKey x ∉ (y :: modified).map (fieldFmt mergeKey) :=
  key_not_mem_of_strLess hM (by simpa using h₁)

variable (diff : JSONMap → JSONMap → Except Failure JSONMap)

/-- **The walk returns `mapsDiffSpec`.** On lists sorted by key with distinct keys, if `diff`
returns `D` of the key for every two maps with the same key, the walk returns a list with the
elements of `mapsDiffSpec`. -/
theorem mapsWalk_of_pairs (D : String → JSONMap) :
    ∀ original modified : List JSONMap,
      original.Sorted (fun a b => (!strLess (fieldFmt mergeKey b) (fieldFmt mergeKey a)) = true) →
      modified.Sorted (fun a b => (!strLess (fieldFmt mergeKey b) (fieldFmt mergeKey a)) = true) →
      (original.map (fieldFmt mergeKey)).Nodup → (modified.map (fieldFmt mergeKey)).Nodup →
      (∀ x ∈ original, ∀ y ∈ modified, fieldFmt mergeKey x = fieldFmt mergeKey y →
        diff x y = .ok (D (fieldFmt mergeKey y))) →
      ∃ W, mapsWalk mergeKey ignoreChangesAndAdditions ignoreDeletions diff original modified =
          .ok W ∧ W.Perm (mapsDiffSpec mergeKey ignoreChangesAndAdditions ignoreDeletions D
            original modified) := by
  intro original modified
  induction original, modified using
    mapsWalk.induct mergeKey ignoreChangesAndAdditions ignoreDeletions diff with
  | case1 modified => intros; exact ⟨_, mapsWalk_nil_left .., by simp [mapsDiffSpec]⟩
  | case2 original _ => intros; exact ⟨_, mapsWalk_nil_right .., by simp [mapsDiffSpec]⟩
  | case3 x original y modified h₁ h₂ ih =>
    intro hO hM hOd hMd hp
    obtain ⟨W, hW, hperm⟩ := ih hO.of_cons hM.of_cons (List.nodup_cons.mp hOd).2
      (List.nodup_cons.mp hMd).2
      fun x' hx' y' hy' => hp x' (List.mem_cons_of_mem _ hx') y' (List.mem_cons_of_mem _ hy')
    refine ⟨pairEntry mergeKey y (D (fieldFmt mergeKey y)) ++ W, ?_, ?_⟩
    · rw [mapsWalk, if_pos h₁, if_pos h₂,
        hp x (List.mem_cons_self _ _) y (List.mem_cons_self _ _) h₂, hW]
      rfl
    · exact (hperm.append_left _).trans (mapsDiffSpec_cons_cons h₂ (List.nodup_cons.mp hOd).1
        (List.nodup_cons.mp hMd).1).symm
  | case4 x original y modified h₁ h₂ ih =>
    intro hO hM hOd hMd hp
    obtain ⟨W, hW, hperm⟩ := ih hO hM.of_cons hOd (List.nodup_cons.mp hMd).2
      fun x' hx' y' hy' => hp x' hx' y' (List.mem_cons_of_mem _ hy')
    refine ⟨(if ignoreChangesAndAdditions then [] else [.object y]) ++ W, ?_, ?_⟩
    · rw [mapsWalk, if_pos h₁, if_neg h₂, hW]
      rfl
    · exact (hperm.append_left _).trans (mapsDiffSpec_cons_right (key_not_mem_of_add hO h₁ h₂)).symm
  | case5 x original y modified h₁ ih =>
    intro hO hM hOd hMd hp
    obtain ⟨W, hW, hperm⟩ := ih hO.of_cons hM (List.nodup_cons.mp hOd).2 hMd
      fun x' hx' y' hy' => hp x' (List.mem_cons_of_mem _ hx') y' hy'
    refine ⟨(if ignoreDeletions then [] else [deleteEntry mergeKey x]) ++ W, ?_, ?_⟩
    · rw [mapsWalk, if_neg h₁, hW]
      rfl
    · rw [mapsDiffSpec_cons_left (key_not_mem_of_delete hM h₁)]
      exact hperm.append_left _

/-- **What the walk returns is `mapsDiffSpec`.** On lists sorted by key with distinct keys, if
the walk returns, `diff` returned for every two maps with the same key, and the walk's list has the
elements of `mapsDiffSpec` with those diffs. -/
theorem mapsWalk_pairs_of_ok :
    ∀ original modified : List JSONMap,
      original.Sorted (fun a b => (!strLess (fieldFmt mergeKey b) (fieldFmt mergeKey a)) = true) →
      modified.Sorted (fun a b => (!strLess (fieldFmt mergeKey b) (fieldFmt mergeKey a)) = true) →
      (original.map (fieldFmt mergeKey)).Nodup → (modified.map (fieldFmt mergeKey)).Nodup →
      ∀ W, mapsWalk mergeKey ignoreChangesAndAdditions ignoreDeletions diff original modified =
          .ok W →
        ∃ D : String → JSONMap,
          (∀ x ∈ original, ∀ y ∈ modified, fieldFmt mergeKey x = fieldFmt mergeKey y →
            diff x y = .ok (D (fieldFmt mergeKey y))) ∧
          W.Perm (mapsDiffSpec mergeKey ignoreChangesAndAdditions ignoreDeletions D original modified)
    := by
  intro original modified
  induction original, modified using
    mapsWalk.induct mergeKey ignoreChangesAndAdditions ignoreDeletions diff with
  | case1 modified =>
    intro _ _ _ _ W h
    rw [mapsWalk_nil_left, Except.ok.injEq] at h
    exact ⟨fun _ => [], by simp, h ▸ by simp [mapsDiffSpec]⟩
  | case2 original _ =>
    intro _ _ _ _ W h
    rw [mapsWalk_nil_right, Except.ok.injEq] at h
    exact ⟨fun _ => [], by simp, h ▸ by simp [mapsDiffSpec]⟩
  | case3 x original y modified h₁ h₂ ih =>
    intro hO hM hOd hMd W h
    rw [mapsWalk, if_pos h₁, if_pos h₂] at h
    obtain ⟨d, hd, h⟩ := bind_eq_ok.mp h
    obtain ⟨rest, hrest, h⟩ := bind_eq_ok.mp h
    obtain ⟨D, hp, hperm⟩ := ih hO.of_cons hM.of_cons (List.nodup_cons.mp hOd).2
      (List.nodup_cons.mp hMd).2 rest hrest
    have hx := (List.nodup_cons.mp hOd).1
    have hy := (List.nodup_cons.mp hMd).1
    -- `D` updated at the key of `x` and `y`, which no other map has
    obtain ⟨D', hD'y, hD'⟩ : ∃ D' : String → JSONMap, D' (fieldFmt mergeKey y) = d ∧
        ∀ y' ∈ modified, D' (fieldFmt mergeKey y') = D (fieldFmt mergeKey y') :=
      ⟨fun s => if s = fieldFmt mergeKey y then d else D s, if_pos rfl,
        fun y' hy' => if_neg fun (e : fieldFmt mergeKey y' = fieldFmt mergeKey y) =>
          hy (e ▸ List.mem_map_of_mem _ hy')⟩
    refine ⟨D', ?_, ?_⟩
    · intro x' hx' y' hy' e
      rcases List.mem_cons.mp hx' with rfl | hx' <;> rcases List.mem_cons.mp hy' with rfl | hy'
      · rw [hD'y]; exact hd
      · exact (hy (by rw [← h₂, e]; exact List.mem_map_of_mem _ hy')).elim
      · exact (hx (by rw [h₂, ← e]; exact List.mem_map_of_mem _ hx')).elim
      · rw [hD' y' hy']
        exact hp x' hx' y' hy' e
    · rw [← Except.ok.inj h]
      refine (hperm.append_left _).trans ?_
      rw [← mapsDiffSpec_congr hD', ← hD'y]
      exact (mapsDiffSpec_cons_cons h₂ hx hy).symm
  | case4 x original y modified h₁ h₂ ih =>
    intro hO hM hOd hMd W h
    rw [mapsWalk, if_pos h₁, if_neg h₂] at h
    obtain ⟨rest, hrest, h⟩ := bind_eq_ok.mp h
    obtain ⟨D, hp, hperm⟩ := ih hO hM.of_cons hOd (List.nodup_cons.mp hMd).2 rest hrest
    have hy := key_not_mem_of_add hO h₁ h₂
    refine ⟨D, fun x' hx' y' hy' e => ?_, ?_⟩
    · rcases List.mem_cons.mp hy' with rfl | hy'
      · exact absurd (e ▸ List.mem_map_of_mem _ hx') hy
      · exact hp x' hx' y' hy' e
    · rw [← Except.ok.inj h]
      exact (hperm.append_left _).trans (mapsDiffSpec_cons_right hy).symm
  | case5 x original y modified h₁ ih =>
    intro hO hM hOd hMd W h
    rw [mapsWalk, if_neg h₁] at h
    obtain ⟨rest, hrest, h⟩ := bind_eq_ok.mp h
    obtain ⟨D, hp, hperm⟩ := ih hO.of_cons hM (List.nodup_cons.mp hOd).2 hMd rest hrest
    have hx := key_not_mem_of_delete hM h₁
    refine ⟨D, fun x' hx' y' hy' e => ?_, ?_⟩
    · rcases List.mem_cons.mp hx' with rfl | hx'
      · exact absurd (e.symm ▸ List.mem_map_of_mem _ hy') hx
      · exact hp x' hx' y' hy' e
    · rw [← Except.ok.inj h, mapsDiffSpec_cons_left hx]
      exact hperm.append_left _

end Sorted

/-! ## The loop computes the walk -/

section Loop

variable {τ : Type} (S : Schema τ) (t : τ) (mergeKey : String)
  (ignoreChangesAndAdditions ignoreDeletions : Bool)

/-- The code of `diffListsOfMaps` after `loopB`: the two trailing loops. -/
def loopBTail (originalSorted modifiedSorted : List Value) :
    Nat × Nat × List Value → Except Failure (List Value)
  | (originalIndex, modifiedIndex, patch) => do
    let patch ← if ignoreDeletions then pure patch
      else deleteRemaining mergeKey (originalSorted.drop originalIndex) patch
    pure (if ignoreChangesAndAdditions then patch else patch ++ modifiedSorted.drop modifiedIndex)

theorem diffListsOfMaps_eq (fuel : Nat) (original modified : List Value) :
    diffListsOfMaps S (fuel + 1) original modified t mergeKey ignoreChangesAndAdditions
        ignoreDeletions = (do
      let originalSorted ← sortMergeListsByNameArray S (fuel + 1) original t mergeKey false
      let modifiedSorted ← sortMergeListsByNameArray S (fuel + 1) modified t mergeKey false
      diffListsOfMapsLoopB S fuel originalSorted modifiedSorted t mergeKey
          ignoreChangesAndAdditions ignoreDeletions 0 0 [] >>=
        loopBTail mergeKey ignoreChangesAndAdditions ignoreDeletions originalSorted modifiedSorted) := by
  rw [diffListsOfMaps]
  rfl

variable {S t mergeKey ignoreChangesAndAdditions ignoreDeletions}

theorem mem_of_drop_eq_cons {α : Type} {l l' : List α} {i : Nat} {x : α} (h : l.drop i = x :: l') :
    x ∈ l :=
  List.mem_of_mem_drop (by rw [h]; exact List.mem_cons_self _ _)

/-- A map that carries the merge key passes the assertion and the lookup. -/
theorem mapWithMergeKey_of_isSome {m : JSONMap} (h : (JSONMap.get? m mergeKey).isSome) :
    mapWithMergeKey (.object m) mergeKey = .ok (m, mergeKeyValue mergeKey m) := by
  obtain ⟨v, hv⟩ := Option.isSome_iff_exists.mp h
  simp [mapWithMergeKey, hv, mergeKeyValue]

theorem deleteRemaining_objects :
    ∀ (L : List JSONMap) (patch : List Value), (∀ x ∈ L, (JSONMap.get? x mergeKey).isSome) →
      deleteRemaining mergeKey (L.map .object) patch = .ok (patch ++ L.map (deleteEntry mergeKey))
  | [], patch, _ => by simp [deleteRemaining]
  | x :: L, patch, h => by
    rw [List.map_cons, deleteRemaining, mapWithMergeKey_of_isSome (h x (List.mem_cons_self _ _))]
    exact (deleteRemaining_objects L _ fun y hy => h y (List.mem_cons_of_mem _ hy)).trans
      (by simp [deleteEntry])

/-- The trailing loops delete the originals left and add the modified maps left. -/
theorem loopBTail_eq {O M : List JSONMap} (hO : ∀ x ∈ O, (JSONMap.get? x mergeKey).isSome)
    (oi mi : Nat) (P : List Value) :
    loopBTail mergeKey ignoreChangesAndAdditions ignoreDeletions (O.map .object) (M.map .object)
        (oi, mi, P) =
      .ok (P ++ ((if ignoreDeletions then [] else (O.drop oi).map (deleteEntry mergeKey)) ++
        (if ignoreChangesAndAdditions then [] else (M.drop mi).map .object))) := by
  have hdel := deleteRemaining_objects (O.drop oi) P fun x hx => hO x (List.mem_of_mem_drop hx)
  cases ignoreDeletions <;> cases ignoreChangesAndAdditions <;>
    simp [loopBTail, ← List.map_drop, hdel, bind, Except.bind, pure, Except.pure]

theorem append_ite_nil {α : Type} (c : Prop) [Decidable c] (P L : List α) :
    (if c then P ++ L else P) = P ++ if c then L else [] := by
  split <;> simp

theorem ite_append_nil {α : Type} (c : Prop) [Decidable c] (P L : List α) :
    (if c then P else P ++ L) = P ++ if c then [] else L := by
  split <;> simp

variable {O M : List JSONMap}

/-- `loopB` with no modified map left returns. -/
theorem loopB_of_drop_eq_nil {mi : Nat} (hm : M.drop mi = []) (fuel oi : Nat) (P : List Value) :
    diffListsOfMapsLoopB S (fuel + 1) (O.map .object) (M.map .object) t mergeKey
        ignoreChangesAndAdditions ignoreDeletions oi mi P = .ok (oi, mi, P) := by
  rw [diffListsOfMapsLoopB, if_neg (by simpa using List.drop_eq_nil_iff.mp hm)]

/-- `loopB` with the modified map `y` next goes into its inner loop. -/
theorem loopB_of_drop_eq_cons (hM : ∀ y ∈ M, (JSONMap.get? y mergeKey).isSome) {mi : Nat}
    {y : JSONMap} {M' : List JSONMap} (hm : M.drop mi = y :: M') (fuel oi : Nat) (P : List Value) :
    diffListsOfMapsLoopB S (fuel + 1) (O.map .object) (M.map .object) t mergeKey
        ignoreChangesAndAdditions ignoreDeletions oi mi P =
      diffListsOfMapsInner S fuel (O.map .object) (M.map .object) t mergeKey
        ignoreChangesAndAdditions ignoreDeletions oi mi y (mergeKeyValue mergeKey y) P := by
  obtain ⟨hlt, hg, -⟩ := getD_of_drop_eq_cons Value.null
    (show (M.map .object).drop mi = .object y :: M'.map .object by rw [← List.map_drop, hm]; rfl)
  rw [diffListsOfMapsLoopB, if_pos hlt, hg, mapWithMergeKey_of_isSome (hM y (mem_of_drop_eq_cons hm))]
  rfl

/-- The inner loop with no original map left `break`s. -/
theorem inner_of_drop_eq_nil {oi : Nat} (ho : O.drop oi = []) (fuel mi : Nat) (mm : JSONMap)
    (mv : Value) (P : List Value) :
    diffListsOfMapsInner S (fuel + 1) (O.map .object) (M.map .object) t mergeKey
        ignoreChangesAndAdditions ignoreDeletions oi mi mm mv P = .ok (oi, mi, P) := by
  rw [diffListsOfMapsInner, if_neg (by simpa using List.drop_eq_nil_iff.mp ho)]

/-- The inner loop with the original map `x` next: the keys of `x` and the modified map `y`
decide between a diff, an addition and a deletion. -/
theorem inner_of_drop_eq_cons (hO : ∀ x ∈ O, (JSONMap.get? x mergeKey).isSome) {oi : Nat}
    {x : JSONMap} {O' : List JSONMap} (ho : O.drop oi = x :: O') (fuel mi : Nat) (y : JSONMap)
    (P : List Value) :
    diffListsOfMapsInner S (fuel + 1) (O.map .object) (M.map .object) t mergeKey
        ignoreChangesAndAdditions ignoreDeletions oi mi y (mergeKeyValue mergeKey y) P =
      if !strLess (fieldFmt mergeKey x) (fieldFmt mergeKey y) then
        if fieldFmt mergeKey x = fieldFmt mergeKey y then do
          let patchValue ← diffMaps S fuel x y t ignoreChangesAndAdditions ignoreDeletions
          diffListsOfMapsLoopB S fuel (O.map .object) (M.map .object) t mergeKey
            ignoreChangesAndAdditions ignoreDeletions (oi + 1) (mi + 1)
            (P ++ pairEntry mergeKey y patchValue)
        else
          diffListsOfMapsLoopB S fuel (O.map .object) (M.map .object) t mergeKey
            ignoreChangesAndAdditions ignoreDeletions oi (mi + 1)
            (P ++ if ignoreChangesAndAdditions then [] else [.object y])
      else
        diffListsOfMapsInner S fuel (O.map .object) (M.map .object) t mergeKey
          ignoreChangesAndAdditions ignoreDeletions (oi + 1) mi y (mergeKeyValue mergeKey y)
          (P ++ if ignoreDeletions then [] else [deleteEntry mergeKey x]) := by
  obtain ⟨hlt, hg, -⟩ := getD_of_drop_eq_cons Value.null
    (show (O.map .object).drop oi = .object x :: O'.map .object by rw [← List.map_drop, ho]; rfl)
  rw [diffListsOfMapsInner, if_pos hlt, hg, mapWithMergeKey_of_isSome (hO x (mem_of_drop_eq_cons ho))]
  simp only [pairEntry, append_ite_nil, ite_append_nil]
  rfl

end Loop

/-! ## Soundness and completeness of the loop -/

section LoopWalk

variable {τ : Type} {S : Schema τ} {t : τ} {mergeKey : String}
  {ignoreChangesAndAdditions ignoreDeletions : Bool} {O M : List JSONMap}

/-- The walk with `diffMaps` at a larger bound returns what it returned. -/
theorem mapsWalk_diffMaps_le {n m : Nat} (h : n ≤ m) {O' M' : List JSONMap} {W : List Value}
    (hW : mapsWalk mergeKey ignoreChangesAndAdditions ignoreDeletions
      (fun x y => diffMaps S n x y t ignoreChangesAndAdditions ignoreDeletions) O' M' = .ok W) :
    mapsWalk mergeKey ignoreChangesAndAdditions ignoreDeletions
      (fun x y => diffMaps S m x y t ignoreChangesAndAdditions ignoreDeletions) O' M' = .ok W :=
  mapsWalk_le (fun x y => diffMaps_fuel_le h x y t _ _) O' M' W hW

theorem length_drop_eq_succ {α : Type} {l l' : List α} {i : Nat} {x : α} (h : l.drop i = x :: l') :
    l.length - i = l'.length + 1 := by
  simpa using congrArg List.length h

variable (hO : ∀ x ∈ O, (JSONMap.get? x mergeKey).isSome)
  (hM : ∀ y ∈ M, (JSONMap.get? y mergeKey).isSome)

include hO hM in
/-- **Soundness of the loop.** What `loopB` and the trailing loops return from `originalIndex` and
`modifiedIndex` is the patch so far followed by what the walk returns on the maps left, with
`diffMaps` at the loop's bound. -/
theorem loop_sound : ∀ fuel : Nat,
    (∀ oi mi P R, (diffListsOfMapsLoopB S fuel (O.map .object) (M.map .object) t mergeKey
          ignoreChangesAndAdditions ignoreDeletions oi mi P >>=
        loopBTail mergeKey ignoreChangesAndAdditions ignoreDeletions (O.map .object)
          (M.map .object)) = .ok R →
      ∃ W, mapsWalk mergeKey ignoreChangesAndAdditions ignoreDeletions
        (fun x y => diffMaps S fuel x y t ignoreChangesAndAdditions ignoreDeletions) (O.drop oi)
        (M.drop mi) = .ok W ∧ R = P ++ W) ∧
    (∀ oi mi y M' P R, M.drop mi = y :: M' →
      (diffListsOfMapsInner S fuel (O.map .object) (M.map .object) t mergeKey
          ignoreChangesAndAdditions ignoreDeletions oi mi y (mergeKeyValue mergeKey y) P >>=
        loopBTail mergeKey ignoreChangesAndAdditions ignoreDeletions (O.map .object)
          (M.map .object)) = .ok R →
      ∃ W, mapsWalk mergeKey ignoreChangesAndAdditions ignoreDeletions
        (fun x y => diffMaps S fuel x y t ignoreChangesAndAdditions ignoreDeletions) (O.drop oi)
        (y :: M') = .ok W ∧ R = P ++ W)
  | 0 => ⟨fun _ _ _ _ h => (nomatch h), fun _ _ _ _ _ _ _ h => (nomatch h)⟩
  | fuel + 1 => by
    obtain ⟨ihB, ihI⟩ := loop_sound fuel
    refine ⟨fun oi mi P R h => ?_, fun oi mi y M' P R hm h => ?_⟩
    · rcases hm : M.drop mi with _ | ⟨y, M'⟩
      · -- no modified map left: the trailing loops
        rw [loopB_of_drop_eq_nil hm] at h
        refine ⟨_, mapsWalk_nil_right .., ?_⟩
        have h := Except.ok.inj (h.symm.trans (loopBTail_eq hO oi mi P))
        simpa [hm] using h
      · rw [loopB_of_drop_eq_cons hM hm] at h
        obtain ⟨W, hW, rfl⟩ := ihI oi mi y M' P R hm h
        exact ⟨W, mapsWalk_diffMaps_le (Nat.le_succ fuel) hW, rfl⟩
    · rcases ho : O.drop oi with _ | ⟨x, O'⟩
      · -- no original map left: `break`, then the trailing loops
        rw [inner_of_drop_eq_nil ho] at h
        refine ⟨_, mapsWalk_nil_left .., ?_⟩
        have h := Except.ok.inj (h.symm.trans (loopBTail_eq hO oi mi P))
        simpa [ho, hm] using h
      have hO' : O.drop (oi + 1) = O' := by rw [← List.drop_drop, ho]; rfl
      have hM' : M.drop (mi + 1) = M' := by rw [← List.drop_drop, hm]; rfl
      rw [inner_of_drop_eq_cons hO ho] at h
      rw [mapsWalk]
      by_cases h₁ : (!strLess (fieldFmt mergeKey x) (fieldFmt mergeKey y)) = true
      · rw [if_pos h₁] at h ⊢
        by_cases h₂ : fieldFmt mergeKey x = fieldFmt mergeKey y
        · -- the same key: the diff, then both maps are done
          rw [if_pos h₂, bind_assoc] at h
          rw [if_pos h₂]
          obtain ⟨d, hd, h⟩ := bind_eq_ok.mp h
          obtain ⟨W, hW, rfl⟩ := ihB (oi + 1) (mi + 1) _ R h
          rw [hO', hM'] at hW
          refine ⟨pairEntry mergeKey y d ++ W, ?_, by simp⟩
          rw [(diff_fuel_le_succ S fuel).1 x y t _ _ d hd, mapsWalk_diffMaps_le (Nat.le_succ fuel) hW]
          rfl
        · -- `y` was added
          rw [if_neg h₂] at h ⊢
          obtain ⟨W, hW, rfl⟩ := ihB oi (mi + 1) _ R h
          rw [ho, hM'] at hW
          exact ⟨_ ++ W, by rw [mapsWalk_diffMaps_le (Nat.le_succ fuel) hW]; rfl, by simp⟩
      · -- `x` was deleted
        rw [if_neg h₁] at h ⊢
        obtain ⟨W, hW, rfl⟩ := ihI (oi + 1) mi y M' _ R hm h
        rw [hO'] at hW
        exact ⟨_ ++ W, by rw [mapsWalk_diffMaps_le (Nat.le_succ fuel) hW]; rfl, by simp⟩

include hO hM in
/-- **Completeness of the loop.** If the walk returns with `diffMaps` at bound `N`, `loopB` and the
trailing loops return the same, after the patch so far, once their bound exceeds `N` by the maps
left: one unit per original map, two per modified map, one to stop. -/
theorem loop_complete (N : Nat) : ∀ fuel : Nat,
    (∀ oi mi P W, N + 1 + (O.length - oi) + 2 * (M.length - mi) ≤ fuel →
      mapsWalk mergeKey ignoreChangesAndAdditions ignoreDeletions
        (fun x y => diffMaps S N x y t ignoreChangesAndAdditions ignoreDeletions) (O.drop oi)
        (M.drop mi) = .ok W →
      (diffListsOfMapsLoopB S fuel (O.map .object) (M.map .object) t mergeKey
          ignoreChangesAndAdditions ignoreDeletions oi mi P >>=
        loopBTail mergeKey ignoreChangesAndAdditions ignoreDeletions (O.map .object)
          (M.map .object)) = .ok (P ++ W)) ∧
    (∀ oi mi y M' P W, M.drop mi = y :: M' → N + (O.length - oi) + 2 * (M.length - mi) ≤ fuel →
      mapsWalk mergeKey ignoreChangesAndAdditions ignoreDeletions
        (fun x y => diffMaps S N x y t ignoreChangesAndAdditions ignoreDeletions) (O.drop oi)
        (y :: M') = .ok W →
      (diffListsOfMapsInner S fuel (O.map .object) (M.map .object) t mergeKey
          ignoreChangesAndAdditions ignoreDeletions oi mi y (mergeKeyValue mergeKey y) P >>=
        loopBTail mergeKey ignoreChangesAndAdditions ignoreDeletions (O.map .object)
          (M.map .object)) = .ok (P ++ W))
  | 0 => ⟨fun _ _ _ _ hf _ => absurd hf (by omega), fun _ _ _ _ _ _ hm hf _ =>
      absurd hf (by have := length_drop_eq_succ hm; omega)⟩
  | fuel + 1 => by
    obtain ⟨ihB, ihI⟩ := loop_complete N fuel
    refine ⟨fun oi mi P W hf hW => ?_, fun oi mi y M' P W hm hf hW => ?_⟩
    · rcases hm : M.drop mi with _ | ⟨y, M'⟩
      · -- no modified map left: the trailing loops
        rw [hm, mapsWalk_nil_right, Except.ok.injEq] at hW
        rw [loopB_of_drop_eq_nil hm]
        exact (loopBTail_eq hO oi mi P).trans (by rw [← hW]; simp [hm])
      · rw [loopB_of_drop_eq_cons hM hm]
        exact ihI oi mi y M' P W hm (by omega) (hm ▸ hW)
    · have hlm := length_drop_eq_succ hm
      rcases ho : O.drop oi with _ | ⟨x, O'⟩
      · -- no original map left: `break`, then the trailing loops
        rw [ho, mapsWalk_nil_left, Except.ok.injEq] at hW
        rw [inner_of_drop_eq_nil ho]
        exact (loopBTail_eq hO oi mi P).trans (by rw [← hW]; simp [ho, hm])
      have hlo := length_drop_eq_succ ho
      have hO' : O.drop (oi + 1) = O' := by rw [← List.drop_drop, ho]; rfl
      have hM' : M.drop (mi + 1) = M' := by rw [← List.drop_drop, hm]; rfl
      rw [ho, mapsWalk] at hW
      rw [inner_of_drop_eq_cons hO ho]
      by_cases h₁ : (!strLess (fieldFmt mergeKey x) (fieldFmt mergeKey y)) = true
      · rw [if_pos h₁] at hW ⊢
        by_cases h₂ : fieldFmt mergeKey x = fieldFmt mergeKey y
        · -- the same key: the diff, then both maps are done
          rw [if_pos h₂] at hW ⊢
          obtain ⟨d, hd, hW⟩ := bind_eq_ok.mp hW
          obtain ⟨rest, hrest, hW⟩ := bind_eq_ok.mp hW
          rw [← Except.ok.inj hW, bind_assoc, diffMaps_fuel_le (by omega) x y t _ _ d hd]
          exact (ihB (oi + 1) (mi + 1) _ rest (by omega) (by rw [hO', hM']; exact hrest)).trans
            (by simp)
        · -- `y` was added
          rw [if_neg h₂] at hW ⊢
          obtain ⟨rest, hrest, hW⟩ := bind_eq_ok.mp hW
          rw [← Except.ok.inj hW]
          exact (ihB oi (mi + 1) _ rest (by omega) (by rw [ho, hM']; exact hrest)).trans (by simp)
      · -- `x` was deleted
        rw [if_neg h₁] at hW ⊢
        obtain ⟨rest, hrest, hW⟩ := bind_eq_ok.mp hW
        rw [← Except.ok.inj hW]
        exact (ihI (oi + 1) mi y M' _ rest hm (by omega) (by rw [hO']; exact hrest)).trans
          (by simp)

end LoopWalk

/-! ## Sorting the two lists -/

section Sorting

variable {τ : Type} (S : Schema τ) {mergeKey : String}

theorem sliceElementType_go_objects (slices : List (List Value)) :
    ∀ L : List JSONMap, sliceElementType.go slices (some .map) (L.map .object) = .ok .map
  | [] => rfl
  | _ :: L => by
    rw [List.map_cons, sliceElementType.go, if_neg (by simp [kind])]
    exact sliceElementType_go_objects slices L

theorem mapSliceFromSlice_objects : ∀ L : List JSONMap, mapSliceFromSlice (L.map .object) = .ok L
  | [] => rfl
  | x :: L => by
    rw [List.map_cons, mapSliceFromSlice, mapSliceFromSlice_objects L]
    rfl

/-- `sortMergeListsByNameArray` of a list of maps, without recursion, sorts them by the `%v` string
of the merge key. -/
theorem sortMergeListsByNameArray_objects (fuel : Nat) (L : List JSONMap) (elemType : τ) :
    sortMergeListsByNameArray S (fuel + 1) (L.map .object) elemType mergeKey false =
      .ok ((goInsertionSort (fun a b => !strLess (fieldFmt mergeKey b) (fieldFmt mergeKey a)) L).map
        .object) := by
  rw [sortMergeListsByNameArray_no_recurse]
  cases L with
  | nil => rfl
  | cons x L =>
    have ht : sliceElementType [(x :: L).map .object] = .ok .map := by
      rw [sliceElementType, List.flatten_singleton, List.map_cons, sliceElementType.go,
        if_neg (by simp [kind]), if_neg (by simp [kind])]
      exact sliceElementType_go_objects _ L
    rw [if_neg (by simp), ht]
    show sortMapsBasedOnField ((x :: L).map .object) mergeKey = _
    rw [sortMapsBasedOnField, mapSliceFromSlice_objects]
    rfl

variable {ignoreChangesAndAdditions ignoreDeletions : Bool} {D : String → JSONMap}

/-- `mapsDiffSpec` does not depend on the order of either list, up to order. -/
theorem mapsDiffSpec_perm {original original' modified modified' : List JSONMap}
    (hO : original'.Perm original) (hM : modified'.Perm modified) :
    (mapsDiffSpec mergeKey ignoreChangesAndAdditions ignoreDeletions D original' modified').Perm
      (mapsDiffSpec mergeKey ignoreChangesAndAdditions ignoreDeletions D original modified) := by
  have hOk : ∀ s, s ∈ original'.map (fieldFmt mergeKey) ↔ s ∈ original.map (fieldFmt mergeKey) :=
    fun _ => (hO.map _).mem_iff
  have hMk : ∀ s, s ∈ modified'.map (fieldFmt mergeKey) ↔ s ∈ modified.map (fieldFmt mergeKey) :=
    fun _ => (hM.map _).mem_iff
  unfold mapsDiffSpec
  simp only [hOk, hMk]
  refine ((List.Perm.append ?_ ?_).append ((hM.filter _).flatMap_right _))
  · split
    · exact List.Perm.refl _
    · exact (hO.filter _).map _
  · split
    · exact List.Perm.refl _
    · exact (hM.filter _).map _

end Sorting

/-! ## `diffListsOfMaps` -/

section DiffListsOfMaps

variable {τ : Type} (S : Schema τ)

/-- **`diffListsOfMaps` pairs the maps by merge key.** Take two lists of maps that all carry the
merge key, with distinct `%v` strings of it within each list. Whatever `diffListsOfMaps` returns
is, up to order, the list `mapsDiffSpec` describes, with `D` giving, for every two maps with the
same key, the diff `diffMaps` returns for them; and if `diffMaps` returns `D` of the key for every
such two maps, `diffListsOfMaps` returns that list with every large enough recursion bound. -/
theorem diffListsOfMaps_pairs_by_mergeKey (original modified : List JSONMap) (t : τ)
    (mergeKey : String) (ignoreChangesAndAdditions ignoreDeletions : Bool)
    (hO : ∀ x ∈ original, (JSONMap.get? x mergeKey).isSome)
    (hM : ∀ y ∈ modified, (JSONMap.get? y mergeKey).isSome)
    (hOd : (original.map (fieldFmt mergeKey)).Nodup)
    (hMd : (modified.map (fieldFmt mergeKey)).Nodup) :
    (∀ fuel patch, diffListsOfMaps S fuel (original.map .object) (modified.map .object) t mergeKey
        ignoreChangesAndAdditions ignoreDeletions = .ok patch →
      ∃ D : String → JSONMap,
        (∀ x ∈ original, ∀ y ∈ modified, fieldFmt mergeKey x = fieldFmt mergeKey y →
          DiffsTo S t ignoreChangesAndAdditions ignoreDeletions x y (D (fieldFmt mergeKey y))) ∧
        patch.Perm (mapsDiffSpec mergeKey ignoreChangesAndAdditions ignoreDeletions D original
          modified)) ∧
    (∀ D : String → JSONMap,
      (∀ x ∈ original, ∀ y ∈ modified, fieldFmt mergeKey x = fieldFmt mergeKey y →
        DiffsTo S t ignoreChangesAndAdditions ignoreDeletions x y (D (fieldFmt mergeKey y))) →
      ∃ bound, ∀ fuel, bound ≤ fuel → ∃ patch,
        diffListsOfMaps S fuel (original.map .object) (modified.map .object) t mergeKey
          ignoreChangesAndAdditions ignoreDeletions = .ok patch ∧
        patch.Perm (mapsDiffSpec mergeKey ignoreChangesAndAdditions ignoreDeletions D original
          modified)) := by
  -- the two lists as `sortMapsBasedOnField` sorts them
  have hsO := perm_goInsertionSort
    (fun a b => !strLess (fieldFmt mergeKey b) (fieldFmt mergeKey a)) original
  have hsM := perm_goInsertionSort
    (fun a b => !strLess (fieldFmt mergeKey b) (fieldFmt mergeKey a)) modified
  have hO' := fun x hx => hO x (hsO.mem_iff.mp hx)
  have hM' := fun y hy => hM y (hsM.mem_iff.mp hy)
  have hOd' := (hsO.map (fieldFmt mergeKey)).nodup_iff.mpr hOd
  have hMd' := (hsM.map (fieldFmt mergeKey)).nodup_iff.mpr hMd
  have hrun : ∀ fuel, diffListsOfMaps S (fuel + 1) (original.map .object) (modified.map .object) t
      mergeKey ignoreChangesAndAdditions ignoreDeletions = _ := fun fuel => by
    rw [diffListsOfMaps_eq, sortMergeListsByNameArray_objects, sortMergeListsByNameArray_objects]
  refine ⟨fun fuel patch h => ?_, fun D hD => ?_⟩
  · -- soundness: the loop returned what the walk returns, which is `mapsDiffSpec`
    obtain _ | fuel := fuel
    · exact nomatch h
    rw [hrun] at h
    obtain ⟨W, hW, hpatch⟩ := (loop_sound hO' hM' fuel).1 0 0 [] patch h
    rw [hpatch, List.nil_append]
    obtain ⟨D, hp, hperm⟩ := mapsWalk_pairs_of_ok _ _ _
      (sorted_goInsertionSort_key (fieldFmt mergeKey) original)
      (sorted_goInsertionSort_key (fieldFmt mergeKey) modified) hOd' hMd' W hW
    exact ⟨D, fun x hx y hy e => ⟨fuel, hp x (hsO.mem_iff.mpr hx) y (hsM.mem_iff.mpr hy) e⟩,
      hperm.trans (mapsDiffSpec_perm hsO hsM)⟩
  · -- completeness: one bound for all the pairs, then the walk and the loop with a larger one
    obtain ⟨N, hN⟩ := DiffsTo.exists_bound (fun x y => fieldFmt mergeKey x = fieldFmt mergeKey y)
      (fun _ y => D (fieldFmt mergeKey y)) original modified hD
    obtain ⟨W, hW, hperm⟩ := mapsWalk_of_pairs _ D _ _
      (sorted_goInsertionSort_key (fieldFmt mergeKey) original)
      (sorted_goInsertionSort_key (fieldFmt mergeKey) modified) hOd' hMd'
      fun x hx y hy e => hN x (hsO.mem_iff.mp hx) y (hsM.mem_iff.mp hy) e
    refine ⟨N + 2 + original.length + 2 * modified.length, fun fuel hf => ⟨W, ?_,
      hperm.trans (mapsDiffSpec_perm hsO hsM)⟩⟩
    obtain ⟨fuel, rfl⟩ : ∃ f, fuel = f + 1 := ⟨fuel - 1, by omega⟩
    rw [hrun]
    exact (loop_complete hO' hM' N fuel).1 0 0 [] W (by simp [hsO.length_eq, hsM.length_eq]; omega)
      hW

/-- Keys `a` and `b` in `original`, `b` and `c` in `modified`: `a` is deleted, the two `b` maps
are diffed, `c` is added. -/
theorem diffListsOfMaps_pairs_by_mergeKey_three_keys :
    (∀ x ∈ [[("name", Value.string "a"), ("v", .number 1)], [("name", .string "b"), ("v", .number 1)]],
      (JSONMap.get? x "name").isSome) ∧
    (∀ y ∈ [[("name", Value.string "c")], [("name", .string "b"), ("v", .number 2)]],
      (JSONMap.get? y "name").isSome) ∧
    ([[("name", Value.string "a"), ("v", .number 1)], [("name", .string "b"), ("v", .number 1)]].map
      (fieldFmt "name")).Nodup ∧
    ([[("name", Value.string "c")], [("name", .string "b"), ("v", .number 2)]].map
      (fieldFmt "name")).Nodup ∧
    ((∀ fuel patch, diffListsOfMaps (uniformSchema "" "") fuel
          ([[("name", Value.string "a"), ("v", .number 1)],
            [("name", .string "b"), ("v", .number 1)]].map .object)
          ([[("name", Value.string "c")], [("name", .string "b"), ("v", .number 2)]].map .object)
          () "name" false false = .ok patch →
        ∃ D : String → JSONMap,
          (∀ x ∈ [[("name", Value.string "a"), ("v", .number 1)],
              [("name", .string "b"), ("v", .number 1)]],
            ∀ y ∈ [[("name", Value.string "c")], [("name", .string "b"), ("v", .number 2)]],
              fieldFmt "name" x = fieldFmt "name" y →
                DiffsTo (uniformSchema "" "") () false false x y (D (fieldFmt "name" y))) ∧
          patch.Perm (mapsDiffSpec "name" false false D
            [[("name", Value.string "a"), ("v", .number 1)], [("name", .string "b"), ("v", .number 1)]]
            [[("name", Value.string "c")], [("name", .string "b"), ("v", .number 2)]])) ∧
      (∀ D : String → JSONMap,
        (∀ x ∈ [[("name", Value.string "a"), ("v", .number 1)],
            [("name", .string "b"), ("v", .number 1)]],
          ∀ y ∈ [[("name", Value.string "c")], [("name", .string "b"), ("v", .number 2)]],
            fieldFmt "name" x = fieldFmt "name" y →
              DiffsTo (uniformSchema "" "") () false false x y (D (fieldFmt "name" y))) →
        ∃ bound, ∀ fuel, bound ≤ fuel → ∃ patch,
          diffListsOfMaps (uniformSchema "" "") fuel
            ([[("name", Value.string "a"), ("v", .number 1)],
              [("name", .string "b"), ("v", .number 1)]].map .object)
            ([[("name", Value.string "c")], [("name", .string "b"), ("v", .number 2)]].map .object)
            () "name" false false = .ok patch ∧
          patch.Perm (mapsDiffSpec "name" false false D
            [[("name", Value.string "a"), ("v", .number 1)], [("name", .string "b"), ("v", .number 1)]]
            [[("name", Value.string "c")], [("name", .string "b"), ("v", .number 2)]]))) :=
  ⟨by decide, by decide, by decide, by decide,
    diffListsOfMaps_pairs_by_mergeKey (uniformSchema "" "") _ _ () "name" false false
      (by decide) (by decide) (by decide) (by decide)⟩

/-- The list it returns: the delete directive for `a`, the diff of the `b` maps with the key set,
and the `c` map. -/
example : diffListsOfMaps (uniformSchema "" "") 20
      ([[("name", Value.string "a"), ("v", .number 1)],
        [("name", .string "b"), ("v", .number 1)]].map .object)
      ([[("name", Value.string "c")], [("name", .string "b"), ("v", .number 2)]].map .object)
      () "name" false false =
    .ok [.object [("name", .string "a"), ("$patch", .string "delete")],
      .object [("v", .number 2), ("name", .string "b")], .object [("name", .string "c")]] :=
  rfl

end DiffListsOfMaps

end ClientGo.Strategicpatch
