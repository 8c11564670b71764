import ClientGo.Strategicpatch.Lists

/-!
# `uniqifyScalars` removes exactly the repeated elements

The outer loop of `uniqifyScalars` keeps the elements before `i` distinct and absent from the rest
of the slice. For one `i` the inner loop walks `j` over the rest of the slice: an element `==` to
`s[i]` is overwritten by the last one and the slice is cut, which keeps its elements since `s[i]`
stays; any other element is stepped over. Read on the slice split as `pre ++ x :: mid ++ rest`,
with `x = s[i]`, `mid` the elements between `i` and `j` and `rest` those from `j` on, the inner
loop keeps `x ∉ mid` and ends with `rest` empty (`uniqifyInner_spec`).

On values `==` can compare, `==` is equality (`goEq_self`, `goEq_of_ne`), so the result has no two
`==` elements and the same elements as the input (`uniqifyScalars_dedup`). Each loop ends within
its recursion bound: the inner one moves `j` up or `length` down, the outer one moves `i` up.
-/

namespace ClientGo.Strategicpatch

open Value

namespace Value

/-- A value Go's `==` compares without panicking: neither a map nor a slice. -/
def isComparable : Value → Bool
  | .array _ | .object _ => false
  | _ => true

theorem goEq_self {v : Value} (hv : v.isComparable) : goEq v v = .ok true := by
  cases v <;> simp_all [isComparable, goEq]

theorem goEq_of_ne {a b : Value} (ha : a.isComparable) (hb : b.isComparable) (h : a ≠ b) :
    goEq a b = .ok false := by
  cases a <;> cases b <;> simp_all [isComparable, goEq]

/-- Whatever the values, a `==` that returns `true` compares equal values. -/
theorem eq_of_goEq_true {a b : Value} (h : goEq a b = .ok true) : a = b := by
  cases a <;> cases b <;> simp_all [goEq]

theorem goEq_false_symm {a b : Value} (h : goEq a b = .ok false) : goEq b a = .ok false := by
  cases a <;> cases b <;> simp_all [goEq, Ne.symm]

end Value

/-! ## The slice around `s[i]` and `s[j]` -/

section Split

variable {α : Type}

theorem getD_append_cons (A B : List α) (y d : α) : (A ++ y :: B).getD A.length d = y := by
  induction A with
  | nil => rfl
  | cons a A ih => exact ih

/-- Overwriting the element at `j` by the last one and cutting the last one off, when the element
at `j` is the last. -/
theorem set_take_of_last (A : List α) (y d : α) {j length : Nat} (hj : A.length = j)
    (hl : A.length = length) : ((A ++ [y]).set j ((A ++ [y]).getD length d)).take length = A := by
  subst hj hl
  rw [getD_append_cons, List.set_append_right _ _ (le_refl _), Nat.sub_self]
  exact List.take_left' rfl

/-- The same, when the last element `z` comes after `y :: L`: `z` moves to `y`'s place. -/
theorem set_take_of_cons (A L : List α) (y z d : α) {j length : Nat} (hj : A.length = j)
    (hl : A.length + L.length + 1 = length) :
    ((A ++ y :: (L ++ [z])).set j ((A ++ y :: (L ++ [z])).getD length d)).take length =
      A ++ z :: L := by
  subst hj hl
  have hz : (A ++ y :: (L ++ [z])).getD (A.length + L.length + 1) d = z := by
    simpa [Nat.add_assoc, Nat.add_comm 1] using getD_append_cons (A ++ y :: L) [] z d
  rw [hz, List.set_append_right _ _ (le_refl _), Nat.sub_self, List.set_cons_zero,
    show A ++ z :: (L ++ [z]) = (A ++ z :: L) ++ [z] by simp]
  exact List.take_left' (by simp; omega)

/-- The slice split at `i < len(s)` around `s[i]`. -/
theorem exists_split_at {s : List α} {i : Nat} (h : i < s.length) :
    ∃ pre x rest, s = pre ++ x :: rest ∧ pre.length = i :=
  ⟨s.take i, s[i], s.drop (i + 1), by rw [← List.drop_eq_getElem_cons h, List.take_append_drop],
    List.length_take_of_le h.le⟩

/-- Distinct elements before `i`, none of them after, and at most one element from `i` on: the
slice has no repeated element. -/
theorem pairwise_of_take_drop {R : α → α → Prop} {s : List α} {i : Nat}
    (hp : (s.take i).Pairwise R) (hd : ∀ a ∈ s.take i, ∀ b ∈ s.drop i, R a b)
    (hl : s.length ≤ i + 1) : s.Pairwise R := by
  rw [← List.take_append_drop i s]
  refine List.pairwise_append.mpr ⟨hp, ?_, hd⟩
  have hlen : (s.drop i).length ≤ 1 := by simp only [List.length_drop]; omega
  match s.drop i, hlen with
  | [], _ | [_], _ => simp
  | _ :: _ :: _, hlen => simp at hlen

theorem pairwise_ne_of_take_drop {s : List α} {i : Nat} (hp : (s.take i).Pairwise (· ≠ ·))
    (hd : ∀ a ∈ s.take i, a ∉ s.drop i) (hl : s.length ≤ i + 1) : s.Pairwise (· ≠ ·) :=
  pairwise_of_take_drop hp (fun a ha _ hb hab => hd a ha (hab ▸ hb)) hl

end Split

/-! ## The inner loop -/

/-- **The inner loop for one `i`.** On the slice `pre ++ x :: mid ++ rest` with `j` at the start of
`rest`, it removes from `rest` the elements equal to `x = s[i]` and puts the others, in some order,
after `mid`. -/
theorem uniqifyInner_spec {i : Nat} {pre : List Value} {x : Value} (hpre : pre.length = i)
    (hx : x.isComparable) :
    ∀ (fuel : Nat) (mid rest : List Value), (∀ v ∈ rest, v.isComparable) → rest.length ≤ fuel →
      x ∉ mid →
      ∃ mid', uniqifyInner i fuel (pre ++ x :: mid ++ rest) (i + mid.length + rest.length)
          (i + 1 + mid.length) = .ok (pre ++ x :: mid', i + mid'.length) ∧
        x ∉ mid' ∧ mid'.length ≤ mid.length + rest.length ∧
        ∀ v, v ∈ mid' ↔ v ∈ mid ∨ (v ∈ rest ∧ v ≠ x)
  | 0, mid, rest, _, hfuel, hmid => by
    obtain rfl : rest = [] := List.eq_nil_of_length_eq_zero (by omega)
    exact ⟨mid, by simp [uniqifyInner], hmid, by simp, by simp⟩
  | fuel + 1, mid, [], _, _, hmid => by
    refine ⟨mid, ?_, hmid, by simp, by simp⟩
    rw [uniqifyInner, if_neg (by simp only [List.length_nil]; omega)]
    simp
  | fuel + 1, mid, y :: rest, hc, hfuel, hmid => by
    have hA : (pre ++ x :: mid).length = i + 1 + mid.length := by simp [hpre]; omega
    have hi : (pre ++ x :: mid ++ y :: rest).getD i .null = x := by
      rw [List.append_assoc, List.cons_append, ← hpre, getD_append_cons]
    have hj : (pre ++ x :: mid ++ y :: rest).getD (i + 1 + mid.length) .null = y := by
      rw [← hA, getD_append_cons]
    rw [uniqifyInner, if_pos (by simp only [List.length_cons]; omega), hi, hj]
    by_cases hxy : y = x
    · -- `y` is overwritten by the last element, which moves to `j`, and the slice is cut
      subst hxy
      simp only [goEq_self hx, bind, Except.bind, if_true]
      by_cases hr : rest = []
      · subst hr
        rw [set_take_of_last _ y .null hA (by simp [hpre]; omega)]
        obtain ⟨mid', h, h1, h2, h3⟩ := uniqifyInner_spec hpre hx fuel mid [] (by simp) (by simp)
          hmid
        exact ⟨mid', by simpa using h, h1, by simp at h2 ⊢; omega, fun v => by simpa using h3 v⟩
      · obtain ⟨L, z, rfl⟩ : ∃ L z, rest = L ++ [z] :=
          ⟨_, _, (List.dropLast_append_getLast hr).symm⟩
        rw [set_take_of_cons _ L y z .null hA (by simp [hpre]; omega)]
        obtain ⟨mid', h, h1, h2, h3⟩ := uniqifyInner_spec hpre hx fuel mid (z :: L)
          (fun v hv => hc v (by rcases List.mem_cons.mp hv with rfl | hv <;> simp [*]))
          (by simp at hfuel ⊢; omega) hmid
        refine ⟨mid', by simpa [Nat.add_assoc] using h, h1, by simp at h2 ⊢; omega, fun v => ?_⟩
        rw [h3 v]
        by_cases hv : v = y <;> simp [hv, or_comm]
    · -- `y` stays, and `j` moves past it
      simp only [goEq_of_ne hx (hc y (List.mem_cons_self _ _)) (Ne.symm hxy), bind, Except.bind,
        Bool.false_eq_true, if_false]
      obtain ⟨mid', h, h1, h2, h3⟩ := uniqifyInner_spec hpre hx fuel (mid ++ [y]) rest
        (fun v hv => hc v (List.mem_cons_of_mem _ hv)) (by simp at hfuel; omega)
        (by simp [hmid, Ne.symm hxy])
      refine ⟨mid', by simpa [Nat.add_assoc, Nat.add_comm 1] using h, h1,
        by simp at h2 ⊢; omega, fun v => ?_⟩
      rw [h3 v]
      by_cases hv : v = y
      · simp [hv, hxy]
      · simp [hv]

/-! ## The outer loop -/

/-- **The outer loop.** With the elements before `i` distinct and absent from the rest of the
slice, and `length = len(s) - 1`, the loop returns a slice with no repeated element and the
elements of `s`. -/
theorem uniqifyOuter_spec :
    ∀ (fuel i : Nat) (s : List Value) (length : Nat), (∀ v ∈ s, v.isComparable) →
      s.length = length + 1 → (s.take i).Pairwise (· ≠ ·) → (∀ a ∈ s.take i, a ∉ s.drop i) →
      length ≤ i + fuel →
      ∃ r, uniqifyOuter fuel s length i = .ok r ∧ r.Pairwise (· ≠ ·) ∧ ∀ v, v ∈ r ↔ v ∈ s
  | 0, i, s, length, _, hs, hp, hd, hfuel =>
    ⟨s, rfl, pairwise_ne_of_take_drop hp hd (by omega), fun _ => Iff.rfl⟩
  | fuel + 1, i, s, length, hc, hs, hp, hd, hfuel => by
    rw [uniqifyOuter]
    split
    case isFalse hi => exact ⟨s, rfl, pairwise_ne_of_take_drop hp hd (by omega), fun _ => Iff.rfl⟩
    case isTrue hi =>
    obtain ⟨pre, x, rest, rfl, hpre⟩ := exists_split_at (show i < s.length by omega)
    obtain rfl : length = i + rest.length := by simp at hs; omega
    rw [List.take_left' hpre] at hp hd
    rw [List.drop_left' hpre] at hd
    have hx : x.isComparable := hc x (by simp)
    obtain ⟨mid', h, h1, h2, h3⟩ := uniqifyInner_spec hpre hx (i + rest.length - i) [] rest
      (fun v hv => hc v (by simp [hv])) (by omega) (List.not_mem_nil x)
    simp only [List.append_assoc, List.singleton_append, List.length_nil, Nat.add_zero] at h
    simp only [h, bind, Except.bind]
    -- the slice is now `pre ++ x :: mid'`, with `mid'` the elements of `rest` other than `x`
    have hmid : ∀ v, v ∈ mid' → v ∈ rest := fun v hv => ((h3 v).mp hv).resolve_left (List.not_mem_nil v) |>.1
    have hsplit : pre ++ x :: mid' = (pre ++ [x]) ++ mid' := by simp
    obtain ⟨r, hr, hrp, hrm⟩ := uniqifyOuter_spec fuel (i + 1) (pre ++ x :: mid') (i + mid'.length)
      (fun v hv => hc v (by simp at hv ⊢; rcases hv with hv | hv | hv <;> simp [hv, hmid]))
      (by simp [hpre]; omega)
      (by
        rw [hsplit, List.take_left' (by simp [hpre])]
        exact List.pairwise_append.mpr ⟨hp, List.pairwise_singleton _ _,
          fun a ha b hb hab => hd a ha (by
            rw [hab, List.mem_singleton.mp hb]; exact List.mem_cons_self _ _)⟩)
      (by
        rw [hsplit, List.take_left' (by simp [hpre]), List.drop_left' (by simp [hpre])]
        intro a ha hm
        rcases List.mem_append.mp ha with ha | ha
        · exact hd a ha (List.mem_cons_of_mem _ (hmid a hm))
        · exact h1 (List.mem_singleton.mp ha ▸ hm))
      (by simp only [List.length_nil, Nat.zero_add] at h2; omega)
    refine ⟨r, hr, hrp, fun v => ?_⟩
    rw [hrm v]; simp only [List.mem_append, List.mem_cons, h3 v, List.not_mem_nil, false_or]
    by_cases hv : v = x <;> simp [hv]

/-- **`uniqifyScalars` deduplicates.** On a slice of values `==` can compare, it returns without
a panic a slice in which `==` holds between no two elements, and with the elements of `s`. -/
theorem uniqifyScalars_dedup (s : List Value) (hs : ∀ v ∈ s, v.isComparable) :
    ∃ r, uniqifyScalars s = .ok r ∧ r.Pairwise (fun a b => goEq a b = .ok false) ∧
      ∀ v, v ∈ r ↔ v ∈ s := by
  rcases s with _ | ⟨y, s⟩
  · exact ⟨[], rfl, List.Pairwise.nil, fun _ => Iff.rfl⟩
  obtain ⟨r, hr, hrp, hrm⟩ := uniqifyOuter_spec (y :: s).length 0 (y :: s) s.length hs rfl
    List.Pairwise.nil (by simp) (by simp)
  refine ⟨r, hr, hrp.imp_of_mem fun ha hb hab => goEq_of_ne ?_ ?_ hab, hrm⟩
  · exact hs _ ((hrm _).mp ha)
  · exact hs _ ((hrm _).mp hb)

/-- `[1, 2, 1, 1]`: the first `1` is overwritten by nothing, the later ones are cut off. -/
theorem uniqifyScalars_dedup_repeated_tail :
    (∀ v ∈ [Value.number 1, .number 2, .number 1, .number 1], v.isComparable) ∧
    uniqifyScalars [.number 1, .number 2, .number 1, .number 1] = .ok [.number 1, .number 2] ∧
    ∃ r, uniqifyScalars [.number 1, .number 2, .number 1, .number 1] = .ok r ∧
      r.Pairwise (fun a b => goEq a b = .ok false) ∧
      ∀ v, v ∈ r ↔ v ∈ [Value.number 1, .number 2, .number 1, .number 1] :=
  ⟨by decide, rfl, uniqifyScalars_dedup _ (by decide)⟩

/-! ## A run that returns, and slices the loops leave alone

Whatever the elements, a run of `uniqifyScalars` that returns has compared every two elements of
its result with `==` and found them different (`uniqifyScalars_pairwise`): the inner loop for `i`
compares `s[i]` with every later element, and removes only those `==` to it. On a slice whose
elements `==` finds pairwise different the loops remove nothing (`uniqifyScalars_of_pairwise`).
Neither needs the elements to be scalars: `==` compares one map or one slice with a scalar
without a panic.
-/

/-- **The inner loop, when it returns.** On `pre ++ x :: mid ++ rest` with `j` at the start of
`rest`, where `==` found `x` different from every element of `mid`, a returning run leaves
`pre ++ x :: mid'`, with `x` found different from every element of `mid'`, and each of them from
`mid` or `rest`. -/
theorem uniqifyInner_ok {i : Nat} {pre : List Value} {x : Value} (hpre : pre.length = i) :
    ∀ (fuel : Nat) (mid rest : List Value) {r : List Value × Nat}, rest.length ≤ fuel →
      (∀ v ∈ mid, goEq x v = .ok false) →
      uniqifyInner i fuel (pre ++ x :: mid ++ rest) (i + mid.length + rest.length)
          (i + 1 + mid.length) = .ok r →
      ∃ mid', r = (pre ++ x :: mid', i + mid'.length) ∧ (∀ v ∈ mid', goEq x v = .ok false) ∧
        (∀ v ∈ mid', v ∈ mid ∨ v ∈ rest) ∧ mid'.length ≤ mid.length + rest.length
  | 0, mid, rest, r, hfuel, hmid, h => by
    obtain rfl : rest = [] := List.eq_nil_of_length_eq_zero (by omega)
    exact ⟨mid, by simpa [uniqifyInner] using h.symm, hmid, fun v hv => .inl hv, by simp⟩
  | fuel + 1, mid, [], r, _, hmid, h => by
    rw [uniqifyInner, if_neg (by simp only [List.length_nil]; omega)] at h
    exact ⟨mid, by simpa using h.symm, hmid, fun v hv => .inl hv, by simp⟩
  | fuel + 1, mid, y :: rest, r, hfuel, hmid, h => by
    have hA : (pre ++ x :: mid).length = i + 1 + mid.length := by simp [hpre]; omega
    have hi : (pre ++ x :: mid ++ y :: rest).getD i .null = x := by
      rw [List.append_assoc, List.cons_append, ← hpre, getD_append_cons]
    have hj : (pre ++ x :: mid ++ y :: rest).getD (i + 1 + mid.length) .null = y := by
      rw [← hA, getD_append_cons]
    rw [uniqifyInner, if_pos (by simp only [List.length_cons]; omega), hi, hj] at h
    rcases hxy : goEq x y with e | _ | _
    · simp [hxy, bind, Except.bind] at h
    · -- `y` stays, and `j` moves past it
      simp only [hxy, bind, Except.bind, Bool.false_eq_true, if_false] at h
      obtain ⟨mid', rfl, h1, h2, h3⟩ := @uniqifyInner_ok _ _ x hpre fuel (mid ++ [y]) rest _
        (by simp at hfuel; omega)
        (fun v hv => (List.mem_append.mp hv).elim (hmid v) fun hv => List.mem_singleton.mp hv ▸ hxy)
        (by simpa [Nat.add_assoc, Nat.add_comm 1] using h)
      refine ⟨mid', rfl, h1, fun v hv => ?_, by simp at h3 ⊢; omega⟩
      rcases h2 v hv with hv | hv
      · rcases List.mem_append.mp hv with hv | hv
        · exact .inl hv
        · exact .inr (List.mem_singleton.mp hv ▸ List.mem_cons_self _ _)
      · exact .inr (List.mem_cons_of_mem _ hv)
    · -- `y` is `x`: the last element overwrites it and the slice is cut
      obtain rfl := eq_of_goEq_true hxy
      simp only [hxy, bind, Except.bind, if_true] at h
      by_cases hr : rest = []
      · subst hr
        rw [set_take_of_last _ x .null hA (by simp [hpre]; omega)] at h
        obtain ⟨mid', rfl, h1, h2, h3⟩ := @uniqifyInner_ok _ _ x hpre fuel mid [] _ (by simp) hmid
          (by simpa using h)
        exact ⟨mid', rfl, h1, fun v hv => .inl ((h2 v hv).resolve_right (List.not_mem_nil v)),
          by simp at h3 ⊢; omega⟩
      · obtain ⟨L, z, rfl⟩ : ∃ L z, rest = L ++ [z] :=
          ⟨_, _, (List.dropLast_append_getLast hr).symm⟩
        rw [set_take_of_cons _ L x z .null hA (by simp [hpre]; omega)] at h
        obtain ⟨mid', rfl, h1, h2, h3⟩ := @uniqifyInner_ok _ _ x hpre fuel mid (z :: L) _
          (by simp at hfuel ⊢; omega) hmid (by simpa [Nat.add_assoc] using h)
        refine ⟨mid', rfl, h1, fun v hv => ?_, by simp at h3 ⊢; omega⟩
        rcases h2 v hv with hv | hv
        · exact .inl hv
        · refine .inr (List.mem_cons_of_mem _ ?_)
          rcases List.mem_cons.mp hv with rfl | hv <;> simp [*]

/-- **The outer loop, when it returns.** With `==` having found each element before `i` different
from every later one, a returning run ends with elements of `s` that `==` found pairwise
different. -/
theorem uniqifyOuter_ok :
    ∀ (fuel i : Nat) (s : List Value) (length : Nat) {r : List Value}, s.length = length + 1 →
      (s.take i).Pairwise (fun a b => goEq a b = .ok false) →
      (∀ a ∈ s.take i, ∀ b ∈ s.drop i, goEq a b = .ok false) → length ≤ i + fuel →
      uniqifyOuter fuel s length i = .ok r →
      r.Pairwise (fun a b => goEq a b = .ok false) ∧ ∀ v ∈ r, v ∈ s
  | 0, i, s, length, r, hs, hp, hd, hfuel, h => by
    obtain rfl := Except.ok.inj h
    exact ⟨pairwise_of_take_drop hp hd (by omega), fun _ hv => hv⟩
  | fuel + 1, i, s, length, r, hs, hp, hd, hfuel, h => by
    rw [uniqifyOuter] at h
    split at h
    case isFalse hi =>
      obtain rfl := Except.ok.inj h
      exact ⟨pairwise_of_take_drop hp hd (by omega), fun _ hv => hv⟩
    case isTrue hi =>
    obtain ⟨pre, x, rest, rfl, hpre⟩ := exists_split_at (show i < s.length by omega)
    obtain rfl : length = i + rest.length := by simp at hs; omega
    rw [List.take_left' hpre] at hp hd
    rw [List.drop_left' hpre] at hd
    obtain ⟨⟨s', l'⟩, hin, hout⟩ := bind_eq_ok.mp h
    obtain ⟨mid', he, h1, h2, h3⟩ := uniqifyInner_ok hpre (i + rest.length - i) [] rest (by omega)
      (by simp) (by simpa using hin)
    obtain ⟨rfl, rfl⟩ := Prod.mk.inj he
    -- the slice is now `pre ++ x :: mid'`, with `mid'` elements of `rest` found different from `x`
    have hmid : ∀ v ∈ mid', v ∈ rest := fun v hv => (h2 v hv).resolve_left (List.not_mem_nil v)
    have hsplit : pre ++ x :: mid' = (pre ++ [x]) ++ mid' := by simp
    obtain ⟨hr, hrm⟩ := uniqifyOuter_ok fuel (i + 1) (pre ++ x :: mid') (i + mid'.length)
      (by simp [hpre]; omega)
      (by
        rw [hsplit, List.take_left' (by simp [hpre])]
        exact List.pairwise_append.mpr ⟨hp, List.pairwise_singleton _ _,
          fun a ha b hb => List.mem_singleton.mp hb ▸ hd a ha x (List.mem_cons_self _ _)⟩)
      (by
        rw [hsplit, List.take_left' (by simp [hpre]), List.drop_left' (by simp [hpre])]
        intro a ha b hb
        rcases List.mem_append.mp ha with ha | ha
        · exact hd a ha b (List.mem_cons_of_mem _ (hmid b hb))
        · exact List.mem_singleton.mp ha ▸ h1 b hb)
      (by simp only [List.length_nil, Nat.zero_add] at h3; omega) hout
    refine ⟨hr, fun v hv => ?_⟩
    have := hrm v hv
    simp only [List.mem_append, List.mem_cons] at this ⊢
    rcases this with h | h | h
    · exact .inl h
    · exact .inr (.inl h)
    · exact .inr (.inr (hmid v h))

/-- A run of `uniqifyScalars` that returns has found its elements pairwise different, and they are
elements of `s`. -/
theorem uniqifyScalars_pairwise {s r : List Value} (h : uniqifyScalars s = .ok r) :
    r.Pairwise (fun a b => goEq a b = .ok false) ∧ ∀ v ∈ r, v ∈ s := by
  rcases s with _ | ⟨y, s⟩
  · obtain rfl := Except.ok.inj h
    exact ⟨List.Pairwise.nil, fun _ hv => hv⟩
  exact uniqifyOuter_ok (y :: s).length 0 (y :: s) s.length rfl List.Pairwise.nil (by simp)
    (by simp) h

/-- The inner loop removes nothing when `==` finds `s[i]` different from every element from `j`
to `length`. -/
theorem uniqifyInner_of_ne {i : Nat} {s : List Value} {length : Nat} :
    ∀ (fuel j : Nat),
      (∀ j', j ≤ j' → j' ≤ length → goEq (s.getD i .null) (s.getD j' .null) = .ok false) →
      uniqifyInner i fuel s length j = .ok (s, length)
  | 0, _, _ => rfl
  | fuel + 1, j, h => by
    rw [uniqifyInner]
    split
    · simp only [h j le_rfl ‹_›, bind, Except.bind, Bool.false_eq_true, if_false]
      exact uniqifyInner_of_ne fuel (j + 1) fun j' hj hl => h j' (by omega) hl
    · rfl

/-- The outer loop removes nothing from a slice whose elements `==` finds pairwise different. -/
theorem uniqifyOuter_of_pairwise {s : List Value}
    (hs : s.Pairwise fun a b => goEq a b = .ok false) {length : Nat} (hl : s.length = length + 1) :
    ∀ fuel i, uniqifyOuter fuel s length i = .ok s
  | 0, _ => rfl
  | fuel + 1, i => by
    rw [uniqifyOuter]
    split
    · rw [uniqifyInner_of_ne _ _ fun j' hj hl' => ?_]
      · exact uniqifyOuter_of_pairwise hs hl fuel (i + 1)
      · simp only [List.getD_eq_getElem?_getD]
        rw [List.getElem?_eq_getElem (by omega), List.getElem?_eq_getElem (by omega)]
        exact List.pairwise_iff_getElem.mp hs i j' _ _ (by omega)
    · rfl

theorem uniqifyScalars_of_pairwise {s : List Value}
    (hs : s.Pairwise fun a b => goEq a b = .ok false) : uniqifyScalars s = .ok s := by
  rcases s with _ | ⟨y, s⟩
  · rfl
  · exact uniqifyOuter_of_pairwise hs rfl _ 0

end ClientGo.Strategicpatch
