import Mathlib.Data.List.Sort

/-!
# JSON documents as the patch engine sees them

`json.Unmarshal` into `map[string]interface{}` gives a tree of `nil`, `bool`, `float64`,
`string`, `[]interface{}` and `map[string]interface{}` (`Value`); numbers are kept as integers.
An object is a list of fields (`JSONMap`). Go visits the keys of a map in no fixed order, so the
order of the list is the order the engine's loops visit them: a statement over every list is a
statement over every iteration order.

The engine compares values through `fmt.Sprintf("%v", ·)` (`fmtV`), `%s` (`fmtS`), Go's `==` on
interfaces (`goEq`, which panics on maps and slices) and `reflect.DeepEqual` (`deepEqual`). What
it reads of the Go type of the document, `LookupPatchMetadata` of the forked `encoding/json` and
`Elem()` of a slice type, is a parameter (`Schema`).
-/

namespace ClientGo.Strategicpatch

/-- A JSON value decoded into `interface{}`. -/
inductive Value where
  | null
  | bool (b : Bool)
  | number (n : Int)
  | string (s : String)
  | array (elems : List Value)
  | object (fields : List (String × Value))
  deriving Repr, Inhabited

/-- `map[string]interface{}`: the fields of an object, in the order a loop visits them. -/
abbrev JSONMap := List (String × Value)

/-- `reflect.TypeOf` of a decoded value; `nil` for a JSON `null`. -/
inductive Kind where
  | nil
  | bool
  | float64
  | string
  | slice
  | map
  deriving DecidableEq, Repr

/-- Go's `a < b` on strings. It compares bytes, and UTF-8 keeps the order of code points, so it
is the lexicographic order of the characters. -/
def strLess (a b : String) : Bool := charsLess a.data b.data
where
  charsLess : List Char → List Char → Bool
    | _, [] => false
    | [], _ :: _ => true
    | c :: cs, d :: ds => c.toNat < d.toNat || (c.toNat = d.toNat && charsLess cs ds)

namespace Value

def kind : Value → Kind
  | .null => .nil
  | .bool _ => .bool
  | .number _ => .float64
  | .string _ => .string
  | .array _ => .slice
  | .object _ => .map

theorem kind_eq_nil_iff {v : Value} : v.kind = .nil ↔ v = .null := by
  cases v <;> simp [kind]

/-- Sort the fields of a formatted map by key, as `fmt` prints maps. -/
def sortFields (kvs : List (String × String)) : List (String × String) :=
  kvs.insertionSort fun a b => !strLess b.1 a.1

/-- `fmt.Sprintf("%v", v)`. -/
def fmtV : Value → String
  | .null => "<nil>"
  | .bool b => toString b
  | .number n => toString n
  | .string s => s
  | .array xs => "[" ++ " ".intercalate (fmtList xs) ++ "]"
  | .object kvs =>
    "map[" ++ " ".intercalate ((sortFields (fmtFields kvs)).map fun p => p.1 ++ ":" ++ p.2) ++ "]"
where
  fmtList : List Value → List String
    | [] => []
    | x :: xs => fmtV x :: fmtList xs
  fmtFields : List (String × Value) → List (String × String)
    | [] => []
    | (k, v) :: kvs => (k, fmtV v) :: fmtFields kvs

/-- `fmt.Sprintf("%s", v)`: a string prints as itself, any other scalar as `%!s(type=value)`. -/
def fmtS : Value → String
  | .null => "%!s(<nil>)"
  | .bool b => "%!s(bool=" ++ toString b ++ ")"
  | .number n => "%!s(float64=" ++ toString n ++ ")"
  | .string s => s
  | .array xs => "[" ++ " ".intercalate (fmtList xs) ++ "]"
  | .object kvs =>
    "map[" ++ " ".intercalate ((sortFields (fmtFields kvs)).map fun p => p.1 ++ ":" ++ p.2) ++ "]"
where
  fmtList : List Value → List String
    | [] => []
    | x :: xs => fmtS x :: fmtList xs
  fmtFields : List (String × Value) → List (String × String)
    | [] => []
    | (k, v) :: kvs => (k, fmtS v) :: fmtFields kvs

/-- `reflect.DeepEqual` on decoded values: maps are equal when they have the same number of keys
and every key of the first maps to a deeply equal value in the second. -/
def deepEqual : Value → Value → Bool
  | .null, .null => true
  | .bool a, .bool b => a == b
  | .number a, .number b => a == b
  | .string a, .string b => a == b
  | .array xs, .array ys => deepEqualList xs ys
  | .object xs, .object ys => xs.length == ys.length && deepEqualFields xs ys
  | _, _ => false
where
  deepEqualList : List Value → List Value → Bool
    | [], [] => true
    | x :: xs, y :: ys => deepEqual x y && deepEqualList xs ys
    | _, _ => false
  deepEqualFields : List (String × Value) → List (String × Value) → Bool
    | [], _ => true
    | (k, v) :: kvs, ys =>
      (match ys.lookup k with
        | some w => deepEqual v w
        | none => false) && deepEqualFields kvs ys

/-- The number of nodes: it bounds every recursion of the engine over a document. -/
def size : Value → Nat
  | .array xs => sizeList xs + 1
  | .object kvs => sizeFields kvs + 1
  | _ => 1
where
  sizeList : List Value → Nat
    | [] => 0
    | x :: xs => size x + sizeList xs
  sizeFields : List (String × Value) → Nat
    | [] => 0
    | (_, v) :: kvs => size v + sizeFields kvs

end Value

namespace JSONMap

/-- `m[k]`, with the `ok` of a two-value index. -/
def get? : JSONMap → String → Option Value
  | [], _ => none
  | (k', v) :: m, k => if k' = k then some v else get? m k

/-- `m[k] = v`: replaces the value of a key in place, or adds the key. -/
def insert : JSONMap → String → Value → JSONMap
  | [], k, v => [(k, v)]
  | (k', v') :: m, k, v => if k' = k then (k, v) :: m else (k', v') :: insert m k v

/-- `delete(m, k)`. -/
def erase : JSONMap → String → JSONMap
  | [], _ => []
  | (k', v') :: m, k => if k' = k then m else (k', v') :: erase m k

@[simp] theorem get?_nil (k : String) : get? [] k = none := rfl

theorem get?_cons (k' k : String) (v : Value) (m : JSONMap) :
    get? ((k', v) :: m) k = if k' = k then some v else get? m k := rfl

@[simp] theorem get?_insert_self (m : JSONMap) (k : String) (v : Value) :
    get? (insert m k v) k = some v := by
  induction m with
  | nil => simp [insert, get?_cons]
  | cons kv m ih => obtain ⟨k', v'⟩ := kv; by_cases h : k' = k <;> simp [insert, get?_cons, h, ih]

theorem get?_insert_ne (m : JSONMap) {k k' : String} (v : Value) (h : k' ≠ k) :
    get? (insert m k v) k' = get? m k' := by
  induction m with
  | nil => simp [insert, get?_cons, Ne.symm h]
  | cons kv m ih =>
    obtain ⟨k₀, v₀⟩ := kv
    by_cases h0 : k₀ = k
    · subst h0; simp [insert, get?_cons, Ne.symm h]
    · simp only [insert, h0, if_false, get?_cons, ih]

theorem mem_insert {m : JSONMap} {k : String} {v : Value} {kv : String × Value}
    (h : kv ∈ insert m k v) : kv ∈ m ∨ kv = (k, v) := by
  induction m with
  | nil => simpa [insert] using h
  | cons e m ih =>
    obtain ⟨k', v'⟩ := e
    simp only [insert] at h
    split_ifs at h
    · rcases List.mem_cons.mp h with rfl | h
      · exact .inr rfl
      · exact .inl (List.mem_cons_of_mem _ h)
    · rcases List.mem_cons.mp h with rfl | h
      · exact .inl (List.mem_cons_self _ _)
      · exact (ih h).imp_left (List.mem_cons_of_mem _)

theorem mem_erase {m : JSONMap} {k : String} {kv : String × Value} (h : kv ∈ erase m k) :
    kv ∈ m := by
  induction m with
  | nil => simp [erase] at h
  | cons e m ih =>
    obtain ⟨k', v'⟩ := e
    simp only [erase] at h
    split_ifs at h
    · exact List.mem_cons_of_mem _ h
    · rcases List.mem_cons.mp h with rfl | h
      · exact List.mem_cons_self _ _
      · exact List.mem_cons_of_mem _ (ih h)

/-- The keys of a map, in iteration order. -/
def keys (m : JSONMap) : List String := m.map Prod.fst

theorem get?_insert (m : JSONMap) (k k' : String) (v : Value) :
    get? (insert m k v) k' = if k' = k then some v else get? m k' := by
  split_ifs with h
  · subst h; exact get?_insert_self m k' v
  · exact get?_insert_ne m v h

theorem get?_erase_ne (m : JSONMap) {k k' : String} (h : k' ≠ k) :
    get? (erase m k) k' = get? m k' := by
  induction m with
  | nil => rfl
  | cons kv m ih =>
    obtain ⟨k₀, v₀⟩ := kv
    by_cases h0 : k₀ = k
    · subst h0; simp [erase, get?_cons, Ne.symm h]
    · simp only [erase, h0, if_false, get?_cons, ih]

theorem mem_of_get? {m : JSONMap} {k : String} {v : Value} (h : get? m k = some v) :
    (k, v) ∈ m := by
  induction m with
  | nil => cases h
  | cons kv m ih =>
    obtain ⟨k₀, v₀⟩ := kv
    rw [get?_cons] at h
    split_ifs at h with h0
    · cases h; subst h0; exact List.mem_cons_self _ _
    · exact List.mem_cons_of_mem _ (ih h)

theorem get?_eq_none {m : JSONMap} {k : String} (h : k ∉ keys m) : get? m k = none := by
  cases hk : get? m k with
  | none => rfl
  | some v => exact absurd (List.mem_map_of_mem Prod.fst (mem_of_get? hk)) h

theorem get?_eq_none_iff {m : JSONMap} {k : String} : get? m k = none ↔ k ∉ keys m := by
  refine ⟨fun h hk => ?_, get?_eq_none⟩
  induction m with
  | nil => cases hk
  | cons kv m ih =>
    obtain ⟨k', v⟩ := kv
    rw [get?_cons] at h
    split_ifs at h with h'
    rcases List.mem_cons.mp hk with rfl | hk
    · exact h' rfl
    · exact ih h hk

theorem mem_keys_of_isSome {m : JSONMap} {k : String} (h : (get? m k).isSome) : k ∈ keys m := by
  obtain ⟨v, hv⟩ := Option.isSome_iff_exists.mp h
  exact List.mem_map_of_mem Prod.fst (mem_of_get? hv)

theorem get?_eq_some_of_mem {m : JSONMap} (hm : (keys m).Nodup) {k : String} {v : Value}
    (h : (k, v) ∈ m) : get? m k = some v := by
  induction m with
  | nil => cases h
  | cons kv m ih =>
    obtain ⟨k₀, v₀⟩ := kv
    simp only [keys, List.map_cons, List.nodup_cons] at hm
    rcases List.mem_cons.mp h with h | h
    · cases h; simp [get?_cons]
    · have hk : k₀ ≠ k := fun e => hm.1 (e ▸ List.mem_map_of_mem Prod.fst h)
      rw [get?_cons, if_neg hk]; exact ih hm.2 h

theorem mem_keys_insert {m : JSONMap} {k x : String} {v : Value} (h : x ∈ keys (insert m k v)) :
    x = k ∨ x ∈ keys m := by
  obtain ⟨kv, hkv, rfl⟩ := List.mem_map.mp h
  rcases mem_insert hkv with h | rfl
  · exact .inr (List.mem_map_of_mem Prod.fst h)
  · exact .inl rfl

theorem nodup_insert {m : JSONMap} (hm : (keys m).Nodup) (k : String) (v : Value) :
    (keys (insert m k v)).Nodup := by
  induction m with
  | nil => simp [insert, keys]
  | cons kv m ih =>
    obtain ⟨k₀, v₀⟩ := kv
    simp only [keys, List.map_cons, List.nodup_cons] at hm
    simp only [insert]
    split_ifs with h0
    · subst h0; exact List.nodup_cons.mpr hm
    · refine List.nodup_cons.mpr ⟨fun hx => ?_, ih hm.2⟩
      rcases mem_keys_insert hx with rfl | hx
      · exact h0 rfl
      · exact hm.1 hx

theorem erase_sublist (m : JSONMap) (k : String) : (erase m k).Sublist m := by
  induction m with
  | nil => exact List.Sublist.slnil
  | cons kv m ih =>
    simp only [erase]
    split_ifs
    · exact List.sublist_cons_self _ _
    · exact ih.cons₂ _

theorem get?_erase_self {m : JSONMap} (hm : (keys m).Nodup) (k : String) :
    get? (erase m k) k = none := by
  induction m with
  | nil => rfl
  | cons kv m ih =>
    obtain ⟨k₀, v₀⟩ := kv
    simp only [keys, List.map_cons, List.nodup_cons] at hm
    by_cases h0 : k₀ = k
    · subst h0; simpa [erase] using get?_eq_none hm.1
    · simp only [erase, h0, if_false, get?_cons, ih hm.2]

theorem get?_erase {m : JSONMap} (hm : (keys m).Nodup) (k k' : String) :
    get? (erase m k) k' = if k' = k then none else get? m k' := by
  split_ifs with h
  · subst h; exact get?_erase_self hm k'
  · exact get?_erase_ne m h

end JSONMap

/-- Peeling a step of a computation in `Except`. -/
theorem bind_eq_ok {ε α β : Type} {x : Except ε α} {f : α → Except ε β} {b : β} :
    x >>= f = .ok b ↔ ∃ a, x = .ok a ∧ f a = .ok b := by
  cases x <;> simp [bind, Except.bind]

/-- How a call of the engine fails. -/
inductive Failure where
  /-- An error made by `fmt.Errorf` in this package, with its text. -/
  | error (msg : String)
  /-- An error returned by `LookupPatchMetadata`. -/
  | lookup (msg : String)
  /-- `mergepatch.ErrNoListOfLists`. -/
  | noListOfLists
  /-- `mergepatch.ErrBadPatchFormatForPrimitiveList`. -/
  | badPatchFormatForPrimitiveList
  /-- `mergepatch.NewErrPreconditionFailed(patch)`. -/
  | preconditionFailed (patch : JSONMap)
  /-- `mergepatch.NewErrConflict(patch, changed)`. -/
  | conflict (patch changed : JSONMap)
  /-- A run-time panic. -/
  | panic (msg : String)
  /-- The model's recursion bound ran out; the entry points give enough. -/
  | exhausted

namespace Value

/-- Go's `==` on two `interface{}` values: `false` when the dynamic types differ, a panic when
they are both maps or both slices. -/
def goEq : Value → Value → Except Failure Bool
  | .null, .null => .ok true
  | .bool a, .bool b => .ok (a == b)
  | .number a, .number b => .ok (a == b)
  | .string a, .string b => .ok (a == b)
  | .array _, .array _ =>
    .error (.panic "runtime error: comparing uncomparable type []interface \x7b\x7d")
  | .object _, .object _ =>
    .error (.panic "runtime error: comparing uncomparable type map[string]interface \x7b\x7d")
  | _, _ => .ok false

end Value

/-- The type descriptor's patch metadata. `lookupPatchMetadata t key` is
`LookupPatchMetadata(t, key)`: the field's type, its `patchStrategy` and its `patchMergeKey`
tags, or an error; pointer types are resolved by it. `elem t` is `t.Elem()` and `kindString t`
is `t.Kind().String()`. -/
structure Schema (τ : Type) where
  lookupPatchMetadata : τ → String → Except String (τ × String × String)
  elem : τ → τ
  kindString : τ → String

/-- A struct type every field of which carries the tags `patchStrategy` and `patchMergeKey` given,
and whose fields' types are of the same kind. -/
def uniformSchema (patchStrategy patchMergeKey : String) : Schema Unit :=
  ⟨fun _ _ => .ok ((), patchStrategy, patchMergeKey), fun _ => (), fun _ => "struct"⟩

def directiveMarker : String := "$patch"
def deleteDirective : String := "delete"
def replaceDirective : String := "replace"
def mergeDirective : String := "merge"
def deleteFromPrimitiveListDirectivePrefix : String := "$deleteFromPrimitiveList"

end ClientGo.Strategicpatch
