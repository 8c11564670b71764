import ClientGo.Workqueue.Lifecycle

/-!
# The work left after shutdown

Once `shuttingDown` is set no call clears it, and `Add` returns at its first test, so no item
enters `dirty` again. `Get` takes its item from a bucket, which holds only dirty items (`Inv`), and
erases it from `dirty`; `Done` re-enqueues only items that are still dirty. So the items `Get`
returns after shutdown are distinct elements of the dirty set at shutdown, and `Get` never waits:
it returns an item or `(nil, true)` (`shutdown_bounds_remaining_work`).

`ShutInv s q returned` is what holds in every state `q` after the state `s` at shutdown, with the
items returned since: its step lemma follows `exec_spec`, and its run lemma gives the bound.
-/

namespace ClientGo.Workqueue

variable {α : Type} [DecidableEq α]

namespace PriorityType

/-- While shutting down, `Add` returns at once and changes nothing. -/
theorem add_of_shuttingDown {q : PriorityType α} (h : q.shuttingDown = true) (x : α) (p : Int) :
    q.add x p = (q, .none) := by
  simp [add, h]

/-- While shutting down, a pass of `Get` never waits. -/
theorem get_ne_wait_of_shuttingDown {q : PriorityType α} (h : q.shuttingDown = true) :
    q.get ≠ .wait := fun hw => by
  rw [(get_eq_wait hw).1] at h
  cases h

/-- An item `Get` takes is dirty. -/
theorem Inv.dirty_of_get {q q' : PriorityType α} {x : α} (h : Inv q) (hg : q.get = .item x q') :
    x ∈ q.dirty := by
  obtain ⟨p, rest, -, -, hp, -, -⟩ := get_eq_item hg
  exact (h.queued_pending p x (hp ▸ List.mem_cons_self _ _)).1

/-- With nothing dirty, nothing is queued, and a shutting-down `Get` returns `(nil, true)`. -/
theorem Inv.get_of_dirty_eq_empty {q : PriorityType α} (h : Inv q) (hs : q.shuttingDown = true)
    (hd : q.dirty = ∅) : q.get = .shutdown := by
  have hlen : q.lenNoLock = 0 := lenNoLock_eq_zero_iff.mpr fun p _ _ =>
    List.eq_nil_iff_forall_not_mem.mpr fun x hx => by
      simpa [hd] using (h.queued_pending p x hx).1
  rw [get_of_lenNoLock_eq_zero hlen, if_pos hs]

end PriorityType

open PriorityType

/-- What holds in every state `q` after the state `s` at shutdown, `returned` being the items
`Get` returned since. -/
structure ShutInv (s q : PriorityType α) (returned : List α) : Prop where
  inv : Inv q
  shuttingDown : q.shuttingDown = true
  /-- No item became dirty. -/
  dirty_subset : q.dirty ⊆ s.dirty
  /-- No item was returned twice. -/
  returned_nodup : returned.Nodup
  /-- Every returned item was dirty at shutdown. -/
  returned_mem : ∀ x ∈ returned, x ∈ s.dirty
  /-- A returned item is dirty no more. -/
  returned_not_dirty : ∀ x ∈ returned, x ∉ q.dirty

theorem ShutInv.init {maxPriority : Int} {ops : List (Op α)} {s : PriorityType α}
    {outs : List (Option α)} (h : (newPriorityQueue maxPriority).run ops = some (s, outs))
    (hs : s.shuttingDown = true) : ShutInv s s [] :=
  ⟨run_inv maxPriority ops s outs h, hs, subset_rfl, List.nodup_nil, by simp, by simp⟩

omit [DecidableEq α] in
/-- A call that keeps `dirty` and `shuttingDown` keeps the invariant. -/
theorem ShutInv.of_dirty_eq {s q q' : PriorityType α} {returned : List α}
    (h : ShutInv s q returned) (hinv : Inv q') (hs : q'.shuttingDown = true)
    (hd : q'.dirty = q.dirty) : ShutInv s q' returned :=
  ⟨hinv, hs, hd ▸ h.dirty_subset, h.returned_nodup, h.returned_mem, hd ▸ h.returned_not_dirty⟩

/-- **Step lemma.** -/
theorem ShutInv.exec {s q q' : PriorityType α} {returned : List α} {op : Op α}
    {out : Option α} (h : ShutInv s q returned) (he : q.exec op = some (q', out)) :
    ShutInv s q' (returned ++ out.toList) := by
  have hinv := h.inv.exec he
  cases exec_spec he with
  | add x p =>
    rw [add_of_shuttingDown h.shuttingDown]
    simpa using h
  | @getItem x q' hg =>
    have hx := h.inv.dirty_of_get hg
    obtain ⟨p, rest, -, -, -, -, hq'⟩ := get_eq_item hg
    have hd : q'.dirty = q.dirty.erase x := by rw [hq']
    show ShutInv s q' (returned ++ [x])
    refine ⟨hinv, by rw [hq']; exact h.shuttingDown,
      hd ▸ fun y hy => h.dirty_subset (Finset.mem_of_mem_erase hy),
      List.nodup_append.mpr ⟨h.returned_nodup, List.nodup_singleton x,
        List.disjoint_singleton.mpr fun hm => h.returned_not_dirty x hm hx⟩,
      fun y hy => ?_, fun y hy => ?_⟩ <;> rcases List.mem_append.mp hy with hy | hy
    · exact h.returned_mem y hy
    · exact List.mem_singleton.mp hy ▸ h.dirty_subset hx
    · exact hd ▸ fun hyd => h.returned_not_dirty y hy (Finset.mem_of_mem_erase hyd)
    · rw [hd, List.mem_singleton.mp hy]; exact Finset.not_mem_erase x _
  | getShutdown => simpa using h
  | @done x p hx =>
    simpa using h.of_dirty_eq hinv ((done_shuttingDown q x p).trans h.shuttingDown)
      (done_dirty q x p)
  | shutDown | shutDownWithDrain => simpa using h.of_dirty_eq hinv rfl rfl

/-- **Run lemma.** -/
theorem ShutInv.run {s : PriorityType α} :
    ∀ (ops : List (Op α)) {q q' : PriorityType α} {returned : List α} {outs : List (Option α)},
      ShutInv s q returned → q.run ops = some (q', outs) →
        ShutInv s q' (returned ++ outs.filterMap id)
  | [], _, _, _, _, h, hr => by
    simp only [PriorityType.run, Option.some.injEq, Prod.mk.injEq] at hr
    obtain ⟨rfl, rfl⟩ := hr
    simpa using h
  | op :: ops, _, _, _, _, h, hr => by
    obtain ⟨q1, out, outs', h1, h2, rfl⟩ := run_cons hr
    have := ShutInv.run ops (h.exec h1) h2
    cases out <;> simpa using this

/-- **Shutdown bounds the remaining work.** Take any run from a new queue to a state `s` that is
shutting down, and any run from `s` on, ending in `q` with the outputs `outs`. Then `q` is still
shutting down and an `Add` there changes nothing; no item became dirty; the items `Get` returned
after `s` are distinct and were dirty in `s`, so there are at most as many as `s` had dirty items,
and none was first added after shutdown; `Get` does not wait in `q`, and once every item dirty in
`s` has been returned it returns `(nil, true)`. -/
theorem shutdown_bounds_remaining_work (maxPriority : Int) (ops₁ ops₂ : List (Op α))
    (s q : PriorityType α) (outs₁ outs₂ : List (Option α))
    (h₁ : (newPriorityQueue maxPriority).run ops₁ = some (s, outs₁))
    (hs : s.shuttingDown = true) (h₂ : s.run ops₂ = some (q, outs₂)) :
    q.shuttingDown = true ∧ (∀ x p, q.add x p = (q, .none)) ∧ q.dirty ⊆ s.dirty ∧
      (outs₂.filterMap id).Nodup ∧ (∀ x ∈ outs₂.filterMap id, x ∈ s.dirty) ∧
      (outs₂.filterMap id).length ≤ s.dirty.card ∧ q.get ≠ .wait ∧
      ((outs₂.filterMap id).length = s.dirty.card → q.get = .shutdown) := by
  have h := (ShutInv.init h₁ hs).run ops₂ h₂
  rw [List.nil_append] at h
  have hsub : (outs₂.filterMap id).toFinset ⊆ s.dirty := fun x hx =>
    h.returned_mem x (List.mem_toFinset.mp hx)
  have hcard := List.toFinset_card_of_nodup h.returned_nodup
  refine ⟨h.shuttingDown, add_of_shuttingDown h.shuttingDown, h.dirty_subset, h.returned_nodup,
    h.returned_mem, hcard ▸ Finset.card_le_card hsub, get_ne_wait_of_shuttingDown h.shuttingDown,
    fun hall => h.inv.get_of_dirty_eq_empty h.shuttingDown ?_⟩
  -- every item dirty at shutdown has been returned, and a returned item is not dirty
  have heq := Finset.eq_of_subset_of_card_le hsub (by omega)
  exact Finset.eq_empty_of_forall_not_mem fun x hx => h.returned_not_dirty x
    (List.mem_toFinset.mp (heq ▸ h.dirty_subset hx)) hx

/-- Items `1` and `2` are dirty at shutdown, `1` while it is being processed: the `Add` of `3` is
dropped, `Get` returns `2`, `Done(1)` re-enqueues `1`, `Get` returns it, and the next `Get`
returns `(nil, true)`. -/
theorem shutdown_bounds_remaining_work_redone_item :
    ∃ s q outs₁ outs₂,
      (newPriorityQueue 0 : PriorityType Nat).run [.add 1 0, .add 2 0, .get, .add 1 0, .shutDown] =
        some (s, outs₁) ∧ s.shuttingDown = true ∧
      s.run [.add 3 0, .get, .done 1 0, .get, .get] = some (q, outs₂) ∧
      outs₂ = [none, some 2, none, some 1, none] ∧
      (q.shuttingDown = true ∧ (∀ x p, q.add x p = (q, .none)) ∧ q.dirty ⊆ s.dirty ∧
        (outs₂.filterMap id).Nodup ∧ (∀ x ∈ outs₂.filterMap id, x ∈ s.dirty) ∧
        (outs₂.filterMap id).length ≤ s.dirty.card ∧ q.get ≠ .wait ∧
        ((outs₂.filterMap id).length = s.dirty.card → q.get = .shutdown)) := by
  obtain ⟨s, outs₁, h₁, hs, q, outs₂, h₂, ho⟩ : ∃ s outs₁,
      (newPriorityQueue 0 : PriorityType Nat).run [.add 1 0, .add 2 0, .get, .add 1 0, .shutDown] =
        some (s, outs₁) ∧ s.shuttingDown = true ∧ ∃ q outs₂,
      s.run [.add 3 0, .get, .done 1 0, .get, .get] = some (q, outs₂) ∧
      outs₂ = [none, some 2, none, some 1, none] := ⟨_, _, rfl, rfl, _, _, rfl, rfl⟩
  exact ⟨s, q, outs₁, outs₂, h₁, hs, h₂, ho,
    shutdown_bounds_remaining_work 0 _ _ s q outs₁ outs₂ h₁ hs h₂⟩

end ClientGo.Workqueue
