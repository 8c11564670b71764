import ClientGo.Workqueue.Goroutines

/-!
# No item is processed by two goroutines at once

In every reachable state of the goroutine system an item is in `processing` exactly when a
goroutine holds it, between the `Get` that returned it and its `Done`, and no two goroutines
hold the same item (`exclusive_processing`). The queue keeps its representation invariant under
every interleaving (`Reachable.inv`): the contract that `Done` is only called for an item in
`processing` is met, because only the goroutine holding an item calls `Done` on it.

`HoldInv` counts the holders of each item: one while it is being processed, none otherwise. A
`Get` takes a queued item, which `Inv` says nobody processes; a `Done` releases the one holder;
no other section touches `processing` or a holder (`Phase.next_processing`), and a wake-up only
moves waiters (`countP_applyWake`).
-/

namespace ClientGo.Workqueue

variable {α : Type} [DecidableEq α]

namespace Phase

/-- The goroutine holds `x`: `Get` returned it and its `Done` has not run. -/
def holds (x : α) : Phase α → Bool
  | .holding y => y = x
  | _ => false

@[simp] theorem holds_wake (x : α) (t : Phase α) : t.wake.holds x = t.holds x := by
  cases t <;> rfl

end Phase

omit [DecidableEq α] in
/-- A wake-up only moves waiters, so it keeps the number of goroutines of any kind a wake-up
does not change. -/
theorem countP_applyWake {P : Phase α → Bool} (hP : ∀ t, P t.wake = P t)
    {ts ts' : List (Phase α)} {w : Nat} {wake : Wake} (h : applyWake ts w wake = some ts') :
    ts'.countP P = ts.countP P := by
  cases wake with
  | none => cases h; rfl
  | signal =>
    simp only [applyWake, signal] at h
    split_ifs at h
    · split at h
      · rename_i t ht
        split_ifs at h
        cases h
        obtain ⟨hlt, rfl⟩ := List.getElem?_eq_some_iff.mp ht
        have := List.boole_getElem_le_countP P ts w hlt
        rw [List.countP_set _ _ _ _ hlt, hP]
        omega
      · cases h
    · cases h; rfl
  | broadcast =>
    cases h
    simp only [broadcast, List.countP_map]
    exact List.countP_congr fun t _ => by simp [hP]

namespace PriorityType

omit [DecidableEq α] in
/-- `Inv` reads only the buckets, `dirty` and `processing`. -/
theorem Inv.congr {q q' : PriorityType α} (h : Inv q) (hb : q'.priorityQueue = q.priorityQueue)
    (hd : q'.dirty = q.dirty) (hp : q'.processing = q.processing) : Inv q' := by
  obtain ⟨h1, h2, h3, h4⟩ := h
  exact ⟨by rw [hb, hd, hp]; exact h1, by rw [hb]; exact h2, by rw [hb]; exact h3,
    by rw [hb, hd, hp]; exact h4⟩

end PriorityType

/-- What a goroutine's section does to `processing` and to `Inv`: a `Get` adds the item it
takes, which nobody was processing; a `Done` removes the item the goroutine held; every other
section leaves `processing` alone, and holds nothing before or after. -/
theorem Phase.next_processing {q q' : PriorityType α} {t t' : Phase α} {p : Int} {wake : Wake}
    (h : PriorityType.Inv q) (hhold : ∀ x, t.holds x → x ∈ q.processing)
    (hn : t.next q p = some (t', q', wake)) :
    PriorityType.Inv q' ∧ ∀ y,
      (if y ∈ q'.processing then 1 else 0) + (if t.holds y then 1 else 0) =
        (if y ∈ q.processing then 1 else 0) + (if t'.holds y then 1 else 0) := by
  cases t with
  | getCall | getReady =>
    simp only [Phase.next] at hn
    split at hn <;> simp only [Option.some.injEq, Prod.mk.injEq] at hn <;>
      obtain ⟨rfl, rfl, rfl⟩ := hn
    · exact ⟨h, fun y => by simp [Phase.holds]⟩
    · exact ⟨h, fun y => by simp [Phase.holds]⟩
    · rename_i x q1 hg
      obtain ⟨c, rest, -, -, hc, -, -⟩ := PriorityType.get_eq_item hg
      have hx : x ∉ q.processing := (h.queued_pending c x (hc ▸ List.mem_cons_self _ _)).2
      refine ⟨h.get hg, fun y => ?_⟩
      rw [PriorityType.processing_of_get_item hg]
      by_cases hy : y = x
      · subst hy; simp [Phase.holds, hx]
      · simp [Phase.holds, hy, Ne.symm hy]
  | holding x =>
    simp only [Phase.next, Option.some.injEq, Prod.mk.injEq] at hn
    obtain ⟨rfl, rfl, rfl⟩ := hn
    have hx := hhold x (by simp [Phase.holds])
    refine ⟨h.done hx p, fun y => ?_⟩
    rw [PriorityType.done_processing]
    by_cases hy : y = x
    · subst hy; simp [Phase.holds, hx]
    · simp [Phase.holds, hy, Ne.symm hy]
  | getWait | drainWait | finished => simp [Phase.next] at hn
  | drainSetDrain | drainShutdown | drainIsProcessing | drainShouldDrain | drainWaitForProcessing
  | drainReady | shutDownSetDrain | shutDownShutdown =>
    simp only [Phase.next, Option.some.injEq, Prod.mk.injEq] at hn
    obtain ⟨rfl, rfl, rfl⟩ := hn
    refine ⟨h.congr rfl rfl rfl, fun y => ?_⟩
    (try rw [apply_ite (Phase.holds y)])
    simp [Phase.holds, PriorityType.setDrain, PriorityType.shutdown]

/-- Each item is held by one goroutine while it is being processed and by none otherwise, and
the queue keeps its representation invariant. -/
structure HoldInv (s : Sys α) : Prop where
  inv : PriorityType.Inv s.queue
  holders : ∀ x, s.threads.countP (Phase.holds x) = if x ∈ s.queue.processing then 1 else 0

/-- **Step lemma.** -/
theorem HoldInv.next {s s' : Sys α} {a : Action α} (h : HoldInv s)
    (he : s.next a = some s') : HoldInv s' := by
  obtain ⟨q, ts⟩ := s
  cases a with
  | callGet | callShutDown | callShutDownWithDrain =>
    simp only [Sys.next, Option.some.injEq] at he
    subst he
    exact ⟨h.inv, fun x => by simpa [List.countP_append, Phase.holds] using h.holders x⟩
  | add x p w =>
    simp only [Sys.next, Option.map_eq_some'] at he
    obtain ⟨ts', hw, rfl⟩ := he
    refine ⟨h.inv.add x p, fun y => ?_⟩
    rw [countP_applyWake (Phase.holds_wake y) hw, PriorityType.add_processing]
    exact h.holders y
  | step i p w =>
    obtain ⟨t, t', wake, hi, hn, hw⟩ := next_step he
    obtain ⟨q', ts'⟩ := s'
    obtain ⟨hlt, rfl⟩ := List.getElem?_eq_some_iff.mp hi
    have hhold : ∀ x, ts[i].holds x → x ∈ q.processing := fun x hx => by
      have hc := h.holders x
      have hpos : 0 < ts.countP (Phase.holds x) :=
        List.countP_pos_iff.mpr ⟨_, List.getElem_mem hlt, hx⟩
      by_contra hp
      simp only [hp, if_false] at hc
      omega
    obtain ⟨hinv, hbal⟩ := Phase.next_processing h.inv hhold hn
    refine ⟨hinv, fun y => ?_⟩
    rw [countP_applyWake (Phase.holds_wake y) hw, List.countP_set _ _ _ _ hlt]
    have hc := h.holders y
    have hb := hbal y
    have hle := List.boole_getElem_le_countP (Phase.holds y) ts i hlt
    simp only at hb hc ⊢
    omega

/-- **Run lemma.** -/
theorem Reachable.holdInv {maxPriority : Int} {s : Sys α} (h : Reachable maxPriority s) :
    HoldInv s := by
  induction h with
  | init =>
    exact ⟨PriorityType.inv_newPriorityQueue maxPriority, fun x => by simp [newPriorityQueue]⟩
  | step a _ he ih => exact ih.next he

/-- The queue's representation invariant holds under every interleaving of the goroutines. -/
theorem Reachable.inv {maxPriority : Int} {s : Sys α} (h : Reachable maxPriority s) :
    PriorityType.Inv s.queue :=
  h.holdInv.inv

end ClientGo.Workqueue
