import BranchCutPrice.Tree.LeafQueue

/-!
What lies in a heap. All operations are made of exchanges, so apart from the entry put in or
taken out the entries stay the same, each as often as it was there. The queue of leaves
inherits that from its heap.
-/

namespace BranchCutPrice

namespace Heap

variable {α : Type} (before : α → α → Bool)

theorem exchange_perm (items : List α) (i j : Nat) : (exchange items i j).Perm items := by
  unfold exchange
  split
  · rename_i a b here there
    obtain ⟨inside, rfl⟩ := List.getElem?_eq_some_iff.1 here
    obtain ⟨inside', rfl⟩ := List.getElem?_eq_some_iff.1 there
    exact List.set_set_perm inside inside'
  · exact .refl _

theorem siftUp_perm (steps : Nat) (items : List α) (i : Nat) :
    (siftUp before steps items i).Perm items := by
  induction steps generalizing items i with
  | zero => exact .refl _
  | succ steps ih =>
    unfold siftUp
    split
    · exact (ih _ _).trans (exchange_perm _ _ _)
    · exact .refl _

theorem siftDown_perm (steps : Nat) (items : List α) (i : Nat) :
    (siftDown before steps items i).Perm items := by
  induction steps generalizing items i with
  | zero => exact .refl _
  | succ steps ih =>
    unfold siftDown
    dsimp only
    split
    · exact (ih _ _).trans (exchange_perm _ _ _)
    · exact .refl _

theorem sinkToBottom_perm (steps : Nat) (items : List α) (i : Nat) :
    (sinkToBottom before steps items i).1.Perm items := by
  induction steps generalizing items i with
  | zero => exact .refl _
  | succ steps ih =>
    unfold sinkToBottom
    dsimp only
    split
    · exact (ih _ _).trans (exchange_perm _ _ _)
    · exact .refl _

theorem insert_perm (items : List α) (a : α) : (insert before items a).Perm (a :: items) :=
  (siftUp_perm before _ _ _).trans (List.perm_append_singleton a items)

/-- The entry taken out is the one that stood at the position. -/
theorem removeAt_perm (items : List α) {i : Nat} {a : α} (found : items[i]? = some a) :
    (a :: removeAt before items i).Perm items := by
  obtain ⟨inside, rfl⟩ := List.getElem?_eq_some_iff.1 found
  have last : items[items.length - 1]? = some items[items.length - 1] :=
    List.getElem?_eq_getElem (by omega)
  -- the exchange brings the entry to the end, where it is dropped
  have parted : (items[i] :: (exchange items i (items.length - 1)).dropLast).Perm items := by
    have swapped : exchange items i (items.length - 1) =
        (items.set i items[items.length - 1]).set (items.length - 1) items[i] := by
      unfold exchange
      rw [found, last]
    have nonempty : exchange items i (items.length - 1) ≠ [] := by
      rw [swapped]
      apply List.ne_nil_of_length_pos
      rw [List.length_set, List.length_set]
      omega
    have ending : (exchange items i (items.length - 1)).getLast nonempty = items[i] := by
      rw [List.getLast_eq_getElem]
      simp only [swapped, List.length_set, List.getElem_set_self]
    have whole := List.dropLast_concat_getLast nonempty
    rw [ending] at whole
    have moved := List.perm_append_singleton items[i]
      (exchange items i (items.length - 1)).dropLast
    rw [whole] at moved
    exact moved.symm.trans (exchange_perm items i (items.length - 1))
  unfold removeAt
  dsimp only
  generalize (exchange items i (items.length - 1)).dropLast = rest at parted ⊢
  split
  · have sunk := sinkToBottom_perm before rest.length rest i
    exact (((siftUp_perm before _ _ _).trans sunk).cons _).trans parted
  · exact parted

theorem rebuild_perm (items : List α) : (rebuild before items).Perm items := by
  unfold rebuild
  induction List.range (items.length / 2) with
  | nil => exact .refl _
  | cons i rest ih => exact (siftDown_perm before _ _ _).trans ih

theorem restore_perm (items : List α) (sound : Nat) : (restore before items sound).Perm items := by
  unfold restore
  dsimp only
  generalize (if items.length ≤ 2048 then sound.log2 else 11) = depth
  split
  · exact .refl _
  · split
    · exact rebuild_perm before items
    · generalize List.range' sound (items.length - sound) = positions
      have sifted (start : List α) :
          (positions.foldl (fun sifted i => siftUp before i sifted i) start).Perm start := by
        induction positions generalizing start with
        | nil => exact .refl _
        | cons i rest ih => exact (ih _).trans (siftUp_perm before _ _ _)
      exact sifted items

theorem retain_perm (keep : α → Bool) (items : List α) :
    (retain before keep items).Perm (items.filter keep) :=
  restore_perm before _ _

end Heap

/-! ### The queue -/

theorem QueuedLeaf.best?_mem {leaves : List QueuedLeaf} {best : QueuedLeaf}
    (found : best? leaves = some best) : best ∈ leaves := by
  induction leaves generalizing best with
  | nil => cases found
  | cons leaf rest ih =>
    unfold best? at found
    cases later : best? rest with
    | none =>
      rw [later] at found
      cases found
      exact List.mem_cons_self
    | some other =>
      rw [later] at found
      dsimp only at found
      split at found
      · cases found
        exact List.mem_cons_of_mem _ (ih later)
      · cases found
        exact List.mem_cons_self

namespace LeafQueue

variable (queue : LeafQueue)

theorem push_perm (node : NodeId) (bound : Float) (depth seq : Nat) :
    (queue.push node bound depth seq).leaves.Perm
      (⟨node, bound, seq, queue.priority bound depth⟩ :: queue.leaves) :=
  Heap.insert_perm _ _ _

/-- The best entry is popped, and everything else stays. -/
theorem pop?_best {id : NodeId} {queue' : LeafQueue} (popped : queue.pop? = some (id, queue')) :
    ∃ best, QueuedLeaf.best? queue.leaves = some best ∧ best.node = id ∧
      (best :: queue'.leaves).Perm queue.leaves ∧
      queue' = { queue with leaves := queue'.leaves, taken := queue.taken + 1 } := by
  unfold pop? at popped
  cases found : QueuedLeaf.best? queue.leaves with
  | none => simp [found] at popped
  | some best =>
    rw [found] at popped
    cases popped
    have inside := List.idxOf_lt_length_of_mem (QueuedLeaf.best?_mem found)
    have there : queue.leaves[queue.leaves.idxOf best]? = some best :=
      List.getElem?_eq_some_iff.2 ⟨inside, List.getElem_idxOf inside⟩
    exact ⟨best, rfl, rfl, Heap.removeAt_perm _ _ there, rfl⟩

/-- What is popped was queued, and everything else stays. -/
theorem pop?_perm {id : NodeId} {queue' : LeafQueue} (popped : queue.pop? = some (id, queue')) :
    ∃ leaf, leaf.node = id ∧ (leaf :: queue'.leaves).Perm queue.leaves := by
  obtain ⟨best, _, node, parted, _⟩ := queue.pop?_best popped
  exact ⟨best, node, parted⟩

theorem erase_perm (node : NodeId) :
    (queue.erase node).leaves.Perm (queue.leaves.filter (·.node != node)) :=
  Heap.retain_perm _ _ _

theorem drain_perm (cutoff : Float) :
    (queue.drain cutoff).2.leaves.Perm (queue.leaves.filter (!·.reaches cutoff)) :=
  Heap.rebuild_perm _ _

theorem contains_iff {node : NodeId} :
    queue.contains node = true ↔ ∃ leaf ∈ queue.leaves, leaf.node = node := by
  unfold contains
  rw [List.any_eq_true]
  simp only [beq_iff_eq]

end LeafQueue

end BranchCutPrice
