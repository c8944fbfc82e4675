import MatchingEngine.Invariant

/-!
# Queues under insertion and removal

What writing the links of an arena does to the queue of one level.

* `Queue.congr`: a queue depends on its own nodes only.
* **`Queue.push`**, **`Queue.remove`**: the level and the links `add_resting` and `remove_node` write.
* `linkTail_spec`, `unlinkPrevious_spec`, `unlinkNext_spec`: these links, as the source writes them.
-/

set_option autoImplicit false

namespace Dme

variable {nodes nodes' : Array OrderNode} {s : Side} {p : Price} {level : PriceLevel}
  {l l₁ l₂ : List UInt32} {n : UInt32}

theorem Queue.congr (h : Queue nodes s p level l) (hsize : nodes'.size = nodes.size)
    (hm : ∀ m ∈ l, vecAt nodes' m.toNat = vecAt nodes m.toNat) : Queue nodes' s p level l where
  head := h.head
  tail := h.tail
  count := h.count
  total := by
    rw [h.total]
    exact congrArg List.sum (List.map_congr_left fun m hl => by rw [hm m hl])
  linked := Linked.seg_congr (fun m hl => by rw [hm m hl]) (fun m hl => by rw [hm m hl]) h.linked
  nodup := h.nodup
  node m hl := by rw [hsize, hm m hl]; exact h.node m hl

theorem headD_eq_invalid (hinv : invalidNode ∉ l) : l.headD invalidNode = invalidNode ↔ l = [] := by
  cases l with
  | nil => simp
  | cons a l =>
    simp only [List.headD_cons, reduceCtorEq, iff_false]
    rintro rfl
    exact hinv (by simp)

theorem getLastD_eq_invalid (hinv : invalidNode ∉ l) :
    l.getLastD invalidNode = invalidNode ↔ l = [] := by
  rcases List.eq_nil_or_concat l with rfl | ⟨l', a, rfl⟩
  · simp
  · rw [List.concat_eq_append, List.getLastD_concat]
    simp only [List.append_eq_nil_iff, List.cons_ne_self, and_false, iff_false]
    rintro rfl
    exact hinv (by simp)

theorem Queue.tail_eq_invalid (h : Queue nodes s p level l) (hinv : invalidNode ∉ l) :
    level.tail = invalidNode ↔ l = [] := by
  rw [h.tail, getLastD_eq_invalid hinv]

theorem Queue.push {node : OrderNode} (h : Queue nodes s p level l) (hinv : invalidNode ∉ l)
    (hsize : nodes'.size = nodes.size) (hn : n ∉ l) (hlt : n.toNat < nodes.size)
    (hlen : l.length + 1 < 2 ^ 32) (hnode : vecAt nodes' n.toNat = node) (hs : node.side = s)
    (hp : node.price = p) (hprev : node.previous = level.tail) (hnext : node.next = invalidNode)
    (hm : ∀ m ∈ l, vecAt nodes' m.toNat =
      if m = level.tail then { vecAt nodes m.toNat with next := n } else vecAt nodes m.toNat) :
    Queue nodes' s p
      { head := if level.tail = invalidNode then n else level.head
        tail := n
        totalQuantity := level.totalQuantity + node.remaining
        count := level.count + 1 } (l ++ [n]) where
  head := by
    simp only [h.tail_eq_invalid hinv]
    split_ifs with hl
    · subst hl; rfl
    · rw [h.head]
      cases l with
      | nil => exact absurd rfl hl
      | cons a l => rfl
  tail := by simp
  count := by
    rw [UInt32.toNat_add, h.count, List.length_append]
    exact Nat.mod_eq_of_lt hlen
  total := by
    have : (l.map fun m => (vecAt nodes' m.toNat).remaining) =
        l.map fun m => (vecAt nodes m.toNat).remaining := by
      refine List.map_congr_left fun m hl => ?_
      rw [hm m hl]
      split_ifs <;> rfl
    rw [List.map_append, List.sum_append, this, ← h.total]
    simp [hnode]
  linked := by
    refine h.linked.push h.nodup (fun m hl => ?_) (fun m hl => ?_) ?_ ?_
    · rw [hm m hl, ← h.tail]
      split_ifs <;> rfl
    · rw [hm m hl]
      split_ifs <;> rfl
    · rw [hnode, hnext]
    · rw [hnode, hprev, h.tail]
  nodup := by
    rw [List.nodup_append]
    refine ⟨h.nodup, List.nodup_singleton n, fun a ha b hb hab => hn ?_⟩
    rw [List.mem_singleton] at hb
    rwa [← hb, ← hab]
  node m hmem := by
    rw [hsize]
    rcases List.mem_append.mp hmem with hl | hl
    · rw [hm m hl]
      split_ifs <;> exact h.node m hl
    · rw [List.mem_singleton] at hl
      subst hl
      rw [hnode]
      exact ⟨hlt, hs, hp⟩

theorem Queue.neighbours (h : Queue nodes s p level (l₁ ++ n :: l₂)) :
    (vecAt nodes n.toNat).previous = l₁.getLastD invalidNode ∧
      (vecAt nodes n.toNat).next = l₂.headD invalidNode := by
  have := h.linked
  rw [Linked.seg_append, Linked.Seg] at this
  exact ⟨this.2.1, this.2.2.1⟩

theorem Queue.remove (h : Queue nodes s p level (l₁ ++ n :: l₂))
    (hinv : invalidNode ∉ l₁ ++ n :: l₂) (hsize : nodes'.size = nodes.size)
    (hm : ∀ m ∈ l₁ ++ l₂, vecAt nodes' m.toNat =
      { vecAt nodes m.toNat with
        next := if m = (vecAt nodes n.toNat).previous then (vecAt nodes n.toNat).next
          else (vecAt nodes m.toNat).next
        previous := if m = (vecAt nodes n.toNat).next then (vecAt nodes n.toNat).previous
          else (vecAt nodes m.toNat).previous }) :
    Queue nodes' s p
      { head := if (vecAt nodes n.toNat).previous = invalidNode then (vecAt nodes n.toNat).next
          else level.head
        tail := if (vecAt nodes n.toNat).next = invalidNode then (vecAt nodes n.toNat).previous
          else level.tail
        totalQuantity := level.totalQuantity - (vecAt nodes n.toNat).remaining
        count := level.count - 1 } (l₁ ++ l₂) := by
  obtain ⟨hprev, hnext⟩ := h.neighbours
  have hinv₁ : invalidNode ∉ l₁ := fun hi => hinv (List.mem_append_left _ hi)
  have hinv₂ : invalidNode ∉ l₂ := fun hi => hinv (by simp [hi])
  have hmem : ∀ m ∈ l₁ ++ l₂, m ∈ l₁ ++ n :: l₂ := fun m hl => by
    rcases List.mem_append.mp hl with hl | hl <;> simp [hl]
  exact {
    head := by
      simp only [hprev, hnext, getLastD_eq_invalid hinv₁]
      split_ifs with hl
      · subst hl; rfl
      · rw [h.head]
        cases l₁ with
        | nil => exact absurd rfl hl
        | cons a l => rfl
    tail := by
      simp only [hprev, hnext, headD_eq_invalid hinv₂]
      split_ifs with hl
      · subst hl; simp
      · rw [h.tail]
        rcases List.eq_nil_or_concat l₂ with rfl | ⟨l', a, rfl⟩
        · exact absurd rfl hl
        · rw [List.concat_eq_append, ← List.cons_append, ← List.append_assoc, ← List.append_assoc,
            List.getLastD_concat, List.getLastD_concat]
    count := by
      have hc := h.count
      rw [List.length_append, List.length_cons] at hc
      have h1 : (1 : UInt32) ≤ level.count := by
        rw [UInt32.le_iff_toNat_le, hc]
        simp only [UInt32.toNat_one]
        omega
      rw [UInt32.toNat_sub_of_le _ _ h1, hc, List.length_append, UInt32.toNat_one]
      omega
    total := by
      have : ((l₁ ++ l₂).map fun m => (vecAt nodes' m.toNat).remaining) =
          (l₁ ++ l₂).map fun m => (vecAt nodes m.toNat).remaining :=
        List.map_congr_left fun m hl => by rw [hm m hl]
      rw [this, h.total]
      simp only [List.map_append, List.sum_append, List.map_cons, List.sum_cons]
      grind
    linked := by
      refine h.linked.remove h.nodup hinv (fun m hl => ?_) (fun m hl => ?_)
      · rw [hm m hl]
      · rw [hm m hl]
    nodup := h.nodup.sublist ((List.Sublist.refl l₁).append (List.sublist_cons_self n l₂))
    node := fun m hl => by
      rw [hsize, hm m hl]
      exact h.node m (hmem m hl) }

/-! ## The links the source writes -/

theorem vecAt_set_node {x : OrderNode} {k m : UInt32} (hk : k.toNat < nodes.size) :
    vecAt (nodes.setIfInBounds k.toNat x) m.toNat = if m = k then x else vecAt nodes m.toNat := by
  rw [vecAt_set nodes hk]
  by_cases hmk : m = k
  · rw [if_pos (by rw [hmk]), if_pos hmk]
  · rw [if_neg (fun he => hmk (UInt32.toNat_inj.mp he).symm), if_neg hmk]

theorem relink_spec (k : UInt32) (f : OrderNode → OrderNode) (hk : k ≠ invalidNode → k.toNat < nodes.size)
    (linked ended : PriceLevel) :
    ∃ nodes', (if k ≠ invalidNode then do
          let x ← vecGet nodes k.toNat
          let nodes ← vecSet nodes k.toNat (f x)
          .ok (nodes, linked)
        else .ok (nodes, ended) : Except Fault (Array OrderNode × PriceLevel)) =
          .ok (nodes', if k = invalidNode then ended else linked) ∧
      nodes'.size = nodes.size ∧ ∀ m : UInt32, vecAt nodes' m.toNat =
        if k ≠ invalidNode ∧ m = k then f (vecAt nodes m.toNat) else vecAt nodes m.toNat := by
  by_cases h : k = invalidNode
  · refine ⟨nodes, ?_, rfl, fun m => ?_⟩
    · rw [if_neg (not_not.mpr h), if_pos h]
    · rw [if_neg (fun hc => hc.1 h)]
  · refine ⟨nodes.setIfInBounds k.toNat (f (vecAt nodes k.toNat)), ?_, by simp, fun m => ?_⟩
    · rw [if_pos h, vecGet_eq (hk h), if_neg h]
      simp only [bind, Except.bind, vecSet_eq (hk h)]
    · rw [vecAt_set_node (hk h)]
      by_cases hm : m = k
      · rw [if_pos hm, if_pos ⟨h, hm⟩, hm]
      · rw [if_neg hm, if_neg (fun hc => hm hc.2)]

theorem linkTail_spec (nodes : Array OrderNode) (level : PriceLevel) (n : UInt32)
    (ht : level.tail ≠ invalidNode → level.tail.toNat < nodes.size) :
    ∃ nodes', OrderBook.linkTail nodes level n = .ok (nodes',
        { level with head := if level.tail = invalidNode then n else level.head }) ∧
      nodes'.size = nodes.size ∧ ∀ m : UInt32, vecAt nodes' m.toNat =
        if level.tail ≠ invalidNode ∧ m = level.tail then { vecAt nodes m.toNat with next := n }
        else vecAt nodes m.toNat := by
  obtain ⟨nodes', hok, hspec⟩ := relink_spec level.tail (fun x => { x with next := n }) ht level
    { level with head := n }
  refine ⟨nodes', ?_, hspec⟩
  rw [OrderBook.linkTail, hok]
  split_ifs <;> rfl

theorem unlinkPrevious_spec (nodes : Array OrderNode) (level : PriceLevel) (node : OrderNode)
    (ht : node.previous ≠ invalidNode → node.previous.toNat < nodes.size) :
    ∃ nodes', OrderBook.unlinkPrevious nodes level node = .ok (nodes',
        { level with head := if node.previous = invalidNode then node.next else level.head }) ∧
      nodes'.size = nodes.size ∧ ∀ m : UInt32, vecAt nodes' m.toNat =
        if node.previous ≠ invalidNode ∧ m = node.previous then
          { vecAt nodes m.toNat with next := node.next }
        else vecAt nodes m.toNat := by
  obtain ⟨nodes', hok, hspec⟩ := relink_spec node.previous (fun x => { x with next := node.next }) ht
    level { level with head := node.next }
  refine ⟨nodes', ?_, hspec⟩
  rw [OrderBook.unlinkPrevious, hok]
  split_ifs <;> rfl

theorem unlinkNext_spec (nodes : Array OrderNode) (level : PriceLevel) (node : OrderNode)
    (ht : node.next ≠ invalidNode → node.next.toNat < nodes.size) :
    ∃ nodes', OrderBook.unlinkNext nodes level node = .ok (nodes',
        { level with tail := if node.next = invalidNode then node.previous else level.tail }) ∧
      nodes'.size = nodes.size ∧ ∀ m : UInt32, vecAt nodes' m.toNat =
        if node.next ≠ invalidNode ∧ m = node.next then
          { vecAt nodes m.toNat with previous := node.previous }
        else vecAt nodes m.toNat := by
  obtain ⟨nodes', hok, hspec⟩ := relink_spec node.next (fun x => { x with previous := node.previous })
    ht level { level with tail := node.previous }
  refine ⟨nodes', ?_, hspec⟩
  rw [OrderBook.unlinkNext, hok]
  split_ifs <;> rfl

end Dme
