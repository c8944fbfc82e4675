import MatchingEngine.Restore

/-!
# The events of a command

* `Sentence`: the forms the events of one command can take.
* `Market.execute_outcome`: an order trades, and at most one event says what became of the rest.
* `Market.execute_fillable`: an order that the levels say can be filled only trades.
* **`event_grammar`**.
-/

set_option autoImplicit false

namespace Dme

/-- The quantities of some events, added up. -/
def volume (evs : List Event) : ℕ := (evs.map fun e => e.quantity.toNat).sum

/-- Trades, and then at most one event of type `last` for the side of the order; their quantities add
up to that of the command. -/
def Outcome (c : Command) (last : EventType) (side : Side) (evs : List Event) : Prop :=
  ∃ trades rest, evs = trades ++ rest ∧ (∀ e ∈ trades, e.type = .trade) ∧
    (rest = [] ∨ ∃ e, rest = [e] ∧ e.type = last ∧ e.aggressorSide = side) ∧
    volume evs = c.quantity.toNat

/-- **The forms of the events of a command**, given the orders that rest when it comes. -/
inductive Sentence (orders : List RestingOrder) (c : Command) : List Event → Prop
  | rejected {e : Event} (he : e.type = .rejected) : Sentence orders c [e]
  | limit {e : Event} {evs : List Event} (hc : c.type = .new) (ht : c.orderType = .limit)
      (he : e.type = .accepted) (h : Outcome c .rested c.side evs) : Sentence orders c (e :: evs)
  | immediate {e : Event} {evs : List Event} (hc : c.type = .new)
      (ht : c.orderType = .market ∨ c.orderType = .immediateOrCancel)
      (he : e.type = .accepted) (h : Outcome c .cancelled c.side evs) : Sentence orders c (e :: evs)
  | fillOrKill {e : Event} {trades : List Event} (hc : c.type = .new)
      (ht : c.orderType = .fillOrKill) (he : e.type = .accepted) (hne : trades ≠ [])
      (h : ∀ e ∈ trades, e.type = .trade) (hsum : volume trades = c.quantity.toNat) :
    Sentence orders c (e :: trades)
  | cancel {e : Event} {o : RestingOrder} (hc : c.type = .cancel) (ho : o ∈ orders)
      (hid : o.orderId = c.orderId) (he : e.type = .cancelled) (hp : e.price = o.price)
      (hq : e.quantity = o.quantity) : Sentence orders c [e]
  | replace {e : Event} {evs : List Event} {o : RestingOrder} (hc : c.type = .replace)
      (ho : o ∈ orders) (hid : o.orderId = c.orderId) (he : e.type = .replaced)
      (h : Outcome c .rested o.side evs) : Sentence orders c (e :: evs)

theorem volume_append (evs evs' : List Event) : volume (evs ++ evs') = volume evs + volume evs' := by
  rw [volume, List.map_append, List.sum_append]
  rfl

namespace Market

variable {m : Market} {c : Command} {d : Depth} {evs : List Event}

theorem volume_tradesOf (c : Command) (fills : List Fill) :
    volume (tradesOf c fills) = (fills.map fun f => f.quantity.toNat).sum := by
  rw [volume, tradesOf, List.map_map]
  rfl

theorem type_tradesOf {fills : List Fill} {e : Event} (he : e ∈ tradesOf c fills) :
    e.type = .trade := by
  obtain ⟨f, -, rfl⟩ := List.mem_map.mp he
  rfl

/-- **An order trades, and one event says what became of the rest**, if there is any. -/
theorem execute_outcome (m : Market) (c : Command) :
    Outcome c (if c.orderType = .limit then .rested else .cancelled) c.side (m.execute c).2 := by
  have hsum := @sweep_conserves c.side (m.limit c) c.quantity (m.depth c.side.opposite)
  rw [← volume_tradesOf c] at hsum
  refine ⟨_, _, execute_events m c, fun _ => type_tradesOf, ?_, ?_⟩
  · by_cases h0 : (sweep c.side (m.limit c) c.quantity (m.depth c.side.opposite)).remaining = 0
    · rw [leftover, if_pos h0]
      exact Or.inl rfl
    · rw [leftover, if_neg h0]
      exact Or.inr ⟨_, rfl, rfl, rfl⟩
  · rw [execute_events, volume_append, ← hsum, leftover]
    split_ifs with h0
    · rw [h0]
      rfl
    all_goals simp [volume, eventOf]

/-- **An order the levels say can be filled only trades**, even where a level's word has wrapped. -/
theorem execute_fillable (hs : ∀ s, BestFirst s (m.depth s)) (hk : m.canFill c) :
    (∀ e ∈ (m.execute c).2, e.type = .trade) ∧ volume (m.execute c).2 = c.quantity.toNat := by
  have hsum := @sweep_conserves c.side (m.limit c) c.quantity (m.depth c.side.opposite)
  have h0 := sweep_fills (hs c.side.opposite) hk
  rw [← volume_tradesOf c, h0] at hsum
  rw [execute_events, leftover, if_pos h0, List.append_nil]
  exact ⟨fun _ => type_tradesOf, hsum⟩

theorem perform_sentence {orders : List RestingOrder} (hs : ∀ s, BestFirst s (m.depth s))
    (hfind : ∀ o, m.find c.orderId = some o → o ∈ orders ∧ o.orderId = c.orderId)
    (h : m.perform c = .ok (d, evs)) : Sentence orders c evs := by
  cases performed h with
  | new hc hq hp hf hk hr =>
    have hout := execute_outcome m c
    cases ht : c.orderType with
    | limit => exact .limit hc ht rfl (by simpa [ht] using hout)
    | market => exact .immediate hc (Or.inl ht) rfl (by simpa [ht] using hout)
    | immediateOrCancel => exact .immediate hc (Or.inr ht) rfl (by simpa [ht] using hout)
    | fillOrKill =>
      obtain ⟨htrades, hsum⟩ := execute_fillable hs (hk ht)
      refine .fillOrKill hc ht rfl (fun hnil => hq ?_) htrades hsum
      rw [hnil] at hsum
      exact UInt64.toNat_inj.mp hsum.symm
  | @cancel hc o hf =>
    obtain ⟨ho, hid⟩ := hfind o hf
    exact .cancel hc ho hid rfl rfl rfl
  | @replace hc o hf hq hp =>
    obtain ⟨ho, hid⟩ := hfind o hf
    exact .replace hc ho hid rfl (execute_outcome _ (replacement c o))

end Market

/-- **Event grammar.** From any reachable book, whatever its quantities, every command is processed,
and the events it appends have one of the forms of `Sentence`; each of them carries the command's
sequence and order id. -/
theorem event_grammar {b : OrderBook} (h : Reachable b) (c : Command) (events : List Event) :
    ∃ b' orders evs, b.restingOrders = .ok orders ∧
      b.process c events = .ok (b', events ++ evs) ∧ Sentence orders c evs ∧
      ∀ e ∈ evs, e.sequence = c.sequence ∧ e.orderId = c.orderId := by
  obtain ⟨q, hinv⟩ := h.inv
  obtain ⟨b', q', hp, -⟩ := hinv.process c events
  refine ⟨b', _, _, hinv.restingOrders, hp, ?_, fun e => Market.process_carries _ _⟩
  have hfind : ∀ o, (b.market q).find c.orderId = some o →
      o ∈ (b.market q).orders b.priceCount ∧ o.orderId = c.orderId := by
    intro o ho
    refine ⟨hinv.mem_orders.mpr ?_, by simpa using List.find?_some ho⟩
    rcases List.mem_append.mp (List.mem_of_find?_eq_some ho) with hm | hm
    · rw [hinv.depth_side hm]
      exact hm
    · rw [hinv.depth_side hm]
      exact hm
  rw [Market.process]
  split_ifs
  · exact .rejected rfl
  · cases hperform : (b.market q).perform c with
    | error reason => exact .rejected rfl
    | ok r => exact Market.perform_sentence hinv.depth_bestFirst hfind hperform

/-- The events of a first order. -/
theorem event_grammar_one_order : ∃ b b' orders evs, OrderBook.new ⟨1, 4, 1, 2⟩ = .ok b ∧
    b.process ⟨1, .new, .buy, .limit, 0, 7, 2, 5⟩ [] = .ok (b', evs) ∧
    Sentence orders ⟨1, .new, .buy, .limit, 0, 7, 2, 5⟩ evs := by
  obtain ⟨b, hnew⟩ := OrderBook.new_isOk (by decide : checkedPriceCount ⟨1, 4, 1, 2⟩ = .ok 4) (by decide)
  obtain ⟨b', orders, evs, -, hp, hs, -⟩ :=
    event_grammar (.new hnew) ⟨1, .new, .buy, .limit, 0, 7, 2, 5⟩ []
  exact ⟨b, b', orders, evs, hnew, hp, hs⟩

end Dme
