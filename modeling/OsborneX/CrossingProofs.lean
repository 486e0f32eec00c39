import OsborneX.OrderbookModel

/-! # Crossing — what matching does to two priority lists

    The matching loops, read on the orders themselves: a side of the book is
    the list of its resting orders, best price first and oldest first within a
    price.  No pointer, no index and no aggregate is left here, only

    * `Cross`, the inner loop on two lists of orders;
    * `Rounds`, the outer loop, with a log of what each round traded, emptied
      and killed.

    The aggregates and the trade list are both READ OFF that log. -/

namespace OsxCrossing

open OsxOrderbook

variable {P : Type}

/-! ## Trades by order id -/

/-- Does the trade name the id on either side? -/
def names (id : OrderId) (t : Trade P) : Prop :=
  t.bidTrade.orderId = id ∨ t.askTrade.orderId = id

instance (id : OrderId) (t : Trade P) : Decidable (names id t) :=
  inferInstanceAs (Decidable (_ ∨ _))

/-- The quantity a list of trades attributes to an order id. -/
def tradedQuantity (id : OrderId) : List (Trade P) → Nat
  | [] => 0
  | t :: ts =>
      (if names id t then t.bidTrade.quantity else 0) + tradedQuantity id ts

@[simp] theorem tradedQuantity_nil (id : OrderId) :
    tradedQuantity id ([] : List (Trade P)) = 0 := rfl

theorem tradedQuantity_append (id : OrderId) (ts us : List (Trade P)) :
    tradedQuantity id (ts ++ us)
      = tradedQuantity id ts + tradedQuantity id us := by
  induction ts with
  | nil => simp
  | cons t ts ih =>
      rw [List.cons_append, tradedQuantity, tradedQuantity, ih, Nat.add_assoc]

/-- An id no trade names has traded nothing. -/
theorem tradedQuantity_eq_zero {id : OrderId} {ts : List (Trade P)}
    (h : ∀ t ∈ ts, ¬ names id t) : tradedQuantity id ts = 0 := by
  induction ts with
  | nil => rfl
  | cons t ts ih =>
      rw [tradedQuantity, if_neg (h t List.mem_cons_self),
        ih (fun t' ht' => h t' (List.mem_cons_of_mem _ ht'))]

/-! ## Filling -/

/-- `o` and `o'` are one order at two moments: only the remainder differs. -/
def SameTerms (o o' : Order P) : Prop :=
  o' = { o with remainingQuantity := o'.remainingQuantity }

theorem SameTerms.refl (o : Order P) : SameTerms o o := rfl

theorem SameTerms.trans {o o' o'' : Order P} (h : SameTerms o o')
    (h' : SameTerms o' o'') : SameTerms o o'' := by
  rw [SameTerms] at *
  rw [h', h]

/-- The terms, field by field. -/
theorem SameTerms.fields {o r : Order P} (h : SameTerms o r) :
    r.orderType = o.orderType ∧ r.orderId = o.orderId ∧ r.side = o.side ∧
      r.price = o.price ∧ r.initialQuantity = o.initialQuantity := by
  rw [h]
  exact ⟨rfl, rfl, rfl, rfl, rfl⟩

@[simp] theorem fill_orderType (o : Order P) (q : Nat) :
    (o.fill q).orderType = o.orderType := by
  rw [Order.fill]; split <;> rfl

@[simp] theorem fill_orderId (o : Order P) (q : Nat) :
    (o.fill q).orderId = o.orderId := by
  rw [Order.fill]; split <;> rfl

@[simp] theorem fill_side (o : Order P) (q : Nat) :
    (o.fill q).side = o.side := by
  rw [Order.fill]; split <;> rfl

@[simp] theorem fill_price (o : Order P) (q : Nat) :
    (o.fill q).price = o.price := by
  rw [Order.fill]; split <;> rfl

@[simp] theorem fill_initialQuantity (o : Order P) (q : Nat) :
    (o.fill q).initialQuantity = o.initialQuantity := by
  rw [Order.fill]; split <;> rfl

/-- A fill within the remainder is never refused. -/
theorem fill_remainingQuantity {o : Order P} {q : Nat}
    (h : q ≤ o.remainingQuantity) :
    (o.fill q).remainingQuantity = o.remainingQuantity - q := by
  rw [Order.fill]
  rw [if_neg (by omega)]

theorem fill_sameTerms (o : Order P) (q : Nat) :
    SameTerms o (o.fill q) := by
  rw [SameTerms, Order.fill]; split <;> rfl

theorem isFilled_iff (o : Order P) :
    o.isFilled = true ↔ o.remainingQuantity = 0 := by
  simp [Order.isFilled]

theorem isFilled_fill {o : Order P} {q : Nat}
    (h : q ≤ o.remainingQuantity) :
    (o.fill q).isFilled = true ↔ o.remainingQuantity = q := by
  rw [isFilled_iff, fill_remainingQuantity h]
  omega

/-! ## The inner loop -/

/-- Two front orders, as they stood, and the quantity they trade. -/
structure Pairing (P : Type) where
  bid : Order P
  ask : Order P
  quantity : Nat

/-- The trade a pairing prints. -/
def Pairing.trade (p : Pairing P) : Trade P where
  bidTrade := ⟨p.bid.orderId, p.bid.price, p.quantity⟩
  askTrade := ⟨p.ask.orderId, p.ask.price, p.quantity⟩

/-- The front order goes back in front unless it is filled. -/
def leave (o : Order P) (os : List (Order P)) : List (Order P) :=
  if o.isFilled then os else o :: os

/-- **THE INNER LOOP**: fronts trade the smaller remainder until one list is
    exhausted. -/
inductive Cross : List (Order P) → List (Order P) → List (Pairing P) →
    List (Order P) → List (Order P) → Prop where
  | done {bids asks : List (Order P)} (h : bids = [] ∨ asks = []) :
      Cross bids asks [] bids asks
  | pair {x y : Order P} {xs ys bids asks : List (Order P)}
      {pairs : List (Pairing P)} (q : Nat)
      (hq : q = min x.remainingQuantity y.remainingQuantity)
      (h : Cross (leave (x.fill q) xs) (leave (y.fill q) ys) pairs bids asks) :
      Cross (x :: xs) (y :: ys) (⟨x, y, q⟩ :: pairs) bids asks

theorem mem_leave {o r : Order P} {os : List (Order P)}
    (h : r ∈ leave o os) : r = o ∨ r ∈ os := by
  rw [leave] at h
  by_cases ho : o.isFilled = true
  · rw [if_pos ho] at h
    exact Or.inr h
  · rw [if_neg ho] at h
    exact List.mem_cons.mp h

/-- An order with the terms of one left in a list has those of one that was
    there before the fill. -/
theorem terms_of_leave {o r : Order P} {q : Nat} {os : List (Order P)}
    (h : ∃ x ∈ leave (o.fill q) os, SameTerms x r) :
    ∃ x ∈ o :: os, SameTerms x r := by
  obtain ⟨x, hx, hr⟩ := h
  rcases mem_leave hx with heq | hmem
  · subst heq
    exact ⟨o, List.mem_cons_self, (fill_sameTerms o q).trans hr⟩
  · exact ⟨x, List.mem_cons_of_mem _ hmem, hr⟩

/-- The loop leaves one list empty. -/
theorem Cross.exhausts {xs ys xs' ys' : List (Order P)}
    {pairs : List (Pairing P)} (h : Cross xs ys pairs xs' ys') :
    xs' = [] ∨ ys' = [] := by
  induction h with
  | done h => exact h
  | pair q hq _ ih => exact ih

/-- Every pairing is between an order of each list, up to its remainder. -/
theorem Cross.pairs_from {xs ys xs' ys' : List (Order P)}
    {pairs : List (Pairing P)} (h : Cross xs ys pairs xs' ys') :
    ∀ p ∈ pairs, (∃ x ∈ xs, SameTerms x p.bid) ∧
      (∃ y ∈ ys, SameTerms y p.ask) := by
  induction h with
  | done h => intro p hp; cases hp
  | @pair x y xs ys bids asks pairs q hq _ ih =>
      intro p hp
      rcases List.mem_cons.mp hp with heq | hmem
      · subst heq
        exact ⟨⟨x, List.mem_cons_self, .refl x⟩,
          ⟨y, List.mem_cons_self, .refl y⟩⟩
      · obtain ⟨hb, ha⟩ := ih p hmem
        exact ⟨terms_of_leave hb, terms_of_leave ha⟩

/-- An id of neither list trades nothing. -/
theorem Cross.traded_eq_zero {xs ys xs' ys' : List (Order P)}
    {pairs : List (Pairing P)} (h : Cross xs ys pairs xs' ys')
    {id : OrderId} (hx : ∀ x ∈ xs, x.orderId ≠ id)
    (hy : ∀ y ∈ ys, y.orderId ≠ id) :
    tradedQuantity id (pairs.map Pairing.trade) = 0 := by
  refine tradedQuantity_eq_zero (fun t ht hn => ?_)
  obtain ⟨p, hp, rfl⟩ := List.mem_map.mp ht
  obtain ⟨⟨x, hxs, hbid⟩, ⟨y, hys, hask⟩⟩ := h.pairs_from p hp
  rcases hn with h1 | h1
  · have h2 : p.bid.orderId = id := h1
    rw [hbid] at h2
    exact hx x hxs h2
  · have h2 : p.ask.orderId = id := h1
    rw [hask] at h2
    exact hy y hys h2

/-! ## The outer loop -/

/-- The front order leaves when it is Fill-And-Kill. -/
def kill : List (Order P) → List (Order P)
  | [] => []
  | o :: os => if o.orderType = .fillAndKill then os else o :: os

/-- The order `kill` takes away. -/
def victim : List (Order P) → Option (Order P)
  | [] => none
  | o :: _ => if o.orderType = .fillAndKill then some o else none

/-- What one round did: its two best prices, its pairings, which of the two
    levels it emptied, and whom it killed. -/
structure Round (P : Type) where
  bidPrice : P
  askPrice : P
  pairs : List (Pairing P)
  bidsGone : Bool
  asksGone : Bool
  killedBid : Option (Order P)
  killedAsk : Option (Order P)

/-- The trades of a log, in order. -/
def trades (log : List (Round P)) : List (Trade P) :=
  log.flatMap (fun r => r.pairs.map Pairing.trade)

theorem trades_cons (r : Round P) (log : List (Round P)) :
    trades (r :: log) = r.pairs.map Pairing.trade ++ trades log := rfl

/-- **THE OUTER LOOP**: while the best levels cross, run the inner loop on
    them, drop what it emptied and kill a Fill-And-Kill front. -/
inductive Rounds [LT P] : List (Order P) → List (Order P) →
    List (Round P) → List (Order P) → List (Order P) → Prop where
  | stop {bids asks : List (Order P)}
      (h : ∀ x ∈ bids, ∀ y ∈ asks, x.price < y.price) :
      Rounds bids asks [] bids asks
  | round {pb pa : P} {B bs A as B' A' bids asks : List (Order P)}
      {pairs : List (Pairing P)} {log : List (Round P)}
      (hB : ∀ x ∈ B, x.price = pb) (hbs : ∀ x ∈ bs, x.price < pb)
      (hA : ∀ y ∈ A, y.price = pa) (has : ∀ y ∈ as, pa < y.price)
      (hB0 : B ≠ []) (hA0 : A ≠ []) (hcross : ¬ pb < pa)
      (hc : Cross B A pairs B' A')
      (h : Rounds (kill (B' ++ bs)) (kill (A' ++ as)) log bids asks) :
      Rounds (B ++ bs) (A ++ as)
        (⟨pb, pa, pairs, B'.isEmpty, A'.isEmpty,
          victim (B' ++ bs), victim (A' ++ as)⟩ :: log) bids asks

/-- Killing changes nothing where no order is Fill-And-Kill. -/
theorem kill_eq_self {l : List (Order P)}
    (h : ∀ x ∈ l, x.orderType ≠ .fillAndKill) :
    kill l = l ∧ victim l = none := by
  cases l with
  | nil => exact ⟨rfl, rfl⟩
  | cons x l =>
      have hx := h x List.mem_cons_self
      exact ⟨if_neg hx, if_neg hx⟩

/-- Matching stops on two sides that do not cross. -/
theorem Rounds.uncrossed [LT P] {bids asks bids' asks' : List (Order P)}
    {log : List (Round P)} (h : Rounds bids asks log bids' asks') :
    ∀ x ∈ bids', ∀ y ∈ asks', x.price < y.price := by
  induction h with
  | stop h => exact h
  | round _ _ _ _ _ _ _ _ _ ih => exact ih

/-- Two sides that do not cross are not matched. -/
theorem Rounds.of_uncrossed [LT P] {bids asks bids' asks' : List (Order P)}
    {log : List (Round P)} (h : Rounds bids asks log bids' asks')
    (hu : ∀ x ∈ bids, ∀ y ∈ asks, x.price < y.price) :
    log = [] ∧ bids' = bids ∧ asks' = asks := by
  cases h with
  | stop _ => exact ⟨rfl, rfl, rfl⟩
  | round hB _ hA _ hB0 hA0 hcross _ _ =>
      obtain ⟨x, hx⟩ := List.exists_mem_of_ne_nil _ hB0
      obtain ⟨y, hy⟩ := List.exists_mem_of_ne_nil _ hA0
      have hlt := hu x (List.mem_append.mpr (Or.inl hx)) y
        (List.mem_append.mpr (Or.inl hy))
      rw [hB x hx, hA y hy] at hlt
      exact absurd hlt hcross

/-! ## The two sides exchanged -/

def Pairing.swap (p : Pairing P) : Pairing P := ⟨p.ask, p.bid, p.quantity⟩

def Round.swap (r : Round P) : Round P :=
  ⟨r.askPrice, r.bidPrice, r.pairs.map Pairing.swap, r.asksGone, r.bidsGone,
    r.killedAsk, r.killedBid⟩

@[simp] theorem Pairing.swap_swap (p : Pairing P) : p.swap.swap = p := rfl

@[simp] theorem Round.swap_swap (r : Round P) : r.swap.swap = r := by
  simp [Round.swap, Function.comp_def]

theorem Cross.swap {xs ys xs' ys' : List (Order P)} {pairs : List (Pairing P)}
    (h : Cross xs ys pairs xs' ys') :
    Cross ys xs (pairs.map Pairing.swap) ys' xs' := by
  induction h with
  | done h => exact .done h.symm
  | pair q hq _ ih => exact .pair q (by rw [hq, Nat.min_comm]) ih

/-- The outer loop is the same loop for the opposite order of prices. -/
theorem Rounds.swap [LT P] {bids asks bids' asks' : List (Order P)}
    {log : List (Round P)} (h : Rounds bids asks log bids' asks') :
    @Rounds P ⟨fun a b => b < a⟩ asks bids (log.map Round.swap)
      asks' bids' := by
  induction h with
  | stop h => exact @Rounds.stop P ⟨_⟩ _ _ (fun y hy x hx => h x hx y hy)
  | round hB hbs hA has hB0 hA0 hcross hc _ ih =>
      exact @Rounds.round P ⟨_⟩ _ _ _ _ _ _ _ _ _ _ _ _ hA has hB hbs hA0 hB0
        hcross (Cross.swap hc) ih

/-! ## One order against one level -/

/-- What is left of a list after the inner loop has the terms it had. -/
theorem Cross.left_terms {xs ys xs' ys' : List (Order P)}
    {pairs : List (Pairing P)} (h : Cross xs ys pairs xs' ys') :
    (∀ r ∈ xs', ∃ x ∈ xs, SameTerms x r) ∧
      ∀ r ∈ ys', ∃ y ∈ ys, SameTerms y r := by
  induction h with
  | done h =>
      exact ⟨fun r hr => ⟨r, hr, .refl r⟩, fun r hr => ⟨r, hr, .refl r⟩⟩
  | pair q hq _ ih =>
      exact ⟨fun r hr => terms_of_leave (ih.1 r hr),
        fun r hr => terms_of_leave (ih.2 r hr)⟩

/-- One order against a level: it is filled, or the level is exhausted and the
    order is left with the rest of itself. -/
theorem Cross.single {o : Order P} {A A' B' : List (Order P)}
    {pairs : List (Pairing P)} (h : Cross [o] A pairs B' A') :
    B' = [] ∨ ∃ r, B' = [r] ∧ A' = [] ∧ SameTerms o r := by
  generalize hX : [o] = X at h
  induction h generalizing o with
  | @done bids asks h =>
      subst hX
      rcases h with h | h
      · cases h
      · exact Or.inr ⟨o, rfl, h, .refl o⟩
  | @pair x y xs ys bids asks pairs q hq h ih =>
      cases hX
      by_cases hf : (x.fill q).isFilled = true
      · -- filled: nothing is left to pair
        rw [leave, if_pos hf] at h
        cases h with
        | done _ => exact Or.inl rfl
      · have hleave : leave (x.fill q) [] = [x.fill q] := by
          rw [leave, if_neg hf]
        rcases ih hleave.symm with h1 | ⟨r, h1, h2, h3⟩
        · exact Or.inl h1
        · exact Or.inr ⟨r, h1, h2, (fill_sameTerms x q).trans h3⟩

/-- The remainder of an order that exhausted a level. -/
theorem Cross.remainder {o r : Order P} {A A' : List (Order P)}
    {pairs : List (Pairing P)} (h : Cross [o] A pairs [r] A') :
    SameTerms o r := by
  rcases h.single with h1 | ⟨r', h1, -, h2⟩
  · cases h1
  · cases h1
    exact h2

/-! ## Positive remainders -/

theorem leave_positive {o : Order P} {os : List (Order P)}
    (h : ∀ x ∈ os, 0 < x.remainingQuantity) :
    ∀ x ∈ leave o os, 0 < x.remainingQuantity := by
  intro x hx
  by_cases ho : o.isFilled = true
  · rw [leave, if_pos ho] at hx
    exact h x hx
  · rw [leave, if_neg ho] at hx
    rcases List.mem_cons.mp hx with rfl | hx
    · rw [isFilled_iff] at ho
      omega
    · exact h x hx

theorem Cross.positive {xs ys xs' ys' : List (Order P)}
    {pairs : List (Pairing P)} (h : Cross xs ys pairs xs' ys') :
    (∀ x ∈ xs, 0 < x.remainingQuantity) →
    (∀ y ∈ ys, 0 < y.remainingQuantity) →
    (∀ x ∈ xs', 0 < x.remainingQuantity) ∧
      ∀ y ∈ ys', 0 < y.remainingQuantity := by
  induction h with
  | done _ => exact fun hx hy => ⟨hx, hy⟩
  | pair q _ _ ih =>
      intro hx hy
      exact ih (leave_positive fun x h => hx x (List.mem_cons_of_mem _ h))
        (leave_positive fun y h => hy y (List.mem_cons_of_mem _ h))

theorem kill_sub (l : List (Order P)) : (kill l).Sublist l := by
  cases l with
  | nil => exact List.Sublist.refl _
  | cons x l =>
      show (if x.orderType = .fillAndKill then l else x :: l).Sublist (x :: l)
      split
      · exact List.sublist_cons_self x l
      · exact List.Sublist.refl _

/-- What stays after a round is positive where the two parts are. -/
theorem kill_positive {l l' : List (Order P)}
    (h : ∀ x ∈ l, 0 < x.remainingQuantity)
    (h' : ∀ x ∈ l', 0 < x.remainingQuantity) :
    ∀ x ∈ kill (l ++ l'), 0 < x.remainingQuantity := by
  intro x hx
  rcases List.mem_append.mp ((kill_sub _).subset hx) with hx | hx
  · exact h x hx
  · exact h' x hx

theorem Rounds.positive [LT P] {bids asks bids' asks' : List (Order P)}
    {log : List (Round P)} (h : Rounds bids asks log bids' asks') :
    (∀ x ∈ bids, 0 < x.remainingQuantity) →
    (∀ y ∈ asks, 0 < y.remainingQuantity) →
    (∀ x ∈ bids', 0 < x.remainingQuantity) ∧
      ∀ y ∈ asks', 0 < y.remainingQuantity := by
  induction h with
  | stop _ => exact fun hx hy => ⟨hx, hy⟩
  | round _ _ _ _ _ _ _ hc _ ih =>
      intro hx hy
      have hcp := hc.positive
        (fun x h => hx x (List.mem_append.mpr (Or.inl h)))
        (fun y h => hy y (List.mem_append.mpr (Or.inl h)))
      exact ih
        (kill_positive hcp.1 fun x h => hx x (List.mem_append.mpr (Or.inr h)))
        (kill_positive hcp.2 fun y h => hy y (List.mem_append.mpr (Or.inr h)))

/-- Two orders with something left trade something. -/
theorem Cross.pairs_positive {xs ys xs' ys' : List (Order P)}
    {pairs : List (Pairing P)} (h : Cross xs ys pairs xs' ys') :
    (∀ x ∈ xs, 0 < x.remainingQuantity) →
    (∀ y ∈ ys, 0 < y.remainingQuantity) →
    ∀ p ∈ pairs, 0 < p.quantity := by
  induction h with
  | done _ => exact fun _ _ => List.forall_mem_nil _
  | @pair x y xs ys bids asks pairs q hq _ ih =>
      intro hx hy p hp
      rcases List.mem_cons.mp hp with rfl | hp
      · have hx0 := hx x List.mem_cons_self
        have hy0 := hy y List.mem_cons_self
        show 0 < q
        omega
      · exact ih
          (leave_positive fun x h => hx x (List.mem_cons_of_mem _ h))
          (leave_positive fun y h => hy y (List.mem_cons_of_mem _ h)) p hp

theorem Rounds.trades_positive [LT P] {bids asks bids' asks' : List (Order P)}
    {log : List (Round P)} (h : Rounds bids asks log bids' asks') :
    (∀ x ∈ bids, 0 < x.remainingQuantity) →
    (∀ y ∈ asks, 0 < y.remainingQuantity) →
    ∀ t ∈ trades log, 0 < t.bidTrade.quantity := by
  induction h with
  | stop _ => exact fun _ _ => List.forall_mem_nil _
  | round _ _ _ _ _ _ _ hc _ ih =>
      intro hx hy t ht
      have hx1 := fun x h => hx x (List.mem_append.mpr (Or.inl h))
      have hy1 := fun y h => hy y (List.mem_append.mpr (Or.inl h))
      have hcp := hc.positive hx1 hy1
      rw [trades_cons] at ht
      rcases List.mem_append.mp ht with ht | ht
      · obtain ⟨p, hp, rfl⟩ := List.mem_map.mp ht
        exact hc.pairs_positive hx1 hy1 p hp
      · exact ih
          (kill_positive hcp.1
            fun x h => hx x (List.mem_append.mpr (Or.inr h)))
          (kill_positive hcp.2
            fun y h => hy y (List.mem_append.mpr (Or.inr h))) t ht

/-- **EVERY TRADE OF THE LOOPS** is between a bid and an ask whose prices
    cross. -/
theorem Rounds.traded [LT P] {bids asks bids' asks' : List (Order P)}
    {log : List (Round P)} (h : Rounds bids asks log bids' asks') :
    ∀ t ∈ trades log, ∃ x ∈ bids, ∃ y ∈ asks,
      t.bidTrade.orderId = x.orderId ∧ t.bidTrade.price = x.price ∧
      t.askTrade.orderId = y.orderId ∧ t.askTrade.price = y.price ∧
      ¬ x.price < y.price := by
  -- what is left after a round has the terms of an order from before it
  have earlier : ∀ {l l' rest : List (Order P)},
      (∀ r ∈ l', ∃ x ∈ l, SameTerms x r) → ∀ r ∈ kill (l' ++ rest),
      ∃ x ∈ l ++ rest, SameTerms x r := by
    intro l l' rest hl r hr
    rcases List.mem_append.mp ((kill_sub _).subset hr) with hr | hr
    · obtain ⟨x, hx, hterms⟩ := hl r hr
      exact ⟨x, List.mem_append_left _ hx, hterms⟩
    · exact ⟨r, List.mem_append_right _ hr, .refl r⟩
  induction h with
  | stop _ => exact List.forall_mem_nil _
  | @round pb pa B bs A as B' A' bids asks pairs log hB _ hA _ _ _ hcross hc _
      ih =>
      intro t ht
      rw [trades_cons] at ht
      rcases List.mem_append.mp ht with ht | ht
      · obtain ⟨p, hp, rfl⟩ := List.mem_map.mp ht
        obtain ⟨⟨x, hx, hbid⟩, ⟨y, hy, hask⟩⟩ := hc.pairs_from p hp
        refine ⟨x, List.mem_append_left _ hx, y, List.mem_append_left _ hy,
          hbid.fields.2.1, hbid.fields.2.2.2.1, hask.fields.2.1,
          hask.fields.2.2.2.1, ?_⟩
        rw [hB x hx, hA y hy]
        exact hcross
      · obtain ⟨x, hx, y, hy, hbid, hbidPrice, hask, haskPrice, hno⟩ := ih t ht
        obtain ⟨x0, hx0, hxterms⟩ := earlier hc.left_terms.1 x hx
        obtain ⟨y0, hy0, hyterms⟩ := earlier hc.left_terms.2 y hy
        rw [hxterms.fields.2.1] at hbid
        rw [hxterms.fields.2.2.2.1] at hbidPrice hno
        rw [hyterms.fields.2.1] at hask
        rw [hyterms.fields.2.2.2.1] at haskPrice hno
        exact ⟨x0, hx0, y0, hy0, hbid, hbidPrice, hask, haskPrice, hno⟩

/-! ## The aggregates along a log -/

section LevelData

variable [BEq P]

/-- A pairing reports its two fills, the bid first. -/
def Pairing.apply (levelData : LevelDataMap P) (p : Pairing P) :
    LevelDataMap P :=
  onOrderMatched
    (onOrderMatched levelData p.bid.price p.quantity
      (p.bid.fill p.quantity).isFilled)
    p.ask.price p.quantity (p.ask.fill p.quantity).isFilled

/-- The entry of an emptied level is erased. -/
def dropLevel (levelData : LevelDataMap P) (price : P) (gone : Bool) :
    LevelDataMap P :=
  if gone then levelData.erase price else levelData

/-- A cancelled order leaves the aggregates. -/
def dropOrder (levelData : LevelDataMap P) : Option (Order P) →
    LevelDataMap P
  | none => levelData
  | some o => updateLevelData levelData o.price o.remainingQuantity .remove

/-- The aggregates after one round. -/
def Round.apply (levelData : LevelDataMap P) (r : Round P) :
    LevelDataMap P :=
  let levelData := r.pairs.foldl Pairing.apply levelData
  let levelData := dropLevel levelData r.bidPrice r.bidsGone
  let levelData := dropLevel levelData r.askPrice r.asksGone
  dropOrder (dropOrder levelData r.killedBid) r.killedAsk

end LevelData

/-! ## Resting behind -/

/-- Insert behind every order whose price is no worse, `lt` being "better". -/
def restBehind (lt : P → P → Prop) [DecidableRel lt] (o : Order P) :
    List (Order P) → List (Order P)
  | [] => [o]
  | r :: rs =>
      if lt o.price r.price then o :: r :: rs
      else r :: restBehind lt o rs

theorem restBehind_append {lt : P → P → Prop} [DecidableRel lt]
    {o : Order P} {xs ys : List (Order P)}
    (hx : ∀ x ∈ xs, ¬ lt o.price x.price)
    (hy : ∀ y ∈ ys, lt o.price y.price) :
    restBehind lt o (xs ++ ys) = xs ++ o :: ys := by
  induction xs with
  | nil =>
      cases ys with
      | nil => rfl
      | cons y ys =>
          show (if lt o.price y.price then o :: y :: ys
            else y :: restBehind lt o ys) = o :: y :: ys
          rw [if_pos (hy y List.mem_cons_self)]
  | cons x xs ih =>
      show (if lt o.price x.price then o :: x :: (xs ++ ys)
        else x :: restBehind lt o (xs ++ ys)) = x :: (xs ++ o :: ys)
      rw [if_neg (hx x List.mem_cons_self),
        ih (fun x' hx' => hx x' (List.mem_cons_of_mem _ hx'))]

/-- An order better than its whole side rests in front. -/
theorem restBehind_front {lt : P → P → Prop} [DecidableRel lt] {o : Order P}
    {own : List (Order P)} (h : ∀ x ∈ own, lt o.price x.price) :
    restBehind lt o own = o :: own := by
  have hnil : ∀ x ∈ ([] : List (Order P)), ¬ lt o.price x.price :=
    List.forall_mem_nil _
  exact restBehind_append hnil h

theorem mem_restBehind {lt : P → P → Prop} [DecidableRel lt] {o x : Order P}
    {own : List (Order P)} : x ∈ restBehind lt o own ↔ x = o ∨ x ∈ own := by
  induction own with
  | nil => simp [restBehind]
  | cons r rs ih =>
      show x ∈ (if lt o.price r.price then o :: r :: rs
        else r :: restBehind lt o rs) ↔ _
      by_cases h : lt o.price r.price
      · rw [if_pos h, List.mem_cons]
      · rw [if_neg h, List.mem_cons, ih, List.mem_cons]
        tauto

end OsxCrossing
