import OsborneX.SweepProofs

/-! # Reachable books — what every run keeps

    A book reached from the empty one is `Steady`: well formed, and with no
    Fill-And-Kill order resting.  When the quantities are positive, so is what
    is left of every resting order. -/

namespace OsxReachable

open OsxOrderbook OsxCrossing OsxLink OsxMatching OsxCalls OsxRepresentation
open OsxSweep

variable {P : Type}

variable [LinearOrder P] {b b' : Orderbook P}

theorem own_makeShared (h : Linked b) (o : Order P) (side : Side) :
    own (b.makeShared o) side = own b side := by
  obtain ⟨hbids, hasks⟩ := resting_makeShared h o
  cases side with
  | buy => exact hbids
  | sell => exact hasks
  | other _ => rfl

theorem Removed.own_sub {p : OrderPointer} (hr : Removed b p b')
    (side : Side) : (own b' side).Sublist (own b side) := by
  obtain ⟨hbids, hasks⟩ := Removed.sub hr
  cases side with
  | buy => exact hbids
  | sell => exact hasks
  | other _ => exact List.Sublist.refl _

/-- A removal takes the order of that id away, on whichever side it rests. -/
theorem Removed.own_filter (hl : Linked b) {p : OrderPointer}
    (hp : p ∈ pointers b) (hr : Removed b p b') (side : Side) :
    own b' side
      = (own b side).filter (fun x => x.orderId ≠ (b.heap p).orderId) := by
  have hside : ∀ l : List OrderPointer, (∀ r ∈ l, r ∈ pointers b) →
      (l.filter (fun r => r ≠ p)).map b.heap
        = (l.map b.heap).filter
            (fun x => x.orderId ≠ (b.heap p).orderId) := by
    intro l hsub
    rw [List.filter_map]
    refine congrArg _ (List.filter_congr (fun r hmem => ?_))
    refine decide_eq_decide.mpr (not_congr ⟨fun h => by rw [h], fun h => ?_⟩)
    exact hl.pointer_unique (hsub r hmem) hp h
  cases side with
  | buy =>
      rw [own, own, restingBids, restingBids, hr.heap, hr.bids]
      exact hside _ (fun r hmem => List.mem_append_left _ hmem)
  | sell =>
      rw [own, own, restingAsks, restingAsks, hr.heap, hr.asks]
      exact hside _ (fun r hmem => List.mem_append_right _ hmem)
  | other _ => rfl

/-- The other side. -/
def flip : Side → Side
  | .buy => .sell
  | .sell => .buy
  | .other value => .other value

theorem opposite_eq (b : Orderbook P) (side : Side) :
    opposite b side = own b (flip side) := by
  cases side <;> rfl

/-- A side is the order's own, the opposite one, or nothing. -/
theorem side_cases {s : Side} (hs : Sided s) (side : Side) :
    side = s ∨ side = flip s ∨ ∃ value, side = .other value := by
  rcases hs with rfl | rfl <;> cases side <;> simp [flip]

/-- An acceptable price is one that does not stop the sweep. -/
theorem reaches_iff {side : Side} (hs : Sided side) {limit price : P} :
    reaches side limit price ↔ ¬ better side price limit := by
  rcases hs with rfl | rfl
  · exact not_lt.symm
  · exact not_lt.symm

theorem irrefl_better {side : Side} (hs : Sided side) {price : P} :
    ¬ better side price price := by
  rcases hs with rfl | rfl
  · exact lt_irrefl price
  · exact lt_irrefl price

/-- Best price first. -/
theorem own_sorted (hl : Linked b) (side : Side) :
    (own b side).Pairwise (fun x y => ¬ better side y.price x.price) := by
  cases side with
  | buy => exact hl.bids.sorted
  | sell => exact hl.asks.sorted
  | other _ => exact List.Pairwise.nil

theorem Adds.settled (hw : WellFormed b) (hset : Settled b) {o : Order P}
    {ts : List (Trade P)} (ha : Adds b o b' ts) (hs : Sided o.side) :
    Settled b' := by
  cases ha with
  | rejected hno =>
      intro side x hx
      rw [own_makeShared hw.linked] at hx
      exact hset side x hx
  | @admitted o' b2 _ log ha he =>
      have hside := (effective_terms ha.effective).1
      have hs' : Sided o'.side := by rw [hside]; exact hs
      have hsweep := Executed.sweep hw hset hs' he
      intro side x hx
      rcases side_cases hs' side with rfl | rfl | ⟨value, rfl⟩
      · -- on its own side only a remainder is new
        have hk : o'.orderType = .fillAndKill →
            ∃ y ∈ opposite b o'.side, ¬ better o'.side y.price o'.price := by
          intro hk
          obtain ⟨hko, rfl⟩ := effective_killable ha.effective hk
          obtain ⟨y, hy, hreach⟩ := ha.killable hko
          exact ⟨y, hy, (reaches_iff hs).mp hreach⟩
        rcases Sweep.own_terms hsweep hk with h1 | ⟨r, h1, -, hr⟩
        · rw [h1] at hx
          exact hset _ x hx
        · rw [h1] at hx
          rcases mem_restBehind.mp hx with rfl | hx
          · exact hr
          · exact hset _ x hx
      · rw [← opposite_eq] at hx
        obtain ⟨y, hy, hterms⟩ := Sweep.opp_terms hsweep x hx
        rw [hterms.fields.1]
        rw [opposite_eq] at hy
        exact hset _ y hy
      · cases hx

theorem Removed.settled (hset : Settled b) {p : OrderPointer}
    (hr : Removed b p b') : Settled b' :=
  fun side x hx => hset side x ((Removed.own_sub hr side).subset hx)

/-- Well formed and settled. -/
structure Steady (b : Orderbook P) : Prop where
  wellFormed : WellFormed b
  settled : Settled b

theorem steady_empty [Inhabited P] : Steady (.empty : Orderbook P) where
  wellFormed := wellFormed_empty
  settled := by
    intro side x hx
    cases side <;> cases hx

theorem Removed.steady (h : Steady b) {p : OrderPointer}
    (hr : Removed b p b') : Steady b' :=
  ⟨Removed.wellFormed h.wellFormed hr, Removed.settled h.settled hr⟩

/-- **EVERY CALL KEEPS A BOOK STEADY.** -/
theorem Does.steady (h : Steady b) {c : Call P} (hs : callSided c)
    {ts : List (Trade P)} (hd : Does b c b' ts) : Steady b' := by
  refine ⟨Does.wellFormed h.wellFormed hd, ?_⟩
  cases hd with
  | added ha => exact Adds.settled h.wellFormed h.settled ha hs
  | cancelled _ _ hr => exact Removed.settled h.settled hr
  | notFound _ => exact h.settled
  | modified _ _ hr ha =>
      exact Adds.settled (Removed.wellFormed h.wellFormed hr)
        (Removed.settled h.settled hr) ha hs
  | unknown _ => exact h.settled

/-- An id that no order of either side has is not in the index. -/
theorem Linked.absent (hl : Linked b) {orderId : OrderId}
    (h : ∀ x ∈ resting b, x.orderId ≠ orderId) :
    b.orders.find? orderId = none := by
  refine hl.find?_eq_none.mpr (fun p hp => h (b.heap p) ?_)
  rw [resting_eq]
  exact List.mem_map_of_mem hp

theorem Linked.fresh (hl : Linked b) {orderId : OrderId}
    (h : b.orders.find? orderId = none) :
    ∀ x ∈ resting b, x.orderId ≠ orderId := by
  intro x hx
  rw [resting_eq] at hx
  obtain ⟨p, hp, rfl⟩ := List.mem_map.mp hx
  exact hl.find?_eq_none.mp h p hp

/-- **WHERE THE RESTING ORDERS COME FROM**: they rested before, or they are
    the admitted order. -/
theorem Adds.resting_from (hl : Linked b) {o : Order P}
    {ts : List (Trade P)} (ha : Adds b o b' ts) (hs : Sided o.side) :
    ∀ x ∈ resting b', (∃ y ∈ resting b, SameTerms y x) ∨
      ∃ o', Admits b o o' ∧ SameTerms o' x := by
  cases ha with
  | rejected hno =>
      intro x hx
      obtain ⟨hbids, hasks⟩ := resting_makeShared hl o
      rw [resting, hbids, hasks] at hx
      exact Or.inl ⟨x, hx, .refl x⟩
  | @admitted o' b2 _ log ha he =>
      have hside := (effective_terms ha.effective).1
      have hpts : ∀ p ∈ pointers b2, p = b.next ∨ p ∈ pointers b := by
        intro p hp
        have hperm := he.opened.pointers_perm (by rw [hside]; exact hs)
        exact List.mem_cons.mp (hperm.mem_iff.mp hp)
      intro x hx
      rw [resting_eq] at hx
      obtain ⟨p, hp, rfl⟩ := List.mem_map.mp hx
      have hp2 := he.conserved.sub.subset hp
      have hterms := (he.conserved.kept p hp2).1
      rw [he.opened.heap] at hterms
      rcases hpts p hp2 with rfl | hpb
      · rw [Function.update_self] at hterms
        exact Or.inr ⟨o', ha, hterms⟩
      · rw [Function.update_of_ne] at hterms
        · refine Or.inl ⟨b.heap p, ?_, hterms⟩
          rw [resting_eq]
          exact List.mem_map_of_mem hpb
        · rintro rfl
          exact Linked.next_fresh hl hpb

/-- A removal only takes an order away. -/
theorem Removed.resting_sub {p : OrderPointer} (hr : Removed b p b') :
    ∀ x ∈ resting b', x ∈ resting b := by
  intro x hx
  obtain ⟨hbids, hasks⟩ := Removed.sub hr
  exact (hbids.append hasks).subset hx

/-! ### Positive remainders -/

/-- Every resting order has something left. -/
def Positive (b : Orderbook P) : Prop :=
  ∀ side, ∀ x ∈ own b side, 0 < x.remainingQuantity

theorem positive_empty [Inhabited P] : Positive (.empty : Orderbook P) := by
  intro side x hx
  cases side <;> cases hx

theorem Adds.positive (hl : Linked b) (hpos : Positive b) {o : Order P}
    {ts : List (Trade P)} (ha : Adds b o b' ts) (hs : Sided o.side)
    (hq : 0 < o.remainingQuantity) : Positive b' := by
  cases ha with
  | rejected hno =>
      intro side x hx
      rw [own_makeShared hl] at hx
      exact hpos side x hx
  | @admitted o' b2 _ log ha he =>
      obtain ⟨hside, -, -, hrem⟩ := effective_terms ha.effective
      have hq' : 0 < o'.remainingQuantity := by rw [hrem]; exact hq
      have hnew : (∀ x ∈ restingBids b2, 0 < x.remainingQuantity) ∧
          ∀ y ∈ restingAsks b2, 0 < y.remainingQuantity := by
        have hbehind : ∀ {lt : P → P → Prop} [DecidableRel lt]
            {l : List (Order P)}, (∀ x ∈ l, 0 < x.remainingQuantity) →
            ∀ x ∈ restBehind lt o' l, 0 < x.remainingQuantity := by
          intro lt _ l h x hx
          rcases mem_restBehind.mp hx with rfl | hx
          · exact hq'
          · exact h x hx
        rcases hs with h1 | h1
        · obtain ⟨-, -, hbids, hasks⟩ := he.opened.buy (hside.trans h1)
          rw [hbids, hasks]
          exact ⟨hbehind (hpos .buy), hpos .sell⟩
        · obtain ⟨-, -, hasks, hbids⟩ := he.opened.sell (hside.trans h1)
          rw [hbids, hasks]
          exact ⟨hpos .buy, hbehind (hpos .sell)⟩
      obtain ⟨h1, h2⟩ := he.rounds.positive hnew.1 hnew.2
      intro side x hx
      cases side with
      | buy => exact h1 x hx
      | sell => exact h2 x hx
      | other _ => cases hx

theorem Removed.positive (hpos : Positive b) {p : OrderPointer}
    (hr : Removed b p b') : Positive b' :=
  fun side x hx => hpos side x ((Removed.own_sub hr side).subset hx)

/-- The quantities a call names are positive. -/
def callPositive : Call P → Prop
  | .addOrder _ _ _ _ quantity => 0 < quantity
  | .cancelOrder _ => True
  | .modifyOrder m => 0 < m.quantity

instance (c : Call P) : Decidable (callPositive c) :=
  match c with
  | .addOrder _ _ _ _ quantity => inferInstanceAs (Decidable (0 < quantity))
  | .cancelOrder _ => inferInstanceAs (Decidable True)
  | .modifyOrder m => inferInstanceAs (Decidable (0 < m.quantity))

theorem Does.positive (hl : Linked b) (hpos : Positive b) {c : Call P}
    (hs : callSided c) (hq : callPositive c) {ts : List (Trade P)}
    (hd : Does b c b' ts) : Positive b' := by
  cases hd with
  | added ha => exact Adds.positive hl hpos ha hs hq
  | cancelled _ _ hr => exact Removed.positive hpos hr
  | notFound _ => exact hpos
  | modified _ _ hr ha =>
      exact Adds.positive hr.linked (Removed.positive hpos hr) ha hs hq
  | unknown _ => exact hpos

/-! ### Reachable books -/

/-- `b` is the book after some run from the empty one. -/
def Reached [Inhabited P] (ok : Call P → Prop) (b : Orderbook P) : Prop :=
  ∃ calls history, (∀ c ∈ calls, ok c) ∧
    Orderbook.run .empty calls = .ok (b, history)

/-- The book after a run; the empty one if the run faults. -/
def bookAfter [Inhabited P] (calls : List (Call P)) : Orderbook P :=
  match Orderbook.run .empty calls with
  | .ok (b, _) => b
  | .error _ => .empty

theorem run_bookAfter [Inhabited P] {calls : List (Call P)}
    (hs : ∀ c ∈ calls, callSided c) :
    ∃ history, Orderbook.run .empty calls
      = .ok (bookAfter calls, history) := by
  obtain ⟨b, history, hrun, -⟩ := run_wellFormed wellFormed_empty hs
  exact ⟨history, by rw [bookAfter, hrun]⟩

theorem reached_bookAfter [Inhabited P] {ok : Call P → Prop}
    {calls : List (Call P)} (hs : ∀ c ∈ calls, callSided c)
    (hok : ∀ c ∈ calls, ok c) : Reached ok (bookAfter calls) := by
  obtain ⟨history, hrun⟩ := run_bookAfter hs
  exact ⟨calls, history, hok, hrun⟩

/-- What every permitted call keeps holds of every reachable book. -/
theorem Reached.keeps [Inhabited P] {ok : Call P → Prop}
    {I : Orderbook P → Prop} (h : Reached ok b) (h0 : I .empty)
    (hstep : ∀ b c, I b → ok c →
      ∃ b' ts, b.call c = .ok (b', ts) ∧ I b') : I b := by
  obtain ⟨calls, history, hok, hrun⟩ := h
  have hstep' : ∀ (b : Orderbook P) (c : Call P), I b → ok c →
      ∃ b' ts, b.call c = .ok (b', ts) ∧ I b' ∧ True := by
    intro b c hI hc
    obtain ⟨b', ts, h1, h2⟩ := hstep b c hI hc
    exact ⟨b', ts, h1, h2, trivial⟩
  obtain ⟨b'', history', hrun', hI, -⟩ := Execution.execute_spec hstep' calls
    .empty h0 (Execution.along_of_forall hok _)
  rw [Orderbook.run, hrun'] at hrun
  cases hrun
  exact hI

theorem Reached.steady [Inhabited P] (h : Reached callSided b) :
    Steady b := by
  refine h.keeps steady_empty (fun b c hI hc => ?_)
  obtain ⟨b', ts, hrun, hd⟩ := call_spec hI.wellFormed.linked hc
  exact ⟨b', ts, hrun, Does.steady hI hc hd⟩

/-- Sided calls with positive quantities. -/
def Regular (c : Call P) : Prop := callSided c ∧ callPositive c

instance (c : Call P) : Decidable (Regular c) :=
  inferInstanceAs (Decidable (_ ∧ _))

theorem Reached.regular [Inhabited P] (h : Reached Regular b) :
    Steady b ∧ Positive b := by
  refine @Reached.keeps P _ b _ Regular (fun b => Steady b ∧ Positive b) h
    ⟨steady_empty, positive_empty⟩ (fun b c hI hc => ?_)
  obtain ⟨b', ts, hrun, hd⟩ := call_spec hI.1.wellFormed.linked hc.1
  exact ⟨b', ts, hrun, Does.steady hI.1 hc.1 hd,
    Does.positive hI.1.wellFormed.linked hI.2 hc.1 hc.2 hd⟩

end OsxReachable
