import OsborneX.ReachableProofs

/-! # Arrival — which of two resting orders was added first

    The history of a book decides in what order its orders were added: a call
    adds the order it names when the id is free, and `ModifyOrder` adds a
    resting order anew.  `arrivals` keeps the ids of a run in that order, each
    where it was added last.

    `Queued` says that a side is sorted by price and, within a price, by
    arrival; every call keeps it (`Does.queued`). -/

namespace OsxArrival

open OsxOrderbook OsxCrossing OsxLink OsxMatching OsxCalls OsxRepresentation
open OsxSweep OsxReachable

variable {P : Type}

/-! ## The history -/

section History

variable [LinearOrder P]

/-- The id of the order that a call adds. -/
def adds (b : Orderbook P) : Call P → Option OrderId
  | .addOrder _ orderId _ _ _ =>
      if b.orders.find? orderId = none then some orderId else none
  | .cancelOrder _ => none
  | .modifyOrder m =>
      if b.orders.find? m.orderId = none then none else some m.orderId

/-- An id that is added is the last one. -/
def arrive (arrived : List OrderId) : Option OrderId → List OrderId
  | none => arrived
  | some orderId => arrived.filter (fun id => id ≠ orderId) ++ [orderId]

/-- The ids in the order in which a run adds them. -/
def arrivalsFrom (b : Orderbook P) (arrived : List OrderId) :
    List (Call P) → List OrderId
  | [] => arrived
  | c :: calls =>
      match b.call c with
      | .error _ => arrived
      | .ok (b', _) => arrivalsFrom b' (arrive arrived (adds b c)) calls

/-- **THE ORDER OF ARRIVAL**, of all that a run from the empty book added. -/
def arrivals [Inhabited P] (calls : List (Call P)) : List OrderId :=
  arrivalsFrom .empty [] calls

theorem arrivalsFrom_cons {b b' : Orderbook P} {c : Call P}
    {ts : List (Trade P)} (hcall : b.call c = .ok (b', ts))
    (arrived : List OrderId) (calls : List (Call P)) :
    arrivalsFrom b arrived (c :: calls)
      = arrivalsFrom b' (arrive arrived (adds b c)) calls := by
  rw [arrivalsFrom, hcall]

/-- One call more. -/
theorem arrivalsFrom_snoc {c : Call P} {b' b'' : Orderbook P}
    {ts : List (Trade P)} (hcall : b'.call c = .ok (b'', ts)) :
    ∀ {calls : List (Call P)} {b : Orderbook P} {arrived : List OrderId}
      {history : List (List (Trade P))},
      Execution.execute Orderbook.call b calls = .ok (b', history) →
      arrivalsFrom b arrived (calls ++ [c])
        = arrive (arrivalsFrom b arrived calls) (adds b' c) := by
  intro calls
  induction calls with
  | nil =>
      intro b arrived history hrun
      cases hrun
      rw [List.nil_append, arrivalsFrom_cons hcall]
      rfl
  | cons d calls ih =>
      intro b arrived history hrun
      obtain ⟨b₁, ts₁, history', hstep, hrest, -⟩ :=
        Execution.execute_cons_ok hrun
      rw [List.cons_append, arrivalsFrom_cons hstep, arrivalsFrom_cons hstep]
      exact ih hrest

end History

/-- Added before. -/
def Earlier (arrived : List OrderId) (x y : Order P) : Prop :=
  [x.orderId, y.orderId].Sublist arrived

theorem nodup_arrive {arrived : List OrderId} (h : arrived.Nodup)
    (added : Option OrderId) : (arrive arrived added).Nodup := by
  cases added with
  | none => exact h
  | some orderId =>
      refine (h.filter _).append (List.nodup_singleton _) ?_
      intro id hid hmem
      rw [List.mem_singleton.mp hmem] at hid
      simpa using List.of_mem_filter hid

/-- What is not added again stays where it was. -/
theorem Earlier.arrive {arrived : List OrderId} {x y : Order P}
    {orderId : OrderId} (h : Earlier arrived x y) (hx : x.orderId ≠ orderId)
    (hy : y.orderId ≠ orderId) :
    Earlier (arrive arrived (some orderId)) x y := by
  have hkept : [x.orderId, y.orderId].filter (fun id => id ≠ orderId)
      = [x.orderId, y.orderId] := by
    simp [hx, hy]
  have hsub := h.filter (fun id => id ≠ orderId)
  rw [hkept] at hsub
  exact hsub.trans (List.sublist_append_left _ _)

/-- Everything else was added before the last one. -/
theorem earlier_last {arrived : List OrderId} {x y : Order P}
    (hx : x.orderId ∈ arrived) (hne : x.orderId ≠ y.orderId) :
    Earlier (arrive arrived (some y.orderId)) x y := by
  have hmem : x.orderId ∈ arrived.filter (fun id => id ≠ y.orderId) :=
    List.mem_filter.mpr ⟨hx, decide_eq_true hne⟩
  exact (List.singleton_sublist.mpr hmem).append (List.Sublist.refl _)

section Priority

variable [LinearOrder P]

/-- **PRICE-TIME PRIORITY** of one order over another. -/
def Precedes (side : Side) (arrived : List OrderId) (x y : Order P) : Prop :=
  better side x.price y.price ∨
    x.price = y.price ∧ Earlier arrived x y

/-- Both sides are in the order of price-time priority. -/
structure Queued (arrived : List OrderId) (bids asks : List (Order P)) :
    Prop where
  once : arrived.Nodup
  known : ∀ x ∈ bids ++ asks, x.orderId ∈ arrived
  bids : bids.Pairwise (Precedes .buy arrived)
  asks : asks.Pairwise (Precedes .sell arrived)

/-- Price and arrival are all that matters. -/
theorem Precedes.congr {side : Side} {arrived : List OrderId}
    {x y x' y' : Order P} (h : Precedes side arrived x y)
    (hx : SameTerms x x') (hy : SameTerms y y') :
    Precedes side arrived x' y' := by
  rw [Precedes, Earlier] at h ⊢
  rw [hx.fields.2.2.2.1, hy.fields.2.2.2.1, hx.fields.2.1, hy.fields.2.1]
  exact h

/-- An order of another side's book, or none. -/
theorem Queued.own {arrived : List OrderId} {b : Orderbook P}
    (h : Queued arrived (restingBids b) (restingAsks b)) (side : Side) :
    (own b side).Pairwise (Precedes side arrived) := by
  cases side with
  | buy => exact h.bids
  | sell => exact h.asks
  | other _ => exact List.Pairwise.nil

end Priority

/-! ## Every call keeps it -/

section Calls

variable [LinearOrder P] {b b' : Orderbook P} {arrived : List OrderId}

/-- The sides of a book are in the order of price-time priority. -/
abbrev InOrder (arrived : List OrderId) (b : Orderbook P) : Prop :=
  Queued arrived (restingBids b) (restingAsks b)

theorem better_trans (side : Side) {p q r : P} (h : better side p q)
    (h' : better side q r) : better side p r := by
  cases side with
  | buy => exact lt_trans h' h
  | sell => exact lt_trans h h'
  | other _ => exact lt_trans h' h

theorem better_total (side : Side) {p q : P} (h : ¬ better side p q) :
    better side q p ∨ q = p := by
  cases side with
  | buy => exact (lt_or_eq_of_le (not_lt.mp h)).imp_right Eq.symm
  | sell => exact lt_or_eq_of_le (not_lt.mp h)
  | other _ => exact (lt_or_eq_of_le (not_lt.mp h)).imp_right Eq.symm

/-- **THE NEW ORDER RESTS BEHIND** all that has its priority already. -/
theorem pairwise_restBehind (side : Side) {o : Order P} {l : List (Order P)}
    (hl : l.Pairwise (Precedes side arrived))
    (hknown : ∀ x ∈ l, x.orderId ∈ arrived)
    (hfresh : ∀ x ∈ l, x.orderId ≠ o.orderId) :
    (restBehind (better side) o l).Pairwise
      (Precedes side (arrive arrived (some o.orderId))) := by
  induction l with
  | nil => exact List.pairwise_singleton _ _
  | cons r rs ih =>
      obtain ⟨hr, hrs⟩ := List.pairwise_cons.mp hl
      have hkept : ∀ {x y : Order P}, x ∈ r :: rs → y ∈ r :: rs →
          Precedes side arrived x y →
          Precedes side (arrive arrived (some o.orderId)) x y := by
        rintro x y hx hy (hbetter | ⟨hprice, hearlier⟩)
        · exact Or.inl hbetter
        · exact Or.inr ⟨hprice, hearlier.arrive (hfresh x hx) (hfresh y hy)⟩
      have hold : (r :: rs).Pairwise
          (Precedes side (arrive arrived (some o.orderId))) :=
        hl.imp_of_mem hkept
      show List.Pairwise _ (if better side o.price r.price then _ else _)
      split
      · rename_i hbetter
        refine List.pairwise_cons.mpr ⟨fun x hx => Or.inl ?_, hold⟩
        rcases List.mem_cons.mp hx with rfl | hx
        · exact hbetter
        · rcases hr x hx with hrx | ⟨hrx, -⟩
          · exact better_trans side hbetter hrx
          · rw [← hrx]
            exact hbetter
      · rename_i hnot
        refine List.pairwise_cons.mpr ⟨fun x hx => ?_, ih hrs
          (fun x hx => hknown x (List.mem_cons_of_mem r hx))
          (fun x hx => hfresh x (List.mem_cons_of_mem r hx))⟩
        rcases mem_restBehind.mp hx with rfl | hx
        · rcases better_total side hnot with hrx | hrx
          · exact Or.inl hrx
          · exact Or.inr ⟨hrx, earlier_last (hknown r List.mem_cons_self)
              (hfresh r List.mem_cons_self)⟩
        · exact (List.pairwise_cons.mp hold).1 x hx

/-- What is left of a side, under the same terms, is still in order. -/
theorem pairwise_kept {side : Side} {ps ps' : List OrderPointer}
    {heap heap' : OrderPointer → Order P}
    (h : (ps.map heap).Pairwise (Precedes side arrived))
    (hsub : ps'.Sublist ps) (hkept : ∀ p ∈ ps, SameTerms (heap p) (heap' p)) :
    (ps'.map heap').Pairwise (Precedes side arrived) := by
  rw [List.pairwise_map] at h ⊢
  refine (h.sublist hsub).imp_of_mem (fun hp hq hpq => ?_)
  exact hpq.congr (hkept _ (hsub.subset hp)) (hkept _ (hsub.subset hq))

/-- An id arrives that nothing there has. -/
theorem Queued.arrives {bids asks : List (Order P)}
    (h : Queued arrived bids asks) {orderId : OrderId}
    (hfresh : ∀ x ∈ bids ++ asks, x.orderId ≠ orderId) :
    Queued (arrive arrived (some orderId)) bids asks := by
  have hsame : ∀ {side : Side} {l : List (Order P)},
      (∀ x ∈ l, x ∈ bids ++ asks) → l.Pairwise (Precedes side arrived) →
      l.Pairwise (Precedes side (arrive arrived (some orderId))) := by
    intro side l hsub hl
    refine hl.imp_of_mem (fun hx hy hxy => ?_)
    exact hxy.imp_right (fun ⟨hprice, hearlier⟩ => ⟨hprice,
      hearlier.arrive (hfresh _ (hsub _ hx)) (hfresh _ (hsub _ hy))⟩)
  exact {
    once := nodup_arrive h.once _
    known := fun x hx => List.mem_append_left _
      (List.mem_filter.mpr ⟨h.known x hx, decide_eq_true (hfresh x hx)⟩)
    bids := hsame (fun x hx => List.mem_append_left _ hx) h.bids
    asks := hsame (fun x hx => List.mem_append_right _ hx) h.asks }

/-- **AN ADMITTED ORDER** goes to the end of its level. -/
theorem Opened.queued (h : InOrder arrived b) {o : Order P}
    {b2 : Orderbook P} (ho : Opened b o b2) (hs : Sided o.side)
    (hfresh : ∀ x ∈ resting b, x.orderId ≠ o.orderId) :
    InOrder (arrive arrived (some o.orderId)) b2 := by
  have hall := Queued.arrives h hfresh
  have hknown : ∀ x, x = o ∨ x ∈ resting b →
      x.orderId ∈ arrive arrived (some o.orderId) := by
    rintro x (rfl | hx)
    · exact List.mem_append_right _ List.mem_cons_self
    · exact hall.known x hx
  rcases hs with hside | hside
  · obtain ⟨-, -, hown, hopp⟩ := ho.buy hside
    rw [InOrder, hown, hopp]
    refine ⟨hall.once, fun x hx => hknown x ?_, ?_, hall.asks⟩
    · rcases List.mem_append.mp hx with hx | hx
      · exact (mem_restBehind.mp hx).imp_right (List.mem_append_left _)
      · exact Or.inr (List.mem_append_right _ hx)
    · exact pairwise_restBehind .buy h.bids
        (fun x hx => h.known x (List.mem_append_left _ hx))
        (fun x hx => hfresh x (List.mem_append_left _ hx))
  · obtain ⟨-, -, hown, hopp⟩ := ho.sell hside
    rw [InOrder, hown, hopp]
    refine ⟨hall.once, fun x hx => hknown x ?_, hall.bids, ?_⟩
    · rcases List.mem_append.mp hx with hx | hx
      · exact Or.inr (List.mem_append_left _ hx)
      · exact (mem_restBehind.mp hx).imp_right (List.mem_append_right _)
    · exact pairwise_restBehind .sell h.asks
        (fun x hx => h.known x (List.mem_append_right _ hx))
        (fun x hx => hfresh x (List.mem_append_right _ hx))

/-- Matching takes orders away, and changes nobody's terms. -/
theorem Conserved.queued {ts : List (Trade P)} (h : InOrder arrived b)
    (hc : Conserved b b' ts) : InOrder arrived b' where
  once := h.once
  known := by
    intro x hx
    rw [restingBids, restingAsks, ← List.map_append] at hx
    obtain ⟨p, hp, rfl⟩ := List.mem_map.mp hx
    have hp' := hc.sub.subset hp
    rw [(hc.kept p hp').1.fields.2.1]
    refine h.known _ ?_
    rw [restingBids, restingAsks, ← List.map_append]
    exact List.mem_map_of_mem hp'
  bids := pairwise_kept h.bids hc.subBids
    (fun p hp => (hc.kept p (List.mem_append_left _ hp)).1)
  asks := pairwise_kept h.asks hc.subAsks
    (fun p hp => (hc.kept p (List.mem_append_right _ hp)).1)

/-- Removing an order leaves the others as they were. -/
theorem Removed.queued (h : InOrder arrived b) {p : OrderPointer}
    (hr : Removed b p b') : InOrder arrived b' := by
  obtain ⟨hbids, hasks⟩ := Removed.sub hr
  exact ⟨h.once, fun x hx => h.known x ((hbids.append hasks).subset hx),
    h.bids.sublist hbids, h.asks.sublist hasks⟩

/-- **`AddOrder` KEEPS THE ORDER OF ARRIVAL**: a free id is the last one, and
    any other is turned away. -/
theorem Adds.queued (hl : Linked b) (h : InOrder arrived b) {o : Order P}
    {ts : List (Trade P)} (ha : Adds b o b' ts) (hs : Sided o.side) :
    InOrder (arrive arrived
      (if b.orders.find? o.orderId = none then some o.orderId else none))
      b' := by
  have hrests : ∀ {arrived : List OrderId}, InOrder arrived b →
      InOrder arrived (b.makeShared o) := by
    intro arrived h
    obtain ⟨hbids, hasks⟩ := resting_makeShared hl o
    rw [InOrder, hbids, hasks]
    exact h
  by_cases hfree : b.orders.find? o.orderId = none
  · rw [if_pos hfree]
    have hfresh := Linked.fresh hl hfree
    cases ha with
    | rejected _ => exact hrests (Queued.arrives h hfresh)
    | admitted ha he =>
        obtain ⟨hside, hid, -, -⟩ := effective_terms ha.effective
        have hopened := Opened.queued h he.opened (by rw [hside]; exact hs)
          (by rw [hid]; exact hfresh)
        rw [hid] at hopened
        exact Conserved.queued hopened he.conserved
  · rw [if_neg hfree]
    cases ha with
    | rejected _ => exact hrests h
    | admitted ha _ => exact absurd ha.fresh hfree

/-- **EVERY CALL KEEPS THE ORDER OF ARRIVAL.** -/
theorem Does.queued (hl : Linked b) (h : InOrder arrived b) {c : Call P}
    (hs : callSided c) {ts : List (Trade P)} (hd : Does b c b' ts) :
    InOrder (arrive arrived (adds b c)) b' := by
  cases hd with
  | added ha => exact Adds.queued hl h ha hs
  | cancelled _ _ hr => exact Removed.queued h hr
  | notFound _ => exact h
  | @modified m p b1 _ _ hp hid hr ha =>
      have hthere : ¬ b.orders.find? m.orderId = none := by
        intro hnone
        exact hl.find?_eq_none.mp hnone p hp hid.symm
      have hgone : b1.orders.find? m.orderId = none := by
        refine Linked.absent hr.linked (fun x hx => ?_)
        have hside : x ∈ own b1 .buy ∨ x ∈ own b1 .sell := List.mem_append.mp hx
        rw [Removed.own_filter hl hp hr, Removed.own_filter hl hp hr,
          ← hid] at hside
        rcases hside with hx | hx
        · exact of_decide_eq_true (List.mem_filter.mp hx).2
        · exact of_decide_eq_true (List.mem_filter.mp hx).2
      have hadded := Adds.queued hr.linked (Removed.queued h hr) ha hs
      rw [adds, if_neg hthere]
      rw [show (m.toOrder (b.heap p).orderType).orderId = m.orderId from rfl,
        if_pos hgone] at hadded
      exact hadded
  | unknown hn =>
      rw [adds, if_pos hn]
      exact h

/-- **PRICE-TIME PRIORITY OF EVERY REACHABLE BOOK**: each side is sorted by
    price, and each level by the order in which the calls of the run added its
    orders. -/
theorem run_inOrder [Inhabited P] {calls : List (Call P)}
    (hs : ∀ c ∈ calls, callSided c) {history : List (List (Trade P))}
    (hrun : Orderbook.run .empty calls = .ok (b, history)) :
    Linked b ∧ InOrder (arrivals calls) b := by
  suffices h : Execution.execute Orderbook.call .empty calls
        = .ok (b, history) ∧ ((∀ c ∈ calls, callSided c) →
      Linked b ∧ InOrder (arrivals calls) b) from h.2 hs
  refine Execution.execute_trace (I := fun calls b history =>
    Execution.execute Orderbook.call .empty calls = .ok (b, history) ∧
      ((∀ c ∈ calls, callSided c) → Linked b ∧ InOrder (arrivals calls) b))
    ?_ ⟨rfl, fun _ => ⟨wellFormed_empty.linked, ?_⟩⟩ hrun
  · rintro calls b history c b' ts ⟨hrun, ih⟩ hcall
    refine ⟨Execution.execute_snoc hrun hcall, fun hs => ?_⟩
    obtain ⟨hl, h⟩ := ih (fun c hc => hs c (List.mem_append_left _ hc))
    have hsided := hs c (List.mem_append_right _ List.mem_cons_self)
    obtain ⟨b'', ts', hcall', hd⟩ := call_spec hl hsided
    rw [hcall] at hcall'
    cases hcall'
    rw [arrivals, arrivalsFrom_snoc hcall hrun]
    exact ⟨hd.linked hl, Does.queued hl h hsided hd⟩
  · exact ⟨List.nodup_nil, List.forall_mem_nil _, .nil, .nil⟩

/-- Orders that are cancelled or turned away stay in the history; a modified one
    has come last. -/
example : arrivals (P := Int)
    [.addOrder .goodTillCancel 1 .buy 100 5,
      .addOrder .goodTillCancel 2 .buy 100 3, .cancelOrder 2,
      .addOrder .goodTillCancel 3 .buy 100 2,
      .modifyOrder ⟨1, .buy, 100, 5⟩] = [2, 3, 1] := by decide

end Calls

end OsxArrival
