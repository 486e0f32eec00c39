import OsborneX.LevelDataProofs

/-! # Remainders — what a call leaves under every id

    An order that does not rest has nothing left.  An id then loses in a call
    exactly what the returned trades attribute to it, unless the call takes the
    order out: a cancel, a modification, or the Fill-And-Kill rule. -/

namespace OsxRemainder

open OsxOrderbook OsxCrossing OsxLink OsxMatching OsxCalls OsxRepresentation
open OsxSweep OsxReachable OsxLevelData

variable {P : Type} [LinearOrder P] {b b' : Orderbook P} {o : Order P}
  {ts : List (Trade P)}

/-- What rests under an id. -/
def remainder (b : Orderbook P) (orderId : OrderId) : Nat :=
  match b.orders.find? orderId with
  | some entry => (b.heap entry.order).remainingQuantity
  | none => 0

theorem remainder_of_absent {id : OrderId} (h : b.orders.find? id = none) :
    remainder b id = 0 := by
  rw [remainder, h]

theorem remainder_of_mem (hl : Linked b) {p : OrderPointer}
    (hp : p ∈ pointers b) :
    remainder b (b.heap p).orderId = (b.heap p).remainingQuantity := by
  have hfind := (hl.index (b.heap p).orderId ⟨p, p⟩).mpr ⟨p, hp, rfl, rfl⟩
  rw [remainder, hfind]

/-- An order rests under every id in the index. -/
theorem exists_pointer (hl : Linked b) {id : OrderId}
    (h : b.orders.find? id ≠ none) :
    ∃ p ∈ pointers b, (b.heap p).orderId = id := by
  obtain ⟨entry, hfind⟩ := Option.ne_none_iff_exists'.mp h
  obtain ⟨p, hp, hid, -⟩ := (hl.index id entry).mp hfind
  exact ⟨p, hp, hid⟩

/-- **THE OTHERS ONLY TRADE**: under any other id, what rested before was
    traded or still rests. -/
def OthersKept (b b' : Orderbook P) (orderId : OrderId)
    (ts : List (Trade P)) : Prop :=
  ∀ id, id ≠ orderId → remainder b id = tradedQuantity id ts + remainder b' id

/-! ## Matching -/

/-- An order that matching may not kill splits into what it traded and what
    rests of it. -/
theorem Conserved.remainder (hl : Linked b) (hl' : Linked b')
    (h : Conserved b b' ts) {p : OrderPointer} (hp : p ∈ pointers b)
    (hk : (b.heap p).orderType ≠ .fillAndKill) :
    (b.heap p).remainingQuantity
      = tradedQuantity (b.heap p).orderId ts
        + OsxRemainder.remainder b' (b.heap p).orderId := by
  obtain ⟨hterms, hsum⟩ := h.kept p hp
  have hid : (b'.heap p).orderId = (b.heap p).orderId := hterms.fields.2.1
  by_cases hin : p ∈ pointers b'
  · have hrest := remainder_of_mem hl' hin
    rw [hid] at hrest
    omega
  · -- it left the book, so it was filled
    have hzero : (b'.heap p).remainingQuantity = 0 := by
      rcases h.left p hp hin with h1 | h1
      · exact h1
      · exact absurd h1 hk
    have hgone : b'.orders.find? (b.heap p).orderId = none := by
      by_contra hne
      obtain ⟨r, hr, hrid⟩ := exists_pointer hl' hne
      have hrb := h.sub.subset hr
      rw [(h.kept r hrb).1.fields.2.1] at hrid
      rw [hl.pointer_unique hrb hp hrid] at hr
      exact hin hr
    rw [remainder_of_absent hgone]
    omega

/-- An id under which nothing rests neither trades nor comes to rest. -/
theorem Conserved.strange (hl' : Linked b') (h : Conserved b b' ts)
    {id : OrderId} (hn : ∀ p ∈ pointers b, (b.heap p).orderId ≠ id) :
    tradedQuantity id ts = 0 ∧ b'.orders.find? id = none := by
  constructor
  · refine tradedQuantity_eq_zero (fun t ht hname => ?_)
    obtain ⟨⟨p, hp, hbid⟩, ⟨r, hr, hask⟩, -⟩ := h.named t ht
    rcases hname with h1 | h1
    · exact hn p (List.mem_append.mpr (Or.inl hp)) (hbid.trans h1)
    · exact hn r (List.mem_append.mpr (Or.inr hr)) (hask.trans h1)
  · refine hl'.find?_eq_none.mpr (fun p hp hid => ?_)
    have hpb := h.sub.subset hp
    rw [(h.kept p hpb).1.fields.2.1] at hid
    exact hn p hpb hid

/-! ## Adding -/

/-- The opened book holds the new order under its own pointer, and every other
    order as it was. -/
theorem Opened.stands {b2 : Orderbook P} (hl : Linked b)
    (h : Opened b o b2) (hs : Sided o.side) :
    (b.next ∈ pointers b2 ∧ b2.heap b.next = o) ∧
    ∀ p ∈ pointers b, p ∈ pointers b2 ∧ b2.heap p = b.heap p := by
  have hperm := h.pointers_perm hs
  rw [h.heap]
  refine ⟨⟨hperm.mem_iff.mpr List.mem_cons_self, Function.update_self ..⟩,
    fun p hp => ⟨hperm.mem_iff.mpr (List.mem_cons_of_mem _ hp), ?_⟩⟩
  refine Function.update_of_ne ?_ ..
  rintro rfl
  exact Linked.next_fresh hl hp

/-- **AN EXECUTED ORDER** splits into what it traded and what rests of it, if
    matching may not kill it; the others only trade. -/
theorem Executed.remainder {b2 : Orderbook P} {log : List (Round P)}
    (hst : Steady b) (he : Executed b o b2 b' log) (hs : Sided o.side) :
    (o.orderType ≠ .fillAndKill →
      o.remainingQuantity = tradedQuantity o.orderId (trades log)
        + OsxRemainder.remainder b' o.orderId) ∧
    OthersKept b b' o.orderId (trades log) := by
  have hl := hst.wellFormed.linked
  have hl2 := he.opened.linked
  obtain ⟨⟨hin, hat⟩, hstands⟩ := Opened.stands hl he.opened hs
  constructor
  · intro hk
    have hsplit := Conserved.remainder hl2 he.linked he.conserved hin
      (by rw [hat]; exact hk)
    rw [hat] at hsplit
    exact hsplit
  · intro id hid
    by_cases hfind : b.orders.find? id = none
    · have hnone : ∀ p ∈ pointers b2, (b2.heap p).orderId ≠ id := by
        intro p hp hpid
        rcases List.mem_cons.mp ((he.opened.pointers_perm hs).mem_iff.mp hp)
          with rfl | hpb
        · rw [hat] at hpid
          exact hid hpid.symm
        · rw [(hstands p hpb).2] at hpid
          exact hl.find?_eq_none.mp hfind p hpb hpid
      obtain ⟨hzero, hgone⟩ :=
        Conserved.strange he.linked he.conserved hnone
      rw [remainder_of_absent hfind, remainder_of_absent hgone, hzero]
    · obtain ⟨p, hp, rfl⟩ := exists_pointer hl hfind
      obtain ⟨hp2, hheap⟩ := hstands p hp
      -- a resting order is no Fill-And-Kill
      have hk : (b.heap p).orderType ≠ .fillAndKill := by
        have hx : b.heap p ∈ resting b := by
          rw [resting_eq]
          exact List.mem_map_of_mem hp
        rcases List.mem_append.mp hx with h1 | h1
        · exact hst.settled .buy _ h1
        · exact hst.settled .sell _ h1
      have hsplit := Conserved.remainder hl2 he.linked he.conserved hp2
        (by rw [hheap]; exact hk)
      rw [hheap] at hsplit
      rw [remainder_of_mem hl hp]
      exact hsplit

/-- An executed order whose side ends as it was does not rest. -/
theorem Executed.absent {b2 : Orderbook P} {log : List (Round P)}
    (hst : Steady b) (he : Executed b o b2 b' log) (hs : Sided o.side)
    (hfresh : b.orders.find? o.orderId = none)
    (hown : own b' o.side = own b o.side) :
    b'.orders.find? o.orderId = none := by
  have hsweep := Executed.sweep hst.wellFormed hst.settled hs he
  have hbefore : ∀ x ∈ own b o.side ++ opposite b o.side,
      x.orderId ≠ o.orderId := fun x hx =>
    Linked.fresh hst.wellFormed.linked hfresh x
      ((sides_perm hs b).mem_iff.mp hx)
  refine Linked.absent he.linked (fun x hx => ?_)
  rcases List.mem_append.mp ((sides_perm hs b').mem_iff.mpr hx) with hx | hx
  · rw [hown] at hx
    exact hbefore x (List.mem_append.mpr (Or.inl hx))
  · obtain ⟨y, hy, hterms⟩ := Sweep.opp_terms hsweep x hx
    rw [hterms.fields.2.1]
    exact hbefore y (List.mem_append.mpr (Or.inr hy))

/-- A refused order leaves every remainder. -/
theorem remainder_makeShared (hl : Linked b) (o : Order P) (id : OrderId) :
    remainder (b.makeShared o) id = remainder b id := by
  by_cases hfind : b.orders.find? id = none
  · rw [remainder_of_absent hfind, remainder_of_absent]
    exact hfind
  · obtain ⟨p, hp, rfl⟩ := exists_pointer hl hfind
    have hne : p ≠ b.next := by
      rintro rfl
      exact Linked.next_fresh hl hp
    have hheap : (b.makeShared o).heap p = b.heap p :=
      Function.update_of_ne hne ..
    have hshared := remainder_of_mem (Linked.makeShared hl o)
      (show p ∈ pointers (b.makeShared o) from hp)
    rw [hheap] at hshared
    rw [hshared, remainder_of_mem hl hp]

/-- **ADDING AN ORDER** only trades under the other ids. -/
theorem Adds.othersKept (hst : Steady b) (ha : Adds b o b' ts)
    (hs : Sided o.side) : OthersKept b b' o.orderId ts := by
  cases ha with
  | rejected hno =>
      intro id _
      rw [remainder_makeShared hst.wellFormed.linked, tradedQuantity_nil,
        Nat.zero_add]
  | @admitted o' b2 _ log ha he =>
      obtain ⟨hside, hid, -, -⟩ := effective_terms ha.effective
      rw [← hid]
      exact (Executed.remainder hst he (by rw [hside]; exact hs)).2

/-! ## Removing -/

/-- A removal takes its pointer, and no other. -/
theorem Removed.mem_pointers {p : OrderPointer} (hr : Removed b p b')
    (r : OrderPointer) : r ∈ pointers b' ↔ r ∈ pointers b ∧ r ≠ p := by
  rw [pointers, hr.bids, hr.asks, ← List.filter_append, List.mem_filter]
  simp [pointers]

/-- Nothing rests under the id any more. -/
theorem Removed.absent (hl : Linked b) {p : OrderPointer}
    (hp : p ∈ pointers b) (hr : Removed b p b') :
    b'.orders.find? (b.heap p).orderId = none := by
  refine hr.linked.find?_eq_none.mpr (fun r hrp hid => ?_)
  obtain ⟨hrb, hne⟩ := (Removed.mem_pointers hr r).mp hrp
  rw [hr.heap] at hid
  exact hne (hl.pointer_unique hrb hp hid)

/-- Removing an order leaves every other remainder. -/
theorem Removed.remainder (hl : Linked b) {p : OrderPointer}
    (hr : Removed b p b') {id : OrderId}
    (hid : id ≠ (b.heap p).orderId) :
    OsxRemainder.remainder b' id = OsxRemainder.remainder b id := by
  have hmem := Removed.mem_pointers hr
  by_cases hfind : b.orders.find? id = none
  · have hgone : b'.orders.find? id = none := by
      refine hr.linked.find?_eq_none.mpr (fun r hrp => ?_)
      rw [hr.heap]
      exact hl.find?_eq_none.mp hfind r ((hmem r).mp hrp).1
    rw [remainder_of_absent hfind, remainder_of_absent hgone]
  · obtain ⟨r, hrp, rfl⟩ := exists_pointer hl hfind
    have hne : r ≠ p := by
      rintro rfl
      exact hid rfl
    have hkept := remainder_of_mem hr.linked ((hmem r).mpr ⟨hrp, hne⟩)
    rw [hr.heap] at hkept
    rw [hkept, remainder_of_mem hl hrp]

end OsxRemainder
