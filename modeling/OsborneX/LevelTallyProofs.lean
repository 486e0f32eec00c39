import OsborneX.ReachableProofs

/-! # Tallies — what one aggregate knows about one price

    An entry of `levelData` is read against the orders it stands for: `Tallied`
    says that the entry at a price counts the orders of a list there and holds
    their quantity modulo 2^32, and is absent when there are none.

    Each of the three updates keeps a tally when the list moves with it, so a
    whole round of matching does, except where it ERASES an entry outright.
    Whether the fills of a pairing are booked bid first or ask first does not
    matter to a tally. -/

namespace OsxTally

open OsxOrderbook OsxCrossing OsxLink OsxMatching OsxCalls OsxRepresentation
open OsxSweep OsxReachable

variable {P : Type}

/-! ## Counting the orders at a price -/

section Counting

variable [DecidableEq P] {x : P} {o : Order P} {L M : List (Order P)}

/-- The orders of a list at a price. -/
def restingAt (x : P) (L : List (Order P)) : List (Order P) :=
  L.filter (fun o => o.price = x)

/-- How many orders of the list are at the price. -/
def countAt (x : P) (L : List (Order P)) : Nat := (restingAt x L).length

/-- What is left of the orders of the list at the price. -/
def quantityAt (x : P) (L : List (Order P)) : Nat :=
  ((restingAt x L).map Order.remainingQuantity).sum

@[simp] theorem countAt_nil : countAt x ([] : List (Order P)) = 0 := rfl

@[simp] theorem quantityAt_nil : quantityAt x ([] : List (Order P)) = 0 := rfl

theorem countAt_cons :
    countAt x (o :: L) = (if o.price = x then 1 else 0) + countAt x L := by
  simp only [countAt, restingAt]
  by_cases h : o.price = x
  · rw [List.filter_cons, if_pos (by simpa using h), if_pos h,
      List.length_cons, Nat.add_comm]
  · rw [List.filter_cons, if_neg (by simpa using h), if_neg h, Nat.zero_add]

theorem quantityAt_cons :
    quantityAt x (o :: L)
      = (if o.price = x then o.remainingQuantity else 0)
        + quantityAt x L := by
  simp only [quantityAt, restingAt]
  by_cases h : o.price = x
  · rw [List.filter_cons, if_pos (by simpa using h), if_pos h, List.map_cons,
      List.sum_cons]
  · rw [List.filter_cons, if_neg (by simpa using h), if_neg h, Nat.zero_add]

theorem countAt_append :
    countAt x (L ++ M) = countAt x L + countAt x M := by
  simp only [countAt, restingAt]
  rw [List.filter_append, List.length_append]

theorem quantityAt_append :
    quantityAt x (L ++ M) = quantityAt x L + quantityAt x M := by
  simp only [quantityAt, restingAt]
  rw [List.filter_append, List.map_append, List.sum_append]

theorem countAt_perm (h : L.Perm M) : countAt x L = countAt x M :=
  (h.filter _).length_eq

theorem quantityAt_perm (h : L.Perm M) : quantityAt x L = quantityAt x M :=
  ((h.filter _).map _).sum_nat

/-- No order of the list is at the price. -/
theorem countAt_eq_zero : countAt x L = 0 ↔ ∀ o ∈ L, o.price ≠ x := by
  rw [countAt, restingAt, List.length_eq_zero_iff, List.filter_eq_nil_iff]
  simp

theorem quantityAt_eq_zero (h : ∀ o ∈ L, o.price ≠ x) :
    quantityAt x L = 0 := by
  rw [quantityAt, restingAt, List.filter_eq_nil_iff.mpr (by simpa using h)]
  rfl

/-- Orders with something left weigh at least one each. -/
theorem countAt_le_quantityAt (h : ∀ o ∈ L, 0 < o.remainingQuantity) :
    countAt x L ≤ quantityAt x L := by
  induction L with
  | nil => exact Nat.le_refl _
  | cons o L ih =>
      have hL := ih (fun r hr => h r (List.mem_cons_of_mem _ hr))
      have ho := h o List.mem_cons_self
      rw [countAt_cons, quantityAt_cons]
      split <;> omega

end Counting

theorem leave_perm {o : Order P} {L M : List (Order P)} (h : L.Perm M) :
    (leave o L).Perm (leave o M) := by
  simp only [leave]
  split
  · exact h
  · exact h.cons o

theorem leave_append (o : Order P) (L M : List (Order P)) :
    leave o (L ++ M) = leave o L ++ M := by
  simp only [leave]
  split <;> rfl

/-- Putting an order back commutes with the orders before it. -/
theorem leave_middle (o : Order P) (L M : List (Order P)) :
    (L ++ leave o M).Perm (leave o (L ++ M)) := by
  simp only [leave]
  split
  · exact List.Perm.refl _
  · exact List.perm_middle

/-! ## One entry -/

section Entry

variable [BEq P] {ld : LevelDataMap P} {x k : P} {n s q : Nat}

/-- The entry at `x` counts `n` orders and holds `s`, up to the 32 bits of the
    quantity; the count itself has not wrapped. -/
def Holds (ld : LevelDataMap P) (x : P) (n s : Nat) : Prop :=
  n < 2 ^ 32 ∧
    ld.find? x = if n = 0 then none else some ⟨s % 2 ^ 32, n⟩

/-- The entry an update starts from. -/
theorem Holds.getD (h : Holds ld x n s) :
    (ld.find? x).getD .zero
      = if n = 0 then .zero else ⟨s % 2 ^ 32, n⟩ := by
  rw [h.2]
  split <;> rfl

theorem wrapSub_add (a b : Nat) :
    wrapSub ((a + b) % 2 ^ 32) b = a % 2 ^ 32 := by
  rw [wrapSub]
  omega

theorem wrapAdd_mod (a b : Nat) :
    wrapAdd (a % 2 ^ 32) b = (a + b) % 2 ^ 32 := by
  rw [wrapAdd]
  omega

variable [LawfulBEq P] [DecidableEq P]

/-- An update only touches its own price. -/
theorem find?_update (ld : LevelDataMap P) (k x : P) (q : Nat)
    (action : Action) :
    (updateLevelData ld k q action).find? x
      = if x = k then
          (if (((ld.find? k).getD .zero).apply q action).count = 0 then none
            else some (((ld.find? k).getD .zero).apply q action))
        else ld.find? x := by
  rw [updateLevelData]
  by_cases hc : (((ld.find? k).getD .zero).apply q action).count = 0
  · simp only [hc, if_true]
    rw [HashTable.find?_erase, HashTable.find?_upsert]
    by_cases hx : x = k
    · rw [if_pos hx, if_pos hx]
    · rw [if_neg hx, if_neg hx, if_neg hx]
  · simp only [hc, if_false]
    rw [HashTable.find?_upsert]

theorem Holds.other (h : Holds ld x n s) (hx : x ≠ k) (action : Action) :
    Holds (updateLevelData ld k q action) x n s := by
  refine ⟨h.1, ?_⟩
  rw [find?_update, if_neg hx]
  exact h.2

theorem Holds.add (h : Holds ld k n s) (hs : n = 0 → s = 0)
    (hn : n + 1 < 2 ^ 32) :
    Holds (updateLevelData ld k q .add) k (n + 1) (s + q) := by
  refine ⟨hn, ?_⟩
  have hdata : ((ld.find? k).getD .zero).apply q .add
      = ⟨(s + q) % 2 ^ 32, n + 1⟩ := by
    rw [h.getD]
    have hcount : wrapAdd n 1 = n + 1 := by
      rw [wrapAdd]
      omega
    by_cases h0 : n = 0
    · have hs0 := hs h0
      subst h0 hs0
      show LevelData.mk (wrapAdd 0 q) (wrapAdd 0 1) = _
      rw [hcount]
      rfl
    · rw [if_neg h0]
      show LevelData.mk (wrapAdd (s % 2 ^ 32) q) (wrapAdd n 1) = _
      rw [hcount, wrapAdd_mod]
  rw [find?_update, if_pos rfl, hdata]

theorem Holds.remove (h : Holds ld k (n + 1) (s + q)) :
    Holds (updateLevelData ld k q .remove) k n s := by
  have hn := h.1
  refine ⟨by omega, ?_⟩
  have hdata : ((ld.find? k).getD .zero).apply q .remove
      = ⟨s % 2 ^ 32, n⟩ := by
    rw [h.getD, if_neg (by omega)]
    show LevelData.mk (wrapSub ((s + q) % 2 ^ 32) q) (wrapSub (n + 1) 1) = _
    have hcount : wrapSub (n + 1) 1 = n := by
      rw [wrapSub]
      omega
    rw [hcount, wrapSub_add]
  rw [find?_update, if_pos rfl, hdata]

theorem Holds.matched (h : Holds ld k (n + 1) (s + q)) :
    Holds (updateLevelData ld k q .matched) k (n + 1) s := by
  have hn := h.1
  refine ⟨hn, ?_⟩
  have hdata : ((ld.find? k).getD .zero).apply q .matched
      = ⟨s % 2 ^ 32, n + 1⟩ := by
    rw [h.getD, if_neg (by omega)]
    show LevelData.mk (wrapSub ((s + q) % 2 ^ 32) q) (n + 1) = _
    rw [wrapSub_add]
  rw [find?_update, if_pos rfl, hdata]

end Entry

/-! ## The orders behind an entry -/

section Tally

variable [LinearOrder P] {ld : LevelDataMap P} {x : P} {o : Order P}
  {L M R : List (Order P)}

/-- The entry at `x` stands for the orders of `L` there. -/
def Tallied (x : P) (ld : LevelDataMap P) (L : List (Order P)) : Prop :=
  Holds ld x (countAt x L) (quantityAt x L)

theorem Tallied.perm (h : Tallied x ld L) (hp : L.Perm M) :
    Tallied x ld M := by
  rw [Tallied]
  rw [← countAt_perm hp, ← quantityAt_perm hp]
  exact h

/-- Booking a new order. -/
theorem Tallied.add (h : Tallied x ld L)
    (hn : o.price = x → countAt x L + 1 < 2 ^ 32) :
    Tallied x (updateLevelData ld o.price o.remainingQuantity .add)
      (o :: L) := by
  rw [Tallied] at *
  rw [countAt_cons, quantityAt_cons]
  by_cases hx : o.price = x
  · rw [if_pos hx, if_pos hx, Nat.add_comm 1, Nat.add_comm o.remainingQuantity,
      hx]
    refine h.add (fun h0 => ?_) (hn hx)
    exact quantityAt_eq_zero (countAt_eq_zero.mp h0)
  · rw [if_neg hx, if_neg hx, Nat.zero_add, Nat.zero_add]
    exact h.other (fun e => hx e.symm) .add

/-- Booking a removal. -/
theorem Tallied.remove (h : Tallied x ld (o :: L)) :
    Tallied x (updateLevelData ld o.price o.remainingQuantity .remove) L := by
  rw [Tallied] at *
  rw [countAt_cons, quantityAt_cons] at h
  by_cases hx : o.price = x
  · rw [if_pos hx, if_pos hx, Nat.add_comm 1,
      Nat.add_comm o.remainingQuantity] at h
    rw [hx]
    exact h.remove
  · rw [if_neg hx, if_neg hx, Nat.zero_add, Nat.zero_add] at h
    exact h.other (fun e => hx e.symm) .remove

/-- Booking a fill: the order stays with what is left, or leaves when it is
    filled. -/
theorem Tallied.fill {q : Nat} (h : Tallied x ld (o :: L))
    (hq : q ≤ o.remainingQuantity) :
    Tallied x (onOrderMatched ld o.price q (o.fill q).isFilled)
      (leave (o.fill q) L) := by
  by_cases hf : (o.fill q).isFilled = true
  · have hqo : o.remainingQuantity = q := (isFilled_fill hq).mp hf
    rw [onOrderMatched, if_pos hf, leave, if_pos hf, ← hqo]
    exact h.remove
  · rw [onOrderMatched, if_neg hf, leave, if_neg hf]
    rw [Tallied] at *
    rw [countAt_cons, quantityAt_cons] at h ⊢
    rw [fill_price, fill_remainingQuantity hq]
    by_cases hx : o.price = x
    · rw [if_pos hx, if_pos hx] at h ⊢
      have hsum : o.remainingQuantity + quantityAt x L
          = (o.remainingQuantity - q + quantityAt x L) + q := by omega
      rw [hsum, Nat.add_comm 1] at h
      rw [Nat.add_comm 1, hx]
      exact h.matched
    · rw [if_neg hx, if_neg hx] at h ⊢
      exact h.other (fun e => hx e.symm) .matched

/-- Booking a pairing, for two of the orders a tally counts. -/
theorem Tallied.pairing {p : Pairing P}
    (h : Tallied x ld (p.bid :: p.ask :: R))
    (hbid : p.quantity ≤ p.bid.remainingQuantity)
    (hask : p.quantity ≤ p.ask.remainingQuantity) :
    Tallied x (Pairing.apply ld p)
      (leave (p.bid.fill p.quantity) (leave (p.ask.fill p.quantity) R)) := by
  have h1 := h.fill hbid
  have h2 : Tallied x _ (p.ask :: leave (p.bid.fill p.quantity) R) :=
    h1.perm (leave_middle _ [p.ask] R).symm
  have h3 := h2.fill hask
  refine h3.perm ?_
  simp only [leave]
  split <;> split
  · exact List.Perm.refl _
  · exact List.Perm.refl _
  · exact List.Perm.refl _
  · exact List.Perm.swap _ _ _

/-! ## A round -/

/-- The pairing as the book made it, for an incoming order on `side`. -/
def pairingOn : Side → Pairing P → Pairing P
  | .sell, p => p.swap
  | _, p => p

/-- The round as the book made it, for an incoming order on `side`. -/
def roundOn : Side → Round P → Round P
  | .sell, r => r.swap
  | _, r => r

/-- The aggregates after some pairings. -/
def pairsBooked (side : Side) (ld : LevelDataMap P)
    (pairs : List (Pairing P)) : LevelDataMap P :=
  pairs.foldl (fun ld p => Pairing.apply ld (pairingOn side p)) ld

/-- The aggregates after a log of an incoming order on `side`. -/
def booked (side : Side) (ld : LevelDataMap P) (log : List (Round P)) :
    LevelDataMap P :=
  log.foldl (fun ld r => (roundOn side r).apply ld) ld

theorem booked_oriented {side : Side} (hs : Sided side)
    (ld : LevelDataMap P) (log : List (Round P)) :
    log.foldl Round.apply ld = booked side ld (oriented side log) := by
  rcases hs with rfl | rfl
  · rfl
  · have hback : ∀ r : Round P, roundOn .sell r.swap = r := Round.swap_swap
    simp only [booked, oriented, List.foldl_map, hback]

/-- **THE INNER LOOP KEEPS A TALLY**, `R` being the orders it does not see. -/
theorem Cross.tallied (side : Side) {xs ys xs' ys' : List (Order P)}
    {pairs : List (Pairing P)} (h : Cross xs ys pairs xs' ys') :
    ∀ (ld : LevelDataMap P), Tallied x ld (xs ++ (ys ++ R)) →
      Tallied x (pairsBooked side ld pairs) (xs' ++ (ys' ++ R)) := by
  induction h with
  | done _ => exact fun _ h => h
  | @pair a b xs ys xs' ys' pairs q hq _ ih =>
      intro ld h
      have ha : q ≤ a.remainingQuantity := by
        rw [hq]; exact Nat.min_le_left _ _
      have hb : q ≤ b.remainingQuantity := by
        rw [hq]; exact Nat.min_le_right _ _
      have hfronts : Tallied x ld (a :: b :: (xs ++ (ys ++ R))) :=
        h.perm (List.Perm.cons a List.perm_middle)
      -- whichever fill is booked first, the same orders are left
      have hleft : (leave (a.fill q) (leave (b.fill q) (xs ++ (ys ++ R)))).Perm
          (leave (a.fill q) xs ++ (leave (b.fill q) ys ++ R)) := by
        rw [← leave_append, ← leave_append]
        exact leave_perm (leave_middle _ _ _).symm
      have hpair : Tallied x (Pairing.apply ld (pairingOn side ⟨a, b, q⟩))
          (leave (a.fill q) xs ++ (leave (b.fill q) ys ++ R)) := by
        cases side with
        | sell =>
            have h1 : Tallied x _ (leave (b.fill q)
                (leave (a.fill q) (xs ++ (ys ++ R)))) :=
              Tallied.pairing (p := ⟨b, a, q⟩)
                (hfronts.perm (List.Perm.swap _ _ _)) hb ha
            refine h1.perm (List.Perm.trans ?_ hleft)
            simp only [leave]
            split <;> split
            · exact List.Perm.refl _
            · exact List.Perm.refl _
            · exact List.Perm.refl _
            · exact List.Perm.swap _ _ _
        | buy =>
            have h1 : Tallied x _ (leave (a.fill q)
                (leave (b.fill q) (xs ++ (ys ++ R)))) :=
              Tallied.pairing (p := ⟨a, b, q⟩) hfronts ha hb
            exact h1.perm hleft
        | other _ =>
            have h1 : Tallied x _ (leave (a.fill q)
                (leave (b.fill q) (xs ++ (ys ++ R)))) :=
              Tallied.pairing (p := ⟨a, b, q⟩) hfronts ha hb
            exact h1.perm hleft
      exact ih _ hpair

/-- What the two erasures of a round leave. -/
def gone (r : Round P) (x : P) : Prop :=
  (r.bidsGone = true ∧ x = r.bidPrice) ∨ (r.asksGone = true ∧ x = r.askPrice)

theorem find?_dropLevel (ld : LevelDataMap P) (k : P) (g : Bool) (x : P) :
    (dropLevel ld k g).find? x
      = if g = true ∧ x = k then none else ld.find? x := by
  cases g with
  | false => simp [dropLevel]
  | true =>
      show (ld.erase k).find? x = _
      rw [HashTable.find?_erase]
      simp

/-- A round books its pairings, erases the entries of the emptied levels, and
    books a kill of the incoming order. -/
theorem apply_roundOn (side : Side) (ld : LevelDataMap P) (r : Round P)
    (hk : r.killedAsk = none) :
    ∃ D : LevelDataMap P,
      (roundOn side r).apply ld = dropOrder D r.killedBid ∧
      ∀ x, (gone r x → D.find? x = none) ∧
        (¬ gone r x → D.find? x = (pairsBooked side ld r.pairs).find? x) := by
  have hdrop : ∀ (E : LevelDataMap P), dropOrder E none = E := fun _ => rfl
  have hlookup : ∀ (E D : LevelDataMap P),
      (∀ x, D.find? x = if r.asksGone = true ∧ x = r.askPrice then none
        else if r.bidsGone = true ∧ x = r.bidPrice then none
          else E.find? x) →
      ∀ x, (gone r x → D.find? x = none) ∧
        (¬ gone r x → D.find? x = E.find? x) := by
    intro E D hD x
    rw [hD]
    constructor
    · rintro (h | h)
      · by_cases ha : r.asksGone = true ∧ x = r.askPrice
        · rw [if_pos ha]
        · rw [if_neg ha, if_pos h]
      · rw [if_pos h]
    · intro hno
      rw [if_neg (fun h => hno (Or.inr h)), if_neg (fun h => hno (Or.inl h))]
  cases side with
  | sell =>
      refine ⟨_, ?_, hlookup (pairsBooked .sell ld r.pairs) (dropLevel
        (dropLevel (pairsBooked .sell ld r.pairs) r.askPrice r.asksGone)
        r.bidPrice r.bidsGone) ?_⟩
      · show dropOrder (dropOrder (dropLevel (dropLevel
          ((r.pairs.map Pairing.swap).foldl Pairing.apply ld) _ _) _ _)
          r.killedAsk) r.killedBid = _
        rw [hk, hdrop, List.foldl_map]
        rfl
      · intro x
        rw [find?_dropLevel, find?_dropLevel]
        split <;> split <;> rfl
  | buy =>
      refine ⟨_, ?_, hlookup (pairsBooked .buy ld r.pairs) (dropLevel
        (dropLevel (pairsBooked .buy ld r.pairs) r.bidPrice r.bidsGone)
        r.askPrice r.asksGone) ?_⟩
      · show dropOrder (dropOrder _ r.killedBid) r.killedAsk = _
        rw [hk, hdrop]
        rfl
      · intro x
        rw [find?_dropLevel, find?_dropLevel]
  | other _ =>
      refine ⟨_, ?_, hlookup (pairsBooked .buy ld r.pairs) (dropLevel
        (dropLevel (pairsBooked .buy ld r.pairs) r.bidPrice r.bidsGone)
        r.askPrice r.asksGone) ?_⟩
      · show dropOrder (dropOrder _ r.killedBid) r.killedAsk = _
        rw [hk, hdrop]
        rfl
      · intro x
        rw [find?_dropLevel, find?_dropLevel]

end Tally

end OsxTally
