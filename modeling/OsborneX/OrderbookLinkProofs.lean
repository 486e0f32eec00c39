import OsborneX.CrossingProofs

/-! # Links — the redundant structures agree

    `Linked` says that the level maps, the index and the heap describe one set
    of resting orders: every pointer in a level list is indexed under its
    order's id and nothing else is, every level is non-empty and holds orders
    of its own side and price, and no id occurs twice.

    The first half works on ONE side of the book, for any strict total price
    comparison, and computes what erasing a node, storing a level back and
    appending a node do to the list of resting orders. -/

namespace OsxLink

open OsxOrderbook OsxCrossing

variable {P : Type} {lt : P → P → Prop}

/-! ## One side of the book -/

/-- The pointers of a side, best level first and oldest first in a level. -/
def pointersOf (levels : Levels P lt) : List OrderPointer :=
  levels.entries.flatMap Prod.snd

/-- Every level is non-empty and holds orders of its own side and price. -/
structure Housed (heap : OrderPointer → Order P) (side : Side)
    (levels : Levels P lt) : Prop where
  nonempty : ∀ e ∈ levels.entries, e.2 ≠ []
  placed : ∀ e ∈ levels.entries, ∀ p ∈ e.2,
    (heap p).side = side ∧ (heap p).price = e.1

theorem mem_pointersOf {levels : Levels P lt} {p : OrderPointer} :
    p ∈ pointersOf levels ↔ ∃ e ∈ levels.entries, p ∈ e.2 :=
  List.mem_flatMap

/-- Housing only reads the pointers it houses. -/
theorem Housed.congr {heap heap' : OrderPointer → Order P} {side : Side}
    {levels : Levels P lt} (h : Housed heap side levels)
    (hs : ∀ p ∈ pointersOf levels, (heap' p).side = (heap p).side)
    (hp : ∀ p ∈ pointersOf levels, (heap' p).price = (heap p).price) :
    Housed heap' side levels where
  nonempty := h.nonempty
  placed := by
    intro e he p hpe
    have hmem : p ∈ pointersOf levels := mem_pointersOf.mpr ⟨e, he, hpe⟩
    obtain ⟨h1, h2⟩ := h.placed e he p hpe
    exact ⟨(hs p hmem).trans h1, (hp p hmem).trans h2⟩

/-- Around a level: the pointers before it, in it and after it. -/
theorem pointersOf_middle {levels : Levels P lt} {k : P}
    {l : List OrderPointer} {before after : List (P × List OrderPointer)}
    (h : levels.entries = before ++ (k, l) :: after) :
    pointersOf levels
      = before.flatMap Prod.snd ++ (l ++ after.flatMap Prod.snd) := by
  rw [pointersOf, h, List.flatMap_append, List.flatMap_cons]

/-- Levels behind the best one hold strictly worse prices. -/
theorem Housed.behind_best {levels : Levels P lt}
    {heap : OrderPointer → Order P} {side : Side} {k : P}
    {l : List OrderPointer} {rest : List (P × List OrderPointer)}
    (h : Housed heap side levels) (heq : levels.entries = (k, l) :: rest) :
    (∀ o ∈ l.map heap, o.price = k) ∧
      ∀ o ∈ (rest.flatMap Prod.snd).map heap, lt k o.price := by
  constructor
  · intro o ho
    obtain ⟨p, hp, rfl⟩ := List.mem_map.mp ho
    exact (h.placed (k, l) (by rw [heq]; simp) p hp).2
  · intro o ho
    obtain ⟨p, hp, rfl⟩ := List.mem_map.mp ho
    obtain ⟨e, he, hpe⟩ := List.mem_flatMap.mp hp
    have hs := levels.sorted
    rw [heq] at hs
    rw [(h.placed e (by rw [heq]; exact List.mem_cons_of_mem _ he) p hpe).2]
    exact (List.pairwise_cons.mp hs).1 e he

/-- The split of a side at its best level, on the pointers. -/
theorem pointersOf_best {levels : Levels P lt} {k : P}
    {l : List OrderPointer} {rest : List (P × List OrderPointer)}
    (heq : levels.entries = (k, l) :: rest) :
    pointersOf levels = l ++ rest.flatMap Prod.snd := by
  rw [pointersOf, heq, List.flatMap_cons]

section Strict

variable [IsStrictTotalOrder P lt]

/-- Best price first. -/
theorem Housed.sorted {heap : OrderPointer → Order P} {side : Side}
    {levels : Levels P lt} (h : Housed heap side levels) :
    ((pointersOf levels).map heap).Pairwise
      (fun x y => ¬ lt y.price x.price) := by
  rw [List.pairwise_map]
  obtain ⟨entries, hsorted⟩ := levels
  have hplaced : ∀ e ∈ entries, ∀ p ∈ e.2, (heap p).price = e.1 :=
    fun e he p hp => (h.placed e he p hp).2
  show (entries.flatMap Prod.snd).Pairwise
    (fun p r => ¬ lt (heap r).price (heap p).price)
  clear h
  induction entries with
  | nil => exact List.Pairwise.nil
  | cons e rest ih =>
      obtain ⟨hhd, hrest⟩ := List.pairwise_cons.mp hsorted
      rw [List.flatMap_cons]
      refine List.pairwise_append.mpr ⟨?_, ih hrest (fun e' he' =>
        hplaced e' (List.mem_cons_of_mem _ he')), ?_⟩
      · refine List.Pairwise.imp_of_mem ?_ (List.pairwise_of_forall
          (fun (_ _ : OrderPointer) => trivial))
        intro p r hp hr _
        rw [hplaced e List.mem_cons_self p hp,
          hplaced e List.mem_cons_self r hr]
        exact irrefl_of lt _
      · intro p hp r hr
        obtain ⟨e', he', hre⟩ := List.mem_flatMap.mp hr
        rw [hplaced e List.mem_cons_self p hp,
          hplaced e' (List.mem_cons_of_mem _ he') r hre]
        exact asymm_of lt (hhd e' he')

variable [DecidableRel lt]

/-- Storing a level back in its place: it stays, unless it is empty. -/
theorem entries_storeLevel {levels : Levels P lt} {k : P}
    {l l' : List OrderPointer} {before after : List (P × List OrderPointer)}
    (h : levels.entries = before ++ (k, l) :: after)
    (hb : ∀ e ∈ before, lt e.1 k) (ha : ∀ e ∈ after, lt k e.1) :
    (storeLevel levels k l').entries
      = if l' = [] then before ++ after else before ++ (k, l') :: after := by
  by_cases hl : l' = []
  · subst hl
    rw [if_pos rfl]
    show (levels.erase k).entries = before ++ after
    rw [OrderedMap.entries_erase, h, OrderedMap.erase_middle hb ha]
  · rw [if_neg hl]
    have hne : l'.isEmpty = false := by
      cases l' with
      | nil => exact absurd rfl hl
      | cons p l' => rfl
    rw [storeLevel, hne]
    show (levels.adjust k (fun _ => l')).entries = before ++ (k, l') :: after
    rw [OrderedMap.entries_adjust, h, OrderedMap.adjustIn_middle hb]

/-- The pointers after a level is stored back. -/
theorem pointersOf_storeLevel {levels : Levels P lt} {k : P}
    {l l' : List OrderPointer} {before after : List (P × List OrderPointer)}
    (h : levels.entries = before ++ (k, l) :: after)
    (hb : ∀ e ∈ before, lt e.1 k) (ha : ∀ e ∈ after, lt k e.1) :
    pointersOf (storeLevel levels k l')
      = before.flatMap Prod.snd ++ (l' ++ after.flatMap Prod.snd) := by
  rw [pointersOf, entries_storeLevel h hb ha]
  by_cases hl : l' = []
  · subst hl
    rw [if_pos rfl, List.flatMap_append]
    rfl
  · rw [if_neg hl, List.flatMap_append, List.flatMap_cons]

/-- A side stays housed when a level shrinks. -/
theorem Housed.storeLevel {heap : OrderPointer → Order P} {side : Side}
    {levels : Levels P lt} {k : P} {l l' : List OrderPointer}
    {before after : List (P × List OrderPointer)}
    (h : Housed heap side levels)
    (heq : levels.entries = before ++ (k, l) :: after)
    (hb : ∀ e ∈ before, lt e.1 k) (ha : ∀ e ∈ after, lt k e.1)
    (hsub : ∀ p ∈ l', p ∈ l) :
    Housed heap side (storeLevel levels k l') := by
  have hold : ∀ e ∈ before ++ after, e ∈ levels.entries := by
    intro e he
    rw [heq]
    rcases List.mem_append.mp he with h1 | h1
    · exact List.mem_append.mpr (Or.inl h1)
    · exact List.mem_append.mpr (Or.inr (List.mem_cons_of_mem _ h1))
  have hkl : (k, l) ∈ levels.entries := by rw [heq]; simp
  have hcase : ∀ e ∈ (OsxOrderbook.storeLevel levels k l').entries,
      e ∈ levels.entries ∨ (l' ≠ [] ∧ e = (k, l')) := by
    intro e he
    rw [entries_storeLevel heq hb ha] at he
    by_cases hl : l' = []
    · rw [if_pos hl] at he
      exact Or.inl (hold e he)
    · rw [if_neg hl] at he
      rcases List.mem_append.mp he with h1 | h1
      · exact Or.inl (hold e (List.mem_append.mpr (Or.inl h1)))
      · rcases List.mem_cons.mp h1 with h2 | h2
        · exact Or.inr ⟨hl, h2⟩
        · exact Or.inl (hold e (List.mem_append.mpr (Or.inr h2)))
  refine ⟨?_, ?_⟩
  · intro e he
    rcases hcase e he with h1 | ⟨hl, h1⟩
    · exact h.nonempty e h1
    · rw [h1]; exact hl
  · intro e he p hp
    rcases hcase e he with h1 | ⟨-, h1⟩
    · exact h.placed e h1 p hp
    · subst h1
      exact h.placed (k, l) hkl p (hsub p hp)

/-- Storing back the best level. -/
theorem pointersOf_storeBest {levels : Levels P lt} {k : P}
    {l : List OrderPointer} (l' : List OrderPointer)
    {rest : List (P × List OrderPointer)}
    (heq : levels.entries = (k, l) :: rest) :
    pointersOf (storeLevel levels k l') = l' ++ rest.flatMap Prod.snd ∧
      (storeLevel levels k l').entries
        = if l' = [] then rest else (k, l') :: rest := by
  have hs := levels.sorted
  rw [heq] at hs
  have ha := (List.pairwise_cons.mp hs).1
  have heq' : levels.entries = [] ++ (k, l) :: rest := heq
  exact ⟨pointersOf_storeLevel heq' (List.forall_mem_nil _) ha,
    entries_storeLevel heq' (List.forall_mem_nil _) ha⟩

/-- Taking a node out of the level its order says it is in. -/
theorem eraseFromLevel_spec {heap : OrderPointer → Order P} {side : Side}
    {levels : Levels P lt} (h : Housed heap side levels)
    (hn : (pointersOf levels).Nodup) {p : OrderPointer}
    (hp : p ∈ pointersOf levels) :
    ∃ levels', eraseFromLevel levels (heap p).price p = .ok levels' ∧
      Housed heap side levels' ∧
      pointersOf levels' = (pointersOf levels).filter (fun r => r ≠ p) ∧
      levels'.entries.length ≤ levels.entries.length := by
  obtain ⟨⟨k, l⟩, he, hpl⟩ := mem_pointersOf.mp hp
  have hk : (heap p).price = k := (h.placed _ he p hpl).2
  obtain ⟨before, after, heq, hb, ha⟩ := levels.split_mem he
  have hfind : levels.find? k = some l := levels.find?_eq_some_iff.mpr he
  refine ⟨storeLevel levels k (l.erase p), ?_, ?_, ?_, ?_⟩
  · have h1 : levelAt levels k = .ok l := by rw [levelAt, hfind]
    have h2 : eraseIterator l p = .ok (l.erase p) := by
      rw [eraseIterator, if_pos hpl]
    rw [hk, eraseFromLevel, h1]
    show (eraseIterator l p >>= _) = _
    rw [h2]
    rfl
  · exact h.storeLevel heq hb ha (fun r hr => List.mem_of_mem_erase hr)
  · rw [pointersOf_storeLevel heq hb ha, pointersOf_middle heq]
    rw [pointersOf_middle heq] at hn
    obtain ⟨-, hn2, hdis⟩ := List.nodup_append.mp hn
    obtain ⟨hn3, -, hdis2⟩ := List.nodup_append.mp hn2
    have h1 : (before.flatMap Prod.snd).filter (fun r => r ≠ p)
        = before.flatMap Prod.snd := by
      refine List.filter_eq_self.mpr (fun r hr => ?_)
      have := hdis r hr p (List.mem_append.mpr (Or.inl hpl))
      simpa using this
    have h2 : (after.flatMap Prod.snd).filter (fun r => r ≠ p)
        = after.flatMap Prod.snd := by
      refine List.filter_eq_self.mpr (fun r hr => ?_)
      have := hdis2 p hpl r hr
      simpa using fun e : r = p => this e.symm
    have h3 : l.erase p = l.filter (fun r => r ≠ p) := by
      rw [hn3.erase_eq_filter]
      refine List.filter_congr (fun r _ => ?_)
      by_cases hrp : r = p <;> simp [bne, hrp]
    rw [List.filter_append, List.filter_append, h1, h2, h3]
  · rw [entries_storeLevel heq hb ha, heq]
    by_cases hl : l.erase p = []
    · rw [if_pos hl]; simp
    · rw [if_neg hl]; simp

/-- **APPENDING A NODE** puts its order behind every order no worse. -/
theorem pushBack_spec {heap : OrderPointer → Order P} {side : Side}
    {levels : Levels P lt} (h : Housed heap side levels) {p : OrderPointer}
    (hs : (heap p).side = side) :
    Housed heap side (pushBack levels (heap p).price p) ∧
      (pointersOf (pushBack levels (heap p).price p)).map heap
        = restBehind lt (heap p) ((pointersOf levels).map heap) ∧
      (pointersOf (pushBack levels (heap p).price p)).Perm
        (p :: pointersOf levels) := by
  obtain ⟨before, after, hb, ha, hcase⟩ := levels.split_at (heap p).price
  -- whatever was there, the level becomes `l ++ [p]` between the two parts
  obtain ⟨l, hentries, hl, hold, hpts⟩ : ∃ l,
      (pushBack levels (heap p).price p).entries
        = before ++ ((heap p).price, l ++ [p]) :: after ∧
      (∀ r ∈ l, (heap r).side = side ∧ (heap r).price = (heap p).price) ∧
      (∀ e ∈ before ++ after, e ∈ levels.entries) ∧
      pointersOf levels
        = before.flatMap Prod.snd ++ (l ++ after.flatMap Prod.snd) := by
    rcases hcase with ⟨-, heq⟩ | ⟨l, -, heq⟩
    · refine ⟨[], ?_, by simp, ?_, ?_⟩
      · rw [pushBack, OrderedMap.entries_upsert, heq,
          OrderedMap.upsertIn_gap hb ha]
        rfl
      · intro e he; rw [heq]; exact he
      · rw [pointersOf, heq, List.flatMap_append]; rfl
    · refine ⟨l, ?_, ?_, ?_, pointersOf_middle heq⟩
      · rw [pushBack, OrderedMap.entries_upsert, heq,
          OrderedMap.upsertIn_middle hb]
        rfl
      · intro r hr
        exact h.placed ((heap p).price, l) (by rw [heq]; simp) r hr
      · intro e he
        rw [heq]
        rcases List.mem_append.mp he with h1 | h1
        · exact List.mem_append.mpr (Or.inl h1)
        · exact List.mem_append.mpr (Or.inr (List.mem_cons_of_mem _ h1))
  have hnew : pointersOf (pushBack levels (heap p).price p)
      = before.flatMap Prod.snd ++ ((l ++ [p]) ++ after.flatMap Prod.snd) :=
    pointersOf_middle hentries
  have hsplit : ∀ e ∈ (pushBack levels (heap p).price p).entries,
      e ∈ levels.entries ∨ e = ((heap p).price, l ++ [p]) := by
    intro e he
    rw [hentries] at he
    rcases List.mem_append.mp he with h1 | h1
    · exact Or.inl (hold e (List.mem_append.mpr (Or.inl h1)))
    · rcases List.mem_cons.mp h1 with h2 | h2
      · exact Or.inr h2
      · exact Or.inl (hold e (List.mem_append.mpr (Or.inr h2)))
  refine ⟨⟨?_, ?_⟩, ?_, ?_⟩
  · intro e he
    rcases hsplit e he with h1 | h1
    · exact h.nonempty e h1
    · rw [h1]; simp
  · intro e he r hr
    rcases hsplit e he with h1 | h1
    · exact h.placed e h1 r hr
    · rw [h1] at hr ⊢
      rcases List.mem_append.mp hr with h2 | h2
      · exact hl r h2
      · rw [List.mem_singleton.mp h2]; exact ⟨hs, rfl⟩
  · have hx : ∀ x ∈ (before.flatMap Prod.snd ++ l).map heap,
        ¬ lt (heap p).price x.price := by
      intro x hx
      obtain ⟨r, hr, rfl⟩ := List.mem_map.mp hx
      rcases List.mem_append.mp hr with h1 | h1
      · obtain ⟨e, he, hre⟩ := List.mem_flatMap.mp h1
        rw [(h.placed e (hold e (List.mem_append.mpr (Or.inl he))) r hre).2]
        exact asymm_of lt (hb e he)
      · rw [(hl r h1).2]
        exact irrefl_of lt _
    have hy : ∀ y ∈ (after.flatMap Prod.snd).map heap,
        lt (heap p).price y.price := by
      intro y hy
      obtain ⟨r, hr, rfl⟩ := List.mem_map.mp hy
      obtain ⟨e, he, hre⟩ := List.mem_flatMap.mp hr
      rw [(h.placed e (hold e (List.mem_append.mpr (Or.inr he))) r hre).2]
      exact ha e he
    rw [hpts, ← List.append_assoc, List.map_append, restBehind_append hx hy,
      hnew]
    simp
  · rw [hnew, hpts]
    have h1 : (l ++ [p]).Perm (p :: l) := List.perm_append_singleton p l
    have h2 := (h1.append_right (after.flatMap Prod.snd)).append_left
      (before.flatMap Prod.snd)
    refine h2.trans ?_
    rw [List.cons_append]
    exact List.perm_middle

end Strict

/-! ## The whole book -/

section Book

variable [LT P] [BEq P]

/-- All resting orders' pointers, bids first. -/
def pointers (b : Orderbook P) : List OrderPointer :=
  pointersOf b.bids ++ pointersOf b.asks

/-- The resting bids, best price first and oldest first within a price. -/
def restingBids (b : Orderbook P) : List (Order P) :=
  (pointersOf b.bids).map b.heap

/-- The resting asks, best price first and oldest first within a price. -/
def restingAsks (b : Orderbook P) : List (Order P) :=
  (pointersOf b.asks).map b.heap

/-- All resting orders, bids first. -/
def resting (b : Orderbook P) : List (Order P) :=
  restingBids b ++ restingAsks b

theorem resting_eq (b : Orderbook P) :
    resting b = (pointers b).map b.heap :=
  (List.map_append ..).symm

/-- **THE FOUR STRUCTURES AGREE.** -/
structure Linked (b : Orderbook P) : Prop where
  bids : Housed b.heap .buy b.bids
  asks : Housed b.heap .sell b.asks
  ids : ((pointers b).map (fun p => (b.heap p).orderId)).Nodup
  index : ∀ id e, b.orders.find? id = some e ↔
    ∃ p ∈ pointers b, (b.heap p).orderId = id ∧
      e = { order := p, location := p }
  allocated : ∀ p ∈ pointers b, p < b.next
  bounded : ∀ p ∈ pointers b,
    (b.heap p).remainingQuantity ≤ (b.heap p).initialQuantity

namespace Linked

variable {b b' : Orderbook P}

theorem nodup (h : Linked b) : (pointers b).Nodup := h.ids.of_map _

/-- One id, one pointer. -/
theorem pointer_unique (h : Linked b) {p r : OrderPointer}
    (hp : p ∈ pointers b) (hr : r ∈ pointers b)
    (hid : (b.heap p).orderId = (b.heap r).orderId) : p = r :=
  List.inj_on_of_nodup_map h.ids hp hr hid

/-- An id with no entry is the id of no resting order. -/
theorem find?_eq_none (h : Linked b) {id : OrderId} :
    b.orders.find? id = none ↔
      ∀ p ∈ pointers b, (b.heap p).orderId ≠ id := by
  constructor
  · intro hn p hp hid
    rw [(h.index id ⟨p, p⟩).mpr ⟨p, hp, hid, rfl⟩] at hn
    cases hn
  · intro hall
    cases hf : b.orders.find? id with
    | none => rfl
    | some e =>
        obtain ⟨p, hp, hid, -⟩ := (h.index id e).mp hf
        exact absurd hid (hall p hp)

/-- Links survive the loss of some orders and the filling of others, when the
    index forgets exactly the lost ones. -/
theorem shrink (h : Linked b)
    (hbids : Housed b'.heap .buy b'.bids)
    (hasks : Housed b'.heap .sell b'.asks)
    (hsub : (pointers b').Sublist (pointers b))
    (hterms : ∀ p ∈ pointers b', SameTerms (b.heap p) (b'.heap p) ∧
      (b'.heap p).remainingQuantity ≤ (b.heap p).remainingQuantity)
    (hindex : ∀ id e, b'.orders.find? id = some e ↔
      b.orders.find? id = some e ∧ e.order ∈ pointers b')
    (hnext : b.next ≤ b'.next) : Linked b' where
  bids := hbids
  asks := hasks
  ids := by
    have heq : (pointers b').map (fun p => (b'.heap p).orderId)
        = (pointers b').map (fun p => (b.heap p).orderId) := by
      refine List.map_congr_left (fun p hp => ?_)
      rw [(hterms p hp).1]
    rw [heq]
    exact h.ids.sublist (hsub.map _)
  index := by
    intro id e
    rw [hindex, h.index]
    constructor
    · rintro ⟨⟨p, -, hid, rfl⟩, hp'⟩
      refine ⟨p, hp', ?_, rfl⟩
      rw [(hterms p hp').1]
      exact hid
    · rintro ⟨p, hp', hid, rfl⟩
      refine ⟨⟨p, hsub.subset hp', ?_, rfl⟩, hp'⟩
      rw [(hterms p hp').1] at hid
      exact hid
  allocated := fun p hp =>
    Nat.lt_of_lt_of_le (h.allocated p (hsub.subset hp)) hnext
  bounded := by
    intro p hp
    obtain ⟨h1, h2⟩ := hterms p hp
    have h3 := h.bounded p (hsub.subset hp)
    rw [show (b'.heap p).initialQuantity = (b.heap p).initialQuantity by
      rw [h1]]
    exact Nat.le_trans h2 h3

end Linked

end Book

/-! ## Cancelling -/

section Cancel

variable [LinearOrder P] {b : Orderbook P}

/-- The orders of a side, split off by their pointer's side of the book. -/
theorem Linked.side_of_mem (h : Linked b) {p : OrderPointer} :
    (p ∈ pointersOf b.bids → (b.heap p).side = .buy) ∧
      (p ∈ pointersOf b.asks → (b.heap p).side = .sell) := by
  constructor
  · intro hp
    obtain ⟨e, he, hpe⟩ := mem_pointersOf.mp hp
    exact (h.bids.placed e he p hpe).1
  · intro hp
    obtain ⟨e, he, hpe⟩ := mem_pointersOf.mp hp
    exact (h.asks.placed e he p hpe).1

/-- **CANCELLING A RESTING ORDER** removes its pointer, and nothing faults. -/
theorem cancelOrderInternal_resting (h : Linked b) {p : OrderPointer}
    (hp : p ∈ pointers b) :
    ∃ b', b.cancelOrderInternal (b.heap p).orderId = .ok b' ∧ Linked b' ∧
      b'.heap = b.heap ∧ b'.next = b.next ∧
      b'.levelData = dropOrder b.levelData (some (b.heap p)) ∧
      pointersOf b'.bids = (pointersOf b.bids).filter (fun r => r ≠ p) ∧
      pointersOf b'.asks = (pointersOf b.asks).filter (fun r => r ≠ p) ∧
      b'.bids.entries.length ≤ b.bids.entries.length ∧
      b'.asks.entries.length ≤ b.asks.entries.length := by
  have hfind : b.orders.find? (b.heap p).orderId = some ⟨p, p⟩ :=
    (h.index _ _).mpr ⟨p, hp, rfl, rfl⟩
  have hnb := (List.nodup_append.mp h.nodup).1
  have hna := (List.nodup_append.mp h.nodup).2.1
  have hdis := (List.nodup_append.mp h.nodup).2.2
  -- the index forgets exactly `p`, whichever side it was on
  have hindex : ∀ {pts : List OrderPointer},
      (∀ r, r ∈ pts ↔ r ∈ pointers b ∧ r ≠ p) → ∀ id e,
      (b.orders.erase (b.heap p).orderId).find? id = some e ↔
        b.orders.find? id = some e ∧ e.order ∈ pts := by
    intro pts hpts id e
    rw [HashTable.find?_erase]
    by_cases hid : id = (b.heap p).orderId
    · rw [if_pos hid]
      constructor
      · intro hno; cases hno
      · rintro ⟨hsome, hmem⟩
        obtain ⟨r, hr, hrid, rfl⟩ := (h.index id e).mp hsome
        exact absurd (h.pointer_unique hr hp (hrid.trans hid))
          ((hpts r).mp hmem).2
    · rw [if_neg hid]
      constructor
      · intro hsome
        refine ⟨hsome, ?_⟩
        obtain ⟨r, hr, hrid, rfl⟩ := (h.index id e).mp hsome
        refine (hpts r).mpr ⟨hr, ?_⟩
        rintro rfl
        exact hid hrid.symm
      · exact fun hsome => hsome.1
  rcases List.mem_append.mp hp with hpb | hpa
  · have hside := h.side_of_mem.1 hpb
    obtain ⟨bids, hok, hhoused, hpts, hlen⟩ := eraseFromLevel_spec h.bids hnb hpb
    have hasks : (pointersOf b.asks).filter (fun r => r ≠ p)
        = pointersOf b.asks := by
      refine List.filter_eq_self.mpr (fun r hr => ?_)
      simpa using fun e : r = p => hdis p hpb r hr e.symm
    have hmem : ∀ r, r ∈ pointersOf bids ++ pointersOf b.asks ↔
        r ∈ pointers b ∧ r ≠ p := by
      intro r
      rw [hpts, ← hasks, ← List.filter_append]
      simp [pointers, or_and_right]
    refine ⟨{ b with
        orders := b.orders.erase (b.heap p).orderId, bids := bids,
        levelData := dropOrder b.levelData (some (b.heap p)) },
      ?_, ?_, rfl, rfl, by dsimp only, hpts, hasks.symm, hlen, Nat.le_refl _⟩
    · simp only [Orderbook.cancelOrderInternal, hfind, hside, hok, bind,
        Except.bind]
      rfl
    · refine h.shrink ?_ ?_ ?_ ?_ ?_ ?_
      · exact hhoused
      · exact h.asks
      · show (pointersOf bids ++ pointersOf b.asks).Sublist (pointers b)
        rw [hpts]
        exact List.filter_sublist.append (List.Sublist.refl _)
      · exact fun r _ => ⟨.refl _, Nat.le_refl _⟩
      · exact hindex hmem
      · exact Nat.le_refl _
  · have hside := h.side_of_mem.2 hpa
    obtain ⟨asks, hok, hhoused, hpts, hlen⟩ := eraseFromLevel_spec h.asks hna hpa
    have hbids : (pointersOf b.bids).filter (fun r => r ≠ p)
        = pointersOf b.bids := by
      refine List.filter_eq_self.mpr (fun r hr => ?_)
      simpa using fun e : r = p => hdis r hr p hpa e
    have hmem : ∀ r, r ∈ pointersOf b.bids ++ pointersOf asks ↔
        r ∈ pointers b ∧ r ≠ p := by
      intro r
      rw [hpts, ← hbids, ← List.filter_append]
      simp [pointers, or_and_right]
    refine ⟨{ b with
        orders := b.orders.erase (b.heap p).orderId, asks := asks,
        levelData := dropOrder b.levelData (some (b.heap p)) },
      ?_, ?_, rfl, rfl, by dsimp only, hbids.symm, hpts, Nat.le_refl _, hlen⟩
    · simp only [Orderbook.cancelOrderInternal, hfind, hside, hok, bind,
        Except.bind]
      rfl
    · refine h.shrink ?_ ?_ ?_ ?_ ?_ ?_
      · exact h.bids
      · exact hhoused
      · show (pointersOf b.bids ++ pointersOf asks).Sublist (pointers b)
        rw [hpts]
        exact (List.Sublist.refl _).append List.filter_sublist
      · exact fun r _ => ⟨.refl _, Nat.le_refl _⟩
      · exact hindex hmem
      · exact Nat.le_refl _

/-- An id that rests nowhere is cancelled without effect. -/
theorem cancelOrderInternal_absent {id : OrderId}
    (hn : b.orders.find? id = none) : b.cancelOrderInternal id = .ok b := by
  simp only [Orderbook.cancelOrderInternal, hn]

end Cancel

end OsxLink
