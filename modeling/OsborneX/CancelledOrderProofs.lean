import OsborneX.DuplicateProofs

/-! # Cancelled orders — what is out of the book does not trade

    A call trades between orders whose ids are in the index, and the one it
    adds (`call_names`).  A cancel takes its id out, whether or not the order
    was still there; from then on the id is in no trade and rests nowhere, until
    an Add brings it back (`run_cancelled`). -/

namespace OsxCancelled

open OsxOrderbook OsxCrossing OsxLink OsxMatching OsxCalls OsxDuplicate Outcome

variable {P : Type}

/-- The trades name such ids only. -/
def Names (ids : OrderId → Prop) (ts : List (Trade P)) : Prop :=
  ∀ t ∈ ts, ids t.bidTrade.orderId ∧ ids t.askTrade.orderId

theorem names_nil (ids : OrderId → Prop) : Names ids ([] : List (Trade P)) :=
  List.forall_mem_nil _

/-! ## The book -/

section Cancel

variable [LT P] [BEq P] [DecidableLT P] {b : Orderbook P}

/-- **A CANCELLED ID** is in the index no more. -/
theorem cancelOrderInternal_gone (orderId : OrderId) :
    Yields (Known (fun id => id ≠ orderId)) (b.cancelOrderInternal orderId) := by
  rw [Orderbook.cancelOrderInternal]
  cases hf : b.orders.find? orderId with
  | none =>
      rintro id entry hid rfl
      rw [hf] at hid
      cases hid
  | some entry =>
      have herased : ∀ b' : Orderbook P,
          b'.orders = b.orders.erase orderId →
          Known (fun id => id ≠ orderId) b' := by
        rintro b' horders id entry hid rfl
        rw [horders, HashTable.find?_erase, if_pos rfl] at hid
        cases hid
      cases hside : (b.heap entry.order).side with
      | buy =>
          simp only [hside]
          exact (yields_any _).bind (fun bids _ => herased _ rfl)
      | sell =>
          simp only [hside]
          exact (yields_any _).bind (fun asks _ => herased _ rfl)
      | other value =>
          simp only [hside]
          trivial

end Cancel

section Linear

variable [LinearOrder P] {b b' : Orderbook P} {ids : OrderId → Prop}
  {ts : List (Trade P)}

/-- The resting orders have known ids. -/
theorem known_resting (hl : Linked b) (h : Known ids b) {p : OrderPointer}
    (hp : p ∈ pointers b) : ids (b.heap p).orderId :=
  h _ ⟨p, p⟩ ((hl.index _ _).mpr ⟨p, hp, rfl, rfl⟩)

/-- **WHAT AddOrder TRADES**: the new order, and orders that rest. -/
theorem adds_names (hl : Linked b) (h : Known ids b) {o : Order P}
    (ho : ids o.orderId) (hs : Sided o.side) (ha : Adds b o b' ts) :
    Names ids ts := by
  cases ha with
  | rejected _ => exact names_nil ids
  | @admitted o' b2 _ log ha he =>
      obtain ⟨hside, hid, -, -⟩ := effective_terms ha.effective
      have hperm := he.opened.pointers_perm (hside ▸ hs)
      have hall : ∀ p ∈ pointers b2, ids (b2.heap p).orderId := by
        intro p hp
        rw [he.opened.heap]
        by_cases hnew : p = b.next
        · rw [hnew, Function.update_self, hid]
          exact ho
        · rw [Function.update_of_ne hnew]
          rcases List.mem_cons.mp (hperm.mem_iff.mp hp) with heq | hold
          · exact absurd heq hnew
          · exact known_resting hl h hold
      intro t ht
      obtain ⟨⟨p, hp, hbid⟩, ⟨r, hr, hask⟩, -⟩ := he.conserved.named t ht
      rw [← hbid, ← hask]
      exact ⟨hall p (List.mem_append_left _ hp),
        hall r (List.mem_append_right _ hr)⟩

/-- A call with neither side trades nothing, where it returns. -/
theorem call_unsided (hl : Linked b) {c : Call P} (hs : ¬ callSided c)
    (hrun : b.call c = .ok (b', ts)) : ts = [] := by
  cases c with
  | addOrder orderType orderId side price quantity =>
      exact (OsxSoundRun.addOrder_unsided
        (o := .new orderType orderId side price quantity) hs hrun).2
  | cancelOrder orderId => exact absurd trivial hs
  | modifyOrder x =>
      have hrun : b.modifyOrder x = .ok (b', ts) := hrun
      rcases known_or_not hl x.orderId with hn | ⟨p, hp, hid, hfind⟩
      · simp only [Orderbook.modifyOrder, hn] at hrun
        cases hrun
        rfl
      · obtain ⟨b1, hcancel, -⟩ := cancelOrder_resting hl hp
        rw [← hid] at hcancel
        simp only [Orderbook.modifyOrder, hfind, hcancel] at hrun
        exact (OsxSoundRun.addOrder_unsided
          (o := x.toOrder (b.heap p).orderType) hs hrun).2

/-- **WHAT A CALL TRADES**: ids in the index, and the one it adds. -/
theorem call_names (hl : Linked b) (h : Known ids b) {c : Call P}
    (hadded : ∀ id ∈ addedId c, ids id) (hrun : b.call c = .ok (b', ts)) :
    Names ids ts := by
  by_cases hs : callSided c
  · cases Does.of_call hl hs hrun with
    | added ha =>
        refine adds_names hl h ?_ ?_ ha
        · exact hadded _ rfl
        · exact hs
    | cancelled _ _ _ => exact names_nil ids
    | notFound _ => exact names_nil ids
    | modified hp hid hr ha =>
        have h1 : Known ids _ :=
          (cancelOrderInternal_known h _).of_ok hr.cancelled
        refine adds_names hr.linked h1 ?_ ?_ ha
        · have hold := known_resting hl h hp
          rw [← hid] at hold
          exact hold
        · exact hs
    | unknown _ => exact names_nil ids
  · rw [call_unsided hl hs hrun]
    exact names_nil ids

end Linear

/-! ## The shard -/

section Shard

open OsxShard OsxPrice OsxPriceLimit OsxMirror OsxSoundRun

/-- What a shard published names such ids only. -/
def PublishedNames (ids : OrderId → Prop) (published : Published) : Prop :=
  ∀ trade ∈ published.trades, ids trade.bidOrderId ∧ ids trade.askOrderId

variable {ids : OrderId → Prop} {message : OrderMessage}

theorem execute_names {b b' : Orderbook Double} {k : Orderbook Int}
    (hmirror : Mirrors numbers b k) (hk : Linked k) (hp : Priced message)
    (h : Known ids b) (hadded : message.action = .add → ids message.orderId)
    {ts : List (Trade Double)}
    (hrun : Shard.execute b message = .ok (b', ts)) : Names ids ts := by
  have hstep := execute_lockstep hmirror hk hp
  rw [hrun] at hstep
  cases hmade : executeOn k message with
  | error fault =>
      rw [hmade] at hstep
      exact hstep.elim
  | ok r =>
      rw [hmade] at hstep
      obtain ⟨-, htrades⟩ := hstep
      have hknown : Known ids k := by
        intro id entry hid
        rw [hmirror.orders] at hid
        exact h id entry hid
      have hnames : Names ids r.2 := by
        rw [executeOn] at hmade
        cases haction : message.action with
        | add =>
            simp only [Shard.callOf, haction] at hmade
            refine call_names hk hknown (fun id hid => ?_) hmade
            cases hid
            exact hadded haction
        | cancel =>
            simp only [Shard.callOf, haction] at hmade
            exact call_names hk hknown (fun id hid => by cases hid) hmade
        | modify =>
            simp only [Shard.callOf, haction] at hmade
            exact call_names hk hknown (fun id hid => by cases hid) hmade
        | other value =>
            simp only [Shard.callOf, haction] at hmade
            cases hmade
            exact names_nil ids
      intro t ht
      have hnamed := hnames (rescaleTrade numbers.value t)
        (by rw [htrades.trades]; exact List.mem_map_of_mem ht)
      exact hnamed

/-- A cancel leaves its id out of the book, and trades nothing. -/
theorem execute_gone {b b' : Orderbook Double} {ts : List (Trade Double)}
    (hcancel : message.action = .cancel)
    (hrun : Shard.execute b message = .ok (b', ts)) :
    Known (fun id => id ≠ message.orderId) b' ∧ ts = [] := by
  rw [Shard.execute] at hrun
  simp only [Shard.callOf, hcancel] at hrun
  obtain ⟨b1, hgone, heq⟩ := Execution.map_ok hrun
  cases heq
  exact ⟨(cancelOrderInternal_gone message.orderId).of_ok hgone, rfl⟩

variable {s s' : Shard} {published : Published}

/-- **PROCESSING KEEPS AN ID AWAY** that it does not add. -/
theorem process_away (h : Known ids (s.book message.symbol))
    (hadded : message.action = .add → ids message.orderId)
    (hrun : s.process message = .ok (s', published)) :
    Known ids (s'.book message.symbol) ∧
      (Mirrored s → Priced message → PublishedNames ids published) := by
  obtain ⟨b, ts, hexecute, htrades, hbooks⟩ := execute_of_process hrun
  refine ⟨?_, fun hm hp => ?_⟩
  · rw [hbooks, if_pos rfl]
    exact execute_known h hadded hexecute
  · obtain ⟨k, hmirror, hk⟩ := hm.mirror message.symbol
    have hnames := execute_names hmirror hk hp h hadded hexecute
    intro trade htrade
    rw [htrades] at htrade
    obtain ⟨t, ht, rfl⟩ := List.mem_map.mp htrade
    exact hnames t ht

/-- **AN ID STAYS AWAY** from a book over every run that does not add it. -/
theorem run_away {messages : List OrderMessage} (symbol : SymbolId) :
    ∀ {s t : Shard} {log : List Published}, Known ids (s.book symbol) →
      (∀ m ∈ messages, m.symbol = symbol ∧ (m.action = .add → ids m.orderId)) →
      Execution.execute Shard.process s messages = .ok (t, log) →
      Known ids (t.book symbol) ∧
        (Mirrored s → (∀ m ∈ messages, Priced m) →
          ∀ published ∈ log, PublishedNames ids published) := by
  induction messages with
  | nil =>
      intro s t log h _ hrun
      cases hrun
      exact ⟨h, fun _ _ => List.forall_mem_nil _⟩
  | cons message messages ih =>
      intro s t log h hall hrun
      obtain ⟨s₁, published, log', hstep, hrest, rfl⟩ :=
        Execution.execute_cons_ok hrun
      obtain ⟨rfl, hadded⟩ := hall message List.mem_cons_self
      obtain ⟨h₁, hfirst⟩ := process_away h hadded hstep
      obtain ⟨hknown, hlater⟩ :=
        ih h₁ (fun m hm => hall m (List.mem_cons_of_mem _ hm)) hrest
      refine ⟨hknown, fun hm hpriced => ?_⟩
      have hp := hpriced message List.mem_cons_self
      exact List.forall_mem_cons.mpr ⟨hfirst hm hp,
        hlater (process_mirrored hm hp hstep)
          (fun m hm => hpriced m (List.mem_cons_of_mem _ hm))⟩

theorem mirrored_run {messages : List OrderMessage} :
    ∀ {s t : Shard} {log : List Published}, Mirrored s →
      (∀ m ∈ messages, Priced m) →
      Execution.execute Shard.process s messages = .ok (t, log) →
      Mirrored t := by
  induction messages with
  | nil =>
      intro s t log h _ hrun
      cases hrun
      exact h
  | cons message messages ih =>
      intro s t log h hpriced hrun
      obtain ⟨s₁, published, log', hstep, hrest, rfl⟩ :=
        Execution.execute_cons_ok hrun
      exact ih (process_mirrored h (hpriced message List.mem_cons_self) hstep)
        (fun m hm => hpriced m (List.mem_cons_of_mem _ hm)) hrest

/-- **A CANCELLED ORDER IS OUT**: after its cancel an id is neither in the book
    nor in a trade, whatever comes behind, unless it is added again. -/
theorem run_cancelled {before later : List OrderMessage}
    {cancel : OrderMessage} (hcancel : cancel.action = .cancel)
    (hsymbol : ∀ m ∈ later, m.symbol = cancel.symbol)
    (honce : ∀ m ∈ later, m.action = .add → m.orderId ≠ cancel.orderId)
    {s : Shard} {log : List Published}
    (hrun : Execution.execute Shard.process .empty (before ++ cancel :: later)
      = .ok (s, log)) :
    Known (fun id => id ≠ cancel.orderId) (s.book cancel.symbol) ∧
      ((∀ m ∈ before ++ cancel :: later, Priced m) →
        ∀ published ∈ log.drop before.length,
          PublishedNames (fun id => id ≠ cancel.orderId) published) := by
  obtain ⟨s₁, log₁, log₂, hfirst, hrest, rfl⟩ := Execution.execute_append.mp hrun
  obtain ⟨s₂, published, log', hstep, hlater, rfl⟩ :=
    Execution.execute_cons_ok hrest
  obtain ⟨b, ts, hexecute, htrades, hbooks⟩ := execute_of_process hstep
  obtain ⟨hout, rfl⟩ := execute_gone hcancel hexecute
  have hgone : Known (fun id => id ≠ cancel.orderId) (s₂.book cancel.symbol) := by
    rw [hbooks, if_pos rfl]
    exact hout
  obtain ⟨hknown, hnames⟩ := run_away cancel.symbol hgone
    (fun m hm => ⟨hsymbol m hm, honce m hm⟩) hlater
  refine ⟨hknown, fun hpriced => ?_⟩
  obtain ⟨hbefore, hothers⟩ := List.forall_mem_append.mp hpriced
  have hm₁ : Mirrored s₁ := mirrored_run mirrored_empty hbefore hfirst
  have hm₂ : Mirrored s₂ :=
    process_mirrored hm₁ (hothers cancel List.mem_cons_self) hstep
  rw [← Execution.length_of_execute hfirst, List.drop_left]
  refine List.forall_mem_cons.mpr ⟨?_, hnames hm₂
    (fun m hm => hothers m (List.mem_cons_of_mem _ hm))⟩
  intro trade htrade
  rw [htrades] at htrade
  cases htrade

end Shard

end OsxCancelled
