import OsborneX.ReachableProofs
import OsborneX.LevelDataProofs

/-! # Conservation — trades and remainders over whole runs

    An account is kept for every order id: the quantity of the order last
    accepted under it, and what the trades returned since then attribute to it.
    Accepting an order opens its account afresh, so an id can be used again.

    After every call of every run, an order that took part and its account
    agree: remainder and traded quantity make up the initial quantity.  No
    account is ever overdrawn, and the trades of a call come in MOMENTS, each
    naming the front bid and the front ask of that moment. -/

namespace OsxConservation

open OsxOrderbook OsxCrossing OsxLink OsxMatching OsxCalls OsxRepresentation
open OsxLevelData

variable {P : Type}

/-! ## The moments of a matching -/

/-- Matching, one event at a time: the two front orders trade the smaller
    remainder and stay unless filled, or a Fill-And-Kill front is cancelled. -/
inductive Moments : List (Order P) → List (Order P) → List (Trade P) →
    List (Order P) → List (Order P) → Prop where
  | still {bids asks : List (Order P)} : Moments bids asks [] bids asks
  | trade {x y : Order P} {xs ys bids asks : List (Order P)}
      {ts : List (Trade P)} (q : Nat)
      (hq : q = min x.remainingQuantity y.remainingQuantity)
      (h : Moments (leave (x.fill q) xs) (leave (y.fill q) ys) ts bids asks) :
      Moments (x :: xs) (y :: ys)
        (⟨⟨x.orderId, x.price, q⟩, ⟨y.orderId, y.price, q⟩⟩ :: ts) bids asks
  | killBid {x : Order P} {xs ys bids asks : List (Order P)}
      {ts : List (Trade P)} (hx : x.orderType = .fillAndKill)
      (h : Moments xs ys ts bids asks) : Moments (x :: xs) ys ts bids asks
  | killAsk {y : Order P} {xs ys bids asks : List (Order P)}
      {ts : List (Trade P)} (hy : y.orderType = .fillAndKill)
      (h : Moments xs ys ts bids asks) : Moments xs (y :: ys) ts bids asks

/-- The inner loop runs through moments of the whole sides. -/
theorem Cross.moments {xs ys xs' ys' bs as bids asks : List (Order P)}
    {pairs : List (Pairing P)} {ts : List (Trade P)}
    (h : Cross xs ys pairs xs' ys')
    (hrest : Moments (xs' ++ bs) (ys' ++ as) ts bids asks) :
    Moments (xs ++ bs) (ys ++ as) (pairs.map Pairing.trade ++ ts)
      bids asks := by
  induction h with
  | done _ => exact hrest
  | pair q hq _ ih =>
      have hnext := ih hrest
      rw [← OsxTally.leave_append, ← OsxTally.leave_append] at hnext
      exact .trade q hq hnext

theorem Moments.of_kill {xs ys bids asks : List (Order P)}
    {ts : List (Trade P)} (h : Moments (kill xs) (kill ys) ts bids asks) :
    Moments xs ys ts bids asks := by
  have hbid : Moments xs (kill ys) ts bids asks := by
    cases xs with
    | nil => exact h
    | cons x xs =>
        by_cases hx : x.orderType = .fillAndKill
        · rw [kill, if_pos hx] at h
          exact .killBid hx h
        · rw [kill, if_neg hx] at h
          exact h
  cases ys with
  | nil => exact hbid
  | cons y ys =>
      by_cases hy : y.orderType = .fillAndKill
      · rw [kill, if_pos hy] at hbid
        exact .killAsk hy hbid
      · rw [kill, if_neg hy] at hbid
        exact hbid

/-- The outer loop runs through moments. -/
theorem Rounds.moments [LT P] {bids asks bids' asks' : List (Order P)}
    {log : List (Round P)} (h : Rounds bids asks log bids' asks') :
    Moments bids asks (trades log) bids' asks' := by
  induction h with
  | stop _ => exact .still
  | round _ _ _ _ _ _ _ hc _ ih =>
      rw [trades_cons]
      exact Cross.moments hc (.of_kill ih)

/-! ## Accounts -/

/-- The order last accepted under an id: its quantity, and what has been traded
    of it. -/
structure Account where
  initial : Nat
  traded : Nat
  deriving DecidableEq, Repr

abbrev Accounts := OrderId → Account

/-- Accepting an order opens its account. -/
def openAccount (accounts : Accounts) : Option (Order P) → Accounts
  | none => accounts
  | some o => Function.update accounts o.orderId ⟨o.initialQuantity, 0⟩

/-- The trades are entered in the accounts they name. -/
def post (accounts : Accounts) (ts : List (Trade P)) : Accounts :=
  fun id =>
    { accounts id with traded := (accounts id).traded + tradedQuantity id ts }

variable [LinearOrder P] {b b' : Orderbook P}

/-- The order a call gets accepted into the book, if any. -/
def accepted (b : Orderbook P) : Call P → Option (Order P)
  | .addOrder orderType orderId side price quantity =>
      admitted b (.new orderType orderId side price quantity)
  | .cancelOrder _ => none
  | .modifyOrder m => (replacement b m).bind (fun r => admitted r.1 r.2)

/-- The id whose order a call ends, if it rests. -/
def ended : Call P → Option OrderId
  | .addOrder _ _ _ _ _ => none
  | .cancelOrder orderId => some orderId
  | .modifyOrder m => some m.orderId

/-- The orders that take part in a call: those that rest and are not ended by
    it, and the one it gets accepted. -/
def participants (b : Orderbook P) (c : Call P) : List OrderPointer :=
  (if (accepted b c).isSome then [b.next] else []) ++
    (pointers b).filter (fun p => some (b.heap p).orderId ≠ ended c)

/-- A call with its book-keeping. -/
def bookkeep (s : Orderbook P × Accounts) (c : Call P) :
    Except Fault ((Orderbook P × Accounts) × List (Trade P)) :=
  (s.1.call c).map fun r =>
    ((r.1, post (openAccount s.2 (accepted s.1 c)) r.2), r.2)

/-- The accounts before the first call. -/
def noAccounts : Accounts := fun _ => ⟨0, 0⟩

/-- The order at `p` and its account agree. -/
def Agrees (b : Orderbook P) (accounts : Accounts) (p : OrderPointer) :
    Prop :=
  (accounts (b.heap p).orderId).initial = (b.heap p).initialQuantity ∧
    (b.heap p).remainingQuantity + (accounts (b.heap p).orderId).traded
      = (b.heap p).initialQuantity

/-- Every resting order agrees with its account, and no account is
    overdrawn. -/
structure Accounted (b : Orderbook P) (accounts : Accounts) : Prop where
  resting : ∀ p ∈ pointers b, Agrees b accounts p
  covered : ∀ id, (accounts id).traded ≤ (accounts id).initial

/-- What a call does to the orders that take part in it: they agree with their
    accounts, one that left was filled or killed, and the trades were made
    between the fronts of two lists of them. -/
structure Traded (b' : Orderbook P) (accounts' : Accounts)
    (part : List OrderPointer) (ts : List (Trade P)) : Prop where
  stays : ∀ p ∈ pointers b', p ∈ part
  agrees : ∀ p ∈ part, Agrees b' accounts' p
  leaves : ∀ p ∈ part, p ∉ pointers b' →
    (b'.heap p).remainingQuantity = 0 ∨
      (b'.heap p).orderType = .fillAndKill
  moments : ∃ bids asks,
    (∀ x ∈ bids, x.side = .buy ∧ ∃ p ∈ part, SameTerms x (b'.heap p)) ∧
    (∀ y ∈ asks, y.side = .sell ∧ ∃ p ∈ part, SameTerms y (b'.heap p)) ∧
    Moments bids asks ts (restingBids b') (restingAsks b')
  named : ∀ t ∈ ts,
    (∃ p ∈ part, (b'.heap p).side = .buy ∧
      (b'.heap p).orderId = t.bidTrade.orderId) ∧
    (∃ p ∈ part, (b'.heap p).side = .sell ∧
      (b'.heap p).orderId = t.askTrade.orderId) ∧
    t.bidTrade.quantity = t.askTrade.quantity

/-! ## One call -/

/-- Matching keeps an order and its account in agreement. -/
theorem Conserved.agrees {accounts : Accounts} {ts : List (Trade P)}
    (h : Conserved b b' ts) {p : OrderPointer} (hp : p ∈ pointers b)
    (hag : Agrees b accounts p) : Agrees b' (post accounts ts) p := by
  obtain ⟨hterms, hrem⟩ := h.kept p hp
  obtain ⟨-, hid, -, -, hinit⟩ := hterms.fields
  obtain ⟨h1, h2⟩ := hag
  rw [Agrees, post]
  rw [hid, hinit]
  exact ⟨h1, by dsimp only; omega⟩

/-- Matching overdraws no account: it trades within what an order has left,
    and names no one else. -/
theorem Conserved.covered {accounts : Accounts} {ts : List (Trade P)}
    (h : Conserved b b' ts) (hag : ∀ p ∈ pointers b, Agrees b accounts p)
    (hcov : ∀ id, (accounts id).traded ≤ (accounts id).initial) :
    ∀ id, (post accounts ts id).traded ≤ (post accounts ts id).initial := by
  intro id
  by_cases hex : ∃ p ∈ pointers b, (b.heap p).orderId = id
  · obtain ⟨p, hp, rfl⟩ := hex
    obtain ⟨h1, h2⟩ := Conserved.agrees h hp (hag p hp)
    have hid := (h.kept p hp).1.fields.2.1
    rw [hid] at h1 h2
    omega
  · have hzero : tradedQuantity id ts = 0 := by
      refine tradedQuantity_eq_zero (fun t ht hn => hex ?_)
      obtain ⟨⟨p, hp, hbid⟩, ⟨r, hr, hask⟩, -⟩ := h.named t ht
      rcases hn with hn | hn
      · exact ⟨p, List.mem_append.mpr (Or.inl hp), hbid.trans hn⟩
      · exact ⟨r, List.mem_append.mpr (Or.inr hr), hask.trans hn⟩
    show (accounts id).traded + tradedQuantity id ts ≤ (accounts id).initial
    rw [hzero]
    exact hcov id

/-- Opening the book for an order opens its account. -/
theorem Opened.accounted {accounts : Accounts} (hacc : Accounted b accounts)
    {o : Order P} {b2 : Orderbook P} (h : Opened b o b2)
    (hs : Sided o.side) (ho : o.remainingQuantity = o.initialQuantity) :
    Accounted b2 (openAccount accounts (some o)) := by
  have hperm := h.pointers_perm hs
  have hnext : b2.heap b.next = o := by
    rw [h.heap, Function.update_self]
  have hmem : b.next ∈ pointers b2 := hperm.mem_iff.mpr List.mem_cons_self
  refine ⟨fun p hp => ?_, fun id => ?_⟩
  · by_cases heq : p = b.next
    · subst heq
      rw [Agrees]
      rw [hnext, openAccount, Function.update_self]
      exact ⟨rfl, by rw [ho]; rfl⟩
    · have hpb : p ∈ pointers b := by
        rcases List.mem_cons.mp (hperm.mem_iff.mp hp) with h1 | h1
        · exact absurd h1 heq
        · exact h1
      have hheap : b2.heap p = b.heap p := by
        rw [h.heap, Function.update_of_ne heq]
      have hid : (b.heap p).orderId ≠ o.orderId := by
        intro hid
        rw [← hheap, ← hnext] at hid
        exact heq (h.linked.pointer_unique hp hmem hid)
      rw [Agrees]
      rw [hheap, openAccount, Function.update_of_ne hid]
      exact hacc.resting p hpb
  · by_cases hid : id = o.orderId
    · subst hid
      rw [openAccount, Function.update_self]
      exact Nat.zero_le _
    · rw [openAccount, Function.update_of_ne hid]
      exact hacc.covered id

/-- The orders of a side, as they stood, are orders of its list. -/
theorem Conserved.sides {ts : List (Trade P)} (hl : Linked b)
    (h : Conserved b b' ts) :
    (∀ x ∈ restingBids b, x.side = .buy ∧
      ∃ p ∈ pointers b, SameTerms x (b'.heap p)) ∧
    ∀ y ∈ restingAsks b, y.side = .sell ∧
      ∃ p ∈ pointers b, SameTerms y (b'.heap p) := by
  constructor
  · intro x hx
    obtain ⟨p, hp, rfl⟩ := List.mem_map.mp hx
    have hpb : p ∈ pointers b := List.mem_append.mpr (Or.inl hp)
    obtain ⟨level, hlevel, hin⟩ := mem_pointersOf.mp hp
    exact ⟨(hl.bids.placed level hlevel p hin).1, p, hpb, (h.kept p hpb).1⟩
  · intro y hy
    obtain ⟨p, hp, rfl⟩ := List.mem_map.mp hy
    have hpb : p ∈ pointers b := List.mem_append.mpr (Or.inr hp)
    obtain ⟨level, hlevel, hin⟩ := mem_pointersOf.mp hp
    exact ⟨(hl.asks.placed level hlevel p hin).1, p, hpb, (h.kept p hpb).1⟩

/-- **AN ADMITTED ORDER IS TRADED FAIRLY** against what rests. -/
theorem Executed.traded {accounts : Accounts} (hacc : Accounted b accounts)
    {o : Order P} {b2 : Orderbook P} {log : List (Round P)}
    (he : Executed b o b2 b' log) (hs : Sided o.side)
    (ho : o.remainingQuantity = o.initialQuantity) :
    Traded b' (post (openAccount accounts (some o)) (trades log))
      (b.next :: pointers b) (trades log) ∧
    Accounted b' (post (openAccount accounts (some o)) (trades log)) := by
  have hperm := he.opened.pointers_perm hs
  have hpart : ∀ p, p ∈ b.next :: pointers b ↔ p ∈ pointers b2 :=
    fun p => hperm.mem_iff.symm
  have hc := he.conserved
  have hacc2 := Opened.accounted hacc he.opened hs ho
  have hag : ∀ p ∈ pointers b2,
      Agrees b' (post (openAccount accounts (some o)) (trades log)) p :=
    fun p hp => Conserved.agrees hc hp (hacc2.resting p hp)
  obtain ⟨hbids, hasks⟩ := Conserved.sides he.opened.linked hc
  refine ⟨⟨?_, ?_, ?_, ?_, ?_⟩, ?_, ?_⟩
  · exact fun p hp => (hpart p).mpr (hc.sub.subset hp)
  · exact fun p hp => hag p ((hpart p).mp hp)
  · intro p hp hleft
    have hp2 := (hpart p).mp hp
    rcases hc.left p hp2 hleft with h1 | h1
    · exact Or.inl h1
    · rw [← (hc.kept p hp2).1.fields.1] at h1
      exact Or.inr h1
  · refine ⟨restingBids b2, restingAsks b2, fun x hx => ?_, fun y hy => ?_,
      Rounds.moments he.rounds⟩
    · obtain ⟨h1, p, hp, h2⟩ := hbids x hx
      exact ⟨h1, p, (hpart p).mpr hp, h2⟩
    · obtain ⟨h1, p, hp, h2⟩ := hasks y hy
      exact ⟨h1, p, (hpart p).mpr hp, h2⟩
  · intro t ht
    obtain ⟨⟨p, hp, hbid⟩, ⟨r, hr, hask⟩, hq⟩ := hc.named t ht
    have hp2 : p ∈ pointers b2 := List.mem_append.mpr (Or.inl hp)
    have hr2 : r ∈ pointers b2 := List.mem_append.mpr (Or.inr hr)
    obtain ⟨-, hpid, hpside, -, -⟩ := (hc.kept p hp2).1.fields
    obtain ⟨-, hrid, hrside, -, -⟩ := (hc.kept r hr2).1.fields
    refine ⟨⟨p, (hpart p).mpr hp2, ?_, hpid.trans hbid⟩,
      ⟨r, (hpart r).mpr hr2, ?_, hrid.trans hask⟩, hq⟩
    · rw [hpside]
      exact (hbids _ (List.mem_map_of_mem hp)).1
    · rw [hrside]
      exact (hasks _ (List.mem_map_of_mem hr)).1
  · exact fun p hp => hag p (hc.sub.subset hp)
  · exact Conserved.covered hc hacc2.resting hacc2.covered

/-- A call that only takes orders out, or does nothing. -/
theorem traded_quiet {accounts : Accounts} (hacc : Accounted b accounts)
    (hl : Linked b') (hsub : ∀ p ∈ pointers b', p ∈ pointers b)
    (hheap : ∀ p ∈ pointers b', b'.heap p = b.heap p) :
    Traded b' (post accounts ([] : List (Trade P))) (pointers b') [] ∧
      Accounted b' (post accounts ([] : List (Trade P))) := by
  have hpost : post accounts ([] : List (Trade P)) = accounts := rfl
  have hag : ∀ p ∈ pointers b', Agrees b' accounts p := by
    intro p hp
    rw [Agrees]
    rw [hheap p hp]
    exact hacc.resting p (hsub p hp)
  obtain ⟨hbids, hasks⟩ := Conserved.sides hl (.refl b')
  rw [hpost]
  refine ⟨⟨fun p hp => hp, hag, fun p hp hno => absurd hp hno,
    ⟨restingBids b', restingAsks b', hbids, hasks, .still⟩,
    List.forall_mem_nil _⟩, hag, hacc.covered⟩

/-- **WHAT AddOrder DOES TO THE ACCOUNTS.** -/
theorem Adds.traded {accounts : Accounts} (hl : Linked b)
    (hacc : Accounted b accounts) {o : Order P} {ts : List (Trade P)}
    (ha : Adds b o b' ts) (hs : Sided o.side)
    (ho : o.remainingQuantity = o.initialQuantity) :
    Traded b' (post (openAccount accounts (admitted b o)) ts)
      ((if (admitted b o).isSome then [b.next] else []) ++ pointers b) ts ∧
    Accounted b' (post (openAccount accounts (admitted b o)) ts) := by
  cases ha with
  | rejected hno =>
      have hnone : admitted b o = none := by
        cases hadm : admitted b o with
        | none => rfl
        | some o' => exact absurd (admits_iff.mpr hadm) (hno o')
      rw [hnone]
      refine traded_quiet hacc (Linked.makeShared hl o) (fun p hp => hp)
        (fun p hp => ?_)
      show Function.update b.heap b.next o p = _
      rw [Function.update_of_ne]
      rintro rfl
      exact Linked.next_fresh hl hp
  | @admitted o' b2 _ log ha he =>
      obtain ⟨hside, -, hinit, hrem⟩ := effective_terms ha.effective
      rw [admits_iff.mp ha]
      exact Executed.traded hacc he (by rw [hside]; exact hs)
        (by rw [hinit, hrem, ho])

/-- What takes part in a call that ends no resting order. -/
theorem participants_all {c : Call P}
    (h : ∀ p ∈ pointers b, some (b.heap p).orderId ≠ ended c) :
    participants b c
      = (if (accepted b c).isSome then [b.next] else []) ++ pointers b := by
  rw [participants, List.filter_eq_self.mpr]
  exact fun p hp => decide_eq_true (h p hp)

/-- What takes part in a call that ends the order at `p`. -/
theorem Removed.participants (hl : Linked b) {p : OrderPointer}
    (hp : p ∈ pointers b) {b1 : Orderbook P} (hr : Removed b p b1)
    {c : Call P} (hc : ended c = some (b.heap p).orderId) :
    participants b c
      = (if (accepted b c).isSome then [b1.next] else []) ++ pointers b1 := by
  have hleft : pointers b1
      = (pointers b).filter (fun r => some (b.heap r).orderId ≠ ended c) := by
    rw [pointers, hr.bids, hr.asks, ← List.filter_append]
    refine List.filter_congr (fun r hrp => ?_)
    rw [hc, decide_eq_decide]
    constructor
    · intro hne hid
      exact hne (hl.pointer_unique hrp hp (Option.some.inj hid))
    · rintro hid rfl
      exact hid rfl
  rw [OsxConservation.participants, ← hleft, hr.next]

theorem Removed.accounted {accounts : Accounts}
    (hacc : Accounted b accounts) {p : OrderPointer} {b1 : Orderbook P}
    (hr : Removed b p b1) :
    (∀ r ∈ pointers b1, r ∈ pointers b) ∧ Accounted b1 accounts := by
  have hsub : ∀ r ∈ pointers b1, r ∈ pointers b := by
    intro r hrp
    rw [pointers, hr.bids, hr.asks, ← List.filter_append] at hrp
    exact (List.mem_filter.mp hrp).1
  refine ⟨hsub, fun r hrp => ?_, hacc.covered⟩
  rw [Agrees]
  rw [hr.heap]
  exact hacc.resting r (hsub r hrp)

/-- **EVERY CALL KEEPS THE ACCOUNTS.** -/
theorem Does.traded {accounts : Accounts} (hl : Linked b)
    (hacc : Accounted b accounts) {c : Call P} (hc : callSided c)
    {ts : List (Trade P)} (hd : Does b c b' ts) :
    Traded b' (post (openAccount accounts (accepted b c)) ts)
      (participants b c) ts ∧
    Accounted b' (post (openAccount accounts (accepted b c)) ts) := by
  cases hd with
  | added ha =>
      rw [participants_all (fun _ _ => Option.some_ne_none _)]
      exact Adds.traded hl hacc ha hc rfl
  | @cancelled orderId p _ hp hid hr =>
      rw [Removed.participants hl hp hr (by rw [ended, hid])]
      refine traded_quiet hacc hr.linked (Removed.accounted hacc hr).1
        (fun r _ => by rw [hr.heap])
  | @notFound orderId hn =>
      have hno : ∀ p ∈ pointers b, some (b.heap p).orderId ≠ some orderId :=
        fun p hp h => hl.find?_eq_none.mp hn p hp (Option.some.inj h)
      rw [participants_all hno]
      exact traded_quiet hacc hl (fun p hp => hp) (fun _ _ => rfl)
  | @modified m p b1 _ _ hp hid hr ha =>
      have hacc1 := (Removed.accounted hacc hr).2
      have hadm : accepted b (.modifyOrder m)
          = admitted b1 (m.toOrder (b.heap p).orderType) := by
        rw [accepted, replacement_eq hl hp hid hr]
        rfl
      rw [Removed.participants hl hp hr (by rw [ended, hid]), hadm]
      exact Adds.traded hr.linked hacc1 ha hc rfl
  | @unknown m hn =>
      have hno : ∀ p ∈ pointers b, some (b.heap p).orderId ≠ some m.orderId :=
        fun p hp h => hl.find?_eq_none.mp hn p hp (Option.some.inj h)
      have hnone : accepted b (.modifyOrder m) = none := by
        rw [accepted, replacement, hn]
        rfl
      rw [participants_all hno, hnone]
      exact traded_quiet hacc hl (fun p hp => hp) (fun _ _ => rfl)

/-! ## Runs -/

/-- Book-keeping does not touch the book or the trades. -/
theorem bookkeep_ok {accounts : Accounts} {c : Call P} {ts : List (Trade P)}
    (h : b.call c = .ok (b', ts)) :
    bookkeep (b, accounts) c
      = .ok ((b', post (openAccount accounts (accepted b c)) ts), ts) := by
  rw [bookkeep]
  rw [h]
  rfl

/-- A call with book-keeping is the call. -/
theorem call_of_bookkeep {s s' : Orderbook P × Accounts} {c : Call P}
    {ts : List (Trade P)} (h : bookkeep s c = .ok (s', ts)) :
    s.1.call c = .ok (s'.1, ts) := by
  rw [bookkeep] at h
  cases hcall : s.1.call c with
  | error e =>
      rw [hcall] at h
      cases h
  | ok r =>
      rw [hcall] at h
      cases h
      rfl

/-- A run with book-keeping is the run, and keeps the accounts. -/
theorem run_accounted {calls : List (Call P)} {accounts : Accounts}
    (hl : Linked b) (hacc : Accounted b accounts)
    (hs : ∀ c ∈ calls, callSided c) :
    ∃ b' accounts' history,
      Execution.execute bookkeep (b, accounts) calls
        = .ok ((b', accounts'), history) ∧
      Orderbook.run b calls = .ok (b', history) ∧
      Linked b' ∧ Accounted b' accounts' := by
  have hstep : ∀ (s : Orderbook P × Accounts) (c : Call P),
      (Linked s.1 ∧ Accounted s.1 s.2) → callSided c →
      ∃ s' ts, bookkeep s c = .ok (s', ts) ∧
        (Linked s'.1 ∧ Accounted s'.1 s'.2) ∧ True := by
    rintro ⟨b, accounts⟩ c ⟨hl, hacc⟩ hc
    obtain ⟨b1, ts, hcall, hd⟩ := call_spec hl hc
    exact ⟨_, ts, bookkeep_ok hcall,
      ⟨hd.linked hl, (Does.traded hl hacc hc hd).2⟩, trivial⟩
  obtain ⟨⟨b', accounts'⟩, history, hkeep, ⟨hl', hacc'⟩, -⟩ :=
    Execution.execute_spec hstep calls (b, accounts) ⟨hl, hacc⟩
      (Execution.along_of_forall hs _)
  have hrun := Execution.execute_forget (fun s c s' ts => call_of_bookkeep)
    calls _ _ _ hkeep
  exact ⟨b', accounts', history, hkeep, hrun, hl', hacc'⟩

theorem accounted_empty [Inhabited P] :
    Accounted (.empty : Orderbook P) noAccounts :=
  ⟨(List.forall_mem_nil _), fun _ => Nat.le_refl _⟩

/-- **QUANTITY IS CONSERVED OVER WHOLE RUNS**: after any calls from the empty
    book, and one more call `c`, the resting orders agree with their accounts
    and no account is overdrawn, before `c` and after it; and `c` traded fairly
    between the orders that took part in it. -/
theorem run_traded [Inhabited P] (calls : List (Call P)) (c : Call P)
    (hs : ∀ c' ∈ calls, callSided c') (hc : callSided c) :
    ∃ b accounts history b' accounts' ts,
      Orderbook.run .empty calls = .ok (b, history) ∧
      Execution.execute bookkeep (.empty, noAccounts) calls
        = .ok ((b, accounts), history) ∧
      b.call c = .ok (b', ts) ∧
      bookkeep (b, accounts) c = .ok ((b', accounts'), ts) ∧
      Accounted b accounts ∧ Accounted b' accounts' ∧
      Traded b' accounts' (participants b c) ts := by
  obtain ⟨b, accounts, history, hkeep, hrun, hl, hacc⟩ :=
    run_accounted wellFormed_empty.linked accounted_empty hs
  obtain ⟨b', ts, hcall, hd⟩ := call_spec hl hc
  obtain ⟨htraded, hacc'⟩ := Does.traded hl hacc hc hd
  exact ⟨b, accounts, history, b', _, ts, hrun, hkeep, hcall,
    bookkeep_ok hcall, hacc, hacc', htraded⟩

/-- An id used again after a fill, a modification, a partial fill, and a
    Fill-And-Kill order of quantity zero. -/
theorem run_traded_reused :
    ∃ (b : Orderbook Int) (accounts : Accounts)
      (history : List (List (Trade Int))) (b' : Orderbook Int)
      (accounts' : Accounts) (ts : List (Trade Int)),
      Orderbook.run .empty
        [.addOrder .goodTillCancel 1 .sell 100 3,
          .addOrder .goodTillCancel 2 .buy 100 3,
          .addOrder .goodTillCancel 1 .sell 101 4,
          .modifyOrder ⟨1, .sell, 102, 6⟩,
          .addOrder .fillAndKill 3 .buy 103 0] = .ok (b, history) ∧
      Execution.execute bookkeep (.empty, noAccounts)
        [.addOrder .goodTillCancel 1 .sell 100 3,
          .addOrder .goodTillCancel 2 .buy 100 3,
          .addOrder .goodTillCancel 1 .sell 101 4,
          .modifyOrder ⟨1, .sell, 102, 6⟩,
          .addOrder .fillAndKill 3 .buy 103 0]
        = .ok ((b, accounts), history) ∧
      b.call (.addOrder .fillAndKill 3 .buy 102 5) = .ok (b', ts) ∧
      bookkeep (b, accounts) (.addOrder .fillAndKill 3 .buy 102 5)
        = .ok ((b', accounts'), ts) ∧
      Accounted b accounts ∧ Accounted b' accounts' ∧
      Traded b' accounts'
        (participants b (.addOrder .fillAndKill 3 .buy 102 5)) ts :=
  run_traded _ _ (by decide) (by decide)

end OsxConservation
