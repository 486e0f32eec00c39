import OsborneX.SoundRunProofs

/-! # Market data — the last update published is the top of the book

    The shard publishes a top of book only when it differs from the one cached
    for the symbol.  The cache starts as an update for symbol 0 with no sides,
    is one map for all symbols, and is compared by a test under which two NaNs
    agree.  `Cached` couples the three for one symbol: what was published last,
    what is cached, and what the book says. -/

namespace OsxMarketData

open OsxOrderbook OsxLink OsxMirror OsxShard OsxPrice OsxPriceLimit OsxCalls
open OsxSoundRun Execution

/-! ## Tops of book -/

/-- The two updates show the same sides, two NaNs counting as one price. -/
structure SameTop (a b : TopOfBookUpdate) : Prop where
  bidPrice : samePrice a.bidPrice b.bidPrice = true
  bidQuantity : a.bidQuantity = b.bidQuantity
  askPrice : samePrice a.askPrice b.askPrice = true
  askQuantity : a.askQuantity = b.askQuantity

theorem samePrice_refl (p : Double) : samePrice p p = true := by
  rw [samePrice]
  cases h : p.isNaN with
  | true => rfl
  | false =>
      show (p == p) = true
      rw [Double.beq_eq h h]
      exact beq_self_eq_true _

/-- The published test is the four fields and the symbol. -/
theorem topOfBookEqual_iff {a b : TopOfBookUpdate} :
    topOfBookEqual a b = true ↔ a.symbol = b.symbol ∧ SameTop a b := by
  rw [topOfBookEqual]
  simp only [Bool.and_eq_true, beq_iff_eq]
  constructor
  · rintro ⟨⟨⟨⟨h1, h2⟩, h3⟩, h4⟩, h5⟩
    exact ⟨h1, h2, h3, h4, h5⟩
  · rintro ⟨h1, h2, h3, h4, h5⟩
    exact ⟨⟨⟨⟨h1, h2⟩, h3⟩, h4⟩, h5⟩

theorem topOfBookEqual_refl (a : TopOfBookUpdate) :
    topOfBookEqual a a = true :=
  topOfBookEqual_iff.mpr ⟨rfl, samePrice_refl _, rfl, samePrice_refl _, rfl⟩

/-- The sequence number is not compared. -/
theorem topOfBookEqual_makeTopOfBook (a : TopOfBookUpdate) (s : Shard)
    (symbol : SymbolId) (n n' : Nat) :
    topOfBookEqual a (s.makeTopOfBook symbol n)
      = topOfBookEqual a (s.makeTopOfBook symbol n') := by
  rw [Shard.makeTopOfBook, Shard.makeTopOfBook]
  cases s.books.find? symbol with
  | none => rfl
  | some book =>
      show topOfBookEqual a (topOf book.getOrderInfos symbol n)
        = topOfBookEqual a (topOf book.getOrderInfos symbol n')
      rw [topOf, topOf]
      cases book.getOrderInfos.bids <;> cases book.getOrderInfos.asks <;> rfl

theorem makeTopOfBook_symbol (s : Shard) (symbol : SymbolId) (n : Nat) :
    (s.makeTopOfBook symbol n).symbol = symbol := by
  rw [Shard.makeTopOfBook]
  cases s.books.find? symbol with
  | none => rfl
  | some book =>
      show (topOf book.getOrderInfos symbol n).symbol = symbol
      rw [topOf]
      cases book.getOrderInfos.bids <;> cases book.getOrderInfos.asks <;> rfl

/-- No level on either side. -/
def Bare (book : Orderbook Double) : Prop :=
  book.getOrderInfos.bids = [] ∧ book.getOrderInfos.asks = []

/-- The best level of a mirrored side has a number for its price. -/
theorem levelInfos_nil {lt : Double → Double → Prop}
    {lt' : Int → Int → Prop} {book : Orderbook Double}
    {levels : Levels Double lt} {levels' : Levels Int lt'}
    (h : LevelsMirror numbers book.heap levels levels')
    (hnan : ∀ best ∈ (levels.entries.map fun e =>
      book.createLevelInfo e.1 e.2).head?, best.price.isNaN = true) :
    levels.entries.map (fun e => book.createLevelInfo e.1 e.2) = [] := by
  cases hent : levels.entries with
  | nil => rfl
  | cons e rest =>
      have hsound : e.1.isNaN = false :=
        (h.sound e (by rw [hent]; exact List.mem_cons_self)).1
      rw [hent] at hnan
      have hbest := hnan _ rfl
      have hprice : e.1.isNaN = true := hbest
      rw [hsound] at hprice
      cases hprice

/-- A mirrored book that looks like the default update has no levels. -/
theorem bare_of_default {s : Shard} (h : Mirrored s) {symbol : SymbolId}
    {n : Nat}
    (heq : topOfBookEqual {} (s.makeTopOfBook symbol n) = true) :
    Bare (s.book symbol) := by
  obtain ⟨k, hmirror, -⟩ := h.mirror symbol
  obtain ⟨-, hbid, -, hask, -⟩ := topOfBookEqual_iff.mp heq
  -- only a NaN is the price of the default
  have hnan : ∀ p, samePrice Double.quietNaN p = true → p.isNaN = true := by
    intro p hp
    cases hp' : p.isNaN with
    | true => rfl
    | false =>
        rw [samePrice, hp', Bool.and_false] at hp
        simp only [Bool.false_eq_true, if_false] at hp
        exact absurd hp (by
          show ¬ (!Double.quietNaN.isNaN && !p.isNaN && _) = true
          rw [show Double.quietNaN.isNaN = true from by decide]
          exact Bool.false_ne_true)
  have hbid := hnan _ hbid
  have hask := hnan _ hask
  rw [Shard.makeTopOfBook] at hbid hask
  cases hfind : s.books.find? symbol with
  | none =>
      rw [Shard.book, hfind]
      exact ⟨rfl, rfl⟩
  | some book =>
      have hbook : s.book symbol = book := by rw [Shard.book, hfind]; rfl
      rw [hbook] at hmirror ⊢
      rw [hfind] at hbid hask
      refine ⟨levelInfos_nil hmirror.bids ?_, levelInfos_nil hmirror.asks ?_⟩
      · intro best hbest
        obtain ⟨rest, hlist⟩ := List.head?_eq_some_iff.mp hbest
        have hbids : book.getOrderInfos.bids = best :: rest := hlist
        simp only [topOf, hbids] at hbid
        cases hasks : book.getOrderInfos.asks <;>
          (rw [hasks] at hbid; exact hbid)
      · intro best hbest
        obtain ⟨rest, hlist⟩ := List.head?_eq_some_iff.mp hbest
        have hasks : book.getOrderInfos.asks = best :: rest := hlist
        simp only [topOf, hasks] at hask
        exact hask

/-! ## The published stream -/

/-- The last update published for a symbol. -/
def latest (symbol : SymbolId) (log : List Published) :
    Option TopOfBookUpdate :=
  ((log.filterMap Published.top).filter
    (fun update => update.symbol == symbol)).getLast?

theorem latest_quiet {symbol : SymbolId} {published : Published}
    (h : ∀ update ∈ published.top, update.symbol ≠ symbol)
    (log : List Published) :
    latest symbol (log ++ [published]) = latest symbol log := by
  rw [latest, List.filterMap_append]
  cases htop : published.top with
  | none => simp [htop, latest]
  | some update =>
      have hne := h update htop
      simp [htop, latest, hne]

theorem latest_published {published : Published} {update : TopOfBookUpdate}
    (h : published.top = some update) (log : List Published) :
    latest update.symbol (log ++ [published]) = some update := by
  rw [latest, List.filterMap_append]
  simp [h]

/-- What the shard has cached for a symbol: the update it published last, or
    the default where it published none; and the book still shows it. -/
def Cached (s : Shard) (log : List Published) (symbol : SymbolId) : Prop :=
  match s.lastTop.find? symbol with
  | none => s.books.find? symbol = none ∧ latest symbol log = none
  | some last =>
      (∀ n, topOfBookEqual last (s.makeTopOfBook symbol n) = true) ∧
      (latest symbol log = some last ∨
        latest symbol log = none ∧ last = {})

/-- What one message leaves in the shard, and what it publishes. -/
theorem process_top {s s' : Shard} {message : OrderMessage}
    {published : Published} (hok : s.process message = .ok (s', published)) :
    (∀ symbol, symbol ≠ message.symbol →
      s'.lastTop.find? symbol = s.lastTop.find? symbol ∧
      s'.books.find? symbol = s.books.find? symbol) ∧
    ∃ update, update = s'.makeTopOfBook message.symbol message.ingressSequence ∧
      if topOfBookEqual ((s.lastTop.find? message.symbol).getD {}) update then
        published.top = none ∧ s'.lastTop.find? message.symbol
          = some ((s.lastTop.find? message.symbol).getD {})
      else published.top = some update ∧
        s'.lastTop.find? message.symbol = some update := by
  rw [Shard.process] at hok
  cases hexec : Shard.execute (s.book message.symbol) message with
  | error fault =>
      rw [hexec] at hok
      cases hok
  | ok r =>
      rw [hexec] at hok
      cases hok
      refine ⟨?_, Shard.makeTopOfBook
        ⟨s.books.upsert message.symbol (fun _ => r.1), s.lastTop⟩
        message.symbol message.ingressSequence, rfl, ?_⟩
      · intro symbol hne
        exact ⟨by rw [HashTable.find?_upsert, if_neg hne],
          by rw [HashTable.find?_upsert, if_neg hne]⟩
      · dsimp only
        generalize Shard.makeTopOfBook
          ⟨s.books.upsert message.symbol (fun _ => r.1), s.lastTop⟩
          message.symbol message.ingressSequence = update
        rw [HashTable.find?_upsert, if_pos rfl]
        cases heq : topOfBookEqual
            ((s.lastTop.find? message.symbol).getD {}) update with
        | true => exact ⟨rfl, rfl⟩
        | false => exact ⟨rfl, rfl⟩

/-- **ONE MESSAGE** keeps the cache, the stream and the book together. -/
theorem Cached.process {s s' : Shard} {log : List Published}
    (h : ∀ symbol, Cached s log symbol) {message : OrderMessage}
    {published : Published} (hok : s.process message = .ok (s', published)) :
    ∀ symbol, Cached s' (log ++ [published]) symbol := by
  obtain ⟨hother, update, hupdate, hcases⟩ := process_top hok
  have hsymbol : update.symbol = message.symbol := by
    rw [hupdate, makeTopOfBook_symbol]
  intro symbol
  have hsym := h symbol
  by_cases heq : symbol = message.symbol
  · subst heq
    by_cases hsame : topOfBookEqual
        ((s.lastTop.find? message.symbol).getD {}) update = true
    · -- nothing is published, and what is cached still shows
      rw [if_pos hsame] at hcases
      obtain ⟨htop, hlast⟩ := hcases
      rw [Cached, hlast]
      refine ⟨?_, ?_⟩
      · intro n
        rw [topOfBookEqual_makeTopOfBook _ _ _ n message.ingressSequence,
          ← hupdate]
        exact hsame
      · rw [latest_quiet (by simp [htop])]
        rw [Cached] at hsym
        cases hfind : s.lastTop.find? message.symbol with
        | none =>
            rw [hfind] at hsym
            exact Or.inr ⟨hsym.2, rfl⟩
        | some last =>
            rw [hfind] at hsym
            exact hsym.2
    · rw [if_neg hsame] at hcases
      obtain ⟨htop, hlast⟩ := hcases
      rw [Cached, hlast]
      refine ⟨?_, Or.inl ?_⟩
      · intro n
        rw [topOfBookEqual_makeTopOfBook _ _ _ n message.ingressSequence,
          ← hupdate]
        exact topOfBookEqual_refl update
      · rw [← hsymbol]
        exact latest_published htop log
  · -- another symbol: neither its book nor its cache was touched
    obtain ⟨hlast, hbooks⟩ := hother symbol heq
    have hquiet : latest symbol (log ++ [published]) = latest symbol log := by
      refine latest_quiet ?_ log
      intro u hu
      by_cases hsame : topOfBookEqual
          ((s.lastTop.find? message.symbol).getD {}) update = true
      · rw [if_pos hsame] at hcases
        rw [hcases.1] at hu
        cases hu
      · rw [if_neg hsame] at hcases
        rw [hcases.1] at hu
        cases hu
        rw [hsymbol]
        exact Ne.symm heq
    have hmake : ∀ n, s'.makeTopOfBook symbol n = s.makeTopOfBook symbol n := by
      intro n
      rw [Shard.makeTopOfBook, Shard.makeTopOfBook, hbooks]
    rw [Cached, hlast, hbooks, hquiet]
    rw [Cached] at hsym
    cases hfind : s.lastTop.find? symbol with
    | none =>
        rw [hfind] at hsym
        exact hsym
    | some last =>
        rw [hfind] at hsym
        exact ⟨fun n => by rw [hmake]; exact hsym.1 n, hsym.2⟩

/-! ## Every run -/

/-- The last update published for the symbol shows its top of book; where none
    was published, its book has no levels. -/
def Fresh (s : Shard) (log : List Published) (symbol : SymbolId) : Prop :=
  match latest symbol log with
  | some update => ∀ n, SameTop update (s.makeTopOfBook symbol n)
  | none => Bare (s.book symbol)

theorem Cached.fresh {s : Shard} (hm : Mirrored s) {log : List Published}
    {symbol : SymbolId} (h : Cached s log symbol) : Fresh s log symbol := by
  rw [Cached] at h
  rw [Fresh]
  cases hfind : s.lastTop.find? symbol with
  | none =>
      rw [hfind] at h
      obtain ⟨hbooks, hlatest⟩ := h
      rw [hlatest]
      show Bare (s.book symbol)
      rw [Shard.book, hbooks]
      exact ⟨rfl, rfl⟩
  | some last =>
      rw [hfind] at h
      obtain ⟨heq, hlatest | ⟨hlatest, rfl⟩⟩ := h
      · rw [hlatest]
        intro n
        exact (topOfBookEqual_iff.mp (heq n)).2
      · rw [hlatest]
        exact bare_of_default hm (heq 0)

/-- **EVERY RUN KEEPS THE CACHE** of the last update published. -/
theorem run_cached {messages : List OrderMessage} {s : Shard}
    {log : List Published} (hp : ∀ message ∈ messages, Priced message)
    (h : execute Shard.process .empty messages = .ok (s, log)) :
    Mirrored s ∧ ∀ symbol, Cached s log symbol := by
  refine execute_trace
    (I := fun messages s log => (∀ message ∈ messages, Priced message) →
      Mirrored s ∧ ∀ symbol, Cached s log symbol)
    ?_ (fun _ => ⟨mirrored_empty, fun _ => ⟨rfl, rfl⟩⟩) h hp
  intro messages s log message s' published ih hok hp
  obtain ⟨hm, hc⟩ := ih (fun x hx => hp x (List.mem_append_left _ hx))
  have hpriced := hp message (List.mem_append_right _ List.mem_cons_self)
  exact ⟨process_mirrored hm hpriced hok, Cached.process hc hok⟩

/-- **PUBLISHED MARKET DATA IS NEVER STALE.**  After any run over numbers, for
    every symbol; and the run returns where every order has a side. -/
theorem topOfBook_fresh (messages : List OrderMessage)
    (hp : ∀ message ∈ messages, Priced message) :
    ((∀ message ∈ messages, Sided message.side) →
      ∃ s log, execute Shard.process .empty messages = .ok (s, log)) ∧
    ∀ s log, execute Shard.process .empty messages = .ok (s, log) →
      ∀ symbol, Fresh s log symbol := by
  constructor
  · exact fun hs => run_returns messages hs hp
  · intro s log hrun symbol
    obtain ⟨hm, hc⟩ := run_cached hp hrun
    exact (hc symbol).fresh hm

/-- A bid, a bid behind it that changes nothing at the top, an ask that takes
    the first and rests with what is left, a cancellation of what is gone. -/
def quietMessages : List OrderMessage :=
  [messageOf .add .goodTillCancel 1 .buy ⟨0x4059400000000000⟩ 2,
    messageOf .add .goodTillCancel 2 .buy ⟨0x4059000000000000⟩ 2,
    messageOf .add .goodTillCancel 3 .sell ⟨0x4059400000000000⟩ 5,
    messageOf .cancel .goodTillCancel 1 .buy ⟨0⟩ 0]

theorem topOfBook_fresh_quiet :
    ((∀ message ∈ quietMessages, Sided message.side) →
      ∃ s log, execute Shard.process .empty quietMessages = .ok (s, log)) ∧
    ∀ s log, execute Shard.process .empty quietMessages = .ok (s, log) →
      ∀ symbol, Fresh s log symbol :=
  topOfBook_fresh quietMessages (by decide)

end OsxMarketData
