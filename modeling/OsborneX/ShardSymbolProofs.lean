import OsborneX.ShardModel
import OsborneX.ExecutionProofs

/-! # One symbol of a shard — the others do not matter

    `process` reads and writes the entries of its message's symbol alone, in
    `books_` and in `last_top_`.  So what a shard does with the messages of one
    symbol is what a shard does that is given no others, and its book is that of
    an orderbook on its own. -/

namespace OsxShard

open OsxOrderbook OsxPrice Execution

/-! ## Shards that agree on a symbol -/

/-- The entries of the symbol are the same. -/
structure Agrees (symbol : SymbolId) (s t : Shard) : Prop where
  books : s.books.find? symbol = t.books.find? symbol
  lastTop : s.lastTop.find? symbol = t.lastTop.find? symbol

theorem Agrees.refl (symbol : SymbolId) (s : Shard) : Agrees symbol s s :=
  ⟨rfl, rfl⟩

/-- What `process` publishes and caches, from the book it left and what was
    cached before. -/
def refresh (message : OrderMessage) (book : Orderbook Double)
    (last : TopOfBookUpdate) : Option TopOfBookUpdate × TopOfBookUpdate :=
  let update :=
    topOf book.getOrderInfos message.symbol message.ingressSequence
  if topOfBookEqual last update then (none, last) else (some update, update)

/-- `process`, from the entries of its symbol. -/
theorem process_eq {s : Shard} {message : OrderMessage}
    {book : Orderbook Double} {trades : List (Trade Double)}
    (h : Shard.execute (s.book message.symbol) message = .ok (book, trades)) :
    s.process message = .ok
      ({ books := s.books.upsert message.symbol (fun _ => book)
         lastTop := s.lastTop.upsert message.symbol (fun _ =>
          (refresh message book
            ((s.lastTop.find? message.symbol).getD {})).2) },
        { trades := trades.map (executionOf message)
          top := (refresh message book
            ((s.lastTop.find? message.symbol).getD {})).1 }) := by
  have htop : Shard.makeTopOfBook
      { s with books := s.books.upsert message.symbol (fun _ => book) }
      message.symbol message.ingressSequence
      = topOf book.getOrderInfos message.symbol message.ingressSequence := by
    rw [Shard.makeTopOfBook, HashTable.find?_upsert, if_pos rfl]
  rw [Shard.process, h]
  show Except.ok _ = Except.ok _
  dsimp only
  rw [htop, refresh]
  cases topOfBookEqual ((s.lastTop.find? message.symbol).getD {})
    (topOf book.getOrderInfos message.symbol message.ingressSequence) <;> rfl

/-- A message that was processed went through the switch. -/
theorem execute_of_processed {s s' : Shard} {message : OrderMessage}
    {published : Published} (h : s.process message = .ok (s', published)) :
    ∃ book trades,
      Shard.execute (s.book message.symbol) message = .ok (book, trades) := by
  obtain ⟨⟨book, trades⟩, hexecute, -⟩ := bind_ok h
  exact ⟨book, trades, hexecute⟩

/-- A message leaves the entries of the other symbols alone. -/
theorem process_other {s s' : Shard} {message : OrderMessage}
    {published : Published} (h : s.process message = .ok (s', published))
    {symbol : SymbolId} (hne : message.symbol ≠ symbol) :
    Agrees symbol s' s := by
  obtain ⟨book, trades, hexecute⟩ := execute_of_processed h
  rw [process_eq hexecute] at h
  cases h
  refine ⟨?_, ?_⟩
  · rw [HashTable.find?_upsert, if_neg (Ne.symm hne)]
  · rw [HashTable.find?_upsert, if_neg (Ne.symm hne)]

/-- What a message does depends on the entries of its symbol alone. -/
theorem process_agrees {s s' t : Shard} {message : OrderMessage}
    {published : Published} (hagree : Agrees message.symbol s t)
    (h : s.process message = .ok (s', published)) :
    ∃ t', t.process message = .ok (t', published) ∧
      Agrees message.symbol s' t' := by
  obtain ⟨book, trades, hexecute⟩ := execute_of_processed h
  have hbook : s.book message.symbol = t.book message.symbol := by
    rw [Shard.book, Shard.book, hagree.books]
  rw [process_eq hexecute] at h
  rw [hbook] at hexecute
  rw [hagree.lastTop] at h
  cases h
  refine ⟨_, process_eq hexecute, ?_, ?_⟩
  · rw [HashTable.find?_upsert, HashTable.find?_upsert, if_pos rfl, if_pos rfl]
  · rw [HashTable.find?_upsert, HashTable.find?_upsert, if_pos rfl, if_pos rfl]

/-! ## What a message publishes -/

/-- Everything published carries the symbol of the message. -/
theorem published_symbol {s s' : Shard} {message : OrderMessage}
    {published : Published} (h : s.process message = .ok (s', published)) :
    (∀ trade ∈ published.trades, trade.symbol = message.symbol) ∧
      ∀ update, published.top = some update →
        update.symbol = message.symbol ∧
        update.sequence = message.ingressSequence := by
  obtain ⟨book, trades, hexecute⟩ := execute_of_processed h
  rw [process_eq hexecute] at h
  cases h
  constructor
  · intro trade hmem
    obtain ⟨t, -, rfl⟩ := List.mem_map.mp hmem
    rfl
  · intro update hupdate
    rw [refresh] at hupdate
    split at hupdate
    · cases hupdate
    · cases hupdate
      rw [topOf]
      cases book.getOrderInfos.bids <;> cases book.getOrderInfos.asks <;>
        exact ⟨rfl, rfl⟩

/-! ## The clock -/

/-- A trade without the time it was stamped. -/
def TradeExecution.untimed (trade : TradeExecution) : TradeExecution :=
  { trade with timestamp := 0 }

/-- What was published, without the time it was stamped. -/
def Published.untimed (published : Published) : Published :=
  { published with trades := published.trades.map TradeExecution.untimed }

/-- The clock is seen in the timestamps of the trades alone. -/
theorem process_untimed (s : Shard) (message : OrderMessage) :
    s.process { message with ingressTimestamp := 0 }
      = (s.process message).map (fun r => (r.1, r.2.untimed)) := by
  cases hexecute : Shard.execute (s.book message.symbol) message with
  | error fault =>
      have hexecute' : Shard.execute (s.book message.symbol)
          { message with ingressTimestamp := 0 } = .error fault := hexecute
      rw [Shard.process, Shard.process, hexecute, hexecute']
      rfl
  | ok r =>
      obtain ⟨book, trades⟩ := r
      have hexecute' : Shard.execute (s.book message.symbol)
          { message with ingressTimestamp := 0 } = .ok (book, trades) :=
        hexecute
      rw [process_eq hexecute, process_eq hexecute']
      show Except.ok _ = Except.ok (_, Published.untimed _)
      rw [Published.untimed, List.map_map]
      rfl

/-! ## Runs -/

/-- Everything a run publishes carries the symbol of the message behind it. -/
theorem run_published {done : List (OrderMessage × Published)} :
    ∀ {s s' : Shard}, execute Shard.process s (done.map Prod.fst)
        = .ok (s', done.map Prod.snd) →
      ∀ d ∈ done, (∀ trade ∈ d.2.trades, trade.symbol = d.1.symbol) ∧
        ∀ update, d.2.top = some update →
          update.symbol = d.1.symbol ∧
          update.sequence = d.1.ingressSequence := by
  induction done with
  | nil => exact fun _ _ hmem => absurd hmem List.not_mem_nil
  | cons d done ih =>
      intro s s' h d' hmem
      obtain ⟨s₁, p, os, hprocess, hrest, heq⟩ := execute_cons_ok h
      obtain ⟨rfl, rfl⟩ := List.cons.inj heq
      rcases List.mem_cons.mp hmem with rfl | hmem
      · exact published_symbol hprocess
      · exact ih hrest d' hmem

/-- **ONE SYMBOL OF A RUN** is a run over its messages alone. -/
theorem run_symbol (symbol : SymbolId)
    {done : List (OrderMessage × Published)} {s : Shard}
    (h : execute Shard.process .empty (done.map Prod.fst)
      = .ok (s, done.map Prod.snd)) :
    ∃ t, execute Shard.process .empty
        ((done.filter (fun d => d.1.symbol = symbol)).map Prod.fst)
        = .ok (t, (done.filter (fun d => d.1.symbol = symbol)).map Prod.snd) ∧
      Agrees symbol s t := by
  obtain ⟨t, published, hrun, hagree, hsame⟩ :=
    execute_filter (R := Agrees symbol) (Q := Eq)
      (p := fun message => message.symbol = symbol)
      (fun s t message s' published hst hne hok =>
        ⟨(process_other hok hne).books.trans hst.books,
          (process_other hok hne).lastTop.trans hst.lastTop⟩)
      (fun s t message s' published hst heq hok => by
        subst heq
        obtain ⟨t', hok', hst'⟩ := process_agrees hst hok
        exact ⟨t', published, hok', hst', rfl⟩)
      done .empty .empty s (.refl symbol _) h
  rw [List.forall₂_eq_eq_eq] at hsame
  rw [hsame]
  exact ⟨t, hrun, hagree⟩

/-- A message gives its symbol a book. -/
theorem process_known {s s' : Shard} {message : OrderMessage}
    {published : Published} (h : s.process message = .ok (s', published)) :
    s'.books.find? message.symbol = some (s'.book message.symbol) ∧
      ∃ trades, Shard.execute (s.book message.symbol) message
        = .ok (s'.book message.symbol, trades) := by
  obtain ⟨book, trades, hexecute⟩ := execute_of_processed h
  rw [process_eq hexecute] at h
  cases h
  have hfind : (s.books.upsert message.symbol (fun _ => book)).find?
      message.symbol = some book := by
    rw [HashTable.find?_upsert, if_pos rfl]
  rw [Shard.book, hfind]
  exact ⟨rfl, trades, hexecute⟩

/-- A symbol has a book once there was a message. -/
theorem run_known (symbol : SymbolId) {messages : List OrderMessage} :
    ∀ {s s' : Shard} {published : List Published},
      execute Shard.process s messages = .ok (s', published) →
      s'.books.find? symbol
        = if messages.filter (fun message => message.symbol = symbol) = []
          then s.books.find? symbol else some (s'.book symbol) := by
  induction messages using List.reverseRecOn with
  | nil =>
      intro s s' published h
      cases h
      rfl
  | append_singleton messages message ih =>
      intro s s' published h
      obtain ⟨s₁, p₁, p₂, hrun, hrest, rfl⟩ := execute_append.mp h
      obtain ⟨s₂, p, p₃, hprocess, hnil, rfl⟩ := execute_cons_ok hrest
      cases hnil
      by_cases heq : message.symbol = symbol
      · have hne : (messages ++ [message]).filter
            (fun message => message.symbol = symbol) ≠ [] := by
          rw [List.filter_append, List.filter_cons_of_pos (by simpa using heq)]
          exact List.append_ne_nil_of_right_ne_nil _ (List.cons_ne_nil _ _)
        rw [if_neg hne]
        subst heq
        exact (process_known hprocess).1
      · have hsame := (process_other hprocess heq).books
        rw [List.filter_append, List.filter_cons_of_neg (by simpa using heq),
          List.filter_nil, List.append_nil, hsame, ih hrun, Shard.book,
          Shard.book, hsame]

/-- **THE BOOK OF A SYMBOL** is what an orderbook becomes that is given the
    messages of the symbol alone. -/
theorem run_book (symbol : SymbolId)
    {done : List (OrderMessage × Published)} {s : Shard}
    (h : execute Shard.process .empty (done.map Prod.fst)
      = .ok (s, done.map Prod.snd)) :
    ∃ trades, execute Shard.execute .empty
        ((done.map Prod.fst).filter (fun message => message.symbol = symbol))
        = .ok (s.book symbol, trades) := by
  obtain ⟨book, trades, hrun, hbook, -⟩ :
      ∃ book trades, execute Shard.execute .empty
        ((done.filter (fun d => d.1.symbol = symbol)).map Prod.fst)
        = .ok (book, trades) ∧ s.book symbol = book ∧
        List.Forall₂ (fun _ _ => True) _ trades :=
    execute_filter (R := fun s book => s.book symbol = book)
      (p := fun message => message.symbol = symbol)
      (fun s book message s' published hs hne hok => by
        rw [← hs, Shard.book, Shard.book, (process_other hok hne).books])
      (fun s book message s' published hs heq hok => by
        subst heq
        obtain ⟨-, trades, hexecute⟩ := process_known hok
        rw [hs] at hexecute
        exact ⟨_, trades, hexecute, rfl, trivial⟩)
      done .empty .empty s rfl h
  rw [hbook, List.filter_map]
  exact ⟨trades, hrun⟩

end OsxShard
