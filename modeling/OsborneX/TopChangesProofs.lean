import OsborneX.MarketDataProofs

/-! # What is published — changes, and the first message of a symbol

    The cache of a symbol starts as the default update, which is an update FOR
    SYMBOL 0.  So for symbol 0 a message that leaves the book without levels is
    silent, and for any other symbol the first message publishes whatever the
    book shows, a book without levels included.  From then on the cache holds
    what was published last, and only changes are published. -/

namespace OsxTopChanges

open OsxOrderbook OsxShard OsxPrice OsxMarketData Execution

/-! ## Sides of an update -/

/-- A side is there: it has a number for its price, or a quantity. -/
def ShowsSide (u : TopOfBookUpdate) : Prop :=
  u.bidPrice.isNaN = false ∨ u.bidQuantity ≠ 0 ∨
    u.askPrice.isNaN = false ∨ u.askQuantity ≠ 0

instance (u : TopOfBookUpdate) : Decidable (ShowsSide u) :=
  inferInstanceAs (Decidable (_ ∨ _))

theorem samePrice_quietNaN (p : Double) :
    samePrice .quietNaN p = true ↔ p.isNaN = true := by
  have hnan : Double.quietNaN.isNaN = true := by decide
  rw [samePrice, hnan]
  cases hp : p.isNaN with
  | true => exact iff_of_true rfl rfl
  | false =>
      have hne : (Double.quietNaN == p) = false := by
        show (!Double.quietNaN.isNaN && !p.isNaN && _) = false
        rw [hnan]
        rfl
      simp [hne]

/-- An update shows a side when it is not the default one. -/
theorem showsSide_iff {u : TopOfBookUpdate} :
    ShowsSide u ↔ ¬ SameTop {} u := by
  have hsame : SameTop {} u ↔ u.bidPrice.isNaN = true ∧ u.bidQuantity = 0 ∧
      u.askPrice.isNaN = true ∧ u.askQuantity = 0 := by
    constructor
    · rintro ⟨h1, h2, h3, h4⟩
      exact ⟨(samePrice_quietNaN _).mp h1, h2.symm, (samePrice_quietNaN _).mp h3,
        h4.symm⟩
    · rintro ⟨h1, h2, h3, h4⟩
      exact ⟨(samePrice_quietNaN _).mpr h1, h2.symm,
        (samePrice_quietNaN _).mpr h3, h4.symm⟩
  rw [hsame, ShowsSide]
  simp only [not_and_or, Bool.not_eq_true, ne_eq]

/-- A book without levels shows none. -/
theorem not_showsSide_bare (symbol : SymbolId) (n : Nat) :
    ¬ ShowsSide (topOf ⟨[], []⟩ symbol n) := by
  rintro (hprice | hquantity | hprice | hquantity)
  · cases hprice
  · exact hquantity rfl
  · cases hprice
  · exact hquantity rfl

/-! ## The first message of a symbol -/

/-- A message that makes an empty book show a side: an order that is admitted
    without an opposite one, at a number or of a quantity. -/
structure Opens (message : OrderMessage) : Prop where
  action : message.action = .add
  type : message.type = .goodTillCancel ∨ ∃ value, message.type = .other value
  shown : message.price.isNaN = false ∨ message.quantity % 2 ^ 32 ≠ 0

/-- An order that is admitted without an opposite one is the book's only
    level. -/
theorem call_rests {type : OsxOrderbook.OrderType}
    (htype : type = .goodTillCancel ∨ ∃ value, type = .other value)
    {id : OrderId} {side : Side} {price : Double} {quantity : Nat}
    {book : Orderbook Double} {trades : List (Trade Double)}
    (h : (Orderbook.empty : Orderbook Double).call
      (.addOrder type id side price quantity) = .ok (book, trades)) :
    book.getOrderInfos = ⟨[⟨price, wrapAdd 0 quantity⟩], []⟩ ∨
      book.getOrderInfos = ⟨[], [⟨price, wrapAdd 0 quantity⟩]⟩ := by
  rcases htype with rfl | ⟨value, rfl⟩
  · cases side with
    | buy =>
        cases h
        exact Or.inl rfl
    | sell =>
        cases h
        exact Or.inr rfl
    | other value => cases h
  · cases side with
    | buy =>
        cases h
        exact Or.inl rfl
    | sell =>
        cases h
        exact Or.inr rfl
    | other value => cases h

/-- The other types are turned away without an opposite order. -/
theorem call_dropped {type : OsxOrderbook.OrderType}
    (htype : type = .fillAndKill ∨ type = .fillOrKill ∨ type = .market)
    {id : OrderId} {side : Side} {price : Double} {quantity : Nat}
    {book : Orderbook Double} {trades : List (Trade Double)}
    (h : (Orderbook.empty : Orderbook Double).call
      (.addOrder type id side price quantity) = .ok (book, trades)) :
    book.getOrderInfos = ⟨[], []⟩ := by
  rcases htype with rfl | rfl | rfl
  · cases side <;> cases h
    · rfl
    · rfl
  · cases side <;> cases h
    · rfl
    · rfl
  · cases side <;> cases h
    · rfl
    · rfl
    · rfl

/-- **ONE MESSAGE ON AN EMPTY BOOK** makes it show a side exactly when it
    opens it. -/
theorem showsSide_iff_opens {message : OrderMessage} {n : Nat}
    {book : Orderbook Double} {trades : List (Trade Double)}
    (h : Shard.execute .empty message = .ok (book, trades)) :
    ShowsSide (topOf book.getOrderInfos message.symbol n) ↔ Opens message := by
  have hbare : book.getOrderInfos = ⟨[], []⟩ → ¬ Opens message →
      (ShowsSide (topOf book.getOrderInfos message.symbol n) ↔
        Opens message) := by
    intro hinfos hno
    rw [hinfos]
    exact iff_of_false (not_showsSide_bare _ _) hno
  have hother : message.action ≠ .add → ¬ Opens message :=
    fun hne ho => hne ho.action
  rw [Shard.execute, Shard.callOf] at h
  cases haction : message.action with
  | add =>
      rw [haction] at h
      -- without a resting order to match, only these types come to rest
      by_cases htype : message.type = .goodTillCancel ∨
          ∃ value, message.type = .other value
      · have hshown : ShowsSide (topOf book.getOrderInfos message.symbol n) ↔
            message.price.isNaN = false ∨ message.quantity % 2 ^ 32 ≠ 0 := by
          have hzero : wrapAdd 0 message.quantity
              = message.quantity % 2 ^ 32 := by
            rw [wrapAdd, Nat.zero_add]
          have hnan : Double.quietNaN.isNaN = true := by decide
          rcases call_rests htype h with hinfos | hinfos
          · rw [hinfos]
            simp [ShowsSide, topOf, hzero, hnan]
          · rw [hinfos]
            simp [ShowsSide, topOf, hzero, hnan]
        rw [hshown]
        exact ⟨fun hs => ⟨haction, htype, hs⟩, fun ho => ho.shown⟩
      · refine hbare (call_dropped ?_ h) (fun ho => htype ho.type)
        cases hvalue : message.type with
        | goodTillCancel => exact absurd (Or.inl hvalue) htype
        | fillAndKill => exact Or.inl rfl
        | fillOrKill => exact Or.inr (Or.inl rfl)
        | market => exact Or.inr (Or.inr rfl)
        | other value => exact absurd (Or.inr ⟨value, hvalue⟩) htype
  | cancel | modify =>
      rw [haction] at h
      cases h
      exact hbare rfl (hother (by rw [haction]; simp))
  | other value =>
      rw [haction] at h
      cases h
      exact hbare rfl (hother (by rw [haction]; simp))

/-! ## The stream of a symbol -/

/-- The updates published for a symbol. -/
def topsOf (symbol : SymbolId) (log : List Published) :
    List TopOfBookUpdate :=
  (log.filterMap Published.top).filter (fun update => update.symbol == symbol)

theorem topsOf_append (symbol : SymbolId) (log log' : List Published) :
    topsOf symbol (log ++ log') = topsOf symbol log ++ topsOf symbol log' := by
  rw [topsOf, List.filterMap_append, List.filter_append, topsOf, topsOf]

theorem topsOf_silent {symbol : SymbolId} {published : Published}
    (h : ∀ update ∈ published.top, update.symbol ≠ symbol) :
    topsOf symbol [published] = [] := by
  cases htop : published.top with
  | none => simp [topsOf, htop]
  | some update =>
      have hne := h update htop
      simp [topsOf, htop, hne]

theorem topsOf_published {published : Published} {update : TopOfBookUpdate}
    (h : published.top = some update) :
    topsOf update.symbol [published] = [update] := by
  simp [topsOf, h]

/-- A top of book is read off the book. -/
theorem makeTopOfBook_eq (s : Shard) (symbol : SymbolId) (n : Nat) :
    s.makeTopOfBook symbol n = topOf (s.book symbol).getOrderInfos symbol n := by
  rw [Shard.makeTopOfBook, Shard.book]
  cases s.books.find? symbol <;> rfl

/-- What is published for a symbol so far: the cache follows it, neighbours
    differ, and symbol 0 starts with a side. -/
structure Streamed (s : Shard) (log : List Published) : Prop where
  cached : ∀ symbol, Cached s log symbol
  differs : ∀ symbol, (topsOf symbol log).IsChain (fun a b => ¬ SameTop a b)
  zero : ∀ u ∈ (topsOf 0 log).head?, ShowsSide u

theorem streamed_empty : Streamed .empty [] where
  cached := fun _ => ⟨rfl, rfl⟩
  differs := fun _ => List.isChain_nil
  zero := fun _ hu => by cases hu

/-- An update is published when the cache does not show it. -/
theorem published_iff {s s' : Shard} {message : OrderMessage}
    {published : Published} (hok : s.process message = .ok (s', published)) :
    (∀ update, published.top = some update ↔
      topOfBookEqual ((s.lastTop.find? message.symbol).getD {})
        (s'.makeTopOfBook message.symbol message.ingressSequence) = false ∧
      update = s'.makeTopOfBook message.symbol message.ingressSequence) := by
  obtain ⟨-, update, hupdate, hcases⟩ := process_top hok
  subst hupdate
  intro update
  by_cases hsame : topOfBookEqual ((s.lastTop.find? message.symbol).getD {})
      (s'.makeTopOfBook message.symbol message.ingressSequence) = true
  · rw [if_pos hsame] at hcases
    rw [hcases.1]
    simp [hsame]
  · rw [if_neg hsame] at hcases
    rw [hcases.1]
    simp [hsame, eq_comm]

/-- What was published last for a symbol is what is cached; where nothing was
    published, the default is. -/
theorem cached_latest {s : Shard} {log : List Published} {symbol : SymbolId}
    (h : Cached s log symbol) :
    (∀ last ∈ latest symbol log,
      s.lastTop.find? symbol = some last ∧ last.symbol = symbol) ∧
    (latest symbol log = none → (s.lastTop.find? symbol).getD {} = {}) := by
  rw [Cached] at h
  cases hfind : s.lastTop.find? symbol with
  | none =>
      rw [hfind] at h
      refine ⟨fun last hl => ?_, fun _ => rfl⟩
      rw [h.2] at hl
      cases hl
  | some cache =>
      rw [hfind] at h
      obtain ⟨hshows, hcase⟩ := h
      have hsymbol : cache.symbol = symbol :=
        (topOfBookEqual_iff.mp (hshows 0)).1.trans (makeTopOfBook_symbol ..)
      obtain hlatest | ⟨hlatest, rfl⟩ := hcase
      · refine ⟨fun last hl => ?_, fun hnone => ?_⟩
        · rw [hlatest] at hl
          cases hl
          exact ⟨rfl, hsymbol⟩
        · rw [hlatest] at hnone
          cases hnone
      · refine ⟨fun last hl => ?_, fun _ => rfl⟩
        rw [hlatest] at hl
        cases hl

/-- **ONE MESSAGE** keeps the streams. -/
theorem Streamed.process {s s' : Shard} {log : List Published}
    (h : Streamed s log) {message : OrderMessage} {published : Published}
    (hok : s.process message = .ok (s', published)) :
    Streamed s' (log ++ [published]) := by
  have hcached := Cached.process h.cached hok
  have hiff := published_iff hok
  cases htop : published.top with
  | none =>
      have hquiet : ∀ symbol, topsOf symbol [published] = [] :=
        fun symbol => topsOf_silent (by simp [htop])
      refine ⟨hcached, fun symbol => ?_, ?_⟩
      · rw [topsOf_append, hquiet, List.append_nil]
        exact h.differs symbol
      · rw [topsOf_append, hquiet, List.append_nil]
        exact h.zero
  | some update =>
      obtain ⟨hchanged, hupdate⟩ := (hiff update).mp htop
      have hsymbol : update.symbol = message.symbol := by
        rw [hupdate, makeTopOfBook_symbol]
      rw [← hupdate] at hchanged
      have hown := topsOf_published htop
      rw [hsymbol] at hown
      have hothers : ∀ symbol, symbol ≠ message.symbol →
          topsOf symbol [published] = [] := by
        intro symbol hne
        refine topsOf_silent (fun u hu => ?_)
        rw [htop] at hu
        cases hu
        rw [hsymbol]
        exact Ne.symm hne
      obtain ⟨hlatest, hnone⟩ := cached_latest (h.cached message.symbol)
      refine ⟨hcached, fun symbol => ?_, ?_⟩
      · rw [topsOf_append]
        by_cases heq : symbol = message.symbol
        · subst heq
          rw [hown]
          refine (h.differs _).append (List.isChain_singleton _) ?_
          intro last hl u hu hsame
          cases hu
          obtain ⟨hcache, hsymbol'⟩ := hlatest last hl
          rw [hcache, Option.getD_some, topOfBookEqual_iff.mpr
            ⟨hsymbol'.trans hsymbol.symm, hsame⟩] at hchanged
          cases hchanged
        · rw [hothers symbol heq, List.append_nil]
          exact h.differs symbol
      · rw [topsOf_append]
        intro u hu
        cases hlog : topsOf 0 log with
        | cons first rest =>
            refine h.zero u ?_
            rw [hlog] at hu ⊢
            exact hu
        | nil =>
            rw [hlog, List.nil_append] at hu
            by_cases hzero : message.symbol = 0
            · rw [hzero] at hown hsymbol hchanged hnone
              rw [hown] at hu
              cases hu
              rw [showsSide_iff]
              intro hsame
              -- nothing was published for symbol 0, so the cache is the default
              have hdefault : (s.lastTop.find? 0).getD {} = {} := by
                refine hnone ?_
                show (topsOf 0 log).getLast? = none
                rw [hlog]
                rfl
              rw [hdefault, topOfBookEqual_iff.mpr ⟨hsymbol.symm, hsame⟩]
                at hchanged
              cases hchanged
            · rw [hothers 0 (Ne.symm hzero)] at hu
              cases hu

/-! ## Every run -/

/-- After any run the streams are right. -/
theorem run_streamed {messages : List OrderMessage} {s : Shard}
    {log : List Published}
    (hrun : execute Shard.process .empty messages = .ok (s, log)) :
    Streamed s log :=
  execute_account (fun _ _ _ _ _ h hok => h.process hok)
    streamed_empty hrun

/-- A symbol is cached once a message of it was processed. -/
theorem run_seen {messages : List OrderMessage} {s : Shard}
    {log : List Published}
    (hrun : execute Shard.process .empty messages = .ok (s, log))
    (symbol : SymbolId) :
    (s.lastTop.find? symbol).isSome = true ↔
      ∃ m ∈ messages, m.symbol = symbol := by
  refine execute_trace (I := fun messages s _ =>
    (s.lastTop.find? symbol).isSome = true ↔ ∃ m ∈ messages, m.symbol = symbol)
    ?_ ?_ hrun
  · intro messages s log message s' published hI hok
    obtain ⟨hother, update, -, hcases⟩ := process_top hok
    by_cases heq : symbol = message.symbol
    · have hown : (s'.lastTop.find? message.symbol).isSome = true := by
        split at hcases
        · rw [hcases.2]
          rfl
        · rw [hcases.2]
          rfl
      rw [heq]
      exact iff_of_true hown ⟨message, by simp, rfl⟩
    · rw [(hother symbol heq).1, hI]
      simp [Ne.symm heq]
  · simp [Shard.empty]

/-- Of a symbol without messages nothing is cached or published, and its book
    is empty. -/
theorem run_unseen {messages : List OrderMessage} {s : Shard}
    {log : List Published}
    (hrun : execute Shard.process .empty messages = .ok (s, log))
    {symbol : SymbolId} (h : ∀ m ∈ messages, m.symbol ≠ symbol) :
    s.lastTop.find? symbol = none ∧ topsOf symbol log = [] ∧
      s.book symbol = .empty := by
  have hunseen : s.lastTop.find? symbol = none := by
    rw [← Option.not_isSome_iff_eq_none, run_seen hrun]
    rintro ⟨m, hm, heq⟩
    exact h m hm heq
  have hcached := (run_streamed hrun).cached symbol
  rw [Cached, hunseen] at hcached
  obtain ⟨hbooks, hlatest⟩ := hcached
  refine ⟨hunseen, List.getLast?_eq_none_iff.mp hlatest, ?_⟩
  rw [Shard.book, hbooks]
  rfl

/-- **THE FIRST MESSAGE OF A SYMBOL OTHER THAN 0** publishes what its book
    shows, whatever that is. -/
theorem first_published {messages : List OrderMessage} {s : Shard}
    {log : List Published}
    (hrun : execute Shard.process .empty messages = .ok (s, log))
    {symbol : SymbolId} (hne : symbol ≠ 0) {m : OrderMessage}
    (hfirst : messages.find? (fun m => m.symbol == symbol) = some m) :
    ∃ book trades, Shard.execute .empty m = .ok (book, trades) ∧
      (topsOf symbol log).head?
        = some (topOf book.getOrderInfos symbol m.ingressSequence) := by
  obtain ⟨hsymbol, before, after, rfl, hbefore⟩ :=
    List.find?_eq_some_iff_append.mp hfirst
  have hsymbol : m.symbol = symbol := beq_iff_eq.mp hsymbol
  subst hsymbol
  obtain ⟨s₁, log₁, log₂, hrun₁, hrun₂, rfl⟩ := execute_append.mp hrun
  obtain ⟨s₂, published, log₃, hok, -, rfl⟩ := execute_cons_ok hrun₂
  -- nothing is known of the symbol before
  have hnever : ∀ m' ∈ before, m'.symbol ≠ m.symbol := by
    intro m' hm'
    simpa using hbefore m' hm'
  obtain ⟨hunseen, hquiet, hempty⟩ := run_unseen hrun₁ hnever
  obtain ⟨book, trades, hexecute, -, hbook⟩ :=
    OsxSoundRun.execute_of_process hok
  have hmake : s₂.makeTopOfBook m.symbol m.ingressSequence
      = topOf book.getOrderInfos m.symbol m.ingressSequence := by
    rw [makeTopOfBook_eq, hbook, if_pos rfl]
  have hdiffers : topOfBookEqual {}
      (s₂.makeTopOfBook m.symbol m.ingressSequence) = false := by
    by_contra hequal
    rw [Bool.not_eq_false] at hequal
    have hsymbol := (topOfBookEqual_iff.mp hequal).1
    rw [makeTopOfBook_symbol] at hsymbol
    exact hne hsymbol.symm
  have htop := (published_iff hok _).mpr ⟨by rw [hunseen]; exact hdiffers, rfl⟩
  have hown := topsOf_published htop
  rw [makeTopOfBook_symbol] at hown
  refine ⟨book, trades, by rw [← hempty]; exact hexecute, ?_⟩
  have hsplit : topsOf m.symbol (published :: log₃)
      = topsOf m.symbol [published] ++ topsOf m.symbol log₃ :=
    topsOf_append _ [published] log₃
  rw [topsOf_append, hquiet, List.nil_append, hsplit, hown, ← hmake]
  rfl

/-- A top of book is published only when something changed: the first for a
    symbol shows a side, each next one differs from the one before, and a
    message after which the book reports the same levels publishes none. -/
structure OnlyChanges (messages : List OrderMessage) (log : List Published) :
    Prop where
  first : ∀ symbol, ∀ u ∈ (topsOf symbol log).head?, ShowsSide u
  differs : ∀ symbol, (topsOf symbol log).IsChain (fun a b => ¬ SameTop a b)
  unchanged : ∀ before m after s₁ log₁ s₂ published,
    messages = before ++ m :: after →
    execute Shard.process .empty before = .ok (s₁, log₁) →
    s₁.process m = .ok (s₂, published) →
    (s₂.book m.symbol).getOrderInfos = (s₁.book m.symbol).getOrderInfos →
    published.top = none

/-- **ONLY CHANGES ARE PUBLISHED** in exactly those runs in which the first
    message of every symbol but 0 opens its book. -/
theorem onlyChanges_iff {messages : List OrderMessage} {s : Shard}
    {log : List Published}
    (hrun : execute Shard.process .empty messages = .ok (s, log)) :
    OnlyChanges messages log ↔ ∀ symbol, symbol ≠ 0 →
      ∀ m ∈ messages.find? (fun m => m.symbol == symbol), Opens m := by
  have hstreamed := run_streamed hrun
  constructor
  · intro honly symbol hne m hm
    obtain ⟨book, trades, hexecute, hhead⟩ := first_published hrun hne hm
    have hsymbol : m.symbol = symbol := by
      simpa using List.find?_some hm
    have hshows := honly.first symbol _ hhead
    rw [← hsymbol] at hshows
    exact (showsSide_iff_opens hexecute).mp hshows
  · intro hopens
    refine ⟨?_, hstreamed.differs, ?_⟩
    · intro symbol u hu
      by_cases hzero : symbol = 0
      · subst hzero
        exact hstreamed.zero u hu
      · -- the head of a symbol's stream comes from its first message
        cases hfind : messages.find? (fun m => m.symbol == symbol) with
        | some m =>
            obtain ⟨book, trades, hexecute, hhead⟩ :=
              first_published hrun hzero hfind
            have hsymbol : m.symbol = symbol := by
              simpa using List.find?_some hfind
            rw [hhead] at hu
            cases hu
            rw [← hsymbol]
            exact (showsSide_iff_opens hexecute).mpr (hopens symbol hzero m hfind)
        | none =>
            have hnever : ∀ m ∈ messages, m.symbol ≠ symbol := by
              simpa using hfind
            rw [(run_unseen hrun hnever).2.1] at hu
            cases hu
    · intro before m after s₁ log₁ s₂ published hsplit hrun₁ hok hsame
      by_contra hnot
      obtain ⟨update, htop⟩ := Option.ne_none_iff_exists'.mp hnot
      obtain ⟨hchanged, -⟩ := (published_iff hok update).mp htop
      rw [makeTopOfBook_eq, hsame, ← makeTopOfBook_eq] at hchanged
      by_cases hseen : ∃ m' ∈ before, m'.symbol = m.symbol
      · -- the cache shows the book as it was
        have hcached := (run_streamed hrun₁).cached m.symbol
        obtain ⟨last, hlast⟩ :=
          Option.isSome_iff_exists.mp ((run_seen hrun₁ _).mpr hseen)
        rw [Cached, hlast] at hcached
        rw [hlast, Option.getD_some, hcached.1] at hchanged
        cases hchanged
      · have hnever : ∀ m' ∈ before, m'.symbol ≠ m.symbol :=
          fun m' hm' heq => hseen ⟨m', hm', heq⟩
        obtain ⟨hunseen, -, hempty⟩ := run_unseen hrun₁ hnever
        by_cases hzero : m.symbol = 0
        · -- a book without levels is what the default shows
          rw [hunseen, Option.getD_none, makeTopOfBook_eq, hempty, hzero]
            at hchanged
          have hequal : topOfBookEqual {} (topOf
              (Orderbook.empty : Orderbook Double).getOrderInfos 0
              m.ingressSequence) = true :=
            topOfBookEqual_iff.mpr ⟨rfl, samePrice_refl _, rfl,
              samePrice_refl _, rfl⟩
          rw [hequal] at hchanged
          cases hchanged
        · -- it is the symbol's first message, so it opened the book
          have hfind : messages.find? (fun m' => m'.symbol == m.symbol)
              = some m := by
            refine List.find?_eq_some_iff_append.mpr ⟨beq_self_eq_true _,
              before, after, hsplit, ?_⟩
            intro m' hm'
            simpa using hnever m' hm'
          obtain ⟨book, trades, hexecute, -, hbook⟩ :=
            OsxSoundRun.execute_of_process hok
          rw [hempty] at hexecute hsame
          have hshows := (showsSide_iff_opens (n := 0) hexecute).mpr
            (hopens _ hzero m hfind)
          rw [hbook, if_pos rfl] at hsame
          rw [hsame] at hshows
          exact not_showsSide_bare _ _ hshows

/-- A message of symbol 1. -/
def messageOfOne (action : OrderAction) (orderId : OrderId) (quantity : Nat) :
    OrderMessage where
  sourceTimestamp := 0
  ingressTimestamp := 0
  ingressSequence := 0
  source := 0
  symbol := 1
  orderId := orderId
  side := .buy
  price := ⟨0x4059000000000000⟩
  quantity := quantity
  type := .goodTillCancel
  action := action

/-- A bid, the same bid again, and a cancel of an id nobody has. -/
def openedMessages : List OrderMessage :=
  [messageOfOne .add 1 5, messageOfOne .add 1 5, messageOfOne .cancel 2 0]

theorem onlyChanges_opened : ∃ s log,
    execute Shard.process .empty openedMessages = .ok (s, log) ∧
    OnlyChanges openedMessages log := by
  refine ⟨_, _, rfl, (onlyChanges_iff rfl).mpr ?_⟩
  intro symbol _ m hm
  have hfirst : m = messageOfOne .add 1 5 := by
    by_cases hone : symbol = 1
    · subst hone
      exact (Option.some.inj hm).symm
    · have hnone : openedMessages.find? (fun m => m.symbol == symbol) = none := by
        simp [openedMessages, messageOfOne, Ne.symm hone]
      rw [hnone] at hm
      cases hm
  rw [hfirst]
  exact ⟨rfl, Or.inl rfl, Or.inl (by decide)⟩

/-- A cancel of an id nobody has, as the first message of symbol 1: an update
    without sides is published, and nothing changed. -/
theorem idle_published : ∃ s log,
    execute Shard.process .empty [messageOfOne .cancel 2 0] = .ok (s, log) ∧
    log = [⟨[], some { symbol := 1 }⟩] ∧ ¬ ShowsSide { symbol := 1 } ∧
    ¬ OnlyChanges [messageOfOne .cancel 2 0] log := by
  refine ⟨_, _, rfl, by decide +kernel, by decide +kernel, ?_⟩
  intro honly
  exact absurd (honly.first 1 { symbol := 1 } (by decide +kernel))
    (by decide +kernel)

end OsxTopChanges
