import OsborneX.CancelledOrderProofs
import OsborneX.ClientStreamProofs
import OsborneX.ServerWireProofs

/-! # Cancel routing — from `cancel` to the book that holds the order

    The symbol of a cancel is not in the order it is for: the client looks it up
    in `_order_symbols`, and by it the server finds the shard and the shard the
    book.  So a cancel gets to the book its order was put into, behind that
    order, and takes it out (`cancel_routed`). -/

namespace OsxCancelRouting

open OsxShard OsxOrderEntry OsxServerWire OsxClientStream OsxParticipant
open Execution
open OsxCancelled (PublishedNames)
open OsxListener (ThreadId)
open OsxServerRun (Executed invokedBy simulationLog)
open OsxSharding (bare ofSymbol)
open OsxSimulation (processedAt shardForSymbol)
open OsxSoundRun (Priced)

/-! ## Behind its order -/

/-- What stands somewhere in the first of some messages has the same before it
    there. -/
theorem initial_split {T U : Type} {f : T → U} {before later : List U} {u : U}
    {items : List T} (h : before ++ u :: later <+: items.map f) :
    ∃ items₁ item items₂, items = items₁ ++ item :: items₂ ∧
      items₁.map f = before ∧ f item = u := by
  obtain ⟨rest, hrest⟩ := h
  rw [List.append_assoc] at hrest
  obtain ⟨items₁, tail, hsplit, hbefore, htail⟩ :=
    List.map_eq_append_iff.mp hrest.symm
  obtain ⟨item, items₂, rfl, hitem, -⟩ := List.map_eq_cons_iff.mp htail
  exact ⟨items₁, item, items₂, hsplit, hbefore, hitem⟩

theorem placed_of_bare {placed placed' : List OrderMessage}
    {message : OrderMessage} (hsame : placed'.map bare = placed.map bare)
    (h : Placed placed' message.orderId message.symbol) :
    Placed placed message.orderId message.symbol := by
  obtain ⟨add, hadd, haction, hid, hsymbol⟩ := h
  have hmem : bare add ∈ placed.map bare := hsame ▸ List.mem_map_of_mem hadd
  obtain ⟨add', hadd', heq⟩ := List.mem_map.mp hmem
  refine ⟨add', hadd', ?_, ?_, ?_⟩
  · exact (congrArg OrderMessage.action heq).trans haction
  · exact (congrArg OrderMessage.orderId heq).trans hid
  · exact (congrArg OrderMessage.symbol heq).trans hsymbol

/-- A cancel that a client sent comes behind its order, in whatever was read of
    the client's connection. -/
theorem cancel_behind {C : Type} [DecidableEq C] {source : Nat}
    {turns : List (C × Turn)} (hsided : ∀ d ∈ turns, SidedTurn d.2)
    {before later : List OrderMessage} {cancel : OrderMessage}
    (hread : (before ++ cancel :: later).map bare
      <+: (written (sends (.new source) turns)).map bare)
    (hcancel : cancel.action = .cancel) :
    Placed before cancel.orderId cancel.symbol := by
  rw [List.map_append, List.map_cons] at hread
  obtain ⟨items₁, item, items₂, hsplit, hbefore, hitem⟩ := initial_split hread
  obtain ⟨hproper, -⟩ := written_proper source hsided hsplit
  have haction : item.action = .cancel :=
    (congrArg OrderMessage.action hitem).trans hcancel
  rcases hproper.action with hadd | ⟨-, hplaced⟩
  · rw [haction] at hadd
    cases hadd
  · have hid : (bare item).orderId = (bare cancel).orderId :=
      congrArg OrderMessage.orderId hitem
    have hsymbol : (bare item).symbol = (bare cancel).symbol :=
      congrArg OrderMessage.symbol hitem
    exact placed_of_bare hbefore (hid ▸ hsymbol ▸ hplaced)

/-! ## Through the server -/

section Server

variable {count : Nat} [NeZero count]

/-- The book of a symbol, in the shard that owns it. -/
def bookOf (hash : SymbolId → Nat) (s : OsxServerRun.Server count)
    (symbol : SymbolId) : OsxOrderbook.Orderbook OsxPrice.Double :=
  (s.simulation.lanes (shardForSymbol hash count symbol)).shard.book symbol

/-- What the shard that owns a symbol published of its orders, one entry for
    each of them. -/
def publishedOf (hash : SymbolId → Nat) (log : List (OsxServerRun.Event count))
    (symbol : SymbolId) : List Published :=
  ((processedAt (shardForSymbol hash count symbol)
    (simulationLog log)).filter (fun d => d.1.symbol = symbol)).map Prod.snd

/-- **A CANCELLED ORDER IS OUT** on the server. -/
theorem executed_cancelled {hash : SymbolId → Nat}
    {s : OsxServerRun.Server count} {log : List (OsxServerRun.Event count)}
    {before later : List OrderMessage} {cancel : OrderMessage} {shard : Shard}
    {published : List Published}
    (hrun : execute Shard.process .empty
      (ofSymbol cancel.symbol (before ++ cancel :: later))
        = .ok (shard, published))
    (hexecuted : Executed hash s log cancel.symbol shard published)
    (hcancel : cancel.action = .cancel)
    (honce : ∀ m ∈ ofSymbol cancel.symbol later, m.action = .add →
      m.orderId ≠ cancel.orderId) :
    (bookOf hash s cancel.symbol).orders.contains cancel.orderId = false ∧
      ((∀ m ∈ ofSymbol cancel.symbol (before ++ cancel :: later), Priced m) →
        ∀ out ∈ (publishedOf hash log cancel.symbol).drop
            (ofSymbol cancel.symbol before).length,
          PublishedNames (fun id => id ≠ cancel.orderId) out) := by
  have hsplit : ofSymbol cancel.symbol (before ++ cancel :: later)
      = ofSymbol cancel.symbol before
        ++ cancel :: ofSymbol cancel.symbol later := by
    rw [ofSymbol, List.filter_append, List.filter_cons_of_pos (by simp)]
    rfl
  rw [hsplit] at hrun ⊢
  obtain ⟨hknown, hnames⟩ := OsxCancelled.run_cancelled hcancel
    (fun m hm => of_decide_eq_true (List.mem_filter.mp hm).2) honce hrun
  constructor
  · have hbook : bookOf hash s cancel.symbol = shard.book cancel.symbol := by
      rw [bookOf, Shard.book, Shard.book, hexecuted.agrees.books]
    rw [hbook, HashTable.contains]
    cases hfind : (shard.book cancel.symbol).orders.find? cancel.orderId with
    | none => rfl
    | some entry => exact absurd rfl (hknown cancel.orderId entry hfind)
  · rw [publishedOf, hexecuted.published]
    exact hnames

/-- **A CANCEL GETS TO ITS ORDER**: on a server that is down, whatever its
    clients and its threads did, the cancels that a Python client's threads made
    were executed behind the orders they are for, on their books.  After it the
    order is neither in the book nor in a trade, unless its id was added
    again. -/
theorem cancel_routed (C : Type) [DecidableEq C] {hash : SymbolId → Nat}
    {inboundCapacity inboundQueueCapacity : Nat} {binds : Bool}
    {streams : ThreadId → List Readiness} {actions : List (Action count)}
    {s : Server count} {log : List (OsxServerRun.Event count)}
    (hno : ∀ action ∈ actions, ∀ binds, action ≠ .server (.start binds))
    (hrun : execute (Server.step hash)
      (.new count inboundCapacity inboundQueueCapacity streams)
      (.server (.start binds) :: actions) = .ok (s, log))
    (hstopped : s.core.Stopped) :
    ∃ orders : List (ThreadId × OrderMessage),
      (∀ id, (orders.filter (fun d => d.1 = id)).map (fun d => bare d.2)
        = (invokedBy id log).map bare) ∧
      (∀ symbol, ∃ shard published,
        execute Shard.process .empty (ofSymbol symbol (orders.map Prod.snd))
          = .ok (shard, published) ∧
        Executed hash s.core log symbol shard published) ∧
      ∀ (id : ThreadId) (source : Nat) (turns : List (C × Turn)),
        Delivering (streams id) → (∀ d ∈ turns, SidedTurn d.2) →
        (∃ frames, (written (sends (.new source) turns)).mapM pythonFrame
          = some frames ∧ pending (streams id) <+: frames.flatten) →
        ∀ before cancel later, orders = before ++ (id, cancel) :: later →
          cancel.action = .cancel →
          (∃ add, (id, add) ∈ before ∧ add.action = .add ∧
            add.orderId = cancel.orderId ∧ add.symbol = cancel.symbol) ∧
          ((∀ d ∈ later, d.2.symbol = cancel.symbol → d.2.action = .add →
              d.2.orderId ≠ cancel.orderId) →
            (bookOf hash s.core cancel.symbol).orders.contains cancel.orderId
              = false ∧
            ((∀ m ∈ ofSymbol cancel.symbol (orders.map Prod.snd), Priced m) →
              ∀ out ∈ (publishedOf hash log cancel.symbol).drop
                  (ofSymbol cancel.symbol (before.map Prod.snd)).length,
                PublishedNames (fun id => id ≠ cancel.orderId) out)) := by
  obtain ⟨orders, hown, hengine⟩ := run_orders hno hrun hstopped
  refine ⟨orders, hown, hengine, ?_⟩
  rintro id source turns hd hsided ⟨frames, hframes, hpending⟩ before cancel
    later rfl hcancel
  constructor
  · have hsendable : ∀ message ∈ written (sends (.new source) turns),
        Sendable message := by
      intro message hm
      obtain ⟨part, rest, heq⟩ := List.append_of_mem hm
      exact (written_proper source hsided heq).2
    have hread := invokedBy_wrote hd hsendable
      (Or.inr ⟨frames, hframes, hpending⟩) hrun
    have hshown := hown id
    rw [bare_initial hread] at hshown
    rw [← hshown, List.filter_append, List.filter_cons_of_pos (by simp)] at hread
    have hmap : ∀ tagged : List (ThreadId × OrderMessage),
        tagged.map (fun d => bare d.2) = (tagged.map Prod.snd).map bare :=
      fun tagged => by rw [List.map_map]; rfl
    rw [hmap, List.map_append, List.map_cons] at hread
    obtain ⟨add, hadd, haction, hid, hsymbol⟩ :=
      cancel_behind hsided hread hcancel
    obtain ⟨⟨id', add'⟩, hown', rfl⟩ := List.mem_map.mp hadd
    obtain ⟨hmem, hsame⟩ := List.mem_filter.mp hown'
    obtain rfl : id' = id := of_decide_eq_true hsame
    exact ⟨add', hmem, haction, hid, hsymbol⟩
  · intro honce
    obtain ⟨shard, published, hshard, hexecuted⟩ := hengine cancel.symbol
    rw [List.map_append, List.map_cons] at hshard ⊢
    refine executed_cancelled hshard hexecuted hcancel (fun m hm => ?_)
    obtain ⟨hm, hsymbol⟩ := List.mem_filter.mp hm
    obtain ⟨d, hd, rfl⟩ := List.mem_map.mp hm
    exact honce d hd (of_decide_eq_true hsymbol)

end Server

open OsxSharding (orderAt100)

/-- One thread of a client buys, another cancels that order. -/
def sampleTurns : List (Nat × Turn) :=
  let order := orderAt100 10 1 .buy 5
  (0, .add ⟨order.symbol, order.side, order.price, order.quantity⟩) ::
    List.replicate 10 (0, .go 3 true) ++
    (1, .cancel 4 (OsxStrategy.makeOrderId 1 1)) ::
    List.replicate 3 (1, .go 4 true)

/-- What the client wrote, in one piece. -/
def sampleStream : ThreadId → List Readiness
  | 0 => [.readable (framesBytes
      ((written (sends (.new 1) sampleTurns)).map frameOf))]
  | _ => []

/-- An order goes from its connection to the worker. -/
def sampleOrder : List (Action 1) :=
  let only : Fin 1 := ⟨0, Nat.one_pos⟩
  [.server (.connection 0), .read 0, .server (.connection 0),
    .server (.pump 7), .server (.pump 8), .server (.worker only),
    .server (.worker only), .server (.worker only)]

def sampleRun : List (Action 1) :=
  let only : Fin 1 := ⟨0, Nat.one_pos⟩
  List.replicate 4 (.server .owner) ++
    [.server (.accept true), .server (.accept true)] ++
    sampleOrder ++ sampleOrder ++
    ([.stop, .owner, .accept false, .owner, .connection 0, .owner, .owner,
      .owner, .pump 9, .owner, .owner, .owner, .worker only, .owner, .owner,
      .owner, .owner] : List (OsxServerRun.Action 1)).map .server

theorem cancel_routed_two :
    ∃ s log orders, execute (Server.step id) (.new 1 4 1 sampleStream)
        (.server (.start true) :: sampleRun) = .ok (s, log) ∧
      (invokedBy 0 log).map OrderMessage.action = [.add, .cancel] ∧
      ((orders : List (ThreadId × OrderMessage)).filter
          (fun d => d.1 = 0)).map (fun d => bare d.2)
        = (invokedBy 0 log).map bare ∧
      ∀ before cancel later, orders = before ++ (0, cancel) :: later →
        cancel.action = .cancel →
        (∃ add, (0, add) ∈ before ∧ add.action = .add ∧
          add.orderId = cancel.orderId ∧ add.symbol = cancel.symbol) ∧
        ((∀ d ∈ later, d.2.symbol = cancel.symbol → d.2.action = .add →
            d.2.orderId ≠ cancel.orderId) →
          (bookOf id s.core cancel.symbol).orders.contains cancel.orderId
            = false) := by
  have hsided : ∀ d ∈ sampleTurns, SidedTurn d.2 := by
    decide +kernel
  have hevents : Delivering (sampleStream 0) ∧ pending (sampleStream 0)
      = ((written (sends (.new 1) sampleTurns)).map
          (fun message => (frameOf message).bytes)).flatten := by
    decide +kernel
  have hsendable : ∀ message ∈ written (sends (.new 1) sampleTurns),
      Sendable message := by
    intro message hm
    obtain ⟨part, rest, heq⟩ := List.append_of_mem hm
    exact (written_proper 1 hsided heq).2
  have heval : (execute (Server.step id) (.new 1 4 1 sampleStream)
      (.server (.start true) :: sampleRun)).toOption.map
        (fun r => decide (r.1.core.Stopped ∧
          (invokedBy 0 r.2).map OrderMessage.action = [.add, .cancel]))
        = some true := by
    decide +kernel
  cases hrun : execute (Server.step id) (.new 1 4 1 sampleStream)
      (.server (.start true) :: sampleRun) with
  | error e =>
      rw [hrun] at heval
      cases heval
  | ok r =>
      obtain ⟨s, log⟩ := r
      rw [hrun] at heval
      obtain ⟨hstopped, hinvoked⟩ :=
        of_decide_eq_true (Option.some.inj heval)
      obtain ⟨orders, hown, -, hcancels⟩ :=
        cancel_routed Nat (by decide) hrun hstopped
      refine ⟨s, log, orders, rfl, hinvoked, hown 0,
        fun before cancel later heq hcancel => ?_⟩
      obtain ⟨hplaced, hout⟩ := hcancels 0 1 sampleTurns hevents.1 hsided
        ⟨_, pythonFrames_eq hsendable, hevents.2 ▸ List.prefix_refl _⟩
        before cancel later heq hcancel
      exact ⟨hplaced, fun honce => (hout honce).1⟩

end OsxCancelRouting
