import OsborneX.OrderEntryLoopProofs
import OsborneX.ParticipantProofs

/-! # What a Python client writes — a cancel follows its order

    The threads of one `Client` share a connection.  `sendall` is called under
    `_send_lock`, so the frames stand on the connection one after the other, in
    the order in which the threads got the lock.

    `cancel` looks the symbol of an order up where `_add` put it once `sendall`
    had returned.  So whatever its threads do, a client sends a cancel only
    after the order it is for, and for the same symbol (`sends_follow`). -/

namespace OsxClientStream

open OsxCalls OsxOrderEntry OsxParticipant OsxShard OsxStrategy
open OsxOrderbook (OrderId)

variable {C : Type}

/-! ## The connection -/

section Connection

variable [DecidableEq C]

/-- A call of `sendall` that returned or raised in a turn. -/
def sendOf (s : SharedClient C) (c : C) (turn : Turn) :
    Option (OrderMessage × Bool) :=
  match s.calling c, turn with
  | .holding message, .go _ delivered => some (message, delivered)
  | _, _ => none

/-- The calls of `sendall`, and whether they returned. -/
def sends (s : SharedClient C) : List (C × Turn) → List (OrderMessage × Bool)
  | [] => []
  | (c, turn) :: turns =>
      (sendOf s c turn).toList ++ sends (s.turn c turn).1 turns

/-- The messages whose frames are on the connection, up to the first call that
    raised, which may have written a part of its own. -/
def written : List (OrderMessage × Bool) → List OrderMessage
  | [] => []
  | (message, delivered) :: sends =>
      message :: if delivered then written sends else []

end Connection

/-! ## The invariant -/

/-- An order with the id and the symbol is among those that were sent. -/
def Placed (placed : List OrderMessage) (orderId : OrderId) (symbol : SymbolId) :
    Prop :=
  ∃ add ∈ placed, add.action = .add ∧ add.orderId = orderId ∧
    add.symbol = symbol

theorem Placed.mono {placed placed' : List OrderMessage} {orderId : OrderId}
    {symbol : SymbolId} (h : Placed placed orderId symbol)
    (hsub : placed ⊆ placed') : Placed placed' orderId symbol := by
  obtain ⟨add, hadd, hrest⟩ := h
  exact ⟨add, hsub hadd, hrest⟩

/-- An order, or the cancel of an order that was sent. -/
structure Proper (placed : List OrderMessage) (message : OrderMessage) :
    Prop where
  side : Sided message.side
  type : message.type = .goodTillCancel
  action : message.action = .add ∨ message.action = .cancel ∧
    Placed placed message.orderId message.symbol

theorem Proper.mono {placed placed' : List OrderMessage} {message : OrderMessage}
    (h : Proper placed message) (hsub : placed ⊆ placed') :
    Proper placed' message where
  side := h.side
  type := h.type
  action := h.action.imp_right (fun h => ⟨h.1, h.2.mono hsub⟩)

/-- What holds of a thread at a place. -/
def Calling.Orderly (placed : List OrderMessage) : Calling → Prop
  | .entering terms | .reading terms | .loading terms _ | .storing terms _ _
  | .leaving terms _ | .making terms _ => Sided terms.side
  | .sending message => Proper placed message
  | .waiting message | .holding message =>
      Proper placed message ∧ (pythonFrame message).isSome
  | .sent message => message.action = .add ∧ message ∈ placed
  | .idle => True

theorem Calling.orderly_mono {placed placed' : List OrderMessage}
    {calling : Calling} (h : Calling.Orderly placed calling)
    (hsub : placed ⊆ placed') : Calling.Orderly placed' calling := by
  cases calling with
  | sending message => exact Proper.mono h hsub
  | waiting message | holding message => exact ⟨h.1.mono hsub, h.2⟩
  | sent message => exact ⟨h.1, hsub h.2⟩
  | _ => exact h

/-- **EVERY RECORDED SYMBOL** is that of an order that was sent. -/
structure Orderly (s : SharedClient C) (placed : List OrderMessage) : Prop where
  symbols : ∀ orderId symbol,
    s.client.orderSymbols.find? orderId = some symbol →
      Placed placed orderId symbol
  threads : ∀ c, Calling.Orderly placed (s.calling c)

theorem orderly_new (source : Nat) :
    Orderly (.new source : SharedClient C) [] where
  symbols := fun _ _ h => by cases h
  threads := fun _ => trivial

theorem Orderly.mono {s : SharedClient C} {placed placed' : List OrderMessage}
    (h : Orderly s placed) (hsub : placed ⊆ placed') : Orderly s placed' where
  symbols := fun orderId symbol hfind => (h.symbols orderId symbol hfind).mono hsub
  threads := fun c => Calling.orderly_mono (h.threads c) hsub

variable [DecidableEq C] {s : SharedClient C} {placed : List OrderMessage}
  {c : C}

/-- One thread goes to another place. -/
theorem Orderly.place {s' : SharedClient C} {calling : Calling}
    (h : Orderly s placed)
    (hcalling : s'.calling = Function.update s.calling c calling)
    (hsymbols : s'.client.orderSymbols = s.client.orderSymbols)
    (hthere : Calling.Orderly placed calling) : Orderly s' placed where
  symbols := by
    rw [hsymbols]
    exact h.symbols
  threads := by
    intro r
    rw [hcalling]
    by_cases hr : r = c
    · subst hr
      rw [Function.update_self]
      exact hthere
    · rw [Function.update_of_ne hr]
      exact h.threads r

theorem Orderly.goTo (h : Orderly s placed) {calling : Calling}
    (hthere : Calling.Orderly placed calling) :
    Orderly (s.goTo c calling) placed :=
  h.place rfl rfl hthere

theorem Orderly.acquire (h : Orderly s placed) {inside : Calling}
    (hthere : Calling.Orderly placed inside) :
    Orderly (s.acquire c inside) placed := by
  rw [SharedClient.acquire]
  cases s.sendLock with
  | some holder => exact h
  | none => exact h.place rfl rfl hthere

theorem Orderly.release (h : Orderly s placed) {outside : Calling}
    (hthere : Calling.Orderly placed outside) :
    Orderly (s.release c outside) placed :=
  h.place rfl rfl hthere

/-! ## One turn -/

/-- The messages whose `sendall` returned. -/
def confirmed (sends : List (OrderMessage × Bool)) : List OrderMessage :=
  (sends.filter Prod.snd).map Prod.fst

@[simp] theorem confirmed_append (sends sends' : List (OrderMessage × Bool)) :
    confirmed (sends ++ sends') = confirmed sends ++ confirmed sends' := by
  rw [confirmed, List.filter_append, List.map_append]
  rfl

/-- An order is passed a `Side` of the enum. -/
def SidedTurn : Turn → Prop
  | .add terms => Sided terms.side
  | _ => True

instance (turn : Turn) : Decidable (SidedTurn turn) :=
  match turn with
  | .add terms => inferInstanceAs (Decidable (Sided terms.side))
  | .cancel _ _ | .disconnect | .go _ _ => inferInstanceAs (Decidable True)

omit [DecidableEq C] in
theorem sendOf_some {turn : Turn} {message : OrderMessage} {delivered : Bool}
    (h : sendOf s c turn = some (message, delivered)) :
    s.calling c = .holding message ∧ ∃ now, turn = .go now delivered := by
  unfold sendOf at h
  split at h
  · rename_i hcalling
    cases h
    exact ⟨hcalling, _, rfl⟩
  · cases h

omit [DecidableEq C] in
/-- What a thread sends is an order, or the cancel of one that was sent. -/
theorem Orderly.sends_proper (h : Orderly s placed) {turn : Turn}
    {message : OrderMessage} {delivered : Bool}
    (hsend : sendOf s c turn = some (message, delivered)) :
    Proper placed message ∧ (pythonFrame message).isSome := by
  have hthere := h.threads c
  rw [(sendOf_some hsend).1] at hthere
  exact hthere

/-- A turn of a thread that is not in `sendall`. -/
theorem Orderly.turn_elsewhere (h : Orderly s placed) {turn : Turn}
    (hsided : SidedTurn turn) (helse : sendOf s c turn = none) :
    Orderly (s.turn c turn).1 placed := by
  have hthere := h.threads c
  fun_cases SharedClient.turn s c turn with
  | case1 terms hc => exact h.goTo hsided
  | case2 now orderId hc =>
      show Orderly (s.cancel c now orderId) placed
      rw [SharedClient.cancel]
      cases hfind : s.client.orderSymbols.find? orderId with
      | none => exact h
      | some symbol =>
          exact h.goTo {
            side := Or.inl rfl
            type := rfl
            action := Or.inr ⟨rfl, h.symbols orderId symbol hfind⟩ }
  | case3 hc => exact ⟨h.symbols, h.threads⟩
  | case4 terms now delivered hc =>
      rw [hc] at hthere
      exact h.acquire hthere
  | case5 terms now delivered hc =>
      rw [hc] at hthere
      exact h.goTo hthere
  | case6 terms localId now delivered hc =>
      rw [hc] at hthere
      exact h.goTo hthere
  | case7 terms localId value now delivered hc =>
      rw [hc] at hthere
      exact h.place rfl rfl hthere
  | case8 terms localId now delivered hc =>
      rw [hc] at hthere
      exact h.release hthere
  | case9 terms localId now delivered hc =>
      rw [hc] at hthere
      exact h.goTo { side := hthere, type := rfl, action := Or.inl rfl }
  | case10 message now delivered hc hready =>
      rw [hc] at hthere
      exact h.goTo ⟨hthere, hready.2⟩
  | case11 message now delivered hc hraised => exact h.goTo trivial
  | case12 message now delivered hc =>
      rw [hc] at hthere
      exact h.acquire hthere
  | case13 message now delivered hc =>
      unfold sendOf at helse
      rw [hc] at helse
      cases helse
  | case14 message now delivered hc =>
      rw [hc] at hthere
      obtain ⟨hadd, hmem⟩ := hthere
      have hrecorded : Orderly { s with client := { s.client with
          orderSymbols := s.client.orderSymbols.upsert message.orderId
            (fun _ => message.symbol) } } placed := by
        refine ⟨fun orderId symbol hfind => ?_, h.threads⟩
        replace hfind : (s.client.orderSymbols.upsert message.orderId
          (fun _ => message.symbol)).find? orderId = some symbol := hfind
        rw [HashTable.find?_upsert] at hfind
        by_cases heq : orderId = message.orderId
        · rw [if_pos heq] at hfind
          exact ⟨message, hmem, hadd, heq.symm, Option.some.inj hfind⟩
        · rw [if_neg heq] at hfind
          exact h.symbols orderId symbol hfind
      exact hrecorded.goTo trivial
  | case15 => exact h

/-- **A TURN KEEPS THE RECORDS RIGHT.** -/
theorem Orderly.turn (h : Orderly s placed) {turn : Turn}
    (hsided : SidedTurn turn) :
    Orderly (s.turn c turn).1
      (placed ++ confirmed (sendOf s c turn).toList) := by
  cases hsend : sendOf s c turn with
  | none =>
      have hnone : placed ++ confirmed (none : Option (_ × Bool)).toList
          = placed := List.append_nil _
      rw [hnone]
      exact h.turn_elsewhere hsided hsend
  | some r =>
      obtain ⟨message, delivered⟩ := r
      obtain ⟨hc, now, rfl⟩ := sendOf_some hsend
      have hturn : (s.turn c (.go now delivered)).1 = s.release c
          (if delivered ∧ message.action = .add then .sent message
            else .idle) := by
        unfold SharedClient.turn
        rw [hc]
      rw [hturn]
      have hlater := h.mono
        (List.subset_append_left placed (confirmed [(message, delivered)]))
      refine hlater.release ?_
      by_cases hsent : delivered = true ∧ message.action = .add
      · rw [if_pos hsent]
        refine ⟨hsent.2, List.mem_append_right _ ?_⟩
        rw [hsent.1]
        exact List.mem_singleton_self message
      · rw [if_neg hsent]
        trivial

/-! ## Every run -/

/-- **A CANCEL FOLLOWS ITS ORDER**: whatever the threads of a client do, what it
    sends is an order, or the cancel of an order whose `sendall` returned
    before. -/
theorem sends_follow {turns : List (C × Turn)} :
    ∀ {s : SharedClient C} {placed : List OrderMessage}, Orderly s placed →
      (∀ d ∈ turns, SidedTurn d.2) →
      ∀ {before later : List (OrderMessage × Bool)} {d : OrderMessage × Bool},
        sends s turns = before ++ d :: later →
        Proper (placed ++ confirmed before) d.1 ∧ (pythonFrame d.1).isSome := by
  induction turns with
  | nil =>
      intro s placed _ _ before later d hsends
      cases before <;> cases hsends
  | cons first turns ih =>
      intro s placed h hsided before later d hsends
      obtain ⟨c, turn⟩ := first
      have h' : Orderly (s.turn c turn).1 (placed ++ confirmed _) :=
        h.turn (hsided _ List.mem_cons_self)
      have hlater := fun d hd => hsided d (List.mem_cons_of_mem _ hd)
      rw [sends] at hsends
      cases hsend : sendOf s c turn with
      | none =>
          rw [hsend] at hsends h'
          have hproper := ih h' hlater hsends
          rw [List.append_assoc, ← confirmed_append] at hproper
          exact hproper
      | some send =>
          rw [hsend] at hsends h'
          cases before with
          | nil =>
              cases hsends
              obtain ⟨hproper, hframe⟩ := h.sends_proper hsend
              exact ⟨hproper.mono (List.subset_append_left _ _), hframe⟩
          | cons send' before =>
              obtain ⟨rfl, hrest⟩ := List.cons.inj hsends
              have hproper := ih h' hlater hrest
              rw [List.append_assoc, ← confirmed_append] at hproper
              exact hproper

/-! ## What is on the connection -/

omit [DecidableEq C] in
theorem written_initial (sends : List (OrderMessage × Bool)) :
    written sends <+: sends.map Prod.fst := by
  induction sends with
  | nil => exact List.prefix_refl _
  | cons send sends ih =>
      obtain ⟨message, delivered⟩ := send
      rw [written, List.map_cons]
      cases delivered with
      | true => exact List.cons_prefix_cons.mpr ⟨rfl, ih⟩
      | false => exact List.cons_prefix_cons.mpr ⟨rfl, List.nil_prefix⟩

/-- A frame was made of values in range. -/
theorem inRange_of_frame {message : OrderMessage}
    (hframe : (pythonFrame message).isSome) :
    InRange (encode message).fields := by
  obtain ⟨frame, hframe⟩ := Option.isSome_iff_exists.mp hframe
  rw [pythonFrame] at hframe
  obtain ⟨payload, hpayload, -⟩ := Option.bind_eq_some_iff.mp hframe
  rw [encodeOrderEntry, structPack] at hpayload
  split at hpayload
  · rename_i hfits
    exact hfits.2
  · cases hpayload

theorem sendable_of_frame {placed : List OrderMessage} {message : OrderMessage}
    (h : Proper placed message) (hframe : (pythonFrame message).isSome) :
    Sendable message := by
  have hrange := inRange_of_frame hframe
  have hfield : ∀ width value, (width, value) ∈ (encode message).fields →
      value < 256 ^ width := fun width value hmem => hrange _ hmem
  have haction : ∀ value, message.action ≠ .other value := by
    intro value heq
    rcases h.action with hadd | ⟨hcancel, -⟩
    · rw [hadd] at heq
      cases heq
    · rw [hcancel] at heq
      cases heq
  exact {
    side := h.side
    type := fun value heq => by
      rw [h.type] at heq
      cases heq
    action := haction
    sourceTimestamp := hfield 8 _ (by simp [OrderEntryWire.fields, encode])
    source := hfield 2 _ (by simp [OrderEntryWire.fields, encode])
    symbol := hfield 4 _ (by simp [OrderEntryWire.fields, encode])
    orderId := by
      have hwide := hfield 8 message.orderId
        (by simp [OrderEntryWire.fields, encode])
      exact hwide
    quantity := hfield 4 _ (by simp [OrderEntryWire.fields, encode]) }

/-- **THE CONNECTION OF A CLIENT**: each message on it can be sent, and a cancel
    stands behind an order with its id and its symbol. -/
theorem written_proper (source : Nat) {turns : List (C × Turn)}
    (hsided : ∀ d ∈ turns, SidedTurn d.2) {before later : List OrderMessage}
    {message : OrderMessage}
    (h : written (sends (.new source) turns) = before ++ message :: later) :
    Proper before message ∧ Sendable message := by
  obtain ⟨rest, hrest⟩ := written_initial (sends (.new source) turns)
  rw [h, List.append_assoc] at hrest
  obtain ⟨sends₁, sends₂, hsplit, hbefore, htail⟩ :=
    List.map_eq_append_iff.mp hrest.symm
  obtain ⟨d, later', rfl, rfl, -⟩ := List.map_eq_cons_iff.mp htail
  obtain ⟨hproper, hframe⟩ :=
    sends_follow (orderly_new source) hsided hsplit
  have hsub : confirmed sends₁ ⊆ before := by
    rw [← hbefore]
    exact List.map_subset _ (List.filter_subset_self _)
  exact ⟨hproper.mono hsub, sendable_of_frame hproper hframe⟩

end OsxClientStream
