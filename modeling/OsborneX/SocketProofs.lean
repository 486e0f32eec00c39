import OsborneX.OwnershipProofs
import OsborneX.ServerRunProofs
import OsborneX.SocketModel

/-! # Sockets — no descriptor is lost, and none is closed twice

    Each handle is the one owner of the descriptor it holds (`Owned`), so that
    what it closes is its own and open.  A client is connected when the last of
    its calls says so (`connectedBy`); the server holds one descriptor while it
    listens and one for each connection's thread that has not ended
    (`Attached`), and none once it is down. -/

namespace OsxSocket

open Execution Outcome Ownership
open OsxListener (ThreadId)

/-! ## Handles -/

/-- Everything but a call on a descriptor that is not open. -/
abbrev Proper (fault : Fault) : Prop := fault ≠ .badDescriptor

section Handle

variable {I : Type} [DecidableEq I] {d : Descriptors}
  {holds : I → Option NativeSocket} {i : I} {s : SocketHandle}
  {handle : NativeSocket}

theorem handOut_ends :
    Ends Proper (fun d' => handle ∉ d ∧ d' = insert handle d)
      (d.handOut handle) := by
  rw [Descriptors.handOut]
  split
  · exact Fault.noConfusion
  · exact ⟨by assumption, rfl⟩

omit [DecidableEq I] in
/-- What a handle holds is open. -/
theorem use_held (h : Owned d holds) (hi : holds i = some handle) :
    d.use (some handle) = .ok d :=
  if_pos (h.held i handle hi)

/-- **A RESET CLOSES WHAT IS ITS OWN.** -/
theorem reset_none (h : Owned d holds) (hi : holds i = s.native) :
    ∃ d', s.reset none d = .ok (.invalid, d') ∧
      Owned d' (Function.update holds i none) := by
  rw [SocketHandle.reset]
  cases hs : s.native with
  | none =>
      rw [hs] at hi
      refine ⟨d, rfl, ?_⟩
      rw [← hi, Function.update_eq_self]
      exact h
  | some socket =>
      rw [hs] at hi
      refine ⟨d.erase socket, ?_, h.release hi⟩
      show (d.closeNativeSocket socket >>= _) = _
      rw [Descriptors.closeNativeSocket, if_pos (h.held i socket hi)]
      rfl

/-- A handle that holds nothing takes over what was handed out. -/
theorem reset_handed (h : Owned d holds) (hi : holds i = none)
    (hs : s.native = none) (hfree : handle ∉ d) :
    s.reset (some handle) (insert handle d)
        = .ok (⟨some handle⟩, insert handle d) ∧
      Owned (insert handle d) (Function.update holds i (some handle)) := by
  refine ⟨?_, h.acquire hfree hi⟩
  rw [SocketHandle.reset, hs]

theorem destroy_held (h : Owned d holds) (hi : holds i = s.native) :
    ∃ d', s.destroy d = .ok d' ∧ Owned d' (Function.update holds i none) := by
  obtain ⟨d', hreset, howned⟩ := reset_none h hi
  refine ⟨d', ?_, howned⟩
  rw [SocketHandle.destroy, hreset]
  rfl

end Handle

/-! ## The client -/

/-- A candidate that is connected to when it is tried. -/
def Candidate.Reached (candidate : Candidate) : Prop :=
  candidate.socket ≠ none ∧ candidate.connects = true

instance (candidate : Candidate) : Decidable candidate.Reached :=
  inferInstanceAs (Decidable (_ ∧ _))

/-- Some address can be connected to. -/
def reachable (candidates : Option (List Candidate)) : Bool :=
  match candidates with
  | none => false
  | some candidates => candidates.any (fun candidate => candidate.Reached)

/-- Whether a client is connected after a call, when it was or was not
    before. -/
def Call.connected (before : Bool) : Call → Bool
  | .connect candidates => reachable candidates
  | .disconnect => false
  | .send _ => before

/-- What a call returns to a caller that is or is not connected. -/
def Call.answer (before : Bool) : Call → Option Bool
  | .connect candidates => some (reachable candidates)
  | .disconnect => none
  | .send sent => some (before && sent)

/-- The clients as their callers see them: each is connected or not, and no
    call faults. -/
def answer {I : Type} [DecidableEq I] (connected : I → Bool)
    (call : I × Call) : Except Fault ((I → Bool) × Option Bool) :=
  .ok (Function.update connected call.1 (call.2.connected (connected call.1)),
    call.2.answer (connected call.1))

section Client

variable {I : Type} [DecidableEq I] {d : Descriptors}
  {holds : I → Option NativeSocket} {i : I} {c : OrderEntryClient}

/-- **THE LOOP OVER THE ADDRESSES** closes every descriptor it does not keep,
    and keeps that of the first address it reaches. -/
theorem connectLoop_ends (h : Owned d holds) (hi : holds i = none)
    (hc : c.socket.native = none) (candidates : List Candidate) :
    Ends Proper (fun r => r.1.socket.valid = reachable (some candidates) ∧
        Owned r.2 (Function.update holds i r.1.socket.native))
      (c.connectLoop candidates d) := by
  induction candidates with
  | nil =>
      refine ⟨?_, ?_⟩
      · rw [SocketHandle.valid, hc]
        rfl
      · show Owned d (Function.update holds i c.socket.native)
        rw [hc, ← hi, Function.update_eq_self]
        exact h
  | cons candidate candidates ih =>
      rw [OrderEntryClient.connectLoop]
      cases hsocket : candidate.socket with
      | none =>
          -- an address without a socket is passed over
          have hnot : decide candidate.Reached = false :=
            decide_eq_false (fun hreached => hreached.1 hsocket)
          rw [reachable, List.any_cons, hnot, Bool.false_or]
          exact ih
      | some handle =>
          refine handOut_ends.bind ?_
          rintro d' ⟨hfree, rfl⟩
          have hopen : Descriptors.use (insert handle d) (some handle)
              = .ok (insert handle d) := if_pos (Finset.mem_insert_self _ _)
          show Ends _ _ (Descriptors.use _ _ >>= _)
          rw [hopen]
          show Ends _ _ (if candidate.connects then _ else _)
          split
          · rename_i hconnects
            obtain ⟨hreset, howned⟩ := reset_handed h hi hc hfree
            show Ends _ _ (SocketHandle.reset _ _ _ >>= _)
            rw [hreset]
            refine ⟨?_, howned⟩
            have hreached : decide candidate.Reached = true := by
              refine decide_eq_true ⟨?_, hconnects⟩
              rw [hsocket]
              exact Option.some_ne_none handle
            rw [reachable, List.any_cons, hreached, Bool.true_or]
            rfl
          · rename_i hconnects
            have hclosed : Descriptors.closeNativeSocket (insert handle d) handle
                = .ok d := by
              rw [Descriptors.closeNativeSocket,
                if_pos (Finset.mem_insert_self _ _),
                Finset.erase_insert hfree]
            have hnot : decide candidate.Reached = false :=
              decide_eq_false (fun hreached => hconnects hreached.2)
            show Ends _ _ (Descriptors.closeNativeSocket _ _ >>= _)
            rw [hclosed, reachable, List.any_cons, hnot, Bool.false_or]
            exact ih

theorem disconnect_held (h : Owned d holds) (hi : holds i = c.socket.native) :
    ∃ d', c.disconnect d = .ok (.new, d') ∧
      Owned d' (Function.update holds i none) := by
  obtain ⟨d', hreset, howned⟩ := reset_none h hi
  refine ⟨d', ?_, howned⟩
  rw [OrderEntryClient.disconnect, hreset]
  rfl

/-- `connect` says whether an address was reached, and is connected then. -/
theorem connect_ends (h : Owned d holds) (hi : holds i = c.socket.native)
    (candidates : Option (List Candidate)) :
    Ends Proper (fun r => r.1.1.socket.valid = reachable candidates ∧
        r.2 = reachable candidates ∧
        Owned r.1.2 (Function.update holds i r.1.1.socket.native))
      (c.connect candidates d) := by
  obtain ⟨d', hdisconnect, howned⟩ := disconnect_held h hi
  rw [OrderEntryClient.connect, hdisconnect]
  cases candidates with
  | none => exact ⟨rfl, rfl, howned⟩
  | some candidates =>
      have hloop := connectLoop_ends howned (Function.update_self ..)
        (c := .new) rfl candidates
      refine hloop.bind ?_
      rintro ⟨c', d''⟩ ⟨hvalid, howned'⟩
      rw [Function.update_idem] at howned'
      exact ⟨hvalid, hvalid, howned'⟩

end Client

/-! ## The clients of a process -/

section Clients

variable {I : Type} [DecidableEq I]

/-- What each client holds. -/
def Clients.holds (p : Clients I) (i : I) : Option NativeSocket :=
  (p.clients i).socket.native

/-- Which clients are connected. -/
def Clients.connected (p : Clients I) (i : I) : Bool :=
  (p.clients i).socket.valid

/-- A client is replaced. -/
theorem holds_update (p : Clients I) (i : I) (c : OrderEntryClient)
    (d : Descriptors) :
    Clients.holds ⟨Function.update p.clients i c, d⟩
      = Function.update p.holds i c.socket.native :=
  Function.comp_update (fun c : OrderEntryClient => c.socket.native) ..

theorem connected_update (p : Clients I) (i : I) (c : OrderEntryClient)
    (d : Descriptors) :
    Clients.connected ⟨Function.update p.clients i c, d⟩
      = Function.update p.connected i c.socket.valid :=
  Function.comp_update (fun c : OrderEntryClient => c.socket.valid) ..

/-- **A CALL ANSWERS AS THE CALLERS SEE IT**, and touches no descriptor but its
    client's. -/
theorem call_ends {p : Clients I} (h : Owned p.descriptors p.holds)
    (call : I × Call) :
    Ends Proper (fun r => answer p.connected call = .ok (r.1.connected, r.2) ∧
        Owned r.1.descriptors r.1.holds) (p.call call) := by
  obtain ⟨i, call⟩ := call
  cases call with
  | connect candidates =>
      have hconnect := connect_ends h (i := i) rfl candidates
      rw [Clients.call]
      refine hconnect.bind ?_
      rintro ⟨⟨c, d⟩, connected⟩ ⟨hvalid, rfl, howned⟩
      refine ⟨?_, ?_⟩
      · rw [connected_update, hvalid]
        rfl
      · rw [holds_update]
        exact howned
  | disconnect =>
      obtain ⟨d, hdisconnect, howned⟩ := disconnect_held h (i := i) rfl
      rw [Clients.call, hdisconnect]
      refine ⟨?_, ?_⟩
      · rw [connected_update]
        rfl
      · rw [holds_update]
        exact howned
  | send sent =>
      have hsame : Function.update p.connected i (p.connected i)
          = p.connected := Function.update_eq_self ..
      rw [Clients.call, OrderEntryClient.send]
      cases hvalid : (p.clients i).socket.valid with
      | false =>
          refine ⟨?_, h⟩
          have hnot : p.connected i = false := hvalid
          rw [answer, Call.answer, Call.connected, hsame, hnot]
          rfl
      | true =>
          obtain ⟨socket, hsocket⟩ := Option.isSome_iff_exists.mp hvalid
          show Ends _ _ ((Descriptors.use _ _ >>= _) >>= _)
          rw [hsocket, use_held h hsocket]
          refine ⟨?_, h⟩
          have hconnected : p.connected i = true := hvalid
          rw [answer, Call.answer, Call.connected, hsame, hconnected]
          rfl

/-- **NO CLIENT LOSES A DESCRIPTOR, OR CLOSES ANOTHER'S**: whatever the clients
    of a process are called with, and whatever the kernel answers, no call is
    made on a descriptor that is not open; each client's answers are those of
    one that is connected or not; and the open descriptors are those that the
    connected clients hold, each its own, as many as there are connected
    clients. -/
theorem clients_owned (I : Type) [DecidableEq I] (calls : List (I × Call)) :
    execute Clients.call (Clients.new I) calls ≠ .error .badDescriptor ∧
      ∀ p answers,
        execute Clients.call (.new I) calls = .ok (p, answers) →
        execute answer (fun _ => false) calls = .ok (p.connected, answers) ∧
        Owned p.descriptors p.holds ∧
        ∀ connected : Finset I, (∀ i, i ∈ connected ↔ p.connected i = true) →
          p.descriptors.card = connected.card := by
  have hends : Ends Proper (fun r =>
      execute answer (fun _ => false) calls = .ok (r.1.connected, r.2) ∧
        Owned r.1.descriptors r.1.holds)
      (execute Clients.call (Clients.new I) calls) := by
    refine execute_ends (J := fun _ => True)
      (I := fun calls (p : Clients I) answers =>
        execute answer (fun _ => false) calls = .ok (p.connected, answers) ∧
          Owned p.descriptors p.holds) ?_ ⟨rfl, .initial⟩ (fun _ _ => trivial)
    rintro calls p answers call ⟨hrun, howned⟩ -
    exact (call_ends howned call).mono
      (fun r hr => ⟨execute_snoc hrun hr.1, hr.2⟩)
  refine ⟨fun hbad => hends.of_error hbad rfl, fun p answers hrun => ?_⟩
  obtain ⟨hanswers, howned⟩ := hends.of_ok hrun
  exact ⟨hanswers, howned, fun connected hconnected =>
    howned.card hconnected⟩

end Clients

end OsxSocket
