import OsborneX.SocketProofs

/-! # The server's sockets — open while they are used, and no longer

    The server listens from the end of `listener_.start()` until `stop` has
    joined the last connection, and a connection's thread has a client until it
    ends (`Uses`).  Every turn keeps each of them in hold of one descriptor, and
    the descriptors of the process are these (`Attached`): the accept thread
    never waits on a socket that `stop` has closed, and once the server is down
    nothing is left open. -/

namespace OsxSocket

open Execution Outcome Ownership
open OsxListener (ThreadId)
open OsxServerRun (Staged StagedAt Listener ConnectionThread)

variable {count : Nat}

/-- What the listener and the connections hold. -/
def Server.holds (s : Server count) : Option ThreadId → Option NativeSocket
  | none => s.listenSocket.native
  | some id => (s.clients id).native

/-- Who needs a socket: the listener from its start until all connections are
    joined, and every thread that has not ended. -/
def Uses (core : OsxServerRun.Server count) : Option ThreadId → Prop
  | none => 2 ≤ core.owner.stage core.running ∧
      core.owner.stage core.running ≤ 5
  | some id => (core.listener.threads id).Live

/-- Who needs a socket holds one, its own, and no other is open. -/
structure Attached (s : Server count) (core : OsxServerRun.Server count) :
    Prop where
  owned : Owned s.descriptors s.holds
  uses : ∀ i, (s.holds i).isSome ↔ Uses core i

section Attached

variable {s : Server count} {core core' : OsxServerRun.Server count}
  {id : ThreadId}

theorem holds_listen (s : Server count) (d : Descriptors)
    (native : Option NativeSocket) :
    { s with descriptors := d, listenSocket := ⟨native⟩ }.holds
      = Function.update s.holds none native := by
  funext i
  cases i with
  | none =>
      rw [Function.update_self]
      rfl
  | some id =>
      rw [Function.update_of_ne (Option.some_ne_none id)]
      rfl

theorem holds_client (s : Server count) (d : Descriptors) (id : ThreadId)
    (native : Option NativeSocket) :
    { s with
        descriptors := d
        clients := Function.update s.clients id ⟨native⟩ }.holds
      = Function.update s.holds (some id) native := by
  funext i
  cases i with
  | none =>
      rw [Function.update_of_ne (Option.some_ne_none id).symm]
      rfl
  | some id' =>
      by_cases heq : id' = id
      · subst heq
        rw [Function.update_self]
        exact congrArg SocketHandle.native (Function.update_self ..)
      · rw [Function.update_of_ne (fun h => heq (Option.some.inj h))]
        exact congrArg SocketHandle.native (Function.update_of_ne heq ..)

/-- The owner's turns leave the threads. -/
theorem uses_owner (hthreads : core'.listener.threads = core.listener.threads)
    {i : Option ThreadId} (hi : i ≠ none) : Uses core' i ↔ Uses core i := by
  cases i with
  | none => exact absurd rfl hi
  | some id => rw [Uses, Uses, hthreads]

/-- A connection's turns leave the owner, and the other threads. -/
theorem uses_thread {thread : ConnectionThread}
    (howner : core'.owner = core.owner) (hrunning : core'.running = core.running)
    (hthreads : core'.listener.threads
      = Function.update core.listener.threads id thread)
    {i : Option ThreadId} (hi : i ≠ some id) : Uses core' i ↔ Uses core i := by
  cases i with
  | none => rw [Uses, Uses, howner, hrunning]
  | some id' =>
      rw [Uses, Uses, hthreads, Function.update_of_ne]
      rintro rfl
      exact hi rfl

/-- One that needs a socket is in hold of an open one. -/
theorem Attached.held (h : Attached s core) {i : Option ThreadId}
    (huses : Uses core i) :
    s.descriptors.use (s.holds i) = .ok s.descriptors := by
  obtain ⟨socket, hsocket⟩ := Option.isSome_iff_exists.mp ((h.uses i).mpr huses)
  rw [hsocket]
  exact use_held h.owned hsocket

theorem Attached.unheld (h : Attached s core) {i : Option ThreadId}
    (hnot : ¬ Uses core i) : s.holds i = none := by
  by_contra hsome
  exact hnot ((h.uses i).mp (Option.isSome_iff_ne_none.mpr hsome))

/-- A turn after which the same ones need their sockets. -/
theorem Attached.same (h : Attached s core)
    (hsame : ∀ i, Uses core' i ↔ Uses core i) : Attached s core' :=
  ⟨h.owned, fun i => (h.uses i).trans (hsame i).symm⟩

/-- The owner goes on from one place to another. -/
theorem Attached.moves (h : Attached s core) {stage stage' : Nat}
    (hstage : core.owner.stage core.running = stage)
    (hstage' : core'.owner.stage core'.running = stage')
    (hthreads : core'.listener.threads = core.listener.threads)
    (hlistens : (2 ≤ stage' ∧ stage' ≤ 5) ↔ (2 ≤ stage ∧ stage ≤ 5)) :
    Attached s core' := by
  subst hstage hstage'
  refine h.same (fun i => ?_)
  by_cases hi : i = none
  · subst hi
    exact hlistens
  · exact uses_owner hthreads hi

/-- A connection's thread goes on from one place to another. -/
theorem Attached.goes_on (h : Attached s core) (thread : ConnectionThread)
    (hlive : (core.listener.threads id).Live) (hthread : thread.Live)
    (howner : core'.owner = core.owner) (hrunning : core'.running = core.running)
    (hthreads : core'.listener.threads
      = Function.update core.listener.threads id thread) :
    Attached s core' := by
  refine h.same (fun i => ?_)
  by_cases hi : i = some id
  · subst hi
    rw [Uses, Uses, hthreads, Function.update_self]
    exact iff_of_true hthread hlive
  · exact uses_thread howner hrunning hthreads hi

/-- One that did not need a socket is given one. -/
theorem Attached.opens (h : Attached s core) {s' : Server count}
    {i : Option ThreadId} {handle : NativeSocket}
    (hholds : s'.holds = Function.update s.holds i (some handle))
    (howned : Owned s'.descriptors s'.holds) (huses : Uses core' i)
    (hother : ∀ j, j ≠ i → (Uses core' j ↔ Uses core j)) :
    Attached s' core' := by
  refine ⟨howned, fun j => ?_⟩
  rw [hholds]
  by_cases heq : j = i
  · subst heq
    rw [Function.update_self]
    exact iff_of_true rfl huses
  · rw [Function.update_of_ne heq, hother j heq]
    exact h.uses j

/-- One that needs its socket no more has closed it. -/
theorem Attached.closes (h : Attached s core) {s' : Server count}
    {i : Option ThreadId}
    (hholds : s'.holds = Function.update s.holds i none)
    (howned : Owned s'.descriptors s'.holds) (huses : ¬ Uses core' i)
    (hother : ∀ j, j ≠ i → (Uses core' j ↔ Uses core j)) :
    Attached s' core' := by
  refine ⟨howned, fun j => ?_⟩
  rw [hholds]
  by_cases heq : j = i
  · subst heq
    rw [Function.update_self]
    exact iff_of_false Bool.false_ne_true huses
  · rw [Function.update_of_ne heq, hother j heq]
    exact h.uses j

end Attached

/-! ## The owner -/

section Owner

variable {hash : OsxShard.SymbolId → Nat} [NeZero count] {s : Server count}
  {core' : OsxServerRun.Server count} {event : OsxServerRun.Event count}

/-- The port is bound, or what was opened for it is closed again. -/
theorem startListener_ends (h : Attached s s.core) (hstaged : Staged s.core)
    {binds : Bool} (howner : s.core.owner = .startingListener binds)
    (hstep : s.core.ownerStep hash = .ok (core', event))
    (socket : Option NativeSocket) :
    Ends Proper (fun t => Attached t core') (s.startListener binds socket) := by
  have ha : StagedAt s.core [] 1 := hstaged.at_place howner
  have hrunning := ha.rising (by omega)
  have hquiet : s.core.listener.running = false := by
    rw [← Bool.not_eq_true, ha.listener.listening]
    omega
  have hstage : s.core.owner.stage s.core.running = 1 :=
    congrArg (OsxServerRun.Owner.stage s.core.running) howner
  have hnot : ¬ Uses s.core none := by
    rw [Uses, hstage]
    omega
  have hnone : s.holds none = none := h.unheld hnot
  have hhanded : ∀ {handle : NativeSocket}, handle ∉ s.descriptors →
      s.listenSocket.reset (some handle) (insert handle s.descriptors)
          = .ok (⟨some handle⟩, insert handle s.descriptors) ∧
        Owned (insert handle s.descriptors)
          (Function.update s.holds none (some handle)) :=
    fun hfree => reset_handed h.owned hnone hnone hfree
  have hheld : ∀ handle : NativeSocket,
      Function.update s.holds none (some handle) none = some handle :=
    fun handle => Function.update_self ..
  rw [OsxServerRun.Server.ownerStep, howner] at hstep
  dsimp only at hstep
  rw [if_neg (by rw [hquiet]; exact Bool.false_ne_true)] at hstep
  unfold Server.startListener
  rw [if_neg (by rw [hquiet]; exact Bool.false_ne_true)]
  cases binds with
  | true =>
      rw [if_pos rfl] at hstep
      split at hstep
      · cases hstep
        cases socket with
        | none => exact Fault.noConfusion
        | some handle =>
            refine handOut_ends.bind ?_
            rintro d ⟨hfree, rfl⟩
            obtain ⟨hreset, howned⟩ := hhanded hfree
            show Ends _ _ (SocketHandle.reset _ _ _ >>= _)
            rw [hreset]
            show Ends _ _ (Descriptors.use _ _ >>= _)
            rw [use_held howned (hheld handle)]
            have hholds := holds_listen s (insert handle s.descriptors)
              (some handle)
            rw [← hholds] at howned
            show Attached _ _
            refine h.opens hholds howned ?_ (fun _ => uses_owner (by rfl))
            have hup : OsxServerRun.Owner.idle.stage s.core.running = 2 :=
              if_pos hrunning
            rw [Uses, hup]
            omega
      · cases hstep
  | false =>
      cases hstep
      -- the pump is stopped next
      have hback : Attached s { s.core with owner := .stoppingPump } :=
        h.moves hstage (show _ = 6 from rfl) rfl (by omega)
      cases socket with
      | none => exact hback
      | some handle =>
          refine handOut_ends.bind ?_
          rintro d ⟨hfree, rfl⟩
          obtain ⟨hreset, howned⟩ := hhanded hfree
          obtain ⟨d, hagain, howned'⟩ :=
            reset_none (s := ⟨some handle⟩) howned (hheld handle)
          show Ends _ _ (SocketHandle.reset _ _ _ >>= _)
          rw [hreset]
          show Ends _ _ (Descriptors.use _ _ >>= _)
          rw [use_held howned (hheld handle)]
          show Ends _ _ (SocketHandle.reset _ _ _ >>= _)
          rw [hagain]
          have hholds := holds_listen s d none
          rw [Function.update_idem, ← hholds] at howned'
          show Attached _ _
          refine h.closes hholds howned' ?_ (fun _ => uses_owner (by rfl))
          rw [Uses, show OsxServerRun.Owner.stage _ .stoppingPump = 6 from rfl]
          omega

/-- **THE OWNER'S TURN**: only the listener's start and the end of its stop
    concern a socket. -/
theorem owner_ends (h : Attached s s.core) (hstaged : Staged s.core)
    (hstep : s.core.ownerStep hash = .ok (core', event))
    (socket : Option NativeSocket) :
    Ends Proper (fun t => Attached t core') (s.sockets ⟨.owner, socket⟩) := by
  unfold Server.sockets
  dsimp only
  cases howner : s.core.owner with
  | idle =>
      rw [OsxServerRun.Server.ownerStep, howner] at hstep
      cases hstep
  | startingSimulation binds =>
      have hstage : s.core.owner.stage s.core.running = 0 :=
        congrArg (OsxServerRun.Owner.stage s.core.running) howner
      rw [OsxServerRun.Server.ownerStep, howner] at hstep
      dsimp only at hstep
      split at hstep
      · split at hstep
        · cases hstep
          exact h.moves hstage (show _ = 1 from rfl) rfl (by omega)
        · cases hstep
      · obtain ⟨simulation, event', -, rfl, -⟩ :=
          OsxServerRun.simulate_ok hstep
        exact h.moves hstage hstage rfl Iff.rfl
  | startingListener binds =>
      exact startListener_ends h hstaged howner hstep socket
  | stoppingListener =>
      have hstage : s.core.owner.stage s.core.running = 3 :=
        congrArg (OsxServerRun.Owner.stage s.core.running) howner
      have ha : StagedAt s.core [] 3 := hstaged.at_place howner
      have hlistening := ha.listener.listening.mpr (by omega)
      rw [OsxServerRun.Server.ownerStep, howner] at hstep
      dsimp only at hstep
      rw [if_pos hlistening] at hstep
      cases hstep
      exact h.moves hstage (show _ = 4 from rfl) rfl (by omega)
  | joiningAccept =>
      have hstage : s.core.owner.stage s.core.running = 4 :=
        congrArg (OsxServerRun.Owner.stage s.core.running) howner
      rw [OsxServerRun.Server.ownerStep, howner] at hstep
      dsimp only at hstep
      split at hstep
      · cases hstep
        exact h.moves hstage (show _ = 5 from rfl) rfl (by omega)
      · cases hstep
        exact h.moves hstage (show _ = 5 from rfl) rfl (by omega)
      · cases hstep
  | joiningConnections connections =>
      have hstage : s.core.owner.stage s.core.running = 5 :=
        congrArg (OsxServerRun.Owner.stage s.core.running) howner
      rw [OsxServerRun.Server.ownerStep, howner] at hstep
      cases connections with
      | nil =>
          cases hstep
          obtain ⟨d, hreset, howned⟩ := reset_none h.owned (i := none) rfl
          show Ends _ _ (s.stopListener)
          rw [Server.stopListener, hreset]
          have hholds := holds_listen s d none
          rw [← hholds] at howned
          show Attached _ _
          refine h.closes hholds howned ?_ (fun _ => uses_owner (by rfl))
          rw [Uses, show OsxServerRun.Owner.stage _ .stoppingPump = 6 from rfl]
          omega
      | cons c connections =>
          dsimp only at hstep
          split at hstep
          · cases hstep
            exact h.moves hstage (show _ = 5 from rfl) rfl Iff.rfl
          · split at hstep
            · cases hstep
              exact h.moves hstage (show _ = 5 from rfl) rfl Iff.rfl
            · cases hstep
  | stoppingPump =>
      have hstage : s.core.owner.stage s.core.running = 6 :=
        congrArg (OsxServerRun.Owner.stage s.core.running) howner
      rw [OsxServerRun.Server.ownerStep, howner] at hstep
      cases hstep
      exact h.moves hstage (show _ = 7 from rfl) rfl (by omega)
  | joiningPump =>
      have hstage : s.core.owner.stage s.core.running = 7 :=
        congrArg (OsxServerRun.Owner.stage s.core.running) howner
      rw [OsxServerRun.Server.ownerStep, howner] at hstep
      dsimp only at hstep
      split at hstep
      · cases hstep
        exact h.moves hstage (show _ = 8 from rfl) rfl (by omega)
      · cases hstep
        exact h.moves hstage (show _ = 8 from rfl) rfl (by omega)
      · cases hstep
  | stoppingSimulation =>
      have hstage : s.core.owner.stage s.core.running = 8 :=
        congrArg (OsxServerRun.Owner.stage s.core.running) howner
      rw [OsxServerRun.Server.ownerStep, howner] at hstep
      obtain ⟨⟨core₁, event₁⟩, hsim, heq⟩ := bind_ok hstep
      obtain ⟨simulation, event', -, rfl, -⟩ := OsxServerRun.simulate_ok hsim
      cases heq
      exact h.moves hstage (show _ = 9 from rfl) rfl (by omega)
  | drainingSimulation =>
      have hstage : s.core.owner.stage s.core.running = 9 :=
        congrArg (OsxServerRun.Owner.stage s.core.running) howner
      rw [OsxServerRun.Server.ownerStep, howner] at hstep
      dsimp only at hstep
      split at hstep
      · cases hstep
        exact h.moves hstage (show _ = 10 from rfl) rfl (by omega)
      · obtain ⟨simulation, event', -, rfl, -⟩ :=
          OsxServerRun.simulate_ok hstep
        exact h.moves hstage hstage rfl Iff.rfl

end Owner

/-! ## The threads -/

section Threads

variable {hash : OsxShard.SymbolId → Nat} [NeZero count] {s : Server count}
  {core' : OsxServerRun.Server count} {event : OsxServerRun.Event count}
  {id : ThreadId}

omit [NeZero count] in
theorem accept_threads {l l' : Listener} (h : l.accept = .ok l') :
    l'.threads = Function.update l.threads l.next .loading := by
  rw [Listener.accept] at h
  split at h
  · cases h
  · cases h
    rfl

omit [NeZero count] in
/-- **THE ACCEPT THREAD** waits on a socket that is open, and what it accepts
    goes to the new thread. -/
theorem accept_ends (h : Attached s s.core) (hstaged : Staged s.core)
    {client : Bool} (hstep : s.core.acceptStep client = .ok (core', event))
    (socket : Option NativeSocket) :
    Ends Proper (fun t => Attached t core')
      (s.sockets ⟨.accept client, socket⟩) := by
  unfold Server.sockets
  dsimp only
  rw [OsxServerRun.Server.acceptStep] at hstep
  cases hthread : s.core.listener.acceptThread with
  | absent =>
      rw [hthread] at hstep
      cases hstep
  | finished =>
      rw [hthread] at hstep
      cases hstep
  | loading =>
      rw [hthread] at hstep
      cases hstep
      exact h.moves rfl rfl rfl Iff.rfl
  | waiting =>
      have hthere : s.core.listener.acceptThread ≠ .absent := by
        rw [hthread]
        exact OsxServerRun.AcceptThread.noConfusion
      have hstage := hstaged.listener.accepting hthere
      have hlistens : Uses s.core none := ⟨hstage.1, by omega⟩
      have huse : s.descriptors.use s.listenSocket.native = .ok s.descriptors :=
        h.held hlistens
      show Ends _ _ (s.accept client socket)
      rw [hthread] at hstep
      dsimp only at hstep
      rw [Server.accept, huse]
      cases client with
      | false =>
          cases hstep
          exact h.moves rfl rfl rfl Iff.rfl
      | true =>
          obtain ⟨listener, haccept, heq⟩ := bind_ok hstep
          cases heq
          cases socket with
          | none => exact Fault.noConfusion
          | some handle =>
              have hfresh := hstaged.listener.fresh _ (Nat.le_refl _)
              have hnot : ¬ Uses s.core (some s.core.listener.next) := by
                rw [Uses, hfresh]
                exact not_false
              refine handOut_ends.bind ?_
              rintro d ⟨hfree, rfl⟩
              have hholds := holds_client s (insert handle s.descriptors)
                s.core.listener.next (some handle)
              have howned := h.owned.acquire hfree (h.unheld hnot)
              rw [← hholds] at howned
              refine h.opens hholds howned ?_ (fun _ =>
                uses_thread (by rfl) (by rfl) (accept_threads haccept))
              rw [Uses, accept_threads haccept, Function.update_self]
              exact trivial

omit [NeZero count] in
/-- A thread ends, and closes its client. -/
theorem leave_ends (h : Attached s s.core)
    (howner : core'.owner = s.core.owner)
    (hrunning : core'.running = s.core.running)
    (hthreads : core'.listener.threads
      = Function.update s.core.listener.threads id .finished) :
    Ends Proper (fun t => Attached t core') (s.leave id) := by
  obtain ⟨d, hdestroy, howned⟩ :=
    destroy_held h.owned (i := some id) (s := s.clients id) rfl
  rw [Server.leave, hdestroy]
  have hholds := holds_client s d id none
  rw [← hholds] at howned
  refine h.closes hholds howned ?_
    (fun _ => uses_thread howner hrunning hthreads)
  rw [Uses, hthreads, Function.update_self]
  exact not_false

omit [NeZero count] in
/-- A thread that reads has an open client. -/
theorem receive_held (h : Attached s s.core)
    (hlive : (s.core.listener.threads id).Live) :
    s.receive id = .ok s := by
  have huse : s.descriptors.use (s.clients id).native = .ok s.descriptors :=
    h.held (i := some id) hlive
  rw [Server.receive, huse]
  rfl

omit [NeZero count] in
/-- A connection's turn outside `recv_all`. -/
theorem connection_ends (h : Attached s s.core)
    (hstep : s.core.connectionStep id = .ok (core', event))
    (socket : Option NativeSocket) :
    Ends Proper (fun t => Attached t core')
      (s.sockets ⟨.connection id, socket⟩) := by
  unfold Server.sockets
  dsimp only
  rw [OsxServerRun.Server.connectionStep] at hstep
  cases hthread : s.core.listener.threads id with
  | absent | finished | receiving =>
      rw [hthread] at hstep
      cases hstep
  | loading =>
      have hlive := Listener.live_at hthread trivial
      rw [hthread] at hstep
      cases hstep
      show Ends _ _ (if s.core.listener.running then _ else _)
      split
      · exact h.goes_on .receiving hlive trivial rfl rfl rfl
      · exact leave_ends h rfl rfl rfl
  | handling message =>
      have hlive := Listener.live_at hthread trivial
      rw [hthread] at hstep
      dsimp only at hstep
      split at hstep
      · cases hstep
      · cases hstep
        exact h.goes_on .loading hlive trivial rfl rfl rfl

/-- An order is read. -/
theorem receive_ends (h : Attached s s.core) {message : OsxShard.OrderMessage}
    (hstep : s.core.step hash (.receive id message) = .ok (core', event))
    (socket : Option NativeSocket) :
    Ends Proper (fun t => Attached t core')
      (s.sockets ⟨.receive id message, socket⟩) := by
  rw [OsxServerRun.Server.step] at hstep
  split at hstep
  · rename_i hthread
    have hlive := Listener.live_at hthread trivial
    cases hstep
    show Ends _ _ (s.receive id)
    rw [receive_held h hlive]
    exact h.goes_on (.handling message) hlive trivial rfl rfl rfl
  · cases hstep

/-- A client is gone, or sent what is not accepted. -/
theorem hangUp_ends (h : Attached s s.core)
    (hstep : s.core.step hash (.hangUp id) = .ok (core', event))
    (socket : Option NativeSocket) :
    Ends Proper (fun t => Attached t core')
      (s.sockets ⟨.hangUp id, socket⟩) := by
  rw [OsxServerRun.Server.step] at hstep
  split at hstep
  · rename_i hthread
    have hlive := Listener.live_at hthread trivial
    cases hstep
    show Ends _ _ (s.receive id >>= _)
    rw [receive_held h hlive]
    exact leave_ends h rfl rfl rfl
  · cases hstep

/-- The pump has no socket. -/
theorem pumpStep_attached {now : Nat} (h : Attached s s.core)
    (hstep : s.core.pumpStep hash now = .ok (core', event)) :
    Attached s core' := by
  rw [OsxServerRun.Server.pumpStep] at hstep
  split at hstep
  · cases hstep
  · cases hstep
  · split at hstep
    · cases hstep
    · cases hstep
      exact h.moves rfl rfl rfl Iff.rfl
    · cases hstep
      exact h.moves rfl rfl rfl Iff.rfl
  · obtain ⟨⟨core₁, event₁⟩, hsim, heq⟩ := bind_ok hstep
    obtain ⟨simulation, event', -, rfl, -⟩ := OsxServerRun.simulate_ok hsim
    cases heq
    exact h.moves rfl rfl rfl Iff.rfl

omit [NeZero count] in
/-- `stop` is called. -/
theorem stop_attached (h : Attached s s.core)
    (hstep : s.core.stop = .ok (core', event)) : Attached s core' := by
  rw [OsxServerRun.Server.stop] at hstep
  split at hstep
  · rename_i howner
    split at hstep
    · rename_i hrunning
      have hstage : s.core.owner.stage s.core.running = 2 := by
        rw [howner]
        exact if_pos hrunning
      cases hstep
      exact h.moves hstage (show _ = 3 from rfl) rfl (by omega)
    · cases hstep
      exact h
  · cases hstep

/-- **EVERY TURN KEEPS THE SOCKETS**, and makes no call on one that is not
    open. -/
theorem sockets_ends (h : Attached s s.core) (hstaged : Staged s.core)
    (action : Action count) (hno : ∀ binds, action.turn ≠ .start binds)
    (hstep : s.core.step hash action.turn = .ok (core', event)) :
    Ends Proper (fun t => Attached t core') (s.sockets action) := by
  obtain ⟨turn, socket⟩ := action
  cases turn with
  | start binds => exact absurd rfl (hno binds)
  | stop => exact stop_attached h hstep
  | owner => exact owner_ends h hstaged hstep socket
  | accept client => exact accept_ends h hstaged hstep socket
  | connection id => exact connection_ends h hstep socket
  | receive id message => exact receive_ends h hstep socket
  | hangUp id => exact hangUp_ends h hstep socket
  | pump now => exact pumpStep_attached h hstep
  | worker shard =>
      obtain ⟨simulation, event', -, rfl, -⟩ := OsxServerRun.simulate_ok hstep
      exact h.moves rfl rfl rfl Iff.rfl

end Threads

/-! ## Whole runs -/

section Run

variable {hash : OsxShard.SymbolId → Nat} [NeZero count] {s : Server count}
  {inboundCapacity inboundQueueCapacity : Nat}

/-- A step is the server's own, with the socket calls of its turn. -/
theorem step_split {action : Action count}
    {Q : Server count × OsxServerRun.Event count → Prop}
    (h : ∀ core event, s.core.step hash action.turn = .ok (core, event) →
      Ends Proper (fun t => Q ({ t with core := core }, event))
        (s.sockets action)) :
    Ends Proper Q (s.step hash action) := by
  unfold Server.step
  cases hstep : s.core.step hash action.turn with
  | error fault => exact Fault.noConfusion
  | ok r => exact (h r.1 r.2 hstep).bind (fun t ht => ht)

/-- What a run has come to: what the server does without its sockets, and the
    sockets in order. -/
structure Kept (hash : OsxShard.SymbolId → Nat) [NeZero count]
    (core : OsxServerRun.Server count) (actions : List (Action count))
    (s : Server count) (log : List (OsxServerRun.Event count)) : Prop where
  run : execute (OsxServerRun.Server.step hash) core (actions.map Action.turn)
    = .ok (s.core, log)
  staged : Staged s.core
  attached : Attached s s.core

/-- **A STEP** makes no call on a socket that is not open. -/
theorem Kept.step {core : OsxServerRun.Server count}
    {actions : List (Action count)} {log : List (OsxServerRun.Event count)}
    (h : Kept hash core actions s log) (action : Action count)
    (hno : ∀ binds, action.turn ≠ .start binds) :
    Ends Proper
      (fun r => Kept hash core (actions ++ [action]) r.1 (log ++ [r.2]))
      (s.step hash action) := by
  refine step_split (fun core' event hstep => ?_)
  have hsockets := sockets_ends h.attached h.staged action hno hstep
  refine hsockets.mono (fun t ht => ⟨?_, ?_, ht.owned, ht.uses⟩)
  · rw [List.map_append]
    exact execute_snoc h.run hstep
  · exact (OsxServerRun.step_turn h.staged hno hstep).1

/-- `start` of a new server opens nothing yet. -/
theorem start_ends (binds : Bool) (socket : Option NativeSocket) :
    Ends Proper
      (fun r => Kept hash (.new count inboundCapacity inboundQueueCapacity)
        [⟨.start binds, socket⟩] r.1 [r.2])
      ((Server.new count inboundCapacity inboundQueueCapacity).step hash
        ⟨.start binds, socket⟩) := by
  refine step_split (fun core event hstep => ?_)
  have hstaged := (OsxServerRun.start_turn hstep).1
  have hnone : (Server.new count inboundCapacity inboundQueueCapacity).holds
      = fun _ => none := by
    funext i
    cases i <;> rfl
  have howned : Owned ∅
      (Server.new count inboundCapacity inboundQueueCapacity).holds := by
    rw [hnone]
    exact .initial
  have hunused : ∀ i, ¬ Uses core i := by
    obtain ⟨⟨core₁, event₁⟩, hsim, heq⟩ := bind_ok hstep
    obtain ⟨simulation, event', -, rfl, -⟩ := OsxServerRun.simulate_ok hsim
    cases heq
    rintro (_ | id) huses
    · exact absurd (show 2 ≤ 0 from huses.1) (by omega)
    · exact huses
  refine ⟨execute_cons_of hstep rfl, hstaged, howned, fun i => ?_⟩
  refine iff_of_false ?_ (hunused i)
  show ¬ (Server.holds (.new count inboundCapacity inboundQueueCapacity)
    i).isSome
  rw [hnone]
  exact Bool.false_ne_true

/-- **EVERY RUN** from the one `start` on. -/
theorem run_ends (hash : OsxShard.SymbolId → Nat)
    (inboundCapacity inboundQueueCapacity : Nat) (binds : Bool)
    (socket : Option NativeSocket) {actions : List (Action count)}
    (hno : ∀ action ∈ actions, ∀ binds, action.turn ≠ .start binds) :
    Ends Proper
      (fun r => Kept hash (.new count inboundCapacity inboundQueueCapacity)
        (⟨.start binds, socket⟩ :: actions) r.1 r.2)
      (execute (Server.step hash)
        (.new count inboundCapacity inboundQueueCapacity)
        (⟨.start binds, socket⟩ :: actions)) := by
  refine (start_ends binds socket).bind (fun r hr => ?_)
  have hrun : Ends Proper
      (fun t => Kept hash (.new count inboundCapacity inboundQueueCapacity)
        (⟨.start binds, socket⟩ :: actions) t.1 (r.2 :: t.2))
      (execute (Server.step hash) r.1 actions) :=
    execute_ends
      (I := fun actions s log =>
        Kept hash (.new count inboundCapacity inboundQueueCapacity)
          (⟨.start binds, socket⟩ :: actions) s (r.2 :: log))
      (fun actions s log action h hno => h.step action hno) hr hno
  exact hrun.bind (fun t ht => ht)

omit [NeZero count] in
/-- Once the server is down nobody needs a socket. -/
theorem unused_down {core : OsxServerRun.Server count} (h : Staged core)
    (hstopped : core.Stopped) (i : Option ThreadId) : ¬ Uses core i := by
  obtain ⟨howner, hrunning⟩ := hstopped
  have hstage : core.owner.stage core.running = 10 := by
    rw [howner, hrunning]
    rfl
  have ha : StagedAt core [] 10 := by
    have := h.at_place howner
    rw [hrunning] at this
    exact this
  intro huses
  cases i with
  | none =>
      rw [Uses, hstage] at huses
      omega
  | some id =>
      have := ha.listener.live_stage huses
      omega

/-- **NO SOCKET OF THE SERVER IS LOST, OR USED ONCE IT IS CLOSED**: in every run
    from `start` on, whatever the turns of its threads and the answers of the
    kernel, no call is made on a descriptor that is not open; the open
    descriptors are one for the listener while it listens and one for each
    connection's thread that has not ended, each its own; and once the server
    is down none is open. -/
theorem sockets_owned (hash : OsxShard.SymbolId → Nat)
    (count inboundCapacity inboundQueueCapacity : Nat) [NeZero count]
    (binds : Bool) (socket : Option NativeSocket)
    (actions : List (Action count))
    (hno : ∀ action ∈ actions, ∀ binds, action.turn ≠ .start binds) :
    execute (Server.step hash)
        (.new count inboundCapacity inboundQueueCapacity)
        (⟨.start binds, socket⟩ :: actions) ≠ .error .badDescriptor ∧
      ∀ s log, execute (Server.step hash)
          (.new count inboundCapacity inboundQueueCapacity)
          (⟨.start binds, socket⟩ :: actions) = .ok (s, log) →
        execute (OsxServerRun.Server.step hash)
            (.new count inboundCapacity inboundQueueCapacity)
            ((⟨.start binds, socket⟩ :: actions).map Action.turn)
          = .ok (s.core, log) ∧
        Attached s s.core ∧
        (∀ users : Finset (Option ThreadId), (∀ i, i ∈ users ↔ Uses s.core i) →
          s.descriptors.card = users.card) ∧
        (s.core.Stopped → s.descriptors = ∅) := by
  have hends := run_ends hash inboundCapacity inboundQueueCapacity binds socket
    hno
  refine ⟨fun hbad => hends.of_error hbad rfl, fun s log hrun => ?_⟩
  obtain ⟨hcore, hstaged, hattached⟩ := hends.of_ok hrun
  have hcard : ∀ users : Finset (Option ThreadId),
      (∀ i, i ∈ users ↔ Uses s.core i) → s.descriptors.card = users.card :=
    fun users husers => hattached.owned.card
      (fun i => (husers i).trans (hattached.uses i).symm)
  refine ⟨hcore, hattached, hcard, fun hstopped => ?_⟩
  have hnone := unused_down hstaged hstopped
  rw [← Finset.card_eq_zero, hcard ∅ (fun i =>
    iff_of_false (Finset.notMem_empty i) (hnone i)), Finset.card_empty]

end Run

/-- Two clients, one after the other: the second is given the number of the
    descriptor that the first one's thread has closed. -/
def reusedRun : List (Action 1) :=
  [⟨.owner, none⟩, ⟨.owner, none⟩, ⟨.owner, none⟩, ⟨.owner, some 3⟩,
    ⟨.accept true, none⟩, ⟨.accept true, some 4⟩, ⟨.connection 0, none⟩,
    ⟨.hangUp 0, none⟩, ⟨.accept true, none⟩, ⟨.accept true, some 4⟩,
    ⟨.stop, none⟩, ⟨.owner, none⟩, ⟨.accept true, none⟩, ⟨.owner, none⟩,
    ⟨.connection 1, none⟩, ⟨.owner, none⟩, ⟨.owner, none⟩, ⟨.owner, none⟩,
    ⟨.pump 0, none⟩, ⟨.owner, none⟩, ⟨.owner, none⟩, ⟨.owner, none⟩,
    ⟨.worker 0, none⟩, ⟨.owner, none⟩, ⟨.owner, none⟩, ⟨.owner, none⟩,
    ⟨.owner, none⟩]

theorem sockets_owned_reused :
    ∃ s log, execute (Server.step id) (.new 1 4 1)
        (⟨.start true, none⟩ :: reusedRun) = .ok (s, log) ∧
      s.core.Stopped ∧ s.descriptors = ∅ := by
  have heval : (execute (Server.step id) (.new 1 4 1)
      (⟨.start true, none⟩ :: reusedRun)).toOption.map
        (fun r => decide r.1.core.Stopped) = some true := by
    decide +kernel
  obtain ⟨-, hruns⟩ := sockets_owned id 1 4 1 true none reusedRun (by decide)
  cases hrun : execute (Server.step id) (.new 1 4 1)
      (⟨.start true, none⟩ :: reusedRun) with
  | error e =>
      rw [hrun] at heval
      cases heval
  | ok r =>
      obtain ⟨s, log⟩ := r
      rw [hrun] at heval
      have hstopped : s.core.Stopped := of_decide_eq_true (Option.some.inj heval)
      obtain ⟨-, -, -, hclosed⟩ := hruns s log hrun
      exact ⟨s, log, rfl, hstopped, hclosed hstopped⟩

end OsxSocket
