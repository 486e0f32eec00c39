import OsborneX.OrderEntryLoopProofs

/-! # Failed sends — what a partial frame does to the stream

    A call of `send` fails at the first `::send` that fails, and has then
    written a part of its frame (`Writes`).  The socket stays as it was: a
    later call whose `::send` succeeds writes behind that part, and the
    listener reads the frame on into the next one. -/

namespace OsxOrderEntry

open OsxOrderbook OsxPrice OsxShard OsxCalls

/-! ## One call -/

/-- What writing some data does, given results of `::send`: all of it is
    written; or a part, up to the first failing result; or a part, and the
    results run out. -/
inductive Writes (data : List UInt8) (taken : List Nat) :
    List UInt8 × Bool × List Nat → Prop where
  | all {used rest : List Nat} :
      taken = used ++ rest → (∀ u ∈ used, u ≠ 0) → (used = [] ↔ data = []) →
      Writes data taken (data, true, rest)
  | part {written later : List UInt8} {used rest : List Nat} :
      taken = used ++ 0 :: rest → (∀ u ∈ used, u ≠ 0) →
      data = written ++ later → later ≠ [] → (used = [] ↔ written = []) →
      Writes data taken (written, false, rest)
  | ended {written later : List UInt8} :
      data = written ++ later → later ≠ [] →
      Writes data taken (written, false, [])

/-- Data that was written, and data behind it. -/
theorem Writes.append {first second : List UInt8} {taken rest : List Nat}
    {r : List UInt8 × Bool × List Nat}
    (h : Writes first taken (first, true, rest)) (h' : Writes second rest r) :
    Writes (first ++ second) taken (first ++ r.1, r.2) := by
  cases h with
  | @all used _ htaken hused hnil =>
      cases h' with
      | @all used' rest' htaken' hused' hnil' =>
          have htaken : taken = (used ++ used') ++ rest' := by
            rw [htaken, htaken', List.append_assoc]
          refine .all htaken (List.forall_mem_append.mpr ⟨hused, hused'⟩) ?_
          rw [List.append_eq_nil_iff, List.append_eq_nil_iff, hnil, hnil']
      | @part written later used' rest' htaken' hused' hdata hlater hnil' =>
          have htaken : taken = (used ++ used') ++ 0 :: rest' := by
            rw [htaken, htaken', List.append_assoc]
          have hdata : first ++ second = (first ++ written) ++ later := by
            rw [hdata, List.append_assoc]
          refine .part htaken (List.forall_mem_append.mpr ⟨hused, hused'⟩) hdata
            hlater ?_
          rw [List.append_eq_nil_iff, List.append_eq_nil_iff, hnil, hnil']
      | @ended written later hdata hlater =>
          refine .ended ?_ hlater
          rw [hdata, List.append_assoc]

/-- `send_all` writes its data. -/
theorem sendAll_writes (data : List UInt8) (taken : List Nat) :
    Writes data taken (sendAll data taken) := by
  induction data, taken using sendAll.induct with
  | case1 taken =>
      rw [sendAll]
      exact .all (List.nil_append taken).symm (List.forall_mem_nil _)
        (iff_of_true rfl rfl)
  | case2 byte bytes =>
      rw [sendAll]
      exact .ended (List.nil_append _).symm (List.cons_ne_nil byte bytes)
  | case3 byte bytes taken =>
      rw [sendAll, if_pos rfl]
      exact .part (List.nil_append _).symm (List.forall_mem_nil _)
        (List.nil_append _).symm (List.cons_ne_nil byte bytes)
        (iff_of_true rfl rfl)
  | case4 byte bytes count taken hcount data ih =>
      rw [sendAll, if_neg hcount]
      -- the bytes the kernel took, and the rest of the data behind them
      have hfirst : Writes (data.take count) (count :: taken)
          (data.take count, true, taken) := by
        have htaken : count :: taken = [count] ++ taken := rfl
        refine .all htaken (List.forall_mem_singleton.mpr hcount) ?_
        obtain ⟨n, rfl⟩ := Nat.exists_eq_succ_of_ne_zero hcount
        exact iff_of_false (List.cons_ne_nil _ _) (List.cons_ne_nil byte _)
      have hall := hfirst.append ih
      rw [List.take_append_drop] at hall
      exact hall

/-- `send` writes the frame of its message. -/
theorem send_writes (message : OrderMessage) (taken : List Nat) :
    Writes (frameOf message).bytes taken (send message taken) := by
  have hfirst := sendAll_writes (packed orderEntryHeader.fields) taken
  rw [send, header_of_payload, frameOf_bytes]
  dsimp only
  generalize hr : sendAll (packed orderEntryHeader.fields) taken = r at hfirst
  cases hfirst with
  | @all used rest htaken hused hnil =>
      exact (Writes.all htaken hused hnil).append (sendAll_writes _ _)
  | @part written later used rest htaken hused hdata hlater hnil =>
      have hframe : packed orderEntryHeader.fields
          ++ packed (encode message).fields
          = written ++ (later ++ packed (encode message).fields) := by
        rw [hdata, List.append_assoc]
      exact .part htaken hused hframe
        (List.append_ne_nil_of_left_ne_nil hlater _) hnil
  | @ended written later hdata hlater =>
      have hframe : packed orderEntryHeader.fields
          ++ packed (encode message).fields
          = written ++ (later ++ packed (encode message).fields) := by
        rw [hdata, List.append_assoc]
      exact .ended hframe (List.append_ne_nil_of_left_ne_nil hlater _)

/-- A call that used exactly some results. -/
theorem send_cases {message : OrderMessage} {used : List Nat}
    {written : List UInt8} {returned : Bool}
    (h : ∀ later, send message (used ++ later) = (written, returned, later)) :
    (returned = true ∧ written = (frameOf message).bytes ∧
      (∀ u ∈ used, u ≠ 0) ∧ used ≠ []) ∨
    (returned = false ∧ ∃ before later, used = before ++ [0] ∧
      (∀ u ∈ before, u ≠ 0) ∧ (before = [] ↔ written = []) ∧
      (frameOf message).bytes = written ++ later ∧ later ≠ []) := by
  have hwrites := send_writes message (used ++ [1])
  rw [h] at hwrites
  generalize hr : (written, returned, [1]) = r at hwrites
  cases hwrites with
  | @all used' rest htaken hused hnil =>
      obtain ⟨rfl, rfl, rfl⟩ := by simpa using hr
      obtain rfl := List.append_cancel_right htaken
      refine Or.inl ⟨rfl, rfl, hused, fun hempty => ?_⟩
      have hlength := congrArg List.length (hnil.mp hempty)
      rw [(frameOf message).length_bytes] at hlength
      cases hlength
  | @part written' later used' rest htaken hused hdata hlater hnil =>
      obtain ⟨rfl, rfl, rfl⟩ := by simpa using hr
      have hsplit : used ++ [1] = (used' ++ [0]) ++ [1] := by
        rw [htaken, List.append_assoc]
        rfl
      obtain rfl := List.append_cancel_right hsplit
      exact Or.inr ⟨rfl, used', later, rfl, hused, hnil, hdata, hlater⟩
  | @ended written' later hdata hlater =>
      simp at hr

theorem frame_ne_nil (frame : Frame) : frame.bytes ≠ [] := by
  intro h
  have hlength := congrArg List.length h
  rw [frame.length_bytes] at hlength
  cases hlength

/-! ## Every run -/

section Runs

variable {messages : List OrderMessage} {results : List Nat}
  {calls : List SendCall}

/-- Nothing is written when every result is a failure, and only then. -/
theorem quiet_iff (h : Answered messages results calls) :
    (∀ call ∈ calls, call.written = []) ↔ ∀ result ∈ results, result = 0 := by
  induction h with
  | nil => exact iff_of_true (List.forall_mem_nil _) (List.forall_mem_nil _)
  | @cons message messages used results written returned calls hcall _ ih =>
      rw [List.forall_mem_cons, List.forall_mem_append, ih]
      refine and_congr_left (fun _ => ?_)
      obtain ⟨-, hwritten, hused, hne⟩ |
        ⟨-, before, later, rfl, hbefore, hnil, -, -⟩ := send_cases hcall
      · refine iff_of_false ?_ ?_
        · rw [hwritten]
          exact frame_ne_nil _
        · intro hzero
          obtain ⟨u, hu⟩ := List.exists_mem_of_ne_nil _ hne
          exact hused u hu (hzero u hu)
      · show written = [] ↔ _
        rw [← hnil, List.forall_mem_append, List.forall_mem_singleton]
        constructor
        · rintro rfl
          exact ⟨List.forall_mem_nil _, rfl⟩
        · rintro ⟨hzero, -⟩
          by_contra hne
          obtain ⟨u, hu⟩ := List.exists_mem_of_ne_nil _ hne
          exact hbefore u hu (hzero u hu)

/-- **AFTER A FAILED CALL NOTHING IS WRITTEN** when no result after a failing
    one succeeds, and only then. -/
theorem dead_iff (h : Answered messages results calls) :
    calls.Pairwise (fun call later =>
      call.returned = false → later.written = []) ↔
    results.Pairwise (fun result later => result = 0 → later = 0) := by
  induction h with
  | nil => exact iff_of_true .nil .nil
  | @cons message messages used results written returned calls hcall hrest ih =>
      rw [List.pairwise_cons, List.pairwise_append, ih]
      obtain ⟨rfl, -, hused, -⟩ | ⟨rfl, before, later, rfl, hbefore, -, -, -⟩ :=
        send_cases hcall
      · -- no result of this call fails
        have hown : used.Pairwise (fun result later => result = 0 → later = 0) :=
          List.Pairwise.imp_of_mem
            (fun hu _ _ hzero => absurd hzero (hused _ hu))
            (List.pairwise_of_forall (fun _ _ => trivial) (R := fun _ _ => True))
        constructor
        · rintro ⟨-, hlater⟩
          exact ⟨hown, hlater, fun u hu _ _ hzero => absurd hzero (hused u hu)⟩
        · rintro ⟨-, hlater, -⟩
          refine ⟨fun _ _ hfalse => ?_, hlater⟩
          cases hfalse
      · -- the last one does
        have hown : (before ++ [0]).Pairwise
            (fun result later => result = 0 → later = 0) := by
          refine List.pairwise_append.mpr ⟨List.Pairwise.imp_of_mem
            (fun hu _ _ hzero => absurd hzero (hbefore _ hu))
            (List.pairwise_of_forall (fun _ _ => trivial)
              (R := fun _ _ => True)), List.pairwise_singleton _ _, ?_⟩
          intro u hu _ _ hzero
          exact absurd hzero (hbefore u hu)
        constructor
        · rintro ⟨hquiet, hlater⟩
          have hzero := (quiet_iff hrest).mp (fun call hc => hquiet call hc rfl)
          exact ⟨hown, hlater, fun _ _ b hb _ => hzero b hb⟩
        · rintro ⟨-, hlater, hcross⟩
          have hzero : ∀ result ∈ results, result = 0 :=
            fun b hb => hcross 0 (by simp) b hb rfl
          exact ⟨fun call hc _ => (quiet_iff hrest).mpr hzero call hc, hlater⟩

/-- Frames, and less than one behind them. -/
theorem longestPrefix_append (frames : List Frame) {part : List UInt8}
    (hpart : part.length < 45) :
    LongestPrefix frames (framesBytes frames ++ part) := by
  induction frames with
  | nil =>
      refine longestPrefix_nil (fun frame hprefix => ?_)
      have hle := hprefix.length_le
      rw [frame.length_bytes] at hle
      exact absurd hle (by
        rw [framesBytes, List.flatMap_nil, List.nil_append]
        omega)
  | cons frame frames ih =>
      rw [framesBytes_cons, List.append_assoc]
      exact ih.cons frame

/-- The frames of the calls that returned true. -/
def sentFrames (calls : List SendCall) : List Frame :=
  (calls.filter SendCall.returned).map (fun call => frameOf call.message)

/-- A call that returned true wrote its frame. -/
theorem written_of_returned (h : Answered messages results calls) :
    ∀ call ∈ calls, call.returned = true →
      call.written = (frameOf call.message).bytes := by
  induction h with
  | nil => exact List.forall_mem_nil _
  | @cons message messages used results written returned calls hcall _ ih =>
      refine List.forall_mem_cons.mpr ⟨fun hreturned => ?_, ih⟩
      obtain ⟨-, hwritten, -, -⟩ | ⟨hfailed, -⟩ := send_cases hcall
      · exact hwritten
      · rw [hfailed] at hreturned
        cases hreturned

/-- What is written then: the frames of the calls that returned true, and a
    part of the next one. -/
theorem written_eq (h : Answered messages results calls)
    (hdead : calls.Pairwise (fun call later =>
      call.returned = false → later.written = [])) :
    ∃ part, calls.flatMap SendCall.written
      = framesBytes (sentFrames calls) ++ part ∧ part.length < 45 := by
  induction h with
  | nil => exact ⟨[], rfl, by decide⟩
  | @cons message messages used results written returned calls hcall hrest ih =>
      obtain ⟨hquiet, hdead'⟩ := List.pairwise_cons.mp hdead
      obtain ⟨rfl, rfl, -, -⟩ |
        ⟨rfl, before, later, -, -, -, hframe, hlater⟩ := send_cases hcall
      · obtain ⟨part, hwritten, hpart⟩ := ih hdead'
        refine ⟨part, ?_, hpart⟩
        show (frameOf message).bytes ++ calls.flatMap SendCall.written
          = framesBytes (frameOf message :: sentFrames calls) ++ part
        rw [hwritten, framesBytes_cons, List.append_assoc]
      · have hsilent : ∀ call ∈ calls, call.written = [] :=
          fun call hc => hquiet call hc rfl
        have hnone : calls.filter SendCall.returned = [] := by
          refine List.filter_eq_nil_iff.mpr (fun call hc hreturned => ?_)
          have hwritten := written_of_returned hrest call hc hreturned
          rw [hsilent call hc] at hwritten
          exact frame_ne_nil _ hwritten.symm
        refine ⟨written, ?_, ?_⟩
        · rw [List.flatMap_cons, List.flatMap_eq_nil_iff.mpr hsilent]
          show written ++ [] = framesBytes
            ((calls.filter SendCall.returned).map _) ++ written
          rw [hnone, List.append_nil]
          rfl
        · have hlength := congrArg List.length hframe
          rw [(frameOf message).length_bytes, List.length_append] at hlength
          have hpos := List.length_pos_of_ne_nil hlater
          omega

/-- The listener reads the messages of the calls that returned true, and after
    a call that returned false nothing is written. -/
structure Sound (calls : List SendCall) : Prop where
  decoded : ∀ events, Delivering events →
    pending events = calls.flatMap SendCall.written →
    connectionLoop events
      = (calls.filter SendCall.returned).map (fun call => unstamped call.message)
  dead : calls.Pairwise (fun call later =>
    call.returned = false → later.written = [])

theorem messages_of (h : Answered messages results calls) :
    calls.map SendCall.message = messages := by
  induction h with
  | nil => rfl
  | cons _ _ ih => rw [List.map_cons, ih]

/-- **A FAILED SEND CORRUPTS NOTHING** in exactly those runs in which no
    `::send` succeeds after one that failed. -/
theorem sound_iff (hsendable : ∀ message ∈ messages, Sendable message)
    (h : Answered messages results calls) :
    Sound calls ↔
      results.Pairwise (fun result later => result = 0 → later = 0) := by
  rw [← dead_iff h]
  refine ⟨Sound.dead, fun hdead => ⟨?_, hdead⟩⟩
  intro events hdelivering hbytes
  obtain ⟨part, hwritten, hpart⟩ := written_eq h hdead
  obtain ⟨frames, hlongest, hloop⟩ :=
    connectionLoop_longest _ rfl hdelivering
  rw [hbytes, hwritten] at hlongest
  rw [hloop, hlongest.unique (longestPrefix_append _ hpart), sentFrames,
    List.map_map]
  refine List.map_congr_left (fun call hc => frameOf_message ?_)
  refine hsendable _ ?_
  rw [← messages_of h]
  exact List.mem_map_of_mem (List.mem_of_mem_filter hc)

end Runs

/-! ## A frame completed by another -/

theorem sendAll_cons {data : List UInt8} (h : data ≠ []) {count : Nat}
    (hcount : count ≠ 0) (taken : List Nat) :
    sendAll data (count :: taken)
      = (data.take count ++ (sendAll (data.drop count) taken).1,
        (sendAll (data.drop count) taken).2) := by
  cases data with
  | nil => exact absurd rfl h
  | cons byte bytes => rw [sendAll, if_neg hcount]

theorem sendAll_nil (taken : List Nat) : sendAll [] taken = ([], true, taken) := by
  rw [sendAll]

theorem sendAll_zero {data : List UInt8} (h : data ≠ []) (taken : List Nat) :
    sendAll data (0 :: taken) = ([], false, taken) := by
  cases data with
  | nil => exact absurd rfl h
  | cons byte bytes => rw [sendAll, if_pos rfl]

/-- A call whose header goes in one `::send`. -/
theorem send_header (message : OrderMessage) (taken : List Nat) :
    send message (8 :: taken)
      = (packed orderEntryHeader.fields
          ++ (sendAll (packed (encode message).fields) taken).1,
        (sendAll (packed (encode message).fields) taken).2) := by
  have hfirst : sendAll (packed orderEntryHeader.fields) (8 :: taken)
      = (packed orderEntryHeader.fields, true, taken) := by
    rw [sendAll_cons (by decide) (by decide)]
    show ((packed orderEntryHeader.fields) ++ (sendAll [] taken).1,
      (sendAll [] taken).2) = _
    rw [sendAll_nil]
    rfl
  rw [send, header_of_payload, hfirst]
  rfl

/-- The same order under the next id. -/
def nextMessage : OrderMessage := { sampleMessage with orderId := 2 ^ 40 + 2 }

/-- The last byte of the first message is not written; then the second message
    is. -/
def cutCalls : List SendCall :=
  [⟨sampleMessage, (frameOf sampleMessage).bytes.take 44, false⟩,
    ⟨nextMessage, (frameOf nextMessage).bytes, true⟩]

theorem send_cut (later : List Nat) :
    send sampleMessage ([8, 36, 0] ++ later)
      = ((frameOf sampleMessage).bytes.take 44, false, later) := by
  have hbytes : packed orderEntryHeader.fields
      ++ ((packed (encode sampleMessage).fields).take 36 ++ [])
      = (frameOf sampleMessage).bytes.take 44 := by decide
  show send sampleMessage (8 :: 36 :: 0 :: later) = _
  rw [send_header, sendAll_cons (by decide) (by decide),
    sendAll_zero (by decide)]
  exact congrArg (fun bytes => (bytes, false, later)) hbytes

theorem send_whole (later : List Nat) :
    send nextMessage ([8, 37] ++ later)
      = ((frameOf nextMessage).bytes, true, later) := by
  have hrest : (packed (encode nextMessage).fields).drop 37 = [] := by decide
  have hbytes : packed orderEntryHeader.fields
      ++ ((packed (encode nextMessage).fields).take 37 ++ [])
      = (frameOf nextMessage).bytes := by decide
  show send nextMessage (8 :: 37 :: later) = _
  rw [send_header, sendAll_cons (by decide) (by decide), hrest, sendAll_nil]
  exact congrArg (fun bytes => (bytes, true, later)) hbytes

theorem cutCalls_answered :
    Answered [sampleMessage, nextMessage] [8, 36, 0, 8, 37] cutCalls :=
  .cons send_cut (.cons send_whole .nil)

/-- The first order completed by the first byte of the second. -/
def spliced : Frame := frameOf { sampleMessage with quantity := 822083834 }

/-- The listener reads the first order, which was reported as not sent, with
    822083834 for its quantity, and not the second. -/
theorem cut_unsound :
    Answered [sampleMessage, nextMessage] [8, 36, 0, 8, 37] cutCalls ∧
    (∀ events, Delivering events →
      pending events = cutCalls.flatMap SendCall.written →
      connectionLoop events = [{ sampleMessage with quantity := 822083834 }]) ∧
    ¬ Sound cutCalls := by
  have hspliced : cutCalls.flatMap SendCall.written
      = framesBytes [spliced] ++ (frameOf nextMessage).bytes.drop 1 := by
    decide
  have hmessage : spliced.message
      = { sampleMessage with quantity := 822083834 } := by
    decide
  have hread : ∀ events, Delivering events →
      pending events = cutCalls.flatMap SendCall.written →
      connectionLoop events
        = [{ sampleMessage with quantity := 822083834 }] := by
    intro events hdelivering hbytes
    obtain ⟨frames, hlongest, hloop⟩ :=
      connectionLoop_longest _ rfl hdelivering
    rw [hbytes, hspliced] at hlongest
    rw [hloop, hlongest.unique (longestPrefix_append _ (by decide)),
      List.map_singleton, hmessage]
  refine ⟨cutCalls_answered, hread, fun hsound => ?_⟩
  have hdead := (dead_iff cutCalls_answered).mp hsound.dead
  revert hdead
  decide

/-- A cut in a message after which every `::send` fails. -/
theorem sound_iff_dead : ∃ calls,
    Answered [sampleMessage, nextMessage] [8, 36, 0, 0] calls ∧ Sound calls := by
  have hfailed : ∀ later, send nextMessage ([0] ++ later)
      = ([], false, later) := by
    intro later
    show send nextMessage (0 :: later) = _
    rw [send, header_of_payload, sendAll_zero (by decide)]
    rfl
  have hanswered : Answered [sampleMessage, nextMessage] [8, 36, 0, 0]
      [⟨sampleMessage, (frameOf sampleMessage).bytes.take 44, false⟩,
        ⟨nextMessage, [], false⟩] :=
    .cons send_cut (.cons hfailed .nil)
  have hnext : Sendable nextMessage :=
    { sampleMessage_sendable with orderId := by decide }
  have hsendable : ∀ message ∈ [sampleMessage, nextMessage],
      Sendable message :=
    List.forall_mem_cons.mpr
      ⟨sampleMessage_sendable, List.forall_mem_singleton.mpr hnext⟩
  exact ⟨_, hanswered, (sound_iff hsendable hanswered).mpr (by decide)⟩

end OsxOrderEntry
