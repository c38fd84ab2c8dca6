import Nxt.WebSocket.Receive

/- The frames of the client as a server reads them, and the closing handshake. -/
namespace Nxt.WebSocket
open Nxt.Lib List

section Frames

theorem masked_masked (mask : Mask) (data : Bytes) : masked mask (masked mask data) = data := by
  apply ext_getElem?
  intro i
  unfold masked
  rw [getElem?_mapIdx, getElem?_mapIdx]
  cases data[i]? with
  | none => rfl
  | some b =>
    show some (b ^^^ mask.at i ^^^ mask.at i) = some b
    rw [UInt8.xor_assoc, UInt8.xor_self, UInt8.xor_zero]

theorem masked_length (mask : Mask) (data : Bytes) : (masked mask data).length = data.length := length_mapIdx

theorem wide_length (width size : Nat) : (wide width size).length = width := by
  rw [wide, length_map, length_range]

theorem beValue_wide_two {size : Nat} (small : size < 2 ^ 16) : beValue (wide 2 size) = size := by
  have bytes : wide 2 size = [UInt8.ofNat (size / 2 ^ 8), UInt8.ofNat (size / 2 ^ 0)] := rfl
  rw [bytes]
  simp only [beValue, foldl_cons, foldl_nil, UInt8.toNat_ofNat']
  omega

theorem beValue_wide_eight {size : Nat} (small : size < 2 ^ 64) : beValue (wide 8 size) = size := by
  have bytes : wide 8 size = [UInt8.ofNat (size / 2 ^ 56), UInt8.ofNat (size / 2 ^ 48), UInt8.ofNat (size / 2 ^ 40),
    UInt8.ofNat (size / 2 ^ 32), UInt8.ofNat (size / 2 ^ 24), UInt8.ofNat (size / 2 ^ 16), UInt8.ofNat (size / 2 ^ 8),
    UInt8.ofNat (size / 2 ^ 0)] := rfl
  rw [bytes]
  simp only [beValue, foldl_cons, foldl_nil, UInt8.toNat_ofNat']
  omega

theorem serverSize_wide {second : UInt8} {len size : Nat} (masked : second.toNat / 128 ≠ 0)
    (long : ¬ second.toNat % 128 < 126) (width : (if second.toNat % 128 = 126 then 2 else 8) = len)
    (value : beValue (wide len size) = size) (two : ¬ (second.toNat % 128 = 126 ∧ size < 126))
    (eight : ¬ (second.toNat % 128 = 127 ∧ (size < 65536 ∨ 2 ^ 63 ≤ size))) (more : Bytes) :
    serverSize second (wide len size ++ more) = some (size, more) := by
  have enough : len ≤ (wide len size ++ more).length := by rw [length_append, wide_length]; omega
  unfold serverSize
  dsimp only
  rw [if_neg masked, if_neg long, width, take_left' (wide_length ..), drop_left' (wide_length ..), value,
    if_neg (Nat.not_lt.mpr enough), if_neg two, if_neg eight]

theorem serverSize_sizeBytes {size : Nat} (bound : size < 2 ^ 63) (more : Bytes) :
    ∃ second rest, sizeBytes size ++ more = second :: rest ∧ serverSize second rest = some (size, more) := by
  unfold sizeBytes
  by_cases small : size < 126
  · rw [if_pos small]
    refine ⟨_, more, rfl, ?_⟩
    have value : (UInt8.ofNat (128 + size)).toNat = 128 + size := toNat_ofNat_small (by omega)
    unfold serverSize
    rw [value]
    dsimp only
    have low : (128 + size) % 128 = size := by omega
    rw [if_neg (by omega), low, if_pos small]
  · rw [if_neg small]
    by_cases medium : size ≤ 65535
    · rw [if_pos medium]
      refine ⟨254, wide 2 size ++ more, rfl, ?_⟩
      exact serverSize_wide (by decide) (by decide) (if_pos (by decide)) (beValue_wide_two (by omega))
        (fun short => small short.2) (fun long => absurd long.1 (by decide)) more
    · rw [if_neg medium]
      refine ⟨255, wide 8 size ++ more, rfl, ?_⟩
      exact serverSize_wide (by decide) (by decide) (if_neg (by decide)) (beValue_wide_eight (by omega))
        (fun short => absurd short.1 (by decide)) (fun long => by omega) more

theorem serverDecode_frame (mask : Mask) {opcode : Nat} (known : opcode < 16) (data : Bytes) (bound : data.length < 2 ^ 63)
    (more : Bytes) : serverDecode (frame mask opcode data ++ more) = some ({ fin := true, opcode, payload := data }, more) := by
  obtain ⟨second, rest, bytes, size⟩ :=
    serverSize_sizeBytes bound ([mask 0, mask 1, mask 2, mask 3] ++ masked mask data ++ more)
  have whole : frame mask opcode data ++ more = UInt8.ofNat (128 + opcode) :: second :: rest := by
    rw [← bytes]
    simp [frame]
  have first : (UInt8.ofNat (128 + opcode)).toNat = 128 + opcode := toNat_ofNat_small (by omega)
  rw [whole]
  unfold serverDecode
  dsimp only
  rw [first, if_neg (by omega), size]
  show (if (masked mask data ++ more).length < data.length then none
    else some (({ fin := (128 + opcode) / 128 ≠ 0, opcode := (128 + opcode) % 16,
                  payload := masked (fun i => [mask 0, mask 1, mask 2, mask 3].getD i.val 0)
                    ((masked mask data ++ more).take data.length) } : ClientFrame),
               (masked mask data ++ more).drop data.length)) = _
  have key : (fun i : Fin 4 => [mask 0, mask 1, mask 2, mask 3].getD i.val 0) = mask := by
    funext i
    match i with
    | 0 => rfl
    | 1 => rfl
    | 2 => rfl
    | 3 => rfl
  rw [key, take_left' (masked_length mask data), drop_left' (masked_length mask data), masked_masked,
    if_neg (by rw [length_append, masked_length]; omega)]
  have fin : decide ((128 + opcode) / 128 ≠ 0) = true := decide_eq_true (by omega)
  have code : (128 + opcode) % 16 = opcode := by omega
  rw [fin, code]

end Frames

section Closing

structure Closing (e : Endpoint) (returned : Nat) : Prop where
  sent : e.sent.countP (fun s => s.opcode = 8) = e.closeSent.toNat
  returned : returned = e.closeReceived.toNat
  apart : e.closeReceived = true → e.connected = false

def isClose : Outcome → Bool
  | .event message => message.type = .close
  | _ => false

variable {e : Endpoint} {returned : Nat}

theorem Closing.put (closing : Closing e returned) {opcode : Nat} (other : opcode ≠ 8)
    (payload : Bytes) : Closing (e.put opcode payload) returned := by
  refine ⟨?_, closing.returned, closing.apart⟩
  show (e.sent ++ [_]).countP _ = _
  rw [countP_append, closing.sent, countP_singleton, if_neg (by simpa using other)]
  rfl

theorem Closing.put_close (closing : Closing e returned) (notYet : e.closeSent = false)
    (payload : Bytes) : (e.put 8 payload).sent.countP (fun s => s.opcode = 8) = 1 := by
  show (e.sent ++ [_]).countP _ = _
  rw [countP_append, closing.sent, notYet]
  rfl

theorem closeMessage_type (payload : Bytes) : (Endpoint.closeMessage payload).type = .close := by
  match payload with
  | [] => rfl
  | [_] => rfl
  | _ :: _ :: _ => rfl

/-- Data messages of the server are text and binary. -/
def DataItems (items : List Arrival) : Prop :=
  ∀ arrival ∈ items, ∀ type data, arrival.item = .message type data → type ≠ .close

theorem Closing.take (items : List Arrival) (closing : Closing e returned) (open_ : e.closeReceived = false)
    (data : DataItems items) : Closing (e.take items).1 (returned + (isClose (e.take items).2).toNat) := by
  induction items generalizing e with
  | nil => exact ⟨closing.sent, closing.returned, fun _ => rfl⟩
  | cons arrival rest ih =>
    obtain ⟨first, later⟩ := forall_mem_cons.mp data
    have here : Closing { e with items := rest, unread := arrival.behind } returned :=
      ⟨closing.sent, closing.returned, closing.apart⟩
    rw [Endpoint.take]
    dsimp only
    cases item : arrival.item with
    | ping payload => exact ih (here.put (by decide) payload) open_ later
    | pong payload => exact here
    | message type data =>
      by_cases closed : e.closeSent = true
      · dsimp only
        rw [if_pos closed]
        exact ih here open_ later
      · dsimp only
        rw [if_neg closed]
        have other : isClose (.event { type, data }) = false := decide_eq_false (first type data item)
        rw [other]
        exact here
    | close payload =>
      have close : isClose (.event (Endpoint.closeMessage payload)) = true := decide_eq_true (closeMessage_type payload)
      dsimp only
      rw [close]
      refine ⟨?_, ?_, fun _ => rfl⟩
      · by_cases closed : e.closeSent = true
        · rw [if_pos closed]
          exact here.sent.trans (congrArg Bool.toNat closed)
        · rw [if_neg closed]
          exact here.put_close (Bool.eq_false_iff.mpr closed) payload
      · rw [closing.returned, open_]
        rfl

theorem take_items (items : List Arrival) (e : Endpoint) (data : DataItems items) : DataItems (e.take items).1.items := by
  induction items generalizing e with
  | nil => exact fun _ never => by cases never
  | cons arrival rest ih =>
    obtain ⟨_, later⟩ := forall_mem_cons.mp data
    rw [Endpoint.take]
    dsimp only
    cases arrival.item with
    | ping payload => exact ih _ later
    | pong payload => exact later
    | message type data =>
      dsimp only
      split
      · exact ih _ later
      · exact later
    | close payload =>
      dsimp only
      split
      · exact later
      · exact later

structure Proper (e : Endpoint) (returned : Nat) : Prop where
  closing : Closing e returned
  data : DataItems e.items

section
variable (proper : Proper e returned)
include proper

theorem Proper.sends {opcode : Nat} (other : opcode ≠ 8)
    (payload : Bytes) : Proper (e.sends opcode payload).1 (returned + (isClose (e.sends opcode payload).2).toNat) := by
  unfold Endpoint.sends
  split
  · exact proper
  · split
    · exact ⟨⟨proper.closing.sent, proper.closing.returned, fun _ => rfl⟩, proper.data⟩
    · exact ⟨proper.closing.put other payload, proper.data⟩

theorem Proper.close (payload : Bytes) :
    Proper (e.close payload).1 (returned + (isClose (e.close payload).2).toNat) := by
  unfold Endpoint.close
  split
  · exact proper
  · split
    · exact proper
    · rename_i closed
      exact ⟨⟨proper.closing.put_close (Bool.eq_false_iff.mpr closed) payload, proper.closing.returned, proper.closing.apart⟩,
        proper.data⟩

theorem Proper.receive : Proper e.receive.1 (returned + (isClose e.receive.2).toNat) := by
  unfold Endpoint.receive
  split
  · exact proper
  · rename_i open_
    split
    · exact ⟨proper.closing.take e.items (Bool.eq_false_iff.mpr open_) proper.data, take_items e.items e proper.data⟩
    · exact proper

theorem Proper.call (call : Call) : Proper (e.call call).1 (returned + (isClose (e.call call).2).toNat) := by
  cases call with
  | receive => exact proper.receive
  | send type data =>
    unfold Endpoint.call
    dsimp only
    split
    · exact proper.sends (by split <;> decide) data
    · exact proper
  | ping data =>
    unfold Endpoint.call
    dsimp only
    split
    · exact proper.sends (by decide) data
    · exact proper
  | close code reason =>
    unfold Endpoint.call
    dsimp only
    split
    · exact proper.close _
    · exact proper

theorem Proper.calls (calls : List Call) : Proper (e.calls calls).2 (returned + (e.calls calls).1.countP isClose) := by
  induction calls generalizing e returned with
  | nil => exact proper
  | cons call calls ih =>
    have later := ih (proper.call call)
    have count : (e.calls (call :: calls)).1.countP isClose =
        ((e.call call).1.calls calls).1.countP isClose + (isClose (e.call call).2).toNat := by
      show ((e.call call).2 :: ((e.call call).1.calls calls).1).countP isClose = _
      rw [countP_cons]
      cases isClose (e.call call).2 <;> rfl
    rw [count, Nat.add_comm _ (isClose (e.call call).2).toNat, ← Nat.add_assoc]
    exact later

end

theorem arrivals_data (after : Nat) (frames : List RawFrame) {begun : Option Begun}
    (typed : ∀ message, begun = some message → message.type ≠ .close) : DataItems (arrivals after begun frames) := by
  induction frames generalizing begun with
  | nil => exact fun _ never => by cases never
  | cons f frames ih =>
    have grown : (Begun.grown begun f).type ≠ .close := by
      cases begun with
      | none =>
        show dataType f.opcode ≠ .close
        unfold dataType
        split <;> decide
      | some message => exact typed message rfl
    have next : ∀ message, begunAfter begun f = some message → message.type ≠ .close := by
      intro message same
      unfold begunAfter at same
      split at same
      · exact typed message same
      · split at same
        · cases same
        · cases same
          exact grown
    rw [arrivals]
    split
    · exact ih next
    · rename_i item complete
      refine forall_mem_cons.mpr ⟨?_, ih next⟩
      intro type data is
      unfold completed at complete
      split at complete
      · cases complete
        cases is
      · split at complete
        · cases complete
          cases is
        · split at complete
          · cases complete
            cases is
          · split at complete
            · cases complete
              cases is
              exact grown
            · cases complete

end Closing

section Connection

def clientStart (limit : Nat) (segments : List Bytes) : Client := { maxMessageSize := limit, input := segments }

def endpointStart (limit : Nat) (frames : List RawFrame) (tail : Bytes) : Endpoint :=
  { limit, items := arrivals tail.length none frames, unread := (frames.flatMap RawFrame.bytes).length + tail.length }

/-- A client answers every call as the protocol does, for any frames of the server that are valid up to the tail and
    any cuts of their bytes; Close is sent and returned at most once, and nothing is received after it. A server
    reads back every frame the client writes. -/
theorem client_follows (masks : Nat → Mask) (limit : Nat) (frames : List RawFrame) (tail : Bytes) (segments : List Bytes)
    (calls : List Call) (valid : AllValid limit none frames) (complete : ∀ f ∈ frames, f.Complete)
    (ends : Ends limit (begunAt none frames) tail) (cut : segments.flatten = frames.flatMap RawFrame.bytes ++ tail) :
    List.Forall₂ Answers ((clientStart limit segments).calls masks calls).1 ((endpointStart limit frames tail).calls calls).1 ∧
      ((clientStart limit segments).calls masks calls).2.written =
        outputs masks ((endpointStart limit frames tail).calls calls).2.sent ∧
      ((clientStart limit segments).calls masks calls).2.connected =
        ((endpointStart limit frames tail).calls calls).2.connected ∧
      ((endpointStart limit frames tail).calls calls).2.sent.countP (fun s => s.opcode = 8) ≤ 1 ∧
      ((endpointStart limit frames tail).calls calls).1.countP isClose ≤ 1 ∧
      (0 < ((endpointStart limit frames tail).calls calls).1.countP isClose →
        ((endpointStart limit frames tail).calls calls).2.receive.2 = .nothing) ∧
      ∀ (mask : Mask) (opcode : Nat) (data more : Bytes), opcode < 16 → data.length < 2 ^ 63 →
        serverDecode (frame mask opcode data ++ more) = some ({ fin := true, opcode, payload := data }, more) := by
  have synced : Synced masks tail (clientStart limit segments) (endpointStart limit frames tail) := by
    refine ⟨⟨rfl, rfl, rfl, rfl, rfl⟩, fun _ => ⟨none, frames, ⟨cut, ⟨rfl, rfl, Nat.zero_le _⟩, valid, complete, ends⟩, rfl, ?_⟩⟩
    show _ = segments.flatten.length
    rw [cut, length_append]
    rfl
  have proper : Proper (endpointStart limit frames tail) 0 :=
    ⟨⟨rfl, rfl, fun never => absurd never Bool.false_ne_true⟩,
      arrivals_data _ frames (fun _ never => by cases never)⟩
  obtain ⟨answers, after⟩ := synced.calls calls
  have counted := proper.calls calls
  have returned := counted.closing.returned
  rw [Nat.zero_add] at returned
  refine ⟨answers, after.same.written, after.same.connected, ?_, ?_, ?_, ?_⟩
  · rw [counted.closing.sent]
    exact Bool.toNat_le _
  · rw [returned]
    exact Bool.toNat_le _
  · intro some_
    rw [returned] at some_
    have received : ((endpointStart limit frames tail).calls calls).2.closeReceived = true := by
      by_contra not_
      rw [Bool.eq_false_iff.mpr not_] at some_
      exact absurd some_ (by decide)
    unfold Endpoint.receive
    rw [if_pos received]
  · intro mask opcode data more known bound
    exact serverDecode_frame mask known data bound more

/-- A text in two fragments with a ping between them, and a close. -/
def sampleFrames : List RawFrame :=
  [{ first := 0x01, second := 1, extended := [], payload := [104] },
   { first := 0x89, second := 1, extended := [], payload := [120] },
   { first := 0x80, second := 1, extended := [], payload := [105] },
   { first := 0x88, second := 2, extended := [], payload := [3, 232] }]

def sampleSegments : List Bytes := [[0x01], [1, 104, 0x89, 1], [], [120, 0x80], [1, 105, 0x88, 2, 3], [232]]

def sampleMasks : Nat → Mask := fun _ _ => 7

theorem sample_valid : AllValid 16 none sampleFrames := by
  have text : Utf8Text [104, 105] := (utf8_iff _).mp (by decide)
  refine ⟨?_, ?_, ?_, ?_, trivial⟩
  · exact ⟨by decide, by decide, by decide, by unfold RawFrame.Minimal; decide, by decide, by decide, by decide,
      fun _ fin => absurd fin (by decide), fun eight => absurd eight (by decide)⟩
  · exact ⟨by decide, by decide, by decide, by unfold RawFrame.Minimal; decide, by decide, by decide, by decide,
      fun data => absurd data (by decide), fun eight => absurd eight (by decide)⟩
  · exact ⟨by decide, by decide, by decide, by unfold RawFrame.Minimal; decide, by decide, by decide, by decide,
      fun _ _ _ => text, fun eight => absurd eight (by decide)⟩
  · exact ⟨by decide, by decide, by decide, by unfold RawFrame.Minimal; decide, by decide, by decide, by decide,
      fun data => absurd data (by decide), fun _ => .inr ⟨3, 232, [], rfl, by decide, ⟨[], rfl⟩⟩⟩

/-- The text, the close, and nothing after it; the ping is answered with all that follows it unread. -/
theorem sample_follows :
    ((clientStart 16 sampleSegments).calls sampleMasks [.receive, .receive, .receive]).1 =
        [.ok (some { type := .text, data := [104, 105] }), .ok (some { type := .close, data := [], code := some 1000 }),
          .ok none] ∧
      ((clientStart 16 sampleSegments).calls sampleMasks [.receive, .receive, .receive]).2.written =
        [{ unread := 7, bytes := [138, 129, 7, 7, 7, 7, 127] }, { unread := 0, bytes := [136, 130, 7, 7, 7, 7, 4, 239] }] ∧
      List.Forall₂ Answers ((clientStart 16 sampleSegments).calls sampleMasks [.receive, .receive, .receive]).1
        ((endpointStart 16 sampleFrames []).calls [.receive, .receive, .receive]).1 :=
  ⟨by decide, by decide, (client_follows sampleMasks 16 sampleFrames [] sampleSegments [.receive, .receive, .receive]
    sample_valid (by
      intro f held
      simp only [sampleFrames, mem_cons, not_mem_nil, or_false] at held
      rcases held with rfl | rfl | rfl | rfl <;> exact ⟨rfl, rfl⟩) (fun _ _ same => nomatch same) rfl).1⟩

end Connection

end Nxt.WebSocket
