import Nxt.Mt.Acks

/- The runtime's calls of a session (nxtrt/mtproto.hpp). The caller's session is moved into the
   transition and assigned from its result, so a transition that throws leaves a session that was
   moved from: its arrays, numbers and optional are as before, its map of requests is empty. -/
namespace Nxt.Mt
open Nxt.Lib

def Session.movedFrom (session : Session) : Session := { session with pendingRequests := [] }

theorem movedFrom_eq_iff (session : Session) : session.movedFrom = session ↔ session.pendingRequests = [] := by
  constructor
  · intro same
    exact (congrArg Session.pendingRequests same).symm
  · intro nothing
    rw [Session.movedFrom, ← nothing]

structure Outcome (α : Type) where
  session : Session
  result : Except String α

section Driver
variable (cipher : Cipher)

/-- `receive_next_session_effects` until its effects are written. -/
def receiveNextSessionEffects (session : Session) (frame : Except String Bytes) (nowNs : BitVec 64) (padding : Bytes) :
    Outcome (List SessionEffect) :=
  match frame with
  | .error e => { session, result := .error e }
  | .ok frame =>
      match receivePacket cipher session frame nowNs padding with
      | .error e => { session := session.movedFrom, result := .error e }
      | .ok received => { session := received.next, result := .ok received.effects }

/-- `invoke_raw` until its request is written. -/
def invokeRawSend (session : Session) (nowNs : BitVec 64) (body : Bytes) (requestName : String) (padding : Bytes) :
    Outcome (BitVec 64 × List SessionEffect) :=
  match sendRequest cipher session nowNs body requestName padding with
  | .error e => { session := session.movedFrom, result := .error e }
  | .ok sent => { session := sent.next, result := .ok (sent.requestId, sent.effects) }

variable {cipher} {session : Session} {nowNs : BitVec 64} {padding : Bytes}

theorem receive_rejected {frame : Bytes} {e : String}
    (rejected : (receiveNextSessionEffects cipher session (.ok frame) nowNs padding).result = .error e) :
    (receiveNextSessionEffects cipher session (.ok frame) nowNs padding).session = session.movedFrom := by
  unfold receiveNextSessionEffects at rejected ⊢
  dsimp only at rejected ⊢
  split at rejected
  · rfl
  · cases rejected

theorem invoke_rejected {body : Bytes} {requestName e : String}
    (rejected : (invokeRawSend cipher session nowNs body requestName padding).result = .error e) :
    (invokeRawSend cipher session nowNs body requestName padding).session = session.movedFrom := by
  unfold invokeRawSend at rejected ⊢
  split at rejected
  · rfl
  · cases rejected

/-- A frame that is rejected, or a request that cannot be built, leaves the session as it was exactly
    when no request was pending. -/
theorem rejected_session_kept_iff (cipher : Cipher) (session : Session) (nowNs : BitVec 64) (padding : Bytes) :
    (∀ frame e, (receiveNextSessionEffects cipher session (.ok frame) nowNs padding).result = .error e →
      ((receiveNextSessionEffects cipher session (.ok frame) nowNs padding).session = session ↔
        session.pendingRequests = [])) ∧
    (∀ body requestName e, (invokeRawSend cipher session nowNs body requestName padding).result = .error e →
      ((invokeRawSend cipher session nowNs body requestName padding).session = session ↔
        session.pendingRequests = [])) := by
  constructor
  · intro frame e rejected
    rw [receive_rejected rejected]
    exact movedFrom_eq_iff session
  · intro body requestName e rejected
    rw [invoke_rejected rejected]
    exact movedFrom_eq_iff session

end Driver

section Samples

def waitingSession : Session :=
  { sampleSession with
    lastMessageId := some 4
    sentContentMessages := 1
    pendingRequests := [(4, { body := [0xde, 0xad, 0xbe, 0xef], request := "help.getConfig", seqNo := 1 })] }

theorem empty_frame_rejected (cipher : Cipher) (session : Session) :
    (receiveNextSessionEffects cipher session (.ok []) 0 []).result = .error "short encrypted payload" := rfl

theorem idle_session_kept :
    (receiveNextSessionEffects Cipher.aes sampleSession (.ok []) 0 []).result = .error "short encrypted payload" ∧
    (receiveNextSessionEffects Cipher.aes sampleSession (.ok []) 0 []).session = sampleSession ∧
    (invokeRawSend Cipher.aes sampleSession 0 [0xde] "help.getConfig" []).session = sampleSession := by
  have kept := rejected_session_kept_iff Cipher.aes sampleSession 0 []
  refine ⟨rfl, (kept.1 [] "short encrypted payload" rfl).mpr rfl, ?_⟩
  exact (kept.2 [0xde] "help.getConfig" "insufficient encrypted packet padding" rfl).mpr rfl

theorem pending_request_lost :
    (receiveNextSessionEffects Cipher.aes waitingSession (.ok []) 0 []).result = .error "short encrypted payload" ∧
    ¬ (receiveNextSessionEffects Cipher.aes waitingSession (.ok []) 0 []).session = waitingSession := by
  refine ⟨rfl, ?_⟩
  rw [receive_rejected (empty_frame_rejected Cipher.aes waitingSession), movedFrom_eq_iff]
  exact fun nothing => List.cons_ne_nil _ _ nothing

end Samples

end Nxt.Mt
