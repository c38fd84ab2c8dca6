import Nxt.Mt.Exchange

/- What a completed key exchange has gone through, over every sequence of calls, with those that throw
   and leave a part of their fields behind. -/
namespace Nxt.Mt
open Nxt.Lib Nxt.Crypto List

inductive ExchangeCall where
  | begin (nonce : Bytes) (out : ByteWriter)
  | receiveResPq (fuel : Nat) (call : ResPqCall)
  | receiveServerDhParams (call : ServerDhCall)
  | receiveDhGen (body : Bytes)
  deriving DecidableEq

/-- Whether the call returned; none when it is still running. -/
def ExchangeCall.run : ExchangeCall → Exchange (Option Unit)
  | .begin nonce out => do
      let _ ← Mt.begin nonce out
      return some ()
  | .receiveResPq fuel call => do
      let out ← Mt.receiveResPq fuel call
      return out.map fun _ => ()
  | .receiveServerDhParams call => do
      let _ ← Mt.receiveServerDhParams call
      return some ()
  | .receiveDhGen body => do
      Mt.receiveDhGen body
      return some ()

/-- A call with a nonce of the right length starts the exchange anew, also when it throws then. -/
def ExchangeCall.begins : ExchangeCall → Bool
  | .begin nonce _ => nonce.length = 16
  | _ => false

structure Traced where
  state : ExchangeState := {}
  accepted : List ExchangeCall := []

inductive Traced.Step (call : ExchangeCall) : Traced → Traced → Prop
  | returned {t : Traced} {s : ExchangeState} (run : call.run t.state = .ok (some ()) s) :
      Step call t { state := s, accepted := if call.begins then [] else t.accepted ++ [call] }
  | threw {t : Traced} {e : String} {s : ExchangeState} (run : call.run t.state = .error e s) :
      Step call t { state := s, accepted := if call.begins then [] else t.accepted }

section Rules
variable {α : Type} {Q : α → ExchangeState → Prop} {E : String → ExchangeState → Prop} {s : ExchangeState}

@[simp] theorem wp_lift (m : Except String α) : wp (lift m) Q E s ↔
    (∀ a, m = .ok a → Q a s) ∧ ∀ e, m = .error e → E e s := by
  unfold wp lift
  cases m with
  | ok a => simp
  | error e => simp

@[simp] theorem wp_fails (bad : Prop) [Decidable bad] (message : String) {Q : Unit → ExchangeState → Prop} :
    wp (fails bad message) Q E s ↔ (bad → E message s) ∧ (¬bad → Q () s) := by
  unfold fails
  rw [wp_ite]
  rfl

end Rules

def AcceptedResPq (s : ExchangeState) (call : ResPqCall) : Prop :=
  ∃ answer, decodeResPq call.response call.fingerprintStorage = .ok answer ∧ answer.nonce = s.nonce ∧
    answer.serverNonce = s.serverNonce ∧
    ∃ key ∈ call.publicKeys, key.fingerprint ∈ answer.fingerprints ∧ key.fingerprint = s.selectedPublicKeyFingerprint

def AcceptedServerDh (s : ExchangeState) (call : ServerDhCall) : Prop :=
  ∃ keyIv encryptedAnswer data padding inner,
    decodeServerDhParams s call.body = .ok encryptedAnswer ∧ tempAesKeyIv s.serverNonce s.newNonce = .ok keyIv ∧
    (contextOf keyIv.key).igeDecrypt keyIv.iv encryptedAnswer = sha1 data ++ data ++ padding ∧ padding.length ≤ 15 ∧
    decodeServerDhInnerData data = .ok inner ∧ inner.nonce = s.nonce ∧ inner.serverNonce = s.serverNonce ∧
    makeAuthKey s.key.data = .ok s.key ∧
    beValue s.key.data = beValue inner.gA ^ beValue (call.randomBytes.take 256) % beValue inner.dhPrime

def AcceptedDhGen (s : ExchangeState) (body : Bytes) : Prop :=
  ∃ response, decodeDhGenResponse body = .ok response ∧ response.constructor_ = .ok ∧ response.nonce = s.nonce ∧
    response.serverNonce = s.serverNonce ∧
    response.newNonceHash =
      ((digestSha1 (s.newNonce ++ [1] ++ (digestSha1 s.key.data).take 8)).drop 4).take 16

def Authenticated (t : Traced) : Prop :=
  match t.state.currentPhase with
  | .idle => t.accepted = []
  | .awaitingResPq => t.accepted = []
  | .awaitingServerDhParams =>
      ∃ fuel a, t.accepted = [.receiveResPq fuel a] ∧ AcceptedResPq t.state a
  | .awaitingDhGen =>
      ∃ fuel a b, t.accepted = [.receiveResPq fuel a, .receiveServerDhParams b] ∧ AcceptedResPq t.state a ∧
        AcceptedServerDh t.state b
  | .complete =>
      ∃ fuel a b c, t.accepted = [.receiveResPq fuel a, .receiveServerDhParams b, .receiveDhGen c] ∧
        AcceptedResPq t.state a ∧ AcceptedServerDh t.state b ∧ AcceptedDhGen t.state c

section Calls
variable {s : ExchangeState}

theorem selectPublicKey_known {keys : List PublicKey} {fingerprints : List (BitVec 64)} {key : PublicKey}
    (found : selectPublicKey keys fingerprints = some key) : key ∈ keys ∧ key.fingerprint ∈ fingerprints := by
  obtain ⟨fingerprint, inside, found⟩ := exists_of_findSome?_eq_some found
  have same := find?_some found
  rw [beq_iff_eq] at same
  exact ⟨mem_of_find?_eq_some found, same ▸ inside⟩

theorem writeReqPqMulti_fits {w : ByteWriter} {nonce : Bytes} (sized : nonce.length = 16)
    (room : w.written.length + reqPqMultiSize ≤ w.capacity) : ∃ w', writeReqPqMulti w nonce = .ok w' := by
  unfold reqPqMultiSize at room
  have four : (leBytes 4 0xbe7e8ef1).length = 4 := leBytes_length _ _
  unfold writeReqPqMulti writeInt128
  rw [if_neg (not_not.mpr sized), ByteWriter.putLe, put_fits (by omega), ok_bind, if_neg (not_not.mpr sized),
    put_fits (by dsimp only; rw [length_append]; omega)]
  exact ⟨_, rfl⟩

/-- A `begin` with a nonce of the right length starts from a new state, in the phase after, also when it throws because
    its writer is too small. -/
theorem begin_spec (nonce : Bytes) (out : ByteWriter) :
    wp (begin nonce out) (fun _ s' => nonce.length = 16 ∧ s'.currentPhase = .awaitingResPq)
      (fun _ s' => if nonce.length = 16 then s'.currentPhase = .awaitingResPq ∧
        ¬out.written.length + reqPqMultiSize ≤ out.capacity else s' = s) s := by
  unfold begin
  rw [wp_bind, wp_fails]
  refine ⟨fun bad => (if_neg bad).mpr rfl, fun sized => ?_⟩
  rw [not_not] at sized
  rw [wp_bind, wp_set, wp_bind, wp_modify, wp_bind, wp_modify, wp_bind, wp_get, wp_lift]
  refine ⟨fun _ _ => ⟨sized, rfl⟩, fun e failed => (if_pos sized).mpr ⟨rfl, fun room => ?_⟩⟩
  obtain ⟨w', wrote⟩ := writeReqPqMulti_fits sized room
  rw [wrote] at failed
  cases failed

theorem receiveResPq_spec (fuel : Nat) (call : ResPqCall) : wp (receiveResPq fuel call)
      (fun out s' => out.isSome → s.currentPhase = .awaitingResPq ∧ s'.currentPhase = .awaitingServerDhParams ∧
        AcceptedResPq s' call)
      (fun _ s' => s'.currentPhase = s.currentPhase ∧ (s.currentPhase ≠ .awaitingResPq → s' = s)) s := by
  unfold receiveResPq
  rw [wp_bind, wp_get, wp_bind, wp_fails]
  refine ⟨fun _ => ⟨rfl, fun _ => rfl⟩, fun phase => ?_⟩
  rw [not_not] at phase
  have stays : ∀ s' : ExchangeState, s'.currentPhase = s.currentPhase →
      s'.currentPhase = s.currentPhase ∧ (s.currentPhase ≠ .awaitingResPq → s' = s) :=
    fun s' same => ⟨same, fun other => absurd phase other⟩
  rw [wp_bind, wp_fails]
  refine ⟨fun _ => stays _ rfl, fun _ => ?_⟩
  rw [wp_bind, wp_lift]
  refine ⟨fun decoded read => ?_, fun _ _ => stays _ rfl⟩
  rw [wp_bind, wp_fails]
  refine ⟨fun _ => stays _ rfl, fun nonce => ?_⟩
  rw [not_not] at nonce
  cases found : selectPublicKey call.publicKeys decoded.fingerprints with
  | none => exact stays _ rfl
  | some key =>
    obtain ⟨known, fingerprint⟩ := selectPublicKey_known found
    dsimp only
    rw [wp_bind, wp_lift]
    refine ⟨?_, fun _ _ => stays _ rfl⟩
    rintro ⟨pValue, qValue⟩ -
    dsimp only
    rw [wp_bind, wp_lift]
    refine ⟨fun p _ => ?_, fun _ _ => stays _ rfl⟩
    rw [wp_bind, wp_modify, wp_bind, wp_lift]
    refine ⟨fun q _ => ?_, fun _ _ => stays _ rfl⟩
    rw [wp_bind, wp_modify, wp_bind, wp_modify, wp_bind, wp_modify, wp_bind, wp_get, wp_bind, wp_fails]
    refine ⟨fun _ => stays _ rfl, fun _ => ?_⟩
    rw [wp_bind, wp_lift]
    refine ⟨fun inner _ => ?_, fun _ _ => stays _ rfl⟩
    rw [wp_bind, wp_fails]
    refine ⟨fun _ => stays _ rfl, fun _ => ?_⟩
    rw [wp_bind, wp_lift]
    refine ⟨fun encrypted _ => ?_, fun _ _ => stays _ rfl⟩
    cases encrypted with
    | none => exact fun never => Bool.noConfusion never
    | some encrypted =>
      dsimp only
      rw [wp_bind, wp_lift]
      refine ⟨fun out _ => ?_, fun _ _ => stays _ rfl⟩
      rw [wp_bind, wp_modify, wp_bind, wp_modify, wp_pure]
      exact fun _ => ⟨phase, rfl, decoded, read, nonce, rfl, key, known, fingerprint, rfl⟩

/-- Nothing that was accepted before is touched by a later part of the exchange. -/
structure Same (s s' : ExchangeState) : Prop where
  phase : s'.currentPhase = s.currentPhase
  nonce : s'.nonce = s.nonce
  serverNonce : s'.serverNonce = s.serverNonce
  newNonce : s'.newNonce = s.newNonce
  selected : s'.selectedPublicKeyFingerprint = s.selectedPublicKeyFingerprint

/-- The secret exponent and the prime of the answer are not zero and one at once. -/
def ProperExponent (s : ExchangeState) (call : ServerDhCall) : Prop :=
  ∀ keyIv encryptedAnswer inner, decodeServerDhParams s call.body = .ok encryptedAnswer →
    tempAesKeyIv s.serverNonce s.newNonce = .ok keyIv →
    openServerDhInnerData s keyIv encryptedAnswer call.decryptedStorage = .ok inner →
    beValue (call.randomBytes.take 256) ≠ 0 ∨ beValue inner.dhPrime ≠ 1

theorem openServerDhInnerData_ok {keyIv : AesKeyIv} {encryptedAnswer storage : Bytes} {inner : ServerDhInnerData}
    (opened : openServerDhInnerData s keyIv encryptedAnswer storage = .ok inner) : ∃ data padding : Bytes,
      (contextOf keyIv.key).igeDecrypt keyIv.iv encryptedAnswer = sha1 data ++ data ++ padding ∧ padding.length ≤ 15 ∧
      decodeServerDhInnerData data = .ok inner ∧ inner.nonce = s.nonce ∧ inner.serverNonce = s.serverNonce := by
  unfold openServerDhInnerData at opened
  obtain ⟨data, decrypted, opened⟩ := bind_ok opened
  obtain ⟨inner', decoded, opened⟩ := bind_ok opened
  split at opened
  · cases opened
  · rename_i nonces
    cases opened
    obtain ⟨-, -, -, padding, text, short⟩ := decryptDataWithHash_ok decrypted
    rw [not_or, not_not, not_not] at nonces
    exact ⟨data, padding, text, short, decoded, nonces.1, nonces.2⟩

theorem makeAuthKey_ok {data : Bytes} {key : ExchangeKey} (made : makeAuthKey data = .ok key) :
    key.data = data ∧ key.auxHash = (sha1 data).take 8 ∧ makeAuthKey key.data = .ok key := by
  have again := made
  unfold makeAuthKey at made
  split at made
  · cases made
  · cases made
    exact ⟨rfl, rfl, again⟩

theorem calcNewNonceHash_ok {key : ExchangeKey} {newNonce hash : Bytes} (made : makeAuthKey key.data = .ok key)
    (computed : calcNewNonceHash key newNonce 1 = .ok hash) :
    hash = ((digestSha1 (newNonce ++ [1] ++ (digestSha1 key.data).take 8)).drop 4).take 16 := by
  unfold calcNewNonceHash at computed
  split at computed
  · cases computed
  · cases computed
    have hashed := (((Sha1.after_start.update newNonce).update [1]).update key.auxHash).finalize
    rw [hashed, nil_append, (makeAuthKey_ok made).2.1, sha1_digest]

theorem receiveServerDhParams_spec (call : ServerDhCall) (proper : ProperExponent s call) :
    wp (receiveServerDhParams call)
      (fun _ s' => s.currentPhase = .awaitingServerDhParams ∧ s'.currentPhase = .awaitingDhGen ∧
        Same s { s' with currentPhase := s.currentPhase } ∧ AcceptedServerDh s' call)
      (fun _ s' => Same s s' ∧ (s.currentPhase ≠ .awaitingServerDhParams → s' = s)) s := by
  unfold receiveServerDhParams
  rw [wp_bind, wp_get, wp_bind, wp_fails]
  refine ⟨fun _ => ⟨⟨rfl, rfl, rfl, rfl, rfl⟩, fun _ => rfl⟩, fun phase => ?_⟩
  rw [not_not] at phase
  have stays : ∀ s' : ExchangeState, Same s s' →
      Same s s' ∧ (s.currentPhase ≠ .awaitingServerDhParams → s' = s) :=
    fun s' same => ⟨same, fun other => absurd phase other⟩
  rw [wp_bind, wp_fails]
  refine ⟨fun _ => stays _ ⟨rfl, rfl, rfl, rfl, rfl⟩, fun _ => ?_⟩
  rw [wp_bind, wp_fails]
  refine ⟨fun _ => stays _ ⟨rfl, rfl, rfl, rfl, rfl⟩, fun sized => ?_⟩
  rw [wp_bind, wp_lift]
  refine ⟨fun encryptedAnswer read => ?_, fun _ _ => stays _ ⟨rfl, rfl, rfl, rfl, rfl⟩⟩
  rw [wp_bind, wp_fails]
  refine ⟨fun _ => stays _ ⟨rfl, rfl, rfl, rfl, rfl⟩, fun _ => ?_⟩
  rw [wp_bind, wp_lift]
  refine ⟨fun keyIv derived => ?_, fun _ _ => stays _ ⟨rfl, rfl, rfl, rfl, rfl⟩⟩
  rw [wp_bind, wp_modify, wp_bind, wp_lift]
  refine ⟨fun inner opened => ?_, fun _ _ => stays _ ⟨rfl, rfl, rfl, rfl, rfl⟩⟩
  rw [wp_bind, wp_fails]
  refine ⟨fun _ => stays _ ⟨rfl, rfl, rfl, rfl, rfl⟩, fun _ => ?_⟩
  rw [wp_bind, wp_lift]
  refine ⟨fun g _ => ?_, fun _ _ => stays _ ⟨rfl, rfl, rfl, rfl, rfl⟩⟩
  dsimp only
  rw [wp_bind, wp_lift]
  refine ⟨fun gB _ => ?_, fun _ _ => stays _ ⟨rfl, rfl, rfl, rfl, rfl⟩⟩
  rw [wp_bind, wp_lift]
  refine ⟨fun authKey power => ?_, fun _ _ => stays _ ⟨rfl, rfl, rfl, rfl, rfl⟩⟩
  rw [wp_bind, wp_lift]
  refine ⟨fun key made => ?_, fun _ _ => stays _ ⟨rfl, rfl, rfl, rfl, rfl⟩⟩
  rw [wp_bind, wp_modify, wp_bind, wp_modify, wp_bind, wp_lift]
  refine ⟨fun salt _ => ?_, fun _ _ => stays _ ⟨rfl, rfl, rfl, rfl, rfl⟩⟩
  rw [wp_bind, wp_modify, wp_bind, wp_modify, wp_bind, wp_fails]
  refine ⟨fun _ => stays _ ⟨rfl, rfl, rfl, rfl, rfl⟩, fun _ => ?_⟩
  rw [wp_bind, wp_lift]
  refine ⟨fun clientInner _ => ?_, fun _ _ => stays _ ⟨rfl, rfl, rfl, rfl, rfl⟩⟩
  dsimp only
  rw [wp_bind, wp_fails]
  refine ⟨fun _ => stays _ ⟨rfl, rfl, rfl, rfl, rfl⟩, fun _ => ?_⟩
  rw [wp_bind, wp_lift]
  refine ⟨fun encrypted _ => ?_, fun _ _ => stays _ ⟨rfl, rfl, rfl, rfl, rfl⟩⟩
  rw [wp_bind, wp_lift]
  refine ⟨fun out _ => ?_, fun _ _ => stays _ ⟨rfl, rfl, rfl, rfl, rfl⟩⟩
  rw [wp_bind, wp_modify, wp_pure]
  obtain ⟨data, padding, text, short, decoded, nonce, serverNonce⟩ := openServerDhInnerData_ok opened
  obtain ⟨-, value⟩ := modularExponentiate_ok power (proper keyIv encryptedAnswer inner read derived opened)
  obtain ⟨dataIs, -, again⟩ := makeAuthKey_ok made
  refine ⟨phase, rfl, ⟨rfl, rfl, rfl, rfl, rfl⟩, keyIv, encryptedAnswer, data, padding, inner, read, derived, text, short,
    decoded, nonce, serverNonce, again, ?_⟩
  rw [← value]
  exact congrArg beValue dataIs

theorem receiveDhGen_spec (body : Bytes) :
    wp (receiveDhGen body)
      (fun _ s' => s.currentPhase = .awaitingDhGen ∧ s' = { s with currentPhase := .complete } ∧
        (makeAuthKey s.key.data = .ok s.key → AcceptedDhGen s' body))
      (fun _ s' => s' = s) s := by
  unfold receiveDhGen
  rw [wp_bind, wp_get, wp_bind, wp_fails]
  refine ⟨fun _ => rfl, fun phase => ?_⟩
  rw [not_or, not_not] at phase
  rw [wp_bind, wp_lift]
  refine ⟨fun response read => ?_, fun _ _ => rfl⟩
  rw [wp_bind, wp_fails]
  refine ⟨fun _ => rfl, fun nonces => ?_⟩
  rw [not_or, not_not, not_not] at nonces
  rw [wp_bind, wp_lift]
  refine ⟨fun hash computed => ?_, fun _ _ => rfl⟩
  rw [wp_bind, wp_fails]
  refine ⟨fun _ => rfl, fun same => ?_⟩
  rw [not_not] at same
  rw [wp_bind, wp_fails]
  refine ⟨fun _ => rfl, fun retry => ?_⟩
  rw [wp_bind, wp_fails]
  refine ⟨fun _ => rfl, fun fail => ?_⟩
  rw [wp_modify]
  refine ⟨phase.1, rfl, fun made => ?_⟩
  have generated : response.constructor_ = .ok := by
    cases kind : response.constructor_ with
    | ok => rfl
    | retry => exact absurd kind retry
    | fail => exact absurd kind fail
  refine ⟨response, read, generated, nonces.1, nonces.2, ?_⟩
  rw [same]
  rw [generated] at computed
  exact calcNewNonceHash_ok made computed

end Calls

/-- The condition on one call: a writer with room where an exchange is begun from idle, and an exponent that is not zero
    where the prime is one. -/
def ExchangeCall.Meets (s : ExchangeState) : ExchangeCall → Prop
  | .begin nonce out => s.currentPhase = .idle → nonce.length = 16 →
      out.written.length + reqPqMultiSize ≤ out.capacity
  | .receiveServerDhParams call => ProperExponent s call
  | .receiveResPq .. | .receiveDhGen _ => True

inductive Exchanged : Traced → Prop
  | start : Exchanged {}
  | call {t t' : Traced} {call : ExchangeCall} (before : Exchanged t) (meets : call.Meets t.state)
      (step : Traced.Step call t t') : Exchanged t'

section Runs
variable {s s' : ExchangeState} {t t' : Traced}

theorem AcceptedResPq.same {call : ResPqCall} (accepted : AcceptedResPq s call) (same : Same s s') :
    AcceptedResPq s' call := by
  obtain ⟨answer, read, nonce, serverNonce, key, known, fingerprint, selected⟩ := accepted
  exact ⟨answer, read, nonce.trans same.nonce.symm, serverNonce.trans same.serverNonce.symm, key, known, fingerprint,
    selected.trans same.selected.symm⟩

theorem AcceptedResPq.phase {call : ResPqCall} {phase : Phase}
    (accepted : AcceptedResPq { s with currentPhase := phase } call) : AcceptedResPq s call := accepted

theorem AcceptedServerDh.phase {call : ServerDhCall} (phase : Phase) (accepted : AcceptedServerDh s call) :
    AcceptedServerDh { s with currentPhase := phase } call := accepted

variable {α : Type} {m : Exchange α} {Q : α → ExchangeState → Prop} {E : String → ExchangeState → Prop}

theorem wp_returned {a : α} (rule : wp m Q E s) (run : m s = .ok a s') : Q a s' := by
  rwa [wp_of_ok run] at rule

theorem wp_threw {e : String} (rule : wp m Q E s) (run : m s = .error e s') : E e s' := by
  unfold wp at rule
  rwa [run] at rule

theorem run_spec (call : ExchangeCall) (meets : call.Meets s) (authentic : Authenticated t) (same : t.state = s) :
    wp call.run
      (fun returned s' => returned = some () →
        Authenticated { state := s', accepted := if call.begins then [] else t.accepted ++ [call] })
      (fun _ s' => Authenticated { state := s', accepted := if call.begins then [] else t.accepted } ∧
        s'.currentPhase.rank ≤ s.currentPhase.rank) s := by
  subst same
  cases call with
  | begin nonce out =>
    unfold ExchangeCall.run
    dsimp only
    rw [wp_bind]
    refine wp_mono (begin_spec nonce out) ?_ ?_
    · rintro _ s' ⟨sized, phase⟩
      rw [wp_pure]
      intro _
      unfold Authenticated ExchangeCall.begins
      dsimp only
      rw [phase, if_pos (decide_eq_true sized)]
    · intro e s' left
      unfold ExchangeCall.begins
      by_cases sized : nonce.length = 16
      · rw [if_pos sized] at left
        obtain ⟨phase, full⟩ := left
        have begun : t.state.currentPhase ≠ .idle := fun idle => full (meets idle sized)
        refine ⟨?_, ?_⟩
        · unfold Authenticated
          dsimp only
          rw [phase, if_pos (decide_eq_true sized)]
        · rw [phase]
          cases at_ : t.state.currentPhase with
          | idle => exact absurd at_ begun
          | _ => decide
      · rw [if_neg sized] at left
        rw [left, if_neg (by rw [decide_eq_true_eq]; exact sized)]
        exact ⟨authentic, le_rfl⟩
  | receiveResPq fuel call =>
    unfold ExchangeCall.run
    dsimp only
    rw [wp_bind]
    refine wp_mono (receiveResPq_spec fuel call) ?_ ?_
    · intro out s' accepted
      rw [wp_pure]
      intro returned
      have some_ : out.isSome := by
        cases out with
        | none => cases returned
        | some out => rfl
      obtain ⟨before, after, answer⟩ := accepted some_
      unfold Authenticated at authentic
      rw [before] at authentic
      unfold Authenticated ExchangeCall.begins
      dsimp only
      rw [after, authentic]
      exact ⟨fuel, call, rfl, answer⟩
    · rintro e s' ⟨phase, unchanged⟩
      refine ⟨?_, by rw [phase]⟩
      show Authenticated { state := s', accepted := t.accepted }
      by_cases at_ : t.state.currentPhase = .awaitingResPq
      · unfold Authenticated at authentic ⊢
        rw [at_] at authentic
        dsimp only
        rw [phase, at_]
        exact authentic
      · rw [unchanged at_]
        exact authentic
  | receiveServerDhParams call =>
    unfold ExchangeCall.run
    dsimp only
    rw [wp_bind]
    refine wp_mono (receiveServerDhParams_spec call meets) ?_ ?_
    · rintro out s' ⟨before, after, same, answer⟩
      rw [wp_pure]
      intro _
      unfold Authenticated at authentic
      rw [before] at authentic
      obtain ⟨fuel, a, log, first⟩ := authentic
      unfold Authenticated ExchangeCall.begins
      dsimp only
      rw [after, log]
      exact ⟨fuel, a, call, rfl, (first.same same).phase, answer⟩
    · rintro e s' ⟨same, unchanged⟩
      refine ⟨?_, by rw [same.phase]⟩
      show Authenticated { state := s', accepted := t.accepted }
      by_cases at_ : t.state.currentPhase = .awaitingServerDhParams
      · unfold Authenticated at authentic ⊢
        rw [at_] at authentic
        dsimp only
        rw [same.phase, at_]
        obtain ⟨fuel, a, log, first⟩ := authentic
        exact ⟨fuel, a, log, first.same same⟩
      · rw [unchanged at_]
        exact authentic
  | receiveDhGen body =>
    unfold ExchangeCall.run
    dsimp only
    rw [wp_bind]
    refine wp_mono (receiveDhGen_spec body) ?_ ?_
    · rintro _ s' ⟨before, after, answer⟩
      rw [wp_pure]
      intro _
      unfold Authenticated at authentic
      rw [before] at authentic
      obtain ⟨fuel, a, b, log, first, second⟩ := authentic
      obtain ⟨-, -, -, -, -, -, -, -, -, -, -, -, made, -⟩ := id second
      have last := answer made
      subst after
      unfold Authenticated ExchangeCall.begins
      dsimp only
      rw [log]
      exact ⟨fuel, a, b, body, rfl, first, second.phase .complete, last⟩
    · rintro e s' rfl
      exact ⟨authentic, le_rfl⟩

theorem Exchanged.authenticated (run : Exchanged t) : Authenticated t := by
  induction run with
  | start => exact rfl
  | @call t t' call before meets step ih =>
    cases step with
    | returned run => exact wp_returned (run_spec call meets ih rfl) run rfl
    | threw run => exact (wp_threw (run_spec call meets ih rfl) run).1

end Runs

/-- A writer without room: the call throws, and the exchange is awaiting an answer. -/
theorem begin_without_room :
    ∃ e s, (ExchangeCall.begin (replicate 16 7) { capacity := 0 }).run {} = .error e s ∧
      ¬s.currentPhase.rank ≤ ({} : ExchangeState).currentPhase.rank :=
  ⟨_, _, rfl, by decide⟩

/-- Where all calls meet the condition: a complete exchange has accepted, since it was begun, a resPQ, a DH answer and a
    dh_gen_ok in this order, each fitting the state, with the key of that answer; no call that throws goes a phase on;
    and the factors of a number are factors of it. -/
theorem exchange_authenticated {t : Traced} (run : Exchanged t) : (t.state.currentPhase = .complete →
      ∃ fuel a b c, t.accepted = [.receiveResPq fuel a, .receiveServerDhParams b, .receiveDhGen c] ∧
        AcceptedResPq t.state a ∧ AcceptedServerDh t.state b ∧ AcceptedDhGen t.state c) ∧
    (∀ (call : ExchangeCall) (e : String) (s : ExchangeState), call.Meets t.state →
      call.run t.state = .error e s → s.currentPhase.rank ≤ t.state.currentPhase.rank) ∧
    ∀ pqBytes p q, factorPq pqBytes = .ok (p, q) → p * q = beValue pqBytes ∧ 1 < p ∧ p ≤ q := by
  refine ⟨fun complete => ?_, fun call e s meets threw => ?_, fun _ _ _ found => factorPq_factors found⟩
  · have authentic := run.authenticated
    unfold Authenticated at authentic
    rwa [complete] at authentic
  · exact (wp_threw (run_spec call meets run.authenticated rfl) threw).2

theorem exchange_authenticated_begun : ∃ t : Traced, t.state.currentPhase = .awaitingResPq ∧ ∀ (call : ExchangeCall)
    (e : String) (s : ExchangeState), call.Meets t.state → call.run t.state = .error e s → s.currentPhase.rank ≤ 1 :=
  ⟨_, rfl, (exchange_authenticated (@Exchanged.call _ _ (.begin (replicate 16 7) { capacity := 20 }) .start
    (fun _ _ => by decide) (.returned rfl))).2.1⟩

end Nxt.Mt
