import Nxt.Mt.Driver

/- A session over a whole run: requests and packets in any order, with any clock. The log holds what
   was asked for and what was emitted or notified. -/
namespace Nxt.Mt
open Nxt.Lib List

inductive Call where
  | send (nowNs : BitVec 64) (body : Bytes) (request : String) (paddingBytes : Bytes)
  | receive (payload : Bytes) (nowNs : BitVec 64) (paddingBytes : Bytes)

inductive Entry where
  | request (id : BitVec 64) (name : String)
  | effect (content : Bool) (effect : SessionEffect)
  deriving DecidableEq

structure Ledger where
  session : Session
  log : List Entry := []

/-- A call that throws changes nothing. -/
def Ledger.call (cipher : Cipher) (l : Ledger) : Call → Ledger
  | .send nowNs body request paddingBytes =>
      match sendRequest cipher l.session nowNs body request paddingBytes with
      | .error _ => l
      | .ok sent =>
          { session := sent.next
            log := l.log ++ sent.effects.map (Entry.effect true) ++ [.request sent.requestId request] }
  | .receive payload nowNs paddingBytes =>
      match receivePacket cipher l.session payload nowNs paddingBytes with
      | .error _ => l
      | .ok received => { session := received.next, log := l.log ++ received.effects.map (Entry.effect false) }

theorem Ledger.call_send {cipher : Cipher} {l : Ledger} {nowNs : BitVec 64} {body paddingBytes : Bytes} {request : String}
    {sent : SendRequestResult} (done : sendRequest cipher l.session nowNs body request paddingBytes = .ok sent) :
    l.call cipher (.send nowNs body request paddingBytes) =
      { session := sent.next, log := l.log ++ sent.effects.map (Entry.effect true) ++ [.request sent.requestId request] } := by
  rw [Ledger.call, done]

theorem Ledger.call_receive {cipher : Cipher} {l : Ledger} {payload paddingBytes : Bytes} {nowNs : BitVec 64}
    {received : ReceivePacketResult} (done : receivePacket cipher l.session payload nowNs paddingBytes = .ok received) :
    l.call cipher (.receive payload nowNs paddingBytes) =
      { session := received.next, log := l.log ++ received.effects.map (Entry.effect false) } := by
  rw [Ledger.call, done]

def Ledger.run (cipher : Cipher) (l : Ledger) (calls : List Call) : Ledger := calls.foldl (Ledger.call cipher) l

structure Emitted where
  content : Bool
  id : BitVec 64
  seqNo : BitVec 32
  deriving DecidableEq

def Entry.emitted? : Entry → Option Emitted
  | .effect content (.notifySession (.sessionMessageSent id seqNo _)) => some { content, id, seqNo }
  | _ => none

def emitted (log : List Entry) : List Emitted := log.filterMap Entry.emitted?

def contents (messages : List Emitted) : Nat := messages.countP Emitted.content

def Entry.answers (id : BitVec 64) : Entry → Bool
  | .effect _ (.notifySession (.rpcResult id' _)) => id' = id
  | _ => false

def Entry.result? (id : BitVec 64) : Entry → Option String
  | .effect _ (.notifySession (.rpcRequestResult id' name _)) => if id' = id then some name else none
  | _ => none

def Waiting (log : List Entry) (id : BitVec 64) (name : String) : Prop :=
  ∃ before after, log = before ++ .request id name :: after ∧ ∀ entry ∈ after, entry.answers id = false

def Session.Fresh (session : Session) : Prop :=
  session.lastMessageId = none ∧ session.sentContentMessages = 0 ∧ session.pendingRequests = []

section Ids

theorem messageIdFromNanoseconds_aligned (nowNs : BitVec 64) : (messageIdFromNanoseconds nowNs).toNat % 4 = 0 := by
  unfold messageIdFromNanoseconds
  dsimp only
  generalize BitVec.ofNat 64 _ = messageId
  have bound := messageId.isLt
  rw [BitVec.toNat_sub, BitVec.toNat_ofNat]
  omega

/-- Ids are multiples of four, and grow as long as they do not leave 63 bits. -/
theorem nextMessageId_next {last : Option (BitVec 64)} (nowNs : BitVec 64)
    (aligned : ∀ id ∈ last, id.toNat % 4 = 0) (small : ∀ id ∈ last, id.toNat < 2 ^ 63) :
    (nextMessageId last nowNs).toNat % 4 = 0 ∧ ∀ id ∈ last, id.toNat < (nextMessageId last nowNs).toNat := by
  have now := messageIdFromNanoseconds_aligned nowNs
  cases last with
  | none => exact ⟨now, fun id held => by cases held⟩
  | some id =>
    have four := aligned id rfl
    have below := small id rfl
    have sum : (id + 4).toNat = id.toNat + 4 := by
      rw [BitVec.toNat_add]
      exact Nat.mod_eq_of_lt (by simp only [BitVec.ofNat_eq_ofNat, BitVec.toNat_ofNat]; omega)
    have larger : ∀ id' ∈ some id, id' = id := fun id' held => (Option.some.inj held).symm
    unfold nextMessageId
    dsimp only
    split
    · refine ⟨by omega, ?_⟩
      intro id' held
      rw [larger id' held]
      omega
    · rename_i later
      rw [BitVec.lt_def] at later
      refine ⟨now, ?_⟩
      intro id' held
      rw [larger id' held]
      omega

theorem nextSessionSeqNo_eq {state : Session} {k : Nat} (counted : state.sentContentMessages = BitVec.ofNat 64 k)
    (content : Bool) : nextSessionSeqNo state content = BitVec.ofNat 32 (2 * k + if content then 1 else 0) := by
  unfold nextSessionSeqNo
  rw [counted]
  refine BitVec.eq_of_toNat_eq ?_
  cases content <;>
    simp only [BitVec.toNat_add, BitVec.toNat_setWidth, BitVec.toNat_mul, BitVec.toNat_ofNat, BitVec.ofNat_eq_ofNat,
      if_true, Bool.false_eq_true, if_false] <;> omega

end Ids

theorem split_last {α : Type} {xs before after : List α} {x y : α} (whole : xs ++ [y] = before ++ x :: after) :
    (after = [] ∧ before = xs ∧ x = y) ∨ ∃ after', after = after' ++ [y] ∧ xs = before ++ x :: after' := by
  rcases eq_nil_or_concat' after with rfl | ⟨after', z, rfl⟩
  · obtain ⟨front, last⟩ := append_inj' whole rfl
    exact .inl ⟨rfl, front.symm, (singleton_inj.mp last).symm⟩
  · have shape : before ++ x :: (after' ++ [z]) = (before ++ x :: after') ++ [z] := by simp
    rw [shape] at whole
    obtain ⟨front, last⟩ := append_inj' whole rfl
    exact .inr ⟨after', by rw [singleton_inj.mp last], front⟩

structure Numbered (session : Session) (messages : List Emitted) : Prop where
  last : session.lastMessageId = messages.getLast?.map Emitted.id
  aligned : ∀ message ∈ messages, message.id.toNat % 4 = 0
  increasing : messages.Pairwise fun a b => a.id.toNat < b.id.toNat
  counted : session.sentContentMessages = BitVec.ofNat 64 (contents messages)
  numbered : ∀ before message after, messages = before ++ message :: after →
    message.seqNo = BitVec.ofNat 32 (2 * contents before + if message.content then 1 else 0)

namespace Numbered
variable {session : Session} {messages : List Emitted}

theorem below_last (numbered : Numbered session messages) {message last : Emitted} (held : message ∈ messages)
    (ends : messages.getLast? = some last) : message.id.toNat ≤ last.id.toNat := by
  obtain ⟨front, shape⟩ := getLast?_eq_some_iff.mp ends
  have increasing := numbered.increasing
  rw [shape] at held increasing
  rcases mem_append.mp held with earlier | final
  · have before := (pairwise_append.mp increasing).2.2 message earlier last (mem_singleton.mpr rfl)
    omega
  · rw [mem_singleton.mp final]

theorem emit (numbered : Numbered session messages) (small : ∀ message ∈ messages, message.id.toNat < 2 ^ 63)
    (nowNs : BitVec 64) (body : Bytes) (content : Bool) {session' : Session}
    (moved : session'.lastMessageId = some (makeSessionPacket session nowNs body content).messageId)
    (count : session'.sentContentMessages =
      if content then session.sentContentMessages + 1 else session.sentContentMessages) :
    (∀ message ∈ messages, message.id.toNat < (makeSessionPacket session nowNs body content).messageId.toNat) ∧
    Numbered session' (messages ++ [{ content
                                      id := (makeSessionPacket session nowNs body content).messageId
                                      seqNo := (makeSessionPacket session nowNs body content).seqNo }]) := by
  have held (id : BitVec 64) (last : id ∈ session.lastMessageId) : ∃ message ∈ messages, message.id = id ∧
      messages.getLast? = some message := by
    rw [numbered.last] at last
    obtain ⟨message, ends, same⟩ := Option.map_eq_some_iff.mp last
    exact ⟨message, mem_of_getLast? ends, same, ends⟩
  obtain ⟨four, larger⟩ := @nextMessageId_next session.lastMessageId (adjustedNowNanoseconds session nowNs)
    (fun id last => by
      obtain ⟨message, inside, same, _⟩ := held id last
      rw [← same]
      exact numbered.aligned message inside)
    (fun id last => by
      obtain ⟨message, inside, same, _⟩ := held id last
      rw [← same]
      exact small message inside)
  have above : ∀ message ∈ messages,
      message.id.toNat < (makeSessionPacket session nowNs body content).messageId.toNat := by
    intro message inside
    cases ends : messages.getLast? with
    | none =>
      rw [getLast?_eq_none_iff.mp ends] at inside
      cases inside
    | some last =>
      have below := numbered.below_last inside ends
      have next := larger last.id (by rw [numbered.last, ends]; rfl)
      exact Nat.lt_of_le_of_lt below next
  refine ⟨above, ?_, ?_, ?_, ?_, ?_⟩
  · rw [moved, getLast?_append]
    rfl
  · intro message inside
    rcases mem_append.mp inside with earlier | final
    · exact numbered.aligned message earlier
    · rw [mem_singleton.mp final]
      exact four
  · refine pairwise_append.mpr ⟨numbered.increasing, pairwise_singleton _ _, ?_⟩
    intro message inside new final
    rw [mem_singleton.mp final]
    exact above message inside
  · rw [count, numbered.counted, contents, contents, countP_append]
    cases content with
    | true => exact (BitVec.ofNat_add ..).symm
    | false => rfl
  · intro before message after whole
    rcases split_last whole with ⟨_, rfl, rfl⟩ | ⟨after', _, earlier⟩
    · exact nextSessionSeqNo_eq numbered.counted content
    · exact numbered.numbered before message after' earlier

end Numbered

def results (log : List Entry) (id : BitVec 64) : Nat := log.countP fun entry => (entry.result? id).isSome

def Entry.asks (id : BitVec 64) : Entry → Bool
  | .request id' _ => id' = id
  | .effect .. => false

def requests (log : List Entry) (id : BitVec 64) : Nat := log.countP (Entry.asks id)

structure Balanced (session : Session) (log : List Entry) : Prop where
  waiting : ∀ id name, (session.pendingRequests.lookup id).map PendingRequest.request = some name ↔ Waiting log id name
  sent : ∀ id name, .request id name ∈ log → ∃ message ∈ emitted log, message.id = id
  distinct : ∀ id, requests log id ≤ 1
  named : ∀ id before entry after name, log = before ++ entry :: after → entry.result? id = some name →
    .request id name ∈ before
  once : ∀ id, results log id ≤ 1
  unanswered : ∀ id, session.pendingRequests.lookup id ≠ none → results log id = 0

structure Entry.Silent (entry : Entry) : Prop where
  request : ∀ id name, entry ≠ .request id name
  answers : ∀ id, entry.answers id = false
  result : ∀ id, entry.result? id = none

section Waiting
variable {log : List Entry} {id : BitVec 64} {name : String}

theorem waiting_entry {entry : Entry} (other : ∀ id name, entry ≠ .request id name) :
    Waiting (log ++ [entry]) id name ↔ Waiting log id name ∧ entry.answers id = false := by
  constructor
  · rintro ⟨before, after, whole, none_⟩
    rcases split_last whole with ⟨_, _, same⟩ | ⟨after', shape, earlier⟩
    · exact absurd same.symm (other id name)
    · subst shape
      refine ⟨⟨before, after', earlier, ?_⟩, none_ entry (by simp)⟩
      intro other' held
      exact none_ other' (mem_append_left _ held)
  · rintro ⟨⟨before, after, rfl, none_⟩, last⟩
    refine ⟨before, after ++ [entry], by simp, ?_⟩
    intro other' held
    rcases mem_append.mp held with earlier | final
    · exact none_ other' earlier
    · rw [mem_singleton.mp final]
      exact last

theorem waiting_request {id' : BitVec 64} {name' : String} :
    Waiting (log ++ [.request id' name']) id name ↔ Waiting log id name ∨ (id = id' ∧ name = name') := by
  constructor
  · rintro ⟨before, after, whole, none_⟩
    rcases split_last whole with ⟨_, _, same⟩ | ⟨after', shape, earlier⟩
    · cases same
      exact .inr ⟨rfl, rfl⟩
    · subst shape
      refine .inl ⟨before, after', earlier, ?_⟩
      intro other held
      exact none_ other (mem_append_left _ held)
  · rintro (⟨before, after, rfl, none_⟩ | ⟨rfl, rfl⟩)
    · refine ⟨before, after ++ [.request id' name'], by simp, ?_⟩
      intro other held
      rcases mem_append.mp held with earlier | final
      · exact none_ other earlier
      · rw [mem_singleton.mp final]
        rfl
    · exact ⟨log, [], rfl, fun _ held => by cases held⟩

theorem Waiting.requested (waiting : Waiting log id name) : .request id name ∈ log := by
  obtain ⟨before, after, rfl, _⟩ := waiting
  simp

end Waiting

theorem lookup_erase (session : Session) (id id' : BitVec 64) : (session.erase id).pendingRequests.lookup id' =
      if id' = id then none else session.pendingRequests.lookup id' := by
  show (session.pendingRequests.filter fun pending => pending.1 ≠ id).lookup id' = _
  induction session.pendingRequests with
  | nil => simp
  | cons pending rest ih =>
    obtain ⟨key, request⟩ := pending
    by_cases gone : key = id
    · subst gone
      rw [filter_cons_of_neg (by simp), ih]
      by_cases same : id' = key
      · rw [if_pos same, if_pos same]
      · have apart : (id' == key) = false := by simpa using same
        rw [if_neg same, if_neg same, lookup_cons, apart]
    · rw [filter_cons_of_pos (by simpa using gone), lookup_cons, lookup_cons, ih]
      by_cases here : id' = key
      · have apart : id' ≠ id := fun same => gone (here.symm.trans same)
        have found : (id' == key) = true := by simpa using here
        simp only [found, if_neg apart]
      · have apart : (id' == key) = false := by simpa using here
        rw [apart]

theorem results_append (log more : List Entry) (id : BitVec 64) :
    results (log ++ more) id = results log id + results more id := countP_append ..

theorem requests_append (log more : List Entry) (id : BitVec 64) :
    requests (log ++ more) id = requests log id + requests more id := countP_append ..

theorem emitted_append (log more : List Entry) : emitted (log ++ more) = emitted log ++ emitted more :=
  filterMap_append ..

namespace Balanced
variable {session session' : Session} {log : List Entry}

section
variable (balanced : Balanced session log)
include balanced

theorem sent_append {entry : Entry} (other : ∀ id name, entry ≠ .request id name) (id : BitVec 64) (name : String)
    (held : .request id name ∈ log ++ [entry]) : ∃ message ∈ emitted (log ++ [entry]), message.id = id := by
  rcases mem_append.mp held with earlier | final
  · obtain ⟨message, inside, same⟩ := balanced.sent id name earlier
    refine ⟨message, ?_, same⟩
    rw [emitted_append]
    exact mem_append_left _ inside
  · exact absurd (mem_singleton.mp final).symm (other id name)

theorem silent (same : session'.pendingRequests = session.pendingRequests)
    {entry : Entry} (silent : entry.Silent) : Balanced session' (log ++ [entry]) := by
  have none_ (id : BitVec 64) : results [entry] id = 0 := by simp [results, silent.result]
  have unasked (id : BitVec 64) : requests [entry] id = 0 := by
    cases entry with
    | request id' name => exact absurd rfl (silent.request id' name)
    | effect => rfl
  refine ⟨?_, balanced.sent_append silent.request, ?_, ?_, ?_, ?_⟩
  · intro id name
    rw [same, waiting_entry silent.request, balanced.waiting]
    exact ⟨fun waits => ⟨waits, silent.answers id⟩, And.left⟩
  · intro id
    rw [requests_append, unasked]
    exact balanced.distinct id
  · intro id before other after name whole handed
    rcases split_last whole with ⟨_, _, last⟩ | ⟨after', _, earlier⟩
    · rw [last, silent.result] at handed
      cases handed
    · exact balanced.named id before other after' name earlier handed
  · intro id
    rw [results_append, none_]
    exact balanced.once id
  · intro id held
    rw [results_append, none_]
    exact balanced.unanswered id (by rwa [same] at held)

theorem unknown {id : BitVec 64}
    (missing : session.pendingRequests.lookup id = none) (content : Bool) (result : Bytes) :
    Balanced session (log ++ [.effect content (.notifySession (.rpcResult id result))]) := by
  have none_ (id' : BitVec 64) : results [.effect content (.notifySession (.rpcResult id result))] id' = 0 := rfl
  refine ⟨?_, balanced.sent_append (fun _ _ same => by cases same), ?_, ?_, ?_, ?_⟩
  · intro id' name
    rw [waiting_entry (fun _ _ same => by cases same), ← balanced.waiting]
    refine ⟨fun waits => ⟨waits, ?_⟩, And.left⟩
    by_contra answered
    have here : id = id' := by simpa [Entry.answers] using answered
    rw [← here, missing] at waits
    cases waits
  · intro id'
    rw [requests_append]
    exact balanced.distinct id'
  · intro id' before other after name whole handed
    rcases split_last whole with ⟨_, _, last⟩ | ⟨after', _, earlier⟩
    · rw [last] at handed
      cases handed
    · exact balanced.named id' before other after' name earlier handed
  · intro id'
    rw [results_append, none_]
    exact balanced.once id'
  · intro id' held
    rw [results_append, none_]
    exact balanced.unanswered id' held

theorem answer {id : BitVec 64} {pending : PendingRequest}
    (found : session.pendingRequests.lookup id = some pending) (content : Bool) (result : Bytes) :
    Balanced (session.erase id) (log ++ [.effect content (.notifySession (.rpcResult id result))] ++
      [.effect content (.notifySession (.rpcRequestResult id pending.request result))]) := by
  have waits : Waiting log id pending.request := (balanced.waiting id pending.request).mp (by rw [found]; rfl)
  have gone (id' : BitVec 64) : results [.effect content (.notifySession (.rpcResult id result))] id' = 0 := rfl
  have handed_ (id' : BitVec 64) :
      results [.effect content (.notifySession (.rpcRequestResult id pending.request result))] id' =
        if id = id' then 1 else 0 := by
    by_cases here : id = id' <;> simp [results, Entry.result?, here]
  have fresh : results log id = 0 := balanced.unanswered id (by rw [found]; exact Option.some_ne_none _)
  refine ⟨?_, ?_, ?_, ?_, ?_, ?_⟩
  · intro id' name
    rw [waiting_entry (fun _ _ same => by cases same), waiting_entry (fun _ _ same => by cases same), lookup_erase,
      ← balanced.waiting]
    by_cases here : id' = id
    · rw [if_pos here]
      refine ⟨fun held => (by cases held), ?_⟩
      rintro ⟨⟨_, answered⟩, _⟩
      simp [Entry.answers, here] at answered
    · have apart : ¬ id = id' := fun same => here same.symm
      rw [if_neg here]
      refine ⟨fun held => ⟨⟨held, by simpa [Entry.answers] using apart⟩, rfl⟩, fun held => held.1.1⟩
  · intro id' name held
    have inside : Entry.request id' name ∈ log := by simpa using held
    obtain ⟨message, listed, same⟩ := balanced.sent id' name inside
    refine ⟨message, ?_, same⟩
    rw [emitted_append, emitted_append]
    exact mem_append_left _ (mem_append_left _ listed)
  · intro id'
    rw [requests_append, requests_append]
    exact balanced.distinct id'
  · intro id' before other after name whole handed
    rcases split_last whole with ⟨_, front, last⟩ | ⟨after', _, earlier⟩
    · rw [last] at handed
      have both : id = id' ∧ pending.request = name := by simpa [Entry.result?] using handed
      rw [front, ← both.1, ← both.2]
      exact mem_append_left _ waits.requested
    · rcases split_last earlier with ⟨_, _, last⟩ | ⟨after'', _, first⟩
      · rw [last] at handed
        cases handed
      · exact balanced.named id' before other after'' name first handed
  · intro id'
    rw [results_append, results_append, gone, handed_]
    split
    · rename_i here
      rw [← here, fresh]
    · exact balanced.once id'
  · intro id' held
    rw [lookup_erase] at held
    by_cases here : id' = id
    · rw [if_pos here] at held
      exact absurd rfl held
    · rw [if_neg here] at held
      rw [results_append, results_append, gone, handed_, if_neg (fun same => here same.symm)]
      exact balanced.unanswered id' held

theorem request {id : BitVec 64} (pending : PendingRequest)
    (fresh : ∀ name, .request id name ∉ log) (listed : ∃ message ∈ emitted log, message.id = id) :
    Balanced (session.emplace id pending) (log ++ [.request id pending.request]) := by
  have missing : session.pendingRequests.lookup id = none := by
    cases found : session.pendingRequests.lookup id with
    | none => rfl
    | some other =>
      have waits := (balanced.waiting id other.request).mp (by rw [found]; rfl)
      exact absurd waits.requested (fresh _)
  have none_ (id' : BitVec 64) : results [.request id pending.request] id' = 0 := rfl
  have new : results log id = 0 := by
    refine countP_eq_zero.mpr ?_
    intro entry held handed
    obtain ⟨name, handed⟩ := Option.isSome_iff_exists.mp handed
    obtain ⟨before, after, whole⟩ := append_of_mem held
    have asked := balanced.named id before entry after name whole handed
    exact fresh name (by rw [whole]; exact mem_append_left _ asked)
  have placed : (session.emplace id pending).pendingRequests = (id, pending) :: session.pendingRequests := by
    rw [Session.emplace, missing]
  have first : requests log id = 0 := by
    refine countP_eq_zero.mpr ?_
    intro entry held asks
    cases entry with
    | request id' name =>
      have here : id' = id := by simpa [Entry.asks] using asks
      exact fresh name (here ▸ held)
    | effect => cases asks
  refine ⟨?_, ?_, ?_, ?_, ?_, ?_⟩
  · intro id' name
    rw [waiting_request, placed, lookup_cons, ← balanced.waiting]
    by_cases here : id' = id
    · have same : (id' == id) = true := by simpa using here
      rw [same, here, missing]
      simp [eq_comm]
    · have apart : (id' == id) = false := by simpa using here
      rw [apart]
      simp [here]
  · intro id' name held
    rw [emitted_append]
    rcases mem_append.mp held with earlier | final
    · obtain ⟨message, inside, same⟩ := balanced.sent id' name earlier
      exact ⟨message, mem_append_left _ inside, same⟩
    · obtain ⟨message, inside, same⟩ := listed
      cases mem_singleton.mp final
      exact ⟨message, mem_append_left _ inside, same⟩
  · intro id'
    have one : requests [.request id pending.request] id' = if id = id' then 1 else 0 := by
      by_cases here : id = id' <;> simp [requests, Entry.asks, here]
    rw [requests_append, one]
    split
    · rename_i here
      rw [← here, first]
    · exact balanced.distinct id'
  · intro id' before other after name whole handed
    rcases split_last whole with ⟨_, _, last⟩ | ⟨after', _, earlier⟩
    · rw [last] at handed
      cases handed
    · exact balanced.named id' before other after' name earlier handed
  · intro id'
    rw [results_append, none_]
    exact balanced.once id'
  · intro id' held
    rw [results_append, none_]
    by_cases here : id' = id
    · rw [here]
      exact new
    · have apart : (id' == id) = false := by simpa using here
      rw [placed, lookup_cons, apart] at held
      exact balanced.unanswered id' held

end

end Balanced

structure Kept (l : Ledger) : Prop where
  numbered : Numbered l.session (emitted l.log)
  balanced : Balanced l.session l.log

namespace Kept
variable {session session' : Session} {log : List Entry}

theorem silent (kept : Kept { session, log }) {entry : Entry} (silent : entry.Silent) (none_ : entry.emitted? = none)
    (pending : session'.pendingRequests = session.pendingRequests)
    (last : session'.lastMessageId = session.lastMessageId)
    (count : session'.sentContentMessages = session.sentContentMessages) :
    Kept { session := session', log := log ++ [entry] } := by
  refine ⟨?_, kept.balanced.silent pending silent⟩
  have same : emitted (log ++ [entry]) = emitted log := by
    rw [emitted_append]
    simp [emitted, none_]
  show Numbered session' (emitted (log ++ [entry]))
  rw [same]
  exact ⟨last.trans kept.numbered.last, kept.numbered.aligned, kept.numbered.increasing,
    count.trans kept.numbered.counted, kept.numbered.numbered⟩

theorem unknown (kept : Kept { session, log }) {id : BitVec 64} (missing : session.pendingRequests.lookup id = none)
    (result : Bytes) : Kept { session, log := log ++ [.effect false (.notifySession (.rpcResult id result))] } := by
  refine ⟨?_, kept.balanced.unknown missing false result⟩
  show Numbered session (emitted (log ++ [_]))
  rw [emitted_append]
  exact (append_nil (emitted log)).symm ▸ kept.numbered

theorem answer (kept : Kept { session, log }) {id : BitVec 64} {pending : PendingRequest}
    (found : session.pendingRequests.lookup id = some pending) (result : Bytes) :
    Kept { session := session.erase id
           log := log ++ [.effect false (.notifySession (.rpcResult id result))] ++
             [.effect false (.notifySession (.rpcRequestResult id pending.request result))] } := by
  refine ⟨?_, kept.balanced.answer found false result⟩
  have same : Numbered (session.erase id) (emitted log) :=
    ⟨kept.numbered.last, kept.numbered.aligned, kept.numbered.increasing, kept.numbered.counted,
      kept.numbered.numbered⟩
  show Numbered (session.erase id) (emitted (log ++ [_] ++ [_]))
  rw [emitted_append, emitted_append]
  exact (append_nil (emitted log ++ [])).symm ▸ (append_nil (emitted log)).symm ▸ same

theorem step {h h' : Handling} (step : Handling.Step h h')
    (kept : Kept { session := h.state, log := log ++ h.effects.map (Entry.effect false) }) :
    Kept { session := h'.state, log := log ++ h'.effects.map (Entry.effect false) } := by
  have added (effects : List SessionEffect) (event : SessionEvent) :
      log ++ (effects ++ [SessionEffect.notifySession event]).map (Entry.effect false) =
        (log ++ effects.map (Entry.effect false)) ++ [.effect false (.notifySession event)] := by simp
  cases step with
  | quiet event salt quiet =>
    show Kept { session := { h.state with serverSalt := salt }, log := log ++ (h.effects ++ [_]).map _ }
    rw [added]
    refine kept.silent ?_ ?_ rfl rfl rfl
    · cases event <;> first | (cases quiet; done) | exact ⟨fun _ _ => nofun, fun _ => rfl, fun _ => rfl⟩
    · cases event <;> first | (cases quiet; done) | rfl
  | announce child =>
    show Kept { session := h.state, log := log ++ (h.effects ++ [_]).map _ }
    rw [added]
    exact kept.silent ⟨fun _ _ => nofun, fun _ => rfl, fun _ => rfl⟩ rfl rfl rfl rfl
  | result id result =>
    unfold handleRpcResult
    split
    · rename_i missing
      show Kept { session := h.state, log := log ++ (h.effects ++ [_]).map _ }
      rw [added]
      exact kept.unknown missing result
    · rename_i pending found
      show Kept { session := h.state.erase id, log := log ++ (h.effects ++ [_] ++ [_]).map _ }
      rw [added, added]
      exact kept.answer found result

theorem steps {h h' : Handling} (steps : Handling.Steps h h')
    (kept : Kept { session := h.state, log := log ++ h.effects.map (Entry.effect false) }) :
    Kept { session := h'.state, log := log ++ h'.effects.map (Entry.effect false) } := by
  induction steps with
  | refl => exact kept
  | tail _ one ih => exact step one ih

theorem emit (kept : Kept { session, log }) (small : ∀ message ∈ emitted log, message.id.toNat < 2 ^ 63)
    (nowNs : BitVec 64) (encrypted : Bytes) {body : Bytes} {content : Bool} {finalized : EncryptedPacket}
    (carries : finalized.Carries (makeSessionPacket session nowNs body content)) :
    (∀ message ∈ emitted log, message.id.toNat < finalized.messageId.toNat) ∧
    Kept { session := advanceOutboundSession session finalized.messageId content
           log := log ++ (sendEffects encrypted finalized).map (Entry.effect content) } := by
  obtain ⟨_, _, id, seqNo, _⟩ := carries
  have shape : emitted (log ++ (sendEffects encrypted finalized).map (Entry.effect content)) =
      emitted log ++ [{ content, id := finalized.messageId, seqNo := finalized.seqNo }] := by
    rw [emitted_append]
    rfl
  have moved : (advanceOutboundSession session finalized.messageId content).lastMessageId =
      some (makeSessionPacket session nowNs body content).messageId := congrArg some id
  obtain ⟨above, numbered⟩ := kept.numbered.emit small nowNs body content moved rfl
  rw [← id, ← seqNo] at numbered
  rw [← id] at above
  refine ⟨above, ?_, ?_⟩
  · show Numbered _ (emitted (log ++ (sendEffects encrypted finalized).map (Entry.effect content)))
    rw [shape]
    exact numbered
  · have sent : Balanced session (log ++ [.effect content (.sendEncrypted encrypted)]) :=
      kept.balanced.silent rfl ⟨fun _ _ => nofun, fun _ => rfl, fun _ => rfl⟩
    have told : Balanced (advanceOutboundSession session finalized.messageId content)
        (log ++ [.effect content (.sendEncrypted encrypted)] ++ [.effect content (.notifySession
          (.sessionMessageSent finalized.messageId finalized.seqNo finalized.body))]) := by
      have same : (advanceOutboundSession session finalized.messageId content).pendingRequests =
          session.pendingRequests := rfl
      refine sent.silent same ?_
      exact ⟨fun _ _ => nofun, fun _ => rfl, fun _ => rfl⟩
    rw [append_assoc] at told
    exact told

end Kept

section Runs
variable {cipher : Cipher}

theorem finalize_carries (lawful : cipher.Lawful) {state : Session} {packet finalized : EncryptedPacket}
    {paddingBytes encrypted : Bytes} (same : packet.sessionId = state.sessionId)
    (done : finalize cipher state packet paddingBytes = .ok (encrypted, finalized)) : finalized.Carries packet := by
  obtain ⟨payload, accepted, done⟩ := bind_ok done
  obtain ⟨opened, decoded, done⟩ := bind_ok done
  cases done
  obtain ⟨filled, plaintext, padding, written, decodes⟩ := decodeEncryptedPacket_encoded lawful accepted
  have carries := padded_ok padding
  rw [decodes] at decoded
  by_cases small : filled.body.length < 2 ^ 31
  · have back := decodeEncryptedPlaintext_small written small
    rw [carries.2.1, same, decoded] at back
    cases back
    exact carries
  · obtain ⟨e, fails⟩ := decodeEncryptedPlaintext_large written (by omega) (some state.sessionId)
    rw [decoded] at fails
    cases fails

theorem Kept.send (lawful : cipher.Lawful) {session : Session} {log : List Entry} (kept : Kept { session, log })
    (small : ∀ message ∈ emitted log, message.id.toNat < 2 ^ 63) {nowNs : BitVec 64} {body paddingBytes : Bytes}
    {request : String} {sent : SendRequestResult}
    (done : sendRequest cipher session nowNs body request paddingBytes = .ok sent) :
    Kept { session := sent.next
           log := log ++ sent.effects.map (Entry.effect true) ++ [.request sent.requestId request] } := by
  obtain ⟨⟨encrypted, finalized⟩, made, done⟩ := bind_ok done
  cases done
  have carries := finalize_carries lawful rfl made
  obtain ⟨above, kept'⟩ := kept.emit small nowNs encrypted carries
  have listed : ∃ message ∈ emitted (log ++ (sendEffects encrypted finalized).map (Entry.effect true)),
      message.id = finalized.messageId := by
    refine ⟨{ content := true, id := finalized.messageId, seqNo := finalized.seqNo }, ?_, rfl⟩
    rw [emitted_append]
    exact mem_append_right _ (mem_singleton.mpr rfl)
  have fresh : ∀ name, Entry.request finalized.messageId name ∉
      log ++ (sendEffects encrypted finalized).map (Entry.effect true) := by
    intro name held
    have earlier : Entry.request finalized.messageId name ∈ log := by simpa using held
    obtain ⟨message, inside, same⟩ := kept.balanced.sent _ name earlier
    have less := above message inside
    rw [same] at less
    exact Nat.lt_irrefl _ less
  have balanced := kept'.balanced.request { body := finalized.body, request, seqNo := finalized.seqNo } fresh listed
  refine ⟨?_, balanced⟩
  show Numbered (Session.emplace _ _ _) (emitted (_ ++ [_]))
  rw [emitted_append]
  have same : Numbered (Session.emplace (advanceOutboundSession session finalized.messageId true) finalized.messageId
      { body := finalized.body, request, seqNo := finalized.seqNo })
      (emitted (log ++ (sendEffects encrypted finalized).map (Entry.effect true))) := by
    unfold Session.emplace
    split
    · exact kept'.numbered
    · exact ⟨kept'.numbered.last, kept'.numbered.aligned, kept'.numbered.increasing, kept'.numbered.counted,
        kept'.numbered.numbered⟩
  exact (append_nil (emitted _)).symm ▸ same

theorem emitted_step {h h' : Handling} (step : Handling.Step h h') :
    emitted (h'.effects.map (Entry.effect false)) = emitted (h.effects.map (Entry.effect false)) := by
  have notified (h : Handling) (event : SessionEvent)
      (none_ : (Entry.effect false (.notifySession event)).emitted? = none) :
      emitted ((h.notify event).effects.map (Entry.effect false)) = emitted (h.effects.map (Entry.effect false)) := by
    rw [Handling.notify, map_append, emitted_append]
    simp [emitted, none_]
  cases step with
  | quiet event salt quiet =>
    refine notified _ event ?_
    cases event <;> first | (cases quiet; done) | rfl
  | announce child => exact notified h _ rfl
  | result id result =>
    unfold handleRpcResult
    split
    · exact notified h _ rfl
    · rw [notified _ _ rfl, notified _ _ rfl]

theorem emitted_steps {h h' : Handling} (steps : Handling.Steps h h') :
    emitted (h'.effects.map (Entry.effect false)) = emitted (h.effects.map (Entry.effect false)) := by
  induction steps with
  | refl => rfl
  | tail _ one ih => rw [emitted_step one, ih]

theorem Kept.receive (lawful : cipher.Lawful) {session : Session} {log : List Entry} (kept : Kept { session, log })
    (small : ∀ message ∈ emitted log, message.id.toNat < 2 ^ 63) {nowNs : BitVec 64} {payload paddingBytes : Bytes}
    {received : ReceivePacketResult} (done : receivePacket cipher session payload nowNs paddingBytes = .ok received) :
    Kept { session := received.next, log := log ++ received.effects.map (Entry.effect false) } := by
  obtain ⟨packet, _, done⟩ := bind_ok done
  obtain ⟨h, handled, done⟩ := bind_ok done
  have start : Kept { session, log := log ++ ([] : List SessionEffect).map (Entry.effect false) } := by
    rwa [map_nil, append_nil]
  have steps : Handling.Steps { state := session } h :=
    .head (.announce { state := session } packet.outer) (handleSessionMessage_steps _ _ handled)
  have kept' := Kept.steps steps start
  split at done
  · obtain ⟨h', acked', done⟩ := bind_ok done
    obtain ⟨⟨encrypted, finalized⟩, made, acked'⟩ := bind_ok acked'
    cases acked'
    cases done
    have carries := finalize_carries lawful rfl made
    have same : emitted (log ++ h.effects.map (Entry.effect false)) = emitted log := by
      rw [emitted_append, emitted_steps steps]
      exact append_nil _
    obtain ⟨_, sent⟩ := kept'.emit (by rwa [same]) nowNs encrypted carries
    have quiet : (Entry.effect false (.notifySession
        (.msgsAckSent finalized.messageId [packet.messageId]))).Silent :=
      ⟨fun _ _ => nofun, fun _ => rfl, fun _ => rfl⟩
    have told := sent.silent quiet rfl rfl rfl rfl
    simpa [append_assoc] using told
  · cases done
    exact kept'

theorem Kept.call (lawful : cipher.Lawful) {l : Ledger} (kept : Kept l)
    (small : ∀ message ∈ emitted l.log, message.id.toNat < 2 ^ 63) (c : Call) : Kept (l.call cipher c) := by
  cases c with
  | send nowNs body request paddingBytes =>
    unfold Ledger.call
    dsimp only
    split
    · exact kept
    · rename_i sent done
      exact kept.send lawful small done
  | receive payload nowNs paddingBytes =>
    unfold Ledger.call
    dsimp only
    split
    · exact kept
    · rename_i received done
      exact kept.receive lawful small done

theorem call_log (cipher : Cipher) (l : Ledger) (c : Call) : ∃ more, (l.call cipher c).log = l.log ++ more := by
  cases c with
  | send nowNs body request paddingBytes =>
    unfold Ledger.call
    dsimp only
    split
    · exact ⟨[], (append_nil _).symm⟩
    · exact ⟨_, append_assoc ..⟩
  | receive payload nowNs paddingBytes =>
    unfold Ledger.call
    dsimp only
    split
    · exact ⟨[], (append_nil _).symm⟩
    · exact ⟨_, rfl⟩

theorem run_log (cipher : Cipher) (l : Ledger) (calls : List Call) : ∃ more, (l.run cipher calls).log = l.log ++ more := by
  induction calls generalizing l with
  | nil => exact ⟨[], (append_nil _).symm⟩
  | cons c calls ih =>
    obtain ⟨first, one⟩ := call_log cipher l c
    obtain ⟨more, rest⟩ := ih (l.call cipher c)
    refine ⟨first ++ more, ?_⟩
    rw [← append_assoc, ← one]
    exact rest

theorem Kept.run (lawful : cipher.Lawful) {l : Ledger} (kept : Kept l) (calls : List Call)
    (small : ∀ message ∈ emitted (l.run cipher calls).log, message.id.toNat < 2 ^ 63) : Kept (l.run cipher calls) := by
  induction calls generalizing l with
  | nil => exact kept
  | cons c calls ih =>
    refine ih (kept.call lawful ?_ c) small
    intro message inside
    obtain ⟨more, grown⟩ := run_log cipher l (c :: calls)
    refine small message ?_
    rw [grown, emitted_append]
    exact mem_append_left _ inside

theorem Kept.start {session : Session} (fresh : session.Fresh) : Kept { session } := by
  obtain ⟨last, count, pending⟩ := fresh
  constructor
  · refine ⟨last, fun _ held => (by cases held), List.Pairwise.nil, count, ?_⟩
    intro before message after whole
    exact absurd whole (by simp [emitted])
  · refine ⟨?_, fun _ _ held => (by cases held), fun _ => Nat.zero_le _, ?_, fun _ => Nat.zero_le _, fun _ _ => rfl⟩
    · intro id name
      rw [pending]
      refine ⟨fun held => (by cases held), ?_⟩
      rintro ⟨before, after, whole, _⟩
      exact absurd whole (by simp)
    · intro id before entry after name whole
      exact absurd whole (by simp)

theorem mem_keys {pending : List (BitVec 64 × PendingRequest)} {id : BitVec 64} :
    id ∈ pending.map Prod.fst ↔ ∃ name, (pending.lookup id).map PendingRequest.request = some name := by
  induction pending with
  | nil => simp
  | cons first rest ih =>
    obtain ⟨key, request⟩ := first
    rw [map_cons, mem_cons, lookup_cons, ih]
    by_cases here : id = key
    · have same : (id == key) = true := by simpa using here
      rw [same]
      exact ⟨fun _ => ⟨request.request, rfl⟩, fun _ => .inl here⟩
    · have apart : (id == key) = false := by simpa using here
      rw [apart]
      exact ⟨fun held => held.resolve_left here, .inr⟩

/-- Over every run from a new session whose ids stay below 2^63: ids are multiples of four and
    increase, sequence numbers count the content messages before, as 32-bit numbers, the session waits
    for exactly the requests that were sent and not answered, and a request gets at most one result,
    with its own name. -/
theorem session_ledger (cipher : Cipher) (lawful : cipher.Lawful) (session : Session) (fresh : session.Fresh)
    (calls : List Call)
    (small : ∀ message ∈ emitted (Ledger.run cipher { session } calls).log, message.id.toNat < 2 ^ 63) :
    (emitted (Ledger.run cipher { session } calls).log).Pairwise (fun a b => a.id.toNat < b.id.toNat) ∧
    (∀ message ∈ emitted (Ledger.run cipher { session } calls).log, message.id.toNat % 4 = 0) ∧
    (∀ before message after, emitted (Ledger.run cipher { session } calls).log = before ++ message :: after →
      message.seqNo = BitVec.ofNat 32 (2 * contents before + if message.content then 1 else 0)) ∧
    (∀ id, id ∈ (Ledger.run cipher { session } calls).session.pendingRequests.map Prod.fst ↔
      ∃ name, Waiting (Ledger.run cipher { session } calls).log id name) ∧
    (∀ id, requests (Ledger.run cipher { session } calls).log id ≤ 1 ∧
      results (Ledger.run cipher { session } calls).log id ≤ 1) ∧
    (∀ id before entry after name, (Ledger.run cipher { session } calls).log = before ++ entry :: after →
      entry.result? id = some name → .request id name ∈ before) := by
  have kept := (Kept.start fresh).run lawful calls small
  refine ⟨kept.numbered.increasing, kept.numbered.aligned, kept.numbered.numbered, ?_, ?_, kept.balanced.named⟩
  · intro id
    rw [mem_keys]
    exact exists_congr fun name => kept.balanced.waiting id name
  · intro id
    exact ⟨kept.balanced.distinct id, kept.balanced.once id⟩

end Runs

section Samples

def resultPacket : EncryptedPacket :=
  { salt := 1, sessionId := 2, messageId := 9, seqNo := 2
    body := [0x01, 0x6d, 0x5c, 0xf3, 4, 0, 0, 0, 1, 0, 0, 0, 1, 2, 3, 4]
    padding := replicate 16 0 }

def answeredCalls : List Call :=
  [.send 1000000000 [0xde, 0xad, 0xbe, 0xef] "help.getConfig" (replicate 28 0),
   .receive (sealedPacket resultPacket .server) 1000000000 []]

def requestPacket : EncryptedPacket :=
  { makeSessionPacket sampleSession 1000000000 [0xde, 0xad, 0xbe, 0xef] true with padding := replicate 28 0 }

def requestedSession : Session :=
  { advanceOutboundSession sampleSession requestPacket.messageId true with
    pendingRequests :=
      [(requestPacket.messageId, { body := requestPacket.body, request := "help.getConfig", seqNo := requestPacket.seqNo })] }

theorem request_sent : ∃ encrypted,
    sendRequest Cipher.aes sampleSession 1000000000 [0xde, 0xad, 0xbe, 0xef] "help.getConfig" (replicate 28 0) =
      .ok { next := requestedSession, requestId := requestPacket.messageId, effects := sendEffects encrypted requestPacket } := by
  obtain ⟨encrypted, made⟩ := @finalize_filled Cipher.aes Cipher.aes_lawful sampleSession
    (makeSessionPacket sampleSession 1000000000 [0xde, 0xad, 0xbe, 0xef] true) requestPacket (replicate 28 0) rfl rfl
    (by decide) rfl
  refine ⟨encrypted, ?_⟩
  rw [sendRequest, made]
  rfl

theorem resultPacket_opens :
    decodeEncryptedPacket Cipher.aes (sealedPacket resultPacket .server) sampleKey .server (some 2) = .ok resultPacket :=
  sealedPacket_opens .server rfl rfl (by decide)

theorem result_received :
    ∃ received, receivePacket Cipher.aes requestedSession (sealedPacket resultPacket .server) 1000000000 [] = .ok received ∧
      emitted (received.effects.map (Entry.effect false)) = [] ∧
      results (received.effects.map (Entry.effect false)) 0x100000004#64 = 1 := by
  have seen : (receivePacket Cipher.aes requestedSession (sealedPacket resultPacket .server) 1000000000 []).toOption.map
      (fun received => (emitted (received.effects.map (Entry.effect false)),
        results (received.effects.map (Entry.effect false)) 0x100000004#64)) = some ([], 1) := by
    rw [@receivePacket_opened Cipher.aes requestedSession _ resultPacket resultPacket_opens]
    decide +kernel
  obtain ⟨received, accepted, known⟩ := Option.map_eq_some_iff.mp seen
  exact ⟨received, toOption_ok accepted, congrArg Prod.fst known, congrArg Prod.snd known⟩

theorem answeredCalls_log :
    emitted (Ledger.run Cipher.aes { session := sampleSession } answeredCalls).log =
        [{ content := true, id := 0x100000004#64, seqNo := 1 }] ∧
      results (Ledger.run Cipher.aes { session := sampleSession } answeredCalls).log 0x100000004#64 = 1 := by
  obtain ⟨encrypted, sent⟩ := request_sent
  obtain ⟨received, accepted, quiet, once⟩ := result_received
  have run : (Ledger.run Cipher.aes { session := sampleSession } answeredCalls).log =
      (sendEffects encrypted requestPacket).map (Entry.effect true) ++ [.request requestPacket.messageId "help.getConfig"] ++
        received.effects.map (Entry.effect false) := by
    rw [answeredCalls, Ledger.run, foldl_cons, foldl_cons, foldl_nil,
      @Ledger.call_send _ { session := sampleSession } _ _ _ _ _ sent,
      @Ledger.call_receive _ ⟨requestedSession, _⟩ _ _ _ _ accepted]
    rfl
  have id : requestPacket.messageId = 0x100000004#64 := by decide +kernel
  have seqNo : requestPacket.seqNo = 1 := by decide +kernel
  rw [run]
  constructor
  · rw [emitted_append, quiet]
    show [({ content := true, id := requestPacket.messageId, seqNo := requestPacket.seqNo } : Emitted)] = _
    rw [id, seqNo]
  · rw [results, countP_append, ← results, ← results, once]
    rfl

theorem answered_ledger :
    Cipher.aes.Lawful ∧ sampleSession.Fresh ∧
    results (Ledger.run Cipher.aes { session := sampleSession } answeredCalls).log 0x100000004#64 = 1 ∧
    (∀ message ∈ emitted (Ledger.run Cipher.aes { session := sampleSession } answeredCalls).log,
      message.id.toNat % 4 = 0) := by
  have small : ∀ message ∈ emitted (Ledger.run Cipher.aes { session := sampleSession } answeredCalls).log,
      message.id.toNat < 2 ^ 63 := by
    rw [answeredCalls_log.1]
    decide
  have all := session_ledger Cipher.aes Cipher.aes_lawful sampleSession ⟨rfl, rfl, rfl⟩ answeredCalls small
  exact ⟨Cipher.aes_lawful, ⟨rfl, rfl, rfl⟩, answeredCalls_log.2, all.2.1⟩

end Samples

section Wrap
variable {cipher : Cipher}

def idleCall : Call := .send 0 [] "ping" (replicate 32 0)

structure AfterSends (n : Nat) (l : Ledger) : Prop where
  key : l.session.key = sampleKey
  offset : l.session.timeOffset = 0
  last : l.session.lastMessageId = if n = 0 then none else some (BitVec.ofNat 64 (4 * n))
  length : (emitted l.log).length = n
  content : ∀ message ∈ emitted l.log, message.content = true ∧ message.id.toNat ≤ 4 * n

theorem next_idle {session : Session} {n : Nat} (few : n < 2 ^ 60) (offset : session.timeOffset = 0)
    (last : session.lastMessageId = if n = 0 then none else some (BitVec.ofNat 64 (4 * n))) :
    nextMessageId session.lastMessageId (adjustedNowNanoseconds session 0) = BitVec.ofNat 64 (4 * (n + 1)) := by
  have clock : adjustedNowNanoseconds session 0 = 0 := by
    unfold adjustedNowNanoseconds
    rw [offset]
    decide
  have now : messageIdFromNanoseconds 0 = 4 := by decide
  rw [clock, last]
  by_cases first : n = 0
  · subst first
    rw [if_pos rfl]
    exact now
  · rw [if_neg first, nextMessageId, now]
    have sum : BitVec.ofNat 64 (4 * n) + 4 = BitVec.ofNat 64 (4 * (n + 1)) := by
      rw [Nat.mul_add, BitVec.ofNat_add]
      rfl
    rw [sum, if_pos]
    rw [BitVec.lt_def, BitVec.toNat_ofNat]
    simp only [BitVec.ofNat_eq_ofNat, BitVec.toNat_ofNat]
    omega

theorem idle_sent (lawful : cipher.Lawful) (session : Session) : ∃ encrypted finalized, finalize cipher session
    (makeSessionPacket session 0 [] true) (replicate 32 0) = .ok (encrypted, finalized) := by
  have padding : padded (makeSessionPacket session 0 [] true) (replicate 32 0) =
      .ok { makeSessionPacket session 0 [] true with padding := replicate 32 0 } := by
    simp [padded, makeSessionPacket, defaultEncryptedPaddingSize]
  obtain ⟨encrypted, made⟩ := finalize_filled lawful padding
    (by simp [validateEncryptedPacketPadding, makeSessionPacket]) (Nat.two_pow_pos 31) rfl
  exact ⟨encrypted, _, made⟩

theorem AfterSends.next (lawful : cipher.Lawful) {n : Nat} {l : Ledger} (few : n < 2 ^ 60) (after : AfterSends n l) :
    AfterSends (n + 1) (l.call cipher idleCall) := by
  obtain ⟨encrypted, finalized, made⟩ := idle_sent lawful l.session
  have carries := finalize_carries lawful rfl made
  have id : finalized.messageId = BitVec.ofNat 64 (4 * (n + 1)) :=
    carries.2.2.1.trans (next_idle few after.offset after.last)
  have size : finalized.messageId.toNat = 4 * (n + 1) := by
    rw [id, BitVec.toNat_ofNat]
    omega
  have sent : sendRequest cipher l.session 0 [] "ping" (replicate 32 0) =
      .ok { next := (advanceOutboundSession l.session finalized.messageId true).emplace finalized.messageId
              { body := finalized.body, request := "ping", seqNo := finalized.seqNo }
            requestId := finalized.messageId
            effects := sendEffects encrypted finalized } := by
    rw [sendRequest, made]
    rfl
  have called : l.call cipher idleCall =
      { session := (advanceOutboundSession l.session finalized.messageId true).emplace finalized.messageId
          { body := finalized.body, request := "ping", seqNo := finalized.seqNo }
        log := l.log ++ (sendEffects encrypted finalized).map (Entry.effect true) ++
          [.request finalized.messageId "ping"] } := by
    rw [idleCall, Ledger.call_send sent]
  have shape : emitted (l.call cipher idleCall).log =
      emitted l.log ++ [{ content := true, id := finalized.messageId, seqNo := finalized.seqNo }] := by
    rw [called, emitted_append, emitted_append, append_assoc]
    rfl
  have fields : (l.call cipher idleCall).session.key = l.session.key ∧
      (l.call cipher idleCall).session.timeOffset = l.session.timeOffset ∧
      (l.call cipher idleCall).session.lastMessageId = some finalized.messageId := by
    rw [called]
    dsimp only [Session.emplace]
    split
    · exact ⟨rfl, rfl, rfl⟩
    · exact ⟨rfl, rfl, rfl⟩
  refine ⟨fields.1.trans after.key, fields.2.1.trans after.offset, ?_, ?_, ?_⟩
  · rw [fields.2.2, if_neg (Nat.succ_ne_zero n), id]
  · rw [shape, length_append, after.length]
    rfl
  · intro message inside
    rw [shape] at inside
    rcases mem_append.mp inside with earlier | final
    · have held := after.content message earlier
      exact ⟨held.1, by omega⟩
    · rw [mem_singleton.mp final]
      exact ⟨rfl, size.le⟩

theorem afterSends_run (lawful : cipher.Lawful) {l : Ledger} {n : Nat} (after : AfterSends n l) (more : Nat)
    (few : n + more < 2 ^ 60) : AfterSends (n + more) (l.run cipher (replicate more idleCall)) := by
  induction more generalizing n l with
  | zero => exact after
  | succ more ih =>
    have rest := ih (after.next lawful (by omega)) (by omega)
    rw [show n + (more + 1) = n + 1 + more from by omega]
    exact rest

/-- The sequence number of the request after 2^30 others is negative. -/
theorem seqNo_wraps :
    ¬ ∃ cipher : Cipher, cipher.Lawful ∧
      ((∀ message ∈ emitted (Ledger.run cipher { session := sampleSession } (replicate (2 ^ 30 + 1) idleCall)).log,
          message.id.toNat < 2 ^ 63) → ∀ before message after,
          emitted (Ledger.run cipher { session := sampleSession } (replicate (2 ^ 30 + 1) idleCall)).log =
            before ++ message :: after →
          message.seqNo.toInt = ((2 * contents before + if message.content then 1 else 0 : Nat) : Int)) := by
  rintro ⟨cipher, lawful, claim⟩
  have start : AfterSends 0 { session := sampleSession } := ⟨rfl, rfl, rfl, rfl, fun _ held => by cases held⟩
  have sent := afterSends_run lawful start (2 ^ 30 + 1) (by norm_num)
  rw [Nat.zero_add] at sent
  have small : ∀ message ∈ emitted (Ledger.run cipher { session := sampleSession }
      (replicate (2 ^ 30 + 1) idleCall)).log, message.id.toNat < 2 ^ 63 := by
    intro message inside
    have bound := (sent.content message inside).2
    omega
  have new : sampleSession.Fresh := ⟨rfl, rfl, rfl⟩
  have numbered := ((Kept.start new).run lawful _ small).numbered.numbered
  have claim := claim small
  have length := sent.length
  have content := sent.content
  generalize emitted (Ledger.run cipher { session := sampleSession } (replicate (2 ^ 30 + 1) idleCall)).log =
    messages at length content numbered claim
  have within : 2 ^ 30 < messages.length := by omega
  have whole : messages = messages.take (2 ^ 30) ++ messages[2 ^ 30] :: messages.drop (2 ^ 30 + 1) := by
    rw [← drop_eq_getElem_cons within, take_append_drop]
  have count : contents (messages.take (2 ^ 30)) = 2 ^ 30 := by
    rw [contents, countP_eq_length.mpr fun message inside => (content message (mem_of_mem_take inside)).1,
      length_take]
    omega
  have own := (content messages[2 ^ 30] (getElem_mem within)).1
  have actual := numbered _ _ _ whole
  have claimed := claim _ _ _ whole
  rw [actual, count, own] at claimed
  exact absurd claimed (by decide)

end Wrap

end Nxt.Mt
