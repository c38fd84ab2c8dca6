import Nxt.Tls.Flight

/- What an established session has checked, and that the cuts between the server's records do not
   change it. -/
namespace Nxt.Tls
open Nxt.Lib List

section Checks
variable {p : Primitives} {host caFile : String} {trafficSecret : Bytes} {f : Flight} {message : Bytes}
  {found : Option LeafPublicKey}

structure HasType (type : Nat) (message : Bytes) : Prop where
  whole : IsMessage message
  typed : (message.getD 0 0).toNat = type

theorem authenticate_certificate (typed : (message.getD 0 0).toNat = 11)
    (done : authenticate p host caFile trafficSecret f message = .ok found) :
    ∃ certificate leaf, parseCertificate message = .ok certificate ∧
      p.verifyServerCertificate certificate host caFile = .ok () ∧
      extractLeafPublicKey certificate.leafDer = .ok leaf ∧ found = some leaf := by
  unfold authenticate at done
  rw [if_pos typed] at done
  obtain ⟨certificate, parsed, done⟩ := bind_ok done
  obtain ⟨_, verified, done⟩ := bind_ok done
  obtain ⟨leaf, extracted, done⟩ := bind_ok done
  cases done
  exact ⟨certificate, leaf, parsed, verified, extracted, rfl⟩

theorem authenticate_verify {leaf : LeafPublicKey} (typed : (message.getD 0 0).toNat = 15)
    (known : f.leafPublicKey = some leaf) (done : authenticate p host caFile trafficSecret f message = .ok found) :
    ∃ verify, parseCertificateVerify message = .ok verify ∧
      verifyCertificateVerify p leaf f.transcript verify = .ok true := by
  unfold authenticate at done
  rw [if_neg (by omega), if_pos typed] at done
  obtain ⟨verify, parsed, done⟩ := bind_ok done
  obtain ⟨_, offered, done⟩ := bind_ok done
  rw [known] at done
  obtain ⟨ok, checked, done⟩ := bind_ok done
  obtain ⟨_, passed, done⟩ := bind_ok done
  rw [require_ok passed] at checked
  exact ⟨verify, parsed, checked⟩

theorem authenticate_finished (typed : (message.getD 0 0).toNat = 20)
    (done : authenticate p host caFile trafficSecret f message = .ok found) :
    parseFinished message = .ok (finishedVerifyData p trafficSecret f.transcript) := by
  unfold authenticate at done
  rw [if_neg (by omega), if_neg (by omega), if_pos typed] at done
  obtain ⟨received, parsed, done⟩ := bind_ok done
  obtain ⟨_, passed, done⟩ := bind_ok done
  have same := require_ok passed
  unfold verifyFinished at same
  rw [parsed, of_decide_eq_true same]

end Checks

section Messages
variable (p : Primitives) (host caFile : String)

structure ServerMessages where
  encryptedExtensions : Bytes
  certificate : Bytes
  certificateVerify : Bytes
  finished : Bytes

def ServerMessages.all (m : ServerMessages) : List Bytes :=
  [m.encryptedExtensions, m.certificate, m.certificateVerify, m.finished]

/-- What the server has shown with its messages, the transcript before them being given. -/
structure Authentic (trafficSecret transcript : Bytes) (m : ServerMessages) : Prop where
  extensions : HasType 8 m.encryptedExtensions
  certificate : HasType 11 m.certificate
  certificateVerify : HasType 15 m.certificateVerify
  finished : HasType 20 m.finished
  /-- The certificate is accepted for the host, and its key signed the transcript up to the signature. -/
  identity : ∃ certificate leaf verify, parseCertificate m.certificate = .ok certificate ∧
    p.verifyServerCertificate certificate host caFile = .ok () ∧
    extractLeafPublicKey certificate.leafDer = .ok leaf ∧ parseCertificateVerify m.certificateVerify = .ok verify ∧
    verifyCertificateVerify p leaf (transcript ++ m.encryptedExtensions ++ m.certificate) verify = .ok true
  mac : parseFinished m.finished = .ok (finishedVerifyData p trafficSecret
    (transcript ++ m.encryptedExtensions ++ m.certificate ++ m.certificateVerify))

end Messages

section Flight
variable {p : Primitives} {host caFile : String} {trafficSecret : Bytes}

theorem accepted_four {f g : Flight} {ms : List Bytes} (start : f.nextMessage = 0) (complete : g.complete = true)
    (done : f.acceptAll p host caFile trafficSecret ms = .ok g) : ms.length = 4 := by
  obtain ⟨count, _, bound⟩ := acceptAll_ok done
  have four : 4 ≤ g.nextMessage := by simpa [Flight.complete, expectedTypes] using complete
  rcases bound with nothing | bound
  · rw [nothing, length_nil] at count
    omega
  · omega

theorem accepted_authentic {transcript : Bytes} {g : Flight} {ms : List Bytes} (whole : ∀ message ∈ ms, IsMessage message)
    (complete : g.complete = true) (done : Flight.acceptAll p host caFile trafficSecret { transcript } ms = .ok g) :
    ∃ m : ServerMessages, ms = m.all ∧ Authentic p host caFile trafficSecret transcript m ∧
      g.transcript = transcript ++ ms.flatten := by
  obtain ⟨a, b, c, d, rfl⟩ : ∃ a b c d, ms = [a, b, c, d] := by
    have four := accepted_four rfl complete done
    match ms, four with
    | [a, b, c, d], _ => exact ⟨a, b, c, d, rfl⟩
  obtain ⟨f₁, first, done⟩ := bind_ok done
  obtain ⟨f₂, second, done⟩ := bind_ok done
  obtain ⟨f₃, third, done⟩ := bind_ok done
  obtain ⟨f₄, fourth, done⟩ := bind_ok done
  cases done
  obtain ⟨type₁, _, transcript₁, next₁, _⟩ := accept_ok first
  obtain ⟨type₂, checked₂, transcript₂, next₂, _⟩ := accept_ok second
  obtain ⟨type₃, checked₃, transcript₃, next₃, _⟩ := accept_ok third
  obtain ⟨type₄, checked₄, transcript₄, next₄, _⟩ := accept_ok fourth
  rw [next₁] at next₂ type₂
  rw [next₂] at next₃ type₃
  rw [next₃] at next₄ type₄
  have typed₁ : (a.getD 0 0).toNat = 8 := (Option.some.inj type₁).symm
  have typed₂ : (b.getD 0 0).toNat = 11 := (Option.some.inj type₂).symm
  have typed₃ : (c.getD 0 0).toNat = 15 := (Option.some.inj type₃).symm
  have typed₄ : (d.getD 0 0).toNat = 20 := (Option.some.inj type₄).symm
  obtain ⟨certificate, leaf, parsed, verified, extracted, known⟩ := authenticate_certificate typed₂ checked₂
  obtain ⟨verify, read, signed⟩ := authenticate_verify typed₃ known checked₃
  have mac := authenticate_finished typed₄ checked₄
  rw [transcript₂, transcript₁] at signed transcript₃
  rw [transcript₃] at mac transcript₄
  refine ⟨⟨a, b, c, d⟩, rfl, ⟨⟨whole a (by simp), typed₁⟩, ⟨whole b (by simp), typed₂⟩, ⟨whole c (by simp), typed₃⟩,
    ⟨whole d (by simp), typed₄⟩, ⟨certificate, leaf, verify, parsed, verified, extracted, read, signed⟩, mac⟩, ?_⟩
  rw [transcript₄]
  simp

end Flight

section Established
variable {p : Primitives} {hello : ClientHello} {host caFile : String} {input : Bytes}

def Carries (p : Primitives) (hello : ClientHello) (input : Bytes) (serverHello : ServerHello) (keys : HandshakeKeys)
    (contents : List Bytes) (unread : Bytes) : Prop :=
  ∃ record rest sharedSecret, readRecord input = .ok (record, rest) ∧ parseServerHello record = .ok serverHello ∧
    serverHello.legacySessionId = hello.legacySessionId ∧
    p.x25519Dh hello.secretKey serverHello.keyShare = some sharedSecret ∧
    keys = deriveHandshakeKeys p sharedSecret (hello.handshake ++ serverHello.handshake) ∧
    Opens p keys.server rest contents unread

def flightStart (hello : ClientHello) (serverHello : ServerHello) : Flight :=
  { transcript := hello.handshake ++ serverHello.handshake }

theorem between_start (hello : ClientHello) (serverHello : ServerHello) : Between (flightStart hello serverHello) :=
  ⟨rfl, fun _ => rfl⟩

theorem handshake_carries {established : Established} (done : handshake p hello host caFile input = .ok established) :
    ∃ serverHello keys contents flight keys', Carries p hello input serverHello keys contents established.unread ∧
    (flightStart hello serverHello).run p host caFile keys.server.trafficSecret contents = .ok (flight, []) ∧
    established.applicationKeys = deriveApplicationKeys p keys.secret flight.transcript ∧ sealRecord p keys.client 22
    (makeFinishedMessage p keys.client.trafficSecret flight.transcript) = .ok (established.clientFinished, keys') := by
  obtain ⟨⟨record, rest⟩, read, done⟩ := bind_ok done
  obtain ⟨serverHello, parsed, done⟩ := bind_ok done
  obtain ⟨_, echoed, done⟩ := bind_ok done
  cases shared : p.x25519Dh hello.secretKey serverHello.keyShare with
  | none =>
    rw [shared] at done
    cases done
  | some sharedSecret =>
    rw [shared] at done
    obtain ⟨⟨flight, unread⟩, flown, done⟩ := bind_ok done
    obtain ⟨⟨clientFinished, keys'⟩, finished, done⟩ := bind_ok done
    cases done
    obtain ⟨contents, opens, run⟩ := readFlight_opens flown
    exact ⟨serverHello, _, contents, flight, keys', ⟨record, rest, sharedSecret, read, parsed,
      of_decide_eq_true (require_ok echoed), shared, rfl, opens⟩, run, rfl, finished⟩

def answer (p : Primitives) (keys : HandshakeKeys) (read : Flight × Bytes) : Except String Established := do
  let finished := makeFinishedMessage p keys.client.trafficSecret read.1.transcript
  let (clientFinished, _) ← sealRecord p keys.client 22 finished
  return { applicationKeys := deriveApplicationKeys p keys.secret read.1.transcript, clientFinished, unread := read.2 }

variable {serverHello : ServerHello} {keys : HandshakeKeys} {contents : List Bytes} {unread : Bytes}

section
variable (carries : Carries p hello input serverHello keys contents unread)
include carries

theorem Carries.handshake_eq : ∃ rest, Opens p keys.server rest contents unread ∧
      handshake p hello host caFile input = (readFlight p host caFile keys.server.trafficSecret (rest.length + 1)
        keys.server (flightStart hello serverHello) rest >>= answer p keys) := by
  obtain ⟨record, rest, sharedSecret, read, parsed, echoed, shared, rfl, opens⟩ := carries
  refine ⟨rest, opens, ?_⟩
  unfold handshake
  rw [read]
  dsimp only [bind, Except.bind]
  rw [parsed]
  dsimp only
  rw [require_pass (decide_eq_true echoed)]
  dsimp only
  rw [shared]
  rfl

theorem Carries.established {left : List Bytes} {flight : Flight} {clientFinished : Bytes} {keys' : ReadKeys}
    (run : (flightStart hello serverHello).run p host caFile keys.server.trafficSecret contents = .ok (flight, left))
    (finished : sealRecord p keys.client 22 (makeFinishedMessage p keys.client.trafficSecret flight.transcript) =
      .ok (clientFinished, keys')) : ∃ unread', handshake p hello host caFile input = .ok
      { applicationKeys := deriveApplicationKeys p keys.secret flight.transcript, clientFinished, unread := unread' } := by
  obtain ⟨rest, opens, same⟩ := @Carries.handshake_eq p hello host caFile input _ _ _ _ carries
  obtain ⟨unread', flown⟩ := opens.readFlight (Nat.lt_succ_self _) run
  refine ⟨unread', ?_⟩
  rw [same, flown]
  show (sealRecord p keys.client 22 (makeFinishedMessage p keys.client.trafficSecret flight.transcript) >>= fun _ => _) = _
  rw [finished]
  rfl

theorem Carries.refused {e : String}
    (run : (flightStart hello serverHello).run p host caFile keys.server.trafficSecret contents = .error e)
    (told : e ≠ "end of input") : handshake p hello host caFile input = .error e := by
  obtain ⟨rest, opens, same⟩ := @Carries.handshake_eq p hello host caFile input _ _ _ _ carries
  rw [same, opens.readFlight_error (Nat.lt_succ_self _) run told]
  rfl

end

theorem run_authentic {trafficSecret : Bytes} {flight : Flight}
    (run : (flightStart hello serverHello).run p host caFile trafficSecret contents = .ok (flight, [])) :
    ∃ m : ServerMessages, contents.flatten = m.all.flatten ∧
      Authentic p host caFile trafficSecret (hello.handshake ++ serverHello.handshake) m ∧
      flight.transcript = hello.handshake ++ serverHello.handshake ++ m.all.flatten := by
  obtain ⟨consumed, shape, whole⟩ := run_whole contents (between_start hello serverHello) run
  rw [append_nil] at shape
  rw [shape]
  have covered := drained_flatten consumed.flatten
  have nothing : (messages.drain consumed.flatten).2 = [] := whole.nothing
  have accepted : Flight.acceptAll p host caFile trafficSecret (flightStart hello serverHello)
    (messages.drain consumed.flatten).1 = .ok flight := whole.accepted
  obtain ⟨m, same, authentic, transcript⟩ := accepted_authentic (drained_messages _) whole.complete accepted
  rw [nothing, append_nil] at covered
  rw [covered] at transcript
  refine ⟨m, by rw [← same, covered], authentic, ?_⟩
  rw [transcript, ← same, covered]

/-- An established session has seen exactly the four messages, each checked, and any other cuts of the same
    stream that stay within the bound on what is kept give the same keys. -/
theorem established_authentic (p : Primitives) (hello : ClientHello) (host caFile : String) (input : Bytes)
    (established : Established) (done : handshake p hello host caFile input = .ok established) :
    ∃ serverHello keys contents m, Carries p hello input serverHello keys contents established.unread ∧
      contents.flatten = m.all.flatten ∧
      Authentic p host caFile keys.server.trafficSecret (hello.handshake ++ serverHello.handshake) m ∧
      established.applicationKeys = deriveApplicationKeys p keys.secret
        (hello.handshake ++ serverHello.handshake ++ m.all.flatten) ∧
      ∀ input' contents' unread', Carries p hello input' serverHello keys contents' unread' →
        contents'.flatten = contents.flatten → Bounded [] contents' →
        ∃ established', handshake p hello host caFile input' = .ok established' ∧
          established'.applicationKeys = established.applicationKeys ∧
          established'.clientFinished = established.clientFinished := by
  obtain ⟨serverHello, keys, contents, flight, keys', carries, run, derived, finished⟩ := handshake_carries done
  obtain ⟨m, stream, authentic, transcript⟩ := run_authentic run
  refine ⟨serverHello, keys, contents, m, carries, stream, authentic, by rw [derived, transcript], ?_⟩
  intro input' contents' unread' carries' same bounded
  obtain ⟨consumed, shape, whole⟩ := run_whole contents (between_start hello serverHello) run
  rw [append_nil] at shape
  rw [← shape, ← same] at whole
  obtain ⟨left, run', _⟩ := whole_run contents' (between_start hello serverHello) bounded whole
  obtain ⟨unread'', done'⟩ := carries'.established run' finished
  exact ⟨_, done', derived.symm, rfl⟩

end Established

section Sample

theorem opens_exists {p : Primitives} (lawful : Lawful p) (contents : List Bytes) {keys : ReadKeys} (fit : keys.Fit)
    (short : ∀ content ∈ contents, content.length ≤ 16384) : ∃ input, Opens p keys input contents [] := by
  induction contents generalizing keys with
  | nil => exact ⟨[], .done keys []⟩
  | cons content contents ih =>
    obtain ⟨bound, later⟩ := forall_mem_cons.mp short
    obtain ⟨input, opens⟩ := ih fit.next later
    obtain ⟨record, _, typed, versioned, length, opened⟩ := sealed_opens lawful fit content 0 (show (22 : UInt8) ≠ 0 by decide)
    have read : readRecord (recordBytes record ++ input) = .ok (record, input) :=
      readRecord_append (by rw [typed]; decide) (by rw [versioned]; decide) (by omega) input
    exact ⟨_, .content read (by rw [typed]; decide) opened rfl opens⟩

def sampleHello : ClientHello := { handshake := [1, 0, 0, 0], record := [], legacySessionId := [], secretKey := [] }

def sampleServerHello : ServerHello :=
  { handshake := [2, 0, 0, 86, 3, 3] ++ replicate 32 0 ++ [0, 19, 1, 0, 0, 46, 0, 43, 0, 2, 3, 4,
      0, 51, 0, 36, 0, 29, 0, 32] ++ replicate 32 0
    legacySessionId := []
    keyShare := replicate 32 0 }

def sampleKeys : HandshakeKeys :=
  deriveHandshakeKeys plain (replicate 32 0) (sampleHello.handshake ++ sampleServerHello.handshake)

theorem sample_carries (contents : List Bytes) (short : ∀ content ∈ contents, content.length ≤ 16384) :
    ∃ input, Carries plain sampleHello input sampleServerHello sampleKeys contents [] := by
  obtain ⟨input, opens⟩ := opens_exists plain_lawful contents (derived_fit plain_lawful sampleKeys.server.trafficSecret) short
  let record : Record := { type := 22, version := 0x0303, payload := sampleServerHello.handshake }
  have read : readRecord (recordBytes record ++ input) = .ok (record, input) :=
    readRecord_append (by decide) (by decide) (by decide) input
  exact ⟨_, record, input, replicate 32 0, read, by decide, rfl, rfl, rfl, opens⟩

def sampleDer : Bytes :=
  [0x30, 0x1f, 0x30, 0x1d, 0x02, 0x01, 0x01, 0x30, 0, 0x30, 0, 0x30, 0, 0x30, 0,
   0x30, 0x10, 0x30, 0x0b, 0x06, 0x09] ++ rsaOid ++ [0x03, 0x01, 0x00]

def sampleCertificate : Bytes := [11, 0, 0, 42, 0, 0, 0, 38, 0, 0, 33] ++ sampleDer ++ [0, 0]

def sampleVerify : Bytes := [15, 0, 0, 4, 8, 4, 0, 0]

def sampleFinished : Bytes := [20, 0, 0, 32] ++ replicate 32 0

def sampleTail : Bytes := sampleCertificate ++ sampleVerify ++ sampleFinished

theorem sample_accepted (extensions : Bytes) :
    ∃ g, Flight.acceptAll plain "" "" sampleKeys.server.trafficSecret (flightStart sampleHello sampleServerHello)
      [8 :: extensions, sampleCertificate, sampleVerify, sampleFinished] = .ok g ∧ g.complete = true := by
  exact ⟨_, rfl, rfl⟩

def sampleInput : Bytes :=
  recordBytes { type := 22, version := 0x0303, payload := sampleServerHello.handshake } ++
    recordBytes { type := 23, version := 0x0303, payload := [8, 0, 0, 2, 0, 0] ++ sampleTail ++ [22] ++ replicate 16 0 }

def sampleTranscript : Bytes := sampleHello.handshake ++ sampleServerHello.handshake ++ [8, 0, 0, 2, 0, 0] ++ sampleTail

def sampleEstablished : Established :=
  { applicationKeys := deriveApplicationKeys plain sampleKeys.secret sampleTranscript
    clientFinished := recordBytes { type := 23, version := 0x0303, payload := sampleFinished ++ [22] ++ replicate 16 0 }
    unread := [] }

theorem sample_handshake : handshake plain sampleHello "" "" sampleInput = .ok sampleEstablished := by
  decide +kernel

/-- The messages of that server. -/
theorem sample_authentic : handshake plain sampleHello "" "" sampleInput = .ok sampleEstablished ∧
    ∃ serverHello keys contents m, Carries plain sampleHello sampleInput serverHello keys contents [] ∧
      contents.flatten = m.all.flatten ∧
      Authentic plain "" "" keys.server.trafficSecret (sampleHello.handshake ++ serverHello.handshake) m := by
  obtain ⟨serverHello, keys, contents, m, carries, stream, authentic, _⟩ :=
    established_authentic plain sampleHello "" "" sampleInput sampleEstablished sample_handshake
  exact ⟨sample_handshake, serverHello, keys, contents, m, carries, stream, authentic⟩

structure Longest (extensions : Bytes) : Prop where
  size : messageSize (8 :: extensions) = maxFlightSize
  length : (8 :: extensions).length = maxFlightSize

theorem longest_zeros {zeros : Bytes} (length : zeros.length = 1048572) : Longest (15 :: 255 :: 252 :: zeros) := by
  refine ⟨?_, ?_⟩
  · have field : ((8 :: 15 :: 255 :: 252 :: zeros : Bytes).drop 1).take 3 = [15, 255, 252] := rfl
    unfold messageSize
    rw [field]
    decide
  · rw [length_cons, length_cons, length_cons, length_cons, length]
    decide

theorem Longest.whole {extensions : Bytes} (longest : Longest extensions) : IsMessage (8 :: extensions) := by
  have positive : 4 ≤ maxFlightSize := by decide
  exact isMessage_of_size (by rw [longest.length]; exact positive) (longest.size.trans longest.length.symm)

theorem longest_read {extensions : Bytes} (longest : Longest extensions) (contents : List Bytes)
    (same : contents.flatten = 8 :: extensions) :
    ∃ g left, (flightStart sampleHello sampleServerHello).run plain "" "" sampleKeys.server.trafficSecret
      (contents ++ [sampleTail]) = .ok (g, left) := by
  obtain ⟨g, accepted, complete⟩ := sample_accepted extensions
  have tail : ∀ message ∈ [sampleCertificate, sampleVerify, sampleFinished], IsMessage message := by
    unfold IsMessage
    decide
  have stream : (contents ++ [sampleTail]).flatten =
      [8 :: extensions, sampleCertificate, sampleVerify, sampleFinished].flatten := by
    rw [flatten_append, same]
    rfl
  have drained := drain_whole [8 :: extensions, sampleCertificate, sampleVerify, sampleFinished]
    (forall_mem_cons.mpr ⟨longest.whole, tail⟩)
  have alone := drain_whole [8 :: extensions] (forall_mem_cons.mpr ⟨longest.whole, by simp⟩)
  have bounded : Bounded [] (contents ++ [sampleTail]) := by
    refine bounded_append contents [sampleTail] [] (bounded_total contents [] ?_) ?_ rfl
    · rw [same, longest.length]
      exact (Nat.zero_add _).le
    · rw [nil_append, same, ← append_nil (8 :: extensions)]
      rw [flatten_cons, flatten_nil] at alone
      rw [alone]
      exact ⟨show ([] : Bytes).length + sampleTail.length ≤ maxFlightSize by decide, trivial⟩
  have whole : Whole plain "" "" sampleKeys.server.trafficSecret (flightStart sampleHello sampleServerHello)
      (contents ++ [sampleTail]).flatten g := by
    have same' : messages.drain ((flightStart sampleHello sampleServerHello).retained ++
        (contents ++ [sampleTail]).flatten) = _ := (congrArg messages.drain stream).trans drained
    exact ⟨by rw [same'], by rw [same']; exact accepted, complete⟩
  obtain ⟨left, run, _⟩ := whole_run _ (between_start sampleHello sampleServerHello) bounded whole
  exact ⟨g, left, run⟩

theorem longest_refused {extensions : Bytes} (longest : Longest extensions) (contents more : List Bytes) (last : Bytes)
    (same : contents.flatten ++ last = 8 :: extensions) (ends : last ≠ []) (next : UInt8) :
    (flightStart sampleHello sampleServerHello).run plain "" "" sampleKeys.server.trafficSecret
      (contents ++ (last ++ [next]) :: more) = .error "TLS handshake is too large" := by
  have length : contents.flatten.length + last.length = maxFlightSize := by
    rw [← length_append, same, longest.length]
  have positive : 0 < last.length := length_pos_iff.mpr ends
  have size (header : 4 ≤ contents.flatten.length) : messageSize contents.flatten = maxFlightSize := by
    rw [← messageSize_append last header, same, longest.size]
  have waits : nextMessage contents.flatten = none := by
    unfold nextMessage
    by_cases header : 4 ≤ contents.flatten.length
    · rw [size header, if_pos (.inr (by omega))]
    · rw [if_pos (.inl (by omega))]
  have kept := @run_waits plain "" "" sampleKeys.server.trafficSecret
    (flightStart sampleHello sampleServerHello) contents ((last ++ [next]) :: more) rfl waits (fun header => (size header).le)
    (show contents.flatten.length ≤ maxFlightSize by omega)
  rw [kept]
  refine run_overflows (last ++ [next]) more rfl ?_
  show maxFlightSize - contents.flatten.length < (last ++ [next]).length
  rw [length_append, length_singleton]
  omega

def zeroRecords (first : Bytes) (count : Nat) : List Bytes := first :: replicate count (replicate 16384 0)

theorem zeroRecords_flatten (header : Bytes) (count zeros : Nat) :
    (zeroRecords (header ++ replicate zeros 0) count).flatten = header ++ replicate (zeros + count * 16384) 0 := by
  rw [zeroRecords, flatten_cons, flatten_replicate_replicate, append_assoc, replicate_append_replicate]

theorem zeroRecords_short {header : Bytes} {count zeros : Nat} (fits : header.length + zeros ≤ 16384) :
    ∀ content ∈ zeroRecords (header ++ replicate zeros 0) count, content.length ≤ 16384 := by
  refine forall_mem_cons.mpr ⟨?_, ?_⟩
  · rw [length_append, length_replicate]
    exact fits
  · intro content held
    rw [eq_of_mem_replicate held, length_replicate]

/-- The longest message, cut at its end and cut one byte later. -/
def evenCuts : List Bytes := zeroRecords ([8, 15, 255, 252] ++ replicate 16380 0) 63 ++ [sampleTail]

def oddCuts : List Bytes :=
  ([8] :: zeroRecords ([15, 255, 252] ++ replicate 16381 0) 62) ++ [replicate 16383 0 ++ [11], sampleTail.tail]

theorem cuts_same : oddCuts.flatten = evenCuts.flatten := by
  have zeros : replicate (16381 + 62 * 16384) 0 ++ replicate 16383 0 =
      replicate (16380 + 63 * 16384) (0 : UInt8) := by
    rw [replicate_append_replicate]
  have joined (a b c more : Bytes) (same : a ++ b = c) :
      [8] ++ ([15, 255, 252] ++ a) ++ (b ++ [11] ++ (more ++ [])) = [8, 15, 255, 252] ++ c ++ (11 :: more ++ []) := by
    rw [← same]
    simp
  rw [oddCuts, evenCuts, flatten_append, flatten_append, zeroRecords_flatten, flatten_cons,
    zeroRecords_flatten, flatten_cons, flatten_cons, flatten_cons, flatten_nil]
  exact joined _ _ _ sampleTail.tail zeros

theorem evenCuts_read :
    ∃ g left, (flightStart sampleHello sampleServerHello).run plain "" "" sampleKeys.server.trafficSecret
      evenCuts = .ok (g, left) := by
  refine longest_read (longest_zeros (@length_replicate _ (16380 + 63 * 16384) 0)) _ ?_
  rw [zeroRecords_flatten]
  rfl

theorem oddCuts_refused : (flightStart sampleHello sampleServerHello).run plain "" "" sampleKeys.server.trafficSecret
      oddCuts = .error "TLS handshake is too large" := by
  have zeros : replicate (16381 + 62 * 16384) 0 ++ replicate 16383 0 =
      replicate (16380 + 63 * 16384) (0 : UInt8) := by
    rw [replicate_append_replicate]
  refine longest_refused (longest_zeros (@length_replicate _ (16380 + 63 * 16384) 0)) _ _ _ ?_ ?_ 11
  · rw [flatten_cons, zeroRecords_flatten, append_assoc, append_assoc, zeros]
    rfl
  · intro nothing
    have length := congrArg List.length nothing
    rw [length_replicate] at length
    exact absurd length (by decide)

/-- Two servers that send the same stream: the one that cuts at the end of the longest message is accepted, and
    the one that cuts a byte later is not. -/
theorem cuts_matter : ∃ input input', Carries plain sampleHello input sampleServerHello sampleKeys evenCuts [] ∧
    Carries plain sampleHello input' sampleServerHello sampleKeys oddCuts [] ∧ oddCuts.flatten = evenCuts.flatten ∧
    (∃ established, handshake plain sampleHello "" "" input = .ok established) ∧
    handshake plain sampleHello "" "" input' = .error "TLS handshake is too large" := by
  have short : ∀ content ∈ evenCuts, content.length ≤ 16384 := by
    refine forall_mem_append.mpr ⟨zeroRecords_short (by decide), forall_mem_cons.mpr ⟨by decide, by simp⟩⟩
  have short' : ∀ content ∈ oddCuts, content.length ≤ 16384 := by
    refine forall_mem_append.mpr ⟨forall_mem_cons.mpr ⟨by decide, zeroRecords_short (by decide)⟩,
      forall_mem_cons.mpr ⟨?_, forall_mem_cons.mpr ⟨by decide, by simp⟩⟩⟩
    rw [length_append, length_replicate, length_singleton]
  obtain ⟨input, carries⟩ := sample_carries evenCuts short
  obtain ⟨input', carries'⟩ := sample_carries oddCuts short'
  obtain ⟨g, left, run⟩ := evenCuts_read
  obtain ⟨_, done⟩ := carries.established run rfl
  exact ⟨input, input', carries, carries', cuts_same, ⟨_, done⟩, carries'.refused oddCuts_refused (by decide)⟩

end Sample

end Nxt.Tls
