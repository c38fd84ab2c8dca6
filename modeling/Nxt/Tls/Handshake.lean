import Nxt.Tls.Record

/- The client's handshake (nxtrt/tls.cpp), with the parsers of its messages (nxt/tls.hpp and
   nxt/tls/cert.hpp). -/
namespace Nxt.Tls
open Nxt.Lib List

structure ClientHello where
  handshake : Bytes
  record : Bytes
  legacySessionId : Bytes
  secretKey : Bytes
  deriving DecidableEq

structure ServerHello where
  handshake : Bytes
  legacySessionId : Bytes
  keyShare : Bytes
  deriving DecidableEq

section ServerHello

structure Extensions where
  supportedVersions : Bool := false
  keyShare : Option Bytes := none

def readExtension (seen : Extensions) : Reader String Extensions := do
  let type ← takeU16
  let length ← takeU16
  let extension ← take length
  if type = 43 then
    within extension do
      let version ← takeU16
      requireTls (version = 0x0304) "server selected an unsupported TLS version"
      requireEnd "unexpected bytes in supported_versions extension"
    return { seen with supportedVersions := true }
  else if type = 51 then
    let key ← within extension do
      let group ← takeU16
      requireTls (group = 0x001d) "server selected a non-X25519 key share"
      let keyLength ← takeU16
      requireTls (keyLength = 32) "server X25519 key share has the wrong length"
      let key ← take keyLength
      requireEnd "unexpected bytes in key_share extension"
      return key
    return { seen with keyShare := some key }
  else return seen

/-- An extension has at least four bytes, so the length is fuel enough. -/
def readExtensions : Nat → Extensions → Reader String Extensions
  | 0, seen => return seen
  | fuel + 1, seen => do
      if ← empty then return seen
      else
        let seen ← readExtension seen
        readExtensions fuel seen

def readServerHelloBody (handshake : Bytes) : Reader String ServerHello := do
  let legacyVersion ← takeU16
  requireTls (legacyVersion = 0x0303) "expected ServerHello.legacy_version 0x0303"
  let _ ← take 32
  let sessionIdLength ← takeU8
  let legacySessionId ← take sessionIdLength
  let cipherSuite ← takeU16
  requireTls (cipherSuite = 0x1301) "server selected an unsupported cipher suite"
  let compression ← takeU8
  requireTls (compression = 0) "server selected an unsupported compression method"
  let extensionsLength ← takeU16
  let extensions ← take extensionsLength
  requireEnd "unexpected bytes after ServerHello extensions"
  let seen ← within extensions (readExtensions extensions.length {})
  requireTls seen.supportedVersions "ServerHello omitted supported_versions"
  match seen.keyShare with
  | none => throw "ServerHello omitted key_share"
  | some keyShare => return { handshake, legacySessionId, keyShare }

def parseServerHello (record : Record) : Except String ServerHello := do
  require (record.type = 22) "expected a TLS handshake record"
  require (record.version = 0x0303) "expected legacy TLS 1.2 record version"
  let read : Reader String ServerHello := do
    let type ← takeU8
    let length ← takeU24
    requireTls (type = 2) "expected server_hello"
    let body ← get
    requireTls (length = body.length) "server_hello length does not match record payload"
    within body (readServerHelloBody record.payload)
  let (serverHello, _) ← read record.payload
  return serverHello

end ServerHello

section Certificate

/-- The entries of a certificate list; an entry has at least five bytes. -/
def readEntries : Nat → Reader String (List Bytes)
  | 0 => return []
  | fuel + 1 => do
      if ← empty then return []
      else
        let length ← takeU24
        let cert ← take length
        let extensionsLength ← takeU16
        let _ ← take extensionsLength
        return cert :: (← readEntries fuel)

def readCertificateBody : Reader String Certificate := do
  let context ← takeU8
  requireTls (context = 0) "server certificate request context must be empty"
  let length ← takeU24
  let entries ← take length
  requireEnd "unexpected bytes after certificate list"
  requireTls (!entries.isEmpty) "certificate list is empty"
  let chainDer ← within entries (readEntries entries.length)
  return { leafDer := chainDer.headD [], chainDer }

/-- A message with its header, of the given type; the body is read with a cursor of its own. -/
def readMessage {α : Type} (type : Nat) (name : String) (body : Reader String α) : Reader String α := do
  let first ← takeU8
  requireTls (first = type) ("expected " ++ name ++ " message")
  let length ← takeU24
  let part ← take length
  requireEnd ("unexpected bytes after " ++ name ++ " message")
  within part body

def parseCertificate (message : Bytes) : Except String Certificate := do
  let (certificate, _) ← readMessage 11 "certificate" readCertificateBody message
  return certificate

structure CertificateVerify where
  scheme : Nat
  signature : Bytes
  deriving DecidableEq

def readCertificateVerifyBody : Reader String CertificateVerify := do
  let scheme ← takeU16
  let length ← takeU16
  let signature ← take length
  requireEnd "unexpected bytes after certificate_verify signature"
  return { scheme, signature }

def parseCertificateVerify (message : Bytes) : Except String CertificateVerify := do
  let (verify, _) ← readMessage 15 "certificate_verify" readCertificateVerifyBody message
  return verify

end Certificate

section Der

def derTake (n : Nat) : Reader String Bytes := fun input =>
  if n ≤ input.length then .ok (input.take n, input.drop n) else .error "truncated DER value"

def derTakeU8 : Reader String Nat := do return beValue (← derTake 1)

def derTakeLength : Reader String Nat := do
  let first ← derTakeU8
  if first < 128 then return first
  else
    let octets := first - 128
    requireTls (octets ≠ 0) "indefinite DER length is not allowed"
    requireTls (octets ≤ 8) "DER length is too large"
    let rest ← get
    requireTls (octets ≤ rest.length) "truncated DER length"
    let out := beValue (← derTake octets)
    requireTls (out ≥ 128) "non-minimal DER length"
    return out

def derTakeValue (expectedTag : Nat) : Reader String Bytes := do
  let tag ← derTakeU8
  requireTls (tag = expectedTag) "unexpected DER tag"
  let length ← derTakeLength
  derTake length

def derTakeTlv (expectedTag : Nat) : Reader String Bytes := fun input => do
  let (_, rest) ← derTakeValue expectedTag input
  return (input.take (input.length - rest.length), rest)

def readTbs : Reader String Bytes := do
  let input ← get
  if input.head? = some 0xa0 then
    let _ ← derTakeTlv 0xa0
  let _ ← derTakeTlv 0x02
  let _ ← derTakeTlv 0x30
  let _ ← derTakeTlv 0x30
  let _ ← derTakeTlv 0x30
  let _ ← derTakeTlv 0x30
  derTakeTlv 0x30

def certificateSpki (der : Bytes) : Except String Bytes := do
  let (cert, _) ← derTakeValue 0x30 der
  let (tbs, _) ← derTakeValue 0x30 cert
  let (spki, _) ← readTbs tbs
  return spki

def rsaOid : Bytes := [0x2a, 0x86, 0x48, 0x86, 0xf7, 0x0d, 0x01, 0x01, 0x01]
def ecOid : Bytes := [0x2a, 0x86, 0x48, 0xce, 0x3d, 0x02, 0x01]
def p256Oid : Bytes := [0x2a, 0x86, 0x48, 0xce, 0x3d, 0x03, 0x01, 0x07]

def readSpkiBody (spkiDer : Bytes) : Reader String LeafPublicKey := do
  let algorithm ← derTakeValue 0x30
  let (oid, parameters) ← derTakeValue 0x06 algorithm
  let publicKey ← derTakeValue 0x03
  let (unusedBits, point) ← derTakeU8 publicKey
  requireTls (unusedBits = 0) "unsupported DER BIT STRING"
  if oid = rsaOid then return { rsa := true, ecPoint := [], spkiDer }
  else
    requireTls (oid = ecOid) "leaf certificate public key is not EC or RSA"
    requireTls (!parameters.isEmpty) "EC public key parameters are missing"
    let (curve, rest) ← derTakeValue 0x06 parameters
    requireTls (curve = p256Oid) "leaf certificate public key is not P-256"
    requireTls rest.isEmpty "unexpected EC public key parameters"
    requireTls (point.length = 65 ∧ point.head? = some 0x04) "leaf certificate P-256 public key is not uncompressed"
    return { rsa := false, ecPoint := point, spkiDer }

def extractLeafPublicKey (der : Bytes) : Except String LeafPublicKey := do
  let spki ← certificateSpki der
  let (body, _) ← derTakeValue 0x30 spki
  let (leaf, _) ← readSpkiBody spki body
  return leaf

end Der

section Verify
variable (p : Primitives)

def certificateVerifyMessage (transcript : Bytes) : Bytes :=
  replicate 64 0x20 ++ "TLS 1.3, server CertificateVerify".toUTF8.toList ++ [0] ++ p.sha256 transcript

def verifyCertificateVerify (leaf : LeafPublicKey) (transcript : Bytes) (verify : CertificateVerify) :
    Except String Bool := do
  let message := certificateVerifyMessage p transcript
  let rsa (bits : Nat) : Except String Bool := do
    require leaf.rsa "server used RSA-PSS CertificateVerify with a non-RSA leaf"
    return p.rsaPssVerify leaf.spkiDer message verify.signature bits
  if verify.scheme = 0x0403 then
    require (!leaf.rsa) "server used ECDSA CertificateVerify with a non-P-256 leaf"
    return p.ecdsaP256Sha256Verify leaf.ecPoint message verify.signature
  else if verify.scheme = 0x0804 then rsa 256
  else if verify.scheme = 0x0805 then rsa 384
  else if verify.scheme = 0x0806 then rsa 512
  else .error "server used an unsupported CertificateVerify signature scheme"

end Verify

def maxFlightSize : Nat := 1024 * 1024

def expectedTypes : List Nat := [8, 11, 15, 20]

/-- The server's flight while it is read. -/
structure Flight where
  nextMessage : Nat := 0
  /-- The bytes of a message that is not complete. -/
  retained : Bytes := []
  transcript : Bytes
  leafPublicKey : Option LeafPublicKey := none
  deriving DecidableEq

def Flight.complete (f : Flight) : Bool := expectedTypes.length ≤ f.nextMessage

section Flight
variable (p : Primitives) (host caFile : String) (trafficSecret : Bytes)

def authenticate (f : Flight) (message : Bytes) : Except String (Option LeafPublicKey) := do
  let type := (message.getD 0 0).toNat
  if type = 11 then
    let cert ← parseCertificate message
    p.verifyServerCertificate cert host caFile
    let leaf ← extractLeafPublicKey cert.leafDer
    return some leaf
  else if type = 15 then
    let verify ← parseCertificateVerify message
    require (verify.scheme = 0x0403 || verify.scheme = 0x0804) "server used an unoffered CertificateVerify scheme"
    match f.leafPublicKey with
    | none => .error "no leaf key"
    | some leaf => do
        let ok ← verifyCertificateVerify p leaf f.transcript verify
        require ok "CertificateVerify signature failed"
        return f.leafPublicKey
  else if type = 20 then
    let received ← parseFinished message
    require (verifyFinished p trafficSecret f.transcript received) "server Finished failed"
    return f.leafPublicKey
  else return f.leafPublicKey

def Flight.accept (f : Flight) (message : Bytes) : Except String Flight := do
  require (expectedTypes[f.nextMessage]? = some (message.getD 0 0).toNat)
    "unexpected server handshake message or missing authentication"
  let leafPublicKey ← authenticate p host caFile trafficSecret f message
  return { f with transcript := f.transcript ++ message, nextMessage := f.nextMessage + 1, leafPublicKey }

/-- The loop over complete messages of what is retained; each has at least four bytes. -/
def Flight.process : Nat → Flight → Except String Flight
  | 0, f => .ok f
  | fuel + 1, f =>
      if f.retained.length < 4 then .ok f
      else do
        require (messageSize f.retained ≤ maxFlightSize) "TLS handshake is too large"
        if f.retained.length < messageSize f.retained then return f
        else
          let size := messageSize f.retained
          let f ← f.accept p host caFile trafficSecret (f.retained.take size)
          Flight.process fuel { f with retained := f.retained.drop size }

def Flight.add (f : Flight) (content : Bytes) : Except String Flight := do
  require (content.length ≤ maxFlightSize - f.retained.length) "TLS handshake is too large"
  let retained := f.retained ++ content
  let f ← Flight.process p host caFile trafficSecret retained.length { f with retained }
  require (!f.complete || f.retained.isEmpty) "unexpected handshake bytes after server Finished"
  return f

def readFlight : Nat → ReadKeys → Flight → Reader String Flight
  | 0, _, _ => throw "end of input"
  | fuel + 1, keys, f =>
      if f.complete then return f
      else do
        let record ← readRecord
        if record.type = 20 then
          requireTls (record.version = 0x0303 && record.payload = [1]) "invalid change_cipher_spec"
          readFlight fuel keys f
        else
          let (plaintext, keys) ← (openRecord p keys record : Except String _)
          requireTls (plaintext.innerType = 22) "expected server handshake, received alert or application data"
          let f ← (f.add p host caFile trafficSecret plaintext.content : Except String _)
          readFlight fuel keys f

/-- The loop over the decrypted contents alone: what is left when the flight is complete. -/
def Flight.run : Flight → List Bytes → Except String (Flight × List Bytes)
  | f, [] => if f.complete then .ok (f, []) else .error "end of input"
  | f, content :: contents =>
      if f.complete then .ok (f, content :: contents)
      else do
        let f ← f.add p host caFile trafficSecret content
        Flight.run f contents

end Flight

structure Established where
  applicationKeys : ApplicationKeys
  clientFinished : Bytes
  /-- What the server sent and the handshake has not read. -/
  unread : Bytes
  deriving DecidableEq

/-- The handshake contents of the records of an input, in order; change_cipher_spec is skipped. -/
inductive Opens (p : Primitives) : ReadKeys → Bytes → List Bytes → Bytes → Prop
  | done (keys : ReadKeys) (input : Bytes) : Opens p keys input [] input
  | skip {keys : ReadKeys} {input rest left : Bytes} {contents : List Bytes} {record : Record} :
      readRecord input = .ok (record, rest) → record.type = 20 → (record.version = 0x0303 && record.payload = [1]) = true →
      Opens p keys rest contents left → Opens p keys input contents left
  | content {keys keys' : ReadKeys} {input rest left : Bytes} {contents : List Bytes} {record : Record}
      {plaintext : Plaintext} :
      readRecord input = .ok (record, rest) → record.type ≠ 20 → openRecord p keys record = .ok (plaintext, keys') →
      plaintext.innerType = 22 → Opens p keys' rest contents left →
      Opens p keys input (plaintext.content :: contents) left

/-- `tls13_client_session::handshake` with the hello it sends, over the bytes of the server. -/
def handshake (p : Primitives) (hello : ClientHello) (host caFile : String) (input : Bytes) :
    Except String Established := do
  let (record, input) ← readRecord input
  let serverHello ← parseServerHello record
  require (serverHello.legacySessionId = hello.legacySessionId) "server did not echo the legacy session ID"
  match p.x25519Dh hello.secretKey serverHello.keyShare with
  | none => .error "X25519 shared secret failed"
  | some sharedSecret => do
      let transcript := hello.handshake ++ serverHello.handshake
      let keys := deriveHandshakeKeys p sharedSecret transcript
      let (flight, unread) ← readFlight p host caFile keys.server.trafficSecret (input.length + 1) keys.server
        { transcript } input
      let finished := makeFinishedMessage p keys.client.trafficSecret flight.transcript
      let (clientFinished, _) ← sealRecord p keys.client 22 finished
      return { applicationKeys := deriveApplicationKeys p keys.secret flight.transcript, clientFinished, unread }

section Messages
variable {p : Primitives} {host caFile : String} {trafficSecret : Bytes}

variable (p host caFile trafficSecret) in
def Flight.acceptAll : Flight → List Bytes → Except String Flight
  | f, [] => .ok f
  | f, message :: rest => do
      let f ← f.accept p host caFile trafficSecret message
      Flight.acceptAll f rest

theorem acceptAll_append (f : Flight) (some_ more : List Bytes) :
    f.acceptAll p host caFile trafficSecret (some_ ++ more) =
      (f.acceptAll p host caFile trafficSecret some_ >>= fun g => g.acceptAll p host caFile trafficSecret more) := by
  induction some_ generalizing f with
  | nil => rfl
  | cons message rest ih =>
    simp only [cons_append, Flight.acceptAll]
    cases f.accept p host caFile trafficSecret message with
    | error e => rfl
    | ok g => exact ih g

theorem accept_retained (f : Flight) (retained message : Bytes) :
    Flight.accept p host caFile trafficSecret { f with retained } message =
      (f.accept p host caFile trafficSecret message).map fun g => { g with retained } := by
  unfold Flight.accept
  show (require (expectedTypes[f.nextMessage]? = some (message.getD 0 0).toNat) _ >>= fun _ =>
    authenticate p host caFile trafficSecret { f with retained } message >>= fun leaf => _) = _
  cases require (expectedTypes[f.nextMessage]? = some (message.getD 0 0).toNat)
    "unexpected server handshake message or missing authentication" with
  | error e => rfl
  | ok u =>
    have same : authenticate p host caFile trafficSecret { f with retained } message =
      authenticate p host caFile trafficSecret f message := rfl
    show (authenticate p host caFile trafficSecret { f with retained } message >>= fun leaf => _) =
      Except.map _ (authenticate p host caFile trafficSecret f message >>= fun leaf => _)
    rw [same]
    cases authenticate p host caFile trafficSecret f message with
    | error e => rfl
    | ok leaf => rfl

/-- The sizes the loop looks at are within the bound. -/
def Small (ms : List Bytes) (rest : Bytes) : Prop :=
  (∀ message ∈ ms, message.length ≤ maxFlightSize) ∧ (4 ≤ rest.length → messageSize rest ≤ maxFlightSize)

def Flight.cleared (f : Flight) : Flight := { f with retained := [] }

theorem flight_ext {f g : Flight} (same : f.cleared = g.cleared) (retained : f.retained = g.retained) : f = g := by
  cases f
  cases g
  simp only [Flight.cleared, Flight.mk.injEq] at same retained ⊢
  exact ⟨same.1, retained, same.2.2⟩

theorem process_iff (fuel : Nat) (f f' : Flight) (enough : f.retained.length ≤ fuel) :
    f.process p host caFile trafficSecret fuel = .ok f' ↔
      Small (messages.drain f.retained).1 (messages.drain f.retained).2 ∧
      f.cleared.acceptAll p host caFile trafficSecret (messages.drain f.retained).1 = .ok f'.cleared ∧
      f'.retained = (messages.drain f.retained).2 := by
  have stays (g : Flight) (rest : Bytes) (held : g.retained = rest) :
      (Except.ok g : Except String Flight) = .ok f' ↔
        g.cleared.acceptAll p host caFile trafficSecret [] = .ok f'.cleared ∧ f'.retained = rest := by
    constructor
    · intro same
      cases same
      exact ⟨rfl, held⟩
    · rintro ⟨same, rest'⟩
      exact congrArg Except.ok (flight_ext (Except.ok.inj same) (held.trans rest'.symm))
  induction fuel generalizing f with
  | zero =>
    have nothing : f.retained = [] := length_eq_zero_iff.mp (by omega)
    rw [nothing, messages.drain_none rfl, Flight.process, stays f [] nothing]
    exact ⟨fun both => ⟨⟨fun _ held => (by cases held), fun four => absurd four (by decide)⟩, both⟩, And.right⟩
  | succ fuel ih =>
    unfold Flight.process
    cases found : nextMessage f.retained with
    | none =>
      rw [messages.drain_none found]
      dsimp only
      by_cases short : f.retained.length < 4
      · rw [if_pos short, stays f f.retained rfl]
        exact ⟨fun both => ⟨⟨fun _ held => (by cases held), fun four => absurd four (by omega)⟩, both⟩, And.right⟩
      · have waits : f.retained.length < messageSize f.retained := by
          unfold nextMessage at found
          split at found
          · omega
          · cases found
        rw [if_neg short]
        by_cases fits : messageSize f.retained ≤ maxFlightSize
        · rw [require_pass (by simpa using fits)]
          show (if f.retained.length < messageSize f.retained then Except.ok f else _) = _ ↔ _
          rw [if_pos waits, stays f f.retained rfl]
          exact ⟨fun both => ⟨⟨fun _ held => (by cases held), fun _ => fits⟩, both⟩, And.right⟩
        · have fails : require (decide (messageSize f.retained ≤ maxFlightSize)) "TLS handshake is too large" =
              .error "TLS handshake is too large" := if_neg (by simpa using fits)
          rw [fails]
          refine ⟨fun held => (by cases held), ?_⟩
          rintro ⟨small, _⟩
          exact absurd (small.2 (by omega)) fits
    | some next =>
      obtain ⟨message, n⟩ := next
      have whole : ¬ (f.retained.length < 4 ∨ f.retained.length < messageSize f.retained) ∧
          message = f.retained.take (messageSize f.retained) ∧ n = messageSize f.retained := by
        unfold nextMessage at found
        split at found
        · cases found
        · rename_i whole
          cases found
          exact ⟨whole, rfl, rfl⟩
      obtain ⟨whole, taken, size⟩ := whole
      have length : message.length = messageSize f.retained := by
        rw [taken, length_take]
        omega
      rw [messages.drain_some found, if_neg (by omega)]
      dsimp only
      rw [size]
      by_cases fits : messageSize f.retained ≤ maxFlightSize
      · rw [require_pass (by simpa using fits)]
        show (if f.retained.length < messageSize f.retained then Except.ok f else _) = _ ↔ _
        rw [if_neg (by omega), ← taken]
        show (f.accept p host caFile trafficSecret message >>= fun g => _) = _ ↔ _ ∧
          (f.cleared.accept p host caFile trafficSecret message >>= fun g => _) = _ ∧ _
        have cleared : f.cleared.accept p host caFile trafficSecret message =
            (f.accept p host caFile trafficSecret message).map Flight.cleared := accept_retained f [] message
        rw [cleared]
        cases accepted : f.accept p host caFile trafficSecret message with
        | error e => exact ⟨fun held => (by cases held), fun held => (by cases held.2.1)⟩
        | ok g =>
          have kept : g.retained = f.retained := by
            obtain ⟨_, _, rest⟩ := bind_ok accepted
            obtain ⟨_, _, rest⟩ := bind_ok rest
            cases rest
            rfl
          have shorter : ({ g with retained := g.retained.drop (messageSize f.retained) } : Flight).retained.length ≤ fuel := by
            have positive : 4 ≤ messageSize f.retained := Nat.le_add_right ..
            rw [kept, length_drop]
            omega
          have later := ih { g with retained := g.retained.drop (messageSize f.retained) } shorter
          rw [kept] at later
          show Flight.process p host caFile trafficSecret fuel
            { g with retained := g.retained.drop (messageSize f.retained) } = .ok f' ↔ _
          rw [kept]
          refine later.trans ?_
          have cut : Small (message :: (messages.drain (f.retained.drop (messageSize f.retained))).1)
              (messages.drain (f.retained.drop (messageSize f.retained))).2 ↔
              Small (messages.drain (f.retained.drop (messageSize f.retained))).1
                (messages.drain (f.retained.drop (messageSize f.retained))).2 := by
            unfold Small
            rw [forall_mem_cons, length]
            exact ⟨fun held => ⟨held.1.2, held.2⟩, fun held => ⟨⟨fits, held.1⟩, held.2⟩⟩
          rw [cut]
          rfl
      · have fails : require (decide (messageSize f.retained ≤ maxFlightSize)) "TLS handshake is too large" =
            .error "TLS handshake is too large" := if_neg (by simpa using fits)
        rw [fails]
        refine ⟨fun held => (by cases held), ?_⟩
        rintro ⟨small, _⟩
        have bound := small.1 message mem_cons_self
        rw [length] at bound
        exact absurd bound fits

end Messages

end Nxt.Tls
