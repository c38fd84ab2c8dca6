import Nxt.Crypto.Sha256

/- HMAC with SHA-256 (nxt/crypto/sha256.cpp). -/
namespace Nxt.Crypto

def hmacKeyBlock (key : List UInt8) : List UInt8 :=
  if key.length > sha256BlockLen then sha256 key ++ List.replicate (sha256BlockLen - sha256Len) 0
  else key ++ List.replicate (sha256BlockLen - key.length) 0

structure HmacSha256 where
  inner : Sha256
  outerPad : List UInt8
  deriving DecidableEq

def HmacSha256.ofKey (key : List UInt8) : HmacSha256 :=
  let keyBlock := hmacKeyBlock key
  { inner := Sha256.update {} (keyBlock.map (· ^^^ 0x36)), outerPad := keyBlock.map (· ^^^ 0x5c) }

def HmacSha256.update (s : HmacSha256) (input : List UInt8) : HmacSha256 := { s with inner := s.inner.update input }

def HmacSha256.finalize (s : HmacSha256) : List UInt8 :=
  ((Sha256.update {} s.outerPad).update s.inner.finalize).finalize

def hmacSha256 (key data : List UInt8) : List UInt8 := ((HmacSha256.ofKey key).update data).finalize

end Nxt.Crypto
