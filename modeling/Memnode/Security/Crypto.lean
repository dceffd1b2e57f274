/-
Memnode.Security.Crypto — the primitives `security.py` takes from its
cryptography library, as parameters.

Nothing is assumed about them here. What a result needs (a decryption
inverts an encryption, a tag is sixteen bytes long, the Diffie-Hellman
exchange commutes) is a named property of a `Crypto`, stated below and
taken as a hypothesis where it is used.
-/
import Memnode.Config

namespace Memnode.Security

/-- The library functions the node calls. -/
structure Crypto where
  /-- `hashlib.sha256(...).digest()` -/
  sha256 : Bytes → Bytes
  /-- `HKDF(SHA256, length, salt, info).derive(ikm)` -/
  hkdf : (length : Nat) → (salt info ikm : Bytes) → Bytes
  /-- `ChaCha20Poly1305(key).encrypt(nonce, data, aad)` -/
  encrypt : (key nonce data aad : Bytes) → Bytes
  /-- `ChaCha20Poly1305(key).decrypt(nonce, data, aad)`, `none` for `InvalidTag` -/
  decrypt : (key nonce data aad : Bytes) → Option Bytes
  /-- the public half of an X25519 key -/
  ephPublic : Bytes → Bytes
  /-- `X25519PrivateKey.exchange`, `none` where it raises -/
  exchange : (priv peer : Bytes) → Option Bytes
  /-- the public half of an Ed25519 key -/
  idPublic : Bytes → Bytes
  /-- `Ed25519PrivateKey.sign` -/
  sign : (priv message : Bytes) → Bytes
  /-- `Ed25519PublicKey.verify`, `false` for `InvalidSignature` -/
  verify : (pub signature message : Bytes) → Bool

namespace Crypto

/-- Decryption inverts encryption and the ciphertext carries a 16-byte tag. -/
structure AeadCorrect (C : Crypto) : Prop where
  decrypt_encrypt : ∀ key nonce data aad,
    C.decrypt key nonce (C.encrypt key nonce data aad) aad = some data
  length_encrypt : ∀ key nonce data aad, (C.encrypt key nonce data aad).length = data.length + 16

/-- Both ends of an exchange compute the same secret. -/
def ExchangeCommutes (C : Crypto) : Prop :=
  ∀ a b, C.exchange a (C.ephPublic b) = C.exchange b (C.ephPublic a)

end Crypto

/-- The bytes of an ASCII literal. -/
def ascii (s : String) : Bytes := s.toList.map (fun c => UInt8.ofNat c.toNat)

end Memnode.Security
