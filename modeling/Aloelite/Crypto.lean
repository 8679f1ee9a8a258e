import Mathlib.Tactic

/-! The chunk-cipher seam of `crypto.py`. The AEAD, the hashes and the key
derivations are third-party code and enter as one parameter. -/
namespace Aloelite

abbrev Bytes := List UInt8
abbrev Key := Bytes
abbrev Nonce := Bytes
abbrev Tag := Bytes
abbrev Digest := Bytes

/-- Ids are uuid7 strings of one fixed layout. They are compared bytewise, so an
id is carried as the number its hex digits spell. -/
abbrev NodeId := ℕ
abbrev EdgeId := ℕ
abbrev VolumeId := ℕ
abbrev MountId := ℕ
abbrev LockId := ℕ
abbrev FdId := ℕ

/-- What the engine takes from `hashlib` and `cryptography`. The fields that are
propositions are all that is relied on: the chunk address is injective, the
ciphertext has the length of the plaintext, and a seal opens under its own key,
nonce and tag. Opening a seal any other way is unspecified. -/
structure Crypto where
  chunkHash : Bytes → Digest
  encrypt : Key → Nonce → Bytes → Bytes × Tag
  decrypt : Key → Nonce → Bytes → Tag → Option Bytes
  /-- `SHA256(b"aloelite-nc" || len(pt) || pt)[:12]` -/
  convergentNonce : Bytes → Nonce
  /-- `_hkdf(volume_key, info=b"aloelite-chunk:" + volume_id)` -/
  hkdf : Key → VolumeId → Key
  /-- `SHA256(volume_id || root_node_id)` -/
  volumeHash : VolumeId → NodeId → Bytes
  /-- `Argon2id(pin, salt=H_v)` -/
  deriveUnlockKey : Bytes → Bytes → Key
  chunkHash_injective : Function.Injective chunkHash
  encrypt_length : ∀ k n p, (encrypt k n p).1.length = p.length
  decrypt_encrypt : ∀ k n p, decrypt k n (encrypt k n p).1 (encrypt k n p).2 = some p

namespace Crypto

/-- One pad byte for a key and a nonce. -/
def padByte (k n : Bytes) : UInt8 := (k ++ n).foldl (· + ·) 0

theorem map_xor_xor (p : Bytes) (b : UInt8) : (p.map (· ^^^ b)).map (· ^^^ b) = p := by
  rw [List.map_map]
  conv_rhs => rw [← List.map_id p]
  apply List.map_congr_left
  intro a _
  calc (a ^^^ b) ^^^ b = a ^^^ (b ^^^ b) := UInt8.xor_assoc a b b
    _ = a := by rw [UInt8.xor_self, UInt8.xor_zero]

/-- The assumptions are met: a one-byte stream cipher whose tag binds key and
nonce, with the identity as address. -/
def xorStream : Crypto where
  chunkHash p := p
  encrypt k n p := (p.map (· ^^^ padByte k n), k ++ n)
  decrypt k n c t := if t = k ++ n then some (c.map (· ^^^ padByte k n)) else none
  convergentNonce p := p
  hkdf k v := k ++ [UInt8.ofNat v]
  volumeHash v r := [UInt8.ofNat v, UInt8.ofNat r]
  deriveUnlockKey pin _ := pin
  chunkHash_injective := fun _ _ h => h
  encrypt_length := fun _ _ p => List.length_map _
  decrypt_encrypt := by
    intro k n p
    rw [if_pos rfl, map_xor_xor]

end Crypto

inductive EncMode where
  | none
  | convergent
  | random
  deriving DecidableEq, Repr

/-- The connection's cipher: `IdentityCipher`, or a `ChunkCipher` over the
volume's subkey. -/
inductive Cipher where
  | identity
  | chunk (key : Key) (convergent : Bool)
  deriving DecidableEq, Repr

namespace Cipher

def encrypts : Cipher → Bool
  | identity => false
  | chunk _ _ => true

/-- `ChunkCipher(volume_key, volume_id, convergent=...)` -/
def ofVolume (C : Crypto) (volumeKey : Key) (volume : VolumeId) (mode : EncMode) : Cipher :=
  match mode with
  | .none => identity
  | .convergent => chunk (C.hkdf volumeKey volume) true
  | .random => chunk (C.hkdf volumeKey volume) false

/-- (ciphertext, nonce, tag). `rnd` is the `os.urandom` draw of random mode. -/
def encryptChunk (C : Crypto) (rnd : Nonce) : Cipher → Bytes → Bytes × Nonce × Tag
  | identity, p => (p, [], [])
  | chunk k convergent, p =>
    let nonce := if convergent then C.convergentNonce p else rnd
    let sealed := C.encrypt k nonce p
    (sealed.1, nonce, sealed.2)

/-- `none` is the `InvalidTag` exception. -/
def decryptChunk (C : Crypto) : Cipher → Bytes → Nonce → Tag → Option Bytes
  | identity, ct, _, _ => some ct
  | chunk k _, ct, nonce, tag => C.decrypt k nonce ct tag

variable {C : Crypto}

theorem encryptChunk_length (rnd : Nonce) (c : Cipher) (p : Bytes) :
    (c.encryptChunk C rnd p).1.length = p.length := by
  cases c with
  | identity => rfl
  | chunk k convergent => exact C.encrypt_length _ _ _

/-- A chunk opens with the nonce and tag it was sealed with. -/
theorem decryptChunk_encryptChunk (rnd : Nonce) (c : Cipher) (p : Bytes) :
    c.decryptChunk C (c.encryptChunk C rnd p).1 (c.encryptChunk C rnd p).2.1
      (c.encryptChunk C rnd p).2.2 = some p := by
  cases c with
  | identity => rfl
  | chunk k convergent => exact C.decrypt_encrypt _ _ _

end Cipher

end Aloelite
