import LitecoinZ.Coins.View
import LitecoinZ.Lib.Simulation
import LitecoinZ.Primitives.Serialize

/-!
# Notes

`Note` and `NotePlaintext` of `zcash/Note.cpp`, with the checks that `JoinSplitCircuit::prove` makes on its inputs before
it spends a note.  The hash, the pseudo-random functions and the authenticated decryption are parameters.
-/

namespace LitecoinZ

open Codec StateExcept

def ZC_MEMO_SIZE : Nat := 512

def ZC_NOTEPLAINTEXT_SIZE : Nat := 1 + 8 + 32 + 32 + ZC_MEMO_SIZE

abbrev SpendingKey := BitVec 252

structure PaymentAddress where
  a_pk : Uint256
  pk_enc : Uint256
  deriving DecidableEq, Repr

structure Note where
  a_pk : Uint256
  value : Nat
  rho : Uint256
  r : Uint256
  deriving DecidableEq, Repr

structure NotePlaintext where
  value : Nat
  rho : Uint256
  r : Uint256
  memo : Vector UInt8 ZC_MEMO_SIZE
  deriving DecidableEq, Repr

structure ZCNoteDecryption where
  sk_enc : Uint256
  pk_enc : Uint256
  deriving DecidableEq, Repr

/-- The cryptography of `zcash/` that the wallet uses. -/
structure NoteEnv where
  sha256 : List UInt8 → Uint256
  /-- `PRF_nf`. -/
  prfNf : SpendingKey → Uint256 → Uint256
  /-- `SpendingKey::address`. -/
  address : SpendingKey → PaymentAddress
  /-- `ZCJoinSplit::h_sig`. -/
  hSig : Uint256 → Vector Uint256 ZC_NUM_JS_INPUTS → Uint256 → Uint256
  /-- `ZCNoteDecryption::decrypt`; `none` when it throws `note_decryption_failed`. -/
  noteDecrypt : ZCNoteDecryption → Vector UInt8 CLEN → Uint256 → Uint256 → UInt8 →
    Option (Vector UInt8 ZC_NOTEPLAINTEXT_SIZE)

variable (env : NoteEnv)

namespace Note

def cm (note : Note) : Uint256 :=
  env.sha256 (0xb0 :: (uint256.put note.a_pk ++ (uintLE 8).put note.value ++ uint256.put note.rho ++ uint256.put note.r))

def nullifier (note : Note) (a_sk : SpendingKey) : Uint256 := env.prfNf a_sk note.rho

end Note

namespace NotePlaintext

def note (pt : NotePlaintext) (addr : PaymentAddress) : Note := ⟨addr.a_pk, pt.value, pt.rho, pt.r⟩

def codec : Codec Fault NotePlaintext :=
  (((byte endOfData).guard fun leadingByte =>
      reject (leadingByte ≠ 0x00) (.exception "lead byte of NotePlaintext is not recognized")).seq fun _ =>
    (uintLE 8).seq fun _ => uint256.seq fun _ => uint256.seq fun _ => (byte endOfData).vector ZC_MEMO_SIZE).imap
    (fun x => ⟨x.2.1, x.2.2.1, x.2.2.2.1, x.2.2.2.2⟩) fun pt => (0, pt.value, pt.rho, pt.r, pt.memo)

theorem exact_codec : codec.Exact fun pt => pt.value < 256 ^ 8 := by
  have hrest := exact_seq (exact_uintLE 8) fun _ _ => exact_seq (exact_blob 32) fun _ _ =>
    exact_seq (exact_blob 32) fun _ _ => exact_vector (exact_byte endOfData) ZC_MEMO_SIZE
  refine exact_imap (exact_seq (exact_guard (exact_byte endOfData)) fun _ _ => hrest) ?_ ?_
  · rintro ⟨leadingByte, value, rho, r, memo⟩ ⟨⟨-, hlead⟩, hvalue, -⟩
    obtain rfl : leadingByte = 0 := reject_ne_ok.1 hlead
    exact ⟨hvalue, rfl⟩
  · intro pt hvalue
    exact ⟨⟨⟨trivial, rfl⟩, hvalue, trivial, trivial, fun _ _ => trivial⟩, rfl⟩

/-- The bytes that `NotePlaintext::encrypt` encrypts. -/
def serialized (pt : NotePlaintext) : Vector UInt8 ZC_NOTEPLAINTEXT_SIZE :=
  ⟨(codec.put pt).toArray, by
    have hput : codec.put pt = [0] ++ ((uintLE 8).put pt.value ++ ((uintLE 32).put pt.rho.toNat ++
        ((uintLE 32).put pt.r.toNat ++ pt.memo.toList.flatMap ([·])))) := rfl
    rw [List.size_toArray, hput]
    simp only [List.length_append, uintLE, length_put_le, List.flatMap_singleton', Vector.length_toList]
    rfl⟩

/-- The text of `note_decryption_failed`. -/
def decryptionFailed : Fault := .exception "Could not decrypt message"

def decrypt (decryptor : ZCNoteDecryption) (ciphertext : Vector UInt8 CLEN) (ephemeralKey h_sig : Uint256)
    (nonce : UInt8) : Except Fault NotePlaintext :=
  match env.noteDecrypt decryptor ciphertext ephemeralKey h_sig nonce with
  | none => .error decryptionFailed
  | some plaintext => do
    let (ret, ss) ← codec.get plaintext.toList
    reject (ss.length ≠ 0) (.assertion "ss.size() == 0")
    pure ret

theorem decrypt_serialized {env : NoteEnv} {decryptor : ZCNoteDecryption} {ciphertext : Vector UInt8 CLEN}
    {ephemeralKey h_sig : Uint256} {nonce : UInt8} {pt : NotePlaintext} (hvalue : pt.value < 256 ^ 8)
    (h : env.noteDecrypt decryptor ciphertext ephemeralKey h_sig nonce = some pt.serialized) :
    decrypt env decryptor ciphertext ephemeralKey h_sig nonce = .ok pt := by
  have hget : codec.get pt.serialized.toList = .ok (pt, []) := by
    rw [← exact_codec.decodes pt hvalue [], List.append_nil]
    rfl
  rw [decrypt, h]
  simp only [hget]
  rfl

end NotePlaintext

section

abbrev ZCIncrementalWitness := IncrementalWitness INCREMENTAL_MERKLE_TREE_DEPTH Uint256

variable [MerkleHash Uint256]

end

end LitecoinZ
