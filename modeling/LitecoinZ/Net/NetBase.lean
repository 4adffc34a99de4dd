import LitecoinZ.Primitives.Serialize

/-!
# Network addresses

`CNetAddr` and `CService` of `netbase.h` and `CAddress` of `protocol.h`, as they are kept and as they are written to disk.
-/

namespace LitecoinZ

open Codec

/-- The 16 bytes of an address in network byte order; the first one is the lowest of the number. -/
abbrev CNetAddr := BitVec 128

structure CService where
  ip : CNetAddr
  port : UInt16
  deriving DecidableEq, Repr

structure CAddress where
  service : CService := ⟨0, 0⟩
  nServices : Nat := 1
  nTime : Nat := 100000000
  deriving DecidableEq, Repr

def CNetAddr.serializationOp : Codec Fault CNetAddr := blob 16

/-- A port in network byte order. -/
def portOp : Codec Fault UInt16 :=
  ((byte endOfData).seq fun _ => byte endOfData).imap (fun b => UInt16.ofNat (b.1.toNat * 256 + b.2.toNat)) fun port =>
    (UInt8.ofNat (port.toNat / 256), UInt8.ofNat port.toNat)

def CService.serializationOp : Codec Fault CService :=
  (CNetAddr.serializationOp.seq fun _ => portOp).imap (fun (ip, port) => ⟨ip, port⟩) fun a => (a.ip, a.port)

/-- On disk a version comes first, which plays no role. -/
def CAddress.serializationOp : Codec Fault CAddress :=
  ((intLE 4).seq fun _ => (uintLE 4).seq fun _ => (uintLE 8).seq fun _ => CService.serializationOp).imap
    (fun (_, nTime, nServices, service) => { service, nServices, nTime })
    fun a => (CLIENT_VERSION, a.nTime, a.nServices, a.service)

private theorem decodes_portOp : portOp.Decodes fun _ => True := by
  refine decodes_imap (exact_seq (exact_byte endOfData) fun _ _ => exact_byte endOfData).decodes fun port _ => ?_
  have hlt := port.toNat_lt
  refine ⟨⟨trivial, trivial⟩, UInt16.toNat_inj.1 ?_⟩
  rw [UInt16.toNat_ofNat', UInt8.toNat_ofNat', UInt8.toNat_ofNat']
  omega

theorem CAddress.decodes : CAddress.serializationOp.Decodes fun a => a.nTime < 2 ^ 32 ∧ a.nServices < 2 ^ 64 := by
  have hver : -256 ^ 4 ≤ 2 * CLIENT_VERSION ∧ 2 * CLIENT_VERSION < 256 ^ 4 := by decide
  have hserv : CService.serializationOp.Decodes fun _ => True :=
    decodes_imap (decodes_seq (exact_blob 16).decodes fun _ _ => decodes_portOp) fun a _ => ⟨⟨trivial, trivial⟩, rfl⟩
  refine decodes_imap (decodes_seq (exact_intLE 4).decodes fun _ _ => decodes_seq (exact_uintLE 4).decodes fun _ _ =>
    decodes_seq (exact_uintLE 8).decodes fun _ _ => hserv) ?_
  rintro a ⟨htime, hservices⟩
  exact ⟨⟨hver, htime, hservices, trivial⟩, rfl⟩

end LitecoinZ
