/-
  Fnd.Wire.Messages — the eleven peer messages (`wire/*.go`) and their encodings.

  The messages are generic in the hash type `H`, the key type `K` and the signature type
  `G`. On the wire a hash is 32 bytes, a signature 65, a public key what `ser`
  (`SerializeCompressed`) gives.
-/

import Fnd.Wire.Dwire
import Fnd.Blob.File

namespace Fnd.Wire

open Dwire
open Blob (Sector)

abbrev Bytes32 := { bs : Bytes // bs.length = 32 }

abbrev Bytes65 := { bs : Bytes // bs.length = 65 }

theorem length_zeros : (List.replicate 32 (0 : UInt8)).length = 32 := List.length_replicate

/-- `crypto.ZeroHash`. -/
def zeroHash : Bytes32 := ⟨List.replicate 32 0, length_zeros⟩

structure Hello (K : Type) where
  protocolVersion : UInt32
  localNonce : Bytes32
  remoteNonce : Bytes32
  publicKey : K
  userAgent : Bytes
  deriving DecidableEq

structure HelloAck where
  nonce : Bytes32
  deriving DecidableEq

structure Update where
  name : Name
  epochHeight : UInt16
  sectorSize : UInt16
  deriving DecidableEq

structure NilUpdate where
  name : Name
  deriving DecidableEq

structure BlobReq where
  name : Name
  epochHeight : UInt16
  sectorSize : UInt16
  deriving DecidableEq

structure BlobRes (H G : Type) where
  name : Name
  epochHeight : UInt16
  payloadPosition : UInt16
  prevHash : H
  reservedRoot : H
  payload : List Sector
  signature : G
  deriving DecidableEq

structure Peer (H : Type) where
  ip : Bytes
  id : H
  deriving DecidableEq

structure UpdateReq where
  name : Name
  epochHeight : UInt16
  sectorSize : UInt16
  deriving DecidableEq

structure EquivocationProof (H G : Type) where
  name : Name
  remoteEpochHeight : UInt16
  remotePayloadPosition : UInt16
  remotePrevHash : H
  remoteReservedRoot : H
  remotePayload : List Sector
  remoteSignature : G
  localEpochHeight : UInt16
  localSectorSize : UInt16
  localSectorTipHash : H
  localReservedRoot : H
  localSignature : G
  deriving DecidableEq

inductive Message (H K G : Type) where
  | hello (m : Hello K)
  | helloAck (m : HelloAck)
  | ping
  | update (m : Update)
  | nilUpdate (m : NilUpdate)
  | blobReq (m : BlobReq)
  | blobRes (m : BlobRes H G)
  | peerReq
  | peerRes (peers : List (Peer H))
  | updateReq (m : UpdateReq)
  | equivocationProof (m : EquivocationProof H G)
  deriving DecidableEq

/-- `MessageType`: a `uint16`; the constants count from zero, 10 (`NameRes`) unused. -/
abbrev MessageType := UInt16

def Message.msgType {H K G : Type} : Message H K G → MessageType
  | .hello _ => 0
  | .helloAck _ => 1
  | .ping => 2
  | .update _ => 3
  | .nilUpdate _ => 4
  | .blobReq _ => 5
  | .blobRes _ => 6
  | .peerReq => 7
  | .peerRes _ => 8
  | .updateReq _ => 9
  | .equivocationProof _ => 11

/-! ## Encodings -/

variable {K : Type} (ser : K → Bytes)

def Hello.encode (m : Hello K) : Except EncodeErr Bytes :=
  encodeFields [.ok (putUint32 m.protocolVersion), .ok m.localNonce.1, .ok m.remoteNonce.1, .ok (ser m.publicKey),
    encodeBytes m.userAgent]

def HelloAck.encode (m : HelloAck) : Except EncodeErr Bytes := encodeFields [.ok m.nonce.1]

def Update.encode (m : Update) : Except EncodeErr Bytes :=
  encodeFields [encodeBytes m.name, .ok (putUint16 m.epochHeight), .ok (putUint16 m.sectorSize)]

def NilUpdate.encode (m : NilUpdate) : Except EncodeErr Bytes := encodeFields [encodeBytes m.name]

def BlobReq.encode (m : BlobReq) : Except EncodeErr Bytes :=
  encodeFields [encodeBytes m.name, .ok (putUint16 m.epochHeight), .ok (putUint16 m.sectorSize)]

def UpdateReq.encode (m : UpdateReq) : Except EncodeErr Bytes :=
  encodeFields [encodeBytes m.name, .ok (putUint16 m.epochHeight), .ok (putUint16 m.sectorSize)]

def encodePayload (xs : List Sector) : Except EncodeErr Bytes := encodeSlice (fun s => .ok s.1) xs

def BlobRes.encode (m : BlobRes Bytes32 Bytes65) : Except EncodeErr Bytes :=
  encodeFields [encodeBytes m.name, .ok (putUint16 m.epochHeight), .ok (putUint16 m.payloadPosition),
    .ok m.prevHash.1, .ok m.reservedRoot.1, encodePayload m.payload, .ok m.signature.1]

/-- `net.IP.To16`: four bytes become the IPv4-mapped sixteen. -/
def to16 (ip : Bytes) : Option Bytes :=
  if ip.length = 4 then some ([0, 0, 0, 0, 0, 0, 0, 0, 0, 0, 0xff, 0xff] ++ ip)
  else if ip.length = 16 then some ip
  else none

def Peer.encode (p : Peer Bytes32) : Except EncodeErr Bytes :=
  encodeFields [match to16 p.ip with | some b => .ok b | none => .error .notAnIP, .ok p.id.1]

/-- The peers are first encoded into a buffer that is dropped, which finds a bad IP before the
    length is checked. -/
def encodePeerRes (peers : List (Peer Bytes32)) : Except EncodeErr Bytes :=
  match peers.mapM Peer.encode with
  | .error e => .error e
  | .ok _ => encodeFields [encodeSlice Peer.encode peers]

theorem encodePeerRes_ok {peers : List (Peer Bytes32)} {buf : Bytes} (h : encodePeerRes peers = .ok buf) :
    encodeFields [encodeSlice Peer.encode peers] = .ok buf := by
  unfold encodePeerRes at h
  split at h
  · cases h
  · exact h

def EquivocationProof.fields (m : EquivocationProof Bytes32 Bytes65) : List (Except EncodeErr Bytes) :=
  [encodeBytes m.name, .ok (putUint16 m.remoteEpochHeight), .ok (putUint16 m.remotePayloadPosition),
    .ok m.remotePrevHash.1, .ok m.remoteReservedRoot.1, encodePayload m.remotePayload, .ok m.remoteSignature.1,
    .ok (putUint16 m.localEpochHeight), .ok (putUint16 m.localSectorSize), .ok m.localSectorTipHash.1,
    .ok m.localReservedRoot.1, .ok m.localSignature.1]

def EquivocationProof.encode (m : EquivocationProof Bytes32 Bytes65) : Except EncodeErr Bytes := encodeFields m.fields

def Message.encode : Message Bytes32 K Bytes65 → Except EncodeErr Bytes
  | .hello m => m.encode ser
  | .helloAck m => m.encode
  | .ping => .ok []
  | .update m => m.encode
  | .nilUpdate m => m.encode
  | .blobReq m => m.encode
  | .blobRes m => m.encode
  | .peerReq => .ok []
  | .peerRes ps => encodePeerRes ps
  | .updateReq m => m.encode
  | .equivocationProof m => m.encode

end Fnd.Wire
