import LitecoinZ.Primitives.Serialize

/-!
# Framing of messages

`CNode::ReceiveMsgBytes` and `CNetMessage` of `net.{h,cpp}`: bytes come in packets and are put together to messages, each
a header of 24 bytes and a payload of the size that the header gives.  How the stream is cut into packets does not matter
(`receiveChunks_framing`).
-/

namespace LitecoinZ

open Codec
open List hiding Vector

def MAX_PROTOCOL_MESSAGE_LENGTH : Nat := 2 * 1024 * 1024

structure CMessageHeader where
  pchMessageStart : Vector UInt8 4
  pchCommand : Vector UInt8 12 := Vector.replicate 12 0
  nMessageSize : Nat := 2 ^ 32 - 1
  nChecksum : Nat := 0
  deriving DecidableEq, Repr

namespace CMessageHeader

def serializationOp : Codec Fault CMessageHeader :=
  (((byte endOfData).vector 4).seq fun _ => ((byte endOfData).vector 12).seq fun _ => (uintLE 4).seq fun _ =>
    uintLE 4).imap (fun x => ⟨x.1, x.2.1, x.2.2.1, x.2.2.2⟩) fun hdr =>
      (hdr.pchMessageStart, hdr.pchCommand, hdr.nMessageSize, hdr.nChecksum)

/-- The sizes and checksums of an `unsigned int`. -/
def Valid (hdr : CMessageHeader) : Prop := hdr.nMessageSize < 256 ^ 4 ∧ hdr.nChecksum < 256 ^ 4

theorem exact_serializationOp : serializationOp.Exact Valid := by
  have hbytes := fun n => exact_vector (exact_byte endOfData) n
  refine exact_imap (exact_seq (hbytes 4) fun _ _ => exact_seq (hbytes 12) fun _ _ =>
    exact_seq (exact_uintLE 4) fun _ _ => exact_uintLE 4) ?_ ?_
  · rintro ⟨start, command, size, checksum⟩ ⟨-, -, hsize, hchecksum⟩
    exact ⟨⟨hsize, hchecksum⟩, rfl⟩
  · rintro hdr ⟨hsize, hchecksum⟩
    exact ⟨⟨fun _ _ => trivial, fun _ _ => trivial, hsize, hchecksum⟩, rfl⟩

theorem reads_serializationOp : serializationOp.Reads 24 :=
  reads_imap (reads_seq (reads_vector (reads_byte endOfData) 4) fun _ => reads_seq (reads_vector (reads_byte endOfData) 12)
    fun _ => reads_seq (reads_le endOfData 4) fun _ => reads_le endOfData 4) _ _

end CMessageHeader

/-! ### Receiving -/

structure CNetMessage where
  hdr : CMessageHeader
  in_data : Bool := false
  hdrbuf : List UInt8 := List.replicate 24 0
  nHdrPos : Nat := 0
  vRecv : List UInt8 := []
  nDataPos : Nat := 0
  deriving DecidableEq, Repr

def memcpy (buffer : List UInt8) (pos : Nat) (src : List UInt8) : List UInt8 :=
  buffer.take pos ++ src ++ buffer.drop (pos + src.length)

/-- `CDataStream::resize`. -/
def resizeBytes (buffer : List UInt8) (n : Nat) : List UInt8 := buffer.take n ++ List.replicate (n - buffer.length) 0

variable (messageStart : Vector UInt8 4)

namespace CNetMessage

def new : CNetMessage := { hdr := { pchMessageStart := messageStart } }

variable (msg : CNetMessage)

def complete : Bool := msg.in_data && msg.hdr.nMessageSize == msg.nDataPos

def readHeader (pch : List UInt8) : Option Nat × CNetMessage :=
  let nCopy := min (24 - msg.nHdrPos) pch.length
  let hdrbuf := memcpy msg.hdrbuf msg.nHdrPos (pch.take nCopy)
  let nHdrPos := msg.nHdrPos + nCopy
  if nHdrPos < 24 then (some nCopy, { msg with hdrbuf, nHdrPos })
  else
    match CMessageHeader.serializationOp.get hdrbuf with
    | .error _ => (none, { msg with hdrbuf, nHdrPos })
    | .ok (hdr, hdrbuf) =>
      if hdr.nMessageSize > MAX_SIZE then (none, { msg with hdr, hdrbuf, nHdrPos })
      else (some nCopy, { msg with hdr, hdrbuf, nHdrPos, in_data := true })

def readData (pch : List UInt8) : Nat × CNetMessage :=
  let nCopy := min (msg.hdr.nMessageSize - msg.nDataPos) pch.length
  let vRecv := if msg.vRecv.length < msg.nDataPos + nCopy then
    resizeBytes msg.vRecv (min msg.hdr.nMessageSize (msg.nDataPos + nCopy + 256 * 1024)) else msg.vRecv
  (nCopy, { msg with vRecv := memcpy vRecv msg.nDataPos (pch.take nCopy), nDataPos := msg.nDataPos + nCopy })

def read (pch : List UInt8) : Option Nat × CNetMessage :=
  if !msg.in_data then msg.readHeader pch
  else
    let (handled, msg) := msg.readData pch
    (some handled, msg)

end CNetMessage

/-- The current incomplete message, or a new one, and the messages before it. -/
def currentMessage (vRecvMsg : List CNetMessage) : List CNetMessage × CNetMessage :=
  match vRecvMsg.getLast? with
  | none => (vRecvMsg, .new messageStart)
  | some msg => if msg.complete then (vRecvMsg, .new messageStart) else (vRecvMsg.dropLast, msg)

/-- The loop of `ReceiveMsgBytes`, with a number of rounds at most. -/
def receiveLoop (messageStart : Vector UInt8 4) : (rounds : Nat) → List CNetMessage → (pch : List UInt8) →
    Option (Bool × List CNetMessage)
  | _, vRecvMsg, [] => some (true, vRecvMsg)
  | 0, _, _ :: _ => none
  | rounds + 1, vRecvMsg, b :: pch =>
    let (before, msg) := currentMessage messageStart vRecvMsg
    match msg.read (b :: pch) with
    | (none, msg) => some (false, before ++ [msg])
    | (some handled, msg) =>
      if msg.in_data && msg.hdr.nMessageSize > MAX_PROTOCOL_MESSAGE_LENGTH then some (false, before ++ [msg])
      else receiveLoop messageStart rounds (before ++ [msg]) ((b :: pch).drop handled)

/-- `none` would be a loop that has not ended after a round for each byte. -/
def receiveMsgBytes (vRecvMsg : List CNetMessage) (pch : List UInt8) :
    Option (Bool × List CNetMessage) := receiveLoop messageStart pch.length vRecvMsg pch

def receiveChunks (messageStart : Vector UInt8 4) (vRecvMsg : List CNetMessage) : List (List UInt8) →
    Option (Bool × List CNetMessage)
  | [] => some (true, vRecvMsg)
  | chunk :: chunks => do
    let (ok, vRecvMsg) ← receiveMsgBytes messageStart vRecvMsg chunk
    if ok then receiveChunks messageStart vRecvMsg chunks else some (false, vRecvMsg)

/-! ### Cutting a stream -/

/-- A stream is cut into messages, up to a header with a size that is too large (`rejected`) or to a message that is not
there as a whole. -/
inductive Cut : (stream : List UInt8) → (messages : List (CMessageHeader × List UInt8)) → (rest : List UInt8) →
    (rejected : Bool) → Prop where
  | partHeader {stream : List UInt8} : stream.length < 24 → Cut stream [] stream false
  | tooLarge {stream more : List UInt8} {hdr : CMessageHeader} : hdr.Valid →
      stream = CMessageHeader.serializationOp.put hdr ++ more → MAX_PROTOCOL_MESSAGE_LENGTH < hdr.nMessageSize →
      Cut stream [] stream true
  | partPayload {stream more : List UInt8} {hdr : CMessageHeader} : hdr.Valid →
      stream = CMessageHeader.serializationOp.put hdr ++ more → hdr.nMessageSize ≤ MAX_PROTOCOL_MESSAGE_LENGTH →
      more.length < hdr.nMessageSize → Cut stream [] stream false
  | message {stream more payload rest : List UInt8} {hdr : CMessageHeader} {rejected : Bool}
      {messages : List (CMessageHeader × List UInt8)} : hdr.Valid →
      stream = CMessageHeader.serializationOp.put hdr ++ (payload ++ more) →
      hdr.nMessageSize ≤ MAX_PROTOCOL_MESSAGE_LENGTH → payload.length = hdr.nMessageSize →
      Cut more messages rest rejected → Cut stream ((hdr, payload) :: messages) rest rejected

namespace CMessageHeader

variable {hdr : CMessageHeader}

theorem Valid.put_inj {hdr' : CMessageHeader} {stream rest rest' : List UInt8} (hvalid : hdr.Valid) (hvalid' : hdr'.Valid)
    (h : stream = serializationOp.put hdr ++ rest) (h' : stream = serializationOp.put hdr' ++ rest') :
    hdr = hdr' ∧ rest = rest' :=
  exact_serializationOp.put_inj hvalid hvalid' (h.symm.trans h')

theorem length_put (hvalid : hdr.Valid) : (serializationOp.put hdr).length = 24 :=
  exact_serializationOp.length_put reads_serializationOp hvalid

end CMessageHeader

namespace Cut

variable {stream stream' rest rest' : List UInt8} {messages messages' : List (CMessageHeader × List UInt8)}
  {rejected rejected' : Bool}

theorem append (h : Cut stream messages rest false) (h' : Cut (rest ++ stream') messages' rest' rejected') :
    Cut (stream ++ stream') (messages ++ messages') rest' rejected' := by
  generalize hrej : false = rejected at h
  induction h with
  | partHeader _ => exact h'
  | tooLarge _ _ _ => cases hrej
  | partPayload _ _ _ _ => exact h'
  | message hvalid hstr hsize hlen _ ih =>
    refine .message hvalid ?_ hsize hlen (ih h' hrej)
    rw [hstr, append_assoc, append_assoc]

theorem append_rejected (h : Cut stream messages rest true) (more : List UInt8) :
    Cut (stream ++ more) messages (rest ++ more) true := by
  generalize hrej : true = rejected at h
  induction h with
  | partHeader _ => cases hrej
  | tooLarge hvalid hstr hsize => exact .tooLarge hvalid (by rw [hstr, append_assoc]) hsize
  | partPayload _ _ _ _ => cases hrej
  | message hvalid hstr hsize hlen _ ih =>
    refine .message hvalid ?_ hsize hlen (ih hrej)
    rw [hstr, append_assoc, append_assoc]

private theorem short_absurd {hdr : CMessageHeader} {more : List UInt8} {p : Prop} (hshort : stream.length < 24)
    (hvalid : hdr.Valid) (hstr : stream = CMessageHeader.serializationOp.put hdr ++ more) : p := by
  have hlen := CMessageHeader.length_put hvalid
  rw [hstr, length_append, hlen] at hshort
  omega

theorem unique (h : Cut stream messages rest rejected) (h' : Cut stream messages' rest' rejected') :
    messages = messages' ∧ rest = rest' ∧ rejected = rejected' := by
  induction h generalizing messages' with
  | partHeader hshort =>
    cases h' with
    | partHeader _ => exact ⟨rfl, rfl, rfl⟩
    | tooLarge hvalid hstr _ => exact short_absurd hshort hvalid hstr
    | partPayload hvalid hstr _ _ => exact short_absurd hshort hvalid hstr
    | message hvalid hstr _ _ _ => exact short_absurd hshort hvalid hstr
  | tooLarge hvalid hstr hsize =>
    cases h' with
    | partHeader hshort => exact short_absurd hshort hvalid hstr
    | tooLarge _ _ _ => exact ⟨rfl, rfl, rfl⟩
    | partPayload hvalid' hstr' hsize' _ =>
      obtain ⟨rfl, -⟩ := hvalid.put_inj hvalid' hstr hstr'
      omega
    | message hvalid' hstr' hsize' _ _ =>
      obtain ⟨rfl, -⟩ := hvalid.put_inj hvalid' hstr hstr'
      omega
  | partPayload hvalid hstr hsize hlen =>
    cases h' with
    | partHeader hshort => exact short_absurd hshort hvalid hstr
    | tooLarge hvalid' hstr' hsize' =>
      obtain ⟨rfl, -⟩ := hvalid.put_inj hvalid' hstr hstr'
      omega
    | partPayload _ _ _ _ => exact ⟨rfl, rfl, rfl⟩
    | message hvalid' hstr' _ hlen' _ =>
      obtain ⟨rfl, rfl⟩ := hvalid.put_inj hvalid' hstr hstr'
      rw [length_append] at hlen
      omega
  | message hvalid hstr hsize hlen _ ih =>
    cases h' with
    | partHeader hshort => exact short_absurd hshort hvalid hstr
    | tooLarge hvalid' hstr' hsize' =>
      obtain ⟨rfl, -⟩ := hvalid.put_inj hvalid' hstr hstr'
      omega
    | partPayload hvalid' hstr' _ hlen' =>
      obtain ⟨rfl, rfl⟩ := hvalid.put_inj hvalid' hstr hstr'
      rw [length_append] at hlen'
      omega
    | message hvalid' hstr' _ hlen' hmore =>
      obtain ⟨rfl, hpayload⟩ := hvalid.put_inj hvalid' hstr hstr'
      obtain ⟨rfl, rfl⟩ := append_inj hpayload (hlen.trans hlen'.symm)
      obtain ⟨rfl, rfl, rfl⟩ := ih hmore
      exact ⟨rfl, rfl, rfl⟩

end Cut

/-! ### The state of the receiver -/

/-- A message that has got all its bytes. -/
structure Done (msg : CNetMessage) (m : CMessageHeader × List UInt8) : Prop where
  in_data : msg.in_data = true
  hdr : msg.hdr = m.1
  vRecv : msg.vRecv = m.2
  nDataPos : msg.nDataPos = msg.hdr.nMessageSize

/-- A message that has got the given bytes and needs more. -/
inductive Pending (msg : CNetMessage) : List UInt8 → Prop where
  | header {bytes : List UInt8} : msg.in_data = false → msg.hdrbuf.length = 24 → bytes.length < 24 →
      msg.nHdrPos = bytes.length → msg.hdrbuf.take msg.nHdrPos = bytes → msg.vRecv = [] → msg.nDataPos = 0 →
      Pending msg bytes
  | data {data : List UInt8} : msg.in_data = true → msg.hdr.Valid → msg.nHdrPos = 24 →
      msg.hdr.nMessageSize ≤ MAX_PROTOCOL_MESSAGE_LENGTH → data.length < msg.hdr.nMessageSize →
      msg.nDataPos = data.length → data.length ≤ msg.vRecv.length → msg.vRecv.length ≤ msg.hdr.nMessageSize →
      msg.vRecv.take msg.nDataPos = data →
      Pending msg (CMessageHeader.serializationOp.put msg.hdr ++ data)

/-- The queue holds the messages, and the bytes of a message that is not complete. -/
inductive Received : List CNetMessage → List (CMessageHeader × List UInt8) → List UInt8 → Prop where
  | all {vRecvMsg : List CNetMessage} {messages : List (CMessageHeader × List UInt8)} :
      List.Forall₂ Done vRecvMsg messages → Received vRecvMsg messages []
  | part {vRecvMsg : List CNetMessage} {messages : List (CMessageHeader × List UInt8)} {msg : CNetMessage}
      {bytes : List UInt8} : List.Forall₂ Done vRecvMsg messages → Pending msg bytes →
      Received (vRecvMsg ++ [msg]) messages bytes

/-- What reading from a packet does to a message that has got some bytes: it takes at least one byte, and the message
then needs more, is complete, or has a size that is too large. -/
inductive Read (bytes pch : List UInt8) : Option Nat × CNetMessage → Prop where
  | part {n : Nat} {msg : CNetMessage} : 0 < n → Pending msg (bytes ++ pch.take n) → Read bytes pch (some n, msg)
  | all {n : Nat} {msg : CNetMessage} {payload : List UInt8} : 0 < n → msg.hdr.Valid →
      msg.hdr.nMessageSize ≤ MAX_PROTOCOL_MESSAGE_LENGTH → Done msg (msg.hdr, payload) →
      payload.length = msg.hdr.nMessageSize →
      bytes ++ pch.take n = CMessageHeader.serializationOp.put msg.hdr ++ payload → Read bytes pch (some n, msg)
  | tooLarge {n : Nat} {handled : Option Nat} {msg : CNetMessage} : msg.hdr.Valid →
      MAX_PROTOCOL_MESSAGE_LENGTH < msg.hdr.nMessageSize → (msg.in_data = true ∨ handled = none) → msg.nDataPos = 0 →
      bytes ++ pch.take n = CMessageHeader.serializationOp.put msg.hdr → Read bytes pch (handled, msg)

variable {buffer bytes pch : List UInt8} {msg : CNetMessage} {vRecvMsg : List CNetMessage}
  {messages : List (CMessageHeader × List UInt8)}

theorem take_memcpy (src : List UInt8) {pos : Nat} (h : pos ≤ buffer.length) :
    (memcpy buffer pos src).take (pos + src.length) = buffer.take pos ++ src := by
  have hlen : (buffer.take pos ++ src).length = pos + src.length := by
    rw [length_append, length_take, Nat.min_eq_left h]
  rw [memcpy, ← hlen, take_left']
  rw [hlen]

theorem length_memcpy {src : List UInt8} {pos : Nat} (h : pos + src.length ≤ buffer.length) :
    (memcpy buffer pos src).length = buffer.length := by
  simp only [memcpy, length_append, length_take, length_drop]
  omega

theorem read_header (hdata : msg.in_data = false) (hbuf : msg.hdrbuf.length = 24) (hshort : bytes.length < 24)
    (hpos : msg.nHdrPos = bytes.length) (hbytes : msg.hdrbuf.take msg.nHdrPos = bytes) (hrecv : msg.vRecv = [])
    (hdp : msg.nDataPos = 0) (hpch : pch ≠ []) :
    Read bytes pch (msg.readHeader pch) := by
  have hpos' : 0 < pch.length := length_pos_iff.2 hpch
  generalize hn : min (24 - msg.nHdrPos) pch.length = n
  have hlen : (pch.take n).length = n := by
    rw [length_take]
    omega
  have hle : msg.nHdrPos + (pch.take n).length ≤ msg.hdrbuf.length := by omega
  have htake := take_memcpy (pch.take n) (Nat.le_of_add_right_le hle)
  rw [hlen, hbytes] at htake
  have hbuf' := length_memcpy hle
  rw [CNetMessage.readHeader]
  simp only [hn]
  split
  · rename_i hless
    refine .part (by omega) (.header hdata (hbuf'.trans hbuf) ?_ ?_ htake hrecv hdp)
    · rw [length_append]
      omega
    · rw [length_append, hlen, ← hpos]
  · rename_i hfull
    have hall : memcpy msg.hdrbuf msg.nHdrPos (pch.take n) = bytes ++ pch.take n :=
      (take_of_length_le (by omega)).symm.trans htake
    obtain ⟨hdr, hvalid, hput, hget⟩ := CMessageHeader.exact_serializationOp.exists_put
      CMessageHeader.reads_serializationOp (hbuf'.trans hbuf)
    rw [hget]
    have hbytes' : bytes ++ pch.take n = CMessageHeader.serializationOp.put hdr := hall.symm.trans hput.symm
    dsimp only
    split
    · rename_i hmax
      refine .tooLarge hvalid ?_ (.inr rfl) hdp hbytes'
      exact lt_trans (by decide) hmax
    · by_cases hsize : MAX_PROTOCOL_MESSAGE_LENGTH < hdr.nMessageSize
      · exact .tooLarge hvalid hsize (.inl rfl) hdp hbytes'
      · have hsize' : hdr.nMessageSize ≤ MAX_PROTOCOL_MESSAGE_LENGTH := by omega
        by_cases hzero : hdr.nMessageSize = 0
        · -- A message without a payload is complete with its header.
          exact @Read.all _ _ _ _ [] (by omega) hvalid hsize' ⟨rfl, rfl, hrecv, hdp.trans hzero.symm⟩ hzero.symm
            (by rw [append_nil]; exact hbytes')
        · refine .part (by omega) ?_
          rw [hbytes', ← append_nil (CMessageHeader.serializationOp.put hdr)]
          refine .data rfl hvalid ?_ hsize' (Nat.pos_of_ne_zero hzero) hdp (Nat.zero_le _) ?_ ?_
          · change msg.nHdrPos + n = 24
            omega
          · change msg.vRecv.length ≤ _
            rw [hrecv]
            exact Nat.zero_le _
          · change msg.vRecv.take _ = _
            rw [hrecv, take_nil]

theorem read_data {data : List UInt8} (hdata : msg.in_data = true) (hvalid : msg.hdr.Valid) (hhdr : msg.nHdrPos = 24)
    (hsize : msg.hdr.nMessageSize ≤ MAX_PROTOCOL_MESSAGE_LENGTH) (hlen : data.length < msg.hdr.nMessageSize)
    (hpos : msg.nDataPos = data.length) (hle : data.length ≤ msg.vRecv.length)
    (hmax : msg.vRecv.length ≤ msg.hdr.nMessageSize) (htaken : msg.vRecv.take msg.nDataPos = data) (hpch : pch ≠ []) :
    Read (CMessageHeader.serializationOp.put msg.hdr ++ data) pch (some (msg.readData pch).1, (msg.readData pch).2) := by
  have hpos' : 0 < pch.length := length_pos_iff.2 hpch
  rw [CNetMessage.readData]
  generalize hn : min (msg.hdr.nMessageSize - msg.nDataPos) pch.length = n
  generalize hbuffer : (if msg.vRecv.length < msg.nDataPos + n then
    resizeBytes msg.vRecv (min msg.hdr.nMessageSize (msg.nDataPos + n + 256 * 1024)) else msg.vRecv) = buffer
  have hn' : (pch.take n).length = n := by
    rw [length_take]
    omega
  -- The buffer has room for the bytes, keeps what it has, and is no longer than the payload.
  have hroom : msg.nDataPos + (pch.take n).length ≤ buffer.length ∧ buffer.length ≤ msg.hdr.nMessageSize ∧
      buffer.take msg.nDataPos = data := by
    rw [← hbuffer]
    split
    · have hlength : (resizeBytes msg.vRecv (min msg.hdr.nMessageSize (msg.nDataPos + n + 256 * 1024))).length =
          min msg.hdr.nMessageSize (msg.nDataPos + n + 256 * 1024) := by
        rw [resizeBytes, length_append, length_take, length_replicate]
        omega
      refine ⟨by omega, by omega, ?_⟩
      rw [resizeBytes, take_append_of_le_length, take_take, Nat.min_eq_left (by omega), htaken]
      rw [length_take]
      omega
    · exact ⟨by omega, hmax, htaken⟩
  obtain ⟨hfits, hshort, hkept⟩ := hroom
  have htake := take_memcpy (pch.take n) (Nat.le_of_add_right_le hfits)
  rw [hn', hkept] at htake
  have hlength := length_memcpy hfits
  dsimp only
  by_cases hfull : msg.nDataPos + n = msg.hdr.nMessageSize
  · have hall : memcpy buffer msg.nDataPos (pch.take n) = data ++ pch.take n :=
      (take_of_length_le (by omega)).symm.trans htake
    refine @Read.all _ _ _ _ (data ++ pch.take n) (by omega) hvalid hsize ⟨hdata, rfl, hall, hfull⟩ ?_ ?_
    · rw [length_append, hn', ← hpos]
      exact hfull
    · exact append_assoc _ _ _
  · refine .part (by omega) ?_
    rw [append_assoc]
    have hnow : (data ++ pch.take n).length = msg.nDataPos + n := by rw [length_append, hn', hpos]
    refine Pending.data hdata hvalid hhdr hsize ?_ hnow.symm ?_ (hlength.trans_le hshort) htake
    · dsimp only
      omega
    · dsimp only
      omega

theorem Pending.read (h : Pending msg bytes) (hpch : pch ≠ []) :
    Read bytes pch (msg.read pch) := by
  rw [CNetMessage.read]
  cases h with
  | header hdata hbuf hshort hpos hbytes hrecv hdp =>
    rw [hdata]
    exact read_header hdata hbuf hshort hpos hbytes hrecv hdp hpch
  | data hdata hvalid hhdr hsize hlen hpos hle hmax htaken =>
    rw [hdata]
    exact read_data hdata hvalid hhdr hsize hlen hpos hle hmax htaken hpch

theorem pending_new : Pending (.new messageStart) [] :=
  .header rfl rfl (by decide) rfl rfl rfl rfl

theorem Done.complete {m : CMessageHeader × List UInt8} (h : Done msg m) : msg.complete = true := by
  rw [CNetMessage.complete, h.in_data, h.nDataPos]
  simp

theorem Pending.not_complete (h : Pending msg bytes) : msg.complete = false := by
  rw [CNetMessage.complete]
  cases h with
  | header hdata _ _ _ _ _ _ =>
    rw [hdata]
    rfl
  | data hdata _ _ _ hlen hpos _ _ _ =>
    rw [hdata, hpos, Bool.true_and, beq_eq_false_iff_ne]
    omega

theorem Pending.not_tooLarge (h : Pending msg bytes) :
    (msg.in_data && decide (msg.hdr.nMessageSize > MAX_PROTOCOL_MESSAGE_LENGTH)) = false := by
  cases h with
  | header hdata _ _ _ _ _ _ => rw [hdata, Bool.false_and]
  | data _ _ _ hsize _ _ _ _ _ => rw [decide_eq_false (not_lt.2 hsize), Bool.and_false]

theorem complete_of_done (h : List.Forall₂ Done vRecvMsg messages) : ∀ msg ∈ vRecvMsg, msg.complete = true := by
  induction h with
  | nil => exact fun _ h => absurd h not_mem_nil
  | cons hdone _ ih => exact forall_mem_cons.2 ⟨hdone.complete, ih⟩

def completeMessages (vRecvMsg : List CNetMessage) : List (CMessageHeader × List UInt8) :=
  (vRecvMsg.filter CNetMessage.complete).map fun msg => (msg.hdr, msg.vRecv)

/-- The first `nHdrPos` bytes of the header and the first `nDataPos` bytes of the payload. -/
def CNetMessage.receivedBytes (msg : CNetMessage) : List UInt8 :=
  if msg.in_data then (CMessageHeader.serializationOp.put msg.hdr).take msg.nHdrPos ++ msg.vRecv.take msg.nDataPos
  else msg.hdrbuf.take msg.nHdrPos

def incompleteBytes (vRecvMsg : List CNetMessage) : List UInt8 :=
  (vRecvMsg.filter fun msg => !msg.complete).flatMap CNetMessage.receivedBytes

theorem completeMessages_of_done (h : List.Forall₂ Done vRecvMsg messages) :
    completeMessages vRecvMsg = messages ∧ incompleteBytes vRecvMsg = [] := by
  induction h with
  | nil => exact ⟨rfl, rfl⟩
  | @cons msg m vRecvMsg messages hdone _ ih =>
    have hm : (msg.hdr, msg.vRecv) = m := by rw [hdone.hdr, hdone.vRecv]
    rw [completeMessages, incompleteBytes, filter_cons_of_pos hdone.complete, map_cons, hm,
      filter_cons_of_neg (by rw [hdone.complete]; decide)]
    exact ⟨congrArg _ ih.1, ih.2⟩

theorem completeMessages_concat (h : List.Forall₂ Done vRecvMsg messages) (hmsg : msg.complete = false) :
    completeMessages (vRecvMsg ++ [msg]) = messages ∧ incompleteBytes (vRecvMsg ++ [msg]) = msg.receivedBytes := by
  obtain ⟨hcomp, hinc⟩ := completeMessages_of_done h
  rw [completeMessages] at hcomp
  rw [incompleteBytes] at hinc
  rw [completeMessages, incompleteBytes, filter_append, map_append, filter_append, flatMap_append,
    hcomp, hinc, filter_cons_of_neg (by rw [hmsg]; decide), filter_cons_of_pos (by rw [hmsg]; decide)]
  exact ⟨append_nil _, append_nil _⟩

theorem Pending.receivedBytes_eq (h : Pending msg bytes) :
    msg.receivedBytes = bytes := by
  rw [CNetMessage.receivedBytes]
  cases h with
  | header hdata _ _ _ hbytes _ _ =>
    rw [hdata]
    exact hbytes
  | data hdata hvalid hhdr _ _ _ _ _ htaken =>
    have hlen := CMessageHeader.length_put hvalid
    rw [hdata, hhdr, take_of_length_le hlen.le, htaken]
    rfl

/-- What is received of a stream that goes on where some bytes have been received. -/
structure Receives (messages : List (CMessageHeader × List UInt8)) (stream : List UInt8) (ok : Bool)
    (vRecvMsg : List CNetMessage) (new : List (CMessageHeader × List UInt8)) (rest : List UInt8) : Prop where
  cut : Cut stream new rest !ok
  complete : completeMessages vRecvMsg = messages ++ new
  received : ok = true → Received vRecvMsg (messages ++ new) rest

section

variable (h : Received vRecvMsg messages bytes)
include h

theorem Received.current (messageStart : Vector UInt8 4) :
    List.Forall₂ Done (currentMessage messageStart vRecvMsg).1 messages ∧
      Pending (currentMessage messageStart vRecvMsg).2 bytes := by
  rw [currentMessage]
  cases h with
  | all hdone =>
    split
    · exact ⟨hdone, pending_new messageStart⟩
    · rename_i msg hlast
      rw [if_pos (complete_of_done hdone msg (mem_of_getLast? hlast))]
      exact ⟨hdone, pending_new messageStart⟩
  | part hdone hpend =>
    rw [getLast?_concat]
    dsimp only
    rw [hpend.not_complete, dropLast_concat]
    exact ⟨hdone, hpend⟩

theorem Received.cut_rest : Cut bytes [] bytes false := by
  cases h with
  | all _ => exact .partHeader (by decide)
  | part _ hpend =>
    cases hpend with
    | header _ _ hshort _ _ _ _ => exact .partHeader hshort
    | data _ hvalid _ hsize hlen _ _ _ _ => exact .partPayload hvalid rfl hsize hlen

/-! ### Packets -/

theorem Received.contents : completeMessages vRecvMsg = messages ∧ incompleteBytes vRecvMsg = bytes := by
  cases h with
  | all hdone => exact completeMessages_of_done hdone
  | part hdone hpend =>
    obtain ⟨hcomp, hinc⟩ := completeMessages_concat hdone hpend.not_complete
    exact ⟨hcomp, hinc.trans hpend.receivedBytes_eq⟩

theorem Received.nothing : Receives messages (bytes ++ []) true vRecvMsg [] bytes := by
  refine ⟨?_, ?_, fun _ => ?_⟩
  · rw [append_nil]
    exact h.cut_rest
  · rw [append_nil]
    exact h.contents.1
  · rw [append_nil]
    exact h

theorem Received.loop (messageStart : Vector UInt8 4) {rounds : Nat} (hrs : pch.length ≤ rounds) :
    ∃ ok vRecvMsg' new rest, receiveLoop messageStart rounds vRecvMsg pch = some (ok, vRecvMsg') ∧
      Receives messages (bytes ++ pch) ok vRecvMsg' new rest := by
  induction rounds generalizing vRecvMsg messages bytes pch with
  | zero =>
    obtain rfl := length_eq_zero_iff.1 (Nat.le_zero.1 hrs)
    exact ⟨true, vRecvMsg, [], bytes, by rw [receiveLoop], h.nothing⟩
  | succ rounds ih =>
    cases pch with
    | nil => exact ⟨true, vRecvMsg, [], bytes, by rw [receiveLoop], h.nothing⟩
    | cons b pch =>
      obtain ⟨hbef, hpend⟩ := h.current messageStart
      have hread := hpend.read (cons_ne_nil b pch)
      rw [receiveLoop]
      dsimp only
      generalize (currentMessage messageStart vRecvMsg).1 = before at hbef
      generalize (currentMessage messageStart vRecvMsg).2.read (b :: pch) = result at hread
      have hsplit : ∀ n, bytes ++ b :: pch = (bytes ++ (b :: pch).take n) ++ (b :: pch).drop n := by
        intro n
        rw [append_assoc, take_append_drop]
      have hfewer : ∀ n, 0 < n → ((b :: pch).drop n).length ≤ rounds := by
        intro n hn
        rw [length_drop]
        omega
      cases hread with
      | @part n msg hn hpart =>
        dsimp only
        rw [hpart.not_tooLarge, hsplit n]
        exact ih (.part hbef hpart) (hfewer n hn)
      | @all n msg payload hn hvalid hsize hdone hlen hbytes =>
        dsimp only
        rw [decide_eq_false (not_lt.2 hsize), Bool.and_false, hsplit n, hbytes]
        have hall : List.Forall₂ Done (before ++ [msg]) (messages ++ [(msg.hdr, payload)]) :=
          rel_append hbef (.cons hdone .nil)
        obtain ⟨ok, vRecvMsg', new, rest, hrun, hcut, hcomp, hrec⟩ := ih (.all hall) (hfewer n hn)
        rw [append_assoc] at hcomp hrec
        exact ⟨ok, vRecvMsg', (msg.hdr, payload) :: new, rest, hrun,
          .message hvalid (append_assoc _ _ _) hsize hlen hcut, hcomp, hrec⟩
      | @tooLarge n handled msg hvalid hsize hstop hpos hbytes =>
        have hinc : msg.complete = false := by
          rw [CNetMessage.complete, hpos, Bool.and_eq_false_iff, beq_eq_false_iff_ne]
          exact .inr (by omega)
        refine ⟨false, before ++ [msg], [], bytes ++ b :: pch, ?_, ?_, ?_, ?_⟩
        · cases handled with
          | none => rfl
          | some handled =>
            dsimp only
            rw [hstop.resolve_right nofun, decide_eq_true hsize]
            rfl
        · exact .tooLarge hvalid ((hsplit n).trans (congrArg (· ++ (b :: pch).drop n) hbytes)) hsize
        · rw [append_nil]
          exact (completeMessages_concat hbef hinc).1
        · rintro ⟨⟩

theorem Received.chunks (messageStart : Vector UInt8 4) (chunks : List (List UInt8)) :
    ∃ ok vRecvMsg' new rest, receiveChunks messageStart vRecvMsg chunks = some (ok, vRecvMsg') ∧
      Receives messages (bytes ++ chunks.flatten) ok vRecvMsg' new rest := by
  induction chunks generalizing vRecvMsg messages bytes with
  | nil => exact ⟨true, vRecvMsg, [], bytes, rfl, h.nothing⟩
  | cons chunk chunks ih =>
    obtain ⟨ok, vRecvMsg', new, rest, hrun, hreceives⟩ := h.loop messageStart (le_refl chunk.length)
    rw [receiveChunks, receiveMsgBytes, hrun, flatten_cons, ← append_assoc]
    cases ok with
    | false =>
      exact ⟨false, vRecvMsg', new, rest ++ chunks.flatten, rfl, hreceives.cut.append_rejected _, hreceives.complete,
        by rintro ⟨⟩⟩
    | true =>
      obtain ⟨ok', vRecvMsg'', new', rest', hrun', hreceives'⟩ := ih (hreceives.received rfl)
      refine ⟨ok', vRecvMsg'', new ++ new', rest', hrun', hreceives.cut.append hreceives'.cut, ?_, ?_⟩
      · rw [← append_assoc]
        exact hreceives'.complete
      · rw [← append_assoc]
        exact hreceives'.received

theorem Received.length_incomplete : (vRecvMsg.filter fun msg => !msg.complete).length ≤ 1 := by
  have hnone : ∀ {before : List CNetMessage}, List.Forall₂ Done before messages →
      before.filter (fun msg => !msg.complete) = [] := by
    intro before hdone
    refine filter_eq_nil_iff.2 fun msg hmsg => ?_
    rw [complete_of_done hdone msg hmsg]
    decide
  cases h with
  | all hdone =>
    rw [hnone hdone]
    exact Nat.zero_le 1
  | part hdone _ =>
    rw [filter_append, hnone hdone, nil_append]
    exact length_filter_le _ _

end

/-- All ways to cut a stream into packets give the messages of the stream, and are rejected or not in the same way; what
is left without a rejection is in the message that is not complete. -/
theorem receiveChunks_framing (messageStart : Vector UInt8 4) (stream : List UInt8) :
    ∃ ok messages rest, Cut stream messages rest (!ok) ∧
      ∀ chunks : List (List UInt8), chunks.flatten = stream →
        ∃ vRecvMsg, receiveChunks messageStart [] chunks = some (ok, vRecvMsg) ∧ completeMessages vRecvMsg = messages ∧
          (ok = true → incompleteBytes vRecvMsg = rest ∧ (vRecvMsg.filter fun msg => !msg.complete).length ≤ 1) := by
  have hall : ∀ chunks : List (List UInt8), ∃ ok vRecvMsg messages rest,
      receiveChunks messageStart [] chunks = some (ok, vRecvMsg) ∧
        Receives [] chunks.flatten ok vRecvMsg messages rest := fun chunks =>
    Received.chunks (.all .nil) messageStart chunks
  obtain ⟨ok, _, messages, rest, -, hcut, -, -⟩ := hall [stream]
  rw [flatten_singleton] at hcut
  refine ⟨ok, messages, rest, hcut, fun chunks hchunks => ?_⟩
  obtain ⟨ok', vRecvMsg, messages', rest', hrun, hcut', hcomp, hrec⟩ := hall chunks
  rw [hchunks] at hcut'
  obtain ⟨rfl, rfl, hok⟩ := hcut.unique hcut'
  obtain rfl : ok = ok' := Bool.not_inj hok
  refine ⟨vRecvMsg, hrun, hcomp, fun htrue => ?_⟩
  exact ⟨(hrec htrue).contents.2, (hrec htrue).length_incomplete⟩

/-- A message without a payload, and the first byte of the next one. -/
def verack : List UInt8 := [0xd8, 0xcf, 0xcd, 0x93] ++ (List.replicate 20 0 ++ [0xd8])

/-- It comes byte for byte, or at once. -/
theorem receiveChunks_framing_verack : ∃ vRecvMsg vRecvMsg',
    receiveChunks (Vector.replicate 4 0) [] (verack.map fun b => [b]) = some (true, vRecvMsg) ∧
      receiveChunks (Vector.replicate 4 0) [] [verack] = some (true, vRecvMsg') ∧
      completeMessages vRecvMsg = completeMessages vRecvMsg' ∧ incompleteBytes vRecvMsg = incompleteBytes vRecvMsg' := by
  obtain ⟨ok, messages, rest, -, hall⟩ := receiveChunks_framing (Vector.replicate 4 0) verack
  obtain ⟨vRecvMsg, hrun, hcomp, hrest⟩ := hall (verack.map fun b => [b]) rfl
  obtain ⟨vRecvMsg', hrun', hcomp', hrest'⟩ := hall [verack] flatten_singleton
  obtain rfl : ok = true := by
    have hok : (receiveChunks (Vector.replicate 4 0) [] [verack]).map Prod.fst = some true := by decide +kernel
    rw [hrun'] at hok
    exact Option.some.inj hok
  exact ⟨vRecvMsg, vRecvMsg', hrun, hrun', hcomp.trans hcomp'.symm, (hrest rfl).1.trans (hrest' rfl).1.symm⟩

end LitecoinZ
