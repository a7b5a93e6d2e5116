import Metashrew.Lib.Utf8
import Metashrew.Mempool.Mirror
import Metashrew.Support.Auxpow

namespace Metashrew.Mempool

open Bytes Parser

structure WireMessage where
  command : String
  payload : Bytes
deriving DecidableEq

def isZero (c : Char) : Bool := c = Char.ofNat 0

def trimZeros (s : String) : String :=
  String.ofList ((s.toList.dropWhile isZero).reverse.dropWhile isZero).reverse

/-- The value for the main network. -/
def MAGIC : Bytes := [0xF9,0xBE,0xB4,0xD9]

def paddedCommand (command : String) : Bytes :=
  asBytes command ++ List.replicate (12-(asBytes command).length) 0

/-- A longer command does not fit its place. -/
def encodeMessage (sha256d : Bytes → Hash32) (command : String) (payload : Bytes) : Except Fault Bytes :=
  if (asBytes command).length ≤ 12 then
    .ok (MAGIC ++ paddedCommand command ++ u32le (payload.length%2^32) ++
      (sha256d payload).toList.take 4 ++ payload)
  else .error (.panic "range end index out of range for slice")

/-- Neither the magic value nor the checksum is looked at. -/
def receiveWire : Cursor WireMessage := do
  let header ← takeN (.message "early eof") 24
  match fromUtf8 ((header.drop 4).take 12) with
  | none => fail (.message "invalid utf-8 sequence")
  | some text =>
    let payload ← takeN (.message "early eof") (ofLE ((header.drop 16).take 4))
    return ⟨trimZeros text,payload⟩

theorem receiveWire_shorter {bs rest : Bytes} {message : WireMessage}
    (h : receiveWire.run bs = .ok (message,rest)) : rest.length < bs.length := by
  obtain ⟨header,mid,hheader,hrest⟩ := exists_of_run_bind h
  obtain ⟨hlen,rfl⟩ := run_takeN_iff.mp hheader
  cases htext : fromUtf8 ((header.drop 4).take 12) with
  | none =>
    rw [htext] at hrest
    cases hrest
  | some text =>
    rw [htext] at hrest
    obtain ⟨payload,_,hpayload,hdone⟩ := exists_of_run_bind hrest
    obtain ⟨_,rfl⟩ := run_takeN_iff.mp hpayload
    cases hdone
    simp only [List.length_append, hlen]
    omega

/-- What is written to the peer, and what has come from it. The bytes that it sends stand beside. -/
structure P2PConnection where
  written : Bytes
  versionReceived : Bool
  verackReceived : Bool

def P2PConnection.new : P2PConnection := ⟨[],false,false⟩

section Code

variable {Tx Rate : Type} (sha256d : Bytes → Hash32) (writeError : Bytes → Option String)

/-- The connection says, by what it has taken before, whether a write fails. -/
def P2PConnection.sendMessage (command : String) (payload : Bytes) (conn : P2PConnection) :
    Except Fault P2PConnection := do
  let msg ← encodeMessage sha256d command payload
  match writeError conn.written with
  | some e => .error (.message e)
  | none => return { conn with written := conn.written ++ msg }

/-- The arms of the first loop. -/
def P2PConnection.greet (message : WireMessage) (conn : P2PConnection) : Except Fault P2PConnection :=
  if message.command = "version" then
    { conn with versionReceived := true }.sendMessage sha256d writeError "verack" []
  else if message.command = "verack" then .ok { conn with verackReceived := true }
  else .ok conn

def P2PConnection.handshake (stream : Bytes) (conn : P2PConnection) :
    Except Fault (P2PConnection × Bytes) :=
  if conn.versionReceived ∧ conn.verackReceived then .ok (conn,stream)
  else
    match _hread : receiveWire.run stream with
    | .error e => .error e
    | .ok (message,rest) =>
      match conn.greet sha256d writeError message with
      | .error e => .error e
      | .ok conn => conn.handshake rest
termination_by stream.length
decreasing_by exact receiveWire_shorter _hread

variable (codec : ConsensusCodec) (reader : TxReader Tx Rate) (deserialize : Bytes → Except String Tx)
  (encodeInventory : List Inventory → Bytes)

/-- The request that an `inv` message leads to is sent before the next message is read. -/
def P2PConnection.request (s : PeerState Tx Rate) (conn : P2PConnection) :
    PeerMessage Tx → Except Fault P2PConnection
  | .inv payload => do
    match ← handleInv codec (isHeld s.txs) payload with
    | none => return conn
    | some items => conn.sendMessage sha256d writeError "getdata" (encodeInventory items)
  | .tx _ => return conn

/-- The message that is not skipped, if it is one. -/
def peerMessage (message : WireMessage) : Except Fault (Option (PeerMessage Tx)) :=
  if message.command = "inv" then .ok (some (.inv message.payload))
  else if message.command = "tx" then
    match deserialize message.payload with
    | .error text => .error (.message text)
    | .ok tx => .ok (some (.tx tx))
  else .ok none

/-- What the second loop does with a message: it is left, or goes on. The clock says, after each message
that is not skipped, whether the time is over. -/
def P2PConnection.takeMessage (clock : Nat → Except Fault Bool) (handled : Nat) (message : WireMessage)
    (s : PeerState Tx Rate) (conn : P2PConnection) :
    Pool Tx Rate × Except Fault P2PConnection ⊕ Nat × PeerState Tx Rate × P2PConnection :=
  match peerMessage deserialize message with
  | .error e => .inl (s.txs,.error e)
  | .ok none => .inr (handled,s,conn)
  | .ok (some message) =>
    match conn.request sha256d writeError codec encodeInventory s message,
      receiveMessage codec reader s message with
    | .error e, _ => .inl (s.txs,.error e)
    | .ok _, .error e => .inl (s.txs,.error e)
    | .ok conn, .ok s =>
      if s.newTxs = [] then .inl (s.txs,.ok conn)
      else
        match clock handled with
        | .error e => .inl (s.txs,.error e)
        | .ok true => .inl (s.txs,.ok conn)
        | .ok false => .inr (handled+1,s,conn)

def P2PConnection.readMessages (clock : Nat → Except Fault Bool) (handled : Nat) (stream : Bytes)
    (s : PeerState Tx Rate) (conn : P2PConnection) : Pool Tx Rate × Except Fault P2PConnection :=
  match _hread : receiveWire.run stream with
  | .error e => (s.txs,.error e)
  | .ok (message,rest) =>
    match conn.takeMessage sha256d writeError codec reader deserialize encodeInventory clock handled
      message s with
    | .inl result => result
    | .inr (handled,s,conn) => conn.readMessages clock handled rest s
termination_by stream.length
decreasing_by exact receiveWire_shorter _hread

/-- A session with a peer that sends the stream. The version message holds the time and a random number. -/
def updateMempoolOver (order : KV.VisitOrder Txid (MempoolTxInfo Tx Rate))
    (clock : Nat → Except Fault Bool) (versionPayload stream : Bytes) (txs : Pool Tx Rate) :
    Pool Tx Rate × Except Fault P2PConnection :=
  match (do
    let conn ← P2PConnection.new.sendMessage sha256d writeError "version" versionPayload
    let (conn,rest) ← conn.handshake sha256d writeError stream
    let conn ← conn.sendMessage sha256d writeError "mempool" []
    return (conn,rest)) with
  | .error e => (txs,.error e)
  | .ok (conn,rest) =>
    match conn.readMessages sha256d writeError codec reader deserialize encodeInventory clock 0 rest
      ⟨txs,[]⟩ with
    | (txs,.error e) => (txs,.error e)
    | (txs,.ok conn) => (((order.visit txs).map Prod.fst).foldl (relateTransaction reader) txs,.ok conn)

end Code

/-- No write fails. -/
def allWritten : Bytes → Option String := fun _ => none

section Frames

/-- A message that its header can announce. -/
structure WireMessage.Proper (message : WireMessage) : Prop where
  short : (asBytes message.command).length ≤ 12
  trimmed : trimZeros message.command = message.command
  small : message.payload.length < 2^32

/-- A message on the wire. -/
structure Frame where
  magic : Vector UInt8 4
  checksum : Vector UInt8 4
  message : WireMessage

def Frame.bytes (frame : Frame) : Bytes :=
  frame.magic.toList ++ paddedCommand frame.message.command ++ u32le frame.message.payload.length ++
    frame.checksum.toList ++ frame.message.payload

/-- Zeros at the end do not show. -/
theorem trimZeros_padded (s : String) (n : Nat) :
    trimZeros (s ++ String.ofList (List.replicate n (Char.ofNat 0))) = trimZeros s := by
  have hzeros : (List.replicate n (Char.ofNat 0)).dropWhile isZero = [] := by
    rw [List.dropWhile_replicate, if_pos (by decide)]
  have hlist : (s ++ String.ofList (List.replicate n (Char.ofNat 0))).toList =
      s.toList ++ List.replicate n (Char.ofNat 0) := by simp
  rw [trimZeros, trimZeros, hlist, List.dropWhile_append, hzeros]
  split_ifs with hnil
  · rw [List.isEmpty_iff.mp hnil]
  · rw [List.reverse_append, List.reverse_replicate, List.dropWhile_append, hzeros]
    simp

theorem paddedCommand_eq (command : String) : paddedCommand command = asBytes (command ++
    String.ofList (List.replicate (12-(asBytes command).length) (Char.ofNat 0))) := by
  have hzeros : ∀ n, asBytes (String.ofList (List.replicate n (Char.ofNat 0))) = List.replicate n 0 := by
    intro n
    have hzero : String.utf8EncodeChar (Char.ofNat 0) = [0] := by decide
    rw [asBytes, String.toList_ofList, utf8, List.flatMap_replicate, hzero]
    simp
  rw [asBytes_append, hzeros, paddedCommand]

theorem paddedCommand_length {command : String} (h : (asBytes command).length ≤ 12) :
    (paddedCommand command).length = 12 := by
  rw [paddedCommand, List.length_append, List.length_replicate]
  omega

/-- A frame is read back, whatever its magic value and its checksum. -/
theorem Reads.frame (frame : Frame) (h : frame.message.Proper) :
    receiveWire.Reads frame.bytes frame.message := by
  obtain ⟨header,hheader⟩ : ∃ header, header = frame.magic.toList ++
    (paddedCommand frame.message.command ++ (u32le frame.message.payload.length ++
      frame.checksum.toList)) := ⟨_,rfl⟩
  have hlen : header.length = 24 := by simp [hheader, paddedCommand_length h.short]
  have hcommand : (header.drop 4).take 12 = paddedCommand frame.message.command := by
    rw [hheader, List.drop_left' (by simp), List.take_left' (paddedCommand_length h.short)]
  have hsize : (header.drop 16).take 4 = u32le frame.message.payload.length := by
    rw [hheader, ← List.append_assoc, List.drop_left' (by simp [paddedCommand_length h.short]),
      List.take_left' (by simp)]
  have hbytes : frame.bytes = header ++ frame.message.payload := by
    simp only [hheader, Frame.bytes, List.append_assoc]
  rw [hbytes, receiveWire]
  apply (Reads.takeN hlen).bind
  rw [hcommand, hsize, paddedCommand_eq, fromUtf8_asBytes, u32le_eq_toLE, ofLE_toLE h.small]
  dsimp only
  rw [trimZeros_padded, h.trimmed]
  exact (Reads.takeN rfl).bind_pure

/-- What is written is a frame, with the size cut to its place. -/
theorem encodeMessage_frame (sha256d : Bytes → Hash32) {message : WireMessage} (h : message.Proper) :
    ∃ frame : Frame, frame.message = message ∧
      encodeMessage sha256d message.command message.payload = .ok frame.bytes := by
  refine ⟨⟨⟨MAGIC.toArray,rfl⟩,⟨((sha256d message.payload).toList.take 4).toArray,by simp⟩,message⟩,rfl,?_⟩
  rw [encodeMessage, if_pos h.short, Nat.mod_eq_of_lt h.small]
  rfl

end Frames

section Messages

variable {Tx Rate : Type} {sha256d : Bytes → Hash32} {codec : ConsensusCodec} {reader : TxReader Tx Rate}
  {deserialize : Bytes → Except String Tx} {encodeInventory : List Inventory → Bytes}
  {clock : Nat → Except Fault Bool} {written : Bytes} {writeError : Bytes → Option String}

/-- A version and a verack are among the messages. -/
def Greeted (messages : List WireMessage) : Prop :=
  "version" ∈ messages.map WireMessage.command ∧ "verack" ∈ messages.map WireMessage.command

/-- The messages that a session takes in after the handshake, and whether it ends by the clock rather
than by an error. -/
def hear (deserialize : Bytes → Except String Tx) (clock : Nat → Except Fault Bool) :
    Nat → List WireMessage → List (PeerMessage Tx) × Bool
  | _, [] => ([],false)
  | handled, message::messages =>
    match peerMessage deserialize message with
    | .error _ => ([],false)
    | .ok none => hear deserialize clock handled messages
    | .ok (some message) =>
      match clock handled with
      | .error _ => ([message],false)
      | .ok true => ([message],true)
      | .ok false =>
        let heard := hear deserialize clock (handled+1) messages
        (message::heard.1,heard.2)

/-- A message of the service without a payload. -/
def emptyMessage (sha256d : Bytes → Hash32) (command : String) : Bytes :=
  MAGIC ++ paddedCommand command ++ u32le 0 ++ (sha256d []).toList.take 4

theorem sendMessage_empty {command : String} (h : (asBytes command).length ≤ 12) (conn : P2PConnection) :
    conn.sendMessage sha256d allWritten command [] =
      .ok { conn with written := conn.written ++ emptyMessage sha256d command } := by
  rw [P2PConnection.sendMessage, encodeMessage, if_pos h]
  show Except.ok { conn with written := conn.written ++ (_ ++ []) } = _
  rw [List.append_nil]
  rfl

/-- The connection after a message of the handshake. -/
def P2PConnection.after (sha256d : Bytes → Hash32) (conn : P2PConnection) (message : WireMessage) :
    P2PConnection where
  written := conn.written ++
    if message.command = "version" then emptyMessage sha256d "verack" else []
  versionReceived := conn.versionReceived || message.command = "version"
  verackReceived := conn.verackReceived || message.command = "verack"

theorem greet_eq (message : WireMessage) (conn : P2PConnection) :
    conn.greet sha256d allWritten message = .ok (conn.after sha256d message) := by
  rw [P2PConnection.greet, P2PConnection.after]
  by_cases hversion : message.command = "version"
  · have hverack : message.command ≠ "verack" := by
      rw [hversion]
      decide
    rw [if_pos hversion, sendMessage_empty (by decide)]
    simp [hversion]
  · rw [if_neg hversion]
    by_cases hverack : message.command = "verack" <;> simp [hverack, hversion]

theorem after_foldl (messages : List WireMessage) (conn : P2PConnection) :
    messages.foldl (P2PConnection.after sha256d) conn =
      { written := conn.written ++ (List.replicate
          ((messages.map WireMessage.command).count "version") (emptyMessage sha256d "verack")).flatten
        versionReceived := conn.versionReceived || "version" ∈ messages.map WireMessage.command
        verackReceived := conn.verackReceived || "verack" ∈ messages.map WireMessage.command } := by
  induction messages generalizing conn with
  | nil => simp
  | cons message messages ih =>
    rw [List.foldl_cons, ih, P2PConnection.after, List.map_cons, List.count_cons]
    by_cases hversion : message.command = "version"
    · simp [hversion, List.replicate_succ]
    · simp [hversion, @eq_comm _ "version", @eq_comm _ "verack", Bool.or_assoc]

/-- Both greetings have come. -/
abbrev P2PConnection.Done (conn : P2PConnection) : Prop := conn.versionReceived ∧ conn.verackReceived

theorem done_after_iff (messages : List WireMessage) :
    (messages.foldl (P2PConnection.after sha256d) ⟨written,false,false⟩).Done ↔ Greeted messages := by
  rw [after_foldl, P2PConnection.Done, Greeted]
  simp

theorem Greeted.mono {messages messages' : List WireMessage} (h : Greeted messages)
    (hsub : messages ⊆ messages') : Greeted messages' :=
  ⟨List.map_subset _ hsub h.1,List.map_subset _ hsub h.2⟩

theorem handshake_done {conn : P2PConnection} (h : conn.Done) (stream : Bytes) :
    conn.handshake sha256d writeError stream = .ok (conn,stream) := by
  rw [P2PConnection.handshake, if_pos h]

theorem handshake_next {conn : P2PConnection} (h : ¬conn.Done) {frame : Frame}
    (hproper : frame.message.Proper) (rest : Bytes) :
    conn.handshake sha256d writeError (frame.bytes ++ rest) =
      match conn.greet sha256d writeError frame.message with
      | .error e => .error e
      | .ok conn => conn.handshake sha256d writeError rest := by
  rw [P2PConnection.handshake, if_neg h]
  split
  · rename_i hread
    rw [Reads.frame frame hproper] at hread
    cases hread
  · rename_i hread
    rw [Reads.frame frame hproper] at hread
    cases hread
    rfl

theorem handshake_frame {conn : P2PConnection} (h : ¬conn.Done) {frame : Frame}
    (hproper : frame.message.Proper) (rest : Bytes) :
    conn.handshake sha256d allWritten (frame.bytes ++ rest) =
      (conn.after sha256d frame.message).handshake sha256d allWritten rest := by
  rw [handshake_next h hproper, greet_eq]

theorem handshake_error {conn : P2PConnection} (h : ¬conn.Done) {stream : Bytes} {e : Fault}
    (hread : receiveWire.run stream = .error e) :
    conn.handshake sha256d writeError stream = .error e := by
  rw [P2PConnection.handshake, if_neg h]
  split
  · rename_i hread'
    rw [hread] at hread'
    cases hread'
    rfl
  · rename_i hread'
    rw [hread] at hread'
    cases hread'

/-- The messages before the one that completes the handshake are all gone through. -/
theorem handshake_frames (sha256d : Bytes → Hash32) {frames : List Frame}
    (hproper : ∀ frame ∈ frames, frame.message.Proper)
    (messages : List WireMessage) (hwaiting : ¬Greeted (messages ++ frames.map Frame.message))
    (rest written : Bytes) :
    (messages.foldl (P2PConnection.after sha256d) ⟨written,false,false⟩).handshake sha256d allWritten
        (frames.flatMap Frame.bytes ++ rest) =
      ((messages ++ frames.map Frame.message).foldl (P2PConnection.after sha256d)
        ⟨written,false,false⟩).handshake sha256d allWritten rest := by
  induction frames generalizing messages with
  | nil => simp
  | cons frame frames ih =>
    have hstart : ¬(messages.foldl (P2PConnection.after sha256d) ⟨written,false,false⟩).Done := by
      intro hdone
      exact hwaiting (((done_after_iff messages).mp hdone).mono (List.subset_append_left _ _))
    have hsplit : messages ++ (frame::frames).map Frame.message =
        (messages ++ [frame.message]) ++ frames.map Frame.message := by simp
    rw [hsplit] at hwaiting ⊢
    rw [List.flatMap_cons, List.append_assoc, handshake_frame hstart (hproper frame List.mem_cons_self),
      ← ih (fun f hf => hproper f (List.mem_cons_of_mem _ hf)) _ hwaiting, List.foldl_concat]

/-- Nothing but requests for something is written. -/
def OnlyRequests (sha256d : Bytes → Hash32) (encodeInventory : List Inventory → Bytes)
    (conn conn' : P2PConnection) : Prop :=
  ∃ requests : List Bytes, conn'.written = conn.written ++ requests.flatten ∧ ∀ request ∈ requests,
    ∃ items, items ≠ [] ∧ encodeMessage sha256d "getdata" (encodeInventory items) = .ok request

theorem OnlyRequests.refl (conn : P2PConnection) : OnlyRequests sha256d encodeInventory conn conn :=
  ⟨[],by simp,by simp⟩

theorem OnlyRequests.trans {conn conn' conn'' : P2PConnection}
    (h : OnlyRequests sha256d encodeInventory conn conn')
    (h' : OnlyRequests sha256d encodeInventory conn' conn'') :
    OnlyRequests sha256d encodeInventory conn conn'' := by
  obtain ⟨requests,hwritten,hall⟩ := h
  obtain ⟨requests',hwritten',hall'⟩ := h'
  refine ⟨requests ++ requests',?_,?_⟩
  · rw [hwritten', hwritten, List.flatten_append, List.append_assoc]
  · intro request hmem
    rcases List.mem_append.mp hmem with hmem | hmem
    · exact hall request hmem
    · exact hall' request hmem

theorem handleInv_ne_nil {held : Txid → Bool} {payload : Bytes} {items : List Inventory}
    (h : handleInv codec held payload = .ok (some items)) : items ≠ [] := by
  rw [handleInv] at h
  obtain ⟨count,_,h⟩ := exists_of_bind_ok h
  obtain ⟨getdataItems,_,h⟩ := exists_of_bind_ok h
  have hrequest : (if getdataItems = [] then none else some getdataItems) = some items :=
    Except.ok.inj h
  by_cases hnil : getdataItems = []
  · rw [if_pos hnil] at hrequest
    cases hrequest
  · rw [if_neg hnil] at hrequest
    cases hrequest
    exact hnil

/-- A message that is received has been answered before. -/
theorem request_ok {s s' : PeerState Tx Rate} {message : PeerMessage Tx} (conn : P2PConnection)
    (h : receiveMessage codec reader s message = .ok s') :
    ∃ conn', conn.request sha256d allWritten codec encodeInventory s message = .ok conn' ∧
      OnlyRequests sha256d encodeInventory conn conn' := by
  cases message with
  | tx tx => exact ⟨conn,rfl,.refl conn⟩
  | inv payload =>
    obtain ⟨request,hrequest,_⟩ := exists_of_bind_ok h
    rw [P2PConnection.request, hrequest]
    cases request with
    | none => exact ⟨conn,rfl,.refl conn⟩
    | some items =>
      obtain ⟨msg,hmsg⟩ : ∃ msg, encodeMessage sha256d "getdata" (encodeInventory items) = .ok msg :=
        ⟨_,if_pos (by decide)⟩
      refine ⟨{ conn with written := conn.written ++ msg },?_,[msg],by simp,?_⟩
      · show conn.sendMessage sha256d allWritten "getdata" (encodeInventory items) = _
        rw [P2PConnection.sendMessage, hmsg]
        rfl
      · intro request hmem
        rw [List.mem_singleton.mp hmem]
        exact ⟨items,handleInv_ne_nil hrequest,hmsg⟩

/-- The map of a session and how it ends, against what the messages alone lead to. -/
structure Agrees (sha256d : Bytes → Hash32) (encodeInventory : List Inventory → Bytes)
    (conn : P2PConnection) (result : Pool Tx Rate × Except Fault P2PConnection)
    (heard : Pool Tx Rate × Bool) : Prop where
  txs : result.1 = heard.1
  ends : (∃ conn', result.2 = .ok conn') ↔ heard.2 = true
  requests : ∀ conn', result.2 = .ok conn' → OnlyRequests sha256d encodeInventory conn conn'

theorem Agrees.error (conn : P2PConnection) (txs : Pool Tx Rate) (e : Fault) :
    Agrees sha256d encodeInventory conn (txs,.error e) (txs,false) := ⟨rfl,by simp,by simp⟩

theorem Agrees.left {conn conn' : P2PConnection} (txs : Pool Tx Rate)
    (h : OnlyRequests sha256d encodeInventory conn conn') :
    Agrees sha256d encodeInventory conn (txs,.ok conn') (txs,true) := ⟨rfl,by simp,by simpa using h⟩

theorem Agrees.later {conn conn' : P2PConnection} {result : Pool Tx Rate × Except Fault P2PConnection}
    {heard : Pool Tx Rate × Bool} (h : Agrees sha256d encodeInventory conn' result heard)
    (hconn : OnlyRequests sha256d encodeInventory conn conn') :
    Agrees sha256d encodeInventory conn result heard :=
  ⟨h.txs,h.ends,fun conn'' hresult => hconn.trans (h.requests conn'' hresult)⟩

theorem readMessages_error {stream : Bytes} {e : Fault} (h : receiveWire.run stream = .error e)
    (handled : Nat) (s : PeerState Tx Rate) (conn : P2PConnection) :
    conn.readMessages sha256d writeError codec reader deserialize encodeInventory clock handled stream s =
      (s.txs,.error e) := by
  rw [P2PConnection.readMessages]
  split
  · rename_i hread
    rw [h] at hread
    cases hread
    rfl
  · rename_i hread
    rw [h] at hread
    cases hread

theorem readMessages_left {frame : Frame} (hproper : frame.message.Proper) {rest : Bytes} {handled : Nat}
    {s : PeerState Tx Rate} {conn : P2PConnection} {result : Pool Tx Rate × Except Fault P2PConnection}
    (h : conn.takeMessage sha256d writeError codec reader deserialize encodeInventory clock handled
      frame.message s = .inl result) :
    conn.readMessages sha256d writeError codec reader deserialize encodeInventory clock handled
      (frame.bytes ++ rest) s = result := by
  rw [P2PConnection.readMessages]
  split
  · rename_i hread
    rw [Reads.frame frame hproper] at hread
    cases hread
  · rename_i hread
    rw [Reads.frame frame hproper] at hread
    cases hread
    rw [h]

theorem readMessages_next {frame : Frame} (hproper : frame.message.Proper) {rest : Bytes}
    {handled handled' : Nat} {s s' : PeerState Tx Rate} {conn conn' : P2PConnection}
    (h : conn.takeMessage sha256d writeError codec reader deserialize encodeInventory clock handled
      frame.message s = .inr (handled',s',conn')) :
    conn.readMessages sha256d writeError codec reader deserialize encodeInventory clock handled
        (frame.bytes ++ rest) s =
      conn'.readMessages sha256d writeError codec reader deserialize encodeInventory clock handled' rest s' := by
  rw [P2PConnection.readMessages]
  split
  · rename_i hread
    rw [Reads.frame frame hproper] at hread
    cases hread
  · rename_i hread
    rw [Reads.frame frame hproper] at hread
    cases hread
    rw [h]

theorem hear_cons {message : WireMessage} {m : PeerMessage Tx}
    (h : peerMessage deserialize message = .ok (some m)) (clock : Nat → Except Fault Bool)
    (handled : Nat) (messages : List WireMessage) :
    ∃ heard, hear deserialize clock handled (message::messages) = (m::heard.1,heard.2) ∧
      (∀ e, clock handled = .error e → heard = ([],false)) ∧
      (clock handled = .ok true → heard = ([],true)) ∧
      (clock handled = .ok false → heard = hear deserialize clock (handled+1) messages) := by
  rw [hear, h]
  dsimp only
  rcases clock handled with e | _ | _
  · exact ⟨([],false),rfl,by simp,by simp,by simp⟩
  · exact ⟨hear deserialize clock (handled+1) messages,rfl,by simp,by simp,by simp⟩
  · exact ⟨([],true),rfl,by simp,by simp,by simp⟩

section Received

variable {s s' : PeerState Tx Rate} {message : PeerMessage Tx}

theorem receiveMessages_failed {e : Fault} (h : receiveMessage codec reader s message = .error e)
    (timesOut : Bool) (messages : List (PeerMessage Tx)) :
    receiveMessages codec reader timesOut (message::messages) s = (s.txs,false) := by
  rw [receiveMessages, h]

theorem receiveMessages_last (h : receiveMessage codec reader s message = .ok s') (hnil : s'.newTxs = [])
    (timesOut : Bool) (messages : List (PeerMessage Tx)) :
    receiveMessages codec reader timesOut (message::messages) s = (s'.txs,true) := by
  rw [receiveMessages, h]
  exact if_pos hnil

theorem receiveMessages_more (h : receiveMessage codec reader s message = .ok s') (hne : s'.newTxs ≠ [])
    (timesOut : Bool) (messages : List (PeerMessage Tx)) :
    receiveMessages codec reader timesOut (message::messages) s =
      receiveMessages codec reader timesOut messages s' := by
  rw [receiveMessages, h]
  exact if_neg hne

/-- A message that does not go through ends the session, whether or not its request could be sent. -/
theorem takeMessage_failed (sha256d : Bytes → Hash32) {wire : WireMessage}
    (hmessage : peerMessage deserialize wire = .ok (some message)) {e : Fault} (h : receiveMessage codec reader s message = .error e) (handled : Nat)
    (conn : P2PConnection) : ∃ e', conn.takeMessage sha256d allWritten codec reader deserialize
      encodeInventory clock handled wire s = .inl (s.txs,.error e') := by
  rw [P2PConnection.takeMessage, hmessage]
  dsimp only
  rw [h]
  cases conn.request sha256d allWritten codec encodeInventory s message with
  | error e' => exact ⟨e',rfl⟩
  | ok conn' => exact ⟨e,rfl⟩

theorem takeMessage_received {wire : WireMessage}
    (hmessage : peerMessage deserialize wire = .ok (some message))
    (h : receiveMessage codec reader s message = .ok s') (clock : Nat → Except Fault Bool)
    (handled : Nat) {conn conn' : P2PConnection}
    (hrequest : conn.request sha256d allWritten codec encodeInventory s message = .ok conn') :
    conn.takeMessage sha256d allWritten codec reader deserialize encodeInventory clock handled wire s =
      if s'.newTxs = [] then .inl (s'.txs,.ok conn')
      else
        match clock handled with
        | .error e => .inl (s'.txs,.error e)
        | .ok true => .inl (s'.txs,.ok conn')
        | .ok false => .inr (handled+1,s',conn') := by
  rw [P2PConnection.takeMessage, hmessage]
  dsimp only
  rw [hrequest, h]

end Received

/-- The second loop over a stream of frames does what it does with their messages. -/
theorem readMessages_frames {frames : List Frame} (hproper : ∀ frame ∈ frames, frame.message.Proper)
    {tail : Bytes} {e : Fault} (htail : receiveWire.run tail = .error e) (handled : Nat)
    (s : PeerState Tx Rate) (conn : P2PConnection) :
    Agrees sha256d encodeInventory conn
      (conn.readMessages sha256d allWritten codec reader deserialize encodeInventory clock handled
        (frames.flatMap Frame.bytes ++ tail) s)
      (receiveMessages codec reader (hear deserialize clock handled (frames.map Frame.message)).2
        (hear deserialize clock handled (frames.map Frame.message)).1 s) := by
  induction frames generalizing handled s conn with
  | nil =>
    rw [List.flatMap_nil, List.nil_append, readMessages_error htail]
    exact .error conn s.txs e
  | cons frame frames ih =>
    have ih := ih fun f hf => hproper f (List.mem_cons_of_mem _ hf)
    have hframe := hproper frame List.mem_cons_self
    rw [List.flatMap_cons, List.append_assoc, List.map_cons]
    cases hmessage : peerMessage deserialize frame.message with
    | error e' =>
      rw [hear, hmessage, readMessages_left hframe (by rw [P2PConnection.takeMessage, hmessage])]
      exact .error conn s.txs e'
    | ok message =>
      cases message with
      | none =>
        rw [hear, hmessage, readMessages_next hframe (by rw [P2PConnection.takeMessage, hmessage])]
        exact ih handled s conn
      | some message =>
        obtain ⟨heard,hheard,hbroken,hover,hmore⟩ :=
          hear_cons hmessage clock handled (frames.map Frame.message)
        rw [hheard]
        cases hreceive : receiveMessage codec reader s message with
        | error e' =>
          obtain ⟨e'',htake⟩ := takeMessage_failed sha256d hmessage hreceive handled conn
          rw [readMessages_left hframe htake, receiveMessages_failed hreceive]
          exact .error conn s.txs e''
        | ok s' =>
          obtain ⟨conn',hrequest,honly⟩ := request_ok conn hreceive
          have htake := takeMessage_received hmessage hreceive clock handled hrequest
          by_cases hnil : s'.newTxs = []
          · rw [if_pos hnil] at htake
            rw [readMessages_left hframe htake, receiveMessages_last hreceive hnil]
            exact .left s'.txs honly
          · rw [if_neg hnil] at htake
            rw [receiveMessages_more hreceive hnil]
            rcases hclock : clock handled with e' | _ | _
            · rw [hclock] at htake
              rw [readMessages_left hframe htake, hbroken e' hclock]
              exact .error conn s'.txs e'
            · rw [hclock] at htake
              rw [readMessages_next hframe htake, hmore hclock]
              exact (ih (handled+1) s' conn').later honly
            · rw [hclock] at htake
              rw [readMessages_left hframe htake, hover hclock]
              exact .left s'.txs honly

section Failing

/-- A write fails with what an action ends with. -/
def FailsWith (writeError : Bytes → Option String) (e : Fault) : Prop :=
  ∃ written text, writeError written = some text ∧ e = .message text

theorem sendMessage_cases (sha256d : Bytes → Hash32) (writeError : Bytes → Option String)
    (command : String) (payload : Bytes) (conn : P2PConnection) :
    conn.sendMessage sha256d writeError command payload =
        conn.sendMessage sha256d allWritten command payload ∨
      ∃ e, FailsWith writeError e ∧ conn.sendMessage sha256d writeError command payload = .error e := by
  rw [P2PConnection.sendMessage, P2PConnection.sendMessage]
  cases encodeMessage sha256d command payload with
  | error e => exact .inl rfl
  | ok msg =>
    cases hwrite : writeError conn.written with
    | none => exact .inl rfl
    | some text => exact .inr ⟨.message text,⟨_,text,hwrite,rfl⟩,rfl⟩

theorem greet_cases (writeError : Bytes → Option String) (message : WireMessage) (conn : P2PConnection) :
    conn.greet sha256d writeError message = .ok (conn.after sha256d message) ∨
      ∃ e, FailsWith writeError e ∧ conn.greet sha256d writeError message = .error e := by
  rw [← greet_eq, P2PConnection.greet, P2PConnection.greet]
  split_ifs
  · exact sendMessage_cases sha256d writeError "verack" [] _
  · exact .inl rfl
  · exact .inl rfl

/-- The handshake over a stream of frames: a write fails, or it waits in vain, or it is done after some of
the frames, whatever follows them. -/
theorem handshake_cases (sha256d : Bytes → Hash32) (writeError : Bytes → Option String) {frames : List Frame}
    (hproper : ∀ frame ∈ frames, frame.message.Proper) {tail : Bytes} {e : Fault}
    (htail : receiveWire.run tail = .error e) (conn : P2PConnection) :
    (∃ e', FailsWith writeError e' ∧
      conn.handshake sha256d writeError (frames.flatMap Frame.bytes ++ tail) = .error e') ∨
    (∀ wire, wire = writeError ∨ wire = allWritten →
      conn.handshake sha256d wire (frames.flatMap Frame.bytes ++ tail) = .error e) ∨
    ∃ before after conn', frames = before ++ after ∧
      ∀ wire, wire = writeError ∨ wire = allWritten → ∀ rest,
        conn.handshake sha256d wire (before.flatMap Frame.bytes ++ rest) = .ok (conn',rest) := by
  induction frames generalizing conn with
  | nil =>
    by_cases hdone : conn.Done
    · exact .inr (.inr ⟨[],[],conn,rfl,fun _ _ _ => handshake_done hdone _⟩)
    · exact .inr (.inl fun _ _ => handshake_error hdone htail)
  | cons frame frames ih =>
    by_cases hdone : conn.Done
    · exact .inr (.inr ⟨[],frame::frames,conn,rfl,fun _ _ _ => handshake_done hdone _⟩)
    have hframe := hproper frame List.mem_cons_self
    have hnext : ∀ rest, conn.handshake sha256d writeError (frame.bytes ++ rest) = _ := fun rest =>
      handshake_next hdone hframe rest
    rcases greet_cases writeError frame.message conn with hgreet | ⟨e',hfails,hgreet⟩
    · have hstep : ∀ wire, wire = writeError ∨ wire = allWritten → ∀ rest,
          conn.handshake sha256d wire (frame.bytes ++ rest) =
            (conn.after sha256d frame.message).handshake sha256d wire rest := by
        rintro wire (rfl | rfl) rest
        · rw [hnext, hgreet]
        · exact handshake_frame hdone hframe rest
      simp only [List.flatMap_cons, List.append_assoc]
      rcases ih (fun f hf => hproper f (List.mem_cons_of_mem _ hf)) (conn.after sha256d frame.message) with
        ⟨e',hfails,herror⟩ | hwaits | ⟨before,after,conn',hsplit,hdone'⟩
      · exact .inl ⟨e',hfails,(hstep _ (.inl rfl) _).trans herror⟩
      · exact .inr (.inl fun wire hwire => (hstep wire hwire _).trans (hwaits wire hwire))
      · refine .inr (.inr ⟨frame::before,after,conn',by rw [hsplit]; rfl,fun wire hwire rest => ?_⟩)
        rw [List.flatMap_cons, List.append_assoc, hstep wire hwire]
        exact hdone' wire hwire rest
    · left
      refine ⟨e',hfails,?_⟩
      rw [List.flatMap_cons, List.append_assoc, hnext, hgreet]

theorem takeMessage_cases (writeError : Bytes → Option String) (handled : Nat) (message : WireMessage)
    (s : PeerState Tx Rate) (conn : P2PConnection) :
    conn.takeMessage sha256d writeError codec reader deserialize encodeInventory clock handled message s =
        conn.takeMessage sha256d allWritten codec reader deserialize encodeInventory clock handled message s ∨
      ∃ e, FailsWith writeError e ∧ conn.takeMessage sha256d writeError codec reader deserialize
        encodeInventory clock handled message s = .inl (s.txs,.error e) := by
  rw [P2PConnection.takeMessage, P2PConnection.takeMessage]
  cases peerMessage deserialize message with
  | error e => exact .inl rfl
  | ok known =>
    cases known with
    | none => exact .inl rfl
    | some message =>
      have hrequest : conn.request sha256d writeError codec encodeInventory s message =
          conn.request sha256d allWritten codec encodeInventory s message ∨
          ∃ e, FailsWith writeError e ∧
            conn.request sha256d writeError codec encodeInventory s message = .error e := by
        cases message with
        | tx tx => exact .inl rfl
        | inv payload =>
          rw [P2PConnection.request, P2PConnection.request]
          cases handleInv codec (isHeld s.txs) payload with
          | error e => exact .inl rfl
          | ok request =>
            cases request with
            | none => exact .inl rfl
            | some items => exact sendMessage_cases sha256d writeError "getdata" _ conn
      dsimp only
      rcases hrequest with hsame | ⟨e,hfails,herror⟩
      · rw [hsame]
        exact .inl rfl
      · rw [herror]
        exact .inr ⟨e,hfails,rfl⟩

variable (sha256d codec reader deserialize encodeInventory clock) in
/-- When a write fails in the second loop, the map is left as a peer leaves it that has stopped before the
message that could not be answered. -/
theorem readMessages_cases (writeError : Bytes → Option String) {frames : List Frame}
    (hproper : ∀ frame ∈ frames, frame.message.Proper) {tail : Bytes} {e : Fault}
    (htail : receiveWire.run tail = .error e) (handled : Nat) (s : PeerState Tx Rate)
    (conn : P2PConnection) :
    conn.readMessages sha256d writeError codec reader deserialize encodeInventory clock handled
        (frames.flatMap Frame.bytes ++ tail) s =
      conn.readMessages sha256d allWritten codec reader deserialize encodeInventory clock handled
        (frames.flatMap Frame.bytes ++ tail) s ∨
    ∃ n txs e' e'', FailsWith writeError e' ∧
      conn.readMessages sha256d writeError codec reader deserialize encodeInventory clock handled
        (frames.flatMap Frame.bytes ++ tail) s = (txs,.error e') ∧
      conn.readMessages sha256d allWritten codec reader deserialize encodeInventory clock handled
        ((frames.take n).flatMap Frame.bytes) s = (txs,.error e'') := by
  have hnil : receiveWire.run [] = .error (.message "early eof") :=
    run_bind_error (run_takeN_short (by decide))
  induction frames generalizing handled s conn with
  | nil =>
    left
    rw [List.flatMap_nil, List.nil_append, readMessages_error htail, readMessages_error htail]
  | cons frame frames ih =>
    have hframe := hproper frame List.mem_cons_self
    have ih := ih fun f hf => hproper f (List.mem_cons_of_mem _ hf)
    rw [List.flatMap_cons, List.append_assoc]
    rcases takeMessage_cases writeError handled frame.message s conn with hsame | ⟨e',hfails,htake⟩
    · rcases htake : conn.takeMessage sha256d allWritten codec reader deserialize encodeInventory clock
        handled frame.message s with result | ⟨handled',s',conn'⟩
      · left
        rw [readMessages_left hframe (hsame.trans htake), readMessages_left hframe htake]
      · rw [readMessages_next hframe (hsame.trans htake), readMessages_next hframe htake]
        rcases ih handled' s' conn' with hequal | ⟨n,txs,e',e'',hfails,herror,hcut⟩
        · exact .inl hequal
        · refine .inr ⟨n+1,txs,e',e'',hfails,herror,?_⟩
          rw [List.take_succ_cons, List.flatMap_cons, readMessages_next hframe htake]
          exact hcut
    · right
      refine ⟨0,s.txs,e',.message "early eof",hfails,readMessages_left hframe htake,?_⟩
      exact readMessages_error hnil handled s conn

end Failing

end Messages

section Sessions

variable {Tx Rate : Type} {sha256d : Bytes → Hash32} {codec : ConsensusCodec} {reader : TxReader Tx Rate}
  {deserialize : Bytes → Except String Tx} {encodeInventory : List Inventory → Bytes}
  {order : KV.VisitOrder Txid (MempoolTxInfo Tx Rate)} {clock : Nat → Except Fault Bool}
  {versionPayload version stream rest : Bytes}

theorem sendMessage_version (hversion : encodeMessage sha256d "version" versionPayload = .ok version) :
    P2PConnection.new.sendMessage sha256d allWritten "version" versionPayload = .ok ⟨version,false,false⟩ := by
  rw [P2PConnection.sendMessage, hversion]
  rfl

theorem updateMempoolOver_refused (hversion : encodeMessage sha256d "version" versionPayload = .ok version)
    {e : Fault} (h : P2PConnection.handshake sha256d allWritten stream ⟨version,false,false⟩ = .error e)
    (txs : Pool Tx Rate) : updateMempoolOver sha256d allWritten codec reader deserialize encodeInventory order clock
      versionPayload stream txs = (txs,.error e) := by
  rw [updateMempoolOver, sendMessage_version hversion]
  simp only [bind, Except.bind, h]

/-- After the handshake the session is its second loop. -/
theorem updateMempoolOver_greeted (hversion : encodeMessage sha256d "version" versionPayload = .ok version)
    {conn : P2PConnection}
    (h : P2PConnection.handshake sha256d allWritten stream ⟨version,false,false⟩ = .ok (conn,rest))
    (txs : Pool Tx Rate) {timesOut : Bool} {messages : List (PeerMessage Tx)}
    (hagrees : Agrees sha256d encodeInventory
      { conn with written := conn.written ++ emptyMessage sha256d "mempool" }
      (P2PConnection.readMessages sha256d allWritten codec reader deserialize encodeInventory clock 0
        rest ⟨txs,[]⟩ { conn with written := conn.written ++ emptyMessage sha256d "mempool" })
      (receiveMessages codec reader timesOut messages ⟨txs,[]⟩)) :
    (updateMempoolOver sha256d allWritten codec reader deserialize encodeInventory order clock versionPayload stream
        txs).1 = updateMempoolP2p codec reader order timesOut messages txs ∧
      ∀ conn', (updateMempoolOver sha256d allWritten codec reader deserialize encodeInventory order clock
        versionPayload stream txs).2 = .ok conn' → OnlyRequests sha256d encodeInventory
          { conn with written := conn.written ++ emptyMessage sha256d "mempool" } conn' := by
  obtain ⟨htxs,hends,hrequests⟩ := hagrees
  rw [updateMempoolOver, sendMessage_version hversion, updateMempoolP2p]
  simp only [bind, Except.bind, h, sendMessage_empty (show (asBytes "mempool").length ≤ 12 by decide),
    pure, Except.pure]
  cases hresult : P2PConnection.readMessages sha256d allWritten codec reader deserialize encodeInventory
      clock 0 rest ⟨txs,[]⟩ { conn with written := conn.written ++ emptyMessage sha256d "mempool" } with
  | mk left result =>
    cases hheard : receiveMessages codec reader timesOut messages ⟨txs,[]⟩ with
    | mk left' finished =>
      rw [hresult, hheard] at htxs hends
      rw [hresult] at hrequests
      obtain rfl : left = left' := htxs
      cases result with
      | error e =>
        obtain rfl : finished = false := by simpa using hends
        exact ⟨rfl,by simp⟩
      | ok conn' =>
        obtain rfl : finished = true := by simpa using hends
        exact ⟨rfl,hrequests⟩

/-- With the greetings exchanged and the request sent a session is its second loop. -/
theorem updateMempoolOver_open {wire : Bytes → Option String} {conn₁ conn₂ conn₃ : P2PConnection}
    (hfirst : P2PConnection.new.sendMessage sha256d wire "version" versionPayload = .ok conn₁)
    (hhands : conn₁.handshake sha256d wire stream = .ok (conn₂,rest))
    (hmempool : conn₂.sendMessage sha256d wire "mempool" [] = .ok conn₃) (txs : Pool Tx Rate) :
    updateMempoolOver sha256d wire codec reader deserialize encodeInventory order clock versionPayload stream
        txs =
      match conn₃.readMessages sha256d wire codec reader deserialize encodeInventory clock 0 rest
        ⟨txs,[]⟩ with
      | (txs,.error e) => (txs,.error e)
      | (txs,.ok conn) =>
        (((order.visit txs).map Prod.fst).foldl (relateTransaction reader) txs,.ok conn) := by
  rw [updateMempoolOver, hfirst]
  simp only [bind, Except.bind, hhands, hmempool, pure, Except.pure]

/-- A session whose writes may fail is the one whose writes do not, or it fails with a write and leaves the
map as a peer leaves it that has stopped earlier. -/
theorem updateMempoolOver_cases (writeError : Bytes → Option String) {frames : List Frame}
    (hproper : ∀ frame ∈ frames, frame.message.Proper) {tail : Bytes} {e : Fault}
    (htail : receiveWire.run tail = .error e) (txs : Pool Tx Rate)
    (hversion : encodeMessage sha256d "version" versionPayload = .ok version) :
    updateMempoolOver sha256d writeError codec reader deserialize encodeInventory order clock versionPayload
        (frames.flatMap Frame.bytes ++ tail) txs =
      updateMempoolOver sha256d allWritten codec reader deserialize encodeInventory order clock
        versionPayload (frames.flatMap Frame.bytes ++ tail) txs ∨
    ∃ n e', FailsWith writeError e' ∧
      updateMempoolOver sha256d writeError codec reader deserialize encodeInventory order clock
          versionPayload (frames.flatMap Frame.bytes ++ tail) txs =
        ((updateMempoolOver sha256d allWritten codec reader deserialize encodeInventory order clock
          versionPayload ((frames.take n).flatMap Frame.bytes) txs).1,.error e') := by
  have hnil : receiveWire.run [] = .error (.message "early eof") :=
    run_bind_error (run_takeN_short (by decide))
  -- a session that the peer closes at once leaves the map as it was
  have hclosed : (updateMempoolOver sha256d allWritten codec reader deserialize encodeInventory order clock
      versionPayload (([] : List Frame).flatMap Frame.bytes) txs).1 = txs := by
    rw [List.flatMap_nil, updateMempoolOver_refused hversion (handshake_error (by simp) hnil)]
  have hfailed : ∀ e', FailsWith writeError e' →
      updateMempoolOver sha256d writeError codec reader deserialize encodeInventory order clock
        versionPayload (frames.flatMap Frame.bytes ++ tail) txs = (txs,.error e') → ∃ n e',
      FailsWith writeError e' ∧ updateMempoolOver sha256d writeError codec reader deserialize encodeInventory
          order clock versionPayload (frames.flatMap Frame.bytes ++ tail) txs =
        ((updateMempoolOver sha256d allWritten codec reader deserialize encodeInventory order clock
          versionPayload ((frames.take n).flatMap Frame.bytes) txs).1,.error e') := by
    intro e' hfails hresult
    refine ⟨0,e',hfails,hresult.trans ?_⟩
    rw [List.take_zero, hclosed]
  have hfirst := sendMessage_version hversion
  rcases sendMessage_cases sha256d writeError "version" versionPayload P2PConnection.new with
    hsent | ⟨e',hfails,hsent⟩
  · rw [hfirst] at hsent
    rcases handshake_cases sha256d writeError hproper htail ⟨version,false,false⟩ with
      ⟨e',hfails,hhands⟩ | hhands | ⟨before,after,conn,hsplit,hhands⟩
    · refine .inr (hfailed e' hfails ?_)
      rw [updateMempoolOver, hsent]
      simp only [bind, Except.bind, hhands]
    · left
      rw [updateMempoolOver, updateMempoolOver, hsent, hfirst]
      simp only [bind, Except.bind, hhands _ (.inl rfl), hhands _ (.inr rfl)]
    · have hafter : ∀ frame ∈ after, frame.message.Proper := fun frame hmem =>
        hproper frame (by rw [hsplit]; exact List.mem_append_right _ hmem)
      rcases sendMessage_cases sha256d writeError "mempool" [] conn with
        hmempool | ⟨e',hfails,hmempool⟩
      · have hquiet : conn.sendMessage sha256d allWritten "mempool" [] =
            .ok { conn with written := conn.written ++ emptyMessage sha256d "mempool" } :=
          sendMessage_empty (by decide) conn
        rw [hquiet] at hmempool
        have hopen : ∀ rest, updateMempoolOver sha256d allWritten codec reader deserialize encodeInventory
            order clock versionPayload (before.flatMap Frame.bytes ++ rest) txs = _ := fun rest =>
          updateMempoolOver_open hfirst (hhands _ (.inr rfl) rest) hquiet txs
        have hstream : frames.flatMap Frame.bytes ++ tail =
            before.flatMap Frame.bytes ++ (after.flatMap Frame.bytes ++ tail) := by
          rw [hsplit, List.flatMap_append, List.append_assoc]
        rw [hstream, updateMempoolOver_open hsent (hhands _ (.inl rfl) _) hmempool, hopen]
        rcases readMessages_cases sha256d codec reader deserialize encodeInventory clock writeError hafter
          htail 0 ⟨txs,[]⟩ { conn with written := conn.written ++ emptyMessage sha256d "mempool" } with
          hsame | ⟨n,left,e',e'',hfails,hread,hcut⟩
        · rw [hsame]
          exact .inl rfl
        · refine .inr ⟨before.length+n,e',hfails,?_⟩
          rw [hsplit, List.take_length_add_append, List.flatMap_append, hopen, hread, hcut]
      · refine .inr (hfailed e' hfails ?_)
        rw [updateMempoolOver, hsent, hsplit, List.flatMap_append, List.append_assoc]
        simp only [bind, Except.bind, hhands _ (.inl rfl), hmempool]
  · refine .inr (hfailed e' hfails ?_)
    rw [updateMempoolOver, hsent]
    rfl

end Sessions

/-- A session over a stream of frames. Without both greetings nothing happens; with both, the map is left
as the messages after them lead to it, and in a session that ends well a verack is written for each
version up to there, then one `mempool` and requests alone. When a write fails, so does the session, and it
leaves the map as one whose peer has stopped earlier. -/
theorem session_follows_messages {Tx Rate : Type} (sha256d : Bytes → Hash32) (codec : ConsensusCodec)
    (reader : TxReader Tx Rate) (deserialize : Bytes → Except String Tx)
    (encodeInventory : List Inventory → Bytes) (order : KV.VisitOrder Txid (MempoolTxInfo Tx Rate))
    (clock : Nat → Except Fault Bool) (versionPayload : Bytes) (frames : List Frame)
    (hproper : ∀ frame ∈ frames, frame.message.Proper) (tail : Bytes) (e : Fault)
    (htail : receiveWire.run tail = .error e) (txs : Pool Tx Rate) :
    ((¬Greeted (frames.map Frame.message) →
      updateMempoolOver sha256d allWritten codec reader deserialize encodeInventory order clock versionPayload
        (frames.flatMap Frame.bytes ++ tail) txs = (txs,.error e)) ∧
    ∀ before last after, frames = before ++ last::after → ¬Greeted (before.map Frame.message) →
      Greeted ((before ++ [last]).map Frame.message) →
        (updateMempoolOver sha256d allWritten codec reader deserialize encodeInventory order clock versionPayload
            (frames.flatMap Frame.bytes ++ tail) txs).1 =
          updateMempoolP2p codec reader order (hear deserialize clock 0 (after.map Frame.message)).2
            (hear deserialize clock 0 (after.map Frame.message)).1 txs ∧
        ∀ conn, (updateMempoolOver sha256d allWritten codec reader deserialize encodeInventory order clock
            versionPayload (frames.flatMap Frame.bytes ++ tail) txs).2 = .ok conn →
          ∃ version, encodeMessage sha256d "version" versionPayload = .ok version ∧
            OnlyRequests sha256d encodeInventory ⟨version ++ (List.replicate
              (((before ++ [last]).map fun frame => frame.message.command).count "version")
                (emptyMessage sha256d "verack")).flatten ++ emptyMessage sha256d "mempool",true,true⟩
              conn) ∧
    ∀ writeError : Bytes → Option String,
      updateMempoolOver sha256d writeError codec reader deserialize encodeInventory order clock
          versionPayload (frames.flatMap Frame.bytes ++ tail) txs =
        updateMempoolOver sha256d allWritten codec reader deserialize encodeInventory order clock
          versionPayload (frames.flatMap Frame.bytes ++ tail) txs ∨
      ∃ n e', FailsWith writeError e' ∧
        updateMempoolOver sha256d writeError codec reader deserialize encodeInventory order clock
            versionPayload (frames.flatMap Frame.bytes ++ tail) txs =
          ((updateMempoolOver sha256d allWritten codec reader deserialize encodeInventory order clock
            versionPayload ((frames.take n).flatMap Frame.bytes) txs).1,.error e') := by
  obtain ⟨version,hversion⟩ : ∃ version, encodeMessage sha256d "version" versionPayload = .ok version :=
    ⟨_,if_pos (by decide)⟩
  refine ⟨⟨?_,?_⟩,fun writeError => updateMempoolOver_cases writeError hproper htail txs hversion⟩
  · intro hwaiting
    apply updateMempoolOver_refused hversion
    have hhandshake := handshake_frames sha256d hproper [] hwaiting tail version
    rw [List.nil_append, handshake_error (mt (done_after_iff _).mp hwaiting) htail] at hhandshake
    exact hhandshake
  · intro before last after hsplit hwaiting hgreeted
    have hbefore : ∀ frame ∈ before, frame.message.Proper := by
      intro frame hmem
      exact hproper frame (by rw [hsplit]; exact List.mem_append_left _ hmem)
    have hafter : ∀ frame ∈ after, frame.message.Proper := by
      intro frame hmem
      exact hproper frame (by rw [hsplit]; exact List.mem_append_right _ (List.mem_cons_of_mem _ hmem))
    have hlast : last.message.Proper := hproper last (by simp [hsplit])
    have hstream : frames.flatMap Frame.bytes ++ tail = before.flatMap Frame.bytes ++
        (last.bytes ++ (after.flatMap Frame.bytes ++ tail)) := by simp [hsplit]
    have hmap : (before ++ [last]).map Frame.message = before.map Frame.message ++ [last.message] := by
      simp
    have hcount : (before ++ [last]).map (fun frame => frame.message.command) =
        (before.map Frame.message ++ [last.message]).map WireMessage.command := by simp
    rw [hmap] at hgreeted
    have hconn : ((before.map Frame.message ++ [last.message]).foldl (P2PConnection.after sha256d)
        ⟨version,false,false⟩).Done := (done_after_iff _).mpr hgreeted
    rw [List.foldl_concat] at hconn
    have hhandshake := handshake_frames sha256d hbefore [] hwaiting
      (last.bytes ++ (after.flatMap Frame.bytes ++ tail)) version
    rw [List.nil_append, handshake_frame (mt (done_after_iff _).mp hwaiting) hlast,
      handshake_done hconn, ← hstream] at hhandshake
    obtain ⟨htxs,hwritten⟩ := updateMempoolOver_greeted hversion hhandshake txs
      (readMessages_frames hafter htail 0 ⟨txs,[]⟩ _)
    refine ⟨htxs,?_⟩
    intro conn hend
    refine ⟨version,hversion,?_⟩
    obtain ⟨requests,hrequests,hall⟩ := hwritten conn hend
    refine ⟨requests,?_,hall⟩
    rw [hrequests, ← List.foldl_concat (f := P2PConnection.after sha256d), after_foldl, ← hcount]

section Small

/-- A transaction is its id. -/
def deserializeTxid (bs : Bytes) : Except String Txid :=
  if h : bs.length = 32 then .ok ⟨bs.toArray,h⟩ else .error "unexpected end of file"

def bareFrame (command : String) (payload : Bytes) : Frame :=
  ⟨Vector.replicate 4 0,Vector.replicate 4 0,⟨command,payload⟩⟩

/-- A transaction is announced and given out. -/
def announced : List Frame :=
  [bareFrame "inv" (1::u32le 1 ++ List.replicate 32 3),bareFrame "tx" (List.replicate 32 3)]

/-- The announced transaction is held afterwards. -/
theorem session_follows_messages_announced : (KV.get (updateMempoolOver (fun _ => Vector.replicate 32 0) allWritten
    shortestFormCodec smallReader deserializeTxid (fun _ => []) .sorted (fun _ => .ok false) []
      ((bareFrame "version" []::bareFrame "verack" []::announced).flatMap Frame.bytes ++ []) ∅).1
        (Vector.replicate 32 3)).isSome := by
  have hframes : ∀ frame ∈ bareFrame "version" []::bareFrame "verack" []::announced,
      (asBytes frame.message.command).length ≤ 12 ∧
        trimZeros frame.message.command = frame.message.command ∧
          frame.message.payload.length < 2^32 := by decide
  obtain ⟨htxs,_⟩ := (session_follows_messages (fun _ => Vector.replicate 32 0) shortestFormCodec
    smallReader deserializeTxid (fun _ => []) .sorted (fun _ => .ok false) []
    (bareFrame "version" []::bareFrame "verack" []::announced)
    (fun frame hmem => ⟨(hframes frame hmem).1,(hframes frame hmem).2.1,(hframes frame hmem).2.2⟩)
    [] _ rfl ∅).1.2 [bareFrame "version" []] (bareFrame "verack" []) announced rfl
      (by simp [Greeted, bareFrame]) (by simp [Greeted, bareFrame])
  rw [htxs]
  decide +kernel

end Small

end Metashrew.Mempool
