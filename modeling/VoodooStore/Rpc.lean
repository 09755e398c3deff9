import VoodooStore.Outbox

/-!
# Requests and responses

A request is staged under the number of its transaction and a random nonce and
waits there until it is answered or expires; then its response waits in its
place until it is acknowledged. The entries under the prefix of the requests are
always requests at their own keys (`Requests`, `rpc_preserved`).
-/
namespace VoodooStore
open Effects Reading
set_option linter.unusedSimpArgs false

def REQUEST_PREFIX : Bytes := INTERNAL_KEY_PREFIX ++ ascii "rpc:req:"
def RESPONSE_PREFIX : Bytes := INTERNAL_KEY_PREFIX ++ ascii "rpc:resp:"

structure RpcRequestId where
  tx_id : UInt64
  nonce : ByteArr 16
  deriving DecidableEq

structure RpcRequest where
  id : RpcRequestId
  method : Bytes
  payload : Bytes
  created_at_ms : Int64
  deadline_ms : Option Int64
  deriving DecidableEq

structure RpcResponse where
  request_id : RpcRequestId
  payload : Bytes
  completed_at_ms : Int64
  is_error : Bool
  deriving DecidableEq

structure RpcExpireReport where
  scanned : Nat
  expired : Nat
  deriving DecidableEq

inductive RpcError
  | Store (error : EngineError)
  | EmptyMethod
  | FieldTooLarge
  | CorruptRecord
  | NotFound
  | AlreadyResponded
  | EntropyUnavailable
  deriving DecidableEq

instance : Corrupt RpcError := ⟨.CorruptRecord⟩

def request_key (id : RpcRequestId) : Bytes := REQUEST_PREFIX ++ (id.tx_id.to_be_bytes ++ id.nonce.val)
def response_key (id : RpcRequestId) : Bytes := RESPONSE_PREFIX ++ (id.tx_id.to_be_bytes ++ id.nonce.val)

/-- A byte that says whether there is a deadline, and the deadline. -/
def deadlineBytes : Option Int64 → Bytes
  | some deadline => [1] ++ deadline.to_le_bytes
  | none => [0]

def encode_request (request : RpcRequest) : Except RpcError Bytes := do
  let method ← write_bytes .FieldTooLarge request.method
  let payload ← write_bytes .FieldTooLarge request.payload
  return [VERSION] ++ (request.id.tx_id.to_le_bytes ++ (request.id.nonce.val ++ (request.created_at_ms.to_le_bytes ++
    (deadlineBytes request.deadline_ms ++ (method ++ payload)))))

def read_deadline : Fields RpcError (Option Int64) := do
  let tag ← Fields.u8
  if tag = 0 then return none
  else if tag = 1 then return some (← Fields.i64)
  else throw .CorruptRecord

/-- What `decode_request` reads before it looks at the end. -/
def read_request : Fields RpcError RpcRequest := do
  let version ← Fields.u8
  if version ≠ VERSION then throw .CorruptRecord else do
  let tx_id ← Fields.u64
  let nonce ← Fields.array_16
  let created_at_ms ← Fields.i64
  let deadline_ms ← read_deadline
  let method ← Fields.bytes
  let payload ← Fields.bytes
  return ⟨⟨tx_id,nonce⟩,method,payload,created_at_ms,deadline_ms⟩

def decode_request (bytes : Bytes) : Except RpcError RpcRequest := do
  let request ← readAll .CorruptRecord read_request bytes
  if request.method = [] then .error .CorruptRecord else .ok request

def encode_response (response : RpcResponse) : Except RpcError Bytes := do
  let payload ← write_bytes .FieldTooLarge response.payload
  return [VERSION] ++ (response.request_id.tx_id.to_le_bytes ++ (response.request_id.nonce.val ++
    (response.completed_at_ms.to_le_bytes ++ ([if response.is_error then 1 else 0] ++ payload))))

def read_is_error : Fields RpcError Bool := do
  let tag ← Fields.u8
  if tag = 0 then return false
  else if tag = 1 then return true
  else throw .CorruptRecord

def read_response : Fields RpcError RpcResponse := do
  let version ← Fields.u8
  if version ≠ VERSION then throw .CorruptRecord else do
  let tx_id ← Fields.u64
  let nonce ← Fields.array_16
  let completed_at_ms ← Fields.i64
  let is_error ← read_is_error
  let payload ← Fields.bytes
  return ⟨⟨tx_id,nonce⟩,payload,completed_at_ms,is_error⟩

def decode_response (bytes : Bytes) : Except RpcError RpcResponse := readAll .CorruptRecord read_response bytes

def Store.pending_rpc_requests_after (self : Store) (after_tx_id : Option UInt64) (limit : Nat) : Except RpcError (List RpcRequest) :=
  collect_after decode_request (fun request => request.id.tx_id) after_tx_id limit [] (Store.scan_prefix self REQUEST_PREFIX)

def Store.get_rpc_response (self : Store) (id : RpcRequestId) : Except RpcError (Option RpcResponse) :=
  (self.get (response_key id)).mapM decode_response

section
variable [Hashes]

/-- `Transaction::request_rpc`; without entropy there is no nonce. -/
def request_rpc (io : Io) (entropy : Option (ByteArr 16)) (method payload : Bytes) (created_at_ms : Int64)
    (deadline_ms : Option Int64) : EStateM RpcError Transaction RpcRequestId := do
  if method = [] then throw .EmptyMethod else
  let nonce ← lift (ok_or .EntropyUnavailable entropy)
  let id := RpcRequestId.mk (← get).tx_id nonce
  let encoded ← lift (encode_request ⟨id,method,payload,created_at_ms,deadline_ms⟩)
  rethrow .Store (put_internal io (request_key id) encoded)
  return id

def submit_rpc_request (io : Io) (entropy : Option (ByteArr 16)) (method payload : Bytes) (created_at_ms : Int64)
    (deadline_ms : Option Int64) : EStateM RpcError Store RpcRequestId :=
  within .Store io (request_rpc io entropy method payload created_at_ms deadline_ms)

/-- The transaction of `respond_rpc`. -/
def answer (io : Io) (id : RpcRequestId) (payload : Bytes) (completed_at_ms : Int64) (is_error : Bool) :
    EStateM RpcError Transaction Unit := do
  rethrow .Store (delete_internal io (request_key id))
  let encoded ← lift (encode_response ⟨id,payload,completed_at_ms,is_error⟩)
  rethrow .Store (put_internal io (response_key id) encoded)

def respond_rpc (io : Io) (id : RpcRequestId) (payload : Bytes) (completed_at_ms : Int64) (is_error : Bool) :
    EStateM RpcError Store Unit := do
  let self ← get
  if (self.get (request_key id)).isNone then
    if (self.get (response_key id)).isSome then throw .AlreadyResponded else throw .NotFound
  else within .Store io (answer io id payload completed_at_ms is_error)

def ack_rpc_response (io : Io) (id : RpcRequestId) : EStateM RpcError Store Bool := do
  if ((← get).get (response_key id)).isNone then return false else
  rethrow .Store (delete_alone io (response_key id))
  return true

/-- The loop of `expire_rpc_requests`. Each answer is a transaction of its own;
    what the world decides comes one per entry. -/
def expire_pending (ios : Nat → Io) (now_ms : Int64) (limit : Nat) (expired : Nat) : List (Bytes × Bytes) → EStateM RpcError Store Nat
  | [] => return expired
  | (_,encoded) :: pending => do
    if expired = limit then return expired else
    let request ← lift (decode_request encoded)
    if request.deadline_ms.any (fun deadline => deadline ≤ now_ms) then
      respond_rpc (ios expired) request.id (ascii "deadline exceeded") now_ms true
      expire_pending ios now_ms limit (expired + 1) pending
    else expire_pending ios now_ms limit expired pending

def expire_rpc_requests (ios : Nat → Io) (now_ms : Int64) (limit : Nat) : EStateM RpcError Store RpcExpireReport := do
  let pending := Store.scan_prefix (← get) REQUEST_PREFIX
  let expired ← expire_pending ios now_ms limit 0 pending
  return ⟨pending.length,expired⟩

inductive RpcCall
  | SubmitRpcRequest (io : Io) (entropy : Option (ByteArr 16)) (method payload : Bytes) (created_at_ms : Int64)
      (deadline_ms : Option Int64)
  | RespondRpc (io : Io) (id : RpcRequestId) (payload : Bytes) (completed_at_ms : Int64) (is_error : Bool)
  | AckRpcResponse (io : Io) (id : RpcRequestId)
  | ExpireRpcRequests (ios : Nat → Io) (now_ms : Int64) (limit : Nat)

inductive RpcTxCall
  | RequestRpc (io : Io) (entropy : Option (ByteArr 16)) (method payload : Bytes) (created_at_ms : Int64)
      (deadline_ms : Option Int64)

def rpc : Domain RpcError RpcCall RpcTxCall Unit where
  on_store
    | .SubmitRpcRequest io entropy method payload created_at_ms deadline_ms => do
      let _ ← submit_rpc_request io entropy method payload created_at_ms deadline_ms
    | .RespondRpc io id payload completed_at_ms is_error => respond_rpc io id payload completed_at_ms is_error
    | .AckRpcResponse io id => do
      let _ ← ack_rpc_response io id
    | .ExpireRpcRequests ios now_ms limit => do
      let _ ← expire_rpc_requests ios now_ms limit
  on_tx
    | .RequestRpc io entropy method payload created_at_ms deadline_ms => do
      let _ ← request_rpc io entropy method payload created_at_ms deadline_ms

def RpcCall.Durable : RpcCall → Prop
  | .SubmitRpcRequest io _ _ _ _ _ => io.Durable
  | .RespondRpc io _ _ _ _ => io.Durable
  | .AckRpcResponse io _ => io.Durable
  | .ExpireRpcRequests ios _ _ => ∀ i, (ios i).Durable

def RpcTxCall.Durable : RpcTxCall → Prop
  | .RequestRpc io _ _ _ _ _ => io.Durable

end

/-! ## What the entries are -/

/-- A method that is not empty, and fields whose lengths can be written. -/
structure RpcRequest.Fits (request : RpcRequest) : Prop where
  method : request.method ≠ []
  method_len : request.method.length < 2 ^ 32
  payload_len : request.payload.length < 2 ^ 32

def RpcRequest.spelling (request : RpcRequest) : Bytes :=
  [VERSION] ++ (request.id.tx_id.to_le_bytes ++ (request.id.nonce.val ++ (request.created_at_ms.to_le_bytes ++
    (deadlineBytes request.deadline_ms ++ (((UInt32.ofNat request.method.length).to_le_bytes ++ request.method) ++
      ((UInt32.ofNat request.payload.length).to_le_bytes ++ request.payload))))))

def RpcRequest.entry (request : RpcRequest) : Bytes × Bytes := (request_key request.id,request.spelling)

theorem encode_request_ok {request : RpcRequest} {encoded : Bytes} (method : request.method ≠ [])
    (done : encode_request request = .ok encoded) : request.Fits ∧ encoded = request.spelling := by
  unfold encode_request at done
  obtain ⟨first,methodDone,done⟩ := bind_ok_iff.mp done
  obtain ⟨second,payloadDone,done⟩ := bind_ok_iff.mp done
  cases done
  obtain ⟨methodFits,rfl⟩ := write_bytes_ok methodDone
  obtain ⟨payloadFits,rfl⟩ := write_bytes_ok payloadDone
  exact ⟨⟨method,methodFits,payloadFits⟩,rfl⟩

theorem parses_deadline (deadline : Option Int64) : Parses USIZE read_deadline (deadlineBytes deadline) deadline := by
  cases deadline with
  | none =>
    refine (parses_u8 0).ends ?_
    rw [if_pos rfl]
    exact parses_pure _
  | some at_ms =>
    refine (parses_u8 1).bind ?_
    rw [if_neg (by decide),if_pos rfl]
    exact (parses_i64 at_ms).ends (parses_pure _)

theorem deadlineBytes_length (deadline : Option Int64) : (deadlineBytes deadline).length ≤ 9 := by
  cases deadline with
  | none => simp [deadlineBytes]
  | some at_ms => simp [deadlineBytes]

/-- A request is read from its spelling. -/
theorem decode_request_spelling {request : RpcRequest} (fits : request.Fits) : decode_request request.spelling = .ok request := by
  have parses : Parses USIZE read_request request.spelling request := by
    refine (parses_u8 VERSION).bind ?_
    rw [if_neg (by simp)]
    refine (parses_u64 request.id.tx_id).bind ((parses_array_16 request.id.nonce).bind ((parses_i64 request.created_at_ms).bind ?_))
    refine (parses_deadline request.deadline_ms).bind ((parses_bytes fits.method_len).bind ?_)
    exact (parses_bytes fits.payload_len).ends (parses_pure _)
  have small : request.spelling.length < USIZE := by
    have method := fits.method_len
    have payload := fits.payload_len
    have nonce := request.id.nonce.property
    have deadline := deadlineBytes_length request.deadline_ms
    simp [RpcRequest.spelling,USIZE,nonce]
    omega
  unfold decode_request
  rw [parses.readAll _ small,ok_bind,if_neg fits.method]

def RpcResponse.spelling (response : RpcResponse) : Bytes :=
  [VERSION] ++ (response.request_id.tx_id.to_le_bytes ++ (response.request_id.nonce.val ++ (response.completed_at_ms.to_le_bytes ++
    ([if response.is_error then 1 else 0] ++ ((UInt32.ofNat response.payload.length).to_le_bytes ++ response.payload)))))

theorem encode_response_ok {response : RpcResponse} {encoded : Bytes} (done : encode_response response = .ok encoded) :
    response.payload.length < 2 ^ 32 ∧ encoded = response.spelling := by
  unfold encode_response at done
  obtain ⟨payload,payloadDone,done⟩ := bind_ok_iff.mp done
  cases done
  obtain ⟨fits,rfl⟩ := write_bytes_ok payloadDone
  exact ⟨fits,rfl⟩

theorem parses_is_error (is_error : Bool) : Parses USIZE read_is_error [if is_error then 1 else 0] is_error := by
  cases is_error with
  | false => exact (parses_u8 0).ends (parses_pure _)
  | true => exact (parses_u8 1).ends (parses_pure _)

/-- A response is read from its spelling. -/
theorem decode_response_spelling {response : RpcResponse} (fits : response.payload.length < 2 ^ 32) :
    decode_response response.spelling = .ok response := by
  have parses : Parses USIZE read_response response.spelling response := by
    refine (parses_u8 VERSION).bind ?_
    rw [if_neg (by simp)]
    refine (parses_u64 response.request_id.tx_id).bind ((parses_array_16 response.request_id.nonce).bind ?_)
    refine (parses_i64 response.completed_at_ms).bind ((parses_is_error response.is_error).bind ?_)
    exact (parses_bytes fits).ends (parses_pure _)
  have small : response.spelling.length < USIZE := by
    have nonce := response.request_id.nonce.property
    simp [RpcResponse.spelling,USIZE,nonce]
    omega
  exact parses.readAll _ small

theorem id_bytes_injective {a b : RpcRequestId} (same : a.tx_id.to_be_bytes ++ a.nonce.val = b.tx_id.to_be_bytes ++ b.nonce.val) : a = b := by
  obtain ⟨number,nonce⟩ := List.append_inj same (by simp)
  obtain ⟨tx,bytes⟩ := a
  obtain ⟨tx',bytes'⟩ := b
  cases u64_to_be_injective number
  cases Subtype.ext nonce
  rfl

theorem request_key_injective {a b : RpcRequestId} (same : request_key a = request_key b) : a = b :=
  id_bytes_injective (List.append_cancel_left same)

theorem response_key_injective {a b : RpcRequestId} (same : response_key a = response_key b) : a = b :=
  id_bytes_injective (List.append_cancel_left same)

abbrev Requests (state : State) : Prop := Holding REQUEST_PREFIX RpcRequest.entry RpcRequest.Fits state

theorem requests_apart (key : Bytes) (own : starts_with key REQUEST_PREFIX = true) : starts_with key CDC_PREFIX = false :=
  domain_key_outside ⟨REQUEST_PREFIX,by decide,(starts_with_iff _ _).mp own⟩

theorem requests_same {s t : State} (same : SameData s t) (holding : Requests s) : Requests t :=
  holding.congr (fun key own => same key (requests_apart key own))

/-- A response is not among the requests. -/
theorem response_apart (id : RpcRequestId) (key : Bytes) (own : starts_with key REQUEST_PREFIX = true) : response_key id ≠ key := by
  rintro rfl
  rw [response_key,starts_with_iff] at own
  have short : REQUEST_PREFIX <+: RESPONSE_PREFIX ++ (id.tx_id.to_be_bytes ++ id.nonce.val) := own
  have inside : REQUEST_PREFIX <+: RESPONSE_PREFIX :=
    List.prefix_of_prefix_length_le short (List.prefix_append _ _) (by decide)
  exact absurd inside (by decide)

theorem Requests.respond {state : State} (holding : Requests state) (id : RpcRequestId) (value : Bytes) :
    Requests (state.insert (response_key id) value) := by
  refine holding.congr ?_
  intro key own
  rw [get_insert,if_neg (response_apart id key own)]

section
variable [Hashes]

theorem request_rpc_stages {io : Io} (writes : io.WritesWhole) (entropy : Option (ByteArr 16)) (method payload : Bytes)
    (created_at_ms : Int64) (deadline_ms : Option Int64) :
    Stages (request_rpc io entropy method payload created_at_ms deadline_ms) := by
  unfold request_rpc
  split
  · exact stages_of_reads (reads_throw _)
  refine (stages_of_reads (reads_lift _)).bind (fun nonce => (stages_of_reads reads_get).bind (fun tx => ?_))
  refine (stages_of_reads (reads_lift _)).bind (fun encoded => ?_)
  exact (put_stages writes _ _).rethrow.bind (fun _ => stages_of_reads (reads_pure _))

theorem request_rpc_clean (io : Io) (entropy : Option (ByteArr 16)) (method payload : Bytes) (created_at_ms : Int64)
    (deadline_ms : Option Int64) : FailsClean (request_rpc io entropy method payload created_at_ms deadline_ms) := by
  unfold request_rpc
  split
  · exact clean_of_reads (reads_throw _)
  refine .checked (reads_lift _) (fun nonce => .checked reads_get (fun tx => .checked (reads_lift _) (fun encoded => ?_)))
  exact (put_clean io _ _).rethrow.returning _

/-- The request is staged under the number of the transaction. -/
theorem request_rpc_ok {io : Io} {entropy : Option (ByteArr 16)} {method payload : Bytes} {created_at_ms : Int64}
    {deadline_ms : Option Int64} {id : RpcRequestId} {tx u : Transaction}
    (done : request_rpc io entropy method payload created_at_ms deadline_ms tx = .ok id u) :
    let request : RpcRequest := ⟨id,method,payload,created_at_ms,deadline_ms⟩
    id.tx_id = tx.tx_id ∧ request.Fits ∧ u.view = tx.view.insert (request_key id) request.spelling := by
  unfold request_rpc at done
  split at done
  · cases done
  rename_i some_method
  obtain ⟨nonce,-,done⟩ := lift_bind_ok.mp done
  rw [get_bind] at done
  obtain ⟨encoded,encodes,done⟩ := lift_bind_ok.mp done
  obtain ⟨_,middle,staged,done⟩ := bind_ok.mp done
  cases done
  obtain ⟨fits,spelled⟩ := encode_request_ok some_method encodes
  obtain ⟨view,-⟩ := put_internal_ok (rethrow_ok.mp staged)
  rw [spelled] at view
  exact ⟨rfl,fits,view⟩

theorem request_rpc_keeps (io : Io) (entropy : Option (ByteArr 16)) (method payload : Bytes) (created_at_ms : Int64)
    (deadline_ms : Option Int64) : KeepsView Requests (request_rpc io entropy method payload created_at_ms deadline_ms) := by
  refine (request_rpc_clean io entropy method payload created_at_ms deadline_ms).keeps ?_
  intro id tx u done holding
  obtain ⟨-,fits,view⟩ := request_rpc_ok done
  have inserted := holding.insert fits
  rw [view]
  exact inserted

theorem answer_stages {io : Io} (writes : io.WritesWhole) (id : RpcRequestId) (payload : Bytes) (completed_at_ms : Int64)
    (is_error : Bool) : Stages (answer io id payload completed_at_ms is_error) := by
  refine (delete_stages writes _).rethrow.bind (fun _ => (stages_of_reads (reads_lift _)).bind (fun encoded => ?_))
  exact (put_stages writes _ _).rethrow

theorem answer_keeps (io : Io) (id : RpcRequestId) (payload : Bytes) (completed_at_ms : Int64) (is_error : Bool) :
    KeepsView Requests (answer io id payload completed_at_ms is_error) := by
  refine KeepsView.bind (KeepsView.rethrow (delete_keeps io _ ?_)) (fun _ => ?_)
  · intro s holding
    exact holding.erase _
  · refine (keeps_view_of_reads (reads_lift _)).bind (fun encoded => KeepsView.rethrow (put_keeps io _ _ ?_))
    intro s holding
    exact holding.respond id encoded

theorem respond_rpc_steady {io : Io} (durable : io.Durable) (id : RpcRequestId) (payload : Bytes) (completed_at_ms : Int64)
    (is_error : Bool) : Steady (respond_rpc io id payload completed_at_ms is_error) := by
  refine (steady_of_reads reads_get).bind (fun store => ?_)
  split
  · split
    · exact steady_of_reads (reads_throw _)
    · exact steady_of_reads (reads_throw _)
  · exact within_steady durable (answer_stages durable.1 id payload completed_at_ms is_error)

theorem respond_rpc_keeps {io : Io} (durable : io.Durable) (id : RpcRequestId) (payload : Bytes) (completed_at_ms : Int64)
    (is_error : Bool) : Keeps Requests (respond_rpc io id payload completed_at_ms is_error) := by
  refine (keeps_of_reads reads_get).bind (fun store => ?_)
  split
  · split
    · exact keeps_of_reads (reads_throw _)
    · exact keeps_of_reads (reads_throw _)
  · have carries := (answer_stages durable.1 id payload completed_at_ms is_error).carries
    exact within_keeps (fun s t => requests_same) carries (answer_keeps io id payload completed_at_ms is_error)

/-- What every answer has, the loop over the pending requests has. -/
theorem expire_pending_each {good : ∀ {α : Type}, EStateM RpcError Store α → Prop}
    (reads : ∀ {α : Type} {x : EStateM RpcError Store α}, Reads x → good x)
    (binds : ∀ {α β : Type} {x : EStateM RpcError Store α} {f : α → EStateM RpcError Store β}, good x → (∀ a, good (f a)) →
      good (x >>= f))
    {ios : Nat → Io} {now_ms : Int64} (answers : ∀ i id, good (respond_rpc (ios i) id (ascii "deadline exceeded") now_ms true))
    (limit expired : Nat) (pending : List (Bytes × Bytes)) : good (expire_pending ios now_ms limit expired pending) := by
  induction pending generalizing expired with
  | nil => exact reads (reads_pure _)
  | cons entry pending ih =>
    unfold expire_pending
    split
    · exact reads (reads_pure _)
    · refine binds (reads (reads_lift _)) (fun request => ?_)
      split
      · exact binds (answers _ _) (fun _ => ih _)
      · exact ih _

/-- Whatever is done with requests, responses and other keys, the entries of the requests are requests at their own keys. -/
theorem rpc_preserved : Preserved rpc (.plain (fun key => starts_with key REQUEST_PREFIX = true) RpcCall.Durable RpcTxCall.Durable)
    (fun state view _ => Requests state ∧ ∀ seen, view = some seen → Requests seen) := by
  refine preserved_map ?_ ?_ ?_ ?_ requests_apart (fun s t same holding => holding.congr same)
  · intro call durable
    cases call with
    | SubmitRpcRequest io entropy method payload created_at_ms deadline_ms =>
      have stages := request_rpc_stages durable.1 entropy method payload created_at_ms deadline_ms
      exact (within_steady durable stages).bind (fun _ => steady_of_reads (reads_pure _))
    | RespondRpc io id payload completed_at_ms is_error => exact respond_rpc_steady durable id payload completed_at_ms is_error
    | AckRpcResponse io id =>
      refine Steady.bind ((steady_of_reads reads_get).bind (fun store => ?_)) (fun _ => steady_of_reads (reads_pure _))
      split
      · exact steady_of_reads (reads_pure _)
      · exact (within_steady durable (delete_stages durable.1 _)).rethrow.bind (fun _ => steady_of_reads (reads_pure _))
    | ExpireRpcRequests ios now_ms limit =>
      refine Steady.bind ((steady_of_reads reads_get).bind (fun store => ?_)) (fun _ => steady_of_reads (reads_pure _))
      refine Steady.bind ?_ (fun _ => steady_of_reads (reads_pure _))
      exact expire_pending_each steady_of_reads Steady.bind (fun i id => respond_rpc_steady (durable i) id _ now_ms true) limit 0 _
  · intro call durable
    cases call with
    | RequestRpc io entropy method payload created_at_ms deadline_ms =>
      have stages := request_rpc_stages durable.1 entropy method payload created_at_ms deadline_ms
      exact stages.bind (fun _ => stages_of_reads (reads_pure _))
  · intro call durable
    cases call with
    | SubmitRpcRequest io entropy method payload created_at_ms deadline_ms =>
      have carries := (request_rpc_stages durable.1 entropy method payload created_at_ms deadline_ms).carries
      refine Keeps.bind ?_ (fun _ => keeps_of_reads (reads_pure _))
      exact within_keeps (fun s t => requests_same) carries (request_rpc_keeps io entropy method payload created_at_ms deadline_ms)
    | RespondRpc io id payload completed_at_ms is_error => exact respond_rpc_keeps durable id payload completed_at_ms is_error
    | AckRpcResponse io id =>
      refine Keeps.bind ((keeps_of_reads reads_get).bind (fun store => ?_)) (fun _ => keeps_of_reads (reads_pure _))
      split
      · exact keeps_of_reads (reads_pure _)
      · refine Keeps.bind (Keeps.rethrow ?_) (fun _ => keeps_of_reads (reads_pure _))
        refine within_keeps (fun s t => requests_same) (delete_stages durable.1 _).carries (delete_keeps io _ ?_)
        intro s holding
        exact holding.erase _
    | ExpireRpcRequests ios now_ms limit =>
      refine Keeps.bind ((keeps_of_reads reads_get).bind (fun store => ?_)) (fun _ => keeps_of_reads (reads_pure _))
      refine Keeps.bind ?_ (fun _ => keeps_of_reads (reads_pure _))
      exact expire_pending_each keeps_of_reads Keeps.bind (fun i id => respond_rpc_keeps (durable i) id _ now_ms true) limit 0 _
  · intro call durable
    cases call with
    | RequestRpc io entropy method payload created_at_ms deadline_ms =>
      have keeps := request_rpc_keeps io entropy method payload created_at_ms deadline_ms
      exact keeps.bind (fun _ => keeps_view_of_reads (reads_pure _))

end

end VoodooStore
