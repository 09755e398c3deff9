import VoodooStore.Fields

/-!
# The outbox

Events are staged in a transaction under its number and a random nonce, and
wait there until they are acknowledged. The entries under the prefix of the
outbox are always events at their own keys (`Outbox`), whatever is done with the
store (`outbox_preserved`).
-/
namespace VoodooStore
open Effects Reading
set_option linter.unusedSimpArgs false

def OUTBOX_PREFIX : Bytes := INTERNAL_KEY_PREFIX ++ ascii "outbox:event:"

structure OutboxEventId where
  tx_id : UInt64
  nonce : ByteArr 16
  deriving DecidableEq

structure OutboxEvent where
  id : OutboxEventId
  topic : Bytes
  payload : Bytes
  created_at_ms : Int64
  deriving DecidableEq

inductive OutboxError
  | Store (error : EngineError)
  | EmptyTopic
  | FieldTooLarge
  | CorruptRecord
  | EntropyUnavailable
  deriving DecidableEq

instance : Corrupt OutboxError := ⟨.CorruptRecord⟩

def event_key (id : OutboxEventId) : Bytes := OUTBOX_PREFIX ++ (id.tx_id.to_be_bytes ++ id.nonce.val)

def encode_event (event : OutboxEvent) : Except OutboxError Bytes := do
  let topic ← write_bytes .FieldTooLarge event.topic
  let payload ← write_bytes .FieldTooLarge event.payload
  return [VERSION] ++ (event.id.tx_id.to_le_bytes ++ (event.id.nonce.val ++ (event.created_at_ms.to_le_bytes ++
    (topic ++ payload))))

/-- What `decode_event` reads before it looks at the end. -/
def read_event : Fields OutboxError OutboxEvent := do
  let version ← Fields.u8
  if version ≠ VERSION then throw .CorruptRecord else do
  let tx_id ← Fields.u64
  let nonce ← Fields.array_16
  let created_at_ms ← Fields.i64
  let topic ← Fields.bytes
  let payload ← Fields.bytes
  return ⟨⟨tx_id,nonce⟩,topic,payload,created_at_ms⟩

def decode_event (bytes : Bytes) : Except OutboxError OutboxEvent := do
  let event ← readAll .CorruptRecord read_event bytes
  if event.topic = [] then .error .CorruptRecord else .ok event

/-- The loop that collects a feed behind a transaction. With the limit zero it never stops early. -/
def collect_after {ε α : Type} (decode : Bytes → Except ε α) (tx_id : α → UInt64) (after_tx_id : Option UInt64) (limit : Nat)
    (items : List α) : List (Bytes × Bytes) → Except ε (List α)
  | [] => .ok items
  | (_,encoded) :: entries => do
    let item ← decode encoded
    if after_tx_id.any (fun after => tx_id item ≤ after) then collect_after decode tx_id after_tx_id limit items entries
    else if (items ++ [item]).length = limit then .ok (items ++ [item])
    else collect_after decode tx_id after_tx_id limit (items ++ [item]) entries

def Store.outbox_events_after (self : Store) (after_tx_id : Option UInt64) (limit : Nat) : Except OutboxError (List OutboxEvent) :=
  collect_after decode_event (fun event => event.id.tx_id) after_tx_id limit [] (Store.scan_prefix self OUTBOX_PREFIX)

section
variable [Hashes]

/-- `Transaction::emit_event`; without entropy there is no nonce. -/
def emit_event (io : Io) (entropy : Option (ByteArr 16)) (topic payload : Bytes) (created_at_ms : Int64) :
    EStateM OutboxError Transaction OutboxEventId := do
  if topic = [] then throw .EmptyTopic else
  let nonce ← lift (ok_or .EntropyUnavailable entropy)
  let id := OutboxEventId.mk (← get).tx_id nonce
  let encoded ← lift (encode_event ⟨id,topic,payload,created_at_ms⟩)
  rethrow .Store (put_internal io (event_key id) encoded)
  return id

def emit_outbox_event (io : Io) (entropy : Option (ByteArr 16)) (topic payload : Bytes) (created_at_ms : Int64) :
    EStateM OutboxError Store OutboxEventId :=
  within .Store io (emit_event io entropy topic payload created_at_ms)

def ack_outbox_event (io : Io) (id : OutboxEventId) : EStateM OutboxError Store Bool := do
  if ((← get).get (event_key id)).isNone then return false else
  rethrow .Store (delete_alone io (event_key id))
  return true

inductive OutboxCall
  | EmitOutboxEvent (io : Io) (entropy : Option (ByteArr 16)) (topic payload : Bytes) (created_at_ms : Int64)
  | AckOutboxEvent (io : Io) (id : OutboxEventId)

inductive OutboxTxCall
  | EmitEvent (io : Io) (entropy : Option (ByteArr 16)) (topic payload : Bytes) (created_at_ms : Int64)

def outbox : Domain OutboxError OutboxCall OutboxTxCall Unit where
  on_store
    | .EmitOutboxEvent io entropy topic payload created_at_ms => do
      let _ ← emit_outbox_event io entropy topic payload created_at_ms
    | .AckOutboxEvent io id => do
      let _ ← ack_outbox_event io id
  on_tx
    | .EmitEvent io entropy topic payload created_at_ms => do
      let _ ← emit_event io entropy topic payload created_at_ms

def OutboxCall.io : OutboxCall → Io
  | .EmitOutboxEvent io _ _ _ _ => io
  | .AckOutboxEvent io _ => io

def OutboxTxCall.io : OutboxTxCall → Io
  | .EmitEvent io _ _ _ _ => io

end

/-! ## What the entries are -/

/-- A topic that is not empty, and fields whose lengths can be written. -/
structure OutboxEvent.Fits (event : OutboxEvent) : Prop where
  topic : event.topic ≠ []
  topic_len : event.topic.length < 2 ^ 32
  payload_len : event.payload.length < 2 ^ 32

def OutboxEvent.spelling (event : OutboxEvent) : Bytes :=
  [VERSION] ++ (event.id.tx_id.to_le_bytes ++ (event.id.nonce.val ++ (event.created_at_ms.to_le_bytes ++
    (((UInt32.ofNat event.topic.length).to_le_bytes ++ event.topic) ++
      ((UInt32.ofNat event.payload.length).to_le_bytes ++ event.payload)))))

theorem encode_event_ok {event : OutboxEvent} {encoded : Bytes} (topic : event.topic ≠ [])
    (done : encode_event event = .ok encoded) : event.Fits ∧ encoded = event.spelling := by
  unfold encode_event at done
  obtain ⟨first,topicDone,done⟩ := bind_ok_iff.mp done
  obtain ⟨second,payloadDone,done⟩ := bind_ok_iff.mp done
  cases done
  obtain ⟨topicFits,rfl⟩ := write_bytes_ok topicDone
  obtain ⟨payloadFits,rfl⟩ := write_bytes_ok payloadDone
  exact ⟨⟨topic,topicFits,payloadFits⟩,rfl⟩

/-- An event is read from its spelling. -/
theorem decode_event_spelling {event : OutboxEvent} (fits : event.Fits) : decode_event event.spelling = .ok event := by
  have parses : Parses USIZE read_event event.spelling event := by
    refine (parses_u8 VERSION).bind ?_
    rw [if_neg (by simp)]
    refine (parses_u64 event.id.tx_id).bind ((parses_array_16 event.id.nonce).bind ((parses_i64 event.created_at_ms).bind ?_))
    exact (parses_bytes fits.topic_len).bind ((parses_bytes fits.payload_len).ends (parses_pure _))
  have small : event.spelling.length < USIZE := by
    have topic := fits.topic_len
    have payload := fits.payload_len
    have nonce := event.id.nonce.property
    simp [OutboxEvent.spelling,USIZE,nonce]
    omega
  unfold decode_event
  rw [parses.readAll _ small,ok_bind,if_neg fits.topic]

def OutboxEvent.entry (event : OutboxEvent) : Bytes × Bytes := (event_key event.id,event.spelling)

abbrev Outbox (state : State) : Prop := Holding OUTBOX_PREFIX OutboxEvent.entry OutboxEvent.Fits state

theorem outbox_apart (key : Bytes) (own : starts_with key OUTBOX_PREFIX = true) : starts_with key CDC_PREFIX = false :=
  domain_key_outside ⟨OUTBOX_PREFIX,by decide,(starts_with_iff _ _).mp own⟩

theorem outbox_same {s t : State} (same : SameData s t) (holding : Outbox s) : Outbox t :=
  holding.congr (fun key own => same key (outbox_apart key own))

section
variable [Hashes]

theorem emit_event_stages {io : Io} (writes : io.WritesWhole) (entropy : Option (ByteArr 16)) (topic payload : Bytes)
    (created_at_ms : Int64) : Stages (emit_event io entropy topic payload created_at_ms) := by
  unfold emit_event
  split
  · exact stages_of_reads (reads_throw _)
  refine (stages_of_reads (reads_lift _)).bind (fun nonce => (stages_of_reads reads_get).bind (fun tx => ?_))
  refine (stages_of_reads (reads_lift _)).bind (fun encoded => ?_)
  exact (put_stages writes _ _).rethrow.bind (fun _ => stages_of_reads (reads_pure _))

theorem emit_event_clean (io : Io) (entropy : Option (ByteArr 16)) (topic payload : Bytes) (created_at_ms : Int64) :
    FailsClean (emit_event io entropy topic payload created_at_ms) := by
  unfold emit_event
  split
  · exact clean_of_reads (reads_throw _)
  refine .checked (reads_lift _) (fun nonce => .checked reads_get (fun tx => .checked (reads_lift _) (fun encoded => ?_)))
  exact (put_clean io _ _).rethrow.returning _

theorem emit_event_ok {io : Io} {entropy : Option (ByteArr 16)} {topic payload : Bytes} {created_at_ms : Int64} {id : OutboxEventId}
    {tx u : Transaction} (done : emit_event io entropy topic payload created_at_ms tx = .ok id u) :
    ∃ event : OutboxEvent, event.Fits ∧ u.view = tx.view.insert event.entry.1 event.entry.2 := by
  unfold emit_event at done
  split at done
  · cases done
  rename_i some_topic
  obtain ⟨nonce,-,done⟩ := lift_bind_ok.mp done
  rw [get_bind] at done
  obtain ⟨encoded,encodes,done⟩ := lift_bind_ok.mp done
  obtain ⟨_,middle,staged,done⟩ := bind_ok.mp done
  cases done
  obtain ⟨fits,spelled⟩ := encode_event_ok some_topic encodes
  obtain ⟨view,-⟩ := put_internal_ok (rethrow_ok.mp staged)
  rw [spelled] at view
  exact ⟨_,fits,view⟩

theorem emit_event_keeps (io : Io) (entropy : Option (ByteArr 16)) (topic payload : Bytes) (created_at_ms : Int64) :
    KeepsView Outbox (emit_event io entropy topic payload created_at_ms) := by
  refine (emit_event_clean io entropy topic payload created_at_ms).keeps ?_
  intro id tx u done holding
  obtain ⟨event,fits,view⟩ := emit_event_ok done
  rw [view]
  exact holding.insert fits

/-- Whatever is done with the outbox and with other keys, its entries are events at their own keys. -/
theorem outbox_preserved : Preserved outbox (.plain (fun key => starts_with key OUTBOX_PREFIX = true) (fun call => call.io.Durable)
    (fun call => call.io.Durable)) (fun state view _ => Outbox state ∧ ∀ seen, view = some seen → Outbox seen) := by
  refine preserved_map ?_ ?_ ?_ ?_ outbox_apart (fun s t same holding => holding.congr same)
  · intro call durable
    cases call with
    | EmitOutboxEvent io entropy topic payload created_at_ms =>
      refine (within_steady durable (emit_event_stages durable.1 entropy topic payload created_at_ms)).bind (fun _ => ?_)
      exact steady_of_reads (reads_pure _)
    | AckOutboxEvent io id =>
      refine Steady.bind ((steady_of_reads reads_get).bind (fun store => ?_)) (fun _ => steady_of_reads (reads_pure _))
      split
      · exact steady_of_reads (reads_pure _)
      · exact (within_steady durable (delete_stages durable.1 _)).rethrow.bind (fun _ => steady_of_reads (reads_pure _))
  · intro call durable
    cases call with
    | EmitEvent io entropy topic payload created_at_ms =>
      exact (emit_event_stages durable.1 entropy topic payload created_at_ms).bind (fun _ => stages_of_reads (reads_pure _))
  · intro call durable
    cases call with
    | EmitOutboxEvent io entropy topic payload created_at_ms =>
      have carries := (emit_event_stages durable.1 entropy topic payload created_at_ms).carries
      refine Keeps.bind ?_ (fun _ => keeps_of_reads (reads_pure _))
      exact within_keeps (fun s t => outbox_same) carries (emit_event_keeps io entropy topic payload created_at_ms)
    | AckOutboxEvent io id =>
      refine Keeps.bind ((keeps_of_reads reads_get).bind (fun store => ?_)) (fun _ => keeps_of_reads (reads_pure _))
      split
      · exact keeps_of_reads (reads_pure _)
      · refine Keeps.bind (Keeps.rethrow ?_) (fun _ => keeps_of_reads (reads_pure _))
        refine within_keeps (fun s t => outbox_same) (delete_stages durable.1 _).carries (delete_keeps io _ ?_)
        intro s holding
        exact holding.erase _
  · intro call durable
    cases call with
    | EmitEvent io entropy topic payload created_at_ms =>
      exact (emit_event_keeps io entropy topic payload created_at_ms).bind (fun _ => keeps_view_of_reads (reads_pure _))

end

end VoodooStore
