import VoodooStore.Lib.Effects
import VoodooStore.Recover

/-!
# The store: opening a file and appending to it

A store holds its file, the key/value map that recovery found, and the two
counters that number transactions and records. What the operating system does
with a call (fail, or write a part) is read off an oracle (`Io`), so that a
statement about every oracle is one about every fault.
-/
namespace VoodooStore
open Effects
set_option linter.unusedSimpArgs false

/-- The components of a path; two paths are equal when these are. -/
abbrev Path := List String

inductive Durability
  | Strict
  | Data
  | Relaxed
  deriving DecidableEq, Repr

structure StoreOptions where
  durability : Durability
  repair_torn_tail : Bool
  max_bytes : Option UInt64
  namespace_max_bytes : Option UInt64
  deriving DecidableEq, Repr

def StoreOptions.default : StoreOptions where
  durability := .Data
  repair_torn_tail := true
  max_bytes := none
  namespace_max_bytes := none

/-- The counters of a store, without the latencies and those of the domains above it. -/
structure StoreMetrics where
  commits : UInt64
  puts : UInt64
  deletes : UInt64
  records_appended : UInt64
  bytes_appended : UInt64
  recovery_records : UInt64
  commit_errors : UInt64
  deriving DecidableEq, Repr

def StoreMetrics.default : StoreMetrics := ⟨0,0,0,0,0,0,0⟩

/-- The calls to the operating system. One step may append several records, so
    the calls of an append are told apart by the record's number. -/
inductive Call
  | open_file
  | canonicalize
  | lock
  | header_metadata
  | header_seek
  | header_write
  | header_sync
  | header_read
  | recover_seek
  | recover_read
  | open_metadata
  | set_len
  | repair_sync
  | open_seek
  | append_metadata (sequence : UInt64)
  | append_seek (sequence : UInt64)
  | append_write (sequence : UInt64)
  | commit_sync (tx_id : UInt64)
  | flush
  deriving DecidableEq, Repr

/-- What the world around a store decides: which calls fail and how much a
    failing write leaves in the file, whether the process has the file open
    already, randomness and time, and the order in which a hash map is walked. -/
structure Io where
  fails : Call → Option IoError
  written : Call → Nat
  already_open : Bool
  generate_store_id : Except EngineError (ByteArr 16)
  unix_time_ms : Except EngineError Int64
  walk : List (Bytes × Option Bytes) → List (Bytes × Option Bytes)
  walk_perm : ∀ entries, (walk entries).Perm entries

/-- No call fails. -/
def Io.Faultless (io : Io) : Prop :=
  (∀ call, io.fails call = none) ∧ io.already_open = false ∧
    (∃ id, io.generate_store_id = .ok id) ∧ ∃ now, io.unix_time_ms = .ok now

/-- A call that may fail, and how its error is reported. -/
def attempt {σ : Type} (io : Io) (call : Call) (wrap : IoError → EngineError) : EStateM EngineError σ Unit :=
  match io.fails call with
  | some error => throw (wrap error)
  | none => pure ()

theorem attempt_ok {σ : Type} {io : Io} {call : Call} {wrap : IoError → EngineError} {s t : σ} {u : Unit} :
    attempt io call wrap s = .ok u t ↔ io.fails call = none ∧ t = s := by
  rw [attempt]
  cases io.fails call with
  | none => simp [eq_comm]
  | some error => simp

theorem attempt_error {σ : Type} {io : Io} {call : Call} {wrap : IoError → EngineError} {s t : σ} {e : EngineError} :
    attempt io call wrap s = .error e t ↔ (∃ error, io.fails call = some error ∧ e = wrap error) ∧ t = s := by
  rw [attempt]
  cases io.fails call with
  | none => simp
  | some error => simp [eq_comm]

theorem attempt_bind_ok {σ α : Type} {io : Io} {call : Call} {wrap : IoError → EngineError}
    {f : Unit → EStateM EngineError σ α} {s t : σ} {a : α} :
    (attempt io call wrap >>= f) s = .ok a t ↔ io.fails call = none ∧ f () s = .ok a t := by
  rw [attempt]
  cases fails : io.fails call with
  | none => rw [bind_of_ok (pure_run () s)]; simp
  | some error => rw [bind_of_error (throw_run _ s)]; simp

theorem attempt_bind_error {σ α : Type} {io : Io} {call : Call} {wrap : IoError → EngineError}
    {f : Unit → EStateM EngineError σ α} {s t : σ} {e : EngineError} :
    (attempt io call wrap >>= f) s = .error e t ↔ ((∃ error, io.fails call = some error ∧ e = wrap error) ∧ t = s) ∨
      io.fails call = none ∧ f () s = .error e t := by
  rw [attempt]
  cases fails : io.fails call with
  | none => rw [bind_of_ok (pure_run () s)]; simp
  | some error => rw [bind_of_error (throw_run _ s)]; simp [eq_comm]

/-- What a failing write leaves of the bytes it was given: never all of them. -/
def Io.torn (io : Io) (call : Call) (bytes : Bytes) : Bytes := bytes.dropLast.take (io.written call)

def map_io_error (error : IoError) : EngineError :=
  if error.kind = .StorageFull ∨ error.kind = .QuotaExceeded then .DiskFull else .Io error

def map_lock_error (error : IoError) : EngineError :=
  if error.kind = .WouldBlock then .AlreadyOpen else .Io error

structure Store where
  path : Path
  file : Bytes
  header : StoreHeader
  options : StoreOptions
  state : State
  next_tx_id : UInt64
  next_sequence : UInt64
  metrics : StoreMetrics

def next_counter (max : UInt64) : Except EngineError UInt64 :=
  if max = 0 then .ok 1
  else match max.checked_add 1 with
  | none => .error .CounterExhausted
  | some next => .ok next

/-- `sync_file`; relaxed durability makes no call -/
def sync_file {σ : Type} (io : Io) (call : Call) (durability : Durability) : EStateM EngineError σ Unit :=
  match durability with
  | .Strict => attempt io call map_io_error
  | .Data => attempt io call map_io_error
  | .Relaxed => pure ()

theorem sync_ok {σ : Type} {io : Io} {call : Call} {durability : Durability} {s t : σ} {u : Unit} :
    sync_file io call durability s = .ok u t ↔ (durability = .Relaxed ∨ io.fails call = none) ∧ t = s := by
  cases durability with
  | Strict => simp [sync_file,attempt_ok]
  | Data => simp [sync_file,attempt_ok]
  | Relaxed => simp [sync_file,eq_comm]

theorem sync_error {σ : Type} {io : Io} {call : Call} {durability : Durability} {s t : σ} {e : EngineError}
    (failed : sync_file io call durability s = .error e t) :
    durability ≠ .Relaxed ∧ io.fails call ≠ none ∧ t = s := by
  cases durability with
  | Strict =>
    obtain ⟨⟨error,fails,-⟩,same⟩ := attempt_error.mp failed
    exact ⟨by simp,by simp [fails],same⟩
  | Data =>
    obtain ⟨⟨error,fails,-⟩,same⟩ := attempt_error.mp failed
    exact ⟨by simp,by simp [fails],same⟩
  | Relaxed => cases failed

/-- The torn tail is cut off if the options ask for it. -/
def repair_tail (io : Io) (options : StoreOptions) (valid_end : Nat) : EStateM EngineError Bytes Unit := do
  let file ← get
  if valid_end < file.length ∧ options.repair_torn_tail = true then
    attempt io .set_len .Io
    set (file.take valid_end)
    sync_file io .repair_sync options.durability
  else pure ()

/-- What follows the last complete record goes if the options ask for it. -/
def repaired (options : StoreOptions) (valid_end : Nat) (file : Bytes) : Bytes :=
  if valid_end < file.length ∧ options.repair_torn_tail = true then file.take valid_end else file

theorem repair_tail_ok {io : Io} {options : StoreOptions} {valid_end : Nat} {file left : Bytes} {u : Unit}
    (done : repair_tail io options valid_end file = .ok u left) : left = repaired options valid_end file := by
  rw [repair_tail,get_bind] at done
  unfold repaired
  split at done
  · rename_i torn
    rw [attempt_bind_ok,set_bind] at done
    rw [if_pos torn]
    exact (sync_ok.mp done.2).2
  · rename_i whole
    cases done
    rw [if_neg whole]

theorem repair_tail_succeeds {io : Io} (faultless : io.Faultless) (options : StoreOptions) (valid_end : Nat)
    (file : Bytes) : repair_tail io options valid_end file = .ok () (repaired options valid_end file) := by
  rw [repair_tail,get_bind,repaired]
  split
  · rw [attempt_bind_ok]
    refine ⟨faultless.1 _,?_⟩
    rw [set_bind]
    exact sync_ok.mpr ⟨.inr (faultless.1 _),rfl⟩
  · rfl

section
variable [Hashes]

/-- The state is the contents of the file. -/
def load_or_initialize_header (io : Io) : EStateM EngineError Bytes StoreHeader := do
  attempt io .header_metadata .Io
  let file ← get
  if file.length = 0 then
    let store_id ← lift io.generate_store_id
    let created_at_ms ← lift io.unix_time_ms
    let header := StoreHeader.new store_id created_at_ms
    attempt io .header_seek .Io
    match io.fails .header_write with
    | some error =>
      set (io.torn .header_write header.encode)
      throw (.Io error)
    | none =>
      set header.encode
      attempt io .header_sync .Io
      return header
  else if file.length < STORE_HEADER_LEN then throw (.Header .Truncated)
  else
    attempt io .header_seek .Io
    attempt io .header_read .Io
    lift ((StoreHeader.decode (file.take STORE_HEADER_LEN)).mapError .Header)

/-- The state is the contents of the file; a missing file is created empty. -/
def open_with_options (io : Io) (path : Path) (options : StoreOptions) : EStateM EngineError Bytes Store := do
  attempt io .open_file .Io
  attempt io .canonicalize .Io
  lift (if io.already_open then .error .AlreadyOpen else .ok ())
  attempt io .lock map_lock_error
  let header ← load_or_initialize_header io
  attempt io .recover_seek .Io
  attempt io .recover_read .Io
  let recovery ← lift (recover (← get))
  attempt io .open_metadata .Io
  repair_tail io options recovery.valid_end
  attempt io .open_seek .Io
  let next_tx_id ← lift (next_counter recovery.max_tx_id)
  let next_sequence ← lift (next_counter recovery.max_sequence)
  return {
    path := path
    file := ← get
    header := header
    options := options
    state := recovery.state
    next_tx_id := next_tx_id
    next_sequence := next_sequence
    metrics := { StoreMetrics.default with recovery_records := recovery.records } }

/-- The quota on the length of the file, looked at before a record is written. -/
def Store.check_storage_quota (self : Store) (io : Io) (sequence : UInt64) (bytes : Bytes) : Except EngineError Unit :=
  match self.options.max_bytes with
  | none => .ok ()
  | some max_bytes =>
    match io.fails (.append_metadata sequence) with
    | some error => .error (.Io error)
    | none =>
      match (UInt64.ofNat self.file.length).checked_add (.ofNat bytes.length) with
      | none => .error (.StorageQuotaExceeded max_bytes)
      | some projected => if projected > max_bytes then .error (.StorageQuotaExceeded max_bytes) else .ok ()

def StoreMetrics.appended (self : StoreMetrics) (kind : RecordKind) (bytes : Bytes) : StoreMetrics :=
  let self := { self with
    records_appended := self.records_appended.saturating_add 1
    bytes_appended := self.bytes_appended.saturating_add (.ofNat bytes.length) }
  match kind with
  | .Put => { self with puts := self.puts.saturating_add 1 }
  | .Delete => { self with deletes := self.deletes.saturating_add 1 }
  | .Commit => { self with commits := self.commits.saturating_add 1 }

/-- A record number is used up even by an append that fails. -/
def append (io : Io) (kind : RecordKind) (tx_id : UInt64) (payload : Bytes) : EStateM EngineError Store Unit := do
  let sequence := (← get).next_sequence
  match sequence.checked_add 1 with
  | none => throw .CounterExhausted
  | some next_sequence =>
    modify ({ · with next_sequence := next_sequence })
    let bytes ← lift ((LogRecord.mk kind tx_id sequence payload).encode.mapError .Log)
    lift ((← get).check_storage_quota io sequence bytes)
    attempt io (.append_seek sequence) .Io
    match io.fails (.append_write sequence) with
    | some error =>
      modify (fun self => { self with file := self.file ++ io.torn (.append_write sequence) bytes })
      throw (map_io_error error)
    | none =>
      modify (fun self => { self with file := self.file ++ bytes, metrics := self.metrics.appended kind bytes })

end

def Store.get (self : Store) (key : Bytes) : Option Bytes := self.state[key]?

/-- The entries under a prefix, in key order. -/
def Store.scan_prefix (self : Store) (front : Bytes) : List (Bytes × Bytes) :=
  self.state.toList.filter (fun entry => starts_with entry.1 front)

/-! ## What appending does -/

/-- Records numbered upwards from `a`, below `b`. -/
structure Numbered (a b : UInt64) (rs : List LogRecord) : Prop where
  count : a.toNat + rs.length ≤ b.toNat
  increasing : Increasing rs
  range : ∀ r ∈ rs, a ≤ r.sequence ∧ r.sequence < b

theorem Numbered.nil {a b : UInt64} (order : a ≤ b) : Numbered a b [] := by
  refine ⟨?_,.nil,by simp⟩
  exact UInt64.le_iff_toNat_le.mp order

theorem Numbered.le {a b : UInt64} {rs : List LogRecord} (numbered : Numbered a b rs) : a ≤ b := by
  have count := numbered.count
  exact UInt64.le_iff_toNat_le.mpr (by omega)

theorem Numbered.single {a b : UInt64} {r : LogRecord} (here : r.sequence = a) (next : b.toNat = a.toNat + 1) :
    Numbered a b [r] := by
  refine ⟨by simp; omega,List.pairwise_singleton _ _,?_⟩
  intro other member
  rw [List.mem_singleton.mp member,here]
  exact ⟨UInt64.le_refl _,UInt64.lt_iff_toNat_lt.mpr (by omega)⟩

theorem Numbered.append {a b c : UInt64} {first second : List LogRecord} (low : Numbered a b first)
    (high : Numbered b c second) : Numbered a c (first ++ second) := by
  have lowCount := low.count
  have highCount := high.count
  refine ⟨by rw [List.length_append]; omega,?_,?_⟩
  · refine List.pairwise_append.mpr ⟨low.increasing,high.increasing,?_⟩
    intro r early t late
    exact UInt64.lt_of_lt_of_le (low.range r early).2 (high.range t late).1
  · intro r member
    rcases List.mem_append.mp member with early | late
    · exact ⟨(low.range r early).1,UInt64.lt_of_lt_of_le (low.range r early).2 high.le⟩
    · exact ⟨UInt64.le_trans low.le (high.range r late).1,(high.range r late).2⟩

theorem torn_front (io : Io) (call : Call) {bytes : Bytes} (some_bytes : bytes ≠ []) :
    io.torn call bytes <+: bytes ∧ io.torn call bytes ≠ bytes := by
  have shorter : (io.torn call bytes).length < bytes.length := by
    have positive := List.length_pos_of_ne_nil some_bytes
    rw [Io.torn,List.length_take,List.length_dropLast]
    omega
  refine ⟨(List.take_prefix _ _).trans (List.dropLast_prefix _),?_⟩
  intro same
  rw [same] at shorter
  exact lt_irrefl _ shorter

section
variable [Hashes]

/-- What appending can do to a store: the file grows by whole records and then
    by a piece of one, the record counter moves on, and the rest stays. -/
structure Grown (s t : Store) (rs : List LogRecord) (piece : Bytes) : Prop where
  file : t.file = s.file ++ (frames rs ++ piece)
  numbered : Numbered s.next_sequence t.next_sequence rs
  fits : ∀ r ∈ rs, r.Fits
  path : t.path = s.path
  header : t.header = s.header
  options : t.options = s.options
  state : t.state = s.state
  next_tx_id : t.next_tx_id = s.next_tx_id

/-- What a failing append may leave behind: a piece of a record, and none of it
    unless a write was cut short. -/
structure Piece (io : Io) (piece : Bytes) : Prop where
  torn : recordHead piece = .torn
  short : piece ≠ [] → ∃ sequence, io.fails (.append_write sequence) ≠ none ∧ io.written (.append_write sequence) ≠ 0

theorem recordHead_nil : recordHead [] = .torn := recordHead_torn_iff.mpr (.inl (by decide))

theorem Piece.none (io : Io) : Piece io [] := ⟨recordHead_nil,fun absurd => (absurd rfl).elim⟩

theorem Grown.refl (s : Store) : Grown s s [] [] :=
  ⟨by simp [frames],.nil (UInt64.le_refl _),by simp,rfl,rfl,rfl,rfl,rfl⟩

theorem Grown.trans {s t u : Store} {first second : List LogRecord} {piece : Bytes} (low : Grown s t first [])
    (high : Grown t u second piece) : Grown s u (first ++ second) piece := by
  refine ⟨?_,low.numbered.append high.numbered,?_,?_,?_,?_,?_,?_⟩
  · rw [high.file,low.file]
    simp [frames]
  · intro r member
    rcases List.mem_append.mp member with early | late
    · exact low.fits r early
    · exact high.fits r late
  · exact high.path.trans low.path
  · exact high.header.trans low.header
  · exact high.options.trans low.options
  · exact high.state.trans low.state
  · exact high.next_tx_id.trans low.next_tx_id

/-- An append that succeeds puts its record at the end of the file. -/
theorem append_ok {io : Io} {kind : RecordKind} {tx_id : UInt64} {payload : Bytes} {s t : Store} {u : Unit}
    (done : append io kind tx_id payload s = .ok u t) : Grown s t [⟨kind,tx_id,s.next_sequence,payload⟩] [] := by
  rw [append,get_bind] at done
  cases added : s.next_sequence.checked_add 1 with
  | none => rw [added] at done; cases done
  | some next =>
    rw [added] at done
    dsimp only at done
    rw [modify_bind,lift_bind_ok] at done
    obtain ⟨bytes,encoded,done⟩ := done
    rw [get_bind,lift_bind_ok] at done
    obtain ⟨_,-,done⟩ := done
    rw [attempt_bind_ok] at done
    obtain ⟨-,done⟩ := done
    cases wrote : io.fails (.append_write s.next_sequence) with
    | some error => rw [wrote] at done; cases done
    | none =>
      rw [wrote] at done
      cases done
      by_cases fits : (LogRecord.mk kind tx_id s.next_sequence payload).Fits
      · rw [encode_fits fits] at encoded
        cases encoded
        refine ⟨by simp [frames,logFraming],.single rfl (u64_checked_add_some added),?_,rfl,rfl,rfl,rfl,rfl⟩
        intro r member
        rw [List.mem_singleton.mp member]
        exact fits
      · rw [encode_too_large fits] at encoded
        cases encoded

/-- An append that fails leaves at most a piece of its record. -/
theorem append_error {io : Io} {kind : RecordKind} {tx_id : UInt64} {payload : Bytes} {s t : Store} {error : EngineError}
    (failed : append io kind tx_id payload s = .error error t) : ∃ piece, Grown s t [] piece ∧ Piece io piece := by
  rw [append,get_bind] at failed
  cases added : s.next_sequence.checked_add 1 with
  | none =>
    rw [added] at failed
    cases failed
    exact ⟨[],.refl s,.none io⟩
  | some next =>
    have counted := u64_checked_add_some added
    have order : s.next_sequence ≤ next := UInt64.le_iff_toNat_le.mpr (by omega)
    have moved : ∀ piece : Bytes, Grown s { s with next_sequence := next, file := s.file ++ piece } [] piece := by
      intro piece
      exact ⟨by simp [frames],.nil order,by simp,rfl,rfl,rfl,rfl,rfl⟩
    have still : Grown s { s with next_sequence := next } [] [] := by
      have grown := moved []
      rw [List.append_nil] at grown
      exact grown
    rw [added] at failed
    dsimp only at failed
    rw [modify_bind,lift_bind_error] at failed
    rcases failed with ⟨-,rfl⟩ | ⟨bytes,encoded,failed⟩
    · exact ⟨[],still,.none io⟩
    rw [get_bind,lift_bind_error] at failed
    rcases failed with ⟨-,rfl⟩ | ⟨_,-,failed⟩
    · exact ⟨[],still,.none io⟩
    rw [attempt_bind_error] at failed
    rcases failed with ⟨-,rfl⟩ | ⟨-,failed⟩
    · exact ⟨[],still,.none io⟩
    cases wrote : io.fails (.append_write s.next_sequence) with
    | none => rw [wrote] at failed; cases failed
    | some error =>
      rw [wrote] at failed
      cases failed
      refine ⟨_,moved _,?_,fun some_bytes => ⟨s.next_sequence,by simp [wrote],fun nothing =>
        some_bytes (by rw [Io.torn,nothing,List.take_zero])⟩⟩
      by_cases fits : (LogRecord.mk kind tx_id s.next_sequence payload).Fits
      · rw [encode_fits fits] at encoded
        cases encoded
        obtain ⟨cut,proper⟩ := torn_front io (.append_write s.next_sequence) (logFraming.encode_ne_nil fits)
        exact recordHead_cut fits cut proper
      · rw [encode_too_large fits] at encoded
        cases encoded

/-! ## What opening does -/

/-- A file that starts with a header this engine reads. -/
structure HasHeader (file : Bytes) (header : StoreHeader) : Prop where
  long : STORE_HEADER_LEN ≤ file.length
  decodes : StoreHeader.decode (file.take STORE_HEADER_LEN) = .ok header

theorem HasHeader.fresh (store_id : ByteArr 16) (created_at_ms : Int64) :
    HasHeader (StoreHeader.new store_id created_at_ms).encode (StoreHeader.new store_id created_at_ms) := by
  refine ⟨by rw [header_length],?_⟩
  rw [List.take_of_length_le (by rw [header_length])]
  exact header_round_trip rfl

/-- The header is kept by whatever keeps the first bytes of the file. -/
theorem HasHeader.take {file : Bytes} {header : StoreHeader} (has : HasHeader file header) {n : Nat}
    (kept : STORE_HEADER_LEN ≤ n) : HasHeader (file.take n) header := by
  have long := has.long
  refine ⟨by rw [List.length_take]; omega,?_⟩
  rw [List.take_take,min_eq_left kept]
  exact has.decodes

theorem HasHeader.append {file : Bytes} {header : StoreHeader} (has : HasHeader file header) (bytes : Bytes) :
    HasHeader (file ++ bytes) header := by
  have long := has.long
  refine ⟨by rw [List.length_append]; omega,?_⟩
  rw [List.take_append_of_le_length long]
  exact has.decodes

/-- The file that opening works on: a missing one is given a header first. -/
def Started (file started : Bytes) (header : StoreHeader) : Prop :=
  HasHeader started header ∧ (started = file ∨ file = [] ∧ started = header.encode)

theorem load_header_ok {io : Io} {file started : Bytes} {header : StoreHeader}
    (loaded : load_or_initialize_header io file = .ok header started) : Started file started header := by
  rw [load_or_initialize_header,attempt_bind_ok] at loaded
  obtain ⟨-,loaded⟩ := loaded
  rw [get_bind] at loaded
  split at loaded
  · rename_i empty
    rw [lift_bind_ok] at loaded
    obtain ⟨store_id,-,loaded⟩ := loaded
    rw [lift_bind_ok] at loaded
    obtain ⟨created,-,loaded⟩ := loaded
    rw [attempt_bind_ok] at loaded
    obtain ⟨-,loaded⟩ := loaded
    cases wrote : io.fails .header_write with
    | some error => rw [wrote] at loaded; cases loaded
    | none =>
      rw [wrote] at loaded
      dsimp only at loaded
      rw [set_bind,attempt_bind_ok] at loaded
      obtain ⟨-,loaded⟩ := loaded
      cases loaded
      exact ⟨.fresh _ _,.inr ⟨List.length_eq_zero_iff.mp empty,rfl⟩⟩
  · split at loaded
    · cases loaded
    · rename_i long
      rw [attempt_bind_ok] at loaded
      obtain ⟨-,loaded⟩ := loaded
      rw [attempt_bind_ok] at loaded
      obtain ⟨-,loaded⟩ := loaded
      obtain ⟨decoded,rfl⟩ := lift_eq_ok.mp loaded
      refine ⟨⟨by omega,?_⟩,.inl rfl⟩
      cases read : StoreHeader.decode (started.take STORE_HEADER_LEN) with
      | ok found => rw [read] at decoded; cases decoded; rfl
      | error error => rw [read] at decoded; cases decoded

/-- What a store knows when it has been opened. -/
structure Opened (options : StoreOptions) (file : Bytes) (store : Store) (recovery : Recovery) (started : Bytes) :
    Prop where
  starts : Started file started store.header
  recovers : recover started = .ok recovery
  file : store.file = repaired options recovery.valid_end started
  options : store.options = options
  state : store.state = recovery.state
  next_tx_id : next_counter recovery.max_tx_id = .ok store.next_tx_id
  next_sequence : next_counter recovery.max_sequence = .ok store.next_sequence

theorem open_ok {io : Io} {path : Path} {options : StoreOptions} {file left : Bytes} {store : Store}
    (opened : open_with_options io path options file = .ok store left) :
    left = store.file ∧ store.path = path ∧ ∃ recovery started, Opened options file store recovery started := by
  unfold open_with_options at opened
  obtain ⟨-,opened⟩ := attempt_bind_ok.mp opened
  obtain ⟨-,opened⟩ := attempt_bind_ok.mp opened
  obtain ⟨_,-,opened⟩ := lift_bind_ok.mp opened
  obtain ⟨-,opened⟩ := attempt_bind_ok.mp opened
  obtain ⟨header,started,loaded,opened⟩ := bind_ok.mp opened
  obtain ⟨-,opened⟩ := attempt_bind_ok.mp opened
  obtain ⟨-,opened⟩ := attempt_bind_ok.mp opened
  rw [get_bind] at opened
  obtain ⟨recovery,recovers,opened⟩ := lift_bind_ok.mp opened
  obtain ⟨-,opened⟩ := attempt_bind_ok.mp opened
  obtain ⟨_,cut,repairs,opened⟩ := bind_ok.mp opened
  obtain ⟨-,opened⟩ := attempt_bind_ok.mp opened
  obtain ⟨next_tx_id,txCounter,opened⟩ := lift_bind_ok.mp opened
  obtain ⟨next_sequence,sequenceCounter,opened⟩ := lift_bind_ok.mp opened
  rw [get_bind] at opened
  cases opened
  exact ⟨rfl,rfl,recovery,started,load_header_ok loaded,recovers,repair_tail_ok repairs,rfl,rfl,txCounter,
    sequenceCounter⟩

/-- Without faults, loading the header of a missing file or of one that has a header succeeds. -/
theorem load_header_succeeds {io : Io} {file : Bytes} (faultless : io.Faultless)
    (ready : file = [] ∨ ∃ header, HasHeader file header) :
    ∃ header started, load_or_initialize_header io file = .ok header started := by
  obtain ⟨quiet,-,⟨id,random⟩,now,clock⟩ := faultless
  rcases ready with rfl | ⟨header,has⟩
  · refine ⟨.new id now,(StoreHeader.new id now).encode,?_⟩
    simp only [load_or_initialize_header,attempt,quiet,random,clock]
    rfl
  · have long := has.long
    have some_bytes : ¬ file.length = 0 := by rw [STORE_HEADER_LEN] at long; omega
    refine ⟨header,file,?_⟩
    simp only [load_or_initialize_header,attempt,quiet]
    rw [bind_of_ok (pure_run _ _),get_bind,if_neg some_bytes,if_neg (by omega),bind_of_ok (pure_run _ _),
      bind_of_ok (pure_run _ _),has.decodes]
    rfl

/-- Without faults, opening succeeds on every file whose header and log are in
    order and whose counters can still count. -/
theorem open_succeeds {io : Io} {path : Path} {options : StoreOptions} {file : Bytes} (faultless : io.Faultless)
    (ready : file = [] ∨ ∃ header, HasHeader file header)
    (sound : ∀ started header, Started file started header → ∃ recovery next_tx_id next_sequence,
      recover started = .ok recovery ∧ next_counter recovery.max_tx_id = .ok next_tx_id ∧
        next_counter recovery.max_sequence = .ok next_sequence) :
    ∃ store left, open_with_options io path options file = .ok store left := by
  obtain ⟨header,started,loaded⟩ := load_header_succeeds faultless ready
  obtain ⟨recovery,next_tx_id,next_sequence,recovers,txCounter,sequenceCounter⟩ :=
    sound started header (load_header_ok loaded)
  let store : Store := {
    path := path
    file := repaired options recovery.valid_end started
    header := header
    options := options
    state := recovery.state
    next_tx_id := next_tx_id
    next_sequence := next_sequence
    metrics := { StoreMetrics.default with recovery_records := recovery.records } }
  refine ⟨store,repaired options recovery.valid_end started,?_⟩
  unfold open_with_options
  simp only [attempt_bind_ok,lift_bind_ok,faultless.1,faultless.2.1,true_and]
  refine ⟨(),rfl,?_⟩
  refine bind_ok.mpr ⟨header,started,loaded,?_⟩
  simp only [attempt_bind_ok,faultless.1,true_and,get_bind,lift_bind_ok]
  refine ⟨recovery,recovers,?_⟩
  refine bind_ok.mpr ⟨(),_,repair_tail_succeeds faultless options _ _,?_⟩
  simp only [attempt_bind_ok,faultless.1,true_and,get_bind,lift_bind_ok]
  exact ⟨next_tx_id,txCounter,next_sequence,sequenceCounter,rfl⟩

end

end VoodooStore
