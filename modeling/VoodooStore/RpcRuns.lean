import VoodooStore.Numbers
import VoodooStore.RpcBook

/-!
# The life of a request

Requests are submitted, staged and committed, answered, expired and
acknowledged in any order, with reopenings between. The map always shows a book,
every move changes it as a life goes on (`RpcNext`), and so a request has one
outcome at most (`rpc_one_outcome`). An answer whose commit is not confirmed is
read after a reopening (`unconfirmed_answer_read`).
-/
namespace VoodooStore
open Effects Frames
set_option linter.unusedSimpArgs false

/-! ## Runs -/

inductive RpcReply
  | Requested (id : RpcRequestId)
  | Responded
  | Acknowledged (removed : Bool)
  | Expired (report : RpcExpireReport)
  deriving DecidableEq

/-- The request that the call issued. -/
def requestedBy : Happened RpcError RpcCall RpcTxCall RpcReply → Option RpcRequest
  | .Returned (.SubmitRpcRequest _ _ method payload created_at_ms deadline_ms) (.ok (.Requested id)) =>
    some ⟨id,method,payload,created_at_ms,deadline_ms⟩
  | .Staged (.RequestRpc _ _ method payload created_at_ms deadline_ms) (.ok (.Requested id)) _ =>
    some ⟨id,method,payload,created_at_ms,deadline_ms⟩
  | _ => none

def issuedIn (log : List (Happened RpcError RpcCall RpcTxCall RpcReply)) : List RpcRequest := (account log).done.filterMap requestedBy

def stagedIn (log : List (Happened RpcError RpcCall RpcTxCall RpcReply)) : List RpcRequest := (account log).pending.filterMap requestedBy

/-- Others write elsewhere, and no nonce repeats within a transaction that is committed. -/
def rpcTerms : Terms RpcError RpcCall RpcTxCall RpcReply where
  mine := rpcKey
  call := fun _ => RpcCall.Durable
  callTx := fun _ => RpcTxCall.Durable
  commit log := ((stagedIn log).map (fun request => request.id.nonce)).Nodup

theorem issued_returned (log : List (Happened RpcError RpcCall RpcTxCall RpcReply)) (call : RpcCall) (result : Except RpcError RpcReply) :
    issuedIn (log ++ [Happened.Returned call result]) = issuedIn log ++ (requestedBy (.Returned call result)).toList := by
  unfold issuedIn
  rw [account_snoc]
  cases requested : requestedBy (.Returned call result) <;> simp [Account.note,requested]

@[simp] theorem issued_began (log : List (Happened RpcError RpcCall RpcTxCall RpcReply)) : issuedIn (log ++ [Happened.Began]) = issuedIn log := by
  simp [issuedIn,Account.note]

@[simp] theorem issued_staged (log : List (Happened RpcError RpcCall RpcTxCall RpcReply)) (call : RpcTxCall)
    (result : Except RpcError RpcReply) (spoiled : Bool) : issuedIn (log ++ [Happened.Staged call result spoiled]) = issuedIn log := by
  simp [issuedIn,Account.note]

@[simp] theorem issued_committed (log : List (Happened RpcError RpcCall RpcTxCall RpcReply)) :
    issuedIn (log ++ [Happened.Committed]) = issuedIn log ++ stagedIn log := by
  simp [issuedIn,stagedIn,Account.note]

@[simp] theorem issued_abandoned (log : List (Happened RpcError RpcCall RpcTxCall RpcReply)) :
    issuedIn (log ++ [Happened.Abandoned]) = issuedIn log := by
  simp [issuedIn,Account.note]

@[simp] theorem staged_began (log : List (Happened RpcError RpcCall RpcTxCall RpcReply)) : stagedIn (log ++ [Happened.Began]) = [] := by
  simp [stagedIn,Account.note]

theorem staged_staged (log : List (Happened RpcError RpcCall RpcTxCall RpcReply)) (call : RpcTxCall) (result : Except RpcError RpcReply)
    (spoiled : Bool) : stagedIn (log ++ [Happened.Staged call result spoiled]) =
      stagedIn log ++ (requestedBy (.Staged call result spoiled)).toList := by
  unfold stagedIn
  rw [account_snoc]
  cases requested : requestedBy (.Staged call result spoiled) <;> simp [Account.note,requested]

/-- The request about which the call has succeeded with something. -/
def subject : RpcCall → Except RpcError RpcReply → Option RpcRequestId
  | .SubmitRpcRequest _ _ _ _ _ _, .ok (.Requested id) => some id
  | .RespondRpc _ id _ _ _, .ok .Responded => some id
  | .AckRpcResponse _ id, .ok (.Acknowledged true) => some id
  | _, _ => none

section
variable [Hashes]

def rpcs : Domain RpcError RpcCall RpcTxCall RpcReply where
  on_store
    | .SubmitRpcRequest io entropy method payload created_at_ms deadline_ms => do
      return .Requested (← submit_rpc_request io entropy method payload created_at_ms deadline_ms)
    | .RespondRpc io id payload completed_at_ms is_error => do
      respond_rpc io id payload completed_at_ms is_error
      return .Responded
    | .AckRpcResponse io id => do return .Acknowledged (← ack_rpc_response io id)
    | .ExpireRpcRequests ios now_ms limit => do return .Expired (← expire_rpc_requests ios now_ms limit)
  on_tx
    | .RequestRpc io entropy method payload created_at_ms deadline_ms => do
      return .Requested (← request_rpc io entropy method payload created_at_ms deadline_ms)

abbrev RpcPlay : Type := Play RpcError RpcCall RpcTxCall RpcReply
abbrev RpcMove : Type := Move RpcCall RpcTxCall

/-- The move issues the request for good. -/
inductive Issues (play : RpcPlay) (move : RpcMove) (request : RpcRequest) : Prop
  | submits (io : Io) (entropy : Option (ByteArr 16))
      (made : move = .Call (.SubmitRpcRequest io entropy request.method request.payload request.created_at_ms request.deadline_ms))
      (replied : play.reply rpcs move = some (.ok (.Requested request.id)))
  | commits (io : Io) (made : move = .Commit io) (staged : request ∈ stagedIn play.log)
      (done : (play.step rpcs move).log = play.log ++ [Happened.Committed])

/-- The move is a `respond_rpc` that succeeds. -/
def Responds (play : RpcPlay) (move : RpcMove) (response : RpcResponse) : Prop :=
  (∃ io, move = .Call (.RespondRpc io response.request_id response.payload response.completed_at_ms response.is_error)) ∧
    play.reply rpcs move = some (.ok .Responded)

/-- The move is an expiry past the deadline of the request. -/
def Expires (play : RpcPlay) (move : RpcMove) (request : RpcRequest) (response : RpcResponse) : Prop :=
  ∃ ios now_ms limit store, move = .Call (.ExpireRpcRequests ios now_ms limit) ∧ play.session = .Idle store ∧
    response = ⟨request.id,ascii "deadline exceeded",now_ms,true⟩ ∧ ∃ deadline, request.deadline_ms = some deadline ∧ deadline ≤ now_ms

/-- The move is an `ack_rpc_response` that removes the response. -/
def Acknowledges (play : RpcPlay) (move : RpcMove) (id : RpcRequestId) : Prop :=
  (∃ io, move = .Call (.AckRpcResponse io id)) ∧ play.reply rpcs move = some (.ok (.Acknowledged true))

/-- The move has succeeded with something about the request. -/
inductive Speaks (play : RpcPlay) (move : RpcMove) (id : RpcRequestId) : Prop
  | issues (request : RpcRequest) (here : request.id = id) (issues : Issues play move request)
  | responds (response : RpcResponse) (here : response.request_id = id) (responds : Responds play move response)
  | acknowledges (acknowledges : Acknowledges play move id)

/-- How the life of a request goes on. -/
inductive RpcNext (play : RpcPlay) (move : RpcMove) (id : RpcRequestId) : RpcPhase → RpcPhase → Prop
  | stays {phase : RpcPhase} (silent : ¬ Speaks play move id) : RpcNext play move id phase phase
  | issued {request : RpcRequest} (here : request.id = id) (issues : Issues play move request) :
      RpcNext play move id .Unissued (.Pending request)
  | responded {request : RpcRequest} {response : RpcResponse} (here : response.request_id = id) (responds : Responds play move response) :
      RpcNext play move id (.Pending request) (.Answered response)
  | expired {request : RpcRequest} {response : RpcResponse} (here : request.id = id) (expires : Expires play move request response) :
      RpcNext play move id (.Pending request) (.Answered response)
  | acknowledged {response : RpcResponse} (acknowledges : Acknowledges play move id) :
      RpcNext play move id (.Answered response) .Acknowledged

/-! ### What the calls do -/

theorem respond_rpc_ok {io : Io} {id : RpcRequestId} {payload : Bytes} {completed_at_ms : Int64} {is_error : Bool} {store t : Store}
    {x : Unit} (done : respond_rpc io id payload completed_at_ms is_error store = .ok x t) :
    let response : RpcResponse := ⟨id,payload,completed_at_ms,is_error⟩
    (store.state[request_key id]?).isSome = true ∧ payload.length < 2 ^ 32 ∧
      SameData ((store.state.erase (request_key id)).insert (response_key id) response.spelling) t.state := by
  unfold respond_rpc at done
  rw [get_bind] at done
  split at done
  · split at done <;> cases done
  · rename_i stored
    obtain ⟨tx,u,begun,answered,same⟩ := within_ok done
    unfold answer at answered
    obtain ⟨_,middle,deleted,answered⟩ := bind_ok.mp answered
    obtain ⟨encoded,encodes,answered⟩ := lift_bind_ok.mp answered
    obtain ⟨fits,rfl⟩ := encode_response_ok encodes
    have erased := (delete_internal_ok (rethrow_ok.mp deleted)).1
    have inserted := (put_internal_ok (rethrow_ok.mp answered)).1
    rw [inserted,erased,(begin_view begun).1] at same
    exact ⟨by simpa [Store.get] using stored,fits,same⟩

theorem respond_rpc_atomic {io : Io} (durable : io.Durable) (id : RpcRequestId) (payload : Bytes) (completed_at_ms : Int64)
    (is_error : Bool) : Atomic (respond_rpc io id payload completed_at_ms is_error) := by
  refine .checked reads_get (fun store => ?_)
  split
  · split
    · exact atomic_of_reads (reads_throw _)
    · exact atomic_of_reads (reads_throw _)
  · exact within_atomic durable (answer_stages durable.1 id payload completed_at_ms is_error)

theorem respond_rpc_grows {io : Io} (durable : io.Durable) (id : RpcRequestId) (payload : Bytes) (completed_at_ms : Int64)
    (is_error : Bool) : Grows (respond_rpc io id payload completed_at_ms is_error) := by
  refine (grows_of_reads reads_get).bind (fun store => ?_)
  split
  · split
    · exact grows_of_reads (reads_throw _)
    · exact grows_of_reads (reads_throw _)
  · exact within_grows durable (answer_stages durable.1 id payload completed_at_ms is_error)

theorem rpcs_grows {call : RpcCall} (durable : call.Durable) : Grows (rpcs.on_store call) := by
  cases call with
  | SubmitRpcRequest io entropy method payload created_at_ms deadline_ms =>
    have stages := request_rpc_stages durable.1 entropy method payload created_at_ms deadline_ms
    exact (within_grows durable stages).bind (fun _ => grows_of_reads (reads_pure _))
  | RespondRpc io id payload completed_at_ms is_error =>
    exact (respond_rpc_grows durable id payload completed_at_ms is_error).bind (fun _ => grows_of_reads (reads_pure _))
  | AckRpcResponse io id =>
    refine Grows.bind ((grows_of_reads reads_get).bind (fun store => ?_)) (fun _ => grows_of_reads (reads_pure _))
    split
    · exact grows_of_reads (reads_pure _)
    · exact (within_grows durable (delete_stages durable.1 _)).rethrow.bind (fun _ => grows_of_reads (reads_pure _))
  | ExpireRpcRequests ios now_ms limit =>
    refine Grows.bind ((grows_of_reads reads_get).bind (fun store => ?_)) (fun _ => grows_of_reads (reads_pure _))
    refine Grows.bind ?_ (fun _ => grows_of_reads (reads_pure _))
    exact expire_pending_each grows_of_reads Grows.bind (fun i id => respond_rpc_grows (durable i) id _ now_ms true) limit 0 _

theorem rpcs_stages {call : RpcTxCall} (durable : call.Durable) : Stages (rpcs.on_tx call) := by
  cases call with
  | RequestRpc io entropy method payload created_at_ms deadline_ms =>
    have stages := request_rpc_stages durable.1 entropy method payload created_at_ms deadline_ms
    exact stages.bind (fun _ => stages_of_reads (reads_pure _))

theorem rpcs_tame : Tame rpcs rpcTerms := ⟨fun _ _ durable => (rpcs_grows durable).steady,fun _ _ => rpcs_stages⟩

/-! ### Calls keep the book -/

/-- After the call the map shows a book in which the lives have gone on. -/
def Trails (log : List (Happened RpcError RpcCall RpcTxCall RpcReply)) (call : RpcCall) (store : Store) (book : RpcBook) : Prop :=
  ∃ next, Shows (issuedIn (log ++ [Happened.Returned call (returned (rpcs.on_store call) store)])) (after (rpcs.on_store call) store).state next ∧
    ∀ id, RpcNext ⟨.Idle store,log⟩ (.Call call) id (book id) (next id)

theorem speaks_subject {log : List (Happened RpcError RpcCall RpcTxCall RpcReply)} {call : RpcCall} {store : Store} {id : RpcRequestId}
    (speaks : Speaks ⟨.Idle store,log⟩ (.Call call) id) : subject call (returned (rpcs.on_store call) store) = some id := by
  rcases speaks with ⟨request,rfl,issues⟩ | ⟨response,rfl,⟨io,made⟩,replied⟩ | ⟨⟨io,made⟩,replied⟩
  · cases issues with
    | submits io entropy made replied => cases made; rw [Option.some.inj replied]; rfl
    | commits io made => cases made
  · cases made
    rw [Option.some.inj replied]
    rfl
  · cases made
    rw [Option.some.inj replied]
    rfl

/-- A call that has not succeeded with anything leaves the map as it is. -/
theorem follows_quietly {log : List (Happened RpcError RpcCall RpcTxCall RpcReply)} {call : RpcCall} {store : Store} {book : RpcBook}
    (shown : Shows (issuedIn log) store.state book) (state : (after (rpcs.on_store call) store).state = store.state)
    (none : requestedBy (.Returned call (returned (rpcs.on_store call) store)) = none)
    (silent : subject call (returned (rpcs.on_store call) store) = .none) : Trails log call store book := by
  refine ⟨book,?_,?_⟩
  · rw [issued_returned,none,state,Option.toList_none,List.append_nil]
    exact shown
  · intro id
    refine .stays (fun speaks => ?_)
    have spoken := speaks_subject speaks
    rw [silent] at spoken
    cases spoken

theorem follows_error {log : List (Happened RpcError RpcCall RpcTxCall RpcReply)} {call : RpcCall} {store t : Store} {book : RpcBook}
    {e : RpcError} (shown : Shows (issuedIn log) store.state book) (failed : rpcs.on_store call store = .error e t)
    (state : t.state = store.state) : Trails log call store book := by
  have result : returned (rpcs.on_store call) store = .error e := by rw [returned,failed]
  refine follows_quietly shown ?_ ?_ ?_
  · rw [after,failed]
    exact state
  · rw [result]
    cases call <;> rfl
  · rw [result]
    cases call <;> rfl

/-- Nothing is said of another request. -/
theorem next_other {log : List (Happened RpcError RpcCall RpcTxCall RpcReply)} {call : RpcCall} {store : Store} {id other : RpcRequestId}
    {phase : RpcPhase} (about : subject call (returned (rpcs.on_store call) store) = some id) (apart : other ≠ id) :
    RpcNext ⟨.Idle store,log⟩ (.Call call) other phase phase := by
  refine .stays (fun speaks => apart ?_)
  have spoken := speaks_subject speaks
  rw [about] at spoken
  exact (Option.some.inj spoken).symm

theorem submit_follows {log : List (Happened RpcError RpcCall RpcTxCall RpcReply)} {io : Io} {entropy : Option (ByteArr 16)}
    {method payload : Bytes} {created_at_ms : Int64} {deadline_ms : Option Int64} {store : Store} {book : RpcBook} (durable : io.Durable)
    (shown : Shows (issuedIn log) store.state book) (fresh : ∀ request ∈ issuedIn log, request.id.tx_id ≠ store.next_tx_id) :
    Trails log (.SubmitRpcRequest io entropy method payload created_at_ms deadline_ms) store book := by
  have stages := request_rpc_stages durable.1 entropy method payload created_at_ms deadline_ms
  cases result : rpcs.on_store (.SubmitRpcRequest io entropy method payload created_at_ms deadline_ms) store with
  | error e t => exact follows_error shown result (((within_atomic durable stages).returning RpcReply.Requested).keeps store e t result)
  | ok reply t =>
    have called := result
    obtain ⟨id,_,submitted,done⟩ := bind_ok.mp called
    cases done
    obtain ⟨tx,u,begun,requested,same⟩ := within_ok submitted
    obtain ⟨view,-,number,-⟩ := begin_view begun
    obtain ⟨own,fits,inserted⟩ := request_rpc_ok requested
    rw [inserted,view] at same
    let request : RpcRequest := ⟨id,method,payload,created_at_ms,deadline_ms⟩
    have unissued : book request.id = .Unissued := by
      rw [shown.unissued]
      intro other member equal
      refine fresh other member ?_
      rw [equal,← number,← own]
    refine ⟨Function.update book request.id (.Pending request),?_,?_⟩
    · rw [issued_returned,returned,after,result]
      exact (shown.submit unissued fits).same same
    · intro other
      by_cases here : other = request.id
      · subst here
        rw [Function.update_self,unissued]
        refine .issued rfl (.submits io entropy rfl ?_)
        show some (returned _ store) = _
        rw [returned,result]
      · rw [Function.update_of_ne here]
        exact next_other (by rw [returned,result]; rfl) here

theorem respond_follows {log : List (Happened RpcError RpcCall RpcTxCall RpcReply)} {io : Io} {id : RpcRequestId} {payload : Bytes}
    {completed_at_ms : Int64} {is_error : Bool} {store : Store} {book : RpcBook} (durable : io.Durable)
    (shown : Shows (issuedIn log) store.state book) : Trails log (.RespondRpc io id payload completed_at_ms is_error) store book := by
  cases result : rpcs.on_store (.RespondRpc io id payload completed_at_ms is_error) store with
  | error e t =>
    have atomic := (respond_rpc_atomic durable id payload completed_at_ms is_error).returning (fun _ => RpcReply.Responded)
    exact follows_error shown result (atomic.keeps store e t result)
  | ok reply t =>
    have called := result
    obtain ⟨_,_,responded,done⟩ := bind_ok.mp called
    cases done
    obtain ⟨stored,fits,same⟩ := respond_rpc_ok responded
    obtain ⟨request,pending⟩ := shown.pending stored
    let response : RpcResponse := ⟨id,payload,completed_at_ms,is_error⟩
    have answered := @Shows.answer _ _ _ request response shown pending fits
    refine ⟨Function.update book id (.Answered response),?_,?_⟩
    · rw [issued_returned,returned,after,result,show requestedBy _ = none from rfl,Option.toList_none,List.append_nil]
      exact answered.same same
    · intro other
      by_cases here : other = id
      · subst here
        rw [Function.update_self,pending]
        refine .responded rfl ⟨⟨io,rfl⟩,?_⟩
        show some (returned _ store) = _
        rw [returned,result]
      · rw [Function.update_of_ne here]
        exact next_other (by rw [returned,result]; rfl) here

theorem ack_follows {log : List (Happened RpcError RpcCall RpcTxCall RpcReply)} {io : Io} {id : RpcRequestId} {store : Store}
    {book : RpcBook} (durable : io.Durable) (shown : Shows (issuedIn log) store.state book) :
    Trails log (.AckRpcResponse io id) store book := by
  cases result : rpcs.on_store (.AckRpcResponse io id) store with
  | error e t =>
    refine follows_error shown result ?_
    have atomic : Atomic (ack_rpc_response io id) := by
      refine .checked reads_get (fun self => ?_)
      split
      · exact atomic_of_reads (reads_pure _)
      · exact (delete_alone_atomic durable (response_key id)).rethrow.returning _
    exact (atomic.returning RpcReply.Acknowledged).keeps store e t result
  | ok reply t =>
    have called := result
    obtain ⟨removed,_,acknowledged,done⟩ := bind_ok.mp called
    cases done
    unfold ack_rpc_response at acknowledged
    rw [get_bind] at acknowledged
    split at acknowledged
    · cases acknowledged
      refine follows_quietly shown (by rw [after,result]) (by rw [returned,result]; rfl) (by rw [returned,result]; rfl)
    · rename_i stored
      obtain ⟨_,middle,deleted,done⟩ := bind_ok.mp acknowledged
      cases done
      have same := delete_alone_ok (rethrow_ok.mp deleted)
      obtain ⟨response,answered⟩ := @Shows.answer_stored _ _ _ id shown (by simpa [Store.get] using stored)
      refine ⟨Function.update book id .Acknowledged,?_,?_⟩
      · rw [issued_returned,returned,after,result,show requestedBy _ = none from rfl,Option.toList_none,List.append_nil]
        exact (shown.acknowledge answered).same same
      · intro other
        by_cases here : other = id
        · subst here
          rw [Function.update_self,answered]
          refine .acknowledged ⟨⟨io,rfl⟩,?_⟩
          show some (returned _ store) = _
          rw [returned,result]
        · rw [Function.update_of_ne here]
          exact next_other (by rw [returned,result]; rfl) here

/-! ### Expiry -/

/-- What an expired request is answered with. -/
def overdue (now_ms : Int64) (request : RpcRequest) : RpcResponse := ⟨request.id,ascii "deadline exceeded",now_ms,true⟩

theorem expire_pending_cons {ios : Nat → Io} {now_ms : Int64} {limit expired : Nat} {request : RpcRequest} {entries : List (Bytes × Bytes)}
    (fits : request.Fits) : expire_pending ios now_ms limit expired (request.entry :: entries) =
      if expired = limit then pure expired
      else if request.deadline_ms.any (fun deadline => deadline ≤ now_ms) then do
        respond_rpc (ios expired) request.id (ascii "deadline exceeded") now_ms true
        expire_pending ios now_ms limit (expired + 1) entries
      else expire_pending ios now_ms limit expired entries := by
  rw [RpcRequest.entry,expire_pending,decode_request_spelling fits]
  rfl

/-- The loop answers some of the pending requests that are past their deadline, as many as it counts. -/
theorem expire_pending_shows {issued : List RpcRequest} {ios : Nat → Io} {now_ms : Int64} {limit expired : Nat} {pending : List RpcRequest}
    {store : Store} {book : RpcBook} (durable : ∀ i, (ios i).Durable) (shown : Shows issued store.state book)
    (fits : ∀ request ∈ pending, request.Fits) (distinct : (pending.map RpcRequest.id).Nodup)
    (waiting : ∀ request ∈ pending, book request.id = .Pending request) :
    let loop := expire_pending ios now_ms limit expired (pending.map RpcRequest.entry)
    ∃ gone : List RpcRequest, gone.Sublist pending ∧
      (∀ request ∈ gone, ∃ deadline, request.deadline_ms = some deadline ∧ deadline ≤ now_ms) ∧
      Shows issued (after loop store).state (noted (fun request => .Answered (overdue now_ms request)) book gone) ∧
      ∀ n, returned loop store = .ok n → n = expired + gone.length := by
  induction pending generalizing store book expired with
  | nil => exact ⟨[],by simp,by simp,shown,fun n done => by cases done; rfl⟩
  | cons request pending ih =>
    rw [List.map_cons,List.nodup_cons] at distinct
    have laterFits : ∀ other ∈ pending, other.Fits := fun other member => fits other (by simp [member])
    have laterWaits : ∀ other ∈ pending, book other.id = .Pending other := fun other member => waiting other (by simp [member])
    dsimp only
    rw [List.map_cons,expire_pending_cons (fits request (by simp))]
    by_cases full : expired = limit
    · rw [if_pos full]
      exact ⟨[],by simp,by simp,shown,fun n done => by cases done; rfl⟩
    rw [if_neg full]
    by_cases late : request.deadline_ms.any (fun deadline => decide (deadline ≤ now_ms)) = true
    · rw [if_pos late]
      cases result : respond_rpc (ios expired) request.id (ascii "deadline exceeded") now_ms true store with
      | error e t =>
        have state := (respond_rpc_atomic (durable expired) request.id (ascii "deadline exceeded") now_ms true).keeps store e t result
        refine ⟨[],by simp,by simp,?_,?_⟩
        · rw [after,bind_of_error result]
          show Shows issued t.state book
          rw [state]
          exact shown
        · intro n done
          rw [returned,bind_of_error result] at done
          cases done
      | ok x t =>
        obtain ⟨-,small,same⟩ := respond_rpc_ok result
        have answered := (@Shows.answer _ _ _ request (overdue now_ms request) shown (waiting request (by simp)) small).same same
        obtain ⟨gone,inside,past,later,counted⟩ := @ih (expired + 1) t _ answered laterFits distinct.2 (by
          intro other member
          rw [Function.update_of_ne]
          · exact laterWaits other member
          · intro equal
            exact distinct.1 (List.mem_map.mpr ⟨other,member,equal⟩))
        refine ⟨request :: gone,inside.cons_cons request,?_,?_,?_⟩
        · intro other member
          rcases List.mem_cons.mp member with rfl | inner
          · obtain ⟨deadline,set_deadline,passed⟩ := (Option.any_eq_true _ _).mp late
            exact ⟨deadline,set_deadline,of_decide_eq_true passed⟩
          · exact past other inner
        · rw [after,bind_of_ok result]
          exact later
        · intro n done
          rw [returned,bind_of_ok result] at done
          rw [counted n done,List.length_cons]
          omega
    · rw [if_neg late]
      obtain ⟨gone,inside,past,later,counted⟩ := @ih expired store book shown laterFits distinct.2 laterWaits
      exact ⟨gone,inside.cons request,past,later,counted⟩

theorem expire_shows {issued : List RpcRequest} {ios : Nat → Io} {now_ms : Int64} {limit : Nat} {store : Store} {book : RpcBook}
    (durable : ∀ i, (ios i).Durable) (shown : Shows issued store.state book) :
    ∃ gone : List RpcRequest, (gone.map RpcRequest.id).Nodup ∧
      (∀ request ∈ gone, book request.id = .Pending request ∧ ∃ deadline, request.deadline_ms = some deadline ∧ deadline ≤ now_ms) ∧
      Shows issued (after (expire_rpc_requests ios now_ms limit) store).state
        (noted (fun request => .Answered (overdue now_ms request)) book gone) ∧
      ∀ report, returned (expire_rpc_requests ios now_ms limit) store = .ok report → report.expired = gone.length := by
  obtain ⟨feed,scanned,fits,distinct,pending⟩ := shown.feed
  obtain ⟨gone,inside,past,later,counted⟩ := @expire_pending_shows _ issued ios now_ms limit 0 feed store book durable shown fits distinct
    (fun request member => (pending request).mp member)
  have loop : expire_rpc_requests ios now_ms limit store = (expire_pending ios now_ms limit 0 (feed.map RpcRequest.entry) >>=
      fun expired => pure (RpcExpireReport.mk (feed.map RpcRequest.entry).length expired)) store := by
    unfold expire_rpc_requests
    rw [get_bind,scan_prefix_eq,scanned]
  refine ⟨gone,distinct.sublist (inside.map _),?_,?_,?_⟩
  · intro request member
    exact ⟨(pending request).mp (inside.subset member),past request member⟩
  · unfold after at later ⊢
    rw [loop,bind_run]
    cases result : expire_pending ios now_ms limit 0 (feed.map RpcRequest.entry) store with
    | ok n t => rw [result] at later; exact later
    | error e t => rw [result] at later; exact later
  · intro report done
    unfold returned at counted done
    rw [loop,bind_run] at done
    cases result : expire_pending ios now_ms limit 0 (feed.map RpcRequest.entry) store with
    | ok n t =>
      rw [result] at counted done
      cases done
      have count := counted n rfl
      show n = gone.length
      omega
    | error e t => rw [result] at done; cases done

theorem expire_after (ios : Nat → Io) (now_ms : Int64) (limit : Nat) (store : Store) :
    after (rpcs.on_store (.ExpireRpcRequests ios now_ms limit)) store = after (expire_rpc_requests ios now_ms limit) store := by
  show after (do return RpcReply.Expired (← expire_rpc_requests ios now_ms limit)) store = _
  unfold after
  rw [bind_run]
  cases expire_rpc_requests ios now_ms limit store <;> rfl

theorem expire_follows {log : List (Happened RpcError RpcCall RpcTxCall RpcReply)} {ios : Nat → Io} {now_ms : Int64} {limit : Nat}
    {store : Store} {book : RpcBook} (durable : ∀ i, (ios i).Durable) (shown : Shows (issuedIn log) store.state book) :
    Trails log (.ExpireRpcRequests ios now_ms limit) store book := by
  obtain ⟨gone,distinct,waited,later,-⟩ := @expire_shows _ _ ios now_ms limit store book durable shown
  refine ⟨noted (fun request => .Answered (overdue now_ms request)) book gone,?_,?_⟩
  · rw [issued_returned,show requestedBy _ = none from rfl,Option.toList_none,List.append_nil,expire_after]
    exact later
  · intro id
    by_cases here : ∃ request ∈ gone, request.id = id
    · obtain ⟨request,member,rfl⟩ := here
      obtain ⟨pending,deadline⟩ := waited request member
      rw [noted_mem distinct member,pending]
      exact .expired rfl ⟨ios,now_ms,limit,store,rfl,rfl,rfl,deadline⟩
    · rw [noted_other (fun request member same => here ⟨request,member,same⟩)]
      refine .stays (fun speaks => ?_)
      have spoken := speaks_subject speaks
      cases spoken

/-! ### Moves keep the book -/

theorem call_follows {log : List (Happened RpcError RpcCall RpcTxCall RpcReply)} {call : RpcCall} {store : Store} {book : RpcBook}
    (durable : call.Durable) (shown : Shows (issuedIn log) store.state book)
    (fresh : ∀ request ∈ issuedIn log, request.id.tx_id ≠ store.next_tx_id) : Trails log call store book := by
  cases call with
  | SubmitRpcRequest io entropy method payload created_at_ms deadline_ms => exact submit_follows durable shown fresh
  | RespondRpc io id payload completed_at_ms is_error => exact respond_follows durable shown
  | AckRpcResponse io id => exact ack_follows durable shown
  | ExpireRpcRequests ios now_ms limit => exact expire_follows durable shown

/-- What is issued by a call is under the number that its transaction left in the log. -/
theorem issued_used {call : RpcCall} {store : Store} {request : RpcRequest} (durable : call.Durable) (sound : store.Sound)
    (whole : fragment store.file = []) (issued : requestedBy (.Returned call (returned (rpcs.on_store call) store)) = some request) :
    (after (rpcs.on_store call) store).Used request.id.tx_id := by
  cases call with
  | SubmitRpcRequest io entropy method payload created_at_ms deadline_ms =>
    have stages := request_rpc_stages durable.1 entropy method payload created_at_ms deadline_ms
    cases result : rpcs.on_store (.SubmitRpcRequest io entropy method payload created_at_ms deadline_ms) store with
    | error e t => rw [returned,result] at issued; cases issued
    | ok reply t =>
      have called := result
      obtain ⟨id,_,submitted,done⟩ := bind_ok.mp called
      cases done
      rw [returned,result] at issued
      cases issued
      obtain ⟨tx,u,begun,requested,-⟩ := within_ok submitted
      obtain ⟨-,-,number,-⟩ := begin_view begun
      obtain ⟨own,-,-⟩ := request_rpc_ok requested
      rw [after,result]
      show t.Used id.tx_id
      rw [own,number]
      exact within_used stages sound whole submitted
  | RespondRpc io id payload completed_at_ms is_error => cases issued
  | AckRpcResponse io id => cases issued
  | ExpireRpcRequests ios now_ms limit => cases issued

/-- What is known of an open transaction: what it has staged is new, and under its own number. -/
structure Drafted (book : RpcBook) (log : List (Happened RpcError RpcCall RpcTxCall RpcReply)) (tx : Transaction) : Prop where
  fresh : ∀ request ∈ issuedIn log, request.id.tx_id ≠ tx.tx_id
  mine : ∀ request ∈ stagedIn log, request.id.tx_id = tx.tx_id
  view : ((stagedIn log).map RpcRequest.id).Nodup →
    Shows (issuedIn log ++ stagedIn log) tx.view (noted .Pending book (stagedIn log))

/-- The play follows the book. -/
structure Tracked (play : RpcPlay) (book : RpcBook) : Prop where
  held : play.Held
  shown : Shows (issuedIn play.log) play.session.store.state book
  used : ∀ request ∈ issuedIn play.log, play.session.store.Used request.id.tx_id
  draft : ∀ tx, play.session = .Busy tx → Drafted book play.log tx

/-- No call is made, and nothing is committed. -/
theorem silent_of_quiet {play : RpcPlay} {move : RpcMove} (quiet : play.reply rpcs move = none)
    (uncommitted : ∀ io, move = .Commit io → (play.step rpcs move).log ≠ play.log ++ [Happened.Committed]) (id : RpcRequestId) :
    ¬ Speaks play move id := by
  rintro (⟨request,-,issues⟩ | ⟨response,-,-,replied⟩ | ⟨-,replied⟩)
  · cases issues with
    | submits io entropy made replied => rw [quiet] at replied; cases replied
    | commits io made staged done => exact uncommitted io made done
  · rw [quiet] at replied
    cases replied
  · rw [quiet] at replied
    cases replied

/-- A request is drafted. -/
theorem Drafted.request {book : RpcBook} {log : List (Happened RpcError RpcCall RpcTxCall RpcReply)} {tx : Transaction} {call : RpcTxCall}
    (durable : call.Durable) (draft : Drafted book log tx) : Drafted book
      (log ++ [Happened.Staged call (returned (rpcs.on_tx call) tx) (halfway (rpcs.on_tx call) tx)]) (after (rpcs.on_tx call) tx) := by
  have number := ((rpcs_stages durable).carries tx).tx_id
  obtain ⟨io,entropy,method,payload,created_at_ms,deadline_ms⟩ := call
  have clean := (request_rpc_clean io entropy method payload created_at_ms deadline_ms).returning RpcReply.Requested
  cases result : rpcs.on_tx (.RequestRpc io entropy method payload created_at_ms deadline_ms) tx with
  | error e u =>
    rw [after,result] at number
    have nothing : ∀ spoiled, stagedIn (log ++ [Happened.Staged (.RequestRpc io entropy method payload created_at_ms deadline_ms)
        (.error e) spoiled]) = stagedIn log := by
      intro spoiled
      rw [staged_staged]
      exact List.append_nil _
    rw [after,returned,result]
    constructor
    · rw [issued_staged,number]
      exact draft.fresh
    · rw [nothing,number]
      exact draft.mine
    · rw [issued_staged,nothing,clean tx e u result]
      exact draft.view
  | ok reply u =>
    rw [after,result] at number
    have called := result
    obtain ⟨id,_,requested,done⟩ := bind_ok.mp called
    cases done
    obtain ⟨own,fits,inserted⟩ := request_rpc_ok requested
    let request : RpcRequest := ⟨id,method,payload,created_at_ms,deadline_ms⟩
    have one_more : ∀ spoiled, stagedIn (log ++ [Happened.Staged (.RequestRpc io entropy method payload created_at_ms deadline_ms)
        (.ok (.Requested id)) spoiled]) = stagedIn log ++ [request] := by
      intro spoiled
      rw [staged_staged]
      rfl
    rw [after,returned,result]
    constructor
    · rw [issued_staged,number]
      exact draft.fresh
    · rw [one_more,number,List.forall_mem_append]
      exact ⟨draft.mine,by simpa using own⟩
    · rw [issued_staged,one_more,List.map_append,List.nodup_append,← List.append_assoc,noted_snoc,inserted]
      rintro ⟨distinct,-,apart⟩
      have shown := draft.view distinct
      refine @Shows.submit _ _ _ request shown ?_ fits
      rw [shown.unissued]
      intro other member same
      rcases List.mem_append.mp member with issued | staged
      · exact draft.fresh other issued ((congrArg RpcRequestId.tx_id same).trans own)
      · exact apart other.id (List.mem_map.mpr ⟨other,staged,rfl⟩) request.id (by simp) same

/-- One move follows the book, and every life goes on. -/
theorem Tracked.step {play : RpcPlay} {book : RpcBook} {move : RpcMove} (tracked : Tracked play book) (ok : play.Allows rpcTerms move) :
    ∃ next, Tracked (play.step rpcs move) next ∧ ∀ id, RpcNext play move id (book id) (next id) := by
  obtain ⟨held,moved⟩ := Play.Held.moved rpcs_tame tracked.held ok
  obtain ⟨⟨-,-⟩,shown,used,draft⟩ := tracked
  generalize reached : play.step rpcs move = later at held moved
  cases moved with
  | stays silent =>
    refine ⟨book,⟨held,shown,used,draft⟩,fun id => .stays (silent_of_quiet silent ?_ id)⟩
    intro io made done
    rw [reached] at done
    simp at done
  | @calls store log call sound whole durable =>
    have fresh : ∀ request ∈ issuedIn log, request.id.tx_id ≠ store.next_tx_id :=
      fun request member => UInt64.ne_of_lt ((used request member).lt sound)
    obtain ⟨next,shows_next,goes⟩ := call_follows durable shown fresh
    refine ⟨next,⟨held,shows_next,?_,by simp⟩,goes⟩
    intro request member
    rw [issued_returned,List.mem_append] at member
    rcases member with old | new
    · exact (used request old).grows ((rpcs_grows durable).records store sound whole)
    · exact issued_used durable sound whole (by simpa using new)
  | @begins store log tx sound begun =>
    obtain ⟨view,state,-,-⟩ := begin_view begun
    obtain ⟨-,file⟩ := begin_sound sound begun
    refine ⟨book,⟨held,?_,?_,?_⟩,fun id => .stays (silent_of_quiet rfl (by simp) id)⟩
    · rw [issued_began]
      show Shows _ tx.store.state book
      rw [state]
      exact shown
    · rw [issued_began]
      intro request member
      exact Store.Used.grows (used request member) (show records store.file <+: records tx.store.file by rw [file])
    · rintro _ ⟨⟩
      refine ⟨?_,by simp,?_⟩
      · rw [issued_began]
        exact fun request member => begin_unused sound begun (used request member)
      · rw [issued_began,staged_began,List.append_nil,view]
        exact fun _ => shown
  | @reopens store t log io path options state read =>
    refine ⟨book,⟨held,?_,?_,by simp⟩,fun id => .stays (silent_of_quiet rfl (by simp) id)⟩
    · show Shows _ t.state book
      rw [state]
      exact shown
    · intro request member
      exact Store.Used.grows (used request member) (show records store.file <+: records t.file by rw [read])
  | @callsTx tx log call sound whole durable =>
    have stages := rpcs_stages durable
    refine ⟨book,⟨held,?_,?_,?_⟩,fun id => .stays ?_⟩
    · rw [issued_staged]
      show Shows _ (after (rpcs.on_tx call) tx).store.state book
      rw [(stages.carries tx).state]
      exact shown
    · rw [issued_staged]
      intro request member
      exact (used request member).grows (stages.grows sound whole)
    · rintro _ ⟨⟩
      exact (draft tx rfl).request durable
    · -- a call on the transaction settles nothing yet
      rintro (⟨request,-,issues⟩ | ⟨response,-,⟨_,made⟩,-⟩ | ⟨⟨_,made⟩,-⟩)
      · cases issues with
        | submits io entropy made => cases made
        | commits io made => cases made
      · cases made
      · cases made
  | @writes tx log io operation sound whole durable elsewhere =>
    have stages := write_stages durable.1 operation
    refine ⟨book,⟨held,?_,?_,?_⟩,fun id => .stays (silent_of_quiet rfl (by simp) id)⟩
    · show Shows _ (after (operation.write io) tx).store.state book
      rw [(stages.carries tx).state]
      exact shown
    · intro request member
      exact (used request member).grows (stages.grows sound whole)
    · rintro _ ⟨⟩
      obtain ⟨fresh,mine,view⟩ := draft tx rfl
      have number := (stages.carries tx).tx_id
      refine ⟨?_,?_,fun distinct => (view distinct).congr (write_mine elsewhere tx)⟩
      · rw [number]
        exact fresh
      · rw [number]
        exact mine
  | @commits tx u log io x sound whole agreed committed =>
    obtain ⟨fresh,mine,view⟩ := draft tx rfl
    obtain ⟨grown,number⟩ := commit_used sound whole committed
    have distinct : ((stagedIn log).map RpcRequest.id).Nodup := by
      refine List.Nodup.of_map RpcRequestId.nonce ?_
      rw [List.map_map]
      exact agreed
    refine ⟨noted .Pending book (stagedIn log),⟨held,?_,?_,by simp⟩,?_⟩
    · rw [issued_committed]
      exact (view distinct).same (commit_view committed)
    · rw [issued_committed,List.forall_mem_append]
      refine ⟨fun request member => (used request member).grows grown,?_⟩
      intro request member
      rw [mine request member]
      exact number
    · intro id
      by_cases here : ∃ request ∈ stagedIn log, request.id = id
      · obtain ⟨request,member,rfl⟩ := here
        have unissued : book request.id = .Unissued := by
          rw [shown.unissued]
          intro other issued same
          exact fresh other issued ((congrArg RpcRequestId.tx_id same).trans (mine request member))
        rw [noted_mem distinct member,unissued]
        exact .issued rfl (.commits io rfl member (by rw [reached]))
      · rw [noted_other (fun request member same => here ⟨request,member,same⟩)]
        refine .stays ?_
        rintro (⟨request,same,issues⟩ | ⟨response,-,⟨_,made⟩,-⟩ | ⟨⟨_,made⟩,-⟩)
        · cases issues with
          | submits io entropy made => cases made
          | commits io made staged => exact here ⟨request,staged,same⟩
        · cases made
        · cases made
  | @fails tx u log io e sound whole durable failed =>
    refine ⟨book,⟨held,?_,?_,by simp⟩,fun id => .stays (silent_of_quiet rfl ?_ id)⟩
    · rw [issued_abandoned]
      show Shows _ u.store.state book
      rw [commit_keeps failed]
      exact shown
    · rw [issued_abandoned]
      intro request member
      exact (used request member).grows (commit_failed_grows sound whole failed)
    · intro _ _ done
      rw [reached] at done
      simp at done
  | @rolls tx log =>
    refine ⟨book,⟨held,?_,?_,by simp⟩,fun id => .stays (silent_of_quiet rfl (by simp) id)⟩
    · rw [issued_abandoned]
      exact shown
    · rw [issued_abandoned]
      exact used

/-! ## Whole runs -/

/-- The play after the first moves. -/
def rpcAt (store : Store) (moves : List RpcMove) (k : Nat) : RpcPlay := Play.steps rpcs ⟨.Idle store,[]⟩ (moves.take k)

/-- Every run follows a book from move to move. -/
theorem tracked_run {moves : List RpcMove} {play : RpcPlay} {book : RpcBook} (tracked : Tracked play book)
    (along : play.Along rpcs rpcTerms moves) : ∃ books : Nat → RpcBook, books 0 = book ∧
      (∀ k ≤ moves.length, Tracked (play.steps rpcs (moves.take k)) (books k)) ∧
      ∀ k move, moves[k]? = some move → ∀ id, RpcNext (play.steps rpcs (moves.take k)) move id (books k id) (books (k + 1) id) := by
  induction moves generalizing play book with
  | nil =>
    refine ⟨fun _ => book,rfl,?_,by simp⟩
    intro k short
    simpa [Play.steps] using tracked
  | cons move moves ih =>
    obtain ⟨next,onward,goes⟩ := tracked.step along.1
    obtain ⟨books,start,each,onwards⟩ := ih onward along.2
    refine ⟨fun k => k.casesOn book books,rfl,?_,?_⟩
    · intro k short
      cases k with
      | zero => simpa [Play.steps] using tracked
      | succ k => exact each k (by simpa using short)
    · intro k later found id
      cases k with
      | zero =>
        cases found
        show RpcNext play move id (book id) (books 0 id)
        rw [start]
        exact goes id
      | succ k => exact onwards k later (by simpa using found) id

/-- How far the life of a request has come. -/
def RpcPhase.rank : RpcPhase → Nat
  | .Unissued => 0
  | .Pending _ => 1
  | .Answered _ => 2
  | .Acknowledged => 3

theorem RpcNext.rank_le {play : RpcPlay} {move : RpcMove} {id : RpcRequestId} {p q : RpcPhase} (next : RpcNext play move id p q) :
    p.rank ≤ q.rank := by
  cases next with
  | stays silent => exact Nat.le_refl _
  | _ => simp [RpcPhase.rank]

/-- The move is a `respond_rpc` that succeeds with the response, or an expiry that turns the pending request into it. -/
inductive Settles (play : RpcPlay) (move : RpcMove) (id : RpcRequestId) (p q : RpcPhase) (response : RpcResponse) : Prop
  | responds (here : response.request_id = id) (responds : Responds play move response)
  | expires (request : RpcRequest) (before : p = .Pending request) (turned : q = .Answered response)
      (expires : Expires play move request response)

/-- A request is settled when it is answered. -/
theorem settles_iff {play : RpcPlay} {move : RpcMove} {id : RpcRequestId} {p q : RpcPhase} {response : RpcResponse}
    (next : RpcNext play move id p q) :
    Settles play move id p q response ↔ (∃ request, p = .Pending request) ∧ q = .Answered response := by
  constructor
  · rintro (⟨here,responds⟩ | ⟨request,before,turned,-⟩)
    · have spoken := responds
      obtain ⟨⟨io,made⟩,-⟩ := spoken
      cases next with
      | stays silent => exact (silent (.responds response here responds)).elim
      | issued _ issues =>
        cases issues with
        | submits _ _ other => rw [made] at other; cases other
        | commits _ other => rw [made] at other; cases other
      | @responded request answered there others =>
        obtain ⟨⟨_,other⟩,-⟩ := others
        rw [made] at other
        refine ⟨⟨request,rfl⟩,?_⟩
        obtain ⟨request_id,payload,completed_at_ms,is_error⟩ := response
        obtain ⟨request_id',payload',completed_at_ms',is_error'⟩ := answered
        cases other
        rfl
      | expired _ expires =>
        obtain ⟨_,_,_,_,other,-⟩ := expires
        rw [made] at other
        cases other
      | acknowledged acknowledges =>
        obtain ⟨⟨_,other⟩,-⟩ := acknowledges
        rw [made] at other
        cases other
    · exact ⟨⟨request,before⟩,turned⟩
  · rintro ⟨⟨request,rfl⟩,rfl⟩
    cases next with
    | responded here responds => exact .responds here responds
    | expired here expires => exact .expires request rfl rfl expires

section
variable {store : Store} {moves : List RpcMove} {books : Nat → RpcBook}

/-- Every move of the run takes every life one step on. -/
def Onwards (store : Store) (moves : List RpcMove) (books : Nat → RpcBook) : Prop :=
  ∀ k move, moves[k]? = some move → ∀ id, RpcNext (rpcAt store moves k) move id (books k id) (books (k + 1) id)

theorem Onwards.next (onwards : Onwards store moves books) {k : Nat} (short : k < moves.length) (id : RpcRequestId) :
    ∃ move, moves[k]? = some move ∧ RpcNext (rpcAt store moves k) move id (books k id) (books (k + 1) id) :=
  ⟨moves[k],List.getElem?_eq_getElem short,onwards k _ (List.getElem?_eq_getElem short) id⟩

theorem Onwards.rank_le (onwards : Onwards store moves books) {j k : Nat} (order : j ≤ k) (short : k ≤ moves.length)
    (id : RpcRequestId) : (books j id).rank ≤ (books k id).rank := by
  induction order with
  | refl => exact Nat.le_refl _
  | @step k order ih =>
    obtain ⟨move,-,next⟩ := onwards.next short id
    exact (ih (Nat.le_of_succ_le short)).trans next.rank_le

/-- The move settles the request. -/
def SettledAt (store : Store) (moves : List RpcMove) (books : Nat → RpcBook) (k : Nat) (id : RpcRequestId) (response : RpcResponse) : Prop :=
  ∃ move, moves[k]? = some move ∧ Settles (rpcAt store moves k) move id (books k id) (books (k + 1) id) response

def AcknowledgedAt (store : Store) (moves : List RpcMove) (k : Nat) (id : RpcRequestId) : Prop :=
  ∃ move, moves[k]? = some move ∧ Acknowledges (rpcAt store moves k) move id

theorem Onwards.settled_iff (onwards : Onwards store moves books) {k : Nat} {id : RpcRequestId} {response : RpcResponse} :
    SettledAt store moves books k id response ↔
      k < moves.length ∧ (∃ request, books k id = .Pending request) ∧ books (k + 1) id = .Answered response := by
  constructor
  · rintro ⟨move,found,settles⟩
    exact ⟨(List.getElem?_eq_some_iff.mp found).1,(settles_iff (onwards k move found id)).mp settles⟩
  · rintro ⟨short,answered⟩
    obtain ⟨move,found,next⟩ := onwards.next short id
    exact ⟨move,found,(settles_iff next).mpr answered⟩

/-- Nothing is settled twice: it would have been pending again. -/
theorem Onwards.once (onwards : Onwards store moves books) {j k : Nat} {id : RpcRequestId} {first second : RpcResponse}
    (settled : SettledAt store moves books j id first) (again : SettledAt store moves books k id second) : j = k ∧ first = second := by
  obtain ⟨shortJ,⟨before,pendingJ⟩,answeredJ⟩ := onwards.settled_iff.mp settled
  obtain ⟨shortK,⟨before',pendingK⟩,answeredK⟩ := onwards.settled_iff.mp again
  have apart : ∀ {a b : Nat} {request : RpcRequest} {response : RpcResponse}, books (a + 1) id = .Answered response →
      books b id = .Pending request → b < moves.length → ¬ a < b := by
    intro a b request response answered pending short less
    have order := onwards.rank_le less (Nat.le_of_lt short) id
    rw [answered,pending] at order
    simp [RpcPhase.rank] at order
  have same : j = k := by
    have notLess := apart answeredJ pendingK shortK
    have notMore := apart answeredK pendingJ shortJ
    omega
  subst same
  rw [answeredJ] at answeredK
  cases answeredK
  exact ⟨rfl,rfl⟩

/-- The response stays until it is acknowledged. -/
theorem Onwards.stays (onwards : Onwards store moves books) {j k : Nat} {id : RpcRequestId} {response : RpcResponse}
    (answered : books (j + 1) id = .Answered response) (order : j + 1 ≤ k) (short : k ≤ moves.length) :
    books k id = .Answered response ∨ books k id = .Acknowledged ∧ ∃ i, j < i ∧ i < k ∧ AcknowledgedAt store moves i id := by
  induction order with
  | refl => exact .inl answered
  | @step k order ih =>
    obtain ⟨move,found,next⟩ := onwards.next short id
    rcases ih (Nat.le_of_succ_le short) with still | ⟨gone,i,low,high,acknowledged⟩
    · rw [still] at next
      generalize phase : books (k + 1) id = q at next
      cases next with
      | stays silent => exact .inl rfl
      | acknowledged acknowledges => exact .inr ⟨rfl,k,order,Nat.lt_succ_self k,move,found,acknowledges⟩
    · rw [gone] at next
      generalize phase : books (k + 1) id = q at next
      cases next with
      | stays silent => exact .inr ⟨rfl,i,low,Nat.lt_succ_of_lt high,acknowledged⟩

/-- Whatever is answered was settled so. -/
theorem Onwards.settled (onwards : Onwards store moves books) (start : ∀ id, books 0 id = .Unissued) {k : Nat} {id : RpcRequestId}
    {response : RpcResponse} (short : k ≤ moves.length) (answered : books k id = .Answered response) :
    ∃ j, j < k ∧ SettledAt store moves books j id response := by
  induction k with
  | zero => rw [start] at answered; cases answered
  | succ k ih =>
    obtain ⟨move,found,next⟩ := onwards.next short id
    rw [answered] at next
    generalize phase : books k id = p at next
    cases next with
    | stays silent =>
      obtain ⟨j,low,settled⟩ := ih (Nat.le_of_succ_le short) phase
      exact ⟨j,Nat.lt_succ_of_lt low,settled⟩
    | @responded request _ here responds => exact ⟨k,Nat.lt_succ_self k,onwards.settled_iff.mpr ⟨short,⟨request,phase⟩,answered⟩⟩
    | @expired request _ here expires => exact ⟨k,Nat.lt_succ_self k,onwards.settled_iff.mpr ⟨short,⟨request,phase⟩,answered⟩⟩

end

/-- Every request is in one phase at a time, as the reads say; its life goes on
    from phase to phase; it is settled once at most, and the response that is read is
    the one it was settled with, until that is acknowledged. A report of an
    expiry counts the requests that it settled. -/
structure OneOutcome (store : Store) (moves : List RpcMove) (books : Nat → RpcBook) : Prop where
  start : ∀ id, books 0 id = .Unissued
  seen : ∀ k ≤ moves.length, ∀ id phase,
    phase.Seen (issuedIn (rpcAt store moves k).log) (rpcAt store moves k).session.store id ↔ phase = books k id
  onwards : Onwards store moves books
  once : ∀ j k id first second, SettledAt store moves books j id first → SettledAt store moves books k id second → j = k ∧ first = second
  stays : ∀ j k id response, SettledAt store moves books j id response → j < k → k ≤ moves.length →
    books k id = .Answered response ∨ books k id = .Acknowledged ∧ ∃ i, j < i ∧ i < k ∧ AcknowledgedAt store moves i id
  settled : ∀ k ≤ moves.length, ∀ id response, books k id = .Answered response → ∃ j, j < k ∧ SettledAt store moves books j id response
  counted : ∀ k ios now_ms limit report, moves[k]? = some (.Call (.ExpireRpcRequests ios now_ms limit)) →
    (rpcAt store moves k).reply rpcs (.Call (.ExpireRpcRequests ios now_ms limit)) = some (.ok (.Expired report)) →
    ∃ ids : List RpcRequestId, ids.Nodup ∧ ids.length = report.expired ∧ ∀ id, id ∈ ids ↔ ∃ response, SettledAt store moves books k id response

theorem rpcAt_succ {store : Store} {moves : List RpcMove} {k : Nat} {move : RpcMove} (found : moves[k]? = some move) :
    rpcAt store moves (k + 1) = (rpcAt store moves k).step rpcs move := by
  unfold rpcAt Play.steps
  rw [List.take_add_one,found,Option.toList_some,List.foldl_append]
  rfl

/-- The requests that an expiry reports are those it settles. -/
theorem expiry_counted {store : Store} {moves : List RpcMove} {books : Nat → RpcBook} {k : Nat} {ios : Nat → Io} {now_ms : Int64}
    {limit : Nat} {report : RpcExpireReport} (onwards : Onwards store moves books) (now : Tracked (rpcAt store moves k) (books k))
    (later : Tracked (rpcAt store moves (k + 1)) (books (k + 1))) (durable : ∀ i, (ios i).Durable)
    (found : moves[k]? = some (.Call (.ExpireRpcRequests ios now_ms limit)))
    (replied : (rpcAt store moves k).reply rpcs (.Call (.ExpireRpcRequests ios now_ms limit)) = some (.ok (.Expired report))) :
    ∃ ids : List RpcRequestId, ids.Nodup ∧ ids.length = report.expired ∧
      ∀ id, id ∈ ids ↔ ∃ response, SettledAt store moves books k id response := by
  have short := (List.getElem?_eq_some_iff.mp found).1
  have shown := now.shown
  have shownLater := later.shown
  rw [rpcAt_succ found] at shownLater
  generalize rpcAt store moves k = play at shown shownLater replied
  obtain ⟨session,log⟩ := play
  cases session with
  | Busy tx => cases replied
  | Idle idle =>
    obtain ⟨gone,distinct,waited,expired,counted⟩ := @expire_shows _ _ ios now_ms limit idle (books k) durable shown
    have next : books (k + 1) = noted (fun request => .Answered (overdue now_ms request)) (books k) gone := by
      refine shows_unique shownLater ?_
      show Shows (issuedIn (log ++ [Happened.Returned _ _])) (after (rpcs.on_store _) idle).state _
      rw [issued_returned,show requestedBy _ = none from rfl,Option.toList_none,List.append_nil,expire_after]
      exact expired
    have count : report.expired = gone.length := by
      refine counted report ?_
      have reply : returned (do return RpcReply.Expired (← expire_rpc_requests ios now_ms limit)) idle = .ok (.Expired report) :=
        Option.some.inj replied
      unfold returned at reply ⊢
      rw [bind_run] at reply
      cases result : expire_rpc_requests ios now_ms limit idle with
      | ok made t => rw [result] at reply; cases reply; rfl
      | error e t => rw [result] at reply; cases reply
    refine ⟨gone.map RpcRequest.id,distinct,by rw [count,List.length_map],?_⟩
    intro id
    constructor
    · intro member
      obtain ⟨request,inside,rfl⟩ := List.mem_map.mp member
      refine ⟨overdue now_ms request,onwards.settled_iff.mpr ⟨short,⟨request,(waited request inside).1⟩,?_⟩⟩
      rw [next,noted_mem distinct inside]
    · rintro ⟨response,settled⟩
      obtain ⟨-,⟨request,pending⟩,answered⟩ := onwards.settled_iff.mp settled
      by_contra outside
      rw [next,noted_other (fun other member same => outside (List.mem_map.mpr ⟨other,member,same⟩)),pending] at answered
      cases answered

/-- Whatever is done with requests on a new store, with no write cut short and
    every commit confirmed, every request has one outcome at most. -/
theorem rpc_one_outcome {io : Io} {path : Path} {options : StoreOptions} {store : Store} {left : Bytes}
    (opened : open_with_options io path options [] = .ok store left) {moves : List RpcMove}
    (along : (Play.mk (.Idle store) []).Along rpcs rpcTerms moves) : ∃ books, OneOutcome store moves books := by
  obtain ⟨sound,-,whole,empty,-,-⟩ := new_store opened
  have start : Tracked ⟨.Idle store,[]⟩ (fun _ => .Unissued) := by
    refine ⟨⟨sound,whole⟩,?_,by simp [issuedIn,account],by simp⟩
    show Shows [] store.state _
    rw [empty]
    exact shows_empty
  obtain ⟨books,first,each,onwards⟩ := tracked_run start along
  have unissued : ∀ id, books 0 id = .Unissued := fun id => by rw [first]
  have onwards : Onwards store moves books := onwards
  refine ⟨books,unissued,?_,onwards,fun _ _ _ _ _ => onwards.once,?_,fun _ short _ _ => onwards.settled unissued short,?_⟩
  · intro k short id phase
    have seen := (each k short).shown.seen id
    constructor
    · intro other
      exact seen_unique other seen
    · rintro rfl
      exact seen
  · intro j k id response settled order short
    exact onwards.stays (onwards.settled_iff.mp settled).2.2 order short
  · intro k ios now_ms limit report found replied
    have short := (List.getElem?_eq_some_iff.mp found).1
    have allowed := along.allows found
    refine expiry_counted onwards (each k (Nat.le_of_lt short)) (each (k + 1) short) ?_ found replied
    have idle : ∃ s, (rpcAt store moves k).session = .Idle s := by
      generalize rpcAt store moves k = play at replied
      obtain ⟨session,log⟩ := play
      cases session with
      | Idle s => exact ⟨s,rfl⟩
      | Busy tx => cases replied
    obtain ⟨s,idle⟩ := idle
    unfold Play.Allows at allowed
    rw [show (Play.steps rpcs ⟨.Idle store,[]⟩ (moves.take k)).session = .Idle s from idle] at allowed
    exact allowed

end

def sevens : ByteArr 16 := .filled 7

/-- A request is submitted and answered, and one in a transaction that is rolled back; then another is submitted, the
    deadline passes, someone answers too late, and the responses are acknowledged. -/
def answeredAndExpired : List RpcMove :=
  [.Call (.SubmitRpcRequest calm (some sevens) [109] [1] 0 (some 5)),.Call (.RespondRpc calm ⟨1,sevens⟩ [2] 1 false),
    .Begin,.CallTx (.RequestRpc calm (some sevens) [109] [3] 2 none),.Rollback,.Reopen calm ["a.vstore"] .default,
    .Call (.SubmitRpcRequest calm (some sevens) [109] [4] 3 (some 5)),.Call (.ExpireRpcRequests (fun _ => calm) 6 9),
    .Call (.RespondRpc calm ⟨3,sevens⟩ [5] 7 false),.Call (.AckRpcResponse calm ⟨1,sevens⟩),.Call (.AckRpcResponse calm ⟨3,sevens⟩)]

theorem answered_and_expired_once : ∃ store left, @open_with_options crates calm ["a.vstore"] .default [] = .ok store left ∧
    ∃ books, @OneOutcome crates store answeredAndExpired books := by
  obtain ⟨store,left,opened⟩ := @sound_opens crates calm [] ["a.vstore"] .default calm_faultless (.inl rfl)
  refine ⟨store,left,opened,@rpc_one_outcome crates _ _ _ _ _ opened _ ?_⟩
  refine @along_of_fine crates _ _ _ _ _ rpcTerms RpcCall.Durable RpcTxCall.Durable _ (fun _ _ fine => fine) (fun _ _ fine => fine)
    (fun io _ member => by simp [answeredAndExpired] at member) ?_ _
  intro move member
  simp only [answeredAndExpired,List.mem_cons,List.not_mem_nil,or_false] at member
  rcases member with rfl | rfl | rfl | rfl | rfl | rfl | rfl | rfl | rfl | rfl | rfl
  · exact calm_durable
  · exact calm_durable
  · exact trivial
  · exact calm_durable
  · exact trivial
  · exact trivial
  · exact calm_durable
  · exact fun _ => calm_durable
  · exact calm_durable
  · exact calm_durable
  · exact calm_durable

/-- A request, an answer whose commit is not confirmed, and a reopening. -/
def answeredUnconfirmed : List RpcMove :=
  [.Call (.SubmitRpcRequest calm (some sevens) [109] [1] 0 none),.Call (.RespondRpc unsynced ⟨1,sevens⟩ [2] 1 false),
    .Reopen calm ["a.vstore"] .default]

set_option maxRecDepth 20000 in
/-- The answer has returned `Err`, and the request waits; after the reopening it is answered. -/
theorem unconfirmed_answer_read : ∃ store left, @open_with_options crates calm ["a.vstore"] .default [] = .ok store left ∧
    (∃ e, (@rpcAt crates store answeredUnconfirmed 1).reply (@rpcs crates) (.Call (.RespondRpc unsynced ⟨1,sevens⟩ [2] 1 false)) =
      some (.error e)) ∧
    (@rpcAt crates store answeredUnconfirmed 2).session.store.get_rpc_response ⟨1,sevens⟩ = .ok none ∧
    (@rpcAt crates store answeredUnconfirmed 3).session.store.get_rpc_response ⟨1,sevens⟩ = .ok (some ⟨⟨1,sevens⟩,[2],1,false⟩) ∧
    ¬ ∃ books, @OneOutcome crates store answeredUnconfirmed books := by
  have evaluated : passes (@open_with_options crates calm ["a.vstore"] .default []) (fun store _ =>
      ((@rpcAt crates store answeredUnconfirmed 1).reply (@rpcs crates) (.Call (.RespondRpc unsynced ⟨1,sevens⟩ [2] 1 false))).any
        (fun result => !result.isOk) &&
      ((@rpcAt crates store answeredUnconfirmed 2).session.store.get_rpc_response ⟨1,sevens⟩).toOption.any
        (fun found => decide (found = none)) &&
      ((@rpcAt crates store answeredUnconfirmed 3).session.store.get_rpc_response ⟨1,sevens⟩).toOption.any
        (fun found => decide (found = some ⟨⟨1,sevens⟩,[2],1,false⟩))) = true := by
    rw [crates_eq_quick]
    decide +kernel
  obtain ⟨store,left,opened,evaluated⟩ := passes_iff.mp evaluated
  obtain ⟨evaluated,after⟩ := Bool.and_eq_true_iff.mp evaluated
  obtain ⟨replied,before⟩ := Bool.and_eq_true_iff.mp evaluated
  obtain ⟨result,reply,failed⟩ := (Option.any_eq_true _ _).mp replied
  obtain ⟨e,rfl⟩ : ∃ e, result = .error e := by
    cases result with
    | ok a => cases failed
    | error e => exact ⟨e,rfl⟩
  have waits := any_eq_iff.mp before
  have answered := any_eq_iff.mp after
  refine ⟨store,left,opened,⟨e,reply⟩,waits,answered,?_⟩
  rintro ⟨books,one⟩
  let _ : Hashes := crates
  obtain ⟨-,-,shown,-⟩ := (one.seen 3 (Nat.le_refl _) ⟨1,sevens⟩ _).mpr rfl
  rw [answered] at shown
  have book : books 3 ⟨1,sevens⟩ = .Answered ⟨⟨1,sevens⟩,[2],1,false⟩ := by
    generalize books 3 ⟨1,sevens⟩ = phase at shown
    cases phase with
    | Answered response => exact congrArg RpcPhase.Answered (Option.some.inj (Except.ok.inj shown)).symm
    | Unissued => cases shown
    | Pending request => cases shown
    | Acknowledged => cases shown
  obtain ⟨j,early,move,found,settles⟩ := one.settled 3 (Nat.le_refl _) _ _ book
  -- no move has answered the request, and none was an expiry
  have nothing : j = 0 ∨ j = 1 ∨ j = 2 := by omega
  cases settles with
  | responds here responds =>
    obtain ⟨⟨io,made⟩,done⟩ := responds
    rcases nothing with rfl | rfl | rfl
    · cases found
      cases made
    · cases found
      rw [reply] at done
      cases done
    · cases found
      cases made
  | expires request before turned expires =>
    obtain ⟨_,_,_,_,made,-⟩ := expires
    rcases nothing with rfl | rfl | rfl <;> cases found <;> cases made

end VoodooStore
