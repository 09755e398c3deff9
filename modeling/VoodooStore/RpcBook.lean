import VoodooStore.Pages

/-!
# The book of requests

A request is pending until it is answered or expires, answered until its
response is acknowledged, and then over. A book notes where every request is. A
map that shows the book (`Shows`) is read as the book says (`Shows.seen`).
-/
namespace VoodooStore
open Effects
set_option linter.unusedSimpArgs false

/-! ## The book -/

inductive RpcPhase
  | Unissued
  | Pending (request : RpcRequest)
  | Answered (response : RpcResponse)
  | Acknowledged
  deriving DecidableEq

def RpcPhase.request : RpcPhase → Option RpcRequest
  | .Pending request => some request
  | _ => none

def RpcPhase.response : RpcPhase → Option RpcResponse
  | .Answered response => some response
  | _ => none

/-- The records of the phase are those of the request, and can be written. -/
structure RpcPhase.Of (phase : RpcPhase) (id : RpcRequestId) : Prop where
  request : ∀ request, phase.request = some request → request.id = id ∧ request.Fits
  response : ∀ response, phase.response = some response → response.request_id = id ∧ response.payload.length < 2 ^ 32

abbrev RpcBook : Type := RpcRequestId → RpcPhase

def rpcKey (key : Bytes) : Prop := starts_with key REQUEST_PREFIX = true ∨ starts_with key RESPONSE_PREFIX = true

theorem request_key_own (id : RpcRequestId) : starts_with (request_key id) REQUEST_PREFIX = true :=
  (starts_with_iff _ _).mpr (List.prefix_append _ _)

theorem response_key_own (id : RpcRequestId) : starts_with (response_key id) RESPONSE_PREFIX = true :=
  (starts_with_iff _ _).mpr (List.prefix_append _ _)

theorem response_ne_request (a b : RpcRequestId) : response_key a ≠ request_key b := response_apart a _ (request_key_own b)

theorem rpc_apart (key : Bytes) (own : rpcKey key) : starts_with key CDC_PREFIX = false := by
  rcases own with request | response
  · exact requests_apart key request
  · exact domain_key_outside ⟨RESPONSE_PREFIX,by decide,(starts_with_iff _ _).mp response⟩

/-- The map shows the book, whose entries begin with the given requests. -/
structure Shows (issued : List RpcRequest) (state : State) (book : RpcBook) : Prop where
  request : ∀ id, state[request_key id]? = (book id).request.map RpcRequest.spelling
  response : ∀ id, state[response_key id]? = (book id).response.map RpcResponse.spelling
  proper : ∀ id, (book id).Of id
  only : Requests state
  unissued : ∀ id, book id = .Unissued ↔ ∀ request ∈ issued, request.id ≠ id
  among : ∀ id request, book id = .Pending request → request ∈ issued

theorem shows_empty : Shows [] ∅ (fun _ => .Unissued) := by
  refine ⟨by simp [RpcPhase.request],by simp [RpcPhase.response],?_,holding_empty _ _ _,by simp,by simp⟩
  intro id
  exact ⟨by simp [RpcPhase.request],by simp [RpcPhase.response]⟩

theorem Shows.congr {issued : List RpcRequest} {s t : State} {book : RpcBook} (shows_s : Shows issued s book)
    (same : ∀ key, rpcKey key → t[key]? = s[key]?) : Shows issued t book := by
  refine ⟨?_,?_,shows_s.proper,shows_s.only.congr (fun key own => same key (.inl own)),shows_s.unissued,shows_s.among⟩
  · intro id
    rw [same _ (.inl (request_key_own id))]
    exact shows_s.request id
  · intro id
    rw [same _ (.inr (response_key_own id))]
    exact shows_s.response id

theorem Shows.same {issued : List RpcRequest} {s t : State} {book : RpcBook} (shows_s : Shows issued s book) (same : SameData s t) :
    Shows issued t book := shows_s.congr (fun key own => same key (rpc_apart key own))

/-- A request that is stored is pending. -/
theorem Shows.pending {issued : List RpcRequest} {state : State} {book : RpcBook} {id : RpcRequestId} (shown : Shows issued state book)
    (stored : (state[request_key id]?).isSome = true) : ∃ request, book id = .Pending request := by
  rw [shown.request id] at stored
  cases phase : book id with
  | Pending request => exact ⟨request,rfl⟩
  | _ => rw [phase] at stored; cases stored

theorem Shows.answer_stored {issued : List RpcRequest} {state : State} {book : RpcBook} {id : RpcRequestId}
    (shown : Shows issued state book) (stored : (state[response_key id]?).isSome = true) : ∃ response, book id = .Answered response := by
  rw [shown.response id] at stored
  cases phase : book id with
  | Answered response => exact ⟨response,rfl⟩
  | _ => rw [phase] at stored; cases stored

theorem update_proper {book : RpcBook} {id : RpcRequestId} {phase : RpcPhase} (proper : ∀ id, (book id).Of id) (now : phase.Of id) :
    ∀ other, (Function.update book id phase other).Of other := by
  intro other
  by_cases here : other = id
  · subst here
    rw [Function.update_self]
    exact now
  · rw [Function.update_of_ne here]
    exact proper other

/-- A new request is noted. -/
theorem Shows.submit {issued : List RpcRequest} {state : State} {book : RpcBook} {request : RpcRequest}
    (shown : Shows issued state book) (fresh : book request.id = .Unissued) (fits : request.Fits) :
    Shows (issued ++ [request]) (state.insert (request_key request.id) request.spelling)
      (Function.update book request.id (.Pending request)) := by
  refine ⟨?_,?_,update_proper shown.proper ⟨?_,by simp [RpcPhase.response]⟩,shown.only.insert fits,?_,?_⟩
  · intro id
    rw [get_insert]
    by_cases here : id = request.id
    · subst here
      rw [if_pos rfl,Function.update_self]
      rfl
    · rw [if_neg (fun same => here (request_key_injective same).symm),Function.update_of_ne here]
      exact shown.request id
  · intro id
    rw [get_insert,if_neg (fun same => response_ne_request id request.id same.symm),shown.response id]
    by_cases here : id = request.id
    · subst here
      rw [Function.update_self,fresh]
      rfl
    · rw [Function.update_of_ne here]
  · intro other same
    cases same
    exact ⟨rfl,fits⟩
  · intro id
    by_cases here : id = request.id
    · subst here
      rw [Function.update_self]
      simp
    · rw [Function.update_of_ne here,shown.unissued id,List.forall_mem_append]
      simp [Ne.symm here]
  · intro id other pending
    by_cases here : id = request.id
    · subst here
      rw [Function.update_self] at pending
      cases pending
      simp
    · rw [Function.update_of_ne here] at pending
      exact List.mem_append_left _ (shown.among id other pending)

/-- An answer takes the place of its request. -/
theorem Shows.answer {issued : List RpcRequest} {state : State} {book : RpcBook} {request : RpcRequest} {response : RpcResponse}
    (shown : Shows issued state book) (pending : book response.request_id = .Pending request) (fits : response.payload.length < 2 ^ 32) :
    Shows issued ((state.erase (request_key response.request_id)).insert (response_key response.request_id) response.spelling)
      (Function.update book response.request_id (.Answered response)) := by
  refine ⟨?_,?_,update_proper shown.proper ⟨by simp [RpcPhase.request],?_⟩,Requests.respond (shown.only.erase _) _ _,?_,?_⟩
  · intro id
    rw [get_insert,if_neg (response_ne_request _ id),get_erase]
    by_cases here : id = response.request_id
    · subst here
      rw [if_pos rfl,Function.update_self]
      rfl
    · rw [if_neg (fun same => here (request_key_injective same).symm),Function.update_of_ne here]
      exact shown.request id
  · intro id
    rw [get_insert]
    by_cases here : id = response.request_id
    · subst here
      rw [if_pos rfl,Function.update_self]
      rfl
    · rw [if_neg (fun same => here (response_key_injective same).symm),Function.update_of_ne here,get_erase,
        if_neg (fun same => response_ne_request id _ same.symm)]
      exact shown.response id
  · intro other same
    cases same
    exact ⟨rfl,fits⟩
  · intro id
    by_cases here : id = response.request_id
    · subst here
      have before := shown.unissued response.request_id
      rw [pending] at before
      rw [Function.update_self,← before]
      simp
    · rw [Function.update_of_ne here]
      exact shown.unissued id
  · intro id other pending
    by_cases here : id = response.request_id
    · subst here
      rw [Function.update_self] at pending
      cases pending
    · rw [Function.update_of_ne here] at pending
      exact shown.among id other pending

/-- What is acknowledged is over. -/
theorem Shows.acknowledge {issued : List RpcRequest} {state : State} {book : RpcBook} {id : RpcRequestId} {response : RpcResponse}
    (shown : Shows issued state book) (answered : book id = .Answered response) :
    Shows issued (state.erase (response_key id)) (Function.update book id .Acknowledged) := by
  refine ⟨?_,?_,update_proper shown.proper ⟨by simp [RpcPhase.request],by simp [RpcPhase.response]⟩,shown.only.erase _,?_,?_⟩
  · intro other
    rw [get_erase,if_neg (response_ne_request id other),shown.request other]
    by_cases here : other = id
    · subst here
      rw [Function.update_self,answered]
      rfl
    · rw [Function.update_of_ne here]
  · intro other
    rw [get_erase]
    by_cases here : other = id
    · subst here
      rw [if_pos rfl,Function.update_self]
      rfl
    · rw [if_neg (fun same => here (response_key_injective same).symm),Function.update_of_ne here]
      exact shown.response other
  · intro other
    by_cases here : other = id
    · subst here
      have before := shown.unissued other
      rw [answered] at before
      rw [Function.update_self,← before]
      simp
    · rw [Function.update_of_ne here]
      exact shown.unissued other
  · intro other request pending
    by_cases here : other = id
    · subst here
      rw [Function.update_self] at pending
      cases pending
    · rw [Function.update_of_ne here] at pending
      exact shown.among other request pending

/-- The requests are noted one by one. -/
def noted (phase : RpcRequest → RpcPhase) (book : RpcBook) (requests : List RpcRequest) : RpcBook :=
  requests.foldl (fun book request => Function.update book request.id (phase request)) book

@[simp] theorem noted_cons (phase : RpcRequest → RpcPhase) (book : RpcBook) (request : RpcRequest) (requests : List RpcRequest) :
    noted phase book (request :: requests) = noted phase (Function.update book request.id (phase request)) requests := rfl

@[simp] theorem noted_snoc (phase : RpcRequest → RpcPhase) (book : RpcBook) (request : RpcRequest) (requests : List RpcRequest) :
    noted phase book (requests ++ [request]) = Function.update (noted phase book requests) request.id (phase request) := by
  simp [noted]

theorem noted_other {phase : RpcRequest → RpcPhase} {book : RpcBook} {requests : List RpcRequest} {id : RpcRequestId}
    (other : ∀ request ∈ requests, request.id ≠ id) : noted phase book requests id = book id := by
  induction requests generalizing book with
  | nil => rfl
  | cons request requests ih =>
    rw [noted_cons,ih (fun later member => other later (by simp [member])),Function.update_of_ne (other request (by simp)).symm]

theorem noted_mem {phase : RpcRequest → RpcPhase} {book : RpcBook} {requests : List RpcRequest} {request : RpcRequest}
    (distinct : (requests.map RpcRequest.id).Nodup) (member : request ∈ requests) :
    noted phase book requests request.id = phase request := by
  induction requests generalizing book with
  | nil => cases member
  | cons first requests ih =>
    rw [List.map_cons,List.nodup_cons] at distinct
    rw [noted_cons]
    rcases List.mem_cons.mp member with rfl | later
    · rw [noted_other,Function.update_self]
      intro other inside same
      exact distinct.1 (List.mem_map.mpr ⟨other,inside,same⟩)
    · exact ih distinct.2 later

/-! ## What the reads say -/

/-- Every page of the pending requests that is long enough has it. -/
def Store.Waits (self : Store) (request : RpcRequest) : Prop :=
  ∃ n, ∀ limit, n ≤ limit → ∃ requests, self.pending_rpc_requests_after none limit = .ok requests ∧ request ∈ requests

/-- A page has nothing under the id but this. -/
def Store.WaitsOnly (self : Store) (id : RpcRequestId) (listed : Option RpcRequest) : Prop :=
  ∀ after limit requests, self.pending_rpc_requests_after after limit = .ok requests →
    ∀ request ∈ requests, request.id = id → listed = some request

/-- What is seen of a request in a phase. -/
def RpcPhase.Seen (issued : List RpcRequest) (self : Store) (id : RpcRequestId) (phase : RpcPhase) : Prop :=
  phase.Of id ∧ self.WaitsOnly id phase.request ∧ self.get_rpc_response id = .ok phase.response ∧
    (phase = .Unissued ↔ ∀ request ∈ issued, request.id ≠ id) ∧
    ∀ request, phase.request = some request → request ∈ issued ∧ self.Waits request

/-- A request is seen in one phase only. -/
theorem seen_unique {issued : List RpcRequest} {self : Store} {id : RpcRequestId} {p q : RpcPhase} (first : p.Seen issued self id)
    (second : q.Seen issued self id) : p = q := by
  obtain ⟨ofP,onlyP,responseP,issuedP,waitsP⟩ := first
  obtain ⟨ofQ,onlyQ,responseQ,issuedQ,waitsQ⟩ := second
  have pages : ∀ {a b : RpcPhase}, a.Of id → (∀ request, a.request = some request → request ∈ issued ∧ self.Waits request) →
      self.WaitsOnly id b.request → ∀ request, a.request = some request → b.request = some request := by
    intro a b properly waits only request pending
    obtain ⟨n,all⟩ := (waits request pending).2
    obtain ⟨requests,page,member⟩ := all n (Nat.le_refl n)
    exact only none n requests page request member (properly.request request pending).1
  have requests : p.request = q.request := by
    cases left : p.request with
    | some request => exact (pages ofP waitsP onlyQ request left).symm
    | none =>
      cases right : q.request with
      | none => rfl
      | some request =>
        have back := pages ofQ waitsQ onlyP request right
        rw [left] at back
        exact back
  have responses : p.response = q.response := by
    rw [responseP] at responseQ
    exact Except.ok.inj responseQ
  have unissued : p = .Unissued ↔ q = .Unissued := issuedP.trans issuedQ.symm
  cases p with
  | Unissued => exact (unissued.mp rfl).symm
  | Pending request =>
    cases q with
    | Pending other => cases requests; rfl
    | _ => cases requests
  | Answered response =>
    cases q with
    | Answered other => cases responses; rfl
    | _ => cases responses
  | Acknowledged =>
    cases q with
    | Acknowledged => rfl
    | Unissued => cases unissued.mpr rfl
    | Pending request => cases requests
    | Answered response => cases responses

/-- A page holds nothing but what was collected before and what is in the feed. -/
theorem collect_after_mem {ε α : Type} {decode : Bytes → Except ε α} {tx_id : α → UInt64} {entry : α → Bytes × Bytes} {feed : List α}
    (reads : ∀ item ∈ feed, decode (entry item).2 = .ok item) {after_tx_id : Option UInt64} {limit : Nat} {items page : List α}
    (collected : collect_after decode tx_id after_tx_id limit items (feed.map entry) = .ok page) :
    ∀ item ∈ page, item ∈ items ∨ item ∈ feed := by
  induction feed generalizing items with
  | nil =>
    cases collected
    exact fun item member => .inl member
  | cons first feed ih =>
    have later := fun other member => reads other (List.mem_cons_of_mem first member)
    rw [List.map_cons,collect_after,reads first (by simp),ok_bind] at collected
    intro item member
    split at collected
    · rcases ih later collected item member with early | late
      · exact .inl early
      · exact .inr (List.mem_cons_of_mem _ late)
    · split at collected
      · cases collected
        rcases List.mem_append.mp member with early | here
        · exact .inl early
        · rw [List.mem_singleton.mp here]
          exact .inr (by simp)
      · rcases ih later collected item member with early | late
        · rcases List.mem_append.mp early with earlier | here
          · exact .inl earlier
          · rw [List.mem_singleton.mp here]
            exact .inr (by simp)
        · exact .inr (List.mem_cons_of_mem _ late)

theorem request_spelling_injective {a b : RpcRequest} (fitsA : a.Fits) (fitsB : b.Fits) (same : a.spelling = b.spelling) : a = b := by
  have read := decode_request_spelling fitsA
  rw [same,decode_request_spelling fitsB] at read
  exact (Except.ok.inj read).symm

/-- The feed of the requests is what is pending in the book. -/
theorem Shows.feed {issued : List RpcRequest} {state : State} {book : RpcBook} (shown : Shows issued state book) :
    ∃ feed : List RpcRequest, scan state REQUEST_PREFIX = feed.map RpcRequest.entry ∧ (∀ request ∈ feed, request.Fits) ∧
      (feed.map RpcRequest.id).Nodup ∧ ∀ request, request ∈ feed ↔ book request.id = .Pending request := by
  obtain ⟨feed,scanned,fits⟩ := shown.only.scan
  refine ⟨feed,scanned,fits,?_,?_⟩
  · have keys := scan_keys_nodup state REQUEST_PREFIX
    rw [scanned,List.map_map] at keys
    refine List.Nodup.of_map request_key ?_
    rw [List.map_map]
    exact keys
  · intro request
    constructor
    · intro member
      have inside : request.entry ∈ scan state REQUEST_PREFIX := by
        rw [scanned]
        exact List.mem_map.mpr ⟨request,member,rfl⟩
      have stored := (mem_scan.mp inside).2
      rw [shown.request request.id] at stored
      obtain ⟨pending,same,spelled⟩ := Option.map_eq_some_iff.mp stored
      have proper := (shown.proper request.id).request pending same
      cases request_spelling_injective proper.2 (fits request member) spelled
      cases phase : book request.id with
      | Pending other => rw [phase] at same; cases same; rfl
      | _ => rw [phase] at same; cases same
    · intro pending
      have proper := (shown.proper request.id).request request (by rw [pending]; rfl)
      have inside : request.entry ∈ scan state REQUEST_PREFIX := by
        refine mem_scan.mpr ⟨request_key_own request.id,?_⟩
        rw [shown.request request.id,pending]
        rfl
      rw [scanned] at inside
      obtain ⟨other,member,same⟩ := List.mem_map.mp inside
      have spelled : other.spelling = request.spelling := congrArg Prod.snd same
      rw [← request_spelling_injective (fits other member) proper.2 spelled]
      exact member

/-- What the book notes is what is seen. -/
theorem Shows.seen {issued : List RpcRequest} {self : Store} {book : RpcBook} (shown : Shows issued self.state book)
    (id : RpcRequestId) : (book id).Seen issued self id := by
  obtain ⟨feed,scanned,fits,-,pending⟩ := shown.feed
  have decodes : ∀ item ∈ feed, decode_request (RpcRequest.entry item).2 = .ok item :=
    fun item member => decode_request_spelling (fits item member)
  refine ⟨shown.proper id,?_,?_,shown.unissued id,?_⟩
  · intro after limit requests page request member same
    unfold Store.pending_rpc_requests_after at page
    rw [scan_prefix_eq,scanned] at page
    rcases collect_after_mem decodes page request member with none | listed
    · cases none
    · rw [← same,(pending request).mp listed]
      rfl
  · unfold Store.get_rpc_response
    rw [show self.get (response_key id) = self.state[response_key id]? from rfl,shown.response id]
    cases answered : (book id).response with
    | none => rfl
    | some response =>
      have fits := ((shown.proper id).response response answered).2
      show (do let a ← decode_response response.spelling; pure (some a)) = _
      rw [decode_response_spelling fits]
      rfl
  · intro request requested
    have phase : book id = .Pending request := by
      cases phase : book id with
      | Pending other => rw [phase] at requested; cases requested; rfl
      | _ => rw [phase] at requested; cases requested
    refine ⟨shown.among id request phase,feed.length + 1,?_⟩
    intro limit long
    refine ⟨feed,?_,?_⟩
    · unfold Store.pending_rpc_requests_after
      rw [scan_prefix_eq,scanned,collect_after_eq decodes none (Nat.lt_of_lt_of_le (Nat.succ_pos _) long)]
      simp
      omega
    · rw [pending request,((shown.proper id).request request requested).1]
      exact phase

theorem shows_unique {issued : List RpcRequest} {self : Store} {first second : RpcBook} (one : Shows issued self.state first)
    (other : Shows issued self.state second) : first = second := by
  funext id
  exact seen_unique (one.seen id) (other.seen id)

end VoodooStore
