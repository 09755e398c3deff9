import VoodooStore.View

/-!
# Domains in use

A domain is a set of calls: those on a store, which run transactions of their
own, and those on an open transaction. They interleave with each other, with
writes of others outside the domain's keys, with commits that may fail, with
rollbacks and with reopenings. Whatever the domain says of the map and of what
its calls returned need only be kept by each kind of move (`play_invariant`).
-/
namespace VoodooStore
open Effects Frames
set_option linter.unusedSimpArgs false

/-- The result of a computation without the state it leaves. -/
def returned {ε σ α : Type} (x : EStateM ε σ α) (s : σ) : Except ε α :=
  match x s with
  | .ok a _ => .ok a
  | .error e _ => .error e

theorem returned_error {ε σ α : Type} {x : EStateM ε σ α} {s : σ} {e : ε} (failed : returned x s = .error e) :
    x s = .error e (after x s) := by
  unfold returned at failed
  unfold after
  cases result : x s with
  | ok b t => rw [result] at failed; cases failed
  | error d t => rw [result] at failed; cases failed; rfl

/-- The calls of a domain on a store and on an open transaction. A call carries
    its arguments and what the world decides while it runs. -/
structure Domain (ε σ τ ρ : Type) where
  on_store : σ → EStateM ε Store ρ
  on_tx : τ → EStateM ε Transaction ρ

/-- Others may write too, on their own keys. Dropping a transaction is like rolling it back. -/
inductive Move (σ τ : Type)
  | Call (call : σ)
  | Begin
  | CallTx (call : τ)
  | Write (io : Io) (operation : Operation)
  | Commit (io : Io)
  | Rollback
  | Reopen (io : Io) (path : Path) (options : StoreOptions)

/-- What has been seen of the moves. A call on a transaction may have failed
    halfway, with something staged. -/
inductive Happened (ε σ τ ρ : Type)
  | Returned (call : σ) (result : Except ε ρ)
  | Began
  | Staged (call : τ) (result : Except ε ρ) (halfway : Bool)
  | Committed
  | Abandoned

/-- What has been done for good, and what the open transaction would add to it. -/
structure Account (ε σ τ ρ : Type) where
  done : List (Happened ε σ τ ρ)
  pending : List (Happened ε σ τ ρ)

def Account.note {ε σ τ ρ : Type} (account : Account ε σ τ ρ) (event : Happened ε σ τ ρ) : Account ε σ τ ρ :=
  match event with
  | .Returned _ _ => { account with done := account.done ++ [event] }
  | .Began => { account with pending := [] }
  | .Staged _ _ _ => { account with pending := account.pending ++ [event] }
  | .Committed => ⟨account.done ++ account.pending,[]⟩
  | .Abandoned => { account with pending := [] }

def account {ε σ τ ρ : Type} (log : List (Happened ε σ τ ρ)) : Account ε σ τ ρ := log.foldl Account.note ⟨[],[]⟩

@[simp] theorem account_snoc {ε σ τ ρ : Type} (log : List (Happened ε σ τ ρ)) (event : Happened ε σ τ ρ) :
    account (log ++ [event]) = (account log).note event := by
  simp [account]

/-- No call of the open transaction failed halfway. -/
def Unspoiled {ε σ τ ρ : Type} (log : List (Happened ε σ τ ρ)) : Prop :=
  ∀ call result, .Staged call result true ∉ (account log).pending

theorem unspoiled_snoc {ε σ τ ρ : Type} {log : List (Happened ε σ τ ρ)} {call : τ} {result : Except ε ρ} {spoiled : Bool}
    (unspoiled : Unspoiled (log ++ [.Staged call result spoiled])) : Unspoiled log ∧ spoiled = false := by
  unfold Unspoiled at unspoiled ⊢
  rw [account_snoc] at unspoiled
  refine ⟨fun other outcome member => unspoiled other outcome (List.mem_append_left _ member),?_⟩
  rw [Bool.eq_false_iff]
  rintro rfl
  exact unspoiled call result (List.mem_append_right _ (by simp))

structure Play (ε σ τ ρ : Type) where
  session : Session
  log : List (Happened ε σ τ ρ)

/-- What the open transaction sees, if there is one. -/
def Session.view : Session → Option State
  | .Idle _ => none
  | .Busy tx => some tx.view

/-- The computation fails after it has staged something. -/
def halfway {ε α : Type} (x : EStateM ε Transaction α) (tx : Transaction) : Bool :=
  match x tx with
  | .ok _ _ => false
  | .error _ u => u.operations ≠ tx.operations

/-- The terms of a run: which keys belong to the domain, which calls are made in
    which state, and after what a transaction is committed. -/
structure Terms (ε σ τ ρ : Type) where
  mine : Bytes → Prop
  call : State → σ → Prop
  callTx : State → τ → Prop
  commit : List (Happened ε σ τ ρ) → Prop

section
variable [Hashes] {ε σ τ ρ : Type}

def Operation.write (io : Io) : Operation → EStateM EngineError Transaction Unit
  | .Put key value => put_internal io key value
  | .Delete key => delete_internal io key

/-- One move. One that the borrow checker rules out changes nothing. -/
def Play.step (domain : Domain ε σ τ ρ) (play : Play ε σ τ ρ) (move : Move σ τ) : Play ε σ τ ρ :=
  match play.session, move with
  | .Idle store, .Call call =>
    ⟨.Idle (after (domain.on_store call) store),play.log ++ [.Returned call (returned (domain.on_store call) store)]⟩
  | .Idle store, .Begin =>
    match begin_tx store with
    | .ok tx => ⟨.Busy tx,play.log ++ [.Began]⟩
    | .error _ => play
  | .Idle store, .Reopen io path options =>
    match open_with_options io path options store.file with
    | .ok t _ => ⟨.Idle t,play.log⟩
    | .error _ _ => play
  | .Busy tx, .CallTx call =>
    ⟨.Busy (after (domain.on_tx call) tx),play.log ++ [.Staged call (returned (domain.on_tx call) tx) (halfway (domain.on_tx call) tx)]⟩
  | .Busy tx, .Write io operation => ⟨.Busy (after (operation.write io) tx),play.log⟩
  | .Busy tx, .Commit io =>
    match commit io tx with
    | .ok _ u => ⟨.Idle u.store,play.log ++ [.Committed]⟩
    | .error _ u => ⟨.Idle u.store,play.log ++ [.Abandoned]⟩
  | .Busy tx, .Rollback => ⟨.Idle tx.store,play.log ++ [.Abandoned]⟩
  | _, _ => play

def Play.steps (domain : Domain ε σ τ ρ) (play : Play ε σ τ ρ) (moves : List (Move σ τ)) : Play ε σ τ ρ :=
  moves.foldl (Play.step domain) play

/-- A move on these terms, with no write cut short and every commit confirmed. -/
def Play.Allows (terms : Terms ε σ τ ρ) (play : Play ε σ τ ρ) (move : Move σ τ) : Prop :=
  match play.session, move with
  | .Idle store, .Call call => terms.call store.state call
  | .Busy tx, .CallTx call => terms.callTx tx.view call
  | .Busy _, .Write io operation => io.Durable ∧ ¬ terms.mine operation.key
  | .Busy _, .Commit io => io.Durable ∧ terms.commit play.log
  | _, _ => True

/-- A run on these terms. -/
def Play.Along (domain : Domain ε σ τ ρ) (terms : Terms ε σ τ ρ) (play : Play ε σ τ ρ) : List (Move σ τ) → Prop
  | [] => True
  | move :: moves => play.Allows terms move ∧ (play.step domain move).Along domain terms moves

theorem Play.along_append {domain : Domain ε σ τ ρ} {terms : Terms ε σ τ ρ} {play : Play ε σ τ ρ} {first second : List (Move σ τ)} :
    play.Along domain terms (first ++ second) ↔ play.Along domain terms first ∧ (play.steps domain first).Along domain terms second := by
  induction first generalizing play with
  | nil => simp [Play.Along,Play.steps]
  | cons move first ih =>
    rw [List.cons_append]
    exact (and_congr_right (fun _ => ih)).trans and_assoc.symm

/-- Every move of a run is made on its terms. -/
theorem Play.Along.allows {domain : Domain ε σ τ ρ} {terms : Terms ε σ τ ρ} {play : Play ε σ τ ρ} {moves : List (Move σ τ)} {k : Nat}
    {move : Move σ τ} (along : play.Along domain terms moves) (found : moves[k]? = some move) :
    (play.steps domain (moves.take k)).Allows terms move := by
  induction moves generalizing play k with
  | nil => cases found
  | cons first moves ih =>
    cases k with
    | zero => cases found; exact along.1
    | succ k => exact ih along.2 (by simpa using found)

omit [Hashes] in
/-- A call is allowed if its terms hold of the store; inside a transaction it is no move. -/
theorem allows_call {terms : Terms ε σ τ ρ} {play : Play ε σ τ ρ} {call : σ} (fine : terms.call play.session.store.state call) :
    play.Allows terms (.Call call) := by
  obtain ⟨session,log⟩ := play
  cases session with
  | Idle store => exact fine
  | Busy tx => exact trivial

/-- A move with no write cut short and every commit confirmed, by a call of the given kind or by others outside the given keys. -/
def Move.Fine (mine : Bytes → Prop) (fine : σ → Prop) (fineTx : τ → Prop) : Move σ τ → Prop
  | .Call call => fine call
  | .CallTx call => fineTx call
  | .Write io operation => io.Durable ∧ ¬ mine operation.key
  | .Commit io => io.Durable
  | _ => True

/-- Terms that depend on the calls alone. -/
def Terms.plain (mine : Bytes → Prop) (fine : σ → Prop) (fineTx : τ → Prop) : Terms ε σ τ ρ :=
  ⟨mine,fun _ => fine,fun _ => fineTx,fun _ => True⟩

/-- Moves that are fine in every state make up a run on the terms. -/
theorem along_of_fine {domain : Domain ε σ τ ρ} {terms : Terms ε σ τ ρ} {fine : σ → Prop} {fineTx : τ → Prop}
    {moves : List (Move σ τ)} (calls : ∀ state c, fine c → terms.call state c) (callsTx : ∀ view c, fineTx c → terms.callTx view c)
    (commits : ∀ io log, .Commit io ∈ moves → terms.commit log) (ok : ∀ move ∈ moves, move.Fine terms.mine fine fineTx)
    (play : Play ε σ τ ρ) : play.Along domain terms moves := by
  induction moves generalizing play with
  | nil => exact trivial
  | cons move moves ih =>
    refine ⟨?_,ih (fun io log member => commits io log (by simp [member])) (fun other member => ok other (by simp [member])) _⟩
    have here := ok move (by simp)
    obtain ⟨session,log⟩ := play
    cases session with
    | Idle store =>
      cases move with
      | Call call => exact calls _ _ here
      | _ => exact trivial
    | Busy tx =>
      cases move with
      | Commit io => exact ⟨here,commits io log (by simp)⟩
      | CallTx call => exact callsTx _ _ here
      | Write io operation => exact here
      | _ => exact trivial

/-- A run goes on through a commit. -/
theorem along_through_commit {domain : Domain ε σ τ ρ} {terms : Terms ε σ τ ρ} {play : Play ε σ τ ρ}
    {first rest : List (Move σ τ)} {io : Io} (before : play.Along domain terms first) (durable : io.Durable)
    (agreed : terms.commit (play.steps domain first).log)
    (behind : ((play.steps domain first).step domain (.Commit io)).Along domain terms rest) :
    play.Along domain terms (first ++ .Commit io :: rest) := by
  refine Play.along_append.mpr ⟨before,?_,behind⟩
  unfold Play.Allows
  cases (play.steps domain first).session with
  | Idle store => exact trivial
  | Busy tx => exact ⟨durable,agreed⟩

/-- What the move returns, if it is a call that can be made now. -/
def Play.reply (domain : Domain ε σ τ ρ) (play : Play ε σ τ ρ) (move : Move σ τ) : Option (Except ε ρ) :=
  match play.session, move with
  | .Idle store, .Call call => some (returned (domain.on_store call) store)
  | .Busy tx, .CallTx call => some (returned (domain.on_tx call) tx)
  | _, _ => none

/-- What a move on these terms can do to a sound store whose file is whole. -/
inductive Moved (domain : Domain ε σ τ ρ) (terms : Terms ε σ τ ρ) : Play ε σ τ ρ → Move σ τ → Play ε σ τ ρ → Prop
  | stays {play : Play ε σ τ ρ} {move : Move σ τ} (silent : play.reply domain move = none) : Moved domain terms play move play
  | calls {store : Store} {log : List (Happened ε σ τ ρ)} {call : σ} (sound : store.Sound) (whole : fragment store.file = [])
      (ok : terms.call store.state call) : Moved domain terms ⟨.Idle store,log⟩ (.Call call)
        ⟨.Idle (after (domain.on_store call) store),log ++ [.Returned call (returned (domain.on_store call) store)]⟩
  | begins {store : Store} {log : List (Happened ε σ τ ρ)} {tx : Transaction} (sound : store.Sound) (begun : begin_tx store = .ok tx) :
      Moved domain terms ⟨.Idle store,log⟩ .Begin ⟨.Busy tx,log ++ [.Began]⟩
  | reopens {store t : Store} {log : List (Happened ε σ τ ρ)} {io : Io} {path : Path} {options : StoreOptions}
      (state : t.state = store.state) (read : records t.file = records store.file) :
      Moved domain terms ⟨.Idle store,log⟩ (.Reopen io path options) ⟨.Idle t,log⟩
  | callsTx {tx : Transaction} {log : List (Happened ε σ τ ρ)} {call : τ} (sound : tx.Sound) (whole : fragment tx.store.file = [])
      (ok : terms.callTx tx.view call) : Moved domain terms ⟨.Busy tx,log⟩ (.CallTx call) ⟨.Busy (after (domain.on_tx call) tx),
        log ++ [.Staged call (returned (domain.on_tx call) tx) (halfway (domain.on_tx call) tx)]⟩
  | writes {tx : Transaction} {log : List (Happened ε σ τ ρ)} {io : Io} {operation : Operation} (sound : tx.Sound)
      (whole : fragment tx.store.file = []) (durable : io.Durable) (elsewhere : ¬ terms.mine operation.key) :
      Moved domain terms ⟨.Busy tx,log⟩ (.Write io operation) ⟨.Busy (after (operation.write io) tx),log⟩
  | commits {tx u : Transaction} {log : List (Happened ε σ τ ρ)} {io : Io} {x : Unit} (sound : tx.Sound)
      (whole : fragment tx.store.file = []) (agreed : terms.commit log) (committed : commit io tx = .ok x u) :
      Moved domain terms ⟨.Busy tx,log⟩ (.Commit io) ⟨.Idle u.store,log ++ [.Committed]⟩
  | fails {tx u : Transaction} {log : List (Happened ε σ τ ρ)} {io : Io} {e : EngineError} (sound : tx.Sound)
      (whole : fragment tx.store.file = []) (durable : io.Durable) (failed : commit io tx = .error e u) :
      Moved domain terms ⟨.Busy tx,log⟩ (.Commit io) ⟨.Idle u.store,log ++ [.Abandoned]⟩
  | rolls {tx : Transaction} {log : List (Happened ε σ τ ρ)} : Moved domain terms ⟨.Busy tx,log⟩ .Rollback ⟨.Idle tx.store,log ++ [.Abandoned]⟩

/-- The calls that the terms allow keep a store sound. -/
structure Tame (domain : Domain ε σ τ ρ) (terms : Terms ε σ τ ρ) : Prop where
  steady : ∀ c state, terms.call state c → Steady (domain.on_store c)
  stages : ∀ c view, terms.callTx view c → Stages (domain.on_tx c)

theorem write_stages {io : Io} (writes : io.WritesWhole) (operation : Operation) : Stages (operation.write io) := by
  cases operation with
  | Put key value => exact put_stages writes key value
  | Delete key => exact delete_stages writes key

/-- The store is sound and its file is whole. -/
structure Play.Held (play : Play ε σ τ ρ) : Prop where
  session : play.session.Sound
  whole : fragment play.session.store.file = []

theorem Play.Held.moved {domain : Domain ε σ τ ρ} {terms : Terms ε σ τ ρ} (tame : Tame domain terms) {play : Play ε σ τ ρ}
    {move : Move σ τ} (held : play.Held) (ok : play.Allows terms move) :
    (play.step domain move).Held ∧ Moved domain terms play move (play.step domain move) := by
  obtain ⟨session,log⟩ := play
  cases session with
  | Idle store =>
    have sound : store.Sound := held.session
    have whole : fragment store.file = [] := held.whole
    cases move with
    | Call call =>
      obtain ⟨stored,left⟩ := tame.steady call _ ok store sound whole
      exact ⟨⟨stored,left⟩,.calls sound whole ok⟩
    | Begin =>
      unfold Play.step
      dsimp only
      cases begun : begin_tx store with
      | error e => exact ⟨held,.stays rfl⟩
      | ok tx =>
        obtain ⟨begins,file⟩ := begin_sound sound begun
        refine ⟨⟨begins,?_⟩,.begins sound begun⟩
        show fragment tx.store.file = []
        rw [file]
        exact whole
    | Reopen io path options =>
      unfold Play.step
      dsimp only
      cases opened : open_with_options io path options store.file with
      | error e left => exact ⟨held,.stays rfl⟩
      | ok t left =>
        obtain ⟨-,-,recovery,started,opens⟩ := open_ok opened
        obtain ⟨stored,read,tail⟩ := open_sound opens (.inr sound.file)
        rw [whole,ite_self] at tail
        refine ⟨⟨stored,tail⟩,.reopens ?_ read⟩
        rw [stored.state,read,← sound.state]
    | CallTx call => exact ⟨held,.stays rfl⟩
    | Write io operation => exact ⟨held,.stays rfl⟩
    | Commit io => exact ⟨held,.stays rfl⟩
    | Rollback => exact ⟨held,.stays rfl⟩
  | Busy tx =>
    have sound : tx.Sound := held.session
    have whole : fragment tx.store.file = [] := held.whole
    cases move with
    | CallTx call =>
      obtain ⟨staged,left⟩ := (tame.stages call _ ok).sound sound whole
      exact ⟨⟨staged,left⟩,.callsTx sound whole ok⟩
    | Write io operation =>
      obtain ⟨durable,elsewhere⟩ := ok
      obtain ⟨staged,left⟩ := (write_stages durable.1 operation).sound sound whole
      exact ⟨⟨staged,left⟩,.writes sound whole durable elsewhere⟩
    | Commit io =>
      obtain ⟨durable,agreed⟩ := ok
      obtain ⟨stored,left⟩ := commit_sound durable sound whole
      unfold after at stored left
      unfold Play.step
      dsimp only
      cases committed : commit io tx with
      | ok x u =>
        rw [committed] at stored left
        exact ⟨⟨stored,left⟩,.commits sound whole agreed committed⟩
      | error e u =>
        rw [committed] at stored left
        exact ⟨⟨stored,left⟩,.fails sound whole durable committed⟩
    | Rollback => exact ⟨⟨sound.store,whole⟩,.rolls⟩
    | Call call => exact ⟨held,.stays rfl⟩
    | Begin => exact ⟨held,.stays rfl⟩
    | Reopen io path options => exact ⟨held,.stays rfl⟩

/-- Each kind of move keeps what the domain says of the committed map, of the
    view of the open transaction and of what was returned. -/
structure Preserved (domain : Domain ε σ τ ρ) (terms : Terms ε σ τ ρ)
    (holds : State → Option State → List (Happened ε σ τ ρ) → Prop) : Prop where
  steady : ∀ c state, terms.call state c → Steady (domain.on_store c)
  stages : ∀ c view, terms.callTx view c → Stages (domain.on_tx c)
  call : ∀ c store log, terms.call store.state c → holds store.state none log →
    holds (after (domain.on_store c) store).state none (log ++ [.Returned c (returned (domain.on_store c) store)])
  begins : ∀ state log, holds state none log → holds state (some state) (log ++ [.Began])
  callTx : ∀ c tx log, terms.callTx tx.view c → holds tx.store.state (some tx.view) log →
    holds tx.store.state (some (after (domain.on_tx c) tx).view)
      (log ++ [.Staged c (returned (domain.on_tx c) tx) (halfway (domain.on_tx c) tx)])
  write : ∀ state view next log, (∀ key, terms.mine key → next[key]? = view[key]?) → holds state (some view) log →
    holds state (some next) log
  commits : ∀ state view next log, terms.commit log → SameData view next → holds state (some view) log →
    holds next none (log ++ [.Committed])
  ends : ∀ state view log, holds state (some view) log → holds state none (log ++ [.Abandoned])

/-- The store is sound, its file is whole, and what the domain says holds. -/
structure Play.Kept (holds : State → Option State → List (Happened ε σ τ ρ) → Prop) (play : Play ε σ τ ρ) : Prop where
  session : play.session.Sound
  whole : fragment play.session.store.file = []
  holds : holds play.session.store.state play.session.view play.log

/-- A write elsewhere leaves a key alone. -/
theorem write_elsewhere {io : Io} {operation : Operation} {tx : Transaction} {key : Bytes} (other : operation.key ≠ key) :
    (after (operation.write io) tx).view[key]? = tx.view[key]? := by
  have staged : ∀ kind encoded, Spells kind encoded operation →
      (after (stage io kind encoded operation) tx).view[key]? = tx.view[key]? := by
    intro kind encoded spells
    unfold after
    cases result : stage io kind encoded operation tx with
    | ok x u =>
      have view := (stage_view spells result).1
      rw [view]
      exact @apply_elsewhere tx.view [operation] key (by simpa using other)
    | error e u => exact congrArg (·[key]?) (stage_refused_view result).1
  cases operation with
  | Put staged_key value => exact staged _ _ (put_spells staged_key value)
  | Delete staged_key => exact staged _ _ (delete_spells staged_key)

/-- A write of others leaves the keys of the domain alone. -/
theorem write_mine {io : Io} {operation : Operation} {mine : Bytes → Prop} (elsewhere : ¬ mine operation.key) (tx : Transaction) :
    ∀ key, mine key → (after (operation.write io) tx).view[key]? = tx.view[key]? := by
  intro key own
  refine write_elsewhere ?_
  rintro rfl
  exact elsewhere own

theorem Play.Kept.step {domain : Domain ε σ τ ρ} {terms : Terms ε σ τ ρ}
    {holds : State → Option State → List (Happened ε σ τ ρ) → Prop} (preserved : Preserved domain terms holds)
    {play : Play ε σ τ ρ} {move : Move σ τ} (kept : play.Kept holds) (ok : play.Allows terms move) :
    (play.step domain move).Kept holds := by
  obtain ⟨held,moved⟩ := Play.Held.moved ⟨preserved.steady,preserved.stages⟩ ⟨kept.session,kept.whole⟩ ok
  refine ⟨held.session,held.whole,?_⟩
  have now := kept.holds
  generalize play.step domain move = next at moved
  cases moved with
  | stays silent => exact now
  | @calls store log call sound whole ok => exact preserved.call call store log ok now
  | @begins store log tx sound begun =>
    obtain ⟨view,state,-,-⟩ := begin_view begun
    show holds tx.store.state (some tx.view) _
    rw [view,state]
    exact preserved.begins store.state log now
  | @reopens store t log io path options state read =>
    show holds t.state none log
    rw [state]
    exact now
  | @callsTx tx log call sound whole ok =>
    show holds (after (domain.on_tx call) tx).store.state _ _
    rw [((preserved.stages call _ ok).carries tx).state]
    exact preserved.callTx call tx log ok now
  | @writes tx log io operation sound whole durable elsewhere =>
    show holds (after (operation.write io) tx).store.state (some (after (operation.write io) tx).view) log
    rw [((write_stages durable.1 operation).carries tx).state]
    exact preserved.write _ tx.view _ log (write_mine elsewhere tx) now
  | @commits tx u log io x sound whole agreed committed =>
    exact preserved.commits _ _ _ log agreed (commit_view committed) now
  | @fails tx u log io e sound whole durable failed =>
    show holds u.store.state none _
    rw [commit_keeps failed]
    exact preserved.ends _ _ log now
  | rolls => exact preserved.ends _ _ _ now

theorem Play.Kept.steps {domain : Domain ε σ τ ρ} {terms : Terms ε σ τ ρ}
    {holds : State → Option State → List (Happened ε σ τ ρ) → Prop} (preserved : Preserved domain terms holds)
    {play : Play ε σ τ ρ} {moves : List (Move σ τ)} (kept : play.Kept holds) (along : play.Along domain terms moves) :
    (play.steps domain moves).Kept holds := by
  induction moves generalizing play with
  | nil => exact kept
  | cons move moves ih => exact ih (kept.step preserved along.1) along.2

/-- What every move keeps and holds of the empty map holds after every run on a new store. -/
theorem play_invariant {domain : Domain ε σ τ ρ} {terms : Terms ε σ τ ρ}
    {holds : State → Option State → List (Happened ε σ τ ρ) → Prop} (preserved : Preserved domain terms holds)
    (starts : holds ∅ none []) {io : Io} {path : Path} {options : StoreOptions} {store : Store} {left : Bytes}
    (opened : open_with_options io path options [] = .ok store left) {moves : List (Move σ τ)}
    (along : (Play.mk (.Idle store) []).Along domain terms moves) : (Play.steps domain ⟨.Idle store,[]⟩ moves).Kept holds := by
  obtain ⟨sound,-,whole,empty,-,-⟩ := new_store opened
  refine Play.Kept.steps preserved ⟨sound,whole,?_⟩ along
  show holds store.state none []
  rw [empty]
  exact starts

/-- A call that fails with nothing staged leaves the transaction as it was. -/
theorem Stages.unspoiled {α : Type} {x : EStateM ε Transaction α} {tx u : Transaction} {e : ε} (stages : Stages x)
    (failed : x tx = .error e u) (whole : halfway x tx = false) : u.view = tx.view := by
  have carried := (stages.carries tx).state
  unfold after at carried
  unfold halfway at whole
  rw [failed] at carried whole
  have same : u.operations = tx.operations := by simpa using whole
  rw [Transaction.view,Transaction.view,same,carried]

end

/-! ## Invariants of the map -/

/-- The computation on a store keeps what is said of the map, whether it fails or not. -/
def Keeps {ε α : Type} (holds : State → Prop) (x : EStateM ε Store α) : Prop :=
  Meets (fun store => holds store.state) x (fun _ store => holds store.state) (fun store => holds store.state)

/-- The computation on a transaction keeps what is said of what it sees. -/
def KeepsView {ε α : Type} (holds : State → Prop) (x : EStateM ε Transaction α) : Prop :=
  Meets (fun tx => holds tx.view) x (fun _ tx => holds tx.view) (fun tx => holds tx.view)

theorem Keeps.bind {ε α β : Type} {holds : State → Prop} {x : EStateM ε Store α} {f : α → EStateM ε Store β} (first : Keeps holds x)
    (second : ∀ a, Keeps holds (f a)) : Keeps holds (x >>= f) := Meets.bind first second

theorem KeepsView.bind {ε α β : Type} {holds : State → Prop} {x : EStateM ε Transaction α} {f : α → EStateM ε Transaction β}
    (first : KeepsView holds x) (second : ∀ a, KeepsView holds (f a)) : KeepsView holds (x >>= f) := Meets.bind first second

theorem Keeps.rethrow {ε φ α : Type} {holds : State → Prop} {f : ε → φ} {x : EStateM ε Store α} (keeps : Keeps holds x) :
    Keeps holds (rethrow f x) := Meets.rethrow keeps

theorem KeepsView.rethrow {ε φ α : Type} {holds : State → Prop} {f : ε → φ} {x : EStateM ε Transaction α} (keeps : KeepsView holds x) :
    KeepsView holds (rethrow f x) := Meets.rethrow keeps

theorem keeps_of_reads {ε α : Type} {holds : State → Prop} {x : EStateM ε Store α} (reads : Reads x) : Keeps holds x :=
  reads.meets _

theorem keeps_view_of_reads {ε α : Type} {holds : State → Prop} {x : EStateM ε Transaction α} (reads : Reads x) :
    KeepsView holds x := reads.meets _

/-- What is kept in the state that is left is kept, whether the computation fails or not. -/
theorem keeps_of_after {ε α : Type} {holds : State → Prop} {x : EStateM ε Store α}
    (kept : ∀ store, holds store.state → holds (after x store).state) : Keeps holds x := by
  intro store now
  have later := kept store now
  unfold after at later
  cases result : x store with
  | ok a t => rw [result] at later; exact later
  | error e t => rw [result] at later; exact later

/-- What is computed before is known afterwards. -/
theorem KeepsView.lifted {ε α β : Type} {holds : State → Prop} {x : Except ε α} {f : α → EStateM ε Transaction β}
    (keeps : ∀ a, x = .ok a → KeepsView holds (f a)) : KeepsView holds (lift x >>= f) := by
  cases x with
  | error e => exact keeps_view_of_reads (reads_throw e)
  | ok a => exact keeps a rfl

/-- The maps agree on the keys that do not start so. -/
def AgreesOff (front : Bytes) (seen view : State) : Prop := ∀ key, starts_with key front = false → view[key]? = seen[key]?

theorem AgreesOff.insert {front : Bytes} {seen view : State} (agrees : AgreesOff front seen view) (rest value : Bytes) :
    AgreesOff front seen (view.insert (front ++ rest) value) := by
  intro key outside
  rw [get_insert,if_neg]
  · exact agrees key outside
  · rintro rfl
    rw [Bool.eq_false_iff,ne_eq,starts_with_iff] at outside
    exact outside (List.prefix_append _ _)

/-- A call that fails clean keeps what it keeps when it succeeds. -/
theorem FailsClean.keeps {ε α : Type} {holds : State → Prop} {x : EStateM ε Transaction α} (clean : FailsClean x)
    (done : ∀ a tx u, x tx = .ok a u → holds tx.view → holds u.view) : KeepsView holds x := by
  intro tx now
  cases result : x tx with
  | ok a u => exact done a tx u result now
  | error e u =>
    show holds u.view
    rw [clean tx e u result]
    exact now

section
variable [Hashes] {ε σ τ ρ : Type}

theorem put_keeps {holds : State → Prop} (io : Io) (key value : Bytes) (inserts : ∀ s, holds s → holds (s.insert key value)) :
    KeepsView holds (put_internal io key value) := by
  refine (put_clean io key value).keeps ?_
  intro x tx u done now
  rw [(put_internal_ok done).1]
  exact inserts _ now

theorem delete_keeps {holds : State → Prop} (io : Io) (key : Bytes) (erases : ∀ s, holds s → holds (s.erase key)) :
    KeepsView holds (delete_internal io key) := by
  refine (delete_clean io key).keeps ?_
  intro x tx u done now
  rw [(delete_internal_ok done).1]
  exact erases _ now

/-- A transaction of its own keeps what its body keeps, if that is not about the feed of changes. -/
theorem within_keeps {α : Type} {holds : State → Prop} {wrap : EngineError → ε} {io : Io} {body : EStateM ε Transaction α}
    (apart : ∀ s t, SameData s t → holds s → holds t) (carries : ∀ tx, Carries tx (after body tx)) (keeps : KeepsView holds body) :
    Keeps holds (within wrap io body) := by
  intro store now
  cases result : within wrap io body store with
  | ok a t =>
    obtain ⟨tx,u,begun,done,same⟩ := within_ok result
    have start : holds tx.view := by
      rw [(begin_view begun).1]
      exact now
    exact apart _ _ same (keeps.ok start done)
  | error e t =>
    show holds t.state
    rw [within_error carries result]
    exact now

/-- What every call keeps is kept by every move, if it is about the keys of the domain alone. -/
theorem preserved_map {domain : Domain ε σ τ ρ} {mine : Bytes → Prop} {fine : σ → Prop} {fineTx : τ → Prop} {holds : State → Prop}
    (steady : ∀ c, fine c → Steady (domain.on_store c)) (stages : ∀ c, fineTx c → Stages (domain.on_tx c))
    (call : ∀ c, fine c → Keeps holds (domain.on_store c)) (callTx : ∀ c, fineTx c → KeepsView holds (domain.on_tx c))
    (apart : ∀ key, mine key → starts_with key CDC_PREFIX = false)
    (own : ∀ s t : State, (∀ key, mine key → t[key]? = s[key]?) → holds s → holds t) :
    Preserved domain (.plain mine fine fineTx) (fun state view _ => holds state ∧ ∀ seen, view = some seen → holds seen) := by
  constructor
  · exact fun c _ => steady c
  · exact fun c _ => stages c
  · rintro c store log ok ⟨now,-⟩
    exact ⟨(call c ok).after (fun _ _ kept => kept) now,by simp⟩
  · rintro state log ⟨now,-⟩
    refine ⟨now,?_⟩
    rintro _ ⟨⟩
    exact now
  · rintro c tx log ok ⟨now,seen⟩
    refine ⟨now,?_⟩
    rintro _ ⟨⟩
    exact (callTx c ok).after (fun _ _ kept => kept) (seen _ rfl)
  · rintro state view next log same ⟨now,seen⟩
    refine ⟨now,?_⟩
    rintro _ ⟨⟩
    exact own view _ same (seen view rfl)
  · rintro state view next log - same ⟨-,seen⟩
    exact ⟨own view next (fun key inside => same key (apart key inside)) (seen view rfl),by simp⟩
  · rintro state view log ⟨now,-⟩
    exact ⟨now,by simp⟩

end

end VoodooStore
