import VoodooStore.Pruning

/-!
# The feed over whole runs

A store is used by ordinary calls: those of its users, and those of the domains
above it, which have key spaces of their own. In between it may be reopened,
and its feed pruned. If until the last reopening no write was cut short and every
commit was confirmed, the feed lists the changes of the transactions whose
commit returned `Ok`, less those that were pruned (`feed_exact`); otherwise a
change is listed of one that failed (`unconfirmed_delete_listed`).
-/
namespace VoodooStore
open Effects Frames
set_option linter.unusedSimpArgs false

/-! ## Keys of the domains -/

def ascii (text : String) : Bytes := text.toList.map (fun c => UInt8.ofNat c.toNat)

/-- The prefixes under which the domains above the engine keep their data. -/
def DOMAIN_PREFIXES : List Bytes :=
  ["ttl:","q:","stream:","sub:","cg:state:","col:meta:","col:migration:","col:record:","col:index-meta:","col:index:",
    "job:data:","job:history:","schedule:data:","cron:data:","trigger:data:","wf:instance:","wf:history:","rpc:req:",
    "rpc:resp:","outbox:event:","obj:data:","obj:meta:","obj:ref:"].map (fun name => INTERNAL_KEY_PREFIX ++ ascii name)

def DomainKey (key : Bytes) : Prop := ∃ front ∈ DOMAIN_PREFIXES, front <+: key

theorem domain_prefixes_apart : ∀ front ∈ DOMAIN_PREFIXES, ¬ front <+: CDC_PREFIX ∧ ¬ CDC_PREFIX <+: front := by decide

/-- No domain writes into the key space of the feed. -/
theorem domain_key_outside {key : Bytes} (domain : DomainKey key) : starts_with key CDC_PREFIX = false := by
  obtain ⟨front,member,starts⟩ := domain
  obtain ⟨notFront,notFeed⟩ := domain_prefixes_apart front member
  by_contra inside
  rw [Bool.not_eq_false,starts_with_iff] at inside
  rcases List.prefix_or_prefix_of_prefix starts inside with short | long
  · exact notFront short
  · exact notFeed long

/-- A call of a user or of a domain. Only pruning and rewriting a file go
    without changes. -/
def Event.Ordinary : Event → Prop
  | .BeginWithoutCdc => False
  | .PutInternal key _ => DomainKey key
  | .DeleteInternal key => DomainKey key
  | _ => True

/-! ## What is done with a store -/

inductive Action
  | Call (io : Io) (event : Event)
  | Prune (io : Io) (tx_id : UInt64) (limit : Nat)
  | Reopen (io : Io) (path : Path) (options : StoreOptions)

def Action.Ordinary : Action → Prop
  | .Call _ event => event.Ordinary
  | .Prune _ _ _ => True
  | .Reopen _ _ _ => True

/-- No write is cut short, and no sync fails. -/
def Action.Durable : Action → Prop
  | .Call io _ => io.Durable
  | .Prune io _ _ => io.Durable
  | .Reopen _ _ _ => True

/-- Ordinary use, with nothing lost before a reopening. -/
structure OrdinaryUse (actions : List Action) : Prop where
  ordinary : ∀ a ∈ actions, a.Ordinary
  durable : ∀ before io path options later, actions = before ++ .Reopen io path options :: later → ∀ a ∈ before, a.Durable

theorem OrdinaryUse.front {actions : List Action} {action : Action} (use : OrdinaryUse (actions ++ [action])) :
    OrdinaryUse actions := by
  refine ⟨fun a member => use.ordinary a (List.mem_append_left _ member),?_⟩
  intro before io path options later split
  refine use.durable before io path options (later ++ [action]) ?_
  rw [split,List.append_assoc]
  rfl

/-- Calls alone lose nothing that a reopening could miss. -/
theorem calls_use {actions : List Action} (calls : ∀ a ∈ actions, ∃ io event, a = .Call io event ∧ event.Ordinary) :
    OrdinaryUse actions := by
  refine ⟨?_,?_⟩
  · intro a member
    obtain ⟨io,event,rfl,ordinary⟩ := calls a member
    exact ordinary
  · intro before io path options later split
    obtain ⟨_,_,impossible,-⟩ := calls (.Reopen io path options) (by rw [split]; simp)
    cases impossible

section
variable [Hashes]

/-! ## Transactions that tell the feed -/

/-- A transaction that will tell the feed about what it has staged. -/
structure Transaction.Tells (tx : Transaction) : Prop where
  emits : tx.emit_cdc = true
  outside : ∀ o ∈ tx.operations, starts_with o.key CDC_PREFIX = false

theorem stage_tells {io : Io} {kind : RecordKind} {encoded : Except EngineError Bytes} {operation : Operation}
    {tx : Transaction} (spells : Spells kind encoded operation) (outside : starts_with operation.key CDC_PREFIX = false)
    (tells : tx.Tells) : (after (stage io kind encoded operation) tx).Tells := by
  unfold after
  cases result : stage io kind encoded operation tx with
  | ok x u =>
    obtain ⟨r,staged,stores⟩ := stage_ok spells result
    refine ⟨staged.emit_cdc.trans tells.emits,?_⟩
    intro o member
    rw [staged.operations] at member
    rcases List.mem_append.mp member with old | new
    · exact tells.outside o old
    · rw [List.filterMap_cons,stores] at new
      rw [List.mem_singleton.mp new]
      exact outside
  | error e u =>
    obtain ⟨piece,staged,-⟩ := stage_error result
    refine ⟨staged.emit_cdc.trans tells.emits,?_⟩
    intro o member
    rw [staged.operations,List.filterMap_nil,List.append_nil] at member
    exact tells.outside o member

/-- Ordinary calls keep the open transaction telling. -/
theorem step_tells {run : Run} {io : Io} {event : Event} (ordinary : event.Ordinary)
    (tells : ∀ tx, run.session = .Busy tx → tx.Tells) {u : Transaction} (busy : (run.step io event).session = .Busy u) :
    u.Tells := by
  unfold Run.step at busy
  cases session : run.session with
  | Idle store =>
    rw [session] at busy
    have begun : ∀ tx, begin_tx store = .ok tx → tx.Tells := by
      intro tx begun
      obtain ⟨-,-,empty,emits,-,-⟩ := begin_ok begun
      exact ⟨emits,by simp [empty]⟩
    cases event with
    | Begin =>
      dsimp only [Store.step] at busy
      cases begins : begin_tx store with
      | ok tx =>
        rw [begins] at busy
        cases busy
        exact begun u begins
      | error e => rw [begins] at busy; cases busy
    | BeginWithoutCdc => exact ordinary.elim
    | _ => cases busy
  | Busy tx =>
    rw [session] at busy
    have before := tells tx session
    have guarded : ∀ key kind encoded operation, Spells kind encoded operation →
        (ensure_user_key key = .ok () → starts_with operation.key CDC_PREFIX = false) →
        (after (do lift (ensure_user_key key); stage io kind encoded operation) tx).Tells := by
      intro key kind encoded operation spells outside
      cases checked : ensure_user_key key with
      | ok x => exact stage_tells spells (outside checked) before
      | error e => exact before
    cases event with
    | Put key value =>
      cases busy
      exact guarded key _ _ _ (put_spells key value) user_key_outside
    | Delete key =>
      cases busy
      exact guarded key _ _ _ (delete_spells key) user_key_outside
    | PutInternal key value =>
      cases busy
      exact stage_tells (put_spells key value) (domain_key_outside ordinary) before
    | DeleteInternal key =>
      cases busy
      exact stage_tells (delete_spells key) (domain_key_outside ordinary) before
    | Commit =>
      dsimp only [Event.staging] at busy
      cases result : commit io tx with
      | ok x w => rw [result] at busy; cases busy
      | error e w => rw [result] at busy; cases busy
    | Rollback => cases busy
    | Drop => cases busy
    | Begin =>
      dsimp only [Event.staging] at busy
      exact tells u busy
    | BeginWithoutCdc => exact ordinary.elim

/-! ## Runs with pruning and reopening -/

/-- What a committed transaction tells the feed. -/
def Entry.changes (entry : Entry) : List ChangeRecord := changesOf entry.tx_id entry.staged

/-- A run, and the changes that were pruned from its feed. -/
structure Site extends Run where
  pruned : List ChangeRecord

/-- The changes of the committed transactions, less those that were pruned. -/
def Site.feed (site : Site) : List ChangeRecord :=
  (site.history.flatMap Entry.changes).filter (fun c => c ∉ site.pruned)

/-- An open transaction rules out all but calls. -/
def Site.step (site : Site) : Action → Site
  | .Call io event => { site with toRun := site.toRun.step io event }
  | .Prune io tx_id limit =>
    match site.session with
    | .Busy _ => site
    | .Idle store =>
      match prune_changes_through io tx_id limit store with
      | .ok _ t => { site with session := .Idle t, pruned := site.pruned ++ firstThrough tx_id limit site.feed }
      | .error _ t => { site with session := .Idle t }
  | .Reopen io path options =>
    match site.session with
    | .Busy _ => site
    | .Idle store =>
      match open_with_options io path options store.file with
      | .ok t _ => { site with session := .Idle t }
      | .error _ _ => site

def Site.steps (site : Site) (actions : List Action) : Site := actions.foldl Site.step site

theorem site_steps_snoc (site : Site) (actions : List Action) (action : Action) :
    site.steps (actions ++ [action]) = (site.steps actions).step action := by
  simp [Site.steps]

/-- The map stores the feed, and the numbers of transactions rise. -/
structure Site.Exact (site : Site) : Prop where
  fed : Fed site.session.store.state site.feed
  rising : site.history.Pairwise (fun a b => a.tx_id < b.tx_id)
  known : ∀ c ∈ site.pruned, ∃ entry ∈ site.history, entry.tx_id = c.tx_id
  numbered : ∀ entry ∈ site.history, entry.tx_id < site.session.store.next_tx_id
  tells : ∀ tx, site.session = .Busy tx → tx.Tells ∧ tx.tx_id < tx.store.next_tx_id ∧
    ∀ entry ∈ site.history, entry.tx_id < tx.tx_id

/-- The file leads to the map and to the numbers. -/
structure Site.Kept (site : Site) : Prop where
  session : site.session.Sound
  whole : fragment site.session.store.file = []
  logged : ∀ entry ∈ site.history, ∃ r ∈ records site.session.store.file, r.tx_id = entry.tx_id

theorem changes_tx_id {tx_id : UInt64} {operations : List Operation} {c : ChangeRecord}
    (member : c ∈ changesOf tx_id operations) : c.tx_id = tx_id := by
  obtain ⟨entry,-,rfl⟩ := List.mem_map.mp member
  cases entry.1 <;> rfl

/-- A change in the feed is one of a committed transaction. -/
theorem feed_known {site : Site} {c : ChangeRecord} (member : c ∈ site.feed) :
    ∃ entry ∈ site.history, entry.tx_id = c.tx_id := by
  obtain ⟨entry,inHistory,inChanges⟩ := List.mem_flatMap.mp (List.mem_filter.mp member).1
  exact ⟨entry,inHistory,(changes_tx_id inChanges).symm⟩

/-- The feed after pruning. -/
theorem feed_pruned (session : Session) (history : List Entry) (pruned removed : List ChangeRecord) :
    (Site.mk ⟨session,history⟩ (pruned ++ removed)).feed =
      (Site.mk ⟨session,history⟩ pruned).feed.filter (fun c => c ∉ removed) := by
  rw [Site.feed,Site.feed,List.filter_filter]
  refine List.filter_congr ?_
  intro c _
  simp only [List.mem_append,not_or,Bool.decide_and,Bool.and_comm]

/-- The feed after more commits. -/
theorem feed_commits {session : Session} {history more : List Entry} {pruned : List ChangeRecord}
    (fresh : ∀ c ∈ pruned, ∀ entry ∈ more, c.tx_id ≠ entry.tx_id) : (Site.mk ⟨session,history ++ more⟩ pruned).feed =
      (Site.mk ⟨session,history⟩ pruned).feed ++ more.flatMap Entry.changes := by
  have kept : (more.flatMap Entry.changes).filter (fun c => c ∉ pruned) = more.flatMap Entry.changes := by
    refine List.filter_eq_self.mpr ?_
    intro c member
    rw [decide_eq_true_eq]
    intro removed
    obtain ⟨entry,new,told⟩ := List.mem_flatMap.mp member
    exact fresh c removed entry new (changes_tx_id told)
  rw [Site.feed,Site.feed,List.flatMap_append,List.filter_append]
  exact congrArg _ kept

/-- What a commit applies puts the changes of its transaction at the end of the feed. -/
theorem Fed.commits {tx : Transaction} {feed : List ChangeRecord} (fed : Fed tx.store.state feed) (tells : tx.Tells)
    (encodes : tx.emit_cdc = true → ∀ change ∈ changesFrom tx.tx_id 0 tx.operations,
      ∃ encoded, encode_change change = .ok encoded)
    (countable : tx.emit_cdc = true → (changesFrom tx.tx_id 0 tx.operations).length < 2 ^ 32)
    (later : ∀ c ∈ feed, c.tx_id < tx.tx_id) :
    Fed (apply_operations tx.store.state (tx.operations ++ ownChanges tx)) (feed ++ changesFrom tx.tx_id 0 tx.operations) := by
  obtain ⟨ordered,facts⟩ := changesFrom_ordered (n := 0) (by rw [Nat.zero_add]; exact countable tells.emits)
  rw [ownChanges,if_pos tells.emits,apply_operations,List.foldl_append]
  refine (fed.others tells.outside).stores ?_ ordered ?_
  · intro d member c new
    refine .inl ?_
    rw [(facts c new).1]
    exact later d member
  · intro c new
    exact ⟨(facts c new).2.2,encodes tells.emits c new⟩

/-! ### In memory, whatever fails -/

/-- The map stores a feed. All transactions it tells of are over, and the open
    one will tell it of itself. -/
structure Session.Feeds (session : Session) (feed : List ChangeRecord) (told : List UInt64) : Prop where
  fed : Fed session.store.state feed
  known : ∀ c ∈ feed, c.tx_id ∈ told
  numbered : ∀ id ∈ told, id < session.store.next_tx_id
  tells : ∀ tx, session = .Busy tx → tx.Tells ∧ tx.tx_id < tx.store.next_tx_id ∧ ∀ id ∈ told, id < tx.tx_id

/-- A call adds to the feed what it commits, under a number higher than those it told before. -/
theorem call_feeds {session : Session} {feed : List ChangeRecord} {told : List UInt64} {io : Io} {event : Event}
    (feeds : session.Feeds feed told) (ordinary : event.Ordinary) :
    let next := Run.step ⟨session,[]⟩ io event
    next.session.Feeds (feed ++ next.history.flatMap Entry.changes) (told ++ next.history.map (fun entry => entry.tx_id)) ∧
      next.history.Pairwise (fun a b => a.tx_id < b.tx_id) ∧ ∀ entry ∈ next.history, ∀ id ∈ told, id < entry.tx_id := by
  have tells : ∀ u, (Run.step ⟨session,[]⟩ io event).session = .Busy u → u.Tells := by
    intro u busy
    exact @step_tells _ ⟨session,[]⟩ io event ordinary (fun tx open_tx => (feeds.tells tx open_tx).1) u busy
  have stepped := step_cases ⟨session,[]⟩ io event
  generalize Run.step ⟨session,[]⟩ io event = next at tells stepped
  have grows := stepped_next stepped
  have kept : next.history = [] → next.session.store.state = session.store.state →
      (∀ u, next.session = .Busy u → u.tx_id < u.store.next_tx_id ∧ ∀ id ∈ told, id < u.tx_id) →
      next.session.Feeds (feed ++ next.history.flatMap Entry.changes) (told ++ next.history.map (fun entry => entry.tx_id)) ∧
        next.history.Pairwise (fun a b => a.tx_id < b.tx_id) ∧ ∀ entry ∈ next.history, ∀ id ∈ told, id < entry.tx_id := by
    intro nothing state later
    rw [nothing,List.flatMap_nil,List.map_nil,List.append_nil,List.append_nil]
    refine ⟨⟨?_,feeds.known,?_,fun u busy => ⟨tells u busy,later u busy⟩⟩,.nil,by simp⟩
    · rw [state]
      exact feeds.fed
    · intro id member
      exact UInt64.lt_of_lt_of_le (feeds.numbered id member) grows
  cases stepped with
  | stays => exact kept rfl rfl (fun u busy => (feeds.tells u busy).2)
  | @begins store emit_cdc tx idle begun =>
    obtain ⟨id,next,-,-,-,borrowed⟩ := begin_ok begun
    dsimp only at idle
    refine kept rfl ?_ ?_
    · rw [idle]
      show tx.store.state = store.state
      rw [borrowed]
    · intro u busy
      cases busy
      rw [id]
      refine ⟨UInt64.lt_iff_toNat_lt.mpr (by omega),?_⟩
      intro old member
      have before := feeds.numbered old member
      rw [idle] at before
      exact before
  | stages busy staged torn =>
    dsimp only at busy
    obtain ⟨-,begun,later⟩ := feeds.tells _ busy
    refine kept rfl ?_ ?_
    · rw [busy]
      exact staged.grown.state
    · intro w open_tx
      cases open_tx
      rw [staged.tx_id,staged.grown.next_tx_id]
      exact ⟨begun,later⟩
  | ends busy staged torn =>
    dsimp only at busy
    refine kept rfl ?_ (fun u open_tx => by cases open_tx)
    rw [busy]
    exact staged.grown.state
  | unconfirmed busy written same unsynced strict =>
    dsimp only at busy
    refine kept rfl ?_ (fun u open_tx => by cases open_tx)
    rw [busy]
    exact same
  | @commits tx u rs r busy written applied =>
    dsimp only at busy
    obtain ⟨telling,begun,later⟩ := feeds.tells tx busy
    have fed := feeds.fed
    rw [busy] at fed
    simp only [List.nil_append,List.flatMap_cons,List.flatMap_nil,List.append_nil,List.map_cons,List.map_nil]
    refine ⟨⟨?_,?_,?_,fun w open_tx => by cases open_tx⟩,List.pairwise_singleton _ _,?_⟩
    · show Fed u.store.state (feed ++ changesOf tx.tx_id tx.operations)
      rw [applied,written.operations,changesOf_eq]
      exact fed.commits telling written.encodes written.countable (fun c member => later c.tx_id (feeds.known c member))
    · intro c member
      rcases List.mem_append.mp member with old | new
      · exact List.mem_append_left _ (feeds.known c old)
      · rw [changes_tx_id new]
        simp
    · intro id member
      show id < u.store.next_tx_id
      rw [written.next_tx_id]
      rcases List.mem_append.mp member with old | new
      · exact UInt64.lt_trans (later id old) begun
      · rw [List.mem_singleton.mp new]
        exact begun
    · intro entry member id old
      rw [List.mem_singleton.mp member]
      exact later id old

theorem Site.Exact.feeds {site : Site} (exact : site.Exact) :
    site.session.Feeds site.feed (site.history.map (fun entry => entry.tx_id)) := by
  refine ⟨exact.fed,?_,?_,?_⟩
  · intro c member
    obtain ⟨entry,inHistory,same⟩ := feed_known member
    exact List.mem_map.mpr ⟨entry,inHistory,same⟩
  · intro id member
    obtain ⟨entry,inHistory,rfl⟩ := List.mem_map.mp member
    exact exact.numbered entry inHistory
  · intro tx busy
    obtain ⟨telling,begun,later⟩ := exact.tells tx busy
    refine ⟨telling,begun,?_⟩
    intro id member
    obtain ⟨entry,inHistory,rfl⟩ := List.mem_map.mp member
    exact later entry inHistory

/-- A call keeps the feed exact. -/
theorem call_exact {site : Site} {io : Io} {event : Event} (exact : site.Exact) (ordinary : event.Ordinary) :
    (site.step (.Call io event)).Exact := by
  obtain ⟨⟨session,history⟩,pruned⟩ := site
  obtain ⟨feeds,rising,later⟩ := @call_feeds _ session _ _ io event exact.feeds ordinary
  show (Site.mk (Run.step ⟨session,history⟩ io event) pruned).Exact
  rw [step_shift session history io event]
  generalize Run.step ⟨session,[]⟩ io event = next at feeds rising later
  have among : ∀ entry ∈ history ++ next.history,
      entry.tx_id ∈ history.map (fun entry => entry.tx_id) ++ next.history.map (fun entry => entry.tx_id) := by
    intro entry member
    rw [← List.map_append]
    exact List.mem_map.mpr ⟨entry,member,rfl⟩
  have before : ∀ a ∈ history, ∀ b ∈ next.history, a.tx_id < b.tx_id := by
    intro a old b new
    exact later b new a.tx_id (List.mem_map.mpr ⟨a,old,rfl⟩)
  refine ⟨?_,List.pairwise_append.mpr ⟨exact.rising,rising,before⟩,?_,?_,?_⟩
  · show Fed next.session.store.state (Site.mk ⟨next.session,history ++ next.history⟩ pruned).feed
    rw [feed_commits]
    · exact feeds.fed
    · intro c removed entry new same
      obtain ⟨old,inHistory,known⟩ := exact.known c removed
      rw [← known] at same
      exact UInt64.ne_of_lt (before old inHistory entry new) same
  · intro c member
    obtain ⟨entry,inHistory,same⟩ := exact.known c member
    exact ⟨entry,List.mem_append_left _ inHistory,same⟩
  · intro entry member
    exact feeds.numbered entry.tx_id (among entry member)
  · intro tx busy
    obtain ⟨telling,begun,first⟩ := feeds.tells tx busy
    exact ⟨telling,begun,fun entry member => first entry.tx_id (among entry member)⟩

theorem prune_exact {site : Site} {io : Io} {tx_id : UInt64} {limit : Nat} (exact : site.Exact) :
    (site.step (.Prune io tx_id limit)).Exact := by
  unfold Site.step
  cases session : site.session with
  | Busy tx => exact exact
  | Idle store =>
    have fed := exact.fed
    have numbered := exact.numbered
    rw [session] at fed numbered
    dsimp only
    cases result : prune_changes_through io tx_id limit store with
    | ok n t =>
      obtain ⟨-,left,reaches⟩ := prune_ok fed result
      refine ⟨?_,exact.rising,?_,?_,by simp⟩
      · show Fed t.state (Site.mk ⟨.Idle t,site.history⟩ (site.pruned ++ firstThrough tx_id limit site.feed)).feed
        rw [feed_pruned]
        exact left
      · intro c member
        rcases List.mem_append.mp member with old | new
        · exact exact.known c old
        · obtain ⟨entry,inHistory,same⟩ := feed_known (firstThrough_subset tx_id limit site.feed c new)
          exact ⟨entry,inHistory,same⟩
      · intro entry member
        exact UInt64.lt_of_lt_of_le (numbered entry member) reaches.next
    | error e t =>
      obtain ⟨left,reaches⟩ := prune_error fed result
      refine ⟨left,exact.rising,exact.known,?_,by simp⟩
      intro entry member
      exact UInt64.lt_of_lt_of_le (numbered entry member) reaches.next

/-! ### On disk, as long as nothing is cut short and every sync succeeds -/

theorem logged_front {history : List Entry} {file longer : Bytes} (front : file <+: longer)
    (logged : ∀ entry ∈ history, ∃ r ∈ records file, r.tx_id = entry.tx_id) :
    ∀ entry ∈ history, ∃ r ∈ records longer, r.tx_id = entry.tx_id := by
  intro entry member
  obtain ⟨r,inLog,same⟩ := logged entry member
  exact ⟨r,(records_front front).subset inLog,same⟩

theorem call_kept {site : Site} {io : Io} {event : Event} (kept : site.Kept) (durable : io.Durable) :
    (site.step (.Call io event)).Kept := by
  obtain ⟨⟨session,history⟩,pruned⟩ := site
  -- The same call on a run without a past.
  have started : Run.Sound (commitments (records session.store.file)) ⟨session,[]⟩ :=
    ⟨kept.session,(List.append_nil _).symm⟩
  have sound : (Run.step ⟨session,[]⟩ io event).session.Sound :=
    (step_sound started (.inl kept.whole) (.inr durable.2)).session
  have whole : fragment (Run.step ⟨session,[]⟩ io event).session.store.file = [] :=
    step_whole started kept.whole durable.1 (.inr durable.2)
  have stepped := step_cases ⟨session,[]⟩ io event
  show (Site.mk (Run.step ⟨session,history⟩ io event) pruned).Kept
  rw [step_shift session history io event]
  generalize Run.step ⟨session,[]⟩ io event = next at sound whole stepped
  have logged := logged_front (stepped_file stepped) kept.logged
  refine ⟨sound,whole,?_⟩
  intro entry member
  rcases List.mem_append.mp member with old | new
  · exact logged entry old
  · cases stepped with
    | @commits tx u rs r busy written applied =>
      dsimp only at busy
      have stored := kept.session
      have tail := kept.whole
      rw [show Session.Sound _ = Session.Sound session from rfl,busy] at stored
      rw [show Session.store _ = session.store from rfl,busy] at tail
      obtain ⟨read,-⟩ := records_grow stored.store.header.long tail written.fits recordHead_nil
      rw [List.append_nil,← written.file] at read
      rw [List.mem_singleton.mp new]
      refine ⟨r,?_,written.mine r (by simp)⟩
      show r ∈ records u.store.file
      rw [read]
      simp
    | _ => cases new

theorem prune_kept {site : Site} {io : Io} {tx_id : UInt64} {limit : Nat} {feed : List ChangeRecord}
    (fed : Fed site.session.store.state feed) (kept : site.Kept) (durable : io.Durable) :
    (site.step (.Prune io tx_id limit)).Kept := by
  unfold Site.step
  cases session : site.session with
  | Busy tx => exact kept
  | Idle store =>
    have sound := kept.session
    have whole := kept.whole
    have logged := kept.logged
    rw [session] at fed sound whole logged
    dsimp only
    have reached : ∀ t, Reaches io store t → (Site.mk ⟨.Idle t,site.history⟩ site.pruned).Kept := by
      intro t reaches
      obtain ⟨stored,ends,grows⟩ := reaches.sound durable sound whole
      exact ⟨stored,ends,logged_front grows logged⟩
    cases result : prune_changes_through io tx_id limit store with
    | ok n t =>
      have after := reached t (prune_ok fed result).2.2
      exact ⟨after.session,after.whole,after.logged⟩
    | error e t =>
      have after := reached t (prune_error fed result).2
      exact ⟨after.session,after.whole,after.logged⟩

/-- Reopening finds what there was. -/
theorem reopen_kept {site : Site} {io : Io} {path : Path} {options : StoreOptions} (kept : site.Kept) :
    (site.step (.Reopen io path options)).Kept := by
  unfold Site.step
  cases session : site.session with
  | Busy tx => exact kept
  | Idle store =>
    have sound := kept.session
    have whole := kept.whole
    have logged := kept.logged
    rw [session] at sound whole logged
    dsimp only [Session.store,Session.Sound] at sound whole logged ⊢
    cases opened : open_with_options io path options store.file with
    | error e left => exact kept
    | ok t left =>
      obtain ⟨-,-,recovery,started,opens⟩ := open_ok opened
      obtain ⟨stored,read,tail⟩ := open_sound opens (.inr sound.file)
      rw [whole,ite_self] at tail
      rw [← read] at logged
      exact ⟨stored,tail,logged⟩

theorem reopen_exact {site : Site} {io : Io} {path : Path} {options : StoreOptions} (exact : site.Exact)
    (kept : site.Kept) : (site.step (.Reopen io path options)).Exact := by
  have keptLater := @reopen_kept _ site io path options kept
  unfold Site.step at keptLater ⊢
  cases session : site.session with
  | Busy tx => exact exact
  | Idle store =>
    have fed := exact.fed
    have sound := kept.session
    rw [session] at fed sound keptLater
    dsimp only [Session.store,Session.Sound] at fed sound keptLater ⊢
    cases opened : open_with_options io path options store.file with
    | error e left => exact exact
    | ok t left =>
      rw [opened] at keptLater
      obtain ⟨-,-,recovery,started,opens⟩ := open_ok opened
      obtain ⟨stored,read,-⟩ := open_sound opens (.inr sound.file)
      refine ⟨?_,exact.rising,exact.known,?_,by simp⟩
      · show Fed t.state site.feed
        rw [stored.state,read,← sound.state]
        exact fed
      · intro entry member
        obtain ⟨r,inLog,same⟩ := keptLater.logged entry member
        rw [← same]
        exact stored.log.identified r inLog

/-- The feed is exact throughout, and the file leads to it while nothing is lost. -/
theorem steps_exact {site : Site} {actions : List Action} (exact : site.Exact) (kept : site.Kept) (use : OrdinaryUse actions) :
    (site.steps actions).Exact ∧ ((∀ a ∈ actions, a.Durable) → (site.steps actions).Kept) := by
  induction actions using List.reverseRecOn with
  | nil => exact ⟨exact,fun _ => kept⟩
  | append_singleton actions action ih =>
    obtain ⟨exactSoFar,keptSoFar⟩ := ih use.front
    have ordinary := use.ordinary action (by simp)
    have earlier : (∀ a ∈ actions ++ [action], a.Durable) → (site.steps actions).Kept := by
      intro durable
      exact keptSoFar (fun a member => durable a (List.mem_append_left _ member))
    rw [site_steps_snoc]
    cases action with
    | Call io event =>
      refine ⟨call_exact exactSoFar ordinary,?_⟩
      intro durable
      exact call_kept (earlier durable) (durable (.Call io event) (by simp))
    | Prune io tx_id limit =>
      refine ⟨prune_exact exactSoFar,?_⟩
      intro durable
      exact prune_kept exactSoFar.fed (earlier durable) (durable (.Prune io tx_id limit) (by simp))
    | Reopen io path options =>
      have before := keptSoFar (use.durable actions io path options [] rfl)
      exact ⟨reopen_exact exactSoFar before,fun _ => reopen_kept before⟩

/-- A new store, before anything is done with it. -/
theorem new_store_exact {io : Io} {path : Path} {options : StoreOptions} {store : Store} {left : Bytes}
    (opened : open_with_options io path options [] = .ok store left) :
    (Site.mk ⟨.Idle store,[]⟩ []).Exact ∧ (Site.mk ⟨.Idle store,[]⟩ []).Kept := by
  obtain ⟨-,-,recovery,started,opens⟩ := open_ok opened
  obtain ⟨sound,read,tail⟩ := open_sound opens (.inl rfl)
  rw [records_nil.2,ite_self] at tail
  refine ⟨⟨?_,.nil,by simp,by simp,by simp⟩,sound,tail,by simp⟩
  show Fed store.state []
  rw [sound.state,read,records_nil.1]
  refine ⟨?_,.nil,by simp⟩
  intro key value _
  simp [committedState,commits]

/-- Nothing is pruned unless someone prunes. -/
theorem steps_unpruned {site : Site} {actions : List Action} (none : site.pruned = [])
    (unpruned : ∀ io tx_id limit, .Prune io tx_id limit ∉ actions) : (site.steps actions).pruned = [] := by
  induction actions generalizing site with
  | nil => exact none
  | cons action actions ih =>
    have later : ∀ io tx_id limit, .Prune io tx_id limit ∉ actions := by
      intro io tx_id limit member
      exact unpruned io tx_id limit (List.mem_cons_of_mem _ member)
    refine ih ?_ later
    cases action with
    | Call io event => exact none
    | Prune io tx_id limit => exact absurd List.mem_cons_self (unpruned io tx_id limit)
    | Reopen io path options =>
      dsimp only [Site.step]
      split
      · exact none
      · split
        · exact none
        · exact none

/-! ## The feed -/

/-- What pruning does to a store with the given feed: if it returns `Ok`, the
    oldest changes through the transaction are gone, as many as it says, and
    nothing else has changed; if it fails, nothing has. -/
structure Prunes (store : Store) (feed : List ChangeRecord) (io : Io) (tx_id : UInt64) (limit : Nat) : Prop where
  removes : ∀ n t, prune_changes_through io tx_id limit store = .ok n t →
    n = min limit (feed.filter (fun c => c.tx_id ≤ tx_id)).length ∧ ∀ all, feed.length ≤ all →
      t.changes_after none all = .ok (feed.filter (fun c => c ∉ firstThrough tx_id limit feed))
  keeps : ∀ e t, prune_changes_through io tx_id limit store = .error e t →
    ∀ all, feed.length ≤ all → t.changes_after none all = .ok feed
  succeeds : io.Faultless → store.options.Unlimited → store.next_tx_id.toNat + 1 < 2 ^ 64 →
    store.next_sequence.toNat + (firstThrough tx_id limit feed).length + 1 < 2 ^ 64 →
    ∃ n t, prune_changes_through io tx_id limit store = .ok n t

theorem prunes_exactly {store : Store} {feed : List ChangeRecord} (fed : Fed store.state feed) (io : Io) (tx_id : UInt64)
    (limit : Nat) : Prunes store feed io tx_id limit := by
  refine ⟨?_,?_,fun faultless unlimited txRoom room => prune_succeeds fed faultless unlimited txRoom room⟩
  · intro n t done
    obtain ⟨count,left,-⟩ := prune_ok fed done
    refine ⟨?_,?_⟩
    · rw [count,firstThrough,List.length_take]
    · intro all enough
      refine changes_after_all left ?_
      exact Nat.le_trans (List.length_filter_le _ _) enough
  · intro e t failed all enough
    exact changes_after_all (prune_error fed failed).1 enough

/-- On a store that was new and has been used in the ordinary way, with any
    calls, reopenings and pruning in any order, and with a durable disk before
    the last reopening: `changes_after` lists the
    changes of the committed transactions, in the order of their rising
    numbers, less those that were pruned; `changes_for_transaction` lists the
    slice of one of them; pruning removes what it should. -/
theorem feed_exact {io : Io} {path : Path} {options : StoreOptions} {store : Store} {left : Bytes} {actions : List Action}
    (opened : open_with_options io path options [] = .ok store left) (use : OrdinaryUse actions) :
    let site := (Site.mk ⟨.Idle store,[]⟩ []).steps actions
    (∀ limit, site.feed.length ≤ limit → site.session.store.changes_after none limit = .ok site.feed) ∧
    (∀ tx_id, site.session.store.changes_for_transaction tx_id = .ok (site.feed.filter (fun c => c.tx_id = tx_id))) ∧
    site.history.Pairwise (fun a b => a.tx_id < b.tx_id) ∧
    ((∀ io tx_id limit, .Prune io tx_id limit ∉ actions) → site.feed = site.history.flatMap Entry.changes) ∧
    ∀ io tx_id limit, Prunes site.session.store site.feed io tx_id limit := by
  intro site
  obtain ⟨new,kept⟩ := new_store_exact opened
  have exact : site.Exact := (steps_exact new kept use).1
  refine ⟨?_,?_,exact.rising,?_,?_⟩
  · intro limit enough
    exact changes_after_all exact.fed enough
  · intro tx_id
    exact changes_for_transaction_eq exact.fed tx_id
  · intro unpruned
    have none : site.pruned = [] := steps_unpruned rfl unpruned
    rw [Site.feed,none,List.filter_eq_self.mpr (by simp)]
  · intro other tx_id limit
    exact prunes_exactly exact.fed other tx_id limit

end

theorem calm_durable : calm.Durable := ⟨fun _ fails => absurd rfl fails,fun _ => rfl⟩

/-- A delete that is committed, one that is rolled back, and a reopening. -/
def twoDeletes : List Action :=
  [.Call calm .Begin,.Call calm (.Delete [107]),.Call calm .Commit,.Call calm .Begin,.Call calm (.Delete [108]),
    .Call calm .Rollback,.Reopen calm ["a.vstore"] .default]

set_option maxRecDepth 20000 in
/-- The feed then tells of the first delete alone. -/
theorem two_deletes_feed : ∃ store left, @open_with_options crates calm ["a.vstore"] .default [] = .ok store left ∧
    (@Site.steps crates ⟨⟨.Idle store,[]⟩,[]⟩ twoDeletes).session.store.changes_after none 100 =
      .ok [⟨1,0,.Delete,[107],none,none⟩] := by
  have evaluated : (match @open_with_options crates calm ["a.vstore"] .default [] with
      | .ok store _ => decide (@Site.feed crates (@Site.steps crates ⟨⟨.Idle store,[]⟩,[]⟩ twoDeletes) =
          [⟨1,0,.Delete,[107],none,none⟩])
      | .error _ _ => false) = true := by decide +kernel
  obtain ⟨store,left,opened⟩ := @sound_opens crates calm [] ["a.vstore"] .default calm_faultless (.inl rfl)
  have calmly : ∀ a ∈ twoDeletes, a.Ordinary ∧ a.Durable := by
    intro a member
    simp only [twoDeletes,List.mem_cons,List.not_mem_nil,or_false] at member
    rcases member with rfl | rfl | rfl | rfl | rfl | rfl | rfl
    · exact ⟨trivial,calm_durable⟩
    · exact ⟨trivial,calm_durable⟩
    · exact ⟨trivial,calm_durable⟩
    · exact ⟨trivial,calm_durable⟩
    · exact ⟨trivial,calm_durable⟩
    · exact ⟨trivial,calm_durable⟩
    · exact ⟨trivial,trivial⟩
  have use : OrdinaryUse twoDeletes := by
    refine ⟨fun a member => (calmly a member).1,?_⟩
    intro before io path options later split a member
    exact (calmly a (by rw [split]; exact List.mem_append_left _ member)).2
  rw [opened] at evaluated
  have feed := of_decide_eq_true evaluated
  have lists := (@feed_exact crates _ _ _ _ _ _ opened use).1 100
  rw [feed] at lists
  exact ⟨store,left,opened,lists (by decide)⟩

/-- A delete whose commit is not confirmed, and a reopening. -/
def unconfirmedDelete : List Action :=
  [.Call calm .Begin,.Call calm (.Delete [107]),.Call unsynced .Commit,.Reopen calm ["a.vstore"] .default]

set_option maxRecDepth 20000 in
/-- No commit has returned `Ok`, and the feed lists the delete. -/
theorem unconfirmed_delete_listed : ∃ store left, @open_with_options crates calm ["a.vstore"] .default [] = .ok store left ∧
    (∀ a ∈ unconfirmedDelete, a.Ordinary) ∧
    let site := @Site.steps crates ⟨⟨.Idle store,[]⟩,[]⟩ unconfirmedDelete
    site.history = [] ∧ @Site.feed crates site = [] ∧
      site.session.store.changes_after none 100 = .ok [⟨1,0,.Delete,[107],none,none⟩] := by
  have evaluated : passes (@open_with_options crates calm ["a.vstore"] .default []) (fun store _ =>
      let site := @Site.steps crates ⟨⟨.Idle store,[]⟩,[]⟩ unconfirmedDelete
      decide (site.history.length = 0) &&
        (site.session.store.changes_after none 100).toOption.any (fun changes => decide (changes = [⟨1,0,.Delete,[107],none,none⟩]))) =
      true := by decide +kernel
  obtain ⟨store,left,opened,evaluated⟩ := passes_iff.mp evaluated
  obtain ⟨nothing,lists⟩ := Bool.and_eq_true_iff.mp evaluated
  have lists := any_eq_iff.mp lists
  have none : (@Site.steps crates ⟨⟨.Idle store,[]⟩,[]⟩ unconfirmedDelete).history = [] :=
    List.length_eq_zero_iff.mp (of_decide_eq_true nothing)
  refine ⟨store,left,opened,?_,none,?_,lists⟩
  · intro a member
    simp only [unconfirmedDelete,List.mem_cons,List.not_mem_nil,or_false] at member
    rcases member with rfl | rfl | rfl | rfl
    · exact trivial
    · exact trivial
    · exact trivial
    · exact trivial
  · unfold Site.feed
    rw [none]
    rfl

end VoodooStore
