import VoodooStore.Generation

/-!
# Stores that the code can reach

A store is new, or was used, copied or rewritten as a generation, and opened
again. Its log numbers transactions from one. While it is used, its log only
grows, and what is new has numbers above all those before (`Later`).
-/
namespace VoodooStore
open Effects Frames
set_option linter.unusedSimpArgs false

section
variable [Hashes]

/-- A number that comes after all those in a log. -/
structure Above (log : List LogRecord) (id : UInt64) : Prop where
  positive : 0 < id
  higher : ∀ r ∈ log, r.tx_id < id

omit [Hashes] in
theorem Above.le {log : List LogRecord} {low high : UInt64} (above : Above log low) (order : low ≤ high) : Above log high :=
  ⟨UInt64.lt_of_lt_of_le above.positive order,fun r member => UInt64.lt_of_lt_of_le (above.higher r member) order⟩

omit [Hashes] in
theorem Above.max {log : List LogRecord} {id : UInt64} (above : Above log id) : maxTxId log < id := by
  refine foldl_max_lt above.positive ?_
  intro t member
  obtain ⟨r,inLog,rfl⟩ := List.mem_map.mp member
  exact above.higher r inLog

/-! ## Use that does not damage the log -/

/-- The action writes nothing behind a fragment, and the disk confirms what it commits.
    Pruning is a transaction like others; here it is made of its calls. -/
def Action.Clean (site : Site) : Action → Prop
  | .Call io event => Untouched site.session.store.file (site.step (.Call io event)).session.store.file ∧
      site.session.Confirmed io
  | .Prune _ _ _ => False
  | .Reopen _ _ _ => True

def Undamaged : Site → List Action → Prop
  | _,[] => True
  | site,action :: actions => action.Clean site ∧ Undamaged (site.step action) actions

/-- What was appended belongs to the open transaction. -/
theorem stepped_records {io : Io} {run next : Run} (stepped : Stepped io run next) (sound : run.session.Sound)
    (behind : Untouched run.session.store.file next.session.store.file) :
    ∃ more, records next.session.store.file = records run.session.store.file ++ more ∧
      ∀ r ∈ more, ∃ tx, run.session = .Busy tx ∧ r.tx_id = tx.tx_id := by
  have long := sound.of_store.header.long
  have unchanged : next.session.store.file = run.session.store.file →
      ∃ more, records next.session.store.file = records run.session.store.file ++ more ∧
        ∀ r ∈ more, ∃ tx, run.session = .Busy tx ∧ r.tx_id = tx.tx_id := by
    intro same
    exact ⟨[],by rw [same,List.append_nil],by simp⟩
  have appended : ∀ tx new piece, run.session = .Busy tx →
      next.session.store.file = run.session.store.file ++ (frames new ++ piece) → (∀ r ∈ new, r.Fits) →
      recordHead piece = .torn → (∀ r ∈ new, r.tx_id = tx.tx_id) →
      ∃ more, records next.session.store.file = records run.session.store.file ++ more ∧
        ∀ r ∈ more, ∃ tx, run.session = .Busy tx ∧ r.tx_id = tx.tx_id := by
    intro tx new piece busy file fits torn mine
    rcases behind with whole | same
    · refine ⟨new,?_,fun r member => ⟨tx,busy,mine r member⟩⟩
      rw [file]
      exact (records_grow long whole fits torn).1
    · exact unchanged same
  cases stepped with
  | stays => exact unchanged rfl
  | begins idle begun =>
    obtain ⟨-,-,-,-,-,store⟩ := begin_ok begun
    refine unchanged ?_
    rw [idle]
    dsimp only [Session.store]
    rw [store]
  | @stages tx u rs piece busy staged torn =>
    refine appended tx rs piece busy ?_ staged.grown.fits torn.torn staged.mine
    rw [busy]
    exact staged.grown.file
  | @ends tx u rs piece busy staged torn =>
    refine appended tx rs piece busy ?_ staged.grown.fits torn.torn staged.mine
    rw [busy]
    exact staged.grown.file
  | @commits tx u rs r busy written applied =>
    refine appended tx (rs ++ [r]) [] busy ?_ written.fits recordHead_nil written.mine
    rw [busy,List.append_nil]
    exact written.file
  | @unconfirmed tx u rs r busy written kept unsynced strict =>
    refine appended tx (rs ++ [r]) [] busy ?_ written.fits recordHead_nil written.mine
    rw [busy,List.append_nil]
    exact written.file

theorem stepped_header {io : Io} {run next : Run} (stepped : Stepped io run next) :
    next.session.store.header = run.session.store.header := by
  cases stepped with
  | stays => rfl
  | begins idle begun =>
    obtain ⟨-,-,-,-,-,store⟩ := begin_ok begun
    rw [idle]
    dsimp only [Session.store]
    rw [store]
  | stages busy staged torn => rw [busy]; exact staged.grown.header
  | ends busy staged torn => rw [busy]; exact staged.grown.header
  | commits busy written applied => rw [busy]; exact written.header
  | unconfirmed busy written kept unsynced strict => rw [busy]; exact written.header

/-- An open transaction has kept its number, or was given the next one. -/
theorem stepped_busy {io : Io} {run next : Run} {u : Transaction} (stepped : Stepped io run next)
    (open_tx : next.session = .Busy u) :
    (∃ tx, run.session = .Busy tx ∧ u.tx_id = tx.tx_id) ∨ u.tx_id = run.session.store.next_tx_id := by
  cases stepped with
  | stays => exact .inl ⟨u,open_tx,rfl⟩
  | begins idle begun =>
    obtain ⟨id,-⟩ := begin_ok begun
    cases open_tx
    right
    rw [id,idle]
    rfl
  | stages busy staged torn =>
    cases open_tx
    exact .inl ⟨_,busy,staged.tx_id⟩
  | ends busy staged torn => cases open_tx
  | commits busy written applied => cases open_tx
  | unconfirmed busy written kept unsynced strict => cases open_tx

/-- A store that is used after the given one: the log holds what it held, and
    what is new comes above it. -/
structure Later (source : Store) (site : Site) : Prop where
  sound : Run.Sound (commitments (records source.file)) site.toRun
  header : site.session.store.header = source.header
  grows : ∃ more, records site.session.store.file = records source.file ++ more ∧
    ∀ r ∈ more, Above (records source.file) r.tx_id
  next : Above (records source.file) site.session.store.next_tx_id
  busy : ∀ tx, site.session = .Busy tx → Above (records source.file) tx.tx_id

theorem Later.call {source : Store} {site : Site} {io : Io} {event : Event} (later : Later source site)
    (clean : (Action.Call io event).Clean site) : Later source (site.step (.Call io event)) := by
  have sound : (site.toRun.step io event).Sound (commitments (records source.file)) :=
    step_sound later.sound clean.1 clean.2
  have stepped := step_cases site.toRun io event
  have behind : Untouched site.session.store.file (site.toRun.step io event).session.store.file := clean.1
  have reopened : (site.step (.Call io event)).toRun = site.toRun.step io event := rfl
  obtain ⟨more,read,above⟩ := later.grows
  obtain ⟨new,grown,mine⟩ := stepped_records stepped later.sound.session behind
  refine ⟨sound,(stepped_header stepped).trans later.header,⟨more ++ new,?_,?_⟩,later.next.le (stepped_next stepped),?_⟩
  · rw [reopened,grown,read,List.append_assoc]
  · intro r member
    rcases List.mem_append.mp member with old | young
    · exact above r old
    · obtain ⟨tx,busy,same⟩ := mine r young
      rw [same]
      exact later.busy tx busy
  · intro u open_tx
    rcases stepped_busy stepped open_tx with ⟨tx,busy,same⟩ | same
    · rw [same]
      exact later.busy tx busy
    · rw [same]
      exact later.next

theorem opened_positive {options : StoreOptions} {file started : Bytes} {store : Store} {recovery : Recovery}
    (opened : Opened options file store recovery started) : 0 < store.next_tx_id := by
  have counter := next_counter_ok opened.next_tx_id
  exact UInt64.lt_iff_toNat_lt.mpr (by show 0 < _; omega)

theorem Later.reopen {source : Store} {site : Site} {io : Io} {path : Path} {options : StoreOptions}
    (later : Later source site) : Later source (site.step (.Reopen io path options)) := by
  unfold Site.step
  cases session : site.session with
  | Busy tx => exact later
  | Idle store =>
    dsimp only
    cases opened : open_with_options io path options store.file with
    | error e left => exact later
    | ok t left =>
      have sound := later.sound.session
      have commits := later.sound.commitments
      have header := later.header
      obtain ⟨more,read,above⟩ := later.grows
      rw [session] at sound commits header read
      dsimp only [Session.store,Session.Sound] at sound commits header read
      obtain ⟨-,-,recovery,started,opens⟩ := open_ok opened
      obtain ⟨stored,same,-⟩ := open_sound opens (.inr sound.file)
      have long := sound.header.long
      have kept : started = store.file := by
        rcases opens.starts.2 with equal | ⟨none,-⟩
        · exact equal
        · rw [none] at long
          simp [STORE_HEADER_LEN] at long
      have decoded := opens.starts.1.decodes
      rw [kept,sound.header.decodes] at decoded
      refine ⟨⟨stored,?_⟩,?_,⟨more,?_,above⟩,⟨opened_positive opens,?_⟩,by simp⟩
      · show commitments (records t.file) = _
        rw [same]
        exact commits
      · rw [← header]
        exact (Except.ok.inj decoded).symm
      · show records t.file = _
        rw [same,read]
      · intro r member
        refine stored.log.identified r ?_
        rw [same,read]
        exact List.mem_append_left _ member

theorem Later.steps {source : Store} {site : Site} {actions : List Action} (later : Later source site)
    (undamaged : Undamaged site actions) : Later source (site.steps actions) := by
  induction actions generalizing site with
  | nil => exact later
  | cons action actions ih =>
    obtain ⟨clean,undamaged⟩ := undamaged
    refine ih ?_ undamaged
    cases action with
    | Call io event => exact later.call clean
    | Prune io tx_id limit => exact clean.elim
    | Reopen io path options => exact later.reopen

/-! ## Reachable stores -/

inductive Reachable : Store → Prop
  | new {io : Io} {path : Path} {options : StoreOptions} {store : Store} {left : Bytes}
      (opened : open_with_options io path options [] = .ok store left) : Reachable store
  | used {store next : Store} {actions : List Action} (reachable : Reachable store)
      (undamaged : Undamaged ⟨⟨.Idle store,[]⟩,[]⟩ actions)
      (closed : ((Site.mk ⟨.Idle store,[]⟩ []).steps actions).session = .Idle next) : Reachable next
  | copied {source store : Store} {destination path : Path} {disk made : Disk} {file left : Bytes} {io : Io}
      {options : StoreOptions} (copied : Copied source destination disk made) (there : made destination = some file)
      (opened : open_with_options io path options file = .ok store left) : Reachable store
  | generated {source store : Store} {destination path : Path} {disk made : Disk} {file left : Bytes} {io : Io}
      {options : StoreOptions} {build : GenerationIo} {report : GenerationReport}
      (built : compact_generation_to build source destination disk = .ok report made)
      (there : made destination = some file) (opened : open_with_options io path options file = .ok store left) :
      Reachable store

/-- A sound store whose transactions are numbered from one. -/
structure Store.Numbered (store : Store) : Prop where
  sound : store.Sound
  next : 0 < store.next_tx_id
  positive : ∀ r ∈ records store.file, 0 < r.tx_id

theorem Store.Numbered.later {source : Store} (numbered : source.Numbered) : Later source ⟨⟨.Idle source,[]⟩,[]⟩ :=
  ⟨⟨numbered.sound,by simp [Session.store]⟩,rfl,⟨[],by simp [Session.store],by simp⟩,
    ⟨numbered.next,numbered.sound.log.identified⟩,by simp⟩

theorem opened_numbered {io : Io} {path : Path} {options : StoreOptions} {store : Store} {file left : Bytes}
    (opened : open_with_options io path options file = .ok store left) (sound : FileSound file)
    (positive : ∀ r ∈ records file, 0 < r.tx_id) : store.Numbered := by
  obtain ⟨-,-,recovery,started,opens⟩ := open_ok opened
  obtain ⟨stored,same,-⟩ := open_sound opens (.inr sound)
  refine ⟨stored,opened_positive opens,?_⟩
  rw [same]
  exact positive

theorem Reachable.numbered {store : Store} (reachable : Reachable store) : store.Numbered := by
  induction reachable with
  | new opened =>
    obtain ⟨sound,none,-,-,next,-⟩ := new_store opened
    refine ⟨sound,by rw [next]; decide,?_⟩
    rw [none]
    simp
  | @used store next actions reachable undamaged closed ih =>
    have later := ih.later.steps undamaged
    have sound := later.sound.session
    have above := later.next
    obtain ⟨more,read,high⟩ := later.grows
    rw [closed] at sound above read
    refine ⟨sound,above.positive,?_⟩
    intro r member
    rw [show records next.file = _ from read] at member
    rcases List.mem_append.mp member with old | young
    · exact ih.positive r old
    · exact (high r young).positive
  | copied copied there opened =>
    obtain ⟨file,made,rewritten⟩ := copied_rewritten copied
    rw [made,write_same] at there
    cases there
    refine opened_numbered opened rewritten.sound ?_
    intro r member
    rw [rewritten.first r member]
    decide
  | generated built there opened =>
    obtain ⟨file,rs,marker,found,generated⟩ := compact_generation_ok built
    rw [found] at there
    cases there
    obtain ⟨-,txAhead,sequenceAhead⟩ := generated.opened opened
    refine opened_numbered opened (generated.sound ?_ ?_) ?_
    · exact Nat.lt_of_le_of_lt txAhead (UInt64.toNat_lt _)
    · exact Nat.lt_of_le_of_lt sequenceAhead (UInt64.toNat_lt _)
    · intro r member
      rw [generated.read] at member
      rcases List.mem_append.mp member with rewritten | last
      · rw [generated.first r rewritten]
        decide
      · rw [List.mem_singleton.mp last]
        have counted := generated.tx_id
        exact UInt64.lt_iff_toNat_lt.mpr (by show 0 < _; omega)

end

end VoodooStore
