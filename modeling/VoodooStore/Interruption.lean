import VoodooStore.Interleaving

/-!
# Calls that a crash interrupts

A call appends to the file, transaction after transaction, and a crash leaves a
first part of what it wrote. Recovery then finds the map between two of its
transactions: what one of them wrote is there as a whole or not at all
(`within_interrupted`), and so on for chains of them.
-/
namespace VoodooStore
open Effects Frames
set_option linter.unusedSimpArgs false

theorem after_rethrow {ε φ σ α : Type} (f : ε → φ) (x : EStateM ε σ α) (s : σ) : after (rethrow f x) s = after x s := by
  unfold after Effects.rethrow
  cases x s <;> rfl

section
variable [Hashes]

/-- The map that recovery finds in a file. -/
def recoveredState (file : Bytes) : State := committedState (records file)

theorem recovered_commitments {file : Bytes} (sound : FileSound file) :
    recoveredState file = applyCommitments ∅ (commitments (records file)) := by
  obtain ⟨_,_,log⟩ := sound.log
  obtain ⟨_,replayed⟩ := log.replays
  exact committedState_commitments replayed

theorem commitment_within {file : Bytes} (long : STORE_HEADER_LEN ≤ file.length) {c : Commitment}
    (member : c ∈ commitments (records file)) : c.commit_end ≤ file.length := by
  obtain ⟨front,r,inside,ends⟩ := commitment_end member
  obtain ⟨later,split⟩ := inside
  have size := congrArg List.length (frames_fragment file)
  rw [List.length_append,List.length_drop] at size
  have total := endOf_append (front ++ [r]) later
  rw [split,endOf] at total
  rw [ends,List.nil_append]
  omega

/-- A crash here loses nothing that is committed: every commit was forced to the disk. -/
def Synced (file : Bytes) (cut : Nat) : Prop := STORE_HEADER_LEN ≤ cut ∧ ∀ c ∈ commitments (records file), c.commit_end ≤ cut

instance (file : Bytes) (cut : Nat) : Decidable (Synced file cut) := inferInstanceAs (Decidable (_ ∧ _))

theorem synced_of_le {file : Bytes} (long : STORE_HEADER_LEN ≤ file.length) {cut : Nat} (kept : file.length ≤ cut) : Synced file cut :=
  ⟨long.trans kept,fun _ member => (commitment_within long member).trans kept⟩

theorem Synced.commitments {file : Bytes} {cut : Nat} (synced : Synced file cut) :
    (commitments (records file)).filter (fun c => c.commit_end ≤ cut) = commitments (records file) :=
  List.filter_eq_self.mpr (fun c member => decide_eq_true (synced.2 c member))

/-- Behind the first file nothing is committed: every cut leads to its map. -/
theorem recovered_uncommitted {before file : Bytes} (soundBefore : FileSound before) (sound : FileSound file)
    (same : commitments (records file) = commitments (records before)) {cut : Nat} (synced : Synced before cut) :
    recoveredState (file.take cut) = recoveredState before := by
  obtain ⟨soundCut,commits⟩ := sound.take synced.1
  rw [recovered_commitments soundCut,commits,recovered_commitments soundBefore,same,synced.commitments]

/-- Behind the first file one transaction is committed, at the end: a cut leads to the map before or after it. -/
theorem recovered_committed {before file : Bytes} (soundBefore : FileSound before) (sound : FileSound file) {c : Commitment}
    (added : commitments (records file) = commitments (records before) ++ [c]) {cut : Nat} (synced : Synced before cut) :
    recoveredState (file.take cut) = recoveredState before ∨ recoveredState (file.take cut) = recoveredState file := by
  obtain ⟨soundCut,commits⟩ := sound.take synced.1
  rw [recovered_commitments soundCut,commits,added,List.filter_append,synced.commitments]
  by_cases inside : c.commit_end ≤ cut
  · right
    rw [recovered_commitments sound,added,List.filter_cons_of_pos (by simpa using inside)]
    rfl
  · left
    rw [recovered_commitments soundBefore,List.filter_cons_of_neg (by simpa using inside),List.filter_nil,List.append_nil]

theorem Store.Sound.recovered {store : Store} (sound : store.Sound) : recoveredState store.file = store.state := sound.state.symm

/-- A crash while the computation writes leaves this map. -/
def Interrupted {ε α : Type} (x : EStateM ε Store α) (store : Store) (state : State) : Prop :=
  ∃ cut, Synced store.file cut ∧ recoveredState ((after x store).file.take cut) = state

/-- The computation keeps a store sound and writes behind its file only. -/
structure Appending {ε α : Type} (x : EStateM ε Store α) : Prop where
  steady : Steady x
  grows : ∀ store, store.Sound → fragment store.file = [] → store.file <+: (after x store).file

theorem appending_of_reads {ε α : Type} {x : EStateM ε Store α} (reads : Reads x) : Appending x := by
  refine ⟨steady_of_reads reads,?_⟩
  intro store sound whole
  rw [reads store]

theorem Appending.bind {ε α β : Type} {x : EStateM ε Store α} {f : α → EStateM ε Store β} (first : Appending x)
    (second : ∀ a, Appending (f a)) : Appending (x >>= f) := by
  refine ⟨first.steady.bind (fun a => (second a).steady),?_⟩
  intro store sound whole
  have reached := first.steady store sound whole
  have grown := first.grows store sound whole
  unfold after at reached grown ⊢
  rw [bind_run]
  cases result : x store with
  | ok a t =>
    rw [result] at reached grown
    exact grown.trans ((second a).grows t reached.1 reached.2)
  | error e t =>
    rw [result] at grown
    exact grown

theorem Appending.rethrow {ε φ α : Type} {x : EStateM ε Store α} {f : ε → φ} (appending : Appending x) : Appending (rethrow f x) := by
  refine ⟨appending.steady.rethrow,?_⟩
  intro store sound whole
  rw [after_rethrow]
  exact appending.grows store sound whole

theorem interrupted_rethrow {ε φ α : Type} {x : EStateM ε Store α} {f : ε → φ} {store : Store} {state : State}
    (interrupted : Interrupted (rethrow f x) store state) : Interrupted x store state := by
  obtain ⟨cut,synced,found⟩ := interrupted
  rw [after_rethrow] at found
  exact ⟨cut,synced,found⟩

theorem interrupted_reads {ε α : Type} {x : EStateM ε Store α} (reads : Reads x) {store : Store} {state : State} (sound : store.Sound)
    (interrupted : Interrupted x store state) : state = store.state := by
  obtain ⟨cut,synced,rfl⟩ := interrupted
  rw [reads store]
  exact (recovered_uncommitted sound.file sound.file rfl synced).trans sound.recovered

/-- A crash in a chain is one in its first part, or one in the rest after the first part is done. -/
theorem interrupted_bind {ε α β : Type} {x : EStateM ε Store α} {f : α → EStateM ε Store β} (second : ∀ a, Appending (f a))
    (first : Appending x) {store : Store} {state : State} (sound : store.Sound) (whole : fragment store.file = [])
    (interrupted : Interrupted (x >>= f) store state) :
    Interrupted x store state ∨ ∃ a t, x store = .ok a t ∧ Interrupted (f a) t state := by
  obtain ⟨cut,synced,found⟩ := interrupted
  have reached := first.steady store sound whole
  unfold after at found reached
  rw [bind_run] at found
  unfold Interrupted after
  cases result : x store with
  | error e t =>
    rw [result] at found
    exact .inl ⟨cut,synced,found⟩
  | ok a t =>
    rw [result] at found reached
    dsimp only at found reached ⊢
    obtain ⟨more,split⟩ := (second a).grows t reached.1 reached.2
    unfold after at split
    by_cases early : cut ≤ t.file.length
    · left
      refine ⟨cut,synced,?_⟩
      rw [← found,← split,List.take_append_of_le_length early]
    · right
      exact ⟨a,t,rfl,cut,synced_of_le reached.1.header.long (by omega),found⟩

/-- A transaction of its own is there as a whole or not at all. -/
theorem within_interrupted {ε α : Type} {wrap : EngineError → ε} {io : Io} {body : EStateM ε Transaction α} (durable : io.Durable)
    (stages : Stages body) {store : Store} {state : State} (sound : store.Sound) (whole : fragment store.file = [])
    (interrupted : Interrupted (within wrap io body) store state) :
    state = store.state ∨ ∃ a t, within wrap io body store = .ok a t ∧ state = t.state := by
  obtain ⟨cut,synced,found⟩ := interrupted
  unfold after at found
  cases begun : begin_tx store with
  | error e =>
    rw [within_unbegun begun] at found
    exact .inl (found.symm.trans ((recovered_uncommitted sound.file sound.file rfl synced).trans sound.recovered))
  | ok tx =>
    obtain ⟨begins,file⟩ := begin_sound sound begun
    have whole_tx : fragment tx.store.file = [] := by rw [file]; exact whole
    obtain ⟨rs,staged⟩ := stages tx
    obtain ⟨bodySound,commits,bodyWhole⟩ := begins.stages staged recordHead_nil (.inl whole_tx)
    have bodyWhole := bodyWhole whole_tx
    rw [file] at commits
    rw [within_begun begun] at found ⊢
    unfold after at bodySound commits bodyWhole
    cases bodyDone : body tx with
    | error e u =>
      rw [bodyDone] at bodySound commits
      rw [bind_of_error bodyDone] at found
      left
      rw [← found,← sound.recovered]
      exact recovered_uncommitted sound.file bodySound.store.file commits synced
    | ok a u =>
      rw [bodyDone] at bodySound commits bodyWhole
      rw [bind_of_ok bodyDone] at found ⊢
      dsimp only at bodySound commits bodyWhole
      cases committed : commit io u with
      | ok x w =>
        obtain ⟨rs,r,written,applied⟩ := commit_ok committed
        obtain ⟨done,-,added⟩ := bodySound.commits written (.inl bodyWhole) applied
        rw [bind_of_ok (rethrow_ok.mpr committed)] at found ⊢
        rw [commits] at added
        rcases recovered_committed sound.file done.file added synced with before | behind
        · left
          rw [← found,← sound.recovered]
          exact before
        · right
          refine ⟨a,w.store,rfl,?_⟩
          rw [← found,← done.recovered]
          exact behind
      | error e w =>
        rw [bind_of_error (rethrow_error.mpr ⟨e,committed,rfl⟩)] at found
        rcases commit_error committed with ⟨rs,piece,staged,torn⟩ | ⟨rs,r,-,-,unsynced,-⟩
        · obtain ⟨done,later,-⟩ := bodySound.stages staged torn.torn (.inl bodyWhole)
          left
          rw [← found,← sound.recovered]
          exact recovered_uncommitted sound.file done.store.file (later.trans commits) synced
        · exact absurd (durable.2 _) unsynced

theorem within_appending {ε α : Type} {wrap : EngineError → ε} {io : Io} {body : EStateM ε Transaction α} (durable : io.Durable)
    (stages : Stages body) : Appending (within wrap io body) := by
  refine ⟨within_steady durable stages,?_⟩
  intro store sound whole
  unfold after
  cases begun : begin_tx store with
  | error e =>
    rw [within_unbegun begun]
  | ok tx =>
    obtain ⟨-,file⟩ := begin_sound sound begun
    obtain ⟨rs,staged⟩ := stages tx
    have grown := staged.grown.file
    rw [within_begun begun]
    unfold after at grown
    rw [file] at grown
    cases bodyDone : body tx with
    | error e u =>
      rw [bodyDone] at grown
      rw [bind_of_error bodyDone]
      exact grown ▸ List.prefix_append _ _
    | ok a u =>
      rw [bodyDone] at grown
      rw [bind_of_ok bodyDone]
      dsimp only at grown
      have front : store.file <+: u.store.file := grown ▸ List.prefix_append _ _
      cases committed : commit io u with
      | ok x w =>
        obtain ⟨rs,r,written,-⟩ := commit_ok committed
        rw [bind_of_ok (rethrow_ok.mpr committed)]
        exact front.trans (written.file ▸ List.prefix_append _ _)
      | error e w =>
        rw [bind_of_error (rethrow_error.mpr ⟨e,committed,rfl⟩)]
        rcases commit_error committed with ⟨rs,piece,staged,torn⟩ | ⟨rs,r,written,-,-,-⟩
        · exact front.trans (staged.grown.file ▸ List.prefix_append _ _)
        · exact front.trans (written.file ▸ List.prefix_append _ _)

/-- One transaction at most: the computation is done as a whole or not at all, however it ends. -/
structure AllOrNothing {ε α : Type} (x : EStateM ε Store α) : Prop where
  appending : Appending x
  keeps : ∀ store e t, x store = .error e t → t.state = store.state
  interrupted : ∀ store state, store.Sound → fragment store.file = [] → Interrupted x store state →
    state = store.state ∨ ∃ a t, x store = .ok a t ∧ state = t.state

theorem within_all_or_nothing {ε α : Type} {wrap : EngineError → ε} {io : Io} {body : EStateM ε Transaction α} (durable : io.Durable)
    (stages : Stages body) : AllOrNothing (within wrap io body) :=
  ⟨within_appending durable stages,(within_atomic durable stages).keeps,
    fun _ _ sound whole interrupted => within_interrupted durable stages sound whole interrupted⟩

theorem all_or_nothing_of_reads {ε α : Type} {x : EStateM ε Store α} (reads : Reads x) : AllOrNothing x :=
  ⟨appending_of_reads reads,(atomic_of_reads reads).keeps,
    fun _ _ sound _ interrupted => .inl (interrupted_reads reads sound interrupted)⟩

theorem AllOrNothing.checked {ε α β : Type} {x : EStateM ε Store α} {f : α → EStateM ε Store β} (checks : Reads x)
    (later : ∀ a, AllOrNothing (f a)) : AllOrNothing (x >>= f) := by
  refine ⟨(appending_of_reads checks).bind (fun a => (later a).appending),?_,?_⟩
  · intro store e t failed
    rcases bind_error.mp failed with first | ⟨a,u,first,second⟩
    · rw [checks.error first]
    · rw [checks.ok first] at second
      exact (later a).keeps store e t second
  · intro store state sound whole interrupted
    rcases interrupted_bind (fun a => (later a).appending) (appending_of_reads checks) sound whole interrupted with early | ⟨a,u,first,second⟩
    · exact .inl (interrupted_reads checks sound early)
    · have same := checks.ok first
      subst same
      rcases (later a).interrupted u state sound whole second with before | ⟨b,t,done,after_state⟩
      · exact .inl before
      · exact .inr ⟨b,t,bind_ok.mpr ⟨a,u,first,done⟩,after_state⟩

theorem AllOrNothing.returning {ε α β : Type} {x : EStateM ε Store α} (once : AllOrNothing x) (f : α → β) :
    AllOrNothing (do return f (← x)) := by
  have pure_appending : ∀ a : α, Appending (pure (f a) : EStateM ε Store β) := fun a => appending_of_reads (reads_pure _)
  refine ⟨once.appending.bind pure_appending,?_,?_⟩
  · intro store e t failed
    rcases bind_error.mp failed with first | ⟨a,u,_,second⟩
    · exact once.keeps store e t first
    · cases second
  · intro store state sound whole interrupted
    rcases interrupted_bind pure_appending once.appending sound whole interrupted with early | ⟨a,u,first,second⟩
    · rcases once.interrupted store state sound whole early with before | ⟨a,t,done,after_state⟩
      · exact .inl before
      · exact .inr ⟨f a,t,bind_ok.mpr ⟨a,t,done,rfl⟩,after_state⟩
    · have reached := once.appending.steady store sound whole
      rw [after,first] at reached
      exact .inr ⟨f a,u,bind_ok.mpr ⟨a,u,first,rfl⟩,interrupted_reads (reads_pure _) reached.1 second⟩

theorem AllOrNothing.rethrow {ε φ α : Type} {x : EStateM ε Store α} {f : ε → φ} (once : AllOrNothing x) : AllOrNothing (rethrow f x) := by
  refine ⟨once.appending.rethrow,?_,?_⟩
  · intro store e t failed
    obtain ⟨d,first,_⟩ := rethrow_error.mp failed
    exact once.keeps store d t first
  · intro store state sound whole interrupted
    rcases once.interrupted store state sound whole (interrupted_rethrow interrupted) with before | ⟨a,t,done,after_state⟩
    · exact .inl before
    · exact .inr ⟨a,t,rethrow_ok.mpr done,after_state⟩

/-- What a crash in a call leaves is opened again, with its torn tail cut off. -/
theorem crash_reopens {ε α : Type} {x : EStateM ε Store α} (appending : Appending x) {store t : Store} (sound : store.Sound)
    (whole : fragment store.file = []) {cut : Nat} (synced : Synced store.file cut) {io : Io} {path : Path} {options : StoreOptions}
    {left : Bytes} (repairs : options.repair_torn_tail = true)
    (opened : open_with_options io path options ((after x store).file.take cut) = .ok t left) :
    t.Sound ∧ fragment t.file = [] ∧ Interrupted x store t.state := by
  obtain ⟨reached,-⟩ := appending.steady store sound whole
  obtain ⟨soundCut,-⟩ := reached.file.take synced.1
  obtain ⟨-,-,recovery,started,opens⟩ := open_ok opened
  obtain ⟨stored,read,tail⟩ := open_sound opens (.inr soundCut)
  rw [if_pos repairs] at tail
  refine ⟨stored,tail,cut,synced,?_⟩
  rw [recoveredState,← read]
  exact stored.state.symm

end

end VoodooStore
