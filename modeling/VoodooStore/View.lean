import VoodooStore.Continuation
import VoodooStore.Lib.Hoare

/-!
# What a transaction sees

An open transaction reads through what it has staged: a key has the value of its
latest staged mutation, or else the committed one. That is what the map would
hold if the staged operations were applied (`Transaction.view`). The domains
above the engine are computations that read this view and stage operations.
-/
namespace VoodooStore
open Effects Frames
set_option linter.unusedSimpArgs false

/-! ## Maps -/

/-- The entries of a map under a prefix, in key order. -/
def scan (state : State) (front : Bytes) : List (Bytes × Bytes) := state.toList.filter (fun entry => starts_with entry.1 front)

theorem scan_prefix_eq (self : Store) (front : Bytes) : Store.scan_prefix self front = scan self.state front := rfl

theorem mem_scan {state : State} {front key value : Bytes} :
    (key,value) ∈ scan state front ↔ starts_with key front = true ∧ state[key]? = some value := by
  rw [scan,List.mem_filter,Std.ExtTreeMap.mem_toList_iff_getElem?_eq_some]
  exact and_comm

theorem scan_filter (state : State) (front : Bytes) : scan state front = (state.filter (fun key _ => starts_with key front)).toList := by
  rw [Std.ExtTreeMap.toList_filter]
  rfl

/-- A scan depends on the entries under its prefix alone. -/
theorem scan_congr {s t : State} {front : Bytes} (same : ∀ key, starts_with key front = true → s[key]? = t[key]?) :
    scan s front = scan t front := by
  rw [scan_filter,scan_filter]
  congr 1
  apply Std.ExtTreeMap.ext_getElem?
  intro key
  rw [Std.ExtTreeMap.getElem?_filter',Std.ExtTreeMap.getElem?_filter']
  cases inside : starts_with key front with
  | true => rw [same key inside]
  | false => simp

/-- No key is listed twice. -/
theorem scan_keys_nodup (state : State) (front : Bytes) : ((scan state front).map Prod.fst).Nodup := by
  rw [List.nodup_iff_pairwise_ne,List.pairwise_map]
  refine (Std.ExtTreeMap.distinct_keys_toList.filter _).imp ?_
  intro a b different same
  rw [same] at different
  exact different Std.ReflCmp.compare_self

theorem get_insert {state : State} {key value other : Bytes} :
    (state.insert key value)[other]? = if key = other then some value else state[other]? := by
  simp only [Std.ExtTreeMap.getElem?_insert,Std.LawfulEqOrd.compare_eq_iff_eq]

theorem get_erase {state : State} {key other : Bytes} :
    (state.erase key)[other]? = if key = other then none else state[other]? := by
  simp only [Std.ExtTreeMap.getElem?_erase,Std.LawfulEqOrd.compare_eq_iff_eq]

theorem apply_append (state : State) (first second : List Operation) :
    apply_operations state (first ++ second) = apply_operations (apply_operations state first) second := by
  simp [apply_operations]

/-- Operations on other keys leave a key alone. -/
theorem apply_elsewhere {state : State} {operations : List Operation} {key : Bytes} (other : ∀ o ∈ operations, o.key ≠ key) :
    (apply_operations state operations)[key]? = state[key]? := by
  induction operations generalizing state with
  | nil => rfl
  | cons o operations ih =>
    show (apply_operations (apply_operation state o) operations)[key]? = _
    rw [ih (fun o member => other o (by simp [member]))]
    have apart := other o (by simp)
    cases o with
    | Put staged value => exact get_insert.trans (if_neg apart)
    | Delete staged => exact get_erase.trans (if_neg apart)

/-! ## Reading through what is staged -/

/-- The latest mutation of a key, the latest operation first. -/
def latest (key : Bytes) : List Operation → Option (Option Bytes)
  | [] => none
  | .Put staged_key value :: earlier => if staged_key = key then some (some value) else latest key earlier
  | .Delete staged_key :: earlier => if staged_key = key then some none else latest key earlier

def Transaction.get_internal (self : Transaction) (key : Bytes) : Option Bytes :=
  (latest key self.operations.reverse).getD (self.store.get key)

/-- An operation on the entries under a prefix. -/
def overlay (front : Bytes) (entries : State) : Operation → State
  | .Put key value => if starts_with key front then entries.insert key value else entries
  | .Delete key => if starts_with key front then entries.erase key else entries

def Transaction.scan_prefix_internal (self : Transaction) (front : Bytes) : List (Bytes × Bytes) :=
  let entries : State := .ofList (Store.scan_prefix self.store front)
  (self.operations.foldl (overlay front) entries).toList

/-- The map with what is staged. -/
def Transaction.view (self : Transaction) : State := apply_operations self.store.state self.operations

theorem get_internal_eq (self : Transaction) (key : Bytes) : self.get_internal key = self.view[key]? := by
  unfold Transaction.get_internal Transaction.view
  generalize self.operations = operations
  induction operations using List.reverseRecOn with
  | nil => rfl
  | append_singleton operations o ih =>
    rw [List.reverse_append,apply_append]
    cases o with
    | Put staged value =>
      show (if staged = key then some (some value) else latest key operations.reverse).getD _ = _
      rw [show (apply_operations _ [.Put staged value])[key]? = _ from get_insert,← ih]
      split <;> rfl
    | Delete staged =>
      show (if staged = key then some none else latest key operations.reverse).getD _ = _
      rw [show (apply_operations _ [.Delete staged])[key]? = _ from get_erase,← ih]
      split <;> rfl

/-- Overlaying the entries under a prefix gives those of the map with the operations. -/
theorem overlay_get (front : Bytes) (operations : List Operation) (entries state : State)
    (same : ∀ key, entries[key]? = if starts_with key front then state[key]? else none) (key : Bytes) :
    (operations.foldl (overlay front) entries)[key]? =
      if starts_with key front then (apply_operations state operations)[key]? else none := by
  induction operations generalizing entries state with
  | nil => exact same key
  | cons o operations ih =>
    refine ih (overlay front entries o) (apply_operation state o) ?_
    intro other
    cases o with
    | Put staged value =>
      show (if starts_with staged front then entries.insert staged value else entries)[other]? = _
      rw [show (apply_operation state (.Put staged value))[other]? = _ from get_insert]
      by_cases inside : starts_with staged front = true
      · rw [if_pos inside,get_insert,same other]
        by_cases here : staged = other
        · rw [if_pos here,if_pos here,← here,if_pos inside]
        · rw [if_neg here,if_neg here]
      · rw [if_neg inside,same other]
        by_cases here : staged = other
        · rw [← here,if_neg inside,if_neg inside]
        · rw [if_neg here]
    | Delete staged =>
      show (if starts_with staged front then entries.erase staged else entries)[other]? = _
      rw [show (apply_operation state (.Delete staged))[other]? = _ from get_erase]
      by_cases inside : starts_with staged front = true
      · rw [if_pos inside,get_erase,same other]
        by_cases here : staged = other
        · rw [if_pos here,if_pos here,ite_self]
        · rw [if_neg here,if_neg here]
      · rw [if_neg inside,same other]
        by_cases here : staged = other
        · rw [← here,if_neg inside,if_neg inside]
        · rw [if_neg here]

theorem ofList_scan (state : State) (front key : Bytes) :
    (Std.ExtTreeMap.ofList (scan state front) : State)[key]? = if starts_with key front then state[key]? else none := by
  have distinct : (scan state front).Pairwise (fun a b => ¬ compare a.1 b.1 = .eq) := Std.ExtTreeMap.distinct_keys_toList.filter _
  cases found : (if starts_with key front then state[key]? else none) with
  | some value =>
    have inside : (key,value) ∈ scan state front := by
      rw [mem_scan]
      split at found
      · rename_i starts
        exact ⟨starts,found⟩
      · cases found
    exact Std.ExtTreeMap.getElem?_ofList_of_mem Std.ReflCmp.compare_self distinct inside
  | none =>
    refine Std.ExtTreeMap.getElem?_ofList_of_contains_eq_false ?_
    rw [Bool.eq_false_iff,ne_eq,List.contains_iff_mem]
    intro member
    obtain ⟨⟨same,value⟩,inside,rfl⟩ := List.mem_map.mp member
    obtain ⟨starts,there⟩ := mem_scan.mp inside
    rw [if_pos starts,there] at found
    cases found

theorem scan_prefix_internal_eq (self : Transaction) (front : Bytes) :
    self.scan_prefix_internal front = scan self.view front := by
  unfold Transaction.scan_prefix_internal
  rw [scan_filter,scan_prefix_eq]
  dsimp only
  congr 1
  apply Std.ExtTreeMap.ext_getElem?
  intro key
  rw [Std.ExtTreeMap.getElem?_filter',overlay_get front self.operations _ self.store.state (ofList_scan _ _)]
  show _ = Option.filter _ (apply_operations self.store.state self.operations)[key]?
  cases starts_with key front <;> cases (apply_operations self.store.state self.operations)[key]? <;> rfl

/-- An open transaction reads what it would commit: every key and every scan is as in the store with the operations applied. -/
theorem transaction_reads_what_it_commits (self : Transaction) :
    let committed : Store := { self.store with state := apply_operations self.store.state self.operations }
    (∀ key, self.get_internal key = committed.get key) ∧ ∀ front, self.scan_prefix_internal front = Store.scan_prefix committed front ∧
      (self.scan_prefix_internal front).Pairwise (fun a b => compare a.1 b.1 = .lt) ∧ ((self.scan_prefix_internal front).map Prod.fst).Nodup := by
  intro committed
  refine ⟨get_internal_eq self,?_⟩
  intro front
  refine ⟨scan_prefix_internal_eq self front,?_,?_⟩
  · rw [scan_prefix_internal_eq]
    exact Std.ExtTreeMap.ordered_keys_toList.filter _
  · rw [scan_prefix_internal_eq]
    exact scan_keys_nodup _ _

/-! ## What staging does to the view -/

/-- What a transaction keeps whatever it stages. -/
structure Carries (tx u : Transaction) : Prop where
  state : u.store.state = tx.store.state
  tx_id : u.tx_id = tx.tx_id
  emit_cdc : u.emit_cdc = tx.emit_cdc
  next_tx_id : u.store.next_tx_id = tx.store.next_tx_id

theorem Carries.refl (tx : Transaction) : Carries tx tx := ⟨rfl,rfl,rfl,rfl⟩

theorem Carries.trans {tx u w : Transaction} (first : Carries tx u) (second : Carries u w) : Carries tx w :=
  ⟨second.state.trans first.state,second.tx_id.trans first.tx_id,second.emit_cdc.trans first.emit_cdc,
    second.next_tx_id.trans first.next_tx_id⟩

/-- The two maps differ in the key space of the feed at most. -/
def SameData (s t : State) : Prop := ∀ key, starts_with key CDC_PREFIX = false → t[key]? = s[key]?

theorem SameData.refl (s : State) : SameData s s := fun _ _ => rfl

theorem begin_view {self : Store} {tx : Transaction} (begun : begin_tx self = .ok tx) :
    tx.view = self.state ∧ tx.store.state = self.state ∧ tx.tx_id = self.next_tx_id ∧ tx.emit_cdc = true := by
  obtain ⟨id,-,empty,emits,-,borrowed⟩ := begin_ok begun
  have state : tx.store.state = self.state := by rw [borrowed]
  refine ⟨?_,state,id,emits⟩
  rw [Transaction.view,empty,state]
  rfl

/-- If the computation fails, the transaction sees what it saw before. -/
def FailsClean {ε α : Type} (x : EStateM ε Transaction α) : Prop := ∀ tx e u, x tx = .error e u → u.view = tx.view

theorem clean_of_reads {ε α : Type} {x : EStateM ε Transaction α} (reads : Reads x) : FailsClean x := by
  intro tx e u failed
  rw [reads.error failed]

/-- Checks before the staging do not spoil it. -/
theorem FailsClean.checked {ε α β : Type} {x : EStateM ε Transaction α} {f : α → EStateM ε Transaction β} (checks : Reads x)
    (clean : ∀ a, FailsClean (f a)) : FailsClean (x >>= f) := by
  intro tx e u failed
  rcases bind_error.mp failed with early | ⟨a,middle,passed,late⟩
  · rw [checks.error early]
  · rw [checks.ok passed] at late
    exact clean a tx e u late

theorem FailsClean.returning {ε α β : Type} {x : EStateM ε Transaction α} (clean : FailsClean x) (f : α → β) :
    FailsClean (do return f (← x)) := by
  intro tx e u failed
  rcases bind_error.mp failed with early | ⟨a,middle,passed,late⟩
  · exact clean tx e u early
  · cases late

theorem FailsClean.rethrow {ε φ α : Type} {x : EStateM ε Transaction α} {f : ε → φ} (clean : FailsClean x) :
    FailsClean (rethrow f x) := by
  intro tx e u failed
  obtain ⟨d,failed,-⟩ := rethrow_error.mp failed
  exact clean tx d u failed

section
variable [Hashes]

theorem Staged.carries {tx u : Transaction} {rs : List LogRecord} {piece : Bytes} (staged : Staged tx u rs piece) : Carries tx u :=
  ⟨staged.grown.state,staged.tx_id,staged.emit_cdc,staged.grown.next_tx_id⟩

theorem Staged.view {tx u : Transaction} {rs : List LogRecord} {piece : Bytes} (staged : Staged tx u rs piece) :
    u.view = apply_operations tx.view (rs.filterMap LogRecord.operation) := by
  rw [Transaction.view,staged.grown.state,staged.operations,apply_append]
  rfl

theorem stage_view {io : Io} {kind : RecordKind} {encoded : Except EngineError Bytes} {operation : Operation}
    {tx u : Transaction} {x : Unit} (spells : Spells kind encoded operation)
    (done : stage io kind encoded operation tx = .ok x u) : u.view = apply_operation tx.view operation ∧ Carries tx u := by
  obtain ⟨r,staged,stores⟩ := stage_ok spells done
  refine ⟨?_,staged.carries⟩
  rw [staged.view,List.filterMap_cons,stores]
  rfl

theorem put_internal_ok {io : Io} {key value : Bytes} {tx u : Transaction} {x : Unit}
    (done : put_internal io key value tx = .ok x u) : u.view = tx.view.insert key value ∧ Carries tx u :=
  stage_view (put_spells key value) done

theorem delete_internal_ok {io : Io} {key : Bytes} {tx u : Transaction} {x : Unit}
    (done : delete_internal io key tx = .ok x u) : u.view = tx.view.erase key ∧ Carries tx u :=
  stage_view (delete_spells key) done

/-- A mutation that is refused changes nothing that the transaction sees. -/
theorem stage_refused_view {io : Io} {kind : RecordKind} {encoded : Except EngineError Bytes} {operation : Operation}
    {tx u : Transaction} {e : EngineError} (failed : stage io kind encoded operation tx = .error e u) :
    u.view = tx.view ∧ Carries tx u := by
  obtain ⟨piece,staged,-⟩ := stage_error failed
  exact ⟨staged.view,staged.carries⟩

/-! ## Computations on an open transaction -/

/-- The computation does nothing but stage operations, all of them whole. -/
def Stages {ε α : Type} (x : EStateM ε Transaction α) : Prop := ∀ tx, ∃ rs, Staged tx (after x tx) rs []

theorem Stages.carries {ε α : Type} {x : EStateM ε Transaction α} (stages : Stages x) (tx : Transaction) :
    Carries tx (after x tx) := by
  obtain ⟨rs,staged⟩ := stages tx
  exact staged.carries

theorem stages_of_reads {ε α : Type} {x : EStateM ε Transaction α} (reads : Reads x) : Stages x := by
  intro tx
  rw [reads tx]
  exact ⟨[],.refl tx⟩

theorem Stages.bind {ε α β : Type} {x : EStateM ε Transaction α} {f : α → EStateM ε Transaction β} (first : Stages x)
    (second : ∀ a, Stages (f a)) : Stages (x >>= f) := by
  intro tx
  obtain ⟨rs,staged⟩ := first tx
  unfold after at staged ⊢
  rw [bind_run]
  cases result : x tx with
  | ok a u =>
    rw [result] at staged
    obtain ⟨more,later⟩ := second a u
    exact ⟨rs ++ more,staged.trans later⟩
  | error e u =>
    rw [result] at staged
    exact ⟨rs,staged⟩

theorem Stages.rethrow {ε φ α : Type} {x : EStateM ε Transaction α} {f : ε → φ} (stages : Stages x) : Stages (rethrow f x) := by
  intro tx
  obtain ⟨rs,staged⟩ := stages tx
  unfold after at staged ⊢
  unfold Effects.rethrow
  cases result : x tx with
  | ok a u => rw [result] at staged; exact ⟨rs,staged⟩
  | error e u => rw [result] at staged; exact ⟨rs,staged⟩

theorem stage_stages {io : Io} {kind : RecordKind} {encoded : Except EngineError Bytes} {operation : Operation}
    (writes : io.WritesWhole) (spells : Spells kind encoded operation) : Stages (stage io kind encoded operation) := by
  intro tx
  unfold after
  cases result : stage io kind encoded operation tx with
  | ok x u =>
    obtain ⟨r,staged,-⟩ := stage_ok spells result
    exact ⟨[r],staged⟩
  | error e u =>
    obtain ⟨piece,staged,torn⟩ := stage_error result
    rw [torn.whole writes] at staged
    exact ⟨[],staged⟩

theorem put_stages {io : Io} (writes : io.WritesWhole) (key value : Bytes) : Stages (put_internal io key value) :=
  stage_stages writes (put_spells key value)

theorem delete_stages {io : Io} (writes : io.WritesWhole) (key : Bytes) : Stages (delete_internal io key) :=
  stage_stages writes (delete_spells key)

theorem put_clean (io : Io) (key value : Bytes) : FailsClean (put_internal io key value) :=
  fun _ _ _ failed => (stage_refused_view failed).1

theorem delete_clean (io : Io) (key : Bytes) : FailsClean (delete_internal io key) :=
  fun _ _ _ failed => (stage_refused_view failed).1

/-! ## Computations on a store -/

/-- A transaction of its own: the body, and then the commit. Whatever goes wrong, it ends with the block. -/
def within {ε α : Type} (wrap : EngineError → ε) (io : Io) (body : EStateM ε Transaction α) : EStateM ε Store α := fun store =>
  match begin_tx store with
  | .error error => .error (wrap error) store
  | .ok tx =>
    match (do let a ← body; rethrow wrap (commit io); return a : EStateM ε Transaction α) tx with
    | .ok a done => .ok a done.store
    | .error error left => .error error left.store

/-- `Store::put_internal` -/
def put_alone (io : Io) (key value : Bytes) : EStateM EngineError Store Unit := within id io (put_internal io key value)

/-- `Store::delete_internal` -/
def delete_alone (io : Io) (key : Bytes) : EStateM EngineError Store Unit := within id io (delete_internal io key)

/-- A commit adds changes to what its transaction sees. -/
theorem commit_view {io : Io} {tx u : Transaction} {x : Unit} (done : commit io tx = .ok x u) :
    SameData tx.view u.store.state := by
  obtain ⟨rs,r,written,applied⟩ := commit_ok done
  intro key outside
  rw [applied,written.operations,apply_append]
  refine apply_elsewhere ?_
  intro o member same
  unfold ownChanges at member
  split at member
  · obtain ⟨c,-,rfl⟩ := List.mem_map.mp member
    have inside := change_key_starts c.tx_id c.sequence
    rw [show (ChangeRecord.store c).key = change_key c.tx_id c.sequence from rfl] at same
    rw [same,outside] at inside
    cases inside
  · cases member

theorem commit_keeps {io : Io} {tx u : Transaction} {e : EngineError} (failed : commit io tx = .error e u) :
    u.store.state = tx.store.state := by
  rcases commit_error failed with ⟨rs,piece,staged,-⟩ | ⟨rs,r,-,kept,-⟩
  · exact staged.grown.state
  · exact kept

/-- A transaction of its own that succeeds leaves what its body saw at the end. -/
theorem within_ok {ε α : Type} {wrap : EngineError → ε} {io : Io} {body : EStateM ε Transaction α} {store t : Store} {a : α}
    (done : within wrap io body store = .ok a t) :
    ∃ tx u, begin_tx store = .ok tx ∧ body tx = .ok a u ∧ SameData u.view t.state := by
  unfold within at done
  cases begun : begin_tx store with
  | error e => rw [begun] at done; cases done
  | ok tx =>
    rw [begun] at done
    dsimp only at done
    cases result : (do let a ← body; rethrow wrap (commit io); return a : EStateM ε Transaction α) tx with
    | error e u => rw [result] at done; cases done
    | ok b u =>
      rw [result] at done
      cases done
      obtain ⟨_,middle,bodyDone,rest⟩ := bind_ok.mp result
      obtain ⟨_,_,committed,returned⟩ := bind_ok.mp rest
      cases returned
      exact ⟨tx,middle,rfl,bodyDone,commit_view (rethrow_ok.mp committed)⟩

/-- If it fails, the map is as it was. -/
theorem within_error {ε α : Type} {wrap : EngineError → ε} {io : Io} {body : EStateM ε Transaction α} {store t : Store} {e : ε}
    (carries : ∀ tx, Carries tx (after body tx)) (failed : within wrap io body store = .error e t) : t.state = store.state := by
  unfold within at failed
  cases begun : begin_tx store with
  | error e => rw [begun] at failed; cases failed; rfl
  | ok tx =>
    rw [begun] at failed
    dsimp only at failed
    obtain ⟨-,state,-,-⟩ := begin_view begun
    have kept := (carries tx).state
    cases result : (do let a ← body; rethrow wrap (commit io); return a : EStateM ε Transaction α) tx with
    | ok b u => rw [result] at failed; cases failed
    | error e u =>
      rw [result] at failed
      cases failed
      rw [← state]
      unfold after at kept
      rcases bind_error.mp result with early | ⟨_,middle,bodyDone,rest⟩
      · rw [early] at kept
        exact kept
      · rw [bodyDone] at kept
        rcases bind_error.mp rest with late | ⟨_,_,-,returned⟩
        · obtain ⟨_,late,-⟩ := rethrow_error.mp late
          exact (commit_keeps late).trans kept
        · cases returned

/-- The computation keeps a store whose file is whole and leads to its map. -/
def Steady {ε α : Type} (x : EStateM ε Store α) : Prop := ∀ store : Store, store.Sound → fragment store.file = [] →
  (after x store).Sound ∧ fragment (after x store).file = []

theorem steady_of_reads {ε α : Type} {x : EStateM ε Store α} (reads : Reads x) : Steady x := by
  intro store sound whole
  rw [reads store]
  exact ⟨sound,whole⟩

theorem Steady.bind {ε α β : Type} {x : EStateM ε Store α} {f : α → EStateM ε Store β} (first : Steady x)
    (second : ∀ a, Steady (f a)) : Steady (x >>= f) := by
  intro store sound whole
  have reached := first store sound whole
  unfold after at reached ⊢
  rw [bind_run]
  cases result : x store with
  | ok a t =>
    rw [result] at reached
    exact second a t reached.1 reached.2
  | error e t =>
    rw [result] at reached
    exact reached

theorem Steady.rethrow {ε φ α : Type} {x : EStateM ε Store α} {f : ε → φ} (steady : Steady x) : Steady (rethrow f x) := by
  intro store sound whole
  have reached := steady store sound whole
  unfold after at reached ⊢
  unfold Effects.rethrow
  cases result : x store with
  | ok a t => rw [result] at reached; exact reached
  | error e t => rw [result] at reached; exact reached

/-- Staging keeps an open transaction sound and its file whole. -/
theorem Stages.sound {ε α : Type} {x : EStateM ε Transaction α} {tx : Transaction} (stages : Stages x) (sound : tx.Sound)
    (whole : fragment tx.store.file = []) : (after x tx).Sound ∧ fragment (after x tx).store.file = [] := by
  obtain ⟨rs,staged⟩ := stages tx
  obtain ⟨kept,-,left⟩ := sound.stages staged recordHead_nil (.inl whole)
  exact ⟨kept,left whole⟩

/-- A commit keeps the store sound and its file whole, whether it succeeds or not. -/
theorem commit_sound {io : Io} {tx : Transaction} (durable : io.Durable) (sound : tx.Sound) (whole : fragment tx.store.file = []) :
    (after (commit io) tx).store.Sound ∧ fragment (after (commit io) tx).store.file = [] := by
  unfold after
  cases result : commit io tx with
  | ok x u =>
    obtain ⟨rs,r,written,applied⟩ := commit_ok result
    obtain ⟨kept,left,-⟩ := sound.commits written (.inl whole) applied
    exact ⟨kept,left⟩
  | error e u =>
    rcases commit_error result with ⟨rs,piece,staged,torn⟩ | ⟨rs,r,-,-,unsynced,-⟩
    · obtain ⟨kept,-,left⟩ := sound.stages staged torn.torn (.inl whole)
      exact ⟨kept.store,(left whole).trans (torn.whole durable.1)⟩
    · exact absurd (durable.2 _) unsynced

theorem within_steady {ε α : Type} {wrap : EngineError → ε} {io : Io} {body : EStateM ε Transaction α} (durable : io.Durable)
    (stages : Stages body) : Steady (within wrap io body) := by
  intro store sound whole
  unfold after within
  cases begun : begin_tx store with
  | error e => exact ⟨sound,whole⟩
  | ok tx =>
    dsimp only
    obtain ⟨begins,file⟩ := begin_sound sound begun
    obtain ⟨bodySound,bodyWhole⟩ := stages.sound begins (by rw [file]; exact whole)
    unfold after at bodySound bodyWhole
    cases bodyDone : body tx with
    | error e u =>
      rw [bodyDone] at bodySound bodyWhole
      rw [bind_of_error bodyDone]
      exact ⟨bodySound.store,bodyWhole⟩
    | ok a u =>
      rw [bodyDone] at bodySound bodyWhole
      rw [bind_of_ok bodyDone]
      obtain ⟨kept,left⟩ := commit_sound durable bodySound bodyWhole
      unfold after at kept left
      cases committed : commit io u with
      | ok x w =>
        rw [committed] at kept left
        rw [bind_of_ok (rethrow_ok.mpr committed)]
        exact ⟨kept,left⟩
      | error e w =>
        rw [committed] at kept left
        rw [bind_of_error (rethrow_error.mpr ⟨e,committed,rfl⟩)]
        exact ⟨kept,left⟩

/-- The computation keeps a store sound, and its map too if it fails. -/
structure Atomic {ε α : Type} (x : EStateM ε Store α) : Prop where
  steady : Steady x
  keeps : ∀ store e t, x store = .error e t → t.state = store.state

theorem atomic_of_reads {ε α : Type} {x : EStateM ε Store α} (reads : Reads x) : Atomic x := by
  refine ⟨steady_of_reads reads,?_⟩
  intro store e t failed
  rw [reads.error failed]

/-- Checks before an atomic computation do not spoil it. -/
theorem Atomic.checked {ε α β : Type} {x : EStateM ε Store α} {f : α → EStateM ε Store β} (checks : Reads x)
    (atomic : ∀ a, Atomic (f a)) : Atomic (x >>= f) := by
  refine ⟨(steady_of_reads checks).bind (fun a => (atomic a).steady),?_⟩
  intro store e t failed
  rcases bind_error.mp failed with early | ⟨a,middle,passed,late⟩
  · rw [checks.error early]
  · rw [checks.ok passed] at late
    exact (atomic a).keeps store e t late

theorem Atomic.returning {ε α β : Type} {x : EStateM ε Store α} (atomic : Atomic x) (f : α → β) : Atomic (do return f (← x)) := by
  refine ⟨atomic.steady.bind (fun a => steady_of_reads (reads_pure _)),?_⟩
  intro store e t failed
  rcases bind_error.mp failed with early | ⟨a,middle,passed,late⟩
  · exact atomic.keeps store e t early
  · cases late

theorem Atomic.rethrow {ε φ α : Type} {x : EStateM ε Store α} {f : ε → φ} (atomic : Atomic x) : Atomic (rethrow f x) := by
  refine ⟨atomic.steady.rethrow,?_⟩
  intro store e t failed
  obtain ⟨d,failed,-⟩ := rethrow_error.mp failed
  exact atomic.keeps store d t failed

theorem within_atomic {ε α : Type} {wrap : EngineError → ε} {io : Io} {body : EStateM ε Transaction α} (durable : io.Durable)
    (stages : Stages body) : Atomic (within wrap io body) :=
  ⟨within_steady durable stages,fun _ _ _ failed => within_error stages.carries failed⟩

theorem put_alone_atomic {io : Io} (durable : io.Durable) (key value : Bytes) : Atomic (put_alone io key value) :=
  within_atomic durable (put_stages durable.1 key value)

theorem delete_alone_atomic {io : Io} (durable : io.Durable) (key : Bytes) : Atomic (delete_alone io key) :=
  within_atomic durable (delete_stages durable.1 key)

theorem put_alone_ok {io : Io} {key value : Bytes} {store t : Store} {x : Unit} (done : put_alone io key value store = .ok x t) :
    SameData (store.state.insert key value) t.state := by
  obtain ⟨tx,u,begun,staged,same⟩ := within_ok done
  rw [(put_internal_ok staged).1,(begin_view begun).1] at same
  exact same

theorem delete_alone_ok {io : Io} {key : Bytes} {store t : Store} {x : Unit} (done : delete_alone io key store = .ok x t) :
    SameData (store.state.erase key) t.state := by
  obtain ⟨tx,u,begun,staged,same⟩ := within_ok done
  rw [(delete_internal_ok staged).1,(begin_view begun).1] at same
  exact same

theorem within_begun {ε α : Type} {wrap : EngineError → ε} {io : Io} {body : EStateM ε Transaction α} {store : Store} {tx : Transaction}
    (begun : begin_tx store = .ok tx) : within wrap io body store =
      match (do let a ← body; rethrow wrap (commit io); return a : EStateM ε Transaction α) tx with
      | .ok a done => .ok a done.store
      | .error error left => .error error left.store := by
  unfold within
  rw [begun]

theorem within_unbegun {ε α : Type} {wrap : EngineError → ε} {io : Io} {body : EStateM ε Transaction α} {store : Store} {e : EngineError}
    (refused : begin_tx store = .error e) : within wrap io body store = .error (wrap e) store := by
  unfold within
  rw [refused]

/-- What a transaction of its own returns may be chosen before or behind its commit. -/
theorem within_returning {ε α β : Type} (wrap : EngineError → ε) (io : Io) (body : EStateM ε Transaction α) (b : β) (store : Store) :
    within wrap io (do let _ ← body; return b) store = (do let _ ← within wrap io body; return b : EStateM ε Store β) store := by
  cases begun : begin_tx store with
  | error e => rw [bind_run,within_unbegun begun,within_unbegun begun]
  | ok tx =>
    rw [bind_run,within_begun begun,within_begun begun]
    cases result : body tx with
    | error e u => rw [bind_assoc,bind_of_error result,bind_of_error result]
    | ok a u =>
      rw [bind_assoc,bind_of_ok result,bind_of_ok result,pure_bind,bind_run,bind_run]
      cases rethrow wrap (commit io) u <;> rfl

/-- A transaction that stages nothing is its commit. -/
theorem within_pure {ε α : Type} {wrap : EngineError → ε} {io : Io} {a : α} {store : Store} {tx : Transaction}
    (begun : begin_tx store = .ok tx) : within wrap io (pure a) store =
      match commit io tx with
      | .ok _ u => .ok a u.store
      | .error e u => .error (wrap e) u.store := by
  rw [within_begun begun,pure_bind]
  cases committed : commit io tx with
  | ok x u => rw [bind_of_ok (rethrow_ok.mpr committed)]; rfl
  | error e u => rw [bind_of_error (rethrow_error.mpr ⟨e,committed,rfl⟩)]

end

/-! ## Two ways to the same -/

/-- Both succeed with the same value or both fail, and they leave the same maps outside the feed. -/
def Alike {ε α : Type} : EStateM.Result ε Store α → EStateM.Result ε Store α → Prop
  | .ok a s, .ok b t => a = b ∧ SameData s.state t.state
  | .error _ s, .error _ t => SameData s.state t.state
  | _, _ => False

theorem Alike.refl {ε α : Type} (result : EStateM.Result ε Store α) : Alike result result := by
  cases result with
  | ok a s => exact ⟨rfl,.refl _⟩
  | error e s => exact SameData.refl _

end VoodooStore
