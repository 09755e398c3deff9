import VoodooStore.Footprint
import VoodooStore.Lib.Simulation

/-!
# Computations on maps

What a store holds is its map without the feed of changes. A domain's calls
mirror computations on such maps, where an operation is made at once; a
transaction that fails is undone. Only the engine can refuse more than they do.
-/
namespace VoodooStore
open Effects
set_option linter.unusedSimpArgs false

/-- The map without the feed of changes. -/
def data (state : State) : State := state.filter (fun key _ => !starts_with key CDC_PREFIX)

theorem data_get (state : State) (key : Bytes) : (data state)[key]? = if starts_with key CDC_PREFIX then none else state[key]? := by
  rw [data,Std.ExtTreeMap.getElem?_filter']
  cases inside : starts_with key CDC_PREFIX with
  | true => simp
  | false => cases state[key]? <;> rfl

theorem data_outside {state : State} {key : Bytes} (outside : starts_with key CDC_PREFIX = false) : (data state)[key]? = state[key]? := by
  rw [data_get,outside]
  rfl

theorem same_data_iff {s t : State} : SameData s t ↔ data t = data s := by
  constructor
  · intro same
    apply Std.ExtTreeMap.ext_getElem?
    intro key
    rw [data_get,data_get]
    cases inside : starts_with key CDC_PREFIX with
    | true => rfl
    | false => exact same key inside
  · intro same key outside
    rw [← data_outside outside,same,data_outside outside]

theorem data_insert {state : State} {key : Bytes} (outside : starts_with key CDC_PREFIX = false) (value : Bytes) :
    data (state.insert key value) = (data state).insert key value := by
  apply Std.ExtTreeMap.ext_getElem?
  intro other
  rw [data_get,get_insert,get_insert,data_get]
  by_cases same : key = other
  · subst same
    rw [outside,if_pos rfl,if_pos rfl]
    rfl
  · rw [if_neg same,if_neg same]

theorem data_erase {state : State} {key : Bytes} (outside : starts_with key CDC_PREFIX = false) :
    data (state.erase key) = (data state).erase key := by
  apply Std.ExtTreeMap.ext_getElem?
  intro other
  rw [data_get,get_erase,get_erase,data_get]
  by_cases same : key = other
  · subst same
    rw [outside,if_pos rfl,if_pos rfl]
    rfl
  · rw [if_neg same,if_neg same]

/-- A scan apart from the feed is one of what the store holds. -/
theorem scan_data {front : Bytes} (apart : ∀ key, starts_with key front = true → starts_with key CDC_PREFIX = false) (state : State) :
    scan (data state) front = scan state front := scan_congr (fun key inside => data_outside (apart key inside))

/-- What is held by a store, and what a transaction would leave in it. -/
def Store.data (store : Store) : State := VoodooStore.data store.state
def Transaction.data (tx : Transaction) : State := VoodooStore.data tx.view

section
variable [Hashes] {ε α : Type} {wrap : EngineError → ε}

/-- The engine refuses. -/
def Declined (wrap : EngineError → ε) (e : ε) : Prop := ∃ d, e = wrap d

theorem put_mirrors (io : Io) {key : Bytes} (outside : starts_with key CDC_PREFIX = false) (value : Bytes) :
    Mirrors Transaction.data (Declined wrap) (rethrow wrap (put_internal io key value)) (modify (fun state => state.insert key value)) := by
  intro tx
  cases result : rethrow wrap (put_internal io key value) tx with
  | ok x u =>
    have same : u.data = tx.data.insert key value := by
      rw [Transaction.data,(put_internal_ok (rethrow_ok.mp result)).1]
      exact data_insert outside value
    show _ = EStateM.Result.ok x u.data
    rw [modify_run,same]
  | error e u =>
    obtain ⟨d,-,rfl⟩ := rethrow_error.mp result
    exact .inr ⟨d,rfl⟩

theorem delete_mirrors (io : Io) {key : Bytes} (outside : starts_with key CDC_PREFIX = false) :
    Mirrors Transaction.data (Declined wrap) (rethrow wrap (delete_internal io key)) (modify (fun state => state.erase key)) := by
  intro tx
  cases result : rethrow wrap (delete_internal io key) tx with
  | ok x u =>
    have same : u.data = tx.data.erase key := by
      rw [Transaction.data,(delete_internal_ok (rethrow_ok.mp result)).1]
      exact data_erase outside
    show _ = EStateM.Result.ok x u.data
    rw [modify_run,same]
  | error e u =>
    obtain ⟨d,-,rfl⟩ := rethrow_error.mp result
    exact .inr ⟨d,rfl⟩

/-- A transaction of its own mirrors what its body mirrors, and is undone if that fails. -/
theorem within_mirrors {io : Io} {body : EStateM ε Transaction α} {f : EStateM ε State α} (carries : ∀ tx, Carries tx (after body tx))
    (mirrors : Mirrors Transaction.data (Declined wrap) body f) :
    Mirrors Store.data (Declined wrap) (within wrap io body) (atomically f) := by
  intro store
  cases result : within wrap io body store with
  | ok a t =>
    obtain ⟨tx,u,begun,done,same⟩ := within_ok result
    have start : tx.data = store.data := by rw [Transaction.data,(begin_view begun).1]; rfl
    have stop : t.data = u.data := same_data_iff.mp same
    have made := mirrors.ok done
    rw [start,← stop] at made
    exact atomically_ok.mpr made
  | error e t =>
    have kept : t.data = store.data := by rw [Store.data,within_error carries result]; rfl
    cases begun : begin_tx store with
    | error d =>
      rw [within_unbegun begun] at result
      cases result
      exact .inr ⟨d,rfl⟩
    | ok tx =>
      have start : tx.data = store.data := by rw [Transaction.data,(begin_view begun).1]; rfl
      rw [within_begun begun] at result
      cases inner : (do let a ← body; rethrow wrap (commit io); return a : EStateM ε Transaction α) tx with
      | ok b u => rw [inner] at result; cases result
      | error d u =>
        rw [inner] at result
        cases result
        rcases bind_error.mp inner with early | ⟨_,middle,-,rest⟩
        · rcases mirrors.error early with same | other
          · refine .inl ?_
            rw [kept,atomically,← start,same]
          · exact .inr other
        · rcases bind_error.mp rest with late | ⟨_,_,-,returned⟩
          · obtain ⟨d,-,rfl⟩ := rethrow_error.mp late
            exact .inr ⟨d,rfl⟩
          · cases returned

theorem put_alone_mirrors (io : Io) {key : Bytes} (outside : starts_with key CDC_PREFIX = false) (value : Bytes) :
    Mirrors Store.data (Declined wrap) (rethrow wrap (put_alone io key value)) (modify (fun state => state.insert key value)) := by
  intro store
  cases result : rethrow wrap (put_alone io key value) store with
  | ok x t =>
    have same : t.data = VoodooStore.data (store.state.insert key value) := same_data_iff.mp (put_alone_ok (rethrow_ok.mp result))
    rw [data_insert outside] at same
    show _ = EStateM.Result.ok x t.data
    rw [modify_run,same]
    rfl
  | error e t =>
    obtain ⟨d,-,rfl⟩ := rethrow_error.mp result
    exact .inr ⟨d,rfl⟩

end

end VoodooStore
