import VoodooStore.View

/-!
# What the quota on namespaces decides

The quota is meant for what a namespace holds after the commit. The loop over the
final values compares running totals with it, in the order in which a hash map
is walked: it refuses a commit as soon as one of these is too high. So it decides
on the final totals only as long as no running total passes the limit on the way
(`quota_decides_iff`).
-/
namespace VoodooStore
open Effects
set_option linter.unusedSimpArgs false

/-! ## What a namespace holds -/

/-- The bytes of the entries that belong to a namespace. -/
def bytesOf (ns : String) (entries : List (Bytes × Bytes)) : Nat :=
  ((entries.filter (fun entry => namespace_for_key entry.1 = ns)).map (fun entry => entry.2.length)).sum

/-- The bytes that a namespace holds. -/
def total (state : State) (ns : String) : Nat := bytesOf ns state.toList

/-- The bytes of a value, if there is one. -/
def size (value : Option Bytes) : Nat := (value.map List.length).getD 0

/-- The value of one key changes. -/
def change (state : State) (entry : Bytes × Option Bytes) : State :=
  match entry.2 with
  | some value => state.insert entry.1 value
  | none => state.erase entry.1

def changeAll (state : State) (entries : List (Bytes × Option Bytes)) : State := entries.foldl change state

theorem change_get (state : State) (entry : Bytes × Option Bytes) (key : Bytes) :
    (change state entry)[key]? = if entry.1 = key then entry.2 else state[key]? := by
  obtain ⟨changed,value⟩ := entry
  cases value with
  | none => exact get_erase
  | some value => exact get_insert

theorem bytesOf_cons (ns : String) (entry : Bytes × Bytes) (entries : List (Bytes × Bytes)) :
    bytesOf ns (entry :: entries) = (if namespace_for_key entry.1 = ns then entry.2.length else 0) + bytesOf ns entries := by
  unfold bytesOf
  by_cases inside : namespace_for_key entry.1 = ns
  · simp [inside]
  · simp [inside]

theorem bytesOf_perm (ns : String) {first second : List (Bytes × Bytes)} (perm : first.Perm second) :
    bytesOf ns first = bytesOf ns second :=
  ((perm.filter _).map _).sum_nat

theorem entries_nodup (state : State) : state.toList.Nodup := by
  refine Std.ExtTreeMap.distinct_keys_toList.imp ?_
  rintro a b different rfl
  exact different Std.ReflCmp.compare_self

/-- The entries of a map, with the one at a key in front. -/
theorem entries_perm (state : State) (key : Bytes) :
    state.toList.Perm ((state[key]?.map (fun value => (key,value))).toList ++ state.toList.filter (fun entry => entry.1 ≠ key)) := by
  have rest : (state.toList.filter (fun entry => decide (entry.1 ≠ key))).Nodup := (entries_nodup state).filter _
  refine (List.perm_ext_iff_of_nodup (entries_nodup state) ?_).mpr ?_
  · cases state[key]? with
    | none => simpa using rest
    | some value => simpa using rest
  · rintro ⟨other,value⟩
    by_cases same : other = key
    · subst same
      cases found : state[other]? with
      | none => simp [Std.ExtTreeMap.mem_toList_iff_getElem?_eq_some,found]
      | some here => simp [Std.ExtTreeMap.mem_toList_iff_getElem?_eq_some,found,eq_comm]
    · cases found : state[key]? with
      | none => simp [same]
      | some here => simp [same]

theorem total_split (state : State) (ns : String) (key : Bytes) : total state ns =
    (if namespace_for_key key = ns then size state[key]? else 0) +
      bytesOf ns (state.toList.filter (fun entry => entry.1 ≠ key)) := by
  rw [total,bytesOf_perm ns (entries_perm state key)]
  cases state[key]? with
  | none => simp [size]
  | some value => simp [size,bytesOf_cons]

/-- The other keys hold what they held. -/
theorem others_same (state : State) (ns : String) (entry : Bytes × Option Bytes) :
    bytesOf ns ((change state entry).toList.filter (fun other => other.1 ≠ entry.1)) =
      bytesOf ns (state.toList.filter (fun other => other.1 ≠ entry.1)) := by
  refine bytesOf_perm ns ((List.perm_ext_iff_of_nodup ((entries_nodup _).filter _) ((entries_nodup _).filter _)).mpr ?_)
  rintro ⟨key,value⟩
  rw [List.mem_filter,List.mem_filter,Std.ExtTreeMap.mem_toList_iff_getElem?_eq_some,
    Std.ExtTreeMap.mem_toList_iff_getElem?_eq_some,change_get]
  by_cases same : key = entry.1
  · simp [same]
  · simp [same,Ne.symm same]

/-- How the total of a namespace changes with the value of one key. -/
theorem total_change (state : State) (ns : String) (entry : Bytes × Option Bytes) :
    total (change state entry) ns + (if namespace_for_key entry.1 = ns then size state[entry.1]? else 0) =
      total state ns + (if namespace_for_key entry.1 = ns then size entry.2 else 0) := by
  rw [total_split state ns entry.1,total_split (change state entry) ns entry.1,others_same,change_get,if_pos rfl]
  omega

/-- A key holds at most what its namespace holds. -/
theorem size_le_total (state : State) (key : Bytes) : size state[key]? ≤ total state (namespace_for_key key) := by
  rw [total_split state _ key,if_pos rfl]
  omega

/-! ## The final values -/

/-- The last of the operations on each key decides. -/
theorem final_values_get (operations : List Operation) (state : State) (key : Bytes) :
    (apply_operations state operations)[key]? = ((final_values operations)[key]?).getD state[key]? := by
  induction operations using List.reverseRecOn with
  | nil => rfl
  | append_singleton operations o ih =>
    rw [apply_append]
    cases o with
    | Put changed value =>
      have values : final_values (operations ++ [.Put changed value]) = (final_values operations).insert changed (some value) := by
        simp only [final_values,List.foldl_append,List.foldl_cons,List.foldl_nil]
      rw [values,show (apply_operations _ [.Put changed value])[key]? = _ from get_insert,ih]
      simp only [Std.ExtTreeMap.getElem?_insert,Std.LawfulEqOrd.compare_eq_iff_eq]
      split <;> rfl
    | Delete changed =>
      have values : final_values (operations ++ [.Delete changed]) = (final_values operations).insert changed none := by
        simp only [final_values,List.foldl_append,List.foldl_cons,List.foldl_nil]
      rw [values,show (apply_operations _ [.Delete changed])[key]? = _ from get_erase,ih]
      simp only [Std.ExtTreeMap.getElem?_insert,Std.LawfulEqOrd.compare_eq_iff_eq]
      split <;> rfl

/-- Changes of different keys, seen from one of them. -/
theorem changeAll_get (entries : List (Bytes × Option Bytes)) (state : State) (distinct : (entries.map Prod.fst).Nodup)
    (key : Bytes) : (∀ value, (key,value) ∈ entries → (changeAll state entries)[key]? = value) ∧
      (key ∉ entries.map Prod.fst → (changeAll state entries)[key]? = state[key]?) := by
  induction entries generalizing state with
  | nil => exact ⟨by simp,fun _ => rfl⟩
  | cons entry entries ih =>
    rw [List.map_cons,List.nodup_cons] at distinct
    obtain ⟨member,other⟩ := ih (change state entry) distinct.2
    constructor
    · intro value inside
      rcases List.mem_cons.mp inside with rfl | later
      · show (changeAll (change state (key,value)) entries)[key]? = value
        rw [other distinct.1,change_get,if_pos rfl]
      · exact member value later
    · intro outside
      rw [List.map_cons,List.mem_cons,not_or] at outside
      show (changeAll (change state entry) entries)[key]? = _
      rw [other outside.2,change_get,if_neg (Ne.symm outside.1)]

/-- The final values as the loop walks through them. -/
def walked (io : Io) (operations : List Operation) : List (Bytes × Option Bytes) := io.walk (final_values operations).toList

theorem walked_mem (io : Io) (operations : List Operation) (key : Bytes) (value : Option Bytes) :
    (key,value) ∈ walked io operations ↔ (final_values operations)[key]? = some value := by
  rw [walked,(io.walk_perm _).mem_iff,Std.ExtTreeMap.mem_toList_iff_getElem?_eq_some]

theorem walked_distinct (io : Io) (operations : List Operation) : ((walked io operations).map Prod.fst).Nodup := by
  have keys : ((final_values operations).toList.map Prod.fst).Nodup := by
    rw [List.nodup_iff_pairwise_ne,List.pairwise_map]
    refine Std.ExtTreeMap.distinct_keys_toList.imp ?_
    intro a b different same
    rw [same] at different
    exact different Std.ReflCmp.compare_self
  exact (((io.walk_perm _).map Prod.fst).nodup_iff).mpr keys

/-- In whatever order they come, the final values make up the final map. -/
theorem changeAll_walked (io : Io) (operations : List Operation) (state : State) :
    changeAll state (walked io operations) = apply_operations state operations := by
  apply Std.ExtTreeMap.ext_getElem?
  intro key
  obtain ⟨member,other⟩ := changeAll_get (walked io operations) state (walked_distinct io operations) key
  rw [final_values_get]
  cases found : (final_values operations)[key]? with
  | some value => exact member value ((walked_mem io operations key value).mpr found)
  | none =>
    refine other ?_
    intro inside
    obtain ⟨⟨same,value⟩,listed,rfl⟩ := List.mem_map.mp inside
    rw [(walked_mem io operations same value).mp listed] at found
    cases found

/-! ## Running totals -/

/-- The totals are those of the map. -/
def Counts (totals : Totals) (state : State) : Prop := ∀ ns, (totals.getD ns 0).toNat = total state ns

theorem getD_insert (totals : Totals) (ns other : String) (x : UInt64) :
    (totals.insert ns x).getD other 0 = if ns = other then x else totals.getD other 0 := by
  simp only [Std.ExtTreeMap.getD_insert,Std.LawfulEqOrd.compare_eq_iff_eq]

theorem u64_saturating_sub (a b : UInt64) : (a.saturating_sub b).toNat = a.toNat - b.toNat := by
  unfold UInt64.saturating_sub
  by_cases fits : b ≤ a
  · rw [if_pos fits,UInt64.toNat_sub_of_le a b fits]
  · rw [if_neg fits]
    have less := UInt64.lt_iff_toNat_lt.mp (UInt64.not_le.mp fits)
    show 0 = _
    omega

theorem u64_of_size {n : Nat} (small : n < 2 ^ 64) : (UInt64.ofNat n).toNat = n := UInt64.toNat_ofNat_of_lt' small

/-- The loop over the entries of the map, if it succeeds. -/
theorem count_entries_ok {entries : List (Bytes × Bytes)} {totals counted : Totals} (small : ∀ entry ∈ entries, entry.2.length < 2 ^ 64)
    (done : entries.foldlM count_entry totals = .ok counted) (ns : String) :
    (counted.getD ns 0).toNat = (totals.getD ns 0).toNat + bytesOf ns entries := by
  induction entries generalizing totals with
  | nil =>
    cases done
    rfl
  | cons entry entries ih =>
    rw [List.foldlM_cons] at done
    obtain ⟨next,counts,done⟩ := bind_ok_iff.mp done
    rw [ih (fun other member => small other (List.mem_cons_of_mem _ member)) done,bytesOf_cons]
    unfold count_entry at counts
    dsimp only at counts
    split at counts
    · cases counts
    · rename_i added sum
      cases counts
      have grown := u64_checked_add_some sum
      rw [u64_of_size (small entry List.mem_cons_self)] at grown
      rw [getD_insert]
      by_cases inside : namespace_for_key entry.1 = ns
      · rw [if_pos inside,if_pos inside,grown,inside]
        omega
      · rw [if_neg inside,if_neg inside]
        omega

/-- The loop over the entries of the map, if it fails. -/
theorem count_entries_error {entries : List (Bytes × Bytes)} {totals : Totals} {e : EngineError}
    (failed : entries.foldlM count_entry totals = .error e) : e = .NamespaceQuotaOverflow := by
  induction entries generalizing totals with
  | nil => cases failed
  | cons entry entries ih =>
    rw [List.foldlM_cons] at failed
    cases counts : count_entry totals entry with
    | ok next =>
      rw [counts] at failed
      exact ih failed
    | error d =>
      rw [counts] at failed
      cases failed
      unfold count_entry at counts
      dsimp only at counts
      split at counts
      · cases counts
        rfl
      · cases counts

/-- The end of a turn of the loop over the final values: the new total is compared with the limit. -/
def judge (max_bytes : UInt64) (totals : Totals) (ns : String) (x : UInt64) : Except EngineError Totals :=
  if x > max_bytes then .error (.NamespaceQuotaExceeded ns max_bytes) else .ok (totals.insert ns x)

/-- The start of a turn: the previous value of the key is taken off the total. -/
theorem count_final_reduced {state map : State} {max_bytes : UInt64} {totals : Totals} {entry : Bytes × Option Bytes}
    (counts : Counts totals map) (before : size state[entry.1]? < 2 ^ 64) : ∃ reduced : UInt64,
      reduced.toNat = total map (namespace_for_key entry.1) - size state[entry.1]? ∧
      (entry.2 = none → count_final state max_bytes totals entry = judge max_bytes totals (namespace_for_key entry.1) reduced) ∧
      ∀ value, entry.2 = some value → count_final state max_bytes totals entry =
        match reduced.checked_add (.ofNat value.length) with
        | none => .error .NamespaceQuotaOverflow
        | some x => judge max_bytes totals (namespace_for_key entry.1) x := by
  have here := counts (namespace_for_key entry.1)
  obtain ⟨key,value⟩ := entry
  cases found : state[key]? with
  | none =>
    refine ⟨totals.getD (namespace_for_key key) 0,by simp [here,size],?_,?_⟩
    · rintro rfl
      simp [count_final,found,judge]
    · rintro put rfl
      simp only [count_final,found]
      cases (totals.getD (namespace_for_key key) 0).checked_add (.ofNat put.length) with
      | none => rfl
      | some x => rfl
  | some previous =>
    dsimp only at before
    rw [found] at before
    have length : previous.length < 2 ^ 64 := before
    refine ⟨(totals.getD (namespace_for_key key) 0).saturating_sub (.ofNat previous.length),?_,?_,?_⟩
    · rw [u64_saturating_sub,here,u64_of_size length]
      rfl
    · rintro rfl
      simp [count_final,found,judge]
    · rintro put rfl
      simp only [count_final,found]
      cases ((totals.getD (namespace_for_key key) 0).saturating_sub (.ofNat previous.length)).checked_add (.ofNat put.length) with
      | none => rfl
      | some x => rfl

/-- What one turn of the loop over the final values does. -/
theorem count_final_cases {state map : State} {max_bytes : UInt64} {totals : Totals} {entry : Bytes × Option Bytes}
    (counts : Counts totals map) (unchanged : map[entry.1]? = state[entry.1]?) (before : size state[entry.1]? < 2 ^ 64)
    (after : size entry.2 < 2 ^ 64) :
    count_final state max_bytes totals entry = .error .NamespaceQuotaOverflow ∨
    (count_final state max_bytes totals entry = .error (.NamespaceQuotaExceeded (namespace_for_key entry.1) max_bytes) ∧
      max_bytes.toNat < total (change map entry) (namespace_for_key entry.1)) ∨
    ∃ next, count_final state max_bytes totals entry = .ok next ∧ Counts next (change map entry) ∧
      total (change map entry) (namespace_for_key entry.1) ≤ max_bytes.toNat := by
  have grown := total_change map (namespace_for_key entry.1) entry
  have holds := size_le_total map entry.1
  rw [unchanged,if_pos rfl,if_pos rfl] at grown
  rw [unchanged] at holds
  have judged : ∀ x : UInt64, x.toNat = total (change map entry) (namespace_for_key entry.1) →
      count_final state max_bytes totals entry = judge max_bytes totals (namespace_for_key entry.1) x →
      (count_final state max_bytes totals entry = .error (.NamespaceQuotaExceeded (namespace_for_key entry.1) max_bytes) ∧
        max_bytes.toNat < total (change map entry) (namespace_for_key entry.1)) ∨
      ∃ next, count_final state max_bytes totals entry = .ok next ∧ Counts next (change map entry) ∧
        total (change map entry) (namespace_for_key entry.1) ≤ max_bytes.toNat := by
    intro x same turns
    rw [turns,judge,← same]
    by_cases above : x > max_bytes
    · exact .inl ⟨if_pos above,UInt64.lt_iff_toNat_lt.mp above⟩
    · refine .inr ⟨_,if_neg above,?_,Nat.le_of_not_lt (fun less => above (UInt64.lt_iff_toNat_lt.mpr less))⟩
      intro ns
      rw [getD_insert]
      by_cases inside : namespace_for_key entry.1 = ns
      · rw [if_pos inside,same,inside]
      · have apart := total_change map ns entry
        rw [if_neg inside,if_neg inside] at apart
        rw [if_neg inside,counts ns]
        omega
  obtain ⟨reduced,less,removes,puts⟩ := @count_final_reduced state map max_bytes totals entry counts before
  cases added : entry.2 with
  | none =>
    rw [added] at grown
    have zero : size (none : Option Bytes) = 0 := rfl
    exact .inr (judged reduced (by omega) (removes added))
  | some value =>
    rw [added] at grown after
    have length : size (some value) = value.length := rfl
    rw [length] at grown after
    have turns := puts value added
    cases sum : reduced.checked_add (.ofNat value.length) with
    | none =>
      rw [sum] at turns
      exact .inl turns
    | some x =>
      rw [sum] at turns
      refine .inr (judged x ?_ turns)
      rw [u64_checked_add_some sum,u64_of_size after]
      omega

/-- While the keys are visited one after another, no total of the namespace just
    visited passes the limit. -/
def StaysWithin (state : State) (limit : Nat) (entries : List (Bytes × Option Bytes)) : Prop :=
  ∀ front entry rest, entries = front ++ entry :: rest →
    total (changeAll state (front ++ [entry])) (namespace_for_key entry.1) ≤ limit

/-- The loop over the final values stops at the first total that is too high. -/
theorem count_finals {state : State} {max_bytes : UInt64} (entries visited : List (Bytes × Option Bytes)) (totals : Totals)
    (counts : Counts totals (changeAll state visited)) (distinct : ((visited ++ entries).map Prod.fst).Nodup)
    (before : ∀ entry ∈ entries, size state[entry.1]? < 2 ^ 64) (after : ∀ entry ∈ entries, size entry.2 < 2 ^ 64)
    (result : Except EngineError Totals) (counted : entries.foldlM (count_final state max_bytes) totals = result)
    (small : result ≠ .error .NamespaceQuotaOverflow) :
    (∃ final, result = .ok final) ↔ ∀ front entry rest, entries = front ++ entry :: rest →
      total (changeAll state (visited ++ (front ++ [entry]))) (namespace_for_key entry.1) ≤ max_bytes.toNat := by
  induction entries generalizing visited totals with
  | nil =>
    subst counted
    simp
  | cons entry entries ih =>
    have unvisited : entry.1 ∉ visited.map Prod.fst := by
      rw [List.map_append,List.nodup_append] at distinct
      intro member
      exact distinct.2.2 _ member entry.1 (by simp) rfl
    have unchanged : (changeAll state visited)[entry.1]? = state[entry.1]? := by
      refine (changeAll_get visited state ?_ entry.1).2 unvisited
      rw [List.map_append] at distinct
      exact distinct.of_append_left
    have step : change (changeAll state visited) entry = changeAll state (visited ++ [entry]) := by
      simp [changeAll]
    rw [List.foldlM_cons] at counted
    rcases @count_final_cases state _ max_bytes totals entry counts unchanged (before entry (by simp)) (after entry (by simp)) with
      overflow | ⟨exceeded,above⟩ | ⟨next,turns,counted_next,within⟩
    · rw [overflow] at counted
      exact absurd counted.symm small
    · rw [exceeded] at counted
      subst counted
      rw [step] at above
      constructor
      · rintro ⟨final,impossible⟩
        cases impossible
      · intro all
        have here := all [] entry entries rfl
        rw [List.nil_append] at here
        omega
    · rw [turns] at counted
      rw [step] at counted_next within
      have later := ih (visited ++ [entry]) next counted_next (by simpa using distinct) (fun other member => before other (by simp [member]))
        (fun other member => after other (by simp [member])) counted
      rw [later]
      constructor
      · intro all front other rest split
        cases front with
        | nil =>
          cases split
          rw [List.nil_append]
          exact within
        | cons first front =>
          cases split
          have there := all front other rest rfl
          rwa [List.append_assoc,List.singleton_append,← List.cons_append] at there
      · intro all front other rest split
        have there := all (entry :: front) other rest (by rw [split,List.cons_append])
        rwa [List.cons_append,← List.singleton_append,← List.append_assoc] at there

/-! ## What the quota decides -/

/-- Every namespace that the operations touch ends within the limit. -/
def EndsWithin (state : State) (limit : Nat) (operations : List Operation) : Prop :=
  ∀ operation ∈ operations, total (apply_operations state operations) (namespace_for_key operation.key) ≤ limit

/-- Every value has a length, as the vectors of the source have. -/
def Sized (state : State) (operations : List Operation) : Prop :=
  (∀ (key value : Bytes), state[key]? = some value → value.length < 2 ^ 64) ∧
    ∀ key value : Bytes, .Put key value ∈ operations → value.length < 2 ^ 64

theorem final_values_touched (operations : List Operation) (key : Bytes) :
    (∃ value, (final_values operations)[key]? = some value) ↔ ∃ operation ∈ operations, operation.key = key := by
  induction operations using List.reverseRecOn with
  | nil => simp [final_values]
  | append_singleton operations o ih =>
    unfold final_values at ih ⊢
    rw [List.foldl_append]
    cases o with
    | Put changed value =>
      simp only [List.foldl_cons,List.foldl_nil,Std.ExtTreeMap.getElem?_insert,Std.LawfulEqOrd.compare_eq_iff_eq]
      by_cases same : changed = key
      · simp [same,Operation.key]
      · simp [same,ih,Operation.key]
    | Delete changed =>
      simp only [List.foldl_cons,List.foldl_nil,Std.ExtTreeMap.getElem?_insert,Std.LawfulEqOrd.compare_eq_iff_eq]
      by_cases same : changed = key
      · simp [same,Operation.key]
      · simp [same,ih,Operation.key]

/-- A final value is one that an operation puts. -/
theorem final_values_put {operations : List Operation} {key value : Bytes} (found : (final_values operations)[key]? = some (some value)) :
    .Put key value ∈ operations := by
  induction operations using List.reverseRecOn with
  | nil => simp [final_values] at found
  | append_singleton operations o ih =>
    unfold final_values at ih found
    rw [List.foldl_append] at found
    cases o with
    | Put changed put =>
      simp only [List.foldl_cons,List.foldl_nil,Std.ExtTreeMap.getElem?_insert,Std.LawfulEqOrd.compare_eq_iff_eq] at found
      by_cases same : changed = key
      · rw [if_pos same] at found
        cases found
        simp [same]
      · rw [if_neg same] at found
        exact List.mem_append_left _ (ih found)
    | Delete changed =>
      simp only [List.foldl_cons,List.foldl_nil,Std.ExtTreeMap.getElem?_insert,Std.LawfulEqOrd.compare_eq_iff_eq] at found
      by_cases same : changed = key
      · rw [if_pos same] at found
        cases found
      · rw [if_neg same] at found
        exact List.mem_append_left _ (ih found)

/-- Without an overflow, the quota accepts what stays within the limit all the way. -/
theorem quota_ok_iff {store : Store} {io : Io} {operations : List Operation} {max_bytes : UInt64}
    (limited : store.options.namespace_max_bytes = some max_bytes) (sized : Sized store.state operations)
    (small : store.check_namespace_quota io operations ≠ .error .NamespaceQuotaOverflow) :
    store.check_namespace_quota io operations = .ok () ↔ StaysWithin store.state max_bytes.toNat (walked io operations) := by
  unfold Store.check_namespace_quota at small ⊢
  rw [limited] at small ⊢
  dsimp only at small ⊢
  cases started : store.state.toList.foldlM count_entry ∅ with
  | error e =>
    rw [started,count_entries_error started] at small
    exact absurd rfl small
  | ok totals =>
    rw [started,ok_bind] at small
    rw [ok_bind]
    have counts : Counts totals (changeAll store.state []) := by
      intro ns
      rw [count_entries_ok (fun entry member => sized.1 entry.1 entry.2 (Std.ExtTreeMap.mem_toList_iff_getElem?_eq_some.mp member)) started]
      simp [changeAll,total]
    have before : ∀ entry ∈ walked io operations, size store.state[entry.1]? < 2 ^ 64 := by
      intro entry _
      cases found : store.state[entry.1]? with
      | none => simp [size]
      | some value => exact sized.1 entry.1 value found
    have after : ∀ entry ∈ walked io operations, size entry.2 < 2 ^ 64 := by
      rintro ⟨key,value⟩ member
      cases value with
      | none => simp [size]
      | some value => exact sized.2 key value (final_values_put ((walked_mem io operations key _).mp member))
    cases counted : (io.walk (final_values operations).toList).foldlM (count_final store.state max_bytes) totals with
    | error e =>
      rw [counted] at small
      have fits : (.error e : Except EngineError Totals) ≠ .error .NamespaceQuotaOverflow := fun same => small (by cases same; rfl)
      have decided := count_finals (walked io operations) [] totals counts (walked_distinct io operations) before after _ counted fits
      constructor
      · intro impossible
        cases impossible
      · intro all
        obtain ⟨final,impossible⟩ := decided.mpr all
        cases impossible
    | ok final =>
      have decided := count_finals (walked io operations) [] totals counts (walked_distinct io operations) before after _ counted (by simp)
      constructor
      · intro _
        exact decided.mp ⟨final,rfl⟩
      · intro _
        rfl

/-- What stays within the limit all the way ends within it. -/
theorem ends_of_stays {state : State} {limit : Nat} {io : Io} {operations : List Operation}
    (stays : StaysWithin state limit (walked io operations)) : EndsWithin state limit operations := by
  have last : ∀ entries : List (Bytes × Option Bytes), StaysWithin state limit entries → ∀ entry ∈ entries,
      total (changeAll state entries) (namespace_for_key entry.1) ≤ limit := by
    intro entries
    induction entries using List.reverseRecOn with
    | nil => simp
    | append_singleton entries final ih =>
      intro stays entry member
      have grown : changeAll state (entries ++ [final]) = change (changeAll state entries) final := by simp [changeAll]
      by_cases same : namespace_for_key final.1 = namespace_for_key entry.1
      · rw [← same]
        exact stays entries final [] rfl
      · have early : StaysWithin state limit entries := by
          intro front other rest split
          exact stays front other (rest ++ [final]) (by rw [split]; simp)
        have inside : entry ∈ entries := by
          rcases List.mem_append.mp member with inside | here
          · exact inside
          · rw [List.mem_singleton.mp here] at same
            exact absurd rfl same
        have unchanged := total_change (changeAll state entries) (namespace_for_key entry.1) final
        rw [if_neg same,if_neg same] at unchanged
        rw [grown]
        have held := ih early entry inside
        omega
  intro operation member
  obtain ⟨value,found⟩ := (final_values_touched operations operation.key).mpr ⟨operation,member,rfl⟩
  have within := last _ stays (operation.key,value) ((walked_mem io operations _ _).mpr found)
  rwa [changeAll_walked] at within

/-- Arithmetic overflow aside, the quota decides on the final totals exactly if
    no total passes the limit while the keys are visited, or a final one does. -/
theorem quota_decides_iff (store : Store) (io : Io) (operations : List Operation) (max_bytes : UInt64)
    (limited : store.options.namespace_max_bytes = some max_bytes) (sized : Sized store.state operations)
    (small : store.check_namespace_quota io operations ≠ .error .NamespaceQuotaOverflow) :
    (store.check_namespace_quota io operations = .ok () ↔ EndsWithin store.state max_bytes.toNat operations) ↔
      (StaysWithin store.state max_bytes.toNat (walked io operations) ∨ ¬ EndsWithin store.state max_bytes.toNat operations) := by
  rw [quota_ok_iff limited sized small]
  constructor
  · intro decides
    by_cases ends : EndsWithin store.state max_bytes.toNat operations
    · exact .inl (decides.mpr ends)
    · exact .inr ends
  · rintro (stays | beyond)
    · exact ⟨fun _ => ends_of_stays stays,fun _ => stays⟩
    · exact ⟨fun stays => absurd (ends_of_stays stays) beyond,fun ends => absurd ends beyond⟩

/-- A store that holds three bytes for the user, which is all it may hold. -/
def fullStore : Store where
  path := ["a.vstore"]
  file := []
  header := .new (.filled 0) 0
  options := { StoreOptions.default with namespace_max_bytes := some 3 }
  state := (∅ : State).insert [97] [1,2,3]
  next_tx_id := 2
  next_sequence := 4
  metrics := .default

/-- The three bytes move to another key. -/
def moveBytes : List Operation := [.Delete [97],.Put [98] [1,2,3]]

/-- The hash map is walked the other way round. -/
def backwards : Io := { calm with walk := List.reverse, walk_perm := List.reverse_perm }

theorem move_ends_within : EndsWithin fullStore.state 3 moveBytes := by
  intro operation member
  simp only [moveBytes,List.mem_cons,List.not_mem_nil,or_false] at member
  rcases member with rfl | rfl <;> decide +kernel

/-- The new key is visited before the old one, so that the move is refused. -/
theorem move_refused_backwards : EndsWithin fullStore.state 3 moveBytes ∧
    fullStore.check_namespace_quota backwards moveBytes = .error (.NamespaceQuotaExceeded "user" 3) ∧
    fullStore.check_namespace_quota calm moveBytes = .ok () :=
  ⟨move_ends_within,by decide +kernel,by decide +kernel⟩

theorem move_sized : Sized fullStore.state moveBytes := by
  constructor
  · intro key value found
    rw [show fullStore.state = (∅ : State).insert [97] [1,2,3] from rfl,get_insert] at found
    split at found
    · cases found
      decide
    · simp at found
  · intro key value member
    simp only [moveBytes,List.mem_cons,List.not_mem_nil,or_false] at member
    rcases member with impossible | here
    · cases impossible
    · cases here
      decide

/-- In the order of the keys the same move is accepted. -/
theorem move_decided_in_order : fullStore.options.namespace_max_bytes = some 3 ∧
    ((fullStore.check_namespace_quota calm moveBytes = .ok () ↔ EndsWithin fullStore.state 3 moveBytes) ↔
      (StaysWithin fullStore.state 3 (walked calm moveBytes) ∨ ¬ EndsWithin fullStore.state 3 moveBytes)) :=
  ⟨rfl,quota_decides_iff fullStore calm moveBytes 3 rfl move_sized (by
    rw [show fullStore.check_namespace_quota calm moveBytes = .ok () by decide +kernel]
    simp)⟩

end VoodooStore
